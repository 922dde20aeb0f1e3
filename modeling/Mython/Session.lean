import Mython.Program.Statement
import Mython.Run.Call
import Mython.Snapshot

namespace Mython

/-- The limit on the depth of calls when none is given. -/
def defaultDepth : Nat := 2000

/-- Fuel for a run: more calls than anyone would wait for. -/
def plentyOfFuel : Nat := 1000000000000000000

/-- The guest for runs with a limit on the depth of calls. -/
def Guest.limited (limit : Nat) : Guest := .within limit plentyOfFuel

/-- Runs a program. A return outside any method ends it. -/
def Program.exec (g : Guest) (p : Program) : Run Unit := do
  match ← Stmt.execAll g p.body with
  | .next x | .ret x => Run.release x

/-- A sink that takes a number of texts, or everything. -/
def Sink.ofWrites (writes : Option Nat) : Sink where
  capacity := match writes with
    | some n => .writes n
    | none => .endless
  refusal := "sink full"
  written := #[]

/-- A program to be run. -/
structure Job where
  source : String
  /-- The limit on the depth of calls. -/
  limit : Nat
  /-- How many texts the sink takes. -/
  writes : Option Nat

/-- Why a job did not finish. -/
inductive Failure where
  | rejected (e : SyntaxError)
  | halted (halt : Halt)

/-- What a job leaves to be seen. -/
structure Report where
  output : String
  globals : List (String × Snapshot)
  failure : Option Failure

namespace Machine

/-- The machine with a new sink, outside all calls. -/
def renew (m : Machine) (sink : Sink) : Machine := { m with sink, depth := 0 }

/-- Runs a program with a limit on the depth of calls. -/
def execute (m : Machine) (limit : Nat) (p : Program) : Except Halt Unit × Machine :=
  p.exec (.limited limit) m

/-- Does a job in the scope that is there. -/
def perform (m : Machine) (job : Job) : Report × Machine :=
  let m := m.renew (.ofWrites job.writes)
  match parse job.source with
  | .error e => (⟨"", m.globals, some (.rejected e)⟩, m)
  | .ok p =>
    let (result, m) := m.execute job.limit p
    let failure := match result with
      | .ok () => none
      | .error halt => some (.halted halt)
    (⟨m.sink.contents, m.globals, failure⟩, m)

/-- Does jobs one after another. -/
def performAll : Machine → List Job → List Report
  | _, [] => []
  | m, job :: jobs =>
    let (report, m) := m.perform job
    report :: m.performAll jobs

end Machine

/-- Does jobs in a new scope. -/
def performAll (jobs : List Job) : List Report :=
  (Machine.start .endless).performAll jobs

/-- How a single statement ended, with a picture of its value. -/
inductive StepEnd where
  | value (picture : Snapshot)
  | returned (picture : Snapshot)
  | halted (halt : Halt)

/-- What a single statement leaves to be seen. -/
structure StepReport where
  ending : StepEnd
  output : String
  globals : Option (List (String × Snapshot))

namespace Machine

/-- Executes a statement with a sink that has been emptied, and lets go of its value once a picture
has been taken. -/
def step (m : Machine) (limit : Nat) (s : Stmt) : StepEnd × Machine :=
  let m := { m with sink := { m.sink with written := #[] } }
  match s.exec (.limited limit) m with
  | (.ok (.next x), m) =>
    (.value (m.heap.snapshot x), { m with heap := m.heap.release x })
  | (.ok (.ret x), m) =>
    (.returned (m.heap.snapshot x), { m with heap := m.heap.release x })
  | (.error halt, m) => (.halted halt, m)

/-- Executes statements in order, going on after faults and returns. Unless all reports are to show
the scope, only the last one does. -/
def stepAll (limit : Nat) (showAll : Bool) : Machine → List Stmt → List StepReport
  | _, [] => []
  | m, s :: ss =>
    let (ending, m) := m.step limit s
    let globals := if showAll || ss.isEmpty then some m.globals else none
    ⟨ending, m.sink.contents, globals⟩ :: stepAll limit showAll m ss

end Machine

/-- Executes the statements of a program in a new scope, going on after faults and returns. -/
def stepThrough (job : Job) (showAll : Bool) : Except SyntaxError (List StepReport) := do
  let p ← parse job.source
  return (Machine.start (.ofWrites job.writes)).stepAll job.limit showAll p.body

end Mython
