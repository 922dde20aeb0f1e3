import Mython.Proofs.Program.Origins
import Mython.Proofs.Run.Blame
import Mython.Proofs.Session.Discipline
import Mython.Proofs.Token.Slices

namespace Mython

open Run

/-- How many lines a text has. What follows the last line break is a line only if it is not
empty. -/
def lineCount (source : String) : Nat :=
  (utf8 source).count Byte.lineFeed +
    if (utf8 source).getLast?.all (· == Byte.lineFeed) then 0 else 1

/-- In front of a byte of a text there are fewer line breaks than there are lines. -/
theorem count_take_lt_lineCount {source : String} {i : Nat} (hi : i < (utf8 source).length) :
    ((utf8 source).take i).count Byte.lineFeed < lineCount source := by
  rw [lineCount]
  split
  · next hends =>
    have hne : utf8 source ≠ [] := by
      intro hnil
      rw [hnil] at hi
      cases hi
    have hlast := List.getLast?_eq_some_getLast hne
    obtain ⟨front, hfront⟩ := List.getLast?_eq_some_iff.1 hlast
    have hbreak : (utf8 source).getLast hne = Byte.lineFeed := by
      rw [hlast] at hends
      simpa using hends
    rw [hbreak] at hfront
    rw [hfront, List.length_append, List.length_singleton] at hi
    rw [hfront, List.take_append_of_le_length (by omega), List.count_append,
      List.count_singleton_self]
    have hle := (List.take_sublist i front).count_le Byte.lineFeed
    omega
  · have hle := (List.take_sublist i (utf8 source)).count_le Byte.lineFeed
    omega

/-- A token with a text of its own stands on a line of the text. -/
theorem ContentAt.line_le {source : String} {pos : Position} (h : ContentAt source pos) :
    1 ≤ pos.line ∧ pos.line ≤ lineCount source := by
  obtain ⟨ts, t, hts, ht, hk, rfl⟩ := h
  obtain ⟨r, hplaced⟩ := Slices.placed_of_tokenize hts ht
  have hlt := count_take_lt_lineCount (hplaced.nonempty hk)
  rw [hplaced.line]
  omega

/-- A piece of a program has its place on a line. -/
def Program.HasLine (p : Program) (line : Nat) : Prop :=
  ∃ node pos, p.Contains node ∧ node.pos? = some pos ∧ pos.line = line

/-- The lines of a session are those of its programs. -/
theorem Realm.session_line {tasks : List Task} {line : Nat} :
    (session tasks).Line line ↔ ∃ t ∈ tasks, t.program.HasLine line := by
  constructor
  · rintro ⟨node, pos, ⟨t, ht, hnode⟩, hpos, hline⟩
    exact ⟨t, ht, node, pos, hnode, hpos, hline⟩
  · rintro ⟨t, ht, node, pos, hnode, hpos, hline⟩
    exact ⟨node, pos, ⟨t, ht, hnode⟩, hpos, hline⟩

namespace Job

variable {job : Job} {p : Program}

/-- A program as the job runs it. -/
def task (job : Job) (p : Program) : Task := ⟨p, job.limit, plentyOfFuel, .ofWrites job.writes⟩

/-- What a job runs, if its source is a program. -/
def task? (job : Job) : Option Task := (parse job.source).toOption.map job.task

theorem task?_of_ok (h : parse job.source = .ok p) : job.task? = some (job.task p) := by
  rw [task?, h]
  rfl

theorem task?_of_error {e : SyntaxError} (h : parse job.source = .error e) : job.task? = none := by
  rw [task?, h]
  rfl

theorem parse_of_task? {t : Task} (h : job.task? = some t) : parse job.source = .ok t.program := by
  cases hp : parse job.source with
  | error e =>
    rw [task?_of_error hp] at h
    cases h
  | ok p =>
    rw [task?_of_ok hp] at h
    cases h
    rfl

end Job

/-- The fault that a job ended in. -/
def Failure.fault? : Failure → Option Fault
  | halted (.fault fault) => some fault
  | _ => none

theorem Failure.fault?_eq_some {failure : Failure} {fault : Fault} :
    failure.fault? = some fault ↔ failure = .halted (.fault fault) := by
  rcases failure with _ | (_ | _) <;> simp [fault?]

namespace Machine

variable {m : Machine}

/-- The state behind several programs of a session. -/
def after (m : Machine) (tasks : List Task) : Machine :=
  tasks.foldl (fun m t => (m.undertake t).2) m

theorem covers_after {tasks before : List Task} (ht : ∀ t ∈ before, t ∈ tasks)
    (hm : (Realm.session tasks).Covers m) : (Realm.session tasks).Covers (m.after before) := by
  induction before generalizing m with
  | nil => exact hm
  | cons t before ih =>
    exact ih (fun other hother => ht other (List.mem_cons_of_mem _ hother))
      (undertake_covers (ht t List.mem_cons_self) hm)

/-- A fault of a program shows a line of that program, or of one before it in the session. -/
theorem hasLine_of_fault (sink : Sink) (before : List Task) (t : Task) {fault : Fault}
    (h : (((start sink).after before).undertake t).1 = .error (.fault fault)) :
    ∃ t' ∈ before ++ [t], t'.program.HasLine fault.line := by
  have hcovers : (Realm.session (before ++ [t])).Covers ((start sink).after before) :=
    covers_after (fun _ => List.mem_append_left [t]) (Realm.session_covers _ sink)
  have hlast : t ∈ before ++ [t] := List.mem_append_right before (List.mem_singleton_self t)
  have hblames := Program.blames (Realm.session_code hlast) t.limit t.fuel (hcovers.renew t.sink)
  exact Realm.session_line.1 (hblames fault h)

/-- The state behind several jobs. -/
def behind (m : Machine) (jobs : List Job) : Machine :=
  jobs.foldl (fun m job => (m.perform job).2) m

theorem getElem?_performAll (jobs : List Job) (i : Nat) :
    (m.performAll jobs)[i]? =
      jobs[i]?.map fun job => ((m.behind (jobs.take i)).perform job).1 := by
  induction jobs generalizing m i with
  | nil => simp [performAll]
  | cons job jobs ih =>
    cases i with
    | zero => rfl
    | succ i => exact ih i

/-- Behind jobs a program finds what it finds behind those of their sources that are programs. -/
theorem renew_behind {m' : Machine} (jobs : List Job) (h : ∀ sink, m.renew sink = m'.renew sink)
    (sink : Sink) :
    (m.behind jobs).renew sink = (m'.after (jobs.filterMap Job.task?)).renew sink := by
  induction jobs generalizing m m' with
  | nil => exact h sink
  | cons job jobs ih =>
    cases hp : parse job.source with
    | error e =>
      have hstays : (m.perform job).2 = m.renew (.ofWrites job.writes) := by rw [perform, hp]
      rw [List.filterMap_cons_none (Job.task?_of_error hp)]
      exact ih fun other => (congrArg (fun m => m.renew other) hstays).trans (h other)
    | ok p =>
      have hruns := m.perform_eq_undertake job hp
      rw [undertake, h] at hruns
      rw [List.filterMap_cons_some (Job.task?_of_ok hp)]
      exact ih fun other => congrArg (fun m => m.renew other) hruns

/-- A job that ends in a fault is a run of its program that does. -/
theorem perform_fault {job : Job} {fault : Fault}
    (h : (m.perform job).1.failure = some (.halted (.fault fault))) :
    ∃ t ∈ job.task?, (m.undertake t).1 = .error (.fault fault) := by
  rw [perform] at h
  cases hp : parse job.source with
  | error e =>
    rw [hp] at h
    cases h
  | ok p =>
    refine ⟨job.task p, Job.task?_of_ok hp, ?_⟩
    have hrun : m.undertake (job.task p) =
        (m.renew (.ofWrites job.writes)).execute job.limit p := rfl
    rw [hrun]
    rw [hp] at h
    rcases hr : execute (m.renew (.ofWrites job.writes)) job.limit p with ⟨e | a, m'⟩
    · simp only [hr] at h
      cases h
      rfl
    · simp only [hr] at h
      cases h

/-- Faults point into programs. Every place in a program is that of a token of its text with a text
of its own. In a session, a program that ends in a fault shows a line of its own, or of a program
before it; so does a job. A program that is run first shows a line of its text on which a token with
a text of its own stands. -/
theorem faults_point_into_programs :
    (∀ source p, parse source = .ok p → ∀ node pos, p.Contains node → node.pos? = some pos →
      ContentAt source pos) ∧
    (∀ sink before t fault,
      (((start sink).after before).undertake t).1 = .error (.fault fault) →
      ∃ t' ∈ before ++ [t], t'.program.HasLine fault.line) ∧
    (∀ sink jobs i report fault, ((start sink).performAll jobs)[i]? = some report →
      report.failure = some (.halted (.fault fault)) →
      ∃ job ∈ jobs.take (i + 1), ∃ p, parse job.source = .ok p ∧ p.HasLine fault.line) ∧
    (∀ source p limit fuel sink fault, parse source = .ok p →
      (p.exec (.within limit fuel) (start sink)).1 = .error (.fault fault) →
      1 ≤ fault.line ∧ fault.line ≤ lineCount source ∧
        ∃ pos, ContentAt source pos ∧ pos.line = fault.line) := by
  refine ⟨?_, fun sink before t _ => hasLine_of_fault sink before t, ?_, ?_⟩
  · intro source p hp node pos hnode hpos
    exact Parse.contentAt_of_contains hp hnode hpos
  · intro sink jobs i report fault hreport hfault
    rw [getElem?_performAll] at hreport
    obtain ⟨job, hjob, rfl⟩ := Option.map_eq_some_iff.1 hreport
    obtain ⟨t, ht, hrun⟩ := perform_fault hfault
    rw [undertake, renew_behind (jobs.take i) (fun _ => rfl)] at hrun
    obtain ⟨t', ht', hline⟩ := hasLine_of_fault sink _ t hrun
    have htasks : (jobs.take i).filterMap Job.task? ++ [t] =
        (jobs.take (i + 1)).filterMap Job.task? := by
      rw [List.take_add_one, hjob, List.filterMap_append, Option.toList_some,
        List.filterMap_cons_some ht, List.filterMap_nil]
    rw [htasks] at ht'
    obtain ⟨origin, horigin, htask⟩ := List.mem_filterMap.1 ht'
    exact ⟨origin, horigin, t'.program, Job.parse_of_task? htask, hline⟩
  · intro source p limit fuel sink fault hp hrun
    obtain ⟨t', ht', node, pos, hnode, hpos, hline⟩ :=
      hasLine_of_fault sink [] ⟨p, limit, fuel, sink⟩ hrun
    obtain rfl := List.mem_singleton.1 ht'
    have hcontent := Parse.contentAt_of_contains hp hnode hpos
    obtain ⟨hone, hle⟩ := hcontent.line_le
    rw [hline] at hone hle
    exact ⟨hone, hle, pos, hcontent, hline⟩

/-- A program with a method that fails on its third line, and one that calls it. -/
def dividing : List Job :=
  [⟨"class A:\n  def f():\n    return 1 / 0\n\na = A()\n", 10, none⟩, ⟨"a.f()\n", 10, none⟩]

/-- The fault of the second program shows a line of the first one, where a token stands. The same
fault in a text of one line shows that line. -/
theorem faults_point_into_programs_dividing :
    (∃ job ∈ dividing, ∃ pos, ContentAt job.source pos ∧ pos.line = 3) ∧
    lineCount "print 1 / 0\n" = 1 ∧ ∃ pos, ContentAt "print 1 / 0\n" pos ∧ pos.line = 1 := by
  obtain ⟨hplaces, -, hjobs, halone⟩ := faults_point_into_programs
  refine ⟨?_, by decide +kernel, ?_⟩
  · have hfault : (((start .endless).performAll dividing)[1]?.bind fun report =>
        report.failure.bind Failure.fault?) = some ⟨3, .divisionByZero⟩ := by decide +kernel
    obtain ⟨report, hreport, hfailure⟩ := Option.bind_eq_some_iff.1 hfault
    obtain ⟨failure, hfound, hhalt⟩ := Option.bind_eq_some_iff.1 hfailure
    rw [Failure.fault?_eq_some.1 hhalt] at hfound
    obtain ⟨job, hjob, p, hp, node, pos, hnode, hpos, hline⟩ :=
      hjobs .endless dividing 1 report _ hreport hfound
    exact ⟨job, hjob, pos, hplaces _ p hp node pos hnode hpos, hline⟩
  · have hfault : (((start .endless).perform ⟨"print 1 / 0\n", 10, none⟩).1.failure.bind
        Failure.fault?) = some ⟨1, .divisionByZero⟩ := by decide +kernel
    obtain ⟨failure, hfound, hhalt⟩ := Option.bind_eq_some_iff.1 hfault
    rw [Failure.fault?_eq_some.1 hhalt] at hfound
    obtain ⟨t, ht, hrun⟩ := perform_fault hfound
    exact (halone _ t.program t.limit t.fuel t.sink _ (Job.parse_of_task? ht) hrun).2.2

end Machine

end Mython
