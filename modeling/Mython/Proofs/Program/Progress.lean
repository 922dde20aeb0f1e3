import Mython.Proofs.Program.Precedence
import Mython.Proofs.Program.Pulling

namespace Mython

open Token (Kind)

namespace Cursor

/-- The tokens of a cursor and the error behind them. -/
def stream (c : Cursor) : TokenStream := ⟨c.tokens, c.fault⟩

variable {c c' : Cursor}

theorem holds_of_ends (h : c.stream.Ends) : (c.stream.window [] none).Holds c :=
  ⟨rfl, h, List.suffix_refl _⟩

/-- From one cursor to another one behind some of its tokens, a given number at least. -/
structure Passes (least : Nat) (c c' : Cursor) : Prop where
  run : ∃ run, c.tokens = run ++ c'.tokens ∧ least ≤ run.length
  fault : c'.fault = c.fault
  ends : c'.stream.Ends

end Cursor

namespace Parse

variable {p : Parse α} {room least bound : Nat}

/-- A reader gets on: in front of fewer tokens than there is room for, it passes a given number of
them at least, or gives up with the error behind them or with one of the grammar. -/
structure Progresses (room least : Nat) (p : Parse α) : Prop where
  passes : ∀ ⦃c a c'⦄, c.stream.Ends → c.count < room → p c = .ok (a, c') → c.Passes least c'
  fails : ∀ ⦃c e⦄, c.stream.Ends → c.count < room → p c = .error e → c.fault = some e ∨ e.OfGrammar

/-- A reader that can be followed gets on. -/
theorem Progresses.of_follows {f : Window → α → β} {q : Window → Parse β}
    (h : ∀ w, Follows w Kind.Any room least (f w) p (q w)) : Progresses room least p where
  passes c a c' hc hcount hrun := by
    obtain ⟨hholds, hleft⟩ :=
      (h (c.stream.window [] none)).left (Cursor.holds_of_ends hc) trivial hcount hrun
    obtain ⟨run, hrun⟩ := hholds.suffix
    refine ⟨⟨run, hrun.symm, ?_⟩, hholds.fault, fun hnone => hholds.ends (hholds.fault ▸ hnone)⟩
    have hlength : run.length + c'.count = c.count := by
      rw [Cursor.count, Cursor.count, ← List.length_append, hrun]
      rfl
    omega
  fails c e hc hcount hrun := by
    have hends := (h (c.stream.window [] none)).fails (Cursor.holds_of_ends hc) trivial hcount hrun
    rcases hends with hfault | ⟨hcause, -⟩
    · exact Or.inl hfault
    · exact Or.inr (SyntaxError.ofGrammar_of_cause hcause)

/-- The readers that programs are read with, each with the room for tokens in front of it and the
number of tokens that it reads at least: a statement, a method, an expression, every level of
precedence; and every loop, which may read nothing: the statements of a program, of a block, the
methods of a class, parameters, arguments, what is printed behind the first argument, and the
operators and selections behind an operand. A loop has a bound of its own. -/
inductive Routine (bound : Nat) : {α : Type} → Nat → Nat → Parse α → Prop
  | statement {n : Nat} (hn : n ≤ bound) : Routine bound n 1 (nestedStatement bound n)
  | method {n : Nat} (hn : n < bound) : Routine bound n 1 (method (nestedStatement bound n) bound)
  | expression {n : Nat} (hn : n ≤ bound) : Routine bound n 1 (nested bound n)
  | level {n m : Nat} (level : Grammar.Level) (hn : n < bound) (hm : n < m) :
    Routine bound (n + 1) 1 (level.reader (nested bound n) bound m)
  | statements {n m : Nat} (hn : n ≤ bound) (hm : n ≤ m) : Routine bound n 0 (statements bound m)
  | body {n m : Nat} (hn : n ≤ bound) (hm : n ≤ m) :
    Routine bound n 0 (untilDedent (nestedStatement bound n) m)
  | methods {n m : Nat} (hn : n < bound) (hm : n ≤ m) :
    Routine bound n 0 (untilDedent (Parse.method (nestedStatement bound n) bound) m)
  | params {n m : Nat} (hm : n ≤ m) : Routine bound n 0 (commaList name m)
  | args {n m : Nat} (hn : n ≤ bound) (hm : n ≤ m) :
    Routine bound n 0 (commaList (nested bound n) m)
  | printed {n m : Nat} (hn : n ≤ bound) (hm : n ≤ m) : Routine bound n 0 (printRest bound m)
  | rest {n m : Nat} (level : Grammar.Level) (left : Expr) (hn : n < bound) (hm : n ≤ m) :
    Routine bound n 0 (level.goOn (nested bound n) bound m left)

namespace Follows

variable {w : Window} {whole : Parse Expr} {n m : Nat}

/-- Every level reads a token at least. -/
theorem reader (hwhole : Follows w Kind.Any n 1 (Expr.down w.lines) whole whole) (hn : n < bound)
    (hm : n < m) (level : Grammar.Level) :
    Follows w Kind.Any (n + 1) 1 (Expr.down w.lines) (level.reader whole bound m)
      (level.reader whole bound m) := by
  cases level with
  | disjunction =>
    exact Follows.level (conjunction hwhole hn le_rfl) hm le_rfl joins_disj
  | conjunction =>
    exact Follows.level (inversion hwhole hn le_rfl) hm le_rfl joins_conj
  | inversion =>
    apply leadingChain (comparison hwhole hn le_rfl) hm le_rfl ⟨by simp, by simp⟩
    intro e pos
    rw [Expr.down]
  | comparison => exact comparison hwhole hn le_rfl
  | sum => exact Follows.level (product hwhole hn le_rfl) hm le_rfl joins_sum
  | product => exact Follows.level (factor hwhole hn le_rfl) hm le_rfl joins_product
  | factor =>
    apply leadingChain (selected hwhole hn le_rfl) hm le_rfl ⟨by simp, by simp⟩
    intro e pos
    rw [Expr.down]
  | selection =>
    apply (primary hwhole hn le_rfl).bind_of
    intro e
    exact selections (hwhole.within (by omega)) (by omega) le_rfl le_rfl (by omega) e
  | primary => exact primary hwhole hn le_rfl

/-- What goes on behind an operand stops in front of whatever is no part of it. -/
theorem goOn (hwhole : Follows w Kind.Any n 1 (Expr.down w.lines) whole whole) (hn : n < bound)
    (hm : n ≤ m) (level : Grammar.Level) (left : Expr) :
    Follows w Kind.Any n 0 (Expr.down w.lines) (level.goOn whole bound m left)
      (level.goOn whole bound m (left.down w.lines)) := by
  cases level with
  | disjunction =>
    exact leftChain ((conjunction hwhole hn le_rfl).within (Nat.le_succ n)) hm le_rfl
      joins_disj left
  | conjunction =>
    exact leftChain ((inversion hwhole hn le_rfl).within (Nat.le_succ n)) hm le_rfl joins_conj left
  | sum =>
    exact leftChain ((product hwhole hn le_rfl).within (Nat.le_succ n)) hm le_rfl joins_sum left
  | product =>
    exact leftChain ((factor hwhole hn le_rfl).within (Nat.le_succ n)) hm le_rfl joins_product left
  | selection => exact selections hwhole hn le_rfl le_rfl hm left
  | inversion => exact pure rfl
  | comparison => exact pure rfl
  | factor => exact pure rfl
  | primary => exact pure rfl

end Follows

/-- Every reader gets on. -/
theorem Routine.progresses (h : Routine bound room least p) : Progresses room least p := by
  have hwhole {w : Window} {k : Nat} (hk : k ≤ bound) :
      Follows w Kind.Any k 1 (Expr.down w.lines) (nested bound k) (nested bound k) :=
    .nested le_rfl le_rfl hk
  have hinner {w : Window} {k : Nat} (hk : k ≤ bound) :
      Follows w Kind.Any k 1 (Stmt.down w.lines) (nestedStatement bound k)
        (nestedStatement bound k) := .nestedStatement le_rfl le_rfl hk
  cases h with
  | statement hn => exact .of_follows fun w => hinner hn
  | method hn => exact .of_follows fun w => .method (hinner hn.le) hn le_rfl
  | expression hn => exact .of_follows fun w => hwhole hn
  | level level hn hm => exact .of_follows fun w => .reader (hwhole hn.le) hn hm level
  | statements hn hm => exact .of_follows fun w => .statements le_rfl hm le_rfl hn
  | body hn hm => exact .of_follows fun w => .untilDedent (hinner hn) hm le_rfl
  | methods hn hm =>
    exact .of_follows fun w => .untilDedent (.method (hinner hn.le) hn le_rfl) hm le_rfl
  | params hm => exact .of_follows fun w => .commaList (f := id) .name hm le_rfl
  | args hn hm => exact .of_follows fun w => .commaList (hwhole hn) hm le_rfl
  | printed hn hm => exact .of_follows fun w => .printRest le_rfl hm le_rfl hn
  | rest level left hn hm => exact .of_follows fun w => .goOn (hwhole hn.le) hn hm level left

end Parse

end Mython
