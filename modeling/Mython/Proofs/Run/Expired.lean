import Mython.Proofs.Run.Likeness
import Mython.Proofs.Store.Expired

namespace Mython

open Run

variable {gone : Set Loc}

/-- Two states of which the second has nothing in place of some expired handles of the first. -/
structure Machine.Fades (gone : Set Loc) (m m' : Machine) : Prop where
  heap : m.heap.Fades gone m'.heap
  scope : m.scope.Fades gone m'.scope
  sink : m'.sink = m.sink
  depth : m'.depth = m.depth

/-- Two completed statements that end alike, with values that fade. -/
inductive Completion.Fades (gone : Set Loc) : Completion → Completion → Prop
  | next {x x' : Handle} (h : x.Fades gone x') : Fades gone (.next x) (.next x')
  | ret {x x' : Handle} (h : x.Fades gone x') : Fades gone (.ret x) (.ret x')

/-- Two runs that end alike: with related results or with the same halt, in states that fade. -/
inductive Run.Ends (gone : Set Loc) (R : α → α → Prop) :
    Except Halt α × Machine → Except Halt α × Machine → Prop
  | ok {a a' : α} {m m' : Machine} (ha : R a a') (hm : m.Fades gone m') :
      Ends gone R (.ok a, m) (.ok a', m')
  | error (halt : Halt) {m m' : Machine} (hm : m.Fades gone m') :
      Ends gone R (.error halt, m) (.error halt, m')

/-- Two runs that end alike from any two states that fade. -/
def Run.Fades (gone : Set Loc) (R : α → α → Prop) (f f' : Run α) : Prop :=
  ∀ m m', m.Fades gone m' → Ends gone R (f m) (f' m')

/-- Values that fade, one by one. -/
abbrev Handle.FadesAll (gone : Set Loc) : List Handle → List Handle → Prop :=
  List.Forall₂ (Handle.Fades gone)

/-- Requests about values that fade end alike. -/
structure Guest.Fades (gone : Set Loc) (g : Guest) : Prop where
  call : ∀ {x x'}, x.Fades gone x' → ∀ (name : String) {args args'},
    Handle.FadesAll gone args args' → ∀ line,
      Run.Fades gone (Handle.Fades gone) (g.call x name args line) (g.call x' name args' line)
  render : ∀ {x x'}, x.Fades gone x' → ∀ line,
    Run.Fades gone Eq (g.render x line) (g.render x' line)

theorem Machine.fades_iff_like {m m' : Machine} : m.Fades gone m' ↔ m.Like (.fading gone) m' :=
  ⟨fun hm => ⟨Heap.fades_iff_like.1 hm.heap, hm.scope, hm.sink, hm.depth⟩,
    fun hm => ⟨Heap.fades_iff_like.2 hm.heap, hm.scope, hm.sink, hm.depth⟩⟩

theorem Machine.Fades.mono {gone' : Set Loc} {m m' : Machine} (hm : m.Fades gone m')
    (hle : gone ⊆ gone') (hgone : gone' ⊆ m.heap.gone) : m.Fades gone' m' :=
  ⟨hm.heap.mono hle hgone, hm.scope.mono hle, hm.sink, hm.depth⟩

theorem Completion.fades_of_like {done done' : Completion}
    (h : done.Like (Handle.Fades gone) done') : done.Fades gone done' := by
  cases h with
  | next h => exact .next h
  | ret h => exact .ret h

namespace Run

variable {R S : α → α → Prop} {f f' : Run α}

theorem Fades.of_like (h : Run.Like (.fading gone) R f f') (hR : ∀ a a', R a a' → S a a') :
    Run.Fades gone S f f' := by
  intro m m' hm
  have hends := h m m' (Machine.fades_iff_like.1 hm)
  generalize f m = r, f' m' = r' at hends
  cases hends with
  | ok ha hs => exact .ok (hR _ _ ha) (Machine.fades_iff_like.2 hs)
  | error halt hs => exact .error halt (Machine.fades_iff_like.2 hs)

theorem Fades.like (h : Run.Fades gone R f f') : Run.Like (.fading gone) R f f' := by
  intro m m' hm
  have hends := h m m' (Machine.fades_iff_like.2 hm)
  generalize f m = r, f' m' = r' at hends
  cases hends with
  | ok ha hs => exact .ok ha (Machine.fades_iff_like.1 hs)
  | error halt hs => exact .error halt (Machine.fades_iff_like.1 hs)

end Run

/-- A statement ends alike in states that fade. -/
theorem Stmt.fades_exec {g : Guest} (hg : g.Fades gone) (s : Stmt) :
    Run.Fades gone (Completion.Fades gone) (s.exec g) (s.exec g) := by
  have hguest : g.Like (.fading gone) g :=
    ⟨fun hx name _ _ hargs line => (hg.call hx name hargs line).like,
      fun hx line => (hg.render hx line).like⟩
  exact .of_like (s.like_exec hguest) fun _ _ => Completion.fades_of_like

/-- Requests about values that fade end alike, with every limit and any amount of fuel. -/
theorem Guest.within_fades (gone : Set Loc) (limit n : Nat) : (within limit n).Fades gone := by
  have hguest : (hosted id limit n).Like (.fading gone) (hosted id limit n) :=
    like_hosted (fun _ => rfl) limit n
  rw [hosted_id] at hguest
  exact ⟨fun hx name _ _ hargs line => .of_like (hguest.call hx name hargs line) fun _ _ h => h,
    fun hx line => .of_like (hguest.render hx line) fun _ _ h => h⟩

/-- Two states that are equal but that the second has nothing in place of some expired handles of
the first. -/
def Machine.Faded (m m' : Machine) : Prop := m.Fades m.heap.gone m'

/-- A handle that a state cannot tell from the absent one, whatever it is used for. -/
structure Machine.TakesForAbsent (m : Machine) (x : Handle) : Prop where
  object : m.heap.object? x = none
  kind : m.heap.kind x = m.heap.kind .absent
  truth : m.heap.isTrue x = m.heap.isTrue .absent
  comparison : ∀ relation y, m.heap.holds relation x y = m.heap.holds relation .absent y ∧
    m.heap.holds relation y x = m.heap.holds relation y .absent
  adder : ∀ name arity, m.heap.accepting? x name arity = m.heap.accepting? .absent name arity
  arithmetic : ∀ (op : ArithOp) y, op.onValues m.heap x y = op.onValues m.heap .absent y ∧
    op.onValues m.heap y x = op.onValues m.heap y .absent
  negation : m.heap.negated x = m.heap.negated .absent
  field : ∀ owner name, m.heap.field x owner name = m.heap.field .absent owner name
  call : ∀ limit name args,
    m.dispatch limit x name args = m.dispatch limit .absent name args
  text : ∀ (g : Guest) line, g.text x line m = g.text .absent line m

theorem Machine.takesForAbsent {m : Machine} {loc : Loc} (hloc : loc ∈ m.heap.gone) :
    m.TakesForAbsent (.share loc) := by
  have hnone := Heap.object?_of_gone hloc
  have hx : (Likeness.fading m.heap.gone).handle (.share loc) .absent := .expired hloc
  have hsame : ∀ y, (Likeness.fading m.heap.gone).handle y y := .same
  have hh : m.heap.Like (.fading m.heap.gone) m.heap := Heap.fades_iff_like.1 (.refl subset_rfl)
  constructor
  case object => exact hnone
  case kind => exact (hh.kind_eq hx).symm
  case truth => exact (hh.isTrue_eq hx).symm
  case comparison =>
    intro relation y
    exact ⟨(hh.holds_eq hx (hsame y) relation).symm, (hh.holds_eq (hsame y) hx relation).symm⟩
  case adder =>
    intro name arity
    exact (hh.accepting?_eq hx name arity).symm
  case arithmetic =>
    intro op y
    exact ⟨(hh.onValues_eq hx (hsame y) op).symm, (hh.onValues_eq (hsame y) hx op).symm⟩
  case negation => exact (hh.negated_eq hx).symm
  case field =>
    intro owner name
    rw [Heap.field, hnone]
    rfl
  case call =>
    intro limit name args
    rw [Machine.dispatch, Machine.dispatch, hnone]
    rfl
  case text =>
    intro g line
    rw [Guest.text, ask_bind, hnone]
    rfl

/-- Two runs that end alike leave states of which the second has nothing in place of handles that
have expired in the first. -/
theorem Run.Ends.fades {R : α → α → Prop} {r r' : Except Halt α × Machine}
    (h : Ends gone R r r') : r.2.Fades gone r'.2 := by
  cases h with
  | ok ha hm => exact hm
  | error halt hm => exact hm

/-- An expired handle is indistinguishable from the absent one. A statement that is executed where
some expired handles are absent instead ends in the same way, with the same output, and leaves
states that again differ only so. What has expired leads to nothing ever after, and is taken for
absent wherever it is used. -/
theorem Stmt.expired_as_absent (limit fuel : Nat) (s : Stmt) {m m' : Machine} (hm : m.Faded m') :
    Run.Ends m.heap.gone (Completion.Fades m.heap.gone) (s.exec (.within limit fuel) m)
        (s.exec (.within limit fuel) m') ∧
      (s.exec (.within limit fuel) m').2.sink = (s.exec (.within limit fuel) m).2.sink ∧
      (s.exec (.within limit fuel) m).2.Faded (s.exec (.within limit fuel) m').2 ∧
      ∀ loc ∈ m.heap.gone, m.TakesForAbsent (.share loc) ∧
        (s.exec (.within limit fuel) m).2.TakesForAbsent (.share loc) := by
  have hends := s.fades_exec (Guest.within_fades m.heap.gone limit fuel) m m' hm
  have hleft := hends.fades
  refine ⟨hends, hleft.sink, hleft.mono hleft.heap.emptied subset_rfl, ?_⟩
  intro loc hloc
  exact ⟨Machine.takesForAbsent hloc, Machine.takesForAbsent (hleft.heap.emptied hloc)⟩

/-- A state in which the only object is gone, and a name is bound to a given value. -/
def Machine.afterLoss (x : Handle) : Machine where
  heap := ⟨#[none], true⟩
  scope := ⟨[("x", x)]⟩
  sink := .endless
  depth := 0

/-- A statement that prints that name. -/
def Stmt.printing : Stmt := .print [.path "x" [] ⟨1, 7⟩] ⟨1, 1⟩

/-- An expired handle is printed as the absent value is. -/
theorem Stmt.expired_as_absent_printed :
    (Machine.afterLoss (.share 0)).Faded (.afterLoss .absent) ∧
      (printing.exec (.within 2 2) (.afterLoss (.share 0))).2.sink.written = #["None\n"] ∧
      (printing.exec (.within 2 2) (.afterLoss .absent)).2.sink =
        (printing.exec (.within 2 2) (.afterLoss (.share 0))).2.sink ∧
      (printing.exec (.within 2 2) (.afterLoss (.share 0))).2.TakesForAbsent (.share 0) := by
  have hgone : 0 ∈ (Machine.afterLoss (.share 0)).heap.gone := ⟨by decide, rfl⟩
  have hfaded : (Machine.afterLoss (.share 0)).Faded (.afterLoss .absent) :=
    ⟨.refl subset_rfl, .cons ⟨rfl, .expired hgone⟩ .nil, rfl, rfl⟩
  have hrun := Stmt.expired_as_absent 2 2 printing hfaded
  exact ⟨hfaded, rfl, hrun.2.1, (hrun.2.2.2 0 hgone).2⟩

end Mython
