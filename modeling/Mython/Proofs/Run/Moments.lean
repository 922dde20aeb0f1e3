import Mython.Proofs.Run.DepthLimit

namespace Mython

open Run

/-- A state in the middle of a run, and what is held besides its scope. -/
structure Moment where
  machine : Machine
  held : Multiset Handle

/-- The moment in which a run ends, with `rest` held besides. There is none without fuel. -/
def Run.finish (q : α → Multiset Handle) (rest : Multiset Handle) :
    Except Halt α × Machine → Set Moment
  | (.ok a, m) => {⟨m, q a + rest⟩}
  | (.error (.fault _), m) => {⟨m, rest⟩}
  | (.error .exhausted, _) => ∅

/-- The moments of requests to a guest. -/
structure Guest.Moments where
  call : Handle → String → List Handle → Nat → Multiset Handle → Machine → Set Moment
  render : Handle → Nat → Multiset Handle → Machine → Set Moment

/-- The moments of a script from a state on, with `rest` held besides. -/
def Script.moments (g : Guest) (requests : Guest.Moments) {α : Type} {p : Multiset Handle}
    {f : Guest → Run α} {q : α → Multiset Handle} :
    Script p f q → Multiset Handle → Machine → Set Moment
  | @Script.step _ p f q _, rest, m => {⟨m, p + rest⟩} ∪ finish q rest (f m)
  | @Script.frame _ p f q aside _ _, rest, m =>
    {⟨m, p + aside + rest⟩} ∪ finish (fun a => q a + aside) rest (f m)
  | @Script.bind _ _ _ f _ _ _ h hk, rest, m =>
    h.moments g requests rest m ∪ match f g m with
      | (.ok a, m') => (hk a).moments g requests rest m'
      | (.error _, _) => ∅
  | @Script.holding _ _ f q x h, rest, m =>
    h.moments g requests (x.held + rest) m ∪ finish q rest (Run.holding x (f g) m)
  | @Script.keeping _ _ f q x h, rest, m =>
    h.moments g requests (x.held + rest) m ∪
      finish (fun a => x.held + q a) rest (Run.keeping x (f g) m)
  | @Script.seize _ _ look body other q _ hb ho, rest, m =>
    match look m.heap with
    | .ok loc =>
      (hb loc).moments g requests ((Handle.own loc).held + rest)
        { m with heap := m.heap.retain (.own loc) } ∪
      finish q rest (Run.seize look (body g) (other g) m)
    | .error found => (ho found).moments g requests rest m
  | @Script.bestow f x describe field line h, rest, m =>
    match instanceAt x m.heap with
    | .ok loc =>
      h.moments g requests ((Handle.own loc).held + rest)
        { m with heap := m.heap.retain (.own loc) } ∪
      finish Completion.held rest
        (Run.seize (instanceAt x) (fun loc => Run.bestow loc field (f g))
          (fun _ => raise line (.notInstance describe)) m)
    | .error _ => {⟨m, rest⟩}
  | .call x name args line, rest, m => requests.call x name args line rest m
  | .render x line, rest, m => requests.render x line rest m
  | .conv h _ _ _, rest, m => h.moments g requests rest m

/-- The moments of requests, with a limit on the depth of calls and an amount of fuel. While a
method runs, its receiver and the scope around are held. -/
def Guest.momentsWithin (limit : Nat) : Nat → Guest.Moments
  | 0 => ⟨fun _ _ _ _ _ _ => ∅, fun _ _ _ _ => ∅⟩
  | n + 1 =>
    ⟨fun x name args line rest m =>
        {⟨m, Handle.heldAll args + rest⟩} ∪
        finish Handle.held rest ((within limit (n + 1)).call x name args line m) ∪
        match m.dispatch limit x name args.length with
        | .error _ => ∅
        | .ok (loc, method) =>
          if h : method.arity = args.length then
            (bodyScript method args h).moments (within limit n) (momentsWithin limit n)
              (Handle.heldAll m.scope.handles + ((Handle.own loc).held + rest)) (m.entered loc)
          else ∅,
      fun x line rest m =>
        (textScript x line).moments (within limit n) (momentsWithin limit n) rest m⟩

/-- The moments of a program, with any amount of fuel. -/
def Program.moments (p : Program) (limit : Nat) (m : Machine) : Set Moment :=
  ⋃ fuel, p.script.moments (.within limit fuel) (Guest.momentsWithin limit fuel) 0 m

/-- The end of every request is among its moments. -/
structure Guest.Finishes (g : Guest) (requests : Guest.Moments) : Prop where
  call : ∀ x name args line rest m,
    finish Handle.held rest (g.call x name args line m) ⊆ requests.call x name args line rest m
  render : ∀ x line rest m,
    finish (fun _ => 0) rest (g.render x line m) ⊆ requests.render x line rest m

theorem Script.finish_subset {g : Guest} {requests : Guest.Moments} (hg : g.Finishes requests)
    {p : Multiset Handle} {f : Guest → Run α} {q : α → Multiset Handle} (h : Script p f q)
    (rest : Multiset Handle) (m : Machine) :
    finish q rest (f g m) ⊆ h.moments g requests rest m := by
  induction h generalizing rest m with
  | step h => exact Set.subset_union_right
  | frame aside h _ => exact Set.subset_union_right
  | @bind _ _ _ f k q r h hk ih ihk =>
    have hfirst := ih rest m
    rw [moments]
    beta_reduce
    rcases hf : f g m with ⟨e | a, m'⟩
    · rw [hf] at hfirst
      rw [bind_of_error hf]
      refine Set.Subset.trans ?_ Set.subset_union_left
      cases e with
      | fault fault => exact hfirst
      | exhausted => exact Set.empty_subset _
    · rw [bind_of_ok hf]
      exact Set.Subset.trans (ihk a rest m') Set.subset_union_right
  | holding x _ _ => exact Set.subset_union_right
  | keeping x _ _ => exact Set.subset_union_right
  | @seize _ _ look _ _ _ _ _ _ ihb iho =>
    rw [moments]
    beta_reduce
    cases hl : look m.heap with
    | ok loc => exact Set.subset_union_right
    | error found =>
      rw [seize_of_error hl]
      exact iho found rest m
  | bestow x describe field line _ _ =>
    rw [moments]
    beta_reduce
    cases hl : instanceAt x m.heap with
    | ok loc => exact Set.subset_union_right
    | error found =>
      rw [seize_of_error hl]
      exact Set.Subset.refl _
  | call x name args line => exact hg.call x name args line rest m
  | render x line => exact hg.render x line rest m
  | conv _ _ hf hq ih =>
    obtain rfl := funext hq
    rw [← hf]
    exact ih rest m

theorem Guest.within_finishes (limit n : Nat) :
    (within limit n).Finishes (momentsWithin limit n) := by
  induction n with
  | zero => exact ⟨fun _ _ _ _ _ _ => Set.empty_subset _, fun _ _ _ _ => Set.empty_subset _⟩
  | succ n ih =>
    constructor
    · intro x name args line rest m
      exact Set.Subset.trans Set.subset_union_right Set.subset_union_left
    · intro x line rest m
      exact (textScript x line).finish_subset ih rest m

/-- The end of a program is one of its moments, with nothing held any more. -/
theorem Program.Ends.mem_moments {p : Program} {limit : Nat} {m s : Machine}
    {r : Except Halt Unit} (h : p.Ends limit m r s) : ⟨s, 0⟩ ∈ p.moments limit m := by
  obtain ⟨hr, fuel, hrun⟩ := h
  apply Set.mem_iUnion_of_mem fuel
  apply p.script.finish_subset (Guest.within_finishes limit fuel) 0 m
  rw [hrun]
  rcases r with (_ | _) | _
  · exact Set.mem_singleton _
  · exact absurd rfl hr
  · exact Set.mem_singleton _

end Mython
