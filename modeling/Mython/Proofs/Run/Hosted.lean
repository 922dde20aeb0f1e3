import Mython.Proofs.Run.Account

/-! An instance that no method puts into text is shown with an address, which is up to the host;
nothing else depends on where an object is stored. -/

namespace Mython

open Run

namespace Guest

/-- Only the addresses of places that have been used can be seen. -/
theorem textAt_congr (g : Guest) {address address' : Loc → Nat} {m : Machine}
    (h : ∀ loc < m.heap.size, address' loc = address loc) (x : Handle) (line : Nat) :
    g.textAt address' x line m = g.textAt address x line m := by
  rw [textAt, textAt]
  cases hspeaker : speaker x m.heap with
  | ok loc => rw [seize_of_ok hspeaker, seize_of_ok hspeaker]
  | error found =>
    rw [seize_of_error hspeaker, seize_of_error hspeaker]
    rw [speaker] at hspeaker
    cases hloc : x.loc? with
    | none => rfl
    | some loc =>
      have hobject := Heap.object?_eq_get? (h := m.heap) hloc
      rw [hloc, hobject] at hspeaker
      cases hget : m.heap.get? loc with
      | none =>
        rw [hget] at hspeaker
        cases hspeaker
        rfl
      | some object =>
        simp only [Option.map_some, h loc (Heap.lt_size_of_get? hget)]

end Guest

/-- A run that starts and ends with nothing held leaves what is held besides as it was. -/
theorem Script.settled_hosted {f : Guest → Run α} (h : Script 0 f fun _ => 0)
    {address : Loc → Nat} {limit n : Nat} {held : Multiset Handle} {m m₁ : Machine} {a : α}
    (hm : m.Settled held) (hrun : f (.hosted address limit n) m = (.ok a, m₁)) :
    m₁.Settled held := by
  have haccounts := h.accounts (Guest.hosted_accounted address limit n) held m (by rwa [zero_add])
  rw [hrun, Settles, zero_add] at haccounts
  exact haccounts

/-- Two runs that do the same if the first one ends with few places used. -/
def Run.Agrees (k : Nat) (f f' : Run α) : Prop := ∀ m, (f m).2.heap.size ≤ k → f' m = f m

/-- Requests to one guest end as requests to another one do if these end with few places used. -/
structure Guest.Agrees (k : Nat) (g g' : Guest) : Prop where
  call : ∀ x name args line, Run.Agrees k (g.call x name args line) (g'.call x name args line)
  render : ∀ x line, Run.Agrees k (g.render x line) (g'.render x line)

namespace Run.Agrees

variable {k : Nat}

theorem refl (f : Run α) : Agrees k f f := fun _ _ => rfl

theorem bind {f f' : Run α} {l l' : α → Run β} (hf : Agrees k f f')
    (hl : ∀ a, Agrees k (l a) (l' a))
    (hgrows : ∀ a, Leads (fun m m' => m.heap.Grows m'.heap) (l a)) :
    Agrees k (f >>= l) (f' >>= l') := by
  intro m hsize
  rcases hr : f m with ⟨e | a, s⟩
  · rw [bind_of_error hr] at hsize ⊢
    have hsame := hf m (by rwa [hr])
    rw [bind_of_error (hsame.trans hr)]
  · rw [bind_of_ok hr] at hsize ⊢
    have hsame := hf m (by
      rw [hr]
      exact (hgrows a s).size.trans hsize)
    rw [bind_of_ok (hsame.trans hr)]
    exact hl a s hsize

theorem holding {f f' : Run α} (hf : Agrees k f f') (x : Handle) :
    Agrees k (holding x f) (holding x f') := by
  intro m hsize
  have hgrows := Machine.later_heap.heap (f m).2 _ (.release x)
  have hsame := hf m (hgrows.size.trans hsize)
  rw [Run.holding, Run.holding, hsame]

theorem keeping {f f' : Run α} (hf : Agrees k f f') (x : Handle) :
    Agrees k (keeping x f) (keeping x f') := by
  intro m hsize
  have hsame : f' m = f m := by
    apply hf
    rcases hr : f m with ⟨e | a, s⟩
    · rw [keeping_of_error hr] at hsize
      have hgrows := Machine.later_heap.heap s _ (.release x)
      exact hgrows.size.trans hsize
    · rw [keeping_of_ok hr] at hsize
      exact hsize
  rw [Run.keeping, Run.keeping, hsame]

theorem inScope {f f' : Run α} (hf : Agrees k f f') (scope : Bindings) :
    Agrees k (inScope scope f) (inScope scope f') := by
  intro m hsize
  have hgrows := fun s : Machine => Machine.later_heap.releaseAll s.scope.handles s
  have hsame := hf { m with scope, depth := m.depth + 1 } ((hgrows _).size.trans hsize)
  rw [Run.inScope, Run.inScope, hsame]

theorem seize {look : Heap → Except β Loc} {body body' : Loc → Run α} {other other' : β → Run α}
    (hb : ∀ loc, Agrees k (body loc) (body' loc)) (ho : ∀ b, Agrees k (other b) (other' b)) :
    Agrees k (seize look body other) (seize look body' other') := by
  intro m hsize
  cases hl : look m.heap with
  | ok loc =>
    rw [seize_of_ok hl, retain_bind] at hsize ⊢
    rw [seize_of_ok hl, retain_bind]
    exact (hb loc).holding _ _ hsize
  | error found =>
    rw [seize_of_error hl] at hsize ⊢
    rw [seize_of_error hl]
    exact ho found m hsize

end Run.Agrees

/-- A script does the same with guests that agree. -/
theorem Script.agrees {k : Nat} {g g' : Guest} (hg : g.Agrees k g') (ha : g.Accounted)
    {p : Multiset Handle} {f : Guest → Run α} {q : α → Multiset Handle} (h : Script p f q) :
    Run.Agrees k (f g) (f g') := by
  induction h with
  | step h => exact .refl _
  | frame rest h _ => exact .refl _
  | bind _ hk ih ihk =>
    exact ih.bind ihk fun a => (hk a).leads Machine.later_heap ha.grows_call ha.grows_render
  | holding x _ ih => exact ih.holding x
  | keeping x _ ih => exact ih.keeping x
  | seize _ _ _ ihb iho => exact .seize ihb iho
  | bestow x describe field line _ ih =>
    apply Agrees.seize
    · intro loc
      apply ih.bind (fun _ => .refl _)
      intro y
      have hpure : Leads (fun m m' => m.heap.Grows m'.heap) (pure y : Run Handle) :=
        fun m => .refl m.heap
      exact hpure.bestow Machine.later_heap loc field
    · intro _
      exact .refl _
  | call x name args line => exact hg.call x name args line
  | render x line => exact hg.render x line
  | conv _ _ hf _ ih =>
    rw [← hf, ← hf]
    exact ih

/-- Two hosts that give the same addresses for the places in use are the same to every request. -/
theorem Guest.hosted_agrees {address address' : Loc → Nat} {k : Nat}
    (h : ∀ loc < k, address' loc = address loc) (limit n : Nat) :
    (hosted address limit n).Agrees k (hosted address' limit n) := by
  induction n with
  | zero => exact ⟨fun _ _ _ _ => .refl _, fun _ _ => .refl _⟩
  | succ n ih =>
    have ha := hosted_accounted address limit n
    constructor
    · intro x name args line m hsize
      change ((hosted address limit n).invoke limit x name args line m).2.heap.size ≤ k at hsize
      show (hosted address' limit n).invoke limit x name args line m =
        (hosted address limit n).invoke limit x name args line m
      rw [invoke_eq_around] at hsize ⊢
      rw [invoke_eq_around]
      cases hd : m.dispatch limit x name args.length with
      | error cause => rw [around_of_error hd, around_of_error hd]
      | ok found =>
        obtain ⟨loc, method⟩ := found
        have hbody := (bodyScript method args (Machine.dispatch_ok hd).2.2.1).agrees ih ha
        rw [around_of_ok hd, enter_apply] at hsize
        rw [around_of_ok hd, around_of_ok hd, enter_apply, enter_apply]
        exact (hbody.inScope _).holding _ _ hsize
    · intro x line m hsize
      have hscript := textAtScript address x line
      have hgrows := hscript.leads Machine.later_heap ha.grows_call ha.grows_render m
      have hplaces : ∀ loc < m.heap.size, address' loc = address loc := by
        intro loc hloc
        exact h loc (hloc.trans_le (hgrows.size.trans hsize))
      exact (textAt_congr _ hplaces x line).trans (hscript.agrees ih ha m hsize)

theorem Script.agrees_hosted {address address' : Loc → Nat} {k : Nat}
    (haddress : ∀ loc < k, address' loc = address loc) (limit n : Nat) {p : Multiset Handle}
    {f : Guest → Run α} {q : α → Multiset Handle} (h : Script p f q) :
    Run.Agrees k (f (.hosted address limit n)) (f (.hosted address' limit n)) :=
  h.agrees (Guest.hosted_agrees haddress limit n) (Guest.hosted_accounted address limit n)

end Mython
