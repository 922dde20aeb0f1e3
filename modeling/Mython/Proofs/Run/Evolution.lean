import Mython.Proofs.Run.Calling
import Mython.Proofs.Store.Change

namespace Mython

open Run

/-- A relation between a state and a later one that every single change is in. -/
structure Machine.Later (T : Machine → Machine → Prop) : Prop where
  refl : ∀ m, T m m
  trans : ∀ {m m' m''}, T m m' → T m' m'' → T m m''
  heap : ∀ (m : Machine) (h : Heap), m.heap.Change h → T m { m with heap := h }
  bind : ∀ (m : Machine) (name : String) (x : Handle), T m { m with scope := m.scope.set name x }
  write : ∀ (m : Machine) (text : String) (sink : Sink), m.sink.write? text = some sink →
    T m { m with sink }
  call : ∀ (m : Machine) (scope : Bindings) (m' : Machine),
    T { m with scope, depth := m.depth + 1 } m' →
    T m { m' with scope := m.scope, depth := m'.depth - 1 }

/-- A run leaves a later state. -/
def Run.Leads (T : Machine → Machine → Prop) (f : Run α) : Prop := ∀ m, T m (f m).2

section Leads

variable {T : Machine → Machine → Prop} (hT : Machine.Later T)

include hT

theorem Run.Leads.bind {f : Run α} {k : α → Run β} (h : Leads T f) (hk : ∀ a, Leads T (k a)) :
    Leads T (f >>= k) := by
  intro m
  have hf := h m
  rcases he : f m with ⟨e | a, m'⟩
  · rw [he] at hf
    rw [bind_of_error he]
    exact hf
  · rw [he] at hf
    rw [bind_of_ok he]
    exact hT.trans hf (hk a m')

theorem Run.Leads.change {f : Heap → Heap} (h : ∀ heap : Heap, heap.Change (f heap)) :
    Leads T (change f) := by
  intro m
  exact hT.heap m (f m.heap) (h m.heap)

theorem Machine.Later.releaseAll (xs : List Handle) (m : Machine) :
    T m { m with heap := xs.foldl Heap.release m.heap } := by
  induction xs generalizing m with
  | nil => exact hT.refl m
  | cons x xs ih =>
    exact hT.trans (hT.heap m _ (.release x)) (ih { m with heap := m.heap.release x })

theorem Run.Leads.holding {f : Run α} (h : Leads T f) (x : Handle) : Leads T (holding x f) := by
  intro m
  exact hT.trans (h m) (hT.heap (f m).2 _ (.release x))

theorem Run.Leads.keeping {f : Run α} (h : Leads T f) (x : Handle) : Leads T (keeping x f) := by
  intro m
  have hf := h m
  rcases he : f m with ⟨e | a, m'⟩
  · rw [he] at hf
    rw [keeping_of_error he]
    exact hT.trans hf (hT.heap m' _ (.release x))
  · rw [he] at hf
    rw [keeping_of_ok he]
    exact hf

theorem Run.Leads.inScope {f : Run α} (h : Leads T f) (scope : Bindings) :
    Leads T (inScope scope f) := by
  intro m
  have hbody := hT.call m scope _ (h { m with scope, depth := m.depth + 1 })
  exact hT.trans hbody (hT.releaseAll _ _)

theorem Run.Leads.seize {look : Heap → Except β Loc} {body : Loc → Run α} {other : β → Run α}
    (hb : ∀ loc, Leads T (body loc)) (ho : ∀ b, Leads T (other b)) :
    Leads T (seize look body other) := by
  intro m
  cases hl : look m.heap with
  | ok loc =>
    rw [seize_of_ok hl]
    exact (Leads.bind hT (Leads.change hT fun _ => .retain _) fun _ => (hb loc).holding hT _) m
  | error found =>
    rw [seize_of_error hl]
    exact ho found m

theorem Run.Leads.bestow {f : Run Handle} (h : Leads T f) (loc : Loc) (field : String) :
    Leads T (bestow loc field f) := by
  apply Leads.bind hT h
  intro y
  apply Leads.bind hT (Leads.change hT fun _ => .retain y)
  intro _
  apply Leads.bind hT
  · intro m
    have hset := hT.heap m _ (.setField loc field y)
    exact hT.trans hset (hT.heap { m with heap := _ } _ (.release _))
  · intro _ m
    exact hT.refl m

theorem Primitive.leads {p : Multiset Handle} {f : Run α} {q : α → Multiset Handle}
    (h : Primitive p f q) : Leads T f := by
  intro m
  cases h with
  | pure a q => exact hT.refl m
  | ask look => exact hT.refl m
  | raise line hc q => exact hT.refl m
  | fresh ho => exact hT.heap m _ (.alloc _)
  | freshInstance cls => exact hT.heap m _ (.alloc _)
  | @compute line look ho hc =>
    rw [Run.compute, ask_bind]
    cases look m.heap with
    | ok object => exact hT.heap m _ (.alloc object)
    | error cause => exact hT.refl m
  | path root fields line =>
    rw [Run.path]
    split
    · exact hT.refl m
    · split
      · exact hT.refl m
      · exact hT.heap m _ (.retain _)
  | fetch x owner name line =>
    rw [Run.fetch, ask_bind]
    cases m.heap.field x owner name with
    | ok y => exact hT.heap m _ (.retain y)
    | error cause => exact hT.refl m
  | retain x => exact hT.heap m _ (.retain x)
  | release x => exact hT.heap m _ (.release x)
  | releaseAll xs => exact hT.releaseAll xs m
  | assign name x =>
    exact hT.trans (hT.heap m _ (.release _)) (hT.bind { m with heap := _ } name x)
  | write line text =>
    rw [Run.write]
    split
    · next sink hs => exact hT.write m text sink hs
    · exact hT.refl m

/-- Scripts lead to later states if the requests to their guest do. -/
theorem Script.leads {g : Guest} (hcall : ∀ x name args line, Leads T (g.call x name args line))
    (hrender : ∀ x line, Leads T (g.render x line)) {p : Multiset Handle} {f : Guest → Run α}
    {q : α → Multiset Handle} (h : Script p f q) : Leads T (f g) := by
  induction h with
  | step h => exact h.leads hT
  | frame rest h _ => exact h.leads hT
  | bind _ _ ih ihk => exact Leads.bind hT ih ihk
  | holding x _ ih => exact ih.holding hT x
  | keeping x _ ih => exact ih.keeping hT x
  | seize _ _ _ ihb iho => exact Leads.seize hT ihb iho
  | bestow x describe field line _ ih =>
    apply Leads.seize hT
    · intro loc
      exact ih.bestow hT loc field
    · intro _ m
      exact hT.refl m
  | call x name args line => exact hcall x name args line
  | render x line => exact hrender x line
  | conv _ _ hf _ ih =>
    rw [← hf]
    exact ih

theorem Guest.leads_around {limit : Nat} {run : Method → List Handle → Run Handle}
    (h : ∀ method args, method.arity = args.length → Leads T (run method args)) (x : Handle)
    (name : String) (args : List Handle) (line : Nat) :
    Leads T (around limit run x name args line) := by
  intro m
  cases hd : m.dispatch limit x name args.length with
  | error cause =>
    rw [around_of_error hd]
    exact hT.releaseAll args m
  | ok found =>
    obtain ⟨loc, method⟩ := found
    rw [around_of_ok hd]
    have hbody := (h method args (Machine.dispatch_ok hd).2.2.1).inScope hT ⟨[(selfName, .own loc)]⟩
    have hhold := Leads.holding hT
      (Leads.bind hT (Leads.change hT fun _ => .retain (.own loc)) fun _ => hbody) (.own loc)
    exact Leads.bind hT (Leads.change hT fun _ => .retain (.own loc)) (fun _ => hhold) m

/-- Every request to a guest leads to a later state, on every host, with every limit and any amount
of fuel. -/
theorem Guest.hosted_leads (address : Loc → Nat) (limit n : Nat) :
    (∀ x name args line, Leads T ((hosted address limit n).call x name args line)) ∧
      ∀ x line, Leads T ((hosted address limit n).render x line) := by
  induction n with
  | zero => exact ⟨fun _ _ _ _ m => hT.refl m, fun _ _ m => hT.refl m⟩
  | succ n ih =>
    constructor
    · intro x name args line
      show Leads T ((hosted address limit n).invoke limit x name args line)
      rw [invoke_eq_around]
      apply leads_around hT
      intro method args harity
      exact (bodyScript method args harity).leads hT ih.1 ih.2
    · intro x line
      exact (textAtScript address x line).leads hT ih.1 ih.2

theorem Guest.within_leads (limit n : Nat) :
    (∀ x name args line, Leads T ((within limit n).call x name args line)) ∧
      ∀ x line, Leads T ((within limit n).render x line) := by
  rw [← hosted_id]
  exact hosted_leads hT id limit n

theorem Script.leads_within {p : Multiset Handle} {f : Guest → Run α} {q : α → Multiset Handle}
    (h : Script p f q) (limit n : Nat) : Leads T (f (.within limit n)) :=
  h.leads hT (Guest.within_leads hT limit n).1 (Guest.within_leads hT limit n).2

end Leads

theorem Machine.later_depth : Later fun m m' => m'.depth = m.depth where
  refl _ := rfl
  trans h h' := h'.trans h
  heap _ _ _ := rfl
  bind _ _ _ := rfl
  write _ _ _ _ := rfl
  call m scope m' h := by
    show m'.depth - 1 = m.depth
    rw [h, Nat.add_sub_cancel]

/-- What has been written stays written, in front of all that follows. -/
theorem Machine.later_written :
    Later fun m m' => m.sink.written.toList <+: m'.sink.written.toList where
  refl _ := List.prefix_refl _
  trans := List.IsPrefix.trans
  heap _ _ _ := List.prefix_refl _
  bind _ _ _ := List.prefix_refl _
  write m text sink h := by
    obtain ⟨capacity, -, rfl⟩ := Option.map_eq_some_iff.1 h
    simp
  call _ _ _ h := h

theorem Machine.later_heap : Later fun m m' => m.heap.Grows m'.heap where
  refl m := .refl m.heap
  trans := .trans
  heap _ _ h := h.grows
  bind m _ _ := .refl m.heap
  write m _ _ _ := .refl m.heap
  call _ _ _ h := h

end Mython
