import Mython.Proofs.Run.Account
import Mython.Proofs.Run.Discreet
import Mython.Proofs.Run.Moments

namespace Mython

open Run

/-- A settled state in which every handle that is held owns, and every field but the way of an
instance to itself. -/
structure Machine.Lasting (m : Machine) (held : Multiset Handle) : Prop where
  settled : m.Settled held
  firm : ∀ x ∈ Handle.heldAll m.scope.handles + held, x.Firm
  heap : m.heap.Firm

/-- Two states that differ in their heaps only, and there only in what nothing leads to. -/
structure Machine.Twins (held : Multiset Handle) (m m' : Machine) : Prop where
  lasting : m.Lasting held
  heap : m.heap.Twin m'.heap
  scope : m'.scope = m.scope
  sink : m'.sink = m.sink
  depth : m'.depth = m.depth

namespace Machine.Lasting

variable {m : Machine} {held rest : Multiset Handle} {x : Handle}

theorem firm_of_mem (hm : m.Lasting held) (hx : x ∈ held) : x.Firm :=
  hm.firm x (Multiset.mem_add.2 (Or.inr hx))

theorem firm_of_held (hm : m.Lasting (x.held + rest)) : x.Firm := by
  cases x with
  | absent => trivial
  | own loc => trivial
  | share loc => exact hm.firm_of_mem (Multiset.mem_add.2 (Or.inl (Multiset.mem_singleton_self _)))

theorem firm_of_scope (hm : m.Lasting held) (hx : x ∈ m.scope.handles) : x.Firm := by
  cases x with
  | absent => trivial
  | own loc => trivial
  | share loc => exact hm.firm _ (Handle.held_among hx held (Multiset.mem_singleton_self _))

theorem release (hm : m.Lasting (x.held + rest)) :
    ({ m with heap := m.heap.release x } : Machine).Lasting rest where
  settled := hm.settled.release
  firm y hy := by
    apply hm.firm y
    rw [add_left_comm]
    exact Multiset.mem_add.2 (Or.inr hy)
  heap := hm.heap.release x

theorem releaseAll {xs : List Handle} (hm : m.Lasting (Handle.heldAll xs + rest)) :
    ({ m with heap := xs.foldl Heap.release m.heap } : Machine).Lasting rest := by
  induction xs generalizing m with
  | nil =>
    rw [Handle.heldAll_nil, zero_add] at hm
    exact hm
  | cons x xs ih =>
    rw [Handle.heldAll_cons, add_assoc] at hm
    exact ih hm.release

theorem retain (hm : m.Lasting rest) (hx : m.heap.Usable x) (hfirm : x.Firm) :
    ({ m with heap := m.heap.retain x } : Machine).Lasting (x.held + rest) where
  settled := hm.settled.retain hx
  firm y hy := by
    rw [add_left_comm, Multiset.mem_add] at hy
    rcases hy with hy | hy
    · rw [(Handle.mem_held.1 hy).1]
      exact hfirm
    · exact hm.firm y hy
  heap := hm.heap.retain x

/-- Handles may move between the scope and what is held besides. -/
theorem rescope (hm : m.Lasting held) (scope : Bindings) (depth : Nat)
    (h : Handle.heldAll m.scope.handles + held = Handle.heldAll scope.handles + rest) :
    ({ m with scope, depth } : Machine).Lasting rest where
  settled := by
    have hsettled := hm.settled
    rw [Machine.Settled, h] at hsettled
    exact hsettled
  firm x hx := by
    apply hm.firm x
    rw [h]
    exact hx
  heap := hm.heap

end Machine.Lasting

namespace Machine.Twins

variable {m m' : Machine} {held rest : Multiset Handle} {x : Handle}

/-- What is held leads to the same object in both. -/
theorem object? (ht : m.Twins held m') (hx : x.held ⊆ held) :
    m'.heap.object? x = m.heap.object? x := by
  apply ht.heap.object?_of_held ht.lasting.settled ht.lasting.firm
  exact Handle.held_besides _ hx

theorem object?_of_scope (ht : m.Twins held m') (hx : x ∈ m.scope.handles) :
    m'.heap.object? x = m.heap.object? x := by
  apply ht.heap.object?_of_held ht.lasting.settled ht.lasting.firm
  exact Handle.held_among hx held

/-- Where only held values count, the same is found in both. -/
theorem look (ht : m.Twins held m') {look : Heap → α} (hl : Heap.RestsOn held look) :
    look m'.heap = look m.heap := by
  apply hl
  intro x hx
  exact ht.object? hx

/-- A change of both heaps leaves the rest as it is. -/
theorem change (ht : m.Twins held m') {h h' : Heap}
    (hm : ({ m with heap := h } : Machine).Lasting rest) (hh : h.Twin h') :
    Twins rest { m with heap := h } { m' with heap := h' } :=
  ⟨hm, hh, ht.scope, ht.sink, ht.depth⟩

theorem release (ht : m.Twins (x.held + rest) m') :
    Twins rest { m with heap := m.heap.release x } { m' with heap := m'.heap.release x } :=
  ht.change ht.lasting.release (ht.heap.release x)

theorem releaseAll {xs : List Handle} (ht : m.Twins (Handle.heldAll xs + rest) m') :
    Twins rest { m with heap := xs.foldl Heap.release m.heap }
      { m' with heap := xs.foldl Heap.release m'.heap } :=
  ht.change ht.lasting.releaseAll (ht.heap.releaseAll xs)

theorem retain (ht : m.Twins rest m') (hx : m.heap.Usable x) (hfirm : x.Firm) :
    Twins (x.held + rest) { m with heap := m.heap.retain x }
      { m' with heap := m'.heap.retain x } :=
  ht.change (ht.lasting.retain hx hfirm) (ht.heap.retain x)

theorem rescope (ht : m.Twins held m') (scope : Bindings) {depth depth' : Nat}
    (hd : depth' = depth)
    (h : Handle.heldAll m.scope.handles + held = Handle.heldAll scope.handles + rest) :
    Twins rest { m with scope, depth } { m' with scope, depth := depth' } :=
  ⟨ht.lasting.rescope scope depth h, ht.heap, rfl, ht.sink, hd⟩

/-- A new object. If it is an instance, it only has the way to itself. -/
theorem alloc (ht : m.Twins rest m') (object : Object)
    (hfields : ∀ cls fields, object = .inst cls fields →
      fields.entries = [(selfName, .share m.heap.size)])
    (hcls : ∀ c, object.definition? = some c → c.readsSelf = false) :
    Twins ((Handle.own m.heap.size).held + rest) { m with heap := (m.heap.alloc object).2 }
      { m' with heap := (m'.heap.alloc object).2 } := by
  refine ht.change ⟨?_, ?_, ?_⟩ (ht.heap.alloc object)
  · have hnew := Heap.Settled.alloc ht.lasting.settled object (by
      intro cls fields hobject x hx
      rw [Bindings.handles, hfields cls fields hobject] at hx
      exact List.mem_singleton.1 hx)
    rw [add_left_comm] at hnew
    exact hnew
  · intro y hy
    rw [add_left_comm, Multiset.mem_add] at hy
    rcases hy with hy | hy
    · rw [(Handle.mem_held.1 hy).1]
      trivial
    · exact ht.lasting.firm y hy
  · apply ht.lasting.heap.alloc _ hcls
    intro cls fields hobject entry hentry
    rw [hfields cls fields hobject, List.mem_singleton] at hentry
    rw [hentry]
    exact Or.inr ⟨rfl, rfl⟩

end Machine.Twins

theorem Run.assignField_of_inst {m : Machine} {loc : Loc} {cls : Class} {fields : Bindings}
    (name : String) (x : Handle) (hinst : m.heap.get? loc = some (.inst cls fields)) :
    assignField loc name x m =
      (.ok (), { m with heap := (m.heap.setField loc name x).release (fields.old name) }) := by
  rw [assignField, change, hinst]
  rfl

/-- A value moves into a field of an instance, and what was there goes at once: it may be the way of
the instance to itself, which is not held anywhere else. -/
theorem Machine.Twins.assignField {m m' : Machine} {x : Handle} {rest : Multiset Handle} {loc : Loc}
    {cls : Class} {fields : Bindings} (ht : m.Twins (x.held + rest) m') (name : String)
    (hinst : m.heap.get? loc = some (.inst cls fields)) :
    Twins rest (Run.assignField loc name x m).2 (Run.assignField loc name x m').2 := by
  obtain ⟨s, hrun, hsettled⟩ := assignField_settled name ht.lasting.settled hinst
  rw [assignField_of_inst name x hinst] at hrun
  cases hrun
  rw [assignField_of_inst name x hinst, assignField_of_inst name x (ht.heap.kept loc _ hinst)]
  refine ht.change ⟨hsettled, ?_, ?_⟩ ((ht.heap.setField loc name x).release _)
  · intro y hy
    apply ht.lasting.firm y
    rw [add_left_comm]
    exact Multiset.mem_add.2 (Or.inr hy)
  · exact (ht.lasting.heap.setField loc name ht.lasting.firm_of_held).release _

/-- How two runs end alike. Nothing is said if they were short of fuel. -/
inductive Run.Pairs (rest : Multiset Handle) (q : α → Multiset Handle) :
    Except Halt α × Machine → Except Halt α × Machine → Prop
  | ok {a : α} {m m' : Machine} (h : m.Twins (q a + rest) m') : Pairs rest q (.ok a, m) (.ok a, m')
  | fault {fault : Fault} {m m' : Machine} (h : m.Twins rest m') :
      Pairs rest q (.error (.fault fault), m) (.error (.fault fault), m')
  | exhausted {m m' : Machine} : Pairs rest q (.error .exhausted, m) (.error .exhausted, m')

/-- A run does the same with either heap, with `rest` held besides. -/
def Run.Alike (rest p : Multiset Handle) (f : Run α) (q : α → Multiset Handle) : Prop :=
  ∀ m m', m.Twins (p + rest) m' → Pairs rest q (f m) (f m')

namespace Run.Pairs

variable {rest : Multiset Handle} {q : α → Multiset Handle} {f : Run α} {m m' : Machine}

theorem holding {x : Handle} (h : Pairs (x.held + rest) q (f m) (f m')) :
    Pairs rest q (holding x f m) (holding x f m') := by
  rw [Run.holding, Run.holding]
  generalize f m = end₁ at h ⊢
  generalize f m' = end₂ at h ⊢
  cases h with
  | ok h =>
    rw [add_left_comm] at h
    exact .ok h.release
  | fault h => exact .fault h.release
  | exhausted => exact .exhausted

theorem keeping {x : Handle} (h : Pairs (x.held + rest) q (f m) (f m')) :
    Pairs rest (fun a => x.held + q a) (keeping x f m) (keeping x f m') := by
  rw [Run.keeping, Run.keeping]
  generalize f m = end₁ at h ⊢
  generalize f m' = end₂ at h ⊢
  cases h with
  | ok h =>
    rw [add_left_comm, ← add_assoc] at h
    exact .ok h
  | fault h => exact .fault h.release
  | exhausted => exact .exhausted

theorem bind {k : α → Run β} {r : β → Multiset Handle} (h : Pairs rest q (f m) (f m'))
    (hk : ∀ a, Alike rest (q a) (k a) r) : Pairs rest r ((f >>= k) m) ((f >>= k) m') := by
  rcases hf : f m with ⟨e, s⟩
  rcases hf' : f m' with ⟨e', s'⟩
  rw [hf, hf'] at h
  cases h with
  | ok h =>
    rw [bind_of_ok hf, bind_of_ok hf']
    exact hk _ _ _ h
  | fault h =>
    rw [bind_of_error hf, bind_of_error hf']
    exact .fault h
  | exhausted =>
    rw [bind_of_error hf, bind_of_error hf']
    exact .exhausted

/-- When a scope has gone, the outer one is back and what the inner one held is let go of. -/
theorem inScope {scope : Bindings} (hscope : m'.scope = m.scope)
    (h : Pairs (Handle.heldAll m.scope.handles + rest) q
      (f { m with scope, depth := m.depth + 1 }) (f { m' with scope, depth := m'.depth + 1 })) :
    Pairs rest q (inScope scope f m) (inScope scope f m') := by
  have hleave : ∀ {s s' : Machine} {held : Multiset Handle},
      s.Twins (Handle.heldAll m.scope.handles + held) s' → Machine.Twins held
        ⟨s.scope.handles.foldl Heap.release s.heap, m.scope, s.sink, s.depth - 1⟩
        ⟨s'.scope.handles.foldl Heap.release s'.heap, m'.scope, s'.sink, s'.depth - 1⟩ := by
    intro s s' held ht
    have hdepth : s'.depth - 1 = s.depth - 1 := by rw [ht.depth]
    have hout := ht.rescope .empty hdepth (zero_add _).symm
    have hback := hout.releaseAll.rescope m.scope hdepth (zero_add _)
    rw [ht.scope, hscope]
    exact hback
  rw [Run.inScope, Run.inScope]
  generalize f { m with scope, depth := m.depth + 1 } = end₁ at h ⊢
  generalize f { m' with scope, depth := m'.depth + 1 } = end₂ at h ⊢
  cases h with
  | ok h =>
    rw [add_left_comm] at h
    exact .ok (hleave h)
  | fault h => exact .fault (hleave h)
  | exhausted => exact .exhausted

/-- The same place is found in both states, and what is there is held meanwhile. -/
theorem seize_of_ok {look : Heap → Except β Loc} {body : Loc → Run α} {other : β → Run α}
    {loc : Loc} (hl : look m.heap = .ok loc) (hl' : look m'.heap = .ok loc)
    (h : Pairs ((Handle.own loc).held + rest) q
      (body loc { m with heap := m.heap.retain (.own loc) })
      (body loc { m' with heap := m'.heap.retain (.own loc) })) :
    Pairs rest q (seize look body other m) (seize look body other m') := by
  rw [Run.seize_of_ok hl, Run.seize_of_ok hl', retain_bind, retain_bind]
  exact h.holding

/-- A value is computed while an instance is held, and given to a field of that instance. -/
theorem bestow {f : Run Handle} {loc : Loc} (field : String)
    (h : Pairs ((Handle.own loc).held + rest) Handle.held (f m) (f m'))
    (hg : m.heap.Grows (f m).2.heap)
    (hinst : ∃ cls fields, m.heap.get? loc = some (.inst cls fields)) :
    Pairs ((Handle.own loc).held + rest) Completion.held (bestow loc field f m)
      (bestow loc field f m') := by
  rw [Run.bestow]
  rcases hf : f m with ⟨e, s⟩
  rcases hf' : f m' with ⟨e', s'⟩
  rw [hf] at h hg
  rw [hf'] at h
  cases h with
  | @ok y _ _ ht =>
    rw [bind_of_ok hf, bind_of_ok hf', retain_bind, retain_bind]
    have hkept := ht.retain ht.lasting.settled.usable ht.lasting.firm_of_held
    have hstays : ∃ cls fields, s.heap.get? loc = some (.inst cls fields) := by
      apply ht.lasting.settled.stays_inst _ hg hinst
      simp [Handle.held]
    obtain ⟨cls, fields, hthere⟩ := hstays
    rw [← Heap.get?_retain s.heap y] at hthere
    exact .ok (hkept.assignField field hthere)
  | fault h =>
    rw [bind_of_error hf, bind_of_error hf']
    exact .fault h
  | exhausted =>
    rw [bind_of_error hf, bind_of_error hf']
    exact .exhausted

end Run.Pairs

namespace Run.Alike

variable {rest : Multiset Handle}

theorem raise (line : Nat) (cause : Fault.Cause) (q : α → Multiset Handle) :
    Alike rest 0 (raise line cause) q := by
  intro m m' ht
  rw [zero_add] at ht
  exact .fault ht

theorem fresh {object : Object} (ho : object.fields? = none)
    (hcls : ∀ c, object.definition? = some c → c.readsSelf = false) :
    Alike rest 0 (fresh object) Handle.held := by
  intro m m' ht
  rw [zero_add] at ht
  have hnew := ht.alloc object (by
    rintro cls fields rfl
    cases ho) hcls
  have hplace : m'.heap.size = m.heap.size := ht.heap.size
  have hrun : Run.fresh object m' =
      (.ok (.own m.heap.size), { m' with heap := (m'.heap.alloc object).2 }) := by
    rw [← hplace]
    rfl
  rw [hrun]
  exact .ok hnew

theorem freshInstance {cls : Class} (hcls : cls.readsSelf = false) :
    Alike rest 0 (freshInstance cls) Handle.held := by
  intro m m' ht
  rw [zero_add] at ht
  have hnew := ht.alloc (.inst cls ⟨[(selfName, .share m.heap.size)]⟩) (by
      rintro _ _ ⟨⟩
      rfl) (by
    rintro c ⟨⟩
    exact hcls)
  have hrun : Run.freshInstance cls m' = (.ok (.own m.heap.size),
      { m' with heap := (m'.heap.alloc (.inst cls ⟨[(selfName, .share m.heap.size)]⟩)).2 }) := by
    rw [← ht.heap.size]
    rfl
  rw [hrun]
  exact .ok hnew

theorem path {root : String} {fields : List String} {line : Nat} (hself : selfName ∉ fields) :
    Alike rest 0 (path root fields line) Handle.held := by
  intro m m' ht
  rw [zero_add] at ht
  have hscope : m'.scope.get? root = m.scope.get? root := by rw [ht.scope]
  rw [Run.path, Run.path, hscope]
  cases hget : m.scope.get? root with
  | none => exact .fault ht
  | some x =>
    have hmem := Bindings.mem_handles_of_get? hget
    have hobject := ht.object?_of_scope hmem
    have hfollow := ht.heap.follow_eq ht.lasting.settled ht.lasting.heap hobject root fields
    simp only [hfollow]
    cases hy : m.heap.follow root x fields with
    | error cause => exact .fault ht
    | ok y =>
      have husable := Heap.Settled.usable_of_follow ht.lasting.settled hy
        (ht.lasting.settled.usable_of_scope hmem)
      have hfirm := ht.lasting.heap.of_follow hy hself (ht.lasting.firm_of_scope hmem)
      exact .ok (ht.retain husable hfirm)

theorem fetch {x : Handle} {owner name : String} {line : Nat} (hx : x.held ⊆ rest)
    (hname : name ≠ selfName) : Alike rest 0 (fetch x owner name line) Handle.held := by
  intro m m' ht
  rw [zero_add] at ht
  have hfield := Heap.Twin.field_eq (ht.object? hx) owner name
  rw [Run.fetch, ask_bind, ask_bind, hfield]
  cases hy : m.heap.field x owner name with
  | error cause => exact .fault ht
  | ok y =>
    have husable := Heap.Settled.usable_of_field ht.lasting.settled hy
    exact .ok (ht.retain husable (ht.lasting.heap.of_field hy hname))

theorem assign (name : String) (x : Handle) : Alike rest x.held (assign name x) fun _ => 0 := by
  intro m m' ht
  have hset := m.scope.heldAll_set name x
  have hexchange : Handle.heldAll m.scope.handles + (x.held + rest) =
      Handle.heldAll (m.scope.set name x).handles + ((m.scope.old name).held + rest) := by
    rw [← add_assoc, ← hset, add_assoc]
  have hdone := (ht.rescope (m.scope.set name x) ht.depth hexchange).release
  rw [Run.assign, Run.assign, ht.scope]
  refine .ok ?_
  rw [zero_add]
  exact hdone

theorem write (line : Nat) (text : String) : Alike rest 0 (write line text) fun _ => 0 := by
  intro m m' ht
  rw [Run.write, Run.write, ht.sink]
  split
  · have hlasting := ht.lasting
    exact .ok ⟨⟨hlasting.settled, hlasting.firm, hlasting.heap⟩, ht.heap, ht.scope, rfl, ht.depth⟩
  · rw [zero_add] at ht
    exact .fault ht

variable {p : Multiset Handle} {f : Run α} {q : α → Multiset Handle}

theorem frame {aside : Multiset Handle} (h : Alike (aside + rest) p f q)
    (hf : ∀ m, ∃ a m', f m = (.ok a, m')) : Alike rest (p + aside) f fun a => q a + aside := by
  intro m m' ht
  rw [add_assoc] at ht
  have hends := h m m' ht
  obtain ⟨a, s, hrun⟩ := hf m
  obtain ⟨a', s', hrun'⟩ := hf m'
  rw [hrun, hrun'] at hends ⊢
  cases hends with
  | ok h =>
    rw [← add_assoc] at h
    exact .ok h

theorem holding {x : Handle} (h : Alike (x.held + rest) p f q) :
    Alike rest (x.held + p) (holding x f) q := by
  intro m m' ht
  rw [add_assoc, add_left_comm] at ht
  exact (h m m' ht).holding

theorem keeping {x : Handle} (h : Alike (x.held + rest) p f q) :
    Alike rest (x.held + p) (keeping x f) fun a => x.held + q a := by
  intro m m' ht
  rw [add_assoc, add_left_comm] at ht
  exact (h m m' ht).keeping

end Run.Alike

theorem Primitive.alike {rest p : Multiset Handle} {f : Run α} {q : α → Multiset Handle}
    (h : Primitive p f q) (hd : h.Discreet (p + rest)) : Alike rest p f q := by
  cases h with
  | pure a q => exact fun m m' ht => .ok ht
  | ask look =>
    intro m m' ht
    rw [Run.ask, Run.ask, ht.look hd]
    exact .ok ht
  | raise line hc q => exact .raise line _ q
  | fresh ho => exact .fresh ho hd
  | freshInstance cls => exact .freshInstance hd
  | @compute line look ho hc =>
    obtain ⟨hl, hcls⟩ := hd
    intro m m' ht
    rw [Run.compute, ask_bind, ask_bind, ht.look hl]
    cases hfound : look m.heap with
    | ok object =>
      refine Alike.fresh (ho _ _ hfound) ?_ m m' ht
      intro c hc
      rw [hcls _ _ hfound] at hc
      cases hc
    | error cause => exact Alike.raise line cause Handle.held m m' ht
  | path root fields line => exact .path hd
  | fetch x owner name line =>
    rw [zero_add] at hd
    exact .fetch hd.1 hd.2
  | retain x =>
    intro m m' ht
    have hkept := ht.retain ht.lasting.settled.usable ht.lasting.firm_of_held
    rw [← add_assoc] at hkept
    exact .ok hkept
  | release x =>
    intro m m' ht
    have hgone := ht.release
    rw [← zero_add rest] at hgone
    exact .ok hgone
  | releaseAll xs =>
    intro m m' ht
    have hgone := ht.releaseAll
    rw [← zero_add rest] at hgone
    exact .ok hgone
  | assign name x => exact .assign name x
  | write line text => exact .write line text

/-- Requests do the same with either heap, if their receivers are held. -/
structure Guest.Alike (g : Guest) : Prop where
  call : ∀ x name args line rest, x.held ⊆ rest →
    Run.Alike rest (Handle.heldAll args) (g.call x name args line) Handle.held
  render : ∀ x line rest, x.held ⊆ rest → Run.Alike rest 0 (g.render x line) fun _ => 0

/-- A discreet script does the same with either heap. -/
theorem Script.alike {g : Guest} (hg : g.Alike) (ha : g.Accounted) {p : Multiset Handle}
    {f : Guest → Run α} {q : α → Multiset Handle} (h : Script p f q) (rest : Multiset Handle)
    (hd : h.Discreet rest) : Run.Alike rest p (f g) q := by
  induction h generalizing rest with
  | step h => exact h.alike hd
  | frame aside h hf =>
    apply Run.Alike.frame _ hf
    apply h.alike
    rw [← add_assoc]
    exact hd
  | bind h hk ih ihk =>
    intro m m' ht
    exact (ih rest hd.1 m m' ht).bind fun a => ihk a rest (hd.2 a)
  | holding x _ ih => exact (ih _ hd).holding
  | keeping x _ ih => exact (ih _ hd).keeping
  | @seize _ _ look _ _ _ hl _ _ ihb iho =>
    obtain ⟨hrests, hbody, hother⟩ := hd
    intro m m' ht
    rw [zero_add] at ht
    have hsame := ht.look hrests
    cases hfound : look m.heap with
    | ok loc =>
      apply Pairs.seize_of_ok hfound (hsame.trans hfound)
      apply ihb loc _ (hbody loc)
      rw [zero_add]
      exact ht.retain (Heap.usable_own (hl m.heap loc hfound)) trivial
    | error found =>
      beta_reduce
      rw [seize_of_error hfound, seize_of_error (hsame.trans hfound)]
      apply iho found rest (hother m.heap ht.lasting.heap found hfound)
      rw [zero_add]
      exact ht
  | bestow x describe field line h ih =>
    obtain ⟨hx, hvalue⟩ := hd
    intro m m' ht
    rw [zero_add] at ht
    have hsame := ht.look (.instanceAt hx)
    cases hfound : instanceAt x m.heap with
    | ok loc =>
      obtain ⟨cls, fields, hinst⟩ := instanceAt_ok hfound
      apply Pairs.seize_of_ok hfound (hsame.trans hfound)
      have hkept := ht.retain (Heap.usable_own (by rw [hinst]; rfl)) trivial
      apply Pairs.bestow field
      · apply ih _ (hvalue loc)
        rw [zero_add]
        exact hkept
      · exact h.leads Machine.later_heap ha.grows_call ha.grows_render _
      · rw [Heap.get?_retain]
        exact ⟨cls, fields, hinst⟩
    | error found =>
      beta_reduce
      rw [seize_of_error hfound, seize_of_error (hsame.trans hfound)]
      exact .fault ht
  | call x name args line => exact hg.call x name args line rest hd
  | render x line => exact hg.render x line rest hd
  | conv _ hp hf hq ih =>
    obtain rfl := hp
    obtain rfl := funext hq
    rw [← hf]
    exact ih rest hd

/-- The state in which a body starts: the receiver is held for the call and by the new scope, and
the scope around is held besides. -/
theorem Machine.Twins.entered {m m' : Machine} {p rest : Multiset Handle}
    (ht : m.Twins (p + rest) m') {loc : Loc} (hlive : (m.heap.get? loc).isSome = true) :
    Twins (p + (Handle.heldAll m.scope.handles + ((Handle.own loc).held + rest))) (m.entered loc)
      (m'.entered loc) := by
  have hkept := ht.retain (Heap.usable_own hlive) trivial
  have htwice := hkept.retain hkept.lasting.settled.usable trivial
  have hdepth : m'.depth + 1 = m.depth + 1 := by rw [ht.depth]
  apply htwice.rescope ⟨[(selfName, .own loc)]⟩ hdepth
  have hscope : Handle.heldAll (Bindings.mk [(selfName, .own loc)]).handles =
      (Handle.own loc).held := add_zero _
  rw [hscope]
  abel

theorem Machine.Twins.dispatch_eq {m m' : Machine} {held : Multiset Handle} (ht : m.Twins held m')
    {x : Handle} (hx : x.held ⊆ held) (limit : Nat) (name : String) (args : Nat) :
    m'.dispatch limit x name args = m.dispatch limit x name args := by
  simp only [Machine.dispatch, ht.object? hx, ht.depth]

/-- A method that is called on an instance of a firm heap does not read the field `self`. -/
theorem Machine.Lasting.dispatch_ok {m : Machine} {held : Multiset Handle} (hm : m.Lasting held)
    {limit args : Nat} {x : Handle} {name : String} {loc : Loc} {method : Method}
    (h : m.dispatch limit x name args = .ok (loc, method)) :
    Stmt.anyReadsSelf method.body = false := by
  rw [Machine.dispatch] at h
  split at h
  · next place cls fields hloc hobject =>
    split at h
    · cases h
    · next found hmethod =>
      split at h
      · cases h
      · split at h
        · cases h
        · cases h
          obtain ⟨place', -, hget⟩ := Option.bind_eq_some_iff.1 hobject
          exact Class.readsSelf_of_method? (hm.heap.cls hget rfl) hmethod
  · cases h
  · cases h

/-- A call does the same with either heap, if the body of its method does. -/
theorem Guest.alike_around {limit : Nat} {run : Method → List Handle → Run Handle}
    (h : ∀ method args, method.arity = args.length → Stmt.anyReadsSelf method.body = false →
      ∀ rest, Run.Alike rest (Handle.heldAll args) (run method args) Handle.held)
    {x : Handle} (name : String) (args : List Handle) (line : Nat) {rest : Multiset Handle}
    (hx : x.held ⊆ rest) :
    Run.Alike rest (Handle.heldAll args) (around limit run x name args line) Handle.held := by
  intro m m' ht
  have hsame := ht.dispatch_eq (Handle.held_besides _ hx) limit name args.length
  cases hd : m.dispatch limit x name args.length with
  | error cause =>
    rw [around_of_error hd, around_of_error (hsame.trans hd)]
    exact .fault ht.releaseAll
  | ok found =>
    obtain ⟨loc, method⟩ := found
    obtain ⟨-, ⟨cls, fields, hinst⟩, harity, -⟩ := Machine.dispatch_ok hd
    rw [around_of_ok hd, around_of_ok (hsame.trans hd), enter_apply, enter_apply]
    apply Pairs.holding
    apply Pairs.inScope
    · exact ht.scope
    · apply h method args harity (ht.lasting.dispatch_ok hd)
      exact ht.entered (by rw [hinst]; rfl)

/-- Requests do the same with either heap, with every limit and any amount of fuel. -/
theorem Guest.within_alike (limit n : Nat) : (within limit n).Alike := by
  induction n with
  | zero => exact ⟨fun _ _ _ _ _ _ _ _ _ => .exhausted, fun _ _ _ _ _ _ _ => .exhausted⟩
  | succ n ih =>
    have haccounts := within_accounted limit n
    constructor
    · intro x name args line rest hx
      show Run.Alike rest _ ((within limit n).invoke limit x name args line) _
      rw [invoke_eq_around]
      apply alike_around _ name args line hx
      intro method args harity hbody rest
      have hdiscreet := discreet_body hbody harity rest
      exact (bodyScript method args harity).alike ih haccounts rest hdiscreet
    · intro x line rest hx
      exact (textScript x line).alike ih haccounts rest (discreet_text line hx)

theorem Script.alike_within {p : Multiset Handle} {f : Guest → Run α} {q : α → Multiset Handle}
    (h : Script p f q) (limit n : Nat) {rest : Multiset Handle} (hd : h.Discreet rest) :
    Run.Alike rest p (f (.within limit n)) q :=
  h.alike (Guest.within_alike limit n) (Guest.within_accounted limit n) rest hd

end Mython
