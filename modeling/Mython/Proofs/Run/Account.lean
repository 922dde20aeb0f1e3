import Mython.Proofs.Run.Evolution
import Mython.Proofs.Store.Sharing

namespace Mython

open Run

/-- The heap of a machine is settled with its scope and what is held besides. -/
def Machine.Settled (m : Machine) (held : Multiset Handle) : Prop :=
  m.heap.Settled (Handle.heldAll m.scope.handles + held)

/-- The account when a run has ended. Nothing is said if it was short of fuel. -/
def Run.Settles (rest : Multiset Handle) (q : α → Multiset Handle) :
    Except Halt α × Machine → Prop
  | (.ok a, m) => m.Settled (q a + rest)
  | (.error (.fault _), m) => m.Settled rest
  | (.error .exhausted, _) => True

/-- A run uses up what it is given and hands over what it says, whatever else is held meanwhile. -/
def Run.Accounts (p : Multiset Handle) (f : Run α) (q : α → Multiset Handle) : Prop :=
  ∀ rest m, m.Settled (p + rest) → Settles rest q (f m)

namespace Heap.Settled

variable {h : Heap} {outside : Multiset Handle}

theorem usable_of_field (hs : h.Settled outside) {x y : Handle} {owner name : String}
    (hf : h.field x owner name = .ok y) : h.Usable y := by
  obtain ⟨loc, cls, fields, hget, hbound⟩ := field_eq_ok hf
  exact hs.usable_of_stores ⟨loc, cls, fields, hget, Bindings.mem_handles_of_get? hbound⟩

theorem usable_of_follow (hs : h.Settled outside) {owner : String} {x y : Handle}
    {names : List String} (hf : h.follow owner x names = .ok y) (hx : h.Usable x) : h.Usable y := by
  induction names generalizing owner x with
  | nil =>
    cases hf
    exact hx
  | cons name names ih =>
    rw [follow] at hf
    cases hfield : h.field x owner name with
    | error cause =>
      rw [hfield] at hf
      cases hf
    | ok z =>
      rw [hfield] at hf
      exact ih hf (hs.usable_of_field hfield)

end Heap.Settled

namespace Machine.Settled

variable {m : Machine} {x : Handle} {rest : Multiset Handle}

theorem release (hm : m.Settled (x.held + rest)) :
    ({ m with heap := m.heap.release x } : Machine).Settled rest := by
  rw [Machine.Settled, add_left_comm] at hm
  exact Heap.Settled.release hm

theorem retain (hm : m.Settled rest) (hx : m.heap.Usable x) :
    ({ m with heap := m.heap.retain x } : Machine).Settled (x.held + rest) := by
  have hkept := Heap.Settled.retain hm hx
  rw [add_left_comm] at hkept
  exact hkept

theorem usable (hm : m.Settled (x.held + rest)) : m.heap.Usable x :=
  Heap.Settled.usable_of_held hm (Handle.held_besides _ (x.held_mine rest))

theorem usable_of_scope (hm : m.Settled rest) (hx : x ∈ m.scope.handles) : m.heap.Usable x :=
  Heap.Settled.usable_of_held hm (Handle.held_among hx rest)

theorem stays_inst {m' : Machine} {held : Multiset Handle} {loc : Loc} (hm : m'.Settled held)
    (hheld : .own loc ∈ held) (hg : m.heap.Grows m'.heap)
    (hinst : ∃ cls fields, m.heap.get? loc = some (.inst cls fields)) :
    ∃ cls fields, m'.heap.get? loc = some (.inst cls fields) := by
  have husable := Heap.Settled.usable_of_mem hm (Multiset.mem_add.2 (Or.inr hheld))
  obtain ⟨object', hget'⟩ := Option.isSome_iff_exists.1 (husable.live loc rfl)
  obtain ⟨cls, fields, hget⟩ := hinst
  obtain ⟨object, hobject, hkind⟩ := hg.kept loc object' (Heap.lt_size_of_get? hget) hget'
  rw [hget] at hobject
  cases hobject
  obtain ⟨cls', fields', rfl⟩ := Object.eq_inst_of_kind hkind.symm
  exact ⟨cls', fields', hget'⟩

end Machine.Settled

namespace Run

theorem Settles.holding {f : Run α} {m : Machine} {x : Handle} {rest : Multiset Handle}
    {q : α → Multiset Handle} (h : Settles (x.held + rest) q (f m)) :
    Settles rest q (holding x f m) := by
  rw [Run.holding]
  rcases hf : f m with ⟨e | a, m'⟩
  · rw [hf] at h
    cases e with
    | fault fault => exact Machine.Settled.release h
    | exhausted => trivial
  · rw [hf] at h
    apply Machine.Settled.release
    rw [add_left_comm]
    exact h

namespace Accounts

/-- What is left aside is still there when the run has an answer. -/
theorem frame {p : Multiset Handle} {f : Run α} {q : α → Multiset Handle} (h : Accounts p f q)
    (hf : ∀ m, ∃ a m', f m = (.ok a, m')) (aside : Multiset Handle) :
    Accounts (p + aside) f fun a => q a + aside := by
  intro rest m hm
  rw [add_assoc] at hm
  have hdone := h (aside + rest) m hm
  obtain ⟨a, m', hanswer⟩ := hf m
  rw [hanswer] at hdone ⊢
  rw [Settles, ← add_assoc] at hdone
  exact hdone

theorem bind {p : Multiset Handle} {f : Run α} {q : α → Multiset Handle} {k : α → Run β}
    {r : β → Multiset Handle} (h : Accounts p f q) (hk : ∀ a, Accounts (q a) (k a) r) :
    Accounts p (f >>= k) r := by
  intro rest m hm
  have hsettles := h rest m hm
  rcases hf : f m with ⟨e | a, m'⟩
  · rw [hf] at hsettles
    rw [bind_of_error hf]
    cases e with
    | fault fault => exact hsettles
    | exhausted => trivial
  · rw [hf] at hsettles
    rw [bind_of_ok hf]
    exact hk a rest m' hsettles

theorem holding {p : Multiset Handle} {f : Run α} {q : α → Multiset Handle}
    (h : Accounts p f q) (x : Handle) : Accounts (x.held + p) (holding x f) q := by
  intro rest m hm
  apply Settles.holding
  apply h
  rw [add_left_comm, ← add_assoc]
  exact hm

theorem keeping {p : Multiset Handle} {f : Run α} {q : α → Multiset Handle}
    (h : Accounts p f q) (x : Handle) :
    Accounts (x.held + p) (keeping x f) fun a => x.held + q a := by
  intro rest m hm
  have hsettles : Settles (x.held + rest) q (f m) := by
    apply h
    rw [add_left_comm, ← add_assoc]
    exact hm
  rcases hf : f m with ⟨e | a, m'⟩
  · rw [hf] at hsettles
    rw [keeping_of_error hf]
    cases e with
    | fault fault => exact Machine.Settled.release hsettles
    | exhausted => trivial
  · rw [hf] at hsettles
    rw [keeping_of_ok hf]
    show m'.Settled (x.held + q a + rest)
    rw [add_assoc, add_left_comm]
    exact hsettles

theorem seize {look : Heap → Except β Loc} {body : Loc → Run α} {other : β → Run α}
    {q : α → Multiset Handle} (hl : ∀ h loc, look h = .ok loc → (h.get? loc).isSome = true)
    (hb : ∀ loc, Accounts 0 (body loc) q) (ho : ∀ b, Accounts 0 (other b) q) :
    Accounts 0 (seize look body other) q := by
  intro rest m hm
  cases hfound : look m.heap with
  | ok loc =>
    rw [seize_of_ok hfound, retain_bind]
    rw [zero_add] at hm
    apply (hb loc).holding (.own loc)
    rw [add_zero]
    apply hm.retain
    exact Heap.usable_own (hl m.heap loc hfound)
  | error found =>
    rw [seize_of_error hfound]
    exact ho found rest m hm

theorem pure {α : Type} (a : α) (q : α → Multiset Handle) :
    Accounts (q a) (pure a : Run α) q := fun _ _ hm => hm

theorem raise {α : Type} (line : Nat) (cause : Fault.Cause) (q : α → Multiset Handle) :
    Accounts 0 (raise line cause) q := by
  intro rest m hm
  rw [zero_add] at hm
  exact hm

theorem fresh {object : Object} (ho : object.fields? = none) :
    Accounts 0 (fresh object) Handle.held := by
  intro rest m hm
  rw [zero_add] at hm
  have hnew := Heap.Settled.alloc hm object (by
    rintro cls fields rfl
    cases ho)
  rw [add_left_comm] at hnew
  exact hnew

theorem freshInstance (cls : Class) : Accounts 0 (freshInstance cls) Handle.held := by
  intro rest m hm
  rw [zero_add] at hm
  have hnew := Heap.Settled.alloc hm (.inst cls ⟨[(selfName, .share m.heap.size)]⟩) (by
    rintro _ _ ⟨⟩ x hx
    exact List.mem_singleton.1 hx)
  rw [add_left_comm] at hnew
  exact hnew

theorem retain (x : Handle) : Accounts x.held (retain x) fun _ => x.held + x.held := by
  intro rest m hm
  have hkept := hm.retain hm.usable
  rw [← add_assoc] at hkept
  exact hkept

theorem release (x : Handle) : Accounts x.held (release x) fun _ => 0 := by
  intro rest m hm
  have hgone := hm.release
  rw [← zero_add rest] at hgone
  exact hgone

theorem releaseAll (xs : List Handle) :
    Accounts (Handle.heldAll xs) (releaseAll xs) fun _ => 0 := by
  intro rest m hm
  rw [Machine.Settled, add_left_comm] at hm
  have hgone := hm.releaseAll xs
  rw [← zero_add rest] at hgone
  exact hgone

theorem assign (name : String) (x : Handle) : Accounts x.held (assign name x) fun _ => 0 := by
  intro rest m hm
  have hset := m.scope.heldAll_set name x
  have hexchange : Handle.heldAll m.scope.handles + (x.held + rest) =
      (m.scope.old name).held + (Handle.heldAll (m.scope.set name x).handles + (0 + rest)) := by
    rw [← add_assoc, ← hset]
    abel
  rw [Machine.Settled, hexchange] at hm
  exact Heap.Settled.release hm

theorem path (root : String) (fields : List String) (line : Nat) :
    Accounts 0 (path root fields line) Handle.held := by
  intro rest m hm
  rw [Run.path]
  split
  · exact raise line _ Handle.held rest m hm
  · next x hget =>
    split
    · exact raise line _ Handle.held rest m hm
    · next y hfollow =>
      rw [zero_add] at hm
      apply hm.retain
      apply Heap.Settled.usable_of_follow hm hfollow
      exact hm.usable_of_scope (Bindings.mem_handles_of_get? hget)

theorem fetch (x : Handle) (owner name : String) (line : Nat) :
    Accounts 0 (fetch x owner name line) Handle.held := by
  intro rest m hm
  rw [Run.fetch, ask_bind]
  cases hf : m.heap.field x owner name with
  | ok y =>
    rw [zero_add] at hm
    exact hm.retain (Heap.Settled.usable_of_field hm hf)
  | error cause => exact raise line cause Handle.held rest m hm

/-- What runs in a scope of its own uses up what the scope holds. -/
theorem inScope {p : Multiset Handle} {f : Run α} {q : α → Multiset Handle} (h : Accounts p f q)
    (scope : Bindings) : Accounts (Handle.heldAll scope.handles + p) (inScope scope f) q := by
  intro rest m hm
  have hstart : Handle.heldAll m.scope.handles + (Handle.heldAll scope.handles + p + rest) =
      Handle.heldAll scope.handles + (p + (Handle.heldAll m.scope.handles + rest)) := by abel
  rw [Machine.Settled, hstart] at hm
  have hbody := h (Handle.heldAll m.scope.handles + rest) { m with scope, depth := m.depth + 1 } hm
  rw [Run.inScope]
  rcases hf : f { m with scope, depth := m.depth + 1 } with ⟨e | a, m'⟩
  · rw [hf] at hbody
    cases e with
    | fault fault => exact Heap.Settled.releaseAll _ hbody
    | exhausted => trivial
  · rw [hf] at hbody
    have hgone := Heap.Settled.releaseAll _ hbody
    rw [add_left_comm] at hgone
    exact hgone

end Accounts

theorem assignField_settled {m : Machine} {loc : Loc} {x : Handle} {rest : Multiset Handle}
    {cls : Class} {fields : Bindings} (name : String) (hm : m.Settled (x.held + rest))
    (hinst : m.heap.get? loc = some (.inst cls fields)) :
    ∃ m', assignField loc name x m = (.ok (), m') ∧ m'.Settled rest := by
  refine ⟨_, rfl, ?_⟩
  rw [Machine.Settled, add_left_comm] at hm
  have hset := Heap.Settled.setField hm name hinst
  have hold : (((m.heap.get? loc).bind Object.fields?).bind fun fields => fields.get? name).getD
      .absent = fields.old name := by
    rw [hinst]
    rfl
  rw [← hold] at hset
  exact Heap.Settled.release hset

theorem instanceAt_ok {x : Handle} {h : Heap} {loc : Loc} (hx : instanceAt x h = .ok loc) :
    ∃ cls fields, h.get? loc = some (.inst cls fields) := by
  rw [instanceAt] at hx
  split at hx
  · next place hloc hinst =>
    cases hx
    have hkind : h.kind x = .inst := of_decide_eq_true hinst
    rw [Heap.kind, Heap.object?_eq_get? hloc] at hkind
    cases hget : h.get? loc with
    | none =>
      rw [hget] at hkind
      cases hkind
    | some object =>
      rw [hget] at hkind
      obtain ⟨cls, fields, rfl⟩ := Object.eq_inst_of_kind hkind
      exact ⟨cls, fields, rfl⟩
  · cases hx

/-- An instance that is held is still there when the value for its field has been computed. -/
theorem Settles.bestow {f : Run Handle} {m : Machine} {loc : Loc} {rest : Multiset Handle}
    (field : String) (h : Accounts 0 f Handle.held) (hg : m.heap.Grows (f m).2.heap)
    (hm : m.Settled ((Handle.own loc).held + rest))
    (hinst : ∃ cls fields, m.heap.get? loc = some (.inst cls fields)) :
    Settles ((Handle.own loc).held + rest) Completion.held (bestow loc field f m) := by
  have hvalue := h ((Handle.own loc).held + rest) m (by rwa [zero_add])
  rw [Run.bestow]
  rcases hf : f m with ⟨e | y, m'⟩
  · rw [hf] at hvalue
    rw [bind_of_error hf]
    cases e with
    | fault fault => exact hvalue
    | exhausted => trivial
  · rw [hf] at hvalue hg
    rw [bind_of_ok hf, retain_bind]
    have hkept := hvalue.retain hvalue.usable
    have hstays : ∃ cls fields, m'.heap.get? loc = some (.inst cls fields) := by
      apply hvalue.stays_inst _ hg hinst
      simp [Handle.held]
    obtain ⟨cls, fields, hthere⟩ := hstays
    rw [← Heap.get?_retain m'.heap y] at hthere
    obtain ⟨m'', hassign, hdone⟩ := assignField_settled field hkept hthere
    rw [bind_of_ok hassign]
    exact hdone

theorem Accounts.bestow {f : Run Handle} (h : Accounts 0 f Handle.held)
    (hg : Leads (fun m m' => m.heap.Grows m'.heap) f) (x : Handle) (describe field : String)
    (line : Nat) :
    Accounts 0 (Run.seize (instanceAt x) (fun loc => Run.bestow loc field f) fun _ =>
      Run.raise line (.notInstance describe)) Completion.held := by
  intro rest m hm
  cases hfound : instanceAt x m.heap with
  | error found =>
    rw [seize_of_error hfound]
    exact Accounts.raise line _ Completion.held rest m hm
  | ok loc =>
    obtain ⟨cls, fields, hinst⟩ := instanceAt_ok hfound
    rw [zero_add] at hm
    have husable : m.heap.Usable (.own loc) := Heap.usable_own (by rw [hinst]; rfl)
    have hkept := hm.retain husable
    rw [seize_of_ok hfound, retain_bind]
    apply Settles.holding
    apply Settles.bestow field h (hg _) hkept
    rw [Heap.get?_retain]
    exact ⟨cls, fields, hinst⟩

end Run

theorem Primitive.accounts {p : Multiset Handle} {f : Run α} {q : α → Multiset Handle}
    (h : Primitive p f q) : Accounts p f q := by
  cases h with
  | pure a q => exact .pure a q
  | ask look => exact fun _ _ hm => hm
  | raise line hc q => exact .raise line _ q
  | fresh ho => exact .fresh ho
  | freshInstance cls => exact .freshInstance cls
  | @compute line look ho hc =>
    intro rest m hm
    rw [Run.compute, ask_bind]
    cases hl : look m.heap with
    | ok object => exact Accounts.fresh (ho _ _ hl) rest m hm
    | error cause => exact Accounts.raise line cause Handle.held rest m hm
  | path root fields line => exact .path root fields line
  | fetch x owner name line => exact .fetch x owner name line
  | retain x => exact .retain x
  | release x => exact .release x
  | releaseAll xs => exact .releaseAll xs
  | assign name x => exact .assign name x
  | write line text =>
    intro rest m hm
    rw [Run.write]
    split
    · exact hm
    · rw [zero_add] at hm
      exact hm

/-- Requests to a guest use up their arguments and hand over their results, and the heap only grows
by them. -/
structure Guest.Accounted (g : Guest) : Prop where
  call : ∀ x name args line, Accounts (Handle.heldAll args) (g.call x name args line) Handle.held
  render : ∀ x line, Accounts 0 (g.render x line) fun _ => 0
  grows_call : ∀ x name args line,
    Leads (fun m m' => m.heap.Grows m'.heap) (g.call x name args line)
  grows_render : ∀ x line, Leads (fun m m' => m.heap.Grows m'.heap) (g.render x line)

/-- Scripts do what they say about the handles that are held. -/
theorem Script.accounts {g : Guest} (hg : g.Accounted) {p : Multiset Handle} {f : Guest → Run α}
    {q : α → Multiset Handle} (h : Script p f q) : Accounts p (f g) q := by
  induction h with
  | step h => exact h.accounts
  | frame aside h hf => exact h.accounts.frame hf aside
  | bind _ _ ih ihk => exact ih.bind ihk
  | holding x _ ih => exact ih.holding x
  | keeping x _ ih => exact ih.keeping x
  | seize hl _ _ ihb iho => exact .seize hl ihb iho
  | bestow x describe field line h ih =>
    exact ih.bestow (h.leads Machine.later_heap hg.grows_call hg.grows_render) x describe field line
  | call x name args line => exact hg.call x name args line
  | render x line => exact hg.render x line
  | conv _ hp hf hq ih =>
    obtain rfl := hp
    obtain rfl := funext hq
    rw [← hf]
    exact ih

/-- A call uses up its arguments if the body of its method does. -/
theorem Guest.accounts_around {limit : Nat} {run : Method → List Handle → Run Handle}
    (h : ∀ method args, method.arity = args.length →
      Accounts (Handle.heldAll args) (run method args) Handle.held)
    (x : Handle) (name : String) (args : List Handle) (line : Nat) :
    Accounts (Handle.heldAll args) (around limit run x name args line) Handle.held := by
  intro rest m hm
  cases hd : m.dispatch limit x name args.length with
  | error cause =>
    rw [around_of_error hd]
    rw [Machine.Settled, add_left_comm] at hm
    exact Heap.Settled.releaseAll args hm
  | ok found =>
    obtain ⟨loc, method⟩ := found
    obtain ⟨-, ⟨cls, fields, hinst⟩, harity, -⟩ := Machine.dispatch_ok hd
    have husable : m.heap.Usable (.own loc) := Heap.usable_own (by rw [hinst]; rfl)
    have hkept := hm.retain husable
    have htwice := hkept.retain hkept.usable
    rw [around_of_ok hd, enter_apply]
    have hbody := (h method args harity).inScope ⟨[(selfName, .own loc)]⟩
    apply hbody.holding (.own loc)
    have hscope : Handle.heldAll (Bindings.mk [(selfName, .own loc)]).handles =
        (Handle.own loc).held := add_zero _
    rw [hscope, add_assoc, add_assoc]
    exact htwice

/-- Requests are accounted for on every host, with every limit and any amount of fuel. -/
theorem Guest.hosted_accounted (address : Loc → Nat) (limit n : Nat) :
    (hosted address limit n).Accounted := by
  have hgrows := hosted_leads Machine.later_heap address limit n
  induction n with
  | zero => exact ⟨fun _ _ _ _ _ _ _ => trivial, fun _ _ _ _ _ => trivial, hgrows.1, hgrows.2⟩
  | succ n ih =>
    have ha := ih (hosted_leads Machine.later_heap address limit n)
    refine ⟨?_, ?_, hgrows.1, hgrows.2⟩
    · intro x name args line
      show Accounts _ ((hosted address limit n).invoke limit x name args line) _
      rw [invoke_eq_around]
      apply accounts_around
      intro method args harity
      exact (bodyScript method args harity).accounts ha
    · intro x line
      exact (textAtScript address x line).accounts ha

theorem Guest.within_accounted (limit n : Nat) : (within limit n).Accounted := by
  rw [← hosted_id]
  exact hosted_accounted id limit n

end Mython
