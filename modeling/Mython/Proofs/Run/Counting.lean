import Mython.Proofs.Run.Twins
import Mython.Snapshot

namespace Mython

open Run

/-- The machine with a heap that never empties a place from now on. -/
def Machine.immortal (m : Machine) : Machine :=
  { m with heap := { m.heap with reclaims := false } }

theorem Machine.Lasting.twins {m : Machine} {held : Multiset Handle} (hm : m.Lasting held) :
    m.Twins held m.immortal :=
  ⟨hm, ⟨rfl, fun _ _ hget => hget, rfl⟩, rfl, rfl, rfl⟩

/-- A moment in which only what owns is held. -/
def Moment.Lasting (t : Moment) : Prop := t.machine.Lasting t.held

/-- A run that does the same with either heap ends in a moment in which only what owns is held. -/
theorem Run.Alike.finish {rest p : Multiset Handle} {f : Run α} {q : α → Multiset Handle}
    (h : Alike rest p f q) {m : Machine} (hm : m.Lasting (p + rest)) :
    ∀ t ∈ finish q rest (f m), t.Lasting := by
  have hends := h m _ hm.twins
  generalize f m = end₁ at hends ⊢
  generalize f m.immortal = end₂ at hends
  cases hends with
  | ok ht =>
    rintro t rfl
    exact ht.lasting
  | fault ht =>
    rintro t rfl
    exact ht.lasting
  | exhausted => exact fun t ht => absurd ht (Set.notMem_empty t)

theorem Run.Alike.lasting_of_ok {rest p : Multiset Handle} {f : Run α} {q : α → Multiset Handle}
    (h : Alike rest p f q) {m m' : Machine} (hm : m.Lasting (p + rest)) {a : α}
    (hf : f m = (.ok a, m')) : m'.Lasting (q a + rest) := by
  have hends := h.finish hm
  rw [hf] at hends
  exact hends _ (Set.mem_singleton _)

/-- In every moment of a request whose receiver is held, only what owns is held. -/
structure Guest.Lasts (requests : Guest.Moments) : Prop where
  call : ∀ x name args line rest m, x.held ⊆ rest → m.Lasting (Handle.heldAll args + rest) →
    ∀ t ∈ requests.call x name args line rest m, t.Lasting
  render : ∀ x line rest m, x.held ⊆ rest → m.Lasting rest →
    ∀ t ∈ requests.render x line rest m, t.Lasting

/-- In every moment of a discreet script, only what owns is held. -/
theorem Script.moments_lasting {g : Guest} {requests : Guest.Moments} (hg : g.Alike)
    (ha : g.Accounted) (hr : Guest.Lasts requests) {p : Multiset Handle} {f : Guest → Run α}
    {q : α → Multiset Handle} (h : Script p f q) {rest : Multiset Handle} (hd : h.Discreet rest)
    {m : Machine} (hm : m.Lasting (p + rest)) :
    ∀ t ∈ h.moments g requests rest m, t.Lasting := by
  have hends := (h.alike hg ha rest hd).finish hm
  induction h generalizing rest m with
  | step h =>
    rintro t (rfl | ht)
    · exact hm
    · exact hends t ht
  | frame aside h hf =>
    rintro t (rfl | ht)
    · exact hm
    · exact hends t ht
  | @bind _ _ _ f k _ _ h hk ih ihk =>
    have hfirst := h.alike hg ha rest hd.1
    rw [moments]
    rintro t (ht | ht)
    · exact ih hd.1 hm (hfirst.finish hm) t ht
    · rcases hf : f g m with ⟨e | a, m'⟩
      · rw [hf] at ht
        exact absurd ht (Set.notMem_empty t)
      · rw [hf] at ht
        have hm' := hfirst.lasting_of_ok hm hf
        have hnext := (hk a).alike hg ha rest (hd.2 a)
        exact ihk a (hd.2 a) hm' (hnext.finish hm') t ht
  | holding x h ih =>
    rw [add_assoc, add_left_comm] at hm
    rintro t (ht | ht)
    · exact ih hd hm ((h.alike hg ha _ hd).finish hm) t ht
    · exact hends t ht
  | keeping x h ih =>
    rw [add_assoc, add_left_comm] at hm
    rintro t (ht | ht)
    · exact ih hd hm ((h.alike hg ha _ hd).finish hm) t ht
    · exact hends t ht
  | @seize _ _ look _ _ _ hl hb ho ihb iho =>
    obtain ⟨-, hbody, hother⟩ := hd
    rw [moments]
    cases hfound : look m.heap with
    | ok loc =>
      rw [zero_add] at hm
      have hkept := hm.retain (Heap.usable_own (hl m.heap loc hfound)) trivial
      rw [← zero_add (_ + rest)] at hkept
      rintro t (ht | ht)
      · exact ihb loc (hbody loc) hkept (((hb loc).alike hg ha _ (hbody loc)).finish hkept) t ht
      · exact hends t ht
    | error found =>
      have hdo := hother m.heap hm.heap found hfound
      exact iho found hdo hm (((ho found).alike hg ha rest hdo).finish hm)
  | bestow x describe field line h ih =>
    obtain ⟨-, hvalue⟩ := hd
    rw [moments]
    rw [zero_add] at hm
    cases hfound : instanceAt x m.heap with
    | ok loc =>
      obtain ⟨cls, fields, hinst⟩ := instanceAt_ok hfound
      have hkept := hm.retain (x := .own loc) (Heap.usable_own (by rw [hinst]; rfl)) trivial
      rw [← zero_add (_ + rest)] at hkept
      rintro t (ht | ht)
      · exact ih (hvalue loc) hkept ((h.alike hg ha _ (hvalue loc)).finish hkept) t ht
      · exact hends t ht
    | error found =>
      rintro t rfl
      exact hm
  | call x name args line => exact hr.call x name args line rest m hd hm
  | render x line =>
    rw [zero_add] at hm
    exact hr.render x line rest m hd hm
  | conv h hp hf hq ih =>
    obtain rfl := hp
    exact ih hd hm ((h.alike hg ha rest hd).finish hm)

/-- Requests only ever hold what owns, with every limit and any amount of fuel. -/
theorem Guest.within_lasts (limit n : Nat) : Lasts (momentsWithin limit n) := by
  induction n with
  | zero =>
    exact ⟨fun _ _ _ _ _ _ _ _ t ht => absurd ht (Set.notMem_empty t),
      fun _ _ _ _ _ _ t ht => absurd ht (Set.notMem_empty t)⟩
  | succ n ih =>
    have halike := within_alike limit n
    have haccounts := within_accounted limit n
    constructor
    · intro x name args line rest m hx hm
      rintro t ((rfl | ht) | ht)
      · exact hm
      · exact ((within_alike limit (n + 1)).call x name args line rest hx).finish hm t ht
      · cases hd : m.dispatch limit x name args.length with
        | error cause =>
          simp only [hd] at ht
          exact absurd ht (Set.notMem_empty t)
        | ok found =>
          obtain ⟨loc, method⟩ := found
          obtain ⟨-, ⟨cls, fields, hinst⟩, harity, -⟩ := Machine.dispatch_ok hd
          simp only [hd, dif_pos harity] at ht
          have hstart := hm.twins.entered (by rw [hinst]; rfl)
          have hdiscreet := discreet_body (hm.dispatch_ok hd) harity
          exact (bodyScript method args harity).moments_lasting halike haccounts ih (hdiscreet _)
            hstart.lasting t ht
    · intro x line rest m hx hm
      rw [← zero_add rest] at hm
      exact (textScript x line).moments_lasting halike haccounts ih (discreet_text line hx) hm

namespace Snapshot

variable {h h' : Heap} {loc : Loc} {fields : Bindings}

theorem shownFields_eq_filter (h : Heap) (loc : Loc) (fields : Bindings) :
    shownFields h loc fields =
      fields.sorted.filter (fun entry => !(entry.1 == selfName)) ++
        (fields.sorted.filter fun entry => entry.1 == selfName).filter
          fun entry => !h.same entry.2 (.own loc) := by
  rw [shownFields, List.partition_eq_filter_filter]
  rfl

theorem mem_of_mem_shownFields {entry : String × Handle}
    (he : entry ∈ shownFields h loc fields) : entry ∈ fields.entries := by
  have hsorted : entry ∈ fields.sorted := by
    rw [shownFields_eq_filter, List.mem_append] at he
    rcases he with he | he
    · exact List.mem_of_mem_filter he
    · exact List.mem_of_mem_filter (List.mem_of_mem_filter he)
  exact List.mem_mergeSort.1 hsorted

theorem shownFields_congr (hown : h'.object? (.own loc) = h.object? (.own loc))
    (hfields : ∀ entry ∈ fields.entries, h'.object? entry.2 = h.object? entry.2) :
    shownFields h' loc fields = shownFields h loc fields := by
  rw [shownFields_eq_filter, shownFields_eq_filter]
  congr 1
  apply List.filter_congr
  intro entry hentry
  have hmem : entry ∈ fields.entries := List.mem_mergeSort.1 (List.mem_of_mem_filter hentry)
  rw [Heap.same, Heap.same, hown, hfields entry hmem]

theorem mapM_congr {α β σ : Type} {f f' : α → StateM σ β} {xs : List α} (h : ∀ x ∈ xs, f x = f' x) :
    xs.mapM f = xs.mapM f' := by
  induction xs with
  | nil => rfl
  | cons x xs ih =>
    rw [List.mapM_cons, List.mapM_cons, h x List.mem_cons_self,
      ih fun y hy => h y (List.mem_cons_of_mem _ hy)]

theorem ofHandle_congr (ht : h.Twin h') {outside : Multiset Handle} (hs : h.Settled outside)
    (hf : h.Firm) (n : Nat) {x : Handle} (hx : h'.object? x = h.object? x) :
    ofHandle h' n x = ofHandle h n x := by
  induction n generalizing x with
  | zero => rfl
  | succ n ih =>
    simp only [ofHandle, hx]
    split
    · next loc c fields hloc hobject =>
      have hget : h.get? loc = some (.inst c fields) := by
        rw [← Heap.object?_eq_get? hloc, hobject]
      have hentry : ∀ entry ∈ fields.entries, h'.object? entry.2 = h.object? entry.2 :=
        fun entry => ht.object?_of_entry hs hf hget
      have hown : h'.object? (.own loc) = h.object? (.own loc) :=
        (ht.kept loc _ hget).trans hget.symm
      have hshown : ∀ entry ∈ shownFields h loc fields,
          (do return (entry.1, ← ofHandle h' n entry.2) : StateM (Array Loc) (String × Snapshot)) =
            do return (entry.1, ← ofHandle h n entry.2) := by
        intro entry he
        rw [ih (hentry entry (mem_of_mem_shownFields he))]
      rw [shownFields_congr hown hentry, mapM_congr hshown]
    · rfl
    · rfl
    · rfl
    · rfl
    · rfl

end Snapshot

/-- Pictures of what is in scope are the same with either heap. -/
theorem Machine.Twins.globals {m m' : Machine} {held : Multiset Handle} (ht : m.Twins held m') :
    m'.globals = m.globals := by
  have hscope : ∀ entry ∈ m.scope.sorted,
      (do return (entry.1, ← Snapshot.ofHandle m'.heap (m.heap.size + 1) entry.2) :
        StateM (Array Loc) (String × Snapshot)) =
      do return (entry.1, ← Snapshot.ofHandle m.heap (m.heap.size + 1) entry.2) := by
    intro entry he
    have hmem : entry.2 ∈ m.scope.handles := List.mem_map_of_mem (List.mem_mergeSort.1 he)
    rw [Snapshot.ofHandle_congr ht.heap ht.lasting.settled ht.lasting.heap _
      (ht.object?_of_scope hmem)]
  rw [Machine.globals, Machine.globals, Heap.snapshots, Heap.snapshots, ht.scope, ht.heap.size]
  simp only [Snapshot.mapM_congr hscope]

/-- Every handle in the scope, every one that is held besides, and every field of an instance other
than `self` is absent or owns. -/
structure Moment.Owning (t : Moment) : Prop where
  scope : ∀ entry ∈ t.machine.scope.entries, entry.2.Firm
  held : ∀ x ∈ t.held, x.Firm
  field : ∀ loc cls fields, t.machine.heap.get? loc = some (.inst cls fields) →
    ∀ entry ∈ fields.entries, entry.1 ≠ selfName → entry.2.Firm

theorem Moment.Lasting.owning {t : Moment} (ht : t.Lasting) : t.Owning where
  scope entry hentry := Machine.Lasting.firm_of_scope ht (List.mem_map_of_mem hentry)
  held x hx := Machine.Lasting.firm_of_mem ht hx
  field loc cls fields hget entry hentry hself := by
    rcases ht.heap.field hget entry hentry with hfirm | ⟨hname, -⟩
    · exact hfirm
    · exact absurd hname hself

/-- Two states that look the same: the same was written, the names in scope have the same values,
and what is there in the first is there in the second. -/
structure Machine.Resembles (s s' : Machine) : Prop where
  sink : s'.sink = s.sink
  scope : s'.scope = s.scope
  globals : s'.globals = s.globals
  kept : ∀ loc object, s.heap.get? loc = some object → s'.heap.get? loc = some object

theorem Machine.later_whole : Later fun m m' => m.heap.Whole → m'.heap.Whole where
  refl _ hw := hw
  trans h h' hw := h' (h hw)
  heap _ _ hc hw := hc.whole hw
  bind _ _ _ hw := hw
  write _ _ _ _ hw := hw
  call _ _ _ h hw := h hw

theorem Machine.start_lasting (sink : Sink) : (Machine.start sink).Lasting 0 where
  settled := Heap.settled_empty
  firm x hx := absurd hx (Multiset.notMem_zero x)
  heap := .empty

theorem Machine.Twins.resembles {m m' : Machine} {held : Multiset Handle} (ht : m.Twins held m') :
    m.Resembles m' :=
  ⟨ht.sink, ht.scope, ht.globals, ht.heap.kept⟩

theorem Run.Pairs.resembles {rest : Multiset Handle} {q : α → Multiset Handle}
    {end₁ end₂ : Except Halt α × Machine} (h : Pairs rest q end₁ end₂) :
    end₂.1 = end₁.1 ∧ (end₁.1 ≠ .error .exhausted → end₁.2.Resembles end₂.2) := by
  cases h with
  | ok ht => exact ⟨rfl, fun _ => ht.resembles⟩
  | fault ht => exact ⟨rfl, fun _ => ht.resembles⟩
  | exhausted => exact ⟨rfl, fun hfuel => absurd rfl hfuel⟩

section Ending

variable {p : Program} {limit : Nat} {m s : Machine} {r : Except Halt Unit}

/-- With the same fuel a program ends alike with either heap. -/
theorem Program.exec_immortal (hp : p.readsSelf = false) (hm : m.Lasting 0) (limit fuel : Nat) :
    (p.exec (.within limit fuel) m.immortal).1 = (p.exec (.within limit fuel) m).1 ∧
      ((p.exec (.within limit fuel) m).1 ≠ .error .exhausted →
        (p.exec (.within limit fuel) m).2.Resembles
          (p.exec (.within limit fuel) m.immortal).2) := by
  have halike := p.script.alike_within limit fuel (discreet hp 0)
  exact (halike m m.immortal hm.twins).resembles

theorem Program.Ends.immortal (hp : p.readsSelf = false) (hm : m.Lasting 0)
    (h : p.Ends limit m r s) : ∃ s', p.Ends limit m.immortal r s' ∧ s.Resembles s' := by
  obtain ⟨hr, fuel, hrun⟩ := h
  obtain ⟨hresult, hlooks⟩ := exec_immortal hp hm limit fuel
  rw [hrun] at hresult hlooks
  exact ⟨_, ends_of_result fuel hresult hr, hlooks hr⟩

theorem Program.Ends.mortal (hp : p.readsSelf = false) (hm : m.Lasting 0)
    (h : p.Ends limit m.immortal r s) : ∃ s', p.Ends limit m r s' ∧ s'.Resembles s := by
  obtain ⟨hr, fuel, hrun⟩ := h
  obtain ⟨hresult, hlooks⟩ := exec_immortal hp hm limit fuel
  rw [hrun] at hresult hlooks
  rw [← hresult] at hlooks
  exact ⟨_, ends_of_result fuel hresult.symm hr, hlooks hr⟩

/-- A program that starts with a heap that loses nothing ends with one. -/
theorem Program.Ends.whole (hm : m.heap.Whole) (h : p.Ends limit m r s) : s.heap.Whole := by
  obtain ⟨-, fuel, hrun⟩ := h
  have hends := p.script.leads_within Machine.later_whole limit fuel m hm
  rw [hrun] at hends
  exact hends

theorem Program.moments_owning (hp : p.readsSelf = false) (hm : m.Lasting 0) (limit : Nat) :
    ∀ t ∈ p.moments limit m, t.Owning := by
  intro t ht
  obtain ⟨fuel, ht⟩ := Set.mem_iUnion.1 ht
  have hlasting := p.script.moments_lasting (Guest.within_alike limit fuel)
    (Guest.within_accounted limit fuel) (Guest.within_lasts limit fuel) (discreet hp 0) hm
  exact (hlasting t ht).owning

end Ending

/-- Counting owners cannot be observed by a program that never reads the field through which an
instance shares itself. In every moment of its run, every handle in a scope, every value that has
been computed and not yet used, and every field but that one is absent or owns. The run ends as one
in which no object ever goes: with the same result, the same output and the same values in scope,
and one of the two ends if the other does. -/
theorem Program.counting_unobservable (p : Program) (hp : p.readsSelf = false) (limit : Nat)
    (sink : Sink) :
    (∀ t ∈ p.moments limit (.start sink), t.Owning) ∧
    (∀ r s, p.Ends limit (.start sink) r s →
      ⟨s, 0⟩ ∈ p.moments limit (.start sink) ∧
      ∃ s', p.Ends limit (Machine.start sink).immortal r s' ∧ s.Resembles s') ∧
    ∀ r s', p.Ends limit (Machine.start sink).immortal r s' →
      s'.heap.Whole ∧ ∃ s, p.Ends limit (.start sink) r s ∧ s.Resembles s' := by
  have hstart := Machine.start_lasting sink
  refine ⟨moments_owning hp hstart limit, ?_, ?_⟩
  · intro r s hends
    exact ⟨hends.mem_moments, hends.immortal hp hstart⟩
  · intro r s' hends
    have hempty : (Machine.start sink).immortal.heap.Whole :=
      ⟨rfl, fun loc hloc => absurd hloc (Nat.not_lt_zero loc)⟩
    exact ⟨hends.whole hempty, hends.mortal hp hstart⟩

/-- A program that makes an instance, gives it a field and lets it go. -/
def Program.droppedInstance : Program where
  body := [
    .assign "x" (.construct ⟨"Box", [], none⟩ [] ⟨1, 5⟩) ⟨1, 1⟩,
    .assignField (.path "x" [] ⟨2, 1⟩) "content" (.number 7 ⟨2, 13⟩) ⟨2, 1⟩,
    .print [.path "x" ["content"] ⟨3, 7⟩] ⟨3, 1⟩,
    .assign "x" (.none ⟨4, 5⟩) ⟨4, 1⟩]

/-- The instance is gone in the end, or it is not; what was printed and what is in scope is the
same. -/
theorem Program.counting_unobservable_droppedInstance :
    droppedInstance.readsSelf = false ∧ ∃ s s',
      droppedInstance.Ends 10 (.start .endless) (.ok ()) s ∧
      droppedInstance.Ends 10 (Machine.start .endless).immortal (.ok ()) s' ∧
      s.Resembles s' ∧ s.sink.written.toList = ["7\n"] ∧
      (s.heap.get? 0).isSome = false ∧ (s'.heap.get? 0).isSome = true := by
  have hp : droppedInstance.readsSelf = false := by decide +kernel
  have hok : (droppedInstance.exec (.within 10 2) (.start .endless)).1 = .ok () := by
    decide +kernel
  have hok' : (droppedInstance.exec (.within 10 2) (Machine.start .endless).immortal).1 =
      .ok () := by decide +kernel
  have hplace : 0 < (droppedInstance.exec (.within 10 2)
      (Machine.start .endless).immortal).2.heap.size := by decide +kernel
  have hends' := ends_of_result 2 hok' (by simp)
  obtain ⟨-, -, hmortal⟩ := counting_unobservable droppedInstance hp 10 .endless
  obtain ⟨hwhole, s, hends, hlooks⟩ := hmortal _ _ hends'
  have hs := (hends.unique (ends_of_result 2 hok (by simp))).2
  refine ⟨hp, s, _, hends, hends', hlooks, ?_, ?_, hwhole.full 0 hplace⟩
  · rw [hs]
    decide +kernel
  · rw [hs]
    decide +kernel

end Mython
