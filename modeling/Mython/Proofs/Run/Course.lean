import Mython.Proofs.Run.Account
import Mython.Proofs.Run.Moments
import Mython.Proofs.Run.Realm
import Mython.Proofs.Store.Lives

namespace Mython

open Run

/-- An assignment to a field that is carried out. -/
structure Assignment where
  /-- What the object of the assignment was evaluated to. -/
  target : Handle
  field : String
  /-- Where the instance is. -/
  loc : Loc
  /-- The state in which the evaluation of the object ended. -/
  state : Machine

/-- A moment of a run, and the assignment that led to it. -/
structure Point extends Moment where
  act : Option Assignment

/-- The field of the instance at a place has been assigned at one of several points. -/
def Point.Assigned (points : List Point) (loc : Loc) (field : String) : Prop :=
  ∃ p ∈ points, ∃ a, p.act = some a ∧ a.loc = loc ∧ a.field = field

/-- The point in which a run ends, with `rest` held besides. There is none without fuel. -/
def Run.ending (q : α → Multiset Handle) (rest : Multiset Handle) :
    Except Halt α × Machine → List Point
  | (.ok a, m) => [⟨⟨m, q a + rest⟩, none⟩]
  | (.error (.fault _), m) => [⟨⟨m, rest⟩, none⟩]
  | (.error .exhausted, _) => []

/-- The courses of requests to a guest. -/
structure Guest.Courses where
  call : Handle → String → List Handle → Nat → Multiset Handle → Machine → List Point
  render : Handle → Nat → Multiset Handle → Machine → List Point

/-- The state in which an instance has been assigned a field, after the value has been computed. -/
def Machine.bestowed (m : Machine) (loc : Loc) (field : String) (y : Handle) : Machine :=
  (assignField loc field y { m with heap := m.heap.retain y }).2

/-- The course of a script from a state on, with `rest` held besides. -/
def Script.course (g : Guest) (requests : Guest.Courses) {α : Type} {p : Multiset Handle}
    {f : Guest → Run α} {q : α → Multiset Handle} :
    Script p f q → Multiset Handle → Machine → List Point
  | @Script.step _ _ f q _, rest, m => ending q rest (f m)
  | @Script.frame _ _ f q aside _ _, rest, m => ending (fun a => q a + aside) rest (f m)
  | @Script.bind _ _ _ f _ _ _ h hk, rest, m =>
    h.course g requests rest m ++ match f g m with
      | (.ok a, m') => (hk a).course g requests rest m'
      | (.error _, _) => []
  | @Script.holding _ _ f q x h, rest, m =>
    h.course g requests (x.held + rest) m ++ ending q rest (Run.holding x (f g) m)
  | @Script.keeping _ _ f q x h, rest, m =>
    h.course g requests (x.held + rest) m ++
      ending (fun a => x.held + q a) rest (Run.keeping x (f g) m)
  | @Script.seize _ _ look body other q _ hb ho, rest, m =>
    match look m.heap with
    | .ok loc =>
      let m₁ := { m with heap := m.heap.retain (.own loc) }
      ⟨⟨m₁, (Handle.own loc).held + rest⟩, none⟩ ::
        ((hb loc).course g requests ((Handle.own loc).held + rest) m₁ ++
          ending q rest (Run.seize look (body g) (other g) m))
    | .error found => (ho found).course g requests rest m
  | @Script.bestow f x describe field line h, rest, m =>
    match instanceAt x m.heap with
    | .ok loc =>
      let m₁ := { m with heap := m.heap.retain (.own loc) }
      ⟨⟨m₁, (Handle.own loc).held + rest⟩, none⟩ ::
        (h.course g requests ((Handle.own loc).held + rest) m₁ ++
          (match f g m₁ with
            | (.ok y, m₂) =>
              [⟨⟨m₂.bestowed loc field y, y.held + ((Handle.own loc).held + rest)⟩,
                some ⟨x, field, loc, m⟩⟩]
            | (.error _, _) => []) ++
          ending Completion.held rest
            (Run.seize (instanceAt x) (fun loc => Run.bestow loc field (f g))
              (fun _ => raise line (.notInstance describe)) m))
    | .error _ => [⟨⟨m, rest⟩, none⟩]
  | .call x name args line, rest, m => requests.call x name args line rest m
  | .render x line, rest, m => requests.render x line rest m
  | .conv h _ _ _, rest, m => h.course g requests rest m

/-- The courses of requests, with a limit on the depth of calls and an amount of fuel. While a
method runs, its receiver and the scope around are held. -/
def Guest.courseWithin (limit : Nat) : Nat → Guest.Courses
  | 0 => ⟨fun _ _ _ _ _ _ => [], fun _ _ _ _ => []⟩
  | n + 1 =>
    ⟨fun x name args line rest m =>
        (match m.dispatch limit x name args.length with
        | .error _ => []
        | .ok (loc, method) =>
          if h : method.arity = args.length then
            let outer := Handle.heldAll m.scope.handles + ((Handle.own loc).held + rest)
            ⟨⟨m.entered loc, Handle.heldAll args + outer⟩, none⟩ ::
              (bodyScript method args h).course (within limit n) (courseWithin limit n) outer
                (m.entered loc)
          else []) ++
        ending Handle.held rest ((within limit (n + 1)).call x name args line m),
      fun x line rest m =>
        (textScript x line).course (within limit n) (courseWithin limit n) rest m⟩

/-- An assignment of the code: its statement is there, and its object was evaluated to the
instance. -/
def Assignment.Of (code : Code → Prop) (a : Assignment) : Prop :=
  ∃ object value pos, code (.stmt (.assignField object a.field value pos)) ∧
    (∃ limit fuel before, object.eval (.within limit fuel) before = (.ok a.target, a.state)) ∧
    instanceAt a.target a.state.heap = .ok a.loc

/-- What holds from one state to the next point. -/
structure Point.Follows (code : Code → Prop) (m : Machine) (p : Point) : Prop where
  lives : m.heap.Lives (Assigned [p]) p.machine.heap
  settled : p.machine.Settled p.held
  act : ∀ a, p.act = some a → a.Of code

/-- Points that follow each other from one state to another. -/
inductive Traces (code : Code → Prop) : Machine → List Point → Machine → Prop
  | nil {m : Machine} : Traces code m [] m
  | cons {m m' : Machine} {p : Point} {ps : List Point} (hp : p.Follows code m)
      (hps : Traces code p.machine ps m') : Traces code m (p :: ps) m'

/-- The points of a run that has ended lead to where it ended; without fuel, they lead somewhere. -/
def Run.Traced (code : Code → Prop) (m : Machine) (ps : List Point) :
    Except Halt α × Machine → Prop
  | (.ok _, m') => Traces code m ps m'
  | (.error (.fault _), m') => Traces code m ps m'
  | (.error .exhausted, _) => ∃ m', Traces code m ps m'

namespace Traces

variable {code : Code → Prop} {m m' m'' : Machine} {ps qs : List Point}

theorem append (h : Traces code m ps m') (h' : Traces code m' qs m'') :
    Traces code m (ps ++ qs) m'' := by
  induction h with
  | nil => exact h'
  | cons hp _ ih => exact .cons hp (ih h')

theorem single {p : Point} (hp : p.Follows code m) : Traces code m [p] p.machine := .cons hp .nil

/-- A course can be taken apart anywhere. -/
theorem split (h : Traces code m (ps ++ qs) m'') :
    ∃ m', Traces code m ps m' ∧ Traces code m' qs m'' := by
  induction ps generalizing m with
  | nil => exact ⟨m, .nil, h⟩
  | cons p ps ih =>
    cases h with
    | cons hp hps =>
      obtain ⟨m', hfront, hback⟩ := ih hps
      exact ⟨m', .cons hp hfront, hback⟩

/-- Objects live on through a course, and fields change only where they are assigned in it. -/
theorem lives (h : Traces code m ps m') : m.heap.Lives (Point.Assigned ps) m'.heap := by
  induction h with
  | nil => exact .refl _
  | @cons m m' p ps hp _ ih =>
    have hfirst : m.heap.Lives (Point.Assigned (p :: ps)) p.machine.heap := by
      apply hp.lives.mono
      rintro loc field ⟨r, hr, hact⟩
      exact ⟨r, by simp [List.mem_singleton.1 hr], hact⟩
    apply hfirst.trans
    apply ih.mono
    rintro loc field ⟨r, hr, hact⟩
    exact ⟨r, List.mem_cons_of_mem _ hr, hact⟩

/-- What is at a point of a course was made in it. -/
theorem follows (h : Traces code m ps m') {p : Point} (hp : p ∈ ps) :
    ∃ before, p.Follows code before := by
  induction h with
  | nil => cases hp
  | @cons m _ r _ hr _ ih =>
    rcases List.mem_cons.1 hp with rfl | hp
    · exact ⟨m, hr⟩
    · exact ih hp

end Traces

section Tracing

variable {code : Code → Prop} {m : Machine} {ps : List Point}

/-- A step that assigns nothing. -/
theorem Point.Follows.quiet {m' : Machine} {held : Multiset Handle}
    (hl : ∀ {changed}, m.heap.Lives changed m'.heap) (hs : m'.Settled held) :
    Point.Follows code m ⟨⟨m', held⟩, none⟩ :=
  ⟨hl, hs, by rintro a ⟨⟩⟩

/-- An object that is there gets one more owner. -/
theorem Point.Follows.retained {loc : Loc} {held : Multiset Handle} (hs : m.Settled held)
    (huse : m.heap.Usable (.own loc)) :
    Point.Follows code m
      ⟨⟨{ m with heap := m.heap.retain (.own loc) }, (Handle.own loc).held + held⟩, none⟩ :=
  .quiet (Heap.Lives.retain m.heap (.own loc)) (hs.retain huse)

theorem Run.Traced.somewhere {r : Except Halt α × Machine} (h : Traced code m ps r) :
    ∃ m', Traces code m ps m' := by
  rcases r with ⟨(fault | _) | a, m'⟩
  · exact ⟨m', h⟩
  · exact h
  · exact ⟨m', h⟩

theorem Run.Traced.traces {r : Except Halt α × Machine} (h : Traced code m ps r)
    (hr : r.1 ≠ .error .exhausted) : Traces code m ps r.2 := by
  rcases r with ⟨(fault | _) | a, m'⟩
  · exact h
  · exact absurd rfl hr
  · exact h

theorem Run.Traced.append {m' : Machine} {qs : List Point} {r : Except Halt α × Machine}
    (h : Traces code m ps m') (h' : Traced code m' qs r) : Traced code m (ps ++ qs) r := by
  rcases r with ⟨(fault | _) | a, m''⟩
  · exact Traces.append h h'
  · obtain ⟨s, hs⟩ := h'
    exact ⟨s, h.append hs⟩
  · exact Traces.append h h'

/-- A run of which something is done at the end, whether or not it has an answer. -/
theorem Run.Traced.ending {r : Except Halt α × Machine} {r' : Except Halt β × Machine}
    {q : β → Multiset Handle} {rest : Multiset Handle} (h : Traced code m ps r)
    (hshort : r.1 = .error .exhausted → r'.1 = .error .exhausted)
    (hl : ∀ {changed}, r.2.heap.Lives changed r'.2.heap) (hs : Settles rest q r') :
    Traced code m (ps ++ ending q rest r') r' := by
  by_cases hr' : r'.1 = .error .exhausted
  · obtain ⟨e, m'⟩ := r'
    obtain rfl : e = .error .exhausted := hr'
    rw [Run.ending, List.append_nil]
    exact h.somewhere
  · have hend := h.traces fun hr => hr' (hshort hr)
    apply Traced.append hend
    rcases r' with ⟨(fault | _) | b, m'⟩
    · exact .single (.quiet hl hs)
    · exact absurd rfl hr'
    · exact .single (.quiet hl hs)

/-- A run that is a single step. -/
theorem Run.Traced.step {r : Except Halt α × Machine} {q : α → Multiset Handle}
    {rest : Multiset Handle} (hl : ∀ {changed}, m.heap.Lives changed r.2.heap)
    (hs : Settles rest q r) : Traced code m (Run.ending q rest r) r := by
  have hstart : Traced code m [] ((.ok (), m) : Except Halt Unit × Machine) := Traces.nil
  exact hstart.ending (by rintro ⟨⟩) hl hs

end Tracing

/-- No primitive step changes a field. -/
theorem Primitive.lives {p : Multiset Handle} {f : Run α} {q : α → Multiset Handle}
    (h : Primitive p f q) (m : Machine) {changed : Loc → String → Prop} :
    m.heap.Lives changed (f m).2.heap := by
  cases h with
  | pure a q => exact .refl _
  | ask look => exact .refl _
  | raise line hc q => exact .refl _
  | fresh ho => exact .alloc_plain _ ho
  | freshInstance c => exact .allocInstance _ c
  | @compute line look ho hc =>
    rw [Run.compute, ask_bind]
    cases hl : look m.heap with
    | ok object => exact .alloc_plain _ (ho _ _ hl)
    | error cause => exact .refl _
  | path root fields line =>
    rw [Run.path]
    split
    · exact .refl _
    · split
      · exact .refl _
      · exact .retain _ _
  | fetch x owner name line =>
    rw [Run.fetch, ask_bind]
    cases hf : m.heap.field x owner name with
    | error cause => exact .refl _
    | ok y => exact .retain _ _
  | retain x => exact .retain _ x
  | release x => exact .release _ x
  | releaseAll xs => exact .releaseAll _ xs
  | assign name x => exact .release _ _
  | write line text =>
    rw [Run.write]
    split
    · exact .refl _
    · exact .refl _

/-- Letting go of what was held changes no answer and no field. -/
theorem Run.Traced.holding {code : Code → Prop} {m : Machine} {ps : List Point} {f : Run α}
    {x : Handle} {q : α → Multiset Handle} {rest : Multiset Handle} (h : Traced code m ps (f m))
    (hs : Settles rest q (holding x f m)) :
    Traced code m (ps ++ Run.ending q rest (holding x f m)) (holding x f m) :=
  h.ending (fun hshort => hshort) (Heap.Lives.release (f m).2.heap x) hs

theorem Run.Traced.keeping {code : Code → Prop} {m : Machine} {ps : List Point} {f : Run α}
    {x : Handle} {q : α → Multiset Handle} {rest : Multiset Handle} (h : Traced code m ps (f m))
    (hs : Settles rest q (keeping x f m)) :
    Traced code m (ps ++ Run.ending q rest (keeping x f m)) (keeping x f m) := by
  rcases hf : f m with ⟨e | a, m'⟩
  · rw [hf] at h
    rw [keeping_of_error hf] at hs ⊢
    exact h.ending (by rintro ⟨⟩; rfl) (Heap.Lives.release m'.heap x) hs
  · rw [hf] at h
    rw [keeping_of_ok hf] at hs ⊢
    exact h.ending (by rintro ⟨⟩) (.refl _) hs

/-- Assigning a field changes that field only. -/
theorem Machine.bestowed_lives (m : Machine) (loc : Loc) (field : String) (y : Handle) :
    m.heap.Lives (fun place name => place = loc ∧ name = field) (m.bestowed loc field y).heap :=
  ((Heap.Lives.retain _ y).trans (Heap.Lives.setField _ loc field y)).trans (.release _ _)

/-- Requests have courses of the code of a realm. -/
structure Guest.Traced (w : Realm) (limit n : Nat) : Prop where
  call : ∀ x name args line rest m, w.Covers m → w.Admits x → w.AdmitsAll (Handle.heldAll args) →
    m.Settled (Handle.heldAll args + rest) →
    Run.Traced w.code m ((courseWithin limit n).call x name args line rest m)
      ((within limit n).call x name args line m)
  render : ∀ x line rest m, w.Covers m → w.Admits x → m.Settled rest →
    Run.Traced w.code m ((courseWithin limit n).render x line rest m)
      ((within limit n).render x line m)

/-- An instance that is held while a value is computed is then assigned it. -/
theorem Run.Traced.bestow {code : Code → Prop} {m : Machine} {ps : List Point} {f : Run Handle}
    {loc : Loc} {field : String} {a : Assignment} {held : Multiset Handle}
    (h : Traced code m ps (f m))
    (hf : ∀ y m', f m = (.ok y, m') →
      Point.Follows code m' ⟨⟨m'.bestowed loc field y, y.held + held⟩, some a⟩) :
    Traced code m
      (ps ++ match f m with
        | (.ok y, m') => [⟨⟨m'.bestowed loc field y, y.held + held⟩, some a⟩]
        | (.error _, _) => [])
      (Run.bestow loc field f m) := by
  rcases hrun : f m with ⟨e | y, m'⟩
  · rw [hrun] at h
    have hstop : Run.bestow loc field f m = (.error e, m') := bind_of_error hrun
    rw [hstop, List.append_nil]
    cases e with
    | fault fault => exact h
    | exhausted => exact h
  · rw [hrun] at h
    have hdone : Run.bestow loc field f m = (.ok (.next y), m'.bestowed loc field y) :=
      bind_of_ok hrun
    rw [hdone]
    exact Traces.append h (.single (hf y m' hrun))

/-- The instance has been there all the time, and its field is the one that changes. -/
theorem Point.Follows.bestowed {code : Code → Prop} {m : Machine} {y : Handle}
    {rest : Multiset Handle} (a : Assignment) (hs : m.Settled (y.held + rest))
    (hinst : ∃ c fields, m.heap.get? a.loc = some (.inst c fields)) (ha : a.Of code) :
    Point.Follows code m ⟨⟨m.bestowed a.loc a.field y, y.held + rest⟩, some a⟩ := by
  obtain ⟨c, fields, hinst⟩ := hinst
  rw [← Heap.get?_retain m.heap y] at hinst
  obtain ⟨m', hassign, hdone⟩ := assignField_settled a.field (hs.retain hs.usable) hinst
  obtain rfl : m.bestowed a.loc a.field y = m' := congrArg Prod.snd hassign
  refine ⟨?_, hdone, ?_⟩
  · apply (m.bestowed_lives a.loc a.field y).mono
    rintro place name ⟨rfl, rfl⟩
    exact ⟨_, List.mem_singleton_self _, _, rfl, rfl, rfl⟩
  · rintro a' ⟨⟩
    exact ha

/-- The course of a script of the code of a realm is one of that code, if those of requests are. -/
theorem Script.traced {w : Realm} {limit n : Nat} (hg : Guest.Traced w limit n)
    {p : Multiset Handle} {f : Guest → Run α} {q : α → Multiset Handle} (h : Script p f q)
    {rest : Multiset Handle} {m : Machine} (hmade : h.Made w (.within limit n) m)
    (hm : w.Covers m) (hp : w.AdmitsAll p) (hs : m.Settled (p + rest)) :
    Run.Traced w.code m (h.course (.within limit n) (Guest.courseWithin limit n) rest m)
      (f (.within limit n) m) := by
  have hlands := Guest.within_lands w limit n
  have haccounted := Guest.within_accounted limit n
  -- By induction on the script. The realm says what is called and assigned, the account what is
  -- there; both are known of the state behind each part before the next one is entered.
  induction h generalizing rest m with
  | step h => exact .step (h.lives m) (h.accounts rest m hs)
  | frame aside h hf => exact .step (h.lives m) (h.accounts.frame hf aside rest m hs)
  | @bind _ _ _ f k q r h hk ih ihk =>
    have hfirst := ih hmade.1 hm hp hs
    have hlanded := h.lands hlands hmade.1 hm hp
    have hsettled := h.accounts haccounted rest m hs
    rw [course]
    beta_reduce
    rcases hf : f (.within limit n) m with ⟨e | a, m'⟩
    · rw [hf] at hfirst
      rw [bind_of_error hf, List.append_nil]
      cases e with
      | fault fault => exact hfirst
      | exhausted => exact hfirst
    · rw [hf] at hfirst hlanded hsettled
      rw [bind_of_ok hf]
      exact .append hfirst
        (ihk a (hmade.2 a m' hlanded.1 hlanded.2 hf) hlanded.1 hlanded.2 hsettled)
  | @holding _ p f q x h ih =>
    obtain ⟨-, hrest⟩ := Realm.admitsAll_add.1 hp
    have hinner : m.Settled (p + (x.held + rest)) := by
      rwa [add_left_comm, ← add_assoc]
    exact (ih hmade hm hrest hinner).holding ((h.accounts haccounted).holding x rest m hs)
  | @keeping _ p f q x h ih =>
    obtain ⟨-, hrest⟩ := Realm.admitsAll_add.1 hp
    have hinner : m.Settled (p + (x.held + rest)) := by
      rwa [add_left_comm, ← add_assoc]
    exact (ih hmade hm hrest hinner).keeping ((h.accounts haccounted).keeping x rest m hs)
  | @seize _ _ look body other q hl hb ho ihb iho =>
    have hall := (Script.seize hl hb ho).accounts haccounted rest m hs
    rw [Made] at hmade
    rw [course]
    rw [zero_add] at hs
    beta_reduce at hall ⊢
    cases hfound : look m.heap with
    | error found =>
      rw [hfound] at hmade
      rw [seize_of_error hfound]
      exact iho found hmade hm hp (by rwa [zero_add])
    | ok loc =>
      rw [hfound] at hmade
      have huse := Heap.usable_own (hl m.heap loc hfound)
      have hkept := hs.retain huse
      rw [← zero_add ((Handle.own loc).held + rest)] at hkept
      have hbody := ihb loc hmade (hm.retain _) hp hkept
      rw [seize_of_ok hfound, retain_bind] at hall ⊢
      exact Traced.append (.single (.retained hs huse)) (hbody.holding hall)
  | @bestow f x describe field line h ih =>
    have hall := (Script.bestow x describe field line h).accounts haccounted rest m hs
    obtain ⟨⟨object, value, pos, before, hcode, hrun⟩, hmade⟩ := hmade
    rw [course]
    rw [zero_add] at hs
    beta_reduce at hall ⊢
    cases hfound : instanceAt x m.heap with
    | error found =>
      rw [seize_of_error hfound]
      exact .single (.quiet (.refl _) hs)
    | ok loc =>
      obtain ⟨c, fields, hinst⟩ := instanceAt_ok hfound
      have huse : m.heap.Usable (.own loc) := Heap.usable_own (by rw [hinst]; rfl)
      have hkept := hs.retain huse
      rw [← zero_add ((Handle.own loc).held + rest)] at hkept
      have hvalue := ih (hmade loc hfound) (hm.retain _) hp hkept
      have hsettled := h.accounts haccounted _ _ hkept
      have hgrows := h.leads_within Machine.later_heap limit n
        { m with heap := m.heap.retain (.own loc) }
      rw [seize_of_ok hfound, retain_bind] at hall ⊢
      refine Traced.append (.single (.retained hs huse)) ?_
      refine Traced.holding (hvalue.bestow ?_) hall
      intro y m₂ hy
      rw [hy] at hsettled hgrows
      have hthere : ∃ c fields, m₂.heap.get? loc = some (.inst c fields) := by
        apply Machine.Settled.stays_inst hsettled _ hgrows
        · rw [Heap.get?_retain]
          exact ⟨c, fields, hinst⟩
        · simp [Handle.held]
      have ha : (Assignment.mk x field loc m).Of w.code :=
        ⟨object, value, pos, hcode, ⟨limit, n, before, hrun⟩, hfound⟩
      exact Point.Follows.bestowed ⟨x, field, loc, m⟩ hsettled hthere ha
  | call x name args line => exact hg.call x name args line rest m hm hmade hp hs
  | render x line => exact hg.render x line rest m hm hmade (by rwa [zero_add] at hs)
  | conv _ hp' hf hq ih =>
    obtain rfl := hp'
    rw [← hf]
    exact ih hmade hm hp hs

/-- The account in front of the body of a method: the scope around and the receiver are held. -/
theorem Machine.Settled.entered {m : Machine} {args : List Handle} {rest : Multiset Handle}
    {loc : Loc} (hs : m.Settled (Handle.heldAll args + rest))
    (hinst : ∃ c fields, m.heap.get? loc = some (.inst c fields)) :
    (m.entered loc).Settled (Handle.heldAll args +
      (Handle.heldAll m.scope.handles + ((Handle.own loc).held + rest))) := by
  obtain ⟨c, fields, hinst⟩ := hinst
  have hkept := hs.retain (Heap.usable_own (by rw [hinst]; rfl) : m.heap.Usable (.own loc))
  have htwice := hkept.retain hkept.usable
  have hscope : Handle.heldAll (m.entered loc).scope.handles = (Handle.own loc).held := add_zero _
  rw [Machine.Settled] at htwice ⊢
  rw [hscope]
  have hsum : Handle.heldAll m.scope.handles +
      ((Handle.own loc).held + ((Handle.own loc).held + (Handle.heldAll args + rest))) =
      (Handle.own loc).held + (Handle.heldAll args +
        (Handle.heldAll m.scope.handles + ((Handle.own loc).held + rest))) := by abel
  rw [← hsum]
  exact htwice

/-- The course of a call is one of the code, if that of the body of its method is. -/
theorem Guest.traced_call {w : Realm} {limit n : Nat} (hg : Guest.Traced w.deeper limit n)
    {x : Handle} (name : String) {args : List Handle} (line : Nat) {rest : Multiset Handle}
    {m : Machine} (hm : w.Covers m) (hx : w.Admits x) (hargs : w.AdmitsAll (Handle.heldAll args))
    (hs : m.Settled (Handle.heldAll args + rest)) :
    Run.Traced w.code m ((courseWithin limit (n + 1)).call x name args line rest m)
      ((within limit (n + 1)).call x name args line m) := by
  have hall := (within_accounted limit (n + 1)).call x name args line rest m hs
  have hcall : (within limit (n + 1)).call x name args line m =
      around limit (within limit n).body x name args line m := rfl
  simp only [courseWithin]
  cases hd : m.dispatch limit x name args.length with
  | error cause =>
    simp only [List.nil_append]
    apply Run.Traced.step _ hall
    intro changed
    rw [hcall, around_of_error hd]
    exact .releaseAll _ _
  | ok found =>
    obtain ⟨loc, method⟩ := found
    obtain ⟨-, hinst, harity, -⟩ := Machine.dispatch_ok hd
    obtain ⟨hloc, hcode⟩ := hm.dispatch hx hd
    have hentered := hs.entered hinst
    simp only [harity, dite_true]
    have hbody := (bodyScript method args harity).traced hg
      (made_body (w := w.deeper) harity hcode (m.entered loc)) (hm.entered hloc) hargs hentered
    have hfirst : Point.Follows w.code m ⟨⟨m.entered loc, Handle.heldAll args +
        (Handle.heldAll m.scope.handles + ((Handle.own loc).held + rest))⟩, none⟩ :=
      .quiet ((Heap.Lives.retain m.heap (.own loc)).trans
        (Heap.Lives.retain (m.heap.retain (.own loc)) (.own loc))) hentered
    rw [List.cons_append]
    refine Traced.append (.single hfirst) ?_
    have hafter : (within limit (n + 1)).call x name args line m =
        enter loc ((within limit n).body method args) m := by
      rw [hcall, around_of_ok hd]
    apply Traced.ending hbody _ _ hall
    · intro hshort
      rw [hafter, enter_apply]
      exact hshort
    · intro changed
      rw [hafter, enter_apply]
      have hscope := @Heap.Lives.releaseAll changed
        ((within limit n).body method args (m.entered loc)).2.heap
        ((within limit n).body method args (m.entered loc)).2.scope.handles
      exact hscope.trans (Heap.Lives.release _ (.own loc))

/-- Requests have courses of the code, with every limit and any amount of fuel. -/
theorem Guest.within_traced (w : Realm) (limit n : Nat) : Guest.Traced w limit n := by
  induction n generalizing w with
  | zero => exact ⟨fun _ _ _ _ _ m _ _ _ _ => ⟨m, .nil⟩, fun _ _ _ m _ _ _ => ⟨m, .nil⟩⟩
  | succ n ih =>
    constructor
    · intro x name args line rest m hm hx hargs hs
      exact traced_call (ih w.deeper) name line hm hx hargs hs
    · intro x line rest m hm hx hs
      exact (textScript x line).traced (ih w) (made_text line hm hx) hm w.admitsAll_zero
        (by rwa [zero_add])

end Mython
