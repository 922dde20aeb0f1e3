import Mython.Proofs.Run.Course
import Mython.Proofs.Session.Boundary

namespace Mython

open Run

/-- A program to be run in a session. Its run may stay short of the end for lack of fuel, and then
is the last one. -/
structure Task where
  program : Program
  limit : Nat
  fuel : Nat
  sink : Sink

namespace Machine

/-- Runs a program in the scope that is there. -/
def undertake (m : Machine) (t : Task) : Except Halt Unit × Machine :=
  t.program.exec (.within t.limit t.fuel) (m.renew t.sink)

/-- A job is such a run, if its source is a program. -/
theorem perform_eq_undertake (m : Machine) (job : Job) {p : Program}
    (h : parse job.source = .ok p) :
    (m.perform job).2 =
      (m.undertake ⟨p, job.limit, plentyOfFuel, .ofWrites job.writes⟩).2 := by
  rw [perform, h]
  rfl

/-- The course of one program of a session. -/
def courseOf (m : Machine) (t : Task) : List Point :=
  ⟨⟨m.renew t.sink, 0⟩, none⟩ ::
    t.program.script.course (.within t.limit t.fuel) (Guest.courseWithin t.limit t.fuel) 0
      (m.renew t.sink)

/-- The course of a session from a state on. -/
def course (m : Machine) : List Task → List Point
  | [] => []
  | t :: ts =>
    m.courseOf t ++ match m.undertake t with
      | (.error .exhausted, _) => []
      | (_, m') => m'.course ts

/-- The states in which the programs of a session end, one after the other. -/
def ends (m : Machine) : List Task → List Machine
  | [] => []
  | t :: ts =>
    match m.undertake t with
    | (.error .exhausted, _) => []
    | (_, m') => m' :: m'.ends ts

end Machine

/-- Code of the programs of a session. -/
def Task.Code (tasks : List Task) (code : Code) : Prop := ∃ t ∈ tasks, t.program.Contains code

/-- All that a session can come across. -/
def Realm.session (tasks : List Task) : Realm where
  code := Task.Code tasks
  closed := by
    rintro a b ⟨t, ht, s, hs, hc⟩ hpart
    exact ⟨t, ht, s, hs, hc.tail hpart⟩
  places _ := True
  base := 0
  new _ _ := trivial
  depth := 0

theorem Realm.session_covers (tasks : List Task) (sink : Sink) :
    (session tasks).Covers (.start sink) := by
  refine ⟨⟨Nat.zero_le _, ?_⟩, ?_, rfl⟩
  · intro loc object _ hget
    cases hget
  · intro x hx
    cases hx

theorem Realm.Covers.renew {tasks : List Task} {m : Machine} (hm : (session tasks).Covers m)
    (sink : Sink) : (session tasks).Covers (m.renew sink) :=
  ⟨hm.heap, hm.scope, rfl⟩

section Undertaking

variable {tasks : List Task} {t : Task} (ht : t ∈ tasks) {m : Machine}
  (hm : (Realm.session tasks).Covers m)

include ht

theorem Realm.session_code : ∀ s ∈ t.program.body, (session tasks).code (.stmt s) :=
  fun s hs => ⟨t, ht, s, hs, .refl⟩

include hm

/-- A program of a session stays in what the session can come across. -/
theorem Machine.undertake_covers : (Realm.session tasks).Covers (m.undertake t).2 := by
  have hmade := Program.made (g := .within t.limit t.fuel) (Realm.session_code ht) (m.renew t.sink)
  have hlands := t.program.script.lands (Guest.within_lands _ t.limit t.fuel) hmade
    (hm.renew t.sink) (Realm.session tasks).admitsAll_zero
  exact hlands.covers

/-- A program of a session has a course of the session's code, and leaves a state from which the
next one can go on, unless it is short of fuel. -/
theorem Machine.undertake_traced (hs : m.Settled 0) :
    Run.Traced (Task.Code tasks) m (m.courseOf t) (m.undertake t) ∧
      (Realm.session tasks).Covers (m.undertake t).2 ∧
      Settles 0 (fun _ => 0) (m.undertake t) := by
  have hsettled : (m.renew t.sink).Settled (0 + 0) := hs
  refine ⟨?_, undertake_covers ht hm, ?_⟩
  · have hfirst : Point.Follows (Task.Code tasks) m ⟨⟨m.renew t.sink, 0⟩, none⟩ :=
      .quiet (Heap.Lives.refl m.heap) hs
    have hmade := Program.made (g := .within t.limit t.fuel) (Realm.session_code ht)
      (m.renew t.sink)
    have hrest := t.program.script.traced (Guest.within_traced _ t.limit t.fuel) hmade
      (hm.renew t.sink) (Realm.session tasks).admitsAll_zero hsettled
    exact Run.Traced.append (.single hfirst) hrest
  · exact t.program.script.accounts (Guest.within_accounted t.limit t.fuel) 0 _ hsettled

end Undertaking

namespace Traces

variable {code : Code → Prop} {m m' : Machine} {front between back : List Point} {p q : Point}

theorem eq_of_last (h : Traces code m (front ++ [q]) m') : q.machine = m' := by
  obtain ⟨_, -, hlast⟩ := h.split
  cases hlast with
  | cons _ hend =>
    cases hend
    rfl

/-- A course that begins with a point ends in the state of one. -/
theorem end_mem (h : Traces code m (p :: back) m') :
    m' ∈ (p :: back).map fun q => q.machine := by
  have hsplit := (List.dropLast_concat_getLast (List.cons_ne_nil p back)).symm
  rw [hsplit] at h
  rw [← h.eq_of_last]
  exact List.mem_map_of_mem (List.getLast_mem _)

/-- From a point of a course to a later one objects live on. -/
theorem lives_between (h : Traces code m (front ++ p :: (between ++ q :: back)) m') :
    p.machine.heap.Lives (Point.Assigned (between ++ [q])) q.machine.heap := by
  obtain ⟨_, -, hp⟩ := h.split
  cases hp with
  | cons _ hrest =>
    rw [← List.singleton_append, ← List.append_assoc] at hrest
    obtain ⟨_, hbetween, -⟩ := hrest.split
    have hlives := hbetween.lives
    rwa [← hbetween.eq_of_last] at hlives

/-- So do they from the start of a course. -/
theorem lives_from_start (h : Traces code m (front ++ q :: back) m') :
    m.heap.Lives (Point.Assigned (front ++ [q])) q.machine.heap := by
  rw [← List.singleton_append, ← List.append_assoc] at h
  obtain ⟨_, hfront, -⟩ := h.split
  have hlives := hfront.lives
  rwa [← hfront.eq_of_last] at hlives

/-- A field is assigned in a course only by an assignment in the code. -/
theorem exists_assignment (h : Traces code m front m') {loc : Loc} {field : String}
    (ha : Point.Assigned front loc field) :
    ∃ object value pos, code (.stmt (.assignField object field value pos)) := by
  obtain ⟨r, hr, a, hact, -, rfl⟩ := ha
  obtain ⟨_, hfollows⟩ := h.follows hr
  obtain ⟨object, value, pos, hcode, -⟩ := hfollows.act a hact
  exact ⟨object, value, pos, hcode⟩

end Traces

/-- The course of a session is one of the code of its programs, and goes by the states in which
they end. -/
theorem Machine.traces_course {tasks : List Task} (ts : List Task) (hts : ∀ t ∈ ts, t ∈ tasks)
    {m : Machine} (hm : (Realm.session tasks).Covers m) (hs : m.Settled 0) :
    (∃ m', Traces (Task.Code tasks) m (m.course ts) m') ∧
      (m.ends ts).Sublist ((m.course ts).map fun p => p.machine) := by
  induction ts generalizing m with
  | nil => exact ⟨⟨m, .nil⟩, .slnil⟩
  | cons t ts ih =>
    have hrest : ∀ t ∈ ts, t ∈ tasks := fun t ht => hts t (List.mem_cons_of_mem _ ht)
    obtain ⟨htraced, hcovers, hsettles⟩ := undertake_traced (hts t List.mem_cons_self) hm hs
    have hnext : ∀ m', Traces (Task.Code tasks) m (m.courseOf t) m' →
        (Realm.session tasks).Covers m' → m'.Settled 0 →
        (∃ s, Traces (Task.Code tasks) m (m.courseOf t ++ m'.course ts) s) ∧
          (m' :: m'.ends ts).Sublist
            ((m.courseOf t ++ m'.course ts).map fun p => p.machine) := by
      intro m' htraces hcovers hsettled
      obtain ⟨⟨s, hcourse⟩, hends⟩ := ih hrest hcovers hsettled
      refine ⟨⟨s, htraces.append hcourse⟩, ?_⟩
      rw [List.map_append]
      exact (List.singleton_sublist.2 htraces.end_mem).append hends
    rw [course, ends]
    rcases hr : m.undertake t with ⟨(fault | _) | a, m'⟩
    · rw [hr] at htraced hcovers hsettles
      exact hnext m' htraced hcovers hsettles
    · rw [hr] at htraced
      obtain ⟨s, hlast⟩ := htraced
      exact ⟨⟨s, by rwa [List.append_nil]⟩, List.nil_sublist _⟩
    · rw [hr] at htraced hcovers hsettles
      exact hnext m' htraced hcovers hsettles

/-- A handle that is in use at a point of a run: bound to a name of the scope, held besides, or in a
field of an instance. -/
def Point.Uses (p : Point) (x : Handle) : Prop :=
  x ∈ p.machine.scope.handles ∨ x ∈ p.held ∨ p.machine.heap.Stores x

/-- What shares something leads to an instance wherever the account is settled. -/
theorem Point.kind_of_share {p : Point} (hs : p.machine.Settled p.held) {loc : Loc}
    (hx : p.Uses (.share loc)) {object : Object}
    (hget : p.machine.heap.object? (.share loc) = some object) : object.kind = .inst := by
  have hknown : p.machine.heap.Known (.share loc) := by
    rcases hx with hx | hx | hx
    · apply Heap.Settled.known hs
      exact Multiset.mem_add.2 (Or.inl (Handle.mem_heldAll.2 ⟨hx, nofun⟩))
    · exact Heap.Settled.known hs _ (Multiset.mem_add.2 (Or.inr hx))
    · exact Heap.Settled.stored hs _ hx
  exact hknown.2 object hget

/-- The lives of objects in a session from an empty scope, at every point of every run, its end
included. From one point to a later one every object keeps its kind, and a number, text, truth or
class what it is; an instance keeps its class and loses no field, and a field that is new or has
changed, or differs from what a new instance has, has been assigned in between. Every assignment is
one of the programs, with that field and an object that was evaluated to that very instance. A
handle in use that shares something leads to an instance if it leads anywhere. Where no program
assigns a field `self`, every instance that is there shares itself by that field. -/
theorem Machine.session_discipline (tasks : List Task) (sink : Sink) :
    ((start sink).ends tasks).Sublist (((start sink).course tasks).map fun p => p.machine) ∧
    (∀ front p between q back,
      (start sink).course tasks = front ++ p :: (between ++ q :: back) →
      p.machine.heap.Lives (Point.Assigned (between ++ [q])) q.machine.heap) ∧
    (∀ p ∈ (start sink).course tasks, ∀ a, p.act = some a → a.Of (Task.Code tasks)) ∧
    (∀ p ∈ (start sink).course tasks, ∀ loc object, p.Uses (.share loc) →
      p.machine.heap.object? (.share loc) = some object → object.kind = .inst) ∧
    ((∀ object value pos,
        ¬ Task.Code tasks (.stmt (.assignField object selfName value pos))) →
      ∀ p ∈ (start sink).course tasks, ∀ loc c fields,
        p.machine.heap.get? loc = some (.inst c fields) →
        fields.get? selfName = some (.share loc) ∧
          p.machine.heap.object? (.share loc) = some (.inst c fields)) := by
  obtain ⟨⟨m', htraces⟩, hends⟩ := traces_course tasks (fun _ ht => ht)
    (Realm.session_covers tasks sink) (start_settled sink)
  refine ⟨hends, ?_, ?_, ?_, ?_⟩
  · intro front p between q back hcourse
    rw [hcourse] at htraces
    exact htraces.lives_between
  · intro p hp a hact
    obtain ⟨_, hfollows⟩ := htraces.follows hp
    exact hfollows.act a hact
  · intro p hp loc object huses hget
    obtain ⟨_, hfollows⟩ := htraces.follows hp
    exact Point.kind_of_share hfollows.settled huses hget
  · intro hnone p hp loc c fields hget
    obtain ⟨front, back, hcourse⟩ := List.append_of_mem hp
    rw [hcourse] at htraces
    have hborn := htraces.lives_from_start.new loc c fields (Nat.zero_le loc) hget
    have hself : fields.get? selfName = some (.share loc) := by
      rcases (hborn.2 selfName).1 with hsame | hassigned
      · rw [hsame]
        rfl
      · have hall : Point.Assigned (front ++ p :: back) loc selfName := by
          obtain ⟨r, hr, hact⟩ := hassigned
          refine ⟨r, ?_, hact⟩
          rcases List.mem_append.1 hr with hr | hr
          · exact List.mem_append_left _ hr
          · exact List.mem_append_right _ (List.mem_cons.2 (Or.inl (List.mem_singleton.1 hr)))
        obtain ⟨object, value, pos, hcode⟩ := htraces.exists_assignment hall
        exact absurd hcode (hnone object value pos)
    exact ⟨hself, hget⟩

/-- A session in which a method of an instance assigns one of its fields. -/
def Task.counter : Task where
  program :=
    let one : Expr := .number 1 .start
    let set : Method := ⟨"set", ["n"],
      [.assignField (.path "self" [] .start) "value" (.path "n" [] .start) .start]⟩
    ⟨[.assign "c" (.construct ⟨"Counter", [set], none⟩ [] .start) .start,
      .eval (.call (.path "c" [] .start) "set" [one] .start)]⟩
  limit := 5
  fuel := 5
  sink := .endless

/-- No program of the session assigns a field `self`, so its instance shares itself at every point;
and its other field is there in the end. -/
theorem Machine.session_discipline_counter :
    (∀ p ∈ (start .endless).course [.counter], ∀ loc c fields,
      p.machine.heap.get? loc = some (.inst c fields) → fields.get? selfName = some (.share loc)) ∧
    ∃ p ∈ (start .endless).course [.counter], ∃ c fields,
      p.machine.heap.get? 0 = some (.inst c fields) ∧ (fields.get? "value").isSome = true := by
  have hnone : ∀ object value pos,
      ¬ Task.Code [.counter] (.stmt (.assignField object selfName value pos)) := by
    have hevery : Task.counter.program.body.all fun s => Code.every
        (fun | .stmt (.assignField _ field _ _) => field != selfName | _ => true) 12 (.stmt s) := by
      decide +kernel
    rintro object value pos ⟨t, ht, s, hs, hc⟩
    obtain rfl := List.mem_singleton.1 ht
    have htest := Code.of_every (List.all_eq_true.1 hevery s hs) hc
    simp at htest
  have hfield : ((start .endless).course [.counter]).any (fun p =>
      ((p.machine.heap.get? 0).bind Object.fields?).any fun fields =>
        (fields.get? "value").isSome) = true := by decide +kernel
  refine ⟨?_, ?_⟩
  · intro p hp loc c fields hget
    exact ((session_discipline [.counter] .endless).2.2.2.2 hnone p hp loc c fields hget).1
  · obtain ⟨p, hp, hany⟩ := List.any_eq_true.1 hfield
    obtain ⟨fields, hfields, hvalue⟩ := (Option.any_eq_true _ _).1 hany
    obtain ⟨object, hget, hof⟩ := Option.bind_eq_some_iff.1 hfields
    cases object with
    | inst c fields' =>
      cases hof
      exact ⟨p, hp, c, fields, hget, hvalue⟩
    | _ => cases hof

end Mython
