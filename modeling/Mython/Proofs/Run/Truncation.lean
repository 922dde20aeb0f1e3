import Mython.Proofs.Run.Evolution
import Mython.Session

/-! Two runs of which the first may be cut short. Nothing in a run takes a halt back, and what was
written before it is written by the other run as well. -/

namespace Mython

open Run

/-- One run does what another does, and then does not end with a halt of a kind; or it is cut short,
after a part of what the other one writes. -/
def Run.Truncated (kind cut : Halt → Prop) (f f' : Run α) : Prop := ∀ m,
  (f m = f' m ∧ ∀ e, (f m).1 = .error e → ¬ kind e) ∨
    ∃ e, cut e ∧ (f m).1 = .error e ∧
      (f m).2.sink.written.toList <+: (f' m).2.sink.written.toList

/-- What is written stays written. -/
abbrev Run.Writes (f : Run α) : Prop :=
  Leads (fun m m' => m.sink.written.toList <+: m'.sink.written.toList) f

namespace Run.Truncated

variable {kind cut : Halt → Prop}

theorem refl {f : Run α} (h : ∀ m e, (f m).1 = .error e → ¬ kind e) : Truncated kind cut f f := by
  intro m
  exact Or.inl ⟨rfl, h m⟩

theorem bind {f f' : Run α} {k k' : α → Run β} (h : Truncated kind cut f f')
    (hk : ∀ a, Truncated kind cut (k a) (k' a)) (hw : ∀ a, Writes (k' a)) :
    Truncated kind cut (f >>= k) (f' >>= k') := by
  intro m
  rcases h m with ⟨heq, hkind⟩ | ⟨e, hcut, he, hwritten⟩
  · rcases hf : f m with ⟨e | a, m'⟩
    · rw [bind_of_error hf, bind_of_error (heq ▸ hf)]
      refine Or.inl ⟨rfl, ?_⟩
      rintro _ ⟨⟩
      exact hkind e (by rw [hf])
    · rw [bind_of_ok hf, bind_of_ok (heq ▸ hf)]
      exact hk a m'
  · right
    have hf : f m = (.error e, (f m).2) := Prod.ext he rfl
    rw [bind_of_error hf]
    refine ⟨e, hcut, rfl, hwritten.trans ?_⟩
    rcases hf' : f' m with ⟨e' | a, m'⟩
    · rw [bind_of_error hf']
    · rw [bind_of_ok hf']
      exact hw a m'

theorem holding {f f' : Run α} (h : Truncated kind cut f f') (x : Handle) :
    Truncated kind cut (holding x f) (holding x f') := by
  intro m
  rcases h m with ⟨heq, hkind⟩ | hcut
  · left
    refine ⟨?_, hkind⟩
    simp only [Run.holding, heq]
  · exact Or.inr hcut

theorem keeping {f f' : Run α} (h : Truncated kind cut f f') (x : Handle) :
    Truncated kind cut (keeping x f) (keeping x f') := by
  intro m
  have hresult : ∀ r : Run α, (Run.keeping x r m).1 = (r m).1 ∧
      (Run.keeping x r m).2.sink = (r m).2.sink := by
    intro r
    rcases hr : r m with ⟨e | a, m'⟩
    · rw [keeping_of_error hr]
      exact ⟨rfl, rfl⟩
    · rw [keeping_of_ok hr]
      exact ⟨rfl, rfl⟩
  rw [(hresult f).1, (hresult f).2, (hresult f').2]
  rcases h m with ⟨heq, hkind⟩ | hcut
  · left
    refine ⟨?_, hkind⟩
    simp only [Run.keeping, heq]
  · exact Or.inr hcut

theorem inScope {f f' : Run α} (h : Truncated kind cut f f') (scope : Bindings) :
    Truncated kind cut (inScope scope f) (inScope scope f') := by
  intro m
  rcases h { m with scope, depth := m.depth + 1 } with ⟨heq, hkind⟩ | hcut
  · left
    refine ⟨?_, hkind⟩
    simp only [Run.inScope, heq]
  · exact Or.inr hcut

theorem change (f : Heap → Heap) : Truncated kind cut (change f) (change f) := by
  apply refl
  intro m e he
  cases he

theorem seize {look : Heap → Except β Loc} {body body' : Loc → Run α} {other other' : β → Run α}
    (hb : ∀ loc, Truncated kind cut (body loc) (body' loc)) (hw : ∀ loc, Writes (body' loc))
    (ho : ∀ b, Truncated kind cut (other b) (other' b)) :
    Truncated kind cut (seize look body other) (seize look body' other') := by
  intro m
  cases hl : look m.heap with
  | ok loc =>
    rw [seize_of_ok hl, seize_of_ok hl]
    apply (change _).bind
    · intro _
      exact (hb loc).holding (.own loc)
    · intro _
      exact (hw loc).holding Machine.later_written (.own loc)
  | error found =>
    rw [seize_of_error hl, seize_of_error hl]
    exact ho found m

theorem bestow {f f' : Run Handle} (h : Truncated kind cut f f') (loc : Loc) (field : String) :
    Truncated kind cut (bestow loc field f) (bestow loc field f') := by
  apply h.bind
  · intro y
    apply refl
    intro m e he
    cases he
  · intro y m
    exact List.prefix_refl _

end Run.Truncated

/-- No primitive step ends with a halt that is about the depth of calls or about fuel. -/
theorem Primitive.not_halt {p : Multiset Handle} {f : Run α} {q : α → Multiset Handle}
    (h : Primitive p f q) {m : Machine} {e : Halt} (he : (f m).1 = .error e) :
    ∃ fault, e = .fault fault ∧ fault.cause.isDepth = false := by
  cases h with
  | pure a q => cases he
  | ask look => cases he
  | raise line hc q =>
    cases he
    exact ⟨_, rfl, hc⟩
  | fresh ho => cases he
  | freshInstance cls => cases he
  | @compute line look ho hc =>
    rw [Run.compute, ask_bind] at he
    cases hl : look m.heap with
    | ok object =>
      rw [hl] at he
      cases he
    | error cause =>
      rw [hl] at he
      cases he
      exact ⟨_, rfl, hc _ _ hl⟩
  | path root fields line =>
    rw [Run.path] at he
    split at he
    · cases he
      exact ⟨_, rfl, rfl⟩
    · split at he
      · next cause hfollow =>
        cases he
        exact ⟨_, rfl, Heap.follow_isDepth hfollow⟩
      · cases he
  | fetch x owner name line =>
    rw [Run.fetch, ask_bind] at he
    cases hf : m.heap.field x owner name with
    | ok y =>
      rw [hf] at he
      cases he
    | error cause =>
      rw [hf] at he
      cases he
      exact ⟨_, rfl, Heap.field_isDepth hf⟩
  | retain x => cases he
  | release x => cases he
  | releaseAll xs => cases he
  | assign name x => cases he
  | write line text =>
    rw [Run.write] at he
    split at he
    · cases he
    · cases he
      exact ⟨_, rfl, rfl⟩

/-- Requests to one guest are those to another, or are cut short. -/
structure Guest.Truncated (kind cut : Halt → Prop) (g g' : Guest) : Prop where
  call : ∀ x name args line,
    Run.Truncated kind cut (g.call x name args line) (g'.call x name args line)
  render : ∀ x line, Run.Truncated kind cut (g.render x line) (g'.render x line)
  writes_call : ∀ x name args line, Writes (g'.call x name args line)
  writes_render : ∀ x line, Writes (g'.render x line)

/-- Two limits decide alike on a call, or the first one cuts it short. -/
def Guest.Limits (kind cut : Halt → Prop) (limit limit' : Nat) : Prop :=
  ∀ (m : Machine) (x : Handle) (name : String) (n : Nat),
    (m.dispatch limit x name n = m.dispatch limit' x name n ∧
      ∀ cause, m.dispatch limit x name n = .error cause → ∀ line, ¬ kind (.fault ⟨line, cause⟩)) ∨
    ∃ cause, m.dispatch limit x name n = .error cause ∧ ∀ line, cut (.fault ⟨line, cause⟩)

section Guests

variable {kind cut : Halt → Prop} {g g' : Guest}

/-- A script is cut short only where a request is. -/
theorem Script.truncated (hkind : ∀ f : Fault, f.cause.isDepth = false → ¬ kind (.fault f))
    (hg : g.Truncated kind cut g') {p : Multiset Handle} {f : Guest → Run α}
    {q : α → Multiset Handle} (h : Script p f q) : Run.Truncated kind cut (f g) (f g') := by
  have hwrites : ∀ {β : Type} {p : Multiset Handle} {f : Guest → Run β} {q : β → Multiset Handle},
      Script p f q → Writes (f g') :=
    fun h => h.leads Machine.later_written hg.writes_call hg.writes_render
  have hstep : ∀ {β : Type} {p : Multiset Handle} {f : Run β} {q : β → Multiset Handle},
      Primitive p f q → Run.Truncated kind cut f f := by
    intro β p f q h
    apply Truncated.refl
    intro m e he
    obtain ⟨fault, rfl, hdepth⟩ := h.not_halt he
    exact hkind fault hdepth
  induction h with
  | step h => exact hstep h
  | frame rest h _ => exact hstep h
  | bind _ hk ih ihk => exact ih.bind ihk fun a => hwrites (hk a)
  | holding x _ ih => exact ih.holding x
  | keeping x _ ih => exact ih.keeping x
  | seize _ hb _ ihb iho => exact Truncated.seize ihb (fun loc => hwrites (hb loc)) iho
  | bestow x describe field line h ih =>
    apply Truncated.seize
    · intro loc
      exact ih.bestow loc field
    · intro loc
      exact (hwrites h).bestow Machine.later_written loc field
    · intro _
      apply Truncated.refl
      rintro m e ⟨⟩
      exact hkind _ rfl
  | call x name args line => exact hg.call x name args line
  | render x line => exact hg.render x line
  | conv _ _ hf _ ih =>
    rw [← hf, ← hf]
    exact ih

theorem Guest.truncated_enter {f f' : Run Handle} (h : Run.Truncated kind cut f f')
    (hw : Writes f') (loc : Loc) : Run.Truncated kind cut (enter loc f) (enter loc f') := by
  have hwinner := hw.inScope Machine.later_written ⟨[(selfName, .own loc)]⟩
  have hwbody := Leads.bind Machine.later_written
    (Leads.change Machine.later_written fun _ => .retain (.own loc)) (fun _ => hwinner)
  apply (Truncated.change _).bind
  · intro _
    apply Truncated.holding
    apply (Truncated.change _).bind
    · intro _
      exact h.inScope _
    · intro _
      exact hwinner
  · intro _
    exact hwbody.holding Machine.later_written (.own loc)

theorem Guest.truncated_around {limit limit' : Nat} {run run' : Method → List Handle → Run Handle}
    (hlimit : Limits kind cut limit limit')
    (hrun : ∀ method args, method.arity = args.length →
      Run.Truncated kind cut (run method args) (run' method args))
    (hw : ∀ method args, method.arity = args.length → Writes (run' method args))
    (x : Handle) (name : String) (args : List Handle) (line : Nat) :
    Run.Truncated kind cut (around limit run x name args line)
      (around limit' run' x name args line) := by
  intro m
  rcases hlimit m x name args.length with ⟨hsame, hnot⟩ | ⟨cause, hd, hcut⟩
  · cases hd : m.dispatch limit x name args.length with
    | error cause =>
      rw [around_of_error hd, around_of_error (hsame ▸ hd)]
      refine Or.inl ⟨rfl, ?_⟩
      rintro _ ⟨⟩
      exact hnot cause hd line
    | ok found =>
      obtain ⟨loc, method⟩ := found
      rw [around_of_ok hd, around_of_ok (hsame ▸ hd)]
      have harity := (Machine.dispatch_ok hd).2.2.1
      exact truncated_enter (hrun method args harity) (hw method args harity) loc m
  · right
    rw [around_of_error hd]
    refine ⟨_, hcut line, rfl, ?_⟩
    exact leads_around Machine.later_written hw x name args line m

/-- With one unit of fuel more, requests are cut short as they were. -/
theorem Guest.Truncated.succ {limit limit' n n' : Nat}
    (hkind : ∀ f : Fault, f.cause.isDepth = false → ¬ kind (.fault f))
    (hlimit : Limits kind cut limit limit')
    (h : (within limit n).Truncated kind cut (within limit' n')) :
    (within limit (n + 1)).Truncated kind cut (within limit' (n' + 1)) where
  call := by
    intro x name args line
    show Run.Truncated kind cut ((within limit n).invoke limit x name args line)
      ((within limit' n').invoke limit' x name args line)
    rw [invoke_eq_around, invoke_eq_around]
    apply truncated_around hlimit
    · intro method args harity
      exact (bodyScript method args harity).truncated hkind h
    · intro method args harity
      exact (bodyScript method args harity).leads Machine.later_written h.writes_call
        h.writes_render
  render := by
    intro x line
    exact (textScript x line).truncated hkind h
  writes_call := (within_leads Machine.later_written limit' (n' + 1)).1
  writes_render := (within_leads Machine.later_written limit' (n' + 1)).2

end Guests

/-- A halt that is about the depth of calls. -/
def Halt.AboutDepth (e : Halt) : Prop := ∃ line limit, e = .fault ⟨line, .depth limit⟩

/-- The halt of a call that is as deep as a limit. -/
def Halt.AtDepth (limit : Nat) (e : Halt) : Prop := ∃ line, e = .fault ⟨line, .depth limit⟩

theorem Halt.not_aboutDepth {f : Fault} (h : f.cause.isDepth = false) :
    ¬ Halt.AboutDepth (.fault f) := by
  rintro ⟨line, limit, ⟨⟩⟩
  cases h

/-- A smaller limit on the depth of calls only cuts requests short. -/
theorem Guest.truncated_of_limit {limit limit' : Nat} (hle : limit ≤ limit') (n : Nat) :
    (within limit n).Truncated Halt.AboutDepth (Halt.AtDepth limit) (within limit' n) := by
  induction n with
  | zero =>
    have hzero : ∀ {α : Type}, Run.Truncated Halt.AboutDepth (Halt.AtDepth limit)
        (throw .exhausted : Run α) (throw .exhausted) := by
      intro α
      apply Truncated.refl
      rintro m e ⟨⟩ ⟨line, limit, ⟨⟩⟩
    exact ⟨fun _ _ _ _ => hzero, fun _ _ => hzero,
      (within_leads Machine.later_written limit' 0).1,
      (within_leads Machine.later_written limit' 0).2⟩
  | succ n ih =>
    apply ih.succ fun _ => Halt.not_aboutDepth
    intro m x name k
    rcases m.dispatch_limit hle x name k with hd | ⟨hsame, hcause⟩
    · exact Or.inr ⟨_, hd, fun line => ⟨line, rfl⟩⟩
    · refine Or.inl ⟨hsame, ?_⟩
      intro cause hd line
      exact Halt.not_aboutDepth (f := ⟨line, cause⟩) (hcause cause hd)

theorem Guest.truncated_of_fuel (limit n : Nat) :
    (within limit n).Truncated (· = .exhausted) (· = .exhausted) (within limit (n + 1)) := by
  have hwrites := within_leads Machine.later_written limit 1
  induction n with
  | zero =>
    refine ⟨?_, ?_, hwrites.1, hwrites.2⟩
    · intro x name args line m
      exact Or.inr ⟨_, rfl, rfl, hwrites.1 x name args line m⟩
    · intro x line m
      exact Or.inr ⟨_, rfl, rfl, hwrites.2 x line m⟩
  | succ n ih =>
    apply ih.succ
    · rintro f hdepth ⟨⟩
    · intro m x name k
      refine Or.inl ⟨rfl, ?_⟩
      rintro cause - line ⟨⟩

/-- More fuel changes nothing if there was enough. -/
theorem Script.run_of_le {p : Multiset Handle} {f : Guest → Run α} {q : α → Multiset Handle}
    (h : Script p f q) {limit n n' : Nat} {m s : Machine} {r : Except Halt α} (hle : n ≤ n')
    (hr : r ≠ .error .exhausted) (hrun : f (.within limit n) m = (r, s)) :
    f (.within limit n') m = (r, s) := by
  induction hle with
  | refl => exact hrun
  | @step k _ ih =>
    have hcut := h.truncated (by rintro f hf ⟨⟩) (Guest.truncated_of_fuel limit k) m
    rcases hcut with ⟨hsame, -⟩ | ⟨e, rfl, he, -⟩
    · rw [← hsame, ih]
    · rw [ih] at he
      exact absurd he hr

/-- How a program is run. -/
def Program.script (p : Program) : Script 0 (fun g => p.exec g) fun _ => 0 :=
  (Stmt.scriptAll p.body).bind fun
    | .next x | .ret x => .step (.release x)

end Mython
