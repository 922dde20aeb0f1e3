import Mython.Proofs.Run.Acts
import Mython.Proofs.Run.Realm

namespace Mython

open Run

/-- The lines of the code of a realm. -/
def Realm.Line (w : Realm) (line : Nat) : Prop :=
  ∃ a pos, w.code a ∧ a.pos? = some pos ∧ pos.line = line

/-- An act that reports only lines of a realm. -/
def Act.Blames (w : Realm) : Act → Prop
  | reports line => w.Line line
  | binds _ => True

theorem Realm.reported (w : Realm) : Code.Reported w.code (Act.Blames w) where
  closed := w.closed
  line ha hpos := ⟨_, _, ha, hpos, rfl⟩

/-- A run that shows a line of a realm if it ends in a fault. -/
def Run.Blames (w : Realm) (r : Except Halt α × Machine) : Prop :=
  ∀ fault, r.1 = .error (.fault fault) → w.Line fault.line

/-- Requests to a guest that are to report a line of a realm show such a line. -/
structure Guest.Blames (w : Realm) (g : Guest) : Prop where
  call : ∀ x name args line m, w.Covers m → w.Admits x → w.AdmitsAll (Handle.heldAll args) →
    w.Line line → Run.Blames w (g.call x name args line m)
  render : ∀ x line m, w.Covers m → w.Admits x → w.Line line → Run.Blames w (g.render x line m)

section Blaming

variable {w : Realm} {g : Guest} {p : Multiset Handle}

theorem Run.Blames.keeping {f : Run α} {m : Machine} (h : Blames w (f m)) (x : Handle) :
    Blames w (keeping x f m) := by
  rcases hf : f m with ⟨e | a, m'⟩
  · rw [hf] at h
    rw [keeping_of_error hf]
    exact h
  · rw [keeping_of_ok hf]
    rintro fault ⟨⟩

theorem Run.Blames.bestow {f : Run Handle} {m : Machine} (h : Blames w (f m)) (loc : Loc)
    (field : String) : Blames w (bestow loc field f m) := by
  rcases hf : f m with ⟨e | y, m'⟩
  · rw [hf] at h
    have hstop : Run.bestow loc field f m = (.error e, m') := bind_of_error hf
    rw [hstop]
    rintro fault ⟨⟩
    exact h fault rfl
  · have hdone : Run.bestow loc field f m = (.ok (.next y), _) := bind_of_ok hf
    rw [hdone]
    rintro fault ⟨⟩

theorem Primitive.blames {f : Run α} {q : α → Multiset Handle} (h : Primitive p f q)
    (he : h.Every (Act.Blames w)) (m : Machine) : Run.Blames w (f m) := by
  cases h with
  | raise line hc q =>
    rintro fault ⟨⟩
    exact he
  | @compute line look =>
    rw [Run.compute, ask_bind]
    cases look m.heap with
    | ok object => rintro fault ⟨⟩
    | error cause =>
      rintro fault ⟨⟩
      exact he
  | path root fields line =>
    rw [Run.path]
    split
    · rintro fault ⟨⟩
      exact he
    · split
      · rintro fault ⟨⟩
        exact he
      · rintro fault ⟨⟩
  | fetch x owner name line =>
    rw [Run.fetch, ask_bind]
    cases m.heap.field x owner name with
    | ok y => rintro fault ⟨⟩
    | error cause =>
      rintro fault ⟨⟩
      exact he
  | write line text =>
    rw [Run.write]
    split
    · rintro fault ⟨⟩
    · rintro fault ⟨⟩
      exact he
  | _ => rintro fault ⟨⟩

/-- A fault of a script of the code of a realm shows a line that a step of the script reports, or
that a request answers with. -/
theorem Script.blames {short : Prop} (hg : g.Blames w) (hlands : g.Lands w short)
    {f : Guest → Run α} {q : α → Multiset Handle} (h : Script p f q)
    (he : h.Every (Act.Blames w)) {m : Machine} (hmade : h.Made w g m) (hm : w.Covers m)
    (hp : w.AdmitsAll p) : Run.Blames w (f g m) := by
  -- By induction on the script. What follows a part is run in the state behind it, which is still
  -- in the realm, so the requests in it are again about values of the realm.
  induction h generalizing m with
  | step h => exact h.blames he m
  | frame _ h _ => exact h.blames he m
  | @bind _ _ _ f k q r h hk ih ihk =>
    have hfirst := ih he.1 hmade.1 hm hp
    have hlanded := h.lands hlands hmade.1 hm hp
    beta_reduce
    rcases hf : f g m with ⟨e | a, m'⟩
    · rw [hf] at hfirst
      rw [bind_of_error hf]
      rintro fault ⟨⟩
      exact hfirst fault rfl
    · rw [hf] at hlanded
      rw [bind_of_ok hf]
      exact ihk a (he.2 a) (hmade.2 a m' hlanded.1 hlanded.2 hf) hlanded.1 hlanded.2
  | holding x _ ih => exact ih he hmade hm (Realm.admitsAll_add.1 hp).2
  | keeping x _ ih => exact (ih he hmade hm (Realm.admitsAll_add.1 hp).2).keeping x
  | @seize _ _ look body other q _ hb ho ihb iho =>
    rw [Script.Made] at hmade
    beta_reduce
    cases hl : look m.heap with
    | ok loc =>
      rw [hl] at hmade
      rw [seize_of_ok hl, retain_bind]
      exact ihb loc (he.1 loc) hmade (hm.retain _) w.admitsAll_zero
    | error found =>
      rw [hl] at hmade
      rw [seize_of_error hl]
      exact iho found (he.2 found) hmade hm hp
  | bestow x describe field line h ih =>
    beta_reduce
    cases hl : instanceAt x m.heap with
    | ok loc =>
      rw [seize_of_ok hl, retain_bind]
      exact (ih he.2 (hmade.2 loc hl) (hm.retain _) hp).bestow loc field
    | error found =>
      rw [seize_of_error hl]
      rintro fault ⟨⟩
      exact he.1
  | call x name args line => exact hg.call x name args line m hm hmade hp he
  | render x line => exact hg.render x line m hm hmade he
  | conv _ hp' hf _ ih =>
    rw [← hf]
    exact ih he hmade hm (hp' ▸ hp)

end Blaming

/-- A call shows a line of the realm: the one that it is to report, if it is refused, or else one of
the body of its method. -/
theorem Guest.blames_around {w : Realm} {limit : Nat} {run : Method → List Handle → Run Handle}
    (hrun : ∀ method args m, method.arity = args.length → w.code (.method method) →
      w.deeper.Covers m → w.deeper.AdmitsAll (Handle.heldAll args) →
      Run.Blames w.deeper (run method args m))
    {x : Handle} (name : String) {args : List Handle} {line : Nat} {m : Machine}
    (hm : w.Covers m) (hx : w.Admits x) (hargs : w.AdmitsAll (Handle.heldAll args))
    (hline : w.Line line) : Run.Blames w (around limit run x name args line m) := by
  cases hd : m.dispatch limit x name args.length with
  | error cause =>
    rw [around_of_error hd]
    rintro fault ⟨⟩
    exact hline
  | ok found =>
    obtain ⟨loc, method⟩ := found
    obtain ⟨-, -, harity, -⟩ := Machine.dispatch_ok hd
    obtain ⟨hloc, hcode⟩ := hm.dispatch hx hd
    rw [around_of_ok hd, enter_apply]
    exact hrun method args (m.entered loc) harity hcode (hm.entered hloc) hargs

/-- With any amount of fuel requests show lines of the realm. -/
theorem Guest.within_blames (w : Realm) (limit n : Nat) : (within limit n).Blames w := by
  induction n generalizing w with
  | zero =>
    constructor
    · rintro _ _ _ _ _ _ _ _ _ fault ⟨⟩
    · rintro _ _ _ _ _ _ fault ⟨⟩
  | succ n ih =>
    constructor
    · intro x name args line m hm hx hargs hline
      apply blames_around _ name hm hx hargs hline
      intro method args m harity hcode hm hargs
      exact (bodyScript method args harity).blames (ih w.deeper) (within_lands w.deeper limit n)
        (every_body w.deeper.reported harity hcode (fun _ _ => trivial) fun _ _ => trivial)
        (made_body (w := w.deeper) harity hcode m) hm hargs
    · intro x line m hm hx hline
      exact (textScript x line).blames (ih w) (within_lands w limit n) (every_text x hline)
        (made_text line hm hx) hm w.admitsAll_zero

/-- A fault of a program whose code is in a realm shows a line of the realm. -/
theorem Program.blames {w : Realm} {p : Program} (h : ∀ s ∈ p.body, w.code (.stmt s))
    (limit fuel : Nat) {m : Machine} (hm : w.Covers m) :
    Run.Blames w (p.exec (.within limit fuel) m) := by
  have hevery : p.script.Every (Act.Blames w) := by
    refine ⟨Stmt.everyAll w.reported p.body h fun _ _ => trivial, ?_⟩
    rintro (x | x) <;> trivial
  exact p.script.blames (Guest.within_blames w limit fuel) (Guest.within_lands w limit fuel) hevery
    (Program.made h m) hm w.admitsAll_zero

end Mython
