import Mython.Proofs.Run.Truncation

namespace Mython

open Run

/-- A program ends with a result and a state. Any amount of fuel that suffices will do. -/
def Program.Ends (p : Program) (limit : Nat) (m : Machine) (r : Except Halt Unit) (s : Machine) :
    Prop :=
  r ≠ .error .exhausted ∧ ∃ fuel, p.exec (.within limit fuel) m = (r, s)

theorem Program.ends_of_result {p : Program} {limit : Nat} {m : Machine} {r : Except Halt Unit}
    (fuel : Nat) (h : (p.exec (.within limit fuel) m).1 = r) (hr : r ≠ .error .exhausted) :
    p.Ends limit m r (p.exec (.within limit fuel) m).2 :=
  ⟨hr, fuel, Prod.ext h rfl⟩

theorem Program.exec_of_le {p : Program} {limit n n' : Nat} {m s : Machine} {r : Except Halt Unit}
    (hle : n ≤ n') (hr : r ≠ .error .exhausted) (h : p.exec (.within limit n) m = (r, s)) :
    p.exec (.within limit n') m = (r, s) :=
  p.script.run_of_le hle hr h

theorem Program.Ends.unique {p : Program} {limit : Nat} {m s s' : Machine}
    {r r' : Except Halt Unit} (h : p.Ends limit m r s) (h' : p.Ends limit m r' s') :
    r = r' ∧ s = s' := by
  obtain ⟨hr, n, hn⟩ := h
  obtain ⟨hr', n', hn'⟩ := h'
  have hmax := exec_of_le (Nat.le_max_left n n') hr hn
  have hmax' := exec_of_le (Nat.le_max_right n n') hr' hn'
  rw [hmax] at hmax'
  exact Prod.ext_iff.1 hmax'

/-- Goes on only at a depth within a limit. -/
def Run.heed (limit : Nat) (f : Run α) : Run α := fun m =>
  if m.depth ≤ limit then f m else (.error .exhausted, m)

/-- The guest that gives up at every request, and at every start of a method, that is deeper than
the limit. -/
def Guest.watched (limit : Nat) : Nat → Guest
  | 0 => within limit 0
  | n + 1 =>
    ⟨fun x name args line => heed limit
        (around limit (fun method args => heed limit ((watched limit n).body method args))
          x name args line),
      fun x line => heed limit ((watched limit n).text x line)⟩

/-- Two runs are the same from where the depth is within a limit. -/
def Run.Agree (limit : Nat) (f f' : Run α) : Prop := ∀ m, m.depth ≤ limit → f m = f' m

/-- A run ends at the depth at which it began. -/
abbrev Run.Level (f : Run α) : Prop := Leads (fun m m' => m'.depth = m.depth) f

namespace Run.Agree

variable {limit : Nat}

theorem refl (f : Run α) : Agree limit f f := fun _ _ => rfl

theorem heed {f f' : Run α} (h : Agree limit f f') : Agree limit f (heed limit f') := by
  intro m hm
  rw [Run.heed, if_pos hm]
  exact h m hm

theorem bind {f f' : Run α} {k k' : α → Run β} (h : Agree limit f f')
    (hk : ∀ a, Agree limit (k a) (k' a)) (hl : Level f) :
    Agree limit (f >>= k) (f' >>= k') := by
  intro m hm
  have hdepth := hl m
  rcases hf : f m with ⟨e | a, m'⟩
  · rw [bind_of_error hf, bind_of_error ((h m hm).symm.trans hf)]
  · rw [bind_of_ok hf, bind_of_ok ((h m hm).symm.trans hf)]
    rw [hf] at hdepth
    exact hk a m' (hdepth.trans_le hm)

theorem holding {f f' : Run α} (h : Agree limit f f') (x : Handle) :
    Agree limit (holding x f) (holding x f') := by
  intro m hm
  simp only [Run.holding, h m hm]

theorem keeping {f f' : Run α} (h : Agree limit f f') (x : Handle) :
    Agree limit (keeping x f) (keeping x f') := by
  intro m hm
  simp only [Run.keeping, h m hm]

theorem seize {look : Heap → Except β Loc} {body body' : Loc → Run α} {other other' : β → Run α}
    (hb : ∀ loc, Agree limit (body loc) (body' loc)) (ho : ∀ b, Agree limit (other b) (other' b)) :
    Agree limit (seize look body other) (seize look body' other') := by
  intro m hm
  cases hl : look m.heap with
  | ok loc =>
    rw [seize_of_ok hl, seize_of_ok hl]
    apply (refl _).bind
    · intro _
      exact (hb loc).holding (.own loc)
    · exact Leads.change Machine.later_depth fun _ => .retain _
    · exact hm
  | error found =>
    rw [seize_of_error hl, seize_of_error hl]
    exact ho found m hm

end Run.Agree

theorem Script.agree {limit : Nat} {g g' : Guest}
    (hcall : ∀ x name args line, Agree limit (g.call x name args line) (g'.call x name args line))
    (hrender : ∀ x line, Agree limit (g.render x line) (g'.render x line))
    (hlcall : ∀ x name args line, Level (g.call x name args line))
    (hlrender : ∀ x line, Level (g.render x line)) {p : Multiset Handle} {f : Guest → Run α}
    {q : α → Multiset Handle} (h : Script p f q) : Agree limit (f g) (f g') := by
  induction h with
  | step _ => exact .refl _
  | frame rest _ _ => exact .refl _
  | bind h _ ih ihk => exact ih.bind ihk (h.leads Machine.later_depth hlcall hlrender)
  | holding x _ ih => exact ih.holding x
  | keeping x _ ih => exact ih.keeping x
  | seize _ _ _ ihb iho => exact Agree.seize ihb iho
  | bestow x describe field line h ih =>
    apply Agree.seize
    · intro loc
      exact ih.bind (fun _ => .refl _) (h.leads Machine.later_depth hlcall hlrender)
    · intro _
      exact .refl _
  | call x name args line => exact hcall x name args line
  | render x line => exact hrender x line
  | conv _ _ hf _ ih =>
    rw [← hf, ← hf]
    exact ih

/-- Bodies are started within the limit, because a call at the limit is refused. -/
theorem Guest.agree_around {limit : Nat} {run run' : Method → List Handle → Run Handle}
    (h : ∀ method args, method.arity = args.length →
      Agree limit (run method args) (run' method args))
    (x : Handle) (name : String) (args : List Handle) (line : Nat) :
    Agree limit (around limit run x name args line) (around limit run' x name args line) := by
  intro m hm
  cases hd : m.dispatch limit x name args.length with
  | error cause => rw [around_of_error hd, around_of_error hd]
  | ok found =>
    obtain ⟨loc, method⟩ := found
    obtain ⟨-, -, harity, hdepth⟩ := Machine.dispatch_ok hd
    rw [around_of_ok hd, around_of_ok hd, enter_apply, enter_apply]
    have hbody : ∀ heap scope, run method args ⟨heap, scope, m.sink, m.depth + 1⟩ =
        run' method args ⟨heap, scope, m.sink, m.depth + 1⟩ :=
      fun heap scope => h method args harity _ hdepth
    simp only [holding, inScope, hbody]

theorem Guest.agree_watched (limit n : Nat) :
    (∀ x name args line, Agree limit ((within limit n).call x name args line)
      ((watched limit n).call x name args line)) ∧
    ∀ x line, Agree limit ((within limit n).render x line) ((watched limit n).render x line) := by
  induction n with
  | zero => exact ⟨fun _ _ _ _ => .refl _, fun _ _ => .refl _⟩
  | succ n ih =>
    obtain ⟨hcall, hrender⟩ := within_leads Machine.later_depth limit n
    constructor
    · intro x name args line
      apply Agree.heed
      apply agree_around
      intro method args harity
      apply Agree.heed
      exact (bodyScript method args harity).agree ih.1 ih.2 hcall hrender
    · intro x line
      apply Agree.heed
      exact (textScript x line).agree ih.1 ih.2 hcall hrender

theorem Stmt.exec_depth (s : Stmt) (limit fuel : Nat) (m : Machine) :
    (s.exec (.within limit fuel) m).2.depth = m.depth :=
  s.script.leads_within Machine.later_depth limit fuel m

theorem Program.exec_watched (p : Program) {limit : Nat} (fuel : Nat) {m : Machine}
    (hm : m.depth ≤ limit) :
    p.exec (.within limit fuel) m = p.exec (.watched limit fuel) m := by
  obtain ⟨hcall, hrender⟩ := Guest.agree_watched limit fuel
  obtain ⟨hlcall, hlrender⟩ := Guest.within_leads Machine.later_depth limit fuel
  exact p.script.agree hcall hrender hlcall hlrender m hm

/-- A run with a smaller limit ends where the limit is met or as with the larger limit. -/
theorem Program.Ends.truncated {p : Program} {limit limit' : Nat} (hle : limit ≤ limit')
    {m s' : Machine} {r' : Except Halt Unit} (h : p.Ends limit' m r' s') :
    ∃ r s, p.Ends limit m r s ∧
      ((r = r' ∧ s = s' ∧ ∀ e, r = .error e → ¬ e.AboutDepth) ∨
        ∃ e, e.AtDepth limit ∧ r = .error e ∧
          s.sink.written.toList <+: s'.sink.written.toList) := by
  obtain ⟨hr', fuel, hfuel⟩ := h
  have hcut := p.script.truncated (fun _ => Halt.not_aboutDepth)
    (Guest.truncated_of_limit hle fuel) m
  rw [hfuel] at hcut
  rcases hrun : p.exec (.within limit fuel) m with ⟨r, s⟩
  rw [hrun] at hcut
  refine ⟨r, s, ⟨?_, fuel, hrun⟩, ?_⟩
  · rcases hcut with ⟨hsame, -⟩ | ⟨e, ⟨line, rfl⟩, he, -⟩
    · obtain ⟨rfl, rfl⟩ := Prod.ext_iff.1 hsame
      exact hr'
    · rintro rfl
      cases he
  · rcases hcut with ⟨hsame, hnot⟩ | hcut
    · obtain ⟨rfl, rfl⟩ := Prod.ext_iff.1 hsame
      exact Or.inl ⟨rfl, rfl, hnot⟩
    · exact Or.inr hcut

/-- The limit on the depth of calls only ever cuts a run short. A run with a smaller limit ends
whenever one with a larger limit does, and in one way. If it does not end by its limit, it ends as
the other one does; if it does, the fault names the limit and what was written is a part of what the
other run writes. With either limit, no request is made and no method started deeper than the limit,
and every statement ends at the depth at which it began. -/
theorem Program.depth_limit_cuts (p : Program) {m : Machine} {limit limit' : Nat}
    (hle : limit ≤ limit') (hm : m.depth ≤ limit) {r' : Except Halt Unit} {s' : Machine}
    (h : p.Ends limit' m r' s') :
    (∃ r s, (∀ r₁ s₁, p.Ends limit m r₁ s₁ ↔ r₁ = r ∧ s₁ = s) ∧
      ((∀ line d, r ≠ .error (.fault ⟨line, .depth d⟩)) → r = r' ∧ s = s') ∧
      (∀ line d, r = .error (.fault ⟨line, .depth d⟩) →
        d = limit ∧ s.sink.written.toList <+: s'.sink.written.toList)) ∧
    ∀ l ∈ [limit, limit'], ∀ fuel,
      p.exec (.within l fuel) m = p.exec (.watched l fuel) m ∧
      ∀ (s : Stmt) (m₁ : Machine), (s.exec (.within l fuel) m₁).2.depth = m₁.depth := by
  constructor
  · obtain ⟨r, s, hends, hcases⟩ := h.truncated hle
    refine ⟨r, s, ?_, ?_, ?_⟩
    · intro r₁ s₁
      constructor
      · intro h₁
        exact h₁.unique hends
      · rintro ⟨rfl, rfl⟩
        exact hends
    · intro hnot
      rcases hcases with ⟨hr, hs, -⟩ | ⟨e, ⟨line, rfl⟩, rfl, -⟩
      · exact ⟨hr, hs⟩
      · exact absurd rfl (hnot line limit)
    · rintro line d rfl
      rcases hcases with ⟨-, -, hnot⟩ | ⟨e, ⟨line', rfl⟩, he, hwritten⟩
      · exact absurd ⟨line, d, rfl⟩ (hnot _ rfl)
      · cases he
        exact ⟨rfl, hwritten⟩
  · intro l hl fuel
    have hml : m.depth ≤ l := by
      rcases List.mem_pair.1 hl with rfl | rfl
      · exact hm
      · exact hm.trans hle
    exact ⟨p.exec_watched fuel hml, fun s m₁ => s.exec_depth l fuel m₁⟩

/-- A program with a method that writes something and then calls another one. -/
def Program.nestedCalls : Program :=
  let inner : Method := ⟨"g", [], [.ret (some (.number 1 .start)) .start]⟩
  let outer : Method := ⟨"f", [], [.print [.text "f" .start] .start,
    .ret (some (.call (.path "self" [] .start) "g" [] .start)) .start]⟩
  ⟨[.eval (.call (.construct ⟨"A", [inner, outer], none⟩ [] .start) "f" [] .start)]⟩

/-- With the limit two the program ends without a fault, so with the limit one it ends by its limit,
after what it wrote before. -/
theorem Program.depth_limit_cuts_nestedCalls :
    ∃ s s', nestedCalls.Ends 2 (.start .endless) (.ok ()) s' ∧
      nestedCalls.Ends 1 (.start .endless) (.error (.fault ⟨1, .depth 1⟩)) s ∧
      s.sink.written.toList <+: s'.sink.written.toList := by
  have hlarge : (nestedCalls.exec (.within 2 3) (.start .endless)).1 = .ok () := by decide +kernel
  have hsmall : (nestedCalls.exec (.within 1 3) (.start .endless)).1 =
      .error (.fault ⟨1, .depth 1⟩) := by decide +kernel
  have hends := ends_of_result 3 hlarge (by simp)
  have hends' := ends_of_result 3 hsmall (by simp)
  obtain ⟨⟨r, s, hunique, -, hcut⟩, -⟩ :=
    depth_limit_cuts nestedCalls (show 1 ≤ 2 by decide) (Nat.zero_le 1) hends
  obtain ⟨rfl, rfl⟩ := (hunique _ _).1 hends'
  exact ⟨_, _, hends, hends', (hcut 1 1 rfl).2⟩

end Mython
