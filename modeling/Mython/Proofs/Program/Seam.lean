import Mython.Proofs.Program.Following

namespace Mython

open Token (Kind)

namespace Window

/-- Two cursors behind the common part. -/
structure Seam (w : Window) (c d : Cursor) : Prop extends w.Holds c where
  tail : c.tokens = w.tail
  more : d.tokens = w.more
  other : d.fault = w.other
  classes : d.classes = c.classes.map (Class.down w.lines) ++ w.known

variable {w : Window} {c c' d : Cursor}

theorem Seam.count_eq (h : w.Seam c d) : c.count = w.tail.length := congrArg List.length h.tail

/-- Inside the common part, more tokens are left than follow it. -/
theorem Excerpt.tail_lt (h : w.Excerpt c d) : w.tail.length < c.count := by
  obtain ⟨ts, us, hne, hc, -, -⟩ := h.tokens
  have hpos : 0 < ts.length := List.length_pos_iff.2 hne
  rw [Cursor.count, hc, List.length_append]
  omega

/-- The second cursor leaves the common part with the first one. -/
theorem Excerpt.step_seam (h : w.Excerpt c d) (hk : c.lookahead.kind ≠ .eof) (hs : c.step = .ok c')
    (hout : c'.count = w.tail.length) (hmore : w.more ≠ []) :
    ∃ d', d.step = .ok d' ∧ w.Seam c' d' := by
  obtain ⟨hholds, htokens, hclasses⟩ := h.toHolds.step hk hs
  obtain ⟨ts, us, hne, hc, hd, hsame⟩ := h.tokens
  cases hsame with
  | nil => exact absurd rfl hne
  | @cons t u ts us hfirst hrest =>
    have hleft : c'.tokens = ts ++ w.tail := (List.cons.inj (htokens.symm.trans hc)).2
    have hnone : ts = [] := by
      rw [Cursor.count, hleft, List.length_append] at hout
      exact List.eq_nil_of_length_eq_zero (by omega)
    subst hnone
    cases hrest
    obtain ⟨t', ts', hmore'⟩ := List.exists_cons_of_ne_nil hmore
    have hahead : d.ahead = t' :: ts' := (List.cons.inj hd).2.trans hmore'
    refine ⟨{ d with lookahead := t', ahead := ts' }, ?_, hholds, hleft, hmore'.symm, h.other, ?_⟩
    · rw [Cursor.step, hahead]
    · rw [hclasses]
      exact h.classes

end Window

/-- What a reader does that may stop exactly at the end of the common part, or start there. -/
structure Parse.Closes (w : Window) (S : Kind → Prop) (room least : Nat) (f : α → β) (p : Parse α)
    (q : Parse β) : Prop extends Parse.Follows w S room least f p q where
  finish : ∀ ⦃c d a c'⦄, w.Excerpt c d → S c.lookahead.kind → c.count < room →
    p c = .ok (a, c') → c'.count = w.tail.length → ∃ d', q d = .ok (f a, d') ∧ w.Seam c' d'
  rest : ∀ ⦃c d a c'⦄, w.Seam c d → S c.lookahead.kind → c.count < room →
    p c = .ok (a, c') → c'.count = w.tail.length → ∃ d', q d = .ok (f a, d') ∧ w.Seam c' d'

namespace Parse.Closes

variable {w : Window} {S : Kind → Prop} {room least : Nat} {f : α → β} {p : Parse α} {q : Parse β}

/-- A reader that reads something does not start at the end. -/
theorem of_follows (h : Follows w S room least f p q) (hleast : 1 ≤ least)
    (hfinish : ∀ ⦃c d a c'⦄, w.Excerpt c d → S c.lookahead.kind → c.count < room →
      p c = .ok (a, c') → c'.count = w.tail.length → ∃ d', q d = .ok (f a, d') ∧ w.Seam c' d') :
    Closes w S room least f p q where
  toFollows := h
  finish := hfinish
  rest c d a c' hc hS hcount hrun hout := by
    have hle := (h.left hc.toHolds hS hcount hrun).2
    have hstart := hc.count_eq
    omega

theorem mono (h : Closes w S room least f p q) {S' : Kind → Prop} {room' least' : Nat}
    (hS : ∀ k, S' k → S k) (hroom : room' ≤ room) (hleast : least' ≤ least) :
    Closes w S' room' least' f p q where
  toFollows := h.toFollows.mono hS hroom hleast
  finish _ _ _ _ hc hk hcount := h.finish hc (hS _ hk) (hcount.trans_le hroom)
  rest _ _ _ _ hc hk hcount := h.rest hc (hS _ hk) (hcount.trans_le hroom)

theorem pure {a : α} {b : β} (hb : b = f a) : Closes w S room 0 f (pure a) (pure b) where
  toFollows := .pure hb
  finish c d a' c' hc hS hcount hrun hout := by
    obtain ⟨-, rfl⟩ := pure_eq_ok.1 hrun
    have hin := hc.tail_lt
    omega
  rest c d a' c' hc hS hcount hrun hout := by
    obtain ⟨rfl, rfl⟩ := pure_eq_ok.1 hrun
    exact ⟨d, by rw [hb]; rfl, hc⟩

/-- The first of two readers may stop at the end, if the second one may start there. -/
theorem bind {k : α → Parse γ} {l : β → Parse δ} {g : γ → δ} {total : Nat}
    (hp : Closes w S room least f p q)
    (hk : ∀ a, Closes w Kind.Any (room - least) (total - least) g (k a) (l (f a))) :
    Closes w S room total g (p >>= k) (q >>= l) where
  toFollows := hp.toFollows.bind_of fun a => (hk a).toFollows
  finish c d b c'' hc hS hcount hrun hout := by
    obtain ⟨a, c', ha, hb⟩ := bind_eq_ok.1 hrun
    obtain ⟨hc', hle⟩ := hp.left hc.toHolds hS hcount ha
    obtain ⟨-, hle'⟩ := (hk a).left hc' trivial (by omega) hb
    rcases Nat.lt_or_ge w.tail.length c'.count with hin | hend
    · obtain ⟨d', hd, hcd⟩ := hp.answers hc hS hcount ha hin
      rw [bind_of_ok hd]
      exact (hk a).finish hcd trivial (by omega) hb hout
    · obtain ⟨d', hd, hcd⟩ := hp.finish hc hS hcount ha (by omega)
      rw [bind_of_ok hd]
      exact (hk a).rest hcd trivial (by omega) hb hout
  rest c d b c'' hc hS hcount hrun hout := by
    obtain ⟨a, c', ha, hb⟩ := bind_eq_ok.1 hrun
    obtain ⟨hc', hle⟩ := hp.left hc.toHolds hS hcount ha
    obtain ⟨-, hle'⟩ := (hk a).left hc' trivial (by omega) hb
    have hstart := hc.count_eq
    obtain ⟨d', hd, hcd⟩ := hp.rest hc hS hcount ha (by omega)
    rw [bind_of_ok hd]
    exact (hk a).rest hcd trivial (by omega) hb hout

/-- The first of two readers stays inside, because the second one still reads something. -/
theorem bind_inside {k : α → Parse γ} {l : β → Parse δ} {g : γ → δ}
    (hp : Follows w S room least f p q)
    (hk : ∀ a, Closes w Kind.Any (room - least) 1 g (k a) (l (f a))) :
    Closes w S room 1 g (p >>= k) (q >>= l) := by
  have hfollows : Follows w S room 1 g (p >>= k) (q >>= l) :=
    (hp.bind fun a => (hk a).toFollows).mono (fun _ h => h) (Nat.le_refl _)
      (Nat.le_add_left 1 least)
  refine of_follows hfollows (Nat.le_refl _) ?_
  intro c d b c'' hc hS hcount hrun hout
  obtain ⟨a, c', ha, hb⟩ := bind_eq_ok.1 hrun
  obtain ⟨hc', hle⟩ := hp.left hc.toHolds hS hcount ha
  obtain ⟨-, hle'⟩ := (hk a).left hc' trivial (by omega) hb
  obtain ⟨d', hd, hcd⟩ := hp.answers hc hS hcount ha (by omega)
  rw [bind_of_ok hd]
  exact (hk a).finish hcd trivial (by omega) hb hout

theorem kind_bind {k : Kind → Parse α} {l : Kind → Parse β}
    (h : ∀ x, S x → Closes w (· = x) room 1 f (k x) (l x)) :
    Closes w S room 1 f (kind >>= k) (kind >>= l) := by
  refine of_follows (.kind_bind fun x hx => (h x hx).toFollows) (Nat.le_refl _) ?_
  intro c d a c' hc hS hcount hrun hout
  rw [Parse.kind_bind, hc.kind]
  exact (h _ hS).finish hc rfl hcount hrun hout

theorem here_bind {k : Position → Parse α} {l : Position → Parse β}
    (h : ∀ x, S x → ∀ pos ∈ w.places, ∀ pos',
      (w.strict ∨ x ≠ .dedent → pos' = pos.down w.lines) →
        Closes w (· = x) room 1 f (k pos) (l pos')) :
    Closes w S room 1 f (here >>= k) (here >>= l) := by
  refine of_follows (.here_bind fun x hx pos hpos pos' hpos' =>
    (h x hx pos hpos pos' hpos').toFollows) (Nat.le_refl _) ?_
  intro c d a c' hc hS hcount hrun hout
  exact (h _ hS _ hc.lookahead_place _ hc.lookahead.2).finish hc rfl hcount hrun hout

theorem learn (cls : Class) :
    Closes w S room 0 id (modify fun c => { c with classes := cls :: c.classes })
      (modify fun c => { c with classes := cls.down w.lines :: c.classes }) where
  toFollows := .learn cls
  finish c d a c' hc hS hcount hrun hout := by
    cases hrun
    exact absurd hout (Nat.ne_of_gt hc.tail_lt)
  rest c d a c' hc hS hcount hrun hout := by
    cases hrun
    refine ⟨_, rfl, ⟨hc.fault, hc.ends, hc.suffix⟩, hc.tail, hc.more, hc.other, ?_⟩
    exact congrArg (cls.down w.lines :: ·) hc.classes

section Ends

variable (hmore : w.more ≠ [])
include hmore

theorem advance (hS : ∀ x, S x → x ≠ .eof) : Closes w S room 1 id advance advance := by
  refine of_follows (.advance hS) (Nat.le_refl _) ?_
  intro c d a c' hc hk hcount hrun hout
  obtain ⟨d', hd, hseam⟩ := hc.step_seam (hS _ hk) (step_of_advance hrun) hout hmore
  exact ⟨d', by rw [Parse.advance, hd]; rfl, hseam⟩

theorem expect {x : Kind} (hx : x ≠ .eof) : Closes w S room 1 id (expect x) (expect x) := by
  apply kind_bind
  intro y _
  by_cases hxy : y = x
  · rw [if_pos hxy]
    exact advance hmore fun z hz => hz ▸ hxy ▸ hx
  · rw [if_neg hxy]
    refine of_follows (.fail rfl) (Nat.le_refl _) ?_
    intro c d a c' hc hk hcount hrun
    cases hrun

/-- A token that is read if it is of a given kind, and that neither text has behind the end of the
common part. -/
theorem accept {x : Kind} (hx : x ≠ .eof) (htail : ∀ t ∈ w.tail.head?, t.kind ≠ x)
    (hother : ∀ t ∈ w.more.head?, t.kind ≠ x) :
    Closes w S room 0 id (accept x) (accept x) where
  toFollows := by
    have hfollows : Follows w S room 0 id (Parse.accept x >>= Pure.pure)
        (Parse.accept x >>= Pure.pure) :=
      .accept_bind hx (fun _ => .pure rfl) (.pure rfl)
    rwa [bind_pure] at hfollows
  finish c d a c' hc hS hcount hrun hout := by
    rw [Parse.accept, Parse.sees_bind] at hrun ⊢
    rw [hc.kind]
    by_cases hk : c.lookahead.kind = x
    · simp only [hk, beq_self_eq_true, if_true] at hrun ⊢
      obtain ⟨u, c₁, ha, hp⟩ := bind_eq_ok.1 hrun
      obtain ⟨rfl, rfl⟩ := pure_eq_ok.1 hp
      have hadvance : Closes w (· = x) room 1 id Parse.advance Parse.advance :=
        advance hmore fun _ h => h ▸ hx
      obtain ⟨d', hd, hseam⟩ := hadvance.finish hc hk hcount ha hout
      exact ⟨d', by rw [bind_of_ok hd]; rfl, hseam⟩
    · simp only [beq_eq_false_iff_ne.2 hk, Bool.false_eq_true, if_false] at hrun
      obtain ⟨-, rfl⟩ := pure_eq_ok.1 hrun
      exact absurd hout (Nat.ne_of_gt hc.tail_lt)
  rest c d a c' hc hS hcount hrun hout := by
    have hkc : c.lookahead.kind ≠ x := htail _ (by rw [← hc.tail]; rfl)
    have hkd : d.lookahead.kind ≠ x := hother _ (by rw [← hc.more]; rfl)
    rw [Parse.accept, Parse.sees_bind] at hrun ⊢
    simp only [beq_eq_false_iff_ne.2 hkc, beq_eq_false_iff_ne.2 hkd, Bool.false_eq_true,
      if_false] at hrun ⊢
    obtain ⟨rfl, rfl⟩ := pure_eq_ok.1 hrun
    exact ⟨d, rfl, hc⟩

/-- A reader that first reads a token of a given kind. -/
theorem expect_bind {x : Kind} (hx : x ≠ .eof) {k : Unit → Parse α} {l : Unit → Parse β}
    (h : S x → Closes w Kind.Any (room - 1) 0 f (k ()) (l ())) :
    Closes w S room 1 f (Parse.expect x >>= k) (Parse.expect x >>= l) := by
  refine of_follows (.expect_bind hx fun hS => (h hS).toFollows) (Nat.le_refl _) ?_
  intro c d a c' hc hS hcount hrun hout
  have hk : c.lookahead.kind = x := by
    by_contra hne
    obtain ⟨u, c₁, hexpect, -⟩ := bind_eq_ok.1 hrun
    rw [Parse.expect, Parse.kind_bind, if_neg hne] at hexpect
    cases hexpect
  have hboth : Closes w S room 1 f (Parse.expect x >>= k) (Parse.expect x >>= l) :=
    (expect hmore hx).bind fun _ => h (hk ▸ hS)
  exact hboth.finish hc hS hcount hrun hout

theorem ended {stmt stmt' : Parse Stmt}
    (h : Follows w S room 1 (Stmt.down w.lines) stmt stmt') :
    Closes w S room 1 (Stmt.down w.lines) (ended stmt) (ended stmt') := by
  apply bind_inside h
  intro s
  apply expect_bind hmore (by simp)
  intro _
  exact pure rfl

theorem indented {g : α → β} {item : Parse α} {item' : Parse β} {n n' : Nat}
    (hitem : Follows w Kind.Any room 1 g item item') (hroom : room ≤ n) (hn : n ≤ n') :
    Closes w S room 1 (List.map g) (indented item n) (indented item' n') := by
  apply bind_inside (.expect (by simp))
  intro _
  apply bind_inside (.expect (by simp))
  intro _
  apply bind_inside (.expect (by simp))
  intro _
  apply bind_inside (.untilDedent (hitem.within (by omega)) (by omega) hn)
  intro items
  apply expect_bind hmore (by simp)
  intro _
  exact pure rfl

variable {inner inner' : Parse Stmt} {bound bound' : Nat}
  (hinner : Follows w Kind.Any room 1 (Stmt.down w.lines) inner inner') (hroom : room < bound)
  (hbound : bound ≤ bound')
include hinner hroom hbound

theorem classDefinition : Closes w S (room + 1) 1 (Stmt.down w.lines)
    (classDefinition inner bound) (classDefinition inner' bound') := by
  rw [classDefinition_eq, classDefinition_eq]
  apply here_bind
  intro x _ pos _ pos' hpos'
  apply expect_bind hmore (by simp)
  rintro rfl
  refine (bind_inside .name fun word => ?_).mono (fun _ h => h) (Nat.le_refl _) (Nat.zero_le _)
  apply bind_inside .parent
  intro above
  have hmethods := indented (S := Kind.Any) hmore (Follows.method hinner hroom hbound)
    (Nat.le_of_lt hroom) hbound
  apply (hmethods.mono (fun _ h => h) (by omega) (Nat.le_refl _)).bind
  intro methods
  have hcls := Class.down_mk w.lines word methods above
  rw [id, ← hcls]
  apply (learn _).bind
  intro _
  apply pure
  rw [Stmt.down, hpos' (Or.inr (by simp))]

theorem conditional (htail : ∀ t ∈ w.tail.head?, t.kind ≠ .keyword .elseWord)
    (hother : ∀ t ∈ w.more.head?, t.kind ≠ .keyword .elseWord) :
    Closes w S (room + 1) 1 (Stmt.down w.lines) (conditional inner bound)
      (conditional inner' bound') := by
  apply here_bind
  intro x _ pos _ pos' hpos'
  apply expect_bind hmore (by simp)
  rintro rfl
  rw [hpos' (Or.inr (by simp))]
  have hblock := indented (S := Kind.Any) hmore hinner (Nat.le_of_lt hroom) hbound
  refine (bind_inside (.within (.expression hbound) (by omega)) fun condition => ?_).mono
    (fun _ h => h) (Nat.le_refl _) (Nat.zero_le _)
  apply (hblock.mono (fun _ h => h) (by omega) (Nat.le_refl _)).bind
  intro body
  apply (accept hmore (by simp) htail hother).bind
  intro found
  cases found with
  | true =>
    apply (hblock.mono (fun _ h => h) (by omega) (Nat.zero_le _)).bind
    intro other
    apply pure
    rw [Stmt.down, Stmt.downAll_eq_map, Stmt.downAll_eq_map]
  | false =>
    apply pure
    rw [Stmt.down, Stmt.downAll_eq_map]

theorem anyStatement (htail : ∀ t ∈ w.tail.head?, t.kind ≠ .keyword .elseWord)
    (hother : ∀ t ∈ w.more.head?, t.kind ≠ .keyword .elseWord) :
    Closes w S (room + 1) 1 (Stmt.down w.lines) (anyStatement inner bound)
      (anyStatement inner' bound') := by
  apply kind_bind
  intro x _
  split
  · exact classDefinition hmore hinner hroom hbound
  · exact conditional hmore hinner hroom hbound htail hother
  · exact ended hmore ((Follows.returning hbound).within hroom)
  · exact ended hmore ((Follows.printing hbound).within hroom)
  · exact ended hmore ((Follows.simple hbound).within hroom)

end Ends

theorem statement {bound bound' : Nat} (hmore : w.more ≠ []) (hbound : bound ≤ bound')
    (htail : ∀ t ∈ w.tail.head?, t.kind ≠ .keyword .elseWord)
    (hother : ∀ t ∈ w.more.head?, t.kind ≠ .keyword .elseWord) :
    Closes w S bound 1 (Stmt.down w.lines) (statement bound) (statement bound') := by
  cases bound with
  | zero =>
    refine of_follows (.cramped rfl) (Nat.le_refl _) ?_
    intro c d a c' hc hS hcount
    exact absurd hcount (Nat.not_lt_zero _)
  | succ n =>
    obtain ⟨n', rfl⟩ : ∃ m, bound' = m + 1 := ⟨bound' - 1, by omega⟩
    have hinner : Follows w Kind.Any n 1 (Stmt.down w.lines) (nestedStatement (n + 1) n)
        (nestedStatement (n' + 1) n') := .nestedStatement hbound (by omega) (by omega)
    exact anyStatement hmore hinner (Nat.lt_succ_self n) hbound htail hother

end Parse.Closes

namespace Window

open Parse

/-- Behind the statements of the first text the second reader goes on with those of its own. Each
statement takes a token, so the bound of the second reader shrinks by no more than were read. -/
theorem Excerpt.statements {w : Window} {bound bound' n n' : Nat} {c c' d : Cursor}
    {body : List Stmt} (h : w.Excerpt c d) (hmore : w.more ≠ [])
    (htail : ∃ t, w.tail = [t] ∧ t.kind = .eof)
    (hother : ∀ t ∈ w.more.head?, t.kind ≠ .keyword .elseWord) (hbound : bound ≤ bound')
    (hroom : c.count < bound) (hn : c.count < n) (hle : c.count ≤ n')
    (hrun : statements bound n c = .ok (body, c')) (hout : c'.count = w.tail.length) :
    ∃ d' m, w.Seam c' d' ∧ n' + w.tail.length ≤ m + c.count ∧
      ∀ rest d'', Parse.statements bound' m d' = .ok (rest, d'') →
        Parse.statements bound' n' d = .ok (body.map (Stmt.down w.lines) ++ rest, d'') := by
  have helse : ∀ t ∈ w.tail.head?, t.kind ≠ .keyword .elseWord := by
    obtain ⟨t, htail, hk⟩ := htail
    intro u hu
    rw [htail] at hu
    obtain rfl : t = u := Option.some.inj hu
    simp [hk]
  have hend : ∀ {c d n body c'}, w.Seam c d → Parse.statements bound n c = .ok (body, c') →
      body = [] ∧ c' = c := by
    intro c d n body c' hseam hrun
    obtain ⟨t, htail, hk⟩ := htail
    have hlook : c.lookahead.kind = .eof := by
      have htokens := hseam.tail.trans htail
      rw [(List.cons.inj htokens).1, hk]
    cases n with
    | zero => cases hrun
    | succ n =>
      rw [Parse.statements, kind_bind, hlook] at hrun
      obtain ⟨rfl, rfl⟩ := pure_eq_ok.1 hrun
      exact ⟨rfl, rfl⟩
  induction n generalizing c d n' body with
  | zero => cases hrun
  | succ n ih =>
    obtain ⟨n', rfl⟩ : ∃ m, n' = m + 1 := ⟨n' - 1, by have := c.count_pos; omega⟩
    have hnext : ∀ {α β : Type} {S : Kind → Prop} {f : α → β} {p : Parse α} {q : Parse β} {a : α}
        {c₁ : Cursor} {rest₁ : List Stmt}, Closes w S bound 1 f p q → S c.lookahead.kind →
        p c = .ok (a, c₁) → Parse.statements bound n c₁ = .ok (rest₁, c') →
        ∃ d₁ d' m, q d = .ok (f a, d₁) ∧ w.Seam c' d' ∧ n' + 1 + w.tail.length ≤ m + c.count ∧
          ∀ rest d'', Parse.statements bound' m d' = .ok (rest, d'') →
            Parse.statements bound' n' d₁ = .ok (rest₁.map (Stmt.down w.lines) ++ rest, d'') := by
      intro α β S f p q a c₁ rest₁ hp hS ha hrest
      obtain ⟨hholds, hle₁⟩ := hp.left h.toHolds hS hroom ha
      have hfollows : Follows w Kind.Any (c₁.count + 1) 0 (List.map (Stmt.down w.lines))
          (Parse.statements bound n) (Parse.statements bound' n) :=
        .statements hbound (by omega) (Nat.le_refl n) (by omega)
      have hle₂ := (hfollows.left hholds trivial (Nat.lt_succ_self _) hrest).2
      rcases Nat.lt_or_ge w.tail.length c₁.count with hin | hstop
      · obtain ⟨d₁, hd, hcd⟩ := hp.answers h hS hroom ha hin
        have hlater : c₁.count ≤ n' := by omega
        obtain ⟨d', m, hseam, hm, hjoin⟩ := ih hcd (by omega) (by omega) hlater hrest
        exact ⟨d₁, d', m, hd, hseam, by omega, hjoin⟩
      · obtain ⟨d₁, hd, hcd⟩ := hp.finish h hS hroom ha (by omega)
        obtain ⟨rfl, rfl⟩ := hend hcd hrest
        exact ⟨d₁, d₁, n', hd, hcd, by omega, fun _ _ hmore => hmore⟩
    rw [Parse.statements, kind_bind] at hrun
    obtain ⟨q, hq, hrun⟩ := reader_of_run hrun
    split at hq <;> subst hq
    · obtain ⟨-, rfl⟩ := pure_eq_ok.1 hrun
      exact absurd hout (Nat.ne_of_gt h.tail_lt)
    · next hk =>
      obtain ⟨u, c₁, ha, hrest⟩ := bind_eq_ok.1 hrun
      have hadvance : Closes w (· = .newline) bound 1 id Parse.advance Parse.advance :=
        .advance hmore fun x hx => by simp [hx]
      obtain ⟨d₁, d', m, hd, hseam, hm, hjoin⟩ := hnext hadvance hk ha hrest
      refine ⟨d', m, hseam, hm, fun rest d'' hlater => ?_⟩
      rw [Parse.statements, kind_bind, h.kind, hk]
      exact (bind_of_ok hd).trans (hjoin rest d'' hlater)
    · next heof hnewline =>
      obtain ⟨first, c₁, hf, hrest⟩ := bind_eq_ok.1 hrun
      obtain ⟨others, c₂, ho, hp⟩ := bind_eq_ok.1 hrest
      obtain ⟨rfl, rfl⟩ := pure_eq_ok.1 hp
      have hstatement : Closes w Kind.Any bound 1 (Stmt.down w.lines) (statement bound)
          (statement bound') := .statement hmore hbound helse hother
      obtain ⟨d₁, d', m, hd, hseam, hm, hjoin⟩ := hnext hstatement trivial hf ho
      refine ⟨d', m, hseam, hm, fun rest d'' hlater => ?_⟩
      have hstep : Parse.statements bound' (n' + 1) d =
          (do return first.down w.lines :: (← Parse.statements bound' n') :
            Parse (List Stmt)) d₁ := by
        rw [Parse.statements, kind_bind, h.kind]
        generalize c.lookahead.kind = k at heof hnewline
        cases k with
        | eof => exact absurd rfl heof
        | newline => exact absurd rfl hnewline
        | _ => exact bind_of_ok hd
      rw [hstep, bind_of_ok (hjoin rest d'' hlater)]
      rfl

end Window

end Mython
