import Mython.Proofs.Program.Concatenation
import Mython.Proofs.Program.Outline
import Mython.Proofs.Program.Places

/-! Along a run of the readers two things are known of the tokens that were read: whether a line is
open behind them, and how many blocks are. -/

namespace Mython

open Token (Kind)
open Parse Cursor Layout Margin

/-- Whether tokens are those of a line that a heading stands for, from its first token on. -/
def Heading.Opens : Heading → List Token → Prop
  | statement s, line => HeadedAt line s.pos
  | otherwise _, line => [Kind.keyword .elseWord] <+: line.map (·.kind)
  | method word, line => [Kind.keyword .defWord, .name word] <+: line.map (·.kind)

/-- Between two lines or inside one, with a number of blocks open. -/
structure Spot where
  fresh : Bool
  depth : Nat

/-- Whether tokens lead to a spot. -/
structure Spot.Reached (x : Spot) (before : List Token) : Prop where
  line : (openLine before).isEmpty = x.fresh
  level : dedents before + x.depth = indents before

/-- A line of an outline is the one with a given first token, behind given ones. -/
structure LogicalLine.Matches (whole : List Token) (e : LogicalLine) (head : List Token × Token) :
    Prop where
  level : dedents head.1 + e.depth = indents head.1
  opens : ∃ after, whole = head.1 ++ head.2 :: after ∧ e.heading.Opens (head.2 :: after)

namespace Window

/-- A cursor into the tokens of a text, with few enough of them left. -/
structure Tracks (w : Window) (bound : Nat) (c : Cursor) : Prop extends w.Holds c where
  tidy : c.Tidy
  count : c.count < bound

/-- The lines between two cursors, each of them at a spot. -/
structure Lays (w : Window) (bound : Nat) (x : Spot) (c : Cursor) (es : List LogicalLine) (y : Spot)
    (c' : Cursor) : Prop where
  tracks : w.Tracks bound c'
  lines : ∃ us, c.tokens = us ++ c'.tokens ∧
    ∀ before, w.whole = before ++ c.tokens → x.Reached before →
      y.Reached (before ++ us) ∧ List.Forall₂ (LogicalLine.Matches w.whole) es (heads before us)

variable {w : Window} {bound : Nat} {c c' c'' : Cursor}

theorem Lays.trans {x y z : Spot} {es fs : List LogicalLine} (h : w.Lays bound x c es y c')
    (h' : w.Lays bound y c' fs z c'') : w.Lays bound x c (es ++ fs) z c'' := by
  obtain ⟨us, hus, hfirst⟩ := h.lines
  obtain ⟨vs, hvs, hsecond⟩ := h'.lines
  refine ⟨h'.tracks, us ++ vs, by rw [hus, hvs, List.append_assoc], ?_⟩
  intro before hwhole hx
  obtain ⟨hy, hes⟩ := hfirst before hwhole hx
  have hwhole' : w.whole = before ++ us ++ c'.tokens := by rw [hwhole, hus, List.append_assoc]
  obtain ⟨hz, hfs⟩ := hsecond (before ++ us) hwhole' hy
  rw [heads_append, ← List.append_assoc]
  exact ⟨hz, List.rel_append hes hfs⟩

/-- Nothing is laid out by the classes that are known. -/
theorem Lays.learn {x y : Spot} {es : List LogicalLine} (h : w.Lays bound x c es y c')
    (classes : List Class) : w.Lays bound x c es y { c' with classes := classes } where
  tracks := ⟨⟨h.tracks.fault, h.tracks.ends, h.tracks.suffix⟩,
    ⟨h.tracks.tidy.ends, h.tracks.tidy.adjacent⟩, h.tracks.count⟩
  lines := h.lines

/-- A reader goes on in the same tokens. -/
theorem Tracks.moved {α β : Type} {p : Parse α} {q : Parse β} {f : α → β} {least : Nat} {a : α}
    (hc : w.Tracks bound c) (hf : Follows w Kind.Any bound least f p q) (h : p c = .ok (a, c')) :
    w.Tracks bound c' ∧ ∃ us, c.tokens = us ++ c'.tokens := by
  obtain ⟨hholds, hcount⟩ := hf.left hc.toHolds trivial hc.count h
  have hle : c'.count ≤ c.count := by omega
  obtain ⟨us, hus⟩ : c'.tokens <:+ c.tokens :=
    List.suffix_of_suffix_length_le hholds.suffix hc.suffix hle
  have hpassed : Passed (us.map (·.kind)) c c' := by
    refine ⟨?_, hholds.fault.trans hc.fault.symm⟩
    show c.tokens.map (·.kind) = us.map (·.kind) ++ c'.tokens.map (·.kind)
    rw [← hus, List.map_append]
  exact ⟨⟨hholds, hpassed.tidy hc.tidy, hle.trans_lt hc.count⟩, us, hus.symm⟩

/-- The tokens that were read are of the kinds that were read. -/
theorem kinds_of_passed {ts : List Kind} {us : List Token} (h : Passed ts c c')
    (hus : c.tokens = us ++ c'.tokens) : us.map (·.kind) = ts := by
  have hkinds : us.map (·.kind) ++ c'.kinds = ts ++ c'.kinds := by
    rw [← h.kinds]
    show us.map (·.kind) ++ c'.tokens.map (·.kind) = c.tokens.map (·.kind)
    rw [hus, List.map_append]
  exact List.append_cancel_right hkinds

end Window

namespace Layout

/-- Nothing inside a line opens or closes a block. -/
theorem level_inside {us : List Token} (hus : ∀ t ∈ us, t.kind.isContent = true)
    (before : List Token) :
    indents (before ++ us) = indents before ∧ dedents (before ++ us) = dedents before := by
  have hnone : ∀ k : Kind, k.isContent = false → us.countP (fun t => t.kind = k) = 0 := by
    intro k hk
    rw [List.countP_eq_zero]
    intro t ht hkind
    rw [decide_eq_true_eq] at hkind
    rw [← hkind, hus t ht] at hk
    cases hk
  rw [indents, dedents, List.countP_append, List.countP_append, hnone .indent rfl,
    hnone .dedent rfl]
  exact ⟨rfl, rfl⟩

end Layout

namespace Window

variable {w : Window} {bound : Nat} {c c' : Cursor} {us : List Token}

theorem Tracks.refl (hc : w.Tracks bound c) (x : Spot) : w.Lays bound x c [] x c :=
  ⟨hc, [], rfl, fun before _ hx => ⟨by rwa [List.append_nil], .nil⟩⟩

/-- More of a line. -/
theorem Tracks.inside (hc : w.Tracks bound c') (hus : c.tokens = us ++ c'.tokens)
    (hcontent : ∀ t ∈ us, t.kind.isContent = true) (d : Nat) :
    w.Lays bound ⟨false, d⟩ c [] ⟨false, d⟩ c' := by
  refine ⟨hc, us, hus, fun before _ hx => ?_⟩
  obtain ⟨hi, hd⟩ := level_inside hcontent before
  have hopen : openLine before ≠ [] := by simpa using hx.line
  obtain ⟨hnone, hopen'⟩ := heads_inside hopen hcontent
  refine ⟨⟨by simpa using hopen', ?_⟩, ?_⟩
  · rw [hi, hd]
    exact hx.level
  · rw [hnone]
    exact .nil

/-- The start of a line. -/
theorem Tracks.head (hc : w.Tracks bound c') (hus : c.tokens = us ++ c'.tokens) (hne : us ≠ [])
    (hcontent : ∀ t ∈ us, t.kind.isContent = true) {heading : Heading}
    (hopens : heading.Opens c.tokens) (d : Nat) :
    w.Lays bound ⟨true, d⟩ c [⟨d, heading⟩] ⟨false, d⟩ c' := by
  obtain ⟨t, vs, rfl⟩ := List.exists_cons_of_ne_nil hne
  refine ⟨hc, t :: vs, hus, fun before hwhole hx => ?_⟩
  obtain ⟨hi, hd⟩ := level_inside hcontent before
  obtain ⟨ht, hvs⟩ := List.forall_mem_cons.1 hcontent
  obtain ⟨hone, hopen⟩ := heads_cons (List.isEmpty_iff.1 hx.line) ht hvs
  refine ⟨⟨by simpa using hopen, ?_⟩, ?_⟩
  · rw [hi, hd]
    exact hx.level
  · rw [hone]
    refine .cons ⟨hx.level, vs ++ c'.tokens, ?_, ?_⟩ .nil
    · rw [hwhole, hus]
      rfl
    · rwa [hus] at hopens

end Window

namespace Spot.Reached

variable {t : Token} {d : Nat} {before : List Token}

theorem newline {fresh : Bool} (h : Spot.Reached ⟨fresh, d⟩ before) (ht : t.kind = .newline) :
    Spot.Reached ⟨true, d⟩ (before ++ [t]) where
  line := by rw [openLine_newline before ht, List.isEmpty_nil]
  level := by
    have hlevel : dedents before + d = indents before := h.level
    simp only [indents_snoc, dedents_snoc, ht, reduceCtorEq, if_false, Nat.add_zero]
    exact hlevel

theorem indent (h : Spot.Reached ⟨true, d⟩ before) (ht : t.kind = .indent) :
    Spot.Reached ⟨true, d + 1⟩ (before ++ [t]) where
  line := by rw [openLine_layout before (Or.inl ht), h.line]
  level := by
    have hlevel : dedents before + d = indents before := h.level
    simp only [indents_snoc, dedents_snoc, ht, reduceCtorEq, if_true, if_false]
    omega

theorem dedent (h : Spot.Reached ⟨true, d + 1⟩ before) (ht : t.kind = .dedent) :
    Spot.Reached ⟨true, d⟩ (before ++ [t]) where
  line := by rw [openLine_layout before (Or.inr ht), h.line]
  level := by
    have hlevel : dedents before + (d + 1) = indents before := h.level
    simp only [indents_snoc, dedents_snoc, ht, reduceCtorEq, if_true, if_false]
    omega

end Spot.Reached

namespace Window

variable {w : Window} {bound : Nat} {c c' : Cursor} {α β : Type} {p : Parse α} {q : Parse β}
  {f : α → β} {least : Nat} {a : α} {ts : List Kind}

theorem ne_eof_of_content {k : Kind} (hk : k.isContent = true) : k ≠ .eof := by
  rintro rfl
  cases hk

/-- A reader of more of a line. -/
theorem Tracks.reads_inside (hc : w.Tracks bound c) (hf : Follows w Kind.Any bound least f p q)
    (h : p c = .ok (a, c')) (ht : Took ts c c') (hts : ∀ k ∈ ts, k.isContent = true) (d : Nat) :
    w.Lays bound ⟨false, d⟩ c [] ⟨false, d⟩ c' := by
  obtain ⟨hc', us, hus⟩ := hc.moved hf h
  refine hc'.inside hus ?_ d
  rw [← kinds_of_passed ht.toPassed hus, List.forall_mem_map] at hts
  exact hts

theorem Tracks.expects_inside {k : Kind} {u : Unit} (hc : w.Tracks bound c)
    (hk : k.isContent = true) (h : expect k c = .ok (u, c')) (d : Nat) :
    w.Lays bound ⟨false, d⟩ c [] ⟨false, d⟩ c' := by
  have hne := ne_eof_of_content hk
  have ht := took_of_expect hc.tidy hne h
  exact hc.reads_inside (Follows.expect hne) h ht (by simpa using hk) d

theorem Tracks.name_inside {word : String} (hc : w.Tracks bound c)
    (h : name c = .ok (word, c')) (d : Nat) : w.Lays bound ⟨false, d⟩ c [] ⟨false, d⟩ c' := by
  have ht := took_of_name hc.tidy h
  exact hc.reads_inside Follows.name h ht (by simp [Kind.isContent]) d

/-- The keyword with which a line starts. -/
theorem Tracks.reads_head {k : Kind} {u : Unit} (hc : w.Tracks bound c)
    (hk : k.isContent = true) (h : expect k c = .ok (u, c')) {heading : Heading}
    (hopens : heading.Opens c.tokens) (d : Nat) :
    w.Lays bound ⟨true, d⟩ c [⟨d, heading⟩] ⟨false, d⟩ c' := by
  have hne := ne_eof_of_content hk
  obtain ⟨hc', us, hus⟩ := hc.moved (Follows.expect hne) h
  have hkinds := kinds_of_passed (took_of_expect hc.tidy hne h).toPassed hus
  obtain ⟨t, rfl, rfl⟩ := List.map_eq_singleton_iff.1 hkinds
  exact hc'.head hus (by simp) (by simpa using hk) hopens d

/-- A token of layout, given how it changes the spot. -/
theorem Tracks.reads_layout {k : Kind} {u : Unit} (hc : w.Tracks bound c)
    (hk : k.isContent = false) (hne : k ≠ .eof) (h : expect k c = .ok (u, c')) {x y : Spot}
    (hspot : ∀ ⦃before t⦄, x.Reached before → t.kind = k → y.Reached (before ++ [t])) :
    w.Lays bound x c [] y c' := by
  obtain ⟨hc', us, hus⟩ := hc.moved (Follows.expect hne) h
  have hkinds := kinds_of_passed (took_of_expect hc.tidy hne h).toPassed hus
  obtain ⟨t, rfl, ht⟩ := List.map_eq_singleton_iff.1 hkinds
  refine ⟨hc', [t], hus, fun before _ hx => ⟨hspot hx ht, ?_⟩⟩
  rw [heads_layout before (ht ▸ hk)]
  exact .nil

end Window

namespace Parse

/-- A reader that passes the lines of an outline, from the start of a line to that of another. -/
def Outlines (w : Window) (bound : Nat) (o : Nat → α → List LogicalLine) (p : Parse α) : Prop :=
  ∀ ⦃c a c'⦄, w.Tracks bound c → p c = .ok (a, c') →
    ∀ d, w.Lays bound ⟨true, d⟩ c (o d a) ⟨true, d⟩ c'

section Blocks

variable {w : Window} {bound : Nat} {o : Nat → α → List LogicalLine} {item : Parse α}

theorem Outlines.untilDedent (h : Outlines w bound o item) (n : Nat) :
    Outlines w bound (fun d as => as.flatMap (o d)) (untilDedent item n) := by
  intro c as c' hc hrun d
  induction n generalizing c as with
  | zero => cases hrun
  | succ n ih =>
    rw [Parse.untilDedent, sees_bind, sees_bind] at hrun
    split at hrun
    · obtain ⟨rfl, rfl⟩ := pure_eq_ok.1 hrun
      exact hc.refl _
    · obtain ⟨first, e, hfirst, hrest⟩ := bind_eq_ok.1 hrun
      obtain ⟨others, e', hothers, hp⟩ := bind_eq_ok.1 hrest
      obtain ⟨rfl, rfl⟩ := pure_eq_ok.1 hp
      have hlays := h hc hfirst d
      have hothers' := ih hlays.tracks hothers
      simp only [List.flatMap_cons]
      exact hlays.trans hothers'

/-- The lines of a block are one deeper than the line that it follows. -/
theorem Outlines.indented (h : Outlines w bound o item) {n : Nat} {c c' : Cursor} {as : List α}
    (hc : w.Tracks bound c) (hrun : indented item n c = .ok (as, c')) (d : Nat) :
    w.Lays bound ⟨false, d⟩ c (as.flatMap (o (d + 1))) ⟨true, d⟩ c' := by
  obtain ⟨_, c₁, hcolon, hrest₁⟩ := bind_eq_ok.1 hrun
  obtain ⟨_, c₂, hnewline, hrest₂⟩ := bind_eq_ok.1 hrest₁
  obtain ⟨_, c₃, hindent, hrest₃⟩ := bind_eq_ok.1 hrest₂
  obtain ⟨items, c₄, hitems, hrest₄⟩ := bind_eq_ok.1 hrest₃
  obtain ⟨_, c₅, hdedent, hp⟩ := bind_eq_ok.1 hrest₄
  obtain ⟨rfl, rfl⟩ := pure_eq_ok.1 hp
  have l₁ := hc.expects_inside rfl hcolon d
  have l₂ := l₁.trans (l₁.tracks.reads_layout rfl (by simp) hnewline fun _ _ hx => hx.newline)
  have l₃ := l₂.trans (l₂.tracks.reads_layout rfl (by simp) hindent fun _ _ hx => hx.indent)
  have l₄ := l₃.trans (h.untilDedent n l₃.tracks hitems (d + 1))
  have l₅ := l₄.trans (l₄.tracks.reads_layout rfl (by simp) hdedent fun _ _ hx => hx.dedent)
  simpa using l₅

end Blocks

open Grammar

variable {w : Window} {bound : Nat}

/-- A statement with no block is one line of the outline. -/
theorem outlines_ended {stmt stmt' : Parse Stmt}
    (hfollows : Follows w Kind.Any bound 1 (Stmt.down w.lines) stmt stmt')
    (hforms : FormsBy (ended stmt)) (hplaced : PlacedSimple stmt) :
    Outlines w bound Stmt.outline (ended stmt) := by
  intro c s c' hc hrun d
  obtain ⟨ts, hpassed, hform⟩ := hforms hc.tidy hrun
  obtain ⟨s', e, hs, hline⟩ := bind_eq_ok.1 hrun
  obtain ⟨u, e', hnewline, hp⟩ := bind_eq_ok.1 hline
  obtain ⟨rfl, rfl⟩ := pure_eq_ok.1 hp
  obtain ⟨hsimple, hlead⟩ := hplaced hs
  obtain ⟨ks, rfl, hks⟩ := hform.line_of_simple hsimple
  obtain ⟨he, us, hus⟩ := hc.moved hfollows hs
  have hend := took_of_expect he.tidy (by simp) hnewline
  have hbefore : Passed ks c e := by
    refine ⟨?_, hend.fault.symm.trans hpassed.fault⟩
    rw [hpassed.kinds, hend.kinds, List.append_assoc]
  rw [← Window.kinds_of_passed hbefore hus, List.forall_mem_map] at hks
  have hne : us ≠ [] := by
    rintro rfl
    obtain ⟨hsame, -⟩ := List.cons.inj hus
    have hcontent : c.lookahead.kind.isContent = true := hlead.head_content
    rw [hsame, lookahead_of_expect hnewline] at hcontent
    cases hcontent
  have hopens : (Heading.statement s').Opens c.tokens := hlead
  have l₁ := he.head hus hne hks hopens d
  have l₂ := l₁.trans (he.reads_layout rfl (by simp) hnewline fun _ _ hx => hx.newline)
  rw [Stmt.outline_simple hsimple]
  exact l₂

section Inner

variable {inner : Parse Stmt} (hinner : Outlines w bound Stmt.outline inner)
include hinner

theorem outlines_method : Outlines w bound Method.outline (method inner bound) := by
  intro c m c' hc hrun d
  rw [method] at hrun
  obtain ⟨_, c₁, hdef, h₁⟩ := bind_eq_ok.1 hrun
  obtain ⟨word, c₂, hword, h₂⟩ := bind_eq_ok.1 h₁
  obtain ⟨_, c₃, hopen, h₃⟩ := bind_eq_ok.1 h₂
  obtain ⟨params, c₄, hparams, h₄⟩ := bind_eq_ok.1 h₃
  obtain ⟨_, c₅, hclose, h₅⟩ := bind_eq_ok.1 h₄
  obtain ⟨body, c₆, hbody, hp⟩ := bind_eq_ok.1 h₅
  obtain ⟨rfl, rfl⟩ := pure_eq_ok.1 hp
  have t₁ := took_of_expect hc.tidy (by simp) hdef
  have t₂ := t₁.trans (took_of_name (t₁.tidy hc.tidy) hword)
  have hopens : (Heading.method word).Opens c.tokens := ⟨c₂.kinds, t₂.kinds.symm⟩
  have l₁ := hc.reads_head rfl hdef hopens d
  have l₂ := l₁.trans (l₁.tracks.name_inside hword d)
  have l₃ := l₂.trans (l₂.tracks.expects_inside rfl hopen d)
  obtain ⟨ps, t₄, hnames⟩ := names_sound bound l₃.tracks.tidy hparams
  have l₄ := l₃.trans (l₃.tracks.reads_inside
    (Follows.commaList Follows.name (Nat.le_refl bound) (Nat.le_refl bound)) hparams t₄
    hnames.content d)
  have l₅ := l₄.trans (l₄.tracks.expects_inside rfl hclose d)
  have l₆ := l₅.trans (hinner.indented l₅.tracks hbody d)
  rw [Method.outline, Stmt.outlineAll_eq_flatMap]
  simpa using l₆

theorem outlines_conditional : Outlines w bound Stmt.outline (conditional inner bound) := by
  intro c s c' hc hrun d
  rw [conditional, here_bind] at hrun
  obtain ⟨_, c₁, hif, h₁⟩ := bind_eq_ok.1 hrun
  obtain ⟨condition, c₂, hcond, h₂⟩ := bind_eq_ok.1 h₁
  obtain ⟨body, c₃, hbody, h₃⟩ := bind_eq_ok.1 h₂
  obtain ⟨b, c₄, helse, h₄⟩ := bind_eq_ok.1 h₃
  have hhere : HeadedAt c.tokens c.lookahead.pos := .here (by rw [lookahead_of_expect hif]; rfl)
  have hfirst : ∀ stmt : Stmt, stmt.pos = c.lookahead.pos →
      w.Lays bound ⟨true, d⟩ c (⟨d, .statement stmt⟩ :: Stmt.outlineAll (d + 1) body)
        ⟨true, d⟩ c₃ := by
    intro stmt hpos
    have hopens : (Heading.statement stmt).Opens c.tokens := by
      rw [Heading.Opens, hpos]
      exact hhere
    have l₁ := hc.reads_head rfl hif hopens d
    obtain ⟨ts, t₂, hspells⟩ := expression_sound bound l₁.tracks.tidy hcond
    have l₂ := l₁.trans (l₁.tracks.reads_inside (Follows.expression (Nat.le_refl bound)) hcond t₂
      hspells.content d)
    have l₃ := l₂.trans (hinner.indented l₂.tracks hbody d)
    rw [Stmt.outlineAll_eq_flatMap]
    exact l₃
  cases b with
  | true =>
    obtain ⟨other, c₅, hother, hp⟩ := bind_eq_ok.1 h₄
    obtain ⟨rfl, rfl⟩ := pure_eq_ok.1 hp
    have l₃ := hfirst (.ifElse condition body other c.lookahead.pos) rfl
    have helse' := expect_of_accept helse
    have t₄ := took_of_expect l₃.tracks.tidy (by simp) helse'
    have hopens : (Heading.otherwise (.ifElse condition body other c.lookahead.pos)).Opens
        c₃.tokens := ⟨c₄.kinds, t₄.kinds.symm⟩
    have l₄ := l₃.trans (l₃.tracks.reads_head rfl helse' hopens d)
    have l₅ := l₄.trans (hinner.indented l₄.tracks hother d)
    rw [Stmt.outline, Stmt.outlineAll_eq_flatMap (d + 1) other]
    simpa using l₅
  | false =>
    obtain ⟨rfl, rfl⟩ := pure_eq_ok.1 h₄
    obtain ⟨hb, -⟩ | ⟨-, rfl⟩ := accept_cases helse
    · cases hb
    · rw [Stmt.outline]
      exact hfirst (.ifThen condition body c.lookahead.pos) rfl

theorem outlines_classDefinition :
    Outlines w bound Stmt.outline (classDefinition inner bound) := by
  intro c s c' hc hrun d
  rw [classDefinition_eq, here_bind] at hrun
  obtain ⟨_, c₁, hclass, h₁⟩ := bind_eq_ok.1 hrun
  obtain ⟨word, c₂, hword, h₂⟩ := bind_eq_ok.1 h₁
  obtain ⟨found, c₃, hfound, h₃⟩ := bind_eq_ok.1 h₂
  obtain ⟨ms, c₄, hbody, h₄⟩ := bind_eq_ok.1 h₃
  obtain ⟨_, c₅, hadd, hp⟩ := bind_eq_ok.1 h₄
  obtain ⟨rfl, rfl⟩ := pure_eq_ok.1 hp
  cases hadd
  have hopens : (Heading.statement (.define ⟨word, ms, found⟩ c.lookahead.pos)).Opens c.tokens :=
    .here (by rw [lookahead_of_expect hclass]; rfl)
  have l₁ := hc.reads_head rfl hclass hopens d
  have l₂ := l₁.trans (l₁.tracks.name_inside hword d)
  obtain ⟨t₃, -⟩ := parent_sound l₂.tracks.tidy hfound
  have l₃ := l₂.trans (l₂.tracks.reads_inside Follows.parent hfound t₃ (heritage_content _) d)
  have l₄ := l₃.trans ((outlines_method hinner).indented l₃.tracks hbody d)
  rw [Stmt.outline, Method.outlineAll_eq_flatMap]
  exact l₄.learn _

theorem outlines_anyStatement : Outlines w bound Stmt.outline (anyStatement inner bound) := by
  intro c s c' hc hrun d
  rw [anyStatement, kind_bind] at hrun
  obtain ⟨q, hq, hrun⟩ := reader_of_run hrun
  have hbound := Nat.le_refl bound
  split at hq <;> subst hq
  · exact outlines_classDefinition hinner hc hrun d
  · exact outlines_conditional hinner hc hrun d
  · exact outlines_ended (Follows.returning hbound) returning_sound (placedSimple_returning bound)
      hc hrun d
  · exact outlines_ended (Follows.printing hbound) printing_sound (placedSimple_printing bound)
      hc hrun d
  · exact outlines_ended (Follows.simple hbound) simple_sound (placedSimple_simple bound) hc hrun d

end Inner

/-- Every statement passes the lines of its outline. -/
theorem outlines_nestedStatement (n : Nat) :
    Outlines w bound Stmt.outline (nestedStatement bound n) := by
  induction n with
  | zero =>
    intro c s c' hc hrun
    cases hrun
  | succ n ih => exact outlines_anyStatement ih

/-- So do statements up to the end. -/
theorem outlines_statements (n : Nat) :
    Outlines w bound Stmt.outlineAll (statements bound n) := by
  intro c ss c' hc hrun d
  induction n generalizing c ss with
  | zero => cases hrun
  | succ n ih =>
    rw [statements, kind_bind] at hrun
    obtain ⟨q, hq, hrun⟩ := reader_of_run hrun
    split at hq <;> subst hq
    · obtain ⟨rfl, rfl⟩ := pure_eq_ok.1 hrun
      exact hc.refl _
    · next hk =>
      obtain ⟨u, e, hnewline, hrest⟩ := bind_eq_ok.1 hrun
      have hexpect : expect .newline c = .ok (u, e) := by
        rw [expect, kind_bind, if_pos hk, hnewline]
      have l₁ : w.Lays bound ⟨true, d⟩ c [] ⟨true, d⟩ e :=
        hc.reads_layout rfl (by simp) hexpect fun _ _ hx => hx.newline
      exact l₁.trans (ih l₁.tracks hrest)
    · obtain ⟨first, e, hfirst, hrest⟩ := bind_eq_ok.1 hrun
      obtain ⟨others, e', hothers, hp⟩ := bind_eq_ok.1 hrest
      obtain ⟨rfl, rfl⟩ := pure_eq_ok.1 hp
      have l₁ := outlines_nestedStatement bound hc hfirst d
      rw [Stmt.outlineAll]
      exact l₁.trans (ih l₁.tracks hothers)

end Parse

/-- A text on its own. -/
def Window.alone (whole : List Token) : Window := Window.ofSecond whole 0 [] conversion_nil

/-- The lines of a program that is read are the logical lines of its text, each at its depth. -/
theorem ReadBy.lays {source : String} {p : Program} {seen : List Token} {t : Token} {c c' : Cursor}
    (h : ReadBy source p seen t c c') :
    openLine seen = [] ∧
      List.Forall₂ (LogicalLine.Matches (seen ++ [t])) p.outline (heads [] seen) := by
  have htracks : (Window.alone c.tokens).Tracks (c.count + 2) c :=
    { fault := h.fault
      ends := fun _ => h.ends
      suffix := List.suffix_refl _
      tidy := h.tidy
      count := by omega }
  obtain ⟨-, us, hus, hlines⟩ := Parse.outlines_statements _ htracks h.run 0
  obtain ⟨hreached, hmatches⟩ := hlines [] rfl ⟨rfl, rfl⟩
  obtain ⟨rfl, -⟩ : us = seen ∧ c'.tokens = [t] :=
    List.append_inj' (hus.symm.trans h.tokens) h.count
  refine ⟨List.isEmpty_iff.1 hreached.line, ?_⟩
  rw [← h.tokens]
  exact hmatches

/-- Each line of the outline starts the logical line of its number, at the margin of its depth. -/
theorem ReadBy.starts {source : String} {p : Program} {seen : List Token} {t : Token}
    {c c' : Cursor} (h : ReadBy source p seen t c c') :
    lineEnds (seen ++ [t]) = p.outline.length ∧
      ∀ (i : Nat) (e : LogicalLine), p.outline[i]? = some e →
        ∃ u after, Starts (seen ++ [t]) i u after ∧ e.heading.Opens (u :: after) ∧
          spacesAt (utf8 source) u.pos.line = 2 * e.depth := by
  have hfits : ∀ before u after, seen ++ [t] = before ++ u :: after →
      Fits (utf8 source) before u := by
    intro before u after hsplit
    refine ofSource_fits source before u after ?_
    rw [h.stream]
    exact hsplit
  have hcount : ∀ front rest, seen = front ++ rest → openLine front = [] →
      (heads [] front).length = lineEnds front := by
    intro front rest hfront hfresh
    have hlength : (heads [] front).length =
        lineEnds front + if openLine front = [] then 0 else 1 :=
      length_heads fun before u after hsplit =>
        hfits before u (after ++ rest ++ [t]) (by simp [hfront, hsplit])
    rwa [if_pos hfresh] at hlength
  obtain ⟨hopen, hmatches⟩ := h.lays
  refine ⟨?_, fun i e he => ?_⟩
  · have hend : ¬ t.kind = .newline := by simp [h.kind]
    rw [lineEnds_snoc, if_neg hend, Nat.add_zero, hmatches.length_eq,
      hcount seen [] (by simp) hopen]
  · obtain ⟨hi, rfl⟩ := List.getElem?_eq_some_iff.1 he
    have hi' : i < (heads [] seen).length := hmatches.length_eq ▸ hi
    obtain ⟨hlevel, after, hwhole, hopens⟩ := hmatches.get hi hi'
    have hhead : (heads [] seen)[i]? = some ((heads [] seen).get ⟨i, hi'⟩) :=
      List.getElem?_eq_getElem hi'
    obtain ⟨front, rest, hseen, hfront, hcontent, hfresh, hindex⟩ := getElem?_heads hhead
    rw [List.nil_append] at hfront
    rw [hfront] at hlevel hwhole hfresh
    refine ⟨_, after, ⟨hcontent, front, hwhole, hfresh, ?_⟩, hopens, ?_⟩
    · rw [← hindex, hcount front _ hseen hfresh]
    · exact (hfits front _ after hwhole).spacesAt_head hcontent hfresh hlevel

namespace Program

/-- The nesting of statements mirrors the margins of their lines. The outline of a program lists its
logical lines: each starts where its number says, and its margin has two spaces for every block
around it. So has the physical line on which a statement is placed, and no two statements share one.
A second block belongs to the last line in front of it that is not deeper. -/
theorem nesting_mirrors_indentation (source : String) (p : Program) (h : parse source = .ok p) :
    ∃ ts, tokenize source = .ok ts ∧ lineEnds ts = p.outline.length ∧
      (∀ (i : Nat) (e : LogicalLine), p.outline[i]? = some e → ∃ t after, Starts ts i t after ∧
        e.heading.Opens (t :: after) ∧ spacesAt (utf8 source) t.pos.line = 2 * e.depth) ∧
      (∀ (i d : Nat) (s : Stmt), p.outline[i]? = some ⟨d, .statement s⟩ →
        spacesAt (utf8 source) s.pos.line = 2 * d) ∧
      (∀ (i j d d' : Nat) (s s' : Stmt), i < j → p.outline[i]? = some ⟨d, .statement s⟩ →
        p.outline[j]? = some ⟨d', .statement s'⟩ → s.pos.line < s'.pos.line) ∧
      Owned p.outline := by
  obtain ⟨seen, t, c, c', hread⟩ := parse_run h
  obtain ⟨hlength, hstarts⟩ := hread.starts
  have htokens : (TokenStream.ofSource source).tokens = seen ++ [t] := by rw [hread.stream]
  have hnear : (seen ++ [t]).IsChain Near := htokens ▸ ofSource_near source
  have habove : (seen ++ [t]).Pairwise Above := htokens ▸ ofSource_above source
  have hplaced : ∀ (i d : Nat) (s : Stmt), p.outline[i]? = some ⟨d, .statement s⟩ → ∃ u after,
      Starts (seen ++ [t]) i u after ∧ s.pos.line = u.pos.line ∧
        spacesAt (utf8 source) u.pos.line = 2 * d := by
    intro i d s hs
    obtain ⟨u, after, hu, hleads, hmargin⟩ := hstarts i _ hs
    obtain ⟨before, hsplit, -, -⟩ := hu.split
    rw [hsplit] at hnear
    have hline := HeadedAt.line_eq hleads hnear.right_of_append u rfl
    exact ⟨u, after, hu, hline, hmargin⟩
  refine ⟨seen ++ [t], TokenStream.tokenize_eq_ok.2 hread.stream, hlength, hstarts, ?_, ?_,
    Stmt.owned_outlineAll 0 p.body⟩
  · intro i d s hs
    obtain ⟨u, after, -, hline, hmargin⟩ := hplaced i d s hs
    rw [hline, hmargin]
  · intro i j d d' s s' hij hs hs'
    obtain ⟨u, after, hu, hline, -⟩ := hplaced i d s hs
    obtain ⟨v, after', hv, hline', -⟩ := hplaced j d' s' hs'
    rw [hline, hline']
    exact hu.line_lt hv hij habove

/-- A conditional in a method, with a text of two lines and an expression that stands alone behind
parentheses. -/
theorem nesting_mirrors_indentation_blocks :
    ∃ source p ts, source = "class A:\n  def f():\n    if x:\n      y = 'a\n'\n    else:\n      (y)\nz" ∧
      parse source = .ok p ∧ p.outline.map (·.depth) = [0, 1, 2, 3, 2, 3, 0] ∧
      tokenize source = .ok ts ∧ lineEnds ts = 7 ∧
      (∀ (i d : Nat) (s : Stmt), p.outline[i]? = some ⟨d, .statement s⟩ →
        spacesAt (utf8 source) s.pos.line = 2 * d) ∧ Owned p.outline := by
  have hdepths : (parse "class A:\n  def f():\n    if x:\n      y = 'a\n'\n    else:\n      (y)\nz"
      ).toOption.map (fun p => p.outline.map (·.depth)) = some [0, 1, 2, 3, 2, 3, 0] := by
    decide +kernel
  cases hp : parse "class A:\n  def f():\n    if x:\n      y = 'a\n'\n    else:\n      (y)\nz" with
  | error e =>
    rw [hp] at hdepths
    cases hdepths
  | ok p =>
    rw [hp] at hdepths
    have hlist : p.outline.map (·.depth) = [0, 1, 2, 3, 2, 3, 0] := Option.some.inj hdepths
    obtain ⟨ts, hts, hlength, -, hmargins, -, howned⟩ := nesting_mirrors_indentation _ p hp
    refine ⟨_, p, ts, rfl, hp, hlist, hts, ?_, hmargins, howned⟩
    rw [hlength, ← List.length_map (·.depth), hlist]
    rfl

end Program

end Mython
