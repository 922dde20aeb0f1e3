import Mathlib.Data.List.Forall2
import Mathlib.Data.Set.Basic
import Mython.Proofs.Program.Moved
import Mython.Proofs.Program.Reader

/-! Two readers side by side, the tokens of one among those of the other. As long as the first
reader stays inside the common part, the second one does the same. -/

namespace Mython

open Token (Kind)

namespace Cursor

/-- The tokens that are left, the lookahead first. -/
def tokens (c : Cursor) : List Token := c.lookahead :: c.ahead

/-- How many tokens are left. -/
def count (c : Cursor) : Nat := c.tokens.length

theorem count_pos (c : Cursor) : 0 < c.count := Nat.succ_pos _

end Cursor

/-- Whether a cause is one of the grammar. -/
def SyntaxError.Cause.isGrammar : SyntaxError.Cause → Bool
  | expectedExpression _ | notAssignable | conversionArity | expectedToken _ _ | expectedName _
  | unknownClass _ => true
  | strayByte _ | unclosedText | numberOutOfRange _ | brokenIndent _ | deepIndent
  | unfinished => false

/-- How the tokens of one cursor lie among those of another. -/
structure Window where
  /-- How many lines further below they are for the second cursor. -/
  lines : Nat
  /-- The classes that only the second cursor knows. -/
  known : List Class
  /-- All tokens of the first cursor. -/
  whole : List Token
  /-- What follows the tokens of the first cursor, and of the second. -/
  fault : Option SyntaxError
  other : Option SyntaxError
  /-- The tokens behind the common part, for the first cursor and for the second. -/
  tail : List Token
  more : List Token
  /-- Whether the readers are to give up alike as well. -/
  strict : Prop
  strict_lines : strict → lines = 0
  strict_known : strict → known = []
  strict_tail : strict → tail = []
  conversion : ∀ cls ∈ known, cls.name ≠ Parse.conversionName

namespace Window

/-- No class at all hides the conversion to text. -/
theorem conversion_nil : ∀ cls ∈ ([] : List Class), cls.name ≠ Parse.conversionName := by simp

/-- The same token at the same place, for the second cursor. The place of the end of a block is
asked for only where readers give up. -/
def Same (w : Window) (t u : Token) : Prop :=
  u.kind = t.kind ∧ (w.strict ∨ t.kind ≠ .dedent → u.pos = t.pos.down w.lines)

/-- The places of the first cursor's tokens. -/
def places (w : Window) : Set Position := {pos | ∃ t ∈ w.whole, t.pos = pos}

/-- A cursor into the tokens of a window, which end as they should. -/
structure Holds (w : Window) (c : Cursor) : Prop where
  fault : c.fault = w.fault
  ends : w.fault = none → c.kinds.getLast? = some .eof
  suffix : c.tokens <:+ w.whole

/-- Two cursors at the same place of the common part. -/
structure Excerpt (w : Window) (c d : Cursor) : Prop extends w.Holds c where
  tokens : ∃ ts us, ts ≠ [] ∧ c.tokens = ts ++ w.tail ∧ d.tokens = us ++ w.more ∧
    List.Forall₂ w.Same ts us
  other : d.fault = w.other
  classes : d.classes = c.classes.map (Class.down w.lines) ++ w.known

variable {w : Window} {c c' d : Cursor}

theorem Excerpt.lookahead (h : w.Excerpt c d) : w.Same c.lookahead d.lookahead := by
  obtain ⟨ts, us, hne, hc, hd, hsame⟩ := h.tokens
  cases hsame with
  | nil => exact absurd rfl hne
  | cons hfirst _ =>
    obtain ⟨rfl, -⟩ := List.cons.inj hc
    obtain ⟨rfl, -⟩ := List.cons.inj hd
    exact hfirst

theorem Excerpt.kind (h : w.Excerpt c d) : d.lookahead.kind = c.lookahead.kind := h.lookahead.1

theorem Holds.lookahead_place (h : w.Holds c) : c.lookahead.pos ∈ w.places :=
  ⟨c.lookahead, h.suffix.subset (List.mem_cons_self ..), rfl⟩

/-- One token less is left behind each one that is read. -/
theorem Holds.step (h : w.Holds c) (hk : c.lookahead.kind ≠ .eof) (hs : c.step = .ok c') :
    w.Holds c' ∧ c.tokens = c.lookahead :: c'.tokens ∧ c'.classes = c.classes := by
  obtain ⟨t, ts, fault, classes⟩ := c
  obtain ⟨hfault, hends, hsuffix⟩ := h
  cases ts with
  | cons u us =>
    cases hs
    refine ⟨⟨hfault, ?_, ?_⟩, rfl, rfl⟩
    · intro hnone
      have hlast := hends hnone
      simpa [Cursor.kinds, List.getLast?_cons_cons] using hlast
    · exact (List.suffix_cons t _).trans hsuffix
  | nil =>
    cases fault with
    | some e => cases hs
    | none =>
      have hlast := hends hfault.symm
      simp only [Cursor.kinds, List.map_nil, List.getLast?_singleton, Option.some.injEq] at hlast
      exact absurd hlast hk

theorem Holds.count_step (h : w.Holds c) (hk : c.lookahead.kind ≠ .eof) (hs : c.step = .ok c') :
    c'.count + 1 = c.count := by
  rw [Cursor.count, Cursor.count, (h.step hk hs).2.1]
  rfl

/-- Reading on is impossible only in front of the error of a stream. -/
theorem Holds.step_error {e : SyntaxError} (h : w.Holds c) (hs : c.step = .error e) :
    w.fault = some e ∧ c.ahead = [] := by
  obtain ⟨t, ts, fault, classes⟩ := c
  rw [← h.fault]
  cases ts with
  | cons u us => cases hs
  | nil =>
    cases fault with
    | some e' =>
      cases hs
      exact ⟨rfl, rfl⟩
    | none => cases hs

/-- The second cursor moves with the first one, inside the common part. -/
theorem Excerpt.step (h : w.Excerpt c d) (hk : c.lookahead.kind ≠ .eof) (hs : c.step = .ok c')
    (hin : w.tail.length < c'.count) : ∃ d', d.step = .ok d' ∧ w.Excerpt c' d' := by
  obtain ⟨hholds, htokens, hclasses⟩ := h.toHolds.step hk hs
  obtain ⟨ts, us, hne, hc, hd, hsame⟩ := h.tokens
  cases hsame with
  | nil => exact absurd rfl hne
  | @cons t u ts us hfirst hrest =>
    have hleft : c'.tokens = ts ++ w.tail := (List.cons.inj (htokens.symm.trans hc)).2
    have hahead : d.ahead = us ++ w.more := (List.cons.inj hd).2
    cases hrest with
    | nil =>
      rw [Cursor.count, hleft] at hin
      exact absurd hin (Nat.lt_irrefl _)
    | @cons t' u' ts us hnext hlater =>
      refine ⟨{ d with lookahead := u', ahead := us ++ w.more }, ?_, hholds, ?_, h.other, ?_⟩
      · rw [Cursor.step, hahead]
        rfl
      · exact ⟨t' :: ts, u' :: us, List.cons_ne_nil _ _, hleft, rfl, .cons hnext hlater⟩
      · rw [hclasses]
        exact h.classes

/-- Where the first cursor meets an error at the end of everything, the second one meets its own. -/
theorem Excerpt.step_error {e e' : SyntaxError} (h : w.Excerpt c d) (hs : c.step = .error e)
    (htail : w.tail = []) (hmore : w.more = []) (hother : w.other = some e') :
    d.step = .error e' := by
  obtain ⟨-, hahead⟩ := h.toHolds.step_error hs
  obtain ⟨ts, us, hne, hc, hd, hsame⟩ := h.tokens
  have hlength := hsame.length_eq
  rw [htail, List.append_nil, Cursor.tokens, hahead] at hc
  rw [hmore, List.append_nil] at hd
  rw [← hc, ← hd] at hlength
  have hempty : d.ahead = [] := List.eq_nil_of_length_eq_zero (Nat.succ.inj hlength).symm
  rw [Cursor.step, hempty, h.other, hother]

theorem Excerpt.class? (h : w.Excerpt c d) (word : String) :
    d.class? word = ((c.class? word).map (Class.down w.lines)).or
      (w.known.find? fun k => k.name == word) := by
  have hname : (fun k : Class => k.name == word) ∘ Class.down w.lines =
      fun k => k.name == word := by
    funext k
    simp only [Function.comp, Class.name_down]
  rw [Cursor.class?, h.classes, List.find?_append, List.find?_map, hname, Cursor.class?]

end Window

/-- Kinds without a condition. -/
abbrev Token.Kind.Any : Kind → Prop := fun _ => True

namespace Parse

/-- What a reader does in front of tokens whose first one is of certain kinds, and what a second
reader does beside it. At least some tokens are read, unless there are too many for the bounds in
use; an error is that of the stream or one of the grammar. -/
structure Follows (w : Window) (S : Kind → Prop) (room least : Nat) (f : α → β) (p : Parse α)
    (q : Parse β) : Prop where
  left : ∀ ⦃c a c'⦄, w.Holds c → S c.lookahead.kind → c.count < room → p c = .ok (a, c') →
    w.Holds c' ∧ c'.count + least ≤ c.count
  fails : ∀ ⦃c e⦄, w.Holds c → S c.lookahead.kind → c.count < room → p c = .error e →
    w.fault = some e ∨ e.cause.isGrammar = true ∧ e.pos ∈ w.places
  answers : ∀ ⦃c d a c'⦄, w.Excerpt c d → S c.lookahead.kind → c.count < room →
    p c = .ok (a, c') → w.tail.length < c'.count → ∃ d', q d = .ok (f a, d') ∧ w.Excerpt c' d'
  failsToo : w.strict → ∀ ⦃c d e⦄, w.Excerpt c d → S c.lookahead.kind → c.count < room →
    p c = .error e →
      (w.fault = some e ∧ (w.more = [] → ∀ e', w.other = some e' → q d = .error e')) ∨
        q d = .error e

theorem bind_of_error {p : Parse α} {k : α → Parse β} {c : Cursor} {e : SyntaxError}
    (h : p c = .error e) : (p >>= k) c = .error e := by
  show (p c >>= fun x => k x.1 x.2) = .error e
  rw [h]
  rfl

theorem bind_eq_error {p : Parse α} {k : α → Parse β} {c : Cursor} {e : SyntaxError} :
    (p >>= k) c = .error e ↔ p c = .error e ∨ ∃ a c', p c = .ok (a, c') ∧ k a c' = .error e := by
  show (p c >>= fun x => k x.1 x.2) = .error e ↔ _
  cases hp : p c with
  | error e' => simp [bind, Except.bind]
  | ok x =>
    obtain ⟨a, c'⟩ := x
    simp [bind, Except.bind]

theorem step_of_advance {u : Unit} {c c' : Cursor} (h : advance c = .ok (u, c')) :
    c.step = .ok c' := by
  rw [advance] at h
  cases hs : c.step with
  | error e =>
    rw [hs] at h
    cases h
  | ok d =>
    rw [hs] at h
    cases h
    rfl

theorem step_of_advance_error {c : Cursor} {e : SyntaxError} (h : advance c = .error e) :
    c.step = .error e := by
  rw [advance] at h
  cases hs : c.step with
  | error e' =>
    rw [hs] at h
    cases h
    rfl
  | ok d =>
    rw [hs] at h
    cases h

end Parse

namespace Parse.Follows

variable {w : Window} {S : Kind → Prop} {room least : Nat} {f : α → β} {p : Parse α} {q : Parse β}

/-- What holds for many kinds and many tokens holds for fewer, and what reads much reads little. -/
theorem mono (h : Follows w S room least f p q) {S' : Kind → Prop} {room' least' : Nat}
    (hS : ∀ k, S' k → S k) (hroom : room' ≤ room) (hleast : least' ≤ least) :
    Follows w S' room' least' f p q where
  left c a c' hc hk hcount hp := by
    obtain ⟨hholds, hle⟩ := h.left hc (hS _ hk) (hcount.trans_le hroom) hp
    exact ⟨hholds, by omega⟩
  fails c e hc hk hcount hp := h.fails hc (hS _ hk) (hcount.trans_le hroom) hp
  answers c d a c' hc hk hcount hp hin := h.answers hc (hS _ hk) (hcount.trans_le hroom) hp hin
  failsToo hw c d e hc hk hcount hp := h.failsToo hw hc (hS _ hk) (hcount.trans_le hroom) hp

/-- Where there is no room, there is nothing to follow. -/
theorem cramped (hroom : room = 0) : Follows w S room least f p q where
  left _ _ _ _ _ hcount := by omega
  fails _ _ _ _ hcount := by omega
  answers _ _ _ _ _ _ hcount := by omega
  failsToo _ _ _ _ _ _ hcount := by omega

theorem pure {a : α} {b : β} (hb : b = f a) : Follows w S room 0 f (pure a) (pure b) where
  left c a' c' hc hk hcount hp := by
    obtain ⟨rfl, rfl⟩ := pure_eq_ok.1 hp
    exact ⟨hc, Nat.le_refl _⟩
  fails c e hc hk hcount hp := by cases hp
  answers c d a' c' hc hk hcount hp hin := by
    obtain ⟨rfl, rfl⟩ := pure_eq_ok.1 hp
    exact ⟨d, by rw [hb]; rfl, hc⟩
  failsToo hw c d e hc hk hcount hp := by cases hp

theorem bind {k : α → Parse γ} {l : β → Parse δ} {g : γ → δ} {least' : Nat}
    (hp : Follows w S room least f p q)
    (hk : ∀ a, Follows w Kind.Any (room - least) least' g (k a) (l (f a))) :
    Follows w S room (least + least') g (p >>= k) (q >>= l) where
  left c b c'' hc hS hcount hrun := by
    obtain ⟨a, c', ha, hb⟩ := bind_eq_ok.1 hrun
    obtain ⟨hc', hle⟩ := hp.left hc hS hcount ha
    obtain ⟨hc'', hle'⟩ := (hk a).left hc' trivial (by omega) hb
    exact ⟨hc'', by omega⟩
  fails c e hc hS hcount hrun := by
    rcases bind_eq_error.1 hrun with ha | ⟨a, c', ha, hb⟩
    · exact hp.fails hc hS hcount ha
    · obtain ⟨hc', hle⟩ := hp.left hc hS hcount ha
      exact (hk a).fails hc' trivial (by omega) hb
  answers c d b c'' hc hS hcount hrun hin := by
    obtain ⟨a, c', ha, hb⟩ := bind_eq_ok.1 hrun
    obtain ⟨hc', hle⟩ := hp.left hc.toHolds hS hcount ha
    obtain ⟨-, hle'⟩ := (hk a).left hc' trivial (by omega) hb
    obtain ⟨d', hd, hcd⟩ := hp.answers hc hS hcount ha (by omega)
    obtain ⟨d'', hd', hcd'⟩ := (hk a).answers hcd trivial (by omega) hb hin
    exact ⟨d'', by rw [bind_of_ok hd, hd'], hcd'⟩
  failsToo hw c d e hc hS hcount hrun := by
    rcases bind_eq_error.1 hrun with ha | ⟨a, c', ha, hb⟩
    · rcases hp.failsToo hw hc hS hcount ha with ⟨hfault, hend⟩ | hd
      · refine Or.inl ⟨hfault, fun hmore e' he' => ?_⟩
        rw [bind_of_error (hend hmore e' he')]
      · exact Or.inr (bind_of_error hd)
    · obtain ⟨hc', hle⟩ := hp.left hc.toHolds hS hcount ha
      have hin : w.tail.length < c'.count := by
        rw [w.strict_tail hw]
        exact c'.count_pos
      obtain ⟨d', hd, hcd⟩ := hp.answers hc hS hcount ha hin
      rw [bind_of_ok hd]
      exact (hk a).failsToo hw hcd trivial (by omega) hb

/-- Readers one after another, of which the second one is asked for what the first does not read. -/
theorem bind_of {k : α → Parse γ} {l : β → Parse δ} {g : γ → δ} {total : Nat}
    (hp : Follows w S room least f p q)
    (hk : ∀ a, Follows w Kind.Any (room - least) (total - least) g (k a) (l (f a))) :
    Follows w S room total g (p >>= k) (q >>= l) :=
  (hp.bind hk).mono (fun _ h => h) (Nat.le_refl _) (by omega)

/-- A reader that begins with a look at its lookahead. -/
theorem kind_bind {k : Kind → Parse α} {l : Kind → Parse β}
    (h : ∀ x, S x → Follows w (· = x) room least f (k x) (l x)) :
    Follows w S room least f (kind >>= k) (kind >>= l) where
  left c a c' hc hS hcount hrun := (h _ hS).left hc rfl hcount hrun
  fails c e hc hS hcount hrun := (h _ hS).fails hc rfl hcount hrun
  answers c d a c' hc hS hcount hrun hin := by
    rw [Parse.kind_bind, hc.kind]
    exact (h _ hS).answers hc rfl hcount hrun hin
  failsToo hw c d e hc hS hcount hrun := by
    rw [Parse.kind_bind, hc.kind]
    exact (h _ hS).failsToo hw hc rfl hcount hrun

/-- A reader that begins with the place of its lookahead. -/
theorem here_bind {k : Position → Parse α} {l : Position → Parse β}
    (h : ∀ x, S x → ∀ pos ∈ w.places, ∀ pos',
      (w.strict ∨ x ≠ .dedent → pos' = pos.down w.lines) →
        Follows w (· = x) room least f (k pos) (l pos')) :
    Follows w S room least f (here >>= k) (here >>= l) where
  left _ _ _ hc hS hcount hrun :=
    (h _ hS _ hc.lookahead_place _ fun _ => rfl).left hc rfl hcount hrun
  fails _ _ hc hS hcount hrun :=
    (h _ hS _ hc.lookahead_place _ fun _ => rfl).fails hc rfl hcount hrun
  answers _ _ _ _ hc hS hcount hrun hin :=
    (h _ hS _ hc.lookahead_place _ hc.lookahead.2).answers hc rfl hcount hrun hin
  failsToo hw _ _ _ hc hS hcount hrun :=
    (h _ hS _ hc.lookahead_place _ hc.lookahead.2).failsToo hw hc rfl hcount hrun

theorem advance (hS : ∀ x, S x → x ≠ .eof) : Follows w S room 1 id advance advance where
  left c a c' hc hk hcount hrun := by
    have hs := step_of_advance hrun
    exact ⟨(hc.step (hS _ hk) hs).1, Nat.le_of_eq (hc.count_step (hS _ hk) hs)⟩
  fails c e hc hk hcount hrun := Or.inl (hc.step_error (step_of_advance_error hrun)).1
  answers c d a c' hc hk hcount hrun hin := by
    obtain ⟨d', hd, hcd⟩ := hc.step (hS _ hk) (step_of_advance hrun) hin
    exact ⟨d', by rw [Parse.advance, hd]; rfl, hcd⟩
  failsToo hw c d e hc hk hcount hrun := by
    have hs := step_of_advance_error hrun
    refine Or.inl ⟨(hc.toHolds.step_error hs).1, fun hmore e' he' => ?_⟩
    rw [Parse.advance, hc.step_error hs (w.strict_tail hw) hmore he']
    rfl

theorem advance_bind (hS : ∀ x, S x → x ≠ .eof) {k : Unit → Parse α} {l : Unit → Parse β}
    (h : Follows w Kind.Any (room - 1) (least - 1) f (k ()) (l ())) :
    Follows w S room least f (Parse.advance >>= k) (Parse.advance >>= l) :=
  ((advance hS).bind fun _ => h).mono (fun _ h => h) (Nat.le_refl _) (by omega)

/-- Giving up at a place of the window. -/
theorem failAt {pos : Position} {cause : SyntaxError.Cause} (hcause : cause.isGrammar = true)
    (hpos : pos ∈ w.places) (hq : w.strict → ∀ d, q d = .error ⟨cause, pos⟩) :
    Follows w S room least f (failAt pos cause) q where
  left c a c' hc hk hcount hrun := by cases hrun
  fails c e hc hk hcount hrun := by
    cases hrun
    exact Or.inr ⟨hcause, hpos⟩
  answers c d a c' hc hk hcount hrun := by cases hrun
  failsToo hw c d e hc hk hcount hrun := by
    cases hrun
    exact Or.inr (hq hw d)

theorem fail {cause : SyntaxError.Cause} (hcause : cause.isGrammar = true) :
    Follows w S room least f (fail cause) (fail cause) where
  left c a c' hc hk hcount hrun := by cases hrun
  fails c e hc hk hcount hrun := by
    cases hrun
    exact Or.inr ⟨hcause, hc.lookahead_place⟩
  answers c d a c' hc hk hcount hrun := by cases hrun
  failsToo hw c d e hc hk hcount hrun := by
    cases hrun
    have hpos := hc.lookahead.2 (Or.inl hw)
    rw [w.strict_lines hw, Position.down_zero] at hpos
    exact Or.inr (by rw [Parse.fail, hpos])

/-- A reader that looks for a class. The second reader may know one that the first does not, but
none that hides the conversion to text. -/
theorem class_bind {word : String} {k : Option Class → Parse α} {l : Option Class → Parse β}
    (hsome : ∀ cls, Follows w S room least f (k (some cls)) (l (some (cls.down w.lines))))
    (hnone : ∀ found, (w.strict ∨ word = conversionName → found = none) →
      Follows w S room least f (k none) (l found)) :
    Follows w S room least f (get >>= fun c => k (c.class? word))
      (get >>= fun c => l (c.class? word)) := by
  have hextra : w.strict ∨ word = conversionName →
      (w.known.find? fun k => k.name == word) = none := by
    rintro (hw | rfl)
    · rw [w.strict_known hw]
      rfl
    · rw [List.find?_eq_none]
      intro cls hcls hname
      exact w.conversion cls hcls (eq_of_beq hname)
  have hfound : ∀ c d, w.Excerpt c d →
      Follows w S room least f (k (c.class? word)) (l (d.class? word)) := by
    intro c d hc
    rw [hc.class? word]
    cases c.class? word with
    | some cls => exact hsome cls
    | none => exact hnone _ hextra
  have hlone : ∀ found, ∃ found', Follows w S room least f (k found) (l found') := by
    intro found
    cases found with
    | some cls => exact ⟨_, hsome cls⟩
    | none => exact ⟨none, hnone none fun _ => rfl⟩
  constructor
  case left =>
    intro c a c' hc hS hcount hrun
    obtain ⟨_, h⟩ := hlone (c.class? word)
    exact h.left hc hS hcount hrun
  case fails =>
    intro c e hc hS hcount hrun
    obtain ⟨_, h⟩ := hlone (c.class? word)
    exact h.fails hc hS hcount hrun
  case answers =>
    intro c d a c' hc hS hcount hrun hin
    exact (hfound c d hc).answers hc hS hcount hrun hin
  case failsToo =>
    intro hw c d e hc hS hcount hrun
    exact (hfound c d hc).failsToo hw hc hS hcount hrun

/-- A class that is completed is known to both cursors. -/
theorem learn (cls : Class) :
    Follows w S room 0 id (modify fun c => { c with classes := cls :: c.classes })
      (modify fun c => { c with classes := cls.down w.lines :: c.classes }) where
  left c a c' hc hk hcount hrun := by
    cases hrun
    exact ⟨⟨hc.fault, hc.ends, hc.suffix⟩, Nat.le_refl _⟩
  fails c e hc hk hcount hrun := by cases hrun
  answers c d a c' hc hk hcount hrun hin := by
    cases hrun
    refine ⟨_, rfl, ⟨hc.fault, hc.ends, hc.suffix⟩, hc.tokens, hc.other, ?_⟩
    exact congrArg (cls.down w.lines :: ·) hc.classes
  failsToo hw c d e hc hk hcount hrun := by cases hrun

/-- A reader that first asks whether its lookahead is of a given kind. -/
theorem sees_bind {x : Kind} {k : Bool → Parse α} {l : Bool → Parse β}
    (hyes : S x → Follows w (· = x) room least f (k true) (l true))
    (hno : Follows w (fun y => S y ∧ y ≠ x) room least f (k false) (l false)) :
    Follows w S room least f (sees x >>= k) (sees x >>= l) := by
  have hrun : ∀ {γ : Type} (m : Bool → Parse γ), (sees x >>= m) = kind >>= fun y => m (y == x) :=
    fun _ => rfl
  rw [hrun, hrun]
  apply kind_bind
  intro y hy
  by_cases hxy : y = x
  · subst hxy
    rw [beq_self_eq_true]
    exact hyes hy
  · rw [beq_eq_false_iff_ne.2 hxy]
    exact hno.mono (fun _ h => h ▸ ⟨hy, hxy⟩) (Nat.le_refl _) (Nat.le_refl _)

/-- A reader that first reads a token if it is of a given kind. -/
theorem accept_bind {x : Kind} (hx : x ≠ .eof) {k : Bool → Parse α} {l : Bool → Parse β}
    (hyes : S x → Follows w Kind.Any (room - 1) (least - 1) f (k true) (l true))
    (hno : Follows w (fun y => S y ∧ y ≠ x) room least f (k false) (l false)) :
    Follows w S room least f (accept x >>= k) (accept x >>= l) := by
  have hrun : ∀ {γ : Type} (m : Bool → Parse γ), (accept x >>= m) =
      sees x >>= fun found => if found then (Parse.advance >>= fun _ => m true) else m false := by
    intro γ m
    rw [accept, bind_assoc]
    congr
    funext found
    cases found with
    | true => simp only [if_true, bind_assoc, pure_bind]
    | false => simp only [Bool.false_eq_true, if_false, pure_bind]
  rw [hrun, hrun]
  apply sees_bind
  · intro hS
    apply advance_bind
    · rintro y rfl
      exact hx
    · exact hyes hS
  · exact hno

theorem expect {x : Kind} (hx : x ≠ .eof) : Follows w S room 1 id (expect x) (expect x) := by
  apply kind_bind
  intro y hy
  by_cases hxy : y = x
  · rw [if_pos hxy]
    exact advance fun z h => h ▸ hxy ▸ hx
  · rw [if_neg hxy]
    exact fail rfl

theorem name : Follows w S room 1 id name name := by
  apply kind_bind
  intro y hy
  cases y with
  | name word =>
    apply advance_bind
    · rintro z rfl
      simp
    · exact pure rfl
  | _ => exact fail rfl

/-- A reader that first reads a token of a given kind. -/
theorem expect_bind {x : Kind} (hx : x ≠ .eof) {k : Unit → Parse α} {l : Unit → Parse β}
    (h : S x → Follows w Kind.Any (room - 1) (least - 1) f (k ()) (l ())) :
    Follows w S room least f (Parse.expect x >>= k) (Parse.expect x >>= l) := by
  rw [Parse.expect, bind_assoc, bind_assoc]
  apply kind_bind
  intro y hy
  by_cases hxy : y = x
  · subst hxy
    rw [if_pos rfl]
    apply advance_bind
    · rintro _ rfl
      exact hx
    · exact h hy
  · rw [if_neg hxy]
    exact fail rfl

end Parse.Follows

end Mython
