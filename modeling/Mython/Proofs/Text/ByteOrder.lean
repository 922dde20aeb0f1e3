import Mathlib.Algebra.Group.Nat.Defs
import Mathlib.Data.Char
import Mathlib.Data.List.Lex
import Mython.Proofs.Text.Utf8

namespace Mython

namespace Utf8

/-- Two runs of bytes part, and where they do, the first one has the lesser byte. -/
def Parts (run other : List UInt8) : Prop :=
  ∃ common b c more more', run = common ++ b :: more ∧ other = common ++ c :: more' ∧ b < c

variable {run other : List UInt8} {m n : Nat}

/-- What stands behind two runs that part does not matter. -/
theorem Parts.lt (h : Parts run other) (rest rest' : List UInt8) :
    run ++ rest < other ++ rest' := by
  obtain ⟨common, b, c, more, more', rfl, rfl, hbc⟩ := h
  rw [List.append_assoc, List.append_assoc]
  exact List.append_left_lt (List.Lex.rel hbc)

theorem ofNat_lt (h : m < n) (hn : n < 256) : UInt8.ofNat m < UInt8.ofNat n := by
  rw [UInt8.lt_iff_toNat_lt, UInt8.toNat_ofNat_of_lt' hn, UInt8.toNat_ofNat_of_lt' (h.trans hn)]
  exact h

/-- Runs part at their first byte, or behind it. -/
theorem Parts.digit (hn : n < 256) (h : m < n ∨ m = n ∧ Parts run other) :
    Parts (.ofNat m :: run) (.ofNat n :: other) := by
  rcases h with hlt | ⟨rfl, common, b, c, more, more', rfl, rfl, hbc⟩
  · exact ⟨[], .ofNat m, .ofNat n, run, other, rfl, rfl, ofNat_lt hlt hn⟩
  · exact ⟨.ofNat m :: common, b, c, more, more', rfl, rfl, hbc⟩

/-- Of two numbers with two digits each, the lesser one has the lesser first digit, or the same one
and the lesser last digit. -/
theorem digits_of_lt {base first first' last last' : Nat} (hlast : last' < base)
    (h : last + base * first < last' + base * first') :
    first < first' ∨ first = first' ∧ last < last' := by
  rcases Nat.lt_trichotomy first first' with hlt | rfl | hgt
  · exact Or.inl hlt
  · exact Or.inr ⟨rfl, Nat.lt_of_add_lt_add_right h⟩
  · have hmore : base * first' + base ≤ base * first := Nat.mul_le_mul_left base hgt
    omega

/-- The bytes behind the first one of a character. Each holds six bits. -/
def trail : Nat → Nat → List UInt8
  | 0, _ => []
  | k + 1, v => .ofNat (v / 64 ^ k % 64 + 0x80) :: trail k v

/-- Codes that differ in what these bytes hold part there. -/
theorem trail_parts {k v w : Nat} (h : v % 64 ^ k < w % 64 ^ k) :
    Parts (trail k v) (trail k w) := by
  induction k with
  | zero => simp [Nat.mod_one] at h
  | succ k ih =>
    rw [Nat.pow_succ, Nat.mod_mul, Nat.mod_mul] at h
    have hcases := digits_of_lt (Nat.mod_lt w (Nat.pow_pos (by decide))) h
    exact .digit (by omega) (hcases.imp (by omega) fun h => ⟨by omega, ih h.2⟩)

/-- How the first byte is marked in front of a given number of bytes, and for which codes. -/
inductive Form : Nat → Nat → Nat → Prop
  | one {v : Nat} (h : v ≤ 0x7f) : Form v 0 0
  | two {v : Nat} (low : 0x7f < v) (h : v ≤ 0x7ff) : Form v 1 0xc0
  | three {v : Nat} (low : 0x7ff < v) (h : v ≤ 0xffff) : Form v 2 0xe0
  | four {v : Nat} (low : 0xffff < v) (h : v < 0x110000) : Form v 3 0xf0

/-- Every character is written in one of the forms. -/
theorem encodeChar_form (c : Char) : ∃ k mark, Form c.val.toNat k mark ∧
    String.utf8EncodeChar c = .ofNat (c.val.toNat / 64 ^ k + mark) :: trail k c.val.toNat := by
  have hvalid : c.val.toNat < 0x110000 := by
    rcases c.valid with hc | hc
    · exact hc.trans (by decide)
    · exact hc.2
  rw [String.utf8EncodeChar.eq_1]
  generalize c.val.toNat = v at hvalid ⊢
  split
  case isTrue h => exact ⟨0, 0, .one h, by simp [trail]⟩
  split
  case isTrue h =>
    have hlead : v / 64 % 0x20 = v / 64 := Nat.mod_eq_of_lt (by omega)
    exact ⟨1, 0xc0, .two (by omega) h, by simp [trail, hlead]⟩
  split
  case isTrue h =>
    have hlead : v / 4096 % 0x10 = v / 4096 := Nat.mod_eq_of_lt (by omega)
    exact ⟨2, 0xe0, .three (by omega) h, by simp [trail, hlead]⟩
  case isFalse h =>
    have hlead : v / 262144 % 0x08 = v / 262144 := Nat.mod_eq_of_lt (by omega)
    exact ⟨3, 0xf0, .four (by omega) hvalid, by simp [trail, hlead]⟩

namespace Form

variable {v w k j mark mark' : Nat}

/-- The first byte, with its mark, is no greater than a byte can be. -/
theorem lead_lt (h : Form v k mark) : v / 64 ^ k + mark < 256 := by
  cases h <;> omega

/-- A lesser code has the same form, or a lesser first byte. -/
theorem eq_or_lead_lt (h : Form v k mark) (h' : Form w j mark') (hlt : v < w) :
    (k = j ∧ mark = mark') ∨ v / 64 ^ k + mark < w / 64 ^ j + mark' := by
  cases h <;> cases h' <;> omega

end Form

/-- The bytes of a lesser character part from those of a greater one, and are the lesser ones. -/
theorem encodeChar_parts {c d : Char} (h : c < d) :
    Parts (String.utf8EncodeChar c) (String.utf8EncodeChar d) := by
  have hlt : c.val.toNat < d.val.toNat := h
  obtain ⟨k, mark, hc, hcode⟩ := encodeChar_form c
  obtain ⟨j, mark', hd, hcode'⟩ := encodeChar_form d
  rw [hcode, hcode']
  refine .digit hd.lead_lt ?_
  rcases hc.eq_or_lead_lt hd hlt with ⟨rfl, rfl⟩ | hlead
  · rw [← Nat.mod_add_div c.val.toNat (64 ^ k), ← Nat.mod_add_div d.val.toNat (64 ^ k)] at hlt
    have hcases := digits_of_lt (Nat.mod_lt _ (Nat.pow_pos (by decide))) hlt
    exact hcases.imp (by omega) fun h => ⟨by omega, trail_parts h.2⟩
  · exact Or.inl hlead

/-- A lesser list of characters has the lesser bytes. -/
theorem flatMap_lt {cs ds : List Char} (h : cs < ds) :
    cs.flatMap String.utf8EncodeChar < ds.flatMap String.utf8EncodeChar := by
  induction h with
  | @nil d ds =>
    rw [List.flatMap_nil, List.flatMap_cons]
    cases hd : String.utf8EncodeChar d with
    | nil => exact absurd hd String.utf8EncodeChar_ne_nil
    | cons b more => exact List.nil_lt_cons b _
  | cons _ ih =>
    rw [List.flatMap_cons, List.flatMap_cons]
    exact List.append_left_lt ih
  | rel hcd =>
    rw [List.flatMap_cons, List.flatMap_cons]
    exact (encodeChar_parts hcd).lt _ _

/-- A map that keeps the order of lists of characters also reflects it. -/
theorem lt_iff_of_keeps {γ : Type} {r : γ → γ → Prop} [Std.Asymm r] {f : List Char → γ}
    (hf : ∀ cs ds, cs < ds → r (f cs) (f ds)) {cs ds : List Char} :
    cs < ds ↔ r (f cs) (f ds) := by
  refine ⟨hf cs ds, fun h => ?_⟩
  rcases lt_trichotomy cs ds with hlt | rfl | hgt
  · exact hlt
  · exact absurd h (Std.Asymm.asymm _ _ h)
  · exact absurd h (Std.Asymm.asymm _ _ (hf ds cs hgt))

/-- Texts are ordered by their bytes. -/
theorem lt_iff_utf8_lt (s t : String) : s < t ↔ utf8 s < utf8 t := by
  rw [utf8_eq_flatMap, utf8_eq_flatMap]
  exact lt_iff_of_keeps (r := (· < ·)) fun _ _ => flatMap_lt

/-- The code points of a text. -/
def codePoints (s : String) : List Nat := s.toList.map Char.toNat

/-- Texts are ordered by their code points. -/
theorem lt_iff_codePoints_lt (s t : String) : s < t ↔ codePoints s < codePoints t := by
  have hchar : ∀ c d : Char, c < d → c.toNat < d.toNat := fun _ _ h => h
  exact lt_iff_of_keeps (r := (· < ·)) (f := List.map Char.toNat) fun _ _ => List.map_lt hchar

end Utf8

end Mython
