import Mython.Proofs.Text.ByteOrder
import Mython.Store.Order

namespace Mython

/-- One of three statements holds, and the other two do not. -/
def ExactlyOne (p q r : Prop) : Prop := (p ∨ q ∨ r) ∧ ¬ (p ∧ q) ∧ ¬ (q ∧ r) ∧ ¬ (p ∧ r)

namespace Object

/-- Two numbers, two texts or two truths. -/
inductive Alike : Object → Object → Prop
  | numbers (a b : Number) : Alike (.number a) (.number b)
  | texts (s t : String) : Alike (.text s) (.text t)
  | truths (p q : Bool) : Alike (.truth p) (.truth q)

variable {a b c : Object}

theorem less_number (a b : Number) : (number a).less (.number b) = true ↔ a.toInt < b.toInt := by
  rw [less, decide_eq_true_iff, Int64.lt_iff_toInt_lt]

theorem less_text (s t : String) : (text s).less (.text t) = true ↔ utf8 s < utf8 t := by
  rw [less, decide_eq_true_iff, Utf8.lt_iff_utf8_lt]

theorem less_truth (p q : Bool) : (truth p).less (.truth q) = true ↔ p = false ∧ q = true := by
  rw [less, Bool.and_eq_true, Bool.not_eq_true']

theorem equal_number (a b : Number) : (number a).equal (.number b) = true ↔ a = b := beq_iff_eq

theorem equal_text (s t : String) : (text s).equal (.text t) = true ↔ s = t := beq_iff_eq

theorem equal_truth (p q : Bool) : (truth p).equal (.truth q) = true ↔ p = q := beq_iff_eq

/-- Only what is alike is equal. -/
theorem Alike.of_equal (h : a.equal b = true) : a.Alike b := by
  rw [equal.eq_def] at h
  split at h
  · exact .numbers _ _
  · exact .texts _ _
  · exact .truths _ _
  · cases h

/-- Only what is alike is less. -/
theorem Alike.of_less (h : a.less b = true) : a.Alike b := by
  rw [less.eq_def] at h
  split at h
  · exact .numbers _ _
  · exact .texts _ _
  · exact .truths _ _
  · cases h

/-- Of two values that are alike one is less, or they are equal. -/
theorem Alike.exactlyOne (h : a.Alike b) :
    ExactlyOne (a.less b = true) (a.equal b = true) (b.less a = true) := by
  cases h with
  | numbers a b =>
    rw [less_number, less_number, equal_number, ← Int64.toInt_inj]
    simp only [ExactlyOne]
    omega
  | texts s t =>
    rw [less_text, less_text, equal_text]
    refine ⟨?_, ?_, ?_, fun h => List.lt_asymm h.1 h.2⟩
    · rw [← Utf8.lt_iff_utf8_lt, ← Utf8.lt_iff_utf8_lt, ← String.toList_inj]
      exact lt_trichotomy s.toList t.toList
    · rintro ⟨hlt, rfl⟩
      exact List.lt_irrefl _ hlt
    · rintro ⟨rfl, hlt⟩
      exact List.lt_irrefl _ hlt
  | truths p q =>
    rw [less_truth, less_truth, equal_truth]
    cases p <;> cases q <;> simp [ExactlyOne]

theorem less_trans (h : a.less b = true) (h' : b.less c = true) : a.less c = true := by
  cases Alike.of_less h with
  | numbers a b =>
    cases Alike.of_less h' with
    | numbers _ c =>
      rw [less_number] at h h' ⊢
      exact Int.lt_trans h h'
  | texts s t =>
    cases Alike.of_less h' with
    | texts _ u =>
      rw [less_text, ← Utf8.lt_iff_utf8_lt] at h h' ⊢
      exact lt_trans (α := List Char) h h'
  | truths p q =>
    cases Alike.of_less h' with
    | truths _ r =>
      rw [less_truth] at h h'
      rw [h.2] at h'
      cases h'.1

end Object

/-- The kinds whose values are ordered among themselves. -/
def ValueKind.isOrdered : ValueKind → Bool
  | number | text | truth => true
  | none | cls | inst => false

namespace Heap

variable {h : Heap} {x y z : Handle}

/-- Two values of one kind, which is an ordered one. -/
def Comparable (h : Heap) (x y : Handle) : Prop :=
  h.kind x = h.kind y ∧ (h.kind x).isOrdered = true

theorem comparable_iff : h.Comparable x y ↔
    ∃ a b, h.object? x = some a ∧ h.object? y = some b ∧ a.Alike b := by
  constructor
  · rintro ⟨hsame, hordered⟩
    rw [kind] at hsame hordered
    rw [kind] at hsame
    cases hx : h.object? x with
    | none =>
      rw [hx] at hordered
      cases hordered
    | some a =>
      cases hy : h.object? y with
      | none =>
        rw [hsame, hy] at hordered
        cases hordered
      | some b =>
        rw [hx, hy] at hsame
        rw [hx] at hordered
        refine ⟨a, b, rfl, rfl, ?_⟩
        cases a <;> cases hordered <;> cases b <;> cases hsame
        · exact .numbers _ _
        · exact .texts _ _
        · exact .truths _ _
  · rintro ⟨a, b, hx, hy, hab⟩
    rw [Comparable, kind, kind, hx, hy]
    cases hab <;> exact ⟨rfl, rfl⟩

theorem less_eq_true : h.less x y = true ↔
    ∃ a b, h.object? x = some a ∧ h.object? y = some b ∧ a.less b = true := by
  rw [less]
  cases h.object? x <;> cases h.object? y <;> simp

theorem equal_eq_true : h.equal x y = true ↔
    ∃ a b, h.object? x = some a ∧ h.object? y = some b ∧ a.equal b = true := by
  rw [equal]
  cases h.object? x <;> cases h.object? y <;> simp

theorem Comparable.symm (hxy : h.Comparable x y) : h.Comparable y x :=
  ⟨hxy.1.symm, hxy.1 ▸ hxy.2⟩

theorem Comparable.of_less (hless : h.less x y = true) : h.Comparable x y := by
  obtain ⟨a, b, hx, hy, hab⟩ := less_eq_true.1 hless
  exact comparable_iff.2 ⟨a, b, hx, hy, .of_less hab⟩

theorem Comparable.of_equal (hequal : h.equal x y = true) : h.Comparable x y := by
  obtain ⟨a, b, hx, hy, hab⟩ := equal_eq_true.1 hequal
  exact comparable_iff.2 ⟨a, b, hx, hy, .of_equal hab⟩

theorem Comparable.exactlyOne (hxy : h.Comparable x y) :
    ExactlyOne (h.less x y = true) (h.equal x y = true) (h.less y x = true) := by
  obtain ⟨a, b, hx, hy, hab⟩ := comparable_iff.1 hxy
  rw [less, less, equal, hx, hy]
  exact hab.exactlyOne

theorem less_trans (hxy : h.less x y = true) (hyz : h.less y z = true) : h.less x z = true := by
  obtain ⟨a, b, hx, hy, hab⟩ := less_eq_true.1 hxy
  obtain ⟨b', c, hy', hz, hbc⟩ := less_eq_true.1 hyz
  rw [hy] at hy'
  cases hy'
  exact less_eq_true.2 ⟨a, c, hx, hz, Object.less_trans hab hbc⟩

/-- What is not greater is less or equal. -/
theorem Comparable.atMost_iff (hxy : h.Comparable x y) :
    h.holds .atMost x y = true ↔ h.holds .less x y = true ∨ h.holds .equal x y = true := by
  obtain ⟨hsome, -, hequal, hless⟩ := hxy.exactlyOne
  show (!h.less y x) = true ↔ h.less x y = true ∨ h.equal x y = true
  rw [Bool.not_eq_true', ← Bool.not_eq_true]
  constructor
  · intro hnot
    exact hsome.imp id fun hrest => hrest.resolve_right hnot
  · rintro (hlt | heq) hgt
    · exact hless ⟨hlt, hgt⟩
    · exact hequal ⟨heq, hgt⟩

/-- Values that are not of one ordered kind are neither equal nor ordered. -/
theorem holds_of_not_comparable (hxy : ¬ h.Comparable x y) :
    h.holds .equal x y = false ∧ h.holds .less x y = false ∧ h.holds .greater x y = false ∧
      h.holds .notEqual x y = true ∧ h.holds .atMost x y = true ∧ h.holds .atLeast x y = true := by
  have hequal : h.equal x y = false := Bool.eq_false_iff.2 fun heq => hxy (.of_equal heq)
  have hless : h.less x y = false := Bool.eq_false_iff.2 fun hlt => hxy (.of_less hlt)
  have hgreater : h.less y x = false :=
    Bool.eq_false_iff.2 fun hgt => hxy (Comparable.of_less hgt).symm
  simp only [holds, hequal, hless, hgreater, Bool.not_false, and_self]

/-- The six comparisons come from one order for each kind. Two numbers, two texts or two truths are
equal, or the first one is less, or the second one is, and only one of these; to be less is
transitive; the other comparisons are put together from these two. Numbers are compared as integers,
`False` is less than `True`, and texts are compared by their bytes, which is by their code points.
Values of different kinds and values that are absent, expired, classes or instances are neither
equal nor less nor greater, not even a value and itself, and different, at most and at least all
hold of them. -/
theorem comparisons_from_orders (h : Heap) (x y z : Handle) :
    (h.Comparable x y →
      ExactlyOne (h.holds .less x y = true) (h.holds .equal x y = true)
        (h.holds .greater x y = true) ∧
      (h.holds .atMost x y = true ↔ h.holds .less x y = true ∨ h.holds .equal x y = true)) ∧
    (h.holds .less x y = true → h.holds .less y z = true → h.holds .less x z = true) ∧
    (h.holds .atLeast x y = true ↔ h.holds .atMost y x = true) ∧
    (h.holds .notEqual x y = true ↔ ¬ h.holds .equal x y = true) ∧
    (∀ a b, h.object? x = some (.number a) → h.object? y = some (.number b) →
      (h.holds .less x y = true ↔ a.toInt < b.toInt) ∧ (h.holds .equal x y = true ↔ a = b)) ∧
    (∀ s t, h.object? x = some (.text s) → h.object? y = some (.text t) →
      (h.holds .less x y = true ↔ utf8 s < utf8 t) ∧
      (utf8 s < utf8 t ↔ Utf8.codePoints s < Utf8.codePoints t) ∧
      (h.holds .equal x y = true ↔ s = t)) ∧
    (∀ p q, h.object? x = some (.truth p) → h.object? y = some (.truth q) →
      (h.holds .less x y = true ↔ p = false ∧ q = true) ∧ (h.holds .equal x y = true ↔ p = q)) ∧
    (¬ h.Comparable x y →
      h.holds .equal x y = false ∧ h.holds .less x y = false ∧ h.holds .greater x y = false ∧
      h.holds .notEqual x y = true ∧ h.holds .atMost x y = true ∧
      h.holds .atLeast x y = true) := by
  refine ⟨fun hxy => ⟨hxy.exactlyOne, hxy.atMost_iff⟩, less_trans, Iff.rfl, ?_, ?_, ?_, ?_,
    holds_of_not_comparable⟩
  · show (!h.equal x y) = true ↔ ¬ h.equal x y = true
    rw [Bool.not_eq_true', ← Bool.not_eq_true]
  · intro a b hx hy
    rw [holds, holds, less, equal, hx, hy]
    exact ⟨Object.less_number a b, Object.equal_number a b⟩
  · intro s t hx hy
    rw [holds, holds, less, equal, hx, hy]
    refine ⟨Object.less_text s t, ?_, Object.equal_text s t⟩
    rw [← Utf8.lt_iff_utf8_lt, Utf8.lt_iff_codePoints_lt]
  · intro p q hx hy
    rw [holds, holds, less, equal, hx, hy]
    exact ⟨Object.less_truth p q, Object.equal_truth p q⟩

/-- Two texts at places of their own: the last character of the first plane and the first character
of the next one. -/
def planes : Heap := ((empty.alloc (.text "\uffff")).2.alloc (.text "𐀀")).2

/-- The text of the next plane is the greater one, although the halves that stand for its character
in 16 bits are less than the other character. A text is not compared with the absent value. -/
theorem comparisons_from_orders_planes :
    planes.holds .less (.own 0) (.own 1) = true ∧ planes.holds .atMost (.own 0) (.own 1) = true ∧
      planes.holds .equal .absent .absent = false ∧
      planes.holds .atLeast (.own 0) .absent = true := by
  obtain ⟨hsame, -, -, -, -, htexts, -, -⟩ :=
    comparisons_from_orders planes (.own 0) (.own 1) (.own 0)
  have hless : planes.holds .less (.own 0) (.own 1) = true := by
    obtain ⟨hbytes, hpoints, -⟩ := htexts "\uffff" "𐀀" rfl rfl
    exact hbytes.2 (hpoints.2 (by decide))
  have hatMost := (hsame ⟨rfl, rfl⟩).2.2 (Or.inl hless)
  obtain ⟨-, -, -, -, -, -, -, hnone⟩ := comparisons_from_orders planes .absent .absent .absent
  obtain ⟨-, -, -, -, -, -, -, hmixed⟩ := comparisons_from_orders planes (.own 0) .absent .absent
  exact ⟨hless, hatMost, (hnone (by rintro ⟨-, ⟨⟩⟩)).1, (hmixed (by rintro ⟨⟨⟩, -⟩)).2.2.2.2.2⟩

end Heap

end Mython
