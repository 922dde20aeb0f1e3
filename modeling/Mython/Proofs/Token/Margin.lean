import Mathlib.Data.List.Infix
import Mython.Proofs.Text.Utf8
import Mython.Proofs.Token.Reading

namespace Mython

namespace Margin

/-- The text behind its first `n` line breaks. -/
def behindBreaks : Nat → List UInt8 → List UInt8
  | 0, text => text
  | n + 1, text => behindBreaks n ((text.dropWhile (· != Byte.lineFeed)).drop 1)

/-- The spaces in the margin of a physical line; lines count from one. -/
def spacesAt (bytes : List UInt8) (line : Nat) : Nat :=
  ((behindBreaks (line - 1) bytes).takeWhile Byte.isInlineBlank).count Byte.space

/-- A text behind which a physical line starts. -/
def EndsLine (text : List UInt8) : Prop := text = [] ∨ text.getLast? = some Byte.lineFeed

theorem EndsLine.append {text more : List UInt8} (ht : EndsLine text) (hm : EndsLine more) :
    EndsLine (text ++ more) := by
  rcases hm with rfl | hm
  · simpa using ht
  · right
    rw [List.getLast?_append, hm]
    rfl

theorem behindBreaks_append {text : List UInt8} (h : EndsLine text) (rest : List UInt8) :
    behindBreaks (text.count Byte.lineFeed) (text ++ rest) = rest := by
  induction text with
  | nil => rfl
  | cons b text ih =>
    have htail : EndsLine text := by
      rcases h with h | h
      · cases h
      · cases text with
        | nil => exact Or.inl rfl
        | cons c text => exact Or.inr (by simpa [List.getLast?_cons_cons] using h)
    by_cases hb : b = Byte.lineFeed
    · subst hb
      simpa [behindBreaks] using ih htail
    · have hcount : 0 < text.count Byte.lineFeed := by
        rw [List.count_pos_iff]
        rcases h with h | h
        · cases h
        · cases text with
          | nil => simp [hb] at h
          | cons c text => exact List.mem_of_getLast? (by simpa [List.getLast?_cons_cons] using h)
      obtain ⟨n, hn⟩ := Nat.exists_eq_succ_of_ne_zero (Nat.ne_of_gt hcount)
      have hne : (b != Byte.lineFeed) = true := by simpa using hb
      have ih' := ih htail
      rw [hn] at ih'
      rw [List.count_cons_of_ne hb, hn, List.cons_append, behindBreaks, List.dropWhile_cons,
        if_pos hne]
      exact ih'

theorem line_afterAll (p : Position) (run : List UInt8) :
    (p.afterAll run).line = p.line + run.count Byte.lineFeed := by
  induction run generalizing p with
  | nil => rfl
  | cons b run ih =>
    rw [Position.afterAll_cons, ih, Position.after]
    by_cases hb : b = Byte.lineFeed
    · subst hb
      simp [Byte.lineFeed]
      omega
    · have hb' : b ≠ 0x0a := hb
      rw [if_neg hb', List.count_cons_of_ne hb]

/-- Reading on never comes back to the same place. -/
theorem afterAll_ne {p : Position} {run : List UInt8} (h : run ≠ []) : p.afterAll run ≠ p := by
  by_cases hc : run.count Byte.lineFeed = 0
  · have hcol : (p.afterAll run).column = p.column + run.length := by
      clear h
      induction run generalizing p with
      | nil => rfl
      | cons b run ih =>
        have hb : b ≠ 0x0a := by
          rintro rfl
          simp [Byte.lineFeed] at hc
        have hc' : run.count Byte.lineFeed = 0 := by
          rw [List.count_cons] at hc
          omega
        rw [Position.afterAll_cons, ih hc', Position.after, if_neg hb, List.length_cons]
        simp only
        omega
    intro he
    rw [he] at hcol
    exact h (List.length_eq_zero_iff.mp (by omega))
  · intro he
    have hline := line_afterAll p run
    rw [he] at hline
    omega

theorem count_lineFeed_inline {run : List UInt8} (h : ∀ b ∈ run, Byte.isInlineBlank b = true) :
    run.count Byte.lineFeed = 0 := by
  rw [List.count_eq_zero]
  intro hm
  exact absurd (h _ hm) (by decide)

/-- A line whose text starts behind inline blanks has the spaces among them as its margin. -/
theorem spacesAt_afterAll {done margin body : List UInt8} (hd : EndsLine done)
    (hm : ∀ b ∈ margin, Byte.isInlineBlank b = true)
    (hb : ∀ b ∈ body.head?, Byte.isBlank b = false) :
    spacesAt (done ++ margin ++ body) (Position.start.afterAll (done ++ margin)).line =
      margin.count Byte.space := by
  have hline : (Position.start.afterAll (done ++ margin)).line - 1 = done.count Byte.lineFeed := by
    rw [line_afterAll, List.count_append, count_lineFeed_inline hm]
    simp only [Position.start]
    omega
  have htake : body.takeWhile Byte.isInlineBlank = [] := by
    cases body with
    | nil => rfl
    | cons b body =>
      have h := hb b rfl
      simp only [Byte.isBlank, Bool.or_eq_false_iff] at h
      simp [h.1]
  rw [spacesAt, hline, List.append_assoc, behindBreaks_append hd, List.takeWhile_append_of_pos hm,
    htake, List.append_nil]

/-- The next logical line of a text: blank lines, then its margin, then the rest of the text from
its first token on. -/
def Opens (text : List UInt8) (spaces : Nat) (body : List UInt8) : Prop :=
  ∃ skipped margin, text = skipped ++ margin ++ body ∧
    (∀ b ∈ skipped, Byte.isBlank b = true) ∧ EndsLine skipped ∧
    (∀ b ∈ margin, Byte.isInlineBlank b = true) ∧ spaces = margin.count Byte.space ∧
    body ≠ [] ∧ ∀ b ∈ body.head?, Byte.isBlank b = false

/-- How far a text has been read: between logical lines, the last of which has some spaces in its
margin, or inside a line with some. -/
inductive Stage where
  | between (previous : Nat)
  | inside (spaces : Nat)

/-- What is left of a text at a stage that reading gets to without a fault and without the word that
ends a program. -/
inductive Gets (bytes : List UInt8) : Stage → List UInt8 → Prop
  | start : Gets bytes (.between 0) bytes
  | line {previous spaces : Nat} {rest body : List UInt8} (hg : Gets bytes (.between previous) rest)
      (ho : Opens rest spaces body) (heven : spaces % indentWidth = 0)
      (hle : spaces ≤ previous + indentWidth) : Gets bytes (.inside spaces) body
  | token {spaces : Nat} {rest more : List UInt8} {first : UInt8} {kind : Token.Kind}
      (hg : Gets bytes (.inside spaces) rest)
      (hr : rest.dropWhile Byte.isInlineBlank = first :: more)
      (hk : (Lexeme.read first more).kind = .ok kind) (hc : kind.isContent = true) :
      Gets bytes (.inside spaces) ((first :: more).drop (Lexeme.read first more).length)
  | ending {spaces : Nat} {rest more : List UInt8} (hg : Gets bytes (.inside spaces) rest)
      (hr : rest.dropWhile Byte.isInlineBlank = Byte.lineFeed :: more) :
      Gets bytes (.between spaces) more

/-- A logical line that cannot stand where it stands. -/
def BreaksLayout (previous spaces : Nat) : Prop :=
  spaces % indentWidth ≠ 0 ∨ previous + indentWidth < spaces

theorem spaces_snoc (blanks : List UInt8) (b : UInt8) :
    Scanner.spaces (blanks ++ [b]) = if b = Byte.lineFeed then 0
      else if b = Byte.space then Scanner.spaces blanks + 1 else Scanner.spaces blanks := by
  simp [Scanner.spaces, List.foldl_append]

theorem spaces_of_endsLine {run : List UInt8} (h : EndsLine run) : Scanner.spaces run = 0 := by
  rcases h with rfl | h
  · rfl
  · obtain ⟨front, rfl⟩ := List.getLast?_eq_some_iff.mp h
    rw [spaces_snoc, if_pos rfl]

theorem spaces_append_inline (run : List UInt8) {margin : List UInt8}
    (hm : ∀ b ∈ margin, Byte.isInlineBlank b = true) :
    Scanner.spaces (run ++ margin) = Scanner.spaces run + margin.count Byte.space := by
  induction margin using List.reverseRecOn with
  | nil => simp
  | append_singleton margin b ih =>
    have hb : b ≠ Byte.lineFeed := by
      rintro rfl
      exact absurd (hm Byte.lineFeed (by simp)) (by decide)
    have ih' := ih fun c hc => hm c (by simp [hc])
    rw [← List.append_assoc, spaces_snoc, if_neg hb, ih', List.count_append, List.count_singleton]
    by_cases hs : b = Byte.space
    · simp [hs]
      omega
    · simp [hs]

/-- Of a run of blanks, the part behind the last line break is the margin. -/
theorem blanks_split (blanks : List UInt8) (h : ∀ b ∈ blanks, Byte.isBlank b = true) :
    ∃ skipped margin, blanks = skipped ++ margin ∧ EndsLine skipped ∧
      ∀ b ∈ margin, Byte.isInlineBlank b = true := by
  induction blanks using List.reverseRecOn with
  | nil => exact ⟨[], [], rfl, Or.inl rfl, by simp⟩
  | append_singleton blanks b ih =>
    by_cases hb : b = Byte.lineFeed
    · exact ⟨blanks ++ [b], [], by simp, Or.inr (by simp [hb]), by simp⟩
    · obtain ⟨skipped, margin, rfl, he, hm⟩ := ih fun c hc => h c (by simp [hc])
      have hinline : Byte.isInlineBlank b = true := by
        have := h b (by simp)
        simpa [Byte.isBlank, hb] using this
      refine ⟨skipped, margin ++ [b], by simp, he, ?_⟩
      intro c hc
      rcases List.mem_append.mp hc with hc | hc
      · exact hm c hc
      · rw [List.mem_singleton.mp hc]
        exact hinline

theorem opens_iff {text body : List UInt8} {spaces : Nat} :
    Opens text spaces body ↔ body = text.dropWhile Byte.isBlank ∧ body ≠ [] ∧
      spaces = Scanner.spaces (text.takeWhile Byte.isBlank) := by
  constructor
  · rintro ⟨skipped, margin, rfl, hs, he, hm, rfl, hne, hb⟩
    have hall : ∀ b ∈ skipped ++ margin, Byte.isBlank b = true := by
      intro b hmem
      rcases List.mem_append.mp hmem with hmem | hmem
      · exact hs b hmem
      · simp [Byte.isBlank, hm b hmem]
    have hstop : body.takeWhile Byte.isBlank = [] ∧ body.dropWhile Byte.isBlank = body := by
      cases body with
      | nil => exact ⟨rfl, rfl⟩
      | cons b body => simp [hb b rfl]
    rw [List.dropWhile_append_of_pos hall, List.takeWhile_append_of_pos hall, hstop.1, hstop.2,
      List.append_nil, spaces_append_inline skipped hm, spaces_of_endsLine he]
    exact ⟨rfl, hne, (Nat.zero_add _).symm⟩
  · rintro ⟨rfl, hne, rfl⟩
    obtain ⟨skipped, margin, he, hends, hm⟩ :=
      blanks_split (text.takeWhile Byte.isBlank) fun _ hb => List.mem_takeWhile_imp hb
    refine ⟨skipped, margin, ?_, ?_, hends, hm, ?_, hne, Scanner.head?_dropWhile_false⟩
    · rw [← he, List.takeWhile_append_dropWhile]
    · intro b hb
      have hmem : b ∈ text.takeWhile Byte.isBlank := by
        rw [he]
        exact List.mem_append_left _ hb
      exact List.mem_takeWhile_imp hmem
    · rw [he, spaces_append_inline skipped hm, spaces_of_endsLine hends, Nat.zero_add]

end Margin

end Mython
