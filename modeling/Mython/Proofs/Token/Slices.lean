import Mathlib.Data.List.Forall2
import Mython.Proofs.Token.LayoutFault
import Mython.Proofs.Token.Spelling

namespace Mython

/-- A stretch of a text, from the offset of its first byte to the offset behind its last one. -/
structure Range where
  start : Nat
  stop : Nat

namespace Range

/-- The bytes of a text that are in a range. -/
def slice (r : Range) (bytes : List UInt8) : List UInt8 :=
  (bytes.drop r.start).take (r.stop - r.start)

/-- Whether the byte at an offset is in a range. -/
def Covers (r : Range) (i : Nat) : Prop := r.start ≤ i ∧ i < r.stop

end Range

namespace Position

/-- The order in which places follow each other in a text. -/
def NotAfter (p q : Position) : Prop :=
  p.line < q.line ∨ p.line = q.line ∧ p.column ≤ q.column

theorem NotAfter.trans {p q r : Position} (hpq : p.NotAfter q) (hqr : q.NotAfter r) :
    p.NotAfter r := by
  unfold NotAfter at *
  omega

theorem notAfter_after (p : Position) (b : UInt8) : p.NotAfter (p.after b) := by
  unfold after
  split
  · exact Or.inl (Nat.lt_succ_self p.line)
  · exact Or.inr ⟨rfl, Nat.le_succ p.column⟩

theorem notAfter_afterAll (p : Position) (run : List UInt8) : p.NotAfter (p.afterAll run) := by
  induction run generalizing p with
  | nil => exact Or.inr ⟨rfl, Nat.le_refl _⟩
  | cons b run ih => exact (notAfter_after p b).trans (ih (p.after b))

end Position

namespace Slices

open Margin Layout

/-- The bytes of a text since its last line break. -/
def sinceBreak (text : List UInt8) : List UInt8 := text.rtakeWhile (· != Byte.lineFeed)

/-- A byte between tokens: an inline blank, or the break of a line that has nothing else on it. -/
def Skipped (bytes : List UInt8) (i : Nat) : Prop :=
  ∃ b ∈ bytes[i]?, Byte.isInlineBlank b = true ∨
    b = Byte.lineFeed ∧ ∀ c ∈ sinceBreak (bytes.take i), Byte.isInlineBlank c = true

/-- A range whose bytes are written for a token, and go on no further. -/
structure Written (bytes : List UInt8) (kind : Token.Kind) (r : Range) : Prop where
  nonempty : r.start < r.stop
  spelled : kind.Spelled (r.slice bytes)
  stops : kind.Stops (bytes.drop r.stop)

/-- The range of a token that the end of the text stands for. -/
def AtEnd (bytes : List UInt8) (r : Range) : Prop := r.start = bytes.length ∧ r.stop = bytes.length

/-- What the range of a token holds. Only the end of a line and of the program may be written or
not. -/
def Holds (bytes : List UInt8) (r : Range) : Token.Kind → Prop
  | .indent | .dedent => r.start = r.stop
  | .newline => Written bytes .newline r ∨ AtEnd bytes r
  | .eof => Written bytes .eof r ∨ AtEnd bytes r
  | kind => Written bytes kind r

/-- A token with its range, its place counted from the start of the text. -/
structure Placed (bytes : List UInt8) (t : Token) (r : Range) : Prop where
  ordered : r.start ≤ r.stop
  inside : r.stop ≤ bytes.length
  holds : Holds bytes r t.kind
  line : t.pos.line = 1 + (bytes.take r.start).count Byte.lineFeed
  column : t.pos.column = 1 + (sinceBreak (bytes.take r.start)).length

/-- The tokens of a text as slices of it. -/
structure Sliced (bytes : List UInt8) (ts : List Token) (ranges : List Range) : Prop where
  placed : List.Forall₂ (Placed bytes) ts ranges
  ordered : ranges.Pairwise fun r r' => r.stop ≤ r'.start
  final : ∃ t ∈ ts.getLast?, t.kind = .eof
  gaps : ∀ last ∈ ranges.getLast?, ∀ i < last.start,
    (∀ r ∈ ranges, ¬ r.Covers i) → Skipped bytes i
  places : ts.Pairwise fun t u => t.pos.NotAfter u.pos

theorem sinceBreak_snoc (text : List UInt8) (b : UInt8) :
    sinceBreak (text ++ [b]) = if b = Byte.lineFeed then [] else sinceBreak text ++ [b] := by
  simp only [sinceBreak, List.rtakeWhile_concat, bne_iff_ne, ne_eq, ite_not]

/-- Columns count the bytes since the last line break. -/
theorem column_afterAll (text : List UInt8) :
    (Position.start.afterAll text).column = 1 + (sinceBreak text).length := by
  induction text using List.reverseRecOn with
  | nil => rfl
  | append_singleton text b ih =>
    have hlast : (Position.start.afterAll (text ++ [b])) =
        if b = Byte.lineFeed then ⟨(Position.start.afterAll text).line + 1, 1⟩
        else ⟨(Position.start.afterAll text).line, (Position.start.afterAll text).column + 1⟩ :=
      Position.afterAll_append _ _ _
    rw [hlast, sinceBreak_snoc]
    split
    · rfl
    · rw [ih, List.length_append, List.length_singleton, Nat.add_assoc]

theorem line_afterAll_start (text : List UInt8) :
    (Position.start.afterAll text).line = 1 + text.count Byte.lineFeed :=
  line_afterAll Position.start text

theorem sinceBreak_of_endsLine {text : List UInt8} (h : EndsLine text) : sinceBreak text = [] := by
  rcases h with rfl | h
  · rfl
  · obtain ⟨front, rfl⟩ := List.getLast?_eq_some_iff.mp h
    rw [sinceBreak_snoc, if_pos rfl]

/-- In front of a line there are only inline blanks since the last break, if there are blanks. -/
theorem sinceBreak_blanks {done run : List UInt8} (hd : EndsLine done)
    (hr : ∀ b ∈ run, Byte.isBlank b = true) :
    ∀ c ∈ sinceBreak (done ++ run), Byte.isInlineBlank c = true := by
  induction run using List.reverseRecOn with
  | nil => simp [sinceBreak_of_endsLine hd]
  | append_singleton run b ih =>
    have hbefore := ih fun c hc => hr c (List.mem_append_left _ hc)
    rw [← List.append_assoc, sinceBreak_snoc]
    by_cases hb : b = Byte.lineFeed
    · simp [if_pos hb]
    · have hblank : Byte.isInlineBlank b = true := by
        have := hr b (by simp)
        simpa [Byte.isBlank, hb] using this
      rw [if_neg hb]
      intro c hc
      rcases List.mem_append.1 hc with hc | hc
      · exact hbefore c hc
      · rw [List.mem_singleton.1 hc]
        exact hblank

/-- The bytes from one offset up to another are all skipped. -/
def Gap (bytes : List UInt8) (start stop : Nat) : Prop :=
  ∀ i, start ≤ i → i < stop → Skipped bytes i

theorem getElem?_gap {done run rest : List UInt8} {i : Nat} (hlow : done.length ≤ i)
    (hhigh : i < (done ++ run).length) :
    ∃ b ∈ run, (done ++ run ++ rest)[i]? = some b ∧
      (done ++ run ++ rest).take i = done ++ run.take (i - done.length) := by
  have hlt : i - done.length < run.length := by
    rw [List.length_append] at hhigh
    omega
  refine ⟨run[i - done.length], List.getElem_mem hlt, ?_, ?_⟩
  · rw [List.append_assoc, List.getElem?_append_right hlow, List.getElem?_append_left hlt,
      List.getElem?_eq_getElem hlt]
  · rw [List.append_assoc, List.take_append, List.take_of_length_le hlow,
      List.take_append_of_le_length (Nat.le_of_lt hlt)]

theorem gap_inline {done run rest : List UInt8} (hr : ∀ b ∈ run, Byte.isInlineBlank b = true) :
    Gap (done ++ run ++ rest) done.length (done ++ run).length := by
  intro i hlow hhigh
  obtain ⟨b, hmem, hget, -⟩ := getElem?_gap hlow hhigh
  exact ⟨b, hget, Or.inl (hr b hmem)⟩

theorem gap_blanks {done run rest : List UInt8} (hd : EndsLine done)
    (hr : ∀ b ∈ run, Byte.isBlank b = true) :
    Gap (done ++ run ++ rest) done.length (done ++ run).length := by
  intro i hlow hhigh
  obtain ⟨b, hmem, hget, htake⟩ := getElem?_gap hlow hhigh
  refine ⟨b, hget, ?_⟩
  have hblank := hr b hmem
  simp only [Byte.isBlank, Bool.or_eq_true, beq_iff_eq] at hblank
  refine hblank.imp id fun hb => ⟨hb, ?_⟩
  rw [htake]
  exact sinceBreak_blanks hd fun c hc => hr c (List.mem_of_mem_take hc)

/-- The scanner in front of the first token of a line has skipped blanks alone. -/
theorem gap_atMargin {bytes done : List UInt8} {s : Scanner} (hs : Located bytes done s)
    (hd : EndsLine done) :
    Gap bytes done.length (done ++ s.rest.takeWhile Byte.isBlank).length := by
  have hgap := @gap_blanks done (s.rest.takeWhile Byte.isBlank) (s.rest.dropWhile Byte.isBlank) hd
    fun _ hb => List.mem_takeWhile_imp hb
  rwa [List.append_assoc done, List.takeWhile_append_dropWhile, ← hs.split] at hgap

theorem Located.unique {bytes done done' : List UInt8} {s : Scanner} (h : Located bytes done s)
    (h' : Located bytes done' s) : done = done' :=
  List.append_cancel_right (h.split.symm.trans h'.split)

theorem endsLine_of_lineStart {bytes done : List UInt8} {seen : List Token} {s : Scanner}
    (h : Laid bytes seen s) (hs : Located bytes done s) (hl : s.layout = .lineStart) :
    EndsLine done := by
  obtain ⟨⟨done', hs', hd⟩, -⟩ := h.lineStart hl
  exact Located.unique hs' hs ▸ hd

/-- So has a scanner that arrives at a lexeme or at the end. -/
theorem gap_arrives {bytes done : List UInt8} {seen : List Token} {s a : Scanner}
    (h : Laid bytes seen s) (hs : Located bytes done s) (ha : s.Arrives a) :
    ∃ done', Located bytes done' a ∧ done.length ≤ done'.length ∧
      Gap bytes done.length done'.length := by
  cases ha with
  | inline hl =>
    refine ⟨_, hs.past Byte.isInlineBlank, by simp, ?_⟩
    have hgap := @gap_inline done (s.rest.takeWhile Byte.isInlineBlank)
      (s.rest.dropWhile Byte.isInlineBlank) fun _ hb => List.mem_takeWhile_imp hb
    rwa [List.append_assoc done, List.takeWhile_append_dropWhile, ← hs.split] at hgap
  | ended hl _ =>
    exact ⟨_, hs.atMargin, by simp, gap_atMargin hs (endsLine_of_lineStart h hs hl)⟩
  | level hl _ _ _ =>
    exact ⟨_, hs.atMargin, by simp, gap_atMargin hs (endsLine_of_lineStart h hs hl)⟩

/-- A token at a known place of the text, and so of known line and column. -/
theorem placed_of_located {bytes done : List UInt8} {s : Scanner} {kind : Token.Kind}
    (hs : Located bytes done s) {stop : Nat} (hle : done.length ≤ stop) (hin : stop ≤ bytes.length)
    (hholds : Holds bytes ⟨done.length, stop⟩ kind) :
    Placed bytes ⟨kind, s.pos⟩ ⟨done.length, stop⟩ := by
  have htake : bytes.take done.length = done := by rw [hs.split, List.take_left]
  refine ⟨hle, hin, hholds, ?_, ?_⟩
  · rw [htake, hs.pos, line_afterAll_start]
  · rw [htake, hs.pos, column_afterAll]

theorem Located.length_le {bytes done : List UInt8} {s : Scanner} (hs : Located bytes done s) :
    done.length ≤ bytes.length := by
  rw [hs.split, List.length_append]
  omega

theorem Located.length_eq {bytes done : List UInt8} {s : Scanner} (hs : Located bytes done s)
    (hr : s.rest = []) : done.length = bytes.length := by
  rw [hs.split, hr, List.append_nil]

/-- A written token is no token of layout, and holds what is written for it. -/
theorem holds_of_written {bytes : List UInt8} {kind : Token.Kind} {r : Range}
    (h : Written bytes kind r) : Holds bytes r kind := by
  cases kind with
  | indent => exact h.spelled.elim
  | dedent => exact h.spelled.elim
  | newline => exact Or.inl h
  | eof => exact Or.inl h
  | _ => exact h

/-- A lexeme is written in the bytes that it takes. -/
theorem written_lexeme {source : String} {done : List UInt8} {a : Scanner} {first : UInt8}
    {rest : List UInt8} {kind : Token.Kind} (hs : Located (utf8 source) done a)
    (hr : a.rest = first :: rest) (hk : (Lexeme.read first rest).kind = .ok kind) :
    Written (utf8 source) kind ⟨done.length, done.length + (Lexeme.read first rest).length⟩ := by
  have hsplit : utf8 source = done ++ first :: rest := by rw [hs.split, hr]
  obtain ⟨hspelled, hstops⟩ := Lexeme.read_reads hsplit kind hk
  refine ⟨?_, ?_, ?_⟩
  · have hpos := (Lexeme.read_fits first rest).pos
    simp only
    omega
  · rw [Range.slice, hsplit, List.drop_left, Nat.add_sub_cancel_left]
    exact hspelled
  · rw [hsplit, ← List.drop_drop, List.drop_left]
    exact hstops

/-- What one request does to a text that has been read up to an offset: it skips a gap and then
takes the range of its token. -/
def Takes (bytes done : List UInt8) (t : Token) (s : Scanner) : Prop :=
  ∃ start done', done.length ≤ start ∧ Gap bytes done.length start ∧
    Placed bytes t ⟨start, done'.length⟩ ∧ Located bytes done' s

/-- A token that takes no bytes, found where a scanner stands. -/
theorem takes_nothing {bytes done done' : List UInt8} {a s : Scanner} {kind : Token.Kind}
    (ha : Located bytes done' a) (hle : done.length ≤ done'.length)
    (hgap : Gap bytes done.length done'.length) (hrest : s.rest = a.rest) (hpos : s.pos = a.pos)
    (hholds : Holds bytes ⟨done'.length, done'.length⟩ kind) :
    Takes bytes done ⟨kind, a.pos⟩ s :=
  ⟨done'.length, done', hle, hgap,
    placed_of_located ha (Nat.le_refl _) (Located.length_le ha) hholds,
    ⟨hrest ▸ ha.split, hpos.trans ha.pos⟩⟩

/-- Every request that gives a token takes its range. -/
theorem takes_of_advances {source : String} {done : List UInt8} {seen : List Token}
    {s s' : Scanner} {t : Token} (h : Laid (utf8 source) seen s)
    (hs : Located (utf8 source) done s) (ha : s.Advances t s') :
    Takes (utf8 source) done t s' := by
  have hnone : Gap (utf8 source) done.length done.length :=
    fun i hlow hhigh => absurd hhigh (Nat.not_lt.2 hlow)
  cases ha with
  | close hl => exact takes_nothing hs (Nat.le_refl _) hnone rfl rfl rfl
  | dedent hl hr heven hlt =>
    exact takes_nothing hs.atMargin (by simp) (gap_atMargin hs (endsLine_of_lineStart h hs hl))
      rfl rfl rfl
  | indent hl hr heven heq =>
    exact takes_nothing hs.atMargin (by simp) (gap_atMargin hs (endsLine_of_lineStart h hs hl))
      rfl rfl rfl
  | @lexeme a first rest kind harr hr hk =>
    obtain ⟨done', ha, hle, hgap⟩ := gap_arrives h hs harr
    have hfits := (Lexeme.read_fits first rest).le
    have hlength : (done' ++ a.rest.take (Lexeme.read first rest).length).length =
        done'.length + (Lexeme.read first rest).length := by
      rw [List.length_append, List.length_take, hr, List.length_cons, Nat.min_eq_left hfits]
    have hbehind := ha.behind (Lexeme.read first rest).length kind
    refine ⟨done'.length, _, hle, hgap, ?_, hbehind⟩
    apply placed_of_located ha
    · omega
    · exact Located.length_le hbehind
    · rw [hlength]
      exact holds_of_written (written_lexeme ha hr hk)
  | newline harr hr hc =>
    obtain ⟨done', ha, hle, hgap⟩ := gap_arrives h hs harr
    have hend := Located.length_eq ha hr
    exact takes_nothing ha hle hgap rfl rfl (Or.inr ⟨hend, hend⟩)
  | unwind harr hr hc hi =>
    obtain ⟨done', ha, hle, hgap⟩ := gap_arrives h hs harr
    exact takes_nothing ha hle hgap rfl rfl rfl
  | eof harr hr hc hi =>
    obtain ⟨done', ha, hle, hgap⟩ := gap_arrives h hs harr
    have hend := Located.length_eq ha hr
    exact takes_nothing ha hle hgap rfl rfl (Or.inr ⟨hend, hend⟩)

/-- The tokens that have been read, as slices of a text that has been read up to an offset. -/
structure Cut (bytes : List UInt8) (ts : List Token) (ranges : List Range) (done : Nat) :
    Prop where
  placed : List.Forall₂ (Placed bytes) ts ranges
  ordered : ranges.Pairwise fun r r' => r.stop ≤ r'.start
  read : ∀ r ∈ ranges, r.stop ≤ done
  gaps : ∀ i < done, (∀ r ∈ ranges, ¬ r.Covers i) → Skipped bytes i

theorem Cut.snoc {bytes : List UInt8} {ts : List Token} {ranges : List Range} {done : Nat}
    (h : Cut bytes ts ranges done) {t : Token} {r : Range} (hle : done ≤ r.start)
    (hgap : Gap bytes done r.start) (ht : Placed bytes t r) :
    Cut bytes (ts ++ [t]) (ranges ++ [r]) r.stop where
  placed := List.rel_append h.placed (.cons ht .nil)
  ordered := by
    rw [List.pairwise_append]
    refine ⟨h.ordered, List.pairwise_singleton _ _, ?_⟩
    intro q hq q' hq'
    rw [List.mem_singleton.1 hq']
    exact (h.read q hq).trans hle
  read := by
    intro q hq
    rcases List.mem_append.1 hq with hq | hq
    · have hread := h.read q hq
      have hordered := ht.ordered
      omega
    · rw [List.mem_singleton.1 hq]
  gaps := by
    intro i hi hcovers
    have hnot : ¬ r.Covers i := hcovers r (by simp)
    have hstart : i < r.start := by
      unfold Range.Covers at hnot
      omega
    rcases Nat.lt_or_ge i done with hlt | hge
    · exact h.gaps i hlt fun q hq => hcovers q (List.mem_append_left _ hq)
    · exact hgap i hge hstart

/-- The tokens of every run of requests are slices of what has been read. -/
theorem cut_of_reads {source : String} {seen : List Token} {s : Scanner}
    (h : (Scanner.ofBytes (utf8 source)).Reads seen s) :
    ∃ ranges done, Cut (utf8 source) seen ranges done.length ∧ Located (utf8 source) done s := by
  induction h with
  | refl =>
    refine ⟨[], [], ⟨.nil, .nil, by simp, ?_⟩, ⟨rfl, rfl⟩⟩
    intro i hi
    cases hi
  | snoc hr ha _ ih =>
    obtain ⟨ranges, done, hcut, hs⟩ := ih
    obtain ⟨start, done', hle, hgap, ht, hs'⟩ := takes_of_advances (laid_of_reads hr) hs ha
    exact ⟨ranges ++ [⟨start, done'.length⟩], done', hcut.snoc hle hgap ht, hs'⟩

theorem Placed.pos_eq {bytes : List UInt8} {t : Token} {r : Range} (h : Placed bytes t r) :
    t.pos = Position.start.afterAll (bytes.take r.start) := by
  have hline := h.line
  have hcolumn := h.column
  rw [← line_afterAll_start] at hline
  rw [← column_afterAll] at hcolumn
  cases hp : t.pos
  cases hq : Position.start.afterAll (bytes.take r.start)
  simp_all

theorem Placed.notAfter {bytes : List UInt8} {t u : Token} {r q : Range} (ht : Placed bytes t r)
    (hu : Placed bytes u q) (hle : r.stop ≤ q.start) : t.pos.NotAfter u.pos := by
  have hstart : r.start ≤ q.start := ht.ordered.trans hle
  have hsplit : bytes.take q.start =
      bytes.take r.start ++ (bytes.take q.start).drop r.start := by
    conv_lhs => rw [← List.take_append_drop r.start (bytes.take q.start)]
    rw [List.take_take, Nat.min_eq_left hstart]
  rw [ht.pos_eq, hu.pos_eq, hsplit, Position.afterAll_append]
  exact Position.notAfter_afterAll _ _

/-- What the order of their ranges gives for any two tokens holds throughout. -/
theorem pairwise_of_placed {bytes : List UInt8} {ts : List Token} {ranges : List Range}
    {R : Token → Token → Prop}
    (hR : ∀ ⦃t u r q⦄, Placed bytes t r → Placed bytes u q → r.stop ≤ q.start → R t u)
    (hp : List.Forall₂ (Placed bytes) ts ranges)
    (ho : ranges.Pairwise fun r r' => r.stop ≤ r'.start) : ts.Pairwise R := by
  induction hp with
  | nil => exact .nil
  | @cons t r ts ranges ht hts ih =>
    obtain ⟨hfirst, hrest⟩ := List.pairwise_cons.1 ho
    refine List.pairwise_cons.2 ⟨?_, ih hrest⟩
    intro u hu
    obtain ⟨i, hi, rfl⟩ := List.getElem_of_mem hu
    have hlength := hts.length_eq
    exact hR ht (hts.get hi (by omega)) (hfirst _ (List.getElem_mem _))

/-- Places do not decrease, because ranges do not. -/
theorem places_of_placed {bytes : List UInt8} {ts : List Token} {ranges : List Range}
    (hp : List.Forall₂ (Placed bytes) ts ranges)
    (ho : ranges.Pairwise fun r r' => r.stop ≤ r'.start) :
    ts.Pairwise fun t u => t.pos.NotAfter u.pos :=
  pairwise_of_placed (fun _ _ _ _ => Placed.notAfter) hp ho

/-- Every token of a text has a range in it. -/
theorem placed_of_tokenize {source : String} {ts : List Token} (h : tokenize source = .ok ts)
    {t : Token} (ht : t ∈ ts) : ∃ r, Placed (utf8 source) t r := by
  obtain ⟨seen, u, hr, hcases⟩ :=
    TokenStream.ofScanner_cases ((utf8 source).length + 2) (Scanner.ofBytes (utf8 source))
  rw [tokenize_eq] at h
  rcases hcases with ⟨last, v, he, ha, -⟩ | ⟨e, he, -⟩ | ⟨he, -⟩
  · rw [he] at h
    cases h
    obtain ⟨ranges, done, hcut, hs⟩ := cut_of_reads hr
    rcases List.mem_append.1 ht with hseen | hlast
    · obtain ⟨i, hi, rfl⟩ := List.getElem_of_mem hseen
      have hlength := hcut.placed.length_eq
      exact ⟨_, hcut.placed.get hi (by omega)⟩
    · obtain rfl := List.mem_singleton.1 hlast
      obtain ⟨start, done', -, -, hplaced, -⟩ := takes_of_advances (laid_of_reads hr) hs ha
      exact ⟨_, hplaced⟩
  · rw [he] at h
    cases h
  · rw [he] at h
    cases h

/-- A token that has a text of its own takes bytes of the text. -/
theorem Placed.nonempty {bytes : List UInt8} {t : Token} {r : Range} (h : Placed bytes t r)
    (hk : t.kind.isContent = true) : r.start < bytes.length := by
  have hwritten : Written bytes t.kind r := by
    have hholds := h.holds
    cases hkind : t.kind with
    | newline | indent | dedent | eof =>
      rw [hkind] at hk
      cases hk
    | _ =>
      rw [hkind] at hholds
      exact hholds
  exact Nat.lt_of_lt_of_le hwritten.nonempty h.inside

/-- Tokens are slices of their text with exact places. -/
theorem tokens_are_slices (source : String) (ts : List Token) (h : tokenize source = .ok ts) :
    ∃ ranges, Sliced (utf8 source) ts ranges := by
  obtain ⟨seen, u, hr, hcases⟩ :=
    TokenStream.ofScanner_cases ((utf8 source).length + 2) (Scanner.ofBytes (utf8 source))
  rw [tokenize_eq] at h
  rcases hcases with ⟨last, v, he, ha, hk⟩ | ⟨e, he, -⟩ | ⟨he, -⟩
  · rw [he] at h
    cases h
    obtain ⟨ranges, done, hcut, hs⟩ := cut_of_reads hr
    obtain ⟨start, done', hle, hgap, ht, -⟩ := takes_of_advances (laid_of_reads hr) hs ha
    have hall := hcut.snoc hle hgap ht
    refine ⟨ranges ++ [⟨start, done'.length⟩], hall.placed, hall.ordered, ⟨last, by simp, hk⟩, ?_,
      places_of_placed hall.placed hall.ordered⟩
    intro r hlast i hi hcovers
    obtain rfl : ⟨start, done'.length⟩ = r := by simpa using hlast
    exact hall.gaps i (Nat.lt_of_lt_of_le hi ht.ordered) hcovers
  · rw [he] at h
    cases h
  · rw [he] at h
    cases h

/-- A blank line, a text of two lines with a character that is no ASCII, and a block that the end of
the text closes. -/
theorem slices_of_nested_block :
    ∃ ts ranges, tokenize "if x:\n \r\n  y = 'ä\nb' == 12" = .ok ts ∧
      Sliced (utf8 "if x:\n \r\n  y = 'ä\nb' == 12") ts ranges := by
  have hok : (tokenize "if x:\n \r\n  y = 'ä\nb' == 12").toBool = true := by decide +kernel
  cases ht : tokenize "if x:\n \r\n  y = 'ä\nb' == 12" with
  | error e =>
    rw [ht] at hok
    cases hok
  | ok ts =>
    obtain ⟨ranges, hsliced⟩ := tokens_are_slices _ ts ht
    exact ⟨ts, ranges, rfl, hsliced⟩

end Slices

end Mython
