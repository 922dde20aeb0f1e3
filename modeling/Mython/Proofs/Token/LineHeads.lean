import Mathlib.Data.List.Chain
import Mython.Proofs.Token.Continuation
import Mython.Proofs.Token.Slices

namespace Mython.Layout

open Margin

/-- How many lines have ended. -/
def lineEnds (ts : List Token) : Nat := ts.countP fun t => t.kind = .newline

/-- The first tokens of the lines that start in a list of tokens behind others, each with all that
is in front of it. -/
def heads (before : List Token) : List Token → List (List Token × Token)
  | [] => []
  | t :: ts =>
    if t.kind.isContent && (openLine before).isEmpty then (before, t) :: heads (before ++ [t]) ts
    else heads (before ++ [t]) ts

@[simp]
theorem lineEnds_snoc (seen : List Token) (t : Token) :
    lineEnds (seen ++ [t]) = lineEnds seen + if t.kind = .newline then 1 else 0 := by
  simp [lineEnds, List.countP_append, List.countP_singleton]

theorem heads_append (before us vs : List Token) :
    heads before (us ++ vs) = heads before us ++ heads (before ++ us) vs := by
  induction us generalizing before with
  | nil => rw [List.nil_append, List.append_nil, heads, List.nil_append]
  | cons t us ih =>
    have hassoc : before ++ [t] ++ us = before ++ t :: us := by simp
    rw [List.cons_append, heads, heads, ih, hassoc]
    split
    · rfl
    · rfl

theorem openLine_content_ne (before : List Token) {t : Token} (ht : t.kind.isContent = true) :
    openLine (before ++ [t]) ≠ [] := by
  rw [openLine_content before ht]
  simp

/-- Inside a line there is no other head. -/
theorem heads_inside {before us : List Token} (hopen : openLine before ≠ [])
    (hus : ∀ t ∈ us, t.kind.isContent = true) :
    heads before us = [] ∧ openLine (before ++ us) ≠ [] := by
  induction us generalizing before with
  | nil => exact ⟨rfl, by rwa [List.append_nil]⟩
  | cons t us ih =>
    have ht := hus t (List.mem_cons_self ..)
    have hinner := ih (openLine_content_ne before ht) fun u hu =>
      hus u (List.mem_cons_of_mem _ hu)
    have hfresh : (openLine before).isEmpty = false := by simpa using hopen
    rw [heads, hfresh, Bool.and_false, if_neg Bool.false_ne_true]
    rwa [List.append_assoc] at hinner

/-- A line starts with its first token. -/
theorem heads_cons {before us : List Token} {t : Token} (hfresh : openLine before = [])
    (ht : t.kind.isContent = true) (hus : ∀ u ∈ us, u.kind.isContent = true) :
    heads before (t :: us) = [(before, t)] ∧ openLine (before ++ t :: us) ≠ [] := by
  obtain ⟨hnone, hopen⟩ := heads_inside (openLine_content_ne before ht) hus
  refine ⟨?_, ?_⟩
  · rw [heads, ht, hfresh, List.isEmpty_nil, Bool.and_true, if_pos rfl, hnone]
  · rwa [List.append_assoc] at hopen

theorem heads_layout (before : List Token) {t : Token} (ht : t.kind.isContent = false) :
    heads before [t] = [] := by
  rw [heads, ht, Bool.false_and, if_neg Bool.false_ne_true, heads]

/-- What is known of the head of a line that is found at some index. -/
theorem getElem?_heads {before us front : List Token} {t : Token} {i : Nat}
    (h : (heads before us)[i]? = some (front, t)) :
    ∃ mid rest, us = mid ++ t :: rest ∧ front = before ++ mid ∧ t.kind.isContent = true ∧
      openLine front = [] ∧ (heads before mid).length = i := by
  induction us generalizing before i with
  | nil => cases h
  | cons u us ih =>
    have hshift : ∀ {mid}, before ++ [u] ++ mid = before ++ u :: mid := by simp
    rw [heads] at h
    split at h
    · next hhead =>
      obtain ⟨hcontent, hempty⟩ := Bool.and_eq_true_iff.1 hhead
      cases i with
      | zero =>
        cases h
        exact ⟨[], us, rfl, (List.append_nil _).symm, hcontent, List.isEmpty_iff.1 hempty, rfl⟩
      | succ i =>
        obtain ⟨mid, rest, rfl, rfl, ht, hopen, hlength⟩ := ih h
        refine ⟨u :: mid, rest, rfl, hshift, ht, hopen, ?_⟩
        rw [heads, if_pos hhead, List.length_cons, hlength]
    · next hhead =>
      obtain ⟨mid, rest, rfl, rfl, ht, hopen, hlength⟩ := ih h
      refine ⟨u :: mid, rest, rfl, hshift, ht, hopen, ?_⟩
      rw [heads, if_neg hhead, hlength]

/-- A token without a text of its own that ends no line leaves the open line as it is. -/
theorem openLine_silent (seen : List Token) {t : Token} (ht : t.kind.isContent = false)
    (hn : t.kind ≠ .newline) : openLine (seen ++ [t]) = openLine seen := by
  simp [openLine, hn, ht]

/-- A line that ends is not empty. -/
theorem Fits.openLine_ne {bytes : List UInt8} {before : List Token} {t : Token}
    (h : Fits bytes before t) (ht : t.kind = .newline) : openLine before ≠ [] := by
  have hlast := h.newline ht
  rcases List.eq_nil_or_concat before with rfl | ⟨front, u, rfl⟩
  · cases hlast
  · rw [List.concat_eq_append] at hlast ⊢
    rw [lastKind_snoc] at hlast
    exact openLine_content_ne front hlast

/-- Where no line is empty, every line that has ended had a head, and so has the open one. -/
theorem length_heads {bytes : List UInt8} {seen : List Token}
    (hfits : ∀ before t after, seen = before ++ t :: after → Fits bytes before t) :
    (heads [] seen).length = lineEnds seen + if openLine seen = [] then 0 else 1 := by
  induction seen using List.reverseRecOn with
  | nil => rfl
  | append_singleton seen t ih =>
    have hbefore := ih fun before u after h => hfits before u (after ++ [t]) (by simp [h])
    have ht := hfits seen t [] rfl
    rw [heads_append, List.length_append, List.nil_append, hbefore, lineEnds_snoc]
    cases hcontent : t.kind.isContent with
    | true =>
      have hn : t.kind ≠ .newline := fun hn => by rw [hn] at hcontent; cases hcontent
      have hopen := openLine_content_ne seen hcontent
      by_cases hfresh : openLine seen = []
      · have hhead : heads seen [t] = [(seen, t)] := (heads_cons hfresh hcontent (by simp)).1
        simp only [hhead, hfresh, hopen, hn, if_true, if_false, List.length_singleton]
      · have hhead : heads seen [t] = [] := (heads_inside hfresh (by simpa using hcontent)).1
        simp only [hhead, hfresh, hopen, hn, if_false, List.length_nil]
    | false =>
      rw [heads_layout seen hcontent, List.length_nil]
      by_cases hn : t.kind = .newline
      · have hopen := ht.openLine_ne hn
        simp only [hopen, openLine_newline seen hn, hn, if_true, if_false]
      · simp only [openLine_silent seen hcontent hn, hn, if_false, Nat.add_zero]

/-- The margin of the line that a head starts tells how many blocks are open. -/
theorem Fits.spacesAt_head {bytes : List UInt8} {before : List Token} {t : Token}
    (h : Fits bytes before t) (ht : t.kind.isContent = true) (hfresh : openLine before = [])
    {d : Nat} (hd : dedents before + d = indents before) :
    spacesAt bytes t.pos.line = 2 * d := by
  have hmargin := h.content ht
  rw [lineHead_of_fresh hfresh] at hmargin
  omega

/-- A token behind an opening parenthesis is on the same physical line, if it is on the same
logical one. -/
def Near (t u : Token) : Prop :=
  t.kind = .mark '(' → u.kind.isContent = true → u.pos.line = t.pos.line

/-- A scanner behind an opening parenthesis has not left its line. -/
def Beside (seen : List Token) (s : Scanner) : Prop :=
  ∀ t ∈ seen.getLast?, t.kind = .mark '(' → s.layout = .inline ∧ s.pos.line = t.pos.line

theorem line_past_inline (s : Scanner) : (s.past Byte.isInlineBlank).pos.line = s.pos.line := by
  have hnone : (s.rest.takeWhile Byte.isInlineBlank).count Byte.lineFeed = 0 :=
    count_lineFeed_inline fun b hb => List.mem_takeWhile_imp hb
  rw [Scanner.pos_past, line_afterAll, hnone, Nat.add_zero]

/-- From behind a parenthesis the next token of the line is found on the same physical line. -/
theorem Beside.line_eq {seen : List Token} {s v : Scanner} {t u : Token} (h : Beside seen s)
    (hu : u ∈ seen.getLast?) (hparen : u.kind = .mark '(') (ha : s.Advances t v)
    (ht : t.kind.isContent = true) : t.pos.line = u.pos.line := by
  obtain ⟨hlayout, hline⟩ := h u hu hparen
  cases ha with
  | close => cases ht
  | dedent => cases ht
  | indent => cases ht
  | newline => cases ht
  | unwind => cases ht
  | eof => cases ht
  | lexeme ha =>
    cases ha with
    | inline => exact (line_past_inline s).trans hline
    | ended hl =>
      rw [hlayout] at hl
      cases hl
    | level hl =>
      rw [hlayout] at hl
      cases hl

theorem beside_snoc {source : String} {seen : List Token} {s v : Scanner} {t : Token}
    (hlaid : Laid (utf8 source) seen s) (ha : s.Advances t v) : Beside (seen ++ [t]) v := by
  intro u hu hparen
  rw [List.getLast?_concat, Option.mem_some_iff] at hu
  subst hu
  cases ha with
  | close => cases hparen
  | dedent => cases hparen
  | indent => cases hparen
  | newline => cases hparen
  | unwind => cases hparen
  | eof => cases hparen
  | @lexeme a first rest kind ha hr hread =>
    obtain rfl : kind = .mark '(' := hparen
    obtain ⟨done, hlocated⟩ := (hlaid.atLexeme ha (by simp [hr])).located
    have hbytes : utf8 source = done ++ first :: rest := hr ▸ hlocated.split
    obtain ⟨⟨b, hmark, -, hrun⟩, -⟩ := Lexeme.read_reads hbytes _ hread
    have hbreak : b ≠ Byte.lineFeed := by
      rintro rfl
      exact absurd hmark (by decide)
    have hcount :
        ((first :: rest).take (Lexeme.read first rest).length).count Byte.lineFeed = 0 := by
      rw [hrun, List.count_singleton]
      simp [hbreak]
    refine ⟨rfl, ?_⟩
    show (a.pos.afterAll (a.rest.take (Lexeme.read first rest).length)).line = a.pos.line
    rw [hr, line_afterAll, hcount, Nat.add_zero]

theorem near_of_reads {source : String} {seen : List Token} {s : Scanner}
    (h : (Scanner.ofBytes (utf8 source)).Reads seen s) : seen.IsChain Near ∧ Beside seen s := by
  induction h with
  | refl => exact ⟨.nil, by simp [Beside]⟩
  | snoc hr ha hk ih =>
    obtain ⟨hchain, hbeside⟩ := ih
    refine ⟨?_, beside_snoc (laid_of_reads hr) ha⟩
    rw [List.isChain_append]
    refine ⟨hchain, List.isChain_singleton _, ?_⟩
    intro u hu t ht hparen hcontent
    rw [List.head?_cons, Option.mem_some_iff] at ht
    subst ht
    exact hbeside.line_eq hu hparen ha hcontent

/-- Along the tokens of a text nothing parts an opening parenthesis from what follows it. -/
theorem ofSource_near (source : String) : (TokenStream.ofSource source).tokens.IsChain Near := by
  obtain ⟨seen, u, hr, ⟨t, v, he, -, hk⟩ | ⟨e, he, -⟩⟩ := TokenStream.ofSource_reads source
  · rw [he, List.isChain_append]
    refine ⟨(near_of_reads hr).1, List.isChain_singleton _, ?_⟩
    intro w _ t' ht' _ hcontent
    rw [List.head?_cons, Option.mem_some_iff] at ht'
    rw [← ht', hk] at hcontent
    cases hcontent
  · rw [he]
    exact (near_of_reads hr).1

/-- A place is on no later line than a token behind it, and on an earlier one if a line ends there
and the token is part of another one. -/
def Above (t u : Token) : Prop :=
  t.pos.line ≤ u.pos.line ∧ (t.kind = .newline → u.kind.isContent = true → t.pos.line < u.pos.line)

theorem above_of_placed {bytes : List UInt8} {t u : Token} {r q : Range}
    (ht : Slices.Placed bytes t r) (hu : Slices.Placed bytes u q) (hle : r.stop ≤ q.start) :
    Above t u := by
  have horder : t.pos.line ≤ u.pos.line := by
    rcases ht.notAfter hu hle with hlt | ⟨heq, -⟩
    · exact Nat.le_of_lt hlt
    · exact Nat.le_of_eq heq
  refine ⟨horder, fun hkind hcontent => ?_⟩
  have hwritten : Slices.Written bytes u.kind q := by
    have hholds := hu.holds
    cases hk : u.kind <;> rw [hk] at hholds hcontent <;> first | exact hholds | cases hcontent
  have hholds := ht.holds
  rw [hkind] at hholds
  rcases hholds with hbreak | ⟨-, hend⟩
  · have hslice : (bytes.drop r.start).take (r.stop - r.start) = [Byte.lineFeed] := hbreak.spelled
    have hstop : bytes.take r.stop = bytes.take r.start ++ [Byte.lineFeed] := by
      rw [← hslice, ← List.take_add, Nat.add_sub_cancel' ht.ordered]
    have hgrows : (bytes.take r.stop).count Byte.lineFeed ≤
        (bytes.take q.start).count Byte.lineFeed :=
      (List.take_sublist_take_left hle).count_le _
    calc t.pos.line
        = 1 + (bytes.take r.start).count Byte.lineFeed := ht.line
      _ < 1 + (bytes.take r.stop).count Byte.lineFeed := by
        rw [hstop, List.count_append, List.count_singleton_self]
        omega
      _ ≤ 1 + (bytes.take q.start).count Byte.lineFeed := Nat.add_le_add_left hgrows 1
      _ = u.pos.line := hu.line.symm
  · have hnonempty := hwritten.nonempty
    have hinside := hu.inside
    omega

/-- The first token of a logical line and what follows it; lines count from zero. -/
structure Starts (ts : List Token) (i : Nat) (t : Token) (after : List Token) : Prop where
  content : t.kind.isContent = true
  split : ∃ before, ts = before ++ t :: after ∧ openLine before = [] ∧ lineEnds before = i

theorem lineEnds_append (us vs : List Token) : lineEnds (us ++ vs) = lineEnds us + lineEnds vs :=
  List.countP_append

/-- Two logical lines start on two physical ones. -/
theorem Starts.line_lt {ts after after' : List Token} {i j : Nat} {t u : Token}
    (ht : Starts ts i t after) (hu : Starts ts j u after') (hij : i < j)
    (habove : ts.Pairwise Above) : t.pos.line < u.pos.line := by
  obtain ⟨before, hsplit, -, hi⟩ := ht.split
  obtain ⟨before', hsplit', -, hj⟩ := hu.split
  have hsame : before ++ t :: after = before' ++ u :: after' := hsplit.symm.trans hsplit'
  rcases List.append_eq_append_iff.1 hsame with ⟨mid, rfl, hmid⟩ | ⟨mid, rfl, -⟩
  · have hends : 0 < lineEnds mid := by
      rw [lineEnds_append] at hj
      omega
    obtain ⟨n, hn, hkind⟩ := List.countP_pos_iff.1 hends
    rw [decide_eq_true_eq] at hkind
    rw [hsplit, hmid] at habove
    obtain ⟨-, hrest, -⟩ := List.pairwise_append.1 habove
    have hbelow : Above n u := (List.pairwise_append.1 hrest).2.2 n hn u (List.mem_cons_self ..)
    have hfirst : t.pos.line ≤ n.pos.line := by
      cases mid with
      | nil => cases hn
      | cons v mid =>
        obtain ⟨rfl, -⟩ := List.cons.inj hmid
        rcases List.mem_cons.1 hn with rfl | hn
        · exact Nat.le_refl _
        · exact ((List.pairwise_cons.1 hrest).1 n (List.mem_append_left _ hn)).1
    exact hfirst.trans_lt (hbelow.2 hkind hu.content)
  · rw [lineEnds_append] at hi
    omega

/-- Lines only grow along the tokens of a text. -/
theorem ofSource_above (source : String) : (TokenStream.ofSource source).tokens.Pairwise Above := by
  obtain ⟨seen, u, hr, hcases⟩ := TokenStream.ofSource_reads source
  obtain ⟨ranges, done, hcut, hs⟩ := Slices.cut_of_reads hr
  rcases hcases with ⟨t, v, he, ha, -⟩ | ⟨e, he, -⟩
  · obtain ⟨start, done', hle, hgap, ht, -⟩ := Slices.takes_of_advances (laid_of_reads hr) hs ha
    have hall := hcut.snoc hle hgap ht
    rw [he]
    exact Slices.pairwise_of_placed (fun _ _ _ _ => above_of_placed) hall.placed hall.ordered
  · rw [he]
    exact Slices.pairwise_of_placed (fun _ _ _ _ => above_of_placed) hcut.placed hcut.ordered

end Mython.Layout
