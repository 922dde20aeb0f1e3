import Mython.Proofs.Program.Pulling
import Mython.Proofs.Run.Reckoning
import Mython.Proofs.Run.Stringify
import Mython.Proofs.Token.Digits
import Mython.Proofs.Token.Rendering

namespace Mython

open Run

namespace Rendering

/-- A text of one line has the tokens of that line, its end, and the end of the text. -/
theorem ofSource_row {source : String} {kinds : List Token.Kind} (hrow : Row kinds (utf8 source))
    (hne : kinds ≠ []) (hcontent : ∀ kind ∈ kinds, kind.isContent = true) :
    ∃ ts, TokenStream.ofSource source = ⟨ts, none⟩ ∧
      ts.map (·.kind) = kinds ++ [.newline, .eof] := by
  have hsheet : Sheet ⟨0, kinds, hne, hcontent⟩ [] [] (utf8 source) [] :=
    ⟨⟨by simp, Or.inl rfl⟩, by simp, rfl, hrow, by simp⟩
  have hrendered := Rendered.last hsheet
  rw [List.append_nil, List.append_nil, List.nil_append] at hrendered
  have hlevels : Levelled 0 [⟨0, kinds, hne, hcontent⟩] := ⟨Nat.zero_le _, trivial⟩
  have hgives : Gives (.ofBytes (utf8 source)) (laidOut 0 [⟨0, kinds, hne, hcontent⟩]) :=
    gives_rendered hrendered hlevels rfl rfl rfl rfl
  obtain ⟨ts, hts, hkinds⟩ := tokenize_of_gives hgives
  exact ⟨ts, TokenStream.tokenize_eq_ok.1 hts, by simpa [laidOut] using hkinds⟩

/-- Behind the keyword and a space anything may be written. -/
theorem Row.printed {kinds : List Token.Kind} {source : String} (h : Row kinds (utf8 source)) :
    Row (.keyword .printWord :: kinds) (utf8 ("print " ++ source)) := by
  have hspace : ∀ b ∈ utf8 " ", Byte.isInlineBlank b = true := by decide +kernel
  have hsplit : utf8 ("print " ++ source) = utf8 "print" ++ (utf8 " " ++ utf8 source) := by
    rw [Utf8.utf8_append]
    rfl
  rw [hsplit]
  exact .cons rfl hspace (fun hnil => absurd hnil (by decide +kernel)) h

/-- A minus sign and a number are two tokens. -/
theorem row_negative {n : Nat} {value : Number} (h : value.toInt = n) :
    Row [.mark '-', .number value] (utf8 ("-" ++ n.repr)) := by
  have hsplit : utf8 ("-" ++ n.repr) = utf8 "-" ++ ([] ++ utf8 n.repr) := Utf8.utf8_append _ _
  have hapart : (Token.Kind.mark '-').Stops (utf8 n.repr) := fun hsome => absurd hsome (by decide)
  rw [hsplit]
  exact .cons ⟨0x2d, rfl, rfl, rfl⟩ (by simp) (fun _ => hapart) (.last (Decimal.spelled_repr h))

end Rendering

open Rendering

/-- What the text of a natural number is read as behind a print statement. -/
theorem parse_print_number {n : Nat} {value : Number} (h : value.toInt = n) :
    ∃ pos place, parse ("print " ++ n.repr) = .ok ⟨[.print [.number value pos] place]⟩ := by
  obtain ⟨ts, hts, hkinds⟩ := ofSource_row (Row.last (Decimal.spelled_repr h)).printed
    (by simp) (by simp [Token.Kind.isContent])
  simp only [List.cons_append, List.nil_append, List.map_eq_cons_iff, List.map_eq_nil_iff] at hkinds
  obtain ⟨⟨_, place⟩, _, rfl, rfl, ⟨_, pos⟩, _, rfl, rfl, ⟨_, _⟩, _, rfl, rfl, ⟨_, _⟩, _, rfl, rfl,
    rfl⟩ := hkinds
  refine ⟨pos, place, ?_⟩
  rw [parse, hts]
  rfl

/-- What the text of a negative integer is read as. -/
theorem parse_print_negative {n : Nat} {value : Number} (h : value.toInt = n) :
    ∃ pos sign place, parse ("print " ++ ("-" ++ n.repr)) =
      .ok ⟨[.print [.negate (.number value pos) sign] place]⟩ := by
  obtain ⟨ts, hts, hkinds⟩ := ofSource_row (row_negative h).printed
    (by simp) (by simp [Token.Kind.isContent])
  simp only [List.cons_append, List.nil_append, List.map_eq_cons_iff, List.map_eq_nil_iff] at hkinds
  obtain ⟨⟨_, place⟩, _, rfl, rfl, ⟨_, sign⟩, _, rfl, rfl, ⟨_, pos⟩, _, rfl, rfl, ⟨_, _⟩, _, rfl,
    rfl, ⟨_, _⟩, _, rfl, rfl, rfl⟩ := hkinds
  refine ⟨pos, sign, place, ?_⟩
  rw [parse, hts]
  rfl

/-- No path leads to a word. -/
def Words.none : Words := fun _ _ => Option.none

/-- A number is put into text as its decimal text. -/
theorem Guest.within_render_number {limit n line : Nat} (hn : 0 < n) {x : Handle} {m : Machine}
    {value : Number} (hx : m.heap.number? x = some value) :
    (Guest.within limit n).render x line m = (.ok (toString value.toInt), m) := by
  have hobject := Heap.number?_eq_some.1 hx
  obtain ⟨loc, hloc, -⟩ := Option.bind_eq_some_iff.1 hobject
  obtain ⟨fuel, rfl⟩ := Nat.exists_eq_add_one_of_ne_zero hn.ne'
  show (Guest.within limit fuel).text x line m = _
  rw [Guest.text, ask_bind, hobject, hloc]
  exact congrArg (fun text => (Except.ok text, m)) (Decimal.text_eq_toString value.toInt)

/-- A calculation all of whose parts have a value is put into text as the decimal text of the exact
result. -/
theorem Expr.shown_calculation {m : Machine} (hc : m.heap.Counted) {e : Expr}
    (he : e.Integral .none) (hs : ∀ s ∈ e.postorder, s.Sound .none) {limit n line : Nat}
    (hn : 0 < n) :
    ∃ m', e.shown (.within limit n) line m = (.ok (toString (e.exact .none)), m') ∧
      m'.sink = m.sink := by
  have hends := he.reckoned (.within limit n) m hc fun _ _ _ hword => by cases hword
  rw [Expr.shown]
  generalize hrun : e.eval (.within limit n) m = ending at hends
  cases hends with
  | @value x value m' hr hx hv _ =>
    rw [bind_of_ok hrun, holding, Guest.within_render_number hn hx, hv]
    exact ⟨_, rfl, hr.sink⟩
  | lapse hr hlapse =>
    obtain ⟨before, after, hsplit, -, hfails⟩ := hlapse
    exact absurd (hs _ (by simp [hsplit])) hfails

/-- Printing a calculation writes its exact result and a line break, if the sink takes that. -/
theorem Stmt.print_calculation {m : Machine} (hc : m.heap.Counted) {e : Expr}
    (he : e.Integral .none) (hs : ∀ s ∈ e.postorder, s.Sound .none) {place : Position} {sink : Sink}
    (hw : m.sink.write? (toString (e.exact .none) ++ "\n") = some sink) {limit n : Nat}
    (hn : 0 < n) :
    ∃ m', (Stmt.print [e] place).exec (.within limit n) m = (.ok (.next .absent), m') ∧
      m'.sink = sink := by
  obtain ⟨m₁, hshown, hsink⟩ := Expr.shown_calculation (m := m) hc he hs hn
  have htexts : Expr.textAll (.within limit n) place.line [e] m =
      (.ok [toString (e.exact .none)], m₁) := by
    rw [Expr.textAll_cons]
    exact bind_of_ok hshown
  have htaken :
      m₁.sink.write? (" ".intercalate [toString (e.exact .none)] ++ "\n") = some sink := by
    rw [hsink, String.intercalate_singleton]
    exact hw
  refine ⟨{ m₁ with sink }, ?_, rfl⟩
  exact (Stmt.print_eq_ok _).2
    ⟨_, m₁, sink, (Expr.textAll_eq_ok _ _).1 htexts, htaken, rfl, rfl⟩

/-- A sink that takes any text takes the first one. -/
theorem Sink.write_ofWrites {writes : Option Nat} (hw : writes ≠ some 0) (text : String) :
    ∃ sink, (Sink.ofWrites writes).write? text = some sink ∧ sink.written = #[text] := by
  match writes with
  | none => exact ⟨_, rfl, rfl⟩
  | some 0 => exact absurd rfl hw
  | some (n + 1) => exact ⟨_, rfl, rfl⟩

namespace Machine

/-- A program that prints a calculation writes its exact result and a line break. -/
theorem perform_print {m : Machine} (hc : m.heap.Counted) (job : Job) {e : Expr}
    {place : Position} (hp : parse job.source = .ok ⟨[.print [e] place]⟩)
    (hw : job.writes ≠ some 0) (he : e.Integral .none) (hs : ∀ s ∈ e.postorder, s.Sound .none) :
    (m.perform job).1.failure = none ∧
      (m.perform job).1.output = toString (e.exact .none) ++ "\n" ∧
      (m.perform job).2.sink.written = #[toString (e.exact .none) ++ "\n"] := by
  have hfuel : 0 < plentyOfFuel := by decide
  obtain ⟨sink, htaken, hwritten⟩ := Sink.write_ofWrites hw (toString (e.exact .none) ++ "\n")
  obtain ⟨m₁, hexec, rfl⟩ := Stmt.print_calculation (m := m.renew (.ofWrites job.writes)) hc he hs
    htaken hfuel
  have hrun : (m.renew (.ofWrites job.writes)).execute job.limit ⟨[.print [e] place]⟩ =
      (.ok (), m₁) := by
    rw [execute, Program.exec, Stmt.execAll, bind_assoc]
    exact bind_of_ok hexec
  have hcontents : m₁.sink.contents = toString (e.exact .none) ++ "\n" := by
    rw [Sink.contents, hwritten]
    exact String.empty_append
  have hperform : m.perform job = (⟨m₁.sink.contents, m₁.globals, none⟩, m₁) := by
    rw [perform, hp]
    simp only [hrun]
  rw [hperform]
  exact ⟨rfl, hcontents, hwritten⟩

/-- A program that prints the text of a word writes this text, unless the word is the least one. -/
theorem perform_print_number {m : Machine} (hc : m.heap.Counted) {value : Number}
    (hv : value.toInt ≠ Number.least) {job : Job}
    (hsource : job.source = "print " ++ toString value.toInt) (hw : job.writes ≠ some 0) :
    (m.perform job).1.failure = none ∧
      (m.perform job).1.output = toString value.toInt ++ "\n" ∧
      (m.perform job).2.sink.written = #[toString value.toInt ++ "\n"] := by
  obtain ⟨hlow, hhigh⟩ := value.fits_toInt
  cases hint : value.toInt with
  | ofNat n =>
    obtain ⟨pos, place, hp⟩ := parse_print_number hint
    have hsource' : job.source = "print " ++ n.repr := by rw [hsource, hint]; rfl
    have hprints := perform_print hc job (hsource' ▸ hp) hw (.number value pos)
      (by simpa [Expr.postorder] using Expr.sound_number value pos)
    rwa [Expr.exact, hint] at hprints
  | negSucc n =>
    have hfits : Number.Fits (n + 1 : Nat) := by
      simp only [Number.Fits, Number.least, Number.greatest] at *
      omega
    obtain ⟨magnitude, hmagnitude⟩ := Number.exists_of_fits hfits
    obtain ⟨pos, sign, place, hp⟩ := parse_print_negative hmagnitude
    have hsource' : job.source = "print " ++ ("-" ++ (n + 1).repr) := by rw [hsource, hint]; rfl
    have hexact : (Expr.negate (.number magnitude pos) sign).exact .none = value.toInt := by
      rw [Expr.exact, Expr.exact, hmagnitude, hint]
      rfl
    have hprints := perform_print hc job (hsource' ▸ hp) hw (.negate sign (.number magnitude pos))
      (Expr.sound_snoc (by simpa [Expr.postorder] using Expr.sound_number magnitude pos)
        (Expr.sound_negate (hexact ▸ value.fits_toInt)))
    rwa [hexact, hint] at hprints

/-- A text that is rejected leaves no trace. -/
theorem perform_rejected (m : Machine) {job : Job} {e : SyntaxError}
    (hp : parse job.source = .error e) :
    (m.perform job).1 = ⟨"", m.globals, some (.rejected e)⟩ := by
  rw [perform, hp]
  rfl

end Machine

/-- The text of the least word is refused at its first digit. -/
theorem parse_print_least : parse ("print " ++ toString Number.least) =
    .error ⟨.numberOutOfRange "9223372036854775808", ⟨1, 8⟩⟩ := by
  have hanswer : (parse ("print " ++ toString Number.least)).map (fun _ => ()) =
      .error ⟨.numberOutOfRange "9223372036854775808", ⟨1, 8⟩⟩ := by decide +kernel
  cases hp : parse ("print " ++ toString Number.least) with
  | ok p =>
    rw [hp] at hanswer
    cases hanswer
  | error e =>
    rw [hp] at hanswer
    cases hanswer
    rfl

/-- A calculation of the least word. -/
def Expr.leastWord : Expr :=
  .arith .sub (.negate (.number 9223372036854775807 ⟨1, 8⟩) ⟨1, 7⟩) (.number 1 ⟨1, 30⟩) ⟨1, 7⟩

theorem parse_print_leastWord : parse "print -9223372036854775807 - 1" =
    .ok ⟨[.print [.leastWord] ⟨1, 1⟩]⟩ := by
  have htokens : tokenize "print -9223372036854775807 - 1" = .ok
      [⟨.keyword .printWord, ⟨1, 1⟩⟩, ⟨.mark '-', ⟨1, 7⟩⟩, ⟨.number 9223372036854775807, ⟨1, 8⟩⟩,
        ⟨.mark '-', ⟨1, 28⟩⟩, ⟨.number 1, ⟨1, 30⟩⟩, ⟨.newline, ⟨1, 31⟩⟩, ⟨.eof, ⟨1, 31⟩⟩] := by
    decide +kernel
  rw [parse, TokenStream.tokenize_eq_ok.1 htokens]
  rfl

/-- Every part of it has a value. -/
theorem Expr.sound_leastWord : ∀ s ∈ Expr.leastWord.postorder, s.Sound .none := by
  intro s hmem
  simp only [leastWord, postorder, List.cons_append, List.nil_append, List.mem_cons,
    List.not_mem_nil, or_false] at hmem
  rcases hmem with rfl | rfl | rfl | rfl
  · exact sound_number _ _
  · exact sound_negate ⟨by decide, by decide⟩
  · exact sound_number _ _
  · exact sound_arith.2 ⟨⟨by decide, by decide⟩, by decide⟩

theorem Expr.exact_leastWord : Expr.leastWord.exact .none = Number.least := by decide

/-- Where a session stands, its heap counts. -/
theorem Machine.Reaches.counted {sink : Sink} {m : Machine} (h : (Machine.start sink).Reaches m) :
    m.heap.Counted :=
  (h.settled (start_settled sink)).counted

/-- Where a scanner arrives it has read a part of its text, and is where that part ends. -/
theorem Scanner.split_of_arrives {source : String} {n : Nat} {a : Scanner}
    (ha : (Scanner.asked source n).Arrives a) :
    ∃ front, utf8 source = front ++ a.rest ∧ a.pos = Position.start.afterAll front := by
  obtain ⟨run, hrun⟩ := ha.takes
  obtain ⟨front, hfront⟩ := hrun.located ((Scanner.safe_ofBytes (utf8 source)).after n).located
  exact ⟨front, hfront.split, hfront.pos⟩

/-- Numbers there and back. Wherever the scanner of a text arrives at a run of digits that no digit
follows, the next request reads these digits and nothing else; it gives the number that is their
decimal value if that is at most the greatest word, and else is refused at the first of them. At any
time of a session, with any limit and a sink that takes a text, a program that prints the decimal
text of a word writes that text and a line break, in one piece, unless the word is the least one.
The text of the least word is refused in the same way, although a program calculates and prints
it. -/
theorem decimal_text_round_trips :
    (∀ (source : String) (n : Nat) (a : Scanner) (digits rest : List UInt8),
      (Scanner.asked source n).Arrives a → a.rest = digits ++ rest → digits ≠ [] →
      (∀ b ∈ digits, Byte.isDigit b = true) → (∀ b ∈ rest.head?, Byte.isDigit b = false) →
      let value : Nat := Nat.ofDigits 10 (digits.reverse.map fun b => b.toNat - 48)
      let answer := (Scanner.asked source n).next
      (∃ front, utf8 source = front ++ (digits ++ rest) ∧
        a.pos = Position.start.afterAll front) ∧
      answer.2.rest = rest ∧
      (value ≤ 2 ^ 63 - 1 →
        ∃ word : Number, word.toInt = value ∧ answer.1 = .ok ⟨.number word, a.pos⟩) ∧
      (2 ^ 63 - 1 < value → ∃ e, answer.1 = .error e ∧ e.code = "L003" ∧ e.pos = a.pos)) ∧
    (∀ (sink : Sink) (m : Machine), (Machine.start sink).Reaches m →
      ∀ (limit : Nat) (writes : Option Nat), writes ≠ some 0 →
      (∀ word : Number, word.toInt ≠ -2 ^ 63 →
        let done := m.perform ⟨"print " ++ toString word.toInt, limit, writes⟩
        done.1.failure = none ∧ done.1.output = toString word.toInt ++ "\n" ∧
          done.2.sink.written = #[toString word.toInt ++ "\n"]) ∧
      let done := m.perform ⟨"print -9223372036854775807 - 1", limit, writes⟩
      done.1.failure = none ∧ done.1.output = toString (-2 ^ 63 : Int) ++ "\n") ∧
    (∀ (m : Machine) (limit : Nat) (writes : Option Nat),
      ∃ e : SyntaxError, e.code = "L003" ∧ e.pos = ⟨1, 8⟩ ∧
        (m.perform ⟨"print " ++ toString (-2 ^ 63 : Int), limit, writes⟩).1 =
          ⟨"", m.globals, some (.rejected e)⟩) := by
  have hleast : (-2 ^ 63 : Int) = Number.least := by decide
  rw [hleast]
  refine ⟨?_, ?_, ?_⟩
  · intro source n a digits rest ha hr hne hdigits hstop value answer
    obtain ⟨hrest, hanswer⟩ := Scanner.next_of_digits ha hr hne hdigits hstop
    rw [Decimal.value_text] at hanswer
    refine ⟨hr ▸ Scanner.split_of_arrives ha, hrest, ?_, ?_⟩
    · intro hle
      have hfits : Number.Fits (value : Nat) := by
        simp only [Number.Fits, Number.least, Number.greatest]
        omega
      obtain ⟨word, hword⟩ := Number.exists_of_fits hfits
      rw [Number.ofInt?_eq_some.2 hword] at hanswer
      exact ⟨word, hword, hanswer⟩
    · intro hlt
      have hnone : Number.ofInt? (value : Nat) = none := by
        rw [Number.ofInt?_eq_none, Number.Fits, Number.least, Number.greatest]
        omega
      rw [hnone] at hanswer
      exact ⟨_, hanswer, rfl, rfl⟩
  · intro sink m hm limit writes hw
    refine ⟨fun word hword => Machine.perform_print_number hm.counted hword rfl hw, ?_⟩
    obtain ⟨hends, houtput, -⟩ := Machine.perform_print hm.counted
      ⟨"print -9223372036854775807 - 1", limit, writes⟩ parse_print_leastWord hw
      (.arith .sub _ (.negate _ (.number _ _)) (.number _ _)) Expr.sound_leastWord
    rw [Expr.exact_leastWord] at houtput
    exact ⟨hends, houtput⟩
  · intro m limit writes
    exact ⟨_, rfl, rfl, m.perform_rejected parse_print_least⟩

/-- Zeros in front do not count, however many, and a word of each sign is printed as it is written.
-/
theorem decimal_text_round_trips_zeros :
    (∃ (word : Number) (pos : Position), word.toInt = 7 ∧
      (Scanner.asked "print 00000000000000000000007;" 1).next.1 = .ok ⟨.number word, pos⟩) ∧
    ((Machine.start .endless).perform ⟨"print " ++ toString (-42 : Int), 10, none⟩).1.output =
      toString (-42 : Int) ++ "\n" := by
  obtain ⟨hreads, hprints, -⟩ := decimal_text_round_trips
  refine ⟨?_, ?_⟩
  · have harrives := Scanner.Arrives.inline
      (s := Scanner.asked "print 00000000000000000000007;" 1) (by decide +kernel)
    obtain ⟨-, -, hword, -⟩ := hreads _ 1 _ (List.replicate 22 0x30 ++ [0x37]) [0x3b] harrives
      (by decide +kernel) (by decide +kernel) (by decide +kernel) (by decide +kernel)
    obtain ⟨word, hseven, hanswer⟩ := hword (by decide)
    exact ⟨word, _, hseven, hanswer⟩
  · have hword : (-42 : Number).toInt = -42 := by decide
    obtain ⟨-, houtput, -⟩ := (hprints .endless _ .refl 10 none (by decide)).1 (-42) (by decide)
    rwa [hword] at houtput

end Mython
