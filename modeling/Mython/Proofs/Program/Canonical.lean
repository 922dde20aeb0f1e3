import Mython.Proofs.Program.Resolution
import Mython.Proofs.Token.Slices
import Mython.Run.Expression

namespace Mython

open Token (Kind)

/-- A name: a letter or an underscore, then letters, digits and underscores; no reserved word, and
not the word that ends a program. -/
structure IsName (word : String) : Prop where
  start : ∃ c ∈ word.toList.head?, c.isAlpha = true ∨ c = '_'
  rest : ∀ c ∈ word.toList, c.isAlphanum = true ∨ c = '_'
  unreserved : ∀ k : Keyword, k.spelling ≠ word
  notEnd : word ≠ "eof"

/-- A text that holds quotes of one kind at most. -/
def QuotedOnce (content : String) : Prop := ¬ ('\'' ∈ content.toList ∧ '"' ∈ content.toList)

namespace Byte

/-- The character of a byte that words go on with. -/
theorem char_of_isWord {b : UInt8} (hb : isWord b = true) :
    (Char.ofNat b.toNat).isAlphanum = true ∨ Char.ofNat b.toNat = '_' := by
  have hall : ∀ n < 128, ((65 ≤ n ∧ n ≤ 90 ∨ 97 ≤ n ∧ n ≤ 122) ∨ n = 95) ∨ 48 ≤ n ∧ n ≤ 57 →
      (Char.ofNat n).isAlphanum = true ∨ Char.ofNat n = '_' := by decide
  have hrange := isWord_iff.1 hb
  exact hall b.toNat (by omega) hrange

/-- The character of a byte that words start with. -/
theorem char_of_startsWord {b : UInt8} (hb : startsWord b = true) :
    (Char.ofNat b.toNat).isAlpha = true ∨ Char.ofNat b.toNat = '_' := by
  have hall : ∀ n < 128, (65 ≤ n ∧ n ≤ 90 ∨ 97 ≤ n ∧ n ≤ 122) ∨ n = 95 →
      (Char.ofNat n).isAlpha = true ∨ Char.ofNat n = '_' := by decide
  have hrange := startsWord_iff.1 hb
  exact hall b.toNat (by omega) hrange

end Byte

namespace Token.Kind

/-- What a name, a number or a text can be when it is written as a token. -/
def Writable : Kind → Prop
  | name word => IsName word
  | number value => 0 ≤ value.toInt
  | text content => QuotedOnce content
  | _ => True

/-- The characters of a word that is spelled by bytes are those of its bytes. -/
theorem isName_of_spelled {word : String} {run : List UInt8} (h : (name word).Spelled run) :
    IsName word := by
  obtain ⟨rfl, ⟨⟨first, hfirst, hstarts⟩, hrun⟩, hkeyword, heof⟩ := h
  have hascii : ∀ b ∈ utf8 word, b.toNat < 128 := by
    intro b hb
    have hrange := Byte.isWord_iff.1 (hrun b hb)
    omega
  have hchars : word.toList = (utf8 word).map fun b => Char.ofNat b.toNat := by
    rw [← String.toList_ofList (l := (utf8 word).map fun b => Char.ofNat b.toNat)]
    exact congrArg String.toList (Utf8.utf8_injective (Utf8.utf8_text hascii).symm)
  refine ⟨?_, ?_, hkeyword, heof⟩
  · refine ⟨Char.ofNat first.toNat, ?_, Byte.char_of_startsWord hstarts⟩
    rw [hchars, List.head?_map, Option.mem_def.1 hfirst]
    rfl
  · intro c hc
    rw [hchars, List.mem_map] at hc
    obtain ⟨b, hb, rfl⟩ := hc
    exact Byte.char_of_isWord (hrun b hb)

/-- A quote is in a text where its byte is among those of the text. -/
theorem mem_utf8_of_mem {content : String} {b : UInt8} (hb : b.toNat < 128)
    (h : Char.ofNat b.toNat ∈ content.toList) : b ∈ utf8 content := by
  rw [Utf8.utf8_eq_flatMap, List.mem_flatMap]
  exact ⟨_, h, by rw [Utf8.encodeChar_of_ascii hb]; exact List.mem_singleton_self b⟩

/-- Whatever is written for a token is a token that can be written. -/
theorem writable_of_spelled {kind : Kind} {run : List UInt8} (h : kind.Spelled run) :
    kind.Writable := by
  cases kind with
  | name word => exact isName_of_spelled h
  | number value =>
    obtain ⟨-, -, hvalue⟩ := h
    rw [Writable, hvalue]
    exact Int.natCast_nonneg _
  | text content =>
    obtain ⟨quote, hquote, habsent, -⟩ := h
    rintro ⟨hsingle, hdouble⟩
    rcases Byte.isQuote_iff.1 hquote with hcode | hcode
    · refine habsent (mem_utf8_of_mem (by omega) ?_)
      rw [hcode]
      exact hsingle
    · refine habsent (mem_utf8_of_mem (by omega) ?_)
      rw [hcode]
      exact hdouble
  | _ => trivial

/-- Every token of a text can be written. -/
theorem writable_of_tokenize {source : String} {ts : List Token} (h : tokenize source = .ok ts)
    {t : Token} (ht : t ∈ ts) : t.kind.Writable := by
  obtain ⟨r, hplaced⟩ := Slices.placed_of_tokenize h ht
  have hholds := hplaced.holds
  cases hkind : t.kind with
  | name | number | text =>
    rw [hkind] at hholds
    exact writable_of_spelled hholds.spelled
  | _ => trivial

end Token.Kind

/-- Expressions in canonical form. -/
inductive PlainExpr.Canonical : PlainExpr → Prop
  | number {value : Number} (h : 0 ≤ value.toInt) : Canonical (.number value)
  | text {content : String} (h : QuotedOnce content) : Canonical (.text content)
  | truth {value : Bool} : Canonical (.truth value)
  | none : Canonical .none
  | path {root : String} {fields : List String} (hroot : IsName root)
      (hfields : ∀ word ∈ fields, IsName word) : Canonical (.path root fields)
  | field {object : PlainExpr} {name : String} (h : Canonical object)
      (hpath : ∀ root fields, object ≠ .path root fields) (hname : IsName name) :
      Canonical (.field object name)
  | call {object : PlainExpr} {method : String} {args : List PlainExpr} (h : Canonical object)
      (hmethod : IsName method) (hargs : ∀ e ∈ args, Canonical e) :
      Canonical (.call object method args)
  | construct {cls : String} {args : List PlainExpr} (hargs : ∀ e ∈ args, Canonical e) :
      Canonical (.construct cls args)
  | stringify {arg : PlainExpr} (h : Canonical arg) : Canonical (.stringify arg)
  | arith {op : ArithOp} {left right : PlainExpr} (h : Canonical left) (h' : Canonical right) :
      Canonical (.arith op left right)
  | conj {left right : PlainExpr} (h : Canonical left) (h' : Canonical right) :
      Canonical (.conj left right)
  | disj {left right : PlainExpr} (h : Canonical left) (h' : Canonical right) :
      Canonical (.disj left right)
  | compare {relation : Relation} {left right : PlainExpr} (h : Canonical left)
      (h' : Canonical right) : Canonical (.compare relation left right)
  | negate {operand : PlainExpr} (h : Canonical operand) : Canonical (.negate operand)
  | not {operand : PlainExpr} (h : Canonical operand) : Canonical (.not operand)

mutual

/-- Statements in canonical form. -/
inductive PlainStmt.Canonical : PlainStmt → Prop
  | assign {name : String} {value : PlainExpr} (hname : IsName name) (h : value.Canonical) :
      PlainStmt.Canonical (.assign name value)
  | assignField {object : PlainExpr} {field : String} {value : PlainExpr} (h : object.Canonical)
      (hfield : IsName field) (hvalue : value.Canonical) :
      PlainStmt.Canonical (.assignField object field value)
  | print {args : List PlainExpr} (h : ∀ e ∈ args, e.Canonical) : PlainStmt.Canonical (.print args)
  | ret {value : Option PlainExpr} (h : ∀ e ∈ value, e.Canonical) :
      PlainStmt.Canonical (.ret value)
  | ifThen {condition : PlainExpr} {body : List PlainStmt} (h : condition.Canonical)
      (hbody : ∀ s ∈ body, PlainStmt.Canonical s) (hne : body ≠ []) :
      PlainStmt.Canonical (.ifThen condition body)
  | ifElse {condition : PlainExpr} {body other : List PlainStmt} (h : condition.Canonical)
      (hbody : ∀ s ∈ body, PlainStmt.Canonical s) (hne : body ≠ [])
      (hother : ∀ s ∈ other, PlainStmt.Canonical s) (hne' : other ≠ []) :
      PlainStmt.Canonical (.ifElse condition body other)
  | define {name : String} {parent : Option String} {methods : List PlainMethod}
      (hname : IsName name) (hmethods : ∀ m ∈ methods, PlainMethod.Canonical m)
      (hne : methods ≠ []) : PlainStmt.Canonical (.define name parent methods)
  | eval {e : PlainExpr} (h : e.Canonical) : PlainStmt.Canonical (.eval e)

/-- Methods in canonical form. -/
inductive PlainMethod.Canonical : PlainMethod → Prop
  | mk {name : String} {params : List String} {body : List PlainStmt} (hname : IsName name)
      (hparams : ∀ word ∈ params, IsName word) (hbody : ∀ s ∈ body, PlainStmt.Canonical s)
      (hne : body ≠ []) : PlainMethod.Canonical ⟨name, params, body⟩

end

namespace Grammar

/-- What the rules for expressions derive is in canonical form. -/
def Phrase.Canonical : Phrase → Prop
  | .expr _ e => e.Canonical
  | .args es => ∀ e ∈ es, e.Canonical

/-- What the rules for statements derive is in canonical form. -/
def Clause.Canonical : Clause → Prop
  | .stmt s => s.Canonical
  | .stmts ss => ∀ s ∈ ss, s.Canonical
  | .methods ms => ∀ m ∈ ms, m.Canonical

variable {known : List String} {ts : List Kind}

theorem operator_canonical {level : Level} {k : Kind} {build : PlainExpr → PlainExpr → PlainExpr}
    (hk : level.operator? k = some build) {l r : PlainExpr} (hl : l.Canonical)
    (hr : r.Canonical) : (build l r).Canonical := by
  rw [Level.operator?.eq_def] at hk
  split at hk <;> cases hk
  · exact .disj hl hr
  · exact .conj hl hr
  all_goals exact .arith hl hr

theorem leading_canonical {level : Level} {k : Kind} {build : PlainExpr → PlainExpr}
    (hk : level.leading? k = some build) {e : PlainExpr} (he : e.Canonical) :
    (build e).Canonical := by
  rw [Level.leading?.eq_def] at hk
  split at hk <;> cases hk
  · exact .not he
  · exact .negate he

/-- A path takes in the field that is selected from it, so none is left below a field. -/
theorem select_canonical {e : PlainExpr} (he : e.Canonical) {name : String} (hname : IsName name) :
    (select e name).Canonical := by
  cases he with
  | path hroot hfields =>
    refine .path hroot ?_
    intro word hword
    rcases List.mem_append.1 hword with hword | hword
    · exact hfields word hword
    · rw [List.mem_singleton.1 hword]
      exact hname
  | number h => exact .field (.number h) (by simp) hname
  | _ => exact .field (by constructor <;> assumption) (by simp) hname

/-- Tokens that can be written spell expressions in canonical form. -/
theorem Spells.canonical {phrase : Phrase} (h : Spells known ts phrase)
    (hts : ∀ k ∈ ts, k.Writable) : phrase.Canonical := by
  induction h with
  | tighter _ ih => exact ih hts
  | operator hk _ _ ihl ihr =>
    simp only [List.forall_mem_append, List.forall_mem_cons] at hts
    exact operator_canonical hk (ihl hts.1) (ihr hts.2.2)
  | leading hk _ ih =>
    simp only [List.forall_mem_cons] at hts
    exact leading_canonical hk (ih hts.2)
  | compare _ _ _ ihl ihr =>
    simp only [List.forall_mem_append, List.forall_mem_cons] at hts
    exact .compare (ihl hts.1) (ihr hts.2.2)
  | field name _ ih =>
    simp only [List.forall_mem_append, List.forall_mem_cons] at hts
    exact select_canonical (ih hts.1) hts.2.2.1
  | call name _ _ ih iha =>
    simp only [List.forall_mem_append, List.forall_mem_cons] at hts
    exact .call (ih hts.1) hts.2.2.1 (iha hts.2.2.2.2.1)
  | number value => exact .number (hts _ (List.mem_singleton_self _))
  | text content => exact .text (hts _ (List.mem_singleton_self _))
  | trueWord => exact .truth
  | falseWord => exact .truth
  | noneWord => exact .none
  | parens _ ih =>
    simp only [List.forall_mem_append, List.forall_mem_cons] at hts
    exact ih hts.2.1
  | name word => exact .path (hts _ (List.mem_singleton_self _)) (by simp)
  | construct _ _ iha =>
    simp only [List.forall_mem_append, List.forall_mem_cons] at hts
    exact .construct (iha hts.2.2.1)
  | stringify _ _ iha =>
    simp only [List.forall_mem_append, List.forall_mem_cons] at hts
    exact .stringify (iha hts.2.2.1 _ (List.mem_singleton_self _))
  | noArgs => exact List.forall_mem_nil _
  | lastArg _ ih => exact List.forall_mem_singleton.2 (ih hts)
  | moreArgs _ _ ih ihs =>
    simp only [List.forall_mem_append, List.forall_mem_cons] at hts
    exact List.forall_mem_cons.2 ⟨ih hts.1, ihs hts.2.2⟩

theorem Listed.canonical {es : List PlainExpr} (h : Listed known ts es)
    (hts : ∀ k ∈ ts, k.Writable) : ∀ e ∈ es, e.Canonical := by
  induction h with
  | last h => exact List.forall_mem_singleton.2 (h.canonical hts)
  | more h _ ih =>
    simp only [List.forall_mem_append, List.forall_mem_cons] at hts
    exact List.forall_mem_cons.2 ⟨h.canonical hts.1, ih hts.2.2⟩

theorem Names.canonical {words : List String} (h : Names ts words) (hts : ∀ k ∈ ts, k.Writable) :
    ∀ word ∈ words, IsName word := by
  induction h with
  | none => exact List.forall_mem_nil _
  | last word => exact List.forall_mem_singleton.2 (hts _ (List.mem_singleton_self _))
  | more word _ ih =>
    simp only [List.forall_mem_cons] at hts
    exact List.forall_mem_cons.2 ⟨hts.1, ih hts.2.2⟩

theorem Assigns.canonical {target value : PlainExpr} {s : PlainStmt} (h : Assigns target value s)
    (ht : target.Canonical) (hv : value.Canonical) : s.Canonical := by
  cases h with
  | root name value =>
    cases ht with
    | path hroot _ => exact .assign hroot hv
  | member root fields last value =>
    cases ht with
    | path hroot hfields =>
      rw [List.forall_mem_append, List.forall_mem_singleton] at hfields
      exact .assignField (.path hroot hfields.1) hfields.2 hv
  | field object name value =>
    cases ht with
    | field h _ hname => exact .assignField h hname hv

/-- Tokens that can be written form statements in canonical form. -/
theorem Forms.canonical {known' : List String} {clause : Clause}
    (h : Forms known ts clause known') (hts : ∀ k ∈ ts, k.Writable) : clause.Canonical := by
  induction h with
  | returnNone => exact .ret (by simp)
  | returnValue h =>
    simp only [List.forall_mem_append, List.forall_mem_cons] at hts
    refine .ret ?_
    rintro _ ⟨⟩
    exact h.canonical hts.2.1
  | printNone => exact .print (List.forall_mem_nil _)
  | print h =>
    simp only [List.forall_mem_append, List.forall_mem_cons] at hts
    exact .print (h.canonical hts.2.1)
  | assign ht hv hs =>
    simp only [List.forall_mem_append, List.forall_mem_cons] at hts
    exact hs.canonical (ht.canonical hts.1) (hv.canonical hts.2.2.1)
  | eval h =>
    simp only [List.forall_mem_append] at hts
    exact .eval (h.canonical hts.1)
  | ifThen hc _ hne ih =>
    simp only [block, List.forall_mem_append, List.forall_mem_cons] at hts
    exact .ifThen (hc.canonical hts.2.1) (ih hts.2.2.2.2.2.1) hne
  | ifElse hc _ hne _ hne' ihb iho =>
    simp only [block, List.forall_mem_append, List.forall_mem_cons] at hts
    obtain ⟨-, hcondition, ⟨-, -, -, hbody, -⟩, -, -, -, -, hother, -⟩ := hts
    exact .ifElse (hc.canonical hcondition) (ihb hbody) hne (iho hother) hne'
  | define word _ _ hne ih =>
    simp only [block, List.forall_mem_append, List.forall_mem_cons] at hts
    obtain ⟨-, hname, -, -, -, -, hmethods, -⟩ := hts
    exact .define hname (ih hmethods) hne
  | noStmts => exact List.forall_mem_nil _
  | nextStmt _ _ ih ihs =>
    simp only [List.forall_mem_append] at hts
    exact List.forall_mem_cons.2 ⟨ih hts.1, ihs hts.2⟩
  | noMethods => exact List.forall_mem_nil _
  | nextMethod word hp _ hne _ ihb ihs =>
    simp only [block, List.forall_mem_append, List.forall_mem_cons] at hts
    obtain ⟨-, hname, -, hparams, -, ⟨-, -, -, hbody, -⟩, hrest⟩ := hts
    exact List.forall_mem_cons.2 ⟨.mk hname (hp.canonical hparams) (ihb hbody) hne, ihs hrest⟩

end Grammar

theorem Expr.plainAll_eq_map (es : List Expr) : plainAll es = es.map plain := by
  induction es with
  | nil => rfl
  | cons e es ih => rw [plainAll, ih, List.map_cons]

theorem Stmt.plainAll_eq_map (ss : List Stmt) : plainAll ss = ss.map plain := by
  induction ss with
  | nil => rfl
  | cons s ss ih => rw [plainAll, ih, List.map_cons]

theorem Method.plainAll_eq_map (ms : List Method) :
    plainAll ms = ms.map fun m => ⟨m.name, m.params, Stmt.plainAll m.body⟩ := by
  induction ms with
  | nil => rfl
  | cons m ms ih =>
    obtain ⟨name, params, body⟩ := m
    rw [plainAll, ih, List.map_cons]

namespace Code

/-- A piece of a program is in canonical form as far as it is written where it stands: the classes
that it refers to are not looked into. -/
def Plainly : Code → Prop
  | expr e => e.plain.Canonical
  | stmt s => s.plain.Canonical
  | method m => PlainMethod.Canonical ⟨m.name, m.params, Stmt.plainAll m.body⟩
  | cls c => IsName c.name ∧ (∀ m ∈ Method.plainAll c.methods, m.Canonical) ∧ c.methods ≠ []

theorem plainly_exprs {es : List Expr} (h : ∀ e ∈ Expr.plainAll es, e.Canonical) :
    ∀ b ∈ es.map expr, b.Plainly := by
  rw [Expr.plainAll_eq_map, List.forall_mem_map] at h
  exact List.forall_mem_map.2 h

theorem plainly_stmts {ss : List Stmt} (h : ∀ s ∈ Stmt.plainAll ss, s.Canonical) :
    ∀ b ∈ ss.map stmt, b.Plainly := by
  rw [Stmt.plainAll_eq_map, List.forall_mem_map] at h
  exact List.forall_mem_map.2 h

variable {ms : List Mention} (hms : ∀ c, .completes c ∈ ms → (cls c).Plainly)

include hms

/-- The parts of an expression are canonical with it; a class is so where it is completed. -/
theorem plainly_of_expr {e : Expr} (h : e.plain.Canonical)
    (hcovered : ∀ b ∈ (expr e).parts, b.Covered ms) : ∀ b ∈ (expr e).parts, b.Plainly := by
  cases e with
  | number | text | truth | none | path => simp [parts]
  | field =>
    cases h with
    | field h => exact List.forall_mem_singleton.2 h
  | call =>
    cases h with
    | call h _ hargs => exact List.forall_mem_cons.2 ⟨h, plainly_exprs hargs⟩
  | construct c =>
    cases h with
    | construct hargs =>
      exact List.forall_mem_cons.2 ⟨hms c (hcovered _ List.mem_cons_self), plainly_exprs hargs⟩
  | stringify =>
    cases h with
    | stringify h => exact List.forall_mem_singleton.2 h
  | negate =>
    cases h with
    | negate h => exact List.forall_mem_singleton.2 h
  | not =>
    cases h with
    | not h => exact List.forall_mem_singleton.2 h
  | arith =>
    cases h with
    | arith h h' => simpa [parts] using ⟨h, h'⟩
  | conj =>
    cases h with
    | conj h h' => simpa [parts] using ⟨h, h'⟩
  | disj =>
    cases h with
    | disj h h' => simpa [parts] using ⟨h, h'⟩
  | compare =>
    cases h with
    | compare h h' => simpa [parts] using ⟨h, h'⟩

theorem plainly_of_stmt {s : Stmt} (h : s.plain.Canonical)
    (hcovered : ∀ b ∈ (stmt s).parts, b.Covered ms) : ∀ b ∈ (stmt s).parts, b.Plainly := by
  cases s with
  | assign =>
    cases h with
    | assign _ h => exact List.forall_mem_singleton.2 h
  | assignField =>
    cases h with
    | assignField h _ hvalue => simpa [parts] using ⟨h, hvalue⟩
  | print =>
    cases h with
    | print h => exact plainly_exprs h
  | ret value =>
    cases h with
    | ret h =>
      cases value with
      | none => simp [parts]
      | some value => exact List.forall_mem_singleton.2 (h _ rfl)
  | ifThen =>
    cases h with
    | ifThen h hbody => exact List.forall_mem_cons.2 ⟨h, plainly_stmts hbody⟩
  | ifElse =>
    cases h with
    | ifElse h hbody _ hother =>
      simp only [parts, List.forall_mem_cons, List.map_append, List.forall_mem_append]
      exact ⟨h, plainly_stmts hbody, plainly_stmts hother⟩
  | define c => exact List.forall_mem_singleton.2 (hms c (hcovered _ List.mem_cons_self))
  | eval =>
    cases h with
    | eval h => exact List.forall_mem_singleton.2 h

/-- What is canonical where it stands has such parts. -/
theorem Plainly.parts {a : Code} (h : a.Plainly) (hcovered : ∀ b ∈ a.parts, b.Covered ms) :
    ∀ b ∈ a.parts, b.Plainly := by
  cases a with
  | expr e => exact plainly_of_expr hms h hcovered
  | stmt s => exact plainly_of_stmt hms h hcovered
  | method m =>
    cases h with
    | mk _ _ hbody => exact plainly_stmts hbody
  | cls c =>
    obtain ⟨-, hmethods, -⟩ := h
    rw [Method.plainAll_eq_map, List.forall_mem_map] at hmethods
    simp only [Code.parts, List.forall_mem_append, List.forall_mem_map] at hcovered ⊢
    exact ⟨hmethods, fun k hk => hms k (hcovered.2 k hk)⟩

end Code

open Code (Plainly)

mutual

/-- A class is canonical where a canonical statement completes it. -/
theorem Stmt.plainly_of_completes {c : Class} : ∀ s : Stmt, s.plain.Canonical →
    .completes c ∈ s.mentions → (Code.cls c).Plainly
  | .assign _ value _, _, h | .ret (some value) _, _, h | .eval value, _, h => by
    cases Expr.completed?_of_mem value h
  | .assignField object _ value _, _, h => by
    rcases List.mem_append.1 h with h | h
    · cases Expr.completed?_of_mem object h
    · cases Expr.completed?_of_mem value h
  | .print args _, _, h => by
    cases Expr.completed?_of_memAll args h
  | .ret none _, _, h => by
    cases h
  | .ifThen condition body _, hs, h => by
    cases hs with
    | ifThen _ hbody =>
      rcases List.mem_append.1 h with h | h
      · cases Expr.completed?_of_mem condition h
      · exact Stmt.plainly_of_completesAll body hbody h
  | .ifElse condition body other _, hs, h => by
    cases hs with
    | ifElse _ hbody _ hother =>
      rcases List.mem_append.1 h with h | h
      · cases Expr.completed?_of_mem condition h
      · rcases List.mem_append.1 h with h | h
        · exact Stmt.plainly_of_completesAll body hbody h
        · exact Stmt.plainly_of_completesAll other hother h
  | .define ⟨name, methods, parent⟩ _, hs, h => by
    cases hs with
    | define hname hmethods hne =>
      rcases List.mem_append.1 h with h | h
      · rcases List.mem_append.1 h with h | h
        · obtain ⟨k, -, hk⟩ := List.mem_map.1 h
          cases hk
        · exact Method.plainly_of_completesAll methods hmethods h
      · cases List.mem_singleton.1 h
        refine ⟨hname, hmethods, ?_⟩
        rintro rfl
        exact hne rfl

theorem Stmt.plainly_of_completesAll {c : Class} : ∀ ss : List Stmt,
    (∀ s ∈ Stmt.plainAll ss, s.Canonical) → .completes c ∈ Stmt.mentionsAll ss →
      (Code.cls c).Plainly
  | [], _, h => by
    cases h
  | s :: ss, hss, h => by
    obtain ⟨hs, hrest⟩ := List.forall_mem_cons.1 hss
    rcases List.mem_append.1 h with h | h
    · exact Stmt.plainly_of_completes s hs h
    · exact Stmt.plainly_of_completesAll ss hrest h

theorem Method.plainly_of_completesAll {c : Class} : ∀ ms : List Method,
    (∀ m ∈ Method.plainAll ms, m.Canonical) → .completes c ∈ Method.mentionsAll ms →
      (Code.cls c).Plainly
  | [], _, h => by
    cases h
  | ⟨_, _, body⟩ :: ms, hms, h => by
    obtain ⟨hm, hrest⟩ := List.forall_mem_cons.1 hms
    rcases List.mem_append.1 h with h | h
    · cases hm with
      | mk _ _ hbody => exact Stmt.plainly_of_completesAll body hbody h
    · exact Method.plainly_of_completesAll ms hrest h

end

/-- Everything in a program whose statements are canonical is so, wherever it is contained. -/
theorem Program.plainly_of_contains {p : Program} (hr : Mention.Resolved p.mentions)
    (hbody : ∀ s ∈ Stmt.plainAll p.body, s.Canonical) {code : Code} (h : p.Contains code) :
    code.Plainly := by
  have hclasses : ∀ c, .completes c ∈ p.mentions → (Code.cls c).Plainly := fun c hc =>
    Stmt.plainly_of_completesAll p.body hbody hc
  obtain ⟨s, hs, hcode⟩ := h
  induction hcode with
  | refl => exact Code.plainly_stmts hbody _ (List.mem_map.2 ⟨s, hs, rfl⟩)
  | @tail b c hab hpart ih =>
    refine ih.parts hclasses (fun d hd => ?_) c hpart
    exact Program.covered_of_contains hr ⟨s, hs, hab.tail hd⟩

/-- The statements of a program that a text spells are canonical where they stand. -/
theorem Program.canonical_body {source : String} {p : Program} (h : parse source = .ok p) :
    ∀ s ∈ Stmt.plainAll p.body, s.Canonical := by
  obtain ⟨ts, htokens, known, hforms⟩ := Grammar.derives_of_parse h
  refine hforms.canonical fun k hk => ?_
  obtain ⟨t, ht, rfl⟩ := List.mem_map.1 ((List.takeWhile_sublist _).mem hk)
  exact Token.Kind.writable_of_tokenize htokens ht

/-- What can be told of a piece of a program by looking at it and at the heads of its parts. -/
def Code.Canonical : Code → Prop
  | expr (.number value _) => 0 ≤ value.toInt ∧ value.toInt ≤ Number.greatest
  | expr (.text content _) => QuotedOnce content
  | expr (.path root fields _) => root :: fields ≠ [] ∧ ∀ word ∈ root :: fields, IsName word
  | expr (.field object name _) => (∀ root fields pos, object ≠ .path root fields pos) ∧ IsName name
  | expr (.call _ word _ _) => IsName word
  | expr (.arith op _ _ _) => op.symbol ∈ ["+", "-", "*", "/"]
  | stmt (.assign name _ _) => IsName name
  | stmt (.assignField _ field _ _) => IsName field
  | stmt (.ifThen _ body _) => body ≠ []
  | stmt (.ifElse _ body other _) => body ≠ [] ∧ other ≠ []
  | method m => IsName m.name ∧ (∀ word ∈ m.params, IsName word) ∧ m.body ≠ []
  | cls c => IsName c.name ∧ c.methods ≠ []
  | _ => True

/-- A block whose plain form is not empty is not empty. -/
theorem Stmt.ne_nil_of_plainAll {ss : List Stmt} (h : Stmt.plainAll ss ≠ []) : ss ≠ [] := by
  rintro rfl
  exact h rfl

/-- What is canonical as far as it is written in one place is canonical. -/
theorem Code.Plainly.canonical {a : Code} (h : a.Plainly) : a.Canonical := by
  cases a with
  | expr e =>
    cases e with
    | number value =>
      cases h with
      | number h => exact ⟨h, Int.le_of_lt_add_one value.toInt_lt⟩
    | text =>
      cases h with
      | text h => exact h
    | path =>
      cases h with
      | path hroot hfields =>
        exact ⟨List.cons_ne_nil _ _, List.forall_mem_cons.2 ⟨hroot, hfields⟩⟩
    | field =>
      cases h with
      | field _ hpath hname =>
        refine ⟨?_, hname⟩
        rintro root fields pos rfl
        exact hpath root fields rfl
    | call =>
      cases h with
      | call _ hmethod => exact hmethod
    | arith op =>
      show op.symbol ∈ ["+", "-", "*", "/"]
      cases op <;> decide
    | _ => trivial
  | stmt s =>
    cases s with
    | assign =>
      cases h with
      | assign hname => exact hname
    | assignField =>
      cases h with
      | assignField _ hfield => exact hfield
    | ifThen =>
      cases h with
      | ifThen _ _ hne => exact Stmt.ne_nil_of_plainAll hne
    | ifElse =>
      cases h with
      | ifElse _ _ hne _ hne' => exact ⟨Stmt.ne_nil_of_plainAll hne, Stmt.ne_nil_of_plainAll hne'⟩
    | _ => trivial
  | method m =>
    cases h with
    | mk hname hparams _ hne => exact ⟨hname, hparams, Stmt.ne_nil_of_plainAll hne⟩
  | cls c => exact ⟨h.1, h.2.2⟩

/-- The token that is taken by reading on. -/
def Parse.taken : Parse Kind := do
  let found ← kind
  advance
  return found

/-- Reads a name that is looked at again when it has been taken; `other` is done if it is none. -/
def Parse.nameTaken (other : Parse String) : Parse String := do
  match ← kind with
  | .name _ =>
    match ← taken with
    | .name word => return word
    | _ => other
  | found => fail (.expectedName found)

/-- A token that is a name still is one when it has been taken. -/
theorem Parse.nameTaken_eq (other : Parse String) : nameTaken other = name := by
  funext c
  rw [nameTaken, name, kind_bind, kind_bind]
  cases hk : c.lookahead.kind with
  | name word =>
    show (taken >>= _) c = _
    rw [taken, bind_assoc, kind_bind, bind_assoc, hk]
    rfl
  | _ => rfl

/-- The assignment to a row of names; `other` is done if there are none. -/
def Parse.assignNames (other : Parse Stmt) (names : List String) (origin : Position)
    (value : Expr) (pos : Position) : Parse Stmt :=
  match names.getLast?, names.dropLast with
  | some name, [] => return .assign name value pos
  | some field, root :: fields => return .assignField (.path root fields origin) field value pos
  | none, _ => other

/-- An assignment to a path is one to a row of names, and there are some. -/
theorem Parse.assignment?_path (root : String) (fields : List String) (origin : Position)
    (value : Expr) (pos : Position) :
    ∃ s, assignment? (.path root fields origin) value pos = some s ∧
      ∀ other, assignNames other (root :: fields) origin value pos = pure s := by
  rw [assignment?]
  cases hlast : fields.getLast? with
  | none =>
    obtain rfl := List.getLast?_eq_none_iff.1 hlast
    exact ⟨_, rfl, fun _ => rfl⟩
  | some last =>
    obtain ⟨front, rfl⟩ := List.getLast?_eq_some_iff.1 hlast
    refine ⟨_, rfl, fun other => ?_⟩
    have hnames : root :: (front ++ [last]) = (root :: front) ++ [last] := rfl
    rw [assignNames, hnames, List.getLast?_concat, List.dropLast_concat, List.dropLast_concat]

/-- The value at the end of a row of names; `other` is done if there are none. -/
def Run.names (other : Run Handle) : List String → Nat → Run Handle
  | [], _ => other
  | root :: fields, line => Run.path root fields line

/-- The operators between two operands, `and` and `or` among those of arithmetic. -/
inductive Operator where
  | arith (op : ArithOp)
  | conj
  | disj

/-- What an operator makes of two operands. -/
def Operator.expr : Operator → Expr → Expr → Position → Expr
  | arith op, left, right, pos => .arith op left right pos
  | conj, left, right, pos => .conj left right pos
  | disj, left, right, pos => .disj left right pos

/-- What is computed from two values by any operator; `other` is done for `and` and `or`. -/
def Run.computed (other : Run Handle) (g : Guest) : Operator → Handle → Handle → Nat → Run Handle
  | .arith op, x, y, line => arithmetic g op x y line
  | .conj, _, _, _ | .disj, _, _, _ => other

/-- The value of an operator between two operands: `and` and `or` have been told apart before both
operands are evaluated, and whatever is left is computed from both values. -/
def Run.operation (other : Run Handle) (g : Guest) (left right : Expr) (pos : Position) :
    Operator → Run Handle
  | .conj => (Expr.conj left right pos).eval g
  | .disj => (Expr.disj left right pos).eval g
  | op => do
    let x ← left.eval g
    let y ← keeping x (right.eval g)
    computed other g op x y pos.line

/-- Arithmetic never meets `and` or `or`. -/
theorem Run.operation_eq (other : Run Handle) (g : Guest) (left right : Expr) (pos : Position)
    (op : Operator) : operation other g left right pos op = (op.expr left right pos).eval g := by
  cases op with
  | arith op =>
    rw [Operator.expr, Expr.eval]
    rfl
  | conj => rfl
  | disj => rfl

namespace SyntaxError.Cause

theorem message_ne_emptyName (cause : Cause) :
    cause.message ≠ "cannot assign to an empty name" := by
  intro h
  have hletters := congrArg String.toList h
  cases cause with
  | unclosedText | deepIndent | notAssignable | conversionArity | unfinished =>
    revert h
    decide
  | _ =>
    delta message at hletters
    simp [String.toList_append] at hletters

/-- A name that is missing is reported with a code of its own. -/
theorem message_ne_missingName {cause : Cause} (h : cause.code = "P001") (found : Kind) :
    cause.message ≠ "expected identifier, found " ++ found.label := by
  intro hmessage
  have hletters := congrArg String.toList hmessage
  cases cause with
  | expectedExpression | notAssignable | conversionArity =>
    delta message at hletters
    simp [String.toList_append] at hletters
  | _ => simp [code] at h

end SyntaxError.Cause

/-- Programs are parsed into canonical form. Everything that a program contains, in the bodies of
its methods and in the classes that it refers to as well, has no empty block, no class without
methods and no empty path; its names are names, its numbers are not negative and its texts do not
hold both quotes; no field is selected from a path other than by the path itself. So nothing depends
on what is done with an empty path when it is read, or assigned to, or with `and` and `or` when two
values are computed with; no error says that a name is empty, or that a token seen to be a name is
none. Two of these facts are carried by the constructors of `Expr`, in the form in which the parser
builds trees: a path has a root, and the operators of arithmetic are those of `ArithOp`. -/
theorem Program.canonical_of_parse (source : String) :
    (∀ p, parse source = .ok p → ∀ code, p.Contains code → code.Canonical) ∧
      (∀ e, parse source = .error e → e.cause.message ≠ "cannot assign to an empty name" ∧
        (e.code = "P001" → ∀ found : Kind,
          e.cause.message ≠ "expected identifier, found " ++ found.label)) ∧
      (∀ other, Parse.nameTaken other = Parse.name) ∧
      (∀ root fields origin value pos,
        ∃ s, Parse.assignment? (.path root fields origin) value pos = some s ∧
          ∀ other, Parse.assignNames other (root :: fields) origin value pos = pure s) ∧
      (∀ p, parse source = .ok p → ∀ root fields pos,
        p.Contains (.expr (.path root fields pos)) → ∀ g other,
          (Expr.path root fields pos).eval g = Run.names other (root :: fields) pos.line) ∧
      ∀ other g left right pos op,
        Run.operation other g left right pos op = (op.expr left right pos).eval g := by
  refine ⟨?_, ?_, Parse.nameTaken_eq, Parse.assignment?_path, ?_, Run.operation_eq⟩
  · intro p hp code hcode
    have hresolved := Program.resolved_mentions hp
    exact (Program.plainly_of_contains hresolved (Program.canonical_body hp) hcode).canonical
  · intro e _
    exact ⟨e.cause.message_ne_emptyName, SyntaxError.Cause.message_ne_missingName⟩
  · intro p _ root fields pos _ g other
    rw [Expr.eval, Run.names]

/-- A class whose method selects a field of a call and gives a text with a quote in it, and a number
where a name should stand. -/
theorem Program.canonical_of_parse_counter :
    (∃ p, parse ("class Counter:\n  def next():\n    if self.total.value:\n" ++
        "      return self.next().last\n    return \"it's\"\nc = Counter()\nc.n = 12\n") = .ok p ∧
      ∀ code, p.Contains code → code.Canonical) ∧
    ∃ e, parse "class Counter:\n  def 7():\n" = .error e ∧
      e.cause.message ≠ "cannot assign to an empty name" := by
  constructor
  · have hok : (parse ("class Counter:\n  def next():\n    if self.total.value:\n" ++
        "      return self.next().last\n    return \"it's\"\nc = Counter()\nc.n = 12\n")).toBool =
        true := by decide +kernel
    cases hp : parse ("class Counter:\n  def next():\n    if self.total.value:\n" ++
        "      return self.next().last\n    return \"it's\"\nc = Counter()\nc.n = 12\n") with
    | ok p => exact ⟨p, rfl, (Program.canonical_of_parse _).1 p hp⟩
    | error e =>
      rw [hp] at hok
      cases hok
  · have hfails : (parse "class Counter:\n  def 7():\n").toBool = false := by decide +kernel
    cases he : parse "class Counter:\n  def 7():\n" with
    | ok p =>
      rw [he] at hfails
      cases hfails
    | error e => exact ⟨e, rfl, ((Program.canonical_of_parse _).2.1 e he).1⟩

end Mython
