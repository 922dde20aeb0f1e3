import Mython.Proofs.Program.Language
import Mython.Proofs.Program.Telling

namespace Mython

theorem Cursor.tokens_ofStream {stream : TokenStream} {c : Cursor} (h : ofStream stream = .ok c) :
    c.tokens = stream.tokens ∧ c.classes = [] := by
  obtain ⟨tokens, fault⟩ := stream
  cases tokens with
  | nil => cases fault <;> cases h
  | cons t ts =>
    cases h
    exact ⟨rfl, rfl⟩

namespace Parse

/-- What happens while a text is read, up to the end or to the first error. -/
def events (source : String) : List Event :=
  match Cursor.ofStream (TokenStream.ofSource source) with
  | .ok c =>
    (Account.program ((TokenStream.ofSource source).tokens.length + 2)).steps.trace c
  | .error _ => []

/-- Reading a text fails at a place, with an error of a code. -/
def FailsAt (source : String) (pos : Position) (code : String) : Prop :=
  ∃ e, parse source = .error e ∧ e.pos = pos ∧ e.code = code

/-- Either no token can be read at all, or a program is read from the first one on. -/
theorem events_cases (source : String) :
    ((∃ e, parse source = .error e) ∧ events source = []) ∨
      ∃ (p : Parse Program) (h : Account [] p Program.mentions) (c : Cursor),
        c.Tidy ∧ c.tokens = (TokenStream.ofSource source).tokens ∧ c.classes = [] ∧
          parse source = (p c).map Prod.fst ∧ events source = h.steps.trace c := by
  rw [events, parse, TokenStream.parse]
  cases hc : Cursor.ofStream (TokenStream.ofSource source) with
  | error e => exact Or.inl ⟨⟨e, rfl⟩, rfl⟩
  | ok c =>
    obtain ⟨htokens, hclasses⟩ := Cursor.tokens_ofStream hc
    exact Or.inr ⟨_, Account.program _, c, (Cursor.ofSource_tidy hc).1, htokens, hclasses, rfl, rfl⟩

/-- What is told of reading a text. -/
theorem events_told (source : String) :
    Event.tokens (events source) <+: (TokenStream.ofSource source).tokens ∧
      Throughout Event.Spelled (events source) ∧
      Throughout (fun front => Event.Means (Mention.completed (Event.mentions front)))
        (events source) ∧
      (∀ e ∈ events source, ∀ err, e.failure? = some err → parse source = .error err) ∧
      ∀ p, parse source = .ok p → Event.mentions (events source) = p.mentions := by
  rcases events_cases source with
    ⟨⟨e, herror⟩, hnone⟩ | ⟨p, h, c, hc, htokens, hclasses, hparse, hevents⟩
  · rw [hnone]
    exact ⟨List.nil_prefix, .nil, .nil, by simp, fun p hp => by rw [herror] at hp; cases hp⟩
  · have htold := h.steps.told c
    rw [hevents, hparse, ← htokens]
    refine ⟨htold.read, ?_, ?_, ?_, ?_⟩
    · exact h.spells hc
    · simpa [hclasses] using htold.means
    · intro e he err herr
      rw [htold.fails e he err herr]
      rfl
    · intro program hprogram
      cases hrun : p c with
      | error e =>
        rw [hrun] at hprogram
        cases hprogram
      | ok r =>
        obtain ⟨answer, c'⟩ := r
        rw [hrun] at hprogram
        cases hprogram
        exact h.mentions hrun

/-- What is mentioned in a list of events is mentioned at one of them. -/
theorem mentions_eq_append_cons {es : List Event} {front rest : List Mention} {m : Mention}
    (h : Event.mentions es = front ++ m :: rest) :
    ∃ before e after, es = before ++ e :: after ∧ e.mention? = some m ∧
      Event.mentions before = front := by
  obtain ⟨before, behind, rfl, hbefore, hbehind⟩ := List.filterMap_eq_append_iff.1 h
  obtain ⟨skipped, e, after, rfl, hskipped, he, -⟩ := List.filterMap_eq_cons_iff.1 hbehind
  refine ⟨before ++ skipped, e, after, (List.append_assoc ..).symm, he, ?_⟩
  rw [Event.mentions_append, Event.mentions, hbefore, Event.mentions,
    List.filterMap_eq_nil_iff.2 hskipped, List.append_nil]

theorem callAnswer_of_ne {word : String} (h : word ≠ conversionName) (args : List Expr)
    (pos : Position) :
    Event.callAnswer word args pos none = .error ⟨.unknownClass word, pos⟩ := by
  rw [Event.callAnswer.eq_def]
  exact if_neg h

theorem callAnswer_conversion {args : List Expr} (h : args.length ≠ 1) (pos : Position) :
    Event.callAnswer conversionName args pos none = .error ⟨.conversionArity, pos⟩ := by
  rcases args with _ | ⟨arg, _ | ⟨_, _⟩⟩
  · rfl
  · exact absurd rfl h
  · rfl

theorem callAnswer_eq_construct {word : String} {args args' : List Expr} {pos pos' : Position}
    {found : Option Class} {cls : Class}
    (h : Event.callAnswer word args pos found = .ok (.construct cls args' pos')) :
    found = some cls := by
  rw [Event.callAnswer.eq_def] at h
  split at h
  · cases h
    rfl
  · split at h
    · split at h <;> cases h
    · cases h

/-- A reference means the newest class of its name. -/
theorem newest_of_means {front : List Mention} {e : Event} {m : Mention} {cls : Class}
    (h : e.Means (Mention.completed front)) (hm : e.mention? = some m)
    (href : m.reference? = some cls) : Mention.newest front cls.name = some cls := by
  have hnamed : ∀ word, Mention.newest front word = some cls →
      Mention.newest front cls.name = some cls := by
    intro word hword
    have hname : cls.name = word := by simpa using List.find?_some hword
    rwa [hname]
  cases e with
  | reads t => cases hm
  | completes k =>
    cases hm
    cases href
  | calls word args pos answer =>
    cases answer with
    | error err => cases hm
    | ok found =>
      cases hm
      cases found with
      | construct k args' pos' =>
        cases href
        exact hnamed word (callAnswer_eq_construct h.symm)
      | _ => cases href
  | inherits word pos answer =>
    rcases answer with err | _ | k
    · cases hm
    · cases hm
    · cases hm
      cases href
      refine hnamed word ?_
      have hanswer : Event.parentAnswer word pos (Mention.newest front word) = .ok (some cls) :=
        h.symm
      cases hfound : Mention.newest front word with
      | none =>
        rw [hfound] at hanswer
        cases hanswer
      | some k =>
        rw [hfound] at hanswer
        cases hanswer
        rfl

open Event in
/-- How the call of a bare name is answered while a text is read. -/
theorem calls_answered {source word : String} {front rest : List Event} {args : List Expr}
    {pos : Position} {answer : Except SyntaxError Expr}
    (heq : events source = front ++ .calls word args pos answer :: rest) :
    (∀ cls, Mention.newest (mentions front) word = some cls →
      answer = .ok (.construct cls args pos)) ∧
    (Mention.newest (mentions front) word = none →
      (word ≠ "str" → FailsAt source pos "P003") ∧
      (word = "str" → (∀ arg, args = [arg] → answer = .ok (.stringify arg pos)) ∧
        (args.length ≠ 1 → FailsAt source pos "P001"))) := by
  obtain ⟨-, -, hmeans, hfails, -⟩ := events_told source
  have hanswer : answer = callAnswer word args pos (Mention.newest (mentions front) word) :=
    hmeans front _ rest heq
  have hmem : .calls word args pos answer ∈ events source := by simp [heq]
  refine ⟨fun cls hcls => by rw [hanswer, hcls, callAnswer], fun hnone => ?_⟩
  rw [hnone] at hanswer
  refine ⟨fun hword => ?_, ?_⟩
  · rw [callAnswer_of_ne hword] at hanswer
    exact ⟨_, hfails _ hmem _ (by rw [hanswer]; rfl), rfl, rfl⟩
  · rintro rfl
    refine ⟨?_, fun hargs => ?_⟩
    · rintro arg rfl
      exact hanswer
    · have hrefused := hanswer.trans (callAnswer_conversion hargs pos)
      exact ⟨_, hfails _ hmem _ (by rw [hrefused]; rfl), rfl, rfl⟩

open Event in
/-- How the name of a class to extend is answered while a text is read. -/
theorem inherits_answered {source word : String} {front rest : List Event} {pos : Position}
    {answer : Except SyntaxError (Option Class)}
    (heq : events source = front ++ .inherits word pos answer :: rest) :
    (∀ cls, Mention.newest (mentions front) word = some cls → answer = .ok (some cls)) ∧
      (Mention.newest (mentions front) word = none → FailsAt source pos "P003") := by
  obtain ⟨-, -, hmeans, hfails, -⟩ := events_told source
  have hanswer : answer = parentAnswer word pos (Mention.newest (mentions front) word) :=
    hmeans front _ rest heq
  have hmem : .inherits word pos answer ∈ events source := by simp [heq]
  refine ⟨fun cls hcls => by rw [hanswer, hcls, parentAnswer], fun hnone => ?_⟩
  rw [hnone, parentAnswer] at hanswer
  exact ⟨_, hfails _ hmem _ (by rw [hanswer]; rfl), rfl, rfl⟩

end Parse

/-- In a program that a text spells, every reference is resolved. -/
theorem Program.resolved_mentions {source : String} {p : Program} (h : parse source = .ok p) :
    Mention.Resolved p.mentions := by
  obtain ⟨-, -, hmeans, -, hmentions⟩ := Parse.events_told source
  rw [← hmentions p h]
  intro front m rest heq cls href
  obtain ⟨before, e, after, hevents, he, rfl⟩ := Parse.mentions_eq_append_cons heq
  exact Parse.newest_of_means (hmeans before e after hevents) he href

example :
    (parse ("class A:\n  def f():\n    return 1\nclass A(A):\n  def f():\n    return A()\n" ++
        "  def g():\n    return A()\n")).toOption.map (fun p =>
      (p.mentions.filterMap Mention.reference?).map fun cls => cls.methods.length) =
        some [1, 1, 1] := by decide +kernel

open Parse Event in
/-- Names of classes mean the newest class of that name which is completed in front of them, in the
order of the text; a class is completed where the token that closes its block has been read. This is
so for each call of a bare name and each class to extend that is completely read, whether or not the
text is a program. A name without such a class makes reading fail with `P003` at its place, except
that `str` converts one argument to text and fails with `P001` for any other number. In the end,
what a program mentions is what was told while it was read, everything that it contains is
mentioned, and the text of a class, which stands in front of its end, never refers to that class. -/
theorem Parse.names_resolve (source : String) :
    Event.tokens (events source) <+: (TokenStream.ofSource source).tokens ∧
      Throughout Spelled (events source) ∧
      (∀ front word args pos answer rest,
        events source = front ++ .calls word args pos answer :: rest →
          (∀ cls, Mention.newest (mentions front) word = some cls →
            answer = .ok (.construct cls args pos)) ∧
          (Mention.newest (mentions front) word = none →
            (word ≠ "str" → FailsAt source pos "P003") ∧
            (word = "str" → (∀ arg, args = [arg] → answer = .ok (.stringify arg pos)) ∧
              (args.length ≠ 1 → FailsAt source pos "P001")))) ∧
      (∀ front word pos answer rest,
        events source = front ++ .inherits word pos answer :: rest →
          (∀ cls, Mention.newest (mentions front) word = some cls → answer = .ok (some cls)) ∧
          (Mention.newest (mentions front) word = none → FailsAt source pos "P003")) ∧
      ∀ p, parse source = .ok p →
        mentions (events source) = p.mentions ∧
        (∀ front m rest cls, p.mentions = front ++ m :: rest → m.reference? = some cls →
          Mention.newest front cls.name = some cls) ∧
        (∀ cls args pos, p.Contains (.expr (.construct cls args pos)) →
          .makes (.construct cls args pos) ∈ p.mentions) ∧
        (∀ cls, p.Contains (.cls cls) → .completes cls ∈ p.mentions ∧
          ∀ parent, cls.parent = some parent → .inherits parent ∈ p.mentions) ∧
        ∀ front cls rest, p.mentions = front ++ .completes cls :: rest →
          (∃ outer, front = outer ++ cls.mentions) ∧
            ∀ m ∈ cls.mentions, m.reference? ≠ some cls := by
  obtain ⟨hread, hspelled, -, -, hmentions⟩ := events_told source
  refine ⟨hread, hspelled, fun _ _ _ _ _ _ => calls_answered,
    fun _ _ _ _ _ => inherits_answered, ?_⟩
  intro p hp
  have hresolved := Program.resolved_mentions hp
  have henclosed := p.enclosed_mentions
  refine ⟨hmentions p hp, fun front m rest cls heq => hresolved front m rest heq cls,
    fun cls args pos => Program.makes_of_contains hresolved,
    fun cls hcls => ⟨Program.completes_of_contains hresolved hcls,
      fun parent => Program.inherits_of_contains hresolved hcls⟩, ?_⟩
  intro front cls rest heq
  refine ⟨henclosed front _ rest heq cls rfl, fun m hm => ?_⟩
  exact henclosed.reference_ne hresolved (by rw [heq]; simp) hm

end Mython
