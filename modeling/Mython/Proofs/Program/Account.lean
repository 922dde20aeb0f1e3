import Mython.Proofs.Program.Steps

namespace Mython

open Token (Kind)

/-- What happens stands right behind the tokens that spell it: a call behind a name and parentheses
around its arguments, a class to extend behind its name in parentheses, and the end of a class
behind that of its block, with the head of the class further in front. -/
def Event.Spelled (front : List Event) : Event → Prop
  | reads _ => True
  | calls word _ pos _ => ∃ before inside p p', front = before ++
      (reads ⟨.name word, pos⟩ :: reads ⟨.mark '(', p⟩ :: inside ++ [reads ⟨.mark ')', p'⟩])
  | inherits word pos _ => ∃ before p p', front = before ++
      [reads ⟨.mark '(', p⟩, reads ⟨.name word, pos⟩, reads ⟨.mark ')', p'⟩]
  | completes cls => ∃ before inside p p' p'', front = before ++
      (reads ⟨.keyword .classWord, p⟩ :: reads ⟨.name cls.name, p'⟩ :: inside ++
        [reads ⟨.dedent, p''⟩])

theorem Event.Spelled.more {front : List Event} {e : Event} (h : e.Spelled front)
    (more : List Event) : e.Spelled (more ++ front) := by
  cases e with
  | reads t => trivial
  | calls word args pos answer =>
    obtain ⟨before, inside, p, p', rfl⟩ := h
    exact ⟨more ++ before, inside, p, p', (List.append_assoc ..).symm⟩
  | inherits word pos answer =>
    obtain ⟨before, p, p', rfl⟩ := h
    exact ⟨more ++ before, p, p', (List.append_assoc ..).symm⟩
  | completes cls =>
    obtain ⟨before, inside, p, p', p'', rfl⟩ := h
    exact ⟨more ++ before, inside, p, p', p'', (List.append_assoc ..).symm⟩

theorem Cursor.Behind.tidy {es : List Event} {c c' : Cursor} (h : Behind es c c') (hc : c.Tidy) :
    c'.Tidy := by
  have hpassed : Passed ((Event.tokens es).map (·.kind)) c c' := by
    refine ⟨?_, h.fault⟩
    have hkinds := congrArg (List.map fun t : Token => t.kind) h.tokens
    rwa [List.map_append] at hkinds
  exact hpassed.tidy hc

namespace Parse

variable {α β : Type} {p p' : Parse α} {k : α → Parse β} {w : List Mention}
  {q : α → List Mention} {r : β → List Mention}

namespace Steps

/-- Everything that a reader does at a cursor stands behind the tokens that spell it, some of which
may have been read before. -/
def SpellsAt (h : Steps p) (front : List Event) (c : Cursor) : Prop :=
  Throughout (fun mid => Event.Spelled (front ++ mid)) (h.trace c)

/-- Everything that a reader does stands behind the tokens that spell it. -/
def Spells (h : Steps p) : Prop := ∀ ⦃c⦄, c.Tidy → h.SpellsAt [] c

/-- What is mentioned on the way from what was mentioned before to what is answered. -/
def Mentions (h : Steps p) (w : List Mention) (q : α → List Mention) : Prop :=
  ∀ ⦃c a c'⦄, p c = .ok (a, c') → w ++ Event.mentions (h.trace c) = q a

theorem Spells.at {h : Steps p} {c : Cursor} (hs : h.Spells) (hc : c.Tidy) (front : List Event) :
    h.SpellsAt front c :=
  Throughout.mono (hs hc) fun _ _ _ he => he.more front

theorem trace_bind (h : Steps p) (hk : ∀ a, Steps (k a)) (c : Cursor) :
    (h.bind hk).trace c = h.trace c ++ onward (p c) fun a c' => (hk a).trace c' := rfl

/-- What a reader does may rely on what another one did in front of it. -/
theorem SpellsAt.bind {h : Steps p} {hk : ∀ a, Steps (k a)} {front : List Event} {c : Cursor}
    (hc : c.Tidy) (hs : h.SpellsAt front c)
    (hmore : ∀ a c', p c = .ok (a, c') → c'.Tidy → (hk a).SpellsAt (front ++ h.trace c) c') :
    (h.bind hk).SpellsAt front c := by
  rw [SpellsAt, trace_bind]
  refine Throughout.append hs ?_
  cases hp : p c with
  | error e => exact .nil
  | ok x =>
    obtain ⟨a, c'⟩ := x
    have hrest := hmore a c' hp (((h.told c).behind hp).tidy hc)
    simp only [SpellsAt, List.append_assoc] at hrest
    exact hrest

theorem Spells.bind {h : Steps p} {hk : ∀ a, Steps (k a)} (hs : h.Spells)
    (hks : ∀ a, (hk a).Spells) : (h.bind hk).Spells :=
  fun _ hc => SpellsAt.bind hc (hs hc) fun a _ _ hc' => (hks a).at hc' _

theorem Mentions.bind {h : Steps p} {hk : ∀ a, Steps (k a)} (hm : h.Mentions w q)
    (hkm : ∀ a, (hk a).Mentions (q a) r) : (h.bind hk).Mentions w r := by
  intro c b c'' hrun
  obtain ⟨a, c', hp, hb⟩ := bind_eq_ok.1 hrun
  rw [trace_bind, Event.mentions_append, ← List.append_assoc, hm hp, hp]
  exact hkm a hb

end Steps

/-- An account of a reader, from what is mentioned in front of it to what its answers mention. -/
structure Account (w : List Mention) (p : Parse α) (q : α → List Mention) where
  steps : Steps p
  spells : steps.Spells
  mentions : steps.Mentions w q

namespace Account

/-- A reader and what is read behind it. -/
def bind (h : Account w p q) (hk : ∀ a, Account (q a) (k a) r) : Account w (p >>= k) r where
  steps := h.steps.bind fun a => (hk a).steps
  spells := h.spells.bind fun a => (hk a).spells
  mentions := h.mentions.bind fun a => (hk a).mentions

/-- Looks at the lookahead. -/
def look (f : Token → α) : Account w (fun c => .ok (f c.lookahead, c)) fun _ => w where
  steps := .look f
  spells _ _ := .nil
  mentions _ _ _ _ := List.append_nil w

/-- Gives up. -/
def stop (f : Token → SyntaxError) : Account w (fun c => .error (f c.lookahead)) q where
  steps := .stop f
  spells _ _ := .nil
  mentions := by rintro _ _ _ ⟨⟩

/-- Answers what mentions all that has been mentioned. -/
def pure (a : α) (h : w = q a) : Account w (Pure.pure a) q where
  steps := .look fun _ => a
  spells _ _ := .nil
  mentions := by
    rintro _ _ _ ⟨⟩
    exact (List.append_nil w).trans h

/-- Answers something that mentions nothing. -/
def done (a : α) : Account w (Pure.pure a) fun _ => w where
  steps := .look fun _ => a
  spells _ _ := .nil
  mentions _ _ _ _ := List.append_nil w

/-- Reads the lookahead. -/
def advance : Account w Parse.advance fun _ => w where
  steps := .advance
  spells c _ := by
    rw [Steps.SpellsAt, Steps.trace]
    split
    · exact .nil
    · exact .singleton trivial
  mentions c _ _ _ := by
    rw [Steps.trace]
    split <;> exact List.append_nil w

/-- What a reader does behind something that has been mentioned. -/
def after (u : List Mention) (h : Account [] p q) : Account u p fun a => u ++ q a where
  steps := h.steps
  spells := h.spells
  mentions _ _ _ hrun := congrArg (u ++ ·) (h.mentions hrun)

/-- The same account, with what is mentioned in front written in another way. -/
def from_eq {v : List Mention} (h : Account w p q) (hw : v = w) : Account v p q where
  steps := h.steps
  spells := h.spells
  mentions := hw ▸ h.mentions

/-- The same account, with what is mentioned in the end written in another way. -/
def to_eq {s : α → List Mention} (h : Account w p q) (hq : ∀ a, q a = s a) : Account w p s where
  steps := h.steps
  spells := h.spells
  mentions _ a _ hrun := (h.mentions hrun).trans (hq a)

/-- An account of a reader that is written in another way. -/
def of_eq (h : Account w p q) (hp : p' = p) : Account w p' q := hp ▸ h

/-- Goes on in one of two ways. -/
def branch (c : Prop) [inst : Decidable c] (h : Account w p q) (h' : Account w p' q) :
    Account w (if c then p else p') q :=
  match inst with
  | .isTrue _ => h
  | .isFalse _ => h'

theorem trace_branch {c : Prop} [inst : Decidable c] (h : Account w p q) (h' : Account w p' q)
    (x : Cursor) :
    (branch c h h').steps.trace x = if c then h.steps.trace x else h'.steps.trace x := by
  cases inst <;> rfl

/-- Looks at the kind of the lookahead. -/
def kind : Account w Parse.kind fun _ => w := look (·.kind)

/-- Looks at the place of the lookahead. -/
def here : Account w Parse.here fun _ => w := look (·.pos)

/-- Looks whether the lookahead is of a kind. -/
def sees (k : Kind) : Account w (Parse.sees k) fun _ => w := look (·.kind == k)

def fail (cause : SyntaxError.Cause) : Account w (Parse.fail cause) q :=
  stop fun t => ⟨cause, t.pos⟩

def failAt (pos : Position) (cause : SyntaxError.Cause) : Account w (Parse.failAt pos cause) q :=
  stop fun _ => ⟨cause, pos⟩

/-- A reader that mentions nothing, behind what has been mentioned. -/
def still (h : Account [] p fun _ => []) : Account w p fun _ => w :=
  (h.after w).to_eq fun _ => List.append_nil w

def accept (k : Kind) : Account w (Parse.accept k) fun _ => w :=
  still ((sees k).bind fun b =>
    branch (b = true) (advance.bind fun _ => done true) (done false))

def expect (k : Kind) : Account w (Parse.expect k) fun _ => w :=
  still (kind.bind fun found => branch (found = k) advance (fail _))

def name : Account w Parse.name fun _ => w :=
  still (kind.bind fun
    | .name word => advance.bind fun _ => done word
    | .eof | .newline | .indent | .dedent | .mark _ | .keyword _ | .number _ | .text _ | .equal
    | .notEqual | .atMost | .atLeast => fail _)

section Tokens

variable {c c' : Cursor} {k : Kind}

/-- A token that is read is told of, unless it is the end. -/
theorem trace_advance {u : Unit} (hc : c.Tidy) (hne : c.lookahead.kind ≠ .eof)
    (h : Parse.advance c = .ok (u, c')) : Steps.advance.trace c = [.reads c.lookahead] := by
  have htook := took_of_advance hc rfl hne h
  have hahead : c.ahead ≠ [] := by
    intro hnil
    have hkinds := htook.kinds
    rw [Cursor.kinds, hnil, List.map_nil, List.singleton_append] at hkinds
    exact c'.kinds_ne_nil (List.cons.inj hkinds).2.symm
  rw [Steps.trace, if_neg hahead]

theorem trace_expect {u : Unit} (hc : c.Tidy) (hne : k ≠ .eof)
    (h : Parse.expect k c = .ok (u, c')) :
    (expect (w := w) k).steps.trace c = [.reads ⟨k, c.lookahead.pos⟩] := by
  rw [Parse.expect, kind_bind] at h
  by_cases hk : c.lookahead.kind = k
  · rw [if_pos hk] at h
    show (branch (w := []) (c.lookahead.kind = k) advance (fail _)).steps.trace c = _
    subst hk
    rw [trace_branch, if_pos rfl]
    exact trace_advance hc hne h
  · rw [if_neg hk] at h
    cases h

theorem trace_accept (hc : c.Tidy) (hne : k ≠ .eof) (h : Parse.accept k c = .ok (true, c')) :
    (accept (w := w) k).steps.trace c = [.reads ⟨k, c.lookahead.pos⟩] := by
  rw [Parse.accept, sees_bind] at h
  by_cases hk : c.lookahead.kind = k
  · subst hk
    rw [beq_self_eq_true, if_pos rfl] at h
    obtain ⟨u, d, hadvance, -⟩ := bind_eq_ok.1 h
    show (branch (w := []) ((c.lookahead.kind == c.lookahead.kind) = true)
      (advance.bind fun _ => done true) (done false)).steps.trace c = _
    rw [trace_branch, if_pos (beq_self_eq_true _)]
    show Steps.advance.trace c ++ onward (Parse.advance c) _ = _
    rw [trace_advance hc hne hadvance, hadvance]
    rfl
  · rw [beq_eq_false_iff_ne.2 hk] at h
    cases h

theorem trace_name {word : String} (hc : c.Tidy) (h : Parse.name c = .ok (word, c')) :
    (name (w := w)).steps.trace c = [.reads ⟨.name word, c.lookahead.pos⟩] := by
  obtain ⟨⟨found, pos⟩, ahead, fault, classes⟩ := c
  cases found with
  | name found =>
    have hrun : (Parse.advance >>= fun _ => (Pure.pure found : Parse String))
        ⟨⟨.name found, pos⟩, ahead, fault, classes⟩ = .ok (word, c') := h
    obtain ⟨u, d, hadvance, hword⟩ := bind_eq_ok.1 hrun
    obtain ⟨rfl, rfl⟩ := pure_eq_ok.1 hword
    show Steps.advance.trace _ ++ onward (Parse.advance _) _ = _
    rw [trace_advance hc (by simp) hadvance, hadvance]
    rfl
  | _ => cases h

variable {front : List Event}

/-- What follows a look at the place of the lookahead stands behind the same. -/
theorem spellsAt_here {k : Position → Parse β} {hk : ∀ pos, Steps (k pos)} (hc : c.Tidy)
    (h : (hk c.lookahead.pos).SpellsAt front c) :
    ((here (w := w)).steps.bind hk).SpellsAt front c := by
  refine .bind hc (here.spells.at hc front) ?_
  rintro _ _ ⟨⟩ -
  show (hk c.lookahead.pos).SpellsAt (front ++ []) c
  rwa [List.append_nil]

/-- What follows a token of a kind may rely on that token. -/
theorem spellsAt_expect {l : Unit → Parse β} {hl : ∀ u, Steps (l u)} (hc : c.Tidy) (hne : k ≠ .eof)
    (h : ∀ u c', c'.Tidy → (hl u).SpellsAt (front ++ [.reads ⟨k, c.lookahead.pos⟩]) c') :
    ((expect (w := w) k).steps.bind hl).SpellsAt front c := by
  refine .bind hc ((expect k).spells.at hc front) fun u c' hexpect hc' => ?_
  rw [trace_expect hc hne hexpect]
  exact h u c' hc'

/-- What follows a name may rely on it. -/
theorem spellsAt_name {l : String → Parse β} {hl : ∀ word, Steps (l word)} (hc : c.Tidy)
    (h : ∀ word c', c'.Tidy →
      (hl word).SpellsAt (front ++ [.reads ⟨.name word, c.lookahead.pos⟩]) c') :
    ((name (w := w)).steps.bind hl).SpellsAt front c := by
  refine .bind hc (name.spells.at hc front) fun word c' hname hc' => ?_
  rw [trace_name hc hname]
  exact h word c' hc'

/-- What follows a token that is optional may rely on it if it was there. -/
theorem spellsAt_accept {l : Bool → Parse β} {hl : ∀ b, Steps (l b)} (hc : c.Tidy) (hne : k ≠ .eof)
    (h : ∀ c', c'.Tidy → (hl true).SpellsAt (front ++ [.reads ⟨k, c.lookahead.pos⟩]) c')
    (h' : ∀ c' front', c'.Tidy → (hl false).SpellsAt front' c') :
    ((accept (w := w) k).steps.bind hl).SpellsAt front c := by
  refine .bind hc ((accept k).spells.at hc front) fun b c' haccept hc' => ?_
  cases b with
  | false => exact h' c' _ hc'
  | true =>
    rw [trace_accept hc hne haccept]
    exact h c' hc'

end Tokens

section Lists

variable {item : Parse α}

/-- Reads items with commas between them. -/
def commaList (h : Account [] item q) : ∀ n, Account [] (Parse.commaList item n) (List.flatMap q)
  | 0 => fail _
  | n + 1 =>
    (sees (.mark ')')).bind fun closed => (sees .eof).bind fun ended =>
      branch ((closed || ended) = true) (pure [] List.flatMap_nil.symm)
        (h.bind fun first => (accept (.mark ',')).bind fun more =>
          branch (more = true)
            (((h.commaList n).after (q first)).bind fun _ => pure _ List.flatMap_cons.symm)
            (pure [first] (by simp)))

/-- Reads items up to the end of a block. -/
def untilDedent (h : Account [] item q) :
    ∀ n, Account [] (Parse.untilDedent item n) (List.flatMap q)
  | 0 => fail _
  | n + 1 =>
    (sees .dedent).bind fun closed => (sees .eof).bind fun ended =>
      branch ((closed || ended) = true) (pure [] List.flatMap_nil.symm)
        (h.bind fun first =>
          ((h.untilDedent n).after (q first)).bind fun _ => pure _ List.flatMap_cons.symm)

end Lists

end Account

end Parse

end Mython
