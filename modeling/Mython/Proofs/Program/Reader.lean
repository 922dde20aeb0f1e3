import Mathlib.Data.List.Chain
import Mython.Program.Statement
import Mython.Proofs.Token.Reading

namespace Mython

open Token (Kind)

/-- Whether a token may stand directly behind another: a line that ends has a content, and a block
that ends has a statement. -/
def Token.Kind.Precedes (a b : Kind) : Prop :=
  (b = .newline → a.isContent = true) ∧ (b = .dedent → a = .newline ∨ a = .dedent)

namespace Cursor

/-- The kinds of the tokens that are left. -/
def kinds (c : Cursor) : List Kind := c.lookahead.kind :: c.ahead.map (·.kind)

/-- The names of the classes completed so far. -/
def known (c : Cursor) : List String := c.classes.map (·.name)

/-- A cursor has moved behind some tokens. -/
structure Passed (ts : List Kind) (c c' : Cursor) : Prop where
  kinds : c.kinds = ts ++ c'.kinds
  fault : c'.fault = c.fault

/-- A cursor has moved behind some tokens, and no class has been completed. -/
structure Took (ts : List Kind) (c c' : Cursor) : Prop extends Passed ts c c' where
  classes : c'.classes = c.classes

/-- What holds of every cursor into the tokens of a text. -/
structure Tidy (c : Cursor) : Prop where
  ends : c.fault = none → c.kinds.getLast? = some .eof
  adjacent : c.kinds.IsChain Kind.Precedes

theorem kinds_ne_nil (c : Cursor) : c.kinds ≠ [] := List.cons_ne_nil _ _

theorem Passed.trans {ts us : List Kind} {c c' c'' : Cursor} (h : Passed ts c c')
    (h' : Passed us c' c'') : Passed (ts ++ us) c c'' where
  kinds := by rw [h.kinds, h'.kinds, List.append_assoc]
  fault := h'.fault.trans h.fault

theorem Took.refl (c : Cursor) : Took [] c c := ⟨⟨rfl, rfl⟩, rfl⟩

theorem Took.trans {ts us : List Kind} {c c' c'' : Cursor} (h : Took ts c c')
    (h' : Took us c' c'') : Took (ts ++ us) c c'' :=
  ⟨h.toPassed.trans h'.toPassed, h'.classes.trans h.classes⟩

theorem Took.known {ts : List Kind} {c c' : Cursor} (h : Took ts c c') : c'.known = c.known := by
  rw [Cursor.known, h.classes, Cursor.known]

/-- What is left behind the tokens that were passed. -/
theorem Passed.left {ts rest : List Kind} {c c' : Cursor} (h : Passed ts c c')
    (hc : c.kinds = ts ++ rest) : c'.kinds = rest :=
  List.append_cancel_left (h.kinds.symm.trans hc)

theorem Passed.tidy {ts : List Kind} {c c' : Cursor} (h : Passed ts c c') (hc : c.Tidy) :
    c'.Tidy where
  ends hf := by
    have hlast := hc.ends (h.fault ▸ hf)
    rwa [h.kinds, List.getLast?_append_of_ne_nil _ c'.kinds_ne_nil] at hlast
  adjacent := by
    have hchain := hc.adjacent
    rw [h.kinds] at hchain
    exact hchain.right_of_append

/-- What stands next to each other across the end of the tokens that were passed. -/
theorem Passed.precedes {ts : List Kind} {k : Kind} {c c' : Cursor} (h : Passed ts c c')
    (hc : c.Tidy) (hk : ts.getLast? = some k) : k.Precedes c'.lookahead.kind := by
  have hchain := hc.adjacent
  rw [h.kinds, List.isChain_append] at hchain
  exact hchain.2.2 k (by simp [hk]) c'.lookahead.kind (by simp [Cursor.kinds])

theorem lookahead_kind {c : Cursor} {k : Kind} {ks : List Kind} (h : c.kinds = k :: ks) :
    c.lookahead.kind = k := (List.cons.inj h).1

theorem took_of_step {c c' : Cursor} (hc : c.Tidy) (hk : c.lookahead.kind ≠ .eof)
    (h : c.step = .ok c') : Took [c.lookahead.kind] c c' := by
  obtain ⟨t, ts, fault, classes⟩ := c
  cases ts with
  | cons u us =>
    cases h
    exact ⟨⟨rfl, rfl⟩, rfl⟩
  | nil =>
    cases fault with
    | some e => cases h
    | none =>
      have hlast := hc.ends rfl
      simp only [Cursor.kinds, List.map_nil, List.getLast?_singleton, Option.some.injEq] at hlast
      exact absurd hlast hk

theorem step_of_kinds {c : Cursor} {k : Kind} {ks : List Kind} (h : c.kinds = k :: ks)
    (hne : ks ≠ []) : ∃ c', c.step = .ok c' ∧ Took [k] c c' := by
  obtain ⟨t, ts, fault, classes⟩ := c
  cases ts with
  | nil =>
    cases h
    exact absurd rfl hne
  | cons u us =>
    refine ⟨⟨u, us, fault, classes⟩, rfl, ⟨?_, rfl⟩, rfl⟩
    rw [← lookahead_kind h]
    rfl

theorem class?_eq_none {c : Cursor} {word : String} : c.class? word = none ↔ word ∉ c.known := by
  simp [class?, known, List.find?_eq_none]

theorem class?_name {c : Cursor} {word : String} {cls : Class} (h : c.class? word = some cls) :
    cls.name = word ∧ word ∈ c.known := by
  have hname : cls.name = word := by simpa using List.find?_some h
  exact ⟨hname, List.mem_map.2 ⟨cls, List.mem_of_find?_eq_some h, hname⟩⟩

theorem class?_of_known {c : Cursor} {word : String} (h : word ∈ c.known) :
    ∃ cls, c.class? word = some cls ∧ cls.name = word := by
  cases hf : c.class? word with
  | none => exact absurd h (class?_eq_none.1 hf)
  | some cls => exact ⟨cls, rfl, (class?_name hf).1⟩

end Cursor

namespace Parse

open Cursor

theorem bind_eq_ok {p : Parse α} {f : α → Parse β} {c : Cursor} {r : β × Cursor} :
    (p >>= f) c = .ok r ↔ ∃ a c', p c = .ok (a, c') ∧ f a c' = .ok r := by
  show (p c >>= fun x => f x.1 x.2) = .ok r ↔ _
  cases hp : p c with
  | error e => simp [bind, Except.bind]
  | ok x =>
    obtain ⟨a, c'⟩ := x
    simp [bind, Except.bind]

theorem bind_of_ok {p : Parse α} {f : α → Parse β} {c c' : Cursor} {a : α}
    (h : p c = .ok (a, c')) : (p >>= f) c = f a c' := by
  show (p c >>= fun x => f x.1 x.2) = f a c'
  rw [h]
  rfl

theorem pure_eq_ok {a b : α} {c c' : Cursor} :
    (pure a : Parse α) c = .ok (b, c') ↔ a = b ∧ c = c' := by
  show Except.ok (a, c) = .ok (b, c') ↔ _
  simp only [Except.ok.injEq, Prod.mk.injEq]

/-- The reader in front of a cursor, as something to split into cases. -/
theorem reader_of_run {p : Parse α} {c : Cursor} {r : Except SyntaxError (α × Cursor)}
    (h : p c = r) : ∃ q, p = q ∧ q c = r := ⟨p, rfl, h⟩

theorem kind_bind {f : Kind → Parse β} {c : Cursor} : (kind >>= f) c = f c.lookahead.kind c := rfl

theorem here_bind {f : Position → Parse β} {c : Cursor} :
    (here >>= f) c = f c.lookahead.pos c := rfl

theorem sees_bind {k : Kind} {f : Bool → Parse β} {c : Cursor} :
    (sees k >>= f) c = f (c.lookahead.kind == k) c := rfl

theorem get_bind {f : Cursor → Parse β} {c : Cursor} : ((get : Parse Cursor) >>= f) c = f c c := rfl

/-- Reads a colon, a line end and indented items. -/
def indented (item : Parse α) (n : Nat) : Parse (List α) := do
  expect (.mark ':')
  expect .newline
  expect .indent
  let items ← untilDedent item n
  expect .dedent
  return items

theorem classDefinition_eq (inner : Parse Stmt) (bound : Nat) :
    classDefinition inner bound = (do
      let pos ← here
      expect (.keyword .classWord)
      let word ← name
      let parent ← parent
      let methods ← indented (method inner bound) bound
      modify fun c => { c with classes := ⟨word, methods, parent⟩ :: c.classes }
      return .define ⟨word, methods, parent⟩ pos) := by
  simp only [classDefinition, indented, bind_assoc, pure_bind]

section Inversion

variable {c c' : Cursor} {k : Kind}

theorem took_of_advance {u : Unit} (hc : c.Tidy) (hk : c.lookahead.kind = k) (hne : k ≠ .eof)
    (h : advance c = .ok (u, c')) : Took [k] c c' := by
  subst hk
  refine took_of_step hc hne ?_
  rw [advance] at h
  cases hs : c.step with
  | error e =>
    rw [hs] at h
    cases h
  | ok d =>
    rw [hs] at h
    cases h
    rfl

theorem accept_eq_ok {b : Bool} (hc : c.Tidy) (hne : k ≠ .eof) (h : accept k c = .ok (b, c')) :
    b = true ∧ Took [k] c c' ∨ b = false ∧ c = c' ∧ c.lookahead.kind ≠ k := by
  rw [accept, sees_bind] at h
  by_cases hk : c.lookahead.kind = k
  · simp only [hk, beq_self_eq_true, if_true] at h
    obtain ⟨u, d, ha, hp⟩ := bind_eq_ok.1 h
    obtain ⟨rfl, rfl⟩ := pure_eq_ok.1 hp
    exact Or.inl ⟨rfl, took_of_advance hc hk hne ha⟩
  · simp only [beq_eq_false_iff_ne.2 hk, Bool.false_eq_true, if_false] at h
    obtain ⟨rfl, rfl⟩ := pure_eq_ok.1 h
    exact Or.inr ⟨rfl, rfl, hk⟩

theorem took_of_expect {u : Unit} (hc : c.Tidy) (hne : k ≠ .eof) (h : expect k c = .ok (u, c')) :
    Took [k] c c' := by
  rw [expect, kind_bind] at h
  by_cases hk : c.lookahead.kind = k
  · rw [if_pos hk] at h
    exact took_of_advance hc hk hne h
  · rw [if_neg hk] at h
    cases h

theorem took_of_name {word : String} (hc : c.Tidy) (h : name c = .ok (word, c')) :
    Took [.name word] c c' := by
  rw [name, kind_bind] at h
  cases hk : c.lookahead.kind with
  | name w =>
    rw [hk] at h
    obtain ⟨u, d, ha, hp⟩ := bind_eq_ok.1 h
    obtain ⟨rfl, rfl⟩ := pure_eq_ok.1 hp
    exact took_of_advance hc hk (by simp) ha
  | _ =>
    rw [hk] at h
    cases h

end Inversion

section Answers

variable {c : Cursor} {k k' : Kind} {ks : List Kind}

theorem advance_of_kinds (h : c.kinds = k :: ks) (hne : ks ≠ []) :
    ∃ c', advance c = .ok ((), c') ∧ Took [k] c c' := by
  obtain ⟨c', hs, ht⟩ := step_of_kinds h hne
  refine ⟨c', ?_, ht⟩
  rw [advance, hs]
  rfl

theorem accept_of_kinds (h : c.kinds = k :: ks) (hne : ks ≠ []) :
    ∃ c', accept k c = .ok (true, c') ∧ Took [k] c c' := by
  obtain ⟨c', ha, ht⟩ := advance_of_kinds h hne
  refine ⟨c', ?_, ht⟩
  rw [accept, sees_bind, lookahead_kind h]
  simp only [beq_self_eq_true, if_true]
  rw [bind_of_ok ha]
  rfl

theorem accept_of_ne (h : c.kinds = k' :: ks) (hne : k' ≠ k) : accept k c = .ok (false, c) := by
  rw [accept, sees_bind, lookahead_kind h, beq_eq_false_iff_ne.2 hne]
  rfl

theorem expect_of_kinds (h : c.kinds = k :: ks) (hne : ks ≠ []) :
    ∃ c', expect k c = .ok ((), c') ∧ Took [k] c c' := by
  obtain ⟨c', ha, ht⟩ := advance_of_kinds h hne
  refine ⟨c', ?_, ht⟩
  rw [expect, kind_bind, if_pos (lookahead_kind h), ha]

theorem name_of_kinds {word : String} (h : c.kinds = .name word :: ks) (hne : ks ≠ []) :
    ∃ c', name c = .ok (word, c') ∧ Took [.name word] c c' := by
  obtain ⟨c', ha, ht⟩ := advance_of_kinds h hne
  refine ⟨c', ?_, ht⟩
  rw [name, kind_bind, lookahead_kind h]
  exact bind_of_ok ha

end Answers

end Parse

end Mython
