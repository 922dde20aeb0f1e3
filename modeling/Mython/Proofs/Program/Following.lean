import Mython.Proofs.Program.Window

namespace Mython

open Token (Kind)

namespace Parse

/-- What a call of the conversion to text means. -/
def converted (pos : Position) : List Expr → Parse Expr
  | [arg] => return .stringify arg pos
  | _ => failAt pos .conversionArity

/-- What a call of a bare name means, given the class of that name. -/
def called (name : String) (args : List Expr) (pos : Position) : Option Class → Parse Expr
  | some cls => return .construct cls args pos
  | none =>
    if name = conversionName then converted pos args else failAt pos (.unknownClass name)

theorem bareCall_eq (name : String) (args : List Expr) (pos : Position) :
    bareCall name args pos = get >>= fun c => called name args pos (c.class? name) := by
  rw [bareCall.eq_def]
  congr

/-- The class that a class extends, given what is known by its name. -/
def inherited (word : String) (pos : Position) : Option Class → Parse (Option Class)
  | some cls => return some cls
  | none => failAt pos (.unknownClass word)

theorem parent_eq : parent = (do
    if ← accept (.mark '(') then
      let pos ← here
      let word ← name
      expect (.mark ')')
      let c ← get
      inherited word pos (c.class? word)
    else
      return none) := rfl

/-- Reads what stands behind an expression at the start of a line: a sign and a value that is
assigned to it, or nothing. -/
def assigned (bound : Nat) (pos : Position) (target : Expr) : Parse Stmt := do
  let sign ← here
  if ← accept (.mark '=') then
    let value ← expression bound
    match assignment? target value pos with
    | some stmt => return stmt
    | none => failAt sign .notAssignable
  else
    return .eval target

theorem simple_eq (bound : Nat) : simple bound = (do
    let pos ← here
    let target ← expression bound
    assigned bound pos target) := rfl

/-- Readers that give up in front of the end of a block. -/
def Refuses (p : Parse α) : Prop := ∀ c : Cursor, c.lookahead.kind = .dedent → ∃ e, p c = .error e

theorem Refuses.bind {p : Parse α} (h : Refuses p) (k : α → Parse β) : Refuses (p >>= k) := by
  intro c hc
  obtain ⟨e, he⟩ := h c hc
  exact ⟨e, bind_of_error he⟩

theorem refuses_leadingChain {operator : Kind} (hop : operator ≠ .dedent)
    (build : Expr → Position → Expr) {operand : Parse Expr} (h : Refuses operand) (n : Nat) :
    Refuses (leadingChain operator build operand n) := by
  intro c hc
  cases n with
  | zero => exact ⟨_, rfl⟩
  | succ n =>
    obtain ⟨e, he⟩ := h c hc
    refine ⟨e, ?_⟩
    have hno : accept operator c = .ok (false, c) := by
      rw [accept, sees_bind, hc, beq_eq_false_iff_ne.2 hop.symm]
      rfl
    rw [leadingChain, here_bind, bind_of_ok hno]
    exact he

/-- No expression starts with the end of a block. -/
theorem refuses_expression (bound : Nat) : Refuses (expression bound) := by
  have hprimary : ∀ whole, Refuses (primary whole bound) := by
    intro whole c hc
    rw [primary, here_bind, kind_bind, hc]
    exact ⟨_, rfl⟩
  cases bound with
  | zero => exact fun c _ => ⟨_, rfl⟩
  | succ n =>
    have hfactor : Refuses (factor (nested (n + 1) n) (n + 1)) :=
      refuses_leadingChain (by simp) .negate ((hprimary _).bind _) (n + 1)
    have hcomparison : Refuses (comparison (nested (n + 1) n) (n + 1)) :=
      ((hfactor.bind _).bind _).bind _
    have hinversion : Refuses (inversion (nested (n + 1) n) (n + 1)) :=
      refuses_leadingChain (by simp) .not hcomparison (n + 1)
    exact (hinversion.bind _).bind _

/-- Operators that are tokens of their own and join moved operands to the moved whole. -/
def Joins (operator? : Kind → Option (Expr → Expr → Expr)) : Prop :=
  ∀ k build, operator? k = some build → k ≠ .eof ∧
    ∀ n l r, (build l r).down n = build (l.down n) (r.down n)

theorem joins_product : Joins productOperator? := by
  intro k build hk
  rw [productOperator?.eq_def] at hk
  split at hk <;> cases hk <;> exact ⟨by simp, fun n l r => by simp only [Expr.down, Expr.pos_down]⟩

theorem joins_sum : Joins sumOperator? := by
  intro k build hk
  rw [sumOperator?.eq_def] at hk
  split at hk <;> cases hk <;> exact ⟨by simp, fun n l r => by simp only [Expr.down, Expr.pos_down]⟩

theorem joins_conj : Joins conjOperator? := by
  intro k build hk
  rw [conjOperator?.eq_def] at hk
  split at hk <;> cases hk
  exact ⟨by simp, fun n l r => by simp only [Expr.down, Expr.pos_down]⟩

theorem joins_disj : Joins disjOperator? := by
  intro k build hk
  rw [disjOperator?.eq_def] at hk
  split at hk <;> cases hk
  exact ⟨by simp, fun n l r => by simp only [Expr.down, Expr.pos_down]⟩

end Parse

namespace Parse.Follows

variable {w : Window} {S : Kind → Prop} {room least n n' : Nat}

/-- What is followed from anywhere is followed from certain kinds, with less room. -/
theorem within {f : α → β} {p : Parse α} {q : Parse β} (h : Follows w Kind.Any room least f p q)
    {room' : Nat} (hroom : room' ≤ room) : Follows w S room' least f p q :=
  h.mono (fun _ _ => trivial) hroom (Nat.le_refl _)

/-- The same, where it does not matter how much is read. -/
theorem lax {f : α → β} {p : Parse α} {q : Parse β} (h : Follows w Kind.Any room least f p q)
    {room' : Nat} (hroom : room' ≤ room) : Follows w S room' 0 f p q :=
  h.mono (fun _ _ => trivial) hroom (Nat.zero_le _)

section Lists

variable {f : α → β} {item : Parse α} {item' : Parse β}

theorem commaList (hitem : Follows w Kind.Any room 1 f item item') (hroom : room ≤ n)
    (hn : n ≤ n') : Follows w S room 0 (List.map f) (commaList item n) (commaList item' n') := by
  induction n generalizing room n' S with
  | zero => exact cramped (Nat.le_zero.1 hroom)
  | succ n ih =>
    obtain ⟨n', rfl⟩ : ∃ m, n' = m + 1 := ⟨n' - 1, by omega⟩
    apply sees_bind
    · intro _
      apply sees_bind
      · intro _
        exact pure rfl
      · exact pure rfl
    · apply sees_bind
      · intro _
        exact pure rfl
      · apply (hitem.within (Nat.le_refl room)).bind_of
        intro first
        apply accept_bind (by simp)
        · intro _
          apply (ih (hitem.within (by omega)) (by omega) (by omega)).bind_of
          intro rest
          exact pure rfl
        · exact pure rfl

theorem untilDedent (hitem : Follows w Kind.Any room 1 f item item') (hroom : room ≤ n)
    (hn : n ≤ n') :
    Follows w S room 0 (List.map f) (untilDedent item n) (untilDedent item' n') := by
  induction n generalizing room n' S with
  | zero => exact cramped (Nat.le_zero.1 hroom)
  | succ n ih =>
    obtain ⟨n', rfl⟩ : ∃ m, n' = m + 1 := ⟨n' - 1, by omega⟩
    apply sees_bind
    · intro _
      apply sees_bind
      · intro _
        exact pure rfl
      · exact pure rfl
    · apply sees_bind
      · intro _
        exact pure rfl
      · apply (hitem.within (Nat.le_refl room)).bind_of
        intro first
        apply (ih (hitem.within (by omega)) (by omega) (by omega)).bind_of
        intro rest
        exact pure rfl

end Lists

section Chains

variable {operand operand' : Parse Expr}
  (hoperand : Follows w Kind.Any room 1 (Expr.down w.lines) operand operand')
  (hroom : room ≤ n) (hn : n ≤ n')
include hoperand hroom hn

theorem leftChain {operator? : Kind → Option (Expr → Expr → Expr)}
    (hop : Joins operator?) (left : Expr) :
    Follows w S room 0 (Expr.down w.lines) (leftChain operand operator? n left)
      (leftChain operand' operator? n' (left.down w.lines)) := by
  induction n generalizing room n' S left with
  | zero => exact cramped (Nat.le_zero.1 hroom)
  | succ n ih =>
    obtain ⟨n', rfl⟩ : ∃ m, n' = m + 1 := ⟨n' - 1, by omega⟩
    apply kind_bind
    intro x _
    cases hx : operator? x with
    | none => exact pure rfl
    | some build =>
      obtain ⟨hne, hbuild⟩ := hop x build hx
      apply advance_bind
      · rintro _ rfl
        exact hne
      · apply (hoperand.within (by omega)).bind_of
        intro right
        rw [← hbuild w.lines]
        exact (ih (hoperand.within (by omega)) (by omega) (by omega) _)

/-- An operand and what is joined to it. -/
theorem level {operator? : Kind → Option (Expr → Expr → Expr)} (hop : Joins operator?) :
    Follows w S room 1 (Expr.down w.lines) (do Parse.leftChain operand operator? n (← operand))
      (do Parse.leftChain operand' operator? n' (← operand')) := by
  apply (hoperand.within (Nat.le_refl _)).bind_of
  intro left
  exact leftChain (hoperand.within (Nat.sub_le ..)) (by omega) hn hop left

theorem leadingChain {operator : Kind} (hop : operator ≠ .eof ∧ operator ≠ .dedent)
    {build : Expr → Position → Expr}
    (hbuild : ∀ e pos, (build e pos).down w.lines = build (e.down w.lines) (pos.down w.lines)) :
    Follows w S room 1 (Expr.down w.lines) (leadingChain operator build operand n)
      (leadingChain operator build operand' n') := by
  induction n generalizing room n' S with
  | zero => exact cramped (Nat.le_zero.1 hroom)
  | succ n ih =>
    obtain ⟨n', rfl⟩ : ∃ m, n' = m + 1 := ⟨n' - 1, by omega⟩
    apply here_bind
    intro x _ pos _ pos' hpos
    apply accept_bind hop.1
    · rintro rfl
      have hle : n ≤ n' := by omega
      have hrest := ih (S := Kind.Any) (hoperand.within (Nat.sub_le room 1)) (by omega) hle
      apply (hrest.lax (Nat.le_refl _)).bind_of
      intro e
      apply pure
      rw [hbuild, hpos (Or.inr hop.2)]
    · exact hoperand.within (Nat.le_refl _)

end Chains

theorem converted {pos : Position} (hpos : pos ∈ w.places) (args : List Expr) :
    Follows w S room 0 (Expr.down w.lines) (converted pos args)
      (converted (pos.down w.lines) (args.map (Expr.down w.lines))) := by
  have hfail : Follows w S room 0 (Expr.down w.lines) (Parse.failAt pos .conversionArity)
      (Parse.failAt (pos.down w.lines) .conversionArity) := by
    apply failAt rfl hpos
    intro hw d
    rw [w.strict_lines hw, Position.down_zero]
    rfl
  match args with
  | [] => exact hfail
  | [arg] =>
    apply pure
    rw [Expr.down]
  | _ :: _ :: _ => exact hfail

theorem bareCall {pos : Position} (hpos : pos ∈ w.places) (name : String) (args : List Expr) :
    Follows w S room 0 (Expr.down w.lines) (bareCall name args pos)
      (bareCall name (args.map (Expr.down w.lines)) (pos.down w.lines)) := by
  rw [bareCall_eq, bareCall_eq]
  apply class_bind
  · intro cls
    apply pure
    rw [Expr.down, Expr.downAll_eq_map]
  · intro found hfound
    rw [called]
    split
    · next hname =>
      rw [hfound (Or.inr hname), called, if_pos hname]
      exact converted hpos args
    · next hname =>
      apply failAt rfl hpos
      intro hw d
      rw [hfound (Or.inl hw), called, if_neg hname, w.strict_lines hw, Position.down_zero]
      rfl

section Levels

variable {whole whole' : Parse Expr} {bound bound' : Nat}
  (hwhole : Follows w Kind.Any room 1 (Expr.down w.lines) whole whole') (hroom : room < bound)
  (hbound : bound ≤ bound')
include hwhole hroom hbound

theorem arguments : Follows w S room 1 (List.map (Expr.down w.lines)) (arguments whole bound)
    (arguments whole' bound') := by
  apply (commaList hwhole (Nat.le_of_lt hroom) hbound).bind_of
  intro args
  apply expect_bind (by simp)
  intro _
  exact pure rfl

theorem primary : Follows w S (room + 1) 1 (Expr.down w.lines) (primary whole bound)
    (primary whole' bound') := by
  have hliteral : ∀ {x : Kind}, x ≠ .eof → ∀ e : Expr,
      Follows w (· = x) (room + 1) 1 (Expr.down w.lines) (do Parse.advance; return e)
        (do Parse.advance; return e.down w.lines) := by
    intro x hx e
    apply advance_bind
    · rintro _ rfl
      exact hx
    · exact pure rfl
  apply here_bind
  intro x _ pos hpos pos' hpos'
  apply kind_bind
  rintro _ rfl
  split
  · next value _ =>
    rw [hpos' (Or.inr (by simp))]
    exact hliteral (by simp) (.number value pos)
  · next content _ =>
    rw [hpos' (Or.inr (by simp))]
    exact hliteral (by simp) (.text content pos)
  · rw [hpos' (Or.inr (by simp))]
    exact hliteral (by simp) (.truth true pos)
  · rw [hpos' (Or.inr (by simp))]
    exact hliteral (by simp) (.truth false pos)
  · rw [hpos' (Or.inr (by simp))]
    exact hliteral (by simp) (.none pos)
  · apply advance_bind
    · rintro _ rfl
      simp
    · apply (hwhole.within (Nat.le_refl _)).bind_of
      intro e
      apply expect_bind (by simp)
      intro _
      exact pure rfl
  · next word _ =>
    rw [hpos' (Or.inr (by simp))]
    apply advance_bind
    · rintro _ rfl
      simp
    · apply accept_bind (by simp)
      · intro _
        have hinner := (hwhole.within (S := Kind.Any) (Nat.sub_le room 1))
        apply (arguments hinner (by omega) hbound).bind_of
        intro args
        exact bareCall hpos word args
      · apply pure
        rw [Expr.down]
  · exact fail rfl

theorem selections (hn : n ≤ n') (hroomn : room ≤ n) (e : Expr) :
    Follows w S room 0 (Expr.down w.lines) (selections whole bound n e)
      (selections whole' bound' n' (e.down w.lines)) := by
  induction n generalizing room n' S e with
  | zero => exact cramped (Nat.le_zero.1 hroomn)
  | succ n ih =>
    obtain ⟨n', rfl⟩ : ∃ m, n' = m + 1 := ⟨n' - 1, by omega⟩
    apply accept_bind (by simp)
    · intro _
      apply name.bind_of
      intro word
      apply accept_bind (by simp)
      · intro _
        apply (arguments (hwhole.within (by omega)) (by omega) hbound).bind_of
        intro args
        have hcall : (Expr.call e word args e.pos).down w.lines = .call (e.down w.lines) word
            (args.map (Expr.down w.lines)) (e.down w.lines).pos := by
          rw [Expr.down, Expr.downAll_eq_map, Expr.pos_down]
        rw [id, ← hcall]
        exact ih (hwhole.within (by omega)) (by omega) (by omega) (by omega) _
      · rw [id, ← Expr.select_down]
        exact ih (hwhole.within (by omega)) (by omega) (by omega) (by omega) _
    · exact pure rfl

theorem selected : Follows w S (room + 1) 1 (Expr.down w.lines) (selected whole bound)
    (selected whole' bound') := by
  apply (primary hwhole hroom hbound).bind_of
  intro e
  exact selections (hwhole.within (by omega)) (by omega) hbound hbound (by omega) e

theorem factor : Follows w S (room + 1) 1 (Expr.down w.lines) (factor whole bound)
    (factor whole' bound') := by
  apply leadingChain (selected hwhole hroom hbound) hroom hbound ⟨by simp, by simp⟩
  intro e pos
  rw [Expr.down]

theorem product : Follows w S (room + 1) 1 (Expr.down w.lines) (product whole bound)
    (product whole' bound') :=
  level (factor hwhole hroom hbound) hroom hbound joins_product

theorem sum : Follows w S (room + 1) 1 (Expr.down w.lines) (sum whole bound)
    (sum whole' bound') :=
  level (product hwhole hroom hbound) hroom hbound joins_sum

theorem comparison : Follows w S (room + 1) 1 (Expr.down w.lines) (comparison whole bound)
    (comparison whole' bound') := by
  have hoperand := sum (S := Kind.Any) hwhole hroom hbound
  apply (hoperand.within (Nat.le_refl _)).bind_of
  intro left
  apply kind_bind
  intro x _
  cases hx : relation? x with
  | none => exact pure rfl
  | some relation =>
    apply advance_bind
    · rintro _ rfl rfl
      cases hx
    · apply (hoperand.lax (by omega)).bind_of
      intro right
      apply pure
      rw [Expr.down, Expr.pos_down]

theorem inversion : Follows w S (room + 1) 1 (Expr.down w.lines) (inversion whole bound)
    (inversion whole' bound') := by
  apply leadingChain (comparison hwhole hroom hbound) hroom hbound ⟨by simp, by simp⟩
  intro e pos
  rw [Expr.down]

theorem conjunction : Follows w S (room + 1) 1 (Expr.down w.lines) (conjunction whole bound)
    (conjunction whole' bound') :=
  level (inversion hwhole hroom hbound) hroom hbound joins_conj

theorem disjunction : Follows w S (room + 1) 1 (Expr.down w.lines) (disjunction whole bound)
    (disjunction whole' bound') :=
  level (conjunction hwhole hroom hbound) hroom hbound joins_disj

end Levels

section Bounds

variable {bound bound' : Nat} (hbound : bound ≤ bound')
include hbound

theorem nested (hn : n ≤ n') (hle : n ≤ bound) :
    Follows w S n 1 (Expr.down w.lines) (nested bound n) (nested bound' n') := by
  induction n generalizing n' S with
  | zero => exact cramped rfl
  | succ n ih =>
    obtain ⟨n', rfl⟩ : ∃ m, n' = m + 1 := ⟨n' - 1, by omega⟩
    exact disjunction (ih (by omega) (by omega)) hle hbound

theorem expression :
    Follows w S bound 1 (Expr.down w.lines) (expression bound) (expression bound') :=
  nested hbound hbound (Nat.le_refl _)

theorem returning : Follows w S bound 1 (Stmt.down w.lines) (returning bound)
    (returning bound') := by
  apply here_bind
  intro x _ pos _ pos' hpos'
  apply expect_bind (by simp)
  rintro rfl
  rw [hpos' (Or.inr (by simp))]
  apply sees_bind
  · intro _
    apply pure
    rw [Stmt.down]
  · apply ((expression hbound).lax (by omega)).bind_of
    intro value
    apply pure
    rw [Stmt.down]

theorem printRest (hroom : room ≤ n) (hn : n ≤ n') (hle : room ≤ bound) :
    Follows w S room 0 (List.map (Expr.down w.lines)) (printRest bound n)
      (printRest bound' n') := by
  induction n generalizing room n' S with
  | zero => exact cramped (Nat.le_zero.1 hroom)
  | succ n ih =>
    obtain ⟨n', rfl⟩ : ∃ m, n' = m + 1 := ⟨n' - 1, by omega⟩
    apply accept_bind (by simp)
    · intro _
      apply ((expression hbound).lax (by omega)).bind_of
      intro arg
      apply (ih (by omega) (by omega) (by omega)).bind_of
      intro args
      exact pure rfl
    · exact pure rfl

theorem printing : Follows w S bound 1 (Stmt.down w.lines) (printing bound)
    (printing bound') := by
  apply here_bind
  intro x _ pos _ pos' hpos'
  apply expect_bind (by simp)
  rintro rfl
  rw [hpos' (Or.inr (by simp))]
  apply sees_bind
  · intro _
    apply pure
    rw [Stmt.down, Expr.downAll]
  · apply ((expression hbound).lax (by omega)).bind_of
    intro first
    apply (printRest hbound (Nat.sub_le ..) hbound (by omega)).bind_of
    intro rest
    apply pure
    rw [Stmt.down, Expr.downAll_eq_map, List.map_cons]

theorem assigned (pos : Position) (target : Expr) :
    Follows w S bound 0 (Stmt.down w.lines) (assigned bound pos target)
      (assigned bound' (pos.down w.lines) (target.down w.lines)) := by
  apply here_bind
  intro y _ sign hsign sign' hsign'
  apply accept_bind (by simp)
  · intro _
    apply ((expression hbound).lax (by omega)).bind_of
    intro value
    rw [assignment?_down]
    cases assignment? target value pos with
    | some stmt => exact pure rfl
    | none =>
      apply failAt rfl hsign
      intro hw d
      rw [hsign' (Or.inl hw), w.strict_lines hw, Position.down_zero]
      rfl
  · apply pure
    rw [Stmt.down]

theorem simple : Follows w S bound 1 (Stmt.down w.lines) (simple bound) (simple bound') := by
  rw [simple_eq, simple_eq]
  apply here_bind
  intro x _ pos _ pos' hpos'
  have hmoved : Follows w (· = x) bound 1 (Stmt.down w.lines)
      (do let target ← Parse.expression bound; Parse.assigned bound pos target)
      (do let target ← Parse.expression bound'
          Parse.assigned bound' (pos.down w.lines) target) := by
    apply ((expression hbound).within (Nat.le_refl _)).bind_of
    intro target
    exact (assigned hbound pos target).within (Nat.sub_le ..)
  by_cases hx : w.strict ∨ x ≠ .dedent
  · rw [hpos' hx]
    exact hmoved
  · obtain ⟨hlax, hdedent⟩ := not_or.1 hx
    refine ⟨hmoved.left, hmoved.fails, ?_, fun hw => absurd hw hlax⟩
    intro c d a c' hc hk hcount hrun
    obtain ⟨e, he⟩ := (refuses_expression bound).bind _ c (hk.trans (not_not.1 hdedent))
    rw [he] at hrun
    cases hrun

omit hbound in
theorem ended {stmt stmt' : Parse Stmt} (h : Follows w S room 1 (Stmt.down w.lines) stmt stmt') :
    Follows w S room 1 (Stmt.down w.lines) (ended stmt) (ended stmt') := by
  apply h.bind_of
  intro s
  apply expect_bind (by simp)
  intro _
  exact pure rfl

end Bounds

section Forms

theorem indented {f : α → β} {item : Parse α} {item' : Parse β}
    (hitem : Follows w Kind.Any room 1 f item item') (hroom : room ≤ n) (hn : n ≤ n') :
    Follows w S room 1 (List.map f) (indented item n) (indented item' n') := by
  apply expect_bind (by simp)
  intro _
  apply expect_bind (by simp)
  intro _
  apply expect_bind (by simp)
  intro _
  apply (untilDedent (hitem.within (by omega)) (by omega) hn).bind_of
  intro items
  apply expect_bind (by simp)
  intro _
  exact pure rfl

theorem inherited {pos : Position} (hpos : pos ∈ w.places) {pos' : Position}
    (hpos' : w.strict → pos' = pos) (word : String) :
    Follows w S room 0 (Option.map (Class.down w.lines))
      (get >>= fun c => inherited word pos (c.class? word))
      (get >>= fun c => inherited word pos' (c.class? word)) := by
  apply class_bind
  · intro cls
    exact pure rfl
  · intro found hfound
    apply failAt rfl hpos
    intro hw d
    rw [hfound (Or.inl hw), hpos' hw]
    rfl

theorem parent : Follows w S room 0 (Option.map (Class.down w.lines)) parent parent := by
  rw [parent_eq]
  apply accept_bind (by simp)
  · intro _
    apply here_bind
    intro x _ pos hpos pos' hpos'
    apply name.bind_of
    intro word
    apply expect_bind (by simp)
    intro _
    apply inherited hpos
    intro hw
    rw [hpos' (Or.inl hw), w.strict_lines hw, Position.down_zero]
  · exact pure rfl

variable {inner inner' : Parse Stmt} {bound bound' : Nat}
  (hinner : Follows w Kind.Any room 1 (Stmt.down w.lines) inner inner') (hroom : room < bound)
  (hbound : bound ≤ bound')
include hinner hroom hbound

theorem method : Follows w S room 1 (Method.down w.lines) (method inner bound)
    (method inner' bound') := by
  apply expect_bind (by simp)
  intro _
  apply name.bind_of
  intro word
  apply expect_bind (by simp)
  intro _
  apply (commaList (f := id) name (by omega) hbound).bind_of
  intro params
  apply expect_bind (by simp)
  intro _
  apply (indented (hinner.within (by omega)) (by omega) hbound).bind_of
  intro body
  apply pure
  rw [Method.down, Stmt.downAll_eq_map, List.map_id]
  rfl

theorem classDefinition : Follows w S (room + 1) 1 (Stmt.down w.lines)
    (classDefinition inner bound) (classDefinition inner' bound') := by
  rw [classDefinition_eq, classDefinition_eq]
  apply here_bind
  intro x _ pos _ pos' hpos'
  apply expect_bind (by simp)
  rintro rfl
  apply name.bind_of
  intro word
  apply parent.bind_of
  intro above
  have hmethods := indented (S := Kind.Any) (method hinner hroom hbound) (Nat.le_of_lt hroom) hbound
  apply (hmethods.lax (by omega)).bind_of
  intro methods
  have hcls := Class.down_mk w.lines word methods above
  rw [id, ← hcls]
  apply (learn _).bind_of
  intro _
  apply pure
  rw [Stmt.down, hpos' (Or.inr (by simp))]

theorem conditional : Follows w S (room + 1) 1 (Stmt.down w.lines) (conditional inner bound)
    (conditional inner' bound') := by
  apply here_bind
  intro x _ pos _ pos' hpos'
  apply expect_bind (by simp)
  rintro rfl
  rw [hpos' (Or.inr (by simp))]
  have hblock := indented (S := Kind.Any) hinner (Nat.le_of_lt hroom) hbound
  apply ((expression hbound).lax (by omega)).bind_of
  intro condition
  apply (hblock.lax (by omega)).bind_of
  intro body
  apply accept_bind (by simp)
  · intro _
    apply (hblock.lax (by omega)).bind_of
    intro other
    apply pure
    rw [Stmt.down, Stmt.downAll_eq_map, Stmt.downAll_eq_map]
  · apply pure
    rw [Stmt.down, Stmt.downAll_eq_map]

theorem anyStatement : Follows w S (room + 1) 1 (Stmt.down w.lines) (anyStatement inner bound)
    (anyStatement inner' bound') := by
  apply kind_bind
  intro x _
  split
  · exact classDefinition hinner hroom hbound
  · exact conditional hinner hroom hbound
  · exact ended ((returning hbound).within hroom)
  · exact ended ((printing hbound).within hroom)
  · exact ended ((simple hbound).within hroom)

end Forms

section Statements

variable {bound bound' : Nat} (hbound : bound ≤ bound')
include hbound

theorem nestedStatement (hn : n ≤ n') (hle : n ≤ bound) : Follows w S n 1 (Stmt.down w.lines)
    (nestedStatement bound n) (nestedStatement bound' n') := by
  induction n generalizing n' S with
  | zero => exact cramped rfl
  | succ n ih =>
    obtain ⟨n', rfl⟩ : ∃ m, n' = m + 1 := ⟨n' - 1, by omega⟩
    exact anyStatement (ih (by omega) (by omega)) hle hbound

theorem statement :
    Follows w S bound 1 (Stmt.down w.lines) (statement bound) (statement bound') :=
  nestedStatement hbound hbound (Nat.le_refl _)

theorem statements (hroom : room ≤ n) (hn : n ≤ n') (hle : room ≤ bound) :
    Follows w S room 0 (List.map (Stmt.down w.lines)) (statements bound n)
      (statements bound' n') := by
  induction n generalizing room n' S with
  | zero => exact cramped (Nat.le_zero.1 hroom)
  | succ n ih =>
    obtain ⟨n', rfl⟩ : ∃ m, n' = m + 1 := ⟨n' - 1, by omega⟩
    apply kind_bind
    intro x _
    split
    · exact pure rfl
    · apply advance_bind
      · rintro _ rfl
        simp
      · exact ih (by omega) (by omega) (by omega)
    · apply ((statement hbound).within hle).bind_of
      intro first
      apply (ih (by omega) (by omega) (by omega)).bind_of
      intro rest
      exact pure rfl

theorem program : Follows w S bound 0 (Program.down w.lines) (program bound) (program bound') := by
  apply (statements hbound le_rfl hbound le_rfl).bind_of
  intro body
  apply pure
  rw [Program.down, Stmt.downAll_eq_map]

end Statements

end Parse.Follows

end Mython
