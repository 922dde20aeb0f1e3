import Mython.Proofs.Run.Truncation
import Mython.Proofs.Store.Lasting

namespace Mython

open Run

/-- An answer that depends only on the objects to which what is held leads. -/
def Heap.RestsOn (held : Multiset Handle) (look : Heap → α) : Prop :=
  ∀ h h' : Heap, (∀ x : Handle, x.held ⊆ held → h'.object? x = h.object? x) → look h' = look h

namespace Heap.RestsOn

variable {held : Multiset Handle} {x y : Handle}

theorem isTrue (hx : x.held ⊆ held) : RestsOn held fun h => h.isTrue x := by
  intro h h' hsame
  simp only [Heap.isTrue, hsame x hx]

theorem kind (hx : x.held ⊆ held) : RestsOn held fun h => h.kind x := by
  intro h h' hsame
  simp only [Heap.kind, hsame x hx]

theorem isInstance (hx : x.held ⊆ held) : RestsOn held fun h => h.isInstance x := by
  intro h h' hsame
  simp only [Heap.isInstance, kind hx h h' hsame]

theorem holds (relation : Relation) (hx : x.held ⊆ held) (hy : y.held ⊆ held) :
    RestsOn held fun h => h.holds relation x y := by
  intro h h' hsame
  simp only [Heap.holds, Heap.equal, Heap.less, hsame x hx, hsame y hy]

theorem accepting? (name : String) (arity : Nat) (hx : x.held ⊆ held) :
    RestsOn held fun h => (h.accepting? x name arity).isSome := by
  intro h h' hsame
  simp only [Heap.accepting?, hsame x hx]

theorem onValues (op : ArithOp) (hx : x.held ⊆ held) (hy : y.held ⊆ held) :
    RestsOn held fun h => op.onValues h x y := by
  intro h h' hsame
  simp only [ArithOp.onValues, kind hx h h' hsame, kind hy h h' hsame, hsame x hx, hsame y hy]

theorem negated (hx : x.held ⊆ held) : RestsOn held fun h => h.negated x := by
  intro h h' hsame
  simp only [Heap.negated, Heap.number?, kind hx h h' hsame, hsame x hx]

theorem instanceAt (hx : x.held ⊆ held) : RestsOn held (instanceAt x) := by
  intro h h' hsame
  simp only [Run.instanceAt, isInstance hx h h' hsame]

theorem speaker (hx : x.held ⊆ held) : RestsOn held (Guest.speaker x) := by
  intro h h' hsame
  simp only [Guest.speaker, hsame x hx]

end Heap.RestsOn

/-- Whether a primitive step looks only at what is held, and never at the field `self`. -/
def Primitive.Discreet (held : Multiset Handle) {α : Type} {p : Multiset Handle} {f : Run α}
    {q : α → Multiset Handle} : Primitive p f q → Prop
  | .ask look => Heap.RestsOn held look
  | @Primitive.fresh object _ => ∀ c, object.definition? = some c → c.readsSelf = false
  | .freshInstance cls => cls.readsSelf = false
  | @Primitive.compute _ look _ _ =>
    Heap.RestsOn held look ∧ ∀ h object, look h = .ok object → object.definition? = none
  | .path _ fields _ => selfName ∉ fields
  | .fetch x _ name _ => x.held ⊆ held ∧ name ≠ selfName
  | _ => True

/-- Whether a script looks only at what is held by itself or besides, and never at the field `self`.
The receiver of every request is held. -/
def Script.Discreet (held : Multiset Handle) {α : Type} {p : Multiset Handle} {f : Guest → Run α}
    {q : α → Multiset Handle} : Script p f q → Prop
  | .step h => h.Discreet (p + held)
  | .frame _ h _ => h.Discreet (p + held)
  | .bind h hk => h.Discreet held ∧ ∀ a, (hk a).Discreet held
  | .holding x h => h.Discreet (x.held + held)
  | .keeping x h => h.Discreet (x.held + held)
  | @Script.seize _ _ look _ _ _ _ hb ho =>
    Heap.RestsOn held look ∧ (∀ loc, (hb loc).Discreet ((Handle.own loc).held + held)) ∧
      ∀ h : Heap, h.Firm → ∀ found, look h = .error found → (ho found).Discreet held
  | .bestow x _ _ _ h => x.held ⊆ held ∧ ∀ loc, h.Discreet ((Handle.own loc).held + held)
  | .call x _ _ _ => x.held ⊆ held
  | .render x _ => x.held ⊆ held
  | .conv h _ _ _ => h.Discreet held

namespace Script.Discreet

variable {held p : Multiset Handle}

theorem asking {look : Heap → α} {k : Guest → α → Run β} {q : β → Multiset Handle}
    {hk : ∀ a, Script p (fun g => k g a) q} (hl : Heap.RestsOn (p + held) look)
    (h : ∀ a, (hk a).Discreet held) : (Script.asking look hk).Discreet held := by
  refine ⟨?_, h⟩
  rw [← zero_add p] at hl
  exact hl

theorem branch {c : Prop} [Decidable c] {f f' : Guest → Run α} {q : α → Multiset Handle}
    {s : Script p f q} {s' : Script p f' q} (h : s.Discreet held) (h' : s'.Discreet held) :
    (Script.branch c s s').Discreet held := by
  rw [Script.branch]
  split
  · exact h
  · exact h'

theorem hold {f : Guest → Run Handle} {k : Guest → Handle → Run α} {q : α → Multiset Handle}
    {s : Script p f Handle.held} {sk : ∀ x, Script 0 (fun g => k g x) q} (h : s.Discreet held)
    (hk : ∀ x, (sk x).Discreet (x.held + held)) : (s.hold sk).Discreet held :=
  ⟨h, hk⟩

/-- Whether a value counts as true is asked while the value is held. -/
theorem askingTruth {x : Handle} {k : Guest → Bool → Run α} {q : α → Multiset Handle}
    {hk : ∀ found, Script 0 (fun g => k g found) q}
    (h : ∀ found, (hk found).Discreet (x.held + held)) :
    (Script.asking (fun heap => heap.isTrue x) hk).Discreet (x.held + held) :=
  asking (.isTrue (Handle.held_besides 0 (x.held_mine held))) h

theorem truthOf {look : Heap → Bool} (hl : Heap.RestsOn held look) :
    (Script.truthOf look).Discreet held := by
  apply asking
  · rw [zero_add]
    exact hl
  · rintro b c ⟨⟩

end Script.Discreet

theorem Run.discreet_arithmetic (op : ArithOp) (x y : Handle) (line : Nat)
    (held : Multiset Handle) : (arithmeticScript op x y line).Discreet held := by
  have hx : x.held ⊆ x.held + y.held + held := by
    rw [add_assoc]
    exact x.held_mine _
  have hy : y.held ⊆ x.held + y.held + held := by
    rw [add_assoc]
    exact Handle.held_besides _ (y.held_mine _)
  apply Script.Discreet.asking (.accepting? addName 1 hx)
  intro left
  apply Script.Discreet.branch
  · exact x.held_mine held
  apply Script.Discreet.asking (.accepting? addName 1 hy)
  intro right
  apply Script.Discreet.branch
  · exact y.held_mine held
  refine ⟨.onValues op ?_ ?_, ?_⟩
  · exact Handle.held_besides _ (Handle.held_besides _ (x.held_mine held))
  · exact Handle.held_besides _ (y.held_mine _)
  · intro h object hvalue
    obtain ⟨_, rfl⟩ | ⟨_, rfl⟩ := ArithOp.onValues_ok hvalue <;> rfl

theorem Run.discreet_prepare {cls : Class} {x : Handle} {args : List Expr} {line : Nat}
    {held : Multiset Handle} {s : Script 0 (fun g => Expr.evalAll g args) Handle.heldAll}
    (h : s.Discreet held) (hx : x.held ⊆ held) : (prepareScript cls x line s).Discreet held :=
  ⟨h, fun _ => .branch ⟨hx, fun _ => trivial⟩ trivial⟩

mutual

/-- An expression that does not read the field `self` has a discreet script, whatever is held
besides. The value of each part is held while it is looked at. -/
theorem Expr.discreet : (e : Expr) → e.readsSelf = false → ∀ held, e.script.Discreet held
  | .number _ _, _, _ | .text _ _, _, _ | .truth _ _, _, _ => by rintro c ⟨⟩
  | .none _, _, _ => trivial
  | .path root fields pos, h, _ => by
    show selfName ∉ fields
    rw [Expr.readsSelf] at h
    simpa using h
  | .field object name pos, h, held => by
    rw [Expr.readsSelf, Bool.or_eq_false_iff] at h
    apply Script.Discreet.hold (object.discreet h.1 held)
    intro x
    exact ⟨Handle.held_besides 0 (x.held_mine held), by simpa using h.2⟩
  | .call object method args pos, h, held => by
    rw [Expr.readsSelf, Bool.or_eq_false_iff] at h
    apply Script.Discreet.hold (object.discreet h.1 held)
    intro x
    apply Script.Discreet.asking
    · exact .isInstance (Handle.held_besides 0 (x.held_mine held))
    · intro found
      exact .branch ⟨Expr.discreetAll args h.2 _, fun _ => x.held_mine held⟩ trivial
  | .construct cls args pos, h, held => by
    rw [Expr.readsSelf, Bool.or_eq_false_iff] at h
    refine ⟨h.1, fun x => ⟨?_, fun _ => trivial⟩⟩
    exact discreet_prepare (Expr.discreetAll args h.2 _) (x.held_mine held)
  | .stringify arg pos, h, held => by
    rw [Expr.readsSelf] at h
    refine ⟨arg.discreet h held, fun x => ⟨x.held_mine held, ?_⟩⟩
    rintro text c ⟨⟩
  | .arith op left right pos, h, held => by
    rw [Expr.readsSelf, Bool.or_eq_false_iff] at h
    exact ⟨left.discreet h.1 held, fun x => ⟨right.discreet h.2 _, fun y =>
      discreet_arithmetic op x y pos.line held⟩⟩
  | .conj left right _, h, held => by
    rw [Expr.readsSelf, Bool.or_eq_false_iff] at h
    apply Script.Discreet.hold (left.discreet h.1 held)
    intro x
    apply Script.Discreet.askingTruth
    intro found
    apply Script.Discreet.branch
    · apply Script.Discreet.hold (right.discreet h.2 _)
      intro y
      exact .truthOf (.isTrue (y.held_mine _))
    · rintro c ⟨⟩
  | .disj left right _, h, held => by
    rw [Expr.readsSelf, Bool.or_eq_false_iff] at h
    apply Script.Discreet.hold (left.discreet h.1 held)
    intro x
    apply Script.Discreet.askingTruth
    intro found
    apply Script.Discreet.branch
    · rintro c ⟨⟩
    · apply Script.Discreet.hold (right.discreet h.2 _)
      intro y
      exact .truthOf (.isTrue (y.held_mine _))
  | .compare relation left right _, h, held => by
    rw [Expr.readsSelf, Bool.or_eq_false_iff] at h
    apply Script.Discreet.hold (left.discreet h.1 held)
    intro x
    apply Script.Discreet.hold (right.discreet h.2 _)
    intro y
    exact .truthOf (.holds relation (Handle.held_besides _ (x.held_mine held)) (y.held_mine _))
  | .negate operand pos, h, held => by
    rw [Expr.readsSelf] at h
    apply Script.Discreet.hold (operand.discreet h held)
    intro x
    refine ⟨.negated (Handle.held_besides 0 (x.held_mine held)), ?_⟩
    intro h object hvalue
    obtain ⟨_, rfl⟩ := Heap.negated_ok hvalue
    rfl
  | .not operand _, h, held => by
    rw [Expr.readsSelf] at h
    apply Script.Discreet.hold (operand.discreet h held)
    intro x
    apply Script.Discreet.askingTruth
    rintro found c ⟨⟩

theorem Expr.discreetAll : (es : List Expr) → Expr.anyReadsSelf es = false →
    ∀ held, (Expr.scriptAll es).Discreet held
  | [], _, _ => trivial
  | e :: es, h, held => by
    rw [Expr.anyReadsSelf, Bool.or_eq_false_iff] at h
    exact ⟨e.discreet h.1 held, fun x => ⟨Expr.discreetAll es h.2 _, fun _ => trivial⟩⟩

end

theorem Expr.discreet_textAll (line : Nat) (es : List Expr) (h : Expr.anyReadsSelf es = false)
    (held : Multiset Handle) : (Expr.textAllScript line es).Discreet held := by
  induction es with
  | nil => trivial
  | cons e es ih =>
    rw [Expr.anyReadsSelf, Bool.or_eq_false_iff] at h
    exact ⟨e.discreet h.1 held, fun x => ⟨x.held_mine held, fun _ => ⟨ih h.2, fun _ => trivial⟩⟩⟩

theorem Run.discreet_assign (name : String) (x : Handle) (held : Multiset Handle) :
    (assignScript name x).Discreet held :=
  ⟨trivial, fun _ => ⟨trivial, fun _ => trivial⟩⟩

mutual

/-- So has a statement that does not read it. Binding the field is no reading. -/
theorem Stmt.discreet : (s : Stmt) → s.readsSelf = false → ∀ held, s.script.Discreet held
  | .assign name value _, h, held => by
    rw [Stmt.readsSelf] at h
    exact ⟨value.discreet h held, fun x => discreet_assign name x held⟩
  | .assignField object field value pos, h, held => by
    rw [Stmt.readsSelf, Bool.or_eq_false_iff] at h
    apply Script.Discreet.hold (object.discreet h.1 held)
    intro target
    exact ⟨target.held_mine held, fun _ => value.discreet h.2 _⟩
  | .print args pos, h, held => by
    rw [Stmt.readsSelf] at h
    exact ⟨Expr.discreet_textAll pos.line args h held, fun _ => ⟨trivial, fun _ => trivial⟩⟩
  | .ret (some value) _, h, held => by
    rw [Stmt.readsSelf] at h
    exact ⟨value.discreet h held, fun _ => trivial⟩
  | .ret none _, _, _ => trivial
  | .ifThen condition body _, h, held => by
    rw [Stmt.readsSelf, Bool.or_eq_false_iff] at h
    apply Script.Discreet.hold (condition.discreet h.1 held)
    intro x
    apply Script.Discreet.askingTruth
    intro found
    exact .branch (Stmt.discreetAll body h.2 _) trivial
  | .ifElse condition body other _, h, held => by
    rw [Stmt.readsSelf, Bool.or_eq_false_iff, Bool.or_eq_false_iff] at h
    apply Script.Discreet.hold (condition.discreet h.1.1 held)
    intro x
    apply Script.Discreet.askingTruth
    intro found
    exact .branch (Stmt.discreetAll body h.1.2 _) (Stmt.discreetAll other h.2 _)
  | .define cls _, h, held => by
    rw [Stmt.readsSelf] at h
    refine ⟨?_, fun x => discreet_assign cls.name x held⟩
    rintro c ⟨⟩
    exact h
  | .eval e, h, held => by
    rw [Stmt.readsSelf] at h
    exact ⟨e.discreet h held, fun _ => trivial⟩

theorem Stmt.discreetAll : (ss : List Stmt) → Stmt.anyReadsSelf ss = false →
    ∀ held, (Stmt.scriptAll ss).Discreet held
  | [], _, _ => trivial
  | s :: ss, h, held => by
    rw [Stmt.anyReadsSelf, Bool.or_eq_false_iff] at h
    refine ⟨s.discreet h.1 held, ?_⟩
    rintro (x | x)
    · exact ⟨trivial, fun _ => Stmt.discreetAll ss h.2 held⟩
    · trivial

end

theorem Program.discreet {p : Program} (h : p.readsSelf = false) (held : Multiset Handle) :
    p.script.Discreet held := by
  refine ⟨Stmt.discreetAll p.body h held, ?_⟩
  rintro (x | x) <;> trivial

namespace Guest

theorem discreet_assignAll (names : List String) (xs : List Handle)
    (h : names.length = xs.length) (held : Multiset Handle) :
    (assignAllScript names xs h).Discreet held := by
  induction names, xs, h using assignAllScript.induct with
  | case1 => trivial
  | case2 name names x xs h ih => exact ⟨trivial, fun _ => ih⟩

theorem discreet_result (completion : Completion) (held : Multiset Handle) :
    (resultScript completion).Discreet held := by
  cases completion with
  | ret x => trivial
  | next x => exact ⟨trivial, fun _ => trivial⟩

theorem discreet_body {method : Method} (hbody : Stmt.anyReadsSelf method.body = false)
    {args : List Handle} (h : method.arity = args.length) (held : Multiset Handle) :
    (bodyScript method args h).Discreet held :=
  ⟨discreet_assignAll method.params args h held, fun _ =>
    ⟨Stmt.discreetAll method.body hbody held, fun completion => discreet_result completion held⟩⟩

theorem discreet_textOf {x : Handle} (line : Nat) {held : Multiset Handle} (hx : x.held ⊆ held) :
    (textOfScript x line).Discreet held :=
  .hold hx fun y => y.held_mine held

theorem speaker_error {x : Handle} {h : Heap} {found : Option Object}
    (hs : speaker x h = .error found) : found = h.object? x := by
  rw [speaker] at hs
  split at hs
  · next hobject =>
    split at hs
    · cases hs
    · cases hs
      exact hobject.symm
  · cases hs
    rfl

theorem discreet_otherText (line : Nat) (place : Option Loc) {found : Option Object}
    {held : Multiset Handle} (h : ∀ c, found = some (.cls c) → c.readsSelf = false) :
    (otherTextScript line place found).Discreet held := by
  cases place with
  | none => cases found <;> trivial
  | some loc =>
    cases found with
    | none => trivial
    | some object =>
      cases object with
      | cls c =>
        apply Script.Discreet.branch
        · exact .hold (h c rfl) fun y => discreet_textOf line (y.held_mine held)
        · trivial
      | _ => trivial

theorem discreet_text {x : Handle} (line : Nat) {held : Multiset Handle} (hx : x.held ⊆ held) :
    (textScript x line).Discreet held := by
  refine ⟨.speaker hx, fun loc => discreet_textOf line (Handle.held_besides _ hx), ?_⟩
  intro h hfirm found hs
  apply discreet_otherText
  intro c hfound
  rw [speaker_error hs] at hfound
  obtain ⟨loc, -, hget⟩ := Option.bind_eq_some_iff.1 hfound
  exact hfirm.cls hget rfl

end Guest

end Mython
