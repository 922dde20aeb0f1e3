import Mython.Proofs.Run.Account
import Mython.Proofs.Store.Lasting
import Mython.Proofs.Token.Spelling

namespace Mython

open Run

/-- Whether some word holds an integer. -/
def Number.Fits (n : Int) : Prop := least ≤ n ∧ n ≤ greatest

/-- The words that paths lead to, where they lead to one. -/
abbrev Words := String → List String → Option Number

/-- The word that a path leads to in a state. -/
def Machine.word? (m : Machine) : Words := fun root fields =>
  match m.scope.get? root with
  | none => none
  | some x =>
    match m.heap.follow root x fields with
    | .ok y => m.heap.number? y
    | .error _ => none

namespace Expr

/-- Expressions that calculate with words: numbers, paths to words, and operators. -/
inductive Integral (known : Words) : Expr → Prop
  | number (value : Number) (pos : Position) : Integral known (.number value pos)
  | path {root : String} {fields : List String} {value : Number} (pos : Position)
      (h : known root fields = some value) : Integral known (.path root fields pos)
  | negate {operand : Expr} (pos : Position) (h : Integral known operand) :
      Integral known (.negate operand pos)
  | arith {left right : Expr} (op : ArithOp) (pos : Position) (hl : Integral known left)
      (hr : Integral known right) : Integral known (.arith op left right pos)

/-- The exact value of a calculation, over all integers. -/
def exact (known : Words) : Expr → Int
  | .number value _ => value.toInt
  | .path root fields _ => ((known root fields).getD 0).toInt
  | .negate operand _ => -operand.exact known
  | .arith op left right _ => op.exact (left.exact known) (right.exact known)
  | _ => 0

/-- The parts of a calculation, each behind the parts that it is made of, the left ones first. -/
def postorder : Expr → List Expr
  | .negate operand pos => operand.postorder ++ [.negate operand pos]
  | .arith op left right pos => left.postorder ++ right.postorder ++ [.arith op left right pos]
  | e => [e]

/-- What an expression divides by. -/
def divisor? : Expr → Option Expr
  | .arith .div _ right _ => some right
  | _ => Option.none

/-- A part of a calculation that has a value: it does not divide by zero, and a word holds the
exact result. -/
structure Sound (known : Words) (e : Expr) : Prop where
  fits : Number.Fits (e.exact known)
  divides : ∀ d ∈ e.divisor?, d.exact known ≠ 0

/-- What is wrong with a part of a calculation that has no value. -/
def lapse (known : Words) : Expr → Fault.Cause
  | .arith .div _ right _ => if right.exact known = 0 then .divisionByZero else .overflow .div
  | .arith op _ _ _ => .overflow op
  | _ => .overflow .sub

/-- The first of several parts that has no value. -/
def FirstLapse (known : Words) (es : List Expr) (s : Expr) : Prop :=
  ∃ before after, es = before ++ s :: after ∧ (∀ t ∈ before, t.Sound known) ∧ ¬ s.Sound known

namespace FirstLapse

variable {known : Words} {es fs : List Expr} {s : Expr}

theorem append (h : FirstLapse known es s) (fs : List Expr) : FirstLapse known (es ++ fs) s := by
  obtain ⟨before, after, rfl, hbefore, hs⟩ := h
  exact ⟨before, after ++ fs, by simp, hbefore, hs⟩

theorem behind (hes : ∀ t ∈ es, t.Sound known) (h : FirstLapse known fs s) :
    FirstLapse known (es ++ fs) s := by
  obtain ⟨before, after, rfl, hbefore, hs⟩ := h
  refine ⟨es ++ before, after, by simp, ?_, hs⟩
  intro t ht
  rcases List.mem_append.1 ht with ht | ht
  · exact hes t ht
  · exact hbefore t ht

theorem last (hes : ∀ t ∈ es, t.Sound known) (hs : ¬ s.Sound known) :
    FirstLapse known (es ++ [s]) s := ⟨es, [], rfl, hes, hs⟩

end FirstLapse

end Expr

namespace Number

theorem ofInt?_eq_none {n : Int} : ofInt? n = none ↔ ¬ Fits n := by
  rw [ofInt?, Fits]
  split <;> simp_all

/-- There is a word for every integer in the range. -/
theorem exists_of_fits {n : Int} (h : Fits n) : ∃ value : Number, value.toInt = n := by
  cases hvalue : ofInt? n with
  | some value => exact ⟨value, ofInt?_eq_some.1 hvalue⟩
  | none => exact absurd h (ofInt?_eq_none.1 hvalue)

theorem fits_toInt (value : Number) : Fits value.toInt := by
  by_contra h
  have hsome := ofInt?_eq_some.2 (Eq.refl value.toInt)
  rw [ofInt?_eq_none.2 h] at hsome
  cases hsome

theorem eq_zero_iff {value : Number} : value = 0 ↔ value.toInt = 0 := by
  rw [← Int64.toInt_inj]
  rfl

end Number

namespace ArithOp

/-- An operator on words gives the exact result, or tells why it has none. -/
theorem onNumbers_cases (op : ArithOp) (a b : Number) :
    (∃ value, op.onNumbers a b = .ok value ∧ value.toInt = op.exact a.toInt b.toInt ∧
      ¬ (op = .div ∧ b.toInt = 0)) ∨
    (op = .div ∧ b.toInt = 0 ∧ op.onNumbers a b = .error .divisionByZero) ∨
    (¬ (op = .div ∧ b.toInt = 0) ∧ ¬ Number.Fits (op.exact a.toInt b.toInt) ∧
      op.onNumbers a b = .error (.overflow op)) := by
  rw [onNumbers]
  simp only [Number.eq_zero_iff]
  split
  · next hzero => exact Or.inr (Or.inl ⟨hzero.1, hzero.2, rfl⟩)
  · next hzero =>
    cases hvalue : Number.ofInt? (op.exact a.toInt b.toInt) with
    | some value => exact Or.inl ⟨value, rfl, Number.ofInt?_eq_some.1 hvalue, hzero⟩
    | none => exact Or.inr (Or.inr ⟨hzero, Number.ofInt?_eq_none.1 hvalue, rfl⟩)

end ArithOp

namespace Heap

/-- A heap that counts: what has lost its last owner goes, and all that is there has one. -/
structure Counted (h : Heap) : Prop where
  reclaims : h.reclaims = true
  positive : ∀ loc cell, h.cell? loc = some cell → 0 < cell.owners

theorem Settled.counted {h : Heap} {outside : Multiset Handle} (hs : h.Settled outside) :
    h.Counted := ⟨hs.balanced.reclaims, hs.balanced.positive⟩

theorem number?_eq_some {h : Heap} {x : Handle} {a : Number} :
    h.number? x = some a ↔ h.object? x = some (.number a) := by
  rw [number?]
  split <;> simp_all

/-- Letting go of what owns nothing itself is seen at its place only. -/
theorem cell?_release_plain {h : Heap} (hr : h.reclaims = true) {loc : Loc} {cell : Cell}
    (hcell : h.cell? loc = some cell) (hplain : cell.object.owned = []) (place : Loc) :
    (h.release (.own loc)).cell? place =
      if loc = place then
        if cell.owners ≤ 1 then none else some { cell with owners := cell.owners - 1 }
      else h.cell? place := by
  have hsize : h.size = h.size - 1 + 1 :=
    (Nat.sub_add_cancel (Nat.zero_lt_of_lt (lt_size_of_cell? hcell))).symm
  rw [release, if_pos hr, hsize, releaseWithin, hcell]
  simp only
  split
  · rw [hplain, List.foldl_nil, cell?_clear]
  · rw [cell?_adjust]
    split
    · next hplace => rw [← hplace, hcell, Option.map_some]
    · rfl

theorem retain_absent (h : Heap) : h.retain .absent = h := rfl

theorem cell?_retain_own (h : Heap) (loc place : Loc) :
    (h.retain (.own loc)).cell? place =
      if loc = place then (h.cell? place).map fun cell => { cell with owners := cell.owners + 1 }
      else h.cell? place := cell?_adjust h loc place _

theorem reclaims_release (h : Heap) (x : Handle) : (h.release x).reclaims = h.reclaims := by
  cases x with
  | own loc =>
    rw [release]
    split
    · exact @releaseWithin_of_steps (fun h h' => h'.reclaims = h.reclaims) (fun _ => rfl)
        (fun hfirst hnext => hnext.trans hfirst) (fun _ _ => rfl) (fun _ _ => rfl) h.size h loc
    · rfl
  | absent => rfl
  | share loc => rfl

/-- The place of the next object is not that of a number. -/
theorem ne_own_size {h : Heap} {x : Handle} {a : Number} (hx : h.number? x = some a) :
    x ≠ .own h.size := by
  rintro rfl
  rw [number?_eq_some, object?_eq_get? rfl] at hx
  exact Nat.lt_irrefl _ (lt_size_of_get? hx)

/-- Letting go of a number leaves all other objects alone. -/
theorem get?_release_number {h : Heap} (hr : h.reclaims = true) {x : Handle} {a : Number}
    (hx : h.number? x = some a) {place : Loc} (hne : x ≠ .own place) :
    (h.release x).get? place = h.get? place := by
  cases x with
  | own loc =>
    obtain ⟨cell, hcell, hobject⟩ := get?_eq_some.1 (number?_eq_some.1 hx)
    have hother : loc ≠ place := fun hsame => hne (congrArg Handle.own hsame)
    rw [get?, get?, cell?_release_plain hr hcell (by rw [hobject]; rfl), if_neg hother]
  | absent => rfl
  | share loc => rfl

namespace Counted

variable {h : Heap}

theorem alloc (hc : h.Counted) (object : Object) : (h.alloc object).2.Counted where
  reclaims := hc.reclaims
  positive loc cell hcell := by
    rw [cell?_alloc] at hcell
    split at hcell
    · cases hcell
      exact Nat.one_pos
    · exact hc.positive loc cell hcell

theorem retain (hc : h.Counted) (x : Handle) : (h.retain x).Counted := by
  cases x with
  | own loc =>
    refine ⟨hc.reclaims, ?_⟩
    intro place cell hcell
    rw [cell?_retain_own] at hcell
    split at hcell
    · obtain ⟨before, -, rfl⟩ := Option.map_eq_some_iff.1 hcell
      exact Nat.succ_pos _
    · exact hc.positive place cell hcell
  | absent => exact hc
  | share loc => exact hc

end Counted

/-- A later heap in which a calculation has left a value: all that was there is as it was, but for
one more owner of the value. -/
structure Reckons (h : Heap) (x : Handle) (h' : Heap) : Prop where
  counted : h'.Counted
  size : h.size ≤ h'.size
  old : ∀ loc, loc < h.size → h'.cell? loc = (h.retain x).cell? loc

namespace Reckons

variable {h h' h'' : Heap} {x y : Handle} {a b : Number}

theorem refl (hc : h.Counted) : h.Reckons .absent h := ⟨hc, le_rfl, fun _ _ => rfl⟩

theorem retain (hc : h.Counted) (x : Handle) : h.Reckons x (h.retain x) :=
  ⟨hc.retain x, (size_retain h x).ge, fun _ _ => rfl⟩

theorem get? (hr : h.Reckons x h') {loc : Loc} (hloc : loc < h.size) :
    h'.get? loc = h.get? loc := by
  rw [Heap.get?, hr.old loc hloc, ← Heap.get?, get?_retain]

theorem kept (hr : h.Reckons x h') {loc : Loc} {object : Object}
    (hget : h.get? loc = some object) : h'.get? loc = some object :=
  (hr.get? (lt_size_of_get? hget)).trans hget

theorem object? (hr : h.Reckons x h') {object : Object} (hy : h.object? y = some object) :
    h'.object? y = some object := by
  obtain ⟨loc, hloc, hget⟩ := Option.bind_eq_some_iff.1 hy
  rw [object?_eq_get? hloc]
  exact hr.kept hget

theorem number? (hr : h.Reckons x h') (hy : h.number? y = some a) : h'.number? y = some a :=
  number?_eq_some.2 (hr.object? (number?_eq_some.1 hy))

/-- A value at a new place is none of those that were there. -/
theorem fresh (hr : h.Reckons .absent h') {loc : Loc} (hloc : h.size ≤ loc) :
    h.Reckons (.own loc) h' := by
  refine ⟨hr.counted, hr.size, ?_⟩
  intro place hplace
  rw [hr.old place hplace, retain_absent, cell?_retain_own,
    if_neg (Nat.lt_of_lt_of_le hplace hloc).ne']

/-- A new object is behind all that was there. -/
theorem alloc (hr : h.Reckons x h') (object : Object) : h.Reckons x (h'.alloc object).2 where
  counted := hr.counted.alloc object
  size := hr.size.trans (by rw [size_alloc]; exact Nat.le_succ _)
  old loc hloc := by
    rw [cell?_alloc, if_neg (Nat.lt_of_lt_of_le hloc hr.size).ne, hr.old loc hloc]

/-- What is calculated and let go of later on leaves no trace. -/
theorem trans (hr : h.Reckons x h') (hr' : h'.Reckons .absent h'') : h.Reckons x h'' where
  counted := hr'.counted
  size := hr.size.trans hr'.size
  old loc hloc := by
    rw [hr'.old loc (Nat.lt_of_lt_of_le hloc hr.size)]
    exact hr.old loc hloc

/-- A number that is let go of loses the owner that the calculation has added. -/
theorem release (hc : h.Counted) (hr : h.Reckons x h') (hx : h'.number? x = some a) :
    h.Reckons .absent (h'.release x) := by
  cases x with
  | absent => exact hr
  | share loc => exact ⟨hr.counted, hr.size, hr.old⟩
  | own loc =>
    obtain ⟨cell, hcell, hobject⟩ := get?_eq_some.1 (number?_eq_some.1 hx)
    have hreleased := cell?_release_plain hr.counted.reclaims hcell (by rw [hobject]; rfl)
    refine ⟨⟨(reclaims_release h' _).trans hr.counted.reclaims, ?_⟩,
      hr.size.trans (size_release h' _).ge, ?_⟩
    · intro place found hfound
      rw [hreleased] at hfound
      split at hfound
      · split at hfound
        · cases hfound
        · cases hfound
          show 0 < cell.owners - 1
          omega
      · exact hr.counted.positive place found hfound
    · intro place hplace
      rw [hreleased]
      split
      · next hsame =>
        subst hsame
        rw [hr.old loc hplace, cell?_retain_own, if_pos rfl] at hcell
        obtain ⟨before, hbefore, rfl⟩ := Option.map_eq_some_iff.1 hcell
        have hpositive := hc.positive loc before hbefore
        rw [if_neg (by simp only; omega), retain_absent, hbefore]
        rfl
      · next hother =>
        rw [hr.old place hplace, retain_absent, cell?_retain_own, if_neg hother]

end Reckons

end Heap

/-- Paths that lead to words still do so where everything is kept that was there. -/
theorem Heap.follow_of_kept {h h' : Heap}
    (hkept : ∀ loc object, h.get? loc = some object → h'.get? loc = some object) {owner : String}
    {x y : Handle} {names : List String} (hf : h.follow owner x names = .ok y) :
    h'.follow owner x names = .ok y := by
  induction names generalizing owner x with
  | nil => exact hf
  | cons name names ih =>
    rw [follow] at hf ⊢
    cases hfield : h.field x owner name with
    | error cause =>
      rw [hfield] at hf
      cases hf
    | ok z =>
      rw [hfield] at hf
      have hthere : h'.field x owner name = .ok z := by
        rw [← hfield, field, field]
        cases hobject : h.object? x with
        | none =>
          rw [field, hobject] at hfield
          cases hfield
        | some object =>
          obtain ⟨loc, hloc, hget⟩ := Option.bind_eq_some_iff.1 hobject
          rw [object?_eq_get? hloc, hkept loc object hget]
      rw [hthere]
      exact ih hf

/-- A later state in which a calculation has left a value, in the heap and nowhere else. -/
structure Machine.Reckons (m : Machine) (x : Handle) (m' : Machine) : Prop where
  heap : m.heap.Reckons x m'.heap
  scope : m'.scope = m.scope
  sink : m'.sink = m.sink
  depth : m'.depth = m.depth

theorem Machine.word?_eq_some {m : Machine} {root : String} {fields : List String}
    {value : Number} : m.word? root fields = some value ↔ ∃ x y,
      m.scope.get? root = some x ∧ m.heap.follow root x fields = .ok y ∧
        m.heap.number? y = some value := by
  rw [word?]
  cases hget : m.scope.get? root with
  | none => simp
  | some x =>
    simp only [Option.some.injEq, exists_and_left, exists_eq_left']
    cases m.heap.follow root x fields <;> simp

/-- The paths that are known to lead to words do so. -/
def Machine.Knows (m : Machine) (known : Words) : Prop :=
  ∀ root fields value, known root fields = some value → m.word? root fields = some value

namespace Machine.Reckons

variable {m m' m'' : Machine} {x y : Handle} {a b : Number} {known : Words}

theorem knows (hr : m.Reckons x m') (hk : m.Knows known) : m'.Knows known := by
  intro root fields value hvalue
  obtain ⟨z, y, hget, hfollow, hword⟩ := Machine.word?_eq_some.1 (hk root fields value hvalue)
  rw [← hr.scope] at hget
  exact Machine.word?_eq_some.2
    ⟨z, y, hget, Heap.follow_of_kept (fun _ _ => hr.heap.kept) hfollow, hr.heap.number? hword⟩

theorem alloc (hr : m.Reckons x m') (object : Object) :
    m.Reckons x { m' with heap := (m'.heap.alloc object).2 } :=
  ⟨hr.heap.alloc object, hr.scope, hr.sink, hr.depth⟩

theorem trans (hr : m.Reckons x m') (hr' : m'.Reckons .absent m'') : m.Reckons x m'' :=
  ⟨hr.heap.trans hr'.heap, hr'.scope.trans hr.scope, hr'.sink.trans hr.sink,
    hr'.depth.trans hr.depth⟩

theorem release (hc : m.heap.Counted) (hr : m.Reckons x m') (hx : m'.heap.number? x = some a) :
    m.Reckons .absent { m' with heap := m'.heap.release x } :=
  ⟨hr.heap.release hc hx, hr.scope, hr.sink, hr.depth⟩

/-- Both operands of a calculation are let go of, the right one first. -/
theorem operands (hc : m.heap.Counted) (hr : m.Reckons x m') (hx : m'.heap.number? x = some a)
    (hr' : m'.Reckons y m'') (hy : m''.heap.number? y = some b) :
    m.Reckons .absent { m'' with heap := (m''.heap.release y).release x } := by
  have hright := hr'.release hr.heap.counted hy
  exact (hr.trans hright).release hc (hright.heap.number? hx)

end Machine.Reckons

theorem Run.compute_of_ok {line : Nat} {look : Heap → Except Fault.Cause Object} {m : Machine}
    {object : Object} (h : look m.heap = .ok object) :
    compute line look m =
      (.ok (.own m.heap.size), { m with heap := (m.heap.alloc object).2 }) := by
  rw [compute, ask_bind, h]
  rfl

theorem Run.compute_of_error {line : Nat} {look : Heap → Except Fault.Cause Object} {m : Machine}
    {cause : Fault.Cause} (h : look m.heap = .error cause) :
    compute line look m = (.error (.fault ⟨line, cause⟩), m) := by
  rw [compute, ask_bind, h]
  rfl

/-- A sum that neither operand defines is formed from the values alone, like every other
operation. -/
theorem Run.arithmetic_plain {op : ArithOp} {x y : Handle} {m : Machine}
    (hx : op = .add → m.heap.accepting? x addName 1 = none)
    (hy : op = .add → m.heap.accepting? y addName 1 = none) (g : Guest) (line : Nat) :
    arithmetic g op x y line m =
      holding x (holding y (compute line fun h => op.onValues h x y)) m := by
  rw [arithmetic, ask_bind]
  by_cases hadd : op = .add
  · simp only [hx hadd, Option.isSome_none, Bool.and_false, Bool.false_eq_true, if_false]
    rw [ask_bind]
    simp only [hy hadd, Option.isSome_none, Bool.and_false, Bool.false_eq_true, if_false]
    rfl
  · simp only [hadd, decide_false, Bool.false_and, Bool.false_eq_true, if_false]
    rfl

theorem Heap.accepting?_number {h : Heap} {x : Handle} {a : Number} (hx : h.number? x = some a)
    (name : String) (arity : Nat) : h.accepting? x name arity = none := by
  rw [accepting?, number?_eq_some.1 hx]
  rfl

theorem Heap.negated_cases {h : Heap} {x : Handle} {a : Number} (hx : h.number? x = some a) :
    (∃ value, h.negated x = .ok (.number value) ∧ value.toInt = -a.toInt) ∨
      (h.negated x = .error (.overflow .sub) ∧ ¬ Number.Fits (-a.toInt)) := by
  simp only [negated, hx]
  cases hvalue : Number.ofInt? (-a.toInt) with
  | some value => exact Or.inl ⟨value, rfl, Number.ofInt?_eq_some.1 hvalue⟩
  | none => exact Or.inr ⟨rfl, Number.ofInt?_eq_none.1 hvalue⟩

theorem ArithOp.onValues_number {op : ArithOp} {h : Heap} {x y : Handle} {a b : Number}
    (hx : h.number? x = some a) (hy : h.number? y = some b) :
    op.onValues h x y = (op.onNumbers a b).map .number := by
  rw [onValues.eq_def, Heap.number?_eq_some.1 hx, Heap.number?_eq_some.1 hy]
  cases op <;> rfl

namespace Expr

/-- How a calculation ends: with a value and all its parts sound, or at the first part that is
not. -/
inductive Reckoned (known : Words) (e : Expr) (m : Machine) : Except Halt Handle × Machine → Prop
  | value {x : Handle} {value : Number} {m' : Machine} (hr : m.Reckons x m')
      (hx : m'.heap.number? x = some value) (hv : value.toInt = e.exact known)
      (hs : ∀ s ∈ e.postorder, s.Sound known) : Reckoned known e m (.ok x, m')
  | lapse {s : Expr} {m' : Machine} (hr : m.Reckons .absent m')
      (hs : FirstLapse known e.postorder s) :
      Reckoned known e m (.error (.fault ⟨s.pos.line, s.lapse known⟩), m')

variable {known : Words} {m : Machine}

theorem sound_number (value : Number) (pos : Position) : (number value pos).Sound known :=
  ⟨value.fits_toInt, nofun⟩

theorem sound_path (root : String) (fields : List String) (pos : Position) :
    (path root fields pos).Sound known := ⟨Number.fits_toInt _, nofun⟩

theorem sound_negate {operand : Expr} {pos : Position}
    (h : Number.Fits ((negate operand pos).exact known)) : (negate operand pos).Sound known :=
  ⟨h, nofun⟩

theorem sound_arith {op : ArithOp} {left right : Expr} {pos : Position} :
    (arith op left right pos).Sound known ↔
      Number.Fits (op.exact (left.exact known) (right.exact known)) ∧
        ¬ (op = .div ∧ right.exact known = 0) := by
  constructor
  · rintro ⟨hfits, hdivides⟩
    refine ⟨hfits, ?_⟩
    rintro ⟨rfl, hzero⟩
    exact hdivides right rfl hzero
  · rintro ⟨hfits, hdivides⟩
    refine ⟨hfits, ?_⟩
    intro d hd hzero
    cases op <;> cases hd
    exact hdivides ⟨rfl, hzero⟩

theorem lapse_arith {op : ArithOp} {left right : Expr} {pos : Position} :
    (arith op left right pos).lapse known =
      if op = .div ∧ right.exact known = 0 then .divisionByZero else .overflow op := by
  cases op <;> simp [lapse]

/-- A new number is what a calculation gives whose parts are all sound. -/
theorem Reckoned.made {e : Expr} {m' : Machine} {loc : Loc} {value : Number}
    (hr : m.Reckons .absent m') (hloc : m.heap.size ≤ loc)
    (hget : m'.heap.get? loc = some (.number value)) (hv : value.toInt = e.exact known)
    (hs : ∀ s ∈ e.postorder, s.Sound known) : e.Reckoned known m (.ok (.own loc), m') :=
  .value ⟨hr.heap.fresh hloc, hr.scope, hr.sink, hr.depth⟩
    (by rw [Heap.number?_eq_some, Heap.object?_eq_get? rfl, hget]) hv hs

theorem reckoned_number (hc : m.heap.Counted) (value : Number) (pos : Position) (g : Guest) :
    (number value pos).Reckoned known m ((number value pos).eval g m) := by
  have hsame : m.Reckons .absent m := ⟨.refl hc, rfl, rfl, rfl⟩
  refine .made (hsame.alloc (.number value)) le_rfl ?_ rfl ?_
  · exact (m.heap.get?_alloc (.number value) m.heap.size).trans (if_pos rfl)
  · simpa [postorder] using sound_number value pos

theorem reckoned_path (hc : m.heap.Counted) {root : String} {fields : List String} {value : Number}
    (h : known root fields = some value) (hk : m.Knows known) (pos : Position) (g : Guest) :
    (path root fields pos).Reckoned known m ((path root fields pos).eval g m) := by
  obtain ⟨x, y, hget, hfollow, hword⟩ := Machine.word?_eq_some.1 (hk root fields value h)
  have hr : m.Reckons y { m with heap := m.heap.retain y } := ⟨.retain hc y, rfl, rfl, rfl⟩
  rw [eval, Run.path]
  simp only [hget, hfollow]
  refine .value hr (hr.heap.number? hword) ?_ ?_
  · rw [exact, h]
    rfl
  · simpa [postorder] using sound_path root fields pos

/-- Behind its operands, a part is sound if nothing is wrong with itself. -/
theorem sound_snoc {es : List Expr} {e : Expr} (hs : ∀ s ∈ es, s.Sound known)
    (he : e.Sound known) : ∀ s ∈ es ++ [e], s.Sound known := by
  intro s hmem
  rcases List.mem_append.1 hmem with hmem | hmem
  · exact hs s hmem
  · rw [List.mem_singleton.1 hmem]
    exact he

theorem reckoned_negate (hc : m.heap.Counted) {operand : Expr} {g : Guest}
    (h : operand.Reckoned known m (operand.eval g m)) (pos : Position) :
    (negate operand pos).Reckoned known m ((negate operand pos).eval g m) := by
  rw [eval]
  generalize hrun : operand.eval g m = ending at h
  cases h with
  | lapse hr hs =>
    rw [bind_of_error hrun]
    exact .lapse hr (hs.append _)
  | @value x a m' hr hx hv hs =>
    rw [bind_of_ok hrun]
    show (negate operand pos).Reckoned known m
      (holding x (compute pos.line fun h => h.negated x) m')
    rcases Heap.negated_cases hx with ⟨value, hnegated, hvalue⟩ | ⟨hnegated, hfits⟩
    · rw [holding, compute_of_ok hnegated]
      have hmade := hr.alloc (.number value)
      have hthere := ((Heap.Reckons.refl hr.heap.counted).alloc (.number value)).number? hx
      have hexact : value.toInt = (negate operand pos).exact known := by rw [hvalue, hv, exact]
      refine .made (hmade.release hc hthere) hr.heap.size ?_ hexact
        (sound_snoc hs (sound_negate ?_))
      · rw [Heap.get?_release_number hmade.heap.counted.reclaims hthere (Heap.ne_own_size hx),
          Heap.get?_alloc, if_pos rfl]
      · rw [← hexact]
        exact value.fits_toInt
    · rw [holding, compute_of_error hnegated]
      refine .lapse (s := negate operand pos) (hr.release hc hx) (.last hs ?_)
      rintro ⟨hsound, -⟩
      rw [exact, ← hv] at hsound
      exact hfits hsound

/-- An operation on two numbers that have been calculated. -/
theorem reckoned_operation (hc : m.heap.Counted) {op : ArithOp} {left right : Expr} {x y : Handle}
    {a b : Number} {m₁ m₂ : Machine} (hr : m.Reckons x m₁) (hx : m₁.heap.number? x = some a)
    (ha : a.toInt = left.exact known) (hr' : m₁.Reckons y m₂) (hy : m₂.heap.number? y = some b)
    (hb : b.toInt = right.exact known)
    (hs : ∀ s ∈ left.postorder ++ right.postorder, s.Sound known) (g : Guest) (pos : Position) :
    (arith op left right pos).Reckoned known m (arithmetic g op x y pos.line m₂) := by
  have hx' := hr'.heap.number? hx
  have hlook : op.onValues m₂.heap x y = (op.onNumbers a b).map .number :=
    ArithOp.onValues_number hx' hy
  rw [arithmetic_plain (fun _ => Heap.accepting?_number hx' addName 1)
    (fun _ => Heap.accepting?_number hy addName 1)]
  rcases op.onNumbers_cases a b with
    ⟨value, hnumber, hvalue, hzero⟩ | ⟨hdiv, hzero, hnumber⟩ | ⟨hzero, hfits, hnumber⟩
  · rw [hnumber] at hlook
    rw [holding, holding, compute_of_ok hlook]
    have hmade := hr'.alloc (.number value)
    have hkept := (Heap.Reckons.refl hr'.heap.counted).alloc (.number value)
    have hleft : m₁.Reckons .absent _ := hmade.release hr.heap.counted (hkept.number? hy)
    have hexact : value.toInt = (arith op left right pos).exact known := by
      rw [hvalue, ha, hb, exact]
    refine .made (hr.operands hc hx hmade (hkept.number? hy))
      (hr.heap.size.trans hr'.heap.size) ?_ hexact (sound_snoc hs (sound_arith.2 ⟨?_, ?_⟩))
    · rw [Heap.get?_release_number hleft.heap.counted.reclaims (hleft.heap.number? hx)
          (Heap.ne_own_size hx'),
        Heap.get?_release_number hmade.heap.counted.reclaims (hkept.number? hy)
          (Heap.ne_own_size hy), Heap.get?_alloc, if_pos rfl]
    · rw [← ha, ← hb, ← hvalue]
      exact value.fits_toInt
    · rwa [← hb]
  · rw [hnumber] at hlook
    rw [holding, holding, compute_of_error hlook]
    have hcause : (arith op left right pos).lapse known = .divisionByZero := by
      rw [lapse_arith, if_pos ⟨hdiv, hb ▸ hzero⟩]
    rw [← hcause]
    refine .lapse (s := arith op left right pos) (hr.operands hc hx hr' hy) (.last hs ?_)
    intro hsound
    exact (sound_arith.1 hsound).2 ⟨hdiv, hb ▸ hzero⟩
  · rw [hnumber] at hlook
    rw [holding, holding, compute_of_error hlook]
    have hcause : (arith op left right pos).lapse known = .overflow op := by
      rw [lapse_arith, if_neg (hb ▸ hzero)]
    rw [← hcause]
    refine .lapse (s := arith op left right pos) (hr.operands hc hx hr' hy) (.last hs ?_)
    intro hsound
    rw [ha, hb] at hfits
    exact hfits (sound_arith.1 hsound).1

/-- Calculations end as they should, whatever the guest. The induction is on the expression, and
the state behind the left operand is one in which the same paths lead to the same words. -/
theorem Integral.reckoned {e : Expr} (he : e.Integral known) (g : Guest) (m : Machine)
    (hc : m.heap.Counted) (hk : m.Knows known) : e.Reckoned known m (e.eval g m) := by
  induction he generalizing m with
  | number value pos => exact reckoned_number hc value pos g
  | path pos h => exact reckoned_path hc h hk pos g
  | negate pos _ ih => exact reckoned_negate hc (ih m hc hk) pos
  | @arith left right op pos _ _ ihl ihr =>
    have hleft := ihl m hc hk
    rw [eval]
    generalize hrun : left.eval g m = ending at hleft
    cases hleft with
    | lapse hr hs =>
      rw [bind_of_error hrun]
      exact .lapse hr ((hs.append _).append _)
    | @value x a m₁ hr hx ha hs =>
      have hright := ihr m₁ hr.heap.counted (hr.knows hk)
      rw [bind_of_ok hrun]
      generalize hrun' : right.eval g m₁ = ending at hright
      cases hright with
      | lapse hr' hs' =>
        rw [bind_of_error (keeping_of_error hrun')]
        exact .lapse ((hr.trans hr').release hc (hr'.heap.number? hx)) ((hs'.behind hs).append _)
      | @value y b m₂ hr' hy hb hs' =>
        rw [bind_of_ok (keeping_of_ok hrun')]
        refine reckoned_operation hc hr hx ha hr' hy hb ?_ g pos
        intro s hmem
        exact (List.mem_append.1 hmem).elim (hs s) (hs' s)

/-- Calculations are exact or halt. In every state, whatever the guest, an expression that
calculates with words gives a number exactly if all its parts have an exact value that a word holds
and none divides by zero, and then the number is its exact value. Otherwise it halts at the first
part for which that fails, in the order in which values are computed, with what is wrong there and
at the line of that part. Nothing is written, and neither the scope nor any object that was there
is changed. -/
theorem exact_or_first_lapse (g : Guest) {m : Machine} {held : Multiset Handle}
    (hm : m.Settled held) {e : Expr} (he : e.Integral m.word?) :
    let r := e.eval g m
    ((∃ x value, r.1 = .ok x ∧ r.2.heap.number? x = some value) ↔
      ∀ s ∈ e.postorder, s.Sound m.word?) ∧
    (∀ x value, r.1 = .ok x → r.2.heap.number? x = some value →
      value.toInt = e.exact m.word?) ∧
    ((¬ ∀ s ∈ e.postorder, s.Sound m.word?) → ∃ s, FirstLapse m.word? e.postorder s ∧
      r.1 = .error (.fault ⟨s.pos.line, s.lapse m.word?⟩)) ∧
    r.2.scope = m.scope ∧ r.2.sink = m.sink ∧ r.2.depth = m.depth ∧
    ∀ loc, loc < m.heap.size → r.2.heap.get? loc = m.heap.get? loc := by
  have hends := he.reckoned g m hm.counted fun _ _ _ h => h
  intro r
  have hrun : r = e.eval g m := rfl
  rw [← hrun] at hends
  clear_value r
  cases hends with
  | @value x value m' hr hx hv hs =>
    refine ⟨⟨fun _ => hs, fun _ => ⟨x, value, rfl, hx⟩⟩, ?_, fun hne => absurd hs hne, hr.scope,
      hr.sink, hr.depth, fun loc => hr.heap.get?⟩
    rintro y found ⟨⟩ hy
    rw [hx] at hy
    cases hy
    exact hv
  | @lapse s m' hr hs =>
    refine ⟨⟨?_, ?_⟩, ?_, fun _ => ⟨s, hs, rfl⟩, hr.scope, hr.sink, hr.depth,
      fun loc => hr.heap.get?⟩
    · rintro ⟨x, value, hok, -⟩
      cases hok
    · intro hall
      obtain ⟨before, after, hsplit, -, hfails⟩ := hs
      exact absurd (hall s (by simp [hsplit])) hfails
    · rintro x value hok
      cases hok

/-- Two quotients that no word holds, and their sum. -/
def quotients : Expr :=
  .arith .add
    (.arith .div (.path "x" [] ⟨1, 1⟩) (.negate (.number 1 ⟨1, 6⟩) ⟨1, 5⟩) ⟨2, 1⟩)
    (.arith .div (.number 1 ⟨3, 1⟩) (.number 0 ⟨3, 5⟩) ⟨3, 1⟩) ⟨4, 1⟩

end Expr

/-- A state in which a name is bound to the least word. -/
def Machine.leastBound : Machine :=
  ((Stmt.assign "x" (.number (.ofInt Number.least) .start) .start).exec (.within 9 0)
    (.start .endless)).2

/-- The least word divided by minus one is the first of them: the other one, which divides by zero,
is not reached. -/
theorem Expr.exact_or_first_lapse_quotients :
    let m := Machine.leastBound
    let r := quotients.eval (.within 9 0) m
    r.1 = .error (.fault ⟨2, .overflow .div⟩) ∧
      (∃ s, FirstLapse m.word? quotients.postorder s ∧ s.pos.line = 2 ∧
        s.lapse m.word? = .overflow .div) ∧
      r.2.heap.get? 0 = m.heap.get? 0 := by
  intro m r
  have hsettled : m.Settled ((Handle.own 0).held + 0) :=
    (Stmt.assign "x" (.number (.ofInt Number.least) .start) .start).script.accounts
      (Guest.within_accounted 9 0) 0 (.start .endless) Heap.settled_empty
  have hword : m.word? "x" [] = some (.ofInt Number.least) := by decide +kernel
  have hintegral : quotients.Integral m.word? :=
    .arith .add _ (.arith .div _ (.path _ hword) (.negate _ (.number 1 _)))
      (.arith .div _ (.number 1 _) (.number 0 _))
  have hrun : r.1 = .error (.fault ⟨2, .overflow .div⟩) := by decide +kernel
  obtain ⟨hvalue, -, hlapse, -, -, -, hkept⟩ :=
    exact_or_first_lapse (.within 9 0) hsettled hintegral
  have hnot : ¬ ∀ s ∈ quotients.postorder, s.Sound m.word? := by
    intro hall
    obtain ⟨x, value, hok, -⟩ := hvalue.2 hall
    rw [hrun] at hok
    cases hok
  obtain ⟨s, hs, hfault⟩ := hlapse hnot
  rw [hrun] at hfault
  injection hfault with hfault
  injection hfault with hfault
  injection hfault with hline hcause
  exact ⟨hrun, ⟨s, hs, hline.symm, hcause.symm⟩, hkept 0 (by decide +kernel)⟩

end Mython
