import Mython.Proofs.Program.Parts

namespace Mython

/-- Every item of a list stands as it should behind the items in front of it. -/
def Throughout {α : Type} (R : List α → α → Prop) (items : List α) : Prop :=
  ∀ front a rest, items = front ++ a :: rest → R front a

namespace Throughout

variable {α : Type} {R S : List α → α → Prop} {as bs : List α}

theorem nil : Throughout R [] := by
  intro front a rest h
  simp at h

theorem singleton {a : α} (h : R [] a) : Throughout R [a] := by
  intro front b rest heq
  cases front with
  | nil =>
    cases heq
    exact h
  | cons c front => simp at heq

theorem mono (h : Throughout R as) (himp : ∀ front, ∀ a ∈ as, R front a → S front a) :
    Throughout S as := by
  intro front a rest heq
  exact himp front a (by simp [heq]) (h front a rest heq)

theorem append (h : Throughout R as) (h' : Throughout (fun front => R (as ++ front)) bs) :
    Throughout R (as ++ bs) := by
  intro front a rest heq
  rcases List.append_eq_append_iff.1 heq with ⟨front', rfl, hbs⟩ | ⟨rest', has, hrest⟩
  · exact h' front' a rest hbs
  · cases rest' with
    | nil =>
      rw [List.append_nil] at has
      have hfirst : R (as ++ []) a := h' [] a rest hrest.symm
      rwa [List.append_nil, has] at hfirst
    | cons b rest' =>
      obtain ⟨rfl, -⟩ := List.cons.inj hrest
      exact h front a rest' has

/-- Items that stand as they should by themselves do so behind others, if more in front of an item
does no harm. -/
theorem behind (h : Throughout R bs)
    (hmore : ∀ front a, R front a → R (as ++ front) a) :
    Throughout (fun front => R (as ++ front)) bs :=
  h.mono fun front a _ => hmore front a

end Throughout

/-- Something that a text says about classes. -/
inductive Mention where
  /-- A call of a bare name, as what it means. -/
  | makes (e : Expr)
  /-- The class that a class extends. -/
  | inherits (cls : Class)
  /-- The end of a class. -/
  | completes (cls : Class)

namespace Mention

/-- The class that is referred to by its name. -/
def reference? : Mention → Option Class
  | makes (.construct cls _ _) => some cls
  | inherits cls => some cls
  | _ => none

/-- The class that is completed. -/
def completed? : Mention → Option Class
  | completes cls => some cls
  | _ => none

/-- The classes that are completed, the newest first. -/
def completed (ms : List Mention) : List Class := (ms.filterMap completed?).reverse

/-- The newest completed class of a name. -/
def newest (ms : List Mention) (name : String) : Option Class :=
  (completed ms).find? fun cls => cls.name == name

/-- Every reference is to the newest class of its name that is completed in front of it. -/
def Resolved : List Mention → Prop :=
  Throughout fun front m => ∀ cls, m.reference? = some cls → newest front cls.name = some cls

theorem completed_append (ms ns : List Mention) :
    completed (ms ++ ns) = completed ns ++ completed ms := by
  rw [completed, List.filterMap_append, List.reverse_append, completed, completed]

theorem mem_of_newest {ms : List Mention} {name : String} {cls : Class}
    (h : newest ms name = some cls) : .completes cls ∈ ms := by
  have hmem := List.mem_of_find?_eq_some h
  rw [completed, List.mem_reverse, List.mem_filterMap] at hmem
  obtain ⟨m, hm, hcompleted⟩ := hmem
  cases m with
  | completes k =>
    cases hcompleted
    exact hm
  | makes | inherits => cases hcompleted

/-- What is referred to is completed somewhere. -/
theorem Resolved.mem {ms : List Mention} (h : Resolved ms) {m : Mention} {cls : Class} (hm : m ∈ ms)
    (href : m.reference? = some cls) : .completes cls ∈ ms := by
  obtain ⟨front, rest, rfl⟩ := List.append_of_mem hm
  exact List.mem_append_left _ (mem_of_newest (h front m rest rfl cls href))

end Mention

mutual

/-- What an expression mentions. -/
def Expr.mentions : Expr → List Mention
  | .number _ _ | .text _ _ | .truth _ _ | .none _ | .path _ _ _ => []
  | .field object _ _ => object.mentions
  | .call object _ args _ => object.mentions ++ Expr.mentionsAll args
  | .construct cls args pos => Expr.mentionsAll args ++ [.makes (.construct cls args pos)]
  | .stringify arg pos => arg.mentions ++ [.makes (.stringify arg pos)]
  | .arith _ left right _ | .conj left right _ | .disj left right _ | .compare _ left right _ =>
    left.mentions ++ right.mentions
  | .negate operand _ | .not operand _ => operand.mentions

/-- What expressions in a row mention. -/
def Expr.mentionsAll : List Expr → List Mention
  | [] => []
  | e :: es => e.mentions ++ Expr.mentionsAll es

end

mutual

/-- What a statement mentions. -/
def Stmt.mentions : Stmt → List Mention
  | .assign _ value _ => value.mentions
  | .assignField object _ value _ => object.mentions ++ value.mentions
  | .print args _ => Expr.mentionsAll args
  | .ret (some value) _ => value.mentions
  | .ret none _ => []
  | .ifThen condition body _ => condition.mentions ++ Stmt.mentionsAll body
  | .ifElse condition body other _ =>
    condition.mentions ++ (Stmt.mentionsAll body ++ Stmt.mentionsAll other)
  | .define ⟨name, methods, parent⟩ _ =>
    (parent.toList.map .inherits ++ Method.mentionsAll methods) ++
      [.completes ⟨name, methods, parent⟩]
  | .eval e => e.mentions

/-- What statements in a row mention. -/
def Stmt.mentionsAll : List Stmt → List Mention
  | [] => []
  | s :: ss => s.mentions ++ Stmt.mentionsAll ss

/-- What methods in a row mention. -/
def Method.mentionsAll : List Method → List Mention
  | [] => []
  | ⟨_, _, body⟩ :: ms => Stmt.mentionsAll body ++ Method.mentionsAll ms

end

/-- What the text of a class mentions, up to its end. -/
def Class.mentions (cls : Class) : List Mention :=
  cls.parent.toList.map .inherits ++ Method.mentionsAll cls.methods

/-- What a program mentions. -/
def Program.mentions (p : Program) : List Mention := Stmt.mentionsAll p.body

theorem Stmt.mentions_define (cls : Class) (pos : Position) :
    (Stmt.define cls pos).mentions = cls.mentions ++ [.completes cls] := by
  obtain ⟨name, methods, parent⟩ := cls
  rw [mentions, Class.mentions]

theorem Expr.mentionsAll_eq_flatMap (es : List Expr) : mentionsAll es = es.flatMap mentions := by
  induction es with
  | nil => rfl
  | cons e es ih => rw [mentionsAll, ih, List.flatMap_cons]

theorem Stmt.mentionsAll_eq_flatMap (ss : List Stmt) : mentionsAll ss = ss.flatMap mentions := by
  induction ss with
  | nil => rfl
  | cons s ss ih => rw [mentionsAll, ih, List.flatMap_cons]

theorem Method.mentionsAll_eq_flatMap (ms : List Method) :
    mentionsAll ms = ms.flatMap fun m => Stmt.mentionsAll m.body := by
  induction ms with
  | nil => rfl
  | cons m ms ih =>
    obtain ⟨name, params, body⟩ := m
    rw [mentionsAll, ih, List.flatMap_cons]

mutual

/-- No class ends inside an expression. -/
theorem Expr.completed?_of_mem {m : Mention} :
    ∀ e : Expr, m ∈ e.mentions → m.completed? = .none
  | .number _ _ | .text _ _ | .truth _ _ | .none _ | .path _ _ _ => by simp [Expr.mentions]
  | .field object _ _ => Expr.completed?_of_mem object
  | .call object _ args _ => by
    intro h
    rcases List.mem_append.1 h with h | h
    · exact Expr.completed?_of_mem object h
    · exact Expr.completed?_of_memAll args h
  | .construct _ args _ => by
    intro h
    rcases List.mem_append.1 h with h | h
    · exact Expr.completed?_of_memAll args h
    · rw [List.mem_singleton.1 h, Mention.completed?]
      rintro _ ⟨⟩
  | .stringify arg _ => by
    intro h
    rcases List.mem_append.1 h with h | h
    · exact Expr.completed?_of_mem arg h
    · rw [List.mem_singleton.1 h, Mention.completed?]
      rintro _ ⟨⟩
  | .arith _ left right _ | .conj left right _ | .disj left right _ | .compare _ left right _ => by
    intro h
    rcases List.mem_append.1 h with h | h
    · exact Expr.completed?_of_mem left h
    · exact Expr.completed?_of_mem right h
  | .negate operand _ | .not operand _ => Expr.completed?_of_mem operand

theorem Expr.completed?_of_memAll {m : Mention} :
    ∀ es : List Expr, m ∈ Expr.mentionsAll es → m.completed? = .none
  | [] => by simp [Expr.mentionsAll]
  | e :: es => by
    intro h
    rcases List.mem_append.1 h with h | h
    · exact Expr.completed?_of_mem e h
    · exact Expr.completed?_of_memAll es h

end

/-- Every class is completed right behind what its text mentions. -/
def Mention.Enclosed : List Mention → Prop :=
  Throughout fun front m =>
    ∀ cls, m.completed? = some cls → ∃ outer, front = outer ++ cls.mentions

namespace Mention.Enclosed

variable {ms ns : List Mention}

theorem append (h : Enclosed ms) (h' : Enclosed ns) : Enclosed (ms ++ ns) := by
  refine Throughout.append h (h'.behind ?_)
  intro front m hfront cls hm
  obtain ⟨outer, rfl⟩ := hfront cls hm
  exact ⟨ms ++ outer, (List.append_assoc ..).symm⟩

theorem of_none (h : ∀ m ∈ ms, m.completed? = none) : Enclosed ms := by
  rintro front m rest rfl cls hm
  rw [h m (by simp)] at hm
  cases hm

/-- A class is completed behind its own text. -/
theorem define {cls : Class} (h : Enclosed cls.mentions) :
    Enclosed (cls.mentions ++ [.completes cls]) := by
  refine Throughout.append h (Throughout.singleton ?_)
  rintro _ ⟨⟩
  exact ⟨[], List.append_nil _⟩

theorem of_expr (e : Expr) : Enclosed e.mentions := of_none fun _ => Expr.completed?_of_mem e

theorem of_exprs (es : List Expr) : Enclosed (Expr.mentionsAll es) :=
  of_none fun _ => Expr.completed?_of_memAll es

theorem of_parent (parent : Option Class) : Enclosed (parent.toList.map .inherits) := by
  refine of_none fun m hm => ?_
  obtain ⟨cls, -, rfl⟩ := List.mem_map.1 hm
  rfl

end Mention.Enclosed

open Mention (Enclosed)

mutual

theorem Stmt.enclosed_mentions : ∀ s : Stmt, Enclosed s.mentions
  | .assign _ value _ | .ret (some value) _ | .eval value => Enclosed.of_expr value
  | .assignField object _ value _ => (Enclosed.of_expr object).append (Enclosed.of_expr value)
  | .print args _ => Enclosed.of_exprs args
  | .ret none _ => Throughout.nil
  | .ifThen condition body _ =>
    (Enclosed.of_expr condition).append (Stmt.enclosed_mentionsAll body)
  | .ifElse condition body other _ =>
    (Enclosed.of_expr condition).append
      ((Stmt.enclosed_mentionsAll body).append (Stmt.enclosed_mentionsAll other))
  | .define ⟨name, methods, parent⟩ pos => by
    have htext : Enclosed (Class.mentions ⟨name, methods, parent⟩) :=
      (Enclosed.of_parent parent).append (Method.enclosed_mentionsAll methods)
    exact htext.define

theorem Stmt.enclosed_mentionsAll : ∀ ss : List Stmt, Enclosed (Stmt.mentionsAll ss)
  | [] => Throughout.nil
  | s :: ss => (Stmt.enclosed_mentions s).append (Stmt.enclosed_mentionsAll ss)

theorem Method.enclosed_mentionsAll : ∀ ms : List Method, Enclosed (Method.mentionsAll ms)
  | [] => Throughout.nil
  | ⟨_, _, body⟩ :: ms => (Stmt.enclosed_mentionsAll body).append (Method.enclosed_mentionsAll ms)

end

namespace Mention

variable {ms : List Mention} {cls : Class}

/-- What the text of a completed class mentions is mentioned. -/
theorem Enclosed.subset (h : Enclosed ms) (hcls : .completes cls ∈ ms) : cls.mentions ⊆ ms := by
  obtain ⟨front, rest, rfl⟩ := List.append_of_mem hcls
  obtain ⟨outer, rfl⟩ := h front _ rest rfl cls rfl
  intro m hm
  simp [hm]

/-- Where every reference is to a class completed in front of it, no class refers to itself. -/
theorem Enclosed.reference_ne (h : Enclosed ms) (hr : Resolved ms) (hcls : .completes cls ∈ ms)
    {m : Mention} (hm : m ∈ cls.mentions) : m.reference? ≠ some cls := by
  intro href
  obtain ⟨front, rest, hms, hfirst⟩ := List.eq_append_cons_of_mem hcls
  obtain ⟨outer, hfront⟩ := h front _ rest hms cls rfl
  obtain ⟨before, after, htext⟩ := List.append_of_mem hm
  have hnewest := hr (outer ++ before) m (after ++ .completes cls :: rest)
    (by rw [hms, hfront, htext]; simp) cls href
  have hmem := mem_of_newest hnewest
  refine hfirst ?_
  rw [hfront, htext, ← List.append_assoc]
  exact List.mem_append_left _ hmem

end Mention

namespace Code

/-- What a piece of a program refers to and completes is mentioned, and a class is completed. -/
def Covered (ms : List Mention) : Code → Prop
  | expr e => e.mentions ⊆ ms
  | stmt s => s.mentions ⊆ ms
  | method m => Stmt.mentionsAll m.body ⊆ ms
  | cls c => .completes c ∈ ms

variable {ms : List Mention}

theorem covered_exprs {es : List Expr} (h : Expr.mentionsAll es ⊆ ms) :
    ∀ b ∈ es.map expr, b.Covered ms := by
  intro b hb
  obtain ⟨e, he, rfl⟩ := List.mem_map.1 hb
  rw [Expr.mentionsAll_eq_flatMap] at h
  exact fun m hm => h (List.mem_flatMap.2 ⟨e, he, hm⟩)

theorem covered_stmts {ss : List Stmt} (h : Stmt.mentionsAll ss ⊆ ms) :
    ∀ b ∈ ss.map stmt, b.Covered ms := by
  intro b hb
  obtain ⟨s, hs, rfl⟩ := List.mem_map.1 hb
  rw [Stmt.mentionsAll_eq_flatMap] at h
  exact fun m hm => h (List.mem_flatMap.2 ⟨s, hs, hm⟩)

/-- The parts of an expression are covered with it; the class of a new instance is completed where
its name refers to. -/
theorem covered_of_expr (hr : Mention.Resolved ms) {e : Expr} (h : e.mentions ⊆ ms) :
    ∀ b ∈ (expr e).parts, b.Covered ms := by
  cases e with
  | number | text | truth | none | path => simp [parts]
  | field | negate | not => simpa [parts, Covered, Expr.mentions] using h
  | call object method args pos =>
    rw [Expr.mentions, List.append_subset] at h
    simp only [parts, List.forall_mem_cons]
    exact ⟨h.1, covered_exprs h.2⟩
  | construct c args pos =>
    rw [Expr.mentions, List.append_subset] at h
    simp only [parts, List.forall_mem_cons]
    exact ⟨hr.mem (h.2 (List.mem_singleton_self _)) rfl, covered_exprs h.1⟩
  | stringify arg pos =>
    rw [Expr.mentions, List.append_subset] at h
    simpa [parts, Covered] using h.1
  | arith | conj | disj | compare =>
    rw [Expr.mentions, List.append_subset] at h
    simpa [parts, Covered] using h

theorem covered_of_stmt {s : Stmt} (h : s.mentions ⊆ ms) : ∀ b ∈ (stmt s).parts, b.Covered ms := by
  cases s with
  | assign | eval => simpa [parts, Covered, Stmt.mentions] using h
  | assignField =>
    rw [Stmt.mentions, List.append_subset] at h
    simpa [parts, Covered] using h
  | print args pos => exact covered_exprs h
  | ret value pos =>
    cases value with
    | none => simp [parts]
    | some value => simpa [parts, Covered, Stmt.mentions] using h
  | ifThen condition body pos =>
    rw [Stmt.mentions, List.append_subset] at h
    simp only [parts, List.forall_mem_cons]
    exact ⟨h.1, covered_stmts h.2⟩
  | ifElse condition body other pos =>
    rw [Stmt.mentions, List.append_subset, List.append_subset] at h
    simp only [parts, List.forall_mem_cons, List.map_append, List.forall_mem_append]
    exact ⟨h.1, covered_stmts h.2.1, covered_stmts h.2.2⟩
  | define c pos =>
    rw [Stmt.mentions_define, List.append_subset] at h
    simpa [parts, Covered] using h.2

theorem covered_of_cls (hr : Mention.Resolved ms) (he : Enclosed ms) {c : Class}
    (h : .completes c ∈ ms) : ∀ b ∈ (cls c).parts, b.Covered ms := by
  have htext : c.mentions ⊆ ms := he.subset h
  rw [Class.mentions, List.append_subset, Method.mentionsAll_eq_flatMap] at htext
  simp only [parts, List.forall_mem_append, List.forall_mem_map]
  constructor
  · exact fun m hm k hk => htext.2 (List.mem_flatMap.2 ⟨m, hm, hk⟩)
  · exact fun k hk => hr.mem (htext.1 (List.mem_map.2 ⟨k, hk, rfl⟩)) rfl

/-- All that a covered piece contains is covered. -/
theorem Covered.contained (hr : Mention.Resolved ms) (he : Enclosed ms) {a b : Code}
    (h : a.Covered ms) (hab : a.Contains b) : b.Covered ms := by
  -- Down from part to part. A class may be used far from its text, but is completed somewhere.
  induction hab with
  | refl => exact h
  | @tail b c _ hpart ih =>
    cases b with
    | expr e => exact covered_of_expr hr ih c hpart
    | stmt s => exact covered_of_stmt ih c hpart
    | method m => exact covered_stmts ih c hpart
    | cls k => exact covered_of_cls hr he ih c hpart

end Code

namespace Program

variable {p : Program}

theorem enclosed_mentions (p : Program) : Enclosed p.mentions := Stmt.enclosed_mentionsAll p.body

theorem covered_of_contains (hr : Mention.Resolved p.mentions) {code : Code}
    (h : p.Contains code) : code.Covered p.mentions := by
  obtain ⟨s, hs, hcode⟩ := h
  have hstart : (Code.stmt s).Covered p.mentions :=
    Code.covered_stmts (List.Subset.refl p.mentions) _ (List.mem_map.2 ⟨s, hs, rfl⟩)
  exact hstart.contained hr p.enclosed_mentions hcode

/-- Every new instance in a program is mentioned, wherever it is contained. -/
theorem makes_of_contains (hr : Mention.Resolved p.mentions) {cls : Class} {args : List Expr}
    {pos : Position} (h : p.Contains (.expr (.construct cls args pos))) :
    .makes (.construct cls args pos) ∈ p.mentions := by
  have hcovered : (Expr.construct cls args pos).mentions ⊆ p.mentions := covered_of_contains hr h
  rw [Expr.mentions, List.append_subset] at hcovered
  exact hcovered.2 (List.mem_singleton_self _)

/-- Every class in a program is mentioned as completed, wherever it is contained. -/
theorem completes_of_contains (hr : Mention.Resolved p.mentions) {cls : Class}
    (h : p.Contains (.cls cls)) : .completes cls ∈ p.mentions := covered_of_contains hr h

/-- Every class that another one in a program extends is mentioned. -/
theorem inherits_of_contains (hr : Mention.Resolved p.mentions) {cls parent : Class}
    (h : p.Contains (.cls cls)) (hparent : cls.parent = some parent) :
    .inherits parent ∈ p.mentions := by
  refine p.enclosed_mentions.subset (completes_of_contains hr h) (List.mem_append_left _ ?_)
  rw [hparent]
  exact List.mem_singleton_self _

end Program

end Mython
