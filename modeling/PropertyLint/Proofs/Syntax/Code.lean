/-
# The code of a declaration

Code is what stands in a declaration and in no attribute in it (`Part.HasCode`).  There are no
attributes in a statement, so all that stands in one is code (`Part.Has.hasCode`).  The expressions of
a member are those in its code, but a constructor leaves out the default values of its parameters
(`Member.mem_exprs_iff`).
-/
import PropertyLint.Proofs.Syntax.Around

namespace PropertyLint

namespace Part

variable {cs : List Char} {p q r : Part} {e : Expr}

/-- The part is an attribute. -/
def isAttr : Part → Bool
  | attr _ => true
  | _ => false

/-- The second part is the first one or stands in it, and in no attribute in it. -/
inductive HasCode (p : Part) : Part → Prop where
  | refl : HasCode p p
  | part {q r : Part} : HasCode p q → r ∈ q.parts → r.isAttr = false → HasCode p r

theorem HasCode.has (h : p.HasCode q) : p.Has q := by
  induction h with
  | refl => exact .refl
  | part _ hr _ ih => exact ih.part hr

theorem hasCode_iff : p.HasCode q ↔ p = q ∨ ∃ r ∈ p.parts, r.isAttr = false ∧ r.HasCode q := by
  constructor
  · intro h
    induction h with
    | refl => exact .inl rfl
    | part _ hr hattr ih =>
      rcases ih with rfl | ⟨s, hs, hsattr, hcode⟩
      · exact .inr ⟨_, hr, hattr, .refl⟩
      · exact .inr ⟨s, hs, hsattr, hcode.part hr hattr⟩
  · rintro (rfl | ⟨r, hr, hattr, hcode⟩)
    · exact .refl
    · induction hcode with
      | refl => exact .part .refl hr hattr
      | part _ hs hsattr ih => exact ih.part hs hsattr

/-- The expressions of a part, arguments included. -/
def code : Part → List Expr
  | argument a => a.value.walk
  | args l => l.args.flatMap fun a => a.value.walk
  | p => p.exprs

@[simp] theorem code_attr (a : Attribute) : (attr a).code = [] := rfl

@[simp] theorem code_ident (i : Ident) : (ident i).code = [] := rfl

@[simp] theorem code_type (t : TypeRef) : (type t).code = [] := rfl

@[simp] theorem code_expr (x : Expr) : (expr x).code = x.walk := rfl

@[simp] theorem code_parameter (p : Parameter) : (parameter p).code = walkOption p.default := rfl

@[simp] theorem code_accessor (a : Accessor) : (accessor a).code = a.body.exprs := rfl

theorem mem_walk_iff (x : Expr) : e ∈ x.walk ↔ x = e ∨ ∃ c ∈ x.children, e ∈ c.walk := by
  simp only [Expr.walk_eq_preorder]
  rw [Expr.preorder_eq, List.mem_cons, List.mem_flatMap, eq_comm]

theorem mem_walkOption_iff {o : Option Expr} : e ∈ walkOption o ↔ ∃ x ∈ o, e ∈ x.walk := by
  cases o <;> simp [walkOption]

/-- The children of an expression are its parts that are expressions and the values of its
arguments. -/
theorem exists_child_iff (x : Expr) :
    (∃ c ∈ x.children, e ∈ c.walk) ↔ ∃ r ∈ (expr x).parts, e ∈ r.code := by
  cases x with
  | create n type args =>
    cases args <;> simp [Expr.children, parts, Expr.parts, code, exprs]
  | createArray n type size =>
    cases size <;> simp [Expr.children, parts, Expr.parts, code, exprs]
  | default n type =>
    cases type <;> simp [Expr.children, parts, Expr.parts, code, exprs]
  | isType n operand type designation =>
    cases designation <;> simp [Expr.children, parts, Expr.parts, code, exprs]
  | _ => simp [Expr.children, parts, Expr.parts, code, exprs]

/-- The expressions of a body stand in its braces or behind its arrow. -/
theorem mem_exprs_body_iff (b : Body) : e ∈ b.exprs ↔ ∃ r ∈ b.parts, e ∈ r.code := by
  obtain ⟨block, arrow⟩ := b
  cases block <;> simp [Body.exprs, Body.parts, code, exprs, mem_walkOption_iff]

/-- An expression in a part that is neither an attribute nor a member is the part itself or an
expression in a part of it. -/
theorem mem_code_iff (hattr : p.isAttr = false) (hmember : ∀ m, p ≠ .member m) :
    e ∈ p.code ↔ p = .expr e ∨ ∃ r ∈ p.parts, e ∈ r.code := by
  cases p with
  | expr x => rw [← exists_child_iff, expr.injEq, ← mem_walk_iff]; rfl
  | stmt s =>
    cases s with
    | branch n condition yes no =>
      cases no <;> simp [parts, Stmt.parts, code, exprs, Stmt.exprs]
    | _ => simp [parts, Stmt.parts, code, exprs, Stmt.exprs, Block.exprs, mem_walkOption_iff]
  | block b => simp [parts, code, exprs, Block.exprs, exprsOfStmts_eq]
  | accessor a =>
    rw [or_iff_right (by simp)]
    exact mem_exprs_body_iff a.body
  | parameter p =>
    simp [parts, Parameter.parts, code, exprs, mem_walkOption_iff, or_and_right, exists_or]
  | member m => exact absurd rfl (hmember m)
  | attr a => cases hattr
  | type t =>
    cases t <;> simp [parts, TypeRef.parts, NameSegment.parts]
    rintro _ s - (rfl | ⟨a, -, rfl⟩) <;> simp
  | _ => simp [parts, Argument.parts, code, exprs]

/-- Attributes have no expressions, so it makes no difference whether they are left out. -/
theorem exists_hasCode_iff
    (h : ∀ r ∈ p.parts, r.isAttr = false → (e ∈ r.code ↔ r.HasCode (.expr e))) :
    (∃ r ∈ p.parts, e ∈ r.code) ↔ ∃ r ∈ p.parts, r.isAttr = false ∧ r.HasCode (.expr e) := by
  refine exists_congr fun r => and_congr_right fun hr => ?_
  cases hattr : r.isAttr with
  | true =>
    cases r <;> simp [isAttr] at hattr
    simp
  | false => simpa using h r hr hattr

/-- The expressions in a part that is neither an attribute nor a member are those in its code. -/
theorem WellNested.mem_code_iff_hasCode (h : p.WellNested cs) (hattr : p.isAttr = false)
    (hmember : ∀ m, p ≠ .member m) : e ∈ p.code ↔ p.HasCode (.expr e) := by
  induction h with
  | @mk p hfits hparts ih =>
    rw [Part.mem_code_iff hattr hmember, hasCode_iff]
    refine or_congr Iff.rfl (exists_hasCode_iff fun r hr hrattr => ih r hr hrattr ?_)
    rintro m rfl
    obtain ⟨d, rfl, -⟩ := exists_type_of_member_mem hr
    exact hmember _ rfl

/-- The code of a member that is no type is that of its parts. -/
theorem WellNested.hasCode_member_iff {m : Member} (h : (member m).WellNested cs)
    (hm : m.isType = false) :
    (member m).HasCode (.expr e) ↔ ∃ r ∈ (member m).parts, e ∈ r.code := by
  rw [hasCode_iff, or_iff_right (by simp), exists_hasCode_iff]
  refine fun r hr hattr => (h.part hr).mem_code_iff_hasCode hattr ?_
  rintro m' rfl
  obtain ⟨d, hd, -⟩ := exists_type_of_member_mem hr
  rw [Part.member.inj hd] at hm
  simp [Member.isType] at hm

/-! ## What statements are made of -/

/-- The part is one of those that statements are made of. -/
def isCode : Part → Bool
  | attr _ | parameter _ | accessor _ | member _ => false
  | _ => true

theorem isCode_of_mem (hp : p.isCode = true) (hq : q ∈ p.parts) : q.isCode = true := by
  suffices hall : p.parts.all isCode = true from List.all_eq_true.1 hall q hq
  cases p with
  | ident i => rfl
  | type t => cases t <;> simp [parts, TypeRef.parts, NameSegment.parts, isCode]
  | argument a => simp [parts, Argument.parts, isCode]
  | args l => simp [parts, isCode]
  | expr e => cases e <;> simp [parts, Expr.parts, isCode]
  | stmt s => cases s <;> simp [parts, Stmt.parts, isCode]
  | block b => simp [parts, isCode]
  | _ => cases hp

/-- There are no attributes in statements, so all that stands in one is code. -/
theorem Has.hasCode (h : p.Has q) (hp : p.isCode = true) : p.HasCode q ∧ q.isCode = true := by
  induction h with
  | refl => exact ⟨.refl, hp⟩
  | @part q r _ hr ih =>
    have hcode := isCode_of_mem ih.2 hr
    refine ⟨ih.1.part hr ?_, hcode⟩
    cases r with
    | attr a => cases hcode
    | _ => rfl

/-- What is code in a part of a statement is code in the statement. -/
theorem Has.code_subset (h : p.Has q) (hp : p.isCode = true) : q.code ⊆ p.code := by
  induction h with
  | refl => exact List.Subset.refl _
  | @part q r hq hr ih =>
    intro x hx
    have hcode := (hq.hasCode hp).2
    refine ih ((mem_code_iff ?_ ?_).2 (.inr ⟨r, hr, hx⟩))
    · cases q <;> first | rfl | cases hcode
    · rintro m rfl
      cases hcode

end Part

namespace Member

variable {cs : List Char} {m : Member} {e : Expr}

/-- The expression stands in a parameter of a constructor, that is in its default value. -/
def HasDefault (m : Member) (e : Expr) : Prop :=
  ∃ d, m = .constructor d ∧ ∃ p ∈ d.params, (Part.parameter p).HasCode (.expr e)

/-- The expressions of a constructor are those in the parts of its body. -/
theorem mem_exprs_constructor_iff {d : ConstructorDecl}
    (h : (Part.member (.constructor d)).WellNested cs) :
    e ∈ (constructor d).exprs ↔
      (∃ r ∈ (Part.member (.constructor d)).parts, e ∈ r.code) ∧
        ¬ (constructor d).HasDefault e := by
  have hparts : (Part.member (.constructor d)).parts = d.attributes.map .attr ++
    [.ident d.name] ++ d.params.map .parameter ++ d.body.parts := rfl
  have hparam {p : Parameter} (hp : p ∈ d.params) :
      .parameter p ∈ (Part.member (.constructor d)).parts := by
    simp [hparts, hp]
  have hbody {r : Part} (hr : r ∈ d.body.parts) : r ∈ (Part.member (.constructor d)).parts :=
    List.mem_append_right _ hr
  rw [exprs, Part.mem_exprs_body_iff]
  constructor
  · rintro ⟨r, hr, he⟩
    refine ⟨⟨r, hbody hr, he⟩, ?_⟩
    -- an expression in the body is in no parameter
    rintro ⟨d', hd', p, hp, hcode⟩
    obtain rfl := Member.constructor.inj hd'
    have hr' : r.isAttr = false ∧ ∀ m, r ≠ .member m := by
      simp only [Body.parts, List.mem_append, List.mem_map] at hr
      rcases hr with ⟨b, -, rfl⟩ | ⟨x, -, rfl⟩ <;> simp [Part.isAttr]
    have hhas := (((h.part (hbody hr)).mem_code_iff_hasCode hr'.1 hr'.2).1 he).has
    obtain rfl := h.eq_of_has (hbody hr) (hparam hp) hhas hcode.has
    simp [Body.parts] at hr
  · rintro ⟨⟨r, hr, he⟩, hdefault⟩
    simp only [hparts, List.mem_append, List.mem_map, List.mem_singleton] at hr
    rcases hr with ((⟨a, -, rfl⟩ | rfl) | ⟨p, hp, rfl⟩) | hr
    · simp at he
    · simp at he
    · refine absurd ⟨d, rfl, p, hp, ?_⟩ hdefault
      exact ((h.part (hparam hp)).mem_code_iff_hasCode rfl (by simp)).1 he
    · exact ⟨r, hr, he⟩

/-- The expressions of a member are those in its code, without the default values of the parameters
of a constructor. -/
theorem mem_exprs_iff (h : (Part.member m).WellNested cs) (hm : m.isType = false) :
    e ∈ m.exprs ↔ (Part.member m).HasCode (.expr e) ∧ ¬ m.HasDefault e := by
  rw [h.hasCode_member_iff hm]
  cases m with
  | type d => simp [isType] at hm
  | constructor d => exact mem_exprs_constructor_iff h
  | field d =>
    simp [HasDefault, Part.parts, parts, exprs, Part.mem_walkOption_iff, or_and_right, exists_or]
  | property d =>
    simp [HasDefault, Part.parts, parts, exprs, Part.mem_walkOption_iff, or_and_right, exists_or]
  | method d =>
    simp [HasDefault, Part.parts, parts, exprs, Part.mem_walkOption_iff, Part.mem_exprs_body_iff,
      or_and_right, exists_or]

end Member

end PropertyLint
