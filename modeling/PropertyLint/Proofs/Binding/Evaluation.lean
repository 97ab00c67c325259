/-
# The values of expressions

What an expression of a project is worth, apart from how binding finds it out: literals have their
own values, and a name has the value that the constant field it is bound to starts with
(`Project.Evaluates`).  An expression has at most one value (`Evaluates.unique`).
-/
import PropertyLint.Proofs.Binding.Declarations
import PropertyLint.Proofs.Binding.Files

namespace PropertyLint

/-- The expression is a name or a name behind a dot. -/
def Expr.isReference : Expr → Bool
  | identifier _ _ | member _ _ _ => true
  | _ => false

/-- The literal that an expression is. -/
def Expr.literal? : Expr → Option (Node × Literal)
  | literal node value => some (node, value)
  | _ => none

theorem Expr.literal?_eq_some_iff {e : Expr} {node : Node} {l : Literal} :
    e.literal? = some (node, l) ↔ e = .literal node l := by
  cases e <;> simp [literal?]

/-- What an expression is worth that is put together from literals, parentheses and minus signs. -/
def Expr.plainValue? : Expr → Option Constant
  | literal _ value => value.constant?
  | paren _ inner => inner.plainValue?
  | unary _ .neg operand =>
    match operand.plainValue? with
    | some (.integer value) => some (.integer (-value))
    | _ => none
  | _ => none

/-- The least integer. -/
def minInteger : Int := -0x8000000000000000

namespace Project

/-- The constant field has the initial value.  It is written in the file and at the declaration that
the symbol of the field tells; a field of the framework has no place and is known by its name. -/
inductive HasInitialValue (p : Project) (id : SymbolId) : Option FileId → Expr → Prop where
  | source {symbol : FieldSymbol} {place : SourceRef} {tree : SyntaxTree} {decl : FieldDecl}
      {init : Expr} : p.comp.symbol? id = some (.field symbol) → symbol.isConst = true →
      symbol.declaration = some place → p.trees[place.file]? = some tree →
      tree.findDeclaration? place.node = some (.field decl) → decl.init = some init →
      HasInitialValue p id (some place.file) init
  | framework {symbol : FieldSymbol} {type : TypeDecl} {decl : FieldDecl} {init : Expr} :
      p.comp.symbol? id = some (.field symbol) → symbol.isConst = true →
      symbol.declaration = none → type ∈ Framework.declarations.allTypes →
      .field decl ∈ type.members → decl.modifiers.has .const = true →
      decl.name.text = symbol.name → decl.init = some init → HasInitialValue p id none init

/-- The expression, which stands in the file or in the framework, has the value. -/
inductive Evaluates (p : Project) : Option FileId → Expr → Constant → Prop where
  | string {file : Option FileId} {node : Node} {value : String} :
      Evaluates p file (.literal node (.string value)) (.string value)
  | integer {file : Option FileId} {node : Node} {value : Nat} :
      Evaluates p file (.literal node (.integer value)) (.integer value)
  | real {file : Option FileId} {node : Node} {text : String} :
      Evaluates p file (.literal node (.real text)) (.real text)
  | bool {file : Option FileId} {node : Node} {value : Bool} :
      Evaluates p file (.literal node (.bool value)) (.bool value)
  | null {file : Option FileId} {node : Node} : Evaluates p file (.literal node .null) .null
  | paren {file : Option FileId} {node : Node} {inner : Expr} {v : Constant} :
      Evaluates p file inner v → Evaluates p file (.paren node inner) v
  /-- `nameof` is worth the last name in its first argument. -/
  | nameof {file : Option FileId} {node : Node} {callee : Expr} {range : OffsetRange}
      {arg : Argument Expr} {rest : List (Argument Expr)} {text : String} :
      (Expr.invoke node callee ⟨range, arg :: rest⟩).isNameof = true →
      arg.value.nameText? = some text →
      Evaluates p file (.invoke node callee ⟨range, arg :: rest⟩) (.string text)
  | sum {file : Option FileId} {node : Node} {left right : Expr} {a b : String} :
      Evaluates p file left (.string a) → Evaluates p file right (.string b) →
      Evaluates p file (.binary node .add left right) (.string (a ++ b))
  | neg {file : Option FileId} {node : Node} {operand : Expr} {value : Int} :
      Evaluates p file operand (.integer value) →
      Evaluates p file (.unary node .neg operand) (.integer (-value))
  /-- A name is worth the initial value of the constant field that it is bound to. -/
  | name {file file' : Option FileId} {e init : Expr} {id : SymbolId} {v : Constant} :
      e.isReference = true → p.facts.symbol? ⟨file, e.id⟩ = some id →
      p.HasInitialValue id file' init → Evaluates p file' init v → Evaluates p file e v

variable {p : Project} {file : Option FileId} {e : Expr} {id : SymbolId} {v v' : Constant}

theorem Evaluates.literal {node : Node} {l : Literal} (hv : l.constant? = some v) :
    p.Evaluates file (.literal node l) v := by
  cases l <;> cases hv <;> constructor

theorem Evaluates.plain (hv : e.plainValue? = some v) : p.Evaluates file e v := by
  fun_induction Expr.plainValue? e generalizing v with
  | case1 node l => exact .literal hv
  | case2 node inner ih => exact .paren (ih hv)
  | case3 node operand value hvalue ih =>
    obtain rfl := Option.some.inj hv
    exact .neg (ih hvalue)
  | case4 => cases hv
  | case5 => cases hv

/-! ## There is one value -/

/-- The framework has one constant field. -/
theorem eq_of_framework_constant {type : TypeDecl} {decl : FieldDecl} {init : Expr}
    (htype : type ∈ Framework.declarations.allTypes) (hdecl : .field decl ∈ type.members)
    (hconst : decl.modifiers.has .const = true) (hinit : decl.init = some init) :
    init = .literal Framework.nowhere (.integer 2147483647) := by
  have hall : ∀ d ∈ Framework.declarations.allTypes.flatMap TypeDecl.constFields,
      d.init.bind Expr.literal? = some (Framework.nowhere, .integer 2147483647) := by
    decide +kernel
  have hfield : decl ∈ type.constFields :=
    TypeDecl.mem_constFields_iff.2 ⟨hdecl, hconst, by rw [hinit, Option.isSome_some]⟩
  have h := hall decl (List.mem_flatMap.2 ⟨type, htype, hfield⟩)
  rw [hinit, Option.bind_some] at h
  exact Expr.literal?_eq_some_iff.1 h

theorem HasInitialValue.unique {file' : Option FileId} {init init' : Expr}
    (h : p.HasInitialValue id file init) (h' : p.HasInitialValue id file' init') :
    file = file' ∧ init = init' := by
  cases h with
  | source hid hconst hplace htree hdecl hinit =>
    cases h' with
    | source hid' _ hplace' htree' hdecl' hinit' =>
      obtain rfl := Symbol.field.inj (Option.some.inj (hid.symm.trans hid'))
      obtain rfl := Option.some.inj (hplace.symm.trans hplace')
      obtain rfl := Option.some.inj (htree.symm.trans htree')
      obtain rfl := Member.field.inj (Option.some.inj (hdecl.symm.trans hdecl'))
      exact ⟨rfl, Option.some.inj (hinit.symm.trans hinit')⟩
    | framework hid' _ hplace' =>
      obtain rfl := Symbol.field.inj (Option.some.inj (hid.symm.trans hid'))
      cases hplace.symm.trans hplace'
  | framework hid _ hplace htype hdecl hconst _ hinit =>
    cases h' with
    | source hid' _ hplace' =>
      obtain rfl := Symbol.field.inj (Option.some.inj (hid.symm.trans hid'))
      cases hplace.symm.trans hplace'
    | framework _ _ _ htype' hdecl' hconst' _ hinit' =>
      exact ⟨rfl, (eq_of_framework_constant htype hdecl hconst hinit).trans
        (eq_of_framework_constant htype' hdecl' hconst' hinit').symm⟩

/-- An expression has at most one value. -/
theorem Evaluates.unique (h : p.Evaluates file e v) (h' : p.Evaluates file e v') : v = v' := by
  induction h generalizing v' with
  | string | integer | real | bool | null =>
    cases h' with
    | name hname => cases hname
    | _ => rfl
  | paren _ ih =>
    cases h' with
    | paren h' => exact ih h'
    | name hname => cases hname
  | nameof _ htext =>
    cases h' with
    | nameof _ htext' => rw [Option.some.inj (htext.symm.trans htext')]
    | name hname => cases hname
  | sum _ _ ih ih' =>
    cases h' with
    | sum h h' => rw [Constant.string.inj (ih h), Constant.string.inj (ih' h')]
    | name hname => cases hname
  | neg _ ih =>
    cases h' with
    | neg h' => rw [Constant.integer.inj (ih h')]
    | name hname => cases hname
  | name hname hsymbol hinit _ ih =>
    cases h' with
    | name _ hsymbol' hinit' h' =>
      obtain rfl := Option.some.inj (hsymbol.symm.trans hsymbol')
      obtain ⟨rfl, rfl⟩ := hinit.unique hinit'
      exact ih h'
    | _ => cases hname

/-! ## Integers are small -/

/-- Initial values are written in a file or by the framework. -/
theorem HasInitialValue.written {init : Expr} (h : p.HasInitialValue id file init) (hp : p.IsRead) :
    p.Writes file init ∨
      file = none ∧ init = .literal Framework.nowhere (.integer 2147483647) := by
  cases h with
  | @source _ _ tree decl _ _ _ _ htree hdecl hinit =>
    have hmem := List.mem_of_getElem? htree
    obtain ⟨text, htext⟩ := hp.parse tree hmem
    rw [SyntaxTree.findDeclaration?_eq] at hdecl
    have hfield := (SyntaxTree.mem_declarations_iff htext).1 (List.mem_of_find?_eq_some hdecl)
    have hpart : Part.expr init ∈ (Part.member (.field decl)).parts := by
      simp [Part.parts, Member.parts, hinit]
    refine .inl ⟨tree, hmem, by rw [hp.file htree], ?_⟩
    exact (SyntaxTree.mem_nodes_iff htext).2 ⟨_, hfield.part hpart, rfl⟩
  | framework _ _ _ htype hdecl hconst _ hinit =>
    exact .inr ⟨rfl, eq_of_framework_constant htype hdecl hconst hinit⟩

/-- Integers are greater than the least one, so that their negation is no overflow. -/
theorem Evaluates.integer_bounds (h : p.Evaluates file e v) (hp : p.IsRead)
    (hwritten : p.Writes file e ∨
      file = none ∧ e = .literal Framework.nowhere (.integer 2147483647)) :
    ∀ value, v = .integer value → minInteger < value ∧ value ≤ maxInteger := by
  unfold minInteger maxInteger
  induction h with
  | integer =>
    rintro _ ⟨⟩
    rcases hwritten with hwritten | ⟨-, heq⟩
    · have hle := hwritten.integer_le hp
      unfold maxInteger at hle
      omega
    · have hvalue := Literal.integer.inj (Expr.literal.inj heq).2
      omega
  | string | real | bool | null | nameof | sum => rintro _ ⟨⟩
  | paren _ ih =>
    rcases hwritten with hwritten | ⟨-, heq⟩
    · exact ih (.inl (hwritten.part hp (.head _)))
    · cases heq
  | neg _ ih =>
    rintro _ ⟨⟩
    rcases hwritten with hwritten | ⟨-, heq⟩
    · obtain ⟨hlower, hupper⟩ := ih (.inl (hwritten.part hp (.head _))) _ rfl
      omega
    · cases heq
  | name _ _ hinit _ ih => exact ih (hinit.written hp)

end Project

end PropertyLint
