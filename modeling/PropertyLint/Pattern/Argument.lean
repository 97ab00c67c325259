/-
# Reading arguments

Which argument is passed for a parameter, and what constant it is or what type it names.  An answer
is missing when something it depends on is unresolved.
-/
import PropertyLint.Binding.Project
import PropertyLint.Symbol.Display

namespace PropertyLint

/-- The argument that a call passes for the parameter with a name: the one written with that name,
or else the one without a name at the parameter's place. -/
def Compilation.argumentFor? (c : Compilation) (method : SymbolId) (args : ArgumentList Expr)
    (param : String) : Option (Argument Expr) :=
  args.passedAs? param <|> do
    let p ← (c.paramsOf (← c.method? method)).find? fun p => p.name == param
    (args.args[p.ordinal]?).filter fun a => a.name.isNone

/-- The single type that all types of a list are equal to. -/
def Compilation.uniqueType? (c : Compilation) : List SymbolId → Option SymbolId
  | [] => none
  | first :: rest => if rest.all (c.typesEqual first) then some first else none

/-- The type, unless it is `object`, which says nothing about a conversion. -/
def Compilation.informative? (c : Compilation) (t : SymbolId) : Option SymbolId :=
  if c.isKnown t .object then none else some t

/-- `typeof(T)` for a type. -/
def Compilation.typeOfText (c : Compilation) (t : SymbolId) : String :=
  "typeof(" ++ c.display t ++ ")"

namespace Model

/-- The type that a `typeof` expression names. -/
def typeOfArgument? (m : Model) (e : Expr) : Option SymbolId :=
  match e.unparenthesized with
  | .typeOf _ t => m.symbol? t.id
  | _ => none

/-- The string that an expression is worth. -/
def constantText? (m : Model) (e : Expr) : Option String := (m.constant? e.id).bind Constant.text?

/-- The expression is worth `null`. -/
def isNull (m : Model) (e : Expr) : Bool := m.constant? e.id == some .null

/-- What the member that an expression refers to is known as. -/
def knownMember? (m : Model) (e : Expr) : Option KnownMember :=
  (m.symbol? e.id).bind m.comp.knownMember?

/-- The declarations of a type in the model's file. -/
def typeDeclarations (m : Model) (t : SymbolId) : List TypeDecl :=
  (((m.comp.type? t).map TypeSymbol.declarations).getD []).filterMap fun place =>
    if place.file = m.tree.file then
      match m.tree.findDeclaration? place.node with
      | some (.type decl) => some decl
      | _ => none
    else none

end Model

/-! ## Returned values -/

mutual

/-- The values that a statement returns, at any depth of blocks and branches. -/
def Stmt.returned : Stmt → List Expr
  | .returning _ (some value) => [value]
  | .branch _ _ yes none => yes.returned
  | .branch _ _ yes (some no) => yes.returned ++ no.returned
  | .block _ ⟨_, statements⟩ => returnedByStmts statements
  | _ => []

/-- The values that statements return. -/
def returnedByStmts : List Stmt → List Expr
  | [] => []
  | s :: rest => s.returned ++ returnedByStmts rest

end

/-- The values that a body returns. -/
def Body.returned (b : Body) : List Expr :=
  b.arrow.toList ++ ((b.block.map fun block => returnedByStmts block.statements).getD [])

end PropertyLint
