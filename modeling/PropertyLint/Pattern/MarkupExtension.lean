/-
# Markup extensions

What a markup extension provides, and from which parameter of its constructors a property gets its
value.
-/
import PropertyLint.Pattern.Conversion

namespace PropertyLint

namespace Model

/-! ## The provided value -/

/-- The type that a method is declared to return, unless it is `object`. -/
def returnType? (m : Model) (method : MethodDecl) : Option SymbolId := do
  let symbol ← m.comp.method? (← m.declared? method.node.id)
  m.comp.informative? (← symbol.returnType)

/-- The type of what a markup extension provides: the declared one, or else the one that all
returned values except `null` agree on. -/
def providedType? (m : Model) (t : TypeDecl) : Option SymbolId := do
  let method ← t.methodNamed? "ProvideValue" 1
  match m.returnType? method with
  | some declared => return declared
  | none =>
    let values := (method.body.returned.map Expr.unparenthesized).filter fun e => !m.isNull e
    let types ← values.mapM fun e => m.type? e.id
    m.comp.informative? (← m.comp.uniqueType? types)

/-! ## Constructor parameters -/

/-- The expression that a plain getter returns. -/
def getterValue? (p : PropertyDecl) : Option Expr :=
  match p.arrow with
  | some value => some value
  | none => do
    let getter ← p.getter?
    match getter.body.arrow with
    | some value => return value
    | none =>
      match (← getter.body.block).statements with
      | [.returning _ (some value)] => return value
      | _ => none

/-- The field that the getter of a property returns. -/
def backingField? (m : Model) (property : SymbolId) : Option SymbolId := do
  let found ← m.declaration? property
  if found.tree.file ≠ m.tree.file then none
  match found.member with
  | .property p =>
    let value ← getterValue? p
    let symbol ← m.symbol? value.unparenthesized.id
    match m.comp.symbol? symbol with
    | some (.field _) => return symbol
    | _ => none
  | _ => none

/-- The parameter that an assignment to one of the targets takes the value from. -/
def assignedParameter? (m : Model) (targets : List SymbolId) : Expr → Option String
  | .assign _ target value => do
    let symbol ← m.symbol? target.unparenthesized.id
    if !targets.contains symbol then none
    match value.unparenthesized with
    | .identifier node name =>
      if ((m.symbol? node.id).bind m.comp.parameter?).isSome then some name.text else none
    | _ => none
  | _ => none

/-- The text that all texts of a list are. -/
def uniqueText? : List String → Option String
  | [] => none
  | first :: rest => if rest.all (· == first) then some first else none

/-- The constructor parameter that a property gets its value from, directly or through the field
that it returns.  All assignments in the constructors have to agree. -/
def constructorParameter? (m : Model) (t : TypeDecl) (property : SymbolId) : Option String :=
  let targets := property :: (m.backingField? property).toList
  uniqueText? <| t.constructors.flatMap fun ctor =>
    ctor.body.exprs.filterMap (m.assignedParameter? targets)

end Model

end PropertyLint
