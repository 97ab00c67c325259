/-
# The types that a converter converts

A converter is written for one type of values and gives values of one type.  The first is what the
parameter of `Convert` is cast to or tested against, the second is the type of what `Convert`
returns.  Either is known only if all places agree.
-/
import PropertyLint.Pattern.Accessor

namespace PropertyLint

/-- The types that a converter converts from and to. -/
structure ConversionTypes where
  source : Option SymbolId
  target : Option SymbolId
deriving DecidableEq, Repr

/-- The first method with a name and a number of parameters. -/
def TypeDecl.methodNamed? (t : TypeDecl) (name : String) (arity : Nat) : Option MethodDecl :=
  t.ownMembers.findSome? fun
    | .method d => if d.name.text == name && d.params.length == arity then some d else none
    | _ => none

/-- The type that an expression casts or tests a name against. -/
def Expr.castOf? (name : String) : Expr → Option TypeRef
  | .cast _ type operand | .asType _ operand type | .isType _ operand type _ =>
    if operand.isName name then some type else none
  | _ => none

namespace Model

/-- The type that all casts of the first parameter agree on. -/
def convertedFrom? (m : Model) (convert : MethodDecl) : Option SymbolId := do
  let value := (← convert.params.head?).name.text
  let casts := (Member.method convert).exprs.filterMap (Expr.castOf? value)
  let types ← casts.mapM fun t => m.symbol? t.id
  m.comp.uniqueType? types

/-- The full name of the class whose member `DoNothing` says that nothing is converted. -/
def bindingTypeName : String := "System.Windows.Data.Binding"

/-- The expression gives no value: it is `null`, or it stands for an unset value or for doing
nothing. -/
def isNoValue (m : Model) (e : Expr) : Bool :=
  m.isNull e ||
    match m.symbol? e.id with
    | none => false
    | some id =>
      m.comp.knownMember? id == some .unsetValue ||
        (m.comp.symbol? id).any fun s => s.name == "DoNothing" &&
          s.containingType?.any fun owner => m.comp.metadataName owner == bindingTypeName

/-- The types of the values that an expression gives, in both branches of conditionals.  They are
missing if one of them is unresolved. -/
def valueTypes? (m : Model) : Expr → Option (List SymbolId)
  | .paren _ inner => m.valueTypes? inner
  | .conditional _ _ whenTrue whenFalse => do
    let yes ← m.valueTypes? whenTrue
    let no ← m.valueTypes? whenFalse
    return yes ++ no
  | e => if m.isNoValue e then some [] else (m.type? e.id).map fun t => [t]

/-- The type that all returned values agree on. -/
def convertedTo? (m : Model) (convert : MethodDecl) : Option SymbolId := do
  let types ← convert.body.returned.mapM m.valueTypes?
  m.comp.uniqueType? types.flatten

/-- The types that the `Convert` method of a declared type works with. -/
def conversionTypes? (m : Model) (t : TypeDecl) : Option ConversionTypes := do
  let convert ← t.methodNamed? "Convert" 4
  return ⟨(m.convertedFrom? convert).bind m.comp.informative?,
          (m.convertedTo? convert).bind m.comp.informative?⟩

end Model

end PropertyLint
