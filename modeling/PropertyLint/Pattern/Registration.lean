/-
# Registrations of dependency properties

A dependency property is registered by a call that names the property, its type and its owner.  A
member that is initialized by `AddOwner` on another member, or from a key, is registered where that
member is: the registration of a member follows the chain of members until it comes to a call that
registers, and it is missing if the chain returns to one of its members.
-/
import PropertyLint.Pattern.Accessor

namespace PropertyLint

/-- The kind of a registration. -/
inductive RegistrationKind where
  | register | registerReadOnly | registerAttached | registerAttachedReadOnly | addOwner
deriving DecidableEq, Repr

namespace RegistrationKind

/-- The kind of registration that a framework member makes. -/
def ofMember? : KnownMember → Option RegistrationKind
  | .register => some register
  | .registerReadOnly => some registerReadOnly
  | .registerAttached => some registerAttached
  | .registerAttachedReadOnly => some registerAttachedReadOnly
  | .addOwner => some addOwner
  | _ => none

/-- The registered property is set on other objects. -/
def isAttached : RegistrationKind → Bool
  | registerAttached | registerAttachedReadOnly => true
  | _ => false

end RegistrationKind

/-! ## The shape of a registration -/

/-- The names of the methods that register. -/
def registrationNames : List String :=
  ["Register", "RegisterReadOnly", "RegisterAttached", "RegisterAttachedReadOnly", "AddOwner"]

/-- A call that looks like a registration. -/
structure RegistrationCall where
  call : Expr
  target : Expr
  args : ArgumentList Expr

/-- The call, if the expression looks like a registration, inside of parentheses. -/
def Expr.registrationCall? (e : Expr) : Option RegistrationCall :=
  match e.unparenthesized with
  | call@(.invoke _ (.member _ target name) args) =>
    if registrationNames.contains name.text then some ⟨call, target, args⟩ else none
  | _ => none

/-! ## What a registration says -/

/-- What is known about a registration. -/
structure Registration where
  kind : RegistrationKind
  call : Expr
  /-- The name, if it is a constant. -/
  name : Option String
  /-- The name is given but it is no constant. -/
  dynamicName : Bool
  type : Option SymbolId
  owner : Option SymbolId
  ownerArg : Option (Argument Expr)
  /-- The default value among the metadata. -/
  defaultValue : Option Expr

namespace Model

/-- The default value that a metadata object is created with. -/
def defaultValueOf? (m : Model) (metadata : Expr) : Option Expr :=
  match metadata.unparenthesized with
  | creation@(.create _ _ (some args)) => do
    let ctor ← m.symbol? creation.id
    let arg ← m.comp.argumentFor? ctor args "defaultValue"
    return arg.value
  | _ => none

/-- The registration that an expression makes; `sourceOf` finds the registration of the member that
an owner is added to. -/
def registrationBy? (m : Model) (sourceOf : SymbolId → Option Registration) (e : Expr) :
    Option Registration := do
  let shape ← e.registrationCall?
  let method ← m.symbol? shape.call.id
  let kind ← RegistrationKind.ofMember? (← m.comp.knownMember? method)
  let arg := m.comp.argumentFor? method shape.args
  let metadata := arg "typeMetadata" <|> arg "defaultMetadata"
  let defaultValue := metadata.bind fun a => m.defaultValueOf? a.value
  let ownerArg := arg "ownerType"
  let owner := ownerArg.bind fun a => m.typeOfArgument? a.value
  if kind = .addOwner then
    let source ← sourceOf (← m.symbol? shape.target.unparenthesized.id)
    return { source with kind, call := shape.call, owner, ownerArg, defaultValue }
  else
    let nameArg := arg "name"
    let name := nameArg.bind fun a => m.constantText? a.value
    let type := (arg "propertyType").bind fun a => m.typeOfArgument? a.value
    return { kind, call := shape.call, name, dynamicName := nameArg.isSome && name.isNone, type,
             owner, ownerArg, defaultValue }

/-- The value that a member of the model's file starts with, inside of parentheses. -/
def startValueOf? (m : Model) (symbol : SymbolId) : Option Expr := do
  let found ← m.declaration? symbol
  if found.tree.file ≠ m.tree.file then none
  return (← found.member.startValue?).unparenthesized

/-- The key whose dependency property an expression reads. -/
def keyOf? (m : Model) (e : Expr) : Option SymbolId :=
  match e with
  | .member _ target _ =>
    if m.knownMember? e = some .keyDependencyProperty then m.symbol? target.unparenthesized.id
    else none
  | _ => none

/-- The registration of a member, found along a chain of members of bounded length.  No member of
`visited` is visited again, and at most one step leads from a property to its key. -/
def registrationWithin? (m : Model) : Nat → List SymbolId → Bool → SymbolId → Option Registration
  | 0, _, _, _ => none
  | fuel + 1, visited, followKey, symbol =>
    if visited.contains symbol then none
    else do
      let value ← m.startValueOf? symbol
      let visited := symbol :: visited
      match m.registrationBy? (m.registrationWithin? fuel visited true) value with
      | some registration => some registration
      | none =>
        if followKey then (m.keyOf? value).bind (m.registrationWithin? fuel visited false)
        else none

/-- The registration of a member. -/
def registrationOf? (m : Model) (symbol : SymbolId) : Option Registration :=
  m.registrationWithin? m.comp.depthBound [] true symbol

/-- The registration that an expression makes itself. -/
def registrationAt? (m : Model) (e : Expr) : Option Registration :=
  m.registrationBy? m.registrationOf? e

end Model

end PropertyLint
