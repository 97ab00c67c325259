/-
# Members that hold dependency properties

A backing member is a field or a property whose values are dependency properties or their keys.  Its
name is checked against the name that the property is registered with.
-/
import PropertyLint.Pattern.Registration

namespace PropertyLint

/-- What a backing member holds. -/
inductive BackingKind where
  | property | key
deriving DecidableEq, Repr

namespace BackingKind

/-- What the name of a backing member ends with. -/
def suffix : BackingKind → String
  | property => "Property"
  | key => "PropertyKey"

/-- The name of the type of the values. -/
def typeName : BackingKind → String
  | property => "DependencyProperty"
  | key => "DependencyPropertyKey"

/-- The kind that belongs to a known type. -/
def ofType? : KnownType → Option BackingKind
  | .dependencyProperty => some property
  | .dependencyPropertyKey => some key
  | _ => none

end BackingKind

/-- A field or a property that holds a dependency property or a key. -/
structure BackingMember where
  symbol : SymbolId
  name : String
  kind : BackingKind
  containingType : SymbolId
  isStatic : Bool
deriving DecidableEq, Repr

/-- The backing member that a symbol is. -/
def Compilation.backingMember? (c : Compilation) (symbol : SymbolId) : Option BackingMember := do
  let s ← c.symbol? symbol
  let (type, owner, isStatic) ← match s with
    | .field f => some (f.type, f.containingType, f.isStatic)
    | .property p => some (p.type, p.containingType, p.isStatic)
    | _ => none
  let kind ← BackingKind.ofType? (← c.classify (← type))
  return ⟨symbol, s.name, kind, owner, isStatic⟩

/-- The backing member that a symbol is, if it is static. -/
def Compilation.staticBackingMember? (c : Compilation) (symbol : SymbolId) : Option BackingMember :=
  (c.backingMember? symbol).filter BackingMember.isStatic

namespace Model

/-- A call passes a symbol as its first argument. -/
def passesFirst (m : Model) (symbol : SymbolId) (call : Expr) : Bool :=
  (do
    let first ← (← call.argumentList?).args.head?
    m.symbol? first.value.unparenthesized.id) == some symbol

/-- The name of a property that reads or sets the value of a backing member. -/
def wrapperName? (m : Model) (backing : BackingMember) (member : Member) : Option String :=
  match member with
  | .property p => do
    let calls ← p.wrapperCalls?
    if (calls.getCall.toList ++ calls.setCall.toList).any (m.passesFirst backing.symbol) then
      some p.name.text
    else none
  | _ => none

/-- The members that are no types of all declarations of a type in the model's file. -/
def membersInFile (m : Model) (t : SymbolId) : List Member :=
  (m.typeDeclarations t).flatMap TypeDecl.ownMembers

/-- The name that the property of a backing member is registered with.  Without a registration, or
when the registration names no property, it is the name of the first property that wraps the
member. -/
def registeredName? (m : Model) (backing : BackingMember) : Option String :=
  match m.registrationOf? backing.symbol with
  | some ⟨_, _, some name, _, _, _, _, _⟩ => some name
  | some ⟨_, _, none, true, _, _, _, _⟩ => none
  | _ => (m.membersInFile backing.containingType).findSome? (m.wrapperName? backing)

/-- A member starts with the dependency property of a key. -/
def readsKey (m : Model) (key : SymbolId) (member : Member) : Bool :=
  (member.startValue?.bind fun value => m.keyOf? value.unparenthesized) == some key

/-- The first member of a key's type that starts with the dependency property of the key. -/
def memberForKey? (m : Model) (key : BackingMember) : Option Member :=
  (m.membersInFile key.containingType).find? (m.readsKey key.symbol)

end Model

end PropertyLint
