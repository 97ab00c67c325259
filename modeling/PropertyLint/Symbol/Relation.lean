/-
# Relations of types

The base types of a type are listed breadth first, each once, so that the list is finite even for
cyclic inheritance.  Two types are equal when they are built in the same way from the same parts.
A type is assignable to another if it is equal to it or to a type it can be converted to.
-/
import PropertyLint.Symbol.Compilation

namespace PropertyLint

namespace Compilation

/-! ## Base types -/

/-- The base type and the interfaces that a type names. -/
def parents (c : Compilation) (id : SymbolId) : List SymbolId :=
  ((c.type? id).map TypeSymbol.parents).getD []

/-- The types of a list that have not been visited, each once, and all visited types. -/
def freshIn (visited : List SymbolId) : List SymbolId → List SymbolId × List SymbolId
  | [] => ([], visited)
  | t :: rest =>
    if visited.contains t then freshIn visited rest
    else
      let (fresh, visited) := freshIn (t :: visited) rest
      (t :: fresh, visited)

/-- Lists the queued types and, in their order, all types that are found from them. -/
def baseTypesFrom (c : Compilation) : Nat → List SymbolId → List SymbolId → List SymbolId
  | 0, _, _ => []
  | _ + 1, [], _ => []
  | fuel + 1, t :: queue, visited =>
    let (fresh, visited) := freshIn visited (c.parents t)
    t :: c.baseTypesFrom fuel (queue ++ fresh) visited

/-- The number of places where a type names a base type or an interface. -/
def parentCount (c : Compilation) : Nat :=
  c.symbols.foldl (fun n s => n + ((s.asType?.map fun t => t.parents.length).getD 0)) 0

/-- The base classes and interfaces of a type, nearest first, without the type itself. -/
def baseTypes (c : Compilation) (id : SymbolId) : List SymbolId :=
  let (fresh, visited) := freshIn [id] (c.parents id)
  c.baseTypesFrom (c.parentCount + 1) fresh visited

/-- A type followed by its base types. -/
def selfAndBaseTypes (c : Compilation) (id : SymbolId) : List SymbolId := id :: c.baseTypes id

/-- Members with a name that a type declares or inherits, nearest first. -/
def lookupMembers (c : Compilation) (id : SymbolId) (name : String) : List SymbolId :=
  (c.selfAndBaseTypes id).flatMap fun t => c.membersNamed t name

/-- The first member with a name that a type declares or inherits and that fits. -/
def findMember? (c : Compilation) (id : SymbolId) (name : String) (fits : Symbol → Bool) :
    Option SymbolId :=
  (c.lookupMembers id name).find? fun m => (c.symbol? m).any fits

/-- The types around a type that have not been visited, innermost first. -/
def containingTypesFrom (c : Compilation) : Nat → List SymbolId → SymbolId → List SymbolId
  | 0, _, _ => []
  | fuel + 1, visited, id =>
    match (c.type? id).bind TypeSymbol.containingType with
    | some outer =>
      if visited.contains outer then []
      else outer :: c.containingTypesFrom fuel (outer :: visited) outer
    | none => []

/-- A type and the types around it, innermost first. -/
def selfAndContainingTypes (c : Compilation) (id : SymbolId) : List SymbolId :=
  id :: c.containingTypesFrom c.depthBound [id] id

/-! ## Equality -/

/-- All pairs of two lists of one length pass a test that may remain undecided. -/
def allPairs (test : SymbolId → SymbolId → Option Bool) :
    List SymbolId → List SymbolId → Option Bool
  | [], [] => some true
  | a :: as, b :: bs =>
    match test a b with
    | some true => allPairs test as bs
    | answer => answer
  | _, _ => some false

/-- Two type parameters have one owner, one place and one name. -/
def sameTypeParam (c : Compilation) (s t : TypeSymbol) : Bool :=
  s.ordinal == t.ordinal && s.name == t.name &&
    s.containingType.map c.definition == t.containingType.map c.definition

/-- Equality of types, decided in a bounded number of steps inwards. -/
def typesEqual? (c : Compilation) : Nat → SymbolId → SymbolId → Option Bool
  | 0, _, _ => none
  | fuel + 1, a, b =>
    if a = b then some true
    else match c.type? a, c.type? b with
      | some s, some t =>
        match s.kind, t.kind with
        | .typeParameter, .typeParameter => some (c.sameTypeParam s t)
        | .array, .array =>
          match s.elementType, t.elementType with
          | some x, some y => c.typesEqual? fuel x y
          | _, _ => some false
        | .typeParameter, _ | .array, _ | _, .typeParameter | _, .array => some false
        | _, _ =>
          if c.definition a = c.definition b then
            let left := c.typeArgs a
            let right := c.typeArgs b
            if left.length = right.length then allPairs (c.typesEqual? fuel) left right
            else some false
          else some false
      | _, _ => some false

/-- Two types are equal: type parameters with one owner, place and name, arrays of equal elements,
and types with one definition and equal arguments. -/
def typesEqual (c : Compilation) (a b : SymbolId) : Bool :=
  (c.typesEqual? c.depthBound a b).getD false

/-! ## Conversions -/

/-- The underlying type of a nullable type. -/
def nullableUnderlying? (c : Compilation) (id : SymbolId) : Option SymbolId :=
  if c.isKnown id .nullable then
    match c.type? id with
    | some t =>
      match t.typeArgs with
      | [underlying] => some underlying
      | _ => none
    | none => none
  else none

/-- A value of the first type can be stored as the second type: the types are equal, the second is
`object` or the nullable form of the first, or it is a base type of the first. -/
def isAssignableTo (c : Compilation) (source target : SymbolId) : Bool :=
  if c.typesEqual source target then true
  else if c.isKnown source .void then false
  else if c.isKnown target .object then true
  else match c.nullableUnderlying? target with
    | some underlying => c.typesEqual source underlying
    | none => (c.baseTypes source).any fun base => c.typesEqual base target

/-- The type is a known type or one that derives from it. -/
def isAssignableToKnown (c : Compilation) (id : SymbolId) (tag : KnownType) : Bool :=
  (c.knownType? tag).any fun target => c.isAssignableTo id target

end Compilation

end PropertyLint
