/-
# Finding the type that is written

A type name is looked up from the inside out: type parameters of the method, then for each enclosing
type its type parameters and the types nested in it and in its bases, then the enclosing namespaces,
then the namespaces of the `using` directives.  A dotted name starts with a type or a namespace.  A
type of which a part cannot be found is unresolved.
-/
import PropertyLint.Binding.State

namespace PropertyLint

open Binder

/-- The type with a name in a namespace, with type arguments. -/
def typeInNamespace (container : Option String) (name : String) (args : List SymbolId) :
    Binder (Option SymbolId) := do
  match ← typeNamed? (qualifiedName container name args.length) with
  | some definition => return some (← change fun c => c.construct definition args)
  | none => return none

/-- The type with a name that is declared directly in another type, with type arguments. -/
def nestedType (outer : SymbolId) (name : String) (args : List SymbolId) :
    Binder (Option SymbolId) := do
  let c ← comp
  typeInNamespace (some (c.metadataName (c.definition outer))) name args

/-- The first result that a search finds. -/
def firstFound {α : Type} (search : α → Binder (Option SymbolId)) :
    List α → Binder (Option SymbolId)
  | [] => return none
  | a :: rest => do
    match ← search a with
    | some found => return some found
    | none => firstFound search rest

/-- The type parameter with a name among type parameters. -/
def typeParamNamed? (c : Compilation) (name : String) (params : List SymbolId) : Option SymbolId :=
  params.find? fun p => c.nameOf p == name

/-- Looks a type name up in a type: among its type parameters, if there are no arguments, and
among the types nested in it and in its bases. -/
def typeInType (name : String) (args : List SymbolId) (owner : SymbolId) :
    Binder (Option SymbolId) := do
  let c ← comp
  let param :=
    if args.isEmpty then
      typeParamNamed? c name (((c.type? owner).map TypeSymbol.typeParams).getD [])
    else none
  match param with
  | some param => return some param
  | none => firstFound (fun base => nestedType base name args) (c.selfAndBaseTypes owner)

/-- The containers that the namespace of a scope's type leads to: it and the namespaces around it,
then no namespace. -/
def Scope.containers (scope : Scope) (c : Compilation) : List (Option String) :=
  let name := (scope.type.bind c.type?).bind TypeSymbol.namespaceName
  ((name.map namespaceChain).getD []).map some ++ [none]

/-- Looks up a type name without dots. -/
def simpleType (scope : Scope) (name : String) (args : List SymbolId) :
    Binder (Option SymbolId) := do
  let c ← comp
  match if args.isEmpty then KeywordType.ofKeyword? name else none with
  | some keyword => keywordType? keyword
  | none =>
    match if args.isEmpty then typeParamNamed? c name scope.methodTypeParams else none with
    | some param => return some param
    | none =>
      match ← firstFound (typeInType name args) (scope.enclosingTypes c) with
      | some found => return some found
      | none =>
        match ← firstFound (fun n => typeInNamespace n name args) (scope.containers c) with
        | some found => return some found
        | none => firstFound (fun n => typeInNamespace (some n) name args) scope.usings

/-- Records the type that a written type stands for, if it is known. -/
def recordResolved (scope : Scope) (node : Node) (resolved : Option SymbolId) :
    Binder (Option SymbolId) := do
  if let some t := resolved then recordSymbol scope node.id t
  return resolved

/-- The nullable form of a type; types whose values are references are their own. -/
def nullableForm (underlying : SymbolId) : Binder (Option SymbolId) := do
  let c ← comp
  if c.isValueType underlying then
    match c.nullableOf underlying with
    | some (t, c) => change fun _ => (some t, c)
    | none => return none
  else return some underlying

mutual

/-- Finds the type that is written. -/
def resolveType (scope : Scope) : TypeRef → Binder (Option SymbolId)
  | .keyword node k => do recordResolved scope node (← keywordType? k)
  | .named node segments => do recordResolved scope node (← resolveName scope segments)
  | .array node element => do
    match ← resolveType scope element with
    | some t => recordResolved scope node (some (← change fun c => c.arrayOf t))
    | none => return none
  | .nullable node underlying => do
    match ← resolveType scope underlying with
    | some t => recordResolved scope node (← nullableForm t)
    | none => return none

/-- Finds the type of a dotted name. -/
def resolveName (scope : Scope) : List NameSegment → Binder (Option SymbolId)
  | [] => return none
  | .mk name args :: rest => do
    match ← resolveArgs scope args with
    | none => return none
    | some args =>
      match ← simpleType scope name.text args with
      | some t => resolveInType scope t rest
      | none => resolveInNamespace scope name.text rest

/-- Finds the type that segments lead to from a type. -/
def resolveInType (scope : Scope) (outer : SymbolId) : List NameSegment → Binder (Option SymbolId)
  | [] => return some outer
  | .mk name args :: rest => do
    match ← resolveArgs scope args with
    | none => return none
    | some args =>
      match ← nestedType outer name.text args with
      | some t => resolveInType scope t rest
      | none => return none

/-- Finds the type that segments lead to from a namespace. -/
def resolveInNamespace (scope : Scope) (container : String) :
    List NameSegment → Binder (Option SymbolId)
  | [] => return none
  | .mk name args :: rest => do
    match ← resolveArgs scope args with
    | none => return none
    | some args =>
      match ← typeInNamespace (some container) name.text args with
      | some t => resolveInType scope t rest
      | none => resolveInNamespace scope (container ++ "." ++ name.text) rest

/-- Finds the types of type arguments; the search ends at the first one that is unresolved. -/
def resolveArgs (scope : Scope) : List TypeRef → Binder (Option (List SymbolId))
  | [] => return some []
  | t :: rest => do
    match ← resolveType scope t with
    | none => return none
    | some t =>
      match ← resolveArgs scope rest with
      | some ts => return some (t :: ts)
      | none => return none

end

/-- The last segment of a dotted name does not end with the word `Attribute`. -/
def isShortAttributeName : TypeRef → Bool
  | .named _ segments =>
    segments.getLast?.any fun last => !endsWith last.name.text Attribute.suffix
  | _ => false

/-- Finds the class of an attribute: the name with the word `Attribute` behind it comes first,
unless the name ends with that word. -/
def resolveAttributeClass (scope : Scope) (name : TypeRef) : Binder (Option SymbolId) := do
  if isShortAttributeName name then
    match ← resolveType scope (name.appendToName Attribute.suffix) with
    | some t => return some t
    | none => resolveType scope name
  else resolveType scope name

end PropertyLint
