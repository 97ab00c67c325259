/-
# Types as messages show them

A type is shown the way it is written where it is used: a keyword type by its keyword, a nullable
type with a question mark, an array with brackets, a generic type with its arguments, and without
namespaces.
-/
import PropertyLint.Symbol.Compilation

namespace PropertyLint

namespace Compilation

/-- The results of a function that may fail, all of them or none. -/
def allSome (f : SymbolId → Option String) : List SymbolId → Option (List String)
  | [] => some []
  | a :: rest => do
    let text ← f a
    let texts ← allSome f rest
    return text :: texts

/-- The text of a type, found in a bounded number of steps inwards. -/
def display? (c : Compilation) : Nat → SymbolId → Option String
  | 0, _ => none
  | fuel + 1, id =>
    match c.type? id with
    | none => some (c.nameOf id)
    | some t =>
      match t.kind with
      | .typeParameter => some t.name
      | .array =>
        match t.elementType with
        | some element => (c.display? fuel element).map (· ++ "[]")
        | none => some t.name
      | _ =>
        let full := c.metadataName (c.definition id)
        match KeywordType.ofMetadataName? full with
        | some keyword => some keyword.keyword
        | none =>
          match full == KnownType.nullable.metadataName, t.typeArgs with
          | true, [underlying] => (c.display? fuel underlying).map (· ++ "?")
          | _, _ =>
            let args := if t.typeArgs.isEmpty then t.typeParams else t.typeArgs
            if args.isEmpty then some t.name
            else (allSome (c.display? fuel) args).map fun texts =>
              t.name ++ "<" ++ ", ".intercalate texts ++ ">"

/-- The text of a type. -/
def display (c : Compilation) (id : SymbolId) : String := (c.display? c.depthBound id).getD ""

end Compilation

end PropertyLint
