/-
# YAML nodes

A node is what tokens group to: a scalar, a list or a map, whose keys are nodes too.  As a
document its scalars have values, its keys are scalars that are spelled in different ways, and the
entries of maps under the key `<<` are merged into the map around them.
-/
import PropertyLint.Config.Yaml.Scalar

namespace PropertyLint.Config.Yaml

/-- A node. -/
inductive Node where
  | scalar (plain : Bool) (text : String)
  | list (items : List Node)
  | map (entries : List (Node × Node))
deriving Repr

namespace Node

/-- The node that was left out. -/
def empty : Node := scalar true ""

/-- What a scalar stands for. -/
def scalarValue (plain : Bool) (text : String) : Scalar :=
  if plain then plainScalar text else .text text

/-- The node is the key whose value is merged into the map around it. -/
def isMergeKey : Node → Bool
  | scalar true text => text == "<<"
  | _ => false

/-- An entry of a map whose key is a scalar, with the spelling of the key. -/
structure Field where
  spelling : String
  key : Scalar
  value : Document

/-- The entries without those whose key was spelled before. -/
def distinct (entries : List Field) : List Field :=
  entries.eraseDupsBy fun e f => e.spelling == f.spelling

mutual

/-- The document that a node is. -/
def document? : Node → Option Document
  | scalar plain text => some (.scalar (scalarValue plain text))
  | list items => (documents? items).map .list
  | map entries => do
    let (own, merged) ← entries? entries
    if (distinct own).length ≠ own.length then none
    return .map ((distinct (own ++ merged)).map fun e => (e.key, e.value))

/-- The documents that nodes are. -/
def documents? : List Node → Option (List Document)
  | [] => some []
  | item :: rest => do return (← document? item) :: (← documents? rest)

/-- The entries of a map, and those that are merged into it; the last merged map comes first. -/
def entries? : List (Node × Node) → Option (List Field × List Field)
  | [] => some ([], [])
  | (key, value) :: rest => do
    let (own, merged) ← entries? rest
    if key.isMergeKey then return (own, merged ++ (← mergedEntries? value))
    match key with
    | scalar plain text =>
      return (⟨text, scalarValue plain text, ← document? value⟩ :: own, merged)
    | _ => none

/-- The entries that a node under the key for merging adds to a map. -/
def mergedEntries? : Node → Option (List Field)
  | scalar plain text => if scalarValue plain text = .null then some [] else none
  | list items => mergedItems? items
  | map entries => do
    let (own, merged) ← entries? entries
    return own ++ merged

/-- The entries that a list of maps adds to a map; the last map comes first. -/
def mergedItems? : List Node → Option (List Field)
  | [] => some []
  | item :: rest => do return (← mergedItems? rest) ++ (← mergedEntries? item)

end

end Node

end PropertyLint.Config.Yaml
