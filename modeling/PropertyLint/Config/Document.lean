/-
# Configuration documents

A document is what a configuration text says before anyone asks what it means: scalars, lists and
maps.  A map keeps its entries in the order of the text, and a key may occur twice.
-/

namespace PropertyLint.Config

/-- A value without parts.  A natural number can stand for the name at that place of a list of
names; no configuration has other numbers, so their values do not matter. -/
inductive Scalar where
  | null
  | bool (value : Bool)
  | natural (value : Nat)
  | number
  | text (value : String)
deriving DecidableEq, Repr

/-- The name among some names that a scalar gives, by its text or by its place. -/
def Scalar.nameAmong? (names : List String) : Scalar → Option String
  | text s => if names.contains s then some s else none
  | natural n => names[n]?
  | _ => none

/-- A document. -/
inductive Document where
  | scalar (value : Scalar)
  | list (items : List Document)
  | map (entries : List (Scalar × Document))
deriving Repr

namespace Document

/-- The text that a document is. -/
def text? : Document → Option String
  | scalar (.text s) => some s
  | _ => none

/-- The truth value that a document is. -/
def bool? : Document → Option Bool
  | scalar (.bool b) => some b
  | _ => none

/-- The document is empty. -/
def isNull : Document → Bool
  | scalar .null => true
  | _ => false

/-- The entries of a map whose keys are texts. -/
def entries? : Document → Option (List (String × Document))
  | map entries => entries.mapM fun
    | (.text key, value) => some (key, value)
    | _ => none
  | _ => none

/-- The entries of a map by their names, if each key gives one of the names and no two keys give the
same one. -/
def fields? (names : List String) : Document → Option (List (String × Document))
  | map entries => do
    let fields ← entries.mapM fun (key, value) => return (← key.nameAmong? names, value)
    let keys := fields.map Prod.fst
    if keys.eraseDups.length == keys.length then some fields else none
  | _ => none

end Document

end PropertyLint.Config
