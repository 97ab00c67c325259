/-
# How tokens group to nodes

Loops and nested nodes recurse on a bound.  Of four steps at least one reads a token, so four times
the number of tokens is bound enough.
-/
import PropertyLint.Config.Yaml.Node
import PropertyLint.Config.Yaml.Token

namespace PropertyLint.Config.Yaml

/-- A reader of tokens. -/
abbrev Reader (α : Type) := StateT (List Token) Option α

/-- The next token. -/
def peek : Reader Token := do StateT.lift (← get).head?

/-- Reads a token if it is next. -/
def take (token : Token) : Reader Bool := do
  if (← peek) = token then
    modify List.tail
    return true
  return false

/-- Reads a token that must be next. -/
def expect (token : Token) : Reader Unit := do unless ← take token do failure

/-- The tokens in front of which an item of a block list may be left out. -/
def itemStops : List Token := [.item, .blockEnd]

/-- The tokens in front of which an item may be left out in a list that is not indented. -/
def flatItemStops : List Token := [.item, .key, .value, .blockEnd]

/-- The tokens in front of which a key or a value may be left out in a block map. -/
def entryStops : List Token := [.key, .value, .blockEnd]

/-- The tokens in front of which a key or a value may be left out in a flow map. -/
def flowEntryStops : List Token := [.value, .comma, .mapEnd]

/-- The tokens in front of which a key or a value may be left out in a list in flow form. -/
def pairStops : List Token := [.value, .comma, .listEnd]

/-- What a node may start with: a collection in block form, and the dash of a list that is not
indented. -/
structure Form where
  block : Bool
  flat : Bool

mutual

/-- Reads a node. -/
def node (form : Form) : Nat → Reader Node
  | 0 => failure
  | bound + 1 => do
    let token ← peek
    if token = .item && form.flat then return .list (← flatItems bound)
    modify List.tail
    match token with
    | .scalar plain text => return .scalar plain text
    | .listStart => return .list (← flowItems true bound)
    | .mapStart => return .map (← flowEntries true bound)
    | .blockList => if form.block then return .list (← blockItems bound) else failure
    | .blockMap => if form.block then return .map (← blockEntries bound) else failure
    | _ => failure

/-- Reads a node that may be left out in front of some tokens. -/
def nodeBefore (stops : List Token) (form : Form) : Nat → Reader Node
  | 0 => failure
  | bound + 1 => do if stops.contains (← peek) then return .empty else node form bound

/-- Reads the colon of a value and the value, both of which may be left out. -/
def valueBefore (stops : List Token) (form : Form) : Nat → Reader Node
  | 0 => failure
  | bound + 1 => do if ← take .value then nodeBefore stops form bound else return .empty

/-- Reads the items of a list in flow form and its closing bracket.  An item may be a map of one
entry. -/
def flowItems (first : Bool) : Nat → Reader (List Node)
  | 0 => failure
  | bound + 1 => do
    if ← take .listEnd then return []
    unless first do
      expect .comma
    if ← take .listEnd then return []
    let item ←
      if ← take .key then
        let key ← nodeBefore pairStops ⟨false, false⟩ bound
        pure (Node.map [(key, ← valueBefore pairStops ⟨false, false⟩ bound)])
      else node ⟨false, false⟩ bound
    return item :: (← flowItems false bound)

/-- Reads the entries of a map in flow form and its closing brace. -/
def flowEntries (first : Bool) : Nat → Reader (List (Node × Node))
  | 0 => failure
  | bound + 1 => do
    if ← take .mapEnd then return []
    unless first do
      expect .comma
    if ← take .mapEnd then return []
    let key ←
      if ← take .key then nodeBefore flowEntryStops ⟨false, false⟩ bound
      else if (← peek) = .value then pure Node.empty
      else node ⟨false, false⟩ bound
    let value ← valueBefore flowEntryStops ⟨false, false⟩ bound
    return (key, value) :: (← flowEntries false bound)

/-- Reads the items of a list in block form. -/
def blockItems : Nat → Reader (List Node)
  | 0 => failure
  | bound + 1 => do
    if ← take .blockEnd then return []
    expect .item
    let item ← nodeBefore itemStops ⟨true, false⟩ bound
    return item :: (← blockItems bound)

/-- Reads the items of a list that is not indented. -/
def flatItems : Nat → Reader (List Node)
  | 0 => failure
  | bound + 1 => do
    unless ← take .item do return []
    let item ← nodeBefore flatItemStops ⟨true, false⟩ bound
    return item :: (← flatItems bound)

/-- Reads the entries of a map in block form. -/
def blockEntries : Nat → Reader (List (Node × Node))
  | 0 => failure
  | bound + 1 => do
    if ← take .blockEnd then return []
    let key ←
      if ← take .key then nodeBefore entryStops ⟨true, true⟩ bound
      else do
        unless (← peek) = .value do failure
        pure Node.empty
    let value ← valueBefore entryStops ⟨true, true⟩ bound
    return (key, value) :: (← blockEntries bound)

end

end PropertyLint.Config.Yaml
