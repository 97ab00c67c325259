/-
# Types as they are written

A type in source is a keyword, a dotted name whose segments may carry type arguments, an array of a
type or a nullable type.
-/
import PropertyLint.Syntax.Name

namespace PropertyLint

mutual

/-- A type as it is written. -/
inductive TypeRef where
  | keyword (node : Node) (keyword : KeywordType)
  | named (node : Node) (segments : List NameSegment)
  | array (node : Node) (element : TypeRef)
  | nullable (node : Node) (underlying : TypeRef)

/-- One segment of a dotted name. -/
inductive NameSegment where
  | mk (name : Ident) (args : List TypeRef)

end

namespace NameSegment

/-- The identifier of the segment. -/
def name : NameSegment → Ident
  | mk name _ => name

/-- The type arguments of the segment. -/
def args : NameSegment → List TypeRef
  | mk _ args => args

end NameSegment

namespace TypeRef

/-- The node of the type. -/
def node : TypeRef → Node
  | keyword n _ | named n _ | array n _ | nullable n _ => n

/-- The identity of the type's node. -/
def id (t : TypeRef) : NodeId := t.node.id

/-- The range of the type. -/
def range (t : TypeRef) : OffsetRange := t.node.range

/-- The last identifier of a dotted name, or the keyword. -/
def simpleName? : TypeRef → Option String
  | named _ segments => segments.getLast?.map fun s => s.name.text
  | keyword _ k => some k.keyword
  | _ => none

/-- The dotted name without type arguments. -/
def dottedName? : TypeRef → Option String
  | named _ segments => some (".".intercalate (segments.map fun s => s.name.text))
  | _ => none

/-- The type is the single word `var`. -/
def isVar : TypeRef → Bool
  | named _ [segment] => segment.name.text == "var" && segment.args.isEmpty
  | _ => false

/-- The type is `void`. -/
def isVoid : TypeRef → Bool
  | keyword _ .void => true
  | _ => false

/-- The type with a suffix on the last identifier of its dotted name; other types stay. -/
def appendToName (suffix : String) : TypeRef → TypeRef
  | named node segments =>
    match segments.getLast? with
    | some last =>
      named node (segments.dropLast ++
        [.mk ⟨last.name.text ++ suffix, last.name.range⟩ last.args])
    | none => named node segments
  | t => t

end TypeRef

end PropertyLint
