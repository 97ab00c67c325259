/-
# Fixes

A provider fixes the diagnostics of some rules.  It first looks whether the tree still holds what
the diagnostic is about, and declines if it does not.  It looks at the range of the diagnostic only:
a fix that has been applied is offered again if something of the same kind has come to stand there.

Many diagnostics are fixed at once in their order, and a fix is accepted if its edits conflict with
no accepted edit.  So all accepted edits can be applied in one pass; the other diagnostics wait for
another round.
-/
import PropertyLint.Fix.Place
import PropertyLint.Lint.Finding
import PropertyLint.Text.Edit
import PropertyLint.Text.Ends

namespace PropertyLint

/-- A provider of fixes. -/
inductive FixProvider where
  | rename | changeType | replaceArgument | addArgumentList | moveMember | addAttribute
deriving DecidableEq, Repr

namespace FixProvider

/-- The providers in the order in which they are asked. -/
def all : List FixProvider :=
  [.rename, .changeType, .replaceArgument, .addArgumentList, .moveMember, .addAttribute]

/-- The name of a provider. -/
def name : FixProvider → String
  | rename => "rename"
  | changeType => "change_type"
  | replaceArgument => "replace_argument"
  | addArgumentList => "add_argument_list"
  | moveMember => "move_field"
  | addAttribute => "add_attribute"

/-- The rules whose diagnostics a provider fixes. -/
def rules : FixProvider → List Rule
  | rename => [.backingFieldName, .keyFieldName, .wrapperName, .accessorName]
  | changeType => [.wrapperType, .accessorType]
  | replaceArgument =>
    [.registeredOwner, .browsableArgument, .valueConversionTypes, .markupReturnType,
      .constructorArgument, .commandName, .commandOwner, .resourceKeyType, .resourceKeyMember]
  | addArgumentList => [.resourceKeyType]
  | moveMember => [.keyDeclaredFirst]
  | addAttribute => [.addBrowsable, .addValueConversion]

end FixProvider

namespace Fix

/-! ## Replacements -/

/-- Replaces the text at a range, unless it is the new text already. -/
def replaceUnlessEqual (tree : SyntaxTree) (label : String) (r : OffsetRange) (newText : String) :
    Option CodeFix :=
  if tree.textOf r = newText then none else some (.replace label r newText)

/-- Renames a declaration. -/
def rename (d : Diagnostic) (tree : SyntaxTree) : Option CodeFix := do
  let expected ← d.property? .expectedName
  let member ← tree.memberNamedAt? d.range
  if member.name.text = expected then none
  return .replace ("Rename to: '" ++ expected ++ "'") member.name.range expected

/-- Replaces a declared type. -/
def changeType (d : Diagnostic) (tree : SyntaxTree) : Option CodeFix := do
  let expected ← d.property? .typeText
  let type ← tree.declaredTypeAt? d.range
  replaceUnlessEqual tree ("Change type to: " ++ expected) type.range expected

/-- Replaces the expression of an argument. -/
def replaceArgument (d : Diagnostic) (tree : SyntaxTree) : Option CodeFix := do
  let expected ← d.property? .expectedArgument <|>
    (d.property? .expectedType).map fun type => "typeof(" ++ type ++ ")"
  let arg ← tree.argumentAt? d.range
  replaceUnlessEqual tree ("Use " ++ expected) arg.value.range expected

/-- Fills an empty argument list. -/
def addArgumentList (d : Diagnostic) (tree : SyntaxTree) : Option CodeFix := do
  let args ← d.property? .argumentList
  if tree.textOf d.range ≠ "()" then none
  return .replace ("Use (" ++ args ++ ")") d.range ("(" ++ args ++ ")")

/-! ## Moving a member -/

/-- A range of a tree is not empty, and its text is blank. -/
def isBlankLine (tree : SyntaxTree) (r : OffsetRange) : Bool :=
  !r.isEmpty && (tree.textOf r).toList.all isBlank

/-- The lines of a member with one blank line behind it, or else one in front of it. -/
def linesToRemove (tree : SyntaxTree) (lines : OffsetRange) : OffsetRange :=
  let next := lineRange tree.chars lines.stop
  let previous := lineRange tree.chars (lines.start - 1)
  if isBlankLine tree next then ⟨lines.start, next.stop⟩
  else if lines.start > 0 && isBlankLine tree previous then ⟨previous.start, lines.stop⟩
  else lines

/-- The lines of a member as they stand in front of another one: they end with a line feed, and a
blank line follows. -/
def movedText (tree : SyntaxTree) (lines : OffsetRange) : String :=
  let text := tree.textOf lines
  (if endsWith text "\n" then text else text ++ "\n") ++ "\n"

/-- Moves a field or a property with its doc comment in front of another one of its type. -/
def moveMember (d : Diagnostic) (tree : SyntaxTree) : Option CodeFix := do
  let before ← d.property? .moveBefore
  let decl ← tree.containingType? d.range
  let key ← decl.ownMembers.find? fun m => m.range == d.range
  let target ← decl.fieldOrProperty? before
  if !key.isFieldOrProperty || target.fullRange.start > key.fullRange.start then none
  if !startsLine tree.chars key.fullRange.start then none
  let lines : OffsetRange :=
    ⟨lineStart tree.chars key.fullRange.start,
      (lineRange tree.chars (key.fullRange.stop - 1)).stop⟩
  let removed := linesToRemove tree lines
  return ⟨"Move '" ++ key.name.text ++ "' before '" ++ before ++ "'",
    [.insert (lineStart tree.chars target.fullRange.start) (movedText tree lines),
      .delete removed.start removed.stop]⟩

/-! ## Adding an attribute -/

/-- The characters behind the last point of a name. -/
def lastSegment (name : List Char) : List Char :=
  (name.reverse.takeWhile (· != '.')).reverse

/-- The short name of the attribute in a text such as `[N.NameAttribute(…)]`. -/
def attributeName? (text : String) : Option String :=
  match text.toList with
  | '[' :: inner =>
    let name := inner.takeWhile fun c => c != '(' && c != ']'
    if name.length = inner.length then none
    else
      let last := String.ofList (lastSegment (trimBlank name))
      some ((dropEnd? last Attribute.suffix).getD last)
  | _ => none

/-- Adds an attribute on a line of its own above a declaration that has no such attribute. -/
def addAttribute (d : Diagnostic) (tree : SyntaxTree) : Option CodeFix := do
  let text ← d.property? .attributeText
  let member ← tree.memberNamedAt? d.range <|> (tree.typeNamedAt? d.range).map Member.type
  let name ← attributeName? text
  if member.attributes.any fun a => a.shortName? == some name then none
  let start := member.range.start
  if !startsLine tree.chars start then none
  return .insert ("Add " ++ text) (lineStart tree.chars start)
    (String.ofList (indentation tree.chars start) ++ text ++ "\n")

end Fix

namespace FixProvider

/-- The fix of a provider, if the diagnostic carries what it needs and is up to date. -/
def propose : FixProvider → Diagnostic → SyntaxTree → Option CodeFix
  | rename => Fix.rename
  | changeType => Fix.changeType
  | replaceArgument => Fix.replaceArgument
  | addArgumentList => Fix.addArgumentList
  | moveMember => Fix.moveMember
  | addAttribute => Fix.addAttribute

end FixProvider

/-- The fix of the first provider that offers one for a diagnostic of the tree's file. -/
def proposeFix (d : Diagnostic) (tree : SyntaxTree) : Option CodeFix :=
  if d.location.file = tree.file then
    (FixProvider.all.filter fun p => p.rules.contains d.rule).findSome? fun p => p.propose d tree
  else none

/-! ## Fixing many diagnostics at once -/

/-- The fixes that are accepted for a list of diagnostics. -/
structure FixAll where
  /-- The edits of the accepted fixes. -/
  edits : List TextEdit := []
  /-- The diagnostics whose fixes are accepted. -/
  fixed : List Diagnostic := []
  /-- The diagnostics without a fix, or with a fix that conflicts with accepted ones. -/
  pending : List Diagnostic := []
deriving DecidableEq, Repr

namespace FixAll

/-- Takes one more diagnostic. -/
def add (tree : SyntaxTree) (all : FixAll) (d : Diagnostic) : FixAll :=
  match proposeFix d tree with
  | some fix =>
    if fix.conflictsWith all.edits then { all with pending := all.pending ++ [d] }
    else { all with edits := all.edits ++ fix.edits, fixed := all.fixed ++ [d] }
  | none => { all with pending := all.pending ++ [d] }

/-- The text after the accepted fixes. -/
def apply (all : FixAll) (text : String) : Except EditError String := applyEdits text all.edits

end FixAll

/-- Accepts fixes for diagnostics in the order of their ranges and rules. -/
def fixAll (diagnostics : List Diagnostic) (tree : SyntaxTree) : FixAll :=
  (diagnostics.mergeSort Diagnostic.le).foldl (FixAll.add tree) {}

end PropertyLint
