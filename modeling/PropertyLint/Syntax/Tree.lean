/-
# Syntax trees

A syntax tree is a source text with its declarations.  The queries find declarations by identity or
by range and read the text; ranges that are no slice of the text read as empty.
-/
import PropertyLint.Syntax.Grammar.Decls
import PropertyLint.Syntax.Token.Lexer
import PropertyLint.Text.Line

namespace PropertyLint

/-- A source file that has been read. -/
structure SyntaxTree where
  file : FileId
  text : String
  root : CompilationUnit

namespace SyntaxTree

/-- Reads a source text. -/
def parse (file : FileId) (text : String) : Except SyntaxError SyntaxTree := do
  let tokens ← tokenize text
  let root ← (Grammar.compilationUnit.outcome ⟨tokens, 0, 0, byteLength text.toList⟩).1
  return ⟨file, text, root⟩

/-! ## Text -/

/-- The characters of the text. -/
def chars (t : SyntaxTree) : List Char := t.text.toList

/-- The text at a range. -/
def textOf (t : SyntaxTree) (r : OffsetRange) : String :=
  String.ofList ((slice? t.chars r.start r.stop).getD [])

/-- A range of this file. -/
def location (t : SyntaxTree) (r : OffsetRange) : Location := ⟨t.file, r⟩

/-! ## Declarations -/

/-- All type declarations, outer types before the types nested in them. -/
def types (t : SyntaxTree) : List TypeDecl := t.root.allTypes

/-- The declaration of a type or one of its own members with an identity. -/
def declarationIn? (id : NodeId) (decl : TypeDecl) : Option Member :=
  if decl.id = id then some (.type decl) else decl.ownMembers.find? fun m => m.id == id

/-- The declaration with an identity. -/
def findDeclaration? (t : SyntaxTree) (id : NodeId) : Option Member :=
  t.types.findSome? (declarationIn? id)

/-- The first of the shortest declarations. -/
def shortest? : List TypeDecl → Option TypeDecl
  | [] => none
  | t :: rest =>
    match shortest? rest with
    | some u => if u.range.length < t.range.length then some u else some t
    | none => some t

/-- The innermost type declaration that a range lies in. -/
def containingType? (t : SyntaxTree) (r : OffsetRange) : Option TypeDecl :=
  shortest? (t.types.filter fun decl => decl.range.contains r)

/-- The member that a range lies in, among those of the innermost type declaration around it that
are no types. -/
def containingMember? (t : SyntaxTree) (r : OffsetRange) : Option Member := do
  (← t.containingType? r).ownMembers.find? fun m => m.range.contains r

end SyntaxTree

end PropertyLint
