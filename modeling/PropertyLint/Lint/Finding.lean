/-
# Findings and diagnostics

A check reports findings.  A finding becomes a diagnostic when the file and the configured severity
are known.  Findings carry named texts that tell a fix what to write.
-/
import PropertyLint.Lint.Rule
import PropertyLint.Text.Range

namespace PropertyLint

/-- What a text that a finding carries is for. -/
inductive PropertyKey where
  /-- The name that a declaration should have. -/
  | expectedName
  /-- The type that a declaration should have. -/
  | typeText
  /-- The type that an argument should name. -/
  | expectedType
  /-- The expression that an argument should be. -/
  | expectedArgument
  /-- The member that a declaration should stand in front of. -/
  | moveBefore
  /-- An attribute with its brackets. -/
  | attributeText
  /-- The arguments of an empty argument list. -/
  | argumentList
deriving DecidableEq, Repr

/-- The name of a key. -/
def PropertyKey.name : PropertyKey → String
  | expectedName => "ExpectedName"
  | typeText => "TypeSyntax"
  | expectedType => "ExpectedType"
  | expectedArgument => "ExpectedArgument"
  | moveBefore => "MoveBefore"
  | attributeText => "AttributeText"
  | argumentList => "ArgumentList"

/-- What a check has found. -/
structure Finding where
  rule : Rule
  range : OffsetRange
  /-- The arguments of the rule's message. -/
  args : List String := []
  /-- Texts for fixes. -/
  properties : List (String × String) := []
deriving DecidableEq, Repr

/-- A finding with one text for a fix. -/
def Finding.withText (rule : Rule) (range : OffsetRange) (args : List String) (key : PropertyKey)
    (text : String) : Finding :=
  ⟨rule, range, args, [(key.name, text)]⟩

/-- A reported finding. -/
structure Diagnostic where
  rule : Rule
  severity : Severity
  location : Location
  message : String
  args : List String
  properties : List (String × String)
deriving DecidableEq, Repr

/-- The diagnostic of a finding. -/
def Finding.toDiagnostic (f : Finding) (file : FileId) (severity : Severity) : Diagnostic where
  rule := f.rule
  severity := severity
  location := ⟨file, f.range⟩
  message := f.rule.message f.args
  args := f.args
  properties := f.properties

namespace Diagnostic

/-- The range of a diagnostic. -/
def range (d : Diagnostic) : OffsetRange := d.location.range

/-- The text that a diagnostic carries for a fix. -/
def property? (d : Diagnostic) (key : PropertyKey) : Option String := d.properties.lookup key.name

/-- A diagnostic in one line. -/
def display (d : Diagnostic) : String :=
  d.severity.name ++ "[" ++ d.rule.id ++ "] " ++ d.message

/-- Order by range, then by rule. -/
def le (a b : Diagnostic) : Bool :=
  a.range.lt b.range || (a.range == b.range && a.rule.number ≤ b.rule.number)

/-- Order by range, then by rule, then by message. -/
def leWithMessage (a b : Diagnostic) : Bool :=
  a.range.lt b.range || (a.range == b.range && (a.rule.number < b.rule.number ||
    (a.rule.number == b.rule.number && a.message ≤ b.message)))

end Diagnostic

end PropertyLint
