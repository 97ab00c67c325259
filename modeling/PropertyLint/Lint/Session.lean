/-
# Sessions

A session is the work on one file of a project: the file is analyzed, and fixes and other edits
change its text.  The diagnostics of the last analysis are kept while the text changes, so they may
be out of date; a fix is offered on the text as it is.  Edits that cannot be applied, or that lead
to a text that cannot be read, leave the session as it was.
-/
import PropertyLint.Fix.Provider
import PropertyLint.Lint.Analysis

namespace PropertyLint

/-- Why the text of a session cannot be changed. -/
inductive ChangeError where
  | edits (cause : EditError)
  | text (cause : SyntaxError)
deriving DecidableEq, Repr

/-- The work on one file of a project. -/
structure Session where
  /-- The file and its project. -/
  model : Model
  config : LintConfig := .empty
  /-- The diagnostics of the last analysis. -/
  diagnostics : List Diagnostic := []

namespace Session

/-- The tree of the file. -/
def tree (s : Session) : SyntaxTree := s.model.tree

/-- The session on another text of the file, which may hold markers. -/
def withText (s : Session) (text : String) : Except ChangeError Session := do
  let (plain, offsets) := stripMarkers text
  let file := s.tree.file
  let tree ← (SyntaxTree.parse file plain).mapError .text
  let project := s.model.project
  let changed :=
    Project.ofTrees (project.trees.set file tree) (project.markers.set file offsets)
  return { s with model := ⟨changed, tree⟩ }

/-- Applies edits to the text of the file; the new text comes with the session on it. -/
def edit (s : Session) (edits : List TextEdit) : Except ChangeError (String × Session) := do
  let text ← (applyEdits s.tree.text edits).mapError .edits
  return (text, ← s.withText text)

/-- Analyzes the file. -/
def analyze (s : Session) (polls : Polls) : Except Cancelled Session := do
  let diagnostics ← (analyzeTree s.config s.model).result polls
  return { s with diagnostics }

/-- The fix that is offered now for a diagnostic. -/
def fix? (s : Session) (d : Diagnostic) : Option CodeFix := proposeFix d s.tree

/-- The fixes that are accepted now for all diagnostics of the session. -/
def fixAll (s : Session) : FixAll := PropertyLint.fixAll s.diagnostics s.tree

end Session

end PropertyLint
