/-
# Analysis

The analysis of a source file runs the checks at every visited node and sorts what they find.  The
configuration decides which findings are kept and with which severity; a check that cannot report
an enabled rule is left out.  A cancelled analysis has no result.
-/
import PropertyLint.Check
import PropertyLint.Config.Basic

namespace PropertyLint

namespace LintConfig

/-- Some rule of the check is enabled. -/
def enables (config : LintConfig) (check : Check) : Bool := check.rules.any config.isEnabled

/-- The diagnostic of a finding, unless its rule is off. -/
def diagnostic? (config : LintConfig) (file : FileId) (f : Finding) : Option Diagnostic :=
  (config.severity f.rule).severity?.map fun severity => f.toDiagnostic file severity

/-- The checks that run at nodes of a kind. -/
def checksFor (config : LintConfig) (kind : NodeKind) : List Check :=
  Check.all.filter fun check => check.kinds.contains kind && config.enables check

end LintConfig

/-- What the checks report at a node, one check after the other. -/
def analyzeNode (config : LintConfig) (ctx : Context) : Polled (List Diagnostic) := do
  let reports ← (config.checksFor ctx.node.kind).mapM fun check => do
    Polled.poll
    let findings ← check.run ctx
    return findings.filterMap (config.diagnostic? ctx.model.tree.file)
  return reports.flatten

/-- What the checks report in a file, in order. -/
def analyzeTree (config : LintConfig) (model : Model) : Polled (List Diagnostic) := do
  let reports ← model.tree.visits.mapM fun visit => analyzeNode config ⟨visit, model⟩
  return reports.flatten.mergeSort Diagnostic.leWithMessage

end PropertyLint
