/-
# Severities

A finding is an error or a warning; a rule may also be off.
-/

namespace PropertyLint

/-- The severity of a reported finding. -/
inductive Severity where
  | error | warning
deriving DecidableEq, Repr

namespace Severity

/-- The name of a severity. -/
def name : Severity → String
  | error => "error"
  | warning => "warning"

/-- The finding says that the code fails when it runs. -/
def isError : Severity → Bool
  | error => true
  | warning => false

end Severity

/-- How the findings of a rule are reported. -/
inductive RuleSeverity where
  | off | warn | error
deriving DecidableEq, Repr

namespace RuleSeverity

/-- The name of a rule severity. -/
def name : RuleSeverity → String
  | off => "off"
  | warn => "warn"
  | error => "error"

/-- All rule severities. -/
def all : List RuleSeverity := [off, warn, error]

/-- The rule severity with a name. -/
def ofName? (s : String) : Option RuleSeverity := all.find? fun r => r.name == s

/-- The rule severity that a word of a configuration stands for; `none` and `warning` are other
words for `off` and `warn`. -/
def ofWord? (s : String) : Option RuleSeverity :=
  if s = "none" then some off else if s = "warning" then some warn else ofName? s

/-- Findings of the rule are reported. -/
def isEnabled : RuleSeverity → Bool
  | off => false
  | _ => true

/-- The severity of the rule's findings, unless the rule is off. -/
def severity? : RuleSeverity → Option Severity
  | off => none
  | warn => some .warning
  | error => some .error

/-- The rule severity that reports findings with a severity. -/
def ofSeverity : Severity → RuleSeverity
  | .error => error
  | .warning => warn

@[simp] theorem severity?_ofSeverity (s : Severity) : (ofSeverity s).severity? = some s := by
  cases s <;> rfl

theorem isEnabled_eq_isSome (r : RuleSeverity) : r.isEnabled = r.severity?.isSome := by
  cases r <;> rfl

end RuleSeverity

end PropertyLint
