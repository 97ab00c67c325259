/-
# Choosing the method that is called

Among methods of one name, a call chooses one by its number of arguments and by the conversions the
arguments need.  An argument of a parameter's own type scores two, one that has to be converted
scores one, and one whose type, or whose parameter's type, is unknown or a type parameter is
accepted without a score.  The highest score wins, and among equals the method that is declared
first.
-/
import PropertyLint.Symbol.Relation

namespace PropertyLint

/-- What a call passes: the name of the parameter, if it is written, and the type of the value. -/
structure PassedArg where
  name : Option String
  type : Option SymbolId
deriving DecidableEq, Repr

namespace Compilation

/-- The parameters of a method. -/
def paramsOf (c : Compilation) (m : MethodSymbol) : List ParameterSymbol :=
  m.params.filterMap c.parameter?

/-- The parameter that an argument is passed to. -/
def passedTo? (params : List ParameterSymbol) (index : Nat) (arg : PassedArg) :
    Option ParameterSymbol :=
  match arg.name with
  | some name => params.find? fun p => p.name == name
  | none => params[index]?

/-- The score of a value for a parameter; none if it cannot be passed. -/
def conversionScore? (c : Compilation) (source target : Option SymbolId) : Option Nat :=
  match source, target with
  | some source, some target =>
    if c.isTypeParam target then some 0
    else if c.typesEqual source target then some 2
    else if c.isAssignableTo source target then some 1
    else none
  | _, _ => some 0

/-- The score of the arguments from a position on. -/
def argsScore? (c : Compilation) (params : List ParameterSymbol) :
    Nat → List PassedArg → Option Nat
  | _, [] => some 0
  | index, arg :: rest => do
    let param ← passedTo? params index arg
    let score ← c.conversionScore? arg.type param.type
    let more ← c.argsScore? params (index + 1) rest
    return score + more

/-- The score of a call of a method; none if the method cannot be called so. -/
def callScore? (c : Compilation) (args : List PassedArg) (method : SymbolId) : Option Nat := do
  let params := c.paramsOf (← c.method? method)
  let required := (params.filter fun p => !p.hasDefault).length
  if required ≤ args.length ∧ args.length ≤ params.length then c.argsScore? params 0 args
  else none

/-- The better one of the choice so far and the next method. -/
def betterCall (best : Option (Nat × SymbolId)) (next : Nat × SymbolId) : Option (Nat × SymbolId) :=
  match best with
  | some (score, method) => if score < next.1 then some next else some (score, method)
  | none => some next

/-- The method that a call with the given arguments chooses. -/
def pickOverload (c : Compilation) (candidates : List SymbolId) (args : List PassedArg) :
    Option SymbolId :=
  let scored := candidates.filterMap fun m => (c.callScore? args m).map fun score => (score, m)
  (scored.foldl betterCall none).map Prod.snd

end Compilation

end PropertyLint
