/-
# Cancellation

A host asks a running analysis to stop through a cancellation token.  Tokens are handles: the copies
of a token share one flag, and a flag that is raised stays raised (`TokenPool`).  What an analysis
sees of its token is the sequence of answers it gets at its checkpoints; a computation of
type `Polled α` takes that sequence as input and ends at the first checkpoint that says stop.
-/

namespace PropertyLint

/-- The analysis was cancelled. -/
inductive Cancelled where
  | cancelled
deriving DecidableEq, Repr

/-- The message of a cancelled analysis. -/
def Cancelled.message : Cancelled → String
  | cancelled => "analysis was cancelled"

/-! ## Tokens -/

/-- Cancellation tokens, by their numbers in order of creation. -/
structure TokenPool where
  /-- The flag of each token. -/
  flags : List Nat
  /-- The flags that are raised. -/
  raised : List Nat
  /-- The number of flags in use. -/
  flagCount : Nat
deriving Repr

namespace TokenPool

/-- A pool with one token. -/
def initial : TokenPool := ⟨[0], [], 1⟩

/-- A new token with a flag of its own. -/
def fresh (p : TokenPool) : TokenPool := ⟨p.flags ++ [p.flagCount], p.raised, p.flagCount + 1⟩

/-- A new token that shares the flag of another one. -/
def clone (p : TokenPool) (token : Nat) : TokenPool :=
  match p.flags[token]? with
  | some flag => { p with flags := p.flags ++ [flag] }
  | none => p

/-- Raises the flag of a token. -/
def cancel (p : TokenPool) (token : Nat) : TokenPool :=
  match p.flags[token]? with
  | some flag => { p with raised := flag :: p.raised }
  | none => p

/-- For every token, whether its flag is raised. -/
def states (p : TokenPool) : List Bool := p.flags.map fun flag => p.raised.contains flag

end TokenPool

/-- The answer of a checkpoint. -/
def checkpoint (isCancelled : Bool) : Except Cancelled Unit :=
  if isCancelled then .error .cancelled else .ok ()

/-! ## Computations with checkpoints -/

/-- The answers of a token at the checkpoints of one run: `true` at a checkpoint says stop. -/
abbrev Polls := Nat → Bool

/-- The token is never cancelled. -/
def Polls.never : Polls := fun _ => false

/-- The token is cancelled before the run. -/
def Polls.always : Polls := fun _ => true

/-- A computation that asks its token at checkpoints; it counts the checkpoints it has passed. -/
abbrev Polled (α : Type) := ReaderT Polls (StateT Nat (Except Cancelled)) α

namespace Polled

/-- Asks the token, and ends the computation if it is cancelled. -/
def poll : Polled Unit := do
  let passed ← get
  set (passed + 1)
  if (← read) passed then throw .cancelled

/-- The result of a computation whose token answers in the given way. -/
def result {α : Type} (p : Polled α) (polls : Polls) : Except Cancelled α :=
  (p.run polls).run' 0

end Polled

end PropertyLint
