/-
# What a check sees

A check is given one visited node and the model of its file.  Checks share the statements around a
call and the member that an expression initializes.
-/
import PropertyLint.Binding.Project
import PropertyLint.Lint.Cancellation
import PropertyLint.Lint.Finding
import PropertyLint.Pattern.Accessor
import PropertyLint.Syntax.Visit

namespace PropertyLint

/-- A visited node and the model of its file. -/
structure Context where
  visit : Visit
  model : Model

namespace Context

/-- The symbols of the project. -/
def comp (ctx : Context) : Compilation := ctx.model.comp

/-- The node itself. -/
def node (ctx : Context) : CheckedNode := ctx.visit.node

/-- The innermost declaration around the node, or the node itself if it is one. -/
def declaration? (ctx : Context) : Option Member :=
  ctx.node.member? <|> ctx.visit.containingMember <|> ctx.visit.containingType.map Member.type

/-- The symbol of the innermost declaration. -/
def containingSymbol? (ctx : Context) : Option SymbolId :=
  ctx.declaration?.bind fun m => ctx.model.declared? m.id

/-- The symbol of the innermost type declaration. -/
def containingTypeSymbol? (ctx : Context) : Option SymbolId :=
  ctx.visit.containingType.bind fun t => ctx.model.declared? t.id

end Context

/-! ## What checks share -/

/-- The statements of an accessor's block other than those that hold the call. -/
def extraStatements (body : Body) (call : Expr) : List Stmt :=
  ((body.block.map Block.statements).getD []).filter fun s => !s.holds call.id

/-- A finding for each of the statements. -/
def sideEffects (rule : Rule) (statements : List Stmt) : List Finding :=
  statements.map fun s => ⟨rule, s.range, [], []⟩

/-- The static member that starts with exactly an expression. -/
def Context.initializedMember? (ctx : Context) (e : Expr) : Option Member := do
  let member ← ctx.visit.containingMember
  let value ← member.startValue?
  if member.modifiers.isStatic && value.unparenthesized.id == e.id then some member else none

/-- `nameof(M)` for a member. -/
def nameofText (member : Member) : String := "nameof(" ++ member.name.text ++ ")"

/-- An argument names another type than the expected one, or none. -/
def Context.namesOtherType (ctx : Context) (expected : SymbolId) (arg : Argument Expr) : Bool :=
  !(ctx.model.typeOfArgument? arg.value).any fun t => ctx.comp.typesEqual t expected

end PropertyLint
