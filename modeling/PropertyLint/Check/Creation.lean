/-
# Checking resource keys and commands

A resource key or a routed command that a static member starts with names the member and the type
that declare it.
-/
import PropertyLint.Lint.Context

namespace PropertyLint.Check.Creation

/-- A creation that a static member starts with. -/
structure Start where
  creation : Expr
  args : ArgumentList Expr
  member : Member
  owner : SymbolId

/-- The creation of one of the known types that a static member starts with. -/
def start? (ctx : Context) (types : List KnownType) : Option Start := do
  match ctx.node with
  | .creation creation@(.create _ type (some args)) =>
    let name ← type.simpleName?
    if !types.any fun k => k.simpleName == name then none
    let known ← ctx.comp.classify (← ctx.model.type? creation.id)
    if !types.contains known then none
    return ⟨creation, args, ← ctx.initializedMember? creation, ← ctx.containingTypeSymbol?⟩
  | _ => none

/-- The argument for a parameter names another type than the owner. -/
def ownerArgument (ctx : Context) (s : Start) (ctor : SymbolId) (param : String) (rule : Rule) :
    List Finding :=
  match ctx.comp.argumentFor? ctor s.args param with
  | some arg =>
    if ctx.namesOtherType s.owner arg then
      let expected := ctx.comp.typeOfText s.owner
      [.withText rule arg.value.range [expected] .expectedArgument expected]
    else []
  | none => []

/-- The argument for a parameter is a text other than the name of the member. -/
def nameArgument (ctx : Context) (s : Start) (ctor : SymbolId) (param : String) (rule : Rule) :
    List Finding :=
  match ctx.comp.argumentFor? ctor s.args param with
  | some arg =>
    match ctx.model.constantText? arg.value with
    | some text =>
      if text = s.member.name.text then []
      else
        let expected := nameofText s.member
        [.withText rule arg.value.range [expected] .expectedArgument expected]
    | none => []
  | none => []

/-! ## Resource keys -/

/-- A resource key without arguments. -/
def emptyKey (ctx : Context) (s : Start) : Finding :=
  let expected := ctx.comp.typeOfText s.owner
  .withText .resourceKeyType s.args.range [expected] .argumentList
    (expected ++ ", " ++ nameofText s.member)

/-- What is wrong with a resource key. -/
def resourceKey (ctx : Context) (s : Start) : List Finding :=
  if s.args.args.isEmpty then [emptyKey ctx s]
  else match ctx.model.symbol? s.creation.id with
    | some ctor =>
      ownerArgument ctx s ctor "typeInTargetAssembly" .resourceKeyType ++
        nameArgument ctx s ctor "resourceId" .resourceKeyMember
    | none => []

/-- Checks the creation of a resource key. -/
def runResourceKey (ctx : Context) : Polled (List Finding) :=
  return ((start? ctx [.componentResourceKey]).map (resourceKey ctx)).getD []

/-! ## Commands -/

/-- What is wrong with a command. -/
def command (ctx : Context) (s : Start) : List Finding :=
  match ctx.model.symbol? s.creation.id with
  | some ctor =>
    nameArgument ctx s ctor "name" .commandName ++
      ownerArgument ctx s ctor "ownerType" .commandOwner
  | none => []

/-- Checks the creation of a command. -/
def runCommand (ctx : Context) : Polled (List Finding) :=
  return ((start? ctx [.routedCommand, .routedUICommand]).map (command ctx)).getD []

end PropertyLint.Check.Creation
