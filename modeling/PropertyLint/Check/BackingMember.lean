/-
# Checking backing members

The name, the modifiers, the place and the documentation of a field or property that holds a
dependency property or a key, and the owner and the default value of its registration.
-/
import PropertyLint.Lint.Context
import PropertyLint.Pattern.BackingMember

namespace PropertyLint.Check.BackingMember

/-! ## Modifiers -/

/-- Nothing can change what the member holds: fields are static and readonly, properties are static
and have a plain getter only. -/
def isNeverChanged : Member → Bool
  | .field d => d.modifiers.isStatic && d.modifiers.isReadonly
  | .property d =>
    d.modifiers.isStatic && d.setter?.isNone && d.arrow.isNone &&
      d.getter?.any fun a => a.body.block.isNone && a.body.arrow.isNone
  | _ => true

/-- A registered backing member that can be changed. -/
def readonly (ctx : Context) (member : Member) (backing : BackingMember) : List Finding :=
  if (ctx.model.registrationOf? backing.symbol).isSome && !isNeverChanged member then
    [⟨.backingMemberReadonly, member.name.range, [backing.name, backing.kind.typeName], []⟩]
  else []

/-! ## Name -/

/-- The rule for the name of a backing member. -/
def nameRule : BackingKind → Rule
  | .property => .backingFieldName
  | .key => .keyFieldName

/-- A backing member whose name is not the registered one with its ending. -/
def name (member : Member) (backing : BackingMember) (registered : String) : List Finding :=
  let expected := registered ++ backing.kind.suffix
  if backing.name = expected then []
  else [.withText (nameRule backing.kind) member.name.range [backing.name, registered]
          .expectedName expected]

/-! ## Registration -/

/-- A registration whose owner is not the containing type. -/
def owner (ctx : Context) (r : Registration) : List Finding :=
  match r.owner, r.ownerArg, ctx.containingTypeSymbol? with
  | some owner, some arg, some containing =>
    if ctx.comp.typesEqual owner containing then []
    else
      let expected := ctx.comp.display containing
      [.withText .registeredOwner arg.value.range [expected] .expectedType expected]
  | _, _, _ => []

/-- A default value cannot be stored as the registered type. -/
def isMismatch (ctx : Context) (value : Expr) (registered : SymbolId) : Bool :=
  if ctx.model.isNull value then
    ctx.comp.isValueType registered && !ctx.comp.isKnown registered .nullable
  else (ctx.model.type? value.id).any fun t => !ctx.comp.isAssignableTo t registered

/-- An expression creates an object or an array. -/
def createsInstance : Expr → Bool
  | .create .. | .createArray .. => true
  | _ => false

/-- A default value that is created once and shared as a reference. -/
def isShared (ctx : Context) (value : Expr) : Bool :=
  createsInstance value && (ctx.model.type? value.id).any ctx.comp.isReferenceType

/-- A default value of a wrong type, or one that is shared. -/
def defaultValue (ctx : Context) (backing : BackingMember) (r : Registration) : List Finding :=
  match r.defaultValue, r.type with
  | some value, some registered =>
    let value := value.unparenthesized
    if ctx.model.knownMember? value = some .unsetValue then []
    else if isMismatch ctx value registered then
      [⟨.defaultValueType, value.range, [backing.name, ctx.comp.display registered], []⟩]
    else if isShared ctx value then [⟨.sharedDefaultValue, value.range, [backing.name], []⟩]
    else []
  | _, _ => []

/-- What is wrong with the registration that a member starts with. -/
def registration (ctx : Context) (member : Member) (backing : BackingMember) : List Finding :=
  match member.startValue?.bind ctx.model.registrationAt? with
  | some r => owner ctx r ++ defaultValue ctx backing r
  | none => []

/-! ## Order and documentation -/

/-- A key that stands behind the member that starts with its dependency property. -/
def order (ctx : Context) (member : Member) (backing : BackingMember) : List Finding :=
  if backing.kind = .key then
    match ctx.model.memberForKey? backing with
    | some reader =>
      if reader.range.start < member.range.start then
        [.withText .keyDeclaredFirst member.range [backing.name, reader.name.text]
          .moveBefore reader.name.text]
      else []
    | none => []
  else []

/-- A visible dependency property that has a wrapper but no doc comment. -/
def documentation (ctx : Context) (member : Member) (backing : BackingMember)
    (registered : String) : List Finding :=
  if backing.kind = .property && member.header.doc.isNone then
    let isVisible := (ctx.comp.symbol? backing.symbol).any fun s =>
      s.accessibility == .public_ || s.accessibility == .internal
    let wrapper := ctx.visit.containingType.bind fun t => t.fieldOrProperty? registered
    match isVisible, wrapper with
    | true, some (.property _) => [⟨.documentBackingMember, member.name.range, [], []⟩]
    | _, _ => []
  else []

/-! ## The check -/

/-- Checks a field or a property. -/
def run (ctx : Context) : Polled (List Finding) := do
  match ctx.node.member?, ctx.containingSymbol?.bind ctx.comp.backingMember? with
  | some member, some backing =>
    let modifiers := readonly ctx member backing
    if !backing.isStatic then return modifiers
    Polled.poll
    let registered := ctx.model.registeredName? backing
    let names := (registered.map (name member backing)).getD []
    let docs := (registered.map (documentation ctx member backing)).getD []
    return modifiers ++ names ++ registration ctx member backing ++ order ctx member backing ++ docs
  | _, _ => return []

end PropertyLint.Check.BackingMember
