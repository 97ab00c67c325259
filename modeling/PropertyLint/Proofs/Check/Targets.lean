/-
# What findings are about

A finding whose fix replaces a text is about the name of a member, about a declared type or about an
argument, and it has the range of that (`Check.run_located`).  Which one it is follows from the rule
and from the values that the check has looked at (`Context.Reports`).
-/
import PropertyLint.Fix.Provider
import PropertyLint.Proofs.Check.Carried
import PropertyLint.Proofs.Check.Rules

namespace PropertyLint

/-- What a fix can replace: the name of a member, a declared type or the value of an argument. -/
inductive Target where
  | name (decl : Member)
  | type (type : TypeRef)
  | argument (arg : Argument Expr)

namespace Target

/-- The range of the text. -/
def range : Target → OffsetRange
  | name m => m.name.range
  | type t => t.range
  | argument a => a.value.range

/-- The provider of fixes that replaces such a text. -/
def provider : Target → FixProvider
  | name _ => .rename
  | type _ => .changeType
  | argument _ => .replaceArgument

end Target

/-- The rules whose fixes replace a text. -/
def replacingRules : List Rule :=
  FixProvider.rename.rules ++ FixProvider.changeType.rules ++ FixProvider.replaceArgument.rules

/-- The parameter of a constructor whose argument a rule is about. -/
def creationParam? : Rule → Option String
  | .commandName => some "name"
  | .commandOwner => some "ownerType"
  | .resourceKeyType => some "typeInTargetAssembly"
  | .resourceKeyMember => some "resourceId"
  | _ => none

/-- A rule is reported at a node about a name, a type or an argument. -/
inductive Context.Reports (ctx : Context) : Rule → Target → Prop where
  /-- The name of the member itself. -/
  | name {rule : Rule} {m : Member} : ctx.node = .member m → m.isType = false →
      rule ∈ FixProvider.rename.rules → Reports ctx rule (.name m)
  | wrapperType {p : PropertyDecl} : ctx.node = .member (.property p) →
      Reports ctx .wrapperType (.type p.type)
  /-- The type of the value that the accessor gets or sets. -/
  | accessorType {m : MethodDecl} {direction : Direction} {t : TypeRef} :
      ctx.node = .member (.method m) → Check.AttachedAccessor.valueType? m direction = some t →
      Reports ctx .accessorType (.type t)
  /-- The owner that the registration of the member passes. -/
  | registeredOwner {m : Member} {e : Expr} {r : Registration} {a : Argument Expr} :
      ctx.node = .member m → m.isType = false → m.startValue? = some e →
      ctx.model.registrationAt? e = some r → r.ownerArg = some a →
      Reports ctx .registeredOwner (.argument a)
  /-- The argument of an attribute of the accessor. -/
  | browsableArgument {m : MethodDecl} {a : Argument Expr} : ctx.node = .member (.method m) →
      Check.AttachedAccessor.browsableArgument? m = some a →
      Reports ctx .browsableArgument (.argument a)
  /-- An argument of the conversion attribute of the type. -/
  | valueConversionTypes {d : TypeDecl} {source target : Option (Argument Expr)}
      {a : Argument Expr} : ctx.node = .member (.type d) →
      Check.Converter.conversionArguments? ctx d = some (source, target) →
      source = some a ∨ target = some a → Reports ctx .valueConversionTypes (.argument a)
  /-- The argument of the attribute of a property. -/
  | constructorArgument {b : Attribute} {d : TypeDecl} {a : Argument Expr} :
      ctx.node = .attr b → ctx.visit.containingType = some d →
      b.use? = some (.constructorArgument a) → Reports ctx .constructorArgument (.argument a)
  /-- The argument of the attribute of a type. -/
  | markupReturnType {b : Attribute} {d : TypeDecl} {a : Argument Expr} :
      ctx.node = .attr b → ctx.visit.containingType = some d →
      b.use? = some (.markupReturnType a) → Reports ctx .markupReturnType (.argument a)
  /-- The argument that the creation passes for a parameter. -/
  | creation {rule : Rule} {e : Expr} {l : ArgumentList Expr} {ctor : SymbolId} {param : String}
      {a : Argument Expr} : ctx.node = .creation e → e.argumentList? = some l →
      ctx.model.symbol? e.id = some ctor → creationParam? rule = some param →
      ctx.comp.argumentFor? ctor l param = some a → Reports ctx rule (.argument a)

/-- A rule is fixed by the provider for what it is reported about. -/
theorem Context.Reports.rule_mem {ctx : Context} {rule : Rule} {target : Target}
    (h : ctx.Reports rule target) : rule ∈ target.provider.rules := by
  cases h with
  | name _ _ hrule => exact hrule
  | creation _ _ _ hparam _ =>
    cases rule <;> simp [creationParam?, Target.provider, FixProvider.rules] at hparam ⊢
  | _ => simp [Target.provider, FixProvider.rules]

/-- A finding of a rule whose fix replaces a text has the range of what the rule is reported about,
unless it asks for arguments that are missing. -/
def Context.Locates (ctx : Context) (f : Finding) : Prop :=
  f.rule ∈ replacingRules → (∃ target, ctx.Reports f.rule target ∧ f.range = target.range) ∨
    ∃ text, f.properties = [(PropertyKey.argumentList.name, text)]

/-- All the findings have the range of what they are about. -/
def AllLocated (ctx : Context) (fs : List Finding) : Prop := ∀ f ∈ fs, ctx.Locates f

section

variable {ctx : Context} {fs fs' : List Finding} {f : Finding} {rules : List Rule}

@[simp] theorem allLocated_nil : AllLocated ctx [] := List.forall_mem_nil _

@[simp] theorem allLocated_append :
    AllLocated ctx (fs ++ fs') ↔ AllLocated ctx fs ∧ AllLocated ctx fs' :=
  List.forall_mem_append

@[simp] theorem allLocated_cons :
    AllLocated ctx (f :: fs) ↔ ctx.Locates f ∧ AllLocated ctx fs := List.forall_mem_cons

@[simp] theorem allLocated_getD {o : Option (List Finding)} :
    AllLocated ctx (o.getD []) ↔ ∀ fs, o = some fs → AllLocated ctx fs := by
  cases o <;> simp

@[simp] theorem allLocated_toList {o : Option Finding} :
    AllLocated ctx o.toList ↔ ∀ f, o = some f → ctx.Locates f := by
  cases o <;> simp [AllLocated]

theorem Context.locates_of_not_mem (h : f.rule ∉ replacingRules) : ctx.Locates f :=
  fun hrule => absurd hrule h

/-- Findings of other rules replace nothing. -/
theorem AllAbout.located (h : AllAbout rules fs) (hrules : ∀ r ∈ rules, r ∉ replacingRules) :
    AllLocated ctx fs := fun f hf => ctx.locates_of_not_mem (hrules _ (h f hf))

theorem Context.Reports.locates {target : Target} {args : List String} {key : PropertyKey}
    {text : String} {rule : Rule} (h : ctx.Reports rule target) :
    ctx.Locates (.withText rule target.range args key text) := fun _ => .inl ⟨target, h, rfl⟩

end

namespace Check

/-! ## Backing members -/

namespace BackingMember

variable {ctx : Context} {member : Member} {backing : PropertyLint.BackingMember}

theorem name_located (hnode : ctx.node = .member member) (htype : member.isType = false)
    (registered : String) : AllLocated ctx (name member backing registered) := by
  unfold name
  dsimp only
  split
  · simp
  · rw [allLocated_cons]
    refine ⟨Context.Reports.locates (.name hnode htype ?_), allLocated_nil⟩
    cases backing.kind <;> simp [nameRule, FixProvider.rules]

theorem owner_located {r : Registration}
    (h : ∀ a, r.ownerArg = some a → ctx.Reports .registeredOwner (.argument a)) :
    AllLocated ctx (owner ctx r) := by
  unfold owner
  split
  · rename_i arg _ _ harg _
    split
    · simp
    · rw [allLocated_cons]
      exact ⟨(h arg harg).locates, allLocated_nil⟩
  · simp

theorem registration_located (hnode : ctx.node = .member member)
    (htype : member.isType = false) : AllLocated ctx (registration ctx member backing) := by
  unfold registration
  split
  · rename_i r hr
    obtain ⟨e, he, hr⟩ := Option.bind_eq_some_iff.1 hr
    rw [allLocated_append]
    refine ⟨owner_located fun a ha => .registeredOwner hnode htype he hr ha, ?_⟩
    have hvalue : Reported Set.univ [.defaultValueType, .sharedDefaultValue]
        (defaultValue ctx backing r) := defaultValue_reported ctx backing fun _ _ => trivial
    exact (hvalue.about (List.Subset.refl _)).located (by decide)
  · simp

theorem located {fs : List Finding} (hkind : ctx.node.kind ∈ Check.backingMember.kinds)
    (h : (run ctx).Gives fs) : AllLocated ctx fs := by
  unfold run at h
  split at h
  · rename_i member backing hmember _
    have hnode : ctx.node = .member member := by
      cases hnode : ctx.node <;> simp [hnode, CheckedNode.member?] at hmember
      rw [hmember]
    have htype : member.isType = false := by
      rw [hnode] at hkind
      cases member <;> simp [CheckedNode.kind, kinds, Member.isType] at hkind ⊢
    have hreadonly : AllLocated ctx (readonly ctx member backing) :=
      ((readonly_reported ctx member backing).about (List.Subset.refl _)).located (by decide)
    dsimp only at h
    split at h
    · obtain rfl := h.pure
      exact hreadonly
    · obtain ⟨-, -, h⟩ := h.bind
      obtain rfl := h.pure
      have hdocs (registered : String) :
          AllLocated ctx (documentation ctx member backing registered) :=
        ((documentation_reported ctx member backing registered).about
          (List.Subset.refl _)).located (by decide)
      have horder : AllLocated ctx (order ctx member backing) :=
        ((order_reported ctx member backing).about (List.Subset.refl _)).located (by decide)
      simp [hreadonly, horder, hdocs, name_located hnode htype, registration_located hnode htype]
  · obtain rfl := h.pure
    simp

end BackingMember

/-! ## Wrappers -/

namespace Wrapper

variable {ctx : Context} {property : PropertyDecl}

theorem name_located (hnode : ctx.node = .member (.property property)) (r : Registration) :
    AllLocated ctx (name property r) := by
  unfold name
  split
  · split
    · simp
    · rw [allLocated_cons]
      have hreports : ctx.Reports .wrapperName (.name (.property property)) :=
        .name hnode rfl (by decide)
      exact ⟨hreports.locates, allLocated_nil⟩
  · simp

theorem type_located (hnode : ctx.node = .member (.property property)) (r : Registration) :
    AllLocated ctx (type ctx property r) := by
  unfold type
  dsimp only
  split
  · split
    · simp
    · rw [allLocated_cons]
      exact ⟨(Context.Reports.wrapperType hnode).locates, allLocated_nil⟩
  · simp

theorem accessorEffects_located {accessor : Option Accessor} {access : Option AccessorCall}
    {fs : List Finding} (h : (accessorEffects accessor access).Gives fs) : AllLocated ctx fs := by
  unfold accessorEffects at h
  split at h
  · obtain ⟨-, -, h⟩ := h.bind
    obtain rfl := h.pure
    exact (sideEffects_about _ _).located (by decide)
  · obtain rfl := h.pure
    simp

theorem located {fs : List Finding} (h : (run ctx).Gives fs) : AllLocated ctx fs := by
  unfold run at h
  split at h
  · rename_i property hnode
    dsimp only at h
    split at h
    · unfold wrapper at h
      obtain ⟨getEffects, hget, h⟩ := h.bind
      obtain ⟨setEffects, hset, h⟩ := h.bind
      obtain rfl := h.pure
      have hsame (get set : Option Registration) :
          AllLocated ctx (sameProperty property get set) :=
        ((sameProperty_reported property get set).about (List.Subset.refl _)).located (by decide)
      have hsetter (setter : Option AccessorCall) : AllLocated ctx (setValue setter) := by
        have hreported : Reported Set.univ [.useSetValue] (setValue setter) :=
          setValue_reported fun _ _ => trivial
        exact (hreported.about (List.Subset.refl _)).located (by decide)
      simp [hsame, hsetter, name_located hnode, type_located hnode,
        accessorEffects_located hget, accessorEffects_located hset]
    · obtain rfl := h.pure
      simp
  · obtain rfl := h.pure
    simp

end Wrapper

/-! ## Accessors of attached properties -/

namespace AttachedAccessor

variable {ctx : Context} {method : MethodDecl} {direction : Direction}

section
variable (hnode : ctx.node = .member (.method method))
include hnode

theorem name_located (registered : String) : AllLocated ctx (name method direction registered) := by
  unfold name
  dsimp only
  split
  · simp
  · rw [allLocated_cons]
    have hreports : ctx.Reports .accessorName (.name (.method method)) :=
      .name hnode rfl (by decide)
    exact ⟨hreports.locates, allLocated_nil⟩

theorem type_located (registered : SymbolId) :
    AllLocated ctx (type ctx method direction registered) := by
  unfold type
  split
  · rename_i written hwritten
    split
    · dsimp only
      split
      · simp
      · rw [allLocated_cons]
        exact ⟨(Context.Reports.accessorType hnode hwritten).locates, allLocated_nil⟩
    · simp
  · simp

theorem browsable_located (element : SymbolId) : AllLocated ctx (browsable ctx method element) := by
  unfold browsable
  dsimp only
  split
  · rw [allLocated_cons]
    have hrule : Rule.addBrowsable ∉ replacingRules := by decide
    exact ⟨ctx.locates_of_not_mem hrule, allLocated_nil⟩
  · rename_i arg harg
    split
    · split
      · simp
      · rw [allLocated_cons]
        exact ⟨(Context.Reports.browsableArgument hnode harg).locates, allLocated_nil⟩
    · simp

theorem registration_located (element : SymbolId) (r : Registration) :
    AllLocated ctx (registration ctx method direction element r) := by
  unfold registration
  split <;> simp [type_located hnode, browsable_located hnode]

end

theorem located {fs : List Finding} (h : (run ctx).Gives fs) : AllLocated ctx fs := by
  unfold run at h
  split at h
  · rename_i method hnode
    split at h
    · unfold accessor at h
      obtain ⟨-, -, h⟩ := h.bind
      obtain rfl := h.pure
      have hdocs : AllLocated ctx (documentation ctx method) :=
        ((documentation_reported ctx method).about (List.Subset.refl _)).located (by decide)
      have heffects (statements : List Stmt) :
          AllLocated ctx (sideEffects .accessorSideEffects statements) :=
        (sideEffects_about _ _).located (by decide)
      simp [hdocs, heffects, name_located hnode, registration_located hnode]
    · obtain rfl := h.pure
      simp
  · obtain rfl := h.pure
    simp

end AttachedAccessor

/-! ## Arguments of attributes -/

namespace AttributeArguments

variable {ctx : Context} {b : Attribute}

theorem use_located {u : AttributeUse} {f : Finding} (hnode : ctx.node = .attr b)
    (hu : b.use? = some u) (h : use ctx u = some f) : ctx.Locates f := by
  cases u with
  | constructorArgument arg =>
    unfold use constructorArgument at h
    obtain ⟨member, -, h⟩ := Option.bind_eq_some_iff.1 h
    split at h
    · simp only [Option.bind_eq_bind, Option.bind_eq_some_iff] at h
      obtain ⟨actual, -, d, hd, symbol, -, expected, -, h⟩ := h
      split at h
      · simp at h
      · obtain rfl := Option.some.inj h
        exact (Context.Reports.constructorArgument hnode hd hu).locates
    · simp at h
  | markupReturnType arg =>
    simp [use, markupReturnType, Option.bind_eq_some_iff] at h
    obtain ⟨_, -, -, _, -, d, hd, _, -, -, rfl⟩ := h
    exact (Context.Reports.markupReturnType hnode hd hu).locates
  | markupHandler handler arg =>
    unfold use markupHandler at h
    simp only [Option.bind_eq_bind, Option.bind_eq_some_iff] at h
    obtain ⟨name, -, type, -, h⟩ := h
    split at h
    · simp at h
    · obtain rfl := Option.some.inj h
      have hrule : handlerRule handler ∉ replacingRules := by cases handler <;> decide
      exact ctx.locates_of_not_mem hrule
  | templatePart arg =>
    simp [use, templatePart, Option.bind_eq_some_iff] at h
    obtain ⟨_, -, -, rfl⟩ := h
    have hrule : Rule.templatePartPrefix ∉ replacingRules := by decide
    exact ctx.locates_of_not_mem hrule
  | xmlnsDefinition arg =>
    simp [use, xmlnsDefinition, Option.bind_eq_some_iff] at h
    obtain ⟨_, -, -, rfl⟩ := h
    have hrule : Rule.xmlnsNamespace ∉ replacingRules := by decide
    exact ctx.locates_of_not_mem hrule
  | _ => simp [use] at h

theorem located {fs : List Finding} (h : (run ctx).Gives fs) : AllLocated ctx fs := by
  unfold run at h
  split at h
  · rename_i b hnode
    split at h
    · rename_i u hu
      obtain rfl := h.pure
      split
      · exact allLocated_toList.2 fun f hf => use_located hnode hu hf
      · simp
    · obtain rfl := h.pure
      simp
  · obtain rfl := h.pure
    simp

end AttributeArguments

/-! ## Converters -/

namespace Converter

variable {ctx : Context} {d : TypeDecl}

theorem argument_located {arg : Option (Argument Expr)} {expected : Option SymbolId}
    (h : ∀ a, arg = some a → ctx.Reports .valueConversionTypes (.argument a)) :
    AllLocated ctx (argument ctx arg expected).toList := by
  refine allLocated_toList.2 fun f hf => ?_
  simp [argument, Option.bind_eq_some_iff] at hf
  obtain ⟨a, rfl, _, -, _, -, -, rfl⟩ := hf
  exact (h a rfl).locates

theorem conversion_located (hnode : ctx.node = .member (.type d)) :
    AllLocated ctx (conversion ctx d) := by
  unfold conversion
  split
  · simp
  · split
    · rw [allLocated_cons]
      refine ⟨ctx.locates_of_not_mem ?_, allLocated_nil⟩
      unfold missingConversion
      split <;> simp [Finding.withText, replacingRules, FixProvider.rules]
    · rename_i source target hargs
      rw [allLocated_append]
      exact ⟨argument_located fun a ha => .valueConversionTypes hnode hargs (.inl ha),
        argument_located fun a ha => .valueConversionTypes hnode hargs (.inr ha)⟩

theorem defaultInstance_located (converter : SymbolId) :
    AllLocated ctx (defaultInstance ctx d converter) := by
  unfold defaultInstance
  dsimp only
  split
  · split
    · rw [allLocated_cons]
      have hrule : Rule.converterDefault ∉ replacingRules := by decide
      exact ⟨ctx.locates_of_not_mem hrule, allLocated_nil⟩
    · simp
  · unfold AllLocated
    rw [List.forall_mem_map]
    have hrule : Rule.defaultInstanceType ∉ replacingRules := by decide
    exact fun value _ => ctx.locates_of_not_mem hrule

theorem located {fs : List Finding} (h : (run ctx).Gives fs) : AllLocated ctx fs := by
  unfold run at h
  split at h
  · rename_i d symbol hnode _
    obtain rfl := h.pure
    unfold usable
    repeat' split
    all_goals simp [conversion_located hnode, defaultInstance_located]
  · obtain rfl := h.pure
    simp

end Converter

/-! ## Creations -/

namespace Creation

variable {ctx : Context} {s : Start}

section
variable {types : List KnownType} (hs : start? ctx types = some s) {ctor : SymbolId}
  (hctor : ctx.model.symbol? s.creation.id = some ctor) {param : String} {rule : Rule}
  (hparam : creationParam? rule = some param)
include hs hctor hparam

theorem ownerArgument_located : AllLocated ctx (ownerArgument ctx s ctor param rule) := by
  obtain ⟨hnode, hargs⟩ := creation_of_start? ctx hs
  unfold ownerArgument
  split
  · rename_i arg harg
    split
    · rw [allLocated_cons]
      exact ⟨(Context.Reports.creation hnode hargs hctor hparam harg).locates, allLocated_nil⟩
    · simp
  · simp

theorem nameArgument_located : AllLocated ctx (nameArgument ctx s ctor param rule) := by
  obtain ⟨hnode, hargs⟩ := creation_of_start? ctx hs
  unfold nameArgument
  split
  · rename_i arg harg
    split
    · split
      · simp
      · rw [allLocated_cons]
        exact ⟨(Context.Reports.creation hnode hargs hctor hparam harg).locates, allLocated_nil⟩
    · simp
  · simp

end

theorem resourceKey_located {fs : List Finding} (h : (runResourceKey ctx).Gives fs) :
    AllLocated ctx fs := by
  obtain rfl := h.pure
  rw [allLocated_getD]
  intro fs hfs
  obtain ⟨s, hs, rfl⟩ := Option.map_eq_some_iff.1 hfs
  unfold resourceKey
  split
  · rw [allLocated_cons]
    exact ⟨fun _ => .inr ⟨_, rfl⟩, allLocated_nil⟩
  · split
    · rename_i ctor hctor
      rw [allLocated_append]
      exact ⟨ownerArgument_located hs hctor rfl, nameArgument_located hs hctor rfl⟩
    · simp

theorem command_located {fs : List Finding} (h : (runCommand ctx).Gives fs) :
    AllLocated ctx fs := by
  obtain rfl := h.pure
  rw [allLocated_getD]
  intro fs hfs
  obtain ⟨s, hs, rfl⟩ := Option.map_eq_some_iff.1 hfs
  unfold command
  split
  · rename_i ctor hctor
    rw [allLocated_append]
    exact ⟨nameArgument_located hs hctor rfl, ownerArgument_located hs hctor rfl⟩
  · simp

end Creation

/-- What a check reports at a node that it looks at has the range of what it is about. -/
theorem run_located {check : Check} {ctx : Context} {fs : List Finding}
    (hkind : ctx.node.kind ∈ check.kinds) (h : (check.run ctx).Gives fs) : AllLocated ctx fs := by
  cases check with
  | backingMember => exact BackingMember.located hkind h
  | wrapper => exact Wrapper.located h
  | attachedAccessor => exact AttachedAccessor.located h
  | attributeArguments => exact AttributeArguments.located h
  | converter => exact Converter.located h
  | resourceKey => exact Creation.resourceKey_located h
  | routedCommand => exact Creation.command_located h

end Check

end PropertyLint
