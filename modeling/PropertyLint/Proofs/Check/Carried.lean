/-
# What findings carry

A finding carries at most one text for a fix, so at most one provider has a fix for it
(`carriesOne_of_mem_analyzeTree`).
-/
import PropertyLint.Proofs.Lint.Analysis

namespace PropertyLint

/-- The texts of a finding are at most one, and one that fills an argument list starts with a
letter. -/
def CarriesOne (properties : List (String × String)) : Prop :=
  properties = [] ∨ ∃ key text, properties = [(PropertyKey.name key, text)] ∧
    (key = .argumentList → text.toList.head?.any isWordStart = true)

/-- All the findings carry at most one text. -/
def AllCarryOne (fs : List Finding) : Prop := ∀ f ∈ fs, CarriesOne f.properties

@[simp] theorem allCarryOne_nil : AllCarryOne [] := List.forall_mem_nil _

@[simp] theorem allCarryOne_append {fs fs' : List Finding} :
    AllCarryOne (fs ++ fs') ↔ AllCarryOne fs ∧ AllCarryOne fs' := List.forall_mem_append

@[simp] theorem allCarryOne_cons {f : Finding} {fs : List Finding} :
    AllCarryOne (f :: fs) ↔ CarriesOne f.properties ∧ AllCarryOne fs := List.forall_mem_cons

@[simp] theorem carriesOne_nil : CarriesOne [] := .inl rfl

@[simp] theorem carriesOne_withText {rule : Rule} {range : OffsetRange} {args : List String}
    {key : PropertyKey} {text : String} (hkey : key ≠ .argumentList) :
    CarriesOne (Finding.withText rule range args key text).properties :=
  .inr ⟨key, text, rfl, fun h => absurd h hkey⟩

@[simp] theorem allCarryOne_getD {o : Option (List Finding)} :
    AllCarryOne (o.getD []) ↔ ∀ fs, o = some fs → AllCarryOne fs := by
  cases o <;> simp

@[simp] theorem allCarryOne_toList {o : Option Finding} :
    AllCarryOne o.toList ↔ ∀ f, o = some f → CarriesOne f.properties := by
  cases o <;> simp [AllCarryOne]

theorem allCarryOne_plain_map {α : Type} (rule : Rule) (range : α → OffsetRange) (as : List α) :
    AllCarryOne (as.map fun a => ⟨rule, range a, [], []⟩) := by
  intro f hf
  obtain ⟨a, -, rfl⟩ := List.mem_map.1 hf
  exact .inl rfl

@[simp] theorem sideEffects_carry (rule : Rule) (statements : List Stmt) :
    AllCarryOne (sideEffects rule statements) := allCarryOne_plain_map rule Stmt.range statements

namespace Check

/-! ## Backing members -/

namespace BackingMember

variable {ctx : Context} {member : Member} {backing : BackingMember}

@[simp] theorem readonly_carries : AllCarryOne (readonly ctx member backing) := by
  unfold readonly
  split <;> simp

@[simp] theorem name_carries (registered : String) :
    AllCarryOne (name member backing registered) := by
  unfold name
  dsimp only
  split <;> simp

@[simp] theorem owner_carries (r : Registration) : AllCarryOne (owner ctx r) := by
  unfold owner
  dsimp only
  repeat' split
  all_goals simp

@[simp] theorem defaultValue_carries (r : Registration) :
    AllCarryOne (defaultValue ctx backing r) := by
  unfold defaultValue
  dsimp only
  repeat' split
  all_goals simp

@[simp] theorem registration_carries : AllCarryOne (registration ctx member backing) := by
  unfold registration
  split <;> simp

@[simp] theorem order_carries : AllCarryOne (order ctx member backing) := by
  unfold order
  repeat' split
  all_goals simp

@[simp] theorem documentation_carries (registered : String) :
    AllCarryOne (documentation ctx member backing registered) := by
  unfold documentation
  dsimp only
  repeat' split
  all_goals simp

theorem carry {fs : List Finding} (h : (run ctx).Gives fs) : AllCarryOne fs := by
  unfold run at h
  split at h
  · dsimp only at h
    split at h
    · obtain rfl := h.pure
      simp
    · obtain ⟨-, -, h⟩ := h.bind
      obtain rfl := h.pure
      simp
  · obtain rfl := h.pure
    simp

end BackingMember

/-! ## Wrappers -/

namespace Wrapper

variable {ctx : Context} {property : PropertyDecl}

@[simp] theorem sameProperty_carries (get set : Option Registration) :
    AllCarryOne (sameProperty property get set) := by
  unfold sameProperty
  repeat' split
  all_goals simp

@[simp] theorem name_carries (r : Registration) : AllCarryOne (name property r) := by
  unfold name
  repeat' split
  all_goals simp

@[simp] theorem type_carries (r : Registration) : AllCarryOne (type ctx property r) := by
  unfold type
  dsimp only
  repeat' split
  all_goals simp

@[simp] theorem setValue_carries (setter : Option AccessorCall) :
    AllCarryOne (setValue setter) := by
  unfold setValue
  split <;> simp

theorem accessorEffects_carry {accessor : Option Accessor} {access : Option AccessorCall}
    {fs : List Finding} (h : (accessorEffects accessor access).Gives fs) : AllCarryOne fs := by
  unfold accessorEffects at h
  split at h
  · obtain ⟨-, -, h⟩ := h.bind
    obtain rfl := h.pure
    simp
  · obtain rfl := h.pure
    simp

theorem carry {fs : List Finding} (h : (run ctx).Gives fs) : AllCarryOne fs := by
  unfold run at h
  split at h
  · dsimp only at h
    split at h
    · unfold wrapper at h
      obtain ⟨getEffects, hget, h⟩ := h.bind
      obtain ⟨setEffects, hset, h⟩ := h.bind
      obtain rfl := h.pure
      simp [accessorEffects_carry hget, accessorEffects_carry hset]
    · obtain rfl := h.pure
      simp
  · obtain rfl := h.pure
    simp

end Wrapper

/-! ## Accessors of attached properties -/

namespace AttachedAccessor

variable {ctx : Context} {method : MethodDecl} {direction : Direction}

@[simp] theorem name_carries (registered : String) :
    AllCarryOne (name method direction registered) := by
  unfold name
  dsimp only
  split <;> simp

@[simp] theorem type_carries (registered : SymbolId) :
    AllCarryOne (type ctx method direction registered) := by
  unfold type
  dsimp only
  repeat' split
  all_goals simp

@[simp] theorem browsable_carries (element : SymbolId) :
    AllCarryOne (browsable ctx method element) := by
  unfold browsable
  dsimp only
  repeat' split
  all_goals simp

@[simp] theorem documentation_carries : AllCarryOne (documentation ctx method) := by
  unfold documentation
  dsimp only
  split <;> simp

@[simp] theorem registration_carries (element : SymbolId) (r : Registration) :
    AllCarryOne (registration ctx method direction element r) := by
  unfold registration
  split <;> simp

theorem carry {fs : List Finding} (h : (run ctx).Gives fs) : AllCarryOne fs := by
  unfold run at h
  split at h
  · split at h
    · unfold accessor at h
      obtain ⟨-, -, h⟩ := h.bind
      obtain rfl := h.pure
      simp
    · obtain rfl := h.pure
      simp
  · obtain rfl := h.pure
    simp

end AttachedAccessor

/-! ## Arguments of attributes -/

namespace AttributeArguments

variable {ctx : Context}

theorem use_carries {u : AttributeUse} {f : Finding} (h : use ctx u = some f) :
    CarriesOne f.properties := by
  cases u with
  | constructorArgument arg =>
    unfold use constructorArgument at h
    obtain ⟨member, -, h⟩ := Option.bind_eq_some_iff.1 h
    split at h
    · simp only [Option.bind_eq_bind, Option.bind_eq_some_iff] at h
      obtain ⟨actual, -, t, -, symbol, -, expected, -, h⟩ := h
      split at h
      · simp at h
      · obtain rfl := Option.some.inj h
        simp
    · simp at h
  | markupReturnType arg =>
    simp [use, markupReturnType, Option.bind_eq_some_iff] at h
    obtain ⟨_, -, -, _, -, _, -, _, -, -, rfl⟩ := h
    simp
  | markupHandler handler arg =>
    unfold use markupHandler at h
    simp only [Option.bind_eq_bind, Option.bind_eq_some_iff] at h
    obtain ⟨name, -, type, -, h⟩ := h
    split at h
    · simp at h
    · obtain rfl := Option.some.inj h
      simp
  | templatePart arg =>
    simp [use, templatePart, Option.bind_eq_some_iff] at h
    obtain ⟨_, -, -, rfl⟩ := h
    simp
  | xmlnsDefinition arg =>
    simp [use, xmlnsDefinition, Option.bind_eq_some_iff] at h
    obtain ⟨_, -, -, rfl⟩ := h
    simp
  | _ => simp [use] at h

theorem carry {fs : List Finding} (h : (run ctx).Gives fs) : AllCarryOne fs := by
  unfold run at h
  split at h
  · split at h
    · obtain rfl := h.pure
      split
      · exact allCarryOne_toList.2 fun f hf => use_carries hf
      · simp
    · obtain rfl := h.pure
      simp
  · obtain rfl := h.pure
    simp

end AttributeArguments

/-! ## Converters -/

namespace Converter

variable {ctx : Context} {t : TypeDecl}

@[simp] theorem defaultInstance_carries (converter : SymbolId) :
    AllCarryOne (defaultInstance ctx t converter) := by
  unfold defaultInstance
  dsimp only
  split
  · split <;> simp
  · exact allCarryOne_plain_map _ Expr.range _

theorem argument_carries {arg : Option (Argument Expr)} {expected : Option SymbolId} {f : Finding}
    (h : argument ctx arg expected = some f) : CarriesOne f.properties := by
  simp [argument, Option.bind_eq_some_iff] at h
  obtain ⟨_, -, _, -, _, -, -, rfl⟩ := h
  simp

@[simp] theorem conversion_carries : AllCarryOne (conversion ctx t) := by
  unfold conversion missingConversion
  split
  · simp
  · split
    · split <;> simp
    · rw [allCarryOne_append, allCarryOne_toList, allCarryOne_toList]
      exact ⟨fun f => argument_carries, fun f => argument_carries⟩

theorem carry {fs : List Finding} (h : (run ctx).Gives fs) : AllCarryOne fs := by
  unfold run at h
  split at h
  · obtain rfl := h.pure
    unfold usable
    repeat' split
    all_goals simp
  · obtain rfl := h.pure
    simp

end Converter

/-! ## Creations -/

namespace Creation

variable {ctx : Context} {s : Start}

@[simp] theorem ownerArgument_carries (ctor : SymbolId) (param : String) (rule : Rule) :
    AllCarryOne (ownerArgument ctx s ctor param rule) := by
  unfold ownerArgument
  dsimp only
  repeat' split
  all_goals simp

@[simp] theorem nameArgument_carries (ctor : SymbolId) (param : String) (rule : Rule) :
    AllCarryOne (nameArgument ctx s ctor param rule) := by
  unfold nameArgument
  dsimp only
  repeat' split
  all_goals simp

/-- The arguments for an empty key start with `typeof`. -/
@[simp] theorem emptyKey_carries : CarriesOne (emptyKey ctx s).properties := by
  refine .inr ⟨.argumentList, _, rfl, fun _ => ?_⟩
  rw [Compilation.typeOfText]
  simp
  decide

theorem resourceKey_carry {fs : List Finding} (h : (runResourceKey ctx).Gives fs) :
    AllCarryOne fs := by
  obtain rfl := h.pure
  rw [allCarryOne_getD]
  intro fs hfs
  obtain ⟨s, -, rfl⟩ := Option.map_eq_some_iff.1 hfs
  unfold resourceKey
  repeat' split
  all_goals simp

theorem command_carry {fs : List Finding} (h : (runCommand ctx).Gives fs) : AllCarryOne fs := by
  obtain rfl := h.pure
  rw [allCarryOne_getD]
  intro fs hfs
  obtain ⟨s, -, rfl⟩ := Option.map_eq_some_iff.1 hfs
  unfold command
  split <;> simp

end Creation

theorem run_carries {check : Check} {ctx : Context} {fs : List Finding}
    (h : (check.run ctx).Gives fs) : AllCarryOne fs := by
  cases check with
  | backingMember => exact BackingMember.carry h
  | wrapper => exact Wrapper.carry h
  | attachedAccessor => exact AttachedAccessor.carry h
  | attributeArguments => exact AttributeArguments.carry h
  | converter => exact Converter.carry h
  | resourceKey => exact Creation.resourceKey_carry h
  | routedCommand => exact Creation.command_carry h

end Check

/-- **What diagnostics carry.**  Every diagnostic of an analysis carries at most one text. -/
theorem carriesOne_of_mem_analyzeTree {config : LintConfig} {model : Model} {polls : Polls}
    {ds : List Diagnostic} {d : Diagnostic}
    (h : (analyzeTree config model).result polls = .ok ds) (hd : d ∈ ds) :
    CarriesOne d.properties := by
  obtain ⟨visit, check, findings, f, hgives, hf, hd⟩ := exists_of_mem_analyzeTree h hd
  obtain ⟨severity, -, rfl⟩ := Option.map_eq_some_iff.1 hd
  exact Check.run_carries hgives f hf

end PropertyLint
