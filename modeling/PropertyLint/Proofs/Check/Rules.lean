/-
# The rules of a check

Whatever node a check is given, it reports only rules that it lists (`Check.rule_mem_rules`), so a
check none of whose rules is enabled can be left out.  Unlike `Check.run_reported` this says nothing
about places, and so it needs nothing of the node either.
-/
import PropertyLint.Proofs.Check.Reported

namespace PropertyLint

/-- The findings are about rules of the list. -/
def AllAbout (rules : List Rule) (fs : List Finding) : Prop := ∀ f ∈ fs, f.rule ∈ rules

section

variable {rules rules' : List Rule} {fs fs' : List Finding}

@[simp] theorem allAbout_nil : AllAbout rules [] := List.forall_mem_nil _

theorem AllAbout.append (h : AllAbout rules fs) (h' : AllAbout rules fs') :
    AllAbout rules (fs ++ fs') := List.forall_mem_append.2 ⟨h, h'⟩

theorem AllAbout.mono (h : AllAbout rules fs) (hrules : rules ⊆ rules') : AllAbout rules' fs :=
  fun f hf => hrules (h f hf)

theorem AllAbout.map_getD {α : Type} {o : Option α} {f : α → List Finding}
    (h : ∀ a, AllAbout rules (f a)) : AllAbout rules ((o.map f).getD []) := by
  cases o with
  | none => exact allAbout_nil
  | some a => exact h a

/-- A report is about rules, whatever its places are. -/
theorem Reported.about {places : Set OffsetRange} (h : Reported places rules' fs)
    (hrules : rules' ⊆ rules) : AllAbout rules fs := AllAbout.mono h.rule hrules

theorem sideEffects_about (rule : Rule) (statements : List Stmt) :
    AllAbout [rule] (sideEffects rule statements) := by
  unfold AllAbout sideEffects
  rw [List.forall_mem_map]
  exact fun s _ => List.mem_singleton_self _

end

namespace Check

/-! ## Wrappers and accessors -/

theorem Wrapper.about {ctx : Context} {fs : List Finding} (h : (Wrapper.run ctx).Gives fs) :
    AllAbout Check.wrapper.rules fs := by
  have heffects {accessor : Option Accessor} {access : Option AccessorCall} {fs : List Finding}
      (h : (accessorEffects accessor access).Gives fs) : AllAbout Check.wrapper.rules fs := by
    unfold accessorEffects at h
    split at h
    · obtain ⟨-, -, h⟩ := h.bind
      obtain rfl := h.pure
      exact (sideEffects_about _ _).mono (by decide)
    · obtain rfl := h.pure
      exact allAbout_nil
  have hsetter (setter : Option AccessorCall) : AllAbout Check.wrapper.rules (setValue setter) := by
    have hreported : Reported Set.univ [.useSetValue] (setValue setter) :=
      setValue_reported fun _ _ => trivial
    exact hreported.about (by decide)
  unfold run at h
  split at h
  · rename_i property _
    dsimp only at h
    split at h
    · unfold wrapper at h
      obtain ⟨getEffects, hget, h⟩ := h.bind
      obtain ⟨setEffects, hset, h⟩ := h.bind
      obtain rfl := h.pure
      refine (((AllAbout.append ?_ ?_).append (hsetter _)).append (heffects hget)).append
        (heffects hset)
      · exact (sameProperty_reported property _ _).about (by decide)
      · exact (against_reported ctx property _).about (by decide)
    · obtain rfl := h.pure
      exact allAbout_nil
  · obtain rfl := h.pure
    exact allAbout_nil

theorem AttachedAccessor.about {ctx : Context} {fs : List Finding}
    (h : (AttachedAccessor.run ctx).Gives fs) : AllAbout Check.attachedAccessor.rules fs := by
  unfold run at h
  split at h
  · rename_i method _
    split at h
    · unfold accessor at h
      obtain ⟨-, -, h⟩ := h.bind
      obtain rfl := h.pure
      refine ((AllAbout.append (.map_getD fun registered => ?_) (.map_getD fun r => ?_)).append
        ?_).append ?_
      · exact (name_reported method _ registered).about (by decide)
      · exact (registration_reported ctx method _ _ r).about (by decide)
      · exact (sideEffects_about .accessorSideEffects _).mono (by decide)
      · exact (documentation_reported ctx method).about (by decide)
    · obtain rfl := h.pure
      exact allAbout_nil
  · obtain rfl := h.pure
    exact allAbout_nil

/-! ## Converters -/

namespace Converter

variable (ctx : Context) (t : TypeDecl)

theorem defaultInstance_about (converter : SymbolId) :
    AllAbout Check.converter.rules (defaultInstance ctx t converter) := by
  unfold AllAbout defaultInstance
  dsimp only
  repeat' split
  · simp [Check.rules]
  · exact List.forall_mem_nil _
  · rw [List.forall_mem_map]
    exact fun value _ => by simp [Check.rules]

theorem conversion_about : AllAbout Check.converter.rules (conversion ctx t) := by
  have hargument (arg : Option (Argument Expr)) (expected : Option SymbolId) :=
    (argument_reported ctx arg expected).about
      (show [.valueConversionTypes] ⊆ Check.converter.rules by decide)
  unfold conversion
  split
  · exact allAbout_nil
  · split
    · unfold AllAbout missingConversion
      split <;> simp [Finding.withText, Check.rules]
    · exact (hargument _ _).append (hargument _ _)

theorem about {fs : List Finding} (h : (run ctx).Gives fs) :
    AllAbout Check.converter.rules fs := by
  unfold run at h
  split at h
  · rename_i t symbol _ _
    obtain rfl := h.pure
    unfold usable
    split
    · split
      · refine .append ?_ ?_
        · split
          · exact allAbout_nil
          · exact defaultInstance_about ctx t symbol
        · split
          · exact conversion_about ctx t
          · exact allAbout_nil
      · exact allAbout_nil
    · exact allAbout_nil
  · obtain rfl := h.pure
    exact allAbout_nil

end Converter

/-! ## All checks -/

/-- A check reports only rules that it lists. -/
theorem rule_mem_rules {check : Check} {ctx : Context} {fs : List Finding}
    (h : (check.run ctx).Gives fs) : AllAbout check.rules fs := by
  cases check with
  | backingMember =>
    cases hnode : ctx.node with
    | member m => exact (BackingMember.reported ctx m hnode h).about (List.Subset.refl _)
    | _ =>
      change (BackingMember.run ctx).Gives fs at h
      simp only [BackingMember.run, hnode, CheckedNode.member?] at h
      obtain rfl := h.pure
      exact allAbout_nil
  | wrapper => exact Wrapper.about h
  | attachedAccessor => exact AttachedAccessor.about h
  | attributeArguments =>
    cases hnode : ctx.node with
    | attr a => exact (AttributeArguments.reported ctx hnode h).about (List.Subset.refl _)
    | _ =>
      change (AttributeArguments.run ctx).Gives fs at h
      simp only [AttributeArguments.run, hnode] at h
      obtain rfl := h.pure
      exact allAbout_nil
  | converter => exact Converter.about ctx h
  | resourceKey =>
    obtain rfl := h.pure
    cases hs : Creation.start? ctx [.componentResourceKey] with
    | none => exact allAbout_nil
    | some s =>
      exact (Creation.resourceKey_reported ctx (Creation.creation_of_start? ctx hs).2).about
        (List.Subset.refl _)
  | routedCommand =>
    obtain rfl := h.pure
    cases hs : Creation.start? ctx [.routedCommand, .routedUICommand] with
    | none => exact allAbout_nil
    | some s =>
      exact (Creation.command_reported ctx (Creation.creation_of_start? ctx hs).2).about
        (List.Subset.refl _)

end Check

end PropertyLint
