/-
# Written types stand for types

Whatever a look-up of a written type finds is a type, and the look-up says something only about the
nodes of the written type (`resolveType_finds`).
-/
import PropertyLint.Proofs.Binding.Step
import PropertyLint.Syntax.Nodes

namespace PropertyLint

open Binder

/-- The numbers in a scope are those of types. -/
structure Scope.Sound (c : Compilation) (scope : Scope) : Prop where
  type : ∀ t ∈ scope.type, c.IsType t
  params : ∀ p ∈ scope.methodTypeParams, c.IsType p

/-- The identities of nodes are among the given ones. -/
def Scope.Covers (scope : Scope) (nodes : Set NodeRef) (ns : List SyntaxNode) : Prop :=
  ∀ n ∈ ns, ⟨scope.file, n.node.id⟩ ∈ nodes

/-- The step finds a type or nothing. -/
def Binder.FindsType (nodes : Set NodeRef) (c : Compilation) (step : Binder (Option SymbolId)) :
    Prop :=
  Finds nodes c step fun c' found => ∀ t ∈ found, c'.IsType t

variable {c c' : Compilation} {nodes : Set NodeRef} {scope : Scope} {t outer : SymbolId}
  {args : List SymbolId} {name : String} {ns ms : List SyntaxNode} {n : SyntaxNode}

theorem Scope.Sound.mono (h : scope.Sound c) (hle : c ≤ c') : scope.Sound c' where
  type t ht := (h.type t ht).mono hle
  params p hp := (h.params p hp).mono hle

@[simp] theorem Scope.covers_nil : scope.Covers nodes [] := List.forall_mem_nil _

@[simp] theorem Scope.covers_cons :
    scope.Covers nodes (n :: ns) ↔ ⟨scope.file, n.node.id⟩ ∈ nodes ∧ scope.Covers nodes ns :=
  List.forall_mem_cons

@[simp] theorem Scope.covers_append :
    scope.Covers nodes (ns ++ ms) ↔ scope.Covers nodes ns ∧ scope.Covers nodes ms :=
  List.forall_mem_append

namespace Binder.FindsType

theorem none : FindsType nodes c (pure none) := .pure fun _ _ _ ht => by cases ht

theorem some (h : c.IsType t) : FindsType nodes c (pure (some t)) :=
  .pure fun _ hle _ ht => by
    obtain rfl := Option.some.inj ht
    exact h.mono hle

/-- The type that a step gives, which always gives one. -/
theorem made {step : Binder SymbolId} (h : Finds nodes c step fun c' made => c'.IsType made) :
    FindsType nodes c (Option.some <$> step) := by
  rw [← bind_pure_comp]
  exact h.bind fun _ _ _ hmade => FindsType.some hmade

/-- A step that goes on with the type that another step finds, if it finds one. -/
theorem andThen {step : Binder (Option SymbolId)} {rest : SymbolId → Binder (Option SymbolId)}
    (h : FindsType nodes c step)
    (hrest : ∀ c' t, c ≤ c' → c'.IsType t → FindsType nodes c' (rest t)) :
    FindsType nodes c (do
      match ← step with
      | .some t => rest t
      | .none => return .none) := by
  refine h.bind fun c' found hle hfound => ?_
  cases found with
  | none => exact FindsType.none
  | some t => exact hrest c' t hle (hfound t rfl)

/-- A step that looks elsewhere if another step finds nothing. -/
theorem orElse {step other : Binder (Option SymbolId)} (h : FindsType nodes c step)
    (hother : FindsType nodes c other) :
    FindsType nodes c (do
      match ← step with
      | .some t => return .some t
      | .none => other) := by
  refine h.bind fun c' found hle hfound => ?_
  cases found with
  | none => exact hother.after hle
  | some t => exact FindsType.some (hfound t rfl)

theorem firstFound {α : Type} {search : α → Binder (Option SymbolId)} {as : List α}
    (h : ∀ a ∈ as, FindsType nodes c (search a)) :
    FindsType nodes c (PropertyLint.firstFound search as) := by
  induction as with
  | nil => exact FindsType.none
  | cons a as ih => exact (h a (.head _)).orElse (ih fun b hb => h b (.tail _ hb))

end Binder.FindsType

/-! ## Simple names -/

theorem typeInNamespace_finds {container : Option String} (hargs : ∀ a ∈ args, c.IsType a) :
    FindsType nodes c (typeInNamespace container name args) := by
  intro s hs hle
  have hargs' : ∀ a ∈ args, s.comp.IsType a := fun a ha => (hargs a ha).mono hle
  -- what is constructed was registered in the same step
  unfold typeInNamespace typeNamed?
  simp only [Binder.comp, StateT.run_bind, StateT.run_get, StateT.run_pure, pure_bind]
  cases hd : s.comp.typeNamed? (qualifiedName container name args.length) with
  | none => exact ⟨.refl hs, fun _ hnone => by cases hnone⟩
  | some d =>
    have hdefinition := hs.layered.isDefinition_typeNamed? d hd
    obtain ⟨hvalid, hgrow, hmade⟩ := hs.comp.construct hdefinition.isType hargs'
    have hlayered := hs.layered.construct hdefinition fun a ha => (hargs' a ha).has
    refine ⟨hs.leads hvalid hlayered hgrow, ?_⟩
    rintro _ ⟨⟩
    exact hmade

theorem nestedType_finds (hargs : ∀ a ∈ args, c.IsType a) :
    FindsType nodes c (nestedType outer name args) :=
  .comp fun _ _ hle => typeInNamespace_finds fun a ha => (hargs a ha).mono hle

theorem isType_of_typeParamNamed? {params : List SymbolId} {p : SymbolId} {c₁ : Compilation}
    (hparams : ∀ p ∈ params, c.IsType p) (h : typeParamNamed? c₁ name params = some p) :
    c.IsType p := hparams p (List.mem_of_find?_eq_some h)

theorem typeInType_finds (hargs : ∀ a ∈ args, c.IsType a) :
    FindsType nodes c (typeInType name args outer) := by
  refine .comp fun c' hc' hle => ?_
  have hparams : ∀ p ∈ ((c'.type? outer).map TypeSymbol.typeParams).getD [], c'.IsType p := by
    cases ht : c'.type? outer with
    | none => exact fun _ hp => absurd hp List.not_mem_nil
    | some t => exact (hc'.sound ht).params
  dsimp only
  split
  next p hp =>
    refine FindsType.some ?_
    split at hp
    · exact isType_of_typeParamNamed? hparams hp
    · cases hp
  next =>
    exact FindsType.firstFound fun base _ => nestedType_finds fun a ha => (hargs a ha).mono hle

theorem simpleType_finds (hscope : scope.Sound c) (hargs : ∀ a ∈ args, c.IsType a) :
    FindsType nodes c (simpleType scope name args) := by
  refine .comp fun c' hc' hle => ?_
  have hargs' : ∀ a ∈ args, c'.IsType a := fun a ha => (hargs a ha).mono hle
  split
  next keyword _ => exact finds_typeNamed? _
  next =>
    split
    next p hp =>
      refine FindsType.some ?_
      split at hp
      · exact isType_of_typeParamNamed? (hscope.mono hle).params hp
      · cases hp
    next =>
      refine FindsType.orElse (.firstFound fun _ _ => typeInType_finds hargs') ?_
      refine FindsType.orElse (.firstFound fun _ _ => typeInNamespace_finds hargs') ?_
      exact .firstFound fun _ _ => typeInNamespace_finds hargs'

/-! ## Written types -/

theorem recordResolved_finds {node : Node} {resolved : Option SymbolId}
    (hnode : ⟨scope.file, node.id⟩ ∈ nodes) (h : ∀ t ∈ resolved, c.IsType t) :
    FindsType nodes c (recordResolved scope node resolved) := by
  cases resolved with
  | none => exact FindsType.none
  | some t =>
    exact (finds_recordSymbol hnode (h t rfl).has).bind fun _ _ hle _ =>
      FindsType.some ((h t rfl).mono hle)

theorem nullableForm_finds (h : c.IsType t) : FindsType nodes c (nullableForm t) := by
  intro s hs hle
  have ht := h.mono hle
  -- the symbols that are put in place were read in the same step
  unfold nullableForm
  simp only [Binder.comp, StateT.run_bind, StateT.run_get, StateT.run_pure, pure_bind]
  split
  · cases hmade : s.comp.nullableOf t with
    | some made =>
      obtain ⟨hvalid, hgrow, hnew⟩ := hs.comp.nullableOf ht hmade
      refine ⟨hs.leads hvalid (hs.layered.nullableOf ht.has hmade) hgrow, ?_⟩
      rintro _ ⟨⟩
      exact hnew
    | none => exact ⟨.refl hs, fun _ hnone => by cases hnone⟩
  · refine ⟨.refl hs, ?_⟩
    rintro _ ⟨⟩
    exact ht

mutual

/-- A written type stands for a type. -/
theorem resolveType_finds {c : Compilation} (hscope : scope.Sound c) : ∀ type : TypeRef,
    scope.Covers nodes type.nodes → FindsType nodes c (resolveType scope type)
  | .keyword node k, hcovers => by
    rw [resolveType]
    refine Finds.bind (finds_typeNamed? _) fun c' found hle hfound => ?_
    exact recordResolved_finds (hcovers _ (.head _)) hfound
  | .named node segments, hcovers => by
    rw [TypeRef.nodes, Scope.covers_cons] at hcovers
    rw [resolveType]
    refine Finds.bind (resolveName_finds hscope segments hcovers.2) fun c' found hle hfound => ?_
    exact recordResolved_finds hcovers.1 hfound
  | .array node element, hcovers => by
    rw [TypeRef.nodes, Scope.covers_cons] at hcovers
    rw [resolveType]
    refine FindsType.andThen (resolveType_finds hscope element hcovers.2) fun c₁ t hle ht => ?_
    refine (finds_change_arrayOf ht).bind fun c₂ made hle₂ hmade => ?_
    refine recordResolved_finds hcovers.1 ?_
    rintro _ ⟨⟩
    exact hmade
  | .nullable node underlying, hcovers => by
    rw [TypeRef.nodes, Scope.covers_cons] at hcovers
    rw [resolveType]
    refine FindsType.andThen (resolveType_finds hscope underlying hcovers.2) fun c₁ t hle ht => ?_
    refine Finds.bind (nullableForm_finds ht) fun c₂ found hle₂ hfound => ?_
    exact recordResolved_finds hcovers.1 hfound

theorem resolveName_finds {c : Compilation} (hscope : scope.Sound c) :
    ∀ segments : List NameSegment, scope.Covers nodes (nodesOfSegments segments) →
      FindsType nodes c (resolveName scope segments)
  | [], _ => FindsType.none
  | .mk name args :: rest, hcovers => by
    rw [nodesOfSegments, Scope.covers_append] at hcovers
    rw [resolveName]
    refine (resolveArgs_finds hscope args hcovers.1).bind fun c₁ found hle hfound => ?_
    have hscope₁ := hscope.mono hle
    cases found with
    | none => exact FindsType.none
    | some args =>
      refine (simpleType_finds hscope₁ (hfound _ rfl)).bind fun c₂ found hle₂ hfound => ?_
      have hscope₂ := hscope₁.mono hle₂
      cases found with
      | none => exact resolveInNamespace_finds hscope₂ rest name.text hcovers.2
      | some t => exact resolveInType_finds hscope₂ rest t (hfound t rfl) hcovers.2

theorem resolveInType_finds {c : Compilation} (hscope : scope.Sound c) :
    ∀ (segments : List NameSegment) (outer : SymbolId), c.IsType outer →
      scope.Covers nodes (nodesOfSegments segments) →
      FindsType nodes c (resolveInType scope outer segments)
  | [], _, houter, _ => FindsType.some houter
  | .mk name args :: rest, outer, _, hcovers => by
    rw [nodesOfSegments, Scope.covers_append] at hcovers
    rw [resolveInType]
    refine (resolveArgs_finds hscope args hcovers.1).bind fun c₁ found hle hfound => ?_
    cases found with
    | none => exact FindsType.none
    | some args =>
      refine FindsType.andThen (nestedType_finds (hfound _ rfl)) fun c₂ t hle₂ ht => ?_
      exact resolveInType_finds ((hscope.mono hle).mono hle₂) rest t ht hcovers.2

theorem resolveInNamespace_finds {c : Compilation} (hscope : scope.Sound c) :
    ∀ (segments : List NameSegment) (container : String),
      scope.Covers nodes (nodesOfSegments segments) →
      FindsType nodes c (resolveInNamespace scope container segments)
  | [], _, _ => FindsType.none
  | .mk name args :: rest, container, hcovers => by
    rw [nodesOfSegments, Scope.covers_append] at hcovers
    rw [resolveInNamespace]
    refine (resolveArgs_finds hscope args hcovers.1).bind fun c₁ found hle hfound => ?_
    have hscope₁ := hscope.mono hle
    cases found with
    | none => exact FindsType.none
    | some args =>
      refine (typeInNamespace_finds (hfound _ rfl)).bind fun c₂ found hle₂ hfound => ?_
      have hscope₂ := hscope₁.mono hle₂
      cases found with
      | none => exact resolveInNamespace_finds hscope₂ rest _ hcovers.2
      | some t => exact resolveInType_finds hscope₂ rest t (hfound t rfl) hcovers.2

theorem resolveArgs_finds {c : Compilation} (hscope : scope.Sound c) : ∀ types : List TypeRef,
    scope.Covers nodes (nodesOfTypes types) → Finds nodes c (resolveArgs scope types)
      fun c' found => ∀ args ∈ found, ∀ t ∈ args, c'.IsType t
  | [], _ => by
    refine .pure fun c' _ args hargs => ?_
    obtain rfl := Option.some.inj hargs
    exact List.forall_mem_nil _
  | t :: rest, hcovers => by
    rw [nodesOfTypes, Scope.covers_append] at hcovers
    rw [resolveArgs]
    refine (resolveType_finds hscope t hcovers.1).bind fun c₁ found hle hfound => ?_
    cases found with
    | none => exact .pure fun _ _ _ hargs => by cases hargs
    | some t =>
      refine (resolveArgs_finds (hscope.mono hle) rest hcovers.2).bind fun c₂ found hle₂ hrest => ?_
      cases found with
      | none => exact .pure fun _ _ _ hargs => by cases hargs
      | some ts =>
        refine .pure fun c₃ hle₃ args hargs => ?_
        obtain rfl := Option.some.inj hargs
        exact List.forall_mem_cons.2 ⟨(hfound t rfl).mono (le_trans hle₂ hle₃),
          fun u hu => (hrest ts rfl u hu).mono hle₃⟩

end

/-! ## Attribute classes -/

theorem nodesOfSegments_append (ss ts : List NameSegment) :
    nodesOfSegments (ss ++ ts) = nodesOfSegments ss ++ nodesOfSegments ts := by
  induction ss with
  | nil => rfl
  | cons s ss ih =>
    obtain ⟨name, args⟩ := s
    rw [List.cons_append, nodesOfSegments, ih, nodesOfSegments, List.append_assoc]

/-- A suffix on the name does not change the identities of the nodes. -/
theorem TypeRef.covers_appendToName {type : TypeRef} (suffix : String)
    (h : scope.Covers nodes type.nodes) : scope.Covers nodes (type.appendToName suffix).nodes := by
  cases type with
  | named node segments =>
    unfold appendToName
    cases hlast : segments.getLast? with
    | none => simpa only [hlast] using h
    | some last =>
      obtain ⟨before, rfl⟩ := List.getLast?_eq_some_iff.1 hlast
      obtain ⟨name, args⟩ := last
      simpa [TypeRef.nodes, nodesOfSegments_append, nodesOfSegments, SyntaxNode.node, TypeRef.node,
        NameSegment.args] using h
  | _ => exact h

theorem resolveAttributeClass_finds (hscope : scope.Sound c) {type : TypeRef}
    (hcovers : scope.Covers nodes type.nodes) :
    FindsType nodes c (resolveAttributeClass scope type) := by
  have hplain := resolveType_finds hscope type hcovers
  unfold resolveAttributeClass
  split
  · exact FindsType.orElse
      (resolveType_finds hscope _ (TypeRef.covers_appendToName _ hcovers)) hplain
  · exact hplain

end PropertyLint
