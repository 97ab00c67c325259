/-
# What the nodes of parameters declare

While types and members are declared, the nodes of parameters declare nothing but parameters
(`declareTypes_introduces`, `declareAll_introduces`), no local is in scope and no node gets a type.
-/
import PropertyLint.Proofs.Binding.Bodies
import PropertyLint.Proofs.Binding.Calm

namespace PropertyLint

open Binder

/-- Among the given nodes, those that declare something new declare parameters; no local comes into
scope and no node gets a type. -/
structure BindState.Introduces (ns : Set NodeRef) (s s' : BindState) : Prop where
  comp : s.comp ≤ s'.comp
  declared : ∀ r ∈ s'.facts.declared, r.1 ∈ ns →
    r ∈ s.facts.declared ∨ s'.comp.IsParameter r.2
  locals : s'.locals = s.locals
  types : s'.facts.types = s.facts.types

variable {ns : Set NodeRef} {s s' s'' : BindState} {scope : Scope} {node : NodeId} {source : Source}
  {d : DeclaredType} {α β : Type}

namespace BindState.Introduces

theorem refl (s : BindState) : s.Introduces ns s := ⟨le_refl _, fun _ hr _ => .inl hr, rfl, rfl⟩

theorem trans (h : s.Introduces ns s') (h' : s'.Introduces ns s'') : s.Introduces ns s'' where
  comp := le_trans h.comp h'.comp
  declared r hr hn := by
    rcases h'.declared r hr hn with hr | hparam
    · exact (h.declared r hr hn).imp_right fun hparam => hparam.mono h'.comp
    · exact .inr hparam
  locals := h'.locals.trans h.locals
  types := h'.types.trans h.types

end BindState.Introduces

namespace Binder

/-- The step has the given nodes declare parameters only. -/
def Introduces (ns : Set NodeRef) (step : Binder α) : Prop :=
  ∀ s : BindState, s.Introduces ns (step.run s).2

variable {step : Binder α} {f : α → Binder β}

namespace Introduces

theorem pure (a : α) : Introduces ns (pure a) := fun s => .refl s

theorem bind (h : Introduces ns step) (hf : ∀ a, Introduces ns (f a)) :
    Introduces ns (step >>= f) :=
  fun s => (h s).trans (hf (step.run s).1 (step.run s).2)

/-- A step that looks at the symbols. -/
theorem comp {f : Compilation → Binder β} (h : ∀ c, Introduces ns (f c)) :
    Introduces ns (Binder.comp >>= f) :=
  fun s => h s.comp s

/-- A parameter is declared. -/
theorem param {symbol : ParameterSymbol} {rest : SymbolId → Binder α}
    (h : ∀ id, Introduces ns (rest id)) : Introduces ns (do
      let id ← add (.parameter symbol)
      declare scope node id
      rest id) := by
  intro s
  let s₁ : BindState := { s with
    comp := (s.comp.add (.parameter symbol)).2
    facts := s.facts.addDeclared ⟨scope.file, node⟩ s.comp.symbols.size }
  have hfirst : s.Introduces ns s₁ := by
    refine ⟨s.comp.le_add _, fun r hr _ => ?_, rfl, rfl⟩
    rcases List.mem_cons.1 hr with rfl | hr
    · exact .inr ⟨symbol, Compilation.symbol?_add_size _⟩
    · exact .inl hr
  exact hfirst.trans (h s.comp.symbols.size s₁)

theorem forM {as : List α} {f : α → Binder Unit} (h : ∀ a ∈ as, Introduces ns (f a)) :
    Introduces ns (as.forM f) := by
  induction as with
  | nil => exact .pure _
  | cons a as ih =>
    rw [List.forM_eq_forM, List.forM_cons]
    exact (h a (.head _)).bind fun _ => ih fun b hb => h b (.tail _ hb)

theorem mapM {as : List α} {f : α → Binder β} (h : ∀ a ∈ as, Introduces ns (f a)) :
    Introduces ns (as.mapM f) := by
  induction as with
  | nil => exact .pure _
  | cons a as ih =>
    rw [List.mapM_cons]
    exact (h a (.head _)).bind fun _ =>
      (ih fun b hb => h b (.tail _ hb)).bind fun _ => .pure _

end Introduces

theorem Calm.introduces (h : Calm step) : Introduces ns step := fun s =>
  ⟨(h s).comp.le, fun _ hr _ => .inl ((h s).declared ▸ hr), (h s).locals, (h s).types⟩

theorem change_introduces {g : Compilation → α × Compilation} (h : ∀ c, c ≤ (g c).2) :
    Introduces ns (change g) :=
  fun s => ⟨h s.comp, fun _ hr _ => .inl hr, rfl, rfl⟩

theorem modifyType_introduces (id : SymbolId) (f : TypeSymbol → TypeSymbol) :
    Introduces ns (change fun c => ((), c.modifyType id f)) :=
  change_introduces fun c => c.le_modifyType id f

theorem add_introduces (symbol : Symbol) : Introduces ns (add symbol) :=
  change_introduces fun c => c.le_add symbol

theorem addMember_introduces (owner : SymbolId) (symbol : Symbol) :
    Introduces ns (addMember owner symbol) :=
  (add_introduces symbol).bind fun _ =>
    (modifyType_introduces owner _).bind fun _ => .pure _

/-- Another node declares something. -/
theorem declare_introduces (hnode : ⟨scope.file, node⟩ ∉ ns) (id : SymbolId) :
    Introduces ns (declare scope node id) := by
  refine fun s => ⟨le_refl _, fun r hr hn => ?_, rfl, rfl⟩
  rcases List.mem_cons.1 hr with rfl | hr
  · exact absurd hn hnode
  · exact .inl hr

end Binder

/-! ## Types -/

theorem addTypeParams_introduces (owner : SymbolId) (base : Option SymbolId) (ordinal : Nat)
    (names : List Ident) : Introduces ns (addTypeParams owner base ordinal names) := by
  induction names generalizing ordinal with
  | nil => exact .pure _
  | cons name rest ih =>
    rw [addTypeParams]
    exact (add_introduces _).bind fun _ => (modifyType_introduces _ _).bind fun _ => ih _

theorem createType_introduces (outer : Option SymbolId) (decl : TypeHeader) :
    Introduces ns (createType outer decl) := by
  have hregister (id : SymbolId) : Introduces ns (change fun c => ((), c.register id)) :=
    change_introduces fun _ => Compilation.le_of_symbols_eq rfl
  unfold createType
  refine (add_introduces _).bind fun id => ?_
  refine (typeNamed?_calm _).introduces.bind fun object => ?_
  exact (addTypeParams_introduces _ _ _ _).bind fun _ => (hregister id).bind fun _ => .pure _

theorem declareHeader_introduces {decl : TypeHeader} (hnode : ⟨source.file, decl.node.id⟩ ∉ ns)
    (outer : Option SymbolId) : Introduces ns (declareHeader source outer decl) := by
  have hdeclare (id : SymbolId) : Introduces ns (do
      declare source.scope decl.node.id id
      return id) :=
    (declare_introduces hnode id).bind fun _ => .pure _
  have hplace (place : SourceRef) (id : SymbolId) : Introduces ns (do
      change fun c => ((), c.modifyType id fun t =>
        { t with declarations := t.declarations ++ [place] })
      declare source.scope decl.node.id id
      return id) :=
    (modifyType_introduces _ _).bind fun _ => hdeclare id
  unfold declareHeader
  refine .comp fun c => ?_
  dsimp only
  cases earlierPart? c outer decl with
  | some id =>
    cases source.scope.sourceRef decl.node with
    | some place => exact hplace place id
    | none => exact hdeclare id
  | none =>
    refine (createType_introduces outer decl).bind fun id => ?_
    cases source.scope.sourceRef decl.node with
    | some place => exact hplace place id
    | none => exact hdeclare id

mutual

theorem declareType_introduces : ∀ (decl : TypeDecl) (outer : Option SymbolId),
    (∀ t ∈ decl.withNested, ⟨source.file, t.header.node.id⟩ ∉ ns) →
      Introduces ns (declareType source outer decl)
  | .mk header members, outer, hnodes => by
    rw [TypeDecl.withNested, List.forall_mem_cons] at hnodes
    rw [declareType]
    refine (declareHeader_introduces hnodes.1 outer).bind fun id => ?_
    exact (declareNested_introduces members id hnodes.2).bind fun _ => .pure _

theorem declareNested_introduces : ∀ (members : List Member) (outer : SymbolId),
    (∀ t ∈ nestedIn members, ⟨source.file, t.header.node.id⟩ ∉ ns) →
      Introduces ns (declareNested source outer members)
  | [], _, _ => .pure _
  | .type decl :: rest, outer, hnodes => by
    rw [nestedIn, List.forall_mem_append] at hnodes
    rw [declareNested]
    refine (declareType_introduces decl (some outer) hnodes.1).bind fun _ => ?_
    exact (declareNested_introduces rest outer hnodes.2).bind fun _ => .pure _
  | .field _ :: rest, outer, hnodes | .property _ :: rest, outer, hnodes
  | .method _ :: rest, outer, hnodes | .constructor _ :: rest, outer, hnodes => by
    rw [declareNested]
    exact declareNested_introduces rest outer hnodes

end

theorem declareTypes_introduces {sources : List Source}
    (hnodes : ∀ s ∈ sources, ∀ t ∈ s.root.allTypes, ⟨s.file, t.header.node.id⟩ ∉ ns) :
    Introduces ns (declareTypes sources) := by
  refine Introduces.bind (.mapM fun s hs => .mapM fun decl hdecl => ?_) fun _ => .pure _
  exact declareType_introduces decl none fun t ht =>
    hnodes s hs t (List.mem_flatMap.2 ⟨decl, hdecl, ht⟩)

/-! ## Members -/

theorem declareBases_introduces (d : DeclaredType) : Introduces ns (declareBases d) := by
  refine .forM fun base _ => ?_
  refine (resolveType_calm base).introduces.bind fun found => ?_
  cases found with
  | none => exact .pure _
  | some found => exact .comp fun c => modifyType_introduces _ _

theorem declareParams_introduces (ordinal : Nat) (params : List Parameter) :
    Introduces ns (declareParams scope ordinal params) := by
  induction params generalizing ordinal with
  | nil => exact .pure _
  | cons p rest ih =>
    rw [declareParams]
    refine (resolveType_calm p.type).introduces.bind fun type => ?_
    exact .param fun id => (ih _).bind fun _ => .pure _

theorem declareField_introduces {field : FieldDecl} (hnode : ⟨d.source.file, field.node.id⟩ ∉ ns) :
    Introduces ns (declareField d field) :=
  (resolveType_calm _).introduces.bind fun _ => (addMember_introduces _ _).bind fun id =>
    Introduces.bind (declare_introduces hnode id) fun _ => .pure _

theorem declareProperty_introduces {property : PropertyDecl}
    (hnode : ⟨d.source.file, property.node.id⟩ ∉ ns) : Introduces ns (declareProperty d property) :=
  (resolveType_calm _).introduces.bind fun _ => (addMember_introduces _ _).bind fun id =>
    declare_introduces hnode id

theorem addMethodTypeParams_introduces (base : Option SymbolId) (ordinal : Nat)
    (names : List Ident) : Introduces ns (addMethodTypeParams base ordinal names) := by
  induction names generalizing ordinal with
  | nil => exact .pure _
  | cons name rest ih =>
    rw [addMethodTypeParams]
    exact (add_introduces _).bind fun _ => (ih _).bind fun _ => .pure _

theorem declareMethod_introduces {method : MethodDecl}
    (hnode : ⟨d.source.file, method.node.id⟩ ∉ ns) : Introduces ns (declareMethod d method) := by
  unfold declareMethod
  refine (typeNamed?_calm _).introduces.bind fun object => ?_
  refine (addMethodTypeParams_introduces _ _ _).bind fun typeParams => ?_
  refine (resolveType_calm _).introduces.bind fun returnType => ?_
  refine (declareParams_introduces _ _).bind fun params => ?_
  -- what follows the interface in front of the name
  have hmember (symbol : Symbol) : Introduces ns (do
      let id ← addMember d.symbol symbol
      declare d.scope method.node.id id
      modify fun s => { s with
        methodTypeParams :=
          (⟨d.source.file, method.node.id⟩, typeParams) :: s.methodTypeParams }) :=
    (addMember_introduces _ _).bind fun id => (declare_introduces hnode id).bind fun _ =>
      fun _ => ⟨le_refl _, fun _ hr _ => .inl hr, rfl, rfl⟩
  dsimp only
  split
  next interface _ =>
    exact ((resolveType_calm interface).bind fun _ => .pure _).introduces.bind fun _ => hmember _
  next => exact hmember _

theorem declareConstructor_introduces {ctor : ConstructorDecl}
    (hnode : ⟨d.source.file, ctor.node.id⟩ ∉ ns) : Introduces ns (declareConstructor d ctor) :=
  (declareParams_introduces _ _).bind fun _ => (typeNamed?_calm _).introduces.bind fun _ =>
    (addMember_introduces _ _).bind fun id => declare_introduces hnode id

theorem declareMember_introduces {m : Member}
    (hnode : m.isType = false → ⟨d.source.file, m.id⟩ ∉ ns) :
    Introduces ns (declareMember d m) := by
  cases m with
  | field decl =>
    rw [declareMember]
    refine (declareField_introduces (hnode rfl)).bind fun id => ?_
    split
    · exact .pure _
    · exact .pure _
  | property decl => exact (declareProperty_introduces (hnode rfl)).bind fun _ => .pure _
  | method decl => exact (declareMethod_introduces (hnode rfl)).bind fun _ => .pure _
  | constructor decl => exact (declareConstructor_introduces (hnode rfl)).bind fun _ => .pure _
  | type decl => exact .pure _

theorem addImplicit_introduces (d : DeclaredType) : Introduces ns (addImplicit d) := by
  unfold addImplicit
  refine .comp fun c => ?_
  have hconstructor (t : TypeSymbol) : Introduces ns (do
      if needsConstructor c t then
        Functor.discard
          (addMember d.symbol (.method (implicitConstructor d.symbol (← knownType? .void))))) := by
    split
    · exact (typeNamed?_calm _).introduces.bind fun _ =>
        (addMember_introduces _ _).bind fun _ => .pure _
    · exact .pure _
  cases c.type? d.symbol with
  | none => exact .pure _
  | some t =>
    dsimp only
    split
    · exact (modifyType_introduces _ _).bind fun _ => hconstructor t
    · exact hconstructor t

theorem declareAll_introduces {types : List DeclaredType}
    (hnodes : ∀ d ∈ types, ∀ m ∈ d.decl.ownMembers, ⟨d.source.file, m.id⟩ ∉ ns) :
    Introduces ns (declareAll types) := by
  refine Introduces.bind (.mapM fun d hd => ?_) fun _ =>
    Introduces.bind (.forM fun d _ => addImplicit_introduces d) fun _ => .pure _
  refine (declareBases_introduces d).bind fun _ => ?_
  refine Introduces.bind (.mapM fun m hm => declareMember_introduces fun htype => ?_)
    fun _ => .pure _
  exact hnodes d hd m (List.mem_filter.2 ⟨hm, by rw [htype]; rfl⟩)

end PropertyLint
