/-
# Bound projects are valid

Binding the attributes, the initial values and the bodies of declarations leads to valid states
(`bindTypeBody_finds`), and so does evaluating the constant fields, so that all numbers that binding
stores anywhere are valid when it is done (`Project.valid_of_read`).
-/
import PropertyLint.Proofs.Binding.Declarations
import PropertyLint.Proofs.Binding.Exprs
import PropertyLint.Proofs.Binding.Files

namespace PropertyLint

open Binder

variable {c c' : Compilation} {nodes : Set NodeRef} {scope : Scope} {d : DeclaredType}

/-! ## Attributes -/

theorem bindAttributeArgs_finds (hscope : scope.Sound c) (class? : Option SymbolId)
    (args : List (Argument Expr)) (hcovers : scope.Covers nodes (nodesOfArgs args)) :
    Finds nodes c (bindAttributeArgs scope class? args) fun _ _ => True := by
  induction args generalizing c with
  | nil => exact .pure fun _ _ => trivial
  | cons arg rest ih =>
    rw [nodesOfArgs, Scope.covers_cons, Scope.covers_append] at hcovers
    obtain ⟨hnode, hvalue, hrest⟩ := hcovers
    rw [bindAttributeArgs]
    refine (bindValue_finds hscope hvalue).bind fun c₁ type hle₁ _ => ?_
    have hscope₁ := hscope.mono hle₁
    split
    next ident _ =>
      cases class? with
      | none => exact ih hscope₁ hrest
      | some owner =>
        refine .comp fun c₂ hc₂ hle₂ => ?_
        dsimp only
        split
        next member _ hlookup =>
          have hmember : c₂.Has member :=
            hc₂.has_lookupMembers member (by rw [hlookup]; exact .head _)
          exact (finds_recordSymbol hnode hmember).bind fun c₃ _ hle₃ _ =>
            ih (hscope₁.mono (le_trans hle₂ hle₃)) hrest
        next => exact ih (hscope₁.mono hle₂) hrest
    next => exact (ih hscope₁ hrest).bind fun _ _ _ _ => .pure fun _ _ => trivial

theorem bindAttribute_finds (hscope : scope.Sound c) (a : Attribute)
    (hcovers : scope.Covers nodes a.nodes) :
    Finds nodes c (bindAttribute scope a) fun _ _ => True := by
  rw [Attribute.nodes, Scope.covers_cons, Scope.covers_append] at hcovers
  obtain ⟨hnode, hname, hargs⟩ := hcovers
  have hargs : scope.Covers nodes (nodesOfArgs ((a.args.map ArgumentList.args).getD [])) := by
    cases ha : a.args with
    | none => exact Scope.covers_nil
    | some list => simpa [ha, nodesOfOption] using hargs
  unfold bindAttribute
  refine (resolveAttributeClass_finds hscope hname).bind fun c₁ class? hle₁ hclass => ?_
  refine (bindAttributeArgs_finds (hscope.mono hle₁) class? _ hargs).bind fun c₂ passed hle₂ _ => ?_
  cases class? with
  | none => exact .pure fun _ _ => trivial
  | some owner =>
    exact (finds_recordType ((hclass owner rfl).mono hle₂)).bind fun _ _ _ _ =>
      bindConstructor_finds hnode owner passed

theorem bindAttributes_finds (hscope : scope.Sound c) (as : List Attribute)
    (hcovers : scope.Covers nodes (nodesOfAttributes as)) :
    Finds nodes c (bindAttributes scope as) fun _ _ => True :=
  finds_forM fun a ha => bindAttribute_finds hscope a fun n hn =>
    hcovers n (List.mem_flatMap.2 ⟨a, ha, hn⟩)

/-! ## Bodies -/

theorem has_paramLocals {s : BindState} (hs : s.Valid) (params : List Parameter) :
    ∀ e ∈ paramLocals s.facts scope params, s.comp.Has e.2 := by
  intro e he
  obtain ⟨p, -, hp⟩ := List.mem_filterMap.1 (List.mem_reverse.1 he)
  obtain ⟨id, hid, rfl⟩ := Option.map_eq_some_iff.1 hp
  exact hs.facts.declared _ (mem_of_lookup hid)

theorem bindParams_finds (hscope : scope.Sound c) (params : List Parameter)
    (hcovers : scope.Covers nodes (params.flatMap Parameter.nodes)) :
    Finds nodes c (bindParams scope params) fun _ _ => True := by
  refine finds_forM fun p hp => ?_
  have hcovers : scope.Covers nodes p.nodes := fun n hn =>
    hcovers n (List.mem_flatMap.2 ⟨p, hp, hn⟩)
  rw [Parameter.nodes, Scope.covers_cons, Scope.covers_append, Scope.covers_append] at hcovers
  obtain ⟨-, ⟨hattributes, -⟩, hdefault⟩ := hcovers
  exact (bindAttributes_finds hscope _ hattributes).bind fun _ _ hle _ =>
    bindOption_finds (hscope.mono hle) hdefault

theorem bindCallable_finds (hscope : scope.Sound c) (params : List Parameter) (body : Body)
    (hparams : scope.Covers nodes (params.flatMap Parameter.nodes))
    (hbody : scope.Covers nodes body.nodes) :
    Finds nodes c (bindCallable scope params body) fun _ _ => True :=
  .get fun _ hs hle => finds_inFreshScope (has_paramLocals hs params) <|
    (bindParams_finds (hscope.mono hle) params hparams).bind fun _ _ hle' _ =>
      bindBody_finds (hscope.mono (le_trans hle hle')) hbody

theorem bindAccessor_finds (hscope : scope.Sound c) {propertyType : Option SymbolId}
    (htype : ∀ t ∈ propertyType, c.IsType t) (isSetter : Bool) (a : Accessor)
    (hcovers : scope.Covers nodes a.nodes) :
    Finds nodes c (bindAccessor scope propertyType isSetter a) fun _ _ => True := by
  rw [Accessor.nodes, Scope.covers_cons] at hcovers
  refine finds_inFreshScope (List.forall_mem_nil _) ?_
  have hbody {c' : Compilation} (hle : c ≤ c') := bindBody_finds (hscope.mono hle) hcovers.2
  dsimp only
  split
  · refine (finds_add ?_ fun _ => Symbol.noConfusion).bind fun c₁ id hle₁ hid => ?_
    · exact htype
    · exact (finds_addLocal (Compilation.has_of_symbol? hid)).bind fun _ _ hle₂ _ =>
        hbody (le_trans hle₁ hle₂)
  · exact hbody (le_refl c)

theorem bindProperty_finds (hscope : scope.Sound c) (p : PropertyDecl)
    (harrow : scope.Covers nodes (nodesOfOption Expr.nodes p.arrow))
    (haccessors : scope.Covers nodes (p.accessors.flatMap Accessor.nodes))
    (hinit : scope.Covers nodes (nodesOfOption Expr.nodes p.init)) :
    Finds nodes c (bindProperty scope p) fun _ _ => True := by
  refine .get fun s hs hle => finds_inFreshScope (List.forall_mem_nil _) ?_
  have htype : ∀ t ∈ (s.facts.declared? ⟨scope.file, p.node.id⟩).bind s.comp.valueType?,
      s.comp.IsType t := by
    intro t ht
    obtain ⟨id, -, ht⟩ := Option.bind_eq_some_iff.1 ht
    exact hs.comp.isType_valueType? t ht
  have hscope := hscope.mono hle
  refine (bindOption_finds hscope harrow).bind fun c₁ _ hle₁ _ => ?_
  refine (finds_forM fun a ha => ?_).bind fun c₂ _ hle₂ _ =>
    bindOption_finds (hscope.mono (le_trans hle₁ hle₂)) hinit
  exact bindAccessor_finds (hscope.mono hle₁) (fun t ht => (htype t ht).mono hle₁) _ a fun n hn =>
    haccessors n (List.mem_flatMap.2 ⟨a, ha, hn⟩)

theorem methodTypeParamsOf_finds (scope : Scope) (m : MethodDecl) :
    Finds nodes c (methodTypeParamsOf scope m) fun c' ps => ∀ p ∈ ps, c'.IsType p := by
  refine .get fun s hs _ => .pure fun c' hle => ?_
  cases hlookup : s.methodTypeParams.lookup ⟨scope.file, m.node.id⟩ with
  | none => exact List.forall_mem_nil _
  | some ps => exact fun p hp => (hs.typeParams _ (mem_of_lookup hlookup) p hp).mono hle

/-- The nodes of a member that are bound with the body of its type. -/
def Member.boundNodes : Member → List SyntaxNode
  | .field d =>
    nodesOfAttributes d.attributes ++
      if d.modifiers.has .const then [] else nodesOfOption Expr.nodes d.init
  | .property d => d.nodes
  | .method d => d.nodes
  | .constructor d => d.nodes
  | .type _ => []

theorem bindMemberBody_finds (hscope : scope.Sound c) {m : Member} (hm : m.isType = false)
    (hcovers : scope.Covers nodes m.boundNodes) :
    Finds nodes c (bindMemberBody scope m) fun _ _ => True := by
  unfold bindMemberBody
  cases m with
  | field decl =>
    rw [Member.boundNodes, Scope.covers_append] at hcovers
    obtain ⟨hattributes, hinit⟩ := hcovers
    refine (bindAttributes_finds hscope _ hattributes).bind fun c₁ _ hle₁ _ => ?_
    by_cases hconst : decl.modifiers.has .const = true
    · dsimp only
      rw [if_neg (by simp [hconst])]
      exact .pure fun _ _ => trivial
    · rw [if_neg hconst] at hinit
      dsimp only
      rw [if_pos (by simp [hconst])]
      exact bindOption_finds (hscope.mono hle₁) hinit
  | property decl =>
    simp only [Member.boundNodes, PropertyDecl.nodes, Scope.covers_append] at hcovers
    obtain ⟨⟨⟨⟨hattributes, -⟩, harrow⟩, haccessors⟩, hinit⟩ := hcovers
    exact (bindAttributes_finds hscope _ hattributes).bind fun _ _ hle _ =>
      bindProperty_finds (hscope.mono hle) decl harrow haccessors hinit
  | method decl =>
    simp only [Member.boundNodes, MethodDecl.nodes, Scope.covers_append] at hcovers
    obtain ⟨⟨⟨⟨hattributes, -⟩, -⟩, hparams⟩, hbody⟩ := hcovers
    refine (bindAttributes_finds hscope _ hattributes).bind fun c₁ _ hle₁ _ => ?_
    refine (methodTypeParamsOf_finds scope decl).bind fun c₂ typeParams hle₂ htypeParams => ?_
    have hscope₂ := hscope.mono (le_trans hle₁ hle₂)
    have hmethod : Scope.Sound c₂ { scope with methodTypeParams := typeParams } :=
      { type := hscope₂.type
        params := htypeParams }
    exact bindCallable_finds hmethod _ _ hparams hbody
  | constructor decl =>
    simp only [Member.boundNodes, ConstructorDecl.nodes, Scope.covers_append] at hcovers
    obtain ⟨⟨hattributes, hparams⟩, hbody⟩ := hcovers
    exact (bindAttributes_finds hscope _ hattributes).bind fun _ _ hle _ =>
      bindCallable_finds (hscope.mono hle) _ _ hparams hbody
  | type decl => cases hm

theorem nodesOfMembers_subset {m : Member} {ms : List Member} (hm : m ∈ ms) :
    nodesOfMembers [m] ⊆ nodesOfMembers ms := by
  induction ms with
  | nil => cases hm
  | cons first rest ih =>
    rw [Part.nodesOfMembers_cons first rest]
    rcases List.mem_cons.1 hm with rfl | hm
    · exact List.subset_append_left _ _
    · exact List.Subset.trans (ih hm) (List.subset_append_right _ _)

theorem TypeDecl.nodesOfMembers_subset {t : TypeDecl} {m : Member} (hm : m ∈ t.members) :
    nodesOfMembers [m] ⊆ t.nodes := by
  obtain ⟨header, members⟩ := t
  rw [TypeDecl.nodes]
  exact fun n hn => .tail _ (List.mem_append_right _ (PropertyLint.nodesOfMembers_subset hm hn))

/-- The nodes of a type that are bound with its body. -/
def TypeDecl.boundNodes (t : TypeDecl) : List SyntaxNode :=
  nodesOfAttributes t.attributes ++ t.ownMembers.flatMap Member.boundNodes

theorem bindTypeBody_finds (hd : c.IsType d.symbol)
    (hcovers : d.scope.Covers nodes d.decl.boundNodes) :
    Finds nodes c (bindTypeBody d) fun _ _ => True := by
  rw [TypeDecl.boundNodes, Scope.covers_append] at hcovers
  have hscope := DeclaredType.scope_sound hd
  refine finds_inFreshScope (List.forall_mem_nil _) ?_
  refine (bindAttributes_finds hscope _ hcovers.1).bind fun c₁ _ hle₁ _ =>
    finds_forM fun m hm => ?_
  have htype : m.isType = false := by simpa using (List.mem_filter.1 hm).2
  exact bindMemberBody_finds (hscope.mono hle₁) htype fun n hn =>
    hcovers.2 n (List.mem_flatMap.2 ⟨m, hm, hn⟩)

theorem bindAssembly_finds (source : Source)
    (hcovers : source.scope.Covers nodes (nodesOfAttributes source.root.attributes)) :
    Finds nodes c (bindAssembly source) fun _ _ => True := by
  have hscope : Scope.Sound c source.scope :=
    { type := fun _ ht => by cases ht
      params := List.forall_mem_nil _ }
  exact finds_inFreshScope (List.forall_mem_nil _) (bindAttributes_finds hscope _ hcovers)

/-! ## Constants -/

/-- The state after the initial value of a constant field has been bound. -/
def ConstField.bound (f : ConstField) (s : BindState) : BindState :=
  ((inFreshScope [] (Functor.discard (bindExpr f.scope f.init))).run s).2

/-- The constant field gets the constant that its initial value is worth. -/
theorem bindConstField_run (f : ConstField) (s : BindState) : ((bindConstField f).run s).2 =
    { f.bound s with fieldConstants :=
        (((f.bound s).facts.constant? ⟨f.scope.file, f.init.id⟩).map (Prod.mk f.symbol)).toList ++
          (f.bound s).fieldConstants } := by
  -- the state in which the initial value has been bound, and its locals are in scope
  let inner := ((bindExpr f.scope f.init).run { s with locals := [] }).2
  have hinner : (Functor.discard (bindExpr f.scope f.init)).run { s with locals := [] } =
    pure (PUnit.unit, inner) := rfl
  have hbound : f.bound s = { inner with locals := s.locals } := rfl
  rw [hbound]
  cases hv : inner.facts.constant? ⟨f.scope.file, f.init.id⟩ with
  | some _ =>
    simp only [bindConstField, inFreshScope, withLocals, constant?, StateT.run_bind, StateT.run_get,
      StateT.run_modify, hinner, pure_bind, StateT.run_pure, hv]
    rfl
  | none =>
    simp only [bindConstField, inFreshScope, withLocals, constant?, StateT.run_bind, StateT.run_get,
      StateT.run_modify, hinner, pure_bind, StateT.run_pure, hv]
    rfl

/-- The numbers of a constant field are valid. -/
structure ConstField.Sound (c : Compilation) (f : ConstField) : Prop where
  scope : f.scope.Sound c
  symbol : c.Has f.symbol

theorem ConstField.Sound.mono {f : ConstField} (h : f.Sound c) (hle : c ≤ c') : f.Sound c' :=
  ⟨h.scope.mono hle, h.symbol.mono hle⟩

theorem ConstField.For.sound {decl : FieldDecl} {f : ConstField} (h : f.For c d decl)
    (hd : c.IsType d.symbol) : f.Sound c := by
  obtain ⟨symbol, hsymbol, -⟩ := h.symbol
  refine ⟨?_, Compilation.has_of_symbol? hsymbol⟩
  rw [h.scope]
  exact DeclaredType.scope_sound hd

theorem ConstField.bound_leads {f : ConstField} {s : BindState} (hs : s.Valid) (hf : f.Sound s.comp)
    (hcovers : f.scope.Covers nodes f.init.nodes) : s.Leads nodes (f.bound s) :=
  (finds_inFreshScope (List.forall_mem_nil _)
    (Finds.discard (bindExpr_finds hf.scope f.init hcovers)) s hs (le_refl _)).1

theorem bindConstField_valid {f : ConstField} {s : BindState} (hs : s.Valid) (hf : f.Sound s.comp) :
    ((bindConstField f).run s).2.Valid ∧ s.comp ≤ ((bindConstField f).run s).2.comp := by
  have hlead : s.Leads Set.univ (f.bound s) :=
    ConstField.bound_leads hs hf fun _ _ => trivial
  rw [bindConstField_run]
  refine ⟨{ hlead.valid with fieldConstants := ?_ }, hlead.comp⟩
  refine List.forall_mem_append.2 ⟨fun e he => ?_, hlead.valid.fieldConstants⟩
  obtain ⟨v, -, rfl⟩ := Option.map_eq_some_iff.1 (Option.mem_toList.1 he)
  exact hf.symbol.mono hlead.comp

theorem forM_bindConstField_valid {fs : List ConstField} {s : BindState} (hs : s.Valid)
    (hfs : ∀ f ∈ fs, f.Sound s.comp) : ((fs.forM bindConstField).run s).2.Valid ∧
      s.comp ≤ ((fs.forM bindConstField).run s).2.comp := by
  induction fs generalizing s with
  | nil => exact ⟨hs, le_refl _⟩
  | cons f fs ih =>
    obtain ⟨hvalid, hle⟩ := bindConstField_valid hs (hfs f (.head _))
    obtain ⟨hvalid', hle'⟩ := ih hvalid fun g hg => (hfs g (.tail _ hg)).mono hle
    exact ⟨hvalid', le_trans hle hle'⟩

/-! ## Projects -/

/-- The state after all types have been declared. -/
def typesDeclared (sources : List Source) : List DeclaredType × BindState :=
  (declareTypes sources).run {}

/-- The state after all bases and members have been declared. -/
def membersDeclared (sources : List Source) : List ConstField × BindState :=
  (declareAll (typesDeclared sources).1).run (typesDeclared sources).2

/-- The state after the constant fields have been evaluated. -/
def constantsBound (sources : List Source) : BindState :=
  (((membersDeclared sources).1.forM bindConstField).run (membersDeclared sources).2).2

/-- The state after the attributes of the assemblies have been bound. -/
def assembliesBound (sources : List Source) : BindState :=
  (((sources.filter fun s => s.file.isSome).forM bindAssembly).run (constantsBound sources)).2

theorem bindSources_run (sources : List Source) : ((bindSources sources).run {}).2 =
    ((((typesDeclared sources).1.filter fun d => d.source.file.isSome).forM bindTypeBody).run
      (assembliesBound sources)).2 := rfl

theorem DeclaredType.coveredIn_univ (d : DeclaredType) : d.CoveredIn Set.univ where
  bases _ _ _ _ := trivial
  members m _ := by
    cases m with
    | field _ | property _ => exact fun _ _ => trivial
    | method _ => exact ⟨fun _ _ => trivial, fun _ _ _ _ => trivial, fun _ _ _ _ => trivial⟩
    | constructor _ => exact fun _ _ _ _ => trivial
    | type _ => trivial

/-- Types are declared for the type declarations of the files. -/
theorem typesDeclared_leads (sources : List Source) :
    BindState.Leads ∅ {} (typesDeclared sources).2 ∧
      DeclaredFor (typesDeclared sources).2.comp
        (sources.flatMap fun s => s.root.allTypes.map (Prod.mk s)) (typesDeclared sources).1 :=
  declareTypes_finds sources {} .empty (le_refl _)

theorem membersDeclared_leads (nodes : Set NodeRef) (sources : List Source)
    (hcovers : ∀ d ∈ (typesDeclared sources).1, d.CoveredIn nodes) :
    (typesDeclared sources).2.Leads nodes (membersDeclared sources).2 ∧
      List.Forall₂ (fun x f => ConstField.For (membersDeclared sources).2.comp x.1 x.2 f)
        ((typesDeclared sources).1.flatMap fun d => d.decl.constFields.map (Prod.mk d))
        (membersDeclared sources).1 := by
  obtain ⟨hlead, htypes⟩ := typesDeclared_leads sources
  exact declareAll_finds htypes.symbol hcovers _ hlead.valid (le_refl _)

theorem exists_of_forall₂ {α β : Type} {R : α → β → Prop} {as : List α} {bs : List β} {b : β}
    (h : List.Forall₂ R as bs) (hb : b ∈ bs) : ∃ a ∈ as, R a b := by
  induction h with
  | nil => cases hb
  | cons hR _ ih =>
    rcases List.mem_cons.1 hb with rfl | hb
    · exact ⟨_, .head _, hR⟩
    · obtain ⟨a, ha, hab⟩ := ih hb
      exact ⟨a, .tail _ ha, hab⟩

/-- The constant fields that are left to be evaluated belong to declared types. -/
theorem exists_of_mem_constFields {sources : List Source} {f : ConstField}
    (hf : f ∈ (membersDeclared sources).1) : ∃ d ∈ (typesDeclared sources).1,
      ∃ decl ∈ d.decl.constFields, ConstField.For (membersDeclared sources).2.comp d decl f := by
  obtain ⟨-, hfields⟩ := membersDeclared_leads Set.univ sources fun d _ => d.coveredIn_univ
  obtain ⟨⟨d, decl⟩, hmem, hfor⟩ := exists_of_forall₂ hfields hf
  obtain ⟨d', hd', hmem⟩ := List.mem_flatMap.1 hmem
  obtain ⟨decl', hdecl, heq⟩ := List.mem_map.1 hmem
  obtain ⟨rfl, rfl⟩ := Prod.mk.inj heq
  exact ⟨d', hd', decl', hdecl, hfor⟩

/-- All constant fields are left to be evaluated. -/
theorem exists_constField {sources : List Source} (hd : d ∈ (typesDeclared sources).1)
    {decl : FieldDecl} (hdecl : decl ∈ d.decl.constFields) :
    ∃ f ∈ (membersDeclared sources).1,
      ConstField.For (membersDeclared sources).2.comp d decl f := by
  obtain ⟨-, hfields⟩ := membersDeclared_leads Set.univ sources fun d _ => d.coveredIn_univ
  have hmem : (d, decl) ∈ (typesDeclared sources).1.flatMap fun d =>
      d.decl.constFields.map (Prod.mk d) :=
    List.mem_flatMap.2 ⟨d, hd, List.mem_map_of_mem hdecl⟩
  exact exists_of_forall₂ hfields.flip hmem

theorem membersDeclared_sound (sources : List Source) :
    ∀ f ∈ (membersDeclared sources).1, f.Sound (membersDeclared sources).2.comp := by
  obtain ⟨-, htypes⟩ := typesDeclared_leads sources
  obtain ⟨hlead, -⟩ := membersDeclared_leads Set.univ sources fun d _ => d.coveredIn_univ
  intro f hf
  obtain ⟨d, hd, decl, -, hfor⟩ := exists_of_mem_constFields hf
  exact hfor.sound ((htypes.symbol d hd).mono hlead.comp)

theorem constantsBound_valid (sources : List Source) : (constantsBound sources).Valid ∧
    (membersDeclared sources).2.comp ≤ (constantsBound sources).comp := by
  obtain ⟨hlead, -⟩ := membersDeclared_leads Set.univ sources fun d _ => d.coveredIn_univ
  exact forM_bindConstField_valid hlead.valid (membersDeclared_sound sources)

theorem assembliesBound_leads (nodes : Set NodeRef) (sources : List Source)
    (hcovers : ∀ s ∈ sources, s.file.isSome →
      s.scope.Covers nodes (nodesOfAttributes s.root.attributes)) :
    (constantsBound sources).Leads nodes (assembliesBound sources) := by
  refine (finds_forM fun s hs => ?_) _ (constantsBound_valid sources).1 (le_refl _) |>.1
  obtain ⟨hs, hfile⟩ := List.mem_filter.1 hs
  exact bindAssembly_finds s (hcovers s hs hfile)

theorem bindSources_leads (sources : List Source) :
    (assembliesBound sources).Leads Set.univ ((bindSources sources).run {}).2 := by
  obtain ⟨-, htypes⟩ := typesDeclared_leads sources
  obtain ⟨hmembers, -⟩ := membersDeclared_leads Set.univ sources fun d _ => d.coveredIn_univ
  have hassemblies := assembliesBound_leads Set.univ sources fun _ _ _ _ _ => trivial
  have hle := le_trans hmembers.comp
    (le_trans (constantsBound_valid sources).2 hassemblies.comp)
  have hbodies : Finds Set.univ (assembliesBound sources).comp
      (((typesDeclared sources).1.filter fun d => d.source.file.isSome).forM bindTypeBody)
      fun _ _ => True :=
    finds_forM fun d hd => bindTypeBody_finds
      ((htypes.symbol d (List.mem_filter.1 hd).1).mono hle) fun _ _ => trivial
  rw [bindSources_run]
  exact (hbodies _ hassemblies.valid (le_refl _)).1

/-- The symbols of the members are still there when everything has been bound. -/
theorem membersDeclared_le (sources : List Source) :
    (membersDeclared sources).2.comp ≤ ((bindSources sources).run {}).2.comp := by
  have hassemblies := assembliesBound_leads Set.univ sources fun _ _ _ _ _ => trivial
  exact le_trans (constantsBound_valid sources).2
    (le_trans hassemblies.comp (bindSources_leads sources).comp)

namespace Project

/-- All numbers of symbols in a project are valid: those in its symbols, in the tables of what has
been constructed and what is known, and in the facts about its nodes. -/
structure Valid (p : Project) : Prop where
  comp : p.comp.Valid
  known : p.comp.known.Sound p.comp
  facts : p.facts.Sound p.comp

theorem valid_of_bound (trees : List SyntaxTree) (markers : List (List Nat)) {s : BindState}
    (h : s.Valid) : Valid ⟨trees, markers, s.comp.withKnown, s.facts⟩ where
  comp := h.comp.withKnown
  known := h.comp.withKnown.known_sound
  facts := h.facts.mono s.comp.le_withKnown

/-- **Validity.**  When the files of a project have been read and bound, every number of a symbol
that is stored anywhere is that of a symbol; base types, interfaces, type arguments, types of
elements and of values are types, and the parameters of methods are parameters. -/
theorem valid_of_read {files : List String} {p : Project} (h : Project.read files = .ok p) :
    p.Valid := by
  obtain ⟨trees, markers, rfl⟩ := exists_ofTrees h
  exact valid_of_bound trees markers (bindSources_leads _).valid

/-- A generic class whose base is constructed from the class itself, and a call. -/
def selfBased : String :=
  "using System.Collections.Generic; class A<T> : List<A<T>> \x7b" ++
    "A<int>[] F(int? n = 1) \x7b var a = F(-n); return a; \x7d \x7d"

/-- The file is read, so its project is valid. -/
theorem valid_of_read_selfBased : ∃ p, Project.read [selfBased] = .ok p ∧ p.Valid := by
  have hread : (Project.read [selfBased]).toOption.isSome = true := by decide +kernel
  obtain ⟨p, hp⟩ := Option.isSome_iff_exists.1 hread
  rw [toOption_eq_some_iff] at hp
  exact ⟨p, hp, valid_of_read hp⟩

end Project

end PropertyLint
