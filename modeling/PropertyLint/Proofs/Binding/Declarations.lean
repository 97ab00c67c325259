/-
# Declared symbols are valid

Declaring types, bases and members leads to valid states, and says which symbols written types
stand for, but nothing about other nodes (`declareTypes_finds`, `declareAll_finds`).  The types that
are declared are those of the files in their order, and the constant fields that are left to be
evaluated are those of these types.
-/
import PropertyLint.Proofs.Binding.Types
import PropertyLint.Proofs.Syntax.Numbering

namespace PropertyLint

open Binder

/-- The identities of the types among nodes are among the given ones. -/
def Scope.CoversTypes (scope : Scope) (nodes : Set NodeRef) (ns : List SyntaxNode) : Prop :=
  ∀ t, .type t ∈ ns → ⟨scope.file, t.id⟩ ∈ nodes

variable {c c' : Compilation} {nodes : Set NodeRef} {scope : Scope} {source : Source}
  {outer : Option SymbolId} {owner : SymbolId} {base : Option SymbolId} {ns : List SyntaxNode}
  {d : DeclaredType}

/-! ## Types -/

/-- The owner gets its type parameters, one behind the other.  While one of them is added it is not
yet in the list of its owner, so the states are followed here and not the steps. -/
theorem addTypeParams_leads {s : BindState} {t : TypeSymbol} (hs : s.Valid)
    (ht : s.comp.type? owner = some t) (hplain : t.genericDefinition = none)
    (hbase : ∀ b ∈ base, s.comp.IsType b) (names : List Ident) :
    s.Leads nodes ((addTypeParams owner base t.typeParams.length names).run s).2 ∧
      ∃ t', t'.core = t.core ∧
        ((addTypeParams owner base t.typeParams.length names).run s).2.comp.type? owner
          = some t' := by
  induction names generalizing s t with
  | nil => exact ⟨.refl hs, t, rfl, ht⟩
  | cons name rest ih =>
    let param : TypeSymbol :=
      { name := name.text, kind := .typeParameter, containingType := owner,
        ordinal := t.typeParams.length, baseType := base }
    let f : TypeSymbol → TypeSymbol := fun t =>
      { t with typeParams := t.typeParams ++ [s.comp.symbols.size] }
    let added := (s.comp.add (.type param)).2
    have hsound : (Symbol.type param).Sound s.comp :=
      { containing := by
          rintro _ ⟨⟩
          exact Compilation.isType_of_type? ht
        base := hbase
        interfaces := List.forall_mem_nil _
        members := List.forall_mem_nil _
        params := List.forall_mem_nil _
        args := List.forall_mem_nil _
        definition := by rintro _ ⟨⟩
        element := by rintro _ ⟨⟩ }
    have hparam : added.IsType s.comp.symbols.size := ⟨param, Compilation.symbol?_add_size _⟩
    have hvalid : (added.modifyType owner f).Valid :=
      (hs.comp.add hsound).modifyType fun u hu => { hu with
        params := List.forall_mem_append.2 ⟨hu.params, List.forall_mem_singleton.2 hparam⟩ }
    have hlayered : (added.modifyType owner f).Layered :=
      hs.layered.addOwned ht hplain rfl rfl rfl ⟨rfl, rfl, rfl, rfl⟩
    have hgrow : s.comp ≤ added.modifyType owner f :=
      le_trans (s.comp.le_add _) (Compilation.le_modifyType _ _ _)
    have ht₁ : (added.modifyType owner f).type? owner = some (f t) := by
      have hold : added.type? owner = some t :=
        (Compilation.type?_add_of_lt _ (Compilation.lt_of_type?_eq_some ht)).trans ht
      rw [Compilation.type?_modifyType owner f hold, if_pos rfl]
    have hlead : s.Leads nodes { s with comp := added.modifyType owner f } :=
      hs.leads hvalid hlayered hgrow
    have hlength : (f t).typeParams.length = t.typeParams.length + 1 := List.length_append
    obtain ⟨hrest, t', hcore, ht'⟩ :=
      ih hlead.valid ht₁ hplain fun b hb => (hbase b hb).mono hgrow
    rw [hlength] at hrest ht'
    exact ⟨hlead.trans hrest, t', hcore, ht'⟩

theorem typeSymbolOf_sound (houter : ∀ t ∈ outer, c.IsType t) (decl : TypeHeader) :
    (Symbol.type (typeSymbolOf outer decl)).Sound c :=
  { containing := houter
    base := by rintro _ ⟨⟩
    interfaces := List.forall_mem_nil _
    members := List.forall_mem_nil _
    params := List.forall_mem_nil _
    args := List.forall_mem_nil _
    definition := by rintro _ ⟨⟩
    element := by rintro _ ⟨⟩ }

theorem TypeKind.ofDecl_ne_typeParameter (kind : TypeDeclKind) :
    TypeKind.ofDecl kind ≠ .typeParameter := by
  cases kind <;> decide

/-- A declared type is in a layer of its own before it has parameters. -/
theorem typeSymbolOf_layer (houter : ∀ t ∈ outer, c.IsType t) (decl : TypeHeader) :
    c.Layer c.symbols.size (typeSymbolOf outer decl) where
  founded :=
    { element := by rintro _ ⟨⟩
      args := List.forall_mem_nil _
      params := List.forall_mem_nil _
      plain := fun _ => rfl
      origin := by rintro _ ⟨⟩ }
  outer o ho := (houter o ho).has
  owned hkind := absurd hkind (TypeKind.ofDecl_ne_typeParameter decl.kind)

theorem createType_finds (houter : ∀ t ∈ outer, c.IsType t) (decl : TypeHeader) :
    Finds nodes c (createType outer decl) fun c' id => c'.IsType id := by
  intro s hs hle
  have houter' : ∀ t ∈ outer, s.comp.IsType t := fun t ht => (houter t ht).mono hle
  -- the type, then its parameters, then its name
  let s₁ : BindState := { s with comp := (s.comp.add (.type (typeSymbolOf outer decl))).2 }
  have hlead₁ : s.Leads nodes s₁ := by
    refine hs.leads (hs.comp.add (typeSymbolOf_sound houter' decl)) ?_ (s.comp.le_add _)
    refine hs.layered.add fun t ht => ?_
    obtain rfl := Symbol.type.inj ht
    exact typeSymbolOf_layer houter' decl
  have ht₁ : s₁.comp.type? s.comp.symbols.size = some (typeSymbolOf outer decl) :=
    Compilation.type?_add_size _
  let object := s₁.comp.typeNamed? KnownType.object.metadataName
  let s₂ := ((addTypeParams s.comp.symbols.size object 0 decl.typeParams).run s₁).2
  obtain ⟨hlead₂, t, hcore, ht₂⟩ : s₁.Leads nodes s₂ ∧
      ∃ t, t.core = (typeSymbolOf outer decl).core ∧
        s₂.comp.type? s.comp.symbols.size = some t :=
    addTypeParams_leads hlead₁.valid ht₁ rfl hlead₁.valid.comp.isType_typeNamed? decl.typeParams
  have hdefinition : s₂.comp.IsDefinition s.comp.symbols.size := by
    refine ⟨t, ht₂, ?_, Compilation.genericDefinition_of_core hcore⟩
    rw [Compilation.kind_of_core hcore]
    exact TypeKind.ofDecl_ne_typeParameter decl.kind
  have hlead₃ : s₂.Leads nodes { s₂ with comp := s₂.comp.register s.comp.symbols.size } :=
    hlead₂.valid.leads (hlead₂.valid.comp.register hdefinition.isType)
      (hlead₂.valid.layered.register hdefinition) (Compilation.le_of_symbols_eq rfl)
  exact ⟨hlead₁.trans (hlead₂.trans hlead₃), hdefinition.isType.mono hlead₃.comp⟩

theorem declareHeader_finds (houter : ∀ t ∈ outer, c.IsType t) (decl : TypeHeader) :
    Finds nodes c (declareHeader source outer decl) fun c' id => c'.IsType id := by
  have hdeclare {c : Compilation} {id : SymbolId} (hid : c.IsType id) : Finds nodes c (do
      declare source.scope decl.node.id id
      return id) fun c' id => c'.IsType id :=
    (finds_declare hid.has).bind fun c₁ _ hle₁ _ => .pure fun c₂ hle₂ =>
      hid.mono (le_trans hle₁ hle₂)
  have hplace {c : Compilation} {id : SymbolId} (place : SourceRef) (hid : c.IsType id) :
      Finds nodes c (do
        change fun c => ((), c.modifyType id fun t =>
          { t with declarations := t.declarations ++ [place] })
        declare source.scope decl.node.id id
        return id) fun c' id => c'.IsType id := by
    have hmodify : Finds nodes c (change fun c => ((), c.modifyType id fun t =>
        { t with declarations := t.declarations ++ [place] })) fun _ _ => True :=
      finds_change_modifyType (fun _ _ _ ht => { ht with }) (fun _ => rfl) fun _ => rfl
    exact hmodify.bind fun _ _ hle _ => hdeclare (hid.mono hle)
  unfold declareHeader
  refine .comp fun c₁ hc₁ hle₁ => ?_
  dsimp only
  cases hpart : earlierPart? c₁ outer decl with
  | some id =>
    have hid : c₁.IsType id := by
      unfold earlierPart? at hpart
      split at hpart
      · exact hc₁.isType_typeNamed? id hpart
      · cases hpart
    cases source.scope.sourceRef decl.node with
    | some place => exact hplace place hid
    | none => exact hdeclare hid
  | none =>
    refine (createType_finds (fun t ht => (houter t ht).mono hle₁) decl).bind
      fun c₂ id _ hid => ?_
    cases source.scope.sourceRef decl.node with
    | some place => exact hplace place hid
    | none => exact hdeclare hid

/-- The types are those of the declarations, in this order, and their numbers are those of types. -/
structure DeclaredFor (c : Compilation) (decls : List (Source × TypeDecl))
    (ds : List DeclaredType) : Prop where
  decls : (ds.map fun d => (d.source, d.decl)) = decls
  symbol : ∀ d ∈ ds, c.IsType d.symbol

namespace DeclaredFor

variable {decls decls' : List (Source × TypeDecl)} {ds ds' : List DeclaredType}

theorem nil : DeclaredFor c [] [] := ⟨rfl, List.forall_mem_nil _⟩

theorem mono (h : DeclaredFor c decls ds) (hle : c ≤ c') : DeclaredFor c' decls ds :=
  { h with symbol := fun d hd => (h.symbol d hd).mono hle }

theorem append (h : DeclaredFor c decls ds) (h' : DeclaredFor c decls' ds') :
    DeclaredFor c (decls ++ decls') (ds ++ ds') where
  decls := by rw [List.map_append, h.decls, h'.decls]
  symbol := List.forall_mem_append.2 ⟨h.symbol, h'.symbol⟩

theorem flatten {α : Type} {f : α → List (Source × TypeDecl)} {as : List α}
    {dss : List (List DeclaredType)}
    (h : List.Forall₂ (fun a ds => DeclaredFor c (f a) ds) as dss) :
    DeclaredFor c (as.flatMap f) dss.flatten := by
  induction h with
  | nil => exact nil
  | cons hfirst _ ih => exact hfirst.append ih

end DeclaredFor

mutual

theorem declareType_finds {c : Compilation} : ∀ (decl : TypeDecl) (outer : Option SymbolId),
    (∀ t ∈ outer, c.IsType t) → Finds nodes c (declareType source outer decl)
      fun c' ds => DeclaredFor c' (decl.withNested.map (Prod.mk source)) ds
  | .mk header members, outer, houter => by
    rw [declareType]
    refine (declareHeader_finds houter header).bind fun c₁ id _ hid => ?_
    refine (declareNested_finds members id hid).bind fun c₂ ds hle₂ hds => ?_
    refine .pure fun c₃ hle₃ => ?_
    exact
      { decls := by rw [List.map_cons, hds.decls, TypeDecl.withNested, List.map_cons]
        symbol := List.forall_mem_cons.2
          ⟨hid.mono (le_trans hle₂ hle₃), (hds.mono hle₃).symbol⟩ }

theorem declareNested_finds {c : Compilation} : ∀ (members : List Member) (outer : SymbolId),
    c.IsType outer → Finds nodes c (declareNested source outer members)
      fun c' ds => DeclaredFor c' ((nestedIn members).map (Prod.mk source)) ds
  | [], _, _ => .pure fun _ _ => .nil
  | .type decl :: rest, outer, houter => by
    rw [declareNested]
    refine (declareType_finds decl (some outer) ?_).bind fun c₁ ds hle₁ hds => ?_
    · rintro _ ⟨⟩
      exact houter
    refine (declareNested_finds rest outer (houter.mono hle₁)).bind fun c₂ ds' hle₂ hds' => ?_
    refine .pure fun c₃ hle₃ => ?_
    rw [nestedIn, List.map_append]
    exact (hds.mono (le_trans hle₂ hle₃)).append (hds'.mono hle₃)
  | .field _ :: rest, outer, houter | .property _ :: rest, outer, houter
  | .method _ :: rest, outer, houter | .constructor _ :: rest, outer, houter => by
    rw [declareNested]
    exact declareNested_finds rest outer houter

end

/-- All types of the files are declared, each once and in their order. -/
theorem declareTypes_finds (sources : List Source) :
    Finds nodes c (declareTypes sources) fun c' ds =>
      DeclaredFor c' (sources.flatMap fun s => s.root.allTypes.map (Prod.mk s)) ds := by
  unfold declareTypes
  have hsource (s : Source) : Finds nodes c (s.root.types.mapM (declareType s none))
      fun c' dss => DeclaredFor c' (s.root.allTypes.map (Prod.mk s)) dss.flatten := by
    refine (finds_mapM (fun decl _ => declareType_finds decl none ?_) ?_).imp
      fun c' dss _ hdss => ?_
    · rintro _ ⟨⟩
    · exact fun _ _ _ _ hle h => h.mono hle
    · rw [CompilationUnit.allTypes, List.map_flatMap]
      exact .flatten hdss
  refine (finds_mapM (fun s _ => hsource s) fun _ _ _ _ hle h => h.mono hle).bind
    fun c₁ dsss _ hdsss => .pure fun c₂ hle₂ => ?_
  have hflat : DeclaredFor c₁ (sources.flatMap fun s => s.root.allTypes.map (Prod.mk s))
      (dsss.map List.flatten).flatten := by
    refine .flatten ?_
    rw [List.forall₂_map_right_iff]
    exact hdsss
  rw [List.flatten_flatten]
  exact hflat.mono hle₂

/-! ## Bases -/

mutual

theorem TypeRef.exists_type_of_mem_nodes {n : SyntaxNode} :
    ∀ t : TypeRef, n ∈ t.nodes → ∃ u, n = .type u
  | .keyword _ _, h => ⟨_, List.mem_singleton.1 h⟩
  | .named _ segments, h => by
    rw [TypeRef.nodes, List.mem_cons] at h
    rcases h with rfl | h
    · exact ⟨_, rfl⟩
    · exact exists_type_of_mem_nodesOfSegments segments h
  | .array _ element, h => by
    rw [TypeRef.nodes, List.mem_cons] at h
    rcases h with rfl | h
    · exact ⟨_, rfl⟩
    · exact TypeRef.exists_type_of_mem_nodes element h
  | .nullable _ underlying, h => by
    rw [TypeRef.nodes, List.mem_cons] at h
    rcases h with rfl | h
    · exact ⟨_, rfl⟩
    · exact TypeRef.exists_type_of_mem_nodes underlying h

theorem exists_type_of_mem_nodesOfSegments {n : SyntaxNode} :
    ∀ segments : List NameSegment, n ∈ nodesOfSegments segments → ∃ u, n = .type u
  | [], h => absurd h List.not_mem_nil
  | .mk _ args :: rest, h => by
    rw [nodesOfSegments, List.mem_append] at h
    rcases h with h | h
    · exact exists_type_of_mem_nodesOfTypes args h
    · exact exists_type_of_mem_nodesOfSegments rest h

theorem exists_type_of_mem_nodesOfTypes {n : SyntaxNode} :
    ∀ ts : List TypeRef, n ∈ nodesOfTypes ts → ∃ u, n = .type u
  | [], h => absurd h List.not_mem_nil
  | t :: rest, h => by
    rw [nodesOfTypes, List.mem_append] at h
    rcases h with h | h
    · exact TypeRef.exists_type_of_mem_nodes t h
    · exact exists_type_of_mem_nodesOfTypes rest h

end

theorem Scope.CoversTypes.covers {t : TypeRef} (h : scope.CoversTypes nodes ns)
    (ht : t.nodes ⊆ ns) : scope.Covers nodes t.nodes := by
  intro n hn
  obtain ⟨u, rfl⟩ := t.exists_type_of_mem_nodes hn
  exact h u (ht hn)

theorem DeclaredType.scope_sound (h : c.IsType d.symbol) : d.scope.Sound c where
  type := by
    rintro _ ⟨⟩
    exact h
  params := List.forall_mem_nil _

theorem TypeSymbol.Sound.withBase {t : TypeSymbol} {base : SymbolId} (h : t.Sound c)
    (hbase : c.IsType base) (isInterface : Bool) : (t.withBase base isInterface).Sound c := by
  unfold TypeSymbol.withBase
  split
  · split
    · exact h
    · refine { h with interfaces := ?_ }
      exact List.forall_mem_append.2 ⟨h.interfaces, List.forall_mem_singleton.2 hbase⟩
  · split
    · refine { h with base := ?_ }
      rintro _ ⟨⟩
      exact hbase
    · exact h

theorem TypeSymbol.core_withBase (t : TypeSymbol) (base : SymbolId) (isInterface : Bool) :
    (t.withBase base isInterface).core = t.core ∧
      (t.withBase base isInterface).typeParams = t.typeParams := by
  unfold TypeSymbol.withBase
  split <;> split <;> exact ⟨rfl, rfl⟩

theorem declareBases_finds (hd : c.IsType d.symbol)
    (hcovers : ∀ base ∈ d.decl.header.bases, d.scope.Covers nodes base.nodes) :
    Finds nodes c (declareBases d) fun _ _ => True := by
  refine finds_forM fun base hbase => ?_
  refine (resolveType_finds (DeclaredType.scope_sound hd) base (hcovers base hbase)).bind
    fun c₁ found _ hfound => ?_
  cases found with
  | none => exact .pure fun _ _ => trivial
  | some found =>
    exact .comp fun c₂ _ hle₂ => finds_change_modifyType
      (fun c₃ t hle₃ ht => ht.withBase ((hfound found rfl).mono (le_trans hle₂ hle₃)) _)
      (fun t => (t.core_withBase _ _).1) fun t => (t.core_withBase _ _).2

/-! ## Members -/

/-- The constant field is to be evaluated for a field of a declared type. -/
structure ConstField.For (c : Compilation) (d : DeclaredType) (decl : FieldDecl) (f : ConstField) :
    Prop where
  scope : f.scope = d.scope
  init : decl.init = some f.init
  symbol : ∃ symbol, c.symbol? f.symbol = some (.field symbol) ∧ symbol.name = decl.name.text ∧
    symbol.isConst = true ∧ symbol.declaration = d.scope.sourceRef decl.node

theorem ConstField.For.file {decl : FieldDecl} {f : ConstField} (h : f.For c d decl) :
    f.scope.file = d.source.file := by
  rw [h.scope]
  rfl

theorem ConstField.For.mono {decl : FieldDecl} {f : ConstField} (h : f.For c d decl)
    (hle : c ≤ c') : f.For c' d decl := by
  obtain ⟨symbol, hsymbol, hrest⟩ := h.symbol
  exact { h with symbol := ⟨symbol,
    Compilation.symbol?_of_le hsymbol (fun _ => Symbol.noConfusion) hle, hrest⟩ }

theorem declareParams_finds (hscope : scope.Sound c) (ordinal : Nat) (params : List Parameter)
    (hcovers : ∀ p ∈ params, scope.Covers nodes p.type.nodes) :
    Finds nodes c (declareParams scope ordinal params)
      fun c' ids => ∀ id ∈ ids, c'.IsParameter id := by
  induction params generalizing c ordinal with
  | nil => exact .pure fun _ _ => List.forall_mem_nil _
  | cons p rest ih =>
    rw [declareParams]
    refine (resolveType_finds hscope p.type (hcovers p (.head _))).bind fun c₁ type hle₁ htype => ?_
    refine (finds_add ?_ fun _ => Symbol.noConfusion).bind fun c₂ id hle₂ hid => ?_
    · exact htype
    have hparam : c₂.IsParameter id := ⟨_, hid⟩
    refine (finds_declare hparam.has).bind fun c₃ _ hle₃ _ => ?_
    have hscope₃ := ((hscope.mono hle₁).mono hle₂).mono hle₃
    refine (ih hscope₃ _ fun p hp => hcovers p (.tail _ hp)).bind fun c₄ ids hle₄ hids => ?_
    refine .pure fun c₅ hle₅ => List.forall_mem_cons.2 ⟨?_, fun id hid => (hids id hid).mono hle₅⟩
    exact hparam.mono (le_trans hle₃ (le_trans hle₄ hle₅))

theorem declareField_finds (hd : c.IsType d.symbol) (field : FieldDecl)
    (hcovers : d.scope.Covers nodes field.type.nodes) :
    Finds nodes c (declareField d field) fun c' id => ∃ symbol,
      c'.symbol? id = some (.field symbol) ∧ symbol.name = field.name.text ∧
      symbol.isConst = field.modifiers.has .const ∧
      symbol.declaration = d.scope.sourceRef field.node := by
  unfold declareField
  have hscope := DeclaredType.scope_sound hd
  refine (resolveType_finds hscope _ hcovers).bind fun c₁ type hle₁ htype => ?_
  refine (finds_addMember ?_ fun _ => Symbol.noConfusion).bind fun c₂ id hle₂ hid => ?_
  · exact ⟨hd.mono hle₁, htype⟩
  refine (finds_declare (Compilation.has_of_symbol? hid)).bind fun c₃ _ hle₃ _ => ?_
  refine .pure fun c₄ hle₄ => ⟨_, Compilation.symbol?_of_le hid (fun _ => Symbol.noConfusion)
    (le_trans hle₃ hle₄), rfl, rfl, rfl⟩

theorem declareProperty_finds (hd : c.IsType d.symbol) (property : PropertyDecl)
    (hcovers : d.scope.Covers nodes property.type.nodes) :
    Finds nodes c (declareProperty d property) fun _ _ => True := by
  unfold declareProperty
  have hscope := DeclaredType.scope_sound hd
  refine (resolveType_finds hscope _ hcovers).bind fun c₁ type hle₁ htype => ?_
  refine (finds_addMember ?_ fun _ => Symbol.noConfusion).bind fun c₂ id hle₂ hid => ?_
  · exact ⟨hd.mono hle₁, htype⟩
  exact finds_declare (Compilation.has_of_symbol? hid)

theorem addMethodTypeParams_finds (hbase : ∀ t ∈ base, c.IsType t) (ordinal : Nat)
    (names : List Ident) : Finds nodes c (addMethodTypeParams base ordinal names)
      fun c' ids => ∀ id ∈ ids, c'.IsType id := by
  induction names generalizing c ordinal with
  | nil => exact .pure fun _ _ => List.forall_mem_nil _
  | cons name rest ih =>
    rw [addMethodTypeParams]
    refine (finds_addType ?_ fun c' _ => ?_).bind fun c₁ id hle₁ hid => ?_
    · exact
        { containing := by rintro _ ⟨⟩
          base := hbase
          interfaces := List.forall_mem_nil _
          members := List.forall_mem_nil _
          params := List.forall_mem_nil _
          args := List.forall_mem_nil _
          definition := by rintro _ ⟨⟩
          element := by rintro _ ⟨⟩ }
    · exact
        { founded :=
            { element := by rintro _ ⟨⟩
              args := List.forall_mem_nil _
              params := List.forall_mem_nil _
              plain := fun _ => rfl
              origin := by rintro _ ⟨⟩ }
          outer := by rintro _ ⟨⟩
          owned := by rintro _ _ ⟨⟩ }
    refine (ih (fun t ht => (hbase t ht).mono hle₁) _).bind fun c₂ ids hle₂ hids => ?_
    have hid : c₁.IsType id := ⟨_, hid⟩
    exact .pure fun c₃ hle₃ => List.forall_mem_cons.2
      ⟨hid.mono (le_trans hle₂ hle₃), fun id hid => (hids id hid).mono hle₃⟩

theorem declareMethod_finds (hd : c.IsType d.symbol) (method : MethodDecl)
    (hreturn : d.scope.Covers nodes method.returnType.nodes)
    (hparams : ∀ p ∈ method.params, d.scope.Covers nodes p.type.nodes)
    (hinterface : ∀ t ∈ method.interface, d.scope.Covers nodes t.nodes) :
    Finds nodes c (declareMethod d method) fun _ _ => True := by
  unfold declareMethod
  refine (finds_typeNamed? _).bind fun c₁ object hle₁ hobject => ?_
  refine (addMethodTypeParams_finds hobject 0 method.typeParams).bind
    fun c₂ typeParams hle₂ htypeParams => ?_
  have hd₂ := hd.mono (le_trans hle₁ hle₂)
  have hscope : Scope.Sound c₂ { d.scope with methodTypeParams := typeParams } :=
    { DeclaredType.scope_sound hd₂ with params := htypeParams }
  refine (resolveType_finds hscope _ hreturn).bind fun c₃ returnType hle₃ hreturnType => ?_
  refine (declareParams_finds (hscope.mono hle₃) 0 _ hparams).bind fun c₄ params hle₄ hids => ?_
  have hle : c₂ ≤ c₄ := le_trans hle₃ hle₄
  -- what follows the interface in front of the name
  have hmember {c₅ : Compilation} (hle₅ : c₄ ≤ c₅) : Finds nodes c₅ (do
      let id ← addMember d.symbol <| .method
        { name := method.name.text
          containingType := d.symbol
          accessibility :=
            if method.interface.isSome then .private_ else memberAccessibility d method.modifiers
          isStatic := method.modifiers.isStatic
          isAbstract := method.modifiers.has .abstract_ || d.decl.header.kind == .interface
          kind := if method.interface.isSome then .explicitImplementation else .ordinary
          returnType
          params
          declaration := d.scope.sourceRef method.node }
      declare d.scope method.node.id id
      modify fun s => { s with
        methodTypeParams := (⟨d.source.file, method.node.id⟩, typeParams) :: s.methodTypeParams })
      fun _ _ => True := by
    refine (finds_addMember ?_ fun _ => Symbol.noConfusion).bind fun c₆ id hle₆ hid => ?_
    · exact
        { containing := hd₂.mono (le_trans hle hle₅)
          returns := fun t ht => (hreturnType t ht).mono (le_trans hle₄ hle₅)
          params := fun id hid => (hids id hid).mono hle₅ }
    refine (finds_declare (Compilation.has_of_symbol? hid)).bind fun c₇ _ hle₇ _ => ?_
    have hle' : c₂ ≤ c₇ := le_trans hle (le_trans hle₅ (le_trans hle₆ hle₇))
    refine finds_modify fun s hs hle₈ =>
      { valid := { hs with typeParams := List.forall_mem_cons.2 ⟨fun p hp => ?_, hs.typeParams⟩ }
        comp := le_refl _
        symbols := fun _ _ => rfl
        constants := fun _ _ => rfl
        fieldConstants := rfl }
    exact (htypeParams p hp).mono (le_trans hle' hle₈)
  dsimp only
  split
  next interface hsome =>
    exact ((resolveType_finds (hscope.mono hle) interface (hinterface _ hsome)).discard).bind
      fun c₅ _ hle₅ _ => hmember hle₅
  next => exact hmember (le_refl _)

theorem declareConstructor_finds (hd : c.IsType d.symbol) (ctor : ConstructorDecl)
    (hparams : ∀ p ∈ ctor.params, d.scope.Covers nodes p.type.nodes) :
    Finds nodes c (declareConstructor d ctor) fun _ _ => True := by
  unfold declareConstructor
  refine (declareParams_finds (DeclaredType.scope_sound hd) 0 _ hparams).bind
    fun c₁ params hle₁ hids => ?_
  refine (finds_typeNamed? _).bind fun c₂ void hle₂ hvoid => ?_
  refine (finds_addMember ?_ fun _ => Symbol.noConfusion).bind fun c₃ id hle₃ hid => ?_
  · exact
      { containing := hd.mono (le_trans hle₁ hle₂)
        returns := hvoid
        params := fun id hid => (hids id hid).mono hle₂ }
  exact finds_declare (Compilation.has_of_symbol? hid)

/-- The types that are written in the declaration of a member. -/
def Member.CoveredIn (d : DeclaredType) (nodes : Set NodeRef) : Member → Prop
  | .field decl => d.scope.Covers nodes decl.type.nodes
  | .property decl => d.scope.Covers nodes decl.type.nodes
  | .method decl => d.scope.Covers nodes decl.returnType.nodes ∧
      (∀ p ∈ decl.params, d.scope.Covers nodes p.type.nodes) ∧
      ∀ t ∈ decl.interface, d.scope.Covers nodes t.nodes
  | .constructor decl => ∀ p ∈ decl.params, d.scope.Covers nodes p.type.nodes
  | .type _ => True

/-- The constant field that a member is, if it has an initial value. -/
def Member.constField? : Member → Option FieldDecl
  | .field decl => if decl.modifiers.has .const && decl.init.isSome then some decl else none
  | _ => none

theorem declareMember_finds (hd : c.IsType d.symbol) (m : Member) (hcovers : m.CoveredIn d nodes) :
    Finds nodes c (declareMember d m)
      fun c' fs => List.Forall₂ (ConstField.For c' d) m.constField?.toList fs := by
  cases m with
  | field decl =>
    rw [declareMember]
    refine (declareField_finds hd decl hcovers).bind fun c₁ id _ hid => ?_
    split
    next init hinit =>
      split
      next hconst =>
        refine .pure fun c₂ hle₂ => ?_
        have hfield : ConstField.For c₂ d decl ⟨d.scope, id, init⟩ := by
          obtain ⟨symbol, hsymbol, hname, hisConst, hdeclaration⟩ := hid
          refine ConstField.For.mono ⟨rfl, hinit, symbol, hsymbol, hname, ?_, hdeclaration⟩ hle₂
          rw [hisConst, hconst]
        simpa [Member.constField?, hconst, hinit] using hfield
      next hconst => exact .pure fun _ _ => by simp [Member.constField?, hconst]
    next hinit => exact .pure fun _ _ => by simp [Member.constField?, hinit]
  | property decl =>
    exact (declareProperty_finds hd decl hcovers).bind fun _ _ _ _ => .pure fun _ _ => .nil
  | method decl =>
    exact (declareMethod_finds hd decl hcovers.1 hcovers.2.1 hcovers.2.2).bind
      fun _ _ _ _ => .pure fun _ _ => .nil
  | constructor decl =>
    exact (declareConstructor_finds hd decl hcovers).bind fun _ _ _ _ => .pure fun _ _ => .nil
  | type decl => exact .pure fun _ _ => .nil

/-- The constant fields of a type that have an initial value. -/
def TypeDecl.constFields (t : TypeDecl) : List FieldDecl :=
  t.members.flatMap fun m => m.constField?.toList

theorem TypeDecl.mem_constFields_iff {t : TypeDecl} {decl : FieldDecl} : decl ∈ t.constFields ↔
    .field decl ∈ t.members ∧ decl.modifiers.has .const = true ∧ decl.init.isSome = true := by
  unfold constFields
  rw [List.mem_flatMap]
  constructor
  · rintro ⟨m, hm, hfield⟩
    cases m with
    | field _ =>
      rw [Member.constField?, Option.mem_toList, Option.ite_none_right_eq_some] at hfield
      obtain ⟨hconst, hdecl⟩ := hfield
      obtain rfl := Option.some.inj hdecl
      exact ⟨hm, Bool.and_eq_true_iff.1 hconst⟩
    | _ => cases hfield
  · rintro ⟨hm, hconst, hinit⟩
    exact ⟨_, hm, by simp [Member.constField?, hconst, hinit]⟩

/-- The types that are written in the bases and the members of a declared type. -/
structure DeclaredType.CoveredIn (nodes : Set NodeRef) (d : DeclaredType) : Prop where
  bases : ∀ base ∈ d.decl.header.bases, d.scope.Covers nodes base.nodes
  members : ∀ m ∈ d.decl.members, m.CoveredIn d nodes

theorem forall₂_flatten {α β γ : Type} {R : β → γ → Prop} {f : α → List β} {as : List α}
    {gss : List (List γ)} (h : List.Forall₂ (fun a gs => List.Forall₂ R (f a) gs) as gss) :
    List.Forall₂ R (as.flatMap f) gss.flatten := by
  induction h with
  | nil => exact .nil
  | cons hfirst _ ih => exact List.rel_append hfirst ih

theorem declareContents_finds (hd : c.IsType d.symbol) (hcovers : d.CoveredIn nodes) :
    Finds nodes c (declareContents d)
      fun c' fs => List.Forall₂ (ConstField.For c' d) d.decl.constFields fs := by
  unfold declareContents
  refine (declareBases_finds hd hcovers.bases).bind fun c₁ _ hle₁ _ => ?_
  refine (finds_mapM (fun m hm => declareMember_finds (hd.mono hle₁) m (hcovers.members m hm))
    fun m fs _ _ hle h => h.imp fun _ _ h => h.mono hle).bind fun c₂ fss _ hfss => ?_
  exact .pure fun c₃ hle₃ => (forall₂_flatten hfss).imp fun _ _ h => h.mono hle₃

/-! ## What is not written -/

theorem addImplicit_finds (hd : c.IsType d.symbol) :
    Finds nodes c (addImplicit d) fun _ _ => True := by
  unfold addImplicit
  refine .comp fun c₁ hc₁ hle₁ => ?_
  have hconstructor {c : Compilation} (t : TypeSymbol) (hle : c₁ ≤ c) : Finds nodes c (do
      if needsConstructor c₁ t then
        Functor.discard
          (addMember d.symbol (.method (implicitConstructor d.symbol (← knownType? .void)))))
      fun _ _ => True := by
    split
    · refine (finds_typeNamed? _).bind fun c₂ void hle₂ hvoid => ?_
      refine Finds.discard (finds_addMember ?_ fun _ => Symbol.noConfusion)
      exact
        { containing := hd.mono (le_trans hle₁ (le_trans hle hle₂))
          returns := hvoid
          params := List.forall_mem_nil _ }
    · exact .pure fun _ _ => trivial
  cases c₁.type? d.symbol with
  | none => exact .pure fun _ _ => trivial
  | some t =>
    dsimp only
    split
    next base hbase =>
      obtain ⟨name, -, hname⟩ := Option.bind_eq_some_iff.1 hbase
      have hbase := hc₁.isType_typeNamed? base hname
      have hmodify : Finds nodes c₁ (change fun c => ((), c.modifyType d.symbol fun t =>
          { t with baseType := some base })) fun _ _ => True := by
        refine finds_change_modifyType (fun c₂ t hle₂ ht => { ht with base := ?_ }) (fun _ => rfl)
          fun _ => rfl
        rintro _ ⟨⟩
        exact hbase.mono hle₂
      exact hmodify.bind fun c₂ _ hle₂ _ => hconstructor t hle₂
    next => exact hconstructor t (le_refl _)

/-- All bases and members are declared, and the constant fields are left to be evaluated. -/
theorem declareAll_finds {types : List DeclaredType} (htypes : ∀ d ∈ types, c.IsType d.symbol)
    (hcovers : ∀ d ∈ types, d.CoveredIn nodes) :
    Finds nodes c (declareAll types) fun c' fs =>
      List.Forall₂ (fun x f => ConstField.For c' x.1 x.2 f)
        (types.flatMap fun d => d.decl.constFields.map (Prod.mk d)) fs := by
  unfold declareAll
  refine (finds_mapM (fun d hd => declareContents_finds (htypes d hd) (hcovers d hd))
    fun d fs _ _ hle h => h.imp fun _ _ h => h.mono hle).bind fun c₁ fss hle₁ hfss => ?_
  refine (finds_forM fun d hd => addImplicit_finds ((htypes d hd).mono hle₁)).bind
    fun c₂ _ hle₂ _ => .pure fun c₃ hle₃ => ?_
  have hall : List.Forall₂ (fun (x : DeclaredType × FieldDecl) f => ConstField.For c₁ x.1 x.2 f)
      (types.flatMap fun d => d.decl.constFields.map (Prod.mk d)) fss.flatten := by
    refine forall₂_flatten (hfss.imp fun d fs h => ?_)
    rw [List.forall₂_map_left_iff]
    exact h
  exact hall.imp fun _ _ h => h.mono (le_trans hle₂ hle₃)

end PropertyLint
