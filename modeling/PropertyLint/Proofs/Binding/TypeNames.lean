/-
# Full names of declared types

While types are declared, every registered type has the name that it is registered under
(`Compilation.Registered`), and types keep their names (`Compilation.KeepsNames`).  A type has a
longer name than the type that it is nested in, so the two have different symbols, also if both are
parts of types that have been declared before (`exists_nested_of_mem`).
-/
import PropertyLint.Proofs.Binding.MergedTypes
import PropertyLint.Proofs.Symbol.Extends

namespace PropertyLint

open Binder

/-! ## Names -/

/-- The types have the same name in a compilation. -/
structure TypeSymbol.NamedLike (t t' : TypeSymbol) : Prop where
  kind : t.kind = t'.kind
  name : t.name = t'.name
  namespaceName : t.namespaceName = t'.namespaceName
  containing : t.containingType = t'.containingType
  arity : t.typeParams.length = t'.typeParams.length

theorem TypeSymbol.nested_or_top (t : TypeSymbol) :
    (∃ outer, t.containingType = some outer ∧ t.kind ≠ .typeParameter) ∨
      (t.containingType = none ∨ t.kind = .typeParameter) := by
  cases houter : t.containingType with
  | none => exact .inr (.inl rfl)
  | some outer =>
    by_cases hkind : t.kind = .typeParameter
    · exact .inr (.inr hkind)
    · exact .inl ⟨outer, rfl, hkind⟩

namespace Compilation

variable {c c' c'' : Compilation} {id id' id'' : SymbolId} {name : String} {fuel fuel' : Nat}
  {own : Set SymbolId} {t : TypeSymbol}

/-- Of the symbols that were there only types have changed, and not in their names. -/
structure KeepsNames (c c' : Compilation) : Prop where
  le : c ≤ c'
  type? : ∀ id t, c.type? id = some t → ∃ t', c'.type? id = some t' ∧ t'.NamedLike t

/-- The number is that of a type with a full name. -/
def IsNamed (c : Compilation) (id : SymbolId) (name : String) : Prop :=
  c.IsType id ∧ c.metadataName? c.depthBound id = some name

/-- Registered types have the names under which they are registered. -/
def Registered (c : Compilation) : Prop := ∀ e ∈ c.registry, c.IsNamed e.2 e.1

/-- The second type has a longer full name. -/
def Longer (c : Compilation) (id id' : SymbolId) : Prop :=
  ∃ name name', c.IsNamed id name ∧ c.IsNamed id' name' ∧ name.length < name'.length

/-- A nested type is named in its outer type. -/
theorem metadataName?_nested {outer : SymbolId} (ht : c.type? id = some t)
    (houter : t.containingType = some outer) (hkind : t.kind ≠ .typeParameter) :
    c.metadataName? (fuel + 1) id = (c.metadataName? fuel outer).map fun container =>
      qualifiedName (some container) t.name t.typeParams.length := by
  simp only [metadataName?, ht, houter, if_neg hkind]
  cases c.metadataName? fuel outer <;> rfl

/-- Any other type is named in its namespace. -/
theorem metadataName?_top (ht : c.type? id = some t)
    (htop : t.containingType = none ∨ t.kind = .typeParameter) :
    c.metadataName? (fuel + 1) id =
      some (qualifiedName t.namespaceName t.name t.typeParams.length) := by
  rw [metadataName?, ht]
  rcases htop with hnone | hkind
  · simp only [hnone]
  · cases houter : t.containingType with
    | none => simp only [houter]
    | some outer => simp only [houter, if_pos hkind]

/-- A name is found with any sufficient number of steps. -/
theorem metadataName?_mono (h : c.metadataName? fuel id = some name) (hle : fuel ≤ fuel') :
    c.metadataName? fuel' id = some name := by
  induction fuel generalizing fuel' id name with
  | zero => cases h
  | succ fuel ih =>
    obtain ⟨fuel', rfl⟩ : ∃ k, fuel' = k + 1 := ⟨fuel' - 1, by omega⟩
    cases ht : c.type? id with
    | none => simpa only [metadataName?, ht] using h
    | some t =>
      rcases t.nested_or_top with ⟨outer, houter, hkind⟩ | htop
      · rw [metadataName?_nested ht houter hkind, Option.map_eq_some_iff] at h ⊢
        obtain ⟨container, hcontainer, heq⟩ := h
        exact ⟨container, ih hcontainer (Nat.le_of_succ_le_succ hle), heq⟩
      · rwa [metadataName?_top ht htop] at h ⊢

theorem IsNamed.metadataName_eq (h : c.IsNamed id name) : c.metadataName id = name := by
  rw [metadataName, h.2]
  rfl

namespace KeepsNames

theorem refl (c : Compilation) : c.KeepsNames c :=
  ⟨le_refl c, fun _ t ht => ⟨t, ht, rfl, rfl, rfl, rfl, rfl⟩⟩

theorem trans (h : c.KeepsNames c') (h' : c'.KeepsNames c'') : c.KeepsNames c'' := by
  refine ⟨le_trans h.le h'.le, fun id t ht => ?_⟩
  obtain ⟨t', ht', hlike⟩ := h.type? id t ht
  obtain ⟨t'', ht'', hlike'⟩ := h'.type? id t' ht'
  exact ⟨t'', ht'', hlike'.kind.trans hlike.kind, hlike'.name.trans hlike.name,
    hlike'.namespaceName.trans hlike.namespaceName, hlike'.containing.trans hlike.containing,
    hlike'.arity.trans hlike.arity⟩

theorem metadataName?_eq (h : c.KeepsNames c') (hc : c.Valid) (hid : c.IsType id) :
    c'.metadataName? fuel id = c.metadataName? fuel id := by
  induction fuel generalizing id with
  | zero => rfl
  | succ fuel ih =>
    obtain ⟨t, ht⟩ := hid
    have ht : c.type? id = some t := by rw [Compilation.type?, ht]; rfl
    obtain ⟨t', ht', hlike⟩ := h.type? id t ht
    rcases t.nested_or_top with ⟨outer, houter, hkind⟩ | htop
    · have houter' := hlike.containing.trans houter
      rw [metadataName?_nested ht houter hkind,
        metadataName?_nested ht' houter' (by rwa [hlike.kind]),
        ih ((hc.sound ht).containing outer houter), hlike.name, hlike.arity]
    · rw [metadataName?_top ht htop, metadataName?_top ht' (by rwa [hlike.kind, hlike.containing]),
        hlike.name, hlike.namespaceName, hlike.arity]

end KeepsNames

theorem IsNamed.mono (h : c.IsNamed id name) (hc : c.Valid) (hkeeps : c.KeepsNames c') :
    c'.IsNamed id name := by
  refine ⟨h.1.mono hkeeps.le, metadataName?_mono ?_ (Nat.succ_le_succ (size_le_of_le hkeeps.le))⟩
  exact (hkeeps.metadataName?_eq hc h.1).trans h.2

theorem Longer.mono (h : c.Longer id id') (hc : c.Valid) (hkeeps : c.KeepsNames c') :
    c'.Longer id id' := by
  obtain ⟨name, name', hname, hname', hlt⟩ := h
  exact ⟨name, name', hname.mono hc hkeeps, hname'.mono hc hkeeps, hlt⟩

theorem Longer.trans (h : c.Longer id id') (h' : c.Longer id' id'') : c.Longer id id'' := by
  obtain ⟨name, name', hname, hname', hlt⟩ := h
  obtain ⟨name₂, name'', hname₂, hname'', hlt'⟩ := h'
  have heq : name' = name₂ := Option.some.inj (hname'.2.symm.trans hname₂.2)
  exact ⟨name, name'', hname, hname'', Nat.lt_trans hlt (heq ▸ hlt')⟩

theorem Longer.ne (h : c.Longer id id') : id ≠ id' := by
  rintro rfl
  obtain ⟨name, name', hname, hname', hlt⟩ := h
  have heq : name = name' := Option.some.inj (hname.2.symm.trans hname'.2)
  exact Nat.lt_irrefl _ (heq ▸ hlt)

/-- A type that is found by a name has this name. -/
theorem Registered.isNamed (h : c.Registered) (hid : c.typeNamed? name = some id) :
    c.IsNamed id name := h (name, id) (mem_of_lookup hid)

/-! ## Changes -/

theorem keepsNames_modifyType (c : Compilation) (edited : SymbolId) {f : TypeSymbol → TypeSymbol}
    (hf : ∀ t, (f t).NamedLike t) : c.KeepsNames (c.modifyType edited f) := by
  refine ⟨c.le_modifyType edited f, fun id t ht => ⟨if edited = id then f t else t, ?_, ?_⟩⟩
  · rw [type?_modifyType_eq, ht, Option.map_some]
  · split
    · exact hf t
    · exact ⟨rfl, rfl, rfl, rfl, rfl⟩

/-- Symbols that were not there may change. -/
theorem Grows.keepsNames (h : c.Grows own c') (hown : ∀ id ∈ own, ¬ c.Has id) :
    c.KeepsNames c' := by
  refine ⟨h.le, fun id t ht => ⟨t, ?_, rfl, rfl, rfl, rfl, rfl⟩⟩
  exact h.type? ht fun hid => hown id hid (isType_of_type? ht).has

end Compilation

open Compilation

/-! ## One declaration -/

variable {c : Compilation} {s s' s'' : BindState} {source : Source} {outer : Option SymbolId}
  {owner id : SymbolId} {t : TypeSymbol} {header : TypeHeader} {ds ds' : List DeclaredType}

/-- The full name that a type is declared with. -/
def declaredName (c : Compilation) (outer : Option SymbolId) (decl : TypeHeader) : String :=
  qualifiedName (match outer with
    | some outer => some (c.metadataName outer)
    | none => decl.namespaceName) decl.name.text decl.typeParams.length

/-- An earlier part is found under the name. -/
theorem typeNamed?_of_earlierPart? (h : earlierPart? c outer header = some id) :
    c.typeNamed? (declaredName c outer header) = some id := by
  unfold earlierPart? at h
  split at h
  · exact h
  · cases h

/-- A type in another type has a longer name. -/
theorem length_lt_declaredName (c : Compilation) (owner : SymbolId) (header : TypeHeader) :
    (c.metadataName owner).length < (declaredName c (some owner) header).length := by
  have hdot : ".".length = 1 := rfl
  simp only [declaredName, qualifiedName, String.length_append, hdot]
  omega

/-- The outer type, if there is one, has a full name. -/
def Compilation.NamesOuter (c : Compilation) (outer : Option SymbolId) : Prop :=
  ∀ id ∈ outer, ∃ name, c.IsNamed id name

theorem Compilation.NamesOuter.isType (h : c.NamesOuter outer) : ∀ id ∈ outer, c.IsType id :=
  fun id hid => (h id hid).choose_spec.1

/-- The type gets its parameters, and nothing else changes. -/
theorem addTypeParams_run (ht : s.comp.type? owner = some t) (base : Option SymbolId)
    (ordinal : Nat) (names : List Ident) : ∃ ids s', ids.length = names.length ∧
      (addTypeParams owner base ordinal names).run s = ((), s') ∧
      s'.comp.type? owner = some { t with typeParams := t.typeParams ++ ids } ∧
      s.comp.Grows {owner} s'.comp ∧ s'.comp.registry = s.comp.registry := by
  induction names generalizing s t ordinal with
  | nil =>
    refine ⟨[], s, rfl, rfl, ?_, .refl _, rfl⟩
    rw [List.append_nil]
    exact ht
  | cons name rest ih =>
    let param : Symbol := .type
      { name := name.text, kind := .typeParameter, containingType := owner, ordinal,
        baseType := base }
    let f : TypeSymbol → TypeSymbol := fun t =>
      { t with typeParams := t.typeParams ++ [s.comp.symbols.size] }
    let s₁ : BindState := { s with comp := (s.comp.add param).2.modifyType owner f }
    have hadd : (s.comp.add param).2.type? owner = some t :=
      (type?_add_of_lt _ (lt_of_type?_eq_some ht)).trans ht
    have ht₁ : s₁.comp.type? owner = some (f t) :=
      (type?_modifyType _ _ hadd).trans (congrArg some (if_pos rfl))
    have hgrows₁ : s.comp.Grows {owner} s₁.comp :=
      (grows_add _ _).trans (grows_modifyType (Set.mem_singleton _) fun _ => rfl)
    obtain ⟨ids, s', hlength, hrun, ht', hgrows, hregistry⟩ := ih ht₁ (ordinal + 1)
    refine ⟨s.comp.symbols.size :: ids, s', ?_, hrun, ?_, hgrows₁.trans hgrows, hregistry⟩
    · rw [List.length_cons, List.length_cons, hlength]
    · rw [ht', List.append_assoc]
      rfl

theorem isNamed_declaredName {c' : Compilation} {ids : List SymbolId} (hc : c.Valid)
    (houter : c.NamesOuter outer) (hkeeps : c.KeepsNames c')
    (hsize : c.symbols.size < c'.symbols.size)
    (ht : c'.type? id = some { typeSymbolOf outer header with typeParams := ids })
    (hlength : ids.length = header.typeParams.length) :
    c'.IsNamed id (declaredName c outer header) := by
  refine ⟨isType_of_type? ht, ?_⟩
  rw [depthBound]
  cases outer with
  | none =>
    rw [metadataName?_top ht (.inl rfl), hlength]
    rfl
  | some owner =>
    obtain ⟨name, hname⟩ := houter owner rfl
    have hfound : c'.metadataName? c'.symbols.size owner = some name :=
      metadataName?_mono ((hkeeps.metadataName?_eq hc hname.1).trans hname.2) hsize
    rw [metadataName?_nested ht rfl (TypeKind.ofDecl_ne_typeParameter _), hfound, Option.map_some,
      declaredName, hname.metadataName_eq, hlength]
    rfl

/-- A new type is registered with its name, and all other types keep theirs. -/
theorem createType_run (hs : s.Valid) (houter : s.comp.NamesOuter outer) (header : TypeHeader) :
    ∃ s', (createType outer header).run s = (s.comp.symbols.size, s') ∧
      s.comp.KeepsNames s'.comp ∧
      s'.comp.IsNamed s.comp.symbols.size (declaredName s.comp outer header) ∧
      s'.comp.registry = s.comp.registry ++
        [(declaredName s.comp outer header, s.comp.symbols.size)] := by
  let s₁ : BindState := { s with comp := (s.comp.add (.type (typeSymbolOf outer header))).2 }
  have ht₁ : s₁.comp.type? s.comp.symbols.size = some (typeSymbolOf outer header) :=
    type?_add_size _
  let object := s₁.comp.typeNamed? KnownType.object.metadataName
  obtain ⟨ids, s₂, hlength, hparams, ht₂, hgrows, hregistry⟩ :=
    addTypeParams_run ht₁ object 0 header.typeParams
  let s₃ : BindState := { s₂ with comp := s₂.comp.register s.comp.symbols.size }
  let last : Binder SymbolId := do
    change fun c => ((), c.register s.comp.symbols.size)
    return s.comp.symbols.size
  have hrun : (createType outer header).run s = (s.comp.symbols.size, s₃) := calc
    (createType outer header).run s =
        (addTypeParams s.comp.symbols.size object 0 header.typeParams >>= fun _ => last).run s₁ := rfl
    _ = last.run s₂ := bind_run hparams
    _ = (s.comp.symbols.size, s₃) := rfl
  -- no symbol that was there has the new number
  have hnew : ∀ id ∈ ({s.comp.symbols.size} : Set SymbolId), ¬ s.comp.Has id := by
    rintro _ rfl
    exact Nat.lt_irrefl _
  have hgrows₂ : s.comp.Grows {s.comp.symbols.size} s₂.comp := (grows_add _ _).trans hgrows
  have hkeeps₂ := hgrows₂.keepsNames hnew
  have hkeeps₃ := (hgrows₂.trans (grows_register _ s.comp.symbols.size)).keepsNames hnew
  have hsize : s.comp.symbols.size < s₂.comp.symbols.size := lt_of_type?_eq_some ht₂
  have hname₂ := isNamed_declaredName hs.comp houter hkeeps₂ hsize ht₂ hlength
  refine ⟨s₃, hrun, hkeeps₃, isNamed_declaredName hs.comp houter hkeeps₃ hsize ht₂ hlength, ?_⟩
  change s₂.comp.registry ++ [(s₂.comp.metadataName _, _)] = _
  rw [hname₂.metadataName_eq, hregistry]
  rfl

/-- A declared type has the name that it is declared with. -/
theorem declareHeader_named (hs : s.Valid) (hregistered : s.comp.Registered)
    (houter : s.comp.NamesOuter outer) (header : TypeHeader) :
    ∃ id s', (declareHeader source outer header).run s = (id, s') ∧
      s.comp.KeepsNames s'.comp ∧ s'.comp.Registered ∧
      s'.comp.IsNamed id (declaredName s.comp outer header) := by
  obtain ⟨id, s₁, hstep, hrun⟩ := declareHeader_run source outer header s
  -- what holds before the part is added
  obtain ⟨hvalid, hkeeps, hregistered₁, hname⟩ : s₁.comp.Valid ∧ s.comp.KeepsNames s₁.comp ∧
      s₁.comp.Registered ∧ s₁.comp.IsNamed id (declaredName s.comp outer header) := by
    rcases hstep with ⟨hpart, rfl⟩ | hcreate
    · exact ⟨hs.comp, .refl _, hregistered, hregistered.isNamed (typeNamed?_of_earlierPart? hpart)⟩
    · obtain ⟨s', hcreated, hkeeps, hname, hregistry⟩ := createType_run hs houter header
      obtain ⟨rfl, rfl⟩ := Prod.mk.inj (hcreate.symm.trans hcreated)
      have hfinds : Finds ∅ s.comp (createType outer header) fun c id => c.IsType id :=
        createType_finds houter.isType header
      obtain ⟨hlead, -⟩ := hfinds s hs (le_refl _)
      rw [hcreate] at hlead
      refine ⟨hlead.valid.comp, hkeeps, fun e he => ?_, hname⟩
      rw [hregistry, List.mem_append, List.mem_singleton] at he
      rcases he with he | rfl
      · exact (hregistered e he).mono hs.comp hkeeps
      · exact hname
  have hpart : s₁.comp.KeepsNames (s₁.addPart source header id).comp := by
    rw [BindState.addPart]
    cases source.scope.sourceRef header.node with
    | some place => exact keepsNames_modifyType _ _ fun t => ⟨rfl, rfl, rfl, rfl, rfl⟩
    | none => exact .refl _
  have hregistry : (s₁.addPart source header id).comp.registry = s₁.comp.registry := by
    rw [BindState.addPart]
    cases source.scope.sourceRef header.node <;> rfl
  refine ⟨id, _, hrun, hkeeps.trans hpart, fun e he => ?_, hname.mono hvalid hpart⟩
  rw [hregistry] at he
  exact (hregistered₁ e he).mono hvalid hpart

/-! ## All declarations -/

/-- The types have been declared, and each type has a shorter name than the types nested in it, as
has the type around all of them. -/
structure BindState.Nests (outer : Option SymbolId) (ds : List DeclaredType) (s s' : BindState) :
    Prop where
  valid : s'.Valid
  keeps : s.comp.KeepsNames s'.comp
  registered : s'.comp.Registered
  inside : ∀ id ∈ outer, ∀ d ∈ ds, s'.comp.Longer id d.symbol
  nested : ∀ d ∈ ds, ∀ e ∈ nestedIn d.decl.members, ∃ d' ∈ ds,
    d'.source = d.source ∧ d'.decl = e ∧ s'.comp.Longer d.symbol d'.symbol

namespace BindState.Nests

theorem nil (hs : s.Valid) (hregistered : s.comp.Registered) : s.Nests outer [] s where
  valid := hs
  keeps := .refl _
  registered := hregistered
  inside _ _ := List.forall_mem_nil _
  nested := List.forall_mem_nil _

theorem append (h : s.Nests outer ds s') (h' : s'.Nests outer ds' s'') :
    s.Nests outer (ds ++ ds') s'' where
  valid := h'.valid
  keeps := h.keeps.trans h'.keeps
  registered := h'.registered
  inside id hid := List.forall_mem_append.2
    ⟨fun d hd => (h.inside id hid d hd).mono h.valid.comp h'.keeps, h'.inside id hid⟩
  nested := by
    refine List.forall_mem_append.2 ⟨fun d hd e he => ?_, fun d hd e he => ?_⟩
    · obtain ⟨d', hd', hsource, hdecl, hlonger⟩ := h.nested d hd e he
      exact ⟨d', List.mem_append_left _ hd', hsource, hdecl, hlonger.mono h.valid.comp h'.keeps⟩
    · obtain ⟨d', hd', hrest⟩ := h'.nested d hd e he
      exact ⟨d', List.mem_append_right _ hd', hrest⟩

/-- A type is declared in front of the types nested in it. -/
theorem cons {members : List Member} (hs : s.Valid) (houter : s.comp.NamesOuter outer)
    (hs' : s'.Valid) (hkeeps : s.comp.KeepsNames s'.comp)
    (hname : s'.comp.IsNamed id (declaredName s.comp outer header))
    (h : s'.Nests (some id) ds s'')
    (hdecls : (ds.map fun d => (d.source, d.decl)) = (nestedIn members).map (Prod.mk source)) :
    s.Nests outer (⟨source, .mk header members, id⟩ :: ds) s'' where
  valid := h.valid
  keeps := hkeeps.trans h.keeps
  registered := h.registered
  inside owner howner := by
    obtain rfl : outer = some owner := howner
    obtain ⟨name, hown⟩ := houter owner rfl
    have hfirst : s'.comp.Longer owner id := by
      refine ⟨name, _, hown.mono hs.comp hkeeps, hname, ?_⟩
      rw [← hown.metadataName_eq]
      exact length_lt_declaredName _ _ _
    have hfirst := hfirst.mono hs'.comp h.keeps
    exact List.forall_mem_cons.2 ⟨hfirst, fun d hd => hfirst.trans (h.inside id rfl d hd)⟩
  nested := by
    refine List.forall_mem_cons.2 ⟨fun e he => ?_, fun d hd e he => ?_⟩
    · have hmem : (source, e) ∈ ds.map fun d => (d.source, d.decl) := by
        rw [hdecls]
        exact List.mem_map_of_mem he
      obtain ⟨d, hd, heq⟩ := List.mem_map.1 hmem
      obtain ⟨hsource, hdecl⟩ := Prod.mk.inj heq
      exact ⟨d, .tail _ hd, hsource, hdecl, h.inside id rfl d hd⟩
    · obtain ⟨d', hd', hrest⟩ := h.nested d hd e he
      exact ⟨d', .tail _ hd', hrest⟩

end BindState.Nests

mutual

theorem declareType_nests : ∀ (decl : TypeDecl) (outer : Option SymbolId) (s : BindState),
    s.Valid → s.comp.Registered → s.comp.NamesOuter outer →
      s.Nests outer ((declareType source outer decl).run s).1
        ((declareType source outer decl).run s).2
  | .mk header members, outer, s, hs, hregistered, houter => by
    have hfinds : Finds ∅ s.comp (declareHeader source outer header) fun c id => c.IsType id :=
      declareHeader_finds houter.isType header
    obtain ⟨hlead, -⟩ := hfinds s hs (le_refl _)
    obtain ⟨id, s₁, hrun, hkeeps, hregistered₁, hname⟩ :=
      declareHeader_named hs hregistered houter header
    rw [hrun] at hlead
    have hid : s₁.comp.NamesOuter (some id) := by
      rintro _ ⟨⟩
      exact ⟨_, hname⟩
    have hrest := declareNested_nests members id s₁ hlead.valid hregistered₁ hid
    have hnested : Finds ∅ s₁.comp (declareNested source id members) fun c ds =>
        DeclaredFor c ((nestedIn members).map (Prod.mk source)) ds :=
      declareNested_finds members id hname.1
    obtain ⟨-, hdecls⟩ := hnested s₁ hlead.valid (le_refl _)
    rw [declareType, bind_run hrun]
    exact .cons hs houter hlead.valid hkeeps hname hrest hdecls.decls

theorem declareNested_nests : ∀ (members : List Member) (owner : SymbolId) (s : BindState),
    s.Valid → s.comp.Registered → s.comp.NamesOuter (some owner) →
      s.Nests (some owner) ((declareNested source owner members).run s).1
        ((declareNested source owner members).run s).2
  | [], _, s, hs, hregistered, _ => .nil hs hregistered
  | .type decl :: rest, owner, s, hs, hregistered, houter => by
    have hfirst := declareType_nests decl (some owner) s hs hregistered houter
    have houter' : ((declareType source (some owner) decl).run s).2.comp.NamesOuter (some owner) :=
      fun id hid => (houter id hid).imp fun name hname => hname.mono hs.comp hfirst.keeps
    rw [declareNested]
    exact hfirst.append (declareNested_nests rest owner _ hfirst.valid hfirst.registered houter')
  | .field _ :: rest, owner, s, hs, hregistered, houter
  | .property _ :: rest, owner, s, hs, hregistered, houter
  | .method _ :: rest, owner, s, hs, hregistered, houter
  | .constructor _ :: rest, owner, s, hs, hregistered, houter => by
    rw [declareNested]
    exact declareNested_nests rest owner s hs hregistered houter

end

theorem typesDeclared_nests (sources : List Source) :
    BindState.Nests none (typesDeclared sources).1 {} (typesDeclared sources).2 := by
  have hnone (c : Compilation) : c.NamesOuter none := by rintro _ ⟨⟩
  refine declareTypes_induct (I := fun s => s.Valid ∧ s.comp.Registered)
    (R := fun ds s s' => s.Nests none ds s') (fun s hs => .nil hs.1 hs.2) BindState.Nests.append
    (fun source decl s hs => ?_) sources ⟨.empty, List.forall_mem_nil _⟩
  have hnests : s.Nests none ((declareType source none decl).run s).1
      ((declareType source none decl).run s).2 := declareType_nests decl none s hs.1 hs.2 (hnone _)
  exact ⟨⟨hnests.valid, hnests.registered⟩, hnests⟩

/-- A type that is nested in another one has another symbol. -/
theorem exists_nested_of_mem {sources : List Source} {d : DeclaredType}
    (hd : d ∈ (typesDeclared sources).1) {e : TypeDecl} (he : e ∈ nestedIn d.decl.members) :
    ∃ d' ∈ (typesDeclared sources).1, d'.source = d.source ∧ d'.decl = e ∧
      d'.symbol ≠ d.symbol := by
  obtain ⟨d', hd', hsource, hdecl, hlonger⟩ := (typesDeclared_nests sources).nested d hd e he
  exact ⟨d', hd', hsource, hdecl, hlonger.ne.symm⟩

end PropertyLint
