/-
# Types in layers

No single order of the numbers leads from a type to its parts: arguments, elements and enclosing
types come in front of a type, and its own type parameters behind it.  But a type parameter has no
parts, and the type that owns it has it in its list, in its place (`Compilation.Layer`).  So types
stand in layers (`Compilation.Layered`), and every operation keeps them there: what was there keeps
what it is built from (`Compilation.KeepsParts`), and what is new is built from what was there.  The
operation to look at is the one that adds a type parameter, because the owner gets it in a second
step (`Layered.addOwned`).

In one place of a list there is one type parameter (`HasParam.unique`), so the type parameters of
types are equal only if they are the same.  Those of methods have no owner and are compared by place
and name alone (`Layered.typesEqual_iff_of_typeParam`).
-/
import PropertyLint.Proofs.Symbol.Equality
import PropertyLint.Proofs.Symbol.Valid

namespace PropertyLint

namespace Compilation

variable {c c' : Compilation} {id owner : SymbolId} {t t' : TypeSymbol} {s : Symbol}
  {args : List SymbolId}

/-! ## What stays -/

/-- From one compilation to another, types keep what they are built from and, in their places, their
parameters. -/
def KeepsParts (c c' : Compilation) : Prop :=
  ∀ id t, c.type? id = some t →
    ∃ t', c'.type? id = some t' ∧ t'.core = t.core ∧ t.typeParams <+: t'.typeParams

theorem keepsParts_of_type? (h : ∀ id t, c.type? id = some t → c'.type? id = some t) :
    c.KeepsParts c' := fun id t ht => ⟨t, h id t ht, rfl, List.prefix_refl _⟩

theorem KeepsParts.trans {c'' : Compilation} (h : c.KeepsParts c') (h' : c'.KeepsParts c'') :
    c.KeepsParts c'' := by
  intro id t ht
  obtain ⟨u, hu, hcore, hparams⟩ := h id t ht
  obtain ⟨t', ht', hcore', hparams'⟩ := h' id u hu
  exact ⟨t', ht', hcore'.trans hcore, hparams.trans hparams'⟩

theorem KeepsParts.cores (h : c.KeepsParts c') : c.KeepsCores c' := fun id t ht =>
  let ⟨t', ht', hcore, _⟩ := h id t ht
  ⟨t', ht', hcore⟩

theorem keepsParts_add (c : Compilation) (s : Symbol) : c.KeepsParts (c.add s).2 :=
  keepsParts_of_type? fun _ _ ht => (type?_add_of_lt s (lt_of_type?_eq_some ht)).trans ht

theorem keepsParts_modifyType (c : Compilation) (edited : SymbolId) {f : TypeSymbol → TypeSymbol}
    (hcore : ∀ t, (f t).core = t.core) (hparams : ∀ t, t.typeParams <+: (f t).typeParams) :
    c.KeepsParts (c.modifyType edited f) := by
  intro id t ht
  refine ⟨_, type?_modifyType edited f ht, ?_, ?_⟩
  · split
    · exact hcore t
    · rfl
  · split
    · exact hparams t
    · exact List.prefix_refl _

/-! ## Layers -/

/-- The number is that of a type that is neither a type parameter nor constructed. -/
def IsDefinition (c : Compilation) (id : SymbolId) : Prop :=
  ∃ t, c.type? id = some t ∧ t.kind ≠ .typeParameter ∧ t.genericDefinition = none

/-- A definition has the type parameter in its list, in the given place. -/
def HasParam (c : Compilation) (owner : SymbolId) (place : Option Nat) (param : SymbolId) : Prop :=
  ∃ t i, c.type? owner = some t ∧ t.genericDefinition = none ∧ place = some i ∧
    t.typeParams[i]? = some param

/-- A type is built from types before it, it comes behind the type that contains it, and if it is a
type parameter with an owner, the owner has it in its list. -/
structure Layer (c : Compilation) (id : SymbolId) (t : TypeSymbol) : Prop where
  founded : c.Founded id t
  outer : ∀ o ∈ t.containingType, o < id
  owned : t.kind = .typeParameter → ∀ o ∈ t.containingType, c.HasParam o t.ordinal id

/-- All types are in their layers, and definitions are registered. -/
structure Layered (c : Compilation) : Prop where
  types : ∀ id t, c.type? id = some t → c.Layer id t
  registry : ∀ e ∈ c.registry, c.IsDefinition e.2

theorem Layered.grounded (h : c.Layered) : c.Grounded := fun id t ht => (h.types id t ht).founded

theorem IsDefinition.keep (h : c.IsDefinition id) (hkeeps : c.KeepsParts c') :
    c'.IsDefinition id := by
  obtain ⟨t, ht, hkind, hplain⟩ := h
  obtain ⟨t', ht', hcore, -⟩ := hkeeps id t ht
  refine ⟨t', ht', ?_, (genericDefinition_of_core hcore).trans hplain⟩
  rwa [kind_of_core hcore]

theorem IsDefinition.isType (h : c.IsDefinition id) : c.IsType id :=
  isType_of_type? h.choose_spec.1

theorem HasParam.keep {place : Option Nat} {param : SymbolId} (h : c.HasParam owner place param)
    (hkeeps : c.KeepsParts c') : c'.HasParam owner place param := by
  obtain ⟨t, i, ht, hplain, hplace, hparam⟩ := h
  obtain ⟨t', ht', hcore, more, hmore⟩ := hkeeps owner t ht
  refine ⟨t', i, ht', (genericDefinition_of_core hcore).trans hplain, hplace, ?_⟩
  rw [← hmore, List.getElem?_append_left (List.getElem?_eq_some_iff.1 hparam).1, hparam]

/-- A type stays in its layer. -/
theorem Layer.keep (h : c.Layer id t) (hkeeps : c.KeepsParts c') (hcore : t'.core = t.core)
    (hparams : ∀ p ∈ t'.typeParams, c'.isTypeParam p = true) : c'.Layer id t' := by
  have hcontaining : t'.containingType = t.containingType :=
    (congrArg TypeSymbol.containingType hcore :)
  have hordinal : t'.ordinal = t.ordinal := (congrArg TypeSymbol.ordinal hcore :)
  refine ⟨h.founded.of_core hkeeps.cores hcore hparams, ?_, fun hkind o ho => ?_⟩
  · rw [hcontaining]
    exact h.outer
  · rw [kind_of_core hcore] at hkind
    rw [hcontaining] at ho
    rw [hordinal]
    exact (h.owned hkind o ho).keep hkeeps

/-- Types stay in layers if those that were there keep their parts, and the others are in their
layers. -/
theorem Layered.grow (h : c.Layered) (hkeeps : c.KeepsParts c')
    (htypes : ∀ id t', c'.type? id = some t' → (∃ t, c.type? id = some t ∧ t'.core = t.core ∧
      ∀ p ∈ t'.typeParams, p ∈ t.typeParams ∨ c'.isTypeParam p = true) ∨ c'.Layer id t')
    (hregistry : ∀ e ∈ c'.registry, e ∈ c.registry ∨ c'.IsDefinition e.2) : c'.Layered where
  types id t' ht' := by
    rcases htypes id t' ht' with ⟨t, ht, hcore, hparams⟩ | hnew
    · refine (h.types id t ht).keep hkeeps hcore fun p hp => ?_
      rcases hparams p hp with hold | hparam
      · exact hkeeps.cores.isTypeParam ((h.types id t ht).founded.params p hold)
      · exact hparam
    · exact hnew
  registry e he := (hregistry e he).elim (fun hold => (h.registry e hold).keep hkeeps) id

/-! ## Operations -/

namespace Layered

theorem empty : Layered {} where
  types _ _ h := by simp [type?, symbol?] at h
  registry _ h := absurd h List.not_mem_nil

theorem of_symbols_eq (h : c.Layered) (hsymbols : c'.symbols = c.symbols)
    (hregistry : ∀ e ∈ c'.registry, e ∈ c.registry ∨ c.IsDefinition e.2) : c'.Layered := by
  have htype (id : SymbolId) : c'.type? id = c.type? id := by
    rw [type?, type?, symbol?, symbol?, hsymbols]
  have hkeeps : c.KeepsParts c' := keepsParts_of_type? fun id t ht => (htype id).trans ht
  refine h.grow hkeeps (fun id t ht => ?_) fun e he =>
    (hregistry e he).imp_right fun hdefinition => hdefinition.keep hkeeps
  exact .inl ⟨t, (htype id).symm.trans ht, rfl, fun _ => .inl⟩

theorem withKnown (h : c.Layered) : c.withKnown.Layered := h.of_symbols_eq rfl fun _ => .inl

theorem register (h : c.Layered) (hid : c.IsDefinition id) : (c.register id).Layered := by
  refine h.of_symbols_eq rfl fun e he => ?_
  rcases List.mem_append.1 he with he | he
  · exact .inl he
  · obtain rfl := List.mem_singleton.1 he
    exact .inr hid

theorem add (h : c.Layered) (hs : ∀ t, s = .type t → c.Layer c.symbols.size t) :
    (c.add s).2.Layered := by
  have hkeeps := c.keepsParts_add s
  refine h.grow hkeeps (fun id t ht => ?_) fun _ => .inl
  rcases type?_add_cases ht with hold | ⟨rfl, hnew⟩
  · exact .inl ⟨t, hold, rfl, fun _ => .inl⟩
  · have hlayer := hs t hnew
    exact .inr (hlayer.keep hkeeps rfl fun p hp =>
      hkeeps.cores.isTypeParam (hlayer.founded.params p hp))

/-- A change of one type that leaves it what it is built from. -/
theorem modifyType {edited : SymbolId} {f : TypeSymbol → TypeSymbol} (h : c.Layered)
    (hcore : ∀ t, (f t).core = t.core) (hparams : ∀ t, (f t).typeParams = t.typeParams) :
    (c.modifyType edited f).Layered := by
  have hkeeps : c.KeepsParts (c.modifyType edited f) :=
    c.keepsParts_modifyType edited hcore fun t => by rw [hparams]
  refine h.grow hkeeps (fun id t' ht' => ?_) fun _ => .inl
  obtain ⟨t, ht⟩ := exists_type?_of_modifyType ht'
  obtain rfl := Option.some.inj ((type?_modifyType edited f ht).symm.trans ht')
  refine .inl ⟨t, ht, ?_, fun p hp => .inl ?_⟩
  · split
    · exact hcore t
    · rfl
  · split at hp
    · rwa [hparams] at hp
    · exact hp

/-- The type parameter of an owner, in the place behind the parameters that it has. -/
theorem addOwned {param : TypeSymbol} (h : c.Layered) (ht : c.type? owner = some t)
    (hplain : t.genericDefinition = none) (hkind : param.kind = .typeParameter)
    (hordinal : param.ordinal = some t.typeParams.length)
    (hcontaining : param.containingType = some owner)
    (hparts : param.elementType = none ∧ param.typeArgs = [] ∧ param.typeParams = [] ∧
      param.genericDefinition = none) :
    ((c.add (.type param)).2.modifyType owner fun t =>
      { t with typeParams := t.typeParams ++ [c.symbols.size] }).Layered := by
  obtain ⟨helement, hargs, hparams, hdefinition⟩ := hparts
  let f : TypeSymbol → TypeSymbol := fun t =>
    { t with typeParams := t.typeParams ++ [c.symbols.size] }
  have howner : owner < c.symbols.size := lt_of_type?_eq_some ht
  have hkeeps : c.KeepsParts ((c.add (.type param)).2.modifyType owner f) :=
    (c.keepsParts_add _).trans
      (keepsParts_modifyType _ owner (fun _ => rfl) fun _ => List.prefix_append _ _)
  -- the new type parameter and its owner, as they are in the end
  have hnew : ((c.add (.type param)).2.modifyType owner f).type? c.symbols.size = some param := by
    rw [type?_modifyType owner f (type?_add_size (.type param)), if_neg (Nat.ne_of_lt howner)]
  have howned : ((c.add (.type param)).2.modifyType owner f).type? owner = some (f t) := by
    rw [type?_modifyType owner f ((type?_add_of_lt _ howner).trans ht), if_pos rfl]
  refine h.grow hkeeps (fun id t' ht' => ?_) fun _ => .inl
  obtain ⟨u, hu⟩ := exists_type?_of_modifyType ht'
  rcases type?_add_cases hu with hold | ⟨rfl, -⟩
  · obtain rfl := Option.some.inj ((type?_modifyType owner f hu).symm.trans ht')
    refine .inl ⟨u, hold, ?_, fun p hp => ?_⟩
    · split <;> rfl
    · split at hp
      · rcases List.mem_append.1 hp with hp | hp
        · exact .inl hp
        · obtain rfl := List.mem_singleton.1 hp
          exact .inr (isTypeParam_iff.2 ⟨param, hnew, hkind⟩)
      · exact .inl hp
  · obtain rfl := Option.some.inj (hnew.symm.trans ht')
    refine .inr ⟨⟨?_, ?_, ?_, ?_, ?_⟩, ?_, fun _ o ho => ?_⟩
    · simp [helement]
    · simp [hargs]
    · simp [hparams]
    · exact fun _ => hargs
    · simp [hdefinition]
    · rw [hcontaining]
      rintro _ ⟨⟩
      exact howner
    · obtain rfl := Option.some.inj (hcontaining.symm.trans ho)
      refine ⟨f t, t.typeParams.length, howned, hplain, hordinal, ?_⟩
      rw [List.getElem?_append_right (Nat.le_refl _), Nat.sub_self]
      rfl

/-- A copy of a definition with arguments. -/
theorem construct (h : c.Layered) (hid : c.IsDefinition id) (hargs : ∀ a ∈ args, c.Has a) :
    (c.construct id args).2.Layered := by
  obtain ⟨t, ht, hkind, hplain⟩ := hid
  have hdefinition : c.definition id = id := by simp [definition, ht, hplain]
  rw [construct_eq, hdefinition]
  rcases constructAt_cases ht args with ⟨-, heq⟩ | ⟨-, made, -, heq⟩ | ⟨-, -, heq⟩ <;> rw [heq]
  · exact h
  · exact h
  · have hlayer := h.types id t ht
    have hlt : id < c.symbols.size := lt_of_type?_eq_some ht
    refine of_symbols_eq (c := (c.add _).2) (h.add fun copy hcopy => ?_) rfl fun _ => .inl
    obtain rfl := Symbol.type.inj hcopy
    refine ⟨⟨fun x hx => (hlayer.founded.element x hx).trans hlt, hargs, hlayer.founded.params,
      fun hnone => (by cases hnone), ?_⟩, fun o ho => (hlayer.outer o ho).trans hlt,
      fun hparam => absurd hparam hkind⟩
    rintro _ ⟨⟩
    rw [ht, Option.map_some, hplain]

theorem arrayOf {element : SymbolId} (h : c.Layered) (helement : c.Has element) :
    (c.arrayOf element).2.Layered := by
  rcases arrayOf_cases c element with ⟨made, -, heq⟩ | ⟨-, heq⟩ <;> rw [heq]
  · exact h
  · refine of_symbols_eq (c := (c.add _).2) (h.add fun made hmade => ?_) rfl fun _ => .inl
    obtain rfl := Symbol.type.inj hmade
    refine ⟨⟨?_, List.forall_mem_nil _, List.forall_mem_nil _, fun _ => rfl, by rintro _ ⟨⟩⟩,
      by rintro _ ⟨⟩, fun hparam => by cases hparam⟩
    rintro _ ⟨⟩
    exact helement

theorem isDefinition_typeNamed? {name : String} (h : c.Layered) :
    ∀ id ∈ c.typeNamed? name, c.IsDefinition id := fun _ hid => h.registry _ (mem_of_lookup hid)

theorem nullableOf {underlying made : SymbolId} (h : c.Layered) (hunderlying : c.Has underlying)
    (hmade : c.nullableOf underlying = some (made, c')) : c'.Layered := by
  obtain ⟨nullable, hn, heq⟩ := Option.map_eq_some_iff.1 hmade
  have hconstruct := h.construct (h.isDefinition_typeNamed? nullable hn)
    (List.forall_mem_singleton.2 hunderlying)
  rwa [heq] at hconstruct

end Layered

/-! ## Equality of type parameters -/

variable {a b : SymbolId} {s t : TypeSymbol}

/-- In one place of a list there is one type parameter. -/
theorem HasParam.unique {place : Option Nat} (h : c.HasParam owner place a)
    (h' : c.HasParam owner place b) : a = b := by
  obtain ⟨t, i, ht, -, rfl, ha⟩ := h
  obtain ⟨t', i', ht', -, hplace, hb⟩ := h'
  obtain rfl := Option.some.inj (ht.symm.trans ht')
  obtain rfl := Option.some.inj hplace
  exact Option.some.inj (ha.symm.trans hb)

theorem HasParam.definition_eq {place : Option Nat} (h : c.HasParam owner place a) :
    c.definition owner = owner := by
  obtain ⟨t, i, ht, hplain, -⟩ := h
  simp [definition, ht, hplain]

/-- Type parameters of one owner, in one place. -/
theorem Layered.hasParam_of_sameTypeParam (h : c.Layered) (hs : c.type? a = some s)
    (ht : c.type? b = some t) (ks : s.kind = .typeParameter) (kt : t.kind = .typeParameter)
    (hsame : c.sameTypeParam s t = true) {o : SymbolId} (ho : s.containingType = some o) :
    c.HasParam o s.ordinal a ∧ c.HasParam o s.ordinal b := by
  obtain ⟨hordinal, -, howner⟩ := sameTypeParam_iff.1 hsame
  have ha := (h.types a s hs).owned ks o ho
  rw [ho, Option.map_some, eq_comm, Option.map_eq_some_iff] at howner
  obtain ⟨o', ho', hdefinition⟩ := howner
  have hb := (h.types b t ht).owned kt o' ho'
  rw [hb.definition_eq, ha.definition_eq] at hdefinition
  rw [hdefinition, ← hordinal] at hb
  exact ⟨ha, hb⟩

theorem Layered.typesEqual_iff_of_typeParam (h : c.Layered) (hs : c.type? a = some s)
    (ht : c.type? b = some t) (ks : s.kind = .typeParameter) (kt : t.kind = .typeParameter) :
    c.typesEqual a b = true ↔
      (∃ o place, c.HasParam o place a ∧ c.HasParam o place b) ∨
      (s.containingType = none ∧ t.containingType = none ∧ s.ordinal = t.ordinal ∧
        s.name = t.name) := by
  have hstep : c.typesEqual a b = true ↔ a = b ∨ c.sameTypeParam s t = true := by
    rw [typesEqual_iff_matches h.grounded]
    refine or_congr_right ⟨fun hmatch => ?_, fun hsame => .param hs ht ks kt hsame⟩
    cases hmatch with
    | param hs' ht' _ _ hsame =>
      obtain rfl := Option.some.inj (hs.symm.trans hs')
      obtain rfl := Option.some.inj (ht.symm.trans ht')
      exact hsame
    | array hs' _ ks' | nominal hs' _ ks' =>
      obtain rfl := Option.some.inj (hs.symm.trans hs')
      rw [ks] at ks'
      cases ks'
  rw [hstep]
  constructor
  · intro hequal
    have hsame : c.sameTypeParam s t = true := by
      rcases hequal with rfl | hsame
      · obtain rfl := Option.some.inj (hs.symm.trans ht)
        exact sameTypeParam_iff.2 ⟨rfl, rfl, rfl⟩
      · exact hsame
    obtain ⟨hordinal, hname, howner⟩ := sameTypeParam_iff.1 hsame
    cases ho : s.containingType with
    | some o =>
      obtain ⟨ha, hb⟩ := h.hasParam_of_sameTypeParam hs ht ks kt hsame ho
      exact .inl ⟨o, s.ordinal, ha, hb⟩
    | none =>
      rw [ho, Option.map_none, eq_comm, Option.map_eq_none_iff] at howner
      exact .inr ⟨rfl, howner, hordinal, hname⟩
  · rintro (⟨o, place, ha, hb⟩ | ⟨hsnone, htnone, hordinal, hname⟩)
    · exact .inl (ha.unique hb)
    · exact .inr (sameTypeParam_iff.2 ⟨hordinal, hname, by rw [hsnone, htnone]⟩)

end Compilation

end PropertyLint
