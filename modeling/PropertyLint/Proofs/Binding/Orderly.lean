/-
# Declarations keep the symbols in order

While types and members are declared, a type gets no members but fields, properties and methods, and
the parameters of a method are numbered by their places, so the compilation is orderly when all
members have been declared (`membersDeclared_orderly`).  Declaring the contents of types changes
these types and adds symbols, but it leaves everything else as it is (`declareAll_orders`).
-/
import PropertyLint.Proofs.Binding.Bodies
import PropertyLint.Proofs.Binding.Calm

namespace PropertyLint

open Binder Compilation

variable {c c' : Compilation} {scope : Scope} {node : NodeId} {source : Source} {d : DeclaredType}
  {own : Set SymbolId} {α β : Type}

/-! ## Rules -/

namespace Binder

/-- From an orderly compilation with at least the symbols of `c`, the step leads to an orderly one,
in which only the given types have changed, and to a result as it should be. -/
def Orders (own : Set SymbolId) (c : Compilation) (step : Binder α)
    (post : Compilation → α → Prop) : Prop :=
  ∀ s : BindState, s.comp.Orderly → c ≤ s.comp →
    (step.run s).2.comp.Orderly ∧ s.comp.Grows own (step.run s).2.comp ∧
      post (step.run s).2.comp (step.run s).1

variable {step : Binder α} {post : Compilation → α → Prop} {f : α → Binder β}
  {postB : Compilation → β → Prop}

namespace Orders

theorem pure {a : α} (h : ∀ c', c ≤ c' → post c' a) : Orders own c (pure a) post :=
  fun s hs hle => ⟨hs, .refl _, h s.comp hle⟩

theorem bind (h : Orders own c step post)
    (hf : ∀ c' a, c ≤ c' → post c' a → Orders own c' (f a) postB) : Orders own c (step >>= f) postB := by
  intro s hs hle
  obtain ⟨horderly, hgrow, hpost⟩ := h s hs hle
  obtain ⟨horderly', hgrow', hpost'⟩ := hf _ _ (le_trans hle hgrow.le) hpost _ horderly (le_refl _)
  exact ⟨horderly', hgrow.trans hgrow', hpost'⟩

/-- What a step finds does not matter. -/
theorem next (h : Orders own c step post) (hf : ∀ c' a, c ≤ c' → Orders own c' (f a) postB) :
    Orders own c (step >>= f) postB := h.bind fun c' a hle _ => hf c' a hle

theorem discard (h : Orders own c step post) :
    Orders own c (Functor.discard step) fun _ _ => True :=
  h.next fun _ _ _ => .pure fun _ _ => trivial

/-- A step that looks at the symbols. -/
theorem comp {f : Compilation → Binder β} (h : ∀ c', c ≤ c' → Orders own c' (f c') postB) :
    Orders own c (Binder.comp >>= f) postB :=
  fun s hs hle => h s.comp hle s hs (le_refl _)

theorem forM {as : List α} {f : α → Binder Unit}
    (h : ∀ a ∈ as, ∀ c', c ≤ c' → Orders own c' (f a) fun _ _ => True) :
    Orders own c (as.forM f) fun _ _ => True := by
  induction as generalizing c with
  | nil => exact .pure fun _ _ => trivial
  | cons a as ih =>
    rw [List.forM_eq_forM, List.forM_cons]
    refine (h a (.head _) c (le_refl c)).next fun c' _ hle => ih fun b hb c'' hle' => ?_
    exact h b (.tail _ hb) c'' (le_trans hle hle')

theorem mapM {as : List α} {f : α → Binder β}
    (h : ∀ a ∈ as, ∀ c', c ≤ c' → Orders own c' (f a) fun _ _ => True) :
    Orders own c (as.mapM f) fun _ _ => True := by
  induction as generalizing c with
  | nil => exact .pure fun _ _ => trivial
  | cons a as ih =>
    rw [List.mapM_cons]
    refine (h a (.head _) c (le_refl c)).next fun c' _ hle => ?_
    exact (ih fun b hb c'' hle' => h b (.tail _ hb) c'' (le_trans hle hle')).next
      fun _ _ _ => .pure fun _ _ => trivial

end Orders

theorem Calm.orders (h : Calm step) : Orders own c step fun _ _ => True :=
  fun s hs _ => ⟨(h s).comp.orderly hs, (h s).comp.grows, trivial⟩

theorem declare_orders (id : SymbolId) : Orders own c (declare scope node id) fun _ _ => True :=
  fun _ hs _ => ⟨hs, .refl _, trivial⟩

/-- A type without members is added. -/
theorem addType_orders {t : TypeSymbol} (h : t.members = []) :
    Orders own c (add (.type t)) fun _ _ => True :=
  Calm.orders <| add_calm fun c => by
    rw [Symbol.orderly_type, h]
    exact List.forall_mem_nil _

/-- The kind and the members of a type are left alone. -/
theorem modifyType_orders {id : SymbolId} {f : TypeSymbol → TypeSymbol} (hid : id ∈ own)
    (hkind : ∀ t, (f t).kind = t.kind) (hmembers : ∀ t, (f t).members = t.members) :
    Orders own c (change fun c => ((), c.modifyType id f)) fun _ _ => True := by
  refine fun s hs _ => ⟨hs.modifyType fun t ht => ?_, grows_modifyType hid hkind, trivial⟩
  rwa [Symbol.orderly_type, hmembers t]

theorem addMember_orders {owner : SymbolId} {symbol : Symbol} (howner : owner ∈ own)
    (h : symbol.Orderly c)
    (hkind : ∀ (c' : Compilation) id, c'.symbol? id = some symbol → c'.isMember id = true) :
    Orders own c (addMember owner symbol) fun _ _ => True := by
  have hadd : Orders own c (add symbol) fun c' id => c'.isMember id = true := fun s hs hle =>
    ⟨hs.add (h.mono hle), grows_add _ symbol, hkind _ _ (symbol?_add_size symbol)⟩
  refine hadd.bind fun c₁ id _ hid => ?_
  have hmember : Orders own c₁ (change fun c => ((), c.modifyType owner fun t =>
      { t with members := t.members ++ [id] })) fun _ _ => True := by
    refine fun s hs hle => ⟨hs.modifyType fun t ht => ?_,
      grows_modifyType howner fun _ => rfl, trivial⟩
    exact List.forall_mem_append.2 ⟨ht, List.forall_mem_singleton.2 (isMember_of_le hid hle)⟩
  exact hmember.next fun _ _ _ => .pure fun _ _ => trivial

end Binder

/-! ## Types -/

theorem addTypeParams_orders (owner : SymbolId) (base : Option SymbolId) (ordinal : Nat)
    (names : List Ident) :
    Orders Set.univ c (addTypeParams owner base ordinal names) fun _ _ => True := by
  induction names generalizing c ordinal with
  | nil => exact .pure fun _ _ => trivial
  | cons name rest ih =>
    rw [addTypeParams]
    refine Orders.next (addType_orders rfl) fun _ _ _ => ?_
    exact Orders.next (modifyType_orders (Set.mem_univ _) (fun _ => rfl) fun _ => rfl) fun _ _ _ => ih _

theorem createType_orders (outer : Option SymbolId) (decl : TypeHeader) :
    Orders Set.univ c (createType outer decl) fun _ _ => True := by
  have hregister {c : Compilation} (id : SymbolId) :
      Orders Set.univ c (change fun c => ((), c.register id)) fun _ _ => True :=
    fun _ hs _ => ⟨hs.register id, grows_register _ id, trivial⟩
  unfold createType
  refine Orders.next (addType_orders rfl) fun _ id _ => ?_
  refine (typeNamed?_calm _).orders.next fun _ object _ => ?_
  exact (addTypeParams_orders _ _ _ _).next fun _ _ _ => (hregister id).next
    fun _ _ _ => .pure fun _ _ => trivial

theorem declareHeader_orders (outer : Option SymbolId) (decl : TypeHeader) :
    Orders Set.univ c (declareHeader source outer decl) fun _ _ => True := by
  have hdeclare {c : Compilation} (id : SymbolId) : Orders Set.univ c (do
      declare source.scope decl.node.id id
      return id) fun _ _ => True :=
    (declare_orders id).next fun _ _ _ => .pure fun _ _ => trivial
  have hplace {c : Compilation} (place : SourceRef) (id : SymbolId) : Orders Set.univ c (do
      change fun c => ((), c.modifyType id fun t =>
        { t with declarations := t.declarations ++ [place] })
      declare source.scope decl.node.id id
      return id) fun _ _ => True :=
    Orders.next (modifyType_orders (Set.mem_univ _) (fun _ => rfl) fun _ => rfl) fun _ _ _ => hdeclare id
  unfold declareHeader
  refine .comp fun c₁ _ => ?_
  dsimp only
  cases earlierPart? c₁ outer decl with
  | some id =>
    cases source.scope.sourceRef decl.node with
    | some place => exact hplace place id
    | none => exact hdeclare id
  | none =>
    refine (createType_orders outer decl).next fun _ id _ => ?_
    cases source.scope.sourceRef decl.node with
    | some place => exact hplace place id
    | none => exact hdeclare id

mutual

theorem declareType_orders {c : Compilation} : ∀ (decl : TypeDecl) (outer : Option SymbolId),
    Orders Set.univ c (declareType source outer decl) fun _ _ => True
  | .mk header members, outer => by
    rw [declareType]
    refine (declareHeader_orders outer header).next fun _ id _ => ?_
    exact (declareNested_orders members id).next fun _ _ _ => .pure fun _ _ => trivial

theorem declareNested_orders {c : Compilation} : ∀ (members : List Member) (outer : SymbolId),
    Orders Set.univ c (declareNested source outer members) fun _ _ => True
  | [], _ => .pure fun _ _ => trivial
  | .type decl :: rest, outer => by
    rw [declareNested]
    refine (declareType_orders decl (some outer)).next fun _ _ _ => ?_
    exact (declareNested_orders rest outer).next fun _ _ _ => .pure fun _ _ => trivial
  | .field _ :: rest, outer | .property _ :: rest, outer
  | .method _ :: rest, outer | .constructor _ :: rest, outer => by
    rw [declareNested]
    exact declareNested_orders rest outer

end

theorem declareTypes_orders (sources : List Source) :
    Orders Set.univ c (declareTypes sources) fun _ _ => True :=
  (Orders.mapM fun _ _ _ _ => .mapM fun decl _ _ _ => declareType_orders decl none).next
    fun _ _ _ => .pure fun _ _ => trivial

/-! ## Members -/

theorem TypeSymbol.members_withBase (t : TypeSymbol) (base : SymbolId) (isInterface : Bool) :
    (t.withBase base isInterface).members = t.members := by
  unfold withBase
  split
  · split <;> rfl
  · split <;> rfl

theorem TypeSymbol.kind_withBase (t : TypeSymbol) (base : SymbolId) (isInterface : Bool) :
    (t.withBase base isInterface).kind = t.kind := by
  unfold withBase
  split
  · split <;> rfl
  · split <;> rfl

theorem declareBases_orders (hd : d.symbol ∈ own) :
    Orders own c (declareBases d) fun _ _ => True := by
  refine .forM fun base _ _ _ => ?_
  refine (resolveType_calm base).orders.next fun _ found _ => ?_
  cases found with
  | none => exact .pure fun _ _ => trivial
  | some found => exact .comp fun _ _ =>
    modifyType_orders hd (fun t => t.kind_withBase found _) fun t => t.members_withBase found _

/-- Parameters are numbered by their places. -/
theorem declareParams_orders (ordinal : Nat) (params : List Parameter) :
    Orders own c (declareParams scope ordinal params) fun c' ids => c'.InPlaces ordinal ids := by
  induction params generalizing c ordinal with
  | nil => exact .pure fun _ _ => .nil
  | cons p rest ih =>
    rw [declareParams]
    refine (resolveType_calm p.type).orders.next fun c₁ type _ => ?_
    have hadd : Orders own c₁ (add (.parameter
        ⟨p.name.text, type, ordinal, p.default.isSome, scope.sourceRef p.node⟩))
        fun c' id => ∃ q, c'.parameter? id = some q ∧ q.ordinal = ordinal := fun s hs _ =>
      ⟨hs.add (Symbol.orderly_parameter _ _), grows_add _ _, _,
        Option.bind_eq_some_iff.2 ⟨_, symbol?_add_size _, rfl⟩, rfl⟩
    refine hadd.bind fun c₂ id _ hid => (declare_orders id).next fun c₃ _ hle₃ => ?_
    obtain ⟨q, hq, hordinal⟩ := hid
    refine (ih (ordinal + 1)).bind fun c₄ ids hle₄ hids => .pure fun c₅ hle₅ => ?_
    exact .cons (parameter?_of_le hq (le_trans hle₃ (le_trans hle₄ hle₅))) hordinal (hids.mono hle₅)

theorem declareField_orders (hd : d.symbol ∈ own) (field : FieldDecl) :
    Orders own c (declareField d field) fun _ _ => True := by
  unfold declareField
  refine (resolveType_calm _).orders.next fun _ _ _ => ?_
  refine Orders.next (addMember_orders hd trivial fun _ _ h => by rw [isMember, h]) fun _ id _ => ?_
  exact (declare_orders id).next fun _ _ _ => .pure fun _ _ => trivial

theorem declareProperty_orders (hd : d.symbol ∈ own) (property : PropertyDecl) :
    Orders own c (declareProperty d property) fun _ _ => True := by
  unfold declareProperty
  refine (resolveType_calm _).orders.next fun _ _ _ => ?_
  exact Orders.next (addMember_orders hd trivial fun _ _ h => by rw [isMember, h])
    fun _ id _ => declare_orders id

theorem addMethodTypeParams_orders (base : Option SymbolId) (ordinal : Nat) (names : List Ident) :
    Orders own c (addMethodTypeParams base ordinal names) fun _ _ => True := by
  induction names generalizing c ordinal with
  | nil => exact .pure fun _ _ => trivial
  | cons name rest ih =>
    rw [addMethodTypeParams]
    refine Orders.next (addType_orders rfl) fun _ _ _ => ?_
    exact (ih _).next fun _ _ _ => .pure fun _ _ => trivial

/-- A method is added with parameters in their places. -/
theorem addMethod_orders {owner : SymbolId} {method : MethodSymbol} (howner : owner ∈ own)
    (h : c.InPlaces 0 method.params) :
    Orders own c (addMember owner (.method method)) fun _ _ => True :=
  addMember_orders howner h fun _ _ h => by rw [isMember, h]

theorem declareMethod_orders (hd : d.symbol ∈ own) (method : MethodDecl) :
    Orders own c (declareMethod d method) fun _ _ => True := by
  unfold declareMethod
  refine (typeNamed?_calm _).orders.next fun _ object _ => ?_
  refine (addMethodTypeParams_orders _ _ _).next fun _ typeParams _ => ?_
  refine (resolveType_calm _).orders.next fun _ returnType _ => ?_
  refine (declareParams_orders _ _).bind fun c₁ params _ hparams => ?_
  -- what follows the interface in front of the name
  have hmember {c₂ : Compilation} (hle : c₁ ≤ c₂) {symbol : MethodSymbol}
      (hsymbol : symbol.params = params) : Orders own c₂ (do
        let id ← addMember d.symbol (.method symbol)
        declare d.scope method.node.id id
        modify fun s => { s with
          methodTypeParams :=
            (⟨d.source.file, method.node.id⟩, typeParams) :: s.methodTypeParams })
      fun _ _ => True := by
    refine (addMethod_orders hd ?_).next fun _ id _ => (declare_orders id).next fun _ _ _ => ?_
    · rw [hsymbol]
      exact hparams.mono hle
    · exact fun _ hs _ => ⟨hs, .refl _, trivial⟩
  dsimp only
  split
  next interface _ =>
    exact (resolveType_calm interface).orders.discard.next fun _ _ hle => hmember hle rfl
  next => exact hmember (le_refl _) rfl

theorem declareConstructor_orders (hd : d.symbol ∈ own) (ctor : ConstructorDecl) :
    Orders own c (declareConstructor d ctor) fun _ _ => True := by
  unfold declareConstructor
  refine (declareParams_orders _ _).bind fun c₁ params _ hparams => ?_
  refine (typeNamed?_calm _).orders.next fun c₂ void hle => ?_
  exact (addMethod_orders hd (hparams.mono hle)).next fun _ id _ => declare_orders id

theorem declareMember_orders (hd : d.symbol ∈ own) (m : Member) :
    Orders own c (declareMember d m) fun _ _ => True := by
  cases m with
  | field decl =>
    rw [declareMember]
    refine (declareField_orders hd decl).next fun _ id _ => ?_
    split
    · exact .pure fun _ _ => trivial
    · exact .pure fun _ _ => trivial
  | property decl => exact (declareProperty_orders hd decl).next fun _ _ _ => .pure fun _ _ => trivial
  | method decl => exact (declareMethod_orders hd decl).next fun _ _ _ => .pure fun _ _ => trivial
  | constructor decl =>
    exact (declareConstructor_orders hd decl).next fun _ _ _ => .pure fun _ _ => trivial
  | type decl => exact .pure fun _ _ => trivial

theorem addImplicit_orders (hd : d.symbol ∈ own) :
    Orders own c (addImplicit d) fun _ _ => True := by
  unfold addImplicit
  refine .comp fun c₁ _ => ?_
  have hconstructor {c : Compilation} (t : TypeSymbol) : Orders own c (do
      if needsConstructor c₁ t then
        Functor.discard
          (addMember d.symbol (.method (implicitConstructor d.symbol (← knownType? .void)))))
      fun _ _ => True := by
    split
    · exact (typeNamed?_calm _).orders.next fun _ _ _ => (addMethod_orders hd .nil).discard
    · exact .pure fun _ _ => trivial
  cases c₁.type? d.symbol with
  | none => exact .pure fun _ _ => trivial
  | some t =>
    dsimp only
    split
    · exact Orders.next (modifyType_orders hd (fun _ => rfl) fun _ => rfl) fun _ _ _ => hconstructor t
    · exact hconstructor t

theorem declareContents_orders (hd : d.symbol ∈ own) :
    Orders own c (declareContents d) fun _ _ => True :=
  (declareBases_orders hd).next fun _ _ _ =>
    (Orders.mapM fun m _ _ _ => declareMember_orders hd m).next fun _ _ _ => .pure fun _ _ => trivial

/-- Only the types whose contents are declared change. -/
theorem declareAll_orders {types : List DeclaredType} (htypes : ∀ d ∈ types, d.symbol ∈ own) :
    Orders own c (declareAll types) fun _ _ => True :=
  (Orders.mapM fun d hd _ _ => declareContents_orders (htypes d hd)).next fun _ _ _ =>
    (Orders.forM fun d hd _ _ => addImplicit_orders (htypes d hd)).next
      fun _ _ _ => .pure fun _ _ => trivial

/-- When all members have been declared, the symbols are in order. -/
theorem membersDeclared_orderly (sources : List Source) :
    (membersDeclared sources).2.comp.Orderly := by
  obtain ⟨htypes, -, -⟩ := declareTypes_orders sources {} .empty (le_refl _)
  exact (declareAll_orders (fun _ _ => Set.mem_univ _) _ htypes (le_refl _)).1

end PropertyLint
