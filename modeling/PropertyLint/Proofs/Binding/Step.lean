/-
# Steps of binding

A state of binding is valid if all numbers of symbols in it are, and if its types stand in layers
(`BindState.Valid`).  A step leads from a valid state to a valid one in which the symbols have
grown, and what was known about other nodes than its own is known as before (`BindState.Leads`).
`Finds` says this of a step together with what holds of its result; there is a rule for each way to
put steps together and for each primitive step.
-/
import Mathlib.Data.List.Forall2
import Mathlib.Data.Set.Defs
import PropertyLint.Binding.Bodies
import PropertyLint.Proofs.Symbol.Layered

namespace PropertyLint

/-! ## Valid states -/

/-- The numbers in the facts about nodes are valid. -/
structure Facts.Sound (c : Compilation) (f : Facts) : Prop where
  declared : ∀ e ∈ f.declared, c.Has e.2
  symbols : ∀ e ∈ f.symbols, c.Has e.2
  types : ∀ e ∈ f.types, c.IsType e.2

/-- All numbers in a state of binding are valid, and its types stand in layers. -/
structure BindState.Valid (s : BindState) : Prop where
  comp : s.comp.Valid
  layered : s.comp.Layered
  facts : s.facts.Sound s.comp
  fieldConstants : ∀ e ∈ s.fieldConstants, s.comp.Has e.1
  typeParams : ∀ e ∈ s.methodTypeParams, ∀ p ∈ e.2, s.comp.IsType p
  locals : ∀ e ∈ s.locals, s.comp.Has e.2

/-- A step leads to a valid state, in which the symbols have grown and what is known about nodes
that are not among the given ones is the same as before. -/
structure BindState.Leads (nodes : Set NodeRef) (s s' : BindState) : Prop where
  valid : s'.Valid
  comp : s.comp ≤ s'.comp
  symbols : ∀ n ∉ nodes, s'.facts.symbol? n = s.facts.symbol? n
  constants : ∀ n ∉ nodes, s'.facts.constant? n = s.facts.constant? n
  fieldConstants : s'.fieldConstants = s.fieldConstants

variable {c c' : Compilation} {nodes nodes' : Set NodeRef} {s s' s'' : BindState} {α β : Type}

theorem Facts.Sound.mono {f : Facts} (h : f.Sound c) (hle : c ≤ c') : f.Sound c' where
  declared e he := (h.declared e he).mono hle
  symbols e he := (h.symbols e he).mono hle
  types e he := (h.types e he).mono hle

namespace BindState

theorem Valid.empty : Valid {} where
  comp := .empty
  layered := .empty
  facts :=
    { declared := fun _ he => absurd he List.not_mem_nil
      symbols := fun _ he => absurd he List.not_mem_nil
      types := fun _ he => absurd he List.not_mem_nil }
  fieldConstants _ he := absurd he List.not_mem_nil
  typeParams _ he := absurd he List.not_mem_nil
  locals _ he := absurd he List.not_mem_nil

/-- A state with more symbols is valid. -/
theorem Valid.withComp (h : s.Valid) (hc : c.Valid) (hlayered : c.Layered) (hle : s.comp ≤ c) :
    Valid { s with comp := c } where
  comp := hc
  layered := hlayered
  facts := h.facts.mono hle
  fieldConstants e he := (h.fieldConstants e he).mono hle
  typeParams e he p hp := (h.typeParams e he p hp).mono hle
  locals e he := (h.locals e he).mono hle

/-- A step that only changes the symbols. -/
theorem Valid.leads (h : s.Valid) (hc : c.Valid) (hlayered : c.Layered) (hle : s.comp ≤ c) :
    s.Leads nodes { s with comp := c } :=
  ⟨h.withComp hc hlayered hle, hle, fun _ _ => rfl, fun _ _ => rfl, rfl⟩

theorem Leads.refl (h : s.Valid) : s.Leads nodes s :=
  ⟨h, le_refl _, fun _ _ => rfl, fun _ _ => rfl, rfl⟩

theorem Leads.trans (h : s.Leads nodes s') (h' : s'.Leads nodes s'') : s.Leads nodes s'' where
  valid := h'.valid
  comp := le_trans h.comp h'.comp
  symbols n hn := (h'.symbols n hn).trans (h.symbols n hn)
  constants n hn := (h'.constants n hn).trans (h.constants n hn)
  fieldConstants := h'.fieldConstants.trans h.fieldConstants

theorem Leads.mono (h : s.Leads nodes s') (hnodes : nodes ⊆ nodes') : s.Leads nodes' s' :=
  { h with
    symbols := fun n hn => h.symbols n fun hmem => hn (hnodes hmem)
    constants := fun n hn => h.constants n fun hmem => hn (hnodes hmem) }

end BindState

/-! ## Rules -/

namespace Binder

/-- The first step of two. -/
theorem bind_run {step : Binder α} {f : α → Binder β} {s s' : BindState} {a : α}
    (h : step.run s = (a, s')) : (step >>= f).run s = (f a).run s' := by
  change (f (step.run s).1).run (step.run s).2 = _
  rw [h]

/-- From a valid state with at least the symbols of `c`, the step leads to a state and a result as
they should be. -/
def Finds (nodes : Set NodeRef) (c : Compilation) (step : Binder α)
    (post : Compilation → α → Prop) : Prop :=
  ∀ s : BindState, s.Valid → c ≤ s.comp →
    s.Leads nodes (step.run s).2 ∧ post (step.run s).2.comp (step.run s).1

variable {step : Binder α} {post post' : Compilation → α → Prop} {f : α → Binder β}
  {postB : Compilation → β → Prop}

namespace Finds

theorem pure {a : α} (h : ∀ c', c ≤ c' → post c' a) : Finds nodes c (pure a) post :=
  fun s hs hle => ⟨.refl hs, h s.comp hle⟩

theorem bind (h : Finds nodes c step post)
    (hf : ∀ c' a, c ≤ c' → post c' a → Finds nodes c' (f a) postB) :
    Finds nodes c (step >>= f) postB := by
  intro s hs hle
  obtain ⟨hlead, hpost⟩ := h s hs hle
  obtain ⟨hlead', hpost'⟩ :=
    hf _ _ (le_trans hle hlead.comp) hpost _ hlead.valid (le_refl _)
  exact ⟨hlead.trans hlead', hpost'⟩

theorem imp (h : Finds nodes c step post) (himp : ∀ c' a, c ≤ c' → post c' a → post' c' a) :
    Finds nodes c step post' := fun s hs hle =>
  let ⟨hlead, hpost⟩ := h s hs hle
  ⟨hlead, himp _ _ (le_trans hle hlead.comp) hpost⟩

theorem after (h : Finds nodes c step post) (hle : c ≤ c') : Finds nodes c' step post :=
  fun s hs hle' => h s hs (le_trans hle hle')

theorem discard (h : Finds nodes c step post) :
    Finds nodes c (Functor.discard step) fun _ _ => True :=
  h.bind fun _ _ _ _ => .pure fun _ _ => trivial

/-- A step that looks at the state. -/
theorem get {f : BindState → Binder β}
    (h : ∀ s : BindState, s.Valid → c ≤ s.comp → Finds nodes s.comp (f s) postB) :
    Finds nodes c (MonadState.get >>= f) postB :=
  fun s hs hle => h s hs hle s hs (le_refl _)

/-- A step that looks at the symbols. -/
theorem comp {f : Compilation → Binder β}
    (h : ∀ c', c'.Valid → c ≤ c' → Finds nodes c' (f c') postB) :
    Finds nodes c (Binder.comp >>= f) postB :=
  fun s hs hle => h s.comp hs.comp hle s hs (le_refl _)

/-- A step that changes the symbols. -/
theorem change {g : Compilation → α × Compilation}
    (h : ∀ c', c'.Valid → c ≤ c' → (g c').2.Valid ∧ c' ≤ (g c').2 ∧ post (g c').2 (g c').1)
    (hlayered : ∀ c', c'.Layered → c ≤ c' → (g c').2.Layered) :
    Finds nodes c (Binder.change g) post := by
  intro s hs hle
  obtain ⟨hvalid, hgrow, hpost⟩ := h s.comp hs.comp hle
  exact ⟨hs.leads hvalid (hlayered s.comp hs.layered hle) hgrow, hpost⟩

end Finds

/-! ## Primitive steps -/

/-- A step that changes neither the symbols nor what is known about other nodes. -/
theorem finds_modify {g : BindState → BindState} (h : ∀ s : BindState, s.Valid → c ≤ s.comp →
    s.Leads nodes (g s)) : Finds nodes c (modify g) fun _ _ => True :=
  fun s hs hle => ⟨h s hs hle, trivial⟩

theorem finds_add {symbol : Symbol} (h : symbol.Sound c) (hsymbol : ∀ t, symbol ≠ .type t) :
    Finds nodes c (add symbol) fun c' id => c'.symbol? id = some symbol :=
  .change
    (fun c' hc' hle =>
      ⟨hc'.add (h.mono hle), c'.le_add symbol, Compilation.symbol?_add_size symbol⟩)
    fun _ hc' _ => hc'.add fun t ht => absurd ht (hsymbol t)

/-- A type that is in a layer behind all others. -/
theorem finds_addType {t : TypeSymbol} (h : t.Sound c)
    (hlayer : ∀ c', c ≤ c' → c'.Layer c'.symbols.size t) :
    Finds nodes c (add (.type t)) fun c' id => c'.symbol? id = some (.type t) :=
  .change
    (fun c' hc' hle => ⟨hc'.add (h.mono hle), c'.le_add _, Compilation.symbol?_add_size _⟩)
    fun c' hc' hle => hc'.add fun _ ht => Symbol.type.inj ht ▸ hlayer c' hle

/-- The types that are found are types. -/
theorem finds_typeNamed? (name : String) : Finds nodes c (typeNamed? name)
    fun c' found => ∀ t ∈ found, c'.IsType t :=
  .comp fun _ hc' _ => .pure fun _ hle t ht => (hc'.isType_typeNamed? t ht).mono hle

theorem finds_change_arrayOf {element : SymbolId} (helement : c.IsType element) :
    Finds nodes c (change fun c => c.arrayOf element) fun c' made => c'.IsType made :=
  .change (fun _ hc' hle => hc'.arrayOf (helement.mono hle))
    fun _ hc' hle => hc'.arrayOf (helement.mono hle).has

/-- A change of one type that leaves it what it is built from. -/
theorem finds_change_modifyType {id : SymbolId} {f : TypeSymbol → TypeSymbol}
    (hf : ∀ c' t, c ≤ c' → t.Sound c' → (f t).Sound c') (hcore : ∀ t, (f t).core = t.core)
    (hparams : ∀ t, (f t).typeParams = t.typeParams) :
    Finds nodes c (change fun c => ((), c.modifyType id f)) fun _ _ => True :=
  .change
    (fun c' hc' hle => ⟨hc'.modifyType fun t => hf c' t hle, c'.le_modifyType id f, trivial⟩)
    fun _ hc' _ => hc'.modifyType hcore hparams

theorem finds_compWithKnown : Finds nodes c compWithKnown
    fun c' known => known.Valid ∧ c ≤ known ∧ known ≤ c' :=
  .change
    (fun _ hc' hle =>
      have hknown := Compilation.le_withKnown _
      ⟨hc'.withKnown, hknown, hc'.withKnown, le_trans hle hknown, le_refl _⟩)
    fun _ hc' _ => hc'.withKnown

theorem finds_addMember {owner : SymbolId} {symbol : Symbol} (h : symbol.Sound c)
    (hsymbol : ∀ t, symbol ≠ .type t) :
    Finds nodes c (addMember owner symbol) fun c' id => c'.symbol? id = some symbol := by
  refine (finds_add h hsymbol).bind fun c₁ id _ hid => ?_
  have hmember : Finds nodes c₁ (change fun c => ((), c.modifyType owner fun t =>
      { t with members := t.members ++ [id] })) fun _ _ => True := by
    refine finds_change_modifyType (fun c' t hle ht => { ht with members := ?_ }) (fun _ => rfl)
      fun _ => rfl
    exact List.forall_mem_append.2 ⟨ht.members,
      List.forall_mem_singleton.2 ((Compilation.has_of_symbol? hid).mono hle)⟩
  exact hmember.bind fun c₂ _ hle₂ _ => .pure fun c₃ hle₃ =>
    Compilation.symbol?_of_le hid hsymbol (le_trans hle₂ hle₃)

variable {scope : Scope} {node : NodeId} {id : SymbolId}

theorem finds_declare (h : c.Has id) : Finds nodes c (declare scope node id) fun _ _ => True :=
  finds_modify fun _ hs hle =>
    { valid := { hs with facts := { hs.facts with
        declared := List.forall_mem_cons.2 ⟨h.mono hle, hs.facts.declared⟩ } }
      comp := le_refl _
      symbols := fun _ _ => rfl
      constants := fun _ _ => rfl
      fieldConstants := rfl }

theorem finds_recordSymbol (hnode : ⟨scope.file, node⟩ ∈ nodes) (h : c.Has id) :
    Finds nodes c (recordSymbol scope node id) fun _ _ => True :=
  finds_modify fun _ hs hle =>
    { valid := { hs with facts := { hs.facts with
        symbols := List.forall_mem_cons.2 ⟨h.mono hle, hs.facts.symbols⟩ } }
      comp := le_refl _
      symbols := fun n hn => by
        have hne : n ≠ ⟨scope.file, node⟩ := fun heq => hn (heq ▸ hnode)
        simp [Facts.symbol?, Facts.addSymbol, List.lookup_cons, beq_eq_false_iff_ne.2 hne]
      constants := fun _ _ => rfl
      fieldConstants := rfl }

theorem finds_recordType (h : c.IsType id) :
    Finds nodes c (recordType scope node id) fun _ _ => True :=
  finds_modify fun _ hs hle =>
    { valid := { hs with facts := { hs.facts with
        types := List.forall_mem_cons.2 ⟨h.mono hle, hs.facts.types⟩ } }
      comp := le_refl _
      symbols := fun _ _ => rfl
      constants := fun _ _ => rfl
      fieldConstants := rfl }

theorem finds_recordConstant (hnode : ⟨scope.file, node⟩ ∈ nodes) (v : Constant) :
    Finds nodes c (recordConstant scope node v) fun _ _ => True :=
  finds_modify fun _ hs hle =>
    { valid := { hs with facts := { hs.facts with } }
      comp := le_refl _
      symbols := fun _ _ => rfl
      constants := fun n hn => by
        have hne : n ≠ ⟨scope.file, node⟩ := fun heq => hn (heq ▸ hnode)
        simp [Facts.constant?, Facts.addConstant, List.lookup_cons, beq_eq_false_iff_ne.2 hne]
      fieldConstants := rfl }

theorem finds_constant? : Finds nodes c (constant? scope node) fun _ _ => True :=
  .get fun _ _ _ => .pure fun _ _ => trivial

theorem finds_copyConstant {source : NodeId} (hnode : ⟨scope.file, node⟩ ∈ nodes) :
    Finds nodes c (copyConstant scope source node) fun _ _ => True := by
  refine finds_constant?.bind fun c' v _ _ => ?_
  cases v with
  | none => exact .pure fun _ _ => trivial
  | some v => exact finds_recordConstant hnode v

theorem finds_addLocal {name : String} (h : c.Has id) :
    Finds nodes c (addLocal name id) fun _ _ => True :=
  finds_modify fun _ hs hle =>
    { valid := { hs with locals := List.forall_mem_cons.2 ⟨h.mono hle, hs.locals⟩ }
      comp := le_refl _
      symbols := fun _ _ => rfl
      constants := fun _ _ => rfl
      fieldConstants := rfl }

/-- Locals go out of scope. -/
theorem finds_withLocals (h : Finds nodes c step post) : Finds nodes c (withLocals step) post := by
  intro s hs hle
  obtain ⟨hlead, hpost⟩ := h s hs hle
  refine ⟨{ hlead with valid := { hlead.valid with locals := fun e he => ?_ } }, hpost⟩
  exact (hs.locals e he).mono hlead.comp

theorem finds_inFreshScope {locals : List (String × SymbolId)} (hlocals : ∀ e ∈ locals, c.Has e.2)
    (h : Finds nodes c step post) : Finds nodes c (inFreshScope locals step) post := by
  refine finds_withLocals ?_
  have hset : Finds nodes c (modify fun s => { s with locals }) fun _ _ => True :=
    finds_modify fun _ hs hle =>
      { valid := { hs with locals := fun e he => (hlocals e he).mono hle }
        comp := le_refl _
        symbols := fun _ _ => rfl
        constants := fun _ _ => rfl
        fieldConstants := rfl }
  refine hset.bind fun c' _ hle _ => ?_
  exact h.after hle

/-! ## Lists of steps -/

theorem finds_forM {as : List α} {f : α → Binder Unit}
    (h : ∀ a ∈ as, Finds nodes c (f a) fun _ _ => True) :
    Finds nodes c (as.forM f) fun _ _ => True := by
  induction as with
  | nil => exact .pure fun _ _ => trivial
  | cons a as ih =>
    rw [List.forM_eq_forM, List.forM_cons]
    refine (h a (.head _)).bind fun c' _ hle _ => ?_
    exact (ih fun b hb => h b (.tail _ hb)).after hle

theorem finds_mapM {as : List α} {f : α → Binder β} {post : α → Compilation → β → Prop}
    (h : ∀ a ∈ as, Finds nodes c (f a) (post a))
    (mono : ∀ a b c c', c ≤ c' → post a c b → post a c' b) :
    Finds nodes c (as.mapM f) fun c' bs => List.Forall₂ (fun a b => post a c' b) as bs := by
  induction as with
  | nil => exact .pure fun _ _ => .nil
  | cons a as ih =>
    rw [List.mapM_cons]
    refine (h a (.head _)).bind fun c₁ b hle₁ hb => ?_
    refine ((ih fun b hb => h b (.tail _ hb)).after hle₁).bind fun c₂ bs hle₂ hbs => ?_
    exact .pure fun c₃ hle₃ => .cons (mono _ _ _ _ (le_trans hle₂ hle₃) hb)
      (hbs.imp fun _ _ => mono _ _ _ _ hle₃)

end Binder

end PropertyLint
