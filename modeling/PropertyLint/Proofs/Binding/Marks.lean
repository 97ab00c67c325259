/-
# What names are marked with

A name that is bound to a constant field is marked with the value of the field if the field has been
evaluated, and a name gets a constant in no other way (`BindState.Marked`).  It takes that locals
and parameters are no fields (`BindState.Apart`).  `Marks` says it of a step; what is needed about
the results of steps is what the steps find.
-/
import PropertyLint.Proofs.Binding.Params
import PropertyLint.Proofs.Binding.RecordedBodies

namespace PropertyLint

open Binder

/-! ## Fields and other symbols -/

namespace Compilation

variable {c c' : Compilation} {id : SymbolId}

/-- The number is that of a field. -/
def IsField (c : Compilation) (id : SymbolId) : Prop := ∃ f, c.symbol? id = some (.field f)

/-- The number is that of a symbol that is no field. -/
def IsNoField (c : Compilation) (id : SymbolId) : Prop :=
  ∃ s, c.symbol? id = some s ∧ ∀ f, s ≠ .field f

theorem IsField.mono (h : c.IsField id) (hle : c ≤ c') : c'.IsField id := by
  obtain ⟨f, hf⟩ := h
  exact ⟨f, symbol?_of_le hf (fun _ => Symbol.noConfusion) hle⟩

theorem IsNoField.mono (h : c.IsNoField id) (hle : c ≤ c') : c'.IsNoField id := by
  obtain ⟨s, hs, hne⟩ := h
  rcases hle id s hs with hs' | ⟨-, t, ht⟩
  · exact ⟨s, hs', hne⟩
  · exact ⟨_, ht, fun _ => Symbol.noConfusion⟩

theorem IsNoField.has (h : c.IsNoField id) : c.Has id := has_of_symbol? h.choose_spec.1

theorem IsField.not_isNoField (h : c.IsField id) : ¬ c.IsNoField id := by
  rintro ⟨s, hs, hne⟩
  obtain ⟨f, hf⟩ := h
  exact hne f (Option.some.inj (hs.symm.trans hf))

theorem IsType.isNoField (h : c.IsType id) : c.IsNoField id := by
  obtain ⟨t, ht⟩ := h
  exact ⟨_, ht, fun _ => Symbol.noConfusion⟩

theorem IsParameter.isNoField (h : c.IsParameter id) : c.IsNoField id := by
  obtain ⟨p, hp⟩ := h
  exact ⟨_, hp, fun _ => Symbol.noConfusion⟩

theorem isNoField_of_method? {m : MethodSymbol} (h : c.method? id = some m) : c.IsNoField id := by
  obtain ⟨s, hs, hm⟩ := Option.bind_eq_some_iff.1 h
  refine ⟨s, hs, ?_⟩
  rintro f rfl
  cases hm

/-- A call chooses a method. -/
theorem isNoField_of_pickOverload {candidates : List SymbolId} {args : List PassedArg}
    (h : c.pickOverload candidates args = some id) : c.IsNoField id := by
  obtain ⟨call, hcall, rfl⟩ := Option.map_eq_some_iff.1 h
  rcases mem_of_betterCall hcall with hnone | hmem
  · cases hnone
  · obtain ⟨candidate, -, hscore⟩ := List.mem_filterMap.1 hmem
    obtain ⟨score, hcalled, rfl⟩ := Option.map_eq_some_iff.1 hscore
    obtain ⟨m, hm, -⟩ := Option.bind_eq_some_iff.1 hcalled
    exact isNoField_of_method? hm

end Compilation

/-! ## States -/

namespace Project

/-- The node is an identifier or a name behind a dot. -/
def IsName (p : Project) (n : NodeRef) : Prop :=
  ∃ e, p.Writes n.file e ∧ e.id = n.node ∧ e.isReference = true

/-- The nodes of the parameters in the files. -/
def paramRefs (p : Project) : Set NodeRef :=
  {n | ∃ t ∈ p.trees, n.file = some t.file ∧ ∃ q, .parameter q ∈ t.root.nodes ∧ q.node.id = n.node}

theorem IsName.isExpr {p : Project} {n : NodeRef} (h : p.IsName n) : p.IsExpr n := by
  obtain ⟨e, hwrites, hid, -⟩ := h
  exact ⟨e, hwrites, hid⟩

end Project

/-- Fields are what has been evaluated, but neither what locals nor what parameters stand for. -/
structure BindState.Apart (p : Project) (s : BindState) : Prop where
  fields : ∀ r ∈ s.fieldConstants, s.comp.IsField r.1
  locals : ∀ r ∈ s.locals, s.comp.IsNoField r.2
  params : ∀ r ∈ s.facts.declared, r.1 ∈ p.paramRefs → s.comp.IsNoField r.2

/-- Names that have got a symbol have the constant of the field that it is, and no name has got
another constant. -/
structure BindState.Marked (p : Project) (s s' : BindState) : Prop where
  apart : s'.Apart p
  registry : s'.comp.registry = s.comp.registry
  fieldConstants : s'.fieldConstants = s.fieldConstants
  symbols : s.facts.symbols ⊆ s'.facts.symbols
  constants : s.facts.constants ⊆ s'.facts.constants
  named : ∀ r ∈ s'.facts.symbols, p.IsExpr r.1 → r ∈ s.facts.symbols ∨
    ∀ v, s.fieldConstants.lookup r.2 = some v → (r.1, v) ∈ s'.facts.constants
  worth : ∀ n, p.IsName n → s'.facts.constant? n = s.facts.constant? n ∨
    ∃ id, (n, id) ∈ s'.facts.symbols ∧ s.fieldConstants.lookup id = s'.facts.constant? n

variable {p : Project} {c c' : Compilation} {s s' s'' : BindState} {scope : Scope} {node : NodeId}
  {id : SymbolId} {v : Constant} {ns : List SyntaxNode} {e : Expr} {α β : Type}

namespace BindState

/-- What is no field has not been evaluated. -/
theorem Apart.lookup_eq_none (h : s.Apart p) (hid : s.comp.IsNoField id) :
    s.fieldConstants.lookup id = none := by
  cases hlookup : s.fieldConstants.lookup id with
  | none => rfl
  | some v => exact absurd hid (h.fields _ (mem_of_lookup hlookup)).not_isNoField

/-- Nothing that is apart becomes a field. -/
theorem Apart.of_le (h : s.Apart p) (hle : s.comp ≤ s'.comp)
    (hfields : s'.fieldConstants = s.fieldConstants) (hlocals : s'.locals = s.locals)
    (hdeclared : s'.facts.declared = s.facts.declared) : s'.Apart p where
  fields r hr := (h.fields r (hfields ▸ hr)).mono hle
  locals r hr := (h.locals r (hlocals ▸ hr)).mono hle
  params r hr hn := (h.params r (hdeclared ▸ hr) hn).mono hle

/-- More fields have been evaluated. -/
theorem Apart.evaluate (h : s.Apart p) {new : List (SymbolId × Constant)}
    (hnew : ∀ r ∈ new, s.comp.IsField r.1) :
    Apart p { s with fieldConstants := new ++ s.fieldConstants } :=
  { h with fields := List.forall_mem_append.2 ⟨hnew, h.fields⟩ }

namespace Marked

theorem refl (h : s.Apart p) : s.Marked p s where
  apart := h
  registry := rfl
  fieldConstants := rfl
  symbols := List.Subset.refl _
  constants := List.Subset.refl _
  named _ hr _ := .inl hr
  worth _ _ := .inl rfl

theorem trans (h : s.Marked p s') (h' : s'.Marked p s'') : s.Marked p s'' where
  apart := h'.apart
  registry := h'.registry.trans h.registry
  fieldConstants := h'.fieldConstants.trans h.fieldConstants
  symbols := List.Subset.trans h.symbols h'.symbols
  constants := List.Subset.trans h.constants h'.constants
  named r hr hn := by
    rcases h'.named r hr hn with hr | hvalue
    · exact (h.named r hr hn).imp_right fun hvalue v hv => h'.constants (hvalue v hv)
    · rw [h.fieldConstants] at hvalue
      exact .inr hvalue
  worth n hn := by
    rcases h'.worth n hn with heq' | ⟨id, hid, hvalue⟩
    · rcases h.worth n hn with heq | ⟨id, hid, hvalue⟩
      · exact .inl (heq'.trans heq)
      · exact .inr ⟨id, h'.symbols hid, by rw [hvalue, heq']⟩
    · rw [h.fieldConstants] at hvalue
      exact .inr ⟨id, hid, hvalue⟩

end Marked

end BindState

/-! ## Rules -/

namespace Binder

/-- From a valid state with at least the symbols of `c`, the step marks names as it should. -/
def Marks (p : Project) (c : Compilation) (step : Binder α) : Prop :=
  ∀ s : BindState, s.Valid → c ≤ s.comp → s.Apart p → s.Marked p (step.run s).2

variable {step : Binder α} {post : Compilation → α → Prop} {f : α → Binder β}

namespace Marks

theorem pure (a : α) : Marks p c (pure a) := fun _ _ _ h => .refl h

theorem bind (hfinds : Finds Set.univ c step post) (h : Marks p c step)
    (hf : ∀ c' a, c ≤ c' → post c' a → Marks p c' (f a)) : Marks p c (step >>= f) := by
  intro s hs hle hapart
  obtain ⟨hlead, hpost⟩ := hfinds s hs hle
  have hmarked := h s hs hle hapart
  exact hmarked.trans
    (hf _ _ (le_trans hle hlead.comp) hpost _ hlead.valid (le_refl _) hmarked.apart)

theorem after (h : Marks p c step) (hle : c ≤ c') : Marks p c' step :=
  fun s hs hle' => h s hs (le_trans hle hle')

/-- A step that looks at the state. -/
theorem get {f : BindState → Binder β}
    (h : ∀ s : BindState, s.Valid → c ≤ s.comp → s.Apart p → Marks p s.comp (f s)) :
    Marks p c (MonadState.get >>= f) :=
  fun s hs hle hapart => h s hs hle hapart s hs (le_refl _) hapart

/-- A step that looks at the symbols. -/
theorem comp {f : Compilation → Binder β}
    (h : ∀ c', c'.Valid → c ≤ c' → Marks p c' (f c')) : Marks p c (Binder.comp >>= f) :=
  fun s hs hle => h s.comp hs.comp hle s hs (le_refl _)

/-- A step that looks at the constant of a node. -/
theorem constant? {f : Option Constant → Binder β} (h : ∀ found, Marks p c (f found)) :
    Marks p c (Binder.constant? scope node >>= f) :=
  fun s => h (s.facts.constant? ⟨scope.file, node⟩) s

theorem discard (hfinds : Finds Set.univ c step post) (h : Marks p c step) :
    Marks p c (Functor.discard step) := h.bind hfinds fun _ _ _ _ => .pure _

/-- Locals go out of scope. -/
theorem withLocals (hfinds : Finds Set.univ c step post) (h : Marks p c step) :
    Marks p c (Binder.withLocals step) := by
  intro s hs hle hapart
  have hmarked := h s hs hle hapart
  have hgrow := (hfinds s hs hle).1.comp
  refine { hmarked with apart := { hmarked.apart with locals := fun r hr => ?_ } }
  exact (hapart.locals r hr).mono hgrow

theorem inFreshScope {locals : List (String × SymbolId)}
    (hlocals : ∀ r ∈ locals, c.Has r.2 ∧ c.IsNoField r.2) (hfinds : Finds Set.univ c step post)
    (h : Marks p c step) : Marks p c (Binder.inFreshScope locals step) := by
  intro s hs hle hapart
  let s₁ : BindState := { s with locals }
  have hs₁ : s₁.Valid := { hs with locals := fun r hr => (hlocals r hr).1.mono hle }
  have hapart₁ : s₁.Apart p :=
    { hapart with locals := fun r hr => (hlocals r hr).2.mono hle }
  have hmarked := h s₁ hs₁ hle hapart₁
  have hgrow := (hfinds s₁ hs₁ hle).1.comp
  exact
    { apart := { hmarked.apart with locals := fun r hr => (hapart.locals r hr).mono hgrow }
      registry := hmarked.registry
      fieldConstants := hmarked.fieldConstants
      symbols := hmarked.symbols
      constants := hmarked.constants
      named := hmarked.named
      worth := hmarked.worth }

theorem forM {as : List α} {f : α → Binder Unit}
    (hfinds : ∀ a ∈ as, Finds Set.univ c (f a) fun _ _ => True) (h : ∀ a ∈ as, Marks p c (f a)) :
    Marks p c (as.forM f) := by
  induction as with
  | nil => exact .pure _
  | cons a as ih =>
    rw [List.forM_eq_forM, List.forM_cons]
    refine (h a (.head _)).bind (hfinds a (.head _)) fun c' _ hle _ => Marks.after ?_ hle
    exact ih (fun b hb => hfinds b (.tail _ hb)) fun b hb => h b (.tail _ hb)

end Marks

/-- A step that tells no constant and says nothing about expressions. -/
theorem Calm.marks {left : α → List NodeRef} (h : Calm step)
    (hrecords : Records p True [] step left) : Marks p c step := by
  intro s _ _ hapart
  obtain ⟨new, hnew, hmost, -, -⟩ := hrecords s
  have hcalm := h s
  refine
    { apart := hapart.of_le hcalm.comp.le hcalm.fieldConstants hcalm.locals hcalm.declared
      registry := hcalm.comp.registry
      fieldConstants := hcalm.fieldConstants
      symbols := by
        rw [hnew]
        exact List.subset_append_right _ _
      constants := by rw [hcalm.constants]; exact List.Subset.refl _
      named := fun r hr hn => ?_
      worth := fun n _ => .inl (by rw [Facts.constant?, hcalm.constants, Facts.constant?]) }
  rw [hnew] at hr
  rcases List.mem_append.1 hr with hr | hr
  · have hmem : r.1 ∈ left (step.run s).1 ++ new.map Prod.fst :=
      List.mem_append_right _ (List.mem_map_of_mem hr)
    have hcount := List.count_pos_iff.2 hmem
    have hnone := hmost r.1 hn
    rw [List.count_nil] at hnone
    omega
  · exact .inl hr

theorem Calm.marks_of_quiet (h : Calm step) (hquiet : Quiet step) : Marks p c step :=
  have hrecords : Records p True [] step fun _ => [] := hquiet.records
  h.marks hrecords

/-! ## Primitive steps -/

theorem typeNamed?_marks (name : String) : Marks p c (typeNamed? name) :=
  (typeNamed?_calm name).marks_of_quiet (quiet_typeNamed? name)

theorem compWithKnown_marks : Marks p c compWithKnown :=
  compWithKnown_calm.marks_of_quiet (quiet_change _)

theorem add_marks {symbol : Symbol} (h : ∀ c, symbol.Orderly c) : Marks p c (add symbol) :=
  (add_calm h).marks_of_quiet (quiet_change _)

theorem recordType_marks (node : NodeId) (id : SymbolId) : Marks p c (recordType scope node id) :=
  fun _ _ _ hapart =>
    { BindState.Marked.refl hapart with
      apart := hapart.of_le (le_refl _) rfl rfl rfl }

/-- The symbol of a node that is no expression, or one that is no field. -/
theorem recordSymbol_marks (h : c.IsNoField id ∨ ¬ p.IsExpr ⟨scope.file, node⟩) :
    Marks p c (recordSymbol scope node id) := fun _ _ hle hapart =>
  { apart := hapart.of_le (le_refl _) rfl rfl rfl
    registry := rfl
    fieldConstants := rfl
    symbols := List.subset_cons_self _ _
    constants := List.Subset.refl _
    named := fun r hr hn => by
      rcases List.mem_cons.1 hr with rfl | hr
      · rcases h with hid | hnode
        · rw [hapart.lookup_eq_none (hid.mono hle)]
          exact .inr fun _ hv => by cases hv
        · exact absurd hn hnode
      · exact .inl hr
    worth := fun _ _ => .inl rfl }

theorem constant?_addConstant_of_ne {facts : Facts} {n m : NodeRef} (h : n ≠ m) :
    (facts.addConstant m v).constant? n = facts.constant? n := by
  simp [Facts.constant?, Facts.addConstant, List.lookup_cons, beq_eq_false_iff_ne.2 h]

/-- The constant of a node that is no name. -/
theorem recordConstant_marks (h : ¬ p.IsName ⟨scope.file, node⟩) (v : Constant) :
    Marks p c (recordConstant scope node v) := fun _ _ _ hapart =>
  { apart := hapart.of_le (le_refl _) rfl rfl rfl
    registry := rfl
    fieldConstants := rfl
    symbols := List.Subset.refl _
    constants := List.subset_cons_self _ _
    named := fun _ hr _ => .inl hr
    worth := fun _ hn => .inl (constant?_addConstant_of_ne fun heq => h (heq ▸ hn)) }

theorem copyConstant_marks {source : NodeId} (h : ¬ p.IsName ⟨scope.file, node⟩) :
    Marks p c (copyConstant scope source node) :=
  .constant? fun found => by
    cases found with
    | some v => exact recordConstant_marks h v
    | none => exact .pure _

theorem addLocal_marks (h : c.IsNoField id) (name : String) : Marks p c (addLocal name id) :=
  fun _ _ hle hapart =>
    { BindState.Marked.refl hapart with
      apart := { hapart with
        locals := List.forall_mem_cons.2 ⟨h.mono hle, hapart.locals⟩ } }

theorem declare_marks (h : c.IsNoField id) : Marks p c (declare scope node id) :=
  fun _ _ hle hapart =>
    { BindState.Marked.refl hapart with
      apart := { hapart with
        params := List.forall_mem_cons.2 ⟨fun _ => h.mono hle, hapart.params⟩ } }

end Binder

/-! ## Names -/

theorem Scope.covers_univ : scope.Covers Set.univ ns := fun _ _ => trivial

theorem simpleType_marks (name : String) (args : List SymbolId) :
    Marks p c (simpleType scope name args) :=
  (simpleType_calm name args).marks_of_quiet (quiet_simpleType name args)

theorem nestedType_marks (outer : SymbolId) (name : String) (args : List SymbolId) :
    Marks p c (nestedType outer name args) :=
  (nestedType_calm outer name args).marks_of_quiet (quiet_nestedType outer name args)

/-- The state in which a name has got a symbol, and its constant if it is an evaluated field. -/
def BindState.mark (s : BindState) (n : NodeRef) (id : SymbolId) : BindState :=
  let facts := s.facts.addSymbol n id
  { s with
    facts := match s.fieldConstants.lookup id with
      | some v => facts.addConstant n v
      | none => facts }

theorem BindState.Apart.marked_mark (h : s.Apart p) (n : NodeRef) (id : SymbolId) :
    s.Marked p (s.mark n id) := by
  unfold mark
  cases hlookup : s.fieldConstants.lookup id with
  | none =>
    exact
      { apart := h.of_le (le_refl _) rfl rfl rfl
        registry := rfl
        fieldConstants := rfl
        symbols := List.subset_cons_self _ _
        constants := List.Subset.refl _
        named := fun r hr _ => by
          rcases List.mem_cons.1 hr with rfl | hr
          · rw [hlookup]
            exact .inr fun _ hv => by cases hv
          · exact .inl hr
        worth := fun _ _ => .inl rfl }
  | some v =>
    exact
      { apart := h.of_le (le_refl _) rfl rfl rfl
        registry := rfl
        fieldConstants := rfl
        symbols := List.subset_cons_self _ _
        constants := List.subset_cons_self _ _
        named := fun r hr _ => by
          rcases List.mem_cons.1 hr with rfl | hr
          · rw [hlookup]
            exact .inr fun _ hv => by
              obtain rfl := Option.some.inj hv
              exact .head _
          · exact .inl hr
        worth := fun m _ => by
          by_cases heq : m = n
          · subst heq
            exact .inr ⟨id, .head _, hlookup.trans List.lookup_cons_self.symm⟩
          · exact .inl (constant?_addConstant_of_ne heq) }

/-- A name that members were found for is bound to the first one, unless that is a method. -/
theorem memberMeaning_cases (scope : Scope) (node : Node) (members : List SymbolId)
    (s : BindState) : (((memberMeaning scope node members).run s).2 = s ∧
      ((memberMeaning scope node members).run s).1.valueType? = none) ∨
    ∃ first ∈ members, (memberMeaning scope node members).run s =
      (.value (s.comp.valueType? first), s.mark ⟨scope.file, node.id⟩ first) := by
  cases members with
  | nil => exact .inl ⟨rfl, rfl⟩
  | cons first rest =>
    unfold memberMeaning BindState.mark
    simp only [StateT.run_bind, StateT.run_get, pure_bind]
    split
    · exact .inl ⟨rfl, rfl⟩
    · refine .inr ⟨first, .head _, ?_⟩
      cases s.fieldConstants.lookup first <;> rfl

theorem memberMeaning_marks (node : Node) (members : List SymbolId) :
    Marks p c (memberMeaning scope node members) := by
  intro s _ _ hapart
  rcases memberMeaning_cases scope node members s with ⟨heq, -⟩ | ⟨first, -, heq⟩ <;> rw [heq]
  · exact .refl hapart
  · exact hapart.marked_mark _ first

end PropertyLint
