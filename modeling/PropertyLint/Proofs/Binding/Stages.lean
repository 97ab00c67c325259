/-
# Constant fields are evaluated one after the other

After the members have been declared, binding goes through stages: one for each constant field, in
which its initial value is bound, and a last one for everything else (`Project.stage`).  Each stage
marks the names that are bound in it with the values of the fields that have been evaluated before
it, and every expression is bound in one stage only, so a name has the constant that its field had
at its own stage (`Project.IsBound.name_constant?`).
-/
import PropertyLint.Proofs.Binding.Constants
import PropertyLint.Proofs.Binding.MarkedBodies

namespace PropertyLint

open Binder

variable {p : Project} {f g : ConstField} {n : NodeRef} {id : SymbolId} {v : Constant}
  {i j k : Nat}

/-- The identities of the nodes in the initial value of a constant field. -/
def ConstField.refs (f : ConstField) : List NodeRef := f.scope.refs f.init.nodes

/-! ## What is bound last -/

theorem bindBodies_finds {sources : List Source} {c : Compilation}
    (hle : (membersDeclared sources).2.comp ≤ c) :
    Finds {n | n ∈ bodyRefs sources} c (bindBodies sources) fun _ _ => True := by
  obtain ⟨-, htypes⟩ := typesDeclared_leads sources
  obtain ⟨hmembers, -⟩ := membersDeclared_leads Set.univ sources fun d _ => d.coveredIn_univ
  refine Finds.bind (finds_forM fun s hs => ?_) fun c₁ _ hle₁ _ => finds_forM fun d hd => ?_
  · refine bindAssembly_finds s fun x hx => List.mem_append_left _ ?_
    exact List.mem_flatMap.2 ⟨s, hs, List.mem_map_of_mem hx⟩
  · have htype := htypes.symbol d (List.mem_filter.1 hd).1
    refine bindTypeBody_finds (htype.mono (le_trans hmembers.comp (le_trans hle hle₁)))
      fun x hx => List.mem_append_right _ ?_
    exact List.mem_flatMap.2 ⟨d, hd, List.mem_map_of_mem hx⟩

theorem bindBodies_marks (hp : p.IsRead) {c : Compilation}
    (hle : (membersDeclared p.sources).2.comp ≤ c) : Marks p c (bindBodies p.sources) := by
  obtain ⟨-, htypes⟩ := typesDeclared_leads p.sources
  obtain ⟨hmembers, -⟩ := membersDeclared_leads Set.univ p.sources fun d _ => d.coveredIn_univ
  have hassembly {c : Compilation} (s : Source) :
      Finds Set.univ c (bindAssembly s) fun _ _ => True :=
    bindAssembly_finds s Scope.covers_univ
  have htype {c : Compilation} (hle : (membersDeclared p.sources).2.comp ≤ c) {d : DeclaredType}
      (hd : d ∈ (typesDeclared p.sources).1.filter fun d => d.source.file.isSome) :
      c.IsType d.symbol :=
    (htypes.symbol d (List.mem_filter.1 hd).1).mono (le_trans hmembers.comp hle)
  refine Marks.bind (finds_forM fun s _ => hassembly s) (.forM (fun s _ => hassembly s)
    fun s hs => ?_) fun c₁ _ hle₁ _ => .forM (fun d hd => ?_) fun d hd => ?_
  · obtain ⟨hs, hfile⟩ := List.mem_filter.1 hs
    have hwithin : s.scope.Within p s.recordedNodes := Project.within_recordedNodes hs hfile rfl
    exact bindAssembly_marks hp hwithin.right.left
  · exact bindTypeBody_finds (htype (le_trans hle hle₁) hd) Scope.covers_univ
  · have hd' := htype (le_trans hle hle₁) hd
    obtain ⟨hd, hfile⟩ := List.mem_filter.1 hd
    obtain ⟨hs, hmem⟩ := exists_typesDeclared_iff.1 ⟨d, hd, rfl, rfl⟩
    have hwithin : d.scope.Within p d.source.recordedNodes :=
      Project.within_recordedNodes hs hfile rfl
    refine bindTypeBody_marks hp hd' (hwithin.right.right.mono fun x hx => ?_)
    exact List.mem_flatMap.2 ⟨d.decl, hmem, hx⟩

/-! ## From state to state -/

theorem forM_nil_run {α : Type} (step : α → Binder Unit) (s : BindState) :
    ((([] : List α).forM step).run s).2 = s := rfl

theorem forM_append_singleton_run {α : Type} (as : List α) (a : α) (step : α → Binder Unit)
    (s : BindState) :
    (((as ++ [a]).forM step).run s).2 = ((step a).run ((as.forM step).run s).2).2 := by
  rw [List.forM_eq_forM, List.forM_append]
  rfl

/-- A step that may record symbols of some nodes records none of other expressions. -/
theorem Binder.Records.mem_symbols {α : Type} {given : Prop} {ms : List NodeRef} {step : Binder α}
    {left : α → List NodeRef} (h : Records p given ms step left) (hn : p.IsExpr n) (hnot : n ∉ ms)
    {s : BindState} (hid : (n, id) ∈ (step.run s).2.facts.symbols) :
    (n, id) ∈ s.facts.symbols := by
  obtain ⟨new, hnew, hmost, -, -⟩ := h s
  rw [hnew] at hid
  rcases List.mem_append.1 hid with hid | hid
  · have hmem : n ∈ new.map Prod.fst := List.mem_map_of_mem hid
    have hpos := List.count_pos_iff.2 (List.mem_append_right (left (step.run s).1) hmem)
    have hcount := hmost n hn
    rw [List.count_eq_zero.2 hnot] at hcount
    omega
  · exact hid

namespace BindState

variable {s s' s'' : BindState}

/-- Nothing has been said about the node from one state to the other. -/
def Untouched (n : NodeRef) (s s' : BindState) : Prop :=
  s'.facts.constant? n = s.facts.constant? n ∧
    ∀ id, (n, id) ∈ s'.facts.symbols → (n, id) ∈ s.facts.symbols

theorem Untouched.refl (n : NodeRef) (s : BindState) : s.Untouched n s := ⟨rfl, fun _ h => h⟩

theorem Untouched.trans (h : Untouched n s s') (h' : Untouched n s' s'') : Untouched n s s'' :=
  ⟨h'.1.trans h.1, fun id hid => h.2 id (h'.2 id hid)⟩

/-- Symbols have been added, and the registered types are the same. -/
structure Precedes (s s' : BindState) : Prop where
  comp : s.comp ≤ s'.comp
  registry : s'.comp.registry = s.comp.registry
  symbols : s.facts.symbols ⊆ s'.facts.symbols

theorem Precedes.refl (s : BindState) : s.Precedes s := ⟨le_refl _, rfl, List.Subset.refl _⟩

theorem Precedes.trans (h : s.Precedes s') (h' : s'.Precedes s'') : s.Precedes s'' where
  comp := le_trans h.comp h'.comp
  registry := h'.registry.trans h.registry
  symbols := List.Subset.trans h.symbols h'.symbols

end BindState

namespace Project

open BindState

/-! ## Stages -/

-- irreducible, as every project starts with the framework, which unification would bind

/-- The constant fields in the order in which they are evaluated. -/
@[irreducible] def constFields (p : Project) : List ConstField := (membersDeclared p.sources).1

/-- The state of binding when the first constant fields have been evaluated. -/
@[irreducible] def evaluated (p : Project) (k : Nat) : BindState :=
  (((p.constFields.take k).forM bindConstField).run (membersDeclared p.sources).2).2

/-- The identities of the nodes that are bound next: those of the initial value of the next field,
or all that are left. -/
def refsAt (p : Project) (k : Nat) : List NodeRef :=
  match p.constFields[k]? with
  | some f => f.refs
  | none => bodyRefs p.sources

/-- The state when these nodes have been bound. -/
@[irreducible] def stage (p : Project) (k : Nat) : BindState :=
  match p.constFields[k]? with
  | some f => f.bound (p.evaluated k)
  | none => ((bindBodies p.sources).run (p.evaluated k)).2

theorem mem_constFields : f ∈ p.constFields ↔ f ∈ (membersDeclared p.sources).1 := by
  rw [constFields]

theorem refsAt_eq (hf : p.constFields[k]? = some f) : p.refsAt k = f.refs := by
  simp only [refsAt, hf]

theorem refsAt_length : p.refsAt p.constFields.length = bodyRefs p.sources := by
  simp only [refsAt, List.getElem?_length]

theorem stage_eq (hf : p.constFields[k]? = some f) : p.stage k = f.bound (p.evaluated k) := by
  simp only [stage, hf]

theorem evaluated_zero : p.evaluated 0 = (membersDeclared p.sources).2 := by
  rw [evaluated, List.take_zero, forM_nil_run]

theorem evaluated_length : p.evaluated p.constFields.length = constantsBound p.sources := by
  rw [evaluated, List.take_length, constFields, constantsBound]

theorem evaluated_succ (hf : p.constFields[k]? = some f) :
    p.evaluated (k + 1) = ((bindConstField f).run (p.evaluated k)).2 := by
  obtain ⟨hk, rfl⟩ := List.getElem?_eq_some_iff.1 hf
  rw [evaluated, List.take_succ_eq_append_getElem hk, forM_append_singleton_run, evaluated]

theorem evaluated_succ_of_le (h : p.constFields.length ≤ k) :
    p.evaluated (k + 1) = p.evaluated k := by
  rw [evaluated, evaluated, List.take_of_length_le h,
    List.take_of_length_le (Nat.le_succ_of_le h)]

theorem evaluated_of_le (h : p.constFields.length ≤ k) :
    p.evaluated k = constantsBound p.sources := by
  rw [← evaluated_length, evaluated, evaluated, List.take_of_length_le h,
    List.take_of_length_le (Nat.le_refl _)]

/-- After a stage, a field has been evaluated if its initial value has got a constant. -/
theorem evaluated_succ_eq (hf : p.constFields[k]? = some f) : p.evaluated (k + 1) =
    { p.stage k with fieldConstants :=
        (((p.stage k).facts.constant? ⟨f.scope.file, f.init.id⟩).map (Prod.mk f.symbol)).toList ++
          (p.stage k).fieldConstants } := by
  rw [evaluated_succ hf, bindConstField_run, stage_eq hf]

theorem IsBound.comp_eq_stage (hp : p.IsBound) (h : p.constFields.length ≤ k) :
    p.comp = (p.stage k).comp.withKnown := by
  simp only [stage, List.getElem?_eq_none h, evaluated_of_le h]
  rw [bindBodies_run, hp.comp]

theorem IsBound.facts_eq_stage (hp : p.IsBound) (h : p.constFields.length ≤ k) :
    p.facts = (p.stage k).facts := by
  simp only [stage, List.getElem?_eq_none h, evaluated_of_le h]
  rw [bindBodies_run, hp.facts]

/-! ## What the stages lead to -/

theorem constField_sound (hf : f ∈ p.constFields) : f.Sound (membersDeclared p.sources).2.comp :=
  membersDeclared_sound p.sources f (mem_constFields.1 hf)

theorem evaluated_valid (p : Project) (k : Nat) : (p.evaluated k).Valid ∧
    (membersDeclared p.sources).2.comp ≤ (p.evaluated k).comp := by
  obtain ⟨hlead, -⟩ := membersDeclared_leads Set.univ p.sources fun d _ => d.coveredIn_univ
  rw [evaluated]
  exact forM_bindConstField_valid hlead.valid fun f hf => constField_sound (List.mem_of_mem_take hf)

/-- A stage says something only about the nodes that are bound in it. -/
theorem stage_leads (p : Project) (k : Nat) :
    (p.evaluated k).Leads {n | n ∈ p.refsAt k} (p.stage k) := by
  obtain ⟨hvalid, hle⟩ := p.evaluated_valid k
  cases hf : p.constFields[k]? with
  | some f =>
    rw [stage_eq hf, refsAt_eq hf]
    have hcovers : f.scope.Covers {n | n ∈ f.refs} f.init.nodes :=
      fun x hx => List.mem_map.2 ⟨x, hx, rfl⟩
    exact ConstField.bound_leads hvalid ((constField_sound (List.mem_of_getElem? hf)).mono hle)
      hcovers
  | none =>
    simp only [stage, refsAt, hf]
    exact (bindBodies_finds hle _ hvalid (le_refl _)).1

/-- The declarations of a source have not the nodes of parameters. -/
theorem IsRead.not_mem_paramRefs (hp : p.IsRead) {s : Source} (hs : s ∈ p.sources) {t : TypeDecl}
    (ht : t ∈ s.root.allTypes) {m : Member} (hm : m ∈ Member.type t :: t.ownMembers) :
    ⟨s.file, m.id⟩ ∉ p.paramRefs := by
  rintro ⟨tree, htree, hfile, q, hq, hid⟩
  rcases mem_sources hs with rfl | ⟨tree', htree', rfl⟩
  · cases hfile
  · obtain rfl := hp.tree_unique htree' htree (Option.some.inj hfile)
    obtain ⟨text, htext⟩ := hp.parse _ htree
    have hmem : .member m ∈ tree'.root.nodes :=
      (SyntaxTree.member_mem_nodes_iff htext).2 (List.mem_flatMap.2 ⟨t, ht, hm⟩)
    cases SyntaxTree.eq_of_id_eq htext hq hmem hid

/-- Nodes of parameters have declared parameters when the members have been declared. -/
theorem IsRead.membersDeclared_introduces (hp : p.IsRead) :
    BindState.Introduces p.paramRefs {} (membersDeclared p.sources).2 := by
  have htypes : BindState.Introduces p.paramRefs {} (typesDeclared p.sources).2 :=
    declareTypes_introduces (fun s hs t ht => hp.not_mem_paramRefs hs ht (.head _)) {}
  have hmembers : (typesDeclared p.sources).2.Introduces p.paramRefs
      (membersDeclared p.sources).2 := by
    refine declareAll_introduces (fun d hd m hm => ?_) _
    obtain ⟨hs, hmem⟩ := exists_typesDeclared_iff.1 ⟨d, hd, rfl, rfl⟩
    exact hp.not_mem_paramRefs hs hmem (.tail _ hm)
  exact htypes.trans hmembers

/-- When the members have been declared, parameters are apart from fields. -/
theorem IsRead.membersDeclared_apart (hp : p.IsRead) :
    (membersDeclared p.sources).2.Apart p := by
  have hall := hp.membersDeclared_introduces
  refine
    { fields := ?_
      locals := ?_
      params := fun r hr hn => ?_ }
  · rw [hp.membersDeclared_leads.fieldConstants]
    exact List.forall_mem_nil _
  · rw [hall.locals]
    exact List.forall_mem_nil _
  · rcases hall.declared r hr hn with hold | hparam
    · exact absurd hold List.not_mem_nil
    · exact hparam.isNoField

theorem IsBound.stage_marked_of_apart (hp : p.IsBound) (hapart : (p.evaluated k).Apart p) :
    (p.evaluated k).Marked p (p.stage k) := by
  obtain ⟨hvalid, hle⟩ := p.evaluated_valid k
  cases hf : p.constFields[k]? with
  | some f =>
    have hmem := List.mem_of_getElem? hf
    have hscope := ((constField_sound hmem).mono hle).scope
    have hexpr : Marks p (p.evaluated k).comp (bindExpr f.scope f.init) := by
      obtain ⟨-, hwithin | ⟨hfile, hliteral⟩⟩ := hp.constField_cases (mem_constFields.1 hmem)
      · exact bindExpr_marks hp.toIsRead hscope f.init hwithin
      · -- the framework is no file
        have hnode : ¬ p.IsName ⟨f.scope.file, Framework.nowhere.id⟩ := by
          rintro ⟨e, ⟨t, -, hsome, -⟩, -⟩
          rw [hfile] at hsome
          cases hsome
        rw [hliteral, bindExpr]
        exact recordStep_marks (bindLiteral_finds (Set.mem_univ _) _) (bindLiteral_marks hnode _)
    have hfinds := bindExpr_finds hscope f.init Scope.covers_univ
    rw [stage_eq hf]
    exact Marks.inFreshScope (List.forall_mem_nil _) hfinds.discard (hexpr.discard hfinds)
      _ hvalid (le_refl _) hapart
  | none =>
    simp only [stage, hf]
    exact bindBodies_marks hp.toIsRead hle _ hvalid (le_refl _) hapart

/-- When more fields have been evaluated, all that are evaluated are fields still. -/
theorem IsBound.evaluated_apart (hp : p.IsBound) (k : Nat) : (p.evaluated k).Apart p := by
  induction k with
  | zero =>
    rw [evaluated_zero]
    exact hp.membersDeclared_apart
  | succ k ih =>
    cases hf : p.constFields[k]? with
    | none =>
      rw [evaluated_succ_of_le (List.getElem?_eq_none_iff.1 hf)]
      exact ih
    | some f =>
      have hmarked := (hp.stage_marked_of_apart ih).apart
      have hmem := mem_constFields.1 (List.mem_of_getElem? hf)
      obtain ⟨d, -, decl, -, hfor⟩ := exists_of_mem_constFields hmem
      obtain ⟨symbol, hsymbol, -⟩ := hfor.symbol
      have hsymbol : (membersDeclared p.sources).2.comp.IsField f.symbol := ⟨symbol, hsymbol⟩
      have hfield : (p.stage k).comp.IsField f.symbol :=
        hsymbol.mono (le_trans (p.evaluated_valid k).2 (p.stage_leads k).comp)
      have hnew : ∀ r ∈ (((p.stage k).facts.constant? ⟨f.scope.file, f.init.id⟩).map
          (Prod.mk f.symbol)).toList, (p.stage k).comp.IsField r.1 := by
        intro r hr
        obtain ⟨v, -, rfl⟩ := Option.map_eq_some_iff.1 (Option.mem_toList.1 hr)
        exact hfield
      rw [evaluated_succ_eq hf]
      exact hmarked.evaluate hnew

theorem IsBound.stage_marked (hp : p.IsBound) (k : Nat) : (p.evaluated k).Marked p (p.stage k) :=
  hp.stage_marked_of_apart (hp.evaluated_apart k)

/-! ## One stage after the other -/

/-- A stage follows on what has been evaluated. -/
theorem IsBound.precedes_stage (hp : p.IsBound) (k : Nat) :
    (p.evaluated k).Precedes (p.stage k) where
  comp := (p.stage_leads k).comp
  registry := (hp.stage_marked k).registry
  symbols := (hp.stage_marked k).symbols

/-- After the stage of a field, the next one follows. -/
theorem stage_precedes_succ (hk : k < p.constFields.length) :
    (p.stage k).Precedes (p.evaluated (k + 1)) := by
  rw [evaluated_succ_eq (List.getElem?_eq_getElem hk)]
  exact ⟨le_refl _, rfl, List.Subset.refl _⟩

theorem IsBound.evaluated_precedes (hp : p.IsBound) (hjk : j ≤ k) :
    (p.evaluated j).Precedes (p.evaluated k) := by
  induction k, hjk using Nat.le_induction with
  | base => exact .refl _
  | succ k _ ih =>
    by_cases hk : k < p.constFields.length
    · exact (ih.trans (hp.precedes_stage k)).trans (stage_precedes_succ hk)
    · rwa [evaluated_succ_of_le (Nat.le_of_not_lt hk)]

theorem IsBound.stage_precedes (hp : p.IsBound) (hk : k ≤ p.constFields.length) :
    (p.stage k).Precedes (p.stage p.constFields.length) := by
  rcases Nat.lt_or_eq_of_le hk with hk | hk
  · exact ((stage_precedes_succ hk).trans (hp.evaluated_precedes hk)).trans (hp.precedes_stage _)
  · rw [hk]
    exact .refl _

/-- The project has what the last stage leaves. -/
theorem IsBound.stage_le (hp : p.IsBound) (hk : k ≤ p.constFields.length) :
    (p.stage k).comp ≤ p.comp := by
  rw [hp.comp_eq_stage (Nat.le_refl _)]
  exact le_trans (hp.stage_precedes hk).comp (Compilation.le_withKnown _)

theorem IsBound.evaluated_registry (hp : p.IsBound) (hk : k ≤ p.constFields.length) :
    (p.evaluated k).comp.registry = p.comp.registry := by
  have hlast := ((hp.precedes_stage k).trans (hp.stage_precedes hk)).registry
  rw [hp.comp_eq_stage (Nat.le_refl _), ← hlast]
  rfl

/-- The symbols that a stage has recorded for expressions are those that the project knows. -/
theorem IsBound.stage_follows (hp : p.IsBound) (hk : k ≤ p.constFields.length) :
    (p.stage k).Follows p := by
  have hfollows := hp.follows
  rw [bindContents_run] at hfollows
  intro r hr
  refine hfollows r ?_
  rw [← hp.facts, hp.facts_eq_stage (Nat.le_refl _)]
  exact (hp.stage_precedes hk).symbols hr

/-- The facts after the stage of a field are those that the next stage starts with. -/
theorem facts_evaluated_succ (hk : k < p.constFields.length) :
    (p.evaluated (k + 1)).facts = (p.stage k).facts := by
  rw [evaluated_succ_eq (List.getElem?_eq_getElem hk)]

theorem IsBound.stage_untouched (hp : p.IsBound) (hn : p.IsExpr n) (hnot : n ∉ p.refsAt k) :
    Untouched n (p.evaluated k) (p.stage k) := by
  refine ⟨(p.stage_leads k).constants n hnot, fun id hid => ?_⟩
  cases hf : p.constFields[k]? with
  | some f =>
    have hrecords := hp.constField_records (mem_constFields.1 (List.mem_of_getElem? hf))
    rw [refsAt_eq hf] at hnot
    rw [← facts_evaluated_succ (List.getElem?_eq_some_iff.1 hf).1, evaluated_succ hf] at hid
    exact hrecords.mem_symbols hn hnot hid
  | none =>
    simp only [stage, refsAt, hf] at hid hnot
    exact hp.bindBodies_records.mem_symbols hn hnot hid

theorem IsBound.evaluated_untouched (hp : p.IsBound) (hn : p.IsExpr n) (hjk : j ≤ k)
    (hnot : ∀ i, j ≤ i → i < k → n ∉ p.refsAt i) :
    Untouched n (p.evaluated j) (p.evaluated k) := by
  induction k, hjk using Nat.le_induction with
  | base => exact .refl _ _
  | succ k hjk ih =>
    have ih := ih fun i hji hik => hnot i hji (Nat.lt_succ_of_lt hik)
    by_cases hk : k < p.constFields.length
    · have hstage := hp.stage_untouched hn (hnot k hjk (Nat.lt_succ_self k))
      refine ih.trans ?_
      unfold Untouched
      rw [facts_evaluated_succ hk]
      exact hstage
    · rwa [evaluated_succ_of_le (Nat.le_of_not_lt hk)]

/-! ## Every expression has one stage -/

theorem eq_of_count_flatMap_le {α β : Type} [BEq β] [LawfulBEq β] {f : α → List β} {as : List α}
    {b : β} (hcount : (as.flatMap f).count b ≤ 1) {a a' : α} (ha : as[i]? = some a)
    (ha' : as[j]? = some a') (hb : b ∈ f a) (hb' : b ∈ f a') : i = j := by
  induction as generalizing i j with
  | nil => cases ha
  | cons x as ih =>
    rw [List.flatMap_cons, List.count_append] at hcount
    -- an element further behind is one more
    have hrest {c : α} {m : Nat} (hc : as[m]? = some c) (hbc : b ∈ f c) :
        0 < (as.flatMap f).count b :=
      List.count_pos_iff.2 (List.mem_flatMap.2 ⟨c, List.mem_of_getElem? hc, hbc⟩)
    have hfirst (hbx : b ∈ f x) : 0 < (f x).count b := List.count_pos_iff.2 hbx
    cases i with
    | zero =>
      obtain rfl : x = a := Option.some.inj ha
      cases j with
      | zero => rfl
      | succ j =>
        have := hfirst hb
        have := hrest ha' hb'
        omega
    | succ i =>
      cases j with
      | zero =>
        obtain rfl : x = a' := Option.some.inj ha'
        have := hfirst hb'
        have := hrest ha hb
        omega
      | succ j => rw [ih (by omega) ha ha']

theorem IsBound.stage_unique (hp : p.IsBound) (hn : p.IsExpr n) (hi : i ≤ p.constFields.length)
    (hj : j ≤ p.constFields.length) (hni : n ∈ p.refsAt i) (hnj : n ∈ p.refsAt j) : i = j := by
  have hcount : ((p.constFields.flatMap ConstField.refs).count n) +
      (bodyRefs p.sources).count n ≤ 1 := by
    rw [← List.count_append, constFields]
    exact hp.count_boundRefs_le hn.isSome_file
  have hfield {k : Nat} (hk : k < p.constFields.length) (hnk : n ∈ p.refsAt k) :
      0 < (p.constFields.flatMap ConstField.refs).count n := by
    rw [refsAt_eq (List.getElem?_eq_getElem hk)] at hnk
    exact List.count_pos_iff.2 (List.mem_flatMap.2 ⟨_, List.getElem_mem hk, hnk⟩)
  have hbody {k : Nat} (hk : k = p.constFields.length) (hnk : n ∈ p.refsAt k) :
      0 < (bodyRefs p.sources).count n := by
    rw [hk, refsAt_length] at hnk
    exact List.count_pos_iff.2 hnk
  rcases Nat.lt_or_eq_of_le hi with hi | hi <;> rcases Nat.lt_or_eq_of_le hj with hj | hj
  · rw [refsAt_eq (List.getElem?_eq_getElem hi)] at hni
    rw [refsAt_eq (List.getElem?_eq_getElem hj)] at hnj
    exact eq_of_count_flatMap_le (by omega) (List.getElem?_eq_getElem hi)
      (List.getElem?_eq_getElem hj) hni hnj
  · have := hfield hi hni
    have := hbody hj hnj
    omega
  · have := hfield hj hnj
    have := hbody hi hni
    omega
  · rw [hi, hj]

/-- When the members have been declared, nothing is known about an expression. -/
theorem IsRead.unknown_evaluated_zero (hp : p.IsRead) (hn : p.IsExpr n) :
    (p.evaluated 0).facts.constant? n = none ∧ ∀ id, (n, id) ∉ (p.evaluated 0).facts.symbols := by
  rw [evaluated_zero]
  refine ⟨hp.membersDeclared_leads.constants n fun hother => hother hn, fun id hid => ?_⟩
  exact absurd (List.lookup_eq_none_iff.1 (hp.symbol?_membersDeclared hn) _ hid) (by simp)

/-- Nothing is known about an expression before its stage. -/
theorem IsBound.unknown_evaluated (hp : p.IsBound) (hn : p.IsExpr n)
    (hk : k ≤ p.constFields.length) (hmem : n ∈ p.refsAt k) :
    (p.evaluated k).facts.constant? n = none ∧ ∀ id, (n, id) ∉ (p.evaluated k).facts.symbols := by
  have huntouched : Untouched n (p.evaluated 0) (p.evaluated k) := by
    refine hp.evaluated_untouched hn (Nat.zero_le k) fun i _ hik hi => ?_
    exact absurd (hp.stage_unique hn (Nat.le_trans (Nat.le_of_lt hik) hk) hk hi hmem)
      (Nat.ne_of_lt hik)
  obtain ⟨hconstant, hsymbol⟩ := hp.unknown_evaluated_zero hn
  exact ⟨huntouched.1.trans hconstant, fun id hid => hsymbol id (huntouched.2 id hid)⟩

/-- Nothing is known about an expression that no stage binds. -/
theorem IsBound.unknown_of_not_mem (hp : p.IsBound) (hn : p.IsExpr n)
    (hnot : ∀ k ≤ p.constFields.length, n ∉ p.refsAt k) :
    p.facts.constant? n = none ∧ p.facts.symbol? n = none := by
  have huntouched : Untouched n (p.evaluated 0) (p.stage p.constFields.length) :=
    (hp.evaluated_untouched hn (Nat.zero_le _) fun i _ hi => hnot i (Nat.le_of_lt hi)).trans
      (hp.stage_untouched hn (hnot _ (Nat.le_refl _)))
  obtain ⟨hconstant, hsymbol⟩ := hp.unknown_evaluated_zero hn
  rw [hp.facts_eq_stage (Nat.le_refl _)]
  refine ⟨huntouched.1.trans hconstant, ?_⟩
  cases hfound : (p.stage p.constFields.length).facts.symbol? n with
  | none => rfl
  | some id => exact absurd (huntouched.2 id (mem_of_lookup hfound)) (hsymbol id)

theorem IsBound.untouched_after (hp : p.IsBound) (hn : p.IsExpr n)
    (hk : k ≤ p.constFields.length) (hmem : n ∈ p.refsAt k) :
    Untouched n (p.stage k) (p.stage p.constFields.length) := by
  rcases Nat.lt_or_eq_of_le hk with hlt | heq
  · have hnot {i : Nat} (hki : k < i) (hi : i ≤ p.constFields.length) : n ∉ p.refsAt i :=
      fun hni => absurd (hp.stage_unique hn hi hk hni hmem) (Nat.ne_of_gt hki)
    have huntouched := (hp.evaluated_untouched hn hlt fun i hki hi => hnot hki
      (Nat.le_of_lt hi)).trans (hp.stage_untouched hn (hnot hlt (Nat.le_refl _)))
    unfold Untouched at huntouched
    rw [facts_evaluated_succ hlt] at huntouched
    exact huntouched
  · subst heq
    exact Untouched.refl n _

/-- Nothing more is known about an expression after its stage. -/
theorem IsBound.stage_known (hp : p.IsBound) (hn : p.IsExpr n) (hk : k ≤ p.constFields.length)
    (hmem : n ∈ p.refsAt k) : p.facts.constant? n = (p.stage k).facts.constant? n ∧
      ∀ id, p.facts.symbol? n = some id ↔ (n, id) ∈ (p.stage k).facts.symbols := by
  have hlast : p.facts = (p.stage p.constFields.length).facts := hp.facts_eq_stage (Nat.le_refl _)
  have hlater := hp.untouched_after hn hk hmem
  refine ⟨?_, fun id => ⟨fun hid => ?_, fun hid => ?_⟩⟩
  · rw [hlast]
    exact hlater.1
  · rw [hlast] at hid
    exact hlater.2 id (mem_of_lookup hid)
  · exact hp.stage_follows hk _ hid hn

/-- **Names.**  A name has the constant of the field that it is bound to, if the field has been
evaluated before the stage of the name. -/
theorem IsBound.name_constant? (hp : p.IsBound) (hn : p.IsName n) (hk : k ≤ p.constFields.length)
    (hmem : n ∈ p.refsAt k) : p.facts.constant? n =
      (p.facts.symbol? n).bind fun id => (p.evaluated k).fieldConstants.lookup id := by
  have hexpr := hn.isExpr
  obtain ⟨hconstant, hsymbol⟩ := hp.stage_known hexpr hk hmem
  obtain ⟨hunknown, hunbound⟩ := hp.unknown_evaluated hexpr hk hmem
  have hmarked := hp.stage_marked k
  rw [hconstant]
  rcases hmarked.worth n hn with heq | ⟨id, hid, hvalue⟩
  · rw [heq, hunknown]
    cases hbound : p.facts.symbol? n with
    | none => rfl
    | some id =>
      rw [Option.bind_some]
      rcases hmarked.named _ ((hsymbol id).1 hbound) hexpr with hold | hnew
      · exact absurd hold (hunbound id)
      · cases hlookup : (p.evaluated k).fieldConstants.lookup id with
        | none => rfl
        | some v =>
          rw [hunknown] at heq
          exact absurd (List.lookup_eq_none_iff.1 heq _ (hnew v hlookup)) (by simp)
  · rw [(hsymbol id).2 hid, Option.bind_some, hvalue]

end Project

end PropertyLint
