/-
# What calls are bound to

A call or a creation gets the symbol of the method that was chosen for its arguments.  The types of
the arguments that are known in the end are those for which the method was chosen, and the symbols
of that time have only become more (`BindState.Runs.hasChosen`).
-/
import PropertyLint.Proofs.Binding.BoundExprs

namespace PropertyLint

open Binder

/-- What a call passes, as far as it is known. -/
def Facts.passed (f : Facts) (file : Option FileId) (args : List (Argument Expr)) :
    List PassedArg := args.map fun a => ⟨a.paramName?, f.type? ⟨file, a.value.id⟩⟩

/-- When the symbols were those of the first compilation, the method could be called with the
arguments. -/
structure Compilation.HasChosen (c c' : Compilation) (args : List PassedArg) (method : SymbolId) :
    Prop where
  valid : c.Valid
  orderly : c.Orderly
  later : c.Extends c'
  types : ∀ a ∈ args, ∀ t ∈ a.type, c.IsType t
  score : (c.callScore? args method).isSome = true

variable {p : Project} {c c' : Compilation} {scope : Scope} {e : Expr} {s s' t : BindState}
  {method : SymbolId} {args : List (Argument Expr)} {f f' : Facts} {file : Option FileId}
  {refs refs' : List NodeRef} {node : Node}

/-! ## Arguments -/

theorem mem_nodesOfArgs {a : Argument Expr} (ha : a ∈ args) : .expr a.value ∈ nodesOfArgs args := by
  induction args with
  | nil => cases ha
  | cons first rest ih =>
    rcases List.mem_cons.1 ha with rfl | ha
    · exact .tail _ (List.mem_append_left _ a.value.mem_nodes)
    · exact .tail _ (List.mem_append_right _ (ih ha))

theorem Expr.nodesOfArgs_subset {l : ArgumentList Expr} (h : e.argumentList? = some l) :
    nodesOfArgs l.args ⊆ e.nodes := by
  cases e with
  | invoke node callee list =>
    obtain rfl := Option.some.inj h
    exact List.subset_cons_of_subset _ (List.subset_append_right _ _)
  | create node type list =>
    obtain rfl : list = some l := h
    exact List.subset_cons_of_subset _ (List.subset_append_right _ _)
  | _ => cases h

theorem Facts.passed_congr (h : ∀ a ∈ args, f'.type? ⟨file, a.value.id⟩ = f.type? ⟨file, a.value.id⟩) :
    f'.passed file args = f.passed file args :=
  List.map_congr_left fun a ha => by rw [h a ha]

/-- The values of arguments are expressions among the nodes of the arguments. -/
theorem Scope.Within.value (h : scope.Within p (nodesOfArgs args)) {a : Argument Expr}
    (ha : a ∈ args) : p.IsExpr ⟨scope.file, a.value.id⟩ ∧
      ⟨scope.file, a.value.id⟩ ∈ scope.refs (nodesOfArgs args) :=
  ⟨⟨a.value, h.writes (mem_nodesOfArgs ha), rfl⟩, List.mem_map_of_mem (mem_nodesOfArgs ha)⟩

/-- What is passed is what is known of the arguments when they have been bound. -/
theorem bindArgs_passed (hp : p.IsRead) (hscope : scope.Sound c)
    (hwithin : scope.Within p (nodesOfArgs args)) (hready : s.Ready p [] (scope.refs (nodesOfArgs args)))
    (hle : c ≤ s.comp) :
    ((bindArgs scope args).run s).1 =
      ((bindArgs scope args).run s).2.facts.passed scope.file args := by
  induction args generalizing c s with
  | nil => rfl
  | cons a rest ih =>
    obtain ⟨node, name, value⟩ := a
    have hparts : scope.Within p (value.nodes ++ nodesOfArgs rest) := hwithin.tail
    have hexpr : p.IsExpr ⟨scope.file, value.id⟩ :=
      ⟨value, hparts.left.writes value.mem_nodes, rfl⟩
    have hmem : ⟨scope.file, value.id⟩ ∈ scope.refs value.nodes :=
      List.mem_map_of_mem value.mem_nodes
    have hready : s.Ready p [] (scope.refs value.nodes ++ scope.refs (nodesOfArgs rest)) := by
      rw [nodesOfArgs, Scope.refs_cons, Scope.refs_append] at hready
      exact BindState.Ready.right (show s.Ready p [] ([_] ++ _) from hready)
    have hcloses := bindExpr_closes hp hscope value hparts.left
    have hvalue := hcloses.type? hparts.left hready.left hle
    obtain ⟨hlead, -⟩ := bindExpr_finds hscope value Scope.covers_univ s hready.valid hle
    have hready₁ := (hcloses.binds hp hscope hparts.left s hready.left hle).ready hready hlead.valid
    have hrun : (bindArgs scope (⟨node, name, value⟩ :: rest)).run s =
        (⟨Argument.paramName? ⟨node, name, value⟩, ((bindExpr scope value).run s).1.valueType?⟩ ::
          ((bindArgs scope rest).run ((bindExpr scope value).run s).2).1,
          ((bindArgs scope rest).run ((bindExpr scope value).run s).2).2) := by
      rw [bindArgs]
      rfl
    rw [hrun, ← hvalue]
    generalize ((bindExpr scope value).run s).2 = s₁ at hready₁ hlead
    have hscope₁ := (hscope.mono hle).mono hlead.comp
    have hrest := bindArgs_binds hp hscope₁ rest hparts.right s₁ hready₁ (le_refl _)
    have hsame := hrest.types _ (hready.not_mem hexpr hmem) hexpr
    rw [ih hscope₁ hparts.right hready₁ (le_refl _), Facts.passed, Facts.passed, List.map_cons, hsame]

/-! ## Choices -/

/-- Some method was chosen among others for what is known of the arguments. -/
def BindState.Picks (s s' : BindState) (file : Option FileId) (args : List (Argument Expr))
    (method : SymbolId) : Prop :=
  ∃ candidates, s.comp.withKnown.pickOverload candidates (s.facts.passed file args) = some method ∧
    s'.comp = s.comp.withKnown ∧ s'.facts.types = s.facts.types

/-- The type of a value is recorded, and no symbol. -/
theorem recordMeaning_value_symbols (scope : Scope) (node : Node) (found : Option SymbolId)
    (s : BindState) :
    ((recordMeaning scope node (.value found)).run s).2.facts.symbols = s.facts.symbols := by
  cases found <;> rfl

/-- What was known when a method was chosen is known when the call has been bound. -/
theorem BindState.Picks.hasChosen (h : s.Picks s' scope.file args method)
    (hready : s.Ready p [] [⟨scope.file, node.id⟩]) (found : Option SymbolId)
    (hne : ∀ a ∈ args, (⟨scope.file, a.value.id⟩ : NodeRef) ≠ ⟨scope.file, node.id⟩) :
    ∃ c : Compilation, c.HasChosen ((recordMeaning scope node (.value found)).run s').2.comp
      (((recordMeaning scope node (.value found)).run s').2.facts.passed scope.file args) method := by
  obtain ⟨candidates, hpick, hcomp, htypes⟩ := h
  obtain ⟨hlast, -, -, hframe⟩ := recordMeaning_frame scope node (.value found) s'
  have hpassed : ((recordMeaning scope node (.value found)).run s').2.facts.passed scope.file args =
      s.facts.passed scope.file args := Facts.passed_congr fun a ha => by
    rw [(hframe _ (hne a ha)).1, Facts.type?, htypes, Facts.type?]
  rw [hlast, hcomp, hpassed]
  obtain ⟨score, -, -, -, hscore, -, -⟩ := Compilation.callScore?_of_pickOverload hpick
  refine ⟨s.comp.withKnown, hready.valid.comp.withKnown, hready.orderly.withKnown, .refl _,
    fun a ha type htype => ?_, by rw [hscore]; rfl⟩
  obtain ⟨arg, -, rfl⟩ := List.mem_map.1 ha
  exact (hready.valid.facts.types _ (mem_of_lookup htype)).mono s.comp.le_withKnown

/-- The symbol that a call gets is that of the method that was chosen. -/
theorem bindCall_picks {callee : Node} {m : Meaning}
    (hm : ((bindCall scope node callee m (s.facts.passed scope.file args)).run s).2.facts.symbol?
      ⟨scope.file, node.id⟩ = some method)
    (hnone : s.facts.symbol? ⟨scope.file, node.id⟩ = none)
    (hne : (⟨scope.file, callee.id⟩ : NodeRef) ≠ ⟨scope.file, node.id⟩) :
    s.Picks ((bindCall scope node callee m (s.facts.passed scope.file args)).run s).2 scope.file args
      method := by
  cases m with
  | methods candidates =>
    rw [bindCall_run] at hm ⊢
    cases hpick : s.comp.withKnown.pickOverload candidates (s.facts.passed scope.file args) with
    | some chosen =>
      rw [hpick] at hm
      obtain rfl : chosen = method := by
        refine Option.some.inj (Eq.trans ?_ hm)
        exact ((lookup_cons_of_ne hne.symm _ _).trans List.lookup_cons_self).symm
      exact ⟨candidates, hpick, rfl, rfl⟩
    | none =>
      rw [hpick] at hm
      exact absurd (hnone.symm.trans hm) (Option.some_ne_none method).symm
  | _ => exact absurd (hnone.symm.trans hm) (Option.some_ne_none method).symm

/-- The chosen constructor is the symbol of the creation. -/
theorem bindConstructor_run (scope : Scope) (node : NodeId) (type : SymbolId)
    (passed : List PassedArg) (s : BindState) : (bindConstructor scope node type passed).run s =
      (if let some method := s.comp.withKnown.pickOverload
          (s.comp.withKnown.constructorsOf type) passed then recordSymbol scope node method
      else pure () : Binder Unit).run { s with comp := s.comp.withKnown } := rfl

theorem bindConstructor_picks {type : SymbolId}
    (hm : ((bindConstructor scope node.id type (s.facts.passed scope.file args)).run
      s).2.facts.symbol? ⟨scope.file, node.id⟩ = some method)
    (hnone : s.facts.symbol? ⟨scope.file, node.id⟩ = none) :
    s.Picks ((bindConstructor scope node.id type (s.facts.passed scope.file args)).run s).2 scope.file
      args method := by
  rw [bindConstructor_run] at hm ⊢
  cases hpick : s.comp.withKnown.pickOverload (s.comp.withKnown.constructorsOf type)
      (s.facts.passed scope.file args) with
  | some chosen =>
    rw [hpick] at hm
    obtain rfl : chosen = method := Option.some.inj (List.lookup_cons_self.symm.trans hm)
    exact ⟨_, hpick, rfl, rfl⟩
  | none =>
    rw [hpick] at hm
    exact absurd (hnone.symm.trans hm) (Option.some_ne_none method).symm

/-! ## Calls -/

/-- The node of an expression may come behind those of its parts. -/
theorem BindState.Ready.ownLast (h : s.Ready p [] (scope.refs e.nodes))
    (hperm : (scope.refs e.nodes.tail).Perm refs) : s.Ready p [] (refs ++ [⟨scope.file, e.id⟩]) := by
  have hall : (scope.refs e.nodes).Perm (refs ++ [⟨scope.file, e.id⟩]) := by
    rw [Scope.refs_expr]
    exact (hperm.cons _).trans (List.perm_append_singleton _ _).symm
  exact h.perm hall hall.symm.subset

section

variable {range : OffsetRange} {m : Meaning}

/-- Nothing but its first argument is bound of a `nameof`, which gets no symbol. -/
theorem bindNameof_symbol? {callee : Expr}
    (hname : (Expr.invoke node callee ⟨range, args⟩).isNameof = true) (hp : p.IsRead)
    (hscope : scope.Sound s.comp) (hwithin : scope.Within p (nodesOfArgs args))
    (hready : s.Ready p [] (scope.refs (nodesOfArgs args) ++ refs)) {n : NodeRef} (hn : n ∈ refs)
    (hexpr : p.IsExpr n) :
    ((bindExpr scope (.invoke node callee ⟨range, args⟩)).run s).2.facts.symbol? n = none := by
  obtain ⟨hlead, -⟩ := bindFirst_finds hscope args Scope.covers_univ s hready.valid (le_refl _)
  have hbound := bindFirst_binds hp hscope args hwithin s hready.left (le_refl _)
  have hnone := (hbound.ready hready hlead.valid).symbol? n hn hexpr
  have hlast (s : BindState) :
      ((knownType? .string >>= fun found => recordMeaning scope node (.value found)).run
        s).2.facts.symbols = s.facts.symbols :=
    recordMeaning_value_symbols scope node ((knownType? .string).run s).1 s
  have hrest {f : Option String → Binder Meaning}
      (hf : ∀ text s, ((f text).run s).2.facts.symbols = s.facts.symbols) :
      ((bindFirst scope args >>= f).run s).2.facts.symbol? n = none :=
    (congrArg (List.lookup n) (hf _ _)).trans hnone
  rw [bindExpr, if_pos hname]
  refine hrest fun text s => ?_
  cases text with
  | some text => exact hlast _
  | none => exact hlast s

/-- A call that is bound to a method was bound when the method was chosen for it. -/
theorem bindInvoke_hasChosen {callee : Expr} (hp : p.IsRead) (hscope : scope.Sound s.comp)
    (hwithin : scope.Within p (Expr.invoke node callee ⟨range, args⟩).nodes)
    (hready : s.Ready p [] (scope.refs (Expr.invoke node callee ⟨range, args⟩).nodes))
    (hrun : (bindExpr scope (.invoke node callee ⟨range, args⟩)).run s = (m, s'))
    (hm : s'.facts.symbol? ⟨scope.file, node.id⟩ = some method) :
    ∃ c : Compilation, c.HasChosen s'.comp (s'.facts.passed scope.file args) method := by
  have hparts : scope.Within p (callee.nodes ++ nodesOfArgs args) := hwithin.tail
  have hexpr : p.IsExpr ⟨scope.file, node.id⟩ := ⟨_, hwithin.writes (Expr.mem_nodes _), rfl⟩
  -- the arguments are bound first, and nothing is known of the call before its method is chosen
  have hready : s.Ready p [] (scope.refs (nodesOfArgs args) ++
      (scope.refs callee.nodes ++ [(⟨scope.file, node.id⟩ : NodeRef)])) := by
    rw [← List.append_assoc]
    refine hready.ownLast ?_
    rw [← Scope.refs_append]
    exact List.perm_append_comm.map _
  by_cases hname : (Expr.invoke node callee ⟨range, args⟩).isNameof = true
  · have hnone := bindNameof_symbol? hname hp hscope hparts.right hready
      (List.mem_append_right _ (.head _)) hexpr
    rw [hrun, hm] at hnone
    cases hnone
  · rw [bindExpr, if_neg hname] at hrun
    obtain ⟨hlead₁, -⟩ := bindArgs_finds hscope args Scope.covers_univ s hready.valid (le_refl _)
    have hbound₁ := bindArgs_binds hp hscope args hparts.right s hready.left (le_refl _)
    have hready₁ := hbound₁.ready hready hlead₁.valid
    have hpassed := bindArgs_passed hp hscope hparts.right hready.left (le_refl _)
    have hscope₁ := hscope.mono hlead₁.comp
    replace hrun : (bindExpr scope callee >>= fun m =>
        bindCall scope node callee.node m ((bindArgs scope args).run s).1 >>=
          recordMeaning scope node).run ((bindArgs scope args).run s).2 = (m, s') := hrun
    rw [hpassed] at hrun
    generalize ((bindArgs scope args).run s).2 = s₁ at *
    obtain ⟨hlead₂, -⟩ := bindExpr_finds hscope₁ callee Scope.covers_univ s₁ hready₁.valid (le_refl _)
    have hbound₂ := bindExpr_binds hp hscope₁ hparts.left s₁ hready₁.left (le_refl _)
    have hready₂ := hbound₂.ready hready₁ hlead₂.valid
    -- the callee is bound next, and the arguments are none of it
    have hother {a : Argument Expr} (ha : a ∈ args) : ⟨scope.file, a.value.id⟩ ∉
        scope.refs callee.nodes ++ [(⟨scope.file, node.id⟩ : NodeRef)] :=
      have ⟨hvalue, hmem⟩ := hparts.right.value ha
      hready.not_mem hvalue hmem
    have hpassed₂ : ((bindExpr scope callee).run s₁).2.facts.passed scope.file args =
        s₁.facts.passed scope.file args := Facts.passed_congr fun a ha =>
      hbound₂.types _ (fun hmem => hother ha (List.mem_append_left _ hmem))
        (hparts.right.value ha).1
    replace hrun : (bindCall scope node callee.node ((bindExpr scope callee).run s₁).1
        (s₁.facts.passed scope.file args) >>= recordMeaning scope node).run
          ((bindExpr scope callee).run s₁).2 = (m, s') := hrun
    rw [← hpassed₂] at hrun
    generalize ((bindExpr scope callee).run s₁).2 = s₂ at *
    generalize ((bindExpr scope callee).run s₁).1 = called at *
    obtain ⟨found, hfound⟩ := bindCall_givesValue scope node callee.node called
      (s₂.facts.passed scope.file args) s₂
    obtain rfl : s' = ((recordMeaning scope node (.value found)).run
        ((bindCall scope node callee.node called (s₂.facts.passed scope.file args)).run s₂).2).2 := by
      rw [← hfound]
      exact (congrArg Prod.snd hrun).symm
    rw [Facts.symbol?, recordMeaning_value_symbols] at hm
    refine BindState.Picks.hasChosen (bindCall_picks hm ?_ ?_) hready₂ found fun a ha heq => ?_
    · exact hready₂.symbol? _ (.head _) hexpr
    · have hcallee : p.IsExpr ⟨scope.file, callee.id⟩ :=
        ⟨callee, hparts.left.writes callee.mem_nodes, rfl⟩
      exact fun heq => hready₁.not_mem hcallee (List.mem_map_of_mem callee.mem_nodes)
        (heq ▸ .head _)
    · exact hother ha (List.mem_append_right _ (List.mem_singleton.2 heq))

/-- The type is looked up first, and the constructor is chosen when the arguments are bound. -/
theorem bindCreate_run (scope : Scope) (node : Node) (type : TypeRef) (range : OffsetRange)
    (args : List (Argument Expr)) (s : BindState) :
    (bindExpr scope (.create node type (some ⟨range, args⟩))).run s =
      (bindArgs scope args >>= fun passed => do
        if let some t := ((resolveType scope type).run s).1 then
          bindConstructor scope node.id t passed
        recordMeaning scope node (.value ((resolveType scope type).run s).1)).run
          ((resolveType scope type).run s).2 := by
  rw [bindExpr]
  rfl

/-- A creation that is bound to a constructor was bound when the constructor was chosen for it. -/
theorem bindCreate_hasChosen {type : TypeRef} (hp : p.IsRead) (hscope : scope.Sound s.comp)
    (hwithin : scope.Within p (Expr.create node type (some ⟨range, args⟩)).nodes)
    (hready : s.Ready p [] (scope.refs (Expr.create node type (some ⟨range, args⟩)).nodes))
    (hrun : (bindExpr scope (.create node type (some ⟨range, args⟩))).run s = (m, s'))
    (hm : s'.facts.symbol? ⟨scope.file, node.id⟩ = some method) :
    ∃ c : Compilation, c.HasChosen s'.comp (s'.facts.passed scope.file args) method := by
  have hparts : scope.Within p (type.nodes ++ nodesOfArgs args) := hwithin.tail
  have hexpr : p.IsExpr ⟨scope.file, node.id⟩ := ⟨_, hwithin.writes (Expr.mem_nodes _), rfl⟩
  have hready : s.Ready p [] (scope.refs type.nodes ++
      (scope.refs (nodesOfArgs args) ++ [(⟨scope.file, node.id⟩ : NodeRef)])) := by
    rw [← List.append_assoc]
    refine hready.ownLast ?_
    rw [← Scope.refs_append]
    exact .refl _
  obtain ⟨hlead₁, -⟩ := resolveType_finds hscope type Scope.covers_univ s hready.valid (le_refl _)
  have htype : Binds p s.comp [] (scope.refs type.nodes) (resolveType scope type) :=
    (resolveType_keeps hp hparts.left).binds
  have hready₁ := (htype s hready.left (le_refl _)).ready hready hlead₁.valid
  have hscope₁ := hscope.mono hlead₁.comp
  rw [bindCreate_run] at hrun
  generalize ((resolveType scope type).run s).2 = s₁ at *
  generalize ((resolveType scope type).run s).1 = created at *
  obtain ⟨hlead₂, -⟩ := bindArgs_finds hscope₁ args Scope.covers_univ s₁ hready₁.valid (le_refl _)
  have hbound₂ := bindArgs_binds hp hscope₁ args hparts.right s₁ hready₁.left (le_refl _)
  have hready₂ := hbound₂.ready hready₁ hlead₂.valid
  have hpassed := bindArgs_passed hp hscope₁ hparts.right hready₁.left (le_refl _)
  have hnone := hready₂.symbol? _ (.head _) hexpr
  cases created with
  | some t =>
    replace hrun : (bindConstructor scope node.id t ((bindArgs scope args).run s₁).1 >>= fun _ =>
        recordMeaning scope node (.value (some t))).run ((bindArgs scope args).run s₁).2 =
          (m, s') := hrun
    rw [hpassed] at hrun
    generalize ((bindArgs scope args).run s₁).2 = s₂ at *
    obtain rfl : s' = ((recordMeaning scope node (.value (some t))).run
        ((bindConstructor scope node.id t (s₂.facts.passed scope.file args)).run s₂).2).2 :=
      (congrArg Prod.snd hrun).symm
    rw [Facts.symbol?, recordMeaning_value_symbols] at hm
    refine (bindConstructor_picks hm hnone).hasChosen hready₂ _ fun a ha heq => ?_
    obtain ⟨hvalue, hmem⟩ := hparts.right.value ha
    exact hready₁.not_mem hvalue hmem (List.mem_singleton.2 heq)
  | none =>
    replace hrun : (recordMeaning scope node (.value none)).run ((bindArgs scope args).run s₁).2 =
        (m, s') := hrun
    rw [← show _ = s' from congrArg Prod.snd hrun, Facts.symbol?, recordMeaning_value_symbols] at hm
    exact absurd (hnone.symm.trans hm) (Option.some_ne_none method).symm

end

/-- The method that a call has in the end was chosen when the call was bound, for the types that its
arguments have in the end. -/
theorem BindState.Runs.hasChosen (h : t.Runs p scope e s') (hp : p.IsRead) {l : ArgumentList Expr}
    (hargs : e.argumentList? = some l)
    (hm : s'.facts.symbol? ⟨scope.file, e.id⟩ = some method) :
    ∃ c : Compilation, c.HasChosen s'.comp (s'.facts.passed scope.file l.args) method := by
  obtain ⟨range, args⟩ := l
  have hsymbol := h.symbol.resolve_right fun hcalled => by
    rw [hargs] at hcalled
    cases hcalled.1
  rw [hsymbol] at hm
  obtain ⟨c, hchosen⟩ : ∃ c : Compilation, c.HasChosen ((bindExpr scope e).run t).2.comp
      (((bindExpr scope e).run t).2.facts.passed scope.file args) method := by
    cases e with
    | invoke node callee list =>
      obtain rfl := Option.some.inj hargs
      exact bindInvoke_hasChosen hp h.sound h.within h.ready rfl hm
    | create node type list =>
      obtain rfl : list = some ⟨range, args⟩ := hargs
      exact bindCreate_hasChosen hp h.sound h.within h.ready rfl hm
    | _ => cases hargs
  have hsubset := Expr.nodesOfArgs_subset hargs
  have hpassed : s'.facts.passed scope.file args =
      ((bindExpr scope e).run t).2.facts.passed scope.file args := Facts.passed_congr fun a ha => by
    obtain ⟨hvalue, hmem⟩ := (h.within.mono hsubset).value ha
    exact h.types _ (List.map_subset _ hsubset hmem) hvalue
  rw [hpassed]
  exact ⟨c, { hchosen with later := hchosen.later.trans h.comp }⟩

end PropertyLint
