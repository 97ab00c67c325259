/-
# Names in projects are marked

The attributes, the initial values and the bodies of declarations mark the names in them
(`bindTypeBody_marks`), and so do those of the assembly (`bindAssembly_marks`).  Parameters come
into scope as what their nodes declare, which is no field.
-/
import PropertyLint.Proofs.Binding.MarkedExprs

namespace PropertyLint

open Binder

variable {p : Project} {c c' : Compilation} {scope : Scope} {ns : List SyntaxNode}

/-! ## Attributes -/

theorem bindAttributeArgs_marks (hp : p.IsRead) (hscope : scope.Sound c) (class? : Option SymbolId)
    (args : List (Argument Expr)) (hwithin : scope.Within p (nodesOfArgs args)) :
    Marks p c (bindAttributeArgs scope class? args) := by
  induction args generalizing c with
  | nil => exact .pure _
  | cons arg rest ih =>
    have hnode : ⟨scope.file, arg.node.id⟩ ∈ p.others :=
      hwithin.not_isExpr hp (.head _) fun _ => SyntaxNode.noConfusion
    have hparts : scope.Within p (arg.value.nodes ++ nodesOfArgs rest) := hwithin.tail
    rw [bindAttributeArgs]
    refine (bindValue_marks hp hscope hparts.left).bind (bindValue_finds hscope Scope.covers_univ)
      fun c₁ type hle₁ _ => ?_
    have hscope₁ := hscope.mono hle₁
    split
    next ident _ =>
      cases class? with
      | none => exact ih hscope₁ hparts.right
      | some owner =>
        refine .comp fun c₂ hc₂ hle₂ => ?_
        dsimp only
        split
        next member _ hlookup =>
          have hmember : c₂.Has member :=
            hc₂.has_lookupMembers member (by rw [hlookup]; exact .head _)
          exact (recordSymbol_marks (.inr hnode)).bind (finds_recordSymbol (Set.mem_univ _) hmember)
            fun c₃ _ hle₃ _ => ih (hscope₁.mono (le_trans hle₂ hle₃)) hparts.right
        next => exact ih (hscope₁.mono hle₂) hparts.right
    next =>
      exact (ih hscope₁ hparts.right).bind
        (bindAttributeArgs_finds hscope₁ class? rest Scope.covers_univ) fun _ _ _ _ => .pure _

theorem bindAttribute_marks (hp : p.IsRead) (hscope : scope.Sound c) {a : Attribute}
    (hwithin : scope.Within p a.nodes) : Marks p c (bindAttribute scope a) := by
  rw [Attribute.nodes] at hwithin
  have hargs : scope.Within p (nodesOfArgs ((a.args.map ArgumentList.args).getD [])) :=
    hwithin.tail.right.mono (by cases a.args <;> simp [nodesOfOption, nodesOfArgs])
  unfold bindAttribute
  refine ((resolveAttributeClass_calm a.name).marks (resolveAttributeClass_records
    (hwithin.tail.left.covers_type hp (List.Subset.refl _)))).bind
    (resolveAttributeClass_finds hscope Scope.covers_univ) fun c₁ class? hle₁ hclass => ?_
  have hscope₁ := hscope.mono hle₁
  refine (bindAttributeArgs_marks hp hscope₁ class? _ hargs).bind
    (bindAttributeArgs_finds hscope₁ class? _ Scope.covers_univ) fun c₂ passed hle₂ _ => ?_
  cases class? with
  | none => exact .pure _
  | some owner =>
    exact (recordType_marks _ owner).bind (finds_recordType ((hclass owner rfl).mono hle₂))
      fun _ _ _ _ => bindConstructor_marks _ owner passed

theorem bindAttributes_marks (hp : p.IsRead) (hscope : scope.Sound c) (as : List Attribute)
    (hwithin : scope.Within p (nodesOfAttributes as)) : Marks p c (bindAttributes scope as) :=
  .forM (fun a _ => bindAttribute_finds hscope a Scope.covers_univ) fun a ha =>
    bindAttribute_marks hp hscope (hwithin.mono fun _ hn => List.mem_flatMap.2 ⟨a, ha, hn⟩)

/-! ## Bodies -/

theorem bindParams_marks (hp : p.IsRead) (hscope : scope.Sound c) (params : List Parameter)
    (hwithin : scope.Within p (params.flatMap Parameter.nodes)) :
    Marks p c (bindParams scope params) := by
  have hattributes (q : Parameter) :=
    bindAttributes_finds hscope q.attributes Scope.covers_univ
  refine .forM (fun q _ => (hattributes q).bind fun _ _ hle _ =>
    bindOption_finds (hscope.mono hle) Scope.covers_univ) fun q hq => ?_
  have hwithin : scope.Within p q.nodes := hwithin.mono fun n hn => List.mem_flatMap.2 ⟨q, hq, hn⟩
  rw [Parameter.nodes] at hwithin
  exact (bindAttributes_marks hp hscope _ hwithin.tail.left.left).bind (hattributes q)
    fun _ _ hle _ => bindOption_marks hp (hscope.mono hle) hwithin.tail.right

/-- The nodes of parameters are those of parameters. -/
theorem Scope.Within.mem_paramRefs (h : scope.Within p ns) {q : Parameter}
    (hq : .parameter q ∈ ns) : ⟨scope.file, q.node.id⟩ ∈ p.paramRefs := by
  obtain ⟨t, ht, hfile, hnodes⟩ := h
  exact ⟨t, ht, hfile, q, hnodes hq, rfl⟩

theorem isNoField_paramLocals {s : BindState} (hapart : s.Apart p) (params : List Parameter)
    (hwithin : scope.Within p (params.flatMap Parameter.nodes)) :
    ∀ r ∈ paramLocals s.facts scope params, s.comp.IsNoField r.2 := by
  intro r hr
  obtain ⟨q, hq, hlocal⟩ := List.mem_filterMap.1 (List.mem_reverse.1 hr)
  obtain ⟨id, hid, rfl⟩ := Option.map_eq_some_iff.1 hlocal
  refine hapart.params _ (mem_of_lookup hid) (hwithin.mem_paramRefs ?_)
  exact List.mem_flatMap.2 ⟨q, hq, .head _⟩

theorem bindCallable_marks (hp : p.IsRead) (hscope : scope.Sound c) (params : List Parameter)
    (body : Body) (hwithin : scope.Within p (params.flatMap Parameter.nodes ++ body.nodes)) :
    Marks p c (bindCallable scope params body) := by
  refine .get fun s hs hle hapart => ?_
  have hscope := hscope.mono hle
  have hparams := bindParams_finds hscope params Scope.covers_univ
  refine .inFreshScope (fun r hr => ⟨has_paramLocals hs params r hr,
    isNoField_paramLocals hapart params hwithin.left r hr⟩)
    (hparams.bind fun _ _ hle' _ => bindBody_finds (hscope.mono hle') Scope.covers_univ) ?_
  exact (bindParams_marks hp hscope params hwithin.left).bind hparams fun _ _ hle' _ =>
    bindBody_marks hp (hscope.mono hle') hwithin.right

theorem bindAccessor_marks (hp : p.IsRead) (hscope : scope.Sound c) {propertyType : Option SymbolId}
    (htype : ∀ t ∈ propertyType, c.IsType t) (isSetter : Bool) {a : Accessor}
    (hwithin : scope.Within p a.nodes) :
    Marks p c (bindAccessor scope propertyType isSetter a) := by
  have hbody {c' : Compilation} (hle : c ≤ c') : Marks p c' (bindBody scope a.body) :=
    bindBody_marks hp (hscope.mono hle) hwithin.tail
  have hfinds {c' : Compilation} (hle : c ≤ c') :
      Finds Set.univ c' (bindBody scope a.body) fun _ _ => True :=
    bindBody_finds (hscope.mono hle) Scope.covers_univ
  have hsound : Symbol.Sound c (.parameter ⟨setterValueName, propertyType, 0, false, none⟩) := htype
  -- what puts the value of a setter in scope
  have hvalue : Finds Set.univ c (do
      let value ← add (.parameter ⟨setterValueName, propertyType, 0, false, none⟩)
      addLocal setterValueName value
      bindBody scope a.body) fun _ _ => True :=
    (finds_add hsound fun _ => Symbol.noConfusion).bind fun _ _ hle₁ hid =>
      (finds_addLocal (Compilation.has_of_symbol? hid)).bind fun _ _ hle₂ _ =>
        hfinds (le_trans hle₁ hle₂)
  unfold bindAccessor
  cases isSetter with
  | true =>
    refine .inFreshScope (List.forall_mem_nil _) hvalue ?_
    refine (add_marks (Symbol.orderly_parameter _)).bind
      (finds_add hsound fun _ => Symbol.noConfusion) fun c₁ id hle₁ hid => ?_
    have hno : c₁.IsNoField id := ⟨_, hid, fun _ => Symbol.noConfusion⟩
    exact (addLocal_marks hno _).bind (finds_addLocal hno.has) fun _ _ hle₂ _ =>
      hbody (le_trans hle₁ hle₂)
  | false => exact .inFreshScope (List.forall_mem_nil _) (hfinds (le_refl c)) (hbody (le_refl c))

theorem bindProperty_marks (hp : p.IsRead) (hscope : scope.Sound c) (d : PropertyDecl)
    (hwithin : scope.Within p (nodesOfOption Expr.nodes d.arrow ++
      d.accessors.flatMap Accessor.nodes ++ nodesOfOption Expr.nodes d.init)) :
    Marks p c (bindProperty scope d) := by
  refine .get fun s hs hle hapart => ?_
  have hscope := hscope.mono hle
  have htype : ∀ t ∈ (s.facts.declared? ⟨scope.file, d.node.id⟩).bind s.comp.valueType?,
      s.comp.IsType t := by
    intro t ht
    obtain ⟨id, -, ht⟩ := Option.bind_eq_some_iff.1 ht
    exact hs.comp.isType_valueType? t ht
  have harrow := bindOption_finds hscope (e := d.arrow) Scope.covers_univ
  have haccessor {c' : Compilation} (hle' : s.comp ≤ c') (a : Accessor) (isSetter : Bool) :=
    bindAccessor_finds (hscope.mono hle') (fun t ht => (htype t ht).mono hle') isSetter a
      Scope.covers_univ
  refine .inFreshScope (List.forall_mem_nil _) (harrow.bind fun c₁ _ hle₁ _ =>
    (finds_forM fun a _ => haccessor hle₁ a _).bind fun c₂ _ hle₂ _ =>
      bindOption_finds (hscope.mono (le_trans hle₁ hle₂)) Scope.covers_univ) ?_
  refine (bindOption_marks hp hscope hwithin.left.left).bind harrow fun c₁ _ hle₁ _ => ?_
  refine Marks.bind (finds_forM fun a _ => haccessor hle₁ a _)
    (.forM (fun a _ => haccessor hle₁ a _) fun a ha => ?_) fun c₂ _ hle₂ _ =>
      bindOption_marks hp (hscope.mono (le_trans hle₁ hle₂)) hwithin.right
  refine bindAccessor_marks hp (hscope.mono hle₁) (fun t ht => (htype t ht).mono hle₁) _
    (hwithin.left.right.mono fun n hn => ?_)
  exact List.mem_flatMap.2 ⟨a, ha, hn⟩

theorem methodTypeParamsOf_marks (m : MethodDecl) : Marks p c (methodTypeParamsOf scope m) :=
  fun _ _ _ hapart => .refl hapart

theorem bindMemberBody_marks (hp : p.IsRead) (hscope : scope.Sound c) {m : Member}
    (hm : m.isType = false) (hwithin : scope.Within p m.boundNodes) :
    Marks p c (bindMemberBody scope m) := by
  have hattributes := bindAttributes_finds hscope m.attributes Scope.covers_univ
  unfold bindMemberBody
  cases m with
  | field d =>
    rw [Member.boundNodes] at hwithin
    refine (bindAttributes_marks hp hscope _ hwithin.left).bind hattributes fun c₁ _ hle₁ _ => ?_
    have hinit := hwithin.right
    by_cases hconst : d.modifiers.has .const = true
    · dsimp only
      rw [if_neg (by simp [hconst])]
      exact .pure _
    · rw [if_neg hconst] at hinit
      dsimp only
      rw [if_pos (by simp [hconst])]
      exact bindOption_marks hp (hscope.mono hle₁) hinit
  | property d =>
    rw [Member.boundNodes, PropertyDecl.nodes] at hwithin
    simp only [List.append_assoc] at hwithin
    refine (bindAttributes_marks hp hscope _ hwithin.left).bind hattributes fun c₁ _ hle₁ _ => ?_
    refine bindProperty_marks hp (hscope.mono hle₁) d ?_
    rw [List.append_assoc]
    exact hwithin.right.right
  | method d =>
    rw [Member.boundNodes, MethodDecl.nodes] at hwithin
    simp only [List.append_assoc] at hwithin
    refine (bindAttributes_marks hp hscope _ hwithin.left).bind hattributes fun c₁ _ hle₁ _ => ?_
    refine (methodTypeParamsOf_marks d).bind (methodTypeParamsOf_finds scope d)
      fun c₂ typeParams hle₂ htypeParams => ?_
    have hmethod : Scope.Sound c₂ { scope with methodTypeParams := typeParams } :=
      { type := (hscope.mono (le_trans hle₁ hle₂)).type
        params := htypeParams }
    exact bindCallable_marks hp hmethod d.params d.body hwithin.right.right.right
  | constructor d =>
    rw [Member.boundNodes, ConstructorDecl.nodes] at hwithin
    rw [List.append_assoc] at hwithin
    exact (bindAttributes_marks hp hscope _ hwithin.left).bind hattributes fun _ _ hle _ =>
      bindCallable_marks hp (hscope.mono hle) d.params d.body hwithin.right
  | type d => cases hm

theorem bindTypeBody_marks (hp : p.IsRead) {d : DeclaredType} (hd : c.IsType d.symbol)
    (hwithin : d.scope.Within p d.decl.boundNodes) : Marks p c (bindTypeBody d) := by
  have hscope := DeclaredType.scope_sound hd
  have hattributes := bindAttributes_finds hscope d.decl.attributes
    Scope.covers_univ
  have htype {m : Member} (hm : m ∈ d.decl.ownMembers) : m.isType = false := by
    simpa using (List.mem_filter.1 hm).2
  have hmember {c' : Compilation} (hle : c ≤ c') {m : Member} (hm : m ∈ d.decl.ownMembers) :=
    bindMemberBody_finds (hscope.mono hle) (htype hm) Scope.covers_univ
  rw [TypeDecl.boundNodes] at hwithin
  refine .inFreshScope (List.forall_mem_nil _) (hattributes.bind fun c₁ _ hle₁ _ =>
    finds_forM fun m hm => hmember hle₁ hm) ?_
  refine (bindAttributes_marks hp hscope _ hwithin.left).bind hattributes fun c₁ _ hle₁ _ =>
    .forM (fun m hm => hmember hle₁ hm) fun m hm => ?_
  refine bindMemberBody_marks hp (hscope.mono hle₁) (htype hm) (hwithin.right.mono fun n hn => ?_)
  exact List.mem_flatMap.2 ⟨m, hm, hn⟩

theorem bindAssembly_marks (hp : p.IsRead) {source : Source}
    (hwithin : source.scope.Within p (nodesOfAttributes source.root.attributes)) :
    Marks p c (bindAssembly source) := by
  have hscope : Scope.Sound c source.scope :=
    { type := fun _ ht => by cases ht
      params := List.forall_mem_nil _ }
  exact .inFreshScope (List.forall_mem_nil _)
    (bindAttributes_finds hscope _ Scope.covers_univ) (bindAttributes_marks hp hscope _ hwithin)

end PropertyLint
