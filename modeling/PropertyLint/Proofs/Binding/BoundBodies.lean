/-
# Bodies are bound one by one

The attributes, the initial values and the bodies of declarations are bound expression by expression
in stretches (`bindTypeBody_encloses`), and so are the initial values of constant fields and the
attributes of the assembly (`Project.IsBound.exists_boundIn`), so that whatever a project knows about an
expression was found out when the expression was bound (`Project.IsBound.exists_runs`).
-/
import PropertyLint.Proofs.Binding.BoundExprs
import PropertyLint.Proofs.Binding.Orderly
import PropertyLint.Proofs.Binding.Stages
import PropertyLint.Proofs.Binding.Stretches

namespace PropertyLint

open Binder

variable {p : Project} {c : Compilation} {own refs : List NodeRef} {scope : Scope}
  {ns : List SyntaxNode} {s s' : BindState}

/-! ## Attributes -/

theorem bindAttributeArgs_binds (hp : p.IsRead) (hscope : scope.Sound c) (class? : Option SymbolId)
    (args : List (Argument Expr)) (hwithin : scope.Within p (nodesOfArgs args)) :
    Binds p c own (scope.refs (nodesOfArgs args)) (bindAttributeArgs scope class? args) := by
  induction args generalizing c with
  | nil => exact .pure _
  | cons arg rest ih =>
    have hnode : ⟨scope.file, arg.node.id⟩ ∈ p.others :=
      hwithin.not_isExpr hp (.head _) fun _ => SyntaxNode.noConfusion
    have hparts : scope.Within p (arg.value.nodes ++ nodesOfArgs rest) := hwithin.tail
    rw [nodesOfArgs, Scope.refs_cons, Scope.refs_append, bindAttributeArgs]
    refine Binds.skip (Binds.bind (bindValue_finds hscope Scope.covers_univ)
      (bindValue_binds hp hscope hparts.left) fun c₁ type hle₁ _ => ?_)
    have hscope₁ := hscope.mono hle₁
    split
    next ident _ =>
      cases class? with
      | none => exact ih hscope₁ hparts.right
      | some owner =>
        refine .comp fun c₂ hc₂ hle₂ => ?_
        dsimp only
        split
        next member _ hlookup =>
          have hmember : c₂.Has member :=
            hc₂.has_lookupMembers member (by rw [hlookup]; exact .head _)
          have hsymbol : Binds p c₂ own [] (recordSymbol scope arg.node.id member) :=
            (recordSymbol_keeps (.inr hnode) member).binds
          exact hsymbol.bind (finds_recordSymbol (Set.mem_univ _) hmember) fun c₃ _ hle₃ _ =>
            ih (hscope₁.mono (le_trans hle₂ hle₃)) hparts.right
        next => exact ih (hscope₁.mono hle₂) hparts.right
    next => exact (ih hscope₁ hparts.right).map _

theorem resolveAttributeClass_keeps (hp : p.IsRead) {name : TypeRef}
    (hwithin : scope.Within p name.nodes) : Keeps p own (resolveAttributeClass scope name) :=
  (resolveAttributeClass_calm name).keeps
    (resolveAttributeClass_records (hwithin.covers_type hp (List.Subset.refl _)))

theorem bindAttribute_binds (hp : p.IsRead) (hscope : scope.Sound c) {a : Attribute}
    (hwithin : scope.Within p a.nodes) :
    Binds p c own (scope.refs a.nodes) (bindAttribute scope a) := by
  have hnode : ⟨scope.file, a.id⟩ ∈ p.others :=
    hwithin.not_isExpr hp (.head _) fun _ => SyntaxNode.noConfusion
  have hnodes : nodesOfOption (fun list => nodesOfArgs list.args) a.args =
      nodesOfArgs ((a.args.map ArgumentList.args).getD []) := by
    cases a.args <;> rfl
  rw [Attribute.nodes, hnodes] at hwithin ⊢
  rw [Scope.refs_cons, Scope.refs_append]
  unfold bindAttribute
  refine Binds.skip (Binds.bind (resolveAttributeClass_finds hscope Scope.covers_univ)
    (resolveAttributeClass_keeps hp hwithin.tail.left).binds fun c₁ class? hle₁ _ => ?_)
  refine (bindAttributeArgs_binds hp (hscope.mono hle₁) class? _ hwithin.tail.right).keep
    fun passed => ?_
  cases class? with
  | none => exact .pure _
  | some owner =>
    exact (recordType_keeps hnode owner).bind fun _ =>
      bindConstructor_keeps (.inr hnode) owner passed

theorem bindAttributes_binds (hp : p.IsRead) (hscope : scope.Sound c) (as : List Attribute)
    (hwithin : scope.Within p (nodesOfAttributes as)) :
    Binds p c own (scope.refs (nodesOfAttributes as)) (bindAttributes scope as) := by
  rw [nodesOfAttributes, Scope.refs_flatMap]
  exact .forM (fun a _ => bindAttribute_finds hscope a Scope.covers_univ) fun a ha =>
    bindAttribute_binds hp hscope (hwithin.mono fun _ hn => List.mem_flatMap.2 ⟨a, ha, hn⟩)

/-! ## Bodies -/

theorem bindParams_binds (hp : p.IsRead) (hscope : scope.Sound c) (params : List Parameter)
    (hwithin : scope.Within p (params.flatMap Parameter.nodes)) :
    Binds p c own (scope.refs (params.flatMap Parameter.nodes)) (bindParams scope params) := by
  have hattributes (q : Parameter) :=
    bindAttributes_finds hscope q.attributes Scope.covers_univ
  rw [Scope.refs_flatMap]
  refine .forM (fun q _ => (hattributes q).bind fun _ _ hle _ =>
    bindOption_finds (hscope.mono hle) Scope.covers_univ) fun q hq => ?_
  have hwithin : scope.Within p q.nodes := hwithin.mono fun n hn => List.mem_flatMap.2 ⟨q, hq, hn⟩
  rw [Parameter.nodes] at hwithin ⊢
  rw [Scope.refs_cons, Scope.refs_append, Scope.refs_append, List.append_assoc]
  exact Binds.skip (Binds.bind (hattributes q) (bindAttributes_binds hp hscope _
    hwithin.tail.left.left) fun _ _ hle _ =>
      .drop (bindOption_binds hp (hscope.mono hle) hwithin.tail.right))

theorem bindCallable_isolates (hp : p.IsRead) (hscope : scope.Sound c) (params : List Parameter)
    (body : Body) (hwithin : scope.Within p (params.flatMap Parameter.nodes ++ body.nodes)) :
    Isolates p c own (scope.refs (params.flatMap Parameter.nodes ++ body.nodes))
      (bindCallable scope params body) := by
  intro s hready hle
  have hscope := hscope.mono hle
  have hbinds : Binds p s.comp own (scope.refs (params.flatMap Parameter.nodes ++ body.nodes)) (do
      bindParams scope params
      bindBody scope body) := by
    rw [Scope.refs_append]
    exact Binds.bind (bindParams_finds hscope params Scope.covers_univ)
      (bindParams_binds hp hscope params hwithin.left) fun _ _ hle' _ =>
        bindBody_binds hp (hscope.mono hle') hwithin.right
  have hfresh : BindState.Ready p own
      (scope.refs (params.flatMap Parameter.nodes ++ body.nodes))
      { s with locals := paramLocals s.facts scope params } :=
    { hready with valid := { hready.valid with locals := has_paramLocals hready.valid params } }
  have hbound := hbinds _ hfresh (le_refl _)
  refine ⟨hbound.inFreshScope.imp fun l hl => .inr ?_, rfl⟩
  -- the locals are those that the parameters have declared
  obtain ⟨q, hq, hlocal⟩ := List.mem_filterMap.1 (List.mem_reverse.1 hl)
  obtain ⟨id, hid, rfl⟩ := Option.map_eq_some_iff.1 hlocal
  have hparam : .parameter q ∈ params.flatMap Parameter.nodes ++ body.nodes :=
    List.mem_append_left _ (List.mem_flatMap.2 ⟨q, hq, .head _⟩)
  exact ⟨_, List.mem_append_right _ (List.mem_map_of_mem hparam), .parameter q,
    hwithin.hasNode hparam, .inr ⟨q, rfl, rfl, hbound.declared.subset (mem_of_lookup hid)⟩⟩

theorem bindAccessor_isolates (hp : p.IsRead) (hscope : scope.Sound c)
    {propertyType : Option SymbolId} (htype : ∀ t ∈ propertyType, c.IsType t) {isSetter : Bool}
    {a : Accessor} (hwithin : scope.Within p a.nodes)
    (hsetter : isSetter = true → ∃ x, p.HasNode ⟨scope.file, a.node.id⟩ x ∧
      x.introduced? scope.file propertyType =
        some (.parameter ⟨setterValueName, propertyType, 0, false, none⟩)) :
    Isolates p c own (scope.refs a.nodes) (bindAccessor scope propertyType isSetter a) := by
  refine Binds.inFreshScope ?_
  rw [Accessor.nodes, Scope.refs_cons]
  have hbody {c' : Compilation} (hle : c ≤ c') :
      Binds p c' own (scope.refs a.body.nodes) (bindBody scope a.body) :=
    bindBody_binds hp (hscope.mono hle) hwithin.tail
  cases isSetter with
  | true =>
    obtain ⟨x, hnode, hintro⟩ := hsetter rfl
    have hsound : Symbol.Sound c (.parameter ⟨setterValueName, propertyType, 0, false, none⟩) :=
      htype
    have hfinds : Finds Set.univ c
        (add (.parameter ⟨setterValueName, propertyType, 0, false, none⟩) >>= fun id =>
          addLocal setterValueName id) fun _ _ => True :=
      (finds_add hsound fun _ => Symbol.noConfusion).bind fun _ _ _ hid =>
        finds_addLocal (Compilation.has_of_symbol? hid)
    have hvalue : Binds p c own [⟨scope.file, a.node.id⟩]
        (add (.parameter ⟨setterValueName, propertyType, 0, false, none⟩) >>= fun id =>
          addLocal setterValueName id) :=
      add_addLocal_binds (Symbol.orderly_parameter _) (List.mem_append_right _ (.head _)) hnode
        ⟨propertyType, hintro⟩ rfl
    exact hvalue.bind hfinds fun _ _ hle _ => hbody hle
  | false => exact (hbody (le_refl c)).skip

/-- The setter of a property brings its value into scope. -/
theorem PropertyDecl.introduced?_setter? {d : PropertyDecl} {setter : Accessor}
    (h : d.setter? = some setter) (file : Option FileId) (type : Option SymbolId) :
    setter ∈ d.accessors ∧ (SyntaxNode.accessor setter).introduced? file type =
      some (.parameter ⟨setterValueName, type, 0, false, none⟩) := by
  refine ⟨List.mem_of_find?_eq_some h, ?_⟩
  have hkind := List.find?_some h
  rw [SyntaxNode.introduced?, if_pos hkind]

theorem bindProperty_isolates (hp : p.IsRead) (hscope : scope.Sound c) (d : PropertyDecl)
    (hwithin : scope.Within p (nodesOfOption Expr.nodes d.arrow ++
      (d.accessors.flatMap Accessor.nodes ++ nodesOfOption Expr.nodes d.init))) :
    Isolates p c own (scope.refs (nodesOfOption Expr.nodes d.arrow ++
      (d.accessors.flatMap Accessor.nodes ++ nodesOfOption Expr.nodes d.init)))
      (bindProperty scope d) := by
  refine .get fun s hs hle => ?_
  have hscope := hscope.mono hle
  have htype : ∀ t ∈ (s.facts.declared? ⟨scope.file, d.node.id⟩).bind s.comp.valueType?,
      s.comp.IsType t := by
    intro t ht
    obtain ⟨id, -, ht⟩ := Option.bind_eq_some_iff.1 ht
    exact hs.comp.isType_valueType? t ht
  have harrow : Finds Set.univ s.comp (bindOption scope d.arrow) fun _ _ => True :=
    bindOption_finds hscope Scope.covers_univ
  have haccessor {c' : Compilation} (hle' : s.comp ≤ c') (a : Accessor) (isSetter : Bool) :=
    bindAccessor_finds (hscope.mono hle') (fun t ht => (htype t ht).mono hle') isSetter a
      Scope.covers_univ
  refine Binds.inFreshScope ?_
  rw [Scope.refs_append, Scope.refs_append, Scope.refs_flatMap]
  refine Binds.bind harrow (bindOption_binds hp hscope hwithin.left) fun c₁ _ hle₁ _ => ?_
  refine Binds.bind (finds_forM fun a _ => haccessor hle₁ a _) (.forM (fun a _ => haccessor hle₁ a _)
    fun a ha => ?_) fun c₂ _ hle₂ _ =>
      bindOption_binds hp (hscope.mono (le_trans hle₁ hle₂)) hwithin.right.right
  have hmem {b : Accessor} (hb : b ∈ d.accessors) : scope.Within p b.nodes :=
    hwithin.right.left.mono fun n hn => List.mem_flatMap.2 ⟨b, hb, hn⟩
  have hsetter (h : (d.setter?.any fun setter => setter.node.id == a.node.id) = true) :
      ∃ x, p.HasNode ⟨scope.file, a.node.id⟩ x ∧
        x.introduced? scope.file ((s.facts.declared? ⟨scope.file, d.node.id⟩).bind
          s.comp.valueType?) = some (.parameter ⟨setterValueName,
            (s.facts.declared? ⟨scope.file, d.node.id⟩).bind s.comp.valueType?, 0, false, none⟩) := by
    obtain ⟨setter, hsetter, hid⟩ := (Option.any_eq_true _ _).1 h
    obtain ⟨hown, hintro⟩ := PropertyDecl.introduced?_setter? hsetter scope.file
      ((s.facts.declared? ⟨scope.file, d.node.id⟩).bind s.comp.valueType?)
    have hnode := (hmem hown).hasNode (.head _)
    rw [← eq_of_beq hid]
    exact ⟨_, hnode, hintro⟩
  exact (bindAccessor_isolates hp (hscope.mono hle₁) (fun t ht => (htype t ht).mono hle₁) (hmem ha)
    hsetter).binds

/-- The nodes of a member that are bound in the scope of its type: its attributes, and the initial
value of a field. -/
def Member.sharedNodes : Member → List SyntaxNode
  | .field d =>
    nodesOfAttributes d.attributes ++
      if d.modifiers.has .const then [] else nodesOfOption Expr.nodes d.init
  | .property d => nodesOfAttributes d.attributes
  | .method d => nodesOfAttributes d.attributes
  | .constructor d => nodesOfAttributes d.attributes
  | .type _ => []

/-- The nodes of a member that are bound in a scope of their own, and those of written types in
front of them. -/
def Member.innerNodes : Member → List SyntaxNode
  | .property d =>
    d.type.nodes ++ (nodesOfOption Expr.nodes d.arrow ++
      (d.accessors.flatMap Accessor.nodes ++ nodesOfOption Expr.nodes d.init))
  | .method d =>
    d.returnType.nodes ++ (nodesOfOption TypeRef.nodes d.interface ++
      (d.params.flatMap Parameter.nodes ++ d.body.nodes))
  | .constructor d => d.params.flatMap Parameter.nodes ++ d.body.nodes
  | .field _ | .type _ => []

theorem Member.boundNodes_eq (m : Member) : m.boundNodes = m.sharedNodes ++ m.innerNodes := by
  cases m <;> simp only [boundNodes, sharedNodes, innerNodes, PropertyDecl.nodes, MethodDecl.nodes,
    ConstructorDecl.nodes, List.append_assoc, List.append_nil]

/-- Binding a member binds its attributes and the initial value of a field among other members, and
everything else on its own. -/
theorem bindMemberBody_splits (hp : p.IsRead) (hscope : scope.Sound c) {m : Member}
    (hm : m.isType = false) (hwithin : scope.Within p m.boundNodes) :
    Splits p c (scope.refs m.sharedNodes) (scope.refs m.innerNodes) (bindMemberBody scope m) := by
  have hattributes := bindAttributes_finds hscope m.attributes Scope.covers_univ
  rw [m.boundNodes_eq] at hwithin
  unfold bindMemberBody
  cases m with
  | field d =>
    rw [Member.sharedNodes] at hwithin ⊢
    have hinit := hwithin.left.right
    refine Splits.of_binds ?_
    rw [Scope.refs_append]
    refine Binds.bind hattributes (bindAttributes_binds hp hscope _ hwithin.left.left)
      fun c₁ _ hle₁ _ => ?_
    dsimp only
    by_cases hconst : d.modifiers.has .const = true
    · rw [if_pos hconst, if_neg (by simp [hconst])]
      exact .pure _
    · rw [if_neg hconst] at hinit ⊢
      rw [if_pos (by simp [hconst])]
      exact bindOption_binds hp (hscope.mono hle₁) hinit
  | property d =>
    refine Splits.bind hattributes (bindAttributes_binds hp hscope _ hwithin.left)
      fun c₁ _ hle₁ _ => ?_
    rw [Member.innerNodes, Scope.refs_append]
    exact .drop (bindProperty_isolates hp (hscope.mono hle₁) d hwithin.right.right)
  | method d =>
    refine Splits.bind hattributes (bindAttributes_binds hp hscope _ hwithin.left)
      fun c₁ _ hle₁ _ => ?_
    rw [Member.innerNodes, Scope.refs_append, Scope.refs_append]
    refine Isolates.query (methodTypeParamsOf_finds scope d) (fun _ => rfl)
      fun c₂ typeParams hle₂ htypeParams => .drop (.drop ?_)
    have hmethod : Scope.Sound c₂ { scope with methodTypeParams := typeParams } :=
      { type := (hscope.mono (le_trans hle₁ hle₂)).type
        params := htypeParams }
    exact bindCallable_isolates hp hmethod d.params d.body hwithin.right.right.right
  | constructor d =>
    exact Splits.bind hattributes (bindAttributes_binds hp hscope _ hwithin.left)
      fun _ _ hle _ => bindCallable_isolates hp (hscope.mono hle) d.params d.body hwithin.right
  | type d => cases hm

/-- The nodes of a type that share a scope. -/
def TypeDecl.sharedNodes (t : TypeDecl) : List SyntaxNode :=
  nodesOfAttributes t.attributes ++ t.ownMembers.flatMap Member.sharedNodes

/-- A member is bound in the scope of its type first. -/
def Member.portions (scope : Scope) (area : List NodeRef) (m : Member) : List Portion :=
  [⟨area, scope.refs m.sharedNodes⟩, .own (scope.refs m.innerNodes)]

namespace DeclaredType

variable (d : DeclaredType)

/-- The nodes that are bound in the scope of the type. -/
def area : List NodeRef := d.scope.refs d.decl.sharedNodes

/-- The attributes of a type are bound first, and then its members. -/
def portions : List Portion :=
  ⟨d.area, d.scope.refs (nodesOfAttributes d.decl.attributes)⟩ ::
    d.decl.ownMembers.flatMap (Member.portions d.scope d.area)

theorem flatMap_portions : d.portions.flatMap Portion.refs = d.scope.refs d.decl.boundNodes := by
  have hmember (m : Member) :
      (m.portions d.scope d.area).flatMap Portion.refs = d.scope.refs m.boundNodes := by
    rw [m.boundNodes_eq, Scope.refs_append]
    simp only [Member.portions, Portion.own, List.flatMap_cons, List.flatMap_nil, List.append_nil]
  rw [portions, List.flatMap_cons, List.flatMap_assoc, TypeDecl.boundNodes, Scope.refs_append,
    Scope.refs_flatMap]
  simp only [hmember]

theorem subset_area {m : Member} (hm : m ∈ d.decl.ownMembers) :
    d.scope.refs m.sharedNodes ⊆ d.area :=
  List.map_subset _ fun _ hn => List.mem_append_right _ (List.mem_flatMap.2 ⟨m, hm, hn⟩)

end DeclaredType

/-- Binding the body of a type binds its members one after the other. -/
theorem bindTypeBody_encloses (hp : p.IsRead) {d : DeclaredType} (hd : c.IsType d.symbol)
    (hwithin : d.scope.Within p d.decl.boundNodes) :
    Encloses p c own d.portions (bindTypeBody d) := by
  have hscope := DeclaredType.scope_sound hd
  have hattributes := bindAttributes_finds hscope d.decl.attributes Scope.covers_univ
  have hmember {c' : Compilation} (hle : c ≤ c') {m : Member} (hm : m ∈ d.decl.ownMembers) :=
    bindMemberBody_finds (hscope.mono hle) (TypeDecl.isType_of_mem_ownMembers hm) Scope.covers_univ
  rw [TypeDecl.boundNodes] at hwithin
  have hbody : Encloses p c d.area d.portions (do
      bindAttributes d.scope d.decl.attributes
      d.decl.ownMembers.forM (bindMemberBody d.scope)) := by
    have hsubset : d.scope.refs (nodesOfAttributes d.decl.attributes) ⊆ d.area :=
      List.map_subset _ (List.subset_append_left _ _)
    have hfirst := (bindAttributes_binds hp hscope _ hwithin.left).encloses hsubset
    refine hfirst.bind hattributes fun c₁ _ hle₁ _ => .forM (fun m hm => hmember hle₁ hm) fun m hm => ?_
    refine .of_splits (bindMemberBody_splits hp (hscope.mono hle₁)
      (TypeDecl.isType_of_mem_ownMembers hm) (hwithin.right.mono fun n hn => ?_)) (d.subset_area hm)
    exact List.mem_flatMap.2 ⟨m, hm, hn⟩
  exact hbody.inFreshScope

theorem bindAssembly_isolates (hp : p.IsRead) {source : Source}
    (hwithin : source.scope.Within p (nodesOfAttributes source.root.attributes)) :
    Isolates p c [] (source.scope.refs (nodesOfAttributes source.root.attributes))
      (bindAssembly source) := by
  have hscope : Scope.Sound c source.scope :=
    { type := fun _ ht => by cases ht
      params := List.forall_mem_nil _ }
  exact Binds.inFreshScope (bindAttributes_binds hp hscope _ hwithin)

/-! ## Constants -/

/-- What is known of constants does not matter. -/
theorem evaluate_keeps (f : ConstField) : Keeps p own (do
    if let some v ← constant? f.scope f.init.id then
      modify fun s => { s with fieldConstants := (f.symbol, v) :: s.fieldConstants }) := by
  refine (constant?_keeps f.init.id).bind fun found => ?_
  cases found with
  | some v =>
    intro s
    have hrefl : s.Keeps p own s := .refl s
    exact { hrefl with }
  | none => exact .pure _

theorem bindConstField_isolates (hp : p.IsRead) {f : ConstField} (hf : f.Sound c)
    (hwithin : f.scope.Within p f.init.nodes) : Isolates p c own f.refs (bindConstField f) :=
  Binds.inFreshScope ((bindExpr_binds hp hf.scope hwithin).discard.keep fun _ => evaluate_keeps f)

theorem recordMeaning_keeps {node : Node} (h : ⟨scope.file, node.id⟩ ∈ p.others) (m : Meaning) :
    Keeps p own (recordMeaning scope node m) := by
  intro s
  obtain ⟨hcomp, hdeclared, hlocals, hframe⟩ := recordMeaning_frame scope node m s
  have hne {n : NodeRef} (hexpr : p.IsExpr n) : n ≠ ⟨scope.file, node.id⟩ :=
    fun heq => h (heq ▸ hexpr)
  exact
    { comp := by rw [hcomp]; exact .refl _
      types := fun n hexpr => (hframe n (hne hexpr)).1
      declared := hdeclared
      locals := hlocals
      symbols := fun n _ hexpr => (hframe n (hne hexpr)).2 }

/-- A literal that stands in no file. -/
theorem bindConstField_keeps {f : ConstField} {node : Node} {l : Literal}
    (hfile : f.scope.file = none) (hinit : f.init = .literal node l) :
    Keeps p own (bindConstField f) := by
  have hnode : ⟨f.scope.file, node.id⟩ ∈ p.others := Project.mem_others_of_file_eq_none hfile
  have hliteral : Keeps p own (bindExpr f.scope f.init) := by
    rw [hinit, bindExpr]
    exact (bindLiteral_keeps node l).bind fun m => recordMeaning_keeps hnode m
  exact ((hliteral.bind fun _ => .pure _).bind fun _ => evaluate_keeps f).inFreshScope []

/-! ## Projects -/

theorem BindState.Introduces.type?_eq_none {nodes : Set NodeRef} {n : NodeRef}
    (h : BindState.Introduces nodes {} s) : s.facts.type? n = none := by
  rw [Facts.type?, h.types]
  rfl

/-- The portions in which everything but the constant fields is bound. -/
def bodyPortions (sources : List Source) : List Portion :=
  ((sources.filter fun s => s.file.isSome).flatMap fun s =>
      [.own (s.scope.refs (nodesOfAttributes s.root.attributes))]) ++
    ((typesDeclared sources).1.filter fun d => d.source.file.isSome).flatMap DeclaredType.portions

theorem flatMap_bodyPortions (sources : List Source) :
    (bodyPortions sources).flatMap Portion.refs = bodyRefs sources := by
  simp only [bodyPortions, bodyRefs, List.flatMap_append, List.flatMap_assoc,
    DeclaredType.flatMap_portions, List.flatMap_singleton, Portion.own]

theorem bindBodies_encloses (hp : p.IsRead) (hle : (membersDeclared p.sources).2.comp ≤ c) :
    Encloses p c own (bodyPortions p.sources) (bindBodies p.sources) := by
  obtain ⟨-, htypes⟩ := typesDeclared_leads p.sources
  obtain ⟨hmembers, -⟩ := membersDeclared_leads Set.univ p.sources fun d _ => d.coveredIn_univ
  have hassembly {c : Compilation} (s : Source) :
      Finds Set.univ c (bindAssembly s) fun _ _ => True :=
    bindAssembly_finds s Scope.covers_univ
  have htype {c : Compilation} (hle : (membersDeclared p.sources).2.comp ≤ c) {d : DeclaredType}
      (hd : d ∈ (typesDeclared p.sources).1.filter fun d => d.source.file.isSome) :
      c.IsType d.symbol :=
    (htypes.symbol d (List.mem_filter.1 hd).1).mono (le_trans hmembers.comp hle)
  refine Encloses.bind (finds_forM fun s _ => hassembly s) (.forM (fun s _ => hassembly s)
    fun s hs => ?_) fun c₁ _ hle₁ _ => .forM (fun d hd => ?_) fun d hd => ?_
  · obtain ⟨hs, hfile⟩ := List.mem_filter.1 hs
    have hwithin : s.scope.Within p s.recordedNodes := Project.within_recordedNodes hs hfile rfl
    exact (bindAssembly_isolates hp hwithin.right.left).encloses
  · exact bindTypeBody_finds (htype (le_trans hle hle₁) hd) Scope.covers_univ
  · have hd' := htype (le_trans hle hle₁) hd
    obtain ⟨hd, hfile⟩ := List.mem_filter.1 hd
    obtain ⟨hs, hmem⟩ := exists_typesDeclared_iff.1 ⟨d, hd, rfl, rfl⟩
    have hwithin : d.scope.Within p d.source.recordedNodes :=
      Project.within_recordedNodes hs hfile rfl
    refine bindTypeBody_encloses hp hd' (hwithin.right.right.mono fun x hx => ?_)
    exact List.mem_flatMap.2 ⟨d.decl, hmem, hx⟩

namespace Project

variable {f : ConstField} {k : Nat}

theorem boundRefs_eq (p : Project) :
    boundRefs p.sources = p.constFields.flatMap ConstField.refs ++ bodyRefs p.sources := by
  rw [boundRefs, constFields]
  rfl

/-- When the members have been declared, nothing is known about expressions. -/
theorem IsRead.evaluated_zero_ready (hp : p.IsRead) : (p.evaluated 0).Ready p []
    (p.constFields.flatMap ConstField.refs ++ bodyRefs p.sources) := by
  rw [evaluated_zero, ← boundRefs_eq]
  refine
    { valid := hp.membersDeclared_leads.valid
      orderly := membersDeclared_orderly p.sources
      once := fun n hn => ?_
      symbol? := fun n _ hn => hp.symbol?_membersDeclared hn
      type? := fun n _ _ => hp.membersDeclared_introduces.type?_eq_none }
  rw [List.nil_append]
  exact hp.count_boundRefs_le hn.isSome_file

theorem IsBound.bindConstField_encloses (hp : p.IsBound) (hf : f ∈ p.constFields)
    (hle : (membersDeclared p.sources).2.comp ≤ c) :
    Encloses p c own [.own f.refs] (bindConstField f) := by
  obtain ⟨-, hwithin | ⟨hfile, hliteral⟩⟩ := hp.constField_cases (mem_constFields.1 hf)
  · exact (bindConstField_isolates hp.toIsRead ((constField_sound hf).mono hle) hwithin).encloses
  · exact (bindConstField_keeps hfile hliteral).isolates.encloses

/-- The portion of a constant field is its initial value. -/
def constPortions (fields : List ConstField) : List Portion :=
  fields.map fun f => .own f.refs

theorem flatMap_constPortions (fields : List ConstField) :
    (constPortions fields).flatMap Portion.refs = fields.flatMap ConstField.refs := by
  rw [constPortions, List.flatMap_map]
  rfl

/-- The first constant fields are bound one by one. -/
theorem IsBound.evaluated_encloses (hp : p.IsBound) (k : Nat) :
    ∃ rs : List BindState.Stretch,
      rs.map BindState.Stretch.toPortion = constPortions (p.constFields.take k) ∧
      (p.evaluated 0).Encloses p [] rs (p.evaluated k) := by
  induction k with
  | zero => exact ⟨[], rfl, .refl _⟩
  | succ k ih =>
    cases hf : p.constFields[k]? with
    | none =>
      have hk := List.getElem?_eq_none_iff.1 hf
      rw [evaluated_succ_of_le hk, List.take_of_length_le (Nat.le_succ_of_le hk)]
      rwa [List.take_of_length_le hk] at ih
    | some f =>
      obtain ⟨hk, rfl⟩ := List.getElem?_eq_some_iff.1 hf
      have hready := hp.evaluated_zero_ready.left
      rw [← List.take_append_drop (k + 1) p.constFields, List.flatMap_append] at hready
      have hready := hready.left
      rw [List.take_succ_eq_append_getElem hk] at hready ⊢
      rw [← flatMap_constPortions, constPortions, List.map_append, List.flatMap_append,
        ← constPortions] at hready
      obtain ⟨rs, hrs, hfirst⟩ := ih
      rw [← hrs, List.flatMap_map] at hready
      obtain ⟨hvalid, hle⟩ := p.evaluated_valid k
      obtain ⟨rs', hrs', hrest⟩ := hp.bindConstField_encloses (List.getElem_mem hk) hle _
        (hfirst.bound.ready hready hvalid) (le_refl _)
      rw [List.map_singleton, ← hrs', List.flatMap_map] at hready
      rw [evaluated_succ hf, constPortions, List.map_append, ← constPortions, ← hrs,
        List.map_singleton, ← hrs']
      exact ⟨rs ++ rs', List.map_append, hfirst.trans hready hrest⟩

theorem stage_length (p : Project) : p.stage p.constFields.length =
    ((bindBodies p.sources).run (p.evaluated p.constFields.length)).2 := by
  simp only [stage, List.getElem?_length]

/-- The portions in which a project is bound when its members have been declared. -/
def portions (p : Project) : List Portion :=
  constPortions p.constFields ++ bodyPortions p.sources

theorem flatMap_portions (p : Project) : p.portions.flatMap Portion.refs =
    p.constFields.flatMap ConstField.refs ++ bodyRefs p.sources := by
  rw [portions, List.flatMap_append, flatMap_constPortions, flatMap_bodyPortions]

/-- Everything has been bound in the stretches, one for each portion. -/
structure BoundIn (p : Project) (rs : List BindState.Stretch) : Prop where
  portions : rs.map BindState.Stretch.toPortion = p.portions
  encloses : (p.evaluated 0).Encloses p [] rs (p.stage p.constFields.length)

theorem IsBound.exists_boundIn (hp : p.IsBound) : ∃ rs, p.BoundIn rs := by
  have hready := hp.evaluated_zero_ready
  obtain ⟨rs, hrs, hfirst⟩ := hp.evaluated_encloses p.constFields.length
  rw [List.take_length] at hrs
  rw [← flatMap_constPortions, ← hrs, List.flatMap_map, ← flatMap_bodyPortions] at hready
  obtain ⟨hvalid, hle⟩ := p.evaluated_valid p.constFields.length
  obtain ⟨rs', hrs', hrest⟩ := bindBodies_encloses hp.toIsRead hle _
    (hfirst.bound.ready hready hvalid) (le_refl _)
  rw [← hrs', List.flatMap_map] at hready
  refine ⟨rs ++ rs', ?_, ?_⟩
  · rw [List.map_append, hrs, hrs', portions]
  · rw [stage_length]
    exact hfirst.trans hready hrest

/-- The first constant fields are bound. -/
theorem IsBound.evaluated_bound (hp : p.IsBound) (k : Nat) :
    (p.evaluated 0).Bound p (p.evaluated 0).locals []
      ((p.constFields.take k).flatMap ConstField.refs) (p.evaluated k) := by
  obtain ⟨rs, hrs, hencloses⟩ := hp.evaluated_encloses k
  have hbound := hencloses.bound
  rwa [← flatMap_constPortions, ← hrs, List.flatMap_map]

/-- Everything is bound. -/
theorem IsBound.bound (hp : p.IsBound) : (p.evaluated 0).Bound p (p.evaluated 0).locals []
    (p.constFields.flatMap ConstField.refs ++ bodyRefs p.sources)
    (p.stage p.constFields.length) := by
  obtain ⟨rs, hrs, hencloses⟩ := hp.exists_boundIn
  have hbound := hencloses.bound
  rwa [← flatMap_portions, ← hrs, List.flatMap_map]

/-- An expression with a symbol has been bound, and what was known then is what is known of it. -/
theorem IsBound.exists_runs (hp : p.IsBound) {file : Option FileId} {e : Expr} {id : SymbolId}
    (hwrites : p.Writes file e) (hid : p.facts.symbol? ⟨file, e.id⟩ = some id) :
    ∃ (scope : Scope) (t : BindState), scope.file = file ∧
      t.Runs p scope e (p.stage p.constFields.length) := by
  have hexpr : p.IsExpr ⟨file, e.id⟩ := ⟨e, hwrites, rfl⟩
  have hbound := hp.bound
  have hnone : (p.evaluated 0).facts.symbol? ⟨file, e.id⟩ = none := by
    rw [evaluated_zero]
    exact hp.symbol?_membersDeclared hexpr
  have hnew : (p.stage p.constFields.length).facts.symbol? ⟨file, e.id⟩ ≠
      (p.evaluated 0).facts.symbol? ⟨file, e.id⟩ := by
    rw [← hp.facts_eq_stage (Nat.le_refl _), hid, hnone]
    exact Option.some_ne_none id
  by_cases hmem : ⟨file, e.id⟩ ∈ p.constFields.flatMap ConstField.refs ++ bodyRefs p.sources
  · obtain ⟨scope, t, hfile, -, hruns, -⟩ := (hbound.exprs file e hwrites hmem).resolve_left hnew
    exact ⟨scope, t, hfile, hruns⟩
  · exact absurd (hbound.symbols _ hmem hexpr) hnew

end Project

end PropertyLint
