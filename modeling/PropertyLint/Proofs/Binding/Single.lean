/-
# Projects whose last file has one type

The last type of a project gets the next number, and declaring the contents of the other types
leaves its symbol and what it declares alone (`membersDeclared_concat`).  So the symbols of a small
file are known although the framework is declared in front of it, and so is what a name in it is
bound to (`bindExpr_local_run`).
-/
import PropertyLint.Proofs.Binding.BoundBodies

namespace PropertyLint

open Binder Compilation

variable {sources : List Source} {source : Source} {d : DeclaredType} {header : TypeHeader}
  {members : List Member} {file : FileId} {s s' : BindState} {id : SymbolId} {α β : Type}

/-! ## Types -/

theorem declareNested_eq_nil (hmembers : ∀ m ∈ members, m.isType = false) (owner : SymbolId) :
    declareNested source owner members = pure [] := by
  induction members with
  | nil => rfl
  | cons m ms ih =>
    have hm := hmembers m (.head _)
    have ih := ih fun m' hm' => hmembers m' (.tail _ hm')
    cases m with
    | type _ => cases hm
    | _ => exact ih

/-- A type without type parameters and nested types that is not partial gets the next number. -/
theorem declareType_run (hfile : source.file = some file) (hparams : header.typeParams = [])
    (hpartial : header.modifiers.has .partial_ = false)
    (hmembers : ∀ m ∈ members, m.isType = false) (s : BindState) :
    ∃ s', (declareType source none (.mk header members)).run s =
        ([⟨source, .mk header members, s.comp.symbols.size⟩], s') ∧
      s.comp.Grows {s.comp.symbols.size} s'.comp ∧
      s'.comp.type? s.comp.symbols.size = some { typeSymbolOf none header with
        declarations := [⟨file, header.node.id, header.node.range⟩] } := by
  have hplace : source.scope.sourceRef header.node =
      some ⟨file, header.node.id, header.node.range⟩ := by
    simp only [Source.scope, Scope.sourceRef, hfile, Option.map_some]
  have hearlier (c : Compilation) : earlierPart? c none header = none := by
    rw [earlierPart?, hpartial, if_neg Bool.false_ne_true]
  have hrun : (declareType source none (.mk header members)).run s =
      ([⟨source, .mk header members, s.comp.symbols.size⟩],
        { s with
          comp := ((s.comp.add (.type (typeSymbolOf none header))).2.register
            s.comp.symbols.size).modifyType s.comp.symbols.size fun t =>
              { t with declarations :=
                  t.declarations ++ [⟨file, header.node.id, header.node.range⟩] }
          facts := s.facts.addDeclared ⟨source.scope.file, header.node.id⟩ s.comp.symbols.size }) := by
    simp only [declareType, declareHeader, createType, hearlier, hparams, addTypeParams, hplace,
      declareNested_eq_nil hmembers]
    rfl
  have hadd : s.comp.Grows {s.comp.symbols.size} (s.comp.add (.type (typeSymbolOf none header))).2 :=
    grows_add _ _
  have htype : ((s.comp.add (.type (typeSymbolOf none header))).2.register
      s.comp.symbols.size).type? s.comp.symbols.size = some (typeSymbolOf none header) :=
    type?_add_size _
  refine ⟨_, hrun, (hadd.trans (grows_register _ _)).trans
    (grows_modifyType (Set.mem_singleton _) fun _ => rfl), ?_⟩
  exact (type?_modifyType _ _ htype).trans (congrArg some (if_pos rfl))

/-- The only type of the last file is declared last. -/
theorem typesDeclared_concat {decl : TypeDecl} (htypes : source.root.types = [decl])
    (sources : List Source) :
    typesDeclared (sources ++ [source]) =
      let last := (declareType source none decl).run (typesDeclared sources).2
      ((typesDeclared sources).1 ++ last.1, last.2) := by
  have hsteps : declareTypes (sources ++ [source]) = do
      let before ← sources.mapM fun source => source.root.types.mapM (declareType source none)
      let last ← declareType source none decl
      return (before ++ [[last]]).flatten.flatten := by
    simp only [declareTypes, List.mapM_append, List.mapM_cons, List.mapM_nil, bind_assoc, pure_bind,
      htypes]
  rw [typesDeclared, hsteps]
  simp only [List.flatten_append, List.flatten_cons, List.flatten_nil, List.append_nil]
  rfl

/-! ## Members -/

/-- The contents of the last type are declared behind those of the other types. -/
theorem declareAll_concat (types : List DeclaredType) (d : DeclaredType) (s : BindState) :
    ((declareAll (types ++ [d])).run s).2 =
      ((addImplicit d).run ((types.forM addImplicit).run ((declareContents d).run
        ((types.mapM declareContents).run s).2).2).2).2 := by
  have hsteps : declareAll (types ++ [d]) = do
      let before ← types.mapM declareContents
      let last ← declareContents d
      types.forM addImplicit
      addImplicit d
      return (before ++ [last]).flatten := by
    simp only [declareAll, List.mapM_append, List.mapM_cons, List.mapM_nil, bind_assoc, pure_bind,
      List.forM_eq_forM, List.forM_append, List.forM_cons, List.forM_nil]
  rw [hsteps]
  rfl

/-- The last type gets the next number.  Its symbol is there before its contents are declared, and
what is declared of it is there before it gets what is not written. -/
theorem membersDeclared_concat (htypes : source.root.types = [.mk header members])
    (hfile : source.file = some file) (hparams : header.typeParams = [])
    (hpartial : header.modifiers.has .partial_ = false)
    (hmembers : ∀ m ∈ members, m.isType = false) (sources : List Source) :
    ∃ (d : DeclaredType) (s s' : BindState),
      d = ⟨source, .mk header members, (typesDeclared sources).2.comp.symbols.size⟩ ∧
      (typesDeclared (sources ++ [source])).1 = (typesDeclared sources).1 ++ [d] ∧
      (typesDeclared sources).2.comp.Grows Set.univ s.comp ∧
      s.comp.type? d.symbol = some { typeSymbolOf none header with
        declarations := [⟨file, header.node.id, header.node.range⟩] } ∧
      ((declareContents d).run s).2.comp.Grows {id | id < d.symbol} s'.comp ∧
      (membersDeclared (sources ++ [source])).2 = ((addImplicit d).run s').2 := by
  obtain ⟨s₁, hdeclare, hgrow₁, howner⟩ :=
    declareType_run hfile hparams hpartial hmembers (typesDeclared sources).2
  have hconcat := typesDeclared_concat htypes sources
  obtain ⟨horderly, -, -⟩ := declareTypes_orders (sources ++ [source]) {} .empty (le_refl _)
  replace horderly : (typesDeclared (sources ++ [source])).2.comp.Orderly := horderly
  obtain ⟨-, hfor⟩ := typesDeclared_leads sources
  rw [membersDeclared, hconcat]
  rw [hconcat] at horderly
  rw [hdeclare] at horderly ⊢
  have hbefore : ∀ d ∈ (typesDeclared sources).1,
      d.symbol ∈ {id | id < (typesDeclared sources).2.comp.symbols.size} :=
    fun d hd => (hfor.symbol d hd).has
  generalize typesDeclared sources = before at *
  obtain ⟨types, s₀⟩ := before
  dsimp only at *
  obtain ⟨horderly₂, hgrow₂, -⟩ := Orders.mapM (fun d hd _ _ => declareContents_orders (hbefore d hd))
    s₁ horderly (le_refl _)
  refine ⟨_, ((types.mapM declareContents).run s₁).2, _, rfl, rfl,
    (hgrow₁.mono (Set.subset_univ _)).trans (hgrow₂.mono (Set.subset_univ _)),
    hgrow₂.type? howner (Nat.lt_irrefl _), ?_, declareAll_concat types _ s₁⟩
  obtain ⟨horderly₃, -, -⟩ := declareContents_orders (Set.mem_univ _) _ horderly₂ (le_refl _)
  obtain ⟨-, hgrow₄, -⟩ := Orders.forM (fun d hd _ _ => addImplicit_orders (hbefore d hd))
    _ horderly₃ (le_refl _)
  exact hgrow₄

/-- An interface has no base and no constructor that are not written. -/
theorem addImplicit_run_of_interface {t : TypeSymbol} (ht : s.comp.type? d.symbol = some t)
    (hkind : t.kind = .interface) : (addImplicit d).run s = ((), s) := by
  have hbase : implicitBaseName? s.comp d.symbol t = none := by
    simp only [implicitBaseName?, hkind, ite_self]
  have hconstructor : needsConstructor s.comp t = false := by
    rw [needsConstructor, hkind]
    rfl
  unfold addImplicit
  rw [bind_run (show Binder.comp.run s = (s.comp, s) from rfl)]
  simp only [ht, hbase, Option.bind_none, hconstructor]
  rfl

/-! ## Bodies -/

/-- Of a single file without attributes of the assembly only the type is bound. -/
theorem bindBodies_concat (hfile : source.file = some file)
    (hattributes : source.root.attributes = [])
    (htypes : (typesDeclared (sources ++ [source])).1 = (typesDeclared sources).1 ++ [d])
    (hd : d.source = source) (hsources : ∀ s ∈ sources, s.file = none) (s : BindState) :
    ((bindBodies (sources ++ [source])).run s).2 = ((bindTypeBody d).run s).2 := by
  have hfiles : (sources ++ [source]).filter (fun s => s.file.isSome) = [source] := by
    rw [List.filter_append, List.filter_eq_nil_iff.2 fun s hs => by simp [hsources s hs]]
    simp [hfile]
  have hown : ((typesDeclared (sources ++ [source])).1.filter fun d => d.source.file.isSome) =
      [d] := by
    rw [htypes, List.filter_append, List.filter_eq_nil_iff.2 fun d' hd' => ?_]
    · simp [hd, hfile]
    · obtain ⟨hmem, -⟩ := exists_typesDeclared_iff.1 ⟨d', hd', rfl, rfl⟩
      simp [hsources _ hmem]
  have hassembly : (bindAssembly source).run s = ((), s) := by
    rw [bindAssembly, hattributes]
    rfl
  simp only [bindBodies, hfiles, hown, List.forM_eq_forM, List.forM_cons, List.forM_nil, bind_assoc,
    bind_run hassembly, pure_bind]
  rfl

/-! ## Methods -/

/-- A keyword stands for the type with its full name. -/
theorem resolveType_keyword_run (scope : Scope) (node : Node) (k : KeywordType) (s : BindState) :
    ∃ facts, (resolveType scope (.keyword node k)).run s =
      (s.comp.typeNamed? k.metadataName, { s with facts }) := by
  have hrun : (resolveType scope (.keyword node k)).run s =
      (recordResolved scope node (s.comp.typeNamed? k.metadataName)).run s := by
    rw [resolveType]
    rfl
  rw [hrun]
  cases s.comp.typeNamed? k.metadataName with
  | some t => exact ⟨_, rfl⟩
  | none => exact ⟨s.facts, rfl⟩

/-- A method of one parameter with keywords as types gets a symbol, and so does its parameter. -/
theorem declareMethod_run {method : MethodDecl} {q : Parameter} {k k' : KeywordType}
    {node node' : Node} {t : TypeSymbol} (htypeParams : method.typeParams = [])
    (hreturn : method.returnType = .keyword node k) (hparams : method.params = [q])
    (hparam : q.type = .keyword node' k') (hinterface : method.interface = none)
    (ht : s.comp.type? d.symbol = some t) :
    ∃ (M Q : SymbolId) (m : MethodSymbol) (q' : ParameterSymbol) (c' : Compilation),
      ((declareMethod d method).run s).2.comp = c' ∧ s.comp.Grows {d.symbol} c' ∧
      c'.type? d.symbol = some { t with members := t.members ++ [M] } ∧
      (s.comp.symbols.size ≤ M ∧ c'.symbol? M = some (.method m)) ∧
      (s.comp.symbols.size ≤ Q ∧ c'.symbol? Q = some (.parameter q')) ∧
      m.name = method.name.text ∧ m.params = [Q] ∧ q'.name = q.name.text ∧ q'.ordinal = 0 ∧
      q'.type = s.comp.typeNamed? k'.metadataName := by
  obtain ⟨facts, hfirst⟩ :=
    resolveType_keyword_run { d.scope with methodTypeParams := [] } node k s
  obtain ⟨facts', hsecond⟩ :=
    resolveType_keyword_run { d.scope with methodTypeParams := [] } node' k' { s with facts }
  have hobject : (knownType? .object).run s = (s.comp.typeNamed? _, s) := rfl
  have hcomp : ∃ (m : MethodSymbol) (q' : ParameterSymbol),
      ((declareMethod d method).run s).2.comp =
        (let c := (s.comp.add (.parameter q')).2
        (c.add (.method m)).2.modifyType d.symbol fun t =>
          { t with members := t.members ++ [c.symbols.size] }) ∧
      m.name = method.name.text ∧ m.params = [s.comp.symbols.size] ∧ q'.name = q.name.text ∧
      q'.ordinal = 0 ∧ q'.type = s.comp.typeNamed? k'.metadataName := by
    simp only [declareMethod, htypeParams, hreturn, hparams, hinterface, addMethodTypeParams,
      declareParams, hparam, bind_run hobject, pure_bind, bind_run hfirst, bind_assoc,
      bind_run hsecond]
    exact ⟨_, _, rfl, rfl, rfl, rfl, rfl, rfl⟩
  obtain ⟨m, q', hcomp, hm, hids, hq⟩ := hcomp
  set c := (s.comp.add (.parameter q')).2 with hc
  have hadd : s.comp.Grows {d.symbol} c := grows_add _ _
  have hadd' : c.Grows {d.symbol} (c.add (.method m)).2 := grows_add _ _
  have hmodify : (c.add (.method m)).2.Grows {d.symbol}
      ((c.add (.method m)).2.modifyType d.symbol fun t =>
        { t with members := t.members ++ [c.symbols.size] }) :=
    grows_modifyType (Set.mem_singleton _) fun _ => rfl
  have hlt : d.symbol < s.comp.symbols.size := lt_of_type?_eq_some ht
  have hsize : s.comp.symbols.size < c.symbols.size := has_of_symbol? (symbol?_add_size _)
  -- the new symbols are none of the old ones
  have hQ : c.symbol? s.comp.symbols.size = some (.parameter q') := symbol?_add_size _
  have hM : (c.add (.method m)).2.symbol? c.symbols.size = some (.method m) := symbol?_add_size _
  have howner : (c.add (.method m)).2.type? d.symbol = some t := by
    rw [type?_add_of_lt _ (Nat.lt_trans hlt hsize), hc, type?_add_of_lt _ hlt, ht]
  refine ⟨c.symbols.size, s.comp.symbols.size, m, q', _, hcomp, (hadd.trans hadd').trans hmodify,
    (type?_modifyType _ _ howner).trans (congrArg some (if_pos rfl)),
    ⟨Nat.le_of_lt hsize, hmodify.symbol? hM ?_⟩,
    ⟨Nat.le_refl _, hmodify.symbol? (hadd'.symbol? hQ ?_) ?_⟩, hm, hids, hq⟩
  · exact (Nat.ne_of_lt (Nat.lt_trans hlt hsize)).symm
  · exact (Nat.ne_of_lt hlt).symm
  · exact (Nat.ne_of_lt hlt).symm

/-! ## Locals -/

/-- A value may be recorded with its type, and nothing else. -/
theorem recordMeaning_value_run (scope : Scope) (node : Node) (found : Option SymbolId)
    (s : BindState) : ∃ facts,
      (recordMeaning scope node (.value found)).run s = (.value found, { s with facts }) ∧
        facts.symbols = s.facts.symbols := by
  cases found with
  | some t => exact ⟨_, rfl, rfl⟩
  | none => exact ⟨s.facts, rfl, rfl⟩

/-- A local of a keyword's type that starts with a number gets the next symbol. -/
theorem bindLocal_run (scope : Scope) (node node' node'' : Node) (k : KeywordType) (name : Ident)
    (v : Nat) (s : BindState) : ∃ (s' : BindState) (type : Option SymbolId),
      (bindLocal scope node (.keyword node' k) name (some (.literal node'' (.integer v)))).run s =
        ((), s') ∧
      s'.comp = (s.comp.add (.localVar ⟨name.text, type, scope.sourceRef node⟩)).2 ∧
      s'.locals = (name.text, s.comp.symbols.size) :: s.locals := by
  have hliteral : (bindExpr scope (.literal node'' (.integer v))).run s =
      (recordMeaning scope node'' (.value (s.comp.typeNamed? KeywordType.int.metadataName))).run
        { s with facts := s.facts.addConstant ⟨scope.file, node''.id⟩ (.integer v) } := by
    rw [bindExpr]
    rfl
  obtain ⟨facts, hmeaning, -⟩ := recordMeaning_value_run scope node''
    (s.comp.typeNamed? KeywordType.int.metadataName)
    { s with facts := s.facts.addConstant ⟨scope.file, node''.id⟩ (.integer v) }
  have hvalue : (bindValue scope (.literal node'' (.integer v))).run s =
      (s.comp.typeNamed? KeywordType.int.metadataName, { s with facts }) := by
    rw [bindValue, bind_run (hliteral.trans hmeaning)]
    rfl
  obtain ⟨facts', htype⟩ := resolveType_keyword_run scope node' k { s with facts }
  unfold bindLocal
  dsimp only
  rw [bind_run hvalue, if_neg (by simp [TypeRef.isVar]), bind_run htype]
  exact ⟨_, _, rfl, rfl, rfl⟩

/-- A name of a local in scope gets its symbol. -/
theorem bindExpr_local_run (scope : Scope) (node : Node) (name : Ident) {s : BindState}
    (h : s.locals.lookup name.text = some id) :
    ((bindExpr scope (.identifier node name)).run s).2.comp = s.comp ∧
      ((bindExpr scope (.identifier node name)).run s).2.facts.symbol? ⟨scope.file, node.id⟩ =
        some id := by
  have hname : (bindIdentifier scope node name.text).run s = (.value (s.comp.valueType? id),
      { s with facts := s.facts.addSymbol ⟨scope.file, node.id⟩ id }) := by
    unfold bindIdentifier
    rw [bind_run (show (get : Binder BindState).run s = (s, s) from rfl), h]
    rfl
  obtain ⟨facts, hmeaning, hsymbols⟩ := recordMeaning_value_run scope node (s.comp.valueType? id)
    { s with facts := s.facts.addSymbol ⟨scope.file, node.id⟩ id }
  rw [bindExpr, bind_run hname, hmeaning]
  refine ⟨rfl, ?_⟩
  rw [Facts.symbol?, hsymbols]
  exact List.lookup_cons_self

/-- Of a method without parameters whose body is a block only the statements are bound. -/
theorem bindMemberBody_block_run {method : MethodDecl} {block : Block Stmt}
    (hattributes : method.attributes = []) (hparams : method.params = [])
    (hbody : method.body = ⟨some block, none⟩) (scope : Scope) (s : BindState) :
    ∃ typeParams, (bindMemberBody scope (.method method)).run s =
      ((), { ((bindStmts { scope with methodTypeParams := typeParams } block.statements).run
        { s with locals := [] }).2 with locals := s.locals }) := by
  refine ⟨(s.methodTypeParams.lookup ⟨scope.file, method.node.id⟩).getD [], ?_⟩
  have hattributes : (Member.method method).attributes = [] := hattributes
  unfold bindMemberBody
  simp only [hattributes, hparams, hbody]
  rfl

end PropertyLint
