/-
# Constants are the values of expressions

When the members of all types have been declared, no symbol and no constant is recorded for an
expression (`Project.IsRead.evaluated_membersDeclared`).  What is bound then records symbols of
expressions once and constants that are right (`Project.IsBound.bindContents_records`), so in the
end each constant is the value of the expression (`Project.constant?_evaluates`).
-/
import PropertyLint.Proofs.Binding.RecordedNodes

namespace PropertyLint

open Binder

variable {nodes : Set NodeRef} {scope : Scope} {ns ns' : List SyntaxNode} {p : Project}

/-! ## Written types -/

theorem Scope.CoversTypes.mono (h : scope.CoversTypes nodes ns) (hns : ns' ⊆ ns) :
    scope.CoversTypes nodes ns' := fun t ht => h t (hns ht)

theorem nodes_subset_nodesOfTypes {t : TypeRef} {ts : List TypeRef} (ht : t ∈ ts) :
    t.nodes ⊆ nodesOfTypes ts := by
  induction ts with
  | nil => cases ht
  | cons first rest ih =>
    rw [nodesOfTypes]
    rcases List.mem_cons.1 ht with rfl | ht
    · exact List.subset_append_left _ _
    · exact List.Subset.trans (ih ht) (List.subset_append_right _ _)

theorem TypeDecl.bases_subset (t : TypeDecl) : nodesOfTypes t.header.bases ⊆ t.nodes := by
  obtain ⟨header, members⟩ := t
  rw [TypeDecl.nodes, TypeHeader.nodes]
  exact fun n hn => .tail _ (List.mem_append_left _ (List.mem_append_right _ hn))

theorem DeclaredType.coveredIn {d : DeclaredType} (h : d.scope.CoversTypes nodes d.decl.nodes) :
    d.CoveredIn nodes where
  bases base hbase := h.covers fun _ hn => d.decl.bases_subset (nodes_subset_nodesOfTypes hbase hn)
  members m hm := by
    have hown := h.mono (TypeDecl.nodesOfMembers_subset hm)
    cases m with
    | field decl =>
      refine hown.covers fun n hn => ?_
      simp [nodesOfMembers, FieldDecl.nodes, hn]
    | property decl =>
      refine hown.covers fun n hn => ?_
      simp [nodesOfMembers, PropertyDecl.nodes, hn]
    | method decl =>
      refine ⟨hown.covers fun n hn => ?_, fun q hq => hown.covers fun n hn => ?_,
        fun t ht => hown.covers fun n hn => ?_⟩
      · simp [nodesOfMembers, MethodDecl.nodes, hn]
      · have hmem : n ∈ decl.params.flatMap Parameter.nodes :=
          List.mem_flatMap.2 ⟨q, hq, by simp [Parameter.nodes, hn]⟩
        simp [nodesOfMembers, MethodDecl.nodes, -List.mem_flatMap, hmem]
      · rw [Option.mem_def] at ht
        simp [nodesOfMembers, MethodDecl.nodes, nodesOfOption, ht, hn]
    | constructor decl =>
      refine fun q hq => hown.covers fun n hn => ?_
      have hmem : n ∈ decl.params.flatMap Parameter.nodes :=
        List.mem_flatMap.2 ⟨q, hq, by simp [Parameter.nodes, hn]⟩
      simp [nodesOfMembers, ConstructorDecl.nodes, -List.mem_flatMap, hmem]
    | type _ => trivial

theorem SyntaxTree.nodes_subset {file : FileId} {text : String} {t : SyntaxTree}
    (h : parse file text = .ok t) {d : TypeDecl} (hd : d ∈ t.root.allTypes) :
    d.nodes ⊆ t.root.nodes := by
  have hholds : t.Holds (.member (.type d)) :=
    (mem_declarations_iff h).1 (List.mem_flatMap.2 ⟨d, hd, .head _⟩)
  obtain ⟨q, hq, hhas⟩ := holds_iff.1 hholds
  intro n hn
  rw [CompilationUnit.nodes_eq]
  refine List.mem_flatMap.2 ⟨q, hq, hhas.nodes_subset ?_⟩
  rw [Part.nodes, nodesOfMembers]
  exact List.mem_append_left _ hn

/-- A declaration is what is found by its identity. -/
theorem SyntaxTree.findDeclaration?_of_mem_nodes {file : FileId} {text : String} {t : SyntaxTree}
    (h : parse file text = .ok t) {m : Member} (hm : .member m ∈ t.root.nodes) :
    t.findDeclaration? m.id = some m := by
  have hmem := (member_mem_nodes_iff h).1 hm
  rw [findDeclaration?_eq]
  cases hfind : t.declarations.find? fun m' => m'.id == m.id with
  | none => exact absurd (List.find?_eq_none.1 hfind m hmem) (by simp)
  | some m' =>
    have hid : m'.id = m.id := by simpa using List.find?_some hfind
    have hm' := (member_mem_nodes_iff h).2 (List.mem_of_find?_eq_some hfind)
    rw [SyntaxNode.member.inj (eq_of_id_eq h hm' hm hid)]

/-- An own member of a type is what is found by its identity. -/
theorem SyntaxTree.findDeclaration?_of_mem {file : FileId} {text : String} {t : SyntaxTree}
    (h : parse file text = .ok t) {d : TypeDecl} (hd : d ∈ t.root.allTypes) {m : Member}
    (hm : m ∈ d.ownMembers) : t.findDeclaration? m.id = some m :=
  findDeclaration?_of_mem_nodes h
    ((member_mem_nodes_iff h).2 (List.mem_flatMap.2 ⟨d, hd, .tail _ hm⟩))

/-! ## Sources -/

namespace Project

theorem mem_sources {s : Source} (hs : s ∈ p.sources) :
    s = frameworkSource ∨ ∃ t ∈ p.trees, s = t.source := by
  rcases List.mem_cons.1 hs with rfl | hs
  · exact .inl rfl
  · obtain ⟨t, ht, rfl⟩ := List.mem_map.1 hs
    exact .inr ⟨t, ht, rfl⟩

/-- Nothing of the framework is an expression of a file. -/
theorem mem_others_of_file_eq_none {n : NodeRef} (h : n.file = none) : n ∈ p.others := by
  rintro ⟨e, ⟨t, -, hfile, -⟩, -⟩
  rw [h] at hfile
  cases hfile

theorem IsRead.coveredIn_others (hp : p.IsRead) {d : DeclaredType}
    (hd : d ∈ (typesDeclared p.sources).1) : d.CoveredIn p.others := by
  refine DeclaredType.coveredIn fun t ht => ?_
  obtain ⟨hsource, hdecl⟩ := exists_typesDeclared_iff.1 ⟨d, hd, rfl, rfl⟩
  rcases mem_sources hsource with hsource | ⟨tree, htree, hsource⟩
  · exact mem_others_of_file_eq_none (congrArg Source.file hsource)
  · have hfile : d.scope.file = some tree.file := congrArg Source.file hsource
    obtain ⟨text, htext⟩ := hp.parse tree htree
    rw [hsource] at hdecl
    have hwithin : d.scope.Within p tree.root.nodes := ⟨tree, htree, hfile, List.Subset.refl _⟩
    exact hwithin.not_isExpr hp (SyntaxTree.nodes_subset htext hdecl ht)
      fun _ => SyntaxNode.noConfusion

/-! ## When the members have been declared -/

theorem IsRead.membersDeclared_leads (hp : p.IsRead) :
    BindState.Leads p.others {} (membersDeclared p.sources).2 := by
  obtain ⟨htypes, -⟩ := typesDeclared_leads p.sources
  obtain ⟨hmembers, -⟩ := PropertyLint.membersDeclared_leads p.others p.sources
    fun _ hd => hp.coveredIn_others hd
  exact (htypes.mono (Set.empty_subset _)).trans hmembers

/-- No symbol has been recorded for an expression. -/
theorem IsRead.symbol?_membersDeclared (hp : p.IsRead) {n : NodeRef} (hn : p.IsExpr n) :
    (membersDeclared p.sources).2.facts.symbol? n = none :=
  hp.membersDeclared_leads.symbols n fun hother => hother hn

/-- No constant has been recorded for an expression or a field. -/
theorem IsRead.evaluated_membersDeclared (hp : p.IsRead) :
    (membersDeclared p.sources).2.Evaluated p := by
  refine ⟨fun r hr e hwrites hid => ?_, ?_⟩
  · have hnone : (membersDeclared p.sources).2.facts.constant? r.1 = none :=
      hp.membersDeclared_leads.constants r.1 fun hother => hother ⟨e, hwrites, hid⟩
    exact absurd (List.lookup_eq_none_iff.1 hnone r hr) (by simp)
  · rw [hp.membersDeclared_leads.fieldConstants]
    exact List.forall_mem_nil _

/-! ## Bound projects -/

/-- The project has been read, and its symbols and facts are what binding its sources has found. -/
structure IsBound (p : Project) : Prop extends p.IsRead where
  comp : p.comp = ((bindSources p.sources).run {}).2.comp.withKnown
  facts : p.facts = ((bindSources p.sources).run {}).2.facts

theorem isBound_of_read {files : List String} (h : Project.read files = .ok p) : p.IsBound := by
  have hread := isRead_of_read h
  obtain ⟨trees, markers, rfl⟩ := exists_ofTrees h
  have hsources : (ofTrees trees markers).sources =
      frameworkSource :: trees.map fun t => Source.mk (some t.file) t.root := rfl
  refine ⟨hread, ?_, ?_⟩
  · rw [hsources, ofTrees, bindTrees]
  · rw [hsources, ofTrees, bindTrees]

/-- The symbols of members are still those of the project. -/
theorem IsBound.membersDeclared_le (hp : p.IsBound) :
    (membersDeclared p.sources).2.comp ≤ p.comp := by
  rw [hp.comp]
  exact le_trans (PropertyLint.membersDeclared_le p.sources) (Compilation.le_withKnown _)

/-- The node of a source that is bound stands in its file. -/
theorem within_recordedNodes {s : Source} (hs : s ∈ p.sources) (hfile : s.file.isSome = true)
    (hscope : scope.file = s.file) : scope.Within p s.recordedNodes := by
  rcases mem_sources hs with rfl | ⟨t, ht, rfl⟩
  · cases hfile
  · exact ⟨t, ht, hscope, t.source.recordedNodes_subperm.subset⟩

variable {f : ConstField}

/-- A constant field of a file starts with what is written in the file. -/
theorem IsBound.constField_source (hp : p.IsBound) {t : SyntaxTree} (ht : t ∈ p.trees)
    {d : DeclaredType} (hsource : d.source = t.source) (hmem : d.decl ∈ t.root.allTypes)
    {decl : FieldDecl} (hdecl : decl ∈ d.decl.constFields) (hfor : ConstField.For p.comp d decl f) :
    p.HasInitialValue f.symbol f.scope.file f.init ∧ f.scope.Within p f.init.nodes := by
  have hfile : f.scope.file = some t.file := hfor.file.trans (congrArg Source.file hsource)
  obtain ⟨hfield, -, -⟩ := TypeDecl.mem_constFields_iff.1 hdecl
  obtain ⟨symbol, hsymbol, -, hconst, hplace⟩ := hfor.symbol
  obtain ⟨text, htext⟩ := hp.parse t ht
  refine ⟨?_, t, ht, hfile, t.source.nodes_subset_of_mem_constFields hmem hdecl hfor.init⟩
  have hget := hp.getElem?_file ht
  rw [Scope.sourceRef, ← hfor.scope, hfile] at hplace
  have hown : Member.field decl ∈ d.decl.ownMembers := List.mem_filter.2 ⟨hfield, rfl⟩
  rw [hfile]
  exact .source hsymbol hconst hplace hget (SyntaxTree.findDeclaration?_of_mem htext hmem hown)
    hfor.init

/-- A constant field of the framework starts with the one literal that the framework has. -/
theorem constField_framework {d : DeclaredType} (hsource : d.source = frameworkSource)
    (hmem : d.decl ∈ Framework.declarations.allTypes) {decl : FieldDecl}
    (hdecl : decl ∈ d.decl.constFields) (hfor : ConstField.For p.comp d decl f) :
    p.HasInitialValue f.symbol f.scope.file f.init ∧ f.scope.file = none ∧
      f.init = .literal Framework.nowhere (.integer 2147483647) := by
  have hfile : d.scope.file = none := congrArg Source.file hsource
  obtain ⟨hfield, hisConst, -⟩ := TypeDecl.mem_constFields_iff.1 hdecl
  obtain ⟨symbol, hsymbol, hname, hconst, hplace⟩ := hfor.symbol
  rw [Scope.sourceRef, hfile, Option.map_none] at hplace
  rw [← hfor.scope] at hfile
  refine ⟨?_, hfile, eq_of_framework_constant hmem hfield hisConst hfor.init⟩
  rw [hfile]
  exact .framework hsymbol hconst hplace hmem hfield hisConst hname.symm hfor.init

/-- A constant field has its initial value, which is written in a file or by the framework. -/
theorem IsBound.constField_cases (hp : p.IsBound) (hf : f ∈ (membersDeclared p.sources).1) :
    p.HasInitialValue f.symbol f.scope.file f.init ∧
      (f.scope.Within p f.init.nodes ∨
        f.scope.file = none ∧ f.init = .literal Framework.nowhere (.integer 2147483647)) := by
  obtain ⟨d, hd, decl, hdecl, hfor⟩ := exists_of_mem_constFields hf
  have hfor := hfor.mono hp.membersDeclared_le
  obtain ⟨hs, hmem⟩ := exists_typesDeclared_iff.1 ⟨d, hd, rfl, rfl⟩
  rcases mem_sources hs with hsource | ⟨t, ht, hsource⟩
  · rw [hsource] at hmem
    exact (constField_framework hsource hmem hdecl hfor).imp_right .inr
  · rw [hsource] at hmem
    exact (hp.constField_source ht hsource hmem hdecl hfor).imp_right .inl

theorem IsBound.constField_records (hp : p.IsBound) (hf : f ∈ (membersDeclared p.sources).1) :
    Records p True (f.scope.refs f.init.nodes) (bindConstField f) fun _ => [] := by
  obtain ⟨hinit, hwithin | ⟨hfile, hliteral⟩⟩ := hp.constField_cases hf
  · exact bindConstField_records_written hp.toIsRead hinit hwithin
  · exact bindConstField_records_framework hinit hfile hliteral

/-- What is bound after the constant fields. -/
theorem IsBound.bindBodies_records (hp : p.IsBound) :
    Records p True (bodyRefs p.sources) (bindBodies p.sources) fun _ => [] := by
  have hread := hp.toIsRead
  refine (forM_records fun s hs => ?_).next fun _ => forM_records fun d hd => ?_
  · obtain ⟨hs, hfile⟩ := List.mem_filter.1 hs
    have hwithin : s.scope.Within p s.recordedNodes := within_recordedNodes hs hfile rfl
    exact bindAssembly_records hread s hwithin.right.left
  · obtain ⟨hd, hfile⟩ := List.mem_filter.1 hd
    obtain ⟨hs, hmem⟩ := exists_typesDeclared_iff.1 ⟨d, hd, rfl, rfl⟩
    have hwithin : d.scope.Within p d.source.recordedNodes := within_recordedNodes hs hfile rfl
    refine bindTypeBody_records hread d (hwithin.right.right.mono fun n hn => ?_)
    exact List.mem_flatMap.2 ⟨d.decl, hmem, hn⟩

/-- No expression gets a symbol twice, and constants that are recorded are right. -/
theorem IsBound.bindContents_records (hp : p.IsBound) :
    Records p True (boundRefs p.sources) (bindContents p.sources) fun _ => [] :=
  (forM_records fun _ hf => hp.constField_records hf).next fun _ => hp.bindBodies_records

/-! ## When everything has been bound -/

/-- A key that occurs once is found with its value. -/
theorem lookup_append_of_count_le {α β : Type} [BEq α] [LawfulBEq α] {new rest : List (α × β)}
    {r : α × β} (hr : r ∈ new) (hcount : (new.map Prod.fst).count r.1 ≤ 1) :
    (new ++ rest).lookup r.1 = some r.2 := by
  induction new with
  | nil => cases hr
  | cons x new ih =>
    rw [List.map_cons, List.count_cons] at hcount
    rcases List.mem_cons.1 hr with rfl | hr
    · exact List.lookup_cons_self
    · have hmem : r.1 ∈ new.map Prod.fst := List.mem_map_of_mem hr
      have hpos := List.count_pos_iff.2 hmem
      have hne : (x.1 == r.1) = false := by
        cases heq : x.1 == r.1 with
        | false => rfl
        | true =>
          rw [heq, if_pos rfl] at hcount
          omega
      have hne' : (r.1 == x.1) = false := by rwa [BEq.comm]
      rw [List.cons_append, List.lookup_cons, hne']
      exact ih hr (by rw [hne] at hcount; simpa using hcount)

/-- The symbols of expressions are those that were recorded for them. -/
theorem IsBound.follows (hp : p.IsBound) :
    ((bindContents p.sources).run (membersDeclared p.sources).2).2.Follows p := by
  obtain ⟨new, hnew, hmost, -, -⟩ := hp.bindContents_records (membersDeclared p.sources).2
  intro r hr hexpr
  rw [hnew] at hr
  have hnone := List.lookup_eq_none_iff.1 (hp.symbol?_membersDeclared hexpr)
  rcases List.mem_append.1 hr with hr | hr
  · have hcount := (hmost r.1 hexpr).trans (hp.count_boundRefs_le hexpr.isSome_file)
    rw [hp.facts, ← bindContents_run, Facts.symbol?, hnew]
    exact lookup_append_of_count_le hr hcount
  · exact absurd (hnone r hr) (by simp)

/-- All constants are values. -/
theorem IsBound.isWorth (hp : p.IsBound) {n : NodeRef} {v : Constant}
    (hv : p.facts.constant? n = some v) : p.IsWorth n v := by
  obtain ⟨new, -, -, -, heval⟩ := hp.bindContents_records (membersDeclared p.sources).2
  obtain ⟨hworth, -⟩ := heval trivial hp.follows hp.evaluated_membersDeclared
  rw [bindContents_run, ← hp.facts] at hworth
  exact hworth _ (mem_of_lookup hv)

/-! ## Plain values -/

/-- What one step of a loop adds is known after the loop. -/
theorem mem_constants_forM {α : Type} {as : List α} {step : α → Binder Unit}
    {ms : α → List NodeRef} {given : Prop}
    (hrecords : ∀ a ∈ as, Records p given (ms a) (step a) fun _ => []) {a : α} (ha : a ∈ as)
    {r : NodeRef × Constant} (hr : ∀ s, r ∈ ((step a).run s).2.facts.constants) (s : BindState) :
    r ∈ ((as.forM step).run s).2.facts.constants := by
  induction as generalizing s with
  | nil => cases ha
  | cons b as ih =>
    have hrest : ∀ a ∈ as, Records p given (ms a) (step a) fun _ => [] :=
      fun a ha => hrecords a (.tail _ ha)
    rcases List.mem_cons.1 ha with rfl | ha
    · obtain ⟨new, -, -, hconstants, -⟩ := forM_records hrest ((step a).run s).2
      exact hconstants.subset (hr s)
    · exact ih hrest ha _

theorem mem_constantsBound {sources : List Source} {ms : ConstField → List NodeRef} {given : Prop}
    (hrecords : ∀ f ∈ (membersDeclared sources).1,
      Records p given (ms f) (bindConstField f) fun _ => [])
    (hf : f ∈ (membersDeclared sources).1) {r : NodeRef × Constant}
    (hr : ∀ s, r ∈ ((bindConstField f).run s).2.facts.constants) :
    r ∈ (constantsBound sources).facts.constants :=
  mem_constants_forM hrecords hf hr _

/-- A value that is put together from literals is known as a constant where a constant field starts
with it. -/
theorem IsBound.constant?_of_plainValue (hp : p.IsBound) {t : SyntaxTree} (ht : t ∈ p.trees)
    {type : TypeDecl} (htype : type ∈ t.root.allTypes) {decl : FieldDecl}
    (hdecl : decl ∈ type.constFields) {e : Expr} {v : Constant} (hinit : decl.init = some e)
    (hv : e.plainValue? = some v) :
    .expr e ∈ t.root.nodes ∧ p.facts.constant? ⟨some t.file, e.id⟩ = some v := by
  have hnode : .expr e ∈ t.root.nodes :=
    t.source.nodes_subset_of_mem_constFields htype hdecl hinit (Expr.mem_nodes _)
  have hsource : t.source ∈ p.sources := .tail _ (List.mem_map_of_mem ht)
  obtain ⟨d, hd, hdsource, rfl⟩ := exists_typesDeclared_iff.2 ⟨hsource, htype⟩
  obtain ⟨f, hf, hfor⟩ := exists_constField hd hdecl
  obtain rfl : f.init = e := Option.some.inj (hfor.init.symm.trans hinit)
  have hfile : f.scope.file = some t.file := hfor.file.trans (congrArg Source.file hdsource)
  -- the field adds the constant, and what is bound later leaves it
  have hmem : (⟨some t.file, f.init.id⟩, v) ∈ p.facts.constants := by
    have hfield := mem_constantsBound (fun _ hg => hp.constField_records hg) hf
      (ConstField.mem_constants hv)
    obtain ⟨new, -, -, hconstants, -⟩ := hp.bindBodies_records (constantsBound p.sources)
    rw [hp.facts, ← bindBodies_run, ← hfile]
    exact hconstants.subset hfield
  cases hknown : p.facts.constant? ⟨some t.file, f.init.id⟩ with
  | some v' =>
    have hvalue := hp.isWorth hknown f.init ⟨t, ht, rfl, hnode⟩ rfl
    exact ⟨hnode, congrArg some (hvalue.unique (.plain hv))⟩
  | none => exact absurd (List.lookup_eq_none_iff.1 hknown _ hmem) (by simp)

/-- **Constants.**  A constant that is known for an expression of a file is the value of the
expression, and the only one.  Integers are greater than the least integer, so their negation is an
integer again. -/
theorem constant?_evaluates {files : List String} {file : FileId} {m : Model} {e : Expr}
    {v : Constant} (hread : Project.read files = .ok p) (hmodel : p.model? file = some m)
    (he : .expr e ∈ m.tree.root.nodes) (hv : m.constant? e.id = some v) :
    p.Evaluates (some file) e v ∧ (∀ v', p.Evaluates (some file) e v' → v' = v) ∧
      ∀ value, v = .integer value → minInteger < value ∧ value ≤ maxInteger := by
  have hp := isBound_of_read hread
  obtain ⟨t, ht, rfl⟩ := Option.map_eq_some_iff.1 hmodel
  have hfile : t.file = file := hp.file ht
  have hwrites : p.Writes (some file) e :=
    ⟨t, List.mem_of_getElem? ht, by rw [hfile], he⟩
  have hevaluates : p.Evaluates (some file) e v := by
    subst hfile
    exact hp.isWorth hv e hwrites rfl
  exact ⟨hevaluates, fun v' hv' => hv'.unique hevaluates,
    hevaluates.integer_bounds hp.toIsRead (.inl hwrites)⟩

/-- A class with a negative constant. -/
def negated : String := "class A \x7b const int Low = -(7); \x7d"

/-- The minus sign in front of the parentheses is known as a constant. -/
theorem constant?_evaluates_negated : ∃ p m e, Project.read [negated] = .ok p ∧
    p.model? 0 = some m ∧ .expr e ∈ m.tree.root.nodes ∧
    m.constant? e.id = some (.integer (-7)) ∧ p.Evaluates (some 0) e (.integer (-7)) ∧
    (∀ v', p.Evaluates (some 0) e v' → v' = .integer (-7)) ∧
    ∀ value, Constant.integer (-7) = .integer value → minInteger < value ∧ value ≤ maxInteger := by
  have hread : (((SyntaxTree.parse 0 (stripMarkers negated).1).toOption.map fun t =>
      t.root.allTypes.flatMap fun d => d.constFields.map fun c => c.init.bind Expr.plainValue?) =
        some [some (.integer (-7))]) := by decide +kernel
  obtain ⟨t, ht, hfields⟩ := Option.map_eq_some_iff.1 hread
  rw [toOption_eq_some_iff] at ht
  have hp := read_singleton ht
  -- the negation is the initial value of the constant field
  obtain ⟨type, htype, hmem⟩ := List.mem_flatMap.1 (hfields ▸ List.mem_singleton_self _)
  obtain ⟨decl, hdecl, hinit⟩ := List.mem_map.1 hmem
  obtain ⟨e, hinit, hvalue⟩ := Option.bind_eq_some_iff.1 hinit
  obtain ⟨he, hv⟩ := (isBound_of_read hp).constant?_of_plainValue (.head _) htype hdecl hinit hvalue
  have hmodel : (ofTrees [t] [(stripMarkers negated).2]).model? 0 =
      some ⟨ofTrees [t] [(stripMarkers negated).2], t⟩ := rfl
  have hconstant : Model.constant? ⟨ofTrees [t] [(stripMarkers negated).2], t⟩ e.id =
      some (.integer (-7)) := hv
  exact ⟨_, _, e, hp, hmodel, he, hconstant, constant?_evaluates hp hmodel he hconstant⟩

end Project

end PropertyLint
