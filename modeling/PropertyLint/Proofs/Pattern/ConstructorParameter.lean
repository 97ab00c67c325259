/-
# The constructor parameter of a property

A property gets its value from a parameter if all assignments of a parameter to it, or to the field
that its getter returns, are from parameters of one name.  The assignments are found at any depth in
the code of the constructors, but not in the default values of their parameters
(`Project.constructorParameter?_eq_some_iff`).  The answer depends on the set of the names only, so it
does not matter in which order the constructors and the assignments stand.
-/
import PropertyLint.Pattern.MarkupExtension
import PropertyLint.Proofs.Binding.Inverse
import PropertyLint.Proofs.Syntax.Code

namespace PropertyLint

/-! ## Texts that agree -/

namespace Model

variable {texts texts' : List String} {text : String}

/-- There is an answer if the texts are all the same and there is one. -/
theorem uniqueText?_eq_some_iff : uniqueText? texts = some text ↔ {t | t ∈ texts} = {text} := by
  rw [Set.eq_singleton_iff_unique_mem]
  cases texts with
  | nil => exact iff_of_false nofun fun h => nomatch h.1
  | cons first rest =>
    have hall : rest.all (· == first) = true ↔ ∀ t ∈ rest, t = first := by
      simp only [List.all_eq_true, beq_iff_eq]
    rw [uniqueText?, Option.ite_none_right_eq_some, hall]
    constructor
    · rintro ⟨h, heq⟩
      obtain rfl := Option.some.inj heq
      exact ⟨.head _, List.forall_mem_cons.2 ⟨rfl, h⟩⟩
    · rintro ⟨-, h⟩
      obtain ⟨rfl, h⟩ := List.forall_mem_cons.1 h
      exact ⟨h, rfl⟩

theorem uniqueText?_congr (h : ∀ t, t ∈ texts ↔ t ∈ texts') :
    uniqueText? texts = uniqueText? texts' := by
  ext text
  have hset : {t | t ∈ texts} = {t | t ∈ texts'} := Set.ext h
  rw [uniqueText?_eq_some_iff, uniqueText?_eq_some_iff, hset]

end Model

/-! ## Plain getters -/

/-- The getter of the property returns the expression and does nothing else. -/
inductive PropertyDecl.Returns (p : PropertyDecl) (e : Expr) : Prop where
  | arrow : p.arrow = some e → Returns p e
  | getterArrow {a : Accessor} : p.arrow = none → p.getter? = some a → a.body.arrow = some e →
      Returns p e
  | getterBlock {a : Accessor} {b : Block Stmt} {n : Node} : p.arrow = none →
      p.getter? = some a → a.body.arrow = none → a.body.block = some b →
      b.statements = [.returning n (some e)] → Returns p e

theorem Compilation.symbol?_of_parameter? (c : Compilation) {id : SymbolId} {q : ParameterSymbol}
    (h : c.parameter? id = some q) : c.symbol? id = some (.parameter q) := by
  obtain ⟨symbol, hsymbol, hq⟩ := Option.bind_eq_some_iff.1 h
  cases symbol with
  | parameter q' =>
    obtain rfl := Option.some.inj hq
    exact hsymbol
  | _ => cases hq

namespace Model

variable {m : Model} {decl : PropertyDecl} {property id : SymbolId} {e : Expr} {t : TypeDecl}
  {text : String}

theorem getterValue?_eq_some_iff : getterValue? decl = some e ↔ decl.Returns e := by
  unfold getterValue?
  constructor
  · intro h
    split at h
    next harrow => exact .arrow (harrow.trans h)
    next harrow =>
      obtain ⟨a, ha, h⟩ := Option.bind_eq_some_iff.1 h
      split at h
      next hbody => exact .getterArrow harrow ha (hbody.trans h)
      next hbody =>
        obtain ⟨b, hb, h⟩ := Option.bind_eq_some_iff.1 h
        split at h
        next hstatements =>
          obtain rfl := Option.some.inj h
          exact .getterBlock harrow ha hbody hb hstatements
        next => cases h
  · intro h
    cases h with
    | arrow harrow => simp [harrow]
    | getterArrow harrow ha hbody => simp [harrow, ha, hbody]
    | getterBlock harrow ha hbody hb hstatements => simp [harrow, ha, hbody, hb, hstatements]

/-- The symbol is that of the property or the field that its getter returns. -/
def StoredIn (m : Model) (decl : PropertyDecl) (property id : SymbolId) : Prop :=
  id = property ∨ ∃ e field, decl.Returns e ∧ m.symbol? e.unparenthesized.id = some id ∧
    m.comp.symbol? id = some (.field field)

/-- A property that is declared in the file of the model is looked up there. -/
theorem mem_targets_iff (h : m.declaration? property = some ⟨m.tree, .property decl⟩) :
    id ∈ property :: (m.backingField? property).toList ↔ m.StoredIn decl property id := by
  rw [List.mem_cons, Option.mem_toList, backingField?, h]
  refine or_congr_right ?_
  simp only [Option.bind_eq_bind, Option.bind_some, ne_eq, not_true_eq_false, if_false,
    Option.bind_eq_some_iff, getterValue?_eq_some_iff]
  constructor
  · rintro ⟨e, he, symbol, hsymbol, hfield⟩
    split at hfield
    next field hknown =>
      obtain rfl := Option.some.inj hfield
      exact ⟨e, field, he, hsymbol, hknown⟩
    next => cases hfield
  · rintro ⟨e, field, he, hsymbol, hknown⟩
    refine ⟨e, he, id, hsymbol, ?_⟩
    rw [hknown]
    rfl

/-! ## Assignments -/

/-- The expression assigns the value of a parameter with the name to one of the symbols. -/
def AssignsParameter (m : Model) (stores : SymbolId → Prop) (e : Expr) (name : String) : Prop :=
  ∃ (n node : Node) (target value : Expr) (ident : Ident) (stored source : SymbolId)
    (param : ParameterSymbol), e = .assign n target value ∧
    m.symbol? target.unparenthesized.id = some stored ∧ stores stored ∧
    value.unparenthesized = .identifier node ident ∧ ident.text = name ∧
    m.symbol? node.id = some source ∧ m.comp.symbol? source = some (.parameter param)

theorem assignedParameter?_eq_some_iff {targets : List SymbolId} {stores : SymbolId → Prop}
    (h : ∀ id, id ∈ targets ↔ stores id) :
    m.assignedParameter? targets e = some text ↔ m.AssignsParameter stores e text := by
  constructor
  · intro hassigned
    unfold assignedParameter? at hassigned
    split at hassigned
    next n target value =>
      obtain ⟨stored, hstored, hassigned⟩ := Option.bind_eq_some_iff.1 hassigned
      dsimp only at hassigned
      split at hassigned
      next => cases hassigned
      next hmem =>
        have hstores : stores stored := (h stored).1 (by simpa using hmem)
        split at hassigned
        next node ident hvalue =>
          rw [Option.ite_none_right_eq_some] at hassigned
          obtain ⟨hparameter, hname⟩ := hassigned
          obtain ⟨param, hparam⟩ := Option.isSome_iff_exists.1 hparameter
          obtain ⟨source, hsource, hparam⟩ := Option.bind_eq_some_iff.1 hparam
          exact ⟨n, node, target, value, ident, stored, source, param, rfl, hstored, hstores, hvalue,
            Option.some.inj hname, hsource, m.comp.symbol?_of_parameter? hparam⟩
        next => cases hassigned
    next => cases hassigned
  · rintro ⟨n, node, target, value, ident, stored, source, param, rfl, hstored, hstores, hvalue, rfl,
      hsource, hparam⟩
    have hmem : stored ∈ targets := (h _).2 hstores
    simp [assignedParameter?, hstored, hmem, hvalue, hsource, Compilation.parameter?, hparam,
      Symbol.asParameter?]

end Model

/-! ## The answer -/

/-- The constructors are members. -/
theorem TypeDecl.mem_constructors_iff {t : TypeDecl} {ctor : ConstructorDecl} :
    ctor ∈ t.constructors ↔ .constructor ctor ∈ t.ownMembers := by
  rw [constructors, ownMembers, List.mem_filterMap, List.mem_filter]
  constructor
  · rintro ⟨member, hmember, heq⟩
    split at heq
    next =>
      obtain rfl := Option.some.inj heq
      exact ⟨hmember, rfl⟩
    next => cases heq
  · exact fun h => ⟨_, h.1, rfl⟩

/-- The property that the member is. -/
def Member.property? : Member → Option PropertyDecl
  | .property p => some p
  | _ => none

theorem Member.eq_property_of_property? {m : Member} {decl : PropertyDecl}
    (h : m.property? = some decl) : m = .property decl := by
  cases m with
  | property => exact congrArg _ (Option.some.inj h)
  | _ => cases h

namespace Project

variable {p : Project} {m : Model} {t : TypeDecl} {decl : PropertyDecl} {file : FileId}

/-- **Constructor parameters.**  A property of a file has a symbol, and its constructor parameter in
a type of the file is the one name of the parameters that are assigned to the property, or to the
field that its getter returns, at any depth in the code of the constructors, apart from the default
values of their parameters: there is an answer if there is exactly one such name.  So a type with the
same constructors and assignments in another order has the same answer. -/
theorem constructorParameter?_eq_some_iff {files : List String} (hread : Project.read files = .ok p)
    (hmodel : p.model? file = some m) (ht : t ∈ m.tree.types)
    (hdecl : .member (.property decl) ∈ m.tree.root.nodes) :
    ∃ property, m.declared? decl.node.id = some property ∧
      (∀ name, m.constructorParameter? t property = some name ↔
        {v | ∃ ctor ∈ t.constructors, ∃ e, (Part.member (.constructor ctor)).HasCode (.expr e) ∧
          ¬ (Member.constructor ctor).HasDefault e ∧
          m.AssignsParameter (m.StoredIn decl property) e v} = {name}) ∧
      ∀ t' : TypeDecl, (t'.constructors.flatMap fun ctor => ctor.body.exprs).Perm
          (t.constructors.flatMap fun ctor => ctor.body.exprs) →
        m.constructorParameter? t' property = m.constructorParameter? t property := by
  have hp := isBound_of_read hread
  obtain ⟨tree, hget, rfl⟩ := Option.map_eq_some_iff.1 hmodel
  have hbound : (Model.mk p tree).project.IsBound := hp
  have htree := List.mem_of_getElem? hget
  obtain ⟨text, htext⟩ := hp.parse tree htree
  obtain ⟨property, hproperty, hdeclaration⟩ := hbound.declaration?_member htree hdecl rfl
  refine ⟨property, hproperty, fun name => ?_, fun t' hperm => ?_⟩
  · unfold Model.constructorParameter?
    rw [Model.uniqueText?_eq_some_iff]
    refine Eq.congr_left (Set.ext fun v => ?_)
    have htargets (id : SymbolId) :
        id ∈ property :: ((Model.mk p tree).backingField? property).toList ↔
          (Model.mk p tree).StoredIn decl property id :=
      Model.mem_targets_iff hdeclaration
    have hcode {ctor : ConstructorDecl} (hctor : ctor ∈ t.constructors) (e : Expr) :
        e ∈ ctor.body.exprs ↔ (Part.member (.constructor ctor)).HasCode (.expr e) ∧
          ¬ (Member.constructor ctor).HasDefault e := by
      have hpart := t.ownParts_sublist.subset
        (TypeDecl.member_mem_ownParts (TypeDecl.mem_constructors_iff.1 hctor))
      exact Member.mem_exprs_iff ((SyntaxTree.wellNested_of_mem_types htext ht).part hpart) rfl
    simp only [Set.mem_ofPred_eq, List.mem_flatMap, List.mem_filterMap]
    refine exists_congr fun ctor => and_congr_right fun hctor => exists_congr fun e => ?_
    rw [Model.assignedParameter?_eq_some_iff htargets, hcode hctor e, and_assoc]
  · unfold Model.constructorParameter?
    refine Model.uniqueText?_congr fun v => ?_
    simp only [← List.filterMap_flatMap]
    exact (hperm.filterMap _).mem_iff

/-- A property that is assigned a parameter in a constructor and another one in the default value of
a parameter. -/
def assignedTwice : String :=
  "class A \x7b A(int a, int b = P = a) \x7b P = b; \x7d int P \x7b get; set; \x7d \x7d"

/-- The type of the file has a constructor, and the file has a property. -/
theorem constructorParameter?_eq_some_iff_assignedTwice : ∃ p m t decl,
    Project.read [assignedTwice] = .ok p ∧ p.model? 0 = some m ∧ t ∈ m.tree.types ∧
    t.constructors ≠ [] ∧ .member (.property decl) ∈ m.tree.root.nodes ∧
    ∃ property, m.declared? decl.node.id = some property ∧
      (∀ name, m.constructorParameter? t property = some name ↔
        {v | ∃ ctor ∈ t.constructors, ∃ e, (Part.member (.constructor ctor)).HasCode (.expr e) ∧
          ¬ (Member.constructor ctor).HasDefault e ∧
          m.AssignsParameter (m.StoredIn decl property) e v} = {name}) ∧
      ∀ t' : TypeDecl, (t'.constructors.flatMap fun ctor => ctor.body.exprs).Perm
          (t.constructors.flatMap fun ctor => ctor.body.exprs) →
        m.constructorParameter? t' property = m.constructorParameter? t property := by
  have hfound : ((Project.read [assignedTwice]).toOption.bind fun p => p.model? 0).any (fun m =>
      m.tree.types.any fun t => !t.constructors.isEmpty &&
        m.tree.declarations.any fun n => n.property?.isSome) = true := by decide +kernel
  obtain ⟨m, hm, hfound⟩ := (Option.any_eq_true _ _).1 hfound
  obtain ⟨p, hread, hmodel⟩ := Option.bind_eq_some_iff.1 hm
  rw [toOption_eq_some_iff] at hread
  obtain ⟨t, ht, hfound⟩ := List.any_eq_true.1 hfound
  rw [Bool.and_eq_true, Bool.not_eq_true', List.isEmpty_eq_false_iff, List.any_eq_true] at hfound
  obtain ⟨hctors, n, hn, hproperty⟩ := hfound
  obtain ⟨decl, hdecl⟩ := Option.isSome_iff_exists.1 hproperty
  obtain rfl := Member.eq_property_of_property? hdecl
  obtain ⟨text, htext⟩ := exists_parse hread hmodel
  have hn := (SyntaxTree.member_mem_nodes_iff htext).2 hn
  exact ⟨p, m, t, decl, hread, hmodel, ht, hctors, hn,
    constructorParameter?_eq_some_iff hread hmodel ht hn⟩

end Project

end PropertyLint
