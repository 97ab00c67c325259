/-
# The symbols of fields and properties

The declaration of a field or a property declares a symbol with the name and the modifiers of the
declaration, which belongs to the type that the declaration stands in
(`Project.IsBound.declared?_fieldOrProperty`).  One step has the node of the declaration declare that
symbol, and no later step has the node declare anything.
-/
import PropertyLint.Proofs.Binding.Inverse
import PropertyLint.Proofs.Fix.Lookup

namespace PropertyLint

open Binder

variable {n : NodeRef} {P : Symbol → Prop} {own : List NodeRef} {s s' : BindState} {scope : Scope}
  {node : Node} {d d' : DeclaredType} {symbol : Symbol} {m m' : Member} {α β : Type}

/-! ## What a node declares last -/

/-- The node declares a symbol that is no type and is as it should be. -/
def BindState.Attached (n : NodeRef) (P : Symbol → Prop) (s : BindState) : Prop :=
  ∃ id symbol, s.facts.declared? n = some id ∧ s.comp.symbol? id = some symbol ∧
    (∀ t, symbol ≠ .type t) ∧ P symbol

/-- The node still declares it when other nodes have come to declare something. -/
theorem BindState.Attached.later (h : s.Attached n P) (hlater : s.Declares {n} own s') :
    s'.Attached n P := by
  obtain ⟨id, symbol, hid, hsymbol, hno, hP⟩ := h
  obtain ⟨new, hnew, -, hat⟩ := hlater.declared
  refine ⟨id, symbol, ?_, Compilation.symbol?_of_le hsymbol hno hlater.comp.le, hno, hP⟩
  have hnone : new.lookup n = none := by
    refine List.lookup_eq_none_iff.2 fun r hr => bne_iff_ne.2 fun heq => (hat r hr).1 ?_
    exact heq.symm
  rw [Facts.declared?, hnew, List.lookup_append, hnone, Option.none_or]
  exact hid

namespace Binder

/-- After the step, the node declares a symbol as it should be. -/
def Attaches (n : NodeRef) (P : Symbol → Prop) (step : Binder α) : Prop :=
  ∀ s : BindState, (step.run s).2.Attached n P

variable {step : Binder α} {f : α → Binder β}

namespace Attaches

/-- What has been declared before does not matter. -/
theorem after (step : Binder α) (h : ∀ a, Attaches n P (f a)) : Attaches n P (step >>= f) :=
  fun s => h (step.run s).1 (step.run s).2

/-- The last step has other nodes declare something, if any. -/
theorem last (h : Attaches n P step) (hf : ∀ a, Declares {n} [] (f a)) :
    Attaches n P (step >>= f) :=
  fun s => (h s).later (hf (step.run s).1 (step.run s).2)

/-- One of the steps has the node declare the symbol, the others have other nodes. -/
theorem mapM {as : List α} {f : α → Binder β} {own : α → List NodeRef} {a : α} (ha : a ∈ as)
    (h : Attaches n P (f a)) (hothers : ∀ b ∈ as, b ≠ a → Declares {n} (own b) (f b)) :
    Attaches n P (as.mapM f) := by
  induction as with
  | nil => cases ha
  | cons b as ih =>
    rw [List.mapM_cons]
    by_cases hmem : a ∈ as
    · exact after _ fun _ => (ih hmem fun c hc => hothers c (.tail _ hc)).last fun _ => .pure _
    · obtain rfl := (List.mem_cons.1 ha).resolve_right hmem
      refine h.last fun _ => ?_
      have hrest : Declares {n} (as.flatMap own) (as.mapM f) :=
        .mapM fun c hc => hothers c (.tail _ hc) fun heq => hmem (heq ▸ hc)
      exact (hrest.mono (List.nil_subset _)).next fun _ => .pure _

end Attaches

/-- The node declares the symbol that has been added. -/
theorem Adds.attaches {step : Binder SymbolId} {rest : SymbolId → Binder β} (h : Adds symbol step)
    (hno : ∀ t, symbol ≠ .type t) (hP : P symbol)
    (hrest : ∀ id, Declares {⟨scope.file, node.id⟩} [] (rest id)) :
    Attaches ⟨scope.file, node.id⟩ P (do
      let id ← step
      Binder.declare scope node.id id
      rest id) := by
  intro s
  obtain ⟨-, -, hid⟩ := h s
  let s₁ : BindState := { (step.run s).2 with
    facts := (step.run s).2.facts.addDeclared ⟨scope.file, node.id⟩ (step.run s).1 }
  have hfirst : s₁.Attached ⟨scope.file, node.id⟩ P :=
    ⟨_, symbol, List.lookup_cons_self, hid, hno, hP⟩
  exact hfirst.later (hrest (step.run s).1 s₁)

end Binder

/-! ## Fields and properties -/

/-- The symbol of a field or a property that stands in a type. -/
inductive Member.Mirrors (owner : SymbolId) : Member → Symbol → Prop where
  | field {decl : FieldDecl} {f : FieldSymbol} : f.name = decl.name.text →
      f.containingType = owner → f.isStatic = decl.modifiers.isStatic →
      Mirrors owner (.field decl) (.field f)
  | property {decl : PropertyDecl} {f : PropertySymbol} : f.name = decl.name.text →
      f.containingType = owner → f.isStatic = decl.modifiers.isStatic →
      Mirrors owner (.property decl) (.property f)

theorem declareMember_attaches (hm : m.isFieldOrProperty = true) :
    Attaches ⟨d.scope.file, m.id⟩ (m.Mirrors d.symbol) (declareMember d m) := by
  cases m with
  | field decl =>
    have hfield : Attaches ⟨d.scope.file, decl.node.id⟩ ((Member.field decl).Mirrors d.symbol)
        (declareField d decl) := .after _ fun _ =>
      (addMember_adds _ fun _ => Symbol.noConfusion).attaches (fun _ => Symbol.noConfusion)
        (Member.Mirrors.field rfl rfl rfl) Declares.pure
    refine hfield.last fun id => ?_
    split
    · exact .pure _
    · exact .pure _
  | property decl =>
    have hproperty : Attaches ⟨d.scope.file, decl.node.id⟩
        ((Member.property decl).Mirrors d.symbol) (declareProperty d decl) := .after _ fun _ =>
      (addMember_adds _ fun _ => Symbol.noConfusion).attaches (fun _ => Symbol.noConfusion)
        (Member.Mirrors.property rfl rfl rfl) fun _ => .pure ()
    exact hproperty.last fun _ => .pure _
  | _ => cases hm

theorem declareContents_attaches (hm : m ∈ d.decl.members) (hkind : m.isFieldOrProperty = true)
    (hothers : ∀ m' ∈ d.decl.ownMembers, m' ≠ m →
      d.scope.Avoids {⟨d.scope.file, m.id⟩} (nodesOfMembers [m'])) :
    Attaches ⟨d.scope.file, m.id⟩ (m.Mirrors d.symbol) (declareContents d) := by
  refine .after _ fun _ => ?_
  have hmember : Attaches ⟨d.scope.file, m.id⟩ (m.Mirrors d.symbol)
      (d.decl.members.mapM (declareMember d)) :=
    .mapM hm (declareMember_attaches hkind) fun m' hm' hne => declareMember_declares fun htype =>
      hothers m' (List.mem_filter.2 ⟨hm', by rw [htype]; rfl⟩) hne
  exact hmember.last fun _ => .pure _

theorem declareAll_attaches {types : List DeclaredType} (hd : d ∈ types) (hm : m ∈ d.decl.members)
    (hkind : m.isFieldOrProperty = true)
    (hothers : ∀ d' ∈ types, ∀ m' ∈ d'.decl.ownMembers, (d' = d → m' ≠ m) →
      d'.scope.Avoids {⟨d.scope.file, m.id⟩} (nodesOfMembers [m'])) :
    Attaches ⟨d.scope.file, m.id⟩ (m.Mirrors d.symbol) (declareAll types) := by
  have hself : Attaches ⟨d.scope.file, m.id⟩ (m.Mirrors d.symbol) (declareContents d) :=
    declareContents_attaches hm hkind fun m' hm' hne => hothers d hd m' hm' fun _ => hne
  have hcontents : Attaches ⟨d.scope.file, m.id⟩ (m.Mirrors d.symbol)
      (types.mapM declareContents) :=
    .mapM hd hself fun d' hd' hne => declareContents_declares fun m' hm' =>
      hothers d' hd' m' hm' fun heq => absurd heq hne
  refine hcontents.last fun _ => ?_
  exact (Declares.forM fun d _ => addImplicit_declares d).next fun _ => .pure _

/-! ## Projects -/

/-- The only member among the nodes of a member that is no type is the member itself. -/
theorem eq_of_mem_nodesOfMembers {cs : List Char} (hnested : (Part.member m').WellNested cs)
    (htype : m'.isType = false) (hm : .member m ∈ nodesOfMembers [m']) : m = m' := by
  obtain ⟨q, hq, hqnode⟩ := hnested.mem_nodes_iff.1 hm
  obtain rfl : q = .member m := by
    cases q <;> simp [Part.syntaxNode?] at hqnode
    rw [hqnode]
  exact hq.eq_of_not_type htype

/-- A member is an own member of one type. -/
theorem SyntaxTree.eq_of_mem_ownMembers {file : FileId} {text : String} {t : SyntaxTree}
    (h : parse file text = .ok t) {e e' : TypeDecl} (he : e ∈ t.types) (he' : e' ∈ t.types)
    (hm : m ∈ e.ownMembers) (hm' : m ∈ e'.ownMembers) : e = e' := by
  have hfirst := containingType?_of_member h he hm .refl
  rw [containingType?_of_member h he' hm' .refl] at hfirst
  exact (Option.some.inj hfirst).symm

namespace Project

variable {p : Project} {t : SyntaxTree}

theorem mem_types_of_source (hd : d ∈ (typesDeclared p.sources).1) (hsource : d.source = t.source) :
    d.decl ∈ t.types := by
  obtain ⟨-, hdecl⟩ := exists_typesDeclared_iff.1 ⟨d, hd, rfl, rfl⟩
  rwa [hsource] at hdecl

/-- No two files have the same number. -/
theorem IsRead.source_eq (hp : p.IsRead) (ht : t ∈ p.trees) (hd : d ∈ (typesDeclared p.sources).1)
    (hfile : d.source.file = some t.file) : d.source = t.source := by
  obtain ⟨hsource, -⟩ := exists_typesDeclared_iff.1 ⟨d, hd, rfl, rfl⟩
  rcases mem_sources hsource with hframework | ⟨t', ht', htree⟩
  · rw [hframework] at hfile
    cases hfile
  · rw [htree] at hfile ⊢
    rw [hp.tree_unique ht ht' (Option.some.inj hfile).symm]

/-- Other members, and the members of other types, have other nodes. -/
theorem IsRead.avoids_member (hp : p.IsRead) (ht : t ∈ p.trees)
    (hd : d ∈ (typesDeclared p.sources).1) (hsource : d.source = t.source)
    (hm : m ∈ d.decl.ownMembers) (hd' : d' ∈ (typesDeclared p.sources).1)
    (hm' : m' ∈ d'.decl.ownMembers) (hne : d' = d → m' ≠ m) :
    d'.scope.Avoids {⟨some t.file, m.id⟩} (nodesOfMembers [m']) := by
  obtain ⟨text, htext⟩ := hp.parse t ht
  intro x hx _ heq
  obtain ⟨hfile, hid⟩ := NodeRef.mk.inj heq
  have hsource' : d'.source = t.source := hp.source_eq ht hd' hfile
  have hdecl := mem_types_of_source hd hsource
  have hdecl' := mem_types_of_source hd' hsource'
  -- the node is that of the member, so the two members are one, and so are their types
  have hxnode := SyntaxTree.nodes_subset htext hdecl'
    (TypeDecl.nodesOfMembers_subset (List.mem_filter.1 hm').1 hx)
  have hmnode : .member m ∈ t.root.nodes :=
    (SyntaxTree.member_mem_nodes_iff htext).2 (List.mem_flatMap.2 ⟨_, hdecl, .tail _ hm⟩)
  obtain rfl := SyntaxTree.eq_of_id_eq htext hxnode hmnode hid
  have hnested := (SyntaxTree.wellNested_of_mem_types htext hdecl').part
    (d'.decl.ownParts_sublist.subset (TypeDecl.member_mem_ownParts hm'))
  obtain rfl := eq_of_mem_nodesOfMembers hnested (TypeDecl.isType_of_mem_ownMembers hm') hx
  have hunique := SyntaxTree.eq_of_mem_ownMembers htext hdecl' hdecl hm' hm
  have href : d'.ref = d.ref := by
    rw [DeclaredType.ref, DeclaredType.ref, hsource, hsource', hunique]
  exact hne (hp.symbol_unique hd hd' (by rw [hsource]; rfl) href) rfl

/-- The symbol of a field or a property belongs to the type that the declaration stands in. -/
theorem IsBound.declared?_fieldOrProperty (hp : p.IsBound) (ht : t ∈ p.trees)
    (hd : d ∈ (typesDeclared p.sources).1) (hsource : d.source = t.source)
    (hm : m ∈ d.decl.ownMembers) (hkind : m.isFieldOrProperty = true) :
    ∃ id symbol, p.facts.declared? ⟨some t.file, m.id⟩ = some id ∧
      p.comp.symbol? id = some symbol ∧ m.Mirrors d.symbol symbol := by
  have hfile : d.scope.file = some t.file := congrArg Source.file hsource
  obtain ⟨text, htext⟩ := hp.parse t ht
  have hnode : .member m ∈ t.root.nodes := (SyntaxTree.member_mem_nodes_iff htext).2
    (List.mem_flatMap.2 ⟨_, mem_types_of_source hd hsource, .tail _ hm⟩)
  have hall : Attaches ⟨d.scope.file, m.id⟩ (m.Mirrors d.symbol)
      (declareAll (typesDeclared p.sources).1) :=
    declareAll_attaches hd (List.mem_filter.1 hm).1 hkind fun d' hd' m' hm' hne => by
      rw [hfile]
      exact hp.avoids_member ht hd hsource hm hd' hm' hne
  rw [hfile] at hall
  have hlater : (membersDeclared p.sources).2.Declares {⟨some t.file, m.id⟩} []
      (p.stage p.constFields.length) :=
    hp.declares_later.anti (Set.singleton_subset_iff.2 ⟨t, ht, rfl, m, hnode, rfl⟩)
  obtain ⟨id, symbol, hid, hsymbol, hno, hmirrors⟩ := (hall (typesDeclared p.sources).2).later hlater
  refine ⟨id, symbol, ?_, ?_, hmirrors⟩
  · rw [hp.facts_eq_stage (Nat.le_refl _)]
    exact hid
  · rw [hp.comp_eq_stage (Nat.le_refl _)]
    exact Compilation.symbol?_of_le hsymbol hno (Compilation.le_withKnown _)

end Project

end PropertyLint
