/-
# Nodes declare symbols that are declared at them

While bases and members are declared, each member that is no type comes to declare something, and
whatever a node comes to declare is declared at that node (`declareAll_declares`).  There is a rule
for each way to put steps together.
-/
import PropertyLint.Proofs.Binding.Bodies
import PropertyLint.Proofs.Binding.Calm
import PropertyLint.Proofs.Binding.Places

namespace PropertyLint

open Binder

variable {ns : Set NodeRef} {own own' : List NodeRef} {s s' : BindState} {scope : Scope}
  {node : Node} {d : DeclaredType} {symbol : Symbol} {xs xs' : List SyntaxNode} {α β : Type}

/-! ## Rules -/

namespace Binder

/-- The step has the nodes `own` declare something, and no node declares what is declared elsewhere.
-/
def Declares (ns : Set NodeRef) (own : List NodeRef) (step : Binder α) : Prop :=
  ∀ s : BindState, s.Declares ns own (step.run s).2

/-- The step adds the symbol and gives its number. -/
def Adds (symbol : Symbol) (step : Binder SymbolId) : Prop :=
  ∀ s : BindState, s.comp.KeepsPlaces (step.run s).2.comp ∧
    (step.run s).2.facts.declared = s.facts.declared ∧
    (step.run s).2.comp.symbol? (step.run s).1 = some symbol

variable {step : Binder α} {f : α → Binder β}

namespace Declares

theorem pure (a : α) : Declares ns [] (pure a) := fun s => .refl s

theorem bind (h : Declares ns own step) (hf : ∀ a, Declares ns own' (f a)) :
    Declares ns (own ++ own') (step >>= f) :=
  fun s => (h s).trans (hf (step.run s).1 (step.run s).2)

/-- The first step declares nothing of its own. -/
theorem next (h : Declares ns [] step) (hf : ∀ a, Declares ns own (f a)) :
    Declares ns own (step >>= f) := h.bind hf

/-- The last step declares nothing of its own. -/
theorem last (h : Declares ns own step) (hf : ∀ a, Declares ns [] (f a)) :
    Declares ns own (step >>= f) := by
  rw [← own.append_nil]
  exact h.bind hf

theorem mono (h : Declares ns own step) (hown : own' ⊆ own) : Declares ns own' step :=
  fun s => (h s).mono hown

/-- A step that looks at the state. -/
theorem get {f : BindState → Binder β} (h : ∀ s, Declares ns own (f s)) :
    Declares ns own (MonadState.get >>= f) := fun s => h s s

/-- A step that looks at the symbols. -/
theorem comp {f : Compilation → Binder β} (h : ∀ c, Declares ns own (f c)) :
    Declares ns own (Binder.comp >>= f) := fun s => h s.comp s

theorem discard (h : Declares ns own step) : Declares ns own (Functor.discard step) := fun s => h s

theorem withLocals (h : Declares ns own step) : Declares ns own (Binder.withLocals step) :=
  fun s => ⟨(h s).comp, (h s).declared⟩

theorem inFreshScope (h : Declares ns own step) (locals : List (String × SymbolId)) :
    Declares ns own (Binder.inFreshScope locals step) :=
  fun s => ⟨(h { s with locals }).comp, (h { s with locals }).declared⟩

theorem forM {as : List α} {f : α → Binder Unit} (h : ∀ a ∈ as, Declares ns [] (f a)) :
    Declares ns [] (as.forM f) := by
  induction as with
  | nil => exact .pure _
  | cons a as ih =>
    rw [List.forM_eq_forM, List.forM_cons]
    exact (h a (.head _)).next fun _ => ih fun b hb => h b (.tail _ hb)

theorem mapM {as : List α} {f : α → Binder β} {own : α → List NodeRef}
    (h : ∀ a ∈ as, Declares ns (own a) (f a)) : Declares ns (as.flatMap own) (as.mapM f) := by
  induction as with
  | nil => exact .pure _
  | cons a as ih =>
    rw [List.mapM_cons, List.flatMap_cons]
    exact (h a (.head _)).bind fun _ =>
      (ih fun b hb => h b (.tail _ hb)).last fun _ => .pure _

end Declares

theorem change_declares {g : Compilation → α × Compilation}
    (h : ∀ c : Compilation, c.KeepsPlaces (g c).2) :
    Declares ns [] (change g) :=
  fun s => .of_eq (h s.comp) rfl

theorem Calm.declares (h : Calm step) : Declares ns [] step :=
  fun s => .of_eq (h s).comp.keepsPlaces (h s).declared

theorem add_adds (symbol : Symbol) : Adds symbol (add symbol) := fun s =>
  ⟨s.comp.keepsPlaces_add symbol, rfl, Compilation.symbol?_add_size symbol⟩

theorem addMember_adds (owner : SymbolId) (hsymbol : ∀ t, symbol ≠ .type t) :
    Adds symbol (addMember owner symbol) := by
  intro s
  have hmember := (s.comp.add symbol).2.keepsPlaces_modifyType owner
    (f := fun t => { t with members := t.members ++ [s.comp.symbols.size] }) fun _ => rfl
  exact ⟨(s.comp.keepsPlaces_add symbol).trans hmember, rfl,
    Compilation.symbol?_of_le (Compilation.symbol?_add_size symbol) hsymbol hmember.le⟩

theorem Adds.declares {step : Binder SymbolId} (h : Adds symbol step) : Declares ns [] step :=
  fun s => .of_eq (h s).1 (h s).2.1

/-- The node declares the symbol that is added, which is declared at the node. -/
theorem Adds.declare {step : Binder SymbolId} {rest : SymbolId → Binder β} (h : Adds symbol step)
    (hsymbol : ∀ t, symbol ≠ .type t) (hplace : symbol.declaration? = scope.sourceRef node)
    (hnode : ⟨scope.file, node.id⟩ ∉ ns) (hrest : ∀ id, Declares ns own (rest id)) :
    Declares ns (⟨scope.file, node.id⟩ :: own) (do
      let id ← step
      declare scope node.id id
      rest id) := by
  intro s
  obtain ⟨hcomp, hdeclared, hid⟩ := h s
  let s₁ : BindState := { (step.run s).2 with
    facts := (step.run s).2.facts.addDeclared ⟨scope.file, node.id⟩ (step.run s).1 }
  have hfirst : s.Declares ns [⟨scope.file, node.id⟩] s₁ :=
    .of_cons hcomp (congrArg (List.cons _) hdeclared) hid hsymbol hplace hnode
  exact hfirst.trans (hrest (step.run s).1 s₁)

/-- Nothing more is done. -/
theorem Adds.declare_last {step : Binder SymbolId} (h : Adds symbol step)
    (hsymbol : ∀ t, symbol ≠ .type t) (hplace : symbol.declaration? = scope.sourceRef node)
    (hnode : ⟨scope.file, node.id⟩ ∉ ns) : Declares ns [⟨scope.file, node.id⟩] (do
      let id ← step
      Binder.declare scope node.id id) :=
  h.declare hsymbol hplace hnode fun _ => .pure ()

end Binder

/-! ## Members -/

/-- None of the nodes is among the nodes `ns`, but for declarations of types. -/
def Scope.Avoids (scope : Scope) (ns : Set NodeRef) (xs : List SyntaxNode) : Prop :=
  ∀ x ∈ xs, (∀ t, x ≠ .member (.type t)) → ⟨scope.file, x.node.id⟩ ∉ ns

theorem Scope.Avoids.mono (h : scope.Avoids ns xs) (hsubset : xs' ⊆ xs) : scope.Avoids ns xs' :=
  fun x hx => h x (hsubset hx)

theorem addMethodTypeParams_declares (base : Option SymbolId) (ordinal : Nat) (names : List Ident) :
    Declares ns [] (addMethodTypeParams base ordinal names) := by
  induction names generalizing ordinal with
  | nil => exact .pure _
  | cons name rest ih =>
    rw [addMethodTypeParams]
    exact (add_adds _).declares.next fun _ => (ih _).next fun _ => .pure _

theorem declareParams_declares (ordinal : Nat) (params : List Parameter)
    (havoids : scope.Avoids ns (params.flatMap Parameter.nodes)) :
    Declares ns [] (declareParams scope ordinal params) := by
  induction params generalizing ordinal with
  | nil => exact .pure _
  | cons p rest ih =>
    rw [List.flatMap_cons] at havoids
    have hnode : ⟨scope.file, p.node.id⟩ ∉ ns :=
      havoids (.parameter p) (.head _) fun _ => SyntaxNode.noConfusion
    rw [declareParams]
    refine (resolveType_calm p.type).declares.next fun type => ?_
    have hrest (id : SymbolId) : Declares ns [] (do
        return id :: (← declareParams scope (ordinal + 1) rest)) :=
      (ih _ (havoids.mono (List.subset_append_right _ _))).next fun _ => .pure _
    exact ((add_adds _).declare (fun _ => Symbol.noConfusion) rfl hnode hrest).mono
      (List.nil_subset _)

theorem declareBases_declares (d : DeclaredType) : Declares ns [] (declareBases d) := by
  have hbase (found : SymbolId) (isInterface : Bool) :
      Declares ns [] (change fun c => ((), c.modifyType d.symbol fun t =>
        t.withBase found isInterface)) :=
    change_declares fun c => c.keepsPlaces_modifyType d.symbol fun t => by
      unfold TypeSymbol.withBase
      split_ifs <;> rfl
  refine .forM fun base _ => ?_
  refine (resolveType_calm base).declares.next fun found => ?_
  cases found with
  | none => exact .pure _
  | some found => exact .comp fun c => hbase found _

theorem declareField_declares {field : FieldDecl} (hnode : ⟨d.scope.file, field.node.id⟩ ∉ ns) :
    Declares ns [⟨d.scope.file, field.node.id⟩] (declareField d field) :=
  (resolveType_calm _).declares.next fun _ =>
    (addMember_adds _ fun _ => Symbol.noConfusion).declare (fun _ => Symbol.noConfusion) rfl hnode
      Declares.pure

theorem declareProperty_declares {property : PropertyDecl}
    (hnode : ⟨d.scope.file, property.node.id⟩ ∉ ns) :
    Declares ns [⟨d.scope.file, property.node.id⟩] (declareProperty d property) :=
  (resolveType_calm _).declares.next fun _ =>
    (addMember_adds _ fun _ => Symbol.noConfusion).declare_last (fun _ => Symbol.noConfusion) rfl
      hnode

theorem declareMethod_declares {method : MethodDecl}
    (hnode : ⟨d.scope.file, method.node.id⟩ ∉ ns)
    (havoids : d.scope.Avoids ns (method.params.flatMap Parameter.nodes)) :
    Declares ns [⟨d.scope.file, method.node.id⟩] (declareMethod d method) := by
  unfold declareMethod
  refine (typeNamed?_calm _).declares.next fun object => ?_
  refine (addMethodTypeParams_declares _ _ _).next fun typeParams => ?_
  refine (resolveType_calm _).declares.next fun returnType => ?_
  have hparams : { d.scope with methodTypeParams := typeParams }.Avoids ns
      (method.params.flatMap Parameter.nodes) := havoids
  refine (declareParams_declares _ _ hparams).next fun params => ?_
  -- what follows the interface in front of the name
  have hmember (symbol : MethodSymbol) (hplace : symbol.declaration = d.scope.sourceRef method.node) :
      Declares ns [⟨d.scope.file, method.node.id⟩] (do
        let id ← addMember d.symbol (.method symbol)
        declare d.scope method.node.id id
        modify fun s => { s with
          methodTypeParams :=
            (⟨d.source.file, method.node.id⟩, typeParams) :: s.methodTypeParams }) :=
    (addMember_adds _ fun _ => Symbol.noConfusion).declare (fun _ => Symbol.noConfusion) hplace
      hnode fun _ _ => .of_eq (.refl _) rfl
  dsimp only
  split
  next interface _ =>
    exact ((resolveType_calm interface).bind fun _ => .pure _).declares.next fun _ => hmember _ rfl
  next => exact hmember _ rfl

theorem declareConstructor_declares {ctor : ConstructorDecl}
    (hnode : ⟨d.scope.file, ctor.node.id⟩ ∉ ns)
    (havoids : d.scope.Avoids ns (ctor.params.flatMap Parameter.nodes)) :
    Declares ns [⟨d.scope.file, ctor.node.id⟩] (declareConstructor d ctor) :=
  (declareParams_declares _ _ havoids).next fun _ => (typeNamed?_calm _).declares.next fun _ =>
    (addMember_adds _ fun _ => Symbol.noConfusion).declare_last (fun _ => Symbol.noConfusion) rfl
      hnode

/-- The nodes of a member's declaration, which declares something unless it is a type. -/
def DeclaredType.refsOf (d : DeclaredType) (m : Member) : List NodeRef :=
  if m.isType then [] else [⟨d.scope.file, m.id⟩]

theorem declareMember_declares {m : Member}
    (havoids : m.isType = false → d.scope.Avoids ns (nodesOfMembers [m])) :
    Declares ns (d.refsOf m) (declareMember d m) := by
  cases m with
  | field decl =>
    have hnode := havoids rfl (.member (.field decl)) (by simp [nodesOfMembers]) (by simp)
    rw [declareMember]
    refine (declareField_declares hnode).last fun id => ?_
    split
    · exact .pure _
    · exact .pure _
  | property decl =>
    have hnode := havoids rfl (.member (.property decl)) (by simp [nodesOfMembers]) (by simp)
    exact (declareProperty_declares hnode).last fun _ => .pure _
  | method decl =>
    have hnode := havoids rfl (.member (.method decl)) (by simp [nodesOfMembers]) (by simp)
    have hparams : d.scope.Avoids ns (decl.params.flatMap Parameter.nodes) :=
      (havoids rfl).mono fun n hn => by simp [nodesOfMembers, MethodDecl.nodes, -List.mem_flatMap, hn]
    exact (declareMethod_declares hnode hparams).last fun _ => .pure _
  | constructor decl =>
    have hnode := havoids rfl (.member (.constructor decl)) (by simp [nodesOfMembers]) (by simp)
    have hparams : d.scope.Avoids ns (decl.params.flatMap Parameter.nodes) :=
      (havoids rfl).mono fun n hn => by
        simp [nodesOfMembers, ConstructorDecl.nodes, -List.mem_flatMap, hn]
    exact (declareConstructor_declares hnode hparams).last fun _ => .pure _
  | type decl => exact .pure _

theorem addImplicit_declares (d : DeclaredType) : Declares ns [] (addImplicit d) := by
  have hbase (base : SymbolId) : Declares ns [] (change fun c =>
      ((), c.modifyType d.symbol fun t => { t with baseType := some base })) :=
    change_declares fun c => c.keepsPlaces_modifyType d.symbol fun _ => rfl
  unfold addImplicit
  refine .comp fun c => ?_
  have hconstructor (t : TypeSymbol) : Declares ns [] (do
      if needsConstructor c t then
        Functor.discard
          (addMember d.symbol (.method (implicitConstructor d.symbol (← knownType? .void))))) := by
    split
    · exact (typeNamed?_calm _).declares.next fun _ =>
        (addMember_adds _ fun _ => Symbol.noConfusion).declares.discard
    · exact .pure _
  cases c.type? d.symbol with
  | none => exact .pure _
  | some t =>
    dsimp only
    split
    · exact (hbase _).next fun _ => hconstructor t
    · exact hconstructor t

theorem declareContents_declares
    (havoids : ∀ m ∈ d.decl.ownMembers, d.scope.Avoids ns (nodesOfMembers [m])) :
    Declares ns (d.decl.members.flatMap d.refsOf) (declareContents d) := by
  refine (declareBases_declares d).next fun _ => ?_
  refine Declares.last (.mapM fun m hm => ?_) fun _ => .pure _
  exact declareMember_declares fun htype => havoids m (List.mem_filter.2 ⟨hm, by rw [htype]; rfl⟩)

/-- The members that are no types declare something. -/
theorem declareAll_declares {types : List DeclaredType}
    (havoids : ∀ d ∈ types, d.scope.Avoids ns d.decl.nodes) :
    Declares ns (types.flatMap fun d => d.decl.members.flatMap d.refsOf) (declareAll types) := by
  refine Declares.last (.mapM fun d hd => ?_) fun _ =>
    (Declares.forM fun d _ => addImplicit_declares d).next fun _ => .pure _
  refine declareContents_declares fun m hm => ?_
  exact (havoids d hd).mono (TypeDecl.nodesOfMembers_subset (List.mem_filter.1 hm).1)

end PropertyLint
