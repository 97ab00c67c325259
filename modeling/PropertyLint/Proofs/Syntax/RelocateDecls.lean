/-
# Statements and declarations on moved tokens

On moved tokens the parser of a whole file gives the moved declarations
(`compilationUnit_relocates`).
-/
import PropertyLint.Proofs.Syntax.RelocateExprs

namespace PropertyLint.Grammar

variable {φ : Nat → Nat} (hφ : Monotone φ)

/-! ## Statements -/

section
include hφ

theorem optionalExpression_relocates :
    Relocates φ (Option.map (Expr.relocate φ)) optionalExpression optionalExpression :=
  .bind (.atMark _) fun _ => .ite (.pure rfl) (.some (expression_relocates hφ))

theorem initializer_relocates :
    Relocates φ (Option.map (Expr.relocate φ)) initializer initializer :=
  .bind (.takeMark _) fun _ => .ite (.some (expression_relocates hφ)) (.pure rfl)

theorem localType_relocates : Relocates φ (TypeRef.relocate φ) localType localType :=
  .bind .peek fun _ => .check <| .bind (type_relocates hφ _) fun _ => .bind .peekSecond fun _ =>
    .bind .peek fun _ => .check (.pure rfl)

theorem simpleStatement_relocates (start : Nat) :
    Relocates φ (Stmt.relocate φ) (simpleStatement start) (simpleStatement (φ start)) := by
  refine .bind (.attempt (localType_relocates hφ)) fun t => ?_
  cases t with
  | some t =>
    exact .bind .identifier fun _ => .bind (initializer_relocates hφ) fun _ =>
      .bind (.expectMark _) fun _ => .bind (.newNode hφ start) fun _ => .pure rfl
  | none =>
    exact .bind (expression_relocates hφ) fun _ => .bind (.expectMark _) fun _ =>
      .bind (.newNode hφ start) fun _ => .pure rfl

section
variable {statement statement' : Parser Stmt}
  (hstatement : Relocates φ (Stmt.relocate φ) statement statement')
include hstatement

theorem blockWith_relocates :
    Relocates φ (Block.relocate φ) (blockWith statement) (blockWith statement') :=
  .bind .position fun start => .bind (.expectMark _) fun _ => .bind (.untilMark hstatement _)
    fun _ => .bind (.rangeFrom hφ start) fun _ => .pure rfl

theorem statementWith_relocates :
    Relocates φ (Stmt.relocate φ) (statementWith statement) (statementWith statement') := by
  refine .bind .position fun start => ?_
  have hnode := Relocates.newNode hφ start
  -- a block, the empty statement, `return`, `throw` and `if`
  refine .bind (.atMark _) fun _ => .ite ?_ ?_
  · exact .bind (blockWith_relocates hφ hstatement) fun _ => .bind hnode fun _ =>
      .pure (Stmt.relocate_block ..)
  refine .bind (.takeMark _) fun _ => .ite (.bind hnode fun _ => .pure rfl) ?_
  refine .bind (.takeWord _) fun _ => .ite ?_ ?_
  · exact .bind (optionalExpression_relocates hφ) fun _ => .bind (.expectMark _) fun _ =>
      .bind hnode fun _ => .pure rfl
  refine .bind (.takeWord _) fun _ => .ite ?_ ?_
  · exact .bind (optionalExpression_relocates hφ) fun _ => .bind (.expectMark _) fun _ =>
      .bind hnode fun _ => .pure rfl
  refine .bind (.takeWord _) fun _ => .ite ?_ (simpleStatement_relocates hφ start)
  refine .bind (.expectMark _) fun _ => .bind (expression_relocates hφ) fun _ =>
    .bind (.expectMark _) fun _ => .bind hstatement fun _ => .bind (.takeWord _) fun _ => ?_
  exact .join (.some hstatement) (.pure rfl) fun _ => .bind hnode fun _ =>
    .pure (Stmt.relocate_branch ..)

end

theorem statementToDepth_relocates (depth : Nat) :
    Relocates φ (Stmt.relocate φ) (statementToDepth depth) (statementToDepth depth) := by
  induction depth with
  | zero => exact .failTooDeep
  | succ depth ih => exact statementWith_relocates hφ ih

theorem body_relocates : Relocates φ (Body.relocate φ) body body := by
  refine .bind (.atMark _) fun _ => .ite ?_ (.bind (.takeMark _) fun _ => .ite ?_ ?_)
  · exact .bind (.bind .bound fun _ => blockWith_relocates hφ (statementToDepth_relocates hφ _))
      fun _ => .pure rfl
  · exact .bind (expression_relocates hφ) fun _ => .bind (.expectMark _) fun _ => .pure rfl
  · exact .bind (.expectMark _) fun _ => .pure rfl

/-! ## Attributes and modifiers -/

theorem attribute_relocates : Relocates φ (Attribute.relocate φ) attribute_ attribute_ :=
  .bind .position fun start => .bind (type_relocates hφ _) fun _ => .bind (.atMark _) fun _ =>
    .join (.some (argumentList_relocates hφ (expression_relocates hφ) _)) (.pure rfl) fun _ =>
      .bind (.newNode hφ start) fun _ => .pure rfl

theorem attributeSection_relocates :
    Relocates φ (List.map (Attribute.relocate φ)) attributeSection attributeSection := by
  refine .bind .peek fun _ => .bind .peekSecond fun _ => ?_
  have hrest : Relocates φ (List.map (Attribute.relocate φ))
      (byComma attribute_ >>= fun as => expectMark .closeBracket >>= fun _ => pure as)
      (byComma attribute_ >>= fun as => expectMark .closeBracket >>= fun _ => pure as) :=
    .bind (.byComma (attribute_relocates hφ)) fun _ => .bind (.expectMark _) fun _ => .pure rfl
  exact .ite (.bind .advance fun _ => .bind .advance fun _ => hrest) hrest

theorem attributeSections_relocates (rounds : Nat) :
    Relocates φ (List.map (Attribute.relocate φ)) (attributeSections rounds)
      (attributeSections rounds) := by
  induction rounds with
  | zero => exact .failTooDeep
  | succ rounds ih =>
    exact .bind (.takeMark _) fun _ => .ite (.bind (attributeSection_relocates hφ) fun _ =>
      .bind ih fun _ => .pure (List.map_append ..)) (.pure rfl)

theorem attributes_relocates :
    Relocates φ (List.map (Attribute.relocate φ)) attributes attributes :=
  .bind .bound fun _ => attributeSections_relocates hφ _

omit hφ in
theorem modifiersUpTo_relocates (rounds : Nat) :
    Relocates φ (fun ms => ms) (modifiersUpTo rounds) (modifiersUpTo rounds) := by
  induction rounds with
  | zero => exact .failTooDeep
  | succ rounds ih =>
    refine .bind .peek fun next => ?_
    split
    · split
      · exact .bind .advance fun _ => .bind ih fun _ => .pure rfl
      · exact .pure rfl
    · exact .pure rfl

end

/-- What stands in front of a declaration with all places in it moved. -/
def Leading.relocate (φ : Nat → Nat) (l : Leading) : Leading :=
  ⟨l.doc.map (OffsetRange.relocate φ), φ l.start, l.attributes.map (Attribute.relocate φ),
    l.modifiers⟩

section
include hφ

theorem leading_relocates : Relocates φ (Leading.relocate φ) leading leading := by
  refine .bind .get fun c => .bind (attributes_relocates hφ) fun _ => .bind .bound fun _ =>
    .bind (modifiersUpTo_relocates _) fun _ => .pure ?_
  simp [Leading.relocate]

theorem close_relocates (l : Leading) (name : Ident) :
    Relocates φ (DeclHeader.relocate φ) (l.close name)
      ((l.relocate φ).close (name.relocate φ)) :=
  .bind (.newNode hφ l.start) fun _ => .pure rfl

/-! ## Members -/

theorem parameter_relocates : Relocates φ (Parameter.relocate φ) parameter parameter :=
  .bind .position fun start => .bind (attributes_relocates hφ) fun _ => .bind (.takeWord _)
    fun _ => .bind .bound fun _ => .bind (.skipTo _ _) fun _ => .bind (type_relocates hφ _)
    fun _ => .bind .identifier fun _ => .bind (initializer_relocates hφ) fun _ =>
      .bind (.newNode hφ start) fun _ => .pure rfl

theorem parameters_relocates :
    Relocates φ (List.map (Parameter.relocate φ)) parameters parameters :=
  .inParens (parameter_relocates hφ)

omit hφ in
theorem typeParameter_relocates :
    Relocates φ (Ident.relocate φ) typeParameter typeParameter :=
  .bind (.atAnyWord _) fun _ => .optional .advance .identifier

omit hφ in
theorem typeParameters_relocates :
    Relocates φ (List.map (Ident.relocate φ)) typeParameters typeParameters :=
  .bind (.takeMark _) fun _ => .ite (.bind (.byComma typeParameter_relocates) fun _ =>
    .bind (.expectMark _) fun _ => .pure rfl) (.pure rfl)

omit hφ in
theorem skipConstraints_relocates :
    Relocates φ (fun u => u) skipConstraints skipConstraints :=
  .bind (.atWord _) fun _ => .ite (.bind .bound fun _ => .skipTo _ _) (.pure rfl)

theorem constructor_relocates (l : Leading) :
    Relocates φ (ConstructorDecl.relocate φ) (constructor_ l) (constructor_ (l.relocate φ)) := by
  refine .bind .identifier fun name => .bind (parameters_relocates hφ) fun ps =>
    .bind (.takeMark _) fun _ => ?_
  -- the arguments of the `base` or `this` call are dropped
  have hrest : Relocates φ (ConstructorDecl.relocate φ)
      (body >>= fun b => l.close name >>= fun header => pure ⟨header, ps, b⟩)
      (body >>= fun b => (l.relocate φ).close (name.relocate φ) >>= fun header =>
        pure ⟨header, ps.map (Parameter.relocate φ), b⟩) :=
    .bind (body_relocates hφ) fun _ => .bind (close_relocates hφ l name) fun _ => .pure rfl
  refine .ite (.bind (.atAnyWord _) fun _ => .join .advance (.failExpecting _) fun _ => ?_) hrest
  exact .bind (.discard (argumentList_relocates hφ (expression_relocates hφ) _)) fun _ => hrest

theorem method_relocates (l : Leading) (t : TypeRef) (interface : Option TypeRef) (name : Ident) :
    Relocates φ (MethodDecl.relocate φ) (method l t interface name)
      (method (l.relocate φ) (t.relocate φ) (interface.map (TypeRef.relocate φ))
        (name.relocate φ)) :=
  .bind typeParameters_relocates fun _ => .bind (parameters_relocates hφ) fun _ =>
    .bind skipConstraints_relocates fun _ => .bind (body_relocates hφ) fun _ =>
      .bind (close_relocates hφ l name) fun _ => .pure rfl

omit hφ in
theorem accessorKind_relocates : Relocates φ (fun k => k) accessorKind accessorKind :=
  .bind (.takeWord _) fun _ => .ite (.pure rfl) <| .bind (.takeWord _) fun _ =>
    .ite (.pure rfl) <| .bind (.takeWord _) fun _ => .ite (.pure rfl) (.failExpecting _)

theorem accessor_relocates : Relocates φ (Accessor.relocate φ) accessor accessor :=
  .bind (leading_relocates hφ) fun l => .bind accessorKind_relocates fun _ =>
    .bind (body_relocates hφ) fun _ => .bind (.newNode hφ l.start) fun _ => .pure rfl

theorem property_relocates (l : Leading) (t : TypeRef) (name : Ident) :
    Relocates φ (PropertyDecl.relocate φ) (property l t name)
      (property (l.relocate φ) (t.relocate φ) (name.relocate φ)) := by
  have hclose := close_relocates hφ l name
  refine .bind (.takeMark _) fun _ => .ite ?_ ?_
  · exact .bind (expression_relocates hφ) fun _ => .bind (.expectMark _) fun _ =>
      .bind hclose fun _ => .pure rfl
  · refine .bind (.expectMark _) fun _ => .bind (.untilMark (accessor_relocates hφ) _) fun _ =>
      .bind (initializer_relocates hφ) fun init => ?_
    cases init <;> exact .optional (.expectMark _) (.bind hclose fun _ => .pure rfl)

theorem field_relocates (l : Leading) (t : TypeRef) (name : Ident) :
    Relocates φ (FieldDecl.relocate φ) (field l t name)
      (field (l.relocate φ) (t.relocate φ) (name.relocate φ)) :=
  .bind (initializer_relocates hφ) fun _ => .bind (.expectMark _) fun _ =>
    .bind (close_relocates hφ l name) fun _ => .pure rfl

omit hφ in
theorem dottedIdents_relocates (rounds : Nat) :
    Relocates φ (List.map (Ident.relocate φ)) (dottedIdents rounds) (dottedIdents rounds) := by
  induction rounds with
  | zero => exact .failTooDeep
  | succ rounds ih =>
    refine .bind .identifier fun _ => .bind atDottedWord_relocates fun _ => .ite ?_ (.pure rfl)
    exact .bind .advance fun _ => .bind ih fun _ => .pure rfl

theorem interfaceType_relocates (is : List Ident) :
    Relocates φ (Option.map (TypeRef.relocate φ)) (interfaceType is)
      (interfaceType (is.map (Ident.relocate φ))) := by
  cases is with
  | nil => exact .pure rfl
  | cons first rest =>
    refine .bind .freshId fun id => .pure ?_
    have hlast : ((rest.map (Ident.relocate φ)).getLast?.getD (first.relocate φ))
        = (rest.getLast?.getD first).relocate φ := by
      rw [List.getLast?_map, Option.getD_map]
    rw [List.map_cons, hlast, Option.map_some, TypeRef.relocate_named]
    simp [Node.relocate, Ident.relocate, NameSegment.relocate, OffsetRange.relocate_cover hφ]

theorem typedMember_relocates (l : Leading) :
    Relocates φ (Member.relocate φ) (typedMember l) (typedMember (l.relocate φ)) := by
  refine .bind (type_relocates hφ _) fun t => .bind .bound fun _ =>
    .bind (dottedIdents_relocates _) fun is => ?_
  rw [List.getLast?_map, ← List.map_dropLast]
  cases is.getLast? with
  | none => exact .failExpecting _
  | some name =>
    refine .bind (interfaceType_relocates hφ _) fun interface => .bind (.atMark _) fun _ =>
      .bind (.atMark _) fun _ => .ite ?_ (.bind (.atMark _) fun _ => .bind (.atMark _) fun _ =>
        .ite ?_ ?_)
    · exact .bind (method_relocates hφ l t interface name) fun _ => .pure rfl
    · exact .bind (property_relocates hφ l t name) fun _ => .pure rfl
    · exact .bind (field_relocates hφ l t name) fun _ => .pure rfl

/-! ## Types and namespaces -/

omit hφ in
theorem typeKeyword_relocates : Relocates φ (fun k => k) typeKeyword typeKeyword :=
  .bind (.takeWord _) fun _ => .ite (.pure rfl) <| .bind (.takeWord _) fun _ =>
    .ite (.pure rfl) <| .bind (.takeWord _) fun _ => .ite (.pure rfl) (.failExpecting _)

theorem typeDeclWith_relocates {member member' : String → Parser Member}
    (hmember : ∀ name, Relocates φ (Member.relocate φ) (member name) (member' name)) (l : Leading)
    (namespaceName : Option String) :
    Relocates φ (TypeDecl.relocate φ) (typeDeclWith member l namespaceName)
      (typeDeclWith member' (l.relocate φ) namespaceName) := by
  refine .bind typeKeyword_relocates fun _ => .bind .identifier fun name =>
    .bind typeParameters_relocates fun _ => .bind (.takeMark _) fun _ => ?_
  refine .join (.byComma (type_relocates hφ _)) (.pure rfl) fun _ => ?_
  exact .bind skipConstraints_relocates fun _ => .bind (.expectMark _) fun _ =>
    .bind (.untilMark (hmember _) _) fun _ => .bind (.discard (.takeMark _)) fun _ =>
      .bind (close_relocates hφ l name) fun _ =>
        .pure (by simp [TypeDecl.relocate, TypeHeader.relocate])

theorem memberWith_relocates {typeDecl typeDecl' : Leading → Parser TypeDecl}
    (htype : ∀ l, Relocates φ (TypeDecl.relocate φ) (typeDecl l) (typeDecl' (l.relocate φ)))
    (typeName : String) :
    Relocates φ (Member.relocate φ) (memberWith typeDecl typeName)
      (memberWith typeDecl' typeName) := by
  refine .bind (leading_relocates hφ) fun l => .bind (.atAnyWord _) fun _ => .ite ?_ ?_
  · exact .bind (htype l) fun _ => .pure rfl
  refine .bind (.atWord _) fun _ => .bind .peekSecond fun _ => .ite ?_ (typedMember_relocates hφ l)
  exact .bind (constructor_relocates hφ l) fun _ => .pure rfl

theorem typeDeclToDepth_relocates (namespaceName : Option String) (depth : Nat) (l : Leading) :
    Relocates φ (TypeDecl.relocate φ) (typeDeclToDepth namespaceName depth l)
      (typeDeclToDepth namespaceName depth (l.relocate φ)) := by
  induction depth generalizing l with
  | zero => exact .failTooDeep
  | succ depth ih => exact typeDeclWith_relocates hφ (memberWith_relocates hφ ih) l namespaceName

omit hφ in
theorem dottedName_relocates (rounds : Nat) :
    Relocates φ (fun s => s) (dottedName rounds) (dottedName rounds) := by
  induction rounds with
  | zero => exact .failTooDeep
  | succ rounds ih =>
    exact .bind .identifier fun _ => .bind (.takeMark _) fun _ =>
      .ite (.bind ih fun _ => .pure rfl) (.pure rfl)

omit hφ in
theorem usingDirective_relocates :
    Relocates φ (fun name => name) usingDirective usingDirective := by
  refine .bind (.atWord _) fun _ => .bind .peekSecond fun _ => .ite ?_ ?_
  · exact .bind .bound fun _ => .bind (.skipTo _ _) fun _ => .bind (.expectMark _) fun _ =>
      .pure rfl
  · exact .bind .bound fun _ => .bind (dottedName_relocates _) fun _ =>
      .bind (.expectMark _) fun _ => .pure rfl

theorem declarations_relocates (topLevel : Bool) (rounds : Nat) (namespaceName : Option String) :
    Relocates φ (CompilationUnit.relocate φ) (declarations topLevel rounds namespaceName)
      (declarations topLevel rounds namespaceName) := by
  induction rounds generalizing topLevel namespaceName with
  | zero => exact .failTooDeep
  | succ rounds ih =>
    -- what is read in front of the other declarations
    have hrest (u : CompilationUnit) : Relocates φ (CompilationUnit.relocate φ)
        (declarations topLevel rounds namespaceName >>= fun rest => pure (u.append rest))
        (declarations topLevel rounds namespaceName >>= fun rest =>
          pure ((u.relocate φ).append rest)) :=
      .bind (ih _ _) fun _ => .pure (CompilationUnit.relocate_append ..)
    refine .bind .peek fun _ => .ite (.ite (.pure rfl) (.failExpecting _)) ?_
    refine .bind (.atMark _) fun _ => .ite (.bind .advance fun _ => .pure rfl) ?_
    refine .bind (.takeWord _) fun _ => .ite ?_ (.bind (.takeWord _) fun _ => .ite ?_ ?_)
    · exact .bind usingDirective_relocates fun name => hrest ⟨name.toList, [], []⟩
    · refine .bind .bound fun _ => .bind (dottedName_relocates _) fun _ =>
        .bind (.takeMark _) fun _ => .ite (ih _ _) ?_
      exact .bind (.expectMark _) fun _ => .bind (ih _ _) fun inner => hrest inner
    refine .bind (.atMark _) fun _ => .bind .peekSecond fun _ => .ite ?_ ?_
    · exact .bind (attributes_relocates hφ) fun as => hrest ⟨[], as, []⟩
    · exact .bind (leading_relocates hφ) fun l => .bind .bound fun _ =>
        .bind (typeDeclToDepth_relocates hφ _ _ l) fun decl => hrest ⟨[], [], [decl]⟩

/-- On moved tokens the declarations are the moved declarations. -/
theorem compilationUnit_relocates :
    Relocates φ (CompilationUnit.relocate φ) compilationUnit compilationUnit :=
  .bind .bound fun _ => declarations_relocates hφ _ _ _

end

end PropertyLint.Grammar
