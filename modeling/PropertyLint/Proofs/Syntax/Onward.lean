/-
# Parsers that move on

Most parsers only move on (`Onward`), and those that look for something move on by a token or more
(`Consuming`).  Both are seen from the way in which a parser is built.
-/
import PropertyLint.Proofs.Syntax.RefusalDecls

namespace PropertyLint.Grammar

variable {α β : Type} {c c' : Cursor}


/-- The parser only moves on. -/
class Onward (p : Parser α) : Prop where
  moves : Moves p

namespace Onward

variable {p q : Parser α} {k : α → Parser β}

instance pure (a : α) : Onward (Pure.pure a : Parser α) where
  moves c b c' h := by
    obtain ⟨-, rfl⟩ := runs_pure.1 h
    exact .refl c

instance bind [hp : Onward p] [hk : ∀ a, Onward (k a)] : Onward (p >>= k) where
  moves c b c' h := by
    obtain ⟨a, c₁, ha, hb⟩ := runs_bind.1 h
    exact (hp.moves ha).trans ((hk a).moves hb)

instance map {f : α → β} [hp : Onward p] : Onward (f <$> p) where
  moves c b c' h := by
    obtain ⟨a, ha, -⟩ := runs_map.1 h
    exact hp.moves ha

instance discard [hp : Onward p] : Onward (discard p) where
  moves c b c' h := by
    obtain ⟨a, ha⟩ := runs_discard.1 h
    exact hp.moves ha

instance ite {P : Prop} [Decidable P] [hp : Onward p] [hq : Onward q] :
    Onward (if P then p else q) := by
  split
  · exact hp
  · exact hq

instance get : Onward (MonadState.get : Parser Cursor) where
  moves c d c' h := by
    obtain ⟨-, rfl⟩ := runs_get.1 h
    exact .refl c

instance advance : Onward advance where
  moves c u c' h := by
    obtain rfl := runs_advance.1 h
    exact c.reaches_advance

instance failExpecting (e : Expected) : Onward (failExpecting e : Parser α) where
  moves c a c' h := by simp at h

instance failTooDeep : Onward (failTooDeep : Parser α) where
  moves c a c' h := by simp at h

instance freshId : Onward freshId where
  moves c id c' h := by
    obtain ⟨rfl, -⟩ := runs_freshId.1 h
    exact c.reaches_renew

instance peek : Onward peek := by unfold Grammar.peek; infer_instance

instance peekSecond : Onward peekSecond := by unfold Grammar.peekSecond; infer_instance

instance position : Onward position := by unfold Grammar.position; infer_instance

instance bound : Onward bound := by unfold Grammar.bound; infer_instance

instance atMark (m : Punct) : Onward (atMark m) := by unfold Grammar.atMark; infer_instance

instance atWord (w : String) : Onward (atWord w) := by unfold Grammar.atWord; infer_instance

instance atAnyWord (ws : List String) : Onward (atAnyWord ws) := by
  unfold Grammar.atAnyWord; infer_instance

instance takeMark (m : Punct) : Onward (takeMark m) := by unfold Grammar.takeMark; infer_instance

instance takeWord (w : String) : Onward (takeWord w) := by unfold Grammar.takeWord; infer_instance

instance expectMark (m : Punct) : Onward (expectMark m) := by
  unfold Grammar.expectMark; infer_instance

instance rangeFrom (start : Nat) : Onward (rangeFrom start) := by
  unfold Grammar.rangeFrom; infer_instance

instance newNode (start : Nat) : Onward (newNode start) := by
  unfold Grammar.newNode; infer_instance

instance identifier : Onward identifier where
  moves c i c' h := by
    obtain ⟨t, -, -, hread⟩ := exists_reads_identifier h
    exact ⟨[t], hread⟩

end Onward

/-- The parser moves on by a token or more. -/
class Consuming (p : Parser α) : Prop where
  consumes : Consumes p

namespace Consuming

variable {p q : Parser α} {k : α → Parser β}

instance (priority := low) onward [hp : Consuming p] : Onward p := ⟨hp.consumes.moves⟩

instance first [hp : Consuming p] [hk : ∀ a, Onward (k a)] : Consuming (p >>= k) where
  consumes c b c' h := by
    obtain ⟨a, c₁, ha, hb⟩ := runs_bind.1 h
    obtain ⟨hreaches, hlt⟩ := hp.consumes ha
    have hreaches' := (hk a).moves hb
    exact ⟨hreaches.trans hreaches', Nat.lt_of_le_of_lt hreaches'.length_le hlt⟩

instance next [hp : Onward p] [hk : ∀ a, Consuming (k a)] : Consuming (p >>= k) where
  consumes c b c' h := by
    obtain ⟨a, c₁, ha, hb⟩ := runs_bind.1 h
    obtain ⟨hreaches, hlt⟩ := (hk a).consumes hb
    have hreaches' := hp.moves ha
    exact ⟨hreaches'.trans hreaches, Nat.lt_of_lt_of_le hlt hreaches'.length_le⟩

instance ite {P : Prop} [Decidable P] [hp : Consuming p] [hq : Consuming q] :
    Consuming (if P then p else q) := by
  split
  · exact hp
  · exact hq

instance failExpecting (e : Expected) : Consuming (failExpecting e : Parser α) where
  consumes c a c' h := by simp at h

instance failTooDeep : Consuming (failTooDeep : Parser α) where
  consumes c a c' h := by simp at h

instance expectMark (m : Punct) : Consuming (expectMark m) where
  consumes c u c' h := by
    obtain ⟨hhead, rfl⟩ := runs_expectMark.1 h
    exact ⟨c.reaches_advance, Cursor.length_advance_of_punct hhead⟩

instance identifier : Consuming identifier where
  consumes _ _ _ h := ⟨Onward.identifier.moves h, lt_of_identifier h⟩

instance itemsUntil (close : Punct) [hp : Onward p] (rounds : Nat) :
    Consuming (itemsUntil close p rounds) := by
  induction rounds with
  | zero => exact failTooDeep
  | succ rounds ih =>
    refine ⟨fun c as c' h => ?_⟩
    have hmoves := hp.moves
    have hrest := ih.consumes
    unfold Moves Consumes at *
    simp [Grammar.itemsUntil] at h
    grind

instance untilMark (close : Punct) [Onward p] : Consuming (untilMark close p) := by
  unfold Grammar.untilMark
  infer_instance

instance inParens [hp : Onward p] : Consuming (inParens p) := ⟨inParens_consumes hp.moves⟩

end Consuming

namespace Onward

variable {p : Parser α}

instance byComma [hp : Onward p] : Onward (byComma p) := ⟨byComma_moves hp.moves⟩

instance itemsByComma [hp : Onward p] (rounds : Nat) : Onward (itemsByComma p rounds) := by
  induction rounds with
  | zero => exact failTooDeep
  | succ rounds ih => unfold Grammar.itemsByComma; infer_instance

instance closePairs (opening closing : Punct) (rounds depth : Nat) :
    Onward (closePairs opening closing rounds depth) := by
  fun_induction Grammar.closePairs opening closing rounds depth with
  | case1 => infer_instance
  | case2 => infer_instance
  | case3 => dsimp only; infer_instance

instance skipPair (opening closing : Punct) : Onward (skipPair opening closing) := by
  unfold Grammar.skipPair; infer_instance

instance skipTo (stop : TokenKind → Bool) (rounds : Nat) : Onward (skipTo stop rounds) := by
  induction rounds with
  | zero => exact failTooDeep
  | succ rounds ih => unfold Grammar.skipTo; infer_instance

end Onward

/-! ## Types and expressions -/

section
variable {typeArg : Parser TypeRef} [harg : Onward typeArg]

instance : Onward atDottedWord := by unfold atDottedWord; infer_instance

instance (place : TypePlace) : Onward (nullableHere place) := by
  cases place <;> (unfold nullableHere; infer_instance)

instance : Consuming (nameSegment typeArg) := ⟨nameSegment_consumes harg.moves⟩

instance (rounds : Nat) : Consuming (nameSegments typeArg rounds) := by
  cases rounds with
  | zero => exact .failTooDeep
  | succ rounds =>
    have hrest : Onward (nameSegments typeArg rounds) := ⟨nameSegments_moves harg.moves rounds⟩
    unfold nameSegments
    infer_instance

instance (place : TypePlace) (start rounds : Nat) (t : TypeRef) :
    Onward (typeSuffixes place start rounds t) where
  moves c t c' h := by
    obtain ⟨read, hread, -⟩ := typeSuffixes_spells place start rounds _ h
    exact ⟨read, hread⟩

instance (place : TypePlace) : Consuming (typeWith typeArg place) where
  consumes c t c' h := by
    cases hhead : c.head with
    | word w =>
      cases hkeyword : KeywordType.ofKeyword? w with
      | some k =>
        simp [typeWith, hhead, hkeyword] at h
        have hmoves := Onward.moves h
        have := Cursor.length_advance_of_word hhead
        grind
      | none =>
        simp [typeWith, hhead, hkeyword] at h
        obtain ⟨segments, c₁, hsegments, h⟩ := h
        have hmoves := Onward.moves h
        have := Consuming.consumes hsegments
        grind
    | _ => simp [typeWith, hhead] at h

instance (depth : Nat) (place : TypePlace) : Consuming (typeToDepth depth place) := by
  induction depth generalizing place with
  | zero => exact .failTooDeep
  | succ depth ih => unfold typeToDepth; infer_instance

instance (place : TypePlace) : Consuming (type place) := by unfold type; infer_instance

instance : Onward typeInParens := by unfold typeInParens; infer_instance

end

section
variable {expression unary operand coalesce : Parser Expr} [hexpr : Onward expression]
  [hunary : Onward unary] [hoperand : Onward operand] [hcoalesce : Onward coalesce]

instance (inAttribute : Bool) : Onward (argumentName inAttribute) :=
  ⟨fun _ _ _ => reaches_of_argumentName⟩

instance (inAttribute : Bool) : Onward (argument expression inAttribute) :=
  ⟨argument_moves hexpr.moves inAttribute⟩

instance (inAttribute : Bool) : Consuming (argumentList expression inAttribute) :=
  ⟨argumentList_consumes hexpr.moves inAttribute⟩

/-- Passes over an initializer between braces, behind what is created. -/
def initialized (start : Nat) (make : Node → Expr) : Parser Expr := do
  if ← atMark .openBrace then skipPair .openBrace .closeBrace
  return make (← newNode start)

/-- Reads what stands behind the type that is created, if no size does. -/
def createdOf (expression : Parser Expr) (start : Nat) (type : TypeRef) : Parser Expr :=
  match type with
  | .array _ element => initialized start fun n => .createArray n element none
  | _ => do
    if ← atMark .openParen then
      let args ← some <$> argumentList expression false
      initialized start fun n => .create n type args
    else initialized start fun n => .create n type none

theorem creation_eq (expression : Parser Expr) (start : Nat) :
    creation expression start = (do
      let type ← type .expression
      if ← takeMark .openBracket then
        let size ← expression
        expectMark .closeBracket
        return .createArray (← newNode start) type (some size)
      else createdOf expression start type) :=
  rfl

instance (start : Nat) (make : Node → Expr) : Onward (initialized start make) := by
  unfold initialized
  dsimp only
  infer_instance

instance (start : Nat) (type : TypeRef) : Onward (createdOf expression start type) := by
  unfold createdOf
  split <;> infer_instance

instance (start : Nat) : Onward (creation expression start) := by
  rw [creation_eq]
  infer_instance

instance (word : String) (range : OffsetRange) : Onward (wordExpression expression word range) := by
  unfold wordExpression
  refine @Onward.bind _ _ _ _ _ fun _ => ?_
  split <;> infer_instance

instance : Onward (primary expression) := by
  unfold primary
  refine @Onward.bind _ _ _ _ _ fun _ => @Onward.bind _ _ _ _ _ fun _ => ?_
  split <;> infer_instance

instance (start rounds : Nat) (target : Expr) :
    Onward (postfixes expression start rounds target) := by
  induction rounds generalizing target with
  | zero => exact .failTooDeep
  | succ rounds ih => unfold postfixes; infer_instance

instance : Onward (postfixed expression) := by unfold postfixed; infer_instance

instance : Onward castType := ⟨fun _ _ _ => reaches_of_castType⟩

instance : Onward (attempt castType) where
  moves c t c' h := by
    obtain ⟨t, ht, rfl⟩ | ⟨habandon, rfl⟩ := runs_attempt.1 h
    · exact reaches_of_castType ht
    · exact habandon.reaches .castType

/-- Reads the operand of a cast, or an expression without one. -/
def behindCast (unary expression : Parser Expr) (start : Nat) : Option TypeRef → Parser Expr
  | some t => do
    let operand ← unary
    return .cast (← newNode start) t operand
  | none => postfixed expression

/-- Reads what stands behind a unary operator, or an expression without one. -/
def behindUnaryOp (unary expression : Parser Expr) (start : Nat) : Option UnaryOp → Parser Expr
  | some op => do
    let operand ← unary
    return .unary (← newNode start) op operand
  | none => do
    if ← atMark .openParen then
      let cast ← attempt castType
      behindCast unary expression start cast
    else
      let cast ← pure none
      behindCast unary expression start cast

theorem unaryWith_eq (unary expression : Parser Expr) : unaryWith unary expression = (do
    let start ← position
    let op ← unaryOp
    behindUnaryOp unary expression start op) := by
  unfold unaryWith
  rfl

instance (start : Nat) (cast : Option TypeRef) :
    Onward (behindCast unary expression start cast) := by
  cases cast <;> (unfold behindCast; infer_instance)

instance (start : Nat) (op : Option UnaryOp) :
    Onward (behindUnaryOp unary expression start op) := by
  cases op <;> (unfold behindUnaryOp; infer_instance)

instance (start : Nat) (left : Expr) : Onward (isPattern start left) := ⟨isPattern_moves start left⟩

/-- Reads what stands behind the left side of a binary operator of a level. -/
def operation (operand : Parser Expr) (level : BinaryLevel) (start rounds : Nat) (left : Expr) :
    Option BinaryOp → Parser Expr
  | some op => do
    advance
    let right ← operand
    let node ← newNode start
    binaryRest operand level start rounds (.binary node op left right)
  | none => return left

theorem binaryRest_succ (operand : Parser Expr) (level : BinaryLevel) (start rounds : Nat)
    (left : Expr) : binaryRest operand level start (rounds + 1) left = (do
      if level.tests && (← atWord "is") then
        advance
        let tested ← isPattern start left
        binaryRest operand level start rounds tested
      else if level.tests && (← atWord "as") then
        advance
        let t ← type .expression
        let node ← newNode start
        binaryRest operand level start rounds (.asType node left t)
      else operation operand level start rounds left (level.op? (← peek))) :=
  rfl

instance (level : BinaryLevel) (start rounds : Nat) (left : Expr) (op : Option BinaryOp)
    [∀ left, Onward (binaryRest operand level start rounds left)] :
    Onward (operation operand level start rounds left op) := by
  cases op <;> (unfold operation; infer_instance)

instance (level : BinaryLevel) (start rounds : Nat) (left : Expr) :
    Onward (binaryRest operand level start rounds left) := by
  induction rounds generalizing left with
  | zero => exact .failTooDeep
  | succ rounds ih =>
    rw [binaryRest_succ]
    infer_instance

instance (levels : List BinaryLevel) : Onward (binary unary levels) := by
  induction levels with
  | nil => exact hunary
  | cons level tighter ih => unfold binary; infer_instance

instance : Onward (conditionalWith expression coalesce) := by unfold conditionalWith; infer_instance

end

instance (depth : Nat) : Consuming (expressionToDepth depth) :=
  ⟨.of_reads fun _ => (toDepth_reads depth).1⟩

instance (depth : Nat) : Consuming (coalesceToDepth depth) :=
  ⟨.of_reads fun _ => (toDepth_reads depth).2.1⟩

instance (depth : Nat) : Consuming (unaryToDepth depth) :=
  ⟨.of_reads fun _ => (toDepth_reads depth).2.2⟩

instance : Consuming expression := ⟨expression_consumes⟩

/-! ## Statements and declarations -/

section
variable {statement : Parser Stmt} [hstatement : Onward statement]

instance : Onward optionalExpression := ⟨fun _ _ _ => reaches_of_optionalExpression⟩

instance : Onward initializer := ⟨fun _ _ _ => reaches_of_initializer⟩

instance (start : Nat) : Consuming (simpleStatement start) := ⟨simpleStatement_consumes start⟩

instance : Consuming (blockWith statement) := ⟨blockWith_consumes hstatement.moves⟩

instance : Consuming (statementWith statement) := ⟨statementWith_consumes hstatement.moves⟩

instance (depth : Nat) : Consuming (statementToDepth depth) := ⟨statementToDepth_consumes depth⟩

instance : Consuming block := ⟨block_consumes⟩

instance : Consuming body := ⟨body_consumes⟩

end

instance : Onward attribute_ := ⟨attribute_moves⟩

instance : Onward attributeSection := ⟨fun _ _ _ => reaches_of_attributeSection⟩

instance (rounds : Nat) : Onward (attributeSections rounds) := by
  induction rounds with
  | zero => exact .failTooDeep
  | succ rounds ih => unfold attributeSections; infer_instance

instance : Onward attributes := ⟨fun _ _ _ => reaches_of_attributes⟩

instance (rounds : Nat) : Onward (modifiersUpTo rounds) := by
  induction rounds with
  | zero => exact .failTooDeep
  | succ rounds ih =>
    unfold modifiersUpTo
    refine @Onward.bind _ _ _ _ _ fun next => ?_
    split
    · split <;> infer_instance
    · infer_instance

instance : Onward leading := ⟨fun _ _ _ => reaches_of_leading⟩

instance (l : Leading) (name : Ident) : Onward (l.close name) := by
  unfold Leading.close; infer_instance

instance : Onward parameter := ⟨parameter_moves⟩

instance : Consuming parameters := ⟨parameters_consumes⟩

instance : Onward typeParameter := ⟨fun _ _ _ => reaches_of_typeParameter⟩

instance : Onward typeParameters := ⟨fun _ _ _ => reaches_of_typeParameters⟩

instance : Onward skipConstraints := by unfold skipConstraints; infer_instance

instance (l : Leading) : Consuming (constructor_ l) := ⟨constructor_consumes l⟩

instance (l : Leading) (t : TypeRef) (interface : Option TypeRef) (name : Ident) :
    Consuming (method l t interface name) := by
  unfold method; infer_instance

instance : Onward accessorKind := by unfold accessorKind; infer_instance

instance : Consuming accessor := ⟨accessor_consumes⟩

instance (l : Leading) (t : TypeRef) (name : Ident) : Onward (property l t name) :=
  ⟨property_moves l t name⟩

instance (l : Leading) (t : TypeRef) (name : Ident) : Consuming (field l t name) := by
  unfold field; infer_instance

instance (l : Leading) (t : TypeRef) (name : Ident) : Consuming (property l t name) := by
  unfold property
  dsimp only
  infer_instance

instance (rounds : Nat) : Onward (dottedIdents rounds) := ⟨fun _ _ _ => reaches_of_dottedIdents⟩

instance (is : List Ident) : Onward (interfaceType is) := by
  cases is <;> (unfold interfaceType; infer_instance)

/-- Reads a member from behind its name. -/
def memberBehind (l : Leading) (t : TypeRef) (interface : Option TypeRef) (name : Ident) :
    Parser Member := do
  if (← atMark .openParen) || (← atMark .less) then
    return .method (← method l t interface name)
  else if (← atMark .openBrace) || (← atMark .arrow) then
    return .property (← property l t name)
  else return .field (← field l t name)

/-- Reads a member from behind the identifiers of its name. -/
def namedMember (l : Leading) (t : TypeRef) (idents : List Ident) : Parser Member := do
  match idents.getLast? with
  | some name =>
    let interface ← interfaceType idents.dropLast
    memberBehind l t interface name
  | none => failExpecting .identifier

theorem typedMember_eq (l : Leading) : typedMember l = (do
    let t ← type .declaration
    let idents ← dottedIdents (← bound)
    namedMember l t idents) :=
  rfl

instance (l : Leading) (t : TypeRef) (interface : Option TypeRef) (name : Ident) :
    Consuming (memberBehind l t interface name) := by
  unfold memberBehind; infer_instance

instance (l : Leading) (t : TypeRef) (idents : List Ident) :
    Consuming (namedMember l t idents) := by
  unfold namedMember
  split <;> infer_instance

instance (l : Leading) : Consuming (typedMember l) := ⟨typedMember_consumes l⟩

instance : Onward typeKeyword := by unfold typeKeyword; infer_instance

/-- What stands in front of the members of a type. -/
structure TypeFront where
  kind : TypeDeclKind
  name : Ident
  typeParams : List Ident
  bases : List TypeRef

/-- Reads a type declaration up to the brace in front of its members. -/
def typeFront : Parser TypeFront := do
  let kind ← typeKeyword
  let name ← identifier
  let typeParams ← typeParameters
  let bases ← if ← takeMark .colon then byComma (type .declaration) else pure []
  skipConstraints
  expectMark .openBrace
  return ⟨kind, name, typeParams, bases⟩

/-- Reads a type declaration from behind the brace that closes it. -/
def typeBack (l : Leading) (namespaceName : Option String) (f : TypeFront) (members : List Member) :
    Parser TypeDecl := do
  discard (takeMark .semicolon)
  let header ← l.close f.name
  return .mk ⟨header, namespaceName, f.kind, f.typeParams, f.bases⟩ members

theorem typeDeclWith_eq (member : String → Parser Member) (l : Leading)
    (namespaceName : Option String) : typeDeclWith member l namespaceName = (do
      let f ← typeFront
      let members ← untilMark .closeBrace (member f.name.text)
      typeBack l namespaceName f members) := by
  unfold typeDeclWith typeFront typeBack
  simp only [bind_assoc, pure_bind]
  refine bind_congr fun kind => bind_congr fun name => bind_congr fun params =>
    bind_congr fun b => ?_
  cases b <;> simp

/-- The type is read from what stands in front of its name and of its members. -/
structure Opened (l : Leading) (namespaceName : Option String) (f : TypeFront) (d : TypeDecl) :
    Prop where
  doc : d.header.doc = l.doc
  start : d.range.start = l.start
  name : d.name = f.name
  namespaceName : d.header.namespaceName = namespaceName
  kind : d.header.kind = f.kind
  typeParams : d.header.typeParams = f.typeParams
  bases : d.header.bases = f.bases

theorem opened_of_typeBack {l : Leading} {namespaceName : Option String} {f : TypeFront}
    {members : List Member} {d : TypeDecl}
    (h : Runs (typeBack l namespaceName f members) c d c') :
    Opened l namespaceName f d ∧ d.members = members := by
  simp [typeBack] at h
  obtain ⟨_, _, _, _, rfl⟩ := h
  exact ⟨⟨rfl, rfl, rfl, rfl, rfl, rfl, rfl⟩, rfl⟩

instance : Consuming typeFront := by
  unfold typeFront
  dsimp only
  infer_instance

instance (l : Leading) (namespaceName : Option String) (f : TypeFront) (members : List Member) :
    Onward (typeBack l namespaceName f members) := by
  unfold typeBack; infer_instance

/-- Reads a member from behind its attributes and modifiers. -/
def memberFrom (typeDecl : Leading → Parser TypeDecl) (typeName : String) (l : Leading) :
    Parser Member := do
  if ← atAnyWord ["class", "struct", "interface"] then return .type (← typeDecl l)
  else if (← atWord typeName) && (← peekSecond) == .punct .openParen then
    return .constructor (← constructor_ l)
  else typedMember l

theorem memberWith_eq (typeDecl : Leading → Parser TypeDecl) (typeName : String) :
    memberWith typeDecl typeName = leading >>= memberFrom typeDecl typeName :=
  rfl

instance (typeDecl : Leading → Parser TypeDecl) [∀ l, Consuming (typeDecl l)] (typeName : String)
    (l : Leading) : Consuming (memberFrom typeDecl typeName l) := by
  unfold memberFrom; infer_instance

instance (typeDecl : Leading → Parser TypeDecl) [∀ l, Consuming (typeDecl l)] (typeName : String) :
    Consuming (memberWith typeDecl typeName) := by
  rw [memberWith_eq]; infer_instance

instance (namespaceName : Option String) (depth : Nat) (l : Leading) :
    Consuming (typeDeclToDepth namespaceName depth l) :=
  ⟨typeDeclToDepth_consumes namespaceName depth l⟩

instance (rounds : Nat) : Onward (dottedName rounds) := ⟨fun _ _ _ => reaches_of_dottedName⟩

/-- Reads a `using` directive that imports no namespace. -/
def otherUsing : Parser (Option String) := do
  skipTo (fun t => t == .punct .semicolon) (← bound)
  expectMark .semicolon
  return none

/-- Reads the namespace that a `using` directive imports. -/
def importedNamespace : Parser (Option String) := do
  let name ← dottedName (← bound)
  expectMark .semicolon
  return some name

instance : Onward otherUsing := by unfold otherUsing; infer_instance

instance : Onward importedNamespace := by unfold importedNamespace; infer_instance

instance : Onward usingDirective := ⟨fun _ _ _ => reaches_of_usingDirective⟩

instance (topLevel : Bool) (rounds : Nat) (namespaceName : Option String) :
    Onward (declarations topLevel rounds namespaceName) :=
  ⟨declarations_moves topLevel rounds namespaceName⟩

end PropertyLint.Grammar
