/-
# Binding expressions and statements

The meaning of an expression is a value of some type, a type, a namespace or a group of methods.
Parts are bound from left to right, and the facts about them are recorded on the way.  A call whose
method cannot be chosen has a value of unknown type.
-/
import PropertyLint.Binding.Types
import PropertyLint.Binding.Overload

namespace PropertyLint

open Binder

/-- What an expression denotes. -/
inductive Meaning where
  | value (type : Option SymbolId)
  | type (symbol : SymbolId)
  | namespaceName (name : String)
  | methods (candidates : List SymbolId)
  | nothing

namespace Meaning

/-- The type of a value. -/
def valueType? : Meaning → Option SymbolId
  | value t => t
  | _ => none

/-- The meaning of a type that may not have been found. -/
def ofType? : Option SymbolId → Meaning
  | some t => type t
  | none => nothing

end Meaning

/-- The known type of a literal's values; `null` has none. -/
def Literal.type? : Literal → Option KeywordType
  | .string _ => some .string
  | .char _ => some .char
  | .integer _ => some .int
  | .real text =>
    match text.toList.getLast? with
    | some 'f' | some 'F' => some .float
    | some 'm' | some 'M' => some .decimal
    | _ => some .double
  | .bool _ => some .bool
  | .null => none

/-- The constant of a literal; characters are no constants. -/
def Literal.constant? : Literal → Option Constant
  | .string value => some (.string value)
  | .char _ => none
  | .integer value => some (.integer value)
  | .real text => some (.real text)
  | .bool value => some (.bool value)
  | .null => some .null

/-- Binds a literal. -/
def bindLiteral (scope : Scope) (node : Node) (l : Literal) : Binder Meaning := do
  if let some v := l.constant? then recordConstant scope node.id v
  match l.type? with
  | some k => return .value (← keywordType? k)
  | none => return .value none

/-- The meaning of a name that members were found for: if the first one is a method, all methods
among them, and else the first one. -/
def memberMeaning (scope : Scope) (node : Node) (members : List SymbolId) : Binder Meaning := do
  let s ← get
  match members with
  | [] => return .nothing
  | first :: _ =>
    if (s.comp.method? first).isSome then
      return .methods (members.filter fun m => (s.comp.method? m).isSome)
    else
      recordSymbol scope node.id first
      if let some v := s.fieldConstants.lookup first then recordConstant scope node.id v
      return .value (s.comp.valueType? first)

/-- Binds a single name: a local, a member of an enclosing type, a type or a namespace. -/
def bindIdentifier (scope : Scope) (node : Node) (name : String) : Binder Meaning := do
  let s ← get
  match s.locals.lookup name with
  | some found =>
    recordSymbol scope node.id found
    return .value (s.comp.valueType? found)
  | none =>
    let groups := (scope.enclosingTypes s.comp).map fun owner => s.comp.lookupMembers owner name
    match groups.find? fun members => !members.isEmpty with
    | some members => memberMeaning scope node members
    | none =>
      match ← simpleType scope name [] with
      | some t => return .type t
      | none => return if (← comp).hasNamespace name then .namespaceName name else .nothing

/-- Binds a name behind a dot. -/
def bindMember (scope : Scope) (node : Node) (target : Meaning) (name : String) :
    Binder Meaning := do
  let c ← comp
  match target with
  | .namespaceName container =>
    let full := container ++ "." ++ name
    match c.typeNamed? full with
    | some t => return .type t
    | none => return if c.hasNamespace full then .namespaceName full else .nothing
  | .type t =>
    match c.lookupMembers t name with
    | [] => return .ofType? (← nestedType t name [])
    | members => memberMeaning scope node members
  | .value (some t) => memberMeaning scope node (c.lookupMembers t name)
  | _ => return .nothing

/-- Binds a call of the chosen method. -/
def bindCall (scope : Scope) (node callee : Node) (meaning : Meaning) (args : List PassedArg) :
    Binder Meaning := do
  match meaning with
  | .methods candidates =>
    let c ← compWithKnown
    match c.pickOverload candidates args with
    | some method =>
      recordSymbol scope node.id method
      recordSymbol scope callee.id method
      return .value ((c.method? method).bind MethodSymbol.returnType)
    | none => return .value none
  | _ => return .value none

/-- Binds the choice of a constructor. -/
def bindConstructor (scope : Scope) (node : NodeId) (type : SymbolId) (args : List PassedArg) :
    Binder Unit := do
  let c ← compWithKnown
  if let some method := c.pickOverload (c.constructorsOf type) args then
    recordSymbol scope node method

/-- The type of `a ? b : c` for the types of `b` and `c`: the one that the other can be converted
to, or the one that is known. -/
def Compilation.unify (c : Compilation) (a b : Option SymbolId) : Option SymbolId :=
  match a, b with
  | some s, some t =>
    if c.isAssignableTo t s then some s else if c.isAssignableTo s t then some t else none
  | some s, none => some s
  | none, t => t

/-- Binds a sum: with a string on either side it is a string, and two string constants are joined.
-/
def bindSum (scope : Scope) (node left right : Node) (leftType rightType : Option SymbolId) :
    Binder Meaning := do
  let string ← knownType? .string
  if string.isSome && (leftType == string || rightType == string) then
    match ← constant? scope left.id, ← constant? scope right.id with
    | some (.string a), some (.string b) => recordConstant scope node.id (.string (a ++ b))
    | _, _ => pure ()
    return .value string
  else return .value (leftType <|> rightType)

/-- Binds a binary operation on bound operands. -/
def bindBinary (scope : Scope) (node : Node) (op : BinaryOp) (left right : Node)
    (leftType rightType : Option SymbolId) : Binder Meaning := do
  match op with
  | .add => bindSum scope node left right leftType rightType
  | .sub | .mul | .div | .rem => return .value (leftType <|> rightType)
  | .coalesce => return .value (rightType <|> leftType)
  | .eq | .notEq | .less | .greater | .lessEq | .greaterEq | .and | .or =>
    return .value (← knownType? .boolean)

/-- The array type with a written element type. -/
def arrayType (scope : Scope) (element : TypeRef) : Binder (Option SymbolId) := do
  match ← resolveType scope element with
  | some t => return some (← change fun c => c.arrayOf t)
  | none => return none

/-- Records what an expression denotes. -/
def recordMeaning (scope : Scope) (node : Node) (m : Meaning) : Binder Meaning := do
  match m with
  | .value (some t) => recordType scope node.id t
  | .type t => recordSymbol scope node.id t
  | _ => pure ()
  return m

/-- The name that an argument passes its value to; names written with `=` set properties instead. -/
def Argument.paramName? {ε : Type} (a : Argument ε) : Option String :=
  match a.name with
  | some ⟨ident, .colon⟩ => some ident.text
  | _ => none

mutual

/-- Binds an expression. -/
def bindExpr (scope : Scope) : Expr → Binder Meaning
  | .literal node value => do recordMeaning scope node (← bindLiteral scope node value)
  | .identifier node name => do recordMeaning scope node (← bindIdentifier scope node name.text)
  | .self node => recordMeaning scope node (.value scope.type)
  | .base node => do
    let c ← comp
    recordMeaning scope node (.value ((scope.type.bind c.type?).bind TypeSymbol.baseType))
  | .member node target name => do
    let meaning ← bindExpr scope target
    recordMeaning scope node (← bindMember scope node meaning name.text)
  | e@(.invoke node callee ⟨_, args⟩) => do
    if e.isNameof then
      if let some text ← bindFirst scope args then recordConstant scope node.id (.string text)
      recordMeaning scope node (.value (← knownType? .string))
    else
      let passed ← bindArgs scope args
      let meaning ← bindExpr scope callee
      recordMeaning scope node (← bindCall scope node callee.node meaning passed)
  | .create node type none => do
    let created ← resolveType scope type
    if let some t := created then bindConstructor scope node.id t []
    recordMeaning scope node (.value created)
  | .create node type (some ⟨_, args⟩) => do
    let created ← resolveType scope type
    let passed ← bindArgs scope args
    if let some t := created then bindConstructor scope node.id t passed
    recordMeaning scope node (.value created)
  | .createArray node type none => do
    recordMeaning scope node (.value (← arrayType scope type))
  | .createArray node type (some size) => do
    let _ ← bindExpr scope size
    recordMeaning scope node (.value (← arrayType scope type))
  | .typeOf node type => do
    let _ ← resolveType scope type
    recordMeaning scope node (.value (← knownType? .type))
  | .default node none => recordMeaning scope node (.value none)
  | .default node (some type) => do
    recordMeaning scope node (.value (← resolveType scope type))
  | .cast node type operand => do
    let _ ← bindExpr scope operand
    recordMeaning scope node (.value (← resolveType scope type))
  | .asType node operand type => do
    let _ ← bindExpr scope operand
    recordMeaning scope node (.value (← resolveType scope type))
  | .isType node operand type designation => do
    let _ ← bindExpr scope operand
    let type ← resolveType scope type
    if let some name := designation then
      addLocal name.text (← add (.localVar ⟨name.text, type, none⟩))
    recordMeaning scope node (.value (← knownType? .boolean))
  | .binary node op left right => do
    let leftMeaning ← bindExpr scope left
    let rightMeaning ← bindExpr scope right
    recordMeaning scope node (← bindBinary scope node op left.node right.node
      leftMeaning.valueType? rightMeaning.valueType?)
  | .unary node .not operand => do
    let _ ← bindExpr scope operand
    recordMeaning scope node (.value (← knownType? .boolean))
  | .unary node .neg operand => do
    let meaning ← bindExpr scope operand
    if let some (.integer value) ← constant? scope operand.id then
      recordConstant scope node.id (.integer (-value))
    recordMeaning scope node (.value meaning.valueType?)
  | .conditional node condition whenTrue whenFalse => do
    let _ ← bindExpr scope condition
    let yes ← bindExpr scope whenTrue
    let no ← bindExpr scope whenFalse
    let c ← compWithKnown
    recordMeaning scope node (.value (c.unify yes.valueType? no.valueType?))
  | .assign node target value => do
    let meaning ← bindExpr scope target
    let _ ← bindExpr scope value
    recordMeaning scope node (.value meaning.valueType?)
  | .paren node inner => do
    let meaning ← bindExpr scope inner
    copyConstant scope inner.id node.id
    recordMeaning scope node meaning

/-- Binds arguments. -/
def bindArgs (scope : Scope) : List (Argument Expr) → Binder (List PassedArg)
  | [] => return []
  | arg@⟨_, _, value⟩ :: rest => do
    let meaning ← bindExpr scope value
    let passed ← bindArgs scope rest
    return ⟨arg.paramName?, meaning.valueType?⟩ :: passed

/-- Binds the first argument, and gives the last name in it. -/
def bindFirst (scope : Scope) : List (Argument Expr) → Binder (Option String)
  | [] => return none
  | ⟨_, _, value⟩ :: _ => do
    let _ ← bindExpr scope value
    return value.nameText?

end

/-- Binds an expression and gives the type of its value. -/
def bindValue (scope : Scope) (e : Expr) : Binder (Option SymbolId) :=
  return (← bindExpr scope e).valueType?

/-- Binds an expression that may be missing. -/
def bindOption (scope : Scope) : Option Expr → Binder Unit
  | some e => discard (bindExpr scope e)
  | none => pure ()

/-! ## Statements -/

/-- Binds the declaration of a local; `var` takes the type of the initial value. -/
def bindLocal (scope : Scope) (node : Node) (type : TypeRef) (name : Ident) (init : Option Expr) :
    Binder Unit := do
  let initType ← match init with
    | some e => bindValue scope e
    | none => pure none
  let type ← if type.isVar then pure initType else resolveType scope type
  let id ← add (.localVar ⟨name.text, type, scope.sourceRef node⟩)
  declare scope node.id id
  addLocal name.text id

mutual

/-- Binds a statement. -/
def bindStmt (scope : Scope) : Stmt → Binder Unit
  | .expression _ value => discard (bindExpr scope value)
  | .returning _ value => bindOption scope value
  | .throwing _ value => bindOption scope value
  | .localDecl node type name init => bindLocal scope node type name init
  | .branch _ condition yes none => do
    let _ ← bindExpr scope condition
    withLocals (bindStmt scope yes)
  | .branch _ condition yes (some no) => do
    let _ ← bindExpr scope condition
    withLocals (bindStmt scope yes)
    withLocals (bindStmt scope no)
  | .block _ ⟨_, statements⟩ => withLocals (bindStmts scope statements)
  | .empty _ => pure ()

/-- Binds statements one after the other. -/
def bindStmts (scope : Scope) : List Stmt → Binder Unit
  | [] => pure ()
  | s :: rest => do
    bindStmt scope s
    bindStmts scope rest

end

/-- Binds a body. -/
def bindBody (scope : Scope) (body : Body) : Binder Unit := do
  if let some block := body.block then withLocals (bindStmts scope block.statements)
  bindOption scope body.arrow

end PropertyLint
