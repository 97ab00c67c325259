/-
# Accessors of dependency properties

An instance property wraps a dependency property if its accessors call `GetValue` and `SetValue` on
the object itself.  Attached properties have static accessor methods that call these on their first
parameter.  The call that counts is the leftmost outermost one.  Whether it calls the framework's
method is asked of the model.
-/
import PropertyLint.Pattern.Argument
import PropertyLint.Syntax.Walk

namespace PropertyLint

/-! ## The shape of a call -/

/-- The expression calls a method with one of the names and with a number of arguments, on a target
that fits.  A name alone is its own target. -/
def Expr.isCall (names : List String) (arity : Nat) (fits : Expr → Bool) : Expr → Bool
  | .invoke _ callee args =>
    args.args.length == arity &&
      match callee with
      | .member _ target name => names.contains name.text && fits target
      | .identifier _ name => names.contains name.text && fits callee
      | _ => false
  | _ => false

/-- The first call in an expression. -/
def Expr.findCall? (e : Expr) (isCall : Expr → Bool) : Option Expr := e.walk.find? isCall

/-- The first call in a body: in its arrow, if it has one, and else in its block. -/
def Body.findCall? (b : Body) (isCall : Expr → Bool) : Option Expr :=
  match b.arrow with
  | some value => value.findCall? isCall
  | none => b.block.bind fun block => block.exprs.find? isCall

/-- The expression is `this`, `base` or a single name. -/
def Expr.isInstance : Expr → Bool
  | .self _ | .base _ | .identifier _ _ => true
  | _ => false

/-- The expression is a single name, inside of parentheses. -/
def Expr.isName (name : String) (e : Expr) : Bool :=
  match e.unparenthesized with
  | .identifier _ ident => ident.text == name
  | _ => false

/-- The names of methods that set a value. -/
def setterNames : List String := ["SetValue", "SetCurrentValue"]

/-- A call that reads a value of the object itself. -/
def Expr.isInstanceGet (e : Expr) : Bool := e.isCall ["GetValue"] 1 Expr.isInstance

/-- A call that sets a value of the object itself. -/
def Expr.isInstanceSet (e : Expr) : Bool := e.isCall setterNames 2 Expr.isInstance

/-! ## Properties -/

/-- The calls of a property that wraps a dependency property. -/
structure WrapperCalls where
  getCall : Option Expr
  setCall : Option Expr

namespace PropertyDecl

/-- The call that reads the value. -/
def getCall? (p : PropertyDecl) : Option Expr :=
  match p.arrow with
  | some value => value.findCall? Expr.isInstanceGet
  | none => p.getter?.bind fun a => a.body.findCall? Expr.isInstanceGet

/-- The call that sets the value. -/
def setCall? (p : PropertyDecl) : Option Expr :=
  p.setter?.bind fun a => a.body.findCall? Expr.isInstanceSet

/-- The calls of an instance property that reads or sets a value. -/
def wrapperCalls? (p : PropertyDecl) : Option WrapperCalls :=
  if p.modifiers.isStatic then none
  else if p.getCall?.isSome || p.setCall?.isSome then some ⟨p.getCall?, p.setCall?⟩
  else none

/-- The value that a static property has: its initial value, its arrow or its getter's arrow. -/
def staticValue? (p : PropertyDecl) : Option Expr :=
  p.init <|> p.arrow <|> p.getter?.bind fun a => a.body.arrow

end PropertyDecl

/-- The value that a field, or a static property, starts with. -/
def Member.startValue? : Member → Option Expr
  | .field d => d.init
  | .property d => d.staticValue?
  | _ => none

/-! ## Methods -/

/-- Whether an accessor method reads or sets a value. -/
inductive Direction where
  | get | set
deriving DecidableEq, Repr

/-- The word that the name of an accessor method starts with. -/
def Direction.word : Direction → String
  | get => "Get"
  | set => "Set"

/-- The call of an accessor method. -/
structure AttachedCall where
  direction : Direction
  call : Expr

/-- The call of a static method with one parameter and a result that reads a value of the parameter,
or with two parameters and no result that sets one. -/
def MethodDecl.attachedCall? (m : MethodDecl) : Option AttachedCall := do
  if !m.modifiers.isStatic then none
  let element := (← m.params.head?).name.text
  match m.params.length, m.returnType.isVoid with
  | 1, false =>
    let call ← m.body.findCall? (Expr.isCall ["GetValue"] 1 (Expr.isName element))
    return ⟨.get, call⟩
  | 2, true =>
    let call ← m.body.findCall? (Expr.isCall setterNames 2 (Expr.isName element))
    return ⟨.set, call⟩
  | _, _ => none

/-! ## Confirmed calls -/

/-- A call of the framework's method. -/
structure AccessorCall where
  call : Expr
  member : KnownMember
  /-- The symbol that is passed as the dependency property. -/
  backing : Option SymbolId

/-- The member reads or sets the value of a dependency property. -/
def KnownMember.isAccess (k : KnownMember) : Bool :=
  k == .getValue || k == .setValue || k == .setCurrentValue

/-- The call, if the method it calls is the framework's. -/
def Model.confirmCall? (m : Model) (call : Expr) : Option AccessorCall := do
  let member ← m.knownMember? call
  if !member.isAccess then none
  let first ← (← call.argumentList?).args.head?
  return ⟨call, member, m.symbol? first.value.unparenthesized.id⟩

end PropertyLint
