/-
# The expressions of a declaration

`Expr.walk` lists an expression and all its parts with a stack of expressions that are still to be
visited.  It visits parents first and from left to right: its list is `Expr.preorder`, which is
defined by recursion on the expression (`Expr.walk_eq_preorder`).  Statements, bodies and members
list the walks of their expressions in source order.
-/
import PropertyLint.Syntax.Decl

namespace PropertyLint

/-! ## Expressions -/

/-- The direct parts of an expression from left to right. -/
def Expr.children : Expr → List Expr
  | .member _ target _ => [target]
  | .invoke _ callee args => callee :: args.args.map Argument.value
  | .create _ _ (some args) => args.args.map Argument.value
  | .createArray _ _ (some size) => [size]
  | .cast _ _ operand => [operand]
  | .asType _ operand _ => [operand]
  | .isType _ operand _ _ => [operand]
  | .binary _ _ left right => [left, right]
  | .unary _ _ operand => [operand]
  | .conditional _ condition whenTrue whenFalse => [condition, whenTrue, whenFalse]
  | .assign _ target value => [target, value]
  | .paren _ inner => [inner]
  | _ => []

mutual

/-- The expression and all its parts, parents first and from left to right. -/
def Expr.preorder : Expr → List Expr
  | e@(.member _ target _) => e :: target.preorder
  | e@(.invoke _ callee ⟨_, args⟩) => e :: (callee.preorder ++ preorderArgs args)
  | e@(.create _ _ (some ⟨_, args⟩)) => e :: preorderArgs args
  | e@(.createArray _ _ (some size)) => e :: size.preorder
  | e@(.cast _ _ operand) => e :: operand.preorder
  | e@(.asType _ operand _) => e :: operand.preorder
  | e@(.isType _ operand _ _) => e :: operand.preorder
  | e@(.binary _ _ left right) => e :: (left.preorder ++ right.preorder)
  | e@(.unary _ _ operand) => e :: operand.preorder
  | e@(.conditional _ condition whenTrue whenFalse) =>
    e :: (condition.preorder ++ (whenTrue.preorder ++ whenFalse.preorder))
  | e@(.assign _ target value) => e :: (target.preorder ++ value.preorder)
  | e@(.paren _ inner) => e :: inner.preorder
  | e => [e]

/-- The values of arguments and all their parts. -/
def preorderArgs : List (Argument Expr) → List Expr
  | [] => []
  | ⟨_, _, value⟩ :: rest => value.preorder ++ preorderArgs rest

end

theorem preorderArgs_eq (args : List (Argument Expr)) :
    preorderArgs args = (args.map Argument.value).flatMap Expr.preorder := by
  induction args with
  | nil => rfl
  | cons a rest ih => cases a; simp [preorderArgs, ih]

theorem Expr.preorder_eq (e : Expr) : e.preorder = e :: e.children.flatMap Expr.preorder := by
  cases e with
  | invoke n callee args => cases args; simp [Expr.preorder, Expr.children, preorderArgs_eq]
  | create n type args =>
    rcases args with _ | ⟨_, _⟩ <;> simp [Expr.preorder, Expr.children, preorderArgs_eq]
  | createArray n type size => cases size <;> simp [Expr.preorder, Expr.children]
  | _ => simp [Expr.preorder, Expr.children]

theorem Expr.length_children_preorder (e : Expr) :
    (e.children.flatMap Expr.preorder).length < e.preorder.length := by
  rw [Expr.preorder_eq e]
  simp

/-- Visits a stack of expressions: the first one, then its parts, then the others. -/
def walkStack : List Expr → List Expr
  | [] => []
  | e :: stack => e :: walkStack (e.children ++ stack)
termination_by stack => (stack.flatMap Expr.preorder).length
decreasing_by
  have := e.length_children_preorder
  simp only [List.flatMap_append, List.flatMap_cons, List.length_append]
  omega

/-- The expression and all its parts in the order of a walk. -/
def Expr.walk (e : Expr) : List Expr := walkStack [e]

theorem walkStack_eq (stack : List Expr) : walkStack stack = stack.flatMap Expr.preorder := by
  fun_induction walkStack stack with
  | case1 => rfl
  | case2 e stack ih =>
    rw [ih, List.flatMap_append, List.flatMap_cons, Expr.preorder_eq e, List.cons_append]

/-- A walk visits parents first and from left to right. -/
theorem Expr.walk_eq_preorder (e : Expr) : e.walk = e.preorder := by
  simp [Expr.walk, walkStack_eq]

/-! ## Statements and members -/

/-- The walk of an expression that may be missing. -/
def walkOption (e : Option Expr) : List Expr := (e.map Expr.walk).getD []

mutual

/-- The expressions of a statement in source order. -/
def Stmt.exprs : Stmt → List Expr
  | .expression _ value => value.walk
  | .returning _ value => walkOption value
  | .throwing _ value => walkOption value
  | .localDecl _ _ _ init => walkOption init
  | .branch _ condition yes none => condition.walk ++ yes.exprs
  | .branch _ condition yes (some no) => condition.walk ++ (yes.exprs ++ no.exprs)
  | .block _ ⟨_, statements⟩ => exprsOfStmts statements
  | .empty _ => []

/-- The expressions of statements in source order. -/
def exprsOfStmts : List Stmt → List Expr
  | [] => []
  | s :: rest => s.exprs ++ exprsOfStmts rest

end

/-- The expressions of a block. -/
def Block.exprs (b : Block Stmt) : List Expr := exprsOfStmts b.statements

/-- The expressions of a body. -/
def Body.exprs (b : Body) : List Expr := (b.block.map Block.exprs).getD [] ++ walkOption b.arrow

/-- The expressions in the initial values, defaults and bodies of a member.  The arguments of its
attributes and the members of a nested type are not among them. -/
def Member.exprs : Member → List Expr
  | .field d => walkOption d.init
  | .property d => walkOption d.arrow ++ d.accessors.flatMap (·.body.exprs) ++ walkOption d.init
  | .method d => d.params.flatMap (walkOption ·.default) ++ d.body.exprs
  | .constructor d => d.body.exprs
  | .type _ => []

/-- The statement holds an expression with the identity. -/
def Stmt.holds (s : Stmt) (id : NodeId) : Bool := s.exprs.any fun e => e.id == id

end PropertyLint
