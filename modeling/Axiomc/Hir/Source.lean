import Axiomc.Hir.Model

/-!
# The source program

The syntax tree that lowering reads, after generics have been instantiated.  Positions are kept on
calls only, where lowering writes them into the program (the location arguments of assertions).
-/

namespace Axiomc.Source

open Axiomc.Hir (NumericType CompareOp LogicOp ArithmeticOp)

/-- A type as it is written. -/
inductive TypeName
  | int
  | numeric (ty : NumericType)
  | bool | string | str
  | named (name : String) (args : List TypeName)
  | ptr (inner : TypeName)
  | mutPtr (inner : TypeName)
  | mutRef (inner : TypeName)
  | slice (inner : TypeName)
  | mutSlice (inner : TypeName)
  | lifetimeSlice (lifetime : String) (inner : TypeName)
  | lifetimeMutSlice (lifetime : String) (inner : TypeName)
  | option (inner : TypeName)
  | result (ok err : TypeName)
  | tuple (elements : List TypeName)
  | map (key value : TypeName)
  | array (inner : TypeName) (len : Option String)
  | fn (params : List TypeName) (returnTy : TypeName)
  deriving Inhabited

inductive Literal
  | int (value : Int)
  | numeric (raw : String) (ty : NumericType)
  | bool (value : Bool)
  | string (value : String)

structure Param where
  name : String
  ty : TypeName

/-- An arm of a match expression, over the type of its result expression. -/
structure MatchExprArmOf (ε : Type) where
  variant : String
  bindings : List String
  isNamed : Bool
  expr : ε

/-- `syntax::Expr`. -/
inductive Expr
  | literal (literal : Literal)
  | varRef (name : String)
  | call (name : String) (typeArgs : List TypeName) (args : List Expr) (line column : Nat)
  | methodCall (base : Expr) (method : String) (typeArgs : List TypeName) (args : List Expr)
  | binaryAdd (op : ArithmeticOp) (lhs rhs : Expr)
  | binaryCompare (op : CompareOp) (lhs rhs : Expr)
  | binaryLogic (op : LogicOp) (lhs rhs : Expr)
  | cast (expr : Expr) (ty : TypeName)
  | mutBorrow (expr : Expr)
  | deref (expr : Expr)
  | tryExpr (expr : Expr)
  | awaitExpr (expr : Expr)
  | structLiteral (name : String) (typeArgs : List TypeName) (fields : List (String × Expr))
  | fieldAccess (base : Expr) (field : String)
  | tupleLiteral (elements : List Expr)
  | tupleIndex (base : Expr) (index : Nat)
  | mapLiteral (entries : List (Expr × Expr))
  | arrayLiteral (elements : List Expr)
  | slice (base : Expr) (start stop : Option Expr)
  | index (base idx : Expr)
  | closure (params : List Param) (body : Expr)
  | matchExpr (expr : Expr) (arms : List (MatchExprArmOf Expr))
  deriving Inhabited

/-! ### Statements -/

/-- An arm of a match statement, over the type of its body. -/
structure MatchArmOf (β : Type) where
  variant : String
  bindings : List String
  isNamed : Bool
  body : β

/-- `syntax::Stmt`. -/
inductive Stmt
  | letStmt (name : String) (ty : TypeName) (expr : Expr)
  | assign (target expr : Expr)
  | print (expr : Expr)
  | panic (expr : Expr)
  | defer (expr : Expr)
  | ifStmt (cond : Expr) (thenBlock : List Stmt) (elseBlock : Option (List Stmt))
  | ifLet (variant : String) (bindings : List String) (isNamed : Bool) (expr : Expr)
      (thenBlock : List Stmt) (elseBlock : Option (List Stmt))
  | whileStmt (cond : Expr) (body : List Stmt)
  | breakStmt
  | continueStmt
  | matchStmt (expr : Expr) (arms : List (MatchArmOf (List Stmt)))
  | returnStmt (expr : Expr)
  deriving Inhabited

/-! ### Declarations -/

structure ConstDecl where
  name : String
  ty : TypeName
  expr : Expr

structure FunctionDecl where
  name : String
  params : List Param
  body : List Stmt
  isExtern : Bool := false
  isConst : Bool := false

/-- The declarations of `syntax::Program` that compile-time evaluation reads. -/
structure Program where
  consts : List ConstDecl := []
  functions : List FunctionDecl := []

end Axiomc.Source
