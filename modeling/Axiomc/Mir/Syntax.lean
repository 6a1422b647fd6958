import Axiomc.Hir.Model

/-!
# The mid-level program

What the back ends read: the lowered program without its ownership facts, where every statement
carries the place it was written at and every function the module it came from.

The types, the operators, the parameters and the two kinds of match arm are those of the lowered
program (`Axiomc.Hir.Model`); `hir::Type::Error` never reaches this stage.  A literal has no type
of its own here: the kind of its value fixes it, and a text literal is either owned or borrowed.

* `Expr`, `Stmt`, `Function`, `Program` — the syntax;
* `Expr.ty` — the type of an expression.
-/

namespace Axiomc.Mir

open Axiomc.Hir (Ty NumericType ArithmeticOp CompareOp LogicOp Param MatchExprArmOf MatchArmOf
  StructDef EnumDef)

/-- `mir::SourceSpan`. -/
structure SourceSpan where
  line : Nat
  column : Nat
  deriving DecidableEq, Inhabited

/-- `mir::LiteralValue`. -/
inductive LiteralValue
  | int (value : Int)
  | numeric (raw : String) (ty : NumericType)
  | bool (value : Bool)
  | string (value : String)
  | str (value : String)
  deriving DecidableEq

/-- The type of a literal. -/
def LiteralValue.ty : LiteralValue → Ty
  | .int _ => .int
  | .numeric _ ty => .numeric ty
  | .bool _ => .bool
  | .string _ => .string
  | .str _ => .str

/-- `mir::Expr`. -/
inductive Expr
  | literal (value : LiteralValue)
  | varRef (name : String) (ty : Ty)
  | call (name : String) (args : List Expr) (ty : Ty)
  | binaryAdd (op : ArithmeticOp) (lhs rhs : Expr) (ty : Ty)
  | binaryCompare (op : CompareOp) (lhs rhs : Expr) (ty : Ty)
  | binaryLogic (op : LogicOp) (lhs rhs : Expr) (ty : Ty)
  | cast (expr : Expr) (ty : Ty)
  | mutBorrow (expr : Expr) (ty : Ty)
  | deref (expr : Expr) (ty : Ty)
  | tryExpr (expr : Expr) (ty : Ty)
  | awaitExpr (expr : Expr) (ty : Ty)
  | structLiteral (name : String) (fields : List (String × Expr)) (ty : Ty)
  | fieldAccess (base : Expr) (field : String) (ty : Ty)
  | tupleLiteral (elements : List Expr) (ty : Ty)
  | tupleIndex (base : Expr) (index : Nat) (ty : Ty)
  | mapLiteral (entries : List (Expr × Expr)) (ty : Ty)
  | enumVariant (enumName variant : String) (fieldNames : List String) (payloads : List Expr)
      (ty : Ty)
  | arrayLiteral (elements : List Expr) (ty : Ty)
  | closure (params : List Param) (body : Expr) (ty : Ty)
  | slice (base : Expr) (start stop : Option Expr) (ty : Ty)
  | index (base idx : Expr) (ty : Ty)
  | stringBorrow (expr : Expr) (ty : Ty)
  | matchExpr (expr : Expr) (arms : List (MatchExprArmOf Expr)) (ty : Ty)
  deriving Inhabited

/-- `Expr::ty`. -/
def Expr.ty : Expr → Ty
  | .literal value => value.ty
  | .varRef _ ty | .call _ _ ty | .binaryAdd _ _ _ ty | .binaryCompare _ _ _ ty
  | .binaryLogic _ _ _ ty | .cast _ ty | .mutBorrow _ ty | .deref _ ty | .tryExpr _ ty
  | .awaitExpr _ ty | .structLiteral _ _ ty | .fieldAccess _ _ ty | .tupleLiteral _ ty
  | .tupleIndex _ _ ty | .mapLiteral _ ty | .enumVariant _ _ _ _ ty | .arrayLiteral _ ty
  | .closure _ _ ty | .slice _ _ _ ty | .index _ _ ty | .stringBorrow _ ty
  | .matchExpr _ _ ty => ty

/-- `mir::Stmt`. -/
inductive Stmt
  | letStmt (name : String) (ty : Ty) (expr : Expr) (span : SourceSpan)
  | assign (target expr : Expr) (span : SourceSpan)
  | print (expr : Expr) (span : SourceSpan)
  | panic (message : Expr) (span : SourceSpan)
  | defer (expr : Expr) (span : SourceSpan)
  | ifStmt (cond : Expr) (thenBlock : List Stmt) (elseBlock : Option (List Stmt))
      (span : SourceSpan)
  | whileStmt (cond : Expr) (body : List Stmt) (span : SourceSpan)
  | breakStmt (span : SourceSpan)
  | continueStmt (span : SourceSpan)
  | matchStmt (expr : Expr) (arms : List (MatchArmOf (List Stmt))) (span : SourceSpan)
  | returnStmt (expr : Expr) (span : SourceSpan)
  deriving Inhabited

abbrev Block := List Stmt

/-- `mir::Function`. -/
structure Function where
  name : String
  sourceName : String
  path : String
  params : List Param
  returnTy : Ty
  body : Block
  isProperty : Bool
  isAsync : Bool
  isExtern : Bool
  externAbi : Option String
  externLibrary : Option String
  line : Nat
  column : Nat

/-- `mir::StaticDef`. -/
structure StaticDef where
  name : String
  ty : Ty
  expr : Expr

/-- `mir::Program`. -/
structure Program where
  path : String
  structs : List StructDef
  enums : List EnumDef
  statics : List StaticDef
  functions : List Function
  stmts : Block

end Axiomc.Mir
