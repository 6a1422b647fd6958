import Mathlib.Data.List.Nodup
import Axiomc.ExecutableMir.Semantics

/-!
# Well-typed scalar programs

What type checking guarantees of a program, as far as a lowered function can depend on it: names are
used at their types, calls of the program's own functions fit their signatures, operators get
operands of their types, and only variables in scope are assigned.  Statement and expression forms
that lowering refuses are not restricted, so a program that type checks is well typed here.

* `exprTyped`, `blockTyped` — the judgement, as a check;
* `WellTyped` — every body, and no two functions of one name;
* `scalarType_eq_of_assignable` — between scalar types, assignability is equality.
-/

namespace Axiomc.ExecutableMir

open Axiomc.Hir (Ty typeAssignableTo typesAssignableTo)

/-- The types of the variables in scope, innermost first. -/
abbrev Context := List (String × Ty)

section

variable (source : Mir.Program)

/-- The function a name calls. -/
def callee (name : String) : Option Mir.Function := source.functions.find? (·.name == name)

mutual

def exprTyped (ctx : Context) : Mir.Expr → Bool
  | .varRef name ty => (ctx.lookup name).all (· = ty)
  | .call name args ty =>
    if isStdinLength name args then ty = .int
    else argsTyped ctx args && (callee source name).all fun function =>
      function.isAsync ||
        typesAssignableTo (args.map (·.ty)) (function.params.map (·.ty)) &&
          ty = function.returnTy
  | .binaryAdd _ lhs rhs ty =>
    exprTyped ctx lhs && exprTyped ctx rhs &&
      ((scalarType ty).isNone ||
        ty = .int && typeAssignableTo lhs.ty .int && typeAssignableTo rhs.ty .int)
  | .binaryCompare _ lhs rhs ty =>
    exprTyped ctx lhs && exprTyped ctx rhs && ty = .bool &&
      (typeAssignableTo lhs.ty rhs.ty || typeAssignableTo rhs.ty lhs.ty)
  | .binaryLogic _ lhs rhs ty =>
    exprTyped ctx lhs && exprTyped ctx rhs && ty = .bool &&
      typeAssignableTo lhs.ty .bool && typeAssignableTo rhs.ty .bool
  | _ => true

def argsTyped (ctx : Context) : List Mir.Expr → Bool
  | [] => true
  | arg :: args => exprTyped ctx arg && argsTyped ctx args

end

/-- The scope after a statement. -/
def scopeAfter (ctx : Context) : Mir.Stmt → Context
  | .letStmt name ty _ _ => (name, ty) :: ctx
  | _ => ctx

mutual

def blockTyped (returnTy : Ty) : Context → List Mir.Stmt → Bool
  | _, [] => true
  | ctx, stmt :: rest =>
    stmtTyped returnTy ctx stmt && blockTyped returnTy (scopeAfter ctx stmt) rest

def stmtTyped (returnTy : Ty) (ctx : Context) : Mir.Stmt → Bool
  | .letStmt _ ty expr _ => exprTyped source ctx expr && typeAssignableTo expr.ty ty
  | .assign (.varRef name ty) expr _ =>
    exprTyped source ctx expr && ctx.lookup name = some ty && typeAssignableTo expr.ty ty
  | .returnStmt expr _ => exprTyped source ctx expr && typeAssignableTo expr.ty returnTy
  | .ifStmt cond thenBlock (some elseBlock) _ =>
    exprTyped source ctx cond && typeAssignableTo cond.ty .bool &&
      blockTyped returnTy ctx thenBlock && blockTyped returnTy ctx elseBlock
  | _ => true

end

/-- The parameters of a function in scope. -/
def paramContext (function : Mir.Function) : Context :=
  (function.params.map fun param => (param.name, param.ty)).reverse

def functionTyped (function : Mir.Function) : Bool :=
  blockTyped source function.returnTy (paramContext function) function.body

end

/-- Every body is well typed, and a name means one function. -/
def WellTyped (source : Mir.Program) : Prop :=
  (source.functions.map (·.name)).Nodup ∧ source.functions.all (functionTyped source) = true

instance (source : Mir.Program) : Decidable (WellTyped source) := inferInstanceAs (Decidable (_ ∧ _))

/-- Between scalar types, assignability is equality. -/
theorem scalarType_eq_of_assignable {a b : Ty} {s t : ScalarType} (ha : scalarType a = some s)
    (hb : scalarType b = some t) (h : typeAssignableTo a b = true) : s = t := by
  cases a <;> simp only [scalarType, reduceCtorEq] at ha <;>
    cases b <;> simp only [scalarType, reduceCtorEq] at hb <;>
    first
    | exact (Option.some.inj ha).symm.trans (Option.some.inj hb)
    | simp [typeAssignableTo] at h

variable {source : Mir.Program} {function : Mir.Function}

theorem callee_name {name : String}
    (h : callee source name = some function) : function.name = name := by
  simpa using List.find?_some h

/-- In a well-typed program a function is what its name calls. -/
theorem callee_of_mem (hwt : WellTyped source)
    (h : function ∈ source.functions) : callee source function.name = some function := by
  obtain ⟨found, hfound⟩ : ∃ found, callee source function.name = some found :=
    Option.isSome_iff_exists.1 (List.find?_isSome.2 ⟨function, h, by simp⟩)
  have hmem : found ∈ source.functions := List.mem_of_find?_eq_some hfound
  have hname : found.name = function.name := callee_name hfound
  rw [hfound, List.inj_on_of_nodup_map hwt.1 hmem h hname]

end Axiomc.ExecutableMir
