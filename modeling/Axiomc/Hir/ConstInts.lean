import Axiomc.Foundation.OrderedMap
import Axiomc.Hir.Source
import Mathlib.Algebra.Group.Int.Defs
import Mathlib.Algebra.Group.Nat.Defs
import Mathlib.Logic.Relation

/-!
# Integer constants at compile time

`resolve_const_int_decls` of `hir/const_arrays.rs` and the evaluators below it.  Constants refer to each
other and to const functions, which refer to constants and to each other.  The evaluator remembers the
constants it has finished and stops at one that it has begun but not finished; nothing stops a const
function that calls itself.  Arithmetic is that of a build with overflow checks: it panics on an overflow
and on a division by zero.

* `Plan`: what one call of an evaluator does, as the subtasks it runs one after the other.  `plan` gives
  the plan of an expression, of the arguments of a call and of a body;
* `evaluate`: the evaluator, with the finished constants;
* `reference`: the same plans without the finished constants;
* `resolveConstIntDecls`: the loop over the constants;
* `Evaluates`: the value of an expression in 64-bit arithmetic where every fault is an error;
* `Faithful`, `Sound`: what resolution should do, and when it does.
-/

namespace Axiomc.Consts

open Foundation Source Int64
open Hir (ArithmeticOp)

/-! ### Numbers -/

/-- The value of a string of decimal digits. -/
def parseDigits (digits : List Char) : Option Nat :=
  if digits.isEmpty || digits.any (!·.isDigit) then none
  else some (digits.foldl (fun n c => n * 10 + (c.toNat - 48)) 0)

/-- `str::parse::<i64>`. -/
def parseI64 (raw : String) : Option Int :=
  let value : Option Int :=
    match raw.toList with
    | '-' :: digits => (parseDigits digits).map fun n => -(n : Int)
    | '+' :: digits | digits => (parseDigits digits).map Int.ofNat
  value.filter fun n => -2 ^ 63 ≤ n ∧ n < 2 ^ 63

/-! ### Arithmetic -/

/-- The result of an operation in unbounded integers; a division by zero has none. -/
def exactArith (op : ArithmeticOp) (lhs rhs : Int64) : Option Int :=
  match op with
  | .add => some (lhs.toInt + rhs.toInt)
  | .sub => some (lhs.toInt - rhs.toInt)
  | .mul => some (lhs.toInt * rhs.toInt)
  | .div => if rhs.toInt = 0 then none else some (lhs.toInt.tdiv rhs.toInt)

/-- A result that fits into 64 bits. -/
def fit (result : Int) : Option Int64 :=
  if -2 ^ 63 ≤ result ∧ result < 2 ^ 63 then some (ofInt result) else none

/-- 64-bit arithmetic where an overflow and a division by zero have no result. -/
def checkedArith (op : ArithmeticOp) (lhs rhs : Int64) : Option Int64 :=
  (exactArith op lhs rhs).bind fit

/-- The operators of `i64` in a build with overflow checks; `none` is a panic. -/
def arith (op : ArithmeticOp) (lhs rhs : Int64) : Option Int64 :=
  match op with
  | .add => if (lhs + rhs).toInt = lhs.toInt + rhs.toInt then some (lhs + rhs) else none
  | .sub => if (lhs - rhs).toInt = lhs.toInt - rhs.toInt then some (lhs - rhs) else none
  | .mul => if (lhs * rhs).toInt = lhs.toInt * rhs.toInt then some (lhs * rhs) else none
  | .div => if rhs = 0 ∨ (lhs = minValue ∧ rhs = -1) then none else some (lhs / rhs)

theorem fit_eq {r : Int64} {exact : Int} (h : r = ofInt exact) :
    fit exact = if r.toInt = exact then some r else none := by
  by_cases hrange : -2 ^ 63 ≤ exact ∧ exact < 2 ^ 63
  · have htoInt : r.toInt = exact := by rw [h, toInt_ofInt_of_le hrange.1 hrange.2]
    rw [fit, if_pos hrange, if_pos htoInt, h]
  · have hne : r.toInt ≠ exact := by
      intro htoInt
      rw [← htoInt] at hrange
      exact hrange ⟨le_toInt r, toInt_lt r⟩
    rw [fit, if_neg hrange, if_neg hne]

/-- The panics of the operators are the faults of checked arithmetic. -/
theorem arith_eq_checkedArith (op : ArithmeticOp) (lhs rhs : Int64) :
    arith op lhs rhs = checkedArith op lhs rhs := by
  cases op with
  | add =>
    have h : lhs + rhs = ofInt (lhs.toInt + rhs.toInt) := by simp
    exact (fit_eq h).symm
  | sub =>
    have h : lhs - rhs = ofInt (lhs.toInt - rhs.toInt) := by simp
    exact (fit_eq h).symm
  | mul =>
    have h : lhs * rhs = ofInt (lhs.toInt * rhs.toInt) := by simp
    exact (fit_eq h).symm
  | div =>
    by_cases hzero : rhs = 0
    · simp [arith, checkedArith, exactArith, hzero]
    have hne : rhs.toInt ≠ 0 := fun h => hzero (toInt_inj.1 (by simpa using h))
    by_cases hmin : lhs = minValue ∧ rhs = -1
    · obtain ⟨rfl, rfl⟩ := hmin
      decide
    · have hdiv : (lhs / rhs).toInt = lhs.toInt.tdiv rhs.toInt := by
        by_cases hlhs : lhs = minValue
        · exact toInt_div_of_ne_right lhs rhs fun hrhs => hmin ⟨hlhs, hrhs⟩
        · exact toInt_div_of_ne_left lhs rhs hlhs
      have h : lhs / rhs = ofInt (lhs.toInt.tdiv rhs.toInt) := by
        rw [← hdiv, ofInt_toInt]
      have hfit := fit_eq h
      rw [if_pos hdiv] at hfit
      simp [arith, checkedArith, exactArith, hzero, hmin, hne, hfit]

/-! ### Tasks and plans -/

/-- What an evaluation comes to: a value, no integer, a diagnostic or a panic. -/
inductive Outcome where
  | value (v : Int64)
  | noInt
  | error (message : String)
  | panic
  deriving DecidableEq

/-- Whether an outcome ends everything. -/
def Outcome.stops : Outcome → Bool
  | error _ | panic => true
  | _ => false

abbrev Locals := List (String × Int64)

/-- The calls of the evaluators: of a constant, an expression, the arguments of a call of a const
function, of which `bound` are done, and a body. -/
inductive Task where
  | const (name : String)
  | expr (locals : Locals) (expr : Expr)
  | args (locals : Locals) (args : List (String × Expr)) (bound : Locals) (body : List Stmt)
  | block (locals : Locals) (body : List Stmt)

/-- The task is a constant. -/
def Task.isConst : Task → Bool
  | const _ => true
  | _ => false

/-- What one call does: it ends, or runs a subtask and goes on with the outcome. -/
inductive Plan where
  | done (outcome : Outcome)
  | ask (task : Task) (next : Outcome → Plan)

/-- Run a subtask and end with its outcome. -/
def Plan.hand (task : Task) : Plan := .ask task .done

/-- Run a subtask; go on with a value, and end with any other outcome. -/
def Plan.value (task : Task) (next : Int64 → Plan) : Plan :=
  .ask task fun
    | .value v => next v
    | outcome => .done outcome

variable (program : Program)

/-- `consts.get(name)`; a later declaration of a name replaces an earlier one. -/
def constOf (name : String) : Option ConstDecl :=
  program.consts.reverse.find? (·.name == name)

def functionOf (name : String) : Option FunctionDecl :=
  program.functions.reverse.find? (·.name == name)

/-- The const function that a call runs. -/
def constFunction (name : String) (args : List Expr) : Option FunctionDecl :=
  (functionOf program name).filter fun function =>
    function.isConst && !function.isExtern && function.params.length == args.length

/-- The operator, once both operands are evaluated. -/
def combine (op : ArithmeticOp) : Outcome → Outcome → Outcome
  | .value lhs, .value rhs =>
    match arith op lhs rhs with
    | some v => .value v
    | none => .panic
  | _, _ => .noInt

/-- `eval_const_int_expr_resolved`. -/
def evalConstIntExprResolved (locals : Locals) : Expr → Plan
  | .literal (.int value) => .done (.value (ofInt value))
  | .varRef name =>
    match locals.lookup name with
    | some value => .done (.value value)
    | none => .hand (.const name)
  | .binaryAdd op lhs rhs =>
    .ask (.expr locals lhs) fun lhs =>
      if lhs.stops then .done lhs
      else .ask (.expr locals rhs) fun rhs =>
        if rhs.stops then .done rhs else .done (combine op lhs rhs)
  | .call name _ args _ _ =>
    match constFunction program name args with
    | some function =>
      .hand (.args locals ((function.params.map (·.name)).zip args) [] function.body)
    | none => .done .noInt
  | _ => .done .noInt

/-- The loop over the parameters and arguments of a call. -/
def evalArgs (locals : Locals) (args : List (String × Expr)) (bound : Locals) (body : List Stmt) :
    Plan :=
  match args with
  | [] => .hand (.block bound body)
  | (param, arg) :: args =>
    .value (.expr locals arg) fun v => .hand (.args locals args ((param, v) :: bound) body)

/-- `eval_const_int_block`. -/
def evalConstIntBlock (locals : Locals) : List Stmt → Plan
  | .letStmt name _ expr :: body =>
    .value (.expr locals expr) fun v => .hand (.block ((name, v) :: locals) body)
  | .returnStmt expr :: _ => .hand (.expr locals expr)
  | _ => .done .noInt

/-- The plan of a task.  A constant that is not finished is evaluated through its initializer. -/
def plan : Task → Plan
  | .const name => .hand (.const name)
  | .expr locals expr => evalConstIntExprResolved program locals expr
  | .args locals args bound body => evalArgs locals args bound body
  | .block locals body => evalConstIntBlock locals body

/-! ### The evaluator -/

/-- The finished constants. -/
abbrev Values := List (String × Int64)

/-- A string in the `Debug` format of the source. -/
def quoted (name : String) : String := "\"" ++ name ++ "\""

def recursiveMessage (name : String) : String :=
  "const " ++ quoted name ++ " has a recursive initializer"

/-- Run a plan. -/
def Plan.run {m : Type → Type} [Monad m] (answer : Task → m Outcome) : Plan → m Outcome
  | .done outcome => pure outcome
  | .ask task next => do
    let outcome ← answer task
    (next outcome).run answer

/-- A value is remembered. -/
def remember (name : String) : Outcome → Values → Values
  | .value v, values => (name, v) :: values
  | _, values => values

/-- The evaluator with `fuel` nested calls at most.  `resolving` are the constants that have been begun;
the constant case is `eval_const_int_decl`. -/
def evaluate (program : Program) : Nat → List String → Task → StateT Values Option Outcome
  | 0, _, _ => fun _ => none
  | fuel + 1, resolving, .const name => fun values =>
    match values.lookup name with
    | some v => some (.value v, values)
    | none =>
      match constOf program name with
      | none => some (.noInt, values)
      | some decl =>
        if name ∈ resolving then some (.error (recursiveMessage name), values)
        else (evaluate program fuel (name :: resolving) (.expr [] decl.expr) values).map
          fun r => (r.1, remember name r.1 r.2)
  | fuel + 1, resolving, task => (plan program task).run (evaluate program fuel resolving)

/-- The evaluator without finished constants. -/
def reference (program : Program) : Nat → List String → Task → Option Outcome
  | 0, _, _ => none
  | fuel + 1, resolving, .const name =>
    match constOf program name with
    | none => some .noInt
    | some decl =>
      if name ∈ resolving then some (.error (recursiveMessage name))
      else reference program fuel (name :: resolving) (.expr [] decl.expr)
  | fuel + 1, resolving, task => (plan program task).run (reference program fuel resolving)

/-! ### Resolution -/

def constIntExprContainsCall : Expr → Bool
  | .call .. => true
  | .binaryAdd _ lhs rhs | .binaryCompare _ lhs rhs =>
    constIntExprContainsCall lhs || constIntExprContainsCall rhs
  | _ => false

def isIntType : TypeName → Bool
  | .int => true
  | _ => false

/-- `resolve_const_int_decls`, over the constants in some order.  An error ends it, as a diagnostic or
as a panic. -/
def resolveConstIntDecls (program : Program) (fuel : Nat) :
    List String → Values → Option (Except Outcome (List ConstDecl))
  | [], _ => some (.ok [])
  | name :: names, values => do
    let (outcome, values) ← evaluate program fuel [] (.const name) values
    match outcome, constOf program name with
    | .value v, some decl =>
      let rest ← resolveConstIntDecls program fuel names values
      some (rest.map ({ decl with expr := .literal (.int v.toInt) } :: ·))
    | .noInt, some decl =>
      if isIntType decl.ty && constIntExprContainsCall decl.expr then
        some (.error (.error ("const " ++ quoted decl.name ++
          " requires a pure const fn integer expression")))
      else
        let rest ← resolveConstIntDecls program fuel names values
        some (rest.map (decl :: ·))
    | outcome, _ => some (.error outcome)

/-- `eval_const_int_expr`. -/
def evalConstIntExpr : Expr → Outcome
  | .literal (.int value) => .value (ofInt value)
  | .binaryAdd op lhs rhs =>
    match evalConstIntExpr lhs with
    | .value lhs =>
      match evalConstIntExpr rhs with
      | .value rhs => combine op (.value lhs) (.value rhs)
      | outcome => outcome
    | outcome => outcome
  | _ => .noInt

/-- `resolve_const_array_len`, with the resolved constants. -/
def resolveConstArrayLen (consts : List ConstDecl) (raw : String) : Outcome :=
  match parseI64 raw with
  | some value => .value (ofInt value)
  | none =>
    match consts.find? (·.name == raw) with
    | none => .error ("array length " ++ quoted raw ++ " must be a known int const/static expression")
    | some decl =>
      match evalConstIntExpr decl.expr with
      | .noInt => .error ("array length const " ++ quoted decl.name ++ " must evaluate to int")
      | outcome => outcome

/-! ### The guarantee -/

/-- The value of a task in 64-bit arithmetic, where every fault is an error: the parameters of a const
function are bound to its arguments, and other names are constants of the program. -/
inductive Evaluates (program : Program) : Task → Int64 → Prop
  | const {name : String} {decl : ConstDecl} {v : Int64} : constOf program name = some decl →
      Evaluates program (.expr [] decl.expr) v → Evaluates program (.const name) v
  | literal {locals : Locals} {value : Int} :
      Evaluates program (.expr locals (.literal (.int value))) (ofInt value)
  | bound {locals : Locals} {name : String} {v : Int64} : locals.lookup name = some v →
      Evaluates program (.expr locals (.varRef name)) v
  | free {locals : Locals} {name : String} {v : Int64} : locals.lookup name = none →
      Evaluates program (.const name) v → Evaluates program (.expr locals (.varRef name)) v
  | arith {locals : Locals} {op : ArithmeticOp} {lhs rhs : Expr} {a b v : Int64} :
      Evaluates program (.expr locals lhs) a → Evaluates program (.expr locals rhs) b →
      checkedArith op a b = some v → Evaluates program (.expr locals (.binaryAdd op lhs rhs)) v
  | call {locals : Locals} {name : String} {typeArgs : List TypeName} {args : List Expr}
      {line column : Nat} {function : FunctionDecl} {v : Int64} :
      constFunction program name args = some function →
      Evaluates program
        (.args locals ((function.params.map (·.name)).zip args) [] function.body) v →
      Evaluates program (.expr locals (.call name typeArgs args line column)) v
  | argsNil {locals bound : Locals} {body : List Stmt} {v : Int64} :
      Evaluates program (.block bound body) v → Evaluates program (.args locals [] bound body) v
  | argsCons {locals bound : Locals} {param : String} {arg : Expr} {args : List (String × Expr)}
      {body : List Stmt} {a v : Int64} : Evaluates program (.expr locals arg) a →
      Evaluates program (.args locals args ((param, a) :: bound) body) v →
      Evaluates program (.args locals ((param, arg) :: args) bound body) v
  | letStmt {locals : Locals} {name : String} {ty : TypeName} {expr : Expr} {body : List Stmt}
      {a v : Int64} : Evaluates program (.expr locals expr) a →
      Evaluates program (.block ((name, a) :: locals) body) v →
      Evaluates program (.block locals (.letStmt name ty expr :: body)) v
  | returnStmt {locals : Locals} {expr : Expr} {body : List Stmt} {v : Int64} :
      Evaluates program (.expr locals expr) v →
      Evaluates program (.block locals (.returnStmt expr :: body)) v

/-- An order in which the constants can come out of the map. -/
structure IsOrder (program : Program) (order : List String) : Prop where
  nodup : order.Nodup
  mem_iff : ∀ name, name ∈ order ↔ (constOf program name).isSome = true

/-- Resolution ends, without a panic, and the values it gives are the right ones: those of constants, of
array lengths and of every expression that is evaluated on the way. -/
structure Faithful (program : Program) (order : List String) : Prop where
  ends : ∃ fuel result, resolveConstIntDecls program fuel order [] = some result ∧
    result ≠ .error .panic
  constants : ∀ fuel consts, resolveConstIntDecls program fuel order [] = some (.ok consts) →
    ∀ decl ∈ consts, ∀ value, decl.expr = .literal (.int value) →
      Evaluates program (.const decl.name) (ofInt value)
  lengths : ∀ fuel consts, resolveConstIntDecls program fuel order [] = some (.ok consts) →
    ∀ raw, resolveConstArrayLen consts raw ≠ .panic ∧
      ∀ v, resolveConstArrayLen consts raw = .value v → parseI64 raw = none →
        Evaluates program (.const raw) v
  calls : ∀ fuel task v values, evaluate program fuel [] task [] = some (.value v, values) →
    Evaluates program task v

/-! ### When it is met -/

/-- The outcome of a task on its own. -/
def Means (program : Program) (S : List String) (task : Task) (o : Outcome) : Prop :=
  ∃ fuel, reference program fuel S task = some o

/-- A plan comes to run the task `t`, the tasks before it having the outcomes that `answer` gives. -/
inductive Plan.Asks (answer : Task → Outcome → Prop) : Plan → Task → Prop
  | now {task : Task} {next : Outcome → Plan} : Asks answer (.ask task next) task
  | later {task t : Task} {next : Outcome → Plan} {o : Outcome} : answer task o →
      Asks answer (next o) t → Asks answer (.ask task next) t

/-- One task needs another; with each stand the constants that have been begun. -/
inductive Needs (program : Program) : List String × Task → List String × Task → Prop
  | const {S : List String} {name : String} {decl : ConstDecl} : constOf program name = some decl →
      name ∉ S → Needs program (S, .const name) (name :: S, .expr [] decl.expr)
  | plan {S : List String} {task t : Task} : task.isConst = false →
      (plan program task).Asks (Means program S) t → Needs program (S, task) (S, t)

/-- A task that the constants of the program need. -/
def Needed (program : Program) (x : List String × Task) : Prop :=
  ∃ name, (constOf program name).isSome = true ∧
    Relation.ReflTransGen (Needs program) ([], .const name) x

/-- The arithmetic that the constants need has results within 64 bits, and no body of a const function
that they need needs itself while the same constants are begun. -/
structure Sound (program : Program) : Prop where
  inRange : ∀ S locals op lhs rhs a b, Needed program (S, .expr locals (.binaryAdd op lhs rhs)) →
    Means program S (.expr locals lhs) (.value a) → Means program S (.expr locals rhs) (.value b) →
    checkedArith op a b ≠ none
  noRecursion : ∀ S (locals locals' : Locals) body, Needed program (S, .block locals body) →
    locals.map Prod.fst = locals'.map Prod.fst →
    ¬ Relation.TransGen (Needs program) (S, .block locals body) (S, .block locals' body)

end Axiomc.Consts
