import Axiomc.Foundation.Fallible
import Axiomc.Foundation.Text
import Axiomc.ExecutableMir.Lowering
import Mathlib.Algebra.Group.Int.Defs

/-!
# What a scalar program does

Two meanings on one footing: the statements of a source function, and the block graph it is lowered
to.  Both read standard input, record what an observer sees, and stop early on a trap.

* `Event`, `World`, `Stop` — reads and calls in order, the input still unread, and why a run ends
  without a value;
* `evalExpr`, `evalBlock`, `evalFunction` — the source body, left to right.  A `Discipline` fixes
  the two points at which a source program and its lowering could be read differently: what `&&`
  and `||` do with their right operand, and how much input one read takes.  `Discipline.source` is
  the language's own, `Discipline.eager` evaluates both operands and reads one buffer, and
  `Discipline.checked` is the language's own with a stop where the two come apart;
* `runInstruction`, `runBlock`, `runFunction` — the block graph;
* `SameBehaviour` — the same endings and the same events, divergence included.

Arithmetic is a parameter: whether an overflow wraps or traps depends on the build profile, and the
source and its lowering share the answer.  Runs are bounded by a fuel that every call spends and
that also bounds the branches taken inside one activation; a behaviour never mentions it.
Statement and expression forms outside the slice are `stuck`: lowering refuses them.
-/

namespace Axiomc.ExecutableMir

open Axiomc.Foundation
open Axiomc.Hir (ArithmeticOp CompareOp LogicOp)

/-! ### Observations -/

inductive Trap
  | divisionByZero
  | overflow (op : ArithmeticOp)
  deriving DecidableEq

/-- Why a run ends without a value. -/
inductive Stop
  | trap (trap : Trap)
  | outOfFuel
  | stuck
  /-- The two readings come apart; only the checked one stops so. -/
  | differs
  deriving DecidableEq

/-- What an observer sees: the length a read gave, and the calls with their arguments. -/
inductive Event
  | read (length : Int)
  | call (function : String) (args : List Int)
  deriving DecidableEq

structure World where
  stdin : Bytes
  events : List Event
  deriving DecidableEq

abbrev Exec := Fallible Stop World

/-- Record an event. -/
def emit (event : Event) : Exec Unit :=
  modify fun world => { world with events := world.events ++ [event] }

/-- Integer arithmetic of one build profile. -/
abbrev Arithmetic := ArithmeticOp → Int → Int → Except Trap Int

/-- Arithmetic on 64-bit integers that wraps, as in a release build. -/
def wrappingArithmetic : Arithmetic
  | .add, a, b => .ok (Int.bmod (a + b) (2 ^ 64))
  | .sub, a, b => .ok (Int.bmod (a - b) (2 ^ 64))
  | .mul, a, b => .ok (Int.bmod (a * b) (2 ^ 64))
  | .div, a, b => if b = 0 then .error .divisionByZero else .ok (Int.bmod (a.tdiv b) (2 ^ 64))

/-- One arithmetic operation. -/
def runArithmetic (arith : Arithmetic) (op : ArithmeticOp) (a b : Int) : Exec Int :=
  match arith op a b with
  | .ok value => pure value
  | .error trap => throw (.trap trap)

def compareInts : CompareOp → Int → Int → Bool
  | .eq, a, b => a = b
  | .ne, a, b => a ≠ b
  | .lt, a, b => a < b
  | .le, a, b => a ≤ b
  | .gt, a, b => a > b
  | .ge, a, b => a ≥ b

def applyLogic : LogicOp → Bool → Bool → Bool
  | .and, a, b => a && b
  | .or, a, b => a || b

/-- A boolean as the integer that stands for it. -/
def encodeBool (b : Bool) : Int := if b then 1 else 0

/-! ### Source functions -/

inductive Value
  | int (value : Int)
  | bool (value : Bool)
  deriving DecidableEq

/-- The integer that stands for a value in a block graph. -/
def Value.encode : Value → Int
  | .int value => value
  | .bool value => encodeBool value

def Value.ty : Value → ScalarType
  | .int _ => .int
  | .bool _ => .bool

/-- The variables in scope, innermost first. -/
abbrev Env := List (String × Value)

/-- Overwrite the innermost variable of the name. -/
def Env.assign (name : String) (value : Value) : Env → Option Env
  | [] => none
  | (key, old) :: env =>
    if key = name then some ((key, value) :: env)
    else (Env.assign name value env).map ((key, old) :: ·)

/-- Leave a block: its own variables are gone, assignments to the outer ones stay. -/
def Env.leave (inner outer : Env) : Env := inner.drop (inner.length - outer.length)

/-- How `&&` and `||` treat their right operand, and what `len(io_read_to_string())` reads. -/
structure Discipline where
  logic : LogicOp → Exec Value → Exec Value → Exec Value
  readLength : Exec Value

/-- The right operand is evaluated only if the left one does not decide. -/
def shortCircuit (op : LogicOp) (lhs rhs : Exec Value) : Exec Value := do
  match op, ← lhs with
  | .and, .bool false => pure (.bool false)
  | .or, .bool true => pure (.bool true)
  | _, .bool _ =>
    match ← rhs with
    | .bool b => pure (.bool b)
    | .int _ => throw .stuck
  | _, .int _ => throw .stuck

/-- Both operands are evaluated. -/
def bothOperands (op : LogicOp) (lhs rhs : Exec Value) : Exec Value := do
  match ← lhs, ← rhs with
  | .bool a, .bool b => pure (.bool (applyLogic op a b))
  | _, _ => throw .stuck

/-- The byte length of all of standard input; a text that does not decode reads as empty. -/
def readAll : Exec Value := do
  let world ← get
  let length : Int := if (decodeUtf8 world.stdin).isSome then world.stdin.length else 0
  set ({ world with stdin := [] } : World)
  emit (.read length)
  pure (.int length)

/-- The number of bytes one read of a buffer of the given size takes. -/
def readBuffer (maxBytes : Nat) : Exec Int := do
  let world ← get
  let length := min maxBytes world.stdin.length
  set ({ world with stdin := world.stdin.drop length } : World)
  emit (.read length)
  pure length

/-- The language's own reading. -/
def Discipline.source : Discipline := ⟨shortCircuit, readAll⟩

/-- The reading of the block graphs. -/
def Discipline.eager : Discipline :=
  ⟨bothOperands, do let length ← readBuffer stdinBufferBytes; pure (.int length)⟩

/-- An operand that is left out: it may be evaluated as well if it has a value and no effect. -/
def passOver (operand : Exec Value) : Exec Unit := do
  let world ← get
  match exec operand world with
  | (.ok (.bool _), world') => if world' = world then pure () else throw .differs
  | _ => throw .differs

/-- `shortCircuit`, with a look at the operand that is left out. -/
def checkedLogic (op : LogicOp) (lhs rhs : Exec Value) : Exec Value := do
  match op, ← lhs with
  | .and, .bool false => do
    passOver rhs
    pure (.bool false)
  | .or, .bool true => do
    passOver rhs
    pure (.bool true)
  | _, .bool _ =>
    match ← rhs with
    | .bool b => pure (.bool b)
    | .int _ => throw .stuck
  | _, .int _ => throw .differs

/-- `readAll`, of a text that fits into one buffer. -/
def checkedRead : Exec Value := do
  let world ← get
  if world.stdin.length ≤ stdinBufferBytes ∧ (decodeUtf8 world.stdin).isSome then readAll
  else throw .differs

/-- The language's own reading, as long as that of the block graphs is the same. -/
def Discipline.checked : Discipline := ⟨checkedLogic, checkedRead⟩

/-- `+`, `-`, `*` and `/` on two integers. -/
def arithmeticValues (arith : Arithmetic) (op : ArithmeticOp) : Value → Value → Exec Value
  | .int a, .int b => do
    let value ← runArithmetic arith op a b
    pure (.int value)
  | _, _ => throw .stuck

/-- A comparison of two values of one type; `false` is below `true`. -/
def compareValues (op : CompareOp) : Value → Value → Exec Value
  | .int a, .int b => pure (.bool (compareInts op a b))
  | .bool a, .bool b => pure (.bool (compareInts op (encodeBool a) (encodeBool b)))
  | _, _ => throw .stuck

/-- How a block ends: with a value to return, or at its end. -/
inductive Flow
  | returned (value : Value)
  | next (env : Env)

/-- The end of an inner block, seen from the block around it. -/
def Flow.leave (outer : Env) : Flow → Flow
  | .returned value => .returned value
  | .next inner => .next (inner.leave outer)

/-- One of the two arms of an `if`, with one branch less to take inside it. -/
def enterArm (budget : Nat) (condition : Value) (thenArm elseArm : Nat → Exec Flow) : Exec Flow :=
  match condition, budget with
  | .int _, _ => throw .stuck
  | .bool _, 0 => throw .outOfFuel
  | .bool true, budget + 1 => thenArm budget
  | .bool false, budget + 1 => elseArm budget

section

variable (arith : Arithmetic) (discipline : Discipline)
  (call : String → List Value → Exec Value)

mutual

/-- An expression, its operands from left to right. -/
def evalExpr (env : Env) : Mir.Expr → Exec Value
  | .literal (.int value) => pure (.int value)
  | .literal (.bool value) => pure (.bool value)
  | .varRef name _ =>
    match env.lookup name with
    | some value => pure value
    | none => throw .stuck
  | .call name args _ =>
    if isStdinLength name args then
      discipline.readLength
    else do
      let values ← evalArgs env args
      call name values
  | .binaryAdd op lhs rhs _ => do
    let left ← evalExpr env lhs
    let right ← evalExpr env rhs
    arithmeticValues arith op left right
  | .binaryCompare op lhs rhs _ => do
    let left ← evalExpr env lhs
    let right ← evalExpr env rhs
    compareValues op left right
  | .binaryLogic op lhs rhs _ => discipline.logic op (evalExpr env lhs) (evalExpr env rhs)
  | _ => throw .stuck

def evalArgs (env : Env) : List Mir.Expr → Exec (List Value)
  | [] => pure []
  | arg :: args => do
    let value ← evalExpr env arg
    let values ← evalArgs env args
    pure (value :: values)

end

mutual

/-- The statements of a block; `budget` bounds the branches taken one inside the other. -/
def evalBlock (budget : Nat) : List Mir.Stmt → Env → Exec Flow
  | [], env => pure (.next env)
  | stmt :: rest, env => do
    match ← evalStmt budget stmt env with
    | .returned value => pure (.returned value)
    | .next env => evalBlock budget rest env

def evalStmt (budget : Nat) : Mir.Stmt → Env → Exec Flow
  | .letStmt name _ expr _, env => do
    let value ← evalExpr arith discipline call env expr
    pure (.next ((name, value) :: env))
  | .assign (.varRef name _) expr _, env => do
    let value ← evalExpr arith discipline call env expr
    match env.assign name value with
    | some env => pure (.next env)
    | none => throw .stuck
  | .returnStmt expr _, env => do
    let value ← evalExpr arith discipline call env expr
    pure (.returned value)
  | .ifStmt cond thenBlock (some elseBlock) _, env => do
    let condition ← evalExpr arith discipline call env cond
    let flow ← enterArm budget condition (fun budget => evalBlock budget thenBlock env)
      fun budget => evalBlock budget elseBlock env
    pure (flow.leave env)
  | .ifStmt cond thenBlock none _, env => do
    let condition ← evalExpr arith discipline call env cond
    let flow ← enterArm budget condition (fun budget => evalBlock budget thenBlock env)
      fun _ => pure (.next env)
    pure (flow.leave env)
  | _, _ => throw .stuck

end

end

/-- The parameters of a function, bound in order. -/
def bindParams (params : List Hir.Param) (args : List Value) : Env :=
  ((params.map (·.name)).zip args).reverse

/-- A call of a source function. -/
def evalFunction (arith : Arithmetic) (discipline : Discipline) (source : Mir.Program) :
    Nat → Mir.Function → List Value → Exec Value
  | 0, _, _ => throw .outOfFuel
  | fuel + 1, function, args => do
    let call (name : String) (args : List Value) : Exec Value := do
      emit (.call name (args.map (·.encode)))
      match source.functions.find? (·.name == name) with
      | some callee => evalFunction arith discipline source fuel callee args
      | none => throw .stuck
    if function.params.length = args.length then
      match ← evalBlock arith discipline call (fuel + 1) function.body
        (bindParams function.params args) with
      | .returned value => pure value
      | .next _ => throw .stuck
    else throw .stuck

/-! ### Block graphs -/

/-- The values computed so far. -/
abbrev Registers := Nat → Option Int

/-- Read a value. -/
def Registers.read (registers : Registers) (id : Nat) : Exec Int :=
  match registers id with
  | some value => pure value
  | none => throw .stuck

def Registers.write (registers : Registers) (id : Nat) (value : Int) : Registers :=
  Function.update registers id (some value)

def Registers.readAll (registers : Registers) : List Nat → Exec (List Int)
  | [] => pure []
  | id :: ids => do
    let value ← registers.read id
    let values ← registers.readAll ids
    pure (value :: values)

section

variable (arith : Arithmetic) (call : String → List Int → Exec Int) (args : List Int)

/-- One instruction. -/
def runInstruction (registers : Registers) : Instruction → Exec Registers
  | .parameter result index _ _ =>
    match args[index]? with
    | some value => pure (registers.write result value)
    | none => throw .stuck
  | .const result value _ _ => pure (registers.write result value)
  | .readStdin result maxBytes _ _ => do
    let value ← readBuffer maxBytes
    pure (registers.write result value)
  | .binary result op lhs rhs _ => do
    let left ← registers.read lhs
    let right ← registers.read rhs
    let value ← runArithmetic arith op left right
    pure (registers.write result value)
  | .compare result op lhs rhs _ => do
    let left ← registers.read lhs
    let right ← registers.read rhs
    pure (registers.write result (encodeBool (compareInts op left right)))
  | .logic result op lhs rhs _ => do
    let left ← registers.read lhs
    let right ← registers.read rhs
    pure (registers.write result (encodeBool (applyLogic op (left ≠ 0) (right ≠ 0))))
  | .call result function ids _ _ => do
    let values ← registers.readAll ids
    let value ← call function values
    pure (registers.write result value)

def runInstructions (registers : Registers) : List Instruction → Exec Registers
  | [] => pure registers
  | instruction :: rest => do
    let registers ← runInstruction arith call args registers instruction
    runInstructions registers rest

/-- The end of a block, for a way to run the blocks it may branch to. -/
def runTerminator (enter : Nat → Registers → Exec Int) (registers : Registers) :
    Terminator → Exec Int
  | .ret value _ => registers.read value
  | .branch condition thenBlock elseBlock _ => do
    let condition ← registers.read condition
    enter (if condition ≠ 0 then thenBlock else elseBlock) registers
  | .unreachable => throw .stuck

/-- A block and those it branches to; `budget` bounds the branches. -/
def runBlock (blocks : List BasicBlock) : Nat → Nat → Registers → Exec Int
  | 0, _, _ => throw .outOfFuel
  | budget + 1, id, registers =>
    match blocks[id]? with
    | some block => do
      let registers ← runInstructions arith call args registers block.instructions
      runTerminator (runBlock blocks budget) registers block.terminator
    | none => throw .stuck

end

/-- A call of a lowered function. -/
def runFunction (arith : Arithmetic) (program : Program) :
    Nat → Function → List Int → Exec Int
  | 0, _, _ => throw .outOfFuel
  | fuel + 1, function, args => do
    let call (name : String) (args : List Int) : Exec Int := do
      emit (.call name args)
      match program.functions.find? (·.name == name) with
      | some callee => runFunction arith program fuel callee args
      | none => throw .stuck
    runBlock arith call args function.blocks (fuel + 2) function.entryBlock fun _ => none

/-! ### Behaviours -/

/-- How far a program gets with each amount of fuel. -/
abbrev Run := Nat → Except Stop Int × List Event

/-- The run of a source function on some standard input. -/
def sourceRun (arith : Arithmetic) (discipline : Discipline) (source : Mir.Program)
    (function : Mir.Function) (args : List Value) (stdin : Bytes) : Run := fun fuel =>
  let (result, world) := exec (evalFunction arith discipline source fuel function args) ⟨stdin, []⟩
  (result.map Value.encode, world.events)

/-- The run of a lowered function on some standard input. -/
def loweredRun (arith : Arithmetic) (program : Program) (function : Function) (args : List Int)
    (stdin : Bytes) : Run := fun fuel =>
  let (result, world) := exec (runFunction arith program fuel function args) ⟨stdin, []⟩
  (result, world.events)

/-- The run ends, with a value or in a trap, after the given events. -/
def Run.Ends (run : Run) (result : Except Trap Int) (events : List Event) : Prop :=
  ∃ fuel, run fuel = (result.mapError Stop.trap, events)

/-- The run begins with the given events. -/
def Run.Begins (run : Run) (events : List Event) : Prop := ∃ fuel, events <+: (run fuel).2

/-- The same endings and the same events.  A run that has no ending diverges. -/
def SameBehaviour (run run' : Run) : Prop :=
  (∀ result events, run.Ends result events ↔ run'.Ends result events) ∧
    ∀ events, run.Begins events ↔ run'.Begins events

end Axiomc.ExecutableMir
