import Axiomc.Mir.Syntax
import Mathlib.Data.Option.Basic

/-!
# Executable MIR and its lowering

A program of integers and booleans as graphs of basic blocks: every instruction writes one fresh
value, a block ends in a return or in a branch to two later blocks, and assignment is gone, since a
name is only a key under which lowering remembers the value it stands for.

* `Instruction`, `Terminator`, `BasicBlock`, `Function`, `Program` — the graphs;
* `lowerExpr`, `lowerStatements`, `FunctionLowerer.lower` — one function, left to right, into the
  block it is given; anything outside the slice is refused with `none`;
* `lowerScalarProgram` — the whole program: every function that is not part of the standard library
  must lower, and the first of them that is called `main` becomes the entry.
-/

namespace Axiomc.ExecutableMir

open Axiomc.Hir (Ty ArithmeticOp CompareOp LogicOp)
open Axiomc.Mir (SourceSpan)

/-! ### Block graphs

Blocks and values are numbered (`BlockId` and `ValueId` of the source). -/

inductive ScalarType
  | int | bool
  deriving DecidableEq

/-- `executable_mir::Instruction`. -/
inductive Instruction
  | parameter (result : Nat) (index : Nat) (ty : ScalarType) (span : SourceSpan)
  | const (result : Nat) (value : Int) (ty : ScalarType) (span : SourceSpan)
  | readStdin (result : Nat) (maxBytes : Nat) (effects : List String) (span : SourceSpan)
  | binary (result : Nat) (op : ArithmeticOp) (lhs rhs : Nat) (span : SourceSpan)
  | compare (result : Nat) (op : CompareOp) (lhs rhs : Nat) (span : SourceSpan)
  | logic (result : Nat) (op : LogicOp) (lhs rhs : Nat) (span : SourceSpan)
  | call (result : Nat) (function : String) (args : List Nat) (effects : List String)
      (span : SourceSpan)
  deriving DecidableEq

/-- `executable_mir::Terminator`. -/
inductive Terminator
  | ret (value : Nat) (span : SourceSpan)
  | branch (condition : Nat) (thenBlock elseBlock : Nat) (span : SourceSpan)
  | unreachable
  deriving DecidableEq

structure BasicBlock where
  id : Nat
  instructions : List Instruction
  terminator : Terminator
  span : SourceSpan
  deriving DecidableEq

structure Param where
  name : String
  value : Nat
  ty : ScalarType
  deriving DecidableEq

structure Function where
  name : String
  params : List Param
  returnType : ScalarType
  entryBlock : Nat
  blocks : List BasicBlock
  span : SourceSpan
  deriving DecidableEq

structure Program where
  schemaVersion : String
  entrypoint : String
  functions : List Function
  deriving DecidableEq

/-! ### Lowering one function -/

/-- `scalar_type`. -/
def scalarType : Ty → Option ScalarType
  | .int => some .int
  | .bool => some .bool
  | _ => none

structure ValueInfo where
  id : Nat
  ty : ScalarType
  deriving DecidableEq

/-- The value each name stands for, latest first. -/
abbrev Variables := List (String × ValueInfo)

/-- The part of a `FunctionLowerer` that lowering changes. -/
structure FunctionLowerer where
  nextValue : Nat
  blocks : List BasicBlock
  deriving DecidableEq

/-- Lowering under way; `none` refuses the whole program. -/
abbrev LowerM := StateT FunctionLowerer Option

def freshValue : LowerM Nat := do
  let lowerer ← get
  set { lowerer with nextValue := lowerer.nextValue + 1 }
  pure lowerer.nextValue

/-- `self.blocks[block_id].instructions.push(instruction)`. -/
def pushInstruction (block : Nat) (instruction : Instruction) : LowerM Unit :=
  modify fun lowerer => { lowerer with blocks := lowerer.blocks.modify block fun b =>
    { b with instructions := b.instructions ++ [instruction] } }

/-- `self.blocks[block_id].terminator = terminator`. -/
def setTerminator (block : Nat) (terminator : Terminator) : LowerM Unit :=
  modify fun lowerer => { lowerer with blocks := lowerer.blocks.modify block fun b =>
    { b with terminator } }

def newBlock (span : SourceSpan) : LowerM Nat := do
  let lowerer ← get
  let id := lowerer.blocks.length
  set { lowerer with blocks := lowerer.blocks ++ [(⟨id, [], .unreachable, span⟩ : BasicBlock)] }
  pure id

/-- `I64_STDIN_BUFFER_BYTES`. -/
def stdinBufferBytes : Nat := 4096

/-- `io_read_to_string()`, under either of its names. -/
def isReadToString : Mir.Expr → Bool
  | .call name [] _ => name == "io_read_to_string" || name == "std_io_read_to_string"
  | _ => false

/-- A call `len(io_read_to_string())`. -/
def isStdinLength (name : String) (args : List Mir.Expr) : Bool :=
  name == "len" && match args with
    | [arg] => isReadToString arg
    | _ => false

section

variable (known : List String) (block : Nat) (vars : Variables) (span : SourceSpan)

mutual

/-- `lower_expr`: the instructions of an expression, appended to the block.  The number of the
result is taken before the operands are lowered; a variable takes one too and leaves it unused. -/
def lowerExpr (expr : Mir.Expr) : LowerM ValueInfo := do
  let ty ← scalarType expr.ty
  let result ← freshValue
  match expr with
  | .literal (.int value) =>
    pushInstruction block (.const result value ty span)
    pure ⟨result, ty⟩
  | .literal (.bool value) =>
    pushInstruction block (.const result (if value then 1 else 0) ty span)
    pure ⟨result, ty⟩
  | .varRef name _ => vars.lookup name
  | .call name args _ =>
    if isStdinLength name args then
      pushInstruction block (.readStdin result stdinBufferBytes ["stdin.read"] span)
      pure ⟨result, ty⟩
    else
      guard (name ∈ known)
      let args ← lowerArgs args
      pushInstruction block (.call result name args [] span)
      pure ⟨result, ty⟩
  | .binaryAdd op lhs rhs _ =>
    let lhs ← lowerExpr lhs
    let rhs ← lowerExpr rhs
    pushInstruction block (.binary result op lhs.id rhs.id span)
    pure ⟨result, ty⟩
  | .binaryCompare op lhs rhs _ =>
    let lhs ← lowerExpr lhs
    let rhs ← lowerExpr rhs
    pushInstruction block (.compare result op lhs.id rhs.id span)
    pure ⟨result, ty⟩
  | .binaryLogic op lhs rhs _ =>
    -- both operands go into the same block: nothing is skipped
    let lhs ← lowerExpr lhs
    let rhs ← lowerExpr rhs
    pushInstruction block (.logic result op lhs.id rhs.id span)
    pure ⟨result, ty⟩
  | _ => failure

def lowerArgs : List Mir.Expr → LowerM (List Nat)
  | [] => pure []
  | arg :: args => do
    let value ← lowerExpr arg
    let values ← lowerArgs args
    pure (value.id :: values)

end

end

mutual

/-- `lower_statements`: the statements of a block up to the return or the two-armed `if` that must
end it. -/
def lowerStatements (known : List String) (returnTy : Ty) (block : Nat) :
    List Mir.Stmt → Variables → LowerM Unit
  | [], _ => failure
  | stmt :: rest, vars => do
    match ← lowerStatement known returnTy block rest.isEmpty stmt vars with
    | some vars => lowerStatements known returnTy block rest vars
    | none => pure ()

/-- One round of the loop over the statements: the values the names have afterwards, or `none` if
the block is finished.  The two arms of an `if` start from the values the names have at it. -/
def lowerStatement (known : List String) (returnTy : Ty) (block : Nat) (last : Bool) :
    Mir.Stmt → Variables → LowerM (Option Variables)
  | .letStmt name ty expr span, vars | .assign (.varRef name ty) expr span, vars => do
    let expected ← scalarType ty
    let value ← lowerExpr known block vars span expr
    guard (value.ty = expected)
    pure (some ((name, value) :: vars))
  | .returnStmt expr span, vars => do
    let value ← lowerExpr known block vars span expr
    let expected ← scalarType returnTy
    guard (value.ty = expected)
    setTerminator block (.ret value.id span)
    guard last
    pure none
  | .ifStmt cond thenBlock (some elseBlock) span, vars => do
    guard last
    let condition ← lowerExpr known block vars span cond
    guard (condition.ty = .bool)
    let thenId ← newBlock span
    let elseId ← newBlock span
    setTerminator block (.branch condition.id thenId elseId span)
    lowerStatements known returnTy thenId thenBlock vars
    lowerStatements known returnTy elseId elseBlock vars
    pure none
  | _, _ => failure

end

/-- The parameters of a function, from the given index on, read at the start of block 0. -/
def lowerParams (span : SourceSpan) :
    Nat → List Hir.Param → Variables → LowerM Variables
  | _, [], vars => pure vars
  | index, param :: params, vars => do
    let ty ← scalarType param.ty
    let value ← freshValue
    pushInstruction 0 (.parameter value index ty span)
    lowerParams span (index + 1) params ((param.name, ⟨value, ty⟩) :: vars)

/-- `FunctionLowerer::new`, with the values of the parameters. -/
def FunctionLowerer.new (function : Mir.Function) : Option (Variables × FunctionLowerer) := do
  let _ ← scalarType function.returnTy
  guard (!(function.isProperty || function.isAsync || function.isExtern))
  let span : SourceSpan := ⟨function.line, function.column⟩
  (lowerParams span 0 function.params []).run ⟨0, [⟨0, [], .unreachable, span⟩]⟩

/-- The value of the parameter with the given index. -/
def parameterResult (index : Nat) : Instruction → Option Nat
  | .parameter result found _ _ => if found = index then some result else none
  | _ => none

/-- `FunctionLowerer::lower`. -/
def FunctionLowerer.lower (known : List String) (function : Mir.Function)
    (start : Variables × FunctionLowerer) : Option Function := do
  let (_, lowerer) ← (lowerStatements known function.returnTy 0 function.body start.1).run start.2
  let entry ← lowerer.blocks.head?
  let params ← function.params.zipIdx.mapM fun (param, index) => do
    let value ← entry.instructions.findSome? (parameterResult index)
    let ty ← scalarType param.ty
    pure (⟨param.name, value, ty⟩ : Param)
  let returnType ← scalarType function.returnTy
  pure ⟨function.name, params, returnType, 0, lowerer.blocks, ⟨function.line, function.column⟩⟩

/-- `FunctionLowerer::new(..).and_then(FunctionLowerer::lower)`. -/
def lowerFunction (known : List String) (function : Mir.Function) : Option Function := do
  FunctionLowerer.lower known function (← FunctionLowerer.new function)

/-! ### Lowering a program -/

/-- `calls_are_resolved`. -/
def callsAreResolved (function : Function) (known : List String) : Bool :=
  function.blocks.all fun block => block.instructions.all fun
    | .call _ name _ _ _ => name ∈ known
    | _ => true

/-- The functions written by the user. -/
def userFunctions (source : Mir.Program) : List Mir.Function :=
  source.functions.filter fun function => !"<stdlib>".toList.isPrefixOf function.path.toList

/-- What makes a user function the entry. -/
def isMain (function : Mir.Function) : Bool :=
  function.sourceName == "main" && function.params.isEmpty &&
    (scalarType function.returnTy).isSome

/-- Whether the signature of a function stays within the slice. -/
def hasScalarSignature (function : Mir.Function) : Bool :=
  (scalarType function.returnTy).isSome &&
    function.params.all fun param => (scalarType param.ty).isSome

/-- The names that may be called: the user functions of the slice, without the entry. -/
def knownFunctions (source : Mir.Program) (main : Mir.Function) : List String :=
  (((userFunctions source).filter hasScalarSignature).map (·.name)).filter (· != main.name)

/-- `lower_scalar_program`. -/
def lowerScalarProgram (source : Mir.Program) : Option Program := do
  guard source.stmts.isEmpty
  let main ← (userFunctions source).find? isMain
  let known := knownFunctions source main
  let lowered ← ((userFunctions source).filter (·.name != main.name)).mapM (lowerFunction known)
  let main ← lowerFunction known main
  let names := lowered.map (·.name)
  guard (callsAreResolved main names && lowered.all (callsAreResolved · names))
  pure ⟨"axiom.executable_mir.v0", "main", main :: lowered⟩

end Axiomc.ExecutableMir
