import Axiomc.Foundation.Lockstep
import Axiomc.ExecutableMir.Typing

/-!
# Lowered code runs in lockstep with the source

Under the reading of the block graphs (`Discipline.eager`) a lowered function does, step by step,
what its source function does.

* `Appends` — lowering an expression only appends instructions to its block and takes fresh values;
* `Related` — names, values and registers at one point: every name stands for a register that holds
  its value, below the next fresh number;
* `lowerExpr_lockstep`, `lowerStatements_lockstep` — the two simulations, each by recursion over the
  syntax.
-/

namespace Axiomc.ExecutableMir

open Axiomc.Foundation List Bool
open Axiomc.Hir (Ty typeAssignableTo typesAssignableTo)

/-! ### Inverting lowering -/

section

variable {α β : Type} {st st' : FunctionLowerer}

theorem run_bind_eq_some {x : LowerM α} {f : α → LowerM β} {r : β × FunctionLowerer} :
    (x >>= f).run st = some r ↔ ∃ a st', x.run st = some (a, st') ∧ (f a).run st' = some r := by
  rw [StateT.run_bind, Option.bind_eq_bind, Option.bind_eq_some_iff]
  exact ⟨fun ⟨p, hp⟩ => ⟨p.1, p.2, hp⟩, fun ⟨a, s, h⟩ => ⟨(a, s), h⟩⟩

variable {a b : α}

theorem run_eq_some {m : LowerM α} {s : FunctionLowerer} (h : m.run st = some (a, s)) :
    m.run st = some (b, st') ↔ b = a ∧ st' = s := by
  rw [h, Option.some.injEq, Prod.mk.injEq, eq_comm, @eq_comm _ s]

theorem run_lift_eq_some {o : Option α} :
    (liftM o : LowerM α).run st = some (a, st') ↔ o = some a ∧ st' = st := by
  cases o with
  | none => exact ⟨(nomatch ·), (nomatch ·.1)⟩
  | some b => rw [run_eq_some rfl, Option.some.injEq, eq_comm]

variable {u : Unit}

theorem run_guard_eq_some {p : Prop} [Decidable p] :
    (guard p : LowerM Unit).run st = some (u, st') ↔ p ∧ st' = st := by
  by_cases hp : p
  · rw [guard, if_pos hp, run_eq_some rfl]
    exact and_congr_left fun _ => iff_of_true rfl hp
  · rw [guard, if_neg hp]
    exact ⟨(nomatch ·), (absurd ·.1 hp)⟩

theorem run_pure_eq_some : (pure a : LowerM α).run st = some (b, st') ↔ b = a ∧ st' = st :=
  run_eq_some rfl

variable {id : Nat}

theorem run_freshValue_eq_some : freshValue.run st = some (id, st') ↔
      id = st.nextValue ∧ st' = { st with nextValue := st.nextValue + 1 } :=
  run_eq_some rfl

theorem run_newBlock_eq_some {span : Mir.SourceSpan} :
    (newBlock span).run st = some (id, st') ↔ id = st.blocks.length ∧
      st' = { st with blocks := st.blocks ++ [⟨st.blocks.length, [], .unreachable, span⟩] } :=
  run_eq_some rfl

theorem run_setTerminator_eq_some {block : Nat} {terminator : Terminator} :
    (setTerminator block terminator).run st = some (u, st') ↔
      st' = { st with blocks := st.blocks.modify block fun b => { b with terminator } } :=
  (run_eq_some rfl).trans (and_iff_right rfl)

/-- Every expression starts with its type and the number of its result. -/
theorem run_start_eq_some {t : Ty} {f : ScalarType → Nat → LowerM α} {r : α × FunctionLowerer} :
    (do
      let ty ← scalarType t
      let result ← freshValue
      f ty result : LowerM α).run st = some r ↔
    ∃ ty, scalarType t = some ty ∧
      (f ty st.nextValue).run { st with nextValue := st.nextValue + 1 } = some r := by
  simp only [run_bind_eq_some, run_lift_eq_some, run_freshValue_eq_some]
  constructor
  · intro ⟨ty, _, ⟨hty, heq⟩, _, _, ⟨hid, hst⟩, h⟩
    subst heq hid hst
    exact ⟨ty, hty, h⟩
  · intro ⟨ty, hty, h⟩
    exact ⟨ty, st, ⟨hty, rfl⟩, _, _, ⟨rfl, rfl⟩, h⟩

end

/-! ### What lowering an expression does to the graph -/

/-- A block with more instructions at its end. -/
def BasicBlock.append (b : BasicBlock) (new : List Instruction) : BasicBlock :=
  { b with instructions := b.instructions ++ new }

/-- The block got the new instructions, and values were only taken, never given back. -/
structure Appends (block : Nat) (new : List Instruction) (st st' : FunctionLowerer) :
    Prop where
  next_le : st.nextValue ≤ st'.nextValue
  blocks : st'.blocks = st.blocks.modify block (·.append new)

namespace Appends

variable {block : Nat} {new new' : List Instruction} {st st' st'' : FunctionLowerer}

theorem refl (block : Nat) (st : FunctionLowerer) : Appends block [] st st where
  next_le := Nat.le_refl _
  blocks := by
    have hid : (fun b : BasicBlock => b.append []) = id := by
      funext b
      simp [BasicBlock.append]
    rw [hid, modify_id]

/-- Taking a fresh value appends nothing. -/
theorem fresh (block : Nat) (st : FunctionLowerer) :
    Appends block [] st { st with nextValue := st.nextValue + 1 } where
  next_le := Nat.le_succ _
  blocks := (refl block st).blocks

theorem trans (h : Appends block new st st') (h' : Appends block new' st' st'') :
    Appends block (new ++ new') st st'' where
  next_le := Nat.le_trans h.next_le h'.next_le
  blocks := by
    rw [h'.blocks, h.blocks, modify_modify_eq]
    congr 1
    funext b
    simp [BasicBlock.append]

theorem push (instruction : Instruction) {u : Unit}
    (h : (pushInstruction block instruction).run st = some (u, st')) :
    Appends block [instruction] st st' := by
  obtain rfl : _ = st' := congrArg Prod.snd (Option.some.inj h)
  exact ⟨Nat.le_refl _, rfl⟩

end Appends

section

variable {arith : Arithmetic} {call : String → List Int → Exec Int} {args : List Int}

theorem runInstructions_append (registers : Registers) (first second : List Instruction) :
    runInstructions arith call args registers (first ++ second) =
      runInstructions arith call args registers first >>= fun registers =>
        runInstructions arith call args registers second := by
  induction first generalizing registers with
  | nil => rfl
  | cons instruction rest ih => simp [runInstructions, ih]

theorem runInstructions_singleton (registers : Registers) (instruction : Instruction) :
    runInstructions arith call args registers [instruction] =
      runInstruction arith call args registers instruction := by
  simp [runInstructions]

end

/-! ### Names, values and registers -/

/-- At one point of a function: a name in scope stands for a register, below the next fresh number,
that holds its value; the value has the type of the name. -/
structure Related (vars : Variables) (ctx : Context) (env : Env) (registers : Registers)
    (next : Nat) : Prop where
  bound : ∀ name info, vars.lookup name = some info → ∃ value ty, env.lookup name = some value ∧
    ctx.lookup name = some ty ∧ scalarType ty = some info.ty ∧ value.ty = info.ty ∧
    registers info.id = some value.encode ∧ info.id < next
  unbound : ∀ name, vars.lookup name = none → ctx.lookup name = none

/-- The registers after an expression: the result is there, and nothing below `next` changed. -/
structure Holds (registers : Registers) (next : Nat) (info : ValueInfo)
    (registers' : Registers) (value : Value) : Prop where
  result : registers' info.id = some value.encode
  ty : value.ty = info.ty
  frame : ∀ id < next, registers' id = registers id

variable {vars : Variables} {ctx : Context} {env : Env} {registers registers' : Registers}
  {next next' : Nat}

theorem Related.frame (h : Related vars ctx env registers next) (hle : next ≤ next')
    (hframe : ∀ id < next, registers' id = registers id) : Related vars ctx env registers' next' where
  unbound := h.unbound
  bound := by
    intro name info hinfo
    obtain ⟨value, ty, hvalue, hctx, hty, hvty, hreg, hlt⟩ := h.bound name info hinfo
    exact ⟨value, ty, hvalue, hctx, hty, hvty, (hframe info.id hlt).trans hreg,
      Nat.lt_of_lt_of_le hlt hle⟩

/-- The values fit the parameters. -/
def Fits (values : List Value) (params : List Hir.Param) : Prop :=
  List.Forall₂ (fun (value : Value) (param : Hir.Param) => scalarType param.ty = some value.ty)
    values params

/-- Arguments that may be assigned to scalar parameters fit them. -/
theorem fits_of_assignable {exprs : List Mir.Expr} {values : List Value}
    (h : List.Forall₂ (fun (expr : Mir.Expr) (value : Value) =>
      scalarType expr.ty = some value.ty) exprs values) :
    ∀ {params : List Hir.Param}, (∀ param ∈ params, (scalarType param.ty).isSome) →
      typesAssignableTo (exprs.map (·.ty)) (params.map (·.ty)) = true → Fits values params := by
  induction h with
  | nil =>
    intro params _ hassign
    cases params with
    | nil => exact .nil
    | cons param params => simp [typesAssignableTo] at hassign
  | cons hty _ ih =>
    intro params hscalar hassign
    cases params with
    | nil => simp [typesAssignableTo] at hassign
    | cons param params =>
      simp only [map_cons, typesAssignableTo, and_eq_true] at hassign
      obtain ⟨t, ht⟩ := Option.isSome_iff_exists.1 (hscalar param (mem_cons_self ..))
      refine .cons ?_ (ih (fun p hp => hscalar p (mem_cons_of_mem _ hp)) hassign.2)
      rw [ht, scalarType_eq_of_assignable hty ht hassign.1]

/-- The calls of known functions run in lockstep. -/
def CallsMatch (source : Mir.Program) (known : List String) (call : String → List Int → Exec Int)
    (sourceCall : String → List Value → Exec Value) : Prop :=
  ∀ name ∈ known, ∃ function ty, callee source name = some function ∧
    function.isAsync = false ∧ scalarType function.returnTy = some ty ∧
    (∀ param ∈ function.params, (scalarType param.ty).isSome) ∧
    ∀ values, Fits values function.params →
      Lockstep (fun a (value : Value) => a = value.encode ∧ value.ty = ty)
        (call name (values.map (·.encode))) (sourceCall name values)

/-! ### Expressions -/

section

variable {source : Mir.Program} {known : List String} {arith : Arithmetic}
  {call : String → List Int → Exec Int} {sourceCall : String → List Value → Exec Value}
  {args : List Int} (source known arith call sourceCall args) in
/-- What lowering an expression into a block achieves. -/
def ExprSimulated (block : Nat) (vars : Variables) (span : Mir.SourceSpan)
    (expr : Mir.Expr) : Prop :=
  ∀ st info st', (lowerExpr known block vars span expr).run st = some (info, st') →
    ∃ new, Appends block new st st' ∧ ∀ ctx env registers,
      exprTyped source ctx expr = true → Related vars ctx env registers st.nextValue →
      scalarType expr.ty = some info.ty ∧ info.id < st'.nextValue ∧
      Lockstep (Holds registers st.nextValue info)
        (runInstructions arith call args registers new)
        (evalExpr arith .eager sourceCall env expr)

variable (source known arith call sourceCall args) in
/-- What lowering the arguments of a call into a block achieves. -/
def ArgsSimulated (block : Nat) (vars : Variables) (span : Mir.SourceSpan)
    (exprs : List Mir.Expr) : Prop :=
  ∀ st ids st', (lowerArgs known block vars span exprs).run st = some (ids, st') →
    ∃ new, Appends block new st st' ∧ ∀ ctx env registers,
      argsTyped source ctx exprs = true → Related vars ctx env registers st.nextValue →
      Lockstep (fun registers' values =>
          List.Forall₂ (fun id (value : Value) => registers' id = some value.encode) ids values ∧
          List.Forall₂ (fun (expr : Mir.Expr) (value : Value) =>
            scalarType expr.ty = some value.ty) exprs values ∧
          ∀ id < st.nextValue, registers' id = registers id)
        (runInstructions arith call args registers new)
        (evalArgs arith .eager sourceCall env exprs)

variable {registers : Registers} {left right : Value} {lid result rid : Nat} {value : Value}

theorem lockstep_read {id : Nat} (h : registers id = some value.encode) :
    registers.read id = pure value.encode := by
  simp only [Registers.read, h]

theorem readAll_eq {ids : List Nat} {values : List Value}
    (h : List.Forall₂ (fun id (value : Value) => registers id = some value.encode) ids values) :
    registers.readAll ids = pure (values.map (·.encode)) := by
  induction h with
  | nil => rfl
  | cons hid _ ih => simp [Registers.readAll, lockstep_read hid, ih]

/-- The last instruction of an expression writes its result. -/
theorem Holds.write {registers' : Registers} {next : Nat} {ty : ScalarType}
    (hframe : ∀ id < next, registers' id = registers id) (hty : value.ty = ty) :
    Holds registers next ⟨next, ty⟩ (registers'.write next value.encode) value where
  result := by simp [Registers.write]
  ty := hty
  frame := by
    intro id hid
    rw [Registers.write, Function.update_of_ne (Nat.ne_of_lt hid)]
    exact hframe id hid

/-- An instruction writes the value to its register. -/
def Writes (registers : Registers) (result : Nat) (ty : ScalarType) (registers' : Registers)
    (value : Value) : Prop :=
  registers' = registers.write result value.encode ∧ value.ty = ty

variable {block : Nat} {vars : Variables} {span : Mir.SourceSpan} {ty : ScalarType}
  {st st' : FunctionLowerer} {info : ValueInfo}

/-- An operator with two operands: both are lowered into the block, then one instruction combines
their registers. -/
theorem binary_simulated (instr : Nat → Nat → Nat → Instruction)
    (combine : Value → Value → Exec Value) {expr lhs rhs : Mir.Expr}
    (hlower : lowerExpr known block vars span expr = do
      let ty ← scalarType expr.ty
      let result ← freshValue
      let lhs ← lowerExpr known block vars span lhs
      let rhs ← lowerExpr known block vars span rhs
      pushInstruction block (instr result lhs.id rhs.id)
      pure ⟨result, ty⟩)
    (heval : ∀ env, evalExpr arith .eager sourceCall env expr = do
      let left ← evalExpr arith .eager sourceCall env lhs
      let right ← evalExpr arith .eager sourceCall env rhs
      combine left right)
    (hl : ExprSimulated source known arith call sourceCall args block vars span lhs)
    (hr : ExprSimulated source known arith call sourceCall args block vars span rhs)
    (htyped : ∀ ctx ty, scalarType expr.ty = some ty → exprTyped source ctx expr = true →
      exprTyped source ctx lhs = true ∧ exprTyped source ctx rhs = true ∧
      ∀ registers result lid rid left right, scalarType lhs.ty = some left.ty →
        scalarType rhs.ty = some right.ty →
        registers lid = some left.encode → registers rid = some right.encode →
        Lockstep (Writes registers result ty)
          (runInstruction arith call args registers (instr result lid rid)) (combine left right)) :
    ExprSimulated source known arith call sourceCall args block vars span expr := by
  intro st info st' h
  rw [hlower] at h
  obtain ⟨ty, hty, h⟩ := run_start_eq_some.1 h
  simp only [run_bind_eq_some, run_pure_eq_some] at h
  obtain ⟨linfo, st₁, hl₁, rinfo, st₂, hr₂, u, st₃, hpush, rfl, rfl⟩ := h
  obtain ⟨newL, hnewL, hsimL⟩ := hl _ _ _ hl₁
  obtain ⟨newR, hnewR, hsimR⟩ := hr _ _ _ hr₂
  have hfresh := Appends.fresh block st
  have hpushed := Appends.push _ hpush
  have hnext : st.nextValue + 1 ≤ st₁.nextValue := hnewL.next_le
  have hnext' : st₁.nextValue ≤ st₂.nextValue := hnewR.next_le
  have hnext'' : st₂.nextValue ≤ st'.nextValue := hpushed.next_le
  refine ⟨newL ++ (newR ++ [instr st.nextValue linfo.id rinfo.id]), ?_, ?_⟩
  · exact (hfresh.trans (hnewL.trans (hnewR.trans hpushed)))
  · intro ctx env registers htexpr hrel
    obtain ⟨htl, htr, hcombine⟩ := htyped ctx ty hty htexpr
    obtain ⟨hlty, hlid, hsimL⟩ :=
      hsimL ctx env registers htl (hrel.frame (Nat.le_succ _) fun _ _ => rfl)
    refine ⟨hty, show st.nextValue < st'.nextValue by omega, ?_⟩
    rw [runInstructions_append, heval]
    refine hsimL.bind fun registers₁ left hleft => ?_
    have hrel₁ : Related vars ctx env registers₁ st₁.nextValue :=
      hrel.frame (by omega) fun id hid => hleft.frame id (Nat.lt_succ_of_lt hid)
    obtain ⟨hrty, hrid, hsimR⟩ := hsimR ctx env registers₁ htr hrel₁
    rw [runInstructions_append]
    refine hsimR.bind fun registers₂ right hright => ?_
    rw [runInstructions_singleton]
    -- the left result survives the right operand, whose registers are all newer
    have hkept : registers₂ linfo.id = some left.encode :=
      (hright.frame linfo.id hlid).trans hleft.result
    refine (hcombine registers₂ _ linfo.id rinfo.id left right (hlty.trans (by rw [hleft.ty]))
      (hrty.trans (by rw [hright.ty])) hkept hright.result).mono ?_
    intro registers₃ value ⟨hwrite, hty⟩
    rw [hwrite]
    refine Holds.write (fun id hid => ?_) hty
    rw [hright.frame id (by omega), hleft.frame id (Nat.lt_succ_of_lt hid)]

/-- An instruction that gives its result without operands. -/
theorem leaf_simulated {instruction : Instruction} (h : (do
      pushInstruction block instruction
      pure (⟨st.nextValue, ty⟩ : ValueInfo) : LowerM ValueInfo).run
        { st with nextValue := st.nextValue + 1 } = some (info, st')) :
    ∃ new, Appends block new st st' ∧ info = ⟨st.nextValue, ty⟩ ∧ info.id < st'.nextValue ∧
      ∀ registers (evaluated : Exec Value), Lockstep (Writes registers st.nextValue ty)
        (runInstruction arith call args registers instruction) evaluated →
      Lockstep (Holds registers st.nextValue info)
        (runInstructions arith call args registers new) evaluated := by
  simp only [run_bind_eq_some, run_pure_eq_some] at h
  obtain ⟨u, st₁, hpush, rfl, rfl⟩ := h
  have hpushed := Appends.push _ hpush
  refine ⟨[instruction], (Appends.fresh block st).trans hpushed, rfl, hpushed.next_le, ?_⟩
  intro registers evaluated hrun
  rw [runInstructions_singleton]
  refine hrun.mono ?_
  intro registers' value ⟨hwrite, hty⟩
  rw [hwrite]
  exact Holds.write (fun _ _ => rfl) hty

/-- The combination of the two operands of `&&` and `||` when both are evaluated. -/
def logicValues (op : Hir.LogicOp) : Value → Value → Exec Value
  | .bool a, .bool b => pure (.bool (applyLogic op a b))
  | _, _ => throw .stuck

section

variable (hl : registers lid = some left.encode) (hr : registers rid = some right.encode)
include hl hr

theorem arithmetic_lockstep {op : Hir.ArithmeticOp} (hleft : left.ty = .int)
    (hright : right.ty = .int) : Lockstep (Writes registers result .int)
      (runInstruction arith call args registers (.binary result op lid rid span))
      (arithmeticValues arith op left right) := by
  cases left with
  | bool => cases hleft
  | int a =>
    cases right with
    | bool => cases hright
    | int b =>
      simp only [runInstruction, lockstep_read hl, lockstep_read hr, pure_bind, arithmeticValues]
      refine (Lockstep.refl (runArithmetic arith op a b)).bind ?_
      intro value _ heq
      subst heq
      exact .pure ⟨rfl, rfl⟩

theorem compare_lockstep {op : Hir.CompareOp} (hty : left.ty = right.ty) :
    Lockstep (Writes registers result .bool)
      (runInstruction arith call args registers (.compare result op lid rid span))
      (compareValues op left right) := by
  simp only [runInstruction, lockstep_read hl, lockstep_read hr, pure_bind]
  cases left <;> cases right <;> first | exact .pure ⟨rfl, rfl⟩ | cases hty

theorem logic_lockstep {op : Hir.LogicOp} (hleft : left.ty = .bool) (hright : right.ty = .bool) :
    Lockstep (Writes registers result .bool)
      (runInstruction arith call args registers (.logic result op lid rid span))
      (logicValues op left right) := by
  simp only [runInstruction, lockstep_read hl, lockstep_read hr, pure_bind]
  cases left with
  | int => cases hleft
  | bool a =>
    cases right with
    | int => cases hright
    | bool b =>
      refine .pure ⟨?_, rfl⟩
      cases a <;> cases b <;> rfl

end

mutual

/-- **Expressions.**  The instructions of a lowered expression do what the expression does, and
leave its value in the register it was given. -/
theorem lowerExpr_lockstep (hcalls : CallsMatch source known call sourceCall) :
    ∀ expr, ExprSimulated source known arith call sourceCall args block vars span expr := by
  intro expr
  cases expr with
  | literal value =>
    intro st info st' h
    cases value with
    | int value | bool value =>
      rw [lowerExpr] at h
      obtain ⟨ty, hty, h⟩ := run_start_eq_some.1 h
      obtain ⟨new, happ, rfl, hlt, hsim⟩ := leaf_simulated h
      refine ⟨new, happ, fun ctx env registers _ _ => ⟨hty, hlt, hsim registers _ ?_⟩⟩
      exact .pure ⟨rfl, Option.some.inj hty⟩
    | _ =>
      rw [lowerExpr] at h
      obtain ⟨_, _, h⟩ := run_start_eq_some.1 h
      cases h
  | varRef name varTy =>
    intro st info st' h
    rw [lowerExpr] at h
    obtain ⟨ty, hty, h⟩ := run_start_eq_some.1 h
    obtain ⟨hlookup, rfl⟩ := run_lift_eq_some.1 h
    refine ⟨[], Appends.fresh block st, fun ctx env registers htyped hrel => ?_⟩
    obtain ⟨value, found, hvalue, hctx, hfound, hvty, hreg, hlt⟩ := hrel.bound name info hlookup
    have hsame : found = varTy := by simpa [exprTyped, hctx] using htyped
    refine ⟨hsame ▸ hfound, Nat.lt_succ_of_lt hlt, ?_⟩
    simp only [runInstructions, evalExpr, hvalue]
    exact .pure ⟨hreg, hvty, fun _ _ => rfl⟩
  | call name exprs callTy =>
    intro st info st' h
    rw [lowerExpr] at h
    obtain ⟨ty, hty, h⟩ := run_start_eq_some.1 h
    by_cases hread : isStdinLength name exprs = true
    · simp only [hread, if_true] at h
      obtain ⟨new, happ, rfl, hlt, hsim⟩ := leaf_simulated h
      refine ⟨new, happ, fun ctx env registers htyped _ => ⟨hty, hlt, hsim registers _ ?_⟩⟩
      have hint : callTy = .int := by simpa [exprTyped, hread] using htyped
      subst hint
      rw [evalExpr, if_pos hread]
      refine (Lockstep.refl (readBuffer stdinBufferBytes)).bind ?_
      intro length _ heq
      subst heq
      exact .pure ⟨rfl, Option.some.inj hty⟩
    · simp only [hread, if_false, false_eq_true, run_bind_eq_some, run_guard_eq_some,
        run_pure_eq_some] at h
      obtain ⟨_, _, ⟨hknown, rfl⟩, ids, st₁, hargs, u, st₂, hpush, rfl, rfl⟩ := h
      obtain ⟨new, hnew, hsim⟩ := lowerArgs_lockstep hcalls exprs _ _ _ hargs
      have hpushed := Appends.push _ hpush
      have hnext : st.nextValue + 1 ≤ st₁.nextValue := hnew.next_le
      have hnext' : st₁.nextValue ≤ st'.nextValue := hpushed.next_le
      refine ⟨new ++ [.call st.nextValue name ids [] span],
        (Appends.fresh block st).trans (hnew.trans hpushed), ?_⟩
      intro ctx env registers htyped hrel
      obtain ⟨function, rty, hcallee, hasync, hrty, hparams, hlock⟩ := hcalls name hknown
      simp only [exprTyped, hread, if_false, false_eq_true, hcallee, Option.all_some, hasync,
        Bool.false_or, Bool.and_eq_true, decide_eq_true_eq] at htyped
      obtain ⟨htargs, hassign, rfl⟩ := htyped
      have hsim := hsim ctx env registers htargs (hrel.frame (Nat.le_succ _) fun _ _ => rfl)
      refine ⟨hty, show st.nextValue < st'.nextValue by omega, ?_⟩
      rw [runInstructions_append, evalExpr, if_neg hread]
      refine hsim.bind fun registers₁ values ⟨hregs, htys, hframe⟩ => ?_
      rw [runInstructions_singleton, runInstruction, readAll_eq hregs, pure_bind]
      refine (hlock values (fits_of_assignable htys hparams hassign)).bind_left ?_
      intro a value ⟨hencode, hvalue⟩
      rw [hencode]
      refine .pure (Holds.write (fun id hid => hframe id (Nat.lt_succ_of_lt hid)) ?_)
      rw [hvalue]
      exact Option.some.inj (hrty.symm.trans hty)
  | binaryAdd op lhs rhs addTy =>
    refine binary_simulated (.binary · op · · span) (arithmeticValues arith op) (by rw [lowerExpr])
      (fun _ => rfl) (lowerExpr_lockstep hcalls lhs) (lowerExpr_lockstep hcalls rhs)
      fun ctx ty hty htyped => ?_
    have hsome : (scalarType addTy).isNone = false := by rw [show scalarType addTy = _ from hty]; rfl
    simp only [exprTyped, hsome, Bool.false_or, Bool.and_eq_true, decide_eq_true_eq] at htyped
    obtain ⟨⟨htl, htr⟩, ⟨rfl, hal⟩, har⟩ := htyped
    obtain rfl : .int = ty := Option.some.inj hty
    exact ⟨htl, htr, fun _ _ _ _ left right hleft hright hl hr =>
      arithmetic_lockstep hl hr (scalarType_eq_of_assignable hleft rfl hal)
        (scalarType_eq_of_assignable hright rfl har)⟩
  | binaryCompare op lhs rhs compareTy =>
    refine binary_simulated (.compare · op · · span) (compareValues op) (by rw [lowerExpr])
      (fun _ => rfl) (lowerExpr_lockstep hcalls lhs) (lowerExpr_lockstep hcalls rhs)
      fun ctx ty hty htyped => ?_
    simp only [exprTyped, and_eq_true, or_eq_true, decide_eq_true_eq] at htyped
    obtain ⟨⟨⟨htl, htr⟩, rfl⟩, hassign⟩ := htyped
    obtain rfl : .bool = ty := Option.some.inj hty
    refine ⟨htl, htr, fun _ _ _ _ left right hleft hright hl hr =>
      compare_lockstep hl hr ?_⟩
    rcases hassign with hassign | hassign
    · exact scalarType_eq_of_assignable hleft hright hassign
    · exact (scalarType_eq_of_assignable hright hleft hassign).symm
  | binaryLogic op lhs rhs logicTy =>
    refine binary_simulated (.logic · op · · span) (logicValues op) (by rw [lowerExpr])
      (fun _ => rfl) (lowerExpr_lockstep hcalls lhs) (lowerExpr_lockstep hcalls rhs)
      fun ctx ty hty htyped => ?_
    simp only [exprTyped, and_eq_true, decide_eq_true_eq] at htyped
    obtain ⟨⟨⟨⟨htl, htr⟩, rfl⟩, hal⟩, har⟩ := htyped
    obtain rfl : .bool = ty := Option.some.inj hty
    exact ⟨htl, htr, fun _ _ _ _ left right hleft hright hl hr =>
      logic_lockstep hl hr (scalarType_eq_of_assignable hleft rfl hal)
        (scalarType_eq_of_assignable hright rfl har)⟩
  | _ =>
    intro st info st' h
    rw [lowerExpr] at h
    obtain ⟨_, _, h⟩ := run_start_eq_some.1 h
    cases h

/-- **Arguments**, from left to right. -/
theorem lowerArgs_lockstep (hcalls : CallsMatch source known call sourceCall) :
    ∀ exprs, ArgsSimulated source known arith call sourceCall args block vars span exprs
  | [] => by
    intro st ids st' h
    rw [lowerArgs] at h
    obtain ⟨rfl, rfl⟩ := run_pure_eq_some.1 h
    refine ⟨[], Appends.refl block st', fun ctx env registers _ _ => ?_⟩
    exact .pure ⟨.nil, .nil, fun _ _ => rfl⟩
  | expr :: exprs => by
    intro st ids st' h
    simp only [lowerArgs, run_bind_eq_some, run_pure_eq_some] at h
    obtain ⟨info, st₁, hexpr, ids, st₂, hargs, rfl, rfl⟩ := h
    obtain ⟨new, hnew, hsim⟩ := lowerExpr_lockstep hcalls expr _ _ _ hexpr
    obtain ⟨new', hnew', hsim'⟩ := lowerArgs_lockstep hcalls exprs _ _ _ hargs
    refine ⟨new ++ new', hnew.trans hnew', fun ctx env registers htyped hrel => ?_⟩
    obtain ⟨htexpr, htargs⟩ := and_eq_true_iff.1 htyped
    obtain ⟨hty, hlt, hsim⟩ := hsim ctx env registers htexpr hrel
    rw [runInstructions_append]
    refine hsim.bind fun registers₁ value hvalue => ?_
    have hlock := hsim' ctx env registers₁ htargs (hrel.frame hnew.next_le hvalue.frame)
    refine hlock.bind_right fun registers₂ values ⟨hregs, htys, hframe⟩ => ?_
    refine .pure ⟨.cons ?_ hregs, .cons (hty.trans (by rw [hvalue.ty])) htys, ?_⟩
    · exact (hframe info.id hlt).trans hvalue.result
    · intro id hid
      rw [hframe id (Nat.lt_of_lt_of_le hid hnew.next_le), hvalue.frame id hid]

end

end

/-! ### Statements -/

variable {name : String}

theorem lookup_assign (value : Value) :
    ∀ {env : Env}, (env.lookup name).isSome → ∃ env', env.assign name value = some env' ∧
      ∀ x, env'.lookup x = if x = name then some value else env.lookup x
  | (key, old) :: env, h => by
    by_cases hkey : key = name
    · subst hkey
      refine ⟨(key, value) :: env, if_pos rfl, fun x => ?_⟩
      rw [lookup_cons_ite, lookup_cons_ite]
      split <;> rfl
    · rw [lookup_cons_ite, if_neg (Ne.symm hkey)] at h
      obtain ⟨env', henv', hlookup⟩ := lookup_assign value h
      refine ⟨(key, old) :: env', by simp only [Env.assign, if_neg hkey, henv', Option.map_some], ?_⟩
      intro x
      rw [lookup_cons_ite, lookup_cons_ite, hlookup]
      by_cases hx : x = key
      · rw [if_pos hx, if_pos hx, if_neg (hx ▸ hkey)]
      · rw [if_neg hx, if_neg hx]

/-- A name gets a new value: by a declaration, which adds it to the scope, or by an assignment,
which finds it there. -/
theorem Related.update {ctx' : Context} {env' : Env} {info : ValueInfo}
    {value : Value} {ty : Ty} (h : Related vars ctx env registers next) (hle : next ≤ next')
    (hvalue : Holds registers next info registers' value) (hlt : info.id < next')
    (hty : scalarType ty = some info.ty)
    (hctx : ∀ x, ctx'.lookup x = if x = name then some ty else ctx.lookup x)
    (henv : ∀ x, env'.lookup x = if x = name then some value else env.lookup x) :
    Related ((name, info) :: vars) ctx' env' registers' next' := by
  have hframe := h.frame hle hvalue.frame
  constructor
  · intro x info' hinfo'
    rw [lookup_cons_ite] at hinfo'
    rw [henv, hctx]
    by_cases hx : x = name
    · rw [if_pos hx, Option.some.injEq] at hinfo'
      subst hinfo'
      rw [if_pos hx, if_pos hx]
      exact ⟨value, ty, rfl, rfl, hty, hvalue.ty, hvalue.result, hlt⟩
    · rw [if_neg hx] at hinfo'
      rw [if_neg hx, if_neg hx]
      exact hframe.bound x info' hinfo'
  · intro x hnone
    rw [lookup_cons_ite] at hnone
    rw [hctx]
    by_cases hx : x = name
    · rw [if_pos hx] at hnone
      cases hnone
    · rw [if_neg hx] at hnone ⊢
      exact h.unbound x hnone

/-- Statements were lowered into a block: it got the instructions and its end, new blocks came
after the old ones, and the other old blocks are as they were. -/
structure StmtsLowered (block : Nat) (new : List Instruction) (terminator : Terminator)
    (st st' : FunctionLowerer) : Prop where
  next_le : st.nextValue ≤ st'.nextValue
  length_le : st.blocks.length ≤ st'.blocks.length
  others : ∀ i < st.blocks.length, i ≠ block → st'.blocks[i]? = st.blocks[i]?
  here : ∀ b, st.blocks[block]? = some b →
    st'.blocks[block]? = some { b with instructions := b.instructions ++ new, terminator }

section

variable {block condition : Nat} {new new' : List Instruction} {terminator : Terminator}
  {st st' st'' : FunctionLowerer} {span : Mir.SourceSpan}

theorem Appends.length_eq (h : Appends block new st st') : st'.blocks.length = st.blocks.length := by
  rw [h.blocks, length_modify]

theorem StmtsLowered.after (h' : StmtsLowered block new' terminator st' st'')
    (h : Appends block new st st') : StmtsLowered block (new ++ new') terminator st st'' where
  next_le := Nat.le_trans h.next_le h'.next_le
  length_le := h.length_eq ▸ h'.length_le
  others := by
    intro i hi hne
    rw [h'.others i (h.length_eq.symm ▸ hi) hne, h.blocks, getElem?_modify_ne _ _ (Ne.symm hne)]
  here := by
    intro b hb
    have hb' : st'.blocks[block]? = some (b.append new) := by
      rw [h.blocks, getElem?_modify_eq, hb]
      rfl
    rw [h'.here _ hb', BasicBlock.append, append_assoc]

/-- A block gets its end. -/
theorem StmtsLowered.terminate (block : Nat) (terminator : Terminator) (st : FunctionLowerer) :
    StmtsLowered block [] terminator st
      { st with blocks := st.blocks.modify block fun b => { b with terminator } } where
  next_le := Nat.le_refl _
  length_le := Nat.le_of_eq (length_modify ..).symm
  others := fun i _ hne => getElem?_modify_ne _ _ (Ne.symm hne)
  here := by
    intro b hb
    rw [getElem?_modify_eq, hb, append_nil]
    rfl

/-- The blocks after a branch: two new ones for its arms, and the branch at the end of its block. -/
def branched (blocks : List BasicBlock) (block condition : Nat) (span : Mir.SourceSpan) :
    List BasicBlock :=
  (blocks ++ [(⟨blocks.length, [], .unreachable, span⟩ : BasicBlock),
    ⟨blocks.length + 1, [], .unreachable, span⟩]).modify block fun b =>
      { b with terminator := .branch condition blocks.length (blocks.length + 1) span }

/-- The branch at the end of a block, and the two arms lowered into new blocks. -/
theorem StmtsLowered.branch {newT newE : List Instruction} {termT termE : Terminator}
    {st₁ st₂ st₃ : FunctionLowerer}
    (hblock : block < st.blocks.length) (hnext : st₁.nextValue = st.nextValue)
    (hblocks : st₁.blocks = branched st.blocks block condition span)
    (hthen : StmtsLowered st.blocks.length newT termT st₁ st₂)
    (helse : StmtsLowered (st.blocks.length + 1) newE termE st₂ st₃) :
    StmtsLowered block [] (.branch condition st.blocks.length (st.blocks.length + 1) span) st st₃ ∧
      st₃.blocks[st.blocks.length]? = some ⟨st.blocks.length, newT, termT, span⟩ ∧
      st₃.blocks[st.blocks.length + 1]? = some ⟨st.blocks.length + 1, newE, termE, span⟩ := by
  have hlen : st₁.blocks.length = st.blocks.length + 2 := by
    rw [hblocks, branched, length_modify, length_append]
    rfl
  have hlen₂ := hthen.length_le
  -- an old block is reached by neither arm
  have hold : ∀ i < st.blocks.length, st₃.blocks[i]? = st₁.blocks[i]? := by
    intro i hi
    rw [helse.others i (by omega) (by omega), hthen.others i (by omega) (by omega)]
  refine ⟨⟨?_, ?_, ?_, ?_⟩, ?_, ?_⟩
  · exact hnext ▸ Nat.le_trans hthen.next_le helse.next_le
  · have := helse.length_le
    omega
  · intro i hi hne
    rw [hold i hi, hblocks, branched, getElem?_modify_ne _ _ (Ne.symm hne), getElem?_append_left hi]
  · intro b hb
    rw [hold block hblock, hblocks, branched, getElem?_modify_eq, getElem?_append_left hblock, hb,
      append_nil]
    rfl
  · rw [helse.others _ (by omega) (by omega)]
    refine (hthen.here ⟨st.blocks.length, [], .unreachable, span⟩ ?_).trans rfl
    rw [hblocks, branched, getElem?_modify_ne _ _ (by omega), getElem?_append_right (Nat.le_refl _),
      Nat.sub_self]
    rfl
  · refine (helse.here ⟨st.blocks.length + 1, [], .unreachable, span⟩ ?_).trans rfl
    rw [hthen.others _ (by omega) (by omega), hblocks, branched, getElem?_modify_ne _ _ (by omega),
      getElem?_append_right (Nat.le_add_right _ 1), Nat.add_sub_cancel_left]
    rfl

/-- The two blocks a branch opens, its end, and then the two arms. -/
theorem run_branch_eq_some {f g : Nat → LowerM Unit}
    (h : (do
      let thenId ← newBlock span
      let elseId ← newBlock span
      setTerminator block (.branch condition thenId elseId span)
      f thenId
      g elseId
      pure () : LowerM Unit).run st = some ((), st')) :
    ∃ st₁ st₂, st₁.nextValue = st.nextValue ∧
      st₁.blocks = branched st.blocks block condition span ∧
      (f st.blocks.length).run st₁ = some ((), st₂) ∧
      (g (st.blocks.length + 1)).run st₂ = some ((), st') := by
  simp only [run_bind_eq_some, run_newBlock_eq_some, run_setTerminator_eq_some,
    run_pure_eq_some] at h
  obtain ⟨_, _, ⟨rfl, rfl⟩, _, _, ⟨rfl, rfl⟩, _, st₁, hst₁, _, st₂, hf, _, _, hg, -, rfl⟩ := h
  refine ⟨st₁, st₂, by rw [hst₁], ?_, hf, ?_⟩
  · rw [hst₁]
    simp [branched]
  · simpa using hg

end

/-- The graph is the lowered one in the block and in the blocks that lowering added. -/
def Agrees (graph : List BasicBlock) (block : Nat) (st st' : FunctionLowerer) : Prop :=
  ∀ i < st'.blocks.length, i = block ∨ st.blocks.length ≤ i → graph[i]? = st'.blocks[i]?

section

variable {source : Mir.Program} {known : List String} {arith : Arithmetic}
  {call : String → List Int → Exec Int} {sourceCall : String → List Value → Exec Value}
  {args : List Int} {returnTy : Ty} {returnType : ScalarType}

/-- The block returns what the statements return. -/
def Returns (returnType : ScalarType) (result : Int) (flow : Flow) : Prop :=
  ∃ value : Value, flow = .returned value ∧ result = value.encode ∧ value.ty = returnType

variable (source known arith call sourceCall args returnTy returnType) in
/-- What lowering statements into a block achieves. -/
def StmtsSimulated (stmts : List Mir.Stmt) : Prop :=
  ∀ block vars st st', (lowerStatements known returnTy block stmts vars).run st = some ((), st') →
    block < st.blocks.length →
    ∃ new terminator, StmtsLowered block new terminator st st' ∧
      ∀ graph, Agrees graph block st st' → ∀ budget ctx env registers,
        blockTyped source returnTy ctx stmts = true → Related vars ctx env registers st.nextValue →
        Lockstep (Returns returnType)
          (runInstructions arith call args registers new >>= fun registers =>
            runTerminator (runBlock arith call args graph budget) registers terminator)
          (evalBlock arith .eager sourceCall budget stmts env)

/-- A value is computed and bound to a name, and the rest of the block goes on with it. -/
theorem bind_simulated {rest : List Mir.Stmt} {block : Nat} {vars : Variables}
    {span : Mir.SourceSpan} {expr : Mir.Expr} {name : String} {ty : Ty} {st st' : FunctionLowerer}
    (hcalls : CallsMatch source known call sourceCall)
    (hrest : StmtsSimulated source known arith call sourceCall args returnTy returnType rest)
    (h : (do
      let expected ← scalarType ty
      let value ← lowerExpr known block vars span expr
      guard (value.ty = expected)
      lowerStatements known returnTy block rest ((name, value) :: vars) : LowerM Unit).run st =
        some ((), st'))
    (hblock : block < st.blocks.length) :
    ∃ new terminator, StmtsLowered block new terminator st st' ∧
      ∀ graph, Agrees graph block st st' → ∀ budget ctx ctx' env registers (update : Value → Exec Env),
        exprTyped source ctx expr = true → blockTyped source returnTy ctx' rest = true →
        (∀ x, ctx'.lookup x = if x = name then some ty else ctx.lookup x) →
        (∀ value, ∃ env', update value = pure env' ∧
          ∀ x, env'.lookup x = if x = name then some value else env.lookup x) →
        Related vars ctx env registers st.nextValue →
        Lockstep (Returns returnType)
          (runInstructions arith call args registers new >>= fun registers =>
            runTerminator (runBlock arith call args graph budget) registers terminator)
          (do
            let value ← evalExpr arith .eager sourceCall env expr
            let env ← update value
            evalBlock arith .eager sourceCall budget rest env) := by
  simp only [run_bind_eq_some, run_lift_eq_some, run_guard_eq_some] at h
  obtain ⟨expected, _, ⟨hty, rfl⟩, info, _, hexpr, _, st₁, ⟨hinfo, rfl⟩, h⟩ := h
  obtain ⟨new, hnew, hsim⟩ := lowerExpr_lockstep hcalls expr _ _ _ hexpr
  obtain ⟨new', terminator, hlowered, hlock⟩ :=
    hrest block _ _ _ h (hnew.length_eq.symm ▸ hblock)
  refine ⟨new ++ new', terminator, hlowered.after hnew, ?_⟩
  intro graph hgraph budget ctx ctx' env registers update htexpr htrest hctx hupdate hrel
  obtain ⟨-, hlt, hsim⟩ := hsim ctx env registers htexpr hrel
  rw [runInstructions_append, bind_assoc]
  refine hsim.bind fun registers₁ value hvalue => ?_
  obtain ⟨env', henv', hlookup⟩ := hupdate value
  rw [henv', pure_bind]
  have hgraph' : Agrees graph block st₁ st' := by
    intro i hi hor
    exact hgraph i hi (hnew.length_eq ▸ hor)
  exact hlock graph hgraph' budget ctx' env' registers₁ htrest
    (hrel.update hnew.next_le hvalue hlt (hinfo ▸ hty) hctx hlookup)

/-- An arm of a two-armed `if`: entering its block runs its statements. -/
theorem arm_lockstep {graph : List BasicBlock} {id : Nat} {b : BasicBlock} {budget : Nat}
    {registers : Registers} {arm : Exec Flow} {env : Env} {after : Env → Exec Flow}
    (hat : graph[id]? = some b) (h : Lockstep (Returns returnType)
      (runInstructions arith call args registers b.instructions >>= fun registers =>
        runTerminator (runBlock arith call args graph budget) registers b.terminator) arm) :
    Lockstep (Returns returnType) (runBlock arith call args graph (budget + 1) id registers) (do
      match (← arm).leave env with
      | .returned value => pure (.returned value)
      | .next inner => after inner) := by
  rw [runBlock, hat]
  refine h.bind_right fun result flow hflow => ?_
  obtain ⟨value, rfl, hresult, hty⟩ := hflow
  exact .pure ⟨value, rfl, hresult, hty⟩

variable (hreturn : scalarType returnTy = some returnType)
  (hcalls : CallsMatch source known call sourceCall)

include hreturn hcalls

/-- **Statements.**  The block that statements are lowered into, and the blocks it branches to,
return what the statements return. -/
theorem lowerStatements_lockstep :
    ∀ stmts, StmtsSimulated source known arith call sourceCall args returnTy returnType stmts
  | .letStmt name ty expr span :: rest => by
    intro block vars st st' h hblock
    simp only [lowerStatements, lowerStatement, bind_assoc, pure_bind] at h
    obtain ⟨new, terminator, hlowered, hlock⟩ :=
      bind_simulated hcalls (lowerStatements_lockstep rest) h hblock
    refine ⟨new, terminator, hlowered, ?_⟩
    intro graph hgraph budget ctx env registers htyped hrel
    simp only [blockTyped, stmtTyped, scopeAfter, and_eq_true] at htyped
    simp only [evalBlock, evalStmt, bind_assoc, pure_bind]
    exact hlock graph hgraph budget ctx ((name, ty) :: ctx) env registers
      (fun value => pure ((name, value) :: env)) htyped.1.1 htyped.2 (lookup_cons_ite name ty ctx)
      (fun value => ⟨_, rfl, lookup_cons_ite name value env⟩) hrel
  | .assign target expr span :: rest => by
    intro block vars st st' h hblock
    cases target with
    | varRef name ty =>
      simp only [lowerStatements, lowerStatement, bind_assoc, pure_bind] at h
      obtain ⟨new, terminator, hlowered, hlock⟩ :=
        bind_simulated hcalls (lowerStatements_lockstep rest) h hblock
      refine ⟨new, terminator, hlowered, ?_⟩
      intro graph hgraph budget ctx env registers htyped hrel
      simp only [blockTyped, stmtTyped, scopeAfter, and_eq_true, decide_eq_true_eq] at htyped
      obtain ⟨⟨⟨htexpr, hctx⟩, -⟩, htrest⟩ := htyped
      have hbound : (env.lookup name).isSome := by
        cases hvars : vars.lookup name with
        | none => rw [hrel.unbound name hvars] at hctx; cases hctx
        | some info =>
          obtain ⟨value, _, hvalue, _⟩ := hrel.bound name info hvars
          rw [hvalue]
          rfl
      have hstep := hlock graph hgraph budget ctx ctx env registers
        (fun value => (env.assign name value).elim (throw .stuck) pure) htexpr htrest
        (fun x => by split <;> simp_all)
        (fun value => by
          obtain ⟨env', henv', hlookup⟩ := lookup_assign value hbound
          exact ⟨env', by rw [henv']; rfl, hlookup⟩) hrel
      convert hstep using 1
      simp only [evalBlock, evalStmt, bind_assoc]
      congr 1
      funext value
      cases env.assign name value <;> rfl
    | _ => cases h
  | .returnStmt expr span :: rest => by
    intro block vars st st' h hblock
    simp only [lowerStatements, lowerStatement, bind_assoc, pure_bind, run_bind_eq_some,
      run_lift_eq_some, run_guard_eq_some, run_setTerminator_eq_some, run_pure_eq_some] at h
    obtain ⟨info, _, hexpr, expected, _, ⟨hexpected, rfl⟩, _, st₁, ⟨hinfo, rfl⟩, _, _, hst, _, _,
      ⟨-, rfl⟩, -, rfl⟩ := h
    obtain ⟨new, hnew, hsim⟩ := lowerExpr_lockstep hcalls expr _ _ _ hexpr
    have hended := StmtsLowered.terminate block (.ret info.id span) st₁
    rw [← hst] at hended
    refine ⟨new ++ [], _, hended.after hnew, ?_⟩
    intro graph hgraph budget ctx env registers htyped hrel
    simp only [blockTyped, stmtTyped, and_eq_true] at htyped
    obtain ⟨-, -, hsim⟩ := hsim ctx env registers htyped.1.1 hrel
    simp only [append_nil, evalBlock, evalStmt, bind_assoc, pure_bind]
    refine hsim.bind fun registers₁ value hvalue => ?_
    rw [runTerminator, lockstep_read hvalue.result]
    refine .pure ⟨value, rfl, rfl, hvalue.ty.trans ?_⟩
    rw [hinfo]
    exact Option.some.inj (hexpected.symm.trans hreturn)
  | .ifStmt cond thenBlock (some elseBlock) span :: rest => by
    intro block vars st st' h hblock
    simp only [lowerStatements, lowerStatement, bind_assoc, pure_bind] at h
    rw [run_bind_eq_some] at h
    obtain ⟨_, st₀, hguard, h⟩ := h
    obtain ⟨-, rfl⟩ := run_guard_eq_some.1 hguard
    rw [run_bind_eq_some] at h
    obtain ⟨info, _, hcond, h⟩ := h
    rw [run_bind_eq_some] at h
    obtain ⟨_, st₁, hguard, h⟩ := h
    obtain ⟨hinfo, rfl⟩ := run_guard_eq_some.1 hguard
    obtain ⟨st₂, st₃, hnext₂, hst₂, hthen, helse⟩ := run_branch_eq_some h
    obtain ⟨new, hnew, hsim⟩ := lowerExpr_lockstep hcalls cond _ _ _ hcond
    have hlen₁ : st₁.blocks.length = st₀.blocks.length := hnew.length_eq
    have hlen₂ : st₂.blocks.length = st₁.blocks.length + 2 := by
      rw [hst₂, branched, length_modify, length_append]
      rfl
    obtain ⟨newT, termT, hthenL, hthenS⟩ :=
      lowerStatements_lockstep thenBlock _ _ _ _ hthen (by omega)
    have hlen₃ := hthenL.length_le
    obtain ⟨newE, termE, helseL, helseS⟩ :=
      lowerStatements_lockstep elseBlock _ _ _ _ helse (by omega)
    have hlen₄ := helseL.length_le
    obtain ⟨hended, hatT, hatE⟩ := StmtsLowered.branch (by omega) hnext₂ hst₂ hthenL helseL
    refine ⟨new ++ [], _, hended.after hnew, ?_⟩
    intro graph hgraph budget ctx env registers htyped hrel
    simp only [blockTyped, stmtTyped, and_eq_true] at htyped
    obtain ⟨⟨⟨⟨htcond, -⟩, htthen⟩, htelse⟩, -⟩ := htyped
    obtain ⟨-, -, hsim⟩ := hsim ctx env registers htcond hrel
    have hgraphT : Agrees graph st₁.blocks.length st₂ st₃ := by
      intro i hi hor
      rw [hgraph i (by omega) (by omega), helseL.others i hi (by omega)]
    have hgraphE : Agrees graph (st₁.blocks.length + 1) st₃ st' := by
      intro i hi hor
      exact hgraph i hi (by omega)
    simp only [append_nil, evalBlock, evalStmt, bind_assoc, pure_bind]
    refine hsim.bind fun registers₁ value hvalue => ?_
    have hrel₁ : Related vars ctx env registers₁ st₁.nextValue :=
      hrel.frame hnew.next_le hvalue.frame
    rw [runTerminator, lockstep_read hvalue.result, pure_bind]
    cases value with
    | int => cases hvalue.ty.trans hinfo
    | bool b =>
      cases budget with
      | zero => exact .throw _
      | succ budget =>
        cases b with
        | true =>
          have hat := (hgraph st₁.blocks.length (by omega) (by omega)).trans hatT
          exact arm_lockstep hat
            (hthenS graph hgraphT budget ctx env registers₁ htthen (hnext₂ ▸ hrel₁))
        | false =>
          have hat := (hgraph (st₁.blocks.length + 1) (by omega) (by omega)).trans hatE
          exact arm_lockstep hat (helseS graph hgraphE budget ctx env registers₁ htelse
            (hrel₁.frame (hnext₂ ▸ hthenL.next_le) fun _ _ => rfl))
  | [] | .print .. :: _ | .panic .. :: _ | .defer .. :: _ | .ifStmt _ _ none _ :: _
  | .whileStmt .. :: _ | .breakStmt .. :: _ | .continueStmt .. :: _ | .matchStmt .. :: _ => by
    intro block vars st st' h
    cases h

end

end Axiomc.ExecutableMir
