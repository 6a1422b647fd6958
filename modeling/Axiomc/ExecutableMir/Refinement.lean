import Axiomc.ExecutableMir.Simulation
import Axiomc.Foundation.Checks

/-!
# When executable MIR refines its source

* `runFunction_lockstep` — every lowered function runs in lockstep with its source function under
  the reading of the block graphs, with any amount of fuel;
* `checked_source`, `checked_eager`, `evalFunction_checked` — the checked reading of a program is each
  of the two others, unless it stops with `differs`;
* `entryIsMain_iff` — the entry is the first parameterless `main` of the user functions, of whatever
  module;
* `lowered_behaves` — a lowered function behaves as its source function on each input on which the
  checked reading does not stop so;
* `lowering_differs` — three programs that are lowered to something else: a decided `&&` whose right
  operand traps, an input longer than the buffer, and a `main` in a module before the entry module.
-/

namespace Axiomc.ExecutableMir

open Axiomc.Foundation List Bool
open Axiomc.Hir (Ty)

/-! ### Parameters -/

section

variable (arith : Arithmetic) (call : String → List Int → Exec Int)

/-- The parameter instructions put the arguments into the registers of the parameters. -/
theorem lowerParams_related {span : Mir.SourceSpan} :
    ∀ {params : List Hir.Param} {index : Nat} {vars vars' : Variables} {st st' : FunctionLowerer},
      (lowerParams span index params vars).run st = some (vars', st') →
      ∃ new, Appends 0 new st st' ∧ ∀ (before values : List Value) ctx env registers,
        before.length = index → Fits values params → Related vars ctx env registers st.nextValue →
        ∃ registers', runInstructions arith call ((before ++ values).map (·.encode)) registers new =
            pure registers' ∧
          Related vars' ((params.map fun param => (param.name, param.ty)).reverse ++ ctx)
            (((params.map (·.name)).zip values).reverse ++ env) registers' st'.nextValue := by
  intro params
  induction params with
  | nil =>
    intro index vars vars' st st' h
    obtain ⟨rfl, rfl⟩ := run_pure_eq_some.1 h
    refine ⟨[], .refl 0 st', fun before values ctx env registers _ hfits hrel => ?_⟩
    cases hfits
    exact ⟨registers, rfl, hrel⟩
  | cons param params ih =>
    intro index vars vars' st st' h
    obtain ⟨ty, hty, h⟩ := run_start_eq_some.1 h
    rw [run_bind_eq_some] at h
    obtain ⟨u, st₁, hpush, h⟩ := h
    have hpushed := (Appends.fresh 0 st).trans (Appends.push _ hpush)
    obtain ⟨new, hnew, hsim⟩ := ih h
    refine ⟨_, hpushed.trans hnew, fun before values ctx env registers hlen hfits hrel => ?_⟩
    cases hfits with
    | cons hvalue hrest =>
      rename_i value values
      obtain rfl : ty = value.ty := Option.some.inj (hty.symm.trans hvalue)
      have hlt : st.nextValue < st₁.nextValue := (Appends.push _ hpush).next_le
      have hholds : Holds registers st.nextValue ⟨st.nextValue, value.ty⟩
          (registers.write st.nextValue value.encode) value := Holds.write (fun _ _ => rfl) rfl
      have hrel₁ : Related ((param.name, ⟨st.nextValue, value.ty⟩) :: vars)
          ((param.name, param.ty) :: ctx) ((param.name, value) :: env)
          (registers.write st.nextValue value.encode) st₁.nextValue :=
        hrel.update hpushed.next_le hholds hlt hty (lookup_cons_ite param.name param.ty ctx)
          (lookup_cons_ite param.name value env)
      obtain ⟨registers', hrun, hrel'⟩ := hsim (before ++ [value]) values _ _ _ (by simp [hlen])
        hrest hrel₁
      refine ⟨registers', ?_, by simpa using hrel'⟩
      have hat : ((before ++ value :: values).map (·.encode))[index]? = some value.encode := by
        simp [← hlen]
      simp only [nil_append, cons_append, runInstructions, runInstruction, hat, pure_bind]
      rw [← hrun, append_assoc, singleton_append]

end

/-! ### Functions -/

/-- What a lowered function is made of. -/
theorem lowerFunction_eq_some {known : List String} {function : Mir.Function} {lowered : Function}
    (h : lowerFunction known function = some lowered) :
    ∃ vars st st', (lowerParams ⟨function.line, function.column⟩ 0 function.params []).run
        ⟨0, [⟨0, [], .unreachable, ⟨function.line, function.column⟩⟩]⟩ = some (vars, st) ∧
      (lowerStatements known function.returnTy 0 function.body vars).run st = some ((), st') ∧
      lowered.name = function.name ∧ lowered.entryBlock = 0 ∧ lowered.blocks = st'.blocks ∧
      function.isAsync = false ∧ ∃ returnType, scalarType function.returnTy = some returnType := by
  simp only [lowerFunction, FunctionLowerer.new, FunctionLowerer.lower, Option.bind_eq_bind,
    Option.bind_eq_some_iff, Option.pure_def, Option.some.injEq] at h
  obtain ⟨⟨vars, st⟩, ⟨_, _, _, hguard, hparams⟩, ⟨_, st'⟩, hbody, _, _, _, _, ty, hty, rfl⟩ := h
  refine ⟨vars, st, st', hparams, hbody, rfl, rfl, rfl, ?_, ty, hty⟩
  by_contra hasync
  simp [hasync] at hguard

section

variable {source : Mir.Program} {known : List String} {arith : Arithmetic}
  {call : String → List Int → Exec Int} {sourceCall : String → List Value → Exec Value}

/-- **One activation.**  The block graph of a function, run on encoded arguments, returns what the
body returns. -/
theorem activation_lockstep {function : Mir.Function} {lowered : Function} {returnType : ScalarType}
    (hlowered : lowerFunction known function = some lowered)
    (htyped : functionTyped source function = true)
    (hreturn : scalarType function.returnTy = some returnType)
    (hcalls : CallsMatch source known call sourceCall) {values : List Value}
    (hfits : Fits values function.params) (budget : Nat) : Lockstep (Returns returnType)
      (runBlock arith call (values.map (·.encode)) lowered.blocks (budget + 1) lowered.entryBlock
        fun _ => none)
      (evalBlock arith .eager sourceCall budget function.body (bindParams function.params values)) := by
  obtain ⟨vars, st, st', hparams, hbody, -, hentry, hblocks, -, -⟩ :=
    lowerFunction_eq_some hlowered
  obtain ⟨newP, hnewP, hsimP⟩ := lowerParams_related arith call hparams
  have hone : st.blocks.length = 1 := hnewP.length_eq
  have hsimulated : StmtsSimulated source known arith call sourceCall (values.map (·.encode))
      function.returnTy returnType function.body :=
    lowerStatements_lockstep hreturn hcalls function.body
  obtain ⟨newS, terminator, hstmts, hsimS⟩ := hsimulated _ _ _ _ hbody (by omega)
  -- block 0 holds the parameters and then the body
  have hblock : st'.blocks[0]? = some ⟨0, newP ++ newS, terminator,
      ⟨function.line, function.column⟩⟩ := by
    refine (hstmts.after hnewP).here ⟨0, [], .unreachable, _⟩ rfl
  have hempty : Related [] [] [] (fun _ => none) 0 :=
    ⟨fun _ _ h => (nomatch h), fun _ _ => rfl⟩
  obtain ⟨registers, hrunP, hrel⟩ := hsimP [] values [] [] _ rfl hfits hempty
  have hsim := hsimS st'.blocks (fun _ _ _ => rfl) budget (paramContext function)
    (bindParams function.params values) registers htyped
    (by simpa [paramContext, bindParams] using hrel)
  rw [hentry, hblocks, runBlock, hblock]
  simp only [runInstructions_append]
  rw [show runInstructions arith call (values.map (·.encode)) (fun _ => none) newP = pure registers
    from hrunP]
  exact hsim

end

/-! ### Programs -/

section

variable {source : Mir.Program} {program : Program} {arith : Arithmetic}

/-- What a lowered program is made of. -/
theorem lowerScalarProgram_eq_some (h : lowerScalarProgram source = some program) :
    ∃ main entry lowered, (userFunctions source).find? isMain = some main ∧
      lowerFunction (knownFunctions source main) main = some entry ∧
      List.Forall₂ (fun function lowered =>
          lowerFunction (knownFunctions source main) function = some lowered)
        ((userFunctions source).filter (·.name != main.name)) lowered ∧
      program.functions = entry :: lowered := by
  simp only [lowerScalarProgram, Option.bind_eq_bind, Option.bind_eq_some_iff, Option.pure_def,
    Option.some.injEq] at h
  obtain ⟨_, _, main, hmain, lowered, hlowered, entry, hentry, _, _, rfl⟩ := h
  exact ⟨main, entry, lowered, hmain, hentry, forall₂_of_mapM hlowered, rfl⟩

theorem mem_functions_of_mem_user {function : Mir.Function} (h : function ∈ userFunctions source) :
    function ∈ source.functions :=
  (mem_filter.1 h).1

variable {known : List String}

theorem find?_of_forall₂ {name : String} : ∀ {functions : List Mir.Function} {lowered : List Function},
      List.Forall₂ (fun function lowered => lowerFunction known function = some lowered)
        functions lowered →
      (functions.find? (·.name == name)).bind (lowerFunction known) =
        lowered.find? (·.name == name) := by
  intro functions lowered h
  induction h with
  | nil => rfl
  | cons hhead _ ih =>
    obtain ⟨_, _, _, _, _, hname, _⟩ := lowerFunction_eq_some hhead
    rw [find?_cons, find?_cons, hname]
    split
    · exact hhead
    · exact ih

variable {lowered : List Function} {functions : List Mir.Function} {entry : Function} {main : Mir.Function}

section

variable
  (h : List.Forall₂ (fun function lowered => lowerFunction known function = some lowered) functions lowered)
include h

theorem exists_lowered :
    ∀ function ∈ functions, ∃ target, lowerFunction known function = some target := by
  induction h with
  | nil => simp
  | cons hhead _ ih => exact forall_mem_cons.2 ⟨⟨_, hhead⟩, ih⟩

theorem exists_source :
    ∀ target ∈ lowered, ∃ function ∈ functions, lowerFunction known function = some target := by
  induction h with
  | nil => simp
  | cons hhead _ ih =>
    refine forall_mem_cons.2 ⟨⟨_, mem_cons_self .., hhead⟩, fun target htarget => ?_⟩
    obtain ⟨function, hfunction, h⟩ := ih target htarget
    exact ⟨function, mem_cons_of_mem _ hfunction, h⟩

end

section Lowered

variable (hwt : WellTyped source) (hentry : entry.name = main.name)
  (hlowered : List.Forall₂ (fun function lowered =>
      lowerFunction (knownFunctions source main) function = some lowered)
    ((userFunctions source).filter (·.name != main.name)) lowered)

include hwt hentry hlowered

/-- A known name calls one user function, and in the lowered program its lowering. -/
theorem known_function {name : String} (h : name ∈ knownFunctions source main) :
    ∃ function target, function ∈ userFunctions source ∧ callee source name = some function ∧
      hasScalarSignature function = true ∧
      lowerFunction (knownFunctions source main) function = some target ∧
      (entry :: lowered).find? (·.name == name) = some target := by
  simp only [knownFunctions, mem_filter, mem_map, bne_iff_ne] at h
  obtain ⟨⟨function, ⟨huser, hscalar⟩, rfl⟩, hne⟩ := h
  have hmem := mem_functions_of_mem_user huser
  have hfiltered : function ∈ (userFunctions source).filter (·.name != main.name) :=
    mem_filter.2 ⟨huser, bne_iff_ne.2 hne⟩
  obtain ⟨target, htarget⟩ := exists_lowered hlowered function hfiltered
  refine ⟨function, target, huser, callee_of_mem hwt hmem, hscalar, htarget, ?_⟩
  have hfind : ((userFunctions source).filter (·.name != main.name)).find?
      (·.name == function.name) = some function := by
    have hsome : (((userFunctions source).filter (·.name != main.name)).find?
        (·.name == function.name)).isSome := find?_isSome.2 ⟨function, hfiltered, by simp⟩
    obtain ⟨found, hfound⟩ := Option.isSome_iff_exists.1 hsome
    have hname : found.name = function.name := by simpa using find?_some hfound
    have huser' := (mem_filter.1 (mem_of_find?_eq_some hfound)).1
    rw [hfound, inj_on_of_nodup_map hwt.1 (mem_functions_of_mem_user huser') hmem hname]
  rw [find?_cons_of_neg (by simpa [hentry] using Ne.symm hne), ← find?_of_forall₂ hlowered,
    hfind, Option.bind_some, htarget]

/-- **Functions.**  With every amount of fuel a lowered function runs in lockstep with its source
function, read as the block graphs are. -/
theorem runFunction_lockstep (hprogram : program.functions = entry :: lowered) (fuel : Nat) :
    ∀ function target returnType, function ∈ userFunctions source →
      lowerFunction (knownFunctions source main) function = some target →
      scalarType function.returnTy = some returnType → ∀ values, Fits values function.params →
      Lockstep (fun a (value : Value) => a = value.encode ∧ value.ty = returnType)
        (runFunction arith program fuel target (values.map (·.encode)))
        (evalFunction arith .eager source fuel function values) := by
  induction fuel with
  | zero =>
    intro function target returnType _ _ _ values _
    exact .throw _
  | succ fuel ih =>
    intro function target returnType huser htarget hreturn values hfits
    have htyped : functionTyped source function = true :=
      all_eq_true.1 hwt.2 function (mem_functions_of_mem_user huser)
    rw [evalFunction, if_pos hfits.length_eq.symm]
    refine (activation_lockstep htarget htyped hreturn ?_ hfits (fuel + 1)).bind_right ?_
    · -- a call that both sides know is a call of a function that was lowered
      intro name hname
      obtain ⟨function, target, huser, hcallee, hscalar, htarget, hfind⟩ :=
        known_function hwt hentry hlowered hname
      simp only [hasScalarSignature, and_eq_true, all_eq_true] at hscalar
      obtain ⟨ty, hty⟩ := Option.isSome_iff_exists.1 hscalar.1
      obtain ⟨_, _, _, _, _, _, _, _, hasync, _⟩ := lowerFunction_eq_some htarget
      refine ⟨function, ty, hcallee, hasync, hty, hscalar.2, fun values hfits => ?_⟩
      refine (Lockstep.refl (emit _)).bind fun _ _ _ => ?_
      rw [hprogram, hfind, show source.functions.find? (·.name == name) = some function from hcallee]
      exact ih function target ty huser htarget hty values hfits
    · intro result flow hflow
      obtain ⟨value, rfl, hresult, hty⟩ := hflow
      exact .pure ⟨hresult, hty⟩

end Lowered

end

/-! ### The checked reading -/

/-- The checked reading does what this one does, unless it stops with `differs`. -/
structure Discipline.Checked (d : Discipline) : Prop where
  logic : ∀ op lhs lhs' rhs rhs', SameUnless .differs lhs lhs' → SameUnless .differs rhs rhs' →
    SameUnless .differs (d.logic op lhs rhs) (checkedLogic op lhs' rhs')
  readLength : SameUnless .differs d.readLength checkedRead

/-- What is done with a value in place of an operand that has the value and no effect. -/
theorem passOver_same {m : Exec Value} {operand : Exec Value} {value : Value}
    (h : ∀ world b, exec operand world = (.ok (.bool b), world) → exec m world = (.ok value, world)) :
    SameUnless .differs m (passOver operand >>= fun _ => pure value) := by
  intro world
  have hget : exec (get : Exec World) world = (.ok world, world) := rfl
  simp only [passOver, exec_bind, hget]
  cases hexec : exec operand world with
  | mk r world' =>
    rcases r with _ | (_ | b)
    · exact .inr rfl
    · exact .inr rfl
    · by_cases heq : world' = world
      · subst heq
        simp only [if_true]
        exact .inl (h _ b hexec).symm
      · simp only [if_neg heq]
        exact .inr rfl

theorem checked_source : Discipline.source.Checked where
  logic op lhs lhs' rhs rhs' hlhs hrhs := by
    refine hlhs.bind fun a => ?_
    cases a with
    | int a => exact fun _ => by cases op <;> exact .inr rfl
    | bool a =>
      -- The left operand decides, or the right one goes on.
      cases op <;> cases a
      · exact passOver_same fun _ _ _ => rfl
      · exact hrhs.bind fun _ => .refl _ _
      · exact hrhs.bind fun _ => .refl _ _
      · exact passOver_same fun _ _ _ => rfl
  readLength := by
    intro world
    have hget : exec (get : Exec World) world = (.ok world, world) := rfl
    simp only [checkedRead, exec_bind, hget]
    split
    · exact .inl rfl
    · exact .inr rfl

theorem checked_eager : Discipline.eager.Checked where
  logic op lhs lhs' rhs rhs' hlhs hrhs := by
    refine hlhs.bind fun a => ?_
    have hvalue : ∀ world b, exec rhs' world = (.ok (.bool b), world) →
        exec rhs world = (.ok (.bool b), world) := by
      intro world b hexec
      rw [← hrhs.exec_eq (by rw [hexec]; simp), hexec]
    cases a with
    | int a => exact fun _ => by cases op <;> exact .inr rfl
    | bool a =>
      cases op <;> cases a
      · refine passOver_same fun world b hexec => ?_
        simp only [exec_bind, hvalue world b hexec]
        rfl
      · refine hrhs.bind fun b => ?_
        cases b <;> exact .refl _ _
      · refine hrhs.bind fun b => ?_
        cases b <;> exact .refl _ _
      · refine passOver_same fun world b hexec => ?_
        simp only [exec_bind, hvalue world b hexec]
        rfl
  readLength := by
    intro world
    have hget : exec (get : Exec World) world = (.ok world, world) := rfl
    simp only [checkedRead, exec_bind, hget]
    split
    · rename_i hfits
      left
      have hmin : min stdinBufferBytes world.stdin.length = world.stdin.length := min_eq_right hfits.1
      show exec readAll world =
        exec (readBuffer stdinBufferBytes >>= fun length => pure (.int length)) world
      simp only [readAll, readBuffer, exec_bind, hget, hmin, if_pos hfits.2, drop_length]
      rfl
    · exact .inr rfl

theorem enterArm_checked {thenArm thenArm' elseArm elseArm' : Nat → Exec Flow} {budget : Nat}
    {condition : Value} (hthen : ∀ budget, SameUnless .differs (thenArm budget) (thenArm' budget))
    (helse : ∀ budget, SameUnless .differs (elseArm budget) (elseArm' budget)) :
    SameUnless .differs (enterArm budget condition thenArm elseArm)
      (enterArm budget condition thenArm' elseArm') := by
  cases condition with
  | int => exact .refl _ _
  | bool b =>
    cases budget with
    | zero => exact .refl _ _
    | succ budget =>
      cases b
      · exact helse budget
      · exact hthen budget

/-- Calls that are the same, unless the checked one stops with `differs`. -/
abbrev CallsChecked (call call' : String → List Value → Exec Value) : Prop :=
  ∀ name args, SameUnless .differs (call name args) (call' name args)

section

variable {arith : Arithmetic} {d : Discipline} {call call' : String → List Value → Exec Value}

mutual

theorem evalExpr_checked (hd : d.Checked) (hcall : CallsChecked call call') (env : Env)
    (expr : Mir.Expr) :
    SameUnless .differs (evalExpr arith d call env expr) (evalExpr arith .checked call' env expr) := by
  cases expr with
  | call name args ty =>
    simp only [evalExpr]
    split
    · exact hd.readLength
    · exact (evalArgs_checked hd hcall env args).bind fun _ => hcall _ _
  | binaryAdd op lhs rhs ty | binaryCompare op lhs rhs ty =>
    simp only [evalExpr]
    refine (evalExpr_checked hd hcall env lhs).bind fun _ => ?_
    exact (evalExpr_checked hd hcall env rhs).bind fun _ => .refl _ _
  | binaryLogic op lhs rhs ty =>
    simp only [evalExpr]
    exact hd.logic _ _ _ _ _ (evalExpr_checked hd hcall env lhs) (evalExpr_checked hd hcall env rhs)
  | literal value =>
    cases value <;> simp only [evalExpr] <;> exact .refl _ _
  | _ =>
    simp only [evalExpr]
    exact .refl _ _

theorem evalArgs_checked (hd : d.Checked) (hcall : CallsChecked call call') (env : Env) : ∀ args,
    SameUnless .differs (evalArgs arith d call env args) (evalArgs arith .checked call' env args)
  | [] => .refl _ _
  | arg :: args => by
    simp only [evalArgs]
    refine (evalExpr_checked hd hcall env arg).bind fun _ => ?_
    exact (evalArgs_checked hd hcall env args).bind fun _ => .refl _ _

end

mutual

theorem evalBlock_checked (hd : d.Checked) (hcall : CallsChecked call call') : ∀ stmts budget env,
    SameUnless .differs (evalBlock arith d call budget stmts env)
      (evalBlock arith .checked call' budget stmts env)
  | [], _, _ => .refl _ _
  | stmt :: rest, budget, env => by
    simp only [evalBlock]
    refine (evalStmt_checked hd hcall stmt budget env).bind fun flow => ?_
    cases flow with
    | returned value => exact .refl _ _
    | next env => exact evalBlock_checked hd hcall rest budget env

theorem evalStmt_checked (hd : d.Checked) (hcall : CallsChecked call call')
    (stmt : Mir.Stmt) (budget : Nat) (env : Env) :
    SameUnless .differs (evalStmt arith d call budget stmt env)
      (evalStmt arith .checked call' budget stmt env) := by
  cases stmt with
  | letStmt _ _ expr | returnStmt expr =>
    simp only [evalStmt]
    exact (evalExpr_checked hd hcall env expr).bind fun _ => .refl _ _
  | assign target expr =>
    cases target <;> simp only [evalStmt]
    case varRef => exact (evalExpr_checked hd hcall env expr).bind fun _ => .refl _ _
    all_goals exact .refl _ _
  | ifStmt cond thenBlock elseBlock =>
    cases elseBlock with
    | none =>
      simp only [evalStmt]
      refine (evalExpr_checked hd hcall env cond).bind fun condition => ?_
      refine (enterArm_checked (fun budget => evalBlock_checked hd hcall thenBlock budget env)
        fun _ => .refl _ _).bind fun _ => .refl _ _
    | some elseBlock =>
      simp only [evalStmt]
      refine (evalExpr_checked hd hcall env cond).bind fun condition => ?_
      exact (enterArm_checked (fun budget => evalBlock_checked hd hcall thenBlock budget env) fun budget =>
        evalBlock_checked hd hcall elseBlock budget env).bind fun _ => .refl _ _
  | _ =>
    simp only [evalStmt]
    exact .refl _ _

end

end

variable {source : Mir.Program} {arith : Arithmetic}

theorem evalFunction_checked {d : Discipline} (hd : d.Checked) (fuel : Nat) : ∀ function values,
    SameUnless .differs (evalFunction arith d source fuel function values)
      (evalFunction arith .checked source fuel function values) := by
  induction fuel with
  | zero => exact fun _ _ => .refl _ _
  | succ fuel ih =>
    intro function values
    simp only [evalFunction]
    split
    · refine (evalBlock_checked hd (fun name args => ?_) _ _ _).bind fun _ => .refl _ _
      refine (SameUnless.refl _ _).bind fun _ => ?_
      cases source.functions.find? (·.name == name) with
      | some callee => exact ih callee args
      | none => exact .refl _ _
    · exact .refl _ _

/-! ### Behaviours -/

theorem SameBehaviour.refl (run : Run) : SameBehaviour run run :=
  ⟨fun _ _ => Iff.rfl, fun _ => Iff.rfl⟩

variable {program : Program}

/-- The source function a lowered function came from, and their runs. -/
theorem loweredRun_eq
    (hwt : WellTyped source) (h : lowerScalarProgram source = some program) {target : Function}
    (htarget : target ∈ program.functions) :
    ∃ function ∈ userFunctions source, function.name = target.name ∧
      ∀ values stdin, Fits values function.params →
        loweredRun arith program target (values.map (·.encode)) stdin =
          sourceRun arith .eager source function values stdin := by
  obtain ⟨main, entry, lowered, hmain, hentry, hlowered, hprogram⟩ := lowerScalarProgram_eq_some h
  obtain ⟨_, _, _, _, _, hname, _⟩ := lowerFunction_eq_some hentry
  have hfrom : ∃ function ∈ userFunctions source,
      lowerFunction (knownFunctions source main) function = some target := by
    rw [hprogram] at htarget
    rcases mem_cons.1 htarget with rfl | hmem
    · exact ⟨main, mem_of_find?_eq_some hmain, hentry⟩
    · obtain ⟨function, hfunction, htarget⟩ := exists_source hlowered target hmem
      exact ⟨function, (mem_filter.1 hfunction).1, htarget⟩
  obtain ⟨function, huser, hlower⟩ := hfrom
  obtain ⟨_, _, _, _, _, hname', _, _, _, returnType, hreturn⟩ := lowerFunction_eq_some hlower
  refine ⟨function, huser, hname'.symm, fun values stdin hfits => ?_⟩
  funext fuel
  have hlock : Lockstep (fun a (value : Value) => a = value.encode)
      (runFunction arith program fuel target (values.map (·.encode)))
      (evalFunction arith .eager source fuel function values) :=
    (runFunction_lockstep hwt hname hlowered hprogram fuel function target returnType huser hlower
      hreturn values hfits).mono fun _ _ h => h.1
  simp only [loweredRun, sourceRun, hlock.exec_map]

/-- On this input every operand that the source leaves out has a value and no effect, and every read
finds a text that fits into one buffer. -/
def Harmless (arith : Arithmetic) (source : Mir.Program) (function : Mir.Function)
    (values : List Value) (stdin : Bytes) : Prop :=
  ∀ fuel, (exec (evalFunction arith .checked source fuel function values) ⟨stdin, []⟩).1 ≠
    .error .differs

theorem Harmless.sourceRun_eq {function : Mir.Function} {values : List Value} {stdin : Bytes}
    (h : Harmless arith source function values stdin) :
    sourceRun arith .eager source function values stdin =
      sourceRun arith .source source function values stdin := by
  funext fuel
  have heager := (evalFunction_checked checked_eager fuel function values).exec_eq (h fuel)
  have hsource := (evalFunction_checked checked_source fuel function values).exec_eq (h fuel)
  simp only [sourceRun, ← heager, ← hsource]

/-- The first function of the lowered program is that of the `main` of the entry module. -/
def EntryIsMain (source : Mir.Program) (program : Program) : Prop :=
  ∃ function ∈ source.functions, function.path = source.path ∧ function.sourceName = "main" ∧
    program.functions.head?.map (·.name) = some function.name

/-- The entry is the first `main` among the user functions. -/
theorem entryIsMain_iff (hwt : WellTyped source) (h : lowerScalarProgram source = some program) :
    EntryIsMain source program ↔
      ∃ main, (userFunctions source).find? isMain = some main ∧ main.path = source.path := by
  obtain ⟨main, entry, lowered, hmain, hentry, _, hprogram⟩ := lowerScalarProgram_eq_some h
  obtain ⟨_, _, _, _, _, hname, _⟩ := lowerFunction_eq_some hentry
  have hmem := mem_functions_of_mem_user (mem_of_find?_eq_some hmain)
  rw [EntryIsMain, hprogram, head?_cons, Option.map_some, hname]
  constructor
  · intro ⟨function, hfunction, hpath, _, heq⟩
    have hsame : main = function :=
      inj_on_of_nodup_map hwt.1 hmem hfunction (Option.some.inj heq)
    exact ⟨main, hmain, hsame ▸ hpath⟩
  · intro ⟨main', hmain', hpath⟩
    obtain rfl : main = main' := Option.some.inj (hmain.symm.trans hmain')
    have hsource : main.sourceName = "main" := by
      have := find?_some hmain
      simp only [isMain, and_eq_true, beq_iff_eq] at this
      exact this.1.1
    exact ⟨main, hmem, hpath, hsource, rfl⟩

/-- **Executable MIR refines its source where the difference in reading is harmless.**  On every input
on which the operands left out have a value and no effect, and the reads find texts that fit into one
buffer, a lowered function behaves as its source function.  The entry is the `main` of the entry
module exactly if that `main` is the first of the program. -/
theorem lowered_behaves (arith : Arithmetic) {source : Mir.Program} {program : Program}
    (hwt : WellTyped source) (h : lowerScalarProgram source = some program) :
    (∀ target ∈ program.functions, ∃ function ∈ source.functions, function.name = target.name ∧
      ∀ values stdin, Fits values function.params → Harmless arith source function values stdin →
        SameBehaviour (loweredRun arith program target (values.map (·.encode)) stdin)
          (sourceRun arith .source source function values stdin)) ∧
    (EntryIsMain source program ↔
      ∃ main, (userFunctions source).find? isMain = some main ∧ main.path = source.path) := by
  refine ⟨fun target htarget => ?_, entryIsMain_iff hwt h⟩
  obtain ⟨function, huser, hname, hrun⟩ := loweredRun_eq hwt h htarget
  refine ⟨function, mem_functions_of_mem_user huser, hname, fun values stdin hfits hharmless => ?_⟩
  rw [hrun values stdin hfits, hharmless.sourceRun_eq]
  exact .refl _

/-! ### Three programs that are lowered to something else -/

/-- A `main` of a module. -/
def mainOf (name path : String) (body : Mir.Block) : Mir.Function :=
  ⟨name, "main", path, [], .int, body, false, false, false, none, none, 1, 1⟩

/-- A program of these functions, with `main.ax` as its entry module. -/
def programOf (functions : List Mir.Function) : Mir.Program :=
  ⟨"main.ax", [], [], [], functions, []⟩

/-- `return value`. -/
def returning (expr : Mir.Expr) : Mir.Stmt := .returnStmt expr ⟨1, 1⟩

/-- `if false && 1 / 0 == 0 { return 1 } else { return 0 }`. -/
def guardedDivision : Mir.Block :=
  [.ifStmt (.binaryLogic .and (.literal (.bool false))
      (.binaryCompare .eq (.binaryAdd .div (.literal (.int 1)) (.literal (.int 0)) .int)
        (.literal (.int 0)) .bool) .bool)
    [returning (.literal (.int 1))] (some [returning (.literal (.int 0))]) ⟨1, 1⟩]

/-- `return len(io_read_to_string())`. -/
def stdinLength : Mir.Block :=
  [returning (.call "len" [.call "io_read_to_string" [] .string] .int)]

/-- One `main` in the entry module. -/
def single (body : Mir.Block) : Mir.Program := programOf [mainOf "main" "main.ax" body]

/-- A `main` in a module before the entry module, and the entry module's own. -/
def twoMains : Mir.Program :=
  programOf [mainOf "util_main" "util.ax" [returning (.literal (.int 7))],
    mainOf "main" "main.ax" [returning (.literal (.int 0))]]

/-- A lowered `main`. -/
def loweredMain (name : String) (blocks : List BasicBlock) : Function :=
  ⟨name, [], .int, 0, blocks, ⟨1, 1⟩⟩

def loweredOf (functions : List Function) : Program :=
  ⟨"axiom.executable_mir.v0", "main", functions⟩

/-- Both operands of `&&` stand in block 0, the division among them. -/
def guardedDivisionBlocks : List BasicBlock :=
  [⟨0, [.const 1 0 .bool ⟨1, 1⟩, .const 4 1 .int ⟨1, 1⟩, .const 5 0 .int ⟨1, 1⟩,
      .binary 3 .div 4 5 ⟨1, 1⟩, .const 6 0 .int ⟨1, 1⟩, .compare 2 .eq 3 6 ⟨1, 1⟩,
      .logic 0 .and 1 2 ⟨1, 1⟩], .branch 0 1 2 ⟨1, 1⟩, ⟨1, 1⟩⟩,
    ⟨1, [.const 7 1 .int ⟨1, 1⟩], .ret 7 ⟨1, 1⟩, ⟨1, 1⟩⟩,
    ⟨2, [.const 8 0 .int ⟨1, 1⟩], .ret 8 ⟨1, 1⟩, ⟨1, 1⟩⟩]

/-- One read of one buffer. -/
def stdinLengthBlocks : List BasicBlock :=
  [⟨0, [.readStdin 0 4096 ["stdin.read"] ⟨1, 1⟩], .ret 0 ⟨1, 1⟩, ⟨1, 1⟩⟩]

/-- A run that can only end in one way does not behave as one that ends in another. -/
theorem not_sameBehaviour {run run' : Run} {a b : Except Trap Int} {events events' : List Event}
    (h : run.Ends a events) (hstart : run' 0 = (.error .outOfFuel, []))
    (hstep : ∀ fuel, run' (fuel + 1) = (b.mapError Stop.trap, events')) (hne : a ≠ b) :
    ¬SameBehaviour run run' := by
  intro hsame
  obtain ⟨fuel, hfuel⟩ := (hsame.1 a events).1 h
  cases fuel with
  | zero =>
    rw [hstart] at hfuel
    cases a <;> simp [Except.mapError] at hfuel
  | succ fuel =>
    cases a <;> cases b <;> simp_all [Except.mapError]

/-- The right operand of a decided `&&` is evaluated, and traps. -/
theorem guardedDivision_differs : ¬SameBehaviour
      (loweredRun wrappingArithmetic (loweredOf [loweredMain "main" guardedDivisionBlocks])
        (loweredMain "main" guardedDivisionBlocks) [] [])
      (sourceRun wrappingArithmetic .source (single guardedDivision)
        (mainOf "main" "main.ax" guardedDivision) [] []) := by
  have htrap : (loweredRun wrappingArithmetic (loweredOf [loweredMain "main" guardedDivisionBlocks])
      (loweredMain "main" guardedDivisionBlocks) [] []).Ends (.error .divisionByZero) [] := ⟨1, rfl⟩
  have hvalue : ∀ fuel, sourceRun wrappingArithmetic .source (single guardedDivision)
      (mainOf "main" "main.ax" guardedDivision) [] [] (fuel + 1) =
        (Except.mapError Stop.trap (.ok 0), []) := fun fuel => rfl
  exact not_sameBehaviour htrap rfl hvalue (by simp)

/-- Of an input longer than the buffer only the first part is counted. -/
theorem stdinLength_differs {stdin : Bytes} (htext : (decodeUtf8 stdin).isSome)
    (hlong : stdinBufferBytes < stdin.length) : ¬SameBehaviour
      (loweredRun wrappingArithmetic (loweredOf [loweredMain "main" stdinLengthBlocks])
        (loweredMain "main" stdinLengthBlocks) [] stdin)
      (sourceRun wrappingArithmetic .source (single stdinLength)
        (mainOf "main" "main.ax" stdinLength) [] stdin) := by
  have hsource : ∀ fuel, sourceRun wrappingArithmetic .source (single stdinLength)
      (mainOf "main" "main.ax" stdinLength) [] stdin (fuel + 1) = (Except.mapError Stop.trap
            (.ok (if (decodeUtf8 stdin).isSome then (stdin.length : Int) else 0)),
          [Event.read (if (decodeUtf8 stdin).isSome then (stdin.length : Int) else 0)]) :=
    fun fuel => rfl
  have hlowered : (loweredRun wrappingArithmetic (loweredOf [loweredMain "main" stdinLengthBlocks])
      (loweredMain "main" stdinLengthBlocks) [] stdin).Ends
        (.ok (min stdinBufferBytes stdin.length : Nat))
        [.read (min stdinBufferBytes stdin.length : Nat)] := ⟨1, rfl⟩
  refine not_sameBehaviour hlowered rfl hsource ?_
  rw [if_pos htext]
  intro heq
  have hmin : ((min stdinBufferBytes stdin.length : Nat) : Int) = stdin.length :=
    Except.ok.inj heq
  omega

theorem lowering_differs : (∃ program target function, WellTyped (single guardedDivision) ∧
      lowerScalarProgram (single guardedDivision) = some program ∧ target ∈ program.functions ∧
      function ∈ (single guardedDivision).functions ∧ function.name = target.name ∧
      ¬SameBehaviour (loweredRun wrappingArithmetic program target [] [])
        (sourceRun wrappingArithmetic .source (single guardedDivision) function [] [])) ∧
    (∃ program target function stdin, WellTyped (single stdinLength) ∧
      lowerScalarProgram (single stdinLength) = some program ∧ target ∈ program.functions ∧
      function ∈ (single stdinLength).functions ∧ function.name = target.name ∧
      ¬SameBehaviour (loweredRun wrappingArithmetic program target [] stdin)
        (sourceRun wrappingArithmetic .source (single stdinLength) function [] stdin)) ∧
    ∃ program, WellTyped twoMains ∧ lowerScalarProgram twoMains = some program ∧
      ¬EntryIsMain twoMains program := by
  refine ⟨?_, ?_, ?_⟩
  · exact ⟨loweredOf [loweredMain "main" guardedDivisionBlocks],
      loweredMain "main" guardedDivisionBlocks, mainOf "main" "main.ax" guardedDivision,
      by decide +kernel, by decide +kernel, mem_cons_self .., mem_cons_self .., rfl,
      guardedDivision_differs⟩
  · have htext : decodeUtf8 (encodeUtf8 (replicate 5000 'a')) = some (replicate 5000 'a') :=
      decodeUtf8_eq_some_iff.2 rfl
    have hlong : 5000 ≤ (encodeUtf8 (replicate 5000 'a')).length := by
      have hle := encodeUtf8_length_le (replicate 5000 'a')
      rwa [length_replicate] at hle
    exact ⟨loweredOf [loweredMain "main" stdinLengthBlocks],
      loweredMain "main" stdinLengthBlocks, mainOf "main" "main.ax" stdinLength,
      encodeUtf8 (replicate 5000 'a'), by decide +kernel, by decide +kernel,
      mem_cons_self .., mem_cons_self .., rfl,
      stdinLength_differs (by rw [htext]; rfl) (by simp only [stdinBufferBytes]; omega)⟩
  · have hwt : WellTyped twoMains := by decide +kernel
    have hlowered : lowerScalarProgram twoMains = some (loweredOf
        [loweredMain "util_main" [⟨0, [.const 0 7 .int ⟨1, 1⟩], .ret 0 ⟨1, 1⟩, ⟨1, 1⟩⟩],
          loweredMain "main" [⟨0, [.const 0 0 .int ⟨1, 1⟩], .ret 0 ⟨1, 1⟩, ⟨1, 1⟩⟩]]) := by
      decide +kernel
    refine ⟨_, hwt, hlowered, ?_⟩
    rw [entryIsMain_iff hwt hlowered]
    intro ⟨main, hmain, hpath⟩
    have hfirst : (userFunctions twoMains).find? isMain =
        some (mainOf "util_main" "util.ax" [returning (.literal (.int 7))]) := rfl
    obtain rfl := Option.some.inj (hfirst.symm.trans hmain)
    exact absurd hpath (by decide)

/-- `if false && 1 < 2 { return 1 } else { return len(io_read_to_string()) }`. -/
def guardedRead : Mir.Block :=
  [.ifStmt (.binaryLogic .and (.literal (.bool false))
      (.binaryCompare .lt (.literal (.int 1)) (.literal (.int 2)) .bool) .bool)
    [returning (.literal (.int 1))] (some stdinLength) ⟨1, 1⟩]

def guardedReadBlocks : List BasicBlock :=
  [⟨0, [.const 1 0 .bool ⟨1, 1⟩, .const 3 1 .int ⟨1, 1⟩, .const 4 2 .int ⟨1, 1⟩,
      .compare 2 .lt 3 4 ⟨1, 1⟩, .logic 0 .and 1 2 ⟨1, 1⟩], .branch 0 1 2 ⟨1, 1⟩, ⟨1, 1⟩⟩,
    ⟨1, [.const 5 1 .int ⟨1, 1⟩], .ret 5 ⟨1, 1⟩, ⟨1, 1⟩⟩,
    ⟨2, [.readStdin 6 4096 ["stdin.read"] ⟨1, 1⟩], .ret 6 ⟨1, 1⟩, ⟨1, 1⟩⟩]

/-- The operand left out compares two constants, and the input fits into the buffer. -/
theorem guardedRead_behaves :
    lowerScalarProgram (single guardedRead) = some (loweredOf [loweredMain "main" guardedReadBlocks]) ∧
    SameBehaviour
      (loweredRun wrappingArithmetic (loweredOf [loweredMain "main" guardedReadBlocks])
        (loweredMain "main" guardedReadBlocks) [] [97, 98, 99])
      (sourceRun wrappingArithmetic .source (single guardedRead) (mainOf "main" "main.ax" guardedRead) []
        [97, 98, 99]) ∧
    EntryIsMain (single guardedRead) (loweredOf [loweredMain "main" guardedReadBlocks]) := by
  have hwt : WellTyped (single guardedRead) := by decide +kernel
  have hlowered : lowerScalarProgram (single guardedRead) =
      some (loweredOf [loweredMain "main" guardedReadBlocks]) := by decide +kernel
  obtain ⟨hbehaves, hentry⟩ := lowered_behaves wrappingArithmetic hwt hlowered
  obtain ⟨function, hfunction, -, hsame⟩ := hbehaves _ (mem_cons_self ..)
  obtain rfl : function = mainOf "main" "main.ax" guardedRead := mem_singleton.1 hfunction
  have hharmless : Harmless wrappingArithmetic (single guardedRead)
      (mainOf "main" "main.ax" guardedRead) [] [97, 98, 99] := by
    intro fuel
    cases fuel with
    | zero => exact nofun
    | succ fuel => exact nofun
  exact ⟨hlowered, hsame [] _ .nil hharmless, hentry.2 ⟨_, rfl, rfl⟩⟩

end Axiomc.ExecutableMir
