import Axiomc.Foundation.Fallible
import Axiomc.Hir.Model
import Mathlib.Data.Nat.Log

/-!
# Chains of logical operators

`build_logical_chain` of `syntax.rs` makes a balanced tree of the operands of a chain of `&&` or of `||`,
where the grammar would make a left-associated one.  The tree is as deep as the logarithm of the number
of operands (`depth_buildLogicalChain`), and no evaluation can tell the two apart
(`buildLogicalChain_balanced`): both run the operands from left to right until one decides
(`inOrder`), whatever else running an operand does.

Evaluation is in an arbitrary monad, so that an operand can fail, write a log or change a state.
-/

namespace Axiomc.Syntax

open Foundation List Nat
open Hir (LogicOp)

variable {α : Type}

/-- The part of `syntax::Expr` that a chain is made of.  Every other expression is an operand. -/
inductive Expr (α : Type) where
  | operand (e : α)
  | binaryLogic (op : LogicOp) (lhs rhs : Expr α) (line column : Nat)

/-- `build_logical_chain`. -/
def buildLogicalChain (op : LogicOp) (operands : List (Expr α)) (h : operands ≠ [])
    (line column : Nat) : Expr α :=
  if hone : operands.length = 1 then operands.head h
  else
    have hlength := length_pos_of_ne_nil h
    let mid := operands.length / 2
    .binaryLogic op
      (buildLogicalChain op (operands.take mid)
        (ne_nil_of_length_pos (by rw [length_take]; omega)) line column)
      (buildLogicalChain op (operands.drop mid)
        (ne_nil_of_length_pos (by rw [length_drop]; omega)) line column)
      line column
termination_by operands.length
decreasing_by
  · rw [length_take]
    omega
  · rw [length_drop]
    omega

/-- The left-associated chain. -/
def leftChain (op : LogicOp) (operands : List (Expr α)) (h : operands ≠ []) (line column : Nat) :
    Expr α :=
  operands.tail.foldl (fun chain e => .binaryLogic op chain e line column) (operands.head h)

/-! ### Depth -/

/-- The number of logical operators on the way to the deepest operand. -/
def Expr.depth : Expr α → Nat
  | .operand _ => 0
  | .binaryLogic _ lhs rhs _ _ => max lhs.depth rhs.depth + 1

theorem depth_buildLogicalChain (op : LogicOp) (line column bound : Nat) :
    ∀ (operands : List (Expr α)) (h : operands ≠ []), (∀ e ∈ operands, e.depth ≤ bound) →
      (buildLogicalChain op operands h line column).depth ≤ clog 2 operands.length + bound := by
  -- by induction on the number of operands, as the function halves it
  intro operands
  induction hn : operands.length using Nat.strong_induction_on generalizing operands with
  | _ n ih =>
    intro h hbound
    have hpos := length_pos_of_ne_nil h
    rw [buildLogicalChain]
    split
    · have hhead := hbound _ (head_mem h)
      omega
    · have htake : (operands.take (operands.length / 2)).length = n / 2 := by
        rw [length_take]
        omega
      have hdrop : (operands.drop (operands.length / 2)).length = (n + 1) / 2 := by
        rw [length_drop]
        omega
      have hlhs := ih (n / 2) (by omega) _ htake (ne_nil_of_length_pos (by omega))
        fun e he => hbound e (mem_of_mem_take he)
      have hrhs := ih ((n + 1) / 2) (by omega) _ hdrop (ne_nil_of_length_pos (by omega))
        fun e he => hbound e (mem_of_mem_drop he)
      have hclog : clog 2 n = clog 2 ((n + 1) / 2) + 1 :=
        clog_of_two_le (by omega) (by omega)
      have hmono : clog 2 (n / 2) ≤ clog 2 ((n + 1) / 2) := clog_mono_right 2 (by omega)
      show max _ _ + 1 ≤ _
      omega

/-! ### Evaluation -/

section

variable {m : Type → Type} [Monad m]

/-- A value of an operand that decides the chain. -/
def decides : LogicOp → Bool → Bool
  | .and, value => !value
  | .or, value => value

/-- Evaluation from left to right, which stops at a value that decides. -/
def evalExpr (eval : α → m Bool) : Expr α → m Bool
  | .operand e => eval e
  | .binaryLogic op lhs rhs _ _ => do
    let value ← evalExpr eval lhs
    if decides op value then pure value else evalExpr eval rhs

/-- The operands one after the other until one decides. -/
def inOrder (op : LogicOp) : List (m Bool) → m Bool
  | [] => pure (!decides op true)
  | operand :: rest => do
    let value ← operand
    if decides op value then pure value else inOrder op rest

variable [LawfulMonad m] {op : LogicOp}

theorem decides_neutral : decides op (!decides op true) = false := by
  cases op <;> rfl

theorem inOrder_singleton (operand : m Bool) : inOrder op [operand] = operand := by
  have hvalue : ∀ value : Bool,
      (if decides op value then pure value else pure (!decides op true) : m Bool) = pure value := by
    intro value
    cases op <;> cases value <;> rfl
  simp [inOrder, hvalue]

theorem inOrder_append (xs ys : List (m Bool)) : inOrder op (xs ++ ys) =
      inOrder op xs >>= fun value => if decides op value then pure value else inOrder op ys := by
  induction xs with
  | nil => simp [inOrder, decides_neutral]
  | cons operand xs ih =>
    rw [inOrder, bind_assoc]
    refine bind_congr fun value => ?_
    cases hvalue : decides op value with
    | true => simp [hvalue]
    | false => simp [ih]

variable (eval : α → m Bool)

theorem evalExpr_buildLogicalChain (line column : Nat) :
    ∀ (operands : List (Expr α)) (h : operands ≠ []),
      evalExpr eval (buildLogicalChain op operands h line column) =
        inOrder op (operands.map (evalExpr eval)) := by
  intro operands
  induction hn : operands.length using Nat.strong_induction_on generalizing operands with
  | _ n ih =>
    intro h
    have hpos := length_pos_of_ne_nil h
    rw [buildLogicalChain]
    split
    next hone =>
      obtain ⟨e, rfl⟩ := length_eq_one_iff.mp hone
      exact (inOrder_singleton _).symm
    next hone =>
      have hlhs := ih _ (by rw [length_take]; omega) (operands.take (operands.length / 2)) rfl
        (ne_nil_of_length_pos (by rw [length_take]; omega))
      have hrhs := ih _ (by rw [length_drop]; omega) (operands.drop (operands.length / 2)) rfl
        (ne_nil_of_length_pos (by rw [length_drop]; omega))
      rw [evalExpr, hlhs, hrhs, ← inOrder_append, ← map_append, take_append_drop]

theorem evalExpr_leftChain (operands : List (Expr α)) (h : operands ≠ []) (line column : Nat) :
    evalExpr eval (leftChain op operands h line column) =
      inOrder op (operands.map (evalExpr eval)) := by
  -- the fold takes the operands from the left, so the induction is on those it has taken
  have hfold : ∀ (rest done : List (Expr α)) (chain : Expr α),
      evalExpr eval chain = inOrder op (done.map (evalExpr eval)) →
      evalExpr eval (rest.foldl (fun chain e => .binaryLogic op chain e line column) chain) =
        inOrder op ((done ++ rest).map (evalExpr eval)) := by
    intro rest
    induction rest with
    | nil =>
      intro done chain hchain
      rw [append_nil]
      exact hchain
    | cons e rest ih =>
      intro done chain hchain
      have hnext := ih (done ++ [e]) (.binaryLogic op chain e line column) (by
        rw [evalExpr, hchain, map_append, inOrder_append, map_singleton, inOrder_singleton])
      rwa [append_assoc] at hnext
  obtain ⟨e, rest, rfl⟩ := exists_cons_of_ne_nil h
  exact hfold rest [e] e (inOrder_singleton _).symm

end

/-! ### The operands that are evaluated -/

/-- Evaluation of an operand that also writes the operand down. -/
def logged {ε S : Type} (eval : α → Fallible ε S Bool) (e : α) : Fallible ε (List α × S) Bool :=
  ExceptT.mk fun s => ((exec (eval e) s.2).1, (s.1 ++ [e], (exec (eval e) s.2).2))

theorem inOrder_log {ε S : Type} (op : LogicOp) (eval : α → Fallible ε S Bool) :
    ∀ (es : List α) (log : List α) (s : S), ∃ k ≤ es.length,
      (exec (inOrder op (es.map (logged eval))) (log, s)).2.1 = log ++ es.take k := by
  intro es
  induction es with
  | nil => exact fun log s => ⟨0, le_refl _, (append_nil log).symm⟩
  | cons e es ih =>
    intro log s
    have hfirst : exec (logged eval e) (log, s) =
        ((exec (eval e) s).1, (log ++ [e], (exec (eval e) s).2)) := rfl
    rw [map_cons, inOrder, exec_bind, hfirst]
    cases (exec (eval e) s).1 with
    | error cause => exact ⟨1, by simp, by simp⟩
    | ok value =>
      dsimp only
      cases decides op value with
      | true => exact ⟨1, by simp, by simp [exec_pure]⟩
      | false =>
        obtain ⟨k, hk, hlog⟩ := ih (log ++ [e]) (exec (eval e) s).2
        refine ⟨k + 1, by simpa using hk, ?_⟩
        simpa using hlog

/-- **Balanced chains.**  The tree has logarithmic depth over its operands.  In every monad it is
evaluated as the left-associated chain is, and both run the operands in order until one decides.  Of
operands that fail or change a state, both evaluate the same prefix of the list. -/
theorem buildLogicalChain_balanced (op : LogicOp) (operands : List (Expr α)) (h : operands ≠ [])
    (line column : Nat) : (buildLogicalChain op operands h line column).depth ≤
        clog 2 operands.length + (operands.map Expr.depth).foldr max 0 ∧
      (∀ (m : Type → Type) [Monad m] [LawfulMonad m] (eval : α → m Bool),
        evalExpr eval (buildLogicalChain op operands h line column) =
            evalExpr eval (leftChain op operands h line column) ∧
          evalExpr eval (leftChain op operands h line column) =
            inOrder op (operands.map (evalExpr eval))) ∧
      ∀ (ε S : Type) (eval : α → Fallible ε S Bool) (es log : List α) (s : S),
        operands = es.map .operand → ∃ k ≤ es.length,
          (exec (evalExpr (logged eval) (buildLogicalChain op operands h line column)) (log, s)).2.1 =
              log ++ es.take k ∧
            (exec (evalExpr (logged eval) (leftChain op operands h line column)) (log, s)).2.1 =
              log ++ es.take k := by
  refine ⟨depth_buildLogicalChain op line column _ operands h ?_, ?_, ?_⟩
  · intro e he
    induction operands with
    | nil => cases he
    | cons first rest ih =>
      rcases mem_cons.mp he with rfl | he
      · exact le_max_left _ _
      · exact (ih (ne_nil_of_mem he) he).trans (le_max_right _ _)
  · intro m _ _ eval
    exact ⟨(evalExpr_buildLogicalChain eval line column operands h).trans
      (evalExpr_leftChain eval operands h line column).symm,
      evalExpr_leftChain eval operands h line column⟩
  · intro ε S eval es log s hes
    have hmap : operands.map (evalExpr (logged eval)) = es.map (logged eval) := by
      rw [hes, map_map]
      rfl
    obtain ⟨k, hk, hlog⟩ := inOrder_log op eval es log s
    refine ⟨k, hk, ?_, ?_⟩
    · rw [evalExpr_buildLogicalChain, hmap]
      exact hlog
    · rw [evalExpr_leftChain, hmap]
      exact hlog

/-- Five operands are at most three operators deep. -/
theorem buildLogicalChain_balanced_five : ([0, 1, 2, 3, 4].map Expr.operand : List (Expr Nat)) ≠ [] ∧
      (buildLogicalChain .and ([0, 1, 2, 3, 4].map Expr.operand) (by decide) 1 1).depth ≤ 3 := by
  refine ⟨by simp, ?_⟩
  have hdepth := (buildLogicalChain_balanced .and ([0, 1, 2, 3, 4].map (Expr.operand))
    (by simp) 1 1).1
  have hclog : clog 2 5 = 3 := by decide +kernel
  simpa [Expr.depth, hclog] using hdepth

end Axiomc.Syntax
