import Mathlib.Algebra.BigOperators.Group.List.Basic
import Mathlib.Algebra.Order.Ring.Nat

/-!
# Computations that count the passes of their loops

`Counted α` computes an `α` and counts; `none` stands for a fault, or for a loop that has not ended.
The count is made where a loop turns (`tick`, `loop`), so a bound on it is a bound on the work done.

* `Costs m a n`: `m` gives `a` after `n` passes, whatever was counted before;
* `costs_pure`, `costs_tick`, `costs_lift`, `Costs.bind`, `costs_loop`: one rule for each construct.
-/

namespace Axiomc.Foundation

variable {α β σ : Type}

abbrev Counted (α : Type) := StateT Nat Option α

/-- One pass. -/
def tick : Counted Unit := modify (· + 1)

/-- A loop with an accumulator. -/
def loop (f : σ → α → Counted σ) : σ → List α → Counted σ
  | s, [] => pure s
  | s, x :: xs => do
    tick
    let s ← f s x
    loop f s xs

/-- The computation gives `a` after `n` passes. -/
def Costs (m : Counted α) (a : α) (n : Nat) : Prop := ∀ k, m.run k = some (a, k + n)

theorem costs_pure (a : α) : Costs (pure a) a 0 := fun _ => rfl

theorem costs_tick : Costs tick () 1 := fun _ => rfl

theorem costs_lift {o : Option α} {a : α} (h : o = some a) : Costs (StateT.lift o) a 0 := by
  subst h
  exact costs_pure a

/-- **Sequencing.** -/
theorem Costs.bind {m : Counted α} {f : α → Counted β} {a : α} {b : β} {n k : Nat} (hm : Costs m a n)
    (hf : Costs (f a) b k) : Costs (m >>= f) b (n + k) := by
  intro start
  rw [StateT.run_bind, hm start, ← Nat.add_assoc]
  exact hf (start + n)

/-- **Loops.**  One pass for each element, and what the body costs there. -/
theorem costs_loop {f : σ → α → Counted σ} {g : σ → α → σ} {cost : α → Nat}
    (h : ∀ s x, Costs (f s x) (g s x) (cost x)) (xs : List α) :
    ∀ s, Costs (loop f s xs) (xs.foldl g s) ((xs.map fun x => 1 + cost x).sum) := by
  induction xs with
  | nil => exact costs_pure
  | cons x xs ih =>
    intro s
    rw [List.map_cons, List.sum_cons, Nat.add_assoc]
    exact costs_tick.bind ((h s x).bind (ih _))

/-- A loop whose body has no loop. -/
theorem costs_loop_pure (g : σ → α → σ) (xs : List α) (s : σ) :
    Costs (loop (fun s x => pure (g s x)) s xs) (xs.foldl g s) xs.length := by
  have hloop := costs_loop (fun s x => costs_pure (g s x)) xs s
  simpa using hloop

end Axiomc.Foundation
