import Mathlib.Data.List.Basic

/-!
# Checks that go on after a failure

Code that reports every reason for a refusal does not return at the first failed check: it records a
code and goes on, with a default for what it could not read.  `Collect ε α` is the value such code
computes together with the codes it recorded.

A computation is `Clean` when it recorded nothing.  The `simp` set turns "this code recorded nothing"
into the conjunction of its checks, whatever values it went on with; `Clean.foldlM` is the invariant
rule for its loops.
-/

namespace Axiomc.Foundation

variable {ε α β σ : Type}

/-- A value and the failures recorded on the way, in the order of the checks. -/
structure Collect (ε α : Type) where
  value : α
  failures : List ε

namespace Collect

instance : Monad (Collect ε) where
  pure a := ⟨a, []⟩
  bind m f := ⟨(f m.value).value, m.failures ++ (f m.value).failures⟩

/-- Record `code` when `c` holds. -/
def note (c : Prop) [Decidable c] (code : ε) : Collect ε Unit := ⟨(), if c then [code] else []⟩

/-- Record `code`. -/
def fail (code : ε) : Collect ε Unit := ⟨(), [code]⟩

/-- Checks that only run under a condition. -/
def guarded (c : Bool) (checks : Collect ε Unit) : Collect ε Unit :=
  if c then checks else pure ()

/-- Nothing was recorded. -/
def Clean (m : Collect ε α) : Prop := m.failures = []

instance (m : Collect ε α) : Decidable m.Clean :=
  match h : m.failures with
  | [] => isTrue h
  | _ :: _ => isFalse fun hclean => by
      rw [Clean, h] at hclean
      cases hclean

@[simp] theorem value_pure (a : α) : (pure a : Collect ε α).value = a := rfl

@[simp] theorem value_bind (m : Collect ε α) (f : α → Collect ε β) :
    (m >>= f).value = (f m.value).value := rfl

@[simp] theorem clean_pure (a : α) : (pure a : Collect ε α).Clean := rfl

@[simp] theorem clean_bind (m : Collect ε α) (f : α → Collect ε β) :
    (m >>= f).Clean ↔ m.Clean ∧ (f m.value).Clean :=
  List.append_eq_nil_iff

@[simp] theorem clean_note {c : Prop} [Decidable c] {code : ε} : (note c code).Clean ↔ ¬c := by
  by_cases h : c
  · simp [note, Clean]
  · simp [note, Clean]

theorem clean_guarded {c : Bool} {checks : Collect ε Unit} :
    (guarded c checks).Clean ↔ (c = true → checks.Clean) := by
  cases c with
  | false => simp [guarded]
  | true => simp [guarded]

@[simp] theorem not_clean_fail (code : ε) : ¬(fail code).Clean := by
  intro h
  cases h

/-- The rule for a loop with an accumulator: a fact kept by every step that records nothing holds at
the end of a loop that records nothing. -/
theorem Clean.foldlM (step : σ → α → Collect ε σ) {I : List α → σ → Prop}
    (hstep : ∀ done a s, I done s → (step s a).Clean → I (done ++ [a]) (step s a).value) :
    ∀ (todo done : List α) (s : σ), I done s → (todo.foldlM step s).Clean →
      I (done ++ todo) (todo.foldlM step s).value := by
  intro todo
  induction todo with
  | nil =>
    intro done s h _
    simpa using h
  | cons a todo ih =>
    intro done s h hclean
    rw [List.foldlM_cons, clean_bind] at hclean
    rw [List.foldlM_cons, List.append_cons]
    exact ih (done ++ [a]) _ (hstep done a s h hclean.1) hclean.2

/-- A loop of checks records nothing exactly when none of them does. -/
theorem clean_forM {check : α → Collect ε PUnit} {as : List α} :
    (as.forM check).Clean ↔ ∀ a ∈ as, (check a).Clean := by
  induction as with
  | nil =>
    simp
  | cons a as ih =>
    show (check a >>= fun _ => as.forM check).Clean ↔ _
    rw [clean_bind, ih]
    simp

/-- A loop of checks records what they record, one after the other. -/
theorem failures_forM (check : α → Collect ε PUnit) (as : List α) :
    (as.forM check).failures = as.flatMap fun a => (check a).failures := by
  induction as with
  | nil => rfl
  | cons a as ih =>
    rw [List.flatMap_cons, ← ih]
    rfl

end Collect

end Axiomc.Foundation
