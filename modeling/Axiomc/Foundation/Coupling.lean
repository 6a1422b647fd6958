import Axiomc.Foundation.Fallible

/-!
# Two runs side by side

A relational predicate transformer for `Fallible` computations.  `Coupled m m' Q E s s'` runs `m`
from `s` and `m'` from `s'`: both return values and states related by `Q`, or both stop with errors
and states related by `E`.  The computations, their states and their errors may differ, so it states
that a change of the input shows nowhere but where `Q` and `E` allow it.
`Coupled.bind` and `Coupled.get_bind` are sequencing, with the states available after a `get`.
-/

namespace Axiomc.Foundation

variable {ε ε' S S' α β γ δ : Type}

/-- Both runs return related values, or both stop. -/
def Coupled (m : Fallible ε S α) (m' : Fallible ε' S' β) (Q : α → β → S → S' → Prop)
    (E : ε → ε' → S → S' → Prop) (s : S) (s' : S') : Prop :=
  match exec m s, exec m' s' with
  | (.ok a, t), (.ok b, t') => Q a b t t'
  | (.error e, t), (.error e', t') => E e e' t t'
  | _, _ => False

variable {Q : α → β → S → S' → Prop} {E : ε → ε' → S → S' → Prop} {s : S} {s' : S'}
  {Q' : γ → δ → S → S' → Prop}

/-- **Sequencing.** -/
theorem Coupled.bind {m : Fallible ε S α} {m' : Fallible ε' S' β} {f : α → Fallible ε S γ}
    {f' : β → Fallible ε' S' δ} (h : Coupled m m' Q E s s')
    (hf : ∀ a b t t', Q a b t t' → Coupled (f a) (f' b) Q' E t t') :
    Coupled (m >>= f) (m' >>= f') Q' E s s' := by
  unfold Coupled at h ⊢
  simp only [exec_bind]
  cases hm : exec m s with
  | mk r t =>
    cases hm' : exec m' s' with
    | mk r' t' =>
      rw [hm, hm'] at h
      cases r with
      | ok a =>
        cases r' with
        | ok b => exact hf a b t t' h
        | error e' => exact h.elim
      | error e =>
        cases r' with
        | ok b => exact h.elim
        | error e' => exact h

theorem Coupled.get_bind {f : S → Fallible ε S γ} {f' : S' → Fallible ε' S' δ}
    (h : Coupled (f s) (f' s') Q' E s s') :
    Coupled (get >>= f) (get >>= f') Q' E s s' := h

end Axiomc.Foundation
