import Axiomc.Foundation.Fallible

/-!
# Computations that run in lockstep

Two computations over the same state run in lockstep when, started in the same state, they end in
the same state, stop with the same error or not at all, and give related values when they do not
stop.  A translation is shown faithful by putting the translated code in lockstep with the code it
came from; the rules here follow the constructors of a `do` block.

* `Lockstep R m m'`: the relation, for values related by `R`;
* `Lockstep.pure`, `Lockstep.throw`, `Lockstep.bind`, `Lockstep.mono`: the rules, with
  `Lockstep.bind_left` and `Lockstep.bind_right` where only one side goes on;
* `Lockstep.refl`: a computation is in lockstep with itself;
* `Lockstep.exec_map`: related by a function, the two runs differ by that function only;
* `SameUnless e m m'`: `m'` does what `m` does, unless it stops with `e`.  Such an `m'` is a check that
  the place of `m` could be taken by something else.
-/

namespace Axiomc.Foundation

variable {ε S α β γ δ : Type}

/-- From every state both end in the same state, with the same error or with related values. -/
def Lockstep (R : α → β → Prop) (m : Fallible ε S α) (m' : Fallible ε S β) : Prop :=
  ∀ s, (∃ a b t, exec m s = (.ok a, t) ∧ exec m' s = (.ok b, t) ∧ R a b) ∨
    ∃ e t, exec m s = (.error e, t) ∧ exec m' s = (.error e, t)

namespace Lockstep

variable {R : α → β → Prop} {Q : γ → δ → Prop} {m : Fallible ε S α} {m' : Fallible ε S β}

theorem pure {a : α} {b : β} (h : R a b) : Lockstep R (Pure.pure a : Fallible ε S α) (Pure.pure b) :=
  fun s => .inl ⟨a, b, s, rfl, rfl, h⟩

theorem throw (e : ε) : Lockstep R (MonadExcept.throw e : Fallible ε S α) (MonadExcept.throw e) :=
  fun s => .inr ⟨e, s, rfl, rfl⟩

theorem refl (m : Fallible ε S α) : Lockstep Eq m m := by
  intro s
  cases h : exec m s with
  | mk r t =>
    cases r with
    | ok a => exact .inl ⟨a, a, t, rfl, rfl, rfl⟩
    | error e => exact .inr ⟨e, t, rfl, rfl⟩

theorem mono {R' : α → β → Prop} (h : Lockstep R m m') (hR : ∀ a b, R a b → R' a b) :
    Lockstep R' m m' := by
  intro s
  obtain ⟨a, b, t, ha, hb, hab⟩ | herr := h s
  · exact .inl ⟨a, b, t, ha, hb, hR a b hab⟩
  · exact .inr herr

variable {f : α → Fallible ε S γ} {f' : β → Fallible ε S δ}

/-- **Sequencing.** -/
theorem bind (h : Lockstep R m m')
    (hf : ∀ a b, R a b → Lockstep Q (f a) (f' b)) : Lockstep Q (m >>= f) (m' >>= f') := by
  intro s
  obtain ⟨a, b, t, ha, hb, hab⟩ | ⟨e, t, ha, hb⟩ := h s
  · simpa only [exec_bind, ha, hb] using hf a b hab t
  · exact .inr ⟨e, t, by simp only [exec_bind, ha], by simp only [exec_bind, hb]⟩

/-- Only the second computation goes on. -/
theorem bind_right {Q : α → δ → Prop} (h : Lockstep R m m')
    (hf : ∀ a b, R a b → Lockstep Q (Pure.pure a) (f' b)) : Lockstep Q m (m' >>= f') := by
  have hbind : Lockstep Q (m >>= Pure.pure) (m' >>= f') := h.bind hf
  rwa [bind_pure] at hbind

/-- Only the first computation goes on. -/
theorem bind_left {Q : γ → β → Prop} (h : Lockstep R m m')
    (hf : ∀ a b, R a b → Lockstep Q (f a) (Pure.pure b)) : Lockstep Q (m >>= f) m' := by
  have hbind : Lockstep Q (m >>= f) (m' >>= Pure.pure) := h.bind hf
  rwa [bind_pure] at hbind

/-- Related by a function, the two runs differ by that function only. -/
theorem exec_map {f : β → α} (h : Lockstep (fun a b => a = f b) m m') (s : S) :
    exec m s = ((exec m' s).1.map f, (exec m' s).2) := by
  obtain ⟨a, b, t, ha, hb, rfl⟩ | ⟨e, t, ha, hb⟩ := h s
  · rw [ha, hb]
    rfl
  · rw [ha, hb]
    rfl

end Lockstep

/-- The second run is the first one, unless it stops with `e`. -/
def SameUnless (e : ε) (m m' : Fallible ε S α) : Prop :=
  ∀ s, exec m' s = exec m s ∨ (exec m' s).1 = .error e

namespace SameUnless

variable {e : ε} {m m' : Fallible ε S α} {f f' : α → Fallible ε S γ}

theorem refl (e : ε) (m : Fallible ε S α) : SameUnless e m m := fun _ => .inl rfl

/-- **Sequencing.** -/
theorem bind (h : SameUnless e m m') (hf : ∀ a, SameUnless e (f a) (f' a)) :
    SameUnless e (m >>= f) (m' >>= f') := by
  intro s
  rw [exec_bind, exec_bind]
  rcases h s with hsame | hstop
  · rw [hsame]
    cases hexec : exec m s with
    | mk r t =>
      cases r with
      | ok a => exact hf a t
      | error _ => exact .inl rfl
  · cases hexec : exec m' s with
    | mk r t =>
      obtain rfl : r = .error e := by rwa [hexec] at hstop
      exact .inr rfl

theorem exec_eq (h : SameUnless e m m') {s : S} (hs : (exec m' s).1 ≠ .error e) : exec m' s = exec m s :=
  (h s).resolve_right hs

end SameUnless

end Axiomc.Foundation
