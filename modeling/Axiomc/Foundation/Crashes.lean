import Axiomc.Foundation.Fallible

/-!
# Programs that can stop at every step

A program over a disk whose steps may fail, or never return because the process dies in the middle of
them.  How each step is going to end is a list that the program does not see; a step that ends early
may have done part of its work.

* `Crashing ε D α`: such programs, with errors `ε` over disks `D`;
* `diskStep`, `orFail`: a step, with its failure as a value or as an error;
* `guarded`: a destructor, which an error runs and a crash does not;
* `Safe A I P m Q`: from every disk in `P`, and however steps end as far as `A` allows, `m` either
  returns with `Q` or leaves a disk in `I`;
* `Safe.bind`, `Safe.diskStep`, `Safe.orFail`, `Safe.guarded`, `Safe.forEach`: the rules.

With everything allowed, `I` is what holds after a crash at any point; with nothing but success allowed,
it is what holds after an error that the program itself decides on.
-/

namespace Axiomc.Foundation

open Foundation

/-- How a step ends: as it should, or after some of its work with an error or not at all. -/
inductive StepEnd where
  | done
  | failed (progress : Nat) (cause : String)
  | crashed (progress : Nat)
  deriving DecidableEq

/-- Why a program stops early. -/
inductive Halt (ε : Type) where
  | error (e : ε)
  | crash
  deriving DecidableEq

/-- A disk, and how the next steps on it end.  After the last of them all steps succeed. -/
structure Exposed (D : Type) where
  disk : D
  ends : List StepEnd

abbrev Crashing (ε D α : Type) := Fallible (Halt ε) (Exposed D) α

variable {ε D α β : Type}

def nextEnd : Crashing ε D StepEnd := do
  let s ← get
  match s.ends with
  | [] => pure .done
  | e :: ends => do
    modify fun s => { s with ends := ends }
    pure e

/-- A step: `act` is what it does, or why it cannot, and `part` what it leaves when it ends early. -/
def diskStep (act : D → Except String (α × D)) (part : D → Nat → D) :
    Crashing ε D (Except String α) := do
  match ← nextEnd with
  | .done => do
    let s ← get
    match act s.disk with
    | .ok (a, disk) => do
      modify fun s => { s with disk := disk }
      pure (.ok a)
    | .error cause => pure (.error cause)
  | .failed progress cause => do
    modify fun s => { s with disk := part s.disk progress }
    pure (.error cause)
  | .crashed progress => do
    modify fun s => { s with disk := part s.disk progress }
    throw .crash

/-- After a step whose failure is a value: `Q` if it succeeded, `I` if not. -/
def Attempted (I : D → Prop) (Q : α → D → Prop) : Except String α → D → Prop
  | .ok a => Q a
  | .error _ => I

/-- The failure of a step as an error of the program. -/
def orFail (describe : String → ε) (m : Crashing ε D (Except String α)) : Crashing ε D α := do
  match ← m with
  | .ok a => pure a
  | .error cause => throw (.error (describe cause))

/-- A destructor: it runs after an error, whose own result it does not change. -/
def guarded (m : Crashing ε D α) (cleanup : Crashing ε D β) : Crashing ε D α :=
  ExceptT.mk fun s =>
    match exec m s with
    | (.error (.error e), s') =>
      match exec cleanup s' with
      | (.error .crash, s'') => (.error .crash, s'')
      | (_, s'') => (.error (.error e), s'')
    | result => result

/-! ### Safety -/

/-- From a disk in `P`, `m` returns with `Q` or leaves a disk in `I`, if steps end as `A` allows. -/
def Safe (A : StepEnd → Prop) (I P : D → Prop) (m : Crashing ε D α) (Q : α → D → Prop) : Prop :=
  ∀ d ends, (∀ e ∈ ends, A e) → P d →
    wp m (fun a s => Q a s.disk ∧ ∀ e ∈ s.ends, A e) (fun _ s => I s.disk ∧ ∀ e ∈ s.ends, A e)
      ⟨d, ends⟩

namespace Safe

variable {A : StepEnd → Prop} {I P P' : D → Prop} {Q Q' : α → D → Prop} {R : β → D → Prop}

theorem pure (a : α) (h : ∀ d, P d → Q a d) : Safe (ε := ε) A I P (Pure.pure a) Q :=
  fun d _ hends hP => ⟨h d hP, hends⟩

theorem throw (e : Halt ε) (h : ∀ d, P d → I d) : Safe A I P (MonadExcept.throw e) Q :=
  fun d _ hends hP => ⟨h d hP, hends⟩

variable {m : Crashing ε D α}

theorem bind {f : α → Crashing ε D β} (hm : Safe A I P m Q)
    (hf : ∀ a, Safe A I (Q a) (f a) R) : Safe A I P (m >>= f) R := by
  intro d ends hends hP
  rw [wp_bind]
  refine wp_mono (hm d ends hends hP) ?_ (fun _ _ _ h => h)
  intro a s _ hs
  exact hf a s.disk s.ends hs.2 hs.1

theorem mono (hm : Safe A I P m Q) (hP : ∀ d, P' d → P d)
    (hQ : ∀ a d, Q a d → Q' a d) : Safe A I P' m Q' := by
  intro d ends hends h
  exact wp_mono (hm d ends hends (hP d h)) (fun a s _ hs => ⟨hQ a s.disk hs.1, hs.2⟩)
    (fun _ _ _ hs => hs)

/-- A fact about the disk before a program may be used to show that it is safe. -/
theorem assuming (h : ∀ d, P d → Safe A I (· = d) m Q) : Safe A I P m Q :=
  fun d ends hends hP => h d hP d ends hends rfl

/-- What a run leaves, whether it returns or not. -/
theorem disk {d : D} {ends : List StepEnd} (hm : Safe A I P m Q)
    (hQ : ∀ a d, Q a d → I d) (hends : ∀ e ∈ ends, A e) (hP : P d) : I (exec m ⟨d, ends⟩).2.disk := by
  have hrun := hm d ends hends hP
  unfold wp at hrun
  generalize exec m ⟨d, ends⟩ = result at hrun
  obtain ⟨r, s⟩ := result
  cases r with
  | ok a => exact hQ a s.disk hrun.1
  | error halt => exact hrun.1

theorem nextEnd : Safe (ε := ε) A I P nextEnd fun e d => (e = .done ∨ A e) ∧ P d := by
  intro d ends hends hP
  cases ends with
  | nil => exact ⟨⟨.inl rfl, hP⟩, hends⟩
  | cons e ends =>
    exact ⟨⟨.inr (hends e List.mem_cons_self), hP⟩, fun e he => hends e (List.mem_cons_of_mem _ he)⟩

/-- **Steps.**  What a step leaves when it succeeds, when it fails and when it never returns. -/
theorem diskStep {act : D → Except String (α × D)} {part : D → Nat → D} {Q : Except String α → D → Prop}
    (hok : ∀ d a d', P d → act d = .ok (a, d') → Q (.ok a) d')
    (herror : ∀ d cause, P d → act d = .error cause → Q (.error cause) d)
    (hfailed : ∀ d n cause, A (.failed n cause) → P d → Q (.error cause) (part d n))
    (hcrashed : ∀ d n, A (.crashed n) → P d → I (part d n)) :
    Safe (ε := ε) A I P (diskStep act part) Q := by
  refine nextEnd.bind fun e => ?_
  cases e with
  | done =>
    intro d ends hends h
    rw [wp_bind, wp_get]
    cases hact : act d with
    | ok result => exact ⟨hok d result.1 result.2 h.2 hact, hends⟩
    | error cause => exact ⟨herror d cause h.2 hact, hends⟩
  | failed n cause =>
    intro d ends hends h
    exact ⟨hfailed d n cause (h.1.resolve_left (by simp)) h.2, hends⟩
  | crashed n =>
    intro d ends hends h
    exact ⟨hcrashed d n (h.1.resolve_left (by simp)) h.2, hends⟩

theorem orFail {describe : String → ε} {m : Crashing ε D (Except String α)}
    {Q : Except String α → D → Prop} (hm : Safe A I P m Q) (hI : ∀ cause d, Q (.error cause) d → I d) :
    Safe A I P (orFail describe m) fun a => Q (.ok a) := by
  refine hm.bind fun result => ?_
  cases result with
  | ok a => exact Safe.pure a fun d h => h
  | error cause => exact Safe.throw _ fun d h => hI cause d h

/-- **Destructors.**  The cleanup keeps what holds after an error. -/
theorem guarded {cleanup : Crashing ε D β} (hm : Safe A I P m Q)
    (hcleanup : Safe A I I cleanup fun _ => I) : Safe A I P (guarded m cleanup) Q := by
  intro d ends hends hP
  have hbody := hm d ends hends hP
  unfold wp at hbody ⊢
  have hexec : exec (Foundation.guarded m cleanup) ⟨d, ends⟩ =
      match exec m ⟨d, ends⟩ with
      | (.error (.error e), s') =>
        match exec cleanup s' with
        | (.error .crash, s'') => (.error .crash, s'')
        | (_, s'') => (.error (.error e), s'')
      | result => result := rfl
  rw [hexec]
  generalize exec m ⟨d, ends⟩ = result at hbody
  obtain ⟨r, s⟩ := result
  cases r with
  | ok a => exact hbody
  | error halt =>
    cases halt with
    | crash => exact hbody
    | error e =>
      have hclean := hcleanup s.disk s.ends hbody.2 hbody.1
      unfold wp at hclean
      dsimp only
      generalize exec cleanup s = result at hclean
      obtain ⟨r, t⟩ := result
      cases r with
      | ok b => exact hclean
      | error halt => cases halt <;> exact hclean

/-- **Loops.**  An invariant indexed by the elements already visited. -/
theorem forEach {f : β → Crashing ε D Unit} (J : List β → D → Prop)
    (hstep : ∀ done x, Safe A I (J done) (f x) fun _ => J (done ++ [x])) :
    ∀ xs done, Safe A I (J done) (forEach f xs) fun _ => J (done ++ xs) := by
  intro xs
  induction xs with
  | nil =>
    intro done
    rw [List.append_nil]
    exact Safe.pure () fun d h => h
  | cons x xs ih =>
    intro done
    have hrest := ih (done ++ [x])
    rw [List.append_assoc] at hrest
    exact (hstep done x).bind fun _ => hrest

end Safe

end Axiomc.Foundation
