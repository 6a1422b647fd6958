import Mathlib.Data.List.Forall2

/-!
# Early returns

Code that checks its input returns at the first check that fails.  Written in `Except ε`, such
code is a chain of binds; this file says when a chain succeeds.

* `reject c e`: stop with `e` when `c` holds;
* `require o e`: the value of an option, or the error `e`;
* `bind_eq_ok`: a chain succeeds exactly when its first step succeeds and the rest succeeds on the
  value of that step;
* `mapM_eq_ok_iff`: a loop that maps a list succeeds exactly when all its steps do;
* `scanFresh`: a loop that also remembers a key of each element and refuses one it has seen.

The `simp` set turns "this function returns `.ok`" into the conjunction of its checks, in the order
in which the code makes them.
-/

namespace Axiomc.Foundation

variable {ε α β : Type}

/-- Stop with `e` when `c` holds. -/
def reject (c : Prop) [Decidable c] (e : ε) : Except ε Unit :=
  if c then .error e else .ok ()

/-- The value of an option, or the error `e` (`Option::ok_or_else`). -/
def require (o : Option α) (e : ε) : Except ε α :=
  match o with
  | some a => .ok a
  | none => .error e

variable {b : β} {f : α → Except ε β} {x : Except ε α} {e : ε} {as : List α} {bs : List β}

theorem bind_eq_ok : (x >>= f) = .ok b ↔ ∃ a, x = .ok a ∧ f a = .ok b := by
  cases x with
  | error e | ok a => simp [bind, Except.bind]

theorem map_eq_ok {f : α → β} : f <$> x = .ok b ↔ ∃ a, x = .ok a ∧ f a = b := by
  cases x with
  | error e | ok a => simp [Functor.map, Except.map]

@[simp] theorem pure_eq_ok {a b : α} : (pure a : Except ε α) = .ok b ↔ a = b := by
  show (Except.ok a : Except ε α) = .ok b ↔ a = b
  simp

@[simp] theorem reject_eq_ok {c : Prop} [Decidable c] {u : Unit} :
    reject c e = .ok u ↔ ¬c := by
  by_cases h : c
  · simp [reject]
  · simp [reject]

/-- After a check, the rest runs. -/
@[simp] theorem check_bind_eq_ok {x : Except ε Unit} {f : Unit → Except ε β} :
    (x >>= f) = .ok b ↔ x = .ok () ∧ f () = .ok b := by
  rw [bind_eq_ok]
  constructor
  · rintro ⟨u, hcheck, hrest⟩
    exact ⟨hcheck, hrest⟩
  · intro h
    exact ⟨(), h.1, h.2⟩

@[simp] theorem require_eq_ok {o : Option α} {a : α} :
    require o e = .ok a ↔ o = some a := by
  cases o <;> simp [require]

@[simp] theorem require_bind_eq_ok {o : Option α} :
    (require o e >>= f) = .ok b ↔ ∃ a, o = some a ∧ f a = .ok b := by
  simp only [bind_eq_ok, require_eq_ok]

theorem exists_ok (h : x.isOk = true) : ∃ a, x = .ok a := by
  cases x with
  | error e => cases h
  | ok a => exact ⟨a, rfl⟩

/-- A map of fallible steps over a list succeeds exactly when each of them does. -/
theorem mapM_eq_ok_iff : as.mapM f = .ok bs ↔ List.Forall₂ (fun a b => f a = .ok b) as bs := by
  induction as generalizing bs with
  | nil =>
    rw [List.mapM_nil, pure_eq_ok, List.forall₂_nil_left_iff, eq_comm]
  | cons a as ih =>
    rw [List.mapM_cons, bind_eq_ok, List.forall₂_cons_left_iff]
    constructor
    · intro h
      obtain ⟨b, hb, h⟩ := h
      obtain ⟨rest, hrest, h⟩ := bind_eq_ok.1 h
      exact ⟨b, rest, hb, ih.1 hrest, (pure_eq_ok.1 h).symm⟩
    · intro h
      obtain ⟨b, rest, hb, hrest, rfl⟩ := h
      exact ⟨b, hb, bind_eq_ok.2 ⟨rest, ih.2 hrest, rfl⟩⟩

/-- A map of partial steps that succeeds, element by element. -/
theorem forall₂_of_mapM {f : α → Option β} (h : as.mapM f = some bs) :
    List.Forall₂ (fun a b => f a = some b) as bs := by
  induction as generalizing bs with
  | nil =>
    obtain rfl : [] = bs := by simpa using h
    exact .nil
  | cons a as ih =>
    simp only [List.mapM_cons, Option.bind_eq_bind, Option.bind_eq_some_iff, Option.pure_def,
      Option.some.injEq] at h
    obtain ⟨b, hb, rest, hrest, rfl⟩ := h
    exact .cons hb (ih hrest)

/-- A map that succeeds on a list succeeds on each of its elements. -/
theorem isSome_of_mapM_eq_some {f : α → Option β}
    (h : as.mapM f = some bs) : ∀ a ∈ as, (f a).isSome := by
  have hall := forall₂_of_mapM h
  clear h
  induction hall with
  | nil => simp
  | cons hb _ ih => simpa [hb] using ih

theorem forM_eq_ok_iff {f : α → Except ε Unit} : as.forM f = .ok () ↔ ∀ a ∈ as, f a = .ok () := by
  induction as with
  | nil => simp
  | cons a as ih =>
    have hrest : forM as f = .ok () ↔ ∀ b ∈ as, f b = .ok () := ih
    simp [hrest]

/-! ### Scans for duplicates -/

variable {κ : Type}

/-- Run `step` on each element with the keys of those before it. -/
def scanFresh (step : List κ → α → Except ε Unit) (key : α → Option κ) :
    List κ → List α → Except ε Unit
  | _, [] => .ok ()
  | seen, a :: rest => do
    step seen a
    scanFresh step key ((key a).toList ++ seen) rest

/-- A scan whose step refuses seen keys succeeds exactly when the elements pass and no key occurs
twice. -/
theorem scanFresh_eq_ok_iff {step : List κ → α → Except ε Unit} {key : α → Option κ} {P : α → Prop}
    (hstep : ∀ seen a, step seen a = .ok () ↔ P a ∧ ∀ k, key a = some k → k ∉ seen) :
    ∀ (as : List α) (seen : List κ), scanFresh step key seen as = .ok () ↔
      (∀ a ∈ as, P a) ∧ (as.filterMap key).Nodup ∧ ∀ k ∈ as.filterMap key, k ∉ seen := by
  intro as
  induction as with
  | nil =>
    intro seen
    simp [scanFresh]
  | cons a as ih =>
    intro seen
    rw [scanFresh, check_bind_eq_ok, hstep, ih]
    cases hkey : key a with
    | none => simp [hkey, and_assoc]
    | some k =>
      grind

end Axiomc.Foundation
