import Axiomc.Hir.ConstInts

/-!
# Integer constants: faithfulness

The evaluator of integer constants against their meaning.  The finished constants are right in every
state where none of them has been begun again, because a constant that has a value only used constants
that have one, and these are finished too.

* `Means.unique`: the outcome of a task on its own does not depend on the fuel;
* `Remembered`: the finished constants are right;
* `evaluate_spec`: what a run of the evaluator gives, and what it leaves finished;
* `evaluate_ends`: the evaluator ends where the task on its own ends;
* `Total`: what resolution needs in order to end.
-/

namespace Axiomc.Consts

open Foundation Source Plan Option List
open Hir (ArithmeticOp)

/-! ### Fuel -/

variable {program : Program}
  {f : Task → Option Outcome} {o a b : Outcome} {p : Plan} {S : List String} {fuel : Nat}
  {task : Task} {v : Int64} {values : Values} {op : ArithmeticOp} {decl : ConstDecl}

theorem Plan.run_mono {g : Task → Option Outcome} (h : ∀ t o, f t = some o → g t = some o)
    (hrun : p.run f = some o) : p.run g = some o := by
  induction p with
  | done outcome => exact hrun
  | ask task next ih =>
    obtain ⟨a, ha, hnext⟩ := bind_eq_some_iff.1 hrun
    exact bind_eq_some_iff.2 ⟨a, h task a ha, ih a hnext⟩

theorem Task.plain_or_const (task : Task) : task.isConst = false ∨ ∃ name, task = .const name := by
  cases task with
  | const name => exact .inr ⟨name, rfl⟩
  | _ => exact .inl rfl

theorem reference_succ (h : task.isConst = false) :
    reference program (fuel + 1) S task = (plan program task).run (reference program fuel S) := by
  cases task with
  | const name => cases h
  | _ => rfl

theorem evaluate_succ (h : task.isConst = false) :
    evaluate program (fuel + 1) S task = (plan program task).run (evaluate program fuel S) := by
  cases task with
  | const name => cases h
  | _ => rfl

variable {name : String} {before : Values}

theorem evaluate_finished (h : before.lookup name = some v) :
    evaluate program (fuel + 1) S (.const name) before = some (.value v, before) := by
  simp only [evaluate, h]

theorem evaluate_const (h : before.lookup name = none) :
    evaluate program (fuel + 1) S (.const name) before =
      match constOf program name with
      | none => some (.noInt, before)
      | some decl =>
        if name ∈ S then some (.error (recursiveMessage name), before)
        else (evaluate program fuel (name :: S) (.expr [] decl.expr) before).map
          fun r => (r.1, remember name r.1 r.2) := by
  rw [evaluate]
  dsimp only
  split
  next v hv =>
    rw [h] at hv
    cases hv
  next => rfl

theorem reference_mono_succ (fuel : Nat) : ∀ (S : List String) (task : Task) (o : Outcome),
    reference program fuel S task = some o → reference program (fuel + 1) S task = some o := by
  induction fuel with
  | zero =>
    intro S task o h
    cases h
  | succ fuel ih =>
    intro S task o h
    rcases task.plain_or_const with htask | ⟨name, rfl⟩
    · rw [reference_succ htask] at h ⊢
      exact run_mono (ih S) h
    · rw [reference] at h ⊢
      cases hdecl : constOf program name with
      | none =>
        rw [hdecl] at h
        exact h
      | some decl =>
        rw [hdecl] at h
        by_cases hS : name ∈ S
        · simp only [if_pos hS] at h ⊢
          exact h
        · simp only [if_neg hS] at h ⊢
          exact ih _ _ _ h

theorem reference_mono {more : Nat} (hle : fuel ≤ more) (h : reference program fuel S task = some o) :
    reference program more S task = some o := by
  induction hle with
  | refl => exact h
  | step _ ih => exact reference_mono_succ _ _ _ _ ih

theorem Means.unique {o' : Outcome}
    (h : Means program S task o) (h' : Means program S task o') : o = o' := by
  obtain ⟨m, hm⟩ := h
  obtain ⟨k, hk⟩ := h'
  have hm' := reference_mono (Nat.le_max_left m k) hm
  rw [reference_mono (Nat.le_max_right m k) hk] at hm'
  exact (some.inj hm').symm

/-- The outcome of a plan. -/
def PlanMeans (program : Program) (S : List String) (p : Plan) (o : Outcome) : Prop :=
  ∃ fuel, p.run (reference program fuel S) = some o

theorem PlanMeans.ask {next : Outcome → Plan}
    (h : Means program S task a) (hnext : PlanMeans program S (next a) o) :
    PlanMeans program S (.ask task next) o := by
  obtain ⟨m, hm⟩ := h
  obtain ⟨k, hk⟩ := hnext
  refine ⟨max m k, bind_eq_some_iff.2 ⟨a, reference_mono (Nat.le_max_left m k) hm, ?_⟩⟩
  exact run_mono (fun t o h => reference_mono (Nat.le_max_right m k) h) hk

theorem PlanMeans.means (htask : task.isConst = false) (h : PlanMeans program S (plan program task) o) :
    Means program S task o := by
  obtain ⟨m, hm⟩ := h
  exact ⟨m + 1, by rw [reference_succ htask]; exact hm⟩

/-! ### Finished constants -/

/-- None of the constants that have been begun is finished. -/
def Apart (S : List String) (values : Values) : Prop := ∀ name ∈ S, values.lookup name = none

/-- The finished constants have the values they have on their own. -/
def Remembered (program : Program) (values : Values) : Prop :=
  ∀ name v, values.lookup name = some v → ∀ S, Apart S values →
    Means program S (.const name) (.value v)

/-- More constants are finished. -/
def Grows (before after : Values) : Prop :=
  ∀ name, after.lookup name = none → before.lookup name = none

variable {after : Values}

theorem Apart.of_grows (h : Apart S after) (hgrows : Grows before after) : Apart S before :=
  fun name hname => hgrows name (h name hname)

theorem Apart.cons (h : Apart S values)
    (hname : values.lookup name = none) : Apart (name :: S) values := by
  intro other hother
  rcases mem_cons.1 hother with rfl | hother
  · exact hname
  · exact h other hother

/-- Plans that give no value. -/
def Plan.Barren : Plan → Prop
  | .done o => ∀ v, o ≠ .value v
  | .ask _ next => ∀ a, (next a).Barren

/-- Plans that give a value only if all their subtasks do. -/
def Plan.Strict : Plan → Prop
  | .done _ => True
  | .ask _ next => (∀ v, (next (.value v)).Strict) ∧ ∀ a, (∀ v, a ≠ .value v) → (next a).Barren

theorem Plan.Barren.strict (h : p.Barren) : p.Strict := by
  induction p with
  | done outcome => trivial
  | ask task next ih => exact ⟨fun v => ih (.value v) (h (.value v)), fun a _ => h a⟩

theorem Plan.hand_strict (task : Task) : (hand task).Strict :=
  ⟨fun _ => trivial, fun _ ha => ha⟩

theorem Plan.value_strict {next : Int64 → Plan} (h : ∀ v, (next v).Strict) :
    (value task next).Strict := by
  refine ⟨h, ?_⟩
  intro a ha
  cases a with
  | value v => exact absurd rfl (ha v)
  | noInt => exact ha
  | error message => exact ha
  | panic => exact ha

theorem combine_barren (h : ∀ v, a ≠ .value v) : combine op a b = .noInt := by
  cases a with
  | value v => exact absurd rfl (h v)
  | _ => rfl

theorem combine_barren_right (h : ∀ v, b ≠ .value v) : combine op a b = .noInt := by
  cases b with
  | value v => exact absurd rfl (h v)
  | _ => cases a <;> rfl

theorem plan_strict (task : Task) : (plan program task).Strict := by
  cases task with
  | const name => exact hand_strict _
  | expr locals e =>
    show (evalConstIntExprResolved program locals e).Strict
    unfold evalConstIntExprResolved
    split
    · trivial
    · split
      · trivial
      · exact hand_strict _
    · -- The operator has a value only if both operands have one.
      refine ⟨fun v => ⟨fun _ => trivial, ?_⟩, ?_⟩
      · intro b hb
        show Plan.Barren (if b.stops then .done b else .done (combine _ (.value v) b))
        split
        · exact hb
        · rw [combine_barren_right hb]
          intro _ h
          cases h
      · intro a ha
        show Plan.Barren (if a.stops then .done a else _)
        split
        · exact ha
        · intro b
          show Plan.Barren (if b.stops then .done b else .done (combine _ a b))
          split
          · intro v hv
            subst hv
            contradiction
          · rw [combine_barren ha]
            intro _ h
            cases h
    · split
      · exact hand_strict _
      · trivial
    · trivial
  | args locals args bound body =>
    show (evalArgs locals args bound body).Strict
    unfold evalArgs
    split
    · exact hand_strict _
    · exact value_strict fun _ => hand_strict _
  | block locals body =>
    show (evalConstIntBlock locals body).Strict
    unfold evalConstIntBlock
    split
    · exact value_strict fun _ => hand_strict _
    · exact hand_strict _
    · trivial

/-! ### What the evaluator gives -/

/-- What holds after a run from `before` to `after`, with `M S o` for "the outcome is `o` when `S` have
been begun". -/
structure Ran (program : Program) (S : List String) (before after : Values) (o : Outcome)
    (M : List String → Outcome → Prop) : Prop where
  remembered : Remembered program after
  apart : Apart S after
  grows : Grows before after
  means : M S o
  /-- A value does not depend on what has been begun, as long as nothing finished is begun again. -/
  value : ∀ v, o = .value v → ∀ S', Apart S' after → M S' o

theorem barren_of_planMeans (h : p.Barren)
    (hm : PlanMeans program S p o) (v : Int64) : o ≠ .value v := by
  obtain ⟨fuel, hrun⟩ := hm
  induction p with
  | done outcome =>
    cases hrun
    exact h v
  | ask task next ih =>
    obtain ⟨a, -, hnext⟩ := bind_eq_some_iff.1 hrun
    exact ih a (h a) hnext

/-- The answers of `f` to tasks are right. -/
def Answers (program : Program) (S : List String) (f : Task → StateT Values Option Outcome) : Prop :=
  ∀ task before o after, Remembered program before → Apart S before →
    f task before = some (o, after) → Ran program S before after o fun S o => Means program S task o

/-- A run of a plan, from the runs of its subtasks. -/
theorem Plan.run_spec {f : Task → StateT Values Option Outcome} (hf : Answers program S f)
    (hp : p.Strict) (hbefore : Remembered program before) (hapart : Apart S before)
    (h : p.run f before = some (o, after)) :
    Ran program S before after o fun S o => PlanMeans program S p o := by
  induction p generalizing before with
  | done outcome =>
    cases h
    exact ⟨hbefore, hapart, fun _ h => h, ⟨0, rfl⟩, fun _ _ _ _ => ⟨0, rfl⟩⟩
  | ask task next ih =>
    obtain ⟨⟨a, middle⟩, ha, hnext⟩ := bind_eq_some_iff.1 h
    have hran := hf task before a middle hbefore hapart ha
    have hstrict : (next a).Strict := by
      by_cases hvalue : ∃ w, a = .value w
      · obtain ⟨w, rfl⟩ := hvalue
        exact hp.1 w
      · exact (hp.2 a (not_exists.1 hvalue)).strict
    have hrest := ih a hstrict hran.remembered hran.apart hnext
    refine ⟨hrest.remembered, hrest.apart, fun name hname => hran.grows name (hrest.grows name hname),
      .ask hran.means hrest.means, ?_⟩
    intro v hv S' hS'
    by_cases hvalue : ∃ w, a = .value w
    · obtain ⟨w, rfl⟩ := hvalue
      exact .ask (hran.value w rfl S' (hS'.of_grows hrest.grows)) (hrest.value v hv S' hS')
    · exact absurd hv (barren_of_planMeans (hp.2 a (not_exists.1 hvalue)) hrest.means v)

theorem Means.const (hdecl : constOf program name = some decl) (hS : name ∉ S)
    (h : Means program (name :: S) (.expr [] decl.expr) o) : Means program S (.const name) o := by
  obtain ⟨fuel, hfuel⟩ := h
  refine ⟨fuel + 1, ?_⟩
  rw [reference, hdecl]
  simp only [if_neg hS]
  exact hfuel

theorem lookup_remember {other : String} :
    (remember name o values).lookup other = none → values.lookup other = none := by
  cases o with
  | value v =>
    intro h
    rw [remember, lookup_cons] at h
    split at h
    · cases h
    · exact h
  | _ => exact id

/-- A constant that has just been evaluated is finished with its value. -/
theorem Ran.const {middle : Values} (hdecl : constOf program name = some decl) (hS : name ∉ S)
    (h : Ran program (name :: S) before middle o fun S o =>
      Means program S (.expr [] decl.expr) o) :
    Ran program S before (remember name o middle) o fun S o => Means program S (.const name) o := by
  have hgrows : Grows middle (remember name o middle) := fun _ => lookup_remember
  have hmiddle : middle.lookup name = none := h.apart name mem_cons_self
  have hapart : Apart S middle := fun other hother => h.apart other (mem_cons_of_mem _ hother)
  have hmeans : Means program S (.const name) o := .const hdecl hS h.means
  by_cases hvalue : ∃ v, o = .value v
  · obtain ⟨v, rfl⟩ := hvalue
    -- The value is right wherever the constant itself has not been begun.
    have hself : ∀ S', Apart S' ((name, v) :: middle) → Means program S' (.const name) (.value v) := by
      intro S' hS'
      have hnew : name ∉ S' := by
        intro hmem
        have hnone := hS' name hmem
        simp at hnone
      exact .const hdecl hnew (h.value v rfl (name :: S') ((hS'.of_grows hgrows).cons hmiddle))
    refine ⟨?_, ?_, fun other hother => h.grows other (hgrows other hother), hmeans, ?_⟩
    · intro other w hother S' hS'
      have hlookup : ((name, v) :: middle).lookup other = some w := hother
      rw [lookup_cons] at hlookup
      split at hlookup
      · rename_i heq
        cases hlookup
        rw [eq_of_beq heq]
        exact hself S' hS'
      · exact h.remembered other w hlookup S' (hS'.of_grows hgrows)
    · intro other hother
      have hne : (other == name) = false := by
        rw [beq_eq_false_iff_ne]
        rintro rfl
        exact hS hother
      show ((name, v) :: middle).lookup other = none
      rw [lookup_cons, hne]
      exact hapart other hother
    · intro w hw S' hS'
      cases hw
      exact hself S' hS'
  · have hkeep : remember name o middle = middle := by
      cases o with
      | value v => exact absurd ⟨v, rfl⟩ hvalue
      | _ => rfl
    rw [hkeep]
    exact ⟨h.remembered, hapart, h.grows, hmeans, fun v hv => absurd ⟨v, hv⟩ hvalue⟩

/-- What a run of the evaluator gives, and what it leaves finished. -/
theorem evaluate_spec (fuel : Nat) :
    ∀ S : List String, Answers program S (evaluate program fuel S) := by
  induction fuel with
  | zero =>
    intro S task before o after _ _ h
    cases h
  | succ fuel ih =>
    intro S task before o after hbefore hapart h
    rcases task.plain_or_const with htask | ⟨name, rfl⟩
    · rw [evaluate_succ htask] at h
      have hran := run_spec (ih S) (plan_strict task) hbefore hapart h
      exact ⟨hran.remembered, hran.apart, hran.grows, hran.means.means htask,
        fun v hv S' hS' => (hran.value v hv S' hS').means htask⟩
    · cases hlookup : before.lookup name with
      | some v =>
        rw [evaluate_finished hlookup] at h
        cases h
        exact ⟨hbefore, hapart, fun _ h => h, hbefore name v hlookup S hapart,
          fun _ _ S' hS' => hbefore name v hlookup S' hS'⟩
      | none =>
        rw [evaluate_const hlookup] at h
        cases hdecl : constOf program name with
        | none =>
          rw [hdecl] at h
          cases h
          refine ⟨hbefore, hapart, fun _ h => h, ⟨1, ?_⟩, fun v hv => by cases hv⟩
          rw [reference, hdecl]
        | some decl =>
          by_cases hS : name ∈ S
          · simp only [hdecl, if_pos hS] at h
            cases h
            refine ⟨hbefore, hapart, fun _ h => h, ⟨1, ?_⟩, fun v hv => by cases hv⟩
            rw [reference, hdecl]
            simp only [if_pos hS]
          · simp only [hdecl, if_neg hS] at h
            obtain ⟨⟨inner, middle⟩, hinner, heq⟩ := map_eq_some_iff.1 h
            cases heq
            exact Ran.const hdecl hS (ih _ _ _ _ _ hbefore (hapart.cons hlookup) hinner)

/-! ### When the evaluator ends -/

theorem Plan.run_ends {f : Task → StateT Values Option Outcome} (hf : Answers program S f)
    (hends : ∀ task before o, Remembered program before → Apart S before →
      reference program fuel S task = some o → ∃ r, f task before = some r)
    (hbefore : Remembered program before) (hapart : Apart S before)
    (h : p.run (reference program fuel S) = some o) :
    ∃ r, p.run f before = some r := by
  induction p generalizing before with
  | done outcome => exact ⟨_, rfl⟩
  | ask task next ih =>
    obtain ⟨a, ha, hnext⟩ := bind_eq_some_iff.1 h
    obtain ⟨⟨a', middle⟩, ha'⟩ := hends task before a hbefore hapart ha
    have hran := hf task before a' middle hbefore hapart ha'
    obtain rfl : a = a' := Means.unique ⟨fuel, ha⟩ hran.means
    obtain ⟨r, hr⟩ := ih a hran.remembered hran.apart hnext
    exact ⟨r, bind_eq_some_iff.2 ⟨_, ha', hr⟩⟩

/-- The evaluator ends where the task on its own ends. -/
theorem evaluate_ends (fuel : Nat) : ∀ (S : List String) (task : Task) (before : Values)
    (o : Outcome), Remembered program before → Apart S before →
    reference program fuel S task = some o → ∃ r, evaluate program fuel S task before = some r := by
  induction fuel with
  | zero =>
    intro S task before o _ _ h
    cases h
  | succ fuel ih =>
    intro S task before o hbefore hapart h
    rcases task.plain_or_const with htask | ⟨name, rfl⟩
    · rw [reference_succ htask] at h
      rw [evaluate_succ htask]
      exact run_ends (evaluate_spec fuel S) (ih S) hbefore hapart h
    · cases hlookup : before.lookup name with
      | some v => exact ⟨_, evaluate_finished hlookup⟩
      | none =>
        rw [evaluate_const hlookup]
        rw [reference] at h
        cases hdecl : constOf program name with
        | none => exact ⟨_, rfl⟩
        | some decl =>
          by_cases hS : name ∈ S
          · simp only [if_pos hS]
            exact ⟨_, rfl⟩
          · simp only [hdecl, if_neg hS] at h ⊢
            obtain ⟨r, hr⟩ := ih _ _ _ _ hbefore (hapart.cons hlookup) h
            rw [hr]
            exact ⟨_, rfl⟩

/-! ### Values -/

theorem combine_eq_value (h : combine op a b = .value v) :
    ∃ lhs rhs, a = .value lhs ∧ b = .value rhs ∧ checkedArith op lhs rhs = some v := by
  unfold combine at h
  split at h
  · rename_i lhs rhs
    rw [arith_eq_checkedArith] at h
    split at h
    · rename_i w hw
      cases h
      exact ⟨lhs, rhs, rfl, rfl, hw⟩
    · cases h
  · cases h

/-- A plan that hands over to a task. -/
theorem Plan.run_hand (h : (hand task).run f = some o) : f task = some o := by
  obtain ⟨a, ha, hdone⟩ := bind_eq_some_iff.1 h
  cases hdone
  exact ha

theorem Plan.run_value {next : Int64 → Plan} (h : (value task next).run f = some (.value v)) :
    ∃ w, f task = some (.value w) ∧ (next w).run f = some (.value v) := by
  obtain ⟨a, ha, hnext⟩ := bind_eq_some_iff.1 h
  cases a with
  | value w => exact ⟨w, ha, hnext⟩
  | noInt => cases hnext
  | error message => cases hnext
  | panic => cases hnext

/-- A task that has a value on its own evaluates to it. -/
theorem evaluates_of_reference (fuel : Nat) : ∀ (S : List String) (task : Task) (v : Int64),
    reference program fuel S task = some (.value v) → Evaluates program task v := by
  induction fuel with
  | zero =>
    intro S task v h
    cases h
  | succ fuel ih =>
    intro S task v h
    cases task with
    | const name =>
      rw [reference] at h
      cases hdecl : constOf program name with
      | none =>
        rw [hdecl] at h
        cases h
      | some decl =>
        rw [hdecl] at h
        by_cases hS : name ∈ S
        · simp only [if_pos hS] at h
          cases h
        · simp only [if_neg hS] at h
          exact .const hdecl (ih _ _ _ h)
    | expr locals e =>
      have h : (evalConstIntExprResolved program locals e).run (reference program fuel S) =
        some (.value v) := h
      unfold evalConstIntExprResolved at h
      split at h
      · cases h
        exact .literal
      · split at h
        · rename_i hlookup
          cases h
          exact .bound hlookup
        · rename_i hlookup
          exact .free hlookup (ih _ _ _ (run_hand h))
      · obtain ⟨a, ha, h⟩ := bind_eq_some_iff.1 h
        dsimp only at h
        split at h
        · cases h
          contradiction
        · obtain ⟨b, hb, h⟩ := bind_eq_some_iff.1 h
          dsimp only at h
          split at h
          · cases h
            contradiction
          · obtain ⟨lhs, rhs, rfl, rfl, hv⟩ := combine_eq_value (some.inj h)
            exact .arith (ih _ _ _ ha) (ih _ _ _ hb) hv
      · split at h
        · rename_i hfunction
          exact .call hfunction (ih _ _ _ (run_hand h))
        · cases h
      · cases h
    | args locals args bound body =>
      have h : (evalArgs locals args bound body).run (reference program fuel S) = some (.value v) := h
      unfold evalArgs at h
      split at h
      · exact .argsNil (ih _ _ _ (run_hand h))
      · obtain ⟨w, hw, h⟩ := run_value h
        exact .argsCons (ih _ _ _ hw) (ih _ _ _ (run_hand h))
    | block locals body =>
      have h : (evalConstIntBlock locals body).run (reference program fuel S) = some (.value v) := h
      unfold evalConstIntBlock at h
      split at h
      · obtain ⟨w, hw, h⟩ := run_value h
        exact .letStmt (ih _ _ _ hw) (ih _ _ _ (run_hand h))
      · exact .returnStmt (ih _ _ _ (run_hand h))
      · cases h

theorem Means.evaluates (h : Means program S task (.value v)) : Evaluates program task v := by
  obtain ⟨fuel, hfuel⟩ := h
  exact evaluates_of_reference fuel S task v hfuel

/-! ### Expressions without names -/

theorem means_literal (S : List String) (locals : Locals) (value : Int) :
    Means program S (.expr locals (.literal (.int value))) (.value (Int64.ofInt value)) :=
  ⟨1, rfl⟩

variable {lhs rhs : Expr} {locals : Locals} {consts : List ConstDecl} {order : List String}

/-- An operator whose left operand stops. -/
theorem means_arith_left (ha : Means program S (.expr locals lhs) a) (hstops : a.stops = true) :
    Means program S (.expr locals (.binaryAdd op lhs rhs)) a := by
  refine PlanMeans.means rfl (.ask ha ?_)
  rw [if_pos hstops]
  exact ⟨0, rfl⟩

/-- The outcome of an operator whose left operand has a value. -/
theorem means_arith {a : Int64} (ha : Means program S (.expr locals lhs) (.value a))
    (hb : Means program S (.expr locals rhs) b) : Means program S (.expr locals (.binaryAdd op lhs rhs))
      (if b.stops then b else combine op (.value a) b) := by
  refine PlanMeans.means rfl (.ask ha (.ask hb ?_))
  split
  · exact ⟨0, rfl⟩
  · exact ⟨0, rfl⟩

theorem stops_of_ne (hvalue : ∀ v, o ≠ .value v) (hnoInt : o ≠ .noInt) : o.stops = true := by
  cases o with
  | value v => exact absurd rfl (hvalue v)
  | noInt => exact absurd rfl hnoInt
  | error message => rfl
  | panic => rfl

/-- The evaluator of array lengths gives values and panics only where the other one does. -/
theorem evalConstIntExpr_means (S : List String) (locals : Locals) (e : Expr)
    (h : evalConstIntExpr e ≠ .noInt) : Means program S (.expr locals e) (evalConstIntExpr e) := by
  fun_induction evalConstIntExpr e with
  | case1 value => exact means_literal S locals value
  | case2 op lhs rhs a ha b hb ihl ihr =>
    have hl := ihl (by rw [ha]; simp)
    have hr := ihr (by rw [hb]; simp)
    rw [ha] at hl
    rw [hb] at hr
    exact means_arith hl hr
  | case3 op lhs rhs a ha hb ihl ihr =>
    have hl := ihl (by rw [ha]; simp)
    rw [ha] at hl
    have hstops := stops_of_ne (fun v hv => hb v hv) h
    have hr := @means_arith _ _ _ op _ _ _ _ hl (ihr h)
    rw [if_pos hstops] at hr
    exact hr
  | case4 op lhs rhs ha ihl =>
    exact means_arith_left (ihl h) (stops_of_ne (fun v hv => ha v hv) h)
  | case5 e => exact absurd rfl h

/-! ### Resolution -/

theorem constOf_name (h : constOf program name = some decl) : decl.name = name := by
  have hname := find?_some h
  exact eq_of_beq hname

theorem isSome_constOf : (constOf program name).isSome = true ↔ name ∈ program.consts.map (·.name) := by
  simp [constOf]

theorem means_const (hdecl : constOf program name = some decl)
    (h : ∀ S, Means program S (.expr [] decl.expr) o) : Means program [] (.const name) o :=
  .const hdecl (by simp) (h _)

/-- A resolved constant: its initializer has been replaced by its value, or it has none. -/
inductive Resolved (program : Program) : ConstDecl → Prop
  | value {name : String} {decl : ConstDecl} {v : Int64} : constOf program name = some decl →
      Means program [] (.const name) (.value v) →
      Resolved program { decl with expr := .literal (.int v.toInt) }
  | noInt {name : String} {decl : ConstDecl} : constOf program name = some decl →
      Means program [] (.const name) .noInt → Resolved program decl

theorem resolved_of_resolve (hvalues : Remembered program values)
    (h : resolveConstIntDecls program fuel order values = some (.ok consts)) :
    ∀ decl ∈ consts, Resolved program decl := by
  induction order generalizing values consts with
  | nil =>
    cases h
    simp
  | cons name names ih =>
    obtain ⟨⟨o, middle⟩, ho, h⟩ := bind_eq_some_iff.1 h
    have hran := evaluate_spec fuel [] _ _ _ _ hvalues (by simp [Apart]) ho
    have hcons : ∀ decl, Resolved program decl →
        ((resolveConstIntDecls program fuel names middle).bind fun rest =>
          some (rest.map (decl :: ·))) = some (.ok consts) → ∀ decl ∈ consts, Resolved program decl := by
      intro decl hdecl h d hd
      obtain ⟨rest, hrest, h⟩ := bind_eq_some_iff.1 h
      cases rest with
      | error e => cases h
      | ok rest =>
        cases h
        rcases mem_cons.1 hd with rfl | hd
        · exact hdecl
        · exact ih hran.remembered hrest d hd
    dsimp only at h
    split at h
    · rename_i v decl hdecl
      exact hcons _ (.value hdecl hran.means) h
    · rename_i decl hdecl
      split at h
      · cases h
      · exact hcons _ (.noInt hdecl hran.means) h
    · cases h

/-- A literal of a resolved constant is its value. -/
theorem Resolved.evaluates (h : Resolved program decl) {value : Int}
    (hexpr : decl.expr = .literal (.int value)) :
    Evaluates program (.const decl.name) (Int64.ofInt value) := by
  cases h with
  | value hdecl hmeans =>
    cases hexpr
    rw [Int64.ofInt_toInt, constOf_name hdecl]
    exact hmeans.evaluates
  | noInt hdecl hmeans =>
    have hvalue := means_const hdecl fun S => by rw [hexpr]; exact means_literal S [] value
    cases hmeans.unique hvalue

/-- The initializer of a resolved constant gives its value or nothing. -/
theorem Resolved.length (h : Resolved program decl) : evalConstIntExpr decl.expr = .noInt ∨
      ∃ v, evalConstIntExpr decl.expr = .value v ∧ Evaluates program (.const decl.name) v := by
  cases h with
  | value hdecl hmeans =>
    rename_i name decl v
    refine .inr ⟨v, ?_, ?_⟩
    · show Outcome.value (Int64.ofInt v.toInt) = .value v
      rw [Int64.ofInt_toInt]
    · show Evaluates program (.const decl.name) v
      rw [constOf_name hdecl]
      exact hmeans.evaluates
  | noInt hdecl hmeans =>
    left
    by_contra hne
    have hvalue := means_const hdecl fun S => evalConstIntExpr_means S [] decl.expr hne
    exact hne (hvalue.unique hmeans)

theorem resolveConstArrayLen_spec (h : ∀ decl ∈ consts, Resolved program decl) (raw : String) :
    resolveConstArrayLen consts raw ≠ .panic ∧
      ∀ v, resolveConstArrayLen consts raw = .value v → parseI64 raw = none →
        Evaluates program (.const raw) v := by
  unfold resolveConstArrayLen
  split
  · rename_i value hparse
    refine ⟨by simp, ?_⟩
    intro v _ hnone
    cases hparse.symm.trans hnone
  · split
    · refine ⟨by simp, ?_⟩
      intro v hv
      cases hv
    · rename_i decl hfind
      have hname : decl.name = raw := by simpa using find?_some hfind
      rcases (h decl (mem_of_find?_eq_some hfind)).length with hnone | ⟨v, hv, hevaluates⟩
      · simp [hnone]
      · rw [hv]
        refine ⟨by simp, ?_⟩
        intro w hw _
        cases hw
        rw [← hname]
        exact hevaluates

variable {names : List String}

/-- Constants that end on their own end with one amount of fuel. -/
theorem common_fuel
    (h : ∀ name ∈ names, ∃ fuel o, reference program fuel [] (.const name) = some o ∧ o ≠ .panic) :
    ∃ fuel, ∀ name ∈ names, ∃ o, reference program fuel [] (.const name) = some o ∧ o ≠ .panic := by
  induction names with
  | nil => exact ⟨0, by simp⟩
  | cons name names ih =>
    obtain ⟨m, hm⟩ := ih fun other hother => h other (mem_cons_of_mem _ hother)
    obtain ⟨k, o, hk, ho⟩ := h name mem_cons_self
    refine ⟨max m k, ?_⟩
    intro other hother
    rcases mem_cons.1 hother with rfl | hother
    · exact ⟨o, reference_mono (Nat.le_max_right m k) hk, ho⟩
    · obtain ⟨o', ho', hne⟩ := hm other hother
      exact ⟨o', reference_mono (Nat.le_max_left m k) ho', hne⟩

/-- Resolution ends without a panic if each constant does on its own. -/
theorem resolve_ends (hvalues : Remembered program values)
    (h : ∀ name ∈ order, ∃ o, reference program fuel [] (.const name) = some o ∧ o ≠ .panic) :
    ∃ result, resolveConstIntDecls program fuel order values = some result ∧
      result ≠ .error .panic := by
  induction order generalizing values with
  | nil => exact ⟨_, rfl, by simp⟩
  | cons name names ih =>
    obtain ⟨o, ho, hne⟩ := h name mem_cons_self
    obtain ⟨⟨o', middle⟩, ho'⟩ := evaluate_ends fuel [] _ values _ hvalues (by simp [Apart]) ho
    have hran := evaluate_spec fuel [] _ _ _ _ hvalues (by simp [Apart]) ho'
    obtain rfl : o = o' := Means.unique ⟨fuel, ho⟩ hran.means
    obtain ⟨rest, hrest, hrest_ne⟩ := ih hran.remembered
      fun other hother => h other (mem_cons_of_mem _ hother)
    have hkeep : ∀ decl : ConstDecl, rest.map (decl :: ·) ≠ .error .panic := by
      intro decl
      cases rest with
      | ok rest => simp [Except.map]
      | error e => simpa [Except.map] using hrest_ne
    simp only [resolveConstIntDecls, ho', bind_eq_bind, bind_some, hrest]
    split
    · exact ⟨_, rfl, hkeep _⟩
    · split
      · exact ⟨_, rfl, by simp⟩
      · exact ⟨_, rfl, hkeep _⟩
    · exact ⟨_, rfl, by simpa using hne⟩

theorem remembered_nil : Remembered program [] := by
  intro name v h
  cases h

/-- Any constant can be the first one. -/
theorem exists_isOrder (h : (constOf program name).isSome = true) :
    ∃ names, IsOrder program (name :: names) := by
  refine ⟨(program.consts.map (·.name)).dedup.erase name, ?_, ?_⟩
  · rw [nodup_cons]
    exact ⟨(nodup_dedup _).not_mem_erase, (nodup_dedup _).erase _⟩
  · intro other
    rw [isSome_constOf] at h ⊢
    rw [mem_cons, (nodup_dedup _).mem_erase_iff, mem_dedup]
    constructor
    · rintro (rfl | ⟨-, hother⟩)
      · exact h
      · exact hother
    · intro hother
      by_cases heq : other = name
      · exact .inl heq
      · exact .inr ⟨heq, hother⟩

/-- The constant that comes first is evaluated on its own. -/
theorem Faithful.first_ends (h : Faithful program (name :: names)) :
    ∃ fuel outcome, reference program fuel [] (.const name) = some outcome ∧ outcome ≠ .panic := by
  obtain ⟨fuel, result, hresult, hne⟩ := h.ends
  obtain ⟨⟨o, values⟩, ho, hrest⟩ := bind_eq_some_iff.1 hresult
  obtain ⟨m, hm⟩ := (evaluate_spec fuel [] _ _ _ _ remembered_nil (by simp [Apart]) ho).means
  refine ⟨m, o, hm, ?_⟩
  rintro rfl
  cases hrest
  exact hne rfl

/-- Each constant, evaluated on its own, comes to an end without a fault. -/
def Total (program : Program) : Prop :=
  ∀ name, (constOf program name).isSome = true →
    ∃ fuel outcome, reference program fuel [] (.const name) = some outcome ∧ outcome ≠ .panic

end Axiomc.Consts
