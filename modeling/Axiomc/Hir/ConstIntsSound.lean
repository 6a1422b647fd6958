import Axiomc.Hir.ConstIntsFaithful

/-!
# Integer constants: when resolution is total

What the constants need is a graph over tasks.  Its edges do not depend on the integers, except that a
fault ends everything, so a const function whose body needs itself is evaluated without end.

* `Child`: all that one task can run;
* `ends_of_sound`: without recursion and with arithmetic in range every needed task ends, by induction
  on the constants not begun, the bodies not entered and the size of the task;
* `Task.Alike`, `Needs.transport`: tasks that differ in the integers only need alike tasks;
* `resolveConstIntDecls_faithful_iff`: resolution ends without a panic and with the right values, in
  whichever order the constants come, exactly when the program is `Sound`.
-/

namespace Axiomc.Consts

open Foundation Source Plan Option List Relation
open Hir (ArithmeticOp)

variable {program : Program} {S : List String} {task t : Task} {o o' a b : Outcome} {p q : Plan}
  {x y : List String × Task} {n m : Nat}

/-! ### What a task can run -/

/-- The tasks that a plan can run. -/
inductive Child (program : Program) : Task → Task → Prop
  | name {l : Locals} {name : String} : Child program (.expr l (.varRef name)) (.const name)
  | lhs {l : Locals} {op : ArithmeticOp} {lhs rhs : Expr} :
      Child program (.expr l (.binaryAdd op lhs rhs)) (.expr l lhs)
  | rhs {l : Locals} {op : ArithmeticOp} {lhs rhs : Expr} :
      Child program (.expr l (.binaryAdd op lhs rhs)) (.expr l rhs)
  | call {l : Locals} {name : String} {typeArgs : List TypeName} {args : List Expr}
      {line column : Nat} {function : FunctionDecl} : constFunction program name args = some function →
      Child program (.expr l (.call name typeArgs args line column))
        (.args l ((function.params.map (·.name)).zip args) [] function.body)
  | enter {l bound : Locals} {body : List Stmt} :
      Child program (.args l [] bound body) (.block bound body)
  | arg {l bound : Locals} {param : String} {arg : Expr} {args : List (String × Expr)}
      {body : List Stmt} : Child program (.args l ((param, arg) :: args) bound body) (.expr l arg)
  | args {l bound : Locals} {param : String} {arg : Expr} {args : List (String × Expr)}
      {body : List Stmt} (v : Int64) : Child program (.args l ((param, arg) :: args) bound body)
        (.args l args ((param, v) :: bound) body)
  | init {l : Locals} {name : String} {ty : TypeName} {expr : Expr} {body : List Stmt} :
      Child program (.block l (.letStmt name ty expr :: body)) (.expr l expr)
  | rest {l : Locals} {name : String} {ty : TypeName} {expr : Expr} {body : List Stmt} (v : Int64) :
      Child program (.block l (.letStmt name ty expr :: body)) (.block ((name, v) :: l) body)
  | result {l : Locals} {expr : Expr} {body : List Stmt} :
      Child program (.block l (.returnStmt expr :: body)) (.expr l expr)

variable {R : Task → Outcome → Prop}

theorem Plan.asks_hand {u : Task} (h : (hand task).Asks R u) : u = task := by
  cases h with
  | now => rfl
  | later _ h => cases h

theorem Plan.asks_value {u : Task} {next : Int64 → Plan} (h : (value task next).Asks R u) :
    u = task ∨ ∃ v, R task (.value v) ∧ (next v).Asks R u := by
  cases h with
  | now => exact .inl rfl
  | later ho h =>
    rename_i outcome
    cases outcome with
    | value v => exact .inr ⟨v, ho, h⟩
    | _ => cases h

theorem asks_child (htask : task.isConst = false) (h : (plan program task).Asks R t) :
    Child program task t := by
  cases task with
  | const name => cases htask
  | expr l e =>
    have h : (evalConstIntExprResolved program l e).Asks R t := h
    unfold evalConstIntExprResolved at h
    split at h
    · cases h
    · split at h
      · cases h
      · cases asks_hand h
        exact .name
    · cases h with
      | now => exact .lhs
      | later _ h =>
        dsimp only at h
        split at h
        · cases h
        · cases h with
          | now => exact .rhs
          | later _ h =>
            dsimp only at h
            split at h
            · cases h
            · cases h
    · split at h
      · rename_i hfunction
        cases asks_hand h
        exact .call hfunction
      · cases h
    · cases h
  | args l args bound body =>
    have h : (evalArgs l args bound body).Asks R t := h
    unfold evalArgs at h
    split at h
    · cases asks_hand h
      exact .enter
    · rcases asks_value h with rfl | ⟨v, -, h⟩
      · exact .arg
      · cases asks_hand h
        exact .args v
  | block l body =>
    have h : (evalConstIntBlock l body).Asks R t := h
    unfold evalConstIntBlock at h
    split at h
    · rcases asks_value h with rfl | ⟨v, -, h⟩
      · exact .init
      · cases asks_hand h
        exact .rest v
    · cases asks_hand h
      exact .result
    · cases h

/-! ### Termination -/

/-- The size of a task: what a call runs before it enters a body is part of the call. -/
noncomputable def Task.size : Task → Nat
  | .const _ => 0
  | .expr _ e => sizeOf e
  | .args _ pending _ _ => sizeOf (pending.map Prod.snd)
  | .block _ body => sizeOf body

/-- The parameters, last one first, and the body of each function. -/
def bodies (program : Program) : List (List String × List Stmt) :=
  program.functions.map fun function => ((function.params.map (·.name)).reverse, function.body)

/-- The arguments of a call are those of a function of the program. -/
def Task.FromProgram (program : Program) : Task → Prop
  | .args _ pending bound body =>
    ((pending.map Prod.fst).reverse ++ bound.map Prod.fst, body) ∈ bodies program
  | _ => True

theorem constFunction_eq_some {name : String} {args : List Expr} {function : FunctionDecl}
    (h : constFunction program name args = some function) :
    function ∈ program.functions ∧ function.params.length = args.length := by
  obtain ⟨hfind, hkind⟩ := Option.filter_eq_some_iff.1 h
  simp only [Bool.and_eq_true, beq_iff_eq] at hkind
  exact ⟨mem_reverse.1 (mem_of_find?_eq_some hfind), hkind.2⟩

theorem Child.fromProgram (h : Child program task t) (htask : task.FromProgram program) :
    t.FromProgram program := by
  cases h with
  | call hfunction =>
    rename_i function
    obtain ⟨hmem, hlength⟩ := constFunction_eq_some hfunction
    refine List.mem_map.2 ⟨function, hmem, ?_⟩
    rw [map_fst_zip (by simp [hlength]), map_nil, append_nil]
  | args v =>
    show (_ ++ _, _) ∈ bodies program
    simpa [Task.FromProgram] using htask
  | _ => trivial

/-- A task runs smaller tasks, except where a call enters a body. -/
theorem Child.size (h : Child program task t) :
    t.size < task.size ∨ ∃ l bound body, task = .args l [] bound body ∧ t = .block bound body := by
  cases h with
  | enter => exact .inr ⟨_, _, _, rfl, rfl⟩
  | call hfunction =>
    left
    obtain ⟨-, hlength⟩ := constFunction_eq_some hfunction
    simp only [Task.size]
    rw [map_snd_zip (by simp [hlength]), Expr.call.sizeOf_spec]
    omega
  | _ =>
    left
    simp only [Task.size, map_cons, cons.sizeOf_spec, Expr.varRef.sizeOf_spec,
      Expr.binaryAdd.sizeOf_spec, Stmt.letStmt.sizeOf_spec, Stmt.returnStmt.sizeOf_spec]
    omega

/-- A plan whose subtasks end comes to an end. -/
theorem Plan.ends (h : ∀ t, p.Asks (Means program S) t → ∃ o, Means program S t o) :
    ∃ o, PlanMeans program S p o := by
  induction p with
  | done outcome => exact ⟨outcome, 0, rfl⟩
  | ask task next ih =>
    obtain ⟨a, ha⟩ := h task .now
    obtain ⟨o, ho⟩ := ih a fun t ht => h t (.later ha ht)
    exact ⟨o, .ask ha ho⟩

/-- Plans that panic only when a subtask does. -/
def Plan.Calm : Plan → Prop
  | .done o => o ≠ .panic
  | .ask _ next => ∀ a, a ≠ .panic → (next a).Calm

theorem Plan.Calm.ne_panic (h : p.Calm) (hends : PlanMeans program S p o)
    (hsub : ∀ t a, p.Asks (Means program S) t → Means program S t a → a ≠ .panic) : o ≠ .panic := by
  obtain ⟨fuel, hrun⟩ := hends
  induction p with
  | done outcome =>
    cases hrun
    exact h
  | ask task next ih =>
    obtain ⟨a, ha, hnext⟩ := bind_eq_some_iff.1 hrun
    have hne : a ≠ .panic := hsub task a .now ⟨fuel, ha⟩
    exact ih a (h a hne) (fun t b ht => hsub t b (.later ⟨fuel, ha⟩ ht)) hnext

theorem Plan.calm_hand (task : Task) : (hand task).Calm := fun _ h => h

theorem Plan.calm_value {next : Int64 → Plan} (h : ∀ v, (next v).Calm) :
    (value task next).Calm := by
  intro a ha
  cases a with
  | value v => exact h v
  | panic => exact absurd rfl ha
  | _ => nofun

theorem calm_plan (htask : task.isConst = false)
    (h : ∀ l op lhs rhs, task ≠ .expr l (.binaryAdd op lhs rhs)) : (plan program task).Calm := by
  cases task with
  | const name => cases htask
  | expr l e =>
    show (evalConstIntExprResolved program l e).Calm
    unfold evalConstIntExprResolved
    split
    · nofun
    · split
      · nofun
      · exact calm_hand _
    · exact absurd rfl (h _ _ _ _)
    · split
      · exact calm_hand _
      · nofun
    · nofun
  | args l args bound body =>
    show (evalArgs l args bound body).Calm
    unfold evalArgs
    split
    · exact calm_hand _
    · exact calm_value fun _ => calm_hand _
  | block l body =>
    show (evalConstIntBlock l body).Calm
    unfold evalConstIntBlock
    split
    · exact calm_value fun _ => calm_hand _
    · exact calm_hand _
    · nofun

theorem combine_ne_panic {op : ArithmeticOp}
    (h : ∀ v w, a = .value v → b = .value w → checkedArith op v w ≠ none) : combine op a b ≠ .panic := by
  unfold combine
  split
  · rename_i v w
    rw [arith_eq_checkedArith]
    split
    · nofun
    · rename_i hnone
      exact absurd hnone (h v w rfl rfl)
  · nofun

/-- A needed task panics only if one that it runs does. -/
theorem Sound.ne_panic (hsound : Sound program) (hneeded : Needed program (S, task))
    (htask : task.isConst = false) (hends : PlanMeans program S (plan program task) o)
    (hsub : ∀ t a, (plan program task).Asks (Means program S) t → Means program S t a → a ≠ .panic) :
    o ≠ .panic := by
  by_cases hop : ∃ l op lhs rhs, task = .expr l (.binaryAdd op lhs rhs)
  · obtain ⟨l, op, lhs, rhs, rfl⟩ := hop
    obtain ⟨fuel, hrun⟩ := hends
    obtain ⟨a, ha, hrun⟩ := bind_eq_some_iff.1 hrun
    have hlhs : Means program S (.expr l lhs) a := ⟨fuel, ha⟩
    dsimp only at hrun
    split at hrun
    · cases hrun
      exact hsub _ _ .now hlhs
    · rename_i hstops
      obtain ⟨b, hb, hrun⟩ := bind_eq_some_iff.1 hrun
      have hrhs : Means program S (.expr l rhs) b := ⟨fuel, hb⟩
      dsimp only at hrun
      split at hrun
      · cases hrun
        refine hsub _ _ (.later hlhs ?_) hrhs
        rw [if_neg hstops]
        exact .now
      · cases hrun
        apply combine_ne_panic
        rintro v w rfl rfl
        exact hsound.inRange S l op lhs rhs v w hneeded hlhs hrhs
  · have hcalm : (plan program task).Calm := by
      refine calm_plan htask ?_
      rintro l op lhs rhs rfl
      exact hop ⟨l, op, lhs, rhs, rfl⟩
    exact hcalm.ne_panic hends hsub

theorem Needed.step (h : Needed program x) (hstep : Needs program x y) : Needed program y := by
  obtain ⟨name, hname, hpath⟩ := h
  exact ⟨name, hname, hpath.tail hstep⟩

/-- The bodies that have been entered, each on the way to the task. -/
def Inside (program : Program) (S : List String) (entered : List (List String × List Stmt))
    (task : Task) : Prop :=
  ∀ e ∈ entered, ∃ l : Locals, l.map Prod.fst = e.1 ∧ Needed program (S, .block l e.2) ∧
    ReflTransGen (Needs program) (S, .block l e.2) (S, task)

theorem Inside.step {entered : List (List String × List Stmt)} (h : Inside program S entered task)
    (hstep : Needs program (S, task) (S, t)) : Inside program S entered t := by
  intro e he
  obtain ⟨l, hl, hneeded, hpath⟩ := h e he
  exact ⟨l, hl, hneeded, hpath.tail hstep⟩

/-- **Termination.**  The constants that are begun, then the bodies that are entered while these are,
then the size of the task. -/
theorem ends_of_sound (hsound : Sound program) (S : List String)
    (entered : List (List String × List Stmt)) (task : Task) (hS : S.Nodup)
    (hknown : S ⊆ program.consts.map (·.name)) (hentered : entered.Nodup)
    (hbodies : entered ⊆ bodies program) (hneeded : Needed program (S, task))
    (hfrom : task.FromProgram program) (hinside : Inside program S entered task) :
    ∃ o, Means program S task o ∧ o ≠ .panic := by
  rcases task.plain_or_const with htask | ⟨name, rfl⟩
  · have hsub : ∀ t, (plan program task).Asks (Means program S) t →
        ∃ o, Means program S t o ∧ o ≠ .panic := by
      intro t ht
      have hstep : Needs program (S, task) (S, t) := .plan htask ht
      have hchild := asks_child htask ht
      rcases hchild.size with hsize | ⟨l, bound, body, rfl, rfl⟩
      · exact ends_of_sound hsound S entered t hS hknown hentered hbodies (hneeded.step hstep)
          (hchild.fromProgram hfrom) (hinside.step hstep)
      · -- the body has not been entered: its evaluation would need itself
        have hbody : (bound.map Prod.fst, body) ∈ bodies program := hfrom
        have hnew : (bound.map Prod.fst, body) ∉ entered := by
          intro hmem
          obtain ⟨l', hl', hneeded', hpath⟩ := hinside _ hmem
          exact hsound.noRecursion S l' bound body hneeded' hl' (.tail' hpath hstep)
        refine ends_of_sound hsound S ((bound.map Prod.fst, body) :: entered) _ hS hknown
          (nodup_cons.2 ⟨hnew, hentered⟩) (cons_subset.2 ⟨hbody, hbodies⟩) (hneeded.step hstep)
          trivial ?_
        intro e he
        rcases mem_cons.1 he with rfl | he
        · exact ⟨bound, rfl, hneeded.step hstep, .refl⟩
        · exact hinside.step hstep e he
    obtain ⟨o, ho⟩ := Plan.ends fun t ht => (hsub t ht).imp fun _ h => h.1
    refine ⟨o, ho.means htask, hsound.ne_panic hneeded htask ho ?_⟩
    intro t a ht ha
    obtain ⟨b, hb, hne⟩ := hsub t ht
    rw [ha.unique hb]
    exact hne
  · cases hdecl : constOf program name with
    | none =>
      refine ⟨.noInt, ⟨1, ?_⟩, fun h => by cases h⟩
      rw [reference, hdecl]
    | some decl =>
      by_cases hmem : name ∈ S
      · refine ⟨.error (recursiveMessage name), ⟨1, ?_⟩, fun h => by cases h⟩
        rw [reference, hdecl]
        simp only [if_pos hmem]
      · have hname : name ∈ program.consts.map (·.name) := by
          rw [← isSome_constOf, hdecl]
          rfl
        obtain ⟨o, ho, hne⟩ := ends_of_sound hsound (name :: S) [] (.expr [] decl.expr)
          (nodup_cons.2 ⟨hmem, hS⟩) (cons_subset.2 ⟨hname, hknown⟩) nodup_nil (nil_subset _)
          (hneeded.step (.const hdecl hmem)) trivial (fun e he => by cases he)
        exact ⟨o, .const hdecl hmem ho, hne⟩
termination_by (program.consts.length - S.length, program.functions.length - entered.length, task.size)
decreasing_by
  · exact .right _ (.right _ hsize)
  · have hle := (subperm_of_subset (nodup_cons.2 ⟨hnew, hentered⟩)
      (cons_subset.2 ⟨hbody, hbodies⟩)).length_le
    simp only [length_cons, bodies, length_map] at hle
    exact .right _ (.left _ _ (by simp only [length_cons]; omega))
  · have hle := (subperm_of_subset (nodup_cons.2 ⟨hmem, hS⟩)
      (cons_subset.2 ⟨hname, hknown⟩)).length_le
    simp only [length_cons, length_map] at hle
    exact .left _ _ (by simp only [length_cons]; omega)

theorem Sound.total (hsound : Sound program) : Total program := by
  intro name hname
  obtain ⟨o, ⟨fuel, ho⟩, hne⟩ := ends_of_sound hsound [] [] (.const name) nodup_nil (nil_subset _)
    nodup_nil (nil_subset _) ⟨name, hname, .refl⟩ trivial (fun e he => by cases he)
  exact ⟨fuel, o, ho, hne⟩

/-! ### Needed tasks end -/

/-- Plans that a panic of a subtask ends. -/
def Plan.Honest : Plan → Prop
  | .done _ => True
  | .ask _ next => next .panic = .done .panic ∧ ∀ a, (next a).Honest

theorem Plan.honest_hand (task : Task) : (hand task).Honest := ⟨rfl, fun _ => trivial⟩

theorem Plan.honest_value {next : Int64 → Plan} (h : ∀ v, (next v).Honest) :
    (value task next).Honest := by
  refine ⟨rfl, fun a => ?_⟩
  cases a with
  | value v => exact h v
  | _ => trivial

theorem honest_plan (task : Task) : (plan program task).Honest := by
  cases task with
  | const name => exact honest_hand _
  | expr l e =>
    show (evalConstIntExprResolved program l e).Honest
    unfold evalConstIntExprResolved
    split
    · trivial
    · split
      · trivial
      · exact honest_hand _
    · refine ⟨rfl, fun a => ?_⟩
      dsimp only
      split
      · trivial
      · refine ⟨rfl, fun b => ?_⟩
        dsimp only
        split <;> trivial
    · split
      · exact honest_hand _
      · trivial
    · trivial
  | args l args bound body =>
    show (evalArgs l args bound body).Honest
    unfold evalArgs
    split
    · exact honest_hand _
    · exact honest_value fun _ => honest_hand _
  | block l body =>
    show (evalConstIntBlock l body).Honest
    unfold evalConstIntBlock
    split
    · exact honest_value fun _ => honest_hand _
    · exact honest_hand _
    · trivial

/-- The task ends within the fuel, without a panic. -/
def EndsIn (program : Program) (n : Nat) (x : List String × Task) : Prop :=
  ∃ o, reference program n x.1 x.2 = some o ∧ o ≠ .panic

/-- What an honest plan has run did not panic. -/
theorem Plan.Honest.run_ask {task : Task} {next : Outcome → Plan} (h : (Plan.ask task next).Honest)
    (hrun : (Plan.ask task next).run (reference program n S) = some o) (ho : o ≠ .panic) :
    ∃ a, reference program n S task = some a ∧ a ≠ .panic ∧
      (next a).run (reference program n S) = some o := by
  obtain ⟨a, ha, hnext⟩ := bind_eq_some_iff.1 hrun
  refine ⟨a, ha, ?_, hnext⟩
  rintro rfl
  rw [h.1] at hnext
  cases hnext
  exact ho rfl

theorem Plan.Honest.asks_ends (h : p.Honest) (hrun : p.run (reference program n S) = some o)
    (ho : o ≠ .panic) (hask : p.Asks (Means program S) t) : EndsIn program n (S, t) := by
  induction hask with
  | now =>
    obtain ⟨a, ha, hne, -⟩ := h.run_ask hrun ho
    exact ⟨a, ha, hne⟩
  | later hmeans _ ih =>
    obtain ⟨a, ha, -, hnext⟩ := h.run_ask hrun ho
    cases hmeans.unique ⟨n, ha⟩
    exact ih (h.2 _) hnext

theorem EndsIn.needs (h : EndsIn program (n + 1) x) (hneeds : Needs program x y) :
    EndsIn program n y := by
  obtain ⟨o, ho, hne⟩ := h
  cases hneeds with
  | const hdecl hS =>
    refine ⟨o, ?_, hne⟩
    simpa only [reference, hdecl, if_neg hS] using ho
  | plan htask hask =>
    dsimp only at ho
    rw [reference_succ htask] at ho
    exact (honest_plan _).asks_ends ho hne hask

theorem EndsIn.pos (h : EndsIn program n x) : ∃ k, n = k + 1 := by
  cases n with
  | zero =>
    obtain ⟨o, ho, -⟩ := h
    cases ho
  | succ k => exact ⟨k, rfl⟩

theorem Total.endsIn (h : Total program) (hneeded : Needed program x) : ∃ n, EndsIn program n x := by
  obtain ⟨name, hname, hpath⟩ := hneeded
  induction hpath with
  | refl => exact h name hname
  | tail _ hstep ih =>
    obtain ⟨n, hn⟩ := ih
    obtain ⟨k, rfl⟩ := hn.pos
    exact ⟨k, hn.needs hstep⟩

theorem EndsIn.inRange {l : Locals} {op : ArithmeticOp} {lhs rhs : Expr} {v w : Int64}
    (h : EndsIn program n (S, .expr l (.binaryAdd op lhs rhs)))
    (hlhs : Means program S (.expr l lhs) (.value v))
    (hrhs : Means program S (.expr l rhs) (.value w)) : checkedArith op v w ≠ none := by
  obtain ⟨n, rfl⟩ := h.pos
  obtain ⟨o, ho, hne⟩ := h
  obtain ⟨a, ha, hnext⟩ := bind_eq_some_iff.1 ho
  cases hlhs.unique ⟨n, ha⟩
  obtain ⟨b, hb, hnext⟩ := bind_eq_some_iff.1 hnext
  cases hrhs.unique ⟨n, hb⟩
  cases hnext
  intro hnone
  rw [← arith_eq_checkedArith] at hnone
  simp [combine, hnone] at hne

/-! ### Tasks that differ in the integers -/

/-- The same names, with values that may differ. -/
def SameNames (l l' : Locals) : Prop := l.map Prod.fst = l'.map Prod.fst

theorem SameNames.cons {l l' : Locals} (h : SameNames l l') (name : String) (v w : Int64) :
    SameNames ((name, v) :: l) ((name, w) :: l') :=
  congrArg (name :: ·) h

theorem SameNames.lookup {l l' : Locals} (h : SameNames l l') (name : String) :
    (l.lookup name).isSome = (l'.lookup name).isSome := by
  have hkeys (l : Locals) : (l.lookup name).isSome = (l.map Prod.fst).contains name := by
    induction l with
    | nil => rfl
    | cons entry l ih =>
      obtain ⟨key, v⟩ := entry
      rw [List.lookup_cons, map_cons, contains_cons, ← ih]
      cases name == key <;> rfl
  rw [hkeys, hkeys, h]

inductive Task.Alike : Task → Task → Prop
  | const {name : String} : Alike (.const name) (.const name)
  | expr {l l' : Locals} {e : Expr} : SameNames l l' → Alike (.expr l e) (.expr l' e)
  | args {l l' bound bound' : Locals} {args : List (String × Expr)} {body : List Stmt} :
      SameNames l l' → SameNames bound bound' → Alike (.args l args bound body) (.args l' args bound' body)
  | block {l l' : Locals} {body : List Stmt} : SameNames l l' → Alike (.block l body) (.block l' body)

/-- Both outcomes are integers, or they are the same. -/
inductive Outcome.Alike : Outcome → Outcome → Prop
  | value {v w : Int64} : Alike (.value v) (.value w)
  | same {o : Outcome} : Alike o o

/-- Plans that run alike tasks, as long as neither panics. -/
inductive Plan.Alike : Plan → Plan → Prop
  | done {a b : Outcome} : (a ≠ .panic → b ≠ .panic → a.Alike b) → Alike (.done a) (.done b)
  | ask {t t' : Task} {next next' : Outcome → Plan} : t.Alike t' →
      (∀ a b, a.Alike b → Alike (next a) (next' b)) → Alike (.ask t next) (.ask t' next')

variable {t' : Task}

theorem Plan.alike_done (h : a.Alike b) : (Plan.done a).Alike (.done b) := .done fun _ _ => h

theorem Plan.alike_hand (h : t.Alike t') : (hand t).Alike (hand t') := .ask h fun _ _ => alike_done

theorem Plan.alike_value {next next' : Int64 → Plan} (h : t.Alike t')
    (hnext : ∀ v w, (next v).Alike (next' w)) : (value t next).Alike (value t' next') := by
  refine .ask h fun a b hab => ?_
  cases hab with
  | value => exact hnext _ _
  | same =>
    cases a with
    | value v => exact hnext v v
    | _ => exact alike_done .same

theorem combine_values {op : ArithmeticOp} {v w v' w' : Int64}
    (h : combine op (.value v) (.value w) ≠ .panic) (h' : combine op (.value v') (.value w') ≠ .panic) :
    (combine op (.value v) (.value w)).Alike (combine op (.value v') (.value w')) := by
  simp only [combine] at h h' ⊢
  cases hr : arith op v w with
  | none => exact absurd (by rw [hr]) h
  | some r =>
    cases hr' : arith op v' w' with
    | none => exact absurd (by rw [hr']) h'
    | some r' => exact .value

theorem combine_alike {op : ArithmeticOp} {a' b' : Outcome} (ha : a.Alike a') (hb : b.Alike b') :
    combine op a b ≠ .panic → combine op a' b' ≠ .panic → (combine op a b).Alike (combine op a' b') := by
  intro h h'
  cases ha with
  | value =>
    cases hb with
    | value => exact combine_values h h'
    | same =>
      cases b with
      | value w => exact combine_values h h'
      | _ => exact .same
  | same =>
    cases a with
    | value v =>
      cases hb with
      | value => exact combine_values h h'
      | same => exact .same
    | _ => exact .same

theorem Outcome.Alike.stops (h : a.Alike b) : a.stops = b.stops := by
  cases h <;> rfl

theorem plan_alike (h : t.Alike t') : (plan program t).Alike (plan program t') := by
  cases h with
  | const => exact alike_hand .const
  | args hl hbound =>
    rename_i args _
    cases args with
    | nil => exact alike_hand (.block hbound)
    | cons arg args => exact alike_value (.expr hl) fun v w => alike_hand (.args hl (hbound.cons _ v w))
  | block hl =>
    show (evalConstIntBlock _ _).Alike (evalConstIntBlock _ _)
    unfold evalConstIntBlock
    split
    · exact alike_value (.expr hl) fun v w => alike_hand (.block (hl.cons _ v w))
    · exact alike_hand (.expr hl)
    · exact alike_done .same
  | expr hl =>
    show (evalConstIntExprResolved program _ _).Alike (evalConstIntExprResolved program _ _)
    unfold evalConstIntExprResolved
    split
    · exact alike_done .same
    · rename_i name
      have hsome := hl.lookup name
      split <;> rename_i heq <;> rw [heq] at hsome
      · obtain ⟨w, hw⟩ := isSome_iff_exists.1 hsome.symm
        rw [hw]
        exact alike_done .value
      · rw [not_isSome_iff_eq_none.1 (hsome.symm.trans_ne nofun)]
        exact alike_hand .const
    · refine .ask (.expr hl) fun a b hab => ?_
      rw [hab.stops]
      split
      · exact alike_done hab
      · refine .ask (.expr hl) fun c d hcd => ?_
        rw [hcd.stops]
        split
        · exact alike_done hcd
        · exact .done (combine_alike hab hcd)
    · split
      · exact alike_hand (.args hl rfl)
      · exact alike_done .same
    · exact alike_done .same

theorem Plan.Alike.run (h : p.Alike q) (hp : p.Honest) (hq : q.Honest)
    (hsub : ∀ t t' a b, t.Alike t' → reference program n S t = some a → a ≠ .panic →
      reference program n S t' = some b → b ≠ .panic → a.Alike b)
    (hrun : p.run (reference program n S) = some o) (ho : o ≠ .panic)
    (hrun' : q.run (reference program n S) = some o') (ho' : o' ≠ .panic) : o.Alike o' := by
  induction h with
  | done h =>
    cases hrun
    cases hrun'
    exact h ho ho'
  | ask htask _ ih =>
    obtain ⟨a, ha, hne, hnext⟩ := hp.run_ask hrun ho
    obtain ⟨b, hb, hne', hnext'⟩ := hq.run_ask hrun' ho'
    have hab := hsub _ _ a b htask ha hne hb hne'
    exact ih a b hab (hp.2 a) (hq.2 b) hnext hnext'

theorem reference_alike (n : Nat) : ∀ (S : List String) (t t' : Task) (a b : Outcome), t.Alike t' →
    reference program n S t = some a → a ≠ .panic →
    reference program n S t' = some b → b ≠ .panic → a.Alike b := by
  induction n with
  | zero =>
    intro S t t' a b _ ha
    cases ha
  | succ n ih =>
    intro S t t' a b h ha hne hb hne'
    rcases t.plain_or_const with htask | ⟨name, rfl⟩
    · have htask' : t'.isConst = false := by
        cases h with
        | const => exact htask
        | _ => rfl
      rw [reference_succ htask] at ha
      rw [reference_succ htask'] at hb
      exact (plan_alike h).run (honest_plan t) (honest_plan t') (ih S) ha hne hb hne'
    · cases h
      rw [ha] at hb
      cases hb
      exact .same

/-- Alike plans that end without a panic run alike tasks. -/
theorem Plan.Alike.asks (h : p.Alike q) (hp : p.Honest) (hq : q.Honest)
    (hrun : p.run (reference program n S) = some o) (ho : o ≠ .panic)
    (hrun' : q.run (reference program n S) = some o') (ho' : o' ≠ .panic)
    (hask : p.Asks (Means program S) t) : ∃ t', q.Asks (Means program S) t' ∧ t.Alike t' := by
  induction h with
  | done => cases hask
  | ask htask _ ih =>
    cases hask with
    | now => exact ⟨_, .now, htask⟩
    | later hmeans hask =>
      obtain ⟨a, ha, hne, hnext⟩ := hp.run_ask hrun ho
      obtain ⟨b, hb, hne', hnext'⟩ := hq.run_ask hrun' ho'
      cases hmeans.unique ⟨n, ha⟩
      have hab := reference_alike n S _ _ _ _ htask ha hne hb hne'
      obtain ⟨t', hask', halike⟩ := ih _ b hab (hp.2 _) (hq.2 b) hnext hnext' hask
      exact ⟨t', .later ⟨n, hb⟩ hask', halike⟩

theorem EndsIn.mono (h : EndsIn program n x) (hle : n ≤ m) : EndsIn program m x := by
  obtain ⟨o, ho, hne⟩ := h
  exact ⟨o, reference_mono hle ho, hne⟩

variable {u : Task}

/-- A task that is alike to one that needs something needs something alike. -/
theorem Needs.transport (hneeds : Needs program (S, t) y) (halike : t.Alike u)
    (h : EndsIn program n (S, t)) (h' : EndsIn program n (S, u)) :
    ∃ u', Needs program (S, u) (y.1, u') ∧ y.2.Alike u' := by
  obtain ⟨n, rfl⟩ := h.pos
  obtain ⟨o, ho, hne⟩ := h
  obtain ⟨o', ho', hne'⟩ := h'
  dsimp only at ho ho'
  cases hneeds with
  | const hdecl hS =>
    cases halike
    exact ⟨_, .const hdecl hS, .expr rfl⟩
  | plan htask hask =>
    have htask' : u.isConst = false := by
      cases halike with
      | const => exact htask
      | _ => rfl
    rw [reference_succ htask] at ho
    rw [reference_succ htask'] at ho'
    obtain ⟨u', hask', hu⟩ := (plan_alike halike).asks (honest_plan t) (honest_plan u) ho hne ho' hne' hask
    exact ⟨u', .plan htask' hask', hu⟩

/-- A path of needs, from an alike task.  All tasks of both paths end. -/
theorem transport_path (hpath : TransGen (Needs program) (S, t) y) (halike : t.Alike u)
    (h : EndsIn program n (S, t)) (h' : EndsIn program n (S, u)) :
    ∃ k u', k < n ∧ EndsIn program k y ∧ EndsIn program k (y.1, u') ∧
      TransGen (Needs program) (S, u) (y.1, u') ∧ y.2.Alike u' := by
  induction hpath with
  | single hneeds =>
    obtain ⟨u', hneeds', hu⟩ := hneeds.transport halike h h'
    obtain ⟨k, rfl⟩ := h.pos
    exact ⟨k, u', k.lt_succ_self, h.needs hneeds, h'.needs hneeds', .single hneeds', hu⟩
  | tail _ hneeds ih =>
    obtain ⟨k, u', hk, hy, hu', hpath', hu⟩ := ih
    obtain ⟨u₂, hneeds', hu₂⟩ := hneeds.transport hu hy hu'
    obtain ⟨k, rfl⟩ := hy.pos
    exact ⟨k, u₂, by omega, hy.needs hneeds, hu'.needs hneeds', hpath'.tail hneeds', hu₂⟩

/-- A body that ends does not need itself: the body that it needs would, again, with less fuel. -/
theorem EndsIn.noRecursion (n : Nat) : ∀ {l l' : Locals} {body : List Stmt},
    EndsIn program n (S, .block l body) → SameNames l l' →
    ¬ TransGen (Needs program) (S, .block l body) (S, .block l' body) := by
  induction n using Nat.strong_induction_on with
  | _ n ih =>
    intro l l' body h hnames hpath
    obtain ⟨k, -, hk, hinner, -⟩ := transport_path hpath (.block rfl) h h
    have hinner' := hinner.mono hk.le
    obtain ⟨-, u, -, -, -, hagain, hu⟩ := transport_path hpath (.block hnames) h hinner'
    cases hu with
    | block hnames' => exact ih k hk hinner hnames' hagain

theorem Total.sound (h : Total program) : Sound program := by
  refine ⟨?_, ?_⟩
  · intro S l op lhs rhs v w hneeded hlhs hrhs
    obtain ⟨n, hn⟩ := h.endsIn hneeded
    exact hn.inRange hlhs hrhs
  · intro S l l' body hneeded hnames
    obtain ⟨n, hn⟩ := h.endsIn hneeded
    exact EndsIn.noRecursion n hn hnames

/-! ### The guarantee -/

/-- Resolution ends without a panic and with the right values, in whichever order the constants come,
exactly when the arithmetic that the constants need is in range and no const function that they need
calls itself. -/
theorem resolveConstIntDecls_faithful_iff (program : Program) :
    (∀ order, IsOrder program order → Faithful program order) ↔ Sound program := by
  constructor
  · intro h
    refine Total.sound fun name hname => ?_
    obtain ⟨names, horder⟩ := exists_isOrder hname
    exact (h _ horder).first_ends
  · intro h order horder
    refine ⟨?_, ?_, ?_, ?_⟩
    · obtain ⟨fuel, hfuel⟩ := common_fuel fun name hname => h.total name ((horder.mem_iff name).1 hname)
      exact ⟨fuel, resolve_ends remembered_nil hfuel⟩
    · intro fuel consts hconsts decl hdecl value hexpr
      exact (resolved_of_resolve remembered_nil hconsts decl hdecl).evaluates hexpr
    · intro fuel consts hconsts raw
      exact resolveConstArrayLen_spec (resolved_of_resolve remembered_nil hconsts) raw
    · intro fuel task v values hv
      exact (evaluate_spec fuel [] _ _ _ _ remembered_nil (by simp [Apart]) hv).means.evaluates

/-- `const A: int = 1 / 0`. -/
def divisionByZero : Program where
  consts := [⟨"A", .int, .binaryAdd .div (.literal (.int 1)) (.literal (.int 0))⟩]

/-- `const A: int = f(1)` with `const fn f(n: int): int { return f(n) }`. -/
def endlessCall : Program where
  consts := [⟨"A", .int, .call "f" [] [.literal (.int 1)] 1 1⟩]
  functions := [{ name := "f", params := [⟨"n", .int⟩],
                  body := [.returnStmt (.call "f" [] [.varRef "n"] 1 1)], isConst := true }]

theorem isOrder_divisionByZero : IsOrder divisionByZero ["A"] := by
  refine ⟨by decide, ?_⟩
  intro name
  rw [isSome_constOf]
  rfl

theorem isOrder_endlessCall : IsOrder endlessCall ["A"] := by
  refine ⟨by decide, ?_⟩
  intro name
  rw [isSome_constOf]
  rfl

/-- The body of `f`, in which `n` is `1`. -/
def endlessBody : Task := .block [("n", 1)] [.returnStmt (.call "f" [] [.varRef "n"] 1 1)]

/-- The body of `f` comes back to itself with the same argument. -/
theorem reference_endlessBody (fuel : Nat) (o : Outcome) :
    reference endlessCall fuel ["A"] endlessBody ≠ some o := by
  induction fuel using Nat.strong_induction_on with
  | _ fuel ih =>
    match fuel with
    | 0 | 1 | 2 | 3 => exact nofun
    | fuel + 4 =>
      intro h
      have hcall := run_hand (run_hand h)
      have hargs : reference endlessCall (fuel + 1) ["A"]
          (.args [("n", 1)] [] [("n", 1)] [.returnStmt (.call "f" [] [.varRef "n"] 1 1)]) = some o :=
        run_hand hcall
      exact ih fuel (by omega) (run_hand hargs)

/-- A division by zero ends resolution in a panic, and a const function that calls itself never lets it
end. -/
theorem resolveConstIntDecls_not_total :
    (IsOrder divisionByZero ["A"] ∧ ¬ Faithful divisionByZero ["A"]) ∧
      (IsOrder endlessCall ["A"] ∧ ¬ Faithful endlessCall ["A"]) := by
  refine ⟨⟨isOrder_divisionByZero, ?_⟩, isOrder_endlessCall, ?_⟩
  · intro h
    obtain ⟨fuel, outcome, houtcome, hne⟩ := h.first_ends
    have hpanic : Means divisionByZero [] (.const "A") .panic := ⟨3, by decide⟩
    exact hne (Means.unique ⟨fuel, houtcome⟩ hpanic)
  · intro h
    obtain ⟨fuel, outcome, houtcome, -⟩ := h.first_ends
    match fuel with
    | 0 | 1 | 2 | 3 | 4 => cases houtcome
    | fuel + 5 =>
      have hargs : reference endlessCall (fuel + 2) ["A"]
          (.args [] [] [("n", 1)] [.returnStmt (.call "f" [] [.varRef "n"] 1 1)]) = some outcome :=
        run_hand (run_hand houtcome)
      exact reference_endlessBody (fuel + 1) outcome (run_hand hargs)

end Axiomc.Consts
