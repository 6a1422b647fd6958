import Axiomc.Package.ResolverGuarantees

/-!
# Termination and budgets of the resolver

The recursion of `solve` has no counter of its own: what stops it is that each level selects one
more of at most `max_packages` constrained packages.  To speak about every moment of a run, the run
is compared with a watched one.  `solveWatched` is `solve` with a sentry at the entry of every call,
which stops the run when the depth, the number of constrained packages, the number of considered
candidates or the trace is beyond its limit.  `solveWatched_agree`: the sentry never stops a run.

Between two calls of `solve` the counters only grow, and `Solver.Within` bounds them at the end of
the run as well, also when the run ends with an error.  New constraints come from `add_dependency`
alone (`addDependency_budgeted`), and the only loop that is not over a list, the one of
`dependency_path_exists`, ends by `dependencyPathExists_ends`.
-/

namespace Axiomc.Package

open Std Axiomc.Foundation TreeMap List

variable {σ α β : Type}

/-! ### The counters -/

/-- The number of candidates a trace has considered. -/
def considered (trace : List TraceEvent) : Nat :=
  trace.countP fun
    | .candidateConsidered .. => true
    | _ => false

/-- The counters are within the limits of the request. -/
structure Solver.Within (request : ResolveRequest) (s : Solver σ) : Prop where
  considered : considered s.trace ≤ s.candidateAttempts
  attempts : s.candidateAttempts ≤ request.limits.maxCandidateAttempts
  trace : s.trace.length ≤ request.limits.maxTraceEvents

instance (request : ResolveRequest) (s : Solver σ) : Decidable (s.Within request) :=
  decidable_of_iff (considered s.trace ≤ s.candidateAttempts ∧
      s.candidateAttempts ≤ request.limits.maxCandidateAttempts ∧
      s.trace.length ≤ request.limits.maxTraceEvents)
    ⟨fun h => ⟨h.1, h.2.1, h.2.2⟩, fun h => ⟨h.considered, h.attempts, h.trace⟩⟩

variable {s : Solver σ}

/-- A change that leaves the trace and the attempts alone. -/
theorem Solver.Within.of_eq {request : ResolveRequest} {s' : Solver σ} (h : s.Within request)
    (htrace : s'.trace = s.trace) (hattempts : s'.candidateAttempts = s.candidateAttempts) :
    s'.Within request := by
  obtain ⟨h₁, h₂, h₃⟩ := h
  constructor
  · rwa [htrace, hattempts]
  · rwa [hattempts]
  · rwa [htrace]

/-- A method that keeps the counters within the limits, also when it fails. -/
def Budgeted (request : ResolveRequest) (m : SolverM σ α) : Prop :=
  ∀ s, s.Within request →
    wp m (fun _ s' => s'.Within request) (fun _ s' => s'.Within request) s

namespace Budgeted

variable {request : ResolveRequest}

theorem pure (a : α) : Budgeted request (pure a : SolverM σ α) := fun _ h => h

theorem throw (e : ResolveError) : Budgeted request (throw e : SolverM σ α) := fun _ h => h

theorem bind {m : SolverM σ α} {f : α → SolverM σ β} (hm : Budgeted request m)
    (hf : ∀ a, Budgeted request (f a)) : Budgeted request (m >>= f) := by
  intro s h
  rw [wp_bind]
  exact wp_mono (hm s h) (fun a s' _ h' => hf a s' h') (fun _ _ _ h' => h')

theorem modify {f : Solver σ → Solver σ} (htrace : ∀ s, (f s).trace = s.trace)
    (hattempts : ∀ s, (f s).candidateAttempts = s.candidateAttempts) :
    Budgeted request (modify f : SolverM σ PUnit) :=
  fun s h => h.of_eq (htrace s) (hattempts s)

theorem get_bind {f : Solver σ → SolverM σ β} (hf : ∀ s, Budgeted request (f s)) :
    Budgeted request (get >>= f) :=
  bind (fun _ h => h) hf

end Budgeted

/-- The events other than the consideration of a candidate. -/
def TraceEvent.Uncounted : TraceEvent → Prop
  | .candidateConsidered .. => False
  | _ => True

variable {event : TraceEvent} {request : ResolveRequest}

theorem considered_append_uncounted (h : event.Uncounted)
    (trace : List TraceEvent) : considered (trace ++ [event]) = considered trace := by
  cases event <;> first | exact h.elim | simp [considered]

theorem pushTrace_budgeted (h : event.Uncounted := by exact trivial) :
    Budgeted request (pushTrace request event : SolverM σ Unit) := by
  intro s hs
  simp only [pushTrace, wp_bind, wp_get]
  split
  · exact hs
  next hroom =>
    refine ⟨?_, hs.attempts, ?_⟩
    · exact (considered_append_uncounted h s.trace).le.trans hs.considered
    · simp only [length_append, length_cons, length_nil]
      omega

/-- A candidate is counted before it is recorded as considered. -/
theorem considerCandidate_budgeted (p : PackageKey) (v : ReleaseVersion) (id : String) :
    Budgeted request (do
      bumpCandidateAttempts request
      pushTrace request (.candidateConsidered p v id) : SolverM σ Unit) := by
  intro s hs
  obtain ⟨hconsidered, hattempts, htrace⟩ := hs
  simp only [bumpCandidateAttempts, pushTrace, wp_bind, wp_get]
  split
  · exact ⟨hconsidered, hattempts, htrace⟩
  next hroom =>
    simp only [wp_modify]
    split
    · exact ⟨Nat.le_succ_of_le hconsidered, by dsimp only; omega, htrace⟩
    next hspace =>
      refine ⟨?_, by dsimp only; omega, ?_⟩
      · have happend : considered (s.trace ++ [.candidateConsidered p v id]) =
            considered s.trace + 1 := by simp [considered]
        show considered (s.trace ++ [.candidateConsidered p v id]) ≤ s.candidateAttempts + 1
        omega
      · simp only [length_append, length_cons, length_nil]
        omega

theorem backtrack_budgeted (p : PackageKey) (v : ReleaseVersion) :
    Budgeted request (backtrack request p v : SolverM σ Unit) := by
  refine Budgeted.get_bind fun s => ?_
  split
  · exact Budgeted.throw _
  · exact Budgeted.bind (Budgeted.modify (fun _ => rfl) (fun _ => rfl)) fun _ =>
      pushTrace_budgeted

theorem discardCandidate_budgeted (src : ResolverSource σ) (p : PackageKey) (c : CatalogCandidate) :
    Budgeted request (discardCandidate src p c : SolverM σ Unit) :=
  Budgeted.modify (fun _ => rfl) (fun _ => rfl)

theorem addDependency_budgeted (st : SolverState) (from' : Option PackageKey) (d : Dependency) :
    Budgeted request (addDependency request st from' d : SolverM σ SolverState) := by
  cases d with
  | path d =>
    simp only [addDependency]
    split
    · exact Budgeted.throw _
    · exact (pushTrace_budgeted).bind fun _ => Budgeted.pure _
  | registry r =>
    simp only [addDependency]
    split
    · exact Budgeted.throw _
    split
    · exact Budgeted.get_bind fun _ => Budgeted.throw _
    · exact (pushTrace_budgeted).bind fun _ => Budgeted.pure _

theorem addDependencies_budgeted (p : PackageKey) (ds : List Dependency) : ∀ st : SolverState,
      Budgeted request (addDependencies request p ds st : SolverM σ _) := by
  induction ds with
  | nil => exact fun st => Budgeted.pure _
  | cons d ds ih =>
    intro st
    simp only [addDependencies]
    split
    · exact Budgeted.pure _
    · exact (addDependency_budgeted st (some p) d).bind fun next => ih next

theorem addRootDependencies_budgeted (ds : List Dependency) :
    ∀ st : SolverState, Budgeted request (addRootDependencies request ds st : SolverM σ _) := by
  induction ds with
  | nil => exact fun st => Budgeted.pure _
  | cons d ds ih =>
    exact fun st => (addDependency_budgeted st none d).bind fun next => ih next

theorem catalog_budgeted (src : ResolverSource σ) (p : PackageKey) :
    Budgeted request (catalog src request p) := by
  intro s hs
  unfold catalog
  rw [wp_bind, wp_get]
  split
  · exact hs
  · have hasked : ∀ answer : Except SourceFailure AuthenticatedCatalog × σ, Solver.Within request
        { s with source := answer.2, calls := s.calls ++ [.authenticate p answer.1] } :=
      fun _ => hs.of_eq rfl rfl
    simp only [wp_bind, wp_modify]
    split
    · exact hasked _
    split
    · exact hasked _
    split
    · exact hasked _
    split
    · exact hasked _
    split
    · exact hasked _
    simp only [wp_bind, wp_modify, wp_get]
    split
    · exact hs.of_eq rfl rfl
    · refine Budgeted.bind pushTrace_budgeted (fun _ => ?_) _
        (hs.of_eq rfl rfl)
      exact Budgeted.bind (Budgeted.modify (fun _ => rfl) (fun _ => rfl)) fun _ => Budgeted.pure _

theorem verifiedCandidate_budgeted (src : ResolverSource σ) (cat : AuthenticatedCatalog)
    (c : CatalogCandidate) : Budgeted request (verifiedCandidate src cat c) := by
  refine Budgeted.get_bind fun s => ?_
  split
  · exact Budgeted.bind (Budgeted.modify (fun _ => rfl) (fun _ => rfl)) fun _ => Budgeted.pure _
  · exact Budgeted.bind (Budgeted.modify (fun _ => rfl) (fun _ => rfl)) fun _ => Budgeted.pure _

/-! ### The watched solver -/

/-- One call of `solve`, with the recursive call as a parameter. -/
def solveStep (src : ResolverSource σ) (request : ResolveRequest)
    (solveNext : SolverState → SolverM σ (Option SolverState)) (state : SolverState) :
    SolverM σ (Option SolverState) :=
  match selectedConflict state with
  | some package => do
    let requirements := requirementsFor package state
    modify fun s => { s with lastConflict := some (package, requirements) }
    pushTrace request (.conflict package requirements)
    return none
  | none =>
    match nextPackage state with
    | none => return some state
    | some package => do
      let requirements := requirementsFor package state
      let catalog ← catalog src request package
      tryCandidates src request solveNext state package requirements catalog
        false (orderedCandidates request package catalog.candidates)

theorem solve_succ (src : ResolverSource σ) (request : ResolveRequest) (bound : Nat)
    (st : SolverState) :
    solve src request (bound + 1) st = solveStep src request (solve src request bound) st := rfl

/-- The body of `resolve_packages`, with the search as a parameter. -/
def resolveBodyWith (search : SolverState → SolverM σ (Option SolverState))
    (validateResolutionSchema : Resolution → Except String Unit) (request : ResolveRequest) :
    SolverM σ Resolution := do
  let state ← addRootDependencies request (sortBy dependencyOrder request.dependencies)
    initialState
  match ← search state with
  | some solution =>
    let resolution := finish (← get).trace solution
    match validateResolutionSchema resolution with
    | .error message => throw (.invalidResolution message)
    | .ok () => return resolution
  | none =>
    let (package, requirements) := (← get).lastConflict.getD
      (state.constraints.keys.head?.getD ⟨"", "", "", "<root>"⟩, [])
    pushTrace request (.conflict package requirements)
    throw (.conflict package requirements (← get).trace)

/-- What the sentry at the entry of a call of `solve` checks. -/
def SentryPasses (request : ResolveRequest) (depth : Nat) (st : SolverState) (s : Solver σ) : Prop :=
  depth ≤ request.limits.maxPackages + 1 ∧ st.constraints.size ≤ request.limits.maxPackages ∧
    s.Within request

instance (request : ResolveRequest) (depth : Nat) (st : SolverState) (s : Solver σ) :
    Decidable (SentryPasses request depth st s) :=
  inferInstanceAs (Decidable (_ ∧ _ ∧ _))

/-- `solve` with a sentry at the entry of every call.  The outermost call has depth 1. -/
def solveWatched (src : ResolverSource σ) (request : ResolveRequest) :
    Nat → Nat → SolverState → SolverM σ (Option SolverState)
  | 0, _, _ => throw .recursionBound
  | fuel + 1, depth, state => do
    let s ← get
    if SentryPasses request depth state s then
      solveStep src request (solveWatched src request fuel (depth + 1)) state
    else throw .recursionBound

/-- The states `solve` is called on at a depth. -/
structure AtDepth (request : ResolveRequest) (depth : Nat) (st : SolverState) : Prop where
  tight : st.Tight
  depth : st.selected.size + 1 = depth
  size : st.constraints.size ≤ request.limits.maxPackages
  constrained : ∀ p, p ∈ st.selected → p ∈ st.constraints

variable {src : ResolverSource σ} {depth : Nat} {st : SolverState}

/-- Each level has selected one of the constrained packages. -/
theorem AtDepth.depth_le (h : AtDepth request depth st) : depth ≤ request.limits.maxPackages + 1 := by
  have hsize : st.selected.size ≤ st.constraints.size := by
    rw [← length_keys, ← length_keys]
    refine (subperm_of_subset nodup_keys fun q hq => ?_).length_le
    exact mem_keys.mpr (h.constrained q (mem_keys.mp hq))
  have := h.depth
  have := h.size
  omega

/-- Two computations that run alike from a state, within the limits. -/
def Agree (request : ResolveRequest) (m m' : SolverM σ α) (s : Solver σ) : Prop :=
  exec m s = exec m' s ∧ (exec m' s).2.Within request

variable {m : SolverM σ α}

theorem Budgeted.agree (h : Budgeted request m) (hs : s.Within request) : Agree request m m s := by
  refine ⟨rfl, ?_⟩
  have hrun := h s hs
  unfold wp at hrun
  cases hexec : exec m s with
  | mk result s' =>
    rw [hexec] at hrun
    cases result with
    | ok a => exact hrun
    | error e => exact hrun

variable {f f' : α → SolverM σ β}

theorem Agree.bind {m' : SolverM σ α} (h : Agree request m m' s)
    (hf : ∀ a s', exec m' s = (.ok a, s') → s'.Within request → Agree request (f a) (f' a) s') :
    Agree request (m >>= f) (m' >>= f') s := by
  obtain ⟨heq, hwithin⟩ := h
  simp only [Agree, exec_bind, heq]
  cases hexec : exec m' s with
  | mk result s' =>
    rw [hexec] at hwithin
    cases result with
    | ok a => exact hf a s' hexec hwithin
    | error e => exact ⟨rfl, hwithin⟩

/-- Two steps that keep the limits together only. -/
theorem Budgeted.agree_seq {m₁ : SolverM σ Unit} {m₂ : SolverM σ α}
    (h : Budgeted request (m₁ >>= fun _ => m₂)) (hs : s.Within request)
    (hf : ∀ a s', s'.Within request → Agree request (f a) (f' a) s') :
    Agree request (m₁ >>= fun _ => m₂ >>= f) (m₁ >>= fun _ => m₂ >>= f') s := by
  have hbind := (h.agree hs).bind fun a s' _ hs' => hf a s' hs'
  simpa using hbind

/-- Two solvers that agree on every state of a depth. -/
def AgreeAt (request : ResolveRequest) (depth : Nat)
    (f g : SolverState → SolverM σ (Option SolverState)) : Prop :=
  ∀ st s, AtDepth request depth st → s.Within request → Agree request (f st) (g st) s

variable {f g : SolverState → SolverM σ (Option SolverState)} {p : PackageKey} {ds : List Dependency}

/-- Selecting a release and adding its dependencies leads one level down. -/
theorem AtDepth.select (h : AtDepth request depth st) (hp : Deciding st p) {sel : Selection}
    {next : SolverState}
    (hnext : next = (st.select p sel).withDependencies (some p) ds)
    (hsize : next.constraints.size ≤ request.limits.maxPackages) :
    AtDepth request (depth + 1) next where
  tight := hnext ▸ (h.tight.select p sel).withDependencies _ _
  depth := by
    rw [hnext, selected_withDependencies, SolverState.select, size_insert, if_neg, h.depth]
    rw [contains_eq_isSome_getElem?, hp.unselected]
    simp
  size := hsize
  constrained := by
    intro q hq
    rw [hnext, selected_withDependencies, SolverState.select, mem_insert,
      LawfulEqCmp.compare_eq_iff_eq] at hq
    have hst : q ∈ st.constraints := by
      rcases hq with rfl | hq
      · exact hp.constrained
      · exact h.constrained q hq
    rw [hnext, mem_withDependencies (h.tight.select p sel)]
    exact .inl hst

section

variable (src : ResolverSource σ) (hfg : AgreeAt request (depth + 1) f g)
  (hst : AtDepth request depth st) (hp : Deciding st p)
include hfg hst hp

theorem selectCandidate_agree (c : CatalogCandidate) (v : VerifiedCandidate) (hs : s.Within request) :
    Agree request (selectCandidate src request f st p c v) (selectCandidate src request g st p c v)
      s := by
  have htight := hst.tight.select p ⟨c, v⟩
  have hreject : ∀ reason, Budgeted request (do
      pushTrace request (.candidateRejected p c.version reason)
      discardCandidate src p c
      backtrack request p c.version
      return CandidateStep.continue' true : SolverM σ CandidateStep) := fun reason =>
    (pushTrace_budgeted).bind fun _ =>
      (discardCandidate_budgeted src p c).bind fun _ =>
        (backtrack_budgeted p c.version).bind fun _ => Budgeted.pure _
  refine ((pushTrace_budgeted).agree hs).bind fun _ s₁ _ hs₁ => ?_
  refine ((addDependencies_budgeted p _ _).agree hs₁).bind fun added s₂ hadds hs₂ => ?_
  have hadded := (wp_ok (addDependencies_keeps p _ _ htight s₁) hadds).2
  obtain ⟨next, cycle⟩ := added
  cases cycle with
  | some through => exact (hreject (.cycle through)).agree hs₂
  | none =>
    have hnext := hst.select hp hadded.1 (hadded.2.1 hst.size)
    refine (hfg next s₂ hnext hs₂).bind fun result s₃ _ hs₃ => ?_
    cases result with
    | some sol =>
      exact ((pushTrace_budgeted).bind fun _ => Budgeted.pure _).agree hs₃
    | none => exact (hreject .downstreamConflict).agree hs₃

theorem tryCandidate_agree (requirements : List VersionRequirement) (cat : AuthenticatedCatalog)
    (attempted : Bool) (c : CatalogCandidate) (hs : s.Within request) :
    Agree request (tryCandidate src request f st p requirements cat attempted c)
      (tryCandidate src request g st p requirements cat attempted c) s := by
  refine (considerCandidate_budgeted p c.version c.releaseId).agree_seq hs fun _ s₁ hs₁ => ?_
  split
  · exact ((pushTrace_budgeted).bind fun _ => Budgeted.pure _).agree hs₁
  · refine ((verifiedCandidate_budgeted src cat c).agree hs₁).bind fun result s₂ _ hs₂ => ?_
    cases result with
    | error failure =>
      refine Budgeted.agree ?_ hs₂
      refine (pushTrace_budgeted).bind fun _ => ?_
      exact Budgeted.get_bind fun _ => Budgeted.throw _
    | ok v =>
      dsimp only
      split
      · refine Budgeted.agree ?_ hs₂
        refine (pushTrace_budgeted).bind fun _ => ?_
        exact (discardCandidate_budgeted src p c).bind fun _ => Budgeted.pure _
      · exact selectCandidate_agree src hfg hst hp c v hs₂

/-- **The candidate loop.**  The induction is on the candidates still to try. -/
theorem tryCandidates_agree (requirements : List VersionRequirement) (cat : AuthenticatedCatalog)
    (candidates : List CatalogCandidate) : ∀ (attempted : Bool) (s : Solver σ), s.Within request →
      Agree request (tryCandidates src request f st p requirements cat attempted candidates)
        (tryCandidates src request g st p requirements cat attempted candidates) s := by
  induction candidates with
  | nil =>
    intro attempted s hs
    simp only [tryCandidates]
    refine Budgeted.agree ?_ hs
    split
    · refine Budgeted.bind (Budgeted.modify (fun _ => rfl) (fun _ => rfl)) fun _ => ?_
      exact (pushTrace_budgeted).bind fun _ => Budgeted.pure _
    · exact Budgeted.pure _
  | cons c candidates ih =>
    intro attempted s hs
    refine (tryCandidate_agree src hfg hst hp requirements cat attempted c hs).bind
      fun step s₁ _ hs₁ => ?_
    cases step with
    | solved sol => exact (Budgeted.pure _).agree hs₁
    | continue' attempted => exact ih attempted s₁ hs₁

end

theorem solveStep_agree (src : ResolverSource σ) (hfg : AgreeAt request (depth + 1) f g) :
    AgreeAt request depth (solveStep src request f) (solveStep src request g) := by
  intro st s hst hs
  unfold solveStep
  split
  · refine Budgeted.agree ?_ hs
    refine Budgeted.bind (Budgeted.modify (fun _ => rfl) (fun _ => rfl)) fun _ => ?_
    exact (pushTrace_budgeted).bind fun _ => Budgeted.pure _
  · split
    · exact (Budgeted.pure _).agree hs
    next q hnext =>
      refine ((catalog_budgeted src q).agree hs).bind fun cat s₁ _ hs₁ => ?_
      exact tryCandidates_agree src hfg hst (deciding_of_nextPackage hnext) _ cat _ false s₁ hs₁

/-- **The sentry never stops a run.**  The induction is on the levels `solve` still has; at the last
one a state of that depth would have more selected than constrained packages. -/
theorem solveWatched_agree (src : ResolverSource σ) (request : ResolveRequest) (bound : Nat) :
    ∀ fuel depth, bound ≤ fuel → depth + bound = request.limits.maxPackages + 2 →
      AgreeAt request depth (solveWatched src request fuel depth) (solve src request bound) := by
  induction bound with
  | zero =>
    intro fuel depth _ hdepth st s hst
    have := hst.depth_le
    omega
  | succ bound ih =>
    intro fuel depth hfuel hdepth st s hst hs
    obtain ⟨fuel, rfl⟩ : ∃ n, fuel = n + 1 := ⟨fuel - 1, by omega⟩
    have hstep := solveStep_agree src (ih fuel (depth + 1) (by omega) (by omega)) st s hst hs
    have hsentry : SentryPasses request depth st s := ⟨hst.depth_le, hst.size, hs⟩
    refine ⟨?_, hstep.2⟩
    rw [solve_succ, ← hstep.1]
    show exec (if SentryPasses request depth st s then _ else _) s = _
    rw [if_pos hsentry]

/-! ### Whole runs -/

/-- `resolve_packages` with the watched solver. -/
def resolveWatched (src : ResolverSource σ) (validateResolutionSchema : Resolution → Except String Unit)
    (fuel : Nat) (source : σ) (request : ResolveRequest) : Except ResolveError Resolution × Solver σ :=
  match validateLimits request.limits with
  | .error e => (.error e, initialSolver source)
  | .ok () => exec (resolveBodyWith (solveWatched src request fuel 1) validateResolutionSchema request)
      (initialSolver source)

theorem atDepth_root (request : ResolveRequest) {root : SolverState}
    (hroot : root = initialState.withDependencies none ds)
    (hsize : root.constraints.size ≤ request.limits.maxPackages) : AtDepth request 1 root where
  tight := hroot ▸ initialState_tight.withDependencies _ _
  depth := by
    rw [hroot, selected_withDependencies]
    rfl
  size := hsize
  constrained := by
    intro p hp
    rw [hroot, selected_withDependencies] at hp
    simp [initialState] at hp

theorem resolveBodyWith_agree (validate : Resolution → Except String Unit)
    (hfg : AgreeAt request 1 f g) (hs : s.Within request) :
    Agree request (resolveBodyWith f validate request) (resolveBodyWith g validate request) s := by
  have hempty : initialState.constraints.size ≤ request.limits.maxPackages := Nat.zero_le _
  refine ((addRootDependencies_budgeted _ _).agree hs).bind fun root s₁ hadds hs₁ => ?_
  obtain ⟨-, hroot, hsize⟩ := wp_ok (addRootDependencies_keeps _ _ hempty s) hadds
  refine (hfg root s₁ (atDepth_root request hroot hsize) hs₁).bind fun result s₂ _ hs₂ => ?_
  refine Budgeted.agree ?_ hs₂
  cases result with
  | some sol =>
    refine Budgeted.get_bind fun s => ?_
    dsimp only
    split
    · exact Budgeted.throw _
    · exact Budgeted.pure _
  | none =>
    refine Budgeted.get_bind fun s => ?_
    refine (pushTrace_budgeted).bind fun _ => ?_
    exact Budgeted.get_bind fun _ => Budgeted.throw _

theorem initialSolver_within (x : σ) (request : ResolveRequest) : (initialSolver x).Within request :=
  ⟨Nat.le_refl 0, Nat.zero_le _, Nat.zero_le _⟩

/-- **Termination and budgets.**  For every source and every request: a run ends without the
recursion bound of the model; watched at every call of `solve`, with however much recursion it is
allowed, it is the same run; at its end the counters are within the limits; `add_dependency` keeps a
state within the package limit; and the loop of `dependency_path_exists` ends. -/
theorem resolvePackages_budgets (src : ResolverSource σ)
    (validate : Resolution → Except String Unit) (x : σ) (request : ResolveRequest) :
    (resolvePackages src validate x request).1 ≠ .error .recursionBound ∧
      (∀ fuel, request.limits.maxPackages + 1 ≤ fuel →
        resolveWatched src validate fuel x request = resolvePackages src validate x request) ∧
      (resolvePackages src validate x request).2.Within request ∧
      (∀ (st : SolverState) from' d (s s' : Solver σ) next,
        st.constraints.size ≤ request.limits.maxPackages →
        exec (addDependency request st from' d) s = (.ok next, s') →
        next.constraints.size ≤ request.limits.maxPackages) ∧
      ∀ (st : SolverState) (start goal : PackageKey), start ≠ goal →
        ∃ rounds, searchLoop (successors st) goal rounds [start] [] =
          some (dependencyPathExists st start goal) := by
  have hinitial := initialSolver_within x request
  refine ⟨?_, ?_, ?_, ?_, fun st start goal hne => dependencyPathExists_ends st hne⟩
  · intro hbound
    have hrun := resolvePackages_run src validate x request
    rw [hbound] at hrun
    exact hrun.1 rfl
  · intro fuel hfuel
    cases hlimits : validateLimits request.limits with
    | error e => simp only [resolveWatched, resolvePackages, hlimits]
    | ok _ =>
      have hwatched := solveWatched_agree src request (request.limits.maxPackages + 1) fuel 1 hfuel
        (by omega)
      simp only [resolveWatched, resolvePackages, hlimits]
      exact (resolveBodyWith_agree validate hwatched hinitial).1
  · unfold resolvePackages
    split
    · exact hinitial
    · have hwatched := solveWatched_agree src request (request.limits.maxPackages + 1) _ 1 le_rfl
        (by omega)
      exact (resolveBodyWith_agree validate hwatched hinitial).2
  · intro st from' d s s' next hsize hadds
    exact (wp_ok (addDependency_keeps st from' d s) hadds).2.2 hsize

end Axiomc.Package
