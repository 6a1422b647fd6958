import Axiomc.Foundation.Fallible
import Axiomc.Foundation.Reachability
import Axiomc.Package.ResolverTypes

/-!
# The package resolver

The embedding of `resolve_packages` and of the methods of `Solver` in `package_resolver.rs`.  A
method that mutates the solver and returns `Result` is a `Fallible` computation over `Solver σ`,
so the trace, the caches and the call history survive an early return.  The request never changes
during a run and is a parameter, as is the behaviour of the source.

`solve` recurses once for every package it selects.  Its first argument bounds that recursion; the
run starts with `max_packages + 1`, one more than the number of packages a state can constrain.
The JSON-schema check of the finished resolution is an external validator and stays a parameter.
-/

namespace Axiomc.Package

open Std Axiomc.Foundation

variable {σ : Type}

/-- Methods of `Solver`. -/
abbrev SolverM (σ α : Type) := Fallible ResolveError (Solver σ) α

/-- `validate_limits`. -/
def validateLimits (limits : ResolverLimits) : Except ResolveError Unit :=
  if limits.maxPackages == 0 || limits.maxCatalogCandidates == 0
      || limits.maxCandidateAttempts == 0 || limits.maxBacktracks == 0
      || limits.maxTraceEvents == 0 then
    .error (.invalidRequest "resolver budgets must all be positive")
  else .ok ()

/-- `dependency_key`. -/
def dependencyKey : Dependency → Nat × String × String
  | .registry dependency => (0, dependency.package.display, dependency.alias')
  | .path dependency => (1, dependency.path, dependency.alias')

/-- `dependency_order`. -/
def dependencyOrder : Dependency → Dependency → Ordering :=
  compareLex (compareOn fun d => (dependencyKey d).1)
    (compareLex (compareOn fun d => (dependencyKey d).2.1)
      (compareOn fun d => (dependencyKey d).2.2))

/-- `Solver::budget_error`. -/
def budgetError (s : Solver σ) (budget : String) (limit : Nat) : ResolveError :=
  .budgetExceeded budget limit s.trace

variable (src : ResolverSource σ) (request : ResolveRequest)

/-- `Solver::push_trace`. -/
def pushTrace (event : TraceEvent) : SolverM σ Unit := do
  let s ← get
  if s.trace.length ≥ request.limits.maxTraceEvents then
    throw (budgetError s "trace events" request.limits.maxTraceEvents)
  modify fun s => { s with trace := s.trace ++ [event] }

/-- `Solver::backtrack`. -/
def backtrack (package : PackageKey) (version : ReleaseVersion) : SolverM σ Unit := do
  let s ← get
  if s.backtracks ≥ request.limits.maxBacktracks then
    throw (budgetError s "backtracks" request.limits.maxBacktracks)
  modify fun s => { s with backtracks := s.backtracks + 1 }
  pushTrace request (.backtracked package version)

/-- `Solver::bump_candidate_attempts`. -/
def bumpCandidateAttempts : SolverM σ Unit := do
  let s ← get
  if s.candidateAttempts ≥ request.limits.maxCandidateAttempts then
    throw (budgetError s "candidate attempts" request.limits.maxCandidateAttempts)
  modify fun s => { s with candidateAttempts := s.candidateAttempts + 1 }

/-- The constraints on a package, the empty list when there are none. -/
def SolverState.constraintsOn (state : SolverState) (package : PackageKey) : List Constraint :=
  state.constraints.getD package []

/-- `entry(package).or_default().push(constraint)`. -/
def SolverState.pushConstraint (state : SolverState) (package : PackageKey)
    (constraint : Constraint) : SolverState :=
  { state with
    constraints := state.constraints.insert package (state.constraintsOn package ++ [constraint]) }

/-- What `Solver::add_dependency` records in the state. -/
def SolverState.withDependency (state : SolverState) (from' : Option PackageKey) :
    Dependency → SolverState
  | .path dependency =>
    { state with
      paths := state.paths.insert
        ⟨from', dependency.alias', dependency.path, dependency.version⟩ }
  | .registry dependency =>
    state.pushConstraint dependency.package ⟨from', dependency.alias', dependency.requirement⟩

/-- `Solver::add_dependency`. -/
def addDependency (state : SolverState) (from' : Option PackageKey) :
    Dependency → SolverM σ SolverState
  | .path dependency => do
    if dependency.alias'.isEmpty || dependency.path.isEmpty || dependency.path.contains '\x00' then
      throw (.invalidRequest "path dependency alias and path must be non-empty and NUL-free")
    pushTrace request (.pathPreserved from' dependency.alias' dependency.path)
    return state.withDependency from' (.path dependency)
  | .registry dependency => do
    if dependency.alias'.isEmpty || dependency.package.registry.isEmpty
        || dependency.package.source.isEmpty || dependency.package.namespace'.isEmpty
        || dependency.package.name.isEmpty then
      throw (.invalidRequest "registry dependency coordinates and alias must be non-empty")
    if !state.constraints.contains dependency.package
        && state.constraints.size ≥ request.limits.maxPackages then
      throw (budgetError (← get) "packages" request.limits.maxPackages)
    pushTrace request (.constraintAdded from' dependency.package dependency.requirement)
    return state.withDependency from' (.registry dependency)

/-- The version set of `Solver::catalog`: a row whose release identity is empty or whose version
was seen before is refused. -/
def catalogRowsValid : List CatalogCandidate → List ReleaseVersion → Bool
  | [], _ => true
  | candidate :: rest, versions =>
    if candidate.releaseId.isEmpty || versions.contains candidate.version then false
    else catalogRowsValid rest (candidate.version :: versions)

/-- `Solver::catalog`. -/
def catalog (src : ResolverSource σ) (request : ResolveRequest) (package : PackageKey) :
    SolverM σ AuthenticatedCatalog := do
  let s ← get
  match s.catalogs[package]? with
  | some catalog => return catalog
  | none =>
    let answer := src.authenticateCatalog s.source package
    modify fun s => { s with
      source := answer.2, calls := s.calls ++ [.authenticate package answer.1] }
    match answer.1 with
    | .error failure => throw (.source package failure s.trace)
    | .ok catalog =>
      if catalog.package ≠ package then
        throw (.invalidCatalog package
          ("catalog is bound to " ++ catalog.package.display ++ ", not " ++ package.display))
      if catalog.authenticationId.isEmpty then
        throw (.invalidCatalog package "catalog authentication identity must be non-empty")
      if !catalogRowsValid catalog.candidates [] then
        throw (.invalidCatalog package
          "release identities must be non-empty and versions unique")
      -- `checked_add` on `usize`
      if s.catalogCandidateCount + catalog.candidates.length ≥ 2 ^ 64 then
        throw (budgetError (← get) "catalog candidates" request.limits.maxCatalogCandidates)
      modify fun s => { s with
        catalogCandidateCount := s.catalogCandidateCount + catalog.candidates.length }
      if (← get).catalogCandidateCount > request.limits.maxCatalogCandidates then
        throw (budgetError (← get) "catalog candidates" request.limits.maxCatalogCandidates)
      pushTrace request
        (.catalogAuthenticated package catalog.authenticationId catalog.candidates.length)
      modify fun s => { s with catalogs := s.catalogs.insert package catalog }
      return catalog

/-- `Solver::verified_candidate`. -/
def verifiedCandidate (catalog : AuthenticatedCatalog)
    (candidate : CatalogCandidate) : SolverM σ (Except SourceFailure VerifiedCandidate) := do
  let key := CandidateCacheKey.of catalog.package candidate
  let s ← get
  match s.verified[key]? with
  | some cached => return cached
  | none =>
    let answer := src.verifyCandidate s.source catalog candidate
    modify fun s => { s with
      source := answer.2
      calls := s.calls ++ [.verify catalog candidate answer.1]
      verified := s.verified.insert key answer.1 }
    return answer.1

/-- `self.source.discard_candidate(&candidate)`, on behalf of `package`. -/
def discardCandidate (package : PackageKey) (candidate : CatalogCandidate) : SolverM σ Unit :=
  modify fun s => { s with
    source := src.discardCandidate s.source candidate
    calls := s.calls ++ [.discard package candidate] }

/-- `Solver::requirements_for`. -/
def requirementsFor (package : PackageKey) (state : SolverState) : List VersionRequirement :=
  (sortBy (compareOn VersionRequirement.display)
    ((state.constraintsOn package).map (·.requirement))).destutter (· ≠ ·)

/-- The targets of `state.constraints` that some constraint links from `package`, in key order. -/
def successors (state : SolverState) (package : PackageKey) : List PackageKey :=
  state.constraints.keys.filter fun target =>
    (state.constraintsOn target).any fun constraint => constraint.from' == some package

/-- `dependency_path_exists`: the work list is a stack of packages, searched depth first.  The
source loops until the stack is empty; the bound is enough rounds for that. -/
def dependencyPathExists (state : SolverState) (start goal : PackageKey) : Bool :=
  if start = goal then true
  else search (successors state) goal
    (state.constraints.size * (state.constraints.size + 1) + 1) [start] []

/-- `exact_locked_yank_replay` of `Solver::solve`. -/
def exactLockedYankReplay (package : PackageKey) (version : ReleaseVersion) : Bool :=
  let isLocked := (request.locked[package]?).any (·.version = version)
  let isFrozen := (request.frozen[package]?).any (·.version = version)
  match request.mode with
  | .fresh => false
  | .locked => isLocked || isFrozen
  | .update => isFrozen

/-- The order in which `Solver::solve` sorts the rows of a catalog: newest first, release identities
breaking ties. -/
def newestFirst : CatalogCandidate → CatalogCandidate → Ordering :=
  compareLex (fun left right => compare right.version left.version)
    (compareOn CatalogCandidate.releaseId)

/-- The candidates of a catalog in the order `Solver::solve` tries them: newest first, and the
locked version in front in locked mode. -/
def orderedCandidates (package : PackageKey)
    (candidates : List CatalogCandidate) : List CatalogCandidate :=
  let sorted := sortBy newestFirst candidates
  match request.mode, request.locked[package]? with
  | .locked, some locked =>
    sortBy (compareOn fun c => if c.version ≠ locked.version then 1 else 0) sorted
  | _, _ => sorted

/-- The first selected package with a constraint its version does not meet. -/
def selectedConflict (state : SolverState) : Option PackageKey :=
  (state.selected.toList.find? fun entry =>
    (state.constraintsOn entry.1).any fun constraint =>
      !constraint.requirement.matches' entry.2.candidate.version).map (·.1)

/-- The least constrained package that is not selected. -/
def nextPackage (state : SolverState) : Option PackageKey :=
  state.constraints.keys.find? fun package => !state.selected.contains package

/-- Why `Solver::solve` refuses a candidate before it is verified, if it does. -/
def earlyRejection (package : PackageKey)
    (requirements : List VersionRequirement) (candidate : CatalogCandidate) :
    Option CandidateRejection :=
  match (request.frozen[package]?).filter (fun frozen => candidate.version ≠ frozen.version) with
  | some frozen => some (.frozenMismatch frozen.version)
  | none =>
    if !requirements.all (·.matches' candidate.version) then some .constraintMismatch
    else if candidate.yanked && !exactLockedYankReplay request package candidate.version then
      some .yanked
    else none

/-- The loop over the dependencies of a verified candidate: it stops at the first registry
dependency that already reaches the candidate's package. -/
def addDependencies (request : ResolveRequest) (package : PackageKey) :
    List Dependency → SolverState → SolverM σ (SolverState × Option PackageKey)
  | [], next => return (next, none)
  | dependency :: rest, next => do
    match dependency.registry?.filter (fun r => dependencyPathExists next r.package package) with
    | some r => return (next, some r.package)
    | none =>
      let next ← addDependency request next (some package) dependency
      addDependencies request package rest next

/-- What one round of the candidate loop of `Solver::solve` leads to: `continue`, with the new
value of `attempted`, or `return Ok(Some(solution))`. -/
inductive CandidateStep where
  | continue' (attempted : Bool)
  | solved (solution : SolverState)

/-- The part of a round of the candidate loop that follows the verification: select the candidate,
add its dependencies and go on with `solveNext`, the recursive call. -/
def selectCandidate (solveNext : SolverState → SolverM σ (Option SolverState)) (state : SolverState)
    (package : PackageKey) (candidate : CatalogCandidate) (verified : VerifiedCandidate) :
    SolverM σ CandidateStep := do
  pushTrace request (.candidateVerified package candidate.version verified.manifestDigest)
  let selected : SolverState :=
    { state with selected := state.selected.insert package ⟨candidate, verified⟩ }
  match ← addDependencies request package (sortBy dependencyOrder verified.dependencies)
      selected with
  | (_, some through) =>
    pushTrace request (.candidateRejected package candidate.version (.cycle through))
    discardCandidate src package candidate
    backtrack request package candidate.version
    return .continue' true
  | (next, none) =>
    match ← solveNext next with
    | some solution =>
      pushTrace request (.selected package candidate.version)
      return .solved solution
    | none =>
      pushTrace request (.candidateRejected package candidate.version .downstreamConflict)
      discardCandidate src package candidate
      backtrack request package candidate.version
      return .continue' true

/-- One round of the candidate loop of `Solver::solve`. -/
def tryCandidate (solveNext : SolverState → SolverM σ (Option SolverState)) (state : SolverState)
    (package : PackageKey) (requirements : List VersionRequirement)
    (catalog : AuthenticatedCatalog) (attempted : Bool) (candidate : CatalogCandidate) :
    SolverM σ CandidateStep := do
  bumpCandidateAttempts request
  pushTrace request (.candidateConsidered package candidate.version candidate.releaseId)
  match earlyRejection request package requirements candidate with
  | some reason =>
    pushTrace request (.candidateRejected package candidate.version reason)
    return .continue' attempted
  | none =>
    match ← verifiedCandidate src catalog candidate with
    | .error failure =>
      pushTrace request
        (.candidateRejected package candidate.version (.verificationFailed failure.code))
      throw (.source package failure (← get).trace)
    | .ok verified =>
      if verified.package ≠ package || verified.version ≠ candidate.version
          || verified.releaseId ≠ candidate.releaseId then
        pushTrace request (.candidateRejected package candidate.version .identityMismatch)
        discardCandidate src package candidate
        return .continue' true
      selectCandidate src request solveNext state package candidate verified

/-- The candidate loop of `Solver::solve` and the conflict it reports when it is exhausted. -/
def tryCandidates (src : ResolverSource σ) (request : ResolveRequest)
    (solveNext : SolverState → SolverM σ (Option SolverState)) (state : SolverState)
    (package : PackageKey) (requirements : List VersionRequirement)
    (catalog : AuthenticatedCatalog) :
    Bool → List CatalogCandidate → SolverM σ (Option SolverState)
  | attempted, [] => do
    if attempted || !catalog.candidates.isEmpty then
      modify fun s => { s with lastConflict := some (package, requirements) }
      pushTrace request (.conflict package requirements)
    return none
  | attempted, candidate :: rest => do
    match ← tryCandidate src request solveNext state package requirements catalog attempted
        candidate with
    | .solved solution => return some solution
    | .continue' attempted =>
      tryCandidates src request solveNext state package requirements catalog attempted rest

/-- `Solver::solve`. -/
def solve (src : ResolverSource σ) (request : ResolveRequest) :
    Nat → SolverState → SolverM σ (Option SolverState)
  | 0, _ => throw .recursionBound
  | bound + 1, state =>
    match selectedConflict state with
    | some package => do
      let requirements := requirementsFor package state
      modify fun s => { s with lastConflict := some (package, requirements) }
      pushTrace request (.conflict package requirements)
      return none
    | none =>
      match nextPackage state with
      | none => return some state
      | some package => do
        let requirements := requirementsFor package state
        let catalog ← catalog src request package
        tryCandidates src request (solve src request bound) state package requirements catalog
          false (orderedCandidates request package catalog.candidates)

/-- The packages of `Solver::finish`. -/
def resolvedPackage (package : PackageKey) (selection : Selection) : ResolvedPackage where
  package := package
  version := selection.candidate.version
  releaseId := selection.candidate.releaseId
  manifestDigest := selection.verified.manifestDigest
  signerKeyIds := (sortBy compare selection.verified.signerKeyIds).destutter (· ≠ ·)
  edition := selection.verified.edition
  compatibility := selection.verified.compatibility
  yanked := selection.candidate.yanked

/-- The edges of `Solver::finish` into one package.  The source indexes `state.selected` by the
package; `solve` only returns a state in which every constrained package is selected. -/
def edgesInto (state : SolverState) (package : PackageKey) (constraints : List Constraint) :
    List ResolvedEdge :=
  match state.selected[package]? with
  | some selection => constraints.map fun c =>
    ⟨c.from', c.alias', package, c.requirement, selection.candidate.version⟩
  | none => []

/-- `Solver::finish`. -/
def finish (trace : List TraceEvent) (state : SolverState) : Resolution where
  schemaVersion := "axiom.package_resolution.v1"
  packages := state.selected.toList.map fun entry => resolvedPackage entry.1 entry.2
  edges := sortBy ResolvedEdge.cmp <|
    state.constraints.toList.flatMap fun entry => edgesInto state entry.1 entry.2
  pathDependencies := state.paths.toList
  trace := trace

/-- The loop of `resolve_packages` over the root dependencies. -/
def addRootDependencies (request : ResolveRequest) :
    List Dependency → SolverState → SolverM σ SolverState
  | [], state => return state
  | dependency :: rest, state => do
    let state ← addDependency request state none dependency
    addRootDependencies request rest state

/-- The solver `resolve_packages` starts from. -/
def initialSolver (source : σ) : Solver σ where
  source := source
  catalogs := ∅
  verified := ∅
  trace := []
  catalogCandidateCount := 0
  candidateAttempts := 0
  backtracks := 0
  lastConflict := none
  calls := []

/-- `SolverState::default()`. -/
def initialState : SolverState where
  constraints := ∅
  selected := ∅
  paths := ∅

/-- The body of `resolve_packages` after the limits are checked. -/
def resolveBody
    (validateResolutionSchema : Resolution → Except String Unit) (request : ResolveRequest) :
    SolverM σ Resolution := do
  let state ← addRootDependencies request (sortBy dependencyOrder request.dependencies)
    initialState
  match ← solve src request (request.limits.maxPackages + 1) state with
  | some solution =>
    let resolution := finish (← get).trace solution
    match validateResolutionSchema resolution with
    | .error message => throw (.invalidResolution message)
    | .ok () => return resolution
  | none =>
    let (package, requirements) := (← get).lastConflict.getD
      (state.constraints.keys.head?.getD ⟨"", "", "", "<root>"⟩, [])
    pushTrace request (.conflict package requirements)
    throw (.conflict package requirements (← get).trace)

/-- `resolve_packages`, with the solver it leaves behind. -/
def resolvePackages (validateResolutionSchema : Resolution → Except String Unit) (source : σ)
    (request : ResolveRequest) : Except ResolveError Resolution × Solver σ :=
  match validateLimits request.limits with
  | .error e => (.error e, initialSolver source)
  | .ok () => exec (resolveBody src validateResolutionSchema request) (initialSolver source)

end Axiomc.Package
