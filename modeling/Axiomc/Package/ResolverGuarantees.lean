import Axiomc.Package.ResolverSearch

/-!
# Guarantees of `resolve_packages`

The theorems about whole runs, for every source and every request.

* `resolvePackages_run`: every run ends in one of the outcomes of `RunOutcome`, and the recursion
  bound of the model is not one of them;
* `resolvePackages_sound`: a resolution has one entry for each package, its edges are the root
  dependencies and the dependencies of the selected manifests, every requirement is met, and the
  frozen map and the yank rule are respected;
* `resolvePackages_protocol`: the order of the calls on the source, and that a failure is final;
* `resolvePackages_complete`: with an honest source a conflict excludes every solution, and outside
  locked mode the decisions are optimal, one after the other.
-/

namespace Axiomc.Package

open Std Relation Axiomc.Foundation TreeMap List Constraint

variable {σ : Type}

/-! ### Outcomes of a run -/

/-- The state in which the search starts. -/
def rootState (request : ResolveRequest) : SolverState :=
  initialState.withDependencies none (sortBy dependencyOrder request.dependencies)

/-- How a run can end. -/
def RunOutcome (src : ResolverSource σ) (x : σ) (request : ResolveRequest) :
    Except ResolveError Resolution → Solver σ → Prop
  | .ok r, s => ∃ sol ds, Inv src x request ∅ (recorded ds) sol s ∧
    Solved src request (rootState request) sol ds ∧ r = finish s.trace sol
  | .error e, s => e ≠ .recursionBound ∧ Protocol request s.calls ∧
    ((∃ p requirements trace, e = .conflict p requirements trace) →
      Unsolvable src request (rootState request))

variable {request : ResolveRequest} {p : PackageKey} {sol : SolverState}
  {src : ResolverSource σ} {trace : List TraceEvent}

theorem Stopped.outcome {x : σ} {e : ResolveError} {s : Solver σ} (h : Stopped request e s) :
    RunOutcome src x request (.error e) s := by
  obtain ⟨hraised, hprotocol⟩ := h
  refine ⟨?_, hprotocol, ?_⟩
  · rintro rfl
    exact hraised
  · rintro ⟨p, requirements, trace, rfl⟩
    exact hraised.elim

section

variable (src : ResolverSource σ) (validate : Resolution → Except String Unit) (x : σ)
  (request : ResolveRequest)

theorem resolveBody_outcome :
    wp (resolveBody src validate request) (fun r s => RunOutcome src x request (.ok r) s)
      (fun e s => RunOutcome src x request (.error e) s) (initialSolver x) := by
  unfold resolveBody
  have hempty : initialState.constraints.size ≤ request.limits.maxPackages := Nat.zero_le _
  rw [wp_bind]
  refine wp_mono (addRootDependencies_keeps _ _ hempty (initialSolver x)) ?_ ?_
  · rintro root s - ⟨hb, rfl, hsize⟩
    have h := inv_initial src x request (sortBy_perm dependencyOrder request.dependencies) hsize hb
    rw [wp_bind]
    refine wp_mono (solve_searches src x request _ ∅ [] _ s h (by omega)) ?_
      (fun e s' _ he => he.outcome)
    intro result s' _ hresult
    cases result with
    | some sol =>
      obtain ⟨ds, h', hsolved⟩ := hresult
      rw [append_nil] at h'
      dsimp only
      rw [wp_bind, wp_get]
      split
      · exact Stopped.outcome (x := x) ⟨trivial, h'.called.protocol⟩
      · exact ⟨sol, ds, h', hsolved, rfl⟩
    | none =>
      obtain ⟨h', hunsolvable⟩ := hresult
      rw [wp_bind, wp_get, wp_bind]
      refine wp_mono (pushTrace_keeps (by exact trivial) s') ?_ ?_
      · rintro ⟨⟩ s'' - ⟨hb', -⟩
        refine ⟨by simp, ?_, fun _ => hunsolvable⟩
        exact hb'.calls ▸ h'.called.protocol
      · rintro e s'' - ⟨hb', he⟩
        exact Stopped.outcome ⟨he, hb'.calls ▸ h'.called.protocol⟩
  · rintro e s - ⟨hb, he⟩
    exact Stopped.outcome ⟨he, hb.calls ▸ Protocol.nil request⟩

/-- **Runs.**  Every run of `resolve_packages` ends in one of the outcomes; in particular the
recursion bound of the model is never reached. -/
theorem resolvePackages_run : RunOutcome src x request (resolvePackages src validate x request).1
      (resolvePackages src validate x request).2 := by
  unfold resolvePackages
  split
  next e he =>
    have hraised : e.Raised := by
      simp only [validateLimits] at he
      split at he
      · cases he
        trivial
      · cases he
    exact Stopped.outcome ⟨hraised, .nil request⟩
  next =>
    have h := resolveBody_outcome src validate x request
    unfold wp at h
    cases hrun : exec (resolveBody src validate request) (initialSolver x) with
    | mk result s =>
      rw [hrun] at h
      cases result with
      | ok r => exact h
      | error e => exact h

end

/-! ### Soundness -/

/-- The registry dependency an edge stands for, with the package whose manifest has it. -/
def ResolvedEdge.dependency (e : ResolvedEdge) : Option PackageKey × RegistryDependency :=
  (e.from', ⟨e.alias', e.to', e.requirement⟩)

/-- The registry dependencies of the root and of a list of manifests. -/
def requiredEdges (request : ResolveRequest) (manifests : List (PackageKey × VerifiedCandidate)) :
    List (Option PackageKey × RegistryDependency) :=
  (registryDependencies request.dependencies).map (none, ·) ++
    manifests.flatMap fun entry => (registryDependencies entry.2.dependencies).map (some entry.1, ·)

/-- What a resolution guarantees, given the calls made on the source. -/
structure SoundResolution (request : ResolveRequest) (calls : List SourceCall) (r : Resolution) :
    Prop where
  unique : (r.packages.map (·.package)).Nodup
  edges : ∃ manifestOf : PackageKey → VerifiedCandidate,
    (∀ pkg ∈ r.packages, ∃ catalog candidate, catalog.package = pkg.package ∧
      candidate.version = pkg.version ∧ candidate.releaseId = pkg.releaseId ∧
      .verify catalog candidate (.ok (manifestOf pkg.package)) ∈ calls) ∧
    (r.edges.map ResolvedEdge.dependency).Perm
      (requiredEdges request (r.packages.map fun pkg => (pkg.package, manifestOf pkg.package)))
  targets : ∀ e ∈ r.edges, ∃ pkg ∈ r.packages, pkg.package = e.to' ∧ pkg.version = e.selected ∧
    e.requirement.matches' pkg.version = true
  listed : ∀ pkg ∈ r.packages, ∃ catalog, .authenticate pkg.package (.ok catalog) ∈ calls ∧
    ⟨pkg.version, pkg.yanked, pkg.releaseId⟩ ∈ catalog.candidates
  frozen : ∀ pkg ∈ r.packages, FrozenRespected request pkg.package pkg.version
  yanked : ∀ pkg ∈ r.packages, pkg.yanked = true → YankReplay request pkg.package pkg.version

theorem nextPackage_none {st : SolverState} (h : nextPackage st = none)
    (hp : p ∈ st.constraints) : ∃ sel, st.selected[p]? = some sel := by
  have hsel := find?_eq_none.mp h p (mem_keys.mpr hp)
  rw [Bool.not_eq_true, Bool.not_eq_false', contains_eq_isSome_getElem?] at hsel
  exact Option.isSome_iff_exists.mp hsel

/-- The edge a constraint on `p` turns into, without the selected version. -/
def Constraint.dependency (p : PackageKey) (c : Constraint) :
    Option PackageKey × RegistryDependency :=
  (c.from', ⟨c.alias', p, c.requirement⟩)

theorem map_dependency_constraintsFrom (from' : Option PackageKey) (ds : List Dependency)
    (p : PackageKey) : (constraintsFrom from' ds p).map (dependency p) =
      ((registryDependencies ds).map (from', ·)).filter fun e => e.2.package = p := by
  unfold constraintsFrom
  induction registryDependencies ds with
  | nil => rfl
  | cons r rs ih =>
    by_cases hr : r.package = p
    · subst hr
      simpa [dependency] using ih
    · simpa [hr] using ih

/-- The constraints required on a package are the required edges into it. -/
theorem map_dependency_requiredOn (request : ResolveRequest)
    (selected : TreeMap PackageKey Selection) (p : PackageKey) :
    (requiredOn request selected p).map (dependency p) =
      (requiredEdges request (selected.toList.map fun entry => (entry.1, entry.2.verified))).filter
        fun e => e.2.package = p := by
  simp only [requiredOn, requiredEdges, map_append, filter_append, map_flatMap,
    flatMap_map, filter_flatMap, map_dependency_constraintsFrom]

theorem edgesInto_eq (hcomplete : nextPackage sol = none)
    {cs : List Constraint} (hentry : (p, cs) ∈ sol.constraints.toList) :
    cs = sol.constraintsOn p ∧ ∃ sel, sol.selected[p]? = some sel ∧ edgesInto sol p cs = cs.map fun c =>
        ⟨c.from', c.alias', p, c.requirement, sel.candidate.version⟩ := by
  have hcs := mem_toList_iff_getElem?_eq_some.mp hentry
  have hp : p ∈ sol.constraints := mem_iff_isSome_getElem?.mpr (by rw [hcs]; rfl)
  obtain ⟨sel, hsel⟩ := nextPackage_none hcomplete hp
  refine ⟨?_, sel, hsel, ?_⟩
  · rw [SolverState.constraintsOn, getD_eq_getD_getElem?, hcs, Option.getD_some]
  · simp only [edgesInto, hsel]

/-- The edges of a finished state are the required ones. -/
theorem finish_edges_perm (hwf : WellFormed request sol) (hcomplete : nextPackage sol = none)
    (trace : List TraceEvent) : ((finish trace sol).edges.map ResolvedEdge.dependency).Perm
      (requiredEdges request (sol.selected.toList.map fun entry => (entry.1, entry.2.verified))) := by
  let required :=
    requiredEdges request (sol.selected.toList.map fun entry => (entry.1, entry.2.verified))
  have hentries : ∀ entry ∈ sol.constraints.toList,
      (edgesInto sol entry.1 entry.2).map ResolvedEdge.dependency =
        (sol.constraintsOn entry.1).map (dependency entry.1) := by
    rintro ⟨p, cs⟩ hentry
    obtain ⟨hcs, sel, -, hedges⟩ := edgesInto_eq hcomplete hentry
    simp only [hedges, ← hcs, List.map_map]
    rfl
  have hcovered : ∀ e ∈ required, e.2.package ∈ sol.constraints.keys := by
    intro e he
    rw [TreeMap.mem_keys, hwf.tight]
    intro hnil
    have hmem : e ∈ (requiredOn request sol.selected e.2.package).map (dependency e.2.package) := by
      rw [map_dependency_requiredOn]
      exact mem_filter.mpr ⟨he, by simp⟩
    rw [← ((hwf.exact e.2.package).map _).mem_iff, hnil] at hmem
    simp at hmem
  have hkeys : ((sol.constraints.toList.flatMap fun entry => edgesInto sol entry.1 entry.2).map
      ResolvedEdge.dependency) = sol.constraints.keys.flatMap fun p =>
        (sol.constraintsOn p).map (dependency p) := by
    rw [map_flatMap, flatMap_congr hentries, ← map_fst_toList_eq_keys, flatMap_map]
  have hfibers : (sol.constraints.keys.flatMap fun p =>
      (sol.constraintsOn p).map (dependency p)).Perm
      (sol.constraints.keys.flatMap fun p => required.filter fun e => e.2.package = p) :=
    List.Perm.flatMap_left _ fun p _ => by
      rw [← map_dependency_requiredOn]
      exact (hwf.exact p).map _
  refine ((sortBy_perm _ _).map _).trans ?_
  rw [hkeys]
  exact hfibers.trans
    (flatMap_fibers_perm (fun e : _ × RegistryDependency => e.2.package) _ _ nodup_keys
      hcovered)

/-- A package of a finished resolution comes from a selection. -/
theorem mem_finish_packages {pkg : ResolvedPackage} : pkg ∈ (finish trace sol).packages ↔
      ∃ p sel, sol.selected[p]? = some sel ∧ pkg = resolvedPackage p sel := by
  simp only [finish, mem_map]
  constructor
  · rintro ⟨⟨p, sel⟩, hmem, rfl⟩
    exact ⟨p, sel, mem_toList_iff_getElem?_eq_some.mp hmem, rfl⟩
  · rintro ⟨p, sel, hsel, rfl⟩
    exact ⟨(p, sel), mem_toList_iff_getElem?_eq_some.mpr hsel, rfl⟩

/-- An edge of a finished resolution ends in a selected package, whose version meets it. -/
theorem mem_finish_edges
    (hcomplete : nextPackage sol = none) (hconsistent : selectedConflict sol = none)
    {e : ResolvedEdge} (he : e ∈ (finish trace sol).edges) :
    ∃ sel, sol.selected[e.to']? = some sel ∧ e.selected = sel.candidate.version ∧
      e.requirement.matches' sel.candidate.version = true := by
  simp only [finish, mem_sortBy, mem_flatMap] at he
  obtain ⟨⟨p, cs⟩, hentry, he⟩ := he
  obtain ⟨hcs, sel, hsel, hedges⟩ := edgesInto_eq hcomplete hentry
  rw [hedges, mem_map] at he
  obtain ⟨c, hc, rfl⟩ := he
  exact ⟨sel, hsel, rfl, selectedConflict_none hconsistent hsel (hcs ▸ hc)⟩

/-- **Soundness.**  What `resolve_packages` returns is a sound resolution of the request. -/
theorem resolvePackages_sound (src : ResolverSource σ)
    (validate : Resolution → Except String Unit) (x : σ) (request : ResolveRequest)
    (r : Resolution) (h : (resolvePackages src validate x request).1 = .ok r) :
    SoundResolution request (resolvePackages src validate x request).2.calls r := by
  have hrun := resolvePackages_run src validate x request
  rw [h] at hrun
  obtain ⟨sol, ds, hinv, hsolved, rfl⟩ := hrun
  have hpackages : ∀ pkg ∈ (finish (resolvePackages src validate x request).2.trace sol).packages,
      ∃ p sel, pkg = resolvedPackage p sel ∧ sol.selected[p]? = some sel ∧
        Supported request (resolvePackages src validate x request).2.calls p sel := by
    intro pkg hpkg
    obtain ⟨p, sel, hsel, rfl⟩ := mem_finish_packages.mp hpkg
    exact ⟨p, sel, rfl, hsel, hinv.supported p sel hsel⟩
  constructor
  · simp only [finish, List.map_map, Function.comp_def, resolvedPackage]
    rw [map_fst_toList_eq_keys]
    exact nodup_keys
  · let manifestOf : PackageKey → VerifiedCandidate := fun p =>
      (sol.selected[p]?.map (·.verified)).getD ⟨p, ⟨0, 0, 0⟩, "", [], "", [], "", ""⟩
    refine ⟨manifestOf, ?_, ?_⟩
    · intro pkg hpkg
      obtain ⟨p, sel, rfl, hsel, cat, hcat, -, -, hverify, -⟩ := hpackages pkg hpkg
      refine ⟨cat, sel.candidate, hcat, rfl, rfl, ?_⟩
      simpa [manifestOf, resolvedPackage, hsel] using hverify
    · have hmanifests : ((finish (resolvePackages src validate x request).2.trace sol).packages.map
          fun pkg => (pkg.package, manifestOf pkg.package)) =
          sol.selected.toList.map fun entry => (entry.1, entry.2.verified) := by
        simp only [finish, List.map_map]
        refine List.map_congr_left fun entry hentry => ?_
        have hsel := mem_toList_iff_getElem?_eq_some.mp hentry
        simp [manifestOf, resolvedPackage, hsel]
      rw [hmanifests]
      exact finish_edges_perm hinv.wellFormed hsolved.complete _
  · intro e he
    obtain ⟨sel, hsel, hversion, hmatch⟩ :=
      mem_finish_edges hsolved.complete hsolved.consistent he
    exact ⟨_, mem_finish_packages.mpr ⟨e.to', sel, hsel, rfl⟩, rfl, hversion.symm, hmatch⟩
  · intro pkg hpkg
    obtain ⟨p, sel, rfl, -, cat, -, hauth, hmem, -⟩ := hpackages pkg hpkg
    exact ⟨cat, hauth, hmem⟩
  · intro pkg hpkg
    obtain ⟨p, sel, rfl, -, cat, -, -, -, -, -, hfrozen, -⟩ := hpackages pkg hpkg
    exact hfrozen
  · intro pkg hpkg
    obtain ⟨p, sel, rfl, -, cat, -, -, -, -, -, -, hyanked⟩ := hpackages pkg hpkg
    exact hyanked

/-- A world in which every package has two releases and `a` depends on `b`. -/
def pairWorld : World where
  catalogOf package :=
    ⟨package, [⟨⟨1, 0, 0⟩, false, "first"⟩, ⟨⟨1, 1, 0⟩, false, "second"⟩], "index"⟩
  manifestOf catalog candidate :=
    ⟨catalog.package, candidate.version, candidate.releaseId,
      if catalog.package.name = "a" then
        [.registry ⟨"b", ⟨"main", "index", "acme", "b"⟩, .exact ⟨1, 0, 0⟩⟩] else [],
      "sha", [], "2024", "stage1"⟩

/-- A request for `a`. -/
def pairRequest : ResolveRequest :=
  ⟨[.registry ⟨"a", ⟨"main", "index", "acme", "a"⟩, .caret ⟨1, 0, 0⟩⟩], ∅, ∅, .fresh, .default⟩

/-- The resolution of that request. -/
def pairRun : Except ResolveError Resolution × Solver Unit :=
  resolvePackages pairWorld.source (fun _ => .ok ()) () pairRequest

theorem pairRun_ok : ∃ r, pairRun.1 = .ok r ∧ r.packages.length = 2 := by
  have hok : ∃ r ∈ pairRun.1.toOption, r.packages.length = 2 := by decide +kernel
  obtain ⟨r, hr, hlength⟩ := hok
  cases hresult : pairRun.1 with
  | ok r' =>
    rw [hresult] at hr
    obtain rfl : r' = r := Option.some.inj hr
    exact ⟨r', rfl, hlength⟩
  | error e =>
    rw [hresult] at hr
    cases hr

theorem pairRun_sound : ∃ r, pairRun.1 = .ok r ∧ r.packages.length = 2 ∧
      SoundResolution pairRequest pairRun.2.calls r := by
  obtain ⟨r, hr, hlength⟩ := pairRun_ok
  exact ⟨r, hr, hlength, resolvePackages_sound _ _ _ _ r hr⟩

/-! ### Calls -/

/-- **Call protocol.**  In every run each call on the source is admissible after the calls before
it, no call follows a failed one, and a run with a failed call ends in an error. -/
theorem resolvePackages_protocol (src : ResolverSource σ)
    (validate : Resolution → Except String Unit) (x : σ) (request : ResolveRequest) :
    Protocol request (resolvePackages src validate x request).2.calls ∧
      ((∀ call ∈ (resolvePackages src validate x request).2.calls, ¬ call.Failed) ∨
        ∃ e, (resolvePackages src validate x request).1 = .error e) := by
  have h := resolvePackages_run src validate x request
  cases hresult : (resolvePackages src validate x request).1 with
  | ok r =>
    rw [hresult] at h
    obtain ⟨sol, ds, hinv, -⟩ := h
    exact ⟨hinv.called.protocol, .inl hinv.called.clean⟩
  | error e =>
    rw [hresult] at h
    exact ⟨h.2.1, .inr ⟨e, rfl⟩⟩

/-! ### Completeness and preference -/

/-- The least package among the root registry dependencies. -/
def LeastRoot (request : ResolveRequest) (p : PackageKey) : Prop :=
  (∃ r ∈ registryDependencies request.dependencies, r.package = p) ∧
    ∀ r ∈ registryDependencies request.dependencies, compare p r.package ≠ .gt

@[simp] theorem rootState_selected (request : ResolveRequest) (p : PackageKey) :
    (rootState request).selected[p]? = none := by
  rw [rootState]
  simp [initialState]

theorem mem_rootState_constraints : p ∈ (rootState request).constraints ↔
      ∃ r ∈ registryDependencies request.dependencies, r.package = p := by
  have htight := initialState_tight
  have hperm := (sortBy_perm dependencyOrder request.dependencies).filterMap Dependency.registry?
  rw [rootState, mem_withDependencies htight]
  simp only [initialState, not_mem_emptyc, false_or]
  constructor
  · rintro ⟨r, hr, hp⟩
    exact ⟨r, hperm.mem_iff.mp hr, hp⟩
  · rintro ⟨r, hr, hp⟩
    exact ⟨r, hperm.mem_iff.mpr hr, hp⟩

/-- The first package decided is the least root package. -/
theorem nextPackage_rootState
    (hp : LeastRoot request p) : nextPackage (rootState request) = some p := by
  have hall : ∀ q, (!(rootState request).selected.contains q) = true := by
    intro q
    rw [contains_eq_isSome_getElem?, rootState_selected]
    rfl
  have hmem : p ∈ (rootState request).constraints.keys :=
    mem_keys.mpr (mem_rootState_constraints.mpr hp.1)
  have hordered := ordered_keys (t := (rootState request).constraints)
  rw [nextPackage]
  cases hkeys : (rootState request).constraints.keys with
  | nil => simp [hkeys] at hmem
  | cons q qs =>
    rw [find?_cons, hall q]
    rw [hkeys] at hmem hordered
    rcases mem_cons.mp hmem with rfl | hlater
    · rfl
    · -- a smaller key in front would be a smaller root package
      have hlt := rel_of_pairwise_cons hordered hlater
      have hq : q ∈ (rootState request).constraints :=
        mem_keys.mp (by rw [hkeys]; exact mem_cons_self)
      obtain ⟨r, hr, rfl⟩ := mem_rootState_constraints.mp hq
      exact absurd (OrientedCmp.gt_of_lt hlt) (hp.2 r hr)

/-- The decisions of a run are its packages. -/
theorem Solved.decisions_perm {ds : List (PackageKey × CatalogCandidate)}
    (h : Solved src request (rootState request) sol ds) (trace : List TraceEvent) :
    (recorded ds).Perm ((finish trace sol).packages.map fun pkg => (pkg.package, pkg.version)) := by
  have hmap : ((finish trace sol).packages.map fun pkg => (pkg.package, pkg.version)) =
      sol.selected.toList.map fun entry => (entry.1, entry.2.candidate.version) := by
    simp only [finish, List.map_map]
    rfl
  have hkeys : (sol.selected.toList.map Prod.fst).Nodup := by
    rw [map_fst_toList_eq_keys]
    exact nodup_keys
  rw [hmap, perm_ext_iff_of_nodup]
  · rintro ⟨p, v⟩
    simp only [recorded, List.mem_map, Prod.mk.injEq]
    constructor
    · rintro ⟨⟨q, c⟩, hmem, rfl, rfl⟩
      obtain ⟨sel, hsel, rfl⟩ := h.decided q c hmem
      exact ⟨(q, sel), mem_toList_iff_getElem?_eq_some.mpr hsel, rfl, rfl⟩
    · rintro ⟨⟨q, sel⟩, hmem, rfl, rfl⟩
      have hsel := mem_toList_iff_getElem?_eq_some.mp hmem
      rcases h.covered q sel hsel with hroot | hmem
      · rw [rootState_selected] at hroot
        cases hroot
      · exact ⟨(q, sel.candidate), hmem, rfl, rfl⟩
  · refine List.Nodup.of_map Prod.fst ?_
    simpa [recorded, Function.comp_def] using h.nodup
  · refine List.Nodup.of_map Prod.fst ?_
    simpa [Function.comp_def] using hkeys

/-- **Completeness and preference.**  When the source is honest, a conflict is reported only if no
solution exists.  Outside locked mode the decisions of a resolution start with the least root
package, and no solution that shares the versions of the earlier decisions gives the next decided
package a higher version. -/
theorem resolvePackages_complete (src : ResolverSource σ)
    (validate : Resolution → Except String Unit) (x : σ) (request : ResolveRequest)
    (world : World) (hw : Honest src world) : (∀ p requirements trace,
      (resolvePackages src validate x request).1 = .error (.conflict p requirements trace) →
      ∀ A, ¬ Solution world request A) ∧
    (∀ r, (resolvePackages src validate x request).1 = .ok r → request.mode ≠ .locked →
      (decisions r.trace).Perm (r.packages.map fun pkg => (pkg.package, pkg.version)) ∧
      (∀ p, LeastRoot request p → ∃ v later, decisions r.trace = (p, v) :: later) ∧
      ∀ A, Solution world request A → ∀ earlier p v later,
        decisions r.trace = earlier ++ (p, v) :: later →
        (∀ decision ∈ earlier, (A decision.1).version = decision.2) → ¬ v < (A p).version) := by
  have hrun := resolvePackages_run src validate x request
  have hagrees : ∀ A : Assignment, Agrees A (rootState request) := by
    intro A p sel hsel
    rw [rootState_selected] at hsel
    cases hsel
  constructor
  · intro p requirements trace herr A hsol
    rw [herr] at hrun
    exact hrun.2.2 ⟨p, requirements, trace, rfl⟩ world hw A hsol (hagrees A)
  · intro r hok hmode
    rw [hok] at hrun
    obtain ⟨sol, ds, hinv, hsolved, rfl⟩ := hrun
    have hdecided : decisions (finish (resolvePackages src validate x request).2.trace sol).trace =
        recorded ds := hinv.decided
    rw [hdecided]
    refine ⟨hsolved.decisions_perm _, ?_, ?_⟩
    · intro p hp
      have hfirst := hsolved.first
      rw [nextPackage_rootState hp] at hfirst
      cases ds with
      | nil => cases hfirst
      | cons decision ds =>
        obtain ⟨q, c⟩ := decision
        obtain rfl : q = p := Option.some.inj hfirst
        exact ⟨c.version, recorded ds, rfl⟩
    · intro A hsol earlier p v later hsplit hearlier
      obtain ⟨earlier', tail', rfl, rfl, htail⟩ := map_eq_append_iff.mp hsplit
      obtain ⟨⟨q, c⟩, later', rfl, heq, -⟩ := map_eq_cons_iff.mp htail
      obtain ⟨rfl, rfl⟩ := heq
      refine hsolved.optimal hmode world hw A hsol (hagrees A) earlier' q c later' rfl ?_
      intro decision hmem
      exact hearlier (decision.1, decision.2.version) (mem_map_of_mem hmem)

theorem pairRun_complete : Honest pairWorld.source pairWorld ∧
    (∀ p requirements trace, pairRun.1 = .error (.conflict p requirements trace) →
      ∀ A, ¬ Solution pairWorld pairRequest A) ∧
    (∀ r, pairRun.1 = .ok r → pairRequest.mode ≠ .locked →
      (decisions r.trace).Perm (r.packages.map fun pkg => (pkg.package, pkg.version)) ∧
      (∀ p, LeastRoot pairRequest p → ∃ v later, decisions r.trace = (p, v) :: later) ∧
      ∀ A, Solution pairWorld pairRequest A → ∀ earlier p v later,
        decisions r.trace = earlier ++ (p, v) :: later →
        (∀ decision ∈ earlier, (A decision.1).version = decision.2) → ¬ v < (A p).version) := by
  have hhonest : Honest pairWorld.source pairWorld :=
    World.honest_source (fun _ => rfl) fun _ _ => ⟨rfl, rfl, rfl⟩
  exact ⟨hhonest, resolvePackages_complete _ _ _ _ _ hhonest⟩

end Axiomc.Package
