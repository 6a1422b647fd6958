import Axiomc.Package.ResolverArtifacts

/-!
# What a rejected candidate rules out

Each way in which `solve` gives up a candidate or a state is matched with the assignments it rules
out.  `Unsolvable` says that no solution agrees with the releases selected in a state, `Refuted`
that none of those that do gives a package a certain release.

* `unsolvable_of_selectedConflict`: a selected release that misses a constraint;
* `refuted_of_earlyRejection`: the frozen map, the requirements and the yank rule;
* `refuted_of_cycle`: a dependency that leads back to its own package;
* `unsolvable_of_refuted`: every candidate of the catalog is refuted;
* `Optimal.cons`: the first candidate that is not refuted is the best one, because the candidates
  are tried newest first.
-/

namespace Axiomc.Package

open Std Relation Axiomc.Foundation List

variable {σ : Type} {src : ResolverSource σ} {x : σ} {request : ResolveRequest}
  {base : TreeMap PackageKey AuthenticatedCatalog} {d : List (PackageKey × ReleaseVersion)}
  {st : SolverState} {s : Solver σ}
  {world : World} {A : Assignment} {p : PackageKey}

/-! ### Answers of an honest source -/

variable {calls : List SourceCall} {y : σ} {r : RegistryDependency} {sel : Selection} {c : Constraint}
  {cand : CatalogCandidate} {cat : AuthenticatedCatalog} {q : PackageKey} {v : VerifiedCandidate}

/-- What the source said, in some state, to a call with this result. -/
def SourceCall.Answered (src : ResolverSource σ) : SourceCall → Prop
  | .authenticate p result => ∃ z, result = (src.authenticateCatalog z p).1
  | .verify cat cand result => ∃ z, result = (src.verifyCandidate z cat cand).1
  | .discard _ _ => True

theorem History.answered (h : History src x calls y) : ∀ call ∈ calls, call.Answered src := by
  induction h with
  | nil => simp
  | authenticate q h ih | verify cat cand h ih =>
    exact forall_mem_append.2 ⟨ih, forall_mem_singleton.2 ⟨_, rfl⟩⟩
  | discard q cand h ih => exact forall_mem_append.2 ⟨ih, forall_mem_singleton.2 trivial⟩

/-- A catalog the solver cached is the published one. -/
theorem Called.catalog_published (h : Called src x request s) (hw : Honest src world)
    (hcat : s.catalogs[p]? = some cat) : cat = world.catalogOf p := by
  obtain ⟨z, hz⟩ := h.history.answered _ (h.catalog p cat hcat).2.1
  rw [hw.authenticate] at hz
  exact Except.ok.inj hz

/-- The manifests of the selected releases are the published ones. -/
def Published (world : World) (st : SolverState) : Prop :=
  ∀ q sel, st.selected[q]? = some sel →
    sel.verified = world.manifestOf (world.catalogOf q) sel.candidate

theorem Inv.published (h : Inv src x request base d st s) (hw : Honest src world) :
    Published world st := by
  intro q sel hsel
  obtain ⟨cat, -, hauth, -, hverify, -⟩ := h.supported q sel hsel
  obtain ⟨z, hz⟩ := h.called.history.answered _ hauth
  obtain ⟨z', hz'⟩ := h.called.history.answered _ hverify
  rw [hw.authenticate] at hz
  rw [hw.verify] at hz'
  rw [Except.ok.inj hz', Except.ok.inj hz]

/-! ### Assignments that agree with a state -/

/-- The assignment gives the selected packages their selected releases. -/
def Agrees (A : Assignment) (st : SolverState) : Prop :=
  ∀ q sel, st.selected[q]? = some sel → A q = sel.candidate

/-- No solution agrees with the state. -/
def Unsolvable (src : ResolverSource σ) (request : ResolveRequest) (st : SolverState) : Prop :=
  ∀ world, Honest src world → ∀ A, Solution world request A → ¬ Agrees A st

/-- No solution that agrees with the state gives the package this release. -/
def Refuted (src : ResolverSource σ) (request : ResolveRequest) (st : SolverState)
    (p : PackageKey) (cand : CatalogCandidate) : Prop :=
  ∀ world, Honest src world → ∀ A, Solution world request A → Agrees A st → A p ≠ cand

section

variable (hpub : Published world st) (hA : Agrees A st)
include hpub hA

theorem Reached.needed (h : Reached request st.selected p) : Needed world request A p := by
  induction h with
  | root hr => exact .root hr
  | dependency _ hsel hr ih =>
    refine .dependency ih ?_
    rw [World.dependenciesOf, hA _ _ hsel, ← hpub _ _ hsel]
    exact hr

/-- A selected package with a dependency on `t` has it in the assignment. -/
theorem Agrees.arc (hwf : WellFormed request st) {t : PackageKey} (hsel : st.selected[q]? = some sel)
    (hr : r ∈ registryDependencies sel.verified.dependencies) (ht : r.package = t) :
    A.Arc world request q t := by
  refine ⟨(hwf.reached q (hwf.constrained q sel hsel)).needed hpub hA, r, ?_, ht⟩
  rw [World.dependenciesOf, hA _ _ hsel, ← hpub _ _ hsel]
  exact hr

/-- A solution that agrees with a state meets the constraints of the state. -/
theorem Agrees.meets (hwf : WellFormed request st) (hsol : Solution world request A)
    (hc : c ∈ st.constraintsOn p) : c.requirement.matches' (A p).version = true := by
  rcases hwf.origin hc with ⟨-, r, hr, rfl, hreq⟩ | ⟨q, sel, -, hsel, r, hr, hp, hreq⟩
  · exact hreq ▸ hsol.rootMet r hr
  · obtain ⟨hneeded, r', hr', hp'⟩ := hA.arc hpub hwf hsel hr hp
    subst hp
    refine hreq ▸ hsol.dependencyMet q hneeded r ?_
    rw [World.dependenciesOf, hA _ _ hsel, ← hpub _ _ hsel]
    exact hr

end

/-- A solution that agrees with a state takes the release of the next package from its catalog. -/
theorem Agrees.listed (hA : Agrees A st) (h : Inv src x request base d st s)
    (hp : p ∈ st.constraints) (hw : Honest src world) (hsol : Solution world request A)
    (hcat : s.catalogs[p]? = some cat) : A p ∈ cat.candidates := by
  rw [h.called.catalog_published hw hcat]
  exact hsol.listed p ((h.wellFormed.reached p hp).needed (h.published hw) hA)

/-! ### Rejections -/

theorem selectedConflict_some (h : selectedConflict st = some q) : ∃ sel, st.selected[q]? = some sel ∧
      ∃ c ∈ st.constraintsOn q, ¬ c.requirement.matches' sel.candidate.version = true := by
  simp only [selectedConflict, Option.map_eq_some_iff] at h
  obtain ⟨⟨q', sel⟩, hfind, rfl⟩ := h
  have hmem := mem_of_find?_eq_some hfind
  have hany := find?_some hfind
  refine ⟨sel, TreeMap.mem_toList_iff_getElem?_eq_some.mp hmem, ?_⟩
  simpa using hany

theorem selectedConflict_none (h : selectedConflict st = none)
    (hsel : st.selected[q]? = some sel) (hc : c ∈ st.constraintsOn q) :
    c.requirement.matches' sel.candidate.version = true := by
  simp only [selectedConflict, Option.map_eq_none_iff, find?_eq_none] at h
  have := h (q, sel) (TreeMap.mem_toList_iff_getElem?_eq_some.mpr hsel)
  simp only [any_eq_true, not_exists, not_and, Bool.not_eq_true', Bool.not_eq_false] at this
  exact this c hc

theorem unsolvable_of_selectedConflict (h : Inv src x request base d st s)
    (hq : selectedConflict st = some q) : Unsolvable src request st := by
  intro world hw A hsol hA
  obtain ⟨sel, hsel, c, hc, hmiss⟩ := selectedConflict_some hq
  refine hmiss ?_
  rw [← hA q sel hsel]
  exact hA.meets (h.published hw) h.wellFormed hsol hc

theorem exactLockedYankReplay_iff {version : ReleaseVersion} :
    exactLockedYankReplay request p version = true ↔ YankReplay request p version := by
  have hany : ∀ o : Option LockedSelection, o.any (fun l => decide (l.version = version)) = true ↔
      ∃ l, o = some l ∧ l.version = version := by
    intro o
    cases o <;> simp
  unfold exactLockedYankReplay YankReplay
  cases hmode : request.mode <;> simp [hany]

/-- A candidate that passes the checks before verification. -/
structure Eligible (request : ResolveRequest) (p : PackageKey) (cand : CatalogCandidate) : Prop where
  frozen : FrozenRespected request p cand.version
  yanked : cand.yanked = true → YankReplay request p cand.version

theorem earlyRejection_none {requirements : List VersionRequirement}
    (h : earlyRejection request p requirements cand = none) : Eligible request p cand := by
  unfold earlyRejection at h
  split at h
  · cases h
  next hfrozen =>
    split at h
    · cases h
    split at h
    · cases h
    next hyank =>
      constructor
      · intro frozen hf
        rw [hf, Option.filter_eq_none_iff] at hfrozen
        simpa using hfrozen frozen rfl
      · intro hy
        rw [← exactLockedYankReplay_iff]
        simpa [hy] using hyank

theorem mem_requirementsFor {r : VersionRequirement} (h : r ∈ requirementsFor p st) :
    ∃ c ∈ st.constraintsOn p, c.requirement = r := by
  have hmem := (destutter_sublist (· ≠ ·) _).mem h
  simpa using hmem

theorem refuted_of_earlyRejection (h : Inv src x request base d st s)
    (hp : p ∈ st.constraints) {reason : CandidateRejection}
    (hreason : earlyRejection request p (requirementsFor p st) cand = some reason) :
    Refuted src request st p cand := by
  rintro world hw A hsol hA rfl
  have hneeded := (h.wellFormed.reached p hp).needed (h.published hw) hA
  unfold earlyRejection at hreason
  split at hreason
  next frozen hfrozen =>
    obtain ⟨hf, hne⟩ := Option.filter_eq_some_iff.mp hfrozen
    exact (by simpa using hne : ¬ _) (hsol.frozen p hneeded frozen hf)
  next =>
    split at hreason
    next hmiss =>
      simp only [Bool.not_eq_true', all_eq_false] at hmiss
      obtain ⟨r, hr, hmiss⟩ := hmiss
      obtain ⟨c, hc, rfl⟩ := mem_requirementsFor hr
      exact hmiss (hA.meets (h.published hw) h.wellFormed hsol hc)
    next =>
      split at hreason
      next hyank =>
        simp only [Bool.and_eq_true, Bool.not_eq_true'] at hyank
        have := exactLockedYankReplay_iff.mpr (hsol.yanked p hneeded hyank.1)
        rw [hyank.2] at this
        cases this
      next => cases hreason

/-- A source that identifies another release than the one it was asked for is not honest. -/
theorem refuted_of_mismatch (h : Called src x request s) (hcat : s.catalogs[p]? = some cat)
    (hverify : .verify cat cand (.ok v) ∈ s.calls) (hmismatch : ¬ v.Identifies p cand) :
    Refuted src request st p cand := by
  intro world hw A _ _ _
  obtain ⟨z, hz⟩ := h.history.answered _ hverify
  rw [hw.verify] at hz
  refine hmismatch ?_
  rw [Except.ok.inj hz, ← (h.catalog p cat hcat).1]
  exact hw.identifies cat cand

theorem agrees_select (hA : Agrees A st) (hp : A p = cand) : Agrees A (st.select p ⟨cand, v⟩) := by
  intro q sel hq
  rw [selected_select] at hq
  split at hq
  next heq =>
    cases hq
    exact heq ▸ hp
  next => exact hA q sel hq

section

variable (h : Inv src x request base d st s) (hp : p ∈ st.constraints)
  (hcat : s.catalogs[p]? = some cat)
include h hp hcat

/-- A dependency that leads back to its package through the links of the state closes a cycle in
every assignment that agrees with the state. -/
theorem refuted_of_cycle (hverify : .verify cat cand (.ok v) ∈ s.calls)
    {earlier later : List Dependency} (hds : (earlier ++ .registry r :: later).Perm v.dependencies)
    (hpath : dependencyPathExists ((st.select p ⟨cand, v⟩).withDependencies (some p) earlier)
      r.package p = true) :
    Refuted src request st p cand := by
  rintro world hw A hsol hA hAp
  have hpub := h.published hw
  have hv : v = world.manifestOf (world.catalogOf p) cand := by
    obtain ⟨z, hz⟩ := h.called.history.answered _ hverify
    rw [hw.verify] at hz
    rw [Except.ok.inj hz, h.called.catalog_published hw hcat]
  have hneeded := (h.wellFormed.reached p hp).needed hpub hA
  have hown : ∀ r' : RegistryDependency, .registry r' ∈ earlier ++ .registry r :: later →
      A.Arc world request p r'.package := by
    intro r' hr'
    refine ⟨hneeded, r', ?_, rfl⟩
    rw [World.dependenciesOf, hAp, ← hv]
    exact mem_registryDependencies.mpr (hds.mem_iff.mp hr')
  -- every link of the partial state is an arc of the assignment
  have hlinks : ∀ a t, ((st.select p ⟨cand, v⟩).withDependencies (some p) earlier).Linked a t →
      A.Arc world request a t := by
    rintro a t ⟨c, hc, hfrom⟩
    rw [constraintsOn_withDependencies] at hc
    rcases mem_append.mp hc with hc | hc
    · rcases h.wellFormed.origin hc with ⟨hnone, -⟩ | ⟨q, sel, hq, hsel, r', hr', ht, -⟩
      · rw [hnone] at hfrom
        cases hfrom
      · rw [hq, Option.some.injEq] at hfrom
        subst hfrom
        exact hA.arc hpub h.wellFormed hsel hr' ht
    · obtain ⟨r', hr', rfl, rfl⟩ := mem_constraintsFrom.mp hc
      obtain rfl := Option.some.inj hfrom
      exact hown r' (mem_append_left _ (mem_registryDependencies.mp hr'))
  have htight := (h.wellFormed.tight.select p ⟨cand, v⟩).withDependencies (some p) earlier
  have hback : ReflTransGen (A.Arc world request) r.package p :=
    ReflTransGen.mono hlinks _ _ ((dependencyPathExists_iff htight _ _).mp hpath)
  exact hsol.acyclic p (TransGen.head' (hown r (by simp)) hback)

/-- When every candidate of the catalog is refuted, the state is unsolvable. -/
theorem unsolvable_of_refuted (hall : ∀ cand ∈ cat.candidates, Refuted src request st p cand) :
    Unsolvable src request st := by
  intro world hw A hsol hA
  exact hall _ (hA.listed h hp hw hsol hcat) world hw A hsol hA rfl

end

/-! ### Preference -/

theorem orderedCandidates_perm (request : ResolveRequest) (p : PackageKey)
    (candidates : List CatalogCandidate) :
    (orderedCandidates request p candidates).Perm candidates := by
  unfold orderedCandidates
  split
  · exact (sortBy_perm _ _).trans (sortBy_perm _ _)
  · exact sortBy_perm _ _

instance : TransCmp newestFirst :=
  have : TransCmp fun left right : CatalogCandidate => compare right.version left.version :=
    transCmp_flip (compareOn CatalogCandidate.version)
  inferInstanceAs (TransCmp (compareLex _ _))

/-- Outside locked mode the candidates are tried newest first. -/
theorem orderedCandidates_newestFirst (hmode : request.mode ≠ .locked) (p : PackageKey)
    (candidates : List CatalogCandidate) :
    (orderedCandidates request p candidates).Pairwise fun a b => ¬ a.version < b.version := by
  unfold orderedCandidates
  split
  next hlocked _ => exact absurd hlocked hmode
  next =>
    refine List.Pairwise.imp ?_ (sortBy_sorted _ candidates)
    intro a b hle hlt
    have hgt : compare b.version a.version = .gt := OrientedCmp.gt_of_lt hlt
    simp [newestFirst, compareLex, hgt] at hle

/-- Along the decisions `ds`, no solution that agrees with the state and gives the packages decided
earlier their versions gives the next decided package a newer one. -/
def Optimal (src : ResolverSource σ) (request : ResolveRequest) (st : SolverState)
    (ds : List (PackageKey × CatalogCandidate)) : Prop :=
  request.mode ≠ .locked → ∀ world, Honest src world → ∀ A, Solution world request A →
    Agrees A st → ∀ earlier p cand later, ds = earlier ++ (p, cand) :: later →
    (∀ decision ∈ earlier, (A decision.1).version = decision.2.version) →
    ¬ cand.version < (A p).version

theorem Optimal.nil : Optimal src request st [] := by
  intro _ world _ A _ _ earlier p cand later hsplit
  simp at hsplit

/-- A decision is optimal when the candidates tried before it are refuted. -/
theorem Optimal.cons (h : Inv src x request base d st s) (hp : p ∈ st.constraints)
    (hcat : s.catalogs[p]? = some cat) {tried rest : List CatalogCandidate}
    (hsplit : orderedCandidates request p cat.candidates = tried ++ cand :: rest)
    (htried : ∀ c ∈ tried, Refuted src request st p c)
    {next : SolverState} (hnext : next.selected = (st.select p ⟨cand, v⟩).selected)
    {ds : List (PackageKey × CatalogCandidate)} (hds : Optimal src request next ds) :
    Optimal src request st ((p, cand) :: ds) := by
  intro hmode world hw A hsol hA earlier q c later heq hearlier
  have hperm := orderedCandidates_perm request p cat.candidates
  have hlisted := hA.listed h hp hw hsol hcat
  cases earlier with
  | nil =>
    obtain ⟨⟨rfl, rfl⟩, -⟩ := heq
    intro hlt
    have hsorted := orderedCandidates_newestFirst hmode p cat.candidates
    rw [hsplit, pairwise_append] at hsorted
    rw [← hperm.mem_iff, hsplit] at hlisted
    rcases mem_append.mp hlisted with hbefore | hafter
    · exact htried _ hbefore world hw A hsol hA rfl
    · rcases mem_cons.mp hafter with hself | hafter
      · rw [hself] at hlt
        exact absurd hlt (by simp [LT.lt])
      · exact (rel_of_pairwise_cons hsorted.2.1 hafter) hlt
  | cons decision earlier =>
    simp only [cons_append, cons.injEq] at heq
    obtain ⟨rfl, hds'⟩ := heq
    -- the version fixes the release, because the versions of a catalog are distinct
    have hcand : cand ∈ cat.candidates := by
      rw [← hperm.mem_iff, hsplit]
      simp
    have hAp : A p = cand :=
      h.called.candidate_unique hcat hlisted hcand (hearlier (p, cand) mem_cons_self)
    have hAnext : Agrees A next := by
      intro q' sel hsel
      rw [hnext] at hsel
      exact agrees_select hA hAp q' sel hsel
    exact hds hmode world hw A hsol hAnext earlier q c later hds'
      fun decision hmem => hearlier decision (.tail _ hmem)

end Axiomc.Package
