import Axiomc.Foundation.OrderedMap
import Axiomc.Package.Assignments
import Axiomc.Package.Resolver

/-!
# The states of the resolver

Facts about `SolverState` alone, without the solver that moves between them.

* `dependencyPathExists_iff`: the work-list search decides reachability along the constraints;
* `constraintsOn_withDependencies`: what a list of dependencies adds to the constraints;
* `WellFormed`: the constraints of a state are exactly those of the root and of the selected
  manifests, every constrained package is reached from the root through selected manifests, and
  the links between packages have no cycle;
* `WellFormed.select`: selecting a release and adding its dependencies keeps this.
-/

namespace Axiomc.Package

open Std Relation Axiomc.Foundation SolverState List TreeMap

/-! ### Constraints and links -/

/-- `q` depends on `t` in the state. -/
def SolverState.Linked (st : SolverState) (q t : PackageKey) : Prop :=
  ∃ c ∈ st.constraintsOn t, c.from' = some q

section

variable (st : SolverState) (q p : PackageKey) (c : Constraint)

theorem constraintsOn_pushConstraint : (st.pushConstraint q c).constraintsOn p =
      if q = p then st.constraintsOn p ++ [c] else st.constraintsOn p := by
  simp only [constraintsOn, pushConstraint, getD_eq_getD_getElem?, getElem?_insert_cmp]
  split
  · simp_all
  · rfl

theorem mem_pushConstraint :
    p ∈ (st.pushConstraint q c).constraints ↔ q = p ∨ p ∈ st.constraints := by
  simp [pushConstraint]

end

variable {c : Constraint} {q t p : PackageKey} {st : SolverState} {from' : Option PackageKey}
  {request : ResolveRequest} {ds : List Dependency}

theorem linked_pushConstraint {a : PackageKey} :
    (st.pushConstraint q c).Linked a t ↔ st.Linked a t ∨ (q = t ∧ c.from' = some a) := by
  simp only [SolverState.Linked, constraintsOn_pushConstraint]
  split
  next h => simp [h, or_and_right, exists_or]
  next h => simp [h]

theorem mem_successors : t ∈ successors st q ↔ t ∈ st.constraints ∧ st.Linked q t := by
  simp [successors, SolverState.Linked]

/-- The constraint map has an entry for exactly the packages with constraints. -/
def SolverState.Tight (st : SolverState) : Prop :=
  ∀ p, p ∈ st.constraints ↔ st.constraintsOn p ≠ []

theorem SolverState.Tight.pushConstraint (h : st.Tight) (q : PackageKey)
    (c : Constraint) : (st.pushConstraint q c).Tight := by
  intro p
  rw [mem_pushConstraint, constraintsOn_pushConstraint, h p]
  split <;> simp_all

theorem SolverState.Tight.arc_iff (h : st.Tight) : Arc (successors st) q t ↔ st.Linked q t := by
  rw [Arc, mem_successors, and_iff_right_iff_imp]
  rintro ⟨c, hc, -⟩
  exact (h t).mpr (ne_nil_of_mem hc)

/-- The packages a search from `start` can visit. -/
def searchNodes (st : SolverState) (start : PackageKey) : Finset PackageKey :=
  insert start st.constraints.keys.toFinset

theorem successors_mem_searchNodes {start node next : PackageKey}
    (h : next ∈ successors st node) : next ∈ searchNodes st start := by
  have := (mem_successors.mp h).1
  simp [searchNodes, this]

theorem length_successors_le (st : SolverState) (node : PackageKey) :
    (successors st node).length ≤ st.constraints.size :=
  (length_filter_le _ _).trans length_keys.le

/-- The rounds `dependencyPathExists` is given suffice. -/
theorem searchRounds_le (st : SolverState) (start : PackageKey) :
    [start].length + st.constraints.size * unvisited (searchNodes st start) [] ≤
      st.constraints.size * (st.constraints.size + 1) + 1 := by
  have hcard : unvisited (searchNodes st start) [] ≤ st.constraints.size + 1 := by
    have hle := Finset.card_insert_le start st.constraints.keys.toFinset
    have hkeys := toFinset_card_le st.constraints.keys
    rw [length_keys] at hkeys
    have : unvisited (searchNodes st start) [] = (insert start st.constraints.keys.toFinset).card := by
      simp [unvisited, searchNodes]
    omega
  have := Nat.mul_le_mul_left st.constraints.size hcard
  simp only [length_cons, length_nil]
  omega

/-- **Reachability.**  The search of `dependency_path_exists` decides whether the constraints lead
from one package to another. -/
theorem dependencyPathExists_iff (h : st.Tight) (start goal : PackageKey) :
    dependencyPathExists st start goal = true ↔ ReflTransGen st.Linked start goal := by
  have harcs : Arc (successors st) = st.Linked := by
    funext q t
    exact propext h.arc_iff
  unfold dependencyPathExists
  split
  next heq => simp [heq, ReflTransGen.refl]
  next hne =>
    rw [reflTransGen_iff_eq_or_transGen, or_iff_right (Ne.symm hne), ← harcs]
    constructor
    · intro hsearch
      obtain ⟨node, hnode, hpath⟩ := search_sound _ _ _ hsearch
      obtain rfl : node = start := by simpa using hnode
      exact hpath
    · intro hpath
      by_contra hsearch
      refine search_complete (length_successors_le st)
        (fun _ _ _ hnext => successors_mem_searchNodes hnext) _ _ _ (searchRounds_le st start) ?_ ?_
        (Bool.eq_false_iff.mpr hsearch) start (.inr mem_cons_self) hpath
      · simp [searchNodes]
      · intro node hnode
        simp at hnode

/-- The loop of `dependency_path_exists` ends, with the answer the model gives. -/
theorem dependencyPathExists_ends (st : SolverState) {start goal : PackageKey} (hne : start ≠ goal) :
    ∃ rounds, searchLoop (successors st) goal rounds [start] [] =
      some (dependencyPathExists st start goal) := by
  refine ⟨st.constraints.size * (st.constraints.size + 1) + 1 + 1, ?_⟩
  rw [dependencyPathExists, if_neg hne]
  refine searchLoop_eq_search (length_successors_le st)
    (fun _ _ _ hnext => successors_mem_searchNodes hnext) _ _ _ (searchRounds_le st start) ?_
  simp [searchNodes]

/-! ### Adding dependencies -/

/-- The constraints a dependency list puts on a package. -/
def constraintsFrom (from' : Option PackageKey) (dependencies : List Dependency)
    (p : PackageKey) : List Constraint :=
  (registryDependencies dependencies).filterMap fun r =>
    if r.package = p then some ⟨from', r.alias', r.requirement⟩ else none

theorem mem_constraintsFrom {dependencies : List Dependency} :
    c ∈ constraintsFrom from' dependencies p ↔ ∃ r ∈ registryDependencies dependencies, r.package = p ∧
        c = ⟨from', r.alias', r.requirement⟩ := by
  simp [constraintsFrom, eq_comm]

theorem constraintsFrom_perm {d d' : List Dependency} (h : d.Perm d') (p : PackageKey) :
    (constraintsFrom from' d p).Perm (constraintsFrom from' d' p) :=
  (h.filterMap _).filterMap _

/-- What a list of dependencies records in the state. -/
def SolverState.withDependencies (st : SolverState) (from' : Option PackageKey)
    (dependencies : List Dependency) : SolverState :=
  dependencies.foldl (fun st d => st.withDependency from' d) st

section

variable (st : SolverState) (from' : Option PackageKey)

@[simp] theorem selected_withDependency (d : Dependency) :
    (st.withDependency from' d).selected = st.selected := by
  cases d <;> rfl

@[simp] theorem selected_withDependencies (ds : List Dependency) :
    (st.withDependencies from' ds).selected = st.selected := by
  induction ds generalizing st with
  | nil => rfl
  | cons d ds ih => exact (ih (st.withDependency from' d)).trans (selected_withDependency st _ d)

theorem constraintsOn_withDependency (d : Dependency) (p : PackageKey) :
    (st.withDependency from' d).constraintsOn p =
      st.constraintsOn p ++ constraintsFrom from' [d] p := by
  cases d with
  | path d => simp [withDependency, constraintsOn, constraintsFrom,
      registryDependencies, Dependency.registry?]
  | registry r =>
    rw [withDependency, constraintsOn_pushConstraint]
    split <;> simp_all [constraintsFrom, registryDependencies, Dependency.registry?]

theorem constraintsOn_withDependencies (ds : List Dependency) (p : PackageKey) :
    (st.withDependencies from' ds).constraintsOn p =
      st.constraintsOn p ++ constraintsFrom from' ds p := by
  induction ds generalizing st with
  | nil => simp [withDependencies, constraintsFrom, registryDependencies]
  | cons d ds ih =>
    have hsplit : constraintsFrom from' (d :: ds) p =
        constraintsFrom from' [d] p ++ constraintsFrom from' ds p := by
      simp only [constraintsFrom, registryDependencies]
      rw [← filterMap_append, ← filterMap_append, singleton_append]
    rw [hsplit, ← append_assoc, ← constraintsOn_withDependency]
    exact ih (st.withDependency from' d)

end

theorem SolverState.Tight.withDependency (h : st.Tight)
    (from' : Option PackageKey) (d : Dependency) : (st.withDependency from' d).Tight := by
  cases d with
  | path d => exact h
  | registry r => exact h.pushConstraint _ _

theorem SolverState.Tight.withDependencies (h : st.Tight)
    (from' : Option PackageKey) (ds : List Dependency) : (st.withDependencies from' ds).Tight := by
  induction ds generalizing st with
  | nil => exact h
  | cons d ds ih => exact ih (h.withDependency from' d)

/-! ### Well-formed states -/

/-- The constraints the root and the selected manifests put on a package. -/
def requiredOn (request : ResolveRequest) (selected : TreeMap PackageKey Selection)
    (p : PackageKey) : List Constraint :=
  constraintsFrom none request.dependencies p ++
    selected.toList.flatMap fun entry => constraintsFrom (some entry.1) entry.2.verified.dependencies p

/-- The packages reached from the root through selected manifests. -/
inductive Reached (request : ResolveRequest) (selected : TreeMap PackageKey Selection) :
    PackageKey → Prop
  | root {r : RegistryDependency} :
      r ∈ registryDependencies request.dependencies → Reached request selected r.package
  | dependency {q : PackageKey} {sel : Selection} {r : RegistryDependency} :
      Reached request selected q → selected[q]? = some sel →
      r ∈ registryDependencies sel.verified.dependencies → Reached request selected r.package

theorem Reached.mono {selected selected' : TreeMap PackageKey Selection}
    (hle : ∀ (q : PackageKey) (sel : Selection), selected[q]? = some sel → selected'[q]? = some sel)
    (h : Reached request selected p) : Reached request selected' p := by
  induction h with
  | root hr => exact .root hr
  | dependency _ hsel hr ih => exact .dependency ih (hle _ _ hsel) hr

/-- The invariant of the states `solve` is called on. -/
structure WellFormed (request : ResolveRequest) (st : SolverState) : Prop where
  tight : st.Tight
  exact : ∀ p, (st.constraintsOn p).Perm (requiredOn request st.selected p)
  constrained : ∀ p sel, st.selected[p]? = some sel → p ∈ st.constraints
  reached : ∀ p ∈ st.constraints, Reached request st.selected p
  acyclic : ∀ p, ¬ TransGen st.Linked p p

/-- A constraint of a well-formed state is a root dependency or a dependency of a selected
manifest. -/
theorem WellFormed.origin (h : WellFormed request st) (hc : c ∈ st.constraintsOn p) :
    (c.from' = none ∧ ∃ r ∈ registryDependencies request.dependencies,
      r.package = p ∧ r.requirement = c.requirement) ∨
    ∃ q sel, c.from' = some q ∧ st.selected[q]? = some sel ∧
      ∃ r ∈ registryDependencies sel.verified.dependencies,
        r.package = p ∧ r.requirement = c.requirement := by
  have hmem := (h.exact p).mem_iff.mp hc
  rcases mem_append.mp hmem with hroot | hsel
  · obtain ⟨r, hr, hp, rfl⟩ := mem_constraintsFrom.mp hroot
    exact .inl ⟨rfl, r, hr, hp, rfl⟩
  · obtain ⟨⟨q, sel⟩, hentry, hq⟩ := mem_flatMap.mp hsel
    obtain ⟨r, hr, hp, rfl⟩ := mem_constraintsFrom.mp hq
    exact .inr ⟨q, sel, rfl, mem_toList_iff_getElem?_eq_some.mp hentry, r, hr, hp, rfl⟩

/-- The state in which a release of a package is selected. -/
def SolverState.select (st : SolverState) (p : PackageKey) (sel : Selection) : SolverState :=
  { st with selected := st.selected.insert p sel }

theorem SolverState.Tight.select (h : st.Tight) (p : PackageKey)
    (sel : Selection) : (st.select p sel).Tight := h

theorem selected_select (st : SolverState) (p q : PackageKey) (sel : Selection) :
    (st.select p sel).selected[q]? = if p = q then some sel else st.selected[q]? :=
  getElem?_insert_cmp _ _ _ _

theorem select_of_selected (hnew : st.selected[p]? = none)
    (sel : Selection) {sel' : Selection} (h : st.selected[q]? = some sel') :
    (st.select p sel).selected[q]? = some sel' :=
  getElem?_insert_of_new hnew h sel

theorem requiredOn_select (hnew : st.selected[p]? = none) (sel : Selection) (q : PackageKey) :
    (requiredOn request (st.select p sel).selected q).Perm (requiredOn request st.selected q ++
        constraintsFrom (some p) sel.verified.dependencies q) := by
  have hentries := toList_insert_perm_of_not_mem (v := sel) hnew
  simp only [requiredOn, append_assoc]
  refine List.Perm.append_left _ ((hentries.flatMap_right _).trans ?_)
  simpa using perm_append_comm

theorem mem_withDependencies (h : st.Tight) : p ∈ (st.withDependencies from' ds).constraints ↔
      p ∈ st.constraints ∨ ∃ r ∈ registryDependencies ds, r.package = p := by
  rw [h.withDependencies from' ds p, constraintsOn_withDependencies, h p]
  simp only [ne_eq, append_eq_nil_iff, not_and_or]
  refine or_congr_right ?_
  simp [constraintsFrom]

/-- **Selection.**  Selecting a release of a constrained package and adding the dependencies of its
manifest keeps a state well formed, when the dependencies close no cycle. -/
theorem WellFormed.select (h : WellFormed request st) {sel : Selection} (hp : p ∈ st.constraints)
    (hnew : st.selected[p]? = none) (hds : ds.Perm sel.verified.dependencies)
    (hacyclic : ∀ q, ¬ TransGen ((st.select p sel).withDependencies (some p) ds).Linked q q) :
    WellFormed request ((st.select p sel).withDependencies (some p) ds) where
  tight := (h.tight.select p sel).withDependencies (some p) ds
  exact q := by
    rw [constraintsOn_withDependencies, selected_withDependencies]
    exact ((h.exact q).append (constraintsFrom_perm hds q)).trans (requiredOn_select hnew sel q).symm
  constrained q sel' hq := by
    rw [selected_withDependencies, selected_select] at hq
    refine (mem_withDependencies (h.tight.select p sel)).mpr (.inl ?_)
    split at hq
    next heq => exact heq ▸ hp
    next => exact h.constrained q sel' hq
  reached q hq := by
    have hreached : ∀ q ∈ st.constraints,
        Reached request ((st.select p sel).withDependencies (some p) ds).selected q := by
      intro q hq
      refine (h.reached q hq).mono fun q' sel' hsel => ?_
      rw [selected_withDependencies]
      exact select_of_selected hnew sel hsel
    rcases (mem_withDependencies (h.tight.select p sel)).mp hq with hq | ⟨r, hr, rfl⟩
    · exact hreached q hq
    · have hsel : ((st.select p sel).withDependencies (some p) ds).selected[p]? = some sel := by
        rw [selected_withDependencies, selected_select, if_pos rfl]
      exact .dependency (hreached p hp) hsel ((hds.filterMap _).mem_iff.mp hr)
  acyclic := hacyclic

theorem initialState_tight : initialState.Tight := by
  intro p
  simp [initialState, constraintsOn]

/-- The state `resolve_packages` starts the search from is well formed. -/
theorem wellFormed_root (request : ResolveRequest) (hds : ds.Perm request.dependencies) :
    WellFormed request (initialState.withDependencies none ds) := by
  have htight := initialState_tight
  refine ⟨htight.withDependencies none ds, ?_, ?_, ?_, ?_⟩
  · intro p
    rw [constraintsOn_withDependencies, selected_withDependencies]
    have hnone : initialState.constraintsOn p = [] := by
      simp [initialState, constraintsOn]
    have hsel : initialState.selected.toList = [] := rfl
    simp only [hnone, requiredOn, hsel, flatMap_nil, append_nil]
    exact constraintsFrom_perm hds p
  · intro p sel hp
    simp [initialState] at hp
  · intro p hp
    rcases (mem_withDependencies htight).mp hp with hp | ⟨r, hr, rfl⟩
    · simp [initialState] at hp
    · exact .root ((hds.filterMap _).mem_iff.mp hr)
  · -- root constraints carry no `from` package, so there is no link at all
    have hunlinked : ∀ q t, ¬ (initialState.withDependencies none ds).Linked q t := by
      rintro q t ⟨c, hc, hfrom⟩
      rw [constraintsOn_withDependencies] at hc
      rcases mem_append.mp hc with hc | hc
      · simp [initialState, constraintsOn] at hc
      · obtain ⟨r, -, -, rfl⟩ := mem_constraintsFrom.mp hc
        cases hfrom
    intro p hp
    obtain ⟨q, hq, -⟩ := TransGen.head'_iff.mp hp
    exact hunlinked _ _ hq

/-! ### Catalogs -/

/-- `Solver::catalog` accepts rows with release identities and pairwise distinct versions. -/
theorem catalogRowsValid_iff : ∀ (rows : List CatalogCandidate) (seen : List ReleaseVersion),
      catalogRowsValid rows seen = true ↔
        (∀ row ∈ rows, row.releaseId.isEmpty = false ∧ row.version ∉ seen) ∧
          (rows.map (·.version)).Nodup := by
  intro rows
  induction rows with
  | nil =>
    intro seen
    simp [catalogRowsValid]
  | cons row rows ih =>
    intro seen
    have hstep : catalogRowsValid (row :: rows) seen = true ↔
        (row.releaseId.isEmpty = false ∧ row.version ∉ seen) ∧
          catalogRowsValid rows (row.version :: seen) = true := by
      simp [catalogRowsValid]
    rw [hstep, ih, forall_mem_cons]
    simp only [map_cons, nodup_cons, mem_map, mem_cons, not_or]
    constructor
    · rintro ⟨hrow, hrows, hnodup⟩
      refine ⟨⟨hrow, fun r hr => ⟨(hrows r hr).1, (hrows r hr).2.2⟩⟩, ?_, hnodup⟩
      rintro ⟨r, hr, hversion⟩
      exact (hrows r hr).2.1 hversion
    · rintro ⟨⟨hrow, hrows⟩, hfresh, hnodup⟩
      exact ⟨hrow, fun r hr => ⟨(hrows r hr).1, fun hversion => hfresh ⟨r, hr, hversion⟩,
        (hrows r hr).2⟩, hnodup⟩

end Axiomc.Package
