import Axiomc.Package.ResolverState
import Axiomc.Package.VersionText

/-!
# Canonical orders in the resolver

`resolve_packages` sorts whatever it reads from a list: the dependencies of the root and of a
manifest by `dependency_key`, the requirements on a package by their text, the rows of a catalog by
version, the edges of the result by all their fields.  This file says what each sort makes
independent of the order it was given.

Requirements, rows and edges are separated by their keys, so their sorted form is one list
(`Similar.requirementsFor_eq`, `orderedCandidates_eq_of_perm`, `Similar.finish_edges`).
`dependency_key` is not injective on packages.  It prints a package as
`registry@source::namespace/name`, and nothing keeps the separators out of the parts, so two packages
can have one text.  `forall₂_sortBy_matched` says what remains: when the key separates the packages of
a list, two orders of it sort to lists that agree place by place on kind, package or path, and alias.

`Similar` relates two states that the resolver cannot tell apart.
-/

namespace Axiomc.Package

open Std Axiomc.Foundation VersionRequirement List SolverState

/-! ### Requirements -/

/-- The form of a requirement, as the derived order ranks it. -/
def VersionRequirement.rank : VersionRequirement → Nat
  | .exact _ => 0
  | .caret _ => 1

theorem VersionRequirement.cmp_eq : cmp = compareLex (compareOn rank) (compareOn minimum) := by
  funext a b
  have hlt : compare (0 : Nat) 1 = .lt := rfl
  have hgt : compare (1 : Nat) 0 = .gt := rfl
  cases a <;> cases b <;> simp [cmp, compareLex, compareOn, rank, minimum, hlt, hgt]

instance : TransOrd VersionRequirement := by
  show TransCmp cmp
  rw [cmp_eq]
  infer_instance

instance : LawfulEqOrd VersionRequirement where
  eq_of_compare {a b} h := by
    have h : cmp a b = .eq := h
    cases a <;> cases b <;>
      simp_all [VersionRequirement.cmp, LawfulEqCmp.compare_eq_iff_eq]

theorem VersionRequirement.display_injective : Function.Injective display := by
  intro a b h
  have ha : parse a.display = .ok a := parse_eq_ok_iff.mpr rfl
  have hb : parse a.display = .ok b := parse_eq_ok_iff.mpr h
  exact Except.ok.inj (ha.symm.trans hb)

/-! ### Edges and preserved paths -/

instance : TransCmp ResolvedEdge.cmp := inferInstanceAs (TransCmp (compareLex _ _))

instance : LawfulEqCmp ResolvedEdge.cmp where
  eq_of_compare {a b} h := by
    simp only [ResolvedEdge.cmp, compareLex_eq_eq, compareOn, LawfulEqCmp.compare_eq_iff_eq] at h
    obtain ⟨h₁, h₂, h₃, h₄, h₅⟩ := h
    cases a
    cases b
    simp_all

instance : TransOrd PreservedPathDependency := inferInstanceAs (TransCmp (compareLex _ _))

instance : LawfulEqOrd PreservedPathDependency where
  eq_of_compare {a b} h := by
    have h' : PreservedPathDependency.cmp a b = .eq := h
    simp only [PreservedPathDependency.cmp, compareLex_eq_eq, compareOn,
      LawfulEqCmp.compare_eq_iff_eq] at h'
    obtain ⟨h₁, h₂, h₃, h₄⟩ := h'
    cases a
    cases b
    simp_all

/-! ### Rows of a catalog -/

/-- What `newestFirst` compares, and how. -/
def rowCmp : ReleaseVersion × String → ReleaseVersion × String → Ordering :=
  compareLex (fun left right => compare right.1 left.1) (compareOn Prod.snd)

instance : TransCmp rowCmp := by
  have : TransCmp fun left right : ReleaseVersion × String => compare right.1 left.1 :=
    transCmp_flip (compareOn Prod.fst)
  exact inferInstanceAs (TransCmp (compareLex _ _))

instance : LawfulEqCmp rowCmp where
  eq_of_compare {a b} h := by
    simp only [rowCmp, compareLex_eq_eq, compareOn, LawfulEqCmp.compare_eq_iff_eq] at h
    exact Prod.ext h.1.symm h.2

variable {rows rows' : List CatalogCandidate} {ds' : List Dependency}

/-- Catalog rows with distinct versions are tried in one order, however they are listed. -/
theorem orderedCandidates_eq_of_perm (request : ResolveRequest) (p : PackageKey) (h : rows.Perm rows')
    (hnodup : (rows.map (·.version)).Nodup) :
    orderedCandidates request p rows = orderedCandidates request p rows' := by
  have hsort : sortBy newestFirst rows = sortBy newestFirst rows' := by
    refine sortBy_eq_of_perm (fun c : CatalogCandidate => (c.version, c.releaseId)) rowCmp h
      fun a ha b hb hab => ?_
    exact inj_on_of_nodup_map hnodup ha hb (congrArg Prod.fst hab)
  simp only [orderedCandidates, hsort]

/-- Which catalogs `Solver::catalog` accepts does not depend on the order of the rows. -/
theorem catalogRowsValid_perm (h : rows.Perm rows') :
    catalogRowsValid rows [] = catalogRowsValid rows' [] := by
  rw [Bool.eq_iff_iff, catalogRowsValid_iff, catalogRowsValid_iff]
  simp only [h.mem_iff, (h.map _).nodup_iff]

/-! ### Dependencies -/

/-- Agreement on kind, package or path, and alias. -/
def Dependency.SameTarget : Dependency → Dependency → Prop
  | .registry r, .registry r' => r.package = r'.package ∧ r.alias' = r'.alias'
  | .path d, .path d' => d.path = d'.path ∧ d.alias' = d'.alias'
  | _, _ => False

/-- No two dependencies of the list have the same target. -/
def Unrepeated (ds : List Dependency) : Prop := ds.Pairwise fun d d' => ¬ d.SameTarget d'

/-- Dependencies of the list that `dependency_key` does not separate have the same target. -/
def Separated (ds : List Dependency) : Prop :=
  ∀ d ∈ ds, ∀ d' ∈ ds, dependencyKey d = dependencyKey d' → d.SameTarget d'

/-- What the sort keeps of one dependency in the place of another: the target, and with `strict` the
dependency itself. -/
def Dependency.Matched (strict : Prop) (d d' : Dependency) : Prop := d.SameTarget d' ∧ (strict → d = d')

/-- The order of dependency keys. -/
def keyCmp : Nat × String × String → Nat × String × String → Ordering :=
  compareLex (compareOn (·.1)) (compareLex (compareOn (·.2.1)) (compareOn (·.2.2)))

instance : TransCmp keyCmp := inferInstanceAs (TransCmp (compareLex _ _))

instance : LawfulEqCmp keyCmp where
  eq_of_compare {a b} h := by
    simp only [keyCmp, compareLex_eq_eq, compareOn, LawfulEqCmp.compare_eq_iff_eq] at h
    exact Prod.ext h.1 (Prod.ext h.2.1 h.2.2)

variable {d d' : Dependency} {ds : List Dependency}

theorem separated_of_nodup (h : (ds.map dependencyKey).Nodup) : Separated ds := by
  intro d hd d' hd' hkey
  obtain rfl := inj_on_of_nodup_map h hd hd' hkey
  cases d <;> exact ⟨rfl, rfl⟩

/-- Two dependencies of a list without repetitions that have one target are one dependency. -/
theorem Unrepeated.eq_of_sameTarget (h : Unrepeated ds)
    (hd : d ∈ ds) (hd' : d' ∈ ds) (hsame : d.SameTarget d') : d = d' := by
  have hsymm : d'.SameTarget d := by
    cases d <;> cases d' <;> simp_all [Dependency.SameTarget]
  rcases pairwise_cases h hd hd' with heq | hne | hne
  · exact heq
  · exact absurd hsame hne
  · exact absurd hsymm hne

/-- **Dependency lists.**  Two orders of a separated list are sorted to lists that match place by
place. -/
theorem forall₂_sortBy_matched {strict : Prop} (hseparated : Separated ds)
    (hstrict : strict → Unrepeated ds) (hperm : ds.Perm ds') :
    List.Forall₂ (Dependency.Matched strict) (sortBy dependencyOrder ds) (sortBy dependencyOrder ds') := by
  have hkeys : (sortBy dependencyOrder ds).map dependencyKey =
      (sortBy dependencyOrder ds').map dependencyKey :=
    map_sortBy_eq_of_perm dependencyKey keyCmp hperm
  rw [← forall₂_eq_eq_eq, forall₂_map_left_iff, forall₂_map_right_iff] at hkeys
  rw [forall₂_iff_zip] at hkeys ⊢
  refine ⟨hkeys.1, ?_⟩
  intro d d' hzip
  obtain ⟨hd, hd'⟩ := of_mem_zip hzip
  rw [mem_sortBy] at hd hd'
  have hd'' : d' ∈ ds := hperm.mem_iff.mpr hd'
  have hsame := hseparated d hd d' hd'' (hkeys.2 hzip)
  exact ⟨hsame, fun hs => (hstrict hs).eq_of_sameTarget hd hd'' hsame⟩

/-! ### States that look alike -/

/-- A selection without the dependencies of its manifest, which the state records as constraints. -/
def Selection.core (sel : Selection) : Selection :=
  ⟨sel.candidate, { sel.verified with dependencies := [] }⟩

/-- The constrained packages and the links between packages are the same. -/
structure Shaped (st st' : SolverState) : Prop where
  mem : ∀ p, p ∈ st.constraints ↔ p ∈ st'.constraints
  linked : ∀ q t, st.Linked q t ↔ st'.Linked q t

/-- Two states the resolver cannot tell apart. -/
structure Similar (st st' : SolverState) : Prop where
  mem : ∀ p, p ∈ st.constraints ↔ p ∈ st'.constraints
  on : ∀ p, (st.constraintsOn p).Perm (st'.constraintsOn p)
  selected : ∀ p : PackageKey,
    (st.selected[p]?).map Selection.core = (st'.selected[p]?).map Selection.core
  paths : ∀ d, d ∈ st.paths ↔ d ∈ st'.paths

variable {st st' : SolverState}

section

variable (h : Shaped st st')
include h

theorem Shaped.keys_eq : st.constraints.keys = st'.constraints.keys :=
  keys_eq_of_mem_iff h.mem

theorem Shaped.size_eq : st.constraints.size = st'.constraints.size := by
  rw [← TreeMap.length_keys, ← TreeMap.length_keys, h.keys_eq]

theorem Shaped.contains_eq (p : PackageKey) :
    st.constraints.contains p = st'.constraints.contains p := by
  rw [Bool.eq_iff_iff, TreeMap.contains_iff_mem, TreeMap.contains_iff_mem, h.mem p]

theorem Shaped.dependencyPathExists_eq (start goal : PackageKey) :
    dependencyPathExists st start goal = dependencyPathExists st' start goal := by
  have hsucc : successors st = successors st' := by
    funext q
    simp only [successors, h.keys_eq]
    refine filter_congr fun t _ => ?_
    have hany : ∀ s : SolverState, ((s.constraintsOn t).any fun c => c.from' == some q) = true ↔
        s.Linked q t := by
      intro s
      simp [SolverState.Linked]
    rw [Bool.eq_iff_iff, hany, hany, h.linked q t]
  simp only [dependencyPathExists, hsucc, h.size_eq]

/-- Dependencies with one target shape a state alike. -/
theorem Shaped.withDependency (from' : Option PackageKey) (hsame : d.SameTarget d') :
    Shaped (st.withDependency from' d) (st'.withDependency from' d') := by
  cases d <;> cases d'
  case path.registry | registry.path => exact hsame.elim
  case path.path => exact ⟨h.mem, h.linked⟩
  case registry.registry r r' =>
    obtain ⟨hpackage, -⟩ := hsame
    constructor
    · intro p
      simp only [withDependency, mem_pushConstraint, hpackage, h.mem]
    · intro q t
      simp only [withDependency, linked_pushConstraint, hpackage, h.linked]

end

namespace Similar

variable (h : Similar st st')
include h

theorem shaped : Shaped st st' where
  mem := h.mem
  linked q t := by
    simp only [SolverState.Linked, (h.on t).mem_iff]

theorem keys_eq : st.constraints.keys = st'.constraints.keys :=
  h.shaped.keys_eq

/-- The selections in order, up to the dependencies of the manifests. -/
theorem entries_eq : st.selected.toList.map (fun entry => (entry.1, entry.2.core)) =
      st'.selected.toList.map fun entry => (entry.1, entry.2.core) :=
  map_toList_eq_of_lookup h.selected

theorem selectedConflict_eq : selectedConflict st = selectedConflict st' := by
  have hview : ∀ s : SolverState, selectedConflict s =
      ((s.selected.toList.map fun entry => (entry.1, entry.2.core)).find? fun entry =>
        (s.constraintsOn entry.1).any fun c =>
          !c.requirement.matches' entry.2.candidate.version).map (·.1) := by
    intro s
    rw [find?_map, Option.map_map]
    rfl
  rw [hview, hview, h.entries_eq]
  congr 2
  funext entry
  exact (h.on entry.1).any_eq

theorem nextPackage_eq : nextPackage st = nextPackage st' := by
  simp only [nextPackage, h.keys_eq]
  congr 1
  funext p
  have hselected := congrArg Option.isSome (h.selected p)
  simp only [Option.isSome_map] at hselected
  rw [TreeMap.contains_eq_isSome_getElem?, TreeMap.contains_eq_isSome_getElem?, hselected]

theorem requirementsFor_eq (p : PackageKey) : requirementsFor p st = requirementsFor p st' := by
  have hsort := sortBy_eq_of_perm display compare
    ((h.on p).map (·.requirement)) fun a _ b _ hab => display_injective hab
  exact congrArg (destutter (· ≠ ·)) hsort

theorem finish_packages (trace trace' : List TraceEvent) :
    (finish trace st).packages = (finish trace' st').packages := by
  have hview : ∀ (s : SolverState) t, (finish t s).packages =
      (s.selected.toList.map fun entry => (entry.1, entry.2.core)).map fun entry =>
        resolvedPackage entry.1 entry.2 := by
    intro s t
    rw [map_map]
    rfl
  rw [hview, hview, h.entries_eq]

theorem finish_paths (trace trace' : List TraceEvent) :
    (finish trace st).pathDependencies = (finish trace' st').pathDependencies :=
  (TreeSet.Equiv.of_forall_mem_iff h.paths).toList_eq

theorem edgesInto_perm (p : PackageKey) :
    (edgesInto st p (st.constraintsOn p)).Perm (edgesInto st' p (st'.constraintsOn p)) := by
  have hselected := h.selected p
  unfold edgesInto
  cases hsel : st.selected[p]? with
  | none =>
    rw [hsel, Option.map_none, eq_comm, Option.map_eq_none_iff] at hselected
    rw [hselected]
  | some sel =>
    rw [hsel, Option.map_some, eq_comm, Option.map_eq_some_iff] at hselected
    obtain ⟨sel', hsel', hcore⟩ := hselected
    have hversion : sel'.core.candidate = sel.core.candidate := by rw [hcore]
    simp only [hsel']
    rw [show sel'.candidate = sel.candidate from hversion]
    exact (h.on p).map _

theorem finish_edges (trace trace' : List TraceEvent) :
    (finish trace st).edges = (finish trace' st').edges := by
  have hview : ∀ s : SolverState,
      (s.constraints.toList.flatMap fun entry => edgesInto s entry.1 entry.2) =
        s.constraints.keys.flatMap fun p => edgesInto s p (s.constraintsOn p) := by
    intro s
    rw [← TreeMap.map_fst_toList_eq_keys, flatMap_map]
    refine flatMap_congr fun entry hentry => ?_
    have hget := TreeMap.mem_toList_iff_getElem?_eq_some.mp hentry
    rw [constraintsOn, TreeMap.getD_eq_getD_getElem?, hget, Option.getD_some]
  refine sortBy_eq_of_perm id ResolvedEdge.cmp ?_ fun a _ b _ hab => hab
  rw [hview, hview, h.keys_eq]
  exact List.Perm.flatMap_left _ fun p _ => h.edgesInto_perm p

/-- Selecting releases that differ in the order of their dependencies. -/
theorem select (p : PackageKey) {sel sel' : Selection} (hcore : sel.core = sel'.core) :
    Similar (st.select p sel) (st'.select p sel') where
  mem := h.mem
  on := h.on
  selected q := by
    rw [selected_select, selected_select]
    split
    · simp [hcore]
    · exact h.selected q
  paths := h.paths

end Similar

/-- What `paths` holds after a list of dependencies. -/
theorem mem_paths_withDependencies {from' : Option PackageKey} (ds : List Dependency) :
    ∀ (st : SolverState) (d : PreservedPathDependency), d ∈ (st.withDependencies from' ds).paths ↔
        d ∈ st.paths ∨ ∃ path, .path path ∈ ds ∧ d = ⟨from', path.alias', path.path, path.version⟩ := by
  induction ds with
  | nil =>
    intro st d
    simp [withDependencies]
  | cons e ds ih =>
    intro st d
    have hstep := ih (st.withDependency from' e) d
    refine hstep.trans ?_
    cases e with
    | registry r => simp [withDependency, pushConstraint]
    | path path =>
      simp only [withDependency, TreeSet.mem_insert, LawfulEqCmp.compare_eq_iff_eq,
        mem_cons, Dependency.path.injEq]
      constructor
      · rintro ((rfl | hd) | ⟨path', hpath', rfl⟩)
        · exact .inr ⟨path, .inl rfl, rfl⟩
        · exact .inl hd
        · exact .inr ⟨path', .inr hpath', rfl⟩
      · rintro (hd | ⟨path', rfl | hpath', rfl⟩)
        · exact .inl (.inr hd)
        · exact .inl (.inl rfl)
        · exact .inr ⟨path', hpath', rfl⟩

/-- Recording one list of dependencies in two orders. -/
theorem Similar.withDependencies (h : Similar st st') (htight : st.Tight) (htight' : st'.Tight)
    (from' : Option PackageKey) (hperm : ds.Perm ds') :
    Similar (st.withDependencies from' ds) (st'.withDependencies from' ds') where
  mem p := by
    rw [mem_withDependencies htight, mem_withDependencies htight', h.mem p]
    simp only [(hperm.filterMap Dependency.registry?).mem_iff, registryDependencies]
  on p := by
    rw [constraintsOn_withDependencies, constraintsOn_withDependencies]
    exact (h.on p).append (constraintsFrom_perm hperm p)
  selected p := by
    rw [selected_withDependencies, selected_withDependencies]
    exact h.selected p
  paths d := by
    rw [mem_paths_withDependencies, mem_paths_withDependencies, h.paths d]
    simp only [hperm.mem_iff]

end Axiomc.Package
