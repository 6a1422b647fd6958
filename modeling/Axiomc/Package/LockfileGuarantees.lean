import Axiomc.Package.LockfileVersions

/-!
# What an accepted lockfile guarantees

`RecordsValid` says what the checks on single records and edges establish, and
`validateRecords_iff` that they establish exactly this.  On such a lockfile neither graph check can
panic or run out of rounds, and

* `validateAcyclicV2Graph_iff`: the first accepts exactly the graphs without a cycle;
* `validateConnectedV2Graph_iff`: the second accepts exactly those whose packages are all reachable
  from a root.

`validateLockfileV2_guarantees` puts the parts together.  The versions that edges select need a
condition: a locked version may have a component that is no 64-bit number, and then no release version
of the resolver is selected (`accepts_overflowing_version`).
-/

namespace Axiomc.Package.Lockfile

open Foundation Relation Std List

/-! ### The guarantees -/

/-- No cycle, self-loops included. -/
def Acyclic (L : LockfileV2) : Prop := ∀ x, ¬ TransGen (Edge L.arcs) x x

/-- Every package is reachable from a root. -/
def Connected (L : LockfileV2) : Prop :=
  ∀ p ∈ L.package, ∃ r ∈ L.roots, ReflTransGen (Edge L.arcs) r p.id

/-- Every root is the id of a path package. -/
def RootsArePathPackages (L : LockfileV2) : Prop :=
  ∀ r ∈ L.roots, ∃ p ∈ L.package, p.id = r ∧ isPathSource p.source = true

/-- Every edge leads to a version that the resolver reads and the constraint selects. -/
def TargetsSelected (L : LockfileV2) : Prop :=
  ∀ e ∈ L.edge, ∃ t ∈ L.package, t.id = e.toId ∧ SelectsText e.requested t.version

/-- Every edge leads to a version of 64-bit components. -/
def TargetsFit (L : LockfileV2) : Prop :=
  ∀ e ∈ L.edge, ∀ t ∈ L.package, t.id = e.toId → Fits t.version

/-! ### Single records and edges -/

/-- What is checked of one edge, apart from the other edges. -/
structure EdgeValid (platform : Platform) (path : String) (L : LockfileV2)
    (e : LockedDependencyEdgeV2) : Prop where
  from_known : e.fromId ∈ L.ids
  to_known : e.toId ∈ L.ids
  alias_portable : validatePortableName path "edge.alias" e.aliasName = .ok ()
  constraint : IsConstraint e.requested
  target : ∃ t, L.find e.toId = some t ∧ validateSourceKind platform path e t = .ok () ∧
    lockedVersionMatches e.requested t.version = true ∧ reasonFits L e t = true

/-- What is checked before the graph is looked at. -/
structure RecordsValid (platform : Platform) (path : String) (L : LockfileV2) : Prop where
  version : L.version = 2
  compatibility : validateCompatibility path "compatibility" L.compatibility = .ok ()
  registries_sorted : strictlySorted byteOrder (L.registry.map (·.name)) = true
  registries : ∀ r ∈ L.registry, validateRegistry platform path r = .ok ()
  identities : (L.registry.map (·.identities)).Nodup
  packages_sorted : strictlySorted byteOrder L.ids = true
  packages : ∀ p ∈ L.package,
    validateLockedPackageV2 platform path (L.registry.map (·.name)) p = .ok ()
  coordinates : (L.package.filterMap (·.coordinate)).Nodup
  roots_nonempty : L.roots ≠ []
  roots_sorted : strictlySorted byteOrder L.roots = true
  roots : ∀ r ∈ L.roots, validateRoot platform path L r = .ok ()
  edges_sorted : strictlySorted edgeOrder L.edge = true
  edges : ∀ e ∈ L.edge, EdgeValid platform path L e
  aliases : (L.edge.map fun e => (e.fromId, e.aliasName)).Nodup

variable {platform : Platform} {path : String} {L : LockfileV2} {α : Type}

@[simp] theorem requireStrictlySorted_eq_ok {cmp : α → α → Ordering} {label : String}
    {values : List α} :
    requireStrictlySorted cmp path label values = .ok () ↔ strictlySorted cmp values = true := by
  simp [requireStrictlySorted]

theorem strictlySorted_pairwise {cmp : α → α → Ordering} [TransCmp cmp] :
    ∀ {values : List α}, strictlySorted cmp values = true →
      values.Pairwise fun a b => cmp a b = .lt := by
  intro values h
  have : IsTrans α fun a b => cmp a b = .lt := ⟨fun _ _ _ => TransCmp.lt_trans⟩
  rw [← isChain_iff_pairwise]
  induction values with
  | nil => exact .nil
  | cons a values ih =>
    cases values with
    | nil => exact .singleton a
    | cons b rest =>
      simp only [strictlySorted, Bool.and_eq_true, beq_iff_eq] at h
      exact .cons_cons h.1 (ih h.2)

theorem strictlySorted_nodup {values : List Text} (h : strictlySorted byteOrder values = true) :
    values.Nodup :=
  (strictlySorted_pairwise h).imp ne_of_byteOrder_lt

@[simp] theorem validateConstraint_eq_ok {field : String} {value : Text} :
    validateConstraint path field value true = .ok () ↔ IsConstraint value := by
  by_cases hstar : value = lit "*"
  · simp [validateConstraint, IsConstraint, hstar]
  · simp [validateConstraint, validateExactVersion, IsConstraint, hstar]

theorem validateEdge_eq_ok {seen : List (Text × Text)} {e : LockedDependencyEdgeV2} :
    validateEdge platform path L seen e = .ok () ↔
      EdgeValid platform path L e ∧ (e.fromId, e.aliasName) ∉ seen := by
  simp only [validateEdge, expectSome, check_bind_eq_ok, require_bind_eq_ok, reject_eq_ok,
    validateConstraint_eq_ok, not_or, not_not]
  constructor
  · rintro ⟨⟨hfrom, hto⟩, halias, hconstraint, hfresh, t, ht, hkind, hmatches, hreason⟩
    exact ⟨⟨hfrom, hto, halias, hconstraint, t, ht, hkind, by simpa using hmatches,
      by simpa using hreason⟩, hfresh⟩
  · rintro ⟨⟨hfrom, hto, halias, hconstraint, t, ht, hkind, hmatches, hreason⟩, hfresh⟩
    exact ⟨⟨hfrom, hto⟩, halias, hconstraint, hfresh, t, ht, hkind, by simpa using hmatches,
      by simpa using hreason⟩

variable {p : LockedPackageV2}

theorem validateFreshCoordinate_eq_ok {seen : List (Text × Text × Text)} :
    validateFreshCoordinate path seen p = .ok () ↔ ∀ k, p.coordinate = some k → k ∉ seen := by
  unfold validateFreshCoordinate
  cases p.coordinate with
  | none => simp
  | some k => simp

theorem validateRegistries_eq_ok {registries : List LockedRegistryV2} :
    validateRegistries platform path registries = .ok () ↔
      (∀ r ∈ registries, validateRegistry platform path r = .ok ()) ∧
        (registries.map (·.identities)).Nodup := by
  rw [validateRegistries, scanFresh_eq_ok_iff (P := fun r => validateRegistry platform path r = .ok ())
    (fun seen r => by simp)]
  simp

theorem validatePackages_eq_ok {configured : List Text} {packages : List LockedPackageV2} :
    validatePackages platform path configured packages = .ok () ↔
      (∀ p ∈ packages, validateLockedPackageV2 platform path configured p = .ok ()) ∧
        (packages.filterMap (·.coordinate)).Nodup := by
  rw [validatePackages, scanFresh_eq_ok_iff
    (fun seen p => by rw [check_bind_eq_ok, validateFreshCoordinate_eq_ok])]
  simp

theorem validateEdges_eq_ok : validateEdges platform path L = .ok () ↔
      (∀ e ∈ L.edge, EdgeValid platform path L e) ∧
        (L.edge.map fun e => (e.fromId, e.aliasName)).Nodup := by
  rw [validateEdges, scanFresh_eq_ok_iff (P := EdgeValid platform path L)
    (fun seen e => by rw [validateEdge_eq_ok]; simp)]
  simp

/-- **The checks on single records and edges**, as facts about the lockfile. -/
theorem validateRecords_iff :
    validateRecords platform path L = .ok () ↔ RecordsValid platform path L := by
  simp only [validateRecords, check_bind_eq_ok, reject_eq_ok, requireStrictlySorted_eq_ok,
    validateRegistries_eq_ok, validatePackages_eq_ok, validateEdges_eq_ok, forM_eq_ok_iff,
    List.isEmpty_iff, not_not]
  constructor
  · rintro ⟨hversion, hcompat, hregSorted, ⟨hreg, hident⟩, hpkgSorted, ⟨hpkg, hcoord⟩, hroots,
      hrootSorted, hroot, hedgeSorted, hedge, halias⟩
    exact ⟨hversion, hcompat, hregSorted, hreg, hident, hpkgSorted, hpkg, hcoord, hroots,
      hrootSorted, hroot, hedgeSorted, hedge, halias⟩
  · intro h
    exact ⟨h.version, h.compatibility, h.registries_sorted, ⟨h.registries, h.identities⟩,
      h.packages_sorted, ⟨h.packages, h.coordinates⟩, h.roots_nonempty, h.roots_sorted, h.roots,
      h.edges_sorted, h.edges, h.aliases⟩

/-! ### Packages by id -/

theorem find_eq_some {id : Text} (h : L.find id = some p) : p ∈ L.package ∧ p.id = id := by
  refine ⟨mem_of_find?_eq_some h, ?_⟩
  simpa using find?_some h

namespace RecordsValid

variable (h : RecordsValid platform path L)

include h

theorem ids_nodup : L.ids.Nodup := strictlySorted_nodup h.packages_sorted

variable {p : LockedPackageV2}

theorem eq_of_id {q : LockedPackageV2} (hp : p ∈ L.package) (hq : q ∈ L.package)
    (hid : p.id = q.id) : p = q :=
  inj_on_of_nodup_map h.ids_nodup hp hq hid

theorem arcs_known : ∀ a b, Edge L.arcs a b → a ∈ L.ids ∧ b ∈ L.ids := by
  intro a b hab
  simp only [Edge, LockfileV2.arcs, mem_map] at hab
  obtain ⟨e, he, rfl, rfl⟩ := hab
  exact ⟨(h.edges e he).from_known, (h.edges e he).to_known⟩

/-- A package whose source starts with `path` is a path package: the other sources of a valid record
start with `registry:`. -/
theorem isPathSource_of_start (hp : p ∈ L.package)
    (hstart : (lit "path").isPrefixOf p.source = true) : isPathSource p.source = true := by
  have hvalid := h.packages p hp
  by_contra hnot
  simp only [validateLockedPackageV2, hnot] at hvalid
  cases hregistry : stripStart (lit "registry:") p.source with
  | none => simp [hregistry] at hvalid
  | some rest =>
    rw [stripStart_eq_some_iff] at hregistry
    rw [hregistry, isPrefixOf_iff_prefix] at hstart
    obtain ⟨tail, htail⟩ := hstart
    have hhead : some 'p' = some 'r' := congrArg head? htail
    exact absurd hhead (by decide)

theorem rootsArePathPackages : RootsArePathPackages L := by
  intro r hr
  have hroot := h.roots r hr
  simp only [validateRoot, expectSome, check_bind_eq_ok, require_bind_eq_ok, reject_eq_ok] at hroot
  obtain ⟨-, p, hp, hstart⟩ := hroot
  obtain ⟨hmem, hid⟩ := find_eq_some hp
  exact ⟨p, hmem, hid, h.isPathSource_of_start hmem (by simpa using hstart)⟩

theorem roots_known : ∀ r ∈ L.roots, r ∈ L.ids := by
  intro r hr
  obtain ⟨p, hp, rfl, -⟩ := h.rootsArePathPackages r hr
  exact mem_map_of_mem hp

theorem exact_version (hp : p ∈ L.package) : isExactVersion p.version = true := by
  have hvalid := h.packages p hp
  simp only [validateLockedPackageV2, check_bind_eq_ok] at hvalid
  obtain ⟨-, -, hvalid⟩ := hvalid
  split at hvalid
  · simp only [validatePathPackage, check_bind_eq_ok, validateExactVersion, reject_eq_ok,
      not_not] at hvalid
    exact hvalid.1
  · split at hvalid
    · cases hvalid
    · simp only [validateRegistryPackage, check_bind_eq_ok, validateExactVersion, reject_eq_ok,
        not_not] at hvalid
      exact hvalid.2.1

/-- The constraints of valid edges select their targets exactly when these are 64-bit versions. -/
theorem targetsSelected_iff : TargetsSelected L ↔ TargetsFit L := by
  constructor
  · intro hselected e he t ht hid
    obtain ⟨t', ht', hid', hsel⟩ := hselected e he
    obtain ⟨found, hfound, -, hmatches, -⟩ := (h.edges e he).target
    obtain ⟨hmem, hfoundId⟩ := find_eq_some hfound
    have hsame : t' = t := h.eq_of_id ht' ht (hid'.trans hid.symm)
    have hsameFound : found = t := h.eq_of_id hmem ht (hfoundId.trans hid.symm)
    subst hsame hsameFound
    exact (selects_iff_fits (h.exact_version ht) (h.edges e he).constraint hmatches).1 hsel
  · intro hfit e he
    obtain ⟨t, ht, -, hmatches, -⟩ := (h.edges e he).target
    obtain ⟨hmem, hid⟩ := find_eq_some ht
    refine ⟨t, hmem, hid, ?_⟩
    exact (selects_iff_fits (h.exact_version hmem) (h.edges e he).constraint hmatches).2
      (hfit e he t hmem hid)

/-! ### The graph -/

theorem validateAcyclicV2Graph_iff : validateAcyclicV2Graph path L = .ok () ↔ Acyclic L := by
  have hspec : ∃ (count : Nat) (incoming : TreeMap Text Nat byteOrder),
      sweepAll L.ids L.arcs = some (count, incoming) ∧ incoming.size = L.ids.length ∧
        (count = L.ids.length ↔ ∀ x, ¬ TransGen (Edge L.arcs) x x) :=
    sweepAll_spec h.ids_nodup h.arcs_known
  obtain ⟨count, incoming, hsweep, hsize, hcount⟩ := hspec
  simp only [validateAcyclicV2Graph, expectSome, require_bind_eq_ok, hsweep, Option.some.injEq,
    exists_eq_left', reject_eq_ok, not_not, hsize]
  exact hcount

theorem validateConnectedV2Graph_iff :
    validateConnectedV2Graph platform path L = .ok () ↔ Connected L := by
  have hstart : L.roots.toFinset ⊆ L.ids.toFinset := by
    intro r hr
    simpa using h.roots_known r (by simpa using hr)
  have hholds : Holds (L.roots.foldl (fun set root => set.insert root) (∅ : TreeSet Text byteOrder))
      L.roots.toFinset := by
    simpa using holds_empty.foldl_insert L.roots
  have hcard : L.ids.toFinset.card = L.package.length := by
    rw [toFinset_card_of_nodup h.ids_nodup, LockfileV2.ids, length_map]
  obtain ⟨final, reached, hclose, hfinal, hreached⟩ :=
    closeUnder_spec (fun a b hab => by simpa using (h.arcs_known a b hab).2) hstart
      (L.package.length + L.roots.length + 1) _ _ hholds (Finset.Subset.refl _) hstart
      (fun x hx => ⟨x, hx, ReflTransGen.refl⟩) (by omega)
  have hsub : reached ⊆ L.ids.toFinset := by
    intro x hx
    obtain ⟨r, hr, hpath⟩ := (hreached x).1 hx
    rcases ReflTransGen.cases_tail hpath with rfl | ⟨y, -, hyx⟩
    · exact hstart hr
    · simpa using (h.arcs_known y x hyx).2
  simp only [validateConnectedV2Graph, require_bind_eq_ok, hclose, Option.some.injEq,
    exists_eq_left', reject_eq_ok, not_not, hfinal.size_eq]
  rw [← hcard]
  constructor
  · intro hsize p hp
    have hall := Finset.eq_of_subset_of_card_le hsub (Nat.le_of_eq hsize.symm)
    have hmem : p.id ∈ reached := by
      rw [hall, mem_toFinset]
      exact mem_map_of_mem hp
    simpa using (hreached p.id).1 hmem
  · intro hconnected
    congr 1
    refine Finset.Subset.antisymm hsub ?_
    intro x hx
    rw [mem_toFinset, LockfileV2.ids, mem_map] at hx
    obtain ⟨p, hp, rfl⟩ := hx
    exact (hreached p.id).2 (by simpa using hconnected p hp)

theorem validate_iff : validateLockfileV2At platform path L = .ok () ↔ Acyclic L ∧ Connected L := by
  simp [validateLockfileV2At, validateRecords_iff.2 h, h.validateAcyclicV2Graph_iff,
    h.validateConnectedV2Graph_iff]

end RecordsValid

/-! ### Accepted lockfiles -/

/-- **Lockfile validation.**  An accepted lockfile has a graph without cycles in which every package is
reachable from a root, distinct ids, at most one package for a registry coordinate, at most one edge
for an alias of a package, and roots that are path packages; its edges select their targets exactly
when these are 64-bit versions.  For valid records the two graph properties decide. -/
theorem validateLockfileV2_guarantees (platform : Platform) (L : LockfileV2) :
    (validateLockfileV2 platform L = .ok () →
      Acyclic L ∧ Connected L ∧ L.ids.Nodup ∧ (L.package.filterMap (·.coordinate)).Nodup ∧
        (L.edge.map fun e => (e.fromId, e.aliasName)).Nodup ∧ RootsArePathPackages L ∧
        (TargetsSelected L ↔ TargetsFit L)) ∧
    (RecordsValid platform "axiom.lock" L →
      (validateLockfileV2 platform L = .ok () ↔ Acyclic L ∧ Connected L)) := by
  constructor
  · intro haccepted
    have h : RecordsValid platform "axiom.lock" L := by
      simp only [validateLockfileV2, validateLockfileV2At, check_bind_eq_ok] at haccepted
      exact validateRecords_iff.1 haccepted.1
    obtain ⟨hacyclic, hconnected⟩ := h.validate_iff.1 haccepted
    exact ⟨hacyclic, hconnected, h.ids_nodup, h.coordinates, h.aliases, h.rootsArePathPackages,
      h.targetsSelected_iff⟩
  · intro h
    exact h.validate_iff

/-- A platform that parses no address; path packages never ask it. -/
def plainPlatform : Platform where
  debug := String.ofList
  parseIpv4 := fun _ => none
  parseIpv6 := fun _ => none

def plainCompatibility : LockedCompatibilityEvidence :=
  ⟨lit "v1", lit "axiomc", lit "2026"⟩

/-- A root that asks for any version of a path package whose major version is `2 ^ 64`. -/
def overflowingLockfile : LockfileV2 where
  version := 2
  compatibility := plainCompatibility
  roots := [lit "path:.#app@1.0.0"]
  package :=
    [{ id := lit "path:.#app@1.0.0", name := lit "app", version := lit "1.0.0"
       source := lit "path", compatibility := plainCompatibility },
     { id := lit "path:lib#lib@18446744073709551616.0.0", name := lit "lib"
       version := lit "18446744073709551616.0.0", source := lit "path:lib"
       compatibility := plainCompatibility }]
  edge :=
    [{ fromId := lit "path:.#app@1.0.0", toId := lit "path:lib#lib@18446744073709551616.0.0"
       aliasName := lit "lib", requested := lit "*", sourceKind := .path
       reason := .rootPathConstraint }]

/-- It is accepted, and the resolver cannot read the version its edge leads to. -/
theorem accepts_overflowing_version : validateLockfileV2 plainPlatform overflowingLockfile = .ok () ∧
      ¬ TargetsSelected overflowingLockfile := by
  have haccepted : validateLockfileV2 plainPlatform overflowingLockfile = .ok () := by
    decide +kernel
  refine ⟨haccepted, ?_⟩
  intro hselected
  obtain ⟨t, ht, hid, v, hparse, -⟩ := hselected _ mem_cons_self
  have hversion : t.version = lit "18446744073709551616.0.0" := by
    rcases mem_cons.1 ht with rfl | ht
    · revert hid
      decide
    · rw [mem_singleton.1 ht]
  rw [hversion] at hparse
  revert hparse
  have hoverflow : ReleaseVersion.parse (String.ofList (lit "18446744073709551616.0.0")) =
      .error (.componentOverflow "18446744073709551616.0.0") := by
    decide +kernel
  intro hok
  cases hok

end Axiomc.Package.Lockfile
