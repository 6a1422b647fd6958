import Axiomc.Package.ResolverGuarantees

/-!
# The graph of a resolution

The arcs of a resolution are its edges with a `from` package; an edge without one is a dependency of
the root.  Edges are made from the constraints of the solved state (`exists_edge_iff`), so what
`WellFormed` says about its links and its reached packages is what there is to say about the graph:
the incremental check of `dependency_path_exists` has kept the links acyclic, and a package is
constrained only through the root or a selected manifest.
-/

namespace Axiomc.Package

open Std Relation Axiomc.Foundation List

variable {σ : Type}

/-- A package depends on another in a resolution. -/
def Resolution.Arc (r : Resolution) (q t : PackageKey) : Prop :=
  ∃ e ∈ r.edges, e.from' = some q ∧ e.to' = t

/-- A package is reached from an edge of the root. -/
def Resolution.FromRoot (r : Resolution) (p : PackageKey) : Prop :=
  ∃ e ∈ r.edges, e.from' = none ∧ ReflTransGen r.Arc e.to' p

variable {sol : SolverState} {trace : List TraceEvent} {request : ResolveRequest}
  {t q : PackageKey} {r : RegistryDependency}

section

variable (hcomplete : nextPackage sol = none)
include hcomplete

/-- The edges of a solved state are its constraints. -/
theorem exists_edge_iff {from' : Option PackageKey} :
    (∃ e ∈ (finish trace sol).edges, e.from' = from' ∧ e.to' = t) ↔
      ∃ c ∈ sol.constraintsOn t, c.from' = from' := by
  simp only [finish, mem_sortBy, mem_flatMap]
  constructor
  · rintro ⟨e, ⟨⟨p, cs⟩, hentry, he⟩, hfrom, hto⟩
    obtain ⟨hcs, sel, -, hedges⟩ := edgesInto_eq hcomplete hentry
    rw [hedges, mem_map] at he
    obtain ⟨c, hc, rfl⟩ := he
    obtain rfl : p = t := hto
    exact ⟨c, hcs ▸ hc, hfrom⟩
  · intro h
    obtain ⟨c, hc, hfrom⟩ := h
    have hentry : (t, sol.constraintsOn t) ∈ sol.constraints.toList := by
      rw [TreeMap.mem_toList_iff_getElem?_eq_some]
      rw [SolverState.constraintsOn, TreeMap.getD_eq_getD_getElem?] at hc ⊢
      cases hget : sol.constraints[t]? with
      | none => simp [hget] at hc
      | some cs => rfl
    obtain ⟨-, sel, -, hedges⟩ := edgesInto_eq hcomplete hentry
    refine ⟨⟨c.from', c.alias', t, c.requirement, sel.candidate.version⟩, ?_, hfrom, rfl⟩
    refine ⟨(t, sol.constraintsOn t), hentry, ?_⟩
    rw [hedges]
    exact mem_map_of_mem hc

theorem arc_finish_iff : (finish trace sol).Arc q t ↔ sol.Linked q t :=
  exists_edge_iff hcomplete

/-- What the root requires is an edge of the root. -/
theorem rootEdge_finish (trace : List TraceEvent) (hwf : WellFormed request sol)
    (hr : r ∈ registryDependencies request.dependencies) :
    ∃ e ∈ (finish trace sol).edges, e.from' = none ∧ e.to' = r.package := by
  rw [exists_edge_iff hcomplete]
  refine ⟨⟨none, r.alias', r.requirement⟩, (hwf.exact r.package).mem_iff.mpr ?_, rfl⟩
  exact mem_append_left _ (mem_constraintsFrom.mpr ⟨r, hr, rfl, rfl⟩)

/-- What a selected manifest requires is an arc. -/
theorem arc_finish_of_manifest (hwf : WellFormed request sol) {sel : Selection}
    (hsel : sol.selected[q]? = some sel) (hr : r ∈ registryDependencies sel.verified.dependencies) :
    (finish trace sol).Arc q r.package := by
  rw [arc_finish_iff hcomplete]
  refine ⟨⟨some q, r.alias', r.requirement⟩, (hwf.exact r.package).mem_iff.mpr ?_, rfl⟩
  refine mem_append_right _ (mem_flatMap.mpr ⟨(q, sel), ?_, ?_⟩)
  · exact TreeMap.mem_toList_iff_getElem?_eq_some.mpr hsel
  · exact mem_constraintsFrom.mpr ⟨r, hr, rfl, rfl⟩

/-- A reached package is reached along the arcs of the resolution. -/
theorem fromRoot_of_reached (hwf : WellFormed request sol) {p : PackageKey}
    (h : Reached request sol.selected p) : (finish trace sol).FromRoot p := by
  induction h with
  | root hr =>
    obtain ⟨e, he, hfrom, hto⟩ := rootEdge_finish hcomplete trace hwf hr
    exact ⟨e, he, hfrom, hto ▸ .refl⟩
  | dependency _ hsel hr ih =>
    obtain ⟨e, he, hfrom, hpath⟩ := ih
    exact ⟨e, he, hfrom, hpath.tail (arc_finish_of_manifest hcomplete hwf hsel hr)⟩

end

/-- **The graph of a resolution.**  Its arcs join selected packages and have no cycle, and every
selected package is reached from an edge of the root. -/
theorem resolvePackages_graph (src : ResolverSource σ)
    (validate : Resolution → Except String Unit) (x : σ) (request : ResolveRequest)
    (r : Resolution) (h : (resolvePackages src validate x request).1 = .ok r) :
    (∀ q t, r.Arc q t → (∃ pkg ∈ r.packages, pkg.package = q) ∧ ∃ pkg ∈ r.packages, pkg.package = t) ∧
      (∀ p, ¬ TransGen r.Arc p p) ∧ ∀ pkg ∈ r.packages, r.FromRoot pkg.package := by
  have hrun := resolvePackages_run src validate x request
  rw [h] at hrun
  obtain ⟨sol, ds, hinv, hsolved, rfl⟩ := hrun
  have hwf := hinv.wellFormed
  have harcs : (finish (resolvePackages src validate x request).2.trace sol).Arc = sol.Linked := by
    funext q t
    exact propext (arc_finish_iff hsolved.complete)
  have hselected : ∀ q sel, sol.selected[q]? = some sel →
      ∃ pkg ∈ (finish (resolvePackages src validate x request).2.trace sol).packages,
        pkg.package = q := by
    intro q sel hsel
    exact ⟨_, mem_finish_packages.mpr ⟨q, sel, hsel, rfl⟩, rfl⟩
  refine ⟨?_, ?_, ?_⟩
  · intro q t harc
    rw [harcs] at harc
    obtain ⟨c, hc, hfrom⟩ := harc
    have ht : t ∈ sol.constraints := (hwf.tight t).mpr (ne_nil_of_mem hc)
    obtain ⟨tsel, htsel⟩ := nextPackage_none hsolved.complete ht
    refine ⟨?_, hselected t tsel htsel⟩
    rcases hwf.origin hc with ⟨hroot, -⟩ | ⟨q', sel, hfrom', hsel, -⟩
    · rw [hfrom] at hroot
      cases hroot
    · obtain rfl : q = q' := Option.some.inj (hfrom.symm.trans hfrom')
      exact hselected q sel hsel
  · rw [harcs]
    exact hwf.acyclic
  · intro pkg hpkg
    obtain ⟨p, sel, hsel, rfl⟩ := mem_finish_packages.mp hpkg
    exact fromRoot_of_reached hsolved.complete hwf (hwf.reached p (hwf.constrained p sel hsel))

theorem pairRun_graph : ∃ r, pairRun.1 = .ok r ∧ r.packages.length = 2 ∧ (∀ p, ¬ TransGen r.Arc p p) ∧
      ∀ pkg ∈ r.packages, r.FromRoot pkg.package := by
  obtain ⟨r, hr, hlength⟩ := pairRun_ok
  exact ⟨r, hr, hlength, (resolvePackages_graph _ _ _ _ r hr).2⟩

end Axiomc.Package
