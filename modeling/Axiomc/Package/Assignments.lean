import Axiomc.Package.ResolverTypes

/-!
# Assignments of releases to packages

What the resolver is for, stated without any search.  A `World` is what an honest source publishes:
one catalog for every package and one manifest for every release of it.  An assignment gives every
package a release; only its values at the packages that are *needed* matter, those reached from the
root dependencies through the manifests of the releases it assigns.  `Solution` lists the conditions
an assignment has to meet.
-/

namespace Axiomc.Package

open Std Relation

/-- The registry dependencies of a dependency list. -/
def registryDependencies (dependencies : List Dependency) : List RegistryDependency :=
  dependencies.filterMap Dependency.registry?

theorem mem_registryDependencies {dependencies : List Dependency} {r : RegistryDependency} :
    r ∈ registryDependencies dependencies ↔ .registry r ∈ dependencies := by
  simp only [registryDependencies, List.mem_filterMap]
  constructor
  · rintro ⟨d, hd, hr⟩
    cases d with
    | registry d =>
      simp only [Dependency.registry?, Option.some.injEq] at hr
      exact hr ▸ hd
    | path d => simp [Dependency.registry?] at hr
  · intro h
    exact ⟨_, h, rfl⟩

/-- A verified release answers for the candidate it was asked for. -/
def VerifiedCandidate.Identifies (v : VerifiedCandidate) (package : PackageKey)
    (candidate : CatalogCandidate) : Prop :=
  v.package = package ∧ v.version = candidate.version ∧ v.releaseId = candidate.releaseId

/-- A package in the frozen map only takes its frozen version. -/
def FrozenRespected (request : ResolveRequest) (package : PackageKey)
    (version : ReleaseVersion) : Prop :=
  ∀ frozen, request.frozen[package]? = some frozen → version = frozen.version

/-- The cases in which a yanked version may be selected. -/
def YankReplay (request : ResolveRequest) (package : PackageKey) (version : ReleaseVersion) :
    Prop :=
  (request.mode = .locked ∧
    ((∃ locked, request.locked[package]? = some locked ∧ locked.version = version) ∨
      ∃ frozen, request.frozen[package]? = some frozen ∧ frozen.version = version)) ∨
  (request.mode = .update ∧
    ∃ frozen, request.frozen[package]? = some frozen ∧ frozen.version = version)

/-- What an honest source publishes. -/
structure World where
  catalogOf : PackageKey → AuthenticatedCatalog
  manifestOf : AuthenticatedCatalog → CatalogCandidate → VerifiedCandidate

/-- A source that always succeeds, answers as `world` does whatever its state, and identifies what
it was asked for. -/
structure Honest {σ : Type} (src : ResolverSource σ) (world : World) : Prop where
  authenticate : ∀ x package, (src.authenticateCatalog x package).1 = .ok (world.catalogOf package)
  catalogPackage : ∀ package, (world.catalogOf package).package = package
  verify : ∀ x catalog candidate,
    (src.verifyCandidate x catalog candidate).1 = .ok (world.manifestOf catalog candidate)
  identifies : ∀ catalog candidate,
    (world.manifestOf catalog candidate).Identifies catalog.package candidate

/-- The source that publishes a world. -/
def World.source (world : World) : ResolverSource Unit where
  authenticateCatalog _ package := (.ok (world.catalogOf package), ())
  verifyCandidate _ catalog candidate := (.ok (world.manifestOf catalog candidate), ())
  discardCandidate _ _ := ()

/-- A world whose catalogs and manifests carry their own identity has an honest source. -/
theorem World.honest_source {world : World}
    (hcatalog : ∀ package, (world.catalogOf package).package = package)
    (hmanifest : ∀ catalog candidate,
      (world.manifestOf catalog candidate).Identifies catalog.package candidate) :
    Honest world.source world where
  authenticate _ _ := rfl
  catalogPackage := hcatalog
  verify _ _ _ := rfl
  identifies := hmanifest

/-- The registry dependencies in the manifest of a release of a package. -/
def World.dependenciesOf (world : World) (package : PackageKey) (candidate : CatalogCandidate) :
    List RegistryDependency :=
  registryDependencies (world.manifestOf (world.catalogOf package) candidate).dependencies

/-- A choice of one release for every package. -/
abbrev Assignment := PackageKey → CatalogCandidate

/-- The packages an assignment needs. -/
inductive Needed (world : World) (request : ResolveRequest) (A : Assignment) : PackageKey → Prop
  | root {r : RegistryDependency} :
      r ∈ registryDependencies request.dependencies → Needed world request A r.package
  | dependency {package : PackageKey} {r : RegistryDependency} :
      Needed world request A package → r ∈ world.dependenciesOf package (A package) →
      Needed world request A r.package

/-- The dependency arcs between the packages an assignment needs. -/
def Assignment.Arc (world : World) (request : ResolveRequest) (A : Assignment)
    (package target : PackageKey) : Prop :=
  Needed world request A package ∧
    ∃ r ∈ world.dependenciesOf package (A package), r.package = target

/-- The assignments a resolution may be. -/
structure Solution (world : World) (request : ResolveRequest) (A : Assignment) : Prop where
  listed : ∀ package, Needed world request A package →
    A package ∈ (world.catalogOf package).candidates
  rootMet : ∀ r ∈ registryDependencies request.dependencies,
    r.requirement.matches' (A r.package).version = true
  dependencyMet : ∀ package, Needed world request A package →
    ∀ r ∈ world.dependenciesOf package (A package),
      r.requirement.matches' (A r.package).version = true
  frozen : ∀ package, Needed world request A package →
    FrozenRespected request package (A package).version
  yanked : ∀ package, Needed world request A package →
    (A package).yanked = true → YankReplay request package (A package).version
  acyclic : ∀ package, ¬ TransGen (A.Arc world request) package package

end Axiomc.Package
