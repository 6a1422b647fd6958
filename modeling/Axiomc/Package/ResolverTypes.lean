import Axiomc.Package.Version

/-!
# The vocabulary of the package resolver

The data types of `package_resolver.rs`, with the fields the resolver reads or returns.  A
`BTreeMap` is the standard tree map over the same key order, so iteration runs through the keys in
ascending order as it does in the source.

A `ResolverSource` is an arbitrary stateful object: each of its three methods may answer from its
state and change it.  `SourceCall` is one call the resolver made together with the answer it got;
the list of them is the history the temporal properties speak about.  `discard_candidate` receives
the candidate only; the history also records the package on whose behalf the solver made the call.
-/

namespace Axiomc.Package

open Std

/-- `PackageKey`. -/
structure PackageKey where
  (registry source namespace' name : String)
  deriving DecidableEq, Repr

/-- The derived order of `PackageKey`. -/
def PackageKey.cmp : PackageKey → PackageKey → Ordering :=
  compareLex (compareOn (·.registry)) (compareLex (compareOn (·.source))
    (compareLex (compareOn (·.namespace')) (compareOn (·.name))))

instance : Ord PackageKey := ⟨PackageKey.cmp⟩

instance : TransOrd PackageKey := inferInstanceAs (TransCmp (compareLex _ _))

instance : LawfulEqOrd PackageKey where
  eq_of_compare {a b} h := by
    have h' : PackageKey.cmp a b = .eq := h
    simp only [PackageKey.cmp, compareLex_eq_eq, compareOn,
      LawfulEqCmp.compare_eq_iff_eq] at h'
    obtain ⟨h₁, h₂, h₃, h₄⟩ := h'
    cases a
    cases b
    simp_all

/-- `impl Display for PackageKey`. -/
def PackageKey.display (p : PackageKey) : String :=
  p.registry ++ "@" ++ p.source ++ "::" ++ p.namespace' ++ "/" ++ p.name

/-- `RegistryDependency`. -/
structure RegistryDependency where
  alias' : String
  package : PackageKey
  requirement : VersionRequirement
  deriving DecidableEq, Repr

/-- `PathDependency`. -/
structure PathDependency where
  alias' : String
  path : String
  version : Option ReleaseVersion
  deriving DecidableEq, Repr

/-- `Dependency`. -/
inductive Dependency where
  | registry (dependency : RegistryDependency)
  | path (dependency : PathDependency)
  deriving DecidableEq, Repr

/-- The registry dependency inside a dependency, if it is one. -/
def Dependency.registry? : Dependency → Option RegistryDependency
  | registry dependency => some dependency
  | path _ => none

/-- `CatalogCandidate`. -/
structure CatalogCandidate where
  version : ReleaseVersion
  yanked : Bool
  releaseId : String
  deriving DecidableEq, Repr

/-- `AuthenticatedCatalog`. -/
structure AuthenticatedCatalog where
  package : PackageKey
  candidates : List CatalogCandidate
  authenticationId : String
  deriving DecidableEq, Repr

/-- `VerifiedCandidate`. -/
structure VerifiedCandidate where
  package : PackageKey
  version : ReleaseVersion
  releaseId : String
  dependencies : List Dependency
  manifestDigest : String
  signerKeyIds : List String
  edition : String
  compatibility : String
  deriving DecidableEq, Repr

/-- `SourceFailure`. -/
structure SourceFailure where
  code : String
  message : String
  deriving DecidableEq, Repr

/-- `trait ResolverSource`, as a machine with states in `σ`. -/
structure ResolverSource (σ : Type) where
  authenticateCatalog : σ → PackageKey → Except SourceFailure AuthenticatedCatalog × σ
  verifyCandidate :
    σ → AuthenticatedCatalog → CatalogCandidate → Except SourceFailure VerifiedCandidate × σ
  discardCandidate : σ → CatalogCandidate → σ

/-- `LockedSelection`. -/
structure LockedSelection where
  version : ReleaseVersion
  deriving DecidableEq, Repr

/-- `ResolverLimits`. -/
structure ResolverLimits where
  maxPackages : Nat
  maxCatalogCandidates : Nat
  maxCandidateAttempts : Nat
  maxBacktracks : Nat
  maxTraceEvents : Nat
  deriving DecidableEq, Repr

/-- `impl Default for ResolverLimits`. -/
def ResolverLimits.default : ResolverLimits where
  maxPackages := 256
  maxCatalogCandidates := 16384
  maxCandidateAttempts := 16384
  maxBacktracks := 8192
  maxTraceEvents := 65536

/-- `ResolutionMode`. -/
inductive ResolutionMode where
  | fresh
  | locked
  | update
  deriving DecidableEq, Repr

/-- `ResolveRequest`. -/
structure ResolveRequest where
  dependencies : List Dependency
  locked : TreeMap PackageKey LockedSelection
  frozen : TreeMap PackageKey LockedSelection
  mode : ResolutionMode
  limits : ResolverLimits

/-- `ResolvedPackage`. -/
structure ResolvedPackage where
  package : PackageKey
  version : ReleaseVersion
  releaseId : String
  manifestDigest : String
  signerKeyIds : List String
  edition : String
  compatibility : String
  yanked : Bool
  deriving DecidableEq, Repr

/-- `ResolvedEdge`. -/
structure ResolvedEdge where
  from' : Option PackageKey
  alias' : String
  to' : PackageKey
  requirement : VersionRequirement
  selected : ReleaseVersion
  deriving DecidableEq, Repr

/-- The derived order of `ResolvedEdge`. -/
def ResolvedEdge.cmp : ResolvedEdge → ResolvedEdge → Ordering :=
  compareLex (compareOn (·.from')) (compareLex (compareOn (·.alias')) (compareLex (compareOn (·.to'))
    (compareLex (compareOn (·.requirement)) (compareOn (·.selected)))))

/-- `PreservedPathDependency`. -/
structure PreservedPathDependency where
  from' : Option PackageKey
  alias' : String
  path : String
  version : Option ReleaseVersion
  deriving DecidableEq, Repr

/-- The derived order of `PreservedPathDependency`. -/
def PreservedPathDependency.cmp : PreservedPathDependency → PreservedPathDependency → Ordering :=
  compareLex (compareOn (·.from')) (compareLex (compareOn (·.alias'))
    (compareLex (compareOn (·.path)) (compareOn (·.version))))

instance : Ord PreservedPathDependency := ⟨PreservedPathDependency.cmp⟩

/-- `CandidateRejection`. -/
inductive CandidateRejection where
  | constraintMismatch
  | frozenMismatch (required : ReleaseVersion)
  | yanked
  | verificationFailed (code : String)
  | identityMismatch
  | cycle (through : PackageKey)
  | downstreamConflict
  deriving DecidableEq, Repr

/-- `TraceEvent`. -/
inductive TraceEvent where
  | pathPreserved (from' : Option PackageKey) (alias' path : String)
  | constraintAdded (from' : Option PackageKey) (package : PackageKey)
      (requirement : VersionRequirement)
  | catalogAuthenticated (package : PackageKey) (authenticationId : String) (candidateCount : Nat)
  | candidateConsidered (package : PackageKey) (version : ReleaseVersion) (releaseId : String)
  | candidateRejected (package : PackageKey) (version : ReleaseVersion)
      (reason : CandidateRejection)
  | candidateVerified (package : PackageKey) (version : ReleaseVersion) (manifestDigest : String)
  | selected (package : PackageKey) (version : ReleaseVersion)
  | backtracked (package : PackageKey) (version : ReleaseVersion)
  | conflict (package : PackageKey) (requirements : List VersionRequirement)
  deriving DecidableEq, Repr

/-- `Resolution`. -/
structure Resolution where
  schemaVersion : String
  packages : List ResolvedPackage
  edges : List ResolvedEdge
  pathDependencies : List PreservedPathDependency
  trace : List TraceEvent
  deriving DecidableEq, Repr

/-- `ResolveError`.  The last constructor belongs to the model alone: it marks a recursion deeper
than the bound `solve` is given, and no run of the resolver reaches it. -/
inductive ResolveError where
  | invalidRequest (message : String)
  | invalidResolution (message : String)
  | invalidCatalog (package : PackageKey) (message : String)
  | source (package : PackageKey) (failure : SourceFailure) (trace : List TraceEvent)
  | conflict (package : PackageKey) (requirements : List VersionRequirement)
      (trace : List TraceEvent)
  | budgetExceeded (budget : String) (limit : Nat) (trace : List TraceEvent)
  | recursionBound
  deriving DecidableEq, Repr

/-- One call of the resolver on its source, with the answer. -/
inductive SourceCall where
  | authenticate (package : PackageKey) (result : Except SourceFailure AuthenticatedCatalog)
  | verify (catalog : AuthenticatedCatalog) (candidate : CatalogCandidate)
      (result : Except SourceFailure VerifiedCandidate)
  | discard (package : PackageKey) (candidate : CatalogCandidate)
  deriving DecidableEq

/-- `Constraint`. -/
structure Constraint where
  from' : Option PackageKey
  alias' : String
  requirement : VersionRequirement
  deriving DecidableEq, Repr

/-- `Selection`. -/
structure Selection where
  candidate : CatalogCandidate
  verified : VerifiedCandidate
  deriving DecidableEq, Repr

/-- `SolverState`. -/
structure SolverState where
  constraints : TreeMap PackageKey (List Constraint)
  selected : TreeMap PackageKey Selection
  paths : TreeSet PreservedPathDependency

/-- `CandidateCacheKey`. -/
structure CandidateCacheKey where
  package : PackageKey
  version : ReleaseVersion
  releaseId : String
  deriving DecidableEq, Repr

/-- The derived order of `CandidateCacheKey`. -/
def CandidateCacheKey.cmp : CandidateCacheKey → CandidateCacheKey → Ordering :=
  compareLex (compareOn (·.package)) (compareLex (compareOn (·.version)) (compareOn (·.releaseId)))

instance : Ord CandidateCacheKey := ⟨CandidateCacheKey.cmp⟩

instance : TransOrd CandidateCacheKey := inferInstanceAs (TransCmp (compareLex _ _))

instance : LawfulEqOrd CandidateCacheKey where
  eq_of_compare {a b} h := by
    have h' : CandidateCacheKey.cmp a b = .eq := h
    simp only [CandidateCacheKey.cmp, compareLex_eq_eq, compareOn,
      LawfulEqCmp.compare_eq_iff_eq] at h'
    obtain ⟨h₁, h₂, h₃⟩ := h'
    cases a
    cases b
    simp_all

/-- The cache key of a candidate of a package. -/
def CandidateCacheKey.of (package : PackageKey) (candidate : CatalogCandidate) :
    CandidateCacheKey :=
  ⟨package, candidate.version, candidate.releaseId⟩

/-- The mutable part of `Solver`.  `calls` is history: the source calls made so far. -/
structure Solver (σ : Type) where
  source : σ
  catalogs : TreeMap PackageKey AuthenticatedCatalog
  verified : TreeMap CandidateCacheKey (Except SourceFailure VerifiedCandidate)
  trace : List TraceEvent
  catalogCandidateCount : Nat
  candidateAttempts : Nat
  backtracks : Nat
  lastConflict : Option (PackageKey × List VersionRequirement)
  calls : List SourceCall

end Axiomc.Package
