import Axiomc.Package.Assignments

/-!
# The calls of the resolver on its source

A run of the resolver leaves a history of calls.  `History` says that the answers in it are the
ones the source gave, one after the other, starting from its initial state.  `Admissible` says when
a call may be made, given the calls before it, and `Protocol` that every call of a history was
admissible and that nothing follows a failed one.
-/

namespace Axiomc.Package

open CandidateCacheKey List

variable {σ : Type}

namespace SourceCall

/-- A call the source answered with a failure. -/
def Failed : SourceCall → Prop
  | authenticate _ (.error _) => True
  | verify _ _ (.error _) => True
  | _ => False

end SourceCall

variable {call : SourceCall} {calls : List SourceCall}

/-- `calls` are the answers of the source when it is called in that order from the state `x`, and
`y` is the state it is left in. -/
inductive History (src : ResolverSource σ) (x : σ) : List SourceCall → σ → Prop
  | nil : History src x [] x
  | authenticate {calls : List SourceCall} {y : σ} (package : PackageKey) :
      History src x calls y →
      History src x (calls ++ [.authenticate package (src.authenticateCatalog y package).1])
        (src.authenticateCatalog y package).2
  | verify {calls : List SourceCall} {y : σ} (catalog : AuthenticatedCatalog)
      (candidate : CatalogCandidate) :
      History src x calls y →
      History src x (calls ++ [.verify catalog candidate
        (src.verifyCandidate y catalog candidate).1]) (src.verifyCandidate y catalog candidate).2
  | discard {calls : List SourceCall} {y : σ} (package : PackageKey)
      (candidate : CatalogCandidate) :
      History src x calls y →
      History src x (calls ++ [.discard package candidate]) (src.discardCandidate y candidate)

/-- A package the manifest of a verified release depends on. -/
def VerifiedCandidate.DependsOn (v : VerifiedCandidate) (package : PackageKey) : Prop :=
  ∃ r ∈ registryDependencies v.dependencies, r.package = package

/-- What entitles the resolver to ask for the catalog of a package: a root dependency, or the
dependency of a release that was verified under its own identity. -/
def Entitled (request : ResolveRequest) (before : List SourceCall) (package : PackageKey) : Prop :=
  (∃ r ∈ registryDependencies request.dependencies, r.package = package) ∨
  ∃ catalog candidate v, .verify catalog candidate (.ok v) ∈ before ∧
    v.Identifies catalog.package candidate ∧ v.DependsOn package

/-- When a call may be made, given the calls before it. -/
def Admissible (request : ResolveRequest) (before : List SourceCall) : SourceCall → Prop
  | .authenticate package _ =>
    (∀ result, .authenticate package result ∉ before) ∧ Entitled request before package
  | .verify catalog candidate _ =>
    (∀ catalog' candidate' result, .verify catalog' candidate' result ∈ before →
      of catalog'.package candidate' ≠
        of catalog.package candidate) ∧
    .authenticate catalog.package (.ok catalog) ∈ before ∧ candidate ∈ catalog.candidates
  | .discard package candidate =>
    ∃ catalog v, catalog.package = package ∧ .verify catalog candidate (.ok v) ∈ before

/-- Every call of the history was admissible when it was made, and no call follows a failed one. -/
def Protocol (request : ResolveRequest) (calls : List SourceCall) : Prop :=
  ∀ before call after, calls = before ++ call :: after →
    Admissible request before call ∧ ∀ earlier ∈ before, ¬ earlier.Failed

theorem Protocol.nil (request : ResolveRequest) : Protocol request [] := by
  intro before call after h
  simp at h

/-- **Extension.**  An admissible call after a history without failures keeps the protocol. -/
theorem Protocol.append {request : ResolveRequest}
    (h : Protocol request calls) (hclean : ∀ c ∈ calls, ¬ c.Failed)
    (hcall : Admissible request calls call) : Protocol request (calls ++ [call]) := by
  intro before c after hsplit
  rcases eq_nil_or_concat after with rfl | ⟨after', last, rfl⟩
  · obtain ⟨rfl, hc⟩ := append_inj' hsplit rfl
    obtain rfl : call = c := by simpa using hc
    exact ⟨hcall, hclean⟩
  · have hassoc : calls ++ [call] = (before ++ c :: after') ++ [last] := by
      simpa using hsplit
    obtain ⟨rfl, -⟩ := append_inj' hassoc rfl
    exact h before c after' rfl

end Axiomc.Package
