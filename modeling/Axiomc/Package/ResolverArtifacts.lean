import Axiomc.Package.ResolverInvariant

/-!
# Verification and discarding

What `verified_candidate` and `discard_candidate` do to the invariant of a run.  A verification is
answered from the cache or by the source.
-/

namespace Axiomc.Package

open Std Axiomc.Foundation CandidateCacheKey List

variable {σ : Type} {src : ResolverSource σ} {x : σ} {request : ResolveRequest}
  {base : TreeMap PackageKey AuthenticatedCatalog} {d : List (PackageKey × ReleaseVersion)}
  {st : SolverState} {s s' : Solver σ}
  {p : PackageKey} {cat : AuthenticatedCatalog} {cand : CatalogCandidate}

section

variable (h : Called src x request s) (hcat : s.catalogs[p]? = some cat)
include h hcat

/-- The rows of a cached catalog are determined by their version. -/
theorem Called.candidate_unique {c c' : CatalogCandidate} (hc : c ∈ cat.candidates)
    (hc' : c' ∈ cat.candidates) (hv : c.version = c'.version) : c = c' :=
  inj_on_of_nodup_map (h.catalog p cat hcat).2.2 hc hc' hv

/-- The key a candidate of a cached catalog has in the cache. -/
theorem Called.key_eq (c : CatalogCandidate) : of cat.package c = .of p c := by
  rw [(h.catalog p cat hcat).1]

/-! ### Answers from the cache -/

variable {result : Except SourceFailure VerifiedCandidate}

/-- A cached answer is the successful verification of that very candidate. -/
theorem Called.cached (hcand : cand ∈ cat.candidates) (hkey : s.verified[of p cand]? = some result) :
    ∃ v, result = .ok v ∧ .verify cat cand (.ok v) ∈ s.calls := by
  obtain ⟨cat', cand', hcand', hcat', hof, hcall⟩ := h.verified _ _ hkey
  obtain rfl : cat = cat' := Option.some.inj (hcat.symm.trans hcat')
  have hversion : cand'.version = cand.version := congrArg version hof
  obtain rfl := h.candidate_unique hcat hcand' hcand hversion
  cases result with
  | error failure => exact absurd trivial (h.clean _ hcall)
  | ok v => exact ⟨v, rfl, hcall⟩

end

/-! ### Answers from the source -/

/-- The source verified a candidate and the solver cached the answer. -/
structure Verifies (src : ResolverSource σ) (p : PackageKey) (cat : AuthenticatedCatalog)
    (cand : CatalogCandidate) (v : VerifiedCandidate) (s s' : Solver σ) : Prop where
  answer : (src.verifyCandidate s.source cat cand).1 = .ok v
  source : s'.source = (src.verifyCandidate s.source cat cand).2
  calls : s'.calls = s.calls ++ [.verify cat cand (src.verifyCandidate s.source cat cand).1]
  catalogs : s'.catalogs = s.catalogs
  verified : s'.verified = s.verified.insert (.of p cand) (.ok v)
  trace : s'.trace = s.trace

section

variable (h : Called src x request s) (hcat : s.catalogs[p]? = some cat)
  (hcand : cand ∈ cat.candidates) (hnew : s.verified[of p cand]? = none)
include h hcat hcand hnew

/-- The request for an uncached candidate is admissible. -/
theorem Called.admissible_verify (result : Except SourceFailure VerifiedCandidate) :
    Protocol request (s.calls ++ [.verify cat cand result]) := by
  obtain ⟨hpackage, hauth, -⟩ := h.catalog p cat hcat
  refine h.protocol.append h.clean ⟨?_, hpackage ▸ hauth, hcand⟩
  intro cat' cand' result' hcall heq
  have hkept := h.verifiedKept cat' cand' result' hcall
  rw [heq, hpackage, hnew] at hkept
  cases hkept

variable {v : VerifiedCandidate}

theorem Called.verifies (hv : Verifies src p cat cand v s s') : Called src x request s' := by
  have hmem : ∀ call, call ∈ s'.calls ↔ call ∈ s.calls ∨ call = .verify cat cand (.ok v) := by
    intro call
    rw [hv.calls, hv.answer, mem_append, mem_singleton]
  have hlookup : ∀ key : CandidateCacheKey, s'.verified[key]? =
      if of p cand = key then some (.ok v) else s.verified[key]? :=
    fun key => by rw [hv.verified, getElem?_insert_cmp]
  constructor
  · rw [hv.calls, hv.source]
    exact .verify cat cand h.history
  · rw [hv.calls]
    exact h.admissible_verify hcat hcand hnew _
  · intro call hcall
    rcases (hmem call).mp hcall with hcall | rfl
    · exact h.clean call hcall
    · simp [SourceCall.Failed]
  · intro q c hq
    rw [hv.catalogs] at hq
    obtain ⟨hq', hcall, hnodup⟩ := h.catalog q c hq
    exact ⟨hq', (hmem _).mpr (.inl hcall), hnodup⟩
  · intro q result hcall
    rw [hv.catalogs]
    rcases (hmem _).mp hcall with hcall | heq
    · exact h.catalogKept q result hcall
    · cases heq
  · intro key result hkey
    rw [hv.catalogs]
    rw [hlookup] at hkey
    split at hkey
    next heq =>
      subst heq
      cases hkey
      exact ⟨cat, cand, hcand, hcat, h.key_eq hcat cand, (hmem _).mpr (.inr rfl)⟩
    next =>
      obtain ⟨c, cand', hcand', hc, hof, hcall⟩ := h.verified key result hkey
      exact ⟨c, cand', hcand', hc, hof, (hmem _).mpr (.inl hcall)⟩
  · intro c cand' result hcall
    rcases (hmem _).mp hcall with hcall | heq
    · rw [hv.verified]
      exact getElem?_insert_of_new hnew (h.verifiedKept c cand' result hcall) _
    · cases heq
      rw [hlookup, if_pos (h.key_eq hcat cand).symm]

end

/-- What `verified_candidate` returns: the manifest of the candidate, or a failure after which the
protocol still holds. -/
def CandidateVerified (src : ResolverSource σ) (x : σ) (request : ResolveRequest)
    (base : TreeMap PackageKey AuthenticatedCatalog) (d : List (PackageKey × ReleaseVersion))
    (st : SolverState) (cat : AuthenticatedCatalog) (cand : CatalogCandidate) (s' : Solver σ) :
    Except SourceFailure VerifiedCandidate → Prop
  | .ok v => Inv src x request base d st s' ∧ .verify cat cand (.ok v) ∈ s'.calls
  | .error _ => Protocol request s'.calls

/-- **`verified_candidate`.** -/
theorem verifiedCandidate_inv (h : Inv src x request base d st s)
    (hbase : base[p]? = some cat) (hcand : cand ∈ cat.candidates) :
    wp (verifiedCandidate src cat cand)
      (fun result s' => CandidateVerified src x request base d st cat cand s' result)
      (Stopped request) s := by
  have hcat := h.kept p cat hbase
  have hpackage := (h.called.catalog p cat hcat).1
  unfold verifiedCandidate
  rw [wp_bind, wp_get, hpackage]
  split
  next result hkey =>
    obtain ⟨v, rfl, hcall⟩ := h.called.cached hcat hcand hkey
    exact ⟨h, hcall⟩
  next hkey =>
    simp only [wp_bind]
    cases hanswer : (src.verifyCandidate s.source cat cand).1 with
    | error failure => exact h.called.admissible_verify hcat hcand hkey (.error failure)
    | ok v =>
      have hv : Verifies src p cat cand v s { s with
            source := (src.verifyCandidate s.source cat cand).2
            calls := s.calls ++ [.verify cat cand (.ok v)]
            verified := s.verified.insert (.of p cand) (.ok v) } :=
        ⟨hanswer, rfl, by rw [hanswer], rfl, rfl, rfl⟩
      exact ⟨⟨h.called.verifies hcat hcand hkey hv, h.kept,
        fun q sel hq => (h.supported q sel hq).mono (by simp +contextual), h.wellFormed, h.bounded,
        h.decided⟩, by simp⟩

/-! ### Discarding -/

/-- **`discard_candidate`.** -/
theorem discardCandidate_inv (h : Inv src x request base d st s) (hpackage : cat.package = p)
    (hcall : .verify cat cand (.ok v) ∈ s.calls) :
    wp (discardCandidate src p cand) (fun _ s' => Inv src x request base d st s')
      (Stopped request) s := by
  have hmem : ∀ call, call ∈ s.calls ++ [.discard p cand] ↔ call ∈ s.calls ∨ call = .discard p cand :=
    fun call => by rw [mem_append, mem_singleton]
  refine ⟨?_, h.kept, fun q sel hq => (h.supported q sel hq).mono ?_,
    h.wellFormed, h.bounded, h.decided⟩
  · constructor
    · exact .discard p cand h.called.history
    · exact h.called.protocol.append h.called.clean ⟨cat, v, hpackage, hcall⟩
    · intro call hc
      rcases (hmem call).mp hc with hc | rfl
      · exact h.called.clean call hc
      · simp [SourceCall.Failed]
    · intro q c hq
      obtain ⟨hq', hc, hnodup⟩ := h.called.catalog q c hq
      exact ⟨hq', (hmem _).mpr (.inl hc), hnodup⟩
    · intro q result hc
      rcases (hmem _).mp hc with hc | heq
      · exact h.called.catalogKept q result hc
      · cases heq
    · intro key result hkey
      obtain ⟨c, cand', hcand', hc, hof, hcall'⟩ := h.called.verified key result hkey
      exact ⟨c, cand', hcand', hc, hof, (hmem _).mpr (.inl hcall')⟩
    · intro c cand' result hc
      rcases (hmem _).mp hc with hc | heq
      · exact h.called.verifiedKept c cand' result hc
      · cases heq
  · simp +contextual

end Axiomc.Package
