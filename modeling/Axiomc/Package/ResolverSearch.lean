import Axiomc.Package.ResolverCompleteness

/-!
# The search of the resolver

The one induction over `solve`.  A call of `solve` on a state keeps the invariant of the run; when
it returns a solution, the solution extends the state, has no unselected package and no conflict,
and its decisions are optimal; when it returns none, the state is unsolvable; when it stops with an
error, the call protocol has been kept and the recursion bound of the model is not the reason.
-/

namespace Axiomc.Package

open Std Relation Axiomc.Foundation TreeMap List

variable {σ : Type} {src : ResolverSource σ} {x : σ} {request : ResolveRequest}
  {base : TreeMap PackageKey AuthenticatedCatalog} {d : List (PackageKey × ReleaseVersion)}
  {st : SolverState} {s : Solver σ} {p : PackageKey}

/-- What a solution found from a state is. -/
structure Solved (src : ResolverSource σ) (request : ResolveRequest) (st sol : SolverState)
    (ds : List (PackageKey × CatalogCandidate)) : Prop where
  complete : nextPackage sol = none
  consistent : selectedConflict sol = none
  kept : ∀ (q : PackageKey) sel, st.selected[q]? = some sel → sol.selected[q]? = some sel
  decided : ∀ q c, (q, c) ∈ ds → ∃ sel, sol.selected[q]? = some sel ∧ sel.candidate = c
  covered : ∀ q sel, sol.selected[q]? = some sel →
    st.selected[q]? = some sel ∨ (q, sel.candidate) ∈ ds
  fresh : ∀ q c, (q, c) ∈ ds → st.selected[q]? = none
  nodup : (ds.map Prod.fst).Nodup
  first : ds.head?.map Prod.fst = nextPackage st
  optimal : Optimal src request st ds

/-- The decisions as the trace records them. -/
def recorded (ds : List (PackageKey × CatalogCandidate)) : List (PackageKey × ReleaseVersion) :=
  ds.map fun decision => (decision.1, decision.2.version)

/-- What a call of `solve` on a state leaves behind. -/
def SearchResult (src : ResolverSource σ) (x : σ) (request : ResolveRequest)
    (base : TreeMap PackageKey AuthenticatedCatalog) (d : List (PackageKey × ReleaseVersion))
    (st : SolverState) : Option SolverState → Solver σ → Prop
  | none, s => Inv src x request base d st s ∧ Unsolvable src request st
  | some sol, s => ∃ ds, Inv src x request base (recorded ds ++ d) sol s ∧
    Solved src request st sol ds

/-- What `solve` is asked to guarantee when it is called with a recursion bound. -/
def Searches (src : ResolverSource σ) (x : σ) (request : ResolveRequest)
    (solveNext : SolverState → SolverM σ (Option SolverState)) (bound : Nat) : Prop :=
  ∀ base d st s, Inv src x request base d st s →
    request.limits.maxPackages < st.selected.size + bound →
    wp (solveNext st) (SearchResult src x request base d st) (Stopped request) s

/-! ### One candidate -/

/-- The package a round of the search works on. -/
structure Deciding (st : SolverState) (p : PackageKey) : Prop where
  next : nextPackage st = some p
  constrained : p ∈ st.constraints
  unselected : st.selected[p]? = none

theorem deciding_of_nextPackage (h : nextPackage st = some p) : Deciding st p where
  next := h
  constrained := mem_keys.mp (mem_of_find?_eq_some h)
  unselected := by
    have hnot := find?_some h
    rw [Bool.not_eq_true', contains_eq_isSome_getElem?] at hnot
    exact Option.isSome_eq_false_iff.mp hnot |> Option.isNone_iff_eq_none.mp

variable {cand : CatalogCandidate} {cat : AuthenticatedCatalog} {v : VerifiedCandidate}
  {rest tried : List CatalogCandidate} {bound : Nat}
  {solveNext : SolverState → SolverM σ (Option SolverState)} {ds : List Dependency} {next : SolverState}

/-- Selecting a verified candidate and recording its dependencies keeps the invariant. -/
theorem Inv.select
    (h : Inv src x request base d st s) (hp : Deciding st p)
    (hbase : base[p]? = some cat) (hcand : cand ∈ cat.candidates)
    (hverify : .verify cat cand (.ok v) ∈ s.calls) (hid : v.Identifies p cand)
    (helig : Eligible request p cand) (hds : ds.Perm v.dependencies)
    (hadded : DependenciesAdded request p (st.select p ⟨cand, v⟩) ds (next, none)) :
    Inv src x request base d next s := by
  obtain ⟨rfl, hsize, hacyclic⟩ := hadded
  refine ⟨h.called, h.kept, ?_, ?_, hsize h.bounded, h.decided⟩
  · intro q sel hq
    rw [selected_withDependencies, selected_select] at hq
    split at hq
    next heq =>
      subst heq
      cases hq
      obtain ⟨hpackage, hauth, -⟩ := h.called.catalog p cat (h.kept p cat hbase)
      exact ⟨cat, hpackage, hauth, hcand, hverify, hid, helig.frozen, helig.yanked⟩
    next => exact h.supported q sel hq
  · exact h.wellFormed.select hp.constrained hp.unselected hds (hacyclic h.wellFormed.acyclic)

section

variable (hnext : next.selected = (st.select p ⟨cand, v⟩).selected)
include hnext

/-- Coming back from the search below a selection, the state before it is as it was. -/
theorem Inv.unselect {s' : Solver σ} (h : Inv src x request base d st s) (hp : Deciding st p)
    (h' : Inv src x request base d next s') :
    Inv src x request base d st s' where
  called := h'.called
  kept := h'.kept
  supported q sel hq :=
    h'.supported q sel (by rw [hnext]; exact select_of_selected hp.unselected _ hq)
  wellFormed := h.wellFormed
  bounded := h.bounded
  decided := h'.decided

theorem refuted_of_unsolvable (h : Unsolvable src request next) : Refuted src request st p cand := by
  intro world hw A hsol hA hAp
  refine h world hw A hsol fun q sel hq => ?_
  rw [hnext] at hq
  exact agrees_select hA hAp q sel hq

/-- A solution found after a decision is a solution from before it. -/
theorem Solved.cons {sol : SolverState} {ds : List (PackageKey × CatalogCandidate)}
    (hsolved : Solved src request next sol ds) (h : Inv src x request base d st s)
    (hp : Deciding st p) (hcat : s.catalogs[p]? = some cat)
    (hsplit : orderedCandidates request p cat.candidates = tried ++ cand :: rest)
    (htried : ∀ c ∈ tried, Refuted src request st p c) :
    Solved src request st sol ((p, cand) :: ds) where
  complete := hsolved.complete
  consistent := hsolved.consistent
  kept q sel hq := hsolved.kept q sel (by rw [hnext]; exact select_of_selected hp.unselected _ hq)
  decided q c hmem := by
    rcases mem_cons.mp hmem with heq | hmem
    · cases heq
      exact ⟨⟨cand, v⟩, hsolved.kept p _ (by rw [hnext, selected_select, if_pos rfl]), rfl⟩
    · exact hsolved.decided q c hmem
  covered q sel hq := by
    rcases hsolved.covered q sel hq with hq | hmem
    · rw [hnext, selected_select] at hq
      split at hq
      next heq =>
        cases hq
        exact .inr (heq ▸ mem_cons_self)
      next => exact .inl hq
    · exact .inr (.tail _ hmem)
  fresh q c hmem := by
    rcases mem_cons.mp hmem with heq | hmem
    · cases heq
      exact hp.unselected
    · have hnone := hsolved.fresh q c hmem
      rw [hnext, selected_select] at hnone
      split at hnone
      · cases hnone
      · exact hnone
  nodup := by
    rw [map_cons, nodup_cons]
    refine ⟨fun hmem => ?_, hsolved.nodup⟩
    obtain ⟨⟨q, c⟩, hqc, rfl⟩ := mem_map.mp hmem
    have hnone := hsolved.fresh q c hqc
    rw [hnext, selected_select, if_pos rfl] at hnone
    cases hnone
  first := by rw [hp.next]; rfl
  optimal := Optimal.cons h hp.constrained hcat hsplit htried hnext hsolved.optimal

end

/-- What one round of the candidate loop leaves behind. -/
def StepResult (src : ResolverSource σ) (x : σ) (request : ResolveRequest)
    (base : TreeMap PackageKey AuthenticatedCatalog) (d : List (PackageKey × ReleaseVersion))
    (st : SolverState) (p : PackageKey) (cand : CatalogCandidate) :
    CandidateStep → Solver σ → Prop
  | .continue' _, s => Inv src x request base d st s ∧ Refuted src request st p cand
  | .solved sol, s => SearchResult src x request base d st (some sol) s

/-- A refuted candidate is rejected, discarded and backtracked from. -/
theorem rejectCandidate_inv (h : Inv src x request base d st s) (hcat : cat.package = p)
    (hverify : .verify cat cand (.ok v) ∈ s.calls) (hrefuted : Refuted src request st p cand)
    (reason : CandidateRejection) :
    wp (do
        pushTrace request (.candidateRejected p cand.version reason)
        discardCandidate src p cand
        backtrack request p cand.version
        return .continue' true)
      (StepResult src x request base d st p cand) (Stopped request) s := by
  refine (pushTrace_keeps).wp_bind h.called.protocol
    fun _ s₁ hb₁ _ => ?_
  rw [wp_bind]
  refine wp_mono (discardCandidate_inv (h.book hb₁) hcat (hb₁.calls ▸ hverify)) ?_
    (fun _ _ _ he => he)
  intro _ s₂ _ h₂
  refine (backtrack_keeps p cand.version).wp_bind h₂.called.protocol
    fun _ s₃ hb₃ _ => ?_
  exact ⟨h₂.book hb₃, hrefuted⟩

/-- Recording a decision. -/
theorem pushSelected_inv (h : Inv src x request base d st s) (p : PackageKey)
    (v : ReleaseVersion) : wp (pushTrace request (.selected p v))
      (fun _ s' => Inv src x request base ((p, v) :: d) st s') (Stopped request) s := by
  simp only [pushTrace, wp_bind, wp_get]
  split
  · exact ⟨trivial, h.called.protocol⟩
  · obtain ⟨h₁, h₂, h₃, h₄, h₅, h₆, h₇⟩ := h.called
    exact ⟨⟨h₁, h₂, h₃, h₄, h₅, h₆, h₇⟩, h.kept, h.supported, h.wellFormed,
      h.bounded, by rw [decisions_append_selected, h.decided]⟩

section

variable (hsolve : Searches src x request solveNext bound) (hp : Deciding st p)
  (hbound : request.limits.maxPackages < st.selected.size + 1 + bound) (hbase : base[p]? = some cat)
include hsolve hp hbound hbase

/-- The part of a round after the candidate identified itself. -/
theorem selectCandidate_inv (h : Inv src x request base d st s)
    (hcand : cand ∈ cat.candidates) (hverify : .verify cat cand (.ok v) ∈ s.calls)
    (hid : v.Identifies p cand) (helig : Eligible request p cand)
    (hsplit : orderedCandidates request p cat.candidates = tried ++ cand :: rest)
    (htried : ∀ c ∈ tried, Refuted src request st p c) :
    wp (selectCandidate src request solveNext st p cand v)
      (StepResult src x request base d st p cand) (Stopped request) s := by
  have hds := sortBy_perm dependencyOrder v.dependencies
  have hpackage := (h.called.catalog p cat (h.kept p cat hbase)).1
  have htight := h.wellFormed.tight.select p ⟨cand, v⟩
  refine (pushTrace_keeps).wp_bind h.called.protocol fun _ s₁ hb₁ _ => ?_
  have h₁ := h.book hb₁
  refine (addDependencies_keeps p _ _ htight).wp_bind h₁.called.protocol
    fun added s₂ hb₂ hadded => ?_
  have h₂ := h₁.book hb₂
  have hverify₂ : .verify cat cand (.ok v) ∈ s₂.calls := by
    rw [hb₂.calls, hb₁.calls]
    exact hverify
  obtain ⟨next, cycle⟩ := added
  cases cycle with
  | some through =>
    obtain ⟨earlier, r, later, hsplit', hpath⟩ := hadded
    exact rejectCandidate_inv h₂ hpackage hverify₂ (refuted_of_cycle h₂ hp.constrained
      (h₂.kept p cat hbase) hverify₂ (hsplit' ▸ hds) hpath) _
  | none =>
    have hnext : next.selected = (st.select p ⟨cand, v⟩).selected := by
      rw [hadded.1, selected_withDependencies]
    have hsize : next.selected.size = st.selected.size + 1 := by
      rw [hnext, SolverState.select, size_insert]
      rw [contains_eq_isSome_getElem?, hp.unselected]
      simp
    rw [wp_bind]
    refine wp_mono (hsolve base d next s₂
      (h₂.select hp hbase hcand hverify₂ hid helig hds hadded) (by omega)) ?_ (fun _ _ _ he => he)
    intro result s₃ _ hresult
    cases result with
    | some sol =>
      obtain ⟨ds, h₃, hsolved⟩ := hresult
      rw [wp_bind]
      refine wp_mono (pushSelected_inv h₃ p cand.version) ?_ (fun _ _ _ he => he)
      intro _ s₄ _ h₄
      exact ⟨(p, cand) :: ds, h₄, hsolved.cons hnext h₂ hp (h₂.kept p cat hbase) hsplit htried⟩
    | none =>
      obtain ⟨h₃, hunsolvable⟩ := hresult
      obtain ⟨cat', hcat', -, -, hverify₃, -⟩ := h₃.supported p ⟨cand, v⟩ (by
        rw [hnext, selected_select, if_pos rfl])
      exact rejectCandidate_inv (h₂.unselect hnext hp h₃) hcat' hverify₃
        (refuted_of_unsolvable hnext hunsolvable) _

/-- **One candidate.**  It is refuted, or it leads to a solution. -/
theorem tryCandidate_inv (h : Inv src x request base d st s)
    (hsplit : orderedCandidates request p cat.candidates = tried ++ cand :: rest)
    (htried : ∀ c ∈ tried, Refuted src request st p c) (attempted : Bool) :
    wp (tryCandidate src request solveNext st p (requirementsFor p st) cat attempted cand)
      (StepResult src x request base d st p cand) (Stopped request) s := by
  have hcand : cand ∈ cat.candidates := by
    rw [← (orderedCandidates_perm request p cat.candidates).mem_iff, hsplit]
    simp
  refine (bumpCandidateAttempts_keeps).wp_bind h.called.protocol fun _ s₁ hb₁ _ => ?_
  have h₁ := h.book hb₁
  refine (pushTrace_keeps).wp_bind h₁.called.protocol fun _ s₂ hb₂ _ => ?_
  have h₂ := h₁.book hb₂
  split
  next reason hreason =>
    refine (pushTrace_keeps).wp_bind h₂.called.protocol fun _ s₃ hb₃ _ => ?_
    exact ⟨h₂.book hb₃, refuted_of_earlyRejection h₂ hp.constrained hreason⟩
  next heligible =>
    rw [wp_bind]
    refine wp_mono (verifiedCandidate_inv h₂ hbase hcand) ?_ (fun _ _ _ he => he)
    intro result s₃ _ hverified
    cases result with
    | error failure =>
      refine (pushTrace_keeps).wp_bind hverified fun _ s₄ hb₄ _ => ?_
      exact ⟨trivial, hb₄.calls ▸ hverified⟩
    | ok v =>
      obtain ⟨h₃, hcall⟩ := hverified
      have hcat₃ := h₃.kept p cat hbase
      dsimp only
      split
      next hmismatch =>
        refine (pushTrace_keeps).wp_bind h₃.called.protocol
          fun _ s₄ hb₄ _ => ?_
        rw [wp_bind]
        refine wp_mono (discardCandidate_inv (h₃.book hb₄)
          (h₃.called.catalog p cat hcat₃).1 (hb₄.calls ▸ hcall)) ?_ (fun _ _ _ he => he)
        intro _ s₅ _ h₅
        refine ⟨h₅, refuted_of_mismatch h₃.called hcat₃ hcall fun hid => ?_⟩
        obtain ⟨hpackage, hversion, hrelease⟩ := hid
        simp [hpackage, hversion, hrelease] at hmismatch
      next hidentity =>
        refine selectCandidate_inv hsolve hp hbound hbase h₃ hcand hcall ?_
          (earlyRejection_none heligible) hsplit htried
        simpa [VerifiedCandidate.Identifies, and_assoc] using hidentity

/-! ### The loop and the recursion -/

/-- **The candidate loop.**  `tried` are the candidates refuted so far. -/
theorem tryCandidates_inv (rest : List CatalogCandidate) :
    ∀ (tried : List CatalogCandidate) (attempted : Bool) (s : Solver σ),
      Inv src x request base d st s →
      orderedCandidates request p cat.candidates = tried ++ rest →
      (∀ c ∈ tried, Refuted src request st p c) →
      wp (tryCandidates src request solveNext st p (requirementsFor p st) cat attempted rest)
        (SearchResult src x request base d st) (Stopped request) s := by
  induction rest with
  | nil =>
    intro tried attempted s h hsplit htried
    have hunsolvable : Unsolvable src request st := by
      refine unsolvable_of_refuted h hp.constrained (h.kept p cat hbase) fun cand hcand => ?_
      rw [← (orderedCandidates_perm request p cat.candidates).mem_iff, hsplit, append_nil] at hcand
      exact htried cand hcand
    rw [tryCandidates]
    split
    · refine (pushTrace_keeps).wp_bind (by exact h.called.protocol)
        fun _ s' hb _ => ?_
      exact ⟨h.book ⟨hb.source, hb.catalogs, hb.verified, hb.calls, hb.decided⟩, hunsolvable⟩
    · exact ⟨h, hunsolvable⟩
  | cons cand rest ih =>
    intro tried attempted s h hsplit htried
    rw [tryCandidates, wp_bind]
    refine wp_mono (tryCandidate_inv hsolve hp hbound hbase h hsplit htried attempted) ?_
      (fun _ _ _ he => he)
    intro step s' _ hstep
    cases step with
    | solved sol => exact hstep
    | continue' attempted' =>
      obtain ⟨h', hrefuted⟩ := hstep
      refine ih (tried ++ [cand]) attempted' s' h' (by simpa using hsplit) fun c hc => ?_
      rcases mem_append.mp hc with hc | hc
      · exact htried c hc
      · exact mem_singleton.mp hc ▸ hrefuted

end

/-- There are no more selected than constrained packages. -/
theorem WellFormed.size_le (h : WellFormed request st) : st.selected.size ≤ st.constraints.size := by
  rw [← length_keys, ← length_keys]
  refine (subperm_of_subset nodup_keys fun q hq => ?_).length_le
  rw [TreeMap.mem_keys, mem_iff_isSome_getElem?, Option.isSome_iff_exists] at hq
  obtain ⟨sel, hsel⟩ := hq
  exact mem_keys.mpr (h.constrained q sel hsel)

theorem Solved.refl (hnext : nextPackage st = none) (hconflict : selectedConflict st = none) :
    Solved src request st st [] where
  complete := hnext
  consistent := hconflict
  kept _ _ h := h
  decided _ _ h := by simp at h
  covered _ _ h := .inl h
  fresh _ _ h := by simp at h
  nodup := by simp
  first := by rw [hnext]; rfl
  optimal := Optimal.nil

/-- The catalogs cached before are still cached when the base has grown. -/
theorem SearchResult.mono {base' : TreeMap PackageKey AuthenticatedCatalog}
    (hle : ∀ (q : PackageKey) c, base[q]? = some c → base'[q]? = some c)
    {result : Option SolverState} (h : SearchResult src x request base' d st result s) :
    SearchResult src x request base d st result s := by
  cases result with
  | none => exact ⟨{ h.1 with kept := fun q c hq => h.1.kept q c (hle q c hq) }, h.2⟩
  | some sol =>
    obtain ⟨ds, h', hsolved⟩ := h
    exact ⟨ds, { h' with kept := fun q c hq => h'.kept q c (hle q c hq) }, hsolved⟩

/-- **The search.**  `solve` keeps the invariant, and its answer is right. -/
theorem solve_searches (src : ResolverSource σ) (x : σ) (request : ResolveRequest) (bound : Nat) :
    Searches src x request (solve src request bound) bound := by
  induction bound with
  | zero =>
    intro base d st s h hbound
    have := h.wellFormed.size_le
    have := h.bounded
    omega
  | succ bound ih =>
    intro base d st s h hbound
    rw [solve]
    split
    next q hconflict =>
      refine (pushTrace_keeps).wp_bind (by exact h.called.protocol)
        fun _ s' hb _ => ?_
      exact ⟨h.book ⟨hb.source, hb.catalogs, hb.verified, hb.calls, hb.decided⟩,
        unsolvable_of_selectedConflict h hconflict⟩
    next hconsistent =>
      split
      next hnext => exact ⟨[], h, Solved.refl hnext hconsistent⟩
      next p hnext =>
        have hp := deciding_of_nextPackage hnext
        rw [wp_bind]
        refine wp_mono (catalog_inv h hp.constrained) ?_ (fun _ _ _ he => he)
        rintro cat s' - ⟨h', hcat⟩
        refine wp_mono (tryCandidates_inv ih hp (by omega) hcat _ [] false s' h'.rebase rfl
          (by simp)) ?_ (fun _ _ _ he => he)
        intro result s'' _ hresult
        exact hresult.mono h'.kept

/-! ### The whole run -/

/-- The invariant holds when the search starts. -/
theorem inv_initial (src : ResolverSource σ) (x : σ) (request : ResolveRequest)
    (hds : ds.Perm request.dependencies)
    (hsize : (initialState.withDependencies none ds).constraints.size ≤ request.limits.maxPackages)
    {s : Solver σ} (hb : Book (initialSolver x) s) :
    Inv src x request ∅ [] (initialState.withDependencies none ds) s := by
  refine Inv.book ?_ hb
  refine ⟨⟨.nil, .nil request, ?_, ?_, ?_, ?_, ?_⟩, ?_, ?_,
    wellFormed_root request hds, hsize, rfl⟩ <;>
  simp [initialSolver, initialState]

end Axiomc.Package
