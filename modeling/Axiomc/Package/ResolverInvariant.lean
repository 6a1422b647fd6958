import Axiomc.Package.CallProtocol
import Axiomc.Package.ResolverState

/-!
# The invariant of a resolver run

One invariant, `Inv`, relates the solver (its caches and its call history) to the search state it
works on.  Each method of the solver gets one lemma saying what it does to the invariant.

* Methods that only write the trace or the counters are *bookkeeping* (`Keeps`): they leave
  everything the invariant reads as it was.
* `catalog_inv` is the method that asks the source for a catalog; the two that ask for a release and
  give it back are in `Axiomc.Package.ResolverArtifacts`.

When a method stops with an error, what remains is `Stopped`: the protocol still holds, and the
error is one the source raises there.
-/

namespace Axiomc.Package

open Std Relation Axiomc.Foundation List

variable {σ α β : Type}

/-! ### Bookkeeping -/

/-- The packages a run decided, first decision first.  `solve` writes a `Selected` event when it
returns, so the innermost decision is the first event. -/
def decisions (trace : List TraceEvent) : List (PackageKey × ReleaseVersion) :=
  (trace.filterMap fun
    | .selected package version => some (package, version)
    | _ => none).reverse

/-- `s'` differs from `s` in the trace, the counters and the last conflict only, and no decision
was recorded. -/
structure Book (s s' : Solver σ) : Prop where
  source : s'.source = s.source
  catalogs : s'.catalogs = s.catalogs
  verified : s'.verified = s.verified
  calls : s'.calls = s.calls
  decided : decisions s'.trace = decisions s.trace

theorem Book.refl (s : Solver σ) : Book s s := ⟨rfl, rfl, rfl, rfl, rfl⟩

theorem Book.trans {s₁ s₂ s₃ : Solver σ} (h : Book s₁ s₂) (h' : Book s₂ s₃) : Book s₁ s₃ :=
  ⟨h'.source.trans h.source, h'.catalogs.trans h.catalogs, h'.verified.trans h.verified,
    h'.calls.trans h.calls, h'.decided.trans h.decided⟩

/-- The errors the methods of the solver raise: a conflict is only reported at the end of the run,
and the recursion bound of the model is never reached. -/
def ResolveError.Raised : ResolveError → Prop
  | .conflict _ _ _ => False
  | .recursionBound => False
  | _ => True

/-- A bookkeeping method whose result satisfies `R`. -/
def Keeps (m : SolverM σ α) (R : α → Prop) : Prop :=
  ∀ s, wp m (fun a s' => Book s s' ∧ R a) (fun e s' => Book s s' ∧ e.Raised) s

variable {R : α → Prop}

theorem Keeps.pure {a : α} (h : R a) : Keeps (pure a : SolverM σ α) R :=
  fun s => ⟨Book.refl s, h⟩

theorem Keeps.throw {e : ResolveError} (h : e.Raised) : Keeps (throw e : SolverM σ α) R :=
  fun s => ⟨Book.refl s, h⟩

theorem Keeps.bind {m : SolverM σ α} {f : α → SolverM σ β} {R' : β → Prop}
    (hm : Keeps m R) (hf : ∀ a, R a → Keeps (f a) R') : Keeps (m >>= f) R' := by
  intro s
  rw [wp_bind]
  refine wp_mono (hm s) (fun a s' _ h => ?_) (fun e s' _ h => h)
  exact wp_mono (hf a h.2 s') (fun b s'' _ h' => ⟨h.1.trans h'.1, h'.2⟩)
    (fun e s'' _ h' => ⟨h.1.trans h'.1, h'.2⟩)

/-- The events other than `Selected`. -/
def TraceEvent.Neutral : TraceEvent → Prop
  | .selected _ _ => False
  | _ => True

theorem decisions_append_neutral {event : TraceEvent} (h : event.Neutral)
    (trace : List TraceEvent) : decisions (trace ++ [event]) = decisions trace := by
  cases event <;> simp_all [decisions, TraceEvent.Neutral]

theorem decisions_append_selected (p : PackageKey) (v : ReleaseVersion) (trace : List TraceEvent) :
    decisions (trace ++ [.selected p v]) = (p, v) :: decisions trace := by
  simp [decisions]

variable {request : ResolveRequest}

theorem pushTrace_keeps {event : TraceEvent} (h : event.Neutral := by exact trivial) :
    Keeps (pushTrace request event : SolverM σ Unit) fun _ => True := by
  intro s
  simp only [pushTrace, wp_bind, wp_get]
  split
  · exact ⟨Book.refl s, trivial⟩
  · exact ⟨⟨rfl, rfl, rfl, rfl, decisions_append_neutral h _⟩, trivial⟩

theorem backtrack_keeps (p : PackageKey) (v : ReleaseVersion) :
    Keeps (backtrack request p v : SolverM σ Unit) fun _ => True := by
  intro s
  simp only [backtrack, wp_bind, wp_get]
  split
  · exact ⟨Book.refl s, trivial⟩
  · have hbook : Book s { s with backtracks := s.backtracks + 1 } := ⟨rfl, rfl, rfl, rfl, rfl⟩
    exact wp_mono (pushTrace_keeps (by exact trivial) _) (fun _ _ _ h => ⟨hbook.trans h.1, trivial⟩)
      (fun _ _ _ h => ⟨hbook.trans h.1, h.2⟩)

theorem bumpCandidateAttempts_keeps :
    Keeps (bumpCandidateAttempts request : SolverM σ Unit) fun _ => True := by
  intro s
  simp only [bumpCandidateAttempts, wp_bind, wp_get]
  split
  · exact ⟨Book.refl s, trivial⟩
  · exact ⟨⟨rfl, rfl, rfl, rfl, rfl⟩, trivial⟩

/-- `add_dependency` records the dependency and keeps the number of constrained packages bounded. -/
theorem addDependency_keeps (st : SolverState) (from' : Option PackageKey) (d : Dependency) :
    Keeps (addDependency request st from' d : SolverM σ SolverState) fun next =>
      next = st.withDependency from' d ∧ (st.constraints.size ≤ request.limits.maxPackages →
          next.constraints.size ≤ request.limits.maxPackages) := by
  cases d with
  | path d =>
    simp only [addDependency]
    split
    · exact Keeps.throw trivial
    · exact (pushTrace_keeps).bind fun _ _ => Keeps.pure ⟨rfl, id⟩
  | registry r =>
    intro s
    simp only [addDependency]
    split
    · exact ⟨Book.refl s, trivial⟩
    split
    · exact ⟨Book.refl s, trivial⟩
    next hroom =>
      refine (pushTrace_keeps).bind (fun _ _ => Keeps.pure ⟨rfl, fun hle => ?_⟩) s
      simp only [SolverState.withDependency, SolverState.pushConstraint, TreeMap.size_insert]
      simp only [Bool.and_eq_true, Bool.not_eq_true', decide_eq_true_eq, not_and] at hroom
      split
      · exact hle
      next hnew =>
        have := hroom (Bool.eq_false_iff.mpr hnew)
        omega

/-- A dependency of `p` that does not lead back to `p` closes no cycle. -/
theorem acyclic_withDependency {st : SolverState} (htight : st.Tight) {p : PackageKey} {d : Dependency}
    (hback : ∀ r, d.registry? = some r → ¬ dependencyPathExists st r.package p = true)
    (hacyclic : ∀ q, ¬ TransGen st.Linked q q) :
    ∀ q, ¬ TransGen (st.withDependency (some p) d).Linked q q := by
  cases d with
  | path d => exact hacyclic
  | registry r =>
    have hback := hback r rfl
    rw [dependencyPathExists_iff htight] at hback
    refine acyclic_add_arc ?_ hback hacyclic
    intro x y hxy
    rcases linked_pushConstraint.mp hxy with h | ⟨hy, hx⟩
    · exact .inl h
    · exact .inr ⟨(Option.some.inj hx).symm, hy.symm⟩

/-- What the dependency loop of `solve` returns: all dependencies are recorded without closing a
cycle, or it stopped at one that leads back to the package. -/
def DependenciesAdded (request : ResolveRequest) (p : PackageKey) (st : SolverState)
    (ds : List Dependency) : SolverState × Option PackageKey → Prop
  | (next, none) =>
    next = st.withDependencies (some p) ds ∧
      (st.constraints.size ≤ request.limits.maxPackages →
        next.constraints.size ≤ request.limits.maxPackages) ∧
      ((∀ q, ¬ TransGen st.Linked q q) → ∀ q, ¬ TransGen next.Linked q q)
  | (_, some _) =>
    ∃ earlier r later, ds = earlier ++ .registry r :: later ∧
      dependencyPathExists (st.withDependencies (some p) earlier) r.package p = true

theorem addDependencies_keeps (p : PackageKey) (ds : List Dependency) : ∀ st : SolverState, st.Tight →
      Keeps (addDependencies request p ds st : SolverM σ _) (DependenciesAdded request p st ds) := by
  induction ds with
  | nil =>
    intro st _
    exact Keeps.pure ⟨rfl, id, id⟩
  | cons d ds ih =>
    intro st htight
    simp only [addDependencies]
    split
    next r hr =>
      obtain ⟨hd, hpath⟩ := Option.filter_eq_some_iff.mp hr
      refine Keeps.pure ⟨[], r, ds, ?_, hpath⟩
      cases d with
      | registry r' =>
        simp only [Dependency.registry?, Option.some.injEq] at hd
        rw [hd, nil_append]
      | path _ => simp [Dependency.registry?] at hd
    next hnone =>
      have hback := Option.filter_eq_none_iff.mp hnone
      refine (addDependency_keeps st (some p) d).bind fun next hnext => ?_
      obtain ⟨rfl, hsize⟩ := hnext
      intro s
      refine wp_mono (ih _ (htight.withDependency (some p) d) s) ?_ (fun _ _ _ h => h)
      rintro ⟨next, cycle⟩ s' - ⟨hbook, hadded⟩
      refine ⟨hbook, ?_⟩
      cases cycle with
      | none =>
        obtain ⟨hnext, hsize', hacyclic'⟩ := hadded
        refine ⟨hnext, hsize' ∘ hsize, fun hacyclic => hacyclic' ?_⟩
        exact acyclic_withDependency htight hback hacyclic
      | some q =>
        obtain ⟨earlier, r, later, rfl, hpath⟩ := hadded
        exact ⟨d :: earlier, r, later, rfl, hpath⟩

/-- The root dependencies are recorded within the package budget. -/
theorem addRootDependencies_keeps (ds : List Dependency) :
    ∀ st : SolverState, st.constraints.size ≤ request.limits.maxPackages →
      Keeps (addRootDependencies request ds st : SolverM σ _) fun next =>
        next = st.withDependencies none ds ∧
          next.constraints.size ≤ request.limits.maxPackages := by
  induction ds with
  | nil =>
    intro st hsize
    exact Keeps.pure ⟨rfl, hsize⟩
  | cons d ds ih =>
    intro st hsize
    refine (addDependency_keeps st none d).bind fun next hnext => ?_
    obtain ⟨rfl, hsize'⟩ := hnext
    exact ih _ (hsize' hsize)

/-! ### The caches and the history -/

/-- The caches hold exactly what the calls of the history returned, and no call has failed. -/
structure Called (src : ResolverSource σ) (x : σ) (request : ResolveRequest) (s : Solver σ) :
    Prop where
  history : History src x s.calls s.source
  protocol : Protocol request s.calls
  clean : ∀ call ∈ s.calls, ¬ call.Failed
  catalog : ∀ p catalog, s.catalogs[p]? = some catalog →
    catalog.package = p ∧ .authenticate p (.ok catalog) ∈ s.calls ∧
      (catalog.candidates.map (·.version)).Nodup
  catalogKept : ∀ p result, .authenticate p result ∈ s.calls →
    ∃ catalog, s.catalogs[p]? = some catalog
  verified : ∀ (key : CandidateCacheKey) result, s.verified[key]? = some result →
    ∃ catalog, ∃ candidate ∈ catalog.candidates, s.catalogs[key.package]? = some catalog ∧
      .of catalog.package candidate = key ∧ .verify catalog candidate result ∈ s.calls
  verifiedKept : ∀ catalog candidate result, .verify catalog candidate result ∈ s.calls →
    s.verified[CandidateCacheKey.of catalog.package candidate]? = some result

/-- What the history says in favour of a selection. -/
def Supported (request : ResolveRequest) (calls : List SourceCall) (p : PackageKey)
    (sel : Selection) : Prop :=
  ∃ catalog, catalog.package = p ∧ .authenticate p (.ok catalog) ∈ calls ∧
    sel.candidate ∈ catalog.candidates ∧ .verify catalog sel.candidate (.ok sel.verified) ∈ calls ∧
    sel.verified.Identifies p sel.candidate ∧ FrozenRespected request p sel.candidate.version ∧
    (sel.candidate.yanked = true → YankReplay request p sel.candidate.version)

theorem Supported.mono {request : ResolveRequest} {calls calls' : List SourceCall}
    (hle : ∀ call ∈ calls, call ∈ calls') {p : PackageKey} {sel : Selection}
    (h : Supported request calls p sel) : Supported request calls' p sel := by
  obtain ⟨catalog, hp, hauth, hmem, hverify, hrest⟩ := h
  exact ⟨catalog, hp, hle _ hauth, hmem, hle _ hverify, hrest⟩

/-- **The invariant of a run.**  `base` are catalogs cached earlier in the run, `d` the decisions
recorded so far, and `st` the state of the search. -/
structure Inv (src : ResolverSource σ) (x : σ) (request : ResolveRequest)
    (base : TreeMap PackageKey AuthenticatedCatalog) (d : List (PackageKey × ReleaseVersion))
    (st : SolverState) (s : Solver σ) : Prop where
  called : Called src x request s
  kept : ∀ (p : PackageKey) cat, base[p]? = some cat → s.catalogs[p]? = some cat
  supported : ∀ p sel, st.selected[p]? = some sel → Supported request s.calls p sel
  wellFormed : WellFormed request st
  bounded : st.constraints.size ≤ request.limits.maxPackages
  decided : decisions s.trace = d

/-- What is left of the invariant when a method stops with an error. -/
def Stopped (request : ResolveRequest) (e : ResolveError) (s : Solver σ) : Prop :=
  e.Raised ∧ Protocol request s.calls

section

variable {src : ResolverSource σ} {x : σ}
  {base : TreeMap PackageKey AuthenticatedCatalog} {d : List (PackageKey × ReleaseVersion)}
  {st : SolverState} {s s' : Solver σ}

theorem Called.book (h : Called src x request s) (hb : Book s s') : Called src x request s' := by
  obtain ⟨h₁, h₂, h₃, h₄, h₅, h₆, h₇⟩ := h
  constructor <;> simpa only [hb.source, hb.catalogs, hb.verified, hb.calls]

theorem Inv.book (h : Inv src x request base d st s) (hb : Book s s') :
    Inv src x request base d st s' where
  called := h.called.book hb
  kept := by simpa only [hb.catalogs] using h.kept
  supported := by simpa only [hb.calls] using h.supported
  wellFormed := h.wellFormed
  bounded := h.bounded
  decided := hb.decided.trans h.decided

/-- The catalogs cached by now can serve as the new base. -/
theorem Inv.rebase (h : Inv src x request base d st s) :
    Inv src x request s.catalogs d st s :=
  { h with kept := fun _ _ hq => hq }

/-- **Bookkeeping first.**  The rest runs from a solver that differs in bookkeeping only. -/
theorem Keeps.wp_bind {m : SolverM σ α} {f : α → SolverM σ β} {R : α → Prop} (hm : Keeps m R)
    (hprotocol : Protocol request s.calls) {Q : β → Solver σ → Prop}
    (hf : ∀ a s', Book s s' → R a → wp (f a) Q (Stopped request) s') :
    wp (m >>= f) Q (Stopped request) s := by
  rw [Foundation.wp_bind]
  refine wp_mono (hm s) (fun a s' _ hb => hf a s' hb.1 hb.2) ?_
  rintro e s' - ⟨hb, he⟩
  exact ⟨he, hb.calls ▸ hprotocol⟩

/-! ### Authentication -/

variable {p : PackageKey} {cat : AuthenticatedCatalog}

/-- A package of a well-formed, supported state may have its catalog authenticated. -/
theorem Inv.entitled (h : Inv src x request base d st s)
    (hp : p ∈ st.constraints) : Entitled request s.calls p := by
  obtain ⟨c, hc⟩ := exists_mem_of_ne_nil _ ((h.wellFormed.tight p).mp hp)
  rcases h.wellFormed.origin hc with ⟨-, r, hr, hrp, -⟩ | ⟨q, sel, -, hsel, r, hr, hrp, -⟩
  · exact .inl ⟨r, hr, hrp⟩
  · obtain ⟨cat, hcat, -, -, hverify, hid, -⟩ := h.supported q sel hsel
    exact .inr ⟨cat, sel.candidate, sel.verified, hverify, hcat ▸ hid, r, hr, hrp⟩

/-- The source authenticated the catalog of `p` and the solver cached it. -/
structure Authenticates (src : ResolverSource σ) (p : PackageKey) (cat : AuthenticatedCatalog)
    (s s' : Solver σ) : Prop where
  answer : (src.authenticateCatalog s.source p).1 = .ok cat
  source : s'.source = (src.authenticateCatalog s.source p).2
  calls : s'.calls = s.calls ++ [.authenticate p (src.authenticateCatalog s.source p).1]
  catalogs : s'.catalogs = s.catalogs.insert p cat
  verified : s'.verified = s.verified
  decided : decisions s'.trace = decisions s.trace

section

variable (h : Called src x request s) (hnew : s.catalogs[p]? = none)
  (hent : Entitled request s.calls p)
include h hnew hent

/-- The request for an uncached catalog is admissible. -/
theorem Called.admissible_authenticate (result : Except SourceFailure AuthenticatedCatalog) :
    Protocol request (s.calls ++ [.authenticate p result]) := by
  refine h.protocol.append h.clean ⟨fun result' hmem => ?_, hent⟩
  obtain ⟨cat, hcat⟩ := h.catalogKept p result' hmem
  rw [hnew] at hcat
  cases hcat

theorem Called.authenticates (hp : cat.package = p) (hrows : (cat.candidates.map (·.version)).Nodup)
    (ha : Authenticates src p cat s s') : Called src x request s' := by
  have hlookup : ∀ q : PackageKey, s'.catalogs[q]? = if p = q then some cat else s.catalogs[q]? :=
    fun q => by rw [ha.catalogs, getElem?_insert_cmp]
  have hkept : ∀ (q : PackageKey) c, s.catalogs[q]? = some c → s'.catalogs[q]? = some c := by
    intro q c hq
    rw [ha.catalogs]
    exact getElem?_insert_of_new hnew hq _
  have hmem : ∀ call, call ∈ s'.calls ↔ call ∈ s.calls ∨ call = .authenticate p (.ok cat) := by
    intro call
    rw [ha.calls, ha.answer, mem_append, mem_singleton]
  constructor
  · rw [ha.calls, ha.source]
    exact .authenticate p h.history
  · rw [ha.calls]
    exact h.admissible_authenticate hnew hent _
  · intro call hcall
    rcases (hmem call).mp hcall with hcall | rfl
    · exact h.clean call hcall
    · simp [SourceCall.Failed]
  · intro q c hq
    rw [hlookup] at hq
    split at hq
    next heq =>
      subst heq
      cases hq
      exact ⟨hp, (hmem _).mpr (.inr rfl), hrows⟩
    next =>
      obtain ⟨hpackage, hcall, hnodup⟩ := h.catalog q c hq
      exact ⟨hpackage, (hmem _).mpr (.inl hcall), hnodup⟩
  · intro q result hcall
    rcases (hmem _).mp hcall with hcall | heq
    · obtain ⟨c, hc⟩ := h.catalogKept q result hcall
      exact ⟨c, hkept q c hc⟩
    · cases heq
      exact ⟨cat, by rw [hlookup, if_pos rfl]⟩
  · intro key result hkey
    rw [ha.verified] at hkey
    obtain ⟨c, candidate, hcandidate, hc, hof, hcall⟩ := h.verified key result hkey
    exact ⟨c, candidate, hcandidate, hkept _ _ hc, hof, (hmem _).mpr (.inl hcall)⟩
  · intro c candidate result hcall
    rw [ha.verified]
    rcases (hmem _).mp hcall with hcall | heq
    · exact h.verifiedKept c candidate result hcall
    · cases heq

end

theorem Inv.authenticates (h : Inv src x request base d st s) (hnew : s.catalogs[p]? = none)
    (hp : p ∈ st.constraints) (hcat : cat.package = p) (hrows : (cat.candidates.map (·.version)).Nodup)
    (ha : Authenticates src p cat s s') : Inv src x request base d st s' where
  called := h.called.authenticates hnew (h.entitled hp) hcat hrows ha
  kept q c hq := by
    rw [ha.catalogs]
    exact getElem?_insert_of_new hnew (h.kept q c hq) _
  supported q sel hq := (h.supported q sel hq).mono (by rw [ha.calls]; simp +contextual)
  wellFormed := h.wellFormed
  bounded := h.bounded
  decided := ha.decided.trans h.decided

/-- **`catalog`.**  It returns the catalog of a constrained package, cached or newly
authenticated. -/
theorem catalog_inv (h : Inv src x request base d st s) (hp : p ∈ st.constraints) :
    wp (catalog src request p)
      (fun cat s' => Inv src x request base d st s' ∧ s'.catalogs[p]? = some cat)
      (Stopped request) s := by
  unfold catalog
  rw [wp_bind, wp_get]
  split
  next cat hcat => exact ⟨h, hcat⟩
  next hnew =>
    have hprotocol := h.called.admissible_authenticate hnew (h.entitled hp)
      (src.authenticateCatalog s.source p).1
    simp only [wp_bind, wp_modify]
    split
    · exact ⟨trivial, hprotocol⟩
    next cat hanswer =>
      split
      · exact ⟨trivial, hprotocol⟩
      next hcat =>
      split
      · exact ⟨trivial, hprotocol⟩
      split
      · exact ⟨trivial, hprotocol⟩
      next hrows =>
      split
      · exact ⟨trivial, hprotocol⟩
      simp only [wp_bind, wp_modify, wp_get]
      split
      · exact ⟨trivial, hprotocol⟩
      refine (pushTrace_keeps).wp_bind hprotocol fun _ s' hb _ => ?_
      simp only [wp_bind, wp_modify]
      have hnodup := ((catalogRowsValid_iff _ _).mp (by simpa using hrows)).2
      refine ⟨h.authenticates hnew hp (not_not.mp hcat) hnodup ?_, ?_⟩
      · exact ⟨hanswer, hb.source, hb.calls, by rw [hb.catalogs], hb.verified, hb.decided⟩
      · rw [getElem?_insert_cmp, if_pos rfl]

end

end Axiomc.Package
