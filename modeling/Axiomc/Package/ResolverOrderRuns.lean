import Axiomc.Foundation.Coupling
import Axiomc.Package.ResolverOrder
import Axiomc.Package.ResolverSearch

/-!
# The order of the inputs and the run

Two runs of `resolve_packages` side by side, on inputs that differ in the order of lists: the
dependencies of the request, the dependencies of a manifest, the rows of a catalog.  The source is a
`Registry`, which answers as a function of its arguments.

`Twin` relates the two solvers at corresponding moments.  Their traces agree event by event up to the
requirement of an added constraint, since dependencies with one target may be recorded in different
orders; with `strict`, when no list has two such dependencies, the traces are equal.  A method on one
side and the same method on the other keep twins (`Twins`), or both stop.
-/

namespace Axiomc.Package

open Std Axiomc.Foundation Dependency

/-! ### Sources and their reorderings -/

/-- A source that answers as a function of its arguments. -/
structure Registry where
  authenticate : PackageKey → Except SourceFailure AuthenticatedCatalog
  verify : AuthenticatedCatalog → CatalogCandidate → Except SourceFailure VerifiedCandidate

/-- The registry as a source without a state. -/
def Registry.source (registry : Registry) : ResolverSource Unit where
  authenticateCatalog _ package := (registry.authenticate package, ())
  verifyCandidate _ catalog candidate := (registry.verify catalog candidate, ())
  discardCandidate _ _ := ()

/-- The same catalog with its rows in another order. -/
def AuthenticatedCatalog.Reordered (cat cat' : AuthenticatedCatalog) : Prop :=
  cat.package = cat'.package ∧ cat.authenticationId = cat'.authenticationId ∧
    cat.candidates.Perm cat'.candidates

/-- The same manifest with its dependencies in another order. -/
def VerifiedCandidate.Reordered (v v' : VerifiedCandidate) : Prop :=
  { v with dependencies := [] } = { v' with dependencies := [] } ∧
    v.dependencies.Perm v'.dependencies

/-- The same failure, or related answers. -/
def AnswersAlike {α : Type} (R : α → α → Prop) :
    Except SourceFailure α → Except SourceFailure α → Prop
  | .ok a, .ok b => R a b
  | .error e, .error e' => e = e'
  | _, _ => False

/-- The registries differ in the order of the rows of catalogs and of the dependencies in manifests;
a release is verified against the catalog of the registry at hand. -/
structure Registry.Reordered (reg reg' : Registry) : Prop where
  catalogs : ∀ p, AnswersAlike AuthenticatedCatalog.Reordered (reg.authenticate p)
    (reg'.authenticate p)
  manifests : ∀ p cat cat', reg.authenticate p = .ok cat → reg'.authenticate p = .ok cat' →
    ∀ c, AnswersAlike VerifiedCandidate.Reordered (reg.verify cat c) (reg'.verify cat' c)

/-! ### Twins -/

/-- Equal events, or the same constraint with another requirement. -/
def TraceEvent.Alike (e e' : TraceEvent) : Prop :=
  e = e' ∨ ∃ from' p r r', e = .constraintAdded from' p r ∧ e' = .constraintAdded from' p r'

/-- The catalogs the two registries have for a package, with distinct versions. -/
def Listed (reg reg' : Registry) (p : PackageKey) (cat cat' : AuthenticatedCatalog) : Prop :=
  reg.authenticate p = .ok cat ∧ reg'.authenticate p = .ok cat' ∧ cat.Reordered cat' ∧
    (cat.candidates.map (·.version)).Nodup

/-- Manifests that differ in the order of their dependencies, which their keys separate. -/
def Usable (strict : Prop) (v v' : VerifiedCandidate) : Prop :=
  v.Reordered v' ∧ Separated v.dependencies ∧ (strict → Unrepeated v.dependencies)

/-- What holds between the two solvers at corresponding moments. -/
structure Twin (strict : Prop) (reg reg' : Registry) (s s' : Solver Unit) :
    Prop where
  catalogs : ∀ p : PackageKey, Option.Rel (Listed reg reg' p) s.catalogs[p]? s'.catalogs[p]?
  verified : ∀ key : CandidateCacheKey,
    Option.Rel (AnswersAlike (Usable strict)) s.verified[key]? s'.verified[key]?
  trace : List.Forall₂ TraceEvent.Alike s.trace s'.trace
  strictly : strict → s.trace = s'.trace
  count : s.catalogCandidateCount = s'.catalogCandidateCount
  attempts : s.candidateAttempts = s'.candidateAttempts
  backtracks : s.backtracks = s'.backtracks
  lastConflict : s.lastConflict = s'.lastConflict

/-- Two methods that keep twins, with related results, or both stop. -/
def Twins (strict : Prop) (reg reg' : Registry) {α β : Type}
    (m : SolverM Unit α) (m' : SolverM Unit β) (R : α → β → Prop) : Prop :=
  ∀ s s', Twin strict reg reg' s s' →
    Coupled m m' (fun a b t t' => Twin strict reg reg' t t' ∧ R a b)
      (fun _ _ t t' => strict → t.trace = t'.trace) s s'

/-- What the two runs are given. -/
structure Setting (strict : Prop) (reg reg' : Registry) : Prop where
  reordered : reg.Reordered reg'
  separated : ∀ cat c v, reg.verify cat c = .ok v → Separated v.dependencies
  unrepeated : strict → ∀ cat c v, reg.verify cat c = .ok v → Unrepeated v.dependencies

section

variable {strict : Prop} {reg reg' : Registry} {α β γ δ : Type}
  {request : ResolveRequest} {st st' : SolverState} {p : PackageKey}
  {R : α → β → Prop} {d : Dependency} {cat cat' : AuthenticatedCatalog}
  {a : α} {b : β} {d' : Dependency} {ds ds' : List Dependency}

theorem Twins.pure (h : R a b) : Twins strict reg reg' (pure a) (pure b) R :=
  fun _ _ htwin => ⟨htwin, h⟩

theorem Twins.throw (e e' : ResolveError) : Twins strict reg reg' (throw e) (throw e') R :=
  fun _ _ htwin => htwin.strictly

theorem Twins.bind {m : SolverM Unit α} {m' : SolverM Unit β}
    {f : α → SolverM Unit γ} {f' : β → SolverM Unit δ} {R' : γ → δ → Prop}
    (hm : Twins strict reg reg' m m' R)
    (hf : ∀ a b, R a b → Twins strict reg reg' (f a) (f' b) R') :
    Twins strict reg reg' (m >>= f) (m' >>= f') R' :=
  fun s s' htwin => (hm s s' htwin).bind fun a b t t' h => hf a b h.2 t t' h.1

theorem Twins.get_bind {f f' : Solver Unit → SolverM Unit α} {R : α → α → Prop}
    (h : ∀ s s', Twin strict reg reg' s s' → Twins strict reg reg' (f s) (f' s') R) :
    Twins strict reg reg' (get >>= f) (get >>= f') R :=
  fun s s' htwin => h s s' htwin s s' htwin

theorem Twins.modify {f f' : Solver Unit → Solver Unit}
    (h : ∀ s s', Twin strict reg reg' s s' → Twin strict reg reg' (f s) (f' s')) :
    Twins strict reg reg' (modify f) (modify f') fun _ _ => True :=
  fun s s' htwin => ⟨h s s' htwin, trivial⟩

/-- The same test on both sides. -/
theorem Twins.ite {c : Prop} [Decidable c] {m₁ m₂ : SolverM Unit α} {m₁' m₂' : SolverM Unit β}
    (h₁ : c → Twins strict reg reg' m₁ m₁' R) (h₂ : ¬c → Twins strict reg reg' m₂ m₂' R) :
    Twins strict reg reg' (if c then m₁ else m₂) (if c then m₁' else m₂') R := by
  by_cases h : c
  · rw [if_pos h, if_pos h]
    exact h₁ h
  · rw [if_neg h, if_neg h]
    exact h₂ h

/-! ### Bookkeeping -/

theorem pushTrace_twins {e e' : TraceEvent} (halike : e.Alike e') (hstrict : strict → e = e') :
    Twins strict reg reg' (pushTrace request e) (pushTrace request e') fun _ _ => True := by
  intro s s' h
  have hlength := h.trace.length_eq
  refine Coupled.get_bind ?_
  rw [← hlength]
  split
  · exact h.strictly
  · refine ⟨{ h with trace := ?_, strictly := fun hs => ?_ }, trivial⟩
    · exact List.rel_append h.trace (.cons halike .nil)
    · show s.trace ++ [e] = s'.trace ++ [e']
      rw [h.strictly hs, hstrict hs]

/-- The same event on both sides. -/
theorem pushSame_twins (e : TraceEvent) :
    Twins strict reg reg' (pushTrace request e) (pushTrace request e) fun _ _ => True :=
  pushTrace_twins (.inl rfl) fun _ => rfl

theorem backtrack_twins (p : PackageKey) (v : ReleaseVersion) :
    Twins strict reg reg' (backtrack request p v) (backtrack request p v) fun _ _ => True := by
  intro s s' h
  refine Coupled.get_bind ?_
  rw [← h.backtracks]
  split
  · exact h.strictly
  · refine pushSame_twins _ _ _ { h with backtracks := ?_ }
    show s.backtracks + 1 = s'.backtracks + 1
    rw [h.backtracks]

theorem bumpCandidateAttempts_twins :
    Twins strict reg reg' (bumpCandidateAttempts request) (bumpCandidateAttempts request)
      fun _ _ => True := by
  intro s s' h
  refine Coupled.get_bind ?_
  rw [← h.attempts]
  split
  · exact h.strictly
  · refine ⟨{ h with attempts := ?_ }, trivial⟩
    show s.candidateAttempts + 1 = s'.candidateAttempts + 1
    rw [h.attempts]

theorem discardCandidate_twins (p : PackageKey) (c : CatalogCandidate) :
    Twins strict reg reg' (discardCandidate reg.source p c) (discardCandidate reg'.source p c)
      fun _ _ => True :=
  fun _ _ h => ⟨{ h with }, trivial⟩

theorem setConflict_twins (conflict : PackageKey × List VersionRequirement) :
    Twins strict reg reg' (modify fun s => { s with lastConflict := some conflict })
      (modify fun s => { s with lastConflict := some conflict }) fun _ _ => True :=
  fun _ _ h => ⟨{ h with lastConflict := rfl }, trivial⟩

/-- A conflict is recorded and reported. -/
theorem reportConflict_twins (p : PackageKey) (requirements : List VersionRequirement) (h : R a b) :
    Twins strict reg reg' (do
        modify fun s => { s with lastConflict := some (p, requirements) }
        pushTrace request (.conflict p requirements)
        return a)
      (do
        modify fun s => { s with lastConflict := some (p, requirements) }
        pushTrace request (.conflict p requirements)
        return b) R :=
  (setConflict_twins (p, requirements)).bind fun _ _ _ =>
    (pushSame_twins _).bind fun _ _ _ => Twins.pure h

/-! ### Adding dependencies -/

theorem addDependency_twins (hshape : Shaped st st') (from' : Option PackageKey)
    (hsame : d.SameTarget d') (hstrict : strict → d = d') :
    Twins strict reg reg' (addDependency request st from' d) (addDependency request st' from' d')
      fun next next' => next = st.withDependency from' d ∧ next' = st'.withDependency from' d' := by
  cases d <;> cases d'
  case path.registry | registry.path => exact hsame.elim
  case path.path d d' =>
    obtain ⟨hpath, halias⟩ := hsame
    simp only [addDependency, ← hpath, ← halias]
    split
    · exact Twins.throw _ _
    · exact (pushSame_twins _).bind fun _ _ _ => Twins.pure ⟨rfl, rfl⟩
  case registry.registry r r' =>
    obtain ⟨hpackage, halias⟩ := hsame
    simp only [addDependency, ← hpackage, ← halias, ← hshape.contains_eq, ← hshape.size_eq]
    split
    · exact Twins.throw _ _
    · split
      · exact fun _ _ h => h.strictly
      · refine Twins.bind (pushTrace_twins (.inr ⟨_, _, _, _, rfl, rfl⟩) fun hs => ?_)
          fun _ _ _ => Twins.pure ⟨rfl, rfl⟩
        have hr : r = r' := registry.inj (hstrict hs)
        rw [hr]

theorem addRootDependencies_twins (hmatched : List.Forall₂ (Dependency.Matched strict) ds ds') :
    ∀ st st' : SolverState, Shaped st st' →
      Twins strict reg reg' (addRootDependencies request ds st) (addRootDependencies request ds' st')
        fun next next' => next = st.withDependencies none ds ∧ next' = st'.withDependencies none ds' := by
  induction hmatched with
  | nil => exact fun st st' _ => Twins.pure ⟨rfl, rfl⟩
  | @cons d d' ds ds' hd _ ih =>
    intro st st' hshape
    refine (addDependency_twins hshape none hd.1 hd.2).bind ?_
    rintro next next' ⟨rfl, rfl⟩
    exact ih _ _ (hshape.withDependency none hd.1)

/-- How the loops over the dependencies of a candidate end: all are recorded, or both stop at one
package. -/
def LoopsEnd (p : PackageKey) (ds ds' : List Dependency) (st st' : SolverState) :
    SolverState × Option PackageKey → SolverState × Option PackageKey → Prop
  | (next, none), (next', none) =>
    next = st.withDependencies (some p) ds ∧ next' = st'.withDependencies (some p) ds'
  | (_, some through), (_, some through') => through = through'
  | _, _ => False

theorem addDependencies_twins (hmatched : List.Forall₂ (Dependency.Matched strict) ds ds') :
    ∀ st st' : SolverState, Shaped st st' →
      Twins strict reg reg' (addDependencies request p ds st) (addDependencies request p ds' st')
        (LoopsEnd p ds ds' st st') := by
  induction hmatched with
  | nil => exact fun st st' _ => Twins.pure ⟨rfl, rfl⟩
  | @cons d d' ds ds' hd _ ih =>
    obtain ⟨hsame, hstrict⟩ := hd
    intro st st' hshape
    simp only [addDependencies]
    have hadds : Twins strict reg reg'
        (addDependency request st (some p) d >>= addDependencies request p ds)
        (addDependency request st' (some p) d' >>= addDependencies request p ds')
        (LoopsEnd p (d :: ds) (d' :: ds') st st') := by
      refine (addDependency_twins hshape (some p) hsame hstrict).bind ?_
      rintro next next' ⟨rfl, rfl⟩
      exact ih _ _ (hshape.withDependency (some p) hsame)
    cases d <;> cases d'
    case path.registry | registry.path => exact hsame.elim
    case path.path => exact hadds
    case registry.registry r r' =>
      have hpath : dependencyPathExists st' r'.package p = dependencyPathExists st r.package p := by
        rw [← hsame.1, hshape.dependencyPathExists_eq]
      by_cases hcycle : dependencyPathExists st r.package p = true
      · simp only [ registry?, Option.filter, hpath, hcycle]
        exact Twins.pure hsame.1
      · simp only [ registry?, Option.filter, hpath, hcycle]
        exact hadds

/-! ### Asking the source -/

theorem AnswersAlike.cases {R : α → α → Prop} {x y : Except SourceFailure α} (h : AnswersAlike R x y) :
    (∃ a b, x = .ok a ∧ y = .ok b ∧ R a b) ∨ ∃ e, x = .error e ∧ y = .error e := by
  cases x with
  | ok a =>
    cases y with
    | ok b => exact .inl ⟨a, b, rfl, rfl, h⟩
    | error e' => exact h.elim
  | error e =>
    cases y with
    | ok b => exact h.elim
    | error e' => exact .inr ⟨e, rfl, congrArg Except.error (h : e = e').symm⟩

/-- A catalog that both registries list is checked, counted and kept. -/
theorem keepCatalog_twins (hlisted : Listed reg reg' p cat cat') : Twins strict reg reg' (do
        modify fun s => { s with catalogs := s.catalogs.insert p cat }
        return cat)
      (do
        modify fun s => { s with catalogs := s.catalogs.insert p cat' }
        return cat') (Listed reg reg' p) := by
  refine Twins.bind (Twins.modify ?_) fun _ _ _ => Twins.pure hlisted
  refine fun s s' h => { h with catalogs := fun q => ?_ }
  show Option.Rel _ (s.catalogs.insert p cat)[q]? (s'.catalogs.insert p cat')[q]?
  rw [getElem?_insert_cmp, getElem?_insert_cmp]
  split
  next heq => exact heq ▸ .some hlisted
  next => exact h.catalogs q

theorem catalog_twins (hset : Setting strict reg reg') (request : ResolveRequest) (p : PackageKey) :
    Twins strict reg reg' (catalog reg.source request p) (catalog reg'.source request p)
      (Listed reg reg' p) := by
  have hanswers := (hset.reordered.catalogs p).cases
  have hsource : ∀ (registry : Registry) (x : Unit),
      registry.source.authenticateCatalog x p = (registry.authenticate p, ()) := fun _ _ => rfl
  refine Twins.get_bind fun s s' h => ?_
  have hcached := h.catalogs p
  generalize s.catalogs[p]? = cached, s'.catalogs[p]? = cached' at hcached ⊢
  cases hcached with
  | some hlisted => exact Twins.pure hlisted
  | none =>
    simp only [hsource]
    rcases hanswers with ⟨cat, cat', hauth, hauth', hpackage, hid, hrows⟩ | ⟨e, hauth, hauth'⟩
    · simp only [hauth, hauth', ← hpackage, ← hid, ← catalogRowsValid_perm hrows, ← hrows.length_eq,
        ← h.count]
      refine Twins.bind (Twins.modify ?_) fun _ _ _ => ?_
      · exact fun _ _ h => { h with }
      refine Twins.ite ?_ fun _ => Twins.ite ?_ fun _ => Twins.ite ?_ fun hvalid => Twins.ite ?_ fun _ => ?_
      · exact fun _ _ _ h => h.strictly
      · exact fun _ _ _ h => h.strictly
      · exact fun _ _ _ h => h.strictly
      · exact fun _ _ _ h => h.strictly
      refine Twins.bind (Twins.modify ?_) fun _ _ _ => ?_
      · refine fun s s' h => { h with count := ?_ }
        rw [h.count]
      refine Twins.get_bind fun s s' h => ?_
      rw [← h.count]
      refine Twins.ite (fun _ _ _ h => h.strictly) fun _ => ?_
      · have hnodup := ((catalogRowsValid_iff _ _).mp (by simpa using hvalid)).2
        exact (pushSame_twins _).bind fun _ _ _ =>
          keepCatalog_twins ⟨hauth, hauth', ⟨hpackage, hid, hrows⟩, hnodup⟩
    · simp only [hauth, hauth']
      exact fun _ _ h => h.strictly

theorem verifiedCandidate_twins (hset : Setting strict reg reg')
    (hlisted : Listed reg reg' p cat cat') (c : CatalogCandidate) :
    Twins strict reg reg' (verifiedCandidate reg.source cat c)
      (verifiedCandidate reg'.source cat' c) (AnswersAlike (Usable strict)) := by
  obtain ⟨hauth, hauth', hreordered, -⟩ := hlisted
  have hanswer : AnswersAlike (Usable strict) (reg.verify cat c) (reg'.verify cat' c) := by
    rcases (hset.reordered.manifests p cat cat' hauth hauth' c).cases with
      ⟨v, v', hv, hv', halike⟩ | ⟨e, hv, hv'⟩
    · rw [hv, hv']
      exact ⟨halike, hset.separated cat c v hv, fun hs => hset.unrepeated hs cat c v hv⟩
    · rw [hv, hv']
      rfl
  have hsource : ∀ (registry : Registry) (x : Unit) (cat : AuthenticatedCatalog),
      registry.source.verifyCandidate x cat c = (registry.verify cat c, ()) := fun _ _ _ => rfl
  refine Twins.get_bind fun s s' h => ?_
  simp only [← hreordered.1]
  have hcached := h.verified (CandidateCacheKey.of cat.package c)
  generalize s.verified[CandidateCacheKey.of cat.package c]? = cached,
    s'.verified[CandidateCacheKey.of cat.package c]? = cached' at hcached ⊢
  cases hcached with
  | some halike =>
    exact Twins.pure halike
  | none =>
    refine Twins.bind (Twins.modify ?_) fun _ _ _ => Twins.pure hanswer
    refine fun s s' h => { h with verified := fun key => ?_ }
    show Option.Rel _ (s.verified.insert _ _)[key]? (s'.verified.insert _ _)[key]?
    rw [getElem?_insert_cmp, getElem?_insert_cmp]
    split
    · exact .some hanswer
    · exact h.verified key

/-! ### The search -/

/-- Solvers that find similar solutions from similar states. -/
def SearchAlike (strict : Prop) (reg reg' : Registry)
    (f f' : SolverState → SolverM Unit (Option SolverState)) : Prop :=
  ∀ st st', Similar st st' → st.Tight → st'.Tight →
    Twins strict reg reg' (f st) (f' st') (Option.Rel Similar)

/-- What a round of the candidate loop leads to on the two sides. -/
def StepsAlike : CandidateStep → CandidateStep → Prop
  | .continue' attempted, .continue' attempted' => attempted = attempted'
  | .solved sol, .solved sol' => Similar sol sol'
  | _, _ => False

/-- A candidate is given up on both sides. -/
theorem rejectCandidate_twins (p : PackageKey) (c : CatalogCandidate) (reason : CandidateRejection) :
    Twins strict reg reg'
      (do
        pushTrace request (.candidateRejected p c.version reason)
        discardCandidate reg.source p c
        backtrack request p c.version
        return .continue' true)
      (do
        pushTrace request (.candidateRejected p c.version reason)
        discardCandidate reg'.source p c
        backtrack request p c.version
        return .continue' true) StepsAlike :=
  (pushSame_twins _).bind fun _ _ _ => (discardCandidate_twins p c).bind fun _ _ _ =>
    (backtrack_twins p c.version).bind fun _ _ _ => Twins.pure rfl

variable {f f' : SolverState → SolverM Unit (Option SolverState)}

section

variable (hsearch : SearchAlike strict reg reg' f f') (hsim : Similar st st') (htight : st.Tight)
  (htight' : st'.Tight)
include hsearch hsim htight htight'

theorem selectCandidate_twins (c : CatalogCandidate) {v v' : VerifiedCandidate}
    (husable : Usable strict v v') :
    Twins strict reg reg' (selectCandidate reg.source request f st p c v)
      (selectCandidate reg'.source request f' st' p c v') StepsAlike := by
  obtain ⟨⟨hcore, hperm⟩, hseparated, hunrepeated⟩ := husable
  have hdigest : v.manifestDigest = v'.manifestDigest := by
    injection hcore
  have hmatched := forall₂_sortBy_matched hseparated hunrepeated hperm
  have hselected : Similar (st.select p ⟨c, v⟩) (st'.select p ⟨c, v'⟩) :=
    hsim.select p (congrArg (Selection.mk c) hcore)
  have hsorted : (sortBy dependencyOrder v.dependencies).Perm
      (sortBy dependencyOrder v'.dependencies) :=
    ((sortBy_perm _ _).trans hperm).trans (sortBy_perm _ _).symm
  unfold selectCandidate
  rw [hdigest]
  refine (pushSame_twins _).bind fun _ _ _ => ?_
  refine (addDependencies_twins hmatched _ _ hselected.shaped).bind ?_
  rintro ⟨next, cycle⟩ ⟨next', cycle'⟩ hloops
  cases cycle with
  | some through =>
    cases cycle' with
    | none => exact hloops.elim
    | some through' =>
      obtain rfl : through = through' := hloops
      exact rejectCandidate_twins p c (.cycle through)
  | none =>
    cases cycle' with
    | some through' => exact hloops.elim
    | none =>
      obtain ⟨rfl, rfl⟩ := hloops
      have hselect := htight.select p ⟨c, v⟩
      have hselect' := htight'.select p ⟨c, v'⟩
      refine (hsearch _ _ (hselected.withDependencies hselect hselect' _ hsorted)
        (hselect.withDependencies _ _) (hselect'.withDependencies _ _)).bind
        fun result result' hresult => ?_
      cases hresult with
      | some hsol => exact (pushSame_twins _).bind fun _ _ _ => Twins.pure hsol
      | none => exact rejectCandidate_twins p c .downstreamConflict

variable (hset : Setting strict reg reg')
include hset

theorem tryCandidate_twins (requirements : List VersionRequirement)
    (hlisted : Listed reg reg' p cat cat') (attempted : Bool) (c : CatalogCandidate) :
    Twins strict reg reg' (tryCandidate reg.source request f st p requirements cat attempted c)
      (tryCandidate reg'.source request f' st' p requirements cat' attempted c) StepsAlike := by
  refine (bumpCandidateAttempts_twins).bind fun _ _ _ => ?_
  refine (pushSame_twins _).bind fun _ _ _ => ?_
  split
  · exact (pushSame_twins _).bind fun _ _ _ => Twins.pure rfl
  · refine (verifiedCandidate_twins hset hlisted c).bind fun answer answer' hanswer => ?_
    rcases hanswer.cases with ⟨v, v', rfl, rfl, husable⟩ | ⟨e, rfl, rfl⟩
    · obtain ⟨⟨hcore, -⟩, -⟩ := id husable
      have hpackage : v.package = v'.package := by injection hcore
      have hversion : v.version = v'.version := by injection hcore
      have hrelease : v.releaseId = v'.releaseId := by injection hcore
      dsimp only
      rw [← hpackage, ← hversion, ← hrelease]
      refine Twins.ite (fun _ => ?_) fun _ => ?_
      · exact (pushSame_twins _).bind fun _ _ _ =>
          (discardCandidate_twins p c).bind fun _ _ _ => Twins.pure rfl
      · exact selectCandidate_twins hsearch hsim htight htight' c husable
    · exact (pushSame_twins _).bind fun _ _ _ => fun _ _ h => h.strictly

/-- **The candidate loop.**  The two sides try the same candidates. -/
theorem tryCandidates_twins (requirements : List VersionRequirement)
    (hlisted : Listed reg reg' p cat cat') (candidates : List CatalogCandidate) : ∀ attempted,
    Twins strict reg reg'
      (tryCandidates reg.source request f st p requirements cat attempted candidates)
      (tryCandidates reg'.source request f' st' p requirements cat' attempted candidates)
      (Option.Rel Similar) := by
  induction candidates with
  | nil =>
    intro attempted
    have hempty : cat.candidates.isEmpty = cat'.candidates.isEmpty := by
      rw [Bool.eq_iff_iff, List.isEmpty_iff_length_eq_zero, List.isEmpty_iff_length_eq_zero,
        hlisted.2.2.1.2.2.length_eq]
    simp only [tryCandidates, ← hempty]
    exact Twins.ite (fun _ => reportConflict_twins p requirements .none)
      fun _ => Twins.pure .none
  | cons c candidates ih =>
    intro attempted
    refine (tryCandidate_twins hsearch hsim htight htight' hset requirements hlisted attempted
      c).bind fun step step' hstep => ?_
    cases step with
    | solved sol =>
      cases step' with
      | solved sol' => exact Twins.pure (.some hstep)
      | continue' attempted' => exact hstep.elim
    | continue' attempted =>
      cases step' with
      | solved sol' => exact hstep.elim
      | continue' attempted' =>
        obtain rfl : attempted = attempted' := hstep
        exact ih attempted

end

/-- **The search.**  The induction is on the levels of `solve`. -/
theorem solve_twins (hset : Setting strict reg reg') (request : ResolveRequest) (bound : Nat) :
    SearchAlike strict reg reg' (solve reg.source request bound)
      (solve reg'.source request bound) := by
  induction bound with
  | zero => exact fun st st' _ _ _ => Twins.throw _ _
  | succ bound ih =>
    intro st st' hsim htight htight'
    simp only [solve]
    rw [← hsim.selectedConflict_eq]
    split
    next q _ =>
      rw [← hsim.requirementsFor_eq]
      exact reportConflict_twins q _ .none
    · rw [← hsim.nextPackage_eq]
      split
      · exact Twins.pure (.some hsim)
      next q _ =>
        rw [← hsim.requirementsFor_eq]
        refine (catalog_twins hset request q).bind fun cat cat' hlisted => ?_
        rw [← orderedCandidates_eq_of_perm request q hlisted.2.2.1.2.2 hlisted.2.2.2]
        exact tryCandidates_twins ih hsim htight htight' hset _ hlisted _ false

end

end Axiomc.Package
