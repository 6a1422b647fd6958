import Axiomc.Runtime.LifecycleSteps

/-!
# What holds in every reachable runtime

`Ownership σ` states what the lifecycle runtime is for, in terms of the tables of the runtime:
storage and owners correspond one to one, the active owners form a forest, each of them is held in
exactly one place, open borrows belong to active owners, and nothing outlives the last scope.
`run_ownership` proves it for every sequence of calls from a new runtime, together with the absence
of panics.
-/

namespace Axiomc.Runtime

open Foundation Std Relation LifecycleRuntime

variable {σ : LifecycleRuntime}

/-- The owner `o` is active, with the record `r`. -/
def IsActive (σ : LifecycleRuntime) (o : OwnerId) (r : Owner) : Prop :=
  σ.owners[o]? = some r ∧ r.status = .active

/-- The owner `c` is active and `p` is its parent. -/
def HasParent (σ : LifecycleRuntime) (c p : OwnerId) : Prop :=
  ∃ r, IsActive σ c r ∧ r.parent = some p

/-- The owner `p` is active and lists `c` as a child. -/
def HasChild (σ : LifecycleRuntime) (p c : OwnerId) : Prop :=
  ∃ r, IsActive σ p r ∧ c ∈ r.children

/-- The ownership discipline of a runtime between two calls. -/
structure Ownership (σ : LifecycleRuntime) : Prop where
  /-- An active owner has live storage. -/
  stored : ∀ o r, IsActive σ o r → r.allocation ∈ σ.allocations
  /-- Distinct active owners have distinct storage. -/
  exclusive : ∀ o o' r r', IsActive σ o r → IsActive σ o' r' → o ≠ o' →
    r.allocation ≠ r'.allocation
  /-- Live storage belongs to an active owner. -/
  owned : ∀ a, a ∈ σ.allocations → ∃ o r, IsActive σ o r ∧ r.allocation = a
  /-- The parent and the children links of active owners agree. -/
  agree : ∀ c p, HasParent σ c p ↔ HasChild σ p c
  /-- No child is listed twice. -/
  nodup : ∀ p r, IsActive σ p r → r.children.Nodup
  /-- No owner is above itself. -/
  acyclic : ∀ o, ¬ TransGen (HasParent σ) o o
  /-- An active owner has exactly one scope entry and no parent, or no scope entry and exactly one
  active parent. -/
  placed : ∀ o r, IsActive σ o r →
    (σ.entries.count (.owner o) = 1 ∧ ∀ p, ¬ HasChild σ p o) ∨
    (σ.entries.count (.owner o) = 0 ∧ ∃! p, HasChild σ p o)
  /-- An open borrow belongs to an active owner. -/
  borrowed : ∀ (b : BorrowId) (w : Borrow), σ.borrows[b]? = some w → ∃ r, IsActive σ w.owner r
  /-- Without an open scope, no owner and no resource is active. -/
  drained : σ.scopes = [] →
    (∀ o r, ¬ IsActive σ o r) ∧
      ∀ (id : ResourceId) (v : Resource), σ.resources[id]? = some v → v.status ≠ .active

variable {o : OwnerId} {r : Owner}

theorem isActive_iff : IsActive σ o r ↔ σ.live o = some r :=
  live_eq_some.symm

theorem hasParent_iff {c p : OwnerId} : HasParent σ c p ↔ Below σ.links c p := by
  simp only [HasParent, Below, isActive_iff, links_eq_some]
  constructor
  · rintro ⟨r, hr, hparent⟩
    exact ⟨r.links, ⟨r, hr, rfl⟩, hparent⟩
  · rintro ⟨n, ⟨r, hr, rfl⟩, hparent⟩
    exact ⟨r, hr, hparent⟩

theorem Inv.agree (h : Consistent σ) (c p : OwnerId) : HasParent σ c p ↔ HasChild σ p c := by
  simp only [HasParent, HasChild, isActive_iff]
  constructor
  · rintro ⟨r, hr, hparent⟩
    exact exists_live_parent h.forest hr hparent
  · rintro ⟨q, hq, hmem⟩
    obtain ⟨r, hr, -⟩ := exists_live_child h.forest hq hmem
    exact ⟨r, hr, (mem_children_iff h.forest hq hr).1 hmem⟩

theorem Inv.placed_once (h : Consistent σ) (hr : IsActive σ o r) :
    (σ.entries.count (.owner o) = 1 ∧ ∀ p, ¬ HasChild σ p o) ∨
    (σ.entries.count (.owner o) = 0 ∧ ∃! p, HasChild σ p o) := by
  have hplaced := h.placed_now (isActive_iff.1 hr)
  have hparent : ∀ p, HasChild σ p o ↔ r.parent = some p := by
    intro p
    rw [← h.agree]
    constructor
    · rintro ⟨q, hq, hp⟩
      cases hq.1.symm.trans hr.1
      exact hp
    · exact fun hp => ⟨r, hr, hp⟩
  cases hp : r.parent with
  | none =>
    refine .inl ⟨by simpa [hp] using hplaced, fun p hchild => ?_⟩
    rw [hparent, hp] at hchild
    cases hchild
  | some p =>
    refine .inr ⟨by simpa [hp] using hplaced, p, (hparent p).2 hp, fun p' hp' => ?_⟩
    have hp' := (hparent p').1 hp'
    rw [hp] at hp'
    exact (Option.some.inj hp').symm

/-- Every active owner leads up to one with an entry in a scope. -/
theorem Inv.exists_entry (h : Consistent σ) (hr : σ.live o = some r) :
    ∃ root, .owner root ∈ σ.entries := by
  -- walk up: the owners above `o` get fewer
  generalize hcard : (leadingTo (Function.swap (Below σ.links)) σ.activeIds o).card = n
  induction n using Nat.strong_induction_on generalizing o r with
  | _ n ih =>
    have hplaced := h.placed_now hr
    cases hparent : r.parent with
    | none =>
      refine ⟨o, List.count_pos_iff.1 ?_⟩
      rw [hparent] at hplaced
      simp at hplaced
      omega
    | some p =>
      obtain ⟨q, hq, -⟩ := exists_live_parent h.forest hr hparent
      exact ih _ (hcard ▸ card_above_lt h.forest hr hparent) hq rfl

theorem Inv.ownership (h : Consistent σ) : Ownership σ where
  stored o r hr := by
    obtain ⟨x, hx⟩ := h.stored (isActive_iff.1 hr)
    rw [TreeMap.mem_iff_isSome_getElem?, hx]
    rfl
  exclusive o o' r r' hr hr' hne heq :=
    hne (h.exclusive (isActive_iff.1 hr) (isActive_iff.1 hr') heq)
  owned a ha := by
    rw [TreeMap.mem_iff_isSome_getElem?, Option.isSome_iff_exists] at ha
    obtain ⟨x, hx⟩ := ha
    obtain ⟨o, r, hr, heq⟩ := h.owner_of_stored hx
    exact ⟨o, r, isActive_iff.2 hr, heq⟩
  agree := h.agree
  nodup p r hr := h.forest.nodup (links_of_live (isActive_iff.1 hr))
  acyclic o ho :=
    h.forest.acyclic o (TransGen.mono (fun _ _ hcp => hasParent_iff.1 hcp) o o ho)
  placed o r hr := h.placed_once hr
  borrowed b w hw := by
    obtain ⟨r, hr, -⟩ := h.borrowed hw
    exact ⟨r, isActive_iff.2 hr⟩
  drained hscopes := by
    have hnone : σ.entries = [] := by rw [entries, hscopes]; rfl
    refine ⟨fun o r hr => ?_, fun id v hv hactive => ?_⟩
    · obtain ⟨root, hroot⟩ := h.exists_entry (isActive_iff.1 hr)
      rw [hnone] at hroot
      cases hroot
    · have hmem := h.kept hv hactive
      rw [hnone] at hmem
      cases hmem

/-! ### Runs -/

theorem frames_map {α β : Type} {m : Lifecycle α} {edited : List OwnerId} (f : α → β)
    (h : Frames m edited σ) : Frames (f <$> m) edited σ := by
  rw [map_eq_pure_bind, Frames, wp_bind]
  exact h

/-- The owner that a call takes from its parent's list. -/
def Call.edited : Call → List OwnerId
  | .moveValue o => [o]
  | .dropValue o => [o]
  | _ => []

/-- **One call.** -/
theorem frames_step (h : Sound σ) (call : Call) : Frames (step call) call.edited σ := by
  cases call with
  | enterScope => exact frames_map _ (frames_enterScope h)
  | defer action => exact frames_map _ (frames_defer h action)
  | allocate layout copyable => exact frames_map _ (frames_allocateWithSource h layout copyable none)
  | allocateWithSource layout copyable source =>
    exact frames_map _ (frames_allocateWithSource h layout copyable source)
  | resize o layout => exact frames_map _ (frames_resize h o layout)
  | write o offset bytes => exact frames_map _ (frames_write h o offset bytes)
  | read o offset length => exact frames_map _ (frames_read h o offset length)
  | copyValue o => exact frames_map _ (frames_copyValue h o)
  | cloneValue o => exact frames_map _ (frames_cloneValue h o)
  | moveValue o =>
    refine frames_map _ (wp_mono (wp_moveValue h o) (fun _ _ _ hd => hd.1) (fun _ _ _ hf => ?_))
    exact ⟨hf.1, hf.2.1⟩
  | attachChild parent child => exact frames_map _ (frames_attachChild h parent child)
  | borrow o mode => exact frames_map _ (frames_borrow h o mode)
  | endBorrow id => exact frames_map _ (frames_endBorrow h id)
  | dropValue o => exact frames_map _ (frames_dropValue h o)
  | openResource capability source => exact frames_map _ (frames_openResource h capability source)
  | moveResource id => exact frames_map _ (frames_moveResource h id)
  | useResource id => exact frames_map _ (frames_useResource h id)
  | closeResource id => exact frames_map _ (frames_closeResource h id)
  | dropResource id => exact frames_map _ (frames_dropResource h id)
  | exitScope reason => exact frames_map _ (frames_exitScope h reason)
  | outstandingCleanupObligations | inspect => exact Follows.refl h

theorem sound_new (limit : Nat) : Sound (new limit) where
  consistent := inv_new limit
  alone b b' w w' hw := by simp [new] at hw
  filed := ⟨by simp [entries, new], by simp [new]⟩

/-- A call returned a value or an error of the source. -/
def Regular (result : Except Stop Response) : Prop :=
  (∃ response, result = .ok response) ∨ ∃ e, result = .error (.error e)

/-- **A sequence of calls.** -/
theorem run_sound (calls : List Call) : ∀ σ : LifecycleRuntime, Sound σ →
    (∀ result ∈ (run calls σ).1, Regular result) ∧ Sound (run calls σ).2 := by
  induction calls with
  | nil =>
    intro σ h
    exact ⟨by simp [run], h⟩
  | cons call calls ih =>
    intro σ h
    have hstep := frames_step h call
    have hfirst : Regular (exec (step call) σ).1 ∧ Sound (exec (step call) σ).2 := by
      unfold Frames wp at hstep
      cases hrun : exec (step call) σ with
      | mk result σ' =>
        rw [hrun] at hstep
        cases result with
        | ok response => exact ⟨.inl ⟨response, rfl⟩, hstep.sound⟩
        | error stop =>
          obtain ⟨⟨e, rfl⟩, hσ'⟩ := hstep
          exact ⟨.inr ⟨e, rfl⟩, hσ' ▸ h⟩
    obtain ⟨hresults, hfinal⟩ := ih _ hfirst.2
    refine ⟨?_, hfinal⟩
    intro result hmem
    rcases List.mem_cons.1 hmem with rfl | hmem
    · exact hfirst.1
    · exact hresults result hmem

/-- **The ownership guarantee.**  Whatever calls are made from a new runtime, each of them returns a
value or an error, without a panic, and the runtime reached keeps the ownership discipline. -/
theorem run_ownership (limit : Nat) (calls : List Call) : (∀ result ∈ (run calls (new limit)).1,
      (∀ message, result ≠ .error (.panic message)) ∧ result ≠ .error .exhausted) ∧
    Ownership (run calls (new limit)).2 := by
  obtain ⟨hresults, hfinal⟩ := run_sound calls _ (sound_new limit)
  refine ⟨fun result hmem => ?_, hfinal.consistent.ownership⟩
  rcases hresults result hmem with ⟨response, rfl⟩ | ⟨e, rfl⟩ <;> simp

end Axiomc.Runtime
