import Axiomc.Runtime.LifecycleGuarantees

/-!
# Failures, exits and borrows

What a call of a reachable runtime leaves as it was.

* `exitScope_exact`: a call that fails changes nothing; a scope is left unless a borrow keeps it open, and
  leaving it drops the owners of its aggregates, in order, closes its open resources, pops it and touches
  nothing else;
* `borrow_frozen_iff`: a borrow protects its owner from every call on the owner itself.  It protects the
  list of children from `attach_child` only: `move_value` and `drop_value` of a child check the borrows of
  the child and edit the list of the parent (`dropValue_strips_borrowed`).
-/

namespace Axiomc.Runtime

open Foundation Std Relation LifecycleRuntime List

variable {σ σ' : LifecycleRuntime} {o c x : OwnerId} {r : Owner}

theorem hasParent_eq : HasParent σ = Below σ.links := by
  funext c p
  exact propext hasParent_iff

/-! ### Exits -/

/-- What leaving a scope does. -/
structure Leaves (σ σ' : LifecycleRuntime) (scope : Scope) (gone : List OwnerId) : Prop where
  /-- The aggregates of the scope, the last registration first. -/
  order : gone = scope.entries.reverse.flatMap (·.owners σ)
  /-- Within an aggregate, the last child comes first and each child before its parent. -/
  nested : ∀ o r, IsActive σ o r → σ.aggregate o = r.children.reverse.flatMap σ.aggregate ++ [o]
  /-- Exactly the owners at or below an owner of the scope are dropped. -/
  exact : ∀ x, x ∈ gone ↔ ∃ o, .owner o ∈ scope.entries ∧ ReflTransGen (HasParent σ) x o
  /-- Each of them is dropped once. -/
  once : gone.Nodup
  /-- The log has the drops in this order. -/
  log : ∃ log, σ'.operations = σ.operations ++ log ∧
    log.filterMap LifecycleOperation.discharged = gone.map fun o => "discharges:" ++ toString o.raw
  /-- The scopes around it are as they were. -/
  scopes : σ'.scopes = σ.scopes.tail
  /-- The other owners are as they were. -/
  owners : ∀ x : OwnerId, σ'.owners[x]? = σ.owners[x]?.map fun q =>
    if x ∈ gone then { q with status := .dropped, parent := none } else q
  /-- So are the bytes of the active ones. -/
  held : ∀ x, x ∉ gone → Held σ σ' x
  /-- Exactly the open resources of the scope are closed. -/
  resources : ∀ id : ResourceId, σ'.resources[id]? = σ.resources[id]?.map fun v =>
    if .resource id ∈ scope.entries ∧ v.status = .active then { v with status := .closed } else v

theorem mem_aggregate (h : Consistent σ) (ho : σ.live o = some r) :
    x ∈ σ.aggregate o ↔ ReflTransGen (HasParent σ) x o := by
  have hsize := weight_le_size σ o
  rw [hasParent_eq]
  exact mem_cleanupOrder h.forest _ o r ho (by omega)

theorem aggregate_eq (h : Consistent σ) (ho : σ.live o = some r) :
    σ.aggregate o = r.children.reverse.flatMap σ.aggregate ++ [o] := by
  have hsize := weight_le_size σ o
  rw [aggregate, cleanupOrder_succ ho]
  congr 1
  refine flatMap_congr fun c hc => ?_
  have hc := mem_reverse.1 hc
  obtain ⟨q, hq, -⟩ := exists_live_child h.forest ho hc
  have hlt := weight_lt_of_mem h.forest ho hc
  exact cleanupOrder_congr h.forest _ _ c q hq (by omega) (by omega) fun _ _ => rfl

variable {outer : List Scope} {scope : Scope} {b : BorrowId} {w : Borrow} {α β : Type}

theorem live_of_entry (h : Consistent σ)
    (hscopes : σ.scopes = scope :: outer) (ho : .owner o ∈ scope.entries) : ∃ r, σ.live o = some r :=
  h.live_of_listed (by simp [entries, hscopes, ho])

theorem mem_gone (h : Consistent σ) (hscopes : σ.scopes = scope :: outer) :
    x ∈ scope.entries.reverse.flatMap (·.owners σ) ↔
      ∃ o, .owner o ∈ scope.entries ∧ ReflTransGen (HasParent σ) x o := by
  rw [mem_flatMap]
  constructor
  · rintro ⟨entry, hentry, hx⟩
    have hentry := mem_reverse.1 hentry
    cases entry with
    | resource id => cases hx
    | owner o =>
      obtain ⟨r, hr⟩ := live_of_entry h hscopes hentry
      exact ⟨o, hentry, (mem_aggregate h hr).1 hx⟩
  · rintro ⟨o, ho, hpath⟩
    obtain ⟨r, hr⟩ := live_of_entry h hscopes ho
    exact ⟨.owner o, mem_reverse.2 ho, (mem_aggregate h hr).2 hpath⟩

/-- An owner at or below an owner of the scope has no entry in the scopes around it. -/
theorem not_mem_outer (h : Consistent σ) (hscopes : σ.scopes = scope :: outer)
    (ho : .owner o ∈ scope.entries) (hpath : ReflTransGen (HasParent σ) x o) :
    .owner x ∉ outer.flatMap (·.entries) := by
  intro hx
  have hentries : σ.entries = scope.entries ++ outer.flatMap (·.entries) := by
    simp [entries, hscopes]
  obtain ⟨r, hr⟩ := h.live_of_listed (o := x) (by simp [hentries, hx])
  have hplaced := h.placed hr
  have hinner := count_pos_iff.2 hx
  rw [append_nil, hentries, count_append] at hplaced
  rcases hpath.cases_head with rfl | ⟨p, hparent, -⟩
  · -- an owner of the scope itself: it would have two entries
    have houter := count_pos_iff.2 ho
    omega
  · obtain ⟨q, hq, hup⟩ := hparent
    rw [isActive_iff, hr] at hq
    cases hq
    rw [if_pos (by rw [hup]; rfl)] at hplaced
    omega

theorem Discharges.leaves (h : Consistent σ) (hscopes : σ.scopes = scope :: outer)
    (hdone : Discharges { σ with scopes := outer } σ' (scope.entries.reverse.flatMap (·.owners σ))
      (scope.entries.reverse.flatMap (·.resources))) :
    Leaves σ σ' scope (scope.entries.reverse.flatMap (·.owners σ)) where
  order := rfl
  nested o r ho := aggregate_eq h (isActive_iff.1 ho)
  exact x := mem_gone h hscopes
  once := hdone.nodup
  log := hdone.log
  scopes := by
    rw [hdone.scopes, hscopes, tail_cons]
    refine (map_congr_left fun s hs => Scope.without_eq_self fun x hx hmem => ?_).trans (map_id _)
    obtain ⟨o, ho, hpath⟩ := (mem_gone h hscopes).1 hx
    exact not_mem_outer h hscopes ho hpath (mem_flatMap.2 ⟨s, hs, hmem⟩)
  owners := hdone.owners
  held x hx := hdone.held h.exclusive hx
  resources id := by
    have hmem : id ∈ scope.entries.reverse.flatMap (·.resources) ↔ .resource id ∈ scope.entries := by
      rw [mem_flatMap]
      constructor
      · rintro ⟨entry, hentry, hid⟩
        cases entry with
        | owner o => cases hid
        | resource id' =>
          rw [mem_singleton.1 hid]
          exact mem_reverse.1 hentry
      · exact fun hid => ⟨_, mem_reverse.2 hid, mem_singleton.2 rfl⟩
    simpa only [hmem] using hdone.resources id

/-- **Failures and exits.**  In every reachable runtime a call that fails changes nothing.  Leaving a
scope fails only without a scope, or when an owner at or below an owner of the innermost scope is
borrowed; otherwise it cleans up exactly that scope. -/
theorem exitScope_exact (limit : Nat) (calls : List Call) (reason : ExitReason) :
    let σ := (run calls (new limit)).2
    let left := exec (exitScope reason) σ
    (∀ call stop, (exec (step call) σ).1 = .error stop → (exec (step call) σ).2 = σ) ∧
      (∀ stop, left.1 = .error stop → σ.scopes = [] ∨ ∃ scope outer o x r,
        σ.scopes = scope :: outer ∧ .owner o ∈ scope.entries ∧ ReflTransGen (HasParent σ) x o ∧
          IsActive σ x r ∧ r.borrows.isEmpty = false) ∧
      (left.1 = .ok () → ∃ scope outer gone, σ.scopes = scope :: outer ∧ Leaves σ left.2 scope gone) := by
  intro σ left
  have h : Sound σ := (run_sound calls _ (sound_new limit)).2
  have hexit := wp_exitScope h.consistent h.filed reason
  refine ⟨fun call stop hstop => ?_, fun stop hstop => ?_, fun hok => ?_⟩
  · exact (wp_error (frames_step h call) (Prod.ext hstop rfl)).2
  · obtain ⟨-, -, hnot⟩ := wp_error hexit (Prod.ext hstop rfl)
    cases hscopes : σ.scopes with
    | nil => exact .inl rfl
    | cons scope outer =>
      have hborrowed := hnot scope outer hscopes
      simp only [EntriesBorrowFree, BorrowFree, not_forall, exists_prop, Bool.not_eq_true] at hborrowed
      obtain ⟨o, ho, x, r, hpath, hr, hempty⟩ := hborrowed
      refine .inr ⟨scope, outer, o, x, r, rfl, ho, ?_, isActive_iff.2 hr, hempty⟩
      rw [hasParent_eq]
      exact hpath
  · obtain ⟨-, scope, outer, hscopes, -, hdone⟩ := wp_ok hexit (Prod.ext hok rfl)
    exact ⟨scope, outer, _, hscopes, hdone.leaves h.consistent hscopes⟩

/-! ### Borrows -/

/-- The call asks for a change of the owner itself. -/
def Call.touches (o : OwnerId) : Call → Prop
  | .resize x _ => x = o
  | .write x _ _ => x = o
  | .moveValue x => x = o
  | .dropValue x => x = o
  | _ => False

/-- The call takes a child from the list of the owner: it moves a child that is not borrowed, or drops a
child with nothing borrowed at or below it. -/
def Call.strips (σ : LifecycleRuntime) (o : OwnerId) : Call → Prop
  | .moveValue c => HasChild σ o c ∧ ∀ q, IsActive σ c q → q.borrows.isEmpty = true
  | .dropValue c => HasChild σ o c ∧
    ∀ x q, ReflTransGen (HasParent σ) x c → IsActive σ x q → q.borrows.isEmpty = true
  | _ => False

/-- The call is refused if it asks for a change of the owner, and leaves the owner as it was. -/
def Frozen (σ : LifecycleRuntime) (call : Call) (o : OwnerId) : Prop :=
  (call.touches o → ∃ stop, (exec (step call) σ).1 = .error stop) ∧ Held σ (exec (step call) σ).2 o

theorem borrowed_of_open (h : Consistent σ) (hw : σ.borrows[b]? = some w) : Borrowed σ w.owner := by
  obtain ⟨r, hr, hb⟩ := h.borrowed hw
  refine ⟨r, hr, ?_⟩
  rw [Bool.eq_false_iff]
  exact fun hempty => absurd hb (by simpa using TreeSet.isEmpty_iff_forall_not_mem.1 hempty b)

theorem Borrowed.not_empty (h : Borrowed σ o) (hr : σ.live o = some r) : r.borrows.isEmpty = false := by
  obtain ⟨q, hq, hborrowed⟩ := h
  rw [hr] at hq
  cases hq
  exact hborrowed

/-- What a call that checks the borrows of its owner first does with a borrowed one. -/
theorem error_of_requireNoBorrows (ho : Borrowed σ o) (rest : Lifecycle α) :
    ∃ stop, (exec (do requireActiveOwner o; requireNoBorrows o; rest) σ).1 = .error stop := by
  have hwp : wp (do requireActiveOwner o; requireNoBorrows o; rest) (fun _ _ => False)
      (Fails fun _ => True) σ := by
    simp only [wp_bind]
    refine wp_requireActiveOwner trivial fun r hr => wp_requireNoBorrows trivial hr fun hempty => ?_
    rw [ho.not_empty hr] at hempty
    cases hempty
  cases hrun : exec (do requireActiveOwner o; requireNoBorrows o; rest) σ with
  | mk result σ' =>
    cases result with
    | error stop => exact ⟨stop, rfl⟩
    | ok value => exact (wp_ok hwp hrun).elim

theorem error_map {m : Lifecycle α} (f : α → β)
    (h : ∃ stop, (exec m σ).1 = .error stop) : ∃ stop, (exec (f <$> m) σ).1 = .error stop := by
  obtain ⟨stop, hstop⟩ := h
  rw [map_eq_pure_bind, exec_bind]
  cases hrun : exec m σ with
  | mk result σ' =>
    rw [hrun] at hstop
    cases hstop
    exact ⟨stop, rfl⟩

theorem touches_refused (h : Sound σ) (ho : Borrowed σ o) (call : Call) (htouches : call.touches o) :
    ∃ stop, (exec (step call) σ).1 = .error stop := by
  cases call with
  | resize x layout | write x offset bytes | moveValue x =>
    cases htouches
    exact error_map _ (error_of_requireNoBorrows ho _)
  | dropValue x =>
    cases htouches
    refine error_map _ ?_
    cases hrun : exec (dropValue o) σ with
    | mk result σ' =>
      cases result with
      | error stop => exact ⟨stop, rfl⟩
      | ok value =>
        obtain ⟨-, r, hr, hfree, -⟩ := wp_ok (wp_dropValue h.consistent o) hrun
        have hempty := ho.not_empty hr
        rw [hfree o r .refl hr] at hempty
        cases hempty
  | _ => exact htouches.elim

/-- The result of a call is the result of its method. -/
theorem exec_map_snd (m : Lifecycle α) (f : α → β) (σ : LifecycleRuntime) :
    (exec (f <$> m) σ).2 = (exec m σ).2 := by
  rw [map_eq_pure_bind, exec_bind]
  cases hrun : exec m σ with
  | mk result σ' => cases result <;> rfl

theorem not_held_of_strips (h : Sound σ) (call : Call) (hstrips : call.strips σ o) :
    ¬ Held σ (exec (step call) σ).2 o := by
  intro hheld
  cases call with
  | moveValue c =>
    obtain ⟨⟨r, hr, hc⟩, hempty⟩ := hstrips
    have hr := isActive_iff.1 hr
    obtain ⟨q, hq, hbelow⟩ := exists_live_child h.consistent.forest hr hc
    have hoc : o ≠ c := by
      obtain ⟨n, hn, hparent⟩ := hbelow
      exact (h.consistent.forest.parent_ne hn hparent).symm
    rw [step, exec_map_snd] at hheld
    obtain ⟨r', hr', -, hchildren, -⟩ := hheld r hr
    cases hrun : exec (moveValue c) σ with
    | mk result σ' =>
      rw [hrun] at hr'
      cases result with
      | error stop =>
        obtain ⟨-, -, hnot⟩ := wp_error (wp_moveValue h c) hrun
        exact hnot ⟨q, hq, hempty q (isActive_iff.2 hq)⟩
      | ok t =>
        obtain ⟨-, q', hq', -, hnew, howners⟩ := wp_ok (wp_moveValue h c) hrun
        have hot : o ≠ t := ne_of_live hr hnew
        have hct : c ≠ t := ne_of_live hq hnew
        rw [live_moved h.consistent.forest hq' hnew howners, if_neg hot, if_neg hoc, hr] at hr'
        cases hr'
        rw [← hchildren] at hc
        simp [Owner.renamed, hchildren ▸ hc, hct] at hc
  | dropValue c =>
    obtain ⟨⟨r, hr, hc⟩, hempty⟩ := hstrips
    have hr := isActive_iff.1 hr
    obtain ⟨q, hq, n, hn, hparent⟩ := exists_live_child h.consistent.forest hr hc
    rw [step, exec_map_snd] at hheld
    obtain ⟨r', hr', -, hchildren, -⟩ := hheld r hr
    cases hrun : exec (dropValue c) σ with
    | mk result σ' =>
      rw [hrun] at hr'
      cases result with
      | error stop =>
        obtain ⟨-, -, hnot⟩ := wp_error (wp_dropValue h.consistent c) hrun
        refine hnot ⟨⟨q, hq⟩, fun x k hpath hk => hempty x k ?_ (isActive_iff.2 hk)⟩
        rw [hasParent_eq]
        exact hpath
      | ok value =>
        obtain ⟨-, q', hq', -, hdropped⟩ := wp_ok (wp_dropValue h.consistent c) hrun
        have hup := (mem_children_iff h.consistent.forest hr hq').1 hc
        have hunlinked := (hdropped.live_iff.1 hr').2
        rw [live_unlinked, hr, Option.map_some, Option.some.injEq] at hunlinked
        rw [← hchildren, ← hunlinked] at hc
        simp [hup] at hc
  | _ => exact hstrips

/-- **One call and a borrow.** -/
theorem frozen_iff (h : Sound σ) (ho : Borrowed σ o) (call : Call) :
    Frozen σ call o ↔ ¬ call.strips σ o := by
  refine ⟨fun hfrozen hstrips => not_held_of_strips h call hstrips hfrozen.2,
    fun hnot => ⟨touches_refused h ho call, ?_⟩⟩
  cases hrun : exec (step call) σ with
  | mk result σ' =>
    cases result with
    | error stop =>
      obtain ⟨-, rfl⟩ := wp_error (frames_step h call) hrun
      exact fun r hr => ⟨r, hr, rfl, rfl, rfl⟩
    | ok response =>
      refine (wp_ok (frames_step h call) hrun).held o ho fun r c hr hedited hc => hnot ?_
      -- a call that succeeds and edits the place of a child takes it from the list
      have hchild : HasChild σ o c := ⟨r, isActive_iff.2 hr, hc⟩
      cases call with
      | moveValue x =>
        rw [mem_singleton.1 hedited] at hchild
        refine ⟨hchild, fun q hq => ?_⟩
        rw [step, map_eq_pure_bind, exec_bind_eq_ok] at hrun
        obtain ⟨t, σ₁, hmove, -⟩ := hrun
        obtain ⟨-, q', hq', hempty, -⟩ := wp_ok (wp_moveValue h x) hmove
        rw [isActive_iff, hq'] at hq
        cases hq
        exact hempty
      | dropValue x =>
        rw [mem_singleton.1 hedited] at hchild
        refine ⟨hchild, fun y q hpath hq => ?_⟩
        rw [step, map_eq_pure_bind, exec_bind_eq_ok] at hrun
        obtain ⟨t, σ₁, hdrop, -⟩ := hrun
        obtain ⟨-, -, -, hfree, -⟩ := wp_ok (wp_dropValue h.consistent x) hdrop
        rw [hasParent_eq] at hpath
        exact hfree y q hpath (isActive_iff.1 hq)
      | _ => cases hedited

/-- Through the calls the borrow stays open, and none of them takes a child of its owner. -/
def Undisturbed (b : BorrowId) (w : Borrow) : List Call → LifecycleRuntime → Prop
  | [], _ => True
  | call :: calls, σ =>
    σ.borrows[b]? = some w ∧ ¬ call.strips σ w.owner ∧
      Undisturbed b w calls (exec (step call) σ).2

/-- **A run during a borrow.** -/
theorem run_held (calls : List Call) :
    ∀ σ : LifecycleRuntime, Sound σ → Undisturbed b w calls σ → Held σ (run calls σ).2 w.owner := by
  induction calls with
  | nil => exact fun σ _ _ r hr => ⟨r, hr, rfl, rfl, rfl⟩
  | cons call calls ih =>
    rintro σ h ⟨hopen, hnot, hrest⟩ r hr
    have hfrozen := (frozen_iff h (borrowed_of_open h.consistent hopen) call).2 hnot
    obtain ⟨r₁, hr₁, hallocation₁, hchildren₁, hbytes₁⟩ := hfrozen.2 r hr
    have hsound : Sound (exec (step call) σ).2 := (run_sound [call] σ h).2
    obtain ⟨r₂, hr₂, hallocation₂, hchildren₂, hbytes₂⟩ := ih _ hsound hrest r₁ hr₁
    rw [hallocation₁] at hbytes₂
    exact ⟨r₂, hr₂, hallocation₂.trans hallocation₁, hchildren₂.trans hchildren₁, hbytes₂.trans hbytes₁⟩

/-- A child of a borrowed owner is dropped, and the list of the owner changes. -/
theorem dropValue_strips_borrowed :
    let σ := (run [.enterScope, .allocate 1 false, .allocate 1 false, .attachChild ⟨2⟩ ⟨4⟩,
      .borrow ⟨2⟩ .shared] (new 8)).2
    let dropped := exec (step (.dropValue ⟨4⟩)) σ
    σ.borrows[(⟨5⟩ : BorrowId)]?.map (·.owner) = some ⟨2⟩ ∧
      σ.owners[(⟨2⟩ : OwnerId)]?.map (·.children) = some [⟨4⟩] ∧ dropped.1.isOk = true ∧
      dropped.2.borrows[(⟨5⟩ : BorrowId)]?.map (·.owner) = some ⟨2⟩ ∧
      dropped.2.owners[(⟨2⟩ : OwnerId)]?.map (·.children) = some [] := by
  decide +kernel

/-- **A borrow and its aggregate.**  In every reachable runtime a mutable borrow is the only borrow of its
owner.  While a borrow is open, a call is refused if it asks for a change of the owner, and leaves the
owner with its bytes and its children, exactly when it does not move or drop one of the children; so does
every run of such calls. -/
theorem borrow_frozen_iff (limit : Nat) (calls : List Call) :
    let σ := (run calls (new limit)).2
    Alone σ ∧
      (∀ call (b : BorrowId) (w : Borrow), σ.borrows[b]? = some w →
        (Frozen σ call w.owner ↔ ¬ call.strips σ w.owner)) ∧
      ∀ (b : BorrowId) (w : Borrow) during, Undisturbed b w during σ →
        Held σ (run during σ).2 w.owner := by
  intro σ
  have h : Sound σ := (run_sound calls _ (sound_new limit)).2
  exact ⟨h.alone, fun call b w hw => frozen_iff h (borrowed_of_open h.consistent hw) call,
    fun b w during hduring => run_held during σ h hduring⟩

end Axiomc.Runtime
