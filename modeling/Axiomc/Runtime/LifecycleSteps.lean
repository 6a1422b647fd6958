import Axiomc.Runtime.LifecycleCleanup

/-!
# The other calls keep the invariant

One lemma for each way a call changes the tables: a new value (`Inv.create`), new bytes
(`Inv.setBytes`), a new token for a value (`Inv.move`), an attachment (`Inv.attach`) and a changed
set of borrows (`Inv.reborrow`); the calls on scopes and resources are regroupings.  From them, each
call keeps the runtime sound (`Sound`), and it never panics.  A call that fails changes nothing.  A call
that succeeds leaves a borrowed owner as it was (`Held`), unless it edits one of the owner's children;
the calls that can do so name the child (`Frames`).
-/

namespace Axiomc.Runtime

open Foundation Std Relation LifecycleRuntime List Nat

variable {σ σ' : LifecycleRuntime} {pending : List ScopeEntry}
  {released : List (OwnerId × Nat)} {o p c x : OwnerId} {r : Owner}
  {E : Stop → LifecycleRuntime → Prop}

/-! ### What a call leaves as it was -/

/-- The owner is active and borrowed. -/
def Borrowed (σ : LifecycleRuntime) (o : OwnerId) : Prop :=
  ∃ r, σ.live o = some r ∧ r.borrows.isEmpty = false

/-- The owner is still active, with the same storage, the same bytes and the same children. -/
def Held (σ σ' : LifecycleRuntime) (o : OwnerId) : Prop :=
  ∀ r, σ.live o = some r → ∃ r', σ'.live o = some r' ∧ r'.allocation = r.allocation ∧
    r'.children = r.children ∧ σ'.allocations[r.allocation]? = σ.allocations[r.allocation]?

/-- A mutable borrow is the only borrow of its owner. -/
def Alone (σ : LifecycleRuntime) : Prop :=
  ∀ (b b' : BorrowId) (w w' : Borrow), σ.borrows[b]? = some w → σ.borrows[b']? = some w' →
    w.owner = w'.owner → w.mode = .mutable → b = b'

/-- A runtime between two calls. -/
structure Sound (σ : LifecycleRuntime) : Prop where
  consistent : Consistent σ
  alone : Alone σ
  filed : Filed σ

/-- A step keeps the runtime sound and leaves the borrowed owners as they were, except those with a
child among `edited`. -/
structure Follows (edited : List OwnerId) (σ σ' : LifecycleRuntime) : Prop where
  sound : Sound σ'
  held : ∀ o, Borrowed σ o → (∀ r c, σ.live o = some r → c ∈ edited → c ∉ r.children) → Held σ σ' o

/-- What every call guarantees, with the owners whose place it may change. -/
abbrev Frames {α : Type} (call : Lifecycle α) (edited : List OwnerId) (σ : LifecycleRuntime) : Prop :=
  wp call (fun _ => Follows edited σ) (Fails (· = σ)) σ

variable {edited : List OwnerId}

/-- A call that leaves the owners and their storage alone. -/
theorem Follows.quiet (h : Sound σ) (hconsistent : Consistent σ') (howners : σ'.owners = σ.owners)
    (hallocations : σ'.allocations = σ.allocations) (hborrows : σ'.borrows = σ.borrows)
    (hfiled : Filed σ') : Follows edited σ σ' where
  sound := ⟨hconsistent, by rw [Alone, hborrows]; exact h.alone, hfiled⟩
  held o _ _ r hr := ⟨r, by rw [live, howners]; exact hr, rfl, rfl, by rw [hallocations]⟩

theorem Filed.of_entries (h : Filed σ) (hnext : σ.nextId ≤ σ'.nextId)
    (hresources : σ'.resources = σ.resources)
    (hentries : ∀ id, .resource id ∈ σ'.entries → .resource id ∈ σ.entries) : Filed σ' where
  listed id hid := by
    rw [hresources]
    exact h.listed id (hentries id hid)
  fresh hv := by
    rw [hresources] at hv
    exact (h.fresh hv).trans_le hnext

/-- A call on owners. -/
theorem Follows.of_held (h : Sound σ) (hconsistent : Consistent σ') (hborrows : σ'.borrows = σ.borrows)
    (hnext : σ.nextId ≤ σ'.nextId) (hresources : σ'.resources = σ.resources)
    (hentries : ∀ id, .resource id ∈ σ'.entries → .resource id ∈ σ.entries)
    (hheld : ∀ o, Borrowed σ o → (∀ r c, σ.live o = some r → c ∈ edited → c ∉ r.children) →
      Held σ σ' o) : Follows edited σ σ' where
  sound := ⟨hconsistent, by rw [Alone, hborrows]; exact h.alone,
    h.filed.of_entries hnext hresources hentries⟩
  held := hheld

/-- An owner without borrows is none of the borrowed ones. -/
theorem Borrowed.ne (h : Borrowed σ x) (ho : σ.live o = some r) (hempty : r.borrows.isEmpty = true) :
    x ≠ o := by
  rintro rfl
  obtain ⟨q, hq, hborrowed⟩ := h
  rw [ho] at hq
  cases hq
  rw [hempty] at hborrowed
  cases hborrowed

/-! ### Checks -/

variable {I : LifecycleRuntime → Prop} {Q : Unit → LifecycleRuntime → Prop} {closed : List ResourceId}

theorem Inv.owner_unused (h : Consistent σ) (ho : σ.nextId ≤ o.raw) : σ.owners[o]? = none := by
  rw [Option.eq_none_iff_forall_ne_some]
  intro q hq
  exact absurd (h.owner_fresh hq) (Nat.not_lt.2 ho)

theorem Inv.not_listed (h : Consistent σ) (ho : σ.live o = none) : .owner o ∉ σ.entries := by
  intro hmem
  obtain ⟨r, hr⟩ := h.live_of_listed hmem
  exact ne_of_live hr ho rfl

theorem Inv.live_fresh (h : Consistent σ) (ho : σ.nextId ≤ o.raw) : σ.live o = none := by
  rw [live, h.owner_unused ho]
  rfl

/-- A logged call may take two numbers. -/
theorem Inv.drawn_log (h : Consistent σ) {n : Nat} (hn : n ≤ σ.nextId + 2) (op : LifecycleOperation) :
    n ≤ 2 * (σ.operations ++ [op]).length + 1 := by
  have := h.drawn
  simp only [length_append, length_singleton]
  omega

variable {α : Type} {e : LifecycleError}

theorem wp_fail {Q : α → LifecycleRuntime → Prop} (h : I σ) : wp (fail e : Lifecycle α) Q (Fails I) σ :=
  ⟨⟨e, rfl⟩, h⟩

theorem wp_requireActiveOwner (hI : I σ) (hok : ∀ r, σ.live o = some r → Q () σ) :
    wp (requireActiveOwner o) Q (Fails I) σ := by
  simp only [requireActiveOwner, owner, wp_bind, wp_get]
  cases hlookup : σ.owners[o]? with
  | none => exact wp_fail hI
  | some r =>
    simp only [wp_pure]
    cases hstatus : r.status with
    | active => exact hok r (live_eq_some.2 ⟨hlookup, hstatus⟩)
    | moved | dropped => exact wp_fail hI

theorem wp_requireNoBorrows
    (hI : I σ) (ho : σ.live o = some r) (hok : r.borrows.isEmpty = true → Q () σ) :
    wp (requireNoBorrows o) Q (Fails I) σ := by
  simp only [requireNoBorrows, wp_bind, wp_owner (live_eq_some.1 ho).1]
  cases hempty : r.borrows.isEmpty with
  | true => exact hok hempty
  | false => exact wp_fail hI

theorem wp_ensureCapacity {requested : Nat} (hI : I σ) (hok : Q () σ) :
    wp (ensureCapacity requested) Q (Fails I) σ := by
  simp only [ensureCapacity, wp_bind, wp_get]
  split
  · exact wp_fail hI
  · exact hok

theorem wp_requireScope (hI : I σ) (hok : ∀ scope outer, σ.scopes = scope :: outer → Q () σ) :
    wp requireScope Q (Fails I) σ := by
  simp only [requireScope, wp_bind, wp_get]
  cases hscopes : σ.scopes with
  | nil => exact wp_fail hI
  | cons scope outer => exact hok scope outer hscopes

variable {a : Nat} {y : Allocation} {f : TreeSet BorrowId → TreeSet BorrowId} {gone : List OwnerId}

theorem wp_storage {Q : Allocation → LifecycleRuntime → Prop}
    {message : String} (h : σ.allocations[a]? = some y) : wp (storage a message) Q E σ ↔ Q y σ := by
  simp [storage, expect, h]

/-! ### Scopes -/

/-- Scopes that hold the same entries in another grouping. -/
theorem Follows.regroup (h : Sound σ) {scopes : List Scope}
    (hentries : scopes.flatMap (·.entries) = σ.entries) : Follows [] σ { σ with scopes := scopes } := by
  refine Follows.quiet h ?_ rfl rfl rfl (h.filed.of_entries le_rfl rfl fun _ hid => hentries ▸ hid)
  exact h.consistent.regroup le_rfl h.consistent.drawn (fun _ => by rw [hentries])
    (fun _ ho => hentries ▸ ho) (fun _ ho => nomatch ho)
    (fun _ _ hv ha => by rw [hentries]; exact h.consistent.kept hv ha)

theorem frames_enterScope (h : Sound σ) : Frames enterScope [] σ :=
  Follows.regroup h rfl

theorem frames_defer (h : Sound σ) (action : String) : Frames (defer action) [] σ := by
  simp only [defer, wp_bind, wp_get]
  cases hscopes : σ.scopes with
  | nil => exact wp_fail rfl
  | cons scope outer => exact Follows.regroup h (by simp [entries, hscopes])

/-! ### Values -/

theorem live_created (hactive : r.status = .active) (howners : σ'.owners = σ.owners.insert o r)
    (x : OwnerId) : σ'.live x = if x = o then some r else σ.live x := by
  simp only [live, howners, getElem?_insert_cmp]
  by_cases hx : x = o
  · simp [hx, hactive]
  · simp [hx, Ne.symm hx]

section

variable (hlive : ∀ x, σ'.live x = if x = o then some r else σ.live x)
include hlive

theorem created_cases {q : Owner} (hq : σ'.live x = some q) :
    (x = o ∧ q = r) ∨ (x ≠ o ∧ σ.live x = some q) := by
  rw [hlive] at hq
  split at hq
  · next hx => exact .inl ⟨hx, (Option.some.inj hq).symm⟩
  · next hx => exact .inr ⟨hx, hq⟩

theorem created_of_live {q : Owner} (hnew : σ.live o = none) (hq : σ.live x = some q) :
    σ'.live x = some q := by
  rw [hlive, if_neg (ne_of_live hq hnew), hq]

theorem links_created (hroot : r.parent = none) (hleaf : r.children = []) :
    σ'.links = addRootTable σ.links o := by
  funext x
  simp only [links, addRootTable, hlive]
  split
  · simp [Owner.links, hroot, hleaf]
  · rfl

/-- The new owner has the new entry, the others keep theirs. -/
theorem Inv.placed_created {q : Owner} (h : Consistent σ) (hnew : σ.live o = none)
    (hroot : r.parent = none) (hentries : σ'.entries.Perm (.owner o :: σ.entries))
    (hq : σ'.live x = some q) :
    σ'.entries.count (.owner x) + (if q.parent.isSome then 1 else 0) = 1 := by
  rw [hentries.count_eq]
  rcases created_cases hlive hq with ⟨rfl, rfl⟩ | ⟨hne, hq⟩
  · simp [count_eq_zero.2 (h.not_listed hnew), hroot]
  · rw [count_cons_of_ne (by simpa using hne.symm)]
    exact h.placed_now hq

/-- Fresh storage is shared with no other owner. -/
theorem Inv.exclusive_created {x' : OwnerId} {q q' : Owner} (h : Consistent σ)
    (hfresh : σ.nextId ≤ r.allocation) (hq : σ'.live x = some q) (hq' : σ'.live x' = some q')
    (heq : q.allocation = q'.allocation) : x = x' := by
  have hdistinct : ∀ {x q}, σ.live x = some q → q.allocation ≠ r.allocation := by
    intro x q hq
    obtain ⟨z, hz⟩ := h.stored hq
    have := h.allocation_fresh hz
    omega
  rcases created_cases hlive hq with ⟨rfl, rfl⟩ | ⟨-, hq⟩ <;>
    rcases created_cases hlive hq' with ⟨rfl, rfl⟩ | ⟨-, hq'⟩
  · rfl
  · exact absurd heq.symm (hdistinct hq')
  · exact absurd heq (hdistinct hq)
  · exact h.exclusive hq hq' heq

end

/-- **Creation.**  A fresh owner of fresh storage, with one entry in the scopes. -/
theorem Inv.create (h : Consistent σ) (hactive : r.status = .active)
    (hroot : r.parent = none) (hleaf : r.children = []) (ha : r.allocation = a)
    (hfresh : σ.nextId ≤ a ∧ a < σ'.nextId) (hfresh' : σ.nextId ≤ o.raw ∧ o.raw < σ'.nextId)
    (howners : σ'.owners = σ.owners.insert o r)
    (hallocations : σ'.allocations = σ.allocations.insert a y)
    (hborrows : σ'.borrows = σ.borrows) (hresources : σ'.resources = σ.resources)
    (hentries : σ'.entries.Perm (.owner o :: σ.entries))
    (hdrawn : σ'.nextId ≤ 2 * σ'.operations.length + 1) : Consistent σ' := by
  have hnew : σ.live o = none := h.live_fresh hfresh'.1
  have hlive := live_created hactive howners
  have hstored : ∀ {b z}, σ.allocations[b]? = some z → b ≠ a := by
    intro b z hz
    have := h.allocation_fresh hz
    omega
  exact
  { owner_fresh := by
      intro x q hq
      rw [howners, getElem?_insert_cmp] at hq
      split at hq
      · next hx =>
        subst hx
        exact hfresh'.2
      · have := h.owner_fresh hq
        omega
    allocation_fresh := by
      intro b z hz
      rw [hallocations, getElem?_insert_cmp] at hz
      split at hz
      · next hb => omega
      · have := h.allocation_fresh hz
        omega
    stored := by
      intro x q hq
      rcases created_cases hlive hq with ⟨rfl, rfl⟩ | ⟨-, hq⟩
      · exact ⟨y, by simp [hallocations, ha]⟩
      · obtain ⟨z, hz⟩ := h.stored hq
        exact ⟨z, by simp [hallocations, getElem?_insert_cmp, (hstored hz).symm, hz]⟩
    exclusive := h.exclusive_created hlive (ha ▸ hfresh.1)
    backed := by
      intro b z hz
      rw [hallocations, getElem?_insert_cmp] at hz
      split at hz
      · next hb => exact .inl ⟨o, r, by simp [hlive], ha.trans hb⟩
      · obtain ⟨x, q, hq, rfl⟩ := h.owner_of_stored hz
        exact .inl ⟨x, q, created_of_live hlive hnew hq, rfl⟩
    released_free := fun hmem => by cases hmem
    forest := by
      rw [links_created hlive hroot hleaf]
      refine h.forest.addRoot ?_
      rw [links, hnew]
      rfl
    placed := by
      intro x q hq
      rw [append_nil]
      exact h.placed_created hlive hnew hroot hentries hq
    listed := by
      intro x hx
      rcases mem_cons.1 (hentries.mem_iff.1 hx) with heq | hx
      · cases heq
        exact .inl ⟨r, by simp [hlive]⟩
      · obtain ⟨q, hq⟩ := h.live_of_listed hx
        exact .inl ⟨q, created_of_live hlive hnew hq⟩
    pending_live := fun hmem => by cases hmem
    borrowed := by
      intro b w hw
      rw [hborrows] at hw
      obtain ⟨q, hq, hb⟩ := h.borrowed hw
      exact ⟨q, created_of_live hlive hnew hq, hb⟩
    kept := by
      intro id v hv hactive
      rw [hresources] at hv
      rw [append_nil]
      exact hentries.mem_iff.2 (mem_cons_of_mem _ (h.listed_resource hv hactive))
    drawn := hdrawn }

section

variable (h : Sound σ) (layout : Nat) (copyable : Bool) (provenance : Option String)
include h

theorem wp_allocateWithSource : wp (allocateWithSource layout copyable provenance)
      (fun id σ' => Follows [] σ σ' ∧
        (∃ q y, σ'.owners[id]? = some q ∧ σ'.allocations[q.allocation]? = some y ∧
          y.bytes.length = layout ∧ σ.allocations[q.allocation]? = none) ∧
        ∀ {x : OwnerId} {q : Owner}, σ.owners[x]? = some q → σ'.owners[x]? = some q)
      (Fails (· = σ)) σ := by
  simp only [allocateWithSource, wp_bind]
  refine wp_requireScope rfl fun scope outer hscopes => wp_ensureCapacity rfl ?_
  simp only [freshId, wp_bind, wp_get, wp_modify, hscopes]
  have hnewOwner : σ.owners[(⟨σ.nextId + 1⟩ : OwnerId)]? = none :=
    h.consistent.owner_unused (le_succ _)
  have hnewStorage : σ.allocations[σ.nextId]? = none := by
    rw [Option.eq_none_iff_forall_ne_some]
    intro y hy
    exact absurd (h.consistent.allocation_fresh hy) (lt_irrefl _)
  refine ⟨Follows.of_held h ?_ rfl (le_add_right _ 2) rfl (fun id hid => ?_) fun o _ _ q hq => ?_,
    ⟨_, _, TreeMap.getElem?_insert_self, TreeMap.getElem?_insert_self, by simp, hnewStorage⟩,
    fun {x q} hx => getElem?_insert_of_new hnewOwner hx _⟩
  · refine h.consistent.create rfl rfl rfl rfl
      ⟨le_rfl, ?_⟩ ⟨le_succ _, ?_⟩ rfl rfl rfl rfl ?_ ?_
    · show σ.nextId < σ.nextId + 1 + 1
      omega
    · show σ.nextId + 1 < σ.nextId + 1 + 1
      omega
    · simp only [entries, hscopes, flatMap_cons, append_assoc]
      exact perm_middle
    · exact h.consistent.drawn_log le_rfl _
  · simpa [entries, hscopes] using hid
  · obtain ⟨hlookup, hactive⟩ := live_eq_some.1 hq
    obtain ⟨y, hy⟩ := h.consistent.stored hq
    refine ⟨q, live_eq_some.2 ⟨getElem?_insert_of_new hnewOwner hlookup _, hactive⟩, rfl, rfl, ?_⟩
    rw [hy]
    exact getElem?_insert_of_new hnewStorage hy _

theorem frames_allocateWithSource : Frames (allocateWithSource layout copyable provenance) [] σ :=
  wp_mono (wp_allocateWithSource h layout copyable provenance) (fun _ _ _ hd => hd.1)
    (fun _ _ _ hf => hf)

end

/-- New bytes for an allocation. -/
theorem Inv.setBytes (h : Consistent σ) (a : Nat) (bytes : List UInt8) : Consistent { σ with
      allocations := σ.allocations.modify a fun y => { y with bytes := bytes } } := by
  have hdomain : ∀ b : Nat,
      (∃ y, (σ.allocations.modify a fun y => { y with bytes := bytes })[b]? = some y) ↔ ∃ y, σ.allocations[b]? = some y := by
    intro b
    rw [getElem?_modify_eq_ite]
    cases σ.allocations[b]? <;> by_cases hb : a = b <;> simp [hb]
  exact
  { h with
    allocation_fresh := by
      intro b y hy
      obtain ⟨z, hz⟩ := (hdomain b).1 ⟨y, hy⟩
      exact h.allocation_fresh hz
    stored := fun hq => (hdomain _).2 (h.stored hq)
    backed := by
      intro b y hy
      obtain ⟨z, hz⟩ := (hdomain b).1 ⟨y, hy⟩
      exact h.backed hz }

/-- New bytes for an owner without borrows reach no borrowed owner. -/
theorem Follows.setBytes (h : Sound σ) (ho : σ.live o = some r) (hempty : r.borrows.isEmpty = true)
    (bytes : List UInt8) : Follows [] σ { σ with
      allocations := σ.allocations.modify r.allocation fun y => { y with bytes := bytes } } := by
  refine Follows.of_held h (h.consistent.setBytes _ _) rfl le_rfl rfl (fun _ hid => hid)
    fun x hx _ q hq => ⟨q, hq, rfl, rfl, ?_⟩
  have hne : r.allocation ≠ q.allocation :=
    fun heq => hx.ne ho hempty (h.consistent.exclusive ho hq heq).symm
  rw [getElem?_modify_eq_ite, if_neg hne]

theorem Follows.log (h : Follows edited σ σ') (operation : LifecycleOperation) :
    Follows edited σ { σ' with operations := σ'.operations ++ [operation] } where
  sound := ⟨h.sound.consistent.log _, h.sound.alone,
    h.sound.filed.of_entries le_rfl rfl fun _ hid => hid⟩
  held := h.held

theorem Follows.refl (h : Sound σ) : Follows edited σ σ :=
  .quiet h h.consistent rfl rfl rfl h.filed

section

variable (h : Sound σ) (o : OwnerId)
include h

theorem frames_resize (layout : Nat) : Frames (resize o layout) [] σ := by
  simp only [resize, wp_bind]
  refine wp_requireActiveOwner rfl fun r ho => wp_requireNoBorrows rfl ho fun hempty =>
    wp_ensureCapacity rfl ?_
  have hlookup := (live_eq_some.1 ho).1
  obtain ⟨y, hy⟩ := h.consistent.stored ho
  simp only [wp_owner hlookup, wp_storage hy, setBytes]
  exact (wp_owner (by exact hlookup)).2 ((Follows.setBytes h ho hempty _).log _)

theorem frames_write (offset : Nat) (bytes : List UInt8) : Frames (write o offset bytes) [] σ := by
  simp only [write, wp_bind]
  refine wp_requireActiveOwner rfl fun r ho => wp_requireNoBorrows rfl ho fun hempty => ?_
  obtain ⟨y, hy⟩ := h.consistent.stored ho
  simp only [wp_owner (live_eq_some.1 ho).1, wp_storage hy]
  split
  · exact wp_fail rfl
  · exact Follows.setBytes h ho hempty _

theorem frames_read (offset length : Nat) : Frames (read o offset length) [] σ := by
  simp only [read, wp_bind]
  refine wp_requireActiveOwner rfl fun r ho => ?_
  obtain ⟨y, hy⟩ := h.consistent.stored ho
  simp only [wp_owner (live_eq_some.1 ho).1, wp_storage hy]
  split
  · exact wp_fail rfl
  · exact Follows.refl h

theorem frames_copyValue : Frames (copyValue o) [] σ := by
  simp only [copyValue, wp_bind]
  refine wp_requireActiveOwner rfl fun r ho => ?_
  obtain ⟨y, hy⟩ := h.consistent.stored ho
  have hlookup := (live_eq_some.1 ho).1
  simp only [wp_owner hlookup, wp_storage hy]
  split
  · exact wp_fail rfl
  · simp only [wp_bind, wp_get, wp_owner hlookup]
    exact (Follows.refl h).log _

theorem frames_cloneValue : Frames (cloneValue o) [] σ := by
  simp only [cloneValue, wp_bind]
  refine wp_requireActiveOwner rfl fun r ho => wp_requireNoBorrows rfl ho fun _ => ?_
  obtain ⟨y, hy⟩ := h.consistent.stored ho
  have hlookup := (live_eq_some.1 ho).1
  simp only [wp_owner hlookup, wp_storage hy]
  refine wp_mono (wp_allocateWithSource h _ _ _) ?_ (fun _ _ _ hf => hf)
  rintro cloned σ₁ - ⟨h₁, ⟨q, z, hq, hz, hlength, hnew⟩, hkept⟩
  simp only [wp_owner hq, wp_storage hz]
  split
  · next hne => exact absurd hlength hne
  · simp only [wp_bind, setBytes]
    refine (wp_owner (by exact hkept hlookup)).2 (Follows.log ?_ _)
    -- the bytes go to the new storage
    refine ⟨⟨h₁.sound.consistent.setBytes _ _, h₁.sound.alone,
      h₁.sound.filed.of_entries le_rfl rfl fun _ hid => hid⟩, fun x hx hfree k hk => ?_⟩
    obtain ⟨k', hk', hallocation, hchildren, hbytes⟩ := h₁.held x hx hfree k hk
    refine ⟨k', hk', hallocation, hchildren, ?_⟩
    obtain ⟨z', hz'⟩ := h.consistent.stored hk
    have hne : q.allocation ≠ k.allocation := by
      intro heq
      rw [heq, hz'] at hnew
      cases hnew
    rw [getElem?_modify_eq_ite, if_neg hne, hbytes]

end

/-! ### Moves -/

/-- The record of another owner after `s` got the token `t`. -/
def Owner.renamed (s t : OwnerId) (r : Owner) : Owner :=
  { r with
    parent := if r.parent = some s then some t else r.parent
    children := if s ∈ r.children then r.children.filter (· ≠ s) ++ [t] else r.children }

/-- The owner table after the parent of `s` lists `t` in its place. -/
def relinkedOwners (owners : TreeMap OwnerId Owner) (s t : OwnerId) :
    Option OwnerId → TreeMap OwnerId Owner
  | some parent =>
    owners.modify parent fun q => { q with children := q.children.filter (· != s) ++ [t] }
  | none => owners

/-- The owner table after a move. -/
def movedOwners (owners : TreeMap OwnerId Owner) (s t : OwnerId) (r : Owner) :
    TreeMap OwnerId Owner :=
  let inserted := owners.insert t { r with status := .active, borrows := ∅ }
  (r.children.foldl (fun m child => m.modify child fun q => { q with parent := some t })
    (relinkedOwners inserted s t r.parent)).modify s fun q => { q with status := .moved }

variable {s t : OwnerId}

theorem getElem?_movedOwners (owners : TreeMap OwnerId Owner) {x : OwnerId}
    (hparent : r.parent ≠ some t) (hchild : t ∉ r.children) (hst : s ≠ t) :
    (movedOwners owners s t r)[x]? =
      if x = t then some { r with status := .active, borrows := ∅ }
      else owners[x]?.map fun q =>
        { q with
          status := if x = s then .moved else q.status
          parent := if x ∈ r.children then some t else q.parent
          children := if r.parent = some x then q.children.filter (· ≠ s) ++ [t]
            else q.children } := by
  have hset := getElem?_foldl_modify (f := fun q : Owner => { q with parent := some t })
    (fun _ => rfl) x r.children
  simp only [movedOwners, getElem?_modify_eq_ite, hset]
  by_cases hxt : x = t
  · subst hxt
    cases hp : r.parent with
    | none => simp [relinkedOwners, hst, hchild]
    | some parent =>
      have hpx : parent ≠ x := fun heq => hparent (heq ▸ hp)
      simp [relinkedOwners, hst, hchild, getElem?_modify_eq_ite, hpx]
  · cases hlookup : owners[x]? with
    | none =>
      cases r.parent <;> simp [relinkedOwners, getElem?_modify_eq_ite, getElem?_insert_cmp,
        hlookup, hxt, Ne.symm hxt]
    | some q =>
      cases q
      cases hp : r.parent <;> by_cases hx : x ∈ r.children <;> by_cases hxs : s = x <;>
        grind [relinkedOwners, getElem?_modify_eq_ite, getElem?_insert_cmp]

section Rename

variable {entries : List ScopeEntry} {s t e : ScopeEntry}

theorem count_rename_of_ne (hs : e ≠ s) (ht : e ≠ t) :
    (entries.map fun entry => if entry = s then t else entry).count e = entries.count e := by
  induction entries with
  | nil => rfl
  | cons entry entries ih =>
    grind

theorem count_rename_new (ht : t ∉ entries) :
    (entries.map fun entry => if entry = s then t else entry).count t = entries.count s := by
  induction entries with
  | nil => rfl
  | cons entry entries ih =>
    grind

end Rename

/-- A token that is not in use has no links. -/
theorem unused_token (hforest : IsForest σ.links) (hs : σ.live o = some r)
    (hnew : σ.live x = none) : r.parent ≠ some x ∧ x ∉ r.children := by
  constructor
  · intro hp
    obtain ⟨q, hq, -⟩ := exists_live_parent hforest hs hp
    exact ne_of_live hq hnew rfl
  · intro hc
    obtain ⟨q, hq, -⟩ := exists_live_child hforest hs hc
    exact ne_of_live hq hnew rfl

theorem live_moved (hforest : IsForest σ.links) (hs : σ.live s = some r)
    (hnew : σ.live t = none) (howners : σ'.owners = movedOwners σ.owners s t r) (x : OwnerId) :
    σ'.live x =
      if x = t then some { r with borrows := ∅ }
      else if x = s then none else (σ.live x).map (Owner.renamed s t) := by
  obtain ⟨hparent, hchild⟩ := unused_token hforest hs hnew
  have hst : s ≠ t := ne_of_live hs hnew
  have hactive : r.status = .active := (live_eq_some.1 hs).2
  have hlookup' := getElem?_movedOwners σ.owners (x := x) hparent hchild hst
  rw [← howners] at hlookup'
  by_cases hxt : x = t
  · rw [if_pos hxt] at hlookup' ⊢
    exact live_eq_some.2 ⟨by rw [hlookup', ← hactive], hactive⟩
  · rw [if_neg hxt] at hlookup' ⊢
    by_cases hxs : x = s
    · rw [if_pos hxs, live, hlookup']
      cases σ.owners[x]? <;> simp [hxs]
    · rw [if_neg hxs]
      cases hx : σ.live x with
      | none =>
        rw [live, Option.filter_eq_none_iff] at hx
        rw [Option.map_none, live, Option.filter_eq_none_iff]
        intro q hq
        rw [hlookup', Option.map_eq_some_iff] at hq
        obtain ⟨q', hq', rfl⟩ := hq
        simpa [hxs] using hx q' hq'
      | some q =>
        obtain ⟨hlookup, hstatus⟩ := live_eq_some.1 hx
        have hmem := mem_children_iff hforest hs hx
        have hlists := mem_children_iff hforest hx hs
        refine live_eq_some.2 ⟨?_, hstatus⟩
        rw [hlookup', hlookup]
        simp [Owner.renamed, hxs, hmem, hlists]

section

variable (hlive : ∀ x, σ'.live x =
    if x = t then some { r with borrows := ∅ }
    else if x = s then none else (σ.live x).map (Owner.renamed s t))
include hlive

theorem moved_cases {q : Owner} (hq : σ'.live x = some q) : (x = t ∧ q = { r with borrows := ∅ }) ∨
    (x ≠ t ∧ x ≠ s ∧ ∃ q', σ.live x = some q' ∧ q'.renamed s t = q) := by
  rw [hlive] at hq
  split at hq
  · next hx => exact .inl ⟨hx, (Option.some.inj hq).symm⟩
  · next hx =>
    split at hq
    · cases hq
    · next hxs => exact .inr ⟨hx, hxs, Option.map_eq_some_iff.1 hq⟩

theorem live_new : σ'.live t = some { r with borrows := ∅ } := by
  rw [hlive, if_pos rfl]

theorem moved_of_live {q : Owner} (hnew : σ.live t = none) (hxs : x ≠ s) (hq : σ.live x = some q) :
    σ'.live x = some (q.renamed s t) := by
  rw [hlive, if_neg (ne_of_live hq hnew), if_neg hxs, hq, Option.map_some]

variable (hs : σ.live s = some r)
include hs

theorem links_moved : σ'.links = renameTable σ.links s t := by
  funext x
  simp only [links, renameTable, hlive]
  split
  · rw [hs]
    rfl
  · split
    · rfl
    · rw [Option.map_map, Option.map_map]
      rfl

/-- The new token has the storage of the old one. -/
theorem Inv.exclusive_moved {x' : OwnerId} {q q' : Owner} (h : Consistent σ) (hq : σ'.live x = some q)
    (hq' : σ'.live x' = some q') (heq : q.allocation = q'.allocation) : x = x' := by
  rcases moved_cases hlive hq with ⟨rfl, rfl⟩ | ⟨-, hxs, k, hk, rfl⟩ <;>
    rcases moved_cases hlive hq' with ⟨rfl, rfl⟩ | ⟨-, hxs', k', hk', rfl⟩
  · rfl
  · exact absurd (h.exclusive hs hk' heq).symm hxs'
  · exact absurd (h.exclusive hk hs heq) hxs
  · exact h.exclusive hk hk' heq

variable (hnew : σ.live t = none)
  (hentries : σ'.entries = σ.entries.map fun entry => if entry = .owner s then .owner t else entry)
include hnew hentries

/-- The new token has the place of the old one. -/
theorem Inv.placed_moved {q : Owner} (h : Consistent σ) (hq : σ'.live x = some q) :
    σ'.entries.count (.owner x) + (if q.parent.isSome then 1 else 0) = 1 := by
  rw [hentries]
  rcases moved_cases hlive hq with ⟨rfl, rfl⟩ | ⟨hxt, hxs, q', hq', rfl⟩
  · rw [count_rename_new (h.not_listed hnew)]
    exact h.placed_now (r := r) hs
  · have hsome : (q'.renamed s t).parent.isSome = q'.parent.isSome := by
      simp only [Owner.renamed]
      split
      · next hp => rw [hp]; rfl
      · rfl
    rw [count_rename_of_ne (by simpa using hxs) (by simpa using hxt), hsome]
    exact h.placed_now hq'

omit hs in
theorem Inv.listed_moved (h : Consistent σ) (hx : .owner x ∈ σ'.entries) :
    ∃ q, σ'.live x = some q := by
  rw [hentries, mem_map] at hx
  obtain ⟨entry, hentry, heq⟩ := hx
  split at heq
  · cases heq
    exact ⟨_, live_new hlive⟩
  · next hne =>
    subst heq
    obtain ⟨q, hq⟩ := h.live_of_listed hentry
    exact ⟨_, moved_of_live hlive hnew (by rintro rfl; exact hne rfl) hq⟩

end

/-- **Moves.**  An unborrowed owner under a fresh token, in its old place. -/
theorem Inv.move (h : Consistent σ) (hs : σ.live s = some r)
    (hempty : r.borrows.isEmpty = true) (hfresh : σ.nextId ≤ t.raw ∧ t.raw < σ'.nextId)
    (howners : σ'.owners = movedOwners σ.owners s t r) (hallocations : σ'.allocations = σ.allocations)
    (hborrows : σ'.borrows = σ.borrows) (hresources : σ'.resources = σ.resources)
    (hentries : σ'.entries = σ.entries.map fun entry => if entry = .owner s then .owner t else entry)
    (hdrawn : σ'.nextId ≤ 2 * σ'.operations.length + 1) : Consistent σ' := by
  have hnew : σ.live t = none := h.live_fresh hfresh.1
  have hst : s ≠ t := ne_of_live hs hnew
  have hlive := live_moved h.forest hs hnew howners
  exact
  { owner_fresh := by
      intro x q hq
      have hnext : σ.nextId ≤ σ'.nextId := by omega
      obtain ⟨hparent, hchild⟩ := unused_token h.forest hs hnew
      rw [howners, getElem?_movedOwners σ.owners hparent hchild hst] at hq
      split at hq
      · next hx =>
        subst hx
        exact hfresh.2
      · obtain ⟨q', hq', -⟩ := Option.map_eq_some_iff.1 hq
        exact (h.owner_fresh hq').trans_le hnext
    allocation_fresh := by
      intro b z hz
      rw [hallocations] at hz
      have := h.allocation_fresh hz
      omega
    stored := by
      intro x q hq
      rw [hallocations]
      rcases moved_cases hlive hq with ⟨rfl, rfl⟩ | ⟨-, -, q', hq', rfl⟩
      · exact h.stored (r := r) hs
      · exact h.stored (r := q') hq'
    exclusive := h.exclusive_moved hlive hs
    backed := by
      intro b z hz
      rw [hallocations] at hz
      obtain ⟨x, q, hq, rfl⟩ := h.owner_of_stored hz
      by_cases hxs : x = s
      · subst hxs
        rw [hs] at hq
        cases hq
        exact .inl ⟨t, _, live_new hlive, rfl⟩
      · exact .inl ⟨x, _, moved_of_live hlive hnew hxs hq, rfl⟩
    released_free := fun hmem => by cases hmem
    forest := by
      rw [links_moved hlive hs]
      refine h.forest.rename ?_
      rw [links, hnew, Option.map_none]
    placed := by
      intro x q hq
      rw [append_nil]
      exact h.placed_moved hlive hs hnew hentries hq
    listed := fun hx => .inl (h.listed_moved hlive hnew hentries hx)
    pending_live := fun hmem => by cases hmem
    borrowed := by
      intro b w hw
      rw [hborrows] at hw
      obtain ⟨q, hq, hb⟩ := h.borrowed hw
      have hws : w.owner ≠ s := by
        rintro rfl
        rw [hs] at hq
        cases hq
        exact TreeSet.isEmpty_iff_forall_not_mem.1 hempty b hb
      exact ⟨_, moved_of_live hlive hnew hws hq, hb⟩
    kept := by
      intro id v hv hactive
      rw [hresources] at hv
      rw [append_nil, hentries, mem_map]
      exact ⟨_, h.listed_resource hv hactive, by simp⟩
    drawn := hdrawn }

theorem entries_renamed (scopes : List Scope) (s t : ScopeEntry) : (scopes.map fun scope : Scope =>
        { scope with entries := scope.entries.map fun entry => if entry = s then t else entry }).flatMap
      Scope.entries =
      (scopes.flatMap Scope.entries).map fun entry => if entry = s then t else entry := by
  rw [flatMap_map, map_flatMap]

theorem wp_relink {parent : Option OwnerId}
    (hparent : ∀ p, parent = some p → ∃ q, σ.owners[p]? = some q) : wp (relink s t parent) Q E σ ↔
      Q () { σ with owners := relinkedOwners σ.owners s t parent } := by
  cases parent with
  | none => exact Iff.rfl
  | some p =>
    obtain ⟨q, hq⟩ := hparent p rfl
    exact wp_updateOwner hq

/-- What a move does to the owners. -/
theorem wp_moveValue (h : Sound σ) (o : OwnerId) : wp (moveValue o)
      (fun t σ' => Follows [o] σ σ' ∧ ∃ r, σ.live o = some r ∧ r.borrows.isEmpty = true ∧
        σ.live t = none ∧ σ'.owners = movedOwners σ.owners o t r)
      (Fails fun σ' => σ' = σ ∧ ¬ ∃ r, σ.live o = some r ∧ r.borrows.isEmpty = true) σ := by
  simp only [moveValue, wp_bind]
  by_cases hcan : ∃ r, σ.live o = some r ∧ r.borrows.isEmpty = true
  swap
  · exact wp_requireActiveOwner ⟨rfl, hcan⟩ fun r ho =>
      wp_requireNoBorrows ⟨rfl, hcan⟩ ho fun hempty => absurd ⟨r, ho, hempty⟩ hcan
  obtain ⟨r, ho, hempty⟩ := hcan
  have hpass : ∀ {Q : Unit → LifecycleRuntime → Prop} {E : Stop → LifecycleRuntime → Prop}, Q () σ →
      wp (requireActiveOwner o) (fun _ => wp (requireNoBorrows o) Q E) E σ := by
    intro Q E hQ
    obtain ⟨hlookup, hactive⟩ := live_eq_some.1 ho
    simp [requireActiveOwner, requireNoBorrows, wp_owner hlookup, hactive, hempty, hQ]
  refine hpass ?_
  have hlookup := (live_eq_some.1 ho).1
  simp only [wp_owner hlookup, freshId, wp_bind, wp_get, wp_modify, wp_pure]
  generalize hstart : σ.owners.insert (⟨σ.nextId⟩ : OwnerId) _ = inserted
  have hknown : ∀ x : OwnerId, (∃ q, σ.owners[x]? = some q) → ∃ q, inserted[x]? = some q := by
    rintro x ⟨q, hq⟩
    rw [← hstart, getElem?_insert_cmp]
    split
    · exact ⟨_, rfl⟩
    · exact ⟨q, hq⟩
  have hparent : ∀ p, r.parent = some p → ∃ q, inserted[p]? = some q := by
    intro p hp
    obtain ⟨q, hq, -⟩ := exists_live_parent h.consistent.forest ho hp
    exact hknown p ⟨q, (live_eq_some.1 hq).1⟩
  have hchildren : ∀ c ∈ r.children, ∃ q, inserted[c]? = some q := by
    intro c hc
    obtain ⟨q, hq, -⟩ := exists_live_child h.consistent.forest ho hc
    exact hknown c ⟨q, (live_eq_some.1 hq).1⟩
  rw [wp_relink hparent]
  have hknown' : ∀ x : OwnerId, (∃ q, inserted[x]? = some q) →
      ∃ q, (relinkedOwners inserted o ⟨σ.nextId⟩ r.parent)[x]? = some q := by
    intro x hx
    cases r.parent with
    | none => exact hx
    | some p => exact exists_getElem?_modify hx _ _
  rw [wp_forEach_updateOwner r.children _ fun c hc => hknown' c (hchildren c hc)]
  obtain ⟨q, hq⟩ := exists_getElem?_foldl_modify (fun q : Owner => { q with parent := some ⟨σ.nextId⟩ })
    r.children _ (hknown' o (hknown o ⟨r, hlookup⟩))
  refine (wp_updateOwner (by exact hq)).2 ?_
  simp only [wp_record]
  have hnew : σ.live ⟨σ.nextId⟩ = none := h.consistent.live_fresh le_rfl
  refine ⟨?_, r, ho, hempty, hnew, by simp only [movedOwners, ← hstart]⟩
  generalize hσ' : mk _ _ _ _ _ _ _ _ = σ'
  have howners : σ'.owners = movedOwners σ.owners o ⟨σ.nextId⟩ r := by
    simp only [← hσ', movedOwners, ← hstart]
  have hentries : σ'.entries = σ.entries.map fun entry =>
      if entry = .owner o then .owner ⟨σ.nextId⟩ else entry := by
    rw [← hσ']
    exact entries_renamed σ.scopes _ _
  refine Follows.of_held h ?_ (by rw [← hσ']) ?_ (by rw [← hσ']) (fun id hid => ?_)
    fun x hx hfree q hq => ?_
  · refine Inv.move h.consistent ho hempty ⟨le_rfl, ?_⟩ howners (by rw [← hσ']) (by rw [← hσ'])
      (by rw [← hσ']) hentries ?_
    · rw [← hσ']
      exact lt_succ_self _
    · rw [← hσ']
      exact h.consistent.drawn_log (le_succ _) _
  · rw [← hσ']
    exact le_succ _
  · rw [hentries, mem_map] at hid
    obtain ⟨entry, hentry, heq⟩ := hid
    split at heq
    · cases heq
    · exact heq ▸ hentry
  · have hxt : x ≠ ⟨σ.nextId⟩ := ne_of_live hq hnew
    refine ⟨q.renamed o ⟨σ.nextId⟩, ?_, rfl, ?_, by rw [← hσ']⟩
    · rw [live_moved h.consistent.forest ho hnew howners, if_neg hxt, if_neg (hx.ne ho hempty), hq]
      rfl
    · exact if_neg (hfree q o hq mem_cons_self)

/-! ### Changed records -/

theorem live_update {change : OwnerId → Owner → Owner}
    (howners : ∀ x : OwnerId, σ'.owners[x]? = σ.owners[x]?.map (change x))
    (hstatus : ∀ x k, (change x k).status = k.status) (x : OwnerId) :
    σ'.live x = (σ.live x).map (change x) := by
  rw [live, live, howners]
  cases σ.owners[x]? with
  | none => rfl
  | some k => by_cases hk : k.status = .active <;> simp [Option.filter, hstatus]

/-- **Changed records.**  Every owner keeps its status and its storage; what is left to show is about the
links, the entries and the borrows. -/
theorem Inv.update (h : Consistent σ) (change : OwnerId → Owner → Owner)
    (hchange : ∀ x k, (change x k).status = k.status ∧ (change x k).allocation = k.allocation)
    (howners : ∀ x : OwnerId, σ'.owners[x]? = σ.owners[x]?.map (change x))
    (hnext : σ.nextId ≤ σ'.nextId) (hallocations : σ'.allocations = σ.allocations)
    (hresources : σ'.resources = σ.resources) (hforest : IsForest σ'.links)
    (hplaced : ∀ x k, σ.live x = some k →
      σ'.entries.count (.owner x) + (if (change x k).parent.isSome then 1 else 0) = 1)
    (hentries : ∀ x, .owner x ∈ σ'.entries → .owner x ∈ σ.entries)
    (hkept : ∀ id, .resource id ∈ σ.entries → .resource id ∈ σ'.entries)
    (hborrowed : ∀ b w, σ'.borrows[b]? = some w →
      ∃ k, σ.live w.owner = some k ∧ b ∈ (change w.owner k).borrows)
    (hdrawn : σ'.nextId ≤ 2 * σ'.operations.length + 1) : Consistent σ' := by
  have hlive := live_update howners fun x k => (hchange x k).1
  have hsame : ∀ {x k'}, σ'.live x = some k' →
      ∃ k, σ.live x = some k ∧ change x k = k' ∧ k'.allocation = k.allocation := by
    intro x k' hk'
    rw [hlive, Option.map_eq_some_iff] at hk'
    obtain ⟨k, hk, rfl⟩ := hk'
    exact ⟨k, hk, rfl, (hchange x k).2⟩
  have hkeeps : ∀ {x k}, σ.live x = some k → σ'.live x = some (change x k) := by
    intro x k hk
    rw [hlive, hk]
    rfl
  exact
  { owner_fresh := by
      intro x k hk
      rw [howners, Option.map_eq_some_iff] at hk
      obtain ⟨k', hk', -⟩ := hk
      exact (h.owner_fresh hk').trans_le hnext
    allocation_fresh := by
      intro b z hz
      rw [hallocations] at hz
      exact (h.allocation_fresh hz).trans_le hnext
    stored := by
      intro x k' hk'
      obtain ⟨k, hk, -, heq⟩ := hsame hk'
      rw [hallocations, heq]
      exact h.stored hk
    exclusive := by
      intro x x' k k' hk hk' heq
      obtain ⟨m, hm, -, hma⟩ := hsame hk
      obtain ⟨m', hm', -, hma'⟩ := hsame hk'
      exact h.exclusive hm hm' (hma.symm.trans (heq.trans hma'))
    backed := by
      intro b z hz
      rw [hallocations] at hz
      obtain ⟨x, k, hk, rfl⟩ := h.owner_of_stored hz
      exact .inl ⟨x, _, hkeeps hk, (hchange x k).2⟩
    released_free := fun hmem => by cases hmem
    forest := hforest
    placed := by
      intro x k' hk'
      obtain ⟨k, hk, rfl, -⟩ := hsame hk'
      rw [append_nil]
      exact hplaced x k hk
    listed := by
      intro x hx
      obtain ⟨k, hk⟩ := h.live_of_listed (hentries x hx)
      exact .inl ⟨_, hkeeps hk⟩
    pending_live := fun hmem => by cases hmem
    borrowed := by
      intro b w hw
      obtain ⟨k, hk, hb⟩ := hborrowed b w hw
      exact ⟨_, hkeeps hk, hb⟩
    kept := by
      intro id v hv hactive
      rw [hresources] at hv
      rw [append_nil]
      exact hkept id (h.listed_resource hv hactive)
    drawn := hdrawn }

/-! ### Attachments -/

/-- The record of an owner after `c` became the last child of `p`. -/
def Owner.attached (c p x : OwnerId) (k : Owner) : Owner :=
  if x = c then { k with parent := some p }
  else if x = p then { k with children := k.children ++ [c] } else k

/-- **Attachment.**  A root leaves its scope and becomes the last child of another owner. -/
theorem Inv.attach {q : Owner} (h : Consistent σ) (hc : σ.live c = some q) (hp : σ.live p = some r)
    (hroot : q.parent = none) (hne : c ≠ p) (hback : ¬ ReflTransGen (Below σ.links) p c)
    (hnext : σ'.nextId = σ.nextId)
    (howners : σ'.owners = (σ.owners.modify c fun k => { k with parent := some p }).modify p
      fun k => { k with children := k.children ++ [c] })
    (hallocations : σ'.allocations = σ.allocations)
    (hborrows : σ'.borrows = σ.borrows) (hresources : σ'.resources = σ.resources)
    (hentries : σ'.entries = σ.entries.filter (· != .owner c))
    (hdrawn : σ'.nextId ≤ 2 * σ'.operations.length + 1) : Consistent σ' := by
  have hlookup : ∀ x : OwnerId, σ'.owners[x]? = σ.owners[x]?.map (Owner.attached c p x) := by
    intro x
    rw [howners, getElem?_modify_eq_ite, getElem?_modify_eq_ite]
    by_cases hxc : x = c
    · subst hxc
      rw [if_neg hne.symm, if_pos rfl]
      exact Option.map_congr fun k _ => (if_pos rfl).symm
    · rw [if_neg (Ne.symm hxc)]
      by_cases hxp : x = p
      · subst hxp
        rw [if_pos rfl]
        exact Option.map_congr fun k _ => by rw [Owner.attached, if_neg hxc, if_pos rfl]
      · rw [if_neg (Ne.symm hxp)]
        cases σ.owners[x]? <;> simp [Owner.attached, hxc, hxp]
  have hchange : ∀ x k, (Owner.attached c p x k).status = k.status ∧
      (Owner.attached c p x k).allocation = k.allocation ∧
      (Owner.attached c p x k).borrows = k.borrows := by
    intro x k
    unfold Owner.attached
    split
    · exact ⟨rfl, rfl, rfl⟩
    · split <;> exact ⟨rfl, rfl, rfl⟩
  refine h.update (Owner.attached c p) (fun x k => ⟨(hchange x k).1, (hchange x k).2.1⟩) hlookup
    hnext.ge hallocations hresources ?_ (fun x k hk => ?_) (fun x hx => ?_) (fun id hid => ?_)
    (fun b w hw => ?_) hdrawn
  · have hlinks : σ'.links = attachTable σ.links c p := by
      funext x
      simp only [links, attachTable, live_update hlookup fun x k => (hchange x k).1]
      unfold Owner.attached
      split
      · next hx =>
        subst hx
        rw [hc]
        rfl
      · split
        · next hx =>
          subst hx
          rw [hp]
          rfl
        · rw [Option.map_map]
          rfl
    rw [hlinks]
    exact h.forest.attach (links_of_live hc) hroot (links_of_live hp) hne hback
  · rw [hentries]
    by_cases hxc : x = c
    · subst hxc
      have hnone : (σ.entries.filter (· != .owner x)).count (.owner x) = 0 := by
        rw [count_eq_zero, mem_filter]
        simp
      rw [hnone, Owner.attached, if_pos rfl]
      rfl
    · have hcount : (σ.entries.filter (· != .owner c)).count (.owner x) =
          σ.entries.count (.owner x) := count_filter (by simpa using hxc)
      have hparent : (Owner.attached c p x k).parent = k.parent := by
        rw [Owner.attached, if_neg hxc]
        split <;> rfl
      rw [hcount, hparent]
      exact h.placed_now hk
  · rw [hentries, mem_filter] at hx
    exact hx.1
  · rw [hentries, mem_filter]
    exact ⟨hid, by simp⟩
  · rw [hborrows] at hw
    obtain ⟨k, hk, hb⟩ := h.borrowed hw
    exact ⟨k, hk, (hchange w.owner k).2.2 ▸ hb⟩

theorem frames_attachChild (h : Sound σ) (parent child : OwnerId) :
    Frames (attachChild parent child) [] σ := by
  simp only [attachChild, wp_bind]
  refine wp_requireActiveOwner rfl fun r hp => wp_requireActiveOwner rfl fun q hc =>
    wp_requireNoBorrows rfl hp fun hpempty => wp_requireNoBorrows rfl hc fun hcempty => ?_
  have hclookup := (live_eq_some.1 hc).1
  have hplookup := (live_eq_some.1 hp).1
  rw [wp_owner hclookup]
  split
  · exact wp_fail rfl
  next hfree =>
  obtain ⟨hroot, hne⟩ := not_or.1 hfree
  have hroot : q.parent = none := by simpa using hroot
  simp only [wp_bind]
  refine wp_mono (wp_hasAncestor h.consistent.forest child hp) ?_ (fun _ _ _ hf => hf.elim)
  rintro found σ₀ - ⟨rfl, hfound⟩
  cases found with
  | true => exact wp_fail rfl
  | false =>
    simp only [Bool.false_eq_true, if_false, wp_bind, removeFromScopes]
    refine (wp_updateOwner (by exact hclookup)).2 ?_
    obtain ⟨k, hk⟩ := exists_getElem?_modify ⟨r, hplookup⟩ child
      fun k : Owner => { k with parent := some parent }
    refine (wp_updateOwner (by exact hk)).2 ?_
    obtain ⟨k', hk'⟩ := exists_getElem?_modify ⟨k, hk⟩ parent
      fun k : Owner => { k with children := k.children ++ [child] }
    refine (wp_owner (by exact hk')).2 ?_
    refine Follows.of_held h ?_ rfl le_rfl rfl (fun id hid => ?_)
      fun x hx _ k hk => ⟨k, ?_, rfl, rfl, rfl⟩
    · refine Inv.attach h.consistent hc hp hroot (Ne.symm hne) (hfound rfl) rfl rfl rfl rfl rfl
        (entries_removed σ₀.scopes child) ?_
      exact h.consistent.drawn_log (le_add_right _ 2) _
    · have hentries := entries_removed σ₀.scopes child
      simp only [entries, hentries, mem_filter] at hid
      exact hid.1
    · obtain ⟨hlookup, hactive⟩ := live_eq_some.1 hk
      refine live_eq_some.2 ⟨?_, hactive⟩
      rw [getElem?_modify_eq_ite, if_neg (hx.ne hp hpempty).symm, getElem?_modify_eq_ite,
        if_neg (hx.ne hc hcempty).symm, hlookup]

/-! ### Borrows -/

section

variable (hnext : σ.nextId ≤ σ'.nextId)
  (howners : σ'.owners = σ.owners.modify o fun q => { q with borrows := f q.borrows })
  (hallocations : σ'.allocations = σ.allocations) (hscopes : σ'.scopes = σ.scopes)
  (hresources : σ'.resources = σ.resources)
include hnext howners hallocations hscopes hresources

/-- **Borrows.**  A change of one owner's borrows that still lists every open borrow. -/
theorem Inv.reborrow (h : Consistent σ) (ho : σ.live o = some r)
    (hborrowed : ∀ b w, σ'.borrows[b]? = some w →
      (w.owner = o ∧ b ∈ f r.borrows) ∨ (w.owner ≠ o ∧ σ.borrows[b]? = some w))
    (hdrawn : σ'.nextId ≤ 2 * σ'.operations.length + 1) : Consistent σ' := by
  have hlookup : ∀ x : OwnerId, σ'.owners[x]? = σ.owners[x]?.map fun k =>
      { k with borrows := if o = x then f k.borrows else k.borrows } := by
    intro x
    rw [howners, getElem?_modify_eq_ite]
    split <;> cases σ.owners[x]? <;> simp
  have hlive := live_update hlookup fun _ _ => rfl
  have hlinks : σ'.links = σ.links := by
    funext x
    rw [links, hlive, Option.map_map]
    rfl
  have hentries : σ'.entries = σ.entries := by
    rw [entries, hscopes]
    rfl
  refine h.update (fun x k => { k with borrows := if o = x then f k.borrows else k.borrows })
    (fun _ _ => ⟨rfl, rfl⟩) hlookup hnext hallocations hresources ?_ (fun x k hk => ?_)
    (fun x hx => hentries ▸ hx) (fun id hid => hentries ▸ hid) (fun b w hw => ?_) hdrawn
  · rw [hlinks]
    exact h.forest
  · rw [hentries]
    exact h.placed_now (r := k) hk
  · rcases hborrowed b w hw with ⟨rfl, hb⟩ | ⟨hne, hw⟩
    · exact ⟨r, ho, by rwa [if_pos rfl]⟩
    · obtain ⟨k, hk, hb⟩ := h.borrowed hw
      exact ⟨k, hk, by rwa [if_neg (Ne.symm hne)]⟩

/-- A change of borrows holds every owner. -/
theorem Follows.reborrow (h : Sound σ) (hconsistent : Consistent σ') (halone : Alone σ') :
    Follows [] σ σ' where
  sound := ⟨hconsistent, halone, h.filed.of_entries hnext hresources fun id hid => by
    rwa [entries, hscopes] at hid⟩
  held x _ _ q hq := by
    obtain ⟨hlookup, hactive⟩ := live_eq_some.1 hq
    have hlookup' : σ'.owners[x]? = some (if o = x then { q with borrows := f q.borrows } else q) := by
      rw [howners, getElem?_modify_eq_ite, hlookup]
      split <;> rfl
    refine ⟨_, live_eq_some.2 ⟨hlookup', ?_⟩, ?_, ?_, by rw [hallocations]⟩ <;> split <;>
      first | exact hactive | rfl

end

/-- A borrow that passes the conflict check leaves every mutable borrow alone. -/
theorem Alone.insert (h : Alone σ) (id : BorrowId) (o : OwnerId) (mode : BorrowMode)
    (hcheck : ∀ (b : BorrowId) (w : Borrow), σ.borrows[b]? = some w → w.owner = o →
      w.mode ≠ .mutable ∧ mode ≠ .mutable) (b b' : BorrowId) (w w' : Borrow)
    (hb : (σ.borrows.insert id ⟨o, mode⟩)[b]? = some w)
    (hb' : (σ.borrows.insert id ⟨o, mode⟩)[b']? = some w') (howner : w.owner = w'.owner)
    (hmode : w.mode = .mutable) : b = b' := by
  rw [getElem?_insert_cmp] at hb hb'
  split at hb
  · next hid =>
    cases hb
    split at hb'
    · next hid' => rw [← hid, hid']
    · exact absurd hmode (hcheck b' w' hb' howner.symm).2
  · split at hb'
    · cases hb'
      exact absurd hmode (hcheck b w hb howner).1
    · exact h b b' w w' hb hb' howner hmode

/-- Every open borrow of an owner is listed with it. -/
theorem Inv.lists_borrow (h : Consistent σ) (ho : σ.live o = some r) {b : BorrowId} {w : Borrow}
    (hw : σ.borrows[b]? = some w) (howner : w.owner = o) : b ∈ r.borrows := by
  obtain ⟨q, hq, hb⟩ := h.borrowed hw
  rw [howner, ho] at hq
  cases hq
  exact hb

/-- A check that stops the call, in front of the rest of it. -/
theorem wp_unless {c d : Prop} [Decidable c] [Decidable d]
    {rest : Lifecycle α} {Q : α → LifecycleRuntime → Prop} (hI : I σ)
    (hok : ¬ (c ∧ d) → wp rest Q (Fails I) σ) :
    wp (if c then (if d then do fail e; rest else rest) else rest) Q (Fails I) σ := by
  split
  next hc =>
    split
    · exact wp_fail hI
    next hd => exact hok fun h => hd h.2
  next hc => exact hok fun h => hc h.1

theorem frames_borrow (h : Sound σ) (o : OwnerId) (mode : BorrowMode) :
    Frames (borrow o mode) [] σ := by
  simp only [borrow, wp_bind]
  refine wp_requireActiveOwner rfl fun r ho => ?_
  have hlookup := (live_eq_some.1 ho).1
  simp only [wp_get, wp_owner hlookup]
  generalize hexisting : (r.borrows.toList.filterMap fun id => σ.borrows[id]?) = existing
  refine wp_unless rfl fun hconflict => ?_
  have hcheck : ∀ (b : BorrowId) (w : Borrow), σ.borrows[b]? = some w → w.owner = o →
      w.mode ≠ .mutable ∧ mode ≠ .mutable := by
    intro b w hw hwo
    have hmem : w ∈ existing := by
      rw [← hexisting]
      exact mem_filterMap.2 ⟨b, TreeSet.mem_toList.2 (h.consistent.lists_borrow ho hw hwo), hw⟩
    have hnone : (!existing.isEmpty) = true := by
      simpa using ne_nil_of_mem hmem
    refine ⟨fun hmutable => hconflict ⟨.inr ?_, hnone⟩, fun hmode => hconflict ⟨.inl hmode, hnone⟩⟩
    exact any_eq_true.2 ⟨w, hmem, by simp [hmutable]⟩
  simp only [wp_bind, freshId]
  refine (wp_updateOwner (by exact hlookup)).2 ?_
  obtain ⟨k, hk⟩ := exists_getElem?_modify ⟨r, hlookup⟩ o
    fun k : Owner => { k with borrows := k.borrows.insert ⟨σ.nextId⟩ }
  refine (wp_owner (by exact hk)).2 ?_
  refine Follows.reborrow (f := fun borrows => borrows.insert ⟨σ.nextId⟩) (le_succ _) rfl rfl rfl rfl
    h ?_ (h.alone.insert _ o mode hcheck)
  refine Inv.reborrow (f := fun borrows => borrows.insert ⟨σ.nextId⟩) (le_succ _) rfl rfl rfl rfl
    h.consistent ho (fun b w hw => ?_) (h.consistent.drawn_log (le_succ _) _)
  rw [getElem?_insert_cmp] at hw
  split at hw
  · next hb =>
    cases hw
    exact .inl ⟨rfl, by simp [← hb]⟩
  · by_cases hwo : w.owner = o
    · exact .inl ⟨hwo, TreeSet.mem_insert.2 (.inr (h.consistent.lists_borrow ho hw hwo))⟩
    · exact .inr ⟨hwo, hw⟩

theorem frames_endBorrow (h : Sound σ) (id : BorrowId) : Frames (endBorrow id) [] σ := by
  simp only [endBorrow, wp_bind, wp_get]
  cases htaken : σ.borrows[id]? with
  | none => exact wp_fail rfl
  | some taken =>
    obtain ⟨r, ho, -⟩ := h.consistent.borrowed htaken
    have hlookup := (live_eq_some.1 ho).1
    simp only [wp_bind]
    refine (wp_updateOwner (by exact hlookup)).2 ?_
    obtain ⟨k, hk⟩ := exists_getElem?_modify ⟨r, hlookup⟩ taken.owner
      fun k : Owner => { k with borrows := k.borrows.erase id }
    refine (wp_owner (by exact hk)).2 ?_
    have hstill : ∀ {b : BorrowId} {w : Borrow}, (σ.borrows.erase id)[b]? = some w →
        id ≠ b ∧ σ.borrows[b]? = some w := by
      intro b w hw
      rw [getElem?_erase_eq_ite] at hw
      split at hw
      · cases hw
      · next hb => exact ⟨hb, hw⟩
    refine Follows.reborrow (f := fun borrows => borrows.erase id) le_rfl rfl rfl rfl rfl h ?_ ?_
    · refine Inv.reborrow (σ := σ) (f := fun borrows => borrows.erase id) le_rfl rfl rfl rfl rfl
        h.consistent ho (fun b w hw => ?_) (h.consistent.drawn_log (le_add_right _ 2) _)
      obtain ⟨hb, hw⟩ := hstill hw
      by_cases hwo : w.owner = taken.owner
      · refine .inl ⟨hwo, TreeSet.mem_erase.2 ⟨?_, h.consistent.lists_borrow ho hw hwo⟩⟩
        exact fun hcmp => hb (LawfulEqCmp.eq_of_compare hcmp)
      · exact .inr ⟨hwo, hw⟩
    · exact fun b b' w w' hw hw' => h.alone b b' w w' (hstill hw).2 (hstill hw').2

/-! ### Cleanup -/

/-- A discharge keeps the borrowed owners outside the aggregates it drops. -/
theorem Discharges.held (h : Discharges σ σ' gone closed)
    (hexclusive : ∀ {x q r}, σ.live o = some r → σ.live x = some q → r.allocation = q.allocation → o = x)
    (ho : o ∉ gone) : Held σ σ' o := by
  intro r hr
  refine ⟨r, h.live_iff.2 ⟨ho, hr⟩, rfl, rfl, h.storage _ fun x hx q hq heq => ?_⟩
  exact ho (hexclusive hr hq heq.symm ▸ hx)

theorem Discharges.sound
    (h : Discharges σ σ' gone closed) (hconsistent : Consistent σ') (halone : Alone σ)
    (hfiled : Filed σ) : Sound σ' :=
  ⟨hconsistent, by rw [Alone, h.borrows]; exact halone, h.filed hfiled⟩

theorem not_mem_aggregate (h : Consistent σ) (hfree : BorrowFree σ o) (ho : σ.live o = some r)
    (hx : Borrowed σ x) : x ∉ σ.aggregate o := by
  intro hmem
  obtain ⟨q, hq, hborrowed⟩ := hx
  have hsize := weight_le_size σ o
  have hpath := (mem_cleanupOrder h.forest _ o r ho (by omega)).1 hmem
  rw [hfree x q hpath hq] at hborrowed
  cases hborrowed

theorem frames_dropValue (h : Sound σ) (o : OwnerId) : Frames (dropValue o) [o] σ := by
  refine wp_mono (wp_dropValue h.consistent o) ?_ (fun _ _ _ hf => ⟨hf.1, hf.2.1⟩)
  rintro - σ' - ⟨hconsistent, r, ho, hfree, hdropped⟩
  refine ⟨hdropped.sound hconsistent h.alone ⟨h.filed.listed, h.filed.fresh⟩,
    fun x hx hchild q hq => ?_⟩
  have hnot := not_mem_aggregate h.consistent hfree ho hx
  -- the parent of `o` is not among the borrowed owners considered
  have hparent : r.parent ≠ some x := by
    intro hrx
    exact hchild q o hq mem_cons_self ((mem_children_iff h.consistent.forest hq ho).2 hrx)
  have hunlinked : (σ.unlinked o r.parent).live x = some q := by
    rw [live_unlinked, hq]
    simp [hparent]
  refine ⟨q, hdropped.live_iff.2 ⟨hnot, hunlinked⟩, rfl, rfl, hdropped.storage _ fun y hy k hk heq => ?_⟩
  rw [live_unlinked, Option.map_eq_some_iff] at hk
  obtain ⟨k', hk', rfl⟩ := hk
  exact hnot (h.consistent.exclusive hq hk' heq.symm ▸ hy)

theorem frames_exitScope (h : Sound σ) (reason : ExitReason) : Frames (exitScope reason) [] σ := by
  refine wp_mono (wp_exitScope h.consistent h.filed reason) ?_ (fun _ _ _ hf => ⟨hf.1, hf.2.1⟩)
  rintro - σ' - ⟨hconsistent, scope, outer, hscopes, hfree, hdone⟩
  have hfiled : Filed { σ with scopes := outer } := by
    refine ⟨fun id hid => h.filed.listed id ?_, h.filed.fresh⟩
    rw [entries, hscopes]
    exact mem_append_right _ hid
  refine ⟨hdone.sound hconsistent h.alone hfiled, fun x hx _ => ?_⟩
  refine hdone.held h.consistent.exclusive fun hmem => ?_
  obtain ⟨entry, hentry, hmem⟩ := mem_flatMap.1 hmem
  have hentry := mem_reverse.1 hentry
  cases entry with
  | resource id => cases hmem
  | owner o =>
    obtain ⟨r, ho⟩ := h.consistent.live_of_listed (o := o) (by simp [entries, hscopes, hentry])
    exact not_mem_aggregate h.consistent (hfree o hentry) ho hx hmem

/-! ### Resources -/

theorem wp_requireActiveResource {id : ResourceId} (hI : I σ)
    (hok : ∀ v, σ.resources[id]? = some v → v.status = .active → Q () σ) :
    wp (requireActiveResource id) Q (Fails I) σ := by
  simp only [requireActiveResource, resource, wp_bind, wp_get]
  cases hv : σ.resources[id]? with
  | none => exact wp_fail hI
  | some v =>
    simp only [wp_pure]
    cases hstatus : v.status with
    | active => exact hok v hv hstatus
    | moved | closed => exact wp_fail hI

section

variable (h : Sound σ)
include h

theorem frames_openResource (capability : String) (provenance : Option String) :
    Frames (openResource capability provenance) [] σ := by
  simp only [openResource, wp_bind]
  refine wp_requireScope rfl fun scope outer hscopes => ?_
  simp only [freshId, wp_bind, wp_get, wp_modify, hscopes]
  have hentries : σ.entries = scope.entries ++ outer.flatMap (·.entries) := by
    simp [entries, hscopes]
  refine Follows.quiet h ?_ rfl rfl rfl ⟨fun id hid => ?_, fun {id v} hv => ?_⟩
  · refine h.consistent.regroup (le_succ _) (h.consistent.drawn_log (le_succ _) _)
      (fun o => ?_) (fun o ho => ?_) (fun o ho => ?_) (fun id v hv hactive => ?_)
    · simp [hentries]
    · simpa [hentries] using ho
    · cases ho
    · rw [getElem?_insert_cmp] at hv
      split at hv
      · next heq => simp [heq]
      · have hmem := h.consistent.listed_resource hv hactive
        rw [hentries] at hmem
        simp only [append_nil, mem_append, flatMap_cons] at hmem ⊢
        exact hmem.imp_left .inl
  · show ∃ v, (σ.resources.insert ⟨σ.nextId⟩ _)[id]? = some v ∧ _
    rw [getElem?_insert_cmp]
    split
    · exact ⟨_, rfl, by simp⟩
    next hne =>
      refine h.filed.listed id ?_
      rw [hentries]
      simpa [entries, Ne.symm hne] using hid
  · rw [getElem?_insert_cmp] at hv
    split at hv
    · next heq =>
      rw [← heq]
      exact lt_succ_self _
    · exact lt_succ_of_lt (h.filed.fresh hv)

theorem frames_moveResource (id : ResourceId) : Frames (moveResource id) [] σ := by
  simp only [moveResource, wp_bind]
  refine wp_requireActiveResource rfl fun v hv hactive => ?_
  simp only [wp_resource hv, freshId, wp_bind]
  have hpresent : ∃ w, (σ.resources.insert ⟨σ.nextId⟩ { v with status := .active })[id]? = some w := by
    rw [getElem?_insert_cmp]
    split
    · exact ⟨_, rfl⟩
    · exact ⟨v, hv⟩
  obtain ⟨w, hw⟩ := hpresent
  refine (wp_updateResource (by exact hw)).2 ?_
  have hrenamed := entries_renamed σ.scopes (.resource id) (.resource ⟨σ.nextId⟩)
  have hid : id ≠ ⟨σ.nextId⟩ := by
    rintro rfl
    exact absurd (h.filed.fresh hv) (lt_irrefl _)
  -- the new token is active, the old one is moved, the others are as they were
  have hlookup : ∀ id' : ResourceId,
      ((σ.resources.insert ⟨σ.nextId⟩ { v with status := .active }).modify id
        fun r => { r with status := .moved })[id']? =
      if id' = ⟨σ.nextId⟩ then some { v with status := .active }
      else if id' = id then some { v with status := .moved } else σ.resources[id']? := by
    intro id'
    rw [getElem?_modify_eq_ite, getElem?_insert_cmp]
    by_cases hnew : id' = ⟨σ.nextId⟩
    · simp [hnew, hid]
    · by_cases hold : id' = id
      · simp [hold, hid, Ne.symm hid, hv]
      · simp [hnew, hold, Ne.symm hnew, Ne.symm hold]
  refine Follows.quiet h ?_ rfl rfl rfl ⟨fun id' hid' => ?_, fun {id' v'} hv' => ?_⟩
  · refine h.consistent.regroup (le_succ _) (h.consistent.drawn_log (le_succ _) _)
      (fun o => ?_) (fun o ho => ?_) (fun o ho => ?_) (fun id' w' hw' hactive' => ?_)
    · rw [append_nil, append_nil, hrenamed]
      exact count_rename_of_ne (by simp) (by simp)
    · rw [hrenamed, mem_map] at ho
      obtain ⟨entry, hentry, heq⟩ := ho
      split at heq
      · cases heq
      · exact heq ▸ hentry
    · cases ho
    · rw [append_nil, hrenamed, mem_map]
      rw [hlookup] at hw'
      split at hw'
      · next hnew => exact ⟨_, h.consistent.listed_resource hv hactive, by simp [hnew]⟩
      · split at hw'
        · cases hw'
          cases hactive'
        · next hold => exact ⟨_, h.consistent.listed_resource hw' hactive', by simp [hold]⟩
  · simp only [entries, hrenamed, mem_map] at hid'
    obtain ⟨entry, hentry, heq⟩ := hid'
    simp only [hlookup]
    split at heq
    · cases heq
      exact ⟨{ v with status := .active }, if_pos rfl, by simp⟩
    next hne =>
      subst heq
      have hold : id' ≠ id := by simpa using hne
      obtain ⟨v', hv', hmoved⟩ := h.filed.listed id' hentry
      have hnew : id' ≠ ⟨σ.nextId⟩ := by
        rintro rfl
        exact absurd (h.filed.fresh hv') (lt_irrefl _)
      exact ⟨v', by rw [if_neg hnew, if_neg hold, hv'], hmoved⟩
  · simp only [hlookup] at hv'
    split at hv'
    · next hnew =>
      rw [hnew]
      exact lt_succ_self _
    · split at hv'
      · next hold =>
        rw [hold]
        exact lt_succ_of_lt (h.filed.fresh hv)
      · exact lt_succ_of_lt (h.filed.fresh hv')

theorem frames_useResource (id : ResourceId) : Frames (useResource id) [] σ := by
  simp only [useResource, wp_bind]
  refine wp_requireActiveResource rfl fun v hv _ => ?_
  simp only [wp_resource hv]
  exact (Follows.refl h).log _

/-- The end of a resource. -/
theorem Discharges.follows (hconsistent : Consistent σ') (hclosed : Discharges σ σ' [] closed) :
    Follows [] σ σ' :=
  ⟨hclosed.sound hconsistent h.alone h.filed, fun _ _ _ => hclosed.held h.consistent.exclusive not_mem_nil⟩

theorem frames_closeResource (id : ResourceId) : Frames (closeResource id) [] σ := by
  cases hv : σ.resources[id]? with
  | none =>
    simp only [closeResource, resource, wp_bind, wp_get, hv]
    exact wp_fail rfl
  | some v =>
    cases hstatus : v.status with
    | active =>
      exact wp_mono (wp_closeResource h.consistent hv hstatus)
        (fun _ _ _ hd => hd.2.follows h hd.1) (fun _ _ _ hf => hf.elim)
    | moved | closed =>
      simp only [closeResource, wp_bind, wp_resource hv, hstatus]
      exact wp_fail rfl

theorem frames_dropResource (id : ResourceId) : Frames (dropResource id) [] σ := by
  cases hv : σ.resources[id]? with
  | none =>
    simp only [dropResource, resource, wp_bind, wp_get, hv]
    exact wp_fail rfl
  | some v =>
    by_cases hmoved : v.status = .moved
    · simp only [dropResource, wp_bind, wp_resource hv, hmoved]
      exact wp_fail rfl
    · exact wp_mono (wp_dropResource h.consistent hv hmoved)
        (fun _ _ _ hd => hd.2.follows h hd.1) (fun _ _ _ hf => hf.elim)

end

end Axiomc.Runtime
