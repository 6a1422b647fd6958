import Axiomc.Foundation.Forest
import Axiomc.Foundation.OrderedMap
import Axiomc.Runtime.Lifecycle

/-!
# The ownership invariant of the lifecycle runtime

`Inv pending released σ` is the invariant of a runtime, also in the middle of a cleanup:

* `pending` lists the entries that have left their scope, or the aggregate that held them, and still
  wait for their drop;
* `released` lists the owners that are already marked as dropped and whose storage and scope entry
  are still to go.

Between two calls both are empty.  Taking the pending entries and the scopes together, an active
owner has exactly one place: one entry, or a parent (`placed`).  The last field counts the
identifiers drawn so far: at most two for each entry of the log.
-/

namespace Axiomc.Runtime

open Foundation Std Relation LifecycleRuntime List

/-! ### Views of a runtime -/

/-- The record of an active owner. -/
def LifecycleRuntime.live (σ : LifecycleRuntime) (o : OwnerId) : Option Owner :=
  σ.owners[o]?.filter (·.status = .active)

/-- The links of an owner record. -/
def Owner.links (r : Owner) : Node OwnerId := ⟨r.parent, r.children⟩

/-- The links between the active owners. -/
def LifecycleRuntime.links (σ : LifecycleRuntime) (o : OwnerId) : Option (Node OwnerId) :=
  (σ.live o).map Owner.links

/-- The entries of all open scopes. -/
def LifecycleRuntime.entries (σ : LifecycleRuntime) : List ScopeEntry :=
  σ.scopes.flatMap (·.entries)

/-- The invariant. -/
structure Inv (pending : List ScopeEntry) (released : List (OwnerId × Nat))
    (σ : LifecycleRuntime) : Prop where
  owner_fresh : ∀ {o : OwnerId} {r : Owner}, σ.owners[o]? = some r → o.raw < σ.nextId
  allocation_fresh : ∀ {a : Nat} {x : Allocation}, σ.allocations[a]? = some x → a < σ.nextId
  stored : ∀ {o r}, σ.live o = some r → ∃ x, σ.allocations[r.allocation]? = some x
  exclusive : ∀ {o o' r r'}, σ.live o = some r → σ.live o' = some r' →
    r.allocation = r'.allocation → o = o'
  backed : ∀ {a : Nat} {x : Allocation}, σ.allocations[a]? = some x →
    (∃ o r, σ.live o = some r ∧ r.allocation = a) ∨ ∃ o, (o, a) ∈ released
  released_free : ∀ {o a o' r}, (o, a) ∈ released → σ.live o' = some r → r.allocation ≠ a
  forest : IsForest σ.links
  placed : ∀ {o r}, σ.live o = some r →
    (σ.entries ++ pending).count (.owner o) + (if r.parent.isSome then 1 else 0) = 1
  listed : ∀ {o}, .owner o ∈ σ.entries → (∃ r, σ.live o = some r) ∨ ∃ a, (o, a) ∈ released
  pending_live : ∀ {o}, .owner o ∈ pending → ∃ r, σ.live o = some r
  borrowed : ∀ {b : BorrowId} {w : Borrow}, σ.borrows[b]? = some w →
    ∃ r, σ.live w.owner = some r ∧ b ∈ r.borrows
  kept : ∀ {id : ResourceId} {v : Resource}, σ.resources[id]? = some v → v.status = .active →
    .resource id ∈ σ.entries ++ pending
  drawn : σ.nextId ≤ 2 * σ.operations.length + 1

variable {σ σ' : LifecycleRuntime} {pending pending' : List ScopeEntry}
  {released : List (OwnerId × Nat)} {o p c : OwnerId} {r : Owner}

theorem live_eq_some : σ.live o = some r ↔ σ.owners[o]? = some r ∧ r.status = .active := by
  simp [live]

theorem ne_of_live {x : OwnerId} (hx : σ.live x = some r) (ho : σ.live o = none) : x ≠ o := by
  rintro rfl
  rw [ho] at hx
  cases hx

theorem links_eq_some {n : Node OwnerId} :
    σ.links o = some n ↔ ∃ r, σ.live o = some r ∧ r.links = n := by
  simp [links]

theorem links_of_live (h : σ.live o = some r) : σ.links o = some r.links :=
  links_eq_some.2 ⟨r, h, rfl⟩

section

variable (hforest : IsForest σ.links) (ho : σ.live o = some r)
include hforest ho

theorem exists_live_child (hc : c ∈ r.children) : ∃ q, σ.live c = some q ∧ Below σ.links c o := by
  obtain ⟨n, hn, hparent⟩ := hforest.child_points (links_of_live ho) hc
  obtain ⟨q, hq, -⟩ := links_eq_some.1 hn
  exact ⟨q, hq, n, hn, hparent⟩

theorem exists_live_parent (hp : r.parent = some p) : ∃ q, σ.live p = some q ∧ o ∈ q.children := by
  obtain ⟨n, hn, hmem⟩ := hforest.parent_lists (links_of_live ho) hp
  obtain ⟨q, hq, rfl⟩ := links_eq_some.1 hn
  exact ⟨q, hq, hmem⟩

/-- The children of an active owner are those that point at it. -/
theorem mem_children_iff {q : Owner} (hc : σ.live c = some q) : c ∈ r.children ↔ q.parent = some o :=
  hforest.mem_children_iff (links_of_live ho) (links_of_live hc)

end

theorem inv_new (limit : Nat) : Inv [] [] (new limit) where
  owner_fresh h := by simp [new] at h
  allocation_fresh h := by simp [new] at h
  stored h := by simp [live, new] at h
  exclusive h := by simp [live, new] at h
  backed h := by simp [new] at h
  released_free h := by cases h
  forest := by
    have hnone : (new limit).links = fun _ => none := by
      funext o
      simp [links, live, new]
    rw [hnone]
    exact isForest_empty
  placed h := by simp [live, new] at h
  listed h := by simp [entries, new] at h
  pending_live h := by cases h
  borrowed h := by simp [new] at h
  kept h := by simp [new] at h
  drawn := le_rfl

/-- The invariant does not read the order of the pending entries. -/
theorem Inv.perm (h : Inv pending released σ) (hperm : pending.Perm pending') :
    Inv pending' released σ :=
  { h with
    placed hr := by
      rw [← (hperm.append_left σ.entries).count_eq]
      exact h.placed hr
    pending_live hmem := h.pending_live (hperm.mem_iff.2 hmem)
    kept hv hactive := (hperm.append_left σ.entries).mem_iff.1 (h.kept hv hactive) }

/-- A longer log. -/
theorem Inv.log (h : Inv pending released σ) (operation : LifecycleOperation) :
    Inv pending released { σ with operations := σ.operations ++ [operation] } :=
  { h with
    drawn := by
      have := h.drawn
      simp only [length_append, length_singleton]
      omega }

/-- **Regrouping.**  Entries may move between the scopes and the pending list, and resources may
change, as long as each owner keeps its number of entries and each active resource has one. -/
theorem Inv.regroup (h : Inv pending released σ) {nextId : Nat}
    {resources : TreeMap ResourceId Resource} {scopes : List Scope}
    {operations : List LifecycleOperation} (hnext : σ.nextId ≤ nextId)
    (hdrawn : nextId ≤ 2 * operations.length + 1)
    (hcount : ∀ o, (scopes.flatMap (·.entries) ++ pending').count (.owner o) =
      (σ.entries ++ pending).count (.owner o))
    (hlisted : ∀ o, .owner o ∈ scopes.flatMap (·.entries) → .owner o ∈ σ.entries)
    (hpending : ∀ o, .owner o ∈ pending' → ∃ r, σ.live o = some r)
    (hkept : ∀ id v, resources[id]? = some v → v.status = .active →
      .resource id ∈ scopes.flatMap (·.entries) ++ pending') :
    Inv pending' released
      { σ with
        nextId := nextId, resources := resources, scopes := scopes, operations := operations } :=
  { h with
    owner_fresh hr := (h.owner_fresh hr).trans_le hnext
    allocation_fresh hx := (h.allocation_fresh hx).trans_le hnext
    placed {o r} hr := by
      have hplaced := h.placed hr
      rw [← hcount o] at hplaced
      exact hplaced
    listed hx := h.listed (hlisted _ hx)
    pending_live hx := hpending _ hx
    kept hv hactive := hkept _ _ hv hactive
    drawn := hdrawn }

/-! ### Walks along the links -/

/-- The active owners. -/
def LifecycleRuntime.activeIds (σ : LifecycleRuntime) : Finset OwnerId :=
  (σ.owners.keys.filter fun o => (σ.live o).isSome).toFinset

theorem mem_activeIds : o ∈ σ.activeIds ↔ ∃ r, σ.live o = some r := by
  simp only [activeIds, mem_toFinset, mem_filter, TreeMap.mem_keys, Option.isSome_iff_exists]
  constructor
  · exact fun h => h.2
  · rintro ⟨r, hr⟩
    refine ⟨?_, r, hr⟩
    rw [TreeMap.mem_iff_isSome_getElem?, (live_eq_some.1 hr).1]
    rfl

theorem card_activeIds_le (σ : LifecycleRuntime) : σ.activeIds.card ≤ σ.owners.size :=
  calc σ.activeIds.card
      ≤ (σ.owners.keys.filter fun o => (σ.live o).isSome).length := toFinset_card_le _
    _ ≤ σ.owners.keys.length := length_filter_le _ _
    _ = σ.owners.size := TreeMap.length_keys

/-- The number of active owners in the aggregate below `o`. -/
noncomputable def LifecycleRuntime.weight (σ : LifecycleRuntime) (o : OwnerId) : Nat :=
  (leadingTo (Below σ.links) σ.activeIds o).card

theorem weight_le_size (σ : LifecycleRuntime) (o : OwnerId) : σ.weight o ≤ σ.owners.size :=
  (card_leadingTo_le _ _).trans (card_activeIds_le σ)

theorem weight_lt_of_mem (hforest : IsForest σ.links) (ho : σ.live o = some r)
    (hc : c ∈ r.children) : σ.weight c < σ.weight o := by
  obtain ⟨q, hq, hbelow⟩ := exists_live_child hforest ho hc
  exact card_leadingTo_lt hforest.acyclic (mem_activeIds.2 ⟨r, ho⟩) hbelow

/-- The owners above get fewer on the way up. -/
theorem card_above_lt (hforest : IsForest σ.links) (ho : σ.live o = some r) (hp : r.parent = some p) :
    (leadingTo (Function.swap (Below σ.links)) σ.activeIds p).card <
      (leadingTo (Function.swap (Below σ.links)) σ.activeIds o).card := by
  refine card_leadingTo_lt (fun x hx => ?_) (mem_activeIds.2 ⟨r, ho⟩) ⟨r.links, links_of_live ho, hp⟩
  exact hforest.acyclic x (transGen_swap.1 hx)

/-- No owner of the aggregate below `o` is borrowed. -/
def BorrowFree (σ : LifecycleRuntime) (o : OwnerId) : Prop :=
  ∀ x r, ReflTransGen (Below σ.links) x o → σ.live x = some r → r.borrows.isEmpty = true

theorem borrowFree_iff (hforest : IsForest σ.links) (ho : σ.live o = some r) :
    BorrowFree σ o ↔ r.borrows.isEmpty = true ∧ ∀ c ∈ r.children, BorrowFree σ c := by
  constructor
  · intro h
    refine ⟨h o r .refl ho, fun c hc x q hxc hx => h x q (hxc.tail ?_) hx⟩
    exact hforest.child_points (links_of_live ho) hc
  · rintro ⟨hempty, hchildren⟩ x q hxo hx
    rcases ReflTransGen.cases_tail hxo with rfl | ⟨c, hxc, n, hn, hparent⟩
    · rw [ho] at hx
      cases hx
      exact hempty
    · have hmem := (hforest.mem_children_iff (links_of_live ho) hn).2 hparent
      exact hchildren c hmem x q hxc hx

/-- No call may end this way. -/
abbrev Never : Stop → LifecycleRuntime → Prop := fun _ _ => False

section

variable (hforest : IsForest σ.links)
include hforest

/-- The walk of `has_ancestor` ends, and a negative answer excludes every path up to the
candidate. -/
theorem wp_hasAncestorFrom (candidate : OwnerId) :
    ∀ (rounds : Nat) (node : OwnerId) (r : Owner), σ.live node = some r →
      (leadingTo (Function.swap (Below σ.links)) σ.activeIds node).card ≤ rounds →
      wp (hasAncestorFrom candidate rounds (some node)) (fun found σ' =>
          σ' = σ ∧ (found = false → ¬ ReflTransGen (Below σ.links) node candidate)) Never σ := by
  intro rounds
  induction rounds with
  | zero =>
    -- the node is above itself, so it takes a round
    intro node r hnode hcard
    have hself : node ∈ leadingTo (Function.swap (Below σ.links)) σ.activeIds node := by
      simp only [leadingTo, Finset.mem_filter]
      exact ⟨mem_activeIds.2 ⟨r, hnode⟩, .refl⟩
    have := Finset.card_pos.2 ⟨node, hself⟩
    omega
  | succ rounds ih =>
    intro node r hnode hcard
    by_cases hid : node = candidate
    · simp [hasAncestorFrom, hid]
    · have hlookup : σ.owners[node]?.bind (·.parent) = r.parent := by
        rw [(live_eq_some.1 hnode).1]
        rfl
      simp only [hasAncestorFrom, if_neg hid, wp_bind, wp_get, hlookup]
      cases hparent : r.parent with
      | none =>
        simp only [hasAncestorFrom, wp_pure, true_and]
        rintro - hpath
        rcases ReflTransGen.cases_head hpath with rfl | ⟨x, ⟨n, hn, hnx⟩, -⟩
        · exact hid rfl
        · rw [links, hnode] at hn
          cases hn
          rw [Owner.links, hparent] at hnx
          cases hnx
      | some parent =>
        obtain ⟨q, hq, -⟩ := exists_live_parent hforest hnode hparent
        have hlt := card_above_lt hforest hnode hparent
        refine wp_mono (ih parent q hq (by omega)) ?_ (fun _ _ _ h => h)
        rintro found σ' - ⟨rfl, hno⟩
        refine ⟨rfl, fun hfalse hpath => ?_⟩
        rcases ReflTransGen.cases_head hpath with rfl | ⟨x, ⟨n, hn, hnx⟩, hrest⟩
        · exact hid rfl
        · rw [links, hnode] at hn
          cases hn
          rw [Owner.links, hparent] at hnx
          cases hnx
          exact hno hfalse hrest

theorem wp_hasAncestor (candidate : OwnerId) (ho : σ.live o = some r) :
    wp (hasAncestor o candidate) (fun found σ' =>
        σ' = σ ∧ (found = false → ¬ ReflTransGen (Below σ.links) o candidate)) Never σ := by
  refine wp_hasAncestorFrom hforest candidate _ o r ho ?_
  have := card_leadingTo_le (r := Function.swap (Below σ.links)) σ.activeIds o
  have := card_activeIds_le σ
  omega

/-- The recursion of `first_borrowed_in_subtree` ends, and it finds nothing exactly when nothing in
the aggregate is borrowed. -/
theorem wp_firstBorrowedWithin :
    ∀ (rounds : Nat) (o : OwnerId) (r : Owner), σ.live o = some r → σ.weight o < rounds →
      wp (firstBorrowedWithin rounds o)
        (fun hit σ' => σ' = σ ∧ (hit = none ↔ BorrowFree σ o)) Never σ := by
  intro rounds
  induction rounds with
  | zero =>
    intro o r _ hweight
    omega
  | succ rounds ih =>
    intro o r ho hweight
    have hscan : ∀ children : List OwnerId, (∀ c ∈ children, c ∈ r.children) →
        wp (firstHit (firstBorrowedWithin rounds) children)
          (fun hit σ' => σ' = σ ∧ (hit = none ↔ ∀ c ∈ children, BorrowFree σ c)) Never σ := by
      intro children
      induction children with
      | nil =>
        intro _
        simp [firstHit]
      | cons c children ihc =>
        intro hsub
        have hc : c ∈ r.children := hsub c mem_cons_self
        obtain ⟨q, hq, -⟩ := exists_live_child hforest ho hc
        have hlt := weight_lt_of_mem hforest ho hc
        simp only [firstHit, wp_bind]
        refine wp_mono (ih c q hq (by omega)) ?_ (fun _ _ _ h => h)
        rintro hit σ' - ⟨rfl, hhit⟩
        cases hit with
        | some borrowed =>
          have hnot : ¬ BorrowFree σ' c := fun h => by cases hhit.2 h
          simp [hnot]
        | none =>
          have hfree : BorrowFree σ' c := hhit.1 rfl
          refine wp_mono (ihc fun c' hc' => hsub c' (mem_cons_of_mem _ hc')) ?_
            (fun _ _ _ h => h)
          rintro hit σ'' - ⟨rfl, hrest⟩
          simp [hrest, hfree]
    simp only [firstBorrowedWithin, wp_bind, wp_get, (live_eq_some.1 ho).1]
    by_cases hempty : r.borrows.isEmpty = true
    · simp only [hempty, Bool.not_true, Bool.false_eq_true]
      refine wp_mono (hscan r.children fun _ h => h) ?_ (fun _ _ _ h => h)
      rintro hit σ' - ⟨rfl, hhit⟩
      rw [borrowFree_iff hforest ho, hhit]
      simp [hempty]
    · have hnot : ¬ BorrowFree σ o := fun h => hempty (h o r .refl ho)
      simp [hempty, hnot]

theorem wp_firstBorrowedInSubtree (ho : σ.live o = some r) :
    wp (firstBorrowedInSubtree o) (fun hit σ' => σ' = σ ∧ (hit = none ↔ BorrowFree σ o)) Never σ := by
  have := weight_le_size σ o
  exact wp_firstBorrowedWithin hforest _ o r ho (by omega)

end

end Axiomc.Runtime
