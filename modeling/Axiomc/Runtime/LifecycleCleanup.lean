import Axiomc.Runtime.LifecycleInvariant

/-!
# Cleanup

What `drop_owner` and `exit_scope` do to the invariant.  A drop first marks its owner, cuts the
links around it and turns its children into pending roots (`Inv.detach`); the children are dropped
in turn; then the storage and the scope entry go (`Inv.release`).  The recursion is carried by
`wp_dropOwnerWithin`: in a consistent runtime, the drop of an owner whose aggregate is free of
borrows succeeds and takes its entry off the pending list.
-/

namespace Axiomc.Runtime

open Foundation Std Relation List LifecycleRuntime Option

variable {σ σ' σ'' : LifecycleRuntime} {pending : List ScopeEntry}
  {released : List (OwnerId × Nat)} {o p c x : OwnerId} {r : Owner}
  {E : Stop → LifecycleRuntime → Prop}

/-! ### Access to the tables -/

theorem wp_owner {Q : Owner → LifecycleRuntime → Prop} (h : σ.owners[o]? = some r) :
    wp (owner o) Q E σ ↔ Q r σ := by
  simp [owner, h]

variable {Q : Unit → LifecycleRuntime → Prop} {v : Resource} {f : Owner → Owner}

theorem wp_updateOwner (h : σ.owners[o]? = some r) :
    wp (updateOwner o f) Q E σ ↔ Q () { σ with owners := σ.owners.modify o f } := by
  simp [updateOwner, wp_owner h]

theorem wp_forEach_updateOwner : ∀ (children : List OwnerId) (σ : LifecycleRuntime),
      (∀ c ∈ children, ∃ r, σ.owners[c]? = some r) →
      (wp (forEach (fun c => updateOwner c f) children) Q E σ ↔
        Q () { σ with owners := children.foldl (fun m c => m.modify c f) σ.owners }) := by
  intro children
  induction children with
  | nil =>
    intro σ _
    simp [forEach]
  | cons c children ih =>
    intro σ hpresent
    obtain ⟨r, hr⟩ := hpresent c mem_cons_self
    simp only [forEach, wp_bind, wp_updateOwner hr]
    refine ih _ fun c' hc' => ?_
    exact exists_getElem?_modify (hpresent c' (mem_cons_of_mem _ hc')) c f

/-! ### Taking an owner out of the forest -/

/-- The record of another owner after `o` is gone. -/
def Owner.without (o : OwnerId) (r : Owner) : Owner :=
  { r with
    parent := if r.parent = some o then none else r.parent
    children := r.children.filter (· ≠ o) }

/-- The owner table after the links around `o` are cut. -/
def detachedOwners (owners : TreeMap OwnerId Owner) (o : OwnerId) (r : Owner) :
    TreeMap OwnerId Owner :=
  let unlinked := match r.parent with
    | some parent =>
      owners.modify parent fun q => { q with children := q.children.filter (· != o) }
    | none => owners
  let marked := unlinked.modify o fun q => { q with status := .dropped }
  let cleared := marked.modify o fun q => { q with parent := none }
  r.children.foldl (fun m child => m.modify child fun q => { q with parent := none }) cleared

theorem getElem?_detachedOwners (owners : TreeMap OwnerId Owner) (o x : OwnerId) (r : Owner) :
    (detachedOwners owners o r)[x]? = owners[x]?.map fun q =>
      { q with
        status := if x = o then .dropped else q.status
        parent := if x = o ∨ x ∈ r.children then none else q.parent
        children := if r.parent = some x then q.children.filter (· ≠ o) else q.children } := by
  have hclear := getElem?_foldl_modify (f := fun q : Owner => { q with parent := none })
    (fun _ => rfl) x r.children
  simp only [detachedOwners, hclear, getElem?_modify_eq_ite]
  cases hlookup : owners[x]? with
  | none => cases r.parent <;> simp [getElem?_modify_eq_ite, hlookup]
  | some q =>
    cases q
    cases hparent : r.parent <;> by_cases hx : x ∈ r.children <;> by_cases hxo : o = x <;>
      grind [getElem?_modify_eq_ite]

section

variable (hforest : IsForest σ.links) (ho : σ.live o = some r)
include hforest ho

theorem live_detach (x : OwnerId) : live { σ with owners := detachedOwners σ.owners o r } x =
      if x = o then none else (σ.live x).map (Owner.without o) := by
  by_cases hxo : x = o
  · simp [live, getElem?_detachedOwners, hxo]
  · cases hx : σ.live x with
    | none =>
      simp only [live, filter_eq_none_iff] at hx
      simp only [live, getElem?_detachedOwners, hxo, if_false, map_none,
        filter_eq_none_iff, map_eq_some_iff]
      rintro q ⟨q', hq', rfl⟩
      exact hx q' hq'
    | some q =>
      -- only the children of `o` point at it, and only its parent lists it
      have hparent := mem_children_iff hforest ho hx
      have hchildren : r.parent ≠ some x → q.children.filter (· ≠ o) = q.children := by
        intro hne
        rw [filter_eq_self]
        intro c hc
        simp only [decide_eq_true_eq]
        rintro rfl
        exact hne ((mem_children_iff hforest hx ho).1 hc)
      obtain ⟨hlookup, hactive⟩ := live_eq_some.1 hx
      rw [if_neg hxo, map_some, live_eq_some]
      refine ⟨?_, hactive⟩
      show (detachedOwners σ.owners o r)[x]? = _
      rw [getElem?_detachedOwners, hlookup, map_some]
      simp only [Owner.without, hxo, hparent, if_false, false_or]
      by_cases hrx : r.parent = some x
      · simp [hrx]
      · rw [hchildren hrx]
        simp [hrx]

theorem links_detach :
    links { σ with owners := detachedOwners σ.owners o r } = removeTable σ.links o := by
  funext x
  simp only [links, live_detach hforest ho, removeTable]
  split
  · rfl
  · rw [Option.map_map, Option.map_map]
    rfl

theorem live_detach_eq_some {q : Owner} :
    live { σ with owners := detachedOwners σ.owners o r } x = some q ↔
      x ≠ o ∧ ∃ q', σ.live x = some q' ∧ q'.without o = q := by
  rw [live_detach hforest ho]
  by_cases hxo : x = o <;> simp [hxo]

end

/-- An owner has at most one pending entry. -/
theorem Inv.not_mem_erase (h : Inv pending released σ) (ho : σ.live o = some r) :
    .owner o ∉ pending.erase (.owner o) := by
  have hplaced := h.placed ho
  rw [count_append] at hplaced
  rw [← count_eq_zero, count_erase_self]
  omega

/-- A pending owner has no parent. -/
theorem Inv.pending_root (h : Inv pending released σ) (hmem : .owner o ∈ pending)
    (ho : σ.live o = some r) : r.parent = none := by
  have hplaced := h.placed ho
  have hcount := count_pos_iff.2 hmem
  cases hparent : r.parent with
  | none => rfl
  | some p =>
    rw [hparent] at hplaced
    simp at hplaced
    omega

/-- **Marking.**  An unborrowed owner leaves the forest and its children become pending. -/
theorem Inv.detach (h : Inv pending released σ) (ho : σ.live o = some r)
    (hempty : r.borrows.isEmpty = true) :
    Inv (r.children.map .owner ++ pending.erase (.owner o)) ((o, r.allocation) :: released)
      { σ with owners := detachedOwners σ.owners o r } := by
  have hlive := fun {x q} => live_detach_eq_some (x := x) (q := q) h.forest ho
  have hstays : ∀ {x q}, x ≠ o → σ.live x = some q →
      live { σ with owners := detachedOwners σ.owners o r } x =
        some (q.without o) := fun hne hq => hlive.2 ⟨hne, _, hq, rfl⟩
  exact
  { owner_fresh := by
      intro x q hq
      rw [getElem?_detachedOwners, map_eq_some_iff] at hq
      obtain ⟨q', hq', -⟩ := hq
      exact h.owner_fresh hq'
    allocation_fresh := h.allocation_fresh
    stored := by
      intro x q hq
      obtain ⟨-, q', hq', rfl⟩ := hlive.1 hq
      exact h.stored (r := q') hq'
    exclusive := by
      intro x x' q q' hq hq' heq
      obtain ⟨-, k, hk, rfl⟩ := hlive.1 hq
      obtain ⟨-, k', hk', rfl⟩ := hlive.1 hq'
      exact h.exclusive hk hk' heq
    backed := by
      intro a y hy
      rcases h.backed hy with ⟨x, q, hq, rfl⟩ | ⟨x, hx⟩
      · by_cases hxo : x = o
        · subst hxo
          rw [ho] at hq
          cases hq
          exact .inr ⟨x, mem_cons_self⟩
        · exact .inl ⟨x, _, hstays hxo hq, rfl⟩
      · exact .inr ⟨x, mem_cons_of_mem _ hx⟩
    released_free := by
      intro x a x' q hmem hq
      obtain ⟨hne, q', hq', rfl⟩ := hlive.1 hq
      rcases mem_cons.1 hmem with heq | hmem
      · cases heq
        exact fun heq => hne (h.exclusive hq' ho heq)
      · exact h.released_free (r := q') hmem hq'
    forest := by
      rw [links_detach h.forest ho]
      exact h.forest.remove
    placed := by
      intro x q hq
      obtain ⟨hne, q', hq', rfl⟩ := hlive.1 hq
      have hplaced := h.placed hq'
      have hnodup := h.forest.nodup (links_of_live ho)
      have hchild := mem_children_iff h.forest ho hq'
      have hcount : (r.children.map ScopeEntry.owner).count (.owner x) = r.children.count x :=
        count_map_of_injective _ _ (fun a b hab => by cases hab; rfl) _
      have hkids : r.children.count x = if x ∈ r.children then 1 else 0 := hnodup.count
      have herase : (pending.erase (.owner o)).count (.owner x) = pending.count (.owner x) :=
        count_erase_of_ne (by simpa using hne)
      rw [count_append] at hplaced
      rw [count_append, count_append, hcount, hkids]
      show σ.entries.count (.owner x) + _ + _ = 1
      by_cases hx : q'.parent = some o
      · simp [Owner.without, hchild, hx] at hplaced ⊢
        omega
      · simp only [Owner.without, hchild, hx, if_false]
        omega
    listed := by
      intro x hx
      rcases h.listed hx with ⟨q, hq⟩ | ⟨a, ha⟩
      · by_cases hxo : x = o
        · exact .inr ⟨r.allocation, by simp [hxo]⟩
        · exact .inl ⟨_, hstays hxo hq⟩
      · exact .inr ⟨a, mem_cons_of_mem _ ha⟩
    pending_live := by
      intro x hx
      rcases mem_append.1 hx with hx | hx
      · have hx : x ∈ r.children := by simpa using hx
        obtain ⟨q, hq, n, hn, hparent⟩ := exists_live_child h.forest ho hx
        exact ⟨_, hstays (h.forest.parent_ne hn hparent) hq⟩
      · obtain ⟨q, hq⟩ := h.pending_live (mem_of_mem_erase hx)
        have hxo : x ≠ o := by
          rintro rfl
          exact h.not_mem_erase ho hx
        exact ⟨_, hstays hxo hq⟩
    borrowed := by
      intro b w hw
      obtain ⟨q, hq, hb⟩ := h.borrowed hw
      have hwo : w.owner ≠ o := by
        rintro rfl
        rw [ho] at hq
        cases hq
        exact absurd hb (by simpa using TreeSet.isEmpty_iff_forall_not_mem.1 hempty b)
      exact ⟨_, hstays hwo hq, hb⟩
    kept := by
      intro id v hv hactive
      have hmem := h.kept hv hactive
      simp only [mem_append] at hmem ⊢
      rcases hmem with hmem | hmem
      · exact .inl hmem
      · exact .inr (.inr ((mem_erase_of_ne (by simp)).2 hmem))
    drawn := h.drawn }

variable {a : Nat}

/-- **Release.**  The storage and the scope entry of a marked owner go. -/
theorem Inv.release (h : Inv pending ((o, a) :: released) σ) (hgone : σ.live o = none)
    (scopes : List Scope) (hscopes : scopes.flatMap (·.entries) = σ.entries.filter (· != .owner o)) :
    Inv pending released { σ with allocations := σ.allocations.erase a, scopes := scopes } := by
  have hentries : entries { σ with allocations := σ.allocations.erase a, scopes := scopes } =
        σ.entries.filter (· != .owner o) := hscopes
  have hne : ∀ {x q}, σ.live x = some q → x ≠ o := fun hq => ne_of_live hq hgone
  have herase : ∀ {b y}, (σ.allocations.erase a)[b]? = some y → b ≠ a ∧ σ.allocations[b]? = some y := by
    intro b y hy
    rw [getElem?_erase_eq_ite] at hy
    split at hy
    · cases hy
    · next hab => exact ⟨Ne.symm hab, hy⟩
  exact
  { h with
    allocation_fresh := fun hy => h.allocation_fresh (herase hy).2
    stored := by
      intro x q hq
      obtain ⟨y, hy⟩ := h.stored hq
      have hfree := h.released_free mem_cons_self hq
      exact ⟨y, by simp [getElem?_erase_eq_ite, Ne.symm hfree, hy]⟩
    backed := by
      intro b y hy
      obtain ⟨hba, hy⟩ := herase hy
      rcases h.backed hy with hlive | ⟨x, hx⟩
      · exact .inl hlive
      · rcases mem_cons.1 hx with heq | hx
        · cases heq
          exact absurd rfl hba
        · exact .inr ⟨x, hx⟩
    released_free := fun hmem hq => h.released_free (mem_cons_of_mem _ hmem) hq
    placed := by
      intro x q hq
      have hplaced := h.placed hq
      have hkept : (σ.entries.filter (· != .owner o)).count (.owner x) =
          σ.entries.count (.owner x) := count_filter (by simpa using hne hq)
      rw [count_append] at hplaced
      rw [hentries, count_append, hkept]
      exact hplaced
    listed := by
      intro x hx
      rw [hentries, mem_filter] at hx
      rcases h.listed hx.1 with hlive | ⟨b, hb⟩
      · exact .inl hlive
      · rcases mem_cons.1 hb with heq | hb
        · cases heq
          simp at hx
        · exact .inr ⟨b, hb⟩
    kept := by
      intro id v hv hactive
      have hmem := h.kept hv hactive
      simp only [mem_append] at hmem
      simp only [mem_append, hentries, mem_filter]
      rcases hmem with hmem | hmem
      · exact .inl ⟨hmem, by simp⟩
      · exact .inr hmem }

/-! ### What a cleanup leaves of the other owners -/

/-- The active owners of `σ'` were active in `σ`, with the same borrows and the same parent unless
they became roots; no record is lost. -/
structure Settles (σ σ' : LifecycleRuntime) : Prop where
  live : ∀ {x r'}, σ'.live x = some r' →
    ∃ r, σ.live x = some r ∧ r'.borrows = r.borrows ∧ ∀ p, r'.parent = some p → r.parent = some p
  known : ∀ {x : OwnerId} {r : Owner}, σ.owners[x]? = some r → ∃ r', σ'.owners[x]? = some r'

theorem Settles.trans (h : Settles σ σ') (h' : Settles σ' σ'') : Settles σ σ'' where
  live hr'' := by
    obtain ⟨r', hr', hborrows', hparent'⟩ := h'.live hr''
    obtain ⟨r, hr, hborrows, hparent⟩ := h.live hr'
    exact ⟨r, hr, hborrows'.trans hborrows, fun p hp => hparent p (hparent' p hp)⟩
  known hr := by
    obtain ⟨r', hr'⟩ := h.known hr
    exact h'.known hr'

theorem Settles.below (h : Settles σ σ') (hcp : Below σ'.links c p) : Below σ.links c p := by
  obtain ⟨n, hn, hparent⟩ := hcp
  obtain ⟨r', hr', rfl⟩ := links_eq_some.1 hn
  obtain ⟨r, hr, -, hkept⟩ := h.live hr'
  exact ⟨r.links, links_of_live hr, hkept p hparent⟩

theorem Settles.borrowFree (h : Settles σ σ') (hfree : BorrowFree σ o) : BorrowFree σ' o := by
  intro x r' hpath hr'
  obtain ⟨r, hr, hborrows, -⟩ := h.live hr'
  rw [hborrows]
  exact hfree x r (ReflTransGen.mono (fun c p => h.below) x o hpath) hr

theorem Settles.weight_le (h : Settles σ σ') (o : OwnerId) : σ'.weight o ≤ σ.weight o := by
  refine card_leadingTo_mono (fun c p => h.below) (fun x hx => ?_) o
  obtain ⟨r', hr'⟩ := mem_activeIds.1 hx
  obtain ⟨r, hr, -, -⟩ := h.live hr'
  exact mem_activeIds.2 ⟨r, hr⟩

theorem settles_detach (hforest : IsForest σ.links) (ho : σ.live o = some r) :
    Settles σ { σ with owners := detachedOwners σ.owners o r } where
  live hq := by
    obtain ⟨-, q', hq', rfl⟩ := (live_detach_eq_some hforest ho).1 hq
    refine ⟨q', hq', rfl, fun p hp => ?_⟩
    simp only [Owner.without] at hp
    split at hp
    · cases hp
    · exact hp
  known {x q} hq := by
    show ∃ r', (detachedOwners σ.owners o r)[x]? = some r'
    rw [getElem?_detachedOwners, hq]
    exact ⟨_, rfl⟩

/-! ### The order of a cleanup -/

/-- The owners of an aggregate in the order of their drop: the last child first, each child before its
parent. -/
def cleanupOrder (owners : TreeMap OwnerId Owner) : Nat → OwnerId → List OwnerId
  | 0, _ => []
  | rounds + 1, o =>
    ((owners[o]?.map Owner.children).getD []).reverse.flatMap (cleanupOrder owners rounds) ++ [o]

theorem cleanupOrder_succ (ho : σ.live o = some r) (rounds : Nat) :
    cleanupOrder σ.owners (rounds + 1) o =
      r.children.reverse.flatMap (cleanupOrder σ.owners rounds) ++ [o] := by
  rw [cleanupOrder, (live_eq_some.1 ho).1]
  rfl

/-- The order depends on the lists of children within the aggregate, and on no bound above its size. -/
theorem cleanupOrder_congr (hforest : IsForest σ.links) {owners : TreeMap OwnerId Owner} :
    ∀ (n m : Nat) (o : OwnerId) (r : Owner), σ.live o = some r → σ.weight o < n → σ.weight o < m →
      (∀ x, ReflTransGen (Below σ.links) x o →
        owners[x]?.map Owner.children = σ.owners[x]?.map Owner.children) →
      cleanupOrder owners m o = cleanupOrder σ.owners n o := by
  intro n
  induction n with
  | zero =>
    omega
  | succ n ih =>
    intro m o r ho hn hm hsame
    obtain ⟨m, rfl⟩ : ∃ k, m = k + 1 := ⟨m - 1, by omega⟩
    have hchildren : (owners[o]?.map Owner.children).getD [] = r.children := by
      rw [hsame o .refl, (live_eq_some.1 ho).1]
      rfl
    rw [cleanupOrder_succ ho, cleanupOrder, hchildren]
    congr 1
    refine flatMap_congr fun c hc => ?_
    have hc := mem_reverse.1 hc
    obtain ⟨q, hq, hbelow⟩ := exists_live_child hforest ho hc
    have hlt := weight_lt_of_mem hforest ho hc
    exact ih m c q hq (by omega) (by omega) fun x hx => hsame x (hx.tail hbelow)

theorem mem_cleanupOrder (hforest : IsForest σ.links) :
    ∀ (n : Nat) (o : OwnerId) (r : Owner), σ.live o = some r → σ.weight o < n →
      (x ∈ cleanupOrder σ.owners n o ↔ ReflTransGen (Below σ.links) x o) := by
  intro n
  induction n with
  | zero =>
    omega
  | succ n ih =>
    intro o r ho hn
    have hchild : ∀ c ∈ r.children,
        (x ∈ cleanupOrder σ.owners n c ↔ ReflTransGen (Below σ.links) x c) := by
      intro c hc
      obtain ⟨q, hq, -⟩ := exists_live_child hforest ho hc
      have hlt := weight_lt_of_mem hforest ho hc
      exact ih c q hq (by omega)
    rw [cleanupOrder_succ ho, mem_append, mem_flatMap, mem_singleton]
    constructor
    · rintro (⟨c, hc, hx⟩ | rfl)
      · have hc := mem_reverse.1 hc
        obtain ⟨q, hq, hbelow⟩ := exists_live_child hforest ho hc
        exact ((hchild c hc).1 hx).tail hbelow
      · exact .refl
    · intro hpath
      rcases ReflTransGen.cases_tail hpath with rfl | ⟨c, hxc, k, hk, hparent⟩
      · exact .inr rfl
      · have hc := (hforest.mem_children_iff (links_of_live ho) hk).2 hparent
        exact .inl ⟨c, mem_reverse.2 hc, (hchild c hc).2 hxc⟩

/-! ### What a cleanup does -/

/-- The owner that an operation of the log discharged. -/
def LifecycleOperation.discharged (operation : LifecycleOperation) : Option String :=
  if operation.allocationEffect = some "release" then operation.ownershipTransfer else none

/-- A scope without the entries of some owners. -/
def Scope.without (gone : List OwnerId) (scope : Scope) : Scope :=
  { scope with entries := scope.entries.filter fun entry => ∀ o ∈ gone, entry ≠ .owner o }

theorem Scope.without_nil (scope : Scope) : scope.without [] = scope := by
  simp [Scope.without]

theorem Scope.without_without (scope : Scope) (gone gone' : List OwnerId) :
    (scope.without gone).without gone' = scope.without (gone ++ gone') := by
  simp only [Scope.without, List.filter_filter, mem_append, or_imp, forall_and, Bool.decide_and,
    Bool.and_comm]

theorem Scope.without_eq_self {gone : List OwnerId} {scope : Scope}
    (h : ∀ o ∈ gone, .owner o ∉ scope.entries) : scope.without gone = scope := by
  have hall : ∀ entry ∈ scope.entries, ∀ o ∈ gone, entry ≠ .owner o := by
    rintro _ hentry o ho rfl
    exact h o ho hentry
  rw [Scope.without, filter_eq_self.2 fun entry hentry => decide_eq_true (hall entry hentry)]

/-- **Discharge.**  From `σ` to `σ'` exactly the owners of `gone` are dropped, in this order, and the
open resources among `closed` are closed. -/
structure Discharges (σ σ' : LifecycleRuntime) (gone : List OwnerId) (closed : List ResourceId) :
    Prop where
  owners : ∀ x : OwnerId, σ'.owners[x]? = σ.owners[x]?.map fun q =>
    if x ∈ gone then { q with status := .dropped, parent := none } else q
  live : ∀ x ∈ gone, ∃ q, σ.live x = some q
  nodup : gone.Nodup
  storage : ∀ a : Nat, (∀ x ∈ gone, ∀ q, σ.live x = some q → q.allocation ≠ a) →
    σ'.allocations[a]? = σ.allocations[a]?
  borrows : σ'.borrows = σ.borrows
  nextId : σ'.nextId = σ.nextId
  resources : ∀ id : ResourceId, σ'.resources[id]? = σ.resources[id]?.map fun v =>
    if id ∈ closed ∧ v.status = .active then { v with status := .closed } else v
  scopes : σ'.scopes = σ.scopes.map (Scope.without gone)
  log : ∃ log, σ'.operations = σ.operations ++ log ∧
    log.filterMap LifecycleOperation.discharged = gone.map fun o => "discharges:" ++ toString o.raw

namespace Discharges

variable {gone gone' : List OwnerId} {closed closed' : List ResourceId}

theorem refl (σ : LifecycleRuntime) : Discharges σ σ [] [] where
  owners x := by simp
  live x hx := absurd hx not_mem_nil
  nodup := nodup_nil
  storage a _ := rfl
  borrows := rfl
  nextId := rfl
  resources id := by simp
  scopes := by
    rw [funext Scope.without_nil, List.map_id']
  log := ⟨[], by simp, rfl⟩

section

variable (h : Discharges σ σ' gone closed)
include h

theorem live_iff : σ'.live x = some r ↔ x ∉ gone ∧ σ.live x = some r := by
  rw [live_eq_some, h.owners, live_eq_some]
  by_cases hx : x ∈ gone
  · simp only [hx, not_true_eq_false, false_and, iff_false, not_and]
    intro hlookup
    obtain ⟨q, -, rfl⟩ := map_eq_some_iff.1 hlookup
    simp
  · simp [hx]

theorem settles : Settles σ σ' where
  live {x r'} hr' := ⟨r', (h.live_iff.1 hr').2, rfl, fun _ hp => hp⟩
  known {x q} hq := by
    rw [h.owners, hq]
    exact ⟨_, rfl⟩

theorem trans (h' : Discharges σ' σ'' gone' closed') :
    Discharges σ σ'' (gone ++ gone') (closed ++ closed') where
  owners x := by
    rw [h'.owners, h.owners, Option.map_map]
    congr 1
    funext q
    by_cases hx : x ∈ gone <;> by_cases hx' : x ∈ gone' <;> simp [hx, hx']
  live x hx := by
    rcases mem_append.1 hx with hx | hx
    · exact h.live x hx
    · obtain ⟨q, hq⟩ := h'.live x hx
      exact ⟨q, (h.live_iff.1 hq).2⟩
  nodup := by
    refine nodup_append.2 ⟨h.nodup, h'.nodup, fun x hx y hy hxy => ?_⟩
    subst hxy
    obtain ⟨q, hq⟩ := h'.live x hy
    exact (h.live_iff.1 hq).1 hx
  storage a ha := by
    rw [h'.storage a, h.storage a]
    · exact fun x hx => ha x (mem_append_left _ hx)
    · exact fun x hx q hq => ha x (mem_append_right _ hx) q (h.live_iff.1 hq).2
  borrows := h'.borrows.trans h.borrows
  nextId := h'.nextId.trans h.nextId
  resources id := by
    rw [h'.resources, h.resources, Option.map_map]
    congr 1
    funext v
    by_cases hid : id ∈ closed <;> by_cases hid' : id ∈ closed' <;>
      by_cases hv : v.status = .active <;> simp [hid, hid', hv]
  scopes := by
    simp only [h'.scopes, h.scopes, List.map_map, Function.comp_def, Scope.without_without]
  log := by
    obtain ⟨log, hlog, hgone⟩ := h.log
    obtain ⟨log', hlog', hgone'⟩ := h'.log
    refine ⟨log ++ log', ?_, ?_⟩
    · rw [hlog', hlog, append_assoc]
    · rw [filterMap_append, hgone, hgone', map_append]

theorem entries (id : ResourceId) (hid : .resource id ∈ σ'.entries) : .resource id ∈ σ.entries := by
  simp only [LifecycleRuntime.entries, h.scopes, mem_flatMap, List.mem_map] at hid ⊢
  obtain ⟨_, ⟨scope, hscope, rfl⟩, hid⟩ := hid
  exact ⟨scope, hscope, (mem_filter.1 hid).1⟩

theorem record (operation : LifecycleOperation) (hoperation : operation.discharged = none) :
    Discharges σ { σ' with operations := σ'.operations ++ [operation] } gone closed :=
  { h with
    log := by
      obtain ⟨log, hlog, hgone⟩ := h.log
      refine ⟨log ++ [operation], ?_, ?_⟩
      · show σ'.operations ++ [operation] = _
        rw [hlog, append_assoc]
      · rw [filterMap_append, hgone]
        simp [hoperation] }

end

end Discharges

theorem entries_removed (scopes : List Scope) (o : OwnerId) : (scopes.map fun scope : Scope =>
        { scope with
          entries := scope.entries.filter fun entry => entry != ScopeEntry.owner o }).flatMap
      Scope.entries = (scopes.flatMap Scope.entries).filter (· != ScopeEntry.owner o) := by
  rw [flatMap_map, filter_flatMap]

/-- The parent of an owner no longer lists it. -/
def LifecycleRuntime.unlinked (σ : LifecycleRuntime) (o : OwnerId) (parent : Option OwnerId) :
    LifecycleRuntime :=
  { σ with
    owners := match parent with
      | some p => σ.owners.modify p fun q => { q with children := q.children.filter (· != o) }
      | none => σ.owners }

theorem getElem?_unlinked (σ : LifecycleRuntime) (o x : OwnerId) (parent : Option OwnerId) :
    (σ.unlinked o parent).owners[x]? = σ.owners[x]?.map fun q =>
      { q with
        children := if parent = some x then q.children.filter (· ≠ o) else q.children } := by
  cases parent with
  | none => simp [unlinked]
  | some p =>
    simp only [unlinked]
    cases hx : σ.owners[x]? with
    | none => simp [getElem?_modify_eq_ite, hx]
    | some q =>
      cases q
      grind

theorem live_unlinked (parent : Option OwnerId) : (σ.unlinked o parent).live x = (σ.live x).map fun q =>
      { q with
        children := if parent = some x then q.children.filter (· ≠ o) else q.children } := by
  simp only [live, getElem?_unlinked]
  cases σ.owners[x]? with
  | none => rfl
  | some q => by_cases hq : q.status = .active <;> simp [Option.filter]

variable {gone : List OwnerId}

/-- The drop of an owner, put together from its mark, the drops of its children and its release. -/
theorem Discharges.complete {operation : LifecycleOperation}
    (hforest : IsForest σ.links) (ho : σ.live o = some r)
    (h : Discharges { σ with owners := detachedOwners σ.owners o r } σ' gone [])
    (hchildren : ∀ c ∈ r.children, c ∈ gone)
    (hoperation : operation.discharged = some ("discharges:" ++ toString o.raw)) :
    Discharges (σ.unlinked o r.parent)
      { σ' with
        allocations := σ'.allocations.erase r.allocation
        scopes := σ'.scopes.map fun scope : Scope =>
          { scope with entries := scope.entries.filter fun entry => entry != ScopeEntry.owner o }
        operations := σ'.operations ++ [operation] } (gone ++ [o]) [] := by
  have hbefore : ∀ x ∈ gone, x ≠ o ∧ ∃ q, σ.live x = some q := by
    intro x hx
    obtain ⟨q, hq⟩ := h.live x hx
    obtain ⟨hne, q', hq', -⟩ := (live_detach_eq_some hforest ho).1 hq
    exact ⟨hne, q', hq'⟩
  have hnot : o ∉ gone := fun hmem => (hbefore o hmem).1 rfl
  have hall : ∀ x ∈ gone ++ [o], ∃ q, σ.live x = some q := by
    intro x hx
    rcases mem_append.1 hx with hx | hx
    · exact (hbefore x hx).2
    · exact ⟨r, mem_singleton.1 hx ▸ ho⟩
  refine ⟨fun x => ?_, fun x hx => ?_, ?_, fun a ha => ?_, h.borrows, h.nextId, h.resources,
    ?_, ?_⟩
  · show σ'.owners[x]? = _
    rw [h.owners, getElem?_detachedOwners, getElem?_unlinked, Option.map_map, Option.map_map]
    congr 1
    funext q
    have hx := hchildren x
    by_cases hgone : x ∈ gone
    · have hne := (hbefore x hgone).1
      simp [hgone, hne]
    · have hchild : x ∉ r.children := fun hmem => hgone (hx hmem)
      by_cases hxo : x = o <;> simp [hgone, hchild, hxo, hnot]
  · obtain ⟨q, hq⟩ := hall x hx
    rw [live_unlinked, hq]
    exact ⟨_, rfl⟩
  · refine nodup_append.2 ⟨h.nodup, nodup_singleton o, fun x hx y hy hxy => ?_⟩
    rw [mem_singleton.1 hy] at hxy
    exact hnot (hxy ▸ hx)
  · -- the storage of the owners above is not touched
    have hkept : ∀ x ∈ gone ++ [o], ∀ q, σ.live x = some q → q.allocation ≠ a := by
      intro x hx q hq
      have hlive := live_unlinked (o := o) (x := x) (σ := σ) r.parent
      rw [hq, map_some] at hlive
      have hkept := ha x hx _ hlive
      exact hkept
    show (σ'.allocations.erase r.allocation)[a]? = _
    rw [getElem?_erase_eq_ite, if_neg (hkept o (by simp) r ho), h.storage a]
    · rfl
    · intro x hx q hq
      obtain ⟨-, q', hq', rfl⟩ := (live_detach_eq_some hforest ho).1 hq
      exact hkept x (mem_append_left _ hx) q' hq'
  · have hremoved : (fun scope : Scope =>
        { scope with entries := scope.entries.filter fun entry => entry != .owner o }) =
        Scope.without [o] := by
      funext scope
      simp only [Scope.without, forall_mem_singleton, ne_eq, decide_not]
      rfl
    show σ'.scopes.map _ = σ.scopes.map _
    rw [hremoved, h.scopes, List.map_map]
    exact map_congr_left fun scope _ => scope.without_without gone [o]
  · obtain ⟨log, hlog, hgone⟩ := h.log
    refine ⟨log ++ [operation], ?_, ?_⟩
    · show σ'.operations ++ [operation] = _
      rw [hlog, append_assoc]
      rfl
    · rw [filterMap_append, hgone, map_append]
      simp [hoperation]

/-! ### Cleanup loops -/

/-- A call failed with an error of the source, in a state with the property `I`. -/
def Fails (I : LifecycleRuntime → Prop) (stop : Stop) (σ : LifecycleRuntime) : Prop :=
  (∃ e, stop = .error e) ∧ I σ

theorem exec_attempt (step : Lifecycle Unit) (σ : LifecycleRuntime) : exec (attempt step) σ =
      match exec step σ with
      | (.ok (), σ') => (.ok none, σ')
      | (.error (.error e), σ') => (.ok (some e), σ')
      | (.error stop, σ') => (.error stop, σ') := rfl

variable {α : Type}

/-- **Cleanup loops.**  The invariant is indexed by what is still to do.  The loop would go on after an
error; where no step fails, none is reported. -/
theorem wp_attemptAll (step : α → Lifecycle Unit) {I : List α → LifecycleRuntime → Prop}
    (hstep : ∀ a rest σ, I (a :: rest) σ → wp (step a) (fun _ => I rest) Never σ) :
    ∀ (todo : List α) (σ : LifecycleRuntime), I todo σ →
      wp (attemptAll step todo) (fun e σ' => e = none ∧ I [] σ') Never σ := by
  intro todo
  induction todo with
  | nil => simp [attemptAll]
  | cons a rest ih =>
    intro σ h
    have hattempt : wp (attempt (step a)) (fun e σ' => e = none ∧ I rest σ') Never σ := by
      have ha := hstep a rest σ h
      unfold wp at ha ⊢
      rw [exec_attempt]
      cases hrun : exec (step a) σ with
      | mk result σ' =>
        rw [hrun] at ha
        cases result with
        | ok u => exact ⟨rfl, ha⟩
        | error stop => exact ha.elim
    simp only [attemptAll, wp_bind]
    refine wp_mono hattempt ?_ (fun _ _ _ hfalse => hfalse)
    rintro _ σ' - ⟨rfl, hrest⟩
    refine wp_mono (ih σ' hrest) ?_ (fun _ _ _ hfalse => hfalse)
    rintro _ σ'' - ⟨rfl, hdone⟩
    exact ⟨rfl, hdone⟩

theorem wp_record (operation : LifecycleOperation) : wp (record operation) Q E σ ↔
      Q () { σ with operations := σ.operations ++ [operation] } := Iff.rfl

theorem wp_requireDroppable (ho : σ.live o = some r) : wp (requireDroppable o) Q E σ ↔ Q () σ := by
  obtain ⟨hlookup, hactive⟩ := live_eq_some.1 ho
  simp [requireDroppable, wp_owner hlookup, hactive]

section

variable (hforest : IsForest σ.links) (ho : σ.live o = some r)
include hforest ho

theorem wp_rejectBorrowedSubtree : wp (rejectBorrowedSubtree o) (fun _ σ' => σ' = σ ∧ BorrowFree σ o)
      (Fails fun σ' => σ' = σ ∧ ¬ BorrowFree σ o) σ := by
  simp only [rejectBorrowedSubtree, wp_bind]
  refine wp_mono (wp_firstBorrowedInSubtree hforest ho) ?_ (fun _ _ _ hf => hf.elim)
  rintro hit σ' - ⟨rfl, hhit⟩
  cases hit with
  | none => exact ⟨rfl, hhit.1 rfl⟩
  | some borrowed =>
    have hnot : ¬ BorrowFree σ' o := fun h => by cases hhit.2 h
    exact ⟨⟨_, rfl⟩, rfl, hnot⟩

theorem wp_detach :
    wp (detach o r) Q E σ ↔ Q () { σ with owners := detachedOwners σ.owners o r } := by
  have hlookup := (live_eq_some.1 ho).1
  have hchildren : ∀ c ∈ r.children, ∃ q, σ.owners[c]? = some q := by
    intro c hc
    obtain ⟨q, hq, -⟩ := exists_live_child hforest ho hc
    exact ⟨q, (live_eq_some.1 hq).1⟩
  -- what follows the unlinking, from any table that knows the same owners
  have hrest : ∀ m : TreeMap OwnerId Owner, (∃ q, m[o]? = some q) →
      (∀ c ∈ r.children, ∃ q, m[c]? = some q) → (wp (do
          updateOwner o fun q => { q with status := .dropped }
          updateOwner o fun q => { q with parent := none }
          forEach (fun child => updateOwner child fun q => { q with parent := none }) r.children)
        Q E { σ with owners := m } ↔
      Q () { σ with
        owners := r.children.foldl (fun m child => m.modify child fun q => { q with parent := none })
          ((m.modify o fun q => { q with status := .dropped }).modify o
            fun q => { q with parent := none }) }) := by
    intro m ho hm
    obtain ⟨q, hq⟩ := ho
    obtain ⟨q', hq'⟩ :=
      exists_getElem?_modify ⟨q, hq⟩ o fun q : Owner => { q with status := .dropped }
    rw [wp_bind, wp_updateOwner hq, wp_bind, wp_updateOwner hq',
      wp_forEach_updateOwner]
    intro c hc
    exact exists_getElem?_modify (exists_getElem?_modify (hm c hc) _ _) _ _
  cases hparent : r.parent with
  | none =>
    simp only [detach, unlink, detachedOwners, hparent]
    exact hrest σ.owners ⟨r, hlookup⟩ hchildren
  | some parent =>
    obtain ⟨q, hq, -⟩ := exists_live_parent hforest ho hparent
    simp only [detach, unlink, detachedOwners, hparent]
    rw [wp_bind, wp_updateOwner (live_eq_some.1 hq).1]
    exact hrest _ (exists_getElem?_modify ⟨r, hlookup⟩ _ _)
      fun c hc => exists_getElem?_modify (hchildren c hc) _ _

/-- The children of an owner that is being dropped are roots, and their aggregates are as before. -/
theorem cleanupOrder_detached (hc : c ∈ r.children) {n m : Nat} (hn : σ.weight c < n)
    (hm : σ.weight c < m) (h : Discharges { σ with owners := detachedOwners σ.owners o r } σ' gone []) :
    cleanupOrder σ'.owners m c = cleanupOrder σ.owners n c := by
  obtain ⟨q, hq, hbelow⟩ := exists_live_child hforest ho hc
  refine cleanupOrder_congr hforest n m c q hq hn hm fun x hx => ?_
  -- only the parent of `o` gets another list, and it is above `c`
  have hparent : r.parent ≠ some x := by
    intro hrx
    have hup : Below σ.links o x := ⟨r.links, links_of_live ho, hrx⟩
    exact hforest.acyclic o (.head' hup (hx.tail hbelow))
  rw [h.owners, getElem?_detachedOwners, Option.map_map, Option.map_map]
  congr 1
  funext q
  by_cases hgone : x ∈ gone <;> simp [hgone, hparent]

end

/-- **The drop of an aggregate.**  In a consistent runtime the drop of an active owner without
borrows below it succeeds, and it drops the owners of the aggregate in order.  The induction is on the
rounds, which exceed the size of the aggregate. -/
theorem wp_dropOwnerWithin :
    ∀ (rounds : Nat) (o : OwnerId) (r : Owner) (pending : List ScopeEntry)
      (released : List (OwnerId × Nat)) (σ : LifecycleRuntime),
      Inv pending released σ → σ.live o = some r → BorrowFree σ o → σ.weight o < rounds →
      wp (dropOwnerWithin rounds o)
        (fun _ σ' => Inv (pending.erase (.owner o)) released σ' ∧
          Discharges (σ.unlinked o r.parent) σ' (cleanupOrder σ.owners rounds o) []) Never σ := by
  intro rounds
  induction rounds with
  | zero =>
    intro o r pending released σ _ _ _ hweight
    omega
  | succ rounds ih =>
    intro o r pending released σ h ho hfree hweight
    have hlookup := (live_eq_some.1 ho).1
    simp only [dropOwnerWithin, wp_bind, wp_requireDroppable ho]
    refine wp_mono (wp_rejectBorrowedSubtree h.forest ho) ?_ (fun _ _ _ hf => hf.2.2 hfree)
    rintro - σ₀ - ⟨rfl, -⟩
    simp only [wp_owner hlookup, wp_detach h.forest ho]
    have hdetached := settles_detach h.forest ho
    have hchildren := (borrowFree_iff h.forest ho).1 hfree
    -- the children that are still to drop are pending, unborrowed and lighter than `o`
    have hloop := wp_attemptAll (dropOwnerWithin rounds)
      (I := fun todo σ' =>
        Inv (todo.map .owner ++ pending.erase (.owner o)) ((o, r.allocation) :: released) σ' ∧
          ∃ dropped, r.children.reverse = dropped ++ todo ∧
            Discharges { σ₀ with owners := detachedOwners σ₀.owners o r } σ'
              (dropped.flatMap (cleanupOrder σ₀.owners rounds)) [])
      (by
        rintro c rest σ₁ ⟨hinv, dropped, hsplit, hdone⟩
        have hsettles := hdetached.trans hdone.settles
        have hc : c ∈ r.children := mem_reverse.1 (by rw [hsplit]; simp)
        obtain ⟨q, hq⟩ := hinv.pending_live (o := c) (by simp)
        have hroot := hinv.pending_root (by simp) hq
        have hlt := weight_lt_of_mem h.forest ho hc
        have hle := hsettles.weight_le c
        refine wp_mono (ih c q _ _ σ₁ hinv hq (hsettles.borrowFree (hchildren.2 c hc)) (by omega))
          ?_ (fun _ _ _ hf => hf.elim)
        rintro - σ₂ - ⟨hinv₂, hdropped⟩
        refine ⟨by simpa using hinv₂, dropped ++ [c], by simpa using hsplit, ?_⟩
        rw [hroot, cleanupOrder_detached (n := rounds) h.forest ho hc (by omega) (by omega) hdone]
          at hdropped
        simpa using hdone.trans hdropped)
      r.children.reverse _
      ⟨(h.detach ho hchildren.1).perm
          ((reverse_perm r.children).symm.map _ |>.append_right _),
        [], rfl, Discharges.refl _⟩
    refine wp_mono hloop ?_ (fun _ _ _ hf => hf)
    rintro _ σ₁ - ⟨rfl, hinv, dropped, hsplit, hdone⟩
    rw [append_nil] at hsplit
    rw [← hsplit] at hdone
    have hgone : σ₁.live o = none := by
      rw [eq_none_iff_forall_ne_some]
      intro q hq
      exact ((live_detach_eq_some h.forest ho).1 (hdone.live_iff.1 hq).2).1 rfl
    obtain ⟨q, hq⟩ := (hdetached.trans hdone.settles).known hlookup
    have hreleased := hinv.release hgone _ (entries_removed σ₁.scopes o)
    refine (wp_owner (by exact hq)).2 ⟨hreleased.log _, ?_⟩
    rw [cleanupOrder_succ ho]
    refine Discharges.complete h.forest ho hdone (fun c hc => ?_) rfl
    obtain ⟨k, hk, -⟩ := exists_live_child h.forest ho hc
    have hlt := weight_lt_of_mem h.forest ho hc
    exact mem_flatMap.2 ⟨c, mem_reverse.2 hc,
      (mem_cleanupOrder h.forest rounds c k hk (by omega)).2 .refl⟩

/-! ### The two entry points -/

/-- Between two calls. -/
abbrev Consistent (σ : LifecycleRuntime) : Prop := Inv [] [] σ

theorem Inv.live_of_listed (h : Consistent σ) (ho : .owner o ∈ σ.entries) : ∃ r, σ.live o = some r :=
  (h.listed ho).resolve_right fun ⟨_, ha⟩ => by cases ha

theorem Inv.owner_of_stored (h : Consistent σ) {y : Allocation}
    (hy : σ.allocations[a]? = some y) : ∃ o r, σ.live o = some r ∧ r.allocation = a :=
  (h.backed hy).resolve_right fun ⟨_, ha⟩ => by cases ha

variable {id : ResourceId}

theorem Inv.listed_resource (h : Consistent σ) (hv : σ.resources[id]? = some v)
    (hactive : v.status = .active) : .resource id ∈ σ.entries := by
  simpa using h.kept hv hactive

theorem Inv.placed_now (h : Consistent σ) (ho : σ.live o = some r) :
    σ.entries.count (.owner o) + (if r.parent.isSome then 1 else 0) = 1 := by
  simpa using h.placed ho

/-- The owners of the aggregate below `o`, in the order of their drop. -/
def LifecycleRuntime.aggregate (σ : LifecycleRuntime) (o : OwnerId) : List OwnerId :=
  cleanupOrder σ.owners (σ.owners.size + 1) o

/-- The drop of an active owner with nothing borrowed below it. -/
theorem wp_dropOwner_of_live (h : Inv pending released σ) (ho : σ.live o = some r)
    (hfree : BorrowFree σ o) :
    wp (dropOwner o) (fun _ σ' => Inv (pending.erase (.owner o)) released σ' ∧
      Discharges (σ.unlinked o r.parent) σ' (σ.aggregate o) []) Never σ := by
  have hsize := weight_le_size σ o
  exact wp_dropOwnerWithin _ o r pending released σ h ho hfree (by omega)

/-- A drop that is refused changes nothing. -/
theorem wp_dropValue (h : Consistent σ) (o : OwnerId) : wp (dropValue o)
      (fun _ σ' => Consistent σ' ∧ ∃ r, σ.live o = some r ∧ BorrowFree σ o ∧
        Discharges (σ.unlinked o r.parent) σ' (σ.aggregate o) [])
      (Fails fun σ' => σ' = σ ∧ ¬ ((∃ r, σ.live o = some r) ∧ BorrowFree σ o)) σ := by
  cases ho : σ.live o with
  | some r =>
    by_cases hfree : BorrowFree σ o
    · refine wp_mono (wp_dropOwner_of_live h ho hfree) ?_ (fun _ _ _ hf => hf.elim)
      rintro - σ' - ⟨hinv, hdropped⟩
      exact ⟨hinv, r, rfl, hfree, hdropped⟩
    · -- a borrow below `o`: nothing has changed yet
      simp only [dropValue, dropOwner, wp_bind, wp_get, dropOwnerWithin, wp_requireDroppable ho]
      refine wp_mono (wp_rejectBorrowedSubtree h.forest ho) ?_ ?_
      · rintro - σ' - ⟨rfl, hf⟩
        exact absurd hf hfree
      · rintro stop σ' - ⟨herror, rfl, -⟩
        exact ⟨herror, rfl, fun hf => hfree hf.2⟩
  | none =>
    simp only [dropValue, dropOwner, wp_bind, wp_get, dropOwnerWithin, requireDroppable, owner]
    cases hlookup : σ.owners[o]? with
    | none => exact ⟨⟨_, rfl⟩, rfl, by simp⟩
    | some r =>
      simp only [wp_pure]
      cases hstatus : r.status with
      | active => simp [live, hlookup, hstatus] at ho
      | moved | dropped => exact ⟨⟨_, rfl⟩, rfl, by simp⟩

theorem wp_resource {Q : Resource → LifecycleRuntime → Prop}
    (h : σ.resources[id]? = some v) : wp (resource id) Q E σ ↔ Q v σ := by
  simp [resource, h]

theorem wp_updateResource {f : Resource → Resource} (h : σ.resources[id]? = some v) :
    wp (updateResource id f) Q E σ ↔ Q () { σ with resources := σ.resources.modify id f } := by
  simp [updateResource, wp_resource h]

/-- A pending entry of a resource can go when the resource is no longer active. -/
theorem Inv.discharge (h : Inv pending released σ) (id : ResourceId)
    (resources : TreeMap ResourceId Resource)
    (hothers : ∀ id' v, resources[id']? = some v → v.status = .active →
      id' ≠ id ∧ σ.resources[id']? = some v) :
    Inv (pending.erase (.resource id)) released { σ with resources := resources } := by
  refine h.regroup le_rfl h.drawn (fun o => ?_) (fun _ hx => hx) (fun o hx => ?_)
    (fun id' v hv hactive => ?_)
  · have herase : (pending.erase (.resource id)).count (.owner o) = pending.count (.owner o) :=
      count_erase_of_ne (by simp)
    rw [count_append, count_append, herase]
    rfl
  · exact h.pending_live (mem_of_mem_erase hx)
  · obtain ⟨hne, hv⟩ := hothers id' v hv hactive
    rcases mem_append.1 (h.kept hv hactive) with hmem | hmem
    · exact mem_append_left _ hmem
    · exact mem_append_right _ ((mem_erase_of_ne (by simpa using hne)).2 hmem)

theorem wp_closeResource (h : Inv pending released σ)
    (hv : σ.resources[id]? = some v) (hactive : v.status = .active) : wp (closeResource id)
      (fun _ σ' => Inv (pending.erase (.resource id)) released σ' ∧ Discharges σ σ' [] [id])
      Never σ := by
  simp only [closeResource, wp_bind, wp_resource hv, hactive, wp_updateResource hv]
  have hclosed := h.discharge id (σ.resources.modify id fun r => { r with status := .closed }) (by
    intro id' v' hv' hactive
    rw [getElem?_modify_eq_ite] at hv'
    split at hv'
    · obtain ⟨w, -, rfl⟩ := map_eq_some_iff.1 hv'
      cases hactive
    · next hne => exact ⟨Ne.symm hne, hv'⟩)
  refine ⟨hclosed.log _, { Discharges.refl σ with resources := fun id' => ?_, log := ?_ }⟩
  · show (σ.resources.modify id _)[id']? = _
    rw [getElem?_modify_eq_ite]
    by_cases hid : id = id'
    · subst hid
      simp [hv, hactive]
    · simp [hid, Ne.symm hid]
  · exact ⟨_, rfl, rfl⟩

/-- The entry of a resource that was not moved away. -/
theorem wp_dropResource (h : Inv pending released σ)
    (hv : σ.resources[id]? = some v) (hmoved : v.status ≠ .moved) : wp (dropResource id)
      (fun _ σ' => Inv (pending.erase (.resource id)) released σ' ∧ Discharges σ σ' [] [id])
      Never σ := by
  simp only [dropResource, wp_bind, wp_resource hv]
  cases hstatus : v.status with
  | moved => exact absurd hstatus hmoved
  | active => exact wp_closeResource h hv hstatus
  | closed =>
    refine ⟨h.discharge id σ.resources fun id' w hw hactive => ⟨?_, hw⟩,
      { Discharges.refl σ with resources := fun id' => ?_ }⟩
    · rintro rfl
      rw [hv] at hw
      cases hw
      rw [hstatus] at hactive
      cases hactive
    · by_cases hid : id' = id
      · subst hid
        simp [hv, hstatus]
      · simp [hid]

/-- Nothing below the owners of a list of entries is borrowed. -/
def EntriesBorrowFree (σ : LifecycleRuntime) (entries : List ScopeEntry) : Prop :=
  ∀ o, .owner o ∈ entries → BorrowFree σ o

theorem wp_rejectBorrowed (hforest : IsForest σ.links) :
    ∀ entries : List ScopeEntry, (∀ o, .owner o ∈ entries → ∃ r, σ.live o = some r) →
      wp (rejectBorrowed entries) (fun _ σ' => σ' = σ ∧ EntriesBorrowFree σ entries)
        (Fails fun σ' => σ' = σ ∧ ¬ EntriesBorrowFree σ entries) σ := by
  intro entries
  induction entries with
  | nil =>
    intro _
    simp [rejectBorrowed, EntriesBorrowFree]
  | cons entry entries ih =>
    intro hlive
    have hrest := ih fun o ho => hlive o (mem_cons_of_mem _ ho)
    have hlater : ¬ EntriesBorrowFree σ entries → ¬ EntriesBorrowFree σ (entry :: entries) :=
      fun hnot hall => hnot fun o ho => hall o (mem_cons_of_mem _ ho)
    cases entry with
    | resource id =>
      refine wp_mono hrest ?_ (fun _ _ _ hf => ⟨hf.1, hf.2.1, hlater hf.2.2⟩)
      rintro - σ' - ⟨rfl, hfree⟩
      exact ⟨rfl, fun o ho => hfree o (by simpa using ho)⟩
    | owner o =>
      obtain ⟨r, hr⟩ := hlive o mem_cons_self
      simp only [rejectBorrowed, wp_bind]
      refine wp_mono (wp_rejectBorrowedSubtree hforest hr) ?_
        (fun _ _ _ hf => ⟨hf.1, hf.2.1, fun hall => hf.2.2 (hall o mem_cons_self)⟩)
      rintro - σ' - ⟨rfl, hfree⟩
      refine wp_mono hrest ?_ (fun _ _ _ hf => ⟨hf.1, hf.2.1, hlater hf.2.2⟩)
      rintro - σ'' - ⟨rfl, hfrees⟩
      refine ⟨rfl, fun o' ho' => ?_⟩
      rcases mem_cons.1 ho' with heq | ho'
      · cases heq
        exact hfree
      · exact hfrees o' ho'

theorem wp_recordAll (operation : α → LifecycleOperation) : ∀ (actions : List α) (σ : LifecycleRuntime),
      (wp (forEach (fun action => record (operation action)) actions) Q E σ ↔
        Q () { σ with operations := σ.operations ++ actions.map operation }) := by
  intro actions
  induction actions with
  | nil =>
    intro σ
    simp [forEach]
  | cons action actions ih =>
    intro σ
    simp [forEach, wp_record, ih]

/-- No entry of a scope belongs to a resource that was moved away. -/
structure Filed (σ : LifecycleRuntime) : Prop where
  listed : ∀ id, .resource id ∈ σ.entries →
    ∃ v : Resource, σ.resources[id]? = some v ∧ v.status ≠ .moved
  fresh : ∀ {id : ResourceId} {v : Resource}, σ.resources[id]? = some v → id.raw < σ.nextId

/-- The owners that an entry discharges. -/
def ScopeEntry.owners (σ : LifecycleRuntime) : ScopeEntry → List OwnerId
  | .owner o => σ.aggregate o
  | .resource _ => []

/-- The resource that an entry discharges. -/
def ScopeEntry.resources : ScopeEntry → List ResourceId
  | .owner _ => []
  | .resource id => [id]

variable {closed : List ResourceId}

section

variable (h : Discharges σ σ' gone closed)
include h

theorem Discharges.unmoved (hv : σ.resources[id]? = some v) (hmoved : v.status ≠ .moved) :
    ∃ v' : Resource, σ'.resources[id]? = some v' ∧ v'.status ≠ .moved := by
  rw [h.resources, hv]
  refine ⟨_, rfl, ?_⟩
  dsimp only
  split
  · simp
  · exact hmoved

theorem Discharges.filed (hfiled : Filed σ) : Filed σ' where
  listed id hid := by
    obtain ⟨v, hv, hmoved⟩ := hfiled.listed id (h.entries id hid)
    exact h.unmoved hv hmoved
  fresh {id v} hv := by
    rw [h.resources, map_eq_some_iff] at hv
    obtain ⟨v', hv', -⟩ := hv
    rw [h.nextId]
    exact hfiled.fresh hv'

/-- Cleanup keeps the lists of children, and so the aggregates that are still to drop. -/
theorem Discharges.aggregate (hforest : IsForest σ'.links) (ho : σ'.live o = some r) :
    σ'.aggregate o = σ.aggregate o := by
  have hsize := weight_le_size σ' o
  have hsize' := weight_le_size σ o
  have hweight := h.settles.weight_le o
  refine (cleanupOrder_congr hforest _ _ o r ho (by omega) (by omega) fun x _ => ?_).symm
  rw [h.owners, Option.map_map]
  congr 1
  funext q
  by_cases hx : x ∈ gone <;> simp [hx]

end

/-- One entry of the scope that is being left. -/
theorem wp_dropEntry {entry : ScopeEntry} {rest : List ScopeEntry} (hstart : Discharges σ σ' gone closed)
    (h : Inv (entry :: rest) [] σ') (hfree : EntriesBorrowFree σ' (entry :: rest))
    (hfiled : ∀ id, entry = .resource id →
      ∃ v : Resource, σ.resources[id]? = some v ∧ v.status ≠ .moved) :
    wp (dropEntry entry) (fun _ σ'' => Inv rest [] σ'' ∧ EntriesBorrowFree σ'' rest ∧
        Discharges σ σ'' (gone ++ entry.owners σ) (closed ++ entry.resources)) Never σ' := by
  have hafter : ∀ σ'' gone' closed', Inv ((entry :: rest).erase entry) [] σ'' →
      Discharges σ' σ'' gone' closed' → Inv rest [] σ'' ∧ EntriesBorrowFree σ'' rest := by
    intro σ'' gone' closed' hinv hstep
    rw [erase_cons_head] at hinv
    exact ⟨hinv, fun o ho => hstep.settles.borrowFree (hfree o (mem_cons_of_mem _ ho))⟩
  cases entry with
  | owner o =>
    obtain ⟨r, hr⟩ := h.pending_live mem_cons_self
    have hroot := h.pending_root mem_cons_self hr
    refine wp_mono (wp_dropOwner_of_live h hr (hfree o mem_cons_self)) ?_ (fun _ _ _ hf => hf)
    rintro - σ'' - ⟨hinv, hdropped⟩
    rw [hroot, hstart.aggregate h.forest hr] at hdropped
    exact ⟨(hafter _ _ _ hinv hdropped).1, (hafter _ _ _ hinv hdropped).2, hstart.trans hdropped⟩
  | resource id =>
    obtain ⟨v, hv, hmoved⟩ := hfiled id rfl
    obtain ⟨v', hv', hmoved'⟩ := hstart.unmoved hv hmoved
    refine wp_mono (wp_dropResource h hv' hmoved') ?_ (fun _ _ _ hf => hf)
    rintro - σ'' - ⟨hinv, hdropped⟩
    exact ⟨(hafter _ _ _ hinv hdropped).1, (hafter _ _ _ hinv hdropped).2, hstart.trans hdropped⟩

/-- **Leaving a scope.**  Either there is no scope, or a borrow keeps it open, and nothing changes; or
every entry is discharged, the last one first. -/
theorem wp_exitScope (h : Consistent σ) (hfiled : Filed σ) (reason : ExitReason) : wp (exitScope reason)
      (fun _ σ' => Consistent σ' ∧ ∃ scope outer, σ.scopes = scope :: outer ∧
        EntriesBorrowFree σ scope.entries ∧ Discharges { σ with scopes := outer } σ'
          (scope.entries.reverse.flatMap (·.owners σ)) (scope.entries.reverse.flatMap (·.resources)))
      (Fails fun σ' => σ' = σ ∧ ∀ scope outer, σ.scopes = scope :: outer →
        ¬ EntriesBorrowFree σ scope.entries) σ := by
  cases hscopes : σ.scopes with
  | nil =>
    simp only [exitScope, wp_bind, wp_get, hscopes]
    exact ⟨⟨_, rfl⟩, rfl, by simp⟩
  | cons scope outer =>
    have hentries : σ.entries = scope.entries ++ outer.flatMap (·.entries) := by
      simp [entries, hscopes]
    have hlive : ∀ o, .owner o ∈ scope.entries → ∃ r, σ.live o = some r :=
      fun o ho => h.live_of_listed (by simp [hentries, ho])
    simp only [exitScope, wp_bind, wp_get, hscopes]
    refine wp_mono (wp_rejectBorrowed h.forest scope.entries hlive) ?_ ?_
    swap
    · rintro stop σ' - ⟨herror, rfl, hnot⟩
      exact ⟨herror, rfl, fun _ _ heq => (cons.inj heq).1 ▸ hnot⟩
    rintro - σ₀ - ⟨rfl, hfree⟩
    simp only [hscopes, head?_cons, expect, wp_pure, wp_modify, wp_recordAll]
    -- the popped entries become pending
    generalize hops : σ₀.operations ++ _ = operations
    have hpopped : Inv scope.entries.reverse []
        { σ₀ with scopes := outer, operations := operations } := by
      have hdrawn : σ₀.nextId ≤ 2 * operations.length + 1 := by
        have := h.drawn
        rw [← hops, length_append]
        omega
      refine h.regroup le_rfl hdrawn (fun o => ?_) (fun o ho => ?_)
        (fun o ho => ?_) (fun id v hv ha => ?_)
      · rw [hentries]
        simp only [append_nil, count_append, count_reverse]
        omega
      · rw [hentries]
        exact mem_append_right _ ho
      · exact hlive o (mem_reverse.1 ho)
      · have hmem := h.listed_resource hv ha
        rw [hentries] at hmem
        simp only [mem_append, mem_reverse] at hmem ⊢
        exact hmem.symm
    have hstart : Discharges { σ₀ with scopes := outer }
        { σ₀ with scopes := outer, operations := operations } [] [] :=
      { Discharges.refl { σ₀ with scopes := outer } with
        log := by
          refine ⟨_, hops.symm, ?_⟩
          simp [LifecycleOperation.discharged] }
    have hloop := wp_attemptAll dropEntry
      (I := fun todo σ' => Inv todo [] σ' ∧ EntriesBorrowFree σ' todo ∧
        ∃ left, scope.entries.reverse = left ++ todo ∧
          Discharges { σ₀ with scopes := outer } σ' (left.flatMap (·.owners σ₀))
            (left.flatMap (·.resources)))
      (by
        rintro entry rest σ₁ ⟨hinv, hfree₁, left, hsplit, hdone⟩
        refine wp_mono (wp_dropEntry hdone hinv hfree₁ fun id heq => hfiled.listed id ?_) ?_
          (fun _ _ _ hf => hf.elim)
        · rw [hentries, ← heq]
          exact mem_append_left _ (mem_reverse.1 (by rw [hsplit]; simp))
        · rintro - σ₂ - ⟨hinv₂, hfree₂, hdone₂⟩
          refine ⟨hinv₂, hfree₂, left ++ [entry], by simpa using hsplit, ?_⟩
          simp only [flatMap_append, flatMap_singleton]
          exact hdone₂)
      scope.entries.reverse _
      ⟨hpopped, fun o ho => hfree o (mem_reverse.1 ho), [], rfl, hstart⟩
    refine wp_mono hloop ?_ (fun _ _ _ hf => hf.elim)
    rintro _ σ₁ - ⟨rfl, hinv, -, left, hsplit, hdone⟩
    rw [append_nil] at hsplit
    rw [← hsplit] at hdone
    refine ⟨hinv.log _, scope, outer, rfl, hfree, ?_⟩
    exact hdone.record _ rfl

end Axiomc.Runtime
