import Axiomc.Foundation.Forest
import Axiomc.Foundation.OrderedMap
import Mathlib.Data.Finset.Max

/-!
# Cycle detection by degrees, and closure under edges

Two loops over a finite multigraph given by its list of edges, as they are written with ordered maps
and sets.

* `sweep` removes a node without incoming edges, lowers the degrees of its targets and goes on with
  those that reach zero.  `sweepAll_spec`: it removes every node exactly when the graph has no
  cycle.  `none` stands for a missing node, a degree that would drop below zero, or a loop that does
  not end; none of them happens.
* `closeUnder` adds the targets of the edges that start in a set until a pass adds nothing.
  `closeUnder_spec`: the result holds exactly the nodes reachable from the set.
-/

namespace Axiomc.Foundation

open Std Relation TreeSet

variable {α : Type} {cmp : α → α → Ordering}

/-- There is an edge from `a` to `b`. -/
def Edge (edges : List (α × α)) (a b : α) : Prop := (a, b) ∈ edges

/-! ### The sweep -/

/-- The degree table and the set of nodes whose degree is zero. -/
structure Sweep (α : Type) (cmp : α → α → Ordering) where
  incoming : TreeMap α Nat cmp
  ready : TreeSet α cmp

/-- The number of edges into each node. -/
def countIncoming (nodes : List α) (edges : List (α × α)) : Option (TreeMap α Nat cmp) :=
  edges.foldlM
    (fun incoming edge => incoming[edge.2]?.map fun degree => incoming.insert edge.2 (degree + 1))
    (nodes.foldl (fun incoming node => incoming.insert node 0) ∅)

/-- The targets of the edges out of each node, in the order of the edges. -/
def outgoing (edges : List (α × α)) : TreeMap α (List α) cmp :=
  edges.foldl
    (fun targets edge => targets.insert edge.1 (targets.getD edge.1 [] ++ [edge.2])) ∅

/-- One edge less into `target`. -/
def relax (state : Sweep α cmp) (target : α) : Option (Sweep α cmp) := do
  let degree ← state.incoming[target]?
  if degree = 0 then
    none
  else
    some
      { incoming := state.incoming.insert target (degree - 1)
        ready := if degree - 1 = 0 then state.ready.insert target else state.ready }

/-- Remove ready nodes, the smallest first; the number of removed nodes and the final degrees. -/
def sweep (targets : TreeMap α (List α) cmp) :
    Nat → Sweep α cmp → Nat → Option (Nat × TreeMap α Nat cmp)
  | rounds, state, visited =>
    match state.ready.toList.head? with
    | none => some (visited, state.incoming)
    | some node =>
      match rounds with
      | 0 => none
      | rounds + 1 => do
        let next ← (targets.getD node []).foldlM relax { state with ready := state.ready.erase node }
        sweep targets rounds next (visited + 1)

/-- The nodes of degree zero. -/
def sources (incoming : TreeMap α Nat cmp) : TreeSet α cmp :=
  incoming.toList.foldl (fun ready entry => if entry.2 = 0 then ready.insert entry.1 else ready) ∅

/-- The whole detection. -/
def sweepAll (nodes : List α) (edges : List (α × α)) : Option (Nat × TreeMap α Nat cmp) := do
  let incoming ← countIncoming nodes edges
  sweep (outgoing edges) incoming.size { incoming := incoming, ready := sources incoming } 0

/-! ### Closure -/

/-- One pass over the edges. -/
def closePass (edges : List (α × α)) (set : TreeSet α cmp) : TreeSet α cmp :=
  edges.foldl (fun set edge => if set.contains edge.1 then set.insert edge.2 else set) set

/-- Passes until one adds nothing. -/
def closeUnder (edges : List (α × α)) : Nat → TreeSet α cmp → Option (TreeSet α cmp)
  | 0, _ => none
  | rounds + 1, set =>
    let next := closePass edges set
    if next.size = set.size then some next else closeUnder edges rounds next

section

open List

variable [DecidableEq α] [TransCmp cmp] [LawfulEqCmp cmp]
  {nodes visited : List α} {edges : List (α × α)} {state state' : Sweep α cmp}

/-- The number of edges into `node` from nodes that were not visited. -/
def degree (edges : List (α × α)) (visited : List α) (node : α) : Nat :=
  edges.countP fun edge => edge.2 = node ∧ edge.1 ∉ visited

/-- The targets of the edges out of a node. -/
def targetsOf (edges : List (α × α)) (node : α) : List α :=
  (edges.filter fun edge => edge.1 = node).map Prod.snd

/-- What the sweep maintains: `visited` is closed under predecessors and free of cycles, and the
degrees count the edges from the other nodes, plus those to `rest` that are still to be taken off. -/
structure Swept (nodes : List α) (edges : List (α × α)) (visited rest : List α)
    (state : Sweep α cmp) : Prop where
  nodup : visited.Nodup
  subset : ∀ x ∈ visited, x ∈ nodes
  closed : ∀ a b, Edge edges a b → b ∈ visited → a ∈ visited
  acyclic : ∀ x ∈ visited, ¬ TransGen (Edge edges) x x
  degrees : ∀ x ∈ nodes, state.incoming[x]? = some (degree edges visited x + rest.count x)
  ready : ∀ x, x ∈ state.ready ↔ x ∈ nodes ∧ x ∉ visited ∧ state.incoming[x]? = some 0
  known : ∀ x ∈ state.incoming, x ∈ nodes

theorem targets_outgoing (edges : List (α × α)) (node : α) :
    (outgoing edges : TreeMap α (List α) cmp).getD node [] = targetsOf edges node := by
  have hfold : ∀ (rest : List (α × α)) (m : TreeMap α (List α) cmp), (rest.foldl (fun targets edge =>
        targets.insert edge.1 (targets.getD edge.1 [] ++ [edge.2])) m).getD node [] =
        m.getD node [] ++ targetsOf rest node := by
    intro rest
    induction rest with
    | nil =>
      intro m
      simp [targetsOf]
    | cons edge rest ih =>
      intro m
      rw [foldl_cons, ih]
      by_cases h : edge.1 = node
      · subst h
        simp [targetsOf]
      · simp [targetsOf, TreeMap.getD_insert, h]
  have := hfold edges ∅
  simpa [outgoing] using this

theorem count_targetsOf (edges : List (α × α)) (node x : α) :
    (targetsOf edges node).count x = edges.countP fun edge => edge.2 = x ∧ edge.1 = node := by
  rw [targetsOf, count, countP_map, countP_filter]
  exact countP_congr fun edge _ => by simp

/-- The edges into `x` from the unvisited nodes, before and after `node` is visited. -/
theorem degree_visit {node : α} (hnew : node ∉ visited) (x : α) :
    degree edges visited x = degree edges (node :: visited) x + (targetsOf edges node).count x := by
  rw [count_targetsOf]
  induction edges with
  | nil => rfl
  | cons edge edges ih =>
    simp only [degree, countP_cons] at ih ⊢
    rw [ih]
    by_cases hx : edge.2 = x
    · by_cases hnode : edge.1 = node
      · simp [hnode, hnew]
        omega
      · simp [hnode]
        omega
    · simp [hx]

variable {x target : α} {rest : List α} {incoming : TreeMap α Nat cmp}

theorem degree_eq_zero : degree edges visited x = 0 ↔ ∀ a, Edge edges a x → a ∈ visited := by
  simp only [degree, countP_eq_zero]
  constructor
  · intro h a ha
    have := h (a, x) ha
    simpa using this
  · rintro h ⟨a, b⟩ hedge
    simp only [decide_eq_true_eq, not_and, not_not]
    rintro rfl
    exact h a hedge

section

variable (h : Swept nodes edges visited (target :: rest) state) (hnode : target ∈ nodes)
include h hnode

omit [TransCmp cmp] [LawfulEqCmp cmp] in
/-- An edge that is still to be taken off was counted. -/
theorem Swept.positive : ∃ count, state.incoming[target]? = some (count + 1) := by
  have hdegree := h.degrees target hnode
  rw [count_cons_self] at hdegree
  exact ⟨_, hdegree⟩

/-- Taking one edge off. -/
theorem Swept.relax (hnew : target ∉ visited) :
    ∃ state', relax state target = some state' ∧ Swept nodes edges visited rest state' := by
  have hdegree := h.degrees target hnode
  rw [count_cons_self, ← Nat.add_assoc] at hdegree
  refine ⟨_, by simp only [Foundation.relax, hdegree]; rfl, ?_⟩
  have hlookup : ∀ x, (state.incoming.insert target
      (degree edges visited target + rest.count target))[x]? =
      if target = x then some (degree edges visited target + rest.count target)
      else state.incoming[x]? := fun x => getElem?_insert_cmp _ _ _ _
  exact
  { h with
    degrees := by
      intro x hx
      rw [Nat.add_sub_cancel, hlookup]
      split
      · next heq => rw [heq]
      · next hne => rw [h.degrees x hx, count_cons_of_ne hne]
    ready := by
      intro x
      rw [Nat.add_sub_cancel, hlookup]
      by_cases hzero : degree edges visited target + rest.count target = 0
      · rw [if_pos hzero, mem_insert, h.ready x]
        by_cases hx : target = x
        · subst hx
          simp [hnode, hnew, hzero]
        · simp [hx]
      · rw [if_neg hzero, h.ready x]
        by_cases hx : target = x
        · subst hx
          simp only [hdegree, Option.some.injEq, Nat.add_eq_zero_iff, Nat.one_ne_zero]
          simpa using fun _ _ => hzero
        · simp [hx]
    known := by
      intro x hx
      rcases TreeMap.mem_insert.1 hx with heq | hx
      · rwa [← LawfulEqCmp.eq_of_compare heq]
      · exact h.known x hx }

end

theorem Swept.relaxAll : ∀ (rest : List α) (state : Sweep α cmp), Swept nodes edges visited rest state →
      (∀ x ∈ rest, x ∈ nodes ∧ x ∉ visited) →
      ∃ state', rest.foldlM Foundation.relax state = some state' ∧
        Swept nodes edges visited [] state' := by
  intro rest
  induction rest with
  | nil =>
    intro state h _
    exact ⟨state, rfl, h⟩
  | cons target rest ih =>
    intro state h hrest
    obtain ⟨hnode, hnew⟩ := hrest target mem_cons_self
    obtain ⟨next, hnext, h'⟩ := h.relax hnode hnew
    obtain ⟨final, hfinal, h''⟩ := ih next h' fun x hx => hrest x (mem_cons_of_mem _ hx)
    exact ⟨final, by rw [foldlM_cons, hnext]; exact hfinal, h''⟩

omit [DecidableEq α] in
/-- A visited node with all its predecessors visited lies on no cycle. -/
theorem acyclic_visit {node : α} (hclosed : ∀ a b, Edge edges a b → b ∈ visited → a ∈ visited)
    (hacyclic : ∀ x ∈ visited, ¬ TransGen (Edge edges) x x) (hnew : node ∉ visited)
    (hpreds : ∀ a, Edge edges a node → a ∈ visited) :
    ∀ x ∈ node :: visited, ¬ TransGen (Edge edges) x x := by
  intro x hx hcycle
  rcases mem_cons.1 hx with rfl | hx
  · -- the last node before `x` is visited, so everything that leads to it is
    obtain ⟨p, hpath, hedge⟩ := TransGen.tail'_iff.1 hcycle
    have hback : ∀ y, ReflTransGen (Edge edges) y p → y ∈ visited := by
      intro y hy
      induction hy using ReflTransGen.head_induction_on with
      | refl => exact hpreds p hedge
      | head hstep _ ih => exact hclosed _ _ hstep ih
    exact hnew (hback x hpath)
  · exact hacyclic x hx hcycle

/-- Removing a ready node. -/
theorem Swept.visit {node : α} (h : Swept nodes edges visited [] state)
    (hedges : ∀ a b, Edge edges a b → b ∈ nodes) (hready : node ∈ state.ready) :
    Swept nodes edges (node :: visited) (targetsOf edges node)
        { state with ready := state.ready.erase node } ∧
      ∀ x ∈ targetsOf edges node, x ∈ nodes ∧ x ∉ node :: visited := by
  obtain ⟨hnode, hnew, hzero⟩ := (h.ready node).1 hready
  have hdegree : degree edges visited node = 0 := by
    have := h.degrees node hnode
    rw [hzero] at this
    simpa using this.symm
  have hpreds := degree_eq_zero.1 hdegree
  have htargets : ∀ x, x ∈ targetsOf edges node → Edge edges node x := by
    intro x hx
    simp only [targetsOf, mem_map, mem_filter, decide_eq_true_eq] at hx
    obtain ⟨⟨a, b⟩, ⟨hmem, rfl⟩, rfl⟩ := hx
    exact hmem
  refine ⟨⟨nodup_cons.2 ⟨hnew, h.nodup⟩, ?_, ?_, ?_, ?_, ?_, h.known⟩, ?_⟩
  · intro x hx
    rcases mem_cons.1 hx with rfl | hx
    · exact hnode
    · exact h.subset x hx
  · intro a b hedge hb
    rcases mem_cons.1 hb with rfl | hb
    · exact mem_cons_of_mem _ (hpreds a hedge)
    · exact mem_cons_of_mem _ (h.closed a b hedge hb)
  · exact acyclic_visit h.closed h.acyclic hnew hpreds
  · intro x hx
    have := h.degrees x hx
    rw [degree_visit hnew x] at this
    simpa using this
  · intro x
    show x ∈ state.ready.erase node ↔ _
    rw [mem_erase, h.ready x, ne_eq, LawfulEqCmp.compare_eq_iff_eq, mem_cons]
    grind
  · intro x hx
    have hedge := htargets x hx
    refine ⟨hedges node x hedge, fun hmem => ?_⟩
    rcases mem_cons.1 hmem with rfl | hmem
    · exact hnew (hpreds x hedge)
    · exact hnew (h.closed node x hedge hmem)

/-- **The loop.**  It ends, with every node visited whose predecessors can all be visited. -/
theorem Swept.run (hedges : ∀ a b, Edge edges a b → b ∈ nodes) :
    ∀ (rounds : Nat) (visited : List α) (state : Sweep α cmp), Swept nodes edges visited [] state →
      nodes.length ≤ rounds + visited.length →
      ∃ final state', sweep (outgoing edges) rounds state visited.length =
          some (final.length, state'.incoming) ∧
        Swept nodes edges final [] state' ∧ ∀ x, x ∉ state'.ready := by
  intro rounds
  induction rounds using Nat.strongRecOn with
  | _ rounds ih =>
    intro visited state h hrounds
    unfold sweep
    cases hmin : state.ready.toList.head? with
    | none =>
      refine ⟨visited, state, rfl, h, ?_⟩
      rwa [← min?_eq_head?_toList, TreeSet.min?_eq_none_iff,
        isEmpty_iff_forall_not_mem] at hmin
    | some node =>
      rw [← min?_eq_head?_toList] at hmin
      obtain ⟨hvisit, htargets⟩ := h.visit hedges (contains_min? hmin)
      -- a ready node is one more to visit, so there is a round left
      have hlength := (subperm_of_subset hvisit.nodup hvisit.subset).length_le
      rw [length_cons] at hlength
      obtain ⟨next, hnext, hswept⟩ := Swept.relaxAll _ _ hvisit htargets
      cases rounds with
      | zero => omega
      | succ rounds =>
        obtain ⟨final, state', hrun, hfinal⟩ := ih rounds (Nat.lt_succ_self _) (node :: visited) next
          hswept (by simp only [length_cons]; omega)
        refine ⟨final, state', ?_, hfinal⟩
        simp only [targets_outgoing, hnext]
        exact hrun

/-! ### The start of the sweep -/

/-- The lookups after insertions whose values are a function of the keys. -/
theorem getElem?_foldl_insert {β γ : Type} {key : β → α} {value : β → γ} {f : α → Option γ} (x : α) :
    ∀ (entries : List β) (m : TreeMap α γ cmp), (∀ e ∈ entries, f (key e) = some (value e)) →
      (entries.foldl (fun m e => m.insert (key e) (value e)) m)[x]? =
        if x ∈ entries.map key then f x else m[x]? := by
  intro entries
  induction entries with
  | nil =>
    intro m _
    simp
  | cons e entries ih =>
    intro m hentries
    rw [foldl_cons, ih _ fun e he => hentries e (mem_cons_of_mem _ he), getElem?_insert_cmp]
    by_cases hx : key e = x
    · subst hx
      simp [hentries e mem_cons_self]
    · simp [hx, Ne.symm hx]

/-- The degree table of a graph whose edges end in its nodes. -/
theorem countIncoming_spec (hedges : ∀ a b, Edge edges a b → b ∈ nodes) :
    ∃ incoming : TreeMap α Nat cmp, countIncoming nodes edges = some incoming ∧
      ∀ x, incoming[x]? = if x ∈ nodes then some (degree edges [] x) else none := by
  have hfold : ∀ (todo : List (α × α)) (m : TreeMap α Nat cmp) (base : α → Nat),
      (∀ a b, Edge todo a b → b ∈ nodes) → (∀ x, m[x]? = if x ∈ nodes then some (base x) else none) →
      ∃ incoming : TreeMap α Nat cmp, todo.foldlM (fun incoming edge =>
          incoming[edge.2]?.map fun degree => incoming.insert edge.2 (degree + 1)) m =
            some incoming ∧
        ∀ x, incoming[x]? = if x ∈ nodes then some (base x + degree todo [] x) else none := by
    intro todo
    induction todo with
    | nil =>
      intro m base _ hm
      exact ⟨m, rfl, by simpa [degree] using hm⟩
    | cons edge todo ih =>
      intro m base htodo hm
      have hnode : edge.2 ∈ nodes := htodo edge.1 edge.2 mem_cons_self
      obtain ⟨incoming, hrun, hspec⟩ := ih (m.insert edge.2 (base edge.2 + 1))
        (fun x => base x + if edge.2 = x then 1 else 0)
        (fun a b hab => htodo a b (mem_cons_of_mem _ hab))
        (fun x => by
          rw [getElem?_insert_cmp, hm]
          by_cases hx : edge.2 = x
          · subst hx
            simp [hnode]
          · simp [hx])
      refine ⟨incoming, ?_, fun x => ?_⟩
      · rw [foldlM_cons, hm, if_pos hnode]
        exact hrun
      · rw [hspec]
        simp only [degree, countP_cons, not_mem_nil, not_false_eq_true, and_true,
          decide_eq_true_eq]
        split
        · congr 1
          omega
        · rfl
  obtain ⟨incoming, hrun, hspec⟩ := hfold edges
    (nodes.foldl (fun incoming node => incoming.insert node 0) ∅) (fun _ => 0) hedges
    (fun x => by
      rw [getElem?_foldl_insert (f := fun _ => some 0) x _ _ fun _ _ => rfl]
      simp)
  exact ⟨incoming, hrun, by simpa using hspec⟩

omit [DecidableEq α] in
theorem mem_sources : x ∈ sources incoming ↔ incoming[x]? = some 0 := by
  have hfold : ∀ (entries : List (α × Nat)) (ready : TreeSet α cmp), x ∈ entries.foldl
          (fun ready entry => if entry.2 = 0 then ready.insert entry.1 else ready) ready ↔
        x ∈ ready ∨ (x, 0) ∈ entries := by
    intro entries
    induction entries with
    | nil =>
      intro ready
      simp
    | cons entry entries ih =>
      intro ready
      obtain ⟨k, v⟩ := entry
      rw [foldl_cons, ih]
      by_cases hv : v = 0
      · grind
      · simp [hv, Ne.symm hv]
  rw [sources, hfold]
  simp

omit [DecidableEq α] in
/-- A node of least height has no predecessor among finitely many nodes without a cycle. -/
theorem exists_no_pred {nodes : Finset α} {r : α → α → Prop} (hne : nodes.Nonempty)
    (hacyclic : ∀ x, ¬ TransGen r x x) : ∃ x ∈ nodes, ∀ y ∈ nodes, ¬ r y x := by
  obtain ⟨x, hx, hmin⟩ := nodes.exists_min_image (fun x => (leadingTo r nodes x).card) hne
  refine ⟨x, hx, fun y hy hyx => ?_⟩
  have hlt := card_leadingTo_lt hacyclic hx hyx
  have hle := hmin y hy
  omega

/-- The degree table has an entry for each node. -/
theorem Swept.size_incoming (h : Swept nodes edges visited rest state)
    (hnodup : nodes.Nodup) : state.incoming.size = nodes.length := by
  have hkeys : ∀ x, x ∈ state.incoming.keys ↔ x ∈ nodes := by
    intro x
    rw [TreeMap.mem_keys]
    refine ⟨h.known x, fun hx => ?_⟩
    rw [TreeMap.mem_iff_isSome_getElem?, h.degrees x hx]
    rfl
  have hperm : state.incoming.keys.Perm nodes :=
    (perm_ext_iff_of_nodup TreeMap.nodup_keys hnodup).2 hkeys
  rw [← TreeMap.length_keys, hperm.length_eq]

omit [TransCmp cmp] [LawfulEqCmp cmp] in
/-- **No cycle.**  A sweep that ends removed every node exactly when there is no cycle. -/
theorem Swept.length_eq_iff {final : List α} (hfinal : Swept nodes edges final [] state)
    (hdone : ∀ x, x ∉ state.ready) (hnodup : nodes.Nodup)
    (hedges : ∀ a b, Edge edges a b → a ∈ nodes ∧ b ∈ nodes) :
    final.length = nodes.length ↔ ∀ x, ¬ TransGen (Edge edges) x x := by
  constructor
  · intro hall x hcycle
    obtain ⟨y, hxy, -⟩ := TransGen.head'_iff.1 hcycle
    have hperm := (subperm_of_subset hfinal.nodup hfinal.subset).perm_of_length_le
      (Nat.le_of_eq hall.symm)
    exact hfinal.acyclic x (hperm.mem_iff.2 (hedges x y hxy).1) hcycle
  · intro hacyclic
    by_contra hne
    -- some node is left; a least one among those left would be ready
    have hleft : (nodes.toFinset \ final.toFinset).Nonempty := by
      by_contra hnone
      rw [Finset.not_nonempty_iff_eq_empty, Finset.sdiff_eq_empty_iff_subset] at hnone
      have hsub : nodes ⊆ final := fun x hx => by
        simpa using hnone (mem_toFinset.2 hx)
      have h₁ := (subperm_of_subset hnodup hsub).length_le
      have h₂ := (subperm_of_subset hfinal.nodup hfinal.subset).length_le
      omega
    obtain ⟨x, hx, hleast⟩ := exists_no_pred hleft hacyclic
    simp only [Finset.mem_sdiff, mem_toFinset] at hx hleast
    refine hdone x ((hfinal.ready x).2 ⟨hx.1, hx.2, ?_⟩)
    rw [hfinal.degrees x hx.1, count_nil, Nat.add_zero, Option.some.injEq, degree_eq_zero]
    intro a ha
    by_contra hnew
    exact hleast a ⟨(hedges a x ha).1, hnew⟩ ha

omit [LawfulEqCmp cmp] in
/-- The sweep starts with the degrees of the graph and the nodes of degree zero. -/
theorem Swept.start {ready : TreeSet α cmp}
    (hdegrees : ∀ x, incoming[x]? = if x ∈ nodes then some (degree edges [] x) else none)
    (hready : ∀ x, x ∈ ready ↔ incoming[x]? = some 0) : Swept nodes edges [] [] ⟨incoming, ready⟩ :=
  ⟨nodup_nil, by simp, by simp, by simp, fun x hx => by simp [hdegrees, hx],
    fun x => by
      rw [hready]
      by_cases hx : x ∈ nodes <;> simp [hdegrees, hx],
    fun x hx => by
      by_contra hnot
      rw [TreeMap.mem_iff_isSome_getElem?, hdegrees, if_neg hnot] at hx
      cases hx⟩

/-- **Cycle detection.**  On a graph whose edges join its nodes the sweep ends, and it removes every
node exactly when there is no cycle. -/
theorem sweepAll_spec (hnodup : nodes.Nodup) (hedges : ∀ a b, Edge edges a b → a ∈ nodes ∧ b ∈ nodes) :
    ∃ (count : Nat) (incoming : TreeMap α Nat cmp),
      sweepAll nodes edges = some (count, incoming) ∧ incoming.size = nodes.length ∧
      (count = nodes.length ↔ ∀ x, ¬ TransGen (Edge edges) x x) := by
  have hheads := fun a b hab => (hedges a b hab).2
  have hinitial : ∃ incoming : TreeMap α Nat cmp, countIncoming nodes edges = some incoming ∧
      ∀ x, incoming[x]? = if x ∈ nodes then some (degree edges [] x) else none :=
    countIncoming_spec hheads
  obtain ⟨incoming, hcount, hdegrees⟩ := hinitial
  have hstart : Swept nodes edges [] [] ⟨incoming, sources incoming⟩ :=
    Swept.start hdegrees fun _ => mem_sources
  have hsize := hstart.size_incoming hnodup
  obtain ⟨final, state, hrun, hfinal, hdone⟩ :=
    Swept.run hheads incoming.size [] _ hstart (by simpa using hsize.ge)
  refine ⟨final.length, state.incoming, ?_, hfinal.size_incoming hnodup,
    hfinal.length_eq_iff hdone hnodup hedges⟩
  simp only [sweepAll, hcount]
  exact hrun

/-! ### Closure -/

/-- One pass keeps a set of reachable nodes, and adds the targets of the edges that start in it. -/
theorem closePass_spec {start : Finset α} : ∀ (todo : List (α × α)), (∀ e ∈ todo, e ∈ edges) →
      ∀ (set : TreeSet α cmp) (held : Finset α), Holds set held →
        (∀ x ∈ held, ∃ r ∈ start, ReflTransGen (Edge edges) r x) →
        ∃ held' : Finset α, Holds (closePass todo set) held' ∧ held ⊆ held' ∧
          (∀ x ∈ held', ∃ r ∈ start, ReflTransGen (Edge edges) r x) ∧
          ∀ e ∈ todo, e.1 ∈ held → e.2 ∈ held' := by
  intro todo
  induction todo with
  | nil =>
    intro _ set held hholds hreach
    exact ⟨held, hholds, Finset.Subset.refl _, hreach, by simp⟩
  | cons edge todo ih =>
    intro hsub set held hholds hreach
    have hedge : Edge edges edge.1 edge.2 := hsub edge mem_cons_self
    have htodo : ∀ e ∈ todo, e ∈ edges := fun e he => hsub e (mem_cons_of_mem _ he)
    have hcontains : set.contains edge.1 = true ↔ edge.1 ∈ held := by
      rw [contains_iff_mem, hholds.mem_iff]
    obtain ⟨held₁, hholds₁, hle₁, hreach₁, hin₁⟩ : ∃ held₁ : Finset α,
        Holds (if set.contains edge.1 then set.insert edge.2 else set) held₁ ∧ held ⊆ held₁ ∧
          (∀ x ∈ held₁, ∃ r ∈ start, ReflTransGen (Edge edges) r x) ∧ (edge.1 ∈ held → edge.2 ∈ held₁) := by
      by_cases hfrom : edge.1 ∈ held
      · rw [if_pos (hcontains.2 hfrom)]
        refine ⟨insert edge.2 held, hholds.insert edge.2, Finset.subset_insert _ _, fun x hx => ?_,
          fun _ => Finset.mem_insert_self _ _⟩
        rcases Finset.mem_insert.1 hx with rfl | hx
        · obtain ⟨r, hr, hpath⟩ := hreach edge.1 hfrom
          exact ⟨r, hr, hpath.tail hedge⟩
        · exact hreach x hx
      · rw [if_neg (mt hcontains.1 hfrom)]
        exact ⟨held, hholds, Finset.Subset.refl _, hreach, fun hin => absurd hin hfrom⟩
    obtain ⟨held', hholds', hle, hr', hclosed⟩ := ih htodo _ held₁ hholds₁ hreach₁
    refine ⟨held', hholds', hle₁.trans hle, hr', fun e he hin => ?_⟩
    rcases mem_cons.1 he with rfl | he
    · exact hle (hin₁ hin)
    · exact hclosed e he (hle₁ hin)

/-- **Closure.**  With a round for every node that can be added, the passes end with exactly the nodes
reachable from the start. -/
theorem closeUnder_spec {start bound : Finset α}
    (hedges : ∀ a b, Edge edges a b → b ∈ bound) (hstart : start ⊆ bound) :
    ∀ (rounds : Nat) (set : TreeSet α cmp) (held : Finset α), Holds set held → start ⊆ held →
      held ⊆ bound → (∀ x ∈ held, ∃ r ∈ start, ReflTransGen (Edge edges) r x) →
      bound.card < rounds + held.card →
      ∃ (final : TreeSet α cmp) (reached : Finset α), closeUnder edges rounds set = some final ∧
        Holds final reached ∧ ∀ x, x ∈ reached ↔ ∃ r ∈ start, ReflTransGen (Edge edges) r x := by
  intro rounds
  induction rounds with
  | zero =>
    intro set held _ _ hin _ hcard
    have := Finset.card_le_card hin
    omega
  | succ rounds ih =>
    intro set held hholds hsub hin hreach hcard
    obtain ⟨held', hholds', hle, hreach', hclosed⟩ :=
      closePass_spec edges (fun _ he => he) set held hholds hreach
    have hin' : held' ⊆ bound := by
      intro x hx
      obtain ⟨r, hr, hpath⟩ := hreach' x hx
      rcases ReflTransGen.cases_tail hpath with rfl | ⟨y, -, hyx⟩
      · exact hstart hr
      · exact hedges y x hyx
    by_cases hsize : (closePass edges set).size = set.size
    · -- nothing was added: the set is closed under the edges
      have heq : held = held' := Finset.eq_of_subset_of_card_le hle
        (by rw [← hholds.size_eq, ← hholds'.size_eq, hsize])
      refine ⟨closePass edges set, held', by simp [closeUnder, hsize], hholds',
        fun x => ⟨hreach' x, ?_⟩⟩
      rintro ⟨r, hr, hpath⟩
      induction hpath with
      | refl => exact hle (hsub hr)
      | tail _ hstep hmem => exact hclosed _ hstep (heq ▸ hmem)
    · have hlt : held.card < held'.card := by
        have hle' := Finset.card_le_card hle
        rw [← hholds.size_eq, ← hholds'.size_eq] at *
        omega
      obtain ⟨final, reached, hrun, hspec⟩ :=
        ih _ held' hholds' (hsub.trans hle) hin' hreach' (by omega)
      exact ⟨final, reached, by simp [closeUnder, hsize, hrun], hspec⟩

end

end Axiomc.Foundation
