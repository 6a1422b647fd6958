import Axiomc.Foundation.Counted
import Axiomc.Foundation.Topological
import Axiomc.Trust.Signers
import Mathlib.Algebra.Order.BigOperators.Group.List
import Mathlib.Algebra.Order.Ring.Nat

/-!
# Key and delegation graphs

`validate_key_supersession` counts the entries that name each key and takes off a stack the keys that
no remaining entry names.  `role_maps` follows `delegated_by` from every role.  Both graphs come from
the document: entries may repeat, name no key, or lead back.

* `validateKeySupersessionChecked` is the function with its subtraction checked and the passes of all its
  loops counted.  `Stacked` is the invariant of the sweep with a stack in place of the ordered set.
* `walkRoles` is the walk without a bound on the names it has met.
-/

namespace Axiomc.Trust

open Foundation Collect Std Relation TreeMap List

variable {graph : TreeMap Text (List Text) byteOrder} {visited rest : List Text}
  {state : TreeMap Text Nat byteOrder × List Text}

/-! ### The loop over the stack -/

/-- `*count -= 1` on a count of zero is an underflow. -/
def releaseChecked (state : TreeMap Text Nat byteOrder × List Text) (predecessor : Text) :
    Option (TreeMap Text Nat byteOrder × List Text) :=
  if state.1[predecessor]? = some 0 then none else some (releasePredecessor state predecessor)

/-- The visited keys; `none` stands for an underflow, and for a stack that is not empty after `rounds`
keys. -/
def countOrderedChecked (graph : TreeMap Text (List Text) byteOrder) :
    Nat → TreeMap Text Nat byteOrder → List Text → Counted Nat
  | _, _, [] => pure 0
  | 0, _, _ :: _ => StateT.lift none
  | rounds + 1, incoming, keyId :: ready => do
    tick
    let state ← loop (fun state id => StateT.lift (releaseChecked state id)) (incoming, ready)
      (graph.getD keyId [])
    let visited ← countOrderedChecked graph rounds state.1 state.2
    pure (visited + 1)

/-- The entries that name a key, one edge each. -/
def arcs (graph : TreeMap Text (List Text) byteOrder) : List (Text × Text) :=
  graph.toList.flatMap fun entry => (entry.2.filter graph.contains).map fun id => (entry.1, id)

theorem edge_arcs {a b : Text} :
    Edge (arcs graph) a b ↔ (∃ ids, graph[a]? = some ids ∧ b ∈ ids) ∧ b ∈ graph := by
  simp only [Edge, arcs, mem_flatMap, mem_map, mem_filter, Prod.exists, Prod.mk.injEq,
    mem_toList_iff_getElem?_eq_some]
  constructor
  · rintro ⟨id, ids, hids, b', ⟨hb, hknown⟩, rfl, rfl⟩
    exact ⟨⟨ids, hids, hb⟩, hknown⟩
  · rintro ⟨⟨ids, hids, hb⟩, hknown⟩
    exact ⟨a, ids, hids, b, ⟨hb, hknown⟩, rfl, rfl⟩

theorem arcs_known {a b : Text} (h : Edge (arcs graph) a b) : a ∈ graph.keys ∧ b ∈ graph.keys := by
  obtain ⟨⟨ids, hids, -⟩, hb⟩ := edge_arcs.1 h
  refine ⟨mem_keys.2 ?_, mem_keys.2 hb⟩
  rw [mem_iff_isSome_getElem?, hids]
  rfl

/-- The edges out of a key are its entries that name a key. -/
theorem targetsOf_arcs (id : Text) :
    targetsOf (arcs graph) id = (graph.getD id []).filter graph.contains := by
  have hnone : ∀ entries : List (Text × List Text), (∀ e ∈ entries, e.1 ≠ id) →
      targetsOf (entries.flatMap fun entry =>
        (entry.2.filter graph.contains).map fun p => (entry.1, p)) id = [] := by
    intro entries hne
    simp only [targetsOf, map_eq_nil_iff, filter_eq_nil_iff, mem_flatMap, mem_map,
      decide_eq_true_eq]
    rintro edge ⟨entry, hentry, p, -, rfl⟩
    exact hne entry hentry
  cases hids : graph[id]? with
  | none =>
    rw [getD_eq_getD_getElem?, hids]
    refine hnone _ fun entry hentry heq => ?_
    rw [← heq, mem_toList_iff_getElem?_eq_some.1 hentry] at hids
    cases hids
  | some ids =>
    -- the entry of `id` stands once in the list, between entries of other keys
    have hmem : (id, ids) ∈ graph.toList := mem_toList_iff_getElem?_eq_some.2 hids
    obtain ⟨before, after, hsplit⟩ := append_of_mem hmem
    have hdistinct := distinct_keys_toList (t := graph)
    rw [hsplit, pairwise_append, pairwise_cons] at hdistinct
    have hne : ∀ e ∈ before ++ after, e.1 ≠ id := by
      intro e he heq
      rcases mem_append.1 he with he | he
      · exact hdistinct.2.2 e he _ mem_cons_self (heq ▸ ReflCmp.compare_self)
      · exact hdistinct.2.1.1 e he (heq ▸ ReflCmp.compare_self)
    have hbefore := hnone before fun e he => hne e (mem_append_left _ he)
    have hafter := hnone after fun e he => hne e (mem_append_right _ he)
    simp only [targetsOf] at hbefore hafter
    simp [targetsOf, arcs, hsplit, getD_eq_getD_getElem?, hids, hbefore, hafter, filter_map]

/-- **The counts.**  Every key is counted once for each entry that names it. -/
theorem countPredecessors_spec (x : Text) : (countPredecessors graph)[x]? =
      if x ∈ graph.keys then some (degree (arcs graph) [] x) else none := by
  have hfold : ∀ (ids : List Text) (m : TreeMap Text Nat byteOrder),
      (ids.foldl (fun m id => m.modify id (· + 1)) m)[x]? = m[x]?.map (· + ids.count x) := by
    intro ids
    induction ids with
    | nil =>
      intro m
      simp
    | cons id ids ih =>
      intro m
      rw [foldl_cons, ih, TreeMap.getElem?_modify]
      by_cases hx : id = x
      · subst hx
        simp [Nat.add_comm, Nat.add_left_comm, Function.comp_def]
      · simp [hx]
  have hmap : (arcs graph).map Prod.snd = (graph.toList.flatMap Prod.snd).filter graph.contains := by
    simp [arcs, map_flatMap, filter_flatMap]
  rw [countPredecessors, ← foldl_flatMap, hfold,
    getElem?_foldl_insert (f := fun _ => some 0) x _ _ (by simp), map_fst_toList_eq_keys]
  split
  · next hx =>
    rw [← count_filter (contains_iff_mem.2 (mem_keys.1 hx)), ← hmap, count,
      countP_map, Option.map_some, Nat.zero_add]
    exact congrArg some (countP_congr fun e _ => by simp)
  · rfl

/-- The invariant of the sweep, with the ready keys on a stack. -/
def Stacked (graph : TreeMap Text (List Text) byteOrder) (visited rest : List Text)
    (state : TreeMap Text Nat byteOrder × List Text) : Prop :=
  state.2.Nodup ∧ ∃ ready : TreeSet Text byteOrder, (∀ x, x ∈ ready ↔ x ∈ state.2) ∧
    Swept graph.keys (arcs graph) visited rest ⟨state.1, ready⟩

/-- An entry that names a key: its count is positive. -/
theorem Stacked.release {id : Text} (h : Stacked graph visited (id :: rest) state)
    (hknown : id ∈ graph.keys) (hnew : id ∉ visited) :
    releaseChecked state id = some (releasePredecessor state id) ∧
      Stacked graph visited rest (releasePredecessor state id) := by
  obtain ⟨hnodup, ready, hready, hswept⟩ := h
  obtain ⟨count, hcount⟩ := hswept.positive hknown
  obtain ⟨next, hnext, hswept'⟩ := hswept.relax hknown hnew
  simp only [relax, hcount, Option.bind_eq_bind, Option.bind_some, Nat.add_one_ne_zero, if_false,
    Nat.add_sub_cancel, Option.some.injEq] at hnext
  subst hnext
  refine ⟨if_neg (by simp [hcount]), ?_⟩
  simp only [releasePredecessor, hcount, Nat.add_sub_cancel]
  refine ⟨?_, _, fun x => ?_, hswept'⟩
  · split
    · refine nodup_cons.2 ⟨fun hmem => ?_, hnodup⟩
      have hzero := ((hswept.ready id).1 ((hready id).2 hmem)).2.2
      rw [hcount] at hzero
      simp at hzero
    · exact hnodup
  · split
    · rw [TreeSet.mem_insert, LawfulEqCmp.compare_eq_iff_eq, hready, mem_cons, eq_comm]
    · exact hready x

/-- The entries of one key; those that name no key change nothing. -/
theorem Stacked.releaseAll : ∀ (ids : List Text) (state : TreeMap Text Nat byteOrder × List Text),
      Stacked graph visited (ids.filter graph.contains) state →
      (∀ id ∈ ids.filter graph.contains, id ∈ graph.keys ∧ id ∉ visited) →
      Costs (loop (fun state id => StateT.lift (releaseChecked state id)) state ids)
          (ids.foldl releasePredecessor state) ids.length ∧
        Stacked graph visited [] (ids.foldl releasePredecessor state) := by
  intro ids
  induction ids with
  | nil =>
    intro state h _
    exact ⟨costs_pure state, h⟩
  | cons id ids ih =>
    intro state h hids
    -- one pass for the entry, whether it names a key or not
    have hpass : ∀ next, releaseChecked state id = some next → ∀ last,
        Costs (loop (fun state id => StateT.lift (releaseChecked state id)) next ids) last ids.length →
        Costs (loop (fun state id => StateT.lift (releaseChecked state id)) state (id :: ids)) last
          (id :: ids).length := by
      intro next hnext last hlast
      rw [length_cons, ← Nat.zero_add ids.length, Nat.add_comm]
      exact costs_tick.bind ((costs_lift hnext).bind hlast)
    rw [foldl_cons]
    by_cases hid : graph.contains id
    · rw [filter_cons_of_pos hid] at h hids
      obtain ⟨hknown, hnew⟩ := hids id mem_cons_self
      obtain ⟨hchecked, h'⟩ := h.release hknown hnew
      obtain ⟨hcosts, hend⟩ := ih _ h' fun x hx => hids x (mem_cons_of_mem _ hx)
      exact ⟨hpass _ hchecked _ hcosts, hend⟩
    · rw [filter_cons_of_neg hid] at h hids
      have hnone : state.1[id]? = none := by
        obtain ⟨-, ready, -, hswept⟩ := h
        refine getElem?_eq_none fun hmem => hid ?_
        exact contains_iff_mem.2 (mem_keys.1 (hswept.known id hmem))
      have hsame : releasePredecessor state id = state := by
        simp only [releasePredecessor, hnone]
      have hchecked : releaseChecked state id = some state := by
        simp [releaseChecked, hnone, hsame]
      rw [hsame]
      obtain ⟨hcosts, hend⟩ := ih state h hids
      exact ⟨hpass _ hchecked _ hcosts, hend⟩

/-- One pass for a key and one for each of its entries. -/
def passes (graph : TreeMap Text (List Text) byteOrder) (ids : List Text) : Nat :=
  (ids.map fun id => 1 + (graph.getD id []).length).sum

/-- **The loop over the stack.**  It ends without an underflow; every key it visits costs one pass and
one for each of its entries. -/
theorem Stacked.run :
    ∀ (rounds : Nat) (visited : List Text) (state : TreeMap Text Nat byteOrder × List Text),
      Stacked graph visited [] state → graph.keys.length ≤ rounds + visited.length →
      ∃ final last steps, Costs (countOrderedChecked graph rounds state.1 state.2)
          (countOrdered graph rounds state.1 state.2) steps ∧
        Stacked graph final [] (last, []) ∧
        final.length = visited.length + countOrdered graph rounds state.1 state.2 ∧
        passes graph final = passes graph visited + steps := by
  intro rounds
  induction rounds using Nat.strong_induction_on with
  | _ rounds ih =>
    rintro visited ⟨incoming, ready⟩ h hrounds
    cases ready with
    | nil =>
      refine ⟨visited, incoming, 0, ?_, h, by simp [countOrdered], rfl⟩
      simpa only [countOrderedChecked, countOrdered] using costs_pure 0
    | cons id ready =>
      obtain ⟨hnodup, set, hset, hswept⟩ := h
      have hid := (hset id).2 mem_cons_self
      cases rounds with
      | zero =>
        -- every key is visited, so none is ready
        obtain ⟨hknown, hnew, -⟩ := (hswept.ready id).1 hid
        have hsub : id :: visited ⊆ graph.keys := cons_subset.2 ⟨hknown, hswept.subset⟩
        have hle := (subperm_of_subset (nodup_cons.2 ⟨hnew, hswept.nodup⟩) hsub).length_le
        simp only [length_cons] at hle
        omega
      | succ rounds =>
        obtain ⟨hvisit, htargets⟩ := hswept.visit (fun _ _ hab => (arcs_known hab).2) hid
        rw [targetsOf_arcs] at hvisit htargets
        have hstacked : Stacked graph (id :: visited) ((graph.getD id []).filter graph.contains)
            (incoming, ready) := by
          refine ⟨hnodup.of_cons, _, fun x => ?_, hvisit⟩
          grind
        obtain ⟨hchecked, hnext⟩ := Stacked.releaseAll _ _ hstacked htargets
        obtain ⟨final, last, steps, hrun, hfinal, hlength, hpasses⟩ :=
          ih rounds (Nat.lt_succ_self _) (id :: visited) _ hnext (by simp only [length_cons]; omega)
        refine ⟨final, last, 1 + ((graph.getD id []).length + (steps + 0)), ?_, hfinal, ?_, ?_⟩
        · exact costs_tick.bind (hchecked.bind (hrun.bind (costs_pure _)))
        · simp only [countOrdered]
          rw [hlength, length_cons]
          omega
        · rw [hpasses, passes, passes, map_cons, sum_cons]
          omega

/-- The keys that no entry names. -/
def unnamed (graph : TreeMap Text (List Text) byteOrder) : List Text :=
  ((countPredecessors graph).toList.filter fun entry => entry.2 == 0).map Prod.fst

theorem stacked_start (graph : TreeMap Text (List Text) byteOrder) :
    Stacked graph [] [] (countPredecessors graph, unnamed graph) := by
  have hmem : ∀ x, x ∈ unnamed graph ↔ (countPredecessors graph)[x]? = some 0 := by
    intro x
    simp [unnamed]
  refine ⟨?_, sources (countPredecessors graph), fun x => mem_sources.trans (hmem x).symm,
    Swept.start (fun x => by convert countPredecessors_spec x) fun _ => mem_sources⟩
  have hkeys : (countPredecessors graph).keys.Nodup := nodup_keys
  rw [← map_fst_toList_eq_keys] at hkeys
  exact hkeys.sublist (filter_sublist.map _)

/-- **The count.**  The loop ends without an underflow, within a pass for every key and every entry, and
it visits every key exactly when no entries lead back to the key they start from. -/
theorem countOrdered_spec (graph : TreeMap Text (List Text) byteOrder) :
    ∃ steps, Costs (countOrderedChecked graph graph.size (countPredecessors graph) (unnamed graph))
        (countOrdered graph graph.size (countPredecessors graph) (unnamed graph)) steps ∧
      steps ≤ passes graph graph.keys ∧
      (countOrdered graph graph.size (countPredecessors graph) (unnamed graph) = graph.size ↔
        ∀ x, ¬ TransGen (Edge (arcs graph)) x x) := by
  obtain ⟨final, last, steps, hrun, hfinal, hlength, hpasses⟩ :=
    Stacked.run graph.size [] _ (stacked_start graph) (by simp)
  obtain ⟨-, ready, hready, hswept⟩ := hfinal
  refine ⟨steps, hrun, ?_, ?_⟩
  · obtain ⟨kept, hperm, hsub⟩ := subperm_of_subset hswept.nodup hswept.subset
    have hle : passes graph final ≤ passes graph graph.keys := by
      rw [passes, ← (hperm.map _).sum_eq]
      exact (hsub.map _).sum_le_sum (by simp)
    omega
  · rw [← hswept.length_eq_iff (fun x hx => by simpa using (hready x).1 hx) nodup_keys
      fun _ _ => arcs_known, hlength]
    simp

/-! ### The supersession graph -/

variable {keys : KeyMap} {roles : RoleMap}

/-- `graph`: the texts that each key lists. -/
def supersessionGraph (keys : KeyMap) : TreeMap Text (List Text) byteOrder :=
  keys.toList.foldl
    (fun graph entry => graph.insert entry.1 (texts (field entry.2 "supersedes_key_ids"))) ∅

/-- The key `a` lists the key `b`. -/
def Supersedes (keys : KeyMap) (a b : Text) : Prop :=
  (∃ key, keys[a]? = some key ∧ b ∈ texts (field key "supersedes_key_ids")) ∧ b ∈ keys

/-- The number of supersession entries, whatever they are. -/
def supersessionEntries (keys : KeyMap) : Nat :=
  (keys.toList.map fun entry => (field entry.2 "supersedes_key_ids").items.length).sum

/-- The loop over the keys: the checks of a key, those of its entries, and its place in `graph`. -/
def visitKey (keys : KeyMap) (state : List (Checked Unit) × TreeMap Text (List Text) byteOrder)
    (entry : Text × Value) : Counted (List (Checked Unit) × TreeMap Text (List Text) byteOrder) := do
  let predecessors := texts (field entry.2 "supersedes_key_ids")
  let checks ← loop (fun checks predecessorId =>
      pure (checks ++ [note (predecessorInvalid keys entry.1 entry.2 predecessorId)
        .keySupersessionInvalid])) (state.1 ++ [keyChecks entry.2]) predecessors
  pure (checks, state.2.insert entry.1 predecessors)

/-- `countPredecessors`, by a loop over the keys and one over the keys and their entries. -/
def countPredecessorsCounted (graph : TreeMap Text (List Text) byteOrder) :
    Counted (TreeMap Text Nat byteOrder) := do
  let incoming ← loop (fun incoming entry => pure (incoming.insert entry.1 0)) ∅ graph.toList
  loop (fun incoming entry =>
    loop (fun incoming predecessor => pure (incoming.modify predecessor (· + 1))) incoming entry.2)
    incoming graph.toList

/-- The keys that are ready at the start, by a loop over the counts. -/
def unnamedCounted (incoming : TreeMap Text Nat byteOrder) : Counted (List Text) :=
  loop (fun ready entry => pure (if entry.2 == 0 then ready ++ [entry.1] else ready)) [] incoming.toList

/-- `validate_key_supersession` with its subtraction checked and the passes of its loops counted. -/
def validateKeySupersessionChecked (keys : KeyMap) : Counted (Checked Unit) := do
  let (checks, graph) ← loop (visitKey keys) ([], ∅) keys.toList
  let incoming ← countPredecessorsCounted graph
  let ready ← unnamedCounted incoming
  let visited ← countOrderedChecked graph graph.size incoming ready
  pure do
    checks.forM id
    note (visited ≠ graph.size) .keySupersessionInvalid

theorem getElem?_supersessionGraph (x : Text) : (supersessionGraph keys)[x]? =
      keys[x]?.map fun key => texts (field key "supersedes_key_ids") := by
  rw [supersessionGraph, getElem?_foldl_insert x, map_fst_toList_eq_keys]
  · split
    · rfl
    · next hx => simp [getElem?_eq_none (mt mem_keys.2 hx)]
  · intro e he
    rw [mem_toList_iff_getElem?_eq_some.1 he, Option.map_some]

theorem mem_supersessionGraph {x : Text} : x ∈ supersessionGraph keys ↔ x ∈ keys := by
  rw [mem_iff_isSome_getElem?, getElem?_supersessionGraph, Option.isSome_map, ← mem_iff_isSome_getElem?]

theorem edge_supersessionGraph : Edge (arcs (supersessionGraph keys)) = Supersedes keys := by
  funext a b
  simp [edge_arcs, Supersedes, getElem?_supersessionGraph, mem_supersessionGraph]

theorem keys_supersessionGraph : (supersessionGraph keys).keys.Perm keys.keys := by
  refine (perm_ext_iff_of_nodup nodup_keys nodup_keys).2 fun x => ?_
  rw [TreeMap.mem_keys, TreeMap.mem_keys, mem_supersessionGraph]

theorem size_supersessionGraph : (supersessionGraph keys).size = keys.size := by
  rw [← length_keys, ← length_keys, keys_supersessionGraph.length_eq]

theorem size_countPredecessors : (countPredecessors graph).size = graph.size := by
  rw [← length_keys, ← length_keys]
  refine ((perm_ext_iff_of_nodup nodup_keys nodup_keys).2 fun x => ?_).length_eq
  rw [TreeMap.mem_keys, mem_iff_isSome_getElem?, countPredecessors_spec]
  split <;> simp [*]

/-- A pass for every key and at most one for every entry. -/
theorem passes_supersessionGraph (keys : KeyMap) :
    passes (supersessionGraph keys) (supersessionGraph keys).keys ≤
      keys.size + supersessionEntries keys := by
  have hentry : ∀ e ∈ keys.toList, 1 + ((supersessionGraph keys).getD e.1 []).length ≤
      1 + (field e.2 "supersedes_key_ids").items.length := by
    intro e he
    rw [getD_eq_getD_getElem?, getElem?_supersessionGraph, mem_toList_iff_getElem?_eq_some.1 he]
    exact Nat.add_le_add_left (length_filterMap_le ..) 1
  rw [passes, (keys_supersessionGraph.map _).sum_eq, ← map_fst_toList_eq_keys, List.map_map]
  refine (sum_le_sum hentry).trans_eq ?_
  simp [supersessionEntries]

theorem passes_keys (graph : TreeMap Text (List Text) byteOrder) :
    passes graph graph.keys = (graph.toList.map fun entry => 1 + entry.2.length).sum := by
  rw [passes, ← map_fst_toList_eq_keys, List.map_map]
  refine congrArg sum (map_congr_left fun entry hentry => ?_)
  simp [getD_eq_getD_getElem?, mem_toList_iff_getElem?_eq_some.1 hentry]

/-! ### The passes of the loops -/

/-- The checks that the loop over the keys makes for one of them. -/
def entryChecks (keys : KeyMap) (entry : Text × Value) : List (Checked Unit) :=
  keyChecks entry.2 :: (texts (field entry.2 "supersedes_key_ids")).map fun predecessorId =>
    note (predecessorInvalid keys entry.1 entry.2 predecessorId) .keySupersessionInvalid

theorem costs_visitKey (keys : KeyMap) (state : List (Checked Unit) × TreeMap Text (List Text) byteOrder)
    (entry : Text × Value) : Costs (visitKey keys state entry)
      (state.1 ++ entryChecks keys entry,
        state.2.insert entry.1 (texts (field entry.2 "supersedes_key_ids")))
      (texts (field entry.2 "supersedes_key_ids")).length := by
  have hentries := costs_loop_pure (fun (checks : List (Checked Unit)) predecessorId =>
    checks ++ [note (predecessorInvalid keys entry.1 entry.2 predecessorId) .keySupersessionInvalid])
    (texts (field entry.2 "supersedes_key_ids")) (state.1 ++ [keyChecks entry.2])
  rw [foldl_append_eq_append, ← flatMap_def, ← map_eq_flatMap, append_assoc, singleton_append] at hentries
  rw [← Nat.add_zero (length _)]
  exact Costs.bind hentries (costs_pure (_, _))

theorem costs_visitKeys (keys : KeyMap) :
    Costs (loop (visitKey keys) ([], ∅) keys.toList)
      (keys.toList.flatMap (entryChecks keys), supersessionGraph keys)
      (keys.toList.map fun entry => 1 + (texts (field entry.2 "supersedes_key_ids")).length).sum := by
  have hfold : ∀ (entries : List (Text × Value)) (checks : List (Checked Unit))
      (graph : TreeMap Text (List Text) byteOrder),
      entries.foldl (fun state entry => (state.1 ++ entryChecks keys entry,
        state.2.insert entry.1 (texts (field entry.2 "supersedes_key_ids")))) (checks, graph) =
      (checks ++ entries.flatMap (entryChecks keys), entries.foldl (fun graph entry =>
        graph.insert entry.1 (texts (field entry.2 "supersedes_key_ids"))) graph) := by
    intro entries
    induction entries with
    | nil => simp
    | cons entry entries ih =>
      intro checks graph
      rw [foldl_cons, ih, flatMap_cons, foldl_cons, append_assoc]
  have hcosts := costs_loop (costs_visitKey keys) keys.toList ([], ∅)
  rwa [hfold, nil_append] at hcosts

theorem costs_countPredecessors (graph : TreeMap Text (List Text) byteOrder) :
    Costs (countPredecessorsCounted graph) (countPredecessors graph)
      (graph.size + passes graph graph.keys) := by
  have hzero := costs_loop_pure (fun (incoming : TreeMap Text Nat byteOrder) (entry : Text × List Text) =>
    incoming.insert entry.1 0) graph.toList ∅
  rw [length_toList] at hzero
  rw [passes_keys]
  refine hzero.bind (costs_loop (fun incoming entry => ?_) _ _)
  exact costs_loop_pure _ _ _

theorem costs_unnamed (graph : TreeMap Text (List Text) byteOrder) :
    Costs (unnamedCounted (countPredecessors graph)) (unnamed graph) graph.size := by
  have hfold : ∀ (entries : List (Text × Nat)) (ready : List Text),
      entries.foldl (fun ready entry => if entry.2 == 0 then ready ++ [entry.1] else ready) ready =
        ready ++ (entries.filter fun entry => entry.2 == 0).map Prod.fst := by
    intro entries
    induction entries with
    | nil => simp
    | cons entry entries ih =>
      intro ready
      rw [foldl_cons, ih, filter_cons]
      split <;> simp
  have hcosts := costs_loop_pure (fun (ready : List Text) (entry : Text × Nat) =>
    if entry.2 == 0 then ready ++ [entry.1] else ready) (countPredecessors graph).toList []
  rwa [hfold, length_toList, size_countPredecessors, nil_append] at hcosts

/-- The collected checks are those of `validate_key_supersession`. -/
theorem forM_entryChecks (keys : KeyMap) :
    (keys.toList.flatMap (entryChecks keys)).forM id = keys.toList.forM (supersessionStep keys) := by
  have hfailures : ((keys.toList.flatMap (entryChecks keys)).forM id).failures =
      (keys.toList.forM (supersessionStep keys)).failures := by
    rw [failures_forM, failures_forM, flatMap_assoc]
    refine congrArg (flatMap · _) (funext fun entry => ?_)
    rw [entryChecks, flatMap_cons, flatMap_map]
    exact congrArg (_ ++ ·) (failures_forM _ _).symm
  exact congrArg (Collect.mk ()) hfailures

/-- **The loops end.**  There is no underflow, and the number of passes is linear. -/
theorem costs_validateKeySupersession (keys : KeyMap) : ∃ steps,
    Costs (validateKeySupersessionChecked keys) (validateKeySupersession keys) steps ∧
      steps ≤ 5 * (keys.size + supersessionEntries keys) := by
  obtain ⟨steps, hrun, hsteps, -⟩ := countOrdered_spec (supersessionGraph keys)
  have hresult : validateKeySupersession keys = (do
      (keys.toList.flatMap (entryChecks keys)).forM id
      note (countOrdered (supersessionGraph keys) (supersessionGraph keys).size
        (countPredecessors (supersessionGraph keys)) (unnamed (supersessionGraph keys)) ≠
          (supersessionGraph keys).size) .keySupersessionInvalid) := by
    rw [forM_entryChecks]
    rfl
  rw [hresult]
  refine ⟨_, (costs_visitKeys keys).bind ((costs_countPredecessors _).bind ((costs_unnamed _).bind
    (hrun.bind (costs_pure _)))), ?_⟩
  have hentries : (keys.toList.map fun entry =>
      1 + (texts (field entry.2 "supersedes_key_ids")).length).sum ≤
      keys.size + supersessionEntries keys := by
    refine (sum_le_sum fun entry _ => Nat.add_le_add_left (length_filterMap_le ..) 1).trans_eq ?_
    simp [supersessionEntries]
  have hpasses := passes_supersessionGraph keys
  rw [size_supersessionGraph]
  omega

/-! ### The walk over the roles -/

/-- The role `a` is delegated by `b`. -/
def DelegatedBy (roles : RoleMap) (a b : Text) : Prop :=
  (roles[a]?.bind fun role => text (field role "delegated_by")) = some b

theorem DelegatedBy.mem_keys {a b : Text} (h : DelegatedBy roles a b) : a ∈ roles.keys := by
  obtain ⟨role, hrole, -⟩ := Option.bind_eq_some_iff.1 h
  rw [TreeMap.mem_keys, TreeMap.mem_iff_isSome_getElem?, hrole]
  rfl

/-- The walk along `delegated_by`; `none` when it has not ended after `rounds` names. -/
def walkRoles (roles : RoleMap) : Nat → List Text → Text → Option Bool
  | 0, _, _ => none
  | rounds + 1, seen, current =>
    if current = "root".toList then some true
    else if current ∈ seen then some false
    else
      match roles[current]?.bind fun role => text (field role "delegated_by") with
      | none => some false
      | some parent => walkRoles roles rounds (current :: seen) parent

variable {seen : List Text} {current : Text}

/-- **The walk ends.**  Every name it goes on from is a role it has not met. -/
theorem walkRoles_eq (rounds : Nat) (hnodup : seen.Nodup) (hseen : seen ⊆ roles.keys)
    (hrounds : roles.size ≤ rounds + seen.length) :
    walkRoles roles (rounds + 1) seen current = some (delegated roles rounds seen current) := by
  fun_induction delegated roles rounds seen current with
  | case1 => simp [walkRoles]
  | case2 rounds seen current hroot hmet => rw [walkRoles, if_neg hroot, if_pos hmet]
  | case3 seen current hroot hnew rounds parent hparent ih =>
    rw [walkRoles, if_neg hroot, if_neg hnew, hparent]
    exact ih (nodup_cons.2 ⟨hnew, hnodup⟩)
      (cons_subset.2 ⟨DelegatedBy.mem_keys hparent, hseen⟩) (by simp only [length_cons]; omega)
  | case4 rounds seen current hroot hnew hstop =>
    rw [walkRoles, if_neg hroot, if_neg hnew]
    cases hparent : roles[current]?.bind fun role => text (field role "delegated_by") with
    | none => rfl
    | some parent =>
      -- all the roles are met, and `current` would be one more
      have hle := (subperm_of_subset (nodup_cons.2 ⟨hnew, hnodup⟩)
        (cons_subset.2 ⟨DelegatedBy.mem_keys hparent, hseen⟩)).length_le
      rw [length_cons, length_keys] at hle
      exact (hstop (rounds - 1) parent (by omega) hparent).elim

/-- **The walk reaches the root.**  Its names are a chain of delegations without a repetition. -/
theorem path_of_delegated {rounds : Nat} (hroot : "root".toList ∉ seen)
    (h : delegated roles rounds seen current = true) :
    ∃ path : List Text, (current :: path).IsChain (DelegatedBy roles) ∧
      (current :: path).getLast? = some "root".toList ∧ (current :: path).Nodup ∧
      ∀ x ∈ current :: path, x ∉ seen := by
  fun_induction delegated roles rounds seen current with
  | case1 => exact ⟨[], by simp, by simp, by simp, by simpa using hroot⟩
  | case2 => cases h
  | case3 seen current hne hnew rounds parent hparent ih =>
    obtain ⟨path, hchain, hlast, hnodup, hfresh⟩ :=
      ih (not_mem_cons_of_ne_of_not_mem (Ne.symm hne) hroot) h
    refine ⟨parent :: path, isChain_cons_cons.2 ⟨hparent, hchain⟩, by simpa using hlast,
      nodup_cons.2 ⟨fun hmem => hfresh current hmem mem_cons_self, hnodup⟩, ?_⟩
    intro x hx
    rcases mem_cons.1 hx with rfl | hx
    · exact hnew
    · exact fun hmem => hfresh x hx (mem_cons_of_mem _ hmem)
  | case4 => cases h

/-- Every role of the document with the id `a`, and there is one, is delegated by `b`. -/
def Delegates (root : Value) (a b : Text) : Prop :=
  (∃ role ∈ (field root "roles").items, text (field role "role_id") = some a) ∧
    ∀ role ∈ (field root "roles").items, text (field role "role_id") = some a →
      text (field role "delegated_by") = some b

theorem ReadsRoles.delegates {root : Value} {a b : Text}
    (h : ReadsRoles keys (field root "roles").items roles) (hab : DelegatedBy roles a b) :
    Delegates root a b := by
  obtain ⟨role, hrole, hparent⟩ := Option.bind_eq_some_iff.1 hab
  obtain ⟨hmem, hid, -⟩ := h.found a role hrole
  refine ⟨⟨role, hmem, hid⟩, fun role' hmem' hid' => ?_⟩
  obtain ⟨id, hkept, hrole'⟩ := h.kept role' hmem'
  obtain rfl : a = id := Option.some.inj (hid'.symm.trans hkept)
  obtain rfl : role = role' := Option.some.inj (hrole.symm.trans hrole')
  exact hparent

/-! ### The checks -/

/-- **The graph checks are exact.**  `validate_key_supersession` ends without an underflow after a number
of passes linear in the keys and their entries.  What it adds after the checks of the single keys is a
failure exactly when keys supersede each other in a cycle, so with valid keys and entries it adds a
failure exactly then.  The walks of `role_maps` end, and when it adds no failure every role of the
document has an id, and following `delegated_by` from it leads to `root` along distinct names. -/
theorem graph_checks_exact (keys : KeyMap) (root : Value) :
    (∃ steps, (validateKeySupersessionChecked keys).run 0 = some (validateKeySupersession keys, steps) ∧
      steps ≤ 5 * (keys.size + supersessionEntries keys)) ∧
    (∃ last, (validateKeySupersession keys).failures =
        (keys.toList.forM (supersessionStep keys)).failures ++ last ∧
      (last ≠ [] ↔ ∃ id, TransGen (Supersedes keys) id id)) ∧
    ((∀ entry ∈ keys.toList, (supersessionStep keys entry).Clean) →
      (¬ (validateKeySupersession keys).Clean ↔ ∃ id, TransGen (Supersedes keys) id id)) ∧
    (∀ id, walkRoles (roleMaps root keys).value ((roleMaps root keys).value.size + 1) [] id =
      some (delegated (roleMaps root keys).value (roleMaps root keys).value.size [] id)) ∧
    ((roleMaps root keys).Clean → ∀ role ∈ (field root "roles").items,
      ∃ id path, text (field role "role_id") = some id ∧ (id :: path).IsChain (Delegates root) ∧
        (id :: path).getLast? = some "root".toList ∧ (id :: path).Nodup) := by
  obtain ⟨steps, hcosts, hbound⟩ := costs_validateKeySupersession keys
  obtain ⟨-, -, -, hcount⟩ := countOrdered_spec (supersessionGraph keys)
  rw [edge_supersessionGraph] at hcount
  have hcycle : countOrdered (supersessionGraph keys) (supersessionGraph keys).size
      (countPredecessors (supersessionGraph keys)) (unnamed (supersessionGraph keys)) ≠
        (supersessionGraph keys).size ↔ ∃ id, TransGen (Supersedes keys) id id := by
    rw [ne_eq, hcount]
    simp
  refine ⟨⟨steps, ?_, hbound⟩, ⟨_, rfl, ?_⟩, ?_, ?_, ?_⟩
  · rw [hcosts 0, Nat.zero_add]
  · rw [← hcycle]
    simp [note]
    rfl
  · intro hvalid
    rw [← hcycle, validateKeySupersession, clean_bind, clean_forM, and_iff_right hvalid, clean_note,
      not_not]
    rfl
  · intro id
    exact walkRoles_eq _ nodup_nil (nil_subset _) (by simp)
  · intro hclean role hmem
    have hreads := roleMaps_spec hclean
    obtain ⟨id, hid, hrole⟩ := hreads.kept role hmem
    rw [roleMaps, clean_bind, clean_bind, clean_forM] at hclean
    have hentry := hclean.2.1 (id, role) (mem_toList_iff_getElem?_eq_some.2 hrole)
    rw [clean_bind, clean_note, not_not] at hentry
    obtain ⟨path, hchain, hlast, hnodup, -⟩ := path_of_delegated (by simp) hentry.1
    exact ⟨id, path, hid, hchain.imp fun _ _ => hreads.delegates, hlast, hnodup⟩

end Axiomc.Trust
