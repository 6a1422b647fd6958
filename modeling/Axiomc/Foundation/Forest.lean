import Axiomc.Foundation.Reachability

/-!
# Forests with parent and child links

A table gives the live nodes of a structure, each with the node above it and the list of nodes
below it.  `IsForest` says that the two kinds of links agree and that the way up has no cycle.

* `IsForest.addRoot`, `IsForest.attach`, `IsForest.remove`, `IsForest.rename`: the four changes of a
  forest that the developments below use keep it one;
* `card_leadingTo_lt`: the nodes below a child, and the nodes above a parent, are fewer, which bounds
  a walk along the links by the number of nodes.
-/

namespace Axiomc.Foundation

open Relation Finset

/-- The links of one node. -/
structure Node (ι : Type) where
  parent : Option ι
  children : List ι

variable {ι : Type} {g : ι → Option (Node ι)} {a b c o p x : ι} {m n : Node ι}

/-- `c` is a live node whose parent is `p`. -/
def Below (g : ι → Option (Node ι)) (c p : ι) : Prop := ∃ n, g c = some n ∧ n.parent = some p

/-- The links of a table agree, and no node is above itself. -/
structure IsForest (g : ι → Option (Node ι)) : Prop where
  parent_lists : ∀ {c p n}, g c = some n → n.parent = some p → ∃ m, g p = some m ∧ c ∈ m.children
  child_points : ∀ {c p m}, g p = some m → c ∈ m.children → ∃ n, g c = some n ∧ n.parent = some p
  nodup : ∀ {p m}, g p = some m → m.children.Nodup
  acyclic : ∀ x, ¬ TransGen (Below g) x x

theorem isForest_empty : IsForest (fun _ : ι => none) where
  parent_lists h := by cases h
  child_points h := by cases h
  nodup h := by cases h
  acyclic x h := by
    obtain ⟨y, ⟨n, hn, -⟩, -⟩ := TransGen.head'_iff.1 h
    cases hn

namespace IsForest

theorem parent_ne (h : IsForest g) (hc : g c = some n) (hp : n.parent = some p) : c ≠ p := by
  rintro rfl
  exact h.acyclic c (.single ⟨n, hc, hp⟩)

/-- A node is listed by its parent only. -/
theorem mem_children_iff (h : IsForest g) (hp : g p = some m) (hc : g c = some n) :
    c ∈ m.children ↔ n.parent = some p := by
  constructor
  · intro hmem
    obtain ⟨n', hn', hparent⟩ := h.child_points hp hmem
    rw [hc] at hn'
    cases hn'
    exact hparent
  · intro hparent
    obtain ⟨m', hm', hmem⟩ := h.parent_lists hc hparent
    rw [hp] at hm'
    cases hm'
    exact hmem

end IsForest

theorem ne_of_new (hnew : g o = none) (hx : g x = some n) : x ≠ o := by
  rintro rfl
  rw [hnew] at hx
  cases hx

section Changes

variable [DecidableEq ι]

/-- A new node without links. -/
def addRootTable (g : ι → Option (Node ι)) (o : ι) : ι → Option (Node ι) := fun x =>
  if x = o then some ⟨none, []⟩ else g x

theorem IsForest.addRoot (h : IsForest g) (hnew : g o = none) : IsForest (addRootTable g o) where
  parent_lists := by
    have hlists := @h.parent_lists
    grind [addRootTable]
  child_points := by
    have hpoints := @h.child_points
    grind [addRootTable]
  nodup := by
    have hnodup := @h.nodup
    grind [addRootTable]
  acyclic x hx := by
    refine h.acyclic x (TransGen.mono (fun c p hcp => ?_) x x hx)
    unfold Below at *
    grind [addRootTable]

/-- A root put below another node, as the last child. -/
def attachTable (g : ι → Option (Node ι)) (c p : ι) : ι → Option (Node ι) := fun x =>
  if x = c then (g c).map fun n => { n with parent := some p }
  else if x = p then (g p).map fun n => { n with children := n.children ++ [c] }
  else g x

theorem IsForest.attach (h : IsForest g) (hc : g c = some n) (hroot : n.parent = none)
    (hp : g p = some m) (hne : c ≠ p) (hback : ¬ ReflTransGen (Below g) p c) :
    IsForest (attachTable g c p) where
  parent_lists := by
    have hlists := @h.parent_lists
    grind [attachTable]
  child_points := by
    have hpoints := @h.child_points
    grind [attachTable]
  nodup := by
    have hpoints := @h.child_points
    have hnodup := @h.nodup
    grind [attachTable]
  acyclic := by
    refine acyclic_add_arc (a := c) (b := p) (fun x y hxy => ?_) hback h.acyclic
    unfold Below at *
    grind [attachTable]

/-- The links of a node whose neighbour `o` is taken out. -/
def Node.without (o : ι) (n : Node ι) : Node ι where
  parent := if n.parent = some o then none else n.parent
  children := n.children.filter (· ≠ o)

/-- A node taken out: its parent forgets it and its children become roots. -/
def removeTable (g : ι → Option (Node ι)) (o : ι) : ι → Option (Node ι) := fun x =>
  if x = o then none else (g x).map (·.without o)

theorem removeTable_eq_some {n : Node ι} :
    removeTable g o x = some n ↔ x ≠ o ∧ ∃ k, g x = some k ∧ k.without o = n := by
  by_cases hx : x = o
  · simp [removeTable]
  · simp [removeTable]

theorem IsForest.remove (h : IsForest g) : IsForest (removeTable g o) where
  parent_lists {c p n} hc hp := by
    obtain ⟨hco, k, hk, rfl⟩ := removeTable_eq_some.1 hc
    have hpo : p ≠ o ∧ k.parent = some p := by grind [Node.without]
    obtain ⟨m, hm, hmem⟩ := h.parent_lists hk hpo.2
    exact ⟨m.without o, removeTable_eq_some.2 ⟨hpo.1, m, hm, rfl⟩, by simp [Node.without, hmem, hco]⟩
  child_points {c p m} hp hmem := by
    obtain ⟨hpo, k, hk, rfl⟩ := removeTable_eq_some.1 hp
    have hco : c ∈ k.children ∧ c ≠ o := by simpa [Node.without] using hmem
    obtain ⟨n, hn, hparent⟩ := h.child_points hk hco.1
    exact ⟨n.without o, removeTable_eq_some.2 ⟨hco.2, n, hn, rfl⟩,
      by simp [Node.without, hparent, hpo]⟩
  nodup {p m} hp := by
    obtain ⟨-, k, hk, rfl⟩ := removeTable_eq_some.1 hp
    exact (h.nodup hk).filter _
  acyclic x hx := by
    refine h.acyclic x (TransGen.mono (fun c p hcp => ?_) x x hx)
    obtain ⟨n, hn, hparent⟩ := hcp
    obtain ⟨-, k, hk, rfl⟩ := removeTable_eq_some.1 hn
    exact ⟨k, hk, by grind [Node.without]⟩

/-- The links of a node whose neighbour `s` gets the name `t`. -/
def Node.renamed (s t : ι) (n : Node ι) : Node ι where
  parent := if n.parent = some s then some t else n.parent
  children := if s ∈ n.children then n.children.filter (· ≠ s) ++ [t] else n.children

/-- A node under a new name, as the last child of its parent. -/
def renameTable (g : ι → Option (Node ι)) (s t : ι) : ι → Option (Node ι) := fun x =>
  if x = t then g s else if x = s then none else (g x).map (·.renamed s t)

section Rename

variable {s t : ι}

theorem renameTable_new : renameTable g s t t = g s := by simp [renameTable]

theorem renameTable_of_ne (hs : x ≠ s) (ht : x ≠ t) :
    renameTable g s t x = (g x).map (·.renamed s t) := by
  simp [renameTable, hs, ht]

theorem renameTable_cases (h : renameTable g s t x = some n) :
    (x = t ∧ g s = some n) ∨ (x ≠ s ∧ x ≠ t ∧ ∃ k, g x = some k ∧ k.renamed s t = n) := by
  by_cases ht : x = t
  · subst ht
    rw [renameTable_new] at h
    exact .inl ⟨rfl, h⟩
  · by_cases hs : x = s
    · rw [renameTable, if_neg ht, if_pos hs] at h
      cases h
    · rw [renameTable_of_ne hs ht, Option.map_eq_some_iff] at h
      exact .inr ⟨hs, ht, h⟩

theorem Node.mem_renamed_children {k : Node ι} :
    c ∈ (k.renamed s t).children ↔ (c ∈ k.children ∧ c ≠ s) ∨ (c = t ∧ s ∈ k.children) := by
  grind [Node.renamed]

theorem Node.renamed_parent_eq_some {k : Node ι} : (k.renamed s t).parent = some p ↔
      (k.parent = some p ∧ p ≠ s) ∨ (p = t ∧ k.parent = some s) := by
  grind [Node.renamed]

theorem IsForest.rename (h : IsForest g) (hnew : g t = none) : IsForest (renameTable g s t) where
  parent_lists {c p n} hc hp := by
    rcases renameTable_cases hc with ⟨rfl, hs⟩ | ⟨hcs, hct, k, hk, rfl⟩
    · -- the renamed node itself: its parent lists the new name
      obtain ⟨m, hm, hmem⟩ := h.parent_lists hs hp
      refine ⟨m.renamed s c, ?_, Node.mem_renamed_children.2 (.inr ⟨rfl, hmem⟩)⟩
      rw [renameTable_of_ne (h.parent_ne hs hp).symm (ne_of_new hnew hm), hm]
      rfl
    · rcases Node.renamed_parent_eq_some.1 hp with ⟨hparent, hps⟩ | ⟨rfl, hsource⟩
      · obtain ⟨m, hm, hmem⟩ := h.parent_lists hk hparent
        refine ⟨m.renamed s t, ?_, Node.mem_renamed_children.2 (.inl ⟨hmem, hcs⟩)⟩
        rw [renameTable_of_ne hps (ne_of_new hnew hm), hm]
        rfl
      · obtain ⟨m, hm, hmem⟩ := h.parent_lists hk hsource
        exact ⟨m, by rw [renameTable_new, hm], hmem⟩
  child_points {c p m} hp hmem := by
    rcases renameTable_cases hp with ⟨rfl, hs⟩ | ⟨hps, hpt, k, hk, rfl⟩
    · obtain ⟨n, hn, hparent⟩ := h.child_points hs hmem
      refine ⟨n.renamed s p, ?_, Node.renamed_parent_eq_some.2 (.inr ⟨rfl, hparent⟩)⟩
      rw [renameTable_of_ne (h.parent_ne hn hparent) (ne_of_new hnew hn), hn]
      rfl
    · rcases Node.mem_renamed_children.1 hmem with ⟨hkept, hcs⟩ | ⟨rfl, hsource⟩
      · obtain ⟨n, hn, hparent⟩ := h.child_points hk hkept
        refine ⟨n.renamed s t, ?_, Node.renamed_parent_eq_some.2 (.inl ⟨hparent, hps⟩)⟩
        rw [renameTable_of_ne hcs (ne_of_new hnew hn), hn]
        rfl
      · obtain ⟨n, hn, hparent⟩ := h.child_points hk hsource
        exact ⟨n, by rw [renameTable_new, hn], hparent⟩
  nodup {p m} hp := by
    rcases renameTable_cases hp with ⟨rfl, hs⟩ | ⟨-, -, k, hk, rfl⟩
    · exact h.nodup hs
    · have ht : t ∉ k.children := by
        intro hmem
        obtain ⟨n, hn, -⟩ := h.child_points hk hmem
        exact ne_of_new hnew hn rfl
      have hnodup := h.nodup hk
      grind [Node.renamed, List.Nodup.filter]
  acyclic x hx := by
    -- undo the renaming along the cycle
    refine h.acyclic _ (TransGen.lift (fun y => if y = t then s else y) ?_ x x hx)
    rintro c p ⟨n, hn, hparent⟩
    rcases renameTable_cases hn with ⟨rfl, hs⟩ | ⟨-, hct, k, hk, rfl⟩
    · obtain ⟨m, hm, -⟩ := h.parent_lists hs hparent
      exact ⟨n, by simpa using hs, by simpa [ne_of_new hnew hm] using hparent⟩
    · refine ⟨k, by simpa [hct] using hk, ?_⟩
      rcases Node.renamed_parent_eq_some.1 hparent with ⟨hkept, -⟩ | ⟨rfl, hsource⟩
      · obtain ⟨m, hm, -⟩ := h.parent_lists hk hkept
        simpa [ne_of_new hnew hm] using hkept
      · simpa using hsource

end Rename

end Changes

/-! ### Bounds for walks -/

section Bounds

variable {r r' : ι → ι → Prop} {nodes nodes' : Finset ι}

open Classical in
/-- The nodes that lead to `x`. -/
noncomputable def leadingTo (r : ι → ι → Prop) (nodes : Finset ι) (x : ι) : Finset ι :=
  nodes.filter (ReflTransGen r · x)

theorem card_leadingTo_lt (hacyclic : ∀ x, ¬ TransGen r x x) (hp : p ∈ nodes) (h : r c p) :
    (leadingTo r nodes c).card < (leadingTo r nodes p).card := by
  apply card_lt_card
  rw [ssubset_iff_of_subset]
  · refine ⟨p, ?_, ?_⟩
    · simp only [leadingTo, mem_filter]
      exact ⟨hp, .refl⟩
    · simp only [leadingTo, mem_filter, not_and]
      intro _ hpc
      exact hacyclic p (TransGen.tail' hpc h)
  · intro y hy
    simp only [leadingTo, mem_filter] at hy ⊢
    exact ⟨hy.1, hy.2.tail h⟩

theorem card_leadingTo_le (nodes : Finset ι) (x : ι) : (leadingTo r nodes x).card ≤ nodes.card := by
  classical exact card_filter_le _ _

theorem card_leadingTo_mono (hr : ∀ c p, r' c p → r c p) (hnodes : nodes' ⊆ nodes) (x : ι) :
    (leadingTo r' nodes' x).card ≤ (leadingTo r nodes x).card := by
  apply card_le_card
  intro y hy
  simp only [leadingTo, mem_filter] at hy ⊢
  exact ⟨hnodes hy.1, ReflTransGen.mono hr y x hy.2⟩

end Bounds

end Axiomc.Foundation
