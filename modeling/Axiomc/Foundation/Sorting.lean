import Mathlib.Data.List.Sort
import Mathlib.Data.List.Destutter

/-!
# Stable sorting by a comparison

Comparison functions with values in `Ordering` and the stable sort they induce.  `sortBy cmp` is
insertion sort, so it computes inside the kernel and keeps the input order of the elements that
`cmp` does not separate.  What the developments use of it: the result is a permutation of the
input and it is sorted, so it does not depend on the order of the input beyond the elements `cmp` does
not separate (`map_sortBy_eq_of_perm`, `sortBy_eq_of_perm`).  `flatMap_fibers_perm` puts a
list back together from its fibres over a list of distinct keys.
-/

namespace Axiomc.Foundation

open Std List

variable {α β : Type}

/-- Stable sort by a comparison function. -/
def sortBy (cmp : α → α → Ordering) (l : List α) : List α :=
  l.insertionSort (fun a b => (cmp a b).isLE = true)

theorem sortBy_perm (cmp : α → α → Ordering) (l : List α) : (sortBy cmp l).Perm l :=
  perm_insertionSort _ l

variable {l : List α} {κ : Type}

@[simp] theorem mem_sortBy {cmp : α → α → Ordering} {a : α} : a ∈ sortBy cmp l ↔ a ∈ l :=
  (sortBy_perm cmp l).mem_iff

theorem sortBy_sorted (cmp : α → α → Ordering) [TransCmp cmp] (l : List α) :
    (sortBy cmp l).Pairwise (fun a b => (cmp a b).isLE = true) := by
  have : Std.Total (fun a b => (cmp a b).isLE = true) := ⟨fun a b => by
    cases h : cmp a b with
    | lt => simp
    | eq => simp
    | gt =>
      have hswap : cmp b a = (cmp a b).swap := OrientedCmp.eq_swap
      exact Or.inr (by rw [hswap, h]; rfl)⟩
  have : IsTrans α (fun a b => (cmp a b).isLE = true) :=
    ⟨fun a b c hab hbc => TransCmp.isLE_trans hab hbc⟩
  exact pairwise_insertionSort _ l

/-- The order by a key. -/
theorem transCmp_on (key : α → κ) (cmp : κ → κ → Ordering) [TransCmp cmp] :
    TransCmp fun a b => cmp (key a) (key b) where
  eq_swap := OrientedCmp.eq_swap
  isLE_trans := TransCmp.isLE_trans

/-- **Canonical order.**  When `cmp` compares keys, sorted permutations of each other have the same
keys in the same places. -/
theorem map_sortBy_eq_of_perm (key : α → κ) (cmp : κ → κ → Ordering) [TransCmp cmp]
    [LawfulEqCmp cmp] {l' : List α} (h : l.Perm l') :
    (sortBy (fun a b => cmp (key a) (key b)) l).map key =
      (sortBy (fun a b => cmp (key a) (key b)) l').map key := by
  have hcmp := transCmp_on key cmp
  have hsorted : ∀ xs : List α, ((sortBy (fun a b => cmp (key a) (key b)) xs).map key).Pairwise
      (fun a b => (cmp a b).isLE = true) := fun xs =>
    pairwise_map.mpr (sortBy_sorted (fun a b => cmp (key a) (key b)) xs)
  refine List.Perm.eq_of_pairwise ?_ (hsorted l) (hsorted l') ?_
  · intro a b _ _ hab hba
    exact LawfulEqCmp.eq_of_compare (OrientedCmp.isLE_antisymm hab hba)
  · exact (((sortBy_perm _ l).trans h).trans (sortBy_perm _ l').symm).map key

/-- Keys that separate the elements of two lists tell the lists apart. -/
theorem eq_of_map_eq {key : α → κ} : ∀ {l l' : List α}, l.map key = l'.map key →
      (∀ a ∈ l, ∀ b ∈ l', key a = key b → a = b) → l = l' := by
  intro l
  induction l with
  | nil =>
    intro l' hmap _
    exact (map_eq_nil_iff.mp hmap.symm).symm
  | cons a l ih =>
    intro l' hmap hkey
    obtain ⟨b, rest, rfl, hab, hrest⟩ := map_eq_cons_iff.mp hmap.symm
    have hhead : a = b := hkey a mem_cons_self b mem_cons_self hab.symm
    have htail : l = rest := ih hrest.symm fun x hx y hy =>
      hkey x (mem_cons_of_mem _ hx) y (mem_cons_of_mem _ hy)
    rw [hhead, htail]

/-- Keys that separate the elements of a list determine its sorted form. -/
theorem sortBy_eq_of_perm (key : α → κ) (cmp : κ → κ → Ordering) [TransCmp cmp]
    [LawfulEqCmp cmp] {l' : List α} (h : l.Perm l') (hkey : ∀ a ∈ l, ∀ b ∈ l, key a = key b → a = b) :
    sortBy (fun a b => cmp (key a) (key b)) l = sortBy (fun a b => cmp (key a) (key b)) l' := by
  refine eq_of_map_eq (map_sortBy_eq_of_perm key cmp h) fun a ha b hb hab => ?_
  exact hkey a (mem_sortBy.mp ha) b (h.mem_iff.mpr (mem_sortBy.mp hb)) hab

/-- The reverse of a transitive comparison is transitive. -/
theorem transCmp_flip (cmp : α → α → Ordering) [TransCmp cmp] : TransCmp fun a b => cmp b a where
  eq_swap {a b} := show cmp b a = (cmp a b).swap from OrientedCmp.eq_swap
  isLE_trans {a _ c} hab hbc := show (cmp c a).isLE = true from TransCmp.isLE_trans hbc hab

/-- The fibres of a list over distinct keys that cover it are a permutation of the list. -/
theorem flatMap_fibers_perm [DecidableEq κ] (key : α → κ) :
    ∀ (keys : List κ) (l : List α), keys.Nodup → (∀ a ∈ l, key a ∈ keys) →
      (keys.flatMap fun k => l.filter (fun a => key a = k)).Perm l := by
  intro keys
  induction keys with
  | nil =>
    intro l _ hl
    cases l with
    | nil => simp
    | cons a l => exact absurd (hl a mem_cons_self) (by simp)
  | cons k keys ih =>
    intro l hnodup hl
    obtain ⟨hk, hnodup⟩ := nodup_cons.mp hnodup
    let others := l.filter (fun a => ¬ key a = k)
    have hothers : (keys.flatMap fun k' => l.filter (fun a => key a = k')) =
        keys.flatMap fun k' => others.filter (fun a => key a = k') := by
      refine flatMap_congr fun k' hk' => ?_
      rw [filter_filter]
      refine filter_congr fun a _ => ?_
      have hne : k' ≠ k := fun h => hk (h ▸ hk')
      by_cases ha : key a = k' <;> simp [ha, hne]
    have hrest := ih others hnodup fun a ha => by
      obtain ⟨hmem, hne⟩ := mem_filter.mp ha
      exact (mem_cons.mp (hl a hmem)).resolve_left (by simpa using hne)
    rw [flatMap_cons, hothers]
    refine (hrest.append_left _).trans ?_
    simpa [others] using filter_append_perm (fun a => decide (key a = k)) l

/-- Of two elements of a list that a relation sorts, the relation holds one way or the other. -/
theorem pairwise_cases {R : α → α → Prop} (h : l.Pairwise R) {a b : α} (ha : a ∈ l)
    (hb : b ∈ l) : a = b ∨ R a b ∨ R b a := by
  induction h with
  | nil => cases ha
  | cons hhead _ ih =>
    rcases mem_cons.1 ha with rfl | ha'
    · rcases mem_cons.1 hb with rfl | hb'
      · exact Or.inl rfl
      · exact Or.inr (Or.inl (hhead b hb'))
    · rcases mem_cons.1 hb with rfl | hb'
      · exact Or.inr (Or.inr (hhead a ha'))
      · exact ih ha' hb'

end Axiomc.Foundation
