import Mathlib.Data.Finset.Card

/-!
# Ordered maps and sets over lawful keys

Facts about tree maps whose comparison only identifies equal keys: a lookup after an insertion, the
entries after the insertion of a new key, and that the keys and the entries in order depend on the
lookups only.  A tree set is described by the finite set it
`Holds`: its members and its size.
-/

namespace Axiomc.Foundation

open Std TreeMap

variable {α β : Type} [Ord α] [TransOrd α] [LawfulEqOrd α] [DecidableEq α]

theorem getElem?_insert_cmp {κ ν : Type} {cmp : κ → κ → Ordering} [TransCmp cmp] [LawfulEqCmp cmp]
    [DecidableEq κ] (m : TreeMap κ ν cmp) (k a : κ) (v : ν) :
    (m.insert k v)[a]? = if k = a then some v else m[a]? := by
  rw [getElem?_insert]
  simp

theorem getElem?_modify_eq_ite (m : TreeMap α β) (k a : α) (f : β → β) :
    (m.modify k f)[a]? = if k = a then m[a]?.map f else m[a]? := by
  rw [getElem?_modify]
  simp only [LawfulEqCmp.compare_eq_iff_eq]
  split
  · next h => rw [h]
  · rfl

variable {a : α} {m : TreeMap α β}

/-- A change of one entry keeps the keys. -/
theorem exists_getElem?_modify (h : ∃ b, m[a]? = some b) (k : α)
    (f : β → β) : ∃ b, (m.modify k f)[a]? = some b := by
  obtain ⟨b, hb⟩ := h
  rw [getElem?_modify_eq_ite, hb]
  split
  · exact ⟨f b, rfl⟩
  · exact ⟨b, rfl⟩

theorem exists_getElem?_foldl_modify (f : β → β) :
    ∀ (ks : List α) (m : TreeMap α β), (∃ b, m[a]? = some b) →
      ∃ b, (ks.foldl (fun m k => m.modify k f) m)[a]? = some b := by
  intro ks
  induction ks with
  | nil =>
    intro m h
    exact h
  | cons k ks ih =>
    intro m h
    exact ih _ (exists_getElem?_modify h k f)

theorem getElem?_erase_eq_ite (m : TreeMap α β) (k a : α) :
    (m.erase k)[a]? = if k = a then none else m[a]? := by
  rw [getElem?_erase]
  simp

/-- The same idempotent change at every key of a list. -/
theorem getElem?_foldl_modify {f : β → β} (hf : ∀ b, f (f b) = f b) (a : α) :
    ∀ (ks : List α) (m : TreeMap α β),
      (ks.foldl (fun m k => m.modify k f) m)[a]? = if a ∈ ks then m[a]?.map f else m[a]? := by
  intro ks
  induction ks with
  | nil =>
    intro m
    simp
  | cons k ks ih =>
    intro m
    rw [List.foldl_cons, ih, getElem?_modify_eq_ite]
    by_cases hk : k = a
    · subst hk
      by_cases hmem : k ∈ ks
      · simp [Function.comp_def, hf]
      · simp [hmem]
    · simp [hk, Ne.symm hk]

/-- The insertion of a new key keeps every entry. -/
theorem getElem?_insert_of_new {k : α} {b : β} (hnew : m[k]? = none)
    (h : m[a]? = some b) (v : β) : (m.insert k v)[a]? = some b := by
  rw [getElem?_insert_cmp, if_neg, h]
  rintro rfl
  rw [hnew] at h
  cases h

omit [DecidableEq α] in
/-- The keys in order depend on which keys there are only. -/
theorem keys_eq_of_mem_iff {γ : Type} {m' : TreeMap α γ}
    (h : ∀ k, k ∈ m ↔ k ∈ m') : m.keys = m'.keys := by
  have hantisymm : ∀ a b : α, a ∈ m.keys → b ∈ m'.keys → compare a b = .lt → compare b a = .lt →
      a = b := by
    intro a b _ _ hab hba
    exact absurd hba (OrientedCmp.not_lt_of_lt hab)
  refine List.Perm.eq_of_pairwise hantisymm ordered_keys ordered_keys ?_
  · refine (List.perm_ext_iff_of_nodup nodup_keys nodup_keys).mpr fun k => ?_
    rw [mem_keys, mem_keys, h k]

omit [DecidableEq α] in
/-- Maps that agree up to a view of their values have the same entries in that view. -/
theorem map_toList_eq_of_lookup {γ δ : Type} {m' : TreeMap α γ} {f : β → δ}
    {g : γ → δ} (h : ∀ k : α, (m[k]?).map f = (m'[k]?).map g) :
    m.toList.map (fun entry => (entry.1, f entry.2)) =
      m'.toList.map fun entry => (entry.1, g entry.2) := by
  have hequiv : (m.map fun _ b => f b).Equiv (m'.map fun _ c => g c) := by
    apply TreeMap.Equiv.of_forall_constGet?_eq
    intro k
    rw [getElem?_map, getElem?_map]
    exact h k
  have hlists := hequiv.toList_eq
  rwa [toList_map, toList_map] at hlists

theorem toList_insert_perm_of_not_mem {k : α} {v : β} (hnew : m[k]? = none) :
    (m.insert k v).toList.Perm ((k, v) :: m.toList) := by
  have hkeep : m.toList.filter (fun entry => decide ¬(k == entry.1) = true) = m.toList := by
    rw [List.filter_eq_self]
    rintro ⟨a, b⟩ hmem
    have hab := mem_toList_iff_getElem?_eq_some.mp hmem
    have hne : k ≠ a := by
      rintro rfl
      rw [hnew] at hab
      cases hab
    simp [hne]
  exact hkeep ▸ toList_insert_perm

/-! ### Tree sets -/

section

variable {κ : Type} {cmp : κ → κ → Ordering} {t : TreeSet κ cmp} {s : Finset κ}

/-- The tree set `t` has the elements of `s`. -/
structure Holds (t : TreeSet κ cmp) (s : Finset κ) : Prop where
  mem_iff : ∀ a : κ, a ∈ t ↔ a ∈ s
  size_eq : t.size = s.card

theorem holds_empty : Holds (∅ : TreeSet κ cmp) ∅ :=
  ⟨fun a => by simp, by simp⟩

variable [DecidableEq κ] [TransCmp cmp] [LawfulEqCmp cmp]

theorem Holds.insert (h : Holds t s) (a : κ) : Holds (t.insert a) (insert a s) where
  mem_iff b := by
    rw [TreeSet.mem_insert, LawfulEqCmp.compare_eq_iff_eq, h.mem_iff, Finset.mem_insert,
      eq_comm (a := a)]
  size_eq := by
    rw [TreeSet.size_insert]
    by_cases ha : a ∈ s
    · rw [if_pos (TreeSet.contains_iff_mem.2 ((h.mem_iff a).2 ha)), h.size_eq,
        Finset.insert_eq_of_mem ha]
    · rw [if_neg (fun hmem => ha ((h.mem_iff a).1 (TreeSet.contains_iff_mem.1 hmem))), h.size_eq,
        Finset.card_insert_of_notMem ha]

theorem Holds.foldl_insert (l : List κ) :
    ∀ {t : TreeSet κ cmp} {s : Finset κ}, Holds t s →
      Holds (l.foldl (fun set a => set.insert a) t) (s ∪ l.toFinset) := by
  induction l with
  | nil =>
    intro t s h
    simpa using h
  | cons a l ih =>
    intro t s h
    have := ih (h.insert a)
    rwa [List.toFinset_cons, Finset.union_insert, ← Finset.insert_union]

end

end Axiomc.Foundation
