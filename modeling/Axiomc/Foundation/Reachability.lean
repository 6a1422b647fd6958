import Mathlib.Data.Finset.Card

/-!
# Depth-first reachability with a work list

`search succ goal bound pending visited` takes the top of the stack `pending`, skips it when it was
visited before, stops when the goal is among its successors and pushes the successors otherwise.
Each round uses one unit of `bound`.

* `search_sound`: a positive answer exhibits a path of at least one arc into the goal;
* `search_complete`: with enough rounds for the finite set of nodes that can occur, a negative
  answer excludes every such path;
* `searchLoop`, `searchLoop_eq_search`: the loop without a bound on its rounds ends, and `search` is
  what it returns;
* `acyclic_add_arc`: an acyclic relation stays acyclic under a new arc `a → b` when `b` does not
  lead to `a`.

The bound that suffices is `pending.length + width * unvisited`, where `width` bounds the number of
successors of a node: a round that visits a node pays for the nodes it pushes.
-/

namespace Axiomc.Foundation

open List

variable {α : Type} [DecidableEq α]

/-- Depth-first search for an arc into `goal`. -/
def search (succ : α → List α) (goal : α) : Nat → List α → List α → Bool
  | 0, _, _ => false
  | _ + 1, [], _ => false
  | bound + 1, node :: pending, visited =>
    if visited.contains node then search succ goal bound pending visited
    else if (succ node).contains goal then true
    else search succ goal bound ((succ node).reverse ++ pending) (node :: visited)

variable {succ : α → List α} {goal : α}

/-- The arcs of a successor function. -/
def Arc (succ : α → List α) (a b : α) : Prop := b ∈ succ a

open Relation

/-- **Soundness.**  A positive answer comes with a nonempty path from a pending node. -/
theorem search_sound (bound : Nat) (pending visited : List α)
    (h : search succ goal bound pending visited = true) :
    ∃ node ∈ pending, TransGen (Arc succ) node goal := by
  fun_induction search succ goal bound pending visited with
  | case1 => cases h
  | case2 => cases h
  | case3 bound node pending visited _ ih =>
    obtain ⟨n, hn, hpath⟩ := ih h
    exact ⟨n, mem_cons_of_mem _ hn, hpath⟩
  | case4 bound node pending visited _ hgoal =>
    exact ⟨node, mem_cons_self, .single (by simpa [Arc] using hgoal)⟩
  | case5 bound node pending visited _ _ ih =>
    obtain ⟨n, hn, hpath⟩ := ih h
    rcases mem_append.mp hn with hn | hn
    · exact ⟨node, mem_cons_self, .head (by simpa [Arc] using hn) hpath⟩
    · exact ⟨n, mem_cons_of_mem _ hn, hpath⟩

/-- The nodes of a finite universe that were not visited. -/
def unvisited (nodes : Finset α) (visited : List α) : Nat :=
  (nodes.filter (· ∉ visited)).card

variable {nodes : Finset α} {visited : List α}

theorem unvisited_visit {node : α} (hmem : node ∈ nodes) (hnew : node ∉ visited) :
    unvisited nodes (node :: visited) + 1 ≤ unvisited nodes visited := by
  apply Finset.card_lt_card
  rw [Finset.ssubset_iff_of_subset]
  · exact ⟨node, by simp [hmem, hnew], by simp⟩
  · intro n hn
    simp only [Finset.mem_filter, mem_cons, not_or] at hn ⊢
    exact ⟨hn.1, hn.2.2⟩

/-- What a negative search maintains: the goal is not a successor of a visited node, and whatever
a visited node leads to is visited or pending. -/
def Explored (succ : α → List α) (goal : α) (pending visited : List α) : Prop :=
  ∀ node ∈ visited, goal ∉ succ node ∧ ∀ next ∈ succ node, next ∈ visited ∨ next ∈ pending

omit [DecidableEq α] in
theorem Explored.mono {pending pending' : List α}
    (hmove : ∀ node, node ∈ pending → node ∈ visited ∨ node ∈ pending')
    (h : Explored succ goal pending visited) : Explored succ goal pending' visited := by
  intro node hnode
  refine ⟨(h node hnode).1, fun next hnext => ?_⟩
  rcases (h node hnode).2 next hnext with hv | hp
  · exact .inl hv
  · exact hmove next hp

omit [DecidableEq α] in
theorem Explored.visit {pending : List α} {top : α} (hgoal : goal ∉ succ top)
    (h : Explored succ goal (top :: pending) visited) :
    Explored succ goal ((succ top).reverse ++ pending) (top :: visited) := by
  intro node hnode
  rcases mem_cons.mp hnode with rfl | hnode
  · exact ⟨hgoal, fun next hnext => .inr (by simp [hnext])⟩
  · refine ⟨(h node hnode).1, fun next hnext => ?_⟩
    have := (h node hnode).2 next hnext
    simp only [mem_cons, mem_append] at this ⊢
    tauto

omit [DecidableEq α] in
/-- A finished exploration excludes every path from a visited node. -/
theorem Explored.no_path (h : Explored succ goal [] visited) {node : α}
    (hmem : node ∈ visited) : ¬ TransGen (Arc succ) node goal := by
  intro hpath
  induction hpath using TransGen.head_induction_on with
  | single harc => exact (h _ hmem).1 harc
  | head harc _ ih =>
    rcases (h _ hmem).2 _ harc with hv | hp
    · exact ih hv
    · simp at hp

section Rounds

variable {width : Nat} (hwidth : ∀ node, (succ node).length ≤ width)
  (hclosed : ∀ node ∈ nodes, ∀ next ∈ succ node, next ∈ nodes)

include hwidth hclosed

/-- A round pays `width` for the node it visits and gets back the successors it pushes. -/
theorem suffices_visit {bound : Nat} {top : α} {pending : List α} (hnew : top ∉ visited)
    (hbound : (top :: pending).length + width * unvisited nodes visited ≤ bound + 1)
    (hnodes : ∀ node ∈ top :: pending, node ∈ nodes) :
    ((succ top).reverse ++ pending).length + width * unvisited nodes (top :: visited) ≤ bound ∧
      ∀ node ∈ (succ top).reverse ++ pending, node ∈ nodes := by
  have htop : top ∈ nodes := hnodes top mem_cons_self
  have hlen := hwidth top
  have hpay := Nat.mul_le_mul_left width (unvisited_visit htop hnew)
  rw [Nat.mul_succ] at hpay
  simp only [length_cons, length_append, length_reverse] at hbound ⊢
  refine ⟨by omega, fun n hn => ?_⟩
  rcases mem_append.mp hn with hn | hn
  · exact hclosed top htop n (by simpa using hn)
  · exact hnodes n (.tail _ hn)

/-- **Completeness.**  When the rounds suffice, a negative answer excludes every path from a
visited or a pending node. -/
theorem search_complete (bound : Nat) (pending visited : List α)
    (hbound : pending.length + width * unvisited nodes visited ≤ bound)
    (hnodes : ∀ node ∈ pending, node ∈ nodes) (hexp : Explored succ goal pending visited)
    (hsearch : search succ goal bound pending visited = false) :
    ∀ node, node ∈ visited ∨ node ∈ pending → ¬ TransGen (Arc succ) node goal := by
  fun_induction search succ goal bound pending visited with
  | case1 pending visited =>
    have hnil : pending = [] := length_eq_zero_iff.mp (by omega)
    subst hnil
    exact fun node hnode => hexp.no_path (by simpa using hnode)
  | case2 bound visited => exact fun node hnode => hexp.no_path (by simpa using hnode)
  | case3 bound top pending visited hseen ih =>
    have hmove : ∀ n, n ∈ top :: pending → n ∈ visited ∨ n ∈ pending := by
      intro n hn
      rcases mem_cons.mp hn with rfl | hn
      · exact .inl (by simpa using hseen)
      · exact .inr hn
    simp only [length_cons] at hbound
    exact fun node hnode => ih (by omega) (fun n hn => hnodes n (.tail _ hn)) (hexp.mono hmove) hsearch
      node (hnode.elim .inl (hmove node))
  | case4 => cases hsearch
  | case5 bound top pending visited hnew hgoal ih =>
    obtain ⟨hbound', hnodes'⟩ := suffices_visit hwidth hclosed (by simpa using hnew) hbound hnodes
    intro node hnode
    refine ih hbound' hnodes' (hexp.visit (by simpa using hgoal)) hsearch node ?_
    simp only [mem_cons, mem_append] at hnode ⊢
    tauto

/-- The loop as it runs, with no answer when the rounds run out before it ends. -/
def searchLoop (succ : α → List α) (goal : α) : Nat → List α → List α → Option Bool
  | 0, _, _ => none
  | _ + 1, [], _ => some false
  | rounds + 1, node :: pending, visited =>
    if visited.contains node then searchLoop succ goal rounds pending visited
    else if (succ node).contains goal then some true
    else searchLoop succ goal rounds ((succ node).reverse ++ pending) (node :: visited)

/-- **Termination.**  One round after those that suffice the loop has ended, with the answer of
`search`. -/
theorem searchLoop_eq_search (bound : Nat) (pending visited : List α)
    (hbound : pending.length + width * unvisited nodes visited ≤ bound)
    (hnodes : ∀ node ∈ pending, node ∈ nodes) : searchLoop succ goal (bound + 1) pending visited =
      some (search succ goal bound pending visited) := by
  fun_induction search succ goal bound pending visited with
  | case1 pending visited =>
    have hnil : pending = [] := length_eq_zero_iff.mp (by omega)
    subst hnil
    rfl
  | case2 => rfl
  | case3 bound top pending visited hseen ih =>
    simp only [length_cons] at hbound
    rw [searchLoop, if_pos hseen]
    exact ih (by omega) fun n hn => hnodes n (.tail _ hn)
  | case4 bound top pending visited hnew hgoal => rw [searchLoop, if_neg hnew, if_pos hgoal]
  | case5 bound top pending visited hnew hgoal ih =>
    obtain ⟨hbound', hnodes'⟩ := suffices_visit hwidth hclosed (by simpa using hnew) hbound hnodes
    rw [searchLoop, if_neg hnew, if_neg hgoal]
    exact ih hbound' hnodes'

end Rounds

section Acyclic

variable {β : Type} {r r' : β → β → Prop} {a b : β}

section

variable (hadd : ∀ x y, r' x y → r x y ∨ (x = a ∧ y = b)) (hback : ¬ ReflTransGen r b a)
include hadd hback

/-- A path over the extended relation either avoids the new arc or splits around it. -/
theorem transGen_add_arc {x y : β} (h : TransGen r' x y) :
    TransGen r x y ∨ (ReflTransGen r x a ∧ ReflTransGen r b y) := by
  induction h with
  | single h =>
    rcases hadd _ _ h with h | ⟨rfl, rfl⟩
    · exact .inl (.single h)
    · exact .inr ⟨.refl, .refl⟩
  | tail _ h ih =>
    rcases hadd _ _ h with h | ⟨rfl, rfl⟩
    · rcases ih with hxy | ⟨hxa, hby⟩
      · exact .inl (hxy.tail h)
      · exact .inr ⟨hxa, hby.tail h⟩
    · rcases ih with hxy | ⟨-, hby⟩
      · exact .inr ⟨hxy.to_reflTransGen, .refl⟩
      · exact absurd hby hback

theorem acyclic_add_arc (hacyclic : ∀ x, ¬ TransGen r x x) : ∀ x, ¬ TransGen r' x x := by
  intro x hx
  rcases transGen_add_arc hadd hback hx with h | ⟨hxa, hbx⟩
  · exact hacyclic x h
  · exact hback (hbx.trans hxa)

end

end Acyclic

end Axiomc.Foundation
