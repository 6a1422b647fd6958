import Axiomc.Foundation.Text

/-!
# Finite trees of files

The entries of a directory tree by the names that lead to them from its root.  A tree is a finite list of
entries in which everything stands in a directory; the root itself is no entry.

* `ContentTree`: the trees; `node` looks an entry up;
* `put`, `remove`: an entry is placed or taken away, where that leaves a tree;
* `node_put`, `node_remove`: what they do to each entry;
* `node_eq_none_of_below`: there is nothing below a file, a link or a missing entry.

Nothing here names a particular program.
-/

namespace Axiomc.Foundation

open List

/-- What can stand in a tree; `C` are the contents of files. -/
inductive FileNode (C : Type) where
  | file (content : C) (mode links : Nat)
  | directory (mode : Nat)
  | link (target : Text)

namespace FileNode

variable {C : Type}

def isDirectory : FileNode C → Bool
  | directory _ => true
  | _ => false

def isLink : FileNode C → Bool
  | link _ => true
  | _ => false

end FileNode

/-- The names are those of a directory in a list of entries, or of the root. -/
def InDirectory {C : Type} (nodes : List (List Text × FileNode C)) (names : List Text) : Prop :=
  names = [] ∨ ∃ mode, nodes.lookup names = some (.directory mode)

structure ContentTree (C : Type) where
  nodes : List (List Text × FileNode C)
  rooted : ∀ names name, (nodes.lookup (names ++ [name])).isSome = true → InDirectory nodes names
  root : nodes.lookup [] = none

namespace ContentTree

variable {C : Type} {t : ContentTree C} {names q : List Text} {n : FileNode C}

def node (t : ContentTree C) (names : List Text) : Option (FileNode C) := t.nodes.lookup names

/-- The names of a directory, or of the root. -/
def isDirectory (t : ContentTree C) (names : List Text) : Bool :=
  names.isEmpty || (t.node names).any FileNode.isDirectory

theorem isDirectory_iff :
    t.isDirectory names = true ↔ names = [] ∨ ∃ mode, t.node names = some (.directory mode) := by
  rw [isDirectory, Bool.or_eq_true, List.isEmpty_iff, Option.any_eq_true]
  refine or_congr_right ⟨?_, ?_⟩
  · intro h
    obtain ⟨n, hn, hdir⟩ := h
    cases n with
    | directory mode => exact ⟨mode, hn⟩
    | file content mode links => cases hdir
    | link target => cases hdir
  · intro h
    obtain ⟨mode, hmode⟩ := h
    exact ⟨_, hmode, rfl⟩

variable {name : Text}

theorem isDirectory_parent (h : (t.node (names ++ [name])).isSome = true) :
    t.isDirectory names = true := isDirectory_iff.2 (t.rooted names name h)

/-- An entry may be placed in a directory, and a directory gives way to a directory only. -/
def accepts (t : ContentTree C) (names : List Text) (n : FileNode C) : Bool :=
  !names.isEmpty && t.isDirectory names.dropLast &&
    (n.isDirectory || !(t.node names).any FileNode.isDirectory)

variable {nodes : List (List Text × FileNode C)}

theorem accepts_iff : t.accepts names n = true ↔ names ≠ [] ∧ t.isDirectory names.dropLast = true ∧
    (n.isDirectory = true ∨ ∀ mode, t.node names ≠ some (.directory mode)) := by
  have hany : (t.node names).any FileNode.isDirectory = false ↔
      ∀ mode, t.node names ≠ some (.directory mode) := by
    cases h : t.node names with
    | none => simp
    | some n => cases n <;> simp [FileNode.isDirectory]
  simp [accepts, hany, and_assoc]

/-- Place an entry. -/
def put (t : ContentTree C) (names : List Text) (n : FileNode C) : ContentTree C :=
  if h : t.accepts names n = true then
    { nodes := (names, n) :: t.nodes
      rooted := by
        obtain ⟨hne, hparent, hdir⟩ := accepts_iff.1 h
        intro above name hsome
        rw [lookup_cons_ite] at hsome
        have hold : t.isDirectory above = true := by
          by_cases heq : above ++ [name] = names
          · rw [← heq, dropLast_concat] at hparent
            exact hparent
          · rw [if_neg heq] at hsome
            exact isDirectory_parent hsome
        rcases isDirectory_iff.1 hold with hroot | ⟨mode, hmode⟩
        · exact .inl hroot
        · refine .inr ?_
          rw [lookup_cons_ite]
          by_cases heq : above = names
          · subst heq
            rw [if_pos rfl]
            rcases hdir with hn | hno
            · cases n with
              | directory mode => exact ⟨mode, rfl⟩
              | file content mode links => cases hn
              | link target => cases hn
            · exact absurd hmode (hno mode)
          · rw [if_neg heq]
            exact ⟨mode, hmode⟩
      root := by
        rw [lookup_cons_ite, if_neg (Ne.symm (accepts_iff.1 h).1)]
        exact t.root }
  else t

theorem node_put (h : t.accepts names n = true) :
    (t.put names n).node q = if q = names then some n else t.node q := by
  rw [put, dif_pos h]
  exact lookup_cons_ite ..

theorem node_put_of_ne (h : q ≠ names) : (t.put names n).node q = t.node q := by
  by_cases haccepts : t.accepts names n = true
  · rw [node_put haccepts, if_neg h]
  · rw [put, dif_neg haccepts]

variable {mode : Nat}

theorem accepts_directory (h : t.isDirectory names = true) :
    t.accepts (names ++ [name]) (.directory mode) = true := by
  refine accepts_iff.2 ⟨by simp, ?_, .inl rfl⟩
  rw [dropLast_concat]
  exact h

theorem isDirectory_put (h : t.isDirectory names = true) :
    (t.put (names ++ [name]) (.directory mode)).isDirectory (names ++ [name]) = true := by
  refine isDirectory_iff.2 (.inr ⟨mode, ?_⟩)
  rw [node_put (accepts_directory h), if_pos rfl]

/-- Nothing stands strictly below some names. -/
def isLeaf (t : ContentTree C) (names : List Text) : Bool :=
  t.nodes.all fun entry => !(names.isPrefixOf entry.1 && entry.1 != names)

theorem lookup_isSome_iff : (nodes.lookup q).isSome = true ↔ ∃ n, (q, n) ∈ nodes := by
  simp

theorem isLeaf_iff : t.isLeaf names = true ↔ ∀ q, names <+: q → q ≠ names → t.node q = none := by
  rw [isLeaf, all_eq_true]
  constructor
  · intro h q hleads hne
    by_contra hnode
    obtain ⟨n, hn⟩ := lookup_isSome_iff.1 (Option.isSome_iff_ne_none.2 hnode)
    have hq := h (q, n) hn
    simp [ isPrefixOf_iff_prefix.2 hleads, hne] at hq
  · intro h entry hentry
    by_contra hbelow
    simp only [Bool.not_eq_true, Bool.not_eq_false', Bool.and_eq_true, bne_iff_ne,
      isPrefixOf_iff_prefix] at hbelow
    have hsome := lookup_isSome_iff.2 ⟨entry.2, hentry⟩
    have hnone := h entry.1 hbelow.1 hbelow.2
    rw [node] at hnone
    rw [hnone] at hsome
    cases hsome

/-- What a filter of the names keeps can be looked up as before. -/
theorem lookup_filter {p : List Text → Bool} (h : p q = true) :
    (nodes.filter fun entry => p entry.1).lookup q = nodes.lookup q := by
  induction nodes with
  | nil => rfl
  | cons entry nodes ih =>
    obtain ⟨at_, n⟩ := entry
    rw [lookup_cons_ite]
    by_cases hq : q = at_
    · subst hq
      simp [h]
    · rw [filter_cons]
      split
      · rw [lookup_cons_ite, if_neg hq, ih]
      · exact ih

theorem lookup_filter_ne : (nodes.filter fun entry => entry.1 != names).lookup q =
      if q = names then none else nodes.lookup q := by
  split
  next hq =>
    rw [lookup_eq_none_iff]
    intro entry hentry
    rw [hq, bne_comm]
    exact (mem_filter.1 hentry).2
  next hq => exact lookup_filter (p := (· != names)) (by simpa using hq)

/-- Take an entry away. -/
def remove (t : ContentTree C) (names : List Text) : ContentTree C :=
  if h : t.isLeaf names = true then
    { nodes := t.nodes.filter fun entry => entry.1 != names
      rooted := by
        intro above name hsome
        rw [lookup_filter_ne] at hsome
        by_cases heq : above ++ [name] = names
        · rw [if_pos heq] at hsome
          cases hsome
        · rw [if_neg heq] at hsome
          rcases t.rooted above name hsome with hroot | ⟨mode, hmode⟩
          · exact .inl hroot
          · refine .inr ⟨mode, ?_⟩
            rw [lookup_filter_ne, if_neg, hmode]
            rintro rfl
            have hnone := isLeaf_iff.1 h (above ++ [name]) (prefix_append _ _) (by simp)
            rw [node] at hnone
            rw [hnone] at hsome
            cases hsome
      root := by
        rw [lookup_filter_ne, t.root]
        simp }
  else t

theorem node_remove (h : t.isLeaf names = true) :
    (t.remove names).node q = if q = names then none else t.node q := by
  rw [remove, dif_pos h]
  exact lookup_filter_ne

section

variable (hne : names ≠ []) (h : ∀ mode, t.node names ≠ some (.directory mode))
include hne h

/-- There is nothing below what is not a directory. -/
theorem node_eq_none_of_below (below : List Text) (hbelow : below ≠ []) :
    t.node (names ++ below) = none := by
  induction below using reverseRecOn with
  | nil => exact absurd rfl hbelow
  | append_singleton below name ih =>
    by_contra hnode
    rw [← append_assoc] at hnode
    have hdir := isDirectory_parent (Option.isSome_iff_ne_none.2 hnode)
    obtain ⟨mode, hmode⟩ := (isDirectory_iff.1 hdir).resolve_left (by simp [hne])
    by_cases hnil : below = []
    · rw [hnil, append_nil] at hmode
      exact h mode hmode
    · rw [ih hnil] at hmode
      cases hmode

theorem isLeaf_of_not_directory : t.isLeaf names = true := by
  rw [isLeaf_iff]
  intro q hleads hq
  obtain ⟨below, rfl⟩ := hleads
  refine node_eq_none_of_below hne h below ?_
  rintro rfl
  simp at hq

end

/-- The tree with nothing in it. -/
def empty : ContentTree C where
  nodes := []
  rooted := by
    intro names name h
    cases h
  root := rfl

end ContentTree

end Axiomc.Foundation
