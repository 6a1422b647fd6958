import Axiomc.Foundation.UnixPath

/-!
# File trees with symbolic links

A static tree of files, directories and symbolic links, and how the system calls walk it.  A walk
follows every link it meets, at most `linkLimit` of them; a part after the last name, even an empty one
behind a trailing separator, asks for a directory.

* `walk`: the walk of the parts of a path.  When it may create, the last name may be missing;
* `walk_append`: a walk goes on from where its first half ends;
* `walk_self`: the names of a place that is no link lead to that place;
* `makeAll`: the places that are made when every missing directory of a path is made;
* `prefix_of_mem_makeAll`: below a missing name, and without `..`, only places below it are made.
-/

namespace Axiomc.Foundation

open List Option

/-- A place in a tree: the names that lead to it from the root. -/
abbrev Location := List Text

inductive Entry where
  | file
  | directory
  | link (target : Text)
  deriving DecidableEq, Repr

/-- A tree, with the working directory and the number of links that one walk follows. -/
structure FileTree where
  entry : Location → Option Entry
  root : entry [] = some .directory
  parent : ∀ {place : Location} {name : Text}, entry (place ++ [name]) ≠ none →
    entry place = some .directory
  named : ∀ {place : Location} {name : Text}, entry (place ++ [name]) ≠ none → IsName name
  cwd : Location
  cwd_directory : entry cwd = some .directory
  linkLimit : Nat

/-- A tree from the list of what is below its root. -/
def FileTree.ofEntries (entries : List (Location × Entry)) (linkLimit : Nat)
    (h : ∀ p ∈ entries, ∃ above name, p.1 = above ++ [name] ∧ IsName name ∧
      (above = [] ∨ entries.lookup above = some .directory)) : FileTree where
  entry place := if place = [] then some .directory else entries.lookup place
  root := rfl
  parent := by
    intro place name hne
    rw [if_neg (by simp)] at hne
    obtain ⟨entry, hentry⟩ := ne_none_iff_exists'.1 hne
    obtain ⟨before, after, hentries, -⟩ := lookup_eq_some_iff.1 hentry
    have hmem : (place ++ [name], entry) ∈ entries := by simp [hentries]
    obtain ⟨above, last, heq, -, habove⟩ := h _ hmem
    obtain ⟨rfl, -⟩ := append_inj' heq rfl
    split_ifs with hnil
    · rfl
    · exact habove.resolve_left hnil
  named := by
    intro place name hne
    rw [if_neg (by simp)] at hne
    obtain ⟨entry, hentry⟩ := ne_none_iff_exists'.1 hne
    obtain ⟨before, after, hentries, -⟩ := lookup_eq_some_iff.1 hentry
    have hmem : (place ++ [name], entry) ∈ entries := by simp [hentries]
    obtain ⟨above, last, heq, hname, -⟩ := h _ hmem
    obtain ⟨-, hlast⟩ := append_inj' heq rfl
    rw [cons.injEq] at hlast
    rw [hlast.1]
    exact hname
  cwd := []
  cwd_directory := rfl
  linkLimit := linkLimit

/-- The part that leads to the parent directory. -/
def dots : Text := ['.', '.']

namespace FileTree

/-- Where the target of a link is looked up. -/
def linkStart (place : Location) (target : Text) : Location :=
  if (UnixPath.ofText target).absolute then [] else place

/-- The walk with `links` links left; `follow` goes on behind a link. -/
def walkWith (tree : FileTree) (create : Bool) (links : Nat)
    (follow : Location → List Text → Option (Nat × Location)) :
    Location → List Text → Option (Nat × Location)
  | place, [] => some (links, place)
  | place, part :: rest =>
    if tree.entry place ≠ some .directory then none
    else if isFiller part then tree.walkWith create links follow place rest
    else if part = dots then tree.walkWith create links follow place.dropLast rest
    else
      match tree.entry (place ++ [part]) with
      | none => if create ∧ rest = [] then some (links, place ++ [part]) else none
      | some (.link target) =>
        follow (linkStart place target) ((UnixPath.ofText target).parts ++ rest)
      | some _ => tree.walkWith create links follow (place ++ [part]) rest

/-- Where the parts of a path lead from a place, and how many links are left. -/
def walk (tree : FileTree) (create : Bool) : Nat → Location → List Text → Option (Nat × Location)
  | 0 => tree.walkWith create 0 fun _ _ => none
  | links + 1 => tree.walkWith create (links + 1) (tree.walk create links)

/-- The walk behind a link. -/
def walkLink (tree : FileTree) (create : Bool) (links : Nat) (place : Location) (target : Text)
    (rest : List Text) : Option (Nat × Location) :=
  match links with
  | 0 => none
  | links + 1 => tree.walk create links (linkStart place target)
      ((UnixPath.ofText target).parts ++ rest)

/-- The walk of a name and what comes after it. -/
def walkName (tree : FileTree) (create : Bool) (links : Nat) (place : Location) (name : Text)
    (rest : List Text) : Option (Nat × Location) :=
  match tree.entry (place ++ [name]) with
  | none => if create ∧ rest = [] then some (links, place ++ [name]) else none
  | some (.link target) => tree.walkLink create links place target rest
  | some _ => tree.walk create links (place ++ [name]) rest

variable {tree : FileTree} {create : Bool} {links : Nat} {place : Location} {part : Text}
  {rest : List Text}

@[simp] theorem walk_nil : tree.walk create links place [] = some (links, place) := by
  cases links <;> rfl

theorem walk_cons : tree.walk create links place (part :: rest) =
    if tree.entry place ≠ some .directory then none
    else if isFiller part then tree.walk create links place rest
    else if part = dots then tree.walk create links place.dropLast rest
    else tree.walkName create links place part rest := by
  cases links <;> rfl

/-- Induction along a walk: it goes on with the rest of the parts, or behind a link with fewer links. -/
theorem walk_induction {P : Nat → Location → List Text → Prop} (nil : ∀ links place, P links place [])
    (cons : ∀ links place part rest, (∀ place', P links place' rest) →
      (∀ fewer place' parts, links = fewer + 1 → P fewer place' parts) → P links place (part :: rest)) :
    ∀ links place parts, P links place parts := by
  intro links
  induction links with
  | zero =>
    intro place parts
    induction parts generalizing place with
    | nil => exact nil 0 place
    | cons part rest ih => exact cons 0 place part rest ih (fun _ _ _ h => absurd h (by omega))
  | succ links outer =>
    intro place parts
    induction parts generalizing place with
    | nil => exact nil _ place
    | cons part rest ih =>
      refine cons _ place part rest ih ?_
      intro fewer place' parts h
      obtain rfl : links = fewer := by omega
      exact outer place' parts

/-! ### How a walk composes -/

/-- A walk goes on from where its first half ends. -/
theorem walk_append (hrest : rest ≠ []) (links : Nat) (place : Location) (parts : List Text) :
    tree.walk create links place (parts ++ rest) =
      (tree.walk false links place parts).bind fun r => tree.walk create r.1 r.2 rest := by
  refine walk_induction (P := fun links place parts =>
    tree.walk create links place (parts ++ rest) =
      (tree.walk false links place parts).bind fun r => tree.walk create r.1 r.2 rest)
    ?_ ?_ links place parts
  · intro links place
    simp
  · intro links place part parts ih behind
    rw [cons_append, walk_cons, walk_cons]
    split_ifs with hdir hfiller hdots
    · rfl
    · exact ih place
    · exact ih place.dropLast
    · unfold walkName
      cases hentry : tree.entry (place ++ [part]) with
      | none => simp [hrest]
      | some entry =>
        cases entry with
        | file | directory => exact ih (place ++ [part])
        | link target =>
          cases links with
          | zero => rfl
          | succ fewer =>
            show tree.walk create fewer _ (_ ++ (parts ++ rest)) =
              (tree.walk false fewer _ (_ ++ parts)).bind _
            rw [← append_assoc]
            exact behind fewer _ _ rfl

/-- A place that is there and is no link. -/
def Settled (tree : FileTree) (place : Location) : Prop :=
  ∃ entry, tree.entry place = some entry ∧ ∀ target, entry ≠ .link target

theorem settled_of_directory (h : tree.entry place = some .directory) : tree.Settled place :=
  ⟨.directory, h, by simp⟩

/-- Above a place that is there are directories. -/
theorem directory_of_below {above below : Location} (hbelow : below ≠ [])
    (h : tree.entry (above ++ below) ≠ none) : tree.entry above = some .directory := by
  induction below using reverseRecOn with
  | nil => exact absurd rfl hbelow
  | append_singleton below name ih =>
    rw [← append_assoc] at h
    have hdir := tree.parent h
    by_cases hnil : below = []
    · simpa [hnil] using hdir
    · exact ih hnil (by simp [hdir])

theorem directory_dropLast (h : tree.entry place = some .directory) :
    tree.entry place.dropLast = some .directory := by
  by_cases hnil : place = []
  · simpa [hnil] using tree.root
  · have hthere : tree.entry (place.dropLast ++ [place.getLast hnil]) ≠ none := by
      rw [dropLast_concat_getLast hnil, h]
      simp
    exact tree.parent hthere

theorem linkStart_directory {target : Text} (h : tree.entry place = some .directory) :
    tree.entry (linkStart place target) = some .directory := by
  unfold linkStart
  split
  · exact tree.root
  · exact h

variable {parts : List Text}

/-- A walk that creates nothing ends at a place that is there. -/
theorem settled_of_walk {result : Nat × Location} (hplace : tree.Settled place)
    (h : tree.walk false links place parts = some result) : tree.Settled result.2 := by
  revert hplace h
  refine walk_induction (P := fun links place parts => tree.Settled place →
    tree.walk false links place parts = some result → tree.Settled result.2) ?_ ?_ links place parts
  · intro links place hplace h
    rw [walk_nil, some.injEq] at h
    rw [← h]
    exact hplace
  · intro links place part rest ih behind hplace h
    rw [walk_cons] at h
    split_ifs at h with hdir hfiller hdots
    · exact ih place hplace h
    · rw [not_not] at hdir
      exact ih _ (settled_of_directory (directory_dropLast hdir)) h
    · rw [not_not] at hdir
      unfold walkName at h
      cases hentry : tree.entry (place ++ [part]) with
      | none => simp [hentry] at h
      | some entry =>
        rw [hentry] at h
        cases entry with
        | file | directory => exact ih _ ⟨_, hentry, by simp⟩ h
        | link target =>
          cases links with
          | zero => cases h
          | succ fewer =>
            exact behind fewer _ _ rfl (settled_of_directory (linkStart_directory hdir)) h

/-- The names of a place that is there and is no link lead to that place. -/
theorem walk_self (links : Nat) {names : List Text} (h : tree.Settled (place ++ names)) :
    tree.walk create links place names = some (links, place ++ names) := by
  induction names generalizing place with
  | nil => simp
  | cons name names ih =>
    obtain ⟨entry, hentry, hlink⟩ := h
    have hplace : tree.entry place = some .directory :=
      directory_of_below (cons_ne_nil name names) (by simp [hentry])
    have hassoc : place ++ name :: names = place ++ [name] ++ names := by simp
    have hthere : tree.entry (place ++ [name]) ≠ none := by
      by_cases hnil : names = []
      · subst hnil
        simp [hentry]
      · rw [hassoc] at hentry
        rw [directory_of_below hnil (by rw [hentry]; simp)]
        simp
    have hname := tree.named hthere
    have hnext : ∀ target, tree.entry (place ++ [name]) ≠ some (.link target) := by
      intro target hnext
      by_cases hnil : names = []
      · subst hnil
        rw [hnext] at hentry
        exact hlink target (some.inj hentry).symm
      · rw [hassoc] at hentry
        rw [directory_of_below hnil (by rw [hentry]; simp)] at hnext
        cases hnext
    rw [walk_cons, if_neg (by simp [hplace]),
      if_neg (by simp [isFiller_eq_false_iff.2 ⟨hname.ne_nil, hname.ne_dot⟩]),
      if_neg (show name ≠ dots from hname.ne_dots), walkName]
    have hrest : tree.walk create links (place ++ [name]) names =
        some (links, place ++ name :: names) := by
      rw [hassoc]
      exact ih ⟨entry, by rw [← hassoc]; exact hentry, hlink⟩
    cases hstep : tree.entry (place ++ [name]) with
    | none => exact absurd hstep hthere
    | some step =>
      cases step with
      | file => exact hrest
      | directory => exact hrest
      | link target => exact absurd hstep (hnext target)

variable {fillers : List Text}

/-- Fillers lead nowhere else, but ask for a directory. -/
theorem walk_fillers (h : Fillers fillers) (hne : fillers ≠ []) : tree.walk create links place fillers =
      if tree.entry place = some .directory then some (links, place) else none := by
  induction fillers with
  | nil => exact absurd rfl hne
  | cons part fillers ih =>
    rw [walk_cons, if_pos (h part mem_cons_self)]
    by_cases hdir : tree.entry place = some .directory
    · rw [if_neg (by simp [hdir]), if_pos hdir]
      by_cases hnil : fillers = []
      · rw [hnil, walk_nil]
      · rw [ih (fun p hp => h p (mem_cons_of_mem _ hp)) hnil, if_pos hdir]
    · rw [if_pos hdir, if_neg hdir]

/-- A walk that creates nothing goes part by part. -/
theorem walk_cons_bind : tree.walk false links place (part :: rest) =
    (tree.walk false links place [part]).bind fun r => tree.walk false r.1 r.2 rest := by
  by_cases hnil : rest = []
  · subst hnil
    cases tree.walk false links place [part] with
    | none => rfl
    | some r => exact walk_nil.symm
  · exact walk_append hnil links place [part]

/-! ### Making directories -/

/-- The places that are made when every missing directory on a path is made, in order. -/
def makeAll (tree : FileTree) : Nat → Location → List Text → List Location
  | _, _, [] => []
  | links, place, part :: rest =>
    if tree.entry place = none then
      -- The directory has just been made, so there is nothing in it.
      if isFiller part then tree.makeAll links place rest
      else if part = dots then tree.makeAll links place.dropLast rest
      else (place ++ [part]) :: tree.makeAll links (place ++ [part]) rest
    else
      match tree.walk false links place [part] with
      | some (left, next) => tree.makeAll left next rest
      | none =>
        -- A link that leads nowhere is in the way of a directory.
        if tree.entry place = some .directory ∧ tree.entry (place ++ [part]) = none then
          (place ++ [part]) :: tree.makeAll links (place ++ [part]) rest
        else []

/-- Nothing is made as long as the path exists. -/
theorem makeAll_of_walk {left : Nat} {next : Location}
    (hplace : tree.Settled place) (h : tree.walk false links place parts = some (left, next)) :
    tree.makeAll links place (parts ++ rest) = tree.makeAll left next rest := by
  induction parts generalizing links place with
  | nil =>
    rw [walk_nil, some.injEq, Prod.mk.injEq] at h
    rw [h.1, h.2, nil_append]
  | cons part parts ih =>
    have ⟨entry, hentry, _⟩ := hplace
    rw [walk_cons_bind, bind_eq_some_iff] at h
    obtain ⟨⟨links', place'⟩, hstep, hrest⟩ := h
    rw [cons_append, makeAll, if_neg (by simp [hentry]), hstep]
    exact ih (settled_of_walk hplace hstep) hrest

theorem entry_below_eq_none (h : tree.entry place = none) (name : Text) :
    tree.entry (place ++ [name]) = none := by
  by_contra hne
  rw [tree.parent hne] at h
  cases h

variable {made : Location}

/-- With `depth` names behind a directory, the next parts lead out of it by `..`. -/
def climbsOut : Nat → List Text → Bool
  | _, [] => false
  | depth, part :: rest =>
    if isFiller part then climbsOut depth rest
    else if part = dots then depth == 0 || climbsOut (depth - 1) rest
    else climbsOut (depth + 1) rest

theorem climbsOut_eq_false {depth : Nat} (h : dots ∉ parts) : climbsOut depth parts = false := by
  induction parts generalizing depth with
  | nil => rfl
  | cons part parts ih =>
    rw [mem_cons, not_or] at h
    rw [climbsOut, if_neg (Ne.symm h.1)]
    split
    · exact ih h.2
    · exact ih h.2

/-- In a directory that has just been made, and as long as no `..` leads out of it, only places below it
are made. -/
theorem prefix_of_mem_makeAll_new {below : Location} (hplace : tree.entry place = none)
    (hstays : climbsOut below.length parts = false)
    (h : made ∈ tree.makeAll links (place ++ below) parts) : place <+: made := by
  induction parts generalizing below with
  | nil => simp [makeAll] at h
  | cons part parts ih =>
    have hnew : tree.entry (place ++ below) = none := by
      clear hstays h
      induction below using reverseRecOn with
      | nil => rwa [append_nil]
      | append_singleton below name ih =>
        rw [← append_assoc]
        exact entry_below_eq_none ih name
    rw [makeAll, if_pos hnew] at h
    rw [climbsOut] at hstays
    split_ifs at h hstays with hfiller hpart
    · exact ih hstays h
    · rcases eq_nil_or_concat below with rfl | ⟨below, name, rfl⟩
      · cases hstays
      · rw [concat_eq_append] at h hstays
        rw [length_append, length_singleton, Bool.or_eq_false_iff] at hstays
        rw [← append_assoc, dropLast_concat] at h
        exact ih hstays.2 h
    · rw [append_assoc] at h
      rcases mem_cons.1 h with rfl | hmem
      · exact prefix_append _ _
      · exact ih (by rwa [length_append, length_singleton]) hmem

/-- Behind a place whose next name is missing, and as long as no `..` leads out of the directory made
there, only places below it are made. -/
theorem prefix_of_mem_makeAll {gap : List Text} {name : Text}
    (hplace : tree.Settled place) (hgap : Fillers gap)
    (hwalk : tree.walk false links place (gap ++ [name]) = none)
    (hstays : tree.entry place = some .directory → tree.entry (place ++ [name]) = none →
      climbsOut 0 parts = false)
    (h : made ∈ tree.makeAll links place (gap ++ name :: parts)) : place <+: made := by
  obtain ⟨entry, hentry, -⟩ := hplace
  by_cases hdir : tree.entry place = some .directory
  · have hskip : tree.walk false links place gap = some (links, place) := by
      by_cases hnil : gap = []
      · rw [hnil, walk_nil]
      · rw [walk_fillers hgap hnil, if_pos hdir]
    rw [makeAll_of_walk (settled_of_directory hdir) hskip, makeAll, if_neg (by simp [hdir])] at h
    rw [walk_append (by simp), hskip, bind_some] at hwalk
    rw [hwalk] at h
    by_cases hmissing : tree.entry (place ++ [name]) = none
    · rw [if_pos ⟨hdir, hmissing⟩] at h
      rcases mem_cons.1 h with rfl | hmem
      · exact prefix_append _ _
      · have hstays : climbsOut (@length Text []) parts = false := hstays hdir hmissing
        rw [← append_nil (place ++ [name])] at hmem
        exact (prefix_append _ _).trans (prefix_of_mem_makeAll_new hmissing hstays hmem)
    · rw [if_neg (fun hboth => hmissing hboth.2)] at h
      cases h
  · -- Nothing is made below a file.
    obtain ⟨first, rest, hcons⟩ : ∃ first rest, gap ++ name :: parts = first :: rest := by
      cases gap with
      | nil | cons first gap => exact ⟨_, _, rfl⟩
    have hstop : tree.walk false links place [first] = none := by
      rw [walk_cons, if_pos hdir]
    rw [hcons, makeAll, if_neg (by simp [hentry]), hstop] at h
    rw [if_neg (fun hboth => hdir hboth.1)] at h
    cases h

/-- Fillers make nothing. -/
theorem makeAll_fillers (hplace : tree.Settled place)
    (h : Fillers fillers) : tree.makeAll links place fillers = [] := by
  cases fillers with
  | nil => rfl
  | cons part fillers =>
    have ⟨entry, hentry, _⟩ := hplace
    by_cases hdir : tree.entry place = some .directory
    · have hwalk : tree.walk false links place (part :: fillers) = some (links, place) := by
        rw [walk_fillers h (by simp), if_pos hdir]
      rw [← append_nil (part :: fillers), makeAll_of_walk hplace hwalk, makeAll]
    · have hstop : tree.walk false links place [part] = none := by rw [walk_cons, if_pos hdir]
      rw [makeAll, if_neg (by simp [hentry]), hstop]
      exact if_neg fun hboth => hdir hboth.1

/-! ### System calls -/

/-- Where a path starts. -/
def start (tree : FileTree) (path : UnixPath) : Location := if path.absolute then [] else tree.cwd

/-- The walk of a path.  The empty path leads nowhere. -/
def resolve (tree : FileTree) (create : Bool) (path : UnixPath) : Option (Nat × Location) :=
  if path.isEmpty then none else tree.walk create tree.linkLimit (tree.start path) path.parts

/-- `fs::canonicalize`. -/
def canonicalize (tree : FileTree) (path : UnixPath) : Option Location :=
  (tree.resolve false path).map Prod.snd

/-- `Path::exists`. -/
def pathExists (tree : FileTree) (path : UnixPath) : Bool := (tree.canonicalize path).isSome

/-- `fs::symlink_metadata`: a link at the very end is not followed. -/
def symlinkMetadata (tree : FileTree) (path : UnixPath) : Option Entry :=
  let last := path.parts.getLast?.getD []
  if isFiller last ∨ last = dots then (tree.canonicalize path).bind tree.entry
  else (tree.walk false tree.linkLimit (tree.start path) path.parts.dropLast).bind fun r =>
    if tree.entry r.2 = some .directory then tree.entry (r.2 ++ [last]) else none

/-- The file that is opened, or created, when a path is opened for writing. -/
def openForWriting (tree : FileTree) (path : UnixPath) : Option Location :=
  (tree.resolve true path).map Prod.snd

/-- The directories that are made by `fs::create_dir_all`; `fs::create_dir` makes the last of them. -/
def createDirAll (tree : FileTree) (path : UnixPath) : List Location :=
  if path.isEmpty then [] else tree.makeAll tree.linkLimit (tree.start path) path.parts

/-- What is opened, created or made when a path is written to. -/
def Touches (tree : FileTree) (path : UnixPath) (place : Location) : Prop :=
  tree.openForWriting path = some place ∨ place ∈ tree.createDirAll path

/-- The path of a place. -/
def pathOf (place : Location) : UnixPath := ⟨true, place⟩

theorem start_settled (path : UnixPath) : tree.Settled (tree.start path) := by
  unfold start
  split
  · exact settled_of_directory tree.root
  · exact settled_of_directory tree.cwd_directory

variable {path : UnixPath}

theorem canonicalize_eq_some : tree.canonicalize path = some place ↔ path.isEmpty = false ∧
      ∃ left, tree.walk false tree.linkLimit (tree.start path) path.parts = some (left, place) := by
  unfold canonicalize resolve
  cases path.isEmpty <;> simp

theorem settled_of_canonicalize (h : tree.canonicalize path = some place) : tree.Settled place := by
  obtain ⟨-, left, hwalk⟩ := canonicalize_eq_some.1 h
  exact settled_of_walk (start_settled path) hwalk

/-- A canonical path leads to its place. -/
theorem resolve_pathOf (h : tree.Settled place) :
    tree.resolve create (pathOf place) = some (tree.linkLimit, place) := by
  exact walk_self tree.linkLimit h

/-- The path of a place that is there touches that place only. -/
theorem eq_of_touches_pathOf {other : Location} (h : tree.Settled place)
    (htouch : tree.Touches (pathOf place) other) : other = place := by
  rcases htouch with hopen | hmake
  · rw [openForWriting, resolve_pathOf h] at hopen
    exact (some.inj hopen).symm
  · have hwalk : tree.walk false tree.linkLimit [] place = some (tree.linkLimit, place) :=
      resolve_pathOf h
    have hnone : tree.createDirAll (pathOf place) = [] := by
      show tree.makeAll tree.linkLimit [] place = []
      rw [← append_nil place, makeAll_of_walk (settled_of_directory tree.root) hwalk, makeAll]
    rw [hnone] at hmake
    cases hmake

end FileTree

end Axiomc.Foundation
