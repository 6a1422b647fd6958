import Axiomc.Foundation.FileTree

/-!
# The scope of file operations

The two functions of `host_fs.rs` that turn the path of a program into a path of the host.  Both compare
canonical paths with the canonical root of the scope; a path that does not exist yet is judged by its
directory, or by the nearest directory above it that exists.

* `spikeFsExistingCandidateForScope`, `spikeFsWriteCandidateForScope`: the two functions;
* `Confined`: opening or creating a path stays at or below the root;
* `EndsInLink`, `LeavesMissing`: where the second function does not look.  A separator behind the last
  name hides a link there, and a `..` that leads out of a missing directory is not followed;
* `spikeFs_confined`: the first function keeps to the root.  The second does so without missing ancestors
  exactly when no link at the end leads out, and with missing ancestors when no `..` leaves a missing one.

The tree does not change between the check and the use of a path.
-/

namespace Axiomc.Host

open Foundation FileTree Option List UnixPath

/-! ### The source -/

def spikeFsJoinCandidates (packageRoot fsRoot : UnixPath) (path : Text) : Option (List UnixPath) :=
  let requested := ofText path
  if path = [] ∨ .parentDir ∈ requested.components then none
  else
    let primary := if requested.absolute then requested else packageRoot.join requested
    -- Paths are compared by their components.
    if requested.absolute = false ∧ fsRoot.components ≠ packageRoot.components then
      some [primary, fsRoot.join requested]
    else some [primary]

def spikeFsJoinCandidate (packageRoot : UnixPath) (path : Text) : Option UnixPath :=
  (spikeFsJoinCandidates packageRoot packageRoot path).bind head?

def spikeFsExistingCandidateForScope (tree : FileTree) (packageRoot fsRoot : UnixPath)
    (path : Text) : Option UnixPath := do
  let canonicalRoot ← tree.canonicalize fsRoot
  let candidates ← spikeFsJoinCandidates packageRoot fsRoot path
  candidates.findSome? fun candidate =>
    ((tree.canonicalize candidate).filter fun place => canonicalRoot.isPrefixOf place).map pathOf

/-- The loop that climbs until a directory exists. -/
def existingAncestor (tree : FileTree) (path : UnixPath) : Option UnixPath :=
  if tree.pathExists path then some path
  else
    match _h : path.parent with
    | none => none
    | some above => existingAncestor tree above
  termination_by path.parts.length
  decreasing_by exact parent_length_lt (by assumption)

def Entry.isSymlink : Entry → Bool
  | .link _ => true
  | _ => false

def spikeFsWriteCandidateForScope (tree : FileTree) (packageRoot fsRoot : UnixPath) (path : Text)
    (allowMissingAncestors : Bool) : Option UnixPath := do
  let candidate ← spikeFsJoinCandidate packageRoot path
  let canonicalRoot ← tree.canonicalize fsRoot
  match tree.canonicalize candidate with
  | some place => if canonicalRoot <+: place then some (pathOf place) else none
  | none =>
    if (tree.symlinkMetadata candidate).any Entry.isSymlink then none
    else do
      let parent ← candidate.parent
      if allowMissingAncestors then do
        let ancestor ← existingAncestor tree parent
        let canonicalAncestor ← tree.canonicalize ancestor
        if canonicalRoot <+: canonicalAncestor then some candidate else none
      else do
        let canonicalParent ← tree.canonicalize parent
        if canonicalRoot <+: canonicalParent then do
          let name ← candidate.fileName
          some ((pathOf canonicalParent).join ⟨false, [name]⟩)
        else none

/-! ### The guarantee -/

/-- Opening or creating the path touches nothing outside of the root. -/
def Confined (tree : FileTree) (root : Location) (path : UnixPath) : Prop :=
  ∀ place, tree.Touches path place → root <+: place

/-- The last name of a path is a link, in the directory that the path is in, which leads out of the
root. -/
def EndsInLink (tree : FileTree) (root : Location) (path : UnixPath) : Prop :=
  ∃ above place name target s, path.parent = some above ∧ tree.canonicalize above = some place ∧
    path.fileName = some name ∧ tree.entry (place ++ [name]) = some (.link target) ∧
    tree.walkLink true tree.linkLimit place target [] = some s ∧ ¬ root <+: s.2

/-- A `..` of the path leads out of a directory that does not exist: the parts `before` lead to a
directory, `name` is missing there, and what comes after it climbs out of `name`. -/
def LeavesMissing (tree : FileTree) (path : UnixPath) : Prop :=
  ∃ before name after s, path.parts = before ++ name :: after ∧
    tree.walk false tree.linkLimit (tree.start path) before = some s ∧
    tree.walk false tree.linkLimit (tree.start path) (before ++ [name]) = none ∧
    tree.entry s.2 = some .directory ∧ tree.entry (s.2 ++ [name]) = none ∧ climbsOut 0 after = true

variable {tree : FileTree} {path above : UnixPath} {root : Location}

/-! ### A missing path with its directory -/

variable {gap : List Text} {place : Location} {s : Nat × Location} {ancestor : UnixPath}
  {parts : List Text} {name : Text}

theorem walk_fillers_behind {links : Nat} {start : Location} (hgap : Fillers gap)
    (hwalk : tree.walk false links start parts = some s) (hdir : tree.entry s.2 = some .directory) :
    tree.walk false links start (parts ++ gap) = some s := by
  by_cases hnil : gap = []
  · rw [hnil, append_nil, hwalk]
  · rw [walk_append hnil, hwalk, bind_some, walk_fillers hgap hnil, if_pos hdir]

/-- The link at the end of a path whose directory exists is seen. -/
theorem symlinkMetadata_of_parent {left : Nat}
    (hparts : path.parts = parts ++ gap ++ [name]) (hname : isFiller name = false)
    (hdots : name ≠ dots) (hgap : Fillers gap)
    (hwalk : tree.walk false tree.linkLimit (tree.start path) parts = some (left, place))
    (hdir : tree.entry place = some .directory) :
    tree.symlinkMetadata path = tree.entry (place ++ [name]) := by
  have hskip := walk_fillers_behind hgap hwalk hdir
  have hlast : path.parts.getLast?.getD [] = name := by rw [hparts]; simp
  have hbefore : path.parts.dropLast = parts ++ gap := by rw [hparts]; simp
  rw [symlinkMetadata, hlast, if_neg (by simp [hname, hdots]), hbefore, hskip, bind_some, if_pos hdir]

theorem pathOf_join (h : tree.Settled place) :
    (pathOf place).join ⟨false, [name]⟩ = pathOf (place ++ [name]) := by
  have hlast : place.getLast? ≠ some [] := by
    intro hlast
    obtain ⟨before, rfl⟩ := getLast?_eq_some_iff.1 hlast
    obtain ⟨entry, hentry, -⟩ := h
    have hthere : tree.entry (before ++ [[]]) ≠ none := by simp [hentry]
    exact (tree.named hthere).ne_nil rfl
  simp [UnixPath.join, pathOf, hlast]

/-- A name in a directory that exists: opening it leads where the name leads, and making it makes it. -/
theorem confined_child_iff (hplace : tree.Settled place)
    (hroot : root <+: place) : Confined tree root (pathOf (place ++ [name])) ↔
      ∀ target, (tree.walk true tree.linkLimit place [name]).map Prod.snd = some target →
        root <+: target := by
  have hself : tree.walk false tree.linkLimit [] place = some (tree.linkLimit, place) :=
    resolve_pathOf hplace
  have hopen : tree.openForWriting (pathOf (place ++ [name])) =
      (tree.walk true tree.linkLimit place [name]).map Prod.snd := by
    show (tree.walk true tree.linkLimit [] (place ++ [name])).map Prod.snd = _
    rw [walk_append (by simp), hself, bind_some]
  have hmake : ∀ made ∈ tree.createDirAll (pathOf (place ++ [name])), root <+: made := by
    intro made hmade
    have hmade : made ∈ tree.makeAll tree.linkLimit [] (place ++ [name]) := hmade
    rw [makeAll_of_walk (settled_of_directory tree.root) hself] at hmade
    refine hroot.trans ?_
    cases hstep : tree.walk false tree.linkLimit place [name] with
    | none =>
      have hnone : Fillers [] := by simp [Fillers]
      exact prefix_of_mem_makeAll hplace hnone hstep (fun _ _ => rfl) hmade
    | some r =>
      rw [← append_nil [name], makeAll_of_walk hplace hstep] at hmade
      cases hmade
  constructor
  · intro h target htarget
    exact h target (.inl (hopen.trans htarget))
  · intro h target htouch
    rcases htouch with htouch | htouch
    · exact h target (hopen.symm.trans htouch)
    · exact hmake target htouch

variable {r : Nat × Location} {fsRoot packageRoot returned : UnixPath} {links : Nat}

/-- Fillers behind a walk leave its place. -/
theorem walk_append_fillers {start : Location} (hgap : Fillers gap)
    (hwalk : tree.walk false links start parts = some r)
    (h : tree.walk false links start (parts ++ gap) = some s) : s = r := by
  by_cases hnil : gap = []
  · rw [hnil, append_nil, hwalk] at h
    exact (some.inj h).symm
  · rw [walk_append hnil, hwalk, bind_some, walk_fillers hgap hnil] at h
    split_ifs at h
    exact (some.inj h).symm

/-- Opening a name in a directory ends there, unless the name is a link. -/
theorem walk_name (hname : isFiller name = false) (hdots : name ≠ dots)
    (h : tree.walk true links place [name] = some s) : tree.entry place = some .directory ∧
      (s.2 = place ++ [name] ∨ ∃ target, tree.entry (place ++ [name]) = some (.link target) ∧
        tree.walkLink true links place target [] = some s) := by
  rw [walk_cons] at h
  by_cases hdir : tree.entry place = some .directory
  · refine ⟨hdir, ?_⟩
    rw [if_neg (by simp [hdir]), if_neg (by simp [hname]), if_neg hdots, walkName] at h
    cases hentry : tree.entry (place ++ [name]) with
    | none =>
      rw [hentry] at h
      cases h
      exact .inl rfl
    | some entry =>
      rw [hentry] at h
      cases entry with
      | file | directory =>
        cases walk_nil.symm.trans h
        exact .inl rfl
      | link target => exact .inr ⟨target, rfl, h⟩
  · rw [if_pos hdir] at h
    cases h

/-- Opening a missing path stays in its directory: a link at its end would have been seen. -/
theorem open_missing {trailing : List Text} (hparts : path.parts = parts ++ gap ++ name :: trailing)
    (hname : isFiller name = false) (hgap : Fillers gap) (htrailing : Fillers trailing)
    (hwalk : tree.walk false tree.linkLimit (tree.start path) parts = some r)
    (hmissing : tree.walk false tree.linkLimit (tree.start path) path.parts = none)
    (hlink : (tree.symlinkMetadata path).any Entry.isSymlink = false)
    (h : tree.walk true tree.linkLimit (tree.start path) path.parts = some s) :
    s.2 = r.2 ++ [name] := by
  by_cases hnil : trailing = []
  · subst hnil
    have hfull := hparts
    rw [hparts, walk_append (by simp), bind_eq_some_iff] at h
    obtain ⟨r', hbefore, hlast⟩ := h
    obtain rfl := walk_append_fillers hgap hwalk hbefore
    rw [hparts, walk_append (by simp), hbefore, bind_some] at hmissing
    by_cases hdots : name = dots
    · -- The parent of a directory always exists.
      rw [walk_cons] at hlast hmissing
      simp_all
    · obtain ⟨hdir, hplace | ⟨target, htarget, -⟩⟩ := walk_name hname hdots hlast
      · exact hplace
      · rw [symlinkMetadata_of_parent hfull hname hdots hgap hwalk hdir, htarget] at hlink
        cases hlink
  · -- Behind the last name a directory is asked for, whether or not it may be created.
    have hsplit : path.parts = parts ++ gap ++ [name] ++ trailing := by rw [hparts]; simp
    rw [hsplit, walk_append hnil, bind_eq_some_iff] at h
    obtain ⟨r', hbefore, hrest⟩ := h
    rw [hsplit, walk_append hnil, hbefore, bind_some, walk_fillers htrailing hnil] at hmissing
    rw [walk_fillers htrailing hnil, hmissing] at hrest
    cases hrest

/-! ### The nearest directory that exists -/

theorem isEmpty_of_parent (h : path.parent = some above) : path.isEmpty = false := by
  by_contra hempty
  rw [parent_of_isEmpty (by simpa using hempty)] at h
  cases h

theorem pathExists_iff : tree.pathExists path = true ↔ path.isEmpty = false ∧
    ∃ r, tree.walk false tree.linkLimit (tree.start path) path.parts = some r := by
  rw [pathExists, isSome_iff_exists]
  simp only [canonicalize_eq_some]
  constructor
  · intro h
    obtain ⟨place, hne, left, hwalk⟩ := h
    exact ⟨hne, _, hwalk⟩
  · intro h
    obtain ⟨hne, ⟨left, place⟩, hwalk⟩ := h
    exact ⟨place, hne, left, hwalk⟩

theorem start_eq_of_absolute {other : UnixPath} (h : other.absolute = path.absolute) :
    tree.start other = tree.start path := by
  rw [start, start, h]

/-- The ancestor exists, and the next name on the way down from it is missing. -/
theorem existingAncestor_spec (htrimmed : path.Trimmed)
    (h : existingAncestor tree path = some ancestor) :
    tree.pathExists ancestor = true ∧ ancestor.absolute = path.absolute ∧
      (ancestor = path ∨ ∃ gap name rest, path.parts = ancestor.parts ++ gap ++ name :: rest ∧
        Fillers gap ∧ tree.walk false tree.linkLimit (tree.start path)
          (ancestor.parts ++ gap ++ [name]) = none) := by
  induction hlength : path.parts.length using Nat.strong_induction_on generalizing path with
  | _ length ih =>
    rw [existingAncestor] at h
    by_cases hexists : tree.pathExists path = true
    · rw [if_pos hexists] at h
      cases h
      exact ⟨hexists, rfl, .inl rfl⟩
    · rw [if_neg hexists] at h
      split at h
      · cases h
      rename_i above habove
      obtain ⟨habs, htrim, gap, name, trailing, hparts, hgap, -, -, htrailing⟩ :=
        parent_spec habove
      obtain rfl := htrailing htrimmed
      have hmissing : tree.walk false tree.linkLimit (tree.start path) path.parts = none := by
        by_contra hne
        obtain ⟨r, hwalk⟩ := ne_none_iff_exists'.1 hne
        exact hexists (pathExists_iff.2 ⟨isEmpty_of_parent habove, r, hwalk⟩)
      obtain ⟨hanc, habs', hcases⟩ := ih above.parts.length
        (by rw [← hlength]; exact parent_length_lt habove) htrim h rfl
      refine ⟨hanc, habs'.trans habs, .inr ?_⟩
      rcases hcases with rfl | ⟨gap', name', rest', hparts', hgap', hwalk'⟩
      · exact ⟨gap, name, [], hparts, hgap, by rw [← hparts]; exact hmissing⟩
      · refine ⟨gap', name', rest' ++ gap ++ [name], ?_, hgap', ?_⟩
        · rw [hparts, hparts']
          simp
        · rw [← start_eq_of_absolute habs]
          exact hwalk'

theorem walk_eq_none_of_canonicalize (hne : path.isEmpty = false) (h : tree.canonicalize path = none) :
    tree.walk false tree.linkLimit (tree.start path) path.parts = none := by
  by_contra hsome
  obtain ⟨⟨left, place⟩, hwalk⟩ := ne_none_iff_exists'.1 hsome
  rw [canonicalize_eq_some.2 ⟨hne, left, hwalk⟩] at h
  cases h

/-! ### The three ways to a path -/

theorem confined_of_existing (hplace : tree.Settled place)
    (hroot : root <+: place) : Confined tree root (pathOf place) := by
  intro other htouch
  rw [eq_of_touches_pathOf hplace htouch]
  exact hroot

/-- A link in a directory is followed by opening its name. -/
theorem walk_link {target : Text} (h : tree.entry (place ++ [name]) = some (.link target)) :
    tree.walk true links place [name] = tree.walkLink true links place target [] := by
  have hthere : tree.entry (place ++ [name]) ≠ none := by simp [h]
  have hnamed := tree.named hthere
  rw [walk_cons, if_neg (by simp [tree.parent hthere]),
    if_neg (by simp [isFiller_eq_false_iff.2 ⟨hnamed.ne_nil, hnamed.ne_dot⟩]),
    if_neg (show name ≠ dots from hnamed.ne_dots), walkName, h]

/-- In a directory that exists, all depends on where the last name leads. -/
theorem confined_in_parent_iff (habove : path.parent = some above)
    (hplace : tree.canonicalize above = some place) (hroot : root <+: place)
    (hfile : path.fileName = some name) :
    Confined tree root ((pathOf place).join ⟨false, [name]⟩) ↔ ¬ EndsInLink tree root path := by
  have hsettled := settled_of_canonicalize hplace
  rw [pathOf_join hsettled, confined_child_iff hsettled hroot]
  constructor
  · rintro h ⟨above', place', name', target, s, habove', hplace', hfile', htarget, hfollow, hout⟩
    obtain rfl : above = above' := some.inj (habove.symm.trans habove')
    obtain rfl : place = place' := some.inj (hplace.symm.trans hplace')
    obtain rfl : name = name' := some.inj (hfile.symm.trans hfile')
    refine hout (h s.2 ?_)
    rw [walk_link htarget, hfollow]
    rfl
  · intro h target htarget
    obtain ⟨s, hs, rfl⟩ := map_eq_some_iff.1 htarget
    obtain ⟨-, -, gap, last, trailing, hparts, -, htrailing, hlast, -⟩ := parent_spec habove
    obtain ⟨hne, -⟩ := canonicalize_eq_some.1 hplace
    have hlast : isFiller last = false := hlast.resolve_right (by simp [hne])
    obtain ⟨rfl, hdots⟩ := fileName_spec hparts hlast htrailing hfile
    obtain ⟨-, hend | ⟨text, htext, hfollow⟩⟩ := walk_name hlast hdots hs
    · rw [hend]
      exact hroot.trans (prefix_append _ _)
    · by_contra hout
      exact h ⟨above, place, name, text, s, habove, hplace, hfile, htext, hfollow, hout⟩

section Ancestor

variable (habove : path.parent = some above) (hancestor : existingAncestor tree above = some ancestor)
  (hplace : tree.canonicalize ancestor = some place)

include habove hancestor hplace

/-- Opening a path below the nearest directory that exists stays below it. -/
theorem open_below_ancestor {target : Location} (hmissing : tree.canonicalize path = none)
    (hlink : (tree.symlinkMetadata path).any Entry.isSymlink = false)
    (h : tree.openForWriting path = some target) : place <+: target := by
  obtain ⟨habs, htrim, gap, last, trailing, hparts, hgap, htrailing, hlast, -⟩ :=
    parent_spec habove
  obtain ⟨-, -, hcases⟩ := existingAncestor_spec htrim hancestor
  have hnonempty := isEmpty_of_parent habove
  rw [openForWriting, resolve, hnonempty] at h
  obtain ⟨s, hs, rfl⟩ := map_eq_some_iff.1 h
  rcases hcases with rfl | ⟨gap', name, rest, hparts', -, hnone⟩
  · obtain ⟨hne, left, hwalk⟩ := canonicalize_eq_some.1 hplace
    rw [start_eq_of_absolute habs] at hwalk
    rw [open_missing hparts (hlast.resolve_right (by simp [hne])) hgap htrailing hwalk
      (walk_eq_none_of_canonicalize hnonempty hmissing) hlink hs]
    exact prefix_append _ _
  · -- The directory of the path is missing, so that nothing is opened.
    have hsplit : path.parts =
        ancestor.parts ++ gap' ++ [name] ++ (rest ++ gap ++ last :: trailing) := by
      rw [hparts, hparts']
      simp
    rw [start_eq_of_absolute habs] at hnone
    have hstop : tree.walk true tree.linkLimit (tree.start path) path.parts = some s := hs
    rw [hsplit, walk_append (by simp), hnone] at hstop
    cases hstop

/-- Making a path below the nearest directory that exists stays below it, unless the path leaves a
missing directory again. -/
theorem make_below_ancestor {made : Location} (hleaves : ¬ LeavesMissing tree path)
    (h : made ∈ tree.createDirAll path) : place <+: made := by
  obtain ⟨habs, htrim, gap, last, trailing, hparts, hgap, htrailing, -, -⟩ :=
    parent_spec habove
  obtain ⟨-, habs', hcases⟩ := existingAncestor_spec htrim hancestor
  obtain ⟨-, left, hwalk⟩ := canonicalize_eq_some.1 hplace
  rw [start_eq_of_absolute (habs'.trans habs)] at hwalk
  have hsettled := settled_of_canonicalize hplace
  have hmade : made ∈ tree.makeAll tree.linkLimit (tree.start path) path.parts := by
    rw [createDirAll, isEmpty_of_parent habove] at h
    exact h
  rcases hcases with rfl | ⟨gap', name, rest, hparts', hgap', hnone⟩
  · rw [hparts, append_assoc, makeAll_of_walk (start_settled path) hwalk] at hmade
    cases hstep : tree.walk false left place (gap ++ [last]) with
    | none =>
      refine prefix_of_mem_makeAll hsettled hgap hstep (fun _ _ => climbsOut_eq_false ?_) hmade
      intro hdots
      have hfiller := htrailing dots hdots
      revert hfiller
      decide
    | some r =>
      rw [append_cons, makeAll_of_walk hsettled hstep,
        makeAll_fillers (settled_of_walk hsettled hstep) htrailing] at hmade
      cases hmade
  · rw [start_eq_of_absolute habs] at hnone
    have hstop : tree.walk false left place (gap' ++ [name]) = none := by
      rw [append_assoc, walk_append (by simp), hwalk] at hnone
      exact hnone
    have hsplit : path.parts =
        ancestor.parts ++ (gap' ++ name :: (rest ++ gap ++ last :: trailing)) := by
      rw [hparts, hparts']
      simp
    rw [hsplit, makeAll_of_walk (start_settled path) hwalk] at hmade
    refine prefix_of_mem_makeAll hsettled hgap' hstop (fun hdir hmissing => ?_) hmade
    by_contra hclimbs
    refine hleaves ⟨ancestor.parts ++ gap', name, rest ++ gap ++ last :: trailing, (left, place), ?_,
      walk_fillers_behind hgap' hwalk hdir, hnone, hdir, hmissing, by simpa using hclimbs⟩
    rw [hsplit, append_assoc ancestor.parts]

theorem confined_below_ancestor (hmissing : tree.canonicalize path = none)
    (hlink : (tree.symlinkMetadata path).any Entry.isSymlink = false) (hroot : root <+: place)
    (hleaves : ¬ LeavesMissing tree path) : Confined tree root path := by
  intro made htouch
  rcases htouch with hopen | hmade
  · exact hroot.trans (open_below_ancestor habove hancestor hplace hmissing hlink hopen)
  · exact hroot.trans (make_below_ancestor habove hancestor hplace hleaves hmade)

end Ancestor

/-! ### The two functions -/

theorem canonicalize_pathOf (h : tree.Settled place) :
    tree.canonicalize (pathOf place) = some place := by
  rw [canonicalize, resolve_pathOf h]
  rfl

variable {text : Text}

theorem spikeFsExistingCandidateForScope_spec
    (h : spikeFsExistingCandidateForScope tree packageRoot fsRoot text = some returned) :
    ∃ canonicalRoot place, tree.canonicalize fsRoot = some canonicalRoot ∧
      tree.canonicalize returned = some place ∧ canonicalRoot <+: place := by
  obtain ⟨canonicalRoot, hroot, h⟩ := bind_eq_some_iff.1 h
  obtain ⟨candidates, -, h⟩ := bind_eq_some_iff.1 h
  obtain ⟨candidate, -, h⟩ := exists_of_findSome?_eq_some h
  obtain ⟨place, hplace, rfl⟩ := map_eq_some_iff.1 h
  obtain ⟨hcanonical, hbelow⟩ := filter_eq_some_iff.1 hplace
  exact ⟨canonicalRoot, place, hroot, canonicalize_pathOf (settled_of_canonicalize hcanonical),
    isPrefixOf_iff_prefix.1 hbelow⟩

/-- What the second function has checked when it returns a path that does not exist yet. -/
theorem spikeFsWriteCandidateForScope_spec {candidate : UnixPath} {allowMissingAncestors : Bool}
    (hroot : tree.canonicalize fsRoot = some root)
    (hcandidate : spikeFsJoinCandidate packageRoot text = some candidate)
    (h : spikeFsWriteCandidateForScope tree packageRoot fsRoot text allowMissingAncestors =
      some returned) :
    (tree.canonicalize candidate ≠ none ∧ Confined tree root returned) ∨
      tree.canonicalize candidate = none ∧
        (Confined tree root returned ↔ ¬ EndsInLink tree root candidate) ∧ allowMissingAncestors = false ∨
      tree.canonicalize candidate = none ∧ (¬ LeavesMissing tree candidate → Confined tree root returned) ∧
        allowMissingAncestors = true := by
  rw [spikeFsWriteCandidateForScope, hcandidate, bind_eq_bind, hroot, bind_some] at h
  cases hcanonical : tree.canonicalize candidate with
  | some place =>
    rw [hcanonical] at h
    obtain ⟨hbelow, ⟨⟩⟩ := ite_none_right_eq_some.1 h
    exact .inl ⟨nofun, confined_of_existing (settled_of_canonicalize hcanonical) hbelow⟩
  | none =>
    rw [hcanonical] at h
    obtain ⟨hlink, h⟩ := ite_none_left_eq_some.1 h
    rw [Bool.not_eq_true] at hlink
    obtain ⟨above, habove, h⟩ := bind_eq_some_iff.1 h
    cases allowMissingAncestors with
    | true =>
      obtain ⟨ancestor, hancestor, h⟩ := bind_eq_some_iff.1 h
      obtain ⟨place, hplace, h⟩ := bind_eq_some_iff.1 h
      obtain ⟨hbelow, ⟨⟩⟩ := ite_none_right_eq_some.1 h
      exact .inr (.inr ⟨rfl, confined_below_ancestor habove hancestor hplace hcanonical hlink hbelow, rfl⟩)
    | false =>
      obtain ⟨place, hplace, h⟩ := bind_eq_some_iff.1 h
      obtain ⟨hbelow, h⟩ := ite_none_right_eq_some.1 h
      obtain ⟨name, hname, hjoin⟩ := bind_eq_some_iff.1 h
      cases hjoin
      exact .inr (.inl ⟨rfl, confined_in_parent_iff habove hplace hbelow hname, rfl⟩)

/-- A path that is read resolves at or below the root.  A path that is written to stays at or below it
when it resolves.  When it does not and ancestors may not be missing, it does so exactly if no link at its
end leads out of the root; when ancestors may be missing, if no `..` leads out of a missing one. -/
theorem spikeFs_confined (tree : FileTree) (packageRoot fsRoot : UnixPath) (text : Text) :
    (∀ returned, spikeFsExistingCandidateForScope tree packageRoot fsRoot text = some returned →
      ∃ root place, tree.canonicalize fsRoot = some root ∧
        tree.canonicalize returned = some place ∧ root <+: place) ∧
    ∀ root candidate returned, tree.canonicalize fsRoot = some root →
      spikeFsJoinCandidate packageRoot text = some candidate →
      (spikeFsWriteCandidateForScope tree packageRoot fsRoot text false = some returned →
        (Confined tree root returned ↔
          (tree.canonicalize candidate = none → ¬ EndsInLink tree root candidate))) ∧
      (spikeFsWriteCandidateForScope tree packageRoot fsRoot text true = some returned →
        (tree.canonicalize candidate = none → ¬ LeavesMissing tree candidate) →
        Confined tree root returned) := by
  refine ⟨fun _ h => spikeFsExistingCandidateForScope_spec h,
    fun root candidate returned hroot hcandidate => ?_⟩
  refine ⟨fun h => ?_, fun h hleaves => ?_⟩
  · obtain ⟨hexists, hconfined⟩ | ⟨hmissing, hiff, -⟩ | ⟨-, -, ⟨⟩⟩ :=
      spikeFsWriteCandidateForScope_spec hroot hcandidate h
    · exact ⟨fun _ hnone => absurd hnone hexists, fun _ => hconfined⟩
    · exact hiff.trans ⟨fun hlink _ => hlink, fun hlink => hlink hmissing⟩
  · obtain ⟨-, hconfined⟩ | ⟨-, -, ⟨⟩⟩ | ⟨hmissing, hconfined, -⟩ :=
      spikeFsWriteCandidateForScope_spec hroot hcandidate h
    · exact hconfined
    · exact hconfined (hleaves hmissing)

/-! ### A link behind a separator -/

namespace Sample

/-- A package with a link that leads out of it, to a file that does not exist yet. -/
def linkedTree : FileTree :=
  .ofEntries [(["app".toList], .directory), (["app".toList, "out".toList], .link "/secret".toList)]
    40 (by
      intro p hp
      rcases mem_cons.1 hp with rfl | hp
      · exact ⟨[], "app".toList, rfl, by decide, .inl rfl⟩
      · rw [mem_singleton] at hp
        subst hp
        exact ⟨["app".toList], "out".toList, rfl, by decide, .inr rfl⟩)

def app : UnixPath := .ofText "/app".toList

end Sample

/-- The path `out/` is taken for a new file, and opening the file follows the link. -/
theorem spikeFsWriteCandidate_follows_link :
    spikeFsWriteCandidateForScope Sample.linkedTree Sample.app Sample.app "out/".toList false =
        some (pathOf ["app".toList, "out".toList]) ∧
      Sample.linkedTree.Touches (pathOf ["app".toList, "out".toList]) ["secret".toList] ∧
      ¬ Confined Sample.linkedTree ["app".toList] (pathOf ["app".toList, "out".toList]) := by
  have htouch : Sample.linkedTree.Touches (pathOf ["app".toList, "out".toList]) ["secret".toList] :=
    .inl (by decide)
  refine ⟨by decide, htouch, ?_⟩
  intro h
  have hbelow := h _ htouch
  revert hbelow
  decide

/-- A new file beside the link, and a new file in a new directory. -/
theorem spikeFs_confined_new_file :
    (spikeFsWriteCandidateForScope Sample.linkedTree Sample.app Sample.app "new/".toList false =
        some (pathOf ["app".toList, "new".toList]) ∧
      Confined Sample.linkedTree ["app".toList] (pathOf ["app".toList, "new".toList])) ∧
    spikeFsWriteCandidateForScope Sample.linkedTree Sample.app Sample.app "sub/new".toList true =
        some (ofText "/app/sub/new".toList) ∧
      Confined Sample.linkedTree ["app".toList] (ofText "/app/sub/new".toList) := by
  have hnew : spikeFsWriteCandidateForScope Sample.linkedTree Sample.app Sample.app
      "new/".toList false = some (pathOf ["app".toList, "new".toList]) := by decide
  have hdeep : spikeFsWriteCandidateForScope Sample.linkedTree Sample.app Sample.app
      "sub/new".toList true = some (ofText "/app/sub/new".toList) := by decide +kernel
  refine ⟨⟨hnew, ?_⟩, hdeep, ?_⟩
  · refine (((spikeFs_confined Sample.linkedTree Sample.app Sample.app "new/".toList).2 _
      (ofText "/app/new/".toList) _ (by decide) (by decide)).1 hnew).2 ?_
    rintro - ⟨above, place, name, target, s, habove, hplace, hname, htarget, -⟩
    have habove' : (ofText "/app/new/".toList).parent = some (pathOf ["app".toList]) := by decide
    obtain rfl := some.inj (habove'.symm.trans habove)
    have hplace' : Sample.linkedTree.canonicalize (pathOf ["app".toList]) = some ["app".toList] := by
      decide
    obtain rfl := some.inj (hplace'.symm.trans hplace)
    have hname' : (ofText "/app/new/".toList).fileName = some "new".toList := by decide
    obtain rfl := some.inj (hname'.symm.trans hname)
    have hnone : Sample.linkedTree.entry (["app".toList] ++ ["new".toList]) = none := by decide
    cases hnone.symm.trans htarget
  · refine ((spikeFs_confined Sample.linkedTree Sample.app Sample.app "sub/new".toList).2 _
      (ofText "/app/sub/new".toList) _ (by decide) (by decide)).2 hdeep ?_
    rintro - ⟨before, name, after, s, hparts, -, -, -, -, hclimbs⟩
    -- A path without `..` leaves no directory.
    have hdots : dots ∉ after := by
      intro hmem
      have hmem : dots ∈ (ofText "/app/sub/new".toList).parts :=
        hparts ▸ mem_append_right _ (mem_cons_of_mem _ hmem)
      revert hmem
      decide
    rw [climbsOut_eq_false hdots] at hclimbs
    cases hclimbs

end Axiomc.Host
