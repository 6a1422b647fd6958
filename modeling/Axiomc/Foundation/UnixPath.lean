import Axiomc.Foundation.Text
import Mathlib.Data.List.DropRight

/-!
# Unix paths

`std::path::Path` on Unix.  A path is a text; its components are what stands between separators,
without empty parts and without dots, except for a dot at the very beginning.

* `UnixPath`: a path, cut at the separators, with `join`, `parent` and `fileName`;
* `components`: `Path::components`;
* `UnixPath.parent_spec`: a path is its parent, a name and fillers;
* `pathNames`: the parts of a path that are neither empty nor a dot;
* `components_eq_map_normal`: a path that has only normal components has its names as components;
* `splitOn_join`, `prefix_join_iff`: the parts of names joined by single separators, and what such a
  text begins with.
-/

namespace Axiomc.Foundation

open List

/-- `std::path::Component` on Unix. -/
inductive Component where
  | rootDir
  | curDir
  | parentDir
  | normal (name : Text)
  deriving DecidableEq, Repr

def Component.isNormal : Component → Bool
  | normal _ => true
  | _ => false

/-- A part that stands for nothing: the one between two separators, or a dot. -/
def isFiller (part : Text) : Bool := part == [] || part == ['.']

/-- The component of a part. -/
def partComponent (part : Text) : Option Component :=
  if isFiller part then none
  else if part = ['.', '.'] then some .parentDir
  else some (.normal part)

/-- `Path::is_absolute`. -/
def isAbsolute (path : Text) : Bool := path.head? == some '/'

/-- `Path`, with its text cut at the separators.  The separator that stands for the root is in
`absolute` and not among the parts. -/
structure UnixPath where
  absolute : Bool
  parts : List Text
  deriving DecidableEq, Repr

def UnixPath.ofText : Text → UnixPath
  | '/' :: rest => ⟨true, rest.splitOn '/'⟩
  | path => ⟨false, path.splitOn '/'⟩

/-- `Path::components`. -/
def UnixPath.components (path : UnixPath) : List Component :=
  let lead : List Component :=
    if path.absolute then [.rootDir] else if path.parts.head? = some ['.'] then [.curDir] else []
  lead ++ path.parts.filterMap partComponent

def components (path : Text) : List Component := (UnixPath.ofText path).components

/-! ### Operations of `Path` -/

/-- The empty text, which is the path of nothing. -/
def UnixPath.isEmpty (path : UnixPath) : Bool :=
  !path.absolute && (path.parts == [] || path.parts == [[]])

/-- `Path::join`, with one separator between the two. -/
def UnixPath.join (base path : UnixPath) : UnixPath :=
  if path.absolute then path
  else
    let parts := if base.parts.getLast? = some [] then base.parts.dropLast else base.parts
    ⟨base.absolute, parts ++ path.parts⟩

/-- The parts without the fillers at the end. -/
def dropFillers (parts : List Text) : List Text := parts.rdropWhile isFiller

/-- The parts without the fillers at the end; a dot at the beginning of a relative path stays. -/
def trimParts (absolute : Bool) : List Text → List Text
  | [] => []
  | first :: rest =>
    if !absolute && first == ['.'] then first :: dropFillers rest else dropFillers (first :: rest)

/-- `Path::parent`: nothing for the root and for the empty path. -/
def UnixPath.parent (path : UnixPath) : Option UnixPath :=
  match trimParts path.absolute path.parts with
  | [] => none
  | first :: rest => some ⟨path.absolute, trimParts path.absolute (first :: rest).dropLast⟩

/-- `Path::file_name`. -/
def UnixPath.fileName (path : UnixPath) : Option Text :=
  match path.components.getLast? with
  | some (.normal name) => some name
  | _ => none

/-- The parts of a path that are not fillers. -/
def pathNames (path : Text) : List Text := (path.splitOn '/').filter fun part => !isFiller part

/-- The path with single separators and no dots. -/
def spelling (path : Text) : Text := ['/'].intercalate (pathNames path)

/-- A name that a directory can have an entry under. -/
structure IsName (name : Text) : Prop where
  ne_nil : name ≠ []
  ne_dot : name ≠ ['.']
  ne_dots : name ≠ ['.', '.']
  no_separator : '/' ∉ name

instance (name : Text) : Decidable (IsName name) :=
  decidable_of_iff (name ≠ [] ∧ name ≠ ['.'] ∧ name ≠ ['.', '.'] ∧ '/' ∉ name)
    ⟨fun h => ⟨h.1, h.2.1, h.2.2.1, h.2.2.2⟩,
      fun h => ⟨h.ne_nil, h.ne_dot, h.ne_dots, h.no_separator⟩⟩

variable {path : Text}

theorem UnixPath.ofText_of_relative (h : isAbsolute path = false) :
    ofText path = ⟨false, path.splitOn '/'⟩ := by
  unfold ofText
  split
  · simp [isAbsolute] at h
  · rfl

theorem UnixPath.absolute_ofText (path : Text) : (ofText path).absolute = isAbsolute path := by
  unfold ofText
  split
  · rfl
  · rename_i hne
    cases path with
    | nil => rfl
    | cons c rest =>
      have hc : c ≠ '/' := fun heq => hne rest (by rw [heq])
      simp [isAbsolute, hc]

variable {part : Text}

theorem isFiller_eq_false_iff : isFiller part = false ↔ part ≠ [] ∧ part ≠ ['.'] := by
  simp [isFiller]

variable {name : Text}

theorem partComponent_of_isName (h : IsName name) : partComponent name = some (.normal name) := by
  have hfiller : isFiller name = false := isFiller_eq_false_iff.2 ⟨h.ne_nil, h.ne_dot⟩
  simp [partComponent, hfiller, h.ne_dots]

theorem isName_of_partComponent (hmem : part ∈ path.splitOn '/')
    (h : partComponent part = some (.normal name)) : part = name ∧ IsName name := by
  unfold partComponent at h
  split_ifs at h with hfiller hdots
  · cases h
  · cases h
    obtain ⟨hnil, hdot⟩ := isFiller_eq_false_iff.1 (Bool.eq_false_iff.2 hfiller)
    exact ⟨rfl, hnil, hdot, hdots, notMem_of_mem_splitOn hmem⟩

variable {parts : List Text}

/-- Parts that all have normal components have their names as components. -/
theorem filterMap_partComponent
    (hparts : ∀ part ∈ parts, part ∈ path.splitOn '/')
    (h : ∀ c ∈ parts.filterMap partComponent, c.isNormal = true) :
    parts.filterMap partComponent = (parts.filter fun part => !isFiller part).map .normal ∧
      ∀ name ∈ parts.filter (fun part => !isFiller part), IsName name := by
  have hnormal : ∀ part ∈ parts, isFiller part = false → partComponent part = some (.normal part) := by
    intro part hpart hfiller
    by_cases hdots : part = ['.', '.']
    · -- A pair of dots is not normal.
      have hparent : partComponent part = some .parentDir := by
        rw [partComponent, if_neg (by simp [hfiller]), if_pos hdots]
      cases h .parentDir (mem_filterMap.2 ⟨part, hpart, hparent⟩)
    · simp [partComponent, hfiller, hdots]
  constructor
  · rw [← filterMap_eq_map, filterMap_filter]
    refine filterMap_congr fun part hpart => ?_
    cases hfiller : isFiller part with
    | true => simp [partComponent, hfiller]
    | false => simp [hnormal part hpart hfiller]
  · intro name hmem
    obtain ⟨hpart, hfiller⟩ := mem_filter.1 hmem
    have hsome := hnormal name hpart (by simpa using hfiller)
    exact (isName_of_partComponent (hparts name hpart) hsome).2

/-- A path that has only normal components has its names as components. -/
theorem components_eq_map_normal (h : ∀ c ∈ components path, c.isNormal = true) :
    components path = (pathNames path).map .normal ∧ (∀ name ∈ pathNames path, IsName name) ∧
      (path.splitOn '/').head? ≠ some ['.'] := by
  have habs : isAbsolute path = false := by
    by_contra habs
    have hroot := h .rootDir (by
      simp [components, UnixPath.components, UnixPath.absolute_ofText, habs])
    cases hroot
  have hparts := UnixPath.ofText_of_relative habs
  have hdot : (path.splitOn '/').head? ≠ some ['.'] := by
    intro hdot
    have hcur := h .curDir (by simp [components, UnixPath.components, hparts, hdot])
    cases hcur
  have heq : components path = (path.splitOn '/').filterMap partComponent := by
    simp [components, UnixPath.components, hparts, hdot]
  rw [heq] at h ⊢
  obtain ⟨hmap, hnames⟩ := filterMap_partComponent (fun _ hp => hp) h
  exact ⟨hmap, hnames, hdot⟩

variable {names : List Text}

/-- Names joined by single separators are split again at the separators. -/
theorem splitOn_join (hne : names ≠ []) (h : ∀ name ∈ names, IsName name) :
    (['/'].intercalate names).splitOn '/' = names :=
  splitOn_intercalate '/' (fun name hname => (h name hname).no_separator) hne

variable {before : List Text}

/-- What a joined text begins with, when that is a joined text followed by a separator. -/
theorem prefix_join_iff (hne : before ≠ [])
    (hbefore : ∀ name ∈ before, '/' ∉ name) (hnames : ∀ name ∈ names, '/' ∉ name) :
    ['/'].intercalate before ++ ['/'] <+: ['/'].intercalate names ↔
      ∃ below, below ≠ [] ∧ names = before ++ below := by
  constructor
  · intro h
    obtain ⟨rest, hrest⟩ := h
    have hparts : rest.splitOn '/' ≠ [] := splitOn_ne_nil '/' rest
    have hjoin : ['/'].intercalate names = ['/'].intercalate (before ++ rest.splitOn '/') := by
      rw [intercalate_append _ hne hparts, intercalate_splitOn, hrest]
    have hnames_ne : names ≠ [] := by
      intro hnil
      rw [hnil] at hrest
      simp at hrest
    have hall : ∀ name ∈ before ++ rest.splitOn '/', '/' ∉ name := by
      intro name hmem
      rcases mem_append.1 hmem with hmem | hmem
      · exact hbefore name hmem
      · exact notMem_of_mem_splitOn hmem
    refine ⟨rest.splitOn '/', hparts, ?_⟩
    rw [← splitOn_intercalate '/' hnames hnames_ne, hjoin,
      splitOn_intercalate '/' hall (by simp)]
  · intro h
    obtain ⟨below, hbelow, rfl⟩ := h
    rw [intercalate_append _ hne hbelow]
    exact prefix_append _ _

/-! ### Parents -/

/-- Parts that lead nowhere. -/
def Fillers (parts : List Text) : Prop := ∀ part ∈ parts, isFiller part = true

theorem dropFillers_append (parts : List Text) :
    ∃ fillers, parts = dropFillers parts ++ fillers ∧ Fillers fillers :=
  ⟨parts.rtakeWhile isFiller, (rdropWhile_append_rtakeWhile ..).symm,
    fun _ hpart => mem_rtakeWhile_imp hpart⟩

variable {body : List Text}

theorem isFiller_getLast_dropFillers
    (h : dropFillers parts = body ++ [name]) : isFiller name = false := by
  have hne : parts.rdropWhile isFiller ≠ [] := by
    show dropFillers parts ≠ []
    rw [h]
    simp
  have hlast := rdropWhile_last_not isFiller parts hne
  have hname : (parts.rdropWhile isFiller).getLast hne = name := by
    rw [getLast_eq_iff_getLast?_eq_some]
    show (dropFillers parts).getLast? = some name
    rw [h]
    simp
  rw [hname] at hlast
  exact Bool.eq_false_iff.2 hlast

theorem trimParts_append (absolute : Bool) (parts : List Text) :
    ∃ fillers, parts = trimParts absolute parts ++ fillers ∧ Fillers fillers := by
  cases parts with
  | nil => exact ⟨[], rfl, by simp [Fillers]⟩
  | cons first rest =>
    rw [trimParts]
    split
    · obtain ⟨fillers, hrest, hfillers⟩ := dropFillers_append rest
      exact ⟨fillers, by rw [cons_append, ← hrest], hfillers⟩
    · exact dropFillers_append (first :: rest)

variable {absolute : Bool}

/-- The last of the trimmed parts is a filler only for a path that is a dot. -/
theorem isFiller_getLast_trimParts (h : trimParts absolute parts = body ++ [name]) :
    isFiller name = false ∨ (absolute = false ∧ body = []) := by
  cases parts with
  | nil => simp [trimParts] at h
  | cons first rest =>
    rw [trimParts] at h
    split at h
    · rename_i hdot
      cases body with
      | nil => exact .inr ⟨by simpa using (Bool.and_eq_true_iff.1 hdot).1, rfl⟩
      | cons head body =>
        rw [cons_append, cons.injEq] at h
        exact .inl (isFiller_getLast_dropFillers h.2)
    · exact .inl (isFiller_getLast_dropFillers h)

theorem dropFillers_dropFillers (parts : List Text) :
    dropFillers (dropFillers parts) = dropFillers parts :=
  rdropWhile_idempotent isFiller parts

theorem trimParts_of_head {first : Text} {rest : List Text}
    (h : (!absolute && first == ['.']) = false) :
    trimParts absolute (first :: rest) = dropFillers (first :: rest) := by
  rw [trimParts, h]
  rfl

theorem trimParts_trimParts (absolute : Bool) (parts : List Text) :
    trimParts absolute (trimParts absolute parts) = trimParts absolute parts := by
  cases parts with
  | nil => rfl
  | cons first rest =>
    cases hdot : (!absolute && first == ['.']) with
    | true =>
      have htrim : ∀ tail, trimParts absolute (first :: tail) = first :: dropFillers tail := by
        intro tail
        rw [trimParts, hdot]
        rfl
      rw [htrim, htrim, dropFillers_dropFillers]
    | false =>
      rw [trimParts_of_head hdot]
      -- What is left begins with the same part, if anything is left.
      obtain ⟨fillers, hsplit, -⟩ := dropFillers_append (first :: rest)
      cases hleft : dropFillers (first :: rest) with
      | nil => rfl
      | cons head tail =>
        rw [hleft, cons_append, cons.injEq] at hsplit
        rw [trimParts_of_head (by rw [← hsplit.1]; exact hdot), ← hleft, dropFillers_dropFillers]

/-- A path without fillers at its end. -/
def UnixPath.Trimmed (path : UnixPath) : Prop := trimParts path.absolute path.parts = path.parts

variable {above : UnixPath}

/-- A path is its parent, a name and fillers. -/
theorem UnixPath.parent_spec {path : UnixPath} (h : path.parent = some above) :
    above.absolute = path.absolute ∧ above.Trimmed ∧ ∃ gap name trailing,
      path.parts = above.parts ++ gap ++ name :: trailing ∧ Fillers gap ∧ Fillers trailing ∧
        (isFiller name = false ∨ above.isEmpty = true) ∧ (path.Trimmed → trailing = []) := by
  unfold parent at h
  split at h
  · cases h
  rename_i first rest hbody
  cases h
  refine ⟨rfl, trimParts_trimParts _ _, ?_⟩
  obtain ⟨trailing, hparts, htrailing⟩ := trimParts_append path.absolute path.parts
  obtain ⟨gap, hdrop, hgap⟩ := trimParts_append path.absolute (first :: rest).dropLast
  have hlast : first :: rest = (first :: rest).dropLast ++ [(first :: rest).getLast (by simp)] :=
    (dropLast_concat_getLast (by simp)).symm
  refine ⟨gap, (first :: rest).getLast (by simp), trailing, ?_, hgap, htrailing, ?_, ?_⟩
  · show path.parts = trimParts path.absolute (first :: rest).dropLast ++ gap ++ _
    rw [← hdrop, hparts, hbody, append_cons, dropLast_concat_getLast]
  · rcases isFiller_getLast_trimParts (hbody.trans hlast) with hname | ⟨hrel, hnil⟩
    · exact .inl hname
    · right
      simp [isEmpty, hrel, hnil, trimParts]
  · intro htrimmed
    rw [htrimmed] at hparts
    simpa using hparts

theorem UnixPath.parent_of_isEmpty {path : UnixPath} (h : path.isEmpty = true) :
    path.parent = none := by
  obtain ⟨absolute, parts⟩ := path
  rw [isEmpty, Bool.and_eq_true, Bool.not_eq_true', Bool.or_eq_true, beq_iff_eq, beq_iff_eq] at h
  obtain ⟨rfl, rfl | rfl⟩ := h
  · rfl
  · rfl

theorem UnixPath.parent_length_lt {path : UnixPath} (h : path.parent = some above) :
    above.parts.length < path.parts.length := by
  obtain ⟨-, -, gap, name, trailing, hparts, -⟩ := parent_spec h
  rw [hparts]
  simp only [length_append, length_cons]
  omega

/-- The file name of a path is the name behind its parent. -/
theorem UnixPath.fileName_spec {path : UnixPath} {trailing : List Text} {last : Text}
    (hparts : path.parts = before ++ name :: trailing) (hname : isFiller name = false)
    (htrailing : Fillers trailing) (h : path.fileName = some last) :
    last = name ∧ name ≠ ['.', '.'] := by
  have htrail : trailing.filterMap partComponent = [] := by
    rw [filterMap_eq_nil_iff]
    intro part hpart
    simp [partComponent, htrailing part hpart]
  unfold fileName at h
  rw [components, hparts, filterMap_append, filterMap_cons, htrail] at h
  by_cases hdots : name = ['.', '.']
  · have hcomponent : partComponent name = some .parentDir := by
      rw [partComponent, if_neg (by simp [hname]), if_pos hdots]
    rw [hcomponent] at h
    simp at h
  · have hcomponent : partComponent name = some (.normal name) := by
      rw [partComponent, if_neg (by simp [hname]), if_neg hdots]
    rw [hcomponent] at h
    exact ⟨by simpa using h.symm, hdots⟩

end Axiomc.Foundation
