import Axiomc.Foundation.Checks
import Axiomc.Foundation.UnixPath

/-!
# Protected paths of a transaction

`validate_relative` of `transactional_workspace.rs` refuses paths by their text; the anchored file
operations walk the components of a path.  One file has many texts: separators may be doubled or stand
at the end, and dots may stand between them.

* `validateRelative`, `relativeComponents`: the check and the walk;
* `Protected`: the names that lead to a protected file;
* `validateRelative_unprotected_iff`: an accepted path leads to no protected file exactly when the check
  also accepts its plain spelling and no directory on it is named `.git`.

A `.git` entry itself and the directory `.codex/policies` itself are not counted as protected, only what
is under them.
-/

namespace Axiomc.Workspace

open Foundation List

def stateFile : Text := ".axiom-transaction.json".toList

def leaseFile : Text := ".axiom-transaction.lock".toList

def gitEntry : Text := ".git".toList

/-- The path of the policies, as names. -/
def policies : List Text := [".codex".toList, "policies".toList]

/-- What both functions refuse first. -/
def isTraversal (path : Text) : Bool :=
  path == [] || isAbsolute path || (components path).any (!·.isNormal)

def traversalMessage : String := "path must be a normalized relative path without traversal"

def validateRelative (path : Text) : Except String Unit := do
  reject (isTraversal path = true) traversalMessage
  reject (path = stateFile ∨ path = leaseFile ∨ gitEntry <+: path ∨
    ".codex/policies/".toList <+: path) "protected transaction or policy path"

/-- `CString::new`: a text without zero bytes. -/
def cString (text : Text) : Except String Text := do
  reject ('\x00' ∈ text) "path contains an embedded NUL"
  .ok text

def componentName : Component → Except String Text
  | .normal name => cString name
  | _ => .error "path must contain only normal components"

/-- `relative_components`: the names that the anchored operations walk. -/
def relativeComponents (path : Text) : Except String (List Text) := do
  reject (isTraversal path = true) traversalMessage
  (components path).mapM componentName

/-- The names from the root of the worktree that lead to a protected file. -/
def Protected (names : List Text) : Prop :=
  names = [stateFile] ∨ names = [leaseFile] ∨ gitEntry ∈ names.dropLast ∨
    ∃ below, below ≠ [] ∧ names = policies ++ below

/-! ### What is walked -/

variable {path : Text}

theorem isTraversal_eq_false (h : isTraversal path = false) :
    path ≠ [] ∧ isAbsolute path = false ∧ ∀ c ∈ components path, c.isNormal = true := by
  simpa [isTraversal, and_assoc] using h

theorem components_of_accepted (h : isTraversal path = false) :
    components path = (pathNames path).map .normal ∧ ∀ name ∈ pathNames path, IsName name := by
  obtain ⟨-, -, hnormal⟩ := isTraversal_eq_false h
  obtain ⟨hmap, hnames, -⟩ := components_eq_map_normal hnormal
  exact ⟨hmap, hnames⟩

variable {names : List Text}

theorem mapM_componentName_eq_ok {walked : List Text} :
    (names.map Component.normal).mapM componentName = .ok walked ↔
      walked = names ∧ ∀ name ∈ names, '\x00' ∉ name := by
  have hname : ∀ name walked, componentName (.normal name) = .ok walked ↔
      '\x00' ∉ name ∧ name = walked := by
    intro name walked
    simp [componentName, cString]
  rw [mapM_eq_ok_iff, forall₂_map_left_iff]
  simp only [hname, forall₂_and_left, forall₂_eq_eq_eq]
  rw [and_comm, eq_comm]

/-- Zero bytes are in the names of a path or nowhere in it. -/
theorem zero_mem_iff : '\x00' ∈ path ↔ ∃ name ∈ pathNames path, '\x00' ∈ name := by
  constructor
  · intro h
    obtain ⟨part, hpart, hzero⟩ := mem_part_of_mem h (show '\x00' ≠ '/' by decide)
    refine ⟨part, mem_filter.2 ⟨hpart, ?_⟩, hzero⟩
    have hfiller : isFiller part = false := by
      refine isFiller_eq_false_iff.2 ⟨ne_nil_of_mem hzero, ?_⟩
      rintro rfl
      revert hzero
      decide
    simp [hfiller]
  · intro h
    obtain ⟨name, hname, hzero⟩ := h
    exact mem_of_mem_part (mem_filter.1 hname).1 hzero

/-- The names that are walked are those of the path, and a zero byte stops the walk. -/
theorem relativeComponents_eq_ok (h : isTraversal path = false) :
    relativeComponents path = .ok names ↔ names = pathNames path ∧ '\x00' ∉ path := by
  have hzero : '\x00' ∉ path ↔ ∀ name ∈ pathNames path, '\x00' ∉ name := by
    rw [zero_mem_iff]
    simp
  rw [relativeComponents, check_bind_eq_ok, (components_of_accepted h).1, mapM_componentName_eq_ok,
    hzero]
  simp [h]

/-! ### Spellings -/

theorem isAbsolute_of_head (h : (path.splitOn '/').head? = some []) :
    path = [] ∨ isAbsolute path = true := by
  cases path with
  | nil => exact .inl rfl
  | cons c path =>
    right
    rw [splitOn_cons_eq_if_modifyHead] at h
    by_cases hc : (c == '/') = true
    · simpa [isAbsolute] using hc
    · rw [if_neg hc] at h
      obtain ⟨first, rest, hsplit⟩ := exists_cons_of_ne_nil (splitOn_ne_nil '/' path)
      simp at h

/-- An accepted path begins with its first name. -/
theorem pathNames_of_accepted (h : isTraversal path = false) :
    ∃ first rest below, path.splitOn '/' = first :: rest ∧ pathNames path = first :: below := by
  obtain ⟨hne, habs, hnormal⟩ := isTraversal_eq_false h
  obtain ⟨-, -, hdot⟩ := components_eq_map_normal hnormal
  obtain ⟨first, rest, hsplit⟩ := exists_cons_of_ne_nil (splitOn_ne_nil '/' path)
  rw [hsplit, head?_cons] at hdot
  have hfirst : first ≠ [] := by
    rintro rfl
    have hhead : (path.splitOn '/').head? = some [] := by rw [hsplit]; rfl
    rcases isAbsolute_of_head hhead with hnil | hroot
    · exact hne hnil
    · rw [hroot] at habs
      cases habs
  have hfiller : isFiller first = false :=
    isFiller_eq_false_iff.2 ⟨hfirst, fun heq => hdot (by rw [heq])⟩
  refine ⟨first, rest, rest.filter fun part => !isFiller part, hsplit, ?_⟩
  rw [pathNames, hsplit, filter_cons_of_pos (by simp [hfiller])]

/-- A text without separators begins a path exactly when it begins the first part of it. -/
theorem prefix_iff_first {start first : Text} {rest : List Text} (hstart : '/' ∉ start) :
    start <+: ['/'].intercalate (first :: rest) ↔ start <+: first := by
  by_cases hrest : rest = []
  · rw [hrest, intercalate_singleton]
  rw [intercalate_cons_of_ne_nil hrest]
  have hfirst : first ++ ['/'] <+: first ++ ['/'] ++ ['/'].intercalate rest := prefix_append _ _
  constructor
  · intro h
    by_cases hlength : start.length ≤ first.length
    · exact prefix_of_prefix_length_le h ((prefix_append _ _).trans hfirst) hlength
    · -- A longer start would contain the separator after the first part.
      have hsep : first ++ ['/'] <+: start :=
        prefix_of_prefix_length_le hfirst h (by simp; omega)
      exact absurd (hsep.subset (by simp)) hstart
  · intro h
    exact h.trans ((prefix_append _ _).trans hfirst)

theorem join_eq_singleton_iff {name : Text} (hne : names ≠ [])
    (hnames : ∀ n ∈ names, IsName n) (hname : '/' ∉ name) :
    ['/'].intercalate names = name ↔ names = [name] := by
  constructor
  · intro h
    rw [← splitOn_join hne hnames, h, splitOn_eq_singleton hname]
  · intro h
    rw [h, intercalate_singleton]

/-- Names joined by single separators are no traversal. -/
theorem isTraversal_join (hnames : ∀ n ∈ names, IsName n) (hne : names ≠ []) :
    isTraversal (['/'].intercalate names) = false := by
  have hparts := splitOn_join hne hnames
  obtain ⟨first, rest, rfl⟩ := exists_cons_of_ne_nil hne
  have hfirst := hnames first mem_cons_self
  obtain ⟨c, name, rfl⟩ := exists_cons_of_ne_nil hfirst.ne_nil
  have hhead : (['/'].intercalate ((c :: name) :: rest)).head? = some c := by
    cases rest <;> rfl
  have hc : c ≠ '/' := by
    rintro rfl
    exact hfirst.no_separator mem_cons_self
  have habs : isAbsolute (['/'].intercalate ((c :: name) :: rest)) = false := by
    simp [isAbsolute, hc]
  have hcomponents : ∀ component ∈ components (['/'].intercalate ((c :: name) :: rest)),
      component.isNormal = true := by
    rw [components, UnixPath.ofText_of_relative habs, UnixPath.components, hparts]
    intro component hmem
    rw [if_neg (by simp), if_neg (by simpa using hfirst.ne_dot), nil_append, mem_filterMap] at hmem
    obtain ⟨part, hpart, hsome⟩ := hmem
    rw [partComponent_of_isName (hnames part hpart)] at hsome
    cases hsome
    rfl
  have hnil : ['/'].intercalate ((c :: name) :: rest) ≠ [] := by
    intro hnil
    rw [hnil] at hhead
    cases hhead
  simp only [isTraversal, habs, Bool.or_false, Bool.or_eq_false_iff, beq_eq_false_iff_ne]
  exact ⟨hnil, by simpa using hcomponents⟩

theorem validateRelative_eq_ok :
    validateRelative path = .ok () ↔ isTraversal path = false ∧ path ≠ stateFile ∧
      path ≠ leaseFile ∧ ¬ gitEntry <+: path ∧ ¬ ".codex/policies/".toList <+: path := by
  rw [validateRelative, check_bind_eq_ok, reject_eq_ok, reject_eq_ok]
  simp

/-- The check of the plain spelling of an accepted path, by its names. -/
theorem validateRelative_spelling_iff (h : validateRelative path = .ok ()) :
    validateRelative (spelling path) = .ok () ↔ pathNames path ≠ [stateFile] ∧
      pathNames path ≠ [leaseFile] ∧ ¬ ∃ below, below ≠ [] ∧ pathNames path = policies ++ below := by
  obtain ⟨htraversal, -, -, hgit, -⟩ := validateRelative_eq_ok.1 h
  obtain ⟨-, hnames⟩ := components_of_accepted htraversal
  obtain ⟨first, rest, below, hsplit, hfirst⟩ := pathNames_of_accepted htraversal
  have hne : pathNames path ≠ [] := by simp [hfirst]
  have hplain : isTraversal (spelling path) = false := isTraversal_join hnames hne
  have hstate : spelling path = stateFile ↔ pathNames path = [stateFile] :=
    join_eq_singleton_iff hne hnames (by decide)
  have hlease : spelling path = leaseFile ↔ pathNames path = [leaseFile] :=
    join_eq_singleton_iff hne hnames (by decide)
  -- The path and its spelling have the same first name.
  have hgit' : ¬ gitEntry <+: spelling path := by
    have hpath : path = ['/'].intercalate (first :: rest) := by
      rw [← hsplit, intercalate_splitOn]
    rw [hpath, prefix_iff_first (by decide)] at hgit
    rw [spelling, hfirst, prefix_iff_first (by decide)]
    exact hgit
  have hpolicies : ".codex/policies/".toList <+: spelling path ↔
      ∃ below, below ≠ [] ∧ pathNames path = policies ++ below :=
    prefix_join_iff (show policies ≠ [] by decide) (by decide)
      fun name hname => (hnames name hname).no_separator
  rw [validateRelative_eq_ok, Ne, Ne, hstate, hlease, hpolicies]
  exact ⟨fun hok => ⟨hok.2.1, hok.2.2.1, hok.2.2.2.2⟩,
    fun hok => ⟨hplain, hok.1, hok.2.1, hgit', hok.2.2⟩⟩

/-! ### The guarantee -/

/-- The walk of a path meets names only and leads to no protected file. -/
def Unprotected (path : Text) : Prop :=
  ∀ names, relativeComponents path = .ok names → (∀ name ∈ names, IsName name) ∧ ¬ Protected names

/-- An accepted path leads to no protected file exactly when it has a zero byte, and so leads nowhere,
or its plain spelling is accepted too and no directory on it is named `.git`. -/
theorem validateRelative_unprotected_iff {path : Text} (h : validateRelative path = .ok ()) :
    Unprotected path ↔ '\x00' ∈ path ∨
      (validateRelative (spelling path) = .ok () ∧ gitEntry ∉ (pathNames path).dropLast) := by
  obtain ⟨htraversal, -⟩ := validateRelative_eq_ok.1 h
  obtain ⟨-, hnames⟩ := components_of_accepted htraversal
  have hprotected : ¬ Protected (pathNames path) ↔
      validateRelative (spelling path) = .ok () ∧ gitEntry ∉ (pathNames path).dropLast := by
    rw [validateRelative_spelling_iff h, Protected, not_or, not_or, not_or]
    exact ⟨fun hsafe => ⟨⟨hsafe.1, hsafe.2.1, hsafe.2.2.2⟩, hsafe.2.2.1⟩,
      fun hcond => ⟨hcond.1.1, hcond.1.2.1, hcond.2, hcond.1.2.2⟩⟩
  rw [← hprotected]
  by_cases hzero : '\x00' ∈ path
  · have hstops : ∀ names, relativeComponents path ≠ .ok names := by
      intro names hwalk
      exact ((relativeComponents_eq_ok htraversal).1 hwalk).2 hzero
    exact ⟨fun _ => .inl hzero, fun _ names hwalk => absurd hwalk (hstops names)⟩
  · have hwalk := (relativeComponents_eq_ok htraversal).2 ⟨rfl, hzero⟩
    constructor
    · intro hsafe
      exact .inr (hsafe _ hwalk).2
    · intro hcond names hwalk'
      obtain ⟨rfl, -⟩ := (relativeComponents_eq_ok htraversal).1 hwalk'
      exact ⟨hnames, hcond.resolve_left hzero⟩

/-- A separator at the end is enough to reach the state file. -/
theorem validateRelative_accepts_stateFile :
    validateRelative (stateFile ++ ['/']) = .ok () ∧ ¬ Unprotected (stateFile ++ ['/']) := by
  refine ⟨by decide, ?_⟩
  intro h
  exact (h [stateFile] (by decide)).2 (.inl rfl)

theorem validateRelative_unprotected_iff_sources :
    validateRelative "src//main.ax".toList = .ok () ∧ Unprotected "src//main.ax".toList := by
  have haccepted : validateRelative "src//main.ax".toList = .ok () := by decide
  exact ⟨haccepted, (validateRelative_unprotected_iff haccepted).2 (.inr (by decide))⟩

end Axiomc.Workspace
