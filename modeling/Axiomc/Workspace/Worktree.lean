import Mathlib.Data.List.Infix
import Axiomc.Foundation.ContentTree
import Axiomc.Workspace.Paths

/-!
# File operations anchored in a worktree

The file operations of `transactional_workspace.rs` walk the names of a path from the root of the worktree
and refuse links and files with several names on the way.  An operation that changes the worktree does so
in stages, and can stop after each of them.

* `openAnchoredParent`: the walk to the directory of a path, which makes missing directories on demand;
* `secureWrite`, `secureDelete`, `secureRename`, `secureChmod`: the operations, as their stages;
* `openAnchoredParent_spec`, `openAnchoredParent_congr`: what the walk makes, and what it depends on.

Directories are made with mode `755` and files with mode `600`, whatever the mask of the process.
-/

namespace Axiomc.Workspace

open Foundation ContentTree List

variable {C : Type}

/-! ### The walk -/

def pathAuthoritySymlink : String := "path contains a symlink or reparse component"

def missingMessage : String := "path does not exist"

/-- `anchored_entry_stat`. -/
def anchoredEntryStat (t : ContentTree C) (names : List Text) : Except String (Option (FileNode C)) :=
  match t.node names with
  | some (.link _) => .error pathAuthoritySymlink
  | some (.file content mode links) =>
    if links > 1 then .error "path authority rejects multiply-linked file identity"
    else .ok (some (.file content mode links))
  | other => .ok other

/-- `open_anchored_parent`, below the directory `above`: the trees after each directory that is made. -/
def openAnchoredParent (create : Bool) (t : ContentTree C) (above : List Text) :
    List Text → Except String (List (ContentTree C))
  | [] => .ok []
  | name :: names => do
    match ← anchoredEntryStat t (above ++ [name]) with
    | none =>
      if create then
        let made := t.put (above ++ [name]) (.directory 0o755)
        let rest ← openAnchoredParent create made (above ++ [name]) names
        .ok (made :: rest)
      else .error missingMessage
    | some (.directory _) => openAnchoredParent create t (above ++ [name]) names
    | some _ => .error "path authority rejected parent component: Not a directory (os error 20)"

/-- The walk to the directory of a path, without making anything, and what is then at the path. -/
def anchoredEntry (t : ContentTree C) (names : List Text) : Except String (Option (FileNode C)) := do
  let _ ← openAnchoredParent false t [] names.dropLast
  anchoredEntryStat t names

def validateAnchoredExistingPath (t : ContentTree C) (path : Text) : Except String Unit := do
  let names ← relativeComponents path
  match ← anchoredEntry t names with
  | none => .error missingMessage
  | some _ => .ok ()

def validateAnchoredWritePath (t : ContentTree C) (path : Text) : Except String Unit := do
  let names ← relativeComponents path
  match openAnchoredParent false t [] names.dropLast with
  | .ok _ =>
    let _ ← anchoredEntryStat t names
    .ok ()
  | .error error =>
    if error = missingMessage ∨ "not found".toList <:+: error.toList then .ok () else .error error

/-- The loop of `creates_missing_ancestors`. -/
def anyMissing (t : ContentTree C) (above : List Text) : List Text → Except String Bool
  | [] => .ok false
  | name :: names => do
    match ← anchoredEntryStat t (above ++ [name]) with
    | none => .ok true
    | some (.directory _) => anyMissing t (above ++ [name]) names
    | some _ => .ok false

def createsMissingAncestors (t : ContentTree C) (path : Text) : Except String Bool := do
  let names ← relativeComponents path
  anyMissing t [] names.dropLast

/-! ### Reading -/

/-- The read of an opened file. -/
def readNode (describe : String) : FileNode C → Except String C
  | .file content _ _ => .ok content
  | _ => .error (describe ++ ": Is a directory (os error 21)")

def secureRead (t : ContentTree C) (path : Text) : Except String C := do
  let names ← relativeComponents path
  match ← anchoredEntry t names with
  | none => .error missingMessage
  | some n => readNode "read failed" n

/-- `secure_file_digest`, before the digest is taken. -/
def secureFileContent (t : ContentTree C) (path : Text) : Except String (Option C) := do
  let names ← relativeComponents path
  match anchoredEntry t names with
  | .error error => if error = missingMessage then .ok none else .error error
  | .ok none => .ok none
  | .ok (some n) => some <$> readNode "cannot hash authorized path" n

/-! ### Changing -/

/-- What an operation leaves if it stops after a stage: in a crash, and after an error, where it removes
its temporary file. -/
structure Stage (C : Type) where
  crashed : ContentTree C
  failed : ContentTree C

def Stage.same (t : ContentTree C) : Stage C := ⟨t, t⟩

/-- `secure_write` without its temporary file: the trees after each directory that is made, and the tree
at the end. -/
def publish (t : ContentTree C) (path : Text) (content : C) :
    Except String (List (ContentTree C) × ContentTree C) := do
  let names ← relativeComponents path
  let made ← openAnchoredParent true t [] names.dropLast
  let t := made.getLastD t
  match ← anchoredEntryStat t names with
  | some (.directory _) =>
    .error "cannot atomically publish authorized write: Is a directory (os error 21)"
  | _ => .ok (made, t.put names (.file content 0o600 1))

/-- `secure_write`; `temp` is the name of the temporary file. -/
def secureWrite (t : ContentTree C) (temp : Text) (path : Text) (content : C) :
    Except String (List (Stage C)) := do
  let names ← relativeComponents path
  let (made, published) ← publish t path content
  let parent := made.getLastD t
  match parent.node (names.dropLast ++ [temp]) with
  | some _ => .error "cannot allocate exclusive transaction temp file: File exists (os error 17)"
  | none =>
    let temporary := parent.put (names.dropLast ++ [temp]) (.file content 0o600 1)
    .ok (made.map .same ++ [⟨temporary, parent⟩, .same published])

/-- `secure_delete`. -/
def secureDelete (t : ContentTree C) (path : Text) : Except String (ContentTree C) := do
  let names ← relativeComponents path
  match ← anchoredEntry t names with
  | none => .error missingMessage
  | some _ =>
    if t.isLeaf names then .ok (t.remove names)
    else .error "delete failed: Directory not empty (os error 39)"

/-- `secure_rename` of a file.  A directory does not get here: a transaction stops at its digest. -/
def secureRename (t : ContentTree C) (source target : Text) : Except String (ContentTree C) := do
  let sourceNames ← relativeComponents source
  match ← anchoredEntry t sourceNames with
  | none => .error "rename source does not exist"
  | some (.file content mode links) =>
    let targetNames ← relativeComponents target
    match ← anchoredEntry t targetNames with
    | some (.directory _) => .error "rename failed: Is a directory (os error 21)"
    | _ => .ok ((t.remove sourceNames).put targetNames (.file content mode links))
  | some _ => .error "rename failed: Is a directory (os error 21)"

def withMode (mode : Nat) : FileNode C → FileNode C
  | .file content _ links => .file content mode links
  | .directory _ => .directory mode
  | .link target => .link target

/-- `secure_chmod`. -/
def secureChmod (t : ContentTree C) (path : Text) (mode : Nat) : Except String (ContentTree C) := do
  let names ← relativeComponents path
  match ← anchoredEntry t names with
  | none => .error missingMessage
  | some n => .ok (t.put names (withMode mode n))

/-! ### What the operations do -/

variable {t r t' : ContentTree C} {path : Text} {names q : List Text}

section

variable (h : relativeComponents path = .ok names)
include h

theorem isTraversal_of_relativeComponents : isTraversal path = false := by
  rw [relativeComponents, check_bind_eq_ok] at h
  simpa using h.1

theorem relativeComponents_eq : names = pathNames path :=
  ((relativeComponents_eq_ok (isTraversal_of_relativeComponents h)).1 h).1

theorem relativeComponents_ne_nil : names ≠ [] := by
  obtain ⟨first, -, below, -, hnames⟩ := pathNames_of_accepted (isTraversal_of_relativeComponents h)
  simp [relativeComponents_eq h, hnames]

end

variable {o : Option (FileNode C)}

theorem anchoredEntryStat_eq_ok (h : anchoredEntryStat t names = .ok o) :
    o = t.node names ∧ ∀ target, t.node names ≠ some (.link target) := by
  unfold anchoredEntryStat at h
  split at h
  · cases h
  · rename_i content mode links hnode
    split at h
    · cases h
    · cases h
      simp [hnode]
  · rename_i hlink _
    cases h
    exact ⟨rfl, fun target htarget => hlink target htarget⟩

/-- The stat depends on the entry only. -/
theorem anchoredEntryStat_congr (h : t.node names = r.node names) :
    anchoredEntryStat t names = anchoredEntryStat r names := by
  unfold anchoredEntryStat
  rw [h]

/-- The names of the directories on the way from `above` down to `names`. -/
def OnTheWay (above names q : List Text) : Prop := above <+: q ∧ q ≠ above ∧ q <+: above ++ names

variable {above sourceNames targetNames : List Text} {made : List (ContentTree C)} {content : C}
  {target : Text} {mode : Nat}

theorem onTheWay_cons {name : Text} :
    OnTheWay above (name :: names) q ↔ q = above ++ [name] ∨ OnTheWay (above ++ [name]) names q := by
  have happend : above ++ name :: names = above ++ [name] ++ names := by simp
  constructor
  · intro h
    obtain ⟨⟨below, rfl⟩, hne, hleads⟩ := h
    rw [prefix_append_right_inj] at hleads
    cases below with
    | nil => simp at hne
    | cons first below =>
      obtain ⟨rfl, hbelow⟩ := cons_prefix_cons.1 hleads
      by_cases hnil : below = []
      · exact .inl (by rw [hnil])
      · refine .inr ⟨⟨below, by simp⟩, by simpa using hnil, ?_⟩
        rw [← happend, prefix_append_right_inj]
        exact cons_prefix_cons.2 ⟨rfl, hbelow⟩
  · intro h
    rcases h with rfl | ⟨hleads, hne, hway⟩
    · exact ⟨prefix_append _ _, by simp, by rw [happend]; exact prefix_append _ _⟩
    · refine ⟨(prefix_append _ _).trans hleads, ?_, happend ▸ hway⟩
      rintro rfl
      exact absurd hleads.length_le (by simp)

variable {create : Bool}

/-- The walk makes the directories that are missing on the way, and changes nothing else. -/
theorem openAnchoredParent_spec
    (habove : t.isDirectory above = true) (h : openAnchoredParent create t above names = .ok made) :
    (made.getLastD t).isDirectory (above ++ names) = true ∧
      ∀ q, ((made.getLastD t).node q = t.node q ∧ (t.node q = none → ¬ OnTheWay above names q)) ∨
        (t.node q = none ∧ OnTheWay above names q ∧
          (made.getLastD t).node q = some (.directory 0o755)) := by
  induction names generalizing t above made with
  | nil =>
    cases h
    refine ⟨by simpa using habove, fun q => .inl ⟨rfl, fun _ hway => ?_⟩⟩
    obtain ⟨hleads, hne, hway⟩ := hway
    rw [append_nil] at hway
    exact hne (hway.eq_of_length_le hleads.length_le)
  | cons name names ih =>
    obtain ⟨o, ho, h⟩ := bind_eq_ok.1 h
    obtain ⟨rfl, -⟩ := anchoredEntryStat_eq_ok ho
    have happend : above ++ name :: names = above ++ [name] ++ names := by simp
    split at h
    · rename_i hnone
      split at h
      · obtain ⟨rest, hrest, h⟩ := bind_eq_ok.1 h
        cases h
        have haccepts : t.accepts (above ++ [name]) (.directory 0o755) = true :=
          accepts_directory habove
        obtain ⟨hend, hnodes⟩ := ih (isDirectory_put habove) hrest
        rw [getLastD_cons, happend]
        refine ⟨hend, fun q => ?_⟩
        rw [onTheWay_cons]
        by_cases hq : q = above ++ [name]
        · subst hq
          right
          refine ⟨hnone, .inl rfl, ?_⟩
          rcases hnodes (above ++ [name]) with ⟨hsame, -⟩ | ⟨hnone', -⟩
          · rw [hsame, node_put haccepts, if_pos rfl]
          · rw [node_put haccepts, if_pos rfl] at hnone'
            cases hnone'
        · have hold : (t.put (above ++ [name]) (.directory 0o755)).node q = t.node q := by
            rw [node_put haccepts, if_neg hq]
          rcases hnodes q with ⟨hsame, hoff⟩ | ⟨hnone', hway, hmade⟩
          · refine .inl ⟨hsame.trans hold, fun hq' => ?_⟩
            rw [not_or]
            exact ⟨hq, hoff (hold.trans hq')⟩
          · exact .inr ⟨hold.symm.trans hnone', .inr hway, hmade⟩
      · cases h
    · rename_i mode hmode
      have hdir : t.isDirectory (above ++ [name]) = true :=
        isDirectory_iff.2 (.inr ⟨mode, hmode⟩)
      obtain ⟨hend, hnodes⟩ := ih hdir h
      rw [happend]
      refine ⟨hend, fun q => ?_⟩
      rw [onTheWay_cons]
      rcases hnodes q with ⟨hsame, hoff⟩ | ⟨hnone, hway, hmade⟩
      · refine .inl ⟨hsame, fun hq => ?_⟩
        rw [not_or]
        refine ⟨?_, hoff hq⟩
        rintro rfl
        rw [hmode] at hq
        cases hq
      · exact .inr ⟨hnone, .inr hway, hmade⟩
    · cases h

/-- Each directory that is made is on the way. -/
theorem node_of_mem_made
    (h : openAnchoredParent create t above names = .ok made) (hq : ¬ OnTheWay above names q) :
    ∀ m ∈ made, m.node q = t.node q := by
  induction names generalizing t above made with
  | nil =>
    cases h
    simp
  | cons name names ih =>
    rw [onTheWay_cons, not_or] at hq
    obtain ⟨o, -, h⟩ := bind_eq_ok.1 h
    split at h
    · split at h
      · obtain ⟨rest, hrest, h⟩ := bind_eq_ok.1 h
        cases h
        have hput : (t.put (above ++ [name]) (.directory 0o755)).node q = t.node q :=
          node_put_of_ne hq.1
        intro m hm
        rcases mem_cons.1 hm with rfl | hm
        · exact hput
        · exact (ih hrest hq.2 m hm).trans hput
      · cases h
    · exact ih h hq.2
    · cases h

/-- The walk depends on the entries on the way only. -/
theorem openAnchoredParent_congr (ht : t.isDirectory above = true) (hr : r.isDirectory above = true)
    (hagree : ∀ q, OnTheWay above names q → t.node q = r.node q)
    (h : openAnchoredParent create t above names = .ok made) :
    ∃ made', openAnchoredParent create r above names = .ok made' := by
  induction names generalizing t r above made with
  | nil => exact ⟨[], rfl⟩
  | cons name names ih =>
    obtain ⟨o, ho, h⟩ := bind_eq_ok.1 h
    have hname : t.node (above ++ [name]) = r.node (above ++ [name]) :=
      hagree _ (onTheWay_cons.2 (.inl rfl))
    have ho' := ho
    rw [anchoredEntryStat_congr hname] at ho'
    obtain ⟨rfl, -⟩ := anchoredEntryStat_eq_ok ho
    unfold openAnchoredParent
    rw [ho']
    dsimp only [bind, Except.bind]
    split at h
    · split at h
      · rename_i hnone hcreate
        obtain ⟨rest, hrest, -⟩ := bind_eq_ok.1 h
        obtain ⟨rest', hrest'⟩ := ih (isDirectory_put ht) (isDirectory_put hr) (fun q hway => by
            rw [node_put (accepts_directory ht), node_put (accepts_directory hr),
              hagree q (onTheWay_cons.2 (.inr hway))]) hrest
        rw [if_pos hcreate, hrest']
        exact ⟨_, rfl⟩
      · cases h
    · rename_i mode hmode
      exact ih (isDirectory_iff.2 (.inr ⟨mode, hmode⟩)) (isDirectory_iff.2 (.inr ⟨mode, hname ▸ hmode⟩))
        (fun q hway => hagree q (onTheWay_cons.2 (.inr hway))) h
    · cases h

theorem openAnchoredParent_false
    (h : openAnchoredParent false t above names = .ok made) : made = [] := by
  induction names generalizing above with
  | nil =>
    cases h
    rfl
  | cons name names ih =>
    obtain ⟨o, -, h⟩ := bind_eq_ok.1 h
    split at h
    · cases h
    · exact ih h
    · cases h

/-- Without making directories the walk gives the same answer in trees with the same entries on the way. -/
theorem openAnchoredParent_false_congr (hagree : ∀ q, OnTheWay above names q → t.node q = r.node q) :
    openAnchoredParent false t above names = openAnchoredParent false r above names := by
  induction names generalizing above with
  | nil => rfl
  | cons name names ih =>
    have hrest := ih fun q hway => hagree q (onTheWay_cons.2 (.inr hway))
    simp [openAnchoredParent, anchoredEntryStat_congr (hagree _ (onTheWay_cons.2 (.inl rfl))), hrest]

theorem isDirectory_nil : t.isDirectory [] = true := rfl

theorem anchoredEntry_eq_ok (h : anchoredEntry t names = .ok o) :
    o = t.node names ∧ (∀ target, t.node names ≠ some (.link target)) ∧
      t.isDirectory names.dropLast = true := by
  obtain ⟨made, hmade, hstat⟩ := bind_eq_ok.1 h
  obtain ⟨hdir, -⟩ := openAnchoredParent_spec isDirectory_nil hmade
  obtain rfl := openAnchoredParent_false hmade
  obtain ⟨ho, hlink⟩ := anchoredEntryStat_eq_ok hstat
  exact ⟨ho, hlink, hdir⟩

/-! ### Agreement

Two trees that agree below some first names cannot be told apart by operations on paths that begin with
one of them. -/

/-- The trees agree at and below the first names in `ok`. -/
def Agree (ok : Text → Prop) (t r : ContentTree C) : Prop :=
  ∀ name rest, ok name → t.node (name :: rest) = r.node (name :: rest)

/-- The first name is in `ok`. -/
def Begins (ok : Text → Prop) (names : List Text) : Prop := ∃ name rest, names = name :: rest ∧ ok name

variable {ok : Text → Prop}

theorem Begins.of_leads (h : Begins ok names) (hne : q ≠ []) (hleads : q <+: names) : Begins ok q := by
  obtain ⟨name, rest, rfl, hok⟩ := h
  obtain ⟨first, below, rfl⟩ := exists_cons_of_ne_nil hne
  obtain ⟨rfl, -⟩ := cons_prefix_cons.1 hleads
  exact ⟨first, below, rfl, hok⟩

theorem Begins.of_above (h : Begins ok names) (hleads : names <+: q) : Begins ok q := by
  obtain ⟨name, rest, rfl, hok⟩ := h
  obtain ⟨below, rfl⟩ := hleads
  exact ⟨name, rest ++ below, rfl, hok⟩

theorem Agree.node_eq (h : Agree ok t r) (hq : Begins ok q) : t.node q = r.node q := by
  obtain ⟨name, rest, rfl, hok⟩ := hq
  exact h name rest hok

theorem Agree.refl (t : ContentTree C) : Agree ok t t := fun _ _ _ => rfl

theorem Agree.symm (h : Agree ok t r) : Agree ok r t := fun name rest hok => (h name rest hok).symm

theorem Agree.trans {s : ContentTree C} (h : Agree ok t r) (h' : Agree ok r s) : Agree ok t s :=
  fun name rest hok => (h name rest hok).trans (h' name rest hok)

theorem OnTheWay.begins (h : OnTheWay [] names.dropLast q) (hnames : Begins ok names) : Begins ok q :=
  hnames.of_leads h.2.1 (h.2.2.trans ( dropLast_prefix names))

theorem anchoredEntry_congr (hagree : Agree ok t r) (hnames : Begins ok names) :
    anchoredEntry t names = anchoredEntry r names := by
  unfold anchoredEntry
  rw [openAnchoredParent_false_congr fun q hway => hagree.node_eq (hway.begins hnames),
    anchoredEntryStat_congr (hagree.node_eq hnames)]

/-! ### The operations, entry by entry -/

theorem publish_eq_ok (hnames : relativeComponents path = .ok names) :
    publish t path content = .ok (made, t') ↔ openAnchoredParent true t [] names.dropLast = .ok made ∧
      (∃ o, anchoredEntryStat (made.getLastD t) names = .ok o) ∧
      (∀ mode, (made.getLastD t).node names ≠ some (.directory mode)) ∧
      t' = (made.getLastD t).put names (.file content 0o600 1) := by
  simp only [publish, hnames, bind_eq_ok]
  constructor
  · intro h
    obtain ⟨_, ⟨⟩, made', hmade, o, hstat, h⟩ := h
    obtain ⟨rfl, -⟩ := anchoredEntryStat_eq_ok hstat
    split at h
    · cases h
    · rename_i hnotdir
      cases h
      exact ⟨hmade, ⟨_, hstat⟩, fun mode hmode => hnotdir mode hmode, rfl⟩
  · intro h
    obtain ⟨hmade, ⟨o, hstat⟩, hnotdir, rfl⟩ := h
    refine ⟨names, rfl, made, hmade, o, hstat, ?_⟩
    obtain ⟨rfl, -⟩ := anchoredEntryStat_eq_ok hstat
    split
    · rename_i mode hmode
      exact absurd hmode (hnotdir mode)
    · rfl

/-- The file itself is not on the way to its directory. -/
theorem node_getLastD_of_walk (hne : names ≠ [])
    (h : openAnchoredParent create t [] names.dropLast = .ok made) :
    (made.getLastD t).node names = t.node names := by
  rcases (openAnchoredParent_spec isDirectory_nil h).2 names with ⟨hsame, -⟩ | ⟨-, hway, -⟩
  · exact hsame
  · have hlength := hway.2.2.length_le
    have hpos := length_pos_of_ne_nil hne
    rw [nil_append, length_dropLast] at hlength
    omega

/-- A published file is in its directory, and everything else is as the walk left it. -/
theorem publish_spec
    (hnames : relativeComponents path = .ok names) (h : publish t path content = .ok (made, t')) :
    openAnchoredParent true t [] names.dropLast = .ok made ∧
      (∀ target, t.node names ≠ some (.link target)) ∧ (∀ mode, t.node names ≠ some (.directory mode)) ∧
      ∀ q, t'.node q = if q = names then some (.file content 0o600 1)
        else (made.getLastD t).node q := by
  obtain ⟨hmade, ⟨o, hstat⟩, hnotdir, rfl⟩ := (publish_eq_ok hnames).1 h
  have hne := relativeComponents_ne_nil hnames
  have hleaf := node_getLastD_of_walk hne hmade
  have hdir := (openAnchoredParent_spec isDirectory_nil hmade).1
  refine ⟨hmade, ?_, ?_, fun q => node_put ?_⟩
  · rw [← hleaf]
    exact (anchoredEntryStat_eq_ok hstat).2
  · rw [← hleaf]
    exact hnotdir
  · exact accepts_iff.2 ⟨hne, hdir, .inr hnotdir⟩

/-- The walk leaves agreeing trees that agree. -/
theorem openAnchoredParent_agree (hagree : Agree ok t r)
    (hbegins : Begins ok names) (h : openAnchoredParent create t [] names.dropLast = .ok made) :
    ∃ made', openAnchoredParent create r [] names.dropLast = .ok made' ∧
      Agree ok (made.getLastD t) (made'.getLastD r) := by
  obtain ⟨made', h'⟩ := openAnchoredParent_congr isDirectory_nil isDirectory_nil
    (fun q hway => hagree.node_eq (hway.begins hbegins)) h
  refine ⟨made', h', fun name rest hok => ?_⟩
  have hsame := hagree name rest hok
  rcases (openAnchoredParent_spec isDirectory_nil h).2 (name :: rest) with
    ⟨ht, hoff⟩ | ⟨hnone, hway, ht⟩ <;>
    rcases (openAnchoredParent_spec isDirectory_nil h').2 (name :: rest) with
      ⟨hr, hoff'⟩ | ⟨hnone', hway', hr⟩
  · rw [ht, hr, hsame]
  · exact absurd hway' (hoff (hsame.trans hnone'))
  · exact absurd hway (hoff' (hsame.symm.trans hnone))
  · rw [ht, hr]

theorem publish_congr (hagree : Agree ok t r)
    (hnames : relativeComponents path = .ok names) (hbegins : Begins ok names)
    (h : publish t path content = .ok (made, t')) :
    ∃ made' r', publish r path content = .ok (made', r') ∧ Agree ok t' r' := by
  obtain ⟨hmade, ⟨o, hstat⟩, hnotdir, -⟩ := (publish_eq_ok hnames).1 h
  obtain ⟨made', hmade', hwalked⟩ := openAnchoredParent_agree hagree hbegins hmade
  have hleaf := hwalked.node_eq hbegins
  have hpublish : publish r path content =
      .ok (made', (made'.getLastD r).put names (.file content 0o600 1)) := (publish_eq_ok hnames).2
    ⟨hmade', ⟨o, (anchoredEntryStat_congr hleaf).symm.trans hstat⟩, hleaf ▸ hnotdir, rfl⟩
  refine ⟨made', _, hpublish, fun name rest hok => ?_⟩
  rw [(publish_spec hnames h).2.2.2, (publish_spec hnames hpublish).2.2.2, hwalked name rest hok]

theorem secureDelete_spec (hnames : relativeComponents path = .ok names)
    (h : secureDelete t path = .ok t') : (∀ target, t.node names ≠ some (.link target)) ∧
      ∀ q, t'.node q = if q = names then none else t.node q := by
  obtain ⟨names', hnames', h⟩ := bind_eq_ok.1 h
  obtain rfl : names = names' := Except.ok.inj (hnames.symm.trans hnames')
  obtain ⟨o, hentry, h⟩ := bind_eq_ok.1 h
  obtain ⟨rfl, hlink, -⟩ := anchoredEntry_eq_ok hentry
  split at h
  · cases h
  · split at h
    · rename_i hleaf
      cases h
      exact ⟨hlink, fun q => node_remove hleaf⟩
    · cases h

theorem Agree.isLeaf_iff (hagree : Agree ok t r) (hbegins : Begins ok names) :
    t.isLeaf names = true ↔ r.isLeaf names = true := by
  rw [ContentTree.isLeaf_iff, ContentTree.isLeaf_iff]
  refine forall_congr' fun q => forall_congr' fun hleads => forall_congr' fun _ => ?_
  rw [hagree.node_eq (hbegins.of_above hleads)]

theorem secureDelete_congr (hagree : Agree ok t r) (hnames : relativeComponents path = .ok names)
    (hbegins : Begins ok names) (h : secureDelete t path = .ok t') :
    ∃ r', secureDelete r path = .ok r' ∧ Agree ok t' r' := by
  have hdelete : ∃ r', secureDelete r path = .ok r' := by
    obtain ⟨names', hnames', h⟩ := bind_eq_ok.1 h
    obtain rfl : names = names' := Except.ok.inj (hnames.symm.trans hnames')
    obtain ⟨o, hentry, h⟩ := bind_eq_ok.1 h
    have hentry' := (anchoredEntry_congr hagree hbegins).symm.trans hentry
    cases o with
    | none => cases h
    | some n =>
      by_cases hleaf : t.isLeaf names = true
      · refine ⟨r.remove names, bind_eq_ok.2 ⟨names, hnames, bind_eq_ok.2 ⟨_, hentry', ?_⟩⟩⟩
        exact if_pos ((hagree.isLeaf_iff hbegins).1 hleaf)
      · rw [if_neg hleaf] at h
        cases h
  obtain ⟨r', hr'⟩ := hdelete
  refine ⟨r', hr', fun name rest hok => ?_⟩
  rw [(secureDelete_spec hnames h).2, (secureDelete_spec hnames hr').2, hagree name rest hok]

variable {source : Text}

theorem relativeComponents_of_rename
    (h : secureRename t source target = .ok t') : ∃ names, relativeComponents target = .ok names := by
  obtain ⟨_, _, h⟩ := bind_eq_ok.1 h
  obtain ⟨entry, _, h⟩ := bind_eq_ok.1 h
  match entry, h with
  | some (.file content mode links), h =>
    obtain ⟨names, hnames, -⟩ := bind_eq_ok.1 h
    exact ⟨names, hnames⟩

section

variable (hsource : relativeComponents source = .ok sourceNames)
  (htarget : relativeComponents target = .ok targetNames)
include hsource htarget

/-- What a rename needs, and the tree it leaves. -/
theorem secureRename_eq_ok : secureRename t source target = .ok t' ↔ ∃ content mode links entry,
      anchoredEntry t sourceNames = .ok (some (.file content mode links)) ∧
      anchoredEntry t targetNames = .ok entry ∧ (∀ mode, entry ≠ some (.directory mode)) ∧
      t' = (t.remove sourceNames).put targetNames (.file content mode links) := by
  simp only [secureRename, hsource, bind_eq_ok]
  constructor
  · intro h
    obtain ⟨_, ⟨⟩, o, hentry, h⟩ := h
    split at h
    next => cases h
    next content mode links =>
      simp only [htarget, bind_eq_ok] at h
      obtain ⟨_, ⟨⟩, entry, hentry', h⟩ := h
      refine ⟨content, mode, links, entry, hentry, hentry', ?_⟩
      split at h
      next => cases h
      next hnotdir =>
        cases h
        exact ⟨hnotdir, rfl⟩
    next => cases h
  · intro h
    obtain ⟨content, mode, links, entry, hentry, hentry', hnotdir, rfl⟩ := h
    refine ⟨sourceNames, rfl, _, hentry, ?_⟩
    simp only [htarget, bind_eq_ok]
    refine ⟨targetNames, rfl, entry, hentry', ?_⟩
    split
    · exact absurd rfl (hnotdir _)
    · rfl

theorem secureRename_spec (h : secureRename t source target = .ok t') : ∃ content mode links,
      t.node sourceNames = some (.file content mode links) ∧
      (∀ path, t.node targetNames ≠ some (.link path)) ∧
      ∀ q, t'.node q = if q = targetNames then some (.file content mode links)
        else if q = sourceNames then none else t.node q := by
  obtain ⟨content, mode, links, entry, hentry, hentry', hnotdir, rfl⟩ :=
    (secureRename_eq_ok hsource htarget).1 h
  obtain ⟨hfile, -, -⟩ := anchoredEntry_eq_ok hentry
  obtain ⟨rfl, hlink, hdir⟩ := anchoredEntry_eq_ok hentry'
  have hsourceNe := relativeComponents_ne_nil hsource
  have hleaf : t.isLeaf sourceNames = true := by
    refine isLeaf_of_not_directory hsourceNe ?_
    intro mode'
    rw [← hfile]
    simp
  have haccepts : (t.remove sourceNames).accepts targetNames (.file content mode links) = true := by
    refine accepts_iff.2 ⟨relativeComponents_ne_nil htarget, ?_, .inr ?_⟩
    · -- The directory of the target is not the file that was moved.
      rw [isDirectory_iff] at hdir ⊢
      refine hdir.imp_right fun ⟨mode', hmode'⟩ => ⟨mode', ?_⟩
      rw [node_remove hleaf, if_neg, hmode']
      intro heq
      rw [heq, ← hfile] at hmode'
      cases hmode'
    · intro mode'
      rw [node_remove hleaf]
      split
      · simp
      · exact hnotdir mode'
  refine ⟨content, mode, links, hfile.symm, hlink, fun q => ?_⟩
  rw [node_put haccepts, node_remove hleaf]

theorem secureRename_congr (hagree : Agree ok t r) (hbegins : Begins ok sourceNames)
    (hbegins' : Begins ok targetNames) (h : secureRename t source target = .ok t') :
    ∃ r', secureRename r source target = .ok r' ∧ Agree ok t' r' := by
  obtain ⟨content, mode, links, entry, hentry, hentry', hnotdir, -⟩ :=
    (secureRename_eq_ok hsource htarget).1 h
  have hr' : secureRename r source target =
      .ok ((r.remove sourceNames).put targetNames (.file content mode links)) :=
    (secureRename_eq_ok hsource htarget).2 ⟨content, mode, links, entry,
      (anchoredEntry_congr hagree hbegins).symm.trans hentry,
      (anchoredEntry_congr hagree hbegins').symm.trans hentry', hnotdir, rfl⟩
  refine ⟨_, hr', fun name rest hok => ?_⟩
  obtain ⟨content₁, mode₁, links₁, hfile, -, hnodes⟩ := secureRename_spec hsource htarget h
  obtain ⟨content₂, mode₂, links₂, hfile', -, hnodes'⟩ := secureRename_spec hsource htarget hr'
  have hsame := (hfile.symm.trans (hagree.node_eq hbegins)).trans hfile'
  rw [hnodes, hnodes', hsame, hagree name rest hok]

end

section

variable (hnames : relativeComponents path = .ok names)
include hnames

theorem secureChmod_eq_ok :
    secureChmod t path mode = .ok t' ↔ ∃ n, anchoredEntry t names = .ok (some n) ∧
      t' = t.put names (withMode mode n) := by
  simp only [secureChmod, hnames, bind_eq_ok]
  constructor
  · intro h
    obtain ⟨_, ⟨⟩, o, hentry, h⟩ := h
    cases o with
    | none => cases h
    | some n =>
      cases h
      exact ⟨n, hentry, rfl⟩
  · intro h
    obtain ⟨n, hentry, rfl⟩ := h
    exact ⟨names, rfl, some n, hentry, rfl⟩

theorem secureChmod_spec (h : secureChmod t path mode = .ok t') :
    ∃ n, t.node names = some n ∧ n.isLink = false ∧
      ∀ q, t'.node q = if q = names then some (withMode mode n) else t.node q := by
  obtain ⟨n, hentry, rfl⟩ := (secureChmod_eq_ok hnames).1 h
  obtain ⟨hn, hlink, hdir⟩ := anchoredEntry_eq_ok hentry
  refine ⟨n, hn.symm, ?_, fun q => node_put ?_⟩
  · cases n with
    | link path => exact absurd hn.symm (hlink path)
    | file content mode' links => rfl
    | directory mode' => rfl
  · refine accepts_iff.2 ⟨relativeComponents_ne_nil hnames, hdir, ?_⟩
    rw [← hn]
    cases n <;> simp [withMode, FileNode.isDirectory]

theorem secureChmod_congr (hagree : Agree ok t r) (hbegins : Begins ok names)
    (h : secureChmod t path mode = .ok t') :
    ∃ r', secureChmod r path mode = .ok r' ∧ Agree ok t' r' := by
  obtain ⟨n, hentry, -⟩ := (secureChmod_eq_ok hnames).1 h
  have hr' : secureChmod r path mode = .ok (r.put names (withMode mode n)) :=
    (secureChmod_eq_ok hnames).2 ⟨n, (anchoredEntry_congr hagree hbegins).symm.trans hentry, rfl⟩
  refine ⟨_, hr', fun name rest hok => ?_⟩
  obtain ⟨n₁, hn₁, -, hnodes⟩ := secureChmod_spec hnames h
  obtain ⟨n₂, hn₂, -, hnodes'⟩ := secureChmod_spec hnames hr'
  obtain rfl : n₁ = n₂ := Option.some.inj ((hn₁.symm.trans (hagree.node_eq hbegins)).trans hn₂)
  rw [hnodes, hnodes', hagree name rest hok]

end

theorem secureFileContent_congr (hagree : Agree ok t r) (hbegins : Begins ok (pathNames path)) :
    secureFileContent t path = secureFileContent r path := by
  unfold secureFileContent
  cases hnames : relativeComponents path with
  | error message => rfl
  | ok names =>
    obtain rfl := relativeComponents_eq hnames
    simp only [anchoredEntry_congr hagree hbegins, bind, Except.bind]

/-- Where no directory is missing, the walk makes none. -/
theorem openAnchoredParent_of_anyMissing (hmissing : anyMissing t above names = .ok false)
    (h : openAnchoredParent create t above names = .ok made) : made = [] := by
  induction names generalizing above made with
  | nil =>
    cases h
    rfl
  | cons name names ih =>
    obtain ⟨o, ho, h⟩ := bind_eq_ok.1 h
    obtain ⟨o', ho', hmissing⟩ := bind_eq_ok.1 hmissing
    obtain rfl : o = o' := Except.ok.inj (ho.symm.trans ho')
    split at h
    · cases hmissing
    · exact ih hmissing h
    · cases h

end Axiomc.Workspace
