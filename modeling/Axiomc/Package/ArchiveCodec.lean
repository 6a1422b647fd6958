import Axiomc.Foundation.OrderedMap
import Axiomc.Package.ArchiveFormat
import Mathlib.Algebra.Ring.Nat

/-!
# The archive codec

The reader accepts exactly the canonical encodings.  `Canonical` lists what an archive's entries
satisfy; `Tracks` says that the variables of the loop are those of the entries read so far.  One
turn of the loop extends a canonical list by one entry (`parseEntry_sound`) and can do so whenever
the longer list is canonical and its encoding is what the archive holds (`parseEntry_complete`);
the loop iterates the two.
-/

namespace Axiomc.Package

open Std List Nat
open Axiomc.Foundation

/-! ### Canonical entry lists -/

/-- The directories that the files of a list lie in. -/
def directoriesOf (entries : List ArchiveEntry) : Finset Text :=
  (entries.flatMap fun entry => parentDirectories entry.path).toFinset

/-- The number of content bytes of a list of entries. -/
def contentBytes (entries : List ArchiveEntry) : Nat :=
  (entries.map fun entry => entry.bytes.length).sum

/-- The entry lists that have an archive: strictly increasing valid paths, no path a directory of
another one, and all limits met. -/
structure Canonical (ext : Externals) (limits : ArchiveLimits) (entries : List ArchiveEntry) :
    Prop where
  valid : ∀ entry ∈ entries, ValidPath ext limits entry.path
  increasing : entries.Pairwise fun a b => byteOrder a.path b.path = .lt
  apart : ∀ a ∈ entries, ∀ b ∈ entries, ¬IsParent a.path b.path
  fileBytes : ∀ entry ∈ entries, entry.bytes.length ≤ limits.maxFileBytes.toNat
  totalBytes : contentBytes entries ≤ limits.maxArchiveBytes.toNat
  archiveBytes : (encodeArchive entries).length ≤ limits.maxArchiveBytes.toNat
  fileCount : entries.length ≤ limits.maxFiles.toNat
  directoryCount : (directoriesOf entries).card ≤ limits.maxDirectories.toNat
  treeCount : entries.length + (directoriesOf entries).card ≤ limits.maxTreeEntries.toNat

@[simp] theorem encodeArchive_append (as bs : List ArchiveEntry) :
    encodeArchive (as ++ bs) = encodeArchive as ++ bs.flatMap encodeEntry := by
  simp [encodeArchive]

theorem length_encodeArchive_snoc (entries : List ArchiveEntry) (entry : ArchiveEntry) :
    (encodeArchive (entries ++ [entry])).length = (encodeArchive entries).length +
      (encodeUtf8 (headerLine entry.path entry.bytes.length)).length + 1 + entry.bytes.length +
      (separator entry.bytes).length := by
  simp only [encodeArchive_append, flatMap_cons, flatMap_nil, append_nil, encodeEntry, length_append,
    length_cons]
  omega

@[simp] theorem contentBytes_append (as bs : List ArchiveEntry) :
    contentBytes (as ++ bs) = contentBytes as + contentBytes bs := by
  simp [contentBytes]

@[simp] theorem directoriesOf_append (as bs : List ArchiveEntry) :
    directoriesOf (as ++ bs) = directoriesOf as ∪ directoriesOf bs := by
  simp [directoriesOf]

@[simp] theorem directoriesOf_singleton (entry : ArchiveEntry) :
    directoriesOf [entry] = (parentDirectories entry.path).toFinset := by
  simp [directoriesOf]

section

variable {ext : Externals} {limits : ArchiveLimits} {entries : List ArchiveEntry}

theorem canonical_nil (h : archiveMagic.length ≤ limits.maxArchiveBytes.toNat) :
    Canonical ext limits [] where
  valid := by simp
  increasing := .nil
  apart := by simp
  fileBytes := by simp
  totalBytes := zero_le _
  archiveBytes := by simpa [encodeArchive] using h
  fileCount := zero_le _
  directoryCount := by simp [directoriesOf]
  treeCount := by simp [directoriesOf]

/-- An initial part of a canonical list is canonical. -/
theorem Canonical.of_append {rest : List ArchiveEntry}
    (h : Canonical ext limits (entries ++ rest)) : Canonical ext limits entries where
  valid entry hentry := h.valid entry (mem_append_left _ hentry)
  increasing := (pairwise_append.1 h.increasing).1
  apart a ha b hb := h.apart a (mem_append_left _ ha) b (mem_append_left _ hb)
  fileBytes entry hentry := h.fileBytes entry (mem_append_left _ hentry)
  totalBytes := by
    have := h.totalBytes
    rw [contentBytes_append] at this
    omega
  archiveBytes := by
    have := h.archiveBytes
    rw [encodeArchive_append, length_append] at this
    omega
  fileCount := by
    have := h.fileCount
    rw [length_append] at this
    omega
  directoryCount := by
    have := h.directoryCount
    have hle : (directoriesOf entries).card ≤ (directoriesOf entries ∪ directoriesOf rest).card :=
      Finset.card_le_card Finset.subset_union_left
    rw [directoriesOf_append] at this
    omega
  treeCount := by
    have := h.treeCount
    have hle : (directoriesOf entries).card ≤ (directoriesOf entries ∪ directoriesOf rest).card :=
      Finset.card_le_card Finset.subset_union_left
    rw [directoriesOf_append, length_append] at this
    omega

theorem parentDirectories_length_le (path : Text) : (parentDirectories path).length ≤ path.length := by
  have hlength : ∀ (components : List Text) (base : Text),
      (parentsFrom base components).length = components.length := by
    intro components
    induction components with
    | nil => exact fun _ => rfl
    | cons component components ih => exact fun base => congrArg succ (ih _)
  have := length_splitOn_le '/' path
  rw [parentDirectories, hlength, length_take]
  omega

theorem path_length_lt_encodeEntry (entry : ArchiveEntry) :
    entry.path.length < (encodeEntry entry).length := by
  have hline := encodeUtf8_length_le (headerLine entry.path entry.bytes.length)
  have hpath : entry.path.length ≤ (headerLine entry.path entry.bytes.length).length := by
    simp only [headerLine, length_append]
    omega
  simp only [encodeEntry, length_append, length_cons]
  omega

/-- The entries and directories of a list are no more than the bytes of its archive. -/
theorem length_add_directories_le (entries : List ArchiveEntry) :
    entries.length + (directoriesOf entries).card ≤ (encodeArchive entries).length := by
  have hrecords : entries.length + (directoriesOf entries).card ≤
      (entries.flatMap encodeEntry).length := by
    induction entries with
    | nil => simp [directoriesOf]
    | cons entry entries ih =>
      have hunion : directoriesOf (entry :: entries) =
          (parentDirectories entry.path).toFinset ∪ directoriesOf entries := by
        simp [directoriesOf]
      have hcard := Finset.card_union_le (parentDirectories entry.path).toFinset (directoriesOf entries)
      have hparents := (parentDirectories entry.path).toFinset_card_le
      have hpath := parentDirectories_length_le entry.path
      have hentry := path_length_lt_encodeEntry entry
      rw [hunion, flatMap_cons, length_append, length_cons]
      omega
  rw [encodeArchive, length_append]
  omega

/-! ### Adding an entry -/

variable {path : Text}

theorem IsParent.lt {directory : Text} (h : IsParent directory path) :
    byteOrder directory path = .lt := by
  obtain ⟨rest, rfl⟩ := h
  rw [append_assoc]
  exact byteOrder_append directory (by simp)

/-- In an increasing list, what comes after the last path comes after all of them. -/
theorem lt_of_lt_last (hincreasing : entries.Pairwise fun a b => byteOrder a.path b.path = .lt)
    (hlast : ∀ last ∈ entries.getLast?, byteOrder last.path path = .lt) :
    ∀ entry ∈ entries, byteOrder entry.path path = .lt := by
  intro entry hentry
  obtain ⟨front, last, rfl⟩ := eq_nil_or_concat entries |>.resolve_left (ne_nil_of_mem hentry)
  rw [concat_eq_append] at hentry hincreasing hlast
  have hend := hlast last (by simp)
  rcases mem_append.1 hentry with hfront | hsingle
  · exact TransCmp.lt_trans ((pairwise_append.1 hincreasing).2.2 entry hfront last mem_cons_self) hend
  · rw [mem_singleton.1 hsingle]
    exact hend

variable {entry : ArchiveEntry} {tail : Bytes}

/-- A canonical list stays canonical when a valid later file is added that lies in none of its
files and keeps the limits. -/
theorem Canonical.snoc (h : Canonical ext limits entries) (hvalid : ValidPath ext limits entry.path)
    (hlater : ∀ e ∈ entries, byteOrder e.path entry.path = .lt)
    (hapart : ∀ e ∈ entries, ¬IsParent e.path entry.path)
    (hfile : entry.bytes.length ≤ limits.maxFileBytes.toNat)
    (htotal : contentBytes (entries ++ [entry]) ≤ limits.maxArchiveBytes.toNat)
    (harchive : (encodeArchive (entries ++ [entry])).length ≤ limits.maxArchiveBytes.toNat)
    (hcount : (entries ++ [entry]).length ≤ limits.maxFiles.toNat)
    (hdirectories : (directoriesOf (entries ++ [entry])).card ≤ limits.maxDirectories.toNat)
    (htree : (entries ++ [entry]).length + (directoriesOf (entries ++ [entry])).card
      ≤ limits.maxTreeEntries.toNat) :
    Canonical ext limits (entries ++ [entry]) where
  valid := forall_mem_append.2 ⟨h.valid, forall_mem_singleton.2 hvalid⟩
  increasing := pairwise_append.2 ⟨h.increasing, pairwise_singleton _ _,
    fun a ha => forall_mem_singleton.2 (hlater a ha)⟩
  apart a ha b hb hparent := by
    -- A directory comes before what it holds, so only an old file can be a directory of the new.
    have hlt := hparent.lt
    rcases mem_append.1 ha with haold | hanew
    · rcases mem_append.1 hb with hbold | hbnew
      · exact h.apart a haold b hbold hparent
      · rw [mem_singleton.1 hbnew] at hparent
        exact hapart a haold hparent
    · rw [mem_singleton.1 hanew] at hlt
      rcases mem_append.1 hb with hbold | hbnew
      · have := OrientedCmp.gt_iff_lt.2 (hlater b hbold)
        rw [hlt] at this
        cases this
      · rw [mem_singleton.1 hbnew] at hlt
        exact ne_of_byteOrder_lt hlt rfl
  fileBytes := forall_mem_append.2 ⟨h.fileBytes, forall_mem_singleton.2 hfile⟩
  totalBytes := htotal
  archiveBytes := harchive
  fileCount := hcount
  directoryCount := hdirectories
  treeCount := htree

/-- The collision check finds the files that are a directory of a later path; the files below the
path, which its second half looks for, all come after it. -/
theorem rejectFileDirectoryCollision_eq_ok_iff (hvalid : ValidPath ext limits path)
    {paths : PathSet} (hle : ∀ q : Text, q ∈ paths → (byteOrder q path).isLE = true) {u : Unit} :
    rejectFileDirectoryCollision ext path paths = .ok u ↔ ∀ q : Text, q ∈ paths → ¬IsParent q path := by
  unfold rejectFileDirectoryCollision
  cases hfind : (parentDirectories path).find? paths.contains with
  | some directory =>
    have hmem := mem_of_find?_eq_some hfind
    have hcontains := find?_some hfind
    constructor
    · intro h
      cases h
    · intro h
      exact absurd ((mem_parentDirectories_iff hvalid).1 hmem)
        (h directory (TreeSet.contains_iff_mem.1 hcontains))
  | none =>
    have hparents : ∀ q : Text, q ∈ paths → ¬IsParent q path := by
      intro q hq hparent
      have := find?_eq_none.1 hfind q ((mem_parentDirectories_iff hvalid).2 hparent)
      exact this (TreeSet.contains_iff_mem.2 hq)
    have hnone : paths.toList.find?
        (fun candidate => (byteOrder (path ++ ['/']) candidate).isLE) = none := by
      rw [find?_eq_none]
      intro candidate hcandidate hge
      have hbefore := TransCmp.lt_of_isLE_of_lt (hle candidate (TreeSet.mem_toList.1 hcandidate))
        (byteOrder_append path (b := ['/']) (by simp))
      have := OrientedCmp.gt_iff_lt.2 hbefore
      rw [this] at hge
      cases hge
    constructor
    · intro _
      exact hparents
    · intro _
      simp [hnone]

/-! ### The variables of the loop -/

/-- The variables of the loop after it has read `done`. -/
structure Tracks (bytes : Bytes) (state : ParseState) (done : List ArchiveEntry) : Prop where
  cursor : state.cursor = (encodeArchive done).length
  consumed : encodeArchive done <+: bytes
  extracted : state.extractedBytes = contentBytes done
  entries : state.entries = done
  paths : Holds state.paths (done.map (·.path)).toFinset
  directories : Holds state.directories (directoriesOf done)
  previous : state.previousPath = done.getLast?.map (·.path)

variable {bytes : Bytes} {state next : ParseState} {done : List ArchiveEntry}

theorem tracks_initial (hmagic : archiveMagic <+: bytes) : Tracks bytes .initial [] where
  cursor := by simp [ParseState.initial, encodeArchive]
  consumed := by simpa [encodeArchive] using hmagic
  extracted := rfl
  entries := rfl
  paths := holds_empty
  directories := holds_empty
  previous := rfl

theorem Canonical.nodup_paths (h : Canonical ext limits done) : (done.map (·.path)).Nodup := by
  rw [List.Nodup, pairwise_map]
  exact h.increasing.imp ne_of_byteOrder_lt

/-- The number of paths held, one more file included. -/
theorem card_paths_snoc (h : Canonical ext limits done)
    (hnew : ∀ e ∈ done, byteOrder e.path path = .lt) :
    (insert path (done.map (·.path)).toFinset).card = done.length + 1 := by
  rw [Finset.card_insert_of_notMem, toFinset_card_of_nodup h.nodup_paths, length_map]
  intro hmem
  obtain ⟨e, he, heq⟩ := mem_map.1 (mem_toFinset.1 hmem)
  exact ne_of_byteOrder_lt (hnew e he) heq

/-- **Charging a file.**  The checks between the byte length and the content, in terms of the
entries read so far. -/
theorem admitFile_eq_ok_iff (htracks : Tracks bytes state done) (h : Canonical ext limits done)
    (hvalid : ValidPath ext limits path) {length : Nat} {admitted : Admitted} :
    admitFile ext limits state path length = .ok admitted ↔
      length ≤ limits.maxFileBytes.toNat ∧ contentBytes done + length < 2 ^ 64 ∧
      contentBytes done + length ≤ limits.maxArchiveBytes.toNat ∧
      (∀ e ∈ done, byteOrder e.path path = .lt) ∧ (∀ e ∈ done, ¬IsParent e.path path) ∧
      (directoriesOf done ∪ (parentDirectories path).toFinset).card ≤ limits.maxDirectories.toNat ∧
      saturatingAdd (done.length + 1) (directoriesOf done ∪ (parentDirectories path).toFinset).card
          ≤ limits.maxTreeEntries.toNat ∧
      admitted = ⟨contentBytes done + length, state.paths.insert path,
        (parentDirectories path).foldl (fun set directory => set.insert directory)
          state.directories⟩ := by
  have hpaths := htracks.paths.insert path
  have hdirectories := htracks.directories.foldl_insert (parentDirectories path)
  have hold : ∀ q : Text, q ∈ state.paths ↔ ∃ e ∈ done, e.path = q := by
    intro q
    rw [htracks.paths.mem_iff, mem_toFinset, mem_map]
  have hcharged : ∀ q, q ∈ state.paths.insert path ↔ q = path ∨ ∃ e ∈ done, e.path = q := by
    intro q
    rw [hpaths.mem_iff, Finset.mem_insert, mem_toFinset, mem_map]
  -- The comparison with the previous path decides the comparison with all of them.
  have horder : ¬state.previousPath.any (fun previous => (byteOrder previous path).isGE) = true ↔
      ∀ e ∈ done, byteOrder e.path path = .lt := by
    rw [htracks.previous]
    constructor
    · intro hprevious
      refine lt_of_lt_last h.increasing ?_
      intro last hlast
      rw [hlast] at hprevious
      simpa using hprevious
    · intro hall
      cases hlast : done.getLast? with
      | none => simp
      | some last =>
        have := hall last (mem_of_getLast? hlast)
        simp [this]
  have hcollision (hall : ∀ e ∈ done, byteOrder e.path path = .lt) :
      rejectFileDirectoryCollision ext path (state.paths.insert path) = .ok () ↔
        ∀ e ∈ done, ¬IsParent e.path path := by
    rw [rejectFileDirectoryCollision_eq_ok_iff hvalid]
    · constructor
      · intro hparents e he
        exact hparents e.path ((hcharged _).2 (.inr ⟨e, he, rfl⟩))
      · intro hparents q hq hparent
        rcases (hcharged q).1 hq with rfl | ⟨e, he, rfl⟩
        · exact ne_of_byteOrder_lt hparent.lt rfl
        · exact hparents e he hparent
    · intro q hq
      rcases (hcharged q).1 hq with rfl | ⟨e, he, rfl⟩
      · have hself : byteOrder q q = .eq := ReflCmp.compare_self
        rw [hself]
        rfl
      · rw [hall e he]
        rfl
  have hfresh (hall : ∀ e ∈ done, byteOrder e.path path = .lt) : path ∉ state.paths := by
    intro hmem
    obtain ⟨e, he, heq⟩ := (hold path).1 hmem
    exact ne_of_byteOrder_lt (hall e he) heq
  simp only [admitFile, check_bind_eq_ok, require_bind_eq_ok, reject_eq_ok, checkedAdd_eq_some,
    pure_eq_ok, horder, htracks.extracted, hpaths.size_eq, hdirectories.size_eq, not_or, Nat.not_lt]
  constructor
  · intro hok
    obtain ⟨hfile, total, ⟨hfits, rfl⟩, htotal, -, hall, hreject, ⟨hcount, htree⟩, rfl⟩ := hok
    rw [card_paths_snoc h hall] at htree
    exact ⟨hfile, hfits, htotal, hall, (hcollision hall).1 hreject, hcount, htree, rfl⟩
  · intro hok
    obtain ⟨hfile, hfits, htotal, hall, hapart, hcount, htree, rfl⟩ := hok
    refine ⟨hfile, _, ⟨hfits, rfl⟩, htotal, hfresh hall, hall, (hcollision hall).2 hapart,
      ⟨hcount, ?_⟩, rfl⟩
    rw [card_paths_snoc h hall]
    exact htree

/-! ### One turn of the loop -/

/-- The variables after one more entry. -/
theorem Tracks.snoc (htracks : Tracks bytes state done)
    (hbytes : bytes = encodeArchive (done ++ [entry]) ++ tail) :
    Tracks bytes
      { cursor := (encodeArchive (done ++ [entry])).length
        extractedBytes := contentBytes done + entry.bytes.length
        entries := state.entries ++ [entry]
        paths := state.paths.insert entry.path
        directories := (parentDirectories entry.path).foldl
          (fun set directory => set.insert directory) state.directories
        previousPath := some entry.path } (done ++ [entry]) where
  cursor := rfl
  consumed := ⟨tail, hbytes.symm⟩
  extracted := by simp [contentBytes]
  entries := by simp [htracks.entries]
  paths := by
    have := htracks.paths.insert entry.path
    rwa [show insert entry.path (done.map (·.path)).toFinset =
      ((done ++ [entry]).map (·.path)).toFinset by
        ext q
        simp] at this
  directories := by
    have := htracks.directories.foldl_insert (parentDirectories entry.path)
    rwa [← directoriesOf_singleton, ← directoriesOf_append] at this
  previous := by simp

section

variable (htracks : Tracks bytes state done) (hsize : bytes.length ≤ limits.maxArchiveBytes.toNat)
include htracks hsize

/-- **The step, soundness.**  What a turn of the loop reads is the record of one more entry, and
the longer list is canonical. -/
theorem parseEntry_sound (h : Canonical ext limits done)
    (hstep : parseEntry ext limits bytes state = .ok next) :
    ∃ entry, Canonical ext limits (done ++ [entry]) ∧ Tracks bytes next (done ++ [entry]) := by
  have hlimit : limits.maxArchiveBytes.toNat < 2 ^ 64 := limits.maxArchiveBytes.toNat_lt
  obtain ⟨tail, htail⟩ := htracks.consumed
  obtain ⟨hfiles, hstep⟩ := check_bind_eq_ok.1 hstep
  obtain ⟨header, hheader, hstep⟩ := bind_eq_ok.1 hstep
  obtain ⟨admitted, hadmitted, hstep⟩ := bind_eq_ok.1 hstep
  obtain ⟨⟨content, cursor⟩, hcontent, hstep⟩ := bind_eq_ok.1 hstep
  rw [reject_eq_ok, htracks.entries] at hfiles
  rw [htracks.cursor] at hheader hcontent
  obtain ⟨⟨body, rfl⟩, hnewline, hvalid, -⟩ :=
    (readHeader_eq_ok_iff htail.symm (by omega)).1 hheader
  obtain ⟨hlength, ⟨rest, rfl⟩, rfl⟩ :=
    (readContent_eq_ok_iff htail.symm hnewline (by omega)).1 hcontent
  obtain ⟨hfile, -, htotal, hlater, hapart, hdirectories, htree, rfl⟩ :=
    (admitFile_eq_ok_iff htracks h hvalid).1 hadmitted
  have hnext := pure_eq_ok.1 hstep
  have hbytes : bytes = encodeArchive (done ++ [⟨header.path, content⟩]) ++ rest := by
    rw [← htail]
    simp [encodeEntry, hlength]
  have hencoded := congrArg length hbytes
  rw [length_append] at hencoded
  have hcounted := length_add_directories_le (done ++ [⟨header.path, content⟩])
  refine ⟨⟨header.path, content⟩, h.snoc hvalid hlater hapart ?_ ?_ ?_ ?_ ?_ ?_, ?_⟩
  · show content.length ≤ limits.maxFileBytes.toNat
    omega
  · simpa [contentBytes, hlength] using htotal
  · omega
  · have hbound := h.fileCount
    rw [length_append, length_singleton]
    omega
  · rw [directoriesOf_append, directoriesOf_singleton]
    exact hdirectories
  · simp only [directoriesOf_append, directoriesOf_singleton, length_append,
      length_singleton] at hcounted ⊢
    simp only [saturatingAdd] at htree
    omega
  · have := htracks.snoc hbytes
    rw [length_encodeArchive_snoc] at this
    rw [← hnext, ← hlength]
    exact this

/-- **The step, completeness.**  When the archive goes on with the record of an entry that keeps the
list canonical, a turn of the loop reads it. -/
theorem parseEntry_complete (h : Canonical ext limits (done ++ [entry]))
    (hbytes : bytes = encodeArchive (done ++ [entry]) ++ tail) :
    ∃ next, parseEntry ext limits bytes state = .ok next ∧ Tracks bytes next (done ++ [entry]) := by
  have hlimit : limits.maxArchiveBytes.toNat < 2 ^ 64 := limits.maxArchiveBytes.toNat_lt
  have hentry : entry ∈ done ++ [entry] := mem_append_right _ mem_cons_self
  have hdone := h.of_append
  obtain ⟨hincreasing, -, hlater⟩ := pairwise_append.1 h.increasing
  let line := encodeUtf8 (headerLine entry.path entry.bytes.length)
  let header : FileHeader := ⟨line.length, entry.path, entry.bytes.length⟩
  have hsplit : bytes = encodeArchive done
      ++ (line ++ 10 :: (entry.bytes ++ (separator entry.bytes ++ tail))) := by
    rw [hbytes]
    simp [encodeEntry, line]
  have hlength := congrArg length hsplit
  simp only [length_append, length_cons] at hlength
  have hheader : readHeader ext limits bytes (encodeArchive done).length = .ok header :=
    (readHeader_eq_ok_iff hsplit (by omega)).2
      ⟨⟨_, rfl⟩, rfl, h.valid entry hentry, by show entry.bytes.length < 2 ^ 64; omega⟩
  have hcontent : readContent ext bytes (encodeArchive done).length header =
      .ok (entry.bytes, (encodeArchive (done ++ [entry])).length) :=
    (readContent_eq_ok_iff hsplit rfl (by omega)).2
      ⟨rfl, ⟨tail, rfl⟩, length_encodeArchive_snoc done entry⟩
  have htotal := h.totalBytes
  have htree := h.treeCount
  have hcount := h.directoryCount
  rw [contentBytes_append] at htotal
  rw [directoriesOf_append, directoriesOf_singleton] at htree hcount
  have hadmitted : admitFile ext limits state entry.path entry.bytes.length =
      .ok ⟨contentBytes done + entry.bytes.length, state.paths.insert entry.path,
        (parentDirectories entry.path).foldl (fun set directory => set.insert directory)
          state.directories⟩ := by
    refine (admitFile_eq_ok_iff htracks hdone (h.valid entry hentry)).2
      ⟨h.fileBytes entry hentry, ?_, ?_, ?_, ?_, hcount, ?_, rfl⟩
    · simp only [contentBytes, map_cons, map_nil, sum_cons] at htotal ⊢
      omega
    · simpa [contentBytes] using htotal
    · exact fun e he => hlater e he entry mem_cons_self
    · exact fun e he => h.apart e (mem_append_left _ he) entry hentry
    · rw [length_append, length_singleton] at htree
      simp only [saturatingAdd]
      omega
  have hfiles : state.entries.length ≠ limits.maxFiles.toNat := by
    have := h.fileCount
    rw [length_append, length_singleton] at this
    rw [htracks.entries]
    omega
  refine ⟨_, ?_, htracks.snoc hbytes⟩
  refine check_bind_eq_ok.2 ⟨reject_eq_ok.2 hfiles, ?_⟩
  rw [htracks.cursor]
  exact bind_eq_ok.2 ⟨header, hheader, bind_eq_ok.2 ⟨_, hadmitted, bind_eq_ok.2 ⟨_, hcontent, rfl⟩⟩⟩

/-! ### The loop -/

/-- The loop accepts only the encodings of canonical lists. -/
theorem parseEntries_sound (h : Canonical ext limits done)
    (hrun : parseEntries ext limits bytes state = .ok next) :
    Canonical ext limits next.entries ∧ encodeArchive next.entries = bytes := by
  -- Induction along the turns of the loop; each of them extends the list of entries read.
  induction state using parseEntries.induct ext limits bytes generalizing done with
  | case1 state hmore error herror =>
    rw [parseEntries_eq, if_pos hmore, herror] at hrun
    cases hrun
  | case2 state hmore step hstep ih =>
    obtain ⟨entry, hcanonical, hnext⟩ := parseEntry_sound htracks hsize h hstep
    rw [parseEntries_eq, if_pos hmore, hstep] at hrun
    exact ih hnext hcanonical hrun
  | case3 state hend =>
    rw [parseEntries_eq, if_neg hend] at hrun
    cases hrun
    rw [htracks.entries]
    refine ⟨h, htracks.consumed.eq_of_length_le ?_⟩
    rw [htracks.cursor] at hend
    omega

end

/-- The loop reads the encoding of a canonical list to its end. -/
theorem parseEntries_complete (rest : List ArchiveEntry) :
    ∀ {state : ParseState} {done : List ArchiveEntry}, Tracks bytes state done →
      Canonical ext limits (done ++ rest) → bytes = encodeArchive (done ++ rest) →
      bytes.length ≤ limits.maxArchiveBytes.toNat →
      ∃ next, parseEntries ext limits bytes state = .ok next ∧ next.entries = done ++ rest := by
  induction rest with
  | nil =>
    intro state done htracks _ hbytes _
    have hend : ¬state.cursor < bytes.length := by
      rw [htracks.cursor, hbytes, append_nil]
      omega
    refine ⟨state, ?_, by rw [htracks.entries, append_nil]⟩
    rw [parseEntries_eq, if_neg hend]
  | cons entry rest ih =>
    intro state done htracks h hbytes hsize
    have hassoc : done ++ entry :: rest = done ++ [entry] ++ rest := by simp
    rw [hassoc] at h hbytes ⊢
    rw [encodeArchive_append] at hbytes
    obtain ⟨next, hstep, hnext⟩ := parseEntry_complete htracks hsize h.of_append hbytes
    have hmore : state.cursor < bytes.length := by
      have hlt := parseEntry_lt hstep
      have hle := hnext.consumed.length_le
      rw [hnext.cursor] at hlt
      omega
    obtain ⟨final, hrun, hfinal⟩ := ih hnext h (by rw [encodeArchive_append]; exact hbytes) hsize
    refine ⟨final, ?_, hfinal⟩
    rw [parseEntries_eq, if_pos hmore, hstep]
    exact hrun

/-! ### The codec -/

theorem mem_lowerHex {digest} {c : Char} (hc : c ∈ lowerHex digest) :
    ∃ n < 16, c = digitChar n := by
  obtain ⟨byte, -, hbyte⟩ := mem_flatMap.1 hc
  have hlt := byte.toNat_lt
  simp only [mem_cons, not_mem_nil, or_false] at hbyte
  rcases hbyte with rfl | rfl
  · exact ⟨_, by omega, rfl⟩
  · exact ⟨_, by omega, rfl⟩

theorem length_lowerHex (digest) : (lowerHex digest).length = 64 := by
  simp [lowerHex]

/-- The rendering of a digest passes the check of digests. -/
theorem validateSha256_lowerHex (digest) (label : String) :
    validateSha256 (lowerHex digest) label = .ok () := by
  have hdigit : ∀ n < 16, (digitChar n).toNat < 128 ∧
      ((48 ≤ UInt8.ofNat (digitChar n).toNat && UInt8.ofNat (digitChar n).toNat ≤ 57) ||
        (97 ≤ UInt8.ofNat (digitChar n).toNat &&
          UInt8.ofNat (digitChar n).toNat ≤ 102)) = true := by decide
  have hascii : encodeUtf8 (lowerHex digest) = (lowerHex digest).map fun c => UInt8.ofNat c.toNat := by
    apply encodeUtf8_ascii
    intro c hc
    obtain ⟨n, hn, rfl⟩ := mem_lowerHex hc
    exact (hdigit n hn).1
  unfold validateSha256
  rw [reject_eq_ok, hascii, not_or, not_not, not_not, length_map, length_lowerHex, all_map, all_eq_true]
  refine ⟨rfl, ?_⟩
  intro c hc
  obtain ⟨n, hn, rfl⟩ := mem_lowerHex hc
  exact (hdigit n hn).2

/-- Reading the encoding of a canonical list. -/
theorem parseArchive_encodeArchive (h : Canonical ext limits entries) :
    parseArchive ext (encodeArchive entries) (sha256Hex ext (encodeArchive entries)) limits =
      .ok ⟨sha256Hex ext (encodeArchive entries), entries⟩ := by
  have hmagic : archiveMagic <+: encodeArchive entries := ⟨_, rfl⟩
  obtain ⟨final, hrun, hfinal⟩ :=
    parseEntries_complete entries (tracks_initial hmagic) h rfl h.archiveBytes
  have hsize := h.archiveBytes
  refine check_bind_eq_ok.2 ⟨validateSha256_lowerHex _ _, ?_⟩
  refine check_bind_eq_ok.2 ⟨reject_eq_ok.2 (by omega), ?_⟩
  refine check_bind_eq_ok.2 ⟨reject_eq_ok.2 (not_not.2 rfl), ?_⟩
  refine check_bind_eq_ok.2 ⟨reject_eq_ok.2 (not_not.2 hmagic), ?_⟩
  refine bind_eq_ok.2 ⟨final, hrun, ?_⟩
  rw [pure_eq_ok, hfinal, nil_append]

/-- Whatever the reader accepts is the encoding of the canonical list it returns. -/
theorem encodeArchive_parseArchive {expectedSha256 : Text} {parsed : ParsedArchive}
    (h : parseArchive ext bytes expectedSha256 limits = .ok parsed) :
    Canonical ext limits parsed.entries ∧ encodeArchive parsed.entries = bytes ∧
      parsed.archiveSha256 = sha256Hex ext bytes ∧ expectedSha256 = sha256Hex ext bytes := by
  obtain ⟨-, h⟩ := check_bind_eq_ok.1 h
  obtain ⟨hsize, h⟩ := check_bind_eq_ok.1 h
  obtain ⟨hdigest, h⟩ := check_bind_eq_ok.1 h
  obtain ⟨hmagic, h⟩ := check_bind_eq_ok.1 h
  obtain ⟨final, hrun, h⟩ := bind_eq_ok.1 h
  rw [reject_eq_ok] at hsize hdigest hmagic
  rw [not_not] at hdigest hmagic
  have hlength := hmagic.length_le
  obtain ⟨hcanonical, hencode⟩ := parseEntries_sound (tracks_initial hmagic) (by omega)
    (canonical_nil (by omega)) hrun
  have hparsed := pure_eq_ok.1 h
  subst hparsed
  exact ⟨hcanonical, hencode, rfl, hdigest.symm⟩

end

/-- **The archive codec.**  The reader accepts exactly the canonical encodings: it reads the
encoding of a canonical list, under its own digest, back to the list, and whatever it accepts is
the encoding of the canonical list it returns. -/
theorem parseArchive_codec (ext : Externals) (limits : ArchiveLimits) :
    (∀ entries : List ArchiveEntry, Canonical ext limits entries →
      parseArchive ext (encodeArchive entries) (sha256Hex ext (encodeArchive entries)) limits =
        .ok ⟨sha256Hex ext (encodeArchive entries), entries⟩) ∧
    (∀ (bytes : Bytes) (expectedSha256 : Text) (parsed : ParsedArchive),
      parseArchive ext bytes expectedSha256 limits = .ok parsed →
        Canonical ext limits parsed.entries ∧ encodeArchive parsed.entries = bytes ∧
          parsed.archiveSha256 = sha256Hex ext bytes ∧ expectedSha256 = sha256Hex ext bytes) := by
  constructor
  · intro entries h
    exact parseArchive_encodeArchive h
  · intro bytes expectedSha256 parsed h
    exact encodeArchive_parseArchive h

/-- The crates on the archive of `sampleEntries`: their paths are in form C, and this is its digest. -/
def sampleExternals : Externals where
  nfc := id
  sha256 _ := #v[2, 251, 162, 235, 139, 193, 24, 48, 141, 94, 21, 103, 153, 30, 188, 209,
    116, 236, 61, 205, 175, 42, 132, 150, 91, 39, 174, 213, 221, 65, 98, 42]
  debug := String.ofList

/-- A file of one line, and a directory with a file that reads like a header and has no last line feed,
and an empty file. -/
def sampleEntries : List ArchiveEntry :=
  [⟨"a.ax".toList, encodeUtf8 "x\n".toList⟩,
    ⟨"lib/b.ax".toList, encodeUtf8 "--- file c.ax 1 ---\ny".toList⟩, ⟨"lib/c.ax".toList, []⟩]

theorem sampleEntries_canonical : Canonical sampleExternals .default sampleEntries where
  valid := by
    have hvalid : ∀ entry ∈ sampleEntries,
        validateArchivePath sampleExternals .default entry.path = .ok () := by decide +kernel
    exact fun entry hentry => validateArchivePath_eq_ok_iff.1 (hvalid entry hentry)
  increasing := by decide +kernel
  apart := by decide +kernel
  fileBytes := by decide +kernel
  totalBytes := by decide +kernel
  archiveBytes := by decide +kernel
  fileCount := by decide +kernel
  directoryCount := by decide +kernel
  treeCount := by decide +kernel

theorem sampleEntries_codec : parseArchive sampleExternals (encodeArchive sampleEntries)
        (sha256Hex sampleExternals (encodeArchive sampleEntries)) .default =
      .ok ⟨sha256Hex sampleExternals (encodeArchive sampleEntries), sampleEntries⟩ :=
  (parseArchive_codec sampleExternals .default).1 sampleEntries sampleEntries_canonical

end Axiomc.Package
