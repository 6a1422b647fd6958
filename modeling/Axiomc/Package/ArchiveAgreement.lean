import Axiomc.Package.ArchiveCodec
import Axiomc.Package.ArchiveWriter

/-!
# Publishing and consuming agree

What the writer publishes, seen by the reader.  The writer's output is an encoding of its files in
the order of their path components; the reader takes the canonical encodings.  `Readable` is the
difference: a condition on the project's files under which, and only under which, the reader gives
back what was published.
-/

namespace Axiomc.Package

open Std List ProjectFile
open Axiomc.Foundation

/-! ### An encoding determines its entries -/

theorem headerLine_injective {path path' : Text} {length length' : Nat}
    (h : headerLine path length = headerLine path' length') : path = path' ∧ length = length' := by
  have hbody := append_cancel_left (append_cancel_right h)
  have hleft : rsplitOnce ' ' (path ++ ' ' :: Nat.toDigits 10 length) =
      some (path, Nat.toDigits 10 length) :=
    rsplitOnce_eq_some_iff.2 ⟨rfl, space_notMem_toDigits length⟩
  have hright : rsplitOnce ' ' (path ++ ' ' :: Nat.toDigits 10 length) =
      some (path', Nat.toDigits 10 length') :=
    rsplitOnce_eq_some_iff.2 ⟨hbody, space_notMem_toDigits length'⟩
  rw [hleft, Option.some.injEq, Prod.mk.injEq] at hright
  have hvalue := congrArg (Nat.ofDigitChars 10 · 0) hright.2
  simp only [Nat.ofDigitChars_ten_toDigits] at hvalue
  exact ⟨hright.1, hvalue⟩

theorem encodeEntry_append_injective {a b : ArchiveEntry} {rest rest' : Bytes}
    (ha : '\n' ∉ a.path) (hb : '\n' ∉ b.path)
    (h : encodeEntry a ++ rest = encodeEntry b ++ rest') : a = b ∧ rest = rest' := by
  have hlineA := newline_notMem_encodeUtf8 (headerLine_no_newline ha a.bytes.length)
  have hlineB := newline_notMem_encodeUtf8 (headerLine_no_newline hb b.bytes.length)
  simp only [encodeEntry, append_assoc, cons_append] at h
  -- Both header lines end at the first line feed.
  obtain ⟨hline, hbody⟩ := append_separator_inj hlineA hlineB h
  obtain ⟨hpath, hlength⟩ := headerLine_injective (encodeUtf8_injective hline)
  obtain ⟨hcontent, htail⟩ := append_inj hbody hlength
  have hentry : a = b := by
    cases a
    cases b
    simp only at hpath hcontent
    rw [hpath, hcontent]
  subst hentry
  exact ⟨rfl, append_cancel_left htail⟩

theorem encodeArchive_injective {as bs : List ArchiveEntry} (ha : ∀ e ∈ as, '\n' ∉ e.path)
    (hb : ∀ e ∈ bs, '\n' ∉ e.path) (h : encodeArchive as = encodeArchive bs) : as = bs := by
  have hrecords := append_cancel_left h
  clear h
  induction as generalizing bs with
  | nil =>
    cases bs with
    | nil => rfl
    | cons b bs => simp [encodeEntry] at hrecords
  | cons a as ih =>
    cases bs with
    | nil => simp [encodeEntry] at hrecords
    | cons b bs =>
      obtain ⟨hentry, hrest⟩ := encodeEntry_append_injective (ha a mem_cons_self)
        (hb b mem_cons_self) hrecords
      rw [hentry, ih (fun e he => ha e (mem_cons_of_mem _ he))
        (fun e he => hb e (mem_cons_of_mem _ he)) hrest]

/-! ### Archive paths -/

/-- The path of a file in the archive: its components, joined. -/
def archivePath (path : RelativePath) : Text :=
  ['/'].intercalate (path.map fun name => (decodeUtf8 name).getD [])

/-- The entry of a file in the archive. -/
def ProjectFile.toEntry (file : ProjectFile) : ArchiveEntry := ⟨archivePath file.path, file.content⟩

/-- Texts that the writer takes as path components. -/
structure SafeSegment (value : Text) : Prop where
  nonempty : value ≠ []
  not_dot : value ≠ ['.']
  not_dots : value ≠ ['.', '.']
  no_slash : '/' ∉ value
  no_backslash : '\\' ∉ value
  no_control : ∀ c ∈ value, isControl c = false

theorem safeSegment_of_not_unsafe {value : Text}
    (h : ¬isUnsafeRegistryPathSegment value = true) : SafeSegment value := by
  have hcontains : ∀ c, value.contains c = false ↔ c ∉ value := by
    intro c
    rw [← Bool.not_eq_true, contains_iff_mem]
  simp only [isUnsafeRegistryPathSegment, Bool.or_eq_false_iff, isEmpty_eq_false_iff,
    beq_eq_false_iff_ne, hcontains, any_eq_false, Bool.not_eq_true] at h
  obtain ⟨⟨⟨⟨⟨⟨⟨h₁, -⟩, h₂⟩, h₃⟩, h₄⟩, h₅⟩, h₆⟩, -⟩ := h
  exact ⟨h₁, h₂, h₃, h₄, h₅, h₆⟩

variable {path : RelativePath}

theorem normalizeComponent_ok {component : OsName} {text : Text}
    (h : normalizeComponent path component = .ok text) :
    decodeUtf8 component = some text ∧ SafeSegment text := by
  simp only [normalizeComponent, require_bind_eq_ok, check_bind_eq_ok, reject_eq_ok, pure_eq_ok] at h
  obtain ⟨decoded, hdecoded, hsafe, rfl⟩ := h
  exact ⟨hdecoded, safeSegment_of_not_unsafe hsafe⟩

theorem normalizeComponents_ok {full : RelativePath} {components : List Text}
    (h : path.mapM (normalizeComponent full) = .ok components) :
    path.map (fun name => (decodeUtf8 name).getD []) = components ∧
      path = components.map encodeUtf8 ∧ ∀ component ∈ components, SafeSegment component := by
  induction mapM_eq_ok_iff.1 h with
  | nil => simp
  | cons hhead hrest ih =>
    obtain ⟨hdecode, hsafe⟩ := normalizeComponent_ok hhead
    obtain ⟨hmap, hencode, hall⟩ := ih (mapM_eq_ok_iff.2 hrest)
    refine ⟨?_, ?_, ?_⟩
    · rw [map_cons, hmap, hdecode, Option.getD_some]
    · rw [map_cons, ← hencode, decodeUtf8_eq_some_iff.1 hdecode]
    · intro component hcomponent
      rcases mem_cons.1 hcomponent with rfl | hmem
      · exact hsafe
      · exact hall component hmem

/-- A path that the writer takes: its components and what holds of them. -/
theorem normalizeArchivePath_ok {relative : Text} (h : normalizeArchivePath path = .ok relative) :
    relative = archivePath path ∧
    ∃ components : List Text, path = components.map encodeUtf8 ∧ components ≠ [] ∧
      (∀ component ∈ components, SafeSegment component) ∧
      archivePath path = ['/'].intercalate components := by
  obtain ⟨components, hcomponents, h⟩ := bind_eq_ok.1 h
  obtain ⟨hnonempty, h⟩ := check_bind_eq_ok.1 h
  obtain ⟨hmap, hencode, hsafe⟩ := normalizeComponents_ok hcomponents
  have hjoin : archivePath path = ['/'].intercalate components := by rw [archivePath, hmap]
  exact ⟨by rw [hjoin]; exact (pure_eq_ok.1 h).symm, components, hencode,
    reject_eq_ok.1 hnonempty, hsafe, hjoin⟩

/-! ### What the writer writes -/

/-- The header line that the writer formats, with its line feed. -/
theorem encodeUtf8_recordHeader (path : Text) (length : Nat) :
    encodeUtf8 ("--- file ".toList ++ path ++ ' ' :: Nat.toDigits 10 length ++ " ---\n".toList) =
      encodeUtf8 (headerLine path length) ++ [10] := by
  have hclosing : " ---\n".toList = headerClosing ++ ['\n'] := by decide
  have hnewline : encodeUtf8 ['\n'] = [10] := by decide
  have hopening : "--- file ".toList = headerOpening := rfl
  rw [hclosing, hopening, ← hnewline, ← encodeUtf8_append, headerLine]
  simp

variable {rendered : RenderedPackage} {project : ProjectDir} {parse : ManifestParser}

theorem renderFile_ok {next : RenderedPackage} {file : ProjectFile}
    (h : renderFile rendered file = .ok next) :
    normalizeArchivePath file.path = .ok (archivePath file.path) ∧
      next.archive = rendered.archive ++ encodeEntry file.toEntry ∧
      next.archive.length ≤ maxArchiveBytes := by
  obtain ⟨relative, hrelative, h⟩ := bind_eq_ok.1 h
  obtain ⟨content, hcontent, h⟩ := bind_eq_ok.1 h
  obtain ⟨hsize, h⟩ := check_bind_eq_ok.1 h
  obtain ⟨-, hread⟩ := check_bind_eq_ok.1 hcontent
  have hpath := (normalizeArchivePath_ok hrelative).1
  have hsame := pure_eq_ok.1 hread
  have hnext := pure_eq_ok.1 h
  subst hpath hsame
  have hending : (if endsWithNewline file.content then ([] : Bytes) else [10]) =
      separator file.content := rfl
  rw [reject_eq_ok, encodeUtf8_recordHeader, hending] at hsize
  rw [encodeUtf8_recordHeader, hending] at hnext
  have harchive : next.archive = rendered.archive ++ encodeEntry file.toEntry := by
    rw [← hnext]
    simp [encodeEntry, toEntry]
  refine ⟨hrelative, harchive, ?_⟩
  rw [harchive]
  simp only [encodeEntry, toEntry, length_append, length_cons] at hsize ⊢
  omega

variable {files : List ProjectFile}

/-- The loop of the writer appends the records of the files. -/
theorem foldlM_renderFile_ok :
    ∀ {rendered final : RenderedPackage}, files.foldlM renderFile rendered = .ok final →
      (∀ file ∈ files, normalizeArchivePath file.path = .ok (archivePath file.path)) ∧
      final.archive = rendered.archive ++ (files.map toEntry).flatMap encodeEntry ∧
      (rendered.archive.length ≤ maxArchiveBytes → final.archive.length ≤ maxArchiveBytes) := by
  induction files with
  | nil =>
    intro rendered final h
    have := pure_eq_ok.1 h
    subst this
    simp
  | cons file files ih =>
    intro rendered final h
    obtain ⟨next, hfile, hrest⟩ := bind_eq_ok.1 h
    obtain ⟨hpath, harchive, hsize⟩ := renderFile_ok hfile
    obtain ⟨hpaths, hfinal, hlimit⟩ := ih hrest
    refine ⟨?_, ?_, fun _ => hlimit hsize⟩
    · intro f hf
      rcases mem_cons.1 hf with rfl | hmem
      · exact hpath
      · exact hpaths f hmem
    · rw [hfinal, harchive, map_cons, flatMap_cons, append_assoc]

/-- **The writer.**  The archive is the encoding of the files, in the order of their path
components, and its size is within the limit. -/
theorem renderPackageArchive_ok (h : renderPackageArchive parse project = .ok rendered) :
    ∃ files, publishableFiles parse project = .ok files ∧
      (∀ file ∈ files, normalizeArchivePath file.path = .ok (archivePath file.path)) ∧
      rendered.archive = encodeArchive
        ((sortBy (compareOn ProjectFile.path) files).map ProjectFile.toEntry) ∧
      rendered.archive.length ≤ maxArchiveBytes := by
  obtain ⟨files, hfiles, h⟩ := bind_eq_ok.1 h
  obtain ⟨hpaths, harchive, hsize⟩ := foldlM_renderFile_ok h
  refine ⟨files, hfiles, ?_, harchive, hsize (by decide)⟩
  intro file hfile
  exact hpaths file (mem_sortBy.2 hfile)

/-! ### The files of a directory tree -/

theorem not_prefix_of_ne {dir : RelativePath} {name name' : OsName} {more more' : RelativePath}
    (h : name ≠ name') : ¬(dir ++ name :: more) <+: (dir ++ name' :: more') := by
  rw [prefix_append_right_inj, cons_prefix_cons]
  exact fun hsame => h hsame.1

/-- No file that the walk collects lies below another one. -/
theorem collectPublishableFiles_apart {roots : List RelativePath} {entries : DirEntries} :
    ∀ {dir : RelativePath} {files : List ProjectFile}, entries.Distinct →
      collectPublishableFiles roots dir entries = .ok files →
      (∀ file ∈ files, ∃ name ∈ entries.names, ∃ more, file.path = dir ++ name :: more) ∧
      files.Pairwise fun f g => ¬f.path <+: g.path ∧ ¬g.path <+: f.path := by
  induction entries with
  | nil =>
    intro dir files _ h
    obtain rfl := pure_eq_ok.1 h
    simp
  | symlink name rest ih =>
    intro dir files _ h
    cases h
  | other name rest ih =>
    intro dir files hdistinct h
    obtain ⟨hbelow, hapart⟩ := ih hdistinct.2 h
    exact ⟨fun file hfile => exists_mem_cons_of_exists (hbelow file hfile), hapart⟩
  | file name content rest ih =>
    intro dir files hdistinct h
    obtain ⟨others, hothers, h⟩ := bind_eq_ok.1 h
    obtain ⟨hbelow, hapart⟩ := ih hdistinct.2 hothers
    have hnames : ∀ file ∈ others, ∃ n ∈ name :: rest.names, ∃ more, file.path = dir ++ n :: more :=
      fun file hfile => exists_mem_cons_of_exists (hbelow file hfile)
    split_ifs at h with hpublish
    · obtain rfl := pure_eq_ok.1 h
      refine ⟨?_, ?_⟩
      · intro file hfile
        rcases mem_cons.1 hfile with rfl | hmem
        · exact ⟨name, mem_cons_self, [], rfl⟩
        · exact hnames file hmem
      · refine pairwise_cons.2 ⟨?_, hapart⟩
        intro g hg
        obtain ⟨n, hn, more, hpath⟩ := hbelow g hg
        have hne : name ≠ n := fun heq => hdistinct.1 (heq ▸ hn)
        rw [hpath]
        exact ⟨not_prefix_of_ne hne, not_prefix_of_ne hne.symm⟩
    · obtain rfl := pure_eq_ok.1 h
      exact ⟨hnames, hapart⟩
  | directory name entries rest ihEntries ihRest =>
    intro dir files hdistinct h
    obtain ⟨hname, hentries, hrest⟩ := hdistinct
    unfold collectPublishableFiles at h
    split_ifs at h with hskip
    · obtain ⟨hbelow, hapart⟩ := ihRest hrest h
      exact ⟨fun file hfile => exists_mem_cons_of_exists (hbelow file hfile), hapart⟩
    · obtain ⟨inner, hinner, h⟩ := bind_eq_ok.1 h
      obtain ⟨others, hothers, h⟩ := bind_eq_ok.1 h
      obtain rfl := pure_eq_ok.1 h
      obtain ⟨hbelowInner, hapartInner⟩ := ihEntries hentries hinner
      obtain ⟨hbelow, hapart⟩ := ihRest hrest hothers
      -- A file inside the directory has its name as the next component, one beside it another.
      have hinside : ∀ file ∈ inner, ∃ more, file.path = dir ++ name :: more := by
        intro file hfile
        obtain ⟨n, -, more, hpath⟩ := hbelowInner file hfile
        exact ⟨n :: more, by rw [hpath]; simp⟩
      refine ⟨?_, pairwise_append.2 ⟨hapartInner, hapart, ?_⟩⟩
      · intro file hfile
        rcases mem_append.1 hfile with hmem | hmem
        · obtain ⟨more, hpath⟩ := hinside file hmem
          exact ⟨name, mem_cons_self, more, hpath⟩
        · exact exists_mem_cons_of_exists (hbelow file hmem)
      · intro f hf g hg
        obtain ⟨more, hfpath⟩ := hinside f hf
        obtain ⟨n, hn, more', hgpath⟩ := hbelow g hg
        have hne : name ≠ n := fun heq => hname (heq ▸ hn)
        rw [hfpath, hgpath]
        exact ⟨not_prefix_of_ne hne, not_prefix_of_ne hne.symm⟩

theorem publishableFiles_apart (h : publishableFiles parse project = .ok files) :
    files.Pairwise fun f g => ¬f.path <+: g.path ∧ ¬g.path <+: f.path := by
  obtain ⟨registry, -, h⟩ := bind_eq_ok.1 h
  obtain ⟨roots, -, h⟩ := bind_eq_ok.1 h
  exact (collectPublishableFiles_apart project.distinct h).2

/-! ### Readable projects -/

/-- The files whose archive the reader takes with the default limits. -/
structure Readable (ext : Externals) (files : List ProjectFile) : Prop where
  /-- Comparing paths by components or as strings gives the same order. -/
  order : ∀ f ∈ files, ∀ g ∈ files, compare f.path g.path = .lt →
    byteOrder (archivePath f.path) (archivePath g.path) = .lt
  no_colon : ∀ f ∈ files, ':' ∉ archivePath f.path
  normalized : ∀ f ∈ files, ext.nfc (archivePath f.path) = archivePath f.path
  pathBytes : ∀ f ∈ files, (encodeUtf8 (archivePath f.path)).length ≤ 1024
  depth : ∀ f ∈ files, f.path.length ≤ 64
  fileBytes : ∀ f ∈ files, f.content.length ≤ 16 * 1024 * 1024
  fileCount : files.length ≤ 4096
  directoryCount : (directoriesOf (files.map toEntry)).card ≤ 4096

/-- The files in the order of the archive. -/
def sortedFiles (files : List ProjectFile) : List ProjectFile :=
  sortBy (compareOn ProjectFile.path) files

/-- The components of a path that the writer takes. -/
theorem splitOn_archivePath (h : normalizeArchivePath path = .ok (archivePath path)) :
    path = ((archivePath path).splitOn '/').map encodeUtf8 ∧
      ∀ component ∈ (archivePath path).splitOn '/', SafeSegment component := by
  obtain ⟨-, components, hpath, hnonempty, hsafe, hjoin⟩ := normalizeArchivePath_ok h
  have hsplit : (archivePath path).splitOn '/' = components := by
    rw [hjoin]
    exact splitOn_intercalate '/' (fun c hc => (hsafe c hc).no_slash) hnonempty
  rw [hsplit]
  exact ⟨hpath, hsafe⟩

/-- A directory of a path, as texts, is an initial part of it, as components. -/
theorem prefix_of_isParent {path' : RelativePath}
    (h : normalizeArchivePath path = .ok (archivePath path))
    (h' : normalizeArchivePath path' = .ok (archivePath path'))
    (hparent : IsParent (archivePath path) (archivePath path')) : path <+: path' := by
  obtain ⟨rest, hrest⟩ := hparent
  rw [(splitOn_archivePath h).1, (splitOn_archivePath h').1, ← hrest, append_assoc,
    singleton_append, splitOn_append_cons_self, map_append]
  exact prefix_append _ _

section

variable {ext : Externals} {files : List ProjectFile}

theorem mem_sortedFiles {file : ProjectFile} : file ∈ sortedFiles files ↔ file ∈ files :=
  mem_sortBy

theorem sortedFiles_perm (files : List ProjectFile) : (sortedFiles files).Perm files :=
  sortBy_perm _ files

/-- Files of which none lies below another are sorted strictly. -/
theorem sortedFiles_increasing
    (hapart : files.Pairwise fun f g => ¬f.path <+: g.path ∧ ¬g.path <+: f.path) :
    (sortedFiles files).Pairwise fun f g => compare f.path g.path = .lt := by
  have hsorted := sortBy_sorted (compareOn path) files
  have hapart' := hapart.perm (sortedFiles_perm files).symm fun h => ⟨h.2, h.1⟩
  refine (hsorted.and hapart').imp ?_
  intro f g h
  obtain ⟨hle, hnot, -⟩ := h
  have hle : (compare f.path g.path).isLE = true := hle
  cases hcompare : compare f.path g.path with
  | lt => rfl
  | eq =>
    rw [LawfulEqOrd.eq_of_compare hcompare] at hnot
    exact absurd (prefix_refl _) hnot
  | gt =>
    rw [hcompare] at hle
    cases hle

theorem directoriesOf_sortedFiles (files : List ProjectFile) :
    directoriesOf ((sortedFiles files).map toEntry) = directoriesOf (files.map toEntry) := by
  exact toFinset_eq_of_perm _ _ (((sortedFiles_perm files).map _).flatMap_right _)

theorem contentBytes_le (entries : List ArchiveEntry) :
    contentBytes entries ≤ (encodeArchive entries).length := by
  have hrecords : contentBytes entries ≤ (entries.flatMap encodeEntry).length := by
    induction entries with
    | nil => simp [contentBytes]
    | cons entry entries ih =>
      have hentry : entry.bytes.length ≤ (encodeEntry entry).length := by
        simp only [encodeEntry, length_append, length_cons]
        omega
      simp only [contentBytes, map_cons, sum_cons, flatMap_cons, length_append] at ih ⊢
      omega
  rw [encodeArchive, length_append]
  omega

section

variable (hpaths : ∀ f ∈ files, normalizeArchivePath f.path = .ok (archivePath f.path))
include hpaths

/-- The archive of a readable project is canonical. -/
theorem Readable.canonical (h : Readable ext files)
    (hapart : files.Pairwise fun f g => ¬f.path <+: g.path ∧ ¬g.path <+: f.path)
    (hsize : (encodeArchive ((sortedFiles files).map toEntry)).length ≤ maxArchiveBytes) :
    Canonical ext .default ((sortedFiles files).map toEntry) where
  valid entry hentry := by
    obtain ⟨f, hf, rfl⟩ := mem_map.1 hentry
    rw [mem_sortedFiles] at hf
    obtain ⟨hsplit, hsafe⟩ := splitOn_archivePath (hpaths f hf)
    refine ⟨?_, ?_, h.normalized f hf, h.pathBytes f hf, ?_⟩
    · intro component hcomponent
      have hsegment := hsafe component hcomponent
      refine ⟨hsegment.nonempty, hsegment.not_dot, hsegment.not_dots, ?_, hsegment.no_control⟩
      exact fun hcolon => h.no_colon f hf (mem_of_mem_part hcomponent hcolon)
    · intro hbackslash
      obtain ⟨component, hcomponent, hmem⟩ := mem_part_of_mem hbackslash (by decide : '\\' ≠ '/')
      exact (hsafe component hcomponent).no_backslash hmem
    · have hdepth := h.depth f hf
      rw [hsplit, length_map] at hdepth
      exact hdepth
  increasing := by
    rw [pairwise_map]
    refine (sortedFiles_increasing hapart).imp_of_mem ?_
    intro f g hf hg hlt
    exact h.order f (mem_sortedFiles.1 hf) g (mem_sortedFiles.1 hg) hlt
  apart a ha b hb hparent := by
    obtain ⟨f, hf, rfl⟩ := mem_map.1 ha
    obtain ⟨g, hg, rfl⟩ := mem_map.1 hb
    rw [mem_sortedFiles] at hf hg
    have hbelow := prefix_of_isParent (hpaths f hf) (hpaths g hg) hparent
    rcases pairwise_cases hapart hf hg with rfl | hfg | hgf
    · exact ne_of_byteOrder_lt hparent.lt rfl
    · exact hfg.1 hbelow
    · exact hgf.2 hbelow
  fileBytes entry hentry := by
    obtain ⟨f, hf, rfl⟩ := mem_map.1 hentry
    exact h.fileBytes f (mem_sortedFiles.1 hf)
  totalBytes := (contentBytes_le _).trans hsize
  archiveBytes := hsize
  fileCount := by
    rw [length_map, (sortedFiles_perm files).length_eq]
    exact h.fileCount
  directoryCount := by
    rw [directoriesOf_sortedFiles]
    exact h.directoryCount
  treeCount := by
    have hfiles := h.fileCount
    have hdirectories := h.directoryCount
    rw [directoriesOf_sortedFiles, length_map, (sortedFiles_perm files).length_eq]
    show files.length + _ ≤ 8192
    omega

/-- A project whose archive is canonical is readable. -/
theorem readable_of_canonical (h : Canonical ext .default ((sortedFiles files).map toEntry))
    (hapart : files.Pairwise fun f g => ¬f.path <+: g.path ∧ ¬g.path <+: f.path) :
    Readable ext files := by
  have hentry : ∀ f ∈ files, f.toEntry ∈ (sortedFiles files).map toEntry :=
    fun f hf => mem_map_of_mem (mem_sortedFiles.2 hf)
  have hvalid : ∀ f ∈ files, ValidPath ext .default (archivePath f.path) :=
    fun f hf => h.valid _ (hentry f hf)
  refine ⟨?_, ?_, fun f hf => (hvalid f hf).normalized, fun f hf => (hvalid f hf).bytes, ?_,
    fun f hf => h.fileBytes _ (hentry f hf), ?_, ?_⟩
  · intro f hf g hg hlt
    have hboth := (sortedFiles_increasing hapart).and (pairwise_map.1 h.increasing)
    rcases pairwise_cases hboth (mem_sortedFiles.2 hf) (mem_sortedFiles.2 hg) with rfl | hfg | hgf
    · have hself : compare f.path f.path = .eq := ReflOrd.compare_self
      rw [hself] at hlt
      cases hlt
    · exact hfg.2
    · have hgt := OrientedOrd.eq_swap (a := f.path) (b := g.path)
      rw [hlt, hgf.1] at hgt
      cases hgt
  · intro f hf hcolon
    obtain ⟨component, hcomponent, hmem⟩ := mem_part_of_mem hcolon (by decide : ':' ≠ '/')
    exact ((hvalid f hf).components component hcomponent).no_colon hmem
  · intro f hf
    have hdepth := (hvalid f hf).depth
    rw [(splitOn_archivePath (hpaths f hf)).1, length_map]
    exact hdepth
  · have hcount := h.fileCount
    rw [length_map, (sortedFiles_perm files).length_eq] at hcount
    exact hcount
  · have hcount := h.directoryCount
    rw [directoriesOf_sortedFiles] at hcount
    exact hcount

/-- What the reader accepts of the writer's output is canonical and holds the published files. -/
theorem entries_of_parseArchive {parsed : ParsedArchive} {expectedSha256 : Text}
    {limits : ArchiveLimits} (h : parseArchive ext (encodeArchive ((sortedFiles files).map toEntry))
      expectedSha256 limits = .ok parsed) :
    parsed.entries = (sortedFiles files).map toEntry ∧
      Canonical ext limits ((sortedFiles files).map toEntry) := by
  obtain ⟨hcanonical, hencode, -, -⟩ := encodeArchive_parseArchive h
  have hentries : parsed.entries = (sortedFiles files).map toEntry := by
    apply encodeArchive_injective _ _ hencode
    · exact fun e he => (hcanonical.valid e he).no_newline
    · intro e he hnewline
      obtain ⟨f, hf, rfl⟩ := mem_map.1 he
      obtain ⟨component, hcomponent, hmem⟩ := mem_part_of_mem hnewline (by decide : '\n' ≠ '/')
      have hsafe := (splitOn_archivePath (hpaths f (mem_sortedFiles.1 hf))).2 component hcomponent
      exact absurd (hsafe.no_control _ hmem) (by decide)
  rw [← hentries]
  exact ⟨rfl, hcanonical⟩

end

end

/-- The reader, with its default limits, gives back exactly the published files. -/
def ReadsBack (ext : Externals) (files : List ProjectFile) (archive : Bytes) : Prop :=
  ∃ parsed, parseArchive ext archive (sha256Hex ext archive) .default = .ok parsed ∧
    parsed.entries.Perm (files.map toEntry)

/-- **Publish/consume agreement.**  For every project whose archive the writer renders, the reader
returns exactly the published files if and only if the project is readable. -/
theorem parseArchive_renderPackageArchive (ext : Externals) (parse : ManifestParser)
    (project : ProjectDir) (files : List ProjectFile) (rendered : RenderedPackage)
    (hfiles : publishableFiles parse project = .ok files)
    (hrender : renderPackageArchive parse project = .ok rendered) :
    ReadsBack ext files rendered.archive ↔ Readable ext files := by
  obtain ⟨files', hfiles', hpaths, harchive, hsize⟩ := renderPackageArchive_ok hrender
  rw [hfiles, Except.ok.injEq] at hfiles'
  subst hfiles'
  have hapart := publishableFiles_apart hfiles
  rw [harchive] at hsize ⊢
  constructor
  · intro h
    obtain ⟨parsed, hparsed, -⟩ := h
    exact readable_of_canonical hpaths (entries_of_parseArchive hpaths hparsed).2 hapart
  · intro h
    exact ⟨_, parseArchive_encodeArchive (h.canonical hpaths hapart hsize),
      (sortedFiles_perm files).map _⟩

/-- A manifest without a registry section. -/
def plainManifest : Text := "[package]\nname = \"plain\"\nversion = \"0.1.0\"\n".toList

/-- The parser on `plainManifest`. -/
def plainParser : ManifestParser := fun content =>
  if content = encodeUtf8 plainManifest then .ok none
  else .error ⟨some [encodeUtf8 manifestFilename], "missing [package] section"⟩

/-- A manifest and a module. -/
def plainProject : ProjectDir where
  entries :=
    .file (encodeUtf8 "axiom.toml".toList) (encodeUtf8 plainManifest)
      (.file (encodeUtf8 "foo.ax".toList) [10] .nil)
  distinct := by decide +kernel

/-- The files of `plainProject`. -/
def plainFiles : List ProjectFile :=
  [⟨[encodeUtf8 "axiom.toml".toList], encodeUtf8 plainManifest⟩, ⟨[encodeUtf8 "foo.ax".toList], [10]⟩]

/-- The crates on the archive of `plainProject`. -/
def plainExternals : Externals where
  nfc := id
  sha256 _ := #v[76, 85, 155, 33, 60, 216, 55, 140, 76, 167, 213, 123, 46, 223, 37, 241,
    125, 4, 177, 84, 175, 83, 13, 91, 222, 123, 27, 162, 140, 163, 193, 184]
  debug := String.ofList

theorem plainFiles_readable : Readable plainExternals plainFiles where
  order := by decide +kernel
  no_colon := by decide +kernel
  normalized := by decide +kernel
  pathBytes := by decide +kernel
  depth := by decide +kernel
  fileBytes := by decide +kernel
  fileCount := by decide +kernel
  directoryCount := by decide +kernel

theorem plainProject_agrees : ∃ rendered, renderPackageArchive plainParser plainProject = .ok rendered ∧
    ReadsBack plainExternals plainFiles rendered.archive := by
  obtain ⟨rendered, hrender⟩ :=
    exists_ok (by decide +kernel : (renderPackageArchive plainParser plainProject).isOk = true)
  exact ⟨rendered, hrender, (parseArchive_renderPackageArchive plainExternals plainParser plainProject
    plainFiles rendered (by decide +kernel) hrender).2 plainFiles_readable⟩

/-- A manifest, a module and, beside it, a directory of the module's name with a module in it. -/
def siblingProject : ProjectDir where
  entries :=
    .file (encodeUtf8 "axiom.toml".toList) (encodeUtf8 plainManifest)
      (.file (encodeUtf8 "foo.ax".toList) [10] (.directory (encodeUtf8 "foo".toList)
        (.file (encodeUtf8 "x.ax".toList) [10] .nil) .nil))
  distinct := by decide +kernel

/-- What the writer makes of `siblingProject`: `foo/x.ax` before `foo.ax`. -/
def siblingArchive : Bytes :=
  encodeUtf8 ("AXIOM_PACKAGE_ARCHIVE_V1\n--- file axiom.toml 43 ---\n".toList ++ plainManifest
    ++ "--- file foo/x.ax 1 ---\n\n--- file foo.ax 1 ---\n\n".toList)

/-- The crates on the archive of `siblingProject`. -/
def siblingExternals : Externals where
  nfc := id
  sha256 _ := #v[101, 204, 198, 237, 190, 32, 167, 112, 99, 43, 105, 209, 10, 135, 242, 64,
    217, 178, 216, 228, 180, 240, 212, 11, 152, 162, 117, 142, 201, 144, 10, 210]
  debug := String.ofList

/-- The writer renders `siblingProject`, and the reader rejects what it rendered. -/
theorem siblingProject_disagrees : ∃ files rendered,
    publishableFiles plainParser siblingProject = .ok files ∧
    renderPackageArchive plainParser siblingProject = .ok rendered ∧ rendered.archive = siblingArchive ∧
    parseArchive siblingExternals siblingArchive (sha256Hex siblingExternals siblingArchive) .default =
      .error ⟨"archive_path_order_invalid", "archive paths must be strictly increasing"⟩ ∧
    ¬ReadsBack siblingExternals files rendered.archive := by
  obtain ⟨files, hfiles⟩ :=
    exists_ok (by decide +kernel : (publishableFiles plainParser siblingProject).isOk = true)
  obtain ⟨rendered, hrender⟩ :=
    exists_ok (by decide +kernel : (renderPackageArchive plainParser siblingProject).isOk = true)
  have hrendered : (renderPackageArchive plainParser siblingProject).toOption.map (·.archive) =
      some siblingArchive := by decide +kernel
  have harchive : rendered.archive = siblingArchive := by
    rw [hrender] at hrendered
    exact Option.some.inj hrendered
  have hparse : parseArchive siblingExternals siblingArchive
      (sha256Hex siblingExternals siblingArchive) .default =
        .error ⟨"archive_path_order_invalid", "archive paths must be strictly increasing"⟩ := by
    decide +kernel
  refine ⟨files, rendered, hfiles, hrender, harchive, hparse, ?_⟩
  intro hagrees
  obtain ⟨parsed, hparsed, -⟩ := hagrees
  rw [harchive, hparse] at hparsed
  cases hparsed

end Axiomc.Package
