import Axiomc.Package.Archive

/-!
# The canonical archive encoding

What an archive is, stated apart from the reader, and what the parts of the reader do on it.

* `encodeArchive` writes a list of entries: the magic line and one record for each entry;
* `ValidPath` says which paths an archive may hold, and `validateArchivePath_eq_ok_iff` that the
  reader takes exactly these;
* `mem_parentDirectories_iff`: the directories of a path are the texts it extends by a slash;
* `readHeader_eq_ok_iff`, `readContent_eq_ok_iff`: the reader reads exactly one header line and one
  content with its separator.
-/

namespace Axiomc.Package

open Std List Nat
open Axiomc.Foundation

/-! ### Encoding -/

/-- The header line of a file. -/
def headerLine (path : Text) (length : Nat) : Text :=
  headerOpening ++ (path ++ ' ' :: toDigits 10 length) ++ headerClosing

/-- The line feed after a content that does not end in one. -/
def separator (content : Bytes) : Bytes := if endsWithNewline content then [] else [10]

/-- The record of an entry. -/
def encodeEntry (entry : ArchiveEntry) : Bytes :=
  encodeUtf8 (headerLine entry.path entry.bytes.length)
    ++ 10 :: (entry.bytes ++ separator entry.bytes)

/-- The archive of a list of entries. -/
def encodeArchive (entries : List ArchiveEntry) : Bytes :=
  archiveMagic ++ entries.flatMap encodeEntry

/-! ### Valid paths -/

/-- A component that names a file or directory on every platform. -/
structure SafeComponent (component : Text) : Prop where
  nonempty : component ≠ []
  not_dot : component ≠ ['.']
  not_dots : component ≠ ['.', '.']
  no_colon : ':' ∉ component
  no_control : ∀ c ∈ component, isControl c = false

/-- The paths an archive may hold. -/
structure ValidPath (ext : Externals) (limits : ArchiveLimits) (path : Text) : Prop where
  components : ∀ component ∈ path.splitOn '/', SafeComponent component
  no_backslash : '\\' ∉ path
  normalized : ext.nfc path = path
  bytes : (encodeUtf8 path).length ≤ limits.maxPathBytes.toNat
  depth : (path.splitOn '/').length ≤ limits.maxPathComponents.toNat

theorem unsafeComponent_eq_false_iff {component : Text} :
    unsafeComponent component = false ↔ SafeComponent component := by
  have hcolon : component.contains ':' = false ↔ ':' ∉ component := by
    rw [← Bool.not_eq_true, contains_iff_mem]
  unfold unsafeComponent
  simp only [Bool.or_eq_false_iff, isEmpty_eq_false_iff, beq_eq_false_iff_ne, hcolon,
    any_eq_false, Bool.not_eq_true]
  constructor
  · intro h
    obtain ⟨⟨⟨⟨h₁, h₂⟩, h₃⟩, h₄⟩, h₅⟩ := h
    exact ⟨h₁, h₂, h₃, h₄, h₅⟩
  · intro h
    exact ⟨⟨⟨⟨h.nonempty, h.not_dot⟩, h.not_dots⟩, h.no_colon⟩, h.no_control⟩

section

variable {ext : Externals} {limits : ArchiveLimits} {path : Text}

theorem ValidPath.no_control (h : ValidPath ext limits path) : ∀ c ∈ path, isControl c = false := by
  intro c hc
  by_cases hslash : c = '/'
  · rw [hslash]
    decide
  · obtain ⟨component, hcomponent, hmem⟩ := mem_part_of_mem hc hslash
    exact (h.components component hcomponent).no_control c hmem

theorem ValidPath.no_newline (h : ValidPath ext limits path) : '\n' ∉ path := fun hmem =>
  absurd (h.no_control _ hmem) (by decide)

/-- The checks on the ends of a path follow from the checks on its components. -/
theorem ValidPath.ends (h : ValidPath ext limits path) :
    path ≠ [] ∧ path.head? ≠ some '/' ∧ path.getLast? ≠ some '/' := by
  have hempty : [] ∉ path.splitOn '/' := fun hmem => (h.components [] hmem).nonempty rfl
  refine ⟨?_, ?_, ?_⟩
  · intro hnil
    rw [hnil] at hempty
    simp at hempty
  · intro hhead
    obtain ⟨rest, hrest⟩ := head?_eq_some_iff.1 hhead
    have hsplit := splitOn_append_cons_self (a := '/') [] rest
    rw [nil_append, ← hrest] at hsplit
    exact hempty (by rw [hsplit]; simp)
  · intro hlast
    obtain ⟨front, hfront⟩ := getLast?_eq_some_iff.1 hlast
    have hsplit := splitOn_append_cons_self (a := '/') front []
    rw [← hfront] at hsplit
    exact hempty (by rw [hsplit]; simp)

theorem validateArchivePath_eq_ok_iff {u : Unit} :
    validateArchivePath ext limits path = .ok u ↔ ValidPath ext limits path := by
  have hsafe : (¬(path.splitOn '/').any unsafeComponent = true) ↔
      ∀ component ∈ path.splitOn '/', SafeComponent component := by
    simp [unsafeComponent_eq_false_iff]
  simp only [validateArchivePath, check_bind_eq_ok, reject_eq_ok, hsafe, not_or,
    Nat.not_lt, not_not]
  constructor
  · intro h
    obtain ⟨⟨-, -, -, hbackslash, -⟩, hbytes, hnfc, hdepth, hcomponents⟩ := h
    exact ⟨hcomponents, hbackslash, hnfc, hbytes, hdepth⟩
  · intro h
    obtain ⟨hnil, hhead, hlast⟩ := h.ends
    have hnul : '\x00' ∉ path := fun hmem => absurd (h.no_control _ hmem) (by decide)
    exact ⟨⟨hnil, hhead, hlast, h.no_backslash, hnul⟩, h.bytes, h.normalized, h.depth, h.components⟩

/-! ### Directories -/

/-- `directory` is a directory on the way to `path`. -/
abbrev IsParent (directory path : Text) : Prop := (directory ++ ['/']) <+: path

theorem parentsFrom_eq (components : List Text) :
    ∀ done : List Text, intercalate ['/'] done ≠ [] →
      parentsFrom (intercalate ['/'] done) components = (range components.length).map fun i =>
          intercalate ['/'] (done ++ components.take (i + 1)) := by
  induction components with
  | nil => exact fun _ _ => rfl
  | cons component components ih =>
    intro done hdone
    have hne : done ≠ [] := fun h => hdone (by rw [h]; rfl)
    have hextended : intercalate ['/'] done ++ ['/'] ++ component =
        intercalate ['/'] (done ++ [component]) := by
      rw [intercalate_append _ hne (by simp), intercalate_singleton]
    have hempty : (intercalate ['/'] done).isEmpty = false := by simpa using hdone
    have hnext : intercalate ['/'] (done ++ [component]) ≠ [] := by
      rw [← hextended]
      simp
    show _ :: parentsFrom _ components = _
    simp only [hempty, Bool.false_eq_true, if_false]
    rw [hextended, ih _ hnext, length_cons, range_succ_eq_map, map_cons]
    simp

theorem parentDirectories_eq (h : ValidPath ext limits path) :
    parentDirectories path = (range ((path.splitOn '/').length - 1)).map fun i =>
      intercalate ['/'] ((path.splitOn '/').take (i + 1)) := by
  unfold parentDirectories
  cases hcomponents : (path.splitOn '/').take ((path.splitOn '/').length - 1) with
  | nil =>
    have hlength := congrArg length hcomponents
    simp only [length_take, length_nil] at hlength
    rw [show (path.splitOn '/').length - 1 = 0 by omega]
    rfl
  | cons first rest =>
    have hfirst : first ≠ [] := by
      have hmem : first ∈ (path.splitOn '/').take ((path.splitOn '/').length - 1) := by
        rw [hcomponents]
        exact mem_cons_self
      exact (h.components first (mem_of_mem_take hmem)).nonempty
    have hlength : rest.length + 1 = (path.splitOn '/').length - 1 := by
      have := congrArg length hcomponents
      simp only [length_take, length_cons] at this
      omega
    -- After the first component the accumulated directory is never empty again.
    have htail := parentsFrom_eq rest [first] (by simpa using hfirst)
    rw [intercalate_singleton] at htail
    show first :: parentsFrom first rest = _
    rw [htail, ← hlength, range_succ_eq_map, map_cons, map_map]
    congr 1
    · have hone : (path.splitOn '/').take (0 + 1) = [first] := by
        have := congrArg (take 1) hcomponents
        rw [take_take, min_eq_left (by omega)] at this
        simpa using this
      rw [hone, intercalate_singleton]
    · apply map_congr_left
      intro i hi
      have hi' := mem_range.1 hi
      have htake := congrArg (take (i + 2)) hcomponents
      rw [take_take, min_eq_left (by omega)] at htake
      simp only [Function.comp_def]
      rw [htake]
      rfl

/-- The directories of a valid path are the texts it extends by a slash. -/
theorem mem_parentDirectories_iff (h : ValidPath ext limits path) {directory : Text} :
    directory ∈ parentDirectories path ↔ IsParent directory path := by
  rw [parentDirectories_eq h, mem_map]
  constructor
  · intro hmem
    obtain ⟨i, hi, rfl⟩ := hmem
    have hi' := mem_range.1 hi
    have hsplit := take_append_drop (i + 1) (path.splitOn '/')
    have hjoin : intercalate ['/'] (path.splitOn '/') = path := intercalate_splitOn '/'
    rw [← hsplit, intercalate_append] at hjoin
    · exact ⟨_, hjoin⟩
    · intro hnil
      rcases take_eq_nil_iff.1 hnil with hzero | hnone
      · omega
      · exact splitOn_ne_nil _ _ hnone
    · intro hnil
      have := drop_eq_nil_iff.1 hnil
      omega
  · intro hparent
    obtain ⟨rest, hrest⟩ := hparent
    have hsplit : path.splitOn '/' = directory.splitOn '/' ++ rest.splitOn '/' := by
      rw [← hrest, append_assoc]
      exact splitOn_append_cons_self directory rest
    have hleft := length_pos_of_ne_nil (splitOn_ne_nil '/' directory)
    have hright := length_pos_of_ne_nil (splitOn_ne_nil '/' rest)
    refine ⟨(directory.splitOn '/').length - 1, ?_, ?_⟩
    · rw [mem_range, hsplit, length_append]
      omega
    · rw [hsplit, Nat.sub_add_cancel hleft, take_left, intercalate_splitOn]

/-! ### Header lines -/

theorem headerBody_eq_some_iff {header body : Text} :
    (headerOpening.isPrefixOf? header).bind (headerClosing.isSuffixOf? ·) = some body ↔
      header = headerOpening ++ body ++ headerClosing := by
  rw [Option.bind_eq_some_iff]
  constructor
  · intro h
    obtain ⟨rest, hopening, hclosing⟩ := h
    rw [← isPrefixOf?_eq_some_iff_append_eq.1 hopening,
      ← isSuffixOf?_eq_some_iff_append_eq.1 hclosing, append_assoc]
  · intro h
    refine ⟨body ++ headerClosing, ?_, ?_⟩
    · rw [isPrefixOf?_eq_some_iff_append_eq, h, append_assoc]
    · rw [isSuffixOf?_eq_some_iff_append_eq]

theorem space_notMem_toDigits (length : Nat) : ' ' ∉ toDigits 10 length := fun hmem =>
  absurd (isDigit_of_mem_toDigits (by omega) (by omega) hmem) (by decide)

theorem headerLine_no_newline (hpath : '\n' ∉ path) (length : Nat) :
    '\n' ∉ headerLine path length := by
  have hdigits : '\n' ∉ toDigits 10 length := fun hmem =>
    absurd (isDigit_of_mem_toDigits (by omega) (by omega) hmem) (by decide)
  have hopening : '\n' ∉ headerOpening := by decide
  have hclosing : '\n' ∉ headerClosing := by decide
  simp [headerLine, hpath, hdigits, hopening, hclosing]

/-- A header line is longer than its path by at most 34 bytes. -/
theorem encodeUtf8_headerLine_length_le {length : Nat} (hlength : length < 2 ^ 64) :
    (encodeUtf8 (headerLine path length)).length ≤ (encodeUtf8 path).length + 34 := by
  have hascii : ∀ c ∈ toDigits 10 length, c.toNat < 128 := by
    intro c hc
    have hdigit := isDigit_of_mem_toDigits (by omega) (by omega) hc
    simp only [Char.isDigit, Bool.and_eq_true, decide_eq_true_eq] at hdigit
    exact Nat.lt_of_le_of_lt hdigit.2 (by decide)
  have hdigits : (toDigits 10 length).length ≤ 20 :=
    (length_toDigits_le_iff (by omega) (by omega)).2 (by omega)
  have hopening : (encodeUtf8 headerOpening).length = 9 := by decide
  have hclosing : (encodeUtf8 headerClosing).length = 4 := by decide
  have hspace : (encodeUtf8 [' ']).length = 1 := by decide
  have hshape : headerLine path length =
      headerOpening ++ path ++ [' '] ++ toDigits 10 length ++ headerClosing := by
    simp [headerLine]
  rw [hshape]
  simp only [encodeUtf8_append, length_append, encodeUtf8_ascii hascii, length_map]
  omega

variable {bytes before tail : Bytes}

/-- **Reading a header.**  The reader takes exactly the header lines of valid paths. -/
theorem readHeader_eq_ok_iff (hbytes : bytes = before ++ tail) (hsize : bytes.length < 2 ^ 64)
    {header : FileHeader} : readHeader ext limits bytes before.length = .ok header ↔
      (∃ body, tail = encodeUtf8 (headerLine header.path header.length) ++ 10 :: body) ∧
        header.newline = (encodeUtf8 (headerLine header.path header.length)).length ∧
        ValidPath ext limits header.path ∧ header.length < 2 ^ 64 := by
  have hdrop : bytes.drop before.length = tail := by rw [hbytes, drop_left]
  simp only [readHeader, hdrop, require_bind_eq_ok, check_bind_eq_ok, reject_eq_ok,
    validateArchivePath_eq_ok_iff, pure_eq_ok, findIdx?_eq_some_iff_append, headerBody_eq_some_iff,
    decodeUtf8_eq_some_iff]
  constructor
  · intro h
    obtain ⟨newline, ⟨line, body, htail, hline, rfl⟩, -, text, htext, inner, rfl, split, hsplit,
      hvalid, hcanonical, hfits, rfl⟩ := h
    rw [htail, take_left] at htext
    obtain ⟨hinner, -⟩ := rsplitOnce_eq_some_iff.1 hsplit
    have hdecimal : CanonicalDecimal split.2 := by
      simp only [not_or, not_not] at hcanonical
      exact hcanonical
    have hheader : headerLine split.1 (ofDigitChars 10 split.2 0) =
        headerOpening ++ inner ++ headerClosing := by
      rw [headerLine, hdecimal.toDigits_ofDigitChars, hinner]
    refine ⟨⟨body, ?_⟩, ?_, hvalid, by simpa using hfits⟩
    · show tail = encodeUtf8 (headerLine split.1 (ofDigitChars 10 split.2 0)) ++ 10 :: body
      rw [hheader, htext, htail]
    · show line.length = (encodeUtf8 (headerLine split.1 (ofDigitChars 10 split.2 0))).length
      rw [hheader, htext]
  · intro h
    obtain ⟨newline, path, length⟩ := header
    simp only at h
    obtain ⟨⟨body, htail⟩, hnewline, hvalid, hfits⟩ := h
    have hdecimal := canonicalDecimal_toDigits length
    have hbound : newline ≤ saturatingAdd limits.maxPathBytes.toNat 64 := by
      have hline : (encodeUtf8 (headerLine path length)).length ≤ (encodeUtf8 path).length + 34 :=
        encodeUtf8_headerLine_length_le hfits
      have hpath := hvalid.bytes
      have hlength := congrArg List.length hbytes
      simp only [htail, length_append] at hlength
      simp only [saturatingAdd] at hnewline hline hpath hlength ⊢
      omega
    refine ⟨newline, ⟨_, body, htail, ?_, hnewline.symm⟩, by omega, headerLine path length, ?_,
      path ++ ' ' :: toDigits 10 length, rfl, (path, toDigits 10 length), ?_, hvalid,
      ?_, ?_, ?_⟩
    · exact newline_notMem_encodeUtf8 (headerLine_no_newline hvalid.no_newline length)
    · rw [htail, hnewline, take_left]
    · exact rsplitOnce_eq_some_iff.2 ⟨rfl, space_notMem_toDigits length⟩
    · simp only [not_or, not_not]
      exact hdecimal
    · rw [ofDigitChars_ten_toDigits]
      omega
    · rw [ofDigitChars_ten_toDigits]

/-! ### Contents -/

/-- **Reading a content.**  After the header line come the content, of the announced length, and
its separator. -/
theorem readContent_eq_ok_iff {line body : Bytes} {header : FileHeader}
    (hbytes : bytes = before ++ (line ++ 10 :: body)) (hline : header.newline = line.length)
    (hsize : bytes.length < 2 ^ 64) {content : Bytes} {next : Nat} :
    readContent ext bytes before.length header = .ok (content, next) ↔
      content.length = header.length ∧ (∃ rest, body = content ++ (separator content ++ rest)) ∧
        next = before.length + line.length + 1 + content.length + (separator content).length := by
  have hstart : before.length + (header.newline + 1) = (before ++ (line ++ [10])).length := by
    simp [hline]
  have hbytes' : bytes = before ++ (line ++ [10]) ++ body := by simp [hbytes]
  have hlength : bytes.length = (before ++ (line ++ [10])).length + body.length := by
    rw [hbytes', length_append]
  have hdrop : bytes.drop (before ++ (line ++ [10])).length = body := by
    rw [hbytes', drop_left]
  have hget : ∀ i, bytes[(before ++ (line ++ [10])).length + i]? = body[i]? := by
    intro i
    rw [hbytes', getElem?_append_right (Nat.le_add_right _ _), Nat.add_sub_cancel_left]
  simp only [readContent, require_bind_eq_ok, checkedAdd_eq_some, hstart]
  constructor
  · intro h
    obtain ⟨start, ⟨-, rfl⟩, stop, ⟨-, rfl⟩, h⟩ := h
    obtain ⟨hstop, h⟩ := check_bind_eq_ok.1 h
    have hfits : header.length ≤ body.length := by
      have := reject_eq_ok.1 hstop
      omega
    have htake : (body.take header.length).length = header.length := by
      rw [length_take]
      omega
    have hsplit := take_append_drop header.length body
    rw [hdrop] at h
    split_ifs at h with hlast
    · obtain ⟨rfl, rfl⟩ := Prod.mk.inj (pure_eq_ok.1 h)
      refine ⟨htake, ⟨body.drop header.length, ?_⟩, ?_⟩
      · simp [separator, hlast]
      · simp only [separator, hlast, if_true, length_nil, length_append, length_singleton]
        omega
    · obtain ⟨hseparator, h⟩ := check_bind_eq_ok.1 h
      obtain ⟨rfl, rfl⟩ := Prod.mk.inj (pure_eq_ok.1 h)
      rw [reject_eq_ok, not_not, hget] at hseparator
      obtain ⟨hlt, hbyte⟩ := List.getElem?_eq_some_iff.1 hseparator
      have hrest := drop_eq_getElem_cons hlt
      rw [hbyte] at hrest
      refine ⟨htake, ⟨body.drop (header.length + 1), ?_⟩, ?_⟩
      · simp [separator, hlast, ← hrest]
      · simp only [separator, hlast, Bool.false_eq_true, if_false, length_singleton]
        omega
  · intro h
    obtain ⟨hcontent, ⟨rest, hbody⟩, rfl⟩ := h
    have htake : body.take header.length = content := by rw [hbody, ← hcontent, take_left]
    have hfits : header.length + (separator content).length ≤ body.length := by
      rw [hbody]
      simp only [length_append]
      omega
    refine ⟨_, ⟨by omega, rfl⟩, _, ⟨by omega, rfl⟩, check_bind_eq_ok.2 ⟨?_, ?_⟩⟩
    · rw [reject_eq_ok]
      omega
    · rw [hdrop, htake]
      by_cases hlast : endsWithNewline content = true
      · rw [if_pos hlast, pure_eq_ok]
        simp only [separator, hlast, if_true, length_append, length_singleton,
          length_nil, Prod.mk.injEq, true_and]
        omega
      · have hnext : body[header.length]? = some 10 := by
          rw [hbody, ← hcontent, getElem?_append_right (Nat.le_refl _)]
          simp [separator, hlast]
        rw [if_neg hlast, check_bind_eq_ok, reject_eq_ok, not_not, hget, pure_eq_ok]
        refine ⟨hnext, ?_⟩
        simp only [separator, hlast, Bool.false_eq_true, if_false, length_singleton,
          Prod.mk.injEq, true_and]
        omega

end

end Axiomc.Package
