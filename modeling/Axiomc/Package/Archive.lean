import Axiomc.Foundation.Checks
import Axiomc.Foundation.Text
import Mathlib.Data.Finset.Card

/-!
# The package archive reader

The embedding of the parser of `package_archive.rs`.  An archive is a magic line followed by
records; each record is a header line `--- file <path> <length> ---`, the content, and a line feed
when the content does not end in one.  `parseArchive` follows `parse_archive` check by check:

* `readHeader` is the part of the loop body that reads one header line, up to the byte length;
* `admitFile` is the part that charges the file to the limits and to the tree built so far;
* `readContent` is the part that cuts the content out of the archive;
* `parseEntry` is one turn of the `while` loop and `parseEntries` the loop.

`nfc`, `sha256` and the `:?` rendering of a string come from outside the repository and are
parameters.  Sizes are `usize` on a 64-bit target: the limits are `UInt64`, and every checked or
saturating addition of the source is written out.
-/

namespace Axiomc.Package

open Std
open Axiomc.Foundation

/-! ### What the reader takes from elsewhere -/

/-- The functions of other crates that the archive code calls. -/
structure Externals where
  /-- Unicode normalization form C. -/
  nfc : Text → Text
  /-- The SHA-256 digest. -/
  sha256 : Bytes → Vector UInt8 32
  /-- The `:?` rendering of a string. -/
  debug : Text → String

/-- `usize::checked_add`. -/
def checkedAdd (a b : Nat) : Option Nat := if a + b < 2 ^ 64 then some (a + b) else none

/-- `usize::saturating_add`. -/
def saturatingAdd (a b : Nat) : Nat := min (a + b) (2 ^ 64 - 1)

@[simp] theorem checkedAdd_eq_some {a b c : Nat} :
    checkedAdd a b = some c ↔ a + b < 2 ^ 64 ∧ a + b = c := by
  unfold checkedAdd
  by_cases h : a + b < 2 ^ 64
  · rw [if_pos h, Option.some_inj, and_iff_right h]
  · rw [if_neg h]
    exact ⟨nofun, fun hsum => absurd hsum.1 h⟩

/-- `char::is_control`: the general category `Cc`. -/
def isControl (c : Char) : Bool := c.toNat < 0x20 || (0x7f ≤ c.toNat && c.toNat < 0xa0)

/-! ### Data -/

/-- `ArchiveLimits`. -/
structure ArchiveLimits where
  maxArchiveBytes : UInt64
  maxFileBytes : UInt64
  maxFiles : UInt64
  maxDirectories : UInt64
  maxTreeEntries : UInt64
  maxPathBytes : UInt64
  maxPathComponents : UInt64
  deriving DecidableEq, Repr

/-- `impl Default for ArchiveLimits`. -/
def ArchiveLimits.default : ArchiveLimits where
  maxArchiveBytes := 64 * 1024 * 1024
  maxFileBytes := 16 * 1024 * 1024
  maxFiles := 4096
  maxDirectories := 4096
  maxTreeEntries := 8192
  maxPathBytes := 1024
  maxPathComponents := 64

/-- `ArchiveError`. -/
structure ArchiveError where
  code : String
  message : String
  deriving DecidableEq, Repr

/-- `ArchiveEntry`. -/
structure ArchiveEntry where
  path : Text
  bytes : Bytes
  deriving DecidableEq, Repr

/-- `ParsedArchive`. -/
structure ParsedArchive where
  archiveSha256 : Text
  entries : List ArchiveEntry
  deriving DecidableEq, Repr

/-- `ARCHIVE_MAGIC`. -/
def archiveMagic : Bytes := encodeUtf8 "AXIOM_PACKAGE_ARCHIVE_V1\n".toList

/-! ### Digests -/

/-- The `{:x}` rendering of a digest. -/
def lowerHex (digest : Vector UInt8 32) : Text :=
  digest.toList.flatMap fun byte =>
    [Nat.digitChar (byte.toNat / 16), Nat.digitChar (byte.toNat % 16)]

/-- `sha256_hex`. -/
def sha256Hex (ext : Externals) (bytes : Bytes) : Text := lowerHex (ext.sha256 bytes)

/-- `validate_sha256`. -/
def validateSha256 (value : Text) (label : String) : Except ArchiveError Unit :=
  reject ((encodeUtf8 value).length ≠ 64 ∨
      ¬(encodeUtf8 value).all (fun byte =>
        (48 ≤ byte && byte ≤ 57) || (97 ≤ byte && byte ≤ 102)) = true)
    ⟨"sha256_invalid", label ++ " must be 64 lowercase hexadecimal characters"⟩

/-! ### Paths -/

/-- An unsafe path component: empty, a dot segment, or with a colon or a control character. -/
def unsafeComponent (component : Text) : Bool :=
  component.isEmpty || component == ['.'] || component == ['.', '.'] || component.contains ':'
    || component.any isControl

/-- `validate_archive_path`. -/
def validateArchivePath (ext : Externals) (limits : ArchiveLimits) (path : Text) :
    Except ArchiveError Unit := do
  reject (path = [] ∨ path.head? = some '/' ∨ path.getLast? = some '/' ∨ '\\' ∈ path ∨
      '\x00' ∈ path)
    ⟨"archive_path_invalid", "unsafe archive path " ++ ext.debug path⟩
  reject ((encodeUtf8 path).length > limits.maxPathBytes.toNat)
    ⟨"archive_path_too_long",
      "archive path exceeds " ++ toString limits.maxPathBytes.toNat ++ " bytes"⟩
  reject (ext.nfc path ≠ path)
    ⟨"archive_path_noncanonical", "archive path is not NFC-normalized: " ++ ext.debug path⟩
  let components := path.splitOn '/'
  reject (components.length > limits.maxPathComponents.toNat)
    ⟨"archive_path_too_deep",
      "archive path exceeds " ++ toString limits.maxPathComponents.toNat ++ " components"⟩
  reject (components.any unsafeComponent = true)
    ⟨"archive_path_noncanonical",
      "archive path has an unsafe component: " ++ ext.debug path⟩

/-- The loop over the components of a path that extends `base` by each of them. -/
def parentsFrom (base : Text) : List Text → List Text
  | [] => []
  | component :: components =>
    let extended := (if base.isEmpty then base else base ++ ['/']) ++ component
    extended :: parentsFrom extended components

/-- The directories a path lies in, outermost first: all components but the last, joined. -/
def parentDirectories (path : Text) : List Text :=
  parentsFrom [] ((path.splitOn '/').take ((path.splitOn '/').length - 1))

/-- `BTreeSet<String>`. -/
abbrev PathSet := TreeSet Text byteOrder

/-- `reject_file_directory_collision`. -/
def rejectFileDirectoryCollision (ext : Externals) (path : Text) (paths : PathSet) :
    Except ArchiveError Unit := do
  match (parentDirectories path).find? paths.contains with
  | some directory =>
    .error ⟨"archive_path_collision", ext.debug directory ++ " is both a file and a directory"⟩
  | none =>
    -- `paths.range("<path>/"..).next()`
    let candidate :=
      paths.toList.find? fun candidate => (byteOrder (path ++ ['/']) candidate).isLE
    reject (candidate.any (fun candidate => (path ++ ['/']).isPrefixOf candidate) = true)
      ⟨"archive_path_collision", ext.debug path ++ " is both a file and a directory"⟩

/-! ### One record -/

/-- What a header line announces; `newline` is its length. -/
structure FileHeader where
  newline : Nat
  path : Text
  length : Nat
  deriving DecidableEq, Repr

/-- Before the path in a header line. -/
def headerOpening : Text := "--- file ".toList

/-- After the byte length in a header line. -/
def headerClosing : Text := " ---".toList

/-- The header line at `cursor`: the loop body of `parse_archive` up to the byte length. -/
def readHeader (ext : Externals) (limits : ArchiveLimits) (bytes : Bytes) (cursor : Nat) :
    Except ArchiveError FileHeader := do
  let remaining := bytes.drop cursor
  let newline ← require (remaining.findIdx? (· == 10))
    ⟨"archive_header_truncated", "file header has no newline"⟩
  reject (newline > saturatingAdd limits.maxPathBytes.toNat 64)
    ⟨"archive_header_too_large", "file header exceeds its deterministic bound"⟩
  let header ← require (decodeUtf8 (remaining.take newline))
    ⟨"archive_header_invalid", "file header is not valid UTF-8"⟩
  let body ← require ((headerOpening.isPrefixOf? header).bind (headerClosing.isSuffixOf? ·))
    ⟨"archive_header_invalid", "malformed file header at byte " ++ toString cursor⟩
  let split ← require (rsplitOnce ' ' body)
    ⟨"archive_header_invalid", "file header must contain a path and byte length"⟩
  let path := split.1
  let lengthText := split.2
  validateArchivePath ext limits path
  reject (lengthText = [] ∨ (lengthText.length > 1 ∧ lengthText.head? = some '0') ∨
      ¬lengthText.all Char.isDigit = true)
    ⟨"archive_length_invalid", "non-canonical byte length for " ++ ext.debug path⟩
  let length := Nat.ofDigitChars 10 lengthText 0
  reject (2 ^ 64 ≤ length)
    ⟨"archive_length_invalid", "byte length for " ++ ext.debug path ++ " does not fit usize"⟩
  return ⟨newline, path, length⟩

/-- The local variables of `parse_archive`. -/
structure ParseState where
  cursor : Nat
  extractedBytes : Nat
  entries : List ArchiveEntry
  paths : PathSet
  directories : PathSet
  previousPath : Option Text

/-- What `admitFile` leaves in the variables it updates. -/
structure Admitted where
  extractedBytes : Nat
  paths : PathSet
  directories : PathSet

/-- The loop body of `parse_archive` from the byte length to the budget of the tree. -/
def admitFile (ext : Externals) (limits : ArchiveLimits) (state : ParseState) (path : Text)
    (length : Nat) : Except ArchiveError Admitted := do
  reject (length > limits.maxFileBytes.toNat)
    ⟨"archive_file_too_large", ext.debug path ++ " is " ++ toString length
      ++ " bytes; per-file limit is " ++ toString limits.maxFileBytes.toNat⟩
  let extractedBytes ← require (checkedAdd state.extractedBytes length)
    ⟨"archive_size_overflow", "extracted byte count overflowed"⟩
  reject (extractedBytes > limits.maxArchiveBytes.toNat)
    ⟨"archive_total_bytes_exceeded", "sum of extracted file bytes exceeds the archive limit"⟩
  reject (path ∈ state.paths)
    ⟨"archive_duplicate_path", "duplicate archive path " ++ ext.debug path⟩
  let paths := state.paths.insert path
  reject (state.previousPath.any (fun previous => (byteOrder previous path).isGE) = true)
    ⟨"archive_path_order_invalid", "archive paths must be strictly increasing"⟩
  rejectFileDirectoryCollision ext path paths
  let directories := (parentDirectories path).foldl (fun set directory => set.insert directory)
    state.directories
  reject (directories.size > limits.maxDirectories.toNat ∨
      saturatingAdd paths.size directories.size > limits.maxTreeEntries.toNat)
    ⟨"archive_tree_entries_exceeded",
      "archive implies more filesystem entries than the extraction budget"⟩
  return ⟨extractedBytes, paths, directories⟩

/-- `bytes.ends_with(b"\n")`. -/
def endsWithNewline (bytes : Bytes) : Bool := bytes.getLast? == some 10

/-- The content after the header at `cursor` and the cursor after its separator. -/
def readContent (ext : Externals) (bytes : Bytes) (cursor : Nat) (header : FileHeader) :
    Except ArchiveError (Bytes × Nat) := do
  let start ← require (checkedAdd cursor (header.newline + 1))
    ⟨"archive_size_overflow", "cursor overflowed"⟩
  let stop ← require (checkedAdd start header.length)
    ⟨"archive_size_overflow", "file extent overflowed"⟩
  reject (stop > bytes.length)
    ⟨"archive_content_truncated", ext.debug header.path ++ " declares " ++ toString header.length
      ++ " bytes beyond end of archive"⟩
  let content := (bytes.drop start).take header.length
  if endsWithNewline content then
    return (content, stop)
  else
    reject (bytes[stop]? ≠ some 10)
      ⟨"archive_separator_missing",
        ext.debug header.path ++ " is not followed by the canonical newline separator"⟩
    return (content, stop + 1)

/-- One turn of the loop of `parse_archive`. -/
def parseEntry (ext : Externals) (limits : ArchiveLimits) (bytes : Bytes) (state : ParseState) :
    Except ArchiveError ParseState := do
  reject (state.entries.length = limits.maxFiles.toNat)
    ⟨"archive_file_count_exceeded",
      "archive contains more than " ++ toString limits.maxFiles.toNat ++ " files"⟩
  let header ← readHeader ext limits bytes state.cursor
  let admitted ← admitFile ext limits state header.path header.length
  let content ← readContent ext bytes state.cursor header
  return {
    cursor := content.2
    extractedBytes := admitted.extractedBytes
    entries := state.entries ++ [⟨header.path, content.1⟩]
    paths := admitted.paths
    directories := admitted.directories
    previousPath := some header.path }

/-! ### The loop -/

variable {ext : Externals} {bytes : Bytes}

theorem readContent_lt {cursor : Nat} {header : FileHeader}
    {content : Bytes × Nat} (h : readContent ext bytes cursor header = .ok content) :
    cursor < content.2 := by
  simp only [readContent, require_bind_eq_ok, checkedAdd_eq_some] at h
  obtain ⟨start, ⟨-, hstart⟩, stop, ⟨-, hstop⟩, h⟩ := h
  obtain ⟨-, h⟩ := check_bind_eq_ok.1 h
  split_ifs at h with hlast
  · have := pure_eq_ok.1 h
    subst this
    show cursor < stop
    omega
  · have := pure_eq_ok.1 (check_bind_eq_ok.1 h).2
    subst this
    show cursor < stop + 1
    omega

/-- Every turn of the loop consumes a part of the archive. -/
theorem parseEntry_lt {limits : ArchiveLimits}
    {state next : ParseState} (h : parseEntry ext limits bytes state = .ok next) :
    state.cursor < next.cursor := by
  obtain ⟨-, h⟩ := check_bind_eq_ok.1 h
  obtain ⟨header, -, h⟩ := bind_eq_ok.1 h
  obtain ⟨admitted, -, h⟩ := bind_eq_ok.1 h
  obtain ⟨content, hcontent, h⟩ := bind_eq_ok.1 h
  have := pure_eq_ok.1 h
  subst this
  exact readContent_lt hcontent

/-- The loop of `parse_archive`. -/
def parseEntries (ext : Externals) (limits : ArchiveLimits) (bytes : Bytes) (state : ParseState) :
    Except ArchiveError ParseState :=
  if state.cursor < bytes.length then
    match _hstep : parseEntry ext limits bytes state with
    | .error error => .error error
    | .ok next => parseEntries ext limits bytes next
  else .ok state
termination_by bytes.length - state.cursor
decreasing_by
  have := parseEntry_lt _hstep
  omega

theorem parseEntries_eq (ext : Externals) (limits : ArchiveLimits) (bytes : Bytes)
    (state : ParseState) : parseEntries ext limits bytes state =
      if state.cursor < bytes.length then
        parseEntry ext limits bytes state >>= parseEntries ext limits bytes
      else .ok state := by
  rw [parseEntries]
  split_ifs
  · split
    · next error herror => rw [herror]; rfl
    · next next hnext => rw [hnext]; rfl
  · rfl

/-- The variables of `parse_archive` before the loop. -/
def ParseState.initial : ParseState where
  cursor := archiveMagic.length
  extractedBytes := 0
  entries := []
  paths := ∅
  directories := ∅
  previousPath := none

/-- `parse_archive`. -/
def parseArchive (ext : Externals) (bytes : Bytes) (expectedSha256 : Text)
    (limits : ArchiveLimits) : Except ArchiveError ParsedArchive := do
  validateSha256 expectedSha256 "expected archive digest"
  reject (bytes.length > limits.maxArchiveBytes.toNat)
    ⟨"archive_too_large", "archive is " ++ toString bytes.length ++ " bytes; limit is "
      ++ toString limits.maxArchiveBytes.toNat⟩
  let archiveSha256 := sha256Hex ext bytes
  reject (archiveSha256 ≠ expectedSha256)
    ⟨"archive_digest_mismatch", "expected " ++ String.ofList expectedSha256 ++ ", computed "
      ++ String.ofList archiveSha256⟩
  reject (¬archiveMagic <+: bytes)
    ⟨"archive_magic_invalid", "archive does not begin with AXIOM_PACKAGE_ARCHIVE_V1"⟩
  let state ← parseEntries ext limits bytes .initial
  return ⟨archiveSha256, state.entries⟩

end Axiomc.Package
