import Axiomc.Foundation.Sorting
import Axiomc.Package.Archive
import Mathlib.Data.List.DropRight

/-!
# The package archive writer

The embedding of `render_package_archive` of `registry.rs`: the walk over the project directory
that collects the publishable files, their order, and the archive written from them.

A directory is listed in the order the file system returns it.  Names are `OsStr`s, that is byte
strings; paths are relative to the canonical project root and so are lists of names.  Resolving a
path changes nothing, because the walk stops at the first symbolic link.  The walk records the
content with the path; the writer reads the file again under its own limit.

`parse_manifest_exact`, the TOML reader with the checks of the manifest, is a parameter: the writer uses
its verdict and the registry section of its result.
-/

namespace Axiomc.Package

open Std
open Axiomc.Foundation

/-! ### The project directory -/

/-- `OsStr`, a file name. -/
abbrev OsName := Bytes

/-- A path below the project root. -/
abbrev RelativePath := List OsName

/-- The entries of a directory in the order of `read_dir`. -/
inductive DirEntries where
  | nil
  | file (name : OsName) (content : Bytes) (rest : DirEntries)
  | directory (name : OsName) (entries : DirEntries) (rest : DirEntries)
  | symlink (name : OsName) (rest : DirEntries)
  /-- Neither a file nor a directory: a socket, a device. -/
  | other (name : OsName) (rest : DirEntries)
  deriving DecidableEq, Repr

/-- The names in a directory. -/
def DirEntries.names : DirEntries → List OsName
  | nil => []
  | file name _ rest => name :: rest.names
  | directory name _ rest => name :: rest.names
  | symlink name rest => name :: rest.names
  | other name rest => name :: rest.names

/-- The names of a directory are distinct, in it and below it. -/
def DirEntries.Distinct : DirEntries → Prop
  | nil => True
  | file name _ rest => name ∉ rest.names ∧ rest.Distinct
  | directory name entries rest => name ∉ rest.names ∧ entries.Distinct ∧ rest.Distinct
  | symlink name rest => name ∉ rest.names ∧ rest.Distinct
  | other name rest => name ∉ rest.names ∧ rest.Distinct

/-- `Distinct` is decided along the listing. -/
def DirEntries.decideDistinct : (entries : DirEntries) → Decidable entries.Distinct
  | nil => inferInstanceAs (Decidable True)
  | file name _ rest =>
    have := rest.decideDistinct
    inferInstanceAs (Decidable (name ∉ rest.names ∧ rest.Distinct))
  | directory name entries rest =>
    have := entries.decideDistinct
    have := rest.decideDistinct
    inferInstanceAs (Decidable (name ∉ rest.names ∧ entries.Distinct ∧ rest.Distinct))
  | symlink name rest =>
    have := rest.decideDistinct
    inferInstanceAs (Decidable (name ∉ rest.names ∧ rest.Distinct))
  | other name rest =>
    have := rest.decideDistinct
    inferInstanceAs (Decidable (name ∉ rest.names ∧ rest.Distinct))

instance : DecidablePred DirEntries.Distinct := DirEntries.decideDistinct

/-- A project directory. -/
structure ProjectDir where
  entries : DirEntries
  distinct : entries.Distinct

/-- A file that the walk has found. -/
structure ProjectFile where
  path : RelativePath
  content : Bytes
  deriving DecidableEq, Repr

/-- The `registry` section of a manifest. -/
structure RegistrySection where
  cache : Option Text
  vendor : Option Text
  deriving DecidableEq, Repr

/-- A `publish` diagnostic; its path is below the project root. -/
structure PublishError where
  path : Option RelativePath
  message : String
  deriving DecidableEq, Repr

/-! ### Constants -/

/-- `MANIFEST_FILENAME`. -/
def manifestFilename : Text := "axiom.toml".toList

/-- `LOCK_FILENAME`. -/
def lockFilename : Text := "axiom.lock".toList

/-- `DEFAULT_PACKAGE_CACHE_DIR`. -/
def defaultPackageCacheDir : Text := ".axiom/cache".toList

/-- `DEFAULT_PACKAGE_VENDOR_DIR`. -/
def defaultPackageVendorDir : Text := "vendor".toList

/-- `MAX_ARCHIVE_BYTES`. -/
def maxArchiveBytes : Nat := 64 * 1024 * 1024

/-- `MAX_MANIFEST_BYTES`. -/
def maxManifestBytes : Nat := 1024 * 1024

/-- `MAX_LOCK_BYTES`. -/
def maxLockBytes : Nat := 4 * 1024 * 1024

/-! ### Names and paths -/

/-- `is_unsafe_registry_path_segment`. -/
def isUnsafeRegistryPathSegment (value : Text) : Bool :=
  value.isEmpty || trim value != value || value == ['.'] || value == ['.', '.']
    || value.contains '/' || value.contains '\\' || value.any isControl
    || (value.head?.any Char.isAlpha && (value[1]? == some ':'))

/-- The text of one component in `normalize_archive_path`. -/
def normalizeComponent (path : RelativePath) (component : OsName) : Except PublishError Text := do
  let text ← require (decodeUtf8 component)
    ⟨some path, "archive path component is not valid UTF-8"⟩
  reject (isUnsafeRegistryPathSegment text = true) ⟨some path, "unsafe archive path component"⟩
  return text

/-- `normalize_archive_path`. -/
def normalizeArchivePath (path : RelativePath) : Except PublishError Text := do
  let components ← path.mapM (normalizeComponent path)
  reject (components = []) ⟨some path, "archive path must name a descendant file"⟩
  return ['/'].intercalate components

/-- `Path::extension` of a file name. -/
def extension (name : OsName) : Option OsName :=
  match rsplitOnce 46 name with
  | some (stem, after) => if stem = [] then none else some after
  | none => none

/-- `should_publish_file`. -/
def shouldPublishFile (name : OsName) : Bool :=
  name == encodeUtf8 manifestFilename || name == encodeUtf8 lockFilename
    || extension name == some (encodeUtf8 "ax".toList)

/-- `normalized_project_relative_root`: repeated separators and `.` are dropped. -/
def normalizedProjectRelativeRoot (relative : Text) : Except PublishError RelativePath := do
  let components := (relative.splitOn '/').filter fun part => part ≠ [] ∧ part ≠ ['.']
  reject (relative.head? = some '/' ∨ ['.', '.'] ∈ components)
    ⟨some [encodeUtf8 manifestFilename], "registry cache and vendor roots must be project-relative "
      ++ "without parent traversal"⟩
  return components.map encodeUtf8

/-! ### The walk -/

/-- `collect_publishable_files`. -/
def collectPublishableFiles (excludedRoots : List RelativePath) (dir : RelativePath) :
    DirEntries → Except PublishError (List ProjectFile)
  | .nil => return []
  | .symlink name _ =>
    .error ⟨some (dir ++ [name]), "refusing to package a symlinked path"⟩
  | .directory name entries rest => do
    if dir ++ [name] ∈ excludedRoots ∨
        name ∈ [".git", "target", "dist"].map (fun skipped => encodeUtf8 skipped.toList) then
      collectPublishableFiles excludedRoots dir rest
    else
      let inner ← collectPublishableFiles excludedRoots (dir ++ [name]) entries
      let files ← collectPublishableFiles excludedRoots dir rest
      return inner ++ files
  | .file name content rest => do
    let files ← collectPublishableFiles excludedRoots dir rest
    if shouldPublishFile name then
      return ⟨dir ++ [name], content⟩ :: files
    else
      return files
  | .other _ rest => collectPublishableFiles excludedRoots dir rest

/-- The directories that are not published. -/
def excludedRoots (registry : Option RegistrySection) :
    Except PublishError (List RelativePath) := do
  let cache ← normalizedProjectRelativeRoot defaultPackageCacheDir
  let vendor ← normalizedProjectRelativeRoot defaultPackageVendorDir
  let configured ← match registry with
    | none => pure []
    | some settings => do
      let cache ← normalizedProjectRelativeRoot (settings.cache.getD defaultPackageCacheDir)
      let vendor ← normalizedProjectRelativeRoot (settings.vendor.getD defaultPackageVendorDir)
      pure [cache, vendor]
  let roots := [cache, vendor] ++ configured
  reject ([] ∈ roots) ⟨some [encodeUtf8 manifestFilename],
    "registry cache and vendor roots must not name the project root"⟩
  return roots

/-- `parse_manifest_exact`, as far as the writer looks at its result. -/
abbrev ManifestParser := Bytes → Except PublishError (Option RegistrySection)

/-- `fs::read` of a name in a directory.  A symbolic link would be read through; the walk refuses a
project with one. -/
def DirEntries.read (name : OsName) : DirEntries → Except String Bytes
  | file found content rest => if found = name then .ok content else rest.read name
  | directory found _ rest =>
    if found = name then .error "Is a directory (os error 21)" else rest.read name
  | symlink _ rest => rest.read name
  | other _ rest => rest.read name
  | nil => .error "No such file or directory (os error 2)"

/-- `load_manifest`. -/
def loadManifest (parseManifestExact : ManifestParser) (project : ProjectDir) :
    Except PublishError (Option RegistrySection) :=
  match project.entries.read (encodeUtf8 manifestFilename) with
  | .ok content => parseManifestExact content
  | .error err =>
    .error ⟨some [encodeUtf8 manifestFilename], "failed to read axiom.toml: " ++ err⟩

/-- The publishable files of a project: `render_package_archive` up to the sort. -/
def publishableFiles (parseManifestExact : ManifestParser) (project : ProjectDir) :
    Except PublishError (List ProjectFile) := do
  let registry ← loadManifest parseManifestExact project
  let roots ← excludedRoots registry
  collectPublishableFiles roots [] project.entries

/-! ### The archive -/

/-- `RenderedPackage`. -/
structure RenderedPackage where
  archive : Bytes
  files : TreeMap Text Bytes byteOrder

/-- The limit on the size of a captured file. -/
def fileCap (relative : Text) : Nat :=
  if relative = manifestFilename then maxManifestBytes
  else if relative = lockFilename then maxLockBytes
  else maxArchiveBytes

/-- `read_registry_relative_path` on a regular file. -/
def readRegistryRelativePath (file : ProjectFile) (cap : Nat) : Except PublishError Bytes := do
  reject (file.content.length > cap)
    ⟨some file.path, "failed to capture project file: file exceeds byte limit of "
      ++ toString cap⟩
  return file.content

/-- One file of the loop of `render_package_archive`. -/
def renderFile (rendered : RenderedPackage) (file : ProjectFile) :
    Except PublishError RenderedPackage := do
  let relative ← normalizeArchivePath file.path
  let content ← readRegistryRelativePath file (fileCap relative)
  let recordHeader := encodeUtf8
    ("--- file ".toList ++ relative ++ ' ' :: Nat.toDigits 10 content.length ++ " ---\n".toList)
  let ending : Bytes := if endsWithNewline content then [] else [10]
  let recordLen := recordHeader.length + content.length + ending.length
  reject (rendered.archive.length + recordLen > maxArchiveBytes)
    ⟨some file.path, "generated archive exceeds 64 MiB limit"⟩
  return ⟨rendered.archive ++ recordHeader ++ content ++ ending,
    rendered.files.insert relative content⟩

/-- `render_package_archive`. -/
def renderPackageArchive (parseManifestExact : ManifestParser) (project : ProjectDir) :
    Except PublishError RenderedPackage := do
  let files ← publishableFiles parseManifestExact project
  (sortBy (compareOn ProjectFile.path) files).foldlM renderFile
    ⟨encodeUtf8 "AXIOM_PACKAGE_ARCHIVE_V1\n".toList, ∅⟩

end Axiomc.Package
