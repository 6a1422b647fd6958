import Axiomc.Foundation.Crashes
import Axiomc.Foundation.UnixPath

/-!
# Publishing a release

`publish_release_transaction` of `registry.rs`: the files of a release are written to a pending
directory beside it, the release that is there is moved aside, and the pending directory is moved in its
place.  The package directory is locked meanwhile.

* `Node`, `PackageDir`: the entries of a package directory.  A release is a directory of files;
* `Host`: the order in which a directory is listed and the texts of errors;
* `anchoredEntryIsDirectory`, `removeAnchoredReleaseDir`, `rename`, `makeDir`, `createFile`: the system
  calls, each a step that may fail or never return;
* `openRelease`, `restoreInterrupted`, `clearPending`, `removePrevious`, `fillPending`,
  `replaceVersion`: the parts of the transaction, in its order;
* `publishReleaseTransaction`, `Attempt.after`, `runAll`: the transaction, and attempts one after the
  other.

A directory that is not there has no entries, so making the namespace and the package directory changes
nothing here.  `safe_registry_segment` has the caller's version be one name.
-/

namespace Axiomc.Registry

open Foundation

/-! ### The package directory -/

/-- A name that an entry can have. -/
abbrev FileName := {name : Text // IsName name}

/-- The files of a release, as they are passed. -/
abbrev Files := List (FileName × Bytes)

/-- An entry of a release directory. -/
inductive Leaf where
  | file (bytes : Bytes)
  | directory
  deriving DecidableEq

/-- An entry of a package directory. -/
inductive Node where
  | directory (content : List (Text × Leaf))
  | other
  deriving DecidableEq

def Node.isDirectory : Node → Bool
  | directory _ => true
  | other => false

structure PackageDir where
  rootExists : Bool
  entry : Text → Option Node

def PackageDir.set (d : PackageDir) (name : Text) (node : Option Node) : PackageDir :=
  { d with entry := Function.update d.entry name node }

@[simp] theorem PackageDir.set_entry (d : PackageDir) (name other : Text) (node : Option Node) :
    (d.set name node).entry other = if other = name then node else d.entry other := by
  simp only [PackageDir.set, Function.update_apply]

/-- The directory with exactly the files of a release. -/
def complete (files : Files) : Node := .directory (files.map fun file => (file.1.val, .file file.2))

/-! ### Errors -/

structure Diagnostic where
  kind : String
  message : String
  path : Option UnixPath
  deriving DecidableEq

/-- `publish_error`. -/
def publishError (path : Option UnixPath) (message : String) : Diagnostic := ⟨"publish", message, path⟩

/-- Why a system call cannot do its work. -/
inductive Errno where
  | noEntry
  | alreadyExists
  | notDirectory
  | isDirectory
  | notEmpty
  deriving DecidableEq

/-- The parts of the host the transaction depends on. -/
structure Host where
  /-- The text of an error. -/
  errorText : Errno → String
  /-- What `readdir` returns for a directory with these names. -/
  listing : List Text → List Text

/-! ### System calls -/

abbrev Io (α : Type) := Crashing Diagnostic PackageDir α

/-- A call that only looks. -/
def look {α : Type} (act : PackageDir → Except String α) : Io (Except String α) :=
  diskStep (fun d => (act d).map fun a => (a, d)) fun d _ => d

/-- A call that changes the directory at once or not at all. -/
def change (act : PackageDir → Except String PackageDir) : Io (Except String PUnit) :=
  diskStep (fun d => (act d).map fun d' => (⟨⟩, d')) fun d _ => d

/-- A call without effect on the entries, such as `fsync`. -/
def touch : Io (Except String PUnit) := look fun _ => .ok ⟨⟩

/-- An error without a path, with the text of the call's own error at its end. -/
def failure (text cause : String) : Diagnostic := publishError none (text ++ cause)

def stop {α : Type} (message : String) : Io α := throw (.error (publishError none message))

def onlyIf (c : Bool) (m : Io PUnit) : Io PUnit := if c then m else pure ⟨⟩

/-- `CString::new`. -/
def cString (name : Text) (message : String) : Io PUnit :=
  if '\x00' ∈ name then stop message else pure ⟨⟩

variable (host : Host)

/-- `openat` with `O_DIRECTORY`. -/
def openDir (name : Text) (d : PackageDir) : Except String (List (Text × Leaf)) :=
  match d.entry name with
  | some (.directory content) => .ok content
  | some .other => .error (host.errorText .notDirectory)
  | none => .error (host.errorText .noEntry)

/-- `fstatat` below a directory. -/
def leafAt (name leaf : Text) (d : PackageDir) : Except String Leaf := do
  let content ← openDir host name d
  match content.lookup leaf with
  | some found => .ok found
  | none => .error (host.errorText .noEntry)

/-- `unlinkat` below a directory. -/
def unlink (name leaf : Text) (d : PackageDir) : Except String PackageDir := do
  let content ← openDir host name d
  match content.lookup leaf with
  | some (.file _) => .ok (d.set name (some (.directory (content.filter (·.1 ≠ leaf)))))
  | some .directory => .error (host.errorText .isDirectory)
  | none => .error (host.errorText .noEntry)

/-- `unlinkat` with `AT_REMOVEDIR`. -/
def removeDir (name : Text) (d : PackageDir) : Except String PackageDir := do
  let content ← openDir host name d
  if content = [] then .ok (d.set name none) else .error (host.errorText .notEmpty)

/-- `mkdirat`. -/
def makeDir (name : Text) (d : PackageDir) : Except String PackageDir :=
  match d.entry name with
  | none => .ok (d.set name (some (.directory [])))
  | some _ => .error (host.errorText .alreadyExists)

/-- `renameat`. -/
def rename (source target : Text) (d : PackageDir) : Except String PackageDir :=
  let moved := (d.set source none).set target (d.entry source)
  match d.entry source, d.entry target with
  | none, _ => .error (host.errorText .noEntry)
  | some _, none => .ok moved
  | some (.directory _), some (.directory []) => .ok moved
  | some (.directory _), some (.directory (_ :: _)) => .error (host.errorText .notEmpty)
  | some (.directory _), some .other => .error (host.errorText .notDirectory)
  | some .other, some (.directory _) => .error (host.errorText .isDirectory)
  | some .other, some .other => .ok moved

/-- `openat` with `O_CREAT | O_EXCL` below a directory. -/
def createFile (name leaf : Text) (d : PackageDir) : Except String PackageDir := do
  let content ← openDir host name d
  match content.lookup leaf with
  | none => .ok (d.set name (some (.directory (content ++ [(leaf, .file [])]))))
  | some _ => .error (host.errorText .alreadyExists)

/-- The directory with these bytes in a file below `name`. -/
def putBytes (name leaf : Text) (bytes : Bytes) (d : PackageDir) : PackageDir :=
  match d.entry name with
  | some (.directory content) =>
    d.set name (some (.directory
      (content.map fun entry => if entry.1 = leaf then (leaf, .file bytes) else entry)))
  | _ => d

/-- `write_all`, which may stop after some of the bytes. -/
def writeAll (name leaf : Text) (bytes : Bytes) : Io (Except String PUnit) :=
  diskStep (fun d => .ok (⟨⟩, putBytes name leaf bytes d))
    fun d progress => putBytes name leaf (bytes.take progress) d

/-! ### Helpers of the transaction -/

/-- `anchored_entry_is_directory`. -/
def anchoredEntryIsDirectory (name : Text) : Io (Option Bool) :=
  orFail (failure "failed to inspect anchored registry entry: ")
    (look fun d => .ok ((d.entry name).map Node.isDirectory))

/-- One turn of the loop of `remove_anchored_release_dir`. -/
def removeEntry (name leaf : Text) : Io PUnit := do
  match ← orFail (failure "failed to inspect recovery entry: ") (look (leafAt host name leaf)) with
  | .directory => stop "recovery directory contains an unexpected nested directory"
  | .file _ =>
    orFail (failure "failed to remove anchored recovery entry: ") (change (unlink host name leaf))

/-- `remove_anchored_release_dir`. -/
def removeAnchoredReleaseDir (name : Text) : Io PUnit := do
  let content ← orFail (failure "failed to open anchored recovery directory: ")
    (look (openDir host name))
  orFail (failure "failed to duplicate recovery directory descriptor: ") touch
  orFail (failure "failed to enumerate recovery directory: ") touch
  forEach (removeEntry host name)
    ((host.listing (content.map Prod.fst)).filter fun leaf => leaf ≠ ['.'] ∧ leaf ≠ ['.', '.'])
  orFail (failure "failed to close recovery directory iterator: ") touch
  orFail (failure "failed to remove anchored recovery directory: ") (change (removeDir host name))

/-! ### The transaction -/

/-- Where a package is published. -/
structure Package where
  registryRoot : UnixPath
  namespaceName : Text
  name : Text

variable (package : Package)

def Package.path : UnixPath :=
  (package.registryRoot.join (.ofText package.namespaceName)).join (.ofText package.name)

structure Request where
  overwrite : Bool
  files : Files

def pendingText (version : Text) : Text := ['.'] ++ version ++ ".publish-pending".toList

def previousText (version : Text) : Text := ['.'] ++ version ++ ".previous".toList

/-- One turn of the loop that opens the package directory. -/
def openSegment (segment : Text) : Io PUnit := do
  cString segment "registry path contains NUL"
  orFail (fun cause => publishError (some package.path)
    ("failed to create anchored registry parent: " ++ cause)) touch
  orFail (fun cause => publishError (some package.path)
    ("failed to open anchored registry parent: " ++ cause)) touch

/-- The beginning of the transaction, up to the lock. -/
def openParent : Io PUnit := do
  -- `exists` is false as well when the path cannot be looked at
  let found ← look fun d => .ok d.rootExists
  onlyIf (!found.toOption.getD false)
    (orFail (fun cause => publishError (some package.registryRoot)
        ("failed to create registry root: " ++ cause))
      (change fun d => .ok { d with rootExists := true }))
  orFail (fun cause => publishError (some package.registryRoot)
    ("failed to safely open registry root: " ++ cause)) touch
  forEach (openSegment package) [package.namespaceName, package.name]
  orFail (failure "failed to lock anchored registry package directory: ") touch

/-- The recovery on entry: a release that was moved aside comes back. -/
def restoreInterrupted (version : Text) (finalExists previousExists : Option Bool) :
    Io (Option Bool × Option Bool) :=
  if finalExists.isNone ∧ previousExists = some true then do
    orFail (failure "failed to restore interrupted release replacement: ")
      (change (rename host (previousText version) version))
    orFail (failure "restored interrupted release but failed to sync parent directory: ") touch
    pure (some true, none)
  else pure (finalExists, previousExists)

/-- What an earlier attempt left pending goes. -/
def clearPending (version : Text) : Io PUnit := do
  match ← anchoredEntryIsDirectory (pendingText version) with
  | some true => removeAnchoredReleaseDir host (pendingText version)
  | some false => stop "pending release state must be a non-symlink directory"
  | none => pure ⟨⟩

/-- The predecessor goes before another one takes its place. -/
def removePrevious (version : Text) (request : Request) (finalExists : Bool)
    (previousExists : Option Bool) : Io PUnit :=
  onlyIf (request.overwrite && finalExists && previousExists == some true)
    (removeAnchoredReleaseDir host (previousText version))

/-- One turn of the loop that writes the files. -/
def persistFile (version : Text) (file : FileName × Bytes) : Io PUnit := do
  cString file.1.val "release file name contains NUL"
  orFail (failure "failed to create anchored release file: ")
    (change (createFile host (pendingText version) file.1.val))
  orFail (failure "failed to persist release file: ")
    (writeAll (pendingText version) file.1.val file.2)
  orFail (failure "failed to persist release file: ") touch

def fillPending (version : Text) (files : Files) : Io PUnit := do
  forEach (persistFile host version) files
  orFail (failure "failed to sync pending release directory: ") touch

/-- The two renames, and the way back when the second one fails. -/
def replaceVersion (version : Text) (finalExists : Bool) : Io PUnit := do
  onlyIf finalExists
    (orFail (failure "failed to stage existing release for replacement: ")
      (change (rename host version (previousText version))))
  match ← change (rename host (pendingText version) version) with
  | .ok _ => pure ⟨⟩
  | .error cause => do
    onlyIf finalExists
      (orFail (fun restoreCause => publishError none
          ("failed to publish replacement: " ++ cause ++ "; prior release remains recoverable as " ++
            String.ofList (previousText version) ++ ", but automatic restoration failed: " ++
            restoreCause))
        (change (rename host (previousText version) version)))
    stop ("failed to publish release: " ++ cause)

/-- The transaction from the pending directory on.  `AnchoredPendingCleanup` removes it again when the
transaction fails before the second rename. -/
def publishFiles (version : Text) (files : Files) (finalExists : Bool) : Io PUnit := do
  orFail (failure "failed to create anchored pending release: ")
    (change (makeDir host (pendingText version)))
  let _ ← orFail (failure "failed to open anchored pending release: ")
    (look (openDir host (pendingText version)))
  guarded
    (do
      fillPending host version files
      replaceVersion host version finalExists)
    (removeAnchoredReleaseDir host (pendingText version))
  orFail (failure "release rename completed but parent directory sync failed: ") touch

/-- The package directory and the three names. -/
def openRelease (version : Text) : Io PUnit := do
  openParent package
  cString version "release version contains NUL"
  cString (pendingText version) "pending release name contains NUL"
  cString (previousText version) "previous release name contains NUL"

/-- The transaction from the names on. -/
def publishOpened (version : FileName) (request : Request) : Io PUnit := do
  let finalExists ← anchoredEntryIsDirectory version.val
  let previousExists ← anchoredEntryIsDirectory (previousText version.val)
  if finalExists = some false then stop "release destination must be a non-symlink directory"
  else if previousExists = some false then
    stop "release recovery state must be a non-symlink directory"
  else do
    let (finalExists, previousExists) ←
      restoreInterrupted host version.val finalExists previousExists
    clearPending host version.val
    let finalExists := finalExists == some true
    if finalExists && !request.overwrite then
      stop ("registry release " ++ String.ofList package.namespaceName ++ "/" ++
        String.ofList package.name ++ "@" ++ String.ofList version.val ++
        " already exists; pass --allow-overwrite to replace it")
    else do
      removePrevious host version.val request finalExists previousExists
      publishFiles host version.val request.files finalExists

/-- `publish_release_transaction`. -/
def publishReleaseTransaction (version : FileName) (request : Request) : Io PUnit := do
  openRelease package version.val
  publishOpened host package version request

/-! ### Attempts -/

/-- A call of the function, and how its steps end. -/
structure Attempt where
  version : FileName
  request : Request
  ends : List StepEnd

/-- The package directory after an attempt, however it ended. -/
def Attempt.after (attempt : Attempt) (d : PackageDir) : PackageDir :=
  (exec (publishReleaseTransaction host package attempt.version attempt.request)
    ⟨d, attempt.ends⟩).2.disk

/-- The package directory after attempts one after the other. -/
def runAll (attempts : List Attempt) (d : PackageDir) : PackageDir :=
  attempts.foldl (fun d attempt => attempt.after host package d) d

end Axiomc.Registry
