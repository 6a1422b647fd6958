import Mathlib.Data.List.Dedup
import Axiomc.Foundation.Sorting
import Axiomc.Workspace.Worktree

/-!
# Transactions: the state and its fingerprints

The state of a transaction of `transactional_workspace.rs`, and the fingerprints by which it knows its
worktree: the digest of one row of text for each entry.

* `TransactionState`, `Content`: the state, and the files, of which one holds it;
* `Host`: what a transaction uses of the machine;
* `entryRow`, `collectTreeRows`: the rows;
* `pathFingerprint`, `unscopedWorkspaceFingerprint`, `policyScopedFingerprintFromHead`: the fingerprints of
  a path, of all that no path of the policy leads to, and of the whole policy;
* `workspaceMatchesState`: the worktree has the fingerprints of a state.

A file that holds a written state is represented by the state itself.
-/

namespace Axiomc.Workspace

open Foundation

/-! ### The state -/

inductive TransactionPhase where
  | active
  | interrupted
  | committed
  | aborted
  deriving DecidableEq, Inhabited

inductive Operation where
  | checkpoint
  | lifecycle
  | artifact
  | rollback
  | write
  | delete
  | rename
  | chmod
  | read
  | readCommit
  | candidateHeadAuthorized
  | command
  deriving DecidableEq

structure AuditEvent where
  sequence : Nat
  operation : Operation
  subject : Text
  result : Text

structure WorkspacePolicy where
  allowedReadPaths : List Text
  allowedWritePaths : List Text
  allowedCommands : List Text
  allowNetwork : Bool
  verifiedSandbox : Bool
  deriving Inhabited

structure TransactionState where
  baseSha : Text
  worktree : Text
  policy : WorkspacePolicy
  phase : TransactionPhase
  events : List AuditEvent
  artifacts : List Text
  rollbackResult : Option Text
  checksum : Text
  transactionId : Text
  taskContractDigest : Text
  policyDigest : Text
  pendingEffect : Option Text
  workspaceFingerprint : Text
  authorizedPathFingerprints : List (Text × Text)
  unscopedWorkspaceFingerprint : Text
  ownerEpoch : Text
  generation : Nat
  authorizedCandidateHead : Option Text
  deriving Inhabited

/-- What a file holds: bytes, or a state as `persist_state` writes it. -/
inductive Content where
  | raw (bytes : Bytes)
  | journal (state : TransactionState)

abbrev Worktree := ContentTree Content

/-- What the transactions use of the machine: digests, links and `git`. -/
structure Host where
  /-- The root of the worktree. -/
  root : Text
  /-- `sha256_digest` of what a file holds. -/
  digest : Content → Text
  /-- The digest of a state. -/
  stateDigest : TransactionState → Text
  /-- `serde_json::from_slice`, for bytes that were not written by `persist_state`. -/
  parse : Bytes → Option TransactionState
  /-- `serde_json::to_vec` of a policy. -/
  policyBytes : WorkspacePolicy → Bytes
  /-- Where a path ends that leads through a link: a tree of the machine and the names there. -/
  follow : Worktree → Text → Except String (Worktree × List Text)
  /-- `git reset --hard`. -/
  reset : Text → Worktree → List (Stage Content)
  /-- `git clean -fd`, which leaves the state file and the lease. -/
  clean : Worktree → List (Stage Content)

variable (host : Host)

/-! ### Rows -/

def sha256Digest (text : Text) : Text := host.digest (.raw (encodeUtf8 text))

def normalized (path : Text) : Text := path.map fun c => if c = '\\' then '/' else c

/-- `metadata.mode()`: the type of an entry and its permissions. -/
def metadataMode : FileNode Content → Nat
  | .file _ mode _ => 0o100000 + mode
  | .directory mode => 0o40000 + mode
  | .link _ => 0o120777

/-- The fields of a row, with a zero character after each but the last. -/
def row (fields : List Text) : Text := ['\x00'].intercalate fields

/-- The row of `append_entry_row`. -/
def entryRow (relative : Text) (entry : FileNode Content) : Text :=
  let mode := Nat.toDigits 8 (metadataMode entry)
  match entry with
  | .link target => row [['L'], normalized relative, mode, normalized target]
  | .directory _ => row [['D'], normalized relative, mode]
  | .file content _ _ => row [['F'], normalized relative, mode, host.digest content]

/-- The names in a directory, in order. -/
def childNames (tree : Worktree) (directory : List Text) : List Text :=
  sortBy byteOrder ((tree.nodes.filterMap fun entry =>
    if entry.1.dropLast = directory then entry.1.getLast? else none).dedup)

/-- `path.join(name)`. -/
def joinName (path name : Text) : Text :=
  if path = [] ∨ path.getLast? = some '/' then path ++ name else path ++ ['/'] ++ name

/-- A relative path without the fillers at its ends, as `strip_prefix` gives it. -/
def stripFillers (path : Text) : Text :=
  ['/'].intercalate (((path.splitOn '/').dropWhile isFiller).rdropWhile isFiller)

/-- `collect_tree_rows`: the rows of what is below a directory, which stands at `names`.  A directory that
`skip` does not want is not entered. -/
def collectTreeRows (tree : Worktree) (skip : List Text → Bool) : Nat → List Text → Text → List Text
  | 0, _, _ => []
  | fuel + 1, names, path => (childNames tree names).flatMap fun name =>
    if skip (names ++ [name]) then []
    else
      match tree.node (names ++ [name]) with
      | none => []
      | some entry => entryRow host (stripFillers (joinName path name)) entry ::
        if entry.isDirectory then
          collectTreeRows tree skip fuel (names ++ [name]) (joinName path name)
        else []

/-- `collect_entry_rows`. -/
def collectEntryRows (tree : Worktree) (names : List Text) (path : Text) (entry : FileNode Content) :
    List Text :=
  entryRow host (stripFillers path) entry ::
    if entry.isDirectory then
      collectTreeRows host tree (fun _ => false) tree.nodes.length names path
    else []

/-! ### Fingerprints -/

/-- The names before the end of a path; a path that ends in a separator leads through its last name. -/
def namesBefore (path : Text) : List Text :=
  if (path.splitOn '/').getLast?.any isFiller then pathNames path else (pathNames path).dropLast

/-- Where `fs::symlink_metadata` looks for a path. -/
def locate (tree : Worktree) (path : Text) : Except String (Worktree × List Text) :=
  let before := (namesBefore path).inits.filterMap tree.node
  if before.any FileNode.isLink then host.follow tree path
  else if before.all FileNode.isDirectory then .ok (tree, pathNames path)
  else .error "cannot inspect: Not a directory (os error 20)"

def pathFingerprint (tree : Worktree) (relative : Text) : Except String Text := do
  let (there, names) ← locate host tree relative
  let rows :=
    match there.node names with
    | some entry => collectEntryRows host there names relative entry
    | none => [row [['M'], relative]]
  .ok (sha256Digest host (['\n'].intercalate rows))

/-- `policy_paths`. -/
def policyPaths (policy : WorkspacePolicy) : List Text :=
  sortBy byteOrder (policy.allowedReadPaths ++ policy.allowedWritePaths).dedup

def pathIsWithinScope (names : List Text) (scope : Text) : Bool := (pathNames scope).isPrefixOf names

def unscopedWorkspaceFingerprint (tree : Worktree) (policy : WorkspacePolicy) : Text :=
  let skip (names : List Text) : Bool :=
    names == [gitEntry] || names == [stateFile] || names == [leaseFile] ||
      (policyPaths policy).any (pathIsWithinScope names)
  sha256Digest host (['\n'].intercalate (collectTreeRows host tree skip (tree.nodes.length + 1) [] []))

def policyScopedFingerprintFromHead (head : Text) (policy : WorkspacePolicy) (cache : List (Text × Text)) :
    Text :=
  let rows := cache.map fun entry => row [entry.1, entry.2]
  sha256Digest host (row [head, host.digest (.raw (host.policyBytes policy)), ['\n'].intercalate rows])

def pathsOverlap (left right : Text) : Bool :=
  left == right || (right ++ ['/']).isPrefixOf left || (left ++ ['/']).isPrefixOf right

def authorizedPathFingerprintCache (tree : Worktree) (policy : WorkspacePolicy) :
    Except String (List (Text × Text)) :=
  (policyPaths policy).mapM fun path => do
    let fingerprint ← pathFingerprint host tree path
    .ok (path, fingerprint)

/-- A row of the map of fingerprints is set. -/
def insertRow (path fingerprint : Text) : List (Text × Text) → List (Text × Text)
  | [] => [(path, fingerprint)]
  | (key, value) :: rows =>
    match byteOrder path key with
    | .lt => (path, fingerprint) :: (key, value) :: rows
    | .eq => (path, fingerprint) :: rows
    | .gt => (key, value) :: insertRow path fingerprint rows

def workspaceMatchesState (tree : Worktree) (head : Text) (state : TransactionState) :
    Except String Bool := do
  let cache ← authorizedPathFingerprintCache host tree state.policy
  .ok (cache == state.authorizedPathFingerprints &&
    policyScopedFingerprintFromHead host head state.policy cache == state.workspaceFingerprint &&
    unscopedWorkspaceFingerprint host tree state.policy == state.unscopedWorkspaceFingerprint)

end Axiomc.Workspace
