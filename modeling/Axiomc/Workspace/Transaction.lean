import Axiomc.Foundation.Fallible
import Axiomc.Workspace.Fingerprints

/-!
# Transactions on a worktree

The protocol of `transactional_workspace.rs`: a transaction owns a worktree and a state file in it, and
writes the state anew before and after every effect on a file.  A process can stop between any two steps
on the disk; the next one opens the transaction again from what is there.

* `Io`: a call as a computation over the disk and the handle's copy of the state.  `Verdict` says how each
  step on the disk ends;
* `beginEffect`, `finishEffect`, `runEffect`: an effect and what is written around it;
* `recover`, `resume`, `abort`, `commitLocal` and the others: the calls;
* `System`, `step`: calls one after the other on successive handles.

A lease admits one handle at a time, so a system has at most one.
-/

namespace Axiomc.Workspace

open Foundation

variable (host : Host)

/-- The marks of a secret that `redact` looks for. -/
def secretMarks : List Text :=
  ["credential=", "token=", "password=", "authorization:", "github_pat_", "ghp_", "bearer "].map
    String.toList

def redact (value : Text) : Text :=
  let lower := value.map Char.toLower
  if "secret://".toList <+: lower ∨ "secret-ref:".toList <+: lower ∨
      (∃ mark ∈ secretMarks, mark <:+: lower) then
    "[secret-reference-redacted]".toList
  else value

def stateChecksum (state : TransactionState) : Text := host.stateDigest { state with checksum := [] }

def decodeState : Content → Option TransactionState
  | .journal state => some state
  | .raw bytes => host.parse bytes

def isSha (sha : Text) : Bool :=
  sha.length == 40 && sha.all fun c => c.isDigit || ('a' ≤ c && c ≤ 'f')

def shaMessage : String := "base SHA must be a full 40-character hexadecimal commit id"

/-! ### Steps on the disk -/

/-- How a step on the disk ends: it is done, it fails after some of its stages, or the process ends
there. -/
inductive Verdict where
  | done
  | fail (stage : Nat) (cause : String)
  | crash (stage : Nat)
  deriving DecidableEq

inductive Stop where
  | error (message : String)
  | crash

/-- The disk, the verdicts to come and the handle's copy of the state. -/
structure Session where
  tree : Worktree
  head : Text
  nonce : Nat
  faults : List Verdict
  state : TransactionState

abbrev Io (α : Type) := Fallible Stop Session α

def lift {α : Type} : Except String α → Io α
  | .ok a => pure a
  | .error message => throw (.error message)

def stopIf (c : Prop) [Decidable c] (message : String) : Io PUnit :=
  if c then throw (.error message) else pure ⟨⟩

def onlyIf (c : Bool) (m : Io PUnit) : Io PUnit := if c then m else pure ⟨⟩

def getState : Io TransactionState := do
  let session ← get
  pure session.state

def modifyState (f : TransactionState → TransactionState) : Io PUnit :=
  modify fun session => { session with state := f session.state }

def nextVerdict : Io Verdict := do
  let session ← get
  match session.faults with
  | [] => pure .done
  | verdict :: faults => do
    modify fun session => { session with faults := faults }
    pure verdict

/-- A step that only looks at the disk. -/
def observe {α : Type} (describe : String) (look : Session → Except String α) : Io α := do
  let session ← get
  match ← nextVerdict with
  | .done => lift (look session)
  | .fail _ cause => throw (.error (describe ++ cause))
  | .crash _ => throw .crash

/-- A step that changes the worktree. -/
def change (describe : String) (stages : List (Stage Content)) : Io PUnit := do
  match ← nextVerdict with
  | .done => modify fun session =>
      { session with tree := (stages.map (·.crashed)).getLastD session.tree }
  | .fail stage cause => do
    modify fun session =>
      { session with tree := ((stages.take stage).map (·.failed)).getLastD session.tree }
    throw (.error (describe ++ cause))
  | .crash stage => do
    modify fun session =>
      { session with tree := ((stages.take stage).map (·.crashed)).getLastD session.tree }
    throw .crash

/-- The name of a temporary file; the number stands for the process, the counter and the attempt. -/
def tempName (leaf : Text) (nonce : Nat) : Text :=
  ['.'] ++ leaf ++ ".axiom-tmp-".toList ++ Nat.toDigits 10 nonce

/-- `secure_write` as a step. -/
def writeFile (path : Text) (content : Content) : Io PUnit := do
  let session ← get
  let leaf := ((pathNames path).getLast?).getD []
  let stages ← lift (secureWrite session.tree (tempName leaf session.nonce) path content)
  modify fun session => { session with nonce := session.nonce + 1 }
  change "cannot persist authorized write: " stages

/-! ### The state file -/

def readState (tree : Worktree) : Except String TransactionState := do
  let content ← secureRead tree stateFile
  match decodeState host content with
  | some state => .ok state
  | none => .error "invalid transaction state"

/-- The compare-and-swap of `persist_state`. -/
def requireOwner (state : TransactionState) (owner : Text) (generation : Nat) : Io PUnit := do
  let durable ← observe "cannot read durable transaction state for compare-and-swap: "
    fun session => readState host session.tree
  stopIf (durable.checksum ≠ stateChecksum host durable)
    "transaction state checksum mismatch during compare-and-swap"
  stopIf (durable.transactionId ≠ state.transactionId ∨ durable.ownerEpoch ≠ owner ∨
      durable.generation ≠ generation)
    "transaction state owner/generation conflict; refusing to merge stale state"

def stateFileExists : Io Bool := do
  let session ← get
  pure (session.tree.node [stateFile]).isSome

/-- What `persist_state` requires of the state file: the expected owner and generation, or that there is
none. -/
def requireExpected (state : TransactionState) : Option (Text × Nat) → Io PUnit
  | some (owner, generation) => requireOwner host state owner generation
  | none => do stopIf ((← stateFileExists) = true) "transaction state appeared during creation"

def nextGeneration : Option (Text × Nat) → Nat
  | some (_, generation) => generation + 1
  | none => 1

/-- The state that `persist_state` writes. -/
def stamped (state : TransactionState) (generation : Nat) : TransactionState :=
  { state with
    generation := generation
    checksum := stateChecksum host { state with generation := generation } }

/-- `persist_state`: the state as it is then in the file. -/
def persistState (state : TransactionState) (expected : Option (Text × Nat)) : Io TransactionState := do
  requireExpected host state expected
  stopIf (nextGeneration expected ≥ 2 ^ 64) "transaction state generation overflow"
  let next := stamped host state (nextGeneration expected)
  writeFile stateFile (.journal next)
  pure next

def persist : Io PUnit := do
  let state ← getState
  let exists_ ← stateFileExists
  let expected :=
    if state.generation = 0 ∧ exists_ = false then none
    else some (state.ownerEpoch, state.generation)
  let next ← persistState host state expected
  modifyState fun _ => next

def record (operation : Operation) (subject result : Text) : Io PUnit := do
  modifyState fun state =>
    { state with events := state.events ++
        [⟨state.events.length, operation, redact subject, redact result⟩] }
  persist host

/-! ### Effects -/

inductive Effect where
  | write (path : Text) (bytes : Bytes)
  | delete (path : Text)
  | rename (source target : Text)
  | chmod (path : Text) (mode : Nat)

namespace Effect

def operation : Effect → Operation
  | write .. => .write
  | delete _ => .delete
  | rename .. => .rename
  | chmod .. => .chmod

def name : Effect → Text
  | write .. => "write".toList
  | delete _ => "delete".toList
  | rename .. => "rename".toList
  | chmod .. => "chmod".toList

def subject : Effect → Text
  | write path _ => path
  | delete path => path
  | rename source target => source ++ "->".toList ++ target
  | chmod path _ => path

/-- The path whose digest is taken before. -/
def digested : Effect → Text
  | write path _ => path
  | delete path => path
  | rename source _ => source
  | chmod path _ => path

/-- The paths whose fingerprints are taken after. -/
def changedPaths : Effect → List Text
  | write path _ => [path]
  | delete path => [path]
  | rename source target => [source, target]
  | chmod path _ => [path]

/-- The worktree after the effect. -/
def apply (tree : Worktree) : Effect → Except String Worktree
  | write path bytes => Prod.snd <$> publish tree path (.raw bytes)
  | delete path => secureDelete tree path
  | rename source target => secureRename tree source target
  | chmod path mode => secureChmod tree path mode

end Effect

def optionalDigest (digest : Option Text) : Text := digest.getD ['-']

/-- The digests before and after, as they are recorded. -/
def Effect.digests (before : Option Text) : Effect → Text
  | .write _ bytes => optionalDigest before ++ ['|'] ++ host.digest (.raw bytes)
  | .delete _ => optionalDigest before ++ "|-".toList
  | .rename .. => optionalDigest before ++ ['|'] ++ optionalDigest before
  | .chmod .. => optionalDigest before ++ ['|'] ++ optionalDigest before

def requireActive : Io PUnit := do
  let state ← getState
  stopIf (state.phase ≠ .active) "transaction is not active"

def authorizeWrite (path : Text) : Io PUnit := do
  lift (validateRelative path)
  let state ← getState
  stopIf (path ∉ state.policy.allowedWritePaths) "write path is outside task scope"
  observe "cannot inspect authorized path: " fun session => validateAnchoredWritePath session.tree path

def authorizeExisting (path : Text) (allowed : List Text) : Io PUnit := do
  lift (validateRelative path)
  stopIf (path ∉ allowed) "path is outside task scope"
  observe "cannot inspect authorized path: "
    fun session => validateAnchoredExistingPath session.tree path

def fileDigestAuthorized (path : Text) : Io (Option Text) :=
  observe "cannot hash authorized path: " fun session =>
    (fun content => content.map host.digest) <$> secureFileContent session.tree path

/-- The authority that an effect needs. -/
def Effect.authorize : Effect → Io PUnit
  | .write path _ => authorizeWrite path
  | .delete path => do authorizeExisting path (← getState).policy.allowedWritePaths
  | .rename source target => do
    authorizeExisting source (← getState).policy.allowedWritePaths
    authorizeWrite target
  | .chmod path mode => do
    stopIf (0o777 < mode) "special permission bits are forbidden"
    authorizeExisting path (← getState).policy.allowedWritePaths

/-- `write_creates_structure`; the other effects make no directories. -/
def Effect.createsStructure : Effect → Io Bool
  | .write path _ =>
    observe "cannot inspect authorized path: " fun session => createsMissingAncestors session.tree path
  | _ => pure false

/-- The change of the worktree, as a step. -/
def Effect.perform : Effect → Io PUnit
  | .write path bytes => writeFile path (.raw bytes)
  | effect => do
    let session ← get
    let tree ← lift (effect.apply session.tree)
    change "" [.same tree]

def beginEffect (effect : Text) : Io PUnit := do
  let state ← getState
  stopIf (state.pendingEffect.isSome = true) "another filesystem effect is pending"
  modifyState fun state => { state with pendingEffect := some effect }
  persist host

/-- The fingerprint of a path is taken anew. -/
def refreshRow (path : Text) : Io PUnit := do
  let fingerprint ← observe "cannot inspect: " fun session => pathFingerprint host session.tree path
  modifyState fun state =>
    { state with
      authorizedPathFingerprints := insertRow path fingerprint state.authorizedPathFingerprints }

/-- The body of the loop of `update_authorized_path_fingerprint_cache`. -/
def updateRow (changed : List Text) (path : Text) : Io PUnit := do
  let state ← getState
  onlyIf ((state.authorizedPathFingerprints.lookup path).isNone || changed.any (pathsOverlap path))
    (refreshRow host path)

def updateAuthorizedPathFingerprintCache (changed : List Text) : Io PUnit := do
  let state ← getState
  forEach (updateRow host changed) (policyPaths state.policy)

def gitHead : Io Text := observe "git operation failed: " fun session => .ok session.head

/-- The fingerprint of what no path of the policy leads to is taken anew. -/
def refreshUnscoped : Io PUnit := do
  let state ← getState
  let unscoped ← observe "cannot inspect: " fun session =>
    .ok (unscopedWorkspaceFingerprint host session.tree state.policy)
  modifyState fun state => { state with unscopedWorkspaceFingerprint := unscoped }

/-- The fingerprint of the policy's rows, at the present commit. -/
def refreshScoped : Io PUnit := do
  let head ← gitHead
  modifyState fun state =>
    { state with
      workspaceFingerprint :=
        policyScopedFingerprintFromHead host head state.policy state.authorizedPathFingerprints }

def finishEffect (operation : Operation) (subject result : Text) (changed : List Text)
    (structureChanged : Bool) : Io PUnit := do
  record host operation subject result
  modifyState fun state => { state with pendingEffect := none }
  updateAuthorizedPathFingerprintCache host changed
  refreshScoped host
  onlyIf structureChanged (refreshUnscoped host)
  persist host

/-- The common course of `write`, `delete`, `rename` and `chmod`. -/
def runEffect (effect : Effect) : Io PUnit := do
  requireActive
  effect.authorize
  let createsStructure ← effect.createsStructure
  let before ← fileDigestAuthorized host effect.digested
  record host .checkpoint effect.subject ("before_".toList ++ effect.name)
  beginEffect host (effect.name ++ [':'] ++ effect.subject)
  effect.perform
  finishEffect host effect.operation effect.subject (effect.digests host before) effect.changedPaths
    createsStructure

def write (path : Text) (bytes : Bytes) : Io PUnit := runEffect host (.write path bytes)

def delete (path : Text) : Io PUnit := runEffect host (.delete path)

def rename (source target : Text) : Io PUnit := runEffect host (.rename source target)

def chmod (path : Text) (mode : Nat) : Io PUnit := runEffect host (.chmod path mode)

/-! ### The other calls -/

def recordArtifact (path : Text) : Io PUnit := do
  let state ← getState
  authorizeExisting path state.policy.allowedReadPaths
  match ← fileDigestAuthorized host path with
  | none => throw (.error "artifact is not a file")
  | some digest =>
    modifyState fun state => { state with artifacts := state.artifacts.insert path }
    record host .artifact path digest

def markInterrupted : Io PUnit := do
  requireActive
  modifyState fun state => { state with phase := .interrupted }
  record host .lifecycle "transaction".toList "interrupted".toList

def requireMatch (message : String) (state : TransactionState) : Io PUnit := do
  let matches_ ← observe "cannot inspect: " fun session =>
    workspaceMatchesState host session.tree session.head state
  stopIf (matches_ = false) message

def resume : Io PUnit := do
  let state ← getState
  stopIf (state.phase ≠ .interrupted) "only an interrupted transaction may be resumed"
  stopIf (state.pendingEffect.isSome = true)
    "an interrupted filesystem effect is ambiguous; rollback is required"
  requireMatch host "transaction worktree changed after its last durable event" state
  modifyState fun state => { state with phase := .active }
  record host .lifecycle "transaction".toList "resumed".toList

/-- The fingerprints of the whole worktree, taken anew. -/
def refreshFingerprints : Io PUnit := do
  let state ← getState
  let rows ← observe "cannot inspect: " fun session =>
    authorizedPathFingerprintCache host session.tree state.policy
  modifyState fun state => { state with authorizedPathFingerprints := rows }
  refreshScoped host
  refreshUnscoped host

/-- The two `git` commands of `abort`. -/
def restoreBase : Io PUnit := do
  let session ← get
  change "git operation failed: " (host.reset session.state.baseSha session.tree)
  modify fun session => { session with head := session.state.baseSha }
  let session ← get
  change "git operation failed: " (host.clean session.tree)

def abort : Io PUnit := do
  let state ← getState
  stopIf (state.phase = .committed ∨ state.phase = .aborted) "transaction is already terminal"
  restoreBase host
  modifyState fun state =>
    { state with
      phase := .aborted
      rollbackResult := some "restored_to_base_sha".toList
      pendingEffect := none }
  refreshFingerprints host
  record host .rollback state.baseSha "succeeded".toList

def commitLocal : Io PUnit := do
  requireActive
  record host .checkpoint "delivery".toList "before_local_commit".toList
  modifyState fun state => { state with phase := .committed }
  record host .lifecycle "transaction".toList "committed".toList

def isOwnerEpoch (epoch : Text) : Bool :=
  !(epoch.isEmpty || (encodeUtf8 epoch).length > 160 || epoch.any isWhitespace)

/-- The checks of `recover` that need no look at the files. -/
def checkRecovered (state : TransactionState) (head : Text) : Except String Unit := do
  reject (state.checksum ≠ stateChecksum host state) "transaction state checksum mismatch"
  reject (state.worktree ≠ host.root) "transaction state belongs to another worktree"
  reject (isOwnerEpoch state.ownerEpoch = false) "transaction owner epoch is invalid"
  reject (head ≠ state.baseSha ∧ state.phase ≠ .committed ∧
    state.authorizedCandidateHead ≠ some head) "transaction HEAD no longer matches its exact base SHA"
  reject (∃ candidate ∈ state.authorizedCandidateHead, isSha candidate = false) shaMessage
  reject (state.events.map (·.sequence) ≠ List.range state.events.length)
    "transaction journal sequence is corrupt"

/-- `recover`; `epoch` is the new owner. -/
def recover (epoch : Text) : Io PUnit := do
  let state ← observe "cannot read transaction state: " fun session => readState host session.tree
  let head ← gitHead
  lift (checkRecovered host state head)
  onlyIf state.pendingEffect.isNone
    (requireMatch host "transaction worktree does not match its durable journal" state)
  let next ← persistState host { state with ownerEpoch := epoch }
    (some (state.ownerEpoch, state.generation))
  modifyState fun _ => next

def validatePolicy (policy : WorkspacePolicy) : Except String Unit := do
  (policy.allowedReadPaths ++ policy.allowedWritePaths).forM validateRelative
  reject (∃ command ∈ policy.allowedCommands, '/' ∈ command ∨ (trim command).isEmpty)
    "commands must be canonical program names"

/-- The identity of a new transaction. -/
structure Identity where
  baseSha : Text
  transactionId : Text
  taskContractDigest : Text
  policyDigest : Text
  ownerEpoch : Text

/-- `create_for_task`, once `git` has made the worktree. -/
def createForTask (identity : Identity) (policy : WorkspacePolicy) : Io PUnit := do
  stopIf (isSha identity.baseSha = false) shaMessage
  lift (validatePolicy policy)
  modifyState fun _ =>
    { baseSha := identity.baseSha
      worktree := host.root
      policy := policy
      phase := .active
      events := []
      artifacts := []
      rollbackResult := none
      checksum := []
      transactionId := identity.transactionId
      taskContractDigest := identity.taskContractDigest
      policyDigest := identity.policyDigest
      pendingEffect := none
      workspaceFingerprint := []
      authorizedPathFingerprints := []
      unscopedWorkspaceFingerprint := []
      ownerEpoch := identity.ownerEpoch
      generation := 0
      authorizedCandidateHead := none }
  refreshFingerprints host
  record host .checkpoint identity.baseSha "created".toList

/-! ### Successive handles -/

inductive Call where
  | effect (effect : Effect)
  | recordArtifact (path : Text)
  | markInterrupted
  | resume
  | abort
  | commitLocal
  | recover (epoch : Text)
  | close

/-- A call, and how its steps on the disk end. -/
structure Step where
  call : Call
  faults : List Verdict

/-- The disk, and the state of the handle if one is open. -/
structure System where
  tree : Worktree
  head : Text
  nonce : Nat
  handle : Option TransactionState

/-- A call on a handle; what only makes or drops handles does nothing here. -/
def Call.run : Call → Io PUnit
  | .effect e => runEffect host e
  | .recordArtifact path => Workspace.recordArtifact host path
  | .markInterrupted => Workspace.markInterrupted host
  | .resume => Workspace.resume host
  | .abort => Workspace.abort host
  | .commitLocal => Workspace.commitLocal host
  | .recover _ => throw (.error "transaction lease unavailable")
  | .close => throw .crash

def System.session (system : System) (faults : List Verdict) (state : TransactionState) : Session :=
  ⟨system.tree, system.head, system.nonce, faults, state⟩

/-- How the system is after a call, and what the call returned. -/
def System.stepResult (system : System) (s : Step) : Except Stop PUnit × System :=
  match system.handle, s.call with
  | some state, call =>
    let (result, session) := exec (call.run host) (system.session s.faults state)
    (result, ⟨session.tree, session.head, session.nonce, match result with
      | .error .crash => none
      | _ => some session.state⟩)
  | none, .recover epoch =>
    let (result, session) := exec (Workspace.recover host epoch) (system.session s.faults default)
    (result, ⟨session.tree, session.head, session.nonce, match result with
      | .ok _ => some session.state
      | .error _ => none⟩)
  | none, _ => (.error (.error "no handle"), system)

def System.step (system : System) (s : Step) : System := (system.stepResult host s).2

def System.run (system : System) (steps : List Step) : System := steps.foldl (System.step host) system

end Axiomc.Workspace
