import Axiomc.Workspace.TransactionSafety

/-!
# Transactions: reads and candidate commits

The calls of `transactional_workspace.rs` that look at files and commits: `read`, `read_at_commit`, and
`authorize_verified_candidate_commit`, by which a transaction accepts a commit as the delivered form of an
edit; and `authorize_external`, which refuses to run programs.

* `Repository`: what `git` tells about commits;
* `exec_authorizeVerifiedCandidateCommit`: an accepted commit holds the exact candidate at the path;
* `Keeps`: computations that leave the identity of the transaction alone, `read` and `write` among them.
-/

namespace Axiomc.Workspace

open Foundation

/-- What `git` tells about commits, and the bytes of a state file. -/
structure Repository where
  /-- `git rev-parse --verify`. -/
  revParse : Text → Except String Text
  /-- `git merge-base --is-ancestor`. -/
  isAncestor : Text → Text → Except String Bool
  /-- `git diff --name-only -z`, cut at the zero bytes. -/
  diffNames : Text → Text → Except String (List Bytes)
  /-- `git show` of a path in a commit. -/
  showBlob : Text → Text → Except String Bytes
  /-- `serde_json::to_vec_pretty` of a state. -/
  stateBytes : TransactionState → Bytes

variable (host : Host) (repository : Repository)

def isDigest (digest : Text) : Bool :=
  digest.length == 71 && "sha256:".toList.isPrefixOf digest &&
    (digest.drop 7).all fun c => c.isDigit || ('a' ≤ c && c ≤ 'f')

def digestMessage : String := "digest must use sha256:<64 lowercase hex> form"

def contentBytes : Content → Bytes
  | .raw bytes => bytes
  | .journal state => repository.stateBytes state

/-- A step that looks at the disk and keeps the error. -/
def observeResult {α : Type} (describe : String) (look : Session → Except String α) :
    Io (Except String α) := do
  let session ← get
  match ← nextVerdict with
  | .done => pure (look session)
  | .fail _ cause => pure (.error (describe ++ cause))
  | .crash _ => throw .crash

def auditResult : Except String Content → Text
  | .ok content => host.digest content
  | .error _ => "failed".toList

def read (path : Text) : Io Content := do
  requireActive
  authorizeExisting path (← getState).policy.allowedReadPaths
  let result ← observeResult "read failed: " fun session => secureRead session.tree path
  record host .read path (auditResult host result)
  lift result

def utf8Path (bytes : Bytes) : Except String Text :=
  match decodeUtf8 bytes with
  | some path => .ok path
  | none => .error "delivered-head paths are not UTF-8"

/-- Whether a commit changes the path; all its changes are in scope. -/
def containsCandidate (policy : WorkspacePolicy) (path : Text) : List Bytes → Except String Bool
  | [] => .ok false
  | bytes :: rest => do
    let changed ← utf8Path bytes
    validateRelative changed
    reject (changed ∉ policy.allowedWritePaths) "delivered head changes a path outside task write scope"
    let later ← containsCandidate policy path rest
    .ok (changed == path || later)

def readAtCommit (path commitSha : Text) : Io Bytes := do
  requireActive
  stopIf (isSha commitSha = false) shaMessage
  lift (validateRelative path)
  let state ← getState
  stopIf (path ∉ state.policy.allowedReadPaths) "path is outside task read scope"
  let verified ← observe "git operation failed: " fun _ => repository.revParse commitSha
  stopIf (trim verified ≠ commitSha) "delivered head must be an exact full commit SHA"
  let ancestry ← observe "failed to verify delivered ancestry: "
    fun _ => repository.isAncestor state.baseSha commitSha
  stopIf (ancestry = false) "delivered head is not a descendant of the transaction base"
  let changed ← observe "failed to inspect delivered scope: "
    fun _ => repository.diffNames state.baseSha commitSha
  let contains ← lift (containsCandidate state.policy path changed)
  stopIf (contains = false) "delivered head does not change the proposed candidate path"
  let blob ← observe "failed to inspect delivered blob: " fun _ => repository.showBlob commitSha path
  record host .readCommit (commitSha ++ [':'] ++ path) (host.digest (.raw blob))
  pure blob

def authorizeVerifiedCandidateCommit (path commitSha candidateDigest : Text) : Io PUnit := do
  stopIf (isDigest candidateDigest = false) digestMessage
  let candidate ← readAtCommit host repository path commitSha
  stopIf (host.digest (.raw candidate) ≠ candidateDigest)
    "delivered head does not contain the exact candidate bytes"
  let state ← getState
  let unscoped ← observe "cannot inspect: " fun session =>
    .ok (unscopedWorkspaceFingerprint host session.tree state.policy)
  stopIf (unscoped ≠ state.unscopedWorkspaceFingerprint) "transaction worktree changed outside task scope"
  modifyState fun state => { state with authorizedCandidateHead := some commitSha }
  let rows ← observe "cannot inspect: " fun session =>
    authorizedPathFingerprintCache host session.tree state.policy
  modifyState fun state => { state with authorizedPathFingerprints := rows }
  refreshScoped host
  record host .candidateHeadAuthorized commitSha candidateDigest

/-- `authorize_external`; the program may not be run, with or without the network. -/
def authorizeExternal (program : Text) : Io PUnit := do
  requireActive
  record host .command program "denied".toList
  throw (.error
    "portable v0 denies external commands and network; a verified sandbox executor is required")

variable {host repository} {s s' : Session} {E : Stop → Session → Prop}

/-- Any computation ends in some way. -/
theorem wp_any {α : Type} (m : Io α) {Q : α → Session → Prop} (hok : ∀ a s', Q a s')
    (hstop : ∀ stop s', E stop s') : wp m Q E s :=
  wp_of_exec (fun a s' _ => hok a s') fun stop s' _ => hstop stop s'

theorem wp_readAtCommit {path commitSha : Text} {Q : Bytes → Session → Prop}
    (hok : ∀ blob s', repository.showBlob commitSha path = .ok blob → Q blob s')
    (hstop : ∀ stop s', E stop s') : wp (readAtCommit host repository path commitSha) Q E s := by
  have hlook : ∀ stop (faults : List Verdict), E stop { s with faults := faults } :=
    fun _ _ => hstop _ _
  refine wp_requireActive (fun _ => ?_) fun _ => hstop _ _
  refine wp_stopIf (fun _ => ?_) fun _ => hstop _ _
  refine wp_lift (fun _ _ => ?_) fun _ _ => hstop _ _
  refine wp_getState ?_
  refine wp_stopIf (fun _ => ?_) fun _ => hstop _ _
  refine wp_observe (fun verified faults _ => ?_) hlook
  refine wp_stopIf (fun _ => ?_) fun _ => hstop _ _
  refine wp_observe (fun ancestry faults _ => ?_) hlook
  refine wp_stopIf (fun _ => ?_) fun _ => hstop _ _
  refine wp_observe (fun changed faults _ => ?_) hlook
  refine wp_lift (fun contains _ => ?_) fun _ _ => hstop _ _
  refine wp_stopIf (fun _ => ?_) fun _ => hstop _ _
  refine wp_observe (fun blob faults hblob => ?_) hlook
  rw [wp_bind]
  exact wp_any _ (fun _ s₅ => hok blob s₅ hblob) hstop

/-- An accepted commit holds the exact candidate. -/
theorem exec_authorizeVerifiedCandidateCommit {path commitSha candidateDigest : Text}
    (h : exec (authorizeVerifiedCandidateCommit host repository path commitSha candidateDigest) s =
      (.ok ⟨⟩, s')) :
    ∃ candidate, repository.showBlob commitSha path = .ok candidate ∧
      host.digest (.raw candidate) = candidateDigest := by
  refine wp_ok (Q := fun _ _ => ∃ candidate, repository.showBlob commitSha path = .ok candidate ∧
    host.digest (.raw candidate) = candidateDigest) (E := fun _ _ => True) ?_ h
  refine wp_stopIf (fun _ => ?_) fun _ => trivial
  rw [wp_bind]
  refine wp_readAtCommit (fun candidate s₁ hcandidate => ?_) fun _ _ => trivial
  refine wp_stopIf (fun hdigest => ?_) fun _ => trivial
  exact wp_any _ (fun _ _ => ⟨candidate, hcandidate, not_not.1 hdigest⟩) fun _ _ => trivial

/-! ### The identity of a transaction -/

def TransactionState.identity (state : TransactionState) : Text × Text :=
  (state.transactionId, state.policyDigest)

/-- The sessions have one transaction. -/
def SameTransaction (s s' : Session) : Prop := s'.state.identity = s.state.identity

instance : Patient SameTransaction where
  refl _ := rfl
  trans _ _ _ h h' := Eq.trans h' h
  faults _ _ := rfl

theorem Refreshed.sameTransaction (h : Refreshed s s') : SameTransaction s s' := by
  obtain ⟨-, _, _, _, hstate⟩ := h
  rw [SameTransaction, hstate]
  rfl

/-- However the computation ends, the transaction has the identity it had. -/
abbrev Keeps {α : Type} (m : Io α) : Prop := Within SameTransaction m

section Keeps

variable {α β : Type}

theorem keeps_modifyState {f : TransactionState → TransactionState}
    (h : ∀ state, (f state).identity = state.identity) : Keeps (modifyState f) :=
  within_modifyState fun s => h s.state

theorem keeps_observeResult (describe : String) (look : Session → Except String α) :
    Keeps (observeResult describe look) := by
  intro s
  unfold observeResult
  rw [wp_bind, wp_get, wp_bind]
  refine wp_nextVerdict fun verdict faults => ?_
  cases verdict <;> rfl

theorem keeps_writeFile (path : Text) (content : Content) : Keeps (writeFile path content) := by
  refine within_get.bind fun session => (within_lift _).bind fun stages => Within.bind ?_ fun _ => ?_
  · exact fun _ => rfl
  · exact fun _ => wp_change (fun _ => rfl) fun _ _ _ _ => rfl

theorem within_persist : Within (fun s s' => Restamps s.state s'.state) (persist host) := by
  intro s
  refine wp_getState ?_
  refine wp_stateFileExists ?_
  rw [wp_bind]
  refine wp_persistState (fun next s' hnext _ _ _ _ => hnext) fun stop next s' _ hstate _ => ?_
  show Restamps s.state s'.state
  rw [hstate]
  exact Restamps.refl _

theorem keeps_persist : Keeps (persist host) := by
  refine within_persist.mono fun s s' hrestamps => ?_
  obtain ⟨_, _, _, hstate⟩ := hrestamps
  rw [SameTransaction, hstate]
  rfl

theorem keeps_record (operation : Operation) (subject result : Text) :
    Keeps (record host operation subject result) := by
  refine Within.bind ?_ fun _ => keeps_persist
  exact keeps_modifyState fun _ => rfl

theorem keeps_requireActive : Keeps requireActive := within_getState.bind fun _ => within_stopIf _ _

theorem keeps_authorizeExisting (path : Text) (allowed : List Text) :
    Keeps (authorizeExisting path allowed) :=
  (within_lift _).bind fun _ => (within_stopIf _ _).bind fun _ => within_observe _ _

theorem read_keeps (path : Text) : Keeps (read host path) := by
  refine keeps_requireActive.bind fun _ => within_getState.bind fun state =>
    (keeps_authorizeExisting _ _).bind fun _ => (keeps_observeResult _ _).bind fun result => ?_
  exact (keeps_record _ _ _).bind fun _ => within_lift _

theorem keeps_beginEffect (effect : Text) : Keeps (beginEffect host effect) := by
  refine within_getState.bind fun state => (within_stopIf _ _).bind fun _ => ?_
  refine Within.bind ?_ fun _ => keeps_persist
  exact keeps_modifyState fun _ => rfl

theorem keeps_finishEffect (operation : Operation) (subject result : Text) (changed : List Text)
    (structureChanged : Bool) :
    Keeps (finishEffect host operation subject result changed structureChanged) := by
  refine (keeps_record _ _ _).bind fun _ => Within.bind ?_ fun _ => ?_
  · exact keeps_modifyState fun _ => rfl
  refine Within.bind ?_ fun _ => Within.bind ?_ fun _ => Within.bind ?_ fun _ => keeps_persist
  · exact (within_updateCache _).mono fun _ _ => Refreshed.sameTransaction
  · exact within_refreshScoped.mono fun _ _ => Refreshed.sameTransaction
  · exact (within_onlyIf _ within_refreshUnscoped).mono fun _ _ => Refreshed.sameTransaction

theorem keeps_authorizeWrite (path : Text) : Keeps (authorizeWrite path) := by
  refine (within_lift _).bind fun _ => within_getState.bind fun state => ?_
  exact (within_stopIf _ _).bind fun _ => within_observe _ _

theorem write_keeps (path : Text) (bytes : Bytes) : Keeps (write host path bytes) := by
  refine keeps_requireActive.bind fun _ => (keeps_authorizeWrite _).bind fun _ => ?_
  refine (within_observe _ _).bind fun creates => (within_observe _ _).bind fun before => ?_
  refine (keeps_record _ _ _).bind fun _ => (keeps_beginEffect _).bind fun _ => ?_
  exact (keeps_writeFile _ _).bind fun _ => keeps_finishEffect _ _ _ _ _

theorem Keeps.identity {m : Io α} (h : Keeps m) {a : α} (hexec : exec m s = (.ok a, s')) :
    s'.state.identity = s.state.identity := by
  have hwp := h s
  simp only [wp, hexec] at hwp
  exact hwp

end Keeps

end Axiomc.Workspace
