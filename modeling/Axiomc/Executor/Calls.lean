import Axiomc.Executor.State

/-!
# The bounded executor: calls

The calls of `bounded_executor.rs` over the executor and the transaction that is handed to the call.

* `Exec`: a call as a computation over the executor and the workspace;
* `record`, `reject`, `failureError`: how a call ends in the chain of events;
* `proposeReplace`, `applyProposal`, `submitVerification`, `submitDelivery` and the others: the calls;
* `recover`: an executor from its stored form;
* `Call`, `Step`, `run`: calls one after the other.
-/

namespace Axiomc.Executor

open Foundation Workspace

/-- The executor and the transaction that a call is given. -/
structure Machine where
  executor : BoundedExecutor
  workspace : Session

abbrev Exec (α : Type) := Fallible Stop Machine α

variable {α : Type}

def ofExcept : Except String α → Exec α
  | .ok a => pure a
  | .error message => throw (.error message)

def getExecutor : Exec BoundedExecutor := do
  let machine ← get
  pure machine.executor

def modifyExecutor (f : BoundedExecutor → BoundedExecutor) : Exec PUnit :=
  modify fun machine => { machine with executor := f machine.executor }

def failIf (c : Prop) [Decidable c] (message : String) : Exec PUnit :=
  if c then throw (.error message) else pure ⟨⟩

/-- `let _ = ..`: the error is dropped, the changes stay. -/
def attempt (m : Exec PUnit) : Exec PUnit := ExceptT.mk do
  let _ ← m.run
  pure (.ok ⟨⟩)

/-- A call of the transaction; if the process ends there, so does the call. -/
def onWorkspace (m : Io α) : Exec (Except String α) := do
  let machine ← get
  match exec m machine.workspace with
  | (.ok a, workspace) => do
    set { machine with workspace := workspace }
    pure (.ok a)
  | (.error (.error message), workspace) => do
    set { machine with workspace := workspace }
    pure (.error message)
  | (.error .crash, workspace) => do
    set { machine with workspace := workspace }
    throw .crash

def workspaceState : Exec TransactionState := do
  let machine ← get
  pure machine.workspace.state

variable (host : Host) (repository : Repository) (prims : Primitives)

/-! ### Events -/

def record (kind : String) (detail : Text) : Exec PUnit := do
  modifyExecutor fun e => e.withEvent host prims kind.toList detail
  let e ← getExecutor
  let mac ← ofExcept (e.computeSeal prims)
  modifyExecutor fun e => { e with sealMac := mac }

def guard : Exec PUnit := do
  let e ← getExecutor
  ofExcept (e.validateIntegrity host prims)

def requireState (expected : ExecutionState) : Exec PUnit := do
  let e ← getExecutor
  failIf (e.state ≠ expected) ("executor must be in " ++ expected.debug ++ " state")

/-- The states that the executor does not leave. -/
def ExecutionState.isTerminal : ExecutionState → Bool
  | resolved | rolledBack | rejected | escalated => true
  | _ => false

def ensureNonterminal : Exec PUnit := do
  let e ← getExecutor
  failIf (e.state.isTerminal = true) "executor is terminal"

variable (e : BoundedExecutor)

/-- The failure that `reject` records. -/
def rejection (message : String) : ExecutionFailure :=
  ⟨.policy, digest host (encodeUtf8 message.toList), message.toList, e.budgets.consumed.retries⟩

def rejectWith (message : String) : Exec PUnit := do
  modifyExecutor fun e =>
    { e with state := .rejected, failures := e.failures ++ [rejection host e message] }
  attempt (record host prims "rejected" message.toList)
  throw (.error message)

/-- A check whose failure rejects the task. -/
def rejectIf (c : Prop) [Decidable c] (message : String) : Exec PUnit :=
  if c then rejectWith host prims message else pure ⟨⟩

/-! ### Failures -/

def failureFingerprint (cause : FailureCause) (code message : Text) : Text :=
  digest host (encodeUtf8 (['\x00'].intercalate [cause.debug.toList, code, message]))

/-- Why a failure is not retried. -/
def needsEscalation (cause : FailureCause) (fingerprint : Text) : Bool :=
  cause == .unknown || cause == .policy || !e.retryPolicy.approvedCauses.contains cause ||
    e.failures.getLast?.any fun prior => prior.fingerprint == fingerprint

/-- The executor escalates and the call fails. -/
def escalate (kind : String) (detail : Text) (message : String) : Exec PUnit := do
  modifyExecutor fun e => { e with state := .escalated }
  record host prims kind detail
  throw (.error message)

def escalateIf (c : Prop) [Decidable c] (kind : String) (detail : Text) (message : String) : Exec PUnit :=
  if c then escalate host prims kind detail message else pure ⟨⟩

def retryFailure (cause : FailureCause) (code message : Text) : Exec PUnit := do
  guard host prims
  ensureNonterminal
  let e ← getExecutor
  let fingerprint := failureFingerprint host cause code message
  modifyExecutor fun e =>
    { e with failures := e.failures ++
        [⟨cause, fingerprint, message, min (e.budgets.consumed.retries + 1) (2 ^ 32 - 1)⟩] }
  escalateIf host prims (needsEscalation e cause fingerprint = true) "failure_escalated" code
    "failure requires escalation"
  failIf (e.budgets.consumed.retries + 1 ≥ 2 ^ 32) "retry budget overflow"
  escalateIf host prims (e.budgets.consumed.retries + 1 > e.budgets.limits.retries) "budget_exhausted"
    "retry".toList "execution retry budget exhausted; escalation required"
  modifyExecutor fun e =>
    { e with budgets := { e.budgets with
        consumed := { e.budgets.consumed with retries := e.budgets.consumed.retries + 1 } } }
  record host prims "retry_approved" code

def failureError (cause : FailureCause) (code message : String) : Exec α := do
  attempt (retryFailure host prims cause code.toList message.toList)
  throw (.error message)

/-- A check whose failure is counted. -/
def countIf (c : Prop) [Decidable c] (cause : FailureCause) (code message : String) : Exec PUnit :=
  if c then failureError host prims cause code message else pure ⟨⟩

/-- `map_err` with `failure_error`. -/
def orCount (cause : FailureCause) (code : String) : Except String α → Exec α
  | .ok a => pure a
  | .error message => failureError host prims cause code message

/-! ### Checks -/

def canonicalRelative (path : Text) : Bool :=
  !path.isEmpty && !(['/'].isPrefixOf path) &&
    (path.splitOn '/').all fun part => !part.isEmpty && part != ['.'] && part != ['.', '.']

/-- The path is one that the repair plan leaves out. -/
def outsideRepair (path : Text) : Bool :=
  e.repairAllowedFiles.any fun allowed => !allowed.contains path

def authorizePath (path : Text) : Exec PUnit := do
  let e ← getExecutor
  rejectIf host prims (canonicalRelative path = false ∨ path ∉ e.allowedFiles)
    "proposal path is outside the task allowed_files"
  rejectIf host prims (outsideRepair e path = true)
    "proposal path is outside the repair-plan allowed_files"

/-- The executor is bound to another transaction. -/
def boundElsewhere (state : TransactionState) : Bool :=
  e.transactionId.any fun transactionId =>
    transactionId != state.transactionId || e.policyDigest != some state.policyDigest

def validateWorkspace : Exec PUnit := do
  let state ← workspaceState
  let e ← getExecutor
  rejectIf host prims (state.taskContractDigest ≠ e.taskContractDigest)
    "workspace is bound to another task contract"
  rejectIf host prims (state.baseSha ≠ e.baseSha) "workspace is bound to another base SHA"
  rejectIf host prims (state.phase ≠ .active) "workspace transaction is not active"
  rejectIf host prims (boundElsewhere e state = true)
    "workspace no longer matches the sealed transaction binding"
  rejectIf host prims (state.policy.allowNetwork = true)
    "workspace policy grants forbidden network authority"
  rejectIf host prims (state.policy.allowedCommands ≠ [])
    "workspace policy grants unsupported command authority"
  rejectIf host prims (∃ path ∈ state.policy.allowedWritePaths, path ∉ e.allowedFiles)
    "workspace write policy exceeds the task allowed_files"
  rejectIf host prims (∃ path ∈ state.policy.allowedWritePaths, outsideRepair e path = true)
    "workspace write policy exceeds the repair allowed_files"

/-! ### Texts -/

/-- Occurrences one after the other without overlap; `skip` characters belong to the last one. -/
def countFrom (find : Text) : Nat → Text → Nat
  | _, [] => 0
  | skip + 1, _ :: rest => countFrom find skip rest
  | 0, c :: rest =>
    if find.isPrefixOf (c :: rest) then countFrom find (find.length - 1) rest + 1
    else countFrom find 0 rest

/-- `str::matches(..).count()`. -/
def countMatches (find source : Text) : Nat :=
  if find.isEmpty then source.length + 1 else countFrom find 0 source

/-- `str::replacen(.., 1)`. -/
def replaceFirst (find replacement : Text) : Text → Text
  | [] => if find.isEmpty then replacement else []
  | c :: rest =>
    if find.isPrefixOf (c :: rest) then replacement ++ (c :: rest).drop find.length
    else c :: replaceFirst find replacement rest

def utf8Source (bytes : Bytes) (message : String) : Except String Text :=
  match decodeUtf8 bytes with
  | some source => .ok source
  | none => .error message

/-- The candidate that a replacement makes. -/
def candidateOf (find replacement source : Text) : Bytes :=
  encodeUtf8 (replaceFirst find replacement source)

/-! ### The calls -/

/-- The proposal that a replacement amounts to. -/
def proposalOf (path : Text) (current : Bytes) (find replacement source : Text) : ReplaceTextProposal :=
  { path := path
    expectedBeforeDigest := digest host current
    find := find
    replacement := replacement
    candidateDigest := digest host (candidateOf find replacement source) }

def proposeReplace (path : Text) (current : Bytes) (find replacement : Text) :
    Exec ReplaceTextProposal := do
  guard host prims
  requireState .planned
  authorizePath host prims path
  rejectIf host prims (find.isEmpty = true) "replacement search text must not be empty"
  let source ← ofExcept (utf8Source current "replace-text proposals require UTF-8 input")
  rejectIf host prims (countMatches find source ≠ 1) "replacement search text must occur exactly once"
  let proposal := proposalOf host path current find replacement source
  modifyExecutor fun e =>
    { e with
      proposal := some proposal
      candidateDigest := some proposal.candidateDigest
      state := if e.dryRun then .dryRun else e.state }
  record host prims "proposal_validated" path
  pure proposal

def bindTransaction : Exec PUnit := do
  guard host prims
  requireState .planned
  validateWorkspace host prims
  let state ← workspaceState
  modifyExecutor fun e =>
    { e with transactionId := some state.transactionId, policyDigest := some state.policyDigest }
  record host prims "transaction_bound" state.transactionId

def requireSome (value : Option α) (message : String) : Exec α :=
  ofExcept (match value with
    | some a => .ok a
    | none => .error message)

def applyProposal : Exec PUnit := do
  guard host prims
  let e ← getExecutor
  failIf (e.dryRun = true) "dry-run is side-effect free and cannot apply a proposal"
  requireState .planned
  let proposal ← requireSome e.proposal "no validated proposal exists"
  validateWorkspace host prims
  let content ← onWorkspace (Workspace.read host proposal.path)
  let current ← orCount host prims .environment "workspace_read" content
  countIf host prims (host.digest current ≠ proposal.expectedBeforeDigest) .conflict
    "candidate_base_changed"
    "workspace content differs from the proposed base"
  let source ← ofExcept
    (utf8Source (contentBytes repository current) "workspace content is no longer UTF-8")
  countIf host prims (countMatches proposal.find source ≠ 1) .conflict "candidate_match_changed"
    "replacement search text no longer occurs exactly once"
  let candidate := candidateOf proposal.find proposal.replacement source
  countIf host prims (digest host candidate ≠ proposal.candidateDigest) .policy "candidate_digest_mismatch"
    "proposal does not reproduce its exact candidate digest"
  let written ← onWorkspace (Workspace.write host proposal.path candidate)
  orCount host prims .policy "workspace_write" written
  let state ← workspaceState
  modifyExecutor fun e =>
    { e with
      transactionId := some state.transactionId
      policyDigest := some state.policyDigest
      state := .edited }
  record host prims "proposal_applied" proposal.candidateDigest

def verdictSchemaVersion : Text := "axiom.verification_verdict.v0".toList

/-- The verdict has an entry that speaks against the candidate. -/
def VerificationVerdict.hasFailures (verdict : VerificationVerdict) : Bool :=
  !verdict.missing.isEmpty || !verdict.duplicate.isEmpty || !verdict.invalid.isEmpty ||
    !verdict.failed.isEmpty

/-- The status and the entries of a verdict do not go together. -/
def VerificationVerdict.isContradictory (verdict : VerificationVerdict) : Bool :=
  (verdict.status == .passed && verdict.hasFailures) || (verdict.status == .failed && !verdict.hasFailures)

/-- The state and the event that a verdict leads to. -/
def concludeVerification (verdict : VerificationVerdict) : Exec PUnit := do
  if verdict.status = .failed then do
    modifyExecutor fun e => { e with state := .evidenceFailed }
    record host prims "verification_failed" verdict.planDigest
  else do
    modifyExecutor fun e => { e with state := .verificationPassed }
    record host prims "verification_passed" verdict.planDigest

def submitVerification (verdict : VerificationVerdict) : Exec PUnit := do
  guard host prims
  requireState .edited
  validateWorkspace host prims
  let e ← getExecutor
  countIf host prims (verdict.schemaVersion ≠ verdictSchemaVersion ∨ isDigest verdict.planDigest = false ∨
      isSha verdict.sourceHeadSha = false ∨ isSha verdict.deliveredHeadSha = false)
    .evidence "verification_schema" "unsupported verification verdict schema"
  countIf host prims (verdict.sourceHeadSha ≠ e.baseSha) .conflict "verification_base"
    "verification verdict is bound to another source head"
  countIf host prims (verdict.deliveredHeadSha = e.baseSha) .evidence "verification_unchanged_head"
    "verification must cover a delivered head containing the candidate edit"
  let proposal ← requireSome e.proposal "verification requires an applied proposal"
  let authorized ← onWorkspace (authorizeVerifiedCandidateCommit host repository proposal.path
    verdict.deliveredHeadSha proposal.candidateDigest)
  orCount host prims .evidence "candidate_head_proof" authorized
  let transactionId ← requireSome e.transactionId "executor is not transaction-bound"
  let policyDigest ← requireSome e.policyDigest "executor is not policy-bound"
  modifyExecutor fun e =>
    { e with
      verification := some verdict
      candidateBinding := some (.new host proposal.candidateDigest verdict.deliveredHeadSha transactionId
        policyDigest verdict.planDigest) }
  escalateIf host prims (verdict.isContradictory = true) "verification_contradictory" verdict.planDigest
    "contradictory verification evidence requires escalation"
  concludeVerification host prims verdict

/-- The evidence is about another plan, head or transaction. -/
def deliveryMismatch (evidence : SignedDeliveryEvidence) (verification : VerificationVerdict)
    (binding : CandidateBinding) : Bool :=
  evidence.planDigest != verification.planDigest ||
    evidence.deliveredHeadSha != verification.deliveredHeadSha ||
    evidence.transactionId != binding.transactionId || evidence.policyDigest != binding.policyDigest ||
    !isSha evidence.deliveredHeadSha

/-- `submit_delivery`, at the time `now`. -/
def submitDelivery (evidence : SignedDeliveryEvidence) (provider : TrustedDeliveryEvidenceProvider)
    (now : Nat) : Exec PUnit := do
  guard host prims
  requireState .verificationPassed
  validateWorkspace host prims
  orCount host prims .evidence "delivery_provider" (provider.verify prims now evidence)
  let e ← getExecutor
  countIf host prims (e.candidateDigest ≠ some evidence.candidateDigest) .conflict "delivery_candidate"
    "delivery verdict is bound to another candidate"
  let verification ← requireSome e.verification "delivery recheck requires a verification verdict"
  let binding ← requireSome e.candidateBinding "delivery recheck requires a candidate binding"
  countIf host prims (deliveryMismatch evidence verification binding = true) .evidence "delivery_binding"
    "delivery verdict is not bound to the verified plan and head"
  modifyExecutor fun e => { e with delivery := some evidence, state := .resolved }
  record host prims "resolved" evidence.candidateDigest

/-- The executor after the transaction was aborted, or could not be. -/
def concludeRollback : Except String PUnit → Exec PUnit
  | .ok _ => do
    modifyExecutor fun e => { e with rollback := .succeeded, state := .rolledBack }
    let state ← workspaceState
    record host prims "rolled_back" state.transactionId
  | .error message => do
    modifyExecutor fun e => { e with rollback := .failed, state := .escalated }
    attempt (record host prims "rollback_failed" message.toList)
    throw (.error message)

def rollback : Exec PUnit := do
  guard host prims
  let e ← getExecutor
  failIf (e.state = .resolved ∨ e.state = .dryRun ∨ e.state = .rolledBack)
    "executor state cannot be rolled back"
  validateWorkspace host prims
  let aborted ← onWorkspace (Workspace.abort host)
  concludeRollback host prims aborted

def chargeBudget (usage : BudgetUsage) : Exec PUnit := do
  guard host prims
  ensureNonterminal
  let e ← getExecutor
  let consumed := e.budgets.consumed
  failIf (consumed.timeSeconds + usage.timeSeconds ≥ 2 ^ 64) "time budget overflow"
  failIf (consumed.tokens + usage.tokens ≥ 2 ^ 64) "token budget overflow"
  failIf (consumed.retries + usage.retries ≥ 2 ^ 32) "retry budget overflow"
  failIf (consumed.costUsdMicros + usage.costUsdMicros ≥ 2 ^ 64) "cost budget overflow"
  let next : BudgetUsage := ⟨consumed.timeSeconds + usage.timeSeconds, consumed.tokens + usage.tokens,
    consumed.retries + usage.retries, consumed.costUsdMicros + usage.costUsdMicros⟩
  escalateIf host prims (exceeds next e.budgets.limits = true) "budget_exhausted" "execution".toList
    "execution budget exhausted; escalation required"
  modifyExecutor fun e => { e with budgets := { e.budgets with consumed := next } }
  record host prims "budget_charged" "execution".toList

def interrupt : Exec PUnit := do
  guard host prims
  ensureNonterminal
  let e ← getExecutor
  failIf (e.state = .interrupted) "executor is already interrupted"
  modifyExecutor fun e => { e with interruptedFrom := some e.state, state := .interrupted }
  record host prims "interrupted" e.state.debug.toList

def resume : Exec PUnit := do
  guard host prims
  requireState .interrupted
  let e ← getExecutor
  let restored ← requireSome e.interruptedFrom "interrupted executor is missing its prior state"
  modifyExecutor fun e => { e with interruptedFrom := none, state := restored }
  record host prims "resumed" "execution".toList

/-! ### Creation -/

def taskSchemaVersion : Text := "axiom.agent_task.v0".toList

def executorSchemaVersion : Text := "axiom.bounded_executor.v0".toList

def resumeSchemaVersion : Text := "axiom.executor_resume.v0".toList

def DeliveryPermissions.any (permissions : DeliveryPermissions) : Bool :=
  permissions.commit || permissions.push || permissions.pullRequest || permissions.merge ||
    permissions.review || permissions.deploy || permissions.approveOwnPullRequest ||
    permissions.forcePush || permissions.directPushProtected || permissions.irreversibleActions

/-- The scope of a repair plan is empty or goes beyond the task. -/
def repairEscapes (contract : AgentTaskContract) : Bool :=
  contract.repairAllowedFiles.any fun allowed =>
    allowed.isEmpty || allowed.any fun path => !contract.allowedFiles.contains path

def validateContract (contract : AgentTaskContract) : Except String Unit := do
  reject (contract.schemaVersion ≠ taskSchemaVersion) "unsupported agent task contract schema"
  reject (isDigest contract.contractDigest = false) digestMessage
  reject (digest host (prims.contractBytes { contract with contractDigest := [] }) ≠
    contract.contractDigest) "agent task contract digest mismatch"
  reject (contract.allowedFiles = []) "task has no allowed files"
  reject (repairEscapes contract = true)
    "repair-plan scope is not a non-empty task-scope subset"
  reject (contract.deliveryPermissions.any = true)
    "bounded executor refuses delivery or irreversible authority"

def executorShaMessage : String := "base SHA must be 40 lowercase hexadecimal characters"

def validateRetryPolicy (policy : RetryPolicy) : Except String Unit := do
  reject (.unknown ∈ policy.approvedCauses ∨ .policy ∈ policy.approvedCauses)
    "unknown and policy failures may never be approved for retry"
  reject (¬ policy.approvedCauses.Nodup) "retry policy contains duplicate causes"

def authorizedRetryCauses (contract : AgentTaskContract) : List FailureCause :=
  [("executor.retry.code", FailureCause.code), ("executor.retry.evidence", .evidence),
    ("executor.retry.environment", .environment), ("executor.retry.conflict", .conflict)].filterMap
    fun (name, cause) => if contract.requiredCapabilities.contains name.toList then some cause else none

/-- A planned executor, before its first event. -/
def planned (contract : AgentTaskContract) (baseSha : Text) (dryRun : Bool) (retryPolicy : RetryPolicy)
    (sealKey : ExecutorSealKey) : BoundedExecutor :=
  { schemaVersion := executorSchemaVersion
    taskContractDigest := contract.contractDigest
    baseSha := baseSha
    dryRun := dryRun
    state := .planned
    budgets := ⟨contract.budgets, .zero⟩
    proposal := none
    candidateDigest := none
    verification := none
    candidateBinding := none
    delivery := none
    transactionId := none
    policyDigest := none
    rollback := .notRequired
    failures := []
    events := []
    stateDigest := emptyDigest host
    sealKeyId := sealKey.keyId
    sealMac := []
    sealKey := some sealKey
    retryPolicy := retryPolicy
    allowedFiles := contract.allowedFiles
    repairAllowedFiles := contract.repairAllowedFiles
    interruptedFrom := none }

def newWithRetryPolicy (contract : AgentTaskContract) (baseSha : Text) (dryRun : Bool)
    (retryPolicy : RetryPolicy) (sealKey : ExecutorSealKey) : Except String BoundedExecutor := do
  reject (isSha baseSha = false) executorShaMessage
  validateContract host prims contract
  validateRetryPolicy retryPolicy
  reject (∃ cause ∈ retryPolicy.approvedCauses, cause ∉ authorizedRetryCauses contract)
    "retry policy is not authorized by the signed task contract"
  reject (contract.sourceRevision ≠ baseSha)
    "task authority source_revision does not match executor base SHA"
  let e := (planned host contract baseSha dryRun retryPolicy sealKey).withEvent host prims
    "planned".toList contract.id
  let mac ← e.computeSeal prims
  .ok { e with sealMac := mac }

/-! ### Recovery -/

structure ExecutorResumeRequest where
  schemaVersion : Text
  executorStateMac : Text
  sealKeyId : Text
  taskContractDigest : Text
  transactionId : Text
  transactionDigest : Text
  candidateDigest : Option Text
  remainingBudgets : BudgetUsage
  nextEventSequence : Nat

def remainingBudgets : Except String BudgetUsage := do
  let limits := e.budgets.limits
  let consumed := e.budgets.consumed
  reject (limits.timeSeconds < consumed.timeSeconds) "invalid time consumption"
  reject (limits.tokens < consumed.tokens) "invalid token consumption"
  reject (limits.retries < consumed.retries) "invalid retry consumption"
  reject (limits.costUsdMicros < consumed.costUsdMicros) "invalid cost consumption"
  .ok ⟨limits.timeSeconds - consumed.timeSeconds, limits.tokens - consumed.tokens,
    limits.retries - consumed.retries, limits.costUsdMicros - consumed.costUsdMicros⟩

def resumeMessage : String := "resume request does not match sealed executor state"

def checkResumeRequest (request : ExecutorResumeRequest)
    (state : TransactionState) (sealKey : ExecutorSealKey) : Except String Unit := do
  reject (request.schemaVersion ≠ resumeSchemaVersion ∨ request.executorStateMac ≠ e.sealMac ∨
    request.sealKeyId ≠ e.sealKeyId ∨ request.sealKeyId ≠ sealKey.keyId ∨
    request.taskContractDigest ≠ e.taskContractDigest ∨ request.transactionId ≠ state.transactionId ∨
    request.transactionDigest ≠ state.policyDigest ∨ request.candidateDigest ≠ e.candidateDigest)
    resumeMessage
  let remaining ← remainingBudgets e
  reject (request.remainingBudgets ≠ remaining ∨ request.nextEventSequence ≠ e.events.length)
    resumeMessage

def checkProposalScope : Except String Unit :=
  match e.proposal with
  | none => .ok ()
  | some proposal => do
    reject (isDigest proposal.expectedBeforeDigest = false) digestMessage
    reject (isDigest proposal.candidateDigest = false) digestMessage
    reject (proposal.path ∉ e.allowedFiles ∨ outsideRepair e proposal.path = true)
      "serialized proposal escapes approved task scope"

/-- The checks of `recover` on an executor that already has its key. -/
def checkRecovered (request : ExecutorResumeRequest) (contract : AgentTaskContract)
    (state : TransactionState) (sealKey : ExecutorSealKey) : Except String Unit := do
  checkResumeRequest e request state sealKey
  reject (e.schemaVersion ≠ executorSchemaVersion ∨
    e.taskContractDigest ≠ contract.contractDigest ∨ e.baseSha ≠ state.baseSha ∨
    e.budgets.limits ≠ contract.budgets ∨ e.allowedFiles ≠ contract.allowedFiles ∨
    e.repairAllowedFiles ≠ contract.repairAllowedFiles)
    "executor state authority does not match the approved task contract"
  reject (state.taskContractDigest ≠ e.taskContractDigest ∨
    e.transactionId ≠ some state.transactionId ∨ e.policyDigest ≠ some state.policyDigest)
    "executor recovery does not match the transaction binding"
  reject (exceeds e.budgets.consumed e.budgets.limits = true)
    "executor state contains widened budget consumption"
  reject (e.state = .interrupted ∧ e.interruptedFrom = none)
    "interrupted executor is missing its prior state"
  reject (e.state ≠ .interrupted ∧ e.interruptedFrom ≠ none)
    "non-interrupted executor contains stale recovery state"
  checkProposalScope e
  e.validateIntegrity host prims

/-- `recover`; the stored form is given as what `serde_json` makes of it. -/
def recover (stored : Except String BoundedExecutor) (request : ExecutorResumeRequest)
    (contract : AgentTaskContract) (sealKey : ExecutorSealKey) : Exec PUnit := do
  ofExcept (validateContract host prims contract)
  let state ← workspaceState
  failIf (isSha state.baseSha = false) executorShaMessage
  let e ← ofExcept stored
  let e := { e with sealKey := some sealKey }
  ofExcept (checkRecovered host prims e request contract state sealKey)
  modifyExecutor fun _ => e

/-! ### Sequences of calls -/

inductive Call where
  | proposeReplace (path : Text) (current : Bytes) (find replacement : Text)
  | bindTransaction
  | applyProposal
  | submitVerification (verdict : VerificationVerdict)
  | submitDelivery (evidence : SignedDeliveryEvidence) (provider : TrustedDeliveryEvidenceProvider)
      (now : Nat)
  | rollback
  | chargeBudget (usage : BudgetUsage)
  | retryFailure (cause : FailureCause) (code message : Text)
  | interrupt
  | resume
  | recover (stored : Except String BoundedExecutor) (request : ExecutorResumeRequest)
      (contract : AgentTaskContract) (sealKey : ExecutorSealKey)

def Call.exec : Call → Exec PUnit
  | .proposeReplace path current find replacement => do
    let _ ← Executor.proposeReplace host prims path current find replacement
  | .bindTransaction => Executor.bindTransaction host prims
  | .applyProposal => Executor.applyProposal host repository prims
  | .submitVerification verdict => Executor.submitVerification host repository prims verdict
  | .submitDelivery evidence provider now => Executor.submitDelivery host prims evidence provider now
  | .rollback => Executor.rollback host prims
  | .chargeBudget usage => Executor.chargeBudget host prims usage
  | .retryFailure cause code message => Executor.retryFailure host prims cause code message
  | .interrupt => Executor.interrupt host prims
  | .resume => Executor.resume host prims
  | .recover stored request contract sealKey => Executor.recover host prims stored request contract sealKey

/-- A call, and the transaction it is given, in whatever condition that is. -/
structure Step where
  call : Call
  workspace : Session

/-- The executor after a call.  If the process ends inside the transaction, the executor is as it was. -/
def step (s : Step) : BoundedExecutor :=
  match exec (s.call.exec host repository prims) ⟨e, s.workspace⟩ with
  | (.error .crash, _) => e
  | (_, machine) => machine.executor

def run (steps : List Step) : BoundedExecutor :=
  steps.foldl (step host repository prims) e

end Axiomc.Executor
