import Axiomc.Workspace.CandidateCommit

/-!
# The bounded executor: state

`bounded_executor.rs` carries out one approved task: a proposed edit of one file is validated, applied
through a transaction, verified and delivered.  Its state can be stored and restored, and is sealed.

* `BoundedExecutor`: the state, with its chain of events and its seal;
* `Primitives`: encodings and the message authentication code;
* `validateChain`, `validateIntegrity`: what is checked before every call;
* `TrustedDeliveryEvidenceProvider.verify`: when delivery evidence is accepted.
-/

namespace Axiomc.Executor

open Foundation Workspace

/-! ### Data -/

inductive ExecutionState where
  | planned
  | dryRun
  | edited
  | evidenceFailed
  | verificationPassed
  | resolved
  | rolledBack
  | rejected
  | escalated
  | interrupted
  deriving DecidableEq

inductive FailureCause where
  | code
  | evidence
  | environment
  | conflict
  | policy
  | unknown
  deriving DecidableEq

/-- The name of a state as `{:?}` prints it. -/
def ExecutionState.debug : ExecutionState → String
  | planned => "Planned"
  | dryRun => "DryRun"
  | edited => "Edited"
  | evidenceFailed => "EvidenceFailed"
  | verificationPassed => "VerificationPassed"
  | resolved => "Resolved"
  | rolledBack => "RolledBack"
  | rejected => "Rejected"
  | escalated => "Escalated"
  | interrupted => "Interrupted"

/-- The name of a cause as `{:?}` prints it. -/
def FailureCause.debug : FailureCause → String
  | code => "Code"
  | evidence => "Evidence"
  | environment => "Environment"
  | conflict => "Conflict"
  | policy => "Policy"
  | unknown => "Unknown"

structure Budgets where
  timeSeconds : Nat
  tokens : Nat
  retries : Nat
  costUsdMicros : Nat
  deriving DecidableEq

structure BudgetUsage where
  timeSeconds : Nat
  tokens : Nat
  retries : Nat
  costUsdMicros : Nat
  deriving DecidableEq

def BudgetUsage.zero : BudgetUsage := ⟨0, 0, 0, 0⟩

def exceeds (usage : BudgetUsage) (limits : Budgets) : Bool :=
  decide (usage.timeSeconds > limits.timeSeconds ∨ usage.tokens > limits.tokens ∨
    usage.retries > limits.retries ∨ usage.costUsdMicros > limits.costUsdMicros)

structure ExecutorBudgets where
  limits : Budgets
  consumed : BudgetUsage

structure ReplaceTextProposal where
  path : Text
  expectedBeforeDigest : Text
  find : Text
  replacement : Text
  candidateDigest : Text
  deriving DecidableEq

structure ExecutionFailure where
  cause : FailureCause
  fingerprint : Text
  message : Text
  attempt : Nat

structure ExecutionEvent where
  sequence : Nat
  kind : Text
  detail : Text
  state : ExecutionState
  budgetUsage : BudgetUsage
  candidateDigest : Option Text
  previousDigest : Text
  eventDigest : Text

structure SignedDeliveryEvidence where
  providerId : Text
  candidateDigest : Text
  planDigest : Text
  deliveredHeadSha : Text
  transactionId : Text
  policyDigest : Text
  fetchedAtEpochSeconds : Nat
  requiredChecksPassed : Bool
  reviewSatisfied : Bool
  conversationsResolved : Bool
  evidenceMac : Text

structure ExecutorSealKey where
  keyId : Text
  secret : Bytes

structure DeliveryEvidenceKey where
  providerId : Text
  secret : Bytes

structure TrustedDeliveryEvidenceProvider where
  key : DeliveryEvidenceKey
  maxAgeSeconds : Nat

inductive VerdictStatus where
  | passed
  | failed
  deriving DecidableEq

structure VerificationVerdict where
  schemaVersion : Text
  planDigest : Text
  status : VerdictStatus
  sourceHeadSha : Text
  deliveredHeadSha : Text
  missing : List Text
  duplicate : List Text
  invalid : List Text
  failed : List Text

structure CandidateBinding where
  candidateDigest : Text
  deliveredHeadSha : Text
  transactionId : Text
  policyDigest : Text
  planDigest : Text
  bindingDigest : Text

structure RetryPolicy where
  approvedCauses : List FailureCause

inductive RollbackOutcome where
  | notRequired
  | succeeded
  | failed
  deriving DecidableEq

structure DeliveryPermissions where
  commit : Bool
  push : Bool
  pullRequest : Bool
  review : Bool
  merge : Bool
  deploy : Bool
  approveOwnPullRequest : Bool
  forcePush : Bool
  directPushProtected : Bool
  irreversibleActions : Bool

/-- The fields of a task contract that the executor reads. -/
structure AgentTaskContract where
  schemaVersion : Text
  contractDigest : Text
  id : Text
  sourceRevision : Text
  allowedFiles : List Text
  requiredCapabilities : List Text
  budgets : Budgets
  deliveryPermissions : DeliveryPermissions
  repairAllowedFiles : Option (List Text)

structure BoundedExecutor where
  schemaVersion : Text
  taskContractDigest : Text
  baseSha : Text
  dryRun : Bool
  state : ExecutionState
  budgets : ExecutorBudgets
  proposal : Option ReplaceTextProposal
  candidateDigest : Option Text
  verification : Option VerificationVerdict
  candidateBinding : Option CandidateBinding
  delivery : Option SignedDeliveryEvidence
  transactionId : Option Text
  policyDigest : Option Text
  rollback : RollbackOutcome
  failures : List ExecutionFailure
  events : List ExecutionEvent
  stateDigest : Text
  sealKeyId : Text
  sealMac : Text
  sealKey : Option ExecutorSealKey
  retryPolicy : RetryPolicy
  allowedFiles : List Text
  repairAllowedFiles : Option (List Text)
  interruptedFrom : Option ExecutionState

/-! ### Digests and seals -/

/-- The encodings and the authentication code that the executor relies on. -/
structure Primitives where
  /-- `serde_json` of what an event digest covers: sequence, kind, detail, state, budget usage, candidate
  and the digest before. -/
  eventBytes : Nat → Text → Text → ExecutionState → BudgetUsage → Option Text → Text → Bytes
  /-- `serde_json` of an executor; the key is not a part of it. -/
  executorBytes : BoundedExecutor → Bytes
  /-- `serde_json` of delivery evidence. -/
  evidenceBytes : SignedDeliveryEvidence → Bytes
  /-- `serde_json` of a task contract. -/
  contractBytes : AgentTaskContract → Bytes
  /-- HMAC-SHA256 in hexadecimal digits. -/
  hmacHex : Bytes → Bytes → Text

variable (host : Host) (prims : Primitives)

def digest (bytes : Bytes) : Text := host.digest (.raw bytes)

def emptyDigest : Text := digest host []

def hmacDigest (key : Bytes) (domain : String) (payload : Bytes) : Text :=
  "hmac-sha256:".toList ++ prims.hmacHex key (encodeUtf8 domain.toList ++ [0] ++ payload)

def hmacMatches (key : Bytes) (domain : String) (payload : Bytes) (provided : Text) : Bool :=
  "hmac-sha256:".toList.isPrefixOf provided && hmacDigest prims key domain payload == provided

def deliveryEvidenceDomain : String := "axiom-delivery-evidence-v0"

def executorStateDomain : String := "axiom-executor-state-v0"

def eventDigest (event : ExecutionEvent) (previous : Text) : Text :=
  digest host (prims.eventBytes event.sequence event.kind event.detail event.state event.budgetUsage
    event.candidateDigest previous)

/-- `verify`, at the time `now`. -/
def TrustedDeliveryEvidenceProvider.verify (provider : TrustedDeliveryEvidenceProvider) (now : Nat)
    (evidence : SignedDeliveryEvidence) : Except String Unit := do
  reject (evidence.providerId ≠ provider.key.providerId) "untrusted delivery evidence provider"
  reject (hmacMatches prims provider.key.secret deliveryEvidenceDomain
      (prims.evidenceBytes { evidence with evidenceMac := [] }) evidence.evidenceMac = false)
    "delivery evidence MAC mismatch"
  reject (evidence.fetchedAtEpochSeconds > now ∨
      now - evidence.fetchedAtEpochSeconds > provider.maxAgeSeconds)
    "delivery evidence is stale or future-dated"
  reject (evidence.requiredChecksPassed = false ∨ evidence.reviewSatisfied = false ∨
      evidence.conversationsResolved = false)
    "delivery evidence is not satisfactory"

def candidateBindingDigest (candidate head transaction policy plan : Text) : Text :=
  digest host (encodeUtf8 (['\x00'].intercalate [candidate, head, transaction, policy, plan]))

def CandidateBinding.new (candidate head transaction policy plan : Text) : CandidateBinding :=
  ⟨candidate, head, transaction, policy, plan,
    candidateBindingDigest host candidate head transaction policy plan⟩

namespace BoundedExecutor

variable (e : BoundedExecutor)

def computeSeal : Except String Text :=
  match e.sealKey with
  | none => .error "executor seal key is unavailable"
  | some key => do
    reject (key.keyId ≠ e.sealKeyId) "executor seal key ID mismatch"
    .ok (hmacDigest prims key.secret executorStateDomain (prims.executorBytes { e with sealMac := [] }))

def usageDecreases (before after : BudgetUsage) : Bool :=
  decide (after.timeSeconds < before.timeSeconds ∨ after.tokens < before.tokens ∨
    after.retries < before.retries ∨ after.costUsdMicros < before.costUsdMicros)

/-- The loop of `validate_chain`: the digest of the last event. -/
def validateEvents : Nat → Text → BudgetUsage → List ExecutionEvent → Except String Text
  | _, previous, _, [] => .ok previous
  | index, previous, usage, event :: events => do
    reject (event.sequence ≠ index ∨ event.previousDigest ≠ previous)
      "executor event chain is discontinuous"
    reject (usageDecreases usage event.budgetUsage = true) "executor event budgets are not monotonic"
    reject (event.eventDigest ≠ eventDigest host prims event previous) "executor event digest mismatch"
    validateEvents (index + 1) (eventDigest host prims event previous) event.budgetUsage events

/-- The last event was recorded in the present state. -/
def matchesLast : Bool :=
  match e.events.getLast? with
  | none => true
  | some last => decide (last.state = e.state ∧ last.budgetUsage = e.budgets.consumed ∧
      last.candidateDigest = e.candidateDigest)

def validateChain : Except String Unit := do
  let last ← validateEvents host prims 0 (emptyDigest host) .zero e.events
  reject (e.stateDigest ≠ last) "executor state digest mismatch"
  reject (e.matchesLast = false) "executor state does not match its final chained snapshot"

def validateIntegrity : Except String Unit := do
  validateChain host prims e
  let expected ← computeSeal prims e
  reject (e.sealMac ≠ expected) "executor authority-state seal mismatch"

/-- The event that `record` adds. -/
def nextEvent (kind detail : Text) : ExecutionEvent :=
  let event : ExecutionEvent :=
    { sequence := e.events.length
      kind := kind
      detail := detail
      state := e.state
      budgetUsage := e.budgets.consumed
      candidateDigest := e.candidateDigest
      previousDigest := e.stateDigest
      eventDigest := [] }
  { event with eventDigest := eventDigest host prims event e.stateDigest }

/-- The executor with an event more, not yet sealed. -/
def withEvent (kind detail : Text) : BoundedExecutor :=
  let event := nextEvent host prims e kind detail
  { e with events := e.events ++ [event], stateDigest := event.eventDigest }

end BoundedExecutor

end Axiomc.Executor
