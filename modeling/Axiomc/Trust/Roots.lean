import Axiomc.Trust.Keys

/-!
# Work budgets and the root transition

`validate_document_work_budget` and `validate_trust_root_transition` of `package_trust.rs`.

The budget walks a stack of values.  Whether it accepts does not depend on the order of the walk: each
value is checked on its own, and the bytes are summed up to one limit.  Here the sum is computed along
the value, with `none` for a value that breaks a limit.
-/

namespace Axiomc.Trust

open Foundation Std Collect

/-! ### Work budgets -/

def maxDocumentBytes : Nat := 8 * 1024 * 1024

def maxDocumentDepth : Nat := 128

/-- `str::contains`. -/
def containsPart (name : Text) (part : String) : Bool :=
  name.tails.any fun rest => part.toList.isPrefixOf rest

/-- The bound on the bytes of a string, by the name of the field it stands in. -/
def stringLimit (name : Text) : Nat :=
  if name ∈ ["bytes_hex".toList, "canonical_bytes_hex".toList] then maxDocumentBytes
  else if ["path", "text", "message", "reason", "invocation", "snapshot"].any (containsPart name) then
    4096
  else if ["uri", "source", "publisher", "registry", "identity"].any (containsPart name) ||
      name ∈ ["buildType".toList, "build_type".toList, "builder".toList] then
    2048
  else if name ∈ ["namespace".toList, "version".toList, "role_id".toList, "delegated_by".toList,
      "display_name".toList, "field_order".toList] then
    256
  else 4096

/-- The bounds on the items of an array, by the name of the field it stands in. -/
def arrayLimits : List (String × Nat) :=
  [("signatures", 16), ("candidate_signatures_by_old_root", 16),
    ("candidate_signatures_by_new_root", 16), ("required_key_ids", 16), ("key_ids", 128),
    ("supersedes_key_ids", 128), ("keys", 128), ("roles", 64), ("namespace_grants", 2048),
    ("releases", 1024), ("subject", 1024), ("resolvedDependencies", 1024),
    ("builderDependencies", 1024), ("byproducts", 1024), ("seen_snapshots", 10000)]

def arrayLimit (name : Text) : Nat :=
  ((arrayLimits.find? fun entry => entry.1.toList == name).map Prod.snd).getD maxDocumentBytes

mutual

/-- The estimated bytes of a value in the field `name` at `depth`. -/
def estimate (name : Text) (depth : Nat) : Value → Option Nat
  | .null | .bool _ => if depth > maxDocumentDepth then none else some 1
  | .number n =>
    if depth > maxDocumentDepth then none
    else if containsPart name "threshold" &&
        (number (.number n)).all (fun threshold => threshold.toNat > 16) then none
    else some 1
  | .string value =>
    if depth > maxDocumentDepth || (encodeUtf8 value).length > stringLimit name then none
    else some (1 + (encodeUtf8 value).length)
  | .array items =>
    if depth > maxDocumentDepth || items.length > arrayLimit name then none
    else (estimateItems name (depth + 1) items).map (1 + ·)
  | .object entries =>
    if depth > maxDocumentDepth || entries.length > 128 then none
    else (estimateEntries (depth + 1) entries).map (1 + ·)

def estimateItems (name : Text) (depth : Nat) : List Value → Option Nat
  | [] => some 0
  | item :: rest => do
    let first ← estimate name depth item
    let others ← estimateItems name depth rest
    some (first + others)

def estimateEntries (depth : Nat) : List (Text × Value) → Option Nat
  | [] => some 0
  | (key, value) :: rest =>
    if (encodeUtf8 key).length > 256 then none
    else do
      let first ← estimate key depth value
      let others ← estimateEntries depth rest
      some ((encodeUtf8 key).length + first + others)

end

def withinLimit (value : Value) (fieldName : String) (limit : Nat) : Bool :=
  (field value fieldName).asArray.all fun items => items.length ≤ limit

/-- The limits of one root. -/
def rootWithinLimits (signed : Value) : Bool :=
  withinLimit signed "keys" 128 && withinLimit signed "roles" 64 &&
    withinLimit signed "namespace_grants" 2048 &&
    (field signed "roles").items.all fun role => withinLimit role "key_ids" 128

def kindWithinLimits (value : Value) : DocumentKind → Bool
  | .package => withinLimit value "signatures" 16
  | .index =>
    withinLimit value "signatures" 16 && withinLimit (field value "signed") "releases" 1024
  | .expectation => withinLimit (field value "required_signers") "required_key_ids" 16
  | .roots =>
    let trustedRoot := field value "trusted_root"
    let candidateRoot := field value "candidate_root"
    let transition := field value "transition"
    rootWithinLimits (field trustedRoot "signed") && rootWithinLimits (field candidateRoot "signed") &&
      withinLimit trustedRoot "signatures" 16 && withinLimit candidateRoot "signatures" 16 &&
      withinLimit transition "candidate_signatures_by_old_root" 16 &&
      withinLimit transition "candidate_signatures_by_new_root" 16

def validateDocumentWorkBudget (value : Value) (kind : DocumentKind) : Bool :=
  (estimate [] 0 value).any (· ≤ maxDocumentBytes) && kindWithinLimits value kind

variable (prim : Primitives)

/-- `parse_schema_document`; its error texts are read by no caller here. -/
def parseSchemaDocument (bytes : Bytes) (kind : DocumentKind) : Option Value :=
  if bytes.length > maxDocumentBytes then none
  else
    match prim.parseStrictValue bytes with
    | none => none
    | some value =>
      if validateDocumentWorkBudget value kind && prim.matchesSchema kind value then some value
      else none

/-! ### The root transition -/

structure RootValidation where
  verificationTime : Timestamp
  candidateKeys : KeyMap
  fingerprints : TreeMap Text Text byteOrder
  candidateRoles : RoleMap
  oldVersion : Option UInt64
  candidateVersion : Option UInt64
  candidateSequence : Option UInt64

/-- The bytes of a transcript, none of them when it cannot be built. -/
def transcriptOr (domain : Domain) (signed : Value) (code : ReasonCode) : Checked Bytes :=
  match metadataTranscript prim domain signed with
  | some raw => pure raw
  | none => do
    fail code
    pure []

/-- The anchor of the trusted state names this root. -/
def bootstrapMatches (anchor : Value) (oldVersion oldSequence : Option UInt64) (oldRaw : Bytes) :
    Bool :=
  (object anchor).any fun entries =>
    entries.length == 3 && number (field anchor "root_version") == oldVersion &&
      number (field anchor "root_sequence") == oldSequence &&
      text (field anchor "root_transcript_sha256") == some (sha256 prim oldRaw)

/-- The candidate is the next version of the old root, in time. -/
def validRotation (oldSigned candidateSigned transition : Value) (verificationTime : Timestamp) :
    Bool :=
  match number (field oldSigned "root_version"), number (field oldSigned "sequence"),
      number (field candidateSigned "root_version"), number (field candidateSigned "sequence"),
      timestamp (field oldSigned "issued_at"), timestamp (field oldSigned "expires_at"),
      timestamp (field candidateSigned "issued_at"),
      timestamp (field candidateSigned "expires_at") with
  | some oldVersion, some oldSequence, some candidateVersion, some candidateSequence,
      some oldIssued, some oldExpiry, some candidateIssued, some candidateExpiry =>
    oldVersion.toNat + 1 == candidateVersion.toNat && candidateSequence > oldSequence &&
      number (field transition "from_version") == some oldVersion &&
      number (field transition "to_version") == some candidateVersion &&
      oldIssued ≤ candidateIssued && candidateIssued < oldExpiry &&
      candidateIssued < candidateExpiry && candidateIssued ≤ verificationTime
  | _, _, _, _, _, _, _, _ => false

/-- Whether `candidate` is below the larger of two recorded marks; a missing mark does not count. -/
def belowMarks (candidate first second : Option UInt64) : Bool :=
  candidate.any fun candidate => first.any (candidate < ·) || second.any (candidate < ·)

/-- Equality of the sets that two lists stand for. -/
def sameMembers (a b : List Text) : Bool := a.all b.contains && b.all a.contains

def validateTrustRootTransition (roots expectation : Value) : Checked RootValidation := do
  let verificationTime := (timestamp (field expectation "verification_time")).getD maxTimestamp
  let trustedState := field expectation "trusted_state"
  let offline := field expectation "offline_lock"
  let trustedRoot := field roots "trusted_root"
  let candidateRoot := field roots "candidate_root"
  let transition := field roots "transition"
  let oldSigned := field trustedRoot "signed"
  let candidateSigned := field candidateRoot "signed"
  let oldScan ← keyMaps prim oldSigned
  let candidateScan ← keyMaps prim candidateSigned
  validateKeySupersession oldScan.keys
  validateKeySupersession candidateScan.keys
  let oldRoles ← roleMaps oldSigned oldScan.keys
  let candidateRoles ← roleMaps candidateSigned candidateScan.keys
  let oldRaw ← transcriptOr prim .root oldSigned .rootDigestMismatch
  let candidateRaw ← transcriptOr prim .root candidateSigned .rootDigestMismatch
  note (¬ transcriptMatches prim trustedRoot oldRaw ∨
    ¬ transcriptMatches prim candidateRoot candidateRaw) .rootDigestMismatch
  let oldVersion := number (field oldSigned "root_version")
  let oldSequence := number (field oldSigned "sequence")
  let candidateVersion := number (field candidateSigned "root_version")
  let candidateSequence := number (field candidateSigned "sequence")
  note (¬ bootstrapMatches prim (field trustedState "trusted_root_anchor") oldVersion oldSequence
    oldRaw) .rootBootstrapMismatch
  note (¬ validRotation oldSigned candidateSigned transition verificationTime) .rootRotationInvalid
  let oldExpiry := timestamp (field oldSigned "expires_at")
  let candidateIssued := timestamp (field candidateSigned "issued_at")
  let candidateExpiry := timestamp (field candidateSigned "expires_at")
  note ((oldExpiry.any fun expiry => candidateIssued.any fun issued => expiry ≤ issued) ∨
    candidateExpiry.any fun expiry => expiry ≤ verificationTime) .metadataExpired
  let oldEvidence : SignatureEvidence :=
    { role := oldRoles["root".toList]?, keys := oldScan.keys, message := oldRaw
      sequence := oldSequence.getD 0, verificationTime := verificationTime, context := .root }
  let newEvidence : SignatureEvidence :=
    { role := candidateRoles["root".toList]?, keys := candidateScan.keys, message := candidateRaw
      sequence := candidateSequence.getD 0, verificationTime := verificationTime, context := .root }
  let _ ← signatureEvidence prim (field trustedRoot "signatures") oldEvidence
  let oldValid ← signatureEvidence prim (field transition "candidate_signatures_by_old_root")
    { oldEvidence with message := candidateRaw, sequence := candidateSequence.getD 0 }
  let newValid ← signatureEvidence prim (field transition "candidate_signatures_by_new_root")
    newEvidence
  let candidateValid ← signatureEvidence prim (field candidateRoot "signatures") newEvidence
  note (¬ sameMembers newValid.keyIds candidateValid.keyIds ∨ oldValid.keyIds = [] ∨
    newValid.keyIds = []) .rootThresholdNotMet
  note (belowMarks candidateVersion (number (field trustedState "highest_root_version"))
      (number (field offline "root_version")) ∨
    belowMarks candidateSequence (number (field trustedState "highest_root_sequence"))
      (number (field offline "root_sequence"))) .rootRollback
  pure
    { verificationTime := verificationTime, candidateKeys := candidateScan.keys
      fingerprints := candidateScan.fingerprints, candidateRoles := candidateRoles
      oldVersion := oldVersion, candidateVersion := candidateVersion
      candidateSequence := candidateSequence }

end Axiomc.Trust
