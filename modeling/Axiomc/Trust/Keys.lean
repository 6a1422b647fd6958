import Axiomc.Foundation.Collect
import Axiomc.Foundation.OrderedMap
import Axiomc.Trust.Transcript

/-!
# Keys, roles and signatures

`key_maps`, `validate_key_supersession`, `role_maps`, `key_eligibility` and `signature_evidence` of
`package_trust.rs`.  Each records its failures and goes on.

The source keeps keys and roles in hash maps; here they are ordered maps.  The loops over them only
record failures and count, so the order in which they go does not show.
-/

namespace Axiomc.Trust

open Foundation Std

/-- The reason codes. -/
inductive ReasonCode where
  | offlineInputMissing | rootBootstrapMismatch | metadataExpired | rootRotationInvalid
  | rootDigestMismatch | rootSignatureInvalid | rootThresholdNotMet | rootRollback
  | rollbackDetected | metadataReplayed | versionDowngrade | indexDigestMismatch
  | indexSignatureInvalid | indexThresholdNotMet | duplicateRelease | duplicateTargetPath
  | duplicatePackageCoordinate | targetPathInvalid | archiveDigestMismatch
  | manifestDigestMismatch | provenanceStatementMismatch | provenancePredicateMismatch
  | provenanceSubjectMismatch | delegationInvalid | namespaceGrantMismatch | duplicateKey
  | keyMalformed | keyIdMismatch | keySupersessionInvalid | keyUnknown | keyRevoked | keyRetired
  | keyNotYetValid | signerPublisherMismatch | publisherMismatch | namespaceMismatch
  | packageNameMismatch | packageVersionMismatch | sourceMismatch | targetPathMismatch
  | signatureMalformed | signatureInvalid | packageThresholdNotMet | offlineLockMismatch
  deriving DecidableEq, Repr

/-- The codes in the order of `REASON_PRECEDENCE`. -/
def ReasonCode.precedence : List ReasonCode :=
  [.offlineInputMissing, .rootBootstrapMismatch, .metadataExpired, .rootRotationInvalid,
    .rootDigestMismatch, .rootSignatureInvalid, .rootThresholdNotMet, .rootRollback,
    .rollbackDetected, .metadataReplayed, .versionDowngrade, .indexDigestMismatch,
    .indexSignatureInvalid, .indexThresholdNotMet, .duplicateRelease, .duplicateTargetPath,
    .duplicatePackageCoordinate, .targetPathInvalid, .archiveDigestMismatch,
    .manifestDigestMismatch, .provenanceStatementMismatch, .provenancePredicateMismatch,
    .provenanceSubjectMismatch, .delegationInvalid, .namespaceGrantMismatch, .duplicateKey,
    .keyMalformed, .keyIdMismatch, .keySupersessionInvalid, .keyUnknown, .keyRevoked, .keyRetired,
    .keyNotYetValid, .signerPublisherMismatch, .publisherMismatch, .namespaceMismatch,
    .packageNameMismatch, .packageVersionMismatch, .sourceMismatch, .targetPathMismatch,
    .signatureMalformed, .signatureInvalid, .packageThresholdNotMet, .offlineLockMismatch]

/-- The filter through the fixed list drops no code. -/
theorem ReasonCode.mem_precedence (code : ReasonCode) : code ∈ precedence := by
  cases code <;> decide

def orderedReasonCodes (failures : List ReasonCode) : List ReasonCode :=
  ReasonCode.precedence.filter fun code => code ∈ failures

abbrev Checked (α : Type) := Collect ReasonCode α

open Collect

abbrev KeyMap := TreeMap Text Value byteOrder

abbrev RoleMap := TreeMap Text Value byteOrder

variable (prim : Primitives)

/-! ### Timestamps -/

/-- `Timestamp`, compared field by field from the year on. -/
structure Timestamp where
  year : Nat
  month : Nat
  day : Nat
  hour : Nat
  minute : Nat
  second : Nat
  deriving DecidableEq, Repr

/-- The fields as one number; every field but the year is below 256. -/
def Timestamp.rank (t : Timestamp) : Nat :=
  ((((t.year * 256 + t.month) * 256 + t.day) * 256 + t.hour) * 256 + t.minute) * 256 + t.second

instance : LT Timestamp := ⟨fun a b => a.rank < b.rank⟩

instance : LE Timestamp := ⟨fun a b => a.rank ≤ b.rank⟩

instance (a b : Timestamp) : Decidable (a < b) := inferInstanceAs (Decidable (a.rank < b.rank))

instance (a b : Timestamp) : Decidable (a ≤ b) := inferInstanceAs (Decidable (a.rank ≤ b.rank))

/-- `value[start..end].parse::<u16>()`: digits after an optional plus sign.  At most four of them, so
the value is below `2 ^ 16`. -/
def timestampPart (value : Text) (start stop : Nat) : Option Nat :=
  let part := (value.take stop).drop start
  let digits := (stripStart ['+'] part).getD part
  if digits.isEmpty || !digits.all Char.isDigit then none
  else some (Nat.ofDigitChars 10 digits 0)

def daysInMonth (year month : Nat) : Option Nat :=
  if month ∈ [1, 3, 5, 7, 8, 10, 12] then some 31
  else if month ∈ [4, 6, 9, 11] then some 30
  else if month = 2 then
    some (if year % 4 = 0 ∧ (year % 100 ≠ 0 ∨ year % 400 = 0) then 29 else 28)
  else none

/-- The separators of `YYYY-MM-DDTHH:MM:SSZ` with their positions. -/
def timestampSeparators : List (Nat × Char) :=
  [(4, '-'), (7, '-'), (10, 'T'), (13, ':'), (16, ':'), (19, 'Z')]

-- The source counts bytes.  A text with a character outside ASCII is refused either way: its parts
-- are not all digits, or a separator is out of place.
def timestamp (value : Value) : Option Timestamp := do
  let value ← text value
  if value.length ≠ 20 ∨ ¬ timestampSeparators.all (fun s => value[s.1]? == some s.2) then none
  else
    let year ← timestampPart value 0 4
    let month ← timestampPart value 5 7
    let day ← timestampPart value 8 10
    let hour ← timestampPart value 11 13
    let minute ← timestampPart value 14 16
    let second ← timestampPart value 17 19
    let days ← daysInMonth year month
    if day = 0 ∨ day > days ∨ hour > 23 ∨ minute > 59 ∨ second > 59 then none
    else some ⟨year, month, day, hour, minute, second⟩

def maxTimestamp : Timestamp := ⟨2 ^ 16 - 1, 12, 31, 23, 59, 59⟩

/-! ### Keys -/

def derivedKeyId (material : Value) : Option Text :=
  match object material with
  | none => none
  | some _ => (canonicalJson prim material).map fun encoded =>
      "sha256:".toList ++ sha256 prim encoded

def canonicalPublicKey (material : Value) : Option Bytes :=
  match object material with
  | none => none
  | some entries =>
    if entries.length ≠ 3 ∨ text (field material "algorithm") ≠ some "ed25519".toList ∨
        text (field material "public_key_encoding") ≠ some "lowercase-hex".toList then none
    else
      match decodeHex (field material "public_key") with
      | none => none
      | some bytes => if bytes.length = 32 ∧ prim.publicKey bytes then some bytes else none

/-- The loop state of `key_maps`. -/
structure KeyScan where
  keys : KeyMap
  fingerprints : TreeMap Text Text byteOrder
  seenPublic : List Bytes

/-- `seen_public.insert` for a key that has one. -/
def notePublic (scan : KeyScan) (canonicalPublic : Option Bytes) : Checked KeyScan :=
  match canonicalPublic with
  | none => pure scan
  | some bytes => do
    note (bytes ∈ scan.seenPublic) .duplicateKey
    pure { scan with seenPublic := bytes :: scan.seenPublic }

/-- `keys.insert` and `fingerprints.insert` for a key that has an id. -/
def noteKeyId (scan : KeyScan) (key : Value) (keyId derived : Option Text) : Checked KeyScan :=
  match keyId with
  | none => pure scan
  | some keyId => do
    note (keyId ∈ scan.keys) .duplicateKey
    pure
      { scan with
        keys := scan.keys.insert keyId key
        fingerprints := match derived with
          | some derived => scan.fingerprints.insert keyId derived
          | none => scan.fingerprints }

def keyStep (scan : KeyScan) (key : Value) : Checked KeyScan :=
  match object key with
  | none => do
    fail .keyMalformed
    pure scan
  | some _ => do
    let keyId := text (field key "key_id")
    let material := field key "key_material"
    let canonicalPublic := canonicalPublicKey prim material
    note (canonicalPublic = none) .keyMalformed
    let derived := canonicalPublic.bind fun _ => derivedKeyId prim material
    note (keyId = none ∨ ¬ keyId.any canonicalKeyId ∨ derived ≠ keyId) .keyIdMismatch
    let scan ← notePublic scan canonicalPublic
    noteKeyId scan key keyId derived

def keyMaps (root : Value) : Checked KeyScan :=
  (field root "keys").items.foldlM (keyStep prim) ⟨∅, ∅, []⟩

/-! ### Eligibility -/

/-- `sequence.saturating_add(1)`. -/
def saturatingSucc (n : UInt64) : Nat := min (n.toNat + 1) (2 ^ 64 - 1)

def keyEligibility (key : Value) (sequence : UInt64) (verificationTime : Timestamp) :
    Option ReasonCode :=
  if ((number (field key "valid_from_sequence")).map UInt64.toNat).getD (saturatingSucc sequence) >
      sequence.toNat then
    some .keyNotYetValid
  else if text (field key "status") = some "retired".toList then some .keyRetired
  else if text (field key "status") = some "revoked".toList then
    let revocation := field key "revocation"
    if object revocation = none ∨
        ((number (field revocation "effective_sequence")).map UInt64.toNat).getD
          (saturatingSucc sequence) ≤ sequence.toNat ∨
        (timestamp (field revocation "effective_time")).any (fun time => time ≤ verificationTime) then
      some .keyRevoked
    else none
  else none

/-! ### Supersession -/

/-- The texts of an array. -/
def texts (value : Value) : List Text := value.items.filterMap text

/-- An array of pairwise distinct texts. -/
def distinctTexts (value : Value) : Bool :=
  value.asArray.any fun items =>
    let strings := items.filterMap text
    strings.length == items.length && decide strings.Nodup

/-- `left < right` on `Option<u64>`, where `None` is below every number. -/
def optionLt : Option UInt64 → Option UInt64 → Bool
  | _, none => false
  | none, some _ => true
  | some a, some b => a < b

/-- Whether `predecessorId` cannot be superseded by `key`. -/
def predecessorInvalid (keys : KeyMap) (keyId : Text) (key : Value) (predecessorId : Text) : Bool :=
  let validFrom := number (field key "valid_from_sequence")
  let predecessor := keys[predecessorId]?
  let predecessorFrom := predecessor.bind fun value => number (field value "valid_from_sequence")
  let status := predecessor.bind fun value => text (field value "status")
  predecessor.isNone || predecessorId == keyId ||
    (predecessor.bind fun value => text (field value "publisher_identity")) !=
      text (field key "publisher_identity") ||
    !(status == some "retired".toList || status == some "revoked".toList) ||
    validFrom.isNone || predecessorFrom.isNone || !optionLt predecessorFrom validFrom

/-- The checks of one key. -/
def keyChecks (key : Value) : Checked Unit := do
  let supersedes := field key "supersedes_key_ids"
  note (¬ distinctTexts supersedes) .keySupersessionInvalid
  let status := text (field key "status")
  let revocation := field key "revocation"
  let validFrom := number (field key "valid_from_sequence")
  let effective := number (field revocation "effective_sequence")
  if status = some "revoked".toList then
    note (object revocation = none ∨ validFrom = none ∨ effective = none ∨
      optionLt effective validFrom) .keySupersessionInvalid
  else
    note (¬ revocation.isNull) .keySupersessionInvalid
  note (texts supersedes ≠ [] ∧ status ≠ some "active".toList) .keySupersessionInvalid

/-- The checks of one key and of the entries that it lists. -/
def supersessionStep (keys : KeyMap) (entry : Text × Value) : Checked Unit := do
  let (keyId, key) := entry
  keyChecks key
  (texts (field key "supersedes_key_ids")).forM fun predecessorId =>
    note (predecessorInvalid keys keyId key predecessorId) .keySupersessionInvalid

/-- The counts of `incoming`; ids that are no keys are passed over. -/
def countPredecessors (graph : TreeMap Text (List Text) byteOrder) : TreeMap Text Nat byteOrder :=
  graph.toList.foldl
    (fun incoming entry =>
      entry.2.foldl (fun incoming predecessor => incoming.modify predecessor (· + 1)) incoming)
    (graph.toList.foldl (fun incoming entry => incoming.insert entry.1 0) ∅)

/-- One edge less into `predecessor`, which becomes ready at zero. -/
def releasePredecessor (state : TreeMap Text Nat byteOrder × List Text) (predecessor : Text) :
    TreeMap Text Nat byteOrder × List Text :=
  match state.1[predecessor]? with
  | none => state
  | some count =>
    (state.1.insert predecessor (count - 1),
      if count - 1 = 0 then predecessor :: state.2 else state.2)

/-- The number of keys that the stack of ready keys reaches.  Every key is popped at most once, so the
number of keys is enough rounds. -/
def countOrdered (graph : TreeMap Text (List Text) byteOrder) :
    Nat → TreeMap Text Nat byteOrder → List Text → Nat
  | _, _, [] => 0
  | 0, _, _ :: _ => 0
  | rounds + 1, incoming, keyId :: ready =>
    let (incoming, ready) := (graph.getD keyId []).foldl releasePredecessor (incoming, ready)
    countOrdered graph rounds incoming ready + 1

def validateKeySupersession (keys : KeyMap) : Checked Unit := do
  keys.toList.forM (supersessionStep keys)
  let graph : TreeMap Text (List Text) byteOrder :=
    keys.toList.foldl
      (fun graph entry => graph.insert entry.1 (texts (field entry.2 "supersedes_key_ids"))) ∅
  let incoming := countPredecessors graph
  let ready := (incoming.toList.filter fun entry => entry.2 == 0).map Prod.fst
  note (countOrdered graph graph.size incoming ready ≠ graph.size) .keySupersessionInvalid

/-! ### Roles -/

/-- Whether a role lists distinct known keys and asks for a threshold between one and their number. -/
def roleValid (role : Value) (keys : KeyMap) : Bool :=
  let ids := field role "key_ids"
  let strings := texts ids
  distinctTexts ids && strings.all canonicalKeyId &&
    ((number (field role "threshold")).any fun threshold =>
      1 ≤ threshold.toNat && threshold.toNat ≤ ids.items.length) &&
    strings.all fun id => keys.contains id

def roleStep (keys : KeyMap) (roles : RoleMap) (role : Value) : Checked RoleMap :=
  match text (field role "role_id") with
  | none => do
    fail .delegationInvalid
    pure roles
  | some roleId => do
    note (roleId ∈ roles) .delegationInvalid
    note (¬ roleValid role keys) .delegationInvalid
    pure (roles.insert roleId role)

/-- The walk along `delegated_by` to the root role; a role met twice ends it, so the number of roles
bounds it. -/
def delegated (roles : RoleMap) : Nat → List Text → Text → Bool
  | rounds, seen, current =>
    if current = "root".toList then true
    else if current ∈ seen then false
    else
      match rounds, roles[current]?.bind fun role => text (field role "delegated_by") with
      | rounds + 1, some parent => delegated roles rounds (current :: seen) parent
      | _, _ => false

def roleMaps (root : Value) (keys : KeyMap) : Checked RoleMap := do
  let roles ← (field root "roles").items.foldlM (roleStep keys) ∅
  roles.toList.forM fun entry => do
    note (¬ delegated roles roles.size [] entry.1) .delegationInvalid
    note (entry.1 = "root".toList ∧ ¬ (field entry.2 "delegated_by").isNull) .delegationInvalid
  pure roles

/-! ### Signatures -/

def signatureStatus (publicKeyHex : Value) (message : Bytes) (signatureHex : Value) :
    Option SignatureFailure :=
  match decodeHex publicKeyHex with
  | none => some .keyMalformed
  | some publicBytes =>
    if publicBytes.length = 32 ∧ prim.publicKey publicBytes then
      match decodeHex signatureHex with
      | some signature =>
        if signature.length = 64 then prim.verify publicBytes message signature
        else some .signatureMalformed
      | none => some .signatureMalformed
    else some .keyMalformed

/-- `context`. -/
inductive Context where
  | package
  | root
  | index
  deriving DecidableEq, Repr

/-- `{context}_THRESHOLD_NOT_MET`. -/
def Context.thresholdNotMet : Context → ReasonCode
  | package => .packageThresholdNotMet
  | root => .rootThresholdNotMet
  | index => .indexThresholdNotMet

/-- The code for a rejected signature: packages have their own, roots and indexes one each. -/
def Context.rejected (context : Context) (packageCode : ReasonCode) : ReasonCode :=
  match context with
  | package => packageCode
  | root => .rootSignatureInvalid
  | index => .indexSignatureInvalid

def SignatureFailure.code : SignatureFailure → ReasonCode
  | keyMalformed => .keyMalformed
  | signatureMalformed => .signatureMalformed
  | signatureInvalid => .signatureInvalid

structure SignatureEvidence where
  role : Option Value
  keys : KeyMap
  message : Bytes
  sequence : UInt64
  verificationTime : Timestamp
  context : Context
  requiredKeyIds : Option (List Text) := none
  expectedPublisher : Option Text := none
  publisherGrantAuthorized : Bool := true

/-- The key id and fingerprint of a signature that counts, or the package code of the first check it
fails. -/
def checkSignature (evidence : SignatureEvidence) (role signature : Value) :
    Except ReasonCode (Text × Text) := do
  reject (object signature = none) .signatureMalformed
  reject (text (field signature "algorithm") ≠ some "ed25519".toList ∨
    text (field signature "encoding") ≠ some "lowercase-hex".toList) .signatureMalformed
  let keyId ← require (text (field signature "key_id")) .keyUnknown
  reject (¬ canonicalKeyId keyId) .keyIdMismatch
  let key ← require evidence.keys[keyId]? .keyUnknown
  let material := field key "key_material"
  reject (canonicalPublicKey prim material = none) .keyMalformed
  reject (derivedKeyId prim material ≠ some keyId) .keyIdMismatch
  reject (¬ (field role "key_ids").items.any fun id => text id == some keyId) .delegationInvalid
  reject (evidence.context = .package ∧ (¬ evidence.publisherGrantAuthorized ∨
    text (field key "publisher_identity") ≠ evidence.expectedPublisher)) .signerPublisherMismatch
  match keyEligibility key evidence.sequence evidence.verificationTime with
  | some code => .error code
  | none =>
    match signatureStatus prim (field material "public_key") evidence.message
        (field signature "value") with
    | some failure => .error failure.code
    | none => do
      let fingerprint ← require (derivedKeyId prim material) .keyMalformed
      .ok (keyId, fingerprint)

/-- The key ids and the fingerprints of the signatures that count. -/
structure ValidSigners where
  keyIds : List Text
  fingerprints : List Text

def signatureStep (evidence : SignatureEvidence) (role : Value) (valid : ValidSigners)
    (signature : Value) : Checked ValidSigners :=
  match checkSignature prim evidence role signature with
  | .error code => do
    fail (evidence.context.rejected code)
    pure valid
  | .ok (keyId, fingerprint) =>
    pure ⟨valid.keyIds.insert keyId, valid.fingerprints.insert fingerprint⟩

def signatureEvidence (signatures : Value) (evidence : SignatureEvidence) : Checked ValidSigners :=
  match evidence.role, signatures.asArray with
  | some role, some signatures => do
    let valid ← signatures.foldlM (signatureStep prim evidence role) ⟨[], []⟩
    let threshold := ((number (field role "threshold")).map UInt64.toNat).getD 1
    note (valid.fingerprints.length < threshold ∨
      evidence.requiredKeyIds.any fun required => !required.all fun id => valid.keyIds.contains id)
      evidence.context.thresholdNotMet
    pure valid
  | _, _ => do
    fail evidence.context.thresholdNotMet
    pure ⟨[], []⟩

end Axiomc.Trust
