import Axiomc.Trust.Catalog

/-!
# Package verification

`verify_package` of `package_trust.rs`.  It collects failures over four documents and decides
`trusted` when none was collected.

The function runs no schema validation: its four documents are arbitrary JSON within the work budget.
-/

namespace Axiomc.Trust

open Foundation Std Collect

variable (prim : Primitives)

/-! ### Inputs and results -/

structure PackageTrustInput where
  packageSignature : Value
  trustRoots : Value
  registryIndex : Value
  verificationExpectation : Value

inductive PackageInputFailure where
  | missingOrUnreadable
  | verificationExpectationMalformed
  | trustRootsMalformed
  | registryIndexMalformed
  | packageSignatureMalformed
  deriving DecidableEq, Repr

inductive Decision where
  | trusted
  | rejected
  deriving DecidableEq, Repr

structure ObservedPackage where
  (registryIdentity sourceIdentity namespace' name version : Option Text := none)
  (targetPath publisherIdentity : Option Text := none)
  deriving DecidableEq

structure VerifiedSigner where
  keyId : Text
  publicKeyFingerprint : Text
  publisherIdentity : Option Text
  roleId : Option Text
  status : Option Text
  deriving DecidableEq

structure TrustEvidence where
  (rootVersion rootSequence rootTransitionFrom : Option UInt64 := none)
  (indexGeneration indexSequence packageThreshold : UInt64 := 0)
  (packageValidSigners indexValidSigners : Nat := 0)
  indexThreshold : Option UInt64 := none
  offlineMode : Option Text := none
  (networkFallback consistentSnapshot : Option Bool := none)
  deriving DecidableEq

/-- `PackageVerification`.  An empty list of codes is the source's `["OK"]`; the constant fields of
the record and the primary code, which is the first one, are left out. -/
structure PackageVerification where
  decision : Decision
  reasonCodes : List ReasonCode
  observed : ObservedPackage := {}
  signers : List VerifiedSigner := []
  archive : Value := .null
  manifestDigest : Value := .null
  provenance : Value := .null
  trust : TrustEvidence := {}

def PackageInputFailure.reason : PackageInputFailure → ReasonCode
  | missingOrUnreadable | verificationExpectationMalformed => .offlineInputMissing
  | trustRootsMalformed => .rootDigestMismatch
  | registryIndexMalformed => .indexDigestMismatch
  | packageSignatureMalformed => .signatureMalformed

def inputFailureVerification (failure : PackageInputFailure) : PackageVerification :=
  { decision := .rejected, reasonCodes := [failure.reason] }

variable (input : PackageTrustInput)

def inputWorkBudgetFailure : Option PackageInputFailure :=
  [(input.packageSignature, DocumentKind.package, PackageInputFailure.packageSignatureMalformed),
    (input.trustRoots, .roots, .trustRootsMalformed),
    (input.registryIndex, .index, .registryIndexMalformed),
    (input.verificationExpectation, .expectation, .verificationExpectationMalformed)].findSome?
    fun entry => if validateDocumentWorkBudget entry.1 entry.2.1 then none else some entry.2.2

/-! ### Semantic versions -/

inductive PreRelease where
  | numeric (n : Nat)
  | text (value : Text)
  deriving DecidableEq

structure Semver where
  core : Nat × Nat × Nat
  prerelease : List PreRelease

def preRelease (item : Text) : Option PreRelease :=
  if item.isEmpty || !item.all (fun c => c.isAlphanum || c == '-') then none
  else if item.all Char.isDigit then
    if item.length > 1 && item.head? == some '0' then none else (parseU64 item).map .numeric
  else some (.text item)

def semver (value : Value) : Option Semver := do
  let value ← text value
  let withoutBuild := ((splitOnce '+' value).map Prod.fst).getD value
  let (core, prerelease) := match splitOnce '-' withoutBuild with
    | some (left, right) => (left, some right)
    | none => (withoutBuild, none)
  match core.splitOn '.' with
  | [major, minor, patch] =>
    if [major, minor, patch].any fun part =>
        part.isEmpty || ((encodeUtf8 part).length > 1 && part.head? == some '0') then none
    else do
      let major ← parseU64 major
      let minor ← parseU64 minor
      let patch ← parseU64 patch
      let prerelease ← match prerelease with
        | some items => (items.splitOn '.').mapM preRelease
        | none => some []
      some ⟨(major, minor, patch), prerelease⟩
  | _ => none

def PreRelease.cmp : PreRelease → PreRelease → Ordering
  | numeric a, numeric b => compare a b
  | numeric _, text _ => .lt
  | text _, numeric _ => .gt
  | text a, text b => byteOrder a b

/-- Item by item, then by length. -/
def comparePrerelease : List PreRelease → List PreRelease → Ordering
  | a :: as, b :: bs => (a.cmp b).then (comparePrerelease as bs)
  | as, bs => compare as.length bs.length

def compareSemver (left right : Value) : Ordering :=
  match semver left, semver right with
  | some left, some right =>
    let core := (compare left.core.1 right.core.1).then
      ((compare left.core.2.1 right.core.2.1).then (compare left.core.2.2 right.core.2.2))
    core.then <|
      match left.prerelease, right.prerelease with
      | [], [] => .eq
      | [], _ => .gt
      | _, [] => .lt
      | left, right => comparePrerelease left right
  | _, _ => .lt

/-! ### Provenance -/

def validTypeUri (value : Value) : Bool :=
  (text value).any fun value => value.contains ':' && !value.any isWhitespace

def exactFields (value : Value) (expected : List String) : Bool :=
  (object value).any fun entries =>
    entries.length == expected.length &&
      expected.all fun name => (entries.lookup name.toList).isSome

def validSlsaResource (value : Value) : Bool :=
  exactFields value ["uri", "digest"] && validTypeUri (field value "uri") &&
    (object (field value "digest")).any fun digests =>
      !digests.isEmpty && digests.all fun entry =>
        !entry.1.isEmpty && (text entry.2).any fun encoded =>
          (encodeUtf8 encoded).length == 64 && (encodeUtf8 encoded).all isLowerHex

def validSlsaPredicate (value : Value) : Bool :=
  let build := field value "buildDefinition"
  let run := field value "runDetails"
  let builder := field run "builder"
  let metadata := field run "metadata"
  exactFields value ["buildDefinition", "runDetails"] &&
    exactFields build
      ["buildType", "externalParameters", "internalParameters", "resolvedDependencies"] &&
    validTypeUri (field build "buildType") && (object (field build "externalParameters")).isSome &&
    (object (field build "internalParameters")).isSome &&
    ((field build "resolvedDependencies").asArray.any fun items =>
      !items.isEmpty && items.all validSlsaResource) &&
    exactFields run ["builder", "metadata", "byproducts"] &&
    exactFields builder ["id", "builderDependencies", "version"] &&
    validTypeUri (field builder "id") &&
    ((field builder "builderDependencies").asArray.any fun items => items.all validSlsaResource) &&
    ((object (field builder "version")).any fun versions =>
      !versions.isEmpty && versions.all fun entry =>
        !entry.1.isEmpty && (text entry.2).any fun value => !value.isEmpty) &&
    ((field run "byproducts").asArray.any fun items => items.all validSlsaResource) &&
    exactFields metadata ["invocationId", "startedOn", "finishedOn"] &&
    ((timestamp (field metadata "startedOn")).any fun started =>
      (timestamp (field metadata "finishedOn")).any fun finished => started ≤ finished) &&
    (text (field metadata "invocationId")).any fun value => !value.isEmpty

/-- The checks of `statement_failures` once the statement has a canonical encoding. -/
def checkStatement (statement selected value archive targetPath : Value) (encoded : Bytes) :
    Checked Unit := do
  note (text (field statement "canonical_bytes_hex") ≠ some (hexEncode encoded) ∨
    text (field (field statement "digest") "value") ≠ some (sha256 prim encoded) ∨
    text (field value "_type") ≠ some "https://in-toto.io/Statement/v1".toList)
    .provenanceStatementMismatch
  note (text (field value "predicateType") ≠ some "https://slsa.dev/provenance/v1".toList ∨
    ¬ validSlsaPredicate (field value "predicate")) .provenancePredicateMismatch
  note (¬ ((field value "subject").asArray.any fun subjects => subjects.contains selected) ∨
    field selected "name" ≠ targetPath ∨
    field (field selected "digest") "sha256" ≠ field (field archive "digest") "value")
    .provenanceSubjectMismatch

def statementFailures (provenance archive targetPath : Value) : Checked Unit :=
  let statement := field provenance "statement"
  let value := field statement "value"
  match object provenance with
  | none => do
    fail .provenanceStatementMismatch
    fail .provenanceSubjectMismatch
  | some _ =>
    if object statement = none ∨ object value = none then fail .provenanceStatementMismatch
    else
      match canonicalJson prim value with
      | none => fail .provenanceStatementMismatch
      | some encoded =>
        checkStatement prim statement (field provenance "selected_subject") value archive targetPath
          encoded

/-! ### The index -/

/-- The snapshot rules of `verify_package`, for an authenticated index. -/
def checkSnapshot (trustedState indexSigned : Value) (generation sequence : UInt64)
    (transcriptSha256 : Text) : Checked Unit := do
  let highestGeneration := (number (field trustedState "highest_index_generation")).getD generation
  let highestSequence := (number (field trustedState "highest_index_sequence")).getD sequence
  note (generation < highestGeneration ∨ sequence < highestSequence) .rollbackDetected
  note ((field trustedState "seen_snapshots").asArray = none) .offlineInputMissing
  let seen := (field trustedState "seen_snapshots").items
  let state := snapshotState generation sequence
    (field (field indexSigned "consistent_snapshot") "snapshot_id") transcriptSha256
  let highestSeen := seen.any (atPosition highestGeneration highestSequence)
  note (¬ highestSeen) .offlineInputMissing
  note ((∃ s ∈ seen, rebinds generation sequence state s) ∨
    (generation = highestGeneration ∧ sequence = highestSequence ∧ highestSeen ∧ state ∉ seen))
    .metadataReplayed

/-- What the index checks hand on. -/
structure IndexValidation where
  generation : UInt64
  sequence : UInt64
  validSigners : Nat
  authenticated : Bool

variable (validation : RootValidation)

/-- The checks on the index, up to its releases. -/
def verifyIndex : Checked IndexValidation := do
  let expectation := input.verificationExpectation
  let index := input.registryIndex
  let indexSigned := field index "signed"
  let request := field expectation "request"
  let registry := field input.packageSignature "registry"
  let requiredSigners := field expectation "required_signers"
  let raw ← transcriptOr prim .index indexSigned .indexDigestMismatch
  note (¬ transcriptMatches prim index raw) .indexDigestMismatch
  note ((timestamp (field indexSigned "expires_at")).all (fun expiry =>
      expiry ≤ validation.verificationTime) ∨
    (timestamp (field indexSigned "issued_at")).all fun issued =>
      issued > validation.verificationTime) .metadataExpired
  let generation := (number (field indexSigned "generation")).getD 0
  let sequence := (number (field indexSigned "sequence")).getD 0
  note (text (field indexSigned "signature_role") ≠ text (field requiredSigners "index_role_id"))
    .indexThresholdNotMet
  let role := indexRole validation indexSigned expectation
  note (field indexSigned "registry_identity" ≠ field request "registry_identity" ∨
    field indexSigned "source_identity" ≠ field request "source_identity" ∨
    field indexSigned "registry_identity" ≠ field registry "registry_identity" ∨
    field indexSigned "source_identity" ≠ field registry "source_identity") .sourceMismatch
  let valid ← signatureEvidence prim (field index "signatures")
    (indexEvidence validation role raw sequence)
  let expected := number (field requiredSigners "index_threshold")
  note (roleThreshold role ≠ expected) .indexThresholdNotMet
  let authenticated := indexAuthenticated prim index raw role expected valid.fingerprints.length
  guarded authenticated
    (checkSnapshot (field expectation "trusted_state") indexSigned generation sequence
      (sha256 prim raw))
  pure ⟨generation, sequence, valid.fingerprints.length, authenticated⟩

/-- The fields that select a release. -/
def releaseFields : List String :=
  ["registry_identity", "source_identity", "namespace", "name", "version", "target_path"]

def selectsRelease (request release : Value) : Bool :=
  releaseFields.all fun name => field release name == field request name

/-- The canonical text of some fields of a release, empty when it has none. -/
def releaseKey (names : List String) (release : Value) : Bytes :=
  (canonicalJson prim (.array (names.map (field release)))).getD []

/-- The checks on the releases of the index, and the requested one. -/
def verifyReleases (indexSigned request : Value) : Checked (Option Value) := do
  let releases := (field indexSigned "releases").items
  let objects := releases.filter fun release => (object release).isSome
  note (¬ (objects.map (releaseKey prim releaseFields)).Nodup) .duplicateRelease
  note (¬ (objects.map fun release => field release "target_path").Nodup) .duplicateTargetPath
  note (¬ (objects.map (releaseKey prim (releaseFields.take 5))).Nodup) .duplicatePackageCoordinate
  let selected := releases.find? (selectsRelease request)
  note (selected = none) .offlineInputMissing
  note (selected.any fun release =>
    field release "registry_identity" != field indexSigned "registry_identity" ||
      field release "source_identity" != field indexSigned "source_identity") .sourceMismatch
  pure selected

/-! ### The package -/

def containsText (array : Value) (expected : Option Text) : Bool :=
  expected.any fun expected => array.items.any fun item => text item == some expected

/-- A grant for exactly the requested publisher, name, registry and source, to the role `roleId`. -/
def grantsRequest (request : Value) (roleId : Option Text) (grant : Value) : Bool :=
  field grant "publisher_identity" == field request "publisher_identity" &&
    field grant "namespace" == field request "namespace" &&
    containsText (field grant "package_names") (text (field request "name")) &&
    containsText (field grant "registry_identities") (text (field request "registry_identity")) &&
    containsText (field grant "source_identities") (text (field request "source_identity")) &&
    text (field grant "role_id") == roleId

/-- `exact_grant`. -/
def exactGrant (candidateSigned request : Value) (roleId : Option Text) : Bool :=
  (field candidateSigned "namespace_grants").items.any (grantsRequest request roleId)

/-- The bytes of the package transcript, none of them when it cannot be built. -/
def packageTranscriptOr (package : Value) (threshold : UInt64) : Checked Bytes :=
  match packageTranscript prim package threshold with
  | some raw => pure raw
  | none => do
    fail .signatureInvalid
    pure []

def packageTranscriptMatches (package : Value) (threshold : UInt64) (raw : Bytes) : Bool :=
  ((field (field package "transcript") "field_order").asArray.any fun items =>
    items.map text == (packageFields package threshold).map fun entry => some entry.1.toList) &&
    transcriptMatches prim package raw

def packageIndexFloorIsSatisfied (package : Value) (currentGeneration currentSequence : UInt64) :
    Bool :=
  ((number (field (field package "index") "generation")).any (· ≤ currentGeneration)) &&
    (number (field (field package "index") "sequence")).any (· ≤ currentSequence)

/-- `package_role`. -/
def packageRole (requiredSigners : Value) : Option Value :=
  (text (field requiredSigners "package_role_id")).bind fun id => validation.candidateRoles[id]?

/-- `package_threshold`. -/
def packageThreshold (requiredSigners : Value) : UInt64 :=
  (number (field requiredSigners "package_threshold")).getD 1

/-- The evidence the package signatures are checked with. -/
def packageEvidence (requiredSigners request : Value) (raw : Bytes)
    (sequence : UInt64) (grantAuthorized : Bool) : SignatureEvidence :=
  { role := packageRole validation requiredSigners, keys := validation.candidateKeys, message := raw
    sequence := sequence, verificationTime := validation.verificationTime, context := .package
    requiredKeyIds := some (texts (field requiredSigners "required_key_ids"))
    expectedPublisher := text (field request "publisher_identity")
    publisherGrantAuthorized := grantAuthorized }

/-- `package_authenticated`. -/
def packageAuthenticated (package : Value) (raw : Bytes) (role : Option Value) (threshold : UInt64)
    (required : List Text) (valid : ValidSigners) : Bool :=
  packageTranscriptMatches prim package threshold raw && roleThreshold role == some threshold &&
    valid.fingerprints.length ≥ threshold.toNat && required.all fun id => valid.keyIds.contains id

/-- The checks on the path, the version, the grant and the signatures of the package. -/
def verifySignatures (index : IndexValidation) : Checked ValidSigners := do
  let package := input.packageSignature
  let expectation := input.verificationExpectation
  let request := field expectation "request"
  let requiredSigners := field expectation "required_signers"
  let coordinates := field package "package"
  note (¬ (text (field coordinates "target_path")).any (safeTargetPath prim)) .targetPathInvalid
  note (compareSemver (field coordinates "version")
    (field (field expectation "trusted_state") "minimum_package_version") = .lt) .versionDowngrade
  let candidateSigned := field (field input.trustRoots "candidate_root") "signed"
  let granted := exactGrant candidateSigned request (text (field requiredSigners "package_role_id"))
  note (¬ granted) .namespaceGrantMismatch
  let threshold := packageThreshold requiredSigners
  let raw ← packageTranscriptOr prim package threshold
  note (¬ packageTranscriptMatches prim package threshold raw) .signatureInvalid
  let role := packageRole validation requiredSigners
  let valid ← signatureEvidence prim (field package "signatures")
    (packageEvidence validation requiredSigners request raw index.sequence granted)
  note (roleThreshold role ≠ some threshold) .packageThresholdNotMet
  let floor := packageIndexFloorIsSatisfied package index.generation index.sequence
  note (¬ floor) .offlineLockMismatch
  note (¬ floor ∧ index.authenticated ∧ packageAuthenticated prim package raw role threshold
    (texts (field requiredSigners "required_key_ids")) valid) .metadataReplayed
  pure valid

/-- `package_archive`, its entries in the order of their keys. -/
def packageArchive (package : Value) : Value :=
  .object
    [("digest".toList, field (field package "archive") "digest"),
      ("length".toList, field (field package "archive") "size")]

/-- The three comparisons of provenance records, of the package and of the release. -/
def checkProvenance (provenance requested : Value) : Checked Unit := do
  note (field (field provenance "statement") "digest" ≠
    field (field requested "statement") "digest") .provenanceStatementMismatch
  note (field (field (field provenance "statement") "value") "predicateType" ≠
    field (field (field requested "statement") "value") "predicateType") .provenancePredicateMismatch
  note (field provenance "selected_subject" ≠ field requested "selected_subject")
    .provenanceSubjectMismatch

/-- The package is the requested one. -/
def checkRequested (package request : Value) : Checked Unit := do
  let coordinates := field package "package"
  let registry := field package "registry"
  note (packageArchive package ≠ field request "archive") .archiveDigestMismatch
  note (field package "manifest" ≠ field request "manifest") .manifestDigestMismatch
  statementFailures prim (field package "provenance") (packageArchive package)
    (field coordinates "target_path")
  checkProvenance (field package "provenance") (field request "provenance")
  note (field (field package "publisher") "publisher_identity" ≠ field request "publisher_identity")
    .publisherMismatch
  note (field coordinates "namespace" ≠ field request "namespace") .namespaceMismatch
  note (field coordinates "name" ≠ field request "name") .packageNameMismatch
  note (field coordinates "version" ≠ field request "version") .packageVersionMismatch
  note (field registry "registry_identity" ≠ field request "registry_identity" ∨
    field registry "source_identity" ≠ field request "source_identity") .sourceMismatch
  note (field coordinates "target_path" ≠ field request "target_path") .targetPathMismatch

/-- The release in the index is the requested one. -/
def checkSelected (release request : Value) : Checked Unit := do
  note (field release "archive" ≠ field request "archive") .archiveDigestMismatch
  note (field release "manifest" ≠ field request "manifest") .manifestDigestMismatch
  checkProvenance (field release "provenance") (field request "provenance")
  note (field release "publisher_identity" ≠ field request "publisher_identity") .publisherMismatch

/-! ### The offline lock and the verdict -/

/-- `observed_lock_release`, its entries in the order of their keys. -/
def observedLockRelease (release : Value) : Value :=
  let provenance := field release "provenance"
  let statement := field provenance "statement"
  .object
    [("archive".toList, field release "archive"),
      ("manifest".toList, field release "manifest"),
      ("name".toList, field release "name"),
      ("namespace".toList, field release "namespace"),
      ("package_signature_sha256".toList, field release "package_signature_sha256"),
      ("provenance_predicate_type".toList, field (field statement "value") "predicateType"),
      ("provenance_statement_sha256".toList, field (field statement "digest") "value"),
      ("provenance_subject".toList, field provenance "selected_subject"),
      ("publisher_identity".toList, field release "publisher_identity"),
      ("registry_identity".toList, field release "registry_identity"),
      ("source_identity".toList, field release "source_identity"),
      ("target_path".toList, field release "target_path"),
      ("version".toList, field release "version")]

/-- `package_signature_hash`, empty when the document has no canonical encoding. -/
def packageSignatureHash (package : Value) : Text :=
  ((canonicalJson prim package).map (sha256 prim)).getD []

def lockMismatch (index : IndexValidation) (selected : Option Value) : Bool :=
  let offline := field input.verificationExpectation "offline_lock"
  let candidateRoot := field input.trustRoots "candidate_root"
  (field offline "network_fallback").asBool != some false ||
    number (field offline "root_version") != validation.candidateVersion ||
    number (field offline "root_sequence") != validation.candidateSequence ||
    field offline "root_transcript_sha256" != field (field candidateRoot "transcript") "sha256" ||
    number (field offline "index_generation") != some index.generation ||
    number (field offline "index_sequence") != some index.sequence ||
    field offline "index_transcript_sha256" !=
      field (field input.registryIndex "transcript") "sha256" ||
    selected.all (fun release => field offline "release" != observedLockRelease release) ||
    selected.any fun release => text (field release "package_signature_sha256") !=
      some (packageSignatureHash prim input.packageSignature)

/-- The texts of the reason codes. -/
def ReasonCode.name : ReasonCode → String
  | offlineInputMissing => "OFFLINE_INPUT_MISSING"
  | rootBootstrapMismatch => "ROOT_BOOTSTRAP_MISMATCH"
  | metadataExpired => "METADATA_EXPIRED"
  | rootRotationInvalid => "ROOT_ROTATION_INVALID"
  | rootDigestMismatch => "ROOT_DIGEST_MISMATCH"
  | rootSignatureInvalid => "ROOT_SIGNATURE_INVALID"
  | rootThresholdNotMet => "ROOT_THRESHOLD_NOT_MET"
  | rootRollback => "ROOT_ROLLBACK"
  | rollbackDetected => "ROLLBACK_DETECTED"
  | metadataReplayed => "METADATA_REPLAYED"
  | versionDowngrade => "VERSION_DOWNGRADE"
  | indexDigestMismatch => "INDEX_DIGEST_MISMATCH"
  | indexSignatureInvalid => "INDEX_SIGNATURE_INVALID"
  | indexThresholdNotMet => "INDEX_THRESHOLD_NOT_MET"
  | duplicateRelease => "DUPLICATE_RELEASE"
  | duplicateTargetPath => "DUPLICATE_TARGET_PATH"
  | duplicatePackageCoordinate => "DUPLICATE_PACKAGE_COORDINATE"
  | targetPathInvalid => "TARGET_PATH_INVALID"
  | archiveDigestMismatch => "ARCHIVE_DIGEST_MISMATCH"
  | manifestDigestMismatch => "MANIFEST_DIGEST_MISMATCH"
  | provenanceStatementMismatch => "PROVENANCE_STATEMENT_MISMATCH"
  | provenancePredicateMismatch => "PROVENANCE_PREDICATE_MISMATCH"
  | provenanceSubjectMismatch => "PROVENANCE_SUBJECT_MISMATCH"
  | delegationInvalid => "DELEGATION_INVALID"
  | namespaceGrantMismatch => "NAMESPACE_GRANT_MISMATCH"
  | duplicateKey => "DUPLICATE_KEY"
  | keyMalformed => "KEY_MALFORMED"
  | keyIdMismatch => "KEY_ID_MISMATCH"
  | keySupersessionInvalid => "KEY_SUPERSESSION_INVALID"
  | keyUnknown => "KEY_UNKNOWN"
  | keyRevoked => "KEY_REVOKED"
  | keyRetired => "KEY_RETIRED"
  | keyNotYetValid => "KEY_NOT_YET_VALID"
  | signerPublisherMismatch => "SIGNER_PUBLISHER_MISMATCH"
  | publisherMismatch => "PUBLISHER_MISMATCH"
  | namespaceMismatch => "NAMESPACE_MISMATCH"
  | packageNameMismatch => "PACKAGE_NAME_MISMATCH"
  | packageVersionMismatch => "PACKAGE_VERSION_MISMATCH"
  | sourceMismatch => "SOURCE_MISMATCH"
  | targetPathMismatch => "TARGET_PATH_MISMATCH"
  | signatureMalformed => "SIGNATURE_MALFORMED"
  | signatureInvalid => "SIGNATURE_INVALID"
  | packageThresholdNotMet => "PACKAGE_THRESHOLD_NOT_MET"
  | offlineLockMismatch => "OFFLINE_LOCK_MISMATCH"

/-- The expectation lists the reason codes as `REASON_PRECEDENCE` does. -/
def precedenceMatches (expectation : Value) : Bool :=
  (field expectation "reason_precedence").asArray.any fun items =>
    items.map text == ReasonCode.precedence.map fun code => some code.name.toList

/-- What the checks hand to the verdict. -/
structure PackageValidation where
  root : RootValidation
  index : IndexValidation
  valid : ValidSigners

/-- Every check of `verify_package`, in its order. -/
def packageChecks : Checked PackageValidation := do
  let expectation := input.verificationExpectation
  let request := field expectation "request"
  let root ← validateTrustRootTransition prim input.trustRoots expectation
  let index ← verifyIndex prim input root
  let selected ← verifyReleases prim (field input.registryIndex "signed") request
  let valid ← verifySignatures prim input root index
  checkRequested prim input.packageSignature request
  selected.toList.forM (checkSelected · request)
  note (lockMismatch prim input root index selected) .offlineLockMismatch
  note (¬ precedenceMatches expectation) .offlineInputMissing
  pure ⟨root, index, valid⟩

def verifiedSigner (root : RootValidation) (roleId : Option Text) (keyId : Text) :
    Option VerifiedSigner :=
  root.candidateKeys[keyId]?.map fun key =>
    { keyId := keyId, publicKeyFingerprint := root.fingerprints.getD keyId keyId
      publisherIdentity := text (field key "publisher_identity"), roleId := roleId
      status := text (field key "status") }

/-- The provenance of the package, when nothing was recorded against it. -/
def provenanceEvidence (package : Value) (failures : List ReasonCode) : Value :=
  if [ReasonCode.provenanceStatementMismatch, .provenancePredicateMismatch,
      .provenanceSubjectMismatch].any fun code => failures.contains code then .null
  else field package "provenance"

/-- The result for the checked documents. -/
def verdict (checked : Checked PackageValidation) : PackageVerification :=
  let package := input.packageSignature
  let coordinates := field package "package"
  let registry := field package "registry"
  let expectation := input.verificationExpectation
  let requiredSigners := field expectation "required_signers"
  let offline := field expectation "offline_lock"
  let snapshot := field (field input.registryIndex "signed") "consistent_snapshot"
  let ⟨root, index, valid⟩ := checked.value
  let reasonCodes := orderedReasonCodes checked.failures
  { decision := if reasonCodes = [] then .trusted else .rejected
    reasonCodes := reasonCodes
    observed :=
      { registryIdentity := text (field registry "registry_identity")
        sourceIdentity := text (field registry "source_identity")
        name := text (field coordinates "name"), namespace' := text (field coordinates "namespace")
        version := text (field coordinates "version")
        targetPath := text (field coordinates "target_path")
        publisherIdentity := text (field (field package "publisher") "publisher_identity") }
    signers := (valid.keyIds.mergeSort fun a b => (byteOrder a b).isLE).filterMap
      (verifiedSigner root (text (field requiredSigners "package_role_id")))
    archive := packageArchive package
    manifestDigest := field package "manifest"
    provenance := provenanceEvidence package checked.failures
    trust :=
      { rootVersion := root.candidateVersion, rootSequence := root.candidateSequence
        rootTransitionFrom := root.oldVersion, indexGeneration := index.generation
        indexSequence := index.sequence, packageThreshold := packageThreshold requiredSigners
        packageValidSigners := valid.fingerprints.length
        indexThreshold := number (field requiredSigners "index_threshold")
        indexValidSigners := index.validSigners
        offlineMode := text (field offline "mode")
        networkFallback := (field offline "network_fallback").asBool
        consistentSnapshot := (field snapshot "enabled").asBool } }

def verifyPackage : PackageVerification :=
  match inputWorkBudgetFailure input with
  | some failure => inputFailureVerification failure
  | none =>
    if object input.verificationExpectation = none ∨ object input.packageSignature = none ∨
        object input.registryIndex = none ∨ object input.trustRoots = none then
      inputFailureVerification .missingOrUnreadable
    else verdict input (packageChecks prim input)

end Axiomc.Trust
