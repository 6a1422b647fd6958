import Axiomc.Trust.Roots

/-!
# Registry catalogs

`authenticate_registry_catalog` of `package_trust.rs`: it accepts the bytes of a registry index against
trust roots and an expectation, or answers with reason codes.

The rules about earlier snapshots are `checkFreshness`.  They only run when the index is authenticated
(`indexAuthenticated`).
-/

namespace Axiomc.Trust

open Foundation Std Collect

variable (prim : Primitives)

/-! ### Releases -/

structure AuthenticatedRegistryArtifactPaths where
  archive : Text
  manifest : Text
  provenance : Text
  packageSignature : Text
  deriving DecidableEq

structure AuthenticatedRegistryRelease where
  registryIdentity : Text
  sourceIdentity : Text
  (namespace' name version : Text)
  targetPath : Text
  publisherIdentity : Text
  archiveLength : UInt64
  archiveSha256 : Text
  manifestSha256 : Text
  provenanceStatementSha256 : Text
  provenancePredicateType : Text
  provenanceSubjectName : Text
  provenanceSubjectSha256 : Text
  packageSignatureSha256 : Text
  yanked : Bool
  yankReason : Option Text
  artifactPaths : AuthenticatedRegistryArtifactPaths
  authenticatedValue : Value

def safeTargetPath (path : Text) : Bool :=
  prim.isNfc path && !path.isEmpty && path.head? != some '/' && !path.contains '\\' &&
    !path.contains (Char.ofNat 0) &&
    (path.splitOn '/').all fun component =>
      !(component.isEmpty || component == ['.'] || component == ['.', '.'])

/-- `str::strip_suffix`. -/
def stripEnd (tail text : Text) : Option Text :=
  (stripStart tail.reverse text.reverse).map List.reverse

def registryArtifactPaths (targetPath : Text) : Option AuthenticatedRegistryArtifactPaths :=
  if ¬ safeTargetPath prim targetPath then none
  else
    match stripEnd "/package.axp".toList targetPath with
    | none => none
    | some releaseDir =>
      if releaseDir.isEmpty then none
      else
        some
          { archive := targetPath
            manifest := releaseDir ++ "/axiom.toml".toList
            provenance := releaseDir ++ "/provenance.json".toList
            packageSignature := releaseDir ++ "/package.axp.sig".toList }

def authenticatedRegistryRelease (value : Value) : Option AuthenticatedRegistryRelease := do
  let provenance := field value "provenance"
  let statement := field provenance "statement"
  let subject := field provenance "selected_subject"
  let targetPath ← text (field value "target_path")
  let registryIdentity ← text (field value "registry_identity")
  let sourceIdentity ← text (field value "source_identity")
  let namespace' ← text (field value "namespace")
  let name ← text (field value "name")
  let version ← text (field value "version")
  let publisherIdentity ← text (field value "publisher_identity")
  let archiveLength ← number (field (field value "archive") "length")
  let archiveSha256 ← text (field (field (field value "archive") "digest") "value")
  let manifestSha256 ← text (field (field value "manifest") "value")
  let provenanceStatementSha256 ← text (field (field statement "digest") "value")
  let provenancePredicateType ← text (field (field statement "value") "predicateType")
  let provenanceSubjectName ← text (field subject "name")
  let provenanceSubjectSha256 ← text (field (field subject "digest") "sha256")
  let packageSignatureSha256 ← text (field value "package_signature_sha256")
  let yanked ← (field value "yanked").asBool
  let artifactPaths ← registryArtifactPaths prim targetPath
  some
    { registryIdentity, sourceIdentity, namespace', name, version, targetPath, publisherIdentity
      archiveLength, archiveSha256, manifestSha256, provenanceStatementSha256
      provenancePredicateType, provenanceSubjectName, provenanceSubjectSha256
      packageSignatureSha256, yanked, yankReason := text (field value "yank_reason"), artifactPaths
      authenticatedValue := value }

/-- The coordinate of a release: the texts that identify it, `none` for what is no text. -/
def releaseCoordinate (release : Value) : List (Option Text) :=
  ["registry_identity", "source_identity", "namespace", "name", "version"].map fun name =>
    text (field release name)

/-- The checks on one release, given those before it. -/
def checkRelease (signed : Value) (before : List Value) (release : Value) : Checked Unit := do
  let targetPath := text (field release "target_path")
  note (∃ r ∈ before, releaseCoordinate r = releaseCoordinate release ∧
    text (field r "target_path") = targetPath) .duplicateRelease
  note (∃ r ∈ before, releaseCoordinate r = releaseCoordinate release) .duplicatePackageCoordinate
  note (∃ r ∈ before, text (field r "target_path") = targetPath) .duplicateTargetPath
  note (field release "registry_identity" ≠ field signed "registry_identity" ∨
    field release "source_identity" ≠ field signed "source_identity") .sourceMismatch
  note (targetPath.bind (registryArtifactPaths prim) = none) .targetPathInvalid

def checkReleases (signed : Value) (releases : List Value) : Checked Unit := do
  let _ ← releases.foldlM
    (fun before release => do
      checkRelease prim signed before release
      pure (before ++ [release])) []
  note ((releases.filterMap (authenticatedRegistryRelease prim)).length ≠ releases.length)
    .indexDigestMismatch

/-! ### Freshness -/

/-- `snapshot_state`, its entries in the order of their keys. -/
def snapshotState (generation sequence : UInt64) (snapshotId : Value) (transcriptSha256 : Text) :
    Value :=
  .object
    [("generation".toList, .number (.unsigned generation)),
      ("index_transcript_sha256".toList, .string transcriptSha256),
      ("sequence".toList, .number (.unsigned sequence)),
      ("snapshot_id".toList, snapshotId)]

/-- A snapshot is recorded at a position. -/
def atPosition (generation sequence : UInt64) (seen : Value) : Bool :=
  number (field seen "generation") == some generation &&
    number (field seen "sequence") == some sequence

/-- A recorded snapshot that shares the position, the id or the hash, and is another one. -/
def rebinds (generation sequence : UInt64) (state seen : Value) : Bool :=
  (object seen).isSome && seen != state &&
    (atPosition generation sequence seen ||
      field seen "snapshot_id" == field state "snapshot_id" ||
      field seen "index_transcript_sha256" == field state "index_transcript_sha256")

/-- The hash recorded at a position, the first that is a text. -/
def recordedSha256 (seen : List Value) (generation sequence : UInt64) : Option Text :=
  seen.findSome? fun snapshot =>
    if atPosition generation sequence snapshot then
      text (field snapshot "index_transcript_sha256")
    else none

/-- The rules about rollback, replay and predecessors, for an authenticated index. -/
def checkFreshness (trustedState signed : Value) (generation sequence : UInt64)
    (transcriptSha256 : Text) : Checked Unit := do
  let highestGeneration := (number (field trustedState "highest_index_generation")).getD generation
  let highestSequence := (number (field trustedState "highest_index_sequence")).getD sequence
  note (generation < highestGeneration ∨ sequence < highestSequence) .rollbackDetected
  note (generation < highestGeneration ∨ sequence < highestSequence) .metadataReplayed
  let seen := (field trustedState "seen_snapshots").items
  let snapshot := field signed "consistent_snapshot"
  let state := snapshotState generation sequence (field snapshot "snapshot_id") transcriptSha256
  let highestSeen := seen.any (atPosition highestGeneration highestSequence)
  note (¬ highestSeen) .offlineInputMissing
  note ((generation > highestGeneration ∨ sequence > highestSequence) ∧
    text (field snapshot "previous_snapshot_sha256") ≠
      recordedSha256 seen highestGeneration highestSequence) .metadataReplayed
  note ((∃ s ∈ seen, rebinds generation sequence state s) ∨
    (generation = highestGeneration ∧ sequence = highestSequence ∧ highestSeen ∧ state ∉ seen))
    .metadataReplayed

/-! ### The catalog -/

structure AuthenticatedRegistryCatalog where
  registryIdentity : Text
  sourceIdentity : Text
  trustedRootVersion : UInt64
  trustedRootSequence : UInt64
  trustedRootTranscriptSha256 : Text
  rootVersion : UInt64
  rootSequence : UInt64
  rootTranscriptSha256 : Text
  generation : UInt64
  sequence : UInt64
  snapshotId : Text
  indexTranscriptSha256 : Text
  indexSignerKeyIds : List Text
  releases : List AuthenticatedRegistryRelease
  exactIndexBytes : Bytes

/-- The checks before the root transition: budgets and schemas. -/
def checkInputs (roots expectation : Value) : Checked Unit := do
  note (¬ validateDocumentWorkBudget roots .roots ∨ ¬ prim.matchesSchema .roots roots)
    .rootDigestMismatch
  note (¬ validateDocumentWorkBudget expectation .expectation ∨
    ¬ prim.matchesSchema .expectation expectation) .offlineInputMissing

/-- The role that must sign the index, when the index names the expected one. -/
def indexRole (validation : RootValidation) (signed expectation : Value) : Option Value :=
  let expected := text (field (field expectation "required_signers") "index_role_id")
  ((text (field signed "signature_role")).filter fun id => some id == expected).bind fun id =>
    validation.candidateRoles[id]?

def roleThreshold (role : Option Value) : Option UInt64 :=
  role.bind fun role => number (field role "threshold")

/-- The evidence the index signatures are checked with. -/
def indexEvidence (validation : RootValidation) (role : Option Value) (raw : Bytes)
    (sequence : UInt64) : SignatureEvidence :=
  { role := role, keys := validation.candidateKeys, message := raw, sequence := sequence
    verificationTime := validation.verificationTime, context := .index }

/-- The condition under which the freshness rules run. -/
def indexAuthenticated (index : Value) (raw : Bytes) (role : Option Value)
    (expected : Option UInt64) (signers : Nat) : Bool :=
  transcriptMatches prim index raw && role.isSome && roleThreshold role == expected &&
    expected.any fun threshold => signers ≥ threshold.toNat

/-- The checks on the index after the root transition, and the key ids that signed it. -/
def checkIndex (index expectation : Value) (validation : RootValidation) :
    Checked (List Text) := do
  let signed := field index "signed"
  let raw ← transcriptOr prim .index signed .indexDigestMismatch
  note (¬ transcriptMatches prim index raw) .indexDigestMismatch
  note ((timestamp (field signed "issued_at")).all (fun issued =>
      issued > validation.verificationTime) ∨
    (timestamp (field signed "expires_at")).all fun expiry =>
      expiry ≤ validation.verificationTime) .metadataExpired
  let generation := (number (field signed "generation")).getD 0
  let sequence := (number (field signed "sequence")).getD 0
  let request := field expectation "request"
  note (field signed "registry_identity" ≠ field request "registry_identity" ∨
    field signed "source_identity" ≠ field request "source_identity") .sourceMismatch
  let requiredSigners := field expectation "required_signers"
  note (text (field signed "signature_role") ≠ text (field requiredSigners "index_role_id"))
    .indexThresholdNotMet
  let role := indexRole validation signed expectation
  let valid ← signatureEvidence prim (field index "signatures")
    (indexEvidence validation role raw sequence)
  let expected := number (field requiredSigners "index_threshold")
  note (roleThreshold role ≠ expected) .indexThresholdNotMet
  guarded (indexAuthenticated prim index raw role expected valid.fingerprints.length)
    (checkFreshness (field expectation "trusted_state") signed generation sequence
      (sha256 prim raw))
  checkReleases prim signed (field signed "releases").items
  pure valid.keyIds

/-- `RegistryCatalogAuthenticationError`: the reason codes in order. -/
abbrev CatalogError := List ReasonCode

def authenticateRegistryCatalog (indexBytes : Bytes) (roots expectation : Value) :
    Except CatalogError AuthenticatedRegistryCatalog :=
  match parseSchemaDocument prim indexBytes .index with
  | none => .error [.indexDigestMismatch]
  | some index =>
    let inputs := checkInputs prim roots expectation
    if ¬ inputs.Clean then .error (orderedReasonCodes inputs.failures)
    else
      let checked := do
        let validation ← validateTrustRootTransition prim roots expectation
        let signers ← checkIndex prim index expectation validation
        pure (validation, signers)
      if ¬ checked.Clean then .error (orderedReasonCodes checked.failures)
      else
        let signed := field index "signed"
        let trustedSigned := field (field roots "trusted_root") "signed"
        let candidateSigned := field (field roots "candidate_root") "signed"
        .ok
          { registryIdentity := (text (field signed "registry_identity")).getD []
            sourceIdentity := (text (field signed "source_identity")).getD []
            trustedRootVersion := (number (field trustedSigned "root_version")).getD 0
            trustedRootSequence := (number (field trustedSigned "sequence")).getD 0
            trustedRootTranscriptSha256 :=
              sha256 prim ((metadataTranscript prim .root trustedSigned).getD [])
            rootVersion := checked.value.1.candidateVersion.getD 0
            rootSequence := checked.value.1.candidateSequence.getD 0
            rootTranscriptSha256 :=
              sha256 prim ((metadataTranscript prim .root candidateSigned).getD [])
            generation := (number (field signed "generation")).getD 0
            sequence := (number (field signed "sequence")).getD 0
            snapshotId := (text (field (field signed "consistent_snapshot") "snapshot_id")).getD []
            indexTranscriptSha256 :=
              sha256 prim ((metadataTranscript prim .index signed).getD [])
            indexSignerKeyIds := checked.value.2.mergeSort fun a b => (byteOrder a b).isLE
            releases := (field signed "releases").items.filterMap (authenticatedRegistryRelease prim)
            exactIndexBytes := indexBytes }

end Axiomc.Trust
