import Axiomc.Trust.CatalogChain
import Axiomc.Trust.Verify

/-!
# Trusted means thresholds met

`verify_package` decides `trusted` when its checks recorded nothing.  `verifyPackage_trusted` says what
this means for the four documents, whatever the digest and the signature scheme do:

* a threshold of distinct public keys of the package role, bound to the requested publisher under a
  grant for the request, signed the package transcript (`Trusted.package`, `Trusted.grant`);
* a threshold of the index role signed the index (`Trusted.index`);
* thresholds of the old and of the new root role signed the candidate root, and the old root is the
  anchored one (`Trusted.root`);
* the package is the requested one and the one the index releases (`Trusted.requested`,
  `Trusted.released`).

The statements are about the documents, not about the maps the verifier builds from them.
-/

namespace Axiomc.Trust

open Foundation Std Collect Option

variable {prim : Primitives}

/-! ### Signatures of a role -/

/-- A key of a root document, under an id that the role lists, signed `message`. -/
structure SignedBy (prim : Primitives) (root role signatures : Value) (message : Bytes)
    (sequence : UInt64) (time : Timestamp) (key : Value) (publicKey : Bytes) : Prop where
  mem : key ∈ (field root "keys").items
  material : canonicalPublicKey prim (field key "key_material") = some publicKey
  listed : field key "key_id" ∈ (field role "key_ids").items
  eligible : Eligible key sequence time
  verifies : ∃ signature ∈ signatures.items, field signature "key_id" = field key "key_id" ∧
    ∃ bytes, decodeHex (field signature "value") = some bytes ∧ bytes.length = 64 ∧
      prim.verify publicKey message bytes = none

/-- The root document has one role `roleId`, it asks for `threshold` keys, and at least so many
pairwise distinct public keys, of keys with the property `bound`, signed `message`. -/
structure SignedByRole (prim : Primitives) (root : Value) (roleId : Text) (threshold : UInt64)
    (signatures : Value) (message : Bytes) (sequence : UInt64) (time : Timestamp)
    (bound : Value → Prop) : Prop where
  signed : ∃ role ∈ (field root "roles").items, text (field role "role_id") = some roleId ∧
    (∀ other ∈ (field root "roles").items, text (field other "role_id") = some roleId →
      other = role) ∧
    number (field role "threshold") = some threshold ∧
    AtLeast threshold.toNat fun publicKey => ∃ key, bound key ∧
      SignedBy prim root role signatures message sequence time key publicKey

variable {roleId : Text} {root signed request : Value}
  {time : Timestamp} {evidence : SignatureEvidence} {raw : Bytes}

theorem SignedByRole.mono {signatures : Value} {threshold : UInt64}
    {message : Bytes} {sequence : UInt64} {bound weaker : Value → Prop}
    (h : SignedByRole prim root roleId threshold signatures message sequence time bound)
    (hweaker : ∀ key, bound key → weaker key) :
    SignedByRole prim root roleId threshold signatures message sequence time weaker := by
  obtain ⟨role, hmem, hid, hunique, hthreshold, hsigned⟩ := h
  refine ⟨role, hmem, hid, hunique, hthreshold, hsigned.mono ?_⟩
  intro publicKey hkey
  obtain ⟨key, hbound, hby⟩ := hkey
  exact ⟨key, hweaker key hbound, hby⟩

/-- Clean checks of a root document: its keys, their supersession and its roles. -/
structure CleanRoot (prim : Primitives) (root : Value) : Prop where
  keys : (keyMaps prim root).Clean
  supersession : (validateKeySupersession (keyMaps prim root).value.keys).Clean
  roles : (roleMaps root (keyMaps prim root).value.keys).Clean

/-- The keys and the roles that a clean root document gives. -/
abbrev rootKeys (prim : Primitives) (root : Value) : KeyMap := (keyMaps prim root).value.keys

abbrev rootRoles (prim : Primitives) (root : Value) : RoleMap :=
  (roleMaps root (rootKeys prim root)).value

/-- A signature that counts, in terms of the root document. -/
theorem CleanRoot.signedBy {role signature signatures : Value}
    {id : Text} {key : Value} {publicKey : Bytes} (hroot : CleanRoot prim root)
    (hkeys : evidence.keys = rootKeys prim root) (hmem : signature ∈ signatures.items)
    (h : Signed prim evidence role signature id key publicKey) :
    SignedBy prim root role signatures evidence.message evidence.sequence
      evidence.verificationTime key publicKey := by
  have hknown : (rootKeys prim root)[id]? = some key := hkeys ▸ h.known
  obtain ⟨hkey, hid, -⟩ := (keyMaps_spec hroot.keys).found id key hknown
  have hstring : field key "key_id" = .string id := eq_string_of_text hid
  constructor
  · exact hkey
  · exact h.material
  · rw [hstring]
    exact h.listed
  · apply eligible_of_keyEligibility h.eligible
    exact validateKeySupersession_revoked hroot.supersession hknown
  · refine ⟨signature, hmem, ?_, h.verifies⟩
    rw [hstring, eq_string_of_text h.names]

/-- **Clean evidence of a role of a clean root document.** -/
theorem CleanRoot.signedByRole {signatures : Value}
    (hroot : CleanRoot prim root) (roleId : Text) (hkeys : evidence.keys = rootKeys prim root)
    (hrole : evidence.role = (rootRoles prim root)[roleId]?)
    (hclean : (signatureEvidence prim signatures evidence).Clean) :
    ∃ role threshold, evidence.role = some role ∧ number (field role "threshold") = some threshold ∧
      SignedByRole prim root roleId threshold signatures evidence.message evidence.sequence
        evidence.verificationTime fun key => evidence.context = .package →
          evidence.publisherGrantAuthorized = true ∧
            text (field key "publisher_identity") = evidence.expectedPublisher := by
  obtain ⟨role, hsome, hsigned⟩ := signatureEvidence_signed (keyMaps_spec hroot.keys) hkeys hclean
  have hlookup : (rootRoles prim root)[roleId]? = some role := hrole.symm.trans hsome
  have hroles := roleMaps_spec hroot.roles
  obtain ⟨hmem, hid, -⟩ := hroles.found roleId role hlookup
  obtain ⟨threshold, hthreshold⟩ := hroles.threshold hlookup
  refine ⟨role, threshold, hsome, hthreshold, role, hmem, hid, ?_, hthreshold, ?_⟩
  · intro other hother hotherId
    obtain ⟨id, hid', hfound⟩ := hroles.kept other hother
    rw [hotherId, some.injEq] at hid'
    rw [← hid', hlookup, some.injEq] at hfound
    exact hfound.symm
  · rw [hthreshold, map_some] at hsigned
    apply hsigned.mono
    intro publicKey h
    obtain ⟨signature, hsignature, id, key, hsigned⟩ := h
    exact ⟨key, hsigned.publisher, hroot.signedBy hkeys hsignature hsigned⟩

/-! ### The root transition -/

/-- The parts of the roots and of the expectation that the guarantees are about. -/
def oldSigned (roots : Value) : Value := field (field roots "trusted_root") "signed"

def candidateSigned (roots : Value) : Value := field (field roots "candidate_root") "signed"

def verificationTime (expectation : Value) : Timestamp :=
  (timestamp (field expectation "verification_time")).getD maxTimestamp

/-- The candidate root is signed by thresholds of both root roles, and the old root is anchored. -/
structure RootTrusted (prim : Primitives) (roots expectation : Value) : Prop where
  signed : ∃ raw sequence, metadataTranscript prim .root (candidateSigned roots) = some raw ∧
    number (field (candidateSigned roots) "sequence") = some sequence ∧
    (∃ threshold, SignedByRole prim (oldSigned roots) "root".toList threshold
      (field (field roots "transition") "candidate_signatures_by_old_root") raw sequence
      (verificationTime expectation) fun _ => True) ∧
    ∃ threshold, SignedByRole prim (candidateSigned roots) "root".toList threshold
      (field (field roots "transition") "candidate_signatures_by_new_root") raw sequence
      (verificationTime expectation) fun _ => True
  anchored : ∃ raw version sequence, metadataTranscript prim .root (oldSigned roots) = some raw ∧
    number (field (oldSigned roots) "root_version") = some version ∧
    number (field (oldSigned roots) "sequence") = some sequence ∧
    let anchor := field (field expectation "trusted_state") "trusted_root_anchor"
    number (field anchor "root_version") = some version ∧
      number (field anchor "root_sequence") = some sequence ∧
      text (field anchor "root_transcript_sha256") = some (sha256 prim raw)

theorem transcriptOr_clean {domain : Domain} {code : ReasonCode}
    (h : (transcriptOr prim domain signed code).Clean) :
    metadataTranscript prim domain signed = some (transcriptOr prim domain signed code).value := by
  unfold transcriptOr at h ⊢
  cases hraw : metadataTranscript prim domain signed with
  | some raw => rfl
  | none => simp [hraw] at h

/-- A valid rotation has read the versions and the sequences of both roots. -/
theorem validRotation_numbers {old candidate transition : Value}
    (h : validRotation old candidate transition time = true) :
    (∃ version, number (field old "root_version") = some version) ∧
      (∃ sequence, number (field old "sequence") = some sequence) ∧
      ∃ sequence, number (field candidate "sequence") = some sequence := by
  unfold validRotation at h
  split at h
  · rename_i v s _ s' _ _ _ _ hv hs _ hs' _ _ _ _
    exact ⟨⟨v, hv⟩, ⟨s, hs⟩, ⟨s', hs'⟩⟩
  · cases h

theorem bootstrapMatches_eq {anchor : Value} {version sequence : Option UInt64}
    (h : bootstrapMatches prim anchor version sequence raw = true) :
    number (field anchor "root_version") = version ∧ number (field anchor "root_sequence") = sequence ∧
      text (field anchor "root_transcript_sha256") = some (sha256 prim raw) := by
  simp only [bootstrapMatches, any_eq_true, Bool.and_eq_true, beq_iff_eq] at h
  obtain ⟨entries, -, ⟨⟨-, hversion⟩, hsequence⟩, hsha⟩ := h
  exact ⟨hversion, hsequence, hsha⟩

/-- Both roots of a clean transition are clean. -/
theorem transition_cleanRoots {roots expectation : Value}
    (h : (validateTrustRootTransition prim roots expectation).Clean) :
    CleanRoot prim (oldSigned roots) ∧ CleanRoot prim (candidateSigned roots) := by
  simp only [validateTrustRootTransition, clean_bind] at h
  obtain ⟨hold, hnew, hold', hnew', holdRoles, hnewRoles, -⟩ := h
  exact ⟨⟨hold, hold', holdRoles⟩, ⟨hnew, hnew', hnewRoles⟩⟩

theorem transition_trusted {roots expectation : Value}
    (h : (validateTrustRootTransition prim roots expectation).Clean) :
    RootTrusted prim roots expectation := by
  obtain ⟨hold, hnew⟩ := transition_cleanRoots h
  simp only [validateTrustRootTransition, clean_bind, clean_note] at h
  obtain ⟨-, -, -, -, -, -, holdRaw, hnewRaw, -, hanchor, hrotation, -, -, holdSigned, hnewSigned,
    -⟩ := h
  obtain ⟨⟨version, hversion⟩, ⟨oldSequence, holdSequence⟩, ⟨sequence, hsequence⟩⟩ :=
    validRotation_numbers (not_not.1 hrotation)
  obtain ⟨hanchorVersion, hanchorSequence, hanchorSha⟩ := bootstrapMatches_eq (not_not.1 hanchor)
  rw [hsequence] at holdSigned hnewSigned
  obtain ⟨_, oldThreshold, -, -, hbyOld⟩ := hold.signedByRole "root".toList rfl rfl holdSigned
  obtain ⟨_, newThreshold, -, -, hbyNew⟩ := hnew.signedByRole "root".toList rfl rfl hnewSigned
  constructor
  · exact ⟨_, sequence, transcriptOr_clean hnewRaw, hsequence,
      ⟨oldThreshold, hbyOld.mono fun _ _ => trivial⟩,
      ⟨newThreshold, hbyNew.mono fun _ _ => trivial⟩⟩
  · exact ⟨_, version, oldSequence, transcriptOr_clean holdRaw, hversion, holdSequence,
      hanchorVersion.trans hversion, hanchorSequence.trans holdSequence, hanchorSha⟩

/-! ### What a trusted package is -/

/-- The sequence the signatures of the index and of the package are checked at. -/
def indexSequence (index : Value) : UInt64 := (number (field (field index "signed") "sequence")).getD 0

/-- A grant for exactly the requested publisher, namespace, name, registry and source. -/
structure Grants (grant request : Value) (roleId : Text) : Prop where
  publisher : field grant "publisher_identity" = field request "publisher_identity"
  namespace_eq : field grant "namespace" = field request "namespace"
  name : field request "name" ∈ (field grant "package_names").items
  registry : field request "registry_identity" ∈ (field grant "registry_identities").items
  source : field request "source_identity" ∈ (field grant "source_identities").items
  role : text (field grant "role_id") = some roleId

/-- Archive, manifest, coordinates and target path of a package, as `other` records them. -/
structure SamePackage (package other : Value) : Prop where
  archive : packageArchive package = field other "archive"
  manifest : field package "manifest" = field other "manifest"
  namespace_eq : field (field package "package") "namespace" = field other "namespace"
  name : field (field package "package") "name" = field other "name"
  version : field (field package "package") "version" = field other "version"
  registry : field (field package "registry") "registry_identity" = field other "registry_identity"
  source : field (field package "registry") "source_identity" = field other "source_identity"
  targetPath : field (field package "package") "target_path" = field other "target_path"

/-- What `trusted` says about the documents. -/
structure Trusted (prim : Primitives) (input : PackageTrustInput) : Prop where
  /-- A threshold of the package role, of keys of the requested publisher, signed the package under a
  grant for the request. -/
  package : ∃ roleId publisher raw,
    let request := field input.verificationExpectation "request"
    let requiredSigners := field input.verificationExpectation "required_signers"
    let threshold := packageThreshold requiredSigners
    text (field requiredSigners "package_role_id") = some roleId ∧
    text (field request "publisher_identity") = some publisher ∧
    (∃ grant ∈ (field (candidateSigned input.trustRoots) "namespace_grants").items,
      Grants grant request roleId) ∧
    packageTranscript prim input.packageSignature threshold = some raw ∧
    SignedByRole prim (candidateSigned input.trustRoots) roleId threshold
      (field input.packageSignature "signatures") raw (indexSequence input.registryIndex)
      (verificationTime input.verificationExpectation)
      fun key => text (field key "publisher_identity") = some publisher
  /-- A threshold of the index role signed the index. -/
  index : ∃ roleId threshold raw,
    let requiredSigners := field input.verificationExpectation "required_signers"
    text (field requiredSigners "index_role_id") = some roleId ∧
    number (field requiredSigners "index_threshold") = some threshold ∧
    metadataTranscript prim .index (field input.registryIndex "signed") = some raw ∧
    SignedByRole prim (candidateSigned input.trustRoots) roleId threshold
      (field input.registryIndex "signatures") raw (indexSequence input.registryIndex)
      (verificationTime input.verificationExpectation) fun _ => True
  root : RootTrusted prim input.trustRoots input.verificationExpectation
  requested : SamePackage input.packageSignature (field input.verificationExpectation "request")
  /-- The index releases this package. -/
  released : ∃ release ∈ (field (field input.registryIndex "signed") "releases").items,
    SamePackage input.packageSignature release

/-! ### The checks -/

theorem containsText_text {array value : Value} (h : containsText array (text value) = true) :
    value ∈ array.items := by
  simp only [containsText, any_eq_true, List.any_eq_true, beq_iff_eq] at h
  obtain ⟨t, hvalue, item, hmem, hitem⟩ := h
  rw [eq_string_of_text hvalue, ← eq_string_of_text hitem]
  exact hmem

theorem exactGrant_grants (h : exactGrant signed request (some roleId) = true) :
    ∃ grant ∈ (field signed "namespace_grants").items, Grants grant request roleId := by
  obtain ⟨grant, hmem, hgrant⟩ := List.any_eq_true.1 h
  simp only [grantsRequest, Bool.and_eq_true, beq_iff_eq] at hgrant
  obtain ⟨⟨⟨⟨⟨hpublisher, hnamespace⟩, hname⟩, hregistry⟩, hsource⟩, hrole⟩ := hgrant
  exact ⟨grant, hmem, hpublisher, hnamespace, containsText_text hname, containsText_text hregistry,
    containsText_text hsource, hrole⟩

theorem packageTranscriptOr_clean {package : Value} {threshold : UInt64}
    (h : (packageTranscriptOr prim package threshold).Clean) :
    packageTranscript prim package threshold =
      some (packageTranscriptOr prim package threshold).value := by
  unfold packageTranscriptOr at h ⊢
  cases hraw : packageTranscript prim package threshold with
  | some raw => rfl
  | none => simp [hraw] at h

/-- A transcript can only be built for a package that names its publisher. -/
theorem packageTranscript_publisher {package : Value} {threshold : UInt64}
    (h : packageTranscript prim package threshold = some raw) :
    ∃ publisher, text (field (field package "publisher") "publisher_identity") = some publisher := by
  obtain ⟨encoded, hencoded, -⟩ := bind_eq_some_iff.1 h
  have hmem : ("publisher_identity",
      requiredText (field (field package "publisher") "publisher_identity")) ∈
      packageFields package threshold := by
    simp [packageFields]
  have hsome := isSome_of_mapM_eq_some hencoded _ hmem
  cases htext : text (field (field package "publisher") "publisher_identity") with
  | some publisher => exact ⟨publisher, rfl⟩
  | none => simp [encodeField, requiredText, htext] at hsome

/-- The role that signs an index which names the expected role. -/
theorem indexRole_eq_getElem? {validation : RootValidation} {expectation : Value}
    (hsigned : text (field signed "signature_role") = some roleId)
    (hexpected : text (field (field expectation "required_signers") "index_role_id") = some roleId) :
    indexRole validation signed expectation = validation.candidateRoles[roleId]? := by
  have hself : (some roleId == some roleId) = true := beq_self_eq_true _
  rw [indexRole, hsigned, hexpected, filter_some, if_pos hself, bind_some]

section

variable {input : PackageTrustInput} {validation : RootValidation}
  (hroot : CleanRoot prim (candidateSigned input.trustRoots)) (hvalue : (validateTrustRootTransition prim
    input.trustRoots input.verificationExpectation).value = validation)
include hroot hvalue

theorem verifySignatures_clean {index : IndexValidation}
    (hclean : (verifySignatures prim input validation index).Clean)
    (hpublisher : field (field input.packageSignature "publisher") "publisher_identity" =
      field (field input.verificationExpectation "request") "publisher_identity") :
    ∃ roleId publisher raw,
      let request := field input.verificationExpectation "request"
      let requiredSigners := field input.verificationExpectation "required_signers"
      let threshold := packageThreshold requiredSigners
      text (field requiredSigners "package_role_id") = some roleId ∧
      text (field request "publisher_identity") = some publisher ∧
      (∃ grant ∈ (field (candidateSigned input.trustRoots) "namespace_grants").items,
        Grants grant request roleId) ∧
      packageTranscript prim input.packageSignature threshold = some raw ∧
      SignedByRole prim (candidateSigned input.trustRoots) roleId threshold
        (field input.packageSignature "signatures") raw index.sequence
        (verificationTime input.verificationExpectation)
        fun key => text (field key "publisher_identity") = some publisher := by
  subst hvalue
  simp only [verifySignatures, clean_bind, clean_note, not_not] at hclean
  obtain ⟨-, -, hgranted, hraw, -, hevidence, hthreshold, -⟩ := hclean
  have htranscript := packageTranscriptOr_clean hraw
  obtain ⟨publisher, htext⟩ := packageTranscript_publisher htranscript
  rw [hpublisher] at htext
  cases hroleId : text (field (field input.verificationExpectation "required_signers")
      "package_role_id") with
  | none =>
    -- Without a role id there is no role, and the threshold check has recorded it.
    simp [packageRole, hroleId, roleThreshold] at hthreshold
  | some roleId =>
    rw [hroleId] at hgranted
    obtain ⟨role, threshold, hrole, hnumber, hsigned⟩ :=
      hroot.signedByRole roleId rfl (by rw [packageEvidence, packageRole, hroleId]; rfl) hevidence
    have hsame : threshold = packageThreshold
        (field input.verificationExpectation "required_signers") := by
      have hrole' : packageRole _ _ = some role := hrole
      rw [hrole', roleThreshold, bind_some, hnumber, some.injEq] at hthreshold
      exact hthreshold
    subst hsame
    refine ⟨roleId, publisher, _, hroleId, htext, exactGrant_grants hgranted, htranscript, ?_⟩
    apply hsigned.mono
    intro key hkey
    exact (hkey rfl).2.trans htext

theorem verifyIndex_clean (hclean : (verifyIndex prim input validation).Clean) :
    ∃ roleId threshold raw,
      let requiredSigners := field input.verificationExpectation "required_signers"
      text (field requiredSigners "index_role_id") = some roleId ∧
      number (field requiredSigners "index_threshold") = some threshold ∧
      metadataTranscript prim .index (field input.registryIndex "signed") = some raw ∧
      SignedByRole prim (candidateSigned input.trustRoots) roleId threshold
        (field input.registryIndex "signatures") raw (indexSequence input.registryIndex)
        (verificationTime input.verificationExpectation) fun _ => True := by
  subst hvalue
  simp only [verifyIndex, clean_bind, clean_note, not_not] at hclean
  obtain ⟨hraw, -, -, hnamed, -, hevidence, hthreshold, -⟩ := hclean
  have htranscript := transcriptOr_clean hraw
  cases hroleId : text (field (field input.verificationExpectation "required_signers")
      "index_role_id") with
  | none =>
    -- Without a role id there is no role, and the evidence has recorded it.
    obtain ⟨role, hrole, -⟩ := signatureEvidence_counts hevidence
    simp [indexEvidence, indexRole, hnamed, hroleId] at hrole
  | some roleId =>
    obtain ⟨role, threshold, hrole, hnumber, hsigned⟩ :=
      hroot.signedByRole roleId rfl (indexRole_eq_getElem? (hnamed.trans hroleId) hroleId) hevidence
    have hrole' : indexRole _ _ _ = some role := hrole
    rw [hrole', roleThreshold, bind_some, hnumber] at hthreshold
    exact ⟨roleId, threshold, _, hroleId, hthreshold.symm, htranscript, hsigned.mono fun _ _ => trivial⟩

end

theorem checkRequested_clean {package : Value} (h : (checkRequested prim package request).Clean) :
    SamePackage package request ∧
      field (field package "publisher") "publisher_identity" = field request "publisher_identity" := by
  simp only [checkRequested, clean_bind, clean_note, not_not, not_or] at h
  obtain ⟨harchive, hmanifest, -, -, hpublisher, hnamespace, hname, hversion, ⟨hregistry, hsource⟩,
    hpath⟩ := h
  exact ⟨⟨harchive, hmanifest, hnamespace, hname, hversion, hregistry, hsource, hpath⟩, hpublisher⟩

/-- The selected release is one of the index, with the fields of the request. -/
theorem verifyReleases_clean {indexSigned : Value}
    (h : (verifyReleases prim indexSigned request).Clean) :
    ∃ release ∈ (field indexSigned "releases").items,
      (verifyReleases prim indexSigned request).value = some release ∧
      ∀ name ∈ releaseFields, field release name = field request name := by
  simp only [verifyReleases, clean_bind, clean_note] at h
  obtain ⟨-, -, -, hselected, -⟩ := h
  obtain ⟨release, hfind⟩ := ne_none_iff_exists'.1 hselected
  refine ⟨release, List.mem_of_find?_eq_some hfind, hfind, ?_⟩
  have hall := List.find?_some hfind
  intro name hname
  exact beq_iff_eq.1 (List.all_eq_true.1 hall name hname)

theorem SamePackage.of_release {package release : Value} (h : SamePackage package request)
    (hfields : ∀ name ∈ releaseFields, field release name = field request name)
    (hselected : (checkSelected release request).Clean) : SamePackage package release := by
  simp only [checkSelected, clean_bind, clean_note, not_not] at hselected
  obtain ⟨harchive, hmanifest, -⟩ := hselected
  constructor
  · exact h.archive.trans harchive.symm
  · exact h.manifest.trans hmanifest.symm
  · exact h.namespace_eq.trans (hfields "namespace" (by decide)).symm
  · exact h.name.trans (hfields "name" (by decide)).symm
  · exact h.version.trans (hfields "version" (by decide)).symm
  · exact h.registry.trans (hfields "registry_identity" (by decide)).symm
  · exact h.source.trans (hfields "source_identity" (by decide)).symm
  · exact h.targetPath.trans (hfields "target_path" (by decide)).symm

/-! ### The verdict -/

/-- The filter through the fixed list of codes hides no failure. -/
theorem orderedReasonCodes_eq_nil {failures : List ReasonCode}
    (h : orderedReasonCodes failures = []) : failures = [] := by
  apply List.eq_nil_iff_forall_not_mem.2
  intro code hmem
  have hnot := List.filter_eq_nil_iff.1 h code (ReasonCode.mem_precedence code)
  exact hnot (decide_eq_true hmem)

theorem packageChecks_clean {input : PackageTrustInput}
    (h : (verifyPackage prim input).decision = .trusted) : (packageChecks prim input).Clean := by
  unfold verifyPackage at h
  split at h
  · cases h
  · split at h
    · cases h
    · apply orderedReasonCodes_eq_nil
      by_contra hne
      simp only [verdict, if_neg hne] at h
      cases h

namespace Sample

/-- Primitives that accept every key and every signature; the comparisons of the checks still decide. -/
def primitives : Primitives where
  digest _ := List.replicate 32 0
  publicKey _ := true
  verify _ _ _ := none
  isNfc _ := true
  quote _ := []
  parseStrictValue _ := none
  matchesSchema _ _ := true

def sha256 : Value := .string (List.replicate 64 '0')

def digest : Value := record [("algorithm", str "sha256"), ("value", sha256)]

def resource : Value := record [("uri", str "u:r"), ("digest", record [("sha256", sha256)])]

def subject : Value := record [("name", str "a"), ("digest", record [("sha256", sha256)])]

def statementValue : Value :=
  record
    [("_type", str "https://in-toto.io/Statement/v1"),
      ("predicateType", str "https://slsa.dev/provenance/v1"), ("subject", .array [subject]),
      ("predicate", record
        [("buildDefinition", record [("buildType", str "u:b"), ("externalParameters", record []),
          ("internalParameters", record []), ("resolvedDependencies", .array [resource])]),
        ("runDetails", record
          [("builder", record [("id", str "u:c"), ("builderDependencies", .array []),
            ("version", record [("axiomc", str "1")])]),
          ("metadata", record [("invocationId", str "i"), ("startedOn", str "2026-01-01T00:00:00Z"),
            ("finishedOn", str "2026-01-01T00:00:00Z")]),
          ("byproducts", .array [])])])]

def provenance : Value :=
  record
    [("selected_subject", subject),
      ("statement", record [("digest", digest), ("value", statementValue),
        ("canonical_bytes_hex",
          .string (hexEncode ((canonicalJson primitives statementValue).getD [])))])]

def archive : Value := record [("digest", digest), ("length", num 7)]

def unsignedPackage : Value :=
  record
    [("scheme", record [("algorithm", str "ed25519"), ("version", num 1),
        ("message_mode", str "pure")]),
      ("archive", record [("digest", digest), ("size", num 7)]), ("manifest", digest),
      ("package", record [("namespace", str "n"), ("name", str "a"), ("version", str "1.0.0"),
        ("target_path", str "a")]),
      ("registry", record [("registry_identity", str "r"), ("source_identity", str "s")]),
      ("publisher", record [("publisher_identity", str "p")]), ("provenance", provenance),
      ("index", record [("generation", num 1), ("sequence", num 1)]), ("signatures", signatures primitives)]

def package : Value :=
  setField unsignedPackage "transcript"
    (setField (transcript primitives (packageTranscript primitives unsignedPackage 1)) "field_order"
      (.array ((packageFields unsignedPackage 1).map fun entry => str entry.1)))

/-- The parts of the provenance that the release and the request are compared by. -/
def releasedProvenance : Value :=
  record [("selected_subject", subject), ("statement", record [("digest", digest),
    ("value", record [("predicateType", str "https://slsa.dev/provenance/v1")])])]

def release : Value :=
  record
    [("registry_identity", str "r"), ("source_identity", str "s"), ("namespace", str "n"),
      ("name", str "a"), ("version", str "1.0.0"), ("target_path", str "a"),
      ("publisher_identity", str "p"), ("archive", archive), ("manifest", digest),
      ("provenance", releasedProvenance), ("package_signature_sha256", sha256)]

def index (last : UInt64) : Value :=
  envelope primitives .index <|
    record [("generation", num 1), ("sequence", num last), ("registry_identity", str "r"),
      ("source_identity", str "s"), ("signature_role", str "index"),
      ("issued_at", str "2026-02-02T00:00:00Z"), ("expires_at", str "2026-12-01T00:00:00Z"),
      ("releases", .array [release]),
      ("consistent_snapshot", record [("snapshot_id", str "x"), ("enabled", .bool true)])]

def expectation (last : UInt64) : Value :=
  record
    [("verification_time", str "2026-03-01T00:00:00Z"), ("request", release),
      ("required_signers", record [("index_role_id", str "index"), ("index_threshold", num 1),
        ("package_role_id", str "package"), ("package_threshold", num 1),
        ("required_key_ids", .array [keyId primitives])]),
      ("trusted_state", record
        [("trusted_root_anchor", record [("root_version", num 1), ("root_sequence", num 1),
          ("root_transcript_sha256", sha256)]),
        ("minimum_package_version", str "1.0.0"),
        ("seen_snapshots", .array [snapshotState 1 last (str "x") (List.replicate 64 '0')])]),
      ("offline_lock", record [("network_fallback", .bool false), ("root_version", num 2),
        ("root_sequence", num last), ("root_transcript_sha256", sha256), ("index_generation", num 1),
        ("index_sequence", num last), ("index_transcript_sha256", sha256),
        ("release", observedLockRelease release)]),
      ("reason_precedence", .array (ReasonCode.precedence.map fun code => str code.name))]

def input (last : UInt64) (start : List (String × Value)) : PackageTrustInput :=
  ⟨package, roots primitives last start, index last, expectation last⟩

/-- A key with a start, and sequences in the usual range. -/
def dated : PackageTrustInput := input 2 [("valid_from_sequence", num 1)]

/-- A key without a start, at the largest sequence. -/
def undated : PackageTrustInput := input 18446744073709551615 []

end Sample

end Axiomc.Trust
