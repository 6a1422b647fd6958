import Axiomc.Trust.Roots

/-!
# What clean key maps, role maps and signatures say

The checks of a root document and of its signatures record failures into one list.  This file says
what holds of the documents when they recorded nothing:

* `keyMaps_spec`: the key map has exactly the keys of the document, under their ids, and two ids never
  share a public key;
* `roleMaps_spec`: the role map has exactly the roles of the document, each with a threshold;
* `eligible_of_keyEligibility`: which keys may sign at a sequence and a time;
* `signatureEvidence_signed`: a threshold of pairwise distinct public keys verified the message.

Nothing is assumed of the digest or of the signature scheme.
-/

namespace Axiomc.Trust

open Foundation Std Collect Option

variable {prim : Primitives}

/-! ### Keys -/

/-- What the key map says about the keys read so far. -/
structure KeyScan.Reads (prim : Primitives) (done : List Value) (scan : KeyScan) : Prop where
  found : ∀ (id : Text) (key : Value), scan.keys[id]? = some key →
    key ∈ done ∧ text (field key "key_id") = some id ∧
    ∃ publicKey, canonicalPublicKey prim (field key "key_material") = some publicKey ∧
      publicKey ∈ scan.seenPublic
  kept : ∀ key ∈ done, ∃ id : Text, text (field key "key_id") = some id ∧ scan.keys[id]? = some key
  distinct : ∀ (id id' : Text) (key key' : Value), scan.keys[id]? = some key → scan.keys[id']? = some key' →
    canonicalPublicKey prim (field key "key_material") =
      canonicalPublicKey prim (field key' "key_material") → id = id'

variable {scan : KeyScan} {key : Value}

/-- A step that records nothing adds one key, with a new id and a new public key. -/
theorem keyStep_clean (h : (keyStep prim scan key).Clean) :
    ∃ (id : Text) (publicKey : Bytes), text (field key "key_id") = some id ∧
      canonicalPublicKey prim (field key "key_material") = some publicKey ∧
      publicKey ∉ scan.seenPublic ∧ scan.keys[id]? = none ∧
      (keyStep prim scan key).value.keys = scan.keys.insert id key ∧
      (keyStep prim scan key).value.seenPublic = publicKey :: scan.seenPublic := by
  unfold keyStep at h ⊢
  cases hobject : object key with
  | none => simp [hobject] at h
  | some entries =>
    cases hpublic : canonicalPublicKey prim (field key "key_material") with
    | none => simp [hobject, hpublic] at h
    | some publicKey =>
      cases hid : text (field key "key_id") with
      | none => simp [hobject, hid] at h
      | some id =>
        simp only [hobject, hpublic, hid, notePublic, noteKeyId, clean_bind, clean_note,
          value_bind] at h
        obtain ⟨-, -, ⟨hfresh, -⟩, hnew, -⟩ := h
        refine ⟨id, publicKey, rfl, rfl, hfresh, ?_, ?_, ?_⟩
        · exact TreeMap.getElem?_eq_none hnew
        · simp [hpublic, notePublic, noteKeyId]
        · simp [hpublic, notePublic, noteKeyId]

variable {done : List Value} {keys : KeyMap} {publicKey : Bytes} {evidence : SignatureEvidence}
  {value : Value} {id : Text}

/-- A table with every value so far under its id, after a value with a new id. -/
theorem kept_insert {name : String}
    (hkept : ∀ v ∈ done, ∃ id : Text, text (field v name) = some id ∧ keys[id]? = some v)
    (hid : text (field value name) = some id) (hnew : keys[id]? = none) :
    ∀ v ∈ done ++ [value], ∃ other : Text, text (field v name) = some other ∧
      (keys.insert id value)[other]? = some v := by
  intro v hmem
  rcases List.mem_append.1 hmem with hold | hlast
  · obtain ⟨other, hid', hfound⟩ := hkept v hold
    refine ⟨other, hid', ?_⟩
    rw [getElem?_insert_cmp, if_neg]
    · exact hfound
    · rintro rfl
      rw [hnew] at hfound
      cases hfound
  · rw [List.mem_singleton.1 hlast]
    exact ⟨id, hid, by rw [getElem?_insert_cmp, if_pos rfl]⟩

theorem KeyScan.Reads.step (h : scan.Reads prim done) (hclean : (keyStep prim scan key).Clean) :
    (keyStep prim scan key).value.Reads prim (done ++ [key]) := by
  obtain ⟨id, publicKey, hid, hpublic, hfresh, hnew, hkeys, hseen⟩ := keyStep_clean hclean
  have hlookup : ∀ other : Text, (keyStep prim scan key).value.keys[other]? =
      if id = other then some key else scan.keys[other]? := by
    intro other
    rw [hkeys, getElem?_insert_cmp]
  -- A key that was there before has a public key that was seen before.
  have hother : ∀ (other : Text) (key' : Value), scan.keys[other]? = some key' →
      canonicalPublicKey prim (field key' "key_material") ≠
        canonicalPublicKey prim (field key "key_material") := by
    intro other key' hfound heq
    obtain ⟨-, -, seen, hseen', hmem⟩ := h.found other key' hfound
    rw [hseen', hpublic, some.injEq] at heq
    exact hfresh (heq ▸ hmem)
  constructor
  · intro other key' hfound
    rw [hlookup] at hfound
    by_cases hsame : id = other
    · rw [if_pos hsame, some.injEq] at hfound
      subst hfound hsame
      refine ⟨by simp, hid, publicKey, hpublic, ?_⟩
      rw [hseen]
      exact List.mem_cons_self
    · rw [if_neg hsame] at hfound
      obtain ⟨hmem, hid', seen, hpub, hseen'⟩ := h.found other key' hfound
      refine ⟨List.mem_append_left _ hmem, hid', seen, hpub, ?_⟩
      rw [hseen]
      exact List.mem_cons_of_mem _ hseen'
  · rw [hkeys]
    exact kept_insert h.kept hid hnew
  · intro a b keyA keyB hA hB heq
    rw [hlookup] at hA hB
    by_cases ha : id = a
    · by_cases hb : id = b
      · exact ha.symm.trans hb
      · rw [if_pos ha, some.injEq] at hA
        rw [if_neg hb] at hB
        exact absurd (by rw [hA, heq]) (hother b keyB hB)
    · rw [if_neg ha] at hA
      by_cases hb : id = b
      · rw [if_pos hb, some.injEq] at hB
        exact absurd (by rw [hB, heq]) (hother a keyA hA)
      · rw [if_neg hb] at hB
        exact h.distinct a b keyA keyB hA hB heq

variable {root : Value} {roles : RoleMap} {sequence : UInt64}

/-- **The keys of a clean root document.** -/
theorem keyMaps_spec (hclean : (keyMaps prim root).Clean) :
    (keyMaps prim root).value.Reads prim (field root "keys").items := by
  have hempty : (⟨∅, ∅, []⟩ : KeyScan).Reads prim [] := by
    constructor <;> simp
  exact Clean.foldlM (keyStep prim)
    (fun _ _ _ h hstep => h.step hstep) (field root "keys").items [] _ hempty hclean

/-! ### Roles -/

/-- What the role map says about the roles read so far. -/
structure ReadsRoles (keys : KeyMap) (done : List Value) (roles : RoleMap) : Prop where
  found : ∀ (id : Text) (role : Value), roles[id]? = some role →
    role ∈ done ∧ text (field role "role_id") = some id ∧ roleValid role keys = true
  kept : ∀ role ∈ done, ∃ id : Text, text (field role "role_id") = some id ∧ roles[id]? = some role

variable {role : Value}

theorem ReadsRoles.step (h : ReadsRoles keys done roles) (hclean : (roleStep keys roles role).Clean) :
    ReadsRoles keys (done ++ [role]) (roleStep keys roles role).value := by
  unfold roleStep at hclean ⊢
  cases hid : text (field role "role_id") with
  | none => simp [hid] at hclean
  | some id =>
    simp only [hid, clean_bind, clean_note, clean_pure, and_true, not_not] at hclean
    obtain ⟨hnew, hvalid⟩ := hclean
    simp only [value_bind, value_pure]
    constructor
    · intro other role' hfound
      rw [getElem?_insert_cmp] at hfound
      by_cases hsame : id = other
      · rw [if_pos hsame, some.injEq] at hfound
        subst hfound hsame
        exact ⟨by simp, hid, hvalid⟩
      · rw [if_neg hsame] at hfound
        obtain ⟨hmem, hrest⟩ := h.found other role' hfound
        exact ⟨List.mem_append_left _ hmem, hrest⟩
    · exact kept_insert h.kept hid (TreeMap.getElem?_eq_none hnew)

/-- **The roles of a clean root document.** -/
theorem roleMaps_spec (hclean : (roleMaps root keys).Clean) :
    ReadsRoles keys (field root "roles").items (roleMaps root keys).value := by
  have hfold : ((field root "roles").items.foldlM (roleStep keys) ∅).Clean := by
    rw [roleMaps, clean_bind] at hclean
    exact hclean.1
  have hempty : ReadsRoles keys [] ∅ := by
    constructor <;> simp
  exact Clean.foldlM (roleStep keys)
    (fun _ _ _ h hstep => h.step hstep) (field root "roles").items [] _ hempty hfold

/-- Every role of a clean root has a threshold. -/
theorem ReadsRoles.threshold (h : ReadsRoles keys done roles) (hrole : roles[id]? = some role) :
    ∃ threshold, number (field role "threshold") = some threshold := by
  obtain ⟨-, -, hvalid⟩ := h.found id role hrole
  simp only [roleValid, Bool.and_eq_true, any_eq_true] at hvalid
  obtain ⟨⟨-, threshold, hthreshold, -⟩, -⟩ := hvalid
  exact ⟨threshold, hthreshold⟩

/-! ### Eligibility -/

/-- A key that may sign at a sequence and a time: its validity has begun, it is not retired, and if it
is revoked then from a later sequence on and at no time that has passed.

A key without a readable start is refused by a default of one more than the sequence.  That sum
saturates, so at the largest sequence the default refuses nothing; `started` says so. -/
structure Eligible (key : Value) (sequence : UInt64) (time : Timestamp) : Prop where
  started : (∃ start, number (field key "valid_from_sequence") = some start ∧ start ≤ sequence) ∨
    (number (field key "valid_from_sequence") = none ∧ sequence.toNat = 2 ^ 64 - 1)
  active : text (field key "status") ≠ some "retired".toList
  unrevoked : text (field key "status") = some "revoked".toList →
    ∃ effective, number (field (field key "revocation") "effective_sequence") = some effective ∧
      sequence < effective ∧
      ∀ t, timestamp (field (field key "revocation") "effective_time") = some t → time < t

/-- The default of `key_eligibility` exceeds the sequence unless the sum saturates. -/
theorem saturatingSucc_le_iff (n : UInt64) : saturatingSucc n ≤ n.toNat ↔ n.toNat = 2 ^ 64 - 1 := by
  have hlt := n.toNat_lt
  unfold saturatingSucc
  omega

theorem started_of_le
    (h : ((number value).map UInt64.toNat).getD (saturatingSucc sequence) ≤ sequence.toNat) :
    (∃ start, number value = some start ∧ start ≤ sequence) ∨
      (number value = none ∧ sequence.toNat = 2 ^ 64 - 1) := by
  cases hnumber : number value with
  | none =>
    rw [hnumber, map_none, getD_none, saturatingSucc_le_iff] at h
    exact .inr ⟨rfl, h⟩
  | some start =>
    rw [hnumber, map_some, getD_some] at h
    exact .inl ⟨start, rfl, h⟩

/-- A revoked key of a clean supersession graph says from which sequence on. -/
theorem supersessionStep_revoked (hclean : (supersessionStep keys (id, key)).Clean)
    (hstatus : text (field key "status") = some "revoked".toList) :
    ∃ effective, number (field (field key "revocation") "effective_sequence") = some effective := by
  simp only [supersessionStep, keyChecks, if_pos hstatus, clean_bind, clean_note, not_or] at hclean
  obtain ⟨⟨-, ⟨-, -, heffective, -⟩, -⟩, -⟩ := hclean
  exact ne_none_iff_exists'.1 heffective

theorem validateKeySupersession_revoked (hclean : (validateKeySupersession keys).Clean)
    (hkey : keys[id]? = some key) (hstatus : text (field key "status") = some "revoked".toList) :
    ∃ effective, number (field (field key "revocation") "effective_sequence") = some effective := by
  rw [validateKeySupersession, clean_bind, clean_forM] at hclean
  have hmem : (id, key) ∈ keys.toList := TreeMap.mem_toList_iff_getElem?_eq_some.2 hkey
  exact supersessionStep_revoked (hclean.1 _ hmem) hstatus

theorem eligible_of_keyEligibility {time : Timestamp} (h : keyEligibility key sequence time = none)
    (hrevoked : text (field key "status") = some "revoked".toList →
      ∃ effective, number (field (field key "revocation") "effective_sequence") = some effective) :
    Eligible key sequence time := by
  unfold keyEligibility at h
  split at h
  · cases h
  · rename_i hstart
    split at h
    · cases h
    · rename_i hactive
      refine ⟨started_of_le (Nat.not_lt.1 hstart), hactive, ?_⟩
      intro hstatus
      obtain ⟨effective, heffective⟩ := hrevoked hstatus
      rw [if_pos hstatus] at h
      simp only [ite_eq_right_iff, reduceCtorEq, imp_false, not_or, heffective, map_some,
        Nat.not_le] at h
      obtain ⟨-, hlater, htime⟩ := h
      refine ⟨effective, heffective, UInt64.lt_iff_toNat_lt.2 hlater, ?_⟩
      intro t ht
      rw [ht, any_some, decide_eq_true_eq] at htime
      exact Nat.not_le.1 htime

/-! ### Signatures -/

/-- The facts behind a signature that counts. -/
structure Signed (prim : Primitives) (evidence : SignatureEvidence) (role signature : Value)
    (keyId : Text) (key : Value) (publicKey : Bytes) : Prop where
  names : text (field signature "key_id") = some keyId
  known : evidence.keys[keyId]? = some key
  material : canonicalPublicKey prim (field key "key_material") = some publicKey
  listed : .string keyId ∈ (field role "key_ids").items
  publisher : evidence.context = .package → evidence.publisherGrantAuthorized = true ∧
    text (field key "publisher_identity") = evidence.expectedPublisher
  eligible : keyEligibility key evidence.sequence evidence.verificationTime = none
  verifies : ∃ bytes, decodeHex (field signature "value") = some bytes ∧ bytes.length = 64 ∧
    prim.verify publicKey evidence.message bytes = none

theorem eq_string_of_text {t : Text} (h : text value = some t) : value = .string t := by
  cases value with
  | string s =>
    rw [text, some.injEq] at h
    rw [h]
  | _ => cases h

theorem canonicalPublicKey_decodeHex {material : Value}
    (h : canonicalPublicKey prim material = some publicKey) :
    decodeHex (field material "public_key") = some publicKey := by
  unfold canonicalPublicKey at h
  split at h
  · cases h
  · split at h
    · cases h
    · split at h
      · cases h
      · rename_i bytes hbytes
        split at h
        · rw [hbytes, h]
        · cases h

theorem signatureStatus_eq_none {publicKeyHex signatureHex : Value} {message : Bytes}
    (hpublic : decodeHex publicKeyHex = some publicKey)
    (h : signatureStatus prim publicKeyHex message signatureHex = none) :
    ∃ bytes, decodeHex signatureHex = some bytes ∧ bytes.length = 64 ∧
      prim.verify publicKey message bytes = none := by
  unfold signatureStatus at h
  rw [hpublic] at h
  dsimp only at h
  split at h
  · split at h
    · rename_i bytes hbytes
      split at h
      · rename_i hlength
        exact ⟨bytes, hbytes, hlength, h⟩
      · cases h
    · cases h
  · cases h

theorem checkSignature_eq_ok {signature : Value}
    {keyId fingerprint : Text}
    (h : checkSignature prim evidence role signature = .ok (keyId, fingerprint)) :
    fingerprint = keyId ∧ ∃ key publicKey, Signed prim evidence role signature keyId key publicKey := by
  simp only [checkSignature, check_bind_eq_ok, require_bind_eq_ok, reject_eq_ok] at h
  obtain ⟨-, -, id, hid, -, key, hkey, hmaterial, hderived, hlisted, hpublisher, h⟩ := h
  cases heligible : keyEligibility key evidence.sequence evidence.verificationTime with
  | some code =>
    rw [heligible] at h
    cases h
  | none =>
    rw [heligible] at h
    cases hstatus : signatureStatus prim (field (field key "key_material") "public_key")
        evidence.message (field signature "value") with
    | some failure =>
      rw [hstatus] at h
      cases h
    | none =>
      rw [hstatus] at h
      simp only [require_bind_eq_ok, Except.ok.injEq] at h
      obtain ⟨derived, hderived', rfl, rfl⟩ := h
      rw [not_not] at hderived
      obtain ⟨publicKey, hpublic⟩ := ne_none_iff_exists'.1 hmaterial
      refine ⟨by rwa [hderived', some.injEq] at hderived, key, publicKey, ?_⟩
      constructor
      · exact hid
      · exact hkey
      · exact hpublic
      · rw [not_not, List.any_eq_true] at hlisted
        obtain ⟨value, hmem, hvalue⟩ := hlisted
        rwa [eq_string_of_text (beq_iff_eq.1 hvalue)] at hmem
      · intro hcontext
        have hboth := not_and.1 hpublisher hcontext
        rw [not_or, not_not, not_not] at hboth
        exact hboth
      · exact heligible
      · exact signatureStatus_eq_none (canonicalPublicKey_decodeHex hpublic) hstatus

/-- What the loop over the signatures has counted. -/
structure ValidSigners.Counts (prim : Primitives) (evidence : SignatureEvidence) (role : Value)
    (done : List Value) (valid : ValidSigners) : Prop where
  fingerprints_eq : valid.fingerprints = valid.keyIds
  nodup : valid.keyIds.Nodup
  signed : ∀ id ∈ valid.keyIds, ∃ signature ∈ done, ∃ key publicKey,
    Signed prim evidence role signature id key publicKey

theorem ValidSigners.Counts.step
    {valid : ValidSigners} (h : valid.Counts prim evidence role done) (signature : Value) :
    (signatureStep prim evidence role valid signature).value.Counts prim evidence role
      (done ++ [signature]) := by
  have hold : ∀ id ∈ valid.keyIds, ∃ s ∈ done ++ [signature], ∃ key publicKey,
      Signed prim evidence role s id key publicKey := by
    intro id hid
    obtain ⟨s, hs, hsigned⟩ := h.signed id hid
    exact ⟨s, List.mem_append_left _ hs, hsigned⟩
  unfold signatureStep
  cases hcheck : checkSignature prim evidence role signature with
  | error code => exact ⟨h.fingerprints_eq, h.nodup, hold⟩
  | ok pair =>
    obtain ⟨keyId, fingerprint⟩ := pair
    obtain ⟨rfl, hsigned⟩ := checkSignature_eq_ok hcheck
    refine ⟨?_, h.nodup.insert, ?_⟩
    · show valid.fingerprints.insert fingerprint = valid.keyIds.insert fingerprint
      rw [h.fingerprints_eq]
    · intro id hid
      rcases List.mem_insert_iff.1 hid with rfl | hmem
      · exact ⟨signature, by simp, hsigned⟩
      · exact hold id hmem

theorem signatures_counts (prim : Primitives) (evidence : SignatureEvidence) (role : Value) :
    ∀ (todo done : List Value) (valid : ValidSigners), valid.Counts prim evidence role done →
      (todo.foldlM (signatureStep prim evidence role) valid).value.Counts prim evidence role
        (done ++ todo) := by
  intro todo
  induction todo with
  | nil =>
    intro done valid h
    rw [List.append_nil]
    exact h
  | cons signature todo ih =>
    intro done valid h
    rw [List.foldlM_cons, List.append_cons]
    exact ih _ _ (h.step signature)

variable {signatures : Value}

/-- Clean evidence has a role and counts its threshold of key ids, each with a signature. -/
theorem signatureEvidence_counts (hclean : (signatureEvidence prim signatures evidence).Clean) :
    ∃ role, evidence.role = some role ∧
      (signatureEvidence prim signatures evidence).value.Counts prim evidence role signatures.items ∧
      ((number (field role "threshold")).map UInt64.toNat).getD 1 ≤
        (signatureEvidence prim signatures evidence).value.keyIds.length := by
  unfold signatureEvidence at hclean ⊢
  cases hrole : evidence.role with
  | none => simp [hrole] at hclean
  | some role =>
    cases harray : signatures.asArray with
    | none => simp [harray] at hclean
    | some items =>
      have hcounts := signatures_counts prim evidence role items [] ⟨[], []⟩
        ⟨rfl, List.nodup_nil, by simp⟩
      have hitems : signatures.items = items := by rw [Value.items, harray, getD_some]
      simp only [hrole, harray, clean_bind, clean_note, not_or, Nat.not_lt] at hclean
      refine ⟨role, rfl, ?_, ?_⟩
      · rw [hitems]
        exact hcounts
      · have hlength := hclean.2.1.1
        rw [hcounts.fingerprints_eq] at hlength
        exact hlength

/-! ### Distinct public keys -/

/-- At least `n` pairwise distinct public keys have the property `P`. -/
def AtLeast (n : Nat) (P : Bytes → Prop) : Prop :=
  ∃ publicKeys : List Bytes, publicKeys.Nodup ∧ n ≤ publicKeys.length ∧ ∀ k ∈ publicKeys, P k

theorem AtLeast.mono {n : Nat} {P Q : Bytes → Prop} (h : AtLeast n P) (hPQ : ∀ k, P k → Q k) :
    AtLeast n Q := by
  obtain ⟨publicKeys, hnodup, hlength, hP⟩ := h
  exact ⟨publicKeys, hnodup, hlength, fun k hk => hPQ k (hP k hk)⟩

/-- The public key under a key id. -/
def publicKeyOf (prim : Primitives) (keys : KeyMap) (id : Text) : Option Bytes :=
  keys[id]?.bind fun key => canonicalPublicKey prim (field key "key_material")

theorem publicKeyOf_eq_some_iff :
    publicKeyOf prim keys id = some publicKey ↔ ∃ key, keys[id]? = some key ∧
      canonicalPublicKey prim (field key "key_material") = some publicKey :=
  bind_eq_some_iff

/-- Distinct key ids of a clean key map have distinct public keys. -/
theorem KeyScan.Reads.publicKeyOf_inj (h : scan.Reads prim done) {a b : Text}
    (ha : publicKeyOf prim scan.keys a = some publicKey)
    (hb : publicKeyOf prim scan.keys b = some publicKey) : a = b := by
  obtain ⟨keyA, hfoundA, hA⟩ := publicKeyOf_eq_some_iff.1 ha
  obtain ⟨keyB, hfoundB, hB⟩ := publicKeyOf_eq_some_iff.1 hb
  exact h.distinct a b keyA keyB hfoundA hfoundB (hA.trans hB.symm)

/-- **A threshold of distinct public keys signed.**  The key ids counted by clean evidence stand for
pairwise distinct public keys of the root document. -/
theorem signatureEvidence_signed (hreads : scan.Reads prim done) (hkeys : evidence.keys = scan.keys)
    (hclean : (signatureEvidence prim signatures evidence).Clean) : ∃ role, evidence.role = some role ∧
      AtLeast (((number (field role "threshold")).map UInt64.toNat).getD 1) fun publicKey =>
        ∃ signature ∈ signatures.items, ∃ id key,
          Signed prim evidence role signature id key publicKey := by
  obtain ⟨role, hrole, hcounts, hthreshold⟩ := signatureEvidence_counts hclean
  refine ⟨role, hrole, (signatureEvidence prim signatures evidence).value.keyIds.filterMap
      (publicKeyOf prim scan.keys), ?_, ?_, ?_⟩
  · apply hcounts.nodup.filterMap
    intro a b publicKey ha hb
    exact hreads.publicKeyOf_inj ha hb
  · -- Every counted id has a public key, so none is lost.
    rw [List.filterMap_length_eq_length.2]
    · exact hthreshold
    · intro id hid
      obtain ⟨signature, -, key, publicKey, hsigned⟩ := hcounts.signed id hid
      rw [publicKeyOf_eq_some_iff.2 ⟨key, hkeys ▸ hsigned.known, hsigned.material⟩]
      rfl
  · intro publicKey hmem
    obtain ⟨id, hid, hpublic⟩ := List.mem_filterMap.1 hmem
    obtain ⟨signature, hsignature, key, publicKey', hsigned⟩ := hcounts.signed id hid
    have hsame : publicKeyOf prim scan.keys id = some publicKey' :=
      publicKeyOf_eq_some_iff.2 ⟨key, hkeys ▸ hsigned.known, hsigned.material⟩
    rw [hpublic, some.injEq] at hsame
    rw [hsame]
    exact ⟨signature, hsignature, id, key, hsigned⟩

end Axiomc.Trust
