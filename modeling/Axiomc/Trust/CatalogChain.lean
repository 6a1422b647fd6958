import Axiomc.Trust.Catalog
import Axiomc.Trust.Signers

/-!
# Accepted catalogs form one chain

A client keeps the highest position it has accepted and the snapshots it has seen.  It offers index
documents in any order, each with roots and an expectation into which its state is installed, and
records what is accepted.

* `checkFreshness_clean`: no accepted catalog escapes the freshness rules.  They are guarded by
  `indexAuthenticated`, and each way this can be false has recorded a failure of its own;
* `Accepts.tracks`: what one accepted catalog does to the client's state;
* `run_chain`: the accepted catalogs never go back, agree at equal positions, and name their
  predecessors.

Nothing is assumed of SHA-256, of the signature scheme or of the schema validator.
-/

namespace Axiomc.Trust

open Foundation Std Collect List Option

variable {prim : Primitives}

/-! ### Acceptance -/

/-- The candidate roles of a clean transition are those of a clean role map. -/
theorem candidateRole_threshold {roots expectation : Value}
    (hclean : (validateTrustRootTransition prim roots expectation).Clean) {id : Text} {role : Value}
    (hrole : (validateTrustRootTransition prim roots expectation).value.candidateRoles[id]? =
      some role) :
    ∃ threshold, number (field role "threshold") = some threshold := by
  simp only [validateTrustRootTransition, clean_bind] at hclean
  obtain ⟨-, -, -, -, -, hroles, -⟩ := hclean
  exact (roleMaps_spec hroles).threshold hrole

/-- Clean signature evidence has a role and counts its threshold of keys. -/
theorem signatureEvidence_clean {signatures : Value} {evidence : SignatureEvidence}
    (hclean : (signatureEvidence prim signatures evidence).Clean) : ∃ role, evidence.role = some role ∧
      ((number (field role "threshold")).map UInt64.toNat).getD 1 ≤
        (signatureEvidence prim signatures evidence).value.fingerprints.length := by
  obtain ⟨role, hrole, hcounts, hthreshold⟩ := signatureEvidence_counts hclean
  rw [hcounts.fingerprints_eq]
  exact ⟨role, hrole, hthreshold⟩

/-- **The guard of the freshness rules holds whenever nothing else was recorded.** -/
theorem checkFreshness_clean {roots expectation index : Value}
    (htransition : (validateTrustRootTransition prim roots expectation).Clean)
    (hindex : (checkIndex prim index expectation
      (validateTrustRootTransition prim roots expectation).value).Clean) :
    ∃ raw, metadataTranscript prim .index (field index "signed") = some raw ∧
      (checkFreshness (field expectation "trusted_state") (field index "signed")
        ((number (field (field index "signed") "generation")).getD 0)
        ((number (field (field index "signed") "sequence")).getD 0) (sha256 prim raw)).Clean := by
  cases hraw : metadataTranscript prim .index (field index "signed") with
  | none => simp [checkIndex, transcriptOr, hraw] at hindex
  | some raw =>
    refine ⟨raw, rfl, ?_⟩
    simp only [checkIndex, transcriptOr, hraw, clean_bind, value_pure, clean_pure, clean_note,
      clean_guarded, not_not, true_and] at hindex
    obtain ⟨hmatches, -, -, -, hevidence, hthreshold, hfresh, -⟩ := hindex
    obtain ⟨role, hrole, hcount⟩ := signatureEvidence_clean hevidence
    have hrole' : indexRole (validateTrustRootTransition prim roots expectation).value
        (field index "signed") expectation = some role := hrole
    obtain ⟨threshold, hnumber⟩ : ∃ threshold, number (field role "threshold") = some threshold := by
      obtain ⟨id, -, hlookup⟩ := bind_eq_some_iff.1 hrole'
      exact candidateRole_threshold htransition hlookup
    have hrt : roleThreshold (some role) = some threshold := hnumber
    rw [hrole'] at hthreshold
    rw [hnumber] at hcount
    have hguard : indexAuthenticated prim index raw (some role)
        (number (field (field expectation "required_signers") "index_threshold"))
        (signatureEvidence prim (field index "signatures")
          (indexEvidence (validateTrustRootTransition prim roots expectation).value (some role) raw
            ((number (field (field index "signed") "sequence")).getD 0))).value.fingerprints.length =
        true := by
      rw [hrole'] at hcount
      simp only [indexAuthenticated, hmatches, isSome_some, hrt, ← hthreshold, Bool.true_and,
        beq_self_eq_true, any_some]
      simpa using hcount
    rw [hrole'] at hfresh
    exact hfresh hguard

/-! ### The client -/

/-- What a client keeps: the highest position it has accepted and the snapshots it has seen. -/
structure TrustedIndex where
  generation : UInt64
  sequence : UInt64
  seen : List Value

/-- A state to start from: its highest position has exactly one seen snapshot. -/
structure StartingIndex extends TrustedIndex where
  snapshot : Value
  unique : seen.filter (atPosition generation sequence) = [snapshot]

/-- The hash the starting snapshot is recorded with. -/
def StartingIndex.sha256 (start : StartingIndex) : Option Text :=
  text (field start.snapshot "index_transcript_sha256")

/-- The expectation with the client's state in its `trusted_state`. -/
def install (expectation : Value) (σ : TrustedIndex) : Value :=
  let trusted := field expectation "trusted_state"
  let trusted := setField trusted "highest_index_generation" (.number (.unsigned σ.generation))
  let trusted := setField trusted "highest_index_sequence" (.number (.unsigned σ.sequence))
  setField expectation "trusted_state" (setField trusted "seen_snapshots" (.array σ.seen))

/-- The snapshot an accepted catalog is recorded as. -/
def AuthenticatedRegistryCatalog.snapshot (c : AuthenticatedRegistryCatalog) : Value :=
  snapshotState c.generation c.sequence (.string c.snapshotId) c.indexTranscriptSha256

/-- Record an accepted catalog: its position is the highest, its snapshot is seen. -/
def record (σ : TrustedIndex) (c : AuthenticatedRegistryCatalog) : TrustedIndex where
  generation := c.generation
  sequence := c.sequence
  seen := if c.snapshot ∈ σ.seen then σ.seen else σ.seen ++ [c.snapshot]

/-- An index document, and the roots and the expectation it is checked against. -/
structure Offer where
  indexBytes : Bytes
  roots : Value
  expectation : Value

/-- The catalogs a client accepts from a sequence of offers. -/
def run (prim : Primitives) : TrustedIndex → List Offer → List AuthenticatedRegistryCatalog
  | _, [] => []
  | σ, offer :: offers =>
    match authenticateRegistryCatalog prim offer.indexBytes offer.roots
        (install offer.expectation σ) with
    | .error _ => run prim σ offers
    | .ok catalog => catalog :: run prim (record σ catalog) offers

/-- The predecessor an accepted index document names. -/
def namedPredecessor (prim : Primitives) (c : AuthenticatedRegistryCatalog) : Option Text :=
  (parseSchemaDocument prim c.exactIndexBytes .index).bind fun index =>
    text (field (field (field index "signed") "consistent_snapshot") "previous_snapshot_sha256")

/-! ### One step -/

/-- The snapshots seen at the highest position are all recorded with the hash `sha`. -/
structure Tracks (σ : TrustedIndex) (sha : Option Text) : Prop where
  seen : ∃ s ∈ σ.seen, atPosition σ.generation σ.sequence s = true
  agree : ∀ s ∈ σ.seen, atPosition σ.generation σ.sequence s = true →
    text (field s "index_transcript_sha256") = sha

theorem StartingIndex.tracks (start : StartingIndex) : Tracks start.toTrustedIndex start.sha256 := by
  have hmem : ∀ s, s ∈ start.seen ∧ atPosition start.generation start.sequence s = true ↔
      s = start.snapshot := by
    intro s
    rw [← mem_filter, start.unique, mem_singleton]
  refine ⟨⟨start.snapshot, (hmem start.snapshot).2 rfl⟩, ?_⟩
  intro s hs hat
  rw [(hmem s).1 ⟨hs, hat⟩, sha256]

variable {sha : Option Text} {σ : TrustedIndex} {generation sequence : UInt64}
  {c : AuthenticatedRegistryCatalog} {catalogs : List AuthenticatedRegistryCatalog}

theorem Tracks.recorded (h : Tracks σ sha) : recordedSha256 σ.seen σ.generation σ.sequence = sha := by
  obtain ⟨hseen, hagree⟩ := h
  unfold recordedSha256
  generalize hseenList : σ.seen = seen at hseen hagree
  clear hseenList
  induction seen with
  | nil =>
    obtain ⟨s, hs, -⟩ := hseen
    cases hs
  | cons s rest ih =>
    rw [findSome?_cons]
    by_cases hat : atPosition σ.generation σ.sequence s = true
    · rw [if_pos hat, hagree s mem_cons_self hat]
      cases sha with
      | some hash => rfl
      | none =>
        -- no later snapshot of the position has a hash either
        rw [findSome?_eq_none_iff]
        intro t ht
        by_cases htat : atPosition σ.generation σ.sequence t = true
        · rw [if_pos htat]
          exact hagree t (mem_cons_of_mem _ ht) htat
        · rw [if_neg htat]
    · rw [if_neg hat]
      apply ih
      · obtain ⟨t, ht, htat⟩ := hseen
        rcases mem_cons.1 ht with rfl | ht
        · exact absurd htat hat
        · exact ⟨t, ht, htat⟩
      · intro t ht
        exact hagree t (mem_cons_of_mem _ ht)

@[simp] theorem atPosition_snapshotState (g s g' s' : UInt64) (id : Value) (hash : Text) :
    atPosition g s (snapshotState g' s' id hash) = true ↔ g' = g ∧ s' = s := by
  have hgeneration : number (field (snapshotState g' s' id hash) "generation") = some g' := rfl
  have hsequence : number (field (snapshotState g' s' id hash) "sequence") = some s' := rfl
  simp [atPosition, hgeneration, hsequence]

/-- An installed state is read back, or there is no object to install it in and nothing is seen. -/
theorem install_read (expectation : Value) (σ : TrustedIndex) :
    (number (field (field (install expectation σ) "trusted_state") "highest_index_generation") =
        some σ.generation ∧
      number (field (field (install expectation σ) "trusted_state") "highest_index_sequence") =
        some σ.sequence ∧
      (field (field (install expectation σ) "trusted_state") "seen_snapshots").items = σ.seen) ∨
    (field (field (install expectation σ) "trusted_state") "seen_snapshots").items = [] := by
  cases htrusted : object (field expectation "trusted_state") with
  | none =>
    right
    -- neither the expectation nor its trusted state can be changed into an object
    have hsame : ∀ (name : String) (member : Value),
        setField (field expectation "trusted_state") name member =
          field expectation "trusted_state" := by
      intro name member
      cases hvalue : field expectation "trusted_state" with
      | object entries =>
        rw [hvalue] at htrusted
        cases htrusted
      | _ => rfl
    have hread : field (install expectation σ) "trusted_state" = field expectation "trusted_state" := by
      simp only [install, hsame]
      cases expectation with
      | object entries => exact field_setField_self rfl _ _
      | _ => rfl
    rw [hread]
    cases hvalue : field expectation "trusted_state" with
    | object entries =>
      rw [hvalue] at htrusted
      cases htrusted
    | _ => rfl
  | some entries =>
    left
    have hexpectation : ∃ outer, object expectation = some outer := by
      cases expectation with
      | object outer => exact ⟨outer, rfl⟩
      | _ => cases htrusted
    obtain ⟨outer, houter⟩ := hexpectation
    obtain ⟨first, hfirst⟩ := object_setField htrusted "highest_index_generation"
      (.number (.unsigned σ.generation))
    obtain ⟨second, hsecond⟩ := object_setField hfirst "highest_index_sequence"
      (.number (.unsigned σ.sequence))
    simp only [install, field_setField_self houter]
    refine ⟨?_, ?_, ?_⟩
    · rw [field_setField_of_ne (by decide), field_setField_of_ne (by decide),
        field_setField_self htrusted]
      rfl
    · rw [field_setField_of_ne (by decide), field_setField_self hfirst]
      rfl
    · rw [field_setField_self hsecond]
      rfl

/-- A seen snapshot at a position is the snapshot that does not rebind it. -/
theorem eq_of_not_rebinds {state seen : Value} (hnot : ¬ rebinds generation sequence state seen = true)
    (hat : atPosition generation sequence seen = true) : seen = state := by
  by_contra hne
  apply hnot
  have hobject : (object seen).isSome = true := by
    simp only [atPosition, Bool.and_eq_true, beq_iff_eq] at hat
    obtain ⟨entries, hentries⟩ := object_of_number_field hat.1
    rw [hentries]
    rfl
  simp only [rebinds, hobject, hat, Bool.true_or, Bool.and_true]
  exact bne_iff_ne.2 hne

/-- What the acceptance of `c` in the state `σ` says. -/
structure Accepts (prim : Primitives) (σ : TrustedIndex) (c : AuthenticatedRegistryCatalog) :
    Prop where
  generation_le : σ.generation ≤ c.generation
  sequence_le : σ.sequence ≤ c.sequence
  /-- What was seen at its position has its hash. -/
  bound : ∀ s ∈ σ.seen, atPosition c.generation c.sequence s = true →
    text (field s "index_transcript_sha256") = some c.indexTranscriptSha256
  /-- At a new position it names the hash recorded at the highest one. -/
  named : ¬ (c.generation = σ.generation ∧ c.sequence = σ.sequence) →
    namedPredecessor prim c = recordedSha256 σ.seen σ.generation σ.sequence

/-- Freshness without a failure, read as facts about the state. -/
theorem accepts_of_authenticate {offer : Offer}
    (h : authenticateRegistryCatalog prim offer.indexBytes offer.roots
      (install offer.expectation σ) = .ok c) : Accepts prim σ c := by
  unfold authenticateRegistryCatalog at h
  cases hparse : parseSchemaDocument prim offer.indexBytes .index with
  | none => simp [hparse] at h
  | some index =>
    simp only [hparse] at h
    split at h
    · cases h
    · split at h
      · cases h
      · next hchecked =>
        simp only [not_not, clean_bind, clean_pure, and_true] at hchecked
        obtain ⟨raw, hraw, hfresh⟩ := checkFreshness_clean hchecked.1 hchecked.2
        rw [Except.ok.injEq] at h
        subst h
        simp only [hraw]
        rcases install_read offer.expectation σ with ⟨hg, hs, hseen⟩ | hnothing
        · simp only [checkFreshness, hg, hs, hseen, clean_bind, clean_note] at hfresh
          obtain ⟨hrollback, -, -, hpredecessor, hrebound⟩ := hfresh
          rw [not_or] at hrollback hrebound
          refine ⟨UInt64.not_lt.1 hrollback.1, UInt64.not_lt.1 hrollback.2, ?_, ?_⟩
          · intro s hmem hat
            rw [eq_of_not_rebinds (fun hrebinds => hrebound.1 ⟨s, hmem, hrebinds⟩) hat]
            rfl
          · intro hnew
            simp only [namedPredecessor, hparse]
            by_contra hne
            refine hpredecessor ⟨?_, hne⟩
            by_contra hnot
            rw [not_or] at hnot
            exact hnew ⟨UInt64.le_antisymm (UInt64.not_lt.1 hnot.1) (UInt64.not_lt.1 hrollback.1),
              UInt64.le_antisymm (UInt64.not_lt.1 hnot.2) (UInt64.not_lt.1 hrollback.2)⟩
        · simp [checkFreshness, hnothing] at hfresh

theorem mem_seen_record {s : Value} : s ∈ (record σ c).seen ↔ s ∈ σ.seen ∨ s = c.snapshot := by
  show s ∈ (if c.snapshot ∈ σ.seen then σ.seen else σ.seen ++ [c.snapshot]) ↔ _
  by_cases hmem : c.snapshot ∈ σ.seen
  · rw [if_pos hmem]
    constructor
    · exact Or.inl
    · intro h
      rcases h with h | rfl
      · exact h
      · exact hmem
  · rw [if_neg hmem, mem_append, mem_singleton]

/-- **One step.**  The recorded catalog's hash is the one at the new highest position. -/
theorem Accepts.tracks (h : Accepts prim σ c) : Tracks (record σ c) (some c.indexTranscriptSha256) := by
  refine ⟨⟨c.snapshot, mem_seen_record.2 (.inr rfl), ?_⟩, ?_⟩
  · exact (atPosition_snapshotState _ _ _ _ _ _).2 ⟨rfl, rfl⟩
  · intro s hs hat
    rcases mem_seen_record.1 hs with hs | rfl
    · exact h.bound s hs hat
    · rfl

/-- At the highest position, an accepted catalog has the hash recorded there. -/
theorem Accepts.same_position (h : Accepts prim σ c) (htracks : Tracks σ sha)
    (hgeneration : c.generation = σ.generation) (hsequence : c.sequence = σ.sequence) :
    sha = some c.indexTranscriptSha256 := by
  obtain ⟨s, hs, hat⟩ := htracks.seen
  rw [← htracks.agree s hs hat]
  exact h.bound s hs (by rw [hgeneration, hsequence]; exact hat)

/-! ### Whole runs -/

/-- The chain from a position with a recorded hash: each catalog stays at its predecessor's position
with its hash, or goes on from it without going back and names that hash. -/
inductive Chain (prim : Primitives) :
    UInt64 → UInt64 → Option Text → List AuthenticatedRegistryCatalog → Prop
  | nil (generation sequence : UInt64) (sha : Option Text) : Chain prim generation sequence sha []
  | cons {generation sequence : UInt64} {sha : Option Text} {c : AuthenticatedRegistryCatalog}
      {rest : List AuthenticatedRegistryCatalog}
      (generation_le : generation ≤ c.generation) (sequence_le : sequence ≤ c.sequence)
      (same : c.generation = generation → c.sequence = sequence →
        sha = some c.indexTranscriptSha256)
      (named : ¬ (c.generation = generation ∧ c.sequence = sequence) →
        namedPredecessor prim c = sha)
      (rest_chain : Chain prim c.generation c.sequence (some c.indexTranscriptSha256) rest) :
      Chain prim generation sequence sha (c :: rest)

theorem run_chain_of_tracks (prim : Primitives) :
    ∀ (offers : List Offer) (σ : TrustedIndex) (sha : Option Text), Tracks σ sha →
      Chain prim σ.generation σ.sequence sha (run prim σ offers) := by
  intro offers
  induction offers with
  | nil =>
    intro σ sha _
    exact .nil _ _ _
  | cons offer offers ih =>
    intro σ sha htracks
    unfold run
    cases hresult : authenticateRegistryCatalog prim offer.indexBytes offer.roots
        (install offer.expectation σ) with
    | error codes => exact ih σ sha htracks
    | ok c =>
      have haccepts := accepts_of_authenticate hresult
      refine .cons haccepts.generation_le haccepts.sequence_le
        (haccepts.same_position htracks) ?_ (ih (record σ c) _ haccepts.tracks)
      intro hnew
      rw [haccepts.named hnew, htracks.recorded]

section

variable (h : Chain prim generation sequence sha catalogs)
include h

/-- No catalog of a chain lies before its start. -/
theorem Chain.from_start : ∀ c ∈ catalogs, generation ≤ c.generation ∧ sequence ≤ c.sequence := by
  induction h with
  | nil => intro c hc; cases hc
  | cons hg hs _ _ _ ih =>
    intro c hc
    rcases mem_cons.1 hc with rfl | hc
    · exact ⟨hg, hs⟩
    · exact ⟨UInt64.le_trans hg (ih c hc).1, UInt64.le_trans hs (ih c hc).2⟩

/-- A catalog of a chain at its start has the hash recorded there. -/
theorem Chain.at_start : ∀ c ∈ catalogs, c.generation = generation → c.sequence = sequence →
      sha = some c.indexTranscriptSha256 := by
  induction h with
  | nil => intro c hc; cases hc
  | cons hg hs hsame _ hrest ih =>
    intro d hd hdg hds
    rcases mem_cons.1 hd with rfl | hd
    · exact hsame hdg hds
    · -- the first catalog lies between the start and `d`, so it is at the start too
      obtain ⟨hcg, hcs⟩ := hrest.from_start d hd
      have hfirstG := UInt64.le_antisymm (hdg ▸ hcg) hg
      have hfirstS := UInt64.le_antisymm (hds ▸ hcs) hs
      rw [hsame hfirstG hfirstS]
      exact ih d hd (hdg.trans hfirstG.symm) (hds.trans hfirstS.symm)

theorem Chain.pairwise :
    catalogs.Pairwise fun a b => a.generation ≤ b.generation ∧ a.sequence ≤ b.sequence ∧
      (a.generation = b.generation → a.sequence = b.sequence →
        a.indexTranscriptSha256 = b.indexTranscriptSha256) := by
  induction h with
  | nil => exact List.Pairwise.nil
  | cons _ _ _ _ hrest ih =>
    refine pairwise_cons.2 ⟨?_, ih⟩
    intro d hd
    refine ⟨(hrest.from_start d hd).1, (hrest.from_start d hd).2, ?_⟩
    intro hg hs
    exact some.inj (hrest.at_start d hd hg.symm hs.symm)

end

/-- **Accepted catalogs form one chain.**  From every starting state and for every sequence of offers,
the accepted catalogs have non-decreasing generations and sequences, agree on the hash at equal
positions, and name the hash of their predecessor at new ones, the first that of the starting
snapshot. -/
theorem run_chain (prim : Primitives) (start : StartingIndex) (offers : List Offer) :
    (run prim start.toTrustedIndex offers).Pairwise (fun a b =>
      a.generation ≤ b.generation ∧ a.sequence ≤ b.sequence ∧
        (a.generation = b.generation → a.sequence = b.sequence →
          a.indexTranscriptSha256 = b.indexTranscriptSha256)) ∧
    Chain prim start.generation start.sequence start.sha256 (run prim start.toTrustedIndex offers) := by
  have hchain := run_chain_of_tracks prim offers start.toTrustedIndex start.sha256 start.tracks
  exact ⟨hchain.pairwise, hchain⟩

/-! ### A run -/

namespace Sample

def record : List (String × Value) → Value
  | [] => .object []
  | (name, member) :: entries => setField (record entries) name member

def str (s : String) : Value := .string s.toList

def num (n : UInt64) : Value := .number (.unsigned n)

variable (prim : Primitives)

def keyMaterial : Value :=
  record [("algorithm", str "ed25519"), ("public_key", .string (List.replicate 64 '0')),
    ("public_key_encoding", str "lowercase-hex")]

def keyId : Value := .string ((derivedKeyId prim keyMaterial).getD [])

/-- The key, with or without the sequence from which on it is valid. -/
def key (start : List (String × Value)) : Value :=
  record
    ([("key_id", keyId prim), ("key_material", keyMaterial),
      ("publisher_identity", str "p"), ("status", str "active"), ("supersedes_key_ids", .array [])] ++
      start)

def role (id : String) (delegatedBy : Value) : Value :=
  record [("role_id", str id), ("key_ids", .array [keyId prim]), ("threshold", num 1),
    ("delegated_by", delegatedBy)]

def grant : Value :=
  record [("publisher_identity", str "p"), ("namespace", str "n"), ("role_id", str "package"),
    ("package_names", .array [str "a"]), ("registry_identities", .array [str "r"]),
    ("source_identities", .array [str "s"])]

def rootSigned (version sequence : UInt64) (start : List (String × Value)) (issued expires : String) :
    Value :=
  record [("keys", .array [key prim start]), ("namespace_grants", .array [grant]),
    ("roles", .array [role prim "root" .null, role prim "index" (str "root"),
      role prim "package" (str "root")]),
    ("root_version", num version), ("sequence", num sequence), ("issued_at", str issued),
    ("expires_at", str expires)]

def signatures : Value :=
  .array [record [("algorithm", str "ed25519"), ("encoding", str "lowercase-hex"), ("key_id", keyId prim),
    ("value", .string (List.replicate 128 '0'))]]

def transcript (raw : Option Bytes) : Value :=
  record [("bytes_hex", .string (hexEncode (raw.getD []))),
    ("sha256", .string (sha256 prim (raw.getD [])))]

def envelope (domain : Domain) (signed : Value) : Value :=
  record [("signed", signed), ("signatures", signatures prim),
    ("transcript", transcript prim (metadataTranscript prim domain signed))]

def trustedRoot : Value :=
  envelope prim .root
    (rootSigned prim 1 1 [("valid_from_sequence", num 1)] "2026-01-01T00:00:00Z" "2027-01-01T00:00:00Z")

/-- The candidate root has the given sequence, and its key the given start. -/
def roots (last : UInt64) (start : List (String × Value)) : Value :=
  record
    [("trusted_root", trustedRoot prim),
      ("candidate_root", envelope prim .root
        (rootSigned prim 2 last start "2026-02-01T00:00:00Z" "2027-02-01T00:00:00Z")),
      ("transition", record [("from_version", num 1), ("to_version", num 2),
        ("candidate_signatures_by_old_root", signatures prim),
        ("candidate_signatures_by_new_root", signatures prim)])]

/-- The sum of the bytes for a digest; every key and every signature is accepted. -/
def summing : Primitives where
  digest bytes := List.replicate 32 (bytes.foldl (· + ·) 0)
  publicKey _ := true
  verify _ _ _ := none
  isNfc _ := true
  quote content := '"' :: content ++ ['"']
  parseStrictValue _ := none
  matchesSchema _ _ := true

/-- An index without releases. -/
def catalog (sequence : UInt64) (id : String) (previous : List (String × Value)) : Value :=
  envelope summing .index <|
    record [("generation", num 1), ("sequence", num sequence), ("registry_identity", str "r"),
      ("source_identity", str "s"), ("signature_role", str "index"),
      ("issued_at", str "2026-02-02T00:00:00Z"), ("expires_at", str "2026-12-01T00:00:00Z"),
      ("releases", .array []), ("consistent_snapshot", record (("snapshot_id", str id) :: previous))]

def hash (envelope : Value) : Value := field (field envelope "transcript") "sha256"

def first : Value := catalog 1 "x" []

/-- Another index for the position of the first. -/
def fork : Value := catalog 1 "y" []

/-- The index after the first. -/
def next : Value := catalog 2 "z" [("previous_snapshot_sha256", hash first)]

def json (document : Value) : Bytes := (canonicalJson summing document).getD []

/-- The texts of the three documents are parsed. -/
def parsing : Primitives :=
  { summing with parseStrictValue := fun bytes => [first, fork, next].find? fun d => json d = bytes }

def offer (document : Value) : Offer where
  indexBytes := json document
  roots := roots parsing 2 [("valid_from_sequence", num 1)]
  expectation := record
    [("verification_time", str "2026-03-01T00:00:00Z"),
      ("request", record [("registry_identity", str "r"), ("source_identity", str "s")]),
      ("required_signers", record [("index_role_id", str "index"), ("index_threshold", num 1)]),
      ("trusted_state", record [("trusted_root_anchor", record [("root_version", num 1),
        ("root_sequence", num 1), ("root_transcript_sha256", hash (trustedRoot parsing))])])]

/-- The first index has been seen. -/
def start : StartingIndex where
  generation := 1
  sequence := 1
  seen := [snapshotState 1 1 (str "x") ((text (hash first)).getD [])]
  snapshot := snapshotState 1 1 (str "x") ((text (hash first)).getD [])
  unique := filter_cons_of_pos ((atPosition_snapshotState 1 1 1 1 _ _).2 ⟨rfl, rfl⟩)

end Sample

/-- The client is offered the index it has seen, another one for the same position and one that names
the first.  It accepts the first and the last. -/
theorem run_chain_fork :
    let accepted := run Sample.parsing Sample.start.toTrustedIndex
      [Sample.offer Sample.first, Sample.offer Sample.fork, Sample.offer Sample.next]
    accepted.map (fun c => (c.sequence, c.snapshotId)) = [(1, ['x']), (2, ['z'])] ∧
      Chain Sample.parsing 1 1 Sample.start.sha256 accepted := by
  refine ⟨by decide +kernel, ?_⟩
  exact (run_chain Sample.parsing Sample.start _).2

end Axiomc.Trust
