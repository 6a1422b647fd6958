import Axiomc.Foundation.Checks
import Axiomc.Trust.Value

/-!
# Transcripts

What is signed: `canonical_json`, `metadata_transcript` and `package_transcript` of
`package_trust.rs`, and the comparison of a document's transcript record with the bytes computed from
its signed part.

`Primitives` holds what the verifier takes from elsewhere: SHA-256, the Ed25519 key and signature
checks, Unicode normalisation, `serde_json`'s reader and string escapes, and the schema validator.
Nothing is assumed of them here.
-/

namespace Axiomc.Trust

open Foundation

inductive SignatureFailure where
  | keyMalformed
  | signatureMalformed
  | signatureInvalid
  deriving DecidableEq, Repr

/-- The documents that have a published schema and a work budget of their own. -/
inductive DocumentKind where
  | package
  | roots
  | index
  | expectation
  deriving DecidableEq, Repr

/-- Third-party code and cryptography. -/
structure Primitives where
  /-- `Sha256::digest`. -/
  digest : Bytes → Bytes
  /-- `public_key`: whether 32 bytes are an acceptable Ed25519 public key. -/
  publicKey : Bytes → Bool
  /-- The checks of `signature_status` after both texts are decoded: the key is acceptable, the
  signature has 64 bytes. -/
  verify : Bytes → Bytes → Bytes → Option SignatureFailure
  /-- `is_nfc`. -/
  isNfc : Text → Bool
  /-- `serde_json::to_string` of a string. -/
  quote : Text → Text
  /-- `parse_strict_value`. -/
  parseStrictValue : Bytes → Option Value
  /-- `validate_schema_value` with the published schema of the document. -/
  matchesSchema : DocumentKind → Value → Bool

variable (prim : Primitives)

/-! ### Hexadecimal text -/

/-- `const HEX`. -/
def hexDigit (n : Nat) : Char := "0123456789abcdef".toList.getD n '0'

def hexEncode (bytes : Bytes) : Text :=
  bytes.flatMap fun byte => [hexDigit (byte.toNat / 16), hexDigit (byte.toNat % 16)]

/-- `sha256`: the digest in lowercase hexadecimal. -/
def sha256 (bytes : Bytes) : Text := hexEncode (prim.digest bytes)

def nibble (byte : UInt8) : Option UInt8 :=
  if 48 ≤ byte ∧ byte ≤ 57 then some (byte - 48)
  else if 97 ≤ byte ∧ byte ≤ 102 then some (byte - 97 + 10)
  else none

/-- The pairs of `chunks_exact(2)`. -/
def decodePairs : Bytes → Option Bytes
  | [] => some []
  | [_] => some []
  | high :: low :: rest => do
    let high ← nibble high
    let low ← nibble low
    let rest ← decodePairs rest
    some ((high <<< 4 ||| low) :: rest)

def decodeHex (value : Value) : Option Bytes :=
  match text value with
  | none => none
  | some value =>
    if (encodeUtf8 value).length % 2 ≠ 0 then none else decodePairs (encodeUtf8 value)

def isLowerHex (byte : UInt8) : Bool := (48 ≤ byte && byte ≤ 57) || (97 ≤ byte && byte ≤ 102)

def canonicalKeyId (value : Text) : Bool :=
  let bytes := encodeUtf8 value
  bytes.length == 71 && "sha256:".toList.isPrefixOf value && (bytes.drop 7).all isLowerHex

/-! ### Canonical JSON -/

/-- A member of an object, with the text of its value. -/
def memberText (entry : Text × Option Text) : Option Text :=
  if prim.isNfc entry.1 then entry.2.map fun part => prim.quote entry.1 ++ ':' :: part else none

mutual

/-- `canonical_json`; `none` stands for its errors, whose texts no caller reads. -/
def canonicalText : Value → Option Text
  | .null => some "null".toList
  | .bool b => some (if b then "true".toList else "false".toList)
  | .number (.unsigned n) => some (Nat.toDigits 10 n.toNat)
  | .number (.negative magnitude) => some ('-' :: Nat.toDigits 10 magnitude)
  | .number (.float _) => none
  | .string value => if prim.isNfc value then some (prim.quote value) else none
  | .array items => do
    let parts ← canonicalItems items
    some ('[' :: [','].intercalate parts ++ [']'])
  | .object entries => do
    let parts ← (sortEntries (canonicalEntries entries)).mapM (memberText prim)
    some ('{' :: [','].intercalate parts ++ ['}'])

def canonicalItems : List Value → Option (List Text)
  | [] => some []
  | item :: rest => do
    let part ← canonicalText item
    let parts ← canonicalItems rest
    some (part :: parts)

def canonicalEntries : List (Text × Value) → List (Text × Option Text)
  | [] => []
  | (key, value) :: rest => (key, canonicalText value) :: canonicalEntries rest

end

def canonicalJson (value : Value) : Option Bytes := (canonicalText prim value).map encodeUtf8

/-! ### Metadata transcripts -/

/-- `to_be_bytes` of a number of `width` bytes. -/
def bigEndian : Nat → Nat → Bytes
  | 0, _ => []
  | width + 1, n => bigEndian width (n / 256) ++ [UInt8.ofNat (n % 256)]

inductive Domain where
  | package
  | root
  | index
  deriving DecidableEq, Repr

/-- `PACKAGE_DOMAIN`, `ROOT_DOMAIN` and `INDEX_DOMAIN`. -/
def Domain.name : Domain → Text
  | package => "AXIOM-PACKAGE-TRUST-V1".toList
  | root => "AXIOM-TRUST-ROOT-V1".toList
  | index => "AXIOM-REGISTRY-INDEX-V2".toList

/-- A byte string after its length in `width` bytes. -/
def lengthPrefixed (width : Nat) (bytes : Bytes) : Bytes := bigEndian width bytes.length ++ bytes

/-- `metadata_transcript`; the three domains are short ASCII texts, so only the payload can fail. -/
def metadataTranscript (domain : Domain) (signed : Value) : Option Bytes := do
  let payload ← canonicalJson prim signed
  some (lengthPrefixed 2 (encodeUtf8 domain.name) ++ lengthPrefixed 8 payload)

/-- The transcript record of an envelope is that of `raw`. -/
def transcriptMatches (envelope : Value) (raw : Bytes) : Bool :=
  let transcript := field envelope "transcript"
  text (field transcript "bytes_hex") == some (hexEncode raw) &&
    text (field transcript "sha256") == some (sha256 prim raw)

/-! ### Package transcripts -/

/-- The value of one field of a package transcript, encoded. -/
inductive TranscriptValue where
  | integer (n : UInt64)
  | text (value : Text)
  | bytes (value : Bytes)
  deriving DecidableEq

def TranscriptValue.encode : TranscriptValue → Option Bytes
  | integer n => some (bigEndian 8 n.toNat)
  | text value => if prim.isNfc value then some (encodeUtf8 value) else none
  | bytes value => some value

/-- A text, a number or hexadecimal bytes of the package document. -/
def requiredText (value : Value) : Option TranscriptValue := (text value).map .text

def requiredU64 (value : Value) : Option TranscriptValue := (number value).map .integer

def requiredBytes (value : Value) : Option TranscriptValue := (decodeHex value).map .bytes

/-- `PACKAGE_FIELDS`, each with what the document has for it. -/
def packageFields (package : Value) (packageThreshold : UInt64) :
    List (String × Option TranscriptValue) :=
  let scheme := field package "scheme"
  let archive := field package "archive"
  let coordinates := field package "package"
  let registry := field package "registry"
  let provenance := field package "provenance"
  let statement := field provenance "statement"
  let selected := field provenance "selected_subject"
  let index := field package "index"
  [("transcript_format_version", some (.integer 1)),
    ("signature_algorithm", requiredText (field scheme "algorithm")),
    ("signature_version", requiredU64 (field scheme "version")),
    ("signature_message_mode", requiredText (field scheme "message_mode")),
    ("archive_digest_algorithm", requiredText (field (field archive "digest") "algorithm")),
    ("archive_digest", requiredBytes (field (field archive "digest") "value")),
    ("archive_length", requiredU64 (field archive "size")),
    ("manifest_digest", requiredBytes (field (field package "manifest") "value")),
    ("package_namespace", requiredText (field coordinates "namespace")),
    ("package_name", requiredText (field coordinates "name")),
    ("package_version", requiredText (field coordinates "version")),
    ("target_path", requiredText (field coordinates "target_path")),
    ("registry_identity", requiredText (field registry "registry_identity")),
    ("source_identity", requiredText (field registry "source_identity")),
    ("publisher_identity", requiredText (field (field package "publisher") "publisher_identity")),
    ("provenance_statement_digest", requiredBytes (field (field statement "digest") "value")),
    ("provenance_statement_type", requiredText (field (field statement "value") "_type")),
    ("provenance_predicate_type", requiredText (field (field statement "value") "predicateType")),
    ("provenance_subject_name", requiredText (field selected "name")),
    ("provenance_subject_digest", requiredBytes (field (field selected "digest") "sha256")),
    ("index_generation", requiredU64 (field index "generation")),
    ("index_sequence", requiredU64 (field index "sequence")),
    ("package_signature_threshold", some (.integer packageThreshold))]

/-- One field of the transcript: its name and its value, each after its length. -/
def encodeField (entry : String × Option TranscriptValue) : Option Bytes := do
  let value ← entry.2
  let encoded ← value.encode prim
  some (lengthPrefixed 2 (encodeUtf8 entry.1.toList) ++ lengthPrefixed 8 encoded)

/-- `package_transcript`; `none` stands for its errors, whose texts no caller reads. -/
def packageTranscript (package : Value) (packageThreshold : UInt64) : Option Bytes := do
  let fields := packageFields package packageThreshold
  let encoded ← fields.mapM (encodeField prim)
  some (lengthPrefixed 2 (encodeUtf8 Domain.package.name) ++ bigEndian 2 fields.length ++
    encoded.flatten)

end Axiomc.Trust
