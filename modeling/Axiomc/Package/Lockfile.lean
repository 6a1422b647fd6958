import Axiomc.Foundation.Checks
import Axiomc.Foundation.Text
import Axiomc.Foundation.Topological
import Axiomc.Package.Version

/-!
# Lockfiles

The records of a version 2 `axiom.lock` and `validate_lockfile_v2`: the checks of `lockfile.rs` in
the order in which the source makes them, with the texts of their errors.

The checks on single records and edges come first (`validateRecords`); the two graph checks,
`validateAcyclicV2Graph` and `validateConnectedV2Graph`, run last and only see records that passed.
An `expect` that fires is `.panic`.  The scan for reachable packages has no bound in the source; here
it has one, and `.exhausted` is what a scan beyond it would give.

The standard library's address parsers and its `{:?}` rendering of strings are parameters
(`Platform`).
-/

namespace Axiomc.Package.Lockfile

open Foundation Std

/-! ### Records -/

/-- What the checks use of the standard library and do not depend on. -/
structure Platform where
  /-- The `{:?}` rendering of a string. -/
  debug : Text → String
  /-- `parse::<Ipv4Addr>`, and whether the address is a loopback address. -/
  parseIpv4 : Text → Option Bool
  /-- `parse::<Ipv6Addr>`, and whether the address is a loopback address. -/
  parseIpv6 : Text → Option Bool

structure LockedCompatibilityEvidence where
  contract : Text
  compiler : Text
  editionPolicy : Text
  deriving DecidableEq

structure LockedRegistryV2 where
  name : Text
  source : Text
  registryIdentity : Text
  sourceIdentity : Text
  trustRootsSha256 : Text
  expectationSha256 : Text
  currentRootVersion : Nat
  currentRootSequence : Nat
  currentRootTranscriptSha256 : Text
  indexSha256 : Text
  indexTranscriptSha256 : Text
  indexGeneration : Nat
  indexSequence : Nat
  indexSnapshotId : Text
  indexSignerKeyIds : List Text
  deriving DecidableEq

structure LockedPackageV2 where
  id : Text
  name : Text
  version : Text
  source : Text
  (registry namespace' : Option Text := none)
  archiveSha256 : Option Text := none
  archiveLength : Option Nat := none
  manifestSha256 : Option Text := none
  provenanceSha256 : Option Text := none
  packageSignatureSha256 : Option Text := none
  verificationSha256 : Option Text := none
  publisherIdentity : Option Text := none
  signerKeyIds : List Text := []
  cacheKey : Option Text := none
  yankedAtResolution : Option Bool := none
  compatibility : LockedCompatibilityEvidence
  deriving DecidableEq

inductive LockedDependencySourceKind where
  | path
  | registry
  deriving DecidableEq

inductive LockedDependencyReason where
  | rootPathConstraint
  | transitivePathConstraint
  | highestCompatible
  | exactLockedReplay
  | trustedYankedLockedReplay
  deriving DecidableEq

structure LockedDependencyEdgeV2 where
  fromId : Text
  toId : Text
  aliasName : Text
  requested : Text
  sourceKind : LockedDependencySourceKind
  reason : LockedDependencyReason
  deriving DecidableEq

structure LockfileV2 where
  version : Nat
  compatibility : LockedCompatibilityEvidence
  roots : List Text
  registry : List LockedRegistryV2 := []
  package : List LockedPackageV2 := []
  edge : List LockedDependencyEdgeV2 := []
  deriving DecidableEq

/-! ### Errors -/

/-- A `Diagnostic` of kind `lockfile`. -/
structure LockfileDiagnostic where
  message : String
  path : String
  deriving DecidableEq, Repr

/-- `exhausted` stands for the edge scan running out of rounds; the source has no such outcome. -/
inductive LockfileStop where
  | rejected (diagnostic : LockfileDiagnostic)
  | panic (message : String)
  | exhausted
  deriving DecidableEq, Repr

abbrev Validation (α : Type) := Except LockfileStop α

variable (platform : Platform) (path : String)

def lockfileError (message : String) : LockfileStop := .rejected ⟨message, path⟩

/-- The value of an option, or a panic with the text given to `expect`. -/
def expectSome {α : Type} (value : Option α) (message : String) : Validation α :=
  require value (.panic message)

/-! ### Texts -/

/-- The text of a Rust string literal. -/
abbrev lit (text : String) : Text := text.toList

def isSha256 (digest : Text) : Bool :=
  (encodeUtf8 digest).length == 64 &&
    digest.all fun c => c.isDigit || ('a' ≤ c && c ≤ 'f')

def validateSha256 (field : String) (digest : Text) : Validation Unit :=
  reject (¬ isSha256 digest)
    (lockfileError path (field ++ " must contain exactly 64 lowercase hexadecimal characters"))

def validateKeyId (field : String) (keyId : Text) : Validation Unit :=
  match stripStart (lit "sha256:") keyId with
  | none =>
    .error (lockfileError path
      (field ++ " entries must use sha256:<64 lowercase hex> key ids"))
  | some digest => validateSha256 path field digest

def isCoordinate (value : Text) : Bool :=
  (encodeUtf8 value).length ≤ 256 &&
    match value with
    | [] => false
    | first :: rest =>
      (first.isLower || first.isDigit) &&
        rest.all fun c => c.isLower || c.isDigit || c == '-' || c == '_' || c == '.'

def validateCoordinate (field : String) (value : Text) : Validation Unit :=
  reject (¬ isCoordinate value)
    (lockfileError path (field ++ " must be a portable lowercase coordinate"))

def isPortableName (value : Text) : Bool :=
  !value.isEmpty && (encodeUtf8 value).length ≤ 256 &&
    value.all fun c => c.isAlphanum || c == '-' || c == '_' || c == '.'

def validatePortableName (field : String) (value : Text) : Validation Unit :=
  reject (¬ isPortableName value)
    (lockfileError path (field ++ " must be a portable ASCII name"))

def requireNonempty (field : String) (value : Text) : Validation Unit :=
  reject (value.isEmpty ∨ trim value ≠ value)
    (lockfileError path (field ++ " must be non-empty without surrounding whitespace"))

def requiredOption (field : String) (value : Option Text) : Validation Text :=
  require (value.filter fun v => !(trim v).isEmpty)
    (lockfileError path ("missing or empty " ++ field))

/-- `values.windows(2).all(|pair| pair[0] < pair[1])`. -/
def strictlySorted {α : Type} (cmp : α → α → Ordering) : List α → Bool
  | a :: b :: rest => cmp a b == .lt && strictlySorted cmp (b :: rest)
  | _ => true

def requireStrictlySorted {α : Type} (cmp : α → α → Ordering) (path label : String)
    (values : List α) : Validation Unit :=
  reject (¬ strictlySorted cmp values)
    (lockfileError path (label ++ " must be strictly sorted and duplicate-free"))

/-! ### Versions and constraints -/

/-- One component of a canonical version; its size is not bounded. -/
def isExactComponent (part : Text) : Bool :=
  !part.isEmpty && part.all Char.isDigit && (part == ['0'] || part.head? != some '0')

def isExactVersion (value : Text) : Bool :=
  let parts := value.splitOn '.'
  parts.length == 3 && parts.all isExactComponent

def validateExactVersion (field : String) (value : Text) : Validation Unit :=
  reject (¬ isExactVersion value)
    (lockfileError path (field ++ " must be a canonical MAJOR.MINOR.PATCH version"))

def validateConstraint (field : String) (value : Text) (allowWildcard : Bool) : Validation Unit :=
  if allowWildcard && value == lit "*" then .ok ()
  else validateExactVersion path field ((stripStart ['^'] value).getD value)

def parseVersionTriplet (value : Text) : Option (Nat × Nat × Nat) := do
  let parts := value.splitOn '.'
  let major ← parts[0]?.bind parseU64
  let minor ← parts[1]?.bind parseU64
  let patch ← parts[2]?.bind parseU64
  if parts[3]?.isSome then none else some (major, minor, patch)

/-- `>=` on triplets, which is lexicographic. -/
def tripletGe (a b : Nat × Nat × Nat) : Bool :=
  a.1 > b.1 || (a.1 == b.1 && (a.2.1 > b.2.1 || (a.2.1 == b.2.1 && a.2.2 ≥ b.2.2)))

/-- The window of a caret constraint, the last step of `locked_version_matches`. -/
def caretSelects (base selected : Nat × Nat × Nat) : Bool :=
  if base.1 == 0 && base.2.1 == 0 then
    selected.1 == 0 && selected.2.1 == 0 && selected.2.2 == base.2.2
  else if base.1 == 0 then
    selected.1 == 0 && selected.2.1 == base.2.1 && tripletGe selected base
  else
    selected.1 == base.1 && tripletGe selected base

def lockedVersionMatches (constraint version : Text) : Bool :=
  if constraint == lit "*" || constraint == version then true
  else
    match (stripStart ['^'] constraint).bind parseVersionTriplet with
    | none => false
    | some base =>
      match parseVersionTriplet version with
      | none => false
      | some selected => caretSelects base selected

/-! ### Sources -/

/-- `std::path::Component` on a Unix path. -/
inductive PathComponent where
  | rootDir
  | curDir
  | parentDir
  | normal (name : Text)
  deriving DecidableEq

/-- A part of a path between separators: an inner `.` and an empty part disappear. -/
def innerComponent (part : Text) : Option PathComponent :=
  if part.isEmpty || part == ['.'] then none
  else if part == ['.', '.'] then some .parentDir
  else some (.normal part)

/-- `Path::components`. -/
def pathComponents (path : Text) : List PathComponent :=
  match path.splitOn '/' with
  | [] => []
  | first :: rest =>
    let inner := rest.filterMap innerComponent
    if path.head? = some '/' then .rootDir :: inner
    else if first == ['.'] then .curDir :: inner
    else (innerComponent first).toList ++ inner

/-- `Path::is_absolute` on a Unix path. -/
def isAbsolute (path : Text) : Bool := path.head? == some '/'

/-- `PathBuf::push` and `pop` over the components pushed so far. -/
def normalizeStep (normalized : List Text) : PathComponent → List Text
  | .curDir => normalized
  | .parentDir => if normalized.isEmpty then [['.', '.']] else normalized.dropLast
  | .normal name => normalized ++ [name]
  | .rootDir => normalized

def normalizeDependencySource (path : Text) : Text :=
  let components := pathComponents path
  if components.all fun c => c == .curDir || c == .rootDir then ['.']
  else
    ((['/'].intercalate (components.foldl normalizeStep [])).map fun c =>
      if c == '\\' then '/' else c)

def isPortableSource (relative : Text) : Bool :=
  !relative.isEmpty && relative != ['.'] && !relative.contains '\\' &&
    !isAbsolute relative &&
    ((pathComponents relative).all fun c => match c with
      | .normal _ => true
      | _ => false) &&
    normalizeDependencySource relative == relative

def validatePathSource (source : Text) : Validation Unit :=
  if source == lit "path" then .ok ()
  else
    match stripStart (lit "path:") source with
    | none =>
      .error (lockfileError path ("path package has invalid source " ++ platform.debug source))
    | some relative =>
      reject (¬ isPortableSource relative)
        (lockfileError path
          ("path source " ++ platform.debug source ++ " is not portable and canonical"))

def canonicalRegistryPackageId (registry namespace' package version : Text) : Text :=
  lit "registry:" ++ registry ++ '/' :: namespace' ++ '/' :: package ++ '@' :: version

def canonicalPathPackageId (source package version : Text) : Text :=
  let source := (stripStart (lit "path:") source).getD source
  let source := if source == lit "path" || source.isEmpty then ['.'] else source
  lit "path:" ++ source ++ '#' :: package ++ '@' :: version

/-! ### Registry sources -/

/-- `authority[..=close]` and what follows it. -/
def splitRegistryAuthority (authority : Text) : Option Text × Option Text :=
  if authority.head? = some '[' then
    match authority.findIdx? (· == ']') with
    | none => (none, none)
    | some close =>
      let host := authority.take (close + 1)
      match authority.drop (close + 1) with
      | [] => (some host, none)
      | ':' :: port => (some host, some port)
      | _ => (none, none)
  else
    match rsplitOnce ':' authority with
    | some (host, port) => if host.contains ':' then (none, none) else (some host, some port)
    | none => (some authority, none)

/-- `str::parse::<u16>`. -/
def parsesU16 (text : Text) : Bool :=
  let digits := (stripStart ['+'] text).getD text
  !digits.isEmpty && digits.all Char.isDigit && Nat.ofDigitChars 10 digits 0 < 2 ^ 16

/-- The text between the brackets. -/
def unbracketed (host : Text) : Option Text :=
  (stripStart ['['] host).bind fun rest =>
    if rest.getLast? = some ']' then some rest.dropLast else none

def isValidIpv6AuthorityHost (host : Text) : Bool :=
  ((unbracketed host).bind platform.parseIpv6).isSome

def isValidRegistryHost (host : Text) : Bool :=
  !host.isEmpty && (encodeUtf8 host).length ≤ 253 && host.head? != some '.' &&
    host.getLast? != some '.' &&
    (host.splitOn '.').all fun label =>
      !label.isEmpty && (encodeUtf8 label).length ≤ 63 && label.head? != some '-' &&
        label.getLast? != some '-' && label.all fun c => c.isAlphanum || c == '-'

def isLoopbackRegistryHost (host : Text) : Bool :=
  match platform.parseIpv4 host with
  | some loopback => loopback
  | none => ((unbracketed host).bind platform.parseIpv6).getD false

def isValidNetworkRegistryUrl (rest : Text) (requireLoopback : Bool) : Bool :=
  let stop := fun c => c == '/' || c == '?' || c == '#'
  let authority := rest.takeWhile fun c => !stop c
  let suffix := rest.dropWhile fun c => !stop c
  if authority.isEmpty || authority.contains '@' || suffix.contains '?' || suffix.contains '#' then
    false
  else
    match splitRegistryAuthority authority with
    | (none, _) => false
    | (some host, port) =>
      (port.all fun p => !p.isEmpty && parsesU16 p) &&
        (if host.head? = some '[' || host.getLast? = some ']' then
          isValidIpv6AuthorityHost platform host
        else (platform.parseIpv4 host).isSome || isValidRegistryHost host) &&
        (!requireLoopback || isLoopbackRegistryHost platform host)

def isValidFileRegistryUrl (path : Text) : Bool :=
  path.head? == some '/' && path != ['/'] && !path.contains '?' && !path.contains '#' &&
    isAbsolute path

def isSupportedRegistryIndexUrl (registry : Text) : Bool :=
  match stripStart (lit "https://") registry with
  | some rest => isValidNetworkRegistryUrl platform rest false
  | none =>
    match stripStart (lit "http://") registry with
    | some rest => isValidNetworkRegistryUrl platform rest true
    | none =>
      match stripStart (lit "file://") registry with
      | some path => isValidFileRegistryUrl path
      | none => false

/-! ### Records -/

def validateCompatibility (field : String) (evidence : LockedCompatibilityEvidence) :
    Validation Unit := do
  requireNonempty path (field ++ ".contract") evidence.contract
  requireNonempty path (field ++ ".compiler") evidence.compiler
  requireNonempty path (field ++ ".edition_policy") evidence.editionPolicy

def validateRegistry (registry : LockedRegistryV2) : Validation Unit := do
  validateCoordinate path "registry.name" registry.name
  reject (¬ isSupportedRegistryIndexUrl platform registry.source)
    (lockfileError path ("registry " ++ platform.debug registry.name ++
      " has unsupported or non-canonical source " ++ platform.debug registry.source))
  requireNonempty path "registry.registry_identity" registry.registryIdentity
  requireNonempty path "registry.source_identity" registry.sourceIdentity
  validateSha256 path "registry.trust_roots_sha256" registry.trustRootsSha256
  validateSha256 path "registry.expectation_sha256" registry.expectationSha256
  validateSha256 path "registry.current_root_transcript_sha256"
    registry.currentRootTranscriptSha256
  validateSha256 path "registry.index_sha256" registry.indexSha256
  validateSha256 path "registry.index_transcript_sha256" registry.indexTranscriptSha256
  reject (registry.currentRootVersion = 0 ∨ registry.currentRootSequence = 0 ∨
      registry.indexGeneration = 0 ∨ registry.indexSequence = 0)
    (lockfileError path ("registry " ++ platform.debug registry.name ++
      " root/index version and sequence pins must be greater than zero"))
  requireNonempty path "registry.index_snapshot_id" registry.indexSnapshotId
  reject registry.indexSignerKeyIds.isEmpty
    (lockfileError path ("registry " ++ platform.debug registry.name ++
      " index_signer_key_ids must not be empty"))
  requireStrictlySorted byteOrder path "registry index_signer_key_ids" registry.indexSignerKeyIds
  registry.indexSignerKeyIds.forM (validateKeyId path "registry.index_signer_key_ids")

/-- The pair that identifies a registry. -/
def LockedRegistryV2.identities (registry : LockedRegistryV2) : Text × Text :=
  (registry.registryIdentity, registry.sourceIdentity)

/-- The registries in order, with the identity pairs seen so far. -/
def validateRegistries (registries : List LockedRegistryV2) : Validation Unit :=
  scanFresh
    (fun seen registry => do
      validateRegistry platform path registry
      reject (registry.identities ∈ seen)
        (lockfileError path "duplicate registry/source identity pair"))
    (fun registry => some registry.identities) [] registries

/-- `path` or `path:…`. -/
def isPathSource (source : Text) : Bool :=
  source == lit "path" || (lit "path:").isPrefixOf source

/-- Whether a record carries any evidence of a registry. -/
def hasRegistryEvidence (package : LockedPackageV2) : Bool :=
  package.registry.isSome || package.namespace'.isSome || package.archiveSha256.isSome ||
    package.archiveLength.isSome || package.manifestSha256.isSome ||
    package.provenanceSha256.isSome || package.packageSignatureSha256.isSome ||
    package.verificationSha256.isSome || package.publisherIdentity.isSome ||
    !package.signerKeyIds.isEmpty || package.cacheKey.isSome || package.yankedAtResolution.isSome

def validatePathPackage (package : LockedPackageV2) : Validation Unit := do
  validateExactVersion path "package.version" package.version
  validatePathSource platform path package.source
  let expected := canonicalPathPackageId package.source package.name package.version
  reject (package.id ≠ expected)
    (lockfileError path ("path package id " ++ platform.debug package.id ++
      " is not canonical; expected " ++ platform.debug expected))
  reject (hasRegistryEvidence package)
    (lockfileError path ("path package " ++ platform.debug package.id ++
      " must not contain registry trust evidence"))

/-- `str::trim_start_matches` with a nonempty pattern. -/
def trimStartMatches (pattern : Text) : Nat → Text → Text
  | 0, text => text
  | rounds + 1, text =>
    match stripStart pattern text with
    | some rest => trimStartMatches pattern rounds rest
    | none => text

def validateDigests (path : String) : List (String × Option Text) → Validation Unit
  | [] => .ok ()
  | (field, digest) :: rest => do
    let digest ← requiredOption path field digest
    validateSha256 path field digest
    validateDigests path rest

def validateRegistryPackage
    (configuredRegistries : List Text) (package : LockedPackageV2) (sourceCoordinates : Text) :
    Validation Unit := do
  validateCoordinate path "package.name" package.name
  validateExactVersion path "package.version" package.version
  let registry ← requiredOption path "package.registry" package.registry
  let namespace' ← requiredOption path "package.namespace" package.namespace'
  validateCoordinate path "package.registry" registry
  validateCoordinate path "package.namespace" namespace'
  reject (registry ∉ configuredRegistries)
    (lockfileError path ("package " ++ platform.debug package.id ++
      " references missing registry record " ++ platform.debug registry))
  let expectedSource := lit "registry:" ++ registry ++ '/' :: namespace' ++ '/' :: package.name
  reject (sourceCoordinates ≠
      trimStartMatches (lit "registry:") expectedSource.length expectedSource)
    (lockfileError path ("registry package source " ++ platform.debug package.source ++
      " is not canonical; expected " ++ platform.debug expectedSource))
  let expectedId := canonicalRegistryPackageId registry namespace' package.name package.version
  reject (package.id ≠ expectedId)
    (lockfileError path ("registry package id " ++ platform.debug package.id ++
      " is not canonical; expected " ++ platform.debug expectedId))
  let archiveSha256 ← requiredOption path "package.archive_sha256" package.archiveSha256
  validateSha256 path "package.archive_sha256" archiveSha256
  reject (package.archiveLength = some 0 ∨ package.archiveLength = none)
    (lockfileError path "registry package archive_length must be greater than zero")
  reject (package.archiveLength.any (· > 64 * 1024 * 1024))
    (lockfileError path
      "registry package archive_length exceeds the 64 MiB package archive limit")
  validateDigests path
    [("package.manifest_sha256", package.manifestSha256),
      ("package.provenance_sha256", package.provenanceSha256),
      ("package.package_signature_sha256", package.packageSignatureSha256),
      ("package.verification_sha256", package.verificationSha256)]
  let publisher ← requiredOption path "package.publisher_identity" package.publisherIdentity
  requireNonempty path "package.publisher_identity" publisher
  reject package.signerKeyIds.isEmpty
    (lockfileError path "registry package signer_key_ids must not be empty")
  requireStrictlySorted byteOrder path "package signer_key_ids" package.signerKeyIds
  package.signerKeyIds.forM (validateKeyId path "package.signer_key_ids")
  let cacheKey ← requiredOption path "package.cache_key" package.cacheKey
  reject (cacheKey ≠ lit "sha256:" ++ archiveSha256)
    (lockfileError path ("package.cache_key must equal the content address " ++
      platform.debug (lit "sha256:" ++ archiveSha256)))
  reject (package.yankedAtResolution = none)
    (lockfileError path "registry package yanked_at_resolution must be recorded")

def validateLockedPackageV2
    (configuredRegistries : List Text) (package : LockedPackageV2) : Validation Unit := do
  validatePortableName path "package.name" package.name
  validateCompatibility path "package.compatibility" package.compatibility
  if isPathSource package.source then
    validatePathPackage platform path package
  else
    match stripStart (lit "registry:") package.source with
    | none =>
      .error (lockfileError path ("package " ++ platform.debug package.id ++
        " has invalid source " ++ platform.debug package.source))
    | some sourceCoordinates =>
      validateRegistryPackage platform path configuredRegistries package sourceCoordinates

/-- The registry coordinate of a record, when it has one. -/
def LockedPackageV2.coordinate (package : LockedPackageV2) : Option (Text × Text × Text) := do
  let registry ← package.registry
  let namespace' ← package.namespace'
  some (registry, namespace', package.name)

def validateFreshCoordinate (seen : List (Text × Text × Text))
    (package : LockedPackageV2) : Validation Unit :=
  match package.coordinate with
  | none => .ok ()
  | some (registry, namespace', name) =>
    reject ((registry, namespace', name) ∈ seen)
      (lockfileError path
        ("axiom.lock v2 selects multiple versions for registry coordinate " ++
          String.ofList (registry ++ '/' :: namespace' ++ '/' :: name)))

/-- The packages in order, with the registry coordinates seen so far. -/
def validatePackages (configuredRegistries : List Text)
    (packages : List LockedPackageV2) : Validation Unit :=
  scanFresh
    (fun seen package => do
      validateLockedPackageV2 platform path configuredRegistries package
      validateFreshCoordinate path seen package)
    LockedPackageV2.coordinate [] packages

/-- `package.binary_search_by` on records sorted by id. -/
def LockfileV2.find (lockfile : LockfileV2) (id : Text) : Option LockedPackageV2 :=
  lockfile.package.find? fun package => package.id == id

def validateRoot (lockfile : LockfileV2) (root : Text) : Validation Unit := do
  reject (root ∉ lockfile.package.map (·.id))
    (lockfileError path ("axiom.lock v2 root " ++ platform.debug root ++
      " is absent from package records"))
  let rootPackage ← expectSome (lockfile.find root) "known root package id was checked above"
  reject (¬ (lit "path").isPrefixOf rootPackage.source)
    (lockfileError path ("axiom.lock v2 root " ++ platform.debug root ++
      " must identify a path package"))

/-! ### Edges -/

/-- The declaration order of the kinds. -/
def LockedDependencySourceKind.rank : LockedDependencySourceKind → Nat
  | .path => 0
  | .registry => 1

/-- The declaration order of the reasons. -/
def LockedDependencyReason.rank : LockedDependencyReason → Nat
  | .rootPathConstraint => 0
  | .transitivePathConstraint => 1
  | .highestCompatible => 2
  | .exactLockedReplay => 3
  | .trustedYankedLockedReplay => 4

/-- The derived `Debug` text. -/
def LockedDependencyReason.debug : LockedDependencyReason → String
  | .rootPathConstraint => "RootPathConstraint"
  | .transitivePathConstraint => "TransitivePathConstraint"
  | .highestCompatible => "HighestCompatible"
  | .exactLockedReplay => "ExactLockedReplay"
  | .trustedYankedLockedReplay => "TrustedYankedLockedReplay"

/-- The order of `edge_order_key`. -/
def edgeOrder (a b : LockedDependencyEdgeV2) : Ordering :=
  (byteOrder a.fromId b.fromId).then <| (byteOrder a.aliasName b.aliasName).then <|
    (byteOrder a.toId b.toId).then <| (byteOrder a.requested b.requested).then <|
      (compare a.sourceKind.rank b.sourceKind.rank).then (compare a.reason.rank b.reason.rank)

/-- Whether the reason of an edge fits its kind, its origin and the yank evidence of its target. -/
def reasonFits (lockfile : LockfileV2) (edge : LockedDependencyEdgeV2)
    (target : LockedPackageV2) : Bool :=
  match edge.sourceKind, edge.reason with
  | .path, .rootPathConstraint => lockfile.roots.contains edge.fromId
  | .path, .transitivePathConstraint => true
  | .registry, .highestCompatible => target.yankedAtResolution == some false
  | .registry, .exactLockedReplay => target.yankedAtResolution == some false
  | .registry, .trustedYankedLockedReplay => target.yankedAtResolution == some true
  | _, _ => false

def validateSourceKind (edge : LockedDependencyEdgeV2)
    (target : LockedPackageV2) : Validation Unit :=
  match edge.sourceKind with
  | .path =>
    reject (¬ (lit "path").isPrefixOf target.source)
      (lockfileError path ("path dependency edge " ++ platform.debug edge.aliasName ++
        " targets non-path source " ++ platform.debug target.source))
  | .registry =>
    reject (¬ (lit "registry:").isPrefixOf target.source)
      (lockfileError path ("registry dependency edge " ++ platform.debug edge.aliasName ++
        " targets non-registry source " ++ platform.debug target.source))

def validateEdge (lockfile : LockfileV2)
    (seen : List (Text × Text)) (edge : LockedDependencyEdgeV2) : Validation Unit := do
  reject (edge.fromId ∉ lockfile.package.map (·.id) ∨ edge.toId ∉ lockfile.package.map (·.id))
    (lockfileError path ("dependency edge " ++ platform.debug edge.fromId ++ " -> " ++
      platform.debug edge.toId ++ " references a package id absent from axiom.lock"))
  validatePortableName path "edge.alias" edge.aliasName
  validateConstraint path "edge.requested" edge.requested true
  reject ((edge.fromId, edge.aliasName) ∈ seen)
    (lockfileError path ("duplicate dependency alias " ++ platform.debug edge.aliasName ++
      " from package " ++ platform.debug edge.fromId))
  let target ← expectSome (lockfile.find edge.toId) "known package id was checked above"
  validateSourceKind platform path edge target
  reject (¬ lockedVersionMatches edge.requested target.version)
    (lockfileError path ("dependency edge " ++ platform.debug edge.aliasName ++ " requests " ++
      platform.debug edge.requested ++ ", which does not select locked version " ++
      platform.debug target.version))
  reject (¬ reasonFits lockfile edge target)
    (lockfileError path ("dependency edge " ++ platform.debug edge.aliasName ++ " has reason " ++
      edge.reason.debug ++ " inconsistent with its source and yank evidence"))

/-- The edges in order, with the aliases seen so far. -/
def validateEdges (lockfile : LockfileV2) : Validation Unit :=
  scanFresh (validateEdge platform path lockfile)
    (fun edge => some (edge.fromId, edge.aliasName)) [] lockfile.edge

/-! ### The graph -/

/-- The edges between package ids. -/
def LockfileV2.arcs (lockfile : LockfileV2) : List (Text × Text) :=
  lockfile.edge.map fun edge => (edge.fromId, edge.toId)

def LockfileV2.ids (lockfile : LockfileV2) : List Text := lockfile.package.map (·.id)

/-- The members of a cycle, or behind one, joined for the message. -/
def cycleMembers (incoming : TreeMap Text Nat byteOrder) : Text :=
  (lit ", ").intercalate ((incoming.toList.filter fun entry => entry.2 > 0).map Prod.fst)

def validateAcyclicV2Graph (lockfile : LockfileV2) : Validation Unit := do
  let (visited, incoming) ← expectSome
    (sweepAll lockfile.ids lockfile.arcs : Option (Nat × TreeMap Text Nat byteOrder))
    "edge package ids were validated before cycle detection"
  reject (visited ≠ incoming.size)
    (lockfileError path ("axiom.lock v2 dependency graph contains a cycle involving " ++
      String.ofList (cycleMembers incoming)))

def validateConnectedV2Graph (lockfile : LockfileV2) : Validation Unit := do
  let start : TreeSet Text byteOrder := lockfile.roots.foldl (fun set root => set.insert root) ∅
  let reachable ← require
    (closeUnder lockfile.arcs (lockfile.package.length + lockfile.roots.length + 1) start)
    LockfileStop.exhausted
  let orphan := ((lockfile.package.find? fun package => !reachable.contains package.id).map
    (·.id)).getD (lit "<unknown>")
  reject (reachable.size ≠ lockfile.package.length)
    (lockfileError path ("axiom.lock v2 contains orphan package record " ++ platform.debug orphan))

/-! ### The whole file -/

/-- Every check that looks at single records and edges. -/
def validateRecords (lockfile : LockfileV2) : Validation Unit := do
  reject (lockfile.version ≠ 2)
    (lockfileError path ("axiom.lock v2 requires version 2, got " ++ toString lockfile.version))
  validateCompatibility path "compatibility" lockfile.compatibility
  requireStrictlySorted byteOrder path "registry records" (lockfile.registry.map (·.name))
  validateRegistries platform path lockfile.registry
  requireStrictlySorted byteOrder path "package records" lockfile.ids
  validatePackages platform path (lockfile.registry.map (·.name)) lockfile.package
  reject lockfile.roots.isEmpty
    (lockfileError path "axiom.lock v2 roots must contain at least one entry package id")
  requireStrictlySorted byteOrder path "root package ids" lockfile.roots
  lockfile.roots.forM (validateRoot platform path lockfile)
  requireStrictlySorted edgeOrder path "dependency edge records" lockfile.edge
  validateEdges platform path lockfile

def validateLockfileV2At (lockfile : LockfileV2) : Validation Unit := do
  validateRecords platform path lockfile
  validateAcyclicV2Graph path lockfile
  validateConnectedV2Graph platform path lockfile

def validateLockfileV2 (lockfile : LockfileV2) : Validation Unit :=
  validateLockfileV2At platform "axiom.lock" lockfile

end Axiomc.Package.Lockfile
