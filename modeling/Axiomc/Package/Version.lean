import Axiomc.Foundation.Sorting
import Mathlib.Algebra.Group.Nat.Defs

/-!
# Release versions and version requirements

The embedding of `package_version.rs`: release-only semantic versions with three `u64`
components in lexicographic order, their parser, and the two forms of requirement.  `matches'`
follows `VersionRequirement::matches` branch by branch, the lower bound first and then the window of
the exact or caret form.
-/

namespace Axiomc.Package

open Std

/-- `ReleaseVersion`. -/
structure ReleaseVersion where
  major : UInt64
  minor : UInt64
  patch : UInt64
  deriving DecidableEq, Repr

/-- The derived order of `ReleaseVersion`: component by component. -/
def ReleaseVersion.cmp : ReleaseVersion → ReleaseVersion → Ordering :=
  compareLex (compareOn (·.major)) (compareLex (compareOn (·.minor)) (compareOn (·.patch)))

instance : Ord ReleaseVersion := ⟨ReleaseVersion.cmp⟩

instance : TransOrd ReleaseVersion := inferInstanceAs (TransCmp (compareLex _ _))

instance : LawfulEqOrd ReleaseVersion where
  eq_of_compare {a b} h := by
    have h' : ReleaseVersion.cmp a b = .eq := h
    simp only [ReleaseVersion.cmp, compareLex_eq_eq, compareOn,
      LawfulEqCmp.compare_eq_iff_eq] at h'
    obtain ⟨h₁, h₂, h₃⟩ := h'
    cases a
    cases b
    simp_all

instance : LT ReleaseVersion := ltOfOrd

instance : LE ReleaseVersion := leOfOrd

instance : DecidableRel (α := ReleaseVersion) (· < ·) :=
  fun a b => inferInstanceAs (Decidable (compare a b = .lt))

instance : DecidableRel (α := ReleaseVersion) (· ≤ ·) :=
  fun a b => inferInstanceAs (Decidable ((compare a b).isLE = true))

theorem ReleaseVersion.lt_iff_components {a b : ReleaseVersion} : a < b ↔
    a.major < b.major ∨ a.major = b.major ∧
      (a.minor < b.minor ∨ a.minor = b.minor ∧ a.patch < b.patch) := by
  show ReleaseVersion.cmp a b = .lt ↔ _
  simp only [ReleaseVersion.cmp, compareLex, compareOn, Ordering.then_eq_lt, Std.compare_eq_lt,
    Std.LawfulEqCmp.compare_eq_iff_eq]

theorem ReleaseVersion.le_iff_not_lt {a b : ReleaseVersion} : a ≤ b ↔ ¬ b < a := by
  show (compare a b).isLE = true ↔ ¬ compare b a = .lt
  have hswap : compare b a = (compare a b).swap := OrientedCmp.eq_swap
  rw [hswap]
  cases compare a b <;> decide

/-- `impl Display for ReleaseVersion`. -/
def ReleaseVersion.display (v : ReleaseVersion) : String :=
  toString v.major.toNat ++ "." ++ toString v.minor.toNat ++ "." ++ toString v.patch.toNat

/-- `VersionParseError`. -/
inductive VersionParseError where
  | invalidRelease (value : String)
  | componentOverflow (value : String)
  | invalidRequirement (value : String)
  deriving DecidableEq, Repr

/-- `parse_component`. -/
def parseComponent (component : Option (List Char)) (original : String) :
    Except VersionParseError UInt64 :=
  match component with
  | none => .error (.invalidRelease original)
  | some component =>
    if component.isEmpty || !component.all Char.isDigit
        || (component.length > 1 && component.head? == some '0') then
      .error (.invalidRelease original)
    else if Nat.ofDigitChars 10 component 0 < 2 ^ 64 then
      .ok (UInt64.ofNat (Nat.ofDigitChars 10 component 0))
    else .error (.componentOverflow original)

/-- `ReleaseVersion::parse`. -/
def ReleaseVersion.parse (value : String) : Except VersionParseError ReleaseVersion := do
  if value.isEmpty || !value.toList.all (·.toNat < 128) then
    throw (.invalidRelease value)
  let parts := value.toList.splitOn '.'
  let major ← parseComponent parts[0]? value
  let minor ← parseComponent parts[1]? value
  let patch ← parseComponent parts[2]? value
  if parts[3]?.isSome then
    throw (.invalidRelease value)
  return ⟨major, minor, patch⟩

/-- `VersionRequirement`. -/
inductive VersionRequirement where
  | exact (version : ReleaseVersion)
  | caret (version : ReleaseVersion)
  deriving DecidableEq, Repr

namespace VersionRequirement

/-- `VersionRequirement::parse`. -/
def parse (value : String) : Except VersionParseError VersionRequirement :=
  match value.toList with
  | '^' :: version =>
    if version.head? = some '^' then
      .error (.invalidRequirement value)
    else
      match ReleaseVersion.parse (String.ofList version) with
      | .ok v => .ok (caret v)
      | .error _ => .error (.invalidRequirement value)
  | _ =>
    match ReleaseVersion.parse value with
    | .ok v => .ok (exact v)
    | .error _ => .error (.invalidRequirement value)

/-- `VersionRequirement::minimum`. -/
def minimum : VersionRequirement → ReleaseVersion
  | exact version => version
  | caret version => version

/-- `VersionRequirement::matches`. -/
def matches' (r : VersionRequirement) (candidate : ReleaseVersion) : Bool :=
  if candidate < r.minimum then false
  else
    match r with
    | exact version => candidate == version
    | caret version =>
      if version.major > 0 then candidate.major == version.major
      else if version.minor > 0 then
        candidate.major == 0 && candidate.minor == version.minor
      else candidate.major == 0 && candidate.minor == 0 && candidate.patch == version.patch

/-- `impl Display for VersionRequirement`. -/
def display : VersionRequirement → String
  | exact version => version.display
  | caret version => "^" ++ version.display

/-- The derived order: every exact requirement before every caret one, then by version. -/
def cmp : VersionRequirement → VersionRequirement → Ordering
  | exact a, exact b => compare a b
  | exact _, caret _ => .lt
  | caret _, exact _ => .gt
  | caret a, caret b => compare a b

instance : Ord VersionRequirement := ⟨cmp⟩

end VersionRequirement

end Axiomc.Package
