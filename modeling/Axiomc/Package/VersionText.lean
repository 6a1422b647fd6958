import Axiomc.Package.Version
import Axiomc.Foundation.Text
import Axiomc.Foundation.Checks
import Mathlib.Order.Bounds.Basic

/-!
# The text of a version

`ReleaseVersion::parse` and `VersionRequirement::parse` accept exactly what `Display` writes, so a
version and a requirement have one spelling each:

* `parseComponent_eq_ok`: a component is accepted exactly as the decimal digits of its value, which
  carries the leading-zero rule and the overflow rule;
* `ReleaseVersion.parse_eq_ok_iff`: a version is three such components around two points;
* `VersionRequirement.parse_eq_ok_iff`: a requirement is a version with or without one caret.

The second half is about the order.  `inWindow` is what `matches'` asks for beside the lower bound.
A window fixes leading components only, so what lies between two of its versions lies in it
(`inWindow_of_between`), and the versions a requirement selects are an interval.
-/

namespace Axiomc.Package

open Foundation ReleaseVersion String Nat

/-! ### Components -/

theorem parseComponent_checks {component : Text} : (component.isEmpty || !component.all Char.isDigit
      || (component.length > 1 && component.head? == some '0')) = false ↔
      CanonicalDecimal component := by
  simp only [CanonicalDecimal, Bool.or_eq_false_iff, List.isEmpty_eq_false_iff,
    Bool.not_eq_false', Bool.and_eq_false_iff, decide_eq_false_iff_not, beq_eq_false_iff_ne]
  tauto

/-- A component is accepted exactly as the digits of its value. -/
theorem parseComponent_eq_ok {component : Option Text} {original : String} {n : UInt64} :
    parseComponent component original = .ok n ↔ component = some (toDigits 10 n.toNat) := by
  cases component with
  | none => simp [parseComponent]
  | some component =>
    rw [Option.some.injEq]
    constructor
    · intro h
      simp only [parseComponent] at h
      split at h
      · cases h
      next hchecks =>
        split at h
        next hfits =>
          have hcanonical := parseComponent_checks.1 (Bool.eq_false_iff.2 hchecks)
          have hvalue : n.toNat = ofDigitChars 10 component 0 := by
            rw [← Except.ok.inj h, UInt64.toNat_ofNat', mod_eq_of_lt hfits]
          rw [hvalue, hcanonical.toDigits_ofDigitChars]
        · cases h
    · intro h
      have hvalue : ofDigitChars 10 component 0 = n.toNat := by
        rw [h, ofDigitChars_ten_toDigits]
      have hcanonical : CanonicalDecimal component := by
        rw [h]
        exact canonicalDecimal_toDigits _
      have hfits : n.toNat < 2 ^ 64 := n.toNat_lt
      simp only [parseComponent, parseComponent_checks.2 hcanonical, Bool.false_eq_true, if_false,
        hvalue, hfits, if_true, UInt64.ofNat_toNat]

/-! ### Versions -/

/-- The three printed components. -/
def ReleaseVersion.parts (v : ReleaseVersion) : List Text :=
  [toDigits 10 v.major.toNat, toDigits 10 v.minor.toNat, toDigits 10 v.patch.toNat]

theorem ReleaseVersion.toList_display (v : ReleaseVersion) :
    v.display.toList = ['.'].intercalate v.parts := by
  have hdigits : ∀ n : Nat, (toString n).toList = toDigits 10 n := fun n => by
    show (Nat.repr n).toList = _
    rw [Nat.repr, toList_ofList]
  simp only [display, parts, toList_append]
  simp

variable {v high low : ReleaseVersion} {s : String} {r : VersionRequirement}

theorem ReleaseVersion.digits_of_mem_parts {part : Text} (h : part ∈ v.parts) :
    ∀ c ∈ part, c.isDigit = true := by
  intro c hc
  simp only [parts, List.mem_cons, List.not_mem_nil, or_false] at h
  rcases h with rfl | rfl | rfl <;>
    exact isDigit_of_mem_toDigits (by omega) (by omega) hc

theorem ReleaseVersion.splitOn_display (v : ReleaseVersion) :
    v.display.toList.splitOn '.' = v.parts := by
  rw [toList_display]
  apply List.splitOn_intercalate
  · intro part hpart hpoint
    have hdigit := digits_of_mem_parts hpart _ hpoint
    revert hdigit
    decide
  · exact List.cons_ne_nil _ _

/-- The printed text consists of digits and points. -/
theorem ReleaseVersion.mem_display {c : Char} (h : c ∈ v.display.toList) :
    c.isDigit = true ∨ c = '.' := by
  by_cases hpoint : c = '.'
  · exact .inr hpoint
  · obtain ⟨part, hpart, hmem⟩ := mem_part_of_mem h hpoint
    rw [splitOn_display] at hpart
    exact .inl (digits_of_mem_parts hpart c hmem)

theorem ReleaseVersion.display_ascii (v : ReleaseVersion) :
    v.display.toList.all (·.toNat < 128) = true := by
  rw [List.all_eq_true]
  intro c hc
  rcases mem_display hc with hdigit | rfl
  · simp only [Char.isDigit, Bool.and_eq_true, decide_eq_true_eq] at hdigit
    have hle : c.toNat ≤ 57 := hdigit.2
    exact decide_eq_true (by omega)
  · rfl

theorem ReleaseVersion.display_not_empty (v : ReleaseVersion) : v.display.isEmpty = false := by
  rw [isEmpty_eq_false_iff]
  intro hempty
  have hsplit := splitOn_display v
  rw [hempty] at hsplit
  simp [parts] at hsplit

/-- Four lookups that decide a list of three. -/
theorem parts_eq_of_lookups {α : Type} {parts : List α} {a b c : α} : parts = [a, b, c] ↔
      parts[0]? = some a ∧ parts[1]? = some b ∧ parts[2]? = some c ∧ parts[3]?.isSome = false := by
  match parts with
  | [] => simp
  | [x] => simp
  | [x, y] => simp
  | [x, y, z] => simp
  | x :: y :: z :: w :: rest => simp

/-- An early `return Err(..)` in front of the rest of a function. -/
theorem guard_eq_ok {ε α β : Type} {c : Prop} [Decidable c] {e : ε} {f : α → Except ε β}
    {x : Except ε β} {b : β} :
    (if c then (throw e : Except ε α) >>= f else x) = .ok b ↔ ¬c ∧ x = .ok b := by
  by_cases h : c
  · rw [if_pos h]
    exact ⟨fun hthrow => (nomatch hthrow), fun hpass => absurd h hpass.1⟩
  · rw [if_neg h, and_iff_right h]

/-- `ReleaseVersion::parse` accepts a version in its printed form and in no other. -/
theorem ReleaseVersion.parse_eq_ok_iff : parse s = .ok v ↔ s = v.display := by
  have hread : parse s = .ok v ↔
      (s.isEmpty || !s.toList.all (·.toNat < 128)) = false ∧ s.toList.splitOn '.' = v.parts := by
    simp only [parse, parts, parts_eq_of_lookups]
    simp only [guard_eq_ok, bind_eq_ok, parseComponent_eq_ok, pure_eq_ok]
    constructor
    · rintro ⟨hchecks, major, hmajor, minor, hminor, patch, hpatch, hend, rfl⟩
      exact ⟨Bool.eq_false_iff.2 hchecks, hmajor, hminor, hpatch, Bool.eq_false_iff.2 hend⟩
    · rintro ⟨hchecks, hmajor, hminor, hpatch, hend⟩
      exact ⟨Bool.eq_false_iff.1 hchecks, v.major, hmajor, v.minor, hminor, v.patch, hpatch,
        Bool.eq_false_iff.1 hend, rfl⟩
  rw [hread]
  constructor
  · rintro ⟨-, hparts⟩
    rw [← toList_inj, toList_display, ← hparts, List.intercalate_splitOn]
  · rintro rfl
    rw [display_not_empty, display_ascii]
    exact ⟨rfl, splitOn_display v⟩

/-! ### Requirements -/

theorem ReleaseVersion.head_display_ne_caret (v : ReleaseVersion) :
    v.display.toList.head? ≠ some '^' := by
  intro hhead
  obtain ⟨rest, hrest⟩ := List.head?_eq_some_iff.1 hhead
  have hcaret := mem_display (v := v) (c := '^') (by simp [hrest])
  revert hcaret
  decide

/-- A text that starts with a caret prints a caret requirement. -/
theorem VersionRequirement.caret_text {version : Text} :
    ofList ('^' :: version) = r.display ↔ ∃ v, r = .caret v ∧ ofList version = v.display := by
  constructor
  · intro h
    cases r with
    | exact v =>
      refine absurd ?_ v.head_display_ne_caret
      have hdisplay : ofList ('^' :: version) = v.display := h
      rw [← hdisplay, toList_ofList, List.head?_cons]
    | caret v =>
      refine ⟨v, rfl, ?_⟩
      rw [VersionRequirement.display, ← toList_inj, toList_ofList, toList_append] at h
      rw [← toList_inj, toList_ofList]
      exact List.tail_eq_of_cons_eq h
  · rintro ⟨v, rfl, h⟩
    rw [VersionRequirement.display, ← h]
    simp

/-- A text without a caret in front prints an exact requirement. -/
theorem VersionRequirement.plain_text
    (hplain : ∀ version, s.toList ≠ '^' :: version) :
    s = r.display ↔ ∃ v, r = .exact v ∧ s = v.display := by
  constructor
  · intro h
    cases r with
    | exact v => exact ⟨v, rfl, h⟩
    | caret v =>
      refine absurd ?_ (hplain v.display.toList)
      rw [h, VersionRequirement.display, toList_append]
      rfl
  · rintro ⟨v, rfl, h⟩
    exact h

/-- `VersionRequirement::parse` accepts a requirement in its printed form and in no other. -/
theorem VersionRequirement.parse_eq_ok_iff : VersionRequirement.parse s = .ok r ↔ s = r.display := by
  unfold VersionRequirement.parse
  split
  next version hs =>
    have hs : s = ofList ('^' :: version) := by rw [← hs, ofList_toList]
    rw [hs, caret_text]
    split
    next htwice =>
      -- a second caret is no digit, so it belongs to no printed version
      refine ⟨fun h => (nomatch h), ?_⟩
      rintro ⟨v, -, h⟩
      refine absurd ?_ v.head_display_ne_caret
      rw [← h, toList_ofList, htwice]
    next honce =>
      simp only [← ReleaseVersion.parse_eq_ok_iff]
      cases hparse : ReleaseVersion.parse (ofList version) <;> simp [eq_comm]
  next hplain =>
    rw [plain_text hplain]
    simp only [← ReleaseVersion.parse_eq_ok_iff]
    cases hparse : ReleaseVersion.parse s <;> simp [eq_comm]

/-! ### The order -/

/-- What `matches` asks for beside the lower bound. -/
def VersionRequirement.inWindow : VersionRequirement → ReleaseVersion → Prop
  | .exact version, candidate => candidate = version
  | .caret version, candidate =>
    candidate.major = version.major ∧
      (version.major = 0 → candidate.minor = version.minor ∧
        (version.minor = 0 → candidate.patch = version.patch))

theorem VersionRequirement.matches_iff {candidate : ReleaseVersion} :
    r.matches' candidate = true ↔ r.minimum ≤ candidate ∧ r.inWindow candidate := by
  rw [le_iff_not_lt]
  by_cases hlow : candidate < r.minimum
  · simp [matches', hlow]
  simp only [matches', hlow, not_false_eq_true]
  cases r with
  | exact version => simp [inWindow]
  | caret version =>
    have hpos : ∀ x : UInt64, 0 < x ↔ x ≠ 0 := fun x => UInt64.pos_iff_ne_zero
    simp only [inWindow]
    by_cases hmajor : version.major = 0
    · by_cases hminor : version.minor = 0
      · simp [hmajor, hminor, and_assoc]
      · simp [hmajor, hminor]
    · simp [hmajor]

theorem VersionRequirement.inWindow_minimum (r : VersionRequirement) : r.inWindow r.minimum := by
  cases r with
  | exact version => rfl
  | caret version => exact ⟨rfl, fun _ => ⟨rfl, fun _ => rfl⟩⟩

/-- Two versions that agree on the leading components enclose only versions that do. -/
theorem ReleaseVersion.between_components (hlow : low ≤ v) (hhigh : v ≤ high) :
    (low.major = high.major → v.major = high.major) ∧
      (low.major = high.major → low.minor = high.minor → v.minor = high.minor) ∧
      (low.major = high.major → low.minor = high.minor → low.patch = high.patch →
        v.patch = high.patch) := by
  rw [le_iff_not_lt, lt_iff_components] at hlow hhigh
  simp only [UInt64.lt_iff_toNat_lt, ← UInt64.toNat_inj] at hlow hhigh ⊢
  omega

theorem VersionRequirement.inWindow_of_between (hlow : low ≤ v) (hhigh : v ≤ high)
    (hin : r.inWindow low) (hin' : r.inWindow high) : r.inWindow v := by
  obtain ⟨hmajor, hminor, hpatch⟩ := between_components hlow hhigh
  cases r with
  | exact version =>
    have hlow : low = version := hin
    have hhigh : high = version := hin'
    subst hlow hhigh
    show v = high
    cases v
    simp_all
  | caret version =>
    have hsame : low.major = high.major := hin.1.trans hin'.1.symm
    refine ⟨(hmajor hsame).trans hin'.1, fun hzero => ?_⟩
    have hsame' : low.minor = high.minor := (hin.2 hzero).1.trans (hin'.2 hzero).1.symm
    refine ⟨(hminor hsame hsame').trans (hin'.2 hzero).1, fun hzero' => ?_⟩
    have hsame'' : low.patch = high.patch :=
      ((hin.2 hzero).2 hzero').trans ((hin'.2 hzero).2 hzero').symm
    exact (hpatch hsame hsame' hsame'').trans ((hin'.2 hzero).2 hzero')

/-- The versions a requirement matches. -/
def VersionRequirement.selected (r : VersionRequirement) : Set ReleaseVersion :=
  {v | r.matches' v = true}

theorem VersionRequirement.minimum_isLeast (r : VersionRequirement) : IsLeast r.selected r.minimum := by
  constructor
  · apply matches_iff.2
    refine ⟨le_iff_not_lt.2 ?_, r.inWindow_minimum⟩
    simp [lt_iff_components]
  · intro v hv
    exact (matches_iff.1 hv).1

theorem VersionRequirement.selected_of_between (hlow : low ≤ v) (hhigh : v ≤ high)
    (hin : low ∈ r.selected) (hin' : high ∈ r.selected) : v ∈ r.selected := by
  obtain ⟨hleast, hwindow⟩ := matches_iff.1 hin
  refine matches_iff.2 ⟨?_, inWindow_of_between hlow hhigh hwindow (matches_iff.1 hin').2⟩
  exact Std.TransCmp.isLE_trans hleast hlow

/-- **Version text is canonical.**  A version and a requirement are accepted in their printed form
and in no other, and a requirement selects an interval of the version order whose least element is
its `minimum`. -/
theorem version_text_canonical : (∀ s v, parse s = .ok v ↔ s = v.display) ∧
      (∀ s r, VersionRequirement.parse s = .ok r ↔ s = r.display) ∧
      ∀ r : VersionRequirement, IsLeast r.selected r.minimum ∧
        ∀ low v high, low ∈ r.selected → high ∈ r.selected → low ≤ v → v ≤ high → v ∈ r.selected := by
  refine ⟨fun s v => parse_eq_ok_iff,
    fun s r => VersionRequirement.parse_eq_ok_iff, fun r => ⟨r.minimum_isLeast, ?_⟩⟩
  intro low v high hin hin' hlow hhigh
  exact VersionRequirement.selected_of_between hlow hhigh hin hin'

end Axiomc.Package
