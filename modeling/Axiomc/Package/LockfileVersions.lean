import Axiomc.Package.Lockfile

/-!
# Versions in a lockfile and in the resolver

A lockfile has its own version grammar and its own matching.  This file compares them with
`ReleaseVersion::parse` and `VersionRequirement::matches`.

The grammars differ in one point: a component of a lockfile version may have any size, and the
resolver's must be below `2 ^ 64` (`Fits`).  `selects_iff_fits`: for a constraint and a version that
the lockfile accepts together, the resolver accepts the version and the constraint selects it exactly
when the version fits.
-/

namespace Axiomc.Package.Lockfile

open Foundation VersionRequirement String UInt64 Option

/-- The value of a run of digits. -/
abbrev decimal (part : Text) : Nat := Nat.ofDigitChars 10 part 0

/-- Every component is a 64-bit number. -/
def Fits (version : Text) : Prop := ∀ part ∈ version.splitOn '.', decimal part < 2 ^ 64

instance (version : Text) : Decidable (Fits version) :=
  inferInstanceAs (Decidable (∀ part ∈ version.splitOn '.', decimal part < 2 ^ 64))

/-- `requested` selects `version` in the sense of the resolver; `*` selects everything. -/
def Selects (requested : Text) (version : ReleaseVersion) : Prop :=
  requested = lit "*" ∨
    ∃ r, parse (ofList requested) = .ok r ∧ r.matches' version = true

/-- The text is a release version of the resolver that `requested` selects. -/
def SelectsText (requested version : Text) : Prop :=
  ∃ v, ReleaseVersion.parse (ofList version) = .ok v ∧ Selects requested v

/-- What `validateConstraint` accepts when the wildcard is allowed. -/
def IsConstraint (requested : Text) : Prop :=
  requested = lit "*" ∨ isExactVersion ((stripStart ['^'] requested).getD requested) = true

/-! ### Components -/

variable {part : Text}

section

variable (h : isExactComponent part = true)
include h

theorem isExactComponent_digits :
    part ≠ [] ∧ part.all Char.isDigit = true ∧ ¬(part.length > 1 ∧ part.head? = some '0') := by
  simp only [isExactComponent, Bool.and_eq_true, Bool.or_eq_true, Bool.not_eq_true',
    List.isEmpty_eq_false_iff, beq_iff_eq, bne_iff_ne] at h
  obtain ⟨⟨hne, hdigits⟩, hlead⟩ := h
  refine ⟨hne, hdigits, ?_⟩
  intro hlong
  rcases hlead with rfl | hlead
  · simp at hlong
  · exact hlead hlong.2

theorem parseComponent_exact {original : String} : parseComponent (some part) original =
      if decimal part < 2 ^ 64 then .ok (ofNat (decimal part))
      else .error (.componentOverflow original) := by
  obtain ⟨hne, hdigits, hlead⟩ := isExactComponent_digits h
  have hchecks : (part.isEmpty || !part.all Char.isDigit
      || (part.length > 1 && part.head? == some '0')) = false := by
    rw [hdigits]
    simpa [hne] using hlead
  simp [parseComponent, hchecks]

theorem parseU64_exact {n : Nat} :
    parseU64 part = some n ↔ decimal part < 2 ^ 64 ∧ decimal part = n := by
  obtain ⟨hne, hdigits, -⟩ := isExactComponent_digits h
  rw [parseU64_digits hne hdigits, ite_none_right_eq_some, some.injEq]

end

/-! ### Versions -/

/-- The three components of a lockfile version. -/
structure Components (version : Text) where
  major : Text
  minor : Text
  patch : Text
  split : version.splitOn '.' = [major, minor, patch]
  exact_major : isExactComponent major = true
  exact_minor : isExactComponent minor = true
  exact_patch : isExactComponent patch = true

variable {version : Text}

theorem isExactVersion_components (h : isExactVersion version = true) :
    Nonempty (Components version) := by
  simp only [isExactVersion, Bool.and_eq_true, beq_iff_eq] at h
  obtain ⟨hlen, hall⟩ := h
  obtain ⟨major, minor, patch, hsplit⟩ := List.length_eq_three.1 hlen
  rw [hsplit] at hall
  simp only [List.all_cons, List.all_nil, Bool.and_true, Bool.and_eq_true] at hall
  exact ⟨⟨major, minor, patch, hsplit, hall.1, hall.2.1, hall.2.2⟩⟩

namespace Components

variable {version : Text} (c : Components version)

/-- The version the components stand for. -/
def release : ReleaseVersion :=
  ⟨ofNat (decimal c.major), ofNat (decimal c.minor), ofNat (decimal c.patch)⟩

theorem fits_iff : Fits version ↔
    decimal c.major < 2 ^ 64 ∧ decimal c.minor < 2 ^ 64 ∧ decimal c.patch < 2 ^ 64 := by
  simp [Fits, c.split]

include c in
/-- The text consists of digits and points. -/
theorem digits_or_point : ∀ ch ∈ version, ch.isDigit = true ∨ ch = '.' := by
  intro ch hch
  by_cases hpoint : ch = '.'
  · exact .inr hpoint
  · left
    obtain ⟨part, hpart, hmem⟩ := mem_part_of_mem hch hpoint
    have hdigits : part.all Char.isDigit = true := by
      rw [c.split] at hpart
      simp only [List.mem_cons, List.not_mem_nil, or_false] at hpart
      rcases hpart with rfl | rfl | rfl
      · exact (isExactComponent_digits c.exact_major).2.1
      · exact (isExactComponent_digits c.exact_minor).2.1
      · exact (isExactComponent_digits c.exact_patch).2.1
    exact List.all_eq_true.1 hdigits ch hmem

include c in
theorem ne_nil : version ≠ [] := by
  rintro rfl
  have hsplit := c.split
  simp at hsplit

include c in
theorem ascii : version.all (fun ch => ch.toNat < 128) = true := by
  rw [List.all_eq_true]
  intro ch hch
  rcases c.digits_or_point ch hch with hdigit | rfl
  · simp only [Char.isDigit, Bool.and_eq_true, decide_eq_true_eq] at hdigit
    have hle : ch.toNat ≤ 57 := hdigit.2
    exact decide_eq_true (by omega)
  · rfl

/-- On a lockfile version the resolver's parser only has its components left to read. -/
theorem parse_eq_components : ReleaseVersion.parse (ofList version) = (do
      let major ← parseComponent (some c.major) (ofList version)
      let minor ← parseComponent (some c.minor) (ofList version)
      let patch ← parseComponent (some c.patch) (ofList version)
      return ⟨major, minor, patch⟩) := by
  have hempty : (ofList version).isEmpty = false := by
    rw [isEmpty_eq_false_iff]
    intro hnil
    apply c.ne_nil
    rw [← toList_ofList (l := version), hnil]
    rfl
  simp only [ReleaseVersion.parse, toList_ofList, hempty, c.ascii, c.split]
  rfl

theorem parse_eq_ok {v : ReleaseVersion} :
    ReleaseVersion.parse (ofList version) = .ok v ↔ Fits version ∧ c.release = v := by
  have hcomponent : ∀ {part : Text} {n : UInt64}, isExactComponent part = true →
      (parseComponent (some part) (ofList version) = .ok n ↔
        decimal part < 2 ^ 64 ∧ ofNat (decimal part) = n) := by
    intro part n h
    rw [parseComponent_exact h]
    by_cases hfits : decimal part < 2 ^ 64
    · rw [if_pos hfits, Except.ok.injEq, and_iff_right hfits]
    · rw [if_neg hfits]
      exact ⟨fun h => (by cases h), fun h => absurd h.1 hfits⟩
  rw [c.parse_eq_components, c.fits_iff]
  simp only [bind_eq_ok, pure_eq_ok, hcomponent c.exact_major, hcomponent c.exact_minor,
    hcomponent c.exact_patch]
  simp only [and_assoc, exists_and_left, exists_eq_left', release]

theorem parseVersionTriplet_eq_some {triplet : Nat × Nat × Nat} :
    parseVersionTriplet version = some triplet ↔
      Fits version ∧ triplet = (decimal c.major, decimal c.minor, decimal c.patch) := by
  rw [c.fits_iff]
  simp only [parseVersionTriplet, c.split, List.getElem?_cons_zero, List.getElem?_cons_succ,
    List.getElem?_nil, bind_some, bind, bind_eq_some_iff, parseU64_exact c.exact_major,
    parseU64_exact c.exact_minor, parseU64_exact c.exact_patch, isSome_none,
    Bool.false_eq_true, if_false, some.injEq]
  simp only [and_assoc, exists_and_left, exists_eq_left', @eq_comm _ triplet]

include c in
theorem head_ne_caret : version.head? ≠ some '^' := by
  intro hhead
  obtain ⟨rest, hrest⟩ := List.head?_eq_some_iff.1 hhead
  have hcaret := c.digits_or_point '^' (by simp [hrest])
  revert hcaret
  decide

theorem parse_exact (hfits : Fits version) : parse (ofList version) = .ok (.exact c.release) := by
  have hparse := c.parse_eq_ok.2 ⟨hfits, rfl⟩
  have hhead := c.head_ne_caret
  unfold parse
  rw [toList_ofList]
  split
  · exact absurd rfl hhead
  · rw [hparse]

theorem parse_caret (hfits : Fits version) :
    parse (ofList ('^' :: version)) = .ok (.caret c.release) := by
  have hparse := c.parse_eq_ok.2 ⟨hfits, rfl⟩
  simp [parse, c.head_ne_caret, hparse]

/-- The triplet of the lockfile's own parser is the resolver's version. -/
theorem triplet_release (hfits : Fits version) : (decimal c.major, decimal c.minor, decimal c.patch) =
      (c.release.major.toNat, c.release.minor.toNat, c.release.patch.toNat) := by
  obtain ⟨hmajor, hminor, hpatch⟩ := c.fits_iff.1 hfits
  simp only [release, toNat_ofNat', Nat.mod_eq_of_lt hmajor, Nat.mod_eq_of_lt hminor,
    Nat.mod_eq_of_lt hpatch]

end Components

/-! ### Matching -/

/-- Inside the lockfile's caret window a version is inside the resolver's. -/
theorem caret_matches {base selected : ReleaseVersion}
    (h : caretSelects (base.major.toNat, base.minor.toNat, base.patch.toNat)
      (selected.major.toNat, selected.minor.toNat, selected.patch.toNat) = true) :
    (caret base).matches' selected = true := by
  have hbeq : ∀ x y : UInt64, (x == y) = (x.toNat == y.toNat) := by
    intro x y
    rw [Bool.eq_iff_iff, beq_iff_eq, beq_iff_eq, UInt64.toNat_inj]
  simp only [caretSelects, tripletGe] at h
  simp only [matches', minimum, ReleaseVersion.lt_iff_components, UInt64.lt_iff_toNat_lt, hbeq]
  grind

theorem exact_matches (v : ReleaseVersion) : (exact v).matches' v = true := by
  simp [matches', minimum, ReleaseVersion.lt_iff_components]

variable {requested : Text}

/-- What is left of a match that is neither the wildcard nor the same text. -/
theorem lockedVersionMatches_caret (hstar : requested ≠ lit "*")
    (hsame : requested ≠ version) (h : lockedVersionMatches requested version = true) :
    ∃ base, (∃ text, requested = '^' :: text ∧ parseVersionTriplet text = some base) ∧
      ∃ selected, parseVersionTriplet version = some selected ∧ caretSelects base selected = true := by
  have hfirst : (requested == lit "*" || requested == version) = false := by
    rw [Bool.or_eq_false_iff, beq_eq_false_iff_ne, beq_eq_false_iff_ne]
    exact ⟨hstar, hsame⟩
  simp only [lockedVersionMatches, hfirst, Bool.false_eq_true] at h
  cases hbase : (stripStart ['^'] requested).bind parseVersionTriplet with
  | none => simp [hbase] at h
  | some base =>
    cases hselected : parseVersionTriplet version with
    | none => simp [hbase, hselected] at h
    | some selected =>
      simp only [hbase, hselected] at h
      obtain ⟨text, hstrip, hparsed⟩ := bind_eq_some_iff.1 hbase
      exact ⟨base, ⟨text, stripStart_eq_some_iff.1 hstrip, hparsed⟩, selected, rfl, h⟩

/-- A constraint and a version that the lockfile accepts together: the resolver reads the version and
selects it exactly when its components are 64-bit numbers. -/
theorem selects_iff_fits (hversion : isExactVersion version = true)
    (hrequested : IsConstraint requested) (hmatches : lockedVersionMatches requested version = true) :
    SelectsText requested version ↔ Fits version := by
  obtain ⟨c⟩ := isExactVersion_components hversion
  constructor
  · rintro ⟨v, hv, -⟩
    exact (c.parse_eq_ok.1 hv).1
  · intro hfits
    refine ⟨c.release, c.parse_eq_ok.2 ⟨hfits, rfl⟩, ?_⟩
    by_cases hstar : requested = lit "*"
    · exact .inl hstar
    right
    have hexact := hrequested.resolve_left hstar
    by_cases hsame : requested = version
    · -- the same text: an exact requirement for this very version
      subst hsame
      exact ⟨.exact c.release, c.parse_exact hfits, exact_matches _⟩
    · -- otherwise a caret constraint, whose base the lockfile has parsed as three 64-bit numbers
      obtain ⟨base, hbase, hwindow⟩ := lockedVersionMatches_caret hstar hsame hmatches
      obtain ⟨text, rfl, htriplet⟩ := hbase
      have hbaseExact : isExactVersion text = true := by
        have hstrip : stripStart ['^'] ('^' :: text) = some text := by
          rfl
        simpa [hstrip] using hexact
      obtain ⟨b⟩ := isExactVersion_components hbaseExact
      obtain ⟨hbaseFits, rfl⟩ := b.parseVersionTriplet_eq_some.1 htriplet
      obtain ⟨selected, hselected, hinside⟩ := hwindow
      obtain ⟨-, rfl⟩ := c.parseVersionTriplet_eq_some.1 hselected
      rw [b.triplet_release hbaseFits, c.triplet_release hfits] at hinside
      exact ⟨.caret b.release, b.parse_caret hbaseFits, caret_matches hinside⟩

end Axiomc.Package.Lockfile
