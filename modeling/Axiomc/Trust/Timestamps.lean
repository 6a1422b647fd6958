import Axiomc.Trust.Keys
import Mathlib.Algebra.Order.BigOperators.Group.Finset

/-!
# Timestamps

`timestamp` of `package_trust.rs` against the texts of valid dates and times.  `parse::<u16>` reads a
plus sign before digits, so the code also accepts one for the leading zero of a field
(`timestamp_eq_some_iff`).  Where there is none, it accepts exactly the written dates, and its order is
that of the elapsed seconds and that of the bytes.
-/

namespace Axiomc.Trust

open Foundation Std List Nat

/-! ### Written dates -/

/-- The last `w` decimal digits of `n`. -/
def padded : Nat → Nat → Text
  | 0, _ => []
  | w + 1, n => padded w (n / 10) ++ [digitChar (n % 10)]

/-- `YYYY-MM-DDTHH:MM:SSZ`. -/
def Timestamp.display (t : Timestamp) : Text :=
  padded 4 t.year ++ '-' :: (padded 2 t.month ++ '-' :: (padded 2 t.day ++ 'T' :: (padded 2 t.hour ++
    ':' :: (padded 2 t.minute ++ ':' :: (padded 2 t.second ++ ['Z'])))))

/-- The length of a month of the Gregorian calendar. -/
def monthDays (year month : Nat) : Nat :=
  if month = 2 then if year % 4 = 0 ∧ (year % 100 ≠ 0 ∨ year % 400 = 0) then 29 else 28
  else if month ∈ [4, 6, 9, 11] then 30 else 31

/-- A date of the calendar and a time of day, in a year of four digits. -/
def Timestamp.Valid (t : Timestamp) : Prop :=
  t.year < 10000 ∧ (1 ≤ t.month ∧ t.month ≤ 12) ∧ t.day ≠ 0 ∧ t.day ≤ monthDays t.year t.month ∧
    t.hour ≤ 23 ∧ t.minute ≤ 59 ∧ t.second ≤ 59

def WellFormed (s : Text) : Prop := ∃ t : Timestamp, t.Valid ∧ s = t.display

/-- The days of the first `months` months of a year. -/
def daysBefore (year months : Nat) : Nat := ∑ m ∈ Finset.range months, monthDays year (m + 1)

/-- The seconds since the beginning of the year 0. -/
def Timestamp.elapsed (t : Timestamp) : Nat :=
  (((∑ y ∈ Finset.range t.year, daysBefore y 12 + daysBefore t.year (t.month - 1) + (t.day - 1)) * 24 +
    t.hour) * 60 + t.minute) * 60 + t.second

/-! ### Acceptance -/

theorem padded_ofDigitChars {part : Text} (h : part.all Char.isDigit = true) :
    ofDigitChars 10 part 0 < 10 ^ part.length ∧ part = padded part.length (ofDigitChars 10 part 0) := by
  induction part using reverseRecOn with
  | nil => exact ⟨by decide, rfl⟩
  | append_singleton part c ih =>
    simp only [all_append, all_cons, all_nil, Bool.and_true, Bool.and_eq_true] at h
    obtain ⟨hlt, hchar⟩ := digitChar_ofDigit h.2
    obtain ⟨hbound, hpart⟩ := ih h.1
    rw [ofDigitChars_append, ofDigitChars_cons, ofDigitChars_nil, length_append, length_singleton, padded]
    generalize c.toNat - '0'.toNat = d at hlt hchar
    rw [show (10 * ofDigitChars 10 part 0 + d) / 10 = ofDigitChars 10 part 0 by omega,
      show (10 * ofDigitChars 10 part 0 + d) % 10 = d by omega, ← hpart, hchar]
    exact ⟨by omega, rfl⟩

theorem ofDigitChars_padded {w n : Nat} (h : n < 10 ^ w) :
    (padded w n).all Char.isDigit = true ∧ ofDigitChars 10 (padded w n) 0 = n := by
  induction w generalizing n with
  | zero => simp_all [padded]
  | succ w ih =>
    have hd : ∀ d < 10, (digitChar d).isDigit = true ∧ (digitChar d).toNat - '0'.toNat = d := by decide
    obtain ⟨hdigit, hvalue⟩ := hd (n % 10) (by omega)
    obtain ⟨hall, hnum⟩ := ih (n := n / 10) (by omega)
    simp only [padded, all_append, hall, ofDigitChars_append, hnum, ofDigitChars_cons, hvalue]
    simp [hdigit]
    omega

def zeroed (c : Char) : Char := if c = '+' then '0' else c

/-- What the code reads in a field. -/
def readField (part : Text) : Option Nat := timestampPart part 0 part.length

theorem timestampPart_eq (s : Text) (start stop : Nat) :
    timestampPart s start stop = readField ((s.take stop).drop start) := by
  simp only [readField, timestampPart, take_length, drop_zero]

/-- A field of at least two characters reads as its digits, a leading plus sign as a zero. -/
theorem readField_eq_some {c : Char} {part : Text} {n : Nat} (hne : part ≠ []) :
    readField (c :: part) = some n ↔
      n < 10 ^ (part.length + 1) ∧ zeroed c :: part = padded (part.length + 1) n := by
  have hread : readField (c :: part) = if !(zeroed c :: part).all Char.isDigit then none
      else some (ofDigitChars 10 (zeroed c :: part) 0) := by
    by_cases hc : c = '+'
    · simp [readField, timestampPart, stripStart, zeroed, hc, hne, ofDigitChars_cons]
    · simp [readField, timestampPart, stripStart, zeroed, hc, Ne.symm hc]
  rw [hread, Option.ite_none_left_eq_some, Option.some_inj]
  constructor
  · rintro ⟨hdigits, rfl⟩
    exact padded_ofDigitChars (by simpa using hdigits)
  · rintro ⟨hbound, hpart⟩
    rw [hpart]
    simpa using ofDigitChars_padded hbound

theorem daysInMonth_eq_some {year month days : Nat} : daysInMonth year month = some days ↔
    (1 ≤ month ∧ month ≤ 12) ∧ days = monthDays year month := by
  simp only [daysInMonth, monthDays, mem_cons, not_mem_nil, or_false]
  split_ifs <;> simp <;> omega

theorem monthDays_le (year month : Nat) : monthDays year month ≤ 31 := by
  simp only [monthDays]
  split_ifs <;> omega

/-- The text with a zero for each plus sign that leads a field. -/
def unsigned (s : Text) : Text :=
  s.mapIdx fun i c => if i ∈ [0, 5, 8, 11, 14, 17] then zeroed c else c

theorem timestamp_eq_some_iff {s : Text} {t : Timestamp} :
    timestamp (.string s) = some t ↔ t.Valid ∧ unsigned s = t.display := by
  obtain ⟨Y, M, D, H, I, S⟩ := t
  by_cases hlen : s.length = 20
  · match s, hlen with
    | [a, b, c, d, e, f, g, h, i, j, k, l, m, n, o, p, q, r, u, v], _ =>
    -- A valid field has two digits, so that the bound of the reader is no further condition.
    have hbounds : (1 ≤ M ∧ M ≤ 12) ∧ ¬D = 0 ∧ D ≤ monthDays Y M ∧ H ≤ 23 ∧ I ≤ 59 ∧ S ≤ 59 →
        M < 100 ∧ D < 100 ∧ H < 100 ∧ I < 100 ∧ S < 100 := by
      have := monthDays_le Y M
      omega
    simp [timestamp, text, timestampSeparators, Option.bind_eq_some_iff, daysInMonth_eq_some,
      timestampPart_eq, readField_eq_some, unsigned, Timestamp.display, padded, Timestamp.Valid]
    grind
  · have hlen' : ∀ w n, (padded w n).length = w := by
      intro w
      induction w with
      | zero => exact fun _ => rfl
      | succ w ih => simp [padded, ih]
    refine ⟨by simp [timestamp, text, hlen], fun h => absurd (congrArg length h.2) ?_⟩
    simpa [unsigned, Timestamp.display, hlen'] using hlen

theorem unsigned_display (t : Timestamp) : unsigned t.display = t.display := by
  have hdigit : ∀ d < 10, zeroed (digitChar d) = digitChar d := by decide
  simp [unsigned, Timestamp.display, padded, hdigit, Nat.mod_lt]

/-! ### Order -/

theorem sum_range_le (f : Nat → Nat) {a b : Nat} (h : a < b) :
    ∑ i ∈ Finset.range a, f i + f a ≤ ∑ i ∈ Finset.range b, f i := by
  rw [← Finset.sum_range_succ]
  exact Finset.sum_le_sum_of_subset (Finset.range_mono h)

theorem byteOrder_append_left (a b c : Text) : byteOrder (a ++ b) (a ++ c) = byteOrder b c := by
  simp only [byteOrder, encodeUtf8_append]
  induction encodeUtf8 a with
  | nil => rfl
  | cons x a ih => simpa [List.compare_cons_cons] using ih

/-- Digits of equal number compare as their value does; what follows decides between equals. -/
theorem byteOrder_padded {w n m : Nat} {b c : Text} (hm : m < 10 ^ w)
    (h : n < m ∨ n = m ∧ byteOrder b c = .lt) : byteOrder (padded w n ++ b) (padded w m ++ c) = .lt := by
  induction w generalizing n m b c with
  | zero =>
    obtain ⟨-, h⟩ := h.resolve_left (by omega)
    exact h
  | succ w ih =>
    simp only [padded, append_assoc]
    refine ih (by omega) ?_
    by_cases hlt : n / 10 < m / 10
    · exact .inl hlt
    · refine .inr ⟨by omega, ?_⟩
      rcases h with h | ⟨rfl, h⟩
      · have hbyte : ∀ d < 10, String.utf8EncodeChar (digitChar d) = [48 + UInt8.ofNat d] := by decide
        have hless : ∀ d < 10, ∀ e < d, compare (48 + UInt8.ofNat e) (48 + UInt8.ofNat d) = .lt := by
          decide
        simp [byteOrder, encodeUtf8, hbyte, Nat.mod_lt, List.compare_cons_cons,
          hless (m % 10) (by omega) (n % 10) (by omega)]
      · exact (byteOrder_append_left _ b c).trans h

section

variable {a b : Timestamp}

theorem fields_of_lt (ha : a.Valid) (hb : b.Valid) (h : a < b) :
    a.year < b.year ∨ a.year = b.year ∧ (a.month < b.month ∨ a.month = b.month ∧
      (a.day < b.day ∨ a.day = b.day ∧ (a.hour < b.hour ∨ a.hour = b.hour ∧
        (a.minute < b.minute ∨ a.minute = b.minute ∧ a.second < b.second)))) := by
  have h : a.rank < b.rank := h
  have := monthDays_le a.year a.month
  have := monthDays_le b.year b.month
  simp only [Timestamp.rank, Timestamp.Valid] at h ha hb
  omega

theorem elapsed_lt (ha : a.Valid) (hb : b.Valid) (h : a < b) : a.elapsed < b.elapsed := by
  have hfields := fields_of_lt ha hb h
  obtain ⟨-, hm, hd, hd', htime⟩ := ha
  obtain ⟨-, hm', hd'', -, htime'⟩ := hb
  have hyear := @sum_range_le (fun y => daysBefore y 12) a.year b.year
  have hend : daysBefore a.year (a.month - 1) + _ ≤ daysBefore a.year 12 :=
    sum_range_le (fun m => monthDays a.year (m + 1)) (by omega)
  have hmonth : _ → daysBefore a.year (a.month - 1) + _ ≤ daysBefore a.year (b.month - 1) :=
    @sum_range_le (fun m => monthDays a.year (m + 1)) (a.month - 1) (b.month - 1)
  simp only [Nat.sub_add_cancel hm.1] at hend hmonth
  -- The first of year and month that differs decides: what follows fits in the days that it adds.
  unfold Timestamp.elapsed
  by_cases hy : a.year < b.year
  · have := hyear hy
    omega
  · rw [show b.year = a.year by omega]
    by_cases hlt : a.month < b.month
    · have := hmonth (by omega)
      omega
    · rw [show b.month = a.month by omega]
      omega

theorem display_lt (ha : a.Valid) (hb : b.Valid) (h : a < b) :
    byteOrder a.display b.display = .lt := by
  have hfields := fields_of_lt ha hb h
  have := monthDays_le b.year b.month
  obtain ⟨hy, hm, -, hd, htime⟩ := hb
  -- The separators are the same, so each field hands over to the next one.
  have hnext : ∀ (c : Char) {n m : Nat} {s t : Text}, m < 10 ^ 2 → (n < m ∨ n = m ∧ byteOrder s t = .lt) →
      byteOrder (c :: (padded 2 n ++ s)) (c :: (padded 2 m ++ t)) = .lt := by
    intro c n m s t hm h
    rw [← byteOrder_padded hm h]
    exact byteOrder_append_left [c] _ _
  refine byteOrder_padded hy (hfields.imp_right <| .imp_right fun h =>
    hnext _ (by omega) <| h.imp_right <| .imp_right fun h =>
    hnext _ (by omega) <| h.imp_right <| .imp_right fun h =>
    hnext _ (by omega) <| h.imp_right <| .imp_right fun h =>
    hnext _ (by omega) <| h.imp_right <| .imp_right fun h => hnext _ (by omega) (.inl h))

theorem lt_iff (ha : a.Valid) (hb : b.Valid) :
    (a < b ↔ a.elapsed < b.elapsed) ∧ (a < b ↔ byteOrder a.display b.display = .lt) := by
  have hasymm : ∀ {a b : Timestamp}, a < b → ¬b < a := fun h => Nat.lt_asymm h
  have htotal : a < b ∨ a = b ∨ b < a := by
    refine (Nat.lt_trichotomy a.rank b.rank).imp_right (.imp_left fun h => ?_)
    have := monthDays_le a.year a.month
    have := monthDays_le b.year b.month
    cases a
    cases b
    simp only [Timestamp.rank, Timestamp.Valid, Timestamp.mk.injEq] at *
    omega
  rcases htotal with h | rfl | h
  · simp [h, elapsed_lt ha hb h, display_lt ha hb h]
  · have hrefl : byteOrder a.display a.display = .eq := ReflCmp.compare_self
    have hirrefl : ¬a < a := fun h => hasymm h h
    simp [hrefl, hirrefl]
  · have hgt : byteOrder a.display b.display = .gt := OrientedCmp.gt_of_lt (display_lt hb ha h)
    simp [hasymm h, hgt, Nat.le_of_lt (elapsed_lt hb ha h)]

end

/-! ### The reader -/

theorem timestamp_reads_iff (s t : Text) :
    (((timestamp (.string s)).isSome ↔ WellFormed s) ∧ ((timestamp (.string t)).isSome ↔ WellFormed t) ∧
      ∀ a b, timestamp (.string s) = some a → timestamp (.string t) = some b →
        (a < b ↔ a.elapsed < b.elapsed) ∧ (a < b ↔ byteOrder s t = .lt)) ↔
      (WellFormed (unsigned s) → unsigned s = s) ∧ (WellFormed (unsigned t) → unsigned t = t) := by
  have hself : ∀ {s}, WellFormed s → unsigned s = s := by
    rintro _ ⟨t, -, rfl⟩
    exact unsigned_display t
  have hiff : ∀ s, ((timestamp (.string s)).isSome ↔ WellFormed s) ↔
      (WellFormed (unsigned s) → unsigned s = s) := by
    intro s
    have hsome : (timestamp (.string s)).isSome ↔ WellFormed (unsigned s) := by
      simp [Option.isSome_iff_exists, timestamp_eq_some_iff, WellFormed]
    rw [hsome]
    exact ⟨fun h hu => hself (h.1 hu), fun h => ⟨fun hu => h hu ▸ hu, fun hs => (hself hs).symm ▸ hs⟩⟩
  rw [hiff, hiff]
  refine ⟨fun h => ⟨h.1, h.2.1⟩, fun ⟨hs, ht⟩ => ⟨hs, ht, fun a b ha hb => ?_⟩⟩
  obtain ⟨hvalid, hdisplay⟩ := timestamp_eq_some_iff.1 ha
  obtain ⟨hvalid', hdisplay'⟩ := timestamp_eq_some_iff.1 hb
  rw [← hs ⟨a, hvalid, hdisplay⟩, ← ht ⟨b, hvalid', hdisplay'⟩, hdisplay, hdisplay']
  exact lt_iff hvalid hvalid'

theorem timestamp_plus_year : (timestamp (.string "+123-01-01T00:00:00Z".toList)).isSome = true ∧
    ¬WellFormed "+123-01-01T00:00:00Z".toList := by
  refine ⟨by decide, fun ⟨t, _, h⟩ => ?_⟩
  exact absurd (h ▸ unsigned_display t) (by decide)

end Axiomc.Trust
