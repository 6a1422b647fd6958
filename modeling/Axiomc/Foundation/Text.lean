import Mathlib.Algebra.Group.Nat.Defs
import Mathlib.Data.List.Induction
import Mathlib.Data.List.TakeWhile

/-!
# Text, its bytes, and canonical decimals

A `str` is the list of its Unicode scalar values; on disk and on the wire it is the UTF-8 encoding
of that list.  The facts here are what a reader of a line-oriented byte format relies on.

* `decodeUtf8_eq_some_iff`: decoding succeeds exactly on encodings, so a text and its bytes
  determine each other;
* `newline_notMem_encodeUtf8`: a line feed byte occurs in an encoding only where the text has a
  line feed, so splitting bytes at line feeds splits texts at line feeds;
* `byteOrder`: the order of strings, byte by byte; a text comes before all its proper extensions;
* `rsplitOnce_eq_some_iff`: splitting at the last occurrence of a separator;
* `CanonicalDecimal`: the decimal texts without superfluous zeros are exactly the texts that
  printing a number gives.
-/

namespace Axiomc.Foundation

open Std List Nat Option Char

/-- A byte string. -/
abbrev Bytes := List UInt8

/-- A `str`, as the list of its `char`s. -/
abbrev Text := List Char

instance lawfulBEqBytes : LawfulBEq Bytes := inferInstance

instance lawfulBEqText : LawfulBEq Text := inferInstance

/-! ### UTF-8 -/

/-- `str::as_bytes`. -/
def encodeUtf8 (text : Text) : Bytes := text.flatMap String.utf8EncodeChar

/-- `str::from_utf8`. -/
def decodeUtf8 (bytes : Bytes) : Option Text := bytes.toByteArray.utf8Decode?.map Array.toList

@[simp] theorem encodeUtf8_append (a b : Text) :
    encodeUtf8 (a ++ b) = encodeUtf8 a ++ encodeUtf8 b := by
  simp [encodeUtf8]

variable {text : Text}

theorem decodeUtf8_eq_some_iff {bytes : Bytes} :
    decodeUtf8 bytes = some text ↔ encodeUtf8 text = bytes := by
  have hencode : ∀ t : Text, t.utf8Encode = (encodeUtf8 t).toByteArray := fun _ => rfl
  constructor
  · intro h
    obtain ⟨chars, hchars, htext⟩ := map_eq_some_iff.1 h
    have hsome : bytes.toByteArray.utf8Decode?.isSome = true := by rw [hchars]; rfl
    have hround := ByteArray.utf8Encode_get_utf8Decode? (h := hsome)
    have hget : bytes.toByteArray.utf8Decode?.get hsome = chars := by simp [hchars]
    rw [hget, htext, hencode] at hround
    have := congrArg (fun b : ByteArray => b.data.toList) hround
    simpa using this
  · intro h
    subst h
    show ((encodeUtf8 text).toByteArray.utf8Decode?).map Array.toList = some text
    rw [← hencode, utf8Decode?_utf8Encode]
    rfl

theorem encodeUtf8_injective : Function.Injective encodeUtf8 := by
  intro a b h
  have ha := decodeUtf8_eq_some_iff.2 (rfl : encodeUtf8 a = encodeUtf8 a)
  have hb := decodeUtf8_eq_some_iff.2 h.symm
  rw [ha] at hb
  exact some.inj hb

variable {c : Char} {α : Type} {sep : α} {xs : List α}

/-- Below 128, UTF-8 is ASCII: such a byte of a character's encoding is the character. -/
theorem toNat_eq_of_mem_utf8EncodeChar {b : UInt8}
    (hmem : b ∈ String.utf8EncodeChar c) (hascii : b.toNat < 128) : c.toNat = b.toNat := by
  have hc : c.val.toNat = c.toNat := rfl
  -- One case for each length of an encoding; all bytes of a longer one are at least 128.
  unfold String.utf8EncodeChar at hmem
  simp only at hmem
  split_ifs at hmem
  all_goals
    simp only [mem_cons, not_mem_nil, or_false] at hmem
    rcases hmem with rfl | rfl | rfl | rfl
  all_goals
    simp only [UInt8.toNat_ofNat'] at hascii ⊢
    omega

theorem encodeUtf8_length_le (text : Text) : text.length ≤ (encodeUtf8 text).length := by
  induction text with
  | nil => simp
  | cons c text ih =>
    have hpos : 0 < (String.utf8EncodeChar c).length := by
      rw [String.length_utf8EncodeChar]
      exact c.utf8Size_pos
    simp only [encodeUtf8, flatMap_cons, length_append, length_cons] at ih ⊢
    omega

/-- The encoding of ASCII text. -/
theorem encodeUtf8_ascii (h : ∀ c ∈ text, c.toNat < 128) :
    encodeUtf8 text = text.map fun c => UInt8.ofNat c.toNat := by
  induction text with
  | nil => rfl
  | cons c text ih =>
    have hc : c.val.toNat ≤ 0x7f := le_of_lt_succ (h c mem_cons_self)
    have hhead : String.utf8EncodeChar c = [UInt8.ofNat c.toNat] := by
      unfold String.utf8EncodeChar
      simp only [hc]
      rfl
    have htail := ih fun d hd => h d (mem_cons_of_mem _ hd)
    show String.utf8EncodeChar c ++ encodeUtf8 text = _
    rw [hhead, htail]
    rfl

/-- A byte below 128 occurs in an encoding only as its ASCII character. -/
theorem notMem_encodeUtf8 (hc : c.toNat < 128) (hnot : c ∉ text) :
    UInt8.ofNat c.toNat ∉ encodeUtf8 text := by
  intro hmem
  obtain ⟨d, hd, hbyte⟩ := mem_flatMap.1 hmem
  have hbyteNat : (UInt8.ofNat c.toNat).toNat = c.toNat := by
    rw [UInt8.toNat_ofNat']
    omega
  have hdc : d.toNat = c.toNat := by
    have := toNat_eq_of_mem_utf8EncodeChar hbyte (by omega)
    omega
  have : d = c := toNat_inj.1 hdc
  exact hnot (this ▸ hd)

theorem newline_notMem_encodeUtf8 (h : '\n' ∉ text) : (10 : UInt8) ∉ encodeUtf8 text :=
  notMem_encodeUtf8 (c := '\n') (by decide) h

/-! ### Ends of a text -/

/-- `str::strip_prefix`. -/
def stripStart (start text : Text) : Option Text :=
  if start.isPrefixOf text then some (text.drop start.length) else none

theorem stripStart_eq_some_iff {start rest : Text} :
    stripStart start text = some rest ↔ text = start ++ rest := by
  simp only [stripStart, isPrefixOf_iff_prefix, ite_none_right_eq_some, some.injEq]
  constructor
  · rintro ⟨⟨tail, rfl⟩, rfl⟩
    simp
  · rintro rfl
    simp

/-- `str::parse::<u64>`: digits after an optional plus sign, below `2 ^ 64`. -/
def parseU64 (text : Text) : Option Nat :=
  let digits := (stripStart ['+'] text).getD text
  if digits.isEmpty || !digits.all isDigit then none
  else if ofDigitChars 10 digits 0 < 2 ^ 64 then some (ofDigitChars 10 digits 0)
  else none

/-- `str::split_once`. -/
def splitOnce (sep : Char) (text : Text) : Option (Text × Text) :=
  (text.findIdx? (· == sep)).map fun n => (text.take n, text.drop (n + 1))

/-- `char::is_whitespace`: the Unicode property `White_Space`. -/
def isWhitespace (c : Char) : Bool :=
  let n := c.toNat
  (0x9 ≤ n && n ≤ 0xd) || n == 0x20 || n == 0x85 || n == 0xa0 || n == 0x1680 ||
    (0x2000 ≤ n && n ≤ 0x200a) || n == 0x2028 || n == 0x2029 || n == 0x202f || n == 0x205f ||
    n == 0x3000

/-- `str::trim_start`. -/
def trimStart (text : Text) : Text := text.dropWhile isWhitespace

/-- `str::trim_end`. -/
def trimEnd (text : Text) : Text := (text.reverse.dropWhile isWhitespace).reverse

/-- `str::trim`. -/
def trim (text : Text) : Text := trimEnd (trimStart text)

/-! ### The order of strings -/

/-- The order of `str`: lexicographic in the bytes. -/
def byteOrder (a b : Text) : Ordering := compare (encodeUtf8 a) (encodeUtf8 b)

instance : TransCmp byteOrder :=
  inferInstanceAs (TransCmp fun a b : Text => compareOn encodeUtf8 a b)

instance : LawfulEqCmp byteOrder where
  eq_of_compare h := encodeUtf8_injective (LawfulEqOrd.eq_of_compare h)

variable {b : Text}

theorem ne_of_byteOrder_lt {a : Text} (h : byteOrder a b = .lt) : a ≠ b := by
  intro heq
  have hself : byteOrder b b = .eq := ReflCmp.compare_self
  rw [heq, hself] at h
  cases h

theorem compare_append_of_ne_nil [Ord α] [ReflOrd α] (a : List α) {b : List α}
    (hb : b ≠ []) : compare a (a ++ b) = .lt := by
  show List.compareLex compare a (a ++ b) = .lt
  induction a with
  | nil =>
    obtain ⟨x, b, rfl⟩ := exists_cons_of_ne_nil hb
    rfl
  | cons x a ih =>
    rw [List.cons_append, List.compareLex_cons_cons, ih, ReflOrd.compare_self]
    rfl

/-- A text comes before its proper extensions. -/
theorem byteOrder_append (a : Text) (hb : b ≠ []) : byteOrder a (a ++ b) = .lt := by
  unfold byteOrder
  rw [encodeUtf8_append]
  apply compare_append_of_ne_nil
  intro hnil
  have hlen := encodeUtf8_length_le b
  rw [hnil] at hlen
  exact hb (eq_nil_of_length_eq_zero (by simpa using hlen))

/-! ### Splitting at a separator -/

variable {n : Nat}

/-- The first occurrence of a separator cuts the list in two. -/
theorem findIdx?_eq_some_iff_append [DecidableEq α] : xs.findIdx? (· == sep) = some n ↔
      ∃ before after, xs = before ++ sep :: after ∧ sep ∉ before ∧ before.length = n := by
  have hnone : ∀ {xs : List α}, sep ∉ xs → xs.findIdx? (· == sep) = none := fun hnot =>
    findIdx?_eq_none_iff.2 fun x hx => beq_eq_false_iff_ne.2 (ne_of_mem_of_not_mem hx hnot)
  have hcut : ∀ {before : List α} (after : List α), sep ∉ before →
      (before ++ sep :: after).findIdx? (· == sep) = some before.length := by
    intro before after hnot
    simp [hnone hnot, findIdx?_cons]
  constructor
  · intro h
    by_cases hmem : sep ∈ xs
    · obtain ⟨before, after, rfl, hnot⟩ := eq_append_cons_of_mem hmem
      exact ⟨before, after, rfl, hnot, some.inj ((hcut after hnot).symm.trans h)⟩
    · rw [hnone hmem] at h
      cases h
  · rintro ⟨before, after, rfl, hnot, rfl⟩
    exact hcut after hnot

/-- The parts before and after the first separator are determined. -/
theorem append_separator_inj [DecidableEq α] {as bs ys : List α}
    (ha : sep ∉ as) (hb : sep ∉ bs) (h : as ++ sep :: xs = bs ++ sep :: ys) : as = bs ∧ xs = ys := by
  have hfirst : (as ++ sep :: xs).findIdx? (· == sep) = some as.length :=
    findIdx?_eq_some_iff_append.2 ⟨as, xs, rfl, ha, rfl⟩
  have hsecond : (as ++ sep :: xs).findIdx? (· == sep) = some bs.length :=
    findIdx?_eq_some_iff_append.2 ⟨bs, ys, h, hb, rfl⟩
  rw [hfirst, some.injEq] at hsecond
  obtain ⟨hleft, hright⟩ := append_inj h hsecond
  exact ⟨hleft, (cons.inj hright).2⟩

/-- `str::rsplit_once`. -/
def rsplitOnce {α : Type} [DecidableEq α] (sep : α) : List α → Option (List α × List α)
  | [] => none
  | x :: xs =>
    match rsplitOnce sep xs with
    | some (before, after) => some (x :: before, after)
    | none => if x = sep then some ([], xs) else none

theorem rsplitOnce_eq_some_iff [DecidableEq α] {before after : List α} :
    rsplitOnce sep xs = some (before, after) ↔ xs = before ++ sep :: after ∧ sep ∉ after := by
  have hnone : ∀ {xs : List α}, sep ∉ xs → rsplitOnce sep xs = none := by
    intro xs hnot
    induction xs with
    | nil => rfl
    | cons x xs ih =>
      obtain ⟨hx, hxs⟩ := not_or.1 (mt mem_cons.2 hnot)
      simp [rsplitOnce, ih hxs, Ne.symm hx]
  have hcut : ∀ {after : List α} (before : List α), sep ∉ after →
      rsplitOnce sep (before ++ sep :: after) = some (before, after) := by
    intro after before hnot
    induction before with
    | nil => simp [rsplitOnce, hnone hnot]
    | cons x before ih => simp [rsplitOnce, ih]
  constructor
  · intro h
    by_cases hmem : sep ∈ xs
    · -- the last occurrence is the first one from behind
      obtain ⟨behind, rest, hrev, hnot⟩ := eq_append_cons_of_mem (mem_reverse.2 hmem)
      obtain rfl : xs = rest.reverse ++ sep :: behind.reverse := by simpa using congrArg reverse hrev
      have hnot : sep ∉ behind.reverse := by simpa using hnot
      rw [hcut _ hnot] at h
      cases h
      exact ⟨rfl, hnot⟩
    · rw [hnone hmem] at h
      cases h
  · rintro ⟨rfl, hnot⟩
    exact hcut before hnot

/-! ### Tables -/

/-- The first row of a table answers for its key. -/
theorem lookup_cons_ite {κ β : Type} [BEq κ] [LawfulBEq κ] [DecidableEq κ] (key : κ) (value : β)
    (rest : List (κ × β)) (x : κ) :
    ((key, value) :: rest).lookup x = if x = key then some value else rest.lookup x := by
  rw [lookup_cons]
  by_cases hx : x = key
  · simp [hx]
  · have hbeq : (x == key) = false := by simpa using hx
    rw [hbeq, if_neg hx]

/-! ### Separated parts -/

variable {part : List α}

/-- Induction along the parts of a list. -/
theorem splitOn_induction [DecidableEq α] {motive : List α → List (List α) → Prop}
    (whole : ∀ xs, sep ∉ xs → motive xs [xs])
    (cut : ∀ before after parts, sep ∉ before → motive after parts →
      motive (before ++ sep :: after) (before :: parts)) (xs : List α) : motive xs (xs.splitOn sep) := by
  by_cases hmem : sep ∈ xs
  · obtain ⟨before, after, rfl, hnot⟩ := eq_append_cons_of_mem hmem
    rw [splitOn_append_cons_self_of_not_mem hnot]
    exact cut before after _ hnot (splitOn_induction whole cut after)
  · rw [splitOn_eq_singleton hmem]
    exact whole xs hmem
termination_by xs.length
decreasing_by
  rename_i heq _
  simp only [heq.1, length_append, length_cons]
  omega

theorem notMem_of_mem_splitOn [DecidableEq α] (h : part ∈ xs.splitOn sep) : sep ∉ part := by
  refine splitOn_induction (motive := fun _ parts => part ∈ parts → sep ∉ part)
    (fun xs hnot hpart => mem_singleton.1 hpart ▸ hnot) (fun before _ parts hnot ih hpart => ?_) xs h
  rcases mem_cons.1 hpart with rfl | hpart
  · exact hnot
  · exact ih hpart

variable {a : α}

/-- An element is a separator or lies in a part. -/
theorem mem_part_of_mem [DecidableEq α] (ha : a ∈ xs)
    (hne : a ≠ sep) : ∃ part ∈ xs.splitOn sep, a ∈ part := by
  refine splitOn_induction (motive := fun xs parts => a ∈ xs → ∃ part ∈ parts, a ∈ part)
    (fun xs _ ha => ⟨xs, mem_cons_self, ha⟩) (fun before after parts _ ih ha => ?_) xs ha
  rcases mem_append.1 ha with ha | ha
  · exact ⟨before, mem_cons_self, ha⟩
  · obtain ⟨part, hpart, ha⟩ := ih ((mem_cons.1 ha).resolve_left hne)
    exact ⟨part, mem_cons_of_mem _ hpart, ha⟩

theorem mem_of_mem_part [DecidableEq α] (hpart : part ∈ xs.splitOn sep) (ha : a ∈ part) : a ∈ xs := by
  refine splitOn_induction (motive := fun xs parts => part ∈ parts → a ∈ xs)
    (fun xs _ hpart => mem_singleton.1 hpart ▸ ha) (fun before after parts _ ih hpart => ?_) xs hpart
  rcases mem_cons.1 hpart with rfl | hpart
  · exact mem_append_left _ ha
  · exact mem_append_right _ (mem_cons_of_mem _ (ih hpart))

theorem length_splitOn_le [DecidableEq α] (sep : α) (xs : List α) :
    (xs.splitOn sep).length ≤ xs.length + 1 := by
  refine splitOn_induction (motive := fun xs parts => parts.length ≤ xs.length + 1) (by simp)
    (fun before after parts _ ih => ?_) xs
  simp only [length_append, length_cons]
  omega

/-- Joining two groups of parts, neither of them empty. -/
theorem intercalate_append (sep : List α) {as bs : List (List α)} (ha : as ≠ []) (hb : bs ≠ []) :
    sep.intercalate (as ++ bs) = sep.intercalate as ++ sep ++ sep.intercalate bs := by
  induction as with
  | nil => exact absurd rfl ha
  | cons a as ih =>
    by_cases has : as = []
    · subst has
      rw [singleton_append, intercalate_cons_of_ne_nil hb, intercalate_singleton]
    · rw [cons_append, intercalate_cons_of_ne_nil (by simp [has]),
        intercalate_cons_of_ne_nil has, ih has]
      simp

/-! ### Decimals -/

/-- Decimal digits without a superfluous leading zero. -/
def CanonicalDecimal (text : Text) : Prop :=
  text ≠ [] ∧ ¬(text.length > 1 ∧ text.head? = some '0') ∧ text.all isDigit = true

theorem digitChar_ofDigit (hc : c.isDigit = true) :
    c.toNat - '0'.toNat < 10 ∧ Nat.digitChar (c.toNat - '0'.toNat) = c := by
  have hrange : 48 ≤ c.toNat ∧ c.toNat ≤ 57 := by
    simp only [isDigit, Bool.and_eq_true, decide_eq_true_eq] at hc
    exact ⟨hc.1, hc.2⟩
  have hzero : '0'.toNat = 48 := rfl
  rw [hzero]
  refine ⟨by omega, ?_⟩
  apply toNat_inj.1
  obtain ⟨n, hn⟩ : ∃ n, c.toNat = 48 + n := ⟨c.toNat - 48, by omega⟩
  have hn10 : n < 10 := by omega
  rw [hn, Nat.add_sub_cancel_left]
  have hall : ∀ m < 10, (digitChar m).toNat = 48 + m := by decide
  exact hall n hn10

/-- A canonical decimal is what printing its value gives. -/
theorem CanonicalDecimal.toDigits_ofDigitChars :
    ∀ text : Text, CanonicalDecimal text → toDigits 10 (ofDigitChars 10 text 0) = text := by
  intro text
  induction text using reverseRecOn with
  | nil => exact fun h => absurd rfl h.1
  | append_singleton text c ih =>
    intro h
    obtain ⟨-, hlead, hdigits⟩ := h
    simp only [all_append, all_cons, all_nil, Bool.and_true, Bool.and_eq_true] at hdigits
    obtain ⟨hlt, hchar⟩ := digitChar_ofDigit hdigits.2
    rw [ofDigitChars_append, ofDigitChars_cons, ofDigitChars_nil]
    by_cases hnil : text = []
    · subst hnil
      rw [Nat.ofDigitChars_nil, Nat.zero_add, Nat.toDigits_of_lt_base hlt, hchar]
      rfl
    · have hhead : text.head? ≠ some '0' := by
        intro hzero
        obtain ⟨d, rest, rfl⟩ := exists_cons_of_ne_nil hnil
        exact hlead ⟨by simp, by simpa using hzero⟩
      have hcanonical : CanonicalDecimal text := ⟨hnil, fun hz => hhead hz.2, hdigits.1⟩
      have htext := ih hcanonical
      have hpos : 0 < ofDigitChars 10 text 0 := by
        rcases Nat.eq_zero_or_pos (ofDigitChars 10 text 0) with hz | hp
        · rw [hz] at htext
          exact absurd (by rw [← htext]; rfl) hhead
        · exact hp
      rw [← toDigits_append_toDigits (by omega) hpos hlt, htext, toDigits_of_lt_base hlt, hchar]

theorem canonicalDecimal_toDigits (n : Nat) : CanonicalDecimal (toDigits 10 n) := by
  -- The leading digit of a longer numeral is that of the quotient by ten.
  have hhead : ∀ m, 0 < m → (toDigits 10 m).head? ≠ some '0' := by
    intro m
    induction m using Nat.strongRecOn with
    | ind m ih =>
      intro hpos
      by_cases hm : m < 10
      · have hall : ∀ d < 10, 0 < d → digitChar d ≠ '0' := by decide
        rw [toDigits_of_lt_base hm]
        simpa using hall m hm hpos
      · rw [toDigits_of_base_le (by omega) (by omega), head?_append,
          Option.or_of_isSome (isSome_head?.2 toDigits_ne_nil)]
        exact ih (m / 10) (by omega) (by omega)
  refine ⟨toDigits_ne_nil, ?_, ?_⟩
  · rintro ⟨hlen, hzero⟩
    obtain rfl : n = 0 := by
      by_contra hn
      exact hhead n (by omega) hzero
    simp at hlen
  · apply all_eq_true.2
    intro c hc
    exact isDigit_of_mem_toDigits (by omega) (by omega) hc

/-- A digit run does not start with a sign. -/
theorem stripStart_digits (hc : c.isDigit = false)
    (hdigits : text.all isDigit = true) : stripStart [c] text = none := by
  cases hstrip : stripStart [c] text with
  | none => rfl
  | some rest =>
    rw [stripStart_eq_some_iff] at hstrip
    rw [hstrip] at hdigits
    simp [hc] at hdigits

theorem parseU64_digits (hne : text ≠ []) (hdigits : text.all isDigit = true) : parseU64 text =
      if ofDigitChars 10 text 0 < 2 ^ 64 then some (ofDigitChars 10 text 0) else none := by
  have hchecks : (text.isEmpty || !text.all isDigit) = false := by
    rw [hdigits]
    simpa using hne
  simp [parseU64, stripStart_digits (c := '+') rfl hdigits, hchecks]

theorem parseU64_toDigits (h : n < 2 ^ 64) : parseU64 (toDigits 10 n) = some n := by
  obtain ⟨hne, -, hdigits⟩ := canonicalDecimal_toDigits n
  rw [parseU64_digits hne hdigits, ofDigitChars_toDigits (by omega) (by omega), if_pos h]

theorem isWhitespace_of_isDigit (h : c.isDigit = true) : isWhitespace c = false := by
  have hrange : 48 ≤ c.toNat ∧ c.toNat ≤ 57 := by
    simp only [isDigit, Bool.and_eq_true, decide_eq_true_eq] at h
    exact ⟨h.1, h.2⟩
  simp only [isWhitespace, Bool.or_eq_false_iff, Bool.and_eq_false_iff, decide_eq_false_iff_not,
    beq_eq_false_iff_ne]
  omega

/-- Text without white space is its own trimming. -/
theorem trim_of_solid (h : ∀ c ∈ text, isWhitespace c = false) : trim text = text := by
  have hkeep : ∀ {text : Text}, (∀ c ∈ text, isWhitespace c = false) →
      text.dropWhile isWhitespace = text :=
    fun h => dropWhile_eq_self_iff.2 fun _ => by simp [h _ (getElem_mem _)]
  rw [trim, trimStart, trimEnd, hkeep h, hkeep (by simpa using h), reverse_reverse]

end Axiomc.Foundation
