import Axiomc.Trust.Transcript
import Mathlib.Data.List.Nodup

/-!
# Transcripts determine what is signed

`canonical_json` is read from left to right: the first character says which kind of value follows, a
number ends before a character that is no digit, a text at its closing quote.  The members of an object
stand in the order of their keys, whatever their order in the value.  In the transcripts every part stands
after its length.  So equal bytes come from values that agree up to the order of members.

`Value.normal` has the members in order, at every level.  `SelfDelimiting` is what is assumed of
`serde_json`'s strings.
-/

namespace Axiomc.Trust

open Foundation List Option Nat UInt8

/-- Codes that are told from each other and from whatever follows them. -/
def SelfDelimiting (code : Text → Text) : Prop :=
  (∀ s, (code s).head? = some '"') ∧
    ∀ s t rest rest', code s ++ rest = code t ++ rest' → s = t ∧ rest = rest'

variable {prim : Primitives} {v w : Value} {rest rest' : Text} (hquote : SelfDelimiting prim.quote)

/-! ### Members in order -/

section Entries

variable {α β : Type} {entries : List (Text × α)}

/-- Members with different keys can be inserted in either order. -/
theorem insertEntry_comm {k l : Text} (hlt : byteOrder k l = .lt) (v w : α) :
    ∀ entries, insertEntry k v (insertEntry l w entries) = insertEntry l w (insertEntry k v entries) := by
  have hgt : byteOrder l k = .gt := Std.OrientedCmp.gt_of_lt hlt
  intro entries
  induction entries with
  | nil => simp [insertEntry, hlt, hgt]
  | cons entry entries ih =>
    obtain ⟨m, x⟩ := entry
    cases hlm : byteOrder l m with
    | lt => simp [insertEntry, hlm, Std.TransCmp.lt_trans hlt hlm, hlt, hgt]
    | eq =>
      have hkm : byteOrder k m = .lt := Std.LawfulEqCmp.eq_of_compare hlm ▸ hlt
      simp [insertEntry, hlm, hkm, hlt, hgt]
    | gt => cases hkm : byteOrder k m <;> simp [insertEntry, hlm, hkm, hgt, ih]

/-- **Members in any order.**  Sorting does not depend on the order of members with different keys. -/
theorem sortEntries_perm {members : List (Text × α)} (hperm : entries.Perm members)
    (hkeys : (entries.map Prod.fst).Nodup) : sortEntries entries = sortEntries members := by
  refine hperm.foldl_eq' (fun x hx y hy sorted => ?_) []
  cases horder : byteOrder x.1 y.1 with
  | lt => exact (insertEntry_comm horder _ _ sorted).symm
  | eq => rw [inj_on_of_nodup_map hkeys hx hy (Std.LawfulEqCmp.eq_of_compare horder)]
  | gt => exact insertEntry_comm (Std.OrientedCmp.lt_of_gt horder) _ _ sorted

theorem map_insertEntry (f : α → β) (key : Text) (value : α) (entries : List (Text × α)) :
    (insertEntry key value entries).map (Prod.map id f) =
      insertEntry key (f value) (entries.map (Prod.map id f)) := by
  induction entries with
  | nil => rfl
  | cons entry entries ih =>
    obtain ⟨other, old⟩ := entry
    cases horder : byteOrder key other <;> simp [insertEntry, horder, ih]

/-- Only the keys are looked at. -/
theorem map_sortEntries (f : α → β) (entries : List (Text × α)) :
    (sortEntries entries).map (Prod.map id f) = sortEntries (entries.map (Prod.map id f)) := by
  rw [sortEntries, sortEntries, foldl_map]
  exact (foldl_hom (map (Prod.map id f)) fun sorted entry => (map_insertEntry f _ _ sorted).symm).symm

theorem mem_of_mem_sortEntries {x : Text × α} (h : x ∈ sortEntries entries) : x ∈ entries := by
  have hinsert : ∀ {k v} {sorted : List (Text × α)}, x ∈ insertEntry k v sorted →
      x = (k, v) ∨ x ∈ sorted := by
    intro k v sorted hx
    fun_induction insertEntry k v sorted with grind
  have hfold : ∀ (entries sorted : List (Text × α)),
      x ∈ entries.foldl (fun sorted entry => insertEntry entry.1 entry.2 sorted) sorted →
        x ∈ entries ∨ x ∈ sorted := by
    intro entries
    induction entries with
    | nil => exact fun _ hx => .inr hx
    | cons entry entries ih =>
      intro sorted hx
      rcases ih _ hx with hx | hx
      · exact .inl (mem_cons_of_mem _ hx)
      · rcases hinsert hx with rfl | hx
        · exact .inl mem_cons_self
        · exact .inr hx
  exact (hfold entries [] h).resolve_right not_mem_nil

end Entries

namespace Value

mutual

/-- The value with the members of its objects in the order of their keys, each key once. -/
def normal : Value → Value
  | array items => array (normalItems items)
  | object entries => object (sortEntries (normalEntries entries))
  | other => other

def normalItems : List Value → List Value
  | [] => []
  | item :: rest => item.normal :: normalItems rest

def normalEntries : List (Text × Value) → List (Text × Value)
  | [] => []
  | (key, value) :: rest => (key, value.normal) :: normalEntries rest

end

theorem normalItems_eq (items : List Value) : normalItems items = items.map normal := by
  induction items with
  | nil => rfl
  | cons item items ih => rw [normalItems, ih, map_cons]

theorem normal_object (entries : List (Text × Value)) :
    (object entries).normal = object ((sortEntries entries).map (Prod.map id normal)) := by
  have hentries : normalEntries entries = entries.map (Prod.map id normal) := by
    induction entries with
    | nil => rfl
    | cons entry entries ih => rw [normalEntries, ih, map_cons, Prod.map, id]
  rw [normal, hentries, map_sortEntries]

end Value

/-! ### Canonical JSON -/

/-- What follows does not go on with a digit. -/
def Ended (rest : Text) : Prop := ∀ c ∈ rest.head?, c.isDigit = false

/-- The kind of a value, down to what its first character tells. -/
def Value.kind : Value → Nat
  | .null => 0
  | .bool true => 1
  | .bool false => 2
  | .number (.unsigned _) => 3
  | .number (.negative _) => 4
  | .number (.float _) => 5
  | .string _ => 6
  | .array _ => 7
  | .object _ => 8

/-- The kind that a first character tells. -/
def kindOf (c : Char) : Nat :=
  if c.isDigit then 3
  else ((['n', 't', 'f', ' ', '-', ' ', '"', '[', '{'] : Text).idxOf c)

include hquote in
theorem kindOf_canonicalText {a : Text} (h : canonicalText prim v = some a) :
    ∃ c rest, a = c :: rest ∧ kindOf c = v.kind := by
  cases v with
  | null => cases h; exact ⟨_, _, rfl, rfl⟩
  | bool b => cases b <;> cases h <;> exact ⟨_, _, rfl, rfl⟩
  | number n =>
    cases n with
    | unsigned n =>
      cases h
      cases hdigits : toDigits 10 n.toNat with
      | nil => exact absurd hdigits toDigits_ne_nil
      | cons c rest =>
        have hc := isDigit_of_mem_toDigits (b := 10) (n := n.toNat) (c := c) (by omega) (by omega)
          (by simp [hdigits])
        exact ⟨c, rest, rfl, if_pos hc⟩
    | negative n => cases h; exact ⟨_, _, rfl, rfl⟩
    | float bits => cases h
  | string s =>
    simp only [canonicalText, ite_none_right_eq_some, some.injEq] at h
    obtain ⟨-, rfl⟩ := h
    obtain ⟨rest, hrest⟩ := head?_eq_some_iff.1 (hquote.1 s)
    exact ⟨_, _, hrest, rfl⟩
  | array _ | object _ =>
    simp only [canonicalText, bind_eq_bind, bind_eq_some_iff, some.injEq] at h
    obtain ⟨parts, -, rfl⟩ := h
    exact ⟨_, _, rfl, rfl⟩

/-- A number ends where the digits end. -/
theorem digits_inj {m n : Nat} (hrest : Ended rest) (hrest' : Ended rest')
    (h : toDigits 10 m ++ rest = toDigits 10 n ++ rest') : m = n ∧ rest = rest' := by
  have hspan : ∀ (k : Nat) (r : Text), Ended r →
      (toDigits 10 k ++ r).takeWhile Char.isDigit = toDigits 10 k := by
    intro k r hr
    have hdigits : ∀ c ∈ toDigits 10 k, c.isDigit = true :=
      fun c hc => isDigit_of_mem_toDigits (by omega) (by omega) hc
    rw [takeWhile_append_of_pos hdigits]
    cases r with
    | nil => simp
    | cons c r => simp [hr c rfl]
  have hdigits : toDigits 10 m = toDigits 10 n := by
    rw [← hspan m rest hrest, h, hspan n rest' hrest']
  rw [hdigits] at h
  refine ⟨?_, append_cancel_left h⟩
  have := congrArg (fun l => ofDigitChars 10 l 0) hdigits
  simpa using this

/-- The code of an element is told from what follows it, and from those of elements that differ
under `f`. -/
def Delimited {α : Type} (code : α → Option Text) (f : α → α) (x : α) : Prop :=
  ∀ y a b r r', code x = some a → code y = some b → Ended r → Ended r' → a ++ r = b ++ r' →
    f x = f y ∧ r = r'

section Lists

variable {α : Type} {code : α → Option Text} {f : α → α} {close : Char} {xs ys : List α} {as bs : List Text}

/-- The parts of an array or an object, each after a comma, up to the closing bracket. -/
theorem parts_inj (hclose : close ≠ ',') (hdigit : close.isDigit = false)
    (hinj : ∀ x ∈ xs, Delimited code f x) (hxs : List.Forall₂ (fun x a => code x = some a) xs as)
    (hys : List.Forall₂ (fun y b => code y = some b) ys bs)
    (h : as.flatMap (',' :: ·) ++ close :: rest = bs.flatMap (',' :: ·) ++ close :: rest') :
    xs.map f = ys.map f ∧ rest = rest' := by
  have hended : ∀ (parts : List Text) (rest : Text),
      Ended (parts.flatMap (',' :: ·) ++ close :: rest) := by
    intro parts rest c hc
    cases parts <;> cases hc <;> first | exact hdigit | decide
  induction hxs generalizing ys bs with
  | nil =>
    cases hys with
    | nil => exact ⟨rfl, (cons.inj h).2⟩
    | cons hb hys => exact absurd (cons.inj h).1 hclose
  | cons ha hxs ih =>
    cases hys with
    | nil => exact absurd (cons.inj h).1.symm hclose
    | cons hb hys =>
      simp only [flatMap_cons, cons_append, append_assoc, cons.injEq, true_and] at h
      obtain ⟨hhead, htail⟩ :=
        hinj _ mem_cons_self _ _ _ _ _ ha hb (hended _ _) (hended _ _) h
      obtain ⟨hmap, hrest⟩ := ih (fun x hx => hinj x (mem_cons_of_mem _ hx)) hys htail
      exact ⟨by rw [map_cons, map_cons, hhead, hmap], hrest⟩

theorem comma_intercalate (part : Text) (parts : List Text) :
    ',' :: [','].intercalate (part :: parts) = (part :: parts).flatMap (',' :: ·) := by
  induction parts generalizing part with
  | nil => simp
  | cons next parts ih =>
    rw [flatMap_cons, ← ih next]
    simp

/-- Between brackets the first part has no comma; it does not begin with the closing bracket. -/
theorem bracketed_inj (hclose : close ≠ ',') (hdigit : close.isDigit = false)
    (hstart : ∀ x a, code x = some a → ∃ c part, a = c :: part ∧ c ≠ close)
    (hinj : ∀ x ∈ xs, Delimited code f x) (hxs : xs.mapM code = some as)
    (hys : ys.mapM code = some bs)
    (h : [','].intercalate as ++ close :: rest = [','].intercalate bs ++ close :: rest') :
    xs.map f = ys.map f ∧ rest = rest' := by
  have hopen : ∀ {x a} (parts : List Text) (r r' : Text), code x = some a →
      [','].intercalate (a :: parts) ++ r ≠ close :: r' := by
    intro x a parts r r' ha heq
    obtain ⟨c, part, rfl, hne⟩ := hstart x a ha
    cases parts <;> simp [hne] at heq
  cases forall₂_of_mapM hxs with
  | nil =>
    cases forall₂_of_mapM hys with
    | nil => exact ⟨rfl, (cons.inj h).2⟩
    | cons hb _ => exact absurd h.symm (hopen _ _ _ hb)
  | cons ha hxs' =>
    cases forall₂_of_mapM hys with
    | nil => exact absurd h (hopen _ _ _ ha)
    | cons hb hys' =>
      refine parts_inj hclose hdigit hinj (.cons ha hxs') (.cons hb hys') ?_
      rw [← comma_intercalate, ← comma_intercalate, cons_append, cons_append, h]

end Lists

/-- The code of a member of an object. -/
def entryText (prim : Primitives) (entry : Text × Value) : Option Text :=
  memberText prim (entry.1, canonicalText prim entry.2)

theorem entryText_eq_some {entry : Text × Value} {a : Text} (h : entryText prim entry = some a) :
    ∃ part, canonicalText prim entry.2 = some part ∧ a = prim.quote entry.1 ++ ':' :: part := by
  simp only [entryText, memberText, ite_none_right_eq_some, map_eq_some_iff] at h
  obtain ⟨-, part, hpart, rfl⟩ := h
  exact ⟨part, hpart, rfl⟩

theorem canonicalItems_eq (items : List Value) :
    canonicalItems prim items = items.mapM (canonicalText prim) := by
  induction items with
  | nil => rfl
  | cons item items ih => simp [canonicalItems, ih]

theorem canonicalEntries_eq (entries : List (Text × Value)) :
    canonicalEntries prim entries = entries.map (Prod.map id (canonicalText prim)) := by
  induction entries with
  | nil => rfl
  | cons entry entries ih => rw [canonicalEntries, ih, map_cons, Prod.map, id]

/-- The members of an object are written in the order of their keys. -/
theorem mapM_memberText (entries : List (Text × Value)) :
    (sortEntries (canonicalEntries prim entries)).mapM (memberText prim) =
      (sortEntries entries).mapM (entryText prim) := by
  rw [canonicalEntries_eq, ← map_sortEntries, mapM_map]
  rfl

include hquote in
/-- **Canonical JSON.**  Equal texts, whatever follows them, come from values that agree up to the order
of members. -/
theorem canonicalText_inj (v : Value) : Delimited (canonicalText prim) Value.normal v := by
  intro w a b r r' hv hw hr hr' h
  have hkind : v.kind = w.kind := by
    obtain ⟨c, as, rfl, hc⟩ := kindOf_canonicalText hquote hv
    obtain ⟨d, bs, rfl, hd⟩ := kindOf_canonicalText hquote hw
    rw [← hc, ← hd, (cons.inj h).1]
  have hstart : ∀ {x : Value} {a : Text} {close : Char}, kindOf close = 9 →
      canonicalText prim x = some a → ∃ c part, a = c :: part ∧ c ≠ close := by
    intro x a close hclose hx
    obtain ⟨c, part, rfl, hc⟩ := kindOf_canonicalText hquote hx
    refine ⟨c, part, rfl, ?_⟩
    rintro rfl
    rw [hclose] at hc
    unfold Value.kind at hc
    split at hc <;> cases hc
  match v, w with
  | .null, .null | .bool true, .bool true | .bool false, .bool false =>
    cases hv
    cases hw
    exact ⟨rfl, append_cancel_left h⟩
  | .number (.unsigned m), .number (.unsigned n) =>
    cases hv
    cases hw
    obtain ⟨heq, hrest⟩ := digits_inj hr hr' h
    exact ⟨by rw [UInt64.toNat_inj.1 heq], hrest⟩
  | .number (.negative m), .number (.negative n) =>
    cases hv
    cases hw
    obtain ⟨rfl, hrest⟩ := digits_inj hr hr' (cons.inj h).2
    exact ⟨rfl, hrest⟩
  | .string s, .string t =>
    simp only [canonicalText, ite_none_right_eq_some, some.injEq] at hv hw
    obtain ⟨-, rfl⟩ := hv
    obtain ⟨-, rfl⟩ := hw
    obtain ⟨rfl, hrest⟩ := hquote.2 s t r r' h
    exact ⟨rfl, hrest⟩
  | .array xs, .array ys =>
    simp only [canonicalText, canonicalItems_eq, bind_eq_bind, bind_eq_some_iff, some.injEq] at hv hw
    obtain ⟨parts, hxs, rfl⟩ := hv
    obtain ⟨parts', hys, rfl⟩ := hw
    simp only [cons_append, append_assoc, cons.injEq, true_and] at h
    obtain ⟨hmap, hrest⟩ := bracketed_inj (by decide) (by decide) (fun _ _ => hstart rfl)
      (fun x hx => canonicalText_inj x) hxs hys h
    exact ⟨by rw [Value.normal, Value.normal, Value.normalItems_eq, Value.normalItems_eq, hmap], hrest⟩
  | .object xs, .object ys =>
    simp only [canonicalText, mapM_memberText, bind_eq_bind, bind_eq_some_iff, some.injEq] at hv hw
    obtain ⟨parts, hxs, rfl⟩ := hv
    obtain ⟨parts', hys, rfl⟩ := hw
    simp only [cons_append, append_assoc, cons.injEq, true_and] at h
    have hopen : ∀ x a, entryText prim x = some a → ∃ c part, a = c :: part ∧ c ≠ '}' := by
      intro x a hx
      obtain ⟨part, -, rfl⟩ := entryText_eq_some hx
      obtain ⟨rest, hrest⟩ := head?_eq_some_iff.1 (hquote.1 x.1)
      exact ⟨'"', rest ++ ':' :: part, by rw [hrest, cons_append], by decide⟩
    have hmembers : ∀ x ∈ sortEntries xs, Delimited (entryText prim) (Prod.map id Value.normal) x := by
      intro x hx y a b r r' ha hb hr hr' heq
      obtain ⟨part, hpart, rfl⟩ := entryText_eq_some ha
      obtain ⟨part', hpart', rfl⟩ := entryText_eq_some hb
      rw [append_assoc, append_assoc] at heq
      obtain ⟨hkey, heq⟩ := hquote.2 _ _ _ _ heq
      obtain ⟨hvalue, hrest⟩ :=
        canonicalText_inj x.2 y.2 _ _ r r' hpart hpart' hr hr' (cons.inj heq).2
      exact ⟨Prod.ext hkey hvalue, hrest⟩
    obtain ⟨hmap, hrest⟩ := bracketed_inj (by decide) (by decide) hopen hmembers hxs hys h
    exact ⟨by rw [Value.normal_object, Value.normal_object, hmap], hrest⟩
  | .number (.float _), _ => cases hv
termination_by sizeOf v
decreasing_by
  · have := sizeOf_lt_of_mem hx
    simp only [Value.array.sizeOf_spec]
    omega
  · have := sizeOf_lt_of_mem (mem_of_mem_sortEntries hx)
    obtain ⟨key, value⟩ := x
    simp only [Value.object.sizeOf_spec, Prod.mk.sizeOf_spec] at this ⊢
    omega

/-! ### Lengths -/

theorem length_bigEndian (width n : Nat) : (bigEndian width n).length = width := by
  induction width generalizing n with
  | zero => rfl
  | succ width ih => simp [bigEndian, ih]

theorem bigEndian_inj {width m n : Nat} (hm : m < 256 ^ width) (hn : n < 256 ^ width)
    (h : bigEndian width m = bigEndian width n) : m = n := by
  induction width generalizing m n with
  | zero => omega
  | succ width ih =>
    obtain ⟨hhigh, hlow⟩ := append_inj h (by rw [length_bigEndian, length_bigEndian])
    have hdiv := ih (Nat.div_lt_of_lt_mul (by omega)) (Nat.div_lt_of_lt_mul (by omega)) hhigh
    have hmod := congrArg toNat (singleton_inj.1 hlow)
    simp only [toNat_ofNat'] at hmod
    omega

/-- A byte string after its length is told from what follows. -/
theorem lengthPrefixed_inj {width : Nat} {a b rest rest' : Bytes} (ha : a.length < 256 ^ width)
    (hb : b.length < 256 ^ width)
    (h : lengthPrefixed width a ++ rest = lengthPrefixed width b ++ rest') : a = b ∧ rest = rest' := by
  rw [lengthPrefixed, lengthPrefixed, append_assoc, append_assoc] at h
  obtain ⟨hlength, htail⟩ := append_inj h (by rw [length_bigEndian, length_bigEndian])
  exact append_inj htail (bigEndian_inj ha hb hlength)

/-! ### Hexadecimal text -/

def digitOf (n : UInt8) : UInt8 := if n < 10 then n + 48 else n + 87

/-- The digits of a byte. -/
def digitsOf (byte : UInt8) : Bytes := [digitOf (byte >>> 4), digitOf (byte &&& 15)]

theorem nibble_eq_some {byte n : UInt8} (h : nibble byte = some n) : n < 16 ∧ byte = digitOf n := by
  unfold nibble at h
  unfold digitOf
  grind

theorem decodePairs_eq {encoded bytes : Bytes} (heven : encoded.length % 2 = 0)
    (h : decodePairs encoded = some bytes) : encoded = bytes.flatMap digitsOf := by
  have hsplit : ∀ m n : Fin 16, (ofNat m <<< 4 ||| ofNat n) >>> 4 = ofNat m ∧
      (ofNat m <<< 4 ||| ofNat n) &&& 15 = ofNat n := by decide
  fun_induction decodePairs encoded generalizing bytes with
  | case1 =>
    cases h
    rfl
  | case2 => cases heven
  | case3 high low rest ih =>
    simp only [bind_eq_bind, bind_eq_some_iff, some.injEq] at h
    obtain ⟨m, hm, n, hn, bytes, hbytes, rfl⟩ := h
    obtain ⟨hlt, rfl⟩ := nibble_eq_some hm
    obtain ⟨hlt', rfl⟩ := nibble_eq_some hn
    have hpair := hsplit ⟨m.toNat, hlt⟩ ⟨n.toNat, hlt'⟩
    simp only [UInt8.ofNat_toNat] at hpair
    simp only [length_cons] at heven
    rw [flatMap_cons, ← ih (by omega) hbytes, digitsOf, hpair.1, hpair.2]
    rfl

theorem decodeHex_inj {bytes : Bytes} (hv : decodeHex v = some bytes) (hw : decodeHex w = some bytes) :
    v = w := by
  have htext : ∀ {u : Value}, decodeHex u = some bytes →
      ∃ s, u = .string s ∧ encodeUtf8 s = bytes.flatMap digitsOf := by
    intro u hu
    cases u with
    | string s =>
      simp only [decodeHex, text] at hu
      split at hu
      · cases hu
      next heven => exact ⟨s, rfl, decodePairs_eq (by omega) hu⟩
    | _ => cases hu
  obtain ⟨s, rfl, hs⟩ := htext hv
  obtain ⟨t, rfl, ht⟩ := htext hw
  rw [encodeUtf8_injective (hs.trans ht.symm)]

/-! ### Transcripts -/

/-- `metadata_transcript` for any domain. -/
def metadataTranscriptOf (prim : Primitives) (domain : Text) (signed : Value) : Option Bytes :=
  if domain.all (fun c => c.toNat < 128) ∧ (encodeUtf8 domain).length ≤ 65535 then
    (canonicalJson prim signed).map fun payload =>
      lengthPrefixed 2 (encodeUtf8 domain) ++ lengthPrefixed 8 payload
  else none

include hquote in
theorem canonicalJson_inj {bytes : Bytes} (hv : canonicalJson prim v = some bytes)
    (hw : canonicalJson prim w = some bytes) : v.normal = w.normal := by
  obtain ⟨a, ha, rfl⟩ := map_eq_some_iff.1 hv
  obtain ⟨b, hb, heq⟩ := map_eq_some_iff.1 hw
  have hended : Ended [] := fun c hc => by cases hc
  exact (canonicalText_inj hquote v w a b [] [] ha hb hended hended
    (by rw [encodeUtf8_injective heq])).1

include hquote in
/-- A metadata transcript begins with its domain. -/
theorem metadata_inj {d e : Text} {raw : Bytes} (hv : metadataTranscriptOf prim d v = some raw)
    (hw : metadataTranscriptOf prim e w = some raw) : d = e ∧ v.normal = w.normal := by
  simp only [metadataTranscriptOf, ite_none_right_eq_some, map_eq_some_iff] at hv hw
  obtain ⟨⟨-, hd⟩, a, ha, rfl⟩ := hv
  obtain ⟨⟨-, he⟩, b, hb, heq⟩ := hw
  obtain ⟨hdomain, hpayload⟩ := lengthPrefixed_inj (by omega) (by omega) heq
  obtain ⟨-, rfl⟩ := append_inj hpayload (by rw [length_bigEndian, length_bigEndian])
  exact ⟨(encodeUtf8_injective hdomain).symm, canonicalJson_inj hquote ha hb⟩

/-- The same field of two packages: one name, and values of one type. -/
inductive Alike : String × Option TranscriptValue → String × Option TranscriptValue → Prop
  | integer (name : String) (m n : Option UInt64) :
      Alike (name, m.map .integer) (name, n.map .integer)
  | text (name : String) (s t : Option Text) : Alike (name, s.map .text) (name, t.map .text)
  | bytes (name : String) (a b : Option Bytes) : Alike (name, a.map .bytes) (name, b.map .bytes)

theorem packageFields_alike (p q : Value) (m n : UInt64) :
    List.Forall₂ Alike (packageFields p m) (packageFields q n) := by
  repeat' first
    | exact .nil
    | refine .cons (.text _ (Trust.text _) (Trust.text _)) ?_
    | refine .cons (.integer _ (number _) (number _)) ?_
    | refine .cons (.bytes _ (decodeHex _) (decodeHex _)) ?_
    | refine .cons (.integer _ (some _) (some _)) ?_

/-- One field is told from what follows it. -/
theorem encodeField_inj {x y : String × Option TranscriptValue} (halike : Alike x y) {a b : Bytes}
    (ha : encodeField prim x = some a) (hb : encodeField prim y = some b) {rest rest' : Bytes}
    (hlt : a.length < 2 ^ 64) (hlt' : b.length < 2 ^ 64) (h : a ++ rest = b ++ rest') :
    x = y ∧ rest = rest' := by
  simp only [encodeField, bind_eq_bind, bind_eq_some_iff, some.injEq] at ha hb
  obtain ⟨value, hvalue, encoded, hencoded, rfl⟩ := ha
  obtain ⟨value', hvalue', encoded', hencoded', rfl⟩ := hb
  have hname : x.1 = y.1 := by cases halike <;> rfl
  rw [hname, append_assoc, append_assoc] at h
  simp only [lengthPrefixed, length_append, length_bigEndian] at hlt hlt'
  obtain ⟨rfl, hrest⟩ := lengthPrefixed_inj (by omega) (by omega) (append_cancel_left h)
  refine ⟨Prod.ext hname ?_, hrest⟩
  rw [hvalue, hvalue']
  cases halike with
  | integer name m n =>
    obtain ⟨m, -, rfl⟩ := map_eq_some_iff.1 hvalue
    obtain ⟨n, -, rfl⟩ := map_eq_some_iff.1 hvalue'
    have heq := some.inj (hencoded.trans hencoded'.symm)
    rw [UInt64.toNat_inj.1 (bigEndian_inj m.toNat_lt n.toNat_lt heq)]
  | text name s t =>
    obtain ⟨s, -, rfl⟩ := map_eq_some_iff.1 hvalue
    obtain ⟨t, -, rfl⟩ := map_eq_some_iff.1 hvalue'
    simp only [TranscriptValue.encode, ite_none_right_eq_some, some.injEq] at hencoded hencoded'
    rw [encodeUtf8_injective (hencoded.2.trans hencoded'.2.symm)]
  | bytes name a b =>
    obtain ⟨a, -, rfl⟩ := map_eq_some_iff.1 hvalue
    obtain ⟨b, -, rfl⟩ := map_eq_some_iff.1 hvalue'
    rw [some.inj (hencoded.trans hencoded'.symm)]

/-- **The fields**, one after the other. -/
theorem encodeFields_inj {xs ys : List (String × Option TranscriptValue)} {as bs : List Bytes}
    (halike : List.Forall₂ Alike xs ys)
    (hxs : List.Forall₂ (fun x a => encodeField prim x = some a) xs as)
    (hys : List.Forall₂ (fun y b => encodeField prim y = some b) ys bs)
    (hlt : as.flatten.length < 2 ^ 64) (h : as.flatten = bs.flatten) : xs = ys := by
  induction halike generalizing as bs with
  | nil => rfl
  | cons hhead _ ih =>
    cases hxs with
    | cons ha hxs =>
      cases hys with
      | cons hb hys =>
        have hlength := congrArg length h
        simp only [flatten_cons, length_append] at hlt hlength
        obtain ⟨rfl, htail⟩ := encodeField_inj hhead ha hb (by omega) (by omega) h
        rw [ih hxs hys (by omega) htail]

theorem packageTranscript_eq_some {p : Value} {m : UInt64} {raw : Bytes}
    (h : packageTranscript prim p m = some raw) :
    ∃ parts, (packageFields p m).mapM (encodeField prim) = some parts ∧
      raw = lengthPrefixed 2 (encodeUtf8 Domain.package.name) ++ (bigEndian 2 23 ++ parts.flatten) := by
  simp only [packageTranscript, bind_eq_bind, bind_eq_some_iff, some.injEq] at h
  obtain ⟨parts, hparts, rfl⟩ := h
  exact ⟨parts, hparts, append_assoc ..⟩

include hquote in
/-- **Transcripts are unambiguous.**  Equal canonical JSON comes from values that agree up to the order
of members, and the order of the members of an object never shows.  Equal package transcripts, which as
byte vectors are shorter than `2 ^ 64`, come from equal thresholds and equal fields, and the bytes of a
digest from one text; equal metadata transcripts from one domain and one such value.  No package
transcript is that of a root or an index. -/
theorem transcripts_unambiguous :
    (∀ v w bytes, canonicalJson prim v = some bytes → canonicalJson prim w = some bytes →
      v.normal = w.normal) ∧
    (∀ members members', members.Perm members' → (members.map Prod.fst).Nodup →
      canonicalJson prim (.object members) = canonicalJson prim (.object members')) ∧
    (∀ p q m n raw, packageTranscript prim p m = some raw → packageTranscript prim q n = some raw →
      raw.length < 2 ^ 64 → m = n ∧ packageFields p m = packageFields q n) ∧
    (∀ v w bytes, decodeHex v = some bytes → decodeHex w = some bytes → v = w) ∧
    (∀ d e v w raw, metadataTranscriptOf prim d v = some raw → metadataTranscriptOf prim e w = some raw →
      d = e ∧ v.normal = w.normal) ∧
    (∀ p m raw domain v, packageTranscript prim p m = some raw → domain ≠ .package →
      metadataTranscript prim domain v ≠ some raw) := by
  refine ⟨fun v w bytes => canonicalJson_inj hquote, fun members members' hperm hkeys => ?_, ?_,
    fun v w bytes => decodeHex_inj, fun d e v w raw => metadata_inj hquote, ?_⟩
  · simp only [canonicalJson, canonicalText, mapM_memberText, sortEntries_perm hperm hkeys]
  · intro p q m n raw hp hq hlt
    obtain ⟨parts, hparts, rfl⟩ := packageTranscript_eq_some hp
    obtain ⟨parts', hparts', heq⟩ := packageTranscript_eq_some hq
    have hfields := encodeFields_inj (packageFields_alike p q m n) (forall₂_of_mapM hparts)
      (forall₂_of_mapM hparts') (by simp only [length_append] at hlt; omega)
      (append_cancel_left (append_cancel_left heq))
    refine ⟨?_, hfields⟩
    have hlast := congrArg (fun fields => fields[22]?) hfields
    simpa [packageFields] using hlast
  · intro p m raw domain v hp hdomain hv
    obtain ⟨parts, -, rfl⟩ := packageTranscript_eq_some hp
    simp only [metadataTranscript, bind_eq_bind, bind_eq_some_iff, some.injEq] at hv
    obtain ⟨payload, -, heq⟩ := hv
    obtain ⟨hname, -⟩ := lengthPrefixed_inj (by cases domain <;> decide) (by decide) heq
    cases domain with
    | package => exact hdomain rfl
    | root | index => exact absurd (encodeUtf8_injective hname) (by decide)

/-! ### The strings of `serde_json` -/

/-- The characters that are escaped, by their numbers. -/
def specials : List Nat := 34 :: 92 :: range 32

/-- What is written for them. -/
def escapeCode : Nat → Text
  | 8 => ['\\', 'b']
  | 9 => ['\\', 't']
  | 10 => ['\\', 'n']
  | 12 => ['\\', 'f']
  | 13 => ['\\', 'r']
  | 34 => ['\\', '"']
  | 92 => ['\\', '\\']
  | n => "\\u00".toList ++ [hexDigit (n / 16), hexDigit (n % 16)]

def escape (c : Char) : Text := if c.toNat ∈ specials then escapeCode c.toNat else [c]

/-- The primitives on ASCII texts. -/
def ascii : Primitives where
  digest := id
  publicKey _ := true
  verify _ _ _ := none
  isNfc _ := true
  quote s := '"' :: s.flatMap escape ++ ['"']
  parseStrictValue _ := none
  matchesSchema _ _ := true

/-- An escape begins with a backslash, which stands for nothing else. -/
theorem escape_spec (c : Char) :
    (c.toNat ∈ specials ∧ escape c = escapeCode c.toNat ∧ (escape c).head? = some '\\') ∨
      (c.toNat ∉ specials ∧ escape c = [c]) := by
  by_cases h : c.toNat ∈ specials
  · have hcodes : ∀ n ∈ specials, (escapeCode n).head? = some '\\' := by decide +kernel
    have hcode : escape c = escapeCode c.toNat := if_pos h
    exact .inl ⟨h, hcode, hcode ▸ hcodes _ h⟩
  · exact .inr ⟨h, if_neg h⟩

theorem escape_inj {c d : Char} (h : escape c ++ rest = escape d ++ rest') : c = d ∧ rest = rest' := by
  have hcode : c = d := by
    rcases escape_spec c with ⟨hc, hcode, hhead⟩ | ⟨hc, hcode⟩ <;>
      rcases escape_spec d with ⟨hd, hcode', hhead'⟩ | ⟨hd, hcode'⟩
    · -- no escape goes on where another one ends
      have hcodes : ∀ m ∈ specials, ∀ n ∈ specials, escapeCode m <+: escapeCode n → m = n := by
        decide +kernel
      have hprefix : escape c <+: escape d ++ rest' := h ▸ prefix_append _ _
      rw [hcode, hcode'] at hprefix
      rcases prefix_or_prefix_of_prefix hprefix (prefix_append _ _) with hpre | hpre
      · exact Char.toNat_inj.1 (hcodes _ hc _ hd hpre)
      · exact Char.toNat_inj.1 (hcodes _ hd _ hc hpre).symm
    · obtain ⟨code, hcode⟩ := head?_eq_some_iff.1 hhead
      rw [hcode, hcode'] at h
      exact absurd ((cons.inj h).1 ▸ by decide) hd
    · obtain ⟨code, hcode'⟩ := head?_eq_some_iff.1 hhead'
      rw [hcode, hcode'] at h
      exact absurd ((cons.inj h).1 ▸ by decide) hc
    · rw [hcode, hcode'] at h
      exact (cons.inj h).1
  subst hcode
  exact ⟨rfl, append_cancel_left h⟩

theorem escape_ne_quote (c : Char) (code : Text) : escape c ++ rest ≠ '"' :: code := by
  intro h
  rcases escape_spec c with ⟨-, -, hhead⟩ | ⟨hc, hcode⟩
  · obtain ⟨code, hcode⟩ := head?_eq_some_iff.1 hhead
    rw [hcode] at h
    exact absurd (cons.inj h).1 (by decide)
  · rw [hcode] at h
    exact hc ((cons.inj h).1 ▸ by decide)

theorem selfDelimiting_ascii : SelfDelimiting ascii.quote := by
  refine ⟨fun _ => rfl, fun s => ?_⟩
  induction s with
  | nil =>
    intro t rest rest' h
    cases t with
    | nil => exact ⟨rfl, (cons.inj (cons.inj h).2).2⟩
    | cons c t =>
      simp only [ascii, flatMap_cons, append_assoc, cons_append, cons.injEq, true_and] at h
      exact absurd h.symm (escape_ne_quote c _)
  | cons c s ih =>
    intro t rest rest' h
    simp only [ascii, flatMap_cons, append_assoc, cons_append, cons.injEq, true_and] at h
    cases t with
    | nil => exact absurd h (escape_ne_quote c _)
    | cons d t =>
      rw [flatMap_cons, append_assoc] at h
      obtain ⟨rfl, htail⟩ := escape_inj h
      obtain ⟨rfl, hrest⟩ := ih t rest rest' (by simpa [ascii] using htail)
      exact ⟨rfl, hrest⟩

/-- Two members, and a text with characters that are escaped. -/
def quoted : List (Text × Value) :=
  [(['b'], .string "say \"x\"\n".toList), (['a'], .array [.null])]

theorem transcripts_unambiguous_quoted :
    canonicalJson ascii (.object quoted) =
        some (encodeUtf8 "\x7b\"a\":[null],\"b\":\"say \\\"x\\\"\\n\"\x7d".toList) ∧
      canonicalJson ascii (.object quoted) = canonicalJson ascii (.object quoted.reverse) ∧
      canonicalJson ascii (.object quoted) ≠ canonicalJson ascii (.object []) := by
  obtain ⟨hinj, hperm, -⟩ := transcripts_unambiguous selfDelimiting_ascii
  refine ⟨by decide +kernel, hperm _ _ (reverse_perm quoted).symm (by decide), fun h => ?_⟩
  have hnormal := hinj (.object []) (.object quoted) _ rfl h
  revert hnormal
  decide +kernel

end Axiomc.Trust
