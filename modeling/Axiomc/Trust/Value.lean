import Axiomc.Foundation.Text

/-!
# JSON values

`serde_json::Value` as the trust verifier reads it, with the accessors `object`, `field`, `text` and
`number` of `package_trust.rs`.  Reading a field of anything but an object, or a missing field, gives
`null`; `number` only answers for numbers that are stored as `u64`, so neither a negative number nor a
float such as `5.0` has one.

The entries of an object stand in the order of their keys, each key once, which is how the map behind
it iterates; two objects are equal when their entries are.
-/

namespace Axiomc.Trust

open Foundation

/-- `serde_json::Number`.  A float is given by its bits, the two zeros by the same ones. -/
inductive Number where
  | unsigned (n : UInt64)
  | negative (magnitude : Nat)
  | float (bits : UInt64)
  deriving DecidableEq, Repr

/-- `serde_json::Value`. -/
inductive Value where
  | null
  | bool (b : Bool)
  | number (n : Number)
  | string (text : Text)
  | array (items : List Value)
  | object (entries : List (Text × Value))

namespace Value

mutual

/-- Equality of values, decided. -/
def decEq : (a b : Value) → Decidable (a = b)
  | null, null => isTrue rfl
  | bool a, bool b => decidable_of_iff (a = b) (by simp)
  | number a, number b => decidable_of_iff (a = b) (by simp)
  | string a, string b => decidable_of_iff (a = b) (by simp)
  | array a, array b =>
    match decEqItems a b with
    | isTrue h => isTrue (by rw [h])
    | isFalse h => isFalse (by simpa using h)
  | object a, object b =>
    match decEqEntries a b with
    | isTrue h => isTrue (by rw [h])
    | isFalse h => isFalse (by simpa using h)
  | null, bool _ | null, number _ | null, string _ | null, array _ | null, object _
  | bool _, null | bool _, number _ | bool _, string _ | bool _, array _ | bool _, object _
  | number _, null | number _, bool _ | number _, string _ | number _, array _
  | number _, object _
  | string _, null | string _, bool _ | string _, number _ | string _, array _
  | string _, object _
  | array _, null | array _, bool _ | array _, number _ | array _, string _ | array _, object _
  | object _, null | object _, bool _ | object _, number _ | object _, string _
  | object _, array _ => isFalse (by simp)

def decEqItems : (a b : List Value) → Decidable (a = b)
  | [], [] => isTrue rfl
  | [], _ :: _ => isFalse (by simp)
  | _ :: _, [] => isFalse (by simp)
  | x :: xs, y :: ys =>
    match decEq x y, decEqItems xs ys with
    | isTrue h, isTrue hs => isTrue (by rw [h, hs])
    | isFalse h, _ => isFalse fun heq => h (List.cons.inj heq).1
    | _, isFalse hs => isFalse fun heq => hs (List.cons.inj heq).2

def decEqEntries : (a b : List (Text × Value)) → Decidable (a = b)
  | [], [] => isTrue rfl
  | [], _ :: _ => isFalse (by simp)
  | _ :: _, [] => isFalse (by simp)
  | (k, x) :: xs, (l, y) :: ys =>
    match decEq x y, decEqEntries xs ys with
    | isTrue h, isTrue hs =>
      decidable_of_iff (k = l) (by rw [h, hs]; simp)
    | isFalse h, _ => isFalse fun heq => h (Prod.mk.inj (List.cons.inj heq).1).2
    | _, isFalse hs => isFalse fun heq => hs (List.cons.inj heq).2

end

instance : DecidableEq Value := decEq

/-- `Value::as_array`. -/
def asArray : Value → Option (List Value)
  | array items => some items
  | _ => none

/-- `as_array().into_iter().flatten()`. -/
def items (value : Value) : List Value := value.asArray.getD []

/-- `Value::as_bool`. -/
def asBool : Value → Option Bool
  | bool b => some b
  | _ => none

/-- `Value::is_null`. -/
def isNull : Value → Bool
  | null => true
  | _ => false

end Value

/-- The entries of an object. -/
def object : Value → Option (List (Text × Value))
  | .object entries => some entries
  | _ => none

/-- `field`: the member of an object, or `null`. -/
def field (value : Value) (name : String) : Value :=
  match value with
  | .object entries => (entries.lookup name.toList).getD .null
  | _ => .null

def text : Value → Option Text
  | .string text => some text
  | _ => none

def number : Value → Option UInt64
  | .number (.unsigned n) => some n
  | _ => none

/-- `insert` of an ordered map, at the place of the key. -/
def insertEntry {α : Type} (key : Text) (value : α) : List (Text × α) → List (Text × α)
  | [] => [(key, value)]
  | (other, old) :: rest =>
    match byteOrder key other with
    | .lt => (key, value) :: (other, old) :: rest
    | .eq => (key, value) :: rest
    | .gt => (other, old) :: insertEntry key value rest

/-- The entries collected into an ordered map: of two with one key the last stays. -/
def sortEntries {α : Type} (entries : List (Text × α)) : List (Text × α) :=
  entries.foldl (fun sorted entry => insertEntry entry.1 entry.2 sorted) []

/-- Set a member of an object; anything else stays as it is. -/
def setField (value : Value) (name : String) (member : Value) : Value :=
  match value with
  | .object entries => .object (insertEntry name.toList member entries)
  | other => other

theorem lookup_insertEntry (key other : Text) (value : Value) (entries : List (Text × Value)) :
    (insertEntry key value entries).lookup other =
      if other = key then some value else entries.lookup other := by
  induction entries with
  | nil => exact lookup_cons_ite key value [] other
  | cons entry rest ih =>
    obtain ⟨k, old⟩ := entry
    unfold insertEntry
    cases horder : byteOrder key k with
    | lt => exact lookup_cons_ite key value _ other
    | eq =>
      have hkey : key = k := Std.LawfulEqCmp.eq_of_compare horder
      rw [lookup_cons_ite, lookup_cons_ite, hkey]
      by_cases h : other = k
      · rw [if_pos h, if_pos h]
      · rw [if_neg h, if_neg h, if_neg h]
    | gt =>
      have hkey : key ≠ k := by
        intro heq
        have hself : byteOrder k k = .eq := Std.ReflCmp.compare_self
        rw [heq, hself] at horder
        cases horder
      rw [lookup_cons_ite, lookup_cons_ite, ih]
      by_cases h : other = k
      · rw [if_pos h, if_pos h, if_neg (fun heq => hkey (heq.symm.trans h))]
      · rw [if_neg h, if_neg h]

variable {value : Value} {entries : List (Text × Value)}

theorem field_setField_self (h : object value = some entries) (name : String) (member : Value) :
    field (setField value name member) name = member := by
  cases value with
  | object entries =>
    show ((insertEntry name.toList member entries).lookup name.toList).getD .null = member
    rw [lookup_insertEntry, if_pos rfl]
    rfl
  | _ => cases h

variable {name : String}

theorem field_setField_of_ne {other : String} (h : other ≠ name)
    (member : Value) : field (setField value name member) other = field value other := by
  cases value with
  | object entries =>
    show ((insertEntry name.toList member entries).lookup other.toList).getD .null = _
    rw [lookup_insertEntry, if_neg (fun heq => h (String.toList_inj.1 heq))]
    rfl
  | _ => rfl

theorem object_setField (h : object value = some entries) (name : String) (member : Value) :
    ∃ entries', object (setField value name member) = some entries' := by
  cases value with
  | object entries => exact ⟨_, rfl⟩
  | _ => cases h

/-- Only an object has a field that is a number. -/
theorem object_of_number_field {n : UInt64}
    (h : number (field value name) = some n) : ∃ entries, object value = some entries := by
  cases value with
  | object entries => exact ⟨entries, rfl⟩
  | _ => cases h

end Axiomc.Trust
