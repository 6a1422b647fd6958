import Axiomc.Hir.Model
import Mathlib.Algebra.Group.Int.Defs
import Mathlib.Algebra.Group.Nat.Defs

/-!
# Arithmetic of the evaluator

`eval_arithmetic_values` on integers.  The evaluator of the Cranelift back end computes in the 64 bits of
the host, signed or unsigned, and reduces the result to the type afterwards.  The operators are those of a
build with overflow checks, on a host of 64 bits.

* `evalArithmeticValues`: the arms of the function for integer types;
* `evalArithmeticValues_reduced_iff`: it gives what it should exactly where the result fits into the host.
-/

namespace Axiomc.Evaluator

open Hir

/-- `SpikeValue`, with one constructor for all that is not a number. -/
inductive SpikeValue
  | int (value : Int64)
  | uint (value : UInt64)
  | float (value : Float)
  | other

/-- What stops an operation. -/
inductive Stop
  | unsupported (message : String)
  | panic

abbrev Result := Except Stop

/-! ### The integers of the host -/

/-- The result in unbounded integers; a division by zero has none. -/
def exactResult (op : ArithmeticOp) (a b : Int) : Option Int :=
  match op with
  | .add => some (a + b)
  | .sub => some (a - b)
  | .mul => some (a * b)
  | .div => if b = 0 then none else some (a.tdiv b)

abbrev InRange (signed : Bool) (width : Nat) (n : Int) : Prop :=
  if signed then -2 ^ (width - 1) ≤ n ∧ n < 2 ^ (width - 1) else 0 ≤ n ∧ n < 2 ^ width

/-- A type of 64 bits, with its values as integers. -/
structure HostInteger (α : Type) where
  signed : Bool
  toInt : α → Int
  ofInt : Int → α
  toInt_ofInt : ∀ {n}, InRange signed 64 n → toInt (ofInt n) = n

def i64 : HostInteger Int64 where
  signed := true
  toInt := Int64.toInt
  ofInt := .ofInt
  toInt_ofInt h := Int64.toInt_ofInt_of_le h.1 h.2

def u64 : HostInteger UInt64 where
  signed := false
  toInt x := x.toNat
  ofInt n := .ofNat n.toNat
  toInt_ofInt {n} h := by
    have hrange : 0 ≤ n ∧ n < 2 ^ 64 := h
    rw [UInt64.toNat_ofNat_of_lt' (by simp only [UInt64.size]; omega)]
    omega

/-- One of the operators `+`, `-`, `*` and `/`, the last one behind the test for zero. -/
def HostInteger.operate {α : Type} (host : HostInteger α) (op : ArithmeticOp) (left right : α) : Result α :=
  match exactResult op (host.toInt left) (host.toInt right) with
  | none => .error (.unsupported "integer division by zero")
  | some n => if InRange host.signed 64 n then .ok (host.ofInt n) else .error .panic

/-! ### The evaluator -/

def isSignedNumeric : NumericType → Bool
  | .i8 | .i16 | .i32 | .i64 | .isize => true
  | _ => false

def isUnsignedNumeric : NumericType → Bool
  | .u8 | .u16 | .u32 | .u64 | .usize => true
  | _ => false

def expectSignedInteger : SpikeValue → Result Int64
  | .int value => .ok value
  | .uint value => .ok value.toInt64
  | _ => .error (.unsupported "expected integer operands")

def expectUnsignedInteger : SpikeValue → Result UInt64
  | .int value => .ok value.toUInt64
  | .uint value => .ok value
  | _ => .error (.unsupported "expected integer operands")

def castSignedInteger (value : Int64) : NumericType → SpikeValue
  | .i8 => .int value.toInt8.toInt64
  | .i16 => .int value.toInt16.toInt64
  | .i32 => .int value.toInt32.toInt64
  | .i64 | .isize => .int value
  | .u8 => .uint value.toUInt64.toUInt8.toUInt64
  | .u16 => .uint value.toUInt64.toUInt16.toUInt64
  | .u32 => .uint value.toUInt64.toUInt32.toUInt64
  | .u64 | .usize => .uint value.toUInt64
  | .f32 => .float value.toFloat32.toFloat
  | .f64 => .float value.toFloat

def castUnsignedInteger (value : UInt64) : NumericType → SpikeValue
  | .u8 => .uint value.toUInt8.toUInt64
  | .u16 => .uint value.toUInt16.toUInt64
  | .u32 => .uint value.toUInt32.toUInt64
  | .u64 | .usize => .uint value
  | .f32 => .float value.toFloat32.toFloat
  | .f64 => .float value.toFloat
  -- the signed types look at the low bits only
  | ty => castSignedInteger value.toInt64 ty

/-- The arms for integers; `others` are those that follow, for floats, texts and anything else. -/
def evalArithmeticValues (others : Ty → SpikeValue → SpikeValue → Result SpikeValue) (op : ArithmeticOp)
    (ty : Ty) (left right : SpikeValue) : Result SpikeValue :=
  match ty, left, right with
  | .int, .int left, .int right => .int <$> i64.operate op left right
  | .numeric numericTy, left, right =>
    if isSignedNumeric numericTy then do
      let left ← expectSignedInteger left
      let right ← expectSignedInteger right
      return castSignedInteger (← i64.operate op left right) numericTy
    else if isUnsignedNumeric numericTy then do
      let left ← expectUnsignedInteger left
      let right ← expectUnsignedInteger right
      return castUnsignedInteger (← u64.operate op left right) numericTy
    else others ty left right
  | ty, left, right => others ty left right

/-! ### What arithmetic of a type is -/

/-- Whether an integer type is signed, and its width. -/
def layout : Ty → Option (Bool × Nat)
  | .int | .numeric .i64 | .numeric .isize => some (true, 64)
  | .numeric .i8 => some (true, 8)
  | .numeric .i16 => some (true, 16)
  | .numeric .i32 => some (true, 32)
  | .numeric .u8 => some (false, 8)
  | .numeric .u16 => some (false, 16)
  | .numeric .u32 => some (false, 32)
  | .numeric .u64 | .numeric .usize => some (false, 64)
  | _ => none

/-- The two's complement of a width. -/
def reduce : (signed : Bool) → (width : Nat) → Int → Int
  | true, width, n => n.bmod (2 ^ width)
  | false, width, n => n % 2 ^ width

/-- Whether an integer value is signed, and the integer. -/
def SpikeValue.integer : SpikeValue → Option (Bool × Int)
  | .int value => some (true, value.toInt)
  | .uint value => some (false, value.toNat)
  | _ => none

/-- The integer that a value stands for as an operand: a value of the other sign is read anew, except for
`int`, which takes its own values only. -/
def SpikeValue.operand (ty : Ty) (signed : Bool) : SpikeValue → Option Int
  | .int value => some (if signed then value.toInt else value.toUInt64.toNat)
  | .uint value => if ty = .int then none else some (if signed then value.toInt64.toInt else value.toNat)
  | _ => none

/-- An error, or the exact result reduced to the type. -/
def Reduced (signed : Bool) (width : Nat) (exact : Option Int) : Result SpikeValue → Prop
  | .ok value => ∃ n, exact = some n ∧ value.integer = some (signed, reduce signed width n)
  | .error (.unsupported _) => True
  | .error .panic => False

variable {signed : Bool} {width : Nat} {a b : Int} {op : ArithmeticOp} {ty : Ty}

/-- The cast brings what the host has computed to the type. -/
theorem reduced_iff {α : Type} (host : HostInteger α) {cast : α → SpikeValue} (left right : α)
    (hcast : ∀ x, (cast x).integer = some (host.signed, reduce host.signed width (host.toInt x))) :
    Reduced host.signed width (exactResult op (host.toInt left) (host.toInt right))
        (cast <$> host.operate op left right) ↔
      ∀ n, exactResult op (host.toInt left) (host.toInt right) = some n → InRange host.signed 64 n := by
  unfold HostInteger.operate
  cases hexact : exactResult op (host.toInt left) (host.toInt right) with
  | none => simp [Reduced]
  | some n =>
    by_cases hfit : InRange host.signed 64 n
    · simp only [if_pos hfit]
      simpa [Reduced, hcast, host.toInt_ofInt hfit] using hfit
    · simp only [if_neg hfit]
      simpa [Reduced] using hfit

variable {others : Ty → SpikeValue → SpikeValue → Result SpikeValue} {left right : SpikeValue}

theorem expectSignedInteger_of_operand (h : left.operand ty true = some a) :
    ∃ x, expectSignedInteger left = .ok x ∧ x.toInt = a := by
  cases left with
  | int value =>
    cases h
    exact ⟨value, rfl, rfl⟩
  | uint value =>
    obtain ⟨-, h⟩ := Option.ite_none_left_eq_some.1 h
    cases h
    exact ⟨value.toInt64, rfl, rfl⟩
  | _ => cases h

theorem expectUnsignedInteger_of_operand (h : left.operand ty false = some a) :
    ∃ x, expectUnsignedInteger left = .ok x ∧ (x.toNat : Int) = a := by
  cases left with
  | int value =>
    cases h
    exact ⟨value.toUInt64, rfl, rfl⟩
  | uint value =>
    obtain ⟨-, h⟩ := Option.ite_none_left_eq_some.1 h
    cases h
    exact ⟨value, rfl, rfl⟩
  | _ => cases h

/-- On operands of an integer type the evaluator gives an error or the reduced result exactly if the exact
result is one of 64 bits, signed or unsigned as the type is. -/
theorem evalArithmeticValues_reduced_iff (hlayout : layout ty = some (signed, width))
    (hleft : left.operand ty signed = some a) (hright : right.operand ty signed = some b) :
    Reduced signed width (exactResult op a b) (evalArithmeticValues others op ty left right) ↔
      ∀ n, exactResult op a b = some n → InRange signed 64 n := by
  cases ty with
  | int =>
    cases hlayout
    cases left with
    | int l =>
      cases hleft
      cases right with
      | int r =>
        cases hright
        exact reduced_iff i64 l r fun x => by simp [SpikeValue.integer, reduce, i64]
      | _ => cases hright
    | _ => cases hleft
  | numeric numericTy =>
    cases signed with
    | true =>
      have hcast : ∀ x, (castSignedInteger x numericTy).integer =
          some (true, reduce true width x.toInt) := by
        intro x
        cases numericTy <;> cases hlayout <;> simp [castSignedInteger, SpikeValue.integer, reduce]
      obtain ⟨l, hl, rfl⟩ := expectSignedInteger_of_operand hleft
      obtain ⟨r, hr, rfl⟩ := expectSignedInteger_of_operand hright
      have hsigned : isSignedNumeric numericTy = true := by cases numericTy <;> cases hlayout <;> rfl
      have heval : evalArithmeticValues others op (.numeric numericTy) left right =
          (castSignedInteger · numericTy) <$> i64.operate op l r := by
        simp [evalArithmeticValues, hsigned, hl, hr, bind, Except.bind]
        rfl
      rw [heval]
      exact reduced_iff i64 l r hcast
    | false =>
      have hcast : ∀ x, (castUnsignedInteger x numericTy).integer =
          some (false, reduce false width x.toNat) := by
        intro x
        have hx := x.toNat_lt
        cases numericTy <;> cases hlayout <;> simp [castUnsignedInteger, SpikeValue.integer, reduce] <;>
          omega
      obtain ⟨l, hl, rfl⟩ := expectUnsignedInteger_of_operand hleft
      obtain ⟨r, hr, rfl⟩ := expectUnsignedInteger_of_operand hright
      have hunsigned : isSignedNumeric numericTy = false ∧ isUnsignedNumeric numericTy = true := by
        cases numericTy <;> cases hlayout <;> exact ⟨rfl, rfl⟩
      have heval : evalArithmeticValues others op (.numeric numericTy) left right =
          (castUnsignedInteger · numericTy) <$> u64.operate op l r := by
        simp [evalArithmeticValues, hunsigned, hl, hr, bind, Except.bind]
        rfl
      rw [heval]
      exact reduced_iff u64 l r hcast
  | _ => cases hlayout

/-- `200 + 100` in `u8`, the second operand signed. -/
theorem evalArithmeticValues_reduced_u8 : Reduced false 8 (exactResult .add 200 100)
    (evalArithmeticValues (fun _ _ _ => .ok .other) .add (.numeric .u8) (.uint 200) (.int 100)) := by
  refine (evalArithmeticValues_reduced_iff rfl rfl rfl).2 fun n hn => ?_
  cases hn
  decide

/-- The smallest `int` divided by -1, and 0 minus 1 in an unsigned type. -/
theorem evalArithmeticValues_panics :
    evalArithmeticValues (fun _ _ _ => .ok .other) .div .int (.int Int64.minValue) (.int (-1)) =
        .error .panic ∧
      evalArithmeticValues (fun _ _ _ => .ok .other) .sub (.numeric .u8) (.uint 0) (.uint 1) =
        .error .panic :=
  ⟨rfl, rfl⟩

end Axiomc.Evaluator
