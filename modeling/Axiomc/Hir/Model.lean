import Mathlib.Data.List.Basic

/-!
# Types, operators and definitions of the compiler

* `Ty`: the types, with the structural equality of the source (array lengths included) as a decidable
  equality;
* `typeAssignableTo`: the comparison in which `never` and `error` fit everywhere;
* the operators, and the definitions of structures and enumerations that the later passes carry.
-/

namespace Axiomc.Hir

/-! ### Types -/

inductive NumericType
  | i8 | i16 | i32 | i64 | isize | u8 | u16 | u32 | u64 | usize | f32 | f64
  deriving DecidableEq

/-- `hir::Type`. -/
inductive Ty
  | error | never | int
  | numeric (ty : NumericType)
  | bool | string | str
  | struct (name : String)
  | enum (name : String)
  | ptr (inner : Ty)
  | mutPtr (inner : Ty)
  | mutRef (inner : Ty)
  | slice (inner : Ty)
  | mutSlice (inner : Ty)
  | option (inner : Ty)
  | result (ok err : Ty)
  | tuple (elements : List Ty)
  | map (key value : Ty)
  | array (inner : Ty) (len : Option Nat)
  | task (inner : Ty)
  | joinHandle (inner : Ty)
  | asyncChannel (inner : Ty)
  | selectResult (inner : Ty)
  | fn (params : List Ty) (returnTy : Ty)
  deriving Inhabited

namespace Ty

mutual

/-- `PartialEq for Type`. -/
def beq : Ty → Ty → Bool
  | .error, .error | .never, .never | .int, .int | .bool, .bool | .string, .string
  | .str, .str => true
  | .numeric a, .numeric b => a = b
  | .struct a, .struct b | .enum a, .enum b => a = b
  | .ptr a, .ptr b | .mutPtr a, .mutPtr b | .mutRef a, .mutRef b | .slice a, .slice b
  | .mutSlice a, .mutSlice b | .option a, .option b | .task a, .task b
  | .joinHandle a, .joinHandle b | .asyncChannel a, .asyncChannel b
  | .selectResult a, .selectResult b => beq a b
  | .result a c, .result b d | .map a c, .map b d => beq a b && beq c d
  | .tuple a, .tuple b => beqAll a b
  | .array a m, .array b n => beq a b && m = n
  | .fn a c, .fn b d => beqAll a b && beq c d
  | _, _ => false

def beqAll : List Ty → List Ty → Bool
  | [], [] => true
  | a :: as, b :: bs => beq a b && beqAll as bs
  | _, _ => false

end

mutual

theorem beq_refl : ∀ a : Ty, beq a a = true
  | .error | .never | .int | .bool | .string | .str => rfl
  | .numeric a | .struct a | .enum a => by simp [beq]
  | .ptr a | .mutPtr a | .mutRef a | .slice a | .mutSlice a | .option a | .task a
  | .joinHandle a | .asyncChannel a | .selectResult a => by simp [beq, beq_refl a]
  | .result a b | .map a b => by simp [beq, beq_refl a, beq_refl b]
  | .tuple as => by simp [beq, beqAll_refl as]
  | .array a n => by simp [beq, beq_refl a]
  | .fn as b => by simp [beq, beqAll_refl as, beq_refl b]

theorem beqAll_refl : ∀ as : List Ty, beqAll as as = true
  | [] => rfl
  | a :: as => by simp [beqAll, beq_refl a, beqAll_refl as]

end

mutual

theorem eq_of_beq : ∀ {a b : Ty}, beq a b = true → a = b
  | .error, b, h | .never, b, h | .int, b, h | .bool, b, h | .string, b, h | .str, b, h => by
    cases b <;> first | rfl | nomatch h
  | .numeric a, b, h | .struct a, b, h | .enum a, b, h => by
    cases b <;> first | exact congrArg _ (of_decide_eq_true h) | nomatch h
  | .ptr a, b, h | .mutPtr a, b, h | .mutRef a, b, h | .slice a, b, h | .mutSlice a, b, h
  | .option a, b, h | .task a, b, h | .joinHandle a, b, h | .asyncChannel a, b, h
  | .selectResult a, b, h => by
    cases b <;> first | exact congrArg _ (eq_of_beq h) | nomatch h
  | .result a c, b, h | .map a c, b, h => by
    cases b <;> first
      | exact congrArg₂ _ (eq_of_beq (Bool.and_eq_true_iff.1 h).1)
          (eq_of_beq (Bool.and_eq_true_iff.1 h).2)
      | nomatch h
  | .tuple as, b, h => by
    cases b <;> first | exact congrArg _ (eq_of_beqAll h) | nomatch h
  | .array a n, b, h => by
    cases b <;> first
      | exact congrArg₂ _ (eq_of_beq (Bool.and_eq_true_iff.1 h).1)
          (of_decide_eq_true (Bool.and_eq_true_iff.1 h).2)
      | nomatch h
  | .fn as c, b, h => by
    cases b <;> first
      | exact congrArg₂ _ (eq_of_beqAll (Bool.and_eq_true_iff.1 h).1)
          (eq_of_beq (Bool.and_eq_true_iff.1 h).2)
      | nomatch h

theorem eq_of_beqAll : ∀ {as bs : List Ty}, beqAll as bs = true → as = bs
  | [], [], _ => rfl
  | _ :: _, _ :: _, h =>
    congrArg₂ _ (eq_of_beq (Bool.and_eq_true_iff.1 h).1) (eq_of_beqAll (Bool.and_eq_true_iff.1 h).2)

end

instance : DecidableEq Ty := fun a b =>
  if h : beq a b = true then isTrue (eq_of_beq h) else isFalse fun e => h (e ▸ beq_refl a)

end Ty

mutual

/-- Whether a value of type `actual` may be stored where `expected` is wanted. -/
def typeAssignableTo : Ty → Ty → Bool
  | .never, _ => true
  | _, .error => true
  | .error, _ => true
  | .array a m, .array e n =>
    typeAssignableTo a e && (match n with | some len => m = some len | none => true)
  | .ptr a, .ptr e | .mutPtr a, .mutPtr e | .mutRef a, .mutRef e | .slice a, .slice e
  | .mutSlice a, .mutSlice e | .option a, .option e | .task a, .task e
  | .joinHandle a, .joinHandle e | .asyncChannel a, .asyncChannel e
  | .selectResult a, .selectResult e => typeAssignableTo a e
  | .result a b, .result c d | .map a b, .map c d => typeAssignableTo a c && typeAssignableTo b d
  | .tuple as, .tuple es => typesAssignableTo as es
  | .fn as a, .fn es e => typesAssignableTo as es && typeAssignableTo a e
  | actual, expected => actual = expected

/-- Pointwise assignability of two lists of the same length. -/
def typesAssignableTo : List Ty → List Ty → Bool
  | [], [] => true
  | a :: as, e :: es => typeAssignableTo a e && typesAssignableTo as es
  | _, _ => false

end

/-! ### Operators and definitions -/

inductive CompareOp
  | eq | ne | lt | le | gt | ge
  deriving DecidableEq

inductive LogicOp
  | and | or
  deriving DecidableEq

inductive ArithmeticOp
  | add | sub | mul | div
  deriving DecidableEq

structure Param where
  name : String
  ty : Ty

/-- An arm of a match expression, over the type of its result expression. -/
structure MatchExprArmOf (ε : Type) where
  enumName : String
  variant : String
  bindings : List String
  isNamed : Bool
  expr : ε

/-- An arm of a match statement, over the type of its body. -/
structure MatchArmOf (β : Type) where
  enumName : String
  variant : String
  bindings : List String
  isNamed : Bool
  ignorePayloads : Bool
  body : β

structure StructField where
  name : String
  ty : Ty

structure StructDef where
  name : String
  fields : List StructField

structure EnumVariantDef where
  name : String
  payloadTys : List Ty
  payloadNames : List String

structure EnumDef where
  name : String
  variants : List EnumVariantDef

end Axiomc.Hir
