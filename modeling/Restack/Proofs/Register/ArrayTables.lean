import Restack.Proofs.Literal.Encodings
import Restack.Selection.Select

set_option autoImplicit false

namespace Restack

namespace Register

inductive Primitive where
  | byte | boolean | short | char | int | float | long | double
deriving DecidableEq, Repr

namespace Primitive

def descriptor : Primitive → String
  | byte => "B"
  | boolean => "Z"
  | short => "S"
  | char => "C"
  | int => "I"
  | float => "F"
  | long => "J"
  | double => "D"

def width : Primitive → UInt16
  | byte | boolean => 1
  | short | char => 2
  | int | float => 4
  | long | double => 8

def kinds : Primitive → Kinds
  | byte | boolean | short | char | int => .ofInt
  | float => .ofFloat
  | long => .ofLong
  | double => .ofDouble

end Primitive

/-- An element of an array; floating-point numbers are bit patterns. -/
inductive Element where
  | byte (x : Int8)
  | boolean (b : Bool)
  | short (x : Int16)
  | char (x : UInt16)
  | int (x : Int32)
  | float (bits : UInt32)
  | long (x : Int64)
  | double (bits : UInt64)
deriving DecidableEq, Repr

namespace Element

def type : Element → Primitive
  | byte _ => .byte
  | boolean _ => .boolean
  | short _ => .short
  | char _ => .char
  | int _ => .int
  | float _ => .float
  | long _ => .long
  | double _ => .double

def bits : Element → Nat
  | byte x => x.toUInt8.toNat
  | boolean b => b.toNat
  | short x => x.toUInt16.toNat
  | char x => x.toNat
  | int x => x.toUInt32.toNat
  | float bits => bits.toNat
  | long x => x.toUInt64.toNat
  | double bits => bits.toNat

/-- What the element is on the operand stack. All NaNs are one. -/
def number : Element → Number
  | byte x => .int x.toInt32
  | boolean b => .int (if b then 1 else 0)
  | short x => .int x.toInt32
  | char x => .int x.toUInt32.toInt32
  | int x => .int x
  | float bits => .float (FloatFormat.single.datum bits.toNat)
  | long x => .long x
  | double bits => .double (FloatFormat.double.datum bits.toNat)

end Element

end Register

namespace ArrayData

open Register (Primitive Element)

def bytesOf : (width : Nat) → Nat → Bytes
  | 0, _ => []
  | width + 1, n => n.toUInt8 :: bytesOf width (n / 256)

@[simp] theorem length_bytesOf (width n : Nat) : (bytesOf width n).length = width := by
  induction width generalizing n with
  | zero => rfl
  | succ width ih => rw [bytesOf, List.length_cons, ih]

theorem littleEndian_bytesOf (width n : Nat) :
    littleEndian (bytesOf width n) = n % 256 ^ width := by
  induction width generalizing n with
  | zero => rw [Nat.pow_zero, Nat.mod_one, bytesOf, littleEndian]
  | succ width ih =>
    rw [bytesOf, littleEndian, ih, Nat.pow_succ', Nat.mod_mul]
    simp

def table (type : Primitive) (values : List Element) : Bytes :=
  values.flatMap fun v => bytesOf type.width.toNat v.bits

theorem readAll_table (type : Primitive) (values : List Element)
    (small : ∀ v ∈ values, v.bits < 256 ^ type.width.toNat) (index : Nat) (acc : Array Nat) :
    readAll type.width.toNat values.length index (table type values) acc =
      .ok (acc ++ (values.map Element.bits).toArray) := by
  induction values generalizing index acc with
  | nil => simp [readAll]
  | cons v values ih =>
    obtain ⟨fits, small⟩ := List.forall_mem_cons.1 small
    have first : (table type (v :: values)).take type.width.toNat =
        bytesOf type.width.toNat v.bits :=
      List.take_left' (length_bytesOf _ _)
    have rest : (table type (v :: values)).drop type.width.toNat = table type values :=
      List.drop_left' (length_bytesOf _ _)
    rw [List.length_cons, readAll]
    simp only [first, rest, length_bytesOf, Nat.lt_irrefl, if_false, ih small, littleEndian_bytesOf,
      Nat.mod_eq_of_lt fits]
    simp

theorem bits_lt (v : Element) : v.bits < 256 ^ v.type.width.toNat := by
  cases v with
  | boolean b => cases b <;> decide
  | byte x => exact x.toUInt8.toNat_lt
  | short x => exact x.toUInt16.toNat_lt
  | char x => exact x.toNat_lt
  | int x => exact x.toUInt32.toNat_lt
  | float bits => exact bits.toNat_lt
  | long x => exact x.toUInt64.toNat_lt
  | double bits => exact bits.toNat_lt

def ofElements (type : Primitive) (values : List Element) : ArrayData :=
  if type.width = 8 then .wide (values.map fun v => (UInt64.ofNat v.bits).toInt64)
  else .narrow (values.map fun v => (UInt32.ofNat v.bits).toInt32)

theorem parse_table (type : Primitive) (values : List Element)
    (typed : ∀ v ∈ values, v.type = type) :
    parse type.width values.length (table type values) = .ok (ofElements type values) := by
  have read := readAll_table type values (fun v member => typed v member ▸ bits_lt v) 0 #[]
  have widths : type.width = 8 ∨ type.width ≠ 8 ∧
      (type.width = 1 ∨ type.width = 2 ∨ type.width = 4) := by
    cases type <;> decide
  unfold parse ofElements
  rcases widths with wide | ⟨other, narrow⟩
  · rw [wide] at read ⊢
    change readAll 8 _ _ _ _ = _ at read
    simp [read, bind, Except.bind, pure, Except.pure, Function.comp_def]
  · rw [if_pos narrow, if_neg other, read]
    simp [bind, Except.bind, pure, Except.pure, Function.comp_def]

theorem signExtend_setWidth {n : Nat} (le : n ≤ 32) (b : BitVec n) :
    (b.setWidth 32).signExtend n = b := by
  rw [BitVec.signExtend_eq_setWidth_of_le _ le, BitVec.setWidth_setWidth_of_le _ le,
    BitVec.setWidth_eq]

theorem number_narrow (v : Element) (narrow : v.type.width ≠ 8) : Literal.number v.type.kinds
    (Register.signExtend v.type.descriptor (UInt32.ofNat v.bits).toInt32).toInt64 = v.number := by
  have number_int (x : Int32) : Literal.number .ofInt x.toInt64 = .int x :=
    congrArg Number.int x.toInt32_toInt64
  cases v with
  | byte x =>
    have read : (UInt32.ofNat x.toUInt8.toNat).toInt32.toInt8 = x := by
      rw [← Int8.toBitVec_inj]
      simpa using signExtend_setWidth (by decide) x.toBitVec
    exact (number_int _).trans (congrArg (fun x => Number.int x.toInt32) read)
  | boolean b => cases b <;> rfl
  | short x =>
    have read : (UInt32.ofNat x.toUInt16.toNat).toInt32.toInt16 = x := by
      rw [← Int16.toBitVec_inj]
      simpa using signExtend_setWidth (by decide) x.toBitVec
    exact (number_int _).trans (congrArg (fun x => Number.int x.toInt32) read)
  | char x =>
    have read : UInt32.ofNat x.toNat = x.toUInt32 := by simp
    exact (number_int _).trans (congrArg (fun x => Number.int x.toInt32) read)
  | int x =>
    have read : (UInt32.ofNat x.toUInt32.toNat).toInt32 = x := by simp
    exact (number_int _).trans (congrArg Number.int read)
  | float bits =>
    have read : (UInt32.ofNat bits.toNat).toInt32.toInt64.toUInt64.toUInt32 = bits := by
      rw [Literal.toUInt32_extended, UInt32.ofNat_toNat]
    exact congrArg (fun bits => Number.float (FloatFormat.single.datum bits.toNat)) read
  | long | double => exact absurd rfl narrow

theorem number_wide (v : Element) (wide : v.type.width = 8) :
    Literal.number v.type.kinds (UInt64.ofNat v.bits).toInt64 = v.number := by
  cases v with
  | long x =>
    have read : (UInt64.ofNat x.toUInt64.toNat).toInt64 = x := by simp
    exact congrArg Number.long read
  | double bits =>
    have read : (UInt64.ofNat bits.toNat).toInt64.toUInt64 = bits := by simp
    exact congrArg (fun bits => Number.double (FloatFormat.double.datum bits.toNat)) read
  | _ => cases wide

end ArrayData

end Restack
