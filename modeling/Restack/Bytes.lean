set_option autoImplicit false

namespace Restack

abbrev Bytes := List UInt8

namespace Bytes

def ofUInt16 (x : UInt16) : Bytes := [(x >>> 8).toUInt8, x.toUInt8]

def ofUInt32 (x : UInt32) : Bytes :=
  [(x >>> 24).toUInt8, (x >>> 16).toUInt8, (x >>> 8).toUInt8, x.toUInt8]

def ofUInt64 (x : UInt64) : Bytes :=
  ofUInt32 (x >>> 32).toUInt32 ++ ofUInt32 x.toUInt32

@[simp] theorem ofUInt16_length (x : UInt16) : (ofUInt16 x).length = 2 := rfl

@[simp] theorem ofUInt32_length (x : UInt32) : (ofUInt32 x).length = 4 := rfl

@[simp] theorem ofUInt64_length (x : UInt64) : (ofUInt64 x).length = 8 := rfl

def opWithIndex (op : UInt8) (index : UInt16) : Bytes := op :: ofUInt16 index

@[simp] theorem opWithIndex_length (op : UInt8) (index : UInt16) :
    (opWithIndex op index).length = 3 := rfl

/-- Bytes from which a value is read, whatever stands behind them. -/
def Holds {α : Type} (read : Bytes → Option (α × Bytes)) (part : Bytes) (x : α) : Prop :=
  ∀ rest, read (part ++ rest) = some (x, rest)

end Bytes

def hexByte (b : UInt8) : String :=
  let digits := Nat.toDigits 16 b.toNat
  String.ofList (if b < 16 then '0' :: digits else digits)

end Restack
