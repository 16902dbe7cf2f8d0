import Restack.Bytes

set_option autoImplicit false

namespace Restack

namespace ModifiedUtf8

def threeBytes (unit : UInt32) : Bytes :=
  [(unit >>> 12).toUInt8 ||| 0xe0, (unit >>> 6 &&& 0x3f).toUInt8 ||| 0x80,
    (unit &&& 0x3f).toUInt8 ||| 0x80]

def encodeChar (c : Char) : Bytes :=
  let x := c.val
  if x = 0 then [0xc0, 0x80]
  else if x < 0x80 then [x.toUInt8]
  else if x < 0x800 then [(x >>> 6).toUInt8 ||| 0xc0, (x &&& 0x3f).toUInt8 ||| 0x80]
  else if x < 0x10000 then threeBytes x
  else
    let y := x - 0x10000
    threeBytes (y >>> 10 ||| 0xd800) ++ threeBytes (y &&& 0x3ff ||| 0xdc00)

def encode (s : String) : Bytes := s.toList.flatMap encodeChar

def tail? (b : UInt8) : Option Nat := if 0x80 ≤ b ∧ b < 0xc0 then some (b.toNat - 0x80) else none

/-- A 16-bit unit of one, two or three bytes from the front. -/
def readUnit : Bytes → Option (Nat × Bytes)
  | [] => none
  | a :: rest =>
    if a < 0x80 then some (a.toNat, rest)
    else if 0xc0 ≤ a ∧ a < 0xe0 then
      match rest with
      | b :: rest => do return ((a.toNat - 0xc0) * 64 + (← tail? b), rest)
      | [] => none
    else if 0xe0 ≤ a ∧ a < 0xf0 then
      match rest with
      | b :: c :: rest => do return ((a.toNat - 0xe0) * 4096 + (← tail? b) * 64 + (← tail? c), rest)
      | _ => none
    else none

/-- A character from the front: one unit, or the two surrogates of a character beyond the basic
plane. -/
def readChar (bytes : Bytes) : Option (Char × Bytes) := do
  let (unit, bytes) ← readUnit bytes
  if 0xd800 ≤ unit ∧ unit < 0xdc00 then
    let (low, bytes) ← readUnit bytes
    if 0xdc00 ≤ low ∧ low < 0xe000 then
      return (Char.ofNat (0x10000 + (unit - 0xd800) * 1024 + (low - 0xdc00)), bytes)
    else none
  else return (Char.ofNat unit, bytes)

def readChars (bytes : Bytes) : Option (List Char) :=
  if bytes = [] then some []
  else do
    let (c, rest) ← readChar bytes
    if rest.length < bytes.length then
      return c :: (← readChars rest)
    else none
termination_by bytes.length

def decode (bytes : Bytes) : Option String := (readChars bytes).map String.ofList

theorem tail?_marked {n : Nat} (small : n < 64) : tail? (n.toUInt8 ||| 0x80) = some n := by
  have all : ∀ n : Fin 64, tail? (n.val.toUInt8 ||| 0x80) = some n.val := by decide
  exact all ⟨n, small⟩

theorem holds_two {high low : Nat} (fits : high < 32) (small : low < 64) :
    Bytes.Holds readUnit [high.toUInt8 ||| 0xc0, low.toUInt8 ||| 0x80] (high * 64 + low) := by
  intro rest
  have all : ∀ n : Fin 32, let a := n.val.toUInt8 ||| 0xc0
      ¬ a < 0x80 ∧ (0xc0 ≤ a ∧ a < 0xe0) ∧ a.toNat - 0xc0 = n.val := by decide
  obtain ⟨more, mark, value⟩ := all ⟨high, fits⟩
  simp only [List.cons_append, List.nil_append]
  rw [readUnit, if_neg more, if_pos mark, value]
  simp [tail?_marked small]

theorem holds_three {high middle low : Nat} (fits : high < 16) (small : middle < 64)
    (small' : low < 64) :
    Bytes.Holds readUnit [high.toUInt8 ||| 0xe0, middle.toUInt8 ||| 0x80, low.toUInt8 ||| 0x80]
      (high * 4096 + middle * 64 + low) := by
  intro rest
  have all : ∀ n : Fin 16, let a := n.val.toUInt8 ||| 0xe0
      ¬ a < 0x80 ∧ ¬ (0xc0 ≤ a ∧ a < 0xe0) ∧ (0xe0 ≤ a ∧ a < 0xf0) ∧ a.toNat - 0xe0 = n.val := by
        decide
  obtain ⟨more, other, mark, value⟩ := all ⟨high, fits⟩
  simp only [List.cons_append, List.nil_append]
  rw [readUnit, if_neg more, if_neg other, if_pos mark, value]
  simp [tail?_marked small, tail?_marked small']

theorem toUInt8_high (x : UInt32) : (x >>> 12).toUInt8 = (x.toNat / 4096).toUInt8 := by
  apply UInt8.toNat_inj.1
  simp [Nat.shiftRight_eq_div_pow]

theorem toUInt8_middle (x : UInt32) : (x >>> 6 &&& 0x3f).toUInt8 = (x.toNat / 64 % 64).toUInt8 := by
  apply UInt8.toNat_inj.1
  have mask (n : Nat) : n &&& 63 = n % 64 := Nat.and_two_pow_sub_one_eq_mod n 6
  simp [Nat.shiftRight_eq_div_pow, mask]
  omega

theorem toUInt8_low (x : UInt32) : (x &&& 0x3f).toUInt8 = (x.toNat % 64).toUInt8 := by
  apply UInt8.toNat_inj.1
  have mask (n : Nat) : n &&& 63 = n % 64 := Nat.and_two_pow_sub_one_eq_mod n 6
  simp [mask]
  omega

theorem toUInt8_upper (x : UInt32) : (x >>> 6).toUInt8 = (x.toNat / 64).toUInt8 := by
  apply UInt8.toNat_inj.1
  simp [Nat.shiftRight_eq_div_pow]

theorem holds_threeBytes {unit : UInt32} (small : unit.toNat < 65536) :
    Bytes.Holds readUnit (threeBytes unit) unit.toNat := by
  have parts : unit.toNat / 4096 * 4096 + unit.toNat / 64 % 64 * 64 + unit.toNat % 64 =
      unit.toNat := by omega
  have read : Bytes.Holds readUnit _
      (unit.toNat / 4096 * 4096 + unit.toNat / 64 % 64 * 64 + unit.toNat % 64) :=
    holds_three (by omega) (by omega) (by omega)
  rw [parts] at read
  rwa [threeBytes, toUInt8_high, toUInt8_middle, toUInt8_low]

theorem toNat_surrogate (bits : UInt32) (small : bits.toNat < 1024) :
    (bits ||| 0xd800).toNat = 0xd800 + bits.toNat ∧
    (bits ||| 0xdc00).toNat = 0xdc00 + bits.toNat := by
  have high : 0xd800 + bits.toNat = 0xd800 ||| bits.toNat :=
    Nat.two_pow_add_eq_or_of_lt (i := 10) small 54
  have low : 0xdc00 + bits.toNat = 0xdc00 ||| bits.toNat :=
    Nat.two_pow_add_eq_or_of_lt (i := 10) small 55
  rw [UInt32.toNat_or, UInt32.toNat_or, high, low, Nat.or_comm, Nat.or_comm bits.toNat]
  exact ⟨rfl, rfl⟩

theorem readChar_unit {part : Bytes} {c : Char} (read : Bytes.Holds readUnit part c.toNat) :
    Bytes.Holds readChar part c := by
  intro rest
  have valid : c.toNat < 0xd800 ∨ 0xdfff < c.toNat ∧ c.toNat < 0x110000 := c.valid
  rw [readChar, read]
  simp only [Option.bind_eq_bind, Option.bind_some]
  rw [if_neg (by omega), Char.ofNat_toNat]
  rfl

theorem readChar_pair {c : Char} (beyond : 0x10000 ≤ c.toNat) :
    let y := c.val - 0x10000
    Bytes.Holds readChar
      (threeBytes (y >>> 10 ||| 0xd800) ++ threeBytes (y &&& 0x3ff ||| 0xdc00)) c := by
  intro y rest
  have valid : c.toNat < 0xd800 ∨ 0xdfff < c.toNat ∧ c.toNat < 0x110000 := c.valid
  have above : y.toNat = c.toNat - 0x10000 := UInt32.toNat_sub_of_le _ _ beyond
  have mask (n : Nat) : n &&& 1023 = n % 1024 := Nat.and_two_pow_sub_one_eq_mod n 10
  have high : (y >>> 10).toNat = y.toNat / 1024 := by simp [Nat.shiftRight_eq_div_pow]
  have low : (y &&& 0x3ff).toNat = y.toNat % 1024 := by simp [mask]
  have high_unit := (toNat_surrogate (y >>> 10) (by omega)).1
  have low_unit := (toNat_surrogate (y &&& 0x3ff) (by omega)).2
  rw [readChar, List.append_assoc, holds_threeBytes (by omega), high_unit]
  simp only [Option.bind_eq_bind, Option.bind_some]
  rw [if_pos (by omega), holds_threeBytes (by omega), low_unit]
  simp only [Option.bind_some]
  have whole : 0x10000 + (0xd800 + (y >>> 10).toNat - 0xd800) * 1024 +
      (0xdc00 + (y &&& 0x3ff).toNat - 0xdc00) =
      c.toNat := by omega
  rw [if_pos (by omega), whole, Char.ofNat_toNat]
  rfl

theorem readChar_encodeChar (c : Char) : Bytes.Holds readChar (encodeChar c) c := by
  have number : c.val.toNat = c.toNat := rfl
  unfold encodeChar
  simp only [UInt32.lt_iff_toNat_lt, ← UInt32.toNat_inj, number, UInt32.reduceToNat]
  split
  case isTrue zero =>
    apply readChar_unit
    rw [zero]
    exact fun rest => rfl
  case isFalse =>
    split
    case isTrue small =>
      apply readChar_unit
      intro rest
      have byte : c.val.toUInt8.toNat = c.toNat := by
        rw [UInt32.toNat_toUInt8, number]
        omega
      have alone : c.val.toUInt8 < 0x80 := by
        rw [UInt8.lt_iff_toNat_lt, byte]
        exact small
      rw [List.singleton_append, readUnit.eq_def]
      simp only [alone, if_true, byte]
    case isFalse =>
      split
      case isTrue small =>
        apply readChar_unit
        have read : Bytes.Holds readUnit _ (c.toNat / 64 * 64 + c.toNat % 64) :=
          holds_two (by omega) (by omega)
        rw [Nat.div_add_mod'] at read
        rwa [toUInt8_upper, toUInt8_low]
      case isFalse =>
        split
        case isTrue small => exact readChar_unit (holds_threeBytes small)
        case isFalse beyond => exact readChar_pair (Nat.le_of_not_lt beyond)

theorem encodeChar_ne_nil (c : Char) : encodeChar c ≠ [] := by
  unfold encodeChar threeBytes
  simp only
  repeat' split
  all_goals simp

theorem readChars_encode (cs : List Char) : readChars (cs.flatMap encodeChar) = some cs := by
  induction cs with
  | nil => simp [readChars]
  | cons c cs ih =>
    have some_bytes := List.length_pos_iff.2 (encodeChar_ne_nil c)
    rw [List.flatMap_cons, readChars, if_neg (by simp [encodeChar_ne_nil]), readChar_encodeChar c]
    simp only [Option.bind_eq_bind, Option.bind_some]
    rw [if_pos (by rw [List.length_append]; omega), ih]
    rfl

@[simp] theorem decode_encode (s : String) : decode (encode s) = some s := by
  rw [decode, encode, readChars_encode, Option.map_some, String.ofList_toList]

theorem encode_of_plain {s : String} (plain : ∀ c ∈ s.toList, 0 < c.val ∧ c.val < 0x80) :
    encode s = s.toList.map fun c => c.val.toUInt8 := by
  have each : s.toList.map encodeChar = s.toList.map fun c => [c.val.toUInt8] := by
    apply List.map_congr_left
    intro c member
    obtain ⟨some_bits, small⟩ := plain c member
    rw [encodeChar, if_neg (UInt32.pos_iff_ne_zero.1 some_bits), if_pos small]
  rw [encode, List.flatMap_def, each, ← List.flatMap_def, List.map_eq_flatMap]

end ModifiedUtf8

end Restack
