import Mathlib.Algebra.GroupWithZero.Nat
import Restack.Bytes

set_option autoImplicit false

namespace Restack.Bytes

variable {code : Bytes}

def number (bytes : Bytes) : Nat := bytes.foldl (fun n b => 256 * n + b.toNat) 0

def cut (size : Nat) (bytes : Bytes) : Option (Bytes × Bytes) :=
  if size ≤ bytes.length then some (bytes.take size, bytes.drop size) else none

def word (size : Nat) (bytes : Bytes) : Option (Nat × Bytes) :=
  (cut size bytes).map fun (front, rest) => (number front, rest)

theorem cut_append (front rest : Bytes) :
    cut front.length (front ++ rest) = some (front, rest) := by
  simp [cut]

theorem word_append (front rest : Bytes) :
    word front.length (front ++ rest) = some (number front, rest) := by
  rw [word, cut_append, Option.map_some]

theorem number_ofUInt16 (x : UInt16) : number (ofUInt16 x) = x.toNat := by
  have bound := x.toNat_lt
  simp only [number, ofUInt16, List.foldl_cons, List.foldl_nil, UInt16.toNat_toUInt8,
    UInt16.toNat_shiftRight,
    Nat.shiftRight_eq_div_pow, UInt16.reduceToNat, Nat.reduceMod, Nat.reducePow]
  omega

theorem number_ofUInt32 (x : UInt32) : number (ofUInt32 x) = x.toNat := by
  have bound := x.toNat_lt
  simp only [number, ofUInt32, List.foldl_cons, List.foldl_nil, UInt32.toNat_toUInt8,
    UInt32.toNat_shiftRight,
    Nat.shiftRight_eq_div_pow, UInt32.reduceToNat, Nat.reduceMod, Nat.reducePow]
  omega

theorem number_ofUInt64 (x : UInt64) : number (ofUInt64 x) = x.toNat := by
  have bound := x.toNat_lt
  have high := number_ofUInt32 (x >>> 32).toUInt32
  have low := number_ofUInt32 x.toUInt32
  have both : number (ofUInt64 x) = 4294967296 * number (ofUInt32 (x >>> 32).toUInt32) +
      number (ofUInt32 x.toUInt32) := by
    simp only [number, ofUInt64, ofUInt32, List.cons_append, List.nil_append, List.foldl_cons,
      List.foldl_nil]
    omega
  rw [both, high, low]
  simp only [UInt64.toNat_toUInt32, UInt64.toNat_shiftRight, Nat.shiftRight_eq_div_pow,
    UInt64.reduceToNat, Nat.reduceMod, Nat.reducePow]
  omega

theorem word_ofUInt16 (x : UInt16) (rest : Bytes) :
    word 2 (ofUInt16 x ++ rest) = some (x.toNat, rest) := by
  rw [← number_ofUInt16]
  exact word_append (ofUInt16 x) rest

theorem word_ofUInt32 (x : UInt32) (rest : Bytes) :
    word 4 (ofUInt32 x ++ rest) = some (x.toNat, rest) := by
  rw [← number_ofUInt32]
  exact word_append (ofUInt32 x) rest

theorem word_ofUInt64 (x : UInt64) (rest : Bytes) :
    word 8 (ofUInt64 x ++ rest) = some (x.toNat, rest) := by
  rw [← number_ofUInt64]
  exact word_append (ofUInt64 x) rest

def int16At (code : Bytes) (offset : Nat) : Option Int :=
  match code.drop offset with
  | a :: b :: _ => some (Int.bmod (256 * a.toNat + b.toNat : Nat) 65536)
  | _ => none

def int32At (code : Bytes) (offset : Nat) : Option Int :=
  match code.drop offset with
  | a :: b :: c :: d :: _ =>
    some (Int.bmod
      (16777216 * a.toNat + 65536 * b.toNat + 256 * c.toNat + d.toNat : Nat) 4294967296)
  | _ => none

theorem flatMap_length {α : Type} (f : α → Bytes) (width : Nat) (equal : ∀ x, (f x).length = width)
    (xs : List α) :
    (xs.flatMap f).length = width * xs.length := by
  rw [List.length_flatMap, List.map_congr_left fun x _ => equal x, List.map_const',
    List.sum_replicate_nat, Nat.mul_comm]

def StandsAt (code : Bytes) (offset : Nat) (part : Bytes) : Prop :=
  ∃ before after, code = before ++ (part ++ after) ∧ before.length = offset

namespace StandsAt

variable {offset : Nat}

theorem left {first second : Bytes} (there : StandsAt code offset (first ++ second)) :
    StandsAt code offset first := by
  obtain ⟨before, after, rfl, place⟩ := there
  exact ⟨before, second ++ after, by simp, place⟩

theorem right {first second : Bytes} (there : StandsAt code offset (first ++ second)) :
    StandsAt code (offset + first.length) second := by
  obtain ⟨before, after, rfl, rfl⟩ := there
  exact ⟨before ++ first, after, by simp, by simp⟩

theorem head {byte : UInt8} {rest : Bytes} (there : StandsAt code offset (byte :: rest)) :
    code[offset]? = some byte := by
  obtain ⟨before, after, rfl, rfl⟩ := there
  simp

theorem tail {byte : UInt8} {rest : Bytes} (there : StandsAt code offset (byte :: rest)) :
    StandsAt code (offset + 1) rest := by
  have split : StandsAt code offset ([byte] ++ rest) := there
  exact split.right

theorem le_length {part : Bytes} (there : StandsAt code offset part) :
    offset + part.length ≤ code.length := by
  obtain ⟨before, after, rfl, rfl⟩ := there
  simp only [List.length_append]
  omega

theorem piece {α : Type} {width i : Nat} {xs : List α} {x : α} (f : α → Bytes)
    (there : StandsAt code offset (xs.flatMap f)) (equal : ∀ y, (f y).length = width)
    (found : xs[i]? = some x) :
    StandsAt code (offset + width * i) (f x) := by
  obtain ⟨inside, rfl⟩ := List.getElem?_eq_some_iff.1 found
  have split :
      xs.flatMap f = (xs.take i).flatMap f ++ (f xs[i] ++ (xs.drop (i + 1)).flatMap f) := by
    rw [← List.flatMap_cons, ← List.drop_eq_getElem_cons inside, ← List.flatMap_append,
      List.take_append_drop]
  have skipped : ((xs.take i).flatMap f).length = width * i := by
    rw [flatMap_length f width equal, List.length_take, Nat.min_eq_left (Nat.le_of_lt inside)]
  rw [split] at there
  simpa only [skipped] using there.right.left

end StandsAt

theorem int16At_of_standsAt {offset : Nat} {x : UInt16}
    (there : StandsAt code offset (ofUInt16 x)) :
    int16At code offset = some x.toInt16.toInt := by
  obtain ⟨before, after, rfl, rfl⟩ := there
  have value : 256 * (x >>> 8).toUInt8.toNat + x.toUInt8.toNat = x.toNat := by
    rw [← number_ofUInt16 x]
    simp only [number, ofUInt16, List.foldl_cons, List.foldl_nil]
    omega
  unfold int16At
  rw [List.drop_left]
  simp only [ofUInt16, List.cons_append, List.nil_append, value]
  simp only [Int16.toInt, BitVec.toInt_eq_toNat_bmod, Nat.reducePow]
  rfl

theorem int32At_of_standsAt {offset : Nat} {x : UInt32}
    (there : StandsAt code offset (ofUInt32 x)) :
    int32At code offset = some x.toInt32.toInt := by
  obtain ⟨before, after, rfl, rfl⟩ := there
  have value : 16777216 * (x >>> 24).toUInt8.toNat + 65536 * (x >>> 16).toUInt8.toNat +
      256 * (x >>> 8).toUInt8.toNat + x.toUInt8.toNat = x.toNat := by
    rw [← number_ofUInt32 x]
    simp only [number, ofUInt32, List.foldl_cons, List.foldl_nil]
    omega
  unfold int32At
  rw [List.drop_left]
  simp only [ofUInt32, List.cons_append, List.nil_append, value]
  simp only [Int32.toInt, BitVec.toInt_eq_toNat_bmod, Nat.reducePow]
  rfl

theorem int16At_of_offset {place : Nat} {offset : Int}
    (there : StandsAt code place (ofUInt16 (Int16.ofInt offset).toUInt16)) (lower : -32768 ≤ offset)
    (upper : offset < 32768) : int16At code place = some offset := by
  rw [int16At_of_standsAt there, Int16.toInt16_toUInt16, Int16.toInt_ofInt_of_le lower upper]

theorem int32At_of_offset {place : Nat} {offset : Int}
    (there : StandsAt code place (ofUInt32 (Int32.ofInt offset).toUInt32))
    (lower : -2147483648 ≤ offset) (upper : offset < 2147483648) :
    int32At code place = some offset := by
  rw [int32At_of_standsAt there, Int32.toInt32_toUInt32, Int32.toInt_ofInt_of_le lower upper]

end Restack.Bytes
