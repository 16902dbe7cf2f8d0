import Std.Data.HashMap
import Restack.Literal.Short

set_option autoImplicit false

namespace Restack

namespace Short

section

variable {κ α : Type} [BEq κ] [Hashable κ]

/-- The codes of numbers. Of two codes the shorter is kept, and of two as short the one that was
there. -/
def add (t : Std.HashMap κ Bytes) (x : κ) (code : Bytes) : Std.HashMap κ Bytes :=
  match t[x]? with
  | some old => if code.length < old.length then t.insert x code else t
  | none => t.insert x code

def addAll (t : Std.HashMap κ Bytes) (candidates : List (κ × Bytes)) : Std.HashMap κ Bytes :=
  candidates.foldl (fun t candidate => add t candidate.1 candidate.2) t

/-- Candidates that are made from codes already known. -/
def addEach (t : Std.HashMap κ Bytes) (l : List α)
    (candidates : Std.HashMap κ Bytes → α → List (κ × Bytes)) :
    Std.HashMap κ Bytes :=
  l.foldl (fun t a => addAll t (candidates t a)) t

end

def keysOfLength (t : Std.HashMap Int32 Bytes) (n : Nat) : List Int32 :=
  ((t.toList.filter fun entry => entry.2.length = n).map (·.1)).mergeSort

def span (first : Int32) (count : Nat) : List Int32 :=
  (List.range count).map fun k => first + .ofNat k

def low16 (x : Int32) : Int32 := .ofInt (x.toInt % 65536)

def oneByte : Std.HashMap Int32 Bytes :=
  addAll ∅ ((span (-1) 7).map fun x => (x, [Op.iconst0 + x.toInt8.toUInt8]))

def twoBytes (ones : List Int32) (t : Std.HashMap Int32 Bytes) : Std.HashMap Int32 Bytes :=
  let t := addAll t ((span (-128) 256).map fun x => (x, [Op.bipush, x.toInt8.toUInt8]))
  addEach t ones fun t x => [(low16 x, t.getD x [] ++ [Op.i2c])]

/-- What the shifts make of two numbers, by the code that pushes both. -/
def shifted (code : Bytes) (x y : Int32) : List (Int32 × Bytes) :=
  let count : Int32 := .ofInt (y.toInt % 32)
  [(x <<< count, code ++ [Op.ishl]), (x >>> count, code ++ [Op.ishr]),
    ((x.toUInt32 >>> count.toUInt32).toInt32, code ++ [Op.iushr])]

def threeBytes (ones twos : List Int32) (t : Std.HashMap Int32 Bytes) : Std.HashMap Int32 Bytes :=
  let t := addAll t
    ((span (-32768) 65536).map fun x => (x, Op.sipush :: Bytes.ofUInt16 x.toInt16.toUInt16))
  let t := addEach t twos fun t x =>
    [(low16 x, t.getD x [] ++ [Op.i2c]), (-x, t.getD x [] ++ [Op.ineg])]
  addEach t (ones.flatMap fun x => ones.map fun y => (x, y)) fun t operands =>
    shifted (t.getD operands.1 [] ++ t.getD operands.2 []) operands.1 operands.2

structure Tables where
  ints : Std.HashMap Int32 Bytes
  longs : Std.HashMap Int64 Bytes
  floats : Std.HashMap Nat Bytes
  doubles : Std.HashMap Nat Bytes

def longTable (ints : Std.HashMap Int32 Bytes) (small : List Int32) : Std.HashMap Int64 Bytes :=
  addAll (add (add ∅ 0 [Op.lconst0]) 1 [Op.lconst1])
    (small.map fun x => (x.toInt64, ints.getD x [] ++ [Op.i2l]))

def realTable (f : FloatFormat) (ops : FloatOps) (ints : Std.HashMap Int32 Bytes)
    (small : List Int32) :
    Std.HashMap Nat Bytes :=
  let t := add (add ∅ (f.ofInteger 0) [ops.zero]) (f.ofInteger 1) [ops.one]
  let t := addAll t (small.map fun x => (f.ofInteger x.toInt, ints.getD x [] ++ [ops.ofInt]))
  let t := add t f.signBit [ops.zero, ops.neg]
  let t := add t f.nan [ops.zero, ops.zero, ops.div]
  let t := add t f.infinity [ops.one, ops.zero, ops.div]
  add t (f.signBit + f.infinity) [ops.one, ops.neg, ops.zero, ops.div]

/-- Codes by their length. Each length builds on shorter codes; longs, floats and doubles build on
the ints of at most two bytes. -/
def tables : Tables :=
  let t := oneByte
  let ones := keysOfLength t 1
  let t := twoBytes ones t
  let twos := keysOfLength t 2
  let ints := threeBytes ones twos t
  let small := ones ++ twos
  { ints, longs := longTable ints small, floats := realTable .single singleOps ints small,
    doubles := realTable .double doubleOps ints small }

end Short

end Restack
