import Restack.Proofs.Literal.Code
import Restack.Proofs.Literal.Evaluation
import Restack.Proofs.Literal.Table

set_option autoImplicit false

namespace Restack

variable {R : Rounding} {p : Pool} {code : Bytes}

namespace Short

theorem yields_bipush (b : UInt8) : Yields R p [Op.bipush, b] [] [.int b.toInt8.toInt32] := by
  have read : (Bytes.number [b]).toUInt8 = b := by simp [Bytes.number]
  intro s
  change some (Number.int (Bytes.number [b]).toUInt8.toInt8.toInt32 :: s) = _
  rw [read]
  rfl

theorem yields_sipush (w : UInt16) :
    Yields R p (Op.sipush :: Bytes.ofUInt16 w) [] [.int w.toInt16.toInt32] := by
  have read : (Bytes.number (Bytes.ofUInt16 w)).toUInt16 = w := by rw [Bytes.number_ofUInt16]; simp
  intro s
  change some (Number.int (Bytes.number (Bytes.ofUInt16 w)).toUInt16.toInt16.toInt32 :: s) = _
  rw [read]
  rfl

theorem toInt_lowest (x : Int32) :
    x.toUInt32.toUInt16.toUInt32.toInt32.toInt = x.toInt % 65536 := by
  have bits : x.toUInt32.toUInt16.toUInt32.toInt32.toBitVec =
      (x.toBitVec.setWidth 16).setWidth 32 := by
    change x.toUInt32.toUInt16.toUInt32.toBitVec = _
    rw [UInt16.toBitVec_toUInt32, UInt32.toBitVec_toUInt16]
    rfl
  have bound := x.toBitVec.isLt
  rw [← Int32.toInt_toBitVec, bits, ← Int32.toInt_toBitVec, BitVec.toInt_eq_toNat_cond,
    BitVec.toInt_eq_toNat_cond]
  simp only [BitVec.toNat_setWidth]
  omega

theorem yields_tiny? {x : Int32} (tiny : tiny? x = some code) : Yields R p code [] [.int x] := by
  unfold tiny? at tiny
  split_ifs at tiny with const byte char <;> cases tiny
  · have each := const_cases const
    simp only [List.mem_cons, List.not_mem_nil, or_false] at each
    rcases each with rfl | rfl | rfl | rfl | rfl | rfl | rfl <;> exact fun _ => rfl
  · obtain ⟨lower, upper⟩ := byte
    rw [Int32.le_iff_toInt_le] at lower upper
    have same : x.toInt8.toUInt8.toInt8.toInt32 = x := by
      rw [Int8.toInt8_toUInt8, ← Int32.toInt_inj, Int8.toInt_toInt32, Int32.toInt_toInt8]
      exact Int.bmod_eq_of_le lower (Int.lt_add_one_iff.2 upper)
    have pushes :
        Yields R p [Op.bipush, x.toInt8.toUInt8] [] [.int x.toInt8.toUInt8.toInt8.toInt32] :=
          yields_bipush _
    rwa [same] at pushes
  · subst char
    exact fun _ => rfl

theorem yields_leadingZeros? {x : Int32} {k : UInt8} (found : leadingZeros? x = some k) :
    Yields R p [Op.iconstM1, Op.iconst0 + k, Op.iushr] [] [.int x] := by
  have listed := List.mem_of_find?_eq_some found
  have ones : x.toUInt32 = (-1 : UInt32) >>> k.toUInt32 := by simpa using List.find?_some found
  have known : x = ((-1 : UInt32) >>> k.toUInt32).toInt32 := by rw [← ones, Int32.toInt32_toUInt32]
  simp only [List.mem_cons, List.not_mem_nil, or_false] at listed
  rcases listed with rfl | rfl | rfl | rfl | rfl <;> subst known <;> exact fun _ => rfl

theorem yields_int? {x : Int32} (short : int? x = some code) : Yields R p code [] [.int x] := by
  unfold int? at short
  split at short
  next _ tiny =>
    cases short
    exact yields_tiny? tiny
  next =>
    split_ifs at short with word char
    · cases short
      obtain ⟨lower, upper⟩ := word
      rw [Int32.le_iff_toInt_le] at lower upper
      have same : x.toInt16.toUInt16.toInt16.toInt32 = x := by
        rw [Int16.toInt16_toUInt16, ← Int32.toInt_inj, Int16.toInt_toInt32, Int32.toInt_toInt16]
        exact Int.bmod_eq_of_le lower (Int.lt_add_one_iff.2 upper)
      have pushes : Yields R p (Op.sipush :: Bytes.ofUInt16 x.toInt16.toUInt16) []
          [.int x.toInt16.toUInt16.toInt16.toInt32] :=
        yields_sipush _
      rwa [same] at pushes
    · cases short
      -- The byte is the number less 65536, so its lowest sixteen bits are those of the number.
      obtain ⟨lower, upper⟩ := char
      rw [Int32.le_iff_toInt_le] at lower upper
      change 65408 ≤ x.toInt at lower
      change x.toInt ≤ 65534 at upper
      have same : x.toInt8.toUInt8.toInt8.toInt32.toUInt32.toUInt16.toUInt32.toInt32 = x := by
        rw [Int8.toInt8_toUInt8, ← Int32.toInt_inj, toInt_lowest, Int8.toInt_toInt32,
          Int32.toInt_toInt8, Int.bmod_def]
        omega
      have narrow (y : Int32) :
          Yields R p [Op.i2c] [.int y] [.int y.toUInt32.toUInt16.toUInt32.toInt32] := fun _ => rfl
      have pushes := (yields_bipush (R := R) (p := p) x.toInt8.toUInt8).append (narrow _)
      rwa [same] at pushes
    iterate 2
      · cases short
        subst x
        exact fun _ => rfl
    · obtain ⟨k, found, rfl⟩ := Option.map_eq_some_iff.1 short
      exact yields_leadingZeros? found

theorem converted?_eq_some {x : Int} {conversion : UInt8}
    (short : converted? x conversion = some code) :
    ∃ tiny, tiny? (.ofInt x) = some tiny ∧ code = tiny ++ [conversion] ∧
    (Int32.ofInt x).toInt = x := by
  unfold converted? at short
  split at short
  next range =>
    obtain ⟨tiny, found, rfl⟩ := Option.map_eq_some_iff.1 short
    exact ⟨tiny, found, rfl, Int32.toInt_ofInt_of_le (by omega) (by omega)⟩
  next => cases short

theorem yields_i2l (x : Int32) : Yields R p [Op.i2l] [.int x] [.long x.toInt64] := fun _ => rfl

theorem yields_long? {x : Int64} (short : long? x = some code) : Yields R p code [] [.long x] := by
  unfold long? at short
  split_ifs at short
  iterate 2
    · cases short
      subst x
      exact fun _ => rfl
  · obtain ⟨tiny, found, rfl, value⟩ := converted?_eq_some short
    have same : (Int32.ofInt x.toInt).toInt64 = x := by
      rw [← Int64.toInt_inj, Int32.toInt_toInt64, value]
    have pushes := (yields_tiny? (R := R) (p := p) found).append (yields_i2l _)
    rwa [same] at pushes

end Short

namespace Computed

def lowHalf (x : Int32) : Int32 := x.toInt16.toInt32

def highHalf (x : Int32) : Int32 := (x ^^^ lowHalf x) >>> 16

theorem xor_halves {w k : Nat} {x low : BitVec w}
    (same : ∀ i (inside : i < w), i < k → x[i] = low[i]) :
    ((x ^^^ low).sshiftRight k <<< k) ^^^ low = x := by
  ext i inside
  rw [BitVec.getElem_xor, BitVec.getElem_shiftLeft]
  by_cases below : i < k
  · simp [below, same i inside below]
  · have back : k + (i - k) = i := by omega
    simp [below, BitVec.getElem_sshiftRight, back, inside]

theorem int_of_halves (x : Int32) : highHalf x <<< 16 ^^^ lowHalf x = x := by
  have count : (16 : Int32).toBitVec.smod 32 = 16#32 := by decide
  rw [← Int32.toBitVec_inj]
  simp only [highHalf, lowHalf, Int32.toBitVec_xor, Int32.toBitVec_shiftLeft,
    Int32.toBitVec_shiftRight, Int16.toBitVec_toInt32, Int32.toBitVec_toInt16, count]
  refine xor_halves (k := 16) fun i inside below => ?_
  simp [BitVec.getElem_signExtend, below, inside]

theorem long_of_halves (x : Int64) :
    (x ^^^ x.toInt32.toInt64) >>> 32 <<< 32 ^^^ x.toInt32.toInt64 = x := by
  have count : (32 : Int64).toBitVec.smod 64 = 32#64 := by decide
  rw [← Int64.toBitVec_inj]
  simp only [Int64.toBitVec_xor, Int64.toBitVec_shiftLeft, Int64.toBitVec_shiftRight,
    Int32.toBitVec_toInt64, Int64.toBitVec_toInt32, count]
  refine xor_halves (k := 32) fun i inside below => ?_
  simp [BitVec.getElem_signExtend, below, inside]

theorem toInt64_shiftRight (x : Int64) : (x >>> 32).toInt32.toInt64 = x >>> 32 := by
  have shifted : (x >>> 32).toInt = x.toInt >>> (32 : Nat) := by
    rw [← Int64.toInt_toBitVec, Int64.toBitVec_shiftRight]
    exact BitVec.toInt_sshiftRight
  have lower := Int64.le_toInt x
  have upper := Int64.toInt_lt x
  rw [Int.shiftRight_eq_div_pow] at shifted
  rw [← Int64.toInt_inj, Int32.toInt_toInt64, Int64.toInt_toInt32]
  exact Int.bmod_eq_of_le (by omega) (by omega)

theorem int_of_short {x : Int32} (short : Short.int? x = some code) : int x = code := by
  rw [int, short]

theorem short_of_range {x : Int32} (lower : -32768 ≤ x.toInt) (upper : x.toInt ≤ 32767) :
    Short.int? x = some (int x) := by
  obtain ⟨code, short⟩ := Short.exists_int? lower upper
  rw [short, int_of_short short]

theorem short_highHalf (x : Int32) : Short.int? (highHalf x) = some (int (highHalf x)) :=
  short_of_range (toInt_shiftRight_bounds _).1 (toInt_shiftRight_bounds _).2

theorem short_lowHalf (x : Int32) : Short.int? (lowHalf x) = some (int (lowHalf x)) := by
  have lower := Int16.le_toInt x.toInt16
  have upper := Int16.toInt_lt x.toInt16
  refine short_of_range ?_ ?_ <;> rw [lowHalf, Int16.toInt_toInt32] <;> omega

theorem int_of_not_short {x : Int32} (long : Short.int? x = none) :
    int x = int (highHalf x) ++ int 16 ++ [Op.ishl] ++ if lowHalf x = 0 then []
      else int (lowHalf x) ++ [Op.ixor] := by
  have sixteen : Short.int? 16 = some (int 16) := short_of_range (by decide) (by decide)
  rw [int, long]
  change (Short.int? (highHalf x)).getD [] ++ (Short.int? 16).getD [] ++ [Op.ishl] ++
    (if lowHalf x = 0 then [] else (Short.int? (lowHalf x)).getD [] ++ [Op.ixor]) = _
  rw [short_highHalf, short_lowHalf, sixteen]
  rfl

theorem yields_int (x : Int32) : Yields R p (int x) [] [.int x] := by
  cases short : Short.int? x with
  | some code =>
    rw [int_of_short short]
    exact Short.yields_int? short
  | none =>
    have high : Yields R p (int (highHalf x)) [] [.int (highHalf x)] :=
      Short.yields_int? (short_highHalf x)
    have low : Yields R p (int (lowHalf x)) [] [.int (lowHalf x)] :=
      Short.yields_int? (short_lowHalf x)
    have shift (y : Int32) : Yields R p (int 16 ++ [Op.ishl]) [.int y] [.int (y <<< 16)] :=
      fun _ => rfl
    have join (y z : Int32) : Yields R p [Op.ixor] [.int z, .int y] [.int (y ^^^ z)] := fun _ => rfl
    rw [int_of_not_short short, List.append_assoc _ _ [Op.ishl]]
    refine (high.append (shift _)).append ?_
    have halves := int_of_halves x
    split
    next zero =>
      rw [zero, Int32.xor_zero] at halves
      rw [halves]
      exact .nil _
    next =>
      have joined := (low.below [.int (highHalf x <<< 16)]).append (join _ _)
      rwa [halves] at joined

theorem yields_long (x : Int64) : Yields R p (long x) [] [.long x] := by
  unfold long
  split
  next code short => exact Short.yields_long? short
  next =>
    have extended (y : Int32) : Yields R p (int y ++ [Op.i2l]) [] [.long y.toInt64] :=
      (yields_int y).append (Short.yields_i2l y)
    have shift (y : Int64) : Yields R p (int 32 ++ [Op.lshl]) [.long y] [.long (y <<< 32)] :=
      fun _ => rfl
    have join (y z : Int64) : Yields R p [Op.lxor] [.long z, .long y] [.long (y ^^^ z)] :=
      fun _ => rfl
    have halves := long_of_halves x
    have narrow := toInt64_shiftRight (x ^^^ x.toInt32.toInt64)
    dsimp only
    generalize (x ^^^ x.toInt32.toInt64) >>> 32 = high at halves narrow
    have low := extended x.toInt32
    split
    next zero =>
      -- Nothing differs from the low half, which is the number with its sign.
      rw [zero, show (0 : Int64) <<< 32 = 0 by decide, Int64.zero_xor] at halves
      rwa [halves] at low
    next =>
      have start := extended high.toInt32
      rw [narrow] at start
      rw [List.append_assoc _ _ [Op.lshl]]
      refine (start.append (shift high)).append ?_
      split
      next zero =>
        rw [zero, show (0 : Int32).toInt64 = 0 by decide, Int64.xor_zero] at halves
        rw [halves]
        exact .nil _
      next =>
        have joined := (low.below [.long (high <<< 32)]).append (join _ _)
        rwa [halves, List.append_assoc] at joined

/-- The code of an int or a long pushes exactly the number. An int is in the table of short codes,
or else its halves and the count of the shift are, so that nothing is taken apart twice. -/
theorem integers_pushed_exactly (R : Rounding) (p : Pool) :
    (∀ (x : Int32) (s : List Number), R.run? p 0 (int x) s = some (.int x :: s)) ∧
    (∀ (x : Int64) (s : List Number), R.run? p 0 (long x) s = some (.long x :: s)) ∧
    (∀ x : Int32, Short.tables.ints[x]? = Short.int? x) ∧
    (∀ x : Int64, Short.tables.longs[x]? = Short.long? x) ∧
    ∀ x : Int32, Short.int? x = some (int x) ∨
      Short.int? x = none ∧ Short.int? (highHalf x) = some (int (highHalf x)) ∧
      Short.int? 16 = some (int 16) ∧
        Short.int? (lowHalf x) = some (int (lowHalf x)) ∧
        int x = int (highHalf x) ++ int 16 ++ [Op.ishl] ++ if lowHalf x = 0 then []
          else int (lowHalf x) ++ [Op.ixor] := by
  refine ⟨yields_int, yields_long, Short.getElem?_ints, Short.getElem?_longs, fun x => ?_⟩
  cases short : Short.int? x with
  | some code => exact .inl (by rw [int_of_short short])
  | none =>
    exact .inr ⟨rfl, short_highHalf x, short_of_range (by decide) (by decide), short_lowHalf x,
      int_of_not_short short⟩

end Computed

end Restack
