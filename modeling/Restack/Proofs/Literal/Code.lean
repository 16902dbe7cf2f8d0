import Mathlib.Tactic.IntervalCases
import Restack.Proofs.Stack.Operands

set_option autoImplicit false

namespace Restack

namespace Short

variable {code : Bytes}

theorem const_cases {x : Int32} (range : -1 ≤ x ∧ x ≤ 5) : x ∈ [-1, 0, 1, 2, 3, 4, 5] := by
  obtain ⟨lower, upper⟩ := range
  rw [Int32.le_iff_toInt_le] at lower upper
  change -1 ≤ x.toInt at lower
  change x.toInt ≤ 5 at upper
  have known : x = Int32.ofInt x.toInt := (Int32.ofInt_toInt x).symm
  generalize x.toInt = n at lower upper known
  interval_cases n <;> simp [known]

theorem turns_tiny? {x : Int32} (tiny : tiny? x = some code) : Turns 1 code [] [1] := by
  unfold tiny? at tiny
  split_ifs at tiny with range <;> cases tiny
  · -- Seven values have an opcode of their own.
    have each := const_cases range
    simp only [List.mem_cons, List.not_mem_nil, or_false] at each
    rcases each with rfl | rfl | rfl | rfl | rfl | rfl | rfl <;> exact .of_run? fun _ => rfl
  · exact .of_run? fun _ => rfl
  · exact .of_run? fun _ => rfl

theorem turns_leadingZeros? {x : Int32} {k : UInt8} (found : leadingZeros? x = some k) :
    Turns 2 [Op.iconstM1, Op.iconst0 + k, Op.iushr] [] [1] := by
  have listed := List.mem_of_find?_eq_some found
  simp only [List.mem_cons, List.not_mem_nil, or_false] at listed
  rcases listed with rfl | rfl | rfl | rfl | rfl <;> exact .of_run? fun _ => rfl

theorem turns_int? {x : Int32} (short : int? x = some code) : Turns 2 code [] [1] := by
  unfold int? at short
  split at short
  next _ tiny =>
    cases short
    exact (turns_tiny? tiny).mono (by decide)
  next =>
    split_ifs at short
    iterate 4
      · cases short
        exact .of_run? fun _ => rfl
    · obtain ⟨k, found, rfl⟩ := Option.map_eq_some_iff.1 short
      exact turns_leadingZeros? found

theorem exists_int? {x : Int32} (lower : -32768 ≤ x.toInt) (upper : x.toInt ≤ 32767) :
    ∃ code, int? x = some code := by
  unfold int?
  cases tiny? x with
  | some code => exact ⟨code, rfl⟩
  | none =>
    have range : -32768 ≤ x ∧ x ≤ 32767 :=
      ⟨Int32.le_iff_toInt_le.2 lower, Int32.le_iff_toInt_le.2 upper⟩
    exact ⟨_, if_pos range⟩

theorem turns_converted? {x : Int} {conversion : UInt8} {w : Nat}
    (short : converted? x conversion = some code) (converts : Turns 2 [conversion] [1] [w]) :
    Turns 2 code [] [w] := by
  unfold converted? at short
  split at short
  · obtain ⟨tiny, found, rfl⟩ := Option.map_eq_some_iff.1 short
    exact ((turns_tiny? found).mono (by decide)).append converts
  · cases short

theorem turns_long? {x : Int64} (short : long? x = some code) : Turns 2 code [] [2] := by
  unfold long? at short
  split_ifs at short
  iterate 2
    · cases short
      exact .of_run? fun _ => rfl
  · exact turns_converted? short (.of_run? fun _ => rfl)

/-- What the opcodes for floating-point numbers of one width do. -/
structure FloatOps.Sized (ops : FloatOps) (w : Nat) : Prop where
  zero : Turns (2 * w) [ops.zero] [] [w]
  one : Turns (2 * w) [ops.one] [] [w]
  ofInt : Turns 2 [ops.ofInt] [1] [w]
  neg : Turns (2 * w) [ops.neg] [w] [w]
  div : Turns (2 * w) [ops.div] [w, w] [w]

theorem sized_singleOps : singleOps.Sized 1 :=
  ⟨.of_run? fun _ => rfl, .of_run? fun _ => rfl, .of_run? fun _ => rfl, .of_run? fun _ => rfl,
    .of_run? fun _ => rfl⟩

theorem sized_doubleOps : doubleOps.Sized 2 :=
  ⟨.of_run? fun _ => rfl, .of_run? fun _ => rfl, .of_run? fun _ => rfl, .of_run? fun _ => rfl,
    .of_run? fun _ => rfl⟩

theorem turns_real? {f : FloatFormat} {ops : FloatOps} {w bits : Nat} (sized : ops.Sized w)
    (wide : 0 < w) (short : real? f ops bits = some code) : Turns (3 * w) code [] [w] := by
  have zero : Turns (3 * w) [ops.zero] [] [w] := sized.zero.mono (by omega)
  have one : Turns (3 * w) [ops.one] [] [w] := sized.one.mono (by omega)
  have neg : Turns (3 * w) [ops.neg] [w] [w] := sized.neg.mono (by omega)
  have div : Turns (3 * w) [ops.div] [w, w] [w] := sized.div.mono (by omega)
  have zero_above : Turns (3 * w) [ops.zero] [w] [w, w] :=
    (sized.zero.below [w]).mono (by simp; omega)
  unfold real? at short
  split_ifs at short
  on_goal 6 =>
    split at short
    · cases short
      exact one
    · exact (turns_converted? short sized.ofInt).mono (by omega)
    · cases short
  all_goals cases short
  · exact zero
  · exact zero.append neg
  · exact zero.append (zero_above.append div)
  · exact one.append (zero_above.append div)
  · exact one.append (neg.append (zero_above.append div))

end Short

namespace Computed

variable {n : Nat}

theorem toInt_shiftRight_bounds (x : Int32) :
    -32768 ≤ (x >>> 16).toInt ∧ (x >>> 16).toInt ≤ 32767 := by
  have shifted : (x >>> 16).toInt = x.toInt >>> (16 : Nat) := by
    rw [← Int32.toInt_toBitVec, Int32.toBitVec_shiftRight]
    exact BitVec.toInt_sshiftRight
  have lower := Int32.le_toInt x
  have upper := Int32.toInt_lt x
  rw [shifted, Int.shiftRight_eq_div_pow]
  omega

theorem turns_half {x : Int32} (lower : -32768 ≤ x.toInt) (upper : x.toInt ≤ 32767) :
    Turns 2 ((Short.int? x).getD []) [] [1] := by
  obtain ⟨code, short⟩ := Short.exists_int? lower upper
  rw [short]
  exact Short.turns_int? short

theorem turns_int (x : Int32) : Turns 3 (int x) [] [1] := by
  unfold int
  split
  next code short => exact (Short.turns_int? short).mono (by decide)
  next =>
    obtain ⟨lower, upper⟩ := toInt_shiftRight_bounds (x ^^^ x.toInt16.toInt32)
    have high : Turns 3 ((Short.int? ((x ^^^ x.toInt16.toInt32) >>> 16)).getD []) [] [1] :=
      (turns_half lower upper).mono (by decide)
    have shift : Turns 3 ((Short.int? 16).getD [] ++ [Op.ishl]) [1] [1] := .of_run? fun _ => rfl
    have low : Turns 3 ((Short.int? x.toInt16.toInt32).getD []) [1] [1, 1] :=
      ((turns_half (by simpa using Int16.le_toInt x.toInt16) (by
        have := Int16.toInt_lt x.toInt16
        simp only [Int16.toInt_toInt32]
        omega)).below [1]).mono (by decide)
    have join : Turns 3 [Op.ixor] [1, 1] [1] := .of_run? fun _ => rfl
    dsimp only
    rw [List.append_assoc _ _ [Op.ishl]]
    refine (high.append shift).append ?_
    split
    · exact .nil _
    · exact low.append join

theorem turns_long (x : Int64) : Turns 5 (long x) [] [2] := by
  unfold long
  split
  next code short => exact (Short.turns_long? short).mono (by decide)
  next =>
    have first (y : Int32) : Turns 5 (int y) [] [1] := (turns_int y).mono (by decide)
    have above (y : Int32) : Turns 5 (int y) [2] [1, 2] := (turns_int y).below [2]
    have extend : Turns 5 [Op.i2l] [1] [2] := .of_run? fun _ => rfl
    have shift : Turns 5 [Op.lshl] [1, 2] [2] := .of_run? fun _ => rfl
    have join : Turns 5 [Op.i2l, Op.lxor] [1, 2] [2] := .of_run? fun _ => rfl
    dsimp only
    split
    · exact (first _).append extend
    · refine ((((first _).append extend).append (above _)).append shift).append ?_
      split
      · exact .nil _
      · exact (above _).append join

theorem turns_scale (n : Nat) {ofLong op : UInt8} {w : Nat}
    (scales : Turns (w + 5) [Op.lshl, ofLong, op] [1, 2, w] [w]) :
    Turns (w + 5) (scale n ofLong op) [w] [w] := by
  unfold scale
  split
  · exact .nil _
  · have one : Turns (w + 5) [Op.lconst1] [w] [2, w] := by
      have alone : Turns 5 [Op.lconst1] [] [2] := .of_run? fun _ => rfl
      exact (alone.below [w]).mono (by simp; omega)
    have count : Turns (w + 5) (int (.ofNat n)) [2, w] [1, 2, w] :=
      ((turns_int (.ofNat n)).below [2, w]).mono (by simp; omega)
    exact (one.append count).append scales

theorem turns_float (bits : UInt32) : Turns 6 (float bits) [] [1] := by
  unfold float
  split
  next code short =>
    exact (Short.turns_real? Short.sized_singleOps (by decide) short).mono (by decide)
  next =>
    have start (y : Int32) : Turns 6 (int y) [] [1] := (turns_int y).mono (by decide)
    have convert : Turns 6 [Op.i2f] [1] [1] := .of_run? fun _ => rfl
    have scaled (op : UInt8) (either : op = Op.fdiv ∨ op = Op.fmul) :
        Turns 6 [Op.lconst1, Op.iconstM1, Op.lshl, Op.l2f, op] [1] [1] ∧
          Turns 6 [Op.lshl, Op.l2f, op] [1, 2, 1] [1] := by
      rcases either with rfl | rfl <;> exact ⟨.of_run? fun _ => rfl, .of_run? fun _ => rfl⟩
    dsimp only
    split
    · obtain ⟨factor, scales⟩ := scaled Op.fdiv (.inl rfl)
      exact (((start _).append convert).append (factor.replicate _)).append (turns_scale _ scales)
    · obtain ⟨factor, scales⟩ := scaled Op.fmul (.inr rfl)
      exact (((start _).append convert).append (factor.replicate _)).append (turns_scale _ scales)

theorem oneBits_of_pos (pos : n ≠ 0) : oneBits n = n % 2 + oneBits (n / 2) := by
  rw [oneBits, if_neg pos]

theorem oneBits_le {k : Nat} (less : n < 2 ^ k) : oneBits n ≤ k := by
  induction k generalizing n with
  | zero =>
    have : n = 0 := by simpa using less
    simp [this, oneBits]
  | succ k ih =>
    by_cases zero : n = 0
    · simp [zero, oneBits]
    · have rest := ih (n := n / 2) (by rw [Nat.pow_succ] at less; omega)
      rw [oneBits_of_pos zero]
      omega

theorem turns_squares (pos : 0 < n) :
    Turns (2 * oneBits n + 4) (squares n) [2] (List.replicate (oneBits n) 2) := by
  induction n using Nat.strongRecOn with
  | ind n ih =>
    unfold squares
    rw [oneBits_of_pos (by omega)]
    split
    next last =>
      have one : n = 1 := by omega
      subst one
      rw [show 1 % 2 + oneBits (1 / 2) = 1 by simp [oneBits]]
      exact .nil _
    next more =>
      have rest := ih (n / 2) (by omega) (by omega)
      split
      next odd =>
        -- A copy of the power stays below the squares of it.
        have square : Turns 6 [Op.dup2, Op.dup2, Op.dmul] [2] [2, 2] := .of_run? fun _ => rfl
        have le : 2 * oneBits (n / 2) + 4 + 2 ≤ 2 * (n % 2 + oneBits (n / 2)) + 4 := by omega
        have kept := (rest.below [2]).mono le
        rw [odd, Nat.add_comm 1, List.replicate_succ']
        rw [odd, Nat.add_comm 1] at kept
        exact (square.mono (by omega)).append kept
      next even =>
        have square : Turns 4 [Op.dup2, Op.dmul] [2] [2] := .of_run? fun _ => rfl
        have zero : n % 2 = 0 := by omega
        rw [zero, Nat.zero_add]
        exact (square.mono (by omega)).append rest

theorem turns_products (n : Nat) :
    Turns (2 * n + 2) (List.replicate n Op.dmul) (List.replicate n 2 ++ [2]) [2] := by
  induction n with
  | zero => exact .nil _
  | succ n ih =>
    have product : Turns 4 [Op.dmul] [2, 2] [2] := .of_run? fun _ => rfl
    have first : Turns (2 * (n + 1) + 2) [Op.dmul] (List.replicate (n + 1) 2 ++ [2])
        (List.replicate n 2 ++ [2]) := by
      have split : List.replicate (n + 1) 2 ++ [2] = [2, 2] ++ List.replicate n 2 := by
        rw [← List.replicate_succ', List.replicate_succ, List.replicate_succ]
        rfl
      have merged : List.replicate n 2 ++ [2] = [2] ++ List.replicate n 2 := by
        rw [← List.replicate_succ', List.replicate_succ]
        rfl
      rw [split, merged]
      exact (product.below (List.replicate n 2)).mono (by simp [Operands.slots]; omega)
    rw [List.replicate_succ]
    exact first.append (ih.mono (by omega))

theorem double_steps_le (bits : Nat) : (FloatFormat.double.exponent bits).natAbs / 63 < 2 ^ 5 := by
  have field : FloatFormat.double.exponentField bits < 2 ^ 11 := Nat.mod_lt _ (by decide)
  have shift : FloatFormat.double.bias + FloatFormat.double.fractionBits = 1075 := by decide
  unfold FloatFormat.exponent
  rw [shift]
  omega

theorem turns_power {base : Bytes} (makes : Turns 7 base [2] [2, 2]) (less : n < 2 ^ 5) :
    Turns 16 (if n = 0 then [] else base ++ squares n ++ List.replicate (oneBits n) Op.dmul)
      [2] [2] := by
  split
  · exact .nil _
  next pos =>
    have few := oneBits_le less
    have powers := (turns_squares (Nat.pos_of_ne_zero pos)).below [2]
    exact ((makes.mono (by decide)).append (powers.mono (by simp; omega))).append
      ((turns_products (oneBits n)).mono (by omega))

theorem turns_double (bits : UInt64) : Turns 16 (double bits) [] [2] := by
  unfold double
  split
  next code short =>
    exact (Short.turns_real? Short.sized_doubleOps (by decide) short).mono (by decide)
  next =>
    have start (y : Int64) : Turns 16 (long y) [] [2] := (turns_long y).mono (by decide)
    have convert : Turns 16 [Op.l2d] [2] [2] := .of_run? fun _ => rfl
    have few := double_steps_le bits.toNat
    dsimp only
    by_cases negative : FloatFormat.double.exponent bits.toNat < 0
    · rw [if_pos negative, if_pos negative]
      have half : Turns 5 [Op.dconst1, Op.lconst1, Op.iconstM1, Op.lshl, Op.l2d, Op.ddiv] [] [2] :=
        .of_run? fun _ => rfl
      have base : Turns 7 [Op.dconst1, Op.lconst1, Op.iconstM1, Op.lshl, Op.l2d, Op.ddiv] [2]
          [2, 2] := half.below [2]
      have scales : Turns 7 [Op.lshl, Op.l2d, Op.ddiv] [1, 2, 2] [2] := .of_run? fun _ => rfl
      exact (((start _).append convert).append (turns_power base few)).append
        ((turns_scale _ scales).mono (by decide))
    · rw [if_neg negative, if_neg negative]
      have two : Turns 5 [Op.lconst1, Op.iconstM1, Op.lshl, Op.l2d] [] [2] := .of_run? fun _ => rfl
      have base : Turns 7 [Op.lconst1, Op.iconstM1, Op.lshl, Op.l2d] [2] [2, 2] := two.below [2]
      have scales : Turns 7 [Op.lshl, Op.l2d, Op.dmul] [1, 2, 2] [2] := .of_run? fun _ => rfl
      exact (((start _).append convert).append (turns_power base few)).append
        ((turns_scale _ scales).mono (by decide))

end Computed

namespace Literal

variable {kinds : Kinds} {value : Int64} {code : Bytes}

theorem turns_short? (short : short? kinds value = some code) : Turns 16 code [] [kinds.width] := by
  unfold short? at short
  split_ifs at short <;> subst kinds
  · exact (Short.turns_int? short).mono (by decide)
  · exact (Short.turns_real? Short.sized_singleOps (by decide) short).mono (by decide)
  · exact (Short.turns_long? short).mono (by decide)
  · exact (Short.turns_real? Short.sized_doubleOps (by decide) short).mono (by decide)

theorem turns_compute (computes : compute kinds value = .ok code) :
    Turns 16 code [] [kinds.width] := by
  unfold compute at computes
  split_ifs at computes <;> cases computes <;> subst kinds
  · exact (Computed.turns_int _).mono (by decide)
  · exact (Computed.turns_float _).mono (by decide)
  · exact (Computed.turns_long _).mono (by decide)
  · exact Computed.turns_double _

theorem turns_loadCode (kinds : Kinds) (index : UInt16) :
    Turns 16 (loadCode kinds index) [] [kinds.width] := by
  unfold loadCode Kinds.width
  split
  · exact .of_run? fun _ => rfl
  · split <;> exact .of_run? fun _ => rfl

theorem turns_computed {l : Literal} (made : computed kinds value = .ok l) :
    l.kinds = kinds ∧ Turns 16 l.code [] [kinds.width] := by
  obtain ⟨code, computes, rest⟩ := Except.bind_eq_ok.1 made
  cases rest
  exact ⟨rfl, turns_compute computes⟩

theorem turns_pooled {l : Literal} {p later : Pool}
    (made : (pooled kinds value).run p = (.ok l, later)) :
    l.kinds = kinds ∧ Turns 16 l.code [] [kinds.width] := by
  simp only [pooled, ExceptT.run_mk] at made
  split at made
  next code short =>
    cases made
    exact ⟨rfl, turns_short? short⟩
  next =>
    split at made
    next code _ found =>
      cases made
      obtain ⟨index, _, rfl⟩ := Option.map_eq_some_iff.1 (congrArg Prod.fst found)
      exact ⟨rfl, turns_loadCode kinds index⟩
    next => cases made

end Literal

end Restack
