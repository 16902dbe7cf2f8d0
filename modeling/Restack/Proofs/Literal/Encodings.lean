import Restack.Proofs.Literal.Reals
import Restack.Proofs.Pool.Indices

set_option autoImplicit false

namespace Restack

namespace FloatFormat

variable {f : FloatFormat} {bits : Nat}

theorem nan_lt (f : FloatFormat) : f.nan < 2 * f.signBit := by
  have pos : 0 < f.signBit := by
    rw [signBit, Nat.one_shiftLeft]
    exact Nat.two_pow_pos _
  unfold nan
  omega

theorem canonical_lt (small : bits < 2 * f.signBit) : f.canonical bits < 2 * f.signBit := by
  unfold canonical
  split
  · exact f.nan_lt
  · exact small

theorem eq_nan_of_canonical (nan : f.isNaN (f.canonical bits) = true) :
    f.canonical bits = f.nan := by
  unfold canonical at nan ⊢
  split
  · rfl
  next number =>
    rw [if_neg number] at nan
    exact absurd nan number

theorem datum_canonical (standard : f.Standard) (bits : Nat) :
    f.datum (f.canonical bits) = f.datum bits := by
  unfold canonical
  split
  next nan => rw [standard.nan, datum, if_pos nan]
  next => rfl

end FloatFormat

namespace Literal

def number (kinds : Kinds) (value : Int64) : Number :=
  if kinds = .ofFloat then .float (FloatFormat.single.datum value.toUInt64.toUInt32.toNat)
  else if kinds = .ofDouble then .double (FloatFormat.double.datum value.toUInt64.toNat)
  else if kinds = .ofLong then .long value
  else .int value.toInt32

theorem toNat_floatBits (value : Int64) :
    (floatBits value).toNat = FloatFormat.single.canonical value.toUInt64.toUInt32.toNat := by
  have small := FloatFormat.canonical_lt (f := .single) (value.toUInt64.toUInt32.toNat_lt)
  rw [floatBits, Nat.toUInt32_eq, UInt32.toNat_ofNat_of_lt' small]

theorem toNat_doubleBits (value : Int64) :
    (doubleBits value).toNat = FloatFormat.double.canonical value.toUInt64.toNat := by
  have small := FloatFormat.canonical_lt (f := .double) (value.toUInt64.toNat_lt)
  rw [doubleBits, Nat.toUInt64_eq, UInt64.toNat_ofNat_of_lt' small]

variable {R : Rounding} {p q : Pool} {kinds : Kinds} {value : Int64} {code : Bytes}

theorem number_float (value : Int64) :
    number .ofFloat value = .float (FloatFormat.single.datum (floatBits value).toNat) := by
  rw [toNat_floatBits, FloatFormat.datum_canonical FloatFormat.standard_single]
  rfl

theorem number_double (value : Int64) :
    number .ofDouble value = .double (FloatFormat.double.datum (doubleBits value).toNat) := by
  rw [toNat_doubleBits, FloatFormat.datum_canonical FloatFormat.standard_double]
  rfl

theorem toUInt32_extended (x : UInt32) : x.toInt32.toInt64.toUInt64.toUInt32 = x := by
  rw [← UInt32.toBitVec_inj, UInt64.toBitVec_toUInt32]
  change (x.toBitVec.signExtend 64).setWidth 32 = x.toBitVec
  ext i inside
  have within : i < 64 := by omega
  simp [BitVec.getElem_signExtend, inside, within]

section Numeric

variable (numeric : kinds ∈ [.ofInt, .ofFloat, .ofLong, .ofDouble])
include numeric

theorem number_normalize (value : Int64) :
    number kinds (normalize kinds value) = number kinds value := by
  simp only [List.mem_cons, List.not_mem_nil, or_false] at numeric
  rcases numeric with rfl | rfl | rfl | rfl
  · change Number.int value.toInt32.toInt64.toInt32 = .int value.toInt32
    simp
  · have bits : (normalize .ofFloat value).toUInt64.toUInt32 = floatBits value := by
      change (floatBits value).toInt32.toInt64.toUInt64.toUInt32 = floatBits value
      exact toUInt32_extended _
    rw [number_float value]
    change Number.float
      (FloatFormat.single.datum (normalize .ofFloat value).toUInt64.toUInt32.toNat) = _
    rw [bits]
  · rfl
  · have bits : (normalize .ofDouble value).toUInt64 = doubleBits value := by
      change (doubleBits value).toInt64.toUInt64 = doubleBits value
      simp
    rw [number_double value]
    change Number.double (FloatFormat.double.datum (normalize .ofDouble value).toUInt64.toNat) = _
    rw [bits]

theorem yields_short? (short : short? kinds value = some code) :
    Yields R p code [] [number kinds value] := by
  simp only [List.mem_cons, List.not_mem_nil, or_false] at numeric
  rcases numeric with rfl | rfl | rfl | rfl
  · exact Short.yields_int? short
  · rw [number_float]
    refine Short.yields_real? Short.computes_singleOps FloatFormat.standard_single
      (floatBits value).toNat_lt ?_ short
    rw [toNat_floatBits]
    exact FloatFormat.eq_nan_of_canonical
  · exact Short.yields_long? short
  · rw [number_double]
    refine Short.yields_real? Short.computes_doubleOps FloatFormat.standard_double
      (doubleBits value).toNat_lt ?_ short
    rw [toNat_doubleBits]
    exact FloatFormat.eq_nan_of_canonical

theorem yields_compute (value : Int64) :
    ∃ code, compute kinds value = .ok code ∧ ∀ (R : Rounding) (p : Pool),
      Yields R p code [] [number kinds value] := by
  simp only [List.mem_cons, List.not_mem_nil, or_false] at numeric
  rcases numeric with rfl | rfl | rfl | rfl
  · exact ⟨_, rfl, fun R p => Computed.yields_int _⟩
  · refine ⟨_, rfl, fun R p => ?_⟩
    rw [number_float]
    refine Computed.yields_float ?_
    rw [toNat_floatBits]
    exact FloatFormat.eq_nan_of_canonical
  · exact ⟨_, rfl, fun R p => Computed.yields_long _⟩
  · refine ⟨_, rfl, fun R p => ?_⟩
    rw [number_double]
    refine Computed.yields_double ?_
    rw [toNat_doubleBits]
    exact FloatFormat.eq_nan_of_canonical

theorem number?_of_entry? {index : UInt16} (there : p.entry? index = some (entry kinds value)) :
    p.number? kinds.isWide index = some (number kinds value) := by
  simp only [List.mem_cons, List.not_mem_nil, or_false] at numeric
  rw [Pool.number?, there]
  rcases numeric with rfl | rfl | rfl | rfl <;> rfl

theorem yields_loadCode {index : UInt16} (there : p.entry? index = some (entry kinds value)) :
    Yields R p (loadCode kinds index) [] [number kinds value] := by
  have known := number?_of_entry? numeric there
  have word : (Bytes.number (Bytes.ofUInt16 index)).toUInt16 = index := by
    rw [Bytes.number_ofUInt16]; simp
  unfold loadCode
  intro s
  split
  next wide =>
    change ((p.number? true (Bytes.number (Bytes.ofUInt16 index)).toUInt16).map (· :: s)).bind _ = _
    rw [wide] at known
    rw [word, known]
    rfl
  next narrow =>
    rw [Bool.not_eq_true] at narrow
    rw [narrow] at known
    split
    next small =>
      have byte : (Bytes.number [index.toUInt8]).toUInt16 = index := by
        rw [UInt16.lt_iff_toNat_lt] at small
        change index.toNat < 256 at small
        simp [Bytes.number, Nat.mod_eq_of_lt small]
      change ((p.number? false (Bytes.number [index.toUInt8]).toUInt16).map (· :: s)).bind _ = _
      rw [byte, known]
      rfl
    next =>
      change ((p.number? false (Bytes.number (Bytes.ofUInt16 index)).toUInt16).map (· :: s)).bind
        _ = _
      rw [word, known]
      rfl

end Numeric

end Literal

namespace Pool

theorem entry?_of_offer {p q : Pool} {e : Entry} {i : UInt16} (done : p.offer e = (some i, q)) :
    q.entry? i = some e := by
  have found := (answers_offer p e).found i (by rw [done])
  rw [done] at found
  exact q.found e i found

theorem after_grows (p : Pool) (calls : List Call) : p.Grows (p.after calls) := by
  induction calls generalizing p with
  | nil => exact .refl p
  | cons call calls ih =>
    have fine : call.Allowed (fun _ _ => True) p := by cases call <;> simp [Call.Allowed]
    have added : Adds (fun _ _ => True) p (call.ask p).2 :=
      call.ask_adds (fun _ _ _ _ => trivial) p fine
    exact added.grows.trans _ _ _ (ih _)

theorem offer_eq_insert {p : Pool} {e : Entry} (absent : p.find? e = none)
    (room : e.width ≤ p.space) :
    ∃ i q, p.insert e true = (.ok i, q) ∧ p.offer e = (some i, q) := by
  rw [insert, dif_neg (Nat.not_lt.2 room), offer, absent]
  simp only
  rw [dif_neg (Nat.not_lt.2 room)]
  exact ⟨_, _, rfl, rfl⟩

/-- The code loads an entry of the pool in the form for its width and index, where it stays whatever
is asked of the pool. -/
def Loads (p : Pool) (code : Bytes) (e : Entry) : Prop :=
  ∃ index : UInt16, (∀ calls, entry? (p.after calls) index = some e) ∧
    code = if e.isWide then Bytes.opWithIndex Op.ldc2W index
      else if index < 256 then [Op.ldc, index.toUInt8] else Bytes.opWithIndex Op.ldcW index

end Pool

namespace Literal

variable {R : Rounding} {p q : Pool} {kinds : Kinds} {value : Int64} {code : Bytes}

/-- The literal holds the normalized value, and its code pushes the number, whatever is asked of the
pool before it runs. -/
structure Denotes (l : Literal) (R : Rounding) (p : Pool) (kinds : Kinds) (value : Int64) :
    Prop where
  kind : l.kinds = kinds
  holds : l.value = normalize kinds value
  runs : ∀ (calls : List Pool.Call) (s : List Number),
    R.run? (p.after calls) 0 l.code s = some (number kinds (normalize kinds value) :: s)

theorem isWide_entry (numeric : kinds ∈ [.ofInt, .ofFloat, .ofLong, .ofDouble]) (value : Int64) :
    (entry kinds value).isWide = kinds.isWide := by
  simp only [List.mem_cons, List.not_mem_nil, or_false] at numeric
  rcases numeric with rfl | rfl | rfl | rfl <;> rfl

theorem entry?_of_fromPool? (found : fromPool? kinds value p = (some code, q)) :
    ∃ index, code = loadCode kinds index ∧ q.entry? index = some (entry kinds value) := by
  have asked : (p.offer (entry kinds value)).1.map (loadCode kinds) = some code :=
    congrArg Prod.fst found
  obtain ⟨index, offered, rfl⟩ := Option.map_eq_some_iff.1 asked
  have same : (p.offer (entry kinds value)).2 = q := congrArg Prod.snd found
  exact ⟨index, rfl, Pool.entry?_of_offer (Prod.ext offered same)⟩

theorem loads_of_fromPool? (numeric : kinds ∈ [.ofInt, .ofFloat, .ofLong, .ofDouble])
    (found : fromPool? kinds value p = (some code, q)) :
    q.Loads code (entry kinds value) ∧
    ∀ calls, Yields R (q.after calls) code [] [number kinds value] := by
  obtain ⟨index, rfl, there⟩ := entry?_of_fromPool? found
  have ever (calls : List Pool.Call) : Pool.entry? (q.after calls) index =
      some (entry kinds value) :=
    (q.after_grows calls).entries _ _ there
  refine ⟨⟨index, ever, ?_⟩, fun calls => yields_loadCode numeric (ever calls)⟩
  rw [isWide_entry numeric, loadCode]

theorem shorten_cases (l : Literal) (p : Pool) :
    (∃ q, l.shorten p = (l, q) ∧ (l.code.length ≤ 2 → q = p)) ∨
    ∃ code q, fromPool? l.kinds l.value p = (some code, q) ∧ l.shorten p = ({ l with code }, q) ∧
      code.length < l.code.length ∧ 2 < l.code.length := by
  unfold shorten
  split
  next long =>
    split
    next code q found =>
      split
      next shorter => exact .inr ⟨code, q, found, rfl, shorter, long⟩
      next => exact .inl ⟨q, rfl, fun short => absurd long (Nat.not_lt.2 short)⟩
    next q _ => exact .inl ⟨q, rfl, fun short => absurd long (Nat.not_lt.2 short)⟩
  next => exact .inl ⟨p, rfl, fun _ => rfl⟩

theorem pooled_cases (kinds : Kinds) (value : Int64) (p : Pool) :
    (∃ l q, (pooled kinds value).run p = (.ok l, q)) ∨ short? kinds (normalize kinds value) = none ∧
      p.find? (entry kinds (normalize kinds value)) = none ∧
      p.space < (entry kinds (normalize kinds value)).width := by
  have answers := Pool.answers_offer p (entry kinds (normalize kinds value))
  simp only [pooled, ExceptT.run_mk]
  split
  next code short => exact .inl ⟨_, _, rfl⟩
  next none =>
    split
    next => exact .inl ⟨_, _, rfl⟩
    next refused =>
      have missing := congrArg Prod.fst refused
      exact .inr ⟨none, answers.fails_iff.1 (Option.map_eq_none_iff.1 missing)⟩

/-- However a literal is encoded, its code pushes the number of its normalized value: from the pool,
computed, or computed and offered to the pool, which makes no code longer and keeps codes of at most
two bytes. -/
theorem encodings_agree (R : Rounding) (kinds : Kinds)
    (numeric : kinds ∈ [.ofInt, .ofFloat, .ofLong, .ofDouble]) (value : Int64) (p : Pool) :
    number kinds (normalize kinds value) = number kinds value ∧
    (∀ l q, (pooled kinds value).run p = (.ok l, q) → l.Denotes R q kinds value ∧
      (short? kinds (normalize kinds value) = some l.code ∨
        q.Loads l.code (entry kinds (normalize kinds value)))) ∧
    ((∃ l q, (pooled kinds value).run p = (.ok l, q)) ∨
      short? kinds (normalize kinds value) = none ∧
      p.find? (entry kinds (normalize kinds value)) = none ∧
      p.space < (entry kinds (normalize kinds value)).width) ∧
    ∃ l, computed kinds value = .ok l ∧ l.Denotes R p kinds value ∧
      (l.shorten p).1.Denotes R (l.shorten p).2 kinds value ∧
      ((l.shorten p).1 = l ∨ Pool.Loads (l.shorten p).2 (l.shorten p).1.code
        (entry kinds (normalize kinds value))) ∧
      (p.find? (entry l.kinds l.value) = none → (entry l.kinds l.value).width ≤ p.space →
        ∃ i q, p.insert (entry l.kinds l.value) true = (.ok i, q) ∧
        p.offer (entry l.kinds l.value) = (some i, q)) ∧
      (l.shorten p).1.code.length ≤ l.code.length ∧ (l.code.length ≤ 2 → l.shorten p = (l, p)) := by
  refine ⟨number_normalize numeric value, ?_, pooled_cases kinds value p, ?_⟩
  · intro l q made
    simp only [pooled, ExceptT.run_mk] at made
    split at made
    next code short =>
      cases made
      exact ⟨⟨rfl, rfl, fun calls => yields_short? numeric short⟩, .inl short⟩
    next =>
      split at made
      next code _ found =>
        cases made
        obtain ⟨loads, pushes⟩ := loads_of_fromPool? (R := R) numeric found
        exact ⟨⟨rfl, rfl, pushes⟩, .inr loads⟩
      next => cases made
  · obtain ⟨code, computes, pushes⟩ := yields_compute numeric (normalize kinds value)
    have own (q : Pool) : Denotes ⟨kinds, normalize kinds value, code⟩ R q kinds value :=
      ⟨rfl, rfl, fun calls => pushes R (q.after calls)⟩
    refine ⟨⟨kinds, normalize kinds value, code⟩, by rw [computed, computes]; rfl, own p, ?_⟩
    rcases shorten_cases ⟨kinds, normalize kinds value, code⟩ p with
      ⟨q, kept, same⟩ | ⟨load, q, found, shortened, shorter, long⟩
    · rw [kept]
      exact ⟨own q, .inl rfl, Pool.offer_eq_insert, Nat.le_refl _, fun short => by rw [same short]⟩
    · rw [shortened]
      obtain ⟨loads, pushed⟩ := loads_of_fromPool? (R := R) numeric found
      refine ⟨⟨rfl, rfl, pushed⟩, .inr loads, Pool.offer_eq_insert, Nat.le_of_lt shorter, ?_⟩
      exact fun short => absurd long (Nat.not_lt.2 short)

def tenth : Int64 := 4591870180066957722

theorem tenth_encodings_agree :
    number .ofDouble (normalize .ofDouble tenth) =
      .double (.finite ((7205759403792794 : Int) * 2 ^ (-56 : Int))) ∧
    ∃ l m q, computed .ofDouble tenth = .ok l ∧ (pooled .ofDouble tenth).run (Pool.empty .split) =
      (.ok m, q) ∧
      l.Denotes default (Pool.empty .split) .ofDouble tenth ∧ m.Denotes default q .ofDouble tenth ∧
      (l.shorten (Pool.empty .split)).1.Denotes default
        (l.shorten (Pool.empty .split)).2 .ofDouble tenth := by
  obtain ⟨same, pools, made | ⟨-, -, full⟩, l, computes, denotes, shortened, -⟩ :=
    encodings_agree default .ofDouble (by decide) tenth (Pool.empty .split)
  · obtain ⟨m, q, found⟩ := made
    refine ⟨same.trans rfl, l, m, q, computes, found, denotes, (pools m q found).1, shortened⟩
  · exact absurd full (by decide)

end Literal

end Restack
