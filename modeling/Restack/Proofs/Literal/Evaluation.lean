import Restack.Proofs.FloatFormat
import Restack.Proofs.Stack.Operands

set_option autoImplicit false

namespace Restack

/-- A way to round what a format cannot represent. -/
structure Rounding where
  round : FloatFormat → ℚ → Datum
  exact : ∀ (f : FloatFormat) (q : ℚ), q ≠ 0 → f.Represents q → round f q = .finite q

/-- Arithmetic on rationals, which rounds nothing. -/
def Rounding.rational : Rounding := ⟨fun _ q => .finite q, fun _ _ _ _ => rfl⟩

instance : Inhabited Rounding := ⟨.rational⟩

inductive Number where
  | int (x : Int32)
  | long (x : Int64)
  | float (d : Datum)
  | double (d : Datum)
deriving DecidableEq, Repr

namespace Number

def isWide : Number → Bool
  | .int _ | .float _ => false
  | .long _ | .double _ => true

end Number

def Entry.number? : Entry → Option Number
  | .int x => some (.int x)
  | .float bits => some (.float (FloatFormat.single.datum bits.toNat))
  | .long x => some (.long x)
  | .double bits => some (.double (FloatFormat.double.datum bits.toNat))
  | _ => none

def Pool.number? (p : Pool) (wide : Bool) (index : UInt16) : Option Number :=
  ((p.entry? index).bind Entry.number?).filter (·.isWide = wide)

namespace Rounding

variable (R : Rounding) (f : FloatFormat)

def ofInt (n : Int) : Datum := if n = 0 then .zero false else R.round f n

def mul : Datum → Datum → Datum
  | .finite a, .finite b => R.round f (a * b)
  | .nan, _ | _, .nan | .infinite _, .zero _ | .zero _, .infinite _ => .nan
  | a@(.infinite _), b | a, b@(.infinite _) => .infinite (a.isNegative != b.isNegative)
  | a, b => .zero (a.isNegative != b.isNegative)

def div : Datum → Datum → Datum
  | .finite a, .finite b => R.round f (a / b)
  | .nan, _ | _, .nan | .infinite _, .infinite _ | .zero _, .zero _ => .nan
  | a@(.infinite _), b | a, b@(.zero _) => .infinite (a.isNegative != b.isNegative)
  | a, b => .zero (a.isNegative != b.isNegative)

def pushed? (p : Pool) (op : UInt8) (operands : Bytes) : Option Number :=
  if Op.iconstM1 ≤ op ∧ op ≤ Op.iconst0 + 5 then some (.int (op - Op.iconst0).toInt8.toInt32)
  else if op = Op.lconst0 then some (.long 0)
  else if op = Op.lconst1 then some (.long 1)
  else if op = Op.fconst0 then some (.float (.zero false))
  else if op = Op.fconst1 then some (.float (.finite 1))
  else if op = Op.dconst0 then some (.double (.zero false))
  else if op = Op.dconst1 then some (.double (.finite 1))
  else if op = Op.bipush then some (.int (Bytes.number operands).toUInt8.toInt8.toInt32)
  else if op = Op.sipush then some (.int (Bytes.number operands).toUInt16.toInt16.toInt32)
  else if op = Op.ldc ∨ op = Op.ldcW then p.number? false (Bytes.number operands).toUInt16
  else if op = Op.ldc2W then p.number? true (Bytes.number operands).toUInt16
  else none

def unary? (op : UInt8) : Number → Option Number
  | .int x =>
    if op = Op.i2c then some (.int x.toUInt32.toUInt16.toUInt32.toInt32)
    else if op = Op.ineg then some (.int (-x))
    else if op = Op.i2l then some (.long x.toInt64)
    else if op = Op.i2f then some (.float (R.ofInt .single x.toInt))
    else if op = Op.i2d then some (.double (R.ofInt .double x.toInt))
    else none
  | .long x =>
    if op = Op.l2f then some (.float (R.ofInt .single x.toInt))
    else if op = Op.l2d then some (.double (R.ofInt .double x.toInt))
    else none
  | .float d => if op = Op.fneg then some (.float d.neg) else none
  | .double d => if op = Op.dneg then some (.double d.neg) else none

/-- What an instruction makes of two numbers, the second of them on top. Shifts go by the lowest
bits of their count. -/
def binary? (op : UInt8) : Number → Number → Option Number
  | .int x, .int y =>
    if op = Op.ishl then some (.int (x <<< y))
    else if op = Op.ishr then some (.int (x >>> y))
    else if op = Op.iushr then some (.int (x.toUInt32 >>> y.toUInt32).toInt32)
    else if op = Op.ixor then some (.int (x ^^^ y))
    else none
  | .long x, .int y => if op = Op.lshl then some (.long (x <<< y.toInt64)) else none
  | .long x, .long y => if op = Op.lxor then some (.long (x ^^^ y)) else none
  | .float x, .float y =>
    if op = Op.fmul then some (.float (R.mul .single x y))
    else if op = Op.fdiv then some (.float (R.div .single x y))
    else none
  | .double x, .double y =>
    if op = Op.dmul then some (.double (R.mul .double x y))
    else if op = Op.ddiv then some (.double (R.div .double x y))
    else none
  | _, _ => none

def doubled? : List Number → Option (List Number)
  | [] => none
  | v :: s =>
    if v.isWide then some (v :: v :: s)
    else
      match s with
      | u :: s => if u.isWide then none else some (v :: u :: v :: u :: s)
      | [] => none

/-- The stack after an instruction that works on one or two numbers. -/
def worked? (op : UInt8) : List Number → Option (List Number)
  | [] => none
  | v :: s =>
    match R.unary? op v with
    | some w => some (w :: s)
    | none =>
      match s with
      | u :: s => (R.binary? op u v).map (· :: s)
      | [] => none

def step? (p : Pool) (op : UInt8) (operands : Bytes) (s : List Number) : Option (List Number) :=
  if op ≤ Op.ldc2W then (pushed? p op operands).map (· :: s)
  else if op = Op.dup2 then doubled? s
  else R.worked? op s

/-- The stack after straight code, the top first, if it never gets stuck. The first `skip` bytes are
passed over. -/
def run? (p : Pool) : (skip : Nat) → Bytes → List Number → Option (List Number)
  | 0, [], s => some s
  | _ + 1, [], _ => none
  | skip + 1, _ :: code, s => run? p skip code s
  | 0, op :: code, s =>
    (R.step? p op (code.take (Op.operandBytes op)) s).bind fun t =>
      run? p (Op.operandBytes op) code t

variable {R} {p : Pool} {s t : List Number} {code : Bytes}

theorem skip_le {skip : Nat} (ran : R.run? p skip code s = some t) : skip ≤ code.length := by
  fun_induction run? R p skip code s with
  | case1 => exact Nat.le_refl 0
  | case2 => cases ran
  | case3 skip _ code s ih => exact Nat.succ_le_succ (ih ran)
  | case4 => exact Nat.zero_le _

theorem run?_append {skip : Nat} (ran : R.run? p skip code s = some t) (more : Bytes) :
    R.run? p skip (code ++ more) s = R.run? p 0 more t := by
  fun_induction run? R p skip code s with
  | case1 =>
    cases ran
    rfl
  | case2 => cases ran
  | case3 skip _ code s ih =>
    rw [List.cons_append, run?]
    exact ih ran
  | case4 op code s ih =>
    obtain ⟨u, stepped, rest⟩ := Option.bind_eq_some_iff.1 ran
    rw [List.cons_append, run?, List.take_append_of_le_length (skip_le rest), stepped,
      Option.bind_some]
    exact ih u rest

end Rounding

/-- The code puts `puts` in the place of the numbers `takes` on top of any stack. -/
def Yields (R : Rounding) (p : Pool) (code : Bytes) (takes puts : List Number) : Prop :=
  ∀ s : List Number, R.run? p 0 code (takes ++ s) = some (puts ++ s)

namespace Yields

variable {R : Rounding} {p : Pool} {code next : Bytes} {a b c : List Number}

theorem nil (a : List Number) : Yields R p [] a a := fun _ => rfl

theorem append (first : Yields R p code a b) (second : Yields R p next b c) :
    Yields R p (code ++ next) a c :=
  fun s => (Rounding.run?_append (first s) next).trans (second s)

theorem below (yields : Yields R p code a b) (c : List Number) :
    Yields R p code (a ++ c) (b ++ c) := by
  intro s
  rw [List.append_assoc, List.append_assoc]
  exact yields (c ++ s)

end Yields

end Restack
