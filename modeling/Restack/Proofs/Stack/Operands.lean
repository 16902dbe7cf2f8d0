import Restack.Proofs.Bytes.Readers
import Restack.Proofs.Pool
import Restack.Stack.Instruction

set_option autoImplicit false

namespace Restack

/-- An operand stack: the slots that each of its values takes up, the top first. -/
abbrev Operands := List Nat

namespace Operands

def slots (s : Operands) : Nat := s.sum

def drop? : Operands → Operands → Option Operands
  | [], s => some s
  | w :: ws, v :: s => if v = w then drop? ws s else none
  | _ :: _, [] => none

theorem drop?_eq_some {ws s t : Operands} : drop? ws s = some t ↔ s = ws ++ t := by
  fun_induction drop? ws s with
  | case1 s => simp [eq_comm]
  | case2 w ws s ih => simpa using ih
  | case3 w ws v s other => simp [other]
  | case4 => simp

@[simp] theorem slots_nil : slots [] = 0 := rfl

@[simp] theorem slots_cons (w : Nat) (s : Operands) : slots (w :: s) = w + slots s := List.sum_cons

@[simp] theorem slots_append (s t : Operands) : slots (s ++ t) = slots s + slots t :=
  List.sum_append

@[simp] theorem slots_reverse (s : Operands) : slots s.reverse = slots s := List.sum_reverse s

end Operands

/-- What an instruction takes off the stack and what it puts there, both with the top first. -/
structure Effect where
  takes : Operands
  puts : Operands
deriving DecidableEq, Repr

namespace Effect

def on? (e : Effect) (s : Operands) : Option Operands :=
  (Operands.drop? e.takes s).map (e.puts ++ ·)

theorem on?_eq_some {e : Effect} {s t : Operands} :
    e.on? s = some t ↔ ∃ rest, s = e.takes ++ rest ∧ t = e.puts ++ rest := by
  simp only [on?, Option.map_eq_some_iff, Operands.drop?_eq_some]
  exact exists_congr fun rest => and_congr_right fun _ => eq_comm

end Effect

namespace Op

/-- The last opcode of each run of opcodes with one effect, in ascending order. Two values of one
slot are as good as one of two slots to `pop2` and `dup2`; the other shuffles are left out. -/
def effectRuns : List (UInt8 × List Effect) :=
  let push (w : Nat) : List Effect := [⟨[], [w]⟩]
  let drop (w : Nat) : List Effect := [⟨[w], []⟩]
  let turn (v w : Nat) : List Effect := [⟨[v], [w]⟩]
  let join (v w : Nat) : List Effect := [⟨[v, w], [w]⟩]
  [(0x00, [⟨[], []⟩]), (0x08, push 1), (0x0a, push 2), (0x0d, push 1), (0x0f, push 2),
    (0x13, push 1), (0x14, push 2),
    -- Loads and stores of locals.
    (0x15, push 1), (0x16, push 2), (0x17, push 1), (0x18, push 2), (0x1d, push 1), (0x21, push 2),
    (0x25, push 1), (0x29, push 2), (0x2d, push 1), (0x2e, join 1 1), (0x2f, [⟨[1, 1], [2]⟩]),
    (0x30, join 1 1), (0x31, [⟨[1, 1], [2]⟩]), (0x35, join 1 1), (0x36, drop 1), (0x37, drop 2),
    (0x38, drop 1), (0x39, drop 2), (0x3e, drop 1), (0x42, drop 2), (0x46, drop 1), (0x4a, drop 2),
    (0x4e, drop 1), (0x4f, [⟨[1, 1, 1], []⟩]), (0x50, [⟨[2, 1, 1], []⟩]),
    (0x51, [⟨[1, 1, 1], []⟩]), (0x52, [⟨[2, 1, 1], []⟩]), (0x56, [⟨[1, 1, 1], []⟩]),
    -- Shuffles.
    (0x57, drop 1), (0x58, [⟨[1, 1], []⟩, ⟨[2], []⟩]), (0x59, [⟨[1], [1, 1]⟩]), (0x5b, []),
    (0x5c, [⟨[1, 1], [1, 1, 1, 1]⟩, ⟨[2], [2, 2]⟩]), (0x5f, []),
    -- Arithmetic.
    (0x60, join 1 1), (0x61, join 2 2), (0x62, join 1 1), (0x63, join 2 2), (0x64, join 1 1),
    (0x65, join 2 2), (0x66, join 1 1), (0x67, join 2 2), (0x68, join 1 1), (0x69, join 2 2),
    (0x6a, join 1 1), (0x6b, join 2 2), (0x6c, join 1 1), (0x6d, join 2 2), (0x6e, join 1 1),
    (0x6f, join 2 2), (0x70, join 1 1), (0x71, join 2 2), (0x72, join 1 1), (0x73, join 2 2),
    (0x74, turn 1 1), (0x75, turn 2 2), (0x76, turn 1 1), (0x77, turn 2 2), (0x78, join 1 1),
    (0x79, join 1 2), (0x7a, join 1 1), (0x7b, join 1 2), (0x7c, join 1 1), (0x7d, join 1 2),
    (0x7e, join 1 1), (0x7f, join 2 2), (0x80, join 1 1), (0x81, join 2 2), (0x82, join 1 1),
    (0x83, join 2 2), (0x84, [⟨[], []⟩]),
    -- Conversions and comparisons.
    (0x85, turn 1 2), (0x86, turn 1 1), (0x87, turn 1 2), (0x89, turn 2 1), (0x8a, turn 2 2),
    (0x8b, turn 1 1), (0x8d, turn 1 2), (0x8e, turn 2 1), (0x8f, turn 2 2), (0x90, turn 2 1),
    (0x93, turn 1 1), (0x94, [⟨[2, 2], [1]⟩]), (0x96, join 1 1), (0x98, [⟨[2, 2], [1]⟩]),
    -- Jumps and returns.
    (0x9e, drop 1), (0xa6, [⟨[1, 1], []⟩]), (0xa7, [⟨[], []⟩]), (0xa9, []), (0xac, drop 1),
    (0xad, drop 2), (0xae, drop 1), (0xaf, drop 2), (0xb0, drop 1), (0xb1, [⟨[], []⟩]), (0xba, []),
    -- Objects.
    (0xbb, push 1), (0xbe, turn 1 1), (0xbf, drop 1), (0xc1, turn 1 1), (0xc3, drop 1), (0xc5, []),
    (0xc7, drop 1), (0xc8, [⟨[], []⟩])]

/-- The effects that an opcode has on its own, whatever its operands are: none if it refers to a
member. -/
def effects (op : UInt8) : List Effect := ((effectRuns.find? (op ≤ ·.1)).map (·.2)).getD []

/-- The last opcode of each run of opcodes with as many operand bytes, in ascending order. -/
def operandRuns : List (UInt8 × Nat) :=
  [(0x0f, 0), (0x10, 1), (0x11, 2), (0x12, 1), (0x14, 2), (0x19, 1), (0x35, 0), (0x3a, 1),
    (0x83, 0), (0x84, 2), (0x98, 0),
    (0xa8, 2), (0xa9, 1), (0xb1, 0), (0xb8, 2), (0xba, 4), (0xbb, 2), (0xbc, 1), (0xbd, 2),
    (0xbf, 0), (0xc1, 2), (0xc3, 0), (0xc5, 3), (0xc7, 2), (0xc9, 4)]

/-- How many bytes belong to an instruction besides its opcode. -/
def operandBytes (op : UInt8) : Nat := ((operandRuns.find? (op ≤ ·.1)).map (·.2)).getD 0

end Op

def TypeDesc.operands : TypeDesc → Operands
  | .long | .double => [2]
  | .void => []
  | _ => [1]

def Kinds.width (k : Kinds) : Nat := if k.isWide then 2 else 1

def MethodDesc.operands (m : MethodDesc) : Operands := (m.args.flatMap TypeDesc.operands).reverse

namespace Pool

def descriptor? (p : Pool) (index : UInt16) : Option String :=
  match p.entry? index with
  | some (.nameType _ d) =>
    match p.entry? d with
    | some (.utf8 bytes) => p.texts.decode bytes
    | _ => none
  | _ => none

def fieldType? (p : Pool) (index : UInt16) : Option TypeDesc :=
  match p.entry? index with
  | some (.field _ member) => (p.descriptor? member).bind fun d => (TypeDesc.parse d).toOption
  | _ => none

def methodType? (p : Pool) (index : UInt16) : Option MethodDesc :=
  match p.entry? index with
  | some (.method _ member) | some (.interfaceMethod _ member) =>
    (p.descriptor? member).bind fun d => (MethodDesc.parse d).toOption
  | _ => none

theorem HasNameType.descriptor?_eq {p : Pool} {index : UInt16} {name descriptor : String}
    (known : p.HasNameType index name descriptor) : p.descriptor? index = some descriptor := by
  obtain ⟨n, d, at_index, _, at_descriptor⟩ := known
  have text : p.entry? d = some (.utf8 (p.texts.encode descriptor)) := at_descriptor
  simp [descriptor?, at_index, text, p.texts.decode_encode]

/-- What an instruction does that refers to the member at an index. -/
def memberEffect? (p : Pool) (op : UInt8) (index : UInt16) : Option Effect :=
  if op = Op.getstatic then (p.fieldType? index).map fun t => ⟨[], t.operands⟩
  else if op = Op.putstatic then (p.fieldType? index).map fun t => ⟨t.operands, []⟩
  else if op = Op.getfield then (p.fieldType? index).map fun t => ⟨[1], t.operands⟩
  else if op = Op.putfield then (p.fieldType? index).map fun t => ⟨t.operands ++ [1], []⟩
  else if op = Op.invokestatic then (p.methodType? index).map fun m =>
    ⟨m.operands, m.result.operands⟩
  else if Op.invokevirtual ≤ op ∧ op ≤ Op.invokeinterface then
    (p.methodType? index).map fun m => ⟨m.operands ++ [1], m.result.operands⟩
  else none

def effects (p : Pool) (op : UInt8) (behind : Bytes) : List Effect :=
  if Op.getstatic ≤ op ∧ op ≤ Op.invokeinterface then
    ((Bytes.word 2 behind).bind fun (index, _) => p.memberEffect? op index.toUInt16).toList
  else Op.effects op

def step? (p : Pool) (op : UInt8) (behind : Bytes) (s : Operands) : Option Operands :=
  (p.effects op behind).findSome? (·.on? s)

/-- The stack after straight code, if it never gets stuck and never uses more slots than the limit.
The first `skip` bytes are passed over. -/
def run? (p : Pool) (limit : Nat) : (skip : Nat) → Bytes → Operands → Option Operands
  | 0, [], s => some s
  | _ + 1, [], _ => none
  | skip + 1, _ :: code, s => run? p limit skip code s
  | 0, op :: code, s =>
    (p.step? op code s).bind fun t => if t.slots ≤
      limit then run? p limit (Op.operandBytes op) code t else none

end Pool

namespace Access

def opcode (a : Access) : UInt8 := (if a.isStore then Op.istore else Op.iload) + a.var.kinds.variant

end Access

/-- The stack after an instruction. Slots and distances make no difference to it. -/
def Insn.run? (p : Pool) (limit : Nat) (x : Insn) (s : Operands) : Option Operands :=
  match x with
  | .label _ => some s
  | .access a => (p.step? a.opcode [] s).filter (·.slots ≤ limit)
  | .literal l => p.run? limit 0 l.code s
  | .constant code | .plain code => p.run? limit 0 code s
  | .jump j => p.step? (j.op.getD Op.goto) [] s
  | .switch _ => p.step? Op.tableswitch [] s

namespace Op

theorem forall_byte {P : UInt8 → Prop} (each : ∀ n : Fin 256, P (.ofFin n)) (op : UInt8) : P op :=
  each op.toFin

theorem effects_pop2 : effects pop2 = [⟨[1, 1], []⟩, ⟨[2], []⟩] := by decide

theorem effects_dup2 : effects dup2 = [⟨[1, 1], [1, 1, 1, 1]⟩, ⟨[2], [2, 2]⟩] := by decide

/-- Of several effects of an opcode the value on top decides which it has. -/
theorem effects_exclusive {op : UInt8} {e e' : Effect} (member : e ∈ effects op)
    (member' : e' ∈ effects op) {t t' : Operands} (same : e.takes ++ t = e'.takes ++ t') :
    e = e' := by
  have single : (effects op).length ≤ 1 ∨ op = pop2 ∨ op = dup2 :=
    forall_byte (P := fun op => (effects op).length ≤ 1 ∨ op = pop2 ∨ op = dup2)
      (by decide +kernel) op
  have by_top {puts puts' : Operands} (listed : effects op = [⟨[1, 1], puts⟩, ⟨[2], puts'⟩]) :
      e = e' := by
    rw [listed] at member member'
    simp only [List.mem_cons, List.not_mem_nil, or_false] at member member'
    rcases member with rfl | rfl <;> rcases member' with rfl | rfl <;> simp at same <;> rfl
  rcases single with single | rfl | rfl
  · match listed : effects op, single with
    | [], _ => simp [listed] at member
    | [_], _ =>
      rw [listed, List.mem_singleton] at member member'
      rw [member, member']
  · exact by_top effects_pop2
  · exact by_top effects_dup2

end Op

namespace Pool

variable {p : Pool} {limit : Nat} {op : UInt8} {behind : Bytes} {s t : Operands} {code : Bytes}
  {skip : Nat}

theorem effects_exclusive {e e' : Effect} (member : e ∈ p.effects op behind)
    (member' : e' ∈ p.effects op behind) {t t' : Operands} (same : e.takes ++ t = e'.takes ++ t') :
    e = e' := by
  unfold effects at member member'
  split at member
  next inside =>
    rw [if_pos inside, Option.mem_toList] at member'
    rw [Option.mem_toList] at member
    exact Option.some.inj (member.symm.trans member')
  next outside =>
    rw [if_neg outside] at member'
    exact Op.effects_exclusive member member' same

theorem step?_eq_some :
    p.step? op behind s = some t ↔ ∃ e ∈ p.effects op behind, ∃ rest, s = e.takes ++ rest ∧
    t = e.puts ++ rest := by
  constructor
  · intro stepped
    obtain ⟨_, e, _, listed, applied, _⟩ := List.findSome?_eq_some_iff.1 stepped
    exact ⟨e, by simp [listed], Effect.on?_eq_some.1 applied⟩
  · rintro ⟨e, member, rest, rfl, rfl⟩
    have applies : e.on? (e.takes ++ rest) = some (e.puts ++ rest) :=
      Effect.on?_eq_some.2 ⟨rest, rfl, rfl⟩
    cases found : p.step? op behind (e.takes ++ rest) with
    | none =>
      have none := List.findSome?_eq_none_iff.1 found e member
      rw [applies] at none
      cases none
    | some u =>
      obtain ⟨_, e', _, listed, applied, _⟩ := List.findSome?_eq_some_iff.1 found
      obtain ⟨rest', taken, rfl⟩ := Effect.on?_eq_some.1 applied
      cases effects_exclusive member (by simp [listed]) taken
      rw [List.append_cancel_left taken]

theorem step?_append (stepped : p.step? op behind s = some t) (below : Operands) :
    p.step? op behind (s ++ below) = some (t ++ below) := by
  obtain ⟨e, member, rest, rfl, rfl⟩ := step?_eq_some.1 stepped
  exact step?_eq_some.2
    ⟨e, member, rest ++ below, by rw [List.append_assoc], by rw [List.append_assoc]⟩

theorem step?_behind (stepped : p.step? op behind s = some t) (more : Bytes) :
    p.step? op (behind ++ more) s = some t := by
  obtain ⟨e, member, rest⟩ := step?_eq_some.1 stepped
  refine step?_eq_some.2 ⟨e, ?_, rest⟩
  unfold effects at member ⊢
  split at member
  next inside =>
    rw [if_pos inside]
    rw [Option.mem_toList] at member ⊢
    obtain ⟨⟨index, rest'⟩, read, known⟩ := Option.bind_eq_some_iff.1 member
    obtain ⟨⟨front, _⟩, part, same⟩ := Option.map_eq_some_iff.1 read
    cases same
    obtain ⟨length, rfl⟩ := Bytes.cut_eq_some part
    have longer : Bytes.word 2 (front ++ rest' ++ more) =
        some (Bytes.number front, rest' ++ more) := by
      rw [List.append_assoc, ← length]
      exact Bytes.word_append front (rest' ++ more)
    rw [longer]
    exact known
  next outside => rwa [if_neg outside]

theorem run?_cons (code : Bytes) : p.run? limit 0 (op :: code) s =
    (p.step? op code s).bind fun t => if t.slots ≤
      limit then p.run? limit (Op.operandBytes op) code t else none := by
  rw [run?]

theorem run?_step (stepped : p.step? op code s = some t) (fits : t.slots ≤ limit) :
    p.run? limit 0 (op :: code) s = p.run? limit (Op.operandBytes op) code t := by
  rw [run?_cons, stepped, Option.bind_some, if_pos fits]

section

variable (ran : p.run? limit skip code s = some t)
include ran

theorem run?_mono {more : Nat} (le : limit ≤ more) : p.run? more skip code s = some t := by
  fun_induction run? p limit skip code s with
  | case1 => simpa [run?] using ran
  | case2 => cases ran
  | case3 skip _ code s ih =>
    rw [run?]
    exact ih ran
  | case4 op code s ih =>
    obtain ⟨u, stepped, rest⟩ := Option.bind_eq_some_iff.1 ran
    split at rest
    next fits =>
      rw [run?_step stepped (Nat.le_trans fits le)]
      exact ih u rest
    next => cases rest

theorem run?_append (more : Bytes) :
    p.run? limit skip (code ++ more) s = p.run? limit 0 more t := by
  fun_induction run? p limit skip code s with
  | case1 =>
    cases ran
    rfl
  | case2 => cases ran
  | case3 skip _ code s ih =>
    rw [List.cons_append, run?]
    exact ih ran
  | case4 op code s ih =>
    obtain ⟨u, stepped, rest⟩ := Option.bind_eq_some_iff.1 ran
    split at rest
    next fits =>
      rw [List.cons_append, run?_step (step?_behind stepped more) fits]
      exact ih u rest
    next => cases rest

theorem run?_below (below : Operands) :
    p.run? (limit + below.slots) skip code (s ++ below) = some (t ++ below) := by
  fun_induction run? p limit skip code s with
  | case1 =>
    cases ran
    rfl
  | case2 => cases ran
  | case3 skip _ code s ih =>
    rw [run?]
    exact ih ran
  | case4 op code s ih =>
    obtain ⟨u, stepped, rest⟩ := Option.bind_eq_some_iff.1 ran
    split at rest
    next fits =>
      have deeper : (u ++ below).slots ≤ limit + below.slots := by
        rw [Operands.slots_append]
        omega
      rw [run?_step (step?_append stepped below) deeper]
      exact ih u rest
    next => cases rest

end

end Pool

/-- The code works on the values `takes` on top of any stack, leaves `puts` in their place, and
never has more than `room` slots on top of the rest. -/
def Turns (room : Nat) (code : Bytes) (takes puts : Operands) : Prop :=
  ∀ (p : Pool) (s : Operands), p.run? (room + s.slots) 0 code (takes ++ s) = some (puts ++ s)

namespace Turns

variable {room more : Nat} {code next : Bytes} {a b c : Operands}

theorem of_run? (ran : ∀ p : Pool, p.run? room 0 code a = some b) : Turns room code a b :=
  fun p s => Pool.run?_below (ran p) s

theorem mono (turns : Turns room code a b) (le : room ≤ more) : Turns more code a b :=
  fun p s => Pool.run?_mono (turns p s) (by omega)

theorem append (first : Turns room code a b) (second : Turns room next b c) :
    Turns room (code ++ next) a c :=
  fun p s => (Pool.run?_append (first p s) next).trans (second p s)

theorem below (turns : Turns room code a b) (s : Operands) :
    Turns (room + s.slots) code (a ++ s) (b ++ s) := by
  intro p t
  have deeper := turns p (s ++ t)
  rw [List.append_assoc, List.append_assoc, Nat.add_assoc, ← Operands.slots_append]
  exact deeper

theorem nil (a : Operands) : Turns room [] a a := fun _ _ => rfl

theorem replicate (turns : Turns room code a a) (n : Nat) :
    Turns room (List.replicate n code).flatten a a := by
  induction n with
  | zero => exact nil a
  | succ n ih =>
    rw [List.replicate_succ, List.flatten_cons]
    exact turns.append ih

end Turns

end Restack
