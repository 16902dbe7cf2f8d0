import Restack.Proofs.Literal.Code
import Restack.Proofs.Stack.CopyStacks

set_option autoImplicit false

namespace Restack

variable {op : UInt8}

/-- The opcode stands alone and has this effect. -/
def Op.Does (op : UInt8) (e : Effect) : Prop :=
  e ∈ Op.effects op ∧ Op.operandBytes op = 0 ∧ ¬ (Op.getstatic ≤ op ∧ op ≤ Op.invokeinterface)

instance (op : UInt8) (e : Effect) : Decidable (Op.Does op e) :=
  inferInstanceAs (Decidable (_ ∧ _ ∧ _))

section Instructions

variable {p : Pool} {cap : Nat} {x : Insn} {s t : Operands}

theorem Insn.moves_push {w : Nat} (sound : x.Sound) (pushes : x.pushes? = some w)
    (bound : s.slots ≤ cap) :
    x.Moves p cap s (w :: s) :=
  .of_steps sound bound ((Insn.steps_push_iff sound pushes).2 rfl) (Insn.of_pushes? pushes).2.1

theorem Insn.moves_store {v : Local} (single : v.kinds.Single) (bound : v.width + s.slots ≤ cap) :
    (Insn.store v).Moves p cap (v.width :: s) s := by
  have stores : (Insn.store v).stores? = some v := rfl
  refine .of_steps single ?_ ((Insn.steps_store_iff (x := .store v) single stores).2 rfl) rfl
  rwa [Operands.slots_cons]

theorem Turns.of_does {e : Effect} (does : Op.Does op e) :
    Turns e.puts.slots [op] e.takes e.puts := by
  obtain ⟨listed, bare, no_member⟩ := does
  refine .of_run? fun p => ?_
  have stepped : p.step? op [] e.takes = some e.puts := by
    refine Pool.step?_eq_some.2 ⟨e, ?_, [], (List.append_nil _).symm, (List.append_nil _).symm⟩
    rw [Pool.effects, if_neg no_member]
    exact listed
  rw [Pool.run?_step stepped (Nat.le_refl _), bare]
  rfl

theorem Insn.moves_member {index : UInt16} {e : Effect} (operands : Bytes)
    (range : Op.getstatic ≤ op ∧ op ≤ Op.invokeinterface)
    (known : p.memberEffect? op index = some e) (length : Op.operandBytes op = 2 + operands.length)
    (small : e.puts.slots ≤ headroom) (bound : (e.takes ++ s).slots ≤ cap) :
    (Insn.plain (Bytes.opWithIndex op index ++ operands)).Moves p cap (e.takes ++ s)
      (e.puts ++ s) := by
  have effects : p.effects op (Bytes.ofUInt16 index ++ operands) = [e] := by
    rw [Pool.effects, if_pos range, Bytes.word_ofUInt16]
    simp [known]
  have stepped : p.step? op (Bytes.ofUInt16 index ++ operands) (e.takes ++ s) =
      some (e.puts ++ s) :=
    Pool.step?_eq_some.2 ⟨e, effects ▸ List.mem_cons_self, s, rfl, rfl⟩
  have skipped : ∀ (code : Bytes) (limit : Nat) (t : Operands), p.run? limit code.length code t =
      some t := by
    intro code limit t
    induction code with
    | nil => rfl
    | cons b code ih => exact ih
  refine .of_steps trivial bound ?_ rfl
  change p.run? _ 0 (op :: (Bytes.ofUInt16 index ++ operands)) _ = _
  rw [Pool.run?_step stepped ?_]
  · have whole : Op.operandBytes op = (Bytes.ofUInt16 index ++ operands).length := by
      rw [length, List.length_append]
      rfl
    rw [whole]
    exact skipped _ _ _
  · rw [Operands.slots_append, Operands.slots_append]
    omega

end Instructions

namespace Emit

variable {α β : Type} {K : Pool → Prop} {frame : Frame} {s t u : Operands} {request : PoolM α}
  {f : α → Emit β}

/-- What `m` emits takes the stack from `s` to `t`, in every later pool of which `K` is known. -/
def Takes (K : Pool → Prop) (frame : Frame) (m : Emit α) (s t : Operands) : Prop :=
  Emits frame m (Lasting fun final new => K final → Runs (Insn.Moves final 255) new s t)

theorem takes_pure (a : α) (s : Operands) : Takes K frame (pure a : Emit α) s s :=
  emits_pure a fun _ _ _ _ => .nil s

theorem takes_throw (f : Fault) (s t : Operands) : Takes K frame (throw f : Emit α) s t :=
  emits_throw f

theorem Takes.bind {m : Emit α} (first : Takes K frame m s t)
    (second : ∀ a, Takes K frame (f a) t u) : Takes K frame (m >>= f) s u :=
  Emits.seq first second fun _ _ _ runs runs' known => (runs known).append (runs' known)

theorem Takes.andThen {γ : Type} {m : Emit α} {g : β → Emit γ} (first : Takes K frame (m >>= f) s t)
    (second : ∀ b, Takes K frame (g b) t u) : Takes K frame (m >>= fun a => f a >>= g) s u := by
  rw [← bind_assoc]
  exact first.bind second

theorem takes_operand {e : Except Fault α} (tail : ∀ a, e = .ok a → Takes K frame (f a) s t) :
    Takes K frame (liftM e >>= f) s t := emits_operand tail

theorem takes_frame {f : Frame → Emit β} (tail : Takes K frame (f frame) s t) :
    Takes K frame (Emit.frame >>= f) s t := emits_frame tail

theorem takes_inPool {Q : α → Pool → Prop} (draws : PoolM.Draws request)
    (holds : ∀ p a later, request.run p = (.ok a, later) → Q a later)
    (stays : ∀ a p later, Q a p → p.Grows later → Q a later)
    (tail : ∀ a, Takes (fun q => K q ∧ Q a q) frame (f a) s t) :
    Takes K frame (inPool request >>= f) s t :=
  emits_inPool draws fun a _ _ asked => (tail a).mono fun _ _ runs grown final after known =>
    runs final after ⟨known, stays a _ _ (holds _ _ _ asked) (grown.grows.trans _ _ _ after)⟩

theorem takes_inPool_of (draws : PoolM.Draws request)
    (tail : ∀ a, (∃ p later, request.run p = (.ok a, later)) → ∀ K, Takes K frame (f a) s t) :
    Takes K frame (inPool request >>= f) s t :=
  emits_inPool draws fun a p q asked => (tail a ⟨p, q, asked⟩ K).mono fun _ _ runs _ => runs

theorem takes_add {x : Insn} (moves : ∀ p, K p → x.Moves p 255 s t) : Takes K frame (add x) s t :=
  emits_add fun _ final _ known => .single (moves final known)

theorem takes_addAll {xs : List Insn} (runs : ∀ p, K p → Runs (Insn.Moves p 255) xs s t) :
    Takes K frame (addAll xs) s t :=
  emits_addAll fun _ final _ known => runs final known

theorem takes_code {code : Bytes} {room : Nat} {a b : Operands} (turns : Turns room code a b)
    (le : room ≤ Insn.headroom) (bound : (a ++ s).slots ≤ 255) :
    Takes K frame (add (.plain code)) (a ++ s) (b ++ s) :=
  takes_add fun _ _ => .of_turns turns le bound

theorem takes_op {e : Effect} (does : Op.Does op e) (small : e.puts.slots ≤ Insn.headroom)
    (bound : (e.takes ++ s).slots ≤ 255) :
    Takes K frame (Emit.op op) (e.takes ++ s) (e.puts ++ s) :=
  takes_code (.of_does does) small bound

theorem takes_end {e : Effect} (ends : Op.endsMethod op = true) (does : Op.Does op e)
    (small : e.puts.slots ≤ Insn.headroom) (bound : e.takes.slots ≤ 255) (t : Operands) :
    Takes K frame (Emit.op op) e.takes t := by
  refine takes_add fun p _ => ?_
  have fits : (e.takes ++ []).slots ≤ 255 := by rwa [List.append_nil]
  have moves := Insn.Moves.of_turns (p := p) (.of_does does) small fits
  rw [List.append_nil] at moves
  refine moves.redirect ?_ t
  change (!Op.endsMethod op) = false
  rw [ends]
  rfl

theorem takes_constant {code : Bytes} (turns : Turns Insn.headroom code [] [1])
    (bound : s.slots ≤ 255) :
    Takes K frame (add (.constant code)) s (1 :: s) :=
  takes_add fun _ _ => Insn.moves_push turns rfl bound

theorem takes_ldc (index : UInt16) (bound : s.slots ≤ 255) :
    Takes K frame (ldc index) s (1 :: s) := by
  refine takes_constant ?_ bound
  split
  · exact .of_run? fun _ => rfl
  · exact .of_run? fun _ => rfl

theorem takes_null (bound : s.slots ≤ 255) : Takes K frame null s (1 :: s) :=
  takes_constant (.of_run? fun _ => rfl) bound

theorem takes_number (value : Int64) (kinds : Kinds) (bound : s.slots ≤ 255) :
    Takes K frame (number value kinds) s (kinds.width :: s) := by
  have literal : ∀ (K : Pool → Prop) l, l.kinds = kinds ∧ Turns 16 l.code [] [kinds.width] →
      Takes K frame (add (.literal l)) s (kinds.width :: s) := by
    rintro K l ⟨rfl, turns⟩
    exact takes_add fun _ _ => Insn.moves_push (turns.mono (by decide)) rfl bound
  unfold number
  split
  next ref =>
    rw [ref]
    exact takes_null bound
  · refine emits_get fun d => ?_
    split
    · exact takes_operand fun l made => literal K l (Literal.turns_computed made)
    · refine takes_inPool_of (PoolM.draws_pooled kinds value) fun l ⟨p, later, made⟩ K => ?_
      exact literal K l (Literal.turns_pooled made)

theorem takes_classOp {a b : Operands}
    (turns : ∀ index, Turns Insn.headroom (Bytes.opWithIndex op index) a b) (name : String)
    (bound : (a ++ s).slots ≤ 255) : Takes K frame (classOp op name) (a ++ s) (b ++ s) :=
  takes_inPool_of (PoolM.draws_classRef name) fun index _ _ => takes_code (turns index)
    (Nat.le_refl _) bound

theorem takes_checkcast (name : String) (bound : 1 + s.slots ≤ 255) :
    Takes K frame (classOp Op.checkcast name) (1 :: s) (1 :: s) :=
  takes_classOp (a := [1]) (b := [1]) (fun _ => .of_run? fun _ => rfl) name bound

theorem takes_load (reg : Nat) {kinds : Kinds} (single : kinds.Single) (expected : Option String)
    (bound : kinds.width + s.slots ≤ 255) :
    Takes K frame (load reg kinds expected) s (kinds.width :: s) := by
  have fits : s.slots ≤ 255 := Nat.le_trans (Nat.le_add_left _ _) bound
  refine takes_frame ?_
  split
  · exact takes_number 0 kinds fits
  · refine (takes_add (t := kinds.width :: s) fun _ _ => ?_).bind fun _ => ?_
    · exact Insn.moves_push (x := .load ⟨reg, kinds⟩) single rfl fits
    · split
      next both =>
        have ref : kinds = .ofRef := of_decide_eq_true (Bool.and_eq_true _ _ ▸ both).1
        subst ref
        split
        · split
          · exact takes_checkcast _ bound
          · exact takes_pure _ _
        · exact takes_pure _ _
      · exact takes_pure _ _

theorem takes_loadArray (reg : Nat) (bound : 1 + s.slots ≤ 255) :
    Takes K frame (loadArray reg) s (1 :: s) := by
  have fits : s.slots ≤ 255 := Nat.le_trans (Nat.le_add_left _ _) bound
  refine takes_frame ?_
  dsimp only
  split
  · exact takes_null fits
  · refine (takes_add (t := 1 :: s) fun _ _ => ?_).bind fun _ => ?_
    · exact Insn.moves_push (x := .load ⟨reg, .ofRef⟩) .ofRef rfl fits
    · split
      · exact takes_checkcast _ bound
      · exact takes_pure _ _

theorem takes_store (reg : Nat) {kinds : Kinds} (single : kinds.Single)
    (bound : kinds.width + s.slots ≤ 255) :
    Takes K frame (store reg kinds) (kinds.width :: s) s :=
  takes_add fun _ _ => Insn.moves_store (v := ⟨reg, kinds⟩) single bound

theorem takes_newArray (descriptor : String) (bound : 1 + s.slots ≤ 255) :
    Takes K frame (newArray descriptor) (1 :: s) (1 :: s) := by
  have ofClass (name : String) : Takes K frame (classOp Op.anewarray name) (1 :: s) (1 :: s) :=
    takes_classOp (a := [1]) (b := [1]) (fun _ => .of_run? fun _ => rfl) name bound
  unfold newArray
  split
  · exact takes_code (a := [1]) (b := [1]) (Turns.of_run? fun _ => rfl : Turns 1 _ _ _)
      (by decide) bound
  · split
    · exact takes_throw _ _ _
    · exact ofClass _
    · exact ofClass _

theorem takes_branch {e : Effect} (listed : e ∈ Op.effects op) (empty : e.puts = [])
    (no_member : ¬ (Op.getstatic ≤ op ∧ op ≤ Op.invokeinterface)) (bound : e.takes.slots ≤ 255)
    (target : UInt32) :
    Takes K frame (branch op target) e.takes [] := by
  refine takes_add fun p _ => ⟨trivial, bound, [], ?_, fun _ => rfl, fun _ => rfl⟩
  refine Pool.step?_eq_some.2 ⟨e, ?_, [], by rw [List.append_nil], by rw [empty, List.append_nil]⟩
  change e ∈ p.effects op []
  rwa [Pool.effects, if_neg no_member]

theorem takes_goto (target : UInt32) (t : Operands) : Takes K frame (goto target) [] t :=
  takes_add fun p _ => ⟨trivial, Nat.zero_le _, [], rfl, fun _ => rfl, fun falls => by cases falls⟩

theorem takes_switch (default : UInt32) (cases : Cases) (bound : 1 ≤ 255) (t : Operands) :
    Takes K frame (switch default cases) [1] t := by
  unfold switch
  dsimp only
  split
  · have turns : Turns 0 [Op.pop] [1] [] := .of_run? fun _ => rfl
    exact (takes_code (s := []) turns (by decide) bound).bind fun _ => takes_goto default t
  · exact takes_add fun p _ => ⟨trivial, bound, [], rfl, fun _ => rfl, fun falls => by cases falls⟩

section FillArray

open CopyPlan (copies Serves)

variable {storeOp : UInt8} {w : Nat} {push : Nat → Emit Unit}
variable (narrow : w ≤ 2) (stores : Op.Does storeOp ⟨[w, 1, 1], []⟩) (room : s.slots + 7 ≤ 255)
variable (pushes : ∀ n (s : Operands), 2 + s.slots ≤ 255 → Takes K frame (push n) s (w :: s))

include narrow stores room pushes

theorem takes_element {step : List Insn} {held more : Nat}
    (copied : ∀ p, Runs (Insn.Moves p 255) step (copies held s) (copies (more + 1) s))
    (few : more ≤ 3) (n : Nat) :
    Takes K frame (do addAll step; int (.ofNat n); push n; Emit.op storeOp) (copies held s)
      (copies more s) := by
  have slots := CopyPlan.slots_copies (more + 1) s
  refine (takes_addAll fun p _ => copied p).bind fun _ => ?_
  refine (takes_number _ .ofInt (by omega)).bind fun _ => ?_
  refine (pushes n _ ?_).bind fun _ => ?_
  · change 2 + (1 + (copies (more + 1) s).slots) ≤ 255
    omega
  · refine takes_op (s := copies more s) stores (Nat.zero_le _) ?_
    have := CopyPlan.slots_copies more s
    simp only [Operands.slots_append, Operands.slots_cons, Operands.slots_nil]
    omega

theorem takes_fill {steps : List (List Insn)} {held wanted : Nat}
    (serves : Serves wanted held steps) {count : Nat} (length : steps.length = count + 1)
    (n : Nat) :
    Takes K frame (do
      ((steps.take count).zipIdx n).forM fun (step, i) => do
        addAll step
        int (.ofNat i)
        push i
        Emit.op storeOp
      addAll (steps.drop count).flatten) (copies held s) (copies (wanted - count) s) := by
  induction serves generalizing count n with
  | @last held wanted enough few =>
    cases count with
    | succ count => simp at length
    | zero =>
      refine (takes_pure () _).bind fun _ => takes_addAll fun p _ => ?_
      have fits : (copies (held - wanted + wanted) s).slots ≤ 255 := by
        rw [CopyPlan.slots_copies]
        omega
      have dropped := CopyPlan.runs_pops p (held - wanted) wanted fits
      rw [Nat.sub_add_cancel enough] at dropped
      simpa using dropped
  | @use held more wanted step rest recopies few le _ ih =>
    cases count with
    | zero =>
      have none : rest = [] := by simpa using length
      subst none
      contradiction
    | succ count =>
      have fewer : rest.length = count + 1 := by simpa using length
      have rest_takes := ih fewer (n + 1)
      rw [Nat.add_sub_add_right]
      rw [List.take_succ_cons, List.zipIdx_cons, List.drop_succ_cons, List.forM, bind_assoc]
      have copied (p : Pool) : Runs (Insn.Moves p 255) step (copies held s) (copies (more + 1) s) :=
        recopies.runs (by omega) (Nat.succ_le_succ few) p
      exact (takes_element narrow stores room pushes copied few n).bind fun _ => rest_takes

theorem takes_fillArray (count : Nat) (keep : Bool) :
    Takes K frame (fillArray storeOp count keep push) (1 :: s) (if keep then 1 :: s else s) := by
  have one : (if keep then 1 else 0) ≤ 1 := by split <;> omega
  have serves := CopyPlan.serves_copyPlan count one
  have takes := takes_fill narrow stores room pushes serves (CopyPlan.length_copyPlan _ _) 0
  rw [Nat.add_sub_cancel_left] at takes
  cases keep with
  | true => exact takes
  | false => exact takes

end FillArray

end Emit

end Restack
