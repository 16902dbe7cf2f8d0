import Restack.Proofs.Selection.PoolGrowth
import Restack.Proofs.Stack.CopyPlan
import Restack.Selection.Emit

set_option autoImplicit false

namespace Restack

def Insn.Tame (x : Insn) : Prop :=
  (∀ p, x ≠ .label p) ∧ x.targets = [] ∧ ∀ code, x = .plain code → code ≠ []

theorem Insn.tame_op (op : UInt8) : (Insn.op op).Tame := by
  refine ⟨fun p => ?_, rfl, fun code same => ?_⟩
  · simp [Insn.op]
  · cases same
    simp

theorem Insn.tame_plain {code : Bytes} (some_bytes : code ≠ []) : (Insn.plain code).Tame := by
  refine ⟨fun p => ?_, rfl, fun code same => ?_⟩ <;> simp_all

def Insn.Plain (x : Insn) : Prop := x.isPlain = true

namespace Emit

variable {α β : Type} {frame : Frame}

theorem run_inPool_eq_ok {request : PoolM α} {a : α} {d later : Draft}
    (ran : (inPool request).run d = (.ok a, later)) :
    ∃ pool, request.run d.pool = (.ok a, pool) ∧ later = { d with pool } := by
  obtain ⟨outcome, rfl⟩ := Prod.mk.inj ran
  exact ⟨_, Prod.ext outcome rfl, rfl⟩

/-- When `m` succeeds in a frame, it leaves the frame, does nothing to the pool but add to it, and
emits instructions of which `Q` holds with the pool that it leaves. -/
def Emits (frame : Frame) (m : Emit α) (Q : Pool → List Insn → Prop) : Prop :=
  ∀ d a later, d.frame = frame → m.run d = (.ok a, later) →
    later.frame = frame ∧ d.pool.Extends later.pool ∧
    ∃ new, later.insns.toList = d.insns.toList ++ new ∧ Q later.pool new

section Emits

variable {Q : Pool → List Insn → Prop} {Q' : Pool → List Insn → Prop} {f : α → Emit β}

theorem emits_pure (a : α) (nothing : ∀ p, Q p []) : Emits frame (pure a : Emit α) Q := by
  intro d b later same done
  cases done
  exact ⟨same, .refl _, [], by simp, nothing _⟩

theorem emits_throw (f : Fault) : Emits frame (throw f : Emit α) Q := by
  intro d b later same done
  cases done

theorem emits_throw_bind (f : Fault) (rest : α → Emit β) :
    Emits frame ((throw f : Emit α) >>= rest) Q := by
  intro d b later same done
  cases done

theorem Emits.mono {m : Emit α} (emits : Emits frame m Q)
    (weaker : ∀ p new, Q p new → Q' p new) : Emits frame m Q' := by
  intro d a later same done
  obtain ⟨kept, grown, new, added, holds⟩ := emits d a later same done
  exact ⟨kept, grown, new, added, weaker _ _ holds⟩

theorem Emits.bind {m : Emit α} {R : Pool → List Insn → Prop} (first : Emits frame m Q)
    (second : ∀ a, Emits frame (f a) Q')
    (both : ∀ p q new new', p.Extends q → Q p new → Q' q new' → R q (new ++ new')) :
    Emits frame (m >>= f) R := by
  intro d b later same done
  obtain ⟨a, middle, ran, rest⟩ := ExceptT.run_bind_eq_ok.1 done
  obtain ⟨kept, grown, new, added, holds⟩ := first d a middle same ran
  obtain ⟨kept', grown', new', added', holds'⟩ := second a middle b later kept rest
  refine ⟨kept', grown.trans grown', new ++ new', ?_, both _ _ _ _ grown' holds holds'⟩
  rw [added', added, List.append_assoc]

/-- What holds in every pool that the first one can still grow into. -/
def Lasting (Q : Pool → List Insn → Prop) (p : Pool) (new : List Insn) : Prop :=
  ∀ final, p.Grows final → Q final new

theorem Emits.seq {m : Emit α} {R : Pool → List Insn → Prop} (first : Emits frame m (Lasting Q))
    (second : ∀ a, Emits frame (f a) (Lasting Q'))
    (both : ∀ final new new', Q final new → Q' final new' → R final (new ++ new')) :
    Emits frame (m >>= f) (Lasting R) :=
  first.bind second fun _ _ _ _ grown holds holds' final after =>
    both final _ _ (holds final (grown.grows.trans _ _ _ after)) (holds' final after)

theorem emits_operand {e : Except Fault α} (tail : ∀ a, e = .ok a → Emits frame (f a) Q) :
    Emits frame (liftM e >>= f) Q := by
  intro d b later same done
  obtain ⟨a, middle, read, rest⟩ := ExceptT.run_bind_eq_ok.1 done
  obtain ⟨found, rfl⟩ := ExceptT.run_lift_eq_ok.1 read
  exact tail a found middle b later same rest

theorem emits_frame {f : Frame → Emit β} (tail : Emits frame (f frame) Q) :
    Emits frame (Emit.frame >>= f) Q := by
  intro d b later same done
  obtain ⟨a, middle, read, rest⟩ := ExceptT.run_bind_eq_ok.1 done
  cases read
  rw [same] at rest
  exact tail d b later same rest

theorem emits_get {f : Draft → Emit β} (tail : ∀ d, Emits frame (f d) Q) :
    Emits frame (get >>= f) Q := by
  intro d b later same done
  obtain ⟨a, middle, read, rest⟩ := ExceptT.run_bind_eq_ok.1 done
  cases read
  exact tail d d b later same rest

theorem emits_inPool {request : PoolM α} (draws : PoolM.Draws request)
    (tail : ∀ a p q, request.run p = (.ok a, q) → Emits frame (f a) fun later new =>
      q.Extends later → Q later new) :
    Emits frame (inPool request >>= f) Q := by
  intro d b later same done
  obtain ⟨a, middle, ran, rest⟩ := ExceptT.run_bind_eq_ok.1 done
  obtain ⟨pool, asked, rfl⟩ := run_inPool_eq_ok ran
  obtain ⟨kept, grown, new, added, holds⟩ := tail a _ _ asked { d with pool } b later same rest
  exact ⟨kept, (draws asked).trans grown, new, added, holds grown⟩

theorem emits_addAll {xs : List Insn} (good : ∀ p, Q p xs) : Emits frame (addAll xs) Q := by
  intro d a later same done
  cases done
  exact ⟨same, .refl _, xs, by simp, good _⟩

theorem emits_add {x : Insn} (good : ∀ p, Q p [x]) : Emits frame (add x) Q := by
  intro d a later same done
  cases done
  exact ⟨same, .refl _, [x], by simp, good _⟩

end Emits

variable {P : Insn → Prop}

/-- An emission of instructions that all satisfy `P`, among them one with each of the `required`
properties. -/
def Does (P : Insn → Prop) (frame : Frame) (m : Emit α) (required : List (Insn → Prop)) : Prop :=
  Emits frame m fun _ new => (∀ x ∈ new, P x) ∧ ∀ R ∈ required, ∃ x ∈ new, R x

theorem does_pure (a : α) : Does P frame (pure a : Emit α) [] := emits_pure a fun _ => by simp

theorem does_throw (f : Fault) (required : List (Insn → Prop)) :
    Does P frame (throw f : Emit α) required := emits_throw f

namespace Does

variable {m : Emit α}

variable {required : List (Insn → Prop)} {f : α → Emit β}

theorem weaken {fewer : List (Insn → Prop)} (does : Does P frame m required)
    (inside : ∀ R ∈ fewer, R ∈ required) :
    Does P frame m fewer :=
  does.mono fun _ _ both => ⟨both.1, fun R member => both.2 R (inside R member)⟩

theorem append {first second : List (Insn → Prop)} (head : Does P frame m first)
    (tail : ∀ a, Does P frame (f a) second) : Does P frame (m >>= f) (first ++ second) := by
  refine Emits.bind head tail fun _ _ new new' _ before after => ⟨?_, ?_⟩
  · exact List.forall_mem_append.2 ⟨before.1, after.1⟩
  · refine List.forall_mem_append.2 ⟨fun R member => ?_, fun R member => ?_⟩
    · obtain ⟨x, inside, good⟩ := before.2 R member
      exact ⟨x, List.mem_append_left _ inside, good⟩
    · obtain ⟨x, inside, good⟩ := after.2 R member
      exact ⟨x, List.mem_append_right _ inside, good⟩

theorem andThen (head : Does P frame m []) (tail : ∀ a, Does P frame (f a) required) :
    Does P frame (m >>= f) required :=
  (head.append tail : Does P frame (m >>= f) ([] ++ required))

theorem followed (head : Does P frame m required) (tail : ∀ a, Does P frame (f a) []) :
    Does P frame (m >>= f) required :=
  (head.append tail).weaken fun _ member => List.mem_append_left _ member

end Does

variable {required : List (Insn → Prop)}

theorem does_operand {e : Except Fault α} {f : α → Emit β}
    (tail : ∀ a, e = .ok a → Does P frame (f a) required) : Does P frame (liftM e >>= f) required :=
  emits_operand tail

theorem does_frame {f : Frame → Emit β} (tail : Does P frame (f frame) required) :
    Does P frame (Emit.frame >>= f) required := emits_frame tail

theorem does_inPool {request : PoolM α} (draws : PoolM.Draws request) :
    Does P frame (inPool request) [] := by
  intro d a later same done
  obtain ⟨pool, asked, rfl⟩ := run_inPool_eq_ok done
  exact ⟨same, draws asked, [], by simp, by simp, by simp⟩

theorem does_add {x : Insn} {R : Insn → Prop} (good : P x) (due : R x) : Does P frame (add x) [R] :=
  emits_add fun _ => by simp [good, due]

theorem does_one {x : Insn} (good : P x) : Does P frame (add x) [] :=
  emits_add fun _ => by simp [good]

theorem does_addAll {xs : List Insn} (good : ∀ x ∈ xs, P x) : Does P frame (addAll xs) [] :=
  emits_addAll fun _ => ⟨good, by simp⟩

theorem does_forM {xs : List β} {f : β → Emit PUnit} (required : β → List (Insn → Prop))
    (each : ∀ x ∈ xs, Does P frame (f x) (required x)) :
    Does P frame (xs.forM f) (xs.flatMap required) := by
  induction xs with
  | nil => exact does_pure _
  | cons x xs ih =>
    rw [List.flatMap_cons]
    refine (each x List.mem_cons_self).append fun _ => ?_
    exact ih fun y member => each y (List.mem_cons_of_mem _ member)

section Instructions

variable (tame : ∀ x, Insn.Tame x → P x)

include tame

theorem does_op (op : UInt8) : Does P frame (Emit.op op) [Insn.Plain] :=
  does_add (tame _ (Insn.tame_op op)) rfl

theorem does_indexed (op : UInt8) (index : UInt16) :
    Does P frame (indexed op index) [Insn.Plain] := by
  refine does_add (tame _ (Insn.tame_plain ?_)) rfl
  simp [Bytes.opWithIndex]

theorem does_classOp (op : UInt8) (name : String) : Does P frame (classOp op name) [Insn.Plain] :=
  (does_inPool (PoolM.draws_classRef name)).andThen fun index => does_indexed tame op index

theorem does_ldc (index : UInt16) : Does P frame (ldc index) [] :=
  does_one (tame _ ⟨nofun, rfl, nofun⟩)

theorem does_null : Does P frame null [] := does_one (tame _ ⟨nofun, rfl, nofun⟩)

theorem does_number (value : Int64) (kinds : Kinds) : Does P frame (number value kinds) [] := by
  have literal : ∀ l, Does P frame (add (.literal l)) [] :=
    fun l => does_one (tame _ ⟨nofun, rfl, nofun⟩)
  unfold number
  split
  · exact does_null tame
  · refine emits_get fun d => ?_
    split
    · exact does_operand fun l _ => literal l
    · exact (does_inPool (PoolM.draws_pooled kinds value)).andThen literal

theorem does_load (reg : Nat) (kinds : Kinds) (expected : Option String) :
    Does P frame (load reg kinds expected) [] := by
  refine does_frame ?_
  split
  · exact does_number tame 0 kinds
  · refine (does_one (tame (.load _) ⟨nofun, rfl, nofun⟩)).andThen fun _ => ?_
    split
    · split
      · split
        · exact (does_classOp tame _ _).weaken (by simp)
        · exact does_pure _
      · exact does_pure _
    · exact does_pure _

theorem does_loadArray (reg : Nat) : Does P frame (loadArray reg) [] := by
  refine does_frame ?_
  simp only
  split
  · exact does_null tame
  · refine (does_one (tame (.load _) ⟨nofun, rfl, nofun⟩)).andThen fun _ => ?_
    split
    · exact (does_classOp tame _ _).weaken (by simp)
    · exact does_pure _

theorem does_store (reg : Nat) (kinds : Kinds) :
    Does P frame (store reg kinds) [(· = .store ⟨reg, kinds⟩)] :=
  does_add (tame _ ⟨nofun, rfl, nofun⟩) rfl

theorem does_newArray (descriptor : String) : Does P frame (newArray descriptor) [Insn.Plain] := by
  unfold newArray
  split
  · exact does_add (tame _ (Insn.tame_plain (by simp))) rfl
  · split
    · exact does_throw _ _
    · exact does_classOp tame _ _
    · exact does_classOp tame _ _

theorem does_fillArray (storeOp : UInt8) (count : Nat) (keep : Bool) (push : Nat → Emit Unit)
    (pushes : ∀ n, Does P frame (push n) []) :
    Does P frame (fillArray storeOp count keep push) (if count = 0 then [] else [Insn.Plain]) := by
  have planned : ∀ step ∈ copyPlan count (if keep then 1 else 0), ∀ x ∈ step, P x := by
    intro step member x inside
    obtain ⟨op, rfl⟩ := op_of_mem_copyPlan member inside
    exact tame _ (Insn.tame_op op)
  have loop : ∀ pair ∈ ((copyPlan count (if keep then 1 else 0)).take count).zipIdx,
      ∀ x ∈ pair.1, P x := by
    rintro ⟨step, n⟩ member x inside
    exact planned step (List.mem_of_mem_take (List.fst_mem_of_mem_zipIdx member)) x inside
  refine Does.followed ?_ fun _ => ?_
  · refine (does_forM (fun _ => [Insn.Plain]) fun pair member => ?_).weaken fun R member => ?_
    · refine (does_addAll (loop pair member)).andThen fun _ => ?_
      refine (does_number tame _ _).andThen fun _ => ?_
      exact (pushes _).andThen fun _ => does_op tame storeOp
    · split at member
      · cases member
      next some_element =>
        -- The first element is enough.
        obtain ⟨pair, first⟩ : ∃ pair, pair ∈
          ((copyPlan count (if keep then 1 else 0)).take count).zipIdx := by
          refine List.exists_mem_of_length_pos ?_
          rw [List.length_zipIdx, List.length_take, CopyPlan.length_copyPlan]
          omega
        exact List.mem_flatMap.2 ⟨pair, first, member⟩
  · refine does_addAll fun x member => ?_
    obtain ⟨step, dropped, inside⟩ := List.mem_flatten.1 member
    exact planned step (List.mem_of_mem_drop dropped) x inside

end Instructions

end Emit

end Restack
