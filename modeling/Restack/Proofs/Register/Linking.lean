import Restack.Proofs.Register.Inference
import Restack.Proofs.Register.Writes
import Restack.Register.Hints

set_option autoImplicit false

namespace Restack.Register

variable {catalog : Catalog} {catches : List UInt32} {d : String}

/-- The instruction in front of place `n`; in front of the first place stands `earlier`. -/
def precedingAt (earlier : Option Instr) (instrs : List Instr) : Nat → Option Instr
  | 0 => earlier
  | n + 1 => instrs[n]?

section Attach

variable {α : Type} {hint : Option Instr → Instr → Instr → Except Fault (Option α)}
  {put : Instr → α → Instr}
variable {out : List Instr}

theorem attach_eq_ok {earlier : Option Instr} {before : Instr} {rest : List Instr}
    {done : Array Instr} (ran : attach hint put earlier before rest done = (out, none)) :
    ∃ hinted, out = done.toList ++ hinted ∧ hinted.length = rest.length ∧
      ∀ (n : Nat) prev i, (before :: rest)[n]? = some prev → rest[n]? = some i →
        ∃ found, hint (precedingAt earlier (before :: rest) n) prev i = .ok found ∧
          hinted[n]? = some (found.elim i (put i)) := by
  induction rest generalizing earlier before done with
  | nil =>
    cases ran
    exact ⟨[], by simp, rfl, by simp⟩
  | cons i rest ih =>
    -- What is pushed for `i` stands in front of what the rest gets.
    have step (j : Instr) (found : Option α) (of_hint : hint earlier before i = .ok found)
        (kept : j = found.elim i (put i))
        (more : attach hint put (some before) i rest (done.push j) = (out, none)) :
        ∃ hinted, out = done.toList ++ hinted ∧ hinted.length = (i :: rest).length ∧
          ∀ (n : Nat) prev k, (before :: i :: rest)[n]? = some prev → (i :: rest)[n]? = some k →
            ∃ found, hint (precedingAt earlier (before :: i :: rest) n) prev k = .ok found ∧
              hinted[n]? = some (found.elim k (put k)) := by
      obtain ⟨hinted, rfl, length, each⟩ := ih more
      refine ⟨j :: hinted, by simp, by simp [length], fun n prev k at_prev at_k => ?_⟩
      cases n with
      | zero =>
        cases at_prev
        cases at_k
        exact ⟨found, of_hint, by rw [kept]; rfl⟩
      | succ n =>
        have same : precedingAt earlier (before :: i :: rest) (n + 1) =
            precedingAt (some before) (i :: rest) n := by
          cases n <;> rfl
        rw [same]
        exact each n prev k at_prev at_k
    unfold attach at ran
    split at ran
    next h of_hint => exact step _ (some h) of_hint rfl ran
    next of_hint => exact step _ none of_hint rfl ran
    next => cases ran

theorem attachAll_eq_ok {instrs : List Instr} (ran : attachAll hint put instrs = (out, none)) :
    out.length = instrs.length ∧ out[0]? = instrs[0]? ∧
      ∀ (n : Nat) prev i, instrs[n]? = some prev → instrs[n + 1]? = some i →
        ∃ found, hint (precedingAt none instrs n) prev i = .ok found ∧
        out[n + 1]? = some (found.elim i (put i)) := by
  cases instrs with
  | nil =>
    cases ran
    exact ⟨rfl, rfl, by simp⟩
  | cons first rest =>
    obtain ⟨hinted, rfl, length, each⟩ := attach_eq_ok ran
    exact ⟨by simp [length], rfl, fun n prev i at_prev at_i => each n prev i at_prev at_i⟩

theorem source_of_attachAll {R : Instr → Instr → Prop} (refl : ∀ i, R i i)
    (puts : ∀ i h, R i (put i h)) {instrs : List Instr}
    (ran : attachAll hint put instrs = (out, none)) {n : Nat} {j : Instr}
    (at_n : out[n]? = some j) :
    ∃ i, instrs[n]? = some i ∧ R i j := by
  obtain ⟨length, first, each⟩ := attachAll_eq_ok ran
  cases n with
  | zero => exact ⟨j, first ▸ at_n, refl j⟩
  | succ n =>
    have inside : n + 1 < instrs.length := length ▸ (List.getElem?_eq_some_iff.1 at_n).1
    obtain ⟨found, _, there⟩ :=
      each n _ _ (List.getElem?_eq_getElem (by omega)) (List.getElem?_eq_getElem inside)
    refine ⟨_, List.getElem?_eq_getElem inside, ?_⟩
    cases there.symm.trans at_n
    cases found with
    | none => exact refl _
    | some h => exact puts _ h

end Attach

/-- Every instruction that picks up a result has the type that the instruction before it leaves. -/
structure Code.Hinted (catalog : Catalog) (code : Code) : Prop where
  first : ∀ i, code.instrs[0]? = some i → i.resultType = none
  next : ∀ (n : Nat) i j, code.instrs[n]? = some i → code.instrs[n + 1]? = some j →
    resultHint catalog code.catchPositions i j = .ok j.resultType

def Instr.Alike (i j : Instr) : Prop := j = { i with resultType := j.resultType, casts := j.casts }

theorem resultHint_of_alike {i i' j j' : Instr} (first : i.Alike i') (second : j.Alike j') :
    resultHint catalog catches i' j' = resultHint catalog catches i j := by
  rw [first, second]
  rfl

theorem Code.link_eq_ok {code linked : Code} (done : code.link catalog = (linked, none)) :
    ∃ typed, attachAll (fun _ before i => resultHint catalog code.catchPositions before i)
        (fun i t => { i with resultType := some t }) code.instrs = (typed, none) ∧
      attachAll castHint (fun i c => { i with casts := some c }) typed = (linked.instrs, none) ∧
      linked = { code with instrs := linked.instrs } ∧
      (∀ (n : Nat) j, typed[n]? = some j → ∃ i, code.instrs[n]? = some i ∧ i.Alike j ∧
        j.casts = i.casts) ∧
      ∀ (n : Nat) k, linked.instrs[n]? = some k →
        ∃ j, typed[n]? = some j ∧ j.Alike k ∧ k.resultType = j.resultType := by
  unfold link at done
  dsimp only at done
  obtain ⟨⟨typed, fault⟩, typing⟩ : ∃ r, attachAll
    (fun _ before i => resultHint catalog code.catchPositions before i)
      (fun i t => { i with resultType := some t }) code.instrs = r := ⟨_, rfl⟩
  obtain ⟨⟨instrs, fault'⟩, casting⟩ : ∃ r, attachAll castHint
    (fun i c => { i with casts := some c }) typed = r := ⟨_, rfl⟩
  rw [typing] at done
  cases fault with
  | some f => cases done
  | none =>
    dsimp only at done
    rw [casting] at done
    cases done
    refine ⟨typed, typing, casting, rfl, fun n j at_n => ?_, fun n k at_n => ?_⟩
    · refine source_of_attachAll (R := fun i j => i.Alike j ∧ j.casts = i.casts) ?_ ?_ typing at_n
      · exact fun _ => ⟨rfl, rfl⟩
      · exact fun _ _ => ⟨rfl, rfl⟩
    · refine source_of_attachAll (R := fun j k => j.Alike k ∧ k.resultType = j.resultType) ?_ ?_
        casting at_n
      · exact fun _ => ⟨rfl, rfl⟩
      · exact fun _ _ => ⟨rfl, rfl⟩

theorem Code.hinted_link {code linked : Code} (blank : ∀ i ∈ code.instrs, i.resultType = none)
    (done : code.link catalog = (linked, none)) : linked.Hinted catalog := by
  obtain ⟨typed, typing, casting, same_code, typed_from, cast_from⟩ := link_eq_ok done
  obtain ⟨_, first, each⟩ := attachAll_eq_ok typing
  constructor
  · intro k at_first
    obtain ⟨j, at_typed, _, same⟩ := cast_from 0 k at_first
    rw [same]
    exact blank j (List.mem_of_getElem? (first ▸ at_typed))
  · intro n k k' at_n at_next
    obtain ⟨j, at_j, alike, _⟩ := cast_from n k at_n
    obtain ⟨j', at_j', alike', same⟩ := cast_from (n + 1) k' at_next
    obtain ⟨i, at_i, like, _⟩ := typed_from n j at_j
    obtain ⟨i', at_i', like', _⟩ := typed_from (n + 1) j' at_j'
    obtain ⟨found, of_hint, there⟩ := each n i i' at_i at_i'
    rw [same_code]
    change resultHint catalog code.catchPositions k k' = _
    rw [resultHint_of_alike alike alike', resultHint_of_alike like like', of_hint, same]
    cases there.symm.trans at_j'
    cases found with
    | none => rw [Option.elim_none, blank i' (List.mem_of_getElem? at_i')]
    | some h => rfl

/-- Where the type of a result comes from. -/
inductive HintedBy (catalog : Catalog) (catches : List UInt32) (before i : Instr) (d : String) :
    Prop where
  | call {called : MethodRef} :
      before.family.isInvoke = true → before.index 0 >>= catalog.method = .ok called →
      called.result ≠ "V" → d = called.result → HintedBy catalog catches before i d
  | array : before.family = .filledNewArray → before.index 0 >>= catalog.type = .ok d →
    HintedBy catalog catches before i d
  | exception : before.family.isInvoke = false → before.family ≠ .filledNewArray →
    i.position ∈ catches →
      d = "L" ++ throwable ++ ";" → HintedBy catalog catches before i d

theorem hintedBy_of_resultHint {before i : Instr}
    (done : resultHint catalog catches before i = .ok (some d)) :
    i.family = .moveResult ∧ HintedBy catalog catches before i d := by
  unfold resultHint at done
  split at done
  · cases done
  next picks =>
    refine ⟨not_not.1 picks, ?_⟩
    split at done
    next invokes =>
      obtain ⟨index, at_index, rest⟩ := Except.bind_eq_ok.1 done
      obtain ⟨called, found, last⟩ := Except.bind_eq_ok.1 rest
      have result := Except.ok.inj last
      split at result
      · cases result
      next value =>
        cases result
        exact .call invokes (Except.bind_eq_ok.2 ⟨index, at_index, found⟩) value rfl
    next no_call =>
      split at done
      next filled =>
        obtain ⟨index, at_index, rest⟩ := Except.bind_eq_ok.1 done
        obtain ⟨type, found, last⟩ := Except.bind_eq_ok.1 rest
        cases last
        exact .array filled (Except.bind_eq_ok.2 ⟨index, at_index, found⟩)
      next no_array =>
        have result := Except.ok.inj done
        split at result
        next caught =>
          cases result
          exact .exception (by simpa using no_call) no_array caught rfl
        · cases result

theorem HintedBy.isType {before i : Instr} (formed : catalog.WellFormed)
    (by_before : HintedBy catalog catches before i d) :
    IsType d := by
  cases by_before with
  | call _ found _ same =>
    obtain ⟨index, _, at_index⟩ := Except.bind_eq_ok.1 found
    exact same ▸ (formed.method at_index).result
  | array _ found =>
    obtain ⟨index, _, at_index⟩ := Except.bind_eq_ok.1 found
    exact formed.type at_index
  | exception _ _ _ same => exact same ▸ ⟨.object "java/lang/Throwable", by cbv⟩

section Hinted

variable {catalog : Catalog} {code : Code}

theorem Code.Hinted.before (hinted : code.Hinted catalog) {n : Nat} {i : Instr}
    (at_n : code.instrs[n]? = some i) (found : i.resultType = some d) :
    ∃ m before, n = m + 1 ∧ code.instrs[m]? = some before ∧ i.family = .moveResult ∧
      HintedBy catalog code.catchPositions before i d := by
  cases n with
  | zero =>
    rw [hinted.first i at_n] at found
    cases found
  | succ n =>
    have inside := (List.getElem?_eq_some_iff.1 at_n).1
    have at_before := List.getElem?_eq_getElem (l := code.instrs) (i := n) (by omega)
    exact ⟨n, _, rfl, at_before, hintedBy_of_resultHint (found ▸ hinted.next n _ i at_before at_n)⟩

theorem Code.Hinted.isType (hinted : code.Hinted catalog) (formed : catalog.WellFormed) {i : Instr}
    (member : i ∈ code.instrs) : i.Hinted := by
  intro d found
  obtain ⟨n, at_n⟩ := List.getElem?_of_mem member
  obtain ⟨m, before, _, _, _, by_before⟩ := hinted.before at_n found
  exact by_before.isType formed

theorem real_infer {method : Method} {typing : Typing} (formed : catalog.WellFormed)
    (slots : ∀ d, some d ∈ method.slots → IsType d) (hinted : code.Hinted catalog)
    (done : infer catalog method code = .ok typing) {q : UInt32} {state : Frame}
    (here : typing.states[q]? = some state) : state.Real :=
  infer_all (P := Frame.Real) (fun _ _ left right => left.join right)
    (fun _ member _ _ _ real passes => real_passes formed (hinted.isType formed member) real passes)
    (Frame.real_ofParameters slots _) done q state here

end Hinted

end Restack.Register
