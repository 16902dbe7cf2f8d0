import Mathlib.Algebra.Order.BigOperators.Group.Finset
import Restack.Proofs.Pool.Additions

set_option autoImplicit false

namespace Restack

variable {p : Pool}

namespace Pool

variable {e : Entry}

def missing (p : Pool) (entries : List Entry) : Finset Entry :=
  entries.toFinset.filter fun e => p.find? e = none

def need (p : Pool) (entries : List Entry) : Nat := ∑ e ∈ p.missing entries, e.width

theorem mem_missing {entries : List Entry} :
    e ∈ p.missing entries ↔ e ∈ entries ∧ p.find? e = none := by
  rw [missing, Finset.mem_filter, List.mem_toFinset]

@[simp] theorem need_nil (p : Pool) : p.need [] = 0 := rfl

theorem need_congr {q : Pool} {first second : List Entry}
    (same : ∀ e, (e ∈ first ∧ p.find? e = none) ↔ (e ∈ second ∧ q.find? e = none)) :
    p.need first = q.need second := by
  have missed : p.missing first = q.missing second := by
    ext e
    rw [mem_missing, mem_missing]
    exact same e
  rw [need, need, missed]

theorem need_le_append (p : Pool) (first second : List Entry) :
    p.need first ≤ p.need (first ++ second) := by
  apply Finset.sum_le_sum_of_subset
  intro e member
  obtain ⟨listed, absent⟩ := mem_missing.1 member
  exact mem_missing.2 ⟨List.mem_append_left _ listed, absent⟩

theorem need_le (p : Pool) (entries : List Entry) : p.need entries ≤ entries.length * 2 := by
  have bounded : p.need entries ≤ (p.missing entries).card * 2 := by
    apply Finset.sum_le_card_nsmul
    intro e _
    exact e.width_le
  have few : (p.missing entries).card ≤ entries.length :=
    Nat.le_trans (Finset.card_filter_le _ _) entries.toFinset_card_le
  omega

structure Filled (p q : Pool) (entries : List Entry) : Prop where
  space : q.space + p.need entries = p.space
  absent : ∀ e, q.find? e = none ↔ p.find? e = none ∧ e ∉ entries
  texts : q.texts = p.texts

namespace Filled

variable {p q r : Pool} {first second : List Entry}

theorem refl (p : Pool) : Filled p p [] := by
  refine ⟨rfl, ?_, rfl⟩
  simp

theorem need_append (filled : Filled p q first) (second : List Entry) :
    p.need (first ++ second) = p.need first + q.need second := by
  have apart : Disjoint (p.missing first) (q.missing second) := by
    rw [Finset.disjoint_left]
    intro e before after
    have known := (filled.absent e).1 (mem_missing.1 after).2
    exact known.2 (mem_missing.1 before).1
  have together : p.missing (first ++ second) = p.missing first ∪ q.missing second := by
    ext e
    simp only [Finset.mem_union, mem_missing, filled.absent, List.mem_append]
    tauto
  rw [need, together, Finset.sum_union apart]
  rfl

theorem trans (start : Filled p q first) (next : Filled q r second) :
    Filled p r (first ++ second) := by
  refine ⟨?_, ?_, next.texts.trans start.texts⟩
  · have room := start.space
    have rest := next.space
    rw [start.need_append]
    omega
  · intro e
    rw [next.absent, start.absent, List.mem_append]
    tauto

end Filled

theorem space_pushLow (p : Pool) (e : Entry) (room : e.width ≤ p.space) :
    (p.pushLow e room).2.space + e.width = p.space := by
  have size : (p.pushLow e room).2.low.size = p.low.size + e.width := size_lowPlaces p.low e
  have high : (p.pushLow e room).2.high = p.high := rfl
  unfold space at room ⊢
  rw [size, high]
  omega

theorem space_pushHigh (p : Pool) (e : Entry) (room : e.width ≤ p.space) :
    (p.pushHigh e room).2.space + e.width = p.space := by
  have size : (p.pushHigh e room).2.high.size = p.high.size + e.width := size_highPlaces p.high e
  have low : (p.pushHigh e room).2.low = p.low := rfl
  unfold space at room ⊢
  rw [size, low]
  omega

theorem need_known {i : UInt16} (known : p.find? e = some i) : p.need [e] = 0 := by
  refine (need_congr fun x => ?_).trans p.need_nil
  have present : p.find? e ≠ none := by simp [known]
  simp only [List.mem_singleton, List.not_mem_nil, false_and, iff_false]
  rintro ⟨rfl, absent⟩
  exact present absent

theorem need_absent (absent : p.find? e = none) : p.need [e] = e.width := by
  have missed : p.missing [e] = {e} := by
    ext x
    rw [mem_missing, List.mem_singleton, Finset.mem_singleton, and_iff_left_iff_imp]
    rintro rfl
    exact absent
  rw [need, missed, Finset.sum_singleton]

theorem Added.filled {q : Pool} {index : UInt16} (added : Added p q e index)
    (absent : p.find? e = none) (space : q.space + e.width = p.space) (texts : q.texts = p.texts) :
    Filled p q [e] := by
  refine ⟨?_, ?_, texts⟩
  · rw [need_absent absent, space]
  · intro x
    rw [added.finds, List.mem_singleton]
    by_cases same : e = x
    · simp [same]
    · simp [same, Ne.symm same]

theorem insert_outcome (low : Bool) (absent : p.find? e = none) :
    (e.width ≤ p.space → ∃ i q, p.insert e low = (.ok i, q) ∧ Filled p q [e]) ∧
      (p.space < e.width → p.insert e low = (fail .poolFull, p)) := by
  unfold insert
  constructor
  · intro room
    rw [dif_neg (Nat.not_lt.2 room)]
    by_cases at_low : (low || !p.isSplit) = true
    · simp only [at_low, if_true]
      exact ⟨_, _, rfl, (pushLow_added p e room).filled absent (space_pushLow p e room) rfl⟩
    · simp only [at_low]
      exact ⟨_, _, rfl, (pushHigh_added p e room).filled absent (space_pushHigh p e room) rfl⟩
  · intro full
    rw [dif_pos full]

theorem request_outcome (p : Pool) (e : Entry) :
    (p.need [e] ≤ p.space → ∃ i q, p.request e = (.ok i, q) ∧ Filled p q [e]) ∧
      (p.space < p.need [e] → p.request e = (fail .poolFull, p)) := by
  cases known : p.find? e with
  | some i =>
    constructor
    · intro _
      refine ⟨i, p, request_of_find? known, ?_, ?_, rfl⟩
      · rw [need_known known]
        rfl
      · intro x
        rw [List.mem_singleton, iff_self_and]
        rintro absent rfl
        rw [known] at absent
        cases absent
    · rw [need_known known]
      intro less
      omega
  | none =>
    rw [need_absent known, request, known]
    exact insert_outcome e.prefersLow known

theorem Adds.find?_eq {q : Pool} {sort : Entry → Prop} (grown : Adds (fun _ e => sort e) p q)
    (other : ¬ sort e) :
    q.find? e = p.find? e := by
  have kept : ∀ {p q : Pool} {new : Entry} {index : UInt16}, Added p q new index → sort new →
      q.find? e = p.find? e := by
    intro p q new index added of_sort
    have different : new ≠ e := by
      rintro rfl
      exact other of_sort
    rw [added.finds, if_neg different]
  refine grown.keeps (fun q => q.find? e = p.find? e) rfl ?_ ?_
  · intro p new room of_sort same
    rw [kept (pushLow_added p new room) of_sort, same]
  · intro p new room of_sort _ same
    rw [kept (pushHigh_added p new room) of_sort, same]

theorem Adds.need_eq {q : Pool} {sort : Entry → Prop} (grown : Adds (fun _ e => sort e) p q)
    {entries : List Entry} (others : ∀ e ∈ entries, ¬ sort e) :
    q.need entries = p.need entries := by
  apply need_congr
  intro e
  rw [and_congr_right_iff]
  intro member
  rw [grown.find?_eq (others e member)]

end Pool

namespace PoolM

variable {texts : TextForm}

/-- Requests some entries one after the other, with texts in a certain form, and fails only for want
of room. -/
structure Asks (texts : TextForm) {α : Type} (m : PoolM α) (entries : List Entry) : Prop where
  granted : ∀ p : Pool, p.texts = texts → p.need entries ≤ p.space →
    ∃ a q, m.run p = (.ok a, q) ∧ Pool.Filled p q entries
  refused : ∀ p : Pool, p.texts = texts → p.space < p.need entries →
    ∃ f q, m.run p = (.error f, q) ∧ f.cause = .poolFull

theorem asks_pure {α : Type} (a : α) : Asks texts (pure a : PoolM α) [] := by
  constructor
  · intro p _ _
    exact ⟨a, p, rfl, .refl p⟩
  · intro p _ less
    rw [Pool.need_nil] at less
    omega

theorem asks_request (e : Entry) : Asks texts (request e) [e] := by
  constructor
  · intro p _ room
    exact (p.request_outcome e).1 room
  · intro p _ full
    exact ⟨_, _, (p.request_outcome e).2 full, rfl⟩

theorem Asks.bind {α β : Type} {m : PoolM α} {f : α → PoolM β} {first second : List Entry}
    (head : Asks texts m first) (tail : ∀ a, Asks texts (f a) second) :
    Asks texts (m >>= f) (first ++ second) := by
  constructor
  · intro p written room
    obtain ⟨a, q, ran, filled⟩ :=
      head.granted p written (Nat.le_trans (p.need_le_append first second) room)
    have space := filled.space
    rw [filled.need_append] at room
    obtain ⟨b, r, rest, filled'⟩ := (tail a).granted q (filled.texts.trans written) (by omega)
    exact ⟨b, r, ExceptT.run_bind_eq_ok.2 ⟨a, q, ran, rest⟩, filled.trans filled'⟩
  · intro p written full
    rw [ExceptT.run_bind_eq]
    by_cases start : p.need first ≤ p.space
    · obtain ⟨a, q, ran, filled⟩ := head.granted p written start
      have space := filled.space
      rw [filled.need_append] at full
      rw [ran]
      exact (tail a).refused q (filled.texts.trans written) (by omega)
    · obtain ⟨f, q, ran, cause⟩ := head.refused p written (Nat.not_le.1 start)
      rw [ran]
      exact ⟨f, q, rfl, cause⟩

theorem find?_of_utf8 {later : Pool} {s : String} {index : UInt16}
    (done : (utf8 s).run p = (.ok index, later)) :
    (p.texts.encode s).length ≤ 65535 ∧ later.find? (.utf8 (p.texts.encode s)) = some index := by
  rw [run_utf8] at done
  split at done
  case isTrue long => cases done
  case isFalse short => exact ⟨Nat.le_of_not_lt short, Pool.find?_of_request done⟩

theorem asks_utf8 {s : String} (short : (texts.encode s).length ≤ 65535) :
    Asks texts (utf8 s) [.utf8 (texts.encode s)] := by
  have unfolded : ∀ p : Pool, p.texts = texts →
      (utf8 s).run p = (request (.utf8 (texts.encode s))).run p := by
    rintro p rfl
    rw [run_utf8, if_neg (Nat.not_lt.2 short)]
  constructor
  · intro p written room
    rw [unfolded p written]
    exact (asks_request _).granted p written room
  · intro p written full
    rw [unfolded p written]
    exact (asks_request _).refused p written full

theorem asks_mapM {α β : Type} {f : α → PoolM β} {asked : α → List Entry} (xs : List α)
    (each : ∀ x ∈ xs, Asks texts (f x) (asked x)) : Asks texts (xs.mapM f) (xs.flatMap asked) := by
  induction xs with
  | nil => exact asks_pure []
  | cons x xs ih =>
    rw [List.mapM_cons, List.flatMap_cons]
    apply (each x List.mem_cons_self).bind
    intro y
    have others := ih fun z member => each z (List.mem_cons_of_mem _ member)
    have last := others.bind fun ys => asks_pure (y :: ys)
    rwa [List.append_nil] at last

end PoolM

end Restack
