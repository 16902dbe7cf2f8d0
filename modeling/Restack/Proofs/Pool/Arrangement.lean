import Restack.Proofs.Pool.Additions

set_option autoImplicit false

namespace Restack

variable {e : Entry}

section Rows

variable {es : List Entry}

theorem length_flatMap_places (es : List Entry) :
    (es.flatMap Entry.places).length = (es.map Entry.width).sum := by
  simp only [List.length_flatMap, Entry.places_length]

theorem of_getElem?_places {k : Nat} (there : (es.flatMap Entry.places)[k]? = some (some e)) :
    k + e.width ≤ (es.flatMap Entry.places).length ∧
      (e.isWide = true → (es.flatMap Entry.places)[k + 1]? = some none) := by
  induction es generalizing k with
  | nil => simp at there
  | cons first es ih =>
    rw [List.flatMap_cons] at there ⊢
    by_cases inside : k < first.width
    · rw [List.getElem?_append_left (by simpa using inside)] at there
      have start : k = 0 ∧ first = e := by
        have joined := first.places_join k
        rw [there] at joined
        by_cases zero : k = 0
        · simpa [zero] using joined.symm
        · simp [zero] at joined
      obtain ⟨rfl, rfl⟩ := start
      refine ⟨by simp, ?_⟩
      intro wide
      rw [List.getElem?_append_left (by simp [first.width_of_isWide wide])]
      simp [Entry.places, wide]
    · rw [List.getElem?_append_right (by simpa using Nat.le_of_not_lt inside),
        Entry.places_length] at there
      obtain ⟨fits, second⟩ := ih there
      refine ⟨by simp only [List.length_append, Entry.places_length]; omega, ?_⟩
      intro wide
      rw [List.getElem?_append_right (by simp only [Entry.places_length]; omega),
        Entry.places_length, show k + 1 - first.width = k - first.width + 1 by omega]
      exact second wide

theorem exists_places {k : Nat} (inside : k < (es.flatMap Entry.places).length) :
    ∃ j e, (es.flatMap Entry.places)[j]? = some (some e) ∧ j ≤ k ∧ k < j + e.width := by
  induction es generalizing k with
  | nil => simp at inside
  | cons first es ih =>
    rw [List.flatMap_cons, List.length_append, Entry.places_length] at inside
    rw [List.flatMap_cons]
    by_cases own : k < first.width
    · refine ⟨0, first, ?_, Nat.zero_le k, by omega⟩
      rw [List.getElem?_append_left (by simpa using first.width_pos)]
      unfold Entry.places
      split <;> rfl
    · obtain ⟨j, e, there, from_j, to_j⟩ := ih (show k - first.width < _ by omega)
      refine ⟨j + first.width, e, ?_, by omega, by omega⟩
      rw [List.getElem?_append_right (by simp), Entry.places_length, Nat.add_sub_cancel]
      exact there

end Rows

namespace Pool

/-- The entries at the low end and at the high end, in the order of their indices. -/
structure Arranged (p : Pool) (lows highs : List Entry) : Prop where
  low : p.low.toList = none :: lows.flatMap Entry.places
  high : p.high.toList.reverse = highs.flatMap Entry.places
  simple : p.isSplit = false → highs = []

theorem arranged_empty (layout : Layout) (texts : TextForm) : (empty layout texts).Arranged [] [] :=
  ⟨rfl, rfl, fun _ => rfl⟩

theorem Adds.arranged {allowed : Pool → Entry → Prop} {p q : Pool} (grown : Adds allowed p q)
    (fine : Entry → Prop) (allows : ∀ p e, allowed p e → fine e)
    (start : ∃ lows highs, p.Arranged lows highs ∧ ∀ e ∈ lows ++ highs, fine e) :
    ∃ lows highs, q.Arranged lows highs ∧ ∀ e ∈ lows ++ highs, fine e := by
  refine grown.keeps
    (fun q => ∃ lows highs, q.Arranged lows highs ∧ ∀ e ∈ lows ++ highs, fine e) start ?_ ?_
  · rintro p e room allow ⟨lows, highs, arranged, all⟩
    refine ⟨lows ++ [e], highs, ⟨?_, arranged.high, arranged.simple⟩, ?_⟩
    · change (lowPlaces p.low e).toList = _
      rw [lowPlaces_toList, arranged.low]
      simp
    · intro x member
      simp only [List.mem_append, List.mem_singleton] at member all
      rcases member with (old | rfl) | old
      · exact all x (Or.inl old)
      · exact allows p x allow
      · exact all x (Or.inr old)
  · rintro p e room allow split ⟨lows, highs, arranged, all⟩
    refine ⟨lows, e :: highs, ⟨arranged.low, ?_, ?_⟩, ?_⟩
    · change (highPlaces p.high e).toList.reverse = _
      rw [highPlaces_toList, List.reverse_append, List.reverse_reverse, arranged.high,
        List.flatMap_cons]
    · intro simple
      rw [show (p.pushHigh e room).2.isSplit = p.isSplit from rfl, split] at simple
      cases simple
    · intro x member
      simp only [List.mem_append, List.mem_cons] at member all
      rcases member with old | rfl | old
      · exact all x (Or.inl old)
      · exact allows p x allow
      · exact all x (Or.inr old)

/-- An entry takes up an index. -/
def Allocated (p : Pool) (i : UInt16) : Prop :=
  ∃ j e, p.entry? j = some e ∧ j.toNat ≤ i.toNat ∧ i.toNat < j.toNat + e.width

def used (p : Pool) : Nat := (((p.low.toList ++ p.high.toList).filterMap id).map Entry.width).sum

namespace Arranged

variable {p : Pool} {lows highs : List Entry}

section Arranged

variable (arranged : p.Arranged lows highs)
include arranged

theorem low_size : p.low.size = 1 + (lows.map Entry.width).sum := by
  have lengths := congrArg List.length arranged.low
  rw [Array.length_toList, List.length_cons, length_flatMap_places] at lengths
  omega

theorem high_size : p.high.size = (highs.map Entry.width).sum := by
  have lengths := congrArg List.length arranged.high
  rwa [List.length_reverse, Array.length_toList, length_flatMap_places] at lengths

theorem sizes :
    p.low.size + p.high.size ≤ limit ∧ p.low.size = 1 + (lows.flatMap Entry.places).length ∧
    p.high.size = (highs.flatMap Entry.places).length := by
  rw [length_flatMap_places, length_flatMap_places]
  exact ⟨p.bounded, arranged.low_size, arranged.high_size⟩

theorem entry?_iff (i : UInt16) (e : Entry) : p.entry? i = some e ↔
      (0 < i.toNat ∧ (lows.flatMap Entry.places)[i.toNat - 1]? = some (some e)) ∨
      (limit ≤ i.toNat + p.high.size ∧ i.toNat < limit ∧
        (highs.flatMap Entry.places)[i.toNat + p.high.size - limit]? = some (some e)) := by
  obtain ⟨bounded, low_size, -⟩ := arranged.sizes
  unfold entry? entryAt
  by_cases low : i.toNat < p.low.size
  · rw [if_pos low, ← Array.getElem?_toList, arranged.low, Option.join_eq_some_iff]
    constructor
    · intro there
      cases place : i.toNat with
      | zero => simp [place] at there
      | succ k =>
        rw [place, List.getElem?_cons_succ] at there
        exact Or.inl ⟨by omega, there⟩
    · rintro (⟨positive, there⟩ | ⟨reached, -, -⟩)
      · rwa [show i.toNat = (i.toNat - 1) + 1 by omega, List.getElem?_cons_succ]
      · omega
  · rw [if_neg low,
      List.getElem?_eq_none (show (lows.flatMap Entry.places).length ≤ i.toNat - 1 by omega)]
    by_cases within : i.toNat < limit
    · rw [if_pos within, Option.join_eq_some_iff, ← arranged.high]
      by_cases reached : limit ≤ i.toNat + p.high.size
      · rw [List.getElem?_reverse (by rw [Array.length_toList]; omega), Array.length_toList,
          Array.getElem?_toList,
          show p.high.size - 1 - (i.toNat + p.high.size - limit) = limit - 1 - i.toNat by omega]
        simp [reached, within]
      · rw [Array.getElem?_eq_none (by omega)]
        simp [reached]
    · simp [within]

theorem entry_bounds {i : UInt16} (there : p.entry? i = some e) :
    0 < i.toNat ∧ i.toNat + e.width ≤ limit := by
  obtain ⟨bounded, low_size, high_size⟩ := arranged.sizes
  rcases (arranged.entry?_iff i e).1 there with ⟨positive, at_low⟩ | ⟨reached, within, at_high⟩
  · have fits := (of_getElem?_places at_low).1
    omega
  · have fits := (of_getElem?_places at_high).1
    omega

theorem entry?_second {i j : UInt16} (there : p.entry? i = some e) (wide : e.isWide = true)
    (next : j.toNat = i.toNat + 1) :
    p.entry? j = none := by
  obtain ⟨bounded, low_size, high_size⟩ := arranged.sizes
  have two := e.width_of_isWide wide
  cases other : p.entry? j with
  | none => rfl
  | some e' =>
    exfalso
    rcases (arranged.entry?_iff i e).1 there with ⟨positive, at_low⟩ | ⟨reached, within, at_high⟩
    · obtain ⟨fits, second⟩ := of_getElem?_places at_low
      rcases (arranged.entry?_iff j e').1 other with ⟨_, low'⟩ | ⟨reached', _, _⟩
      · rw [show j.toNat - 1 = i.toNat - 1 + 1 by omega, second wide] at low'
        cases low'
      · omega
    · obtain ⟨fits, second⟩ := of_getElem?_places at_high
      rcases (arranged.entry?_iff j e').1 other with ⟨_, low'⟩ | ⟨_, _, high'⟩
      · have inside := (List.getElem?_eq_some_iff.1 low').1
        omega
      · rw [show j.toNat + p.high.size - limit = i.toNat + p.high.size - limit + 1 by omega,
          second wide] at high'
        cases high'

theorem entry_apart {i j : UInt16} {e' : Entry} (there : p.entry? i = some e)
    (there' : p.entry? j = some e') (before : i.toNat < j.toNat) : i.toNat + e.width ≤ j.toNat := by
  by_cases wide : e.isWide = true
  · have other : j.toNat ≠ i.toNat + 1 := by
      intro next
      rw [arranged.entry?_second there wide next] at there'
      cases there'
    have := e.width_le
    omega
  · have one : e.width = 1 := by simp [Entry.width, wide]
    omega

theorem allocated_iff (i : UInt16) :
    p.Allocated i ↔ (0 < i.toNat ∧ i.toNat < p.low.size) ∨
    (limit ≤ i.toNat + p.high.size ∧ i.toNat < limit) := by
  obtain ⟨bounded, low_size, high_size⟩ := arranged.sizes
  have exact : ∀ {n : Nat}, n < limit → n.toUInt16.toNat = n := by
    intro n small
    simp only [limit] at small
    simp only [Nat.toUInt16_eq, UInt16.toNat_ofNat']
    omega
  constructor
  · rintro ⟨j, e, there, from_j, to_j⟩
    rcases (arranged.entry?_iff j e).1 there with ⟨positive, at_low⟩ | ⟨reached, within, at_high⟩
    · have fits := (of_getElem?_places at_low).1
      omega
    · have fits := (of_getElem?_places at_high).1
      omega
  · rintro (⟨positive, low⟩ | ⟨reached, within⟩)
    · obtain ⟨k, e, there, from_k, to_k⟩ :=
        exists_places (show i.toNat - 1 < (lows.flatMap Entry.places).length by omega)
      have place : (k + 1).toUInt16.toNat = k + 1 := exact (by omega)
      refine ⟨(k + 1).toUInt16, e, ?_, by omega, by omega⟩
      refine (arranged.entry?_iff _ _).2 (Or.inl ⟨by omega, ?_⟩)
      rwa [place, Nat.add_sub_cancel]
    · obtain ⟨k, e, there, from_k, to_k⟩ :=
        exists_places
          (show i.toNat + p.high.size - limit < (highs.flatMap Entry.places).length by omega)
      have inside := (List.getElem?_eq_some_iff.1 there).1
      have place : (limit - p.high.size + k).toUInt16.toNat = limit - p.high.size + k :=
        exact (by omega)
      refine ⟨(limit - p.high.size + k).toUInt16, e, ?_, by omega, by omega⟩
      refine (arranged.entry?_iff _ _).2 (Or.inr ⟨by omega, by omega, ?_⟩)
      rwa [place, show limit - p.high.size + k + p.high.size - limit = k by omega]

end Arranged

theorem filterMap_places (es : List Entry) : (es.flatMap Entry.places).filterMap id = es := by
  induction es with
  | nil => rfl
  | cons e es ih =>
    rw [List.flatMap_cons, List.filterMap_append, ih]
    unfold Entry.places
    split <;> rfl

theorem low_entries (arranged : p.Arranged lows highs) : p.low.toList.filterMap id = lows := by
  rw [arranged.low, List.filterMap_cons_none rfl, filterMap_places]

theorem high_entries (arranged : p.Arranged lows highs) :
    p.high.toList.reverse.filterMap id = highs := by
  rw [arranged.high, filterMap_places]

theorem space_add_used (arranged : p.Arranged lows highs) : p.space + p.used + 1 = limit := by
  have bounded := p.bounded
  have low_size := arranged.low_size
  have high_size := arranged.high_size
  have highs_sum : ((p.high.toList.filterMap id).map Entry.width).sum =
      (highs.map Entry.width).sum := by
    rw [← arranged.high_entries, List.filterMap_reverse, List.map_reverse, List.sum_reverse]
  rw [space, used, List.filterMap_append, List.map_append, List.sum_append,
    arranged.low_entries, highs_sum]
  omega

end Arranged

end Pool

end Restack
