import Restack.Proofs.Pool

set_option autoImplicit false

namespace Restack

variable {e : Entry}

namespace Entry

def isNumber : Entry → Bool
  | .int _ | .float _ | .long _ | .double _ => true
  | _ => false

def places (e : Entry) : List (Option Entry) := if e.isWide then [some e, none] else [some e]

@[simp] theorem places_length (e : Entry) : e.places.length = e.width := by
  unfold places width
  split <;> rfl

theorem width_pos (e : Entry) : 0 < e.width := by
  unfold width
  split <;> omega

theorem width_le (e : Entry) : e.width ≤ 2 := by
  unfold width
  split <;> omega

theorem places_join (e : Entry) (k : Nat) :
    (e.places[k]?).join = if k = 0 then some e else none := by
  unfold places
  split
  · rcases k with _ | _ | k <;> simp
  · rcases k with _ | k <;> simp

theorem places_reverse_join (e : Entry) (k : Nat) :
    (e.places.reverse[k]?).join = if k + 1 = e.width then some e else none := by
  unfold places width
  split
  · rcases k with _ | _ | k <;> simp
  · rcases k with _ | k <;> simp

theorem width_of_isWide (wide : e.isWide = true) : e.width = 2 := by
  simp [width, wide]

end Entry

namespace Pool

variable {i : UInt16} {p : Pool} {q : Pool}

theorem fits_of_room (room : e.width ≤ p.space) : p.low.size + p.high.size + e.width ≤ limit := by
  have bounded := p.bounded
  unfold space at room
  omega

theorem lowPlaces_toList (low : Array (Option Entry)) (e : Entry) :
    (lowPlaces low e).toList = low.toList ++ e.places := by
  unfold lowPlaces Entry.places
  split <;> simp

theorem highPlaces_toList (high : Array (Option Entry)) (e : Entry) :
    (highPlaces high e).toList = high.toList ++ e.places.reverse := by
  unfold highPlaces Entry.places
  split <;> simp

section

variable (p e) (room : e.width ≤ p.space)

theorem entry?_pushLow (i : UInt16) :
    entry? (p.pushLow e room).2 i = if i.toNat = p.low.size then some e else p.entry? i := by
  have fits := fits_of_room room
  have width := e.width_pos
  have size := size_lowPlaces p.low e
  change entryAt (lowPlaces p.low e) p.high i = if i.toNat = p.low.size then some e
    else entryAt p.low p.high i
  unfold entryAt
  have read : (lowPlaces p.low e)[i.toNat]? =
      if i.toNat < p.low.size then p.low[i.toNat]? else e.places[i.toNat - p.low.size]? := by
    rw [← Array.getElem?_toList, lowPlaces_toList, List.getElem?_append, Array.length_toList,
      Array.getElem?_toList]
  rw [read]
  by_cases old : i.toNat < p.low.size
  · rw [if_pos (by omega), if_pos old, if_neg (by omega), if_pos old]
  · rw [if_neg old, if_neg old]
    by_cases new : i.toNat < p.low.size + e.width
    · have free : (p.high[limit - 1 - i.toNat]?).join = none := by
        rw [Array.getElem?_eq_none (by omega), Option.join_none]
      rw [if_pos (show i.toNat < (lowPlaces p.low e).size by omega), e.places_join, free, ite_self]
      by_cases first : i.toNat = p.low.size
      · rw [if_pos first, if_pos (show i.toNat - p.low.size = 0 by omega)]
      · rw [if_neg first, if_neg (show ¬ i.toNat - p.low.size = 0 by omega)]
    · rw [if_neg (show ¬ i.toNat < (lowPlaces p.low e).size by omega),
        if_neg (show ¬ i.toNat = p.low.size by omega)]

theorem entry?_pushHigh (i : UInt16) :
    entry? (p.pushHigh e room).2 i = if i.toNat = limit - p.high.size - e.width then some e
      else p.entry? i := by
  have fits := fits_of_room room
  have width := e.width_pos
  change entryAt p.low (highPlaces p.high e) i =
    if i.toNat = limit - p.high.size - e.width then some e else entryAt p.low p.high i
  unfold entryAt
  have read : (highPlaces p.high e)[limit - 1 - i.toNat]? =
      if limit - 1 - i.toNat < p.high.size then p.high[limit - 1 - i.toNat]?
      else e.places.reverse[limit - 1 - i.toNat - p.high.size]? := by
    rw [← Array.getElem?_toList, highPlaces_toList, List.getElem?_append, Array.length_toList,
      Array.getElem?_toList]
  rw [read]
  by_cases below : i.toNat < p.low.size
  · rw [if_pos below, if_pos below, if_neg (by omega)]
  · rw [if_neg below, if_neg below]
    by_cases within : i.toNat < limit
    · rw [if_pos within, if_pos within]
      by_cases old : limit - 1 - i.toNat < p.high.size
      · rw [if_pos old, if_neg (by omega)]
      · rw [if_neg old, e.places_reverse_join, Array.getElem?_eq_none (by omega), Option.join_none]
        by_cases last : i.toNat = limit - p.high.size - e.width
        · rw [if_pos last, if_pos (show limit - 1 - i.toNat - p.high.size + 1 = e.width by omega)]
        · rw [if_neg last, if_neg (show ¬ limit - 1 - i.toNat - p.high.size + 1 = e.width by omega)]
    · rw [if_neg within, if_neg within, if_neg (by omega)]

theorem pushLow_index : (p.pushLow e room).1.toNat = p.low.size := by
  have fits := fits_of_room room
  have width := e.width_pos
  simp only [limit] at fits
  simp only [pushLow, Nat.toUInt16_eq, UInt16.toNat_ofNat']
  omega

theorem pushHigh_index : (p.pushHigh e room).1.toNat = limit - p.high.size - e.width := by
  have fits := fits_of_room room
  have width := e.width_pos
  simp only [limit] at fits ⊢
  simp only [pushHigh, limit, Nat.toUInt16_eq, UInt16.toNat_ofNat']
  omega

end

structure Added (p q : Pool) (e : Entry) (index : UInt16) : Prop where
  entries : ∀ i, q.entry? i = if i = index then some e else p.entry? i
  finds : ∀ x, q.find? x = if e = x then some index else p.find? x

theorem pushLow_added (p : Pool) (e : Entry) (room : e.width ≤ p.space) :
    Added p (p.pushLow e room).2 e (p.pushLow e room).1 := by
  constructor
  · intro i
    rw [entry?_pushLow]
    simp only [← UInt16.toNat_inj, pushLow_index]
  · intro x
    simp [pushLow, find?, Std.HashMap.getElem?_insert]

theorem pushHigh_added (p : Pool) (e : Entry) (room : e.width ≤ p.space) :
    Added p (p.pushHigh e room).2 e (p.pushHigh e room).1 := by
  constructor
  · intro i
    rw [entry?_pushHigh]
    simp only [← UInt16.toNat_inj, pushHigh_index]
  · intro x
    simp [pushHigh, find?, Std.HashMap.getElem?_insert]

/-- Entries were added one by one, each of them allowed in the pool it came into. Only a split pool
takes entries at the high end. -/
inductive Adds (allowed : Pool → Entry → Prop) : Pool → Pool → Prop where
  | refl (p : Pool) : Adds allowed p p
  | low {p q : Pool} (e : Entry) (room : e.width ≤ p.space) :
      allowed p e → Adds allowed (p.pushLow e room).2 q → Adds allowed p q
  | high {p q : Pool} (e : Entry) (room : e.width ≤ p.space) :
      allowed p e → p.isSplit = true → Adds allowed (p.pushHigh e room).2 q → Adds allowed p q

namespace Adds

variable {allowed : Pool → Entry → Prop} {p q r : Pool}

theorem trans (first : Adds allowed p q) (second : Adds allowed q r) : Adds allowed p r := by
  induction first with
  | refl => exact second
  | low e room fine _ ih => exact .low e room fine (ih second)
  | high e room fine split _ ih => exact .high e room fine split (ih second)

theorem mono {more : Pool → Entry → Prop} (grown : Adds allowed p q)
    (wider : ∀ r e, allowed r e → more r e) :
    Adds more p q := by
  induction grown with
  | refl => exact .refl _
  | low e room fine _ ih => exact .low e room (wider _ e fine) ih
  | high e room fine split _ ih => exact .high e room (wider _ e fine) split ih

theorem keeps (Inv : Pool → Prop) (grown : Adds allowed p q) (start : Inv p)
    (low : ∀ p e (room : e.width ≤ p.space), allowed p e → Inv p → Inv (p.pushLow e room).2)
    (high : ∀ p e (room : e.width ≤ p.space), allowed p e → p.isSplit = true → Inv p →
      Inv (p.pushHigh e room).2) : Inv q := by
  induction grown with
  | refl => exact start
  | low e room fine _ ih => exact ih (low _ e room fine start)
  | high e room fine split _ ih => exact ih (high _ e room fine split start)

theorem layout_eq (grown : Adds allowed p q) : q.layout = p.layout := by
  refine grown.keeps (fun q => q.layout = p.layout) rfl ?_ ?_
  · exact fun _ _ _ _ same => same
  · exact fun _ _ _ _ _ same => same

theorem texts_eq (grown : Adds allowed p q) : q.texts = p.texts := by
  refine grown.keeps (fun q => q.texts = p.texts) rfl ?_ ?_
  · exact fun _ _ _ _ same => same
  · exact fun _ _ _ _ _ same => same

theorem grows (grown : Adds allowed p q) : p.Grows q := by
  induction grown with
  | refl => exact .refl _
  | low e room _ _ ih =>
    exact .trans _ (pushLow _ e room).2 _
      ⟨rfl, fun _ _ there => entryAt_lowPlaces (fits_of_room room) there⟩ ih
  | high e room _ _ _ ih =>
    exact .trans _ (pushHigh _ e room).2 _ ⟨rfl, fun _ _ there => entryAt_highPlaces there⟩ ih

theorem insert (p : Pool) (e : Entry) (low : Bool) (fine : allowed p e) :
    Adds allowed p (p.insert e low).2 := by
  unfold Pool.insert
  split
  · exact .refl p
  · next room =>
    by_cases at_low : (low || !p.isSplit) = true
    · simp only [at_low, if_true]
      exact .low e (Nat.le_of_not_lt room) fine (.refl _)
    · simp only [at_low]
      have split : p.isSplit = true := by
        simp only [Bool.or_eq_true, Bool.not_eq_true', not_or, Bool.not_eq_false] at at_low
        exact at_low.2
      exact .high e (Nat.le_of_not_lt room) fine split (.refl _)

theorem request (p : Pool) (e : Entry) (fine : p.find? e = none → allowed p e) :
    Adds allowed p (p.request e).2 := by
  unfold Pool.request
  cases known : p.find? e with
  | some i => exact .refl p
  | none => exact .insert p e e.prefersLow (fine known)

theorem offer (p : Pool) (e : Entry) (fine : p.find? e = none → allowed p e) :
    Adds allowed p (p.offer e).2 := by
  unfold Pool.offer
  cases known : p.find? e with
  | some i => exact .refl p
  | none =>
    simp only
    split
    · exact .refl p
    · next room => exact .low e (Nat.le_of_not_lt room) (fine known) (.refl _)

end Adds

/-- Only entries were added that were not there yet. -/
abbrev Later : Pool → Pool → Prop := Adds fun p e => p.find? e = none

theorem Later.find? (later : Later p q) (known : p.find? e = some i) : q.find? e = some i := by
  have kept : ∀ {p q : Pool} {new : Entry} {index : UInt16}, Added p q new index →
      p.find? new = none →
      p.find? e = some i → q.find? e = some i := by
    intro p q new index added absent known
    have other : new ≠ e := by
      rintro rfl
      rw [absent] at known
      cases known
    rw [added.finds, if_neg other, known]
  refine later.keeps (fun q => q.find? e = some i) known ?_ ?_
  · exact fun p new room absent => kept (pushLow_added p new room) absent
  · exact fun p new room absent _ => kept (pushHigh_added p new room) absent

theorem find?_of_insert {low : Bool} (done : p.insert e low = (.ok i, q)) : q.find? e = some i := by
  unfold insert at done
  split at done
  · cases done
  · by_cases at_low : (low || !p.isSplit) = true
    · simp only [at_low, if_true] at done
      cases done
      rw [(pushLow_added p e _).finds, if_pos rfl]
    · simp only [at_low, Bool.false_eq_true, if_false] at done
      cases done
      rw [(pushHigh_added p e _).finds, if_pos rfl]

theorem find?_of_request (done : p.request e = (.ok i, q)) : q.find? e = some i := by
  unfold request at done
  cases known : p.find? e with
  | some old =>
    rw [known] at done
    cases done
    exact known
  | none =>
    rw [known] at done
    exact find?_of_insert done

theorem request_of_find? (known : p.find? e = some i) : p.request e = (.ok i, p) := by
  rw [request, known]

def Indexed (p : Pool) : Prop := ∀ i e, p.entry? i = some e → p.find? e = some i

theorem indexed_empty (layout : Layout) (texts : TextForm) : (empty layout texts).Indexed := by
  intro i e there
  have nothing : entry? (empty layout texts) i = none := by
    by_cases zero : i.toNat = 0 <;> simp [ entry?, entryAt, empty, zero]
  rw [nothing] at there
  cases there

theorem Indexed.added {new : Entry} {index : UInt16} (indexed : p.Indexed)
    (absent : p.find? new = none) (added : Added p q new index) : q.Indexed := by
  intro i e there
  rw [added.entries] at there
  rw [added.finds]
  split at there
  · next place =>
    cases there
    rw [if_pos rfl, place]
  · have known := indexed i e there
    have other : new ≠ e := by
      rintro rfl
      rw [absent] at known
      cases known
    rw [if_neg other, known]

theorem Indexed.later (indexed : p.Indexed) (later : Later p q) : q.Indexed := by
  refine later.keeps Indexed indexed ?_ ?_
  · exact fun p new room absent indexed => indexed.added absent (pushLow_added p new room)
  · exact fun p new room absent _ indexed => indexed.added absent (pushHigh_added p new room)

end Pool

end Restack
