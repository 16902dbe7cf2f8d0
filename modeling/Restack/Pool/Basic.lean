import Restack.Fault
import Restack.Pool.Entry
import Restack.Pool.TextForm
import Std.Data.HashMap

set_option autoImplicit false

namespace Restack

inductive Pool.Layout where
  | simple
  | split
deriving DecidableEq, Repr, Inhabited

namespace Pool

def limit : Nat := 65535

/-- The entry that starts at an index, given the indices from 0 upward and those from 65534
downward. -/
def entryAt (low high : Array (Option Entry)) (index : UInt16) : Option Entry :=
  if index.toNat < low.size then (low[index.toNat]?).join
  else if index.toNat < limit then (high[limit - 1 - index.toNat]?).join
  else none

end Pool

/-- `low` lists the indices from 0 upward and `high` those from 65534 downward. Index 0 and the
second index of a wide entry hold nothing. -/
structure Pool where
  layout : Pool.Layout
  texts : TextForm
  low : Array (Option Entry)
  high : Array (Option Entry)
  indexOf : Std.HashMap Entry UInt16
  bounded : low.size + high.size ≤ Pool.limit
  found : ∀ (e : Entry) (index : UInt16), indexOf[e]? = some index →
    Pool.entryAt low high index = some e

namespace Pool

def empty (layout : Layout) (texts : TextForm := .modifiedUtf8) : Pool :=
  ⟨layout, texts, #[none], #[], ∅, by simp [limit], by simp⟩

def isSplit (p : Pool) : Bool := p.layout = .split

def space (p : Pool) : Nat := limit - p.low.size - p.high.size

def lowSpace (p : Pool) : Nat := 256 - p.low.size

def count (p : Pool) : Nat :=
  match p.layout with
  | .simple => p.low.size
  | .split => limit

def find? (p : Pool) (e : Entry) : Option UInt16 := p.indexOf[e]?

def contains (p : Pool) (e : Entry) : Bool := p.indexOf.contains e

def entry? (p : Pool) (index : UInt16) : Option Entry := entryAt p.low p.high index

def lowPlaces (low : Array (Option Entry)) (e : Entry) : Array (Option Entry) :=
  if e.isWide then (low.push (some e)).push none else low.push (some e)

def highPlaces (high : Array (Option Entry)) (e : Entry) : Array (Option Entry) :=
  if e.isWide then (high.push none).push (some e) else high.push (some e)

theorem size_lowPlaces (low : Array (Option Entry)) (e : Entry) :
    (lowPlaces low e).size = low.size + e.width := by
  unfold lowPlaces Entry.width
  split <;> simp

theorem size_highPlaces (high : Array (Option Entry)) (e : Entry) :
    (highPlaces high e).size = high.size + e.width := by
  unfold highPlaces Entry.width
  split <;> simp

theorem entryAt_lowPlaces {low high : Array (Option Entry)} {e old : Entry} {index : UInt16}
    (room : low.size + high.size + e.width ≤ limit) (there : entryAt low high index = some old) :
    entryAt (lowPlaces low e) high index = some old := by
  unfold entryAt at there ⊢
  split at there
  next inside =>
    have still : index.toNat < (lowPlaces low e).size := by rw [size_lowPlaces]; omega
    rw [if_pos still, ← there]
    unfold lowPlaces
    split <;> simp [Array.getElem?_push, Nat.ne_of_lt inside,
      Nat.ne_of_lt (Nat.lt_succ_of_lt inside)]
  next outside =>
    split at there
    next below =>
      have high_lt : limit - 1 - index.toNat < high.size := by
        false_or_by_contra
        rename_i past
        rw [Array.getElem?_eq_none (by omega)] at there
        cases there
      have still : ¬ index.toNat < (lowPlaces low e).size := by rw [size_lowPlaces]; omega
      rw [if_neg still, if_pos below, there]
    next => cases there

theorem entryAt_highPlaces {low high : Array (Option Entry)} {e old : Entry} {index : UInt16}
    (there : entryAt low high index = some old) :
    entryAt low (highPlaces high e) index = some old := by
  unfold entryAt at there ⊢
  split at there
  next inside => rw [if_pos inside, there]
  next outside =>
    split at there
    next below =>
      have high_lt : limit - 1 - index.toNat < high.size := by
        false_or_by_contra
        rename_i past
        rw [Array.getElem?_eq_none (by omega)] at there
        cases there
      rw [if_neg outside, if_pos below, ← there]
      unfold highPlaces
      split <;> simp [Array.getElem?_push, Nat.ne_of_lt high_lt,
        Nat.ne_of_lt (Nat.lt_succ_of_lt high_lt)]
    next => cases there

theorem entryAt_lowPlaces_new {low high : Array (Option Entry)} {e : Entry}
    (room : low.size + high.size + e.width ≤ limit) :
    entryAt (lowPlaces low e) high low.size.toUInt16 = some e := by
  have width : 0 < e.width := by unfold Entry.width; split <;> omega
  have place : low.size.toUInt16.toNat = low.size := by
    simp only [limit] at room
    simp only [Nat.toUInt16_eq, UInt16.toNat_ofNat']
    omega
  unfold entryAt
  rw [place, if_pos (by rw [size_lowPlaces]; omega)]
  unfold lowPlaces
  split
  · rw [Array.getElem?_push, if_neg (by simp), Array.getElem?_push, if_pos rfl]
    rfl
  · rw [Array.getElem?_push, if_pos rfl]
    rfl

theorem entryAt_highPlaces_new {low high : Array (Option Entry)} {e : Entry}
    (room : low.size + high.size + e.width ≤ limit) :
    entryAt low (highPlaces high e) (limit - high.size - e.width).toUInt16 = some e := by
  have width : 0 < e.width := by unfold Entry.width; split <;> omega
  have place : (limit - high.size - e.width).toUInt16.toNat = limit - high.size - e.width := by
    simp only [limit] at room ⊢
    simp only [Nat.toUInt16_eq, UInt16.toNat_ofNat']
    omega
  unfold entryAt
  rw [place, if_neg (by omega), if_pos (by omega)]
  have last : limit - 1 - (limit - high.size - e.width) = high.size + e.width - 1 := by omega
  rw [last]
  unfold highPlaces Entry.width
  split
  · simp [Array.getElem_push]
  · simp

def pushLow (p : Pool) (e : Entry) (room : e.width ≤ p.space) : UInt16 × Pool :=
  (p.low.size.toUInt16,
    { p with
      low := lowPlaces p.low e
      indexOf := p.indexOf.insert e p.low.size.toUInt16
      bounded := by
        have := p.bounded
        rw [size_lowPlaces]
        unfold space at room
        omega
      found := by
        have fits : p.low.size + p.high.size + e.width ≤ limit := by
          have := p.bounded
          unfold space at room
          omega
        intro other index asked
        rw [Std.HashMap.getElem?_insert] at asked
        split at asked
        next same =>
          cases asked
          exact (beq_iff_eq.1 same) ▸ entryAt_lowPlaces_new fits
        next => exact entryAt_lowPlaces fits (p.found other index asked) })

def pushHigh (p : Pool) (e : Entry) (room : e.width ≤ p.space) : UInt16 × Pool :=
  ((limit - p.high.size - e.width).toUInt16,
    { p with
      high := highPlaces p.high e
      indexOf := p.indexOf.insert e (limit - p.high.size - e.width).toUInt16
      bounded := by
        have := p.bounded
        rw [size_highPlaces]
        unfold space at room
        omega
      found := by
        have fits : p.low.size + p.high.size + e.width ≤ limit := by
          have := p.bounded
          unfold space at room
          omega
        intro other index asked
        rw [Std.HashMap.getElem?_insert] at asked
        split at asked
        next same =>
          cases asked
          exact (beq_iff_eq.1 same) ▸ entryAt_highPlaces_new fits
        next => exact entryAt_highPlaces (p.found other index asked) })

/-- Adds an entry, whether or not an equal one is there already. A simple pool has only a low end.
-/
def insert (p : Pool) (e : Entry) (low : Bool) : Except Fault UInt16 × Pool :=
  if full : p.space < e.width then (fail .poolFull, p)
  else
    let (index, p) :=
      if low || !p.isSplit then p.pushLow e (Nat.le_of_not_lt full)
        else p.pushHigh e (Nat.le_of_not_lt full)
    (.ok index, p)

def request (p : Pool) (e : Entry) : Except Fault UInt16 × Pool :=
  match p.find? e with
  | some index => (.ok index, p)
  | none => p.insert e e.prefersLow

/-- The index of a number, which is added at the low end if it is new and there is room. -/
def offer (p : Pool) (e : Entry) : Option UInt16 × Pool :=
  match p.find? e with
  | some index => (some index, p)
  | none =>
    if full : e.width > p.space then (none, p)
    else
      let (index, p) := p.pushLow e (Nat.le_of_not_lt full)
      (some index, p)

def filler : Bytes := (Entry.utf8 []).encode

def encode (p : Pool) : Bytes :=
  Bytes.ofUInt16 p.count.toUInt16 ++
    (p.low.toList.filterMap id).flatMap Entry.encode ++
    (if p.isSplit then (List.replicate p.space filler).flatten else []) ++
    (p.high.toList.reverse.filterMap id).flatMap Entry.encode

end Pool

end Restack
