import Restack.Proofs.Bytes
import Restack.Proofs.Pool.Arrangement
import Restack.Proofs.Pool.Calls

set_option autoImplicit false

namespace Restack

namespace Entry

def read : Bytes → Option (Entry × Bytes)
  | [] => none
  | tag :: bytes =>
    match tag.toNat with
    | 1 => do
      let (size, bytes) ← Bytes.word 2 bytes
      let (text, bytes) ← Bytes.cut size bytes
      return (.utf8 text, bytes)
    | 3 => do
      let (value, bytes) ← Bytes.word 4 bytes
      return (.int value.toUInt32.toInt32, bytes)
    | 4 => do
      let (bits, bytes) ← Bytes.word 4 bytes
      return (.float bits.toUInt32, bytes)
    | 5 => do
      let (value, bytes) ← Bytes.word 8 bytes
      return (.long value.toUInt64.toInt64, bytes)
    | 6 => do
      let (bits, bytes) ← Bytes.word 8 bytes
      return (.double bits.toUInt64, bytes)
    | 7 => do
      let (name, bytes) ← Bytes.word 2 bytes
      return (.class name.toUInt16, bytes)
    | 8 => do
      let (text, bytes) ← Bytes.word 2 bytes
      return (.string text.toUInt16, bytes)
    | 9 => readPair .field bytes
    | 10 => readPair .method bytes
    | 11 => readPair .interfaceMethod bytes
    | 12 => readPair .nameType bytes
    | _ => none
where
  readPair (make : UInt16 → UInt16 → Entry) (bytes : Bytes) : Option (Entry × Bytes) := do
    let (first, bytes) ← Bytes.word 2 bytes
    let (second, bytes) ← Bytes.word 2 bytes
    return (make first.toUInt16 second.toUInt16, bytes)

theorem readPair_body (make : UInt16 → UInt16 → Entry) (a b : UInt16) (rest : Bytes) :
    read.readPair make (Bytes.ofUInt16 a ++ Bytes.ofUInt16 b ++ rest) = some (make a b, rest) := by
  rw [List.append_assoc, read.readPair, Bytes.word_ofUInt16]
  simp [Bytes.word_ofUInt16]

theorem read_encode (e : Entry) (writable : e.Writable) (rest : Bytes) :
    read (e.encode ++ rest) = some (e, rest) := by
  rw [encode, List.cons_append]
  cases e with
  | utf8 bytes =>
    have size : bytes.length.toUInt16.toNat = bytes.length := by
      have bound : bytes.length ≤ 65535 := writable
      simp only [Nat.toUInt16_eq, UInt16.toNat_ofNat']
      omega
    simp [read, tag, body, Bytes.word_ofUInt16, size, Bytes.cut_append]
  | int v =>
    have value : Int32.ofNat v.toUInt32.toNat = v := Int32.toBitVec_inj.1 (by simp)
    simp [read, tag, body, Bytes.word_ofUInt32, value]
  | float bits => simp [read, tag, body, Bytes.word_ofUInt32]
  | long v =>
    have value : Int64.ofNat v.toUInt64.toNat = v := Int64.toBitVec_inj.1 (by simp)
    simp [read, tag, body, Bytes.word_ofUInt64, value]
  | double bits => simp [read, tag, body, Bytes.word_ofUInt64]
  | «class» i => simp [read, tag, body, Bytes.word_ofUInt16]
  | string i => simp [read, tag, body, Bytes.word_ofUInt16]
  | field a b => exact readPair_body .field a b rest
  | method a b => exact readPair_body .method a b rest
  | interfaceMethod a b => exact readPair_body .interfaceMethod a b rest
  | nameType a b => exact readPair_body .nameType a b rest

end Entry

namespace Pool

/-- What is read of a written pool, with the index at which reading stopped and the bytes that are
left. -/
structure Reading where
  count : Nat
  entries : List (UInt16 × Entry)
  stop : Nat
  rest : Bytes

def readEntries (count index : Nat) (bytes : Bytes) :
    Option (List (UInt16 × Entry) × Nat × Bytes) :=
  if index < count then do
    let (e, bytes) ← Entry.read bytes
    let (entries, stop, bytes) ← readEntries count (index + e.width) bytes
    return ((index.toUInt16, e) :: entries, stop, bytes)
  else some ([], index, bytes)
termination_by count - index
decreasing_by
  have := e.width_pos
  omega

def read (bytes : Bytes) : Option Reading := do
  let (count, bytes) ← Bytes.word 2 bytes
  let (entries, stop, bytes) ← readEntries count 1 bytes
  return ⟨count, entries, stop, bytes⟩

def enumerate (index : Nat) : List Entry → List (UInt16 × Entry)
  | [] => []
  | e :: es => (index.toUInt16, e) :: enumerate (index + e.width) es

theorem readEntries_flatMap (es : List Entry) (writable : ∀ e ∈ es, e.Writable) (index : Nat)
    (rest : Bytes) :
    readEntries (index + (es.map Entry.width).sum) index (es.flatMap Entry.encode ++ rest) =
      some (enumerate index es, index + (es.map Entry.width).sum, rest) := by
  induction es generalizing index with
  | nil =>
    rw [readEntries, if_neg (by simp)]
    simp [enumerate]
  | cons e es ih =>
    have width := e.width_pos
    have others := ih (fun x member => writable x (List.mem_cons_of_mem e member)) (index + e.width)
    rw [List.map_cons, List.sum_cons, ← Nat.add_assoc, readEntries, if_pos (by omega),
      List.flatMap_cons, List.append_assoc, e.read_encode (writable e List.mem_cons_self)]
    simp [others, enumerate]

theorem mem_enumerate {es : List Entry} {index : Nat}
    (small : index + (es.map Entry.width).sum ≤ 65536) (i : UInt16) (e : Entry) :
    (i, e) ∈ enumerate index es ↔
      index ≤ i.toNat ∧ (es.flatMap Entry.places)[i.toNat - index]? = some (some e) := by
  induction es generalizing index with
  | nil => simp [enumerate]
  | cons first es ih =>
    rw [List.map_cons, List.sum_cons] at small
    have width := first.width_pos
    have start : index.toUInt16.toNat = index := by
      simp only [Nat.toUInt16_eq, UInt16.toNat_ofNat']
      omega
    rw [enumerate, List.mem_cons, ih (by omega), List.flatMap_cons, Prod.mk.injEq]
    by_cases own : i.toNat < index + first.width
    · have own_places : index ≤ i.toNat →
          ((first.places ++ es.flatMap Entry.places)[i.toNat - index]? = some (some e) ↔
            i.toNat = index ∧ first = e) := by
        intro from_start
        rw [List.getElem?_append_left (by rw [Entry.places_length]; omega),
          ← Option.join_eq_some_iff, first.places_join]
        by_cases at_start : i.toNat = index <;> simp [at_start, Nat.sub_eq_zero_iff_le]
        omega
      constructor
      · rintro (⟨rfl, rfl⟩ | ⟨past, -⟩)
        · exact ⟨by omega, (own_places (by omega)).2 ⟨start, rfl⟩⟩
        · omega
      · rintro ⟨from_start, there⟩
        obtain ⟨place, same⟩ := (own_places from_start).1 there
        exact Or.inl ⟨UInt16.toNat_inj.1 (place.trans start.symm), same.symm⟩
    · have other : ¬ i = index.toUInt16 := by
        rintro rfl
        omega
      have shifted : (first.places ++ es.flatMap Entry.places)[i.toNat - index]? =
          (es.flatMap Entry.places)[i.toNat - (index + first.width)]? := by
        rw [List.getElem?_append_right (by rw [Entry.places_length]; omega), Entry.places_length,
          Nat.sub_sub]
      rw [shifted]
      constructor
      · rintro (⟨same, -⟩ | ⟨past, there⟩)
        · exact absurd same other
        · exact ⟨by omega, there⟩
      · rintro ⟨-, there⟩
        exact Or.inr ⟨by omega, there⟩

def fillers (p : Pool) : Nat := if p.isSplit then p.space else 0

theorem count_le (p : Pool) : p.count ≤ limit := by
  have bounded := p.bounded
  unfold count
  cases p.layout with
  | simple => exact Nat.le_trans (Nat.le_add_right _ _) bounded
  | split => exact Nat.le_refl _

/-- An index of the written table that no entry takes up. -/
def Vacant (p : Pool) (i : UInt16) : Prop := 0 < i.toNat ∧ i.toNat < p.count ∧ ¬ p.Allocated i

namespace Arranged

variable {p : Pool} {lows highs : List Entry}

def written (p : Pool) (lows highs : List Entry) : List Entry :=
  lows ++ (List.replicate p.fillers (.utf8 []) ++ highs)

theorem encode_eq (arranged : p.Arranged lows highs) :
    p.encode = Bytes.ofUInt16 p.count.toUInt16 ++ (written p lows highs).flatMap Entry.encode := by
  have filled : (if p.isSplit then (List.replicate p.space filler).flatten else []) =
      (List.replicate p.fillers (.utf8 [])).flatMap Entry.encode := by
    rw [List.flatMap_replicate, fillers]
    split <;> simp [filler]
  rw [encode, filled, arranged.low_entries, arranged.high_entries, written]
  simp only [List.flatMap_append, List.append_assoc]

theorem count_eq (arranged : p.Arranged lows highs) :
    p.count = p.low.size + p.fillers + p.high.size := by
  have bounded := p.bounded
  have size := arranged.high_size
  unfold count fillers isSplit
  cases layout : p.layout with
  | simple =>
    rw [arranged.simple (by simp [isSplit, layout])] at size
    simpa using size
  | split =>
    simp only [decide_true, if_true, space]
    omega

theorem written_width (arranged : p.Arranged lows highs) :
    1 + ((written p lows highs).map Entry.width).sum = p.count := by
  have low_size := arranged.low_size
  have high_size := arranged.high_size
  have one : (Entry.utf8 []).width = 1 := rfl
  rw [arranged.count_eq, written]
  simp only [List.map_append, List.sum_append, List.map_replicate, List.sum_replicate_nat, one]
  omega

theorem getElem?_places_written (p : Pool) (lows highs : List Entry) (k : Nat) :
    ((written p lows highs).flatMap Entry.places)[k]? =
      if k < (lows.flatMap Entry.places).length then (lows.flatMap Entry.places)[k]?
      else if k < (lows.flatMap Entry.places).length + p.fillers then some (some (.utf8 []))
      else (highs.flatMap Entry.places)[k - (lows.flatMap Entry.places).length - p.fillers]? := by
  have filler_places : (List.replicate p.fillers (Entry.utf8 [])).flatMap Entry.places =
      List.replicate p.fillers (some (.utf8 [])) := by
    rw [List.flatMap_replicate]
    simp [Entry.places, Entry.isWide]
  rw [written, List.flatMap_append, List.flatMap_append, filler_places]
  split
  next low => rw [List.getElem?_append_left low]
  next past =>
    rw [List.getElem?_append_right (Nat.le_of_not_lt past)]
    split
    next free =>
      rw [List.getElem?_append_left (by rw [List.length_replicate]; omega), List.getElem?_replicate,
        if_pos (by omega)]
    next high =>
      rw [List.getElem?_append_right (by rw [List.length_replicate]; omega), List.length_replicate]

theorem mem_written (arranged : p.Arranged lows highs) (i : UInt16) (e : Entry) :
    (i, e) ∈ enumerate 1 (written p lows highs) ↔ p.entry? i = some e ∨
    (p.Vacant i ∧ e = .utf8 []) := by
  obtain ⟨bounded, low_size, high_size⟩ := arranged.sizes
  have count_eq := arranged.count_eq
  have count_le := p.count_le
  have widths := arranged.written_width
  have small : 1 + ((written p lows highs).map Entry.width).sum ≤ 65536 := by
    simp only [limit] at count_le
    omega
  rw [mem_enumerate small, getElem?_places_written, arranged.entry?_iff, Vacant,
    arranged.allocated_iff]
  rcases Nat.eq_zero_or_pos i.toNat with zero | positive
  · constructor
    · omega
    · omega
  by_cases low : i.toNat - 1 < (lows.flatMap Entry.places).length
  · rw [if_pos low]
    constructor
    · rintro ⟨-, there⟩
      exact Or.inl (Or.inl ⟨positive, there⟩)
    · rintro ((⟨-, there⟩ | ⟨reached, -, -⟩) | ⟨⟨-, -, free⟩, -⟩)
      · exact ⟨positive, there⟩
      · omega
      · omega
  have past : (lows.flatMap Entry.places).length ≤ i.toNat - 1 := Nat.le_of_not_lt low
  rw [if_neg low, List.getElem?_eq_none past]
  by_cases free : i.toNat < p.low.size + p.fillers
  · have below : p.low.size + p.fillers + p.high.size ≤ limit := by omega
    rw [if_pos (by omega), Option.some_inj, Option.some_inj]
    constructor
    · rintro ⟨-, rfl⟩
      exact Or.inr ⟨⟨positive, by omega, by omega⟩, rfl⟩
    · rintro ((⟨-, nothing⟩ | ⟨reached, -, -⟩) | ⟨-, same⟩)
      · cases nothing
      · omega
      · exact ⟨positive, same.symm⟩
  · rw [if_neg (by omega)]
    by_cases split : p.isSplit = true
    · have whole : p.low.size + p.fillers + p.high.size = limit := by
        simp only [fillers, split, if_true, space]
        omega
      rw [show i.toNat - 1 - (lows.flatMap Entry.places).length - p.fillers =
        i.toNat + p.high.size - limit by omega]
      constructor
      · rintro ⟨-, there⟩
        have inside := (List.getElem?_eq_some_iff.1 there).1
        exact Or.inl (Or.inr ⟨by omega, by omega, there⟩)
      · rintro ((⟨-, nothing⟩ | ⟨-, -, there⟩) | ⟨⟨-, within, vacant⟩, -⟩)
        · cases nothing
        · exact ⟨positive, there⟩
        · omega
    · have none_high : highs = [] := arranged.simple (by simpa using split)
      subst none_high
      simp only [List.flatMap_nil, List.length_nil] at high_size
      constructor
      · rintro ⟨-, there⟩
        cases there
      · rintro ((⟨-, nothing⟩ | ⟨-, -, there⟩) | ⟨⟨-, within, -⟩, -⟩)
        · cases nothing
        · cases there
        · omega

theorem read_encode_append (arranged : p.Arranged lows highs)
    (writable : ∀ e ∈ lows ++ highs, e.Writable) (rest : Bytes) :
    read (p.encode ++ rest) =
      some ⟨p.count, enumerate 1 (written p lows highs), p.count, rest⟩ := by
  have all_writable : ∀ e ∈ written p lows highs, e.Writable := by
    intro e member
    simp only [written, List.mem_append, List.mem_replicate] at member
    rcases member with low | ⟨-, rfl⟩ | high
    · exact writable e (List.mem_append_left _ low)
    · exact Nat.zero_le _
    · exact writable e (List.mem_append_right _ high)
  have count : p.count.toUInt16.toNat = p.count := by
    have bound := p.count_le
    simp only [limit] at bound
    simp only [Nat.toUInt16_eq, UInt16.toNat_ofNat']
    omega
  have entries := readEntries_flatMap (written p lows highs) all_writable 1 rest
  rw [arranged.written_width] at entries
  rw [arranged.encode_eq, List.append_assoc, read, Bytes.word_ofUInt16, count]
  simp only [Option.bind_eq_bind, Option.bind_some, entries]
  rfl

theorem read_encode (arranged : p.Arranged lows highs)
    (writable : ∀ e ∈ lows ++ highs, e.Writable) :
    read p.encode = some ⟨p.count, enumerate 1 (written p lows highs), p.count, []⟩ := by
  have read := arranged.read_encode_append writable []
  rwa [List.append_nil] at read

end Arranged

def Call.onNumbers : Call → Bool
  | .offer e | .insert e _ => e.isNumber
  | _ => true

theorem writable_of_isNumber {e : Entry} (number : e.isNumber = true) : e.Writable := by
  cases e with
  | utf8 bytes => cases number
  | _ => trivial

theorem allAllowed_of_onNumbers (p : Pool) (calls : List Call)
    (numbers : ∀ call ∈ calls, call.onNumbers = true) :
    AllAllowed (fun _ e => e.Writable) p calls := by
  induction calls generalizing p with
  | nil => trivial
  | cons call calls ih =>
    refine ⟨?_, ih _ fun c member => numbers c (List.mem_cons_of_mem call member)⟩
    have number := numbers call List.mem_cons_self
    cases call with
    | offer e => exact fun _ => writable_of_isNumber number
    | insert e low => exact writable_of_isNumber number
    | _ => trivial

/-- A pool that was given numbers only, whatever else was asked of it, is read back as it is: no
byte is left, each entry is at its index, an empty text is at every free index, of which a simple
pool has none, and nothing is at the second index of a wide entry. -/
theorem read_encode_after (layout : Layout) (texts : TextForm) (calls : List Call)
    (numbers : ∀ call ∈ calls, call.onNumbers = true) :
    let p := (empty layout texts).after calls
    ∃ entries, read p.encode = some ⟨p.count, entries, p.count, []⟩ ∧
      (∀ i e, (i, e) ∈ entries ↔ p.entry? i = some e ∨ (p.Vacant i ∧ e = .utf8 [])) ∧
      (layout = .simple → ∀ i, ¬ p.Vacant i) ∧
      ∀ i e j, p.entry? i = some e → e.isWide = true → j.toNat = i.toNat + 1 →
      ∀ e', (j, e') ∉ entries := by
  intro p
  have grown := after_adds (fun _ _ writable _ => writable) (empty layout texts) calls
    (allAllowed_of_onNumbers (empty layout texts) calls numbers)
  obtain ⟨lows, highs, arranged, writable⟩ := grown.arranged Entry.Writable (fun _ _ fine => fine)
    ⟨[], [], arranged_empty layout texts, by simp⟩
  refine ⟨_, arranged.read_encode writable, arranged.mem_written, ?_, ?_⟩
  · rintro rfl i ⟨positive, within, free⟩
    have simple : p.layout = .simple := grown.layout_eq
    refine free ((arranged.allocated_iff i).2 (Or.inl ⟨positive, ?_⟩))
    rwa [count, simple] at within
  · intro i e j there wide next e' read
    rcases (arranged.mem_written j e').1 read with other | ⟨⟨-, -, free⟩, -⟩
    · rw [arranged.entry?_second there wide next] at other
      cases other
    · exact free ⟨i, e, there, by omega, by rw [e.width_of_isWide wide]; omega⟩

def sampleCalls : List Call :=
  [.utf8 "x", .stringRef "x", .double 0, .insert (.long 7) true, .insert (.long 7) true,
    .offer (.int 100000),
    .utf8 (String.ofList (List.replicate 65536 'x')), .method ⟨"A", "m", ["I"], "V"⟩]

theorem sampleCalls_read :
    (∀ call ∈ sampleCalls, call.onNumbers = true) ∧
    let p := (empty .split).after sampleCalls
    ∃ entries, read p.encode = some ⟨p.count, entries, p.count, []⟩ ∧
      (∀ i e, (i, e) ∈ entries ↔ p.entry? i = some e ∨ (p.Vacant i ∧ e = .utf8 [])) ∧
      (Layout.split = .simple → ∀ i, ¬ p.Vacant i) ∧
      ∀ i e j, p.entry? i = some e → e.isWide = true → j.toNat = i.toNat + 1 →
      ∀ e', (j, e') ∉ entries :=
  ⟨by decide, read_encode_after .split .modifiedUtf8 sampleCalls (by decide)⟩

end Pool

end Restack
