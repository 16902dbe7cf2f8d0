import Mathlib.Data.List.Forall2
import Restack.Proofs.Bytes

set_option autoImplicit false

namespace Restack.Bytes

theorem number_lt (bytes : Bytes) : number bytes < 256 ^ bytes.length := by
  -- The number read so far is carried along, so the bound is on what it becomes.
  have walk : ∀ (bytes : Bytes) (n : Nat),
      bytes.foldl (fun n b => 256 * n + b.toNat) n < (n + 1) * 256 ^ bytes.length := by
    intro bytes
    induction bytes with
    | nil => simp
    | cons b bytes ih =>
      intro n
      have small := b.toNat_lt
      calc
        (b :: bytes).foldl (fun n b => 256 * n + b.toNat) n <
          (256 * n + b.toNat + 1) * 256 ^ bytes.length := ih _
        _ ≤ ((n + 1) * 256) * 256 ^ bytes.length := Nat.mul_le_mul_right _ (by omega)
        _ = (n + 1) * 256 ^ (b :: bytes).length := by
          rw [List.length_cons, Nat.pow_succ', Nat.mul_assoc]
  have whole := walk bytes 0
  rwa [Nat.zero_add, Nat.one_mul] at whole

theorem cut_eq_some {size : Nat} {bytes front rest : Bytes}
    (found : cut size bytes = some (front, rest)) :
    front.length = size ∧ bytes = front ++ rest := by
  unfold cut at found
  split at found
  next enough =>
    cases found
    exact ⟨List.length_take_of_le enough, (List.take_append_drop size bytes).symm⟩
  next => cases found

theorem word_lt {size n : Nat} {bytes rest : Bytes} (found : word size bytes = some (n, rest)) :
    n < 256 ^ size := by
  obtain ⟨⟨front, _⟩, part, same⟩ := Option.map_eq_some_iff.1 found
  cases same
  have length := (cut_eq_some part).1
  rw [← length]
  exact number_lt front

/-- So many things read one after the other from the front, and the rest. -/
def several {α : Type} (read : Bytes → Option (α × Bytes)) : Nat → Bytes → Option (List α × Bytes)
  | 0, bytes => some ([], bytes)
  | n + 1, bytes => do
    let (x, bytes) ← read bytes
    let (xs, bytes) ← several read n bytes
    return (x :: xs, bytes)

section Several

variable {α : Type} {read : Bytes → Option (α × Bytes)} {xs : List α}

theorem several_flatten {parts : List Bytes} (each : List.Forall₂ (Holds read) parts xs)
    (rest : Bytes) :
    several read xs.length (parts.flatten ++ rest) = some (xs, rest) := by
  induction each with
  | nil => rfl
  | cons first _ ih =>
    rw [List.flatten_cons, List.append_assoc, List.length_cons, several, first]
    simp [ih]

theorem several_flatMap {encode : α → Bytes} (each : ∀ x, Holds read (encode x) x) (xs : List α)
    (rest : Bytes) :
    several read xs.length (xs.flatMap encode ++ rest) = some (xs, rest) := by
  apply several_flatten
  rw [List.forall₂_map_left_iff]
  exact List.forall₂_same.2 fun x _ => each x

theorem length_of_several {n : Nat} {bytes rest : Bytes}
    (found : several read n bytes = some (xs, rest)) : xs.length = n := by
  induction n generalizing bytes xs with
  | zero =>
    cases found
    rfl
  | succ n ih =>
    obtain ⟨⟨x, middle⟩, _, others⟩ := Option.bind_eq_some_iff.1 found
    obtain ⟨⟨ys, last⟩, more, same⟩ := Option.bind_eq_some_iff.1 others
    cases same
    rw [List.length_cons, ih more]

theorem forall_of_several {P : α → Prop} (each : ∀ bytes x rest, read bytes = some (x, rest) → P x)
    {n : Nat} {bytes rest : Bytes} (found : several read n bytes = some (xs, rest)) :
    ∀ x ∈ xs, P x := by
  induction n generalizing bytes xs with
  | zero =>
    cases found
    simp
  | succ n ih =>
    obtain ⟨⟨x, middle⟩, first, others⟩ := Option.bind_eq_some_iff.1 found
    obtain ⟨⟨ys, last⟩, more, same⟩ := Option.bind_eq_some_iff.1 others
    cases same
    exact List.forall_mem_cons.2 ⟨each _ _ _ first, ih more⟩

/-- A list behind its length, which takes two bytes. -/
def counted (read : Bytes → Option (α × Bytes)) (bytes : Bytes) : Option (List α × Bytes) := do
  let (n, bytes) ← word 2 bytes
  several read n bytes

theorem holds_counted {parts : List Bytes} (each : List.Forall₂ (Holds read) parts xs)
    (few : xs.length ≤ 65535) :
    Holds (counted read) (ofUInt16 xs.length.toUInt16 ++ parts.flatten) xs := by
  intro rest
  have count : xs.length.toUInt16.toNat = xs.length := by
    rw [Nat.toUInt16_eq, UInt16.toNat_ofNat', Nat.mod_eq_of_lt (by omega)]
  rw [counted, List.append_assoc, word_ofUInt16, count]
  exact several_flatten each rest

end Several

end Restack.Bytes
