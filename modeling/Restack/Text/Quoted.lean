import Restack.Text.Extender
import Restack.Text.Unprintable

set_option autoImplicit false

namespace Restack.Text

def letter? : Char → Option Char
  | '\x00' => some '0'
  | '\t' => some 't'
  | '\r' => some 'r'
  | '\n' => some 'n'
  | '\\' => some '\\'
  | '"' => some '"'
  | _ => none

def byCodePoint (c : Char) : List Char := ['\\', 'u', '\x7b'] ++ Nat.toDigits 16 c.toNat ++ ['\x7d']

def quoteChar (c : Char) : List Char :=
  match letter? c with
  | some letter => ['\\', letter]
  | none => if isPrintable c && !isExtender c then [c] else byCodePoint c

/-- A character stands for itself exactly if it has no letter and is in neither table. -/
theorem quoteChar_eq_self_iff (c : Char) :
    quoteChar c = [c] ↔ letter? c = none ∧
      ¬ ∃ r ∈ unprintable.ranges ++ extenders.ranges, r.1 ≤ c.toNat ∧ c.toNat ≤ r.2 := by
  have plain : (isPrintable c && !isExtender c) = true ↔
      ¬ ∃ r ∈ unprintable.ranges ++ extenders.ranges, r.1 ≤ c.toNat ∧ c.toNat ≤ r.2 := by
    rw [Bool.and_eq_true, isPrintable_iff, Bool.not_eq_true', ← Bool.not_eq_true, isExtender_iff]
    simp only [List.mem_append, or_and_right, exists_or, not_or]
  rw [← plain]
  unfold quoteChar
  split
  next letter found => simp [found]
  next none =>
    split
    next shows => simp [none, shows]
    next hidden => simp [none, hidden, byCodePoint]

def quote (s : String) : String :=
  String.ofList ('"' :: s.toList.flatMap quoteChar ++ ['"'])

end Restack.Text
