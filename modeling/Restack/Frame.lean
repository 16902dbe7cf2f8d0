import Restack.ArrayView
import Restack.Kinds
import Restack.Trie

set_option autoImplicit false

namespace Restack

/-- For each register: the kinds it may be used as, the array it holds, and whether it is tainted:
its static type is wider than its uses rely on, so that each use has to cast it. -/
structure Frame where
  kinds : Trie Kinds
  arrays : Trie ArrayView
  taints : Trie Bool
  kinds_fill : kinds.fill = .none
  arrays_fill : arrays.fill = .unknown
  taints_fill : taints.fill = false

namespace Frame

def empty : Frame := ⟨.empty .none, .empty .unknown, .empty false, rfl, rfl, rfl⟩

instance : Inhabited Frame := ⟨empty⟩

def kindsOf (s : Frame) (reg : Nat) : Kinds := s.kinds.get reg

def arrayOf (s : Frame) (reg : Nat) : ArrayView := s.arrays.get reg

def isTainted (s : Frame) (reg : Nat) : Bool := s.taints.get reg

def assign (s : Frame) (reg : Nat) (kinds : Kinds) (array : ArrayView) (taint : Bool) : Frame where
  kinds := s.kinds.set reg kinds
  arrays := s.arrays.set reg array
  taints := s.taints.set reg taint
  kinds_fill := by simp [s.kinds_fill]
  arrays_fill := by simp [s.arrays_fill]
  taints_fill := by simp [s.taints_fill]

def assignPlain (s : Frame) (reg : Nat) (kinds : Kinds) : Frame := s.assign reg kinds .unknown false

/-- Assigns a value of two registers; the upper one cannot be used on its own. -/
def assignWide (s : Frame) (reg : Nat) (kinds : Kinds) : Frame :=
  (s.assignPlain reg kinds).assignPlain (reg + 1) .none

def assignDescriptor (s : Frame) (reg : Nat) (descriptor : String) : Frame :=
  let kinds := Kinds.ofDescriptor descriptor
  if kinds.isWide then s.assignWide reg kinds
  else s.assign reg kinds (.ofDescriptor descriptor) false

/-- Copies one register, or with `wide` a pair; both halves are read before either is written. -/
def move (s : Frame) (source target : Nat) (wide : Bool) : Frame :=
  let moved := s.assign target (s.kindsOf source) (s.arrayOf source) (s.isTainted source)
  if wide then
    moved.assign (target + 1) (s.kindsOf (source + 1)) (s.arrayOf (source + 1))
      (s.isTainted (source + 1))
  else moved

/-- Puts a parameter into the register that is `n` above the first one. -/
def placeParameter (first : Nat) (s : Frame) : Option String × Nat → Frame
  | (some d, n) =>
    { s with
      kinds := s.kinds.set (first + n) (.ofDescriptor d)
      arrays := s.arrays.set (first + n) (.ofDescriptor d)
      kinds_fill := by simp [s.kinds_fill]
      arrays_fill := by simp [s.arrays_fill] }
  | (none, _) => s

/-- The state on entry: parameters fill the last of the registers, in order, with a gap after each
wide one. -/
def ofParameters (parameters : List (Option String)) (registers : Nat) : Frame :=
  parameters.zipIdx.foldl (placeParameter (registers - parameters.length)) empty

def same (a b : Frame) : Bool :=
  a.kinds.same b.kinds && a.arrays.same b.arrays && a.taints.same b.taints

def join (a b : Frame) : Frame where
  kinds := a.kinds.merge .inter b.kinds
  arrays := a.arrays.merge .merge b.arrays
  taints := a.taints.merge (· || ·) b.taints
  kinds_fill := by simp [a.kinds_fill]
  arrays_fill := by simp [a.arrays_fill]
  taints_fill := by simp [a.taints_fill]

/-- The join, or `none` when `b` adds nothing to `a`. -/
def merge? (a b : Frame) : Option Frame :=
  let joined := a.join b
  if joined.same a then none else some joined

end Frame

end Restack
