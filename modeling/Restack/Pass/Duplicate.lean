import Restack.HandOver
import Restack.Stack.Body
import Restack.Stack.CopyPlan

set_option autoImplicit false

namespace Restack

namespace Duplicate

structure Use where
  index : Nat
  line : Line
deriving Repr, Inhabited

/-- Loads of one local with no store, branch or jump target between them, in order. -/
abbrev Stretch := List Use

/-- Stretches that go on and those that have ended. `atHead` says whether the line before heads a
block. -/
structure State where
  current : Std.HashMap Local (Array Use)
  ended : Array (Array Use)
  atHead : Bool

/-- Whether no copy may be left on the stack at the line. -/
def isBarrier (b : Body) (l : Line) : Bool :=
  b.isTarget l ||
    match l.insn with
    | .switch _ => true
    | .jump j => j.op.isSome
    | _ => false

def endAll (handOver : HandOver) (s : State) : State :=
  { s with
    current := ∅, ended := s.ended ++ ((handOver.order s.current.toList).map Prod.snd).toArray }

def access (s : State) (index : Nat) (l : Line) (a : Access) : State :=
  if a.var.isWide then s
  else if a.isStore then
    match s.current[a.var]? with
    | some uses => { s with current := s.current.erase a.var, ended := s.ended.push uses }
    | none => s
  else if s.atHead then
    { s with current := s.current.alter a.var fun uses => some ((uses.getD #[]).push ⟨index, l⟩) }
  else s

def visit (handOver : HandOver) (b : Body) (s : State) (l : Line) (index : Nat) : State :=
  let s := if isBarrier b l then endAll handOver s else s
  let s :=
    match l.insn with
    | .access a => access s index l a
    | _ => s
  { s with atHead := l.insn matches .label (some _) }

def stretches (handOver : HandOver) (b : Body) : List Stretch :=
  let s := b.lines.zipIdx.foldl (fun s (l, index) => visit handOver b s l index) ⟨∅, #[], false⟩
  ((endAll handOver s).ended.toList.map Array.toList).filter fun uses => 2 ≤ uses.length

/-- Long stretches are preferred, and later ones among those of equal length. -/
def rank (uses : Stretch) : Nat := uses.length * 1000 + (uses.head?.map Use.index).getD 0

def sortByRank (all : List Stretch) : List Stretch := all.mergeSort fun a b => rank a ≤ rank b

def outside (first last : Nat) (uses : Stretch) : List Stretch :=
  [uses.filter (·.index < first), (uses.filter (¬ ·.index < first)).filter (last < ·.index)].filter
    fun part => 2 ≤ part.length

def size (all : List Stretch) : Nat := all.flatten.length

theorem size_append (a b : List Stretch) : size (a ++ b) = size a + size b := by
  simp [size]

theorem size_filter_le (p : Stretch → Bool) (all : List Stretch) :
    size (all.filter p) ≤ size all := by
  induction all with
  | nil => simp
  | cons uses rest ih =>
    rw [List.filter_cons]
    split
    all_goals
      simp only [size, List.flatten_cons, List.length_append] at *
      omega

theorem size_outside_le (first last : Nat) (uses : Stretch) :
    size (outside first last uses) ≤ uses.length := by
  have kept := size_filter_le (fun part => decide (2 ≤ part.length))
    [uses.filter (·.index < first), (uses.filter (¬ ·.index < first)).filter (last < ·.index)]
  have parts : (uses.filter (·.index < first)).length + (uses.filter (¬ ·.index < first)).length =
      uses.length := by
    simpa [List.countP_eq_length_filter]
      using (uses.length_eq_countP_add_countP (fun u => decide (u.index < first))).symm
  have after := (uses.filter (¬ ·.index < first)).length_filter_le (last < ·.index)
  simp only [size, List.flatten_cons, List.flatten_nil, List.length_append, List.length_nil] at kept
  unfold outside size
  omega

theorem size_flatMap_outside_le (first last : Nat) (all : List Stretch) :
    size (all.flatMap (outside first last)) ≤ size all := by
  induction all with
  | nil => simp
  | cons uses rest ih =>
    have head := size_outside_le first last uses
    rw [List.flatMap_cons, size_append]
    simp only [size, List.flatten_cons, List.length_append] at *
    omega

theorem size_sortByRank (all : List Stretch) : size (sortByRank all) = size all :=
  (List.mergeSort_perm all _).flatten.length_eq

/-- Takes the stretch of the highest rank, cuts it out of the others, and goes on. Stretches come by
ascending rank. -/
def choose (all : List Stretch) : List Stretch :=
  match _found : all.getLast? with
  | some (first :: others) =>
    let last := ((first :: others).getLast?.map Use.index).getD first.index
    (first :: others) :: choose (sortByRank (all.dropLast.flatMap (outside first.index last)))
  | _ => []
termination_by size all
decreasing_by
  obtain ⟨rest, rfl⟩ := List.getLast?_eq_some_iff.1 _found
  rw [List.dropLast_concat, size_sortByRank, size_append]
  have kept :=
    size_flatMap_outside_le first.index
      (((first :: others).getLast?.map Use.index).getD first.index) rest
  simp only [size, List.flatten_cons, List.flatten_nil, List.append_nil, List.length_cons] at *
  omega

def tagAll (fresh : Nat) (insns : List Insn) : List Line × Nat :=
  ((insns.zipIdx fresh).map fun (insn, tag) => ⟨tag, insn⟩, fresh + insns.length)

/-- The first load stays; before every use come the duplications that the copy plan asks for. -/
def serve (replacement : Std.HashMap Nat (List Line)) (fresh : Nat) (uses : Stretch) :
    Std.HashMap Nat (List Line) × Nat :=
  let first := (uses.head?.map Use.index).getD 0
  (uses.zip (copyPlan uses.length 0)).foldl (fun (replacement, fresh) (use, step) =>
    let (lines, fresh) := tagAll fresh step
    (replacement.insert use.line.tag (if use.index = first then use.line :: lines else lines),
      fresh))
    (replacement, fresh)

end Duplicate

def Body.duplicate (b : Body) (handOver : HandOver := .asListed) : Body :=
  let (replacement, fresh) :=
    (Duplicate.choose (Duplicate.sortByRank (Duplicate.stretches handOver b))).foldl
      (fun (replacement, fresh) uses => Duplicate.serve replacement fresh uses) (∅, b.fresh)
  { b.splice replacement with fresh }

end Restack
