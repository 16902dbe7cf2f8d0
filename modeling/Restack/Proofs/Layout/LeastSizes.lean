import Mathlib.Order.Bounds.Basic
import Restack.Proofs.Layout.Assembly

set_option autoImplicit false

namespace Restack

variable {l : Line} {i : Nat}

namespace Line

def isLong (l : Line) : Bool :=
  match l.insn with
  | .jump j => j.size = .long
  | _ => false

def sized (l : Line) (long : Bool) : Line :=
  match l.insn with
  | .jump j => { l with insn := .jump { j with size := if long then .long else .short } }
  | _ => l

theorem eq_true_of_isLong_sized {long : Bool} (is_long : (l.sized long).isLong = true) :
    long = true := by
  obtain ⟨tag, insn⟩ := l
  cases insn with
  | jump j => simpa [isLong, sized] using is_long
  | _ => cases is_long

theorem Resized.sized_isLong {a b : Line} (resized : Resized a b)
    (decided : b.isUndecided = false) : a.sized b.isLong = b := by
  have chosen (tag : Nat) (j : Jump) (size : Jump.Size)
      (decided : isUndecided ⟨tag, .jump { j with size }⟩ = false) :
      sized ⟨tag, .jump j⟩ (isLong ⟨tag, .jump { j with size }⟩) =
        ⟨tag, .jump { j with size }⟩ := by
    cases size with
    | undecided => cases decided
    | short => rfl
    | long => rfl
  cases resized with
  | same =>
    obtain ⟨tag, insn⟩ := a
    cases insn with
    | jump j => exact chosen tag j j.size decided
    | _ => rfl
  | jump tag j size => exact chosen tag j size decided

theorem isLong_settle (is_long : l.settle.isLong = true) : l.isLong = true := by
  obtain ⟨tag, insn⟩ := l
  cases insn with
  | jump j =>
    simp only [settle, isLong, Jump.settle, decide_eq_true_eq] at is_long ⊢
    split at is_long
    · cases is_long
    · exact is_long
  | _ => cases is_long

def isPadded (l : Line) : Bool :=
  match l.insn with
  | .switch _ => true
  | _ => false

/-- Lines of one tag, of which the first takes no more space than the second, wherever they stand.
-/
def NoLonger (a b : Line) : Prop :=
  a.tag = b.tag ∧ ∀ here there, a.insn.lengthAt here ≤ b.insn.lengthAt there

end Line

section Gaps

variable {first second : List Line}

section

variable (shorter : List.Forall₂ Line.NoLonger first second)
include shorter

theorem endOf_add_le (here there : Nat) : endOf here first + there ≤ endOf there second + here := by
  induction shorter generalizing here there with
  | nil => simp [Nat.add_comm]
  | @cons a b _ _ head _ ih =>
    have grows := head.2 here there
    have rest := ih (here + a.insn.lengthAt here) (there + b.insn.lengthAt there)
    rw [endOf_cons, endOf_cons]
    omega

theorem gap_le {k : Nat} (le : i ≤ k) :
    endOf 0 (first.take i) ≤ endOf 0 (first.take k) ∧
      endOf 0 (first.take k) + endOf 0 (second.take i) ≤
        endOf 0 (second.take k) + endOf 0 (first.take i) := by
  obtain ⟨d, rfl⟩ := Nat.exists_eq_add_of_le le
  rw [List.take_add, List.take_add, endOf_append, endOf_append]
  have between := List.forall₂_take d (List.forall₂_drop i shorter)
  exact ⟨le_endOf _ _, endOf_add_le between _ _⟩

theorem inRange_gap {k : Nat}
    (near : Jump.inRange ((endOf 0 (second.take k) : Int) - endOf 0 (second.take i)) = true) :
    Jump.inRange ((endOf 0 (first.take k) : Int) - endOf 0 (first.take i)) = true := by
  simp only [Jump.inRange, Bool.and_eq_true, decide_eq_true_eq] at near ⊢
  rcases Nat.le_total i k with forward | backward
  · obtain ⟨ascends, gap⟩ := gap_le shorter forward
    omega
  · obtain ⟨ascends, gap⟩ := gap_le shorter backward
    omega

end

theorem tableOf_places (alike : List.Forall₂ (fun a b : Line => a.tag = b.tag) first second)
    (here there : Nat) (table table' : Std.HashMap Nat Nat) (tag : Nat) :
    (∃ k, (tableOf (first.zip (startsOf here first)) table)[tag]? =
      some (endOf here (first.take k)) ∧
      (tableOf (second.zip (startsOf there second)) table')[tag]? =
        some (endOf there (second.take k))) ∨
    (tableOf (first.zip (startsOf here first)) table)[tag]? = table[tag]? ∧
      (tableOf (second.zip (startsOf there second)) table')[tag]? = table'[tag]? := by
  induction alike generalizing here there table table' with
  | nil => exact .inr ⟨rfl, rfl⟩
  | @cons a b _ _ head _ ih =>
    simp only [startsOf, List.zip_cons_cons, tableOf_cons]
    rcases ih (here + a.insn.lengthAt here) (there + b.insn.lengthAt there)
      (table.insert a.tag here)
      (table'.insert b.tag there) with ⟨k, found, found'⟩ | ⟨kept, kept'⟩
    · exact .inl ⟨k + 1, found, found'⟩
    · rw [Std.HashMap.getElem?_insert] at kept kept'
      rw [← head] at kept' ⊢
      by_cases same : a.tag = tag
      · simp only [same, beq_self_eq_true, ↓reduceIte] at kept kept' ⊢
        exact .inl ⟨0, kept, kept'⟩
      · simp only [beq_iff_eq, same, ↓reduceIte] at kept kept'
        exact .inr ⟨kept, kept'⟩

theorem exists_place (alike : List.Forall₂ (fun a b : Line => a.tag = b.tag) first second)
    (tag : Nat) :
    ∃ k, (positionByTag first).getD tag 0 = endOf 0 (first.take k) ∧
      (positionByTag second).getD tag 0 = endOf 0 (second.take k) := by
  simp only [Std.HashMap.getD_eq_getD_getElem?, positionByTag_eq]
  rcases tableOf_places alike 0 0 ∅ ∅ tag with ⟨k, found, found'⟩ | ⟨none, none'⟩
  · exact ⟨k, by rw [found, Option.getD_some], by rw [found', Option.getD_some]⟩
  · exact ⟨0, by rw [none]; simp, by rw [none']; simp⟩

theorem inRange_distance (shorter : List.Forall₂ Line.NoLonger first second)
    (heads : Std.HashMap UInt32 Nat) (tag : Nat) (target : UInt32)
    (near : Jump.inRange (distance heads (positionByTag second) tag target) = true) :
    Jump.inRange (distance heads (positionByTag first) tag target) = true := by
  have alike : List.Forall₂ (fun a b : Line => a.tag = b.tag) first second :=
    shorter.imp fun _ _ pair => pair.1
  obtain ⟨i, here, here'⟩ := exists_place alike tag
  have there : ∃ k, ((heads[target]?.bind fun head => (positionByTag first)[head]?).getD 0) =
      endOf 0 (first.take k) ∧
      ((heads[target]?.bind fun head => (positionByTag second)[head]?).getD 0) =
        endOf 0 (second.take k) := by
    cases heads[target]? with
    | none => exact ⟨0, rfl, rfl⟩
    | some head =>
      simp only [Option.bind_some, ← Std.HashMap.getD_eq_getD_getElem?]
      exact exists_place alike head
  obtain ⟨k, there, there'⟩ := there
  unfold distance at near ⊢
  rw [here', there'] at near
  rw [here, there]
  exact inRange_gap shorter near

end Gaps

section Rounds

variable {heads : Std.HashMap UInt32 Nat} {lines : List Line}

/-- Rounds come to an end after at most one for each undecided jump. -/
theorem widenAll_eq_iterate (heads : Std.HashMap UInt32 Nat) (lines : List Line) :
    ∃ n ≤ undecided lines, widenAll heads lines = (widenJumps heads)^[n] lines := by
  fun_induction widenAll heads lines with
  | case1 lines wider fewer ih =>
    obtain ⟨n, le, rounds⟩ := ih
    exact ⟨n + 1, by omega, by rw [rounds, Function.iterate_succ_apply]⟩
  | case2 lines wider stuck => exact ⟨0, Nat.zero_le _, widenJumps_eq_self stuck⟩

theorem undecided_le_jumps (lines : List Line) :
    undecided lines ≤ lines.countP fun l => l.insn.isJump := by
  rw [undecided_eq]
  refine List.countP_mono_left fun l _ isUndecided => ?_
  obtain ⟨tag, insn⟩ := l
  cases insn with
  | jump j => rfl
  | _ => cases isUndecided

theorem Line.widen_noLonger (positions : Std.HashMap Nat Nat) (fixed : l.isPadded = false) :
    NoLonger l (l.widen heads positions) := by
  obtain ⟨tag, insn⟩ := l
  cases insn with
  | switch => cases fixed
  | jump j =>
    refine ⟨rfl, fun here there => ?_⟩
    simp only [widen, Insn.lengthAt, Jump.widen]
    split
    next far =>
      simp only [Jump.minLength, far.1, reduceCtorEq, ↓reduceIte, Jump.longLength, Jump.shortLength]
      split <;> omega
    next => exact Nat.le_refl _
  | _ => exact ⟨rfl, fun _ _ => Nat.le_refl _⟩

/-- Nothing is padded, and every long jump is out of reach for a short one. -/
structure FarApart (heads : Std.HashMap UInt32 Nat) (lines : List Line) : Prop where
  fixed : ∀ l ∈ lines, l.isPadded = false
  far : ∀ l ∈ lines, ∀ j, l.insn = .jump j → j.size = .long →
    Jump.inRange (distance heads (positionByTag lines) l.tag j.target) = false

theorem FarApart.widenJumps (apart : FarApart heads lines) :
    FarApart heads (widenJumps heads lines) := by
  have grown : List.Forall₂ Line.NoLonger lines (Restack.widenJumps heads lines) := by
    rw [widenJumps_eq, List.forall₂_map_right_iff, List.forall₂_same]
    exact fun l member => Line.widen_noLonger _ (apart.fixed l member)
  constructor
  · intro l member
    rw [widenJumps_eq] at member
    obtain ⟨⟨tag, insn⟩, inside, rfl⟩ := List.mem_map.1 member
    cases insn with
    | jump => rfl
    | _ => exact apart.fixed _ inside
  · intro l member j is_jump long
    rw [Bool.eq_false_iff]
    intro near
    -- What is within reach after the round was so before it.
    have nearer := inRange_distance grown heads l.tag j.target near
    rw [widenJumps_eq] at member
    obtain ⟨⟨tag, insn⟩, inside, rfl⟩ := List.mem_map.1 member
    cases insn with
    | jump k =>
      simp only [Line.widen, Insn.jump.injEq] at is_jump
      subst is_jump
      unfold Jump.widen at long nearer
      split at long
      next far =>
        rw [if_pos far] at nearer
        simp only [Line.widen] at nearer
        simp [nearer] at far
      next decided =>
        rw [if_neg decided] at nearer
        exact absurd nearer (by simpa [Line.widen] using apart.far _ inside k rfl long)
    | _ => cases is_jump

/-- A line in some round beside the same line with a size that was chosen for its jump. -/
inductive Line.Below : Line → Line → Prop where
  | same {l : Line} (no_jump : l.insn.isJump = false) (fixed : l.isPadded = false) : Below l l
  | jump (tag : Nat) (j : Jump) (long : Bool) (undecided : j.size ≠ .short)
      (grows : j.size = .long → long = true) :
      Below ⟨tag, .jump j⟩ (sized ⟨tag, .jump j⟩ long)

theorem Line.Below.noLonger {a b : Line} (below : Below a b) : NoLonger a b := by
  cases below with
  | same no_jump fixed =>
    obtain ⟨tag, insn⟩ := a
    cases insn with
    | jump => cases no_jump
    | switch => cases fixed
    | _ => exact ⟨rfl, fun _ _ => Nat.le_refl _⟩
  | jump tag j long open_jump grows =>
    refine ⟨rfl, fun here there => ?_⟩
    simp only [sized, Insn.lengthAt, Jump.minLength, Jump.longLength, Jump.shortLength]
    by_cases decided : j.size = .long
    · simp [decided, grows decided]
    · rw [if_neg decided]
      cases long with
      | true =>
        simp only [↓reduceIte]
        split <;> decide
      | false => simp

theorem Line.Below.isLong {a b : Line} (below : Below a b) (long : a.isLong = true) :
    b.isLong = true := by
  cases below with
  | same => exact long
  | jump tag j chosen open_jump grows =>
    have decided : j.size = .long := by simpa [Line.isLong] using long
    simp [Line.isLong, sized, grows decided]

theorem Line.Below.widen {other : List Line} (shorter : List.Forall₂ NoLonger lines other)
    {a b : Line} (below : Below a b)
    (reaches : ∀ j, b.insn = .jump j → j.size = .short →
      Jump.inRange (distance heads (positionByTag other) b.tag j.target) = true) :
    Below (a.widen heads (positionByTag lines)) b := by
  cases below with
  | same no_jump fixed =>
    have unchanged : a.widen heads (positionByTag lines) = a := by
      obtain ⟨tag, insn⟩ := a
      cases insn with
      | jump => cases no_jump
      | _ => rfl
    rw [unchanged]
    exact .same no_jump fixed
  | jump tag j long open_jump grows =>
    simp only [Line.widen, Jump.widen]
    split
    next far =>
      refine .jump tag { j with size := .long } long (by simp) fun _ => ?_
      cases long with
      | true => rfl
      | false =>
        have near :=
          inRange_distance shorter heads tag j.target (reaches { j with size := .short } rfl rfl)
        simp [near] at far
    next => exact .jump tag j long open_jump grows

end Rounds

namespace Body

/-- Line `i` is a jump that spans `offset` bytes as the lines are laid out. -/
def JumpsBy (b : Body) (i : Nat) (j : Jump) (offset : Int) : Prop :=
  ∃ (tag here there : Nat), b.lines[i]? = some ⟨tag, .jump j⟩ ∧
    (linePositions b.lines).1[i]? = some here ∧
    b.PlacedAt j.target there ∧ offset = there - here

def Closed (b : Body) : Prop :=
  ∀ l ∈ b.lines, ∀ j, l.insn = .jump j → ∃ m ∈ b.lines, b.heads[j.target]? = some m.tag

def longAt (b : Body) (i : Nat) : Bool := b.lines[i]?.any Line.isLong

def withLong (b : Body) (long : Nat → Bool) : Body :=
  { b with lines := b.lines.mapIdx fun i l => l.sized (long i) }

def JumpsReach (b : Body) : Prop :=
  ∀ i j offset, b.JumpsBy i j offset → j.size = .short → -32768 ≤ offset ∧ offset ≤ 32767

variable {b : Body} {j : Jump} {c : Body}

theorem positionByTag_of_nodup {lines : List Line} (distinct : (lines.map Line.tag).Nodup)
    (found : lines[i]? = some l) :
    (positionByTag lines)[l.tag]? = some (endOf 0 (lines.take i)) := by
  obtain ⟨position, there⟩ :=
    Option.isSome_iff_exists.1 (isSome_positionByTag (List.mem_of_getElem? found))
  obtain ⟨before, m, after, split, same, rfl⟩ := exists_of_positionByTag there
  have index : before.length = i := by
    refine (List.getElem?_inj (by simp [split]) distinct).1 ?_
    rw [List.getElem?_map, List.getElem?_map, found]
    simp [split, same]
  rw [there, ← index, split, List.take_left]

theorem JumpsBy.distance_eq (distinct : (b.lines.map Line.tag).Nodup) {offset : Int}
    (jumps : b.JumpsBy i j offset) {tag : Nat} (found : b.lines[i]? = some ⟨tag, .jump j⟩) :
    distance b.heads (positionByTag b.lines) tag j.target = offset := by
  obtain ⟨_, here, there, found', start, ⟨k, m, head, is_head, place⟩, rfl⟩ := jumps
  cases found.symm.trans found'
  rw [linePositions_eq, startsOf_getElem? _ _ (List.getElem?_eq_some_iff.1 found).1,
    Option.some.injEq] at start
  rw [linePositions_eq, startsOf_getElem? _ _ (List.getElem?_eq_some_iff.1 head).1,
    Option.some.injEq] at place
  have from_here := positionByTag_of_nodup distinct found
  simp only [start] at from_here
  simp [distance, is_head, positionByTag_of_nodup distinct head, Std.HashMap.getD_eq_getD_getElem?,
    from_here, place]

theorem exists_jumpsBy (closed : b.Closed) {tag : Nat} (found : b.lines[i]? = some ⟨tag, .jump j⟩) :
    ∃ offset, b.JumpsBy i j offset := by
  obtain ⟨m, member, is_head⟩ := closed _ (List.mem_of_getElem? found) j rfl
  obtain ⟨k, inside, rfl⟩ := List.getElem_of_mem member
  have place (i : Nat) (inside : i < b.lines.length) :
      (linePositions b.lines).1[i]? = some (endOf 0 (b.lines.take i)) := by
    rw [linePositions_eq, startsOf_getElem? _ _ inside]
  exact ⟨_, tag, _, _, found, place i (List.getElem?_eq_some_iff.1 found).1,
    ⟨k, _, List.getElem?_eq_getElem inside, is_head, place k inside⟩, rfl⟩

def Resized (b c : Body) : Prop := c.heads = b.heads ∧ List.Forall₂ Line.Resized b.lines c.lines

theorem Resized.tags (resized : b.Resized c) : c.lines.map Line.tag = b.lines.map Line.tag := by
  have same := resized.2
  generalize b.lines = first, c.lines = second at same
  induction same with
  | nil => rfl
  | cons head _ ih =>
    rw [List.map_cons, List.map_cons, ih]
    cases head <;> rfl

theorem Resized.closed (resized : b.Resized c) (closed : b.Closed) : c.Closed := by
  intro l member j is_jump
  obtain ⟨i, inside, rfl⟩ := List.getElem_of_mem member
  have length := resized.2.length_eq
  have there := List.getElem_mem (l := b.lines) (n := i) (by omega)
  have pair := resized.2.get (i := i) (by omega) inside
  simp only [List.get_eq_getElem] at pair
  have leads : ∃ m ∈ b.lines, b.heads[j.target]? = some m.tag := by
    generalize b.lines[i] = before, c.lines[i] = after at *
    cases pair with
    | same => exact closed _ there j is_jump
    | jump tag k size =>
      cases is_jump
      exact closed _ there k rfl
  obtain ⟨m, head, is_head⟩ := leads
  have tag : m.tag ∈ c.lines.map Line.tag := by
    rw [resized.tags]
    exact List.mem_map_of_mem head
  obtain ⟨m', head', same⟩ := List.mem_map.1 tag
  exact ⟨m', head', by rw [resized.1, is_head, same]⟩

theorem sizeJumps_resizes (b : Body) : b.Resized b.sizeJumps := ⟨rfl, sizeJumps_resized b⟩

theorem forall₂_withLong {R : Line → Line → Prop} (each : ∀ l ∈ b.lines, ∀ long, R l (l.sized long))
    (long : Nat → Bool) :
    List.Forall₂ R b.lines (b.withLong long).lines := by
  show List.Forall₂ R b.lines (b.lines.mapIdx fun i l => l.sized (long i))
  generalize b.lines = lines at each ⊢
  induction lines generalizing long with
  | nil => exact .nil
  | cons l lines ih =>
    obtain ⟨here, others⟩ := List.forall_mem_cons.1 each
    rw [List.mapIdx_cons]
    exact .cons (here _) (ih (fun i => long (i + 1)) others)

theorem withLong_resizes (b : Body) (long : Nat → Bool) : b.Resized (b.withLong long) := by
  refine ⟨rfl, forall₂_withLong (fun l _ long => ?_) long⟩
  obtain ⟨tag, insn⟩ := l
  cases insn with
  | jump j => exact .jump tag j _
  | _ => exact .same _

theorem decided_sizeJumps (initial : b.Unsized) :
    ∀ l ∈ b.sizeJumps.lines, l.isUndecided = false := by
  intro l member
  obtain ⟨tag, insn⟩ := l
  cases insn with
  | jump j => simpa [Line.isUndecided] using (sizeJumps_decided b initial _ member j rfl).1
  | _ => rfl

theorem sizeJumps_of_decided (decided : ∀ l ∈ b.lines, l.isUndecided = false) :
    b.sizeJumps = b := by
  have unchanged : widenJumps b.heads b.lines = b.lines := by
    rw [widenJumps_eq]
    refine (List.map_congr_left fun l member => ?_).trans (List.map_id _)
    rcases l.widen_eq_or_decided b.heads (positionByTag b.lines) with same | ⟨isUndecided, -⟩
    · exact same
    · rw [decided l member] at isUndecided
      cases isUndecided
  have settled : settleJumps b.lines = b.lines := by
    rw [settleJumps_eq]
    refine (List.map_congr_left fun l member => ?_).trans (List.map_id _)
    have here := decided l member
    obtain ⟨tag, insn⟩ := l
    cases insn with
    | jump j =>
      have size : j.size ≠ .undecided := by simpa [Line.isUndecided] using here
      simp [Line.settle, Jump.settle, size]
    | _ => rfl
  have same : widenAll b.heads b.lines = b.lines := by
    rw [widenAll, unchanged, if_neg (Nat.lt_irrefl _)]
  rw [sizeJumps, same, settled]

theorem withLong_longAt (lines : List.Forall₂ Line.Resized b.lines c.lines)
    (decided : ∀ l ∈ c.lines, l.isUndecided = false) :
    (b.withLong c.longAt).lines = c.lines := by
  show b.lines.mapIdx (fun i l => l.sized (c.lines[i]?.any Line.isLong)) = c.lines
  generalize b.lines = first, c.lines = second at lines decided
  induction lines with
  | nil => rfl
  | cons head _ ih =>
    rw [List.mapIdx_cons]
    obtain ⟨here, others⟩ := List.forall_mem_cons.1 decided
    refine congrArg₂ _ ?_ (ih others)
    simp only [List.getElem?_cons_zero, Option.any_some]
    exact head.sized_isLong here

theorem jumpsReach_iff_reaching (distinct : (c.lines.map Line.tag).Nodup) (closed : c.Closed) :
    c.JumpsReach ↔ c.Reaching := by
  constructor
  · intro reaches l member j is_jump short
    obtain ⟨i, found⟩ := List.getElem?_of_mem member
    obtain ⟨tag, insn⟩ := l
    cases is_jump
    obtain ⟨offset, jumps⟩ := exists_jumpsBy closed found
    obtain ⟨lower, upper⟩ := reaches i j offset jumps short
    rw [jumps.distance_eq distinct found]
    simp only [Jump.inRange, Bool.and_eq_true, decide_eq_true_eq]
    omega
  · intro reaching i j offset jumps short
    obtain ⟨tag, -, -, found, -⟩ := id jumps
    have near := reaching _ (List.mem_of_getElem? found) j rfl short
    rw [jumps.distance_eq distinct found] at near
    simp only [Jump.inRange, Bool.and_eq_true, decide_eq_true_eq] at near
    omega

/-- The rounds make no jump long that is short in a choice where all short jumps reach their
targets. -/
theorem longAt_le_of_jumpsReach (initial : b.Unsized) (distinct : (b.lines.map Line.tag).Nodup)
    (closed : b.Closed) (fixed : ∀ l ∈ b.lines, l.isPadded = false) {long : Nat → Bool}
    (reaches : (b.withLong long).JumpsReach) :
    b.sizeJumps.longAt ≤ long := by
  have resized := b.withLong_resizes long
  have start : List.Forall₂ Line.Below b.lines (b.withLong long).lines := by
    refine forall₂_withLong (fun l member long => ?_) long
    have unsized := initial l member
    have unpadded := fixed l member
    obtain ⟨tag, insn⟩ := l
    cases insn with
    | jump j => exact .jump tag j long (by simp [unsized j rfl]) (by simp [unsized j rfl])
    | _ => exact .same rfl unpadded
  have rounds : List.Forall₂ Line.Below (widenAll b.heads b.lines) (b.withLong long).lines := by
    refine widenAll_induction
      (P := fun lines => List.Forall₂ Line.Below lines (b.withLong long).lines) ?_ start
    intro lines below
    rw [widenJumps_eq, List.forall₂_map_left_iff, List.forall₂_iff_zip]
    refine ⟨below.length_eq, fun {a c} pair => ?_⟩
    refine Line.Below.widen (below.imp fun _ _ pair => pair.noLonger)
      ((List.forall₂_iff_zip.1 below).2 pair) ?_
    have reaching :=
      (jumpsReach_iff_reaching (by rwa [resized.tags]) (resized.closed closed)).1 reaches
    exact reaching c (List.of_mem_zip pair).2
  intro i
  rw [Bool.le_iff_imp]
  intro is_long
  have settled : b.sizeJumps.lines[i]? = (widenAll b.heads b.lines)[i]?.map Line.settle :=
    List.getElem?_map
  rw [longAt, settled, Option.any_map, Option.any_eq_true] at is_long
  obtain ⟨l, found, is_long⟩ := is_long
  obtain ⟨inside, rfl⟩ := List.getElem?_eq_some_iff.1 found
  have chosen := rounds.get inside (by rwa [← rounds.length_eq])
  simp only [List.get_eq_getElem] at chosen
  have long_there := chosen.isLong (Line.isLong_settle is_long)
  simp only [withLong, List.getElem_mapIdx] at long_there
  exact Line.eq_true_of_isLong_sized long_there

theorem far_sizeJumps (distinct : (b.lines.map Line.tag).Nodup) (initial : b.Unsized)
    (fixed : ∀ l ∈ b.lines, l.isPadded = false) {offset : Int}
    (jumps : b.sizeJumps.JumpsBy i j offset) (long : j.size = .long) :
    offset < -32768 ∨ 32767 < offset := by
  have start : FarApart b.heads b.lines := by
    refine ⟨fixed, fun l member j is_jump long => ?_⟩
    rw [initial l member j is_jump] at long
    cases long
  have apart : FarApart b.heads (widenAll b.heads b.lines) :=
    widenAll_induction (P := FarApart b.heads) (fun _ => FarApart.widenJumps) start
  obtain ⟨tag, -, -, found, -⟩ := id jumps
  have resized := b.sizeJumps_resizes
  have settled : ⟨tag, .jump j⟩ ∈ (widenAll b.heads b.lines).map Line.settle :=
    List.mem_of_getElem? found
  obtain ⟨l, inside, same⟩ := List.mem_map.1 settled
  have unsettled : l = ⟨tag, .jump j⟩ := by
    obtain ⟨tag', insn⟩ := l
    cases insn with
    | jump k =>
      simp only [Line.settle, Jump.settle, Line.mk.injEq, Insn.jump.injEq] at same
      obtain ⟨rfl, rfl⟩ := same
      split at long
      · cases long
      next decided => rw [if_neg decided]
    | _ => cases same
  have out := apart.far l inside j (by rw [unsettled]) long
  rw [unsettled, ← positionByTag_sizeJumps, ← resized.1,
    jumps.distance_eq (by rwa [resized.tags]) found] at out
  simp only [Jump.inRange, Bool.and_eq_false_iff, decide_eq_false_iff_not] at out
  omega

/-- Sizing ends after at most one round for each jump, leaves every jump with one length, is not
changed by doing it again, and every short jump reaches its target. Unless something is padded, no
long jump could be short where it stands, and every choice of sizes in which all short jumps reach
their targets makes these jumps long and maybe others. -/
theorem sizeJumps_isLeast (b : Body) (distinct : (b.lines.map Line.tag).Nodup) (closed : b.Closed)
    (initial : b.Unsized) :
    (∃ n ≤ b.lines.countP (fun l => l.insn.isJump),
      widenJumps b.heads ((widenJumps b.heads)^[n] b.lines) = (widenJumps b.heads)^[n] b.lines ∧
      b.sizeJumps.lines = settleJumps ((widenJumps b.heads)^[n] b.lines)) ∧
    (∀ l ∈ b.sizeJumps.lines, ∀ j, l.insn = .jump j → j.minLength = j.maxLength) ∧
    b.sizeJumps.sizeJumps = b.sizeJumps ∧
    (∀ i tag j, b.sizeJumps.lines[i]? = some ⟨tag, .jump j⟩ →
      ∃ offset, b.sizeJumps.JumpsBy i j offset) ∧
    b.sizeJumps.JumpsReach ∧
    ((∀ l ∈ b.lines, l.isPadded = false) →
      (∀ i j offset, b.sizeJumps.JumpsBy i j offset → j.size = .long → offset < -32768 ∨
        32767 < offset) ∧
      IsLeast {long | (b.withLong long).JumpsReach} b.sizeJumps.longAt) := by
  have resized := b.sizeJumps_resizes
  have decided := decided_sizeJumps initial
  have closed' := resized.closed closed
  have reaches :=
    (jumpsReach_iff_reaching (by rwa [resized.tags]) closed').2 (sizeJumps_reaching b initial)
  refine ⟨?_, ?_, sizeJumps_of_decided decided, fun i tag j => exists_jumpsBy closed', reaches, ?_⟩
  · obtain ⟨n, le, rounds⟩ := widenAll_eq_iterate b.heads b.lines
    refine ⟨n, le.trans (undecided_le_jumps b.lines), ?_, ?_⟩
    · rw [← rounds]
      exact widenJumps_widenAll b.heads b.lines
    · rw [← rounds]
      rfl
  · intro l member j is_jump
    have size := (sizeJumps_decided b initial l member j is_jump).1
    simp only [Jump.minLength, Jump.maxLength]
    cases decided : j.size with
    | undecided => exact absurd decided size
    | short => rfl
    | long => rfl
  · intro fixed
    refine ⟨fun i j offset => far_sizeJumps distinct initial fixed, ?_, fun long => ?_⟩
    · have same : b.withLong b.sizeJumps.longAt = b.sizeJumps :=
        congrArg (fun lines => { b with lines }) (withLong_longAt resized.2 decided)
      rwa [Set.mem_ofPred_eq, same]
    · exact longAt_le_of_jumpsReach initial distinct closed fixed

def crossingFiller : Bytes := List.replicate 32762 0

def crossing (forward back : Jump.Size) : List Line :=
  [⟨0, .label (some 0)⟩, ⟨1, .jump { op := some Op.ifeq, target := 9, size := forward }⟩,
    ⟨2, .plain crossingFiller⟩,
    ⟨3, .jump { op := none, target := 0, size := back }⟩, ⟨4, .plain [0, 0, 0]⟩,
    ⟨5, .label (some 9)⟩, ⟨6, .op Op.vreturn⟩]

def crossingJumps : Body :=
  { ofInsns "crossing" [] with
    lines := crossing .undecided .undecided
    fresh := 7
    heads := (∅ : Std.HashMap UInt32 Nat).insert 0 0 |>.insert 9 5 }

theorem widenAll_crossing :
    widenAll crossingJumps.heads crossingJumps.lines = crossing .long .long := by
  have length : crossingFiller.length = 32762 := List.length_replicate
  have first : widenJumps crossingJumps.heads (crossing .undecided .undecided) =
      crossing .long .undecided := by
    simp [crossing, crossingJumps, widenJumps, positionByTag, linePositions, Insn.lengthAt,
      Insn.code?, Insn.op,
      Std.HashMap.getElem?_insert, Std.HashMap.getD_insert, Jump.widen, Jump.minLength,
      Jump.inRange, Jump.shortLength, length]
  have second : widenJumps crossingJumps.heads (crossing .long .undecided) =
      crossing .long .long := by
    simp [crossing, crossingJumps, widenJumps, positionByTag, linePositions, Insn.lengthAt,
      Insn.code?, Insn.op,
      Std.HashMap.getElem?_insert, Std.HashMap.getD_insert, Jump.widen, Jump.minLength,
      Jump.inRange, Jump.shortLength, Jump.longLength, length]
  have last : widenJumps crossingJumps.heads (crossing .long .long) = crossing .long .long := rfl
  rw [show crossingJumps.lines = crossing .undecided .undecided from rfl, widenAll, first,
    if_pos (by decide), widenAll, second, if_pos (by decide), widenAll, last, if_neg (by decide)]

theorem crossingJumps_isLeast :
    (crossingJumps.sizeJumps.longAt 1 = true ∧ crossingJumps.sizeJumps.longAt 3 = true) ∧
    crossingJumps.sizeJumps.sizeJumps = crossingJumps.sizeJumps ∧
    crossingJumps.sizeJumps.JumpsReach ∧
    IsLeast {long | (crossingJumps.withLong long).JumpsReach} crossingJumps.sizeJumps.longAt := by
  have lines : crossingJumps.sizeJumps.lines = crossing .long .long := by
    show settleJumps (widenAll crossingJumps.heads crossingJumps.lines) = _
    rw [widenAll_crossing]
    rfl
  have initial : crossingJumps.Unsized := by
    simp [Unsized, crossingJumps, crossing, Insn.op]
  have closed : crossingJumps.Closed := by
    simp [Closed, crossingJumps, crossing, Insn.op, Std.HashMap.getElem?_insert]
  obtain ⟨-, -, again, -, reaches, minimal⟩ :=
    sizeJumps_isLeast crossingJumps (by decide) closed initial
  refine ⟨⟨?_, ?_⟩, again, reaches, (minimal (by decide)).2⟩
  all_goals
    rw [longAt, lines]
    rfl

end Body

end Restack
