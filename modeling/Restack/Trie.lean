set_option autoImplicit false

namespace Restack

namespace Trie

/-- Values held by one node, and also the number of its children. -/
def fanout : Nat := 16

inductive Node (α : Type) where
  | absent
  | branch (slots : List α) (children : List (Node α))

namespace Node

variable {α : Type}

def slots (fill : α) : Node α → List α
  | .absent => List.replicate fanout fill
  | .branch s _ => s

def children : Node α → List (Node α)
  | .absent => List.replicate fanout .absent
  | .branch _ cs => cs

/-- Every node that is present holds as many values and children as there are places for. -/
inductive Full : Node α → Prop where
  | absent : Full .absent
  | branch {s : List α} {cs : List (Node α)} : s.length = fanout → cs.length = fanout →
      (∀ c ∈ cs, Full c) → Full (.branch s cs)

namespace Full

theorem slots_length {n : Node α} (full : n.Full) (fill : α) : (n.slots fill).length = fanout := by
  cases full with
  | absent => simp [slots]
  | branch slots _ _ => exact slots

theorem children_length {n : Node α} (full : n.Full) : n.children.length = fanout := by
  cases full with
  | absent => simp [children]
  | branch _ children _ => exact children

theorem of_mem_children {n : Node α} (full : n.Full) : ∀ c ∈ n.children, c.Full := by
  cases full with
  | absent => exact fun c member => List.eq_of_mem_replicate member ▸ .absent
  | branch _ _ inner => exact inner

theorem child {n : Node α} (full : n.Full) (c : Nat) : (n.children.getD c .absent).Full := by
  rw [List.getD_eq_getElem?_getD]
  cases found : n.children[c]? with
  | none => exact .absent
  | some inner => exact full.of_mem_children inner (List.mem_of_getElem? found)

end Full

theorem inner_lt {i : Nat} (h : ¬ i < fanout) : (i - fanout) / fanout < i := by
  simp only [fanout] at *
  omega

def get (fill : α) (n : Node α) (i : Nat) : α :=
  match n with
  | .absent => fill
  | .branch s cs =>
    if h : i < fanout then s.getD i fill
    else
      have := inner_lt h
      get fill (cs.getD ((i - fanout) % fanout) .absent) ((i - fanout) / fanout)
termination_by i

def set (fill : α) (n : Node α) (i : Nat) (v : α) : Node α :=
  if h : i < fanout then .branch ((n.slots fill).set i v) n.children
  else
    have := inner_lt h
    let c := (i - fanout) % fanout
    .branch (n.slots fill)
      (n.children.set c (set fill (n.children.getD c .absent) ((i - fanout) / fanout) v))
termination_by i

theorem set_full (fill : α) (n : Node α) (i : Nat) (v : α) (full : n.Full) :
    (n.set fill i v).Full := by
  fun_induction set fill n i v with
  | case1 n i _ =>
    refine .branch ?_ full.children_length full.of_mem_children
    rw [List.length_set, full.slots_length]
  | case2 n i _ _ c ih =>
    refine .branch (full.slots_length fill) ?_ ?_
    · rw [List.length_set, full.children_length]
    · intro child member
      rcases List.mem_or_eq_of_mem_set member with old | rfl
      · exact full.of_mem_children child old
      · exact ih (full.child c)

mutual

def map (g : α → α) : Node α → Node α
  | .absent => .absent
  | .branch s cs => .branch (s.map g) (mapAll g cs)

def mapAll (g : α → α) : List (Node α) → List (Node α)
  | [] => []
  | c :: cs => c.map g :: mapAll g cs

end

mutual

/-- Merges value by value. A node with no counterpart is merged with the fill value. -/
def merge (f : α → α → α) (fill : α) : Node α → Node α → Node α
  | .absent, r => r.map (f · fill)
  | .branch s cs, .absent => (Node.branch s cs).map (f · fill)
  | .branch s cs, .branch t ds => .branch (List.zipWith f s t) (mergeAll f fill cs ds)

def mergeAll (f : α → α → α) (fill : α) : List (Node α) → List (Node α) → List (Node α)
  | c :: cs, d :: ds => c.merge f fill d :: mergeAll f fill cs ds
  | _, _ => []

end

theorem mapAll_eq_map (g : α → α) (cs : List (Node α)) : mapAll g cs = cs.map (map g) := by
  induction cs with
  | nil => rfl
  | cons c cs ih => rw [mapAll, ih, List.map_cons]

theorem mergeAll_eq_zipWith (f : α → α → α) (fill : α) (cs ds : List (Node α)) :
    mergeAll f fill cs ds = List.zipWith (merge f fill) cs ds := by
  induction cs generalizing ds with
  | nil => simp [mergeAll]
  | cons c cs ih =>
    cases ds with
    | nil => simp [mergeAll]
    | cons d ds => rw [mergeAll, ih, List.zipWith_cons_cons]

theorem map_full (g : α → α) {n : Node α} (full : n.Full) : (n.map g).Full := by
  induction full with
  | absent => simpa [map] using Full.absent
  | branch slots children _ ih =>
    rw [map, mapAll_eq_map]
    refine .branch (by simpa using slots) (by simpa using children) ?_
    intro c member
    obtain ⟨d, inside, rfl⟩ := List.mem_map.1 member
    exact ih d inside

theorem merge_full (f : α → α → α) (fill : α) {a b : Node α} (left : a.Full) (right : b.Full) :
    (a.merge f fill b).Full := by
  induction left generalizing b with
  | absent =>
    rw [merge]
    exact map_full _ right
  | @branch s cs slots children inner ih =>
    cases right with
    | absent =>
      rw [merge]
      exact map_full _ (.branch slots children inner)
    | @branch t ds slots' children' inner' =>
      rw [merge, mergeAll_eq_zipWith]
      refine .branch (by simp [slots, slots']) (by simp [children, children']) ?_
      intro c member
      rw [← List.map_uncurry_zip_eq_zipWith] at member
      obtain ⟨⟨x, y⟩, inside, rfl⟩ := List.mem_map.1 member
      exact ih x (List.of_mem_zip inside).1 (inner' y (List.of_mem_zip inside).2)

variable [DecidableEq α]

mutual

def isFill (fill : α) : Node α → Bool
  | .absent => true
  | .branch s cs => s.all (· = fill) && allFill fill cs

def allFill (fill : α) : List (Node α) → Bool
  | [] => true
  | c :: cs => c.isFill fill && allFill fill cs

end

mutual

def same (fill : α) : Node α → Node α → Bool
  | .absent, r => r.isFill fill
  | .branch s cs, .absent => (Node.branch s cs).isFill fill
  | .branch s cs, .branch t ds => s = t && allSame fill cs ds

def allSame (fill : α) : List (Node α) → List (Node α) → Bool
  | c :: cs, d :: ds => c.same fill d && allSame fill cs ds
  | _, _ => true

end

mutual

/-- The keys whose values differ from the fill value. Key `j` of this node is key `base + stride *
j` of the whole trie. -/
def entries (fill : α) (base stride : Nat) : Node α → List (Nat × α)
  | .absent => []
  | .branch s cs =>
    (s.zipIdx.filter (·.1 ≠ fill)).map (fun (v, j) => (base + stride * j, v)) ++
      childEntries fill base stride 0 cs

def childEntries (fill : α) (base stride : Nat) (c : Nat) : List (Node α) → List (Nat × α)
  | [] => []
  | n :: ns =>
    n.entries fill (base + stride * (fanout + c)) (stride * fanout) ++
      childEntries fill base stride (c + 1) ns

end

end Node

end Trie

structure Trie (α : Type) where
  fill : α
  root : Trie.Node α
  full : root.Full

namespace Trie

variable {α : Type}

def empty (fill : α) : Trie α where
  fill := fill
  root := .branch (List.replicate fanout fill) (List.replicate fanout .absent)
  full := .branch List.length_replicate List.length_replicate
    fun _ member => List.eq_of_mem_replicate member ▸ .absent

instance [Inhabited α] : Inhabited (Trie α) := ⟨empty default⟩

def get (t : Trie α) (i : Nat) : α := t.root.get t.fill i

variable [DecidableEq α]

/-- Gives key `i` the value `v`. Setting the value a key already has changes nothing. -/
def set (t : Trie α) (i : Nat) (v : α) : Trie α :=
  if t.get i = v then t else ⟨t.fill, t.root.set t.fill i v, t.root.set_full t.fill i v t.full⟩

@[simp] theorem set_fill (t : Trie α) (i : Nat) (v : α) : (t.set i v).fill = t.fill := by
  unfold set
  split <;> rfl

/-- Merges key by key with an idempotent, commutative `f`. The result has the fill value of the left
trie. -/
def merge (f : α → α → α) (a b : Trie α) : Trie α :=
  ⟨a.fill, a.root.merge f a.fill b.root, Node.merge_full f a.fill a.full b.full⟩

omit [DecidableEq α] in
@[simp] theorem merge_fill (f : α → α → α) (a b : Trie α) : (a.merge f b).fill = a.fill := rfl

/-- Whether fill values and all keys agree, whatever nodes happen to be present. -/
def same (a b : Trie α) : Bool := a.fill = b.fill && a.root.same a.fill b.root

/-- The keys with a value other than the fill value, in ascending order. -/
def entries (t : Trie α) : List (Nat × α) :=
  (t.root.entries t.fill 0 1).mergeSort (fun a b => a.1 ≤ b.1)

end Trie

end Restack
