import Mathlib.Data.List.Chain
import Mathlib.Data.List.Perm.Basic
import Mathlib.Data.List.TakeDrop
import Mathlib.Data.List.TakeWhile
import Restack.Selection.Compile

set_option autoImplicit false

namespace Restack.Register

variable {l : Anchored}

inductive Piece where
  | block (position : UInt32) (insns : List Insn)
  | way (position : UInt32) (jumps : Bool)

namespace Piece

def lines (s : Site) : Piece → List Anchored
  | .block p insns => s.anchored p insns
  | .way p false => Site.dropLines p
  | .way p true => Site.dropLines p ++ [(none, .goto p)]

def block? : Piece → Option (UInt32 × List Insn)
  | .block p insns => some (p, insns)
  | .way _ _ => none

def way? : Piece → Option UInt32
  | .block _ _ => none
  | .way p _ => some p

inductive Follows (s : Site) : Piece → Piece → Prop where
  | blocks {p q : UInt32} {a b : List Insn} : Follows s (.block p a) (.block q b)
  | way {p q : UInt32} {a : List Insn} :
      (∀ l ∈ (s.anchored p a).getLast?, l.2.fallsThrough = false) →
      Follows s (.block p a) (.way q false)
  | handler {p : UInt32} {a : List Insn} : Follows s (.way p false) (.block p a)
  | last {p q : UInt32} {a : List Insn} : Follows s (.block p a) (.way q true)
  | ways {p q : UInt32} : Follows s (.way p true) (.way q true)

/-- Where nothing falls from one block into the next, the way into the second one is not left for
later. -/
def Settled (s : Site) (late : List UInt32) : Piece → Piece → Prop
  | .block p a, .block q _ => ∀ l ∈ (s.anchored p a).getLast?, l.2.fallsThrough = false → q ∉ late
  | _, _ => True

theorem Settled.mono {s : Site} {late fewer : List UInt32} (less : ∀ q ∈ fewer, q ∈ late)
    {x y : Piece} (settled : x.Settled s late y) : x.Settled s fewer y := by
  cases x with
  | way _ _ => trivial
  | block p a =>
    cases y with
    | way _ _ => trivial
    | block q b => exact fun l last stops inside => settled l last stops (less q inside)

end Piece

@[simp] theorem Piece.filterMap_block?_cons (x : Piece) (pieces : List Piece) :
    (x :: pieces).filterMap block? = x.block?.toList ++ pieces.filterMap block? := by
  cases x <;> rfl

@[simp] theorem Piece.filterMap_way?_cons (x : Piece) (pieces : List Piece) :
    (x :: pieces).filterMap way? = x.way?.toList ++ pieces.filterMap way? := by
  cases x <;> rfl

/-- An arrangement of blocks and ways in. -/
structure Site.Arranged (s : Site) (blocks : List (UInt32 × List Insn)) (drops : List UInt32)
    (pieces : List Piece) : Prop where
  order : pieces.filterMap Piece.block? = blocks
  ways : (pieces.filterMap Piece.way?).Perm drops
  chain : pieces.IsChain (Piece.Follows s)
  first : blocks ≠ [] → ∀ x ∈ pieces.head?, ∃ p a, x = .block p a
  last : ∀ p, .way p false ∉ pieces.getLast?
  settled : ∃ late, pieces.IsChain (Piece.Settled s late) ∧ ∀ q, .way q true ∈ pieces → q ∈ late

namespace Site

variable {s : Site}

/-- What holds while blocks are placed: the first and the last piece so far are blocks. -/
structure Placing (s : Site) (blocks : List (UInt32 × List Insn)) (drops : List UInt32)
    (lines : List Anchored) (remaining : List UInt32) (pieces : List Piece) : Prop where
  flat : lines = pieces.flatMap (Piece.lines s)
  order : pieces.filterMap Piece.block? = blocks
  ways : (pieces.filterMap Piece.way? ++ remaining).Perm drops
  chain : pieces.IsChain (Piece.Follows s)
  first : ∀ x ∈ pieces.head?, ∃ p a, x = .block p a
  last : ∀ x ∈ pieces.getLast?, ∃ p a, x = .block p a
  settled : pieces.IsChain (Piece.Settled s remaining)
  early : ∀ q, .way q true ∉ pieces

section Placing

variable {blocks : List (UInt32 × List Insn)} {drops remaining : List UInt32}
  {lines : Array Anchored}
  {pieces : List Piece}

theorem getLast?_flatMap_lines {p : UInt32} {a : List Insn}
    (ends : pieces.getLast? = some (.block p a)) (last : l ∈ (s.anchored p a).getLast?) :
    (pieces.flatMap (Piece.lines s)).getLast? = some l := by
  obtain ⟨before, rfl⟩ := List.getLast?_eq_some_iff.1 ends
  rw [List.flatMap_append, List.flatMap_singleton, List.getLast?_append]
  rw [Option.mem_def] at last
  simp [Piece.lines, last]

section

variable (placing : s.Placing blocks drops lines.toList remaining pieces) (p : UInt32)
  (block : List Insn)
include placing

theorem Placing.place_block
    (late : ¬ (p ∈ remaining ∧ (lines.back?.map fun l => l.2.fallsThrough).getD true = false)) :
    s.Placing (blocks ++ [(p, block)]) drops (lines ++ s.anchored p block).toList remaining
      (pieces ++ [.block p block]) := by
  refine ⟨?_, ?_, ?_, ?_, ?_, ?_, ?_, by simpa using placing.early⟩
  · simp [placing.flat, Piece.lines]
  · simp [placing.order, Piece.block?]
  · simpa [Piece.way?] using placing.ways
  · refine List.isChain_append.2 ⟨placing.chain, List.isChain_singleton _, fun x last y next => ?_⟩
    obtain ⟨q, a, rfl⟩ := placing.last x last
    cases next
    exact .blocks
  · intro x head
    rw [List.head?_append] at head
    cases before : pieces.head? with
    | none =>
      rw [before] at head
      cases head
      exact ⟨p, block, rfl⟩
    | some y =>
      rw [before] at head
      cases head
      exact placing.first _ before
  · intro x last
    rw [List.getLast?_concat] at last
    cases last
    exact ⟨p, block, rfl⟩
  · refine List.isChain_append.2
      ⟨placing.settled, List.isChain_singleton _, fun x last y next => ?_⟩
    obtain ⟨q, a, rfl⟩ := placing.last x last
    cases next
    intro l at_end stops waiting
    have back := getLast?_flatMap_lines last at_end
    rw [← placing.flat] at back
    refine late ⟨waiting, ?_⟩
    rw [← Array.getLast?_toList, back]
    exact stops

theorem Placing.place_way
    (waiting : p ∈ remaining)
    (still : (lines.back?.map fun l => l.2.fallsThrough).getD true = false) :
    s.Placing (blocks ++ [(p, block)]) drops (lines ++ dropLines p ++ s.anchored p block).toList
      (remaining.erase p)
      (pieces ++ [.way p false, .block p block]) := by
  have nonempty : pieces ≠ [] := by
    rintro rfl
    have empty : lines = #[] := by simpa using placing.flat
    simp [empty] at still
  refine ⟨?_, ?_, ?_, ?_, ?_, ?_, ?_, by simpa using placing.early⟩
  · simp [placing.flat, Piece.lines]
  · simp [placing.order, Piece.block?]
  · have removed : (p :: remaining.erase p).Perm remaining := (List.perm_cons_erase waiting).symm
    have joined := (removed.append_left (pieces.filterMap Piece.way?)).trans placing.ways
    simpa [Piece.way?] using joined
  · refine List.isChain_append.2 ⟨placing.chain, ?_, fun x last y next => ?_⟩
    · exact List.isChain_pair.2 .handler
    · obtain ⟨q, a, rfl⟩ := placing.last x last
      cases next
      refine .way fun l at_end => ?_
      have back := getLast?_flatMap_lines last at_end
      rw [← placing.flat, ← Array.getLast?_toList] at *
      simpa [back] using still
  · intro x head
    rw [List.head?_append_of_ne_nil _ nonempty] at head
    exact placing.first x head
  · intro x last
    simp only [List.getLast?_append, List.getLast?_cons_cons, List.getLast?_singleton,
      Option.some_or] at last
    cases last
    exact ⟨p, block, rfl⟩
  · have fewer : pieces.IsChain (Piece.Settled s (remaining.erase p)) :=
      placing.settled.imp fun _ _ settled => settled.mono fun q inside =>
        List.mem_of_mem_erase inside
    refine List.isChain_append.2 ⟨fewer, List.isChain_pair.2 trivial, fun x last y next => ?_⟩
    obtain ⟨q, a, rfl⟩ := placing.last x last
    cases next
    trivial

end

end Placing

theorem placing_foldl (blocks : List (UInt32 × List Insn)) {before : List (UInt32 × List Insn)}
    {drops remaining : List UInt32} {lines : Array Anchored} {pieces : List Piece}
    (placing : s.Placing before drops lines.toList remaining pieces) :
    ∃ all, s.Placing (before ++ blocks) drops
      (blocks.foldl (fun placed pair => s.place placed pair.1 pair.2) (lines, remaining)).1.toList
      (blocks.foldl (fun placed pair => s.place placed pair.1 pair.2) (lines, remaining)).2
        all := by
  induction blocks generalizing before lines remaining pieces with
  | nil => exact ⟨pieces, by simpa using placing⟩
  | cons pair blocks ih =>
    obtain ⟨p, block⟩ := pair
    rw [List.foldl_cons, List.append_cons]
    by_cases early : p ∈ remaining ∧ (lines.back?.map fun l => l.2.fallsThrough).getD true = false
    · have placed : s.place (lines, remaining) p block =
          (lines ++ dropLines p ++ s.anchored p block, remaining.erase p) := by
        simp [Site.place, early]
      rw [placed]
      exact ih (placing.place_way p block early.1 early.2)
    · have placed : s.place (lines, remaining) p block =
          (lines ++ s.anchored p block, remaining) := by
        simp only [Site.place]
        rw [if_neg]
        simpa using early
      rw [placed]
      exact ih (placing.place_block p block early)

theorem flatten_arranged (s : Site) (blocks : Blocks) (drops : List UInt32) :
    ∃ pieces, s.flatten blocks drops = pieces.flatMap (Piece.lines s) ∧
    s.Arranged blocks.toList drops pieces := by
  have start : s.Placing [] drops (#[] : Array Anchored).toList drops [] := by
    refine ⟨rfl, rfl, ?_, .nil, by simp, by simp, .nil, by simp⟩
    simp
  obtain ⟨pieces, placing⟩ := placing_foldl blocks.toList start
  unfold flatten
  rw [Std.TreeMap.foldl_eq_foldl_toList]
  generalize blocks.toList.foldl (fun placed pair => s.place placed pair.1 pair.2) (#[], drops) =
    placed at placing
  obtain ⟨lines, remaining⟩ := placed
  rw [List.nil_append] at placing
  simp only at placing
  refine ⟨pieces ++ remaining.map (.way · true), ?_, ?_, ?_, ?_, fun some_block x head => ?_,
    fun p last => ?_, remaining, ?_, fun q inside => ?_⟩
  · simp [placing.flat, Piece.lines, List.flatMap_map]
  · simp [List.filterMap_append, placing.order, List.filterMap_map, Piece.block?, Function.comp_def]
  · have all : (remaining.map (Piece.way · true)).filterMap Piece.way? = remaining := by
      simp [List.filterMap_map, Piece.way?, Function.comp_def]
    rw [List.filterMap_append, all]
    exact placing.ways
  · refine List.isChain_append.2 ⟨placing.chain, ?_, fun x last y next => ?_⟩
    · exact (List.isChain_map _).2 (List.pairwise_of_forall fun _ _ => .ways).isChain
    · obtain ⟨q, a, rfl⟩ := placing.last x last
      rw [List.head?_map] at next
      obtain ⟨r, _, rfl⟩ := Option.map_eq_some_iff.1 next
      exact .last
  · have nonempty : pieces ≠ [] := by
      rintro rfl
      exact some_block placing.order.symm
    rw [List.head?_append_of_ne_nil _ nonempty] at head
    exact placing.first x head
  · rw [List.getLast?_append, List.getLast?_map] at last
    cases late : remaining.getLast? with
    | some q => simp [late] at last
    | none =>
      rw [late] at last
      obtain ⟨q, a, same⟩ := placing.last _ (by simpa using last)
      cases same
  · refine List.isChain_append.2 ⟨placing.settled, ?_, fun x last y next => ?_⟩
    · exact (List.isChain_map _).2 (List.pairwise_of_forall fun _ _ => trivial).isChain
    · obtain ⟨q, a, rfl⟩ := placing.last x last
      rw [List.head?_map] at next
      obtain ⟨r, _, rfl⟩ := Option.map_eq_some_iff.1 next
      trivial
  · rcases List.mem_append.1 inside with placed | late
    · exact absurd placed (placing.early q)
    · simpa using late

end Site

theorem throwingPart_spec (block : List Insn) :
    block = (throwingPart block).1 ++ ((throwingPart block).2.1 ++ (throwingPart block).2.2) ∧
      (throwingPart block).1 = block.takeWhile (!·.isPlain) ∧
      (∀ x ∈ (throwingPart block).2.2, x.isPlain = false) ∧
      ((throwingPart block).2.1 = [] ↔ ∀ x ∈ block, x.isPlain = false) := by
  have none_while : ∀ (xs : List Insn), ∀ x ∈ xs.takeWhile (!·.isPlain), x.isPlain = false := by
    intro xs x member
    simpa using List.mem_takeWhile_imp member
  have parts : throwingPart block = (block.takeWhile (!·.isPlain),
      ((block.dropWhile (!·.isPlain)).reverse.dropWhile (!·.isPlain)).reverse,
      ((block.dropWhile (!·.isPlain)).reverse.takeWhile (!·.isPlain)).reverse) := by
    simp only [throwingPart, List.span_eq_takeWhile_dropWhile]
  have rejoined : ((block.dropWhile (!·.isPlain)).reverse.dropWhile (!·.isPlain)).reverse ++
      ((block.dropWhile (!·.isPlain)).reverse.takeWhile (!·.isPlain)).reverse =
        block.dropWhile (!·.isPlain) := by
    rw [← List.reverse_append, List.takeWhile_append_dropWhile, List.reverse_reverse]
  rw [parts]
  simp only
  refine ⟨?_, trivial, fun x member => ?_, ?_⟩
  · rw [rejoined, List.takeWhile_append_dropWhile]
  · exact none_while _ x (List.mem_reverse.1 member)
  · rw [List.reverse_eq_nil_iff, List.dropWhile_eq_nil_iff]
    constructor
    · intro none_left x member
      have split : x ∈ block.takeWhile (!·.isPlain) ++ block.dropWhile (!·.isPlain) := by
        rwa [List.takeWhile_append_dropWhile]
      rcases List.mem_append.1 split with front | back
      · exact none_while block x front
      · simpa using none_left x (List.mem_reverse.2 back)
    · intro none x member
      have inside := (List.dropWhile_sublist _).subset (List.mem_reverse.1 member)
      simpa using none x inside

namespace Site

variable (s : Site) (p : UInt32) {q : Option UInt32} {rest : List Insn}

def bare (insns : List Insn) : List Anchored := insns.map fun x => (none, x)

theorem anchored_free (head : Insn) (rest : List Insn)
    (free : s.typing.handlers.contains p = false ∨ ∀ x ∈ head :: rest, x.isPlain = false) :
    s.anchored p (head :: rest) = (some (.head p), head) :: bare rest := by
  have unguarded : (s.typing.handlers.contains p && !(throwingPart (head :: rest)).2.1.isEmpty) =
      false := by
    rcases free with no_handler | no_plain
    · rw [no_handler, Bool.false_and]
    · have empty := (throwingPart_spec (head :: rest)).2.2.2.2 no_plain
      simp [empty]
  unfold anchored
  simp only [unguarded]
  simp [bare]

theorem anchored_guarded (q : Option UInt32) (rest : List Insn)
    (handled : s.typing.handlers.contains p = true)
    (throws : ∃ x ∈ Insn.label q :: rest, x.isPlain = true) :
    ∃ before middle after, rest = before ++ (middle ++ after) ∧
      (∀ x ∈ before, x.isPlain = false) ∧ (∀ x ∈ after, x.isPlain = false) ∧
      s.anchored p (.label q :: rest) = (some (.head p), .label q) :: (bare before ++
        (some (.start p), .label none) ::
          (bare middle ++ (some (.stop p), .label none) :: bare after)) := by
  obtain ⟨joined, front, back, empty⟩ := throwingPart_spec (.label q :: rest)
  have nonempty : (throwingPart (.label q :: rest)).2.1 ≠ [] := by
    intro none
    obtain ⟨x, member, plain⟩ := throws
    rw [empty.1 none x member] at plain
    cases plain
  obtain ⟨⟨before, middle, after⟩, parts⟩ : ∃ parts, throwingPart (.label q :: rest) = parts :=
    ⟨_, rfl⟩
  have started : before = .label q :: rest.takeWhile (!·.isPlain) := by
    rw [parts, List.takeWhile_cons_of_pos rfl] at front
    exact front
  subst started
  rw [parts] at joined back nonempty
  simp only [List.cons_append, List.cons.injEq, true_and] at joined
  refine ⟨rest.takeWhile (!·.isPlain), middle, after, joined, fun x member => ?_, back, ?_⟩
  · simpa using List.mem_takeWhile_imp member
  · have present : middle ≠ [] := nonempty
    unfold anchored
    simp [parts, handled, present, bare]

theorem anchored_cases (q : Option UInt32) (rest : List Insn) :
    s.anchored p (.label q :: rest) = (some (.head p), .label q) :: bare rest ∨
      ∃ before middle after, rest = before ++ (middle ++ after) ∧
        s.anchored p (.label q :: rest) = (some (.head p), .label q) :: (bare before ++
          (some (.start p), .label none) ::
            (bare middle ++ (some (.stop p), .label none) :: bare after)) := by
  by_cases handled : s.typing.handlers.contains p = true
  · by_cases throws : ∃ x ∈ Insn.label q :: rest, x.isPlain = true
    · obtain ⟨before, middle, after, joined, _, _, same⟩ :=
        s.anchored_guarded p q rest handled throws
      exact .inr ⟨before, middle, after, joined, same⟩
    · refine .inl (s.anchored_free p _ rest (.inr fun x member => ?_))
      by_contra plain
      exact throws ⟨x, member, by simpa using plain⟩
  · exact .inl (s.anchored_free p _ rest (.inl (by simpa only [Bool.not_eq_true] using handled)))

theorem mem_bare {insns : List Insn} (member : l ∈ bare insns) : l.1 = none ∧ l.2 ∈ insns := by
  obtain ⟨x, inside, rfl⟩ := List.mem_map.1 member
  exact ⟨rfl, inside⟩

theorem exists_anchored_tail (q : Option UInt32) (rest : List Insn) :
    ∃ tail, s.anchored p (.label q :: rest) = (some (.head p), .label q) :: tail ∧
      ∀ l ∈ tail, (l.1 = none ∧ l.2 ∈ rest) ∨ l = (some (.start p), .label none) ∨
      l = (some (.stop p), .label none) := by
  rcases s.anchored_cases p q rest with same | ⟨before, middle, after, rfl, same⟩
  · exact ⟨_, same, fun l member => .inl (mem_bare member)⟩
  · refine ⟨_, same, fun l member => ?_⟩
    simp only [List.mem_cons, List.mem_append] at member ⊢
    rcases member with inside | start | inside | stop | inside
    · exact .inl ⟨(mem_bare inside).1, .inl (mem_bare inside).2⟩
    · exact .inr (.inl start)
    · exact .inl ⟨(mem_bare inside).1, .inr (.inl (mem_bare inside).2)⟩
    · exact .inr (.inr stop)
    · exact .inl ⟨(mem_bare inside).1, .inr (.inr (mem_bare inside).2)⟩

theorem mem_anchored (member : l ∈ s.anchored p (.label q :: rest)) :
    l.2 ∈ Insn.label q :: rest ∨ l.2 = .label none := by
  obtain ⟨tail, same, behind⟩ := s.exists_anchored_tail p q rest
  rw [same] at member
  rcases List.mem_cons.1 member with rfl | later
  · exact .inl List.mem_cons_self
  · rcases behind l later with ⟨_, inside⟩ | rfl | rfl
    · exact .inl (List.mem_cons_of_mem _ inside)
    · exact .inr rfl
    · exact .inr rfl

theorem exists_anchored {x : Insn} (member : x ∈ Insn.label q :: rest) :
    ∃ l ∈ s.anchored p (.label q :: rest), l.2 = x := by
  have found : ∀ {insns : List Insn}, x ∈ insns → (none, x) ∈ bare insns := fun inside =>
    List.mem_map.2 ⟨x, inside, rfl⟩
  rcases s.anchored_cases p q rest with same | ⟨before, middle, after, rfl, same⟩
  · rw [same]
    rcases List.mem_cons.1 member with rfl | later
    · exact ⟨_, List.mem_cons_self, rfl⟩
    · exact ⟨_, List.mem_cons_of_mem _ (found later), rfl⟩
  · rw [same]
    simp only [List.mem_cons, List.mem_append] at member
    rcases member with rfl | inside | inside | inside
    · exact ⟨_, List.mem_cons_self, rfl⟩
    · exact ⟨(none, x), by simp [found inside], rfl⟩
    · exact ⟨(none, x), by simp [found inside], rfl⟩
    · exact ⟨(none, x), by simp [found inside], rfl⟩

theorem anchor_of_anchored {j : Nat} {a : Anchor} {x : Insn}
    (found : (s.anchored p (.label q :: rest))[j]? = some (some a, x)) :
    a = .head p ∧ j = 0 ∨ (a = .start p ∨ a = .stop p) ∧ 0 < j := by
  obtain ⟨tail, same, behind⟩ := s.exists_anchored_tail p q rest
  rw [same] at found
  cases j with
  | zero =>
    cases found
    exact .inl ⟨rfl, rfl⟩
  | succ j =>
    refine .inr ⟨?_, by omega⟩
    rcases behind _ (List.mem_of_getElem? found) with ⟨unmarked, _⟩ | start | stop
    · cases unmarked
    · cases start
      exact .inl rfl
    · cases stop
      exact .inr rfl

end Site

end Restack.Register
