import Restack.Proofs.Selection.Blocks
import Restack.Proofs.Selection.Flattening

set_option autoImplicit false

namespace Restack.Register

variable {catalog : Catalog} {options : Options} {method : Method} {code : Code}

section Anchors

variable {α : Type} [BEq α] [Hashable α] [LawfulBEq α] [LawfulHashable α] {key : Anchor → Option α}
  {lines : List Anchored}
variable {l : Anchored}

theorem anchorTags_foldl (lines : List Anchored) (first : Nat) (tags : Std.HashMap α Nat) (a : α) :
    (∀ tag, ((lines.zipIdx first).foldl (noteAnchor key) tags)[a]? = some tag →
      tags[a]? = some tag ∨ ∃ k l, tag = first + k ∧ lines[k]? = some l ∧ l.1.bind key = some a) ∧
    (tags[a]?.isSome ∨ (∃ l ∈ lines, l.1.bind key = some a) →
      ((lines.zipIdx first).foldl (noteAnchor key) tags)[a]?.isSome) := by
  induction lines generalizing first tags with
  | nil => simp
  | cons l lines ih =>
    rw [List.zipIdx_cons, List.foldl_cons]
    cases found : l.1.bind key with
    | none =>
      rw [show noteAnchor key tags (l, first) = tags by simp [noteAnchor, found]]
      obtain ⟨sound, complete⟩ := ih (first + 1) tags
      refine ⟨fun tag there => ?_, fun either => complete ?_⟩
      · rcases sound tag there with old | ⟨k, l, rfl, at_k, has⟩
        · exact .inl old
        · exact .inr ⟨k + 1, l, by omega, by simpa using at_k, has⟩
      · rcases either with old | ⟨l, member, has⟩
        · exact .inl old
        · rcases List.mem_cons.1 member with rfl | later
          · rw [found] at has
            cases has
          · exact .inr ⟨l, later, has⟩
    | some b =>
      rw [show noteAnchor key tags (l, first) = tags.insert b first by simp [noteAnchor, found]]
      obtain ⟨sound, complete⟩ := ih (first + 1) (tags.insert b first)
      rw [Std.HashMap.getElem?_insert] at sound complete
      refine ⟨fun tag there => ?_, fun either => complete ?_⟩
      · rcases sound tag there with old | ⟨k, l, rfl, at_k, has⟩
        · by_cases same : (b == a) = true
          · rw [if_pos same] at old
            cases old
            exact .inr ⟨0, l, by omega, rfl, by rw [found, eq_of_beq same]⟩
          · rw [if_neg same] at old
            exact .inl old
        · exact .inr ⟨k + 1, l, by omega, by simpa using at_k, has⟩
      · by_cases same : (b == a) = true
        · rw [if_pos same]
          exact .inl rfl
        · rw [if_neg same]
          rcases either with old | ⟨l, member, has⟩
          · exact .inl old
          · rcases List.mem_cons.1 member with rfl | later
            · rw [found] at has
              cases has
              exact absurd (BEq.refl a) same
            · exact .inr ⟨l, later, has⟩

theorem exists_of_anchorTags {a : α} {tag : Nat} (found : (anchorTags key lines)[a]? = some tag) :
    ∃ l, lines[tag]? = some l ∧ l.1.bind key = some a := by
  rcases (anchorTags_foldl lines 0 ∅ a).1 tag found with none | ⟨k, l, rfl, at_k, has⟩
  · simp at none
  · exact ⟨l, by simpa using at_k, has⟩

theorem anchorTags_isSome {a : α} (member : l ∈ lines) (anchored : l.1.bind key = some a) :
    ((anchorTags key lines)[a]?).isSome :=
  (anchorTags_foldl lines 0 ∅ a).2 (.inr ⟨l, member, anchored⟩)

def tagOf (lines : List Anchored) (a : Anchor) : Nat := (anchorTags some lines).getD a lines.length

def AnchoredRow.tagged (lines : List Anchored) (r : AnchoredRow) : Row :=
  ⟨tagOf lines r.start, tagOf lines r.stop, tagOf lines r.handler, r.classRef⟩

theorem anchor_of_tagOf {a : Anchor} (here : lines[tagOf lines a]? = some l) : l.1 = some a := by
  rw [tagOf, Std.HashMap.getD_eq_getD_getElem?] at here
  cases found : (anchorTags some lines)[a]? with
  | none =>
    rw [found, Option.getD_none, List.getElem?_eq_none (Nat.le_refl _)] at here
    cases here
  | some tag =>
    rw [found, Option.getD_some] at here
    obtain ⟨l', there, same⟩ := exists_of_anchorTags found
    cases here.symm.trans there
    simpa using same

theorem exists_tagOf {a : Anchor} (member : l ∈ lines) (anchored : l.1 = some a) :
    ∃ x, lines[tagOf lines a]? = some (some a, x) := by
  have known : ((anchorTags some lines)[a]?).isSome :=
    anchorTags_isSome member (by rw [anchored]; rfl)
  obtain ⟨tag, found⟩ := Option.isSome_iff_exists.1 known
  obtain ⟨⟨anchor, x⟩, there, same⟩ := exists_of_anchorTags found
  rw [tagOf, Std.HashMap.getD_eq_getD_getElem?, found, Option.getD_some]
  refine ⟨x, ?_⟩
  rw [there]
  simpa using same

end Anchors

theorem Site.ofCode_eq_ok {site : Site}
    (done : Site.ofCode catalog method code options = .ok site) :
    infer catalog method code = .ok site.typing ∧ site.catalog = catalog ∧ site.method = method ∧
    site.code = code ∧
      site.instrAt = code.instrs.foldl (fun m i => m.insert i.position i) ∅ := by
  obtain ⟨typing, inferred, same⟩ := Except.bind_eq_ok.1 done
  cases same
  exact ⟨inferred, rfl, rfl, rfl, rfl⟩

/-- A row for a handler of a position: it leads into the handler and names the class caught. -/
structure Site.RowFor (s : Site) (blocks : Blocks) (pool : Pool) (p : UInt32) (h : Handler)
    (r : AnchoredRow) :
    Prop where
  start : r.start = .start p
  stop : r.stop = .stop p
  handler : s.handlerAnchor blocks h = .ok r.handler
  all : h.className = throwable → r.classRef = 0
  named : h.className ≠ throwable → pool.HasClass r.classRef h.className

/-- The rows of a position: one for each handler, in order, if its block holds anything that can
throw. -/
def Site.RowsAt (s : Site) (blocks : Blocks) (pool : Pool) (p : UInt32) (handlers : List Handler)
    (rows : List AnchoredRow) : Prop :=
  (rows = [] ∧ ∀ block, blocks[p]? = some block → ∀ x ∈ block, x.isPlain = false) ∨
    ∃ block, blocks[p]? = some block ∧ (∃ x ∈ block, x.isPlain = true) ∧
      List.Forall₂ (s.RowFor blocks pool p) handlers rows

/-- Whether there are handlers for a position, and something in its block that can throw. -/
def Site.Guarded (s : Site) (blocks : Blocks) (p : UInt32) : Prop :=
  s.typing.handlers.contains p = true ∧ ∃ block, blocks[p]? = some block ∧
    ∃ x ∈ block, x.isPlain = true

/-- All rows, in the order of their positions, and which of them belong to a position. -/
structure Site.RowTable (s : Site) (blocks : Blocks) (pool : Pool) (rows : List AnchoredRow)
    (rowsOf : UInt32 → List AnchoredRow) : Prop where
  flat : rows = s.typing.handlers.keys.flatMap rowsOf
  listed : ∀ p handlers, s.typing.handlers[p]? = some handlers →
    s.RowsAt blocks pool p handlers (rowsOf p)
  missing : ∀ p, p ∉ s.typing.handlers.keys → rowsOf p = []

section Rows

variable {s : Site} {blocks : Blocks} {pool later : Pool} {p : UInt32} {rows : List AnchoredRow}
  {r : AnchoredRow}

theorem Site.RowFor.grow {h : Handler} (row : s.RowFor blocks pool p h r)
    (grows : pool.Grows later) :
    s.RowFor blocks later p h r :=
  ⟨row.start, row.stop, row.handler, row.all, fun other => (row.named other).grow grows⟩

theorem Site.RowsAt.grow {handlers : List Handler} (found : s.RowsAt blocks pool p handlers rows)
    (grows : pool.Grows later) :
    s.RowsAt blocks later p handlers rows := by
  rcases found with none | ⟨block, there, throws, each⟩
  · exact .inl none
  · exact .inr ⟨block, there, throws, each.imp fun h r row => row.grow grows⟩

theorem rowFor_eq_ok {h : Handler} (done : (s.rowFor blocks p h).run pool = (.ok r, later)) :
    pool.Extends later ∧ s.RowFor blocks later p h r := by
  obtain ⟨handler, first, led, rest⟩ := ExceptT.run_bind_eq_ok.1 done
  obtain ⟨leads, rfl⟩ := ExceptT.run_lift_eq_ok.1 led
  by_cases all : h.className = throwable
  · simp only [all, if_true] at rest
    obtain ⟨rfl, rfl⟩ := ExceptT.run_pure_eq_ok.1 rest
    exact ⟨.refl _, rfl, rfl, leads, fun _ => rfl, fun other => absurd all other⟩
  · simp only [all, if_false] at rest
    obtain ⟨classRef, second, named, finished⟩ := ExceptT.run_bind_eq_ok.1 rest
    obtain ⟨rfl, rfl⟩ := ExceptT.run_pure_eq_ok.1 finished
    obtain ⟨_, known⟩ := PoolM.classRef_eq_ok named
    exact ⟨PoolM.draws_classRef _ named, rfl, rfl, leads, fun all' => absurd all' all,
      fun _ => known⟩

theorem rowsAt_eq_ok {handlers : List Handler}
    (done : (s.rowsAt blocks p handlers).run pool = (.ok rows, later)) :
    pool.Extends later ∧ s.RowsAt blocks later p handlers rows := by
  unfold Site.rowsAt at done
  cases there : blocks[p]? with
  | none =>
    rw [there] at done
    obtain ⟨rfl, rfl⟩ := ExceptT.run_pure_eq_ok.1 done
    exact ⟨.refl _, .inl ⟨rfl, fun block found => by simp [there] at found⟩⟩
  | some block =>
    simp only [there] at done
    by_cases empty : (throwingPart block).2.1.isEmpty = true
    · rw [if_pos empty] at done
      obtain ⟨rfl, rfl⟩ := ExceptT.run_pure_eq_ok.1 done
      refine ⟨.refl _, .inl ⟨rfl, fun block' found => ?_⟩⟩
      cases there.symm.trans found
      exact (throwingPart_spec block).2.2.2.1 (List.isEmpty_iff.1 empty)
    · rw [if_neg empty] at done
      have throws : ∃ x ∈ block, x.isPlain = true := by
        by_contra none
        refine empty (List.isEmpty_iff.2 ((throwingPart_spec block).2.2.2.2 fun x member => ?_))
        by_contra plain
        exact none ⟨x, member, by simpa using plain⟩
      obtain ⟨grows, each⟩ := ExceptT.run_mapM_eq_ok Pool.Extends .refl (fun _ _ _ => .trans)
        (fun h a r b ran => (rowFor_eq_ok ran).1) done
      refine ⟨grows, .inr ⟨block, there, throws, ?_⟩⟩
      exact each.imp fun h r ⟨a, b, ran, reaches⟩ => (rowFor_eq_ok ran).2.grow reaches.grows

theorem exists_byKey {α β : Type} {related : UInt32 → α → List β → Prop}
    {entries : List (UInt32 × α)} {found : List (List β)} (distinct : (entries.map Prod.fst).Nodup)
    (each : List.Forall₂ (fun entry result => related entry.1 entry.2 result) entries found) :
    ∃ byKey : UInt32 → List β, found.flatten = (entries.map Prod.fst).flatMap byKey ∧
      (∀ entry ∈ entries, related entry.1 entry.2 (byKey entry.1)) ∧
      ∀ q, q ∉ entries.map Prod.fst → byKey q = [] := by
  induction each with
  | nil => exact ⟨fun _ => [], rfl, by simp, fun _ _ => rfl⟩
  | @cons entry result entries found first _ ih =>
    obtain ⟨apart, rest⟩ := List.nodup_cons.1 distinct
    obtain ⟨byKey, flat, known, others⟩ := ih rest
    have elsewhere : ∀ q ∈ entries.map Prod.fst, q ≠ entry.1 := by
      rintro q member rfl
      exact apart member
    refine ⟨fun q => if q = entry.1 then result else byKey q, ?_, ?_, ?_⟩
    · rw [List.flatten_cons, List.map_cons, List.flatMap_cons, if_pos rfl, flat]
      congr 1
      refine List.flatMap_congr fun q member => ?_
      rw [if_neg (elsewhere q member)]
    · intro entry' member
      dsimp only
      rcases List.mem_cons.1 member with rfl | later
      · rw [if_pos rfl]
        exact first
      · rw [if_neg (elsewhere _ (List.mem_map_of_mem later))]
        exact known entry' later
    · intro q missing
      rw [List.map_cons, List.mem_cons, not_or] at missing
      dsimp only
      rw [if_neg missing.1]
      exact others q missing.2

section Table

variable (done : (s.rows blocks).run pool = (.ok rows, later))

include done

theorem run_rows_eq_ok : pool.Extends later ∧ ∃ found, rows = found.flatten ∧
    List.Forall₂ (fun pair rs => s.RowsAt blocks later pair.1 pair.2 rs)
      s.typing.handlers.toList found := by
  obtain ⟨found, last, each, finished⟩ := ExceptT.run_bind_eq_ok.1 done
  obtain ⟨rfl, rfl⟩ := ExceptT.run_pure_eq_ok.1 finished
  obtain ⟨extended, related⟩ := ExceptT.run_mapM_eq_ok Pool.Extends .refl (fun _ _ _ => .trans)
    (fun pair a rs b ran => (rowsAt_eq_ok ran).1) each
  exact ⟨extended, found, rfl, related.imp fun pair rs ⟨a, b, ran, reaches⟩ =>
    (rowsAt_eq_ok ran).2.grow reaches.grows⟩

theorem rows_eq_ok : ∃ rowsOf, s.RowTable blocks later rows rowsOf := by
  obtain ⟨_, found, rfl, at_positions⟩ := run_rows_eq_ok done
  have keys : s.typing.handlers.toList.map Prod.fst = s.typing.handlers.keys :=
    Std.TreeMap.map_fst_toList_eq_keys
  obtain ⟨rowsOf, flat, known, others⟩ := exists_byKey (keys ▸ Std.TreeMap.nodup_keys) at_positions
  rw [keys] at flat others
  refine ⟨rowsOf, flat, fun p handlers listed => ?_, others⟩
  exact known (p, handlers) (Std.TreeMap.mem_toList_iff_getElem?_eq_some.2 listed)

end Table

namespace Site.RowTable

variable {rows : List AnchoredRow} {rowsOf : UInt32 → List AnchoredRow}

section

variable (table : s.RowTable blocks pool rows rowsOf)
include table

theorem source (inside : r ∈ rowsOf p) :
    r ∈ rows ∧ s.Guarded blocks p ∧ ∃ handlers, s.typing.handlers[p]? = some handlers ∧
      ∃ h ∈ handlers, s.RowFor blocks pool p h r := by
  have listed : p ∈ s.typing.handlers.keys := by
    by_contra absent
    rw [table.missing p absent] at inside
    cases inside
  have contained := Std.TreeMap.mem_keys.1 listed
  obtain ⟨handlers, here⟩ :=
    Option.isSome_iff_exists.1 (Std.TreeMap.isSome_getElem?_iff_mem.2 contained)
  have member : r ∈ rows := by
    rw [table.flat]
    exact List.mem_flatMap.2 ⟨p, listed, inside⟩
  rcases table.listed p handlers here with ⟨none, _⟩ | ⟨block, there, throws, each⟩
  · rw [none] at inside
    cases inside
  · exact ⟨member, ⟨contained, block, there, throws⟩, handlers, here, forall₂_mem_right each inside⟩

theorem exists_rowsOf (member : r ∈ rows) : ∃ p, r ∈ rowsOf p := by
  rw [table.flat] at member
  obtain ⟨p, _, inside⟩ := List.mem_flatMap.1 member
  exact ⟨p, inside⟩

theorem each {block : List Insn} {x : Insn}
    (found : blocks[p]? = some block) (member : x ∈ block) (plain : x.isPlain = true) :
    List.Forall₂ (s.RowFor blocks pool p) (s.typing.handlers.getD p []) (rowsOf p) := by
  rw [Std.TreeMap.getD_eq_getD_getElem?]
  cases here : s.typing.handlers[p]? with
  | none =>
    have absent : p ∉ s.typing.handlers.keys := by
      rw [Std.TreeMap.mem_keys, ← Std.TreeMap.isSome_getElem?_iff_mem, here]
      exact Bool.false_ne_true
    rw [table.missing p absent]
    exact .nil
  | some handlers =>
    rcases table.listed p handlers here with ⟨_, none⟩ | ⟨_, _, _, each⟩
    · rw [none block found x member] at plain
      cases plain
    · exact each

end

end Site.RowTable

end Rows

theorem foldl_addEntry (tags : List Nat) (b : Body) :
    ∃ entries, tags.foldl Body.addEntry b = { b with entries } := by
  induction tags generalizing b with
  | nil => exact ⟨b.entries, rfl⟩
  | cons tag tags ih =>
    obtain ⟨entries, same⟩ := ih (b.addEntry tag)
    exact ⟨entries, same⟩

theorem contains_foldl_addEntry (tags : List Nat) (b : Body) (tag : Nat) :
    (tags.foldl Body.addEntry b).entries.contains tag = true ↔ tag ∈ tags ∨
    b.entries.contains tag = true := by
  induction tags generalizing b with
  | nil => simp
  | cons first tags ih =>
    rw [List.foldl_cons, ih, Body.addEntry, Std.HashMap.contains_insert, Bool.or_eq_true,
      beq_iff_eq, List.mem_cons, or_left_comm, or_assoc, eq_comm]

theorem heads_of_jumpEntries {b : Body} {entries : List Nat} (done : jumpEntries b = .ok entries) :
    (∀ l ∈ b.lines, ∀ t ∈ l.insn.targets, ∃ tag ∈ entries, b.heads[t]? = some tag) ∧
      ∀ tag ∈ entries, ∃ l ∈ b.lines, ∃ t ∈ l.insn.targets, b.heads[t]? = some tag := by
  obtain ⟨found, looked, last⟩ := Except.bind_eq_ok.1 done
  cases last
  have each : List.Forall₂
      (fun l tags => List.Forall₂ (fun t tag => b.heads[t]? = some tag) l.insn.targets tags)
      b.lines found := by
    refine (Except.mapM_eq_ok looked).imp fun l tags inner => (Except.mapM_eq_ok inner).imp
      fun t tag head => ?_
    split at head
    next known =>
      cases head
      exact known
    next => cases head
  constructor
  · intro l member t target
    obtain ⟨n, at_line⟩ := List.getElem?_of_mem member
    obtain ⟨tags, inside, heads⟩ := forall₂_getElem? each at_line
    obtain ⟨m, at_target⟩ := List.getElem?_of_mem target
    obtain ⟨tag, there, head⟩ := forall₂_getElem? heads at_target
    exact ⟨tag, List.mem_flatten.2 ⟨tags, List.mem_of_getElem? inside, List.mem_of_getElem? there⟩,
      head⟩
  · intro tag member
    obtain ⟨tags, inside, there⟩ := List.mem_flatten.1 member
    obtain ⟨l, at_line, heads⟩ := forall₂_mem_right each inside
    obtain ⟨t, target, head⟩ := forall₂_mem_right heads there
    exact ⟨l, at_line, t, target, head⟩

/-- How a body is made up from the blocks of a method, the rows for them and an arrangement of its
pieces. -/
structure Site.Layout (s : Site) (blocks : Blocks) (rows : List AnchoredRow) (pieces : List Piece)
    (b : Body) : Prop where
  selected : s.Selected s.code.instrs blocks
  arranged : s.Arranged blocks.toList (droppingPositions rows) pieces
  body : ∃ name entries,
    b = { resolveAnchors name (pieces.flatMap (Piece.lines s)) rows s.args with entries }
  jumps : ∀ l ∈ b.lines, ∀ t ∈ l.insn.targets, ∃ tag, b.heads[t]? = some tag
  entered : ∀ tag, b.entries.contains tag = true ↔ (∃ r ∈ b.rows, r.handler = tag) ∨
    ∃ l ∈ b.lines, ∃ t ∈ l.insn.targets, b.heads[t]? = some tag

theorem compile_eq_ok {pool later : Pool} {b : Body}
    (done : (compile catalog method code options).run pool = (.ok b, later)) :
    ∃ site blocks middle rows pieces,
      Site.ofCode catalog method code options = .ok site ∧
      site.blocks.run pool = (.ok blocks, middle) ∧
      (site.rows blocks).run middle = (.ok rows, later) ∧
      site.flatten blocks (droppingPositions rows) = pieces.flatMap (Piece.lines site) ∧
      site.Layout blocks rows pieces b := by
  obtain ⟨site, first, inferred, rest⟩ := ExceptT.run_bind_eq_ok.1 done
  obtain ⟨prepared, rfl⟩ := ExceptT.run_lift_eq_ok.1 inferred
  obtain ⟨blocks, middle, selected, rest⟩ := ExceptT.run_bind_eq_ok.1 rest
  obtain ⟨rows, last, guarded, rest⟩ := ExceptT.run_bind_eq_ok.1 rest
  obtain ⟨found, last', looked, finished⟩ := ExceptT.run_bind_eq_ok.1 rest
  obtain ⟨resolved, rfl⟩ := ExceptT.run_lift_eq_ok.1 looked
  obtain ⟨rfl, rfl⟩ := ExceptT.run_pure_eq_ok.1 finished
  obtain ⟨pieces, flat, arranged⟩ := site.flatten_arranged blocks (droppingPositions rows)
  rw [flat] at resolved ⊢
  obtain ⟨entries, same⟩ :=
    foldl_addEntry ((resolveAnchors method.id.name (pieces.flatMap (Piece.lines site)) rows
    site.args).rows.map Row.handler ++ found)
    (resolveAnchors method.id.name (pieces.flatMap (Piece.lines site)) rows site.args)
  obtain ⟨heads, sources⟩ := heads_of_jumpEntries resolved
  refine ⟨site, blocks, middle, rows, pieces, prepared, selected, guarded, flat,
    (Site.blocks_eq_ok selected).2.2, arranged, ⟨method.id.name, entries, same⟩, ?_, fun tag => ?_⟩
  · rw [same]
    intro l member t target
    obtain ⟨tag, _, head⟩ := heads l member t target
    exact ⟨tag, head⟩
  · rw [contains_foldl_addEntry, same]
    have none_before : (resolveAnchors method.id.name (pieces.flatMap (Piece.lines site)) rows
        site.args).entries.contains tag = false := Std.HashMap.contains_empty
    rw [none_before, List.mem_append, List.mem_map]
    simp only [Bool.false_eq_true, or_false]
    refine or_congr_right ⟨sources tag, ?_⟩
    rintro ⟨l, member, t, target, head⟩
    obtain ⟨tag', inside, head'⟩ := heads l member t target
    cases head.symm.trans head'
    exact inside

theorem compile_extends {pool later : Pool} {b : Body}
    (done : (compile catalog method code options).run pool = (.ok b, later)) :
    pool.Extends later := by
  obtain ⟨_, _, _, _, _, _, selected, guarded, _⟩ := compile_eq_ok done
  exact (Site.blocks_eq_ok selected).1.trans (run_rows_eq_ok guarded).1

namespace Site.Layout

variable {s : Site} {blocks : Blocks} {rows : List AnchoredRow} {pieces : List Piece} {b : Body}

section Laid

variable (laid : s.Layout blocks rows pieces b) {p : UInt32} {a : List Insn}
include laid

theorem getElem?_lines (k : Nat) :
    b.lines[k]? = (pieces.flatMap (Piece.lines s))[k]?.map fun l => ⟨k, l.2⟩ := by
  obtain ⟨name, entries, rfl⟩ := laid.body
  simp only [resolveAnchors, Body.ofInsns, List.getElem?_map, List.getElem?_zipIdx, Option.map_map]
  congr 1
  funext l
  simp

theorem anchored_of_line {k : Nat} {l : Line} (here : b.lines[k]? = some l) :
    ∃ m, (pieces.flatMap (Piece.lines s))[k]? = some m ∧ l = ⟨k, m.2⟩ := by
  rw [laid.getElem?_lines] at here
  obtain ⟨m, there, rfl⟩ := Option.map_eq_some_iff.1 here
  exact ⟨m, there, rfl⟩

theorem args : b.args = s.args := by
  obtain ⟨name, entries, rfl⟩ := laid.body
  rfl

theorem head_line {tag : Nat} (head : b.heads[p]? = some tag) :
    ∃ x, (pieces.flatMap (Piece.lines s))[tag]? = some (some (.head p), x) := by
  obtain ⟨name, entries, rfl⟩ := laid.body
  obtain ⟨⟨anchor, x⟩, there, is_head⟩ := exists_of_anchorTags head
  refine ⟨x, ?_⟩
  rw [there]
  cases anchor with
  | none => cases is_head
  | some a => cases a <;> simp_all [Anchor.headOf?]

theorem rows_eq : b.rows = rows.map (AnchoredRow.tagged (pieces.flatMap (Piece.lines s))) := by
  obtain ⟨name, entries, rfl⟩ := laid.body
  rfl

theorem block_of_piece (member : Piece.block p a ∈ pieces) : blocks[p]? = some a := by
  have listed : (p, a) ∈ blocks.toList := by
    rw [← laid.arranged.order]
    exact List.mem_filterMap.2 ⟨_, member, rfl⟩
  exact Std.TreeMap.mem_toList_iff_getElem?_eq_some.1 listed

theorem piece_of_block (found : blocks[p]? = some a) : Piece.block p a ∈ pieces := by
  have listed := Std.TreeMap.mem_toList_iff_getElem?_eq_some.2 found
  rw [← laid.arranged.order] at listed
  obtain ⟨x, member, is_block⟩ := List.mem_filterMap.1 listed
  cases x with
  | block q b =>
    cases is_block
    exact member
  | way q jumps => cases is_block

theorem ascending {before after : List Piece} (split : pieces = before ++ .block p a :: after) :
    (∀ q b, .block q b ∈ before → q < p) ∧ ∀ q b, .block q b ∈ after → p < q := by
  have sorted : blocks.toList.Pairwise fun x y => compare x.1 y.1 = .lt :=
    Std.TreeMap.ordered_keys_toList
  rw [← laid.arranged.order, split, List.filterMap_append, Piece.filterMap_block?_cons,
    List.pairwise_append] at sorted
  obtain ⟨_, later, across⟩ := sorted
  have listed : ∀ {q b} {some_pieces : List Piece}, .block q b ∈ some_pieces →
      (q, b) ∈ some_pieces.filterMap Piece.block? :=
        fun member => List.mem_filterMap.2 ⟨_, member, rfl⟩
  constructor
  · intro q b member
    have before_p := across (q, b) (listed member) (p, a) (by simp [Piece.block?])
    exact Std.compare_eq_lt.1 before_p
  · intro q b member
    have after_p := (List.pairwise_cons.1 later).1 (q, b) (listed member)
    exact Std.compare_eq_lt.1 after_p

end Laid

end Site.Layout

end Restack.Register
