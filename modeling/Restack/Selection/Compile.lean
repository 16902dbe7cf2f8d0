import Restack.Options
import Restack.Selection.Select
import Restack.Stack.Body

set_option autoImplicit false

namespace Restack

namespace Register

/-- What jumps or rows refer to while lines have no tags yet: the head of the block of a position,
the start and end of its guarded part, and the way into it that drops the exception. -/
inductive Anchor where
  | head (position : UInt32)
  | start (position : UInt32)
  | stop (position : UInt32)
  | dropping (position : UInt32)
deriving DecidableEq, Hashable, Repr

def Anchor.headOf? : Anchor → Option UInt32
  | .head p => some p
  | _ => none

abbrev Anchored := Option Anchor × Insn

structure AnchoredRow where
  start : Anchor
  stop : Anchor
  handler : Anchor
  classRef : UInt16

/-- Blocks by position; each starts with its label. -/
abbrev Blocks := Std.TreeMap UInt32 (List Insn)

/-- Splits a block into what comes before its first plain instruction, what goes up to its last one,
and the rest. Only plain instructions can throw. -/
def throwingPart (block : List Insn) : List Insn × List Insn × List Insn :=
  let (before, rest) := block.span (!·.isPlain)
  let (after, middle) := rest.reverse.span (!·.isPlain)
  (before, middle.reverse, after.reverse)

def selectBlock (catalog : Catalog) (result : String) (delay pickedUp : Bool) (frame : Frame)
    (i : Instr) :
    PoolM (List Insn) := ExceptT.mk fun pool =>
  let (outcome, draft) :=
    (select catalog result pickedUp i).run ⟨frame, delay, pool, #[.label (some i.position)]⟩
  (within (.instruction i.opcode i.position) (outcome.map fun _ => draft.insns.toList), draft.pool)

structure Site where
  catalog : Catalog
  method : Method
  code : Code
  typing : Typing
  /-- Of instructions at one position the last counts. -/
  instrAt : Std.HashMap UInt32 Instr
  delay : Bool

namespace Site

def ofCode (catalog : Catalog) (method : Method) (code : Code) (options : Options) :
    Except Fault Site := do
  let typing ← infer catalog method code
  let instrAt := code.instrs.foldl (fun m i => m.insert i.position i) ∅
  return { catalog, method, code, typing, instrAt, delay := options.delayLiterals }

def isMoveResult (s : Site) (position : UInt32) : Bool :=
  (s.instrAt[position]?).any fun i => i.family = .moveResult

def addBlock (s : Site) (blocks : Blocks) (i : Instr) : PoolM Blocks :=
  match s.typing.states[i.position]? with
  | some frame => do
    let block ← selectBlock s.catalog s.method.id.result s.delay (s.isMoveResult i.next) frame i
    return blocks.insert i.position block
  | none => return blocks

def blocks (s : Site) : PoolM Blocks := s.code.instrs.foldlM s.addBlock ∅

/-- The anchor a handler is entered at: the head of its block if that picks up the exception, or
else a way in that drops it. -/
def handlerAnchor (s : Site) (blocks : Blocks) (h : Handler) : Except Fault Anchor :=
  if s.isMoveResult h.target then
    if blocks.contains h.target then .ok (.head h.target) else fail (.unreachableHandler h.target)
  else .ok (.dropping h.target)

def rowFor (s : Site) (blocks : Blocks) (position : UInt32) (h : Handler) : PoolM AnchoredRow := do
  let handler ← liftM (s.handlerAnchor blocks h)
  let classRef ← if h.className = throwable then pure 0 else PoolM.classRef h.className
  return ⟨.start position, .stop position, handler, classRef⟩

def rowsAt (s : Site) (blocks : Blocks) (position : UInt32) (handlers : List Handler) :
    PoolM (List AnchoredRow) :=
  match blocks[position]? with
  | none => pure []
  | some block =>
    if (throwingPart block).2.1.isEmpty then pure [] else handlers.mapM (s.rowFor blocks position)

def rows (s : Site) (blocks : Blocks) : PoolM (List AnchoredRow) := do
  let found ← s.typing.handlers.toList.mapM fun (position, handlers) =>
      s.rowsAt blocks position handlers
  return found.flatten

/-- The block of a position with its anchors. A guarded block has labels around its throwing part.
-/
def anchored (s : Site) (position : UInt32) (block : List Insn) : List Anchored :=
  let (before, middle, after) := throwingPart block
  let bare (is : List Insn) : List Anchored := is.map fun i => (none, i)
  let lines :=
    if s.typing.handlers.contains position && !middle.isEmpty then
      bare before ++ (some (.start position), .label none) :: bare middle ++
        (some (.stop position), .label none) :: bare after
    else bare block
  match lines with
  | (_, head) :: rest => (some (.head position), head) :: rest
  | [] => []

def dropLines (position : UInt32) : List Anchored :=
  [(some (.dropping position), .label none), (none, .op Op.pop)]

/-- Adds a block to the lines before it, behind the way into it that drops the exception if that is
still to be placed and nothing falls into it there. -/
def place (s : Site) (placed : Array Anchored × List UInt32) (position : UInt32)
    (block : List Insn) :
    Array Anchored × List UInt32 :=
  let (lines, remaining) := placed
  let fallsIn := (lines.back?.map fun l => l.2.fallsThrough).getD true
  if position ∈ remaining && !fallsIn then
    (lines ++ dropLines position ++ s.anchored position block, remaining.erase position)
  else (lines ++ s.anchored position block, remaining)

/-- All blocks in order of position. The way into a handler that drops the exception stands right
before the handler if nothing falls into that place, and otherwise at the end, followed by a jump.
-/
def flatten (s : Site) (blocks : Blocks) (drops : List UInt32) : List Anchored :=
  let (lines, remaining) := blocks.foldl s.place ((#[] : Array Anchored), drops)
  lines.toList ++ remaining.flatMap fun position => dropLines position ++ [(none, .goto position)]

/-- The locals that hold the arguments: the last registers, in order. -/
def args (s : Site) : List (Option Local) :=
  let kinds := s.method.slotKinds
  let first := s.code.registers.toNat - kinds.length
  kinds.zipIdx.map fun (k, n) => if k = .none then none else some ⟨first + n, k⟩

end Site

/-- Positions entered by dropping the exception, ascending and without repetition. -/
def droppingPositions (rows : List AnchoredRow) : List UInt32 :=
  (rows.foldl (fun ps r =>
    match r.handler with
    | .dropping p => ps.insert p ()
    | _ => ps) (∅ : Std.TreeMap UInt32 Unit)).keys

def noteAnchor {α : Type} [BEq α] [Hashable α] (key : Anchor → Option α) (tags : Std.HashMap α Nat)
    (line : Anchored × Nat) : Std.HashMap α Nat :=
  match line.1.1.bind key with
  | some a => tags.insert a line.2
  | none => tags

def anchorTags {α : Type} [BEq α] [Hashable α] (key : Anchor → Option α) (lines : List Anchored) :
    Std.HashMap α Nat :=
  lines.zipIdx.foldl (noteAnchor key) ∅

/-- Replaces anchors by tags, which are the places of the lines. -/
def resolveAnchors (name : String) (lines : List Anchored) (rows : List AnchoredRow)
    (args : List (Option Local)) : Body :=
  let tags := anchorTags some lines
  let tagOf (a : Anchor) : Nat := tags.getD a lines.length
  let rows := rows.map fun r => (⟨tagOf r.start, tagOf r.stop, tagOf r.handler, r.classRef⟩ : Row)
  { Body.ofInsns name (lines.map (·.2)) with
    heads := anchorTags Anchor.headOf? lines
    rows, args
    starts := rows.foldl (fun m r => m.insert r.start) ∅
    stops := rows.foldl (fun m r => m.insert r.stop) ∅ }

/-- The head lines that jumps lead to, one for each jump and for each target of a switch. -/
def jumpEntries (b : Body) : Except Fault (List Nat) := do
  let found ← b.lines.mapM fun l => l.insn.targets.mapM fun t =>
    match b.heads[t]? with
    | some tag => .ok tag
    | none => fail (.noJumpTarget t b.name)
  return found.flatten

/-- Infers register states, selects instructions and lays them out in one list. -/
def compile (catalog : Catalog) (method : Method) (code : Code) (options : Options) : PoolM Body :=
  do
  let site ← liftM (Site.ofCode catalog method code options)
  let blocks ← site.blocks
  let rows ← site.rows blocks
  let body :=
    resolveAnchors method.id.name (site.flatten blocks (droppingPositions rows)) rows site.args
  let entries ← liftM (jumpEntries body)
  return (body.rows.map Row.handler ++ entries).foldl Body.addEntry body

end Register

end Restack
