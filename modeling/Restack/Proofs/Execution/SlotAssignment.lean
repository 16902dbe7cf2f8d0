import Restack.Proofs.Execution.Parts
import Restack.Proofs.Layout.SlotTable
import Restack.Proofs.Stack.AccessCode

set_option autoImplicit false

namespace Restack

variable {V H : Type}

def Line.inSlot (slot : Local → UInt16) (l : Line) : Line :=
  match l.insn with
  | .access a => { l with insn := .access { a with slot := some (slot a.var) } }
  | _ => l

/-- The lines that are still to come, and the state to run them in. A value that takes two slots is
found at the first. -/
structure SlotConfig (V H : Type) where
  rest : List Line
  stack : List V
  heap : H
  slots : Nat → Option V

/-- Puts a value in a slot. A wide one takes the next slot as well, and one that reaches into the
slot from before is lost. -/
def putSlot (wide : V → Bool) (slots : Nat → Option V) (n : Nat) (x : V) : Nat → Option V :=
  fun i =>
  if i = n then some x
  else if i = n + 1 ∧ wide x = true ∨ i + 1 = n ∧ (slots i).any wide = true then none
  else slots i

namespace Machine

/-- A load or store of a slot, which has to find a value of the width it is for. -/
def useSlot (wide : V → Bool) (c : SlotConfig V H) (back : List Line) (u : SlotUse) :
    Option (SlotConfig V H) :=
  if u.isStore then
    match c.stack with
    | x :: stack =>
      if wide x = u.kinds.isWide then
        some { c with rest := back, stack, slots := putSlot wide c.slots u.slot.toNat x }
      else none
    | [] => none
  else
    ((c.slots u.slot.toNat).filter (wide · = u.kinds.isWide)).map fun x =>
      { c with rest := back, stack := x :: c.stack }

/-- One line. Loads and stores do what their code says; no other line has to do with locals. -/
def slotStep (M : Machine V H) (wide : V → Bool) (b : Body) (c : SlotConfig V H) :
    Option (SlotConfig V H) :=
  match c.rest with
  | [] => none
  | l :: back =>
    match l.insn with
    | .access a => (a.code?.bind Access.decode?).bind (useSlot wide c back)
    | _ =>
      (M.step b ⟨l :: back, c.stack, c.heap, fun _ => M.value l.insn⟩).map fun d =>
        ⟨d.rest, d.stack, d.heap, c.slots⟩

def slotRun (M : Machine V H) (wide : V → Bool) (b : Body) :
    Nat → SlotConfig V H → Option (SlotConfig V H)
  | 0, c => some c
  | n + 1, c => (M.slotStep wide b c).bind (M.slotRun wide b n)

end Machine

namespace Body

/-- The locals that have to have slots: arguments, and what lines load and store. -/
def Uses (b : Body) (v : Local) : Prop := some v ∈ b.args ∨ v ∈ accessed b.lines

/-- `later` is the body with a slot for each local, and with a copy of an argument to its slot at
the entry, or none. -/
structure Allocates (b later : Body) (slot : Local → UInt16) (copy : List Line) : Prop where
  lines : later.lines = copy ++ b.lines.map (Line.inSlot slot)
  copied : copy = [] ∨ ∃ (n : Nat) (arg : Local), b.args[n]? = some (some arg) ∧
    copy = [⟨b.fresh, .access ⟨arg, false, some n.toUInt16⟩⟩,
      ⟨b.fresh + 1, .access ⟨arg, true, some (slot arg)⟩⟩]
  codes : ∀ l ∈ later.lines, ∀ a, l.insn = .access a → ∃ code u, a.code? = some code ∧
    Access.decode? code = some u ∧
    (a.var.kinds ∈ Kinds.singles → u.kinds = a.var.kinds) ∧ u.isStore = a.isStore ∧
    (u.slot = slot a.var ∨ copy.head? = some l ∧ b.args[u.slot.toNat]? = some (some a.var))
  apart : ∀ v w, b.Uses v → b.Uses w → v ≠ w →
    (slot v).toNat + v.width ≤ (slot w).toNat ∨ (slot w).toNat + w.width ≤ (slot v).toNat
  inside : ∀ v, b.Uses v → (slot v).toNat + v.width ≤ later.locals.toNat

/-- No jump and no row leads to one of the lines. -/
def Unnamed (b : Body) (lines : List Line) : Prop :=
  (∀ (position : UInt32) (tag : Nat), b.heads[position]? = some tag → ∀ l ∈ lines, l.tag ≠ tag) ∧
    ∀ r ∈ b.rows, ∀ l ∈ lines, l.tag ≠ r.handler

structure Passed (args : List (Option Local)) (wide : V → Bool) (value : Local → V)
    (slots : Nat → Option V) : Prop where
  first : ∀ (i : Nat) (v : Local), args[i]? = some (some v) → slots i = some (value v) ∧
    wide (value v) = v.isWide
  second : ∀ i : Nat, args[i]? = some none → slots i = none

variable {b later : Body} {slot : Local → UInt16} {copy : List Line} {v : Local}

section Control

variable {M : Machine V H} {wide : V → Bool} {c d : SlotConfig V H} {own : List Line}

theorem slotRun_add (M : Machine V H) (wide : V → Bool) (b : Body) (m n : Nat)
    (c : SlotConfig V H) :
    M.slotRun wide b (m + n) c = (M.slotRun wide b m c).bind (M.slotRun wide b n) := by
  induction m generalizing c with
  | zero => simp [Machine.slotRun]
  | succ m ih =>
    rw [Nat.succ_add, Machine.slotRun, Machine.slotRun, Option.bind_assoc]
    exact congrArg _ (funext ih)

theorem suffix_of_slotStep (lines : b.lines = copy ++ own) (unnamed : b.Unnamed copy)
    (within : c.rest <:+ own) (stepped : M.slotStep wide b c = some d) : d.rest <:+ own := by
  have landed {tag : Nat} (other : ∀ l ∈ copy, l.tag ≠ tag) : b.linesFrom tag <:+ own := by
    rw [linesFrom, lines, List.dropWhile_append_of_pos (by simpa using other)]
    exact List.dropWhile_suffix _
  unfold Machine.slotStep at stepped
  split at stepped
  · cases stepped
  next l back rest =>
    rw [rest] at within
    have behind : back <:+ own := (List.suffix_cons l back).trans within
    split at stepped
    next a _ =>
      obtain ⟨u, _, used⟩ := Option.bind_eq_some_iff.1 stepped
      unfold Machine.useSlot at used
      split at used
      · split at used
        · split at used
          · cases used
            exact behind
          · cases used
        · cases used
      · obtain ⟨x, _, rfl⟩ := Option.map_eq_some_iff.1 used
        exact behind
    next =>
      obtain ⟨e, stepped', rfl⟩ := Option.map_eq_some_iff.1 stepped
      cases acts : l.insn.acts with
      | false => exact Machine.rest_of_step rfl acts stepped' ▸ behind
      | true =>
        rcases (Machine.leads_of_step rfl acts stepped').1 with ⟨_, on⟩ | ended |
          ⟨tag, enters, there⟩ | ⟨r, member, _, there⟩
        · exact on ▸ behind
        · exact ended ▸ List.nil_suffix
        · obtain ⟨target, _, found⟩ := List.any_eq_true.1 enters
          exact there ▸ landed (unnamed.1 target tag (by simpa using found))
        · exact there ▸ landed (unnamed.2 r member)

theorem suffix_of_slotRun (lines : b.lines = copy ++ own) (unnamed : b.Unnamed copy) (n : Nat)
    (within : c.rest <:+ own) (run : M.slotRun wide b n c = some d) : d.rest <:+ own := by
  induction n generalizing c with
  | zero =>
    cases run
    exact within
  | succ n ih =>
    obtain ⟨e, stepped, rest⟩ := Option.bind_eq_some_iff.1 run
    exact ih (suffix_of_slotStep lines unnamed within stepped) rest

end Control

section Tables

variable {table : List (Option Local)} {slots : Std.HashMap Local UInt16} {i : Nat} {v : Local}

def slotOf (slots : Std.HashMap Local UInt16) (v : Local) : UInt16 := (slots[v]?).getD 0

theorem toNat_slotOf (finds : Finds slots table) (short : table.length < 65536)
    (here : table[i]? = some (some v)) :
    (slotOf slots v).toNat = i := by
  have less := (List.getElem?_eq_some_iff.1 here).1
  rw [slotOf, finds.places i v here, Option.getD_some, Nat.toUInt16_eq, UInt16.toNat_ofNat']
  omega

theorem decode?_code {a : Access} {n : UInt16} (known : a.slot = some n) :
    ∃ code, a.code? = some code ∧ Access.decode? code = some ⟨a.var.kinds.typed, a.isStore, n⟩ :=
  ⟨_, by rw [Access.code?, known, Option.map_some], Access.decode?_encode n a.var.kinds a.isStore⟩

theorem Allocates.of_table (laid : Laid table) (finds : Finds slots table)
    (short : table.length < 65536) (keys : ∀ v, b.Uses v → some v ∈ table)
    (lines : later.lines = copy ++ b.lines.map (Line.inSlot (slotOf slots)))
    (locals : later.locals = slotCount table.length)
    (copied : copy = [] ∨ ∃ (n : Nat) (arg : Local), b.args[n]? = some (some arg) ∧ n < 65536 ∧
      copy = [⟨b.fresh, .access ⟨arg, false, some n.toUInt16⟩⟩,
        ⟨b.fresh + 1, .access ⟨arg, true, some (slotOf slots arg)⟩⟩]) :
    b.Allocates later (slotOf slots) copy := by
  refine ⟨lines, copied.imp id ?_, fun l member a access => ?_, fun v w key key' different => ?_,
    fun v key => ?_⟩
  · rintro ⟨n, arg, there, _, same⟩
    exact ⟨n, arg, there, same⟩
  · have codes {n : UInt16} (known : a.slot = some n)
        (right : n = slotOf slots a.var ∨ copy.head? = some l ∧
          b.args[n.toNat]? = some (some a.var)) :
        ∃ code u, a.code? = some code ∧ Access.decode? code = some u ∧
          (a.var.kinds ∈ Kinds.singles → u.kinds = a.var.kinds) ∧ u.isStore = a.isStore ∧
          (u.slot = slotOf slots a.var ∨ copy.head? = some l ∧
            b.args[u.slot.toNat]? = some (some a.var)) := by
      obtain ⟨code, known, decoded⟩ := decode?_code known
      exact ⟨code, _, known, decoded, Kinds.typed_of_single, rfl, right⟩
    rw [lines] at member
    rcases List.mem_append.1 member with first | second
    · rcases copied with rfl | ⟨n, arg, there, small, rfl⟩
      · cases first
      · simp only [List.mem_cons, List.not_mem_nil, or_false] at first
        rcases first with rfl | rfl
        · cases access
          refine codes rfl (.inr ⟨rfl, ?_⟩)
          rwa [Nat.toUInt16_eq, UInt16.toNat_ofNat', Nat.mod_eq_of_lt small]
        · cases access
          exact codes rfl (.inl rfl)
    · obtain ⟨⟨tag, insn⟩, _, rfl⟩ := List.mem_map.1 second
      cases insn with
      | access before =>
        cases access
        exact codes rfl (.inl rfl)
      | label | literal | constant | plain | jump | switch => cases access
  · obtain ⟨i, at_i⟩ := List.getElem?_of_mem (keys v key)
    obtain ⟨j, at_j⟩ := List.getElem?_of_mem (keys w key')
    rw [toNat_slotOf finds short at_i, toNat_slotOf finds short at_j]
    exact laid.apart at_i at_j different
  · obtain ⟨i, at_i⟩ := List.getElem?_of_mem (keys v key)
    have within := laid.inside at_i
    rw [toNat_slotOf finds short at_i, locals, slotCount, if_pos short, Nat.toUInt16_eq,
      UInt16.toNat_ofNat', Nat.mod_eq_of_lt short]
    exact within

theorem map_inSlot {lines : List Line} (assign : Line → Line)
    (keys : ∀ v ∈ accessed lines, (slots[v]?).isSome = true)
    (access : ∀ l ∈ lines, ∀ a, l.insn = .access a →
      assign l = { l with insn := .access { a with slot := slots[a.var]? } })
    (other : ∀ l ∈ lines, l.insn.accesses? = none → assign l = l) :
    lines.map assign = lines.map (Line.inSlot (slotOf slots)) := by
  refine List.map_congr_left fun l member => ?_
  cases insn : l.insn with
  | access a =>
    obtain ⟨n, known⟩ :=
      Option.isSome_iff_exists.1 (keys a.var (mem_accessed.2 ⟨l, member, a, insn, rfl⟩))
    rw [access l member a insn]
    simp only [Line.inSlot, insn, slotOf, known, Option.getD_some]
  | label | literal | constant | plain | jump | switch =>
    rw [other l member (by rw [insn]; rfl)]
    simp only [Line.inSlot, insn]

end Tables

section Copying

variable {M : Machine V H} {wide : V → Bool} {value : Local → V} {slots : Nat → Option V} {heap : H}
  {own : List Line}
variable {n place : Nat} {arg : Local}

theorem slotRun_copy {first second : Nat} (passed : Passed b.args wide value slots)
    (at_n : b.args[n]? = some (some arg)) (narrow : arg.isWide = false) (small : n < 65536)
    (target : (slot arg).toNat = place) :
    M.slotRun wide later 2
      ⟨⟨first, .access ⟨arg, false, some n.toUInt16⟩⟩ ::
        ⟨second, .access ⟨arg, true, some (slot arg)⟩⟩ :: own,
      [], heap, slots⟩ = some ⟨own, [], heap, putSlot wide slots place (value arg)⟩ := by
  obtain ⟨here, width⟩ := passed.first n arg at_n
  have fits : wide (value arg) = arg.kinds.typed.isWide := by
    rw [width, narrow, Kinds.isWide_typed narrow]
  have from_n : n.toUInt16.toNat = n := by
    rw [Nat.toUInt16_eq, UInt16.toNat_ofNat', Nat.mod_eq_of_lt small]
  have loaded : M.slotStep wide later ⟨⟨first, .access ⟨arg, false, some n.toUInt16⟩⟩ ::
      ⟨second, .access ⟨arg, true, some (slot arg)⟩⟩ :: own, [], heap, slots⟩ =
      some ⟨⟨second, .access ⟨arg, true, some (slot arg)⟩⟩ :: own, [value arg], heap, slots⟩ := by
    simp [Machine.slotStep, Access.code?, Access.decode?_encode, Machine.useSlot,
      from_n, here, fits]
  have stored : M.slotStep wide later
      ⟨⟨second, .access ⟨arg, true, some (slot arg)⟩⟩ :: own, [value arg], heap, slots⟩ =
      some ⟨own, [], heap, putSlot wide slots place (value arg)⟩ := by
    simp [Machine.slotStep, Access.code?, Access.decode?_encode, Machine.useSlot, fits, target]
  rw [Machine.slotRun, loaded, Option.bind_some, Machine.slotRun, stored, Option.bind_some,
    Machine.slotRun]

theorem putSlot_argument {x : V} {i : Nat} (passed : Passed b.args wide value slots)
    (laid : Laid b.args) (at_i : b.args[i]? = some (some v)) (behind : b.args.length ≤ place) :
    putSlot wide slots place x i = some (value v) := by
  obtain ⟨here, width⟩ := passed.first i v at_i
  have inside := laid.inside at_i
  have some_width : 0 < v.width := by
    unfold Local.width
    split <;> omega
  rw [putSlot, if_neg (by omega), if_neg, here]
  rintro (⟨next, _⟩ | ⟨before, reaches⟩)
  · omega
  · rw [here, Option.any_some, width] at reaches
    rw [Local.width, if_pos reaches] at inside
    omega

end Copying

/-- Arguments keep the slots that they come in, except for a narrow one that is copied to a slot
behind all of them. -/
def Settles (b : Body) (slot : Local → UInt16) (copy : List Line) : Prop :=
  (copy = [] ∧ ∀ (i : Nat) (v : Local), b.args[i]? = some (some v) → (slot v).toNat = i) ∨
  ∃ (n : Nat) (arg : Local), b.args[n]? = some (some arg) ∧ arg.isWide = false ∧ n < 65536 ∧
    copy = [⟨b.fresh, .access ⟨arg, false, some n.toUInt16⟩⟩,
      ⟨b.fresh + 1, .access ⟨arg, true, some (slot arg)⟩⟩] ∧
    b.args.length ≤ (slot arg).toNat ∧
    ∀ (i : Nat) (v : Local), b.args[i]? = some (some v) → v ≠ arg → (slot v).toNat = i

theorem Settles.copied (settles : b.Settles slot copy) :
    copy = [] ∨ ∃ (n : Nat) (arg : Local), b.args[n]? = some (some arg) ∧
    n < 65536 ∧
    copy = [⟨b.fresh, .access ⟨arg, false, some n.toUInt16⟩⟩,
      ⟨b.fresh + 1, .access ⟨arg, true, some (slot arg)⟩⟩] := by
  rcases settles with ⟨none, _⟩ | ⟨n, arg, at_n, _, small, copied, _⟩
  · exact .inl none
  · exact .inr ⟨n, arg, at_n, small, copied⟩

theorem Settles.entry {M : Machine V H} {wide : V → Bool} {value : Local → V}
    {slots : Nat → Option V} {own : List Line} (settles : b.Settles slot copy) (laid : Laid b.args)
    (passed : Passed b.args wide value slots) (heap : H) :
    ∃ slots', M.slotRun wide later copy.length ⟨copy ++ own, [], heap, slots⟩ =
      some ⟨own, [], heap, slots'⟩ ∧
      ∀ v, some v ∈ b.args → slots' (slot v).toNat = some (value v) := by
  rcases settles with ⟨rfl, natural⟩ | ⟨n, arg, at_n, narrow, small, rfl, behind, natural⟩
  · refine ⟨slots, rfl, fun v argument => ?_⟩
    obtain ⟨i, at_i⟩ := List.getElem?_of_mem argument
    rw [natural i v at_i]
    exact (passed.first i v at_i).1
  · refine ⟨_, slotRun_copy passed at_n narrow small rfl, fun v argument => ?_⟩
    by_cases moved : v = arg
    · rw [moved, putSlot, if_pos rfl]
    · obtain ⟨i, at_i⟩ := List.getElem?_of_mem argument
      rw [natural i v at_i moved]
      exact putSlot_argument passed laid at_i behind

theorem getElem?_of_argument {vars : List (Option Local)} {i : Nat}
    (at_i : b.args[i]? = some (some v)) :
    (b.args ++ vars)[i]? = some (some v) := by
  rwa [List.getElem?_append_left (List.getElem?_eq_some_iff.1 at_i).1]

theorem isSome_of_finds {table : List (Option Local)} {slots : Std.HashMap Local UInt16}
    (finds : Finds slots table) (there : some v ∈ table) : (slots[v]?).isSome = true := by
  obtain ⟨i, at_i⟩ := List.getElem?_of_mem there
  rw [finds.places i v at_i]
  rfl

theorem assignInOrder_allocates (laid : Laid b.args) (few : b.slotsNeeded < 65536) :
    ∃ slot, b.Allocates b.assignInOrder slot [] ∧ b.Settles slot [] := by
  obtain ⟨vars, others, finds, next⟩ := slotsInOrder_table laid b.lines
  have short : (b.args ++ vars.flatMap Local.places).length < 65536 := others.length_eq ▸ few
  have keys : ∀ v, b.Uses v → some v ∈ b.args ++ vars.flatMap Local.places :=
    fun v key => others.mem key
  refine ⟨_, .of_table (others.laid laid) finds short keys ?_ ?_ (.inl rfl),
    .inl ⟨rfl, fun i v at_i => ?_⟩⟩
  · refine map_inSlot _ (fun v used => isSome_of_finds finds (keys v (.inr used)))
      (fun l _ a access => ?_) fun l _ no_access => ?_
    · obtain ⟨tag, insn⟩ := l
      cases access
      rfl
    · cases insn : l.insn <;> simp_all [Insn.accesses?]
  · exact congrArg slotCount next
  · exact toNat_slotOf finds short (getElem?_of_argument at_i)

theorem assignFrom_eq {table : Array (Option Local)} {lines : List Line} (laid : Laid table.toList)
    (keys : ∀ v ∈ accessed lines, some v ∈ table.toList)
    (unassigned : ∀ l ∈ lines, ∀ a, l.insn = .access a → a.slot = none) :
    assignFrom table lines = lines.map (Line.inSlot (slotOf (argSlots table.toList))) := by
  refine map_inSlot _ (fun v used => isSome_of_finds (finds_argSlots laid) (keys v used))
    (fun l member a access => ?_)
    fun l _ no_access => ?_
  · simp [access, unassigned l member a access]
  · cases insn : l.insn <;> simp_all [Insn.accesses?]

theorem assignByUse_allocates (laid : Laid b.args) (few : b.slotsNeeded < 65536)
    (unassigned : ∀ l ∈ b.lines, ∀ a, l.insn = .access a → a.slot = none) :
    ∃ slot copy, b.Allocates b.assignByUse slot copy ∧ b.Settles slot copy := by
  have others := others_byUse b.args b.lines
  have whole : Laid (slotTable b.args (useCounts b.lines)).toList :=
    slotTable_toList b.args _ ▸ others.laid laid
  have keys : ∀ v, b.Uses v → some v ∈ (slotTable b.args (useCounts b.lines)).toList := fun v key =>
    slotTable_toList b.args _ ▸ others.mem key
  have short : (slotTable b.args (useCounts b.lines)).toList.length < 65536 := by
    rw [slotTable_toList, others.length_eq]
    exact few
  have arguments {i : Nat} {v : Local} (at_i : b.args[i]? = some (some v)) :
      (slotTable b.args (useCounts b.lines)).toList[i]? = some (some v) :=
    slotTable_toList b.args _ ▸ getElem?_of_argument at_i
  unfold assignByUse
  dsimp only
  split
  next n place arg exchanged =>
    obtain ⟨n_argument, n_small, behind, at_n, narrow, candidate, at_place, narrow'⟩ :=
      exchange?_cases whole exchanged
    have traded := getElem?_traded at_n at_place
    have laid' := whole.trade at_n at_place narrow narrow' traded
    have finds := finds_argSlots laid'
    have size := (slotTable b.args (useCounts b.lines)).size_swapIfInBounds (i := n) (j := place)
    have keys' : ∀ v, b.Uses v →
        some v ∈ ((slotTable b.args (useCounts b.lines)).swapIfInBounds n place).toList :=
      fun v key => Array.mem_toList_iff.2 (mem_swapIfInBounds (Array.mem_toList_iff.1 (keys v key)))
    generalize (slotTable b.args (useCounts b.lines)).swapIfInBounds n place = table at *
    have short' : table.toList.length < 65536 := by
      rw [Array.length_toList] at short ⊢
      omega
    have here : table.toList[place]? = some (some arg) := by
      rw [traded, if_neg (by omega), if_pos rfl]
    have argument : b.args[n]? = some (some arg) := by
      rwa [slotTable_toList, List.getElem?_append_left n_argument] at at_n
    have target := toNat_slotOf finds short' here
    have settles : b.Settles
        (slotOf (argSlots table.toList)) [⟨b.fresh, .access ⟨arg, false, some n.toUInt16⟩⟩,
        ⟨b.fresh + 1, .access ⟨arg, true, some (slotOf (argSlots table.toList) arg)⟩⟩] := by
      refine .inr
        ⟨n, arg, argument, narrow, by omega, rfl, target ▸ behind, fun i v at_i other => ?_⟩
      have inside := (List.getElem?_eq_some_iff.1 at_i).1
      refine toNat_slotOf finds short' ?_
      rw [traded, if_neg, if_neg (by omega), arguments at_i]
      rintro rfl
      exact other (Option.some.inj (Option.some.inj (at_i.symm.trans argument)))
    refine ⟨_, _, .of_table laid' finds short' keys' ?_ ?_ settles.copied, settles⟩
    · have copied :
          assignFrom table
            [⟨b.fresh, .access { var := arg, isStore := false, slot := some n.toUInt16 }⟩,
          ⟨b.fresh + 1, .store arg⟩] = [⟨b.fresh, .access ⟨arg, false, some n.toUInt16⟩⟩,
          ⟨b.fresh + 1, .access ⟨arg, true, some (slotOf (argSlots table.toList) arg)⟩⟩] := by
        simp [assignFrom, Insn.store, slotOf, finds.places place arg here]
      have rest := assignFrom_eq laid' (fun v used => keys' v (.inr used)) unassigned
      exact List.map_append.trans (congrArg₂ (· ++ ·) copied rest)
    · rw [Array.length_toList]
  next =>
    refine ⟨_, [], .of_table whole (finds_argSlots whole) short keys ?_ rfl (.inl rfl),
      .inl ⟨rfl, fun i v at_i => ?_⟩⟩
    · exact assignFrom_eq whole (fun v used => keys v (.inr used)) unassigned
    · exact toNat_slotOf (finds_argSlots whole) short (arguments at_i)

/-- Giving out slots is sound, in order or by use, if arguments lie side by side and there are
enough slots. Every load and store has code for the slot of its local, different locals have slots
apart, and arguments are in the slots of their locals once the copy at the entry has run, if there
is one; after that control stays behind it. -/
theorem assignSlots_allocates (b : Body) (o : Options)
    (unassigned : ∀ l ∈ b.lines, ∀ a, l.insn = .access a → a.slot = none)
    (arranged : ∃ vars : List Local, vars.Nodup ∧ b.args = vars.flatMap Local.places)
    (few : b.slotsNeeded < 65536)
    (heads : ∀ (position : UInt32) (tag : Nat), b.heads[position]? = some tag → tag < b.fresh)
    (handlers : ∀ r ∈ b.rows, r.handler < b.fresh) :
    ∃ slot copy, b.Allocates (b.assignSlots o) slot copy ∧
      ∀ (V H : Type) (M : Machine V H) (wide : V → Bool) (value : Local → V)
        (slots : Nat → Option V) (heap : H),
        Passed b.args wide value slots →
        (∃ slots', M.slotRun wide (b.assignSlots o) copy.length
          ⟨(b.assignSlots o).lines, [], heap, slots⟩ =
            some ⟨b.lines.map (Line.inSlot slot), [], heap, slots'⟩ ∧
          ∀ v, some v ∈ b.args → slots' (slot v).toNat = some (value v)) ∧
        ∀ n c, copy.length ≤ n →
        M.slotRun wide (b.assignSlots o) n ⟨(b.assignSlots o).lines, [], heap, slots⟩ = some c →
          c.rest <:+ b.lines.map (Line.inSlot slot) := by
  obtain ⟨vars, distinct, args⟩ := arranged
  have laid : Laid b.args := args ▸ .flatMap_places distinct
  obtain ⟨slot, copy, allocates, settles⟩ : ∃ slot copy, b.Allocates (b.assignSlots o) slot copy ∧
    b.Settles slot copy := by
    unfold assignSlots
    split
    · exact assignByUse_allocates laid few unassigned
    · obtain ⟨slot, both⟩ := assignInOrder_allocates laid few
      exact ⟨slot, [], both⟩
  have same : (b.assignSlots o).heads = b.heads ∧ (b.assignSlots o).rows = b.rows := by
    unfold assignSlots assignByUse
    dsimp only
    split
    · split <;> exact ⟨rfl, rfl⟩
    · exact ⟨rfl, rfl⟩
  have unnamed : (b.assignSlots o).Unnamed copy := by
    have fresh : ∀ l ∈ copy, b.fresh ≤ l.tag := by
      rcases allocates.copied with rfl | ⟨n, arg, _, rfl⟩
      · simp
      · simp
    refine ⟨fun position tag found l member => ?_, fun r row l member => ?_⟩
    · have below := heads position tag (same.1 ▸ found)
      have above := fresh l member
      omega
    · have below := handlers r (same.2 ▸ row)
      have above := fresh l member
      omega
  refine ⟨slot, copy, allocates, fun V H M wide value slots heap passed => ?_⟩
  obtain ⟨slots', entered, found⟩ : ∃ slots', M.slotRun wide (b.assignSlots o) copy.length
      ⟨copy ++ b.lines.map (Line.inSlot slot), [], heap, slots⟩ =
        some ⟨b.lines.map (Line.inSlot slot), [], heap, slots'⟩ ∧
      ∀ v, some v ∈ b.args → slots' (slot v).toNat = some (value v) :=
        settles.entry laid passed heap
  rw [← allocates.lines] at entered
  refine ⟨⟨slots', entered, found⟩, fun n c enough run => ?_⟩
  obtain ⟨more, rfl⟩ := Nat.exists_eq_add_of_le enough
  rw [slotRun_add, entered, Option.bind_some] at run
  exact suffix_of_slotRun allocates.lines unnamed more (List.suffix_refl _) run

end Body

def fiveLocals : List Local := (List.range' 10 5).map fun reg => ⟨reg, .ofInt⟩

/-- A loop that reads five arguments once and another local ten times. -/
def busyLocal : Body :=
  { Body.ofInsns "busyLocal"
      (.label (some 0) :: fiveLocals.map .load ++ List.replicate 10 (.load ⟨0, .ofInt⟩) ++
        [.goto 0]) with
    heads := (∅ : Std.HashMap UInt32 Nat).insert 0 0
    entries := (∅ : Std.HashMap Nat Nat).insert 0 1
    args := fiveLocals.map some }

theorem busyLocal_allocates :
    ∃ slot copy, busyLocal.Allocates (busyLocal.assignSlots .all) slot copy ∧
    (∃ slots, countingMachine.slotRun (fun _ => false) (busyLocal.assignSlots .all) copy.length
        ⟨(busyLocal.assignSlots .all).lines, [], 0, fun n => some (n + 7)⟩ =
          some ⟨busyLocal.lines.map (Line.inSlot slot), [], 0, slots⟩ ∧
      slots (slot ⟨10, .ofInt⟩).toNat = some 7 ∧ slots (slot ⟨14, .ofInt⟩).toNat = some 11) ∧
    ∀ n c, copy.length ≤ n → countingMachine.slotRun (fun _ => false) (busyLocal.assignSlots .all) n
        ⟨(busyLocal.assignSlots .all).lines, [], 0, fun n => some (n + 7)⟩ = some c →
      c.rest <:+ busyLocal.lines.map (Line.inSlot slot) := by
  have heads : ∀ (position : UInt32) (tag : Nat), busyLocal.heads[position]? = some tag →
      tag < busyLocal.fresh := by
    intro position tag found
    obtain ⟨_, rfl⟩ : 0 = position ∧ 0 = tag := by
      simpa [busyLocal, Std.HashMap.getElem?_insert] using found
    decide
  have passed : Body.Passed busyLocal.args (fun _ => false) (fun v => v.reg - 3) fun n =>
      some (n + 7) := by
    refine ⟨fun i v found => ?_, fun i found => ?_⟩
    · rcases i with _ | _ | _ | _ | _ | i
      all_goals
        cases found
        try exact ⟨rfl, rfl⟩
    · rcases i with _ | _ | _ | _ | _ | i <;> cases found
  have unassigned : ∀ l ∈ busyLocal.lines, ∀ a, l.insn = .access a → a.slot = none := by
    intro l member a access
    have plain : ∀ l ∈ busyLocal.lines, (match l.insn with | .access a => a.slot | _ => none) =
        none := by decide
    have here := plain l member
    rwa [access] at here
  obtain ⟨slot, copy, allocates, runs⟩ := Body.assignSlots_allocates busyLocal .all unassigned
    ⟨fiveLocals, by decide, by decide⟩ (by decide) heads (by simp [busyLocal, Body.ofInsns])
  obtain ⟨⟨slots, entered, found⟩, stays⟩ :=
    runs Nat Nat countingMachine (fun _ => false) (fun v => v.reg - 3)
    (fun n => some (n + 7)) 0 passed
  exact ⟨slot, copy, allocates,
    ⟨slots, entered, found ⟨10, .ofInt⟩ (by decide), found ⟨14, .ofInt⟩ (by decide)⟩, stays⟩

end Restack
