import Restack.Pass.InlineConstants
import Restack.Pass.PruneStoreLoads

set_option autoImplicit false

namespace Restack

theorem fold_invariant {α β σ : Type} [BEq α] [Hashable α] [LawfulBEq α] (m : Std.HashMap α β)
    {f : σ → α → β → σ} {P : σ → Prop} {start : σ} (initial : P start)
    (step : ∀ s k v, m[k]? = some v → P s → P (f s k v)) :
    P (m.fold f start) := by
  rw [Std.HashMap.fold_eq_foldl_toList]
  refine List.foldlRecOn _ _ initial fun s holds pair member => ?_
  exact step s pair.1 pair.2 (Std.HashMap.mem_toList_iff_getElem?_eq_some.1 member) holds

section Tables

variable {α β : Type} [BEq α] [Hashable α] [LawfulBEq α] [LawfulHashable α] {m : Std.HashMap α β}
  {P : β → Prop}

theorem insert_cases {k k' : α} {v v' : β} (found : (m.insert k v)[k']? = some v') :
    k' = k ∧ v' = v ∨ k' ≠ k ∧ m[k']? = some v' := by
  rw [Std.HashMap.getElem?_insert] at found
  split at found
  next here => exact .inl ⟨(eq_of_beq here).symm, (Option.some.inj found).symm⟩
  next other => exact .inr ⟨fun here => other (by simp [here]), found⟩

theorem erase_cases {k k' : α} {v : β} (found : (m.erase k)[k']? = some v) :
    k' ≠ k ∧ m[k']? = some v := by
  rw [Std.HashMap.getElem?_erase] at found
  split at found
  next => cases found
  next other => exact ⟨fun here => other (by simp [here]), found⟩

theorem forall_insert_set {m : Std.HashSet α} {P : α → Prop}
    (before : ∀ k, m.contains k = true → P k) {k : α} (here : P k) :
    ∀ k', (m.insert k).contains k' = true → P k' := by
  intro k' inside
  rw [Std.HashSet.contains_insert, Bool.or_eq_true] at inside
  rcases inside with same | old
  · exact eq_of_beq same ▸ here
  · exact before k' old

end Tables

theorem foldl_along {α σ : Type} {step : σ → α → σ} {all : List α} {start : σ}
    (P : List α → σ → Prop) (initial : P [] start)
    (each : ∀ front x back s, all = front ++ x :: back → P front s → P (front ++ [x]) (step s x)) :
    P all (all.foldl step start) := by
  have upto : ∀ back front s, all = front ++ back → P front s → P all (back.foldl step s) := by
    intro back
    induction back with
    | nil =>
      intro front s split holds
      rw [List.append_nil] at split
      exact split ▸ holds
    | cons x back ih =>
      intro front s split holds
      exact ih (front ++ [x]) (step s x) (by simpa using split) (each front x back s split holds)
  exact upto all [] start rfl initial

namespace Body

/-- How many more guarded ranges have started than ended along some lines. -/
def level (b : Body) (front : List Line) : Int :=
  front.foldl (fun level l =>
    if b.starts.contains l.tag then level + 1 else if b.stops.contains l.tag then level - 1
      else level) 0

/-- A line that walks look at: it is outside of guarded ranges, and no jump leads to it or from it.
-/
structure InStretch (b : Body) (front : List Line) (l : Line) : Prop where
  level : b.level (front ++ [l]) ≤ 0
  entry : b.isTarget l = false
  targets : l.insn.targets = []

theorem level_snoc (b : Body) (front : List Line) (l : Line) :
    b.level (front ++ [l]) = if b.starts.contains l.tag then b.level front + 1
      else if b.stops.contains l.tag then b.level front - 1 else b.level front := by
  simp only [level, List.foldl_append, List.foldl_cons, List.foldl_nil]

end Body

namespace Walker

variable {σ : Type} {b : Body}

theorem step_eq (w : Walker σ) (b : Body) (front : List Line) (s : σ) (l : Line) :
    w.step b (b.level front) s l =
      (b.level (front ++ [l]),
        let s := if b.starts.contains l.tag then w.forget s else s
        if 0 < b.level (front ++ [l]) then s
        else if b.isTarget l || !l.insn.targets.isEmpty then w.forget s
        else if !l.insn.fallsThrough then w.leave s
        else w.visit s l) := by
  rw [step, b.level_snoc]
  by_cases starts : b.starts.contains l.tag = true
  · simp only [starts, if_true]
    split <;> rfl
  · by_cases stops : b.stops.contains l.tag = true
    · simp only [starts, stops, if_true, Bool.false_eq_true, if_false]
      split <;> rfl
    · simp only [starts, stops, Bool.false_eq_true, if_false]
      split <;> rfl

/-- What a walk keeps, with a view to the lines it has passed. Inside guarded ranges the walk is in
a blank state, which fits anywhere. -/
theorem walk_along (w : Walker σ) {start : σ} (P : List Line → σ → Prop) (Blank : σ → Prop)
    (initial : P [] start)
    (forget : ∀ front s, P front s → P front (w.forget s) ∧ Blank (w.forget s))
    (pass : ∀ front l back s, b.lines = front ++ l :: back → P front s → Blank s →
      P (front ++ [l]) s)
    (leave : ∀ front l back s, b.lines = front ++ l :: back → b.InStretch front l →
      l.insn.fallsThrough = false → P front s → P (front ++ [l]) (w.leave s))
    (visit : ∀ front l back s, b.lines = front ++ l :: back → b.InStretch front l →
      l.insn.fallsThrough = true → P front s → P (front ++ [l]) (w.visit s l)) :
    P b.lines (w.walk b start) := by
  refine (foldl_along (fun front (state : Int × σ) => state.1 = b.level front ∧ P front state.2 ∧
    (0 < state.1 → Blank state.2))
    ⟨rfl, initial, fun inside => absurd inside (Int.lt_irrefl 0)⟩ ?_).2.1
  rintro front l back ⟨level, s⟩ split ⟨same, holds, blank⟩
  dsimp only at same holds blank ⊢
  rw [same] at blank
  obtain ⟨forgotten, nothing⟩ := forget front s holds
  rw [same, step_eq]
  -- The state behind the marks of guarded ranges.
  have marked : P front (if b.starts.contains l.tag then w.forget s else s) ∧
      (0 < b.level (front ++ [l]) → Blank (if b.starts.contains l.tag then w.forget s else s)) := by
    have next_level := b.level_snoc front l
    split
    next => exact ⟨forgotten, fun _ => nothing⟩
    next no_start =>
      rw [if_neg no_start] at next_level
      refine ⟨holds, fun inside => blank ?_⟩
      split at next_level <;> omega
  generalize (if b.starts.contains l.tag then w.forget s else s) = s' at marked ⊢
  obtain ⟨kept, blank'⟩ := marked
  dsimp only
  split
  next inside => exact ⟨rfl, pass front l back s' split kept (blank' inside), blank'⟩
  next outside =>
    refine ⟨rfl, ?_, fun inside => absurd inside outside⟩
    split
    · obtain ⟨forgotten', nothing'⟩ := forget front s' kept
      exact pass front l back _ split forgotten' nothing'
    next no_target =>
      have inside : b.InStretch front l := by
        rw [Bool.or_eq_true, not_or] at no_target
        exact ⟨Int.not_lt.1 outside, by simpa using no_target.1, by simpa using no_target.2⟩
      split
      next ends => exact leave front l back s' split inside (by simpa using ends) kept
      next falls => exact visit front l back s' split inside (by simpa using falls) kept

theorem walk_invariant (w : Walker σ) (b : Body) {P : σ → Prop} {start : σ} (initial : P start)
    (forget : ∀ s, P s → P (w.forget s)) (leave : ∀ s, P s → P (w.leave s))
    (visit : ∀ s, ∀ l ∈ b.lines, P s → P (w.visit s l)) : P (w.walk b start) := by
  refine w.walk_along (fun _ => P) (fun _ => True) initial
    (fun _ s holds => ⟨forget s holds, trivial⟩)
    (fun _ _ _ _ _ holds _ => holds) (fun _ _ _ s _ _ _ => leave s) fun front l back s split _ _ =>
      visit s l ?_
  simp [split]

end Walker

/-- A store and the load of the same local behind it, with only labels of a certain sort between
them. -/
def Line.Bridge (free : Line → Prop) (l : Line) (mid : List Line) (m : Line) : Prop :=
  (∃ v, l.insn.stores? = some v ∧ m.insn.loads? = some v) ∧ ∀ x ∈ mid, (∃ q, x.insn = .label q) ∧
    free x

namespace InlineConstants

variable {b : Body} {s : InlineConstants.State}

structure Noted (b : Body) (s : InlineConstants.State) : Prop where
  last : ∀ (v : Local) (tag : Nat), s.last[v]? = some tag → ∃ l ∈ b.lines, l.tag = tag ∧
    l.insn.stores? = some v
  use : ∀ store load : Nat, s.use[store]? = some load →
    ∃ v, (∃ l ∈ b.lines, l.tag = store ∧ l.insn.stores? = some v) ∧
    ∃ l ∈ b.lines, l.tag = load ∧ l.insn.loads? = some v
  single : ∀ tag, s.single.contains tag = true → ∃ l ∈ b.lines, l.tag = tag ∧
    ∃ v, l.insn.stores? = some v

theorem noted_leave (noted : Noted b s) : Noted b (leave s) := by
  refine ⟨by simp [leave], noted.use, ?_⟩
  refine fold_invariant s.last
    (P := fun single : Std.HashSet Nat => ∀ tag, single.contains tag = true →
    ∃ l ∈ b.lines, l.tag = tag ∧ ∃ v, l.insn.stores? = some v) noted.single ?_
  intro single v store found holds
  obtain ⟨l, member, same, stores⟩ := noted.last v store found
  exact forall_insert_set holds ⟨l, member, same, v, stores⟩

theorem noted_visit (noted : Noted b s) {l : Line} (member : l ∈ b.lines) :
    Noted b (visit s l) := by
  unfold visit
  split
  next a access =>
    split
    next isStore =>
      have stores : l.insn.stores? = some a.var := by simp [access, Insn.stores?, isStore]
      refine ⟨fun v tag found => ?_, noted.use, ?_⟩
      · rcases insert_cases found with ⟨rfl, rfl⟩ | ⟨_, found⟩
        · exact ⟨l, member, rfl, stores⟩
        · exact noted.last v tag found
      · dsimp only
        split
        next old found =>
          obtain ⟨m, inside, same, stored⟩ := noted.last _ old found
          exact forall_insert_set noted.single ⟨m, inside, same, _, stored⟩
        next => exact noted.single
    next isLoad =>
      have loads : l.insn.loads? = some a.var := by simp [access, Insn.loads?, isLoad]
      split
      next store found =>
        split
        · exact ⟨fun v tag found => noted.last v tag (erase_cases found).2, noted.use, noted.single⟩
        · refine ⟨noted.last, fun store' load found' => ?_, noted.single⟩
          rcases insert_cases found' with ⟨rfl, rfl⟩ | ⟨_, found'⟩
          · exact ⟨a.var, noted.last _ _ found, l, member, rfl, loads⟩
          · exact noted.use store' load found'
      next => exact noted
  next => exact noted

theorem noted_walk (b : Body) : Noted b (walker.walk b .start) := by
  refine walker.walk_invariant b (P := Noted b)
    ⟨by simp [State.start], by simp [State.start], by simp [State.start]⟩ ?_ ?_ ?_
  · exact fun s noted => ⟨by simp [walker, forget], noted.use, noted.single⟩
  · exact fun s noted => noted_leave noted
  · exact fun s l member noted => noted_visit noted member

end InlineConstants

namespace PruneStoreLoads

variable {b : Body} {front back : List Line} {s : PruneStoreLoads.State} {l : Line}

/-- A label that control comes to from the line before only. -/
def Passing (b : Body) (l : Line) : Prop := (∃ q, l.insn = .label q) ∧ b.isTarget l = false

/-- A store and a load of the same local with labels between them, by their tags: `pending` while
the local is left alone, `done` once it is stored again or the method ends. -/
structure Account (b : Body) (pending : List Line → Local → Nat × Nat → Prop)
    (done : Nat × Nat → Prop) : Prop where
  new : ∀ before store mid load back v, b.lines = before ++ store :: (mid ++ load :: back) →
    b.InStretch (before ++ store :: mid) load → store.insn.stores? = some v →
    load.insn.loads? = some v →
    (∀ x ∈ mid, Passing b x) → pending (before ++ store :: (mid ++ [load])) v (store.tag, load.tag)
  pass : ∀ front l back v pair, b.lines = front ++ l :: back → b.InStretch front l →
    l.insn.stores? ≠ some v →
    l.insn.loads? ≠ some v → pending front v pair → pending (front ++ [l]) v pair
  drop : ∀ front l back v pair, b.lines = front ++ l :: back → b.InStretch front l →
    l.insn.stores? = some v ∨ l.insn.fallsThrough = false → pending front v pair → done pair

/-- Pairs are dropped as a whole, and only when they are done. -/
def Dropped (done : Nat × Nat → Prop) (dropped : Std.HashSet Nat) : Prop :=
  ∀ tag, dropped.contains tag = true → ∃ pair : Nat × Nat, done pair ∧
    (tag = pair.1 ∨ tag = pair.2) ∧
    dropped.contains pair.1 = true ∧ dropped.contains pair.2 = true

structure Noted (b : Body) (pending : List Line → Local → Nat × Nat → Prop)
    (done : Nat × Nat → Prop) (front : List Line) (s : PruneStoreLoads.State) : Prop where
  last : ∀ tag v, s.last = some (tag, v) → ∃ before store mid, front = before ++ store :: mid ∧
    store.tag = tag ∧
    store.insn.stores? = some v ∧ ∀ x ∈ mid, Passing b x
  pairs : ∀ (v : Local) (pair : Nat × Nat), s.pairs[v]? = some pair → pending front v pair
  dropped : Dropped done s.dropped

variable {pending : List Line → Local → Nat × Nat → Prop} {done : Nat × Nat → Prop}

theorem Dropped.drop {dropped : Std.HashSet Nat} {pair : Nat × Nat} (known : Dropped done dropped)
    (finished : done pair) :
    Dropped done (drop dropped pair) := by
  intro tag inside
  simp only [PruneStoreLoads.drop, Std.HashSet.contains_insert, Bool.or_eq_true,
    beq_iff_eq] at inside ⊢
  rcases inside with same | same | before
  · exact ⟨pair, finished, .inr same.symm, .inr (.inl rfl), .inl rfl⟩
  · exact ⟨pair, finished, .inl same.symm, .inr (.inl rfl), .inl rfl⟩
  · obtain ⟨pair', finished', which, first, second⟩ := known tag before
    exact ⟨pair', finished', which, .inr (.inr first), .inr (.inr second)⟩

section Visit

variable (account : Account b pending done) (noted : Noted b pending done front s)
  (split : b.lines = front ++ l :: back)
variable (inside : b.InStretch front l)

include account noted split inside

theorem noted_leave (ends : l.insn.fallsThrough = false) :
    Noted b pending done (front ++ [l]) (leave s) := by
  refine ⟨by simp [leave], by simp [leave],
    fold_invariant s.pairs (P := Dropped done) noted.dropped ?_⟩
  exact fun dropped v pair found known =>
    known.drop (account.drop _ _ _ v pair split inside (.inr ends) (noted.pairs v pair found))

theorem noted_visit : Noted b pending done (front ++ [l]) (visit s l) := by
  have passed {v : Local} {pair : Nat × Nat} (found : s.pairs[v]? = some pair)
      (unstored : l.insn.stores? ≠ some v)
      (unloaded : l.insn.loads? ≠ some v) : pending (front ++ [l]) v pair :=
    account.pass _ _ _ v pair split inside unstored unloaded (noted.pairs v pair found)
  cases insn : l.insn with
  | label q =>
    simp only [visit, insn]
    refine ⟨fun tag v last => ?_, fun v pair found => passed found ?_ ?_, noted.dropped⟩
    · obtain ⟨before, store, mid, rfl, same, stores, labels⟩ := noted.last tag v last
      refine ⟨before, store, mid ++ [l], by simp, same, stores, fun x member => ?_⟩
      rcases List.mem_append.1 member with earlier | here
      · exact labels x earlier
      · cases List.mem_singleton.1 here
        exact ⟨⟨q, insn⟩, inside.entry⟩
    · simp [insn, Insn.stores?]
    · simp [insn, Insn.loads?]
  | access a =>
    have erased : ∀ (v : Local) (pair : Nat × Nat), (s.pairs.erase a.var)[v]? = some pair →
        pending (front ++ [l]) v pair := by
      intro v pair found
      obtain ⟨other, found⟩ := erase_cases found
      refine passed found (fun stores => other ?_) (fun loads => other ?_)
      · exact (by simpa [insn, Insn.stores?] using stores : a.isStore = true ∧ a.var = v).2.symm
      · exact (by simpa [insn, Insn.loads?] using loads : a.isStore = false ∧ a.var = v).2.symm
    cases isStore : a.isStore with
    | true =>
      have stores : l.insn.stores? = some a.var := by simp [insn, Insn.stores?, isStore]
      simp only [visit, insn, isStore, if_true]
      refine ⟨fun tag v last => ?_, erased, ?_⟩
      · cases last
        exact ⟨front, l, [], rfl, rfl, stores, by simp⟩
      · dsimp only
        split
        next pair found =>
          exact noted.dropped.drop
            (account.drop _ _ _ _ pair split inside (.inl stores) (noted.pairs _ pair found))
        next => exact noted.dropped
    | false =>
      have loads : l.insn.loads? = some a.var := by simp [insn, Insn.loads?, isStore]
      simp only [visit, insn, isStore, Bool.false_eq_true, if_false]
      split
      next store var last =>
        refine ⟨by simp, ?_, noted.dropped⟩
        dsimp only
        split
        next same =>
          subst same
          intro v pair found
          rcases insert_cases found with ⟨rfl, rfl⟩ | ⟨_, found⟩
          · obtain ⟨before, first, mid, rfl, rfl, stores, labels⟩ := noted.last store _ last
            rw [List.append_assoc, List.cons_append]
            exact account.new before first mid l back _ (by simp [split]) inside stores loads labels
          · exact erased v pair found
        next => exact erased
      next none => exact ⟨fun tag v last => by simp [none] at last, erased, noted.dropped⟩
  | literal | constant | plain | jump | switch =>
    simp only [visit, insn]
    exact ⟨by simp, fun v pair found => passed found (by simp [insn, Insn.stores?])
      (by simp [insn, Insn.loads?]), noted.dropped⟩

end Visit

theorem noted_walk (account : Account b pending done) :
    Noted b pending done b.lines (walker.walk b .start) := by
  refine walker.walk_along (Noted b pending done)
    (fun s => s.pairs = ∅ ∧ s.last = none) ?_ ?_ ?_ ?_ ?_
  · exact ⟨by simp [State.start], by simp [State.start], by simp [State.start, Dropped]⟩
  · exact fun front s noted =>
      ⟨⟨by simp [walker, forget], by simp [walker, forget], noted.dropped⟩, rfl, rfl⟩
  · exact fun front l back s _ noted blank => ⟨by simp [blank.2], by simp [blank.1], noted.dropped⟩
  · exact fun front l back s split inside ends noted => noted_leave account noted split inside ends
  · exact fun front l back s split inside _ noted => noted_visit account noted split inside

/-- The tags of a store and of a load of the same local, between which there are only labels that
nothing jumps to. -/
def Spans (b : Body) (pair : Nat × Nat) : Prop :=
  ∃ front first mid last back, b.lines = front ++ first :: (mid ++ last :: back) ∧
    first.Bridge (fun x => b.isTarget x = false) mid last ∧ first.tag = pair.1 ∧ last.tag = pair.2

theorem account_spans (b : Body) : Account b (fun _ _ => Spans b) (Spans b) where
  new before store mid load back v split _ stores loads labels :=
    ⟨before, store, mid, load, back, split, ⟨⟨v, stores, loads⟩, labels⟩, rfl, rfl⟩
  pass _ _ _ _ _ _ _ _ _ spans := spans
  drop _ _ _ _ _ _ _ _ spans := spans

end PruneStoreLoads

end Restack
