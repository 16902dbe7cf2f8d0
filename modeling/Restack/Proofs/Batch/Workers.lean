import Mathlib.Algebra.GroupWithZero.Nat
import Restack.Proofs.Batch.Ledger

set_option autoImplicit false

namespace Restack.Batch

variable {o : Options} {lenient : Bool}

inductive Phase where
  | idle
  | taking
  | checking (j : Job)
  | writing (j : Job)
  | committing (j : Job) (outcome : Option (Except Fault Bytes))
  | telling (notes : List Note)
  | stopped

/-- Whether an outcome stops the run: a class that gets its name failed, and failures are not let
pass. -/
def Ledger.stops (l : Ledger) (lenient : Bool) (name : String) : Option (Except Fault Bytes) → Bool
  | some (.error _) => !lenient && !l.isTaken name
  | _ => false

structure Desk where
  pending : List Job
  cancelled : Bool
  run : Run

/-- A step that brings the run forward. Reading and committing are single steps, as the ledger is
held meanwhile. Any pending class may be taken next. -/
inductive Works (o : Options) (lenient : Bool) (total : Nat) :
    Desk → Phase → Desk → Phase → Prop where
  | leave {d : Desk} (cancelled : d.cancelled = true) : Works o lenient total d .idle d .stopped
  | look {d : Desk} (going : d.cancelled = false) : Works o lenient total d .idle d .taking
  | take {d : Desk} {before after : List Job} {j : Job}
      (pending : d.pending = before ++ j :: after) :
      Works o lenient total d .taking { d with pending := before ++ after } (.checking j)
  | empty {d : Desk} (nothing : d.pending = []) : Works o lenient total d .taking d .stopped
  | skip {d : Desk} {j : Job} (taken : d.run.ledger.isTaken j.fileName = true) :
      Works o lenient total d (.checking j) d (.committing j none)
  | begin {d : Desk} {j : Job} (free : d.run.ledger.isTaken j.fileName = false) :
      Works o lenient total d (.checking j) d (.writing j)
  | write {d : Desk} {j : Job} :
      Works o lenient total d (.writing j) d (.committing j (some (j.write o)))
  | commit {d : Desk} {j : Job} {outcome : Option (Except Fault Bytes)} :
      Works o lenient total d (.committing j outcome)
        { d with
          run := { d.run with ledger := d.run.ledger.commit lenient j.fileName outcome }
          cancelled := d.cancelled || d.run.ledger.stops lenient j.fileName outcome }
        (.telling (d.run.ledger.notes lenient total j.fileName outcome))
  | tell {d : Desk} {note : Note} {notes : List Note} :
      Works o lenient total d (.telling (note :: notes)) { d with run := d.run.tell note }
        (.telling notes)
  | next {d : Desk} : Works o lenient total d (.telling []) d .idle

structure Floor where
  desk : Desk
  workers : List Phase

namespace Floor

def ledger (f : Floor) : Ledger := f.desk.run.ledger

/-- As many idle workers as asked for, but at least one and no more than there are classes. -/
def start (catalogs : List Register.Catalog) (workers : Nat) : Floor :=
  let all := jobs catalogs
  ⟨⟨all, false, .start all.length⟩, List.replicate (max 1 (min workers (max 1 all.length))) .idle⟩

inductive Advances (o : Options) (lenient : Bool) (total : Nat) : Floor → Floor → Prop where
  | works {d d' : Desk} {before after : List Phase} {phase phase' : Phase}
      (works : Works o lenient total d phase d' phase') :
      Advances o lenient total ⟨d, before ++ phase :: after⟩ ⟨d', before ++ phase' :: after⟩

inductive Retries : Floor → Floor → Prop where
  | again {d : Desk} {before after : List Phase} :
      Retries ⟨d, before ++ .taking :: after⟩ ⟨d, before ++ .idle :: after⟩

/-- Everything that some interleaving of the workers leads to, with so many steps forward and so
many retries. -/
inductive Reaches (o : Options) (lenient : Bool) (catalogs : List Register.Catalog)
    (workers : Nat) :
    Nat → Nat → Floor → Prop where
  | start : Reaches o lenient catalogs workers 0 0 (.start catalogs workers)
  | forward {forward retries : Nat} {f g : Floor}
      (reached : Reaches o lenient catalogs workers forward retries f)
      (advances : Advances o lenient (jobs catalogs).length f g) :
      Reaches o lenient catalogs workers (forward + 1) retries g
  | again {forward retries : Nat} {f g : Floor}
      (reached : Reaches o lenient catalogs workers forward retries f) (retry : Retries f g) :
      Reaches o lenient catalogs workers forward (retries + 1) g

def Finished (f : Floor) : Prop := ∀ phase ∈ f.workers, phase = .stopped

def result (f : Floor) : Except Fault Ledger :=
  match f.ledger.failure with
  | some fault => .error fault
  | none => .ok f.ledger

end Floor

theorem Ledger.isSome_failure_commit (l : Ledger) (lenient : Bool) (name : String)
    (outcome : Option (Except Fault Bytes)) :
    (l.commit lenient name outcome).failure.isSome =
      (l.failure.isSome || l.stops lenient name outcome) := by
  cases outcome with
  | none => simp [commit, enter, warn, stops]
  | some result =>
    cases free : l.isTaken name <;> cases result <;> cases lenient <;> simp [commit, enter, warn,
      stops, free]

namespace Run

@[simp] theorem ledger_tell (r : Run) (note : Note) : (r.tell note).ledger = r.ledger := by
  cases note <;> rfl

theorem done_tell (r : Run) (note : Note) :
    (r.tell note).done.toList = r.done.toList ++ Note.finished [note] := by
  cases note <;> simp [tell, Note.finished]

end Run

namespace Phase

/-- The class that a worker has taken and not yet committed. -/
def jobs : Phase → List Job
  | .checking j => [j]
  | .writing j => [j]
  | .committing j _ => [j]
  | _ => []

/-- The classes that a worker has committed and not yet announced. -/
def untold : Phase → List (String × Bytes)
  | .telling notes => Note.finished notes
  | _ => []

/-- What a worker is about to commit is what becomes of the class, or its name is taken. -/
def Honest (o : Options) (l : Ledger) : Phase → Prop
  | .committing j none => l.isTaken j.fileName = true
  | .committing j (some result) => result = j.write o
  | _ => True

theorem Honest.commit_eq_record {l : Ledger} {j : Job} {outcome : Option (Except Fault Bytes)}
    (honest : (Phase.committing j outcome).Honest o l) (lenient : Bool) :
    l.commit lenient j.fileName outcome = l.record o lenient j := by
  cases outcome with
  | none => exact Ledger.commit_none honest lenient _
  | some result => rw [show result = j.write o from honest]; rfl

theorem Honest.record {l : Ledger} {phase : Phase} (honest : phase.Honest o l) (lenient : Bool)
    (j : Job) :
    phase.Honest o (l.record o lenient j) := by
  match phase, honest with
  | .committing k none, honest => exact (l.isTaken_record o lenient j _).2 (.inl honest)
  | .committing k (some result), honest => exact honest
  | .idle, _ | .taking, _ | .checking _, _ | .writing _, _ | .telling _, _ | .stopped, _ => trivial

end Phase

namespace Floor

/-- What every interleaving keeps to. -/
structure Sound (o : Options) (lenient : Bool) (all : List Job) (f : Floor) : Prop where
  /-- The ledger is that of the committed classes in the order of their commits; no class is lost.
  -/
  accounted : ∃ order, f.ledger = .after o lenient order ∧
    (order ++ f.workers.flatMap Phase.jobs ++ f.desk.pending).Perm all
  honest : ∀ phase ∈ f.workers, phase.Honest o f.ledger
  announced : (f.desk.run.done.toList ++ f.workers.flatMap Phase.untold).Perm
    f.ledger.classes.toList
  cancelled : f.desk.cancelled = f.ledger.failure.isSome
  drained : Phase.stopped ∈ f.workers → f.desk.cancelled = false → f.desk.pending = []

theorem sound_start (o : Options) (lenient : Bool) (catalogs : List Register.Catalog)
    (workers : Nat) :
    Sound o lenient (jobs catalogs) (start catalogs workers) where
  accounted := ⟨[], rfl, by simp [start, List.flatMap_replicate, Phase.jobs]⟩
  honest phase member := by
    rw [List.eq_of_mem_replicate member]
    trivial
  announced := by
    rw [start, List.flatMap_replicate, show Phase.untold .idle = [] from rfl,
      List.flatten_replicate_nil]
    exact .nil
  cancelled := rfl
  drained member := by cases List.eq_of_mem_replicate member

section Step

variable {o : Options} {lenient : Bool} {total : Nat} {all : List Job} {d d' : Desk}
  {before after : List Phase}
  {phase phase' : Phase}

section Works

variable (works : Works o lenient total d phase d' phase')
include works

section

variable (sound : Sound o lenient all ⟨d, before ++ phase :: after⟩)
include sound

theorem accounted_works :
    ∃ order, d'.run.ledger = .after o lenient order ∧
      (order ++ (before ++ phase' :: after).flatMap Phase.jobs ++ d'.pending).Perm all := by
  classical
  obtain ⟨order, same, perm⟩ := sound.accounted
  simp only [List.flatMap_append, List.flatMap_cons] at perm ⊢
  cases works with
  | leave | look | empty | skip | begin | write | next => exact ⟨order, same, perm⟩
  | tell => exact ⟨order, by rw [Run.ledger_tell]; exact same, perm⟩
  | take pending =>
    refine ⟨order, same, List.Perm.trans ?_ perm⟩
    simp only [pending, List.perm_iff_count, Phase.jobs, List.count_append, List.count_cons,
      List.count_nil]
    omega
  | @commit j outcome =>
    have honest := sound.honest _ (List.mem_append_right _ List.mem_cons_self)
    refine ⟨order ++ [j], ?_, List.Perm.trans ?_ perm⟩
    · rw [Ledger.after_append_singleton, ← same]
      exact honest.commit_eq_record lenient
    · simp only [List.perm_iff_count, Phase.jobs, List.count_append, List.count_cons,
        List.count_nil]
      omega

theorem honest_works : ∀ p ∈ before ++ phase' :: after, p.Honest o d'.run.ledger := by
  have others (p : Phase) (member : p ∈ before ∨ p ∈ after) : p.Honest o d.run.ledger :=
    sound.honest p (by simpa using member.imp_right .inr)
  suffices ok : phase'.Honest o d'.run.ledger ∧ ∀ p : Phase, p.Honest o d.run.ledger →
      p.Honest o d'.run.ledger by
    intro p member
    rcases List.mem_append.1 member with early | member
    · exact ok.2 p (others p (.inl early))
    · rcases List.mem_cons.1 member with rfl | late
      · exact ok.1
      · exact ok.2 p (others p (.inr late))
  cases works with
  | leave | look | take | empty | begin | next => exact ⟨trivial, fun _ honest => honest⟩
  | skip taken => exact ⟨taken, fun _ honest => honest⟩
  | write => exact ⟨rfl, fun _ honest => honest⟩
  | tell => exact ⟨trivial, fun p honest => by rwa [Run.ledger_tell]⟩
  | @commit j outcome =>
    have honest := sound.honest _ (List.mem_append_right _ List.mem_cons_self)
    refine ⟨trivial, fun p other => ?_⟩
    rw [show d.run.ledger.commit lenient j.fileName outcome =
      _ from honest.commit_eq_record lenient]
    exact other.record lenient j

theorem announced_works :
    (d'.run.done.toList ++ (before ++ phase' :: after).flatMap Phase.untold).Perm
      d'.run.ledger.classes.toList := by
  have perm := sound.announced
  simp only [List.flatMap_append, List.flatMap_cons] at perm ⊢
  cases works with
  | leave | look | take | empty | skip | begin | write | next => exact perm
  | @tell note notes =>
    rw [Run.ledger_tell, Run.done_tell]
    refine List.Perm.trans ?_ perm
    rw [show note :: notes = [note] ++ notes from rfl]
    simp only [List.perm_iff_count, Phase.untold, Note.finished_append, List.count_append]
    omega
  | @commit j outcome =>
    refine List.Perm.trans ?_ (d.run.ledger.classes_commit lenient total j.fileName outcome).symm
    refine List.Perm.trans ?_ (perm.append_right _)
    simp only [List.perm_iff_count, Phase.untold, List.count_append, List.count_nil]
    omega

end

theorem cancelled_works (same : d.cancelled = d.run.ledger.failure.isSome) :
    d'.cancelled = d'.run.ledger.failure.isSome := by
  cases works with
  | leave | look | take | empty | skip | begin | write | next => exact same
  | tell => rw [Run.ledger_tell]; exact same
  | commit => rw [Ledger.isSome_failure_commit, ← same]

theorem drained_works (sound : Sound o lenient all ⟨d, before ++ phase :: after⟩)
    (stopped : Phase.stopped ∈ before ++ phase' :: after) (going : d'.cancelled = false) :
    d'.pending = [] := by
  have others (member : Phase.stopped ∈ before ∨ Phase.stopped ∈ after)
      (going : d.cancelled = false) : d.pending = [] :=
    sound.drained (by simpa using member.imp_right .inr) going
  have stopped : Phase.stopped ∈ before ∨ Phase.stopped ∈ after ∨ phase' = .stopped := by
    simp only [List.mem_append, List.mem_cons] at stopped
    tauto
  cases works with
  | leave cancelled => rw [cancelled] at going; cases going
  | empty nothing => exact nothing
  | take pending =>
    have none := others (by simpa using stopped) going
    rw [pending] at none
    simp at none
  | commit => exact others (by simpa using stopped) (Bool.or_eq_false_iff.1 going).1
  | look | skip | begin | write | tell | next => exact others (by simpa using stopped) going

end Works

theorem Sound.advances {f g : Floor} (sound : Sound o lenient all f)
    (advances : Advances o lenient total f g) :
    Sound o lenient all g := by
  obtain ⟨works⟩ := advances
  exact ⟨accounted_works works sound, honest_works works sound, announced_works works sound,
    cancelled_works works sound.cancelled, drained_works works sound⟩

theorem Sound.retries {f g : Floor} (sound : Sound o lenient all f) (retries : Retries f g) :
    Sound o lenient all g := by
  obtain @⟨d, before, after⟩ := retries
  obtain ⟨order, same, perm⟩ := sound.accounted
  refine ⟨⟨order, same, ?_⟩, ?_, ?_, sound.cancelled, ?_⟩
  · simpa [Phase.jobs] using perm
  · intro phase member
    have members : phase ∈ before ++ .taking :: after ∨ phase = .idle := by
      simp only [List.mem_append, List.mem_cons] at member ⊢
      tauto
    rcases members with member | rfl
    · exact sound.honest phase member
    · trivial
  · simpa [Phase.untold, ledger] using sound.announced
  · simpa using sound.drained

end Step

theorem Reaches.sound {catalogs : List Register.Catalog} {workers forward retries : Nat} {f : Floor}
    (reached : Reaches o lenient catalogs workers forward retries f) :
    Sound o lenient (jobs catalogs) f := by
  induction reached with
  | start => exact sound_start o lenient catalogs workers
  | forward _ advances ih => exact ih.advances advances
  | again _ retry ih => exact ih.retries retry

end Floor

def Phase.effort : Phase → Nat
  | .stopped => 0
  | .taking => 1
  | .idle => 2
  | .telling notes => 3 + notes.length
  | .committing _ _ => 6
  | .writing _ => 7
  | .checking _ => 8

def Floor.effort (f : Floor) : Nat := 8 * f.desk.pending.length + (f.workers.map Phase.effort).sum

theorem Works.effort_lt {total : Nat} {d d' : Desk} {phase phase' : Phase}
    (works : Works o lenient total d phase d' phase') :
    8 * d'.pending.length + phase'.effort < 8 * d.pending.length + phase.effort := by
  cases works with
  | take pending =>
    simp only [pending, List.length_append, List.length_cons, Phase.effort]
    omega
  | @commit j outcome =>
    have few := d.run.ledger.length_notes_le lenient total j.fileName outcome
    simp only [Phase.effort]
    omega
  | leave | look | empty | skip | begin | write | tell | next => simp [Phase.effort]

theorem exists_works (o : Options) (lenient : Bool) (total : Nat) (d : Desk) {phase : Phase}
    (active : phase ≠ .stopped) : ∃ d' phase', Works o lenient total d phase d' phase' := by
  cases phase with
  | idle => cases going : d.cancelled with
    | true => exact ⟨_, _, .leave going⟩
    | false => exact ⟨_, _, .look going⟩
  | taking => cases pending : d.pending with
    | nil => exact ⟨_, _, .empty pending⟩
    | cons j rest => exact ⟨_, _, .take (pending.trans (List.nil_append _).symm)⟩
  | checking j => cases taken : d.run.ledger.isTaken j.fileName with
    | true => exact ⟨_, _, .skip taken⟩
    | false => exact ⟨_, _, .begin taken⟩
  | writing => exact ⟨_, _, .write⟩
  | committing => exact ⟨_, _, .commit⟩
  | telling notes => cases notes with
    | nil => exact ⟨_, _, .next⟩
    | cons => exact ⟨_, _, .tell⟩
  | stopped => exact absurd rfl active

namespace Floor

theorem Advances.effort_lt {total : Nat} {f g : Floor} (advances : Advances o lenient total f g) :
    g.effort < f.effort := by
  obtain ⟨works⟩ := advances
  have less := works.effort_lt
  simp only [effort, List.map_append, List.map_cons, List.sum_append, List.sum_cons]
  omega

theorem Retries.effort_eq {f g : Floor} (retries : Retries f g) : g.effort = f.effort + 1 := by
  obtain ⟨⟩ := retries
  simp only [effort, List.map_append, List.map_cons, List.sum_append, List.sum_cons, Phase.effort]
  omega

/-- Only retries can put off the end of a run, each by one step. -/
theorem Reaches.forward_le {catalogs : List Register.Catalog} {workers forward retries : Nat}
    {f : Floor} (reached : Reaches o lenient catalogs workers forward retries f) :
    forward + f.effort ≤ (Floor.start catalogs workers).effort + retries := by
  induction reached with
  | start => simp
  | forward _ advances ih =>
    have := advances.effort_lt
    omega
  | again _ retry ih =>
    have := retry.effort_eq
    omega

theorem finished_or_advances (o : Options) (lenient : Bool) (total : Nat) (f : Floor) :
    f.Finished ∨ ∃ g, Advances o lenient total f g := by
  by_cases finished : f.Finished
  · exact .inl finished
  · right
    simp only [Finished, not_forall] at finished
    obtain ⟨phase, member, active⟩ := finished
    obtain ⟨d', phase', works⟩ := exists_works o lenient total f.desk active
    obtain ⟨before, after, split⟩ := List.append_of_mem member
    obtain ⟨desk, workers⟩ := f
    cases split
    exact ⟨_, .works works⟩

end Floor

end Restack.Batch
