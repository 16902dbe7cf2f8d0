import Mathlib.Logic.Relation
import Restack.Proofs.Batch.Workers
import Restack.Proofs.Success

set_option autoImplicit false

namespace Restack.Batch

variable {catalogs : List Register.Catalog} {workers : Nat} {o : Options} {f : Floor}

namespace Floor

def Ends (o : Options) (lenient : Bool) (catalogs : List Register.Catalog) (workers : Nat)
    (f : Floor) : Prop :=
  f.Finished ∧ ∃ forward retries, Reaches o lenient catalogs workers forward retries f

section Ends

variable {o : Options} {lenient : Bool} {catalogs : List Register.Catalog} {workers : Nat}
  {f : Floor}

theorem Finished.settled (finished : f.Finished) :
    f.workers.flatMap Phase.jobs = [] ∧ f.workers.flatMap Phase.untold = [] := by
  constructor <;>
  · rw [List.flatMap_eq_nil_iff]
    intro phase member
    rw [finished phase member]
    rfl

theorem Reaches.workers_ne_nil {forward retries : Nat}
    (reached : Reaches o lenient catalogs workers forward retries f) :
    f.workers ≠ [] := by
  induction reached with
  | start =>
    simp only [Floor.start, ne_eq, List.replicate_eq_nil_iff]
    omega
  | forward _ advances => obtain ⟨⟩ := advances; simp
  | again _ retry => obtain ⟨⟩ := retry; simp

theorem Ends.exists_order (ends : Ends o lenient catalogs workers f) :
    ∃ order rest, f.ledger = .after o lenient order ∧ (order ++ rest).Perm (jobs catalogs) ∧
      (f.ledger.failure = none → rest = []) := by
  obtain ⟨finished, forward, retries, reached⟩ := ends
  have sound := reached.sound
  obtain ⟨order, same, perm⟩ := sound.accounted
  rw [finished.settled.1, List.append_nil] at perm
  refine ⟨order, f.desk.pending, same, perm, fun calm => ?_⟩
  obtain ⟨phase, member⟩ := List.exists_mem_of_ne_nil _ reached.workers_ne_nil
  have stopped := finished phase member ▸ member
  exact sound.drained stopped (by rw [sound.cancelled, calm]; rfl)

theorem Ends.announced (ends : Ends o lenient catalogs workers f) :
    f.desk.run.done.toList.Perm f.ledger.classes.toList := by
  obtain ⟨finished, forward, retries, reached⟩ := ends
  have announced := reached.sound.announced
  rwa [finished.settled.2, List.append_nil] at announced

theorem Ends.order_of_lenient (ends : Ends o true catalogs workers f) :
    ∃ order, f.ledger = .after o true order ∧ order.Perm (jobs catalogs) ∧
    f.ledger.failure = none := by
  obtain ⟨order, rest, same, perm, all⟩ := ends.exists_order
  have calm : f.ledger.failure = none := by
    rw [Option.eq_none_iff_forall_ne_some]
    intro fault failed
    cases ((Ledger.accounts_after o true order).failure fault (same ▸ failed)).1
  rw [all calm, List.append_nil] at perm
  exact ⟨order, same, perm, calm⟩

end Ends

end Floor

/-- What a run that lets failures pass has to deliver: every class is counted, each name is in one
of the two tables with the outcome of one of its classes, every further class is a warning, and
every written class was announced once. -/
structure Run.Complete (o : Options) (all : List Job) (r : Run) : Prop where
  processed : r.ledger.processed = all.length
  classes : ∀ name bytes, r.ledger.classes[name]? = some bytes → ∃ j ∈ all, j.fileName = name ∧
    j.write o = .ok bytes
  errors : ∀ name f, r.ledger.errors[name]? = some f → ∃ j ∈ all, j.fileName = name ∧
    j.write o = .error f
  once : ∀ j ∈ all, Xor (j.fileName ∈ r.ledger.classes) (j.fileName ∈ r.ledger.errors)
  warnings : ∀ name : String, r.ledger.warnings[name]? = Ledger.repeats name (Ledger.count name all)
  announced : r.done.toList.Perm r.ledger.classes.toList

theorem Floor.Ends.complete (ends : f.Ends o true catalogs workers) :
    f.desk.run.Complete o (jobs catalogs) := by
  obtain ⟨order, same, perm, -⟩ := ends.order_of_lenient
  have same : f.desk.run.ledger = .after o true order := same
  have accounts := Ledger.accounts_after o true order
  have owned := Ledger.owned_after o order
  have announced := ends.announced
  rw [Floor.ledger] at announced
  rw [← same] at accounts owned
  refine ⟨accounts.processed.trans perm.length_eq, ?_, ?_, ?_, ?_, announced⟩
  · intro name bytes found
    obtain ⟨j, member, rest⟩ := accounts.classes name bytes found
    exact ⟨j, perm.mem_iff.1 member, rest⟩
  · intro name fault found
    obtain ⟨-, j, member, rest⟩ := accounts.errors name fault found
    exact ⟨j, perm.mem_iff.1 member, rest⟩
  · intro j member
    have taken :=
      (owned.taken j.fileName).2 (Ledger.count_pos_iff.2 ⟨j, perm.mem_iff.2 member, rfl⟩)
    have found := (Ledger.isTaken_iff _ _).1 taken
    have apart := accounts.apart j.fileName
    rw [Std.TreeMap.mem_iff_isSome_getElem?, Std.TreeMap.mem_iff_isSome_getElem?, Xor]
    rcases apart with none | none <;> simp_all
  · intro name
    rw [owned.warnings, Ledger.count, perm.countP_eq, Ledger.count]

section InOrder

open Relation

variable {o : Options} {lenient : Bool} {total : Nat}

theorem Floor.Reaches.trans {forward retries : Nat} {g : Floor}
    (reached : f.Reaches o lenient catalogs workers forward retries)
    (more : ReflTransGen (Floor.Advances o lenient (jobs catalogs).length) f g) :
    ∃ forward, g.Reaches o lenient catalogs workers forward retries := by
  induction more with
  | refl => exact ⟨forward, reached⟩
  | tail _ advances ih =>
    obtain ⟨forward, reached⟩ := ih
    exact ⟨forward + 1, reached.forward advances⟩

theorem Works.first {d d' : Desk} {phase phase' : Phase}
    (works : Works o lenient total d phase d' phase') (others : List Phase) :
    Floor.Advances o lenient total ⟨d, phase :: others⟩ ⟨d', phase' :: others⟩ :=
  show Floor.Advances o lenient total ⟨d, [] ++ phase :: others⟩
    ⟨d', [] ++ phase' :: others⟩ from .works works

theorem Works.takeNext (j : Job) (rest : List Job) (cancelled : Bool) (r : Run) :
    Works o lenient total ⟨j :: rest, cancelled, r⟩ .taking ⟨rest, cancelled, r⟩ (.checking j) := by
  have split : (Desk.mk (j :: rest) cancelled r).pending = [] ++ j :: rest := rfl
  exact .take split

theorem tells (d : Desk) (notes : List Note) (others : List Phase) :
    ReflTransGen (Floor.Advances o lenient total) ⟨d, .telling notes :: others⟩
      ⟨{ d with run := notes.foldl Run.tell d.run }, .idle :: others⟩ := by
  induction notes generalizing d with
  | nil => exact .single (Works.next.first others)
  | cons note notes ih => exact .head (Works.tell.first others) (ih _)

theorem ledger_tells (r : Run) (notes : List Note) :
    (notes.foldl Run.tell r).ledger = r.ledger := by
  induction notes generalizing r with
  | nil => rfl
  | cons note notes ih => rw [List.foldl_cons, ih, Run.ledger_tell]

theorem processes {r : Run} (calm : r.ledger.failure = none) (j : Job) (rest : List Job)
    (others : List Phase) :
    ReflTransGen (Floor.Advances o lenient total) ⟨⟨j :: rest, false, r⟩, .idle :: others⟩
      ⟨⟨rest, (step o lenient total r j).ledger.failure.isSome, step o lenient total r j⟩,
        .idle :: others⟩ := by
  obtain ⟨outcome, same⟩ : ∃ outcome,
    (if r.ledger.isTaken j.fileName then none else some (j.write o)) = outcome :=
    ⟨_, rfl⟩
  have taken : ReflTransGen (Floor.Advances o lenient total)
      ⟨⟨j :: rest, false, r⟩, .idle :: others⟩
      ⟨⟨rest, false, r⟩, .checking j :: others⟩ :=
    .head ((Works.look rfl).first others) (.single ((Works.takeNext j rest false r).first others))
  have tried : ReflTransGen (Floor.Advances o lenient total)
      ⟨⟨rest, false, r⟩, .checking j :: others⟩
      ⟨⟨rest, false, r⟩, .committing j outcome :: others⟩ := by
    subst same
    split
    case isTrue owned => exact .single ((Works.skip owned).first others)
    case isFalse free =>
      exact .head ((Works.begin (by simpa using free)).first others)
        (.single (Works.write.first others))
  have stepped : step o lenient total r j =
      (r.ledger.notes lenient total j.fileName outcome).foldl Run.tell
      { r with ledger := r.ledger.commit lenient j.fileName outcome } := by
    rw [step, calm, same]
    rfl
  have stops : (step o lenient total r j).ledger.failure.isSome =
      r.ledger.stops lenient j.fileName outcome := by
    rw [stepped, ledger_tells, Ledger.isSome_failure_commit, calm]
    rfl
  rw [stops, stepped]
  exact (taken.trans tried).trans (.head (Works.commit.first others) (tells _ _ others))

theorem step_of_failure {r : Run} (failed : r.ledger.failure.isSome = true) (order : List Job) :
    order.foldl (step o lenient total) r = r := by
  induction order with
  | nil => rfl
  | cons j rest ih => rw [List.foldl_cons, step, if_pos failed, ih]

theorem processes_all (r : Run) (order : List Job) (others : List Phase) :
    ∃ left, ReflTransGen (Floor.Advances o lenient total)
      ⟨⟨order, r.ledger.failure.isSome, r⟩, .idle :: others⟩
        ⟨⟨left, (order.foldl (step o lenient total) r).ledger.failure.isSome,
          order.foldl (step o lenient total) r⟩, .idle :: others⟩ ∧
      ((order.foldl (step o lenient total) r).ledger.failure.isSome = false → left = []) := by
  induction order generalizing r with
  | nil => exact ⟨[], .refl, fun _ => rfl⟩
  | cons j rest ih =>
    cases failed : r.ledger.failure.isSome with
    | true =>
      rw [step_of_failure failed, failed]
      exact ⟨j :: rest, .refl, fun going => by cases going⟩
    | false =>
      obtain ⟨left, more, drained⟩ := ih (step o lenient total r j)
      exact ⟨left, (processes (by simpa using failed) j rest others).trans more, drained⟩

theorem all_stop {d : Desk} (idle : d.cancelled = false → d.pending = []) (stopped : List Phase)
    (n : Nat) :
    ReflTransGen (Floor.Advances o lenient total) ⟨d, stopped ++ List.replicate n .idle⟩
      ⟨d, stopped ++ List.replicate n .stopped⟩ := by
  induction n generalizing stopped with
  | zero => exact .refl
  | succ n ih =>
    have more := ih (stopped ++ [.stopped])
    simp only [List.append_assoc, List.singleton_append] at more
    rw [List.replicate_succ, List.replicate_succ]
    cases going : d.cancelled with
    | true => exact .head (.works (.leave going)) more
    | false => exact .head (.works (.look going)) (.head (.works (.empty (idle going))) more)

theorem exists_ends_run (o : Options) (lenient : Bool) (catalogs : List Register.Catalog)
    (workers : Nat) :
    ∃ f : Floor, f.Ends o lenient catalogs workers ∧
      f.desk.run.finish (jobs catalogs).length = run catalogs o lenient := by
  let all := jobs catalogs
  obtain ⟨n, count⟩ := Nat.exists_eq_add_of_le' (Nat.le_max_left 1 (min workers (max 1 all.length)))
  obtain ⟨left, processed, drained⟩ :=
    @processes_all o lenient all.length (.start all.length) all (List.replicate n .idle)
  have stopped :=
    @all_stop o lenient all.length
      ⟨left, _, all.foldl (step o lenient all.length) (.start all.length)⟩
    drained [] (n + 1)
  have begun : Floor.start catalogs workers =
      ⟨⟨all, false, .start all.length⟩, .idle :: List.replicate n .idle⟩ := by
    rw [Floor.start, count]
    rfl
  obtain ⟨forward, reached⟩ := Floor.Reaches.start.trans (begun ▸ processed.trans stopped)
  refine ⟨_, ⟨fun phase member => List.eq_of_mem_replicate member, forward, 0, reached⟩, rfl⟩

end InOrder

theorem Floor.Ends.result_of_strict (ends : f.Ends o false catalogs workers) :
    (∃ j ∈ jobs catalogs, ∃ fault, f.result = .error fault ∧ j.write o = .error fault) ∨
      f.result = .ok f.ledger ∧
        ∀ j ∈ jobs catalogs, ∃ k ∈ jobs catalogs, k.fileName = j.fileName ∧
        ∃ bytes, k.write o = .ok bytes := by
  obtain ⟨order, rest, same, perm, all⟩ := ends.exists_order
  have accounts := Ledger.accounts_after o false order
  cases failure : f.ledger.failure with
  | some fault =>
    obtain ⟨-, j, member, failed⟩ := accounts.failure fault (same ▸ failure)
    exact .inl
      ⟨j, perm.mem_iff.1 (List.mem_append_left _ member), fault, by rw [result, failure], failed⟩
  | none =>
    rw [all failure, List.append_nil] at perm
    refine .inr ⟨by rw [result, failure], fun j member => ?_⟩
    obtain ⟨bytes, found⟩ := Ledger.written_of_strict (same ▸ failure) j (perm.mem_iff.2 member)
    obtain ⟨k, other, name, done⟩ := accounts.classes _ _ found
    exact ⟨k, perm.mem_iff.1 other, name, bytes, done⟩

theorem Floor.Ends.strict_iff (ends : f.Ends o false catalogs workers)
    (distinct : ((jobs catalogs).map Job.fileName).Nodup) :
    (∃ fault, f.result = .error fault) ↔ ∃ j ∈ jobs catalogs, ∃ fault,
      j.write o = .error fault := by
  rcases ends.result_of_strict with ⟨j, member, fault, stopped, failed⟩ | ⟨done, written⟩
  · exact ⟨fun _ => ⟨j, member, fault, failed⟩, fun _ => ⟨fault, stopped⟩⟩
  · refine ⟨?_, ?_⟩
    · rintro ⟨fault, stopped⟩
      rw [done] at stopped
      cases stopped
    · rintro ⟨j, member, fault, failed⟩
      obtain ⟨k, other, name, bytes, done⟩ := written j member
      rw [List.inj_on_of_nodup_map distinct other member name, failed] at done
      cases done

theorem Floor.Ends.listing_eq {workers' : Nat} {g : Floor} (ends : f.Ends o true catalogs workers)
    (ends' : g.Ends o true catalogs workers')
    (distinct : ((jobs catalogs).map Job.fileName).Nodup) :
    f.ledger.listing = g.ledger.listing := by
  obtain ⟨order, same, perm, -⟩ := ends.order_of_lenient
  obtain ⟨order', same', perm', -⟩ := ends'.order_of_lenient
  rw [same, same']
  exact Ledger.listing_perm ((perm.map _).nodup_iff.2 distinct) (perm.trans perm'.symm)

/-- Every run comes to an end. One that lets failures pass accounts for all classes. With different
names the result does not depend on the interleaving or the number of workers, and a strict run
fails exactly if a class does, with the fault of such a class. Processing in order is one of the
interleavings. -/
theorem interleavings_agree (o : Options) (catalogs : List Register.Catalog) :
    (∀ lenient workers forward retries f,
      Floor.Reaches o lenient catalogs workers forward retries f →
      forward ≤ (Floor.start catalogs workers).effort + retries ∧
        (f.Finished ∨ ∃ g, Floor.Reaches o lenient catalogs workers (forward + 1) retries g)) ∧
    (∀ lenient workers, ∃ f : Floor, f.Ends o lenient catalogs workers ∧
      f.desk.run.finish (jobs catalogs).length = run catalogs o lenient) ∧
    (∀ workers f, Floor.Ends o true catalogs workers f →
      f.result = .ok f.ledger ∧ f.desk.run.Complete o (jobs catalogs)) ∧
    (((jobs catalogs).map Job.fileName).Nodup →
      (∀ workers workers' f g, Floor.Ends o true catalogs workers f →
        Floor.Ends o true catalogs workers' g →
        f.ledger.listing = g.ledger.listing) ∧
      ∀ workers f, Floor.Ends o false catalogs workers f →
        ((∃ fault, f.result = .error fault) ↔ ∃ j ∈ jobs catalogs, ∃ fault,
          j.write o = .error fault) ∧
        ∀ fault, f.result = .error fault → ∃ j ∈ jobs catalogs, j.write o = .error fault) := by
  refine ⟨?_, (exists_ends_run o · catalogs ·), ?_, fun distinct => ⟨?_, ?_⟩⟩
  · intro lenient workers forward retries f reached
    have bound := reached.forward_le
    refine ⟨by omega, ?_⟩
    rcases f.finished_or_advances o lenient (jobs catalogs).length with finished | ⟨g, advances⟩
    · exact .inl finished
    · exact .inr ⟨g, reached.forward advances⟩
  · intro workers f ends
    obtain ⟨order, -, -, calm⟩ := ends.order_of_lenient
    exact ⟨by rw [Floor.result, calm], ends.complete⟩
  · intro workers workers' f g ends ends'
    exact ends.listing_eq ends' distinct
  · intro workers f ends
    refine ⟨ends.strict_iff distinct, fun fault stopped => ?_⟩
    rcases ends.result_of_strict with ⟨j, member, fault', stopped', failed⟩ | ⟨done, -⟩
    · rw [stopped] at stopped'
      cases stopped'
      exact ⟨j, member, failed⟩
    · rw [done] at stopped
      cases stopped

/-- Two files: one with a class that can be written, one with a class whose field has a value of the
wrong kind. -/
def mixedCatalogs : List Register.Catalog :=
  [{ classes := [⟨"A", 1, none, [], [], []⟩] },
    { classes := [⟨"B", 1, none, [], [⟨⟨"B", "x", "F"⟩, 8, some (.string "one")⟩], []⟩] }]

theorem mixedCatalogs_refused (o : Options) :
    let last := (jobs mixedCatalogs).getLast (by decide)
    ∃ fault, ClassFile.writeWith last.catalog o last.cls = .error fault := by
  intro last
  cases written : ClassFile.writeWith last.catalog o last.cls with
  | error fault => exact ⟨fault, rfl⟩
  | ok bytes =>
    -- The only field comes after the class, what it extends and its interfaces.
    obtain ⟨_, _, run, -⟩ :=
      ExceptT.exists_run_eq (m := ClassFile.afterPool last.catalog o .asListed last.cls) written
    rw [ClassFile.afterPool] at run
    obtain ⟨_, _, -, run⟩ := ExceptT.run_bind_eq_ok.1 run
    obtain ⟨_, _, -, run⟩ := ExceptT.run_bind_eq_ok.1 run
    obtain ⟨_, _, -, run⟩ := ExceptT.run_bind_eq_ok.1 run
    obtain ⟨_, _, run, -⟩ := ExceptT.run_bind_eq_ok.1 run
    obtain ⟨_, _, run, -⟩ := ExceptT.run_bind_eq_ok.1 run
    have run := ClassFile.withinPool_eq_ok run
    obtain ⟨_, _, -, run⟩ := ExceptT.run_bind_eq_ok.1 run
    obtain ⟨_, _, -, run⟩ := ExceptT.run_bind_eq_ok.1 run
    obtain ⟨_, _, -, run⟩ := ExceptT.run_bind_eq_ok.1 run
    obtain ⟨_, _, run, -⟩ := ExceptT.run_bind_eq_ok.1 run
    cases run

theorem mixedCatalogs_agree :
    ((jobs mixedCatalogs).map Job.fileName).Nodup ∧
    (∃ f g : Floor, f.Ends .pretty true mixedCatalogs 3 ∧ g.Ends .pretty true mixedCatalogs 1 ∧
      f.ledger.listing = g.ledger.listing ∧ f.desk.run.Complete .pretty (jobs mixedCatalogs)) ∧
    ∃ f : Floor, f.Ends .pretty false mixedCatalogs 2 ∧ ∃ fault, f.result = .error fault := by
  have distinct : ((jobs mixedCatalogs).map Job.fileName).Nodup := by decide
  obtain ⟨-, sequential, complete, same⟩ := interleavings_agree .pretty mixedCatalogs
  obtain ⟨f, ends, -⟩ := sequential true 3
  obtain ⟨g, ends', -⟩ := sequential true 1
  obtain ⟨h, ends'', -⟩ := sequential false 2
  have fails : ∃ j ∈ jobs mixedCatalogs, ∃ fault, j.write .pretty = .error fault := by
    obtain ⟨first, failed⟩ := mixedCatalogs_refused .pretty
    obtain ⟨second, again⟩ := mixedCatalogs_refused .all
    refine ⟨_, List.getLast_mem (by decide : jobs mixedCatalogs ≠ []), ?_⟩
    rw [Job.write, ClassFile.write, failed]
    simp only [again]
    split <;> exact ⟨_, rfl⟩
  exact ⟨distinct, ⟨f, g, ends, ends', (same distinct).1 3 1 f g ends ends', (complete 3 f ends).2⟩,
    h, ends'', ((same distinct).2 2 h ends'').1.2 fails⟩

end Restack.Batch
