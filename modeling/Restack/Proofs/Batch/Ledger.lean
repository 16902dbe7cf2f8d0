import Mathlib.Data.List.Induction
import Mathlib.Data.List.Nodup
import Restack.Batch

set_option autoImplicit false

namespace Restack.Batch

variable {name : String} {l : Ledger}

namespace Ledger

variable {order : List Job} {o : Options}

def record (o : Options) (lenient : Bool) (l : Ledger) (j : Job) : Ledger :=
  l.commit lenient j.fileName (some (j.write o))

def after (o : Options) (lenient : Bool) (order : List Job) : Ledger :=
  order.foldl (record o lenient) .empty

@[simp] theorem after_nil (o : Options) (lenient : Bool) : after o lenient [] = .empty := rfl

theorem after_append_singleton (o : Options) (lenient : Bool) (order : List Job) (j : Job) :
    after o lenient (order ++ [j]) = (after o lenient order).record o lenient j := by
  rw [after, List.foldl_append]
  rfl

theorem commit_none (taken : l.isTaken name = true) (lenient : Bool) (result : Except Fault Bytes) :
    l.commit lenient name none = l.commit lenient name (some result) := by
  unfold commit enter
  simp only [taken, if_true]

inductive Recorded (o : Options) (lenient : Bool) (l : Ledger) (j : Job) : Ledger → Prop where
  | repeated (taken : l.isTaken j.fileName = true) :
      Recorded o lenient l j { l.warn j.fileName with processed := l.processed + 1 }
  | written (bytes : Bytes) (free : l.isTaken j.fileName = false) (done : j.write o = .ok bytes) :
      Recorded o lenient l j
        { l with classes := l.classes.insert j.fileName bytes, processed := l.processed + 1 }
  | failed (f : Fault) (free : l.isTaken j.fileName = false) (failed : j.write o = .error f)
      (mode : lenient = true) :
      Recorded o lenient l j
        { l with errors := l.errors.insert j.fileName f, processed := l.processed + 1 }
  | stopped (f : Fault) (free : l.isTaken j.fileName = false) (failed : j.write o = .error f)
      (mode : lenient = false) :
      Recorded o lenient l j
        { l with failure := some (l.failure.getD f), processed := l.processed + 1 }

theorem recorded (o : Options) (lenient : Bool) (l : Ledger) (j : Job) :
    Recorded o lenient l j (l.record o lenient j) := by
  cases free : l.isTaken j.fileName with
  | true =>
    have same : l.record o lenient j = { l.warn j.fileName with processed := l.processed + 1 } := by
      simp [record, commit, enter, free, warn]
    rw [same]
    exact .repeated free
  | false =>
    cases outcome : j.write o with
    | ok bytes =>
      have same : l.record o lenient j =
          { l with
            classes := l.classes.insert j.fileName bytes, processed := l.processed + 1 } := by
        simp [record, commit, enter, free, outcome]
      rw [same]
      exact .written bytes free outcome
    | error f =>
      cases mode : lenient with
      | true =>
        have same : l.record o true j =
            { l with errors := l.errors.insert j.fileName f, processed := l.processed + 1 } := by
          simp [record, commit, enter, free, outcome]
        rw [same]
        exact .failed f free outcome rfl
      | false =>
        have same : l.record o false j =
            { l with failure := some (l.failure.getD f), processed := l.processed + 1 } := by
          simp [record, commit, enter, free, outcome]
        rw [same]
        exact .stopped f free outcome rfl

theorem isTaken_iff (l : Ledger) (name : String) :
    l.isTaken name = true ↔ (l.classes[name]?).isSome = true ∨ (l.errors[name]?).isSome = true := by
  simp [isTaken]

theorem not_taken (free : l.isTaken name = false) :
    l.classes[name]? = none ∧ l.errors[name]? = none := by
  have none := (l.isTaken_iff name).not.1 (by simp [free])
  simpa using none

theorem isTaken_record (o : Options) (lenient : Bool) (l : Ledger) (j : Job) (name : String) :
    (l.record o lenient j).isTaken name = true ↔
      l.isTaken name = true ∨ j.fileName = name ∧
      (lenient = true ∨ ∃ bytes, j.write o = .ok bytes) := by
  have step := l.recorded o lenient j
  generalize l.record o lenient j = later at step
  cases step with
  | repeated taken =>
    refine ⟨.inl, ?_⟩
    rintro (before | ⟨rfl, -⟩)
    · exact before
    · exact taken
  | written bytes free done => grind [isTaken]
  | failed f free failed mode => grind [isTaken]
  | stopped f free failed mode => simp [isTaken, failed, mode]

def repeats (name : String) (classes : Nat) : Option (List String) :=
  if classes ≤ 1 then none
    else some (List.replicate (classes - 1) ("Duplicate class name " ++ name))

theorem getD_repeats (name : String) (classes : Nat) :
    (repeats name classes).getD [] =
      List.replicate (classes - 1) ("Duplicate class name " ++ name) := by
  unfold repeats
  split
  · simp [show classes - 1 = 0 by omega]
  · rfl

theorem repeats_append {classes : Nat} (positive : 0 < classes) :
    some ((repeats name classes).getD [] ++ ["Duplicate class name " ++ name]) =
      repeats name (classes + 1) := by
  obtain ⟨n, rfl⟩ : ∃ n, classes = n + 1 := ⟨classes - 1, by omega⟩
  rw [getD_repeats, repeats, if_neg (by omega), ← List.replicate_succ']
  rfl

def count (name : String) (order : List Job) : Nat := order.countP (·.fileName == name)

theorem count_append_singleton (name : String) (order : List Job) (j : Job) :
    count name (order ++ [j]) = count name order + if j.fileName = name then 1 else 0 := by
  simp [count, List.countP_cons]

theorem count_pos_iff : 0 < count name order ↔ ∃ j ∈ order, j.fileName = name := by
  simp [count, List.countP_pos_iff]

/-- What holds of a ledger in which classes were entered in some order. -/
structure Accounts (o : Options) (lenient : Bool) (order : List Job) (l : Ledger) : Prop where
  processed : l.processed = order.length
  /-- What is kept under a name is the outcome of a class of that name. -/
  classes : ∀ name bytes, l.classes[name]? = some bytes → ∃ j ∈ order, j.fileName = name ∧
    j.write o = .ok bytes
  errors : ∀ name f, l.errors[name]? = some f →
    lenient = true ∧ ∃ j ∈ order, j.fileName = name ∧ j.write o = .error f
  apart : ∀ name : String, l.classes[name]? = none ∨ l.errors[name]? = none
  failure : ∀ f, l.failure = some f → lenient = false ∧ ∃ j ∈ order, j.write o = .error f

theorem Accounts.mono {lenient : Bool} (accounts : Accounts o lenient order l) (j : Job) :
    Accounts o lenient (order ++ [j]) { l with processed := l.processed + 1 } where
  processed := by simp [accounts.processed]
  classes name bytes found := by
    obtain ⟨k, member, rest⟩ := accounts.classes name bytes found
    exact ⟨k, List.mem_append_left _ member, rest⟩
  errors name f found := by
    obtain ⟨mode, k, member, rest⟩ := accounts.errors name f found
    exact ⟨mode, k, List.mem_append_left _ member, rest⟩
  apart := accounts.apart
  failure f found := by
    obtain ⟨mode, k, member, rest⟩ := accounts.failure f found
    exact ⟨mode, k, List.mem_append_left _ member, rest⟩

theorem Accounts.record {lenient : Bool} (accounts : Accounts o lenient order l) (j : Job) :
    Accounts o lenient (order ++ [j]) (l.record o lenient j) := by
  have before := accounts.mono j
  have last : j ∈ order ++ [j] := by simp
  have step := l.recorded o lenient j
  generalize l.record o lenient j = later at step
  cases step with
  | repeated =>
    exact ⟨before.processed, before.classes, before.errors, before.apart, before.failure⟩
  | written bytes free done =>
    refine ⟨before.processed, ?_, before.errors, ?_, before.failure⟩
    · intro name content found
      rw [Std.TreeMap.getElem?_insert] at found
      split at found
      case isTrue same =>
        cases found
        exact ⟨j, last, Std.LawfulEqCmp.eq_of_compare same, done⟩
      case isFalse => exact before.classes name content found
    · intro name
      rw [Std.TreeMap.getElem?_insert]
      split
      case isTrue same =>
        have same : j.fileName = name := Std.LawfulEqCmp.eq_of_compare same
        exact .inr (same ▸ (not_taken free).2)
      case isFalse => exact before.apart name
  | failed f free failed mode =>
    refine ⟨before.processed, before.classes, ?_, ?_, before.failure⟩
    · intro name fault found
      rw [Std.TreeMap.getElem?_insert] at found
      split at found
      case isTrue same =>
        cases found
        exact ⟨mode, j, last, Std.LawfulEqCmp.eq_of_compare same, failed⟩
      case isFalse => exact before.errors name fault found
    · intro name
      rw [Std.TreeMap.getElem?_insert]
      split
      case isTrue same =>
        have same : j.fileName = name := Std.LawfulEqCmp.eq_of_compare same
        exact .inl (same ▸ (not_taken free).1)
      case isFalse => exact before.apart name
  | stopped f free failed mode =>
    refine ⟨before.processed, before.classes, before.errors, before.apart, ?_⟩
    intro fault found
    cases earlier : l.failure with
    | none =>
      simp only [earlier, Option.getD_none, Option.some.injEq] at found
      exact ⟨mode, j, last, found ▸ failed⟩
    | some first =>
      simp only [earlier, Option.getD_some, Option.some.injEq] at found
      exact before.failure fault (found ▸ earlier)

theorem accounts_after (o : Options) (lenient : Bool) (order : List Job) :
    Accounts o lenient order (after o lenient order) := by
  induction order using List.reverseRecOn with
  | nil => exact ⟨rfl, by simp [empty], by simp [empty], by simp [empty], by simp [empty]⟩
  | append_singleton order j ih =>
    rw [after_append_singleton]
    exact ih.record j

/-- In a lenient run a name is taken as soon as one of its classes was entered, and each further one
is a warning. -/
structure Owned (order : List Job) (l : Ledger) : Prop where
  taken : ∀ name, l.isTaken name = true ↔ 0 < count name order
  warnings : ∀ name, l.warnings[name]? = repeats name (count name order)

theorem owned_after (o : Options) (order : List Job) : Owned order (after o true order) := by
  induction order using List.reverseRecOn with
  | nil => exact ⟨by simp [empty, isTaken, count], by simp [empty, count, repeats]⟩
  | append_singleton order j ih =>
    rw [after_append_singleton]
    generalize after o true order = l at ih
    have taken (name : String) : (l.record o true j).isTaken name = true ↔
        0 < count name (order ++ [j]) := by
      rw [isTaken_record, ih.taken, count_append_singleton]
      split <;> simp [*]
    have first (free : l.isTaken j.fileName = false) (name : String) :
        repeats name (count name order) = repeats name (count name (order ++ [j])) := by
      rw [count_append_singleton]
      split
      case isTrue same =>
        have none : ¬ 0 < count name order := same ▸ (ih.taken j.fileName).not.1 (by simp [free])
        rw [show count name order = 0 by omega]
        rfl
      case isFalse => rfl
    refine ⟨taken, ?_⟩
    intro name
    have step := l.recorded o true j
    generalize l.record o true j = later at step
    cases step with
    | repeated owner =>
      rw [count_append_singleton]
      split
      case isTrue same =>
        subst same
        rw [← repeats_append ((ih.taken _).1 owner), ← ih.warnings]
        simp [warn, Std.TreeMap.getD_eq_getD_getElem?]
      case isFalse other => simp [warn, Std.TreeMap.getElem?_insert, other, ih.warnings]
    | written bytes free => exact (ih.warnings name).trans (first free name)
    | failed f free => exact (ih.warnings name).trans (first free name)
    | stopped _ _ _ mode => cases mode

theorem written_of_strict (calm : (after o false order).failure = none) :
    ∀ j ∈ order, ∃ bytes, (after o false order).classes[j.fileName]? = some bytes := by
  have accounts := accounts_after o false order
  suffices taken : ∀ j ∈ order, (after o false order).isTaken j.fileName = true by
    intro j member
    rcases ((after o false order).isTaken_iff _).1 (taken j member) with found | found
    · exact Option.isSome_iff_exists.1 found
    · obtain ⟨f, found⟩ := Option.isSome_iff_exists.1 found
      cases (accounts.errors _ _ found).1
  clear accounts
  induction order using List.reverseRecOn with
  | nil => simp
  | append_singleton order j ih =>
    rw [after_append_singleton] at calm ⊢
    have step := (after o false order).recorded o false j
    intro k member
    rw [isTaken_record]
    rcases List.mem_append.1 member with member | member
    · left
      apply ih _ k member
      generalize (after o false order).record o false j = later at step calm
      cases step with
      | repeated => exact calm
      | written => exact calm
      | failed _ _ _ mode => cases mode
      | stopped => cases calm
    · cases List.mem_singleton.1 member
      generalize (after o false order).record o false j = later at step calm
      cases step with
      | repeated taken => exact .inl taken
      | written bytes _ done => exact .inr ⟨rfl, .inr ⟨bytes, done⟩⟩
      | failed _ _ _ mode => cases mode
      | stopped => cases calm

def listing (l : Ledger) :
    List (String × Bytes) × List (String × List String) × List (String × Fault) :=
  (l.classes.toList, l.warnings.toList, l.errors.toList)

theorem listing_eq {l' : Ledger} (classes : ∀ name : String, l.classes[name]? = l'.classes[name]?)
    (warnings : ∀ name : String, l.warnings[name]? = l'.warnings[name]?)
    (errors : ∀ name : String, l.errors[name]? = l'.errors[name]?) : l.listing = l'.listing := by
  have classes := (Std.TreeMap.Equiv.of_forall_constGet?_eq classes).toList_eq
  have warnings := (Std.TreeMap.Equiv.of_forall_constGet?_eq warnings).toList_eq
  have errors := (Std.TreeMap.Equiv.of_forall_constGet?_eq errors).toList_eq
  rw [listing, classes, warnings, errors, listing]

section Distinct

variable {o : Options} {order : List Job} (distinct : (order.map Job.fileName).Nodup)
include distinct

theorem kept_of_distinct {j : Job} (member : j ∈ order) :
    (∃ bytes, j.write o = .ok bytes ∧ (after o true order).classes[j.fileName]? = some bytes) ∨
      ∃ f, j.write o = .error f ∧ (after o true order).errors[j.fileName]? = some f := by
  have accounts := accounts_after o true order
  have taken := ((owned_after o order).taken j.fileName).2 (count_pos_iff.2 ⟨j, member, rfl⟩)
  have only {k : Job} (other : k ∈ order) (same : k.fileName = j.fileName) : k = j :=
    List.inj_on_of_nodup_map distinct other member same
  rcases ((after o true order).isTaken_iff _).1 taken with found | found
  · obtain ⟨bytes, found⟩ := Option.isSome_iff_exists.1 found
    obtain ⟨k, other, same, done⟩ := accounts.classes _ _ found
    exact .inl ⟨bytes, only other same ▸ done, found⟩
  · obtain ⟨f, found⟩ := Option.isSome_iff_exists.1 found
    obtain ⟨-, k, other, same, failed⟩ := accounts.errors _ _ found
    exact .inr ⟨f, only other same ▸ failed, found⟩

theorem classes_of_distinct {bytes : Bytes} :
    (after o true order).classes[name]? = some bytes ↔ ∃ j ∈ order, j.fileName = name ∧
    j.write o = .ok bytes := by
  refine ⟨(accounts_after o true order).classes name bytes, ?_⟩
  rintro ⟨j, member, rfl, done⟩
  rcases kept_of_distinct distinct member with ⟨bytes', done', kept⟩ | ⟨f, failed, -⟩
  · rw [done] at done'
    cases done'
    exact kept
  · rw [done] at failed
    cases failed

theorem errors_of_distinct {f : Fault} :
    (after o true order).errors[name]? = some f ↔ ∃ j ∈ order, j.fileName = name ∧
    j.write o = .error f := by
  refine ⟨fun found => ((accounts_after o true order).errors name f found).2, ?_⟩
  rintro ⟨j, member, rfl, failed⟩
  rcases kept_of_distinct distinct member with ⟨bytes, done, -⟩ | ⟨f', failed', kept⟩
  · rw [failed] at done
    cases done
  · rw [failed] at failed'
    cases failed'
    exact kept

/-- With different names, the order in which the classes are entered makes no difference. -/
theorem listing_perm {order' : List Job} (same : order.Perm order') :
    (after o true order).listing = (after o true order').listing := by
  have distinct' : (order'.map Job.fileName).Nodup := (same.map _).nodup_iff.1 distinct
  apply listing_eq
  · intro name
    apply Option.ext
    intro bytes
    rw [classes_of_distinct distinct, classes_of_distinct distinct']
    simp only [same.mem_iff]
  · intro name
    rw [(owned_after o order).warnings, (owned_after o order').warnings, count,
      same.countP_eq, count]
  · intro name
    apply Option.ext
    intro f
    rw [errors_of_distinct distinct, errors_of_distinct distinct']
    simp only [same.mem_iff]

end Distinct

end Ledger

def Note.finished : List Note → List (String × Bytes)
  | [] => []
  | .done name bytes :: notes => (name, bytes) :: finished notes
  | .progress _ :: notes => finished notes

@[simp] theorem Note.finished_append (notes notes' : List Note) :
    finished (notes ++ notes') = finished notes ++ finished notes' := by
  fun_induction finished notes <;> simp_all [finished]

namespace Ledger

theorem toList_insert_of_free (free : l.isTaken name = false) (bytes : Bytes) :
    (l.classes.insert name bytes).toList.Perm (l.classes.toList ++ [(name, bytes)]) := by
  have others : l.classes.toList.filter (fun entry => decide ¬ (name == entry.1) = true) =
      l.classes.toList := by
    rw [List.filter_eq_self]
    rintro ⟨key, content⟩ member
    have found := Std.TreeMap.mem_toList_iff_getElem?_eq_some.1 member
    have different : name ≠ key := by
      rintro rfl
      rw [(not_taken free).1] at found
      cases found
    simpa using different
  have inserted := Std.TreeMap.toList_insert_perm (t := l.classes) (k := name) (v := bytes)
  rw [others] at inserted
  exact inserted.trans (List.perm_append_singleton _ _).symm

theorem classes_commit (l : Ledger) (lenient : Bool) (total : Nat) (name : String)
    (outcome : Option (Except Fault Bytes)) :
    (l.commit lenient name outcome).classes.toList.Perm
      (l.classes.toList ++ Note.finished (l.notes lenient total name outcome)) := by
  have silent (message : Progress) (p : Prop) [Decidable p] :
      Note.finished (if p then [.progress message] else []) = [] := by split <;> rfl
  unfold notes
  rw [Note.finished_append, silent, List.append_nil]
  cases free : l.isTaken name with
  | true => cases outcome with
    | none => simp [commit, enter, warn, Note.finished]
    | some result => cases result <;> simp [commit, enter, warn, Note.finished, free]
  | false => cases outcome with
    | none => simp [commit, enter, warn, Note.finished]
    | some result => cases result with
      | ok bytes =>
        simpa [commit, enter, Note.finished, free] using toList_insert_of_free free bytes
      | error f => cases lenient <;> simp [commit, enter, Note.finished, free]

theorem length_notes_le (l : Ledger) (lenient : Bool) (total : Nat) (name : String)
    (outcome : Option (Except Fault Bytes)) : (l.notes lenient total name outcome).length ≤ 2 := by
  unfold notes
  rw [List.length_append]
  refine Nat.add_le_add (b := 1) (d := 1) ?_ ?_
  · split
    · split <;> simp
    · simp
  · split <;> simp

end Ledger

end Restack.Batch
