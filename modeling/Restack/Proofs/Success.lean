import Mathlib.Algebra.GroupWithZero.Nat
import Mathlib.Data.List.Forall2
import Mathlib.Data.List.ReduceOption

set_option autoImplicit false

namespace Restack

section Except

variable {ε α β : Type} {x : Except ε α} {f : α → Except ε Unit} {xs : List α}

theorem Except.bind_eq_ok {f : α → Except ε β} {b : β} :
    x >>= f = .ok b ↔ ∃ a, x = .ok a ∧ f a = .ok b := by
  cases x with
  | error e => simp [bind, Except.bind]
  | ok a => simp [bind, Except.bind]

theorem Except.bind_eq_error {f : α → Except ε β} {e : ε} :
    x >>= f = .error e ↔ x = .error e ∨ ∃ a, x = .ok a ∧ f a = .error e := by
  cases x with
  | error e => simp [bind, Except.bind]
  | ok a => simp [bind, Except.bind]

theorem Except.map_eq_ok {f : α → β} {b : β} : x.map f = .ok b ↔ ∃ a, x = .ok a ∧ f a = b := by
  cases x with
  | error e => simp [Except.map]
  | ok a => simp [Except.map]

theorem Except.isOk_iff : x.isOk = true ↔ ∃ a, x = .ok a := by
  cases x with
  | error e => simp [Except.isOk, Except.toBool]
  | ok a => simp [Except.isOk, Except.toBool]

theorem Except.forM_eq_ok (done : xs.forM f = .ok ()) : ∀ x ∈ xs, f x = .ok () := by
  induction xs with
  | nil => simp
  | cons x xs ih =>
    obtain ⟨_, first, rest⟩ := Except.bind_eq_ok.1 done
    intro y member
    rcases List.mem_cons.1 member with rfl | later
    · exact first
    · exact ih rest y later

theorem Except.forM_eq_error {e : ε} (failed : xs.forM f = .error e) :
    ∃ x ∈ xs, f x = .error e := by
  induction xs with
  | nil => cases failed
  | cons x xs ih =>
    rcases Except.bind_eq_error.1 failed with here | ⟨_, _, later⟩
    · exact ⟨x, List.mem_cons_self, here⟩
    · obtain ⟨y, member, there⟩ := ih later
      exact ⟨y, List.mem_cons_of_mem x member, there⟩

theorem Except.mapM_eq_ok {f : α → Except ε β} {ys : List β} (done : xs.mapM f = .ok ys) :
    List.Forall₂ (fun x y => f x = .ok y) xs ys := by
  induction xs generalizing ys with
  | nil =>
    cases done
    exact .nil
  | cons x xs ih =>
    rw [List.mapM_cons] at done
    obtain ⟨y, first, rest⟩ := Except.bind_eq_ok.1 done
    obtain ⟨zs, others, last⟩ := Except.bind_eq_ok.1 rest
    cases last
    exact .cons first (ih others)

theorem Except.forM_of_forall (each : ∀ x ∈ xs, f x = .ok ()) : xs.forM f = .ok () := by
  induction xs with
  | nil => rfl
  | cons x xs ih =>
    apply Except.bind_eq_ok.2
    exact ⟨(), each x List.mem_cons_self, ih fun y member => each y (List.mem_cons_of_mem _ member)⟩

theorem Except.mapM_outcome (f : α → Except ε β) (xs : List α) :
    ((∀ x ∈ xs, ∃ y, f x = .ok y) ∧ ∃ ys, xs.mapM f = .ok ys) ∨ ∃ x ∈ xs, ∃ e, f x = .error e ∧
    xs.mapM f = .error e := by
  induction xs with
  | nil => exact .inl ⟨by simp, [], rfl⟩
  | cons x xs ih =>
    rw [List.mapM_cons]
    cases first : f x with
    | error e => exact .inr ⟨x, List.mem_cons_self, e, first, rfl⟩
    | ok y =>
      rcases ih with ⟨each, ys, done⟩ | ⟨z, member, e, failed, stopped⟩
      · refine .inl ⟨?_, y :: ys, ?_⟩
        · intro z member
          rcases List.mem_cons.1 member with rfl | later
          · exact ⟨y, first⟩
          · exact each z later
        · rw [done]
          rfl
      · refine .inr ⟨z, List.mem_cons_of_mem _ member, e, failed, ?_⟩
        rw [stopped]
        rfl

end Except

section Stateful

variable {ε σ α β : Type} {s last : σ} {m : ExceptT ε (StateM σ) α} {f : α → ExceptT ε (StateM σ) β}

theorem ExceptT.run_bind_eq (m : ExceptT ε (StateM σ) α) (f : α → ExceptT ε (StateM σ) β) (s : σ) :
    (m >>= f).run s =
      match m.run s with
      | (.ok a, middle) => (f a).run middle
      | (.error e, middle) => (.error e, middle) := by
  change (m.run >>= ExceptT.bindCont f) s = _
  change (ExceptT.bindCont f (m.run s).1) (m.run s).2 = _
  rcases m.run s with ⟨result, middle⟩
  cases result <;> rfl

theorem ExceptT.run_bind_eq_ok {b : β} :
    (m >>= f).run s = (.ok b, last) ↔ ∃ a middle, m.run s = (.ok a, middle) ∧
    (f a).run middle = (.ok b, last) := by
  rw [ExceptT.run_bind_eq]
  rcases m.run s with ⟨result, middle⟩
  cases result with
  | error e =>
    constructor
    · intro failed
      cases failed
    · rintro ⟨a, last, failed, _⟩
      cases failed
  | ok a =>
    constructor
    · exact fun rest => ⟨a, middle, rfl, rest⟩
    · rintro ⟨_, _, same, rest⟩
      cases same
      exact rest

theorem ExceptT.run_pure_eq_ok {a b : α} :
    (pure a : ExceptT ε (StateM σ) α).run s = (.ok b, last) ↔ b = a ∧ last = s := by
  constructor
  · intro same
    cases same
    exact ⟨rfl, rfl⟩
  · rintro ⟨rfl, rfl⟩
    rfl

theorem ExceptT.run_lift_eq_ok {e : Except ε α} {a : α} :
    (liftM e : ExceptT ε (StateM σ) α).run s = (.ok a, last) ↔ e = .ok a ∧ last = s := by
  have unfolded : (liftM e : ExceptT ε (StateM σ) α).run s = (e, s) := by
    cases e <;> rfl
  rw [unfolded]
  constructor
  · intro same
    cases same
    exact ⟨rfl, rfl⟩
  · rintro ⟨rfl, rfl⟩
    rfl

theorem ExceptT.exists_run_eq {f : α → β} {b : β} (shape : (m.run s).1.map f = .ok b) :
    ∃ a last, m.run s = (.ok a, last) ∧ f a = b := by
  obtain ⟨a, result, same⟩ := Except.map_eq_ok.1 shape
  exact ⟨a, (m.run s).2, Prod.ext result rfl, same⟩

theorem ExceptT.reaches_bind (reaches : σ → σ → Prop)
    (trans : ∀ a b c, reaches a b → reaches b c → reaches a c) (first : ∀ s, reaches s (m.run s).2)
    (second : ∀ a s, reaches s ((f a).run s).2) (s : σ) : reaches s ((m >>= f).run s).2 := by
  have begun := first s
  rw [ExceptT.run_bind_eq]
  rcases run : m.run s with ⟨result, middle⟩
  rw [run] at begun
  cases result with
  | error fault => exact begun
  | ok a => exact trans _ _ _ begun (second a middle)

section Rows

variable (reaches : σ → σ → Prop) (refl : ∀ s, reaches s s)
  (trans : ∀ a b c, reaches a b → reaches b c → reaches a c)
variable {xs : List α} {ys : List β}
include refl trans

theorem ExceptT.run_mapM_eq_ok (steps : ∀ x s y t, (f x).run s = (.ok y, t) → reaches s t)
    (done : (xs.mapM f).run s = (.ok ys, last)) :
    reaches s last ∧ List.Forall₂ (fun x y => ∃ before after, (f x).run before = (.ok y, after) ∧
      reaches after last) xs ys := by
  induction xs generalizing s ys with
  | nil =>
    cases done
    exact ⟨refl _, .nil⟩
  | cons x xs ih =>
    rw [List.mapM_cons] at done
    obtain ⟨y, middle, first, rest⟩ := ExceptT.run_bind_eq_ok.1 done
    obtain ⟨zs, end_state, others, finished⟩ := ExceptT.run_bind_eq_ok.1 rest
    cases finished
    obtain ⟨reached, related⟩ := ih others
    exact ⟨trans _ _ _ (steps x s y middle first) reached,
      .cons ⟨s, middle, first, reached⟩ related⟩

theorem ExceptT.run_filterMapM_eq_ok {f : α → ExceptT ε (StateM σ) (Option β)}
    (steps : ∀ x s y t, (f x).run s = (.ok y, t) → reaches s t)
    (done : (xs.filterMapM f).run s = (.ok ys, last)) :
    reaches s last ∧ ∃ found, found.reduceOption = ys ∧
      List.Forall₂ (fun x y => ∃ before after, (f x).run before = (.ok y, after) ∧
        reaches after last) xs found := by
  induction xs generalizing s ys with
  | nil =>
    cases done
    exact ⟨refl _, [], rfl, .nil⟩
  | cons x xs ih =>
    rw [List.filterMapM_cons] at done
    obtain ⟨y, middle, first, rest⟩ := ExceptT.run_bind_eq_ok.1 done
    have begun := steps x s y middle first
    cases y with
    | none =>
      obtain ⟨reached, found, kept, related⟩ := ih rest
      exact ⟨trans _ _ _ begun reached, none :: found, kept,
        .cons ⟨s, middle, first, reached⟩ related⟩
    | some b =>
      obtain ⟨zs, end_state, others, finished⟩ := ExceptT.run_bind_eq_ok.1 rest
      cases finished
      obtain ⟨reached, found, rfl, related⟩ := ih others
      exact ⟨trans _ _ _ begun reached, some b :: found, rfl,
        .cons ⟨s, middle, first, reached⟩ related⟩

end Rows

end Stateful

section Lists

variable {α β : Type} {xs : List α} {ys : List β} {r : α → β → Prop}

theorem foldl_of_mem {σ : Type} {step : σ → α → σ} (P : σ → Prop) {x : α} (member : x ∈ xs)
    {start : σ} (here : ∀ s, P (step s x)) (keeps : ∀ s y, P s → P (step s y)) :
    P (xs.foldl step start) := by
  obtain ⟨before, after, rfl⟩ := List.append_of_mem member
  rw [List.foldl_append, List.foldl_cons]
  apply List.foldlRecOn after step (here _)
  intro s kept y _
  exact keeps s y kept

theorem forall₂_getElem? (related : List.Forall₂ r xs ys) {i : Nat} {x : α}
    (found : xs[i]? = some x) :
    ∃ y, ys[i]? = some y ∧ r x y := by
  obtain ⟨inside, rfl⟩ := List.getElem?_eq_some_iff.1 found
  have paired : i < ys.length := related.length_eq ▸ inside
  exact ⟨ys[i], List.getElem?_eq_getElem paired, related.get inside paired⟩

theorem forall₂_comp {γ : Type} {q : β → γ → Prop} {zs : List γ} (first : List.Forall₂ r xs ys)
    (second : List.Forall₂ q ys zs) : List.Forall₂ (fun x z => ∃ y, r x y ∧ q y z) xs zs := by
  induction first generalizing zs with
  | nil =>
    cases second
    exact .nil
  | cons here _ ih =>
    cases second with
    | cons there rest => exact .cons ⟨_, here, there⟩ (ih rest)

theorem forall₂_mem_right (related : List.Forall₂ r xs ys) {y : β} (member : y ∈ ys) :
    ∃ x ∈ xs, r x y := by
  obtain ⟨i, inside, rfl⟩ := List.getElem_of_mem member
  have paired : i < xs.length := related.length_eq ▸ inside
  exact ⟨xs[i], List.getElem_mem paired, related.get paired inside⟩

end Lists

end Restack
