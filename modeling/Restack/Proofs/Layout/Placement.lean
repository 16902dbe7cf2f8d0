import Restack.Proofs.Layout.Demand
import Restack.Proofs.Layout.Slots
import Restack.Proofs.Pool.Additions

set_option autoImplicit false

namespace Restack

abbrev Pool.AddsNumbers : Pool → Pool → Prop := Pool.Adds fun _ e => e.isNumber = true

namespace Literal

theorem entry_isNumber (kinds : Kinds) (value : Int64) : (entry kinds value).isNumber = true := by
  unfold entry
  repeat' split
  all_goals rfl

theorem shorten_addsNumbers (l : Literal) (p : Pool) : Pool.AddsNumbers p (l.shorten p).2 := by
  have offered : Pool.AddsNumbers p (fromPool? l.kinds l.value p).2 :=
    .offer p _ fun _ => entry_isNumber l.kinds l.value
  unfold shorten
  split
  · split
    · next found => rwa [found] at offered
    · next refused => rwa [refused] at offered
  · exact .refl p

end Literal

namespace LateLiterals

def Numeric (ws : List Wish) : Prop := ∀ w ∈ ws, w.entry.isNumber = true

theorem Wish.grant_addsNumbers {w : Wish} {p : Pool} {low : Bool}
    {next : Pool → Except Fault Unit × Pool} (number : w.entry.isNumber = true)
    (rest : ∀ q, Pool.AddsNumbers q (next q).2) :
    Pool.AddsNumbers p (w.grant p low next).2 := by
  have added : Pool.AddsNumbers p (p.insert w.entry low).2 := .insert p w.entry low number
  unfold grant
  split
  next q done =>
    rw [done] at added
    exact added.trans (rest q)
  next q failed => rwa [failed] at added

theorem grantAll_addsNumbers (p : Pool) (ws : List Wish) (numeric : Numeric ws) :
    Pool.AddsNumbers p (grantAll p ws).2 := by
  induction ws generalizing p with
  | nil => exact .refl p
  | cons w ws ih =>
    obtain ⟨number, others⟩ := List.forall_mem_cons.1 numeric
    exact w.grant_addsNumbers number fun q => ih q others

theorem grant_addsNumbers (p : Pool) (narrow wide : List Wish) (numeric : Numeric narrow)
    (numeric' : Numeric wide) :
    Pool.AddsNumbers p (grant p narrow wide).2 := by
  fun_induction grant p narrow wide with
  | case1 p narrow w rest wanted ih =>
    obtain ⟨number, others⟩ := List.forall_mem_cons.1 numeric'
    exact w.grant_addsNumbers number fun q => ih q numeric others
  | case2 p w rest n others wanted _ ih =>
    obtain ⟨number, others⟩ := List.forall_mem_cons.1 numeric
    exact n.grant_addsNumbers number fun q => ih q others numeric'
  | case5 p n others wanted ih =>
    obtain ⟨number, others⟩ := List.forall_mem_cons.1 numeric
    exact n.grant_addsNumbers number fun q => ih q others numeric'
  | case3 | case4 | case6 | case7 => exact .refl _

theorem numeric_wishes (d : Demand) (handOver : HandOver) {t : Tally} {isWide : Bool}
    {xs : List Literal} (p : Pool) (counts : t.Counts (requests isWide xs)) :
    Numeric (d.wishes handOver t p) := by
  intro w member
  obtain ⟨e, listed, wished⟩ := List.mem_filterMap.1 member
  split at wished
  · cases wished
  · cases wished
    have ordered := Array.mem_toList_iff.1 ((handOver.perm _).mem_iff.1 listed)
    obtain ⟨x, -, -, -, rfl⟩ := mem_requests.1 ((counts.listed e).1 ordered)
    exact Literal.entry_isNumber _ _

theorem Numeric.of_subset {ws vs : List Wish} (numeric : Numeric ws) (sub : ∀ w ∈ vs, w ∈ ws) :
    Numeric vs :=
  fun w member => numeric w (sub w member)

theorem numeric_bySaving {ws : List Wish} (numeric : Numeric ws) : Numeric (bySaving ws) := by
  apply numeric.of_subset
  intro w member
  rwa [bySaving, List.mem_reverse, List.mem_mergeSort] at member

theorem allocate_addsNumbers (p : Pool) (bodies : List Body) (handOver : HandOver) :
    Pool.AddsNumbers p (allocate p bodies handOver).2 := by
  have demand := Demand.ofBodies_of bodies
  have narrow := numeric_wishes (Demand.ofBodies bodies) handOver p demand.narrow
  have wide := numeric_bySaving (numeric_wishes (Demand.ofBodies bodies) handOver p demand.wide)
  unfold allocate
  dsimp only
  split
  · have frequent : Numeric
        (byCount ((Demand.ofBodies bodies).wishes handOver (Demand.ofBodies bodies).narrow p)) := by
      apply narrow.of_subset
      intro w member
      rwa [byCount, List.mem_mergeSort] at member
    have first :=
      grantAll_addsNumbers p _ (frequent.of_subset fun w => List.mem_of_mem_take (i := p.lowSpace))
    split
    next q granted =>
      rw [granted] at first
      apply first.trans
      exact grant_addsNumbers _ _ _
        (numeric_bySaving (frequent.of_subset fun w => List.mem_of_mem_drop)) wide
    next q failed => rwa [failed] at first
  · exact grant_addsNumbers p _ _ (numeric_bySaving narrow) wide

end LateLiterals

namespace Body

theorem shortenStep_addsNumbers (walked : Array Line × Pool) (l : Line) :
    Pool.AddsNumbers walked.2 (shortenStep walked l).2 := by
  unfold shortenStep
  split
  · exact Literal.shorten_addsNumbers _ _
  · exact .refl _

theorem shortenLiterals_addsNumbers (b : Body) (p : Pool) :
    Pool.AddsNumbers p (b.shortenLiterals p).2 := by
  have unfolded : (b.shortenLiterals p).2 = (b.lines.foldl shortenStep (#[], p)).2 := rfl
  rw [unfolded]
  generalize b.lines = lines
  suffices walks : ∀ walked : Array Line × Pool, Pool.AddsNumbers walked.2
      (lines.foldl shortenStep walked).2 from
    walks (#[], p)
  induction lines with
  | nil => exact fun walked => .refl walked.2
  | cons l lines ih => exact fun walked => (shortenStep_addsNumbers walked l).trans (ih _)

structure Relit (b later : Body) : Prop where
  lines : List.Forall₂ Line.Relit b.lines later.lines
  heads : later.heads = b.heads

end Body

def placeStep (walked : Array Body × Pool) (b : Body) : Array Body × Pool :=
  (walked.1.push (b.shortenLiterals walked.2).1, (b.shortenLiterals walked.2).2)

/-- A body with its literals shortened in some pool, from which the last one grew. -/
def Body.Shortened (last : Pool) (b placed : Body) : Prop :=
  ∃ p, (b.shortenLiterals p).1 = placed ∧ Pool.AddsNumbers (b.shortenLiterals p).2 last

theorem Body.Shortened.relit {last : Pool} {b placed : Body} (shortened : b.Shortened last placed) :
    b.Relit placed := by
  obtain ⟨p, rfl, -⟩ := shortened
  exact ⟨b.shortenLiterals_relit p, rfl⟩

theorem foldl_placeStep (bodies : List Body) (walked : Array Body × Pool) :
    ∃ done, (bodies.foldl placeStep walked).1.toList = walked.1.toList ++ done ∧
      List.Forall₂ (Body.Shortened (bodies.foldl placeStep walked).2) bodies done ∧
      Pool.AddsNumbers walked.2 (bodies.foldl placeStep walked).2 := by
  induction bodies generalizing walked with
  | nil => exact ⟨[], by simp, .nil, .refl _⟩
  | cons b bodies ih =>
    obtain ⟨done, bodies_eq, shortened, added⟩ := ih (placeStep walked b)
    refine ⟨(b.shortenLiterals walked.2).1 :: done, ?_, ?_, ?_⟩
    · rw [List.foldl_cons, bodies_eq]
      simp [placeStep]
    · exact .cons ⟨walked.2, rfl, added⟩ shortened
    · exact (b.shortenLiterals_addsNumbers walked.2).trans added

theorem placeLiterals_shortened (p : Pool) (bodies : List Body) (handOver : HandOver) :
    List.Forall₂ (Body.Shortened (placeLiterals p bodies handOver).2) bodies
      (placeLiterals p bodies handOver).1 ∧
      Pool.AddsNumbers p (placeLiterals p bodies handOver).2 := by
  obtain ⟨start, allocated, added⟩ : ∃ start, start =
    (if (bodies.filter fun b => b.maxLength ≥ 65536).isEmpty then p
      else (LateLiterals.allocate p (bodies.filter fun b => b.maxLength ≥ 65536) handOver).2) ∧
        Pool.AddsNumbers p start := by
    refine ⟨_, rfl, ?_⟩
    split
    · exact .refl p
    · exact LateLiterals.allocate_addsNumbers p _ handOver
  have unfolded : placeLiterals p bodies handOver =
      ((bodies.foldl placeStep (#[], start)).1.toList,
        (bodies.foldl placeStep (#[], start)).2) := by
    rw [allocated]
    rfl
  obtain ⟨done, bodies_eq, shortened, added'⟩ := foldl_placeStep bodies (#[], start)
  rw [unfolded, bodies_eq]
  exact ⟨shortened, added.trans added'⟩

/-- Placing literals recodes literals in bodies and adds numbers to the pool. -/
theorem placeLiterals_spec (p : Pool) (bodies : List Body) (handOver : HandOver) :
    List.Forall₂ Body.Relit bodies (placeLiterals p bodies handOver).1 ∧
    Pool.AddsNumbers p (placeLiterals p bodies handOver).2 := by
  obtain ⟨shortened, added⟩ := placeLiterals_shortened p bodies handOver
  exact ⟨shortened.imp fun _ _ => Body.Shortened.relit, added⟩

end Restack
