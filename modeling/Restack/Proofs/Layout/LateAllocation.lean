import Restack.Proofs.Layout.Placement
import Restack.Proofs.Literal.Encodings
import Restack.Proofs.Pool.Room

set_option autoImplicit false

namespace Restack

namespace Literal

def IsComputed (x : Literal) : Prop := ∃ value, computed x.kinds value = .ok x

variable {x y : Literal}

theorem IsComputed.spec (computed : x.IsComputed) :
    x.kinds ∈ [.ofInt, .ofFloat, .ofLong, .ofDouble] ∧
    compute x.kinds x.value = .ok x.code ∧ ∃ value, x.value = normalize x.kinds value := by
  obtain ⟨value, done⟩ := computed
  obtain ⟨code, coded, same⟩ := Except.bind_eq_ok.1 done
  have value_eq : normalize x.kinds value = x.value := congrArg Literal.value (Except.ok.inj same)
  have code_eq : code = x.code := congrArg Literal.code (Except.ok.inj same)
  rw [value_eq, code_eq] at coded
  refine ⟨?_, coded, value, value_eq.symm⟩
  rw [List.mem_cons, List.mem_cons, List.mem_cons, List.mem_singleton]
  by_contra other
  simp only [not_or] at other
  obtain ⟨int, float, long, double⟩ := other
  simp only [compute, if_neg int, if_neg float, if_neg long, if_neg double] at coded
  cases coded

theorem entry_normalize_injective {kinds kinds' : Kinds} {v w : Int64}
    (numeric : kinds ∈ [.ofInt, .ofFloat, .ofLong, .ofDouble])
    (numeric' : kinds' ∈ [.ofInt, .ofFloat, .ofLong, .ofDouble])
    (same : entry kinds (normalize kinds v) = entry kinds' (normalize kinds' w)) :
    kinds = kinds' ∧ normalize kinds v = normalize kinds' w := by
  have entry_int (v : Int64) : entry .ofInt (normalize .ofInt v) = .int v.toInt32 :=
    congrArg Entry.int v.toInt32.toInt32_toInt64
  have entry_float (v : Int64) : entry .ofFloat (normalize .ofFloat v) = .float (floatBits v) :=
    congrArg Entry.float (toUInt32_extended (floatBits v))
  simp only [List.mem_cons, List.not_mem_nil, or_false] at numeric numeric'
  rcases numeric with rfl | rfl | rfl | rfl <;> rcases numeric' with rfl | rfl | rfl | rfl
  case inl.inl =>
    rw [entry_int, entry_int] at same
    exact ⟨rfl, congrArg Int32.toInt64 (Entry.int.inj same)⟩
  case inr.inl.inr.inl =>
    rw [entry_float, entry_float] at same
    exact ⟨rfl, congrArg (fun bits => bits.toInt32.toInt64) (Entry.float.inj same)⟩
  case inr.inr.inl.inr.inr.inl => exact ⟨rfl, Entry.long.inj same⟩
  case inr.inr.inr.inr.inr.inr => exact ⟨rfl, congrArg UInt64.toInt64 (Entry.double.inj same)⟩
  all_goals cases same

theorem IsComputed.eq_of_asked (first : x.IsComputed) (second : y.IsComputed)
    (same : x.asked = y.asked) : x = y := by
  obtain ⟨numeric, coded, v, value⟩ := first.spec
  obtain ⟨numeric', coded', w, value'⟩ := second.spec
  rw [asked, asked, value, value'] at same
  obtain ⟨kind, number⟩ := entry_normalize_injective numeric numeric' same
  rw [← value, ← value'] at number
  rw [kind, number, coded'] at coded
  obtain ⟨kinds, n, code⟩ := x
  cases kind
  cases number
  cases coded
  rfl

end Literal

namespace LateLiterals

open Pool

variable {p q : Pool} {ws vs narrow wide : List Wish} {w : Wish}

/-- Wishes for different entries that the pool lacks. -/
structure Fresh (p : Pool) (ws : List Wish) : Prop where
  distinct : (ws.map Wish.entry).Nodup
  absent : ∀ w ∈ ws, p.find? w.entry = none

structure Grants (p q : Pool) (ws : List Wish) : Prop where
  adds : Adds (fun r e => r.find? e = none ∧ e ∈ ws.map Wish.entry) p q
  filled : Filled p q (ws.map Wish.entry)

theorem Fresh.perm (fresh : Fresh p ws) (same : ws.Perm vs) : Fresh p vs :=
  ⟨(same.map _).nodup_iff.1 fresh.distinct, fun w member => fresh.absent w (same.mem_iff.2 member)⟩

theorem Fresh.after (fresh : Fresh p (ws ++ vs)) (grants : Grants p q ws) : Fresh q vs := by
  have distinct := fresh.distinct
  rw [List.map_append, List.nodup_append] at distinct
  refine ⟨distinct.2.1, fun w member => (grants.filled.absent w.entry).2 ⟨?_, fun granted => ?_⟩⟩
  · exact fresh.absent w (List.mem_append_right _ member)
  · exact distinct.2.2 _ granted _ (List.mem_map_of_mem member) rfl

namespace Grants

theorem space (grants : Grants p q [w]) (absent : p.find? w.entry = none) :
    q.space + w.entry.width = p.space := by
  have taken := grants.filled.space
  rwa [List.map_singleton, need_absent absent] at taken

theorem trans {r : Pool} (first : Grants p q ws) (second : Grants q r vs) :
    Grants p r (ws ++ vs) := by
  constructor
  · apply (first.adds.mono _).trans (second.adds.mono _)
    · exact fun r e fine => ⟨fine.1, by simp [fine.2]⟩
    · exact fun r e fine => ⟨fine.1, by simp [fine.2]⟩
  · rw [List.map_append]
    exact first.filled.trans second.filled

end Grants

theorem Wish.grant_eq (low : Bool) (next : Pool → Except Fault Unit × Pool)
    (absent : p.find? w.entry = none) (room : w.entry.width ≤ p.space) :
    ∃ q, w.grant p low next = next q ∧ Grants p q [w] := by
  obtain ⟨i, q, done, filled⟩ := (insert_outcome low absent).1 room
  have adds : Adds (fun r e => r.find? e = none ∧ e ∈ [w].map Wish.entry) p
      (p.insert w.entry low).2 :=
    .insert p w.entry low ⟨absent, by simp⟩
  rw [done] at adds
  exact ⟨q, by rw [grant, done], adds, filled⟩

theorem grantAll_eq (fresh : Fresh p ws) (thin : ∀ w ∈ ws, w.entry.width = 1)
    (room : ws.length ≤ p.space) :
    ∃ q, grantAll p ws = (.ok (), q) ∧ Grants p q ws := by
  induction ws generalizing p with
  | nil => exact ⟨p, rfl, .refl p, .refl p⟩
  | cons w ws ih =>
    obtain ⟨width, thin⟩ := List.forall_mem_cons.1 thin
    rw [List.length_cons] at room
    have absent := fresh.absent w List.mem_cons_self
    obtain ⟨q, granted, first⟩ := w.grant_eq true (fun q => grantAll q ws) absent (by omega)
    have space := first.space absent
    have fresh : Fresh p ([w] ++ ws) := fresh
    obtain ⟨r, rest, others⟩ := ih (fresh.after first) thin (by omega)
    exact ⟨r, by rw [grantAll, granted, rest], first.trans others⟩

/-- Of some wishes, each was granted at most once, and none is left that would save something and
has room. -/
structure Served (ws : List Wish) (p : Pool) (result : Except Fault Unit × Pool) : Prop where
  done : result.1 = .ok ()
  adds : Adds (fun r e => r.find? e = none ∧ e ∈ ws.map Wish.entry) p result.2
  best : ∀ w ∈ ws, 0 < w.saving → result.2.find? w.entry = none → result.2.space < w.entry.width

namespace Served

variable {result : Except Fault Unit × Pool}

theorem stop (full : ∀ w ∈ ws, 0 < w.saving → p.space < w.entry.width) : Served ws p (.ok (), p) :=
  ⟨rfl, .refl p, fun w member saves _ => full w member saves⟩

theorem perm (served : Served ws p result) (same : ws.Perm vs) : Served vs p result := by
  refine ⟨served.done, ?_, fun w member => served.best w (same.mem_iff.2 member)⟩
  exact served.adds.mono fun r e fine => ⟨fine.1, (same.map _).mem_iff.1 fine.2⟩

theorem after (grants : Grants p q ws) (served : Served vs q result) :
    Served (ws ++ vs) p result := by
  refine ⟨served.done, ?_, fun w member saves missing => ?_⟩
  · apply (grants.adds.mono _).trans (served.adds.mono _)
    · exact fun r e fine => ⟨fine.1, by simp [fine.2]⟩
    · exact fun r e fine => ⟨fine.1, by simp [fine.2]⟩
  · rcases List.mem_append.1 member with granted | other
    · -- An entry that came in is found to the end.
      exfalso
      cases there : q.find? w.entry with
      | none => exact ((grants.filled.absent w.entry).1 there).2 (List.mem_map_of_mem granted)
      | some i =>
        have later : Later q result.2 := served.adds.mono fun r e fine => fine.1
        rw [later.find? there] at missing
        cases missing
    · exact served.best w other saves missing

end Served

theorem Wish.grant_served (low : Bool) (next : Pool → Except Fault Unit × Pool)
    (fresh : Fresh p (w :: ws)) (room : w.entry.width ≤ p.space)
    (rest : ∀ q, Fresh q ws → Served ws q (next q)) :
    Served (w :: ws) p (w.grant p low next) := by
  obtain ⟨q, granted, grants⟩ := w.grant_eq low next (fresh.absent w List.mem_cons_self) room
  rw [granted]
  exact Served.after grants (rest q (fresh.after grants))

/-- Queues in order of their savings. -/
structure Ranked (narrow wide : List Wish) : Prop where
  thin : ∀ w ∈ narrow, w.entry.width = 1
  broad : ∀ w ∈ wide, w.entry.width = 2
  harmless : ∀ w ∈ narrow, 0 ≤ w.saving
  narrow_sorted : narrow.Pairwise fun a b => b.saving ≤ a.saving
  wide_sorted : wide.Pairwise fun a b => b.saving ≤ a.saving

namespace Ranked

theorem narrow_tail {n : Wish} (ranked : Ranked (n :: narrow) wide) : Ranked narrow wide :=
  ⟨(List.forall_mem_cons.1 ranked.thin).2, ranked.broad, (List.forall_mem_cons.1 ranked.harmless).2,
    ranked.narrow_sorted.of_cons, ranked.wide_sorted⟩

theorem wide_tail (ranked : Ranked narrow (w :: wide)) : Ranked narrow wide :=
  ⟨ranked.thin, (List.forall_mem_cons.1 ranked.broad).2, ranked.harmless, ranked.narrow_sorted,
    ranked.wide_sorted.of_cons⟩

theorem le_savingOfTwo (ranked : Ranked narrow wide) (member : w ∈ narrow) :
    w.saving ≤ savingOfTwo narrow := by
  cases narrow with
  | nil => cases member
  | cons n others =>
    have first : w.saving ≤ n.saving := by
      rcases List.mem_cons.1 member with rfl | later
      · exact Int.le_refl _
      · exact List.rel_of_pairwise_cons ranked.narrow_sorted later
    cases others with
    | nil => simpa [savingOfTwo] using first
    | cons second rest =>
      have more := ranked.harmless second (by simp)
      simp only [savingOfTwo, List.take_succ_cons, List.take_zero, List.foldl_cons, List.foldl_nil]
      omega

theorem full_narrow (ranked : Ranked narrow wide)
    (stopped : ¬ (p.space ≥ 1 && savingOfTwo narrow > 0) = true) :
    ∀ w ∈ narrow, 0 < w.saving → p.space < w.entry.width := by
  intro w member saves
  have most := ranked.le_savingOfTwo member
  rw [ranked.thin w member]
  simp only [ge_iff_le, gt_iff_lt, Bool.and_eq_true, decide_eq_true_eq, not_and] at stopped
  omega

theorem full_wide (ranked : Ranked narrow (w :: wide)) (refused : ¬ prefersWide p narrow w = true)
    (nothing : p.space < 1 ∨ savingOfTwo narrow ≤ 0) :
    ∀ v ∈ w :: wide, 0 < v.saving → p.space < v.entry.width := by
  intro v member saves
  have first : v.saving ≤ w.saving := by
    rcases List.mem_cons.1 member with rfl | later
    · exact Int.le_refl _
    · exact List.rel_of_pairwise_cons ranked.wide_sorted later
  rw [ranked.broad v member]
  simp only [prefersWide, ge_iff_le, gt_iff_lt, Bool.and_eq_true, decide_eq_true_eq,
    not_and] at refused
  omega

end Ranked

theorem grant_served (p : Pool) (narrow wide : List Wish) (fresh : Fresh p (narrow ++ wide))
    (ranked : Ranked narrow wide) :
    Served (narrow ++ wide) p (grant p narrow wide) := by
  fun_induction grant p narrow wide with
  | case1 p narrow w rest wanted ih =>
    simp only [prefersWide, ge_iff_le, Bool.and_eq_true, decide_eq_true_eq] at wanted
    have width := ranked.broad w List.mem_cons_self
    refine (w.grant_served false _ (fresh.perm List.perm_middle) (by omega) ?_).perm
      List.perm_middle.symm
    exact fun q fresh => ih q fresh ranked.wide_tail
  | case2 p w rest n others room _ ih =>
    rw [Bool.and_eq_true, decide_eq_true_eq] at room
    have width := ranked.thin n List.mem_cons_self
    exact n.grant_served true _ fresh (by omega) fun q fresh => ih q fresh ranked.narrow_tail
  | case5 p n others room ih =>
    rw [Bool.and_eq_true, decide_eq_true_eq] at room
    have width := ranked.thin n List.mem_cons_self
    exact n.grant_served true _ fresh (by omega) fun q fresh => ih q fresh ranked.narrow_tail
  | case3 p w rest n others stopped refused =>
    have nothing : p.space < 1 ∨ savingOfTwo (n :: others) ≤ 0 := by
      simp only [ge_iff_le, gt_iff_lt, Bool.and_eq_true, decide_eq_true_eq, not_and] at stopped
      omega
    refine .stop
      (List.forall_mem_append.2 ⟨ranked.full_narrow stopped, ranked.full_wide refused nothing⟩)
  | case4 p w rest refused => exact .stop (ranked.full_wide refused (.inr (Int.le_refl 0)))
  | case6 p n others stopped =>
    rw [List.append_nil]
    exact .stop (ranked.full_narrow stopped)
  | case7 => exact .stop fun w none => absurd none List.not_mem_nil

theorem perm_bySaving (ws : List Wish) : (bySaving ws).Perm ws :=
  (List.reverse_perm _).trans (List.mergeSort_perm _ _)

theorem sorted_bySaving (ws : List Wish) :
    (bySaving ws).Pairwise fun a b => b.saving ≤ a.saving := by
  rw [bySaving, List.pairwise_reverse]
  refine (List.pairwise_mergeSort ?_ ?_ ws).imp fun {a b} le => ?_
  · intro a b c first second
    simp only [Bool.or_eq_true, decide_eq_true_eq, Bool.and_eq_true, beq_iff_eq,
      UInt64.le_iff_toNat_le] at first second ⊢
    omega
  · intro a b
    simp only [Bool.or_eq_true, decide_eq_true_eq, Bool.and_eq_true, beq_iff_eq,
      UInt64.le_iff_toNat_le]
    omega
  · simp only [Bool.or_eq_true, decide_eq_true_eq, Bool.and_eq_true, beq_iff_eq] at le
    omega

section Wishes

variable {d : Demand} {handOver : HandOver} {t : Tally} {isWide : Bool} {xs : List Literal}
  {x : Literal}

theorem count_requests (computed : ∀ x ∈ xs, x.IsComputed) (member : x ∈ xs)
    (width : x.isWide = isWide) (wanted : x.IsWanted) :
    (requests isWide xs).count x.asked = xs.count x := by
  rw [requests, List.count, List.countP_map, List.countP_filter, List.count]
  apply List.countP_congr
  intro y inside
  simp only [Function.comp_apply, beq_iff_eq, Bool.and_eq_true, decide_eq_true_eq]
  constructor
  · exact fun same => (computed y inside).eq_of_asked (computed x member) same.1
  · rintro rfl
    exact ⟨rfl, width, wanted⟩

theorem entries_wishes (d : Demand) (handOver : HandOver) (t : Tally) (p : Pool) :
    (d.wishes handOver t p).map Wish.entry = (handOver.order t.order.toList).filter fun e =>
      !p.contains e := by
  rw [Demand.wishes, List.map_filterMap, ← List.filterMap_eq_filter]
  congr 1
  funext e
  cases known : p.contains e <;> simp [known, Option.guard]

section

variable (demand : d.Of xs) (computed : ∀ x ∈ xs, x.IsComputed)
  (counts : t.Counts (requests isWide xs))
include demand computed counts

theorem wish_spec (member : w ∈ d.wishes handOver t p) :
    ∃ x ∈ xs, x.isWide = isWide ∧ x.IsWanted ∧ p.find? x.asked = none ∧
      w = ⟨x.asked, xs.count x, x.code.length⟩ := by
  obtain ⟨e, listed, wished⟩ := List.mem_filterMap.1 member
  have ordered := Array.mem_toList_iff.1 ((handOver.perm _).mem_iff.1 listed)
  obtain ⟨x, inside, width, wanted, rfl⟩ := mem_requests.1 ((counts.listed e).1 ordered)
  split at wished
  · cases wished
  next missing =>
    obtain ⟨y, there, same, length⟩ := demand.lengths x inside
    cases (computed y there).eq_of_asked (computed x inside) same
    have count : t.counts[x.asked]? = some (xs.count x) := by
      rw [counts.counted, if_pos (mem_requests.2 ⟨x, inside, width, wanted, rfl⟩),
        count_requests computed inside width wanted]
    rw [Bool.not_eq_true, contains_eq_false_iff] at missing
    refine ⟨x, inside, width, wanted, missing, ?_⟩
    rw [← Option.some.inj wished, Std.HashMap.getD_eq_getD_getElem?,
      Std.HashMap.getD_eq_getD_getElem?, count, length]
    rfl

theorem mem_wishes (member : x ∈ xs) (width : x.isWide = isWide) (wanted : x.IsWanted)
    (missing : p.find? x.asked = none) :
    ⟨x.asked, xs.count x, x.code.length⟩ ∈ d.wishes handOver t p := by
  have wished : x.asked ∈ (d.wishes handOver t p).map Wish.entry := by
    rw [entries_wishes, List.mem_filter, (handOver.perm _).mem_iff, Array.mem_toList_iff,
      counts.listed, Bool.not_eq_true', contains_eq_false_iff]
    exact ⟨mem_requests.2 ⟨x, member, width, wanted, rfl⟩, missing⟩
  obtain ⟨w, there, same⟩ := List.mem_map.1 wished
  obtain ⟨y, inside, -, -, -, rfl⟩ := wish_spec demand computed counts there
  cases (computed y inside).eq_of_asked (computed x member) same
  exact there

end

theorem width_asked (computed : x.IsComputed) : x.asked.width = if x.isWide then 2 else 1 := by
  rw [Entry.width, Literal.asked, Literal.isWide_entry computed.spec.1, Literal.isWide]

end Wishes

def narrowWishes (handOver : HandOver) (p : Pool) (bodies : List Body) : List Wish :=
  (Demand.ofBodies bodies).wishes handOver (Demand.ofBodies bodies).narrow p

def wideWishes (handOver : HandOver) (p : Pool) (bodies : List Body) : List Wish :=
  (Demand.ofBodies bodies).wishes handOver (Demand.ofBodies bodies).wide p

section Bodies

variable {bodies : List Body} {handOver : HandOver} (computed : ∀ x ∈ literals bodies, x.IsComputed)

include computed

theorem thin_narrowWishes (member : w ∈ narrowWishes handOver p bodies) :
    w.entry.width = 1 ∧ 0 ≤ w.saving := by
  have demand := Demand.ofBodies_of bodies
  obtain ⟨x, inside, narrow, wanted, -, rfl⟩ := wish_spec demand computed demand.narrow member
  refine ⟨by simp [width_asked (computed x inside), narrow], ?_⟩
  simp only [Literal.IsWanted, narrow, Bool.false_eq_true, if_false] at wanted
  exact Int.mul_nonneg (by simp only; omega) (Int.natCast_nonneg _)

theorem broad_wideWishes (member : w ∈ wideWishes handOver p bodies) : w.entry.width = 2 := by
  have demand := Demand.ofBodies_of bodies
  obtain ⟨x, inside, wide, -, -, rfl⟩ := wish_spec demand computed demand.wide member
  simp [width_asked (computed x inside), wide]

theorem fresh_wishes (handOver : HandOver) (p : Pool) :
    Fresh p (narrowWishes handOver p bodies ++ wideWishes handOver p bodies) := by
  have demand := Demand.ofBodies_of bodies
  constructor
  · rw [List.map_append, List.nodup_append]
    refine ⟨?_, ?_, ?_⟩
    · rw [narrowWishes, entries_wishes]
      exact ((handOver.perm _).nodup_iff.2 demand.narrow.distinct).filter _
    · rw [wideWishes, entries_wishes]
      exact ((handOver.perm _).nodup_iff.2 demand.wide.distinct).filter _
    · intro e narrow e' wide same
      obtain ⟨v, listed, rfl⟩ := List.mem_map.1 narrow
      obtain ⟨w, listed', rfl⟩ := List.mem_map.1 wide
      have thin := (thin_narrowWishes computed listed).1
      rw [same, broad_wideWishes computed listed'] at thin
      cases thin
  · intro w member
    rcases List.mem_append.1 member with narrow | wide
    · obtain ⟨x, -, -, -, missing, rfl⟩ := wish_spec demand computed demand.narrow narrow
      exact missing
    · obtain ⟨x, -, -, -, missing, rfl⟩ := wish_spec demand computed demand.wide wide
      exact missing

theorem ranked_wishes (left : ∀ w ∈ ws, w ∈ narrowWishes handOver p bodies) :
    Ranked (bySaving ws) (bySaving (wideWishes handOver p bodies)) where
  thin w member := (thin_narrowWishes computed (left w ((perm_bySaving ws).mem_iff.1 member))).1
  broad _ member := broad_wideWishes computed ((perm_bySaving _).mem_iff.1 member)
  harmless w member := (thin_narrowWishes computed (left w ((perm_bySaving ws).mem_iff.1 member))).2
  narrow_sorted := sorted_bySaving ws
  wide_sorted := sorted_bySaving _

theorem allocate_served (handOver : HandOver) (p : Pool) :
    Served (narrowWishes handOver p bodies ++ wideWishes handOver p bodies) p
      (allocate p bodies handOver) := by
  have fresh := fresh_wishes computed handOver p
  have sorted (ws : List Wish) : (ws ++ wideWishes handOver p bodies).Perm
      (bySaving ws ++ bySaving (wideWishes handOver p bodies)) :=
    ((perm_bySaving _).append (perm_bySaving _)).symm
  unfold allocate
  dsimp only
  rw [← narrowWishes, ← wideWishes]
  split
  next room =>
    -- The most frequent wishes come first, and then the others in order of their savings.
    obtain ⟨first, rest, taken, dropped, frequent⟩ : ∃ first rest,
        (byCount (narrowWishes handOver p bodies)).take p.lowSpace = first ∧
        (byCount (narrowWishes handOver p bodies)).drop p.lowSpace = rest ∧
        (narrowWishes handOver p bodies).Perm (first ++ rest) := by
      refine ⟨_, _, rfl, rfl, ?_⟩
      rw [List.take_append_drop]
      exact (List.mergeSort_perm _ _).symm
    have apart : (narrowWishes handOver p bodies ++ wideWishes handOver p bodies).Perm
        (first ++ (rest ++ wideWishes handOver p bodies)) := by
      rw [← List.append_assoc]
      exact frequent.append_right _
    have fresh := fresh.perm apart
    have left (w : Wish) (member : w ∈ first ++ rest) : w ∈ narrowWishes handOver p bodies :=
      frequent.mem_iff.2 member
    obtain ⟨q, granted, grants⟩ : ∃ q, grantAll p first = (.ok (), q) ∧ Grants p q first := by
      refine grantAll_eq ⟨?_, ?_⟩ (fun w member => ?_) ?_
      · exact (List.nodup_append.1 (List.map_append ▸ fresh.distinct)).1
      · exact fun w member => fresh.absent w (List.mem_append_left _ member)
      · exact (thin_narrowWishes computed (left w (List.mem_append_left _ member))).1
      · have length := frequent.length_eq
        rw [List.length_append] at length
        omega
    rw [taken, dropped, granted]
    refine (Served.after grants ?_).perm apart.symm
    refine (grant_served q _ _ ((fresh.after grants).perm (sorted rest)) ?_).perm (sorted rest).symm
    exact ranked_wishes computed fun w member => left w (List.mem_append_right _ member)
  next =>
    refine (grant_served p _ _ (fresh.perm (sorted _)) ?_).perm (sorted _).symm
    exact ranked_wishes computed fun _ member => member

end Bodies

/-- What all uses of a literal would save if it were loaded with three bytes. -/
def saving (bodies : List Body) (x : Literal) : Int :=
  ((x.code.length : Int) - 3) * (literals bodies).count x

/-- Late allocation succeeds and adds only wanted numbers, none of them twice. In the end there is
no room for any missing number that would save something. -/
theorem allocate_exhaustive (p : Pool) (bodies : List Body) (handOver : HandOver)
    (computed : ∀ x ∈ literals bodies, x.IsComputed) :
    ∃ q, allocate p bodies handOver = (.ok (), q) ∧
      Adds (fun r e => r.find? e = none ∧ e.isNumber = true ∧ ∃ x ∈ literals bodies, x.IsWanted ∧
        x.asked = e) p q ∧
      p.Grows q ∧ (∀ e i, p.find? e = some i → q.find? e = some i) ∧
      ∀ x ∈ literals bodies, x.IsWanted → 0 < saving bodies x → q.find? x.asked = none →
      q.space < x.asked.width := by
  have served := allocate_served computed handOver p
  have demand := Demand.ofBodies_of bodies
  have later : Later p (allocate p bodies handOver).2 := served.adds.mono fun r e fine => fine.1
  refine ⟨(allocate p bodies handOver).2, Prod.ext served.done rfl, served.adds.mono ?_,
    served.adds.grows, ?_, ?_⟩
  · rintro r e ⟨absent, wished⟩
    obtain ⟨w, member, rfl⟩ := List.mem_map.1 wished
    obtain ⟨x, inside, wanted, same⟩ : ∃ x ∈ literals bodies, x.IsWanted ∧ x.asked = w.entry := by
      rcases List.mem_append.1 member with narrow | wide
      · obtain ⟨x, inside, -, wanted, -, rfl⟩ := wish_spec demand computed demand.narrow narrow
        exact ⟨x, inside, wanted, rfl⟩
      · obtain ⟨x, inside, -, wanted, -, rfl⟩ := wish_spec demand computed demand.wide wide
        exact ⟨x, inside, wanted, rfl⟩
    exact ⟨absent, same ▸ Literal.entry_isNumber _ _, x, inside, wanted, same⟩
  · exact fun e i known => later.find? known
  · intro x inside wanted saves missing
    have absent : p.find? x.asked = none := by
      cases known : p.find? x.asked with
      | none => rfl
      | some i => exact absurd (later.find? known) (by simp [missing])
    apply served.best ⟨x.asked, (literals bodies).count x, x.code.length⟩ _ saves missing
    rw [List.mem_append]
    cases width : x.isWide with
    | false => exact .inl (mem_wishes demand computed demand.narrow inside width wanted absent)
    | true => exact .inr (mem_wishes demand computed demand.wide inside width wanted absent)

def crowdedPool : Pool :=
  ⟨.split, .modifiedUtf8, Array.replicate 65534 none, #[], ∅, by simp [limit], by simp⟩

def sampleNumbers : Body :=
  let int : Insn := .literal ⟨.ofInt, 70000, Computed.int 70000⟩
  Body.ofInsns "numbers" [int, .literal ⟨.ofLong, 70000000000, Computed.long 70000000000⟩, int]

theorem crowdedPool_exhausted : ∃ q, allocate crowdedPool [sampleNumbers] = (.ok (), q) ∧
    (q.find? (.int 70000) = none → q.space = 0) ∧
    (q.find? (.long 70000000000) = none → q.space < 2) := by
  have computed : ∀ x ∈ literals [sampleNumbers], x.IsComputed := by
    have all : literals [sampleNumbers] = [⟨.ofInt, 70000, Computed.int 70000⟩,
      ⟨.ofLong, 70000000000, Computed.long 70000000000⟩, ⟨.ofInt, 70000, Computed.int 70000⟩] := rfl
    rw [all]
    simp only [List.forall_mem_cons, List.not_mem_nil, false_imp_iff, implies_true, and_true]
    exact ⟨⟨70000, rfl⟩, ⟨70000000000, rfl⟩, ⟨70000, rfl⟩⟩
  obtain ⟨q, done, -, -, -, full⟩ :=
    allocate_exhaustive crowdedPool [sampleNumbers] .asListed computed
  refine ⟨q, done, fun missing => ?_, fun missing => ?_⟩
  · have less :=
      full ⟨.ofInt, 70000, Computed.int 70000⟩ (by decide) (by decide) (by decide) missing
    exact Nat.lt_one_iff.1 less
  · exact full ⟨.ofLong, 70000000000, Computed.long 70000000000⟩ (by decide) (by decide)
      (by decide) missing

end LateLiterals

end Restack
