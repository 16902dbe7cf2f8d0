import Restack.Proofs.Pass.Orderly

set_option autoImplicit false

namespace Restack

open PruneStoreLoads in
theorem Body.Steady.pruneStoreLoads {p : Pool} {cap : Nat} {b : Body}
    (steady : b.Steady p cap b.Expects) :
    b.pruneStoreLoads.Steady p cap b.Expects := by
  have noted := noted_walk (account_spans b)
  have owned : Owned (fun l : Line => (walker.walk b .start).dropped.contains l.tag = true)
      (Line.Bridge fun x => b.isTarget x = false) b.lines := by
    intro l member goes
    obtain ⟨⟨store, load⟩, ⟨front, first, mid, last, back, split, bridge, rfl, rfl⟩, which,
      gone_first, gone_last⟩ :=
      noted.dropped l.tag goes
    refine ⟨front, first, mid, last, back, split, bridge, gone_first, gone_last, ?_⟩
    exact which.imp (eq_of_tag_eq steady.distinct member (by simp [split]))
      (eq_of_tag_eq steady.distinct member (by simp [split]))
  have parted := owned.parted (segmental_bridge _) steady.distinct.of_map
  have labels : ∀ l ∈ b.lines, ∀ q, l.insn = .label q →
      (walker.walk b .start).dropped.contains l.tag = false := by
    intro l member q label
    by_contra goes
    obtain ⟨_, first, _, last, _, _, ⟨⟨v, stores, loads⟩, _⟩, _, _, which⟩ :=
      owned l member (by simpa using goes)
    rcases which with rfl | rfl
    · exact (Insn.of_stores? stores).2.2.2.2 q label
    · exact (Insn.of_pushes? (Insn.pushes?_of_loads? loads)).2.2.2.2 q label
  obtain ⟨last, runs⟩ := steady.balanced
  have free : ∀ l : Line, b.isTarget l = false → ∀ s, b.Expects l s := by
    intro l no_target s q _ target
    simp [no_target] at target
  refine ⟨⟨last, parted.runs_bridges labels free runs⟩, ?_, fun l inside => ?_⟩
  · exact steady.distinct.sublist (List.filter_sublist.map _)
  · exact steady.bound l (List.mem_of_mem_filter inside)

end Restack
