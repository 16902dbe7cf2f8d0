import Restack.Proofs.Pass.Duplication
import Restack.Proofs.Pass.Pruning

set_option autoImplicit false

namespace Restack

theorem Rewritten.mem_label {first second : List Line} (rewritten : Rewritten first second)
    {l : Line} (member : l ∈ first) {q : Option UInt32} (label : l.insn = .label q) :
    l ∈ second := by
  induction rewritten with
  | nil => exact member
  | keep resized _ ih =>
    rcases List.mem_cons.1 member with rfl | later
    · cases resized with
      | same => exact List.mem_cons_self
      | jump => cases label
    · exact List.mem_cons_of_mem _ (ih later)
  | edit part movable _ ih =>
    rcases List.mem_cons.1 member with rfl | later
    · rw [label] at movable
      cases movable
    · exact List.mem_append_right _ (ih later)

namespace Body

variable {p : Pool} {cap more limit : Nat} {picks : UInt32 → Prop} {b later : Body}
  {expects : Line → Operands → Prop}

/-- Whatever path arrives at a line, the line finds on the stack what it takes, and it never uses
more slots than the limit. -/
def Contained (p : Pool) (limit : Nat) (b : Body) : Prop :=
  ∀ k s l, b.Reaches p k s → b.lines[k]? = some l → s.slots ≤ limit ∧ (l.insn.run? p limit s).isSome

theorem Steady.contained (steady : b.Steady p cap expects)
    (meets : ∀ l s, expects l s → b.Expects l s) (linked : b.Linked)
    (room : Insn.headroom + cap ≤ limit) : b.Contained p limit := by
  intro k s l reaches here
  obtain ⟨stack, stacked⟩ := steady.balanced.exists_stacked
  obtain rfl := stacked.eq_of_reaches meets linked reaches
  have moves := (stacked.each k l here).2
  obtain ⟨t, steps, _⟩ := moves.steps
  have bound := moves.bound
  exact ⟨by omega, by rw [steps.within (by omega)]; rfl⟩

theorem Steady.weaken {expects' : Line → Operands → Prop} (steady : b.Steady p cap expects)
    (le : cap ≤ more) (meets : ∀ l s, expects l s → expects' l s) : b.Steady p more expects' := by
  obtain ⟨last, runs⟩ := steady.balanced
  exact ⟨⟨last, runs.mono fun l _ s t known => ⟨meets l s known.1, known.2.raise le⟩⟩,
    steady.distinct, steady.bound⟩

structure Keeps (b later : Body) : Prop where
  entries : later.entries = b.entries
  rows : later.rows = b.rows

theorem Keeps.expects_eq (keeps : b.Keeps later) : later.Expects = b.Expects := by
  funext l s
  simp only [Expects, isTarget, entryStack, keeps.entries, keeps.rows]

theorem Edits.keeps (edits : b.Edits later) : b.Keeps later := by
  rw [edits.rest]
  exact ⟨rfl, rfl⟩

theorem Keeps.trans {last : Body} (first : b.Keeps later) (second : later.Keeps last) :
    b.Keeps last :=
  ⟨second.entries.trans first.entries, second.rows.trans first.rows⟩

theorem Linked.rewrite (linked : b.Linked)
    (named : ∀ tag, b.entries.contains tag = true → ∃ l ∈ b.lines, l.tag = tag ∧
      ∃ q, l.insn = .label q)
    (rewrites : b.Rewrites later) (keeps : b.Keeps later) : later.Linked := by
  refine ⟨fun r member => ?_, fun l member q leads tag head => ?_, fun l member target => ?_⟩
  · rw [keeps.entries]
    exact linked.rows r (keeps.rows ▸ member)
  · rw [keeps.entries, keeps.rows]
    exact linked.jumps l (rewrites.straight l member (List.ne_nil_of_mem leads)) q leads tag
      (rewrites.heads ▸ head)
  · obtain ⟨m, inside, same, q, label⟩ := named l.tag (keeps.entries ▸ target)
    obtain ⟨prologue, rest, split, rewritten⟩ := rewrites.lines
    have kept : m ∈ later.lines := by
      rw [split]
      exact List.mem_append_right _ (rewritten.mem_label inside label)
    rcases rewrites.tagged.eq_or_constant member kept same.symm with rfl | ⟨_, constant⟩
    · exact ⟨q, label⟩
    · rw [label] at constant
      cases constant

theorem applyIf_induction {P : Body → Prop} {pass : Body → Body} (wanted : Bool) (holds : P b)
    (step : P b → P (pass b)) :
    P (applyIf wanted pass b) := by
  cases wanted with
  | true => exact step holds
  | false => exact holds

theorem Orderly.edit_applyIf {c : Body} {pass : Body → Body} (wanted : Bool)
    (known : c.Orderly p cap picks ∧ b.Keeps c) (edits : c.Orderly p cap picks → c.Edits (pass c)) :
    (applyIf wanted pass c).Orderly p cap picks ∧ b.Keeps (applyIf wanted pass c) :=
  applyIf_induction (P := fun c => c.Orderly p cap picks ∧ b.Keeps c) wanted known
    fun ⟨orderly, keeps⟩ =>
    ⟨orderly.edit (edits orderly), keeps.trans (edits orderly).keeps⟩

theorem Orderly.duplicate_applyIf {c : Body} (handOver : HandOver) (wanted : Bool)
    (orderly : c.Orderly p cap picks) (keeps : b.Keeps c) (room : cap + 4 ≤ more) :
    (applyIf wanted (Body.duplicate · handOver) c).Steady p more b.Expects ∧
      b.Keeps (applyIf wanted (Body.duplicate · handOver) c) := by
  rw [← keeps.expects_eq]
  cases wanted with
  | true => exact ⟨orderly.duplicate handOver room, keeps.trans ⟨rfl, rfl⟩⟩
  | false => exact ⟨orderly.weaken (by omega) fun _ _ shows => shows.1, keeps⟩

/-- Simplification leaves a body steady. Duplication needs four more slots. -/
theorem Orderly.simplify (orderly : b.Orderly p cap picks) (room : cap + 4 ≤ more) (o : Options)
    (handOver : HandOver) :
    (b.simplify o handOver).Steady p more b.Expects ∧ b.Keeps (b.simplify o handOver) := by
  have inlined := edit_applyIf (b := b) o.inlineConstants ⟨orderly, rfl, rfl⟩ fun known =>
    known.edits_inlineConstants
  have propagated := edit_applyIf o.propagateCopies inlined fun known => known.edits_propagateCopies
  have removed := edit_applyIf o.removeUnused propagated fun known =>
    edits_removeUnused known.distinct known.bound
  have duplicated := duplicate_applyIf handOver o.duplicate removed.1 removed.2 room
  have pruned :=
    applyIf_induction
      (P := fun c => c.Steady p more b.Expects ∧ b.Keeps c) o.pruneStoreLoads duplicated
    fun ⟨steady, keeps⟩ => by
      rw [← keeps.expects_eq] at steady ⊢
      exact ⟨steady.pruneStoreLoads, keeps.trans ⟨rfl, rfl⟩⟩
  refine applyIf_induction (P := fun c => c.Steady p more b.Expects ∧ b.Keeps c)
    (o.pruneStoreLoads && o.removeUnused) pruned
    fun ⟨steady, keeps⟩ => ?_
  have edits := edits_removeUnused steady.distinct steady.bound
  exact ⟨steady.edit (fun l s no_label q label => absurd label (no_label q)) edits,
    keeps.trans edits.keeps⟩

theorem Orderly.contained_simplify (orderly : b.Orderly p cap picks) (linked : b.Linked)
    (named : ∀ tag, b.entries.contains tag = true → ∃ l ∈ b.lines, l.tag = tag ∧
      ∃ q, l.insn = .label q)
    (room : Insn.headroom + (cap + 4) ≤ limit) (o : Options) (handOver : HandOver) :
    (b.simplify o handOver).Contained p limit := by
  obtain ⟨steady, keeps⟩ := orderly.simplify (Nat.le_refl _) o handOver
  have rewrites := rewrites_simplify (tagged_of_distinct orderly.distinct orderly.bound) o handOver
  refine steady.contained (fun l s expected => ?_) (linked.rewrite named rewrites keeps) room
  rwa [keeps.expects_eq]

end Body

end Restack
