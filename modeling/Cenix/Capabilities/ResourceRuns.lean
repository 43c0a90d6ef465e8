import Cenix.Capabilities.Booting
import Cenix.Capabilities.SharedResources

namespace Cenix

open LinkedLists

/-! The lists of the resources in every state that the kernel reaches. -/

namespace Kernel

variable {k k' : Kernel}

theorem tryContextSwitch_space (k : Kernel) (idleThread : BitVec 32)
    (registers : ThreadRegisters) : (k.tryContextSwitch idleThread registers).2.space = k.space := by
  have hpop : ∀ (k : Kernel) i, (k.popRunqueue i).2.space = k.space := by
    intro k i
    unfold popRunqueue
    simp only
    split <;> rfl
  have hnext : ∀ (k : Kernel) i, (k.nextThread i).2.space = k.space := by
    intro k i
    induction i with
    | zero => rfl
    | succ i ih =>
        unfold nextThread
        split
        · exact hpop k i
        · exact ih
  have hqueue : ∀ (k : Kernel) t, (k.queueThread t).space = k.space := by
    intro k t
    obtain ⟨threads, scheduler, hqueued⟩ := k.queueThread_frame t
    rw [hqueued]
  have hsave : ∀ (k : Kernel) next, (k.saveCurrentThread registers next).2.space = k.space := by
    intro k next
    unfold saveCurrentThread
    split
    · rfl
    · simp only
      split
      · split
        · rfl
        · exact hqueue _ _
      · rfl
  have hload : ∀ (k : Kernel) shouldIdle next,
      (k.loadNextThread idleThread registers shouldIdle next).2.space = k.space := by
    intro k shouldIdle next
    cases next <;> rfl
  unfold tryContextSwitch
  split
  · simp only
    rw [hload, hsave, hnext]
  · rfl

/-- Once booted, the kernel switches to the process server. -/
theorem booted_reaches {condition : Kernel → CapabilityOp → Prop}
    (hother : ∀ k k', condition k (.other k')) (h : booted = some k) :
    Reaches capabilityStep condition Boots k := by
  simp only [booted, Option.map_eq_some_iff] at h
  obtain ⟨k₀, hinit, rfl⟩ := h
  have hboots : Boots k₀ := ⟨8, .zero, some 1, some 2, some 3, some 4, hinit⟩
  refine .step (.initial hboots) (hother k₀ (k₀.tryContextSwitch 0 .zero).2) ?_
  have hspace := k₀.tryContextSwitch_space 0 .zero
  simp only [capabilityStep, ← hspace]

/-- The list of every resource holds the live capabilities to it, each once, and a
deletion destroys and frees a resource exactly with the last of them. -/
structure ResourcesSound (k : Kernel) : Prop where
  lists : ∀ p, k.space.Live p → ∃ xs, DList k.space.resourceLinks xs ∧
    ∀ q, q ∈ xs ↔ k.space.Live q ∧ k.space.resource q = k.space.resource p
  deletes : ∀ fuel p k', k.space.Live p → deleteCapability (fuel + 1) k p = some k' →
    k.DeletesResource fuel p k'

/-- A node in slot 2, an endpoint in slot 3 and a copy of its capability in the node. -/
def endpointAndCopy : List CapabilityOp :=
  [.invoke 8 0 4 (.alloc ⟨[], some 5⟩ ⟨typeNode, 2, 2, 4⟩),
    .invoke 8 0 4 (.alloc ⟨[], some 6⟩ ⟨typeEndpoint, 0, 3, 4⟩),
    .invoke 8 2 4 (.nodeCopy ⟨3, 4, 0, 0xff, 0, false⟩)]

/-- A second copy.  The first copy is deleted, and then the original, once it has been
moved into the node. -/
def copyAndDelete : List CapabilityOp :=
  [.invoke 8 2 4 (.nodeCopy ⟨3, 4, 1, 0xff, 0, false⟩), .invoke 8 2 4 (.nodeDelete 0),
    .invoke 8 2 4 (.nodeMove ⟨3, 4, 2⟩), .invoke 8 2 4 (.nodeDelete 2)]

/-- The process server's thread runs. -/
def RunsServer (k : Kernel) : Prop :=
  k.scheduler.currentThread = some 2 ∧ k.space.objects 2 = some .thread

instance (k : Kernel) : Decidable k.RunsServer :=
  inferInstanceAs (Decidable (_ ∧ _))

theorem RunsServer.currentAllocated (h : k.RunsServer) : k.CurrentAllocated := by
  intro t ht
  rw [h.1] at ht
  cases ht
  exact h.2

end Kernel

end Cenix
