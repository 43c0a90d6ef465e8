import Cenix.Endpoint.Relocation
import Cenix.Kernel.Boot
import Cenix.Runs

namespace Cenix

open LinkedLists

/-! Runs of everything that blocked threads take part in. -/

namespace Kernel

/-- `threadDestructor` is what the destructor of a thread does after it has deleted
the root capability, and `rest` is what the kernel does to the capability space. -/
inductive BlockingOp where
  | endpointSend (fuel : Nat) (caller : Addr) (slot : SlotPtr) (message : Addr)
  | endpointReceive (fuel : Nat) (caller : Addr) (slot : SlotPtr) (message : Addr)
  | resume (slot : SlotPtr)
  | suspend (slot : SlotPtr)
  | threadDestructor (thread : Addr)
  | endpointDestructor (fuel : Nat) (slot : SlotPtr)
  | relocate (fuel : Nat) (src dest : Addr)
  | rest (space : Space) (kinds : Addr → Kind)

/-- The destructors free what they destroy.  A blocked thread makes no call. -/
def blockingStep (k : Kernel) : BlockingOp → Option Kernel
  | .endpointSend fuel caller slot message =>
      if k.IsBlocked caller then none
      else ((k.switchTo caller).endpointSend fuel slot message).map (·.2)
  | .endpointReceive fuel caller slot message =>
      if k.IsBlocked caller then none
      else ((k.switchTo caller).endpointReceive fuel slot message).map (·.2)
  | .resume slot => some (k.resume slot).2
  | .suspend slot => some (k.suspend slot).2
  | .threadDestructor thread => some ((k.unlinkThread thread).freeResource thread)
  | .endpointDestructor fuel slot =>
      (k.endpointDestructor fuel slot).map fun k => k.freeResource (k.space.slots slot).resource
  | .relocate fuel src dest => if k.CanMove src dest then k.relocate fuel src dest else none
  | .rest space kinds => some { k with space := space, kinds := kinds }

/-- What the steps rely on. -/
def KeepsQueues (k : Kernel) : BlockingOp → Prop
  | .endpointSend _ caller slot _ =>
      let endpoint := (k.space.slots slot).resource
      k.IsThread caller ∧ k.IsEndpoint endpoint ∧
        (k.endpoints endpoint).blockedReceiving.start =
          (k.endpoints endpoint).blockedReceiving.last
  | .endpointReceive _ caller slot _ =>
      let endpoint := (k.space.slots slot).resource
      k.IsThread caller ∧ k.IsEndpoint endpoint ∧
        (k.endpoints endpoint).blockedSending.start = (k.endpoints endpoint).blockedSending.last
  | .resume _ | .suspend _ => True
  | .threadDestructor thread => thread ≠ 0 ∧ k.IsThread thread
  | .endpointDestructor _ slot =>
      let endpoint := (k.space.slots slot).resource
      k.IsEndpoint endpoint ∧ (k.endpoints endpoint).blockedSending.start = none ∧
        (k.endpoints endpoint).blockedReceiving.start = none
  | .relocate fuel src dest => k.FindsOwner fuel src dest
  | .rest space _ => k.SameObjects { k with space := space }

variable {fuel : Nat} {k k' : Kernel} {slot : SlotPtr}

theorem Blocking.step (h : k.Blocking) {op : BlockingOp} (hkeeps : k.KeepsQueues op)
    (hstep : k.blockingStep op = some k') : k'.Blocking := by
  have hswitch : ∀ caller, k.SameBlocking (k.switchTo caller) :=
    fun caller => sameBlocking_of (.of_eq rfl) rfl rfl
  cases op with
  | endpointSend fuel caller slot message =>
      simp only [blockingStep] at hstep
      split at hstep
      · cases hstep
      · rename_i hblocked
        simp only [Option.map_eq_some_iff] at hstep
        obtain ⟨⟨result, k₁⟩, hsend, rfl⟩ := hstep
        obtain ⟨hthread, he, hlast⟩ := hkeeps
        exact (h.congr (hswitch caller)).endpointSend rfl hthread hblocked he hlast hsend
  | endpointReceive fuel caller slot message =>
      simp only [blockingStep] at hstep
      split at hstep
      · cases hstep
      · rename_i hblocked
        simp only [Option.map_eq_some_iff] at hstep
        obtain ⟨⟨result, k₁⟩, hreceive, rfl⟩ := hstep
        obtain ⟨hthread, he, hlast⟩ := hkeeps
        exact (h.congr (hswitch caller)).endpointReceive rfl hthread hblocked he hlast hreceive
  | resume slot =>
      cases hstep
      exact h.congr (k.resume_sameBlocking slot)
  | suspend slot =>
      cases hstep
      exact h.congr (k.suspend_sameBlocking slot)
  | threadDestructor thread =>
      cases hstep
      exact h.unlinkThread hkeeps.2 hkeeps.1
  | endpointDestructor fuel slot =>
      simp only [blockingStep, Option.map_eq_some_iff] at hstep
      obtain ⟨k₁, hdestroy, rfl⟩ := hstep
      rw [endpointDestructor_space hdestroy]
      exact h.endpointDestructor rfl hkeeps.1 hkeeps.2.1 hkeeps.2.2 hdestroy
  | relocate fuel src dest =>
      simp only [blockingStep] at hstep
      split at hstep
      · rename_i hcan
        exact h.relocate hcan hkeeps hstep
      · cases hstep
  | rest space kinds =>
      cases hstep
      exact h.congr (sameBlocking_of ⟨hkeeps.thread, hkeeps.endpoint⟩ rfl rfl)

/-! A deletion is a sequence of such steps. -/

/-- Zero or more steps, whether they meet the condition or not. -/
def BlockingSteps : Kernel → Kernel → Prop :=
  Relation.ReflTransGen fun k k' => ∃ op, k.blockingStep op = some k'

theorem blockingSteps_rest (k : Kernel) (space : Space) (kinds : Addr → Kind) :
    BlockingSteps k { k with space := space, kinds := kinds } :=
  .single ⟨.rest space kinds, rfl⟩

theorem blockingSteps_free (k : Kernel) (b : Addr) : BlockingSteps k (k.freeResource b) := by
  unfold freeResource
  split
  · exact .refl
  · exact blockingSteps_rest k _ _

theorem nodeDestructor_steps {delete : Kernel → SlotPtr → Option Kernel}
    (hdelete : ∀ k p k', delete k p = some k' → BlockingSteps k k')
    (h : k.nodeDestructor delete fuel slot = some k') : BlockingSteps k k' := by
  refine foldlM_induct (motive := BlockingSteps k) ?_ h .refl
  intro k₁ i k₂ hk₁ hround
  apply Relation.ReflTransGen.trans hk₁
  cases destroySlot_cases hround with
  | inl hempty =>
      rw [hempty.2]
  | inr hlive =>
      obtain ⟨-, s, -, hdelete'⟩ := hlive
      exact (blockingSteps_rest k₁ s k₁.kinds).trans (hdelete _ _ _ hdelete')

/-- The resource is destroyed and freed. -/
theorem destructor_steps {delete : Kernel → SlotPtr → Option Kernel}
    (hdelete : ∀ k p k', delete k p = some k' → k.Shrunk k' ∧ BlockingSteps k k')
    (h : k.destructor delete fuel slot = some k') :
    BlockingSteps k (k'.freeResource (k'.space.slots slot).resource) := by
  unfold destructor at h
  split at h
  · have hstep : k.blockingStep (.endpointDestructor fuel slot) =
        some (k'.freeResource (k'.space.slots slot).resource) := by
      simp only [blockingStep, h, Option.map_some]
    exact .single ⟨_, hstep⟩
  · simp only [threadDestructor, Option.map_eq_some_iff] at h
    obtain ⟨k₁, hroot, rfl⟩ := h
    obtain ⟨hshrunk, hsteps⟩ := hdelete _ _ _ hroot
    rw [unlinkThread_space, hshrunk.resource]
    exact hsteps.trans (.single ⟨.threadDestructor (k.space.slots slot).resource, rfl⟩)
  · exact (nodeDestructor_steps (fun k p k' hp => (hdelete k p k' hp).2) h).trans
      (blockingSteps_free ..)
  · cases h
    exact blockingSteps_free ..
  · cases h
    exact blockingSteps_free ..
  · cases h
    exact blockingSteps_free ..
  · cases h

theorem deleteCapability_steps (h : deleteCapability fuel k slot = some k') :
    BlockingSteps k k' := by
  induction fuel generalizing k slot k' with
  | zero => cases h
  | succ fuel ih =>
      obtain ⟨s, -, hcases⟩ := deleteCapability_cases h
      apply (blockingSteps_rest k s k.kinds).trans
      cases hcases with
      | inl hshared =>
          rw [hshared.2]
          exact blockingSteps_rest _ _ _
      | inr hlast =>
          obtain ⟨-, k₁, hdestroy, rfl⟩ := hlast
          have hdelete : ∀ k p k', deleteCapability fuel k p = some k' →
              k.Shrunk k' ∧ BlockingSteps k k' :=
            fun _ _ _ hp => ⟨deleteCapability_shrunk hp, ih hp⟩
          exact (destructor_steps hdelete hdestroy).trans (blockingSteps_rest _ _ _)

/-! The records of the threads agree with the queues. -/

/-- No thread waits anywhere yet. -/
structure NothingBlocked (k : Kernel) : Prop where
  queues : ∀ e, k.IsEndpoint e → k.endpoints e = ⟨Container.empty, Container.empty⟩
  threads : ∀ t, k.IsThread t → (k.threads t).blockedState.Idle

theorem NothingBlocked.blocking (h : k.NothingBlocked) : k.Blocking where
  queues q := by
    have hempty : k.waitingQueue q = Container.empty := by
      unfold waitingQueue
      split
      · rename_i he
        obtain ⟨e, direction⟩ := q
        cases direction <;> simp only [endpointQueue, h.queues e he]
      · rfl
    refine ⟨[], ?_, ?_⟩
    · rw [hempty]
      constructor <;> simp [Container.empty]
    · intro t
      cases Decidable.em (k.IsThread t) with
      | inl ht => simp [waitingFor_idle (h.threads t ht)]
      | inr ht => simp [waitingFor_dead ht]
  threads t ht := .inl (h.threads t ht)

def OnQueue (k : Kernel) (q : Addr × Direction) (t : Addr) : Prop :=
  k.IsEndpoint q.1 ∧ ∃ xs, IsQueue (k.endpointQueue q) k.blockedQueues xs ∧ t ∈ xs

/-- The flag that says that a thread waits in this direction. -/
def waitsTo (k : Kernel) (t : Addr) : Direction → Bool
  | .sending => (k.threads t).flags.blockedOnSend
  | .receiving => (k.threads t).flags.blockedOnReceive

theorem Blocking.onQueue_iff (h : k.Blocking) {t : Addr} {q : Addr × Direction} :
    k.OnQueue q t ↔ k.waitingFor t = some q := by
  obtain ⟨xs, hxs, hmem⟩ := h.queues q
  constructor
  · intro hq
    obtain ⟨he, ys, hys, ht⟩ := hq
    rw [waitingQueue, if_pos he] at hxs
    rw [← hmem, hxs.unique hys]
    exact ht
  · intro hkey
    have he := (h.waits hkey).2.2
    rw [waitingQueue, if_pos he] at hxs
    exact ⟨he, xs, hxs, (hmem t).mpr hkey⟩

theorem Blocking.waitingFor_iff (h : k.Blocking) {t e : Addr} {direction : Direction}
    (ht : k.IsThread t) : k.waitingFor t = some (e, direction) ↔
      k.waitsTo t direction = true ∧ (k.threads t).blockedOn = some e := by
  cases h.threads t ht with
  | inl hidle =>
      have hon : (k.threads t).blockedOn = none := congrArg BlockedState.on hidle
      simp [waitingFor_idle hidle, hon]
  | inr hwaits =>
      obtain ⟨⟨e', direction'⟩, hwaits, -⟩ := hwaits
      have hon : (k.threads t).blockedOn = some e' := congrArg BlockedState.on hwaits
      have hsend : (k.threads t).flags.blockedOnSend = decide (direction' = .sending) :=
        congrArg BlockedState.onSend hwaits
      have hreceive : (k.threads t).flags.blockedOnReceive = decide (direction' = .receiving) :=
        congrArg BlockedState.onReceive hwaits
      rw [waitingFor_waits ht hwaits, hon]
      cases direction <;> simp [waitsTo, hsend, hreceive, and_comm]

/-- What the records of the threads say. -/
structure RecordsBlocking (k : Kernel) : Prop where
  wellFormed : ∀ e direction, k.IsEndpoint e → ∃ xs,
    IsQueue (k.endpointQueue (e, direction)) k.blockedQueues xs ∧ ∀ t ∈ xs, k.IsThread t
  onQueue : ∀ e direction t, k.IsEndpoint e → k.IsThread t →
    (k.OnQueue (e, direction) t ↔
      k.waitsTo t direction = true ∧ (k.threads t).blockedOn = some e)
  exclusive : ∀ t, k.IsThread t →
    ¬(k.waitsTo t .sending = true ∧ k.waitsTo t .receiving = true)
  idle : ∀ t, k.IsThread t →
    ((k.threads t).blockedOn = none ∧ k.waitsTo t .sending = false ∧
        k.waitsTo t .receiving = false ↔
      (∀ q, ¬k.OnQueue q t) ∧ ¬k.IsBlocked t)

theorem Blocking.recordsBlocking (h : k.Blocking) : k.RecordsBlocking where
  wellFormed e direction he := by
    obtain ⟨xs, hxs, hmem⟩ := h.queues (e, direction)
    rw [waitingQueue, if_pos he] at hxs
    exact ⟨xs, hxs, fun t ht => (h.waits ((hmem t).mp ht)).1⟩
  onQueue e direction t he ht := by rw [h.onQueue_iff, h.waitingFor_iff ht]
  exclusive t ht hboth := by
    cases h.threads t ht with
    | inl hidle =>
        have hsend := hboth.1.symm.trans (congrArg BlockedState.onSend hidle)
        cases hsend
    | inr hwaits =>
        obtain ⟨⟨e, direction⟩, hwaits, -⟩ := hwaits
        have hsend := hboth.1.symm.trans (congrArg BlockedState.onSend hwaits)
        have hreceive := hboth.2.symm.trans (congrArg BlockedState.onReceive hwaits)
        cases direction with
        | sending => exact absurd hreceive (by simp)
        | receiving => exact absurd hsend (by simp)
  idle t ht := by
    simp only [h.onQueue_iff]
    cases h.threads t ht with
    | inl hidle =>
        have hblocked : ¬k.IsBlocked t := by
          have hmode := congrArg BlockedState.blocked hidle
          intro hset
          have hfalse := hset.symm.trans hmode
          cases hfalse
        refine iff_of_true ⟨congrArg BlockedState.on hidle, congrArg BlockedState.onSend hidle,
          congrArg BlockedState.onReceive hidle⟩ ⟨fun q hq => ?_, hblocked⟩
        rw [waitingFor_idle hidle] at hq
        cases hq
    | inr hwaits =>
        obtain ⟨q, hwaits, -⟩ := hwaits
        refine iff_of_false (fun hidle => ?_) (fun hno => hno.1 q (waitingFor_waits ht hwaits))
        have hon := hidle.1.symm.trans (congrArg BlockedState.on hwaits)
        cases hon

/-- Three threads and an endpoint at 7, which every slot refers to. -/
def threeThreads : Kernel :=
  { Kernel.zero with space := { Space.zero with
      slots := fun _ => { Capability.zero with handlers := some .endpoint, resource := 7 }
      objects := fun b =>
        if b = 7 then some .endpoint
        else if b = 1 ∨ b = 2 ∨ b = 3 then some .thread
        else none } }

theorem threeThreads_nothingBlocked : threeThreads.NothingBlocked where
  queues _ _ := rfl
  threads _ _ := by
    have hzero : ThreadCapability.zero.blockedState = ⟨none, false, false, false⟩ := by decide
    exact hzero

end Kernel

end Cenix
