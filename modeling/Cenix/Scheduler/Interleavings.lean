import Cenix.Scheduler.Switching
import Cenix.Kernel.Boot
import Cenix.Kernel.Ipc

namespace Cenix

open LinkedLists

/-! Interleavings of the operations that use the scheduler. -/

namespace Kernel

variable {k k' : Kernel} {t : Addr}

namespace SchedulerInvariant

theorem congr (h : k.SchedulerInvariant)
    (hqueues : k'.scheduler.priorityQueues = k.scheduler.priorityQueues)
    (hcurrent : k'.scheduler.currentThread = k.scheduler.currentThread)
    (hentry : ∀ t, (k'.threads t).runqueueEntry = (k.threads t).runqueueEntry)
    (hrunqueue : ∀ t, (k'.threads t).runqueue = (k.threads t).runqueue)
    (hmode : ∀ t, (k'.threads t).execMode = (k.threads t).execMode)
    (hflag : ∀ t, (k'.threads t).flags.currentlyRunning =
      (k.threads t).flags.currentlyRunning) : k'.SchedulerInvariant where
  queued := h.queued.congr hqueues hcurrent hentry hrunqueue hmode
  current t := by rw [hflag, hcurrent, h.current]

/-- A change of a thread that the scheduler does not see. -/
theorem modifyThread (h : k.SchedulerInvariant)
    {change : ThreadCapability → ThreadCapability}
    (hentry : (change (k.threads t)).runqueueEntry = (k.threads t).runqueueEntry)
    (hrunqueue : (change (k.threads t)).runqueue = (k.threads t).runqueue)
    (hmode : (change (k.threads t)).execMode = (k.threads t).execMode)
    (hflag : (change (k.threads t)).flags.currentlyRunning =
      (k.threads t).flags.currentlyRunning) : (k.modifyThread t change).SchedulerInvariant :=
  h.congr rfl rfl (fun u => modifyThread_field k t u (·.runqueueEntry) change hentry)
    (fun u => modifyThread_field k t u (·.runqueue) change hrunqueue)
    (fun u => modifyThread_field k t u (·.execMode) change hmode)
    (fun u => modifyThread_field k t u (·.flags.currentlyRunning) change hflag)

theorem resumeThread (h : k.SchedulerInvariant) (t : Addr) (reason : BitVec 8) :
    (k.resumeThread t reason).SchedulerInvariant where
  queued := h.queued.resumeThread reason
  current u := by rw [resumeThread_flags, resumeThread_currentThread, h.current]

theorem suspendThread (h : k.SchedulerInvariant) (t : Addr) (newExecMode : BitVec 8) :
    (k.suspendThread t newExecMode).SchedulerInvariant where
  queued := h.queued.suspendThread newExecMode
  current u := by rw [suspendThread_flags, suspendThread_currentThread, h.current]

theorem transferred {recvBuffer : Addr} (h : k.SchedulerInvariant)
    (htransferred : Transferred recvBuffer k k') : k'.SchedulerInvariant := by
  obtain ⟨s, kinds, bits, rfl⟩ := htransferred
  exact h.congr rfl rfl (fun _ => rfl) (fun _ => rfl) (fun _ => rfl) (fun _ => rfl)

theorem sendTo (h : k.SchedulerInvariant) {fuel : Nat} {thread receiving message : Addr}
    {badge : Nat} (hsend : k.sendTo fuel thread receiving message badge = some k') :
    k'.SchedulerInvariant := by
  simp only [Kernel.sendTo, Option.map_eq_some_iff] at hsend
  obtain ⟨k₁, htransfer, rfl⟩ := hsend
  have hwoken : (k.modifyThread receiving fun t => { t with
      flags := { t.flags with blockedOnReceive := false }
      blockedOn := none }).SchedulerInvariant := h.modifyThread rfl rfl rfl rfl
  apply resumeThread
  apply transferred _ (transferCapabilities_frame htransfer)
  exact hwoken.congr rfl rfl (fun _ => rfl) (fun _ => rfl) (fun _ => rfl) (fun _ => rfl)

theorem receiveFrom (h : k.SchedulerInvariant) {fuel : Nat} {thread sending message : Addr}
    (hreceive : k.receiveFrom fuel thread sending message = some k') :
    k'.SchedulerInvariant := by
  simp only [Kernel.receiveFrom, Option.map_eq_some_iff] at hreceive
  obtain ⟨k₁, htransfer, rfl⟩ := hreceive
  have hwoken : (k.modifyThread sending fun t => { t with
      flags := { t.flags with blockedOnSend := false }
      blockedOn := none }).SchedulerInvariant := h.modifyThread rfl rfl rfl rfl
  apply resumeThread
  apply transferred _ (transferCapabilities_frame htransfer)
  exact hwoken.congr rfl rfl (fun _ => rfl) (fun _ => rfl) (fun _ => rfl) (fun _ => rfl)

theorem blockSending (h : k.SchedulerInvariant) (endpoint thread message : Addr)
    (badge : Nat) : (k.blockSending endpoint thread message badge).SchedulerInvariant := by
  have hblocked : (k.modifyThread thread fun t => { t with
      messageBuffer := message
      sendingBadge := badge
      blockedOn := some endpoint
      flags := { t.flags with blockedOnSend := true } }).SchedulerInvariant :=
    h.modifyThread rfl rfl rfl rfl
  apply suspendThread
  exact hblocked.congr rfl rfl (fun _ => rfl) (fun _ => rfl) (fun _ => rfl) (fun _ => rfl)

theorem blockReceiving (h : k.SchedulerInvariant) (endpoint thread message : Addr)
    (badge : Nat) : (k.blockReceiving endpoint thread message badge).SchedulerInvariant := by
  have hblocked : (k.modifyThread thread fun t => { t with
      messageBuffer := message
      sendingBadge := badge
      blockedOn := some endpoint
      flags := { t.flags with blockedOnReceive := true } }).SchedulerInvariant :=
    h.modifyThread rfl rfl rfl rfl
  apply suspendThread
  exact hblocked.congr rfl rfl (fun _ => rfl) (fun _ => rfl) (fun _ => rfl) (fun _ => rfl)

theorem endpointSend (h : k.SchedulerInvariant) {fuel : Nat} {slot : SlotPtr}
    {message : Addr} {result : Nat}
    (hsend : k.endpointSend fuel slot message = some (result, k')) :
    k'.SchedulerInvariant := by
  simp only [Kernel.endpointSend, Option.bind_eq_some_iff] at hsend
  obtain ⟨thread, _, hsend⟩ := hsend
  cases hpop : k.popReceiving (k.space.slots slot).resource with
  | mk receiving popped =>
      have hpopped : popped.SchedulerInvariant := by
        cases hpop
        exact h.congr rfl rfl (fun _ => rfl) (fun _ => rfl) (fun _ => rfl) (fun _ => rfl)
      rw [hpop] at hsend
      cases receiving with
      | none =>
          cases hsend
          exact h.blockSending ..
      | some receiving =>
          simp only [Option.map_eq_some_iff, Prod.mk.injEq] at hsend
          obtain ⟨k₁, hsend, _, rfl⟩ := hsend
          exact hpopped.sendTo hsend

theorem endpointReceive (h : k.SchedulerInvariant) {fuel : Nat} {slot : SlotPtr}
    {message : Addr} {result : Nat}
    (hreceive : k.endpointReceive fuel slot message = some (result, k')) :
    k'.SchedulerInvariant := by
  simp only [Kernel.endpointReceive, Option.bind_eq_some_iff] at hreceive
  obtain ⟨thread, _, hreceive⟩ := hreceive
  cases hpop : k.popSending (k.space.slots slot).resource with
  | mk sending popped =>
      have hpopped : popped.SchedulerInvariant := by
        cases hpop
        exact h.congr rfl rfl (fun _ => rfl) (fun _ => rfl) (fun _ => rfl) (fun _ => rfl)
      rw [hpop] at hreceive
      cases sending with
      | none =>
          cases hreceive
          exact h.blockReceiving ..
      | some sending =>
          simp only [Option.map_eq_some_iff, Prod.mk.injEq] at hreceive
          obtain ⟨k₁, hreceive, _, rfl⟩ := hreceive
          exact hpopped.receiveFrom hreceive

theorem releaseBlocked (h : k.SchedulerInvariant) (t : Addr) :
    (k.releaseBlocked t).SchedulerInvariant :=
  ((h.suspendThread t _).resumeThread t _).modifyThread rfl rfl rfl rfl

theorem endpointDestructor (h : k.SchedulerInvariant) {fuel : Nat} {slot : SlotPtr}
    (hdestroy : k.endpointDestructor fuel slot = some k') : k'.SchedulerInvariant := by
  have hround : ∀ (k : Kernel) t k', k.SchedulerInvariant →
      some (k.releaseBlocked t) = some k' → k'.SchedulerInvariant := by
    intro k t k' h hrelease
    cases hrelease
    exact h.releaseBlocked t
  simp only [Kernel.endpointDestructor, Option.bind_eq_bind, Option.bind_eq_some_iff]
    at hdestroy
  obtain ⟨k₁, hsending, hreceiving⟩ := hdestroy
  exact listIter_induct hround hreceiving (listIter_induct hround hsending h)

end SchedulerInvariant

/-! Runs. -/

inductive SchedulerOp where
  | resumeThread (thread : Addr) (reason : BitVec 8)
  | suspendThread (thread : Addr) (newExecMode : BitVec 8)
  | yieldThread
  | endpointSend (fuel : Nat) (slot : SlotPtr) (message : Addr)
  | endpointReceive (fuel : Nat) (slot : SlotPtr) (message : Addr)
  | endpointDestructor (fuel : Nat) (slot : SlotPtr)
  | tryContextSwitch (idleThread : BitVec 32) (registers : ThreadRegisters)

def schedulerStep (k : Kernel) : SchedulerOp → Option Kernel
  | .resumeThread thread reason => some (k.resumeThread thread reason)
  | .suspendThread thread newExecMode => some (k.suspendThread thread newExecMode)
  | .yieldThread => some k.yieldThread
  | .endpointSend fuel slot message => (k.endpointSend fuel slot message).map (·.2)
  | .endpointReceive fuel slot message => (k.endpointReceive fuel slot message).map (·.2)
  | .endpointDestructor fuel slot => k.endpointDestructor fuel slot
  | .tryContextSwitch idleThread registers =>
      some (k.tryContextSwitch idleThread registers).2

/-- No thread has been resumed yet. -/
structure Suspended (k : Kernel) : Prop where
  queues : ∀ i, k.scheduler.priorityQueues i = Container.empty
  currentThread : k.scheduler.currentThread = none
  mode : ∀ t, (k.threads t).execMode = execModeSuspended
  runqueue : ∀ t, (k.threads t).runqueue = none
  flags : ∀ t, (k.threads t).flags.currentlyRunning = false

theorem Suspended.schedulerInvariant (h : k.Suspended) : k.SchedulerInvariant where
  queued := by
    constructor
    · intro i
      refine ⟨[], ?_, ?_⟩
      · rw [h.queues i]
        constructor <;> simp [Container.empty]
      · intro t
        simp [runqueues, h.runqueue]
    · intro t ht
      exact absurd (h.runqueue t) ht
    · intro t ht
      rw [h.mode t] at ht
      exact absurd ht (by decide)
  current t := by simp [h.flags, h.currentThread]

/-- Every context switch takes a thread off a queue of one element. -/
def PopsSingleQueues (k : Kernel) : SchedulerOp → Prop
  | .tryContextSwitch _ _ => k.SwitchPopsSingle
  | _ => True

theorem SchedulerInvariant.step {op : SchedulerOp} (h : k.SchedulerInvariant)
    (hop : k.PopsSingleQueues op) (hstep : k.schedulerStep op = some k') :
    k'.SchedulerInvariant := by
  cases op with
  | resumeThread thread reason =>
      cases hstep
      exact h.resumeThread thread reason
  | suspendThread thread newExecMode =>
      cases hstep
      exact h.suspendThread thread newExecMode
  | yieldThread =>
      cases hstep
      exact h.congr rfl rfl (fun _ => rfl) (fun _ => rfl) (fun _ => rfl) (fun _ => rfl)
  | endpointSend fuel slot message =>
      simp only [schedulerStep, Option.map_eq_some_iff] at hstep
      obtain ⟨⟨result, k₁⟩, hsend, rfl⟩ := hstep
      exact h.endpointSend hsend
  | endpointReceive fuel slot message =>
      simp only [schedulerStep, Option.map_eq_some_iff] at hstep
      obtain ⟨⟨result, k₁⟩, hreceive, rfl⟩ := hstep
      exact h.endpointReceive hreceive
  | endpointDestructor fuel slot => exact h.endpointDestructor hstep
  | tryContextSwitch idleThread registers =>
      cases hstep
      exact h.tryContextSwitch hop idleThread registers

/-- As long as context switches only empty queues, the queues are well formed and
hold exactly the threads that are ready to run, and a context switch never starts
another one. -/
theorem scheduler_sound (hreach : Reaches schedulerStep PopsSingleQueues Suspended k) :
    k.SchedulerInvariant ∧ ∀ idleThread registers t,
      k.scheduler.pendingContextSwitch = true →
      (k.tryContextSwitch idleThread registers).2.scheduler.currentThread = some t →
      ((k.tryContextSwitch idleThread registers).2.threads t).execMode =
        execModeRunning := by
  have hinvariant : k.SchedulerInvariant :=
    hreach.invariant (fun _ h => h.schedulerInvariant)
      (fun _ _ _ h hop hstep => h.step hop hstep)
  exact ⟨hinvariant, fun _ _ _ hpending ht => hinvariant.started hpending ht⟩

/-- Every thread as `alloc_thread` leaves it, none of them resumed. -/
def suspended : Kernel :=
  { Kernel.zero with
    threads := fun _ => { ThreadCapability.zero with execMode := execModeSuspended } }

theorem suspended_suspended : suspended.Suspended :=
  ⟨fun _ => rfl, rfl, fun _ => rfl, fun _ => rfl, fun _ => rfl⟩

instance decidablePopsSingle (k : Kernel) : (i : Nat) → Decidable (k.PopsSingle i)
  | 0 => inferInstanceAs (Decidable True)
  | i + 1 =>
      have := decidablePopsSingle k i
      inferInstanceAs (Decidable (if listCanPop (k.scheduler.priorityQueues i) then
        (k.scheduler.priorityQueues i).start = (k.scheduler.priorityQueues i).last
      else k.PopsSingle i))

instance (k : Kernel) : Decidable k.SwitchPopsSingle :=
  inferInstanceAs (Decidable (_ → _))

instance (k : Kernel) : (op : SchedulerOp) → Decidable (k.PopsSingleQueues op)
  | .tryContextSwitch _ _ => inferInstanceAs (Decidable k.SwitchPopsSingle)
  | .resumeThread _ _ | .suspendThread _ _ | .yieldThread | .endpointSend _ _ _
  | .endpointReceive _ _ _ | .endpointDestructor _ _ => inferInstanceAs (Decidable True)

/-- One thread that runs, is suspended in favour of another one and comes back. -/
theorem scheduler_sound_two_threads :
    ∃ k, runWhile schedulerStep PopsSingleQueues suspended
        [.resumeThread 1 execModeSuspended, .tryContextSwitch 0 .zero,
          .resumeThread 2 execModeSuspended, .suspendThread 1 execModeSuspended,
          .tryContextSwitch 0 .zero, .resumeThread 1 execModeSuspended, .yieldThread] =
        some k ∧
      k.SchedulerInvariant ∧ ∀ idleThread registers t,
        k.scheduler.pendingContextSwitch = true →
        (k.tryContextSwitch idleThread registers).2.scheduler.currentThread = some t →
        ((k.tryContextSwitch idleThread registers).2.threads t).execMode =
          execModeRunning := by
  obtain ⟨k, hk⟩ := Option.isSome_iff_exists.mp (by decide : (runWhile schedulerStep
    PopsSingleQueues suspended [.resumeThread 1 execModeSuspended, .tryContextSwitch 0 .zero,
      .resumeThread 2 execModeSuspended, .suspendThread 1 execModeSuspended,
      .tryContextSwitch 0 .zero, .resumeThread 1 execModeSuspended, .yieldThread]).isSome)
  exact ⟨k, hk, scheduler_sound (Reaches.runWhile (.initial suspended_suspended) hk)⟩

/-- Three threads are resumed, the first one is started, the second one, now at the
head of the queue, is suspended: it is the next one to be started. -/
theorem scheduler_starts_suspended :
    ¬ ∀ k, Reaches schedulerStep (fun _ _ => True) Suspended k →
      k.SchedulerInvariant ∧ ∀ idleThread registers t,
        k.scheduler.pendingContextSwitch = true →
        (k.tryContextSwitch idleThread registers).2.scheduler.currentThread = some t →
        ((k.tryContextSwitch idleThread registers).2.threads t).execMode =
          execModeRunning := by
  intro h
  let ops : List SchedulerOp := [.resumeThread 1 execModeSuspended,
    .resumeThread 2 execModeSuspended, .resumeThread 3 execModeSuspended,
    .tryContextSwitch 0 .zero, .suspendThread 2 execModeSuspended, .yieldThread]
  obtain ⟨k, hk⟩ := Option.isSome_iff_exists.mp
    (by decide : (runWhile schedulerStep (fun _ _ => True) suspended ops).isSome)
  have hstarted : (runWhile schedulerStep (fun _ _ => True) suspended ops).map (fun k =>
      let switched := (k.tryContextSwitch 0 .zero).2
      (k.scheduler.pendingContextSwitch, switched.scheduler.currentThread,
        (switched.threads 2).execMode)) = some (true, some 2, execModeSuspended) := by
    decide
  rw [hk] at hstarted
  simp only [Option.map_some, Option.some.injEq, Prod.mk.injEq] at hstarted
  obtain ⟨hpending, hcurrent, hmode⟩ := hstarted
  have hrunning := (h k (Reaches.runWhile (.initial suspended_suspended) hk)).2 0 .zero 2
    hpending hcurrent
  rw [hmode] at hrunning
  exact absurd hrunning (by decide)

end Kernel

end Cenix
