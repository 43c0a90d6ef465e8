import Cenix.RoundRobin
import Cenix.Scheduler.InLine
import Cenix.Scheduler.Interleavings

namespace Cenix

open LinkedLists

/-! Threads get the processor in turn. -/

namespace Kernel

variable {k k' k₁ : Kernel} {s s' : RoundRobin Addr} {t u : Addr} {n : Nat}

/-- The threads that are ready are the one that runs and those that wait. -/
structure Schedules (k : Kernel) (s : RoundRobin Addr) : Prop where
  running : k.scheduler.currentThread = s.running
  due : k.scheduler.pendingContextSwitch = s.due
  inLine : k.InLine s.waiting
  ready : ∀ t ∈ s.waiting, (k.threads t).execMode = execModeRunning
  placed : ∀ t, (k.threads t).execMode = execModeRunning → s.running = some t ∨ t ∈ s.waiting
  awake : s.Awake

/-- The part of the kernel that the scheduler works on. -/
structure SameSchedule (k k' : Kernel) : Prop where
  queues : k'.scheduler.priorityQueues = k.scheduler.priorityQueues
  current : k'.scheduler.currentThread = k.scheduler.currentThread
  pending : k'.scheduler.pendingContextSwitch = k.scheduler.pendingContextSwitch
  entry : ∀ t, (k'.threads t).runqueueEntry = (k.threads t).runqueueEntry
  runqueue : ∀ t, (k'.threads t).runqueue = (k.threads t).runqueue
  mode : ∀ t, (k'.threads t).execMode = (k.threads t).execMode

namespace SameSchedule

theorem trans (h : k.SameSchedule k₁) (h' : k₁.SameSchedule k') : k.SameSchedule k' where
  queues := h'.queues.trans h.queues
  current := h'.current.trans h.current
  pending := h'.pending.trans h.pending
  entry t := (h'.entry t).trans (h.entry t)
  runqueue t := (h'.runqueue t).trans (h.runqueue t)
  mode t := (h'.mode t).trans (h.mode t)

theorem modifyThread (k : Kernel) (t : Addr) (change : ThreadCapability → ThreadCapability)
    (hentry : (change (k.threads t)).runqueueEntry = (k.threads t).runqueueEntry)
    (hrunqueue : (change (k.threads t)).runqueue = (k.threads t).runqueue)
    (hmode : (change (k.threads t)).execMode = (k.threads t).execMode) :
    k.SameSchedule (k.modifyThread t change) where
  queues := rfl
  current := rfl
  pending := rfl
  entry u := modifyThread_field k t u (·.runqueueEntry) change hentry
  runqueue u := modifyThread_field k t u (·.runqueue) change hrunqueue
  mode u := modifyThread_field k t u (·.execMode) change hmode

theorem transferred {recvBuffer : Addr} (h : Transferred recvBuffer k k') :
    k.SameSchedule k' := by
  obtain ⟨s, kinds, bits, rfl⟩ := h
  exact ⟨rfl, rfl, rfl, fun _ => rfl, fun _ => rfl, fun _ => rfl⟩

theorem staleHead (h : k.SameSchedule k') : k'.staleHead = k.staleHead := by
  unfold Kernel.staleHead
  rw [h.queues]
  have hlinks : k'.runqueueEntries = k.runqueueEntries := funext h.entry
  rw [hlinks]

end SameSchedule

theorem resumeThread_staleHead {reason : BitVec 8}
    (hmode : (k.threads t).execMode &&& ~~~reason ≠ execModeRunning) :
    (k.resumeThread t reason).staleHead = k.staleHead := by
  unfold resumeThread staleHead
  simp only [modifyThread_self, if_neg hmode, modifyThread_scheduler]
  rw [runqueueEntries_modifyThread _ _ _ rfl]

/-- What a send or a receive means to the scheduler: the thread that it waited for goes
on, or the calling thread waits. -/
def Passes (k k' : Kernel) : Prop :=
  ∃ k₁ t, k.SameSchedule k₁ ∧ (k' = k₁.resumeThread t execModeBlocked ∨
    k.scheduler.currentThread = some t ∧ k' = k₁.suspendThread t execModeBlocked)

theorem endpointSend_passes {fuel : Nat} {slot : SlotPtr} {message : Addr} {result : Nat}
    (hsend : k.endpointSend fuel slot message = some (result, k')) : k.Passes k' := by
  simp only [endpointSend, Option.bind_eq_some_iff] at hsend
  obtain ⟨thread, hcurrent, hsend⟩ := hsend
  split at hsend
  · rename_i receiving popped hpop
    have heq : (k.popReceiving (k.space.slots slot).resource).2 = popped :=
      congrArg Prod.snd hpop
    have hpopped : k.SameSchedule popped := by
      rw [← heq]
      exact ⟨rfl, rfl, rfl, fun _ => rfl, fun _ => rfl, fun _ => rfl⟩
    simp only [sendTo, Option.map_map, Option.map_eq_some_iff] at hsend
    obtain ⟨k₁, htransfer, heq⟩ := hsend
    cases heq
    have hwoken := SameSchedule.modifyThread popped receiving (fun t => { t with
      flags := { t.flags with blockedOnReceive := false }
      blockedOn := none }) rfl rfl rfl
    have htransferred := SameSchedule.transferred (transferCapabilities_frame htransfer)
    have hdelivered : popped.SameSchedule k₁ :=
      hwoken.trans ⟨htransferred.queues, htransferred.current, htransferred.pending,
        htransferred.entry, htransferred.runqueue, htransferred.mode⟩
    exact ⟨k₁, receiving, hpopped.trans hdelivered, .inl rfl⟩
  · cases hsend
    unfold blockSending
    have hblocked := SameSchedule.modifyThread k thread (fun t => { t with
      messageBuffer := message
      sendingBadge := (k.space.slots slot).badge
      blockedOn := some (k.space.slots slot).resource
      flags := { t.flags with blockedOnSend := true } }) rfl rfl rfl
    refine ⟨_, thread, ?_, .inr ⟨hcurrent, rfl⟩⟩
    exact hblocked.trans ⟨rfl, rfl, rfl, fun _ => rfl, fun _ => rfl, fun _ => rfl⟩

theorem endpointReceive_passes {fuel : Nat} {slot : SlotPtr} {message : Addr} {result : Nat}
    (hreceive : k.endpointReceive fuel slot message = some (result, k')) : k.Passes k' := by
  simp only [endpointReceive, Option.bind_eq_some_iff] at hreceive
  obtain ⟨thread, hcurrent, hreceive⟩ := hreceive
  split at hreceive
  · rename_i sending popped hpop
    have heq : (k.popSending (k.space.slots slot).resource).2 = popped :=
      congrArg Prod.snd hpop
    have hpopped : k.SameSchedule popped := by
      rw [← heq]
      exact ⟨rfl, rfl, rfl, fun _ => rfl, fun _ => rfl, fun _ => rfl⟩
    simp only [receiveFrom, Option.map_map, Option.map_eq_some_iff] at hreceive
    obtain ⟨k₁, htransfer, heq⟩ := hreceive
    cases heq
    have hwoken := SameSchedule.modifyThread popped sending (fun t => { t with
      flags := { t.flags with blockedOnSend := false }
      blockedOn := none }) rfl rfl rfl
    have htransferred := SameSchedule.transferred (transferCapabilities_frame htransfer)
    have hdelivered : popped.SameSchedule k₁ :=
      hwoken.trans ⟨htransferred.queues, htransferred.current, htransferred.pending,
        htransferred.entry, htransferred.runqueue, htransferred.mode⟩
    exact ⟨k₁, sending, hpopped.trans hdelivered, .inl rfl⟩
  · cases hreceive
    unfold blockReceiving
    have hblocked := SameSchedule.modifyThread k thread (fun t => { t with
      messageBuffer := message
      sendingBadge := (k.space.slots slot).badge
      blockedOn := some (k.space.slots slot).resource
      flags := { t.flags with blockedOnReceive := true } }) rfl rfl rfl
    refine ⟨_, thread, ?_, .inr ⟨hcurrent, rfl⟩⟩
    exact hblocked.trans ⟨rfl, rfl, rfl, fun _ => rfl, fun _ => rfl, fun _ => rfl⟩

theorem tryContextSwitch_execMode (k : Kernel) (idleThread : BitVec 32)
    (registers : ThreadRegisters) (t : Addr) :
    ((k.tryContextSwitch idleThread registers).2.threads t).execMode =
      (k.threads t).execMode := by
  unfold tryContextSwitch
  split
  · let pending := { k with scheduler := { k.scheduler with pendingContextSwitch := false } }
    have hsame := nextThread_same pending numPriorities
    have hsaved := saveCurrentThread_execMode (pending.nextThread numPriorities).2 registers
      (pending.nextThread numPriorities).1 t
    unfold loadNextThread
    cases hnext : (pending.nextThread numPriorities).1 with
    | none =>
        simp only [pending] at hnext hsaved hsame
        simp only [hnext] at hsaved ⊢
        exact hsaved.trans (hsame.mode t)
    | some n =>
        simp only [pending] at hnext hsaved hsame
        simp only [hnext] at hsaved ⊢
        rw [← hsame.mode t, ← hsaved]
        exact modifyThread_field _ n t (·.execMode)
          (fun t => { t with flags := { t.flags with currentlyRunning := true } }) rfl
  · rfl

namespace Schedules

theorem congr (h : k.Schedules s) (hsame : k.SameSchedule k') : k'.Schedules s where
  running := hsame.current.trans h.running
  due := hsame.pending.trans h.due
  inLine := h.inLine.congr hsame.queues hsame.entry hsame.runqueue
  ready t ht := (hsame.mode t).trans (h.ready t ht)
  placed t ht := h.placed t ((hsame.mode t).symm.trans ht)
  awake := h.awake

/-- A thread with another reason not to run. -/
theorem resumeThread_paused (h : k.Schedules s) {reason : BitVec 8}
    (hmode : (k.threads t).execMode &&& ~~~reason ≠ execModeRunning) :
    (k.resumeThread t reason).Schedules s := by
  have hinLine := h.inLine.resumeThread t reason
  have hpending := k.resumeThread_pending t reason
  have hmodes := k.resumeThread_execMode t
  rw [if_neg fun hboth => hmode hboth.1] at hinLine hpending
  refine ⟨(k.resumeThread_currentThread t reason).trans h.running, hpending.trans h.due, hinLine,
    fun u hu => ?_, fun u hu => ?_, h.awake⟩
  · have hready := h.ready u hu
    rw [hmodes]
    split
    · rw [hready]
      exact BitVec.zero_and
    · exact hready
  · rw [hmodes] at hu
    split at hu
    · rename_i hut
      exact absurd (hut ▸ hu) hmode
    · exact h.placed u hu

/-- A thread that is resumed waits behind the others, unless it waits already or has
another reason not to run. -/
theorem resumeThread (h : k.Schedules s) (t : Addr) (reason : BitVec 8) :
    ∃ s', s.Step 0 s' ∧ (k.resumeThread t reason).Schedules s' := by
  have hinLine := h.inLine.resumeThread t reason
  have hpending := k.resumeThread_pending t reason
  have hmodes := k.resumeThread_execMode t
  have hcurrent := (k.resumeThread_currentThread t reason).trans h.running
  by_cases hmode : (k.threads t).execMode &&& ~~~reason = execModeRunning
  · let due := if s.running = none then true else s.due
    have hstep : s.Step 0 { s.enqueue t with due := due } := by
      apply RoundRobin.Step.enqueue
      · intro hdue
        simp [due, hdue]
      · intro hidle
        simp [due, hidle]
    have hwaiting : (s.enqueue t).waiting =
        if (k.threads t).execMode &&& ~~~reason = execModeRunning ∧ t ∉ s.waiting then
          s.waiting ++ [t] else s.waiting := by
      rw [RoundRobin.enqueue_waiting]
      by_cases ht : t ∈ s.waiting
      · simp [ht]
      · simp [hmode, ht]
    refine ⟨_, hstep, ?_, ?_, hwaiting ▸ hinLine, fun u hu => ?_, fun u hu => ?_,
      h.awake.step hstep⟩
    · exact hcurrent.trans (s.enqueue_running t).symm
    · rw [hpending, h.running, h.due]
      simp [hmode, due]
    · rw [hmodes]
      split
      · rename_i hut
        rwa [hut]
      · rename_i hut
        rcases RoundRobin.mem_enqueue.mp hu with hu | hu
        · exact h.ready u hu
        · exact absurd hu hut
    · rw [hmodes] at hu
      simp only [RoundRobin.enqueue_running, RoundRobin.mem_enqueue]
      split at hu
      · rename_i hut
        exact .inr (.inr hut)
      · rw [← or_assoc]
        exact .inl (h.placed u hu)
  · exact ⟨s, .leave s.waiting s.due (.refl _) id, h.resumeThread_paused hmode⟩

/-- A thread that is suspended gives up its place. -/
theorem suspendThread (h : k.Schedules s) (hright : k.staleHead ≠ some t)
    (newExecMode : BitVec 8) :
    ∃ waiting due, waiting.Sublist s.waiting ∧ (s.due = true → due = true) ∧
      (k.suspendThread t newExecMode).Schedules { s with waiting := waiting, due := due } ∧
      (k.staleHead = none → (k.suspendThread t newExecMode).staleHead = none) := by
  obtain ⟨waiting, hinLine, hsublist, hmem, hfresh⟩ :=
    h.inLine.suspendThread hright newExecMode
  have hmodes := fun u => k.suspendThread_execMode t u newExecMode
  let due := if s.running = some t then true else s.due
  have hdue : s.due = true → due = true := by
    intro hdue
    simp [due, hdue]
  refine ⟨waiting, due, hsublist, hdue, ⟨?_, ?_, hinLine, fun u hu => ?_, fun u hu => ?_,
    h.awake.step (.leave waiting due hsublist hdue)⟩, hfresh⟩
  · exact (k.suspendThread_currentThread t newExecMode).trans h.running
  · rw [suspendThread_pending, h.running, h.due]
  · obtain ⟨hu, hself⟩ := (hmem u).mp hu
    rw [hmodes]
    split
    · rename_i hut
      subst hut
      exact hself rfl
    · exact h.ready u hu
  · rw [hmodes] at hu
    have hboth : (k.threads u).execMode = execModeRunning ∧
        (u = t → (k.threads t).execMode ||| newExecMode = execModeRunning) := by
      split at hu
      · rename_i hut
        subst hut
        exact ⟨(BitVec.or_eq_zero_iff.mp hu).1, fun _ => hu⟩
      · rename_i hut
        exact ⟨hu, fun heq => absurd heq hut⟩
    rcases h.placed u hboth.1 with hrunning | hwaits
    · exact .inl hrunning
    · exact .inr ((hmem u).mpr ⟨hwaits, hboth.2⟩)

/-- A context switch that is due is a switch of the round robin. -/
theorem tryContextSwitch (h : k.Schedules s)
    (hpending : k.scheduler.pendingContextSwitch = true) (idleThread : BitVec 32)
    (registers : ThreadRegisters) :
    (k.tryContextSwitch idleThread registers).2.Schedules
      (s.switch fun t => decide ((k.threads t).execMode = execModeRunning)) := by
  have hmodes := k.tryContextSwitch_execMode idleThread registers
  have hawake := s.awake_switch fun t => decide ((k.threads t).execMode = execModeRunning)
  have hinLine := h.inLine
  cases hwaiting : s.waiting with
  | nil =>
      rw [hwaiting] at hinLine
      obtain ⟨hempty, hcurrent, hdone⟩ :=
        hinLine.tryContextSwitch_nil hpending idleThread registers
      have hswitch : s.switch (fun t => decide ((k.threads t).execMode = execModeRunning)) =
          ⟨s.running.filter fun t => decide ((k.threads t).execMode = execModeRunning), [],
            false⟩ := by
        unfold RoundRobin.switch
        rw [hwaiting]
      rw [hswitch] at hawake ⊢
      refine ⟨?_, hdone, hempty, fun t ht => ?_, fun t ht => ?_, hawake⟩
      · rw [hcurrent, h.running]
      · cases ht
      · rw [hmodes] at ht
        have hrunning := h.placed t ht
        simp only [hwaiting, List.not_mem_nil, or_false] at hrunning ⊢
        simp [hrunning, ht]
  | cons u rest =>
      rw [hwaiting] at hinLine
      obtain ⟨hrest, hcurrent, hdone⟩ :=
        hinLine.tryContextSwitch_cons hpending idleThread registers
      have hplaced := RoundRobin.mem_switch hwaiting
        fun t => decide ((k.threads t).execMode = execModeRunning)
      rw [h.running] at hrest
      refine ⟨?_, ?_, ?_, fun t ht => ?_, fun t ht => ?_, hawake⟩
      · rw [hcurrent, RoundRobin.switch_running hwaiting]
      · rw [hdone, RoundRobin.switch_due]
      · rw [RoundRobin.switch_waiting hwaiting]
        simpa using hrest
      · rw [hmodes]
        rcases (hplaced t).mp ht with hrest | ⟨_, hready⟩
        · exact h.ready t (hwaiting ▸ List.mem_cons_of_mem u hrest)
        · exact of_decide_eq_true hready
      · rw [hmodes] at ht
        rw [RoundRobin.switch_running hwaiting, hplaced t]
        have hold := h.placed t ht
        rw [hwaiting, List.mem_cons] at hold
        rcases hold with hrunning | rfl | hwaits
        · exact .inr (.inr ⟨hrunning, decide_eq_true ht⟩)
        · exact .inl rfl
        · exact .inr (.inl hwaits)

/-- At most one thread waits or goes on because of a send or a receive. -/
theorem passes (h : k.Schedules s) (hpasses : k.Passes k')
    (hright : k.scheduler.currentThread = none ∨
      k.staleHead ≠ k.scheduler.currentThread) : ∃ s', s.Step 0 s' ∧ k'.Schedules s' := by
  obtain ⟨k₁, t, hsame, rfl | ⟨hcurrent, rfl⟩⟩ := hpasses
  · exact (h.congr hsame).resumeThread t execModeBlocked
  · have hstale : k₁.staleHead ≠ some t := by
      rw [hsame.staleHead, ← hcurrent]
      rcases hright with hnone | hne
      · rw [hcurrent] at hnone
        cases hnone
      · exact hne
    obtain ⟨waiting, due, hwaiting, hdue, hs', -⟩ :=
      (h.congr hsame).suspendThread hstale execModeBlocked
    exact ⟨_, .leave waiting due hwaiting hdue, hs'⟩

/-- A thread whose endpoint is destroyed is left suspended. -/
theorem releaseBlocked (h : k.Schedules s) (hfresh : k.staleHead = none) (t : Addr) :
    ∃ waiting due, waiting.Sublist s.waiting ∧ (s.due = true → due = true) ∧
      (k.releaseBlocked t).Schedules { s with waiting := waiting, due := due } ∧
      (k.releaseBlocked t).staleHead = none := by
  obtain ⟨waiting, due, hwaiting, hdue, hsuspended, hfresh'⟩ :=
    h.suspendThread (t := t) (by simp [hfresh]) execModeSuspended
  have hmode : ((k.suspendThread t execModeSuspended).threads t).execMode &&&
      ~~~execModeBlocked ≠ execModeRunning := by
    rw [suspendThread_execMode, if_pos rfl]
    intro hzero
    have hbit := congrArg (fun mode => mode.getLsbD 1) hzero
    simp [execModeSuspended, execModeBlocked, execModeRunning] at hbit
  have hresumed := hsuspended.resumeThread_paused hmode
  have hsame := SameSchedule.modifyThread
    ((k.suspendThread t execModeSuspended).resumeThread t execModeBlocked) t
    (fun t => { t with blockedOn := none }) rfl rfl rfl
  refine ⟨waiting, due, hwaiting, hdue, hresumed.congr hsame, ?_⟩
  rw [← hfresh' hfresh, ← resumeThread_staleHead hmode]
  exact hsame.staleHead

theorem endpointDestructor {fuel : Nat} {slot : SlotPtr} (h : k.Schedules s)
    (hfresh : k.staleHead = none) (hdestroy : k.endpointDestructor fuel slot = some k') :
    ∃ s', s.Step 0 s' ∧ k'.Schedules s' := by
  let Left := fun k : Kernel => ∃ waiting due, waiting.Sublist s.waiting ∧
    (s.due = true → due = true) ∧ k.Schedules { s with waiting := waiting, due := due } ∧
    k.staleHead = none
  have hround : ∀ k t k', Left k → some (k.releaseBlocked t) = some k' → Left k' := by
    rintro k t k' ⟨waiting, due, hwaiting, hdue, hs, hfresh⟩ hrelease
    cases hrelease
    obtain ⟨waiting', due', hwaiting', hdue', hs', hfresh'⟩ := hs.releaseBlocked hfresh t
    exact ⟨waiting', due', hwaiting'.trans hwaiting, fun h => hdue' (hdue h), hs', hfresh'⟩
  have hinitial : Left k := ⟨s.waiting, s.due, .refl _, id, h, hfresh⟩
  simp only [Kernel.endpointDestructor, Option.bind_eq_bind, Option.bind_eq_some_iff]
    at hdestroy
  obtain ⟨k₁, hsending, hreceiving⟩ := hdestroy
  obtain ⟨waiting, due, hwaiting, hdue, hs', -⟩ :=
    listIter_induct hround hreceiving (listIter_induct hround hsending hinitial)
  exact ⟨_, .leave waiting due hwaiting hdue, hs'⟩

end Schedules

/-! Runs. -/

/-- The thread at the head of the line is not suspended while it links back to one that
was in front of it. -/
def SuspendsRight (k : Kernel) : SchedulerOp → Prop
  | .suspendThread thread _ => k.staleHead ≠ some thread
  | .endpointSend _ _ _ | .endpointReceive _ _ _ =>
      k.scheduler.currentThread = none ∨ k.staleHead ≠ k.scheduler.currentThread
  | .endpointDestructor _ _ => k.staleHead = none
  | .resumeThread _ _ | .yieldThread | .tryContextSwitch _ _ => True

/-- The number of switches in one operation. -/
def switchesDue (k : Kernel) : SchedulerOp → Nat
  | .tryContextSwitch _ _ => if k.scheduler.pendingContextSwitch then 1 else 0
  | .resumeThread _ _ | .suspendThread _ _ | .yieldThread | .endpointSend _ _ _
  | .endpointReceive _ _ _ | .endpointDestructor _ _ => 0

instance (k : Kernel) : (op : SchedulerOp) → Decidable (k.SuspendsRight op)
  | .suspendThread thread _ => inferInstanceAs (Decidable (k.staleHead ≠ some thread))
  | .endpointDestructor _ _ => inferInstanceAs (Decidable (k.staleHead = none))
  | .endpointSend _ _ _ | .endpointReceive _ _ _ =>
      inferInstanceAs (Decidable (k.scheduler.currentThread = none ∨
        k.staleHead ≠ k.scheduler.currentThread))
  | .resumeThread _ _ | .yieldThread | .tryContextSwitch _ _ =>
      inferInstanceAs (Decidable True)

theorem Schedules.step {op : SchedulerOp} (h : k.Schedules s) (hright : k.SuspendsRight op)
    (hstep : k.schedulerStep op = some k') :
    ∃ s', s.Step (k.switchesDue op) s' ∧ k'.Schedules s' := by
  cases op with
  | resumeThread thread reason =>
      cases hstep
      exact h.resumeThread thread reason
  | suspendThread thread newExecMode =>
      cases hstep
      obtain ⟨waiting, due, hwaiting, hdue, hs', -⟩ := h.suspendThread hright newExecMode
      exact ⟨_, .leave waiting due hwaiting hdue, hs'⟩
  | yieldThread =>
      cases hstep
      have hstep : s.Step 0 { s with due := true } := .leave s.waiting true (.refl _) fun _ => rfl
      exact ⟨_, hstep, h.running, rfl, h.inLine.congr rfl (fun _ => rfl) (fun _ => rfl), h.ready,
        h.placed, h.awake.step hstep⟩
  | endpointSend fuel slot message =>
      simp only [schedulerStep, Option.map_eq_some_iff] at hstep
      obtain ⟨⟨result, k₁⟩, hsend, rfl⟩ := hstep
      exact h.passes (endpointSend_passes hsend) hright
  | endpointReceive fuel slot message =>
      simp only [schedulerStep, Option.map_eq_some_iff] at hstep
      obtain ⟨⟨result, k₁⟩, hreceive, rfl⟩ := hstep
      exact h.passes (endpointReceive_passes hreceive) hright
  | endpointDestructor fuel slot => exact h.endpointDestructor hright hstep
  | tryContextSwitch idleThread registers =>
      cases hstep
      unfold switchesDue
      by_cases hpending : k.scheduler.pendingContextSwitch = true
      · rw [if_pos hpending]
        exact ⟨_, .switch _ (h.due ▸ hpending), h.tryContextSwitch hpending idleThread registers⟩
      · have hsame : (k.tryContextSwitch idleThread registers).2 = k := by
          unfold Kernel.tryContextSwitch
          rw [if_neg hpending]
        rw [if_neg hpending, hsame]
        exact ⟨s, .leave s.waiting s.due (.refl _) id, h⟩

theorem Suspended.schedules (h : k.Suspended) :
    k.Schedules ⟨none, [], k.scheduler.pendingContextSwitch⟩ where
  running := h.currentThread
  due := rfl
  inLine := by
    refine ⟨?_, fun i _ => ?_, fun t => ?_⟩
    · rw [h.queues 63]
      exact IsLine.empty
    · rw [h.queues i]
      rfl
    · rw [runqueues, h.runqueue t]
      rfl
  ready t ht := by cases ht
  placed t ht := by
    rw [h.mode t] at ht
    exact absurd ht (by decide)
  awake _ hne := absurd rfl hne

theorem Reaches.schedules (hreach : Reaches schedulerStep SuspendsRight Suspended k) :
    ∃ s, k.Schedules s := by
  apply hreach.invariant
  · intro k h
    exact ⟨_, h.schedules⟩
  · rintro k op k' ⟨s, h⟩ hright hstep
    obtain ⟨s', -, hs'⟩ := h.step hright hstep
    exact ⟨s', hs'⟩

/-- Runs in which a thread waits all the time, with the number of switches in them. -/
inductive KeptWaiting (k : Kernel) (t : Addr) : Nat → Kernel → Prop where
  | refl : KeptWaiting k t 0 k
  | step {k₁ k' : Kernel} {n : Nat} (h : KeptWaiting k t n k₁) (op : SchedulerOp)
      (hright : k₁.SuspendsRight op) (hstep : k₁.schedulerStep op = some k')
      (hready : (k'.threads t).execMode = execModeRunning)
      (hother : k'.scheduler.currentThread ≠ some t) :
      KeptWaiting k t (n + k₁.switchesDue op) k'

theorem KeptWaiting.behind {m : Nat} (h : k.KeptWaiting t n k') (hs : k.Schedules s)
    (hbehind : s.Behind t m) :
    n ≤ m ∧ ∃ s', k'.Schedules s' ∧ s'.Behind t (m - n) := by
  induction h with
  | refl => exact ⟨Nat.zero_le m, s, hs, hbehind⟩
  | @step k₁ k' n h op hright hstep hready hother ih =>
      obtain ⟨hle, s₁, hs₁, hbehind₁⟩ := ih
      obtain ⟨s', hstep', hs'⟩ := hs₁.step hright hstep
      rw [hs'.running] at hother
      have ht : t ∈ s'.waiting := (hs'.placed t hready).resolve_left hother
      obtain ⟨hle', hbehind'⟩ :=
        hbehind₁.step hstep' hs₁.inLine.line.fifo.nodup ht hother
      refine ⟨by omega, s', hs', ?_⟩
      rwa [Nat.sub_add_eq]

/-- The threads in front of a thread that waits bound the number of switches until it
is started. -/
theorem waiting_bounded (hreach : Reaches schedulerStep SuspendsRight Suspended k)
    {front back : List Addr} (hwaiting : k.Waiting (front ++ t :: back))
    (hkept : k.KeptWaiting t n k') :
    n ≤ front.length ∧
      ∃ front' back', k'.Waiting (front' ++ t :: back') ∧
        front'.length + n ≤ front.length := by
  obtain ⟨s, hs⟩ := Reaches.schedules hreach
  have hunique : s.waiting = front ++ t :: back := hs.inLine.waiting.unique hwaiting
  obtain ⟨hle, s', hs', front', back', hwaiting', hfront'⟩ :=
    hkept.behind hs ⟨front, back, hunique, Nat.le_refl _⟩
  refine ⟨hle, front', back', ?_, by omega⟩
  rw [← hwaiting']
  exact hs'.inLine.waiting

/-- Three threads of which the first one runs. -/
def takingTurns : Kernel :=
  ((((suspended.resumeThread 1 execModeSuspended).resumeThread 2 execModeSuspended).resumeThread 3
    execModeSuspended).tryContextSwitch 0 .zero).2

theorem takingTurns_reached : Reaches schedulerStep SuspendsRight Suspended takingTurns := by
  have hrun : runWhile schedulerStep SuspendsRight suspended
      [.resumeThread 1 execModeSuspended, .resumeThread 2 execModeSuspended,
        .resumeThread 3 execModeSuspended, .tryContextSwitch 0 .zero] = some takingTurns := rfl
  exact Reaches.runWhile (.initial suspended_suspended) hrun

/-- The third one waits for the second one. -/
theorem waiting_bounded_turns :
    takingTurns.Waiting ([2] ++ 3 :: []) ∧
      takingTurns.KeptWaiting 3 1 (takingTurns.yieldThread.tryContextSwitch 0 .zero).2 ∧
      1 ≤ [2].length ∧ ∃ front' back',
        (takingTurns.yieldThread.tryContextSwitch 0 .zero).2.Waiting (front' ++ 3 :: back') ∧
          front'.length + 1 ≤ [2].length := by
  have hwaiting : takingTurns.Waiting ([2] ++ 3 :: []) :=
    ⟨by decide, rfl, rfl, rfl, rfl, trivial⟩
  have hkept : takingTurns.KeptWaiting 3 1
      (takingTurns.yieldThread.tryContextSwitch 0 .zero).2 := by
    have hyield : takingTurns.KeptWaiting 3 0 takingTurns.yieldThread :=
      .step .refl .yieldThread trivial rfl (by decide) (by decide)
    exact .step hyield (.tryContextSwitch 0 .zero) trivial rfl (by decide) (by decide)
  exact ⟨hwaiting, hkept, waiting_bounded takingTurns_reached hwaiting hkept⟩

/-- The processor never idles while a thread is ready. -/
theorem scheduler_conserves (hreach : Reaches schedulerStep SuspendsRight Suspended k) :
    (∃ xs, k.Waiting xs ∧ (∀ t ∈ xs, (k.threads t).execMode = execModeRunning) ∧
      ∀ t, (k.threads t).execMode = execModeRunning →
        k.scheduler.currentThread = some t ∨ t ∈ xs) ∧
    (k.scheduler.currentThread = none → k.scheduler.pendingContextSwitch = false →
      ∀ t, (k.threads t).execMode ≠ execModeRunning) ∧
    ∀ idleThread registers, k.scheduler.pendingContextSwitch = true →
      (k.tryContextSwitch idleThread registers).2.scheduler.currentThread = none →
      ∀ t, (k.threads t).execMode ≠ execModeRunning := by
  obtain ⟨s, hs⟩ := Reaches.schedules hreach
  have hidle : ∀ {k : Kernel} {s : RoundRobin Addr}, k.Schedules s →
      k.scheduler.currentThread = none → k.scheduler.pendingContextSwitch = false →
      ∀ t, (k.threads t).execMode ≠ execModeRunning := by
    intro k s hs hcurrent hpending t ht
    rw [hs.running] at hcurrent
    rw [hs.due] at hpending
    rcases hs.placed t ht with hrunning | hwaits
    · rw [hcurrent] at hrunning
      cases hrunning
    · have hdue := hs.awake hcurrent (List.ne_nil_of_mem hwaits)
      rw [hpending] at hdue
      cases hdue
  refine ⟨⟨s.waiting, hs.inLine.waiting, hs.ready, fun t ht => ?_⟩, hidle hs,
    fun idleThread registers hpending hcurrent t ht => ?_⟩
  · rw [hs.running]
    exact hs.placed t ht
  · have hswitched := hs.tryContextSwitch hpending idleThread registers
    apply hidle hswitched hcurrent (hswitched.due.trans (RoundRobin.switch_due ..)) t
    rwa [tryContextSwitch_execMode]

/-- All three are ready, and one of them runs. -/
theorem scheduler_conserves_turns :
    (∃ xs, takingTurns.Waiting xs ∧
      (∀ t ∈ xs, (takingTurns.threads t).execMode = execModeRunning) ∧
      ∀ t, (takingTurns.threads t).execMode = execModeRunning →
        takingTurns.scheduler.currentThread = some t ∨ t ∈ xs) ∧
    (takingTurns.scheduler.currentThread = none →
      takingTurns.scheduler.pendingContextSwitch = false →
      ∀ t, (takingTurns.threads t).execMode ≠ execModeRunning) ∧
    ∀ idleThread registers, takingTurns.scheduler.pendingContextSwitch = true →
      (takingTurns.tryContextSwitch idleThread registers).2.scheduler.currentThread = none →
      ∀ t, (takingTurns.threads t).execMode ≠ execModeRunning :=
  scheduler_conserves takingTurns_reached

end Kernel

end Cenix
