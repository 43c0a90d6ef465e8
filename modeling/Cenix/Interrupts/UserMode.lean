import Cenix.Capabilities.Booting
import Cenix.Interrupts.SystemCalls
import Mathlib

namespace Cenix

open LinkedLists

/-! Threads never run in supervisor mode. -/

namespace Kernel

/-- `enter_user_mode` up to the jump; the registers it starts from are not initialized. -/
def enterUserMode (k : Kernel) (idleThread : BitVec 32) (newRegisters : ThreadRegisters) :
    ThreadRegisters × Kernel :=
  let k := { k with scheduler := { k.scheduler with pendingContextSwitch := true } }
  let (newRegisters, k) := k.tryContextSwitch idleThread newRegisters
  ({ newRegisters with statusRegister := newRegisters.statusRegister &&& 0x00ff }, k)

/-- The registers of a thread that does not count as running are loaded as they are. -/
def StoppedInUserMode (k : Kernel) : Prop :=
  ∀ t, (k.threads t).flags.currentlyRunning = false → (k.threads t).registers.UserMode

/-- A context switch does not start a thread that still counts as running, unless it is
the one that is stopped. -/
def StartsStopped (k : Kernel) (registers : ThreadRegisters) : Prop :=
  ∀ t, k.switchOutcome registers = .starts t →
    (k.threads t).flags.currentlyRunning = false ∨ k.scheduler.currentThread = some t

instance (k : Kernel) (registers : ThreadRegisters) : Decidable (k.StartsStopped registers) :=
  match houtcome : k.switchOutcome registers with
  | .continues => isTrue fun t ht => by cases houtcome.symm.trans ht
  | .idles => isTrue fun t ht => by cases houtcome.symm.trans ht
  | .starts t =>
      decidable_of_iff ((k.threads t).flags.currentlyRunning = false ∨
          k.scheduler.currentThread = some t) ⟨fun h u hu => by
            cases houtcome.symm.trans hu
            exact h, fun h => h t houtcome⟩

variable {fuel : Nat} {k k' : Kernel} {registers : ThreadRegisters} {idleThread : BitVec 32}

theorem FramesFrom.stopped (h : k.FramesFrom k') (hstopped : k.StoppedInUserMode) :
    k'.StoppedInUserMode := by
  intro t ht
  rcases h t with ⟨u, hu⟩ | huser
  · have hregisters : (k'.threads t).registers = (k.threads u).registers := congrArg Prod.fst hu
    have hmark : (k'.threads t).flags.currentlyRunning =
        (k.threads u).flags.currentlyRunning := congrArg Prod.snd hu
    rw [hregisters]
    exact hstopped u (hmark.symm.trans ht)
  · exact huser

/-! A context switch. -/

theorem SameFrames.nextThread (k : Kernel) (priorities : Nat) :
    k.SameFrames (k.nextThread priorities).2 := by
  have hpop : ∀ i, k.SameFrames (k.popRunqueue i).2 := by
    intro i
    unfold popRunqueue
    cases listPopFromStart (k.scheduler.priorityQueues i) k.runqueueEntries with
    | mk item rest =>
        cases item with
        | none => exact fun _ => rfl
        | some thread =>
            have hpopped := @modifyThread ((k.setPriorityQueue i rest.1).setRunqueueEntries rest.2)
              thread (fun t => { t with runqueue := none }) rfl rfl
            exact hpopped
  induction priorities with
  | zero => exact refl k
  | succ i ih =>
      unfold Kernel.nextThread
      split
      · exact hpop i
      · exact ih

theorem FramesFrom.saveCurrentThread (hregisters : registers.UserMode) (next : Option Addr) :
    k.FramesFrom (k.saveCurrentThread registers next).2 := by
  unfold Kernel.saveCurrentThread
  cases k.scheduler.currentThread with
  | none => exact refl k
  | some c =>
      have hsaved : k.FramesFrom (k.modifyThread c fun t => { t with
          registers := registers
          flags := { t.flags with currentlyRunning := false } }) := modifyThread k c hregisters
      simp only
      split
      · split
        · exact refl k
        · exact hsaved.trans (of_same fun t => SameFrames.unscheduled.queueThread _ c t)
      · exact hsaved

theorem StoppedInUserMode.loadNextThread (h : k.StoppedInUserMode) (shouldIdle : Bool)
    (next : Option Addr) :
    (k.loadNextThread idleThread registers shouldIdle next).2.StoppedInUserMode := by
  cases next with
  | none => exact h
  | some n =>
      intro t ht
      by_cases htn : t = n
      · subst htn
        simp [Kernel.loadNextThread] at ht
      · simp only [Kernel.loadNextThread, modifyThread_of_ne _ _ _ _ htn] at ht ⊢
        exact h t ht

theorem StoppedInUserMode.tryContextSwitch (h : k.StoppedInUserMode)
    (hregisters : registers.UserMode) :
    (k.tryContextSwitch idleThread registers).2.StoppedInUserMode := by
  unfold Kernel.tryContextSwitch
  split
  · apply loadNextThread
    refine (FramesFrom.saveCurrentThread hregisters _).stopped ?_
    exact (FramesFrom.of_same (SameFrames.nextThread _ numPriorities)).stopped h
  · exact h

/-- The code that runs after a context switch. -/
theorem tryContextSwitch_userMode (h : k.StoppedInUserMode) (hregisters : registers.UserMode)
    (hstarts : k.StartsStopped registers) :
    (k.tryContextSwitch idleThread registers).1.UserMode := by
  have hswitches := k.tryContextSwitch_switches idleThread registers
  cases houtcome : k.switchOutcome registers with
  | continues =>
      rw [houtcome] at hswitches
      generalize k.tryContextSwitch idleThread registers = switched at hswitches
      obtain ⟨frame, k'⟩ := switched
      cases hswitches
      exact hregisters
  | idles =>
      unfold Kernel.switchOutcome at houtcome
      unfold Kernel.tryContextSwitch
      split at houtcome
      · rename_i hpending
        simp only at houtcome
        split at houtcome
        · cases houtcome
        · rename_i k₁ hnext
          rw [if_pos hpending]
          simp only [hnext, Kernel.loadNextThread]
          split <;> exact hregisters
      · cases houtcome
  | starts t =>
      rw [houtcome] at hswitches
      generalize k.tryContextSwitch idleThread registers = switched at hswitches
      obtain ⟨frame, k'⟩ := switched
      cases hswitches
      show (k.savedFrame registers t).UserMode
      unfold savedFrame
      split
      · exact hregisters
      · rename_i hcurrent
        rcases hstarts t houtcome with hmark | hrunning
        · exact h t hmark
        · exact absurd hrunning hcurrent

/-! Booting. -/

/-- The first thread in line is the only one whose registers may be anything. -/
structure FirstInLine (k : Kernel) (first : Addr) : Prop where
  start : (k.scheduler.priorityQueues 63).start = some first
  others : ∀ t, t ≠ first → (k.threads t).registers.UserMode

theorem queueThread_start {t : Addr} (hrunqueue : (k.threads t).runqueue = none)
    (hempty : k.scheduler.priorityQueues 63 = Container.empty) :
    ((k.queueThread t).scheduler.priorityQueues 63).start = some t := by
  unfold queueThread
  rw [hrunqueue]
  simp only [modifyThread_scheduler, hempty, listAppend, Container.empty]
  simp [setRunqueueEntries, setPriorityQueue]

theorem resumeThread_start {t : Addr} (hmode : (k.threads t).execMode = execModeSuspended)
    (hrunqueue : (k.threads t).runqueue = none)
    (hempty : k.scheduler.priorityQueues 63 = Container.empty) :
    ((k.resumeThread t execModeSuspended).scheduler.priorityQueues 63).start = some t := by
  generalize hready : (k.modifyThread t fun t => { t with
    execMode := t.execMode &&& ~~~execModeSuspended }) = k₁
  have hrunning : (k₁.threads t).execMode = execModeRunning := by
    rw [← hready, modifyThread_self]
    show (k.threads t).execMode &&& ~~~execModeSuspended = execModeRunning
    rw [hmode]
    rfl
  have hnone : (k₁.threads t).runqueue = none := by
    rw [← hready, modifyThread_self]
    exact hrunqueue
  have hstart := queueThread_start hnone (by rw [← hready]; exact hempty)
  unfold resumeThread
  simp only [hready, hrunning, if_true]
  split <;> exact hstart

/-- A thread that has been allocated. -/
theorem allocThread_new {block : Option Addr} {t : Addr}
    (h : k.allocThread fuel ⟨[], block⟩ = some (some t, k')) :
    (k'.threads t).execMode = execModeSuspended ∧ (k'.threads t).runqueue = none ∧
      k'.scheduler = k.scheduler := by
  unfold allocThread at h
  split at h
  · cases h
  · simp only [Option.map_eq_some_iff] at h
    obtain ⟨⟨result, k₁⟩, halloc, hinit⟩ := h
    obtain ⟨hresult, hblock⟩ := heapAlloc_still halloc
    cases result with
    | none => cases hinit
    | some _ =>
        cases hinit
        obtain ⟨-, -, rfl⟩ := hblock t hresult.symm
        refine ⟨?_, ?_, rfl⟩
        · simp [initThread, setTableEntries, setThreadBucket, modifySlot]
        · simp [initThread, setTableEntries, setThreadBucket, modifySlot, ThreadCapability.zero]

/-- What the kernel does to its threads when nothing is moved. -/
structure Quiet (k k' : Kernel) : Prop where
  scheduler : k'.scheduler = k.scheduler
  frames : k.SameFrames k'

theorem Quiet.trans {k₁ : Kernel} (h : k.Quiet k₁) (h' : k₁.Quiet k') : k.Quiet k' :=
  ⟨h'.scheduler.trans h.scheduler, h.frames.trans h'.frames⟩

theorem heapAlloc_quiet {block : Option Addr} {kind : ObjectKind} {b : Addr}
    (h : k.heapAlloc fuel ⟨[], block⟩ kind = some (some b, k')) : k.Quiet k' := by
  obtain ⟨hresult, hblock⟩ := heapAlloc_still h
  obtain ⟨-, -, rfl⟩ := hblock b hresult.symm
  exact ⟨rfl, fun _ => rfl⟩

theorem allocNode_quiet {block : Option Addr} {slotBits : Nat} {b : Addr}
    (h : k.allocNode fuel ⟨[], block⟩ slotBits = some (some b, k')) : k.Quiet k' := by
  simp only [allocNode, Option.map_eq_some_iff] at h
  obtain ⟨⟨result, k₁⟩, halloc, hinit⟩ := h
  cases result with
  | none => cases hinit
  | some _ =>
      cases hinit
      have halloc' := heapAlloc_quiet halloc
      exact ⟨halloc'.scheduler, halloc'.frames⟩

theorem populateCapabilitySlot_quiet {address depth e : Nat} {resource : Addr}
    {handlers : Handlers} {flags : CapFlags}
    (h : k.populateCapabilitySlot fuel address depth resource handlers flags = some (e, k')) :
    k.Quiet k' := by
  refine ⟨?_, SameFrames.populateCapabilitySlot h⟩
  rcases populateCapabilitySlot_cases h with ⟨-, kinds, rfl⟩ | ⟨-, result, k₁, kinds, -, -, -, rfl⟩
  · unfold freeIfHeapManaged
    split <;> rfl
  · unfold fillSlot
    simp only
    split <;> rfl

namespace FirstInLine

variable {first : Addr}

theorem of_same (h : k.FirstInLine first)
    (hqueues : k'.scheduler.priorityQueues = k.scheduler.priorityQueues)
    (hframes : k.SameFrames k') : k'.FirstInLine first := by
  refine ⟨hqueues ▸ h.start, fun t ht => ?_⟩
  have hregisters : (k'.threads t).registers = (k.threads t).registers :=
    congrArg Prod.fst (hframes t)
  rw [hregisters]
  exact h.others t ht

/-- Once the first thread runs, its registers are not loaded again. -/
theorem enterUserMode (h : k.FirstInLine first)
    (hcurrent : k.scheduler.currentThread = none) :
    (k.enterUserMode idleThread registers).1.UserMode ∧
      (k.enterUserMode idleThread registers).2.StoppedInUserMode := by
  let pending := { k with scheduler := { k.scheduler with pendingContextSwitch := false } }
  have hpop : listCanPop (pending.scheduler.priorityQueues 63) = true := by
    simp [pending, listCanPop, h.start]
  have hnext : (pending.nextThread numPriorities).1 = some first := by
    rw [numPriorities, Kernel.nextThread, if_pos hpop]
    simp [pending, popRunqueue, listPopFromStart, h.start]
  have hframes := SameFrames.nextThread pending numPriorities
  have hsame := (nextThread_same pending numPriorities).current.trans hcurrent
  have hsave : ∀ next, (pending.nextThread numPriorities).2.saveCurrentThread registers next =
      (true, (pending.nextThread numPriorities).2) := by
    intro next
    unfold Kernel.saveCurrentThread
    rw [hsame]
  constructor
  · unfold Kernel.enterUserMode ThreadRegisters.UserMode
    rw [BitVec.and_assoc]
    exact BitVec.and_zero
  · have hswitch : (k.enterUserMode idleThread registers).2 =
        ((pending.nextThread numPriorities).2.loadNextThread idleThread registers true
          (some first)).2 := by
      unfold Kernel.enterUserMode Kernel.tryContextSwitch
      simp only [if_true]
      rw [hsave, hnext]
    rw [hswitch]
    intro t ht
    by_cases htfirst : t = first
    · subst htfirst
      simp [Kernel.loadNextThread] at ht
    · simp only [Kernel.loadNextThread, modifyThread_of_ne _ _ _ _ htfirst]
      have hregisters : ((pending.nextThread numPriorities).2.threads t).registers =
          (k.threads t).registers := congrArg Prod.fst (hframes t)
      rw [hregisters]
      exact h.others t htfirst

theorem initProcessServer {program thread root : Option Addr} {t : Addr}
    (h : zero.initProcessServer fuel registers ⟨[], program⟩ ⟨[], thread⟩ ⟨[], root⟩ =
      some (t, k)) : k.FirstInLine t := by
  simp only [Kernel.initProcessServer, Option.bind_eq_bind, Option.bind_eq_some_iff] at h
  obtain ⟨⟨_, k₁⟩, hprogram, p, rfl, ⟨_, k₂⟩, hthread, t', rfl, ⟨_, k₃⟩, hroot, r, rfl, h⟩ := h
  simp only [Option.some.injEq, Prod.mk.injEq] at h
  obtain ⟨rfl, rfl⟩ := h
  have hprogram' := heapAlloc_quiet hprogram
  obtain ⟨hmode, hrunqueue, hscheduler⟩ := allocThread_new hthread
  have huser : ∀ t, (k₂.threads t).registers.UserMode := by
    have hzero : ∀ t, ((zero.initThreads.initScheduler).threads t).registers.UserMode :=
      fun t => (by decide : ThreadRegisters.zero.UserMode)
    have hframes := (FramesFrom.of_same hprogram'.frames).trans (FramesFrom.allocThread hthread)
    intro t
    rcases hframes t with ⟨u, hu⟩ | huser
    · have hregisters : (k₂.threads t).registers =
          ((zero.initThreads.initScheduler).threads u).registers := congrArg Prod.fst hu
      rw [hregisters]
      exact hzero u
    · exact huser
  have hempty : k₂.scheduler.priorityQueues 63 = Container.empty := by
    rw [hscheduler, hprogram'.scheduler]
    rfl
  let given := k₂.modifyThread t' fun t => { t with registers := registers }
  have hgivenMode : (given.threads t').execMode = execModeSuspended := by
    rw [modifyThread_self]
    exact hmode
  have hgivenRunqueue : (given.threads t').runqueue = none := by
    rw [modifyThread_self]
    exact hrunqueue
  have hresumed : (given.resumeThread t' execModeSuspended).FirstInLine t' := by
    refine ⟨resumeThread_start hgivenMode hgivenRunqueue hempty, fun t ht => ?_⟩
    have hregisters : ((given.resumeThread t' execModeSuspended).threads t).registers =
        (given.threads t).registers :=
      congrArg Prod.fst (SameFrames.resumeThread given t' execModeSuspended t)
    rw [hregisters, modifyThread_of_ne _ _ _ _ ht]
    exact huser t
  have hroot' := allocNode_quiet hroot
  have hlined : k₃.FirstInLine t' := by
    refine hresumed.of_same ?_ hroot'.frames
    rw [hroot'.scheduler]
  refine ⟨hlined.start, fun t ht => ?_⟩
  simp only [modifySlot, modifyThread_of_ne _ _ _ _ ht]
  exact hlined.others t ht

theorem boots (h : Boots k) :
    ∃ first, k.FirstInLine first ∧ k.scheduler.currentThread = none := by
  obtain ⟨fuel, registers, program, thread, root, addressSpace, hinit⟩ := h
  simp only [mainInit, Option.bind_eq_some_iff] at hinit
  obtain ⟨⟨first, k₁⟩, hserver, hinit⟩ := hinit
  have hlined := initProcessServer hserver
  simp only [initRootNode, Option.bind_eq_bind, Option.bind_eq_some_iff] at hinit
  obtain ⟨⟨_, k₂⟩, halloc, r, rfl, ⟨e₂, k₃⟩, hspace, ⟨e₃, k₄⟩, hdebug, t, -, hk⟩ := hinit
  cases hk
  have hquiet := ((heapAlloc_quiet halloc).trans (populateCapabilitySlot_quiet hspace)).trans
    (populateCapabilitySlot_quiet hdebug)
  have hlined₄ : k₄.FirstInLine first :=
    hlined.of_same (congrArg (·.priorityQueues) hquiet.scheduler) hquiet.frames
  refine ⟨first, ⟨hlined₄.start, fun u hu => ?_⟩, rfl⟩
  have hregisters := k₄.modifyThread_field t u (·.registers) (fun t =>
    { t with flags := { t.flags with currentlyRunning := false } }) rfl
  simp only at hregisters ⊢
  rw [hregisters]
  exact hlined₄.others u hu

end FirstInLine

end Kernel

/-! Runs of the programs and of the kernel. -/

/-- The registers are those of the code that runs. -/
structure UserMachine where
  kernel : Kernel
  frame : ThreadRegisters

/-- What programs compute, which leaves the kernel's memory alone, and every way into the
kernel: traps and exceptions. -/
inductive UserOp where
  | execute (registers : ThreadRegisters)
  | trap (idleThread : BitVec 32) (around : Surroundings) (fuel : Nat)
  | exception (idleThread : BitVec 32)

namespace UserMachine

def step (m : UserMachine) : UserOp → Option UserMachine
  | .execute registers => some { m with frame := registers }
  | .trap idleThread around fuel =>
      (m.kernel.trapHandler (Kernel.invoke around fuel) idleThread m.frame).map fun (frame, k) =>
        ⟨k, frame⟩
  | .exception idleThread =>
      (m.kernel.handleException idleThread m.frame).map fun (frame, k) => ⟨k, frame⟩

/-- Outside supervisor mode, no instruction changes the upper byte of the status
register.  What is to run next is a thread that has been stopped. -/
def KeepsMode (m : UserMachine) : UserOp → Prop
  | .execute registers => m.frame.statusRegister &&& 0x2000 = 0 →
      registers.statusRegister &&& 0xff00 = m.frame.statusRegister &&& 0xff00
  | .trap _ around fuel => ∀ frame k,
      m.kernel.systemCall (Kernel.invoke around fuel) m.frame = some (frame, k) →
        k.StartsStopped frame
  | .exception _ => ∀ k, m.kernel.suspendCurrentThread = some k → k.StartsStopped m.frame

instance (m : UserMachine) (op : UserOp) : Decidable (m.KeepsMode op) :=
  match op with
  | .execute _ => inferInstanceAs (Decidable (_ → _))
  | .trap _ around fuel =>
      match hcall : m.kernel.systemCall (Kernel.invoke around fuel) m.frame with
      | none => isTrue fun frame k h => by cases hcall.symm.trans h
      | some (frame, k) =>
          decidable_of_iff (k.StartsStopped frame) ⟨fun h frame' k' h' => by
            cases hcall.symm.trans h'
            exact h, fun h => h frame k hcall⟩
  | .exception _ =>
      match hsuspend : m.kernel.suspendCurrentThread with
      | none => isTrue fun k h => by cases hsuspend.symm.trans h
      | some k =>
          decidable_of_iff (k.StartsStopped m.frame) ⟨fun h k' h' => by
            cases hsuspend.symm.trans h'
            exact h, fun h => h k hsuspend⟩

/-- `enter_user_mode` once `main_init` is done. -/
def Starting (m : UserMachine) : Prop :=
  ∃ k idleThread newRegisters, Kernel.Boots k ∧
    m = ⟨(k.enterUserMode idleThread newRegisters).2, (k.enterUserMode idleThread newRegisters).1⟩

structure InUserMode (m : UserMachine) : Prop where
  frame : m.frame.UserMode
  stopped : m.kernel.StoppedInUserMode

variable {m m' : UserMachine}

theorem InUserMode.supervisor (h : m.InUserMode) : m.frame.statusRegister &&& 0x2000 = 0 := by
  have hbit := congrArg (· &&& 0x2000) h.frame
  simpa [BitVec.and_assoc] using hbit

/-- An exception of the code that runs suspends its thread. -/
theorem InUserMode.exception (h : m.InUserMode) {thread : Addr}
    (hthread : m.kernel.scheduler.currentThread = some thread) (idleThread : BitVec 32) :
    m.kernel.handleException idleThread m.frame =
      some ((m.kernel.suspendThread thread execModeSuspended).tryContextSwitch idleThread
        m.frame) := by
  have hbit : m.frame.statusRegister[13] = false := by
    simpa using congrArg (·[13]) h.frame
  unfold Kernel.handleException Kernel.suspendCurrentThread
  simp [hbit, hthread]

/-- The context switch at the end of each way into the kernel. -/
theorem InUserMode.switch (h : m.InUserMode) {k : Kernel} {frame : ThreadRegisters}
    (hframes : m.kernel.FramesFrom k)
    (hstatus : frame.statusRegister = m.frame.statusRegister) (hstarts : k.StartsStopped frame)
    (idleThread : BitVec 32) :
    InUserMode ⟨(k.tryContextSwitch idleThread frame).2,
      (k.tryContextSwitch idleThread frame).1⟩ := by
  have hframe : frame.UserMode := by
    unfold ThreadRegisters.UserMode
    rw [hstatus]
    exact h.frame
  have hstopped := hframes.stopped h.stopped
  exact ⟨Kernel.tryContextSwitch_userMode hstopped hframe hstarts,
    hstopped.tryContextSwitch hframe⟩

theorem InUserMode.step (h : m.InUserMode) {op : UserOp} (hkeeps : m.KeepsMode op)
    (hstep : m.step op = some m') : m'.InUserMode := by
  cases op with
  | execute registers =>
      cases hstep
      refine ⟨?_, h.stopped⟩
      unfold ThreadRegisters.UserMode
      rw [hkeeps h.supervisor]
      exact h.frame
  | trap idleThread around fuel =>
      simp only [UserMachine.step, Kernel.trapHandler, Option.map_map, Option.map_eq_some_iff]
        at hstep
      obtain ⟨⟨frame, k⟩, hcall, rfl⟩ := hstep
      have hstarts := hkeeps frame k hcall
      unfold Kernel.systemCall at hcall
      split at hcall
      · cases hcall
        have hyield : m.kernel.FramesFrom m.kernel.yieldThread := .of_same fun _ => rfl
        exact h.switch hyield rfl hstarts idleThread
      · split at hcall
        · simp only [Option.map_eq_some_iff] at hcall
          obtain ⟨⟨result, k₁⟩, hinvoke, heq⟩ := hcall
          cases heq
          have hresult : ({ m.frame with data := m.frame.data.set 0 result } :
              ThreadRegisters).statusRegister = m.frame.statusRegister := rfl
          exact h.switch (.invoke hinvoke) hresult hstarts idleThread
        · cases hcall
          exact h.switch (.refl _) rfl hstarts idleThread
  | exception idleThread =>
      simp only [UserMachine.step, Option.map_eq_some_iff] at hstep
      obtain ⟨switched, hhandle, rfl⟩ := hstep
      unfold Kernel.handleException at hhandle
      split at hhandle
      · cases hhandle
      · simp only [Option.map_eq_some_iff] at hhandle
        obtain ⟨k, hsuspend, rfl⟩ := hhandle
        have hstarts := hkeeps k hsuspend
        simp only [Kernel.suspendCurrentThread, Option.map_eq_some_iff] at hsuspend
        obtain ⟨thread, -, rfl⟩ := hsuspend
        exact h.switch (.of_same (.suspendThread _ thread execModeSuspended)) rfl hstarts
          idleThread

/-- The registers with which a program calls a handler of the capability at an address of
four bits. -/
def invoking (address handlerNumber : BitVec 32) : ThreadRegisters :=
  { ThreadRegisters.zero with
    data := Vector.ofFn fun i => [syscallInvoke, address, 4, handlerNumber].getD i 0 }

/-- A new thread in slot 2, all of whose registers are to be ones. -/
def ones : Surroundings where
  memory _ := 0xff
  nodeCopyArgs _ := ⟨0, 0, 0, 0, 0, false⟩
  nodeMoveArgs _ := ⟨0, 0, 0⟩
  setRootNodeArgs _ := ⟨0, 0⟩
  readWriteRegisterArgs _ := ⟨0, 70⟩
  allocArgs _ := ⟨Kernel.typeThread, 0, 2, 4⟩
  placement := ⟨[], some 5⟩
  heapSizeof _ := 0

/-- The process server starts such a thread and yields to it. -/
def startsThread : List UserOp :=
  [.execute (invoking 0 0), .trap 0 ones 8, .execute (invoking 2 1), .trap 0 ones 8,
    .execute (invoking 2 2), .trap 0 ones 8, .execute .zero, .trap 0 ones 8]

end UserMachine

end Cenix
