import Cenix.Kernel.Ipc
import Cenix.Kernel.Threads
import Cenix.Scheduler.Interleavings

namespace Cenix

open LinkedLists

/-! The registers of the code that runs, across context switches. -/

def syscallYield : BitVec 32 := 0
def syscallInvoke : BitVec 32 := 1

/-- `invoke_capability`, which returns unless the kernel hangs in it. -/
abbrev InvokeCapability : Type :=
  Kernel → (address depth handler argument : BitVec 32) → Option (BitVec 32 × Kernel)

namespace Kernel

/-- `trap_handler` up to the context switch. -/
def systemCall (invokeCapability : InvokeCapability) (k : Kernel) (registers : ThreadRegisters) :
    Option (ThreadRegisters × Kernel) :=
  if registers.data[0] = syscallYield then
    some (registers, k.yieldThread)
  else if registers.data[0] = syscallInvoke then
    (invokeCapability k registers.data[1] registers.data[2] registers.data[3]
      registers.address[0]).map fun (result, k) =>
        ({ registers with data := registers.data.set 0 result }, k)
  else
    some (registers, k)

def trapHandler (invokeCapability : InvokeCapability) (k : Kernel) (idleThread : BitVec 32)
    (registers : ThreadRegisters) : Option (ThreadRegisters × Kernel) :=
  (k.systemCall invokeCapability registers).map fun (registers, k) =>
    k.tryContextSwitch idleThread registers

/-- `handle_thread_exception` up to the context switch, if there is a thread. -/
def suspendCurrentThread (k : Kernel) : Option Kernel :=
  k.scheduler.currentThread.map fun thread => k.suspendThread thread execModeSuspended

/-- The kernel does not go on after an exception of its own. -/
def handleException (k : Kernel) (idleThread : BitVec 32) (registers : ThreadRegisters) :
    Option (ThreadRegisters × Kernel) :=
  if registers.statusRegister[13] then
    none
  else
    k.suspendCurrentThread.map fun k => k.tryContextSwitch idleThread registers

/-- What a context switch does to the code that runs. -/
inductive SwitchOutcome where
  | continues
  | idles
  | starts (thread : Addr)
  deriving DecidableEq

def switchOutcome (k : Kernel) (registers : ThreadRegisters) : SwitchOutcome :=
  if k.scheduler.pendingContextSwitch then
    let k := { k with scheduler := { k.scheduler with pendingContextSwitch := false } }
    match k.nextThread numPriorities with
    | (some thread, _) => .starts thread
    | (none, k) => if (k.saveCurrentThread registers none).1 then .idles else .continues
  else
    .continues

/-- `k'` runs the same thread, and no saved frame has changed. -/
structure KeepsFrames (k k' : Kernel) : Prop where
  current : k'.scheduler.currentThread = k.scheduler.currentThread
  registers : ∀ t, (k'.threads t).registers = (k.threads t).registers

variable {fuel : Nat} {k k' k₁ : Kernel} {t : Addr}

theorem unscheduled_registers : Unscheduled ThreadCapability.registers :=
  ⟨fun _ _ => rfl, fun _ _ => rfl, fun _ _ => rfl⟩

namespace KeepsFrames

theorem refl (k : Kernel) : k.KeepsFrames k :=
  ⟨rfl, fun _ => rfl⟩

theorem trans (h : k.KeepsFrames k₁) (h' : k₁.KeepsFrames k') : k.KeepsFrames k' :=
  ⟨h'.current.trans h.current, fun t => (h'.registers t).trans (h.registers t)⟩

theorem modifyThread (k : Kernel) (t : Addr) (change : ThreadCapability → ThreadCapability)
    (hchange : (change (k.threads t)).registers = (k.threads t).registers) :
    k.KeepsFrames (k.modifyThread t change) :=
  ⟨rfl, fun u => modifyThread_field k t u (·.registers) change hchange⟩

theorem yieldThread (k : Kernel) : k.KeepsFrames k.yieldThread :=
  ⟨rfl, fun _ => rfl⟩

theorem resumeThread (k : Kernel) (t : Addr) (reason : BitVec 8) :
    k.KeepsFrames (k.resumeThread t reason) :=
  ⟨resumeThread_currentThread k t reason,
    fun u => unscheduled_registers.resumeThread k t u reason⟩

theorem suspendThread (k : Kernel) (t : Addr) (newExecMode : BitVec 8) :
    k.KeepsFrames (k.suspendThread t newExecMode) :=
  ⟨suspendThread_currentThread k t newExecMode,
    fun u => unscheduled_registers.suspendThread k t u newExecMode⟩

theorem resume (k : Kernel) (slot : SlotPtr) : k.KeepsFrames (k.resume slot).2 := by
  have hresume := resumeThread
    { k with kinds := (heapLock k.kinds (k.space.slots slot).resource).2 }
    (k.space.slots slot).resource execModeSuspended
  exact ⟨hresume.current, hresume.registers⟩

theorem suspend (k : Kernel) (slot : SlotPtr) : k.KeepsFrames (k.suspend slot).2 := by
  have hsuspend := suspendThread
    { k with kinds := (heapLock k.kinds (k.space.slots slot).resource).2 }
    (k.space.slots slot).resource execModeSuspended
  exact ⟨hsuspend.current, hsuspend.registers⟩

theorem transferCapabilities {sending receiving sentMessage recvBuffer : Addr}
    (h : k.transferCapabilities fuel sending receiving sentMessage recvBuffer = some k') :
    k.KeepsFrames k' := by
  obtain ⟨s, kinds, bits, rfl⟩ := transferCapabilities_frame h
  exact ⟨rfl, fun _ => rfl⟩

theorem endpointSend {slot : SlotPtr} {message : Addr} {e : Nat}
    (h : k.endpointSend fuel slot message = some (e, k')) : k.KeepsFrames k' := by
  simp only [Kernel.endpointSend, Option.bind_eq_some_iff] at h
  obtain ⟨thread, -, h⟩ := h
  split at h
  · rename_i receiving k₁ hpop
    have hk₁ : (k.popReceiving (k.space.slots slot).resource).2 = k₁ := congrArg Prod.snd hpop
    have hpopped : k.KeepsFrames k₁ := by
      rw [← hk₁]
      exact ⟨rfl, fun _ => rfl⟩
    simp only [sendTo, Option.map_map, Option.map_eq_some_iff] at h
    obtain ⟨k₂, htransfer, heq⟩ := h
    cases heq
    have hwoken := modifyThread k₁ receiving (fun t => { t with
      flags := { t.flags with blockedOnReceive := false }
      blockedOn := none }) rfl
    have htransferred := transferCapabilities htransfer
    have hdelivered : k₁.KeepsFrames k₂ :=
      ⟨htransferred.current.trans hwoken.current,
        fun t => (htransferred.registers t).trans (hwoken.registers t)⟩
    exact (hpopped.trans hdelivered).trans (resumeThread k₂ receiving execModeBlocked)
  · cases h
    unfold blockSending
    refine trans ?_ (suspendThread ..)
    have hblocked := modifyThread k thread (fun t => { t with
      messageBuffer := message
      sendingBadge := (k.space.slots slot).badge
      blockedOn := some (k.space.slots slot).resource
      flags := { t.flags with blockedOnSend := true } }) rfl
    exact ⟨hblocked.current, hblocked.registers⟩

theorem endpointReceive {slot : SlotPtr} {message : Addr} {e : Nat}
    (h : k.endpointReceive fuel slot message = some (e, k')) : k.KeepsFrames k' := by
  simp only [Kernel.endpointReceive, Option.bind_eq_some_iff] at h
  obtain ⟨thread, -, h⟩ := h
  split at h
  · rename_i sending k₁ hpop
    have hk₁ : (k.popSending (k.space.slots slot).resource).2 = k₁ := congrArg Prod.snd hpop
    have hpopped : k.KeepsFrames k₁ := by
      rw [← hk₁]
      exact ⟨rfl, fun _ => rfl⟩
    simp only [receiveFrom, Option.map_map, Option.map_eq_some_iff] at h
    obtain ⟨k₂, htransfer, heq⟩ := h
    cases heq
    have hwoken := modifyThread k₁ sending (fun t => { t with
      flags := { t.flags with blockedOnSend := false }
      blockedOn := none }) rfl
    have htransferred := transferCapabilities htransfer
    have hdelivered : k₁.KeepsFrames k₂ :=
      ⟨htransferred.current.trans hwoken.current,
        fun t => (htransferred.registers t).trans (hwoken.registers t)⟩
    exact (hpopped.trans hdelivered).trans (resumeThread k₂ sending execModeBlocked)
  · cases h
    unfold blockReceiving
    refine trans ?_ (suspendThread ..)
    have hblocked := modifyThread k thread (fun t => { t with
      messageBuffer := message
      sendingBadge := (k.space.slots slot).badge
      blockedOn := some (k.space.slots slot).resource
      flags := { t.flags with blockedOnReceive := true } }) rfl
    exact ⟨hblocked.current, hblocked.registers⟩

theorem popRunqueue (k : Kernel) (i : Nat) : k.KeepsFrames (k.popRunqueue i).2 := by
  unfold Kernel.popRunqueue
  cases listPopFromStart (k.scheduler.priorityQueues i) k.runqueueEntries with
  | mk item rest =>
      cases item with
      | none => exact ⟨rfl, fun _ => rfl⟩
      | some thread =>
          have hpopped : k.KeepsFrames
              ((k.setPriorityQueue i rest.1).setRunqueueEntries rest.2) :=
            ⟨rfl, fun _ => rfl⟩
          exact hpopped.trans (modifyThread _ thread (fun t => { t with runqueue := none }) rfl)

theorem nextThread (k : Kernel) (priorities : Nat) :
    k.KeepsFrames (k.nextThread priorities).2 := by
  induction priorities with
  | zero => exact refl k
  | succ i ih =>
      unfold Kernel.nextThread
      split
      · exact popRunqueue k i
      · exact ih

end KeepsFrames

/-! What one context switch does. -/

/-- A context switch that is due, from the state in which the next thread is off its
queue. -/
theorem tryContextSwitch_due (hpending : k.scheduler.pendingContextSwitch = true) :
    ∃ next k₁, k.KeepsFrames k₁ ∧
      (∀ t, (k₁.threads t).execMode = (k.threads t).execMode) ∧
      (∀ idleThread registers, k.tryContextSwitch idleThread registers =
        (k₁.saveCurrentThread registers next).2.loadNextThread idleThread registers
          (k₁.saveCurrentThread registers next).1 next) ∧
      ∀ registers, k.switchOutcome registers = match next with
        | some thread => .starts thread
        | none => if (k₁.saveCurrentThread registers none).1 then .idles else .continues := by
  let pending := { k with scheduler := { k.scheduler with pendingContextSwitch := false } }
  have hkeeps : k.KeepsFrames pending := ⟨rfl, fun _ => rfl⟩
  have hnext := KeepsFrames.nextThread pending numPriorities
  have hsame := nextThread_same pending numPriorities
  refine ⟨(pending.nextThread numPriorities).1, (pending.nextThread numPriorities).2,
    hkeeps.trans hnext, hsame.mode, fun idleThread registers => ?_, fun registers => ?_⟩
  · unfold tryContextSwitch
    rw [if_pos hpending]
  · unfold switchOutcome
    rw [if_pos hpending]
    cases hpopped : pending.nextThread numPriorities with
    | mk next k₁ =>
        simp only [pending] at hpopped
        simp only [hpopped]
        cases next <;> rfl

/-- The frame that a thread has once the current one is saved. -/
def savedFrame (k : Kernel) (registers : ThreadRegisters) (t : Addr) : ThreadRegisters :=
  if k.scheduler.currentThread = some t then registers else (k.threads t).registers

theorem KeepsFrames.savedFrame (h : k.KeepsFrames k') (registers : ThreadRegisters) (t : Addr) :
    k'.savedFrame registers t = k.savedFrame registers t := by
  rw [Kernel.savedFrame, h.current, h.registers, Kernel.savedFrame]

/-- Without a successor, a thread that can run goes on. -/
theorem saveCurrentThread_continues {registers : ThreadRegisters}
    (h : (k.saveCurrentThread registers none).1 = false) :
    (k.saveCurrentThread registers none).2 = k ∧ ∃ t, k.scheduler.currentThread = some t := by
  unfold saveCurrentThread at h ⊢
  cases hcurrent : k.scheduler.currentThread with
  | none => simp [hcurrent] at h
  | some c =>
      simp only [hcurrent] at h
      split at h
      · rename_i hmode
        simp [hmode]
      · cases h

theorem saveCurrentThread_idles {registers : ThreadRegisters}
    (h : (k.saveCurrentThread registers none).1 = true) :
    (k.saveCurrentThread registers none).2.scheduler.currentThread = none ∧
      ∀ t, k.scheduler.currentThread = some t → (k.threads t).execMode ≠ execModeRunning := by
  unfold saveCurrentThread at h ⊢
  cases hcurrent : k.scheduler.currentThread with
  | none => simp [hcurrent]
  | some c =>
      simp only [hcurrent] at h
      split at h
      · cases h
      · rename_i hmode
        simp [hmode]

/-- Otherwise the current thread is saved. -/
theorem saveCurrentThread_stops {registers : ThreadRegisters} {next : Option Addr}
    (h : next = none → (k.saveCurrentThread registers none).1 = true) (t : Addr) :
    ((k.saveCurrentThread registers next).2.threads t).registers = k.savedFrame registers t := by
  have hidles := fun hnext => (saveCurrentThread_idles (h hnext)).2
  unfold saveCurrentThread savedFrame
  cases hcurrent : k.scheduler.currentThread with
  | none => rfl
  | some c =>
      have hsaved : ((k.modifyThread c fun t => { t with
          registers := registers
          flags := { t.flags with currentlyRunning := false } }).threads t).registers =
          if some c = some t then registers else (k.threads t).registers := by
        by_cases htc : t = c
        · subst htc
          simp
        · rw [modifyThread_of_ne _ _ _ _ htc, if_neg fun heq => htc (Option.some.inj heq).symm]
      simp only
      split
      · rename_i hmode
        split
        · rename_i hnext
          exact absurd hmode (hidles hnext c hcurrent)
        · exact (unscheduled_registers.queueThread ..).trans hsaved
      · exact hsaved

/-- What a context switch does to the frames. -/
inductive Switches (k : Kernel) (registers : ThreadRegisters) :
    SwitchOutcome → ThreadRegisters → Kernel → Prop where
  | continues {k' : Kernel} (hkeeps : k.KeepsFrames k') :
      Switches k registers .continues registers k'
  | idles {frame : ThreadRegisters} {k' : Kernel}
      (hmode : ∀ t, k.scheduler.currentThread = some t →
        (k.threads t).execMode ≠ execModeRunning)
      (hcurrent : k'.scheduler.currentThread = none)
      (hregisters : ∀ t, (k'.threads t).registers = k.savedFrame registers t) :
      Switches k registers .idles frame k'
  | starts {k' : Kernel} {t : Addr} (hcurrent : k'.scheduler.currentThread = some t)
      (hregisters : ∀ t, (k'.threads t).registers = k.savedFrame registers t) :
      Switches k registers (.starts t) (k.savedFrame registers t) k'

theorem tryContextSwitch_switches (k : Kernel) (idleThread : BitVec 32)
    (registers : ThreadRegisters) :
    Switches k registers (k.switchOutcome registers) (k.tryContextSwitch idleThread registers).1
      (k.tryContextSwitch idleThread registers).2 := by
  cases hpending : k.scheduler.pendingContextSwitch with
  | false =>
      unfold switchOutcome tryContextSwitch
      rw [hpending]
      exact .continues (.refl k)
  | true =>
      obtain ⟨next, k₁, hkeeps, hmode, hswitch, houtcome⟩ := tryContextSwitch_due hpending
      rw [hswitch, houtcome]
      cases next with
      | none =>
          simp only [loadNextThread]
          cases hidle : (k₁.saveCurrentThread registers none).1 with
          | false =>
              obtain ⟨hsaved, -⟩ := saveCurrentThread_continues hidle
              rw [hsaved]
              exact .continues hkeeps
          | true =>
              obtain ⟨hcurrent, hstopped⟩ := saveCurrentThread_idles hidle
              refine .idles (fun t ht => ?_) hcurrent fun t => ?_
              · rw [← hmode]
                exact hstopped t (hkeeps.current.trans ht)
              · rw [saveCurrentThread_stops fun _ => hidle, hkeeps.savedFrame]
      | some n =>
          have hstops : ∀ t, ((k₁.saveCurrentThread registers (some n)).2.threads t).registers =
              k₁.savedFrame registers t := saveCurrentThread_stops fun h => by cases h
          simp only [loadNextThread]
          rw [hstops, hkeeps.savedFrame]
          refine .starts rfl fun t => ?_
          rw [modifyThread_field _ n t (·.registers)
            (fun t => { t with flags := { t.flags with currentlyRunning := true } }) rfl]
          exact (hstops t).trans (hkeeps.savedFrame registers t)

end Kernel

/-! Runs of the code of threads and of the kernel. -/

/-- `frame` holds the registers of the code that runs, which is the idle thread's if
`running` is `none`, and `stopped` what was passed to the context switch that last stopped
each thread. -/
structure Machine where
  kernel : Kernel
  frame : ThreadRegisters
  running : Option Addr
  stopped : Addr → ThreadRegisters

namespace Machine

variable (m : Machine) (idleThread : BitVec 32)

/-- The thread that runs is stopped. -/
def stop : Machine :=
  match m.running with
  | none => m
  | some thread => { m with stopped := Function.update m.stopped thread m.frame }

def switch : Machine :=
  let switched := m.kernel.tryContextSwitch idleThread m.frame
  match m.kernel.switchOutcome m.frame with
  | .continues => { m with kernel := switched.2, frame := switched.1 }
  | .idles => ⟨switched.2, switched.1, none, m.stop.stopped⟩
  | .starts thread => ⟨switched.2, switched.1, some thread, m.stop.stopped⟩

end Machine

/-- `execute` is a computation of the code that runs, and `rest` is anything else that
the kernel does. -/
inductive MachineOp where
  | execute (registers : ThreadRegisters)
  | yieldThread
  | resumeThread (thread : Addr) (reason : BitVec 8)
  | suspendThread (thread : Addr) (newExecMode : BitVec 8)
  | rest (k : Kernel)
  | tryContextSwitch (idleThread : BitVec 32)
  | trap (idleThread : BitVec 32) (invokeCapability : InvokeCapability)
  | exception (idleThread : BitVec 32)

namespace Machine

def step (m : Machine) : MachineOp → Option Machine
  | .execute registers => some { m with frame := registers }
  | .yieldThread => some { m with kernel := m.kernel.yieldThread }
  | .resumeThread thread reason =>
      some { m with kernel := m.kernel.resumeThread thread reason }
  | .suspendThread thread newExecMode =>
      some { m with kernel := m.kernel.suspendThread thread newExecMode }
  | .rest k => some { m with kernel := k }
  | .tryContextSwitch idleThread => some (m.switch idleThread)
  | .trap idleThread invokeCapability =>
      (m.kernel.systemCall invokeCapability m.frame).map fun (frame, k) =>
        switch { m with kernel := k, frame := frame } idleThread
  | .exception idleThread =>
      if m.frame.statusRegister[13] then none
      else m.kernel.suspendCurrentThread.map fun k => switch { m with kernel := k } idleThread

/-- Registers are written by `write_registers` only, and no thread is moved or deleted. -/
def KeepsSaved (m : Machine) : MachineOp → Prop
  | .rest k => m.kernel.KeepsFrames k
  | .trap _ invokeCapability => ∀ address depth handler argument result k,
      invokeCapability m.kernel address depth handler argument = some (result, k) →
        m.kernel.KeepsFrames k
  | _ => True

variable {m m' : Machine} {idleThread : BitVec 32}

theorem switch_kernel (m : Machine) (idleThread : BitVec 32) :
    (m.switch idleThread).frame = (m.kernel.tryContextSwitch idleThread m.frame).1 ∧
      (m.switch idleThread).kernel = (m.kernel.tryContextSwitch idleThread m.frame).2 := by
  unfold switch
  split <;> exact ⟨rfl, rfl⟩

/-- A trap does what `trap_handler` does. -/
theorem trap_handler {invokeCapability : InvokeCapability} :
    ((m.step (.trap idleThread invokeCapability)).map fun m => (m.frame, m.kernel)) =
      m.kernel.trapHandler invokeCapability idleThread m.frame := by
  unfold step Kernel.trapHandler
  rw [Option.map_map]
  refine Option.map_congr fun (frame, k) _ => ?_
  exact Prod.ext (switch_kernel { m with kernel := k, frame := frame } idleThread).1
    (switch_kernel { m with kernel := k, frame := frame } idleThread).2

theorem exception_handler :
    ((m.step (.exception idleThread)).map fun m => (m.frame, m.kernel)) =
      m.kernel.handleException idleThread m.frame := by
  unfold Kernel.handleException
  simp only [step]
  split
  · rfl
  · rw [Option.map_map]
    refine Option.map_congr fun k _ => ?_
    exact Prod.ext (switch_kernel { m with kernel := k } idleThread).1
      (switch_kernel { m with kernel := k } idleThread).2

/-- The kernel knows whose code runs, and the frames of the others are saved. -/
structure FramesSaved (m : Machine) : Prop where
  running : m.kernel.scheduler.currentThread = m.running
  saved : ∀ t, m.running ≠ some t → (m.kernel.threads t).registers = m.stopped t

theorem FramesSaved.keeps (h : m.FramesSaved) {k : Kernel} (hkeeps : m.kernel.KeepsFrames k)
    (frame : ThreadRegisters) : FramesSaved { m with kernel := k, frame := frame } where
  running := hkeeps.current.trans h.running
  saved t ht := (hkeeps.registers t).trans (h.saved t ht)

theorem FramesSaved.stop_stopped (h : m.FramesSaved) (t : Addr) :
    m.stop.stopped t = m.kernel.savedFrame m.frame t := by
  unfold stop Kernel.savedFrame
  rw [h.running]
  cases hrunning : m.running with
  | none =>
      rw [if_neg (by simp)]
      exact (h.saved t (by simp [hrunning])).symm
  | some c =>
      by_cases htc : t = c
      · subst htc
        simp
      · rw [if_neg fun heq => htc (Option.some.inj heq).symm]
        simp only [Function.update_of_ne htc]
        exact (h.saved t fun heq => htc (Option.some.inj (hrunning.symm.trans heq)).symm).symm

/-- A context switch lets the code that runs go on, or saves its frame. -/
theorem FramesSaved.switch_cases (h : m.FramesSaved) (idleThread : BitVec 32) :
    (m.kernel.switchOutcome m.frame = .continues ∧ (m.switch idleThread).frame = m.frame ∧
        (m.switch idleThread).running = m.running ∧
        (m.switch idleThread).stopped = m.stopped ∧
        m.kernel.KeepsFrames (m.switch idleThread).kernel) ∨
      ((m.switch idleThread).stopped = m.stop.stopped ∧
        (m.switch idleThread).kernel.scheduler.currentThread = (m.switch idleThread).running ∧
        (∀ t, ((m.switch idleThread).kernel.threads t).registers =
          (m.switch idleThread).stopped t) ∧
        ((m.kernel.switchOutcome m.frame = .idles ∧ ∀ t, m.running = some t →
            (m.kernel.threads t).execMode ≠ execModeRunning) ∨
          ∃ t, m.kernel.switchOutcome m.frame = .starts t ∧
            (m.switch idleThread).frame = (m.switch idleThread).stopped t)) := by
  have hswitches := m.kernel.tryContextSwitch_switches idleThread m.frame
  unfold switch
  generalize m.kernel.tryContextSwitch idleThread m.frame = switched at hswitches
  obtain ⟨frame, k⟩ := switched
  cases houtcome : m.kernel.switchOutcome m.frame with
  | continues =>
      rw [houtcome] at hswitches
      cases hswitches with
      | continues hkeeps => exact .inl ⟨rfl, rfl, rfl, rfl, hkeeps⟩
  | idles =>
      rw [houtcome] at hswitches
      cases hswitches with
      | idles hmode hcurrent hregisters =>
          refine .inr ⟨rfl, hcurrent, fun t => ?_, .inl ⟨rfl, fun t ht => ?_⟩⟩
          · exact (hregisters t).trans (h.stop_stopped t).symm
          · exact hmode t (h.running.trans ht)
  | starts n =>
      rw [houtcome] at hswitches
      cases hswitches with
      | starts hcurrent hregisters =>
          refine .inr ⟨rfl, hcurrent, fun t => ?_, .inr ⟨n, rfl, ?_⟩⟩
          · exact (hregisters t).trans (h.stop_stopped t).symm
          · exact (h.stop_stopped n).symm

theorem FramesSaved.switch (h : m.FramesSaved) (idleThread : BitVec 32) :
    (m.switch idleThread).FramesSaved := by
  rcases h.switch_cases idleThread with hcontinues | hstops
  · obtain ⟨-, -, hrunning, hstopped, hkeeps⟩ := hcontinues
    refine ⟨?_, fun t ht => ?_⟩
    · rw [hkeeps.current, hrunning, h.running]
    · rw [hrunning] at ht
      rw [hkeeps.registers, hstopped, h.saved t ht]
  · obtain ⟨-, hrunning, hsaved, -⟩ := hstops
    exact ⟨hrunning, fun t _ => hsaved t⟩

theorem FramesSaved.step (h : m.FramesSaved) {op : MachineOp} (hkeeps : m.KeepsSaved op)
    (hstep : m.step op = some m') : m'.FramesSaved := by
  cases op with
  | execute registers =>
      cases hstep
      exact h.keeps (.refl m.kernel) registers
  | yieldThread =>
      cases hstep
      exact h.keeps (.yieldThread m.kernel) m.frame
  | resumeThread thread reason =>
      cases hstep
      exact h.keeps (.resumeThread m.kernel thread reason) m.frame
  | suspendThread thread newExecMode =>
      cases hstep
      exact h.keeps (.suspendThread m.kernel thread newExecMode) m.frame
  | rest k =>
      cases hstep
      exact h.keeps hkeeps m.frame
  | tryContextSwitch idleThread =>
      cases hstep
      exact h.switch idleThread
  | trap idleThread invokeCapability =>
      simp only [Machine.step, Option.map_eq_some_iff] at hstep
      obtain ⟨⟨frame, k⟩, hcall, rfl⟩ := hstep
      apply FramesSaved.switch
      apply h.keeps
      unfold Kernel.systemCall at hcall
      split at hcall
      · cases hcall
        exact .yieldThread m.kernel
      · split at hcall
        · simp only [Option.map_eq_some_iff] at hcall
          obtain ⟨⟨result, k₁⟩, hinvoke, heq⟩ := hcall
          cases heq
          exact hkeeps _ _ _ _ _ _ hinvoke
        · cases hcall
          exact .refl m.kernel
  | exception idleThread =>
      simp only [Machine.step] at hstep
      split at hstep
      · cases hstep
      · simp only [Kernel.suspendCurrentThread, Option.map_map, Option.map_eq_some_iff] at hstep
        obtain ⟨thread, -, rfl⟩ := hstep
        apply FramesSaved.switch
        exact h.keeps (.suspendThread m.kernel thread execModeSuspended) m.frame

/-- No thread runs yet, and each one starts with the registers it has been given. -/
def Starting (m : Machine) : Prop :=
  m.kernel.scheduler.currentThread = none ∧ m.running = none ∧
    ∀ t, m.stopped t = (m.kernel.threads t).registers

/-- A context switch starts a thread with the frame it was stopped with, writes no other
thread's frame, and leaves the frame of a thread alone that goes on. -/
structure Continuous (m : Machine) : Prop where
  saved : ∀ t, m.running ≠ some t → (m.kernel.threads t).registers = m.stopped t
  starts : ∀ idleThread t, m.kernel.switchOutcome m.frame = .starts t →
    (m.switch idleThread).frame = (m.switch idleThread).stopped t
  kept : ∀ idleThread t, m.running ≠ some t →
    ((m.switch idleThread).kernel.threads t).registers = (m.kernel.threads t).registers
  own : ∀ idleThread t, m.running = some t →
    ((m.switch idleThread).kernel.threads t).registers = m.frame ∨
      (m.switch idleThread).running = some t ∧
        ((m.switch idleThread).kernel.threads t).registers = (m.kernel.threads t).registers
  alone : ∀ idleThread t, m.running = some t →
    (m.kernel.threads t).execMode = execModeRunning →
    (∀ u, m.kernel.switchOutcome m.frame ≠ .starts u) →
      (m.switch idleThread).frame = m.frame ∧ (m.switch idleThread).running = some t ∧
        ∀ u, ((m.switch idleThread).kernel.threads u).registers = (m.kernel.threads u).registers

theorem FramesSaved.continuous (h : m.FramesSaved) : m.Continuous where
  saved := h.saved
  starts idleThread t hstarts := by
    rcases h.switch_cases idleThread with hcontinues | ⟨-, -, -, hidles | hstarted⟩
    · rw [hcontinues.1] at hstarts
      cases hstarts
    · rw [hidles.1] at hstarts
      cases hstarts
    · obtain ⟨u, hu, hframe⟩ := hstarted
      rw [hu] at hstarts
      cases hstarts
      exact hframe
  kept idleThread t ht := by
    rcases h.switch_cases idleThread with hcontinues | hstops
    · exact hcontinues.2.2.2.2.registers t
    · obtain ⟨hstopped, -, hsaved, -⟩ := hstops
      rw [hsaved, hstopped, h.stop_stopped, Kernel.savedFrame, h.running, if_neg ht]
  own idleThread t ht := by
    rcases h.switch_cases idleThread with hcontinues | hstops
    · obtain ⟨-, -, hrunning, -, hkeeps⟩ := hcontinues
      exact .inr ⟨hrunning.trans ht, hkeeps.registers t⟩
    · obtain ⟨hstopped, -, hsaved, -⟩ := hstops
      rw [hsaved, hstopped, h.stop_stopped, Kernel.savedFrame, h.running, if_pos ht]
      exact .inl rfl
  alone idleThread t ht hmode hnone := by
    rcases h.switch_cases idleThread with hcontinues | ⟨-, -, -, hidles | hstarted⟩
    · obtain ⟨-, hframe, hrunning, -, hkeeps⟩ := hcontinues
      exact ⟨hframe, hrunning.trans ht, hkeeps.registers⟩
    · exact absurd hmode (hidles.2 t ht)
    · obtain ⟨u, hu, -⟩ := hstarted
      exact absurd hu (hnone u)

/-- In every run whose steps meet the condition, threads go on with the registers they
were stopped with. -/
theorem continuity (h : Reaches step KeepsSaved Starting m) : m.Continuous := by
  have hsaved : m.FramesSaved :=
    h.invariant (fun m h => ⟨h.1.trans h.2.1.symm, fun t _ => (h.2.2 t).symm⟩)
      (fun _ _ _ h hkeeps hstep => h.step hkeeps hstep)
  exact hsaved.continuous

/-- The kernel before any thread has been resumed. -/
def suspended : Machine :=
  ⟨Kernel.suspended, .zero, none, fun _ => .zero⟩

/-- What a thread asks for with the given number in its first register. -/
def calling (number : BitVec 32) : ThreadRegisters :=
  { ThreadRegisters.zero with data := ThreadRegisters.zero.data.set 0 number }

/-- A thread calls the kernel, which suspends it and returns 7.  It goes on once the
thread that came after it has had an exception. -/
theorem continuity_result : ∃ m, runWhile step (fun _ _ => True) suspended
      [.resumeThread 1 execModeSuspended, .tryContextSwitch 0, .execute (calling 1),
        .resumeThread 2 execModeSuspended,
        .trap 0 fun k _ _ _ _ => some (7, k.suspendThread 1 execModeSuspended),
        .resumeThread 1 execModeSuspended, .execute (calling 3), .exception 0] = some m ∧
    m.running = some 1 ∧ m.frame = calling 7 ∧ m.Continuous := by
  have hrun : (runWhile step (fun _ _ => True) suspended
      [.resumeThread 1 execModeSuspended, .tryContextSwitch 0, .execute (calling 1),
        .resumeThread 2 execModeSuspended,
        .trap 0 fun k _ _ _ _ => some (7, k.suspendThread 1 execModeSuspended),
        .resumeThread 1 execModeSuspended, .execute (calling 3), .exception 0]).map
          (fun m => (m.running, m.frame)) = some (some 1, calling 7) := by
    decide +kernel
  simp only [Option.map_eq_some_iff, Prod.mk.injEq] at hrun
  obtain ⟨m, hm, hrunning, hframe⟩ := hrun
  have hstarting : suspended.Starting := ⟨rfl, rfl, fun _ => rfl⟩
  refine ⟨m, hm, hrunning, hframe, continuity (.runAll (.initial hstarting) ?_ hm)⟩
  intro m op hop
  simp only [List.mem_cons, List.not_mem_nil, or_false] at hop
  rcases hop with rfl | rfl | rfl | rfl | rfl | rfl | rfl | rfl
  case inr.inr.inr.inr.inl =>
    intro address depth handler argument result k hinvoke
    cases hinvoke
    exact .suspendThread m.kernel 1 execModeSuspended
  all_goals trivial

end Machine

end Cenix
