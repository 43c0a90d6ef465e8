import Cenix.Kernel.State

namespace Cenix

open LinkedLists

namespace Kernel

/-! The scheduler. -/

def numPriorities : Nat := 64

def queueThread (k : Kernel) (thread : Addr) : Kernel :=
  match (k.threads thread).runqueue with
  | some _ => k
  | none =>
      let k := k.modifyThread thread fun t => { t with runqueue := some 63 }
      let (queue, entries) :=
        listAppend (k.scheduler.priorityQueues 63) k.runqueueEntries thread
      (k.setPriorityQueue 63 queue).setRunqueueEntries entries

def resumeThread (k : Kernel) (thread : Addr) (reason : BitVec 8) : Kernel :=
  let k := k.modifyThread thread fun t => { t with execMode := t.execMode &&& ~~~reason }
  if (k.threads thread).execMode = execModeRunning then
    let k := k.queueThread thread
    if k.scheduler.currentThread = none then
      { k with scheduler := { k.scheduler with pendingContextSwitch := true } }
    else
      k
  else
    k

/-- `LIST_REMOVE(*thread->runqueue, runqueue_entry, thread)` -/
def leaveRunqueue (k : Kernel) (thread : Addr) (i : Nat) : Kernel :=
  let (queue, entries) :=
    listRemove (k.scheduler.priorityQueues i) k.runqueueEntries thread
  (k.setPriorityQueue i queue).setRunqueueEntries entries

def suspendThread (k : Kernel) (thread : Addr) (newExecMode : BitVec 8) : Kernel :=
  let k :=
    if k.scheduler.currentThread = some thread then
      { k with scheduler := { k.scheduler with pendingContextSwitch := true } }
    else
      k
  let k := k.modifyThread thread fun t => { t with execMode := t.execMode ||| newExecMode }
  match (k.threads thread).runqueue with
  | none => k
  | some i =>
      if (k.threads thread).execMode = execModeRunning then
        k
      else
        (k.leaveRunqueue thread i).modifyThread thread fun t => { t with runqueue := none }

def yieldThread (k : Kernel) : Kernel :=
  { k with scheduler := { k.scheduler with pendingContextSwitch := true } }

/-- Pops the first thread of the queue with priority `i`. -/
def popRunqueue (k : Kernel) (i : Nat) : Option Addr × Kernel :=
  let (next, queue, entries) :=
    listPopFromStart (k.scheduler.priorityQueues i) k.runqueueEntries
  let k := (k.setPriorityQueue i queue).setRunqueueEntries entries
  match next with
  | none => (none, k)
  | some thread =>
      (some thread, k.modifyThread thread fun t => { t with runqueue := none })

/-- Finds the next thread that should be executed among the queues with a
priority below `priorities` and takes it off its queue. -/
def nextThread (k : Kernel) : (priorities : Nat) → Option Addr × Kernel
  | 0 => (none, k)
  | i + 1 =>
      if listCanPop (k.scheduler.priorityQueues i) then k.popRunqueue i
      else k.nextThread i

/-- Saves the state of the current thread.  The flag is `should_idle`. -/
def saveCurrentThread (k : Kernel) (registers : ThreadRegisters)
    (next : Option Addr) : Bool × Kernel :=
  match k.scheduler.currentThread with
  | none => (true, k)
  | some thread =>
      let saved := k.modifyThread thread fun t =>
        { t with registers := registers, flags := { t.flags with currentlyRunning := false } }
      if (k.threads thread).execMode = execModeRunning then
        -- it is only queued if another thread preempts it
        if next = none then (false, k) else (false, saved.queueThread thread)
      else
        (true, { saved with scheduler := { saved.scheduler with currentThread := none } })

/-- Loads the state of the next thread. -/
def loadNextThread (k : Kernel) (idleThread : BitVec 32) (registers : ThreadRegisters)
    (shouldIdle : Bool) (next : Option Addr) : ThreadRegisters × Kernel :=
  match next with
  | some thread =>
      let k := { k with scheduler := { k.scheduler with currentThread := some thread } }
      ((k.threads thread).registers,
        k.modifyThread thread fun t =>
          { t with flags := { t.flags with currentlyRunning := true } })
  | none =>
      (if shouldIdle then { registers with programCounter := idleThread } else registers, k)

/-- `idleThread` is the address of the source's `idle_thread`. -/
def tryContextSwitch (k : Kernel) (idleThread : BitVec 32)
    (registers : ThreadRegisters) : ThreadRegisters × Kernel :=
  if k.scheduler.pendingContextSwitch then
    let k := { k with scheduler := { k.scheduler with pendingContextSwitch := false } }
    let (next, k) := k.nextThread numPriorities
    let (shouldIdle, k) := k.saveCurrentThread registers next
    k.loadNextThread idleThread registers shouldIdle next
  else
    (registers, k)

end Kernel

end Cenix
