import Cenix.Kernel.Ipc
import Cenix.Scheduler.Runqueues

namespace Cenix

open LinkedLists

/-! The queues of blocked threads. -/

inductive Direction where
  | sending
  | receiving
  deriving DecidableEq, Repr

namespace Kernel

/-- The two queues of every endpoint. -/
def endpointQueue (k : Kernel) : Addr × Direction → Container Addr
  | (endpoint, .sending) => (k.endpoints endpoint).blockedSending
  | (endpoint, .receiving) => (k.endpoints endpoint).blockedReceiving

theorem endpointQueue_congr {k k' : Kernel} (h : k'.endpoints = k.endpoints) :
    k'.endpointQueue = k.endpointQueue := by
  funext queue
  obtain ⟨endpoint, direction⟩ := queue
  cases direction <;> simp only [endpointQueue, h]

theorem endpointQueue_setBlockedSending (k : Kernel) (endpoint : Addr)
    (queue : Container Addr) (q : Addr × Direction) :
    (k.setBlockedSending endpoint queue).endpointQueue q =
      if q = (endpoint, .sending) then queue else k.endpointQueue q := by
  obtain ⟨e, direction⟩ := q
  cases decEq e endpoint with
  | isTrue he => cases direction <;> simp [he, endpointQueue, setBlockedSending]
  | isFalse he => cases direction <;> simp [he, endpointQueue, setBlockedSending]

theorem endpointQueue_setBlockedReceiving (k : Kernel) (endpoint : Addr)
    (queue : Container Addr) (q : Addr × Direction) :
    (k.setBlockedReceiving endpoint queue).endpointQueue q =
      if q = (endpoint, .receiving) then queue else k.endpointQueue q := by
  obtain ⟨e, direction⟩ := q
  cases decEq e endpoint with
  | isTrue he => cases direction <;> simp [he, endpointQueue, setBlockedReceiving]
  | isFalse he => cases direction <;> simp [he, endpointQueue, setBlockedReceiving]

/-- `EXEC_MODE_BLOCKED` is set. -/
def IsBlocked (k : Kernel) (thread : Addr) : Prop :=
  getElem (k.threads thread).execMode 0 blockedBit_lt = true

instance (k : Kernel) (thread : Addr) : Decidable (k.IsBlocked thread) :=
  inferInstanceAs (Decidable (_ = true))

theorem blockedQueues_modifyThread (k : Kernel) (t : Addr)
    (change : ThreadCapability → ThreadCapability)
    (h : (change (k.threads t)).blockedQueue = (k.threads t).blockedQueue) :
    (k.modifyThread t change).blockedQueues = k.blockedQueues := by
  funext u
  exact modifyThread_field k t u (·.blockedQueue) change h

/-- The thread whose call has been met is not blocked any more. -/
theorem resumed_blocked (k : Kernel) (t u : Addr) :
    (k.resumeThread t execModeBlocked).IsBlocked u ↔ u ≠ t ∧ k.IsBlocked u := by
  unfold IsBlocked
  rw [resumeThread_execMode]
  split
  · rename_i hut
    simp [hut, execModeBlocked]
  · rename_i hut
    simp [hut]

theorem suspended_blocked (k : Kernel) (t u : Addr) :
    (k.suspendThread t execModeBlocked).IsBlocked u ↔ u = t ∨ k.IsBlocked u := by
  unfold IsBlocked
  rw [suspendThread_execMode]
  split
  · rename_i hut
    simp [hut, execModeBlocked]
  · rename_i hut
    simp [hut]

/-- The scheduler has made `caller` the current thread. -/
def switchTo (k : Kernel) (caller : Addr) : Kernel :=
  { k with scheduler := { k.scheduler with currentThread := some caller } }

end Kernel

end Cenix
