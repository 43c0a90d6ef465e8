import Cenix.LinkedLists.Lines
import Cenix.Scheduler.Switching

namespace Cenix

open LinkedLists

/-! The threads that wait for the processor, in the order in which they get it. -/

namespace Kernel

variable {k k' : Kernel} {t u : Addr} {xs front back : List Addr}

/-- Following the links of the runqueue passes through `xs`. -/
def Waiting (k : Kernel) (xs : List Addr) : Prop :=
  IsFifo (k.scheduler.priorityQueues 63) k.runqueueEntries xs

/-- The first thread in line, if it still links back to one that was in front of it. -/
def staleHead (k : Kernel) : Option Addr :=
  (k.scheduler.priorityQueues 63).start.filter fun t => (k.runqueueEntries t).prev.isSome

/-- Every thread is queued with the same priority. -/
structure InLine (k : Kernel) (xs : List Addr) : Prop where
  line : IsLine (k.scheduler.priorityQueues 63) k.runqueueEntries xs
  others : ∀ i < 63, (k.scheduler.priorityQueues i).start = none
  runqueue : ∀ t, k.runqueues t = if t ∈ xs then some 63 else none

@[simp] theorem queueThread_pending (k : Kernel) (t : Addr) :
    (k.queueThread t).scheduler.pendingContextSwitch =
      k.scheduler.pendingContextSwitch := by
  unfold queueThread
  split <;> rfl

@[simp] theorem saveCurrentThread_pending (k : Kernel) (registers : ThreadRegisters)
    (next : Option Addr) :
    (k.saveCurrentThread registers next).2.scheduler.pendingContextSwitch =
      k.scheduler.pendingContextSwitch := by
  unfold saveCurrentThread
  split
  · rfl
  · simp only
    split
    · split
      · rfl
      · rw [queueThread_pending]
        rfl
    · rfl

/-- A thread that is ready to run again wakes an idle processor. -/
theorem resumeThread_pending (k : Kernel) (t : Addr) (reason : BitVec 8) :
    (k.resumeThread t reason).scheduler.pendingContextSwitch =
      if (k.threads t).execMode &&& ~~~reason = execModeRunning ∧
        k.scheduler.currentThread = none then true
      else k.scheduler.pendingContextSwitch := by
  unfold resumeThread
  simp only [modifyThread_self, queueThread_currentThread, modifyThread_scheduler]
  by_cases hmode : (k.threads t).execMode &&& ~~~reason = execModeRunning
  · by_cases hidle : k.scheduler.currentThread = none
    · simp [hmode, hidle]
    · simp [hmode, hidle]
  · simp [hmode]

/-- The current thread goes on until the switch. -/
theorem suspendThread_pending (k : Kernel) (t : Addr) (newExecMode : BitVec 8) :
    (k.suspendThread t newExecMode).scheduler.pendingContextSwitch =
      if k.scheduler.currentThread = some t then true
      else k.scheduler.pendingContextSwitch := by
  unfold suspendThread
  generalize hpending : (if k.scheduler.currentThread = some t then
    { k with scheduler := { k.scheduler with pendingContextSwitch := true } } else k) = k₁
  have h₁ : k₁.scheduler.pendingContextSwitch =
      if k.scheduler.currentThread = some t then true
      else k.scheduler.pendingContextSwitch := by
    rw [← hpending]
    split <;> rfl
  simp only
  split
  · exact h₁
  · split
    · exact h₁
    · exact h₁

namespace InLine

theorem waiting (h : k.InLine xs) : k.Waiting xs :=
  h.line.fifo

theorem congr (h : k.InLine xs)
    (hqueues : k'.scheduler.priorityQueues = k.scheduler.priorityQueues)
    (hentry : ∀ t, (k'.threads t).runqueueEntry = (k.threads t).runqueueEntry)
    (hrunqueue : ∀ t, (k'.threads t).runqueue = (k.threads t).runqueue) : k'.InLine xs where
  line := by
    rw [hqueues]
    exact h.line.congr fun t _ => hentry t
  others i hi := by
    rw [hqueues]
    exact h.others i hi
  runqueue t := (hrunqueue t).trans (h.runqueue t)

theorem modifyThread (h : k.InLine xs) (t : Addr) {change : ThreadCapability → ThreadCapability}
    (hentry : (change (k.threads t)).runqueueEntry = (k.threads t).runqueueEntry)
    (hrunqueue : (change (k.threads t)).runqueue = (k.threads t).runqueue) :
    (k.modifyThread t change).InLine xs :=
  h.congr rfl (fun u => modifyThread_field k t u (·.runqueueEntry) change hentry)
    (fun u => modifyThread_field k t u (·.runqueue) change hrunqueue)

theorem queueThread (h : k.InLine xs) (t : Addr) :
    (k.queueThread t).InLine (if t ∈ xs then xs else xs ++ [t]) := by
  have hrunqueues := queueThread_runqueues k t
  by_cases ht : t ∈ xs
  · have hrunqueue : (k.threads t).runqueue = some 63 := (h.runqueue t).trans (if_pos ht)
    have hsame : k.queueThread t = k := by
      unfold Kernel.queueThread
      rw [hrunqueue]
    rw [if_pos ht, hsame]
    exact h
  · have hrunqueue : (k.threads t).runqueue = none := (h.runqueue t).trans (if_neg ht)
    rw [if_neg ht]
    cases happend : listAppend (k.scheduler.priorityQueues 63) k.runqueueEntries t with
    | mk queue entries =>
        have heq := k.queueThread_eq t hrunqueue happend
        constructor
        · have hline : IsLine queue entries (xs ++ [t]) := h.line.append ht happend
          have hqueue : (k.queueThread t).scheduler.priorityQueues 63 = queue := by
            rw [heq]
            simp [setRunqueueEntries, setPriorityQueue]
          have hentries : (k.queueThread t).runqueueEntries = entries := by
            rw [heq]
            rfl
          rwa [hqueue, hentries]
        · intro i hi
          rw [heq]
          have hne : i ≠ 63 := Nat.ne_of_lt hi
          simpa [setPriorityQueue, setRunqueueEntries, hne] using h.others i hi
        · intro u
          rw [hrunqueues]
          by_cases hut : u = t
          · have hnone : k.runqueues t = none := hrunqueue
            simp [hut, hnone]
          · simp [hut, h.runqueue]

/-- The queues with lower priorities are empty. -/
theorem nextThread_others (h : k.InLine xs) {priorities : Nat} (hle : priorities ≤ 63) :
    k.nextThread priorities = (none, k) := by
  induction priorities with
  | zero => rfl
  | succ i ih =>
      rw [Kernel.nextThread, if_neg, ih (by omega)]
      simp [listCanPop, h.others i (by omega)]

theorem nextThread_none (h : k.InLine []) : k.nextThread numPriorities = (none, k) := by
  have hstart : (k.scheduler.priorityQueues 63).start = none := h.line.fifo.start_eq
  have hnone : ¬ listCanPop (k.scheduler.priorityQueues 63) = true := by
    simp [listCanPop, hstart]
  rw [numPriorities, Kernel.nextThread, if_neg hnone]
  exact h.nextThread_others (Nat.le_refl 63)

theorem nextThread_some (h : k.InLine (t :: xs)) :
    ∃ k', k.nextThread numPriorities = (some t, k') ∧ k'.InLine xs ∧ k.SameThreads k' ∧
      k'.scheduler.pendingContextSwitch = k.scheduler.pendingContextSwitch := by
  have hstart : (k.scheduler.priorityQueues 63).start = some t := h.line.fifo.start_eq
  have hcan : listCanPop (k.scheduler.priorityQueues 63) = true := by
    simp [listCanPop, hstart]
  have hsame := popRunqueue_same k 63
  have hpop := h.line.fifo.pop_eq
  have hline := h.line.pop
  rw [numPriorities, Kernel.nextThread, if_pos hcan]
  let popped := (k.setPriorityQueue 63 ⟨xs.head?, xs.getLast?⟩).setRunqueueEntries
    (Function.update k.runqueueEntries t Link.empty)
  have heq : k.popRunqueue 63 =
      (some t, popped.modifyThread t fun t => { t with runqueue := none }) := by
    unfold Kernel.popRunqueue
    simp only [hpop, popped]
  rw [heq] at hsame ⊢
  refine ⟨_, rfl, ?_, hsame, rfl⟩
  have hpoppedEntries : popped.runqueueEntries = Function.update k.runqueueEntries t Link.empty :=
    rfl
  have hnodup := List.nodup_cons.mp h.line.fifo.nodup
  constructor
  · rw [runqueueEntries_modifyThread _ _ _ rfl, hpoppedEntries]
    simpa [popped, setPriorityQueue, setRunqueueEntries, Kernel.modifyThread] using hline
  · intro i hi
    have hne : i ≠ 63 := Nat.ne_of_lt hi
    simpa [popped, setPriorityQueue, setRunqueueEntries, hne] using h.others i hi
  · intro u
    by_cases hut : u = t
    · rw [runqueues, hut, modifyThread_self, if_neg hnodup.1]
    · rw [runqueues, modifyThread_of_ne _ _ _ _ hut]
      have hold := h.runqueue u
      simp only [List.mem_cons, hut, false_or] at hold
      exact hold

/-- What a thread leaves behind when it is taken out of the line. -/
theorem leaveRunqueue {c : Container Addr} {links : Addr → Link Addr}
    (hremove : listRemove (k.scheduler.priorityQueues 63) k.runqueueEntries t = (c, links)) :
    (k.leaveRunqueue t 63).scheduler.priorityQueues 63 = c ∧
      (k.leaveRunqueue t 63).runqueueEntries = links ∧
      (∀ i ≠ 63, (k.leaveRunqueue t 63).scheduler.priorityQueues i =
        k.scheduler.priorityQueues i) ∧
      (k.leaveRunqueue t 63).runqueues = k.runqueues := by
  have heq : k.leaveRunqueue t 63 = (k.setPriorityQueue 63 c).setRunqueueEntries links := by
    unfold Kernel.leaveRunqueue
    simp only [hremove]
  rw [heq]
  refine ⟨?_, rfl, fun i hi => ?_, rfl⟩
  · simp [setRunqueueEntries, setPriorityQueue]
  · simp [setRunqueueEntries, setPriorityQueue, hi]

theorem leave (h : k.InLine (front ++ t :: back)) (hright : k.staleHead ≠ some t) :
    ((k.leaveRunqueue t 63).modifyThread t fun t => { t with runqueue := none }).InLine
      (front ++ back) := by
  cases hremove : listRemove (k.scheduler.priorityQueues 63) k.runqueueEntries t with
  | mk c links =>
      obtain ⟨hqueue, hentries, hothers, hrunqueues⟩ := leaveRunqueue hremove
      have hprev : (k.scheduler.priorityQueues 63).start = some t →
          (k.runqueueEntries t).prev = none := by
        intro hstart
        cases hprev : (k.runqueueEntries t).prev with
        | none => rfl
        | some p => exact absurd (by simp [Kernel.staleHead, hstart, hprev]) hright
      have hnodup := h.line.fifo.nodup
      rw [List.nodup_middle] at hnodup
      have hapart := (List.nodup_cons.mp hnodup).1
      constructor
      · rw [modifyThread_scheduler, runqueueEntries_modifyThread _ _ _ rfl, hqueue, hentries]
        exact h.line.remove hprev hremove
      · intro i hi
        rw [modifyThread_scheduler, hothers i (Nat.ne_of_lt hi)]
        exact h.others i hi
      · intro u
        by_cases hut : u = t
        · rw [runqueues, hut, modifyThread_self, if_neg hapart]
        · rw [runqueues, modifyThread_of_ne _ _ _ _ hut]
          have hold := h.runqueue u
          rw [← hrunqueues] at hold
          simp only [List.mem_append, List.mem_cons, hut, false_or] at hold ⊢
          exact hold

/-- Without a stale link in front, leaving makes none. -/
theorem leave_fresh (h : k.InLine (front ++ t :: back)) (hfresh : k.staleHead = none) :
    ((k.leaveRunqueue t 63).modifyThread t fun t =>
      { t with runqueue := none }).staleHead = none := by
  cases hremove : listRemove (k.scheduler.priorityQueues 63) k.runqueueEntries t with
  | mk c links =>
      obtain ⟨hqueue, hentries, -, -⟩ := leaveRunqueue hremove
      have hleft : IsQueue c links (front ++ back) := by
        apply IsQueue.remove _ hremove
        cases hxs : front ++ t :: back with
        | nil => simp at hxs
        | cons first rest =>
            rw [hxs] at h
            apply h.line.toQueue
            have hstart := h.line.fifo.start_eq
            simpa [Kernel.staleHead, hstart] using hfresh
      unfold Kernel.staleHead
      rw [modifyThread_scheduler, runqueueEntries_modifyThread _ _ _ rfl, hqueue, hentries,
        hleft.start_eq]
      cases hxs : front ++ back with
      | nil => rfl
      | cons first rest =>
          rw [hxs] at hleft
          have hprev := @IsQueue.prev_eq Addr c links [] rest first hleft
          simp [hprev]

theorem resumeThread (h : k.InLine xs) (t : Addr) (reason : BitVec 8) :
    (k.resumeThread t reason).InLine
      (if (k.threads t).execMode &&& ~~~reason = execModeRunning ∧ t ∉ xs then xs ++ [t]
      else xs) := by
  have hset : (k.modifyThread t fun t => { t with execMode := t.execMode &&& ~~~reason }).InLine
      xs := h.modifyThread t rfl rfl
  have hqueued := hset.queueThread t
  unfold Kernel.resumeThread
  simp only [modifyThread_self]
  by_cases hmode : (k.threads t).execMode &&& ~~~reason = execModeRunning
  · have hxs : (if (k.threads t).execMode &&& ~~~reason = execModeRunning ∧ t ∉ xs then
        xs ++ [t] else xs) = if t ∈ xs then xs else xs ++ [t] := by
      by_cases ht : t ∈ xs
      · simp [ht]
      · simp [hmode, ht]
    rw [if_pos hmode, hxs]
    split
    · exact hqueued.congr rfl (fun _ => rfl) (fun _ => rfl)
    · exact hqueued
  · rw [if_neg hmode, if_neg fun hboth => hmode hboth.1]
    exact hset

/-- Only a thread that is still ready to run keeps its place. -/
theorem suspendThread (h : k.InLine xs) (hright : k.staleHead ≠ some t)
    (newExecMode : BitVec 8) :
    ∃ xs', (k.suspendThread t newExecMode).InLine xs' ∧ xs'.Sublist xs ∧
      (∀ u, u ∈ xs' ↔
        u ∈ xs ∧ (u = t → (k.threads t).execMode ||| newExecMode = execModeRunning)) ∧
      (k.staleHead = none → (k.suspendThread t newExecMode).staleHead = none) := by
  let change := fun t : ThreadCapability => { t with execMode := t.execMode ||| newExecMode }
  unfold Kernel.suspendThread
  generalize hpending : (if k.scheduler.currentThread = some t then
    { k with scheduler := { k.scheduler with pendingContextSwitch := true } } else k) = k₁
  have h₁ : k₁.InLine xs ∧ k₁.threads = k.threads ∧ k₁.staleHead = k.staleHead := by
    rw [← hpending]
    split
    · exact ⟨h.congr rfl (fun _ => rfl) (fun _ => rfl), rfl, rfl⟩
    · exact ⟨h, rfl, rfl⟩
  obtain ⟨hinLine, hthreads, hstale₁⟩ := h₁
  have hset : (k₁.modifyThread t change).InLine xs := hinLine.modifyThread t rfl rfl
  have hmode : ((k₁.modifyThread t change).threads t).execMode =
      (k.threads t).execMode ||| newExecMode := by
    rw [modifyThread_self, hthreads]
  have hstale : (k₁.modifyThread t change).staleHead = k.staleHead := by
    rw [← hstale₁]
    unfold staleHead
    rw [runqueueEntries_modifyThread _ _ _ rfl, modifyThread_scheduler]
  have hqueue := hset.runqueue t
  simp only
  split
  · rename_i hnone
    refine ⟨xs, hset, .refl xs, fun u => ?_, fun hfresh => hstale.trans hfresh⟩
    refine ⟨fun hu => ⟨hu, ?_⟩, fun hu => hu.1⟩
    rintro rfl
    rw [if_pos hu, runqueues, hnone] at hqueue
    cases hqueue
  · rename_i i hsome
    rw [runqueues, hsome] at hqueue
    by_cases ht : t ∈ xs
    · rw [if_pos ht, Option.some.injEq] at hqueue
      subst hqueue
      split
      · rename_i hready
        exact ⟨xs, hset, .refl xs, fun u => ⟨fun hu => ⟨hu, fun _ => hmode ▸ hready⟩, And.left⟩,
          fun hfresh => hstale.trans hfresh⟩
      · rename_i hpaused
        rw [hmode] at hpaused
        obtain ⟨front, back, rfl⟩ := List.append_of_mem ht
        have hnodup := h.line.fifo.nodup
        rw [List.nodup_middle] at hnodup
        have hapart := (List.nodup_cons.mp hnodup).1
        refine ⟨front ++ back, hset.leave (hstale ▸ hright), ?_, fun u => ?_, ?_⟩
        · exact (List.Sublist.refl front).append (List.sublist_cons_self t back)
        · by_cases hut : u = t
          · subst hut
            exact ⟨fun hu => absurd hu hapart, fun hu => absurd (hu.2 rfl) hpaused⟩
          · simp [hut]
        · intro hfresh
          exact hset.leave_fresh (hstale.trans hfresh)
    · rw [if_neg ht] at hqueue
      cases hqueue

/-- The current thread makes room for another one. -/
theorem saveCurrentThread (h : k.InLine xs) (registers : ThreadRegisters) (next : Addr) :
    (k.saveCurrentThread registers (some next)).2.InLine
      (k.scheduler.currentThread.elim xs fun t =>
        if (k.threads t).execMode = execModeRunning ∧ t ∉ xs then xs ++ [t] else xs) := by
  unfold Kernel.saveCurrentThread
  cases k.scheduler.currentThread with
  | none => exact h
  | some t =>
      have hsaved : (k.modifyThread t fun t => { t with
          registers := registers
          flags := { t.flags with currentlyRunning := false } }).InLine xs :=
        h.modifyThread t rfl rfl
      simp only [Option.elim_some, reduceCtorEq, if_false]
      by_cases hmode : (k.threads t).execMode = execModeRunning
      · have hqueued := hsaved.queueThread t
        by_cases ht : t ∈ xs
        · simpa [hmode, ht] using hqueued
        · simpa [hmode, ht] using hqueued
      · rw [if_neg hmode, if_neg fun hboth => hmode hboth.1]
        exact hsaved.congr rfl (fun _ => rfl) (fun _ => rfl)

theorem loadNextThread (h : k.InLine xs) (idleThread : BitVec 32)
    (registers : ThreadRegisters) (shouldIdle : Bool) (next : Option Addr) :
    (k.loadNextThread idleThread registers shouldIdle next).2.InLine xs := by
  unfold Kernel.loadNextThread
  cases next with
  | none => exact h
  | some t =>
      let current := { k with scheduler := { k.scheduler with currentThread := some t } }
      have hcurrent : current.InLine xs := h.congr rfl (fun _ => rfl) (fun _ => rfl)
      have hloaded : (current.modifyThread t fun t =>
          { t with flags := { t.flags with currentlyRunning := true } }).InLine xs :=
        hcurrent.modifyThread t rfl rfl
      exact hloaded

/-- Without another one it goes on, if it can. -/
theorem saveCurrentThread_none (h : k.InLine xs) (registers : ThreadRegisters) :
    (k.saveCurrentThread registers none).2.InLine xs ∧
      (k.saveCurrentThread registers none).2.scheduler.currentThread =
        k.scheduler.currentThread.filter
          fun t => decide ((k.threads t).execMode = execModeRunning) := by
  unfold Kernel.saveCurrentThread
  cases hcurrent : k.scheduler.currentThread with
  | none => exact ⟨h, hcurrent⟩
  | some t =>
      by_cases hmode : (k.threads t).execMode = execModeRunning
      · simp only [hmode, if_true, Option.filter_some, decide_true]
        exact ⟨h, hcurrent⟩
      · have hsaved : (k.modifyThread t fun t => { t with
            registers := registers
            flags := { t.flags with currentlyRunning := false } }).InLine xs :=
          h.modifyThread t rfl rfl
        simp only [hmode, if_false, Option.filter_some, decide_false]
        exact ⟨hsaved.congr rfl (fun _ => rfl) (fun _ => rfl), rfl⟩

theorem tryContextSwitch_nil (h : k.InLine [])
    (hpending : k.scheduler.pendingContextSwitch = true) (idleThread : BitVec 32)
    (registers : ThreadRegisters) :
    (k.tryContextSwitch idleThread registers).2.InLine [] ∧
      (k.tryContextSwitch idleThread registers).2.scheduler.currentThread =
        k.scheduler.currentThread.filter
          (fun t => decide ((k.threads t).execMode = execModeRunning)) ∧
      (k.tryContextSwitch idleThread registers).2.scheduler.pendingContextSwitch = false := by
  let pending := { k with scheduler := { k.scheduler with pendingContextSwitch := false } }
  have hinLine : pending.InLine [] := h.congr rfl (fun _ => rfl) (fun _ => rfl)
  have hnext : pending.nextThread numPriorities = (none, pending) := hinLine.nextThread_none
  have heq : (k.tryContextSwitch idleThread registers).2 =
      (pending.saveCurrentThread registers none).2 := by
    unfold Kernel.tryContextSwitch
    rw [if_pos hpending]
    simp only [pending] at hnext
    simp only [hnext, Kernel.loadNextThread, pending]
  obtain ⟨hsaved, hcurrent⟩ := hinLine.saveCurrentThread_none registers
  rw [heq]
  exact ⟨hsaved, hcurrent, saveCurrentThread_pending pending registers none⟩

/-- The first one that waits is started. -/
theorem tryContextSwitch_cons (h : k.InLine (t :: xs))
    (hpending : k.scheduler.pendingContextSwitch = true) (idleThread : BitVec 32)
    (registers : ThreadRegisters) :
    (k.tryContextSwitch idleThread registers).2.InLine
        (k.scheduler.currentThread.elim xs fun t =>
          if (k.threads t).execMode = execModeRunning ∧ t ∉ xs then xs ++ [t] else xs) ∧
      (k.tryContextSwitch idleThread registers).2.scheduler.currentThread = some t ∧
      (k.tryContextSwitch idleThread registers).2.scheduler.pendingContextSwitch = false := by
  let pending := { k with scheduler := { k.scheduler with pendingContextSwitch := false } }
  have hinLine : pending.InLine (t :: xs) := h.congr rfl (fun _ => rfl) (fun _ => rfl)
  obtain ⟨k₁, hnext, hinLine₁, hsame, hpending₁⟩ := hinLine.nextThread_some
  have heq : (k.tryContextSwitch idleThread registers).2 =
      ((k₁.saveCurrentThread registers (some t)).2.loadNextThread idleThread registers
        (k₁.saveCurrentThread registers (some t)).1 (some t)).2 := by
    unfold Kernel.tryContextSwitch
    rw [if_pos hpending]
    simp only [pending] at hnext
    simp only [hnext]
  rw [heq]
  refine ⟨?_, rfl, ?_⟩
  · apply loadNextThread
    have hsaved := hinLine₁.saveCurrentThread registers t
    rw [hsame.current] at hsaved
    simp only [hsame.mode] at hsaved
    exact hsaved
  · exact (saveCurrentThread_pending k₁ registers (some t)).trans hpending₁

end InLine

end Kernel

end Cenix
