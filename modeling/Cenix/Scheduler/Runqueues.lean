import Cenix.Kernel.Scheduler
import Cenix.LinkedLists.Queues

namespace Cenix

open LinkedLists

/-! The runqueues and the execution modes of the threads on them. -/

namespace Kernel

variable (k : Kernel) (t u : Addr)

@[simp] theorem modifyThread_self (change : ThreadCapability → ThreadCapability) :
    (k.modifyThread t change).threads t = change (k.threads t) := by
  simp [modifyThread]

theorem modifyThread_of_ne (change : ThreadCapability → ThreadCapability) (h : u ≠ t) :
    (k.modifyThread t change).threads u = k.threads u := by
  simp [modifyThread, h]

/-- A field that a change leaves alone is the same in every thread. -/
theorem modifyThread_field {α : Type} (field : ThreadCapability → α)
    (change : ThreadCapability → ThreadCapability)
    (h : field (change (k.threads t)) = field (k.threads t)) :
    field ((k.modifyThread t change).threads u) = field (k.threads u) := by
  cases decEq u t with
  | isTrue hut =>
      subst hut
      rw [modifyThread_self, h]
  | isFalse hut => rw [modifyThread_of_ne k t u change hut]

@[simp] theorem modifyThread_scheduler (change : ThreadCapability → ThreadCapability) :
    (k.modifyThread t change).scheduler = k.scheduler :=
  rfl

@[simp] theorem modifyThread_endpoints (change : ThreadCapability → ThreadCapability) :
    (k.modifyThread t change).endpoints = k.endpoints :=
  rfl

def runqueues : Addr → Option Nat :=
  fun t => (k.threads t).runqueue

/-- The runqueues hold the threads that point to them, all of them ready to
run; a thread that is ready to run and not the current one is on a runqueue,
unless it is `held`. -/
structure Queued (held : Option Addr) : Prop where
  queues : Queues k.scheduler.priorityQueues k.runqueueEntries k.runqueues
  running : ∀ t, k.runqueues t ≠ none → (k.threads t).execMode = execModeRunning
  notLost : ∀ t, (k.threads t).execMode = execModeRunning →
    k.scheduler.currentThread = some t ∨ k.runqueues t ≠ none ∨ held = some t

namespace Queued

variable {k t u} {k' : Kernel} {held : Option Addr}

/-- Only the parts that the scheduler reads matter. -/
theorem congr (h : k.Queued held)
    (hqueues : k'.scheduler.priorityQueues = k.scheduler.priorityQueues)
    (hcurrent : k'.scheduler.currentThread = k.scheduler.currentThread)
    (hentry : ∀ t, (k'.threads t).runqueueEntry = (k.threads t).runqueueEntry)
    (hrunqueue : ∀ t, (k'.threads t).runqueue = (k.threads t).runqueue)
    (hmode : ∀ t, (k'.threads t).execMode = (k.threads t).execMode) : k'.Queued held where
  queues := h.queues.congr hqueues (fun t _ => hentry t) hrunqueue
  running t ht := by
    rw [hmode]
    apply h.running
    rwa [runqueues, hrunqueue] at ht
  notLost t ht := by
    rw [hmode] at ht
    rw [hcurrent, runqueues, hrunqueue]
    exact h.notLost t ht

/-- A change of a thread that the scheduler does not see. -/
theorem modifyThread {change : ThreadCapability → ThreadCapability} (h : k.Queued held)
    (hentry : (change (k.threads t)).runqueueEntry = (k.threads t).runqueueEntry)
    (hrunqueue : (change (k.threads t)).runqueue = (k.threads t).runqueue)
    (hmode : (change (k.threads t)).execMode = (k.threads t).execMode) :
    (k.modifyThread t change).Queued held :=
  h.congr rfl rfl (fun u => modifyThread_field k t u _ change hentry)
    (fun u => modifyThread_field k t u _ change hrunqueue)
    (fun u => modifyThread_field k t u _ change hmode)

theorem settle (h : k.Queued (some t))
    (ht : (k.threads t).execMode = execModeRunning →
      k.scheduler.currentThread = some t ∨ k.runqueues t ≠ none) : k.Queued none where
  queues := h.queues
  running := h.running
  notLost u hu := by
    rcases h.notLost u hu with hcurrent | hqueued | hheld
    · exact .inl hcurrent
    · exact .inr (.inl hqueued)
    · cases hheld
      rcases ht hu with hcurrent | hqueued
      · exact .inl hcurrent
      · exact .inr (.inl hqueued)

theorem hold (h : k.Queued none) (held : Option Addr) : k.Queued held where
  queues := h.queues
  running := h.running
  notLost u hu := by
    rcases h.notLost u hu with hcurrent | hqueued | hheld
    · exact .inl hcurrent
    · exact .inr (.inl hqueued)
    · cases hheld

end Queued

/-! What the operations on the runqueues change. -/

@[simp] theorem queueThread_currentThread :
    (k.queueThread t).scheduler.currentThread = k.scheduler.currentThread := by
  unfold queueThread
  split <;> rfl

@[simp] theorem queueThread_execMode :
    ((k.queueThread t).threads u).execMode = (k.threads u).execMode := by
  unfold queueThread
  split
  · rfl
  · exact modifyThread_field k t u (·.execMode) (fun t => { t with runqueue := some 63 }) rfl

/-- A part of a thread that the scheduler never writes to. -/
structure Unscheduled {α : Type} (field : ThreadCapability → α) : Prop where
  mode : ∀ t mode, field { t with execMode := mode } = field t
  runqueue : ∀ t runqueue, field { t with runqueue := runqueue } = field t
  entry : ∀ t entry, field { t with runqueueEntry := entry } = field t

theorem Unscheduled.queueThread {α : Type} {field : ThreadCapability → α}
    (h : Unscheduled field) : field ((k.queueThread t).threads u) = field (k.threads u) := by
  unfold Kernel.queueThread
  split
  · rfl
  · rw [← modifyThread_field k t u field (fun t => { t with runqueue := some 63 })
      (h.runqueue ..)]
    exact h.entry ..

@[simp] theorem queueThread_flags :
    ((k.queueThread t).threads u).flags = (k.threads u).flags :=
  Unscheduled.queueThread k t u ⟨fun _ _ => rfl, fun _ _ => rfl, fun _ _ => rfl⟩

theorem queueThread_runqueues :
    (k.queueThread t).runqueues u =
      if u = t then some ((k.runqueues t).getD 63) else k.runqueues u := by
  unfold queueThread runqueues
  cases hrunqueue : (k.threads t).runqueue with
  | some i =>
      cases decEq u t with
      | isTrue hut => simp [hut, hrunqueue]
      | isFalse hut => simp [hut]
  | none =>
      cases decEq u t with
      | isTrue hut => simp [hut, setRunqueueEntries, setPriorityQueue]
      | isFalse hut =>
          simp [hut, setRunqueueEntries, setPriorityQueue, modifyThread_of_ne]

theorem runqueueEntries_modifyThread (change : ThreadCapability → ThreadCapability)
    (h : (change (k.threads t)).runqueueEntry = (k.threads t).runqueueEntry) :
    (k.modifyThread t change).runqueueEntries = k.runqueueEntries := by
  funext u
  exact modifyThread_field k t u (·.runqueueEntry) change h

/-- A thread that is on no runqueue goes to the end of the last one. -/
theorem queueThread_eq {queue : Container Addr} {entries : Addr → Link Addr}
    (h : (k.threads t).runqueue = none)
    (happend : listAppend (k.scheduler.priorityQueues 63) k.runqueueEntries t =
      (queue, entries)) :
    k.queueThread t =
      ((k.modifyThread t fun t => { t with runqueue := some 63 }).setPriorityQueue 63
        queue).setRunqueueEntries entries := by
  have hentries := k.runqueueEntries_modifyThread t
    (fun t => { t with runqueue := some 63 }) rfl
  unfold queueThread
  simp only [h, modifyThread_scheduler, hentries, happend]

variable {k t} {k' : Kernel} {held : Option Addr}

theorem Queued.queueThread (h : k.Queued held)
    (ht : (k.threads t).execMode = execModeRunning) : (k.queueThread t).Queued held := by
  have hrunqueues := queueThread_runqueues k t
  constructor
  · cases hrunqueue : (k.threads t).runqueue with
    | some i =>
        have hsame : k.queueThread t = k := by
          unfold Kernel.queueThread
          rw [hrunqueue]
        rw [hsame]
        exact h.queues
    | none =>
        cases happend : listAppend (k.scheduler.priorityQueues 63) k.runqueueEntries t with
        | mk queue entries =>
            have heq := k.queueThread_eq t hrunqueue happend
            have hentries : (k.queueThread t).runqueueEntries = entries := by
              rw [heq]
              rfl
            rw [← hentries] at happend
            refine h.queues.append hrunqueue happend ?_ ?_ ?_
            · rw [heq]
              rfl
            · rw [hrunqueues, if_pos rfl, runqueues, hrunqueue]
              rfl
            · intro u hut
              rw [hrunqueues, if_neg hut]
  · intro u hu
    rw [queueThread_execMode]
    rw [hrunqueues] at hu
    cases decEq u t with
    | isTrue hut => exact hut ▸ ht
    | isFalse hut =>
        rw [if_neg hut] at hu
        exact h.running u hu
  · intro u hu
    rw [queueThread_execMode] at hu
    rw [queueThread_currentThread, hrunqueues]
    cases decEq u t with
    | isTrue hut => simp [hut]
    | isFalse hut =>
        rw [if_neg hut]
        exact h.notLost u hu

/-! Resuming and suspending. -/

/-- A new execution mode for a thread that is on no runqueue, or one that is
still ready to run. -/
theorem Queued.setExecMode (h : k.Queued none)
    {change : ThreadCapability → ThreadCapability}
    (hentry : (change (k.threads t)).runqueueEntry = (k.threads t).runqueueEntry)
    (hrunqueue : (change (k.threads t)).runqueue = (k.threads t).runqueue)
    (hmode : k.runqueues t ≠ none → (change (k.threads t)).execMode = execModeRunning) :
    (k.modifyThread t change).Queued (some t) := by
  have hrunqueues : (k.modifyThread t change).runqueues = k.runqueues := by
    funext u
    exact k.modifyThread_field t u (·.runqueue) change hrunqueue
  constructor
  · rw [hrunqueues, k.runqueueEntries_modifyThread t change hentry]
    exact h.queues
  · intro u hu
    rw [hrunqueues] at hu
    cases decEq u t with
    | isTrue hut =>
        subst hut
        rw [modifyThread_self]
        exact hmode hu
    | isFalse hut =>
        rw [k.modifyThread_of_ne t u change hut]
        exact h.running u hu
  · intro u hu
    rw [hrunqueues]
    cases decEq u t with
    | isTrue hut => exact .inr (.inr (congrArg some hut.symm))
    | isFalse hut =>
        rw [k.modifyThread_of_ne t u change hut] at hu
        exact (h.hold (some t)).notLost u hu

/-- A new execution mode that does not make a thread ready to run. -/
theorem Queued.pause (h : k.Queued none)
    {change : ThreadCapability → ThreadCapability}
    (hentry : (change (k.threads t)).runqueueEntry = (k.threads t).runqueueEntry)
    (hrunqueue : (change (k.threads t)).runqueue = (k.threads t).runqueue)
    (hmode : k.runqueues t ≠ none → (change (k.threads t)).execMode = execModeRunning)
    (hready : (change (k.threads t)).execMode = execModeRunning →
      (k.threads t).execMode = execModeRunning) :
    (k.modifyThread t change).Queued none := by
  apply (h.setExecMode hentry hrunqueue hmode).settle
  intro hchanged
  rw [modifyThread_self] at hchanged
  have hsame : (k.modifyThread t change).runqueues t = k.runqueues t := by
    rw [runqueues, modifyThread_self, hrunqueue]
    rfl
  rw [hsame]
  rcases h.notLost t (hready hchanged) with hcurrent | hqueued | hheld
  · exact .inl hcurrent
  · exact .inr hqueued
  · cases hheld

theorem Queued.resumeThread (h : k.Queued none) (reason : BitVec 8) :
    (k.resumeThread t reason).Queued none := by
  let change := fun t : ThreadCapability => { t with execMode := t.execMode &&& ~~~reason }
  have hresumed : (k.modifyThread t change).Queued (some t) := by
    apply h.setExecMode
    · rfl
    · rfl
    · intro ht
      have hmode := h.running t ht
      simp [change, hmode, execModeRunning]
  unfold Kernel.resumeThread
  simp only
  split
  · rename_i hmode
    have hqueued := hresumed.queueThread hmode
    have hsettled : ((k.modifyThread t change).queueThread t).Queued none := by
      apply hqueued.settle
      intro _
      right
      rw [queueThread_runqueues, if_pos rfl]
      exact Option.some_ne_none _
    split
    · exact hsettled.congr rfl rfl (fun _ => rfl) (fun _ => rfl) (fun _ => rfl)
    · exact hsettled
  · rename_i hmode
    apply hresumed.settle
    intro heq
    exact absurd heq hmode

/-- A thread that is not ready to run any more leaves its runqueue. -/
theorem Queued.leave (h : k.Queued none) {change : ThreadCapability → ThreadCapability}
    {i : Nat} (hentry : (change (k.threads t)).runqueueEntry = (k.threads t).runqueueEntry)
    (hrunqueue : (k.threads t).runqueue = some i)
    (hmode : (change (k.threads t)).execMode ≠ execModeRunning) :
    (((k.modifyThread t change).leaveRunqueue t i).modifyThread t
      fun t => { t with runqueue := none }).Queued none := by
  generalize hleft : ((k.modifyThread t change).leaveRunqueue t i).modifyThread t
    (fun t => { t with runqueue := none }) = left
  have hentries := k.runqueueEntries_modifyThread t change hentry
  cases hremove : listRemove (k.scheduler.priorityQueues i) k.runqueueEntries t with
  | mk queue entries =>
      have heq : (k.modifyThread t change).leaveRunqueue t i =
          ((k.modifyThread t change).setPriorityQueue i queue).setRunqueueEntries
            entries := by
        unfold leaveRunqueue
        simp only [modifyThread_scheduler, hentries, hremove]
      rw [heq] at hleft
      have hleftEntries : left.runqueueEntries = entries := by
        rw [← hleft]
        exact runqueueEntries_modifyThread _ _ _ rfl
      have hself : left.threads t =
          { change (k.threads t) with runqueueEntry := entries t, runqueue := none } := by
        rw [← hleft, modifyThread_self]
        simp [setRunqueueEntries, setPriorityQueue]
      have hother : ∀ u, u ≠ t →
          left.threads u = { k.threads u with runqueueEntry := entries u } := by
        intro u hut
        rw [← hleft, modifyThread_of_ne _ _ _ _ hut]
        simp [setRunqueueEntries, setPriorityQueue, modifyThread_of_ne, hut]
      constructor
      · rw [← hleftEntries] at hremove
        refine h.queues.remove hrunqueue hremove ?_ ?_ ?_
        · rw [← hleft]
          rfl
        · rw [runqueues, hself]
        · intro u hut
          rw [runqueues, hother u hut]
          rfl
      · intro u hu
        cases decEq u t with
        | isTrue hut => simp [runqueues, hut, hself] at hu
        | isFalse hut =>
            rw [runqueues, hother u hut] at hu
            rw [hother u hut]
            exact h.running u hu
      · intro u hu
        cases decEq u t with
        | isTrue hut =>
            rw [hut, hself] at hu
            exact absurd hu hmode
        | isFalse hut =>
            rw [hother u hut] at hu
            rw [← hleft]
            rcases h.notLost u hu with hcurrent | hqueued | hheld
            · exact .inl hcurrent
            · right
              left
              rw [hleft, runqueues, hother u hut]
              exact hqueued
            · cases hheld

theorem Queued.suspendThread (h : k.Queued none) (newExecMode : BitVec 8) :
    (k.suspendThread t newExecMode).Queued none := by
  let change := fun t : ThreadCapability => { t with execMode := t.execMode ||| newExecMode }
  unfold Kernel.suspendThread
  generalize hpending : (if k.scheduler.currentThread = some t then
    { k with scheduler := { k.scheduler with pendingContextSwitch := true } } else k) = k₁
  have h₁ : k₁.Queued none := by
    rw [← hpending]
    split
    · exact h.congr rfl rfl (fun _ => rfl) (fun _ => rfl) (fun _ => rfl)
    · exact h
  have hready : (change (k₁.threads t)).execMode = execModeRunning →
      (k₁.threads t).execMode = execModeRunning :=
    fun hmode => (BitVec.or_eq_zero_iff.mp hmode).1
  simp only
  split
  · rename_i hnone
    have hrunqueue : (k₁.threads t).runqueue = none := by simpa using hnone
    exact h₁.pause rfl rfl (fun ht => absurd hrunqueue ht) hready
  · rename_i i hsome
    have hrunqueue : (k₁.threads t).runqueue = some i := by simpa using hsome
    split
    · rename_i hmode
      exact h₁.pause rfl rfl (fun _ => by simpa using hmode) hready
    · rename_i hmode
      apply h₁.leave _ hrunqueue
      · simpa using hmode
      · rfl

/-! Neither touches anything else of a thread, or which one is the current one. -/

theorem Unscheduled.resumeThread {α : Type} {field : ThreadCapability → α}
    (h : Unscheduled field) (k : Kernel) (t u : Addr) (reason : BitVec 8) :
    field ((k.resumeThread t reason).threads u) = field (k.threads u) := by
  have hset := k.modifyThread_field t u field
    (fun t => { t with execMode := t.execMode &&& ~~~reason }) (h.mode ..)
  unfold Kernel.resumeThread
  simp only
  split
  · split
    · exact (h.queueThread ..).trans hset
    · exact (h.queueThread ..).trans hset
  · exact hset

@[simp] theorem resumeThread_flags (k : Kernel) (t u : Addr) (reason : BitVec 8) :
    ((k.resumeThread t reason).threads u).flags = (k.threads u).flags :=
  Unscheduled.resumeThread ⟨fun _ _ => rfl, fun _ _ => rfl, fun _ _ => rfl⟩ k t u reason

@[simp] theorem resumeThread_currentThread (k : Kernel) (t : Addr) (reason : BitVec 8) :
    (k.resumeThread t reason).scheduler.currentThread = k.scheduler.currentThread := by
  unfold Kernel.resumeThread
  simp only
  split
  · split <;> rw [queueThread_currentThread] <;> rfl
  · rfl

theorem Unscheduled.suspendThread {α : Type} {field : ThreadCapability → α}
    (h : Unscheduled field) (k : Kernel) (t u : Addr) (newExecMode : BitVec 8) :
    field ((k.suspendThread t newExecMode).threads u) = field (k.threads u) := by
  unfold Kernel.suspendThread
  generalize hpending : (if k.scheduler.currentThread = some t then
    { k with scheduler := { k.scheduler with pendingContextSwitch := true } } else k) = k₁
  have h₁ : k₁.threads = k.threads := by
    rw [← hpending]
    split <;> rfl
  have hset := k₁.modifyThread_field t u field
    (fun t => { t with execMode := t.execMode ||| newExecMode }) (h.mode ..)
  rw [h₁] at hset
  simp only
  split
  · exact hset
  · split
    · exact hset
    · rw [modifyThread_field _ t u field _ (h.runqueue ..)]
      exact (h.entry ..).trans hset

@[simp] theorem suspendThread_flags (k : Kernel) (t u : Addr) (newExecMode : BitVec 8) :
    ((k.suspendThread t newExecMode).threads u).flags = (k.threads u).flags :=
  Unscheduled.suspendThread ⟨fun _ _ => rfl, fun _ _ => rfl, fun _ _ => rfl⟩ k t u newExecMode

@[simp] theorem suspendThread_currentThread (k : Kernel) (t : Addr)
    (newExecMode : BitVec 8) :
    (k.suspendThread t newExecMode).scheduler.currentThread =
      k.scheduler.currentThread := by
  unfold Kernel.suspendThread
  generalize hpending : (if k.scheduler.currentThread = some t then
    { k with scheduler := { k.scheduler with pendingContextSwitch := true } } else k) = k₁
  have h₁ : k₁.scheduler.currentThread = k.scheduler.currentThread := by
    rw [← hpending]
    split <;> rfl
  simp only
  split
  · exact h₁
  · split
    · exact h₁
    · exact h₁

theorem resumeThread_execMode (k : Kernel) (t u : Addr) (reason : BitVec 8) :
    ((k.resumeThread t reason).threads u).execMode =
      if u = t then (k.threads u).execMode &&& ~~~reason else (k.threads u).execMode := by
  have hset : ((k.modifyThread t fun t =>
      { t with execMode := t.execMode &&& ~~~reason }).threads u).execMode =
      if u = t then (k.threads u).execMode &&& ~~~reason else (k.threads u).execMode := by
    cases decEq u t with
    | isTrue hut => simp [hut]
    | isFalse hut => simp [hut, modifyThread_of_ne]
  unfold Kernel.resumeThread
  simp only
  split
  · split
    · exact (queueThread_execMode ..).trans hset
    · exact (queueThread_execMode ..).trans hset
  · exact hset

theorem suspendThread_execMode (k : Kernel) (t u : Addr) (newExecMode : BitVec 8) :
    ((k.suspendThread t newExecMode).threads u).execMode =
      if u = t then (k.threads u).execMode ||| newExecMode else (k.threads u).execMode := by
  unfold Kernel.suspendThread
  generalize hpending : (if k.scheduler.currentThread = some t then
    { k with scheduler := { k.scheduler with pendingContextSwitch := true } } else k) = k₁
  have h₁ : k₁.threads = k.threads := by
    rw [← hpending]
    split <;> rfl
  have hset : ((k₁.modifyThread t fun t =>
      { t with execMode := t.execMode ||| newExecMode }).threads u).execMode =
      if u = t then (k.threads u).execMode ||| newExecMode else (k.threads u).execMode := by
    cases decEq u t with
    | isTrue hut => simp [hut, h₁]
    | isFalse hut => simp [hut, modifyThread_of_ne, h₁]
  simp only
  split
  · exact hset
  · split
    · exact hset
    · rw [modifyThread_field _ t u (·.execMode) (fun t => { t with runqueue := none }) rfl]
      exact hset

/-! The scheduler works on the threads and on its own state. -/

theorem queueThread_frame (k : Kernel) (t : Addr) :
    ∃ threads scheduler,
      k.queueThread t = { k with threads := threads, scheduler := scheduler } := by
  unfold queueThread
  split
  · exact ⟨k.threads, k.scheduler, rfl⟩
  · exact ⟨_, _, rfl⟩

theorem resumeThread_frame (k : Kernel) (t : Addr) (reason : BitVec 8) :
    ∃ threads scheduler,
      k.resumeThread t reason = { k with threads := threads, scheduler := scheduler } := by
  unfold resumeThread
  simp only
  obtain ⟨threads, scheduler, hqueue⟩ := queueThread_frame
    (k.modifyThread t fun t => { t with execMode := t.execMode &&& ~~~reason }) t
  split
  · rw [hqueue]
    split
    · exact ⟨threads, _, rfl⟩
    · exact ⟨threads, _, rfl⟩
  · exact ⟨_, _, rfl⟩

theorem suspendThread_frame (k : Kernel) (t : Addr) (newExecMode : BitVec 8) :
    ∃ threads scheduler,
      k.suspendThread t newExecMode =
        { k with threads := threads, scheduler := scheduler } := by
  unfold suspendThread
  generalize hpending : (if k.scheduler.currentThread = some t then
    { k with scheduler := { k.scheduler with pendingContextSwitch := true } } else k) = k₁
  obtain ⟨scheduler, rfl⟩ : ∃ scheduler, k₁ = { k with scheduler := scheduler } := by
    rw [← hpending]
    split
    · exact ⟨_, rfl⟩
    · exact ⟨_, rfl⟩
  simp only
  split
  · exact ⟨_, _, rfl⟩
  · split
    · exact ⟨_, _, rfl⟩
    · exact ⟨_, _, rfl⟩

@[simp] theorem resumeThread_endpoints (k : Kernel) (t : Addr) (reason : BitVec 8) :
    (k.resumeThread t reason).endpoints = k.endpoints := by
  obtain ⟨threads, scheduler, heq⟩ := k.resumeThread_frame t reason
  rw [heq]

@[simp] theorem resumeThread_messages (k : Kernel) (t : Addr) (reason : BitVec 8) :
    (k.resumeThread t reason).messages = k.messages := by
  obtain ⟨threads, scheduler, heq⟩ := k.resumeThread_frame t reason
  rw [heq]

@[simp] theorem suspendThread_endpoints (k : Kernel) (t : Addr) (newExecMode : BitVec 8) :
    (k.suspendThread t newExecMode).endpoints = k.endpoints := by
  obtain ⟨threads, scheduler, heq⟩ := k.suspendThread_frame t newExecMode
  rw [heq]

@[simp] theorem suspendThread_messages (k : Kernel) (t : Addr) (newExecMode : BitVec 8) :
    (k.suspendThread t newExecMode).messages = k.messages := by
  obtain ⟨threads, scheduler, heq⟩ := k.suspendThread_frame t newExecMode
  rw [heq]

end Kernel

end Cenix
