import Cenix.Scheduler.Runqueues
import Cenix.Runs

namespace Cenix

open LinkedLists

/-! Context switches. -/

namespace Kernel

structure SchedulerInvariant (k : Kernel) : Prop where
  queued : k.Queued none
  current : ∀ t, (k.threads t).flags.currentlyRunning = true ↔
    k.scheduler.currentThread = some t

/-- Among the queues with a priority below `priorities`, the highest one that is
not empty has one element. -/
def PopsSingle (k : Kernel) : (priorities : Nat) → Prop
  | 0 => True
  | i + 1 =>
      if listCanPop (k.scheduler.priorityQueues i) then
        (k.scheduler.priorityQueues i).start = (k.scheduler.priorityQueues i).last
      else
        k.PopsSingle i

theorem popsSingle_congr {k k' : Kernel}
    (hqueues : k'.scheduler.priorityQueues = k.scheduler.priorityQueues) {priorities : Nat}
    (h : k.PopsSingle priorities) : k'.PopsSingle priorities := by
  induction priorities with
  | zero => trivial
  | succ i ih =>
      unfold PopsSingle at h ⊢
      rw [hqueues]
      split
      · rename_i hpop
        rwa [if_pos hpop] at h
      · rename_i hpop
        rw [if_neg hpop] at h
        exact ih h

/-- A context switch that is due takes a thread off a queue of one element. -/
def SwitchPopsSingle (k : Kernel) : Prop :=
  k.scheduler.pendingContextSwitch = true → k.PopsSingle numPriorities

variable {k k' : Kernel} {next : Option Addr} {t : Addr}

/-- What taking the next thread off its queue leaves alone. -/
structure SameThreads (k k' : Kernel) : Prop where
  current : k'.scheduler.currentThread = k.scheduler.currentThread
  flags : ∀ t, (k'.threads t).flags = (k.threads t).flags
  mode : ∀ t, (k'.threads t).execMode = (k.threads t).execMode

theorem SameThreads.refl (k : Kernel) : k.SameThreads k :=
  ⟨rfl, fun _ => rfl, fun _ => rfl⟩

theorem popRunqueue_same (k : Kernel) (i : Nat) : k.SameThreads (k.popRunqueue i).2 := by
  unfold popRunqueue
  cases hpop : listPopFromStart (k.scheduler.priorityQueues i) k.runqueueEntries with
  | mk item rest =>
      cases rest with
      | mk queue entries =>
          cases item with
          | none => exact ⟨rfl, fun _ => rfl, fun _ => rfl⟩
          | some thread =>
              refine ⟨rfl, fun t => ?_, fun t => ?_⟩
              · exact modifyThread_field _ thread t (·.flags)
                  (fun t => { t with runqueue := none }) rfl
              · exact modifyThread_field _ thread t (·.execMode)
                  (fun t => { t with runqueue := none }) rfl

theorem nextThread_same (k : Kernel) (priorities : Nat) :
    k.SameThreads (k.nextThread priorities).2 := by
  induction priorities with
  | zero => exact SameThreads.refl k
  | succ i ih =>
      unfold nextThread
      split
      · exact popRunqueue_same k i
      · exact ih

/-- A thread that was taken off a queue of one element. -/
theorem Queued.popRunqueue (h : k.Queued none) {i : Nat}
    (hsingle : (k.scheduler.priorityQueues i).start = (k.scheduler.priorityQueues i).last)
    (hstart : (k.scheduler.priorityQueues i).start = some t) :
    ∃ k', k.popRunqueue i = (some t, k') ∧ k'.Queued (some t) ∧
      (k'.threads t).execMode = execModeRunning := by
  have hqueue : k.runqueues t = some i := h.queues.start_some hstart
  have hmode : (k.threads t).execMode = execModeRunning := by
    apply h.running
    rw [hqueue]
    exact Option.some_ne_none i
  have hsame := popRunqueue_same k i
  cases hpop : listPopFromStart (k.scheduler.priorityQueues i) k.runqueueEntries with
  | mk item rest =>
      cases rest with
      | mk queue entries =>
          have hitem : item = some t := by
            unfold listPopFromStart at hpop
            simp only [hstart, Prod.mk.injEq] at hpop
            exact hpop.1.symm
          subst hitem
          let popped := (k.setPriorityQueue i queue).setRunqueueEntries entries
          have heq : k.popRunqueue i =
              (some t, popped.modifyThread t fun t => { t with runqueue := none }) := by
            unfold Kernel.popRunqueue
            simp only [hpop, popped]
          rw [heq] at hsame ⊢
          refine ⟨_, rfl, ?_, (hsame.mode t).trans hmode⟩
          have hentries : (popped.modifyThread t fun t =>
              { t with runqueue := none }).runqueueEntries = entries :=
            popped.runqueueEntries_modifyThread t _ rfl
          have hrunqueue : ∀ u, u ≠ t → (popped.modifyThread t fun t =>
              { t with runqueue := none }).runqueues u = k.runqueues u := by
            intro u hut
            rw [runqueues, modifyThread_of_ne _ _ _ _ hut]
            rfl
          constructor
          · rw [← hentries] at hpop
            refine h.queues.pop_single hstart (hsingle ▸ hstart) hpop rfl ?_ hrunqueue
            rw [runqueues, modifyThread_self]
          · intro u hu
            cases decEq u t with
            | isTrue hut =>
                subst hut
                rw [runqueues, modifyThread_self] at hu
                exact absurd rfl hu
            | isFalse hut =>
                rw [hrunqueue u hut] at hu
                exact (hsame.mode u).trans (h.running u hu)
          · intro u hu
            cases decEq u t with
            | isTrue hut => exact .inr (.inr (congrArg some hut.symm))
            | isFalse hut =>
                rw [hrunqueue u hut]
                exact (h.hold (some t)).notLost u ((hsame.mode u).symm.trans hu)

theorem Queued.nextThread (h : k.Queued none) {priorities : Nat}
    (hsingle : k.PopsSingle priorities) :
    k.nextThread priorities = (none, k) ∨
      ∃ t k', k.nextThread priorities = (some t, k') ∧ k'.Queued (some t) ∧
        (k'.threads t).execMode = execModeRunning := by
  induction priorities with
  | zero => exact .inl rfl
  | succ i ih =>
      unfold Kernel.nextThread
      unfold PopsSingle at hsingle
      split
      · rename_i hpop
        rw [if_pos hpop] at hsingle
        right
        unfold listCanPop at hpop
        cases hstart : (k.scheduler.priorityQueues i).start with
        | none => simp [hstart] at hpop
        | some t =>
            obtain ⟨k', hk'⟩ := h.popRunqueue hsingle hstart
            exact ⟨t, k', hk'⟩
      · rename_i hpop
        rw [if_neg hpop] at hsingle
        exact ih hsingle

/-! Saving the current thread and loading the next one. -/

/-- The state between saving the current thread and loading `next`. -/
structure Saved (k : Kernel) (next : Option Addr) : Prop where
  queued : k.Queued next
  flags : ∀ t, (k.threads t).flags.currentlyRunning = true ↔
    next = none ∧ k.scheduler.currentThread = some t
  requeued : ∀ t, next ≠ none → k.scheduler.currentThread = some t → k.runqueues t ≠ none

theorem Saved.of_none (hqueued : k.Queued next)
    (hflags : ∀ t, (k.threads t).flags.currentlyRunning = false)
    (hcurrent : k.scheduler.currentThread = none) : k.Saved next where
  queued := hqueued
  flags t := by simp [hflags, hcurrent]
  requeued t _ ht := by simp [hcurrent] at ht

theorem saveCurrentThread_execMode (k : Kernel) (registers : ThreadRegisters)
    (next : Option Addr) (t : Addr) :
    ((k.saveCurrentThread registers next).2.threads t).execMode =
      (k.threads t).execMode := by
  unfold saveCurrentThread
  cases k.scheduler.currentThread with
  | none => rfl
  | some c =>
      have hsaved := k.modifyThread_field c t (·.execMode) (fun t => { t with
        registers := registers, flags := { t.flags with currentlyRunning := false } }) rfl
      simp only
      split
      · split
        · rfl
        · rw [queueThread_execMode]
          exact hsaved
      · exact hsaved

theorem Queued.saveCurrentThread (h : k.Queued next)
    (hflags : ∀ t, (k.threads t).flags.currentlyRunning = true ↔
      k.scheduler.currentThread = some t)
    (registers : ThreadRegisters) :
    (k.saveCurrentThread registers next).2.Saved next := by
  unfold Kernel.saveCurrentThread
  cases hcurrent : k.scheduler.currentThread with
  | none =>
      apply Saved.of_none h _ hcurrent
      intro t
      rw [Bool.eq_false_iff, Ne, hflags, hcurrent]
      simp
  | some c =>
      let change := fun t : ThreadCapability =>
        { t with registers := registers, flags := { t.flags with currentlyRunning := false } }
      have hcleared : ∀ t, ((k.modifyThread c change).threads t).flags.currentlyRunning =
          false := by
        intro t
        cases decEq t c with
        | isTrue htc => simp [htc, change]
        | isFalse htc =>
            rw [k.modifyThread_of_ne c t change htc, Bool.eq_false_iff, Ne, hflags,
              hcurrent, Option.some.injEq]
            exact fun heq => htc heq.symm
      have hsaved : (k.modifyThread c change).Queued next := h.modifyThread rfl rfl rfl
      simp only
      split
      · rename_i hmode
        have hchanged : ((k.modifyThread c change).threads c).execMode =
            execModeRunning := by
          rw [modifyThread_self]
          exact hmode
        split
        · rename_i hnone
          subst hnone
          exact ⟨h, fun t => by simp [hflags], fun t hne => absurd rfl hne⟩
        · rename_i hnext
          refine ⟨hsaved.queueThread hchanged, fun t => ?_, fun t _ ht => ?_⟩
          · rw [queueThread_flags, hcleared]
            simp [hnext]
          · rw [queueThread_currentThread, modifyThread_scheduler, hcurrent,
              Option.some.injEq] at ht
            rw [queueThread_runqueues, if_pos ht.symm]
            exact Option.some_ne_none _
      · rename_i hmode
        refine Saved.of_none ?_ hcleared rfl
        refine ⟨hsaved.queues, hsaved.running, fun t ht => ?_⟩
        rcases hsaved.notLost t ht with hct | hqueued | hheld
        · rw [modifyThread_scheduler, hcurrent, Option.some.injEq] at hct
          subst hct
          have hmode' : (k.threads c).execMode = execModeRunning := by
            simpa [change] using ht
          exact absurd hmode' hmode
        · exact .inr (.inl hqueued)
        · exact .inr (.inr hheld)

theorem Saved.loadNextThread (h : k.Saved next) (idleThread : BitVec 32)
    (registers : ThreadRegisters) (shouldIdle : Bool) :
    (k.loadNextThread idleThread registers shouldIdle next).2.SchedulerInvariant := by
  unfold Kernel.loadNextThread
  cases next with
  | none => exact ⟨h.queued, fun t => by simp [h.flags]⟩
  | some n =>
      let current := { k with scheduler := { k.scheduler with currentThread := some n } }
      let change := fun t : ThreadCapability =>
        { t with flags := { t.flags with currentlyRunning := true } }
      have hcurrent : current.Queued none := by
        refine ⟨h.queued.queues, h.queued.running, fun t ht => ?_⟩
        rcases h.queued.notLost t ht with hcurrent | hqueued | hheld
        · exact .inr (.inl (h.requeued t (Option.some_ne_none n) hcurrent))
        · exact .inr (.inl hqueued)
        · exact .inl hheld
      have hloaded : (current.modifyThread n change).Queued none :=
        hcurrent.modifyThread rfl rfl rfl
      refine ⟨hloaded, ?_⟩
      · intro t
        cases decEq t n with
        | isTrue htn => simp [htn]
        | isFalse htn =>
            have hother := h.flags t
            simp only [reduceCtorEq, false_and, iff_false] at hother
            rw [modifyThread_of_ne _ _ _ _ htn]
            simp [hother, Ne.symm htn]

theorem SchedulerInvariant.tryContextSwitch (h : k.SchedulerInvariant)
    (hsingle : k.SwitchPopsSingle) (idleThread : BitVec 32) (registers : ThreadRegisters) :
    (k.tryContextSwitch idleThread registers).2.SchedulerInvariant := by
  unfold Kernel.tryContextSwitch
  cases hpending : k.scheduler.pendingContextSwitch with
  | false => exact h
  | true =>
      let pending := { k with scheduler := { k.scheduler with pendingContextSwitch := false } }
      have hqueued : pending.Queued none :=
        h.queued.congr rfl rfl (fun _ => rfl) (fun _ => rfl) (fun _ => rfl)
      have hpops : pending.PopsSingle numPriorities :=
        popsSingle_congr rfl (hsingle hpending)
      have hsame := nextThread_same pending numPriorities
      have hflags : ∀ t,
          ((pending.nextThread numPriorities).2.threads t).flags.currentlyRunning = true ↔
            (pending.nextThread numPriorities).2.scheduler.currentThread = some t := by
        intro t
        rw [hsame.flags, hsame.current]
        exact h.current t
      simp only [if_true]
      apply Saved.loadNextThread
      apply Queued.saveCurrentThread _ hflags
      cases hqueued.nextThread hpops with
      | inl hnone =>
          rw [hnone]
          exact hqueued
      | inr hsome =>
          obtain ⟨n, k', heq, hk', _⟩ := hsome
          rw [heq]
          exact hk'

/-! What a context switch starts. -/

theorem nextThread_running (h : k.Queued none) {priorities : Nat}
    (ht : (k.nextThread priorities).1 = some t) :
    (k.threads t).execMode = execModeRunning := by
  induction priorities with
  | zero => cases ht
  | succ i ih =>
      unfold Kernel.nextThread at ht
      split at ht
      · have hstart : (k.scheduler.priorityQueues i).start = some t := by
          unfold Kernel.popRunqueue listPopFromStart at ht
          cases hstart : (k.scheduler.priorityQueues i).start with
          | none => simp [hstart] at ht
          | some item => simpa [hstart] using ht
        apply h.running
        rw [h.queues.start_some hstart]
        exact Option.some_ne_none i
      · exact ih ht

theorem saveCurrentThread_current (k : Kernel) (registers : ThreadRegisters)
    (next : Option Addr) (t : Addr)
    (ht : (k.saveCurrentThread registers next).2.scheduler.currentThread = some t) :
    (k.threads t).execMode = execModeRunning := by
  unfold saveCurrentThread at ht
  cases hcurrent : k.scheduler.currentThread with
  | none => simp [hcurrent] at ht
  | some c =>
      simp only [hcurrent] at ht
      split at ht
      · rename_i hmode
        have hct : c = t := by
          split at ht
          · simpa [hcurrent] using ht
          · simpa [hcurrent] using ht
        exact hct ▸ hmode
      · cases ht

/-- A context switch that is due starts, or goes on with, a thread that is ready
to run. -/
theorem SchedulerInvariant.started (h : k.SchedulerInvariant)
    (hpending : k.scheduler.pendingContextSwitch = true) {idleThread : BitVec 32}
    {registers : ThreadRegisters}
    (ht : (k.tryContextSwitch idleThread registers).2.scheduler.currentThread = some t) :
    ((k.tryContextSwitch idleThread registers).2.threads t).execMode = execModeRunning := by
  let pending := { k with scheduler := { k.scheduler with pendingContextSwitch := false } }
  have hqueued : pending.Queued none :=
    h.queued.congr rfl rfl (fun _ => rfl) (fun _ => rfl) (fun _ => rfl)
  have hsame := nextThread_same pending numPriorities
  have hpopped := @nextThread_running pending
  unfold Kernel.tryContextSwitch at ht ⊢
  simp only [hpending, if_true] at ht ⊢
  have hsaved := saveCurrentThread_execMode (pending.nextThread numPriorities).2 registers
    (pending.nextThread numPriorities).1
  unfold Kernel.loadNextThread at ht ⊢
  cases hnext : (pending.nextThread numPriorities).1 with
  | none =>
      simp only [pending] at hnext hsaved hsame
      simp only [hnext] at ht hsaved ⊢
      have hmode := saveCurrentThread_current _ _ _ t ht
      rw [hsaved]
      exact hmode
  | some n =>
      simp only [pending] at hnext hsaved hsame
      simp only [hnext] at ht hsaved ⊢
      have hnt : n = t := Option.some.inj ht
      subst hnt
      rw [modifyThread_self, hsaved, hsame.mode]
      exact hpopped hqueued hnext

end Kernel

end Cenix
