import Cenix.Endpoint.BlockingCalls
import Cenix.Kernel.Deletion

namespace Cenix

open LinkedLists

/-! Threads and endpoints are destroyed. -/

namespace Kernel

variable {fuel : Nat} {k k' : Kernel} {t u : Addr} {q : Addr × Direction}

/-- A block that is no thread any more, and was no endpoint before. -/
theorem Blocking.of_dead (h : k.Blocking)
    (hthread : ∀ u, k'.IsThread u ↔ u ≠ t ∧ k.IsThread u)
    (hendpoint : ∀ e, k'.IsEndpoint e ↔ k.IsEndpoint e)
    (hqueues : Queues k'.waitingQueue k'.blockedQueues k'.waitingFor)
    (hother : ∀ u, u ≠ t → (k'.threads u).blockedState = (k.threads u).blockedState) :
    k'.Blocking where
  queues := hqueues
  threads u hu := by
    obtain ⟨hut, hu⟩ := (hthread u).mp hu
    rw [hother u hut]
    cases h.threads u hu with
    | inl hidle => exact .inl hidle
    | inr hwaits =>
        obtain ⟨q, hwaits, he⟩ := hwaits
        exact .inr ⟨q, hwaits, (hendpoint q.1).mpr he⟩

theorem waitingFor_dead (ht : ¬k.IsThread t) : k.waitingFor t = none :=
  if_neg ht

theorem heapFree_isThread (k : Kernel) (b u : Addr) :
    (k.heapFree b).IsThread u ↔ u ≠ b ∧ k.IsThread u := by
  unfold IsThread heapFree
  cases decEq u b with
  | isTrue hub => simp [hub]
  | isFalse hub => simp [hub]

theorem heapFree_isEndpoint (k : Kernel) (b e : Addr) :
    (k.heapFree b).IsEndpoint e ↔ e ≠ b ∧ k.IsEndpoint e := by
  unfold IsEndpoint heapFree
  cases decEq e b with
  | isTrue heb => simp [heb]
  | isFalse heb => simp [heb]

theorem not_isEndpoint (ht : k.IsThread t) : ¬k.IsEndpoint t := by
  intro he
  rw [IsEndpoint, ht] at he
  cases he

/-! The lists that a thread leaves before it leaves the queue it is blocked on. -/

theorem leaveRunqueue_sameBlocking (k : Kernel) (t : Addr) (i : Nat) :
    k.SameBlocking (k.leaveRunqueue t i) where
  objects := .of_eq rfl
  queues _ := rfl
  links := rfl
  threads _ := rfl

theorem leaveCpuUpdate_sameBlocking (k : Kernel) (t : Addr) :
    k.SameBlocking (k.leaveCpuUpdate t) where
  objects := .of_eq rfl
  queues _ := rfl
  links := rfl
  threads _ := rfl

theorem leaveThreadBucket_sameBlocking (k : Kernel) (t : Addr) :
    k.SameBlocking (k.leaveThreadBucket t) where
  objects := .of_eq rfl
  queues _ := rfl
  links := rfl
  threads _ := rfl

theorem SameBlocking.refl (k : Kernel) : k.SameBlocking k :=
  ⟨.refl k, fun _ => rfl, rfl, fun _ => rfl⟩

/-- The thread leaves the queue it waits on, and its block is freed. -/
theorem Blocking.leaveBlocked (h : k.Blocking) (ht : k.IsThread t) :
    ((k.leaveBlocked t).heapFree t).Blocking := by
  have hdead : ¬((k.leaveBlocked t).heapFree t).IsThread t := by
    simp [heapFree_isThread]
  have hspace := leaveBlocked_space k t
  have hthread : ∀ u, ((k.leaveBlocked t).heapFree t).IsThread u ↔ u ≠ t ∧ k.IsThread u := by
    intro u
    rw [heapFree_isThread, IsThread, hspace, IsThread]
  have hendpoint : ∀ e, ((k.leaveBlocked t).heapFree t).IsEndpoint e ↔ k.IsEndpoint e := by
    intro e
    rw [heapFree_isEndpoint, IsEndpoint, hspace, IsEndpoint]
    refine and_iff_right_of_imp ?_
    intro he het
    exact not_isEndpoint ht (het ▸ he)
  have hstate : ∀ u, (((k.leaveBlocked t).heapFree t).threads u).blockedState =
      (k.threads u).blockedState := by
    intro u
    unfold Kernel.leaveBlocked
    split
    · rfl
    · split <;> rfl
  apply h.of_dead hthread hendpoint _ (fun u _ => hstate u)
  have hkey : ∀ u, u ≠ t → ((k.leaveBlocked t).heapFree t).waitingFor u = k.waitingFor u := by
    intro u hu
    exact waitingFor_congr (by rw [hthread, and_iff_right hu]) (hstate u)
  cases h.threads t ht with
  | inl hidle =>
      have hnone : (k.threads t).blockedOn = none := congrArg BlockedState.on hidle
      have hsame : k.leaveBlocked t = k := by
        unfold Kernel.leaveBlocked
        rw [hnone]
      apply h.queues.congr
      · funext q
        apply waitingQueue_congr (hendpoint q.1)
        rw [hsame]
        rfl
      · intro u _
        rw [hsame]
        rfl
      · intro u
        cases decEq u t with
        | isTrue hut => rw [hut, waitingFor_dead hdead, waitingFor_idle hidle]
        | isFalse hut => exact hkey u hut
  | inr hwaits =>
      obtain ⟨⟨e, direction⟩, hwaits, he⟩ := hwaits
      have hon : (k.threads t).blockedOn = some e := congrArg BlockedState.on hwaits
      have hsend : (k.threads t).flags.blockedOnSend = decide (direction = .sending) :=
        congrArg BlockedState.onSend hwaits
      have hq : k.waitingQueue (e, direction) = k.endpointQueue (e, direction) := if_pos he
      cases hremove : listRemove (k.endpointQueue (e, direction)) k.blockedQueues t with
      | mk queue links =>
          have hleave : (∀ q, (k.leaveBlocked t).endpointQueue q =
                if q = (e, direction) then queue else k.endpointQueue q) ∧
              (k.leaveBlocked t).blockedQueues = links := by
            unfold Kernel.leaveBlocked
            rw [hon]
            cases direction with
            | sending =>
                simp only [hsend, decide_true, if_true, Kernel.leaveBlockedSending]
                simp only [endpointQueue] at hremove
                rw [hremove]
                exact ⟨k.endpointQueue_setBlockedSending e queue, rfl⟩
            | receiving =>
                simp only [hsend, reduceCtorEq, decide_false, Bool.false_eq_true, if_false,
                  Kernel.leaveBlockedReceiving]
                simp only [endpointQueue] at hremove
                rw [hremove]
                exact ⟨k.endpointQueue_setBlockedReceiving e queue, rfl⟩
          have hlinks : ((k.leaveBlocked t).heapFree t).blockedQueues = links := hleave.2
          rw [hlinks]
          apply h.queues.remove (waitingFor_waits ht hwaits) (by rw [hq, hremove]) _
            (waitingFor_dead hdead) hkey
          funext q
          cases decEq q (e, direction) with
          | isTrue hqe =>
              subst hqe
              simp only [Function.update_self, waitingQueue, if_pos ((hendpoint e).mpr he)]
              exact (hleave.1 _).trans (if_pos rfl)
          | isFalse hqe =>
              rw [Function.update_of_ne hqe]
              exact waitingQueue_congr (hendpoint q.1) ((hleave.1 q).trans (if_neg hqe))

theorem Blocking.unlinkThread (h : k.Blocking) (ht : k.IsThread t) (hne : t ≠ 0) :
    ((k.unlinkThread t).freeResource t).Blocking := by
  have hqueue : k.SameBlocking ((k.threads t).runqueue.elim k (k.leaveRunqueue t)) := by
    cases (k.threads t).runqueue with
    | some i => exact leaveRunqueue_sameBlocking ..
    | none => exact .refl k
  have hscheduler : k.SameBlocking (k.leaveScheduler t) := by
    simp only [leaveScheduler]
    split
    · exact hqueue.trans (leaveCpuUpdate_sameBlocking ..)
    · exact hqueue
  have hbucket := hscheduler.trans (leaveThreadBucket_sameBlocking _ t)
  have hleft := (h.congr hbucket).leaveBlocked ((hbucket.objects.thread t).mpr ht)
  rw [freeResource, if_neg hne, unlinkThread_eq]
  exact hleft.congr (sameBlocking_of (.of_eq rfl) rfl rfl)

theorem Blocking.endpointDestructor (h : k.Blocking) {slot : SlotPtr} {e : Addr}
    (hslot : (k.space.slots slot).resource = e) (he : k.IsEndpoint e)
    (hsending : (k.endpoints e).blockedSending.start = none)
    (hreceiving : (k.endpoints e).blockedReceiving.start = none)
    (hdestroy : k.endpointDestructor fuel slot = some k') :
    (k'.freeResource e).Blocking := by
  have hsame : k' = k := by
    have hnone : ∀ (k : Kernel) (queue : Container Addr) body, queue.start = none →
        k.iterBlockedQueue fuel queue body = some k := by
      intro k queue body hstart
      rw [iterBlockedQueue, hstart]
      cases fuel <;> rfl
    simp only [Kernel.endpointDestructor, hslot, hnone _ _ _ hsending, Option.bind_eq_bind,
      Option.bind_some, hnone _ _ _ hreceiving, Option.some.injEq] at hdestroy
    exact hdestroy.symm
  subst hsame
  unfold freeResource
  split
  · exact h
  · have hempty : ∀ direction, k'.waitingQueue (e, direction) = Container.empty := by
      intro direction
      have hstart : (k'.waitingQueue (e, direction)).start = none := by
        rw [waitingQueue, if_pos he]
        cases direction with
        | sending => exact hsending
        | receiving => exact hreceiving
      obtain ⟨xs, hxs, -⟩ := h.queues (e, direction)
      have hnil := hxs.nil_iff.mpr hstart
      subst hnil
      have hlast := hxs.last_eq
      generalize k'.waitingQueue (e, direction) = c at hstart hlast
      obtain ⟨start, last⟩ := c
      simp only at hstart hlast
      rw [hstart, hlast]
      rfl
    have hwaiting : (k'.heapFree e).waitingQueue = k'.waitingQueue := by
      funext q
      obtain ⟨e', direction⟩ := q
      cases decEq e' e with
      | isTrue heq =>
          subst heq
          rw [hempty, waitingQueue, if_neg (by simp [heapFree_isEndpoint])]
      | isFalse hne =>
          refine waitingQueue_congr ?_ ?_
          · rw [heapFree_isEndpoint, and_iff_right hne]
          · rfl
    have hthread : ∀ t, (k'.heapFree e).IsThread t ↔ k'.IsThread t := by
      intro t
      rw [heapFree_isThread]
      refine and_iff_right_of_imp ?_
      intro ht hte
      exact not_isEndpoint ht (hte ▸ he)
    constructor
    · rw [hwaiting]
      exact h.queues.congr rfl (fun _ _ => rfl) (fun t => waitingFor_congr (hthread t) rfl)
    · intro t ht
      cases h.threads t ((hthread t).mp ht) with
      | inl hidle => exact .inl hidle
      | inr hwaits =>
          obtain ⟨⟨e', direction⟩, hwaits, he'⟩ := hwaits
          refine .inr ⟨(e', direction), hwaits, ?_⟩
          rw [heapFree_isEndpoint]
          refine ⟨?_, he'⟩
          intro heq
          -- nothing waits on an empty queue
          have hkey := waitingFor_waits ((hthread t).mp ht) hwaits
          apply h.queues.start_none _ t hkey
          have heq' : e' = e := heq
          rw [heq', hempty]
          rfl

end Kernel

end Cenix
