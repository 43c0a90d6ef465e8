import Cenix.Kernel.Heap

namespace Cenix

open LinkedLists

/-! The heap moves blocks without a look at the thread ids in use. -/

namespace Kernel

def withThreadIds (ids : Nat → Bool) (k : Kernel) : Kernel :=
  { k with usedThreadIds := ids }

variable (fuel : Nat) (ids : Nat → Bool) (k : Kernel)

theorem findThread_threadIds (threadId : Nat) (t : Option Addr) :
    (k.withThreadIds ids).findThread threadId fuel t = k.findThread threadId fuel t := by
  induction fuel generalizing t with
  | zero => cases t <;> rfl
  | succ fuel ih =>
      cases t with
      | none => rfl
      | some t =>
          simp only [findThread, ih]
          rfl

theorem lookUpThreadById_threadIds (threadId bucketNumber : Nat) :
    lookUpThreadById fuel (k.withThreadIds ids) threadId bucketNumber =
      (lookUpThreadById fuel k threadId bucketNumber).map fun (t, shouldUnlock, k) =>
        (t, shouldUnlock, k.withThreadIds ids) := by
  unfold lookUpThreadById
  rw [findThread_threadIds, Option.map_map]
  apply congrArg (fun f => Option.map f (k.findThread threadId fuel
    (k.threadHashTable bucketNumber).start))
  funext t
  cases t <;> rfl

theorem lookUpIn_threadIds (thread : Addr) (shouldUnlock : Bool) (address depth : Nat) :
    lookUpIn fuel (k.withThreadIds ids) thread shouldUnlock address depth =
      (lookUpIn fuel k thread shouldUnlock address depth).map fun (result, k) =>
        (result, k.withThreadIds ids) := by
  unfold lookUpIn
  rw [Option.map_map]
  rfl

theorem lookUpCapabilityAbsolute_threadIds (address : AbsoluteCapabilityAddress) :
    lookUpCapabilityAbsolute fuel (k.withThreadIds ids) address =
      (lookUpCapabilityAbsolute fuel k address).map fun (result, k) =>
        (result, k.withThreadIds ids) := by
  unfold lookUpCapabilityAbsolute
  rw [lookUpThreadById_threadIds]
  cases lookUpThreadById fuel k address.threadId address.bucketNumber with
  | none => rfl
  | some found =>
      obtain ⟨t, shouldUnlock, k₁⟩ := found
      cases t with
      | none => rfl
      | some t => exact lookUpIn_threadIds ..

theorem lookUpOwner_threadIds (address : AbsoluteCapabilityAddress) :
    lookUpOwner fuel (k.withThreadIds ids) address =
      (lookUpOwner fuel k address).map fun (result, k) =>
        (result, k.withThreadIds ids) := by
  unfold lookUpOwner
  split
  · rw [lookUpThreadById_threadIds]
    cases lookUpThreadById fuel k address.threadId address.bucketNumber with
    | none => rfl
    | some found =>
        obtain ⟨t, shouldUnlock, k₁⟩ := found
        cases t <;> rfl
  · exact lookUpCapabilityAbsolute_threadIds ..

@[simp] theorem withThreadIds_threads : (k.withThreadIds ids).threads = k.threads := rfl

@[simp] theorem withThreadIds_space : (k.withThreadIds ids).space = k.space := rfl

theorem updateRunqueue_threadIds (thread : Addr) :
    (k.withThreadIds ids).updateRunqueue thread =
      (k.updateRunqueue thread).withThreadIds ids := by
  simp only [updateRunqueue, withThreadIds_threads]
  cases (k.threads thread).runqueue <;> rfl

theorem updateBlockedQueue_threadIds (thread : Addr) :
    (k.withThreadIds ids).updateBlockedQueue thread =
      (k.updateBlockedQueue thread).withThreadIds ids := by
  simp only [updateBlockedQueue, withThreadIds_threads]
  cases (k.threads thread).blockedOn with
  | none => rfl
  | some endpoint =>
      simp only [apply_ite (withThreadIds ids)]
      rfl

theorem updateCpuUpdate_threadIds (thread : Addr) :
    (k.withThreadIds ids).updateCpuUpdate thread =
      (k.updateCpuUpdate thread).withThreadIds ids := by
  simp only [updateCpuUpdate, withThreadIds_threads, apply_ite (withThreadIds ids)]
  rfl

theorem updateCurrentThread_threadIds (thread : Addr) :
    (k.withThreadIds ids).updateCurrentThread thread =
      (k.updateCurrentThread thread).withThreadIds ids := by
  simp only [updateCurrentThread, withThreadIds_threads, apply_ite (withThreadIds ids)]
  rfl

theorem onThreadMoved_threadIds (thread : Addr) :
    onThreadMoved fuel (k.withThreadIds ids) thread =
      (onThreadMoved fuel k thread).map (withThreadIds ids) := by
  have hbucket : ∀ k : Kernel, (k.withThreadIds ids).updateThreadBucket thread =
      (k.updateThreadBucket thread).withThreadIds ids := fun _ => rfl
  simp only [onThreadMoved, updateRunqueue_threadIds, updateBlockedQueue_threadIds,
    hbucket, updateCpuUpdate_threadIds, updateCurrentThread_threadIds, withThreadIds_space]
  generalize (((((k.updateRunqueue thread).updateBlockedQueue thread).updateThreadBucket
    thread).updateCpuUpdate thread).updateCurrentThread thread) = k₁
  cases (k₁.space.slots (.root thread)).handlers with
  | none => rfl
  | some handlers =>
      simp only [reduceCtorEq, if_false, Option.map_map]
      rfl

theorem onEndpointMoved_threadIds (endpoint : Addr) :
    onEndpointMoved fuel (k.withThreadIds ids) endpoint =
      (onEndpointMoved fuel k endpoint).map (withThreadIds ids) := by
  have hloop : ∀ (k : Kernel) (queue : Container Addr),
      (k.withThreadIds ids).iterBlockedQueue fuel queue (fun k t =>
        some (k.modifyThread t fun t => { t with blockedOn := some endpoint })) =
      (k.iterBlockedQueue fuel queue fun k t =>
        some (k.modifyThread t fun t => { t with blockedOn := some endpoint })).map
          (withThreadIds ids) := by
    intro k queue
    exact @listIter_map _ _ _ _ (withThreadIds ids) (fun _ => rfl) (fun _ _ => rfl) ..
  unfold onEndpointMoved
  simp only [hloop, Option.bind_eq_bind]
  have hqueue : (k.withThreadIds ids).endpoints = k.endpoints := rfl
  rw [hqueue]
  cases k.iterBlockedQueue fuel (k.endpoints endpoint).blockedSending (fun k t =>
      some (k.modifyThread t fun t => { t with blockedOn := some endpoint })) with
  | none => rfl
  | some k₁ => exact hloop k₁ _

theorem onMoved_threadIds (handlers : Handlers) (resource : Addr) :
    onMoved fuel (k.withThreadIds ids) handlers resource =
      (onMoved fuel k handlers resource).map (withThreadIds ids) := by
  cases handlers with
  | node =>
      simp only [onMoved, Option.map_map]
      rfl
  | thread => exact onThreadMoved_threadIds ..
  | endpoint => exact onEndpointMoved_threadIds ..
  | debug => rfl
  | untyped => rfl
  | addressSpace => rfl

theorem updateCapabilityResource_threadIds (address : AbsoluteCapabilityAddress)
    (resource : Addr) :
    updateCapabilityResource fuel (k.withThreadIds ids) address resource =
      (updateCapabilityResource fuel k address resource).map (withThreadIds ids) := by
  unfold updateCapabilityResource
  rw [lookUpOwner_threadIds]
  cases lookUpOwner fuel k address with
  | none => rfl
  | some found =>
      obtain ⟨result, k₁⟩ := found
      cases result with
      | none => rfl
      | some result =>
          simp only [Option.map_some, Option.bind_some, withThreadIds_space]
          cases (k₁.space.slots result.slot).handlers with
          | none => rfl
          | some handlers =>
              simp only [Option.bind_eq_bind]
              cases setResources fuel k₁.space result.slot resource with
              | none => rfl
              | some s =>
                  have hmoved := onMoved_threadIds fuel ids { k₁ with space := s } handlers
                    (s.slots result.slot).resource
                  simp only [Option.bind_some]
                  unfold withThreadIds at hmoved ⊢
                  rw [hmoved]
                  cases onMoved fuel { k₁ with space := s } handlers
                    (s.slots result.slot).resource <;> rfl

theorem updateReferences_threadIds (src dest : Addr) :
    updateReferences fuel (k.withThreadIds ids) src dest =
      (updateReferences fuel k src dest).map (withThreadIds ids) := by
  unfold updateReferences
  have hrefs : (k.withThreadIds ids).space.updateRefs = k.space.updateRefs := rfl
  rw [hrefs]
  cases k.space.updateRefs src with
  | nothing => rfl
  | onThreadMoved =>
      simp only [onThreadMoved_threadIds, Option.map_map]
      rfl
  | capability address =>
      simp only [updateCapabilityResource_threadIds, Option.map_map]
      rfl

theorem relocate_threadIds (src dest : Addr) :
    relocate fuel (k.withThreadIds ids) src dest =
      (relocate fuel k src dest).map (withThreadIds ids) := by
  unfold relocate
  have hmoving := updateReferences_threadIds fuel ids (k.beginMove src dest) src dest
  refine (congrArg (Option.map _) hmoving).trans ?_
  rw [Option.map_map, Option.map_map]
  rfl

theorem relocateAll_threadIds (moves : List (Addr × Addr)) :
    relocateAll fuel (k.withThreadIds ids) moves =
      (relocateAll fuel k moves).map (withThreadIds ids) := by
  unfold relocateAll
  apply foldlM_map
  intro k move
  have hcan : (k.withThreadIds ids).CanMove move.1 move.2 ↔ k.CanMove move.1 move.2 := Iff.rfl
  simp only [hcan]
  split
  · exact relocate_threadIds ..
  · rfl

theorem relocateAll_usedThreadIds {fuel : Nat} {k k' : Kernel} {moves : List (Addr × Addr)}
    (h : relocateAll fuel k moves = some k') : k'.usedThreadIds = k.usedThreadIds := by
  have hids := relocateAll_threadIds fuel k.usedThreadIds k moves
  have hsame : k.withThreadIds k.usedThreadIds = k := rfl
  rw [hsame, h] at hids
  have hk' : k' = k'.withThreadIds k.usedThreadIds := Option.some.inj hids
  have hused := congrArg usedThreadIds hk'
  exact hused

end Kernel

end Cenix
