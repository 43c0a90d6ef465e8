import Cenix.Capabilities.Operations
import Cenix.Kernel.Boot
import Cenix.Kernel.Untyped
import Cenix.Untyped.Pins

namespace Cenix

open LinkedLists

/-! Who has locked a region of untyped memory. -/

/-- `other` is whatever leaves the capabilities and the heap alone. -/
inductive UntypedOp where
  | lock (fuel address depth : Nat)
  | tryLock (fuel address depth : Nat)
  | unlock (fuel address depth : Nat)
  | lookUp (fuel address depth : Nat)
  | lookUpAbsolute (fuel : Nat) (address : AbsoluteCapabilityAddress)
  | heapAlloc (fuel : Nat) (placement : Placement) (kind : ObjectKind)
  | other (k : Kernel)

/-! Nothing but an unlock unlocks a pinned region. -/

namespace Locked

variable {old kinds kinds' : Addr → Kind} {container b : Addr} {shouldUnlock : Bool}

theorem of_ne (h : Locked old container shouldUnlock kinds) (hne : b ≠ container) :
    kinds b = old b := by
  cases h with
  | already => rfl
  | now _ => simp [hne]

theorem movable_of (h : Locked old container shouldUnlock kinds) (hb : kinds b = .movable) :
    old b = .movable := by
  cases h with
  | already => exact hb
  | now hold =>
      cases decEq b container with
      | isTrue heq => rw [heq]; exact hold
      | isFalse hne => simpa [hne] using hb

/-- `unlock_looked_up_capability` only unlocks what was movable before the lookup. -/
theorem pinned (h : Locked old container shouldUnlock kinds) (hold : old b = .immovable)
    (hkept : kinds b = .immovable → kinds' b = .immovable) :
    unlockIf shouldUnlock kinds' container b = .immovable := by
  cases h with
  | already => exact hkept hold
  | now hmovable =>
      have hne : b ≠ container := by
        intro heq
        rw [heq, hmovable] at hold
        cases hold
      simpa [unlockIf, heapUnlock, hne] using hkept (by simpa [hne] using hold)

end Locked

namespace Kernel

/-- A lookup and `unlock_looked_up_capability`. -/
def lookUpAndUnlock (found : Option (Option LookUpResult × Kernel)) : Option Kernel :=
  found.map fun
    | (none, k) => k
    | (some result, k) => k.unlockLookedUpCapability result

/-- The first component is the value that is returned to the thread. -/
def untypedStep (k : Kernel) : UntypedOp → Option (Nat × Kernel)
  | .lock fuel address depth => k.invokeUntyped untypedLock fuel address depth
  | .tryLock fuel address depth => k.invokeUntyped untypedTryLock fuel address depth
  | .unlock fuel address depth => k.invokeUntyped untypedUnlock fuel address depth
  | .lookUp fuel address depth =>
      (lookUpAndUnlock (k.lookUpCapabilityRelative fuel address depth)).map (Prod.mk 0)
  | .lookUpAbsolute fuel address =>
      (lookUpAndUnlock (k.lookUpCapabilityAbsolute fuel address)).map (Prod.mk 0)
  | .heapAlloc fuel placement kind => (k.heapAlloc fuel placement kind).map fun (_, k) => (0, k)
  | .other k' => some (0, { k' with space := k.space, kinds := k.kinds })

/-- The slot of the capability for untyped memory at an address of the current thread. -/
def untypedAt (fuel : Nat) (k : Kernel) (address depth : Nat) : Option SlotPtr :=
  (k.slotAt fuel address depth).filter fun p => (k.space.slots p).handlers == some .untyped

/-- The id of the running thread; it stays the same when the thread is moved. -/
def currentId (k : Kernel) : Option Nat :=
  k.scheduler.currentThread.map fun t => (k.threads t).threadId

variable {fuel : Nat} {k k' k₁ : Kernel} {address depth value : Nat} {slot : SlotPtr}
  {handler : Kernel → SlotPtr → Nat × Kernel}

theorem lookUpFrom_container {s : Space} {useFirstNonNode : Bool} {kinds kinds' : Addr → Kind}
    {node : Addr} {shouldUnlock : Bool} {actualDepth depth : Nat} {result : LookUpResult}
    (h : s.lookUpFrom useFirstNonNode fuel kinds node shouldUnlock address depth actualDepth =
      some (some result, kinds')) : result.slot.block = result.container := by
  induction fuel generalizing kinds node shouldUnlock address depth actualDepth with
  | zero => cases h
  | succ fuel ih =>
      simp only [Space.lookUpFrom] at h
      split at h
      · cases h
        rfl
      · split at h
        · cases h
        · exact ih h

theorem lookUpCapabilityRelative_container {result : LookUpResult}
    (h : k.lookUpCapabilityRelative fuel address depth = some (some result, k')) :
    result.slot.block = result.container := by
  unfold lookUpCapabilityRelative at h
  split at h
  · cases h
  · simp only [lookUpIn, Option.map_eq_some_iff, Prod.mk.injEq] at h
    obtain ⟨⟨found, kinds⟩, hfound, rfl, -⟩ := h
    unfold Space.lookUpCapability at hfound
    split at hfound
    · exact lookUpFrom_container hfound
    · cases hfound

theorem slotAt_none (h : k.lookUpCapabilityRelative fuel address depth = some (none, k')) :
    k.slotAt fuel address depth = none := by
  unfold lookUpCapabilityRelative at h
  cases hcurrent : k.scheduler.currentThread with
  | none => simp [slotAt, hcurrent]
  | some t =>
      rw [hcurrent] at h
      have hresolve := lookUpIn_resolve h
      have hresolve' : k.space.resolve fuel (.root t) address depth = some none := hresolve
      simp [slotAt, hcurrent, hresolve']

/-- What an untyped invocation does. -/
theorem invokeUntyped_cases
    (h : k.invokeUntyped handler fuel address depth = some (value, k')) :
    (k.untypedAt fuel address depth = none ∧ k' = k) ∨
      ∃ (result : LookUpResult) (kinds : Addr → Kind),
        k.untypedAt fuel address depth = some result.slot ∧
        Locked k.kinds result.container result.shouldUnlock kinds ∧
        result.slot.block = result.container ∧
        value = (handler { k with kinds := kinds } result.slot).1 ∧
        k' = (handler { k with kinds := kinds } result.slot).2.unlockLookedUpCapability
          result := by
  simp only [invokeUntyped, Option.bind_eq_some_iff] at h
  obtain ⟨⟨found, k₁⟩, hfound, h⟩ := h
  obtain ⟨kinds, rfl, hlocked⟩ := lookUpCapabilityRelative_locked hfound
  cases found with
  | none =>
      have hsame : kinds = k.kinds := hlocked
      cases h
      refine .inl ⟨by simp [untypedAt, slotAt_none hfound], ?_⟩
      rw [hsame]
  | some result =>
      have hat := lookUpCapabilityRelative_slotAt hfound
      have hunlock := unlockLookedUpCapability_locked hlocked
      simp only at h
      split at h
      · rename_i hempty
        cases h
        refine .inl ⟨?_, hunlock⟩
        simp [untypedAt, hat, hempty]
      · rename_i huntyped
        simp only [Option.some.injEq, Prod.mk.injEq] at h
        obtain ⟨rfl, rfl⟩ := h
        refine .inr ⟨result, kinds, ?_, hlocked, lookUpCapabilityRelative_container hfound, rfl,
          rfl⟩
        simp [untypedAt, hat, huntyped]
      · cases h

theorem heapLock_pinned {kinds : Addr → Kind} {ptr b : Addr} (h : kinds b = .immovable) :
    (heapLock kinds ptr).2 b = .immovable := by
  unfold heapLock
  split
  · cases decEq b ptr with
    | isTrue heq => simp [heq]
    | isFalse hne => simpa [hne] using h
  · exact h

theorem lookUpAndUnlock_relative
    (h : lookUpAndUnlock (k.lookUpCapabilityRelative fuel address depth) = some k') : k' = k := by
  simp only [lookUpAndUnlock, Option.map_eq_some_iff] at h
  obtain ⟨⟨found, k₁⟩, hfound, rfl⟩ := h
  obtain ⟨kinds, rfl, hlocked⟩ := lookUpCapabilityRelative_locked hfound
  cases found with
  | none =>
      have hsame : kinds = k.kinds := hlocked
      rw [hsame]
  | some result => exact unlockLookedUpCapability_locked hlocked

theorem lookUpAndUnlock_absolute {address : AbsoluteCapabilityAddress}
    (h : lookUpAndUnlock (k.lookUpCapabilityAbsolute fuel address) = some k') : k' = k := by
  simp only [lookUpAndUnlock, Option.map_eq_some_iff] at h
  obtain ⟨⟨found, k₁⟩, hfound, rfl⟩ := h
  obtain ⟨kinds, rfl, hlocked⟩ := lookUpCapabilityAbsolute_locked hfound
  cases found with
  | none =>
      have hsame : kinds = k.kinds := hlocked
      rw [hsame]
  | some result => exact unlockLookedUpCapability_locked hlocked

end Kernel

/-- A kernel and the ids of the threads that hold each region locked: they have been
returned its pointer and have not unlocked it since. -/
structure LockRecord where
  kernel : Kernel
  holders : Addr → List Nat

namespace LockRecord

open Kernel

/-- The region that the calling thread names. -/
def region (s : LockRecord) (fuel address depth : Nat) : Option Addr :=
  (s.kernel.untypedAt fuel address depth).map fun p => (s.kernel.space.slots p).resource

/-- The calling thread has been returned the pointer of the region. -/
def lockedBy (s : LockRecord) (value : Nat) : Option Addr → Option Nat → Addr → List Nat
  | some b, some id => if value = b ∧ b ≠ 0 then
      Function.update s.holders b (id :: s.holders b) else s.holders
  | _, _ => s.holders

def unlockedBy (s : LockRecord) : Option Addr → Option Nat → Addr → List Nat
  | some b, some id => Function.update s.holders b ((s.holders b).erase id)
  | _, _ => s.holders

def step (s : LockRecord) (op : UntypedOp) : Option LockRecord :=
  (s.kernel.untypedStep op).map fun (value, k) =>
    ⟨k, match op with
      | .lock fuel address depth | .tryLock fuel address depth =>
          s.lockedBy value (s.region fuel address depth) s.kernel.currentId
      | .unlock fuel address depth =>
          s.unlockedBy (s.region fuel address depth) s.kernel.currentId
      | _ => s.holders⟩

def Begins (s : LockRecord) : Prop :=
  ∀ b, s.holders b = []

/-- A region is locked when it is not locked yet, and unlocked by the thread that has
locked it, if there is one.  A capability that is locked refers to an allocated region
other than the node that it lies in. -/
def KeepsLocks (s : LockRecord) : UntypedOp → Prop
  | .lock fuel address depth => ∀ p, s.kernel.untypedAt fuel address depth = some p →
      s.kernel.kinds (s.kernel.space.slots p).resource = .movable ∧
        s.kernel.space.objects (s.kernel.space.slots p).resource ≠ none ∧
        (s.kernel.space.slots p).resource ≠ p.block
  | .tryLock fuel address depth => ∀ p, s.kernel.untypedAt fuel address depth = some p →
      s.kernel.kinds (s.kernel.space.slots p).resource = .movable →
        s.kernel.space.objects (s.kernel.space.slots p).resource ≠ none ∧
        (s.kernel.space.slots p).resource ≠ p.block
  | .unlock fuel address depth => ∀ b, s.region fuel address depth = some b →
      ∀ id ∈ s.holders b, s.kernel.currentId = some id
  | _ => True

/-- No allocation moves or unlocks a region that a thread has locked. -/
def Respected (s : LockRecord) : Prop :=
  ∀ b, s.holders b ≠ [] → ∀ fuel placement kind allocated k',
    s.kernel.heapAlloc fuel placement kind = some (allocated, k') →
      (∀ move ∈ placement.moves, move.1 ≠ b) ∧ k'.Pinned b

/-- Every region that is held has one holder and is pinned. -/
def HeldPinned (s : LockRecord) : Prop :=
  ∀ b, s.holders b ≠ [] → (∃ id, s.holders b = [id]) ∧ s.kernel.Pinned b

variable {s s' : LockRecord}

theorem HeldPinned.respected (h : s.HeldPinned) : s.Respected := by
  intro b hb fuel placement kind allocated k' halloc
  obtain ⟨hpinned, hstay⟩ := (h b hb).2.heapAlloc halloc
  exact ⟨hstay, hpinned⟩

variable {fuel address depth value : Nat} {k : Kernel} {result : LookUpResult}
  {kinds : Addr → Kind}

/-- Regions that are held stay held when only the locks of others change. -/
theorem HeldPinned.congr (h : s.HeldPinned) (hholders : s'.holders = s.holders)
    (hkinds : ∀ b, s.kernel.kinds b = .immovable → s.holders b ≠ [] →
      s'.kernel.kinds b = .immovable)
    (hobjects : s'.kernel.space.objects = s.kernel.space.objects) : s'.HeldPinned := by
  intro b hb
  rw [hholders] at hb ⊢
  obtain ⟨hholder, himmovable, hallocated⟩ := h b hb
  exact ⟨hholder, hkinds b himmovable hb, hobjects ▸ hallocated⟩

/-- A successful lock of a region that nobody had locked. -/
theorem HeldPinned.lock (h : s.HeldPinned)
    (hlocked : Locked s.kernel.kinds result.container result.shouldUnlock kinds)
    {b : Addr} (hmovable : s.kernel.kinds b = .movable)
    (hallocated : s.kernel.space.objects b ≠ none) (hne : b ≠ result.container)
    {holders : Addr → List Nat} (hholders : holders = s.holders ∨
      ∃ i, holders = Function.update s.holders b (i :: s.holders b)) :
    HeldPinned ⟨{ s.kernel with
      kinds := unlockIf result.shouldUnlock (heapLock kinds b).2 result.container },
      holders⟩ := by
  have hfree : s.holders b = [] := by
    by_contra hheld
    have hpinned := (h b hheld).2.1
    rw [hmovable] at hpinned
    cases hpinned
  have hkept : ∀ b', s.kernel.kinds b' = .immovable →
      unlockIf result.shouldUnlock (heapLock kinds b).2 result.container b' = .immovable :=
    fun b' hb' => hlocked.pinned hb' heapLock_pinned
  have hnow : unlockIf result.shouldUnlock (heapLock kinds b).2 result.container b =
      .immovable := by
    have hkinds : kinds b = .movable := (hlocked.of_ne hne).trans hmovable
    have hset : (heapLock kinds b).2 b = .immovable := by simp [heapLock, hkinds]
    unfold unlockIf heapUnlock
    split
    · simpa [hne] using hset
    · exact hset
  intro b' hb'
  cases hholders with
  | inl hsame =>
      rw [hsame] at hb'
      obtain ⟨hholder, himmovable, hobject⟩ := h b' hb'
      rw [hsame]
      exact ⟨hholder, hkept b' himmovable, hobject⟩
  | inr hnew =>
      obtain ⟨i, hnew⟩ := hnew
      rw [hnew] at hb'
      rw [hnew]
      cases decEq b' b with
      | isTrue heq =>
          subst heq
          exact ⟨⟨i, by simp [hfree]⟩, hnow, hallocated⟩
      | isFalse hother =>
          simp only [Function.update_of_ne hother] at hb' ⊢
          obtain ⟨hholder, himmovable, hobject⟩ := h b' hb'
          exact ⟨hholder, hkept b' himmovable, hobject⟩

theorem lockedBy_cases (s : LockRecord) (value : Nat) (b : Addr) (id : Option Nat) :
    s.lockedBy value (some b) id = s.holders ∨
      ∃ i, s.lockedBy value (some b) id = Function.update s.holders b (i :: s.holders b) := by
  cases id with
  | none => exact .inl rfl
  | some i =>
      simp only [lockedBy]
      split
      · exact .inr ⟨i, rfl⟩
      · exact .inl rfl

theorem region_eq {p : SlotPtr} (h : s.kernel.untypedAt fuel address depth = some p) :
    s.region fuel address depth = some (s.kernel.space.slots p).resource := by
  simp [region, h]

theorem HeldPinned.stepLock (h : s.HeldPinned) (hkeeps : s.KeepsLocks (.lock fuel address depth))
    (hlock : s.kernel.invokeUntyped untypedLock fuel address depth = some (value, k)) :
    HeldPinned ⟨k, s.lockedBy value (s.region fuel address depth) s.kernel.currentId⟩ := by
  cases invokeUntyped_cases hlock with
  | inl hnothing =>
      obtain ⟨hnone, rfl⟩ := hnothing
      have hregion : s.region fuel address depth = none := by simp [region, hnone]
      rw [hregion]
      exact h
  | inr hdone =>
      obtain ⟨result, kinds, hat, hlocked, hblock, -, rfl⟩ := hdone
      obtain ⟨hmovable, hallocated, hne⟩ := hkeeps _ hat
      rw [hblock] at hne
      rw [region_eq hat]
      exact h.lock hlocked hmovable hallocated hne (lockedBy_cases s value _ _)

theorem HeldPinned.stepTryLock (h : s.HeldPinned)
    (hkeeps : s.KeepsLocks (.tryLock fuel address depth))
    (hlock : s.kernel.invokeUntyped untypedTryLock fuel address depth = some (value, k)) :
    HeldPinned ⟨k, s.lockedBy value (s.region fuel address depth) s.kernel.currentId⟩ := by
  cases invokeUntyped_cases hlock with
  | inl hnothing =>
      obtain ⟨hnone, rfl⟩ := hnothing
      have hregion : s.region fuel address depth = none := by simp [region, hnone]
      rw [hregion]
      exact h
  | inr hdone =>
      obtain ⟨result, kinds, hat, hlocked, hblock, hvalue, rfl⟩ := hdone
      have hkeeps := hkeeps _ hat
      rw [region_eq hat]
      generalize hb : (s.kernel.space.slots result.slot).resource = b at hkeeps
      cases decEq (kinds b) .movable with
      | isTrue hmovable =>
          have hbefore : s.kernel.kinds b = .movable := hlocked.movable_of hmovable
          obtain ⟨hallocated, hne⟩ := hkeeps hbefore
          rw [hblock] at hne
          have hkernel : (untypedTryLock { s.kernel with kinds := kinds } result.slot).2 =
              { s.kernel with kinds := (heapLock kinds b).2 } := by
            simp [untypedTryLock, hb, heapLock, hmovable]
          rw [hkernel]
          exact h.lock hlocked hbefore hallocated hne (lockedBy_cases s value b _)
      | isFalse hother =>
          have hfailed : untypedTryLock { s.kernel with kinds := kinds } result.slot =
              (0, { s.kernel with kinds := kinds }) := by
            simp [untypedTryLock, hb, heapLock, hother]
          rw [hfailed] at hvalue
          rw [hfailed]
          have hsame : s.lockedBy value (some b) s.kernel.currentId = s.holders := by
            cases s.kernel.currentId with
            | none => rfl
            | some i =>
                simp only [lockedBy]
                rw [if_neg]
                rintro ⟨hpointer, hne⟩
                exact hne (hpointer.symm.trans hvalue)
          rw [hsame]
          refine h.congr rfl (fun b' hb' _ => ?_) rfl
          exact hlocked.pinned hb' id

theorem HeldPinned.stepUnlock (h : s.HeldPinned)
    (hkeeps : s.KeepsLocks (.unlock fuel address depth))
    (hunlock : s.kernel.invokeUntyped untypedUnlock fuel address depth = some (value, k)) :
    HeldPinned ⟨k, s.unlockedBy (s.region fuel address depth) s.kernel.currentId⟩ := by
  cases invokeUntyped_cases hunlock with
  | inl hnothing =>
      obtain ⟨hnone, rfl⟩ := hnothing
      have hregion : s.region fuel address depth = none := by simp [region, hnone]
      rw [hregion]
      exact h
  | inr hdone =>
      obtain ⟨result, kinds, hat, hlocked, -, -, rfl⟩ := hdone
      have hkeeps := hkeeps _ (region_eq hat)
      rw [region_eq hat]
      generalize hb : (s.kernel.space.slots result.slot).resource = b at hkeeps
      have hkept : ∀ b', b' ≠ b → s.kernel.kinds b' = .immovable →
          unlockIf result.shouldUnlock (heapUnlock kinds b) result.container b' =
            .immovable := by
        intro b' hne hb'
        exact hlocked.pinned hb' (by simp [heapUnlock, hne])
      have hfree : s.unlockedBy (some b) s.kernel.currentId b = [] := by
        cases hholders : s.holders b with
        | nil => cases hid : s.kernel.currentId <;> simp [unlockedBy, hholders]
        | cons id rest =>
            obtain ⟨⟨holder, hone⟩, -⟩ := h b (by simp [hholders])
            have hid := hkeeps holder (by simp [hone])
            simp [unlockedBy, hid, hone]
      have hother : ∀ b', b' ≠ b → s.unlockedBy (some b) s.kernel.currentId b' = s.holders b' := by
        intro b' hne
        cases hid : s.kernel.currentId <;> simp [unlockedBy, hne]
      intro b' hb'
      have hne : b' ≠ b := fun heq => hb' (heq ▸ hfree)
      simp only [hother b' hne] at hb' ⊢
      obtain ⟨hholder, himmovable, hobject⟩ := h b' hb'
      refine ⟨hholder, ?_, hobject⟩
      have hstill := hkept b' hne himmovable
      rw [← hb] at hstill
      exact hstill

/-- One operation of any thread. -/
theorem HeldPinned.step (h : s.HeldPinned) {op : UntypedOp} (hkeeps : s.KeepsLocks op)
    (hstep : s.step op = some s') : s'.HeldPinned := by
  simp only [LockRecord.step, Option.map_eq_some_iff] at hstep
  obtain ⟨⟨value, k⟩, hop, rfl⟩ := hstep
  cases op with
  | lock fuel address depth => exact h.stepLock hkeeps hop
  | tryLock fuel address depth => exact h.stepTryLock hkeeps hop
  | unlock fuel address depth => exact h.stepUnlock hkeeps hop
  | lookUp fuel address depth =>
      simp only [untypedStep, Option.map_eq_some_iff] at hop
      obtain ⟨k₁, hlook, hk⟩ := hop
      cases hk
      have hsame := lookUpAndUnlock_relative hlook
      subst hsame
      exact h
  | lookUpAbsolute fuel address =>
      simp only [untypedStep, Option.map_eq_some_iff] at hop
      obtain ⟨k₁, hlook, hk⟩ := hop
      cases hk
      have hsame := lookUpAndUnlock_absolute hlook
      subst hsame
      exact h
  | heapAlloc fuel placement kind =>
      simp only [untypedStep, Option.map_eq_some_iff] at hop
      obtain ⟨⟨allocated, k₁⟩, halloc, hk⟩ := hop
      cases hk
      intro b hb
      obtain ⟨hholder, hpinned⟩ := h b hb
      exact ⟨hholder, (hpinned.heapAlloc halloc).1⟩
  | other k' =>
      cases hop
      exact h.congr rfl (fun _ hb _ => hb) rfl

/-- In every run that keeps to the locks, a region stays where it is from the lock that
returned its pointer to the unlock. -/
theorem locked_regions_stay (h : Reaches step KeepsLocks Begins s) : s.Respected := by
  have hheld : s.HeldPinned :=
    @Reaches.invariant _ _ step KeepsLocks Begins HeldPinned
      (fun _ hbegins b hb => absurd (hbegins b) hb)
      (fun _ _ _ hheld hkeeps hstep => hheld.step hkeeps hstep) _ h
  exact hheld.respected

/-- The process server and a second thread that each have a capability to the region at
address 5; the second one, at address 7, has it in its root node. -/
def withRegion : Option Kernel :=
  booted.bind fun k => runWhile capabilityStep (fun _ _ => True) k
    [.invoke 8 0 4 (.alloc ⟨[], some 5⟩ ⟨typeUntyped, 16, 3, 4⟩),
      .invoke 8 0 4 (.alloc ⟨[], some 6⟩ ⟨typeNode, 2, 2, 4⟩),
      .invoke 8 0 4 (.alloc ⟨[], some 7⟩ ⟨typeThread, 0, 4, 4⟩),
      .invoke 8 2 4 (.nodeCopy ⟨3, 4, 0, 0xff, 0, false⟩),
      .invoke 8 4 4 (.setRootNode ⟨2, 4⟩)]

def runs (t : Addr) (k : Kernel) : UntypedOp :=
  .other { k with scheduler := { k.scheduler with currentThread := some t } }

/-- Nobody has locked anything yet. -/
def unlocked (k : Kernel) : LockRecord :=
  ⟨k, fun _ => []⟩

/-- The server locks the region and the second thread tries to. -/
theorem locked_regions_stay_tried : ∃ k s s₁ s₂, withRegion = some k ∧
    (unlocked k).step (.lock 8 3 4) = some s ∧ s.step (runs 7 s.kernel) = some s₁ ∧
    s₁.step (.tryLock 8 0 2) = some s₂ ∧ s₂.holders 5 = [1] ∧ s₂.Respected := by
  have hrun : (withRegion.bind fun k => ((unlocked k).step (.lock 8 3 4)).bind fun s =>
      (s.step (runs 7 s.kernel)).bind fun s₁ => (s₁.step (.tryLock 8 0 2)).map fun s₂ =>
        decide (k.untypedAt 8 3 4 = some (.node 3 3) ∧
          (k.space.slots (.node 3 3)).resource = 5 ∧ k.kinds 5 = .movable ∧
          k.space.objects 5 ≠ none ∧ s₁.kernel.untypedAt 8 0 2 = some (.node 6 0) ∧
          (s₁.kernel.space.slots (.node 6 0)).resource = 5 ∧ s₁.kernel.kinds 5 ≠ .movable ∧
          s₂.holders 5 = [1])) = some true := by decide +kernel
  simp only [Option.bind_eq_some_iff, Option.map_eq_some_iff, decide_eq_true_eq] at hrun
  obtain ⟨k, hk, s, hlock, s₁, hother, s₂, htry, hat, hregion, hmovable, hallocated, hat₁,
    hregion₁, hlocked, hheld⟩ := hrun
  have hkeeps : (unlocked k).KeepsLocks (.lock 8 3 4) := by
    intro p hp
    have heq : SlotPtr.node 3 3 = p := Option.some.inj (hat.symm.trans hp)
    subst heq
    exact ⟨hregion ▸ hmovable, hregion ▸ hallocated, by simp [unlocked, hregion, SlotPtr.block]⟩
  have hkeeps₁ : s₁.KeepsLocks (.tryLock 8 0 2) := by
    intro p hp hmovable₁
    have heq : SlotPtr.node 6 0 = p := Option.some.inj (hat₁.symm.trans hp)
    subst heq
    exact absurd (hregion₁ ▸ hmovable₁) hlocked
  have hother' : s.KeepsLocks (runs 7 s.kernel) := trivial
  have hreach : Reaches step KeepsLocks Begins (unlocked k) := .initial fun _ => rfl
  exact ⟨k, s, s₁, s₂, hk, hlock, hother, htry, hheld,
    locked_regions_stay (.step (.step (.step hreach hkeeps hlock) hother' hother) hkeeps₁ htry)⟩

/-- The server locks the region, the second thread locks it too and is returned its
pointer, and the server unlocks it: the next allocation moves it away from the second
thread. -/
theorem locked_region_moves : ∃ k s s₁ s₂ s₃ s₄ k', withRegion = some k ∧
    (unlocked k).step (.lock 8 3 4) = some s ∧ s.step (runs 7 s.kernel) = some s₁ ∧
    s₁.step (.lock 8 0 2) = some s₂ ∧
    (s₁.kernel.untypedStep (.lock 8 0 2)).any (·.1 = 5) ∧ s₂.step (runs 2 s₂.kernel) = some s₃ ∧ s₃.step (.unlock 8 3 4) = some s₄ ∧
    s₄.holders 5 = [2] ∧ s₄.kernel.heapAlloc 8 ⟨[(5, 8)], some 9⟩ .untyped = some (some 9, k') ∧
    ¬s₄.Respected := by
  have hrun : (withRegion.bind fun k => ((unlocked k).step (.lock 8 3 4)).bind fun s =>
      (s.step (runs 7 s.kernel)).bind fun s₁ => (s₁.step (.lock 8 0 2)).bind fun s₂ =>
        (s₂.step (runs 2 s₂.kernel)).bind fun s₃ => (s₃.step (.unlock 8 3 4)).bind fun s₄ =>
          (s₄.kernel.heapAlloc 8 ⟨[(5, 8)], some 9⟩ .untyped).map fun r =>
            decide ((s₁.kernel.untypedStep (.lock 8 0 2)).any (·.1 = 5) ∧
              s₄.holders 5 = [2] ∧ r.1 = some 9)) = some true := by decide +kernel
  simp only [Option.bind_eq_some_iff, Option.map_eq_some_iff, decide_eq_true_eq] at hrun
  obtain ⟨k, hk, s, hlock, s₁, hother, s₂, hagain, s₃, hback, s₄, hunlock, ⟨allocated, k'⟩,
    halloc, hpointer, hheld, rfl⟩ := hrun
  refine ⟨k, s, s₁, s₂, s₃, s₄, k', hk, hlock, hother, hagain, hpointer, hback, hunlock, hheld,
    halloc, ?_⟩
  intro hrespected
  exact (hrespected 5 (by simp [hheld]) _ _ _ _ _ halloc).1 (5, 8) (by simp) rfl

end LockRecord

end Cenix
