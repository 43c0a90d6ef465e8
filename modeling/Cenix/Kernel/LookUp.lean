import Cenix.Kernel.State

namespace Cenix

open LinkedLists

/-! Error codes. -/

def eNoCapability : Nat := 5
def eCapInval : Nat := 7
def eTooMuchNesting : Nat := 8
def eInval : Nat := 9
def eNoMem : Nat := 11
def eCapExists : Nat := 12
def ePerm : Nat := 18

/-! Locking of heap blocks. -/

/-- The flag says whether the block was movable and has to be unlocked again. -/
def heapLock (kinds : Addr → Kind) (ptr : Addr) : Bool × (Addr → Kind) :=
  if kinds ptr = .movable then (true, Function.update kinds ptr .immovable)
  else (false, kinds)

def heapUnlock (kinds : Addr → Kind) (ptr : Addr) : Addr → Kind :=
  Function.update kinds ptr .movable

def unlockIf (shouldUnlock : Bool) (kinds : Addr → Kind) (ptr : Addr) : Addr → Kind :=
  if shouldUnlock then heapUnlock kinds ptr else kinds

structure LookUpResult where
  slot : SlotPtr
  depth : Nat
  container : Addr
  shouldUnlock : Bool
  deriving DecidableEq, Repr

namespace Space

/-- The search loop.  The outer `none` means that it did not end within `fuel`
rounds, the inner one that there is no such slot. -/
def lookUpFrom (s : Space) (useFirstNonNode : Bool) :
    (fuel : Nat) → (Addr → Kind) → (node : Addr) → (shouldUnlock : Bool) →
      (address depth actualDepth : Nat) → Option (Option LookUpResult × (Addr → Kind))
  | 0, _, _, _, _, _, _ => none
  | fuel + 1, kinds, node, shouldUnlock, address, depth, actualDepth =>
      let slotBits := (s.nodes node).slotBits
      let slot := SlotPtr.node node (maskAddress address slotBits)
      let isNode := (s.slots slot).handlers == some .node
      if (useFirstNonNode && !isNode) || depth == slotBits then
        some (some ⟨slot, actualDepth + slotBits, node, shouldUnlock⟩, kinds)
      else if depth < slotBits || !isNode then
        some (none, unlockIf shouldUnlock kinds node)
      else
        let next := (s.slots slot).resource
        let (nextShouldUnlock, kinds) := heapLock kinds next
        s.lookUpFrom useFirstNonNode fuel (unlockIf shouldUnlock kinds node) next
          nextShouldUnlock (address / 2 ^ slotBits) (depth - slotBits)
          (actualDepth + slotBits)

def lookUpCapability (fuel : Nat) (s : Space) (kinds : Addr → Kind) (root : SlotPtr)
    (address depth : Nat) : Option (Option LookUpResult × (Addr → Kind)) :=
  if (s.slots root).handlers = some .node then
    let useFirstNonNode := depth == sizeMax
    let address := if useFirstNonNode then address else maskAddress address depth
    let node := (s.slots root).resource
    let (shouldUnlock, kinds) := heapLock kinds node
    s.lookUpFrom useFirstNonNode fuel kinds node shouldUnlock address depth 0
  else
    some (none, kinds)

end Space

namespace Kernel

/-- The loop over one bucket of the thread hash table. -/
def findThread (k : Kernel) (threadId : Nat) : (fuel : Nat) → Option Addr → Option (Option Addr)
  | _, none => some none
  | 0, some _ => none
  | fuel + 1, some t =>
      if (k.threads t).threadId = threadId then some (some t)
      else k.findThread threadId fuel (k.threads t).tableEntry.next

/-- The thread, whether it has to be unlocked, and the heap with it locked. -/
def lookUpThreadById (fuel : Nat) (k : Kernel) (threadId bucketNumber : Nat) :
    Option (Option Addr × Bool × Kernel) :=
  (k.findThread threadId fuel (k.threadHashTable bucketNumber).start).map fun
    | none => (none, false, k)
    | some thread =>
        let (shouldUnlock, kinds) := heapLock k.kinds thread
        (some thread, shouldUnlock, { k with kinds := kinds })

/-- Looks up a capability from the root capability of `thread` and unlocks
`thread` if it has been locked for that. -/
def lookUpIn (fuel : Nat) (k : Kernel) (thread : Addr) (shouldUnlock : Bool)
    (address depth : Nat) : Option (Option LookUpResult × Kernel) :=
  (k.space.lookUpCapability fuel k.kinds (.root thread) address depth).map
    fun (result, kinds) => (result, { k with kinds := unlockIf shouldUnlock kinds thread })

def lookUpCapabilityRelative (fuel : Nat) (k : Kernel) (address depth : Nat) :
    Option (Option LookUpResult × Kernel) :=
  match k.scheduler.currentThread with
  | none => some (none, k)
  | some thread =>
      let (shouldUnlock, kinds) := heapLock k.kinds thread
      lookUpIn fuel { k with kinds := kinds } thread shouldUnlock address depth

def lookUpCapabilityAbsolute (fuel : Nat) (k : Kernel)
    (address : AbsoluteCapabilityAddress) : Option (Option LookUpResult × Kernel) :=
  (lookUpThreadById fuel k address.threadId address.bucketNumber).bind fun
    | (none, _, k) => some (none, k)
    | (some thread, shouldUnlock, k) =>
        lookUpIn fuel k thread shouldUnlock address.address address.depth

def unlockLookedUpCapability (k : Kernel) (result : LookUpResult) : Kernel :=
  { k with kinds := unlockIf result.shouldUnlock k.kinds result.container }

end Kernel

/-! What a lookup finds does not depend on the locks, and it changes nothing
else. -/

namespace Space

/-- `lookUpFrom` without the locks. -/
def resolveFrom (s : Space) (useFirstNonNode : Bool) :
    (fuel : Nat) → (node : Addr) → (address depth actualDepth : Nat) →
      Option (Option (SlotPtr × Nat))
  | 0, _, _, _, _ => none
  | fuel + 1, node, address, depth, actualDepth =>
      let slotBits := (s.nodes node).slotBits
      let slot := SlotPtr.node node (maskAddress address slotBits)
      let isNode := (s.slots slot).handlers == some .node
      if (useFirstNonNode && !isNode) || depth == slotBits then
        some (some (slot, actualDepth + slotBits))
      else if depth < slotBits || !isNode then
        some none
      else
        s.resolveFrom useFirstNonNode fuel (s.slots slot).resource
          (address / 2 ^ slotBits) (depth - slotBits) (actualDepth + slotBits)

def resolve (fuel : Nat) (s : Space) (root : SlotPtr) (address depth : Nat) :
    Option (Option (SlotPtr × Nat)) :=
  if (s.slots root).handlers = some .node then
    let useFirstNonNode := depth == sizeMax
    let address := if useFirstNonNode then address else maskAddress address depth
    s.resolveFrom useFirstNonNode fuel (s.slots root).resource address depth 0
  else
    some none

theorem lookUpFrom_resolve (s : Space) (useFirstNonNode : Bool) (fuel : Nat)
    (kinds : Addr → Kind) (node : Addr) (shouldUnlock : Bool)
    (address depth actualDepth : Nat) :
    (s.lookUpFrom useFirstNonNode fuel kinds node shouldUnlock address depth
        actualDepth).map (fun r => r.1.map fun r => (r.slot, r.depth)) =
      s.resolveFrom useFirstNonNode fuel node address depth actualDepth := by
  induction fuel generalizing kinds node shouldUnlock address depth actualDepth with
  | zero => rfl
  | succ fuel ih =>
      simp only [lookUpFrom, resolveFrom]
      split
      · rfl
      · split
        · rfl
        · exact ih _ _ _ _ _ _

theorem lookUpCapability_resolve (fuel : Nat) (s : Space) (kinds : Addr → Kind)
    (root : SlotPtr) (address depth : Nat) :
    (s.lookUpCapability fuel kinds root address depth).map
        (fun r => r.1.map fun r => (r.slot, r.depth)) =
      s.resolve fuel root address depth := by
  unfold lookUpCapability resolve
  split
  · exact s.lookUpFrom_resolve ..
  · rfl

end Space

namespace Kernel

variable {fuel : Nat} {k k' : Kernel} {result : Option LookUpResult} {address depth : Nat}

theorem lookUpIn_kinds {thread : Addr} {shouldUnlock : Bool}
    (h : lookUpIn fuel k thread shouldUnlock address depth = some (result, k')) :
    ∃ kinds, k' = { k with kinds := kinds } := by
  simp only [lookUpIn, Option.map_eq_some_iff, Prod.mk.injEq] at h
  obtain ⟨_, _, _, rfl⟩ := h
  exact ⟨_, rfl⟩

theorem lookUpCapabilityRelative_kinds
    (h : lookUpCapabilityRelative fuel k address depth = some (result, k')) :
    ∃ kinds, k' = { k with kinds := kinds } := by
  unfold lookUpCapabilityRelative at h
  cases hcurrent : k.scheduler.currentThread with
  | none =>
      rw [hcurrent] at h
      cases h
      exact ⟨k.kinds, rfl⟩
  | some thread =>
      rw [hcurrent] at h
      obtain ⟨kinds, rfl⟩ := lookUpIn_kinds h
      exact ⟨kinds, rfl⟩

theorem lookUpThreadById_kinds {threadId bucketNumber : Nat} {thread : Option Addr}
    {shouldUnlock : Bool}
    (h : lookUpThreadById fuel k threadId bucketNumber = some (thread, shouldUnlock, k')) :
    ∃ kinds, k' = { k with kinds := kinds } := by
  simp only [lookUpThreadById, Option.map_eq_some_iff] at h
  obtain ⟨found, _, h⟩ := h
  cases found with
  | none =>
      cases h
      exact ⟨k.kinds, rfl⟩
  | some t =>
      cases h
      exact ⟨_, rfl⟩

theorem lookUpCapabilityAbsolute_kinds {address : AbsoluteCapabilityAddress}
    (h : lookUpCapabilityAbsolute fuel k address = some (result, k')) :
    ∃ kinds, k' = { k with kinds := kinds } := by
  simp only [lookUpCapabilityAbsolute, Option.bind_eq_some_iff] at h
  obtain ⟨⟨thread, shouldUnlock, k₁⟩, hthread, h⟩ := h
  obtain ⟨kinds₁, rfl⟩ := lookUpThreadById_kinds hthread
  cases thread with
  | none =>
      cases h
      exact ⟨kinds₁, rfl⟩
  | some t =>
      obtain ⟨kinds, rfl⟩ := lookUpIn_kinds h
      exact ⟨kinds, rfl⟩

end Kernel

/-! A lookup leaves at most one more block locked, the one it found the slot in. -/

/-- `kinds` is `old` with `ptr` locked, if it has to be unlocked again. -/
inductive Locked (old : Addr → Kind) (ptr : Addr) : Bool → (Addr → Kind) → Prop where
  | already : Locked old ptr false old
  | now (hmovable : old ptr = .movable) :
      Locked old ptr true (Function.update old ptr .immovable)

theorem heapLock_locked (kinds : Addr → Kind) (ptr : Addr) :
    Locked kinds ptr (heapLock kinds ptr).1 (heapLock kinds ptr).2 := by
  unfold heapLock
  split
  · rename_i hmovable
    exact .now hmovable
  · exact .already

theorem Locked.unlock {old kinds : Addr → Kind} {ptr : Addr} {shouldUnlock : Bool}
    (h : Locked old ptr shouldUnlock kinds) : unlockIf shouldUnlock kinds ptr = old := by
  cases h with
  | already => rfl
  | now hmovable =>
      funext p
      cases decEq p ptr with
      | isTrue hp => simp [unlockIf, heapUnlock, hp, hmovable]
      | isFalse hp => simp [unlockIf, heapUnlock, hp]

/-- Locking the next block before the last one is unlocked. -/
theorem Locked.trans {old kinds₁ kinds₂ : Addr → Kind} {last next : Addr} {b₁ b₂ : Bool}
    (h₁ : Locked old last b₁ kinds₁) (h₂ : Locked kinds₁ next b₂ kinds₂) :
    Locked old next b₂ (unlockIf b₁ kinds₂ last) := by
  cases h₁ with
  | already => exact h₂
  | now hlast =>
      cases h₂ with
      | already =>
          rw [Locked.unlock (.now hlast)]
          exact .already
      | now hnext =>
          have hne : next ≠ last := by
            intro heq
            subst heq
            simp at hnext
          have hold : old next = .movable := by simpa [hne] using hnext
          have hswap : unlockIf true (Function.update (Function.update old last .immovable)
              next .immovable) last = Function.update old next .immovable := by
            rw [Function.update_comm hne.symm]
            simp only [unlockIf, heapUnlock, if_true, Function.update_idem]
            rw [Function.update_comm hne, ← hlast, Function.update_eq_self]
          rw [hswap]
          exact .now hold

/-- The locks that a lookup leaves behind. -/
def LeavesLocked (old : Addr → Kind) : Option LookUpResult → (Addr → Kind) → Prop
  | none, kinds => kinds = old
  | some result, kinds => Locked old result.container result.shouldUnlock kinds

theorem Space.lookUpFrom_locked {s : Space} {useFirstNonNode : Bool} {fuel : Nat}
    {old kinds kinds' : Addr → Kind} {node : Addr} {shouldUnlock : Bool}
    {address depth actualDepth : Nat} {result : Option LookUpResult}
    (hlocked : Locked old node shouldUnlock kinds)
    (h : s.lookUpFrom useFirstNonNode fuel kinds node shouldUnlock address depth
      actualDepth = some (result, kinds')) :
    LeavesLocked old result kinds' := by
  induction fuel generalizing kinds node shouldUnlock address depth actualDepth with
  | zero => cases h
  | succ fuel ih =>
      simp only [lookUpFrom] at h
      split at h
      · cases h
        exact hlocked
      · split at h
        · cases h
          exact hlocked.unlock
        · exact ih (hlocked.trans (heapLock_locked _ _)) h

theorem Space.lookUpCapability_locked {s : Space} {fuel : Nat}
    {kinds kinds' : Addr → Kind} {root : SlotPtr} {address depth : Nat}
    {result : Option LookUpResult}
    (h : s.lookUpCapability fuel kinds root address depth = some (result, kinds')) :
    LeavesLocked kinds result kinds' := by
  unfold lookUpCapability at h
  split at h
  · exact lookUpFrom_locked (heapLock_locked _ _) h
  · cases h
    exact rfl

namespace Kernel

variable {fuel : Nat} {k k' : Kernel} {result : Option LookUpResult} {address depth : Nat}

theorem lookUpIn_locked {thread : Addr} {shouldUnlock : Bool} {old : Addr → Kind}
    (hlocked : Locked old thread shouldUnlock k.kinds)
    (h : lookUpIn fuel k thread shouldUnlock address depth = some (result, k')) :
    ∃ kinds, k' = { k with kinds := kinds } ∧ LeavesLocked old result kinds := by
  simp only [lookUpIn, Option.map_eq_some_iff, Prod.mk.injEq] at h
  obtain ⟨⟨found, kinds⟩, hfound, rfl, rfl⟩ := h
  refine ⟨_, rfl, ?_⟩
  have hafter := Space.lookUpCapability_locked hfound
  cases found with
  | none =>
      have hsame : kinds = k.kinds := hafter
      subst hsame
      exact hlocked.unlock
  | some r => exact hlocked.trans hafter

theorem lookUpCapabilityRelative_locked
    (h : lookUpCapabilityRelative fuel k address depth = some (result, k')) :
    ∃ kinds, k' = { k with kinds := kinds } ∧ LeavesLocked k.kinds result kinds := by
  unfold lookUpCapabilityRelative at h
  cases hcurrent : k.scheduler.currentThread with
  | none =>
      rw [hcurrent] at h
      cases h
      exact ⟨k.kinds, rfl, rfl⟩
  | some thread =>
      rw [hcurrent] at h
      obtain ⟨kinds, rfl, hlocked⟩ := lookUpIn_locked (heapLock_locked _ _) h
      exact ⟨kinds, rfl, hlocked⟩

/-- The lookup of `populate_capability_slot` and the `unlock` after it. -/
theorem unlockLookedUpCapability_locked {result : LookUpResult} {kinds : Addr → Kind}
    (h : LeavesLocked k.kinds (some result) kinds) :
    { k with kinds := kinds }.unlockLookedUpCapability result = k := by
  unfold unlockLookedUpCapability
  simp only [Locked.unlock h]

end Kernel

end Cenix
