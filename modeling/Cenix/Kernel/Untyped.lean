import Cenix.Kernel.LookUp

namespace Cenix

/-! The invocations of untyped memory.  The first component of a result is the value the
source returns, a pointer or an error code. -/

namespace Kernel

/-- It returns the pointer of a region that has been locked before, too. -/
def untypedLock (k : Kernel) (slot : SlotPtr) : Nat × Kernel :=
  let resource := (k.space.slots slot).resource
  (resource, { k with kinds := (heapLock k.kinds resource).2 })

def untypedUnlock (k : Kernel) (slot : SlotPtr) : Nat × Kernel :=
  (0, { k with kinds := heapUnlock k.kinds (k.space.slots slot).resource })

def untypedTryLock (k : Kernel) (slot : SlotPtr) : Nat × Kernel :=
  let resource := (k.space.slots slot).resource
  let (locked, kinds) := heapLock k.kinds resource
  if locked then (resource, { k with kinds := kinds }) else (0, k)

/-- `invoke_capability` with one of these; `none` where the capability has other
handlers. -/
def invokeUntyped (handler : Kernel → SlotPtr → Nat × Kernel) (fuel : Nat) (k : Kernel)
    (address depth : Nat) : Option (Nat × Kernel) :=
  (k.lookUpCapabilityRelative fuel address depth).bind fun
    | (none, k) => some (eNoCapability, k)
    | (some result, k) =>
        match (k.space.slots result.slot).handlers with
        | none => some (eCapInval, k.unlockLookedUpCapability result)
        | some .untyped =>
            let (value, k) := handler k result.slot
            some (value, k.unlockLookedUpCapability result)
        | some _ => none

end Kernel

end Cenix
