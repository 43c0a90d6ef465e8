import Cenix.Vfs.Main
import Cenix.Vfs.SystemCalls

namespace Cenix.Vfs

open Programs

/-! Which structures the functions of the server change. -/

/-- A slot of the node at `node` in the root node. -/
def inNode (node : Nat) : Place → Prop := fun p => ∃ id, p = nodePlace node id

variable {P : Place → Prop}

theorem mountPointAt_touches {address : Nat} : Touches P (mountPointAt address) := by
  refine .bind structureAt_touches fun structure' => ?_
  cases structure' <;> first | exact .pure | exact .failure

theorem fsNamespaceAt_touches {address : Nat} : Touches P (fsNamespaceAt address) := by
  refine .bind structureAt_touches fun structure' => ?_
  cases structure' <;> first | exact .pure | exact .failure

theorem findSlotFor_touches {ids : Ids} {maxItems : Nat} {fn : Nat → Vfs Nat}
    (hfn : ∀ id, Touches P (fn id)) : Touches P (findSlotFor ids maxItems fn) := by
  refine .bind lock_touches fun _ => .ite .pure (.bind getServer_touches fun _ => ?_)
  refine .bind (onlyIf_touches (modifyServer_touches fun _ _ _ => rfl)) fun _ => ?_
  refine .bind (hfn _) fun _ => ?_
  exact .bind (onlyIf_touches (modifyServer_touches fun _ _ _ => rfl)) fun _ =>
    .bind unlock_touches fun _ => .pure

theorem markSlotUnused_touches {ids : Ids} {maxItems slotNumber : Nat} :
    Touches P (markSlotUnused ids maxItems slotNumber) :=
  .bind lock_touches fun _ => .ite
    (.bind (onlyIf_touches (modifyServer_touches fun _ _ _ => rfl)) fun _ => unlock_touches) .pure

theorem allocStructure_touches {ids : Ids} {node maxItems : Nat}
    (hnode : node < 2 ^ initNodeDepth) :
    Touches (inNode node) (allocStructure ids node maxItems) := by
  refine findSlotFor_touches fun id => ?_
  refine .bind (allocUntyped_touches.mono fun p hp => ?_) fun _ => .ite .pure .pure
  exact ⟨id, hp.trans (place_nodeAddress id hnode)⟩

theorem freeStructure_touches {ids : Ids} {node maxItems address : Nat} :
    Touches (inNode node) (freeStructure ids node maxItems address) :=
  .bind (nodeDelete_touches.mono fun _ hp => ⟨_, hp⟩) fun _ => .ite markSlotUnused_touches .pure

/-! Messages. -/

theorem badgeAndSend_touches {caller : Caller} {state : State} {badge replyAddress : Nat} :
    Touches P (badgeAndSend caller state badge replyAddress) :=
  .bind copyEndpoint_touches fun _ => .ite .pure (.bind send_touches fun _ =>
    .bind storageDelete_touches fun _ => .pure)

theorem vfsCall_touches {caller : Caller} {endpoint replyEndpoint : Nat} {toSend : IpcMessage}
    {slot : Option Nat} : Touches P (vfsCall caller endpoint replyEndpoint toSend slot) :=
  .bind send_touches fun _ => .ite .pure (.bind receive_touches fun _ => .ite .pure .pure)

theorem fdOpenCall_touches {caller : Caller}
    {fdAddress replyEndpoint nameAddress fdSlot : Nat} {flags mode : BitVec 8} :
    Touches P (fdOpenCall caller fdAddress replyEndpoint nameAddress fdSlot flags mode) :=
  .bind vfsCall_touches fun _ => .pure

theorem fdStatCall_touches {caller : Caller} {fdAddress replyEndpoint : Nat} :
    Touches P (fdStatCall caller fdAddress replyEndpoint) :=
  .bind vfsCall_touches fun _ => .pure

/-! Namespaces and directories. -/

theorem findInBucket_touches {inode enclosing fuel address : Nat} :
    Touches P (findInBucket inode enclosing fuel address) := by
  induction fuel generalizing address with
  | zero => exact .failure
  | succ fuel ih =>
      refine .ite .pure (.bind lock_touches fun _ => .ite .pure ?_)
      exact .bind mountPointAt_touches fun _ => .bind unlock_touches fun _ => .ite .pure ih

theorem findMountPoint_touches {fuel namespaceId inode enclosing : Nat} :
    Touches P (findMountPoint fuel namespaceId inode enclosing) := by
  refine .bind lock_touches fun _ => .ite .pure (.bind fsNamespaceAt_touches fun _ => ?_)
  exact .bind findInBucket_touches fun _ => .bind unlock_touches fun _ => .pure

theorem searchEnd_lt {s : Server} {ids : Ids} {maxItems : Nat} (hmax : 0 < maxItems) :
    (searchEnd maxItems (firstFree s ids maxItems)).2 < maxItems := by
  cases hfree : firstFree s ids maxItems with
  | none => exact hmax
  | some id =>
      have hid := List.mem_of_find?_eq_some hfree
      exact List.mem_range.mp hid

theorem findSlotFor_yields {ids : Ids} {maxItems : Nat} {fn : Nat → Vfs Nat} {C : Nat → Prop}
    (hmax : 0 < maxItems) (hnone : C sizeMax) (hfn : ∀ id < maxItems, Yields C (fn id)) :
    Yields C (findSlotFor ids maxItems fn) := by
  refine .bind fun _ => .ite (fun _ => .pure hnone) fun _ => .bind fun s => .bind fun _ => ?_
  refine .bind_of (hfn _ (searchEnd_lt hmax)) fun result hresult => ?_
  exact .bind fun _ => .bind fun _ => .pure hresult

/-- The address of a structure in the node, or `SIZE_MAX`. -/
def AddressIn (node maxItems address : Nat) : Prop :=
  address = sizeMax ∨ ∃ id < maxItems, address = nodeAddress node id

theorem allocStructure_yields {ids : Ids} {node maxItems : Nat} (hmax : 0 < maxItems) :
    Yields (AddressIn node maxItems) (allocStructure ids node maxItems) :=
  findSlotFor_yields hmax (.inl rfl) fun id hid =>
    .bind fun _ => .ite (fun _ => .pure (.inr ⟨id, hid, rfl⟩)) fun _ => .pure (.inl rfl)

theorem AddressIn.inNode {node maxItems address : Nat} (h : AddressIn node maxItems address)
    (hnode : node < 2 ^ initNodeDepth) (hne : address ≠ sizeMax) :
    inNode node (place address) := by
  rcases h with hnone | ⟨id, -, rfl⟩
  · exact absurd hnone hne
  · exact ⟨id, place_nodeAddress id hnode⟩

theorem openRoot_touches {state : State} {badge replyCapability namespaceId : Nat} :
    Touches (inNode directoryInfoSlot) (openRoot state badge replyCapability namespaceId) := by
  refine .bind lock_touches fun _ => .ite .pure (.bind_of (allocStructure_touches (by decide))
    (allocStructure_yields (by decide)) fun infoAddress haddress => ?_)
  refine .ite' (fun _ => .pure) fun hne => ?_
  refine .bind lock_touches fun _ => .ite (.bind freeStructure_touches fun _ => .pure) ?_
  refine .bind fsNamespaceAt_touches fun _ => .bind (writeStructure_touches.mono ?_) fun _ => ?_
  · intro p hp
    rw [hp]
    exact haddress.inNode (by decide) hne
  · refine .bind unlock_touches fun _ => .bind badgeAndSend_touches fun _ => .ite ?_ ?_
    · exact .bind freeStructure_touches fun _ => .pure
    · exact .bind unlock_touches fun _ => .pure

end Cenix.Vfs
