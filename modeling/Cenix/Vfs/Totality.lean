import Cenix.Vfs.Footprints

namespace Cenix.Vfs

open Programs

/-! The functions that read and write no structures always return. -/

variable {α : Type}

theorem pure_total {a : α} : Total (pure a : Vfs α) :=
  .pure fun _ _ => trivial

theorem ask_total {caller : Caller} {request : Request} : Total (ask caller request) :=
  fun _ _ => ⟨_, _, rfl, trivial⟩

theorem getServer_total : Total getServer :=
  fun _ _ => ⟨_, _, rfl, trivial⟩

theorem modifyServer_total {f : Server → Server} : Total (modifyServer f) :=
  fun _ _ => ⟨_, _, rfl, trivial⟩

theorem record_total {event : Event} : Total (record event) :=
  fun _ _ => ⟨_, _, rfl, trivial⟩

theorem onlyIf_total {c : Prop} [Decidable c] {x : Vfs Unit} (hx : Total x) :
    Total (onlyIf c x) :=
  .ite (fun _ => hx) fun _ => pure_total

theorem lock_total {caller : Caller} {address : Nat} : Total (lock caller address) :=
  .bind ask_total fun _ => .bind record_total fun _ => pure_total

theorem unlock_total {caller : Caller} {address : Nat} : Total (unlock caller address) :=
  record_total

theorem nodeDelete_total {caller : Caller} {node slot : Nat} :
    Total (nodeDelete caller node slot) :=
  .bind ask_total fun _ => .bind getServer_total fun _ => .bind record_total fun _ =>
    .bind (onlyIf_total modifyServer_total) fun _ => pure_total

theorem storageDelete_total {caller : Caller} {threadId slot : Nat} :
    Total (storageDelete caller threadId slot) :=
  .bind ask_total fun _ => .bind getServer_total fun _ => .bind record_total fun _ =>
    .bind (onlyIf_total modifyServer_total) fun _ => pure_total

theorem copyEndpoint_total {caller : Caller} {threadId slot badge : Nat} :
    Total (copyEndpoint caller threadId slot badge) :=
  .bind ask_total fun _ => .bind getServer_total fun _ => .ite (fun _ => pure_total) fun _ =>
    .ite (fun _ => pure_total) fun _ => .bind modifyServer_total fun _ => pure_total

theorem send_total {caller : Caller} {address : Nat} {message : IpcMessage} :
    Total (send caller address message) :=
  .bind ask_total fun _ => .bind getServer_total fun _ => .bind record_total fun _ =>
    .bind (onlyIf_total modifyServer_total) fun _ => pure_total

theorem receive_total {caller : Caller} {address : Nat} {slot : Option Nat} :
    Total (receive caller address slot) :=
  .bind ask_total fun _ => .bind (onlyIf_total modifyServer_total) fun _ => pure_total

theorem reply_total {caller : Caller} {replyCapability value : Nat} :
    Total (reply caller replyCapability value) :=
  .bind send_total fun _ => pure_total

theorem badgeAndSend_total {caller : Caller} {state : State} {badge replyAddress : Nat} :
    Total (badgeAndSend caller state badge replyAddress) :=
  .bind copyEndpoint_total fun _ => .ite (fun _ => pure_total) fun _ =>
    .bind send_total fun _ => .bind storageDelete_total fun _ => pure_total

theorem vfsCall_total {caller : Caller} {endpoint replyEndpoint : Nat} {toSend : IpcMessage}
    {slot : Option Nat} : Total (vfsCall caller endpoint replyEndpoint toSend slot) :=
  .bind send_total fun _ => .ite (fun _ => pure_total) fun _ =>
    .bind receive_total fun _ => .ite (fun _ => pure_total) fun _ => pure_total

theorem markSlotUnused_total {ids : Ids} {maxItems slotNumber : Nat} :
    Total (markSlotUnused ids maxItems slotNumber) :=
  .bind lock_total fun _ => .ite
    (fun _ => .bind (onlyIf_total modifyServer_total) fun _ => unlock_total) fun _ => pure_total

theorem freeStructure_total {ids : Ids} {node maxItems address : Nat} :
    Total (freeStructure ids node maxItems address) :=
  .bind nodeDelete_total fun _ => .ite (fun _ => markSlotUnused_total) fun _ => pure_total

end Cenix.Vfs
