import Cenix.Programs.Triple
import Cenix.Vfs.Structures

namespace Cenix.Vfs

open Programs

/-! What the system calls change. -/

/-- Structures change only at places with `P`, the answers stay the same, and events are
only added. -/
structure ChangesOnly (P : Place → Prop) (w w' : World) : Prop where
  answers : w'.answers = w.answers
  events : w.events <+: w'.events
  structures : ∀ p, ¬P p → w'.server.structures p = w.server.structures p

/-- No place at all. -/
def nowhere : Place → Prop := fun _ => False

variable {P Q : Place → Prop} {w w' w'' : World}

instance : Std.Refl (ChangesOnly P) where
  refl _ := ⟨rfl, List.prefix_rfl, fun _ _ => rfl⟩

instance : IsTrans World (ChangesOnly P) where
  trans _ _ _ h h' :=
    ⟨h'.answers.trans h.answers, h.events.trans h'.events, fun p hp => (h'.structures p hp).trans (h.structures p hp)⟩

theorem ChangesOnly.mono (h : ChangesOnly P w w') (hPQ : ∀ p, P p → Q p) : ChangesOnly Q w w' :=
  ⟨h.answers, h.events, fun p hp => h.structures p fun hP => hp (hPQ p hP)⟩

theorem ChangesOnly.of_nowhere (h : ChangesOnly nowhere w w') : ChangesOnly P w w' :=
  h.mono fun _ hp => hp.elim

/-- The program changes structures only at places with `P`. -/
abbrev Touches {α : Type} (P : Place → Prop) (x : Vfs α) : Prop :=
  Respects (ChangesOnly P) x

theorem Touches.of_nowhere {α : Type} {x : Vfs α} (h : Touches nowhere x) : Touches P x :=
  h.mono fun _ _ => ChangesOnly.of_nowhere

theorem Touches.mono {α : Type} {x : Vfs α} (h : Touches Q x) (hQP : ∀ p, Q p → P p) :
    Touches P x :=
  Respects.mono h fun _ _ hchange => hchange.mono hQP

theorem onlyIf_touches {c : Prop} [Decidable c] {x : Vfs Unit} (h : Touches P x) :
    Touches P (onlyIf c x) :=
  Respects.ite h .pure

theorem ask_touches {caller : Caller} {request : Request} : Touches P (ask caller request) := by
  intro w answer w' h
  cases h
  exact ⟨rfl, List.prefix_rfl, fun _ _ => rfl⟩

theorem record_touches {event : Event} : Touches P (record event) := by
  intro w u w' h
  cases h
  exact ⟨rfl, List.prefix_append _ _, fun _ _ => rfl⟩

theorem getServer_touches : Touches P getServer := by
  intro w s w' h
  cases h
  exact ⟨rfl, List.prefix_rfl, fun _ _ => rfl⟩

theorem modifyServer_touches {f : Server → Server}
    (hf : ∀ s p, ¬P p → (f s).structures p = s.structures p) : Touches P (modifyServer f) := by
  intro w u w' h
  cases h
  exact ⟨rfl, List.prefix_rfl, fun p hp => hf w.server p hp⟩

theorem setStructure_structures {s : Server} {p q : Place} {structure' : Option Structure}
    (h : q ≠ p) : (s.setStructure p structure').structures q = s.structures q := by
  simp [Server.setStructure, h]

theorem structureAt_touches {address : Nat} : Touches P (structureAt address) := by
  intro w a w' h
  simp only [structureAt, Option.map_eq_some_iff, Prod.mk.injEq] at h
  obtain ⟨_, _, _, rfl⟩ := h
  exact ⟨rfl, List.prefix_rfl, fun _ _ => rfl⟩

theorem lock_touches {caller : Caller} {address : Nat} : Touches P (lock caller address) :=
  .bind ask_touches fun _ => .bind record_touches fun _ => .pure

theorem unlock_touches {caller : Caller} {address : Nat} : Touches P (unlock caller address) :=
  record_touches

theorem allocUntyped_touches {caller : Caller} {address : Nat} :
    Touches (· = place address) (allocUntyped caller address) := by
  refine .bind ask_touches fun _ => .bind getServer_touches fun _ => .ite .pure (.ite .pure ?_)
  exact .bind (modifyServer_touches fun _ _ hp => setStructure_structures hp) fun _ => .pure

theorem nodeDelete_touches {caller : Caller} {node slot : Nat} :
    Touches (· = nodePlace node slot) (nodeDelete caller node slot) := by
  refine .bind ask_touches fun _ => .bind getServer_touches fun _ => .bind record_touches
    fun _ => .bind (onlyIf_touches ?_) fun _ => .pure
  exact modifyServer_touches fun _ _ hp => setStructure_structures hp

theorem storageDelete_touches {caller : Caller} {threadId slot : Nat} :
    Touches P (storageDelete caller threadId slot) :=
  .bind ask_touches fun _ => .bind getServer_touches fun _ => .bind record_touches fun _ =>
    .bind (onlyIf_touches (modifyServer_touches fun _ _ _ => rfl)) fun _ => .pure

theorem copyEndpoint_touches {caller : Caller} {threadId slot badge : Nat} :
    Touches P (copyEndpoint caller threadId slot badge) := by
  refine .bind ask_touches fun _ => .bind getServer_touches fun _ => .ite .pure (.ite .pure ?_)
  exact .bind (modifyServer_touches fun _ _ _ => rfl) fun _ => .pure

theorem foldl_takeCapability_structures {message : IpcMessage} {taken : Nat → Bool}
    {is : List Nat} {s : Server} :
    (is.foldl (takeCapability message taken) s).structures = s.structures := by
  induction is generalizing s with
  | nil => rfl
  | cons i is ih =>
      rw [List.foldl_cons, ih]
      unfold takeCapability
      split
      · rfl
      · split <;> rfl

theorem send_touches {caller : Caller} {address : Nat} {message : IpcMessage} :
    Touches P (send caller address message) := by
  refine .bind ask_touches fun _ => .bind getServer_touches fun _ => .bind record_touches
    fun _ => .bind (onlyIf_touches (modifyServer_touches fun s p _ => ?_)) fun _ => .pure
  rw [foldl_takeCapability_structures]

theorem receive_touches {caller : Caller} {address : Nat} {slot : Option Nat} :
    Touches P (receive caller address slot) := by
  refine .bind ask_touches fun _ => .bind (onlyIf_touches (modifyServer_touches ?_))
    fun _ => .pure
  intro s p _
  unfold receiveCapability
  split
  · split <;> rfl
  · rfl

theorem writeStructure_touches {address : Nat} {structure' : Structure} :
    Touches (· = place address) (writeStructure address structure') :=
  .bind structureAt_touches fun _ =>
    modifyServer_touches fun _ _ hp => setStructure_structures hp

end Cenix.Vfs
