import Cenix.Endpoint.Queues
import Cenix.Kernel.Frames

namespace Cenix

open LinkedLists

/-! Which threads wait on which endpoints. -/

/-- What a thread records about that, apart from its place in a queue. -/
structure BlockedState where
  on : Option Addr
  onSend : Bool
  onReceive : Bool
  blocked : Bool
  deriving DecidableEq, Repr

namespace BlockedState

variable {b : BlockedState} {q : Addr × Direction}

def Idle (b : BlockedState) : Prop :=
  b = ⟨none, false, false, false⟩

def Waits (b : BlockedState) (q : Addr × Direction) : Prop :=
  b = ⟨some q.1, q.2 = .sending, q.2 = .receiving, true⟩

/-- The queue that the destructor of the thread takes it off. -/
def queue (b : BlockedState) : Option (Addr × Direction) :=
  b.on.map fun e => (e, if b.onSend then .sending else .receiving)

theorem Idle.queue (h : b.Idle) : b.queue = none := by
  rw [h]
  rfl

theorem Waits.queue (h : b.Waits q) : b.queue = some q := by
  obtain ⟨e, direction⟩ := q
  rw [h]
  cases direction <;> rfl

end BlockedState

def ThreadCapability.blockedState (t : ThreadCapability) : BlockedState where
  on := t.blockedOn
  onSend := t.flags.blockedOnSend
  onReceive := t.flags.blockedOnReceive
  blocked := getElem t.execMode 0 blockedBit_lt

namespace Kernel

variable (k : Kernel)

def IsThread (t : Addr) : Prop :=
  k.space.objects t = some .thread

def IsEndpoint (e : Addr) : Prop :=
  k.space.objects e = some .endpoint

instance (t : Addr) : Decidable (k.IsThread t) :=
  inferInstanceAs (Decidable (_ = _))

instance (e : Addr) : Decidable (k.IsEndpoint e) :=
  inferInstanceAs (Decidable (_ = _))

/-- The queue a thread is on according to its own record. -/
def waitingFor (t : Addr) : Option (Addr × Direction) :=
  if k.IsThread t then (k.threads t).blockedState.queue else none

/-- The queues of the endpoints there are. -/
def waitingQueue (q : Addr × Direction) : Container Addr :=
  if k.IsEndpoint q.1 then k.endpointQueue q else Container.empty

/-- The queues hold the threads that wait on them, and every other thread is idle. -/
structure Blocking : Prop where
  queues : Queues k.waitingQueue k.blockedQueues k.waitingFor
  threads : ∀ t, k.IsThread t → (k.threads t).blockedState.Idle ∨
    ∃ q, (k.threads t).blockedState.Waits q ∧ k.IsEndpoint q.1

variable {k} {k' : Kernel} {t u : Addr} {q : Addr × Direction}

theorem waitingFor_idle (h : (k.threads t).blockedState.Idle) : k.waitingFor t = none := by
  unfold waitingFor
  rw [h.queue, ite_self]

theorem waitingFor_waits (ht : k.IsThread t) (h : (k.threads t).blockedState.Waits q) :
    k.waitingFor t = some q := by
  unfold waitingFor
  rw [if_pos ht, h.queue]

theorem Blocking.waits (h : k.Blocking) (ht : k.waitingFor t = some q) :
    k.IsThread t ∧ (k.threads t).blockedState.Waits q ∧ k.IsEndpoint q.1 := by
  have hthread : k.IsThread t := by
    apply Decidable.byContradiction
    intro hno
    rw [waitingFor, if_neg hno] at ht
    cases ht
  refine ⟨hthread, ?_⟩
  cases h.threads t hthread with
  | inl hidle =>
      rw [waitingFor_idle hidle] at ht
      cases ht
  | inr hwaits =>
      obtain ⟨q', hwaits, hendpoint⟩ := hwaits
      rw [waitingFor_waits hthread hwaits, Option.some.injEq] at ht
      exact ht ▸ ⟨hwaits, hendpoint⟩

theorem Blocking.idle (h : k.Blocking) (ht : k.IsThread t) (hblocked : ¬k.IsBlocked t) :
    (k.threads t).blockedState.Idle := by
  cases h.threads t ht with
  | inl hidle => exact hidle
  | inr hwaits =>
      obtain ⟨q, hwaits, -⟩ := hwaits
      have hset := congrArg BlockedState.blocked hwaits
      exact absurd hset hblocked

/-- Allocation, as far as the queues of blocked threads depend on it. -/
structure SameObjects (k k' : Kernel) : Prop where
  thread : ∀ t, k'.IsThread t ↔ k.IsThread t
  endpoint : ∀ e, k'.IsEndpoint e ↔ k.IsEndpoint e

theorem SameObjects.of_eq (h : k'.space.objects = k.space.objects) : k.SameObjects k' :=
  ⟨fun t => by rw [IsThread, h, IsThread], fun e => by rw [IsEndpoint, h, IsEndpoint]⟩

theorem SameObjects.refl (k : Kernel) : k.SameObjects k :=
  ⟨fun _ => Iff.rfl, fun _ => Iff.rfl⟩

theorem SameObjects.trans {k₁ k₂ k₃ : Kernel} (h : k₁.SameObjects k₂)
    (h' : k₂.SameObjects k₃) : k₁.SameObjects k₃ :=
  ⟨fun t => (h'.thread t).trans (h.thread t), fun e => (h'.endpoint e).trans (h.endpoint e)⟩

/-- Only the objects, the queues and the records of the threads matter. -/
structure SameBlocking (k k' : Kernel) : Prop where
  objects : k.SameObjects k'
  queues : ∀ q, k'.endpointQueue q = k.endpointQueue q
  links : k'.blockedQueues = k.blockedQueues
  threads : ∀ t, (k'.threads t).blockedState = (k.threads t).blockedState

theorem SameBlocking.trans {k₁ k₂ k₃ : Kernel} (h : k₁.SameBlocking k₂)
    (h' : k₂.SameBlocking k₃) : k₁.SameBlocking k₃ :=
  ⟨h.objects.trans h'.objects, fun q => (h'.queues q).trans (h.queues q),
    h'.links.trans h.links, fun t => (h'.threads t).trans (h.threads t)⟩

theorem waitingFor_congr (hthread : k'.IsThread t ↔ k.IsThread t)
    (hstate : (k'.threads t).blockedState = (k.threads t).blockedState) :
    k'.waitingFor t = k.waitingFor t := by
  simp only [waitingFor, hthread, hstate]

theorem waitingQueue_congr (hendpoint : k'.IsEndpoint q.1 ↔ k.IsEndpoint q.1)
    (hqueue : k'.endpointQueue q = k.endpointQueue q) :
    k'.waitingQueue q = k.waitingQueue q := by
  simp only [waitingQueue, hendpoint, hqueue]

theorem Blocking.congr (h : k.Blocking) (hsame : k.SameBlocking k') : k'.Blocking where
  queues := by
    apply h.queues.congr
    · funext q
      exact waitingQueue_congr (hsame.objects.endpoint q.1) (hsame.queues q)
    · intro t _
      rw [hsame.links]
    · intro t
      exact waitingFor_congr (hsame.objects.thread t) (hsame.threads t)
  threads t ht := by
    rw [hsame.threads]
    cases h.threads t ((hsame.objects.thread t).mp ht) with
    | inl hidle => exact .inl hidle
    | inr hwaits =>
        obtain ⟨q, hwaits, hendpoint⟩ := hwaits
        exact .inr ⟨q, hwaits, (hsame.objects.endpoint q.1).mpr hendpoint⟩

/-- One queue and the record of one thread change. -/
theorem Blocking.of_thread (h : k.Blocking) (hobjects : k.SameObjects k')
    (hqueues : Queues k'.waitingQueue k'.blockedQueues k'.waitingFor)
    (hother : ∀ u, u ≠ t → (k'.threads u).blockedState = (k.threads u).blockedState)
    (ht : (k'.threads t).blockedState.Idle ∨
      ∃ q, (k'.threads t).blockedState.Waits q ∧ k'.IsEndpoint q.1) : k'.Blocking where
  queues := hqueues
  threads u hu := by
    cases decEq u t with
    | isTrue hut =>
        subst hut
        exact ht
    | isFalse hut =>
        rw [hother u hut]
        cases h.threads u ((hobjects.thread u).mp hu) with
        | inl hidle => exact .inl hidle
        | inr hwaits =>
            obtain ⟨q, hwaits, hendpoint⟩ := hwaits
            exact .inr ⟨q, hwaits, (hobjects.endpoint q.1).mpr hendpoint⟩

theorem waitingQueue_update {c' : Container Addr} (hobjects : k.SameObjects k')
    (he : k.IsEndpoint q.1)
    (hqueue : ∀ q', k'.endpointQueue q' = if q' = q then c' else k.endpointQueue q') :
    k'.waitingQueue = Function.update k.waitingQueue q c' := by
  funext q'
  cases decEq q' q with
  | isTrue hq =>
      subst hq
      simp [waitingQueue, hobjects.endpoint, he, hqueue]
  | isFalse hq => simp [waitingQueue, hobjects.endpoint, hqueue, hq]

theorem Blocking.start_waits (h : k.Blocking) (he : k.IsEndpoint q.1)
    (hstart : (k.endpointQueue q).start = some t) :
    (k.threads t).blockedState.Waits q := by
  apply (h.waits (h.queues.start_some _)).2.1
  rw [waitingQueue, if_pos he, hstart]

/-- A thread is taken off a queue that it is the only one on. -/
theorem Blocking.wake (h : k.Blocking) {c' : Container Addr} {links : Addr → Link Addr}
    (he : k.IsEndpoint q.1) (hlast : (k.endpointQueue q).start = (k.endpointQueue q).last)
    (hpop : listPopFromStart (k.endpointQueue q) k.blockedQueues = (some t, c', links))
    (hobjects : k.SameObjects k')
    (hqueue : ∀ q', k'.endpointQueue q' = if q' = q then c' else k.endpointQueue q')
    (hlinks : k'.blockedQueues = links)
    (hother : ∀ u, u ≠ t → (k'.threads u).blockedState = (k.threads u).blockedState)
    (ht : (k'.threads t).blockedState.Idle) : k'.Blocking := by
  have hstart := listPopFromStart_start hpop
  have hq : k.waitingQueue q = k.endpointQueue q := if_pos he
  apply h.of_thread hobjects _ hother (.inl ht)
  rw [hlinks]
  apply h.queues.pop_single (by rw [hq, hstart]) (by rw [hq, ← hlast, hstart])
    (by rw [hq, hpop]) (waitingQueue_update hobjects he hqueue) (waitingFor_idle ht)
  intro u hu
  exact waitingFor_congr (hobjects.thread u) (hother u hu)

/-- An idle thread is put on a queue. -/
theorem Blocking.block (h : k.Blocking) {c' : Container Addr} {links : Addr → Link Addr}
    (he : k.IsEndpoint q.1) (hthread : k.IsThread t)
    (hidle : (k.threads t).blockedState.Idle)
    (happend : listAppend (k.endpointQueue q) k.blockedQueues t = (c', links))
    (hobjects : k.SameObjects k')
    (hqueue : ∀ q', k'.endpointQueue q' = if q' = q then c' else k.endpointQueue q')
    (hlinks : k'.blockedQueues = links)
    (hother : ∀ u, u ≠ t → (k'.threads u).blockedState = (k.threads u).blockedState)
    (ht : (k'.threads t).blockedState.Waits q) : k'.Blocking := by
  have hq : k.waitingQueue q = k.endpointQueue q := if_pos he
  apply h.of_thread hobjects _ hother (.inr ⟨q, ht, (hobjects.endpoint q.1).mpr he⟩)
  rw [hlinks]
  apply h.queues.append (waitingFor_idle hidle) (by rw [hq, happend])
    (waitingQueue_update hobjects he hqueue)
    (waitingFor_waits ((hobjects.thread t).mpr hthread) ht)
  intro u hu
  exact waitingFor_congr (hobjects.thread u) (hother u hu)

end Kernel

end Cenix
