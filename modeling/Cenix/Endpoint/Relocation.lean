import Cenix.Endpoint.Destruction

namespace Cenix

open LinkedLists

/-! Threads and endpoints are moved by the heap. -/

namespace Kernel

variable {fuel : Nat} {k k' : Kernel} {t u e src dest : Addr} {q : Addr × Direction}

/-- `k'` is `k` with the thread at `src` copied to `dest` and gone from `src`. -/
structure ThreadCopied (src dest : Addr) (k k' : Kernel) : Prop where
  thread : ∀ u, k'.IsThread u ↔ u = dest ∨ (u ≠ src ∧ k.IsThread u)
  endpoint : ∀ e, k'.IsEndpoint e ↔ k.IsEndpoint e
  queues : ∀ q, k.IsEndpoint q.1 → k'.endpointQueue q = k.endpointQueue q
  link : k'.blockedQueues dest = k.blockedQueues src
  state : (k'.threads dest).blockedState = (k.threads src).blockedState
  links : ∀ u, u ≠ dest → k'.blockedQueues u = k.blockedQueues u
  states : ∀ u, u ≠ dest → (k'.threads u).blockedState = (k.threads u).blockedState

theorem ThreadCopied.trans {k₁ k₂ : Kernel} (h : ThreadCopied src dest k k₁)
    (h' : k₁.SameBlocking k₂) : ThreadCopied src dest k k₂ where
  thread u := (h'.objects.thread u).trans (h.thread u)
  endpoint e := (h'.objects.endpoint e).trans (h.endpoint e)
  queues q hq := (h'.queues q).trans (h.queues q hq)
  link := by rw [h'.links, h.link]
  state := (h'.threads dest).trans h.state
  links u hu := by rw [h'.links, h.links u hu]
  states u hu := (h'.threads u).trans (h.states u hu)

theorem ThreadCopied.waitingQueue (h : ThreadCopied src dest k k') :
    k'.waitingQueue = k.waitingQueue := by
  funext q
  unfold Kernel.waitingQueue
  simp only [h.endpoint]
  split
  · rename_i hq
    exact h.queues q hq
  · rfl

theorem updateBlockedQueue_space (k : Kernel) (t : Addr) :
    (k.updateBlockedQueue t).space = k.space := by
  unfold updateBlockedQueue
  simp only
  split
  · rfl
  · split
    · rfl
    · split <;> rfl

theorem updateBlockedQueue_blockedState (k : Kernel) (t u : Addr) :
    ((k.updateBlockedQueue t).threads u).blockedState = (k.threads u).blockedState := by
  unfold updateBlockedQueue
  simp only
  split
  · rfl
  · split
    · rfl
    · split <;> rfl

/-- A moved thread takes its place in its queue again. -/
theorem Blocking.updateBlockedQueue (h : k.Blocking) (hsrc : k.IsThread src)
    (hdest : k.space.objects dest = none) (hcopied : ThreadCopied src dest k k') :
    (k'.updateBlockedQueue dest).Blocking := by
  have hthread : ∀ u, (k'.updateBlockedQueue dest).IsThread u ↔
      u = dest ∨ (u ≠ src ∧ k.IsThread u) := by
    intro u
    rw [IsThread, updateBlockedQueue_space]
    exact hcopied.thread u
  have hendpoint : ∀ e, (k'.updateBlockedQueue dest).IsEndpoint e ↔ k.IsEndpoint e := by
    intro e
    rw [IsEndpoint, updateBlockedQueue_space]
    exact hcopied.endpoint e
  have hnot : ¬k.IsThread dest := by simp [IsThread, hdest]
  have hne : src ≠ dest := by
    intro heq
    exact hnot (heq ▸ hsrc)
  have hself : ((k'.updateBlockedQueue dest).threads dest).blockedState =
      (k.threads src).blockedState := by
    rw [updateBlockedQueue_blockedState, hcopied.state]
  have hstate : ∀ u, u ≠ dest → ((k'.updateBlockedQueue dest).threads u).blockedState =
      (k.threads u).blockedState := by
    intro u hu
    rw [updateBlockedQueue_blockedState, hcopied.states u hu]
  have hold : (k'.updateBlockedQueue dest).waitingFor src = none :=
    waitingFor_dead (by simp [hthread, hne])
  have hkey : ∀ u, u ≠ dest → u ≠ src →
      (k'.updateBlockedQueue dest).waitingFor u = k.waitingFor u := by
    intro u hud hus
    exact waitingFor_congr (by simp [hthread, hud, hus]) (hstate u hud)
  constructor
  · cases h.threads src hsrc with
    | inl hidle =>
        have hnone : (k'.threads dest).blockedOn = none :=
          congrArg BlockedState.on (hcopied.state.trans hidle)
        have hsame : k'.updateBlockedQueue dest = k' := by
          unfold Kernel.updateBlockedQueue
          simp only [hnone]
        rw [hsame] at hold hkey hself
        rw [hsame, hcopied.waitingQueue]
        apply h.queues.congr rfl
        · intro u hu
          apply hcopied.links
          intro heq
          exact hu (heq ▸ waitingFor_dead hnot)
        · intro u
          cases decEq u dest with
          | isTrue hud =>
              rw [hud, waitingFor_dead hnot]
              exact waitingFor_idle (hself.trans hidle)
          | isFalse hud =>
              cases decEq u src with
              | isTrue hus => rw [hus, hold, waitingFor_idle hidle]
              | isFalse hus => exact hkey u hud hus
    | inr hwaits =>
        obtain ⟨⟨e, direction⟩, hwaits, he⟩ := hwaits
        have hstored := hcopied.state.trans hwaits
        have hon : (k'.threads dest).blockedOn = some e := congrArg BlockedState.on hstored
        have hsend : (k'.threads dest).flags.blockedOnSend = decide (direction = .sending) :=
          congrArg BlockedState.onSend hstored
        have hreceive : (k'.threads dest).flags.blockedOnReceive =
            decide (direction = .receiving) := congrArg BlockedState.onReceive hstored
        have hq : k.waitingQueue (e, direction) = k'.endpointQueue (e, direction) :=
          (if_pos he).trans (hcopied.queues (e, direction) he).symm
        cases hupdate : listUpdateAddress (k'.endpointQueue (e, direction)) k'.blockedQueues
            dest with
        | mk queue links =>
            have hmoved : (∀ q, (k'.updateBlockedQueue dest).endpointQueue q =
                  if q = (e, direction) then queue else k'.endpointQueue q) ∧
                (k'.updateBlockedQueue dest).blockedQueues = links := by
              unfold Kernel.updateBlockedQueue
              simp only [hon, hsend, hreceive]
              simp only [endpointQueue] at hupdate
              cases direction with
              | sending =>
                  simp only [decide_true, if_true, hupdate]
                  exact ⟨k'.endpointQueue_setBlockedSending e queue, rfl⟩
              | receiving =>
                  simp only [reduceCtorEq, decide_false, Bool.false_eq_true, if_false,
                    decide_true, if_true, hupdate]
                  exact ⟨k'.endpointQueue_setBlockedReceiving e queue, rfl⟩
            have hdestThread : (k'.updateBlockedQueue dest).IsThread dest :=
              (hthread dest).mpr (.inl rfl)
            rw [hmoved.2]
            apply h.queues.relocate (waitingFor_waits hsrc hwaits) (waitingFor_dead hnot)
              hcopied.link hcopied.links (by rw [hq, hupdate]) _
              (waitingFor_waits hdestThread (hself.trans hwaits)) hold hkey
            funext q
            cases decEq q (e, direction) with
            | isTrue hqe =>
                subst hqe
                simp only [Function.update_self, Kernel.waitingQueue,
                  if_pos ((hendpoint e).mpr he)]
                exact (hmoved.1 _).trans (if_pos rfl)
            | isFalse hqe =>
                rw [Function.update_of_ne hqe, ← hcopied.waitingQueue]
                refine waitingQueue_congr ?_ ((hmoved.1 q).trans (if_neg hqe))
                rw [hendpoint, hcopied.endpoint]
  · intro u hu
    cases decEq u dest with
    | isTrue hud =>
        rw [hud, hself]
        cases h.threads src hsrc with
        | inl hidle => exact .inl hidle
        | inr hwaits =>
            obtain ⟨q, hwaits, he⟩ := hwaits
            exact .inr ⟨q, hwaits, (hendpoint q.1).mpr he⟩
    | isFalse hud =>
        rw [hstate u hud]
        have hu := (hthread u).mp hu
        cases h.threads u (hu.resolve_left hud).2 with
        | inl hidle => exact .inl hidle
        | inr hwaits =>
            obtain ⟨q, hwaits, he⟩ := hwaits
            exact .inr ⟨q, hwaits, (hendpoint q.1).mpr he⟩

theorem beginMove_objects (k : Kernel) (src dest : Addr) :
    (k.beginMove src dest).space.objects =
      Function.update (Function.update k.space.objects dest (k.space.objects src)) src none :=
  rfl

theorem beginMove_threadCopied (hsrc : k.IsThread src) (hdest : k.space.objects dest = none) :
    ThreadCopied src dest k (k.beginMove src dest) := by
  have hne : dest ≠ src := by
    intro heq
    rw [heq, hsrc] at hdest
    cases hdest
  have hqueues : ∀ q, k.IsEndpoint q.1 →
      (k.beginMove src dest).endpointQueue q = k.endpointQueue q := by
    intro q hq
    have hqd : q.1 ≠ dest := by
      intro heq
      rw [IsEndpoint, heq, hdest] at hq
      cases hq
    obtain ⟨e, direction⟩ := q
    simp only at hqd
    cases direction <;> simp [endpointQueue, beginMove, copyBlock, hqd]
  constructor
  · intro u
    rw [IsThread, beginMove_objects, IsThread]
    cases decEq u src with
    | isTrue hus => simp [hus, hne.symm]
    | isFalse hus =>
        cases decEq u dest with
        | isTrue hud =>
            rw [IsThread] at hsrc
            simp [hud, hne, hsrc]
        | isFalse hud => simp [hus, hud]
  · intro e
    rw [IsEndpoint, beginMove_objects, IsEndpoint]
    cases decEq e src with
    | isTrue hes =>
        rw [IsThread] at hsrc
        simp [hes, hsrc]
    | isFalse hes =>
        cases decEq e dest with
        | isTrue hed =>
            rw [IsThread] at hsrc
            simp [hed, hne, hsrc, hdest]
        | isFalse hed => simp [hes, hed]
  · exact hqueues
  · simp [blockedQueues, beginMove, copyBlock]
  · simp [beginMove, copyBlock]
  · intro u hu
    simp [blockedQueues, beginMove, copyBlock, hu]
  · intro u hu
    simp [beginMove, copyBlock, hu]

theorem updateRunqueue_sameBlocking (k : Kernel) (t : Addr) :
    k.SameBlocking (k.updateRunqueue t) := by
  unfold updateRunqueue
  split
  · exact .refl k
  · exact ⟨.of_eq rfl, fun _ => rfl, rfl, fun _ => rfl⟩

theorem updateThreadBucket_sameBlocking (k : Kernel) (t : Addr) :
    k.SameBlocking (k.updateThreadBucket t) :=
  ⟨.of_eq rfl, fun _ => rfl, rfl, fun _ => rfl⟩

theorem updateCpuUpdate_sameBlocking (k : Kernel) (t : Addr) :
    k.SameBlocking (k.updateCpuUpdate t) := by
  unfold updateCpuUpdate
  split
  · exact ⟨.of_eq rfl, fun _ => rfl, rfl, fun _ => rfl⟩
  · exact .refl k

theorem updateCurrentThread_sameBlocking (k : Kernel) (t : Addr) :
    k.SameBlocking (k.updateCurrentThread t) := by
  unfold updateCurrentThread
  split
  · exact ⟨.of_eq rfl, fun _ => rfl, rfl, fun _ => rfl⟩
  · exact .refl k

theorem Blocking.onThreadMoved (h : k.Blocking) (hsrc : k.IsThread src)
    (hdest : k.space.objects dest = none) {k₁ : Kernel} (hcopied : ThreadCopied src dest k k₁)
    (hmoved : k₁.onThreadMoved fuel dest = some k') : k'.Blocking := by
  have hqueue := h.updateBlockedQueue hsrc hdest
    (hcopied.trans (k₁.updateRunqueue_sameBlocking dest))
  have hrest := ((hqueue.congr (updateThreadBucket_sameBlocking _ dest)).congr
    (updateCpuUpdate_sameBlocking _ dest)).congr (updateCurrentThread_sameBlocking _ dest)
  unfold Kernel.onThreadMoved at hmoved
  simp only at hmoved
  split at hmoved
  · cases hmoved
    exact hrest
  · simp only [Option.map_eq_some_iff] at hmoved
    obtain ⟨s, hreferences, rfl⟩ := hmoved
    refine hrest.congr (sameBlocking_of (.of_eq ?_) ?_ ?_)
    · obtain ⟨links, -, hderived⟩ := Space.updateCapabilityReferences_cases hreferences
      exact hderived.objects
    · rfl
    · rfl

/-- `k'` is `k` with the endpoint at `src` copied to `dest` and gone from `src`. -/
structure EndpointCopied (src dest : Addr) (k k' : Kernel) : Prop where
  thread : ∀ u, k'.IsThread u ↔ k.IsThread u
  endpoint : ∀ e, k'.IsEndpoint e ↔ e = dest ∨ (e ≠ src ∧ k.IsEndpoint e)
  queue : ∀ direction, k'.endpointQueue (dest, direction) = k.endpointQueue (src, direction)
  queues : ∀ q, q.1 ≠ dest → k'.endpointQueue q = k.endpointQueue q
  links : ∀ u, k.IsThread u → k'.blockedQueues u = k.blockedQueues u
  states : ∀ u, k.IsThread u → (k'.threads u).blockedState = (k.threads u).blockedState

theorem EndpointCopied.trans {k₁ k₂ : Kernel} (h : EndpointCopied src dest k k₁)
    (h' : k₁.SameBlocking k₂) : EndpointCopied src dest k k₂ where
  thread u := (h'.objects.thread u).trans (h.thread u)
  endpoint e := (h'.objects.endpoint e).trans (h.endpoint e)
  queue direction := (h'.queues _).trans (h.queue direction)
  queues q hq := (h'.queues q).trans (h.queues q hq)
  links u hu := by rw [h'.links, h.links u hu]
  states u hu := (h'.threads u).trans (h.states u hu)

theorem beginMove_endpointCopied (hsrc : k.IsEndpoint src)
    (hdest : k.space.objects dest = none) :
    EndpointCopied src dest k (k.beginMove src dest) := by
  have hne : dest ≠ src := by
    intro heq
    rw [heq, hsrc] at hdest
    cases hdest
  have hthread : ∀ u, k.IsThread u → u ≠ dest := by
    intro u hu heq
    rw [IsThread, heq, hdest] at hu
    cases hu
  rw [IsEndpoint] at hsrc
  constructor
  · intro u
    rw [IsThread, beginMove_objects, IsThread]
    cases decEq u src with
    | isTrue hus => simp [hus, hsrc]
    | isFalse hus =>
        cases decEq u dest with
        | isTrue hud => simp [hud, hne, hsrc, hdest]
        | isFalse hud => simp [hus, hud]
  · intro e
    rw [IsEndpoint, beginMove_objects, IsEndpoint]
    cases decEq e src with
    | isTrue hes => simp [hes, hne.symm]
    | isFalse hes =>
        cases decEq e dest with
        | isTrue hed => simp [hed, hne, hsrc]
        | isFalse hed => simp [hes, hed]
  · intro direction
    cases direction <;> simp [endpointQueue, beginMove, copyBlock]
  · intro q hq
    obtain ⟨e, direction⟩ := q
    simp only at hq
    cases direction <;> simp [endpointQueue, beginMove, copyBlock, hq]
  · intro u hu
    simp [blockedQueues, beginMove, copyBlock, hthread u hu]
  · intro u hu
    simp [beginMove, copyBlock, hthread u hu]

/-- What the loops of `on_endpoint_moved` do to the threads they visit. -/
def setBlockedOn (k : Kernel) (e : Addr) (xs : List Addr) : Kernel :=
  { k with threads := fun t =>
      if t ∈ xs then { k.threads t with blockedOn := some e } else k.threads t }

theorem setBlockedOn_blockedState (k : Kernel) (e : Addr) (xs : List Addr) (u : Addr) :
    ((k.setBlockedOn e xs).threads u).blockedState =
      if u ∈ xs then { (k.threads u).blockedState with on := some e }
      else (k.threads u).blockedState := by
  simp only [setBlockedOn]
  split <;> rfl

theorem setBlockedOn_blockedQueues (k : Kernel) (e : Addr) (xs : List Addr) :
    (k.setBlockedOn e xs).blockedQueues = k.blockedQueues := by
  funext u
  simp only [blockedQueues, setBlockedOn]
  split <;> rfl

theorem setBlockedOn_foldlM (k : Kernel) (e : Addr) (xs : List Addr) :
    xs.foldlM (fun k t => some (k.modifyThread t fun t => { t with blockedOn := some e })) k =
      some (k.setBlockedOn e xs) := by
  induction xs generalizing k with
  | nil => simp [setBlockedOn]
  | cons x xs ih =>
      simp only [List.foldlM_cons, Option.bind_eq_bind, Option.bind_some, ih]
      unfold setBlockedOn
      congr 2
      funext t
      cases decEq t x with
      | isTrue htx => simp [htx]
      | isFalse htx => simp [htx, modifyThread_of_ne]

theorem iterBlockedQueue_setBlockedOn {queue : Container Addr} {xs : List Addr}
    (hxs : IsQueue queue k.blockedQueues xs)
    (h : k.iterBlockedQueue fuel queue (fun k t =>
      some (k.modifyThread t fun t => { t with blockedOn := some e })) = some k') :
    k' = k.setBlockedOn e xs := by
  rw [iterBlockedQueue, hxs.start_eq] at h
  have hfold := listIter_foldlM (fun k t k' hbody => ?_) hxs.forward h
  · rw [setBlockedOn_foldlM] at hfold
    exact (Option.some.inj hfold).symm
  · cases hbody
    funext u
    exact congrArg Link.next (congrFun (k.blockedQueues_modifyThread t
      (fun t => { t with blockedOn := some e }) rfl) u)

/-- Which queues become the queue `(e, direction)`. -/
theorem moved_queue {direction : Direction} (hne : src ≠ dest) (hq : q.1 ≠ dest) :
    (some q).map (fun q => if q.1 = src then (dest, q.2) else q) = some (e, direction) ↔
      if e = dest then some q = some (src, direction)
      else e ≠ src ∧ some q = some (e, direction) := by
  obtain ⟨e', direction'⟩ := q
  simp only [Option.map_some, Option.some.injEq]
  cases decEq e' src with
  | isTrue heq =>
      subst heq
      simp only [if_true, Prod.mk.injEq, true_and]
      split
      · rename_i hed
        simp [hed]
      · rename_i hed
        simp only [Ne.symm hed, false_and, ne_eq, false_iff, not_and]
        intro hes heq
        exact absurd heq.symm hes
  | isFalse heq =>
      simp only [heq, if_false, Prod.mk.injEq, false_and]
      split
      · rename_i hed
        subst hed
        simp [hq]
      · simp only [ne_eq, iff_and_self, and_imp]
        intro hee _ hes
        exact heq (hee.trans hes)

theorem Blocking.onEndpointMoved (h : k.Blocking) (hsrc : k.IsEndpoint src)
    (hdest : k.space.objects dest = none) {k₁ : Kernel}
    (hcopied : EndpointCopied src dest k k₁)
    (hmoved : k₁.onEndpointMoved fuel dest = some k') : k'.Blocking := by
  have hne : src ≠ dest := by
    intro heq
    rw [IsEndpoint, heq, hdest] at hsrc
    cases hsrc
  have hold : ∀ direction, k.waitingQueue (src, direction) = k.endpointQueue (src, direction) :=
    fun direction => if_pos hsrc
  obtain ⟨xs, hxs, hxmem⟩ := h.queues (src, .sending)
  obtain ⟨ys, hys, hymem⟩ := h.queues (src, .receiving)
  have hlinks : ∀ q u, k.waitingFor u = some q → k₁.blockedQueues u = k.blockedQueues u :=
    fun q u hu => hcopied.links u (h.waits hu).1
  have hxs₁ : IsQueue (k₁.endpointQueue (dest, .sending)) k₁.blockedQueues xs := by
    rw [hcopied.queue, ← hold]
    exact hxs.congr fun u hu => hlinks _ u ((hxmem u).mp hu)
  have hys₁ : IsQueue (k₁.endpointQueue (dest, .receiving)) k₁.blockedQueues ys := by
    rw [hcopied.queue, ← hold]
    exact hys.congr fun u hu => hlinks _ u ((hymem u).mp hu)
  simp only [Kernel.onEndpointMoved, Option.bind_eq_bind, Option.bind_eq_some_iff] at hmoved
  obtain ⟨k₂, hsending, hreceiving⟩ := hmoved
  have hk₂ := iterBlockedQueue_setBlockedOn hxs₁ hsending
  have hlinks₂ : k₂.blockedQueues = k₁.blockedQueues := by
    rw [hk₂, setBlockedOn_blockedQueues]
  have hys₂ : IsQueue (k₂.endpoints dest).blockedReceiving k₂.blockedQueues ys := by
    rw [hlinks₂, hk₂]
    exact hys₁
  have hk' := iterBlockedQueue_setBlockedOn hys₂ hreceiving
  have hlinks' : k'.blockedQueues = k₁.blockedQueues := by
    rw [hk', setBlockedOn_blockedQueues, hlinks₂]
  have hstate : ∀ u, (k'.threads u).blockedState =
      if u ∈ xs ∨ u ∈ ys then { (k₁.threads u).blockedState with on := some dest }
      else (k₁.threads u).blockedState := by
    intro u
    rw [hk', setBlockedOn_blockedState, hk₂, setBlockedOn_blockedState]
    cases Decidable.em (u ∈ xs) with
    | inl hux => simp only [hux, true_or, if_true, ite_self]
    | inr hux => simp only [hux, false_or, if_false]
  have hspace : k'.space = k₁.space := by
    rw [hk', hk₂]
    rfl
  have hendpoints : k'.endpoints = k₁.endpoints := by
    rw [hk', hk₂]
    rfl
  have hthread : ∀ u, k'.IsThread u ↔ k.IsThread u := by
    intro u
    rw [IsThread, hspace]
    exact hcopied.thread u
  have hendpoint : ∀ e, k'.IsEndpoint e ↔ e = dest ∨ (e ≠ src ∧ k.IsEndpoint e) := by
    intro e
    rw [IsEndpoint, hspace]
    exact hcopied.endpoint e
  have hwaits : ∀ u q, k.IsThread u → (k.threads u).blockedState.Waits q →
      (k'.threads u).blockedState.Waits (if q.1 = src then (dest, q.2) else q) := by
    intro u q hu hq
    obtain ⟨e, direction⟩ := q
    have hkey := waitingFor_waits hu hq
    have hux : u ∈ xs ↔ (e, direction) = (src, .sending) := by rw [hxmem, hkey]; simp
    have huy : u ∈ ys ↔ (e, direction) = (src, .receiving) := by rw [hymem, hkey]; simp
    rw [hstate, hcopied.states u hu]
    rw [BlockedState.Waits] at hq
    simp only [hux, huy, hq]
    cases decEq e src with
    | isTrue hes => cases direction <;> simp [hes, BlockedState.Waits]
    | isFalse hes => simp [hes, BlockedState.Waits]
  have hidle : ∀ u, k.IsThread u → (k.threads u).blockedState.Idle →
      (k'.threads u).blockedState.Idle := by
    intro u hu hidle
    have hkey := waitingFor_idle hidle
    have hux : u ∉ xs := by
      rw [hxmem, hkey]
      simp
    have huy : u ∉ ys := by
      rw [hymem, hkey]
      simp
    rw [hstate, if_neg (by simp [hux, huy]), hcopied.states u hu]
    exact hidle
  have hkey : ∀ u, k'.waitingFor u =
      (k.waitingFor u).map fun q => if q.1 = src then (dest, q.2) else q := by
    intro u
    cases Decidable.em (k.IsThread u) with
    | inr hno => rw [waitingFor_dead hno, waitingFor_dead (by rwa [hthread]), Option.map_none]
    | inl hu =>
        cases h.threads u hu with
        | inl hu' => rw [waitingFor_idle hu', waitingFor_idle (hidle u hu hu'), Option.map_none]
        | inr hq =>
            obtain ⟨q, hq, -⟩ := hq
            rw [waitingFor_waits hu hq, Option.map_some]
            exact waitingFor_waits ((hthread u).mpr hu) (hwaits u q hu hq)
  constructor
  · intro q
    obtain ⟨e, direction⟩ := q
    have hmem : ∀ u, k'.waitingFor u = some (e, direction) ↔
        if e = dest then k.waitingFor u = some (src, direction)
        else e ≠ src ∧ k.waitingFor u = some (e, direction) := by
      intro u
      rw [hkey]
      cases hu : k.waitingFor u with
      | none => simp
      | some q =>
          have hqd : q.1 ≠ dest := by
            intro heq
            have he := (h.waits hu).2.2
            rw [heq, IsEndpoint, hdest] at he
            cases he
          exact moved_queue hne hqd
    cases decEq e dest with
    | isTrue hed =>
        subst hed
        obtain ⟨zs, hzs, hzmem⟩ := h.queues (src, direction)
        refine ⟨zs, ?_, fun u => by rw [hzmem, hmem, if_pos rfl]⟩
        rw [waitingQueue, if_pos ((hendpoint e).mpr (.inl rfl)),
          endpointQueue_congr hendpoints, hcopied.queue, ← hold, hlinks']
        exact hzs.congr fun u hu => hlinks _ u ((hzmem u).mp hu)
    | isFalse hed =>
        cases decEq e src with
        | isTrue hes =>
            subst hes
            refine ⟨[], ?_, fun u => by simp [hmem, hed]⟩
            rw [waitingQueue, if_neg (by simp [hendpoint, hed])]
            constructor <;> simp [Container.empty]
        | isFalse hes =>
            obtain ⟨zs, hzs, hzmem⟩ := h.queues (e, direction)
            refine ⟨zs, ?_, fun u => by simp [hzmem, hmem, hed, hes]⟩
            have hqueue : k'.waitingQueue (e, direction) = k.waitingQueue (e, direction) := by
              apply waitingQueue_congr
              · simp [hendpoint, hed, hes]
              · rw [endpointQueue_congr hendpoints, hcopied.queues _ hed]
            rw [hqueue, hlinks']
            exact hzs.congr fun u hu => hlinks _ u ((hzmem u).mp hu)
  · intro u hu
    cases h.threads u ((hthread u).mp hu) with
    | inl hu' => exact .inl (hidle u ((hthread u).mp hu) hu')
    | inr hq =>
        obtain ⟨q, hq, he⟩ := hq
        refine .inr ⟨_, hwaits u q ((hthread u).mp hu) hq, ?_⟩
        rw [hendpoint]
        split
        · exact .inl rfl
        · rename_i hqs
          exact .inr ⟨hqs, he⟩

/-- The capability that `update_capability_resource` takes for the owner of the
block at `src`: its kind, and what it refers to afterwards. -/
def movedOwner (fuel : Nat) (k : Kernel) (src dest : Addr)
    (address : AbsoluteCapabilityAddress) : Option (Handlers × Addr) :=
  ((k.beginMove src dest).lookUpOwner fuel address).bind fun
    | (none, _) => none
    | (some result, k) =>
        (setResources fuel k.space result.slot dest).bind fun s =>
          (k.space.slots result.slot).handlers.map fun handlers =>
            (handlers, (s.slots result.slot).resource)

/-- The heap finds out that the thread or the endpoint at `src` moves to `dest`. -/
def FindsOwner (fuel : Nat) (k : Kernel) (src dest : Addr) : Prop :=
  match k.space.updateRefs src with
  | .nothing => False
  | .onThreadMoved => k.IsThread src
  | .capability address =>
      (k.IsThread src ∧ k.movedOwner fuel src dest address = some (.thread, dest)) ∨
        (k.IsEndpoint src ∧ k.movedOwner fuel src dest address = some (.endpoint, dest))

theorem lookUpOwner_kinds {address : AbsoluteCapabilityAddress}
    {result : Option LookUpResult} (h : k.lookUpOwner fuel address = some (result, k')) :
    ∃ kinds, k' = { k with kinds := kinds } := by
  unfold lookUpOwner at h
  split at h
  · simp only [Option.map_eq_some_iff] at h
    obtain ⟨⟨thread, shouldUnlock, k₁⟩, hthread, h⟩ := h
    obtain ⟨kinds, rfl⟩ := lookUpThreadById_kinds hthread
    cases thread with
    | none =>
        cases h
        exact ⟨kinds, rfl⟩
    | some thread =>
        cases h
        exact ⟨kinds, rfl⟩
  · exact lookUpCapabilityAbsolute_kinds h

theorem setResources_objects {s s' : Space} {slot : SlotPtr} {resource : Addr}
    (h : setResources fuel s slot resource = some s') : s'.objects = s.objects := by
  refine listIter_induct (motive := fun s₁ => s₁.objects = s.objects) ?_ h rfl
  intro s₁ p s₂ hs₁ hbody
  cases hbody
  exact hs₁

theorem sameBlocking_space {s : Space} {kinds : Addr → Kind}
    (hobjects : s.objects = k.space.objects) :
    k.SameBlocking { k with space := s, kinds := kinds } :=
  sameBlocking_of (.of_eq hobjects) rfl rfl

/-- The `on_moved` handler that runs, and the state it runs in. -/
theorem updateCapabilityResource_cases {address : AbsoluteCapabilityAddress}
    {handlers : Handlers} (howner : k.movedOwner fuel src dest address = some (handlers, dest))
    (h : (k.beginMove src dest).updateCapabilityResource fuel address dest = some k') :
    ∃ k₁ k₂, (k.beginMove src dest).SameBlocking k₁ ∧
      k₁.onMoved fuel handlers dest = some k₂ ∧ k₂.SameBlocking k' := by
  simp only [movedOwner, Option.bind_eq_some_iff] at howner
  obtain ⟨⟨result, k₀⟩, hlookup, howner⟩ := howner
  cases result with
  | none => cases howner
  | some result =>
      simp only [Option.bind_eq_some_iff, Option.map_eq_some_iff, Prod.mk.injEq] at howner
      obtain ⟨s, hs, handlers', hhandlers, rfl, hresource⟩ := howner
      have hspace := setResources_objects hs
      simp only [updateCapabilityResource, hlookup, Option.bind_some, hhandlers, hs,
        Option.bind_eq_bind, hresource, Option.bind_eq_some_iff, Option.some.injEq] at h
      obtain ⟨k₂, hmoved, rfl⟩ := h
      obtain ⟨kinds, rfl⟩ := lookUpOwner_kinds hlookup
      refine ⟨_, k₂, ?_, hmoved, ?_⟩
      · exact sameBlocking_space hspace
      · exact sameBlocking_of (.of_eq rfl) rfl rfl

theorem Blocking.relocate (h : k.Blocking) (hcan : k.CanMove src dest)
    (howner : k.FindsOwner fuel src dest)
    (hrelocate : k.relocate fuel src dest = some k') : k'.Blocking := by
  obtain ⟨hsrc, -, hdest, -⟩ := hcan
  have hne : src ≠ dest := by
    intro heq
    rw [heq] at hsrc
    exact hsrc hdest
  simp only [Kernel.relocate, Option.map_eq_some_iff] at hrelocate
  obtain ⟨k₁, hupdate, rfl⟩ := hrelocate
  have hend : ∀ kinds, k₁.SameBlocking { k₁ with kinds := kinds } :=
    fun kinds => sameBlocking_of (.of_eq rfl) rfl rfl
  refine Blocking.congr ?_ (hend _)
  have hrefs : (k.beginMove src dest).space.updateRefs src = k.space.updateRefs src := by
    simp [beginMove, copyBlock, hne]
  unfold updateReferences at hupdate
  rw [hrefs] at hupdate
  unfold FindsOwner at howner
  cases href : k.space.updateRefs src with
  | nothing =>
      rw [href] at howner
      cases howner
  | onThreadMoved =>
      rw [href] at howner hupdate
      simp only [Option.map_eq_some_iff] at hupdate
      obtain ⟨k₂, hmoved, rfl⟩ := hupdate
      have hthread : k.IsThread src := howner
      have hmoved := h.onThreadMoved hthread hdest (beginMove_threadCopied hthread hdest) hmoved
      exact hmoved.congr (sameBlocking_of (.of_eq rfl) rfl rfl)
  | capability address =>
      rw [href] at howner hupdate
      simp only [Option.map_eq_some_iff] at hupdate
      obtain ⟨k₂, hresource, rfl⟩ := hupdate
      have hset : k₂.SameBlocking
          { k₂ with space := k₂.space.heapSetUpdateCapability dest address } :=
        sameBlocking_of (.of_eq rfl) rfl rfl
      refine Blocking.congr ?_ hset
      cases howner with
      | inl hthread =>
          obtain ⟨hthread, howner⟩ := hthread
          obtain ⟨k₃, k₄, hbefore, hmoved, hafter⟩ :=
            updateCapabilityResource_cases howner hresource
          have hcopied := (beginMove_threadCopied hthread hdest).trans hbefore
          exact (h.onThreadMoved hthread hdest hcopied hmoved).congr hafter
      | inr hendpoint =>
          obtain ⟨hendpoint, howner⟩ := hendpoint
          obtain ⟨k₃, k₄, hbefore, hmoved, hafter⟩ :=
            updateCapabilityResource_cases howner hresource
          have hcopied := (beginMove_endpointCopied hendpoint hdest).trans hbefore
          exact (h.onEndpointMoved hendpoint hdest hcopied hmoved).congr hafter

end Kernel

end Cenix
