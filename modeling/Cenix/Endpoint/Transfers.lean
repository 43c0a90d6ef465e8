import Cenix.AddressSpace.ThreadTables
import Cenix.Capabilities.TransferPhases

namespace Cenix

open LinkedLists Grafting

/-! What a transfer of capabilities does. -/

namespace Kernel

variable {k k' : Kernel} {fuel n : Nat} {t sending receiving sentMessage recvBuffer : Addr}
  {source dest : SlotPtr} {i : Fin ipcCapabilitySlots}

/-- The thread is the one that is found under its id. -/
def FoundById (k : Kernel) (t : Addr) : Prop :=
  Settles (fun fuel => k.findThread (k.threads t).threadId fuel
    (k.threadHashTable (k.threads t).bucketNumber).start) (some t)

theorem ThreadTable.foundById (h : k.ThreadTable) (ht : k.IsThread t) : k.FoundById t := by
  obtain ⟨xs, hxs, hmem⟩ := h.queues (k.threads t).bucketNumber
  rw [threadBucket, if_pos (h.bucket_lt ht)] at hxs
  have htMem : t ∈ xs := (hmem t).mpr (bucketOf_thread ht)
  refine ⟨xs.length, fun fuel hfuel => ?_⟩
  have hreturns : k.findThread (k.threads t).threadId fuel xs.head? = _ :=
    findThread_returns hxs.forward hfuel
  simp only [hxs.start_eq, hreturns]
  cases hfound : xs.find? fun u => (k.threads u).threadId = (k.threads t).threadId with
  | none =>
      have hnot := List.find?_eq_none.mp hfound t htMem
      exact absurd (decide_eq_true rfl) hnot
  | some u =>
      have hu := bucketOf_eq_some.mp ((hmem u).mp (List.mem_of_find?_eq_some hfound))
      have hid : (k.threads u).threadId = (k.threads t).threadId := by
        simpa using List.find?_some hfound
      rw [h.distinct u t hu.1 ht hid]

theorem findThread_congr (h : k'.threads = k.threads) (threadId fuel : Nat) (t : Option Addr) :
    k'.findThread threadId fuel t = k.findThread threadId fuel t := by
  induction fuel generalizing t with
  | zero => cases t <;> rfl
  | succ fuel ih =>
      cases t with
      | none => rfl
      | some t => simp only [findThread, h, ih]

theorem FoundById.congr (h : k.FoundById t) (hthreads : k'.threads = k.threads)
    (htable : k'.threadHashTable = k.threadHashTable) : k'.FoundById t :=
  Settles.congr h fun fuel => by rw [findThread_congr hthreads, hthreads, htable]

/-- Two threads whose capability spaces have no slot in common, in well-linked lists. -/
structure SpacesApart (k : Kernel) (sending receiving : Addr) : Prop where
  senderFound : k.FoundById sending
  receiverFound : k.FoundById receiving
  spaces : k.space.NodesApart (.root sending) (.root receiving)
  lists : k.space.WellLinked

/-- Entry `i` names a capability to hand over, and where to. -/
structure Transferable (k : Kernel) (sending receiving sentMessage recvBuffer : Addr)
    (i : Fin ipcCapabilitySlots) (source dest : SlotPtr) : Prop where
  sent : ((k.messages sentMessage).capabilities.get i).depth ≠ 0
  received : ((k.messages recvBuffer).capabilities.get i).depth ≠ 0
  atSource : Settles (fun fuel =>
    k.slotOf fuel sending ((k.messages sentMessage).capabilities.get i)) source
  occupied : (k.space.slots source).handlers ≠ none
  copyable : (k.messages sentMessage).toCopy.getLsbD i = true →
    (k.space.slots source).handlers ≠ some .node
  atDest : Settles (fun fuel =>
    k.slotOf fuel receiving ((k.messages recvBuffer).capabilities.get i)) dest
  empty : (k.space.slots dest).handlers = none

/-- Entry `i` hands over what it names, or changes nothing. -/
structure TransfersEntry (k : Kernel) (sending receiving sentMessage recvBuffer : Addr)
    (i : Fin ipcCapabilitySlots) (k' : Kernel) : Prop where
  done : ∀ source dest, k.Transferable sending receiving sentMessage recvBuffer i source dest →
    k.space.HandedOver ((k.messages sentMessage).toCopy.getLsbD i) source dest k'.space
  skipped : (¬∃ source dest,
    k.Transferable sending receiving sentMessage recvBuffer i source dest) → k' = k
  flags : ∀ j, (k'.messages recvBuffer).transferredCapabilities.getLsbD j = true ↔
    (k.messages recvBuffer).transferredCapabilities.getLsbD j = true ∨ j = i ∧
      ∃ source dest, k.Transferable sending receiving sentMessage recvBuffer i source dest
  rest : Transferred recvBuffer k k'
  locks : k'.kinds = k.kinds

/-! Lookups. -/

theorem lookUpCapabilityAbsolute_slotOf_eq {capability : IpcCapability}
    {result : Option LookUpResult}
    (h : k.lookUpCapabilityAbsolute fuel (k.threadAddress t capability) = some (result, k')) :
    k.slotOf fuel t capability = result.map (·.slot) := by
  cases result with
  | some result => exact lookUpCapabilityAbsolute_slotOf h
  | none =>
      simp only [lookUpCapabilityAbsolute, Option.bind_eq_some_iff, lookUpThreadById,
        Option.map_eq_some_iff] at h
      obtain ⟨_, ⟨found, hfound, rfl⟩, h⟩ := h
      simp only [threadAddress] at hfound
      cases found with
      | none => simp [slotOf, hfound]
      | some u =>
          have hresolve := lookUpIn_resolve h
          simp only [threadAddress] at hresolve
          simp [slotOf, hfound, hresolve]

theorem lookUpCapabilityAbsolute_settles (hfound : k.FoundById t)
    (htree : k.space.SlotTree (.root t)) (capability : IpcCapability) :
    ∃ result kinds, Settles (fun fuel =>
        k.lookUpCapabilityAbsolute fuel (k.threadAddress t capability))
        (result, { k with kinds := kinds }) ∧
      LeavesLocked k.kinds result kinds ∧
      (∀ r, result = some r → k.space.Holds (.root t) r.slot) ∧
      ∀ slot, Settles (fun fuel => k.slotOf fuel t capability) slot ↔
        ∃ r, result = some r ∧ r.slot = slot := by
  have hthread : Settles (fun fuel => k.lookUpThreadById fuel (k.threads t).threadId
      (k.threads t).bucketNumber) (some t, (heapLock k.kinds t).1,
        { k with kinds := (heapLock k.kinds t).2 }) :=
    hfound.map _
  obtain ⟨⟨result, kinds⟩, hlookUp, hbelow⟩ := Space.lookUpCapability_settles htree
    (heapLock k.kinds t).2 capability.address capability.depth
  have hsettles : Settles (fun fuel =>
      k.lookUpCapabilityAbsolute fuel (k.threadAddress t capability))
      (result, { k with kinds := unlockIf (heapLock k.kinds t).1 kinds t }) := by
    unfold lookUpCapabilityAbsolute
    refine hthread.bind ?_
    exact hlookUp.map _
  obtain ⟨fuel, hfuel⟩ := hsettles
  refine ⟨result, _, ⟨fuel, hfuel⟩, ?_, hbelow, fun slot => ⟨fun hslot => ?_, ?_⟩⟩
  · obtain ⟨kinds', heq, hlocked⟩ :=
      lookUpCapabilityAbsolute_locked (hfuel fuel (Nat.le_refl fuel))
    have hkinds : unlockIf (heapLock k.kinds t).1 kinds t = kinds' := congrArg Kernel.kinds heq
    rwa [hkinds]
  · obtain ⟨fuel', hfuel'⟩ := hslot
    have hfound : k.slotOf (fuel + fuel') t capability = some slot :=
      hfuel' _ (Nat.le_add_left fuel' fuel)
    rw [lookUpCapabilityAbsolute_slotOf_eq (hfuel _ (Nat.le_add_right fuel fuel'))] at hfound
    simpa using hfound
  · rintro ⟨r, rfl, rfl⟩
    exact ⟨fuel, fun left hleft => lookUpCapabilityAbsolute_slotOf (hfuel left hleft)⟩

/-! One entry. -/

/-- What holds before and after each entry. -/
structure BeforeEntry (k : Kernel) (sending receiving : Addr) (n : Nat) : Prop where
  senderFound : k.FoundById sending
  receiverFound : k.FoundById receiving
  spaces : k.space.NodesApart (.root sending) (.root receiving)
  phase : k.space.Phase (.root sending) (.root receiving) n

/-- The locks of the first lookup and of the second one are undone in the same order. -/
theorem unlock_both {r r' : LookUpResult} {kinds kinds' : Addr → Kind}
    (h : LeavesLocked k.kinds (some r) kinds) (h' : LeavesLocked kinds (some r') kinds') :
    unlockIf r'.shouldUnlock (unlockIf r.shouldUnlock kinds' r.container) r'.container =
      k.kinds :=
  Locked.unlock (Locked.trans h h')

theorem Transferable.entry
    (h : k.Transferable sending receiving sentMessage recvBuffer i source dest)
    (hsource : k.space.Holds (.root sending) source)
    (hdest : k.space.Holds (.root receiving) dest) :
    k.space.Entry (.root sending) (.root receiving)
      ((k.messages sentMessage).toCopy.getLsbD i) source dest :=
  ⟨hsource, hdest, h.occupied, h.copyable, h.empty⟩

/-- An entry comes to nothing, or its two slots are found and its capability is handed over. -/
theorem transferCapability_settles (h : k.BeforeEntry sending receiving n) (hn : n < 4)
    (sentMessage recvBuffer : Addr) (i : Fin ipcCapabilitySlots) :
    ((¬∃ source dest,
        k.Transferable sending receiving sentMessage recvBuffer i source dest) ∧
      Settles (fun fuel =>
        k.transferCapability fuel sending receiving sentMessage recvBuffer i) k) ∨
    ∃ source dest s, k.Transferable sending receiving sentMessage recvBuffer i source dest ∧
      k.space.HandedOver ((k.messages sentMessage).toCopy.getLsbD i) source dest s ∧
      s.NodesApart (.root sending) (.root receiving) ∧
      s.Phase (.root sending) (.root receiving) (n + 1) ∧
      Settles (fun fuel =>
        k.transferCapability fuel sending receiving sentMessage recvBuffer i)
        ({ k with space := s }.modifyMessage recvBuffer fun m => { m with
          transferredCapabilities := m.transferredCapabilities ||| BitVec.twoPow 8 i }) := by
  by_cases hdepth : ((k.messages sentMessage).capabilities.get i).depth = 0 ∨
      ((k.messages recvBuffer).capabilities.get i).depth = 0
  · refine .inl ⟨?_, .of_eq fun fuel => ?_⟩
    · rintro ⟨source, dest, htransferable⟩
      exact hdepth.elim htransferable.sent htransferable.received
    · unfold transferCapability
      simp only
      rw [if_pos hdepth]
  obtain ⟨found, kinds, hlookUp, hlocked, hbelow, hslot⟩ :=
    lookUpCapabilityAbsolute_settles h.senderFound h.spaces.firstTree
      ((k.messages sentMessage).capabilities.get i)
  simp only [transferCapability, if_neg hdepth]
  cases found with
  | none =>
      have hkinds : kinds = k.kinds := hlocked
      subst hkinds
      refine .inl ⟨?_, hlookUp.bind (.of_eq fun _ => rfl)⟩
      rintro ⟨source, dest, htransferable⟩
      obtain ⟨r, hr, -⟩ := (hslot source).mp htransferable.atSource
      cases hr
  | some r =>
      by_cases hvalid : (k.space.slots r.slot).handlers = none ∨
          ((k.messages sentMessage).toCopy.getLsbD i = true ∧
            (k.space.slots r.slot).handlers = some .node)
      · refine .inl ⟨?_, hlookUp.bind (.of_eq fun _ => ?_)⟩
        · rintro ⟨source, dest, htransferable⟩
          obtain ⟨r', hr', rfl⟩ := (hslot source).mp htransferable.atSource
          cases hr'
          exact hvalid.elim htransferable.occupied fun hnode =>
            htransferable.copyable hnode.1 hnode.2
        · simp only [if_pos hvalid]
          exact congrArg some (unlockLookedUpCapability_locked hlocked)
      obtain ⟨found', kinds', hlookUp', hlocked', hbelow', hslot'⟩ :=
        lookUpCapabilityAbsolute_settles (k := { k with kinds := kinds })
          (h.receiverFound.congr rfl rfl) h.spaces.secondTree
          ((k.messages recvBuffer).capabilities.get i)
      simp only [slotOf_kinds] at hslot'
      cases found' with
      | none =>
          have hkinds : kinds' = kinds := hlocked'
          subst hkinds
          refine .inl ⟨?_, hlookUp.bind ?_⟩
          · rintro ⟨source, dest, htransferable⟩
            obtain ⟨r', hr', -⟩ := (hslot' dest).mp htransferable.atDest
            cases hr'
          · simp only [if_neg hvalid]
            refine hlookUp'.bind (.of_eq fun _ => ?_)
            exact congrArg some (unlockLookedUpCapability_locked hlocked)
      | some r' =>
          have hunlock := unlock_both hlocked hlocked'
          by_cases hempty : (k.space.slots r'.slot).handlers = none
          · have htransferable : k.Transferable sending receiving sentMessage recvBuffer i
                r.slot r'.slot := by
              refine ⟨fun hnone => hdepth (.inl hnone), fun hnone => hdepth (.inr hnone),
                (hslot _).mpr ⟨r, rfl, rfl⟩, fun hnone => hvalid (.inl hnone),
                fun hcopy hnode => hvalid (.inr ⟨hcopy, hnode⟩), (hslot' _).mpr ⟨r', rfl, rfl⟩,
                hempty⟩
            obtain ⟨s, hs, hover, hapart, hphase⟩ := Space.transferSlot_settles h.phase hn h.spaces
              (htransferable.entry (hbelow r rfl) (hbelow' r' rfl))
              ({ k with kinds := kinds }.threadAddress receiving
                ((k.messages recvBuffer).capabilities.get i))
            refine .inr ⟨r.slot, r'.slot, s, htransferable, hover, hapart, hphase,
              hlookUp.bind ?_⟩
            simp only [if_neg hvalid]
            refine hlookUp'.bind ?_
            simp only [hempty, ne_eq, not_true_eq_false, if_false]
            obtain ⟨enough, hs⟩ := hs
            refine ⟨enough, fun fuel hfuel => ?_⟩
            simp only [hs fuel hfuel, Option.map_some, unlockLookedUpCapability, modifyMessage,
              hunlock]
          · refine .inl ⟨?_, hlookUp.bind ?_⟩
            · rintro ⟨source, dest, htransferable⟩
              obtain ⟨r'', hr'', rfl⟩ := (hslot' dest).mp htransferable.atDest
              cases hr''
              exact hempty htransferable.empty
            · simp only [if_neg hvalid]
              refine hlookUp'.bind (.of_eq fun _ => ?_)
              simp only [ne_eq, hempty, not_false_eq_true, if_true, unlockLookedUpCapability,
                hunlock]

/-- Entries are processed one by one, whatever they name. -/
theorem BeforeEntry.transfers (h : k.BeforeEntry sending receiving n) (hn : n < 4)
    (sentMessage recvBuffer : Addr) (i : Fin ipcCapabilitySlots) :
    ∃ k', Settles (fun fuel =>
        k.transferCapability fuel sending receiving sentMessage recvBuffer i) k' ∧
      k.TransfersEntry sending receiving sentMessage recvBuffer i k' ∧
      k'.BeforeEntry sending receiving (n + 1) := by
  rcases transferCapability_settles h hn sentMessage recvBuffer i with ⟨hnot, hsettles⟩ |
    ⟨source, dest, s, htransferable, hover, hapart, hphase, hsettles⟩
  · refine ⟨k, hsettles, ⟨fun source dest htransferable => ?_, fun _ => rfl, fun j => ?_,
      transferred_kinds recvBuffer k k.kinds, rfl⟩,
      ⟨h.senderFound, h.receiverFound, h.spaces, h.phase.later⟩⟩
    · exact absurd ⟨source, dest, htransferable⟩ hnot
    · simp [hnot]
  · refine ⟨_, hsettles, ⟨fun source' dest' htransferable' => ?_, fun hnot => ?_, fun j => ?_,
      ⟨s, k.kinds, _, rfl⟩, rfl⟩,
      ⟨h.senderFound.congr rfl rfl, h.receiverFound.congr rfl rfl, hapart, hphase⟩⟩
    · rw [htransferable'.atSource.unique htransferable.atSource,
        htransferable'.atDest.unique htransferable.atDest]
      exact hover
    · exact absurd ⟨source, dest, htransferable⟩ hnot
    · have hi : (i : Nat) < 8 := Nat.lt_trans i.isLt (by decide)
      simp only [modifyMessage, Function.update_self, BitVec.getLsbD_or, BitVec.getLsbD_twoPow,
        hi, decide_true, Bool.true_and, Bool.or_eq_true, decide_eq_true_eq]
      refine or_congr_right ⟨fun heq => ⟨heq.symm, source, dest, htransferable⟩,
        fun heq => heq.1.symm⟩

/-- The states between the entries. -/
theorem BeforeEntry.states (h : k.BeforeEntry sending receiving n)
    (sentMessage recvBuffer : Addr) (is : List (Fin ipcCapabilitySlots))
    (hn : n + is.length ≤ 4) :
    ∃ states : Nat → Kernel, states 0 = k ∧
      Settles (fun fuel => is.foldlM (fun k i =>
        k.transferCapability fuel sending receiving sentMessage recvBuffer i) k)
        (states is.length) ∧
      ∀ j i, is[j]? = some i → (states j).TransfersEntry sending receiving sentMessage recvBuffer i
        (states (j + 1)) := by
  induction is generalizing k n with
  | nil => exact ⟨fun _ => k, rfl, .of_eq fun _ => rfl, fun j i hi => by cases hi⟩
  | cons i is ih =>
      rw [List.length_cons] at hn
      obtain ⟨k₁, hfirst, hentry, hbefore⟩ := h.transfers (by omega) sentMessage recvBuffer i
      obtain ⟨states, hstart, hsettles, hentries⟩ := ih hbefore (by omega)
      refine ⟨fun j => Nat.casesOn j k states, rfl, hfirst.bind hsettles, fun j i' hi' => ?_⟩
      cases j with
      | zero =>
          obtain rfl : i = i' := by simpa using hi'
          rw [← hstart] at hentry
          exact hentry
      | succ j => exact hentries j i' (by simpa using hi')

/-- Every entry whose slots are as they have to be hands over its capability, and no other
one does anything.  The flags tell which did, and all locks are as before. -/
theorem transferCapabilities_exact (h : k.SpacesApart sending receiving)
    (sentMessage recvBuffer : Addr) :
    ∃ states : Nat → Kernel,
      states 0 = k.modifyMessage recvBuffer (fun m => { m with transferredCapabilities := 0 }) ∧
      Settles (fun fuel => k.transferCapabilities fuel sending receiving sentMessage recvBuffer)
        (states ipcCapabilitySlots) ∧
      (∀ i : Fin ipcCapabilitySlots, (states i).TransfersEntry sending receiving sentMessage
        recvBuffer i (states (i + 1))) ∧
      (∀ i : Fin ipcCapabilitySlots,
        ((states ipcCapabilitySlots).messages recvBuffer).transferredCapabilities.getLsbD i = true ↔
          ∃ source dest, (states i).Transferable sending receiving sentMessage recvBuffer i
            source dest) ∧
      (states ipcCapabilitySlots).kinds = k.kinds := by
  have hbefore : (k.modifyMessage recvBuffer fun m =>
      { m with transferredCapabilities := 0 }).BeforeEntry sending receiving 0 :=
    ⟨h.senderFound.congr rfl rfl, h.receiverFound.congr rfl rfl, h.spaces, .linked h.lists⟩
  obtain ⟨states, hstart, hsettles, hentries⟩ :=
    hbefore.states sentMessage recvBuffer (List.finRange ipcCapabilitySlots) (by decide)
  rw [List.length_finRange] at hsettles
  have hentry : ∀ i : Fin ipcCapabilitySlots, (states i).TransfersEntry sending receiving
      sentMessage recvBuffer i (states (i + 1)) :=
    fun i => hentries i i (by simp)
  have hflags : ∀ m ≤ ipcCapabilitySlots, ∀ i : Fin ipcCapabilitySlots,
      ((states m).messages recvBuffer).transferredCapabilities.getLsbD i = true ↔
        i < m ∧ ∃ source dest, (states i).Transferable sending receiving sentMessage recvBuffer i
          source dest := by
    intro m hm i
    induction m with
    | zero => simp [hstart, modifyMessage]
    | succ m ih =>
        rw [(hentry ⟨m, hm⟩).flags, ih (Nat.le_of_succ_le hm), Nat.lt_succ_iff_lt_or_eq,
          or_and_right]
        refine or_congr_right (and_congr_right fun heq => ?_)
        obtain rfl : i = ⟨m, hm⟩ := Fin.ext heq
        rfl
  have hlocks : ∀ m ≤ ipcCapabilitySlots, (states m).kinds = k.kinds := by
    intro m hm
    induction m with
    | zero => rw [hstart]; rfl
    | succ m ih => exact (hentry ⟨m, hm⟩).locks.trans (ih (Nat.le_of_succ_le hm))
  refine ⟨states, hstart, hsettles, hentry, fun i => ?_, hlocks _ (Nat.le_refl _)⟩
  rw [hflags _ (Nat.le_refl _)]
  exact and_iff_right i.isLt

/-- Two threads with a node each, and a capability to an endpoint in the sender's one. -/
def twoSpaces : Kernel :=
  { zero with
    space := {
      slots
        | .root 8 => { Capability.zero with
            handlers := some .node
            resource := 16
            flags := ⟨true, false, true⟩
            resourceList := ⟨some (.root 8), some (.root 8), none, none⟩ }
        | .root 24 => { Capability.zero with
            handlers := some .node
            resource := 40
            flags := ⟨true, false, true⟩
            resourceList := ⟨some (.root 24), some (.root 24), none, none⟩ }
        | .node 16 0 => { Capability.zero with
            handlers := some .endpoint
            resource := 32
            flags := ⟨true, false, true⟩
            resourceList := ⟨some (.node 16 0), some (.node 16 0), none, none⟩ }
        | _ => Capability.zero
      nodes := fun _ => ⟨2, 1⟩
      updateRefs := fun _ => .capability .zero
      objects := fun b =>
        if b = 8 ∨ b = 24 then some .thread
        else if b = 16 ∨ b = 40 then some .node
        else if b = 32 then some .endpoint
        else none }
    threads := fun t => { ThreadCapability.zero with threadId := t, bucketNumber := t }
    threadHashTable := fun i => if i = 8 ∨ i = 24 then ⟨some i, some i⟩ else .empty
    messages := fun _ =>
      ⟨Vector.replicate _ 0, Vector.replicate _ ⟨0, 2⟩, 0, 0, 0⟩ }

theorem twoSpaces_live (p : SlotPtr) : twoSpaces.space.Live p ↔
    p ∈ [SlotPtr.root 8, .root 24, .node 16 0] := by
  constructor
  · intro hp
    have hfull := hp.2
    revert hfull
    simp only [twoSpaces]
    split <;> simp [Capability.zero]
  · intro hp
    revert p
    decide

theorem twoSpaces_hasSlot {p q : SlotPtr} (h : twoSpaces.space.HasSlot p q) :
    (p = .root 8 ∧ ∃ i < 4, q = .node 16 i) ∨ p = .root 24 ∧ ∃ i < 4, q = .node 40 i := by
  obtain ⟨hnode, i, hi, rfl⟩ := h
  revert hnode hi
  unfold Space.resource
  simp only [twoSpaces]
  split <;> simp [Capability.zero]

/-- What is below the root capabilities. -/
theorem twoSpaces_below {q : SlotPtr} :
    (twoSpaces.space.Holds (.root 8) q → q = .root 8 ∨ ∃ i < 4, q = .node 16 i) ∧
      (twoSpaces.space.Holds (.root 24) q → q = .root 24 ∨ ∃ i < 4, q = .node 40 i) ∧
      twoSpaces.space.SlotTree (.root 8) ∧ twoSpaces.space.SlotTree (.root 24) := by
  have hleaf : ∀ root p q, twoSpaces.space.HasSlot root p → ¬twoSpaces.space.HasSlot p q := by
    intro root p q hp hq
    rcases twoSpaces_hasSlot hp with ⟨-, i, -, rfl⟩ | ⟨-, i, -, rfl⟩
    · rcases twoSpaces_hasSlot hq with ⟨heq, -⟩ | ⟨heq, -⟩ <;> cases heq
    · rcases twoSpaces_hasSlot hq with ⟨heq, -⟩ | ⟨heq, -⟩ <;> cases heq
  have hfirst : ∀ q, twoSpaces.space.Holds (.root 8) q →
      q = .root 8 ∨ ∃ i < 4, q = .node 16 i := by
    intro q hq
    refine (below_shallow (hleaf _) (Space.holds_iff_below.mp hq)).imp_right fun hq => ?_
    rcases twoSpaces_hasSlot hq with ⟨-, hslot⟩ | ⟨heq, -⟩
    · exact hslot
    · cases heq
  have hsecond : ∀ q, twoSpaces.space.Holds (.root 24) q →
      q = .root 24 ∨ ∃ i < 4, q = .node 40 i := by
    intro q hq
    refine (below_shallow (hleaf _) (Space.holds_iff_below.mp hq)).imp_right fun hq => ?_
    rcases twoSpaces_hasSlot hq with ⟨heq, -⟩ | ⟨-, hslot⟩
    · cases heq
    · exact hslot
  have hself : ∀ t, ¬twoSpaces.space.HasSlot (.root t) (.root t) := by
    intro t ht
    rcases twoSpaces_hasSlot ht with ⟨-, i, -, heq⟩ | ⟨-, i, -, heq⟩ <;> cases heq
  refine ⟨hfirst q, hsecond q, ⟨fun q hq => ?_, isTree_shallow (hleaf _) (hself 8)⟩,
    ⟨fun q hq => ?_, isTree_shallow (hleaf _) (hself 24)⟩⟩
  · rcases hfirst q hq with rfl | ⟨i, hi, rfl⟩
    · decide
    · exact ⟨rfl, hi⟩
  · rcases hsecond q hq with rfl | ⟨i, hi, rfl⟩
    · decide
    · exact ⟨rfl, hi⟩

theorem twoSpaces_wellLinked : twoSpaces.space.WellLinked := by
  have hcases : ∀ p, twoSpaces.space.Live p → p = .root 8 ∨ p = .root 24 ∨ p = .node 16 0 :=
    fun p hp => by simpa using (twoSpaces_live p).mp hp
  have hunderived : ∀ p, (twoSpaces.space.slots p).derivedFrom = none ∧
      (twoSpaces.space.slots p).derivation = none ∧ twoSpaces.space.derivationLinks p = .empty := by
    intro p
    unfold Space.derivationLinks
    simp only [twoSpaces]
    split <;> exact ⟨rfl, rfl, rfl⟩
  constructor
  · intro p hp
    refine ⟨[p], dlist_singleton.mpr ?_, fun q => ?_⟩
    · rcases hcases p hp with rfl | rfl | rfl <;> rfl
    · rw [List.mem_singleton]
      constructor
      · rintro rfl
        exact ⟨hp, rfl⟩
      rintro ⟨hq, hresource⟩
      rcases hcases p hp with rfl | rfl | rfl <;> rcases hcases q hq with rfl | rfl | rfl <;>
        first | rfl | cases hresource
  · exact fun q _ => .inl (hunderived q).2.2
  · intro p q _ hderived
    rw [(hunderived q).1] at hderived
    cases hderived
  · intro p hp _
    refine ⟨[], ⟨.nil, trivial, trivial, by simp, by simp⟩, (hunderived p).2.1, fun q => ?_⟩
    refine iff_of_false List.not_mem_nil fun hchild => ?_
    have hderived := hchild.2.2
    rw [(hunderived q).1] at hderived
    cases hderived
  · exact fun p _ _ => (hunderived p).2.1

theorem twoSpaces_apart : twoSpaces.SpacesApart 8 24 where
  senderFound := .of_succ (g := fun _ => some (some 8)) (fun _ => rfl) (.of_eq fun _ => rfl)
  receiverFound := .of_succ (g := fun _ => some (some 24)) (fun _ => rfl) (.of_eq fun _ => rfl)
  spaces := by
    obtain ⟨-, -, hfirst, hsecond⟩ := @twoSpaces_below (.root 8)
    refine ⟨hfirst, hsecond, fun q hq hq' => ?_⟩
    rcases twoSpaces_below.1 hq with rfl | ⟨i, -, rfl⟩
    · rcases twoSpaces_below.2.1 hq' with heq | ⟨j, -, heq⟩ <;> cases heq
    · rcases twoSpaces_below.2.1 hq' with heq | ⟨j, -, heq⟩ <;> cases heq
  lists := twoSpaces_wellLinked

/-- The first entry hands over the capability, and the others find its slot empty. -/
theorem transferCapabilities_exact_twoSpaces :
    (∃ states : Nat → Kernel,
      states 0 = twoSpaces.modifyMessage 72 (fun m => { m with transferredCapabilities := 0 }) ∧
      Settles (fun fuel => twoSpaces.transferCapabilities fuel 8 24 64 72)
        (states ipcCapabilitySlots) ∧
      (∀ i : Fin ipcCapabilitySlots, (states i).TransfersEntry 8 24 64 72 i (states (i + 1))) ∧
      (∀ i : Fin ipcCapabilitySlots,
        ((states ipcCapabilitySlots).messages 72).transferredCapabilities.getLsbD i = true ↔
          ∃ source dest, (states i).Transferable 8 24 64 72 i source dest) ∧
      (states ipcCapabilitySlots).kinds = twoSpaces.kinds) ∧
    (twoSpaces.transferCapabilities 4 8 24 64 72).map (fun k =>
      ((k.messages 72).transferredCapabilities, (k.space.slots (.node 16 0)).handlers,
        (k.space.slots (.node 40 0)).handlers)) = some (1, none, some .endpoint) :=
  ⟨transferCapabilities_exact twoSpaces_apart 64 72, by decide +kernel⟩

end Kernel

end Cenix
