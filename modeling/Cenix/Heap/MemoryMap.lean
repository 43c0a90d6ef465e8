import Cenix.Console.Video
import Cenix.Heap.Holders
import Cenix.Heap.Reserving

namespace Cenix

/-! The heap when the kernel boots. -/

/-- `struct init_block` -/
structure InitBlock where
  kernelStart : Nat
  kernelEnd : Nat
  memoryStart : Nat
  memoryEnd : Nat
  deriving DecidableEq, Repr

namespace Heap

/-- The block is told where the heap begins after all. -/
def heapInit (fuel : Nat) (h : Heap) (initBlock : InitBlock) : Option (Heap × InitBlock) := do
  let h := { h with
    totalMemory := subSize initBlock.memoryEnd initBlock.memoryStart
    usedMemory := 0 }
  let headerStart := initBlock.memoryStart
  let headerEnd := wrap (headerStart + sizeofHeapHeader)
  let (h, initBlock) :=
    if initBlock.kernelStart ≤ headerEnd ∧ headerStart < initBlock.kernelEnd then
      (h.use (subSize initBlock.kernelEnd initBlock.memoryStart),
        { initBlock with memoryStart := initBlock.kernelEnd })
    else
      (h, initBlock)
  let header := initBlock.memoryStart
  let h := h.writeHeader header
    { size := subSize initBlock.memoryEnd header, kind := .available, oldKind := .available,
      updateRef := .absolute none, next := none, prev := none }
  let h := { h with heapBase := if header = 0 then none else some header }
  let h ← h.heapLockExistingRegion fuel initBlock.kernelStart initBlock.kernelEnd
  some (h, initBlock)

end Heap

open Heap

/-- `SOUND_LEN` -/
def soundLen : Nat :=
  370

/-- `STACK_SIZE` -/
def stackSize : Nat :=
  4096

/-- `_end` and what the low memory globals say. -/
structure MemoryMap where
  kernelEnd : Nat
  memTop : Nat
  screen : Console.Screen 32
  soundBase : Nat

namespace MemoryMap

variable (m : MemoryMap)

/-- What `lock_video_memory` locks. -/
def videoMemory : Nat × Nat :=
  (m.screen.base.toNat, wrap (m.screen.base.toNat + m.screen.videoMemoryLength))

def sound : Nat × Nat :=
  (m.soundBase, wrap (m.soundBase + soundLen))

/-- `SOUND_BASE` is that of the one or of the other sound buffer. -/
def alternateSound : List (Nat × Nat) :=
  let offset := 0xfd00 - 0xa100
  if m.soundBase % 2 ^ 16 = 0xfd00 then
    [(subSize m.soundBase offset, wrap (subSize m.soundBase offset + soundLen))]
  else if m.soundBase % 2 ^ 16 = 0xa100 then
    [(wrap (m.soundBase + offset), wrap (m.soundBase + offset + soundLen))]
  else
    []

/-- In the order in which they are locked. -/
def regions : List (Nat × Nat) :=
  m.videoMemory :: m.sound :: m.alternateSound

/-- `_start` and `after_sp_set` up to `main_init`, with the new stack pointer. -/
def boot (fuel : Nat) (h : Heap) : Option (Heap × Nat) := do
  let (h, _) ← h.heapInit fuel ⟨0, m.kernelEnd, 0, m.memTop⟩
  let (h, stackRegion) ← heapAlloc fuel h stackSize
  let newStackPointer := wrap (stackRegion.getD 0 + stackSize)
  let h ← m.regions.foldlM (fun h region => h.heapLockExistingRegion fuel region.1 region.2) h
  some (h, newStackPointer)

end MemoryMap

/-- A heap whose only block is available. -/
def InitBlock.free (initBlock : InitBlock) : Block where
  address := initBlock.kernelEnd
  size := initBlock.memoryEnd - initBlock.kernelEnd
  kind := .available
  oldKind := .available
  updateRef := .absolute none

/-- Where the kernel is in the way of the first header, the heap begins behind the kernel. -/
structure InitBlock.Behind (initBlock : InitBlock) : Prop where
  overlaps : initBlock.kernelStart ≤ wrap (initBlock.memoryStart + sizeofHeapHeader)
  inside : initBlock.memoryStart < initBlock.kernelEnd
  room : initBlock.kernelEnd + sizeofHeapHeader < initBlock.memoryEnd
  bounded : initBlock.memoryEnd < 2 ^ 32

/-! The heap is divided by the blocks that are locked. -/

namespace Heap

variable {locked : List Block} {first last margin finish : Nat} {b c : Block}

/-- From `first` to `last` there are the blocks `locked`, and everything between two of them
is one available block. -/
structure Carved (first last : Nat) (locked : List Block) (h : Heap) (l : List Block) :
    Prop where
  wellFormed : WellFormed h l
  accounts : surplus h l = 0
  covered : ∀ x, Covered l x ↔ first ≤ x ∧ x < last
  immovable : ∀ b ∈ locked, b ∈ l ∧ b.kind = .immovable
  available : ∀ b ∈ l, b ∈ locked ∨ b.kind = .available
  alternating : l.IsChain fun b c => b.kind ≠ .available ∨ c.kind ≠ .available

theorem gapsReserved_of_covered (hcovered : ∀ x, Covered l x ↔ first ≤ x ∧ x < last)
    (reserved : List Block) : GapsReserved reserved l := by
  intro x y hx hy hxy hgap
  have hbegin := (hcovered x).mp hx
  have hend := (hcovered y).mp hy
  exact absurd ((hcovered (x + 1)).mpr ⟨by omega, by omega⟩) (hgap (x + 1) (by omega) hxy)

theorem Carved.neighbours (hc : Carved first last locked h (pre ++ b :: c :: post)) :
    b.finish = c.address ∧ (b.kind ≠ .available ∨ c.kind ≠ .available) := by
  have hgaps := gapsReserved_of_covered hc.covered []
  constructor
  · rcases hgaps.neighbours hc.wellFormed.ordered (fun b hb => nomatch hb) rfl with hb | hb | heq
    · cases hb
    · cases hb
    · exact heq
  · exact (List.isChain_iff_forall_rel_of_append_cons_cons.mp hc.alternating) rfl

theorem Carved.first_address (hc : Carved first last locked h (b :: post)) :
    b.address = first := by
  have ho := hc.wellFormed.ordered
  have hlarger := ho.larger b (by simp)
  have hb := (hc.covered b.address).mp
    ⟨b, by simp, Nat.le_refl _, by unfold Block.finish; omega⟩
  obtain ⟨c, hcl, hfirst, -⟩ := (hc.covered first).mpr ⟨Nat.le_refl _, by omega⟩
  rcases ho.first_before rfl hcl with rfl | hbefore
  · omega
  · unfold Block.finish at hbefore
    omega

theorem Carved.last_finish (hc : Carved first last locked h (pre ++ [b])) : b.finish = last := by
  have ho := hc.wellFormed.ordered
  have hlarger := ho.larger b (by simp)
  have hb := (hc.covered (b.finish - 1)).mp
    ⟨b, by simp, by unfold Block.finish; omega, by unfold Block.finish; omega⟩
  obtain ⟨c, hcl, -, hlast⟩ := (hc.covered (last - 1)).mpr ⟨by omega, by omega⟩
  have hlastBlock : (pre ++ [b]).getLast? = some b := by simp
  rcases ho.last_after hlastBlock hcl with rfl | hafter
  · omega
  · unfold Block.finish at *
    omega

/-- A region that is clear of the blocks that are locked is in one of the others. -/
theorem Carved.encloses (hc : Carved first last locked h l)
    (hfirst : first + sizeofHeapHeader < margin) (hregion : margin + sizeofHeapHeader < finish)
    (hlast : finish + sizeofHeapHeader < last)
    (hclear : ∀ b ∈ locked, b.finish + sizeofHeapHeader < margin ∨
      finish + sizeofHeapHeader < b.address) :
    ∃ pre b post, l = pre ++ b :: post ∧ b.kind = .available ∧ b.Encloses margin finish := by
  obtain ⟨b, hb, hbegin, hend⟩ := (hc.covered margin).mpr ⟨by omega, by omega⟩
  obtain ⟨pre, post, rfl⟩ := List.append_of_mem hb
  have hkind : b.kind = .available := by
    refine (hc.available b hb).resolve_left fun hlocked => ?_
    rcases hclear b hlocked with hbefore | hbehind <;> omega
  refine ⟨pre, b, post, rfl, hkind, ?_, hregion, ?_⟩
  · rcases List.eq_nil_or_concat' pre with rfl | ⟨pre, p, rfl⟩
    · have haddress := Carved.first_address hc
      omega
    · have hshape : (pre ++ [p]) ++ b :: post = pre ++ p :: b :: post := by simp
      obtain ⟨hcontiguous, hkinds⟩ := (hshape ▸ hc).neighbours
      have hp := (hc.available p (by simp)).resolve_right
        (hkinds.resolve_right fun hne => hne hkind)
      have hlarger := hc.wellFormed.ordered.larger p (by simp)
      rcases hclear p hp with hbefore | hbehind
      · omega
      · unfold Block.finish at hcontiguous
        omega
  · cases post with
    | nil =>
        have hfinish := Carved.last_finish hc
        omega
    | cons q post =>
        obtain ⟨hcontiguous, hkinds⟩ := hc.neighbours
        have hq := (hc.available q (by simp)).resolve_right
          (hkinds.resolve_left fun hne => hne hkind)
        have hlarger := hc.wellFormed.ordered.larger q (by simp)
        rcases hclear q hq with hbefore | hbehind
        · unfold Block.finish at *
          omega
        · omega

/-- It is locked, with its header in front of it. -/
theorem Carved.locks (hc : Carved first last locked h l) {start : Nat}
    (hstart : first + 2 * sizeofHeapHeader < start) (hregion : start < finish)
    (hlast : finish + sizeofHeapHeader < last)
    (hclear : ∀ b ∈ locked, b.finish + 2 * sizeofHeapHeader < start ∨
      finish + sizeofHeapHeader < b.address) :
    ∃ n h' b l', (∀ fuel, heapLockExistingRegion (fuel + n) h start finish = some h') ∧
      b.pointer = start ∧ b.finish = finish ∧ Carved first last (b :: locked) h' l' := by
  obtain ⟨pre, b, post, rfl, hkind, hencloses⟩ : ∃ pre b post, l = pre ++ b :: post ∧
      b.kind = .available ∧ b.Encloses (start - sizeofHeapHeader) finish :=
    hc.encloses (by omega) (by omega) hlast fun b hb => (hclear b hb).imp (by omega) id
  obtain ⟨n, h', hlocks, hreserves⟩ :=
    heapLockExistingRegion_reserves hc.wellFormed hkind (by omega) hencloses
  have hbegin := hencloses.front
  have hmem : ∀ c ∈ pre ++ b :: post, c = b ∨
      c ∈ pre ++ b.around (start - sizeofHeapHeader) finish ++ post := by
    intro c hc
    simp only [List.mem_append, List.mem_cons] at hc ⊢
    tauto
  refine ⟨n, h', b.reserved (start - sizeofHeapHeader) finish, _, hlocks, ?_, ?_,
    hreserves.wellFormed, hreserves.surplus.trans hc.accounts,
    fun x => (hreserves.covered x).trans (hc.covered x), ?_, ?_, ?_⟩
  · simp only [Block.pointer, Block.reserved, Block.locked, Block.cut, Block.remainder]
    omega
  · simp only [Block.finish, Block.reserved, Block.locked, Block.cut, Block.remainder]
    omega
  · intro c hcl
    rcases List.mem_cons.mp hcl with rfl | hcl
    · exact ⟨by simp [Block.around], rfl⟩
    · obtain ⟨hcm, hckind⟩ := hc.immovable c hcl
      refine ⟨(hmem c hcm).resolve_left ?_, hckind⟩
      rintro rfl
      rw [hkind] at hckind
      cases hckind
  · intro c hcl
    simp only [Block.around, List.mem_append, List.mem_cons, List.not_mem_nil, or_false] at hcl ⊢
    rcases hcl with (hcl | rfl | rfl | rfl) | hcl
    · exact (hc.available c (by simp [hcl])).imp .inr id
    · exact .inr hkind
    · exact .inl (.inl rfl)
    · exact .inr rfl
    · exact (hc.available c (by simp [hcl])).imp .inr id
  · obtain ⟨hpre, hchain, hbetween⟩ := List.isChain_append.mp hc.alternating
    obtain ⟨hbehind, hpost⟩ := List.isChain_cons.mp hchain
    refine List.IsChain.append (List.IsChain.append hpre (by simp [Block.around, Block.reserved,
      Block.locked]) ?_) hpost ?_
    · intro p hp q hq
      cases hq
      exact hbetween p hp b rfl
    · intro p hp q hq
      have hp : (b.remainder (start - sizeofHeapHeader - b.address)).remainder
          (finish - (start - sizeofHeapHeader)) = p := by simpa [Block.around] using hp
      rw [← hp]
      exact (hbehind q hq).imp (fun hne => absurd hkind hne) id

/-- So are all the regions, one after the other. -/
theorem Carved.locks_all (hc : Carved first last locked h l) {regions : List (Nat × Nat)}
    (hinside : ∀ region ∈ regions, first + 2 * sizeofHeapHeader < region.1 ∧
      region.1 < region.2 ∧ region.2 + sizeofHeapHeader < last)
    (hclear : ∀ region ∈ regions, ∀ b ∈ locked, b.finish + 2 * sizeofHeapHeader < region.1 ∨
      region.2 + sizeofHeapHeader < b.address)
    (hapart : regions.Pairwise fun r r' => r.2 + 2 * sizeofHeapHeader < r'.1 ∨
      r'.2 + 2 * sizeofHeapHeader < r.1) :
    ∃ n h' locked' l', (∀ fuel, regions.foldlM
        (fun h region => h.heapLockExistingRegion (fuel + n) region.1 region.2) h = some h') ∧
      Carved first last locked' h' l' ∧ (∀ b ∈ locked, b ∈ locked') ∧
      ∀ region ∈ regions, ∃ b ∈ locked', b.pointer = region.1 ∧ b.finish = region.2 := by
  induction regions generalizing h l locked with
  | nil => exact ⟨0, h, locked, l, fun _ => rfl, hc, fun _ hb => hb, fun _ hr => nomatch hr⟩
  | cons region regions ih =>
      obtain ⟨hfirst, hregion, hlast⟩ := hinside region (by simp)
      obtain ⟨n, h₁, b, l₁, hlocks, hstart, hfinish, hc₁⟩ :=
        hc.locks hfirst hregion hlast (hclear region (by simp))
      have hpairs := List.pairwise_cons.mp hapart
      have hclear₁ : ∀ r ∈ regions, ∀ c ∈ b :: locked, c.finish + 2 * sizeofHeapHeader < r.1 ∨
          r.2 + sizeofHeapHeader < c.address := by
        intro r hr c hcl
        rcases List.mem_cons.mp hcl with rfl | hcl
        · unfold Block.pointer at hstart
          have hrr := hpairs.1 r hr
          omega
        · exact hclear r (by simp [hr]) c hcl
      obtain ⟨m, h₂, locked₂, l₂, hrest, hc₂, hkept, hall⟩ :=
        ih hc₁ (fun r hr => hinside r (by simp [hr])) hclear₁ hpairs.2
      refine ⟨n + m, h₂, locked₂, l₂, ?_, hc₂, fun c hcl => hkept c (by simp [hcl]), ?_⟩
      · intro fuel
        have hfirst := hlocks (fuel + m)
        have hothers := hrest (fuel + n)
        rw [Nat.add_right_comm, Nat.add_assoc] at hfirst
        rw [Nat.add_assoc] at hothers
        rw [List.foldlM_cons, hfirst]
        exact hothers
      · intro r hr
        rcases List.mem_cons.mp hr with rfl | hr
        · exact ⟨b, hkept b (by simp), hstart, hfinish⟩
        · exact hall r hr

/-- A heap with a single block of which all is available. -/
theorem carved_single (hbase : h.heapBase = some b.address)
    (hheader : h.headers b.address = some (b.contents none none)) (hkind : b.kind = .available)
    (hlarger : sizeofHeapHeader < b.size) (hbounded : b.finish < 2 ^ 32)
    (hmemory : h.availableMemory = b.size) : Carved b.address b.finish [] h [b] where
  wellFormed := {
    nonempty := by simp
    base := hbase
    linked := ⟨hheader, trivial⟩
    ordered := ⟨by simp, by simpa using hlarger, fun c hc => List.mem_singleton.mp hc ▸ hbounded⟩
    adjoining := by simp }
  accounts := by
    have hfree : total Block.free [b] = b.size := by simp [Block.free, hkind]
    unfold surplus
    unfold Block.finish at hbounded
    rw [hmemory, hfree, subSize_of_le (Nat.le_refl _) (by omega), Nat.sub_self]
  covered := by
    intro x
    have hspans : Spans b.address [b] b.finish := ⟨rfl, rfl⟩
    exact hspans.covered_iff
  immovable := by simp
  available := by simp [hkind]
  alternating := by simp

/-- What `heap_init` has made of the heap when it locks the kernel. -/
def begun (h : Heap) (initBlock : InitBlock) : Heap :=
  { (({ h with
      totalMemory := subSize initBlock.memoryEnd initBlock.memoryStart
      usedMemory := 0 } : Heap).use
        (subSize initBlock.kernelEnd initBlock.memoryStart)).writeHeader initBlock.kernelEnd
          (initBlock.free.contents none none) with
    heapBase := some initBlock.kernelEnd }

theorem heapInit_begun {initBlock : InitBlock} (hi : initBlock.Behind) (fuel : Nat) (h : Heap) :
    h.heapInit fuel initBlock = ((h.begun initBlock).heapLockExistingRegion fuel
      initBlock.kernelStart initBlock.kernelEnd).map
        fun h => (h, { initBlock with memoryStart := initBlock.kernelEnd }) := by
  obtain ⟨hoverlaps, hinside, hroom, hbounded⟩ := hi
  have hpositive : ¬initBlock.kernelEnd = 0 := by omega
  have hfree : subSize initBlock.memoryEnd initBlock.kernelEnd = initBlock.free.size :=
    subSize_of_le (by omega) hbounded
  unfold heapInit
  simp only [hoverlaps, hinside, and_self, if_true, hfree, if_neg hpositive]
  exact Option.bind_eq_bind .. ▸ (Option.map_eq_bind ..).symm

theorem heapInit_carves {initBlock : InitBlock} (hi : initBlock.Behind) (h : Heap) :
    ∃ n h', (∀ fuel, h.heapInit (fuel + n) initBlock =
        some (h', { initBlock with memoryStart := initBlock.kernelEnd })) ∧
      Carved initBlock.kernelEnd initBlock.memoryEnd [] h' [initBlock.free] ∧
      h'.availableMemory = initBlock.free.size := by
  have hinit := heapInit_begun hi
  obtain ⟨hoverlaps, hinside, hroom, hbounded⟩ := hi
  have hfinish : initBlock.free.finish = initBlock.memoryEnd := by
    simp only [InitBlock.free, Block.finish]
    omega
  have hsize : initBlock.free.size = initBlock.memoryEnd - initBlock.kernelEnd := rfl
  have hmemory : (h.begun initBlock).availableMemory = initBlock.free.size := by
    change subSize (subSize initBlock.memoryEnd initBlock.memoryStart)
      (wrap (0 + subSize initBlock.kernelEnd initBlock.memoryStart)) = _
    unfold subSize wrap
    omega
  have hc : Carved initBlock.free.address initBlock.free.finish [] (h.begun initBlock)
      [initBlock.free] :=
    carved_single rfl writeHeader_headers_self rfl (by omega) (by omega) hmemory
  rw [hfinish] at hc
  obtain ⟨n, hn⟩ : Advances (subSize initBlock.kernelStart sizeofHeapHeader) initBlock.kernelEnd
      (h.begun initBlock) (firstAddress [initBlock.free] none) (h.begun initBlock) none :=
    Advances.behind hc.wellFormed.linked hc.wellFormed.ordered.bounded (by simp [InitBlock.free])
  refine ⟨n, _, fun fuel => ?_, hc, hmemory⟩
  have hlocks : (h.begun initBlock).heapLockExistingRegion (fuel + n) initBlock.kernelStart
      initBlock.kernelEnd = some (h.begun initBlock) := (hn fuel).trans (lockHeaders_end ..)
  rw [hinit, hlocks]
  rfl

/-- The front of the only block is allocated. -/
theorem Carved.takes (hc : Carved first last [] h [b]) {amount : Nat} {taken : Block}
    (ht : Takes h b [] amount h' taken) (hroom : amount ≤ b.size) :
    Carved first last [taken] h' [taken, b.remainder amount] where
  wellFormed := ht.wellFormed
  accounts := ht.surplus.trans hc.accounts
  covered := by
    intro x
    have hone : Spans b.address [b] b.finish := ⟨rfl, rfl⟩
    have htwo : Spans b.address [taken, b.remainder amount] b.finish := by
      have haddress := ht.address
      have hsize := ht.size
      simp only [Spans, Block.remainder, Block.finish]
      omega
    rw [htwo.covered_iff, ← hc.covered x, hone.covered_iff]
  immovable := by simp [ht.kind]
  available := by simp [Block.remainder]
  alternating := by simp [ht.kind]

end Heap

namespace MemoryMap

variable {m : MemoryMap}

/-- Everything has its place in memory, with room for the headers between. -/
structure Fits (m : MemoryMap) : Prop where
  kernel : 0 < m.kernelEnd
  stack : m.kernelEnd + roundSize stackSize + sizeofHeapHeader < m.memTop
  bounded : m.memTop < 2 ^ 32
  inside : ∀ region ∈ m.regions,
    m.kernelEnd + roundSize stackSize + 2 * sizeofHeapHeader < region.1 ∧
      region.1 < region.2 ∧ region.2 + sizeofHeapHeader < m.memTop
  apart : m.regions.Pairwise fun r r' => r.2 + 2 * sizeofHeapHeader < r'.1 ∨
    r'.2 + 2 * sizeofHeapHeader < r.1

/-- Whatever is done with the heap from then on, no piece of memory that it has given away
has a byte in common with the kernel, the stack or the buffers of the hardware. -/
def Protects (m : MemoryMap) (booted : Heap) (stackPointer : Nat) : Prop :=
  ∀ r, Reaches HeapRecord.step HeapRecord.Allows
      (fun r => r.heap = booted ∧ ∀ holder, r.pointers holder = none) r →
    ∀ holder pointer piece, r.pointers holder = some pointer → r.pieces holder = some piece →
      m.kernelEnd ≤ pointer ∧ pointer + piece.size ≤ m.memTop ∧
        ∀ region ∈ (stackPointer - stackSize, stackPointer) :: m.regions,
          pointer + piece.size ≤ region.1 ∨ region.2 ≤ pointer

theorem Carved.protects {locked : List Block} {booted : Heap} {stackPointer : Nat}
    (hc : Carved m.kernelEnd m.memTop locked booted l)
    (hlocked : ∀ region ∈ (stackPointer - stackSize, stackPointer) :: m.regions,
      ∃ b ∈ locked, b.pointer = region.1 ∧ region.2 ≤ b.finish) :
    m.Protects booted stackPointer := by
  intro r hreaches holder pointer piece hholder hpiece
  have hstarting : ∀ r : HeapRecord, r.heap = booted ∧ (∀ holder, r.pointers holder = none) →
      HeapRecord.Starting locked (fun x => m.kernelEnd ≤ x ∧ x < m.memTop) r := by
    rintro r ⟨rfl, hnone⟩
    exact ⟨l, hc.wellFormed, hc.accounts, gapsReserved_of_covered hc.covered locked, hc.immovable,
      fun x => (hc.covered x).mp, hnone⟩
  obtain ⟨l', ht⟩ : ∃ l', HeapRecord.Tracks locked (fun x => m.kernelEnd ≤ x ∧ x < m.memTop)
      r l' := by
    refine hreaches.invariant (fun r hr => (hstarting r hr).tracks) ?_
    rintro r op r' ⟨l, ht⟩ hallows hstep
    exact ht.step hallows hstep
  obtain ⟨b, hb, hpointer, _, hpiece', hholds⟩ := ht.held holder pointer hholder
  cases hpiece.symm.trans hpiece'
  have hlarger := ht.wellFormed.ordered.larger b hb
  have hsize := hholds.size
  have hbegin := ht.within b.address ⟨b, hb, Nat.le_refl _, by unfold Block.finish; omega⟩
  have hend := ht.within (b.finish - 1)
    ⟨b, hb, by unfold Block.finish; omega, by unfold Block.finish; omega⟩
  unfold Block.pointer at hpointer
  refine ⟨by omega, by unfold Block.finish at hend; omega, ?_⟩
  intro region hregion
  obtain ⟨c, hcl, hstart, hfinish⟩ := hlocked region hregion
  have hapart := ht.kept.reserved c hcl holder pointer piece hholder hpiece
  unfold Block.pointer at hstart
  rcases hapart with hbefore | hbehind
  · exact .inl (by omega)
  · exact .inr (hfinish.trans hbehind)

theorem boot_of {initBlock : InitBlock} {stackRegion : Option Nat} {h₁ h₂ booted : Heap}
    (hinit : h.heapInit fuel ⟨0, m.kernelEnd, 0, m.memTop⟩ = some (h₁, initBlock))
    (halloc : heapAlloc fuel h₁ stackSize = some (h₂, stackRegion))
    (hregions : m.regions.foldlM (fun h region =>
      h.heapLockExistingRegion fuel region.1 region.2) h₂ = some booted) :
    m.boot fuel h = some (booted, wrap (stackRegion.getD 0 + stackSize)) := by
  unfold boot
  rw [hinit, Option.bind_eq_bind, Option.bind_some]
  dsimp only
  rw [halloc, Option.bind_eq_bind, Option.bind_some]
  dsimp only
  rw [hregions]
  rfl

/-- 4 MiB with the screen and the sound buffers at the top. -/
def fourMegabytes : MemoryMap where
  kernelEnd := 0x20000
  memTop := 0x400000
  screen := Console.initConsole 0x3FA700 64 512 342
  soundBase := 0x3FFD00

/-- `the_heap` -/
def theHeap : Heap where
  heapBase := none
  totalMemory := 0
  usedMemory := 0
  headers := fun _ => none
  bytes := fun _ => none
  relocations := []

theorem fourMegabytes_fits : fourMegabytes.Fits := by
  constructor <;> decide

end MemoryMap

end Cenix
