import Cenix.Heap.Termination

namespace Cenix.Heap

/-! The sizes that are asked for, and the sizes of the blocks that are returned. -/

/-- `heap_sizeof` -/
def heapSizeof (h : Heap) (ptr : Nat) : Option Nat :=
  (h.headers (ptr - sizeofHeapHeader)).map fun contents =>
    subSize contents.size sizeofHeapHeader

/-! Capability nodes. -/

/-- `sizeof(struct capability)`, with the members at even offsets. -/
def sizeofCapability : Nat :=
  72

/-- `sizeof(struct capability_node)`: two bytes, and the slots behind them. -/
def sizeofCapabilityNode : Nat :=
  2

/-- A byte is written. A header that it lies in is destroyed. -/
def store (h : Heap) (address : Nat) (value : UInt8) : Heap :=
  { h with
    headers := fun x =>
      if x ≤ address ∧ address < x + sizeofHeapHeader then none else h.headers x
    bytes := Function.update h.bytes address (some value) }

/-- `&node->capabilities[i]` -/
def slotAddress (node i : Nat) : Nat :=
  wrap (node + sizeofCapabilityNode + i * sizeofCapability)

/-- `handlers = NULL` in the slot at the address. -/
def clearHandlers (h : Heap) (slot : Nat) : Heap :=
  (((h.store slot 0).store (slot + 1) 0).store (slot + 2) 0).store (slot + 3) 0

/-- The sanity check of `alloc_node`. -/
def limitSlotBits (slotBits : Nat) : Nat :=
  if 32 ≤ slotBits then 31 else slotBits

def nodeAllocSize (slotBits : Nat) : Nat :=
  wrap (sizeofCapabilityNode + wrap (2 ^ slotBits * sizeofCapability))

/-- What `alloc_node` writes into its block. -/
def initNode (h : Heap) (new slotBits : Nat) : Heap :=
  (List.range (2 ^ slotBits)).foldl (fun h i => h.clearHandlers (slotAddress new i))
    ((h.store new (UInt8.ofNat slotBits)).store (new + 1) 1)

def allocNode (fuel : Nat) (h : Heap) (slotBits : Nat) : Option (Heap × Option Nat) :=
  (heapAlloc fuel h (nodeAllocSize (limitSlotBits slotBits))).map fun
    | (h, none) => (h, none)
    | (h, some new) => (h.initNode new (limitSlotBits slotBits), some new)

theorem limitSlotBits_le (slotBits : Nat) : limitSlotBits slotBits ≤ slotBits := by
  unfold limitSlotBits
  split <;> omega

theorem limitSlotBits_lt (slotBits : Nat) : limitSlotBits slotBits < 32 := by
  unfold limitSlotBits
  split <;> omega

/-! What the users of a block rely on. -/

/-- A block is never smaller than what has been asked for. -/
def SizeSuffices (n : Nat) : Prop :=
  ∀ fuel h l h' p, WellFormed h l → heapAlloc fuel h n = some (h', some p) →
    ∃ size, h'.heapSizeof p = some size ∧ n ≤ size

/-- The block of the node has room for all its slots. -/
structure HoldsSlots (h : Heap) (node slotBits size : Nat) : Prop where
  sizeof : h.heapSizeof node = some size
  enough : sizeofCapabilityNode + 2 ^ slotBits * sizeofCapability ≤ size
  slots : ∀ i < 2 ^ slotBits, node + sizeofCapabilityNode ≤ slotAddress node i ∧
    slotAddress node i + sizeofCapability ≤ node + size

/-- A node is never larger than its block, and initializing it leaves the heap well formed. -/
def NodeSuffices (slotBits : Nat) : Prop :=
  ∀ fuel h l h' new, WellFormed h l → allocNode fuel h slotBits = some (h', some new) →
    ∃ l' size, WellFormed h' l' ∧ HoldsSlots h' new (limitSlotBits slotBits) size

/-! Initializing a node. -/

theorem store_edits (h : Heap) (address : Nat) (value : UInt8) :
    Edits (fun x => x = address) h (h.store address value) where
  headers := by
    intro x hx
    have hapart : ¬ (x ≤ address ∧ address < x + sizeofHeapHeader) :=
      fun hin => hx address hin.1 hin.2 rfl
    simp [store, hapart]
  bytes := by
    intro x hx
    simp [store, Function.update_of_ne hx]
  heapBase := rfl
  totalMemory := rfl
  relocations := rfl

theorem clearHandlers_edits (h : Heap) (slot : Nat) :
    Edits (fun x => slot ≤ x ∧ x < slot + 4) h (h.clearHandlers slot) := by
  have hstore : ∀ (h : Heap) i, i < 4 →
      Edits (fun x => slot ≤ x ∧ x < slot + 4) h (h.store (slot + i) 0) := by
    intro h i hi
    refine (store_edits h (slot + i) 0).mono ?_
    rintro x rfl
    omega
  have h₀ := hstore h 0 (by omega)
  have h₁ := hstore (h.store slot 0) 1 (by omega)
  have h₂ := hstore ((h.store slot 0).store (slot + 1) 0) 2 (by omega)
  exact ((h₀.trans h₁).trans h₂).trans (hstore _ 3 (by omega))

theorem foldl_edits {W : Nat → Prop} {f : Heap → Nat → Heap} {is : List Nat}
    (hf : ∀ h, ∀ i ∈ is, Edits W h (f h i)) (h : Heap) : Edits W h (is.foldl f h) := by
  induction is generalizing h with
  | nil => exact Edits.refl W h
  | cons i is ih =>
      exact (hf h i (by simp)).trans (ih (fun h j hj => hf h j (by simp [hj])) (f h i))

/-- The slots of a node that fits lie behind one another. -/
theorem slotAddress_fits (hfit : node + sizeofCapabilityNode + n * sizeofCapability < 2 ^ 32)
    (hi : i < n) :
    slotAddress node i = node + sizeofCapabilityNode + i * sizeofCapability ∧
      slotAddress node i + sizeofCapability ≤
        node + sizeofCapabilityNode + n * sizeofCapability := by
  have hnext : (i + 1) * sizeofCapability ≤ n * sizeofCapability :=
    Nat.mul_le_mul_right sizeofCapability hi
  have hslot : slotAddress node i = node + sizeofCapabilityNode + i * sizeofCapability := by
    refine wrap_of_lt ?_
    rw [Nat.add_mul] at hnext
    omega
  refine ⟨hslot, ?_⟩
  rw [hslot]
  rw [Nat.add_mul] at hnext
  omega

theorem initNode_edits (h : Heap)
    (hfit : new + sizeofCapabilityNode + 2 ^ slotBits * sizeofCapability < 2 ^ 32) :
    Edits (fun x => new ≤ x ∧
      x < new + sizeofCapabilityNode + 2 ^ slotBits * sizeofCapability)
      h (h.initNode new slotBits) := by
  have hbits := (store_edits h new (UInt8.ofNat slotBits)).mono
    (V := fun x => new ≤ x ∧ x < new + sizeofCapabilityNode + 2 ^ slotBits * sizeofCapability)
    (by rintro x rfl; unfold sizeofCapabilityNode; omega)
  have hnested := (store_edits (h.store new (UInt8.ofNat slotBits)) (new + 1) 1).mono
    (V := fun x => new ≤ x ∧ x < new + sizeofCapabilityNode + 2 ^ slotBits * sizeofCapability)
    (by rintro x rfl; unfold sizeofCapabilityNode; omega)
  refine (hbits.trans hnested).trans (foldl_edits ?_ _)
  intro h i hi
  obtain ⟨hslot, hend⟩ := slotAddress_fits hfit (List.mem_range.mp hi)
  refine (clearHandlers_edits h _).mono ?_
  intro x hx
  unfold sizeofCapability at hend hslot ⊢
  omega

/-! The sizes that do not wrap. -/

theorem WellFormed.heapSizeof (hw : WellFormed h l) (hb : b ∈ l) :
    h.heapSizeof b.pointer = some (b.size - sizeofHeapHeader) := by
  obtain ⟨pre, post, rfl⟩ := List.append_of_mem hb
  have hheader := hw.linked.contents
  have haddress : b.pointer - sizeofHeapHeader = b.address := Nat.add_sub_cancel ..
  have hlarger := hw.ordered.larger b hb
  have hbounded := hw.ordered.bounded b hb
  unfold Heap.heapSizeof
  rw [haddress, hheader, Option.map_some]
  refine congrArg some (subSize_of_le (Nat.le_of_lt hlarger) ?_)
  unfold Block.finish at hbounded
  exact Nat.lt_of_le_of_lt (Nat.le_add_left b.size b.address) hbounded

/-- The block that a call returns. -/
theorem heapAlloc_block (hw : WellFormed h l) (hrun : heapAlloc fuel h n = some (h', some p)) :
    ∃ l' b, WellFormed h' l' ∧ b ∈ l' ∧ b.pointer = p ∧ roundSize n ≤ b.size := by
  obtain ⟨l', moves, ha⟩ := heapAlloc_allocates fuel h l n h' (some p) hw hrun
  obtain ⟨b, hb, hpointer, -, -, hlarge, -⟩ := ha.result p rfl
  exact ⟨l', b, ha.wellFormed, hb, hpointer, hlarge⟩

theorem sizeSuffices_of_lt (hn : n + sizeofHeapHeader + 3 < 2 ^ 32) : SizeSuffices n := by
  intro fuel h l h' p hw hrun
  obtain ⟨l', b, hw', hb, rfl, hlarge⟩ := heapAlloc_block hw hrun
  have hround := le_roundSize hn
  exact ⟨_, hw'.heapSizeof hb, by omega⟩

theorem nodeAllocSize_of_lt (hbits : slotBits < 26) :
    nodeAllocSize slotBits = sizeofCapabilityNode + 2 ^ slotBits * sizeofCapability ∧
      nodeAllocSize slotBits + sizeofHeapHeader + 3 < 2 ^ 32 := by
  have hpow : 2 ^ slotBits ≤ 2 ^ 25 := Nat.pow_le_pow_right (by decide) (by omega)
  have hslots : 2 ^ slotBits * sizeofCapability ≤ 2 ^ 25 * 72 := Nat.mul_le_mul_right 72 hpow
  have hsize : nodeAllocSize slotBits =
      sizeofCapabilityNode + 2 ^ slotBits * sizeofCapability := by
    unfold nodeAllocSize
    rw [wrap_of_lt (n := 2 ^ slotBits * sizeofCapability) (by omega)]
    refine wrap_of_lt ?_
    unfold sizeofCapabilityNode
    omega
  refine ⟨hsize, ?_⟩
  rw [hsize]
  unfold sizeofCapabilityNode sizeofHeapHeader
  omega

/-- What is written into a block harms no header. -/
theorem WellFormed.edits (hw : WellFormed h l) (hb : b ∈ l)
    (he : Edits (fun x => b.pointer ≤ x ∧ x < b.finish) h h') : WellFormed h' l where
  nonempty := hw.nonempty
  base := he.heapBase.trans hw.base
  linked := by
    refine hw.linked.edits he ?_
    intro c hc y hy hin
    unfold Block.HeaderAt at hy
    unfold Block.pointer at hin
    have hlarger := hw.ordered.larger c hc
    rcases hw.ordered.apart hb hc with rfl | hbefore | hbefore
    · omega
    · omega
    · unfold Block.finish at hbefore
      omega
  ordered := hw.ordered
  adjoining := hw.adjoining

theorem nodeSuffices_of_lt (hbits : slotBits < 26) : NodeSuffices slotBits := by
  intro fuel h l h' new hw hrun
  obtain ⟨⟨h₁, r⟩, halloc, hinit⟩ := Option.map_eq_some_iff.mp hrun
  cases r with
  | none => cases hinit
  | some new' =>
      cases hinit
      have hlimit : limitSlotBits slotBits < 26 :=
        Nat.lt_of_le_of_lt (limitSlotBits_le slotBits) hbits
      obtain ⟨hsize, hlt⟩ := nodeAllocSize_of_lt hlimit
      obtain ⟨l', b, hw', hb, rfl, hlarge⟩ := heapAlloc_block hw halloc
      have hround := le_roundSize hlt
      have hbounded := hw'.ordered.bounded b hb
      have henough : sizeofCapabilityNode + 2 ^ limitSlotBits slotBits * sizeofCapability ≤
          b.size - sizeofHeapHeader := by omega
      have hend : b.pointer + sizeofCapabilityNode +
          2 ^ limitSlotBits slotBits * sizeofCapability ≤ b.finish := by
        have hlarger := hw'.ordered.larger b hb
        unfold Block.pointer Block.finish
        omega
      have hedits := (initNode_edits h₁ (Nat.lt_of_le_of_lt hend hbounded)).mono
        (V := fun x => b.pointer ≤ x ∧ x < b.finish) (by rintro x ⟨hle, hlt⟩; omega)
      have hw'' := hw'.edits hb hedits
      refine ⟨l', b.size - sizeofHeapHeader, hw'', hw''.heapSizeof hb, henough, ?_⟩
      intro i hi
      obtain ⟨hslot, hslotEnd⟩ := slotAddress_fits (Nat.lt_of_le_of_lt hend hbounded) hi
      constructor
      · omega
      · omega

/-! The sizes that wrap. -/

/-- One available block. -/
def single (size : Nat) : Heap :=
  withBlocks [.plain 100 size .available] size 0

theorem wellFormed_single (hlarger : sizeofHeapHeader < size) (hbounded : 100 + size < 2 ^ 32) :
    WellFormed (single size) [.plain 100 size .available] := by
  refine wellFormed_withBlocks ⟨by simp, ?_, ?_⟩ (by simp) (by simp) size 0
  · intro b hb
    rw [List.mem_singleton.mp hb]
    exact hlarger
  · intro b hb
    rw [List.mem_singleton.mp hb]
    exact hbounded

/-- A request of which the size wraps gets a block of the heap there is. -/
theorem heapAlloc_single_wrapped : ∀ i < 29, ∃ h' p,
    heapAlloc 2 (single 100) (2 ^ 32 - 29 + i) = some (h', some p) ∧
      ∃ size, h'.heapSizeof p = some size ∧ size < 100 := by
  have hruns : ∀ i < 29, (heapAlloc 2 (single 100) (2 ^ 32 - 29 + i)).any (fun r =>
      r.2.any fun p => (r.1.heapSizeof p).any fun size => decide (size < 100)) = true := by
    decide +kernel
  intro i hi
  have hrun := hruns i hi
  simp only [Option.any_eq_true, decide_eq_true_eq] at hrun
  obtain ⟨⟨h', r⟩, hrun, p, hr, size, hsize, hlt⟩ := hrun
  simp only at hr
  subst hr
  exact ⟨h', p, hrun, size, hsize, hlt⟩

theorem not_sizeSuffices (hn : n < 2 ^ 32) (hwraps : 2 ^ 32 ≤ n + sizeofHeapHeader + 3) :
    ¬ SizeSuffices n := by
  intro hsuffices
  have hi : n - (2 ^ 32 - 29) < 29 := by omega
  have heq : 2 ^ 32 - 29 + (n - (2 ^ 32 - 29)) = n := by
    unfold sizeofHeapHeader at hwraps
    omega
  obtain ⟨h', p, hrun, size, hsize, hlt⟩ := heapAlloc_single_wrapped _ hi
  rw [heq] at hrun
  obtain ⟨size', hsize', hle⟩ :=
    hsuffices 2 _ _ h' p (wellFormed_single (by decide) (by decide)) hrun
  obtain rfl := Option.some.inj (hsize.symm.trans hsize')
  unfold sizeofHeapHeader at hwraps
  omega

theorem heapAlloc_single_node : ∀ i < 6, ∃ h' p,
    heapAlloc 2 (single 3000000000) (nodeAllocSize (26 + i)) = some (h', some p) := by
  have hruns : ∀ i < 6, (heapAlloc 2 (single 3000000000) (nodeAllocSize (26 + i))).any
      (fun r => r.2.isSome) = true := by
    decide +kernel
  intro i hi
  obtain ⟨⟨h', r⟩, hrun, hr⟩ := (Option.any_eq_true ..).mp (hruns i hi)
  obtain ⟨p, rfl⟩ := Option.isSome_iff_exists.mp hr
  exact ⟨h', p, hrun⟩

theorem not_nodeSuffices (hbits : 26 ≤ slotBits) : ¬ NodeSuffices slotBits := by
  intro hsuffices
  have hlimit : 26 ≤ limitSlotBits slotBits := by
    unfold limitSlotBits
    split <;> omega
  have hi : limitSlotBits slotBits - 26 < 6 := by
    have hlt := limitSlotBits_lt slotBits
    omega
  obtain ⟨h', p, hrun⟩ := heapAlloc_single_node _ hi
  rw [Nat.add_sub_cancel' hlimit] at hrun
  have hnode : allocNode 2 (single 3000000000) slotBits =
      some (h'.initNode p (limitSlotBits slotBits), some p) := by
    unfold allocNode
    rw [hrun]
    rfl
  obtain ⟨l', size, -, hholds⟩ :=
    hsuffices 2 _ _ _ p (wellFormed_single (by decide) (by decide)) hnode
  have hpow : 2 ^ 26 ≤ 2 ^ limitSlotBits slotBits := Nat.pow_le_pow_right (by decide) hlimit
  have hslots : 2 ^ 26 * 72 ≤ 2 ^ limitSlotBits slotBits * sizeofCapability :=
    Nat.mul_le_mul_right 72 hpow
  have hsize : size < 2 ^ 32 := by
    obtain ⟨contents, -, rfl⟩ := Option.map_eq_some_iff.mp hholds.sizeof
    exact subSize_lt
  have henough := hholds.enough
  omega

/-- A request is met with a block that is large enough unless its size wraps. -/
theorem objectSizes_iff (hn : n < 2 ^ 32) (slotBits : Nat) :
    (SizeSuffices n ↔ n + sizeofHeapHeader + 3 < 2 ^ 32) ∧
      (NodeSuffices slotBits ↔ slotBits < 26) := by
  constructor
  · refine ⟨fun hsuffices => ?_, sizeSuffices_of_lt⟩
    by_contra hwraps
    exact not_sizeSuffices hn (Nat.le_of_not_lt hwraps) hsuffices
  · refine ⟨fun hsuffices => ?_, nodeSuffices_of_lt⟩
    by_contra hwraps
    exact not_nodeSuffices (Nat.le_of_not_lt hwraps) hsuffices

theorem objectSizes_iff_page : SizeSuffices 4096 ∧ NodeSuffices 8 :=
  ⟨(objectSizes_iff (by decide) 8).1.mpr (by decide),
    (objectSizes_iff (n := 4096) (by decide) 8).2.mpr (by decide)⟩

/-- A block of two bytes for a node with 2 ^ 29 slots. -/
theorem allocNode_wrapped : ∃ (h' : Heap) (p : Nat),
    WellFormed (single 100) [.plain 100 100 .available] ∧
    allocNode 2 (single 100) 29 = some (h'.initNode p 29, some p) ∧
    h'.heapSizeof p = some 2 ∧ ¬ NodeSuffices 29 := by
  have hrun : (heapAlloc 2 (single 100) (nodeAllocSize (limitSlotBits 29))).any (fun r =>
      r.2.any fun p => decide (r.1.heapSizeof p = some 2)) = true := by
    decide +kernel
  simp only [Option.any_eq_true, decide_eq_true_eq] at hrun
  obtain ⟨⟨h', r⟩, hrun, p, hr, hsize⟩ := hrun
  simp only at hr
  subst hr
  refine ⟨h', p, wellFormed_single (by decide) (by decide), ?_, hsize,
    not_nodeSuffices (by decide)⟩
  unfold allocNode
  rw [hrun]
  rfl

end Cenix.Heap
