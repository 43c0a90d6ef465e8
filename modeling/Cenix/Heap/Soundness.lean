import Cenix.Heap.Evacuation

namespace Cenix.Heap

/-! `heap_alloc` keeps the heap, whether it allocates or not. -/

/-- After a call of `heap_alloc` the list of blocks is `l'`, and `moves` are the
relocations the call has made. Each movable block is where the last of its own
relocations took it, if there was one, and these went to its `update_ref`. -/
structure KeepsHeap (h : Heap) (l : List Block) (actualSize : Nat) (h' : Heap)
    (r : Option Nat) (l' : List Block) (moves : List Relocation) : Prop where
  wellFormed : WellFormed h' l'
  surplus : surplus h' l' = surplus h l
  relocations : h'.relocations = h.relocations ++ moves
  immovable : ∀ b ∈ l, b.kind = .immovable → b ∈ l' ∧ SameData h.bytes h'.bytes b b
  movable : ∀ b ∈ l, b.kind = .movable → ∃ b' ∈ l', b'.kind = .movable ∧
    b'.updateRef = b.updateRef ∧ SameData h.bytes h'.bytes b b' ∧
    b'.pointer =
      ((itinerary moves b.pointer).getLast?.map Relocation.destPtr).getD b.pointer ∧
    ∀ m ∈ itinerary moves b.pointer, m.updateRef = b.updateRef
  distinct : ∀ b ∈ l, ∀ c ∈ l, b.Live → c.Live →
    landing moves b.pointer = landing moves c.pointer → b = c
  result : ∀ p, r = some p → ∃ b ∈ l', b.pointer = p ∧ b.kind = .immovable ∧
    actualSize + sizeofHeapHeader ≤ b.size ∧ Fresh l moves p ∧
    ∀ c ∈ l', c ≠ b → c.finish ≤ b.address ∨ b.finish ≤ c.address

theorem le_roundSize (hsize : actualSize + sizeofHeapHeader + 3 < 2 ^ 32) :
    actualSize + sizeofHeapHeader ≤ roundSize actualSize := by
  unfold roundSize
  rw [wrap_of_lt hsize]
  omega

/-- Whatever the blocks are and whatever is asked for, a call that returns has kept
the heap, also when it gives up after some blocks have been moved. -/
theorem heapAlloc_keepsHeap (hw : WellFormed h l)
    (hsize : actualSize + sizeofHeapHeader + 3 < 2 ^ 32)
    (hrun : heapAlloc fuel h actualSize = some (h', r)) :
    ∃ l' moves, KeepsHeap h l actualSize h' r l' moves := by
  obtain ⟨l', moves, ha⟩ := heapAlloc_allocates fuel h l actualSize h' r hw hrun
  refine ⟨l', moves, ha.wellFormed, ha.surplus, ha.relocations, ?_, ?_,
    ha.evolution.injective, ?_⟩
  · intro b hb hkind
    obtain ⟨hmem, -, hdata⟩ := ha.evolution.immovable b hb hkind
    exact ⟨hmem, hdata⟩
  · intro b hb hkind
    obtain ⟨b', hmem, hpointer, hkind', href, hdata, hmoves⟩ :=
      ha.evolution.movable b hb hkind
    exact ⟨b', hmem, hkind', href, hdata, hpointer.trans landing_eq_last, hmoves⟩
  · intro p hp
    obtain ⟨b, hb, hpointer, hkind, -, hlarge, hfresh, -⟩ := ha.result p hp
    refine ⟨b, hb, hpointer, hkind, (le_roundSize hsize).trans hlarge, hfresh, ?_⟩
    intro c hc hne
    exact (ha.wellFormed.ordered.apart hc hb).resolve_left hne

/-- The headers that link the blocks `l` behind `before`. -/
def headersOf : Option Nat → List Block → Nat → Option HeapHeader
  | _, [], _ => none
  | before, b :: l, x =>
      if x = b.address then some (b.contents (firstAddress l none) before)
      else headersOf (some b.address) l x

/-- A heap with the given blocks. -/
def withBlocks (l : List Block) (totalMemory usedMemory : Nat) : Heap where
  heapBase := firstAddress l none
  totalMemory := totalMemory
  usedMemory := usedMemory
  headers := headersOf none l
  bytes := fun x => some (UInt8.ofNat x)
  relocations := []

theorem linked_headersOf (ho : Ordered l) (hheaders : ∀ b ∈ l,
    h.headers b.address = headersOf before l b.address) : Linked h before l none := by
  induction l generalizing before with
  | nil => trivial
  | cons b l ih =>
      constructor
      · rw [hheaders b (by simp)]
        exact if_pos rfl
      · refine ih ho.tail ?_
        intro c hc
        have hne : c.address ≠ b.address := by
          have hbefore := ho.head_before hc
          have hlarger := ho.larger b (by simp)
          unfold Block.finish at hbefore
          omega
        rw [hheaders c (by simp [hc])]
        exact if_neg hne

/-- Every ordered list of blocks is that of a heap. -/
theorem wellFormed_withBlocks (ho : Ordered l) (hne : l ≠ []) (ha : l.IsChain Adjoining)
    (totalMemory usedMemory : Nat) : WellFormed (withBlocks l totalMemory usedMemory) l where
  nonempty := hne
  base := rfl
  linked := linked_headersOf ho fun _ _ => rfl
  ordered := ho
  adjoining := ha

/-- A block nobody has been told of yet, as tests have it. -/
def Block.plain (address size : Nat) (kind : Kind) : Block :=
  ⟨address, size, kind, .available, .absolute (some address)⟩

instance (b c : Block) : Decidable (Adjoining b c) :=
  inferInstanceAs (Decidable (_ ∨ _ ∨ _))

/-- A movable block in front of an available one, and another available one behind an
immovable one. -/
def fragmented : List Block :=
  [.plain 100 100 .movable, .plain 200 100 .available, .plain 300 100 .immovable,
    .plain 400 300 .available]

theorem wellFormed_fragmented : WellFormed (withBlocks fragmented 600 200) fragmented := by
  refine wellFormed_withBlocks ⟨?_, ?_, ?_⟩ (by decide) ?_ 600 200
  all_goals decide

theorem heapAlloc_keepsHeap_fragmented : ∃ h' r l' moves,
    heapAlloc 10 (withBlocks fragmented 600 200) 120 = some (h', r) ∧
      KeepsHeap (withBlocks fragmented 600 200) fragmented 120 h' r l' moves := by
  have hreturns : (heapAlloc 10 (withBlocks fragmented 600 200) 120).isSome := by
    decide +kernel
  obtain ⟨⟨h', r⟩, hrun⟩ := Option.isSome_iff_exists.mp hreturns
  obtain ⟨l', moves, hkeeps⟩ := heapAlloc_keepsHeap wellFormed_fragmented (by decide) hrun
  exact ⟨h', r, l', moves, hrun, hkeeps⟩

end Cenix.Heap
