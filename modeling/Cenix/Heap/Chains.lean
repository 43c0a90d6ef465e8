import Cenix.Heap.Headers
import Mathlib.Data.List.Basic

namespace Cenix.Heap

/-! The heap as the list of its blocks. -/

structure Block where
  address : Nat
  size : Nat
  kind : Kind
  oldKind : Kind
  updateRef : UpdateRef
  deriving DecidableEq, Repr

namespace Block

/-- Where the block ends. -/
def finish (b : Block) : Nat :=
  b.address + b.size

/-- The pointer the users of the block have. -/
def pointer (b : Block) : Nat :=
  b.address + sizeofHeapHeader

def contents (b : Block) (next prev : Option Nat) : HeapHeader :=
  { size := b.size, kind := b.kind, oldKind := b.oldKind, updateRef := b.updateRef,
    next := next, prev := prev }

/-- `x` is in the header of the block. -/
def HeaderAt (b : Block) (x : Nat) : Prop :=
  b.address ≤ x ∧ x < b.address + sizeofHeapHeader

end Block

def firstAddress : List Block → Option Nat → Option Nat
  | [], after => after
  | b :: _, _ => some b.address

def lastAddress (before : Option Nat) : List Block → Option Nat
  | [] => before
  | b :: l => lastAddress (some b.address) l

/-- The headers of the blocks are linked both ways, between `before` and `after`. -/
def Linked (h : Heap) : Option Nat → List Block → Option Nat → Prop
  | _, [], _ => True
  | before, b :: l, after =>
      h.headers b.address = some (b.contents (firstAddress l after) before) ∧
        Linked h (some b.address) l after

@[simp] theorem linked_nil : Linked h before [] after :=
  trivial

theorem firstAddress_append :
    firstAddress (l ++ m) after = firstAddress l (firstAddress m after) := by
  cases l with
  | nil => rfl
  | cons b l => rfl

theorem lastAddress_append :
    lastAddress before (l ++ m) = lastAddress (lastAddress before l) m := by
  induction l generalizing before with
  | nil => rfl
  | cons b l ih => exact ih

theorem lastAddress_mem (before : Option Nat) (hlast : lastAddress before l = some last)
    (hne : l ≠ []) : last ∈ l.map Block.address := by
  induction l generalizing before with
  | nil => exact absurd rfl hne
  | cons b l ih =>
      cases l with
      | nil => simpa [lastAddress, eq_comm] using hlast
      | cons c l => exact List.mem_cons_of_mem _ (ih (some b.address) hlast (by simp))

theorem linked_append :
    Linked h before (l ++ m) after ↔
      Linked h before l (firstAddress m after) ∧
        Linked h (lastAddress before l) m after := by
  induction l generalizing before with
  | nil => simp [lastAddress]
  | cons b l ih =>
      simp only [List.cons_append, Linked, lastAddress, ih, firstAddress_append, and_assoc]

theorem Linked.contents (hl : Linked h before (pre ++ b :: post) after) :
    h.headers b.address =
      some (b.contents (firstAddress post after) (lastAddress before pre)) :=
  (linked_append.mp hl).2.1

/-- The blocks are in the order of their addresses, they are disjoint, and each
is larger than a header. -/
structure Ordered (l : List Block) : Prop where
  sorted : l.Pairwise fun b c => b.finish ≤ c.address
  larger : ∀ b ∈ l, sizeofHeapHeader < b.size
  bounded : ∀ b ∈ l, b.finish < 2 ^ 32

/-- Neighbours that are not immovable are contiguous in memory. -/
def Adjoining (b c : Block) : Prop :=
  b.kind = .immovable ∨ c.kind = .immovable ∨ b.finish = c.address

structure WellFormed (h : Heap) (l : List Block) : Prop where
  nonempty : l ≠ []
  base : h.heapBase = firstAddress l none
  linked : Linked h none l none
  ordered : Ordered l
  adjoining : l.IsChain Adjoining

theorem Ordered.sublist (ho : Ordered l) (hm : m.Sublist l) : Ordered m where
  sorted := ho.sorted.sublist hm
  larger := fun b hb => ho.larger b (hm.subset hb)
  bounded := fun b hb => ho.bounded b (hm.subset hb)

theorem Ordered.append_left (ho : Ordered (l ++ m)) : Ordered l :=
  ho.sublist (List.sublist_append_left l m)

theorem Ordered.append_right (ho : Ordered (l ++ m)) : Ordered m :=
  ho.sublist (List.sublist_append_right l m)

theorem Ordered.before (ho : Ordered (l ++ m)) (hb : b ∈ l) (hc : c ∈ m) :
    b.finish ≤ c.address :=
  (List.pairwise_append.mp ho.sorted).2.2 b hb c hc

theorem Ordered.tail (ho : Ordered (b :: l)) : Ordered l :=
  Ordered.append_right (l := [b]) ho

theorem Ordered.head_before (ho : Ordered (b :: l)) (hc : c ∈ l) : b.finish ≤ c.address :=
  (List.pairwise_cons.mp ho.sorted).1 c hc

/-- Two blocks of an ordered list are the same or apart. -/
theorem Ordered.apart (ho : Ordered l) (hb : b ∈ l) (hc : c ∈ l) :
    b = c ∨ b.finish ≤ c.address ∨ c.finish ≤ b.address := by
  induction l with
  | nil => cases hb
  | cons d l ih =>
      rcases List.mem_cons.mp hb with hbd | hbl
      · rcases List.mem_cons.mp hc with hcd | hcl
        · exact Or.inl (hbd.trans hcd.symm)
        · exact Or.inr (Or.inl (hbd ▸ ho.head_before hcl))
      · rcases List.mem_cons.mp hc with hcd | hcl
        · exact Or.inr (Or.inr (hcd ▸ ho.head_before hbl))
        · exact ih ho.tail hbl hcl

theorem Ordered.eq_of_address (ho : Ordered l) (hb : b ∈ l) (hc : c ∈ l)
    (heq : b.address = c.address) : b = c := by
  have hblarge := ho.larger b hb
  have hclarge := ho.larger c hc
  rcases ho.apart hb hc with rfl | hlt | hlt
  · rfl
  · unfold Block.finish at hlt
    omega
  · unfold Block.finish at hlt
    omega

theorem Ordered.addresses_nodup (ho : Ordered l) : (l.map Block.address).Nodup := by
  refine List.pairwise_map.mpr (ho.sorted.imp_of_mem ?_)
  intro b c hb hc hbc heq
  have hlarger := ho.larger b hb
  unfold Block.finish at hbc
  omega

def extents (l : List Block) : List (Nat × Nat) :=
  l.map fun b => (b.address, b.size)

theorem ordered_iff_extents : Ordered l ↔
    (extents l).Pairwise (fun p q => p.1 + p.2 ≤ q.1) ∧
      ∀ p ∈ extents l, sizeofHeapHeader < p.2 ∧ p.1 + p.2 < 2 ^ 32 := by
  constructor
  · intro ho
    refine ⟨List.pairwise_map.mpr ho.sorted, ?_⟩
    intro p hp
    obtain ⟨b, hb, rfl⟩ := List.mem_map.mp hp
    exact ⟨ho.larger b hb, ho.bounded b hb⟩
  · rintro ⟨hsorted, hmem⟩
    have hmem' : ∀ b ∈ l, sizeofHeapHeader < b.size ∧ b.finish < 2 ^ 32 :=
      fun b hb => hmem (b.address, b.size) (List.mem_map_of_mem hb)
    exact ⟨List.pairwise_map.mp hsorted, fun b hb => (hmem' b hb).1,
      fun b hb => (hmem' b hb).2⟩

theorem Ordered.of_extents (ho : Ordered l) (hsame : extents m = extents l) : Ordered m := by
  rw [ordered_iff_extents] at ho ⊢
  rwa [hsame]

theorem extents_map {g : Block → Block} (haddress : ∀ b, (g b).address = b.address)
    (hsize : ∀ b, (g b).size = b.size) : extents (l.map g) = extents l := by
  simp [extents, haddress, hsize]

theorem extents_append : extents (l ++ m) = extents l ++ extents m := by
  simp [extents]

/-- `h'` differs from `h` at most where the bytes in `W` have been written. -/
structure Edits (W : Nat → Prop) (h h' : Heap) : Prop where
  headers : ∀ x, (∀ y, x ≤ y → y < x + sizeofHeapHeader → ¬ W y) →
    h'.headers x = h.headers x
  bytes : ∀ x, ¬ W x → h'.bytes x = h.bytes x
  heapBase : h'.heapBase = h.heapBase
  totalMemory : h'.totalMemory = h.totalMemory
  relocations : h'.relocations = h.relocations

theorem Edits.refl (W : Nat → Prop) (h : Heap) : Edits W h h :=
  ⟨fun _ _ => rfl, fun _ _ => rfl, rfl, rfl, rfl⟩

theorem Edits.trans (first : Edits W h h') (second : Edits W h' h'') : Edits W h h'' where
  headers := fun x hx => (second.headers x hx).trans (first.headers x hx)
  bytes := fun x hx => (second.bytes x hx).trans (first.bytes x hx)
  heapBase := second.heapBase.trans first.heapBase
  totalMemory := second.totalMemory.trans first.totalMemory
  relocations := second.relocations.trans first.relocations

theorem Edits.mono (he : Edits W h h') (hW : ∀ x, W x → V x) : Edits V h h' where
  headers := fun x hx => he.headers x fun y hxy hyx hy => hx y hxy hyx (hW y hy)
  bytes := fun x hx => he.bytes x fun hy => hx (hW x hy)
  heapBase := he.heapBase
  totalMemory := he.totalMemory
  relocations := he.relocations

theorem Edits.usedMemory (W : Nat → Prop) (h : Heap) (used : Nat) :
    Edits W h { h with usedMemory := used } :=
  ⟨fun _ _ => rfl, fun _ _ => rfl, rfl, rfl, rfl⟩

theorem Linked.edits (hl : Linked h before l after) (he : Edits W h h')
    (hapart : ∀ b ∈ l, ∀ y, b.HeaderAt y → ¬ W y) : Linked h' before l after := by
  induction l generalizing before with
  | nil => trivial
  | cons b l ih =>
      constructor
      · rw [he.headers b.address fun y hby hyb => hapart b (by simp) y ⟨hby, hyb⟩]
        exact hl.1
      · exact ih hl.2 fun c hc => hapart c (by simp [hc])

@[simp] theorem writeHeader_headers_self :
    (writeHeader h header contents).headers header = some contents := by
  simp [writeHeader]

theorem writeHeader_edits (h : Heap) (header : Nat) (contents : HeapHeader) :
    Edits (fun x => header ≤ x ∧ x < header + sizeofHeapHeader) h
      (h.writeHeader header contents) where
  headers := by
    intro x hx
    have hpos := sizeofHeapHeader_pos
    have hne : x ≠ header := by
      rintro rfl
      exact hx x (by omega) (by omega) ⟨by omega, by omega⟩
    have hapart : ¬ (x < header + sizeofHeapHeader ∧ header < x + sizeofHeapHeader) := by
      rintro ⟨hlt, hgt⟩
      rcases Nat.le_total x header with hle | hle
      · exact hx header hle (by omega) ⟨by omega, by omega⟩
      · exact hx x (by omega) (by omega) ⟨hle, hlt⟩
    simp [writeHeader, hne, hapart]
  bytes := fun x hx => by simp [writeHeader, hx]
  heapBase := rfl
  totalMemory := rfl
  relocations := rfl

theorem modifyHeader_eq {h : Heap} {contents : HeapHeader} (hc : h.headers header = some contents) :
    h.modifyHeader header f = some (h.writeHeader header (f contents)) := by
  simp [modifyHeader, hc]

/-- The header of one block is written; the block stays where it is. -/
theorem Linked.write (hl : Linked h before (pre ++ b :: post) after)
    (ho : Ordered (pre ++ b :: post)) (haddress : b'.address = b.address) :
    Linked (h.writeHeader b.address
        (b'.contents (firstAddress post after) (lastAddress before pre)))
      before (pre ++ b' :: post) after := by
  rw [linked_append] at hl ⊢
  have hb := ho.larger b (by simp)
  have hedits := h.writeHeader_edits b.address
    (b'.contents (firstAddress post after) (lastAddress before pre))
  refine ⟨?_, ?_, ?_⟩
  · simp only [firstAddress, haddress]
    refine hl.1.edits hedits ?_
    intro c hc y hy hw
    have hapart := ho.before hc (c := b) (by simp)
    have hlarge := ho.larger c (by simp [hc])
    unfold Block.HeaderAt at hy
    unfold Block.finish at hapart
    omega
  · rw [haddress]
    exact writeHeader_headers_self
  · rw [haddress]
    refine hl.2.2.edits hedits ?_
    intro c hc y hy hw
    have hapart := ho.append_right.head_before hc
    unfold Block.HeaderAt at hy
    unfold Block.finish at hapart
    omega

theorem setPrev_spec (hl : Linked h before l none) (ho : Ordered l) (prev : Nat) :
    ∃ h', h.setPrev (firstAddress l none) prev = some h' ∧
      Linked h' (some prev) l none ∧
      Edits (fun x => ∃ b ∈ l, b.HeaderAt x) h h' ∧
      h'.usedMemory = h.usedMemory := by
  cases l with
  | nil => exact ⟨h, rfl, trivial, Edits.refl _ h, rfl⟩
  | cons b l =>
      have hedits := h.writeHeader_edits b.address
        (b.contents (firstAddress l none) (some prev))
      refine ⟨_, modifyHeader_eq hl.1, ⟨writeHeader_headers_self, ?_⟩, ?_, rfl⟩
      · refine hl.2.edits hedits ?_
        intro c hc y hy hw
        have hapart := ho.head_before hc
        have hb := ho.larger b (by simp)
        unfold Block.HeaderAt at hy
        unfold Block.finish at hapart
        omega
      · exact hedits.mono fun x hx => ⟨b, by simp, hx⟩

end Cenix.Heap
