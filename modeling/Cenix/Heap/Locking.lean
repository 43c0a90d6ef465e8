import Cenix.Heap.Freeing

namespace Cenix.Heap

/-! `heap_lock_existing_region` -/

/-- `update_ref.absolute_ptr = NULL`, which writes the first four bytes of the union. -/
def UpdateRef.clear : UpdateRef → UpdateRef
  | .absolute _ => .absolute none
  | .function _ => .function 0
  | .capability address => .capability { address with threadId := 0, bucketNumber := 0 }

/-- `if (next != NULL) next->prev = prev`, where there may be no `prev`. -/
def relinkPrev (h : Heap) (next prev : Option Nat) : Option Heap :=
  match next with
  | none => some h
  | some next => h.modifyHeader next fun contents => { contents with prev := prev }

/-- `prev->next = next`, or `heap_base` where there is no `prev`. -/
def relinkNext (h : Heap) (prev next : Option Nat) : Option Heap :=
  match prev with
  | none => some { h with heapBase := next }
  | some prev => h.modifyHeader prev fun contents => { contents with next := next }

/-- The header leaves the list. -/
def unlink (h : Heap) (header : Nat) : Option Heap := do
  let contents ← h.headers header
  let h ← h.relinkNext contents.prev contents.next
  let contents ← h.headers header
  h.relinkPrev contents.next contents.prev

/-- The header gives what lies behind `pos` to the block behind it, if that one is
available: its header is copied to where the region starts. -/
def passOn (h : Heap) (header pos : Nat) : Option Heap := do
  let contents ← h.headers header
  let offset := subSize contents.size pos
  let h := h.writeHeader header { contents with size := pos }
  match contents.next with
  | none => some h
  | some next => do
      let following ← h.headers next
      if following.kind = .available then
        let moved := wrap (header + pos)
        let h := h.writeHeader moved { following with size := wrap (following.size + offset) }
        h.modifyHeader header fun contents => { contents with next := some moved }
      else
        some h

/-- The header is copied down by `pos` bytes, which the block in front of it gives up. -/
def slideDown (h : Heap) (header prev pos : Nat) : Option Heap := do
  let h ← h.modifyHeader prev fun before => { before with size := subSize before.size pos }
  let contents ← h.headers header
  let moved := subSize header pos
  let h := h.writeHeader moved { contents with size := wrap (contents.size + pos) }
  h.modifyHeader prev fun before => { before with next := some moved }

/-- The header lies in front of the region; the result says whether it is done. -/
def lockFront (h : Heap) (start header : Nat) : Option (Heap × Bool) := do
  let contents ← h.headers header
  let pos := subSize start header
  if subSize contents.size sizeofHeapHeader ≤ pos then
    let h ← h.passOn header pos
    some (h, true)
  else
    h.splitHeader header pos

/-- The header becomes immovable, or leaves the list where it lies in the region. -/
def lockHeader (h : Heap) (start header : Nat) : Option Heap := do
  let contents ← h.headers header
  let h := h.use contents.size
  if wrap (header + sizeofHeapHeader) ≤ wrap (start + sizeofHeapHeader) then
    h.modifyHeader header fun contents =>
      { contents with kind := .immovable, updateRef := contents.updateRef.clear }
  else
    h.unlink header

/-- The end of the block is kept apart if it lies behind the region. The second result
is the header the loop goes on from. -/
def lockBack (h : Heap) (start finish header blockEnd : Nat) : Option (Heap × Nat) := do
  if finish < blockEnd then
    let contents ← h.headers header
    let pos := subSize finish header
    match (if pos ≤ sizeofHeapHeader then contents.prev else none) with
    | some prev => do
        let before ← h.headers prev
        if before.kind = .available then
          let h ← h.slideDown header prev pos
          some (h, prev)
        else
          let h ← h.lockHeader start header
          some (h, header)
    | none => do
        let (h, _) ← h.splitHeader header pos
        let h ← h.lockHeader start header
        some (h, header)
  else
    let h ← h.lockHeader start header
    some (h, header)

def lockRound (h : Heap) (start finish header : Nat) : Option (Heap × Nat) := do
  let contents ← h.headers header
  let blockEnd := wrap (header + contents.size)
  if blockEnd ≤ start ∨ finish ≤ header then
    some (h, header)
  else if contents.kind ≠ .available then
    some (h, header)
  else if header < start then
    let (h, done) ← h.lockFront start header
    if done then some (h, header) else h.lockBack start finish header blockEnd
  else
    h.lockBack start finish header blockEnd

def lockHeaders (start finish : Nat) : Nat → Heap → Option Nat → Option Heap
  | _, h, none => some h
  | 0, _, some _ => none
  | fuel + 1, h, some header => do
      let (h, header) ← h.lockRound start finish header
      let contents ← h.headers header
      lockHeaders start finish fuel h contents.next

/-- `none` for a call that has not returned after `fuel` headers, or that reads a header
where there is none. -/
def heapLockExistingRegion (fuel : Nat) (h : Heap) (start finish : Nat) : Option Heap :=
  lockHeaders (subSize start sizeofHeapHeader) finish fuel h h.heapBase

/-! Lists whose headers do not overlap. -/

def Spaced (l : List Block) : Prop :=
  l.Pairwise fun b c => b.address + sizeofHeapHeader ≤ c.address

/-- The list starts with `heap_base`, and its headers are linked both ways. -/
structure Threads (h : Heap) (l : List Block) : Prop where
  base : h.heapBase = firstAddress l none
  linked : Linked h none l none

/-- The same, except that the header behind `l` still has the wrong `prev`. -/
structure Dangling (h : Heap) (l : List Block) (stale : Option Nat) (m : List Block) : Prop where
  base : h.heapBase = firstAddress (l ++ m) none
  front : Linked h none l (firstAddress m none)
  back : Linked h stale m none

/-- Outside `W` no byte has been written. -/
def KeepsBytes (W : Nat → Prop) (h h' : Heap) : Prop :=
  ∀ x, ¬W x → h'.bytes x = h.bytes x

theorem KeepsBytes.refl (W : Nat → Prop) (h : Heap) : KeepsBytes W h h :=
  fun _ _ => rfl

theorem KeepsBytes.trans (first : KeepsBytes W h h') (second : KeepsBytes W h' h'') :
    KeepsBytes W h h'' :=
  fun x hx => (second x hx).trans (first x hx)

theorem writeHeader_keepsBytes (contents : HeapHeader)
    (hW : ∀ x, header ≤ x → x < header + sizeofHeapHeader → W x) :
    KeepsBytes W h (h.writeHeader header contents) := by
  intro x hx
  have houtside : ¬(header ≤ x ∧ x < header + sizeofHeapHeader) :=
    fun hin => hx (hW x hin.1 hin.2)
  simp [writeHeader, houtside]

theorem Ordered.spaced (ho : Ordered l) : Spaced l := by
  refine ho.sorted.imp_of_mem fun {b c} hb _ hbc => ?_
  have hlarger := ho.larger b hb
  unfold Block.finish at hbc
  omega

theorem Spaced.before (hs : Spaced (l ++ m)) (hb : b ∈ l) (hc : c ∈ m) :
    Apart b.address c.address :=
  .inl ((List.pairwise_append.mp hs).2.2 b hb c hc)

theorem Spaced.behind (hs : Spaced (l ++ m)) (hb : b ∈ l) (hc : c ∈ m) :
    Apart c.address b.address :=
  .inr ((List.pairwise_append.mp hs).2.2 b hb c hc)

theorem Spaced.append_left (hs : Spaced (l ++ m)) : Spaced l :=
  (List.pairwise_append.mp hs).1

theorem Spaced.append_right (hs : Spaced (l ++ m)) : Spaced m :=
  (List.pairwise_append.mp hs).2.1

theorem Spaced.tail (hs : Spaced (b :: l)) : Spaced l :=
  hs.append_right (l := [b])

theorem Spaced.of_addresses (hs : Spaced l) (hsame : m.map Block.address = l.map Block.address) :
    Spaced m := by
  have hs : (l.map Block.address).Pairwise fun x y => x + sizeofHeapHeader ≤ y :=
    List.pairwise_map.mpr hs
  rw [← hsame] at hs
  exact List.pairwise_map.mp hs

/-- A header is written that overlaps none of the list. -/
theorem Linked.writeApart (hl : Linked h before l after) (contents : HeapHeader)
    (hapart : ∀ b ∈ l, Apart b.address header) :
    Linked (h.writeHeader header contents) before l after := by
  induction l generalizing before with
  | nil => trivial
  | cons b l ih =>
      refine ⟨?_, ih hl.2 fun c hc => hapart c (by simp [hc])⟩
      rw [writeHeader_apart (hapart b (by simp))]
      exact hl.1

theorem setPrev_eq (h : Heap) (next : Option Nat) (prev : Nat) :
    h.setPrev next prev = h.relinkPrev next (some prev) := by
  cases next <;> rfl

/-- The first header of a list learns what is in front of it. -/
theorem relinkPrev_spec (hl : Linked h before m none) (hs : Spaced m) (prev : Option Nat)
    (hW : ∀ b ∈ m, ∀ x, b.HeaderAt x → W x) :
    ∃ h', h.relinkPrev (firstAddress m none) prev = some h' ∧ Linked h' prev m none ∧
      h'.heapBase = h.heapBase ∧ KeepsBytes W h h' ∧
      ∀ x, (∀ b ∈ m, Apart x b.address) → h'.headers x = h.headers x := by
  cases m with
  | nil => exact ⟨h, rfl, trivial, rfl, .refl W h, fun _ _ => rfl⟩
  | cons b m =>
      refine ⟨_, modifyHeader_eq hl.1, ⟨writeHeader_headers_self, ?_⟩, rfl, ?_, ?_⟩
      · exact hl.2.writeApart _ fun c hc => Spaced.behind (l := [b]) hs (by simp) hc
      · exact writeHeader_keepsBytes _ fun x hbx hxb => hW b (by simp) x ⟨hbx, hxb⟩
      · exact fun x hx => writeHeader_apart (hx b (by simp))

theorem Linked.frame (hl : Linked h before l after)
    (hsame : ∀ b ∈ l, h'.headers b.address = h.headers b.address) : Linked h' before l after := by
  induction l generalizing before with
  | nil => trivial
  | cons b l ih =>
      refine ⟨?_, ih hl.2 fun c hc => hsame c (by simp [hc])⟩
      rw [hsame b (by simp)]
      exact hl.1

end Cenix.Heap
