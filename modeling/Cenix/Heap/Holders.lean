import Cenix.Heap.Gaps
import Cenix.Heap.Sizes
import Cenix.Runs

namespace Cenix

/-! What the holders of blocks have stored is kept. -/

namespace Heap

def heapLock (h : Heap) (ptr : Nat) : Option (Heap × Bool) :=
  let header := ptr - sizeofHeapHeader
  (h.headers header).map fun contents =>
    if contents.kind = .movable then
      (h.writeHeader header { contents with kind := .immovable }, true)
    else
      (h, false)

/-- The block behind is in use. -/
def BehindInUse (h : Heap) (ptr : Nat) : Prop :=
  ∀ contents ∈ h.headers (ptr - sizeofHeapHeader), ∀ next ∈ contents.next,
    ∀ following ∈ h.headers next, following.kind ≠ .available

instance (h : Heap) (ptr : Nat) : Decidable (h.BehindInUse ptr) :=
  inferInstanceAs (Decidable (∀ contents ∈ h.headers (ptr - sizeofHeapHeader),
    ∀ next ∈ contents.next, ∀ following ∈ h.headers next, following.kind ≠ .available))

end Heap

open Heap

/-- A piece of memory that somebody has asked for, with what has been written to it and who
is to be told when it is moved. -/
structure Piece where
  size : Nat
  written : Nat → Option UInt8
  updateRef : Heap.UpdateRef

/-- `pointers` is what the holders have been told of their blocks, and `pieces` what the
heap knows nothing of. -/
structure HeapRecord where
  heap : Heap
  pointers : Nat → Option Nat
  pieces : Nat → Option Piece

inductive HeapOp where
  | alloc (fuel holder size : Nat)
  | free (holder : Nat)
  | store (holder offset : Nat) (value : UInt8)
  | lock (holder : Nat)
  | unlock (holder : Nat)
  | setUpdate (holder : Nat) (ref : Heap.UpdateRef)

namespace HeapRecord

variable (r : HeapRecord)

/-- Whoever holds a block that has been moved is told of its new place. -/
def follow (h : Heap) : HeapRecord :=
  { r with
    heap := h
    pointers := fun holder =>
      (r.pointers holder).map (landing (h.relocations.drop r.heap.relocations.length)) }

def give (holder pointer size : Nat) : HeapRecord :=
  { r with
    pointers := Function.update r.pointers holder (some pointer)
    pieces := Function.update r.pieces holder (some ⟨size, fun _ => none, .absolute none⟩) }

def step : HeapOp → Option HeapRecord
  | .alloc fuel holder size =>
      if r.pointers holder = none then
        (heapAlloc fuel r.heap size).map fun
          | (h, none) => r.follow h
          | (h, some pointer) => (r.follow h).give holder pointer size
      else
        none
  | .free holder =>
      (r.pointers holder).bind fun pointer => (heapFree r.heap pointer).map fun h =>
        { heap := h
          pointers := Function.update r.pointers holder none
          pieces := Function.update r.pieces holder none }
  | .store holder offset value =>
      (r.pointers holder).bind fun pointer => (r.pieces holder).bind fun piece =>
        if offset < piece.size then
          some { r with
            heap := r.heap.store (pointer + offset) value
            pieces := Function.update r.pieces holder (some { piece with
              written := Function.update piece.written offset (some value) }) }
        else
          none
  | .lock holder =>
      (r.pointers holder).bind fun pointer => (r.heap.heapLock pointer).map fun (h, _) =>
        { r with heap := h }
  | .unlock holder =>
      (r.pointers holder).bind fun pointer => (r.heap.heapUnlock pointer).map fun h =>
        { r with heap := h }
  | .setUpdate holder ref =>
      (r.pointers holder).bind fun pointer => (r.pieces holder).bind fun piece =>
        (r.heap.heapSetUpdate pointer ref).map fun h =>
          { r with
            heap := h
            pieces := Function.update r.pieces holder (some { piece with updateRef := ref }) }

/-- The size asked for does not wrap around, and no block is freed in front of an available
one, which `heap_free` would merge with what is behind that. -/
def Allows : HeapOp → Prop
  | .alloc _ _ size => size + sizeofHeapHeader + 3 < 2 ^ 32
  | .free holder => ∀ pointer ∈ r.pointers holder, r.heap.BehindInUse pointer
  | _ => True

instance : (op : HeapOp) → Decidable (r.Allows op)
  | .alloc _ _ size => inferInstanceAs (Decidable (size + sizeofHeapHeader + 3 < 2 ^ 32))
  | .free holder =>
      inferInstanceAs (Decidable (∀ pointer ∈ r.pointers holder, r.heap.BehindInUse pointer))
  | .store .. | .lock _ | .unlock _ | .setUpdate .. => inferInstanceAs (Decidable True)

/-- The block `b` holds the piece. -/
structure HoldsPiece (h : Heap) (b : Block) (piece : Piece) : Prop where
  live : b.Live
  size : piece.size + sizeofHeapHeader ≤ b.size
  updateRef : b.updateRef = piece.updateRef
  data : ∀ i < piece.size, ∀ value, piece.written i = some value →
    h.bytes (b.pointer + i) = some value

/-- `l` are the blocks of the heap, which are in `memory`; those that are reserved stay where
they are. -/
structure Tracks (fixed : List Block) (memory : Nat → Prop) (r : HeapRecord) (l : List Block) :
    Prop where
  wellFormed : WellFormed r.heap l
  accounts : surplus r.heap l = 0
  held : ∀ holder pointer, r.pointers holder = some pointer →
    ∃ b ∈ l, b.pointer = pointer ∧ ∃ piece, r.pieces holder = some piece ∧
      HoldsPiece r.heap b piece
  distinct : ∀ holder other pointer, r.pointers holder = some pointer →
    r.pointers other = some pointer → holder = other
  reserved : ∀ b ∈ fixed, b ∈ l ∧ b.kind = .immovable ∧
    ∀ holder, r.pointers holder ≠ some b.pointer
  gaps : GapsReserved fixed l
  within : ∀ x, Covered l x → memory x

variable {r : HeapRecord} {r' : HeapRecord} {reserved l front back : List Block} {b b' : Block}
  {memory : Nat → Prop}

theorem HoldsPiece.sameData {h h' : Heap} {piece : Piece} (hp : HoldsPiece h b piece)
    (hlive : b'.Live) (href : b'.updateRef = b.updateRef)
    (hdata : SameData h.bytes h'.bytes b b') : HoldsPiece h' b' piece where
  live := hlive
  size := hp.size.trans hdata.size
  updateRef := href.trans hp.updateRef
  data := by
    intro i hi value hvalue
    have hsize := hp.size
    rw [hdata.data i (by omega)]
    exact hp.data i hi value hvalue

/-! The header of a block is written. -/

/-- The block is still where it was. -/
structure Rewritten (b b' : Block) : Prop where
  address : b'.address = b.address
  size : b'.size = b.size
  live : b.Live → b'.Live

theorem Tracks.rewrite (ht : Tracks reserved memory r (front ++ b :: back)) (hb : Rewritten b b')
    {holder : Nat} (hholder : r.pointers holder = some b.pointer)
    {pieces' : Nat → Option Piece} (hothers : ∀ other ≠ holder, pieces' other = r.pieces other)
    (hpieces : ∀ piece, r.pieces holder = some piece → b.updateRef = piece.updateRef →
      pieces' holder = some { piece with updateRef := b'.updateRef }) :
    Tracks reserved memory
      { r with
        heap := r.heap.writeHeader b.address
          (b'.contents (firstAddress back none) (lastAddress none front))
        pieces := pieces' }
      (front ++ b' :: back) := by
  have hw := ht.wellFormed
  have hextents : extents (front ++ b' :: back) = extents (front ++ b :: back) := by
    simp [extents, hb.address, hb.size]
  have hlive : b.Live := by
    obtain ⟨c, hc, hpointer, piece, -, hpiece⟩ := ht.held holder _ hholder
    obtain rfl := hw.ordered.eq_of_address hc (by simp) (Block.pointer_inj hpointer)
    exact hpiece.live
  have hordered : Ordered (front ++ b' :: back) := hw.ordered.of_extents hextents
  have hmem : ∀ c ∈ front ++ b :: back, c = b ∨ c ∈ front ++ b' :: back := by
    intro c hc
    simp only [List.mem_append, List.mem_cons] at hc ⊢
    tauto
  have hreserved : ∀ c ∈ reserved, c ∈ front ++ b' :: back ∧ c.kind = .immovable := by
    intro c hc
    obtain ⟨hcl, hkind, hunheld⟩ := ht.reserved c hc
    rcases hmem c hcl with rfl | hcl
    · exact absurd hholder (hunheld holder)
    · exact ⟨hcl, hkind⟩
  have hgaps : GapsReserved reserved (front ++ b' :: back) :=
    ht.gaps.congr fun _ => covered_extents hextents
  have hedits : Edits (fun x => ∃ c ∈ front ++ b :: back, c.HeaderAt x) r.heap
      (r.heap.writeHeader b.address
        (b'.contents (firstAddress back none) (lastAddress none front))) :=
    (writeHeader_edits ..).mono fun x hx => ⟨b, by simp, hx⟩
  refine ⟨⟨by simp, ?_, hw.linked.write hw.ordered hb.address, hordered,
    hgaps.adjoining hordered hreserved⟩, ?_, ?_, ht.distinct, ?_, hgaps,
    fun x hx => ht.within x ((covered_extents hextents).mp hx)⟩
  · refine hw.base.trans ?_
    cases front with
    | nil => simp [firstAddress, hb.address]
    | cons c front => rfl
  · have hfree : total Block.free (front ++ b' :: back) = total Block.free (front ++ b :: back) := by
      have hb' := hb.live hlive
      have hbfree : b.free = 0 := if_neg hlive
      have hbfree' : b'.free = 0 := if_neg hb'
      simp [hbfree, hbfree']
    have haccounts := ht.accounts
    unfold surplus at haccounts ⊢
    rw [hfree]
    exact haccounts
  · intro other pointer hother
    obtain ⟨c, hc, hpointer, piece, hpiece, hholds⟩ := ht.held other pointer hother
    have hdata := hedits.sameData_headers hw.ordered hc
    by_cases hsame : other = holder
    · subst hsame
      obtain rfl := Option.some.inj (hholder.symm.trans hother)
      obtain rfl := hw.ordered.eq_of_address hc (by simp) (Block.pointer_inj hpointer)
      have hpointer' : b'.pointer = c.pointer := by
        unfold Block.pointer
        rw [hb.address]
      refine ⟨b', by simp, hpointer', _, hpieces piece hpiece hholds.updateRef,
        hb.live hlive, hb.size.symm ▸ hholds.size, rfl, ?_⟩
      intro i (hi : i < piece.size) value hvalue
      have hsize := hholds.size
      rw [hpointer', hdata.data i (by omega)]
      exact hholds.data i hi value hvalue
    · have hne : c ≠ b := by
        rintro rfl
        exact hsame (ht.distinct other holder _ hother (hpointer ▸ hholder))
      exact ⟨c, (hmem c hc).resolve_left hne, hpointer, piece, (hothers other hsame).trans hpiece,
        hholds.sameData hholds.live rfl hdata⟩
  · intro c hc
    exact ⟨(hreserved c hc).1, (hreserved c hc).2, (ht.reserved c hc).2.2⟩

/-- The block of a holder in the list. -/
theorem Tracks.block (ht : Tracks reserved memory r l) {holder pointer : Nat}
    (hholder : r.pointers holder = some pointer) :
    ∃ front b back, l = front ++ b :: back ∧ b.pointer = pointer ∧
      r.heap.headers (pointer - sizeofHeapHeader) =
        some (b.contents (firstAddress back none) (lastAddress none front)) := by
  obtain ⟨b, hb, rfl, -⟩ := ht.held holder pointer hholder
  obtain ⟨front, back, rfl⟩ := List.append_of_mem hb
  have haddress : b.pointer - sizeofHeapHeader = b.address := Nat.add_sub_cancel ..
  refine ⟨front, b, back, rfl, rfl, ?_⟩
  rw [haddress]
  exact ht.wellFormed.linked.contents

theorem Tracks.lock (ht : Tracks reserved memory r l) {holder : Nat}
    (hstep : r.step (.lock holder) = some r') : ∃ l', Tracks reserved memory r' l' := by
  simp only [step, Option.bind_eq_some_iff, Option.map_eq_some_iff] at hstep
  obtain ⟨pointer, hholder, ⟨h, locked⟩, hlock, rfl⟩ := hstep
  obtain ⟨front, b, back, rfl, rfl, hheader⟩ := ht.block hholder
  have haddress : b.pointer - sizeofHeapHeader = b.address := Nat.add_sub_cancel ..
  unfold Heap.heapLock at hlock
  simp only [hheader, Option.map_some, Option.some.injEq] at hlock
  split at hlock
  · cases hlock
    rw [haddress]
    have hrewritten : Rewritten b { b with kind := .immovable } :=
      ⟨rfl, rfl, fun _ hkind => nomatch hkind⟩
    refine ⟨_, ht.rewrite hrewritten hholder (fun _ _ => rfl) ?_⟩
    intro piece hpiece href
    rw [hpiece, href]
  · cases hlock
    exact ⟨_, ht⟩

theorem Tracks.unlock (ht : Tracks reserved memory r l) {holder : Nat}
    (hstep : r.step (.unlock holder) = some r') : ∃ l', Tracks reserved memory r' l' := by
  simp only [step, Option.bind_eq_some_iff, Option.map_eq_some_iff] at hstep
  obtain ⟨pointer, hholder, h, hunlock, rfl⟩ := hstep
  obtain ⟨front, b, back, rfl, rfl, hheader⟩ := ht.block hholder
  have haddress : b.pointer - sizeofHeapHeader = b.address := Nat.add_sub_cancel ..
  unfold Heap.heapUnlock at hunlock
  rw [modifyHeader_eq hheader, Option.some.injEq] at hunlock
  rw [← hunlock, haddress]
  have hrewritten : Rewritten b { b with kind := .movable } :=
    ⟨rfl, rfl, fun _ hkind => nomatch hkind⟩
  refine ⟨_, ht.rewrite hrewritten hholder (fun _ _ => rfl) ?_⟩
  intro piece hpiece href
  rw [hpiece, href]

theorem Tracks.setUpdate (ht : Tracks reserved memory r l) {holder : Nat} {ref : Heap.UpdateRef}
    (hstep : r.step (.setUpdate holder ref) = some r') : ∃ l', Tracks reserved memory r' l' := by
  simp only [step, Option.bind_eq_some_iff, Option.map_eq_some_iff] at hstep
  obtain ⟨pointer, hholder, piece, hpiece, h, hset, rfl⟩ := hstep
  obtain ⟨front, b, back, rfl, rfl, hheader⟩ := ht.block hholder
  have haddress : b.pointer - sizeofHeapHeader = b.address := Nat.add_sub_cancel ..
  unfold Heap.heapSetUpdate at hset
  rw [modifyHeader_eq hheader, Option.some.injEq] at hset
  rw [← hset, haddress]
  have hrewritten : Rewritten b { b with updateRef := ref } := ⟨rfl, rfl, id⟩
  refine ⟨_, ht.rewrite hrewritten hholder
    (fun other hne => Function.update_of_ne hne ..) ?_⟩
  intro piece' hpiece' _
  cases hpiece.symm.trans hpiece'
  exact Function.update_self ..

/-! A holder writes to its piece. -/

/-- Pieces of different holders have no byte in common. -/
theorem Tracks.apart (ht : Tracks reserved memory r l) {holder other pointer pointer' : Nat}
    {piece piece' : Piece} (hne : holder ≠ other) (hholder : r.pointers holder = some pointer)
    (hother : r.pointers other = some pointer') (hpiece : r.pieces holder = some piece)
    (hpiece' : r.pieces other = some piece') :
    pointer + piece.size ≤ pointer' ∨ pointer' + piece'.size ≤ pointer := by
  obtain ⟨b, hb, rfl, _, hpieceb, hholds⟩ := ht.held holder pointer hholder
  obtain ⟨c, hc, rfl, _, hpiecec, hholds'⟩ := ht.held other pointer' hother
  cases hpieceb.symm.trans hpiece
  cases hpiecec.symm.trans hpiece'
  have hsize := hholds.size
  have hsize' := hholds'.size
  rcases ht.wellFormed.ordered.apart hb hc with rfl | hlt | hlt
  · exact absurd (ht.distinct holder other _ hholder hother) hne
  · unfold Block.finish at hlt
    unfold Block.pointer
    omega
  · unfold Block.finish at hlt
    unfold Block.pointer
    omega

theorem Tracks.store (ht : Tracks reserved memory r l) {holder offset : Nat} {value : UInt8}
    (hstep : r.step (.store holder offset value) = some r') : Tracks reserved memory r' l := by
  simp only [step, Option.bind_eq_some_iff] at hstep
  obtain ⟨pointer, hholder, piece, hpiece, hstep⟩ := hstep
  split at hstep
  · rename_i hoffset
    cases hstep
    have hw := ht.wellFormed
    obtain ⟨b, hb, rfl, _, hpieceb, hholds⟩ := ht.held holder pointer hholder
    cases hpieceb.symm.trans hpiece
    have hsize := hholds.size
    have hedits := r.heap.store_edits (b.pointer + offset) value
    have hw' : WellFormed (r.heap.store (b.pointer + offset) value) l := by
      refine hw.edits hb (hedits.mono ?_)
      rintro x rfl
      unfold Block.pointer Block.finish
      omega
    refine ⟨hw', ht.accounts, ?_, ht.distinct, ht.reserved, ht.gaps, ht.within⟩
    intro other pointer' hother
    obtain ⟨c, hc, rfl, piece', hpiece', hholds'⟩ := ht.held other pointer' hother
    by_cases hsame : other = holder
    · subst hsame
      have hpointer := Option.some.inj (hholder.symm.trans hother)
      obtain rfl := hw.ordered.eq_of_address hb hc (Block.pointer_inj hpointer)
      refine ⟨b, hb, rfl, _, Function.update_self .., hholds.live, hholds.size, hholds.updateRef, ?_⟩
      intro i hi v hv
      by_cases hio : i = offset
      · subst hio
        have hwritten := hv.symm.trans (Function.update_self ..)
        rw [hwritten]
        exact Function.update_self ..
      · have hwritten := (Function.update_of_ne hio ..).symm.trans hv
        rw [hedits.bytes _ (by omega)]
        exact hholds.data i hi v hwritten
    · refine ⟨c, hc, rfl, piece', ?_, hholds'.live, hholds'.size,
        hholds'.updateRef, ?_⟩
      · exact (Function.update_of_ne hsame ..).trans hpiece'
      · intro i hi v hv
        have hapart := ht.apart hsame hother hholder hpiece' hpiece
        rw [hedits.bytes _ (by omega)]
        exact hholds'.data i hi v hv
  · cases hstep

/-! Blocks are allocated and freed. -/

/-- The holders follow the blocks that have been moved. -/
theorem Tracks.follow (ht : Tracks reserved memory r l) {h' : Heap} {result : Option Nat}
    {moves : List Relocation} (ha : Allocated r.heap l size h' result l' moves) :
    Tracks reserved memory (r.follow h') l' := by
  have hmoves : h'.relocations.drop r.heap.relocations.length = moves := by
    rw [ha.relocations, List.drop_left]
  have he := ha.evolution
  have hpointers : ∀ holder pointer, (r.follow h').pointers holder = some pointer →
      ∃ b ∈ l, r.pointers holder = some b.pointer ∧ landing moves b.pointer = pointer ∧
        ∃ piece, r.pieces holder = some piece ∧ HoldsPiece r.heap b piece := by
    intro holder pointer hholder
    unfold HeapRecord.follow at hholder
    simp only [hmoves, Option.map_eq_some_iff] at hholder
    obtain ⟨before, hbefore, hlands⟩ := hholder
    obtain ⟨b, hb, rfl, hpiece⟩ := ht.held holder before hbefore
    exact ⟨b, hb, hbefore, hlands, hpiece⟩
  have hreserved : ∀ b ∈ reserved, b ∈ l' ∧ b.kind = .immovable := by
    intro b hb
    obtain ⟨hbl, hkind, -⟩ := ht.reserved b hb
    exact ⟨(he.immovable b hbl hkind).1, hkind⟩
  refine ⟨ha.wellFormed, ha.surplus.trans ht.accounts, ?_, ?_, ?_, ht.gaps.congr he.covered,
    fun x hx => ht.within x ((he.covered x).mp hx)⟩
  · intro holder pointer hholder
    obtain ⟨b, hb, _, hlands, piece, hpiece, hholds⟩ := hpointers holder pointer hholder
    cases hkind : b.kind with
    | available => exact absurd hkind hholds.live
    | immovable =>
        obtain ⟨hmem, hnil, hdata⟩ := he.immovable b hb hkind
        exact ⟨b, hmem, (landing_of_itinerary_nil hnil).symm.trans hlands, piece, hpiece,
          hholds.sameData hholds.live rfl hdata⟩
    | movable =>
        obtain ⟨b', hmem, hpointer, hkind', href, hdata, -⟩ := he.movable b hb hkind
        have hlive : b'.Live := fun havailable => nomatch hkind'.symm.trans havailable
        exact ⟨b', hmem, hpointer.trans hlands, piece, hpiece,
          hholds.sameData hlive href hdata⟩
  · intro holder other pointer hholder hother
    obtain ⟨b, hb, hbefore, hlands, _, _, hholds⟩ := hpointers holder pointer hholder
    obtain ⟨c, hc, hbefore', hlands', _, _, hholds'⟩ := hpointers other pointer hother
    obtain rfl := he.injective b hb c hc hholds.live hholds'.live (hlands.trans hlands'.symm)
    exact ht.distinct holder other _ hbefore hbefore'
  · intro b hb
    refine ⟨(hreserved b hb).1, (hreserved b hb).2, ?_⟩
    intro holder hholder
    obtain ⟨hbl, hkind, hunheld⟩ := ht.reserved b hb
    obtain ⟨c, hc, hbefore, hlands, _, _, hholds⟩ := hpointers holder _ hholder
    have hlive : b.Live := fun havailable => nomatch hkind.symm.trans havailable
    have hstays := landing_of_itinerary_nil (he.immovable b hbl hkind).2.1
    obtain rfl := he.injective c hc b hbl hholds.live hlive (hlands.trans hstays.symm)
    exact hunheld holder hbefore

/-- A block nobody else holds is given away. -/
theorem Tracks.give (ht : Tracks reserved memory r l) {holder size : Nat} (hb : b ∈ l)
    (hlive : b.Live) (hsize : size + sizeofHeapHeader ≤ b.size)
    (href : b.updateRef = .absolute none)
    (hunheld : ∀ other, r.pointers other ≠ some b.pointer) (hfree : b ∉ reserved) :
    Tracks reserved memory (r.give holder b.pointer size) l := by
  refine ⟨ht.wellFormed, ht.accounts, ?_, ?_, ?_, ht.gaps, ht.within⟩
  · intro other pointer hother
    by_cases hsame : other = holder
    · subst hsame
      have hpointer := hother.symm.trans (Function.update_self ..)
      cases hpointer
      exact ⟨b, hb, rfl, _, Function.update_self .., hlive, hsize, href,
        fun _ _ _ hv => nomatch hv⟩
    · have hbefore := (Function.update_of_ne hsame ..).symm.trans hother
      obtain ⟨c, hc, hpointer, piece, hpiece, hholds⟩ := ht.held other pointer hbefore
      exact ⟨c, hc, hpointer, piece, (Function.update_of_ne hsame ..).trans hpiece, hholds⟩
  · intro first second pointer hfirst hsecond
    by_cases hsame : first = holder <;> by_cases hsame' : second = holder
    · rw [hsame, hsame']
    · subst hsame
      cases hfirst.symm.trans (Function.update_self ..)
      exact absurd ((Function.update_of_ne hsame' ..).symm.trans hsecond) (hunheld second)
    · subst hsame'
      cases hsecond.symm.trans (Function.update_self ..)
      exact absurd ((Function.update_of_ne hsame ..).symm.trans hfirst) (hunheld first)
    · exact ht.distinct first second pointer
        ((Function.update_of_ne hsame ..).symm.trans hfirst)
        ((Function.update_of_ne hsame' ..).symm.trans hsecond)
  · intro c hc
    obtain ⟨hcl, hkind, hcunheld⟩ := ht.reserved c hc
    refine ⟨hcl, hkind, ?_⟩
    intro other hother
    by_cases hsame : other = holder
    · subst hsame
      have hpointer := Option.some.inj (hother.symm.trans (Function.update_self ..)).symm
      obtain rfl := ht.wellFormed.ordered.eq_of_address hb hcl (Block.pointer_inj hpointer)
      exact hfree hc
    · exact hcunheld other ((Function.update_of_ne hsame ..).symm.trans hother)

theorem Tracks.alloc (ht : Tracks reserved memory r l) {fuel holder size : Nat}
    (hallows : r.Allows (.alloc fuel holder size))
    (hstep : r.step (.alloc fuel holder size) = some r') : ∃ l', Tracks reserved memory r' l' := by
  simp only [step] at hstep
  split at hstep
  · simp only [Option.map_eq_some_iff] at hstep
    obtain ⟨⟨h', result⟩, hrun, hstep⟩ := hstep
    obtain ⟨l', moves, ha⟩ := heapAlloc_allocates fuel r.heap l size h' result ht.wellFormed hrun
    have hfollow := ht.follow ha
    cases result with
    | none =>
        cases hstep
        exact ⟨l', hfollow⟩
    | some pointer =>
        cases hstep
        obtain ⟨b, hb, rfl, hkind, href, hlarge, hfresh, -⟩ := ha.result pointer rfl
        have hlive : b.Live := fun havailable => nomatch hkind.symm.trans havailable
        refine ⟨l', hfollow.give hb hlive ((le_roundSize hallows).trans hlarge) href ?_ ?_⟩
        · intro other hother
          have hmoves : h'.relocations.drop r.heap.relocations.length = moves := by
            rw [ha.relocations, List.drop_left]
          unfold HeapRecord.follow at hother
          simp only [hmoves, Option.map_eq_some_iff] at hother
          obtain ⟨before, hbefore, hlands⟩ := hother
          obtain ⟨c, hc, rfl, _, _, hholds⟩ := ht.held other before hbefore
          exact hfresh c hc hholds.live hlands
        · intro hreserved
          obtain ⟨hbl, hkind', -⟩ := ht.reserved b hreserved
          have hstays := landing_of_itinerary_nil (ha.evolution.immovable b hbl hkind').2.1
          exact hfresh b hbl hlive hstays
  · cases hstep

/-- A block that is held can be freed where the one behind it is in use: only one that is
reserved is not adjacent to one in front that is available. -/
theorem Tracks.freesCleanly (ht : Tracks reserved memory r (front ++ b :: back)) {holder : Nat}
    (hallows : r.Allows (.free holder)) (hholder : r.pointers holder = some b.pointer) :
    FreesCleanly front b back where
  behind := by
    intro c hc
    cases back with
    | nil => cases hc
    | cons d back =>
        cases hc
        have hshape : front ++ b :: c :: back = (front ++ [b]) ++ c :: back := by simp
        have hlinked := ht.wellFormed.linked
        have hheader := hlinked.contents
        rw [hshape] at hlinked
        have haddress : b.pointer - sizeofHeapHeader = b.address := Nat.add_sub_cancel ..
        exact hallows _ hholder _ (haddress ▸ hheader) c.address rfl _ hlinked.contents
  before := by
    intro a ha havailable
    rcases List.eq_nil_or_concat front with rfl | ⟨front, d, rfl⟩
    · cases ha
    · obtain rfl : d = a := by simpa using ha
      have hneighbours := ht.gaps.neighbours ht.wellFormed.ordered
        (fun c hc => (ht.reserved c hc).1) (by simp : _ = front ++ d :: b :: back)
      rcases hneighbours with hd | hb | hcontiguous
      · cases havailable.symm.trans (ht.reserved d hd).2.1
      · exact absurd hholder ((ht.reserved b hb).2.2 holder)
      · exact hcontiguous

theorem Tracks.free (ht : Tracks reserved memory r l) {holder : Nat}
    (hallows : r.Allows (.free holder)) (hstep : r.step (.free holder) = some r') :
    ∃ l', Tracks reserved memory r' l' := by
  simp only [step, Option.bind_eq_some_iff, Option.map_eq_some_iff] at hstep
  obtain ⟨pointer, hholder, h', hfree, rfl⟩ := hstep
  obtain ⟨front, b, back, rfl, rfl, -⟩ := ht.block hholder
  have hw := ht.wellFormed
  have hlive : b.Live := by
    obtain ⟨c, hc, hpointer, piece, -, hpiece⟩ := ht.held holder _ hholder
    obtain rfl := hw.ordered.eq_of_address hc (by simp) (Block.pointer_inj hpointer)
    exact hpiece.live
  obtain ⟨_, hfree', hlists, hused, hedits⟩ := (ht.freesCleanly hallows hholder).frees hw.lists
  cases hfree'.symm.trans hfree
  have hcovered : ∀ x, Covered (joinLists front (joinLists [b.freed] back)) x ↔
      Covered (front ++ b :: back) x := by
    intro x
    rw [joinLists_covered, covered_append, joinLists_covered, ← covered_append]
    exact covered_extents (by simp [extents, Block.freed])
  -- the blocks of others are still there
  have hkept : ∀ c ∈ front ++ b :: back, c ≠ b → c.Live →
      c ∈ joinLists front (joinLists [b.freed] back) := by
    intro c hc hne hclive
    have hc' : c ∈ front ∨ c ∈ back := by
      simpa [hne] using hc
    refine mem_joinLists (List.mem_append.mpr (hc'.imp id fun hc => ?_)) hclive
    exact mem_joinLists (List.mem_append.mpr (.inr hc)) hclive
  have hreserved : ∀ c ∈ reserved, c ∈ joinLists front (joinLists [b.freed] back) ∧
      c.kind = .immovable := by
    intro c hc
    obtain ⟨hcl, hkind, hunheld⟩ := ht.reserved c hc
    have hclive : c.Live := by
      intro havailable
      cases hkind.symm.trans havailable
    refine ⟨hkept c hcl ?_ hclive, hkind⟩
    rintro rfl
    exact hunheld holder hholder
  have hgaps := ht.gaps.congr hcovered
  have hother : ∀ other pointer, Function.update r.pointers holder none other = some pointer →
      other ≠ holder ∧ r.pointers other = some pointer := by
    intro other pointer hpointer
    by_cases hsame : other = holder
    · subst hsame
      cases (Function.update_self ..).symm.trans hpointer
    · exact ⟨hsame, (Function.update_of_ne hsame ..).symm.trans hpointer⟩
  refine ⟨_, ⟨?_, hlists.base, hlists.linked, hlists.ordered,
    hgaps.adjoining hlists.ordered hreserved⟩, ?_, ?_, ?_, ?_, hgaps,
    fun x hx => ht.within x ((hcovered x).mp hx)⟩
  · intro hnil
    have hlarger := hw.ordered.larger b (by simp)
    have hx := (hcovered b.address).mpr
      ⟨b, by simp, Nat.le_refl _, by unfold Block.finish; omega⟩
    rw [hnil] at hx
    obtain ⟨c, hc, -⟩ := hx
    cases hc
  · have hbfree : b.free = 0 := if_neg hlive
    have hbfree' : b.freed.free = b.size := if_pos rfl
    have haccounts := ht.accounts
    unfold surplus availableMemory at haccounts ⊢
    rw [joinLists_free, total_append, joinLists_free, hused, hedits.totalMemory]
    rw [← subSize_unuse r.heap.totalMemory r.heap.usedMemory _ b.size] at haccounts
    simp only [total_append, total_cons, total_nil, hbfree, hbfree'] at haccounts ⊢
    refine (congrArg _ ?_).trans haccounts
    omega
  · intro other pointer hpointer
    obtain ⟨hne, hbefore⟩ := hother other pointer hpointer
    obtain ⟨c, hc, rfl, piece, hpiece, hholds⟩ := ht.held other pointer hbefore
    refine ⟨c, hkept c hc ?_ hholds.live, rfl, piece,
      (Function.update_of_ne hne ..).trans hpiece,
      hholds.sameData hholds.live rfl (hedits.sameData_headers hw.ordered hc)⟩
    rintro rfl
    exact hne (ht.distinct other holder _ hbefore hholder)
  · intro first second pointer hfirst hsecond
    exact ht.distinct first second pointer (hother first pointer hfirst).2
      (hother second pointer hsecond).2
  · intro c hc
    refine ⟨(hreserved c hc).1, (hreserved c hc).2, ?_⟩
    intro other hpointer
    exact (ht.reserved c hc).2.2 other (hother other _ hpointer).2

theorem Tracks.step (ht : Tracks reserved memory r l) {op : HeapOp} (hallows : r.Allows op)
    (hstep : r.step op = some r') : ∃ l', Tracks reserved memory r' l' := by
  cases op with
  | alloc fuel holder size => exact ht.alloc hallows hstep
  | free holder => exact ht.free hallows hstep
  | store holder offset value => exact ⟨l, ht.store hstep⟩
  | lock holder => exact ht.lock hstep
  | unlock holder => exact ht.unlock hstep
  | setUpdate holder ref => exact ht.setUpdate hstep

/-! Over whole runs. -/

/-- Nobody has been given a block yet, and memory between blocks that belongs to none lies
at one that is reserved. -/
def Starting (fixed : List Block) (memory : Nat → Prop) (r : HeapRecord) : Prop :=
  ∃ l, WellFormed r.heap l ∧ surplus r.heap l = 0 ∧ GapsReserved fixed l ∧
    (∀ b ∈ fixed, b ∈ l ∧ b.kind = .immovable) ∧ (∀ x, Covered l x → memory x) ∧
    ∀ holder, r.pointers holder = none

/-- Every holder has its piece to itself and finds in it what it has written last, wherever
the piece is by now; while it is locked it stays where it is. -/
structure Kept (fixed : List Block) (memory : Nat → Prop) (r : HeapRecord) : Prop where
  written : ∀ holder pointer piece, r.pointers holder = some pointer →
    r.pieces holder = some piece → ∀ i < piece.size, ∀ value, piece.written i = some value →
      r.heap.bytes (pointer + i) = some value
  apart : ∀ holder other pointer pointer' piece piece', holder ≠ other →
    r.pointers holder = some pointer → r.pointers other = some pointer' →
    r.pieces holder = some piece → r.pieces other = some piece' →
    pointer + piece.size ≤ pointer' ∨ pointer' + piece'.size ≤ pointer
  within : ∀ holder pointer piece, r.pointers holder = some pointer →
    r.pieces holder = some piece → ∀ i < piece.size, memory (pointer + i)
  reserved : ∀ b ∈ fixed, ∀ holder pointer piece, r.pointers holder = some pointer →
    r.pieces holder = some piece → pointer + piece.size ≤ b.address ∨ b.finish ≤ pointer
  accounted : ∃ l, WellFormed r.heap l ∧ surplus r.heap l = 0 ∧
    ∀ holder pointer, r.pointers holder = some pointer → ∃ b ∈ l, b.pointer = pointer ∧ b.Live
  locked : ∀ fuel holder other size pointer contents r', r.pointers holder = some pointer →
    r.heap.headers (pointer - sizeofHeapHeader) = some contents → contents.kind = .immovable →
    r.step (.alloc fuel other size) = some r' → r'.pointers holder = some pointer
  told : ∀ fuel holder other size pointer piece r', r.pointers holder = some pointer →
    r.pieces holder = some piece → r.step (.alloc fuel other size) = some r' →
    ∃ moves, r'.heap.relocations = r.heap.relocations ++ moves ∧
      (∀ move ∈ itinerary moves pointer, move.updateRef = piece.updateRef) ∧
      r'.pointers holder =
        some (((itinerary moves pointer).getLast?.map Relocation.destPtr).getD pointer)

theorem Starting.tracks (hs : Starting reserved memory r) : ∃ l, Tracks reserved memory r l := by
  obtain ⟨l, hw, haccounts, hgaps, hreserved, hwithin, hnone⟩ := hs
  refine ⟨l, hw, haccounts, ?_, ?_, ?_, hgaps, hwithin⟩
  · intro holder pointer hholder
    exact nomatch (hnone holder).symm.trans hholder
  · intro holder other pointer hholder
    exact nomatch (hnone holder).symm.trans hholder
  · intro b hb
    refine ⟨(hreserved b hb).1, (hreserved b hb).2, ?_⟩
    intro holder hholder
    exact nomatch (hnone holder).symm.trans hholder

/-- Every block that `heap_alloc` moves takes its holder with it, by the `update_ref` the
holder has set; one that is locked stays. -/
theorem Tracks.told (ht : Tracks reserved memory r l) {fuel holder other size pointer : Nat}
    {piece : Piece} (hholder : r.pointers holder = some pointer)
    (hpiece : r.pieces holder = some piece)
    (hstep : r.step (.alloc fuel other size) = some r') :
    ∃ moves, r'.heap.relocations = r.heap.relocations ++ moves ∧
      (∀ move ∈ itinerary moves pointer, move.updateRef = piece.updateRef) ∧
      r'.pointers holder =
        some (((itinerary moves pointer).getLast?.map Relocation.destPtr).getD pointer) ∧
      ∀ contents, r.heap.headers (pointer - sizeofHeapHeader) = some contents →
        contents.kind = .immovable → itinerary moves pointer = [] := by
  obtain ⟨front, b, back, rfl, rfl, hheader⟩ := ht.block hholder
  obtain ⟨c, hc, hpointer, _, hpiece', hholds⟩ := ht.held holder _ hholder
  obtain rfl := ht.wellFormed.ordered.eq_of_address hc (by simp) (Block.pointer_inj hpointer)
  cases hpiece.symm.trans hpiece'
  simp only [HeapRecord.step] at hstep
  split at hstep
  · rename_i hnone
    simp only [Option.map_eq_some_iff] at hstep
    obtain ⟨⟨h', result⟩, hrun, hstep⟩ := hstep
    obtain ⟨l', moves, ha⟩ := heapAlloc_allocates fuel r.heap _ size h' result ht.wellFormed hrun
    have htold : ∀ move ∈ itinerary moves c.pointer, move.updateRef = piece.updateRef := by
      intro move hmove
      cases hkind : c.kind with
      | available => exact absurd hkind hholds.live
      | immovable =>
          rw [(ha.evolution.immovable c hc hkind).2.1] at hmove
          cases hmove
      | movable =>
          obtain ⟨-, -, -, -, -, -, hmoves⟩ := ha.evolution.movable c hc hkind
          exact (hmoves move hmove).trans hholds.updateRef
    have hstays : ∀ contents, r.heap.headers (c.pointer - sizeofHeapHeader) = some contents →
        contents.kind = .immovable → itinerary moves c.pointer = [] := by
      intro contents hcontents hkind
      cases hheader.symm.trans hcontents
      exact (ha.evolution.immovable c hc hkind).2.1
    have hfollow : (r.follow h').pointers holder = some
        (((itinerary moves c.pointer).getLast?.map Relocation.destPtr).getD c.pointer) := by
      unfold HeapRecord.follow
      rw [ha.relocations, List.drop_left, ← landing_eq_last]
      simp [hholder]
    have hne : holder ≠ other := by
      rintro rfl
      exact nomatch hnone.symm.trans hholder
    cases result with
    | none =>
        cases hstep
        exact ⟨moves, ha.relocations, htold, hfollow, hstays⟩
    | some new =>
        cases hstep
        exact ⟨moves, ha.relocations, htold, (Function.update_of_ne hne ..).trans hfollow, hstays⟩
  · cases hstep

theorem Tracks.kept (ht : Tracks reserved memory r l) : Kept reserved memory r where
  written := by
    intro holder pointer piece hholder hpiece
    obtain ⟨b, -, rfl, _, hpiece', hholds⟩ := ht.held holder pointer hholder
    cases hpiece.symm.trans hpiece'
    exact hholds.data
  apart := fun _ _ _ _ _ _ hne hholder hother hpiece hpiece' =>
    ht.apart hne hholder hother hpiece hpiece'
  within := by
    intro holder pointer piece hholder hpiece i hi
    obtain ⟨b, hb, rfl, _, hpiece', hholds⟩ := ht.held holder pointer hholder
    cases hpiece.symm.trans hpiece'
    have hsize := hholds.size
    refine ht.within _ ⟨b, hb, ?_⟩
    unfold Block.pointer Block.finish
    omega
  reserved := by
    intro c hc holder pointer piece hholder hpiece
    obtain ⟨b, hb, rfl, _, hpiece', hholds⟩ := ht.held holder pointer hholder
    cases hpiece.symm.trans hpiece'
    obtain ⟨hcl, -, hunheld⟩ := ht.reserved c hc
    have hsize := hholds.size
    rcases ht.wellFormed.ordered.apart hb hcl with rfl | hlt | hlt
    · exact absurd hholder (hunheld holder)
    · unfold Block.finish at hlt
      unfold Block.pointer
      omega
    · unfold Block.pointer
      omega
  accounted := by
    refine ⟨l, ht.wellFormed, ht.accounts, ?_⟩
    intro holder pointer hholder
    obtain ⟨b, hb, hpointer, _, _, hholds⟩ := ht.held holder pointer hholder
    exact ⟨b, hb, hpointer, hholds.live⟩
  locked := by
    intro fuel holder other size pointer contents r' hholder hheader hkind hstep
    obtain ⟨b, -, -, piece, hpiece, -⟩ := ht.held holder pointer hholder
    obtain ⟨moves, -, -, hpointer, hstays⟩ := ht.told hholder hpiece hstep
    rw [hpointer, hstays contents hheader hkind]
    rfl
  told := by
    intro fuel holder other size pointer piece r' hholder hpiece hstep
    obtain ⟨moves, hmoves, htold, hpointer, -⟩ := ht.told hholder hpiece hstep
    exact ⟨moves, hmoves, htold, hpointer⟩

theorem tracks_of_reaches
    (hreaches : Reaches HeapRecord.step HeapRecord.Allows (Starting reserved memory) r) :
    ∃ l, Tracks reserved memory r l := by
  refine hreaches.invariant (fun _ hs => hs.tracks) ?_
  rintro r op r' ⟨l, ht⟩ hallows hstep
  exact ht.step hallows hstep

/-- A block in the middle is reserved, with all of what is around it available. -/
def around : Block :=
  .plain 300 100 .immovable

def divided : List Block :=
  [.plain 100 200 .available, around, .plain 400 300 .available]

def unused : HeapRecord where
  heap := withBlocks divided 600 100
  pointers := fun _ => none
  pieces := fun _ => none

theorem wellFormed_divided : WellFormed (withBlocks divided 600 100) divided := by
  refine wellFormed_withBlocks ⟨?_, ?_, ?_⟩ (by decide) ?_ 600 100
  all_goals decide

theorem starting_unused : Starting [around] (fun x => 100 ≤ x ∧ x < 700) unused := by
  refine ⟨divided, wellFormed_divided, by decide, ?_, by decide, ?_, fun _ => rfl⟩
  · exact gapsReserved_of_chain wellFormed_divided.ordered (by decide)
  · have hinside : ∀ b ∈ divided, 100 ≤ b.address ∧ b.finish ≤ 700 := by decide
    rintro x ⟨b, hb, hbx, hxb⟩
    exact ⟨(hinside b hb).1.trans hbx, hxb.trans_le (hinside b hb).2⟩

/-- The first block has to make way for the second one, and is freed in the end. -/
def making : List HeapOp :=
  [.alloc 10 0 40, .unlock 0, .setUpdate 0 (.absolute (some 77)), .store 0 3 7, .alloc 10 1 100,
    .store 1 99 8, .alloc 10 2 200, .lock 0, .store 0 39 9]

end HeapRecord

end Cenix
