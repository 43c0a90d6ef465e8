import Cenix.Heap.Allocation

namespace Cenix.Heap

/-! The run is emptied block by block, or given up. -/

variable {bytes bytes' : Nat → Option UInt8}

/-- The headers of a run are rewritten, but no block is put in use or given back. -/
theorem Evolution.rewritten (hr : Room P a e Q) (hs : Spans a R e)
    (hlarger : ∀ b ∈ R, sizeofHeapHeader < b.size) {g : Block → Block}
    (haddress : ∀ b, (g b).address = b.address) (hsize : ∀ b, (g b).size = b.size)
    (hkind : ∀ b ∈ R, (g b).kind = b.kind) (href : ∀ b, (g b).updateRef = b.updateRef)
    (hkinds : ∀ b ∈ R, b.kind ≠ .immovable)
    (hdata : ∀ b ∈ P ++ R ++ Q, SameData bytes bytes' b b) :
    Evolution bytes (P ++ R ++ Q) bytes' (P ++ R.map g ++ Q) [] := by
  have ho := hr.ordered hs hlarger
  have hextents : extents (P ++ R.map g ++ Q) = extents (P ++ R ++ Q) := by
    simp only [extents_append, extents_map haddress hsize]
  refine ⟨fun _ => covered_extents hextents, size_extents hextents, ?_, ?_, ?_, ?_⟩
  · have hrun : Heap.movables (R.map g) = Heap.movables R := by
      unfold Heap.movables
      rw [List.countP_map]
      refine List.countP_congr fun b hb => ?_
      simp [hkind b hb]
    simp only [movables_append, hrun]
  · intro b hb himmovable
    refine ⟨?_, rfl, hdata b hb⟩
    have hnot : b ∉ R := fun hmem => hkinds b hmem himmovable
    simp only [List.mem_append] at hb ⊢
    tauto
  · intro b hb hmovable
    by_cases hrun : b ∈ R
    · refine ⟨g b, ?_, ?_, (hkind b hrun).trans hmovable, href b, ?_, fun _ hm => nomatch hm⟩
      · have hmem := List.mem_map_of_mem (f := g) hrun
        simp [hmem]
      · unfold Block.pointer
        rw [haddress]
        rfl
      · exact (hdata b hb).congr rfl rfl (haddress b) (hsize b)
    · refine ⟨b, ?_, rfl, hmovable, rfl, hdata b hb, fun _ hm => nomatch hm⟩
      simp only [List.mem_append] at hb ⊢
      tauto
  · exact fun b hb c hc _ _ heq => ho.eq_of_address hb hc (Block.pointer_inj heq)

theorem Selected.ordered (hs : Selected h₀ l₀ size s a e h P R Q) :
    Ordered (P ++ R ++ Q) :=
  hs.room.ordered hs.spans hs.larger

theorem Selected.nonempty (hs : Selected h₀ l₀ size s a e h P R Q) : R ≠ [] := by
  rintro rfl
  have hfirst := hs.startHeader
  simp [firstAddress] at hfirst

theorem lastAddress_map {g : Block → Block} (haddress : ∀ b, (g b).address = b.address) :
    lastAddress before (l.map g) = lastAddress before l := by
  induction l generalizing before with
  | nil => rfl
  | cons b l ih =>
      simp only [List.map_cons, lastAddress, haddress]
      exact ih

theorem Selected.pin (hs : Selected h₀ l₀ size s a e h P R Q)
    (hrun : forHeaders pin s.endHeader fuel s.startHeader h = some (h', goesOn)) :
    Stage h₀ l₀ a e h' P (R.map Block.pinned) Q [] := by
  obtain ⟨hl, hsurplus, hedits⟩ := pin_rewrites.loop hs.ordered hs.linked (fun _ _ => trivial)
    hs.startHeader hs.endHeader hrun
  have hedits' : Edits (fun x => ∃ c ∈ P ++ R ++ Q, c.HeaderAt x) h h' :=
    hedits.mono fun x ⟨c, hc, hx⟩ => ⟨c, by simp [hc], hx⟩
  have hrewritten : Evolution h.bytes (P ++ R ++ Q) h'.bytes
      (P ++ (R.map Block.pinned).map Block.reverted ++ Q) [] := by
    rw [List.map_map]
    exact Evolution.rewritten hs.room hs.spans hs.larger (fun _ => rfl) (fun _ => rfl)
      (fun _ _ => rfl) (fun _ => rfl) hs.kinds
      fun b hb => hedits'.sameData_headers hs.ordered hb
  exact {
    linked := hl
    room := hs.room
    spans := hs.spans.map (fun _ _ => rfl) fun _ _ => rfl
    nonempty := by simpa using hs.nonempty
    larger := by
      intro b hb
      obtain ⟨c, hc, rfl⟩ := List.mem_map.mp hb
      exact hs.larger c hc
    pinned := by
      intro b hb
      obtain ⟨c, hc, rfl⟩ := List.mem_map.mp hb
      exact ⟨rfl, hs.kinds c hc⟩
    heapBase := hedits.heapBase.trans hs.heapBase
    relocations := by rw [hedits.relocations, hs.relocations, List.append_nil]
    totalMemory := hedits.totalMemory.trans hs.totalMemory
    surplus := hsurplus.trans hs.surplus
    evolution := hs.evolution.trans hrewritten }

/-- The run is given up: what has not been moved is as it was. -/
theorem Stage.revert (hw : WellFormed h₀ l₀) (hs : Stage h₀ l₀ a e h P R Q moves)
    (hfirst : firstAddress R none = some first) (hlast : lastAddress none R = some last)
    (hrun : forHeaders revert last fuel first h = some (h', goesOn)) (n : Nat) :
    ∃ l', Allocated h₀ l₀ n h' none l' moves := by
  obtain ⟨hl, hsurplus, hedits⟩ := revert_rewrites.loop hs.ordered hs.linked
    (fun b hb => (hs.pinned b hb).1) hfirst hlast hrun
  have hspans := reverted_spans hs.spans
  have hlarger : ∀ b ∈ R.map Block.reverted, sizeofHeapHeader < b.size := by
    intro b hb
    obtain ⟨c, hc, rfl⟩ := List.mem_map.mp hb
    exact hs.larger c hc
  have hordered := hs.room.ordered hspans hlarger
  have hedits' : Edits (fun x => ∃ c ∈ P ++ R.map Block.reverted ++ Q, c.HeaderAt x) h h' := by
    refine hedits.mono ?_
    rintro x ⟨c, hc, hx⟩
    have hmem := List.mem_map_of_mem (f := Block.reverted) hc
    exact ⟨c.reverted, by simp [hmem], hx⟩
  have hkinds : ∀ b ∈ R.map Block.reverted, b.kind ≠ .immovable := by
    intro b hb
    obtain ⟨c, hc, rfl⟩ := List.mem_map.mp hb
    exact (hs.pinned c hc).2
  have hrewritten := Evolution.rewritten (g := id) hs.room hspans hlarger (fun _ => rfl)
    (fun _ => rfl) (fun _ _ => rfl) (fun _ => rfl) hkinds
    fun b hb => hedits'.sameData_headers hordered hb
  rw [List.map_id] at hrewritten
  have hevolution := hs.evolution.trans hrewritten
  rw [List.append_nil] at hevolution
  refine ⟨P ++ R.map Block.reverted ++ Q, ?_⟩
  exact {
    wellFormed := {
      nonempty := by
        have hne := hs.nonempty
        simp [hne]
      base := by
        rw [hedits.heapBase, hs.heapBase, hw.base]
        exact (firstAddress_of_covered hw.ordered hordered hevolution.covered).symm
      linked := hl
      ordered := hordered
      adjoining := hs.room.adjoining hspans (by simpa using hs.nonempty) }
    relocations := hedits.relocations.trans hs.relocations
    totalMemory := hedits.totalMemory.trans hs.totalMemory
    surplus := hsurplus.trans hs.surplus
    evolution := hevolution
    result := fun p hp => nomatch hp }

/-- The run while the blocks `todo` have still to be moved. -/
structure Evacuating (h₀ : Heap) (l₀ : List Block) (s : Search) (a e : Nat)
    (todo : List Block) (h : Heap) (P done Q : List Block) (moves : List Relocation) :
    Prop where
  stage : Stage h₀ l₀ a e h P (done ++ todo) Q moves
  settled : ∀ b ∈ done, b.oldKind ≠ .movable
  startHeader : firstAddress (done ++ todo) none = some s.startHeader
  endHeader : lastAddress none (done ++ todo) = some s.endHeader

theorem Evacuating.header (hv : Evacuating h₀ l₀ s a e (b :: todo) h P done Q moves) :
    h.headers b.address = some (b.contents (firstAddress (todo ++ Q) none)
      (lastAddress none (P ++ done))) := by
  have hl := hv.stage.linked
  have hshape : P ++ (done ++ b :: todo) ++ Q = (P ++ done) ++ b :: (todo ++ Q) := by simp
  rw [hshape] at hl
  exact hl.contents

/-- The header from which the loop goes on finds the next one. -/
theorem Evacuating.next
    (hv : Evacuating h₀ l₀ s a e todo h P (done ++ [b]) Q moves) :
    todo ≠ [] → ∃ contents, h.headers b.address = some contents ∧
      contents.next = firstAddress todo none := by
  intro hne
  have hl := hv.stage.linked
  have hshape : P ++ ((done ++ [b]) ++ todo) ++ Q = (P ++ done) ++ b :: (todo ++ Q) := by simp
  rw [hshape] at hl
  obtain ⟨c, rest, rfl⟩ := List.exists_cons_of_ne_nil hne
  exact ⟨_, hl.contents, rfl⟩

theorem size_le_roundSize {b : Block} (hsize : sizeofHeapHeader < b.size) (hlt : b.size + 3 < 2 ^ 32) :
    b.size ≤ roundSize (b.size - sizeofHeapHeader) := by
  have hsum : b.size - sizeofHeapHeader + sizeofHeapHeader + 3 = b.size + 3 := by omega
  unfold roundSize
  rw [hsum, wrap_of_lt hlt]
  omega

/-- There is no other block beside one that fills the address space. -/
theorem Room.size_lt (hr : Room P a e Q) (hs : Spans a R e) (hb : b ∈ R) (hd : d ∈ P ++ Q) :
    b.size + 3 < 2 ^ 32 := by
  have hmem := hs.mem hb
  have hbounded := hr.bounded
  have hheader : 3 ≤ sizeofHeapHeader := by decide
  unfold Block.finish at hmem
  rcases List.mem_append.mp hd with hd | hd
  · have hbefore := hr.before d hd
    have hdlarger := hr.front.larger d hd
    unfold Block.finish at hbefore
    omega
  · have hafter := hr.after d hd
    have hdlarger := hr.back.larger d hd
    have hdbounded := hr.back.bounded d hd
    unfold Block.finish at hdbounded
    omega

/-- `heap_alloc` does what it should whenever it returns from a nested call. -/
def Allocates (heapAlloc : Heap → Nat → Option (Heap × Option Nat)) : Prop :=
  ∀ h l n h' r, WellFormed h l → heapAlloc h n = some (h', r) →
    ∃ l' moves, Allocated h l n h' r l' moves

/-- A header that has been moved, or need not be. -/
theorem Evacuating.step_settled (heapAlloc : Heap → Nat → Option (Heap × Option Nat))
    (hv : Evacuating h₀ l₀ s a e (b :: todo) h P done Q moves)
    (hkind : b.oldKind ≠ .movable) :
    relocate heapAlloc b.address h = some (h, true) ∧
      Evacuating h₀ l₀ s a e todo h P (done ++ [b]) Q moves := by
  have hshape : (done ++ [b]) ++ todo = done ++ b :: todo := by simp
  refine ⟨?_, ?_⟩
  · unfold relocate
    rw [hv.header, Option.bind_eq_bind, Option.bind_some]
    exact if_pos hkind
  · refine ⟨hshape ▸ hv.stage, ?_, hshape ▸ hv.startHeader, hshape ▸ hv.endHeader⟩
    intro c hc
    rcases List.mem_append.mp hc with hc | hc
    · exact hv.settled c hc
    · exact List.mem_singleton.mp hc ▸ hkind

theorem Evacuating.relocate_eq (heapAlloc : Heap → Nat → Option (Heap × Option Nat))
    (hv : Evacuating h₀ l₀ s a e (b :: todo) h P done Q moves) (hkind : b.oldKind = .movable) :
    relocate heapAlloc b.address h =
      (heapAlloc h (b.size - sizeofHeapHeader)).bind fun r =>
        match r with
        | (h, none) => some (h, false)
        | (h, some destPtr) =>
            (h.moveTo b.address destPtr (b.size - sizeofHeapHeader)).bind fun h =>
              some (h, true) := by
  have hsub : subSize b.size sizeofHeapHeader = b.size - sizeofHeapHeader := by
    have hlarger := hv.stage.larger b (by simp)
    have hbounded := hv.stage.ordered.bounded b (by simp)
    refine subSize_of_le (Nat.le_of_lt hlarger) ?_
    unfold Block.finish at hbounded
    omega
  have hkind' : ¬ b.oldKind ≠ .movable := fun hne => hne hkind
  unfold relocate
  rw [hv.header, Option.bind_eq_bind, Option.bind_some]
  refine (if_neg hkind').trans ?_
  simp only [Block.contents, hsub]
  rfl

/-- A header is moved, or the nested call has failed. -/
theorem Evacuating.step_moved {heapAlloc : Heap → Nat → Option (Heap × Option Nat)}
    (hw : WellFormed h₀ l₀) (hv : Evacuating h₀ l₀ s a e (b :: todo) h P done Q moves)
    (hkind : b.oldKind = .movable)
    (halloc : heapAlloc h (b.size - sizeofHeapHeader) = some (h₁, r))
    (ha : Allocated h (P ++ (done ++ b :: todo) ++ Q) (b.size - sizeofHeapHeader) h₁ r l' later) :
    (relocate heapAlloc b.address h = some (h₁, false) ∧
      ∃ P' Q' moves', Evacuating h₀ l₀ s a e (b :: todo) h₁ P' done Q' moves') ∨
    ∃ h₂ P' Q' moves' b', relocate heapAlloc b.address h = some (h₂, true) ∧
      b'.address = b.address ∧ Evacuating h₀ l₀ s a e todo h₂ P' (done ++ [b']) Q' moves' := by
  obtain ⟨P', Q', -, hstage, hplace⟩ := hv.stage.nested hw ha
  rw [hv.relocate_eq heapAlloc hkind, halloc, Option.bind_some]
  cases r with
  | none =>
      exact Or.inl ⟨rfl, P', Q', _, hstage, hv.settled, hv.startHeader, hv.endHeader⟩
  | some p =>
      obtain ⟨d, rfl, hd⟩ := hplace p rfl
      have hsize : b.size ≤ d.size := by
        have hlt := hstage.room.size_lt hstage.spans (b := b) (by simp) hd.mem
        exact (size_le_roundSize (hstage.larger b (by simp)) hlt).trans hd.size
      obtain ⟨h₂, P₂, Q₂, hmove, hstage₂⟩ := hstage.transfer (x := b) (by simp) hkind
        ⟨hd.mem, hd.kind, hd.updateRef, hsize, hd.fresh, hd.room⟩
      have hrun : Ordered (done ++ b :: todo) := hstage.ordered.append_left.append_right
      have hshape : (done ++ b :: todo).map (exchange b b.vacated) =
          (done ++ [b.vacated]) ++ todo := by
        rw [hrun.map_exchange]
        simp
      rw [hshape] at hstage₂
      refine Or.inr ⟨h₂, P₂, Q₂, _, b.vacated, ?_, rfl, hstage₂, ?_, ?_, ?_⟩
      · simp [hmove]
      · intro c hc
        rcases List.mem_append.mp hc with hc | hc
        · exact hv.settled c hc
        · rw [List.mem_singleton.mp hc]
          simp [Block.vacated]
      · rw [← hv.startHeader]
        cases done <;> rfl
      · rw [← hv.endHeader, lastAddress_append, lastAddress_append, lastAddress_append]
        rfl

def Remaining (h₀ : Heap) (l₀ : List Block) (s : Search) (a e : Nat) (todo : List Block)
    (h : Heap) : Prop :=
  ∃ P done Q moves, Evacuating h₀ l₀ s a e todo h P done Q moves

/-- What one round of the loop does to the run, if it returns. -/
theorem Remaining.step {heapAlloc : Heap → Nat → Option (Heap × Option Nat)}
    (hw : WellFormed h₀ l₀) (halloc : Allocates heapAlloc)
    (hv : Remaining h₀ l₀ s a e (b :: todo) h)
    (hbody : relocate heapAlloc b.address h = some (h', goesOn)) :
    (goesOn = false ∧ Remaining h₀ l₀ s a e (b :: todo) h') ∨
    (goesOn = true ∧ Remaining h₀ l₀ s a e todo h' ∧
      (todo ≠ [] → ∃ contents, h'.headers b.address = some contents ∧
        contents.next = firstAddress todo none)) := by
  obtain ⟨P, done, Q, moves, hv⟩ := hv
  by_cases hkind : b.oldKind = .movable
  · have hbody' := hbody
    rw [hv.relocate_eq heapAlloc hkind] at hbody'
    obtain ⟨⟨h₁, r⟩, hnested, -⟩ := Option.bind_eq_some_iff.mp hbody'
    obtain ⟨l', later, ha⟩ := halloc h _ _ h₁ r (hv.stage.wellFormed hw) hnested
    rcases hv.step_moved hw hkind hnested ha with ⟨heq, P', Q', moves', hv'⟩ |
      ⟨h₂, P', Q', moves', b', heq, haddress, hv'⟩
    · rw [heq] at hbody
      have hsame : h₁ = h' ∧ false = goesOn := by simpa using hbody
      exact Or.inl ⟨hsame.2.symm, P', done, Q', moves', hsame.1 ▸ hv'⟩
    · rw [heq] at hbody
      have hsame : h₂ = h' ∧ true = goesOn := by simpa using hbody
      obtain rfl := hsame.1
      exact Or.inr ⟨hsame.2.symm, ⟨P', _, Q', moves', hv'⟩, haddress ▸ hv'.next⟩
  · obtain ⟨heq, hv'⟩ := hv.step_settled heapAlloc hkind
    rw [heq] at hbody
    have hsame : h = h' ∧ true = goesOn := by simpa using hbody
    obtain rfl := hsame.1
    exact Or.inr ⟨hsame.2.symm, ⟨P, _, Q, moves, hv'⟩, hv'.next⟩

theorem Evacuating.loop {heapAlloc : Heap → Nat → Option (Heap × Option Nat)}
    (hw : WellFormed h₀ l₀) (halloc : Allocates heapAlloc)
    (hv : Evacuating h₀ l₀ s a e R h P [] Q moves)
    (hrun : forHeaders (relocate heapAlloc) s.endHeader fuel s.startHeader h =
      some (h', moved)) :
    (moved = true ∧ Remaining h₀ l₀ s a e [] h') ∨
    (moved = false ∧ ∃ todo, Remaining h₀ l₀ s a e todo h') := by
  have hnodup : (R.map Block.address).Nodup :=
    hv.stage.ordered.append_left.append_right.addresses_nodup
  have hgoesOn : ∀ b todo h h', Remaining h₀ l₀ s a e (b :: todo) h →
      relocate heapAlloc b.address h = some (h', true) →
      Remaining h₀ l₀ s a e todo h' ∧
        (todo ≠ [] → ∃ contents, h'.headers b.address = some contents ∧
          contents.next = firstAddress todo none) := by
    intro b todo h h' hinv hbody
    rcases hinv.step hw halloc hbody with ⟨hfalse, -⟩ | ⟨-, hnext⟩
    · cases hfalse
    · exact hnext
  have hfails : ∀ b todo h h', Remaining h₀ l₀ s a e (b :: todo) h →
      relocate heapAlloc b.address h = some (h', false) →
      ∃ todo, Remaining h₀ l₀ s a e todo h' := by
    intro b todo h h' hinv hbody
    rcases hinv.step hw halloc hbody with ⟨-, hleft⟩ | ⟨htrue, -⟩
    · exact ⟨_, hleft⟩
    · cases htrue
  exact forHeaders_sound (fun h' => ∃ todo, Remaining h₀ l₀ s a e todo h') hgoesOn hfails R
    hv.startHeader hv.endHeader hnodup ⟨P, [], Q, moves, hv⟩ hrun

theorem total_eq_zero {f : Block → Nat} (hf : ∀ b ∈ l, f b = 0) : total f l = 0 := by
  induction l with
  | nil => rfl
  | cons b l ih =>
      rw [total_cons, hf b (by simp), ih fun c hc => hf c (by simp [hc])]

/-- A run without movable blocks is available. -/
theorem Selected.available (hs : Selected h₀ l₀ size s a e h P R Q) (hmove : s.toMove = 0) :
    ∀ b ∈ R, b.kind = .available := by
  intro b hb
  obtain ⟨front, back, rfl⟩ := List.append_of_mem hb
  have hburden : b.burden = 0 := by
    have hsum := hs.toMove
    simp only [total_append, total_cons] at hsum
    omega
  cases hkind : b.kind with
  | available => rfl
  | immovable => exact absurd hkind (hs.kinds b hb)
  | movable =>
      have hlarger := hs.larger b hb
      simp only [Block.burden, hkind, if_true] at hburden
      omega

/-- A run without movable blocks is allocated as it is. -/
theorem Selected.occupy (hw : WellFormed h₀ l₀)
    (hs : Selected h₀ l₀ (roundSize n) s a e h P R Q) (hmove : s.toMove = 0) :
    ∃ h' p l', h.occupy (roundSize n) s = some (h', some p) ∧
      Allocated h₀ l₀ n h' (some p) l' [] := by
  have havailable := hs.available hmove
  have hfree : total Block.free R = if s.toMove = 0 then e - a else 0 := by
    have hsize := hs.spans.size
    have hall : total Block.free R = total Block.size R :=
      total_congr fun b hb => by simp [Block.free, havailable b hb]
    rw [if_pos hmove]
    omega
  have hrelocations : h.relocations = h₀.relocations ++ [] := by
    rw [hs.relocations, List.append_nil]
  exact Allocated.of_occupy hw hs.linked hs.room hs.spans hs.larger hs.startHeader hs.endHeader
    hs.enough hfree hs.heapBase hrelocations hs.totalMemory hs.surplus hs.spans hs.larger
    havailable hs.evolution

/-- A run is allocated when everything has been moved out of it. -/
theorem Remaining.occupy (hw : WellFormed h₀ l₀) (hv : Remaining h₀ l₀ s a e [] h)
    (henough : a + roundSize n ≤ e) (hmove : 0 < s.toMove) :
    ∃ h' p l' moves, h.occupy (roundSize n) s = some (h', some p) ∧
      Allocated h₀ l₀ n h' (some p) l' moves := by
  obtain ⟨P, R, Q, moves, hv⟩ := hv
  have hstage := hv.stage
  rw [List.append_nil] at hstage
  have hfree : total Block.free R = if s.toMove = 0 then e - a else 0 := by
    rw [if_neg (by omega)]
    refine total_eq_zero fun b hb => ?_
    simp [Block.free, (hstage.pinned b hb).1]
  have hlarger : ∀ b ∈ R.map Block.reverted, sizeofHeapHeader < b.size := by
    intro b hb
    obtain ⟨c, hc, rfl⟩ := List.mem_map.mp hb
    exact hstage.larger c hc
  have havailable : ∀ b ∈ R.map Block.reverted, b.kind = .available := by
    intro b hb
    obtain ⟨c, hc, rfl⟩ := List.mem_map.mp hb
    have himmovable := (hstage.pinned c hc).2
    have hmovable := hv.settled c hc
    show c.oldKind = .available
    cases hold : c.oldKind with
    | available => rfl
    | immovable => exact absurd hold himmovable
    | movable => exact absurd hold hmovable
  obtain ⟨h', p, l', heq, ha⟩ := Allocated.of_occupy (n := n) hw hstage.linked
    hstage.room hstage.spans hstage.larger (by simpa using hv.startHeader)
    (by simpa using hv.endHeader) henough hfree hstage.heapBase hstage.relocations
    hstage.totalMemory hstage.surplus (reverted_spans hstage.spans) hlarger havailable
    hstage.evolution
  exact ⟨h', p, l', moves, heq, ha⟩

theorem Selected.evacuating (hs : Selected h₀ l₀ size s a e h P R Q)
    (hpin : forHeaders Heap.pin s.endHeader fuel s.startHeader h = some (h', goesOn)) :
    Evacuating h₀ l₀ s a e (R.map Block.pinned) h' P [] Q [] := by
  refine ⟨hs.pin hpin, (fun _ hb => nomatch hb), ?_, ?_⟩
  · rw [← hs.startHeader]
    cases R <;> rfl
  · rw [← hs.endHeader]
    exact lastAddress_map fun _ => rfl

theorem roundSize_lt : roundSize n < 2 ^ 32 := by
  have hlt : wrap (n + sizeofHeapHeader + 3) < 2 ^ 32 := Nat.mod_lt _ (by omega)
  unfold roundSize
  omega

/-- `heap_alloc` with blocks to move, behind the search loop. -/
theorem takeRun_moving (f : Heap → Nat → Option (Heap × Option Nat)) (fuel : Nat)
    (hsplit : h.splitEnd size s = some h₁) (hmove : 0 < s.toMove) :
    takeRun f fuel h size s =
      (forHeaders pin s.endHeader fuel s.startHeader h₁).bind fun pinned =>
        (forHeaders (relocate f) s.endHeader fuel s.startHeader pinned.1).bind fun r =>
          if r.2 then r.1.occupy size s
          else (forHeaders revert s.endHeader fuel s.startHeader r.1).bind fun reverted =>
            some (reverted.1, none) := by
  unfold takeRun
  rw [hsplit, Option.bind_eq_bind, Option.bind_some]
  exact if_pos hmove

theorem takeRun_settled (f : Heap → Nat → Option (Heap × Option Nat)) (fuel : Nat)
    (hsplit : h.splitEnd size s = some h₁) (hmove : s.toMove = 0) :
    takeRun f fuel h size s = h₁.occupy size s := by
  unfold takeRun
  rw [hsplit, Option.bind_eq_bind, Option.bind_some]
  exact if_neg (by omega)

theorem takeRun_allocates {heapAlloc : Heap → Nat → Option (Heap × Option Nat)}
    (hw : WellFormed h l) (hc : Chosen h l (roundSize n) s P R E Q)
    (halloc : Allocates heapAlloc)
    (hrun : takeRun heapAlloc fuel h (roundSize n) s = some (h', r)) :
    ∃ l' moves, Allocated h l n h' r l' moves := by
  obtain ⟨h₁, R₁, Q₁, a, e, hsplit, hs⟩ := splitEnd_spec hw hc roundSize_lt
  rcases Nat.eq_zero_or_pos s.toMove with hmove | hmove
  · rw [takeRun_settled heapAlloc fuel hsplit hmove] at hrun
    obtain ⟨h₂, p, l', heq, ha⟩ := hs.occupy hw hmove
    rw [heq] at hrun
    have hsame : h₂ = h' ∧ some p = r := by simpa using hrun
    exact ⟨l', [], hsame.1 ▸ hsame.2 ▸ ha⟩
  · rw [takeRun_moving heapAlloc fuel hsplit hmove] at hrun
    obtain ⟨⟨h₂, goesOn⟩, hpin, hrun⟩ := Option.bind_eq_some_iff.mp hrun
    obtain ⟨⟨h₃, moved⟩, hloop, hrun⟩ := Option.bind_eq_some_iff.mp hrun
    rcases (hs.evacuating hpin).loop hw halloc hloop with ⟨rfl, hv⟩ |
      ⟨rfl, todo, P', done, Q', moves, hv⟩
    · obtain ⟨h₄, p, l', moves, heq, ha⟩ := hv.occupy (n := n) hw hs.enough hmove
      have hresult : h₃.occupy (roundSize n) s = some (h', r) := by simpa using hrun
      rw [heq] at hresult
      have hsame : h₄ = h' ∧ some p = r := by simpa using hresult
      exact ⟨l', moves, hsame.1 ▸ hsame.2 ▸ ha⟩
    · have hresult : (forHeaders revert s.endHeader fuel s.startHeader h₃).bind
          (fun r => some (r.1, none)) = some (h', r) := by simpa using hrun
      obtain ⟨⟨h₄, goesOn'⟩, hrevert, hresult⟩ := Option.bind_eq_some_iff.mp hresult
      have hsame : h₄ = h' ∧ none = r := by simpa using hresult
      obtain ⟨l', ha⟩ := hv.stage.revert hw hv.startHeader hv.endHeader hrevert n
      exact ⟨l', moves, hsame.1 ▸ hsame.2 ▸ ha⟩

theorem Allocated.refl (hw : WellFormed h l) (n : Nat) : Allocated h l n h none l [] where
  wellFormed := hw
  relocations := (List.append_nil h.relocations).symm
  totalMemory := rfl
  surplus := rfl
  evolution := Evolution.refl hw.ordered
  result := fun _ hp => nomatch hp

theorem heapAlloc_succ (fuel : Nat) (h : Heap) (n : Nat) :
    heapAlloc (fuel + 1) h n = h.heapBase.bind fun base =>
      (h.headers base).bind fun contents =>
        if h.availableMemory < roundSize n then some (h, none)
        else (h.search (roundSize n) fuel (h.searchFrom base contents.size)).bind fun found =>
          match found with
          | none => some (h, none)
          | some s => takeRun (heapAlloc fuel) fuel h (roundSize n) s :=
  rfl

/-- Every call that returns has kept the heap well formed. The induction is on the
fuel, so that the nested calls are covered. -/
theorem heapAlloc_allocates (fuel : Nat) : Allocates (heapAlloc fuel) := by
  induction fuel with
  | zero => exact fun _ _ _ _ _ _ hrun => nomatch hrun
  | succ fuel ih =>
      intro h l n h' r hw hrun
      obtain ⟨E, Q, rfl, hbase, hheader, hs⟩ := Searching.start hw (roundSize n)
      rw [heapAlloc_succ, hbase, Option.bind_some, hheader, Option.bind_some] at hrun
      by_cases hless : h.availableMemory < roundSize n
      · rw [if_pos hless] at hrun
        have hsame : h = h' ∧ none = r := by simpa using hrun
        exact ⟨E :: Q, [], hsame.1 ▸ hsame.2 ▸ Allocated.refl hw n⟩
      · rw [if_neg hless] at hrun
        obtain ⟨found, hfound, hrun⟩ := Option.bind_eq_some_iff.mp hrun
        cases found with
        | none =>
            have hsame : h = h' ∧ none = r := by simpa using hrun
            exact ⟨E :: Q, [], hsame.1 ▸ hsame.2 ▸ Allocated.refl hw n⟩
        | some s =>
            obtain ⟨P₁, R₁, E₁, Q₁, hc⟩ := search_chosen hw hs hfound
            exact takeRun_allocates hw hc ih hrun

end Cenix.Heap
