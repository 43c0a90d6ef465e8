import Cenix.Heap.Searching

namespace Cenix.Heap

/-! What `heap_alloc` does when it returns. -/

theorem search_chosen (hw : WellFormed h l) (hs : Searching h l size s P R E Q)
    (hfound : h.search size fuel s = some (some s')) :
    ∃ P R E Q, Chosen h l size s' P R E Q := by
  induction fuel generalizing s P R E Q with
  | zero => cases hfound
  | succ fuel ih =>
      rw [search] at hfound
      rcases searchRound_spec hw hs with hround | ⟨s₁, hround, hchosen⟩ |
        ⟨s₁, P₁, R₁, E₁, Q₁, hround, hs₁, -⟩
      · simp [hround] at hfound
      · rw [hround] at hfound
        have heq : s₁ = s' := by simpa using hfound
        exact ⟨P, R, E, Q, heq ▸ hchosen⟩
      · rw [hround] at hfound
        exact ih hs₁ hfound

theorem spans_of_chain (hchain : run.IsChain Adjoining) (hne : run ≠ [])
    (hkinds : ∀ b ∈ run, b.kind ≠ .immovable) : ∃ a e, Spans a run e := by
  induction run with
  | nil => exact absurd rfl hne
  | cons b run ih =>
      cases run with
      | nil => exact ⟨b.address, b.finish, rfl, rfl⟩
      | cons c run =>
          obtain ⟨hbc, htail⟩ := List.isChain_cons_cons.mp hchain
          obtain ⟨a, e, hs⟩ := ih htail (by simp) fun d hd => hkinds d (by simp [hd])
          have hcontiguous : b.finish = c.address := by
            rcases hbc with hkind | hkind | heq
            · exact absurd hkind (hkinds b (by simp))
            · exact absurd hkind (hkinds c (by simp))
            · exact heq
          refine ⟨b.address, e, rfl, ?_⟩
          rw [hcontiguous, hs.1]
          exact hs

/-- The heap with the run `R`, from `a` to `e`, that is going to be allocated. -/
structure Selected (h₀ : Heap) (l₀ : List Block) (size : Nat) (s : Search) (a e : Nat)
    (h : Heap) (P R Q : List Block) : Prop where
  linked : Linked h none (P ++ R ++ Q) none
  room : Room P a e Q
  spans : Spans a R e
  larger : ∀ b ∈ R, sizeofHeapHeader < b.size
  kinds : ∀ b ∈ R, b.kind ≠ .immovable
  startHeader : firstAddress R none = some s.startHeader
  endHeader : lastAddress none R = some s.endHeader
  toMove : s.toMove = total Block.burden R
  enough : a + size ≤ e
  heapBase : h.heapBase = h₀.heapBase
  relocations : h.relocations = h₀.relocations
  totalMemory : h.totalMemory = h₀.totalMemory
  surplus : surplus h (P ++ R ++ Q) = surplus h₀ l₀
  evolution : Evolution h₀.bytes l₀ h.bytes (P ++ R ++ Q) []

theorem Chosen.selected (hw : WellFormed h l) (hc : Chosen h l size s P R E Q) :
    ∃ a e, Selected h l size s a e h P (R ++ [E]) Q := by
  have hblocks : l = P ++ (R ++ [E]) ++ Q := by simp [hc.blocks]
  have ho := hblocks ▸ hw.ordered
  have hchain := hblocks ▸ hw.adjoining
  obtain ⟨a, e, hspans⟩ :=
    spans_of_chain hchain.left_of_append.right_of_append (by simp) hc.kinds
  refine ⟨a, e, ?_⟩
  exact {
    linked := hblocks ▸ hw.linked
    room := Room.of_run ho hchain hspans (by simp) hc.kinds
    spans := hspans
    larger := fun b hb => ho.append_left.append_right.larger b hb
    kinds := hc.kinds
    startHeader := hc.startHeader
    endHeader := by
      rw [lastAddress_append, hc.endHeader]
      rfl
    toMove := hc.toMove
    enough := by
      have hsize := hspans.size
      have henough := hc.enough
      omega
    heapBase := rfl
    relocations := rfl
    totalMemory := rfl
    surplus := by rw [hblocks]
    evolution := hblocks ▸ Evolution.refl hw.ordered }

theorem burden_cut (E : Block) (hkind : E.kind = .available) (pos : Nat) :
    (E.cut pos).burden = E.burden := by
  simp [Block.burden, Block.cut, hkind]

/-- The end of the run is split off. -/
theorem Chosen.split (hw : WellFormed h l) (hc : Chosen h l size s P R E Q)
    (hkind : E.kind = .available) (hlong : sizeofHeapHeader < pos)
    (hshort : pos + sizeofHeapHeader < E.size) (hpos : total Block.size R + pos = size)
    (hl₁ : Linked h₁ none ((P ++ R) ++ E.cut pos :: E.remainder pos :: Q) none)
    (hedits : Edits (Scratch E.address E.finish ((P ++ R) ++ Q)) h h₁)
    (hused : h₁.usedMemory = h.usedMemory) :
    ∃ a e, Selected h l size s a e h₁ P (R ++ [E.cut pos]) (E.remainder pos :: Q) := by
  have hblocks : l = (P ++ R) ++ [E] ++ Q := by simp [hc.blocks]
  have ho := hblocks ▸ hw.ordered
  have hEnd : Spans E.address [E] E.finish := ⟨rfl, rfl⟩
  have hlarger : ∀ b ∈ [E], sizeofHeapHeader < b.size := by
    intro b hb
    exact ho.larger b (by simp only [List.mem_append]; exact Or.inl (Or.inr hb))
  have hroom : Room (P ++ R) E.address E.finish Q := by
    refine Room.of_run ho (hblocks ▸ hw.adjoining) hEnd (by simp) ?_
    intro b hb
    rw [List.mem_singleton.mp hb, hkind]
    decide
  have hpieces : Spans E.address [E.cut pos, E.remainder pos] E.finish := by
    refine ⟨rfl, rfl, ?_⟩
    simp only [Spans, Block.finish, Block.remainder]
    omega
  have hpiecesLarger : ∀ b ∈ [E.cut pos, E.remainder pos], sizeofHeapHeader < b.size := by
    intro b hb
    rcases List.mem_cons.mp hb with rfl | hb
    · exact hlong
    · rw [List.mem_singleton.mp hb]
      simp only [Block.remainder]
      omega
  have hpiecesKind : ∀ b ∈ [E.cut pos, E.remainder pos], b.kind = .available := by
    intro b hb
    rcases List.mem_cons.mp hb with rfl | hb
    · exact hkind
    · rw [List.mem_singleton.mp hb]
      rfl
  have hshape : (P ++ R) ++ [E.cut pos, E.remainder pos] ++ Q =
      P ++ (R ++ [E.cut pos]) ++ (E.remainder pos :: Q) := by simp
  have ho₁ := hshape ▸ hroom.ordered hpieces hpiecesLarger
  have hchain₁ := hshape ▸ hroom.adjoining hpieces (by simp)
  have hkinds : ∀ b ∈ R ++ [E.cut pos], b.kind ≠ .immovable := by
    intro b hb
    rcases List.mem_append.mp hb with hb | hb
    · exact hc.kinds b (by simp [hb])
    · rw [List.mem_singleton.mp hb]
      simp [Block.cut, hkind]
  obtain ⟨a, e, hspans⟩ :=
    spans_of_chain hchain₁.left_of_append.right_of_append (by simp) hkinds
  refine ⟨a, e, ?_⟩
  exact {
    linked := by
      rw [← hshape]
      simpa using hl₁
    room := Room.of_run ho₁ hchain₁ hspans (by simp) hkinds
    spans := hspans
    larger := fun b hb => ho₁.append_left.append_right.larger b hb
    kinds := hkinds
    startHeader := by
      rw [← hc.startHeader]
      cases R <;> rfl
    endHeader := by
      rw [lastAddress_append, hc.endHeader]
      rfl
    toMove := by
      rw [hc.toMove]
      simp [burden_cut E hkind]
    enough := by
      have hsize := hspans.size
      simp only [total_append, total_cons, total_nil, Block.cut] at hsize
      omega
    heapBase := hedits.heapBase
    relocations := hedits.relocations
    totalMemory := hedits.totalMemory
    surplus := by
      have hfree : total Block.free [E.cut pos, E.remainder pos] = total Block.free [E] := by
        simp only [total_cons, total_nil, Block.free, Block.cut, Block.remainder, hkind, if_true]
        omega
      unfold Heap.surplus availableMemory
      rw [← hshape, hblocks, hedits.totalMemory, hused]
      simp only [total_append, hfree]
    evolution := by
      rw [← hshape, hblocks]
      refine Evolution.of_available hroom hEnd hpieces hlarger ?_ ?_ ?_
      · intro b hb
        rw [List.mem_singleton.mp hb, hkind]
      · intro b hb
        rw [hpiecesKind b hb]
        decide
      · exact fun b hb => hedits.sameData hroom hEnd hlarger hb }

theorem splitEnd_spec (hw : WellFormed h l) (hc : Chosen h l size s P R E Q)
    (hsize : size < 2 ^ 32) :
    ∃ h₁ R₁ Q₁ a e, h.splitEnd size s = some h₁ ∧ Selected h l size s a e h₁ P R₁ Q₁ := by
  obtain ⟨a, e, hselected⟩ := hc.selected hw
  have hshape : l = (P ++ R) ++ E :: Q := by rw [hc.blocks]
  have hl := hshape ▸ hw.linked
  have ho := hshape ▸ hw.ordered
  have hE : h.headers s.endHeader =
      some (E.contents (firstAddress Q none) (lastAddress none (P ++ R))) := by
    rw [hc.endHeader]
    exact hl.contents
  by_cases hkind : E.kind = .available
  · have hrest : subSize s.totalSize E.size = total Block.size R := by
      have hlt := (hc.blocks ▸ hw.ordered).run_lt
      rw [hc.totalSize, total_append, total_cons, total_nil, Nat.add_zero]
      rw [subSize_of_le (Nat.le_add_left _ _) hlt]
      omega
    have hpos : subSize size (total Block.size R) = size - total Block.size R := by
      refine subSize_of_le ?_ hsize
      rcases hc.short with rfl | hlt
      · exact Nat.zero_le _
      · exact Nat.le_of_lt hlt
    set pos := if E.size ≤ size - total Block.size R then 0 else size - total Block.size R
    have heq : h.splitEnd size s = (h.splitHeader E.address pos).map Prod.fst := by
      unfold splitEnd
      rw [hE, Option.bind_eq_bind, Option.bind_some]
      simp only [Block.contents, hkind, if_true, hrest, hpos, hc.endHeader]
      cases h.splitHeader E.address pos <;> rfl
    rcases splitHeader_spec hl ho pos with ⟨hsplit, -⟩ | ⟨hlong, hshort, h₁, hsplit, hl₁,
      hedits, hused⟩
    · exact ⟨h, R ++ [E], Q, a, e, by rw [heq, hsplit]; rfl, hselected⟩
    · have hpos' : total Block.size R + pos = size := by
        have hle : total Block.size R ≤ size := by
          rcases hc.short with rfl | hlt
          · exact Nat.zero_le _
          · exact Nat.le_of_lt hlt
        have hcase : pos = 0 ∨ pos = size - total Block.size R := by
          by_cases hend : E.size ≤ size - total Block.size R
          · exact Or.inl (if_pos hend)
          · exact Or.inr (if_neg hend)
        omega
      obtain ⟨a, e, hsplitted⟩ := hc.split hw hkind hlong hshort hpos' hl₁ hedits hused
      exact ⟨h₁, _, _, a, e, by rw [heq, hsplit]; rfl, hsplitted⟩
  · refine ⟨h, R ++ [E], Q, a, e, ?_, hselected⟩
    unfold splitEnd
    rw [hE, Option.bind_eq_bind, Option.bind_some]
    simp [Block.contents, hkind]

/-- The run becomes the new block; its blocks count as the available blocks `R'`. -/
theorem Allocated.of_occupy (hw : WellFormed h₀ l₀) {s : Search}
    (hl : Linked h none (P ++ R ++ Q) none) (hr : Room P a e Q) (hs : Spans a R e)
    (hlarger : ∀ b ∈ R, sizeofHeapHeader < b.size)
    (hfirst : firstAddress R none = some s.startHeader)
    (hlast : lastAddress none R = some s.endHeader) (henough : a + roundSize n ≤ e)
    (hfree : total Block.free R = if s.toMove = 0 then e - a else 0)
    (hbase : h.heapBase = h₀.heapBase)
    (hrelocations : h.relocations = h₀.relocations ++ moves)
    (htotal : h.totalMemory = h₀.totalMemory)
    (hsurplus : Heap.surplus h (P ++ R ++ Q) = Heap.surplus h₀ l₀)
    (hs' : Spans a R' e) (hlarger' : ∀ b ∈ R', sizeofHeapHeader < b.size)
    (havailable : ∀ b ∈ R', b.kind = .available)
    (he : Evolution h₀.bytes l₀ h.bytes (P ++ R' ++ Q) moves) :
    ∃ h' p l', h.occupy (roundSize n) s = some (h', some p) ∧
      Allocated h₀ l₀ n h' (some p) l' moves := by
  obtain ⟨h', b, rest, heq, hl', hspans, hpieces, hsize, hkind, href, hrest, hsurplus', hedits⟩ :=
    occupy_spec hl hr hs hlarger hfirst hlast henough hfree
  have hne : R ≠ [] := by
    rintro rfl
    simp [firstAddress] at hfirst
  have hstart : b.address = a := hspans.1
  have hrun' : ∀ c ∈ b :: rest, c.kind ≠ .movable := by
    intro c hc
    rcases List.mem_cons.mp hc with rfl | hc
    · rw [hkind]
      decide
    · rw [hrest c hc]
      decide
  have hordered := hr.ordered hspans hpieces
  have hevolution := he.trans (Evolution.of_available hr hs' hspans hlarger' havailable hrun'
    fun c hc => hedits.sameData hr hs hlarger hc)
  rw [List.append_nil] at hevolution
  refine ⟨h', b.pointer, P ++ (b :: rest) ++ Q, heq, ?_⟩
  exact {
    wellFormed := {
      nonempty := by simp
      base := by
        rw [hedits.heapBase, hbase, hw.base]
        exact (firstAddress_of_covered hw.ordered hordered hevolution.covered).symm
      linked := hl'
      ordered := hordered
      adjoining := hr.adjoining hspans (by simp) }
    relocations := hedits.relocations.trans hrelocations
    totalMemory := hedits.totalMemory.trans htotal
    surplus := hsurplus'.trans hsurplus
    evolution := hevolution
    result := by
      intro p hp
      obtain rfl : b.pointer = p := by simpa using hp
      refine ⟨b, by simp, rfl, hkind, href, hsize, ?_, ?_⟩
      · intro c hc hlive hlands
        obtain ⟨c', hc', hpointer, hkind'⟩ := he.live hc hlive
        have haddress : c'.address = a :=
          (Block.pointer_inj (hpointer.trans hlands)).trans hstart
        have hsides : c' ∈ P ++ Q := by
          rcases List.mem_append.mp hc' with hc' | hc'
          · refine List.mem_append_left Q ((List.mem_append.mp hc').resolve_right fun hmem => ?_)
            rw [havailable c' hmem] at hkind'
            exact hlive hkind'.symm
          · exact List.mem_append_right P hc'
        have hlt : a < e := by
          have hmem := hspans.mem (b := b) (by simp)
          have hblarger := hpieces b (by simp)
          unfold Block.finish at hmem
          omega
        rcases List.mem_append.mp hsides with hmem | hmem
        · have hbefore := hr.before c' hmem
          have hclarger := hr.front.larger c' hmem
          unfold Block.finish at hbefore
          omega
        · have hafter := hr.after c' hmem
          omega
      · intro ref
        have hshape : P ++ (b :: rest) ++ Q = P ++ b :: (rest ++ Q) := by simp
        have hshape' : P ++ b.tenanted ref :: (rest ++ Q) =
            P ++ (b.tenanted ref :: rest) ++ Q := by simp
        have hordered' : Ordered (P ++ b :: (rest ++ Q)) := hshape ▸ hordered
        rw [hshape, hordered'.map_exchange, hshape']
        exact hr.adjoining ⟨hspans.1, hspans.2⟩ (by simp) }

theorem Edits.sameData_headers (ho : Ordered l)
    (he : Edits (fun x => ∃ c ∈ l, c.HeaderAt x) h h') (hb : b ∈ l) :
    SameData h.bytes h'.bytes b b where
  size := Nat.le_refl _
  data := by
    intro i hi
    apply he.bytes
    rintro ⟨c, hc, hcx⟩
    have hclarger := ho.larger c hc
    unfold Block.HeaderAt Block.pointer at hcx
    rcases ho.apart hb hc with rfl | hlt | hlt
    · omega
    · unfold Block.finish at hlt
      omega
    · unfold Block.finish at hlt
      omega

end Cenix.Heap
