import Cenix.Heap.Relocating

namespace Cenix.Heap

/-! The search loop of `heap_alloc`. -/

/-- The size of the block, when it has to be moved away. -/
def Block.burden (b : Block) : Nat :=
  if b.kind = .movable then b.size else 0

theorem total_le {f g : Block → Nat} (hfg : ∀ b ∈ l, f b ≤ g b) : total f l ≤ total g l := by
  induction l with
  | nil => exact Nat.le_refl 0
  | cons b l ih =>
      have hb := hfg b (by simp)
      have hl := ih fun c hc => hfg c (by simp [hc])
      simp only [total_cons]
      omega

theorem Block.burden_le (b : Block) : b.burden ≤ b.size := by
  unfold Block.burden
  split_ifs <;> omega

theorem Ordered.total_lt (ho : Ordered l) (hfrom : ∀ b ∈ l, a ≤ b.address) (ha : a < 2 ^ 32) :
    a + total Block.size l < 2 ^ 32 := by
  induction l generalizing a with
  | nil => simpa using ha
  | cons b l ih =>
      have hb := hfrom b (by simp)
      have hrest := ih ho.tail (fun c hc => ho.head_before hc) (ho.bounded b (by simp))
      unfold Block.finish at hrest
      simp only [total_cons]
      omega

theorem Ordered.run (ho : Ordered (P ++ R ++ E :: Q)) : Ordered (R ++ [E]) := by
  rw [List.append_assoc] at ho
  refine ho.append_right.sublist ?_
  exact (List.Sublist.refl R).append (List.singleton_sublist.mpr (by simp))

theorem Ordered.run_lt (ho : Ordered (P ++ R ++ E :: Q)) :
    total Block.size R + E.size < 2 ^ 32 := by
  have hlt := ho.run.total_lt (fun b _ => Nat.zero_le b.address) (by omega)
  simpa using hlt

/-- The search has come to the block `E` with the run `R` in front of it. -/
structure Searching (h : Heap) (l : List Block) (size : Nat) (s : Search)
    (P R : List Block) (E : Block) (Q : List Block) : Prop where
  blocks : l = P ++ R ++ E :: Q
  startHeader : firstAddress (R ++ [E]) none = some s.startHeader
  endHeader : s.endHeader = E.address
  totalSize : s.totalSize = total Block.size R + E.size
  toMove : s.toMove = total Block.burden R
  availableMemory : s.availableMemory = subSize h.availableMemory (total Block.free R)
  kinds : ∀ b ∈ R, b.kind ≠ .immovable
  short : R = [] ∨ total Block.size R < size

/-- The run `R` with `E` at its end has been chosen. -/
structure Chosen (h : Heap) (l : List Block) (size : Nat) (s : Search)
    (P R : List Block) (E : Block) (Q : List Block) : Prop where
  blocks : l = P ++ R ++ E :: Q
  startHeader : firstAddress (R ++ [E]) none = some s.startHeader
  endHeader : s.endHeader = E.address
  totalSize : s.totalSize = total Block.size (R ++ [E])
  toMove : s.toMove = total Block.burden (R ++ [E])
  kinds : ∀ b ∈ R ++ [E], b.kind ≠ .immovable
  short : R = [] ∨ total Block.size R < size
  enough : size ≤ total Block.size (R ++ [E])

/-- The block is movable and large enough, but there is no room to move it to. -/
structure Block.Traps (b : Block) (h : Heap) (size : Nat) : Prop where
  kind : b.kind = .movable
  large : size ≤ b.size
  stuck : h.availableMemory < b.size

theorem subSize_zero (h : n < 2 ^ 32) : subSize n 0 = n := by
  unfold subSize
  omega

theorem subSize_add (n a b : Nat) : subSize (subSize n a) b = subSize n (a + b) := by
  unfold subSize
  omega

theorem Searching.start (hw : WellFormed h l) (size : Nat) :
    ∃ E Q, l = E :: Q ∧ h.heapBase = some E.address ∧
      h.headers E.address = some (E.contents (firstAddress Q none) none) ∧
      Searching h l size (h.searchFrom E.address E.size) [] [] E Q := by
  obtain ⟨E, Q, rfl⟩ := List.exists_cons_of_ne_nil hw.nonempty
  exact ⟨E, Q, rfl, hw.base, hw.linked.1, rfl, rfl, rfl, by simp [searchFrom], rfl,
    (subSize_zero subSize_lt).symm, (fun _ hb => nomatch hb), Or.inl rfl⟩

/-- The search starts over at a block. -/
theorem Searching.restart (hblocks : l = P ++ E :: Q) (h : Heap) (size : Nat) :
    Searching h l size (h.searchFrom E.address E.size) P [] E Q :=
  ⟨by simpa using hblocks, rfl, rfl, by simp [searchFrom], rfl,
    (subSize_zero subSize_lt).symm, (fun _ hb => nomatch hb), Or.inl rfl⟩

theorem countBlock_spec (hs : Searching h l size s P R E Q) (ho : Ordered l)
    (hkind : E.kind ≠ .immovable) (next prev : Option Nat) :
    (countBlock s (E.contents next prev)).startHeader = s.startHeader ∧
    (countBlock s (E.contents next prev)).endHeader = s.endHeader ∧
    (countBlock s (E.contents next prev)).totalSize = s.totalSize ∧
    (countBlock s (E.contents next prev)).toMove = total Block.burden (R ++ [E]) ∧
    (countBlock s (E.contents next prev)).availableMemory =
      subSize h.availableMemory (total Block.free (R ++ [E])) := by
  have hlt : total Block.burden (R ++ [E]) < 2 ^ 32 := by
    have hle : total Block.burden (R ++ [E]) ≤ total Block.size (R ++ [E]) :=
      total_le fun b _ => b.burden_le
    have hsize := (hs.blocks ▸ ho).run_lt
    simp only [total_append, total_cons, total_nil] at hle ⊢
    omega
  simp only [total_append, total_cons, total_nil, Nat.add_zero] at hlt ⊢
  cases hk : E.kind with
  | immovable => exact absurd hk hkind
  | available =>
      have hburden : E.burden = 0 := by simp [Block.burden, hk]
      have hfree : E.free = E.size := by simp [Block.free, hk]
      rw [hburden, hfree, ← subSize_add, ← hs.availableMemory, Nat.add_zero, ← hs.toMove]
      simp [countBlock, Block.contents, hk]
  | movable =>
      have hburden : E.burden = E.size := by simp [Block.burden, hk]
      have hfree : E.free = 0 := by simp [Block.free, hk]
      rw [hburden] at hlt ⊢
      rw [hfree, Nat.add_zero, ← hs.availableMemory, ← hs.toMove]
      rw [← hs.toMove] at hlt
      simp [countBlock, Block.contents, hk, wrap_of_lt hlt]

/-- What one round of the search can do, at the block `E`. -/
inductive Round (h : Heap) (l : List Block) (size : Nat) (P R : List Block) (E : Block)
    (Q : List Block) : Progress → Prop
  | gaveUp (hlast : Q = []) (hshort : E.kind = .immovable ∨ total Block.size (R ++ [E]) < size) :
      Round h l size P R E Q .gaveUp
  | blocked (hkind : E.kind = .immovable) (hnext : Q = F :: Q') :
      Round h l size P R E Q (.goesOn (h.searchFrom F.address F.size))
  | found (hchosen : Chosen h l size s P R E Q) : Round h l size P R E Q (.found s)
  | startsOver (hkind : E.kind ≠ .immovable) (henough : size ≤ total Block.size (R ++ [E]))
      (hmany : subSize h.availableMemory (total Block.free (R ++ [E])) <
        total Block.burden (R ++ [E])) :
      Round h l size P R E Q (.goesOn (h.searchFrom E.address E.size))
  | longer (hkind : E.kind ≠ .immovable) (hshort : total Block.size (R ++ [E]) < size)
      (hnext : Q = F :: Q') (hs : Searching h l size s P (R ++ [E]) F Q') :
      Round h l size P R E Q (.goesOn s)

theorem searchRound_round (hw : WellFormed h l) (hs : Searching h l size s P R E Q) :
    ∃ progress, h.searchRound size s = some progress ∧ Round h l size P R E Q progress := by
  have hl := hw.linked
  rw [hs.blocks] at hl
  have hE : h.headers s.endHeader =
      some (E.contents (firstAddress Q none) (lastAddress none (P ++ R))) := by
    rw [hs.endHeader]
    exact hl.contents
  have hnext : ∀ F Q', Q = F :: Q' → ∃ prev, h.headers F.address =
      some (F.contents (firstAddress Q' none) prev) := by
    rintro F Q' rfl
    have hshape : P ++ R ++ E :: F :: Q' = (P ++ R ++ [E]) ++ F :: Q' := by simp
    rw [hshape] at hl
    exact ⟨_, hl.contents⟩
  unfold searchRound
  rw [hE, Option.bind_eq_bind, Option.bind_some]
  by_cases hkind : E.kind = .immovable
  · have hkind' : (E.contents (firstAddress Q none) (lastAddress none (P ++ R))).kind =
        .immovable := hkind
    rw [if_pos hkind']
    cases Q with
    | nil => exact ⟨_, rfl, .gaveUp rfl (Or.inl hkind)⟩
    | cons F Q' =>
        obtain ⟨prev, hF⟩ := hnext F Q' rfl
        refine ⟨_, ?_, .blocked hkind rfl⟩
        simp [Block.contents, firstAddress, hF]
  · have hkind' : (E.contents (firstAddress Q none) (lastAddress none (P ++ R))).kind ≠
        .immovable := hkind
    rw [if_neg hkind']
    obtain ⟨hstart, hend, htotal, hmove, havailable⟩ := countBlock_spec hs hw.ordered hkind
      (firstAddress Q none) (lastAddress none (P ++ R))
    set s' := countBlock s (E.contents (firstAddress Q none) (lastAddress none (P ++ R)))
    have hkinds : ∀ b ∈ R ++ [E], b.kind ≠ .immovable := by
      intro b hb
      rcases List.mem_append.mp hb with hb | hb
      · exact hs.kinds b hb
      · exact List.mem_singleton.mp hb ▸ hkind
    have hsize : s'.totalSize = total Block.size (R ++ [E]) := by
      rw [htotal, hs.totalSize]
      simp
    by_cases henough : size ≤ s'.totalSize
    · rw [if_pos henough]
      by_cases hfits : s'.toMove ≤ s'.availableMemory
      · rw [if_pos hfits]
        exact ⟨_, rfl, .found ⟨hs.blocks, hstart ▸ hs.startHeader, hend.trans hs.endHeader,
          hsize, hmove, hkinds, hs.short, hsize ▸ henough⟩⟩
      · rw [if_neg hfits, hend, hs.endHeader]
        rw [hmove, havailable] at hfits
        exact ⟨_, rfl, .startsOver hkind (hsize ▸ henough) (Nat.lt_of_not_le hfits)⟩
    · rw [if_neg henough]
      have hshort : total Block.size (R ++ [E]) < size := hsize ▸ Nat.lt_of_not_le henough
      cases Q with
      | nil => exact ⟨_, rfl, .gaveUp rfl (Or.inr hshort)⟩
      | cons F Q' =>
          obtain ⟨prev, hF⟩ := hnext F Q' rfl
          have hblocks : l = P ++ (R ++ [E]) ++ F :: Q' := by simp [hs.blocks]
          have hbound : total Block.size (R ++ [E]) + F.size < 2 ^ 32 :=
            (hblocks ▸ hw.ordered).run_lt
          have hfirst : firstAddress (R ++ [E] ++ [F]) none = some s'.startHeader := by
            rw [hstart, ← hs.startHeader]
            cases R <;> rfl
          have hs' : Searching h l size { s' with
              endHeader := F.address
              totalSize := wrap (s'.totalSize + F.size) } P (R ++ [E]) F Q' := by
            refine ⟨hblocks, hfirst, rfl, ?_, hmove, havailable, hkinds, Or.inr hshort⟩
            show wrap (s'.totalSize + F.size) = _
            rw [hsize]
            exact wrap_of_lt hbound
          refine ⟨_, ?_, .longer hkind hshort rfl hs'⟩
          simp [Block.contents, firstAddress, hF]

/-- A block at which the search starts over although it has just come to it. -/
theorem traps_of_many {h : Heap} {E : Block} (hkind : E.kind ≠ .immovable)
    (henough : size ≤ E.size) (hmany : subSize h.availableMemory E.free < E.burden) : E.Traps h size := by
  unfold Block.burden Block.free at hmany
  cases hk : E.kind with
  | immovable => exact absurd hk hkind
  | available => simp [hk] at hmany
  | movable =>
      have hzero := subSize_zero (subSize_lt (a := h.totalMemory) (b := h.usedMemory))
      simp only [hk, if_true, if_false, reduceCtorEq, availableMemory, hzero] at hmany
      exact ⟨hk, henough, hmany⟩

/-- A round makes progress, unless it has come to a block that traps it. -/
theorem searchRound_spec (hw : WellFormed h l) (hs : Searching h l size s P R E Q) :
    h.searchRound size s = some .gaveUp ∨
    (∃ s', h.searchRound size s = some (.found s') ∧ Chosen h l size s' P R E Q) ∨
    ∃ s' P' R' E' Q', h.searchRound size s = some (.goesOn s') ∧
      Searching h l size s' P' R' E' Q' ∧
      (2 * Q'.length + R'.length < 2 * Q.length + R.length ∨
        R = [] ∧ s' = h.searchFrom E.address E.size ∧ E.Traps h size) := by
  obtain ⟨progress, heq, hround⟩ := searchRound_round hw hs
  rw [heq]
  cases hround with
  | gaveUp => exact Or.inl rfl
  | found hchosen => exact Or.inr (Or.inl ⟨_, rfl, hchosen⟩)
  | blocked hkind hnext =>
      subst hnext
      have hblocks := hs.blocks.trans (List.append_cons (P ++ R) E _)
      refine Or.inr (Or.inr ⟨_, _, _, _, _, rfl, .restart hblocks h size, Or.inl ?_⟩)
      simp only [List.length_cons, List.length_nil]
      omega
  | startsOver hkind henough hmany =>
      refine Or.inr (Or.inr ⟨_, _, _, _, _, rfl, .restart hs.blocks h size, ?_⟩)
      cases R with
      | nil =>
          simp only [List.nil_append, total_cons, total_nil, Nat.add_zero] at henough hmany
          exact Or.inr ⟨rfl, rfl, traps_of_many hkind henough hmany⟩
      | cons b R =>
          refine Or.inl ?_
          simp only [List.length_cons, List.length_nil]
          omega
  | longer hkind hshort hnext hs' =>
      subst hnext
      refine Or.inr (Or.inr ⟨_, _, _, _, _, rfl, hs', Or.inl ?_⟩)
      simp only [List.length_cons, List.length_append, List.length_nil]
      omega

end Cenix.Heap
