import Cenix.Heap.Evolution

namespace Cenix.Heap

/-! A call of `heap_alloc` while it moves blocks out of the run it has chosen. -/

variable {bytes bytes' bytes₀ : Nat → Option UInt8}

/-- What a call of `heap_alloc` that has returned has done to the blocks `l`. The new
block may be made movable. -/
structure Allocated (h : Heap) (l : List Block) (actualSize : Nat) (h' : Heap)
    (r : Option Nat) (l' : List Block) (moves : List Relocation) : Prop where
  wellFormed : WellFormed h' l'
  relocations : h'.relocations = h.relocations ++ moves
  totalMemory : h'.totalMemory = h.totalMemory
  surplus : surplus h' l' = surplus h l
  evolution : Evolution h.bytes l h'.bytes l' moves
  result : ∀ p, r = some p → ∃ b ∈ l', b.pointer = p ∧ b.kind = .immovable ∧
    b.updateRef = .absolute none ∧ roundSize actualSize ≤ b.size ∧ Fresh l moves p ∧
    ∀ ref, (l'.map (exchange b (b.tenanted ref))).IsChain Adjoining

/-- The run `R` is marked immovable, between `P` and `Q`. Its blocks still count as
what they were; the ones whose contents have been moved count as available. -/
structure Stage (h₀ : Heap) (l₀ : List Block) (a e : Nat) (h : Heap)
    (P R Q : List Block) (moves : List Relocation) : Prop where
  linked : Linked h none (P ++ R ++ Q) none
  room : Room P a e Q
  spans : Spans a R e
  nonempty : R ≠ []
  larger : ∀ b ∈ R, sizeofHeapHeader < b.size
  pinned : ∀ b ∈ R, b.kind = .immovable ∧ b.oldKind ≠ .immovable
  heapBase : h.heapBase = h₀.heapBase
  relocations : h.relocations = h₀.relocations ++ moves
  totalMemory : h.totalMemory = h₀.totalMemory
  surplus : surplus h (P ++ R ++ Q) = surplus h₀ l₀
  evolution : Evolution h₀.bytes l₀ h.bytes (P ++ R.map Block.reverted ++ Q) moves

theorem extents_reverted (l : List Block) : extents (l.map Block.reverted) = extents l :=
  extents_map (fun _ => rfl) fun _ => rfl

theorem reverted_spans (hs : Spans a run e) : Spans a (run.map Block.reverted) e :=
  hs.map (fun _ _ => rfl) fun _ _ => rfl

theorem covered_extents (h : extents l = extents m) : Covered l x ↔ Covered m x := by
  have hpairs : ∀ l : List Block,
      Covered l x ↔ ∃ p ∈ extents l, p.1 ≤ x ∧ x < p.1 + p.2 := by
    intro l
    simp only [Covered, extents, List.mem_map, Block.finish]
    constructor
    · rintro ⟨b, hb, hbx⟩
      exact ⟨_, ⟨b, hb, rfl⟩, hbx⟩
    · rintro ⟨p, ⟨b, hb, rfl⟩, hbx⟩
      exact ⟨b, hb, hbx⟩
  rw [hpairs l, hpairs m, h]

theorem size_extents (h : extents l = extents m) :
    total Block.size l = total Block.size m := by
  have hsum : ∀ l : List Block, total Block.size l = ((extents l).map Prod.snd).sum := by
    intro l
    simp [total, extents, Function.comp_def]
  rw [hsum l, hsum m, h]

theorem firstAddress_of_covered (ho : Ordered l) (ho' : Ordered l')
    (hcovered : ∀ x, Covered l' x ↔ Covered l x) :
    firstAddress l' none = firstAddress l none := by
  have hcover : ∀ {m : List Block} {b}, Ordered m → b ∈ m → Covered m b.address := by
    intro m b hm hb
    have hlarger := hm.larger b hb
    exact ⟨b, hb, Nat.le_refl _, by unfold Block.finish; omega⟩
  have hfirst : ∀ {m : List Block} {b x}, Ordered (b :: m) → Covered (b :: m) x →
      b.address ≤ x := by
    rintro m b x hm ⟨c, hc, hcx, -⟩
    rcases List.mem_cons.mp hc with rfl | hc
    · exact hcx
    · have hbefore := hm.head_before hc
      unfold Block.finish at hbefore
      omega
  cases l with
  | nil =>
      cases l' with
      | nil => rfl
      | cons b l' =>
          obtain ⟨c, hc, -⟩ := (hcovered b.address).mp (hcover ho' (by simp))
          cases hc
  | cons c l =>
      cases l' with
      | nil =>
          obtain ⟨b, hb, -⟩ := (hcovered c.address).mpr (hcover ho (by simp))
          cases hb
      | cons b l' =>
          have hle := hfirst ho' ((hcovered c.address).mpr (hcover ho (by simp)))
          have hge := hfirst ho ((hcovered b.address).mp (hcover ho' (by simp)))
          exact congrArg some (Nat.le_antisymm hle hge)

theorem Room.not_mem (hr : Room pre a e post) (hs : Spans a run e)
    (hlarger : ∀ b ∈ run, sizeofHeapHeader < b.size) (hb : b ∈ pre ++ post) : b ∉ run := by
  intro hmem
  have hin := hs.mem hmem
  have hblarger := hlarger b hmem
  unfold Block.finish at hin
  rcases List.mem_append.mp hb with hb | hb
  · have hbefore := hr.before b hb
    unfold Block.finish at hbefore
    omega
  · have hafter := hr.after b hb
    omega

/-- What happens while a run is marked immovable happens to the blocks as they count. -/
theorem Evolution.unpin (he : Evolution bytes (P ++ R ++ Q) bytes' (P' ++ R ++ Q') moves)
    (hr : Room P a e Q) (hs : Spans a R e) (hlarger : ∀ b ∈ R, sizeofHeapHeader < b.size)
    (hpinned : ∀ b ∈ R, b.kind = .immovable ∧ b.oldKind ≠ .immovable) :
    Evolution bytes (P ++ R.map Block.reverted ++ Q) bytes'
      (P' ++ R.map Block.reverted ++ Q') moves := by
  have hextents := extents_reverted R
  have hordered : Ordered (P ++ R.map Block.reverted ++ Q) := by
    refine hr.ordered (reverted_spans hs) ?_
    intro b hb
    obtain ⟨c, hc, rfl⟩ := List.mem_map.mp hb
    exact hlarger c hc
  have hnone : Heap.movables R = 0 :=
    movables_eq_zero fun b hb => by rw [(hpinned b hb).1]; decide
  refine ⟨?_, ?_, ?_, ?_, ?_, ?_⟩
  · intro x
    have hcovered := he.covered x
    rw [covered_append, covered_append] at hcovered ⊢
    rw [covered_append, covered_append] at hcovered ⊢
    rwa [covered_extents hextents]
  · have hsize := he.size
    simp only [total_append] at hsize ⊢
    rwa [size_extents hextents]
  · have hmovables := he.movables
    simp only [movables_append, hnone] at hmovables ⊢
    omega
  · intro b hb hkind
    have hmem : b ∈ P ++ Q := by
      rcases List.mem_append.mp hb with hb | hb
      · refine List.mem_append_left Q ((List.mem_append.mp hb).resolve_right fun hb => ?_)
        obtain ⟨c, hc, rfl⟩ := List.mem_map.mp hb
        exact (hpinned c hc).2 hkind
      · exact List.mem_append_right P hb
    have hmem₁ : b ∈ P ++ R ++ Q := by
      rcases List.mem_append.mp hmem with hmem | hmem <;> simp [hmem]
    obtain ⟨hmem', hnil, hdata⟩ := he.immovable b hmem₁ hkind
    refine ⟨?_, hnil, hdata⟩
    rcases List.mem_append.mp hmem' with hmem' | hmem'
    · rcases List.mem_append.mp hmem' with hmem' | hmem'
      · simp [hmem']
      · exact absurd hmem' (hr.not_mem hs hlarger hmem)
    · simp [hmem']
  · intro b hb hkind
    by_cases hrun : b ∈ R.map Block.reverted
    · obtain ⟨c, hc, rfl⟩ := List.mem_map.mp hrun
      obtain ⟨-, hnil, hdata⟩ := he.immovable c (by simp [hc]) (hpinned c hc).1
      refine ⟨c.reverted, by simp [hrun], (landing_of_itinerary_nil hnil).symm, hkind, rfl,
        hdata.congr rfl rfl rfl rfl, ?_⟩
      intro m hm
      have hm' : m ∈ itinerary moves c.pointer := hm
      rw [hnil] at hm'
      cases hm'
    · have hmem : b ∈ P ++ R ++ Q := by
        simp only [List.mem_append] at hb ⊢
        tauto
      obtain ⟨b', hmem', hpointer, hkind', hrest⟩ := he.movable b hmem hkind
      refine ⟨b', ?_, hpointer, hkind', hrest⟩
      have hnot : b' ∉ R := by
        intro hb'
        rw [(hpinned b' hb').1] at hkind'
        cases hkind'
      simp only [List.mem_append] at hmem' ⊢
      tauto
  · have hpinnedLive : ∀ b ∈ P ++ R.map Block.reverted ++ Q, b.Live →
        ∃ c ∈ P ++ R ++ Q, c.pointer = b.pointer ∧ c.Live := by
      intro b hb hlive
      by_cases hrun : b ∈ R.map Block.reverted
      · obtain ⟨c, hc, rfl⟩ := List.mem_map.mp hrun
        refine ⟨c, by simp [hc], rfl, ?_⟩
        rw [Block.Live, (hpinned c hc).1]
        decide
      · refine ⟨b, ?_, rfl, hlive⟩
        simp only [List.mem_append] at hb ⊢
        tauto
    intro b hb c hc hlive hlive' heq
    obtain ⟨b₁, hb₁, hpointer, hlive₁⟩ := hpinnedLive b hb hlive
    obtain ⟨c₁, hc₁, hpointer', hlive₁'⟩ := hpinnedLive c hc hlive'
    rw [← hpointer, ← hpointer'] at heq
    have hsame := he.injective b₁ hb₁ c₁ hc₁ hlive₁ hlive₁' heq
    refine hordered.eq_of_address hb hc (Block.pointer_inj ?_)
    rw [← hpointer, ← hpointer', hsame]

/-- The contents of `x` are moved to the new block `d`. -/
theorem Evolution.transfer (he : Evolution bytes₀ l bytes u moves) (ho : Ordered u)
    (hx : x ∈ u) (hxkind : x.kind = .movable) (hd : d ∈ u) (hdkind : d.kind = .immovable)
    (hfresh : Fresh l moves d.pointer) (hsize : x.size ≤ d.size)
    (hframe : ∀ y, (¬ ∃ c ∈ u, c.HeaderAt y) → ¬ (d.address ≤ y ∧ y < d.finish) →
      bytes' y = bytes y)
    (hcopy : ∀ i, sizeofHeapHeader + i < x.size →
      bytes' (d.pointer + i) = bytes (x.pointer + i))
    (hextents : extents u' = extents u) (hmovables : Heap.movables u' = Heap.movables u)
    (hkeeps : ∀ b ∈ u, b ≠ x → b ≠ d → b ∈ u')
    (hnew : d.tenanted x.updateRef ∈ u') :
    Evolution bytes₀ l bytes' u' (moves ++ [⟨x.pointer, d.pointer, x.updateRef⟩]) := by
  have hdata : ∀ b ∈ u, b ≠ d → SameData bytes bytes' b b := by
    intro b hb hne
    refine ⟨Nat.le_refl _, ?_⟩
    intro i hi
    apply hframe
    · rintro ⟨c, hc, hcx⟩
      have hclarger := ho.larger c hc
      unfold Block.HeaderAt Block.pointer at hcx
      rcases ho.apart hb hc with rfl | hlt | hlt
      · omega
      · unfold Block.finish at hlt
        omega
      · unfold Block.finish at hlt
        omega
    · unfold Block.pointer
      rcases ho.apart hb hd with heq | hlt | hlt
      · exact absurd heq hne
      · unfold Block.finish at hlt
        omega
      · omega
  have hstep : ∀ p, landing [⟨x.pointer, d.pointer, x.updateRef⟩] p =
      if x.pointer = p then d.pointer else p := fun _ => rfl
  refine ⟨?_, ?_, ?_, ?_, ?_, ?_⟩
  · exact fun y => (covered_extents hextents).trans (he.covered y)
  · exact (size_extents hextents).trans he.size
  · exact hmovables.trans he.movables
  · intro b hb hkind
    obtain ⟨hmem, hnil, hsame⟩ := he.immovable b hb hkind
    have hlands := landing_of_itinerary_nil hnil
    have hbx : b ≠ x := by
      rintro rfl
      rw [hxkind] at hkind
      cases hkind
    have hbd : b ≠ d := by
      rintro rfl
      exact hfresh b hb (by rw [Block.Live, hkind]; decide) hlands
    have hpointer : x.pointer ≠ b.pointer := fun heq =>
      hbx (ho.eq_of_address hmem hx (Block.pointer_inj heq.symm))
    refine ⟨hkeeps b hmem hbx hbd, ?_, hsame.trans (hdata b hmem hbd)⟩
    rw [itinerary_append, hnil, hlands]
    simp [itinerary, hpointer]
  · intro b hb hkind
    obtain ⟨b', hmem, hpointer, hkind', href, hsame, hmoves⟩ := he.movable b hb hkind
    by_cases hbx : b' = x
    · subst hbx
      refine ⟨d.tenanted b'.updateRef, hnew, ?_, rfl, href, ?_, ?_⟩
      · rw [landing_append, ← hpointer, hstep, if_pos rfl]
        rfl
      · refine hsame.trans ⟨hsize, ?_⟩
        exact hcopy
      · intro m hm
        rw [itinerary_append, ← hpointer] at hm
        rcases List.mem_append.mp hm with hm | hm
        · exact hmoves m hm
        · have hm' : m = ⟨b'.pointer, d.pointer, b'.updateRef⟩ := by
            simpa [itinerary] using hm
          rw [hm']
          exact href
    · have hbd : b' ≠ d := by
        rintro rfl
        rw [hdkind] at hkind'
        cases hkind'
      have hne : x.pointer ≠ b'.pointer := fun heq =>
        hbx (ho.eq_of_address hmem hx (Block.pointer_inj heq.symm))
      refine ⟨b', hkeeps b' hmem hbx hbd, ?_, hkind', href, hsame.trans (hdata b' hmem hbd), ?_⟩
      · rw [landing_append, ← hpointer, hstep, if_neg hne]
      · intro m hm
        rw [itinerary_append, ← hpointer] at hm
        rcases List.mem_append.mp hm with hm | hm
        · exact hmoves m hm
        · simp [itinerary, hne] at hm
  · intro b hb c hc hlive hlive' heq
    rw [landing_append, landing_append, hstep, hstep] at heq
    have hbd := hfresh b hb hlive
    have hcd := hfresh c hc hlive'
    refine he.injective b hb c hc hlive hlive' ?_
    split_ifs at heq with hbx hcx hcx
    · exact hbx.symm.trans hcx
    · exact absurd heq.symm hcd
    · exact absurd heq hbd
    · exact heq

end Cenix.Heap
