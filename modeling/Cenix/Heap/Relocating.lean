import Cenix.Heap.Stages

namespace Cenix.Heap

/-! The loop of `heap_alloc` that moves blocks away. -/

theorem Stage.ordered (hs : Stage h₀ l₀ a e h P R Q moves) : Ordered (P ++ R ++ Q) :=
  hs.room.ordered hs.spans hs.larger

theorem Stage.start_lt (hs : Stage h₀ l₀ a e h P R Q moves) : a < e := by
  obtain ⟨b, hb⟩ := List.exists_mem_of_ne_nil R hs.nonempty
  have hmem := hs.spans.mem hb
  have hlarger := hs.larger b hb
  unfold Block.finish at hmem
  omega

theorem Stage.wellFormed (hw : WellFormed h₀ l₀) (hs : Stage h₀ l₀ a e h P R Q moves) :
    WellFormed h (P ++ R ++ Q) where
  nonempty := by
    have hne := hs.nonempty
    simp [hne]
  base := by
    have hextents : extents (P ++ R.map Block.reverted ++ Q) = extents (P ++ R ++ Q) := by
      simp only [extents_append, extents_reverted]
    rw [hs.heapBase, hw.base]
    refine (firstAddress_of_covered hw.ordered hs.ordered ?_).symm
    intro x
    rw [← hs.evolution.covered x]
    exact (covered_extents hextents).symm
  linked := hs.linked
  ordered := hs.ordered
  adjoining := hs.room.adjoining hs.spans hs.nonempty

theorem Room.exchange (hr : Room pre a e post) (hd : d ∈ pre ++ post)
    (hordered : Ordered (pre ++ post)) (haddress : d'.address = d.address)
    (hsize : d'.size = d.size) (hpre : (pre.map (exchange d d')).IsChain Adjoining)
    (hpost : (post.map (exchange d d')).IsChain Adjoining)
    (hleft : d ∈ pre.getLast? → d.finish = a) (hright : d ∈ post.head? → e = d.address) :
    Room (pre.map (exchange d d')) a e (post.map (exchange d d')) := by
  have hfinish : d'.finish = d.finish := by
    unfold Block.finish
    rw [haddress, hsize]
  have hextents := exchange_extents hordered hd haddress hsize
  rw [List.map_append] at hextents
  have hordered' := hordered.of_extents hextents
  refine ⟨hordered'.append_left, hordered'.append_right, ?_, ?_, hr.bounded, hpre, hpost, ?_, ?_⟩
  · intro b hb
    obtain ⟨c, hc, rfl⟩ := List.mem_map.mp hb
    by_cases hcd : c = d
    · subst hcd
      rw [exchange_self, hfinish]
      exact hr.before c hc
    · rw [exchange_of_ne hcd]
      exact hr.before c hc
  · intro b hb
    obtain ⟨c, hc, rfl⟩ := List.mem_map.mp hb
    by_cases hcd : c = d
    · subst hcd
      rw [exchange_self, haddress]
      exact hr.after c hc
    · rw [exchange_of_ne hcd]
      exact hr.after c hc
  · intro b hb
    rw [List.getLast?_map] at hb
    obtain ⟨c, hc, rfl⟩ := Option.map_eq_some_iff.mp hb
    by_cases hcd : c = d
    · subst hcd
      rw [exchange_self, hfinish]
      exact Or.inr (hleft hc)
    · rw [exchange_of_ne hcd]
      exact hr.left c hc
  · intro b hb
    rw [List.head?_map] at hb
    obtain ⟨c, hc, rfl⟩ := Option.map_eq_some_iff.mp hb
    by_cases hcd : c = d
    · subst hcd
      rw [exchange_self, haddress]
      exact Or.inr (hright hc)
    · rw [exchange_of_ne hcd]
      exact hr.right c hc

/-- A block that has been allocated for the contents of a block of the run. -/
structure Place (l₀ : List Block) (moves : List Relocation) (a e size : Nat)
    (P Q : List Block) (d : Block) : Prop where
  mem : d ∈ P ++ Q
  kind : d.kind = .immovable
  updateRef : d.updateRef = .absolute none
  size : size ≤ d.size
  fresh : Fresh l₀ moves d.pointer
  room : ∀ ref, Room (P.map (exchange d (d.tenanted ref))) a e
    (Q.map (exchange d (d.tenanted ref)))

/-- A nested call leaves the run where it is. -/
theorem Stage.nested (hw : WellFormed h₀ l₀) (hs : Stage h₀ l₀ a e h P R Q moves)
    (ha : Allocated h (P ++ R ++ Q) n h' r l' later) :
    ∃ P' Q', l' = P' ++ R ++ Q' ∧ Stage h₀ l₀ a e h' P' R Q' (moves ++ later) ∧
      ∀ p, r = some p → ∃ d, d.pointer = p ∧
        Place l₀ (moves ++ later) a e (roundSize n) P' Q' d := by
  have hkept : ∀ b ∈ P ++ R ++ Q, b.kind = .immovable → b ∈ l' := fun b hb hkind =>
    (ha.evolution.immovable b hb hkind).1
  have hrun : ∀ b ∈ R, b ∈ l' := fun b hb => hkept b (by simp [hb]) (hs.pinned b hb).1
  have hsides : ∀ b ∈ P ++ Q, b.kind = .immovable → b ∈ l' := by
    intro b hb
    refine hkept b ?_
    simp only [List.mem_append] at hb ⊢
    tauto
  obtain ⟨P', Q', rfl, hroom, hleft, hright⟩ := hs.room.transport hs.spans hs.start_lt
    hs.nonempty ha.wellFormed.ordered ha.wellFormed.adjoining hrun hsides ha.evolution.covered
  have hevolution := hs.evolution.trans
    (ha.evolution.unpin hs.room hs.spans hs.larger hs.pinned)
  refine ⟨P', Q', rfl, ?_, ?_⟩
  · exact {
      linked := ha.wellFormed.linked
      room := hroom
      spans := hs.spans
      nonempty := hs.nonempty
      larger := hs.larger
      pinned := hs.pinned
      heapBase := by
        rw [ha.wellFormed.base, ← hs.heapBase, (hs.wellFormed hw).base]
        exact firstAddress_of_covered hs.ordered ha.wellFormed.ordered ha.evolution.covered
      relocations := by rw [ha.relocations, hs.relocations, List.append_assoc]
      totalMemory := ha.totalMemory.trans hs.totalMemory
      surplus := ha.surplus.trans hs.surplus
      evolution := hevolution }
  · intro p hp
    obtain ⟨d, hd, rfl, hkind, href, hsize, hfresh, hunlocked⟩ := ha.result p hp
    -- the new block is not one of those that were there
    have hnew : ∀ b ∈ P ++ R ++ Q, b.kind = .immovable → b ≠ d := by
      rintro b hb hbkind rfl
      have hnil := (ha.evolution.immovable b hb hbkind).2.1
      exact hfresh b hb (by rw [Block.Live, hbkind]; decide) (landing_of_itinerary_nil hnil)
    have hnotrun : d ∉ R := fun hmem => hnew d (by simp [hmem]) (hs.pinned d hmem).1 rfl
    have hmem : d ∈ P' ++ Q' := by
      simp only [List.mem_append] at hd ⊢
      tauto
    have hnotsides : d ∉ P ++ Q := by
      intro hmem
      refine hnew d ?_ hkind rfl
      simp only [List.mem_append] at hmem ⊢
      tauto
    have hfresh' : Fresh (P ++ R.map Block.reverted ++ Q) later d.pointer := by
      intro b hb hlive
      by_cases hrev : b ∈ R.map Block.reverted
      · obtain ⟨c, hc, rfl⟩ := List.mem_map.mp hrev
        exact hfresh c (by simp [hc]) (by rw [Block.Live, (hs.pinned c hc).1]; decide)
      · refine hfresh b ?_ hlive
        simp only [List.mem_append] at hb ⊢
        tauto
    refine ⟨d, rfl, hmem, hkind, href, hsize, hs.evolution.fresh hfresh', ?_⟩
    intro ref
    have hchain := hunlocked ref
    rw [List.map_append, List.map_append] at hchain
    have hsorted : Ordered (P' ++ Q') := ha.wellFormed.ordered.sublist
      ((List.sublist_append_left P' R).append (List.Sublist.refl Q'))
    refine hroom.exchange hmem hsorted rfl rfl hchain.left_of_append.left_of_append
      hchain.right_of_append ?_ ?_
    · intro hlast
      exact (hleft d hlast).resolve_left fun hP => hnotsides (List.mem_append_left Q hP)
    · intro hfirst
      exact (hright d hfirst).resolve_left fun hQ => hnotsides (List.mem_append_right P hQ)

theorem exchange_address (haddress : b'.address = b.address) (c : Block) :
    (exchange b b' c).address = c.address := by
  unfold Heap.exchange
  split_ifs with heq
  · rw [haddress, heq]
  · rfl

theorem exchange_size (hsize : b'.size = b.size) (c : Block) :
    (exchange b b' c).size = c.size := by
  unfold Heap.exchange
  split_ifs with heq
  · rw [hsize, heq]
  · rfl

theorem total_exchange {f : Block → Nat} (hf : f b' = f b) (l : List Block) :
    total f (l.map (exchange b b')) = total f l := by
  rw [total_map]
  refine total_congr fun c _ => ?_
  simp only [Function.comp, Heap.exchange]
  split_ifs with heq
  · rw [hf, heq]
  · rfl

theorem movables_exchange (ho : Ordered l) (hb : b ∈ l) (hkind : b.kind ≠ .movable)
    (hkind' : b'.kind = .movable) : movables (l.map (exchange b b')) = movables l + 1 := by
  obtain ⟨pre, post, rfl⟩ := List.append_of_mem hb
  rw [ho.map_exchange]
  simp only [movables, List.countP_append, List.countP_cons]
  simp [hkind, hkind']
  omega

/-- The contents of a block of the run are moved to their new place. -/
theorem Stage.transfer (hs : Stage h₀ l₀ a e h P R Q moves) (hx : x ∈ R)
    (hold : x.oldKind = .movable) (hd : Place l₀ moves a e x.size P Q d) :
    ∃ h' P' Q', h.moveTo x.address d.pointer (x.size - sizeofHeapHeader) = some h' ∧
      Stage h₀ l₀ a e h' P' (R.map (exchange x x.vacated)) Q'
        (moves ++ [⟨x.pointer, d.pointer, x.updateRef⟩]) := by
  have ho := hs.ordered
  have hsides : ∀ b ∈ P ++ Q, b ∉ R := fun b hb =>
    hs.room.not_mem hs.spans hs.larger hb
  have hdmem : d ∈ P ++ R ++ Q := by
    have hmem := hd.mem
    simp only [List.mem_append] at hmem ⊢
    tauto
  have hxmem : x ∈ P ++ R ++ Q := by simp [hx]
  have hxP : x ∉ P := fun hmem => hsides x (by simp [hmem]) hx
  have hxQ : x ∉ Q := fun hmem => hsides x (by simp [hmem]) hx
  have hne : x ≠ d := fun heq => hsides d hd.mem (heq ▸ hx)
  have hvacated : x.vacated.address = x.address := rfl
  have hvacatedSize : x.vacated.size = x.size := rfl
  have hdR : d ∉ R.map (exchange x x.vacated) := by
    intro hmem
    obtain ⟨c, hc, hcd⟩ := List.mem_map.mp hmem
    have haddress : c.address = d.address := by
      rw [← hcd]
      exact (exchange_address hvacated c).symm
    have heq := ho.eq_of_address (by simp [hc] : c ∈ P ++ R ++ Q) hdmem haddress
    exact hsides d hd.mem (heq ▸ hc)
  obtain ⟨h', hmove, hl', hframe, hcopy, hrelocations, hused, htotal, hbase⟩ :=
    moveTo_spec hs.linked ho hxmem hdmem hne hd.size hd.updateRef
  set ref := x.updateRef
  have hshape : ((P ++ R ++ Q).map (exchange x x.vacated)).map (exchange d (d.tenanted ref)) =
      P.map (exchange d (d.tenanted ref)) ++ R.map (exchange x x.vacated) ++
        Q.map (exchange d (d.tenanted ref)) := by
    simp only [List.map_append]
    rw [map_exchange_of_not_mem hxP, map_exchange_of_not_mem hxQ,
      map_exchange_of_not_mem hdR]
  rw [hshape] at hl'
  have hfree : total Block.free (P.map (exchange d (d.tenanted ref)) ++
      R.map (exchange x x.vacated) ++ Q.map (exchange d (d.tenanted ref))) =
      total Block.free (P ++ R ++ Q) := by
    have hdfree : (d.tenanted ref).free = d.free := by
      simp [Block.free, Block.tenanted, hd.kind]
    have hxfree : x.vacated.free = x.free := rfl
    rw [← hshape, total_exchange hdfree, total_exchange hxfree]
  have hspans : Spans a (R.map (exchange x x.vacated)) e :=
    hs.spans.map (fun c _ => exchange_address hvacated c) fun c _ =>
      exchange_size hvacatedSize c
  have hlarger : ∀ b ∈ R.map (exchange x x.vacated), sizeofHeapHeader < b.size := by
    intro b hb
    obtain ⟨c, hc, rfl⟩ := List.mem_map.mp hb
    rw [exchange_size hvacatedSize]
    exact hs.larger c hc
  have hpinned : ∀ b ∈ R.map (exchange x x.vacated),
      b.kind = .immovable ∧ b.oldKind ≠ .immovable := by
    intro b hb
    obtain ⟨c, hc, rfl⟩ := List.mem_map.mp hb
    by_cases hcx : c = x
    · subst hcx
      rw [exchange_self]
      exact ⟨(hs.pinned c hc).1, by simp [Block.vacated]⟩
    · rw [exchange_of_ne hcx]
      exact hs.pinned c hc
  -- the blocks as they count
  have hrev : Spans a (R.map Block.reverted) e := reverted_spans hs.spans
  have hrevLarger : ∀ b ∈ R.map Block.reverted, sizeofHeapHeader < b.size := by
    intro b hb
    obtain ⟨c, hc, rfl⟩ := List.mem_map.mp hb
    exact hs.larger c hc
  have hordered := hs.room.ordered hrev hrevLarger
  have hmoved : ∀ l, extents (l.map (exchange d (d.tenanted ref))) = extents l := fun l =>
    extents_map (exchange_address rfl) (exchange_size rfl)
  have hextents : extents (P.map (exchange d (d.tenanted ref)) ++
      (R.map (exchange x x.vacated)).map Block.reverted ++
        Q.map (exchange d (d.tenanted ref))) =
      extents (P ++ R.map Block.reverted ++ Q) := by
    have hrun : extents ((R.map (exchange x x.vacated)).map Block.reverted) =
        extents (R.map Block.reverted) := by
      rw [extents_reverted, extents_reverted]
      exact extents_map (exchange_address hvacated) (exchange_size hvacatedSize)
    simp only [extents_append, hmoved, hrun]
  have hmovables : movables (P.map (exchange d (d.tenanted ref)) ++
      (R.map (exchange x x.vacated)).map Block.reverted ++
        Q.map (exchange d (d.tenanted ref))) =
      movables (P ++ R.map Block.reverted ++ Q) := by
    have hmore : movables ((P ++ Q).map (exchange d (d.tenanted ref))) =
        movables (P ++ Q) + 1 := by
      refine movables_exchange (ho.sublist ?_) hd.mem ?_ rfl
      · exact (List.sublist_append_left P R).append (List.Sublist.refl Q)
      · rw [hd.kind]
        decide
    have hless : movables ((R.map (exchange x x.vacated)).map Block.reverted) + 1 =
        movables (R.map Block.reverted) := by
      obtain ⟨front, back, rfl⟩ := List.append_of_mem hx
      rw [ho.append_left.append_right.map_exchange]
      simp only [movables, List.map_append, List.map_cons, List.countP_append,
        List.countP_cons]
      simp [Block.reverted, Block.vacated, hold]
      omega
    simp only [List.map_append, movables_append] at hmore ⊢
    omega
  have hevolution : Evolution h₀.bytes l₀ h'.bytes (P.map (exchange d (d.tenanted ref)) ++
      (R.map (exchange x x.vacated)).map Block.reverted ++
        Q.map (exchange d (d.tenanted ref)))
      (moves ++ [⟨x.pointer, d.pointer, x.updateRef⟩]) := by
    have hxrev : x.reverted ∈ P ++ R.map Block.reverted ++ Q := by
      have hmem := List.mem_map_of_mem (f := Block.reverted) hx
      simp [hmem]
    have hdrev : d ∈ P ++ R.map Block.reverted ++ Q := by
      have hmem := hd.mem
      simp only [List.mem_append] at hmem ⊢
      tauto
    have hheaders : ∀ y, (¬ ∃ c ∈ P ++ R.map Block.reverted ++ Q, c.HeaderAt y) →
        ¬ ∃ c ∈ P ++ R ++ Q, c.HeaderAt y := by
      rintro y hnone ⟨c, hc, hcy⟩
      by_cases hcR : c ∈ R
      · have hmem := List.mem_map_of_mem (f := Block.reverted) hcR
        exact hnone ⟨c.reverted, by simp [hmem], hcy⟩
      · refine hnone ⟨c, ?_, hcy⟩
        simp only [List.mem_append] at hc ⊢
        tauto
    have hkeeps : ∀ b ∈ P ++ R.map Block.reverted ++ Q, b ≠ x.reverted → b ≠ d →
        b ∈ P.map (exchange d (d.tenanted ref)) ++
          (R.map (exchange x x.vacated)).map Block.reverted ++
            Q.map (exchange d (d.tenanted ref)) := by
      intro b hb hbx hbd
      have hstays : exchange d (d.tenanted ref) b = b := exchange_of_ne hbd
      rcases List.mem_append.mp hb with hb | hb
      · rcases List.mem_append.mp hb with hb | hb
        · have hmem := List.mem_map_of_mem (f := exchange d (d.tenanted ref)) hb
          rw [hstays] at hmem
          simp [hmem]
        · obtain ⟨c, hc, rfl⟩ := List.mem_map.mp hb
          have hcx : c ≠ x := fun heq => hbx (by rw [heq])
          have hmem := List.mem_map_of_mem (f := exchange x x.vacated) hc
          rw [exchange_of_ne hcx] at hmem
          have hmem' := List.mem_map_of_mem (f := Block.reverted) hmem
          simp only [List.mem_append]
          exact Or.inl (Or.inr hmem')
      · have hmem := List.mem_map_of_mem (f := exchange d (d.tenanted ref)) hb
        rw [hstays] at hmem
        simp [hmem]
    have hnew : d.tenanted ref ∈ P.map (exchange d (d.tenanted ref)) ++
        (R.map (exchange x x.vacated)).map Block.reverted ++
          Q.map (exchange d (d.tenanted ref)) := by
      have hmem := List.mem_map_of_mem (f := exchange d (d.tenanted ref)) hd.mem
      rw [exchange_self, List.map_append] at hmem
      simp only [List.mem_append] at hmem ⊢
      tauto
    have htransfer := hs.evolution.transfer hordered hxrev hold hdrev hd.kind hd.fresh hd.size
      (fun y hy hdy => hframe y (hheaders y hy) hdy) hcopy hextents hmovables hkeeps hnew
    exact htransfer
  refine ⟨h', P.map (exchange d (d.tenanted ref)), Q.map (exchange d (d.tenanted ref)),
    hmove, ?_⟩
  exact {
    linked := hl'
    room := hd.room ref
    spans := hspans
    nonempty := by simpa using hs.nonempty
    larger := hlarger
    pinned := hpinned
    heapBase := hbase.trans hs.heapBase
    relocations := by rw [hrelocations, hs.relocations, List.append_assoc]
    totalMemory := htotal.trans hs.totalMemory
    surplus := by
      rw [← hs.surplus]
      unfold Heap.surplus availableMemory
      rw [hfree, hused, htotal]
    evolution := hevolution }

end Cenix.Heap
