import Cenix.Heap.Allocation
import Cenix.Heap.LockedRegions

namespace Cenix.Heap

/-! A region in the middle of an available block is locked. -/

variable {b : Block} {margin finish : Nat}

/-- The part of the block from `margin` to `finish`, with a header. -/
def Block.reserved (b : Block) (margin finish : Nat) : Block :=
  ((b.remainder (margin - b.address)).cut (finish - margin)).locked

/-- The block with what is left on both sides of that part. -/
def Block.around (b : Block) (margin finish : Nat) : List Block :=
  [b.cut (margin - b.address), b.reserved margin finish,
    (b.remainder (margin - b.address)).remainder (finish - margin)]

/-- There is room for a header on both sides. -/
structure Block.Encloses (b : Block) (margin finish : Nat) : Prop where
  front : b.address + sizeofHeapHeader < margin
  region : margin + sizeofHeapHeader < finish
  back : finish + sizeofHeapHeader < b.finish

theorem Block.Encloses.spans (hb : b.Encloses margin finish) :
    Spans b.address (b.around margin finish) b.finish := by
  obtain ⟨hfront, hregion, hback⟩ := hb
  simp only [Block.around, Spans, Block.cut, Block.remainder, Block.reserved, Block.locked,
    Block.finish, true_and] at *
  omega

theorem Block.Encloses.larger (hb : b.Encloses margin finish) :
    ∀ c ∈ b.around margin finish, sizeofHeapHeader < c.size := by
  obtain ⟨hfront, hregion, hback⟩ := hb
  unfold Block.finish at hback
  intro c hc
  simp only [Block.around, List.mem_cons, List.not_mem_nil, or_false] at hc
  rcases hc with rfl | rfl | rfl
  · simp only [Block.cut]
    omega
  · simp only [Block.cut, Block.reserved, Block.locked]
    omega
  · simp only [Block.remainder]
    omega

/-- The block is first divided in two. -/
theorem Block.Encloses.divides (hb : b.Encloses margin finish) :
    Spans b.address [b.cut (margin - b.address), b.remainder (margin - b.address)] b.finish ∧
      (b.remainder (margin - b.address)).address = margin ∧
      (b.remainder (margin - b.address)).finish = b.finish ∧
      ∀ c ∈ [b.cut (margin - b.address), b.remainder (margin - b.address)],
        sizeofHeapHeader < c.size := by
  obtain ⟨hfront, hregion, hback⟩ := hb
  simp only [Spans, Block.cut, Block.remainder, Block.finish, true_and, List.forall_mem_cons,
    List.not_mem_nil, false_implies, implies_true, and_true] at *
  omega

theorem around_free (hkind : b.kind = .available) (hb : b.Encloses margin finish) :
    total Block.free (b.around margin finish) + (finish - margin) = b.free := by
  obtain ⟨hfront, hregion, hback⟩ := hb
  unfold Block.finish at hback
  simp only [Block.around, total_cons, total_nil, Block.free, Block.cut, Block.remainder,
    Block.reserved, Block.locked, hkind, if_true, reduceCtorEq, if_false]
  omega

/-- The first header is cut where the margin begins. -/
theorem lockRound_cuts (hl : Linked h none (pre ++ b :: post) none)
    (ho : Ordered (pre ++ b :: post)) (hkind : b.kind = .available)
    (hb : b.Encloses margin finish) :
    ∃ h', h.lockRound margin finish b.address = some (h', b.address) ∧
      Linked h' none (pre ++ b.cut (margin - b.address) ::
        b.remainder (margin - b.address) :: post) none ∧
      Edits (Scratch b.address b.finish (pre ++ post)) h h' ∧ h'.usedMemory = h.usedMemory := by
  obtain ⟨hfront, hregion, hback⟩ := hb
  have hbounded := ho.bounded b (by simp)
  have hcontents := hl.contents
  rcases splitHeader_spec hl ho (margin - b.address) with ⟨-, hrefused⟩ |
    ⟨-, -, h', hsplit, hl', hedits, hused⟩
  · unfold Block.finish at hback
    omega
  · have hoverlaps : b.Overlaps margin finish := ⟨by omega, by omega⟩
    refine ⟨h', lockRound_split hcontents rfl hkind hbounded hoverlaps (by omega) ?_, hl', hedits,
      hused⟩
    exact lockFront_split hcontents rfl (by omega) (by omega) hbounded hsplit

/-- The second one becomes that of the region. -/
theorem lockRound_reserves (ht : Threads h (pre ++ b :: post))
    (hr : Room pre b.address b.finish post) (hlarger : sizeofHeapHeader < b.size)
    (hkind : b.kind = .available) (haddress : b.address = margin)
    (hregion : margin + sizeofHeapHeader < finish) (hback : finish + sizeofHeapHeader < b.finish) :
    ∃ h', h.lockRound margin finish margin = some (h', margin) ∧
      Linked h' none (pre ++ (b.cut (finish - margin)).locked ::
        b.remainder (finish - margin) :: post) none ∧
      Edits (Scratch b.address b.finish (pre ++ post)) h h' ∧
      h'.usedMemory = wrap (h.usedMemory + (finish - margin)) := by
  subst haddress
  have hshape : ∀ run, pre ++ run ++ post = pre ++ (run ++ post) := fun _ => List.append_assoc ..
  have ho : Ordered (pre ++ b :: post) := by
    have hone : Spans b.address [b] b.finish := ⟨rfl, rfl⟩
    have ho := hr.ordered hone (by simpa using hlarger)
    rwa [hshape] at ho
  have hbounded := ho.bounded b (by simp)
  have hcontents := ht.linked.contents
  have hoverlaps : b.Overlaps b.address finish := by
    unfold Block.Overlaps Block.finish
    omega
  have hround := lockRound_back hcontents rfl hkind hbounded hoverlaps (Nat.le_refl _)
  rcases splitHeader_spec ht.linked ho (finish - b.address) with ⟨-, hrefused⟩ |
    ⟨hlong, hshort, h₁, hsplit, hl₁, hedits, hused⟩
  · unfold Block.finish at hback
    omega
  · have hd : Dangling h (pre ++ [b]) (lastAddress none (pre ++ [b])) post := by
      rw [← threads_append]
      simpa using ht
    have hspans : Spans b.address [b.cut (finish - b.address), b.remainder (finish - b.address)]
        b.finish := by
      simp only [Spans, Block.cut, Block.remainder, Block.finish, true_and] at *
      omega
    have ho₁ : Ordered (pre ++ b.cut (finish - b.address) ::
        b.remainder (finish - b.address) :: post) := by
      have ho₁ := hr.ordered hspans (by simp only [List.forall_mem_cons, Block.cut,
        Block.remainder, List.not_mem_nil, false_implies, implies_true, and_true]; omega)
      rwa [hshape] at ho₁
    have hcontents₁ := hl₁.contents
    have hlinked : Linked (h₁.use (finish - b.address)) none (pre ++ b.cut (finish - b.address) ::
        b.remainder (finish - b.address) :: post) none := hl₁.of_headers rfl
    have haddress : (b.cut (finish - b.address)).locked.address =
        (b.cut (finish - b.address)).address := rfl
    refine ⟨_, ?_, hlinked.write ho₁ haddress, ?_,
      congrArg (fun used => wrap (used + (finish - b.address))) hused⟩
    · rw [hround, lockBack_split hd hregion (by omega) hbounded hsplit]
      unfold lockHeader
      have hcontents₂ : (h₁.use (finish - b.address)).headers b.address = _ := hcontents₁
      have hcontents₁ : h₁.headers b.address = _ := hcontents₁
      rw [hcontents₁, Option.bind_eq_bind, Option.bind_some, if_pos (Nat.le_refl _)]
      exact congrArg (Option.map fun h => (h, b.address)) (modifyHeader_eq hcontents₂)
    · refine hedits.trans (.trans (Edits.usedMemory _ h₁ _) ((writeHeader_edits ..).mono ?_))
      intro x hx
      refine .inl ⟨hx.1, ?_⟩
      have hend : x < b.address + sizeofHeapHeader := hx.2
      omega

/-- The blocks of the heap once the region has been locked. -/
structure Reserves (h : Heap) (pre : List Block) (b : Block) (post : List Block)
    (margin finish : Nat) (h' : Heap) : Prop where
  wellFormed : WellFormed h' (pre ++ b.around margin finish ++ post)
  surplus : surplus h' (pre ++ b.around margin finish ++ post) =
    Heap.surplus h (pre ++ b :: post)
  covered : ∀ x, Covered (pre ++ b.around margin finish ++ post) x ↔ Covered (pre ++ b :: post) x

theorem heapLockExistingRegion_reserves (hw : WellFormed h (pre ++ b :: post))
    (hkind : b.kind = .available) (hstart : sizeofHeapHeader ≤ start)
    (hb : b.Encloses (start - sizeofHeapHeader) finish) :
    ∃ n h', (∀ fuel, heapLockExistingRegion (fuel + n) h start finish = some h') ∧
      Reserves h pre b post (start - sizeofHeapHeader) finish h' := by
  have hbounded := hw.ordered.bounded b (by simp)
  have hback := hb.back
  have hmargin : subSize start sizeofHeapHeader = start - sizeofHeapHeader := by
    have hregion := hb.region
    exact subSize_of_le hstart (by omega)
  unfold heapLockExistingRegion
  rw [hmargin]
  generalize start - sizeofHeapHeader = margin at hb ⊢
  have hone : Spans b.address [b] b.finish := ⟨rfl, rfl⟩
  have hr : Room pre b.address b.finish post := by
    refine Room.of_run ?_ ?_ hone (by simp) (by simp [hkind])
    · simpa using hw.ordered
    · simpa using hw.adjoining
  have hordered := hr.ordered hb.spans hb.larger
  obtain ⟨h₁, hround₁, hl₁, hedits₁, hused₁⟩ := lockRound_cuts hw.linked hw.ordered hkind hb
  obtain ⟨hspans, haddress, hfinish, hlarger⟩ := hb.divides
  set front := b.cut (margin - b.address) with hfront
  set rest := b.remainder (margin - b.address) with hrest
  have hshape : pre ++ [front, rest] ++ post = (pre ++ [front]) ++ [rest] ++ post := by simp
  have hr₁ : Room (pre ++ [front]) rest.address rest.finish post := by
    have hone : Spans rest.address [rest] rest.finish := ⟨rfl, rfl⟩
    refine Room.of_run ?_ ?_ hone (by simp) ?_
    · exact hshape ▸ hr.ordered hspans hlarger
    · exact hshape ▸ hr.adjoining hspans (by simp)
    · simp [hrest, Block.remainder]
  have hbase : ∀ l, firstAddress ((pre ++ [front]) ++ l) none =
      firstAddress (pre ++ b :: post) none := by
    intro l
    cases pre <;> rfl
  have ht₁ : Threads h₁ ((pre ++ [front]) ++ rest :: post) :=
    ⟨(hedits₁.heapBase.trans hw.base).trans (hbase _).symm, by simpa using hl₁⟩
  obtain ⟨h₂, hround₂, hl₂, hedits₂, hused₂⟩ := lockRound_reserves ht₁ hr₁
    (hlarger rest (by simp)) rfl haddress hb.region (hfinish ▸ hback)
  have hlist : pre ++ b.around margin finish ++ post = (pre ++ [front]) ++
      (rest.cut (finish - margin)).locked :: rest.remainder (finish - margin) :: post := by
    simp [Block.around, Block.reserved, hfront, hrest]
  have hadvances : Advances margin finish h h.heapBase h₂ none := by
    have hskip : Advances margin finish h (firstAddress (pre ++ b :: post) none) h
        (some b.address) := by
      refine Advances.skip hw.linked (fun c hc => hw.ordered.bounded c (by simp [hc])) ?_
      intro c hc
      refine .inl fun hoverlaps => ?_
      have hbefore := hr.before c hc
      have hbegin := hb.front
      have hend := hoverlaps.2
      omega
    have hfirst : Advances margin finish h (some b.address) h₁ (some margin) := by
      have hadvances := Advances.round hround₁ hl₁.contents
      rwa [show (front.contents (firstAddress (rest :: post) none) (lastAddress none pre)).next =
        some margin from congrArg some haddress] at hadvances
    have hsecond := Advances.round hround₂ (haddress ▸ hl₂.contents)
    have hbehind : Advances margin finish h₂
        (firstAddress (rest.remainder (finish - margin) :: post) none) h₂ none := by
      refine Advances.behind (linked_append.mp hl₂).2.2 ?_ ?_
      · intro c hc
        rw [hlist] at hordered
        exact hordered.bounded c (List.mem_append_right _ (List.mem_cons_of_mem _ hc))
      · intro c hc
        have hregion := hb.region
        rcases List.mem_cons.mp hc with rfl | hc
        · simp only [Block.remainder, haddress]
          omega
        · have hafter := hr.after c hc
          omega
    rw [hw.base]
    exact hskip.trans (hfirst.trans (hsecond.trans hbehind))
  obtain ⟨n, hn⟩ := hadvances
  refine ⟨n, h₂, fun fuel => (hn fuel).trans (lockHeaders_end ..), ?_⟩
  refine ⟨⟨by simp [Block.around], ?_, ?_, hordered, hr.adjoining hb.spans (by simp [Block.around])⟩,
    ?_, ?_⟩
  · rw [hlist, hbase, hedits₂.heapBase, hedits₁.heapBase, hw.base]
  · rw [hlist]
    exact hl₂
  · have hfree := around_free hkind hb
    unfold Heap.surplus availableMemory
    rw [hedits₂.totalMemory, hedits₁.totalMemory, hused₂, hused₁, subSize_use]
    refine congrArg _ ?_
    simp only [total_append, total_cons]
    omega
  · intro x
    have hmiddle : pre ++ b :: post = pre ++ [b] ++ post := by simp
    rw [hmiddle]
    simp only [covered_append, hb.spans.covered_iff, hone.covered_iff]

/-! The first block of the heap is available and larger than what is asked for. -/

/-- What the search loop is left with. -/
def Block.asRun (b : Block) (h : Heap) : Search :=
  ⟨b.address, b.address, b.size, 0, subSize h.availableMemory b.size⟩

theorem search_first (hw : WellFormed h (b :: post)) (hkind : b.kind = .available)
    (hroom : size ≤ b.size) (fuel : Nat) :
    h.search size (fuel + 1) (h.searchFrom b.address b.size) = some (some (b.asRun h)) := by
  have hheader := hw.linked.1
  have hround : h.searchRound size (h.searchFrom b.address b.size) =
      some (.found (b.asRun h)) := by
    simp [searchRound, searchFrom, hheader, Block.contents, countBlock, hkind, hroom, Block.asRun]
  rw [search, hround]
  rfl

theorem splitEnd_first (hw : WellFormed h (b :: post)) (hkind : b.kind = .available)
    (hroom : size < b.size) :
    h.splitEnd size (b.asRun h) = (h.splitHeader b.address size).map Prod.fst := by
  have hbounded := hw.ordered.bounded b (by simp)
  unfold Block.finish at hbounded
  have hnone : subSize b.size b.size = 0 := by
    rw [subSize_of_le (Nat.le_refl _) (by omega), Nat.sub_self]
  have hpos : subSize size 0 = size := subSize_of_le (Nat.zero_le _) (by omega)
  unfold splitEnd Block.asRun
  simp only [hw.linked.1, Option.bind_eq_bind, Option.bind_some, Block.contents, hkind, if_true,
    hnone, hpos, if_neg (Nat.not_le.mpr hroom)]
  cases h.splitHeader b.address size <;> rfl

/-- It is divided, and the front of it is allocated. -/
structure Takes (h : Heap) (b : Block) (post : List Block) (amount : Nat) (h' : Heap)
    (taken : Block) : Prop where
  address : taken.address = b.address
  size : taken.size = amount
  kind : taken.kind = .immovable
  wellFormed : WellFormed h' (taken :: b.remainder amount :: post)
  surplus : surplus h' (taken :: b.remainder amount :: post) = Heap.surplus h (b :: post)

theorem heapAlloc_first (hw : WellFormed h (b :: post)) (hkind : b.kind = .available)
    (hlong : sizeofHeapHeader < roundSize n) (hroom : roundSize n + sizeofHeapHeader < b.size)
    (hmemory : roundSize n ≤ h.availableMemory) :
    ∃ h' taken, (∀ fuel, heapAlloc (fuel + 2) h n = some (h', some b.pointer)) ∧
      Takes h b post (roundSize n) h' taken := by
  have ho := hw.ordered
  have hbounded := ho.bounded b (by simp)
  have hr : Room [] b.address b.finish post := by
    have hone : Spans b.address [b] b.finish := ⟨rfl, rfl⟩
    exact Room.of_run ho hw.adjoining hone (by simp) (by simp [hkind])
  have hl : Linked h none ([] ++ b :: post) none := hw.linked
  rcases splitHeader_spec hl ho (roundSize n) with ⟨-, hrefused⟩ |
    ⟨-, -, h₁, hsplit, hl₁, hedits₁, hused₁⟩
  · omega
  set front := b.cut (roundSize n) with hfront
  set rest := b.remainder (roundSize n) with hrest
  have hfrontKind : front.kind ≠ .immovable := by
    rw [show front.kind = b.kind from rfl, hkind]
    decide
  have hspans : Spans b.address [front, rest] b.finish := by
    simp only [Spans, hfront, hrest, Block.cut, Block.remainder, Block.finish, true_and] at *
    omega
  have hlarger : ∀ c ∈ [front, rest], sizeofHeapHeader < c.size := by
    simp only [List.forall_mem_cons, hfront, hrest, Block.cut, Block.remainder, List.not_mem_nil,
      false_implies, implies_true, and_true]
    omega
  have hr₁ : Room [] b.address front.finish (rest :: post) := by
    have hone : Spans b.address [front] front.finish := ⟨rfl, rfl⟩
    exact Room.of_run (hr.ordered hspans hlarger) (hr.adjoining hspans (by simp)) hone (by simp)
      (by simpa using hfrontKind)
  have hfree : total Block.free [front] =
      if (b.asRun h).toMove = 0 then front.finish - b.address else 0 := by
    simp [hfront, Block.free, Block.cut, Block.finish, Block.asRun, hkind]
  have hone : Spans b.address [front] front.finish := ⟨rfl, rfl⟩
  have henough : b.address + roundSize n ≤ front.finish := Nat.le_refl _
  obtain ⟨h₂, taken, more, hoccupy, hl₂, hspans₂, hlarger₂, hsize, htaken, -, -, hsurplus,
    hedits₂⟩ := occupy_spec hl₁ hr₁ hone (fun c hc => hlarger c (by simp_all)) rfl rfl henough hfree
  have haddress : taken.address = b.address := hspans₂.1
  -- the new block is all of the front
  have hmore : more = [] ∧ taken.size = roundSize n := by
    have hbehind := Spans.le hspans₂.2
    have hend : front.finish = b.address + roundSize n := rfl
    cases more with
    | nil =>
        have hfinish : taken.finish = front.finish := hspans₂.2
        unfold Block.finish at hfinish hend
        exact ⟨rfl, by omega⟩
    | cons c more =>
        have hc := hlarger₂ c (by simp)
        have hmem := hspans₂.mem (b := c) (by simp)
        have hbefore := (hspans₂.sorted |> List.pairwise_cons.mp).1 c (by simp)
        unfold Block.finish at *
        omega
  obtain ⟨rfl, htakenSize⟩ := hmore
  have hfinish : taken.finish = front.finish := hspans₂.2
  have hspans' : Spans b.address [taken, rest] b.finish :=
    ⟨haddress, hspans.2.1.trans hfinish.symm, hspans.2.2⟩
  have hlarger' : ∀ c ∈ [taken, rest], sizeofHeapHeader < c.size := by
    simp only [List.forall_mem_cons, List.not_mem_nil, false_implies, implies_true, and_true]
    exact ⟨hlarger₂ taken (by simp), hlarger rest (by simp)⟩
  refine ⟨h₂, taken, ?_, haddress, htakenSize, htaken, ⟨by simp, ?_, hl₂,
    hr.ordered hspans' hlarger', hr.adjoining hspans' (by simp)⟩, hsurplus.trans ?_⟩
  · intro fuel
    have hsearch := search_first hw hkind (Nat.le_of_lt (by omega : roundSize n < b.size)) fuel
    have hend := splitEnd_first hw hkind (by omega : roundSize n < b.size)
    have hpointer : taken.pointer = b.pointer := congrArg (· + sizeofHeapHeader) haddress
    have hsize : (b.contents (firstAddress post none) none).size = b.size := rfl
    have htake : takeRun (heapAlloc (fuel + 1)) (fuel + 1) h (roundSize n) (b.asRun h) =
        some (h₂, some b.pointer) := by
      have hnothing : ¬0 < (b.asRun h).toMove := Nat.lt_irrefl 0
      unfold takeRun
      rw [hend, hsplit, Option.map_some, Option.bind_eq_bind, Option.bind_some, if_neg hnothing,
        hoccupy, hpointer]
    rw [heapAlloc_succ, hw.base, firstAddress, Option.bind_some, hw.linked.1, Option.bind_some,
      if_neg (Nat.not_lt.mpr hmemory), hsize, hsearch, Option.bind_some]
    exact htake
  · rw [hedits₂.heapBase, hedits₁.heapBase, hw.base]
    exact congrArg some haddress.symm
  · unfold Heap.surplus availableMemory
    rw [hedits₁.totalMemory, hused₁]
    refine congrArg _ ?_
    simp only [List.nil_append, List.cons_append, total_cons, hfront, hrest, Block.free, Block.cut,
      Block.remainder, hkind, if_true]
    omega

end Cenix.Heap
