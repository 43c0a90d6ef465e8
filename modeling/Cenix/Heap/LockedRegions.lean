import Cenix.Heap.Regions

namespace Cenix.Heap

/-! `heap_lock_existing_region` keeps the region from being allocated. -/

/-- The list is well formed, with each block and its header in front of the next. The
region is locked: no available block has a part of it, nor has a run of blocks that an
allocation could take as one. Blocks that are clear of the region and of the room for a
header in front of it are still there. -/
structure LocksRegion (h : Heap) (l : List Block) (start finish : Nat) (h' : Heap)
    (l' : List Block) : Prop where
  threads : Threads h' l'
  sorted : l'.Pairwise fun b c => b.finish ≤ c.address
  spaced : Spaced l'
  available : ∀ b ∈ l', b.kind = .available → ¬b.Overlaps start finish
  runs : ∀ front run back, l' = front ++ (run ++ back) → (∀ b ∈ run, b.kind ≠ .immovable) →
    ∀ b ∈ run.head?, ∀ c ∈ run.getLast?, ¬(b.address < finish ∧ start < c.finish)
  kept : ∀ b ∈ l, ¬b.Overlaps (start - sizeofHeapHeader) finish →
    b ∈ l' ∧ ∀ x, b.pointer ≤ x → x < b.finish → h'.bytes x = h.bytes x

/-- Bytes of headers and of blocks that overlap the region. -/
def Writable (l : List Block) (margin finish : Nat) (x : Nat) : Prop :=
  (∃ b ∈ l, b.HeaderAt x) ∨ ∃ b ∈ l, b.Overlaps margin finish ∧ b.address ≤ x ∧ x < b.finish

/-- The blocks on both sides of the region, with an immovable block between those that an
allocation could take. -/
structure Clears (start finish : Nat) (before sep behind : List Block) : Prop where
  front : ∀ b ∈ before, b.finish ≤ start
  locked : ∀ b ∈ sep, b.kind = .immovable
  back : ∀ b ∈ behind, finish ≤ b.address
  guarded : sep ≠ [] ∨ (∀ b ∈ before.getLast?, b.kind = .immovable) ∨
    ∀ b ∈ behind.head?, b.kind = .immovable

theorem Clears.available (hc : Clears start finish before sep behind)
    (hb : b ∈ before ++ (sep ++ behind)) (hkind : b.kind = .available) :
    ¬b.Overlaps start finish := by
  intro hover
  unfold Block.Overlaps at hover
  simp only [List.mem_append] at hb
  rcases hb with hb | hb | hb
  · have := hc.front b hb
    omega
  · have := hc.locked b hb
    rw [hkind] at this
    cases this
  · have := hc.back b hb
    omega

/-- A run does not get past the immovable block. -/
theorem Clears.runs (hc : Clears start finish before sep behind)
    (heq : before ++ (sep ++ behind) = pre ++ (run ++ post))
    (hrun : ∀ b ∈ run, b.kind ≠ .immovable) (hb : b ∈ run.head?) (hd : d ∈ run.getLast?) :
    ¬(b.address < finish ∧ start < d.finish) := by
  intro hover
  have hbrun : b ∈ run := List.mem_of_head? hb
  have hdrun : d ∈ run := List.mem_of_getLast? hd
  have hbbehind : b ∉ sep ++ behind := by
    intro hin
    cases List.mem_append.mp hin with
    | inl hin => exact hrun b hbrun (hc.locked b hin)
    | inr hin =>
        have := hc.back b hin
        omega
  have hdbefore : d ∉ before := by
    intro hin
    have := hc.front d hin
    omega
  rcases List.append_eq_append_iff.mp heq with ⟨x, -, hrest⟩ | ⟨x, rfl, hrest⟩
  · -- the run begins behind the region
    rw [hrest] at hbbehind
    exact hbbehind (by simp [hbrun])
  rcases List.append_eq_append_iff.mp hrest with ⟨y, rfl, -⟩ | ⟨y, rfl, hsep⟩
  · -- the run ends before the region
    exact hdbefore (by simp [hdrun])
  have hx : x ≠ [] := by
    rintro rfl
    rw [hsep] at hbbehind
    exact hbbehind (List.mem_append_left post (by simpa using hbrun))
  have hy : y ≠ [] := by
    rintro rfl
    exact hdbefore (List.mem_append_right pre (by simpa using hdrun))
  obtain ⟨e, y, rfl⟩ := List.exists_cons_of_ne_nil hy
  have hnext : (sep ++ behind).head? = some e := by rw [hsep]; rfl
  rcases hc.guarded with hsep | hlast | hhead
  · obtain ⟨s, sep, rfl⟩ := List.exists_cons_of_ne_nil hsep
    have hse : s = e := Option.some.inj hnext
    exact hrun e (by simp) (hse ▸ hc.locked s (by simp))
  · obtain ⟨x, p, rfl⟩ := (List.eq_nil_or_concat' x).resolve_left hx
    exact hrun p (by simp) (hlast p (by simp [← List.append_assoc]))
  · cases sep with
    | nil => exact hrun e (by simp) (hhead e hnext)
    | cons s sep =>
        have hse : s = e := Option.some.inj hnext
        exact hrun e (by simp) (hse ▸ hc.locked s (by simp))

/-- What a block has stored is kept where it is clear of the region. -/
theorem Ordered.keepsStored (ho : Ordered l) (hb : b ∈ l) (hclear : ¬b.Overlaps margin finish)
    (hbytes : KeepsBytes (Writable l margin finish) h h') (hx : b.pointer ≤ x)
    (hxb : x < b.finish) : h'.bytes x = h.bytes x := by
  apply hbytes
  unfold Block.pointer at hx
  rintro (⟨c, hc, hheader⟩ | ⟨c, hc, hover, hcx, hxc⟩)
  · have hlarger := ho.larger c hc
    unfold Block.HeaderAt at hheader
    rcases ho.apart hb hc with rfl | hapart | hapart
    · omega
    · omega
    · unfold Block.finish at hapart
      omega
  · rcases ho.apart hb hc with rfl | hapart | hapart
    · exact hclear hover
    · omega
    · omega

/-! The parts of the list. -/

/-- A list in the order of addresses has what ends before an address, and the rest. -/
theorem Ordered.exists_front (ho : Ordered l) (margin : Nat) :
    ∃ front back, l = front ++ back ∧ (∀ b ∈ front, b.finish ≤ margin) ∧
      ∀ b ∈ back, margin < b.finish := by
  induction l with
  | nil => exact ⟨[], [], rfl, by simp, by simp⟩
  | cons b l ih =>
      by_cases hb : b.finish ≤ margin
      · obtain ⟨front, back, rfl, hfront, hback⟩ := ih ho.tail
        refine ⟨b :: front, back, rfl, ?_, hback⟩
        intro c hc
        rcases List.mem_cons.mp hc with rfl | hc
        · exact hb
        · exact hfront c hc
      · refine ⟨[], b :: l, rfl, by simp, ?_⟩
        intro c hc
        rcases List.mem_cons.mp hc with rfl | hc
        · omega
        · have hbc := ho.head_before hc
          have hlarger := ho.larger c (List.mem_cons_of_mem b hc)
          unfold Block.finish at *
          omega

theorem Ordered.exists_back (ho : Ordered l) (finish : Nat) :
    ∃ front back, l = front ++ back ∧ (∀ b ∈ front, b.address < finish) ∧
      ∀ b ∈ back, finish ≤ b.address := by
  induction l with
  | nil => exact ⟨[], [], rfl, by simp, by simp⟩
  | cons b l ih =>
      by_cases hb : b.address < finish
      · obtain ⟨front, back, rfl, hfront, hback⟩ := ih ho.tail
        refine ⟨b :: front, back, rfl, ?_, hback⟩
        intro c hc
        rcases List.mem_cons.mp hc with rfl | hc
        · exact hb
        · exact hfront c hc
      · refine ⟨[], b :: l, rfl, by simp, ?_⟩
        intro c hc
        rcases List.mem_cons.mp hc with rfl | hc
        · omega
        · have hbc := ho.head_before hc
          unfold Block.finish at hbc
          omega

/-- The list around the region. -/
structure Around (margin finish : Nat) (pre mid post : List Block) : Prop where
  ordered : Ordered (pre ++ (mid ++ post))
  front : ∀ b ∈ pre, b.finish ≤ margin
  overlaps : ∀ b ∈ mid, b.Overlaps margin finish
  back : ∀ b ∈ post, finish ≤ b.address

theorem Ordered.around (ho : Ordered l) (margin finish : Nat) :
    ∃ pre mid post, l = pre ++ (mid ++ post) ∧ Around margin finish pre mid post := by
  obtain ⟨pre, rest, rfl, hpre, hrest⟩ := ho.exists_front margin
  obtain ⟨mid, post, rfl, hmid, hpost⟩ := ho.append_right.exists_back finish
  refine ⟨pre, mid, post, rfl, ho, hpre, fun b hb => ?_, hpost⟩
  exact ⟨hmid b hb, hrest b (by simp [hb])⟩

theorem Around.notAvailable_of_apart (ha : Around margin finish pre (b :: mid) post)
    (hchain : (pre ++ (b :: mid ++ post)).IsChain Adjoining) (hb : b.kind = .available)
    (hmargin : margin < b.address) : ∀ p ∈ pre.getLast?, p.kind = .immovable := by
  intro p hp
  have hfinish := ha.front p (List.mem_of_getLast? hp)
  have hadjoining := (List.isChain_append.mp hchain).2.2 p hp b (by simp)
  rcases hadjoining with hkind | hkind | hcontiguous
  · exact hkind
  · rw [hb] at hkind
    cases hkind
  · omega

theorem Writable.admits (hl : ∀ b ∈ l, ∃ c ∈ blocks, c.address = b.address)
    (hmid : ∀ b ∈ mid, b ∈ blocks ∧ b.Overlaps margin finish) :
    Admits (Writable blocks margin finish) l mid := by
  constructor
  · intro b hb x hx
    obtain ⟨c, hc, haddress⟩ := hl b hb
    unfold Block.HeaderAt at hx
    exact .inl ⟨c, hc, by unfold Block.HeaderAt; omega⟩
  · intro b hb x hbx hxb
    exact .inr ⟨b, (hmid b hb).1, (hmid b hb).2, hbx, hxb⟩

/-! The loop, from the first header on. -/

/-- The loop ends with the list `l'`, and has written to nothing but headers and blocks that
overlap the region. -/
def LocksTo (h : Heap) (l : List Block) (margin finish : Nat) (l' : List Block) : Prop :=
  ∃ h', Advances margin finish h h.heapBase h' none ∧ Threads h' l' ∧
    KeepsBytes (Writable l margin finish) h h'

/-- The loop passes by the blocks in front of the region. -/
theorem Around.skips (ha : Around margin finish pre mid post)
    (ht : Threads h (pre ++ (mid ++ post))) :
    Advances margin finish h h.heapBase h (firstAddress (mid ++ post) none) := by
  rw [ht.base]
  refine Advances.skip ht.linked (fun b hb => ha.ordered.bounded b (by simp [hb])) ?_
  intro b hb
  refine .inl fun hover => ?_
  have hfinish := ha.front b hb
  unfold Block.Overlaps at hover
  omega

/-- No block overlaps the region. -/
theorem Around.locks_none (ha : Around margin finish pre [] post)
    (ht : Threads h (pre ++ post)) : LocksTo h (pre ++ post) margin finish (pre ++ post) := by
  refine ⟨h, (ha.skips ht).trans ?_, ht, .refl _ h⟩
  exact .behind (linked_append.mp ht.linked).2
    (fun b hb => ha.ordered.append_right.bounded b hb) ha.back

/-- The block that reaches into the margin is in use. -/
theorem Around.locks_behind (ha : Around margin finish pre (b :: rest) post)
    (ht : Threads h (pre ++ (b :: rest ++ post))) (hb : b.kind ≠ .available)
    (hrest : ∀ c ∈ rest, c.kind = .available) :
    LocksTo h (pre ++ (b :: rest ++ post)) margin finish
      (pre ++ b :: (leftover finish rest ++ post)) := by
  have happend : ∀ m, pre ++ b :: m = (pre ++ [b]) ++ m := by simp
  have ho := ha.ordered.append_right
  have hskip : Advances margin finish h (firstAddress ([b] ++ (rest ++ post)) none) h
      (firstAddress (rest ++ post) none) :=
    Advances.skip (linked_append.mp ht.linked).2
      (fun c hc => ho.bounded c (by simp [List.mem_singleton.mp hc]))
      fun c hc => .inr (List.mem_singleton.mp hc ▸ hb)
  have hinside : ∀ c ∈ rest, c.kind = .available ∧ margin < c.address ∧ c.address < finish := by
    intro c hc
    have hbc := ho.head_before (c := c) (by simp [hc])
    have hover := ha.overlaps b (by simp)
    have hcover := ha.overlaps c (by simp [hc])
    unfold Block.Overlaps at hover hcover
    exact ⟨hrest c hc, by omega, by omega⟩
  have hs := ha.ordered.spaced
  have hads : Admits (Writable (pre ++ (b :: rest ++ post)) margin finish)
      ((pre ++ [b]) ++ (rest ++ post)) rest := by
    refine Writable.admits (fun c hc => ⟨c, ?_, rfl⟩) fun c hc => ⟨?_, ha.overlaps c (by simp [hc])⟩
    · simpa using hc
    · simp [hc]
  have ht₁ := ht
  rw [List.cons_append, happend] at ht₁ hs
  obtain ⟨h', hdrops, ht', hbytes⟩ := ht₁.drops hs ho.tail (by simpa using hb) hinside ha.back hads
  refine ⟨h', (ha.skips ht).trans (hskip.trans hdrops), ?_, hbytes⟩
  rw [happend]
  exact ht'

/-- All blocks that overlap the region begin in it. -/
theorem Around.locks_inside (ha : Around margin finish pre mid post)
    (ht : Threads h (pre ++ (mid ++ post))) (hpre : ∀ p ∈ pre.getLast?, p.kind ≠ .available)
    (hmid : ∀ b ∈ mid, b.kind = .available ∧ margin < b.address) :
    LocksTo h (pre ++ (mid ++ post)) margin finish (pre ++ (leftover finish mid ++ post)) := by
  have hads : Admits (Writable (pre ++ (mid ++ post)) margin finish) (pre ++ (mid ++ post)) mid :=
    Writable.admits (fun c hc => ⟨c, hc, rfl⟩) fun c hc => ⟨by simp [hc], ha.overlaps c hc⟩
  obtain ⟨h', hdrops, ht', hbytes⟩ := ht.drops ha.ordered.spaced ha.ordered.append_right hpre
    (fun b hb => ⟨(hmid b hb).1, (hmid b hb).2, (ha.overlaps b hb).1⟩) ha.back hads
  exact ⟨h', (ha.skips ht).trans hdrops, ht', hbytes⟩

/-- The first block that overlaps the region is locked where it is. -/
theorem Around.locks_first (ha : Around margin finish pre (b :: rest) post)
    (ht : Threads h (pre ++ (b :: rest ++ post))) (haddress : b.address ≤ margin)
    (hround : h.lockRound margin finish b.address = h.lockBack margin finish b.address b.finish)
    (hregion : margin + sizeofHeapHeader < finish) (hfinish : finish < 2 ^ 32)
    (hrest : ∀ c ∈ rest, c.kind = .available) :
    LocksTo h (pre ++ (b :: rest ++ post)) margin finish
      (pre ++ b.lockedTo finish :: (leftover finish (b :: rest) ++ post)) := by
  have happend : ∀ m, pre ++ b :: m = (pre ++ [b]) ++ m := by simp
  have hd : Dangling h (pre ++ [b]) (some b.address) (rest ++ post) := by
    have ht₁ := ht
    rw [List.cons_append, happend, threads_append, lastAddress_append] at ht₁
    exact ht₁
  have hads : Admits (Writable (pre ++ (b :: rest ++ post)) margin finish)
      (pre ++ b :: (rest ++ post)) (b :: rest) :=
    Writable.admits (fun c hc => ⟨c, hc, rfl⟩) fun c hc =>
      ⟨List.mem_append_right pre (List.mem_append_left post hc), ha.overlaps c hc⟩
  obtain ⟨h', hlocks, ht', hbytes⟩ := hd.locks ha.ordered.spaced ha.ordered.append_right hround
    haddress hregion hfinish (.inl rfl) (ha.overlaps b (by simp)).2
    (fun c hc => ⟨hrest c hc, (ha.overlaps c (by simp [hc])).1⟩) ha.back hads
  exact ⟨h', (ha.skips ht).trans hlocks, ht', hbytes⟩

theorem lockFront_refused {h : Heap} {contents : HeapHeader}
    (hb : h.headers header = some contents) (hpos : header ≤ start)
    (hbound : start < 2 ^ 32) (hshort : start ≤ header + sizeofHeapHeader)
    (hroom : subSize start header < subSize contents.size sizeofHeapHeader) :
    h.lockFront start header = some (h, false) := by
  have hsub : subSize start header = start - header := subSize_of_le hpos hbound
  unfold lockFront
  rw [hb, Option.bind_eq_bind, Option.bind_some, if_neg (by omega)]
  exact splitHeader_of_le hb (.inr (by omega))

theorem lockFront_split {h : Heap} {b : Block} {contents : HeapHeader}
    (hb : h.headers b.address = some contents) (hcontents : contents.size = b.size)
    (hpos : b.address ≤ start) (hend : start + sizeofHeapHeader < b.finish)
    (hbound : b.finish < 2 ^ 32)
    (hsplit : h.splitHeader b.address (start - b.address) = some (h', true)) :
    h.lockFront start b.address = some (h', true) := by
  unfold Block.finish at hend hbound
  have hsub : subSize start b.address = start - b.address := subSize_of_le hpos (by omega)
  have hroom : ¬subSize b.size sizeofHeapHeader ≤ start - b.address := by
    rw [subSize_of_le (by omega) (by omega)]
    omega
  unfold lockFront
  rw [hb, Option.bind_eq_bind, Option.bind_some, hcontents, hsub, if_neg hroom]
  exact hsplit

theorem lockRound_split {h : Heap} {b : Block} {contents : HeapHeader}
    (hb : h.headers b.address = some contents) (hsize : contents.size = b.size)
    (hkind : contents.kind = .available) (hbound : b.finish < 2 ^ 32)
    (hoverlaps : b.Overlaps margin finish) (hmargin : b.address < margin)
    (hfront : h.lockFront margin b.address = some (h', true)) :
    h.lockRound margin finish b.address = some (h', b.address) := by
  rw [lockRound_front hb hsize hkind hbound hoverlaps hmargin, hfront, Option.bind_some,
    if_pos rfl]

theorem Ordered.of_head (ho : Ordered (b :: l)) (hfinish : c.finish = b.finish)
    (hlarger : sizeofHeapHeader < c.size) : Ordered (c :: l) := by
  constructor
  · refine List.pairwise_cons.mpr ⟨fun d hd => ?_, ho.tail.sorted⟩
    rw [hfinish]
    exact ho.head_before hd
  · intro d hd
    rcases List.mem_cons.mp hd with rfl | hd
    · exact hlarger
    · exact ho.larger d (by simp [hd])
  · intro d hd
    rcases List.mem_cons.mp hd with rfl | hd
    · rw [hfinish]
      exact ho.bounded b (by simp)
    · exact ho.bounded d (by simp [hd])

/-- The first block is split where the margin begins. -/
theorem Around.locks_split (ha : Around margin finish pre (b :: rest) post)
    (ht : Threads h (pre ++ (b :: rest ++ post))) (haddress : b.address + sizeofHeapHeader < margin)
    (hend : margin + sizeofHeapHeader < b.finish)
    (hregion : margin + sizeofHeapHeader < finish) (hfinish : finish < 2 ^ 32)
    (hb : b.kind = .available) (hrest : ∀ c ∈ rest, c.kind = .available) :
    LocksTo h (pre ++ (b :: rest ++ post)) margin finish
      (pre ++ b.cut (margin - b.address) :: (b.remainder (margin - b.address)).lockedTo finish ::
        (leftover finish (b.remainder (margin - b.address) :: rest) ++ post)) := by
  have happend : ∀ c m, pre ++ (c : Block) :: m = (pre ++ [c]) ++ m := by simp
  have ho := ha.ordered.append_right
  have hs := ha.ordered.spaced
  have hbound := ho.bounded b (by simp)
  have hbehind : ∀ c ∈ rest ++ post, b.finish ≤ c.address := fun c hc => ho.head_before hc
  have hd : Dangling h (pre ++ [b]) (some b.address) (rest ++ post) := by
    have ht₁ := ht
    rw [List.cons_append, happend, threads_append, lastAddress_append] at ht₁
    exact ht₁
  have hsize : b.size < 2 ^ 32 ∧ margin - b.address + sizeofHeapHeader < b.size := by
    unfold Block.finish at hbound hend
    omega
  have hrfinish : (b.remainder (margin - b.address)).finish = b.finish := by
    unfold Block.remainder Block.finish
    simp only
    omega
  have hraddress : (b.remainder (margin - b.address)).address = margin := by
    simp only [Block.remainder]
    omega
  have hadmits : Admits (Writable (pre ++ (b :: rest ++ post)) margin finish)
      (pre ++ b :: b.remainder (margin - b.address) :: (rest ++ post))
      (b.remainder (margin - b.address) :: rest) := by
    constructor
    · intro c hc x hx
      have hc : c = b.remainder (margin - b.address) ∨ c ∈ pre ++ (b :: rest ++ post) := by
        simp only [List.mem_append, List.mem_cons] at hc ⊢
        tauto
      rcases hc with rfl | hc
      · refine .inr ⟨b, by simp, ha.overlaps b (by simp), ?_⟩
        unfold Block.HeaderAt at hx
        omega
      · exact .inl ⟨c, hc, hx⟩
    · intro c hc x hcx hxc
      rcases List.mem_cons.mp hc with rfl | hc
      · exact .inr ⟨b, by simp, ha.overlaps b (by simp), by omega, by omega⟩
      · exact .inr ⟨c, by simp [hc], ha.overlaps c (by simp [hc]), hcx, hxc⟩
  obtain ⟨h₁, hsplit, ht₁, hbytes₁⟩ := splitHeader_threads hd hs hbehind hsize.1 (by omega) hsize.2
    hadmits.headers
  have hs₁ : Spaced (pre ++ b.cut (margin - b.address) :: b.remainder (margin - b.address) ::
      (rest ++ post)) := by
    refine hs.insert (by omega) (fun c hc => ?_) rfl rfl
    have := hbehind c hc
    omega
  have hround := lockRound_split hd.contents rfl hb hbound (ha.overlaps b (by simp)) (by omega)
    (lockFront_split hd.contents rfl (by omega) hend hbound hsplit)
  have hd₁ : Dangling h₁ ((pre ++ [b.cut (margin - b.address)]) ++
      [b.remainder (margin - b.address)]) (some (b.remainder (margin - b.address)).address)
      (rest ++ post) := by
    have ht₂ := ht₁
    rw [happend, List.append_cons, threads_append, lastAddress_append] at ht₂
    exact ht₂
  have hover₁ : (b.remainder (margin - b.address)).Overlaps margin finish := ⟨by omega, by omega⟩
  have hround₁ := lockRound_back hd₁.contents rfl rfl (hrfinish ▸ hbound) hover₁ hraddress.ge
  have hadmits₁ : Admits (Writable (pre ++ (b :: rest ++ post)) margin finish)
      ((pre ++ [b.cut (margin - b.address)]) ++
        b.remainder (margin - b.address) :: (rest ++ post))
      (b.remainder (margin - b.address) :: rest) := by
    refine ⟨fun c hc x hx => ?_, hadmits.inside⟩
    simp only [List.mem_append, List.mem_singleton] at hc
    rcases hc with (hc | rfl) | hc
    · exact hadmits.headers c (by simp [hc]) x hx
    · exact hadmits.headers b (by simp) x hx
    · exact hadmits.headers c (List.mem_append_right pre (List.mem_cons_of_mem b hc)) x hx
  obtain ⟨h₂, hlocks, ht₂, hbytes₂⟩ := hd₁.locks (by simpa using hs₁)
    (ho.of_head hrfinish (by simp only [Block.remainder]; omega)) hround₁ hraddress.le hregion
    hfinish (.inl rfl) (by omega) (fun c hc => ⟨hrest c hc, (ha.overlaps c (by simp [hc])).1⟩)
    ha.back hadmits₁
  refine ⟨h₂, (ha.skips ht).trans ((Advances.round hround ht₁.last_contents).trans hlocks), ?_,
    hbytes₁.trans hbytes₂⟩
  rw [happend]
  exact ht₂

/-! The first block ends in the margin. -/

theorem lockFront_passesOn {h : Heap} {b : Block} {contents : HeapHeader}
    (hb : h.headers b.address = some contents) (hcontents : contents.size = b.size)
    (hlarger : sizeofHeapHeader < b.size) (hpos : b.address ≤ start)
    (hend : b.finish ≤ start + sizeofHeapHeader) (hstart : start < b.finish)
    (hbound : b.finish < 2 ^ 32) :
    h.lockFront start b.address =
      (h.passOn b.address (start - b.address)).map fun h => (h, true) := by
  unfold Block.finish at hend hbound hstart
  have hsub : subSize start b.address = start - b.address := subSize_of_le hpos (by omega)
  have hroom : subSize b.size sizeofHeapHeader ≤ start - b.address := by
    rw [subSize_of_le (by omega) (by omega)]
    omega
  unfold lockFront
  rw [hb, Option.bind_eq_bind, Option.bind_some, hcontents, hsub, if_pos hroom]
  cases h.passOn b.address (start - b.address) <;> rfl

theorem lockRound_passesOn {h : Heap} {b : Block} {contents : HeapHeader}
    (hb : h.headers b.address = some contents) (hsize : contents.size = b.size)
    (hkind : contents.kind = .available) (hlarger : sizeofHeapHeader < b.size)
    (hbound : b.finish < 2 ^ 32) (hoverlaps : b.Overlaps margin finish)
    (hmargin : b.address < margin) (hend : b.finish ≤ margin + sizeofHeapHeader) :
    h.lockRound margin finish b.address =
      (h.passOn b.address (margin - b.address)).map fun h => (h, b.address) := by
  rw [lockRound_front hb hsize hkind hbound hoverlaps hmargin,
    lockFront_passesOn hb hsize hlarger hmargin.le hend hoverlaps.2 hbound]
  cases h.passOn b.address (margin - b.address) with
  | none => rfl
  | some h =>
      rw [Option.map_some, Option.bind_some, if_pos rfl]
      rfl

/-- It gives its end up, and no block takes it. -/
theorem Around.locks_cut (ha : Around margin finish pre [b] post)
    (ht : Threads h (pre ++ b :: post)) (hb : b.kind = .available) (hmargin : b.address < margin)
    (hend : b.finish ≤ margin + sizeofHeapHeader) (hpost : ∀ c ∈ post.head?, c.kind ≠ .available) :
    LocksTo h (pre ++ b :: post) margin finish (pre ++ b.cut (margin - b.address) :: post) := by
  have ho := ha.ordered.append_right
  obtain ⟨h', hpass, ht', hbytes⟩ := passOn_kept (W := Writable (pre ++ b :: post) margin finish) ht
    ha.ordered.spaced hpost (margin - b.address) fun x hx => .inl ⟨b, by simp, hx⟩
  have hround : h.lockRound margin finish b.address = some (h', b.address) := by
    rw [lockRound_passesOn ht.last_contents rfl hb (ho.larger b (by simp)) (ho.bounded b (by simp))
      (ha.overlaps b (by simp)) hmargin hend, hpass]
    rfl
  refine ⟨h', (ha.skips ht).trans ((Advances.round hround ht'.last_contents).trans ?_), ht', hbytes⟩
  exact .behind (linked_append.mp ht'.linked).2.2 (fun c hc => ho.tail.bounded c hc) ha.back

/-- Its end goes to the next block, whose header is now where the margin begins. -/
theorem Around.passesOn (ha : Around margin finish pre (b :: c :: rest) post)
    (ht : Threads h (pre ++ (b :: c :: rest ++ post))) (hb : b.kind = .available)
    (hc : c.kind = .available) (hmargin : b.address + sizeofHeapHeader ≤ margin)
    (hend : b.finish ≤ margin + sizeofHeapHeader) (hadjacent : b.finish = c.address) :
    ∃ h', Advances margin finish h h.heapBase h' (some (b.address + (margin - b.address))) ∧
      Dangling h' ((pre ++ [b.cut (margin - b.address)]) ++ [c.grown b (margin - b.address)])
        (some c.address) (rest ++ post) ∧
      KeepsBytes (Writable (pre ++ (b :: c :: rest ++ post)) margin finish) h h' ∧
      (c.address < margin + sizeofHeapHeader → h'.headers c.address = none) ∧
      (margin + sizeofHeapHeader ≤ c.address → h'.headers c.address = h.headers c.address) := by
  have ho := ha.ordered.append_right
  have hover := ha.overlaps b (by simp)
  have hcover := ha.overlaps c (by simp)
  have hclarger := ho.larger c (by simp)
  have hsize : margin - b.address < b.size := by
    unfold Block.Overlaps Block.finish at hover
    omega
  obtain ⟨h', hpass, hd', hbytes, hlost, hkept⟩ := passOn_taken
    (W := Writable (pre ++ (b :: c :: rest ++ post)) margin finish) ht ha.ordered.spaced hc
    (by omega) hsize hadjacent (ho.bounded c (by simp)) (by
      intro d hd x hx
      unfold Block.HeaderAt at hx
      rcases List.mem_cons.mp hd with rfl | hd
      · exact .inl ⟨d, by simp, hx⟩
      · rw [List.mem_singleton.mp hd] at hx
        simp only [Block.grown] at hx
        by_cases hxb : x < b.finish
        · exact .inr ⟨b, by simp, hover, by omega, hxb⟩
        · refine .inr ⟨c, by simp, hcover, by omega, ?_⟩
          unfold Block.finish at *
          omega)
  have hpos := sizeofHeapHeader_pos
  have hround : h.lockRound margin finish b.address = some (h', b.address) := by
    rw [lockRound_passesOn (b := b) ht.last_contents rfl hb (ho.larger b (by simp))
      (ho.bounded b (by simp)) hover (by omega) hend, hpass]
    rfl
  have happend : pre ++ [b.cut (margin - b.address), c.grown b (margin - b.address)] =
      (pre ++ [b.cut (margin - b.address)]) ++ [c.grown b (margin - b.address)] := by simp
  rw [happend] at hd'
  have hcut := (linked_append.mp (linked_append.mp hd'.front).1).2.1
  have haddress : b.address + (margin - b.address) = margin := by omega
  rw [haddress] at hlost hkept
  exact ⟨h', (ha.skips ht).trans (Advances.round hround hcut), hd', hbytes, hlost, hkept⟩

theorem grown_address (c : Block) {b : Block} (hmargin : b.address ≤ margin) :
    (c.grown b (margin - b.address)).address = margin :=
  Nat.add_sub_of_le hmargin

theorem grown_finish {b c : Block} (hmargin : b.address ≤ margin) (hover : margin < b.finish)
    (hadjacent : b.finish = c.address) : (c.grown b (margin - b.address)).finish = c.finish := by
  unfold Block.grown Block.finish at *
  simp only
  omega

theorem grown_larger {c : Block} (b : Block) (pos : Nat) (hlarger : sizeofHeapHeader < c.size) :
    sizeofHeapHeader < (c.grown b pos).size :=
  hlarger.trans_le (Nat.le_add_right ..)

theorem Around.spaced_moved (ha : Around margin finish pre (b :: c :: rest) post)
    (hmargin : b.address + sizeofHeapHeader ≤ margin) (hadjacent : b.finish = c.address) :
    Spaced ((pre ++ [b.cut (margin - b.address)]) ++
      c.grown b (margin - b.address) :: (rest ++ post)) := by
  have ho := ha.ordered.append_right
  have hover := (ha.overlaps b (by simp)).2
  have hclarger := ho.tail.larger c (by simp)
  have hsublist : (pre ++ b :: (rest ++ post)).Sublist (pre ++ (b :: c :: rest ++ post)) := by
    simp
  have hs : Spaced (pre ++ b :: (rest ++ post)) := ha.ordered.spaced.sublist hsublist
  have hs' : Spaced (pre ++ b.cut (margin - b.address) ::
      c.grown b (margin - b.address) :: (rest ++ post)) := by
    refine hs.insert (by omega) (fun d hd => ?_) rfl rfl
    have hcd := ho.tail.head_before hd
    unfold Block.finish at hcd hadjacent hover
    omega
  simpa using hs'

/-- The header that has been moved is locked, where no header behind it points back to
where it was. -/
theorem Around.locks_moved (ha : Around margin finish pre (b :: c :: rest) post)
    (ht : Threads h (pre ++ (b :: c :: rest ++ post))) (hb : b.kind = .available)
    (hmid : ∀ d ∈ c :: rest, d.kind = .available)
    (hmargin : b.address + sizeofHeapHeader ≤ margin)
    (hend : b.finish ≤ margin + sizeofHeapHeader) (hadjacent : b.finish = c.address)
    (hregion : margin + sizeofHeapHeader < finish) (hfinish : finish < 2 ^ 32)
    (hback : rest ++ post = [] ∨ finish + sizeofHeapHeader < c.finish) :
    LocksTo h (pre ++ (b :: c :: rest ++ post)) margin finish
      (pre ++ b.cut (margin - b.address) :: (c.grown b (margin - b.address)).lockedTo finish ::
        (leftover finish (c.grown b (margin - b.address) :: rest) ++ post)) := by
  have hc := hmid c (by simp)
  have ho := ha.ordered.append_right
  have hs := ha.ordered.spaced
  have hover := ha.overlaps b (by simp)
  have hcover := ha.overlaps c (by simp)
  have hclarger := ho.tail.larger c (by simp)
  have hcbound := ho.tail.bounded c (by simp)
  have hgaddress := grown_address c (show b.address ≤ margin by omega)
  have hgfinish := grown_finish (show b.address ≤ margin by omega) hover.2 hadjacent
  have hglarger := grown_larger b (margin - b.address) hclarger
  obtain ⟨h₁, hskips, hd₁, hbytes₁, -⟩ := ha.passesOn ht hb hc hmargin hend hadjacent
  have hgover : (c.grown b (margin - b.address)).Overlaps margin finish :=
    ⟨by omega, hgfinish ▸ hcover.2⟩
  have hround := lockRound_back hd₁.contents rfl hc (hgfinish ▸ hcbound) hgover hgaddress.ge
  have hs₁ := ha.spaced_moved hmargin hadjacent
  have hadmits : Admits (Writable (pre ++ (b :: c :: rest ++ post)) margin finish)
      ((pre ++ [b.cut (margin - b.address)]) ++ c.grown b (margin - b.address) :: (rest ++ post))
      (c.grown b (margin - b.address) :: rest) := by
    have hinside : ∀ x, margin ≤ x → x < c.finish →
        Writable (pre ++ (b :: c :: rest ++ post)) margin finish x := by
      intro x hmx hxc
      by_cases hxb : x < b.finish
      · exact .inr ⟨b, by simp, hover, by omega, hxb⟩
      · exact .inr ⟨c, by simp, hcover, by omega, hxc⟩
    constructor
    · intro d hd x hx
      simp only [List.mem_append, List.mem_cons, List.not_mem_nil, or_false] at hd
      rcases hd with (hd | rfl) | rfl | hd
      · exact .inl ⟨d, by simp [hd], hx⟩
      · exact .inl ⟨b, by simp, hx⟩
      · unfold Block.HeaderAt at hx
        have hsum : (c.grown b (margin - b.address)).address +
            (c.grown b (margin - b.address)).size = c.finish := hgfinish
        exact hinside x (by omega) (by omega)
      · exact .inl ⟨d, by rcases hd with hd | hd <;> simp [hd], hx⟩
    · intro d hd x hdx hxd
      rcases List.mem_cons.mp hd with rfl | hd
      · exact hinside x (by omega) (by omega)
      · exact .inr ⟨d, by simp [hd], ha.overlaps d (by simp [hd]), hdx, hxd⟩
  obtain ⟨h₂, hlocks, ht₂, hbytes₂⟩ := hd₁.locks hs₁ (ho.tail.of_head hgfinish hglarger) hround
    hgaddress.le hregion hfinish (.inr (hgfinish.symm ▸ hback)) (hgfinish.symm ▸ hcover.2)
    (fun d hd => ⟨hmid d (by simp [hd]), (ha.overlaps d (by simp [hd])).1⟩) ha.back hadmits
  refine ⟨h₂, hskips.trans hlocks, ?_, hbytes₁.trans hbytes₂⟩
  simpa using ht₂

end Cenix.Heap
