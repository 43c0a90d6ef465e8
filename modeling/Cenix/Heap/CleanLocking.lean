import Cenix.Heap.LockedRegions

namespace Cenix.Heap

/-! When `heap_lock_existing_region` keeps the list well formed. -/

theorem leftover_append (finish : Nat) (l : List Block) (b : Block) :
    leftover finish (l ++ [b]) = leftover finish [b] := by
  induction l with
  | nil => rfl
  | cons c l ih =>
      cases l with
      | nil => rfl
      | cons d l => exact ih

theorem leftover_eq_nil :
    leftover finish l = [] ↔ ∀ b ∈ l.getLast?,
      finish ≤ b.address + sizeofHeapHeader ∨ b.finish ≤ finish + sizeofHeapHeader := by
  rcases List.eq_nil_or_concat' l with rfl | ⟨l, b, rfl⟩
  · simp [leftover]
  · rw [leftover_append]
    simp only [leftover, List.getLast?_append, List.getLast?_singleton]
    split
    · rename_i hroom
      simp only [List.cons_ne_self, false_iff]
      intro hall
      have := hall b rfl
      omega
    · rename_i hroom
      simp only [true_iff]
      intro c hc
      have heq : b = c := by simpa using hc
      rw [← heq]
      omega

theorem leftover_sorted (ho : Ordered (l ++ m)) (hl : ∀ b ∈ l, b.address < finish) :
    (leftover finish l ++ m).Pairwise fun b c => b.finish ≤ c.address := by
  refine List.pairwise_append.mpr ⟨?_, ho.append_right.sorted, ?_⟩
  · rcases List.eq_nil_or_concat' l with rfl | ⟨l, b, rfl⟩
    · exact .nil
    · rw [leftover_append]
      unfold leftover
      split
      · exact List.pairwise_singleton ..
      · exact .nil
  · intro b hb c hc
    obtain ⟨-, -, d, hd, hfinish⟩ := leftover_finish hb hl
    rw [hfinish]
    exact ho.before hd hc

theorem leftover_address (hl : ∀ b ∈ l, b.address < finish) (hm : ∀ b ∈ m, finish ≤ b.address) :
    ∀ b ∈ leftover finish l ++ m, finish ≤ b.address := by
  intro b hb
  cases List.mem_append.mp hb with
  | inl hb => exact (leftover_finish hb hl).2.1.ge
  | inr hb => exact hm b hb

theorem leftover_larger (hb : b ∈ leftover finish l) : sizeofHeapHeader ≤ b.size := by
  rcases List.eq_nil_or_concat' l with rfl | ⟨l, c, rfl⟩
  · cases hb
  · rw [leftover_append] at hb
    unfold leftover at hb
    split at hb
    · rename_i hroom
      rw [List.mem_singleton.mp hb]
      unfold Block.finish at hroom
      simp only [Block.remainder]
      omega
    · cases hb

theorem lockedTo_larger {b : Block} (hlarger : sizeofHeapHeader < b.size)
    (hroom : b.address + sizeofHeapHeader ≤ finish) : sizeofHeapHeader ≤ (b.lockedTo finish).size := by
  unfold Block.lockedTo
  split
  · simp only [Block.locked, Block.cut]
    omega
  · exact hlarger.le

theorem spaced_of_sorted {l : List Block} (hs : l.Pairwise fun b c => b.finish ≤ c.address)
    (hl : ∀ b ∈ l, sizeofHeapHeader ≤ b.size) : Spaced l := by
  refine hs.imp_of_mem fun {b c} hb _ hbc => ?_
  have hlarger := hl b hb
  unfold Block.finish at hbc
  omega

theorem lockedTo_kind (b : Block) (finish : Nat) : (b.lockedTo finish).kind = .immovable := by
  unfold Block.lockedTo
  split <;> rfl

/-- What is locked of a block ends before what is left over. -/
theorem lockedTo_sorted (ho : Ordered (b :: (l ++ m)))
    (hl : ∀ c ∈ b :: l, c.address < finish) (hm : ∀ c ∈ m, finish ≤ c.address) :
    (b.lockedTo finish :: (leftover finish (b :: l) ++ m)).Pairwise
      fun c d => c.finish ≤ d.address := by
  refine List.pairwise_cons.mpr ⟨fun d hd => ?_, leftover_sorted (l := b :: l) ho hl⟩
  have hdfinish := leftover_address hl hm d hd
  have hb := hl b (by simp)
  unfold Block.lockedTo
  split
  · unfold Block.locked Block.cut Block.finish
    simp only
    omega
  · rename_i hend
    change b.finish ≤ d.address
    cases List.mem_append.mp hd with
    | inr hd => exact ho.head_before (List.mem_append_right l hd)
    | inl hd =>
        cases l with
        | nil =>
            rw [show leftover finish [b] = [] from if_neg fun hroom => hend hroom.2] at hd
            cases hd
        | cons c l =>
            have hbc := ho.head_before (c := c) (by simp)
            have hc := hl c (by simp)
            omega

theorem Clears.sorted (hc : Clears start finish before sep behind) (hregion : start ≤ finish)
    (hbefore : before.Pairwise fun b c => b.finish ≤ c.address)
    (hcross : ∀ b ∈ before, ∀ c ∈ sep, b.finish ≤ c.address)
    (hbehind : (sep ++ behind).Pairwise fun b c => b.finish ≤ c.address) :
    (before ++ (sep ++ behind)).Pairwise fun b c => b.finish ≤ c.address := by
  refine List.pairwise_append.mpr ⟨hbefore, hbehind, ?_⟩
  intro b hb c hin
  cases List.mem_append.mp hin with
  | inl hin => exact hcross b hb c hin
  | inr hin => exact (hc.front b hb).trans (hregion.trans (hc.back c hin))

/-- The call locks the region. -/
def Locks (h : Heap) (l : List Block) (start finish : Nat) : Prop :=
  ∃ fuel h' l', heapLockExistingRegion fuel h start finish = some h' ∧
    LocksRegion h l start finish h' l'

theorem Clears.locksRegion (hc : Clears start finish before sep behind)
    (ht : Threads h' (before ++ (sep ++ behind)))
    (hsorted : (before ++ (sep ++ behind)).Pairwise fun b c => b.finish ≤ c.address)
    (hspaced : Spaced (before ++ (sep ++ behind)))
    (hkept : ∀ b ∈ l, ¬b.Overlaps (start - sizeofHeapHeader) finish →
      b ∈ before ++ (sep ++ behind) ∧
        ∀ x, b.pointer ≤ x → x < b.finish → h'.bytes x = h.bytes x) :
    LocksRegion h l start finish h' (before ++ (sep ++ behind)) where
  threads := ht
  sorted := hsorted
  spaced := hspaced
  available := fun _ hb hkind => hc.available hb hkind
  runs := fun _ _ _ heq hrun _ hb _ hd => hc.runs heq hrun hb hd
  kept := hkept

theorem Clears.locks (hc : Clears start finish before sep behind) (ho : Ordered l)
    (hlocks : LocksTo h l (start - sizeofHeapHeader) finish (before ++ (sep ++ behind)))
    (hstart : sizeofHeapHeader ≤ start) (hbound : start < 2 ^ 32)
    (hsorted : (before ++ (sep ++ behind)).Pairwise fun b c => b.finish ≤ c.address)
    (hspaced : Spaced (before ++ (sep ++ behind)))
    (hkept : ∀ b ∈ l, ¬b.Overlaps (start - sizeofHeapHeader) finish →
      b ∈ before ++ (sep ++ behind)) : Locks h l start finish := by
  obtain ⟨h', ⟨n, hn⟩, ht', hbytes⟩ := hlocks
  rw [← subSize_of_le hstart hbound] at hn
  refine ⟨0 + n, h', before ++ (sep ++ behind), hn 0, hc.locksRegion ht' hsorted hspaced ?_⟩
  intro b hb hclear
  exact ⟨hkept b hb hclear, fun x hx hxb => ho.keepsStored hb hclear hbytes hx hxb⟩

/-- When a region can be locked. Nothing may start in the margin of a region at the
start of memory. The next two conditions are about a block that ends in the header margin. -/
structure LocksCleanly (l : List Block) (start finish : Nat) : Prop where
  margin : sizeofHeapHeader ≤ start ∨ ∀ b ∈ l, ¬b.Overlaps start finish
  behind : ∀ front b c back, l = front ++ b :: c :: back → b.kind = .available →
    c.kind = .available → b.address + sizeofHeapHeader < start →
    start < b.finish + sizeofHeapHeader → b.finish ≤ start →
      b.address + sizeofHeapHeader + sizeofHeapHeader ≤ start ∧
        (back = [] ∨ finish + sizeofHeapHeader < c.finish)
  unmoved : ∀ front b covered back, l = front ++ b :: (covered ++ back) → b.kind = .movable →
    start < b.finish + sizeofHeapHeader → b.finish ≤ start → covered ≠ [] →
    (∀ c ∈ covered, c.Overlaps start finish) → (∀ c ∈ back, finish ≤ c.address) →
      (∀ c ∈ covered.getLast?,
        finish ≤ c.address + sizeofHeapHeader ∨ c.finish ≤ finish + sizeofHeapHeader) ∧
        ∀ c ∈ back.head?, c.kind = .immovable

/-- A block that is clear of the region is in front of it or behind it. -/
theorem Around.clear (ha : Around margin finish pre mid post) (hb : b ∈ pre ++ (mid ++ post))
    (hclear : ¬b.Overlaps margin finish) : b ∈ pre ∨ b ∈ post := by
  simp only [List.mem_append] at hb
  rcases hb with hb | hb | hb
  · exact .inl hb
  · exact absurd (ha.overlaps b hb) hclear
  · exact .inr hb

theorem Around.sorted_front {c : Block} (ha : Around margin finish pre (b :: rest) post)
    (haddress : c.address = b.address) :
    (pre ++ [c]).Pairwise fun b c => b.finish ≤ c.address := by
  refine List.pairwise_append.mpr ⟨ha.ordered.append_left.sorted, by simp, ?_⟩
  intro p hp d hd
  rw [List.mem_singleton.mp hd, haddress]
  exact ha.ordered.before (c := b) hp (by simp)

theorem Around.larger_front (ha : Around margin finish pre mid post)
    (hlarger : sizeofHeapHeader ≤ c.size) : ∀ b ∈ pre ++ [c], sizeofHeapHeader ≤ b.size := by
  intro b hb
  cases List.mem_append.mp hb with
  | inl hb => exact (ha.ordered.larger b (by simp [hb])).le
  | inr hb => exact List.mem_singleton.mp hb ▸ hlarger

/-- The headers are apart where no block is smaller than its header. -/
theorem Around.spaced (ha : Around margin finish pre mid post)
    (hsorted : (before ++ (sep ++ (leftover finish l ++ post))).Pairwise
      fun b c => b.finish ≤ c.address)
    (hbefore : ∀ b ∈ before, sizeofHeapHeader ≤ b.size)
    (hsep : ∀ b ∈ sep, sizeofHeapHeader ≤ b.size) :
    Spaced (before ++ (sep ++ (leftover finish l ++ post))) := by
  refine spaced_of_sorted hsorted fun b hb => ?_
  simp only [List.mem_append] at hb
  rcases hb with hb | hb | hb | hb
  · exact hbefore b hb
  · exact hsep b hb
  · exact leftover_larger hb
  · exact (ha.ordered.larger b (by simp [hb])).le

/-- The header margin of a region at the start of memory is at its end. -/
theorem WellFormed.locks_low (hw : WellFormed h l) (hlow : start < sizeofHeapHeader)
    (hclear : ∀ b ∈ l, ¬b.Overlaps start finish) : Locks h l start finish := by
  have hback : ∀ b ∈ l, finish ≤ b.address := by
    intro b hb
    have hlarger := hw.ordered.larger b hb
    have hover := hclear b hb
    unfold Block.Overlaps Block.finish at hover
    omega
  have hc : Clears start finish [] [] l := ⟨by simp, by simp, hback, .inr (.inl (by simp))⟩
  have hskips : Advances (subSize start sizeofHeapHeader) finish h (firstAddress l none) h none :=
    .behind hw.linked hw.ordered.bounded hback
  obtain ⟨n, hn⟩ := hskips
  refine ⟨0 + n, h, l, ?_, hc.locksRegion ⟨hw.base, hw.linked⟩ hw.ordered.sorted
    hw.ordered.spaced ?_⟩
  · unfold heapLockExistingRegion
    rw [hw.base]
    exact hn 0
  · exact fun b hb _ => ⟨hb, fun _ _ _ => rfl⟩

/-- What the list and the region have to be for the call. -/
structure Lockable (h : Heap) (l : List Block) (start finish : Nat) : Prop where
  wellFormed : WellFormed h l
  region : start < finish
  bounded : finish < 2 ^ 32
  available : ∀ b ∈ l, b.Overlaps start finish → b.kind = .available

namespace Lockable

variable {pre mid rest post : List Block} {b : Block}

theorem threads (hl : Lockable h l start finish) : Threads h l :=
  ⟨hl.wellFormed.base, hl.wellFormed.linked⟩

/-- Only the first block that reaches into the margin can be clear of the region. -/
theorem rest_available (hl : Lockable h (pre ++ (b :: rest ++ post)) start finish)
    (ha : Around (start - sizeofHeapHeader) finish pre (b :: rest) post) :
    ∀ c ∈ rest, c.kind = .available ∧ c.Overlaps start finish := by
  intro c hc
  have ho := ha.ordered.append_right
  have hbc := ho.head_before (c := c) (by simp [hc])
  have hlarger := ho.tail.larger c (by simp [hc])
  have hover := ha.overlaps b (by simp)
  have hcover := ha.overlaps c (by simp [hc])
  have hcover : c.Overlaps start finish := by
    unfold Block.Overlaps Block.finish at *
    omega
  exact ⟨hl.available c (by simp [hc]) hcover, hcover⟩

end Lockable

/-- Of two neighbours with a gap between them one is immovable. -/
theorem guarded_of_gap {before behind : List Block} (hchain : (before ++ behind).IsChain Adjoining)
    (hgap : ∀ b ∈ before, ∀ c ∈ behind, b.finish < c.address) :
    (∀ b ∈ before.getLast?, b.kind = .immovable) ∨ ∀ b ∈ behind.head?, b.kind = .immovable := by
  rcases List.eq_nil_or_concat' before with rfl | ⟨before, b, rfl⟩
  · simp
  · cases behind with
    | nil => simp
    | cons c behind =>
        have hadjoining := (List.isChain_append.mp hchain).2.2 b (by simp) c (by simp)
        have hbc := hgap b (by simp) c (by simp)
        rcases hadjoining with hkind | hkind | hcontiguous
        · exact .inl (by simpa using hkind)
        · exact .inr (by simpa using hkind)
        · omega

namespace Lockable

variable {pre mid rest post : List Block} {b : Block}

theorem locks_apart (hl : Lockable h (pre ++ post) start finish)
    (ha : Around (start - sizeofHeapHeader) finish pre [] post)
    (hstart : sizeofHeapHeader ≤ start) : Locks h (pre ++ post) start finish := by
  have hregion := hl.region
  have hfront : ∀ p ∈ pre, p.finish ≤ start := fun p hp => (ha.front p hp).trans (Nat.sub_le ..)
  have hc : Clears start finish pre [] post := by
    refine ⟨hfront, by simp, ha.back, .inr (guarded_of_gap hl.wellFormed.adjoining ?_)⟩
    exact fun p hp c hc => (hfront p hp).trans_lt (hregion.trans_le (ha.back c hc))
  exact hc.locks hl.wellFormed.ordered (ha.locks_none hl.threads) hstart
    (hregion.trans hl.bounded) hl.wellFormed.ordered.sorted hl.wellFormed.ordered.spaced
    fun c hc _ => hc

theorem locks_inside (hl : Lockable h (pre ++ (b :: rest ++ post)) start finish)
    (ha : Around (start - sizeofHeapHeader) finish pre (b :: rest) post)
    (hstart : sizeofHeapHeader ≤ start) (hb : b.kind = .available)
    (hmargin : start - sizeofHeapHeader < b.address) :
    Locks h (pre ++ (b :: rest ++ post)) start finish := by
  have hregion := hl.region
  have hguarded := ha.notAvailable_of_apart hl.wellFormed.adjoining hb hmargin
  have hinside : ∀ c ∈ b :: rest, c.address < finish := fun c hc => (ha.overlaps c hc).1
  have hc : Clears start finish pre [] (leftover finish (b :: rest) ++ post) := by
    refine ⟨fun p hp => (ha.front p hp).trans (Nat.sub_le ..), by simp,
      leftover_address hinside ha.back, .inr (.inl hguarded)⟩
  have hmid : ∀ c ∈ b :: rest, c.kind = .available ∧ start - sizeofHeapHeader < c.address := by
    intro c hc
    rcases List.mem_cons.mp hc with rfl | hc
    · exact ⟨hb, hmargin⟩
    · have hbc := ha.ordered.append_right.head_before (c := c) (by simp [hc])
      have hover := ha.overlaps b (by simp)
      exact ⟨(hl.rest_available ha c hc).1, hover.2.trans_le hbc⟩
  have hsorted := hc.sorted hregion.le ha.ordered.append_left.sorted (by simp)
    (leftover_sorted ha.ordered.append_right hinside)
  refine hc.locks hl.wellFormed.ordered (ha.locks_inside hl.threads (fun p hp => ?_) hmid) hstart
    (hregion.trans hl.bounded) hsorted (ha.spaced hsorted (fun p hp => ?_) (by simp)) ?_
  · rw [hguarded p hp]
    exact nofun
  · exact (ha.ordered.larger p (by simp [hp])).le
  · intro c hc hclear
    rcases ha.clear hc hclear with hc | hc <;> simp [hc]

/-- The block with the header margin has no room in front of it for another header. -/
theorem locks_first (hl : Lockable h (pre ++ (b :: rest ++ post)) start finish)
    (ha : Around (start - sizeofHeapHeader) finish pre (b :: rest) post)
    (hstart : sizeofHeapHeader ≤ start) (hb : b.kind = .available)
    (hmargin : b.address ≤ start - sizeofHeapHeader) (hend : start < b.finish)
    (hshort : start ≤ b.address + sizeofHeapHeader + sizeofHeapHeader) :
    Locks h (pre ++ (b :: rest ++ post)) start finish := by
  have hregion := hl.region
  have hfinish := hl.bounded
  have ho := ha.ordered.append_right
  have hbound := ho.bounded b (by simp)
  have hcontents := hl.threads.last_contents
  have hround : h.lockRound (start - sizeofHeapHeader) finish b.address =
      h.lockBack (start - sizeofHeapHeader) finish b.address b.finish := by
    by_cases heq : start - sizeofHeapHeader ≤ b.address
    · exact lockRound_back hcontents rfl hb hbound (ha.overlaps b (by simp)) heq
    · have hroom : subSize (start - sizeofHeapHeader) b.address <
          subSize b.size sizeofHeapHeader := by
        unfold Block.finish at hend hbound
        rw [subSize_of_le (by omega) (by omega), subSize_of_le (by omega) (by omega)]
        omega
      rw [lockRound_front hcontents rfl hb hbound (ha.overlaps b (by simp)) (by omega),
        lockFront_refused hcontents hmargin (by omega) (by omega) hroom, Option.bind_some]
      exact if_neg Bool.false_ne_true
  have hrest := hl.rest_available ha
  have hinside : ∀ c ∈ b :: rest, c.address < finish := fun c hc => (ha.overlaps c hc).1
  have hc : Clears start finish pre [b.lockedTo finish] (leftover finish (b :: rest) ++ post) := by
    refine ⟨fun p hp => (ha.front p hp).trans (Nat.sub_le ..), ?_,
      leftover_address hinside ha.back, .inl (by simp)⟩
    exact fun c hc => List.mem_singleton.mp hc ▸ lockedTo_kind b finish
  have hcross : ∀ p ∈ pre, ∀ c ∈ [b.lockedTo finish], p.finish ≤ c.address := by
    intro p hp c hc
    rw [List.mem_singleton.mp hc, lockedTo_address]
    exact ha.ordered.before hp (by simp)
  have hsorted := hc.sorted hregion.le ha.ordered.append_left.sorted hcross
    (lockedTo_sorted ho hinside ha.back)
  refine hc.locks hl.wellFormed.ordered
    (ha.locks_first hl.threads hmargin hround (by omega) hfinish fun c hc => (hrest c hc).1)
    hstart (by omega) hsorted (ha.spaced hsorted (fun p hp => ?_) fun c hc => ?_) ?_
  · exact (ha.ordered.larger p (by simp [hp])).le
  · rw [List.mem_singleton.mp hc]
    exact lockedTo_larger (ho.larger b (by simp)) (by omega)
  · intro c hc hclear
    rcases ha.clear hc hclear with hc | hc <;> simp [hc]

theorem locks_split (hl : Lockable h (pre ++ (b :: rest ++ post)) start finish)
    (ha : Around (start - sizeofHeapHeader) finish pre (b :: rest) post)
    (hb : b.kind = .available) (hend : start < b.finish)
    (hroom : b.address + sizeofHeapHeader + sizeofHeapHeader < start) :
    Locks h (pre ++ (b :: rest ++ post)) start finish := by
  have hregion := hl.region
  have hfinish := hl.bounded
  have ho := ha.ordered.append_right
  have hrest := hl.rest_available ha
  have hraddress : (b.remainder (start - sizeofHeapHeader - b.address)).address =
      start - sizeofHeapHeader := by
    simp only [Block.remainder]
    omega
  have hrfinish : (b.remainder (start - sizeofHeapHeader - b.address)).finish = b.finish := by
    unfold Block.remainder Block.finish at *
    simp only
    omega
  have hrlarger : sizeofHeapHeader < (b.remainder (start - sizeofHeapHeader - b.address)).size := by
    unfold Block.finish at hend
    simp only [Block.remainder]
    omega
  have hinside : ∀ c ∈ b.remainder (start - sizeofHeapHeader - b.address) :: rest,
      c.address < finish := by
    intro c hc
    rcases List.mem_cons.mp hc with rfl | hc
    · omega
    · exact (ha.overlaps c (by simp [hc])).1
  have hc : Clears start finish (pre ++ [b.cut (start - sizeofHeapHeader - b.address)])
      [(b.remainder (start - sizeofHeapHeader - b.address)).lockedTo finish]
      (leftover finish (b.remainder (start - sizeofHeapHeader - b.address) :: rest) ++ post) := by
    refine ⟨fun p hp => ?_, ?_, leftover_address hinside ha.back, .inl (by simp)⟩
    · cases List.mem_append.mp hp with
      | inl hp => exact (ha.front p hp).trans (Nat.sub_le ..)
      | inr hp =>
          rw [List.mem_singleton.mp hp]
          unfold Block.cut Block.finish
          simp only
          omega
    · exact fun c hc => List.mem_singleton.mp hc ▸ lockedTo_kind _ finish
  have hlocks := ha.locks_split hl.threads (by omega) (by omega) (by omega) hfinish hb
    fun c hc => (hrest c hc).1
  rw [List.append_cons] at hlocks
  have hcross : ∀ p ∈ pre ++ [b.cut (start - sizeofHeapHeader - b.address)],
      ∀ c ∈ [(b.remainder (start - sizeofHeapHeader - b.address)).lockedTo finish],
        p.finish ≤ c.address := by
    intro p hp c hc
    rw [List.mem_singleton.mp hc, lockedTo_address, hraddress]
    cases List.mem_append.mp hp with
    | inl hp => exact ha.front p hp
    | inr hp =>
        rw [List.mem_singleton.mp hp]
        unfold Block.cut Block.finish
        simp only
        omega
  have hsorted := hc.sorted hregion.le (ha.sorted_front rfl) hcross
    (lockedTo_sorted (ho.of_head hrfinish hrlarger) hinside ha.back)
  have hfront : sizeofHeapHeader ≤ (b.cut (start - sizeofHeapHeader - b.address)).size := by
    simp only [Block.cut]
    omega
  refine hc.locks hl.wellFormed.ordered hlocks (by omega) (by omega) hsorted
    (ha.spaced hsorted (ha.larger_front hfront) fun c hc => ?_) ?_
  · rw [List.mem_singleton.mp hc]
    exact lockedTo_larger hrlarger (by omega)
  · intro c hc hclear
    rcases ha.clear hc hclear with hc | hc <;> simp [hc]

/-- The block that reaches into the margin is in use. -/
theorem locks_behind (hl : Lockable h (pre ++ (b :: rest ++ post)) start finish)
    (ha : Around (start - sizeofHeapHeader) finish pre (b :: rest) post)
    (hstart : sizeofHeapHeader ≤ start) (hb : b.kind ≠ .available)
    (hclean : LocksCleanly (pre ++ (b :: rest ++ post)) start finish) :
    Locks h (pre ++ (b :: rest ++ post)) start finish := by
  have hregion := hl.region
  have ho := ha.ordered.append_right
  have hrest := hl.rest_available ha
  have hover := ha.overlaps b (by simp)
  have hend : b.finish ≤ start := by
    refine Nat.le_of_not_lt fun hend => hb (hl.available b (by simp) ?_)
    exact ⟨hover.1, hend⟩
  have hinside : ∀ c ∈ rest, c.address < finish := fun c hc => (hrest c hc).2.1
  have hfront : ∀ p ∈ pre ++ [b], p.finish ≤ start := by
    intro p hp
    cases List.mem_append.mp hp with
    | inl hp => exact (ha.front p hp).trans (Nat.sub_le ..)
    | inr hp => exact List.mem_singleton.mp hp ▸ hend
  have hguarded : (∀ p ∈ (pre ++ [b]).getLast?, p.kind = .immovable) ∨
      ∀ c ∈ (leftover finish rest ++ post).head?, c.kind = .immovable := by
    rcases List.eq_nil_or_concat' rest with rfl | ⟨covered, last, rfl⟩
    · have hchain := hl.wellFormed.adjoining
      rw [List.singleton_append, List.append_cons] at hchain
      refine guarded_of_gap hchain fun p hp c hc => ?_
      exact (hfront p hp).trans_lt (hregion.trans_le (ha.back c hc))
    · cases hkind : b.kind with
      | available => exact absurd hkind hb
      | immovable => exact .inl (by simpa using hkind)
      | movable =>
          have hover := hover.2
          obtain ⟨hnone, hhead⟩ := hclean.unmoved pre b (covered ++ [last]) post rfl hkind
            (by omega) hend (by simp) (fun c hc => (hrest c hc).2) ha.back
          rw [leftover_eq_nil.mpr hnone]
          exact .inr hhead
  have hc : Clears start finish (pre ++ [b]) [] (leftover finish rest ++ post) :=
    ⟨hfront, by simp, leftover_address hinside ha.back, .inr hguarded⟩
  have hlocks := ha.locks_behind hl.threads hb fun c hc => (hrest c hc).1
  rw [List.append_cons] at hlocks
  have hsorted := hc.sorted hregion.le (ha.sorted_front rfl) (by simp)
    (leftover_sorted ho.tail hinside)
  refine hc.locks hl.wellFormed.ordered hlocks hstart (hregion.trans hl.bounded) hsorted
    (ha.spaced hsorted (ha.larger_front (ho.larger b (by simp)).le) (by simp)) ?_
  intro c hc hclear
  rcases ha.clear hc hclear with hc | hc <;> simp [hc]

/-- No block takes the end of the block that ends in the header margin. -/
theorem locks_cut (hl : Lockable h (pre ++ (b :: post)) start finish)
    (ha : Around (start - sizeofHeapHeader) finish pre [b] post) (hb : b.kind = .available)
    (hmargin : b.address + sizeofHeapHeader < start) (hend : b.finish ≤ start) :
    Locks h (pre ++ (b :: post)) start finish := by
  have hregion := hl.region
  have ho := ha.ordered.append_right
  have hpost : ∀ c ∈ post.head?, c.kind = .immovable := by
    have hchain : (([b] : List Block) ++ post).IsChain Adjoining :=
      (List.isChain_append.mp hl.wellFormed.adjoining).2.1
    refine (guarded_of_gap hchain fun p hp c hc => ?_).resolve_left fun hkind => ?_
    · rw [List.mem_singleton.mp hp]
      exact hend.trans_lt (hregion.trans_le (ha.back c hc))
    · have hkind := hkind b rfl
      rw [hb] at hkind
      cases hkind
  have hfront : ∀ p ∈ pre ++ [b.cut (start - sizeofHeapHeader - b.address)], p.finish ≤ start := by
    intro p hp
    cases List.mem_append.mp hp with
    | inl hp => exact (ha.front p hp).trans (Nat.sub_le ..)
    | inr hp =>
        rw [List.mem_singleton.mp hp]
        unfold Block.cut Block.finish
        simp only
        omega
  have hc : Clears start finish (pre ++ [b.cut (start - sizeofHeapHeader - b.address)]) [] post :=
    ⟨hfront, by simp, ha.back, .inr (.inr hpost)⟩
  have hlocks := ha.locks_cut hl.threads hb (by omega) (by omega) fun c hc => by
    rw [hpost c hc]
    exact nofun
  rw [List.append_cons pre (b.cut _)] at hlocks
  refine hc.locks hl.wellFormed.ordered hlocks (by omega) (hregion.trans hl.bounded) ?_ ?_ ?_
  · exact hc.sorted hregion.le (ha.sorted_front rfl) (by simp) ho.tail.sorted
  · refine hl.wellFormed.ordered.spaced.of_addresses ?_
    simp [Block.cut]
  · intro c hc hclear
    rcases ha.clear hc hclear with hc | hc <;> simp [hc]

/-- The next block takes the end of the block that ends in the header margin. -/
theorem locks_moved {c : Block} (hl : Lockable h (pre ++ (b :: c :: rest ++ post)) start finish)
    (ha : Around (start - sizeofHeapHeader) finish pre (b :: c :: rest) post)
    (hb : b.kind = .available) (hmargin : b.address + sizeofHeapHeader < start)
    (hend : b.finish ≤ start) (hclean : LocksCleanly (pre ++ (b :: c :: rest ++ post)) start finish) :
    Locks h (pre ++ (b :: c :: rest ++ post)) start finish := by
  have hregion := hl.region
  have hfinish := hl.bounded
  have ho := ha.ordered.append_right
  have hrest := hl.rest_available ha
  have hc := (hrest c (by simp)).1
  have hover := (ha.overlaps b (by simp)).2
  have hbc := ho.head_before (c := c) (by simp)
  have hclarger := ho.tail.larger c (by simp)
  have hadjacent : b.finish = c.address := by
    have hchain := (List.isChain_append.mp hl.wellFormed.adjoining).2.1
    rcases (List.isChain_cons_cons.mp hchain).1 with hkind | hkind | hadjacent
    · rw [hb] at hkind
      cases hkind
    · rw [hc] at hkind
      cases hkind
    · exact hadjacent
  obtain ⟨hroom, hback⟩ := hclean.behind pre b c (rest ++ post) rfl hb hc hmargin (by omega) hend
  have hgaddress := grown_address c (show b.address ≤ start - sizeofHeapHeader by omega)
  have hgfinish := grown_finish (show b.address ≤ start - sizeofHeapHeader by omega) hover hadjacent
  have hglarger := grown_larger b (start - sizeofHeapHeader - b.address) hclarger
  have hinside : ∀ d ∈ c.grown b (start - sizeofHeapHeader - b.address) :: rest,
      d.address < finish := by
    intro d hd
    rcases List.mem_cons.mp hd with rfl | hd
    · omega
    · exact (ha.overlaps d (by simp [hd])).1
  have hcut : (b.cut (start - sizeofHeapHeader - b.address)).finish = start - sizeofHeapHeader := by
    unfold Block.cut Block.finish
    simp only
    omega
  have hclears : Clears start finish (pre ++ [b.cut (start - sizeofHeapHeader - b.address)])
      [(c.grown b (start - sizeofHeapHeader - b.address)).lockedTo finish]
      (leftover finish (c.grown b (start - sizeofHeapHeader - b.address) :: rest) ++ post) := by
    refine ⟨fun p hp => ?_, ?_, leftover_address hinside ha.back, .inl (by simp)⟩
    · cases List.mem_append.mp hp with
      | inl hp => exact (ha.front p hp).trans (Nat.sub_le ..)
      | inr hp =>
          rw [List.mem_singleton.mp hp, hcut]
          exact Nat.sub_le ..
    · exact fun d hd => List.mem_singleton.mp hd ▸ lockedTo_kind _ finish
  have hlocks := ha.locks_moved hl.threads hb (fun d hd => (hrest d hd).1) (by omega) (by omega)
    hadjacent (by omega) hfinish hback
  rw [List.append_cons pre (b.cut _)] at hlocks
  have hcross : ∀ p ∈ pre ++ [b.cut (start - sizeofHeapHeader - b.address)],
      ∀ d ∈ [(c.grown b (start - sizeofHeapHeader - b.address)).lockedTo finish],
        p.finish ≤ d.address := by
    intro p hp d hd
    rw [List.mem_singleton.mp hd, lockedTo_address, hgaddress]
    cases List.mem_append.mp hp with
    | inl hp => exact ha.front p hp
    | inr hp =>
        rw [List.mem_singleton.mp hp]
        exact hcut.le
  have hsorted := hclears.sorted hregion.le (ha.sorted_front rfl) hcross
    (lockedTo_sorted (ho.tail.of_head hgfinish hglarger) hinside ha.back)
  have hfront : sizeofHeapHeader ≤ (b.cut (start - sizeofHeapHeader - b.address)).size := by
    simp only [Block.cut]
    omega
  refine hclears.locks hl.wellFormed.ordered hlocks (by omega) (by omega) hsorted
    (ha.spaced hsorted (ha.larger_front hfront) fun d hd => ?_) ?_
  · rw [List.mem_singleton.mp hd]
    exact lockedTo_larger hglarger (by omega)
  · intro d hd hclear
    rcases ha.clear hd hclear with hd | hd <;> simp [hd]

/-- Under the conditions every region is locked. -/
theorem locks (hl : Lockable h l start finish) (hclean : LocksCleanly l start finish) :
    Locks h l start finish := by
  have hregion := hl.region
  by_cases hstart : sizeofHeapHeader ≤ start
  · obtain ⟨pre, mid, post, rfl, ha⟩ := hl.wellFormed.ordered.around (start - sizeofHeapHeader) finish
    cases mid with
    | nil => exact hl.locks_apart ha hstart
    | cons b rest =>
        by_cases hb : b.kind = .available
        · by_cases hmargin : start - sizeofHeapHeader < b.address
          · exact hl.locks_inside ha hstart hb hmargin
          · by_cases hend : start < b.finish
            · by_cases hroom : b.address + sizeofHeapHeader + sizeofHeapHeader < start
              · exact hl.locks_split ha hb hend hroom
              · exact hl.locks_first ha hstart hb (by omega) hend (by omega)
            · have hlarger := ha.ordered.larger b (by simp)
              have hbefore : b.address + sizeofHeapHeader < start := by
                unfold Block.finish at hend
                omega
              cases rest with
              | nil => exact hl.locks_cut ha hb hbefore (by omega)
              | cons c rest => exact hl.locks_moved ha hb hbefore (by omega) hclean
        · exact hl.locks_behind ha hstart hb hclean
  · exact hl.wellFormed.locks_low (by omega) (hclean.margin.resolve_left hstart)

end Lockable

end Cenix.Heap
