import Cenix.Heap.StrayLinks

namespace Cenix.Heap

/-! The regions that `heap_lock_existing_region` does not lock. -/

/-- The list that the loop leaves is the one that is claimed. -/
theorem Locks.region_of (hlocks : Locks h l start finish)
    (hto : LocksTo h l (subSize start sizeofHeapHeader) finish l') :
    ∃ h', LocksRegion h l start finish h' l' := by
  obtain ⟨fuel, h₁, l₁, hrun, hregion⟩ := hlocks
  obtain ⟨h', hadvances, ht', -⟩ := hto
  obtain ⟨fuel', hrun'⟩ := hadvances.returns hrun
  rw [lockHeaders_end] at hrun'
  cases hrun'
  exact ⟨_, ht'.unique hregion.threads ▸ hregion⟩

/-! A header that points back to where no header can be read. -/

theorem lockHeader_lost {h : Heap} {contents : HeapHeader}
    (hheader : h.headers header = some contents) (hprev : contents.prev = some p)
    (hp : h.headers p = none) (hstart : start < header)
    (hbound : header + sizeofHeapHeader < 2 ^ 32) : h.lockHeader start header = none := by
  have hlt : ¬wrap (header + sizeofHeapHeader) ≤ wrap (start + sizeofHeapHeader) := by
    rw [wrap_of_lt hbound, wrap_of_lt (by omega)]
    omega
  have hread : (h.use contents.size).headers header = some contents := hheader
  have hnone : (h.use contents.size).headers p = none := hp
  unfold lockHeader
  rw [hheader, Option.bind_eq_bind, Option.bind_some, if_neg hlt]
  simp only [unlink, hread, Option.bind_eq_bind, Option.bind_some, hprev, relinkNext,
    modifyHeader, hnone, Option.map_none, Option.bind_none]

/-- A split writes to the new header, to the one behind it, and to its own. -/
theorem splitHeader_kept (hl : Linked h before (b :: m) none) (hs : Spaced (b :: m))
    (hm : ∀ c ∈ m, b.finish ≤ c.address) (hsize : b.size < 2 ^ 32)
    (hpos : sizeofHeapHeader < pos) (hroom : pos + sizeofHeapHeader < b.size) :
    ∃ h' contents, h.splitHeader b.address pos = some (h', true) ∧
      h'.headers b.address = some contents ∧ contents.prev = before ∧
      ∀ x, x + sizeofHeapHeader ≤ b.address → h'.headers x = h.headers x := by
  have hbehind : ∀ c ∈ m, b.address + pos + sizeofHeapHeader ≤ c.address := by
    intro c hc
    have := hm c hc
    unfold Block.finish at this
    omega
  have hlt : pos < subSize b.size sizeofHeapHeader := by
    rw [subSize_of_le (by omega) hsize]
    omega
  have hback : ∀ c ∈ m, Apart c.address (b.address + pos) := fun c hc => .inr (hbehind c hc)
  have hm₁ := hl.2.writeApart
    ((b.remainder pos).contents (firstAddress m none) (some b.address)) hback
  obtain ⟨h₂, hset, -, -, -, hother⟩ := relinkPrev_spec (W := fun _ => True) hm₁ hs.tail
    (some (b.address + pos)) fun _ _ _ _ => trivial
  have hkept : ∀ x, x + sizeofHeapHeader ≤ b.address ∨ x = b.address →
      h₂.headers x = h.headers x := by
    intro x hx
    rw [hother x fun c hc => .inl (by have := hbehind c hc; omega)]
    exact writeHeader_apart (.inl (by omega))
  refine ⟨h₂.writeHeader b.address ((b.cut pos).contents (some (b.address + pos)) before), _, ?_,
    writeHeader_headers_self, rfl, fun x hx => ?_⟩
  · rw [splitHeader_of_lt hl.1 hlt hpos, setPrev_eq]
    refine (congrArg (fun h => Option.bind h _) hset).trans ?_
    rw [Option.bind_some, modifyHeader_eq ((hkept _ (.inr rfl)).trans hl.1)]
    rfl
  · rw [writeHeader_apart (.inl hx)]
    exact hkept x (.inl hx)

theorem lockBack_lost (hl : Linked h (some p) (b :: m) none) (ho : Ordered (b :: m))
    (hp : h.headers p = none) (hpb : p + sizeofHeapHeader ≤ b.address) (hstart : start < b.address)
    (hfinish : b.address < finish) : h.lockBack start finish b.address b.finish = none := by
  have hlarger := ho.larger b (by simp)
  have hbound := ho.bounded b (by simp)
  have hheader : b.address + sizeofHeapHeader < 2 ^ 32 := by
    unfold Block.finish at hbound
    omega
  have hlost := lockHeader_lost hl.1 rfl hp hstart hheader
  unfold lockBack
  split
  · rename_i hend
    have hpos : subSize finish b.address = finish - b.address :=
      subSize_of_le hfinish.le (by omega)
    rw [hl.1, Option.bind_eq_bind, Option.bind_some, hpos]
    by_cases hsmall : finish - b.address ≤ sizeofHeapHeader
    · simp only [Block.contents, if_pos hsmall, hp, Option.bind_eq_bind, Option.bind_none]
    · simp only [if_neg hsmall]
      by_cases hroom : finish + sizeofHeapHeader < b.finish
      · have hsize : b.size < 2 ^ 32 ∧ finish - b.address + sizeofHeapHeader < b.size := by
          unfold Block.finish at hroom hbound
          omega
        obtain ⟨h', contents, hsplit, hcontents, hprev, hkept⟩ := splitHeader_kept hl ho.spaced
          (fun c hc => ho.head_before hc) hsize.1 (by omega) hsize.2
        have hlost' := lockHeader_lost hcontents hprev ((hkept p hpb).trans hp) hstart hheader
        simp only [hsplit, hlost', Option.bind_eq_bind, Option.bind_some, Option.bind_none]
      · have hkept : h.splitHeader b.address (finish - b.address) = some (h, false) := by
          unfold Block.finish at hroom hbound
          refine splitHeader_of_le hl.1 (.inl ?_)
          simp only [Block.contents]
          rw [subSize_of_le (by omega) (by omega)]
          omega
        simp only [hkept, hlost, Option.bind_eq_bind, Option.bind_some, Option.bind_none]
  · rw [hlost]
    rfl

/-- No header that the loop gets to points back to the header at the margin. -/
theorem Linked.stray (hl : Linked h (some ghost) m none) (hm : ∀ e ∈ m, margin < e.address)
    (hghost : margin < ghost)
    (hnext : ∀ contents, h.headers ghost = some contents →
      ∀ n ∈ contents.next, ∃ e ∈ m, n = e.address) :
    Stray margin ghost (fun x => ∃ e ∈ m, x = e.address) h h := by
  refine ⟨rfl, fun _ _ => rfl, .inl rfl, ?_, ?_, ?_⟩
  · rintro x (⟨e, he, rfl⟩ | rfl)
    · exact hm e he
    · exact hghost
  · rintro x contents ⟨e, he, rfl⟩ hread
    obtain ⟨m₁, m₂, rfl⟩ := List.append_of_mem he
    cases hread.symm.trans hl.contents
    rcases List.eq_nil_or_concat' m₁ with rfl | ⟨m₁, d, rfl⟩
    · exact ⟨ghost, rfl, .inr rfl⟩
    · refine ⟨d.address, ?_, .inl ⟨d, by simp, rfl⟩⟩
      simp only [Block.contents, lastAddress_append]
      rfl
  · rintro x contents (⟨e, he, rfl⟩ | rfl) hread n hn
    · obtain ⟨m₁, m₂, rfl⟩ := List.append_of_mem he
      cases hread.symm.trans hl.contents
      cases m₂ with
      | nil => cases hn
      | cons d m₂ => exact ⟨d, by simp, (Option.some.inj hn).symm⟩
    · exact hnext contents hread n hn

namespace Lockable

variable {front back covered rest post : List Block} {b c d : Block}

/-- Below the header margin the start of the region wraps to the end of memory. -/
theorem margin_of_locks (hl : Lockable h l start finish) (hlocks : Locks h l start finish) :
    sizeofHeapHeader ≤ start ∨ ∀ b ∈ l, ¬b.Overlaps start finish := by
  rcases Nat.lt_or_ge start sizeofHeapHeader with hlow | hstart
  · refine .inr fun x hx hover => ?_
    have hkind := hl.available x hx hover
    have hmargin : subSize start sizeofHeapHeader + sizeofHeapHeader = start + 2 ^ 32 := by
      unfold sizeofHeapHeader at *
      unfold subSize
      omega
    obtain ⟨pre, mid, post, rfl, ha⟩ :=
      hl.wellFormed.ordered.around (subSize start sizeofHeapHeader) finish
    cases mid with
    | nil =>
        obtain ⟨h', hregion⟩ := hlocks.region_of (ha.locks_none hl.threads)
        exact hregion.available x hx hkind hover
    | cons b rest =>
        have ho := ha.ordered.append_right
        have hb := (ha.overlaps b (by simp)).2
        have hlarger := ho.larger b (by simp)
        have hbound := ho.bounded b (by simp)
        have hlast : rest ++ post = [] := by
          refine List.eq_nil_iff_forall_not_mem.mpr fun c hc => ?_
          have hbc := ho.head_before hc
          have hclarger := ho.tail.larger c hc
          have hcbound := ho.tail.bounded c hc
          unfold Block.finish at *
          omega
        obtain ⟨rfl, rfl⟩ := List.append_eq_nil_iff.mp hlast
        by_cases hbkind : b.kind = .available
        · have hbmargin : b.address < subSize start sizeofHeapHeader := by
            unfold Block.finish at hbound
            omega
          obtain ⟨h', hregion⟩ := hlocks.region_of
            (ha.locks_cut hl.threads hbkind hbmargin (by omega) (by simp))
          rcases List.mem_append.mp hx with hx | hx
          · exact hregion.available x (by simp [hx]) hkind hover
          · rw [List.append_nil, List.mem_singleton] at hx
            subst hx
            refine hregion.available (x.cut (subSize start sizeofHeapHeader - x.address)) (by simp) hbkind ⟨hover.1, ?_⟩
            have hsize : sizeofHeapHeader = 26 := rfl
            unfold Block.cut Block.finish
            simp only
            omega
        · obtain ⟨h', hregion⟩ := hlocks.region_of
            (ha.locks_behind hl.threads hbkind (by simp))
          exact hregion.available x hx hkind hover
  · exact .inl hstart

/-- The list around a region whose header margin a block ends in. -/
theorem around (hl : Lockable h (front ++ b :: (covered ++ back)) start finish)
    (hstart : start < b.finish + sizeofHeapHeader) (hend : b.finish ≤ start)
    (hcovered : ∀ c ∈ covered, c.Overlaps start finish) (hback : ∀ c ∈ back, finish ≤ c.address) :
    Around (start - sizeofHeapHeader) finish front (b :: covered) back := by
  have ho := hl.wellFormed.ordered
  have hregion := hl.region
  have hlarger := ho.larger b (by simp)
  have hroom : sizeofHeapHeader < b.finish := hlarger.trans_le (Nat.le_add_left ..)
  refine ⟨ho, fun p hp => ?_, fun c hc => ?_, hback⟩
  · have hpb := ho.before (c := b) hp (by simp)
    unfold Block.finish at *
    omega
  · rcases List.mem_cons.mp hc with rfl | hc
    · refine ⟨?_, by omega⟩
      unfold Block.finish at hend
      omega
    · have hover := hcovered c hc
      exact ⟨hover.1, (Nat.sub_le ..).trans_lt hover.2⟩

/-- A movable block in front of the region is next to what is behind it. -/
theorem unmoved_of_locks (hl : Lockable h (front ++ b :: (covered ++ back)) start finish)
    (hlocks : Locks h (front ++ b :: (covered ++ back)) start finish) (hb : b.kind = .movable)
    (hstart : start < b.finish + sizeofHeapHeader) (hend : b.finish ≤ start)
    (hcovered : ∀ c ∈ covered, c.Overlaps start finish) (hback : ∀ c ∈ back, finish ≤ c.address) :
    (∀ c ∈ covered.getLast?,
      finish ≤ c.address + sizeofHeapHeader ∨ c.finish ≤ finish + sizeofHeapHeader) ∧
      ∀ c ∈ back.head?, c.kind = .immovable := by
  have hregion := hl.region
  have hlarger := hl.wellFormed.ordered.larger b (by simp)
  have ha := hl.around hstart hend hcovered hback
  have hmargin : subSize start sizeofHeapHeader = start - sizeofHeapHeader := by
    refine subSize_of_le ?_ (hregion.trans hl.bounded)
    unfold Block.finish at hend
    omega
  have hto := ha.locks_behind hl.threads (by rw [hb]; exact nofun)
    fun c hc => hl.available c (by simp [hc]) (hcovered c hc)
  rw [← hmargin] at hto
  obtain ⟨h', hregion'⟩ := hlocks.region_of hto
  have hinside : ∀ c ∈ covered, c.address < finish := fun c hc => (hcovered c hc).1
  have hbehind := leftover_address hinside hback
  have hhead : ∀ c ∈ (leftover finish covered ++ back).head?, c.kind = .immovable := by
    intro c hc
    by_contra hkind
    obtain ⟨m, hm⟩ := List.head?_eq_some_iff.mp hc
    have hcfinish := hbehind c (by simp [hm])
    have hclarger : c.address ≤ c.finish := Nat.le_add_right ..
    refine hregion'.runs front [b, c] m (by rw [hm]; rfl) ?_ b rfl c rfl ⟨?_, ?_⟩
    · simp [hb, hkind]
    · unfold Block.finish at hend
      omega
    · omega
  have hnone : leftover finish covered = [] := by
    cases hleft : leftover finish covered with
    | nil => rfl
    | cons r m =>
        rw [hleft] at hhead
        have hkind := hhead r rfl
        have hr := (leftover_finish (b := r) (by rw [hleft]; simp) hinside).1
        rw [hkind] at hr
        cases hr
  rw [hnone] at hhead
  exact ⟨leftover_eq_nil.mp hnone, hhead⟩

/-- The state in which the header that has been moved is locked, and the header behind it
still points back to where it was. -/
theorem exists_stale (hl : Lockable h (front ++ (b :: c :: rest ++ post)) start finish)
    (ha : Around (start - sizeofHeapHeader) finish front (b :: c :: rest) post)
    (hb : b.kind = .available) (hc : c.kind = .available)
    (hroom : b.address + sizeofHeapHeader + sizeofHeapHeader ≤ start) (hend : b.finish ≤ start)
    (hadjacent : b.finish = c.address) (hunsplit : c.finish ≤ finish + sizeofHeapHeader) :
    ∃ h' : Heap, ∃ l g, Advances (start - sizeofHeapHeader) finish h h.heapBase h'
        (firstAddress (rest ++ post) none) ∧
      Dangling h' (l ++ [g]) (some c.address) (rest ++ post) ∧
      (∀ p ∈ l, p.address + sizeofHeapHeader ≤ start - sizeofHeapHeader) ∧
      g.address = start - sizeofHeapHeader ∧
      (c.address < start → h'.headers c.address = none) ∧
      (start ≤ c.address → h'.headers c.address = h.headers c.address) := by
  have hregion := hl.region
  have hfinish := hl.bounded
  have ho := ha.ordered.append_right
  have hover := (ha.overlaps b (by simp)).2
  have hcover := (ha.overlaps c (by simp)).2
  have hcbound := ho.tail.bounded c (by simp)
  have hgaddress := grown_address c (show b.address ≤ start - sizeofHeapHeader by omega)
  have hgfinish := grown_finish (show b.address ≤ start - sizeofHeapHeader by omega) hover hadjacent
  have hglarger := grown_larger b (start - sizeofHeapHeader - b.address)
    (ho.tail.larger c (by simp))
  obtain ⟨h₁, hskips, hd₁, -, hlost, hkept⟩ :=
    ha.passesOn hl.threads hb hc (by omega) (by omega) hadjacent
  have hgover : (c.grown b (start - sizeofHeapHeader - b.address)).Overlaps
      (start - sizeofHeapHeader) finish := ⟨by omega, hgfinish ▸ hcover⟩
  have hround := lockRound_back hd₁.contents rfl hc (hgfinish ▸ hcbound) hgover hgaddress.ge
  obtain ⟨h₂, hback, hd₂, -, hapart, hnone⟩ := lockBack_whole (W := fun _ => True) hd₁
    (ha.spaced_moved (by omega) hadjacent) hglarger (hgfinish ▸ hcbound) hgaddress.le (by omega)
    hfinish (hgfinish ▸ hunsplit) fun _ _ => trivial
  refine ⟨h₂, front ++ [b.cut (start - sizeofHeapHeader - b.address)], _,
    hskips.trans (Advances.round (hround.trans hback) hd₂.contents), hd₂, ?_, hgaddress, ?_, ?_⟩
  · intro p hp
    cases List.mem_append.mp hp with
    | inl hp =>
        have hpb := List.pairwise_append.mp ha.ordered.spaced
        have hpb := hpb.2.2 p hp b (by simp)
        omega
    | inr hp =>
        rw [List.mem_singleton.mp hp]
        change b.address + sizeofHeapHeader ≤ _
        omega
  · exact fun hlt => hnone c.address (by omega) (hlost (by omega))
  · exact fun hle => (hapart c.address (.inr (by omega))).trans (hkept (by omega))

/-- The loop does not get the list right again. -/
theorem not_locks (hl : Lockable h (front ++ (b :: c :: rest ++ post)) start finish)
    (ha : Around (start - sizeofHeapHeader) finish front (b :: c :: rest) post)
    (hb : b.kind = .available) (hc : c.kind = .available)
    (hroom : b.address + sizeofHeapHeader + sizeofHeapHeader ≤ start) (hend : b.finish ≤ start)
    (hadjacent : b.finish = c.address) (hunsplit : c.finish ≤ finish + sizeofHeapHeader)
    (hbehind : rest ++ post ≠ []) : ¬Locks h (front ++ (b :: c :: rest ++ post)) start finish := by
  rintro ⟨fuel, h', l', hrun, hlocked⟩
  have hregion := hl.region
  have hfinish := hl.bounded
  have ho := ha.ordered.append_right
  have hover := (ha.overlaps b (by simp)).2
  have hclarger := ho.tail.larger c (by simp)
  obtain ⟨h₂, l, g, hadvances, hd₂, hlfront, hg, hlost, hkept⟩ :=
    hl.exists_stale ha hb hc hroom hend hadjacent hunsplit
  unfold heapLockExistingRegion at hrun
  rw [subSize_of_le (by omega) (by omega)] at hrun
  obtain ⟨fuel', hrun'⟩ := hadvances.returns hrun
  have hbc : start - sizeofHeapHeader < c.address := by omega
  have hbeyond : ∀ e ∈ rest ++ post, start - sizeofHeapHeader < e.address := by
    intro e he
    have hce := ho.tail.head_before he
    unfold Block.finish at hce
    omega
  have hstray : Stray (start - sizeofHeapHeader) c.address
      (fun x => ∃ e ∈ rest ++ post, x = e.address) h₂ h₂ := by
    refine hd₂.back.stray hbeyond hbc fun contents hread n hn => ?_
    rcases Nat.lt_or_ge c.address start with hlt | hle
    · rw [hlost hlt] at hread
      cases hread
    · have hcontents := (linked_append.mp hl.threads.linked).2.2.1
      cases (hread.symm.trans (hkept hle)).trans hcontents
      obtain ⟨d, m, hdm⟩ := List.exists_cons_of_ne_nil hbehind
      have hn : firstAddress (rest ++ post) none = some n := hn
      rw [hdm] at hn
      exact ⟨d, by simp [hdm], (Option.some.inj hn).symm⟩
  obtain ⟨d, m, hdm⟩ := List.exists_cons_of_ne_nil hbehind
  have hd : d ∈ rest ++ post := by simp [hdm]
  have hkeptStray : ∃ A', (∀ x, (∃ e ∈ rest ++ post, x = e.address) → A' x) ∧
      Stray (start - sizeofHeapHeader) c.address A' h₂ h' := by
    cases rest with
    | nil =>
        obtain ⟨fuel₂, hrun₂⟩ := Advances.returns
          (Advances.behind hd₂.back (fun e he => ho.tail.tail.bounded e he) ha.back) hrun'
        rw [lockHeaders_end] at hrun₂
        cases hrun₂
        exact ⟨_, fun _ hx => hx, hstray⟩
    | cons e rest =>
        have hce := ho.tail.head_before (c := e) (by simp)
        have hecover := (ha.overlaps e (by simp)).1
        have hkind := (hl.rest_available ha e (by simp)).1
        rcases Nat.lt_or_ge c.address start with hlt | hle
        · have hebound := ho.tail.tail.bounded e (by simp)
          have hround := lockRound_back hd₂.back.1 rfl hkind hebound (ha.overlaps e (by simp))
            (hbeyond e (by simp)).le
          have hnone := lockBack_lost hd₂.back ho.tail.tail (hlost hlt)
            (by unfold Block.finish at hce; omega) (hbeyond e (by simp)) hecover
          cases fuel' with
          | zero => cases hrun'
          | succ fuel' =>
              simp only [List.cons_append, firstAddress, lockHeaders, hround.trans hnone,
                Option.bind_eq_bind, Option.bind_none] at hrun'
              cases hrun'
        · refine hstray.lockHeaders ?_ hfinish ?_ hrun'
          · intro x hx
            exact ⟨e, by simp, (Option.some.inj hx).symm⟩
          · unfold Block.finish at hce
            omega
  obtain ⟨A', hsub, hs⟩ := hkeptStray
  rw [hdm] at hd₂
  exact hs.not_threads hd₂ hlfront hg (hsub _ ⟨d, hd, rfl⟩) hlocked.threads

theorem behind_of_locks (hl : Lockable h (front ++ b :: c :: back) start finish)
    (hlocks : Locks h (front ++ b :: c :: back) start finish) (hb : b.kind = .available)
    (hc : c.kind = .available) (hbefore : b.address + sizeofHeapHeader < start)
    (hstart : start < b.finish + sizeofHeapHeader) (hend : b.finish ≤ start) :
    b.address + sizeofHeapHeader + sizeofHeapHeader ≤ start ∧
      (back = [] ∨ finish + sizeofHeapHeader < c.finish) := by
  have hregion := hl.region
  have hfinish := hl.bounded
  have ho := hl.wellFormed.ordered.append_right
  have hclarger := ho.tail.larger c (by simp)
  have hadjacent : b.finish = c.address := by
    have hchain := (List.isChain_append.mp hl.wellFormed.adjoining).2.1
    rcases (List.isChain_cons_cons.mp hchain).1 with hkind | hkind | hadjacent
    · rw [hb] at hkind
      cases hkind
    · rw [hc] at hkind
      cases hkind
    · exact hadjacent
  have hcover : c.Overlaps start finish := by
    unfold Block.Overlaps
    refine ⟨by omega, ?_⟩
    unfold Block.finish at *
    omega
  obtain ⟨rest, post, rfl, hrest, hpost⟩ := ho.tail.tail.exists_back finish
  have hcovered : ∀ d ∈ c :: rest, d.Overlaps start finish := by
    intro d hd
    rcases List.mem_cons.mp hd with rfl | hd
    · exact hcover
    · have hcd := ho.tail.head_before (c := d) (by simp [hd])
      exact ⟨hrest d hd, hcover.2.trans_le (hcd.trans (Nat.le_add_right ..))⟩
  have ha : Around (start - sizeofHeapHeader) finish front (b :: c :: rest) post :=
    hl.around hstart hend hcovered hpost
  have hroom : b.address + sizeofHeapHeader + sizeofHeapHeader ≤ start := by
    by_contra hshort
    obtain ⟨fuel, h', l', hrun, -⟩ := hlocks
    have hbsize : start - sizeofHeapHeader - b.address < b.size := by
      unfold Block.finish at hstart
      omega
    have hround := lockRound_passesOn (b := b) hl.threads.last_contents rfl hb
      (ho.larger b (by simp)) (ho.bounded b (by simp)) (ha.overlaps b (by simp)) (by omega) (by omega)
    rw [passOn_destroyed hl.threads hl.wellFormed.ordered.spaced hc (by omega) (by omega)
      hbsize hadjacent (ho.tail.bounded c (by simp))] at hround
    unfold heapLockExistingRegion at hrun
    rw [subSize_of_le (by omega) (by omega)] at hrun
    obtain ⟨fuel', hrun'⟩ := (ha.skips hl.threads).returns hrun
    cases fuel' with
    | zero => cases hrun'
    | succ fuel' =>
        simp only [List.cons_append, firstAddress, lockHeaders, hround, Option.map_none,
          Option.bind_eq_bind, Option.bind_none] at hrun'
        cases hrun'
  refine ⟨hroom, ?_⟩
  by_contra hbehind
  obtain ⟨hne, hunsplit⟩ := not_or.mp hbehind
  exact hl.not_locks ha hb hc hroom hend hadjacent (by omega) hne hlocks

end Lockable

/-- A region that is locked meets the conditions. -/
theorem Locks.cleanly (hl : Lockable h l start finish) (hlocks : Locks h l start finish) :
    LocksCleanly l start finish := by
  refine ⟨hl.margin_of_locks hlocks, ?_, ?_⟩
  · rintro front b c back rfl hb hc hbefore hstart hend
    exact hl.behind_of_locks hlocks hb hc hbefore hstart hend
  · rintro front b covered back rfl hb hstart hend - hcovered hback
    exact hl.unmoved_of_locks hlocks hb hstart hend hcovered hback

/-- Where no block ends in the header margin of the region, the conditions hold. -/
theorem locksCleanly_of_clear (hmargin : sizeofHeapHeader ≤ start)
    (hclear : ∀ b ∈ l, ¬(start < b.finish + sizeofHeapHeader ∧ b.finish ≤ start)) :
    LocksCleanly l start finish := by
  refine ⟨.inl hmargin, ?_, ?_⟩
  · rintro front b c back rfl - - - hstart hend
    exact absurd ⟨hstart, hend⟩ (hclear b (by simp))
  · rintro front b covered back rfl - hstart hend
    exact absurd ⟨hstart, hend⟩ (hclear b (by simp))

/-- `heap_lock_existing_region` locks a region of available blocks exactly under the three
conditions. -/
theorem heapLockExistingRegion_iff (hw : WellFormed h l) (hregion : start < finish)
    (hbound : finish < 2 ^ 32)
    (havailable : ∀ b ∈ l, b.Overlaps start finish → b.kind = .available) :
    (∃ fuel h' l', heapLockExistingRegion fuel h start finish = some h' ∧
      LocksRegion h l start finish h' l') ↔ LocksCleanly l start finish := by
  have hl : Lockable h l start finish := ⟨hw, hregion, hbound, havailable⟩
  constructor
  · exact Locks.cleanly hl
  · exact hl.locks

/-- An allocated block in front of free memory. -/
def halfFree : List Block :=
  [.plain 100 100 .movable, .plain 200 300 .available]

theorem wellFormed_halfFree : WellFormed (withBlocks halfFree 400 100) halfFree := by
  refine wellFormed_withBlocks ⟨?_, ?_, ?_⟩ (by decide) ?_ 400 100
  all_goals decide

theorem heapLockExistingRegion_iff_halfFree : ∃ fuel h' l',
    heapLockExistingRegion fuel (withBlocks halfFree 400 100) 300 400 = some h' ∧
      LocksRegion (withBlocks halfFree 400 100) halfFree 300 400 h' l' :=
  (heapLockExistingRegion_iff wellFormed_halfFree (by decide) (by decide) (by decide)).mpr
    (locksCleanly_of_clear (by decide) (by decide))

/-- Three available blocks in a row. -/
def threeFree : List Block :=
  [.plain 100 100 .available, .plain 200 100 .available, .plain 300 100 .available]

theorem wellFormed_threeFree : WellFormed (withBlocks threeFree 300 0) threeFree := by
  refine wellFormed_withBlocks ⟨?_, ?_, ?_⟩ (by decide) ?_ 300 0
  all_goals decide

/-- The first block ends in the header margin. The header of the second one is moved, and the
third one still points back to where it was. -/
theorem heapLockExistingRegion_stale : WellFormed (withBlocks threeFree 300 0) threeFree ∧
    (∀ b ∈ threeFree, b.Overlaps 210 290 → b.kind = .available) ∧
      ¬∃ fuel h' l', heapLockExistingRegion fuel (withBlocks threeFree 300 0) 210 290 = some h' ∧
        LocksRegion (withBlocks threeFree 300 0) threeFree 210 290 h' l' := by
  have havailable : ∀ b ∈ threeFree, b.Overlaps 210 290 → b.kind = .available := by decide
  refine ⟨wellFormed_threeFree, havailable, fun hlocks => ?_⟩
  have hclean := Locks.cleanly ⟨wellFormed_threeFree, by decide, by decide, havailable⟩ hlocks
  have hbehind := (hclean.behind [] (.plain 100 100 .available) (.plain 200 100 .available)
    [.plain 300 100 .available] rfl rfl rfl (by decide) (by decide) (by decide)).2
  revert hbehind
  decide

end Cenix.Heap
