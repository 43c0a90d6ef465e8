import Cenix.Heap.Unlinking

namespace Cenix.Heap

/-! What is left of the list after a region has been locked. -/

/-- The loop gets from one header to another. -/
def Advances (margin finish : Nat) (h : Heap) (header : Option Nat) (h' : Heap)
    (header' : Option Nat) : Prop :=
  ∃ n, ∀ fuel, lockHeaders margin finish (fuel + n) h header =
    lockHeaders margin finish fuel h' header'

theorem Advances.refl (margin finish : Nat) (h : Heap) (header : Option Nat) :
    Advances margin finish h header h header :=
  ⟨0, fun _ => rfl⟩

theorem Advances.trans (first : Advances margin finish h header h' header')
    (second : Advances margin finish h' header' h'' header'') :
    Advances margin finish h header h'' header'' := by
  obtain ⟨n, hn⟩ := first
  obtain ⟨m, hm⟩ := second
  refine ⟨m + n, fun fuel => ?_⟩
  rw [← Nat.add_assoc, hn, hm]

theorem Advances.round {h h' : Heap} {contents : HeapHeader}
    (hround : h.lockRound margin finish header = some (h', next))
    (hcontents : h'.headers next = some contents) :
    Advances margin finish h (some header) h' contents.next := by
  refine ⟨1, fun fuel => ?_⟩
  simp only [lockHeaders, hround, Option.bind_eq_bind, Option.bind_some, hcontents]

/-- More fuel does not change what a call returns. -/
theorem lockHeaders_mono (hrun : lockHeaders margin finish fuel h header = some h') (n : Nat) :
    lockHeaders margin finish (fuel + n) h header = some h' := by
  induction fuel generalizing h header with
  | zero =>
      cases header with
      | none =>
          rw [← hrun]
          cases n <;> rfl
      | some header => cases hrun
  | succ fuel ih =>
      cases header with
      | none =>
          rw [← hrun, Nat.succ_add]
          rfl
      | some header =>
          rw [Nat.succ_add]
          simp only [lockHeaders, Option.bind_eq_bind, Option.bind_eq_some_iff] at hrun ⊢
          obtain ⟨r, hround, contents, hcontents, hrun⟩ := hrun
          exact ⟨r, hround, contents, hcontents, ih hrun⟩

/-- A call that returns goes the way the loop goes. -/
theorem Advances.returns (ha : Advances margin finish h header h' header')
    (hrun : lockHeaders margin finish fuel h header = some h'') :
    ∃ fuel', lockHeaders margin finish fuel' h' header' = some h'' := by
  obtain ⟨n, hn⟩ := ha
  have hmore := lockHeaders_mono hrun n
  rw [hn fuel] at hmore
  exact ⟨fuel, hmore⟩

theorem lockHeaders_end (margin finish fuel : Nat) (h : Heap) :
    lockHeaders margin finish fuel h none = some h := by
  cases fuel <;> rfl

/-- The block has bytes in the region. -/
def Block.Overlaps (b : Block) (start finish : Nat) : Prop :=
  b.address < finish ∧ start < b.finish

instance (b : Block) (start finish : Nat) : Decidable (b.Overlaps start finish) :=
  inferInstanceAs (Decidable (_ ∧ _))

/-! One round. -/

theorem lockRound_skip {h : Heap} {b : Block} {contents : HeapHeader}
    (hb : h.headers b.address = some contents) (hsize : contents.size = b.size)
    (hkind : contents.kind = b.kind) (hbound : b.finish < 2 ^ 32)
    (hskip : ¬b.Overlaps margin finish ∨ b.kind ≠ .available) :
    h.lockRound margin finish b.address = some (h, b.address) := by
  unfold Block.Overlaps at hskip
  unfold Block.finish at hskip hbound
  unfold lockRound
  simp only [hb, Option.bind_eq_bind, Option.bind_some, hsize, hkind, wrap_of_lt hbound]
  split
  · rfl
  · cases hskip with
    | inl houtside => omega
    | inr hkind => rw [if_pos hkind]

theorem lockRound_back {h : Heap} {b : Block} {contents : HeapHeader}
    (hb : h.headers b.address = some contents) (hsize : contents.size = b.size)
    (hkind : contents.kind = .available) (hbound : b.finish < 2 ^ 32) (hoverlaps : b.Overlaps margin finish)
    (hmargin : margin ≤ b.address) :
    h.lockRound margin finish b.address = h.lockBack margin finish b.address b.finish := by
  unfold Block.Overlaps at hoverlaps
  unfold Block.finish at *
  have hinside : ¬(b.address + b.size ≤ margin ∨ finish ≤ b.address) := by omega
  have hbehind : ¬b.address < margin := by omega
  unfold lockRound
  simp only [hb, Option.bind_eq_bind, Option.bind_some, hsize, hkind, wrap_of_lt hbound,
    if_neg hinside, ne_eq, not_true_eq_false, if_false, if_neg hbehind]

theorem lockRound_front {h : Heap} {b : Block} {contents : HeapHeader}
    (hb : h.headers b.address = some contents) (hsize : contents.size = b.size)
    (hkind : contents.kind = .available) (hbound : b.finish < 2 ^ 32) (hoverlaps : b.Overlaps margin finish)
    (hmargin : b.address < margin) :
    h.lockRound margin finish b.address =
      (h.lockFront margin b.address).bind fun r =>
        if r.2 then some (r.1, b.address) else
          r.1.lockBack margin finish b.address b.finish := by
  unfold Block.Overlaps at hoverlaps
  unfold Block.finish at *
  have hinside : ¬(b.address + b.size ≤ margin ∨ finish ≤ b.address) := by omega
  unfold lockRound
  simp only [hb, Option.bind_eq_bind, Option.bind_some, hsize, hkind, wrap_of_lt hbound,
    if_neg hinside, ne_eq, not_true_eq_false, if_false, if_pos hmargin]

/-- Headers outside the region, and those that are not available, are passed by. -/
theorem Advances.skip (hl : Linked h before (l ++ m) none) (hbound : ∀ b ∈ l, b.finish < 2 ^ 32)
    (hskip : ∀ b ∈ l, ¬b.Overlaps margin finish ∨ b.kind ≠ .available) :
    Advances margin finish h (firstAddress (l ++ m) none) h (firstAddress m none) := by
  induction l generalizing before with
  | nil => exact .refl ..
  | cons b l ih =>
      have hround := lockRound_skip hl.1 rfl rfl (hbound b (by simp)) (hskip b (by simp))
      refine (Advances.round hround hl.1).trans ?_
      exact ih hl.2 (fun c hc => hbound c (by simp [hc])) fun c hc => hskip c (by simp [hc])

/-! The blocks that begin in the region. -/

/-- The end of the last of the blocks, where there is room for it. -/
def leftover (finish : Nat) : List Block → List Block
  | [] => []
  | [b] =>
      if b.address + sizeofHeapHeader < finish ∧ finish + sizeofHeapHeader < b.finish then
        [b.remainder (finish - b.address)]
      else
        []
  | _ :: b :: l => leftover finish (b :: l)

/-- Where the loop may write: into the headers of the list and into the blocks of `rest`. -/
structure Admits (W : Nat → Prop) (l rest : List Block) : Prop where
  headers : ∀ b ∈ l, ∀ x, b.HeaderAt x → W x
  inside : ∀ b ∈ rest, ∀ x, b.address ≤ x → x < b.finish → W x

/-- A block in the region leaves the list, except for what lies behind the region. -/
theorem lockRound_drops (ht : Threads h (l ++ b :: m)) (hs : Spaced (l ++ b :: m))
    (hm : ∀ c ∈ m, b.finish ≤ c.address) (hlarger : sizeofHeapHeader < b.size)
    (hbound : b.finish < 2 ^ 32) (hkind : b.kind = .available) (hmargin : margin < b.address)
    (hfinish : b.address < finish) (hfront : ∀ p ∈ l.getLast?, p.kind ≠ .available)
    (hW : Admits W (l ++ b :: m) [b]) :
    ∃ h' contents, h.lockRound margin finish b.address = some (h', b.address) ∧
      Threads h' (l ++ (leftover finish [b] ++ m)) ∧ KeepsBytes W h h' ∧
      h'.headers b.address = some contents ∧
      contents.next = firstAddress (leftover finish [b] ++ m) none := by
  have hcontents := ht.last_contents
  have hoverlaps : b.Overlaps margin finish := by
    unfold Block.Overlaps Block.finish
    omega
  have happend : ∀ c : Block, l ++ c :: m = (l ++ [c]) ++ m := by simp
  have hd : Dangling h (l ++ [b]) (some b.address) m := by
    have hd := threads_append.mp (happend b ▸ ht)
    rw [lastAddress_append] at hd
    exact hd
  rw [lockRound_back hcontents rfl hkind hbound hoverlaps hmargin.le]
  by_cases hsplit : b.address + sizeofHeapHeader < finish ∧ finish + sizeofHeapHeader < b.finish
  · have hleft : leftover finish [b] = [b.remainder (finish - b.address)] := if_pos hsplit
    obtain ⟨hpos, hend⟩ := hsplit
    have hwrites : ∀ b' : Block, b'.address = b.address →
        ∀ c ∈ l ++ b' :: b.remainder (finish - b.address) :: m, ∀ x, c.HeaderAt x → W x := by
      intro b' haddress c hc x hx
      simp only [List.mem_append, List.mem_cons] at hc
      rcases hc with hc | rfl | rfl | hc
      · exact hW.headers c (by simp [hc]) x hx
      · unfold Block.HeaderAt at hx
        rw [haddress] at hx
        exact hW.headers b (by simp) x hx
      · have hx : b.address + (finish - b.address) ≤ x ∧
            x < b.address + (finish - b.address) + sizeofHeapHeader := hx
        exact hW.inside b (by simp) x (by omega) (by omega)
      · exact hW.headers c (by simp [hc]) x hx
    have hsize : b.size < 2 ^ 32 := by
      unfold Block.finish at hbound
      omega
    have hroom : finish - b.address + sizeofHeapHeader < b.size := by
      unfold Block.finish at hend
      omega
    obtain ⟨h₁, hsplit, ht₁, hbytes₁⟩ := splitHeader_threads hd hs hm hsize
      (by omega) hroom (hwrites b rfl)
    have hs₁ : Spaced (l ++ b.cut (finish - b.address) :: b.remainder (finish - b.address) :: m) := by
      refine hs.insert (by omega) (fun c hc => ?_) rfl rfl
      have := hm c hc
      unfold Block.finish at this
      omega
    obtain ⟨h₂, hlock, ht₂, hbytes₂, hself₂⟩ := lockHeader_drops ht₁ hs₁
      (show margin < (b.cut (finish - b.address)).address from hmargin)
      (show b.address + sizeofHeapHeader < 2 ^ 32 by unfold Block.finish at hbound; omega) (hwrites _ rfl)
    refine ⟨h₂, _, ?_, ?_, hbytes₁.trans hbytes₂, hself₂.trans ht₁.last_contents, ?_⟩
    · rw [lockBack_split hd hpos (by omega) hbound hsplit]
      exact congrArg (Option.map fun h => (h, b.address)) hlock
    · rw [hleft]
      exact ht₂
    · rw [hleft]
      rfl
  · have hleft : leftover finish [b] = [] := if_neg hsplit
    obtain ⟨h', hlock, ht', hbytes, hself⟩ := lockHeader_drops ht hs hmargin
      (by unfold Block.finish at hbound; omega) hW.headers
    refine ⟨h', _, ?_, ?_, hbytes, hself.trans hcontents, ?_⟩
    · rw [lockBack_unsplit hd hlarger hfinish hbound (fun p hp => .inl (hfront p hp)) (by omega),
        hlock]
      rfl
    · rw [hleft]
      exact ht'
    · rw [hleft]
      rfl

theorem leftover_finish (hb : b ∈ leftover finish l) (hl : ∀ c ∈ l, c.address < finish) :
    b.kind = .available ∧ b.address = finish ∧ ∃ c ∈ l, b.finish = c.finish := by
  induction l with
  | nil => cases hb
  | cons c l ih =>
      cases l with
      | nil =>
          have hc := hl c (by simp)
          unfold leftover at hb
          split at hb
          · rename_i hroom
            rw [List.mem_singleton.mp hb]
            refine ⟨rfl, ?_, c, by simp, ?_⟩
            · simp only [Block.remainder]
              omega
            · unfold Block.remainder Block.finish
              unfold Block.finish at hroom
              simp only
              omega
          · cases hb
      | cons d l =>
          obtain ⟨hkind, haddress, e, he, hfinish⟩ := ih hb fun e he => hl e (by simp [he])
          exact ⟨hkind, haddress, e, List.mem_cons_of_mem c he, hfinish⟩

/-- Behind the region nothing is left to do. -/
theorem Advances.behind (hl : Linked h before l none) (hbound : ∀ b ∈ l, b.finish < 2 ^ 32)
    (hfinish : ∀ b ∈ l, finish ≤ b.address) :
    Advances margin finish h (firstAddress l none) h none := by
  have hnil : l ++ [] = l := List.append_nil l
  rw [← hnil] at hl ⊢
  refine Advances.skip hl hbound fun b hb => .inl fun hoverlaps => ?_
  have := hfinish b hb
  unfold Block.Overlaps at hoverlaps
  omega

/-- All blocks that begin in the region leave the list. -/
theorem Threads.drops (ht : Threads h (l ++ (rest ++ m))) (hs : Spaced (l ++ (rest ++ m)))
    (ho : Ordered (rest ++ m)) (hfront : ∀ p ∈ l.getLast?, p.kind ≠ .available)
    (hrest : ∀ b ∈ rest, b.kind = .available ∧ margin < b.address ∧ b.address < finish)
    (hm : ∀ b ∈ m, finish ≤ b.address) (hW : Admits W (l ++ (rest ++ m)) rest) :
    ∃ h', Advances margin finish h (firstAddress (rest ++ m) none) h' none ∧
      Threads h' (l ++ (leftover finish rest ++ m)) ∧ KeepsBytes W h h' := by
  induction rest generalizing h with
  | nil =>
      refine ⟨h, ?_, ht, .refl W h⟩
      exact .behind (linked_append.mp ht.linked).2 ho.bounded hm
  | cons b rest ih =>
      obtain ⟨hkind, hmargin, hfinish⟩ := hrest b (by simp)
      have hbound := ho.bounded b (by simp)
      have hdrops := lockRound_drops ht hs (fun c hc => ho.head_before hc)
        (ho.larger b (by simp)) hbound hkind hmargin hfinish hfront
        ⟨hW.headers, fun c hc => hW.inside c (by simp [List.mem_singleton.mp hc])⟩
      obtain ⟨h₁, contents, hround, ht₁, hbytes₁, hcontents, hnext⟩ := hdrops
      have hadvances := Advances.round hround hcontents
      rw [hnext] at hadvances
      cases rest with
      | nil =>
          refine ⟨h₁, hadvances.trans ?_, ht₁, hbytes₁⟩
          have hleftover : ∀ c ∈ leftover finish [b], c.address = finish ∧ c.finish = b.finish := by
            intro c hc
            obtain ⟨-, haddress, d, hd, heq⟩ := leftover_finish hc fun d hd =>
              List.mem_singleton.mp hd ▸ hfinish
            exact ⟨haddress, heq.trans (congrArg Block.finish (List.mem_singleton.mp hd))⟩
          refine .behind (linked_append.mp ht₁.linked).2 ?_ ?_
          · intro c hc
            cases List.mem_append.mp hc with
            | inl hc => exact (hleftover c hc).2 ▸ hbound
            | inr hc => exact ho.bounded c (List.mem_cons_of_mem b hc)
          · intro c hc
            cases List.mem_append.mp hc with
            | inl hc => exact (hleftover c hc).1.ge
            | inr hc => exact hm c hc
      | cons c rest =>
          have hc := (hrest c (by simp)).2.2
          have hbc := ho.head_before (c := c) (by simp)
          have hnone : leftover finish [b] = [] := if_neg (by omega)
          rw [hnone] at ht₁ hadvances
          have hsublist : (l ++ (c :: rest ++ m)).Sublist (l ++ (b :: c :: rest ++ m)) := by simp
          obtain ⟨h₂, hadvances₂, ht₂, hbytes₂⟩ := ih ht₁ (hs.sublist hsublist) ho.tail
            (fun d hd => hrest d (by simp [hd])) ⟨fun d hd => hW.headers d (hsublist.subset hd),
              fun d hd => hW.inside d (by simp [hd])⟩
          exact ⟨h₂, hadvances.trans hadvances₂, ht₂, hbytes₁.trans hbytes₂⟩

/-! The block that the margin begins in. -/

/-- What becomes of it. -/
def Block.lockedTo (b : Block) (finish : Nat) : Block :=
  if finish + sizeofHeapHeader < b.finish then (b.cut (finish - b.address)).locked else b.locked

theorem lockedTo_address (b : Block) (finish : Nat) : (b.lockedTo finish).address = b.address := by
  unfold Block.lockedTo
  split <;> rfl

/-- It is locked as a whole, and a `prev` that is wrong stays wrong. -/
theorem lockBack_whole (hd : Dangling h (l ++ [b]) stale m) (hs : Spaced (l ++ b :: m))
    (hlarger : sizeofHeapHeader < b.size) (hbound : b.finish < 2 ^ 32)
    (haddress : b.address ≤ margin) (hregion : margin + sizeofHeapHeader < finish)
    (hfinish : finish < 2 ^ 32) (hend : b.finish ≤ finish + sizeofHeapHeader)
    (hW : ∀ x, b.HeaderAt x → W x) :
    ∃ h', h.lockBack margin finish b.address b.finish = some (h', b.address) ∧
      Dangling h' (l ++ [b.locked]) stale m ∧ KeepsBytes W h h' ∧
      (∀ x, Apart x b.address → h'.headers x = h.headers x) ∧
      ∀ x, x ≠ b.address → h.headers x = none → h'.headers x = none := by
  obtain ⟨h', hlock, hd', hkept⟩ := lockHeader_locks hd hs haddress (by omega) hW
  refine ⟨h', ?_, hd', hkept⟩
  rw [lockBack_unsplit hd hlarger (by omega) hbound (fun p _ => .inr (by omega)) (.inr hend), hlock]
  rfl

/-- The end that lies behind the region is split off, and the header behind it points back
to the new header. -/
theorem lockBack_parts (hd : Dangling h (l ++ [b]) stale m) (hs : Spaced (l ++ b :: m))
    (hm : ∀ c ∈ m, b.finish ≤ c.address) (hbound : b.finish < 2 ^ 32)
    (haddress : b.address ≤ margin) (hregion : margin + sizeofHeapHeader < finish)
    (hend : finish + sizeofHeapHeader < b.finish)
    (hW : Admits W (l ++ b :: m) [b]) :
    ∃ h', h.lockBack margin finish b.address b.finish = some (h', b.address) ∧
      Threads h' (l ++ (b.cut (finish - b.address)).locked ::
        b.remainder (finish - b.address) :: m) ∧ KeepsBytes W h h' := by
  have hwrites : ∀ c ∈ l ++ b :: b.remainder (finish - b.address) :: m, ∀ x,
      c.HeaderAt x → W x := by
    intro c hc x hx
    simp only [List.mem_append, List.mem_cons] at hc
    rcases hc with hc | rfl | rfl | hc
    · exact hW.headers c (by simp [hc]) x hx
    · exact hW.headers c (by simp) x hx
    · have hx : b.address + (finish - b.address) ≤ x ∧
          x < b.address + (finish - b.address) + sizeofHeapHeader := hx
      exact hW.inside b (by simp) x (by omega) (by omega)
    · exact hW.headers c (by simp [hc]) x hx
  have hsize : b.size < 2 ^ 32 ∧ finish - b.address + sizeofHeapHeader < b.size := by
    unfold Block.finish at hend hbound
    omega
  have hbehind : ∀ c ∈ m, b.address + (finish - b.address) + sizeofHeapHeader ≤ c.address := by
    intro c hc
    have := hm c hc
    omega
  obtain ⟨h₁, hsplit, ht₁, hbytes₁⟩ := splitHeader_threads hd hs hm hsize.1 (by omega) hsize.2
    hwrites
  have happend : ∀ c d : Block, l ++ c :: d :: m = (l ++ [c]) ++ d :: m := by simp
  rw [happend, threads_append] at ht₁
  have hs₁ : Spaced (l ++ b.cut (finish - b.address) :: b.remainder (finish - b.address) :: m) :=
    hs.insert (by omega) hbehind rfl rfl
  obtain ⟨h₂, hlock, hd₂, hbytes₂, -⟩ := lockHeader_locks ht₁ hs₁ haddress
    (by omega) fun x hx => hW.headers b (by simp) x hx
  refine ⟨h₂, ?_, ?_, hbytes₁.trans hbytes₂⟩
  · rw [lockBack_split hd (by omega) (by omega) hbound hsplit]
    exact congrArg (Option.map fun h => (h, b.address)) hlock
  · rw [happend, threads_append]
    rw [lastAddress_append] at hd₂ ⊢
    exact hd₂

/-- The loop from the block that the margin begins in. -/
theorem Dangling.locks (hd : Dangling h (l ++ [b]) stale (rest ++ m))
    (hs : Spaced (l ++ b :: (rest ++ m))) (ho : Ordered (b :: (rest ++ m)))
    (hround : h.lockRound margin finish b.address = h.lockBack margin finish b.address b.finish)
    (haddress : b.address ≤ margin) (hregion : margin + sizeofHeapHeader < finish)
    (hfinish : finish < 2 ^ 32)
    (hstale : stale = some b.address ∨ rest ++ m = [] ∨ finish + sizeofHeapHeader < b.finish)
    (hmargin : margin < b.finish) (hrest : ∀ c ∈ rest, c.kind = .available ∧ c.address < finish)
    (hm : ∀ c ∈ m, finish ≤ c.address) (hW : Admits W (l ++ b :: (rest ++ m)) (b :: rest)) :
    ∃ h', Advances margin finish h (some b.address) h' none ∧
      Threads h' (l ++ b.lockedTo finish :: (leftover finish (b :: rest) ++ m)) ∧
      KeepsBytes W h h' := by
  have hbehind : ∀ c ∈ rest ++ m, b.finish ≤ c.address := fun c hc => ho.head_before hc
  have hbound := ho.bounded b (by simp)
  have hlarger := ho.larger b (by simp)
  have hadmits : Admits W (l ++ b :: (rest ++ m)) [b] :=
    ⟨hW.headers, fun c hc => hW.inside c (by simp [List.mem_singleton.mp hc])⟩
  by_cases hend : finish + sizeofHeapHeader < b.finish
  · have hnone : rest = [] := by
      cases rest with
      | nil => rfl
      | cons c rest =>
          have hc := (hrest c (by simp)).2
          have hbc := hbehind c (by simp)
          omega
    subst hnone
    obtain ⟨h', hback, ht', hbytes⟩ :=
      lockBack_parts hd hs hbehind hbound haddress hregion hend hadmits
    have hleft : leftover finish [b] = [b.remainder (finish - b.address)] :=
      if_pos ⟨by omega, hend⟩
    have hlocked : b.lockedTo finish = (b.cut (finish - b.address)).locked := if_pos hend
    refine ⟨h', ?_, ?_, hbytes⟩
    · refine (Advances.round (hround.trans hback) ht'.last_contents).trans ?_
      refine .behind (linked_append.mp ht'.linked).2.2 ?_ ?_
      · intro c hc
        rcases List.mem_cons.mp hc with rfl | hc
        · unfold Block.remainder Block.finish at *
          simp only
          omega
        · exact ho.bounded c (List.mem_cons_of_mem b hc)
      · intro c hc
        rcases List.mem_cons.mp hc with rfl | hc
        · simp only [Block.remainder]
          omega
        · exact hm c hc
    · rw [hlocked, hleft]
      exact ht'
  · obtain ⟨h₁, hback, hd₁, hbytes₁, -⟩ := lockBack_whole hd hs hlarger hbound haddress hregion hfinish
      (by omega) fun x hx => hW.headers b (by simp) x hx
    have hlocked : b.lockedTo finish = b.locked := if_neg hend
    have hleft : leftover finish (b :: rest) = leftover finish rest := by
      cases rest with
      | nil => exact if_neg fun hroom => hend hroom.2
      | cons c rest => rfl
    have ht₁ : Threads h₁ ((l ++ [b.locked]) ++ (rest ++ m)) := by
      rw [threads_append, lastAddress_append]
      cases hstale with
      | inl hstale =>
          rw [hstale] at hd₁
          exact hd₁
      | inr hstale =>
          have hnone := hstale.resolve_right hend
          rw [hnone] at hd₁ ⊢
          exact ⟨hd₁.base, hd₁.front, trivial⟩
    have happend : ∀ m, l ++ b.locked :: m = (l ++ [b.locked]) ++ m := by simp
    have hs₁ : Spaced ((l ++ [b.locked]) ++ (rest ++ m)) := by
      refine hs.of_addresses ?_
      simp [Block.locked]
    have hadmits₁ : Admits W ((l ++ [b.locked]) ++ (rest ++ m)) rest := by
      refine ⟨fun c hc x hx => ?_, fun c hc => hW.inside c (by simp [hc])⟩
      simp only [List.append_assoc, List.cons_append, List.nil_append, List.mem_append,
        List.mem_cons] at hc
      rcases hc with hc | rfl | hc
      · exact hW.headers c (by simp [hc]) x hx
      · exact hW.headers b (by simp) x hx
      · exact hW.headers c (by simp [hc]) x hx
    have hinside : ∀ c ∈ rest, c.kind = .available ∧ margin < c.address ∧ c.address < finish := by
      intro c hc
      have hbc := hbehind c (by simp [hc])
      exact ⟨(hrest c hc).1, by omega, (hrest c hc).2⟩
    obtain ⟨h₂, hadvances, ht₂, hbytes₂⟩ := Threads.drops ht₁ hs₁ ho.tail
      (by simp [Block.locked]) hinside hm hadmits₁
    refine ⟨h₂, (Advances.round (hround.trans hback) hd₁.contents).trans hadvances, ?_,
      hbytes₁.trans hbytes₂⟩
    rw [hlocked, hleft, happend]
    exact ht₂

end Cenix.Heap
