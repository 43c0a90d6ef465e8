import Cenix.Heap.Locking

namespace Cenix.Heap

/-! What one header's part of `heap_lock_existing_region` does to the list. -/

theorem threads_append : Threads h (l ++ m) ↔ Dangling h l (lastAddress none l) m := by
  constructor
  · intro ht
    obtain ⟨hfront, hback⟩ := linked_append.mp ht.linked
    exact ⟨ht.base, hfront, hback⟩
  · intro hd
    exact ⟨hd.base, linked_append.mpr ⟨hd.front, hd.back⟩⟩

theorem Threads.last_contents (ht : Threads h (l ++ b :: m)) :
    h.headers b.address = some (b.contents (firstAddress m none) (lastAddress none l)) :=
  ht.linked.contents

theorem Dangling.contents (hd : Dangling h (l ++ [b]) stale m) :
    h.headers b.address = some (b.contents (firstAddress m none) (lastAddress none l)) := by
  have hfront := (linked_append.mp hd.front).2
  exact hfront.1

/-- The header of the last block in front is written. -/
theorem Dangling.write (hd : Dangling h (l ++ [b]) stale m) (b' : Block)
    (hs : Spaced (l ++ b :: m)) (haddress : b'.address = b.address) :
    Dangling (h.writeHeader b.address (b'.contents (firstAddress m none) (lastAddress none l)))
      (l ++ [b']) stale m := by
  obtain ⟨hl, -, -⟩ := linked_append.mp hd.front
  constructor
  · have hbase := hd.base
    rw [firstAddress_append, firstAddress_append] at hbase ⊢
    exact hbase.trans (congrArg (firstAddress l) (congrArg some haddress.symm))
  · rw [linked_append]
    refine ⟨?_, ?_, trivial⟩
    · rw [show firstAddress [b'] (firstAddress m none) = firstAddress [b] (firstAddress m none) from
        congrArg some haddress]
      exact hl.writeApart _ fun c hc => hs.before hc (by simp)
    · rw [haddress]
      exact writeHeader_headers_self
  · exact hd.back.writeApart _ fun c hc => hs.append_right.behind (l := [b]) (by simp) hc

/-- What is in front of a list learns what comes first in it. -/
theorem relinkNext_spec (hl : Linked h none l (some old)) (hs : Spaced l)
    (next : Option Nat) (hW : ∀ b ∈ l, ∀ x, b.HeaderAt x → W x) :
    ∃ h', h.relinkNext (lastAddress none l) next = some h' ∧ Linked h' none l next ∧
      (h.heapBase = firstAddress l (some old) → h'.heapBase = firstAddress l next) ∧
      KeepsBytes W h h' ∧ ∀ x, (∀ b ∈ l, Apart x b.address) → h'.headers x = h.headers x := by
  rcases List.eq_nil_or_concat' l with rfl | ⟨l, p, rfl⟩
  · exact ⟨_, rfl, trivial, fun _ => rfl, fun _ _ => rfl, fun _ _ => rfl⟩
  · obtain ⟨hl, hp, -⟩ := linked_append.mp hl
    have hlast : lastAddress none (l ++ [p]) = some p.address := by
      rw [lastAddress_append]
      rfl
    rw [hlast]
    refine ⟨_, modifyHeader_eq hp, ?_, fun hbase => ?_, ?_, ?_⟩
    · rw [linked_append]
      refine ⟨?_, writeHeader_headers_self, trivial⟩
      exact hl.writeApart _ fun c hc => hs.before hc (by simp)
    · rw [firstAddress_append] at hbase ⊢
      exact hbase
    · exact writeHeader_keepsBytes _ fun x hpx hxp => hW p (by simp) x ⟨hpx, hxp⟩
    · exact fun x hx => writeHeader_apart (hx p (by simp))

/-- A header leaves the list, and can still be read. -/
theorem unlink_spec (ht : Threads h (l ++ b :: m)) (hs : Spaced (l ++ b :: m))
    (hW : ∀ c ∈ l ++ b :: m, ∀ x, c.HeaderAt x → W x) :
    ∃ h', h.unlink b.address = some h' ∧ Threads h' (l ++ m) ∧ KeepsBytes W h h' ∧
      h'.headers b.address = h.headers b.address := by
  have hcontents := ht.last_contents
  obtain ⟨hl, -, hm⟩ := linked_append.mp ht.linked
  have hbm : ∀ c ∈ m, Apart b.address c.address :=
    fun c hc => hs.append_right.before (l := [b]) (by simp) hc
  obtain ⟨h₁, hfirst, hl₁, hbase₁, hbytes₁, hother₁⟩ := relinkNext_spec (W := W) hl
    hs.append_left (firstAddress m none) fun c hc => hW c (by simp [hc])
  have hself₁ : h₁.headers b.address = h.headers b.address :=
    hother₁ _ fun c hc => hs.behind hc (by simp)
  have hm₁ : Linked h₁ (some b.address) m none :=
    hm.frame fun c hc => hother₁ _ fun d hd => hs.behind hd (by simp [hc])
  obtain ⟨h₂, hsecond, hm₂, hbase₂, hbytes₂, hother₂⟩ := relinkPrev_spec (W := W) hm₁
    hs.append_right.tail (lastAddress none l) fun c hc => hW c (by simp [hc])
  refine ⟨h₂, ?_, ?_, hbytes₁.trans hbytes₂, ?_⟩
  · unfold unlink
    simp only [hcontents, Option.bind_eq_bind, Option.bind_some, Block.contents, hfirst, hself₁,
      hsecond]
  · constructor
    · rw [hbase₂, firstAddress_append]
      apply hbase₁
      rw [ht.base, firstAddress_append]
      rfl
    · rw [linked_append]
      refine ⟨hl₁.frame fun c hc => hother₂ c.address fun d hd => ?_, hm₂⟩
      exact hs.before hc (by simp [hd])
  · rw [hother₂ b.address hbm, hself₁]

theorem Spaced.insert (hs : Spaced (l ++ b :: m)) (hpos : sizeofHeapHeader ≤ pos)
    (hm : ∀ c ∈ m, b.address + pos + sizeofHeapHeader ≤ c.address)
    (hc : c.address = b.address + pos) (hb : b'.address = b.address) :
    Spaced (l ++ b' :: c :: m) := by
  obtain ⟨hl, hbm, hlb⟩ := List.pairwise_append.mp hs
  refine List.pairwise_append.mpr ⟨hl, ?_, ?_⟩
  · refine List.pairwise_cons.mpr ⟨?_, List.pairwise_cons.mpr ⟨?_, hbm.tail⟩⟩
    · intro d hd
      cases List.mem_cons.mp hd with
      | inl hd =>
          rw [hd]
          omega
      | inr hd =>
          have := hm d hd
          omega
    · intro d hd
      have := hm d hd
      omega
  · intro d hd e he
    have hdb := hlb d hd b (by simp)
    rcases List.mem_cons.mp he with rfl | he
    · omega
    · rcases List.mem_cons.mp he with rfl | he
      · omega
      · exact hlb d hd e (by simp [he])

/-- A split makes the header behind it point back to the new one, whatever it pointed to. -/
theorem splitHeader_threads (hd : Dangling h (l ++ [b]) stale m) (hs : Spaced (l ++ b :: m))
    (hm : ∀ c ∈ m, b.finish ≤ c.address) (hsize : b.size < 2 ^ 32)
    (hpos : sizeofHeapHeader < pos) (hroom : pos + sizeofHeapHeader < b.size)
    (hW : ∀ c ∈ l ++ b :: b.remainder pos :: m, ∀ x, c.HeaderAt x → W x) :
    ∃ h', h.splitHeader b.address pos = some (h', true) ∧
      Threads h' (l ++ b.cut pos :: b.remainder pos :: m) ∧ KeepsBytes W h h' := by
  have hbehind : ∀ c ∈ m, b.address + pos + sizeofHeapHeader ≤ c.address := by
    intro c hc
    have := hm c hc
    unfold Block.finish at this
    omega
  have hs' : Spaced (l ++ b.cut pos :: b.remainder pos :: m) :=
    hs.insert hpos.le hbehind rfl rfl
  have hs₂ : Spaced (l ++ [b]) := by
    have hs : Spaced ((l ++ [b]) ++ m) := by simpa using hs
    exact hs.append_left
  have hnew : ∀ c ∈ l ++ [b], Apart c.address (b.address + pos) := by
    intro c hc
    cases List.mem_append.mp hc with
    | inl hc => exact hs'.before (c := b.remainder pos) hc (by simp)
    | inr hc =>
        rw [List.mem_singleton.mp hc]
        exact .inl (by omega)
  have hlt : pos < subSize b.size sizeofHeapHeader := by
    rw [subSize_of_le (by omega) hsize]
    omega
  have hback : ∀ c ∈ m, Apart c.address (b.address + pos) := fun c hc => .inr (hbehind c hc)
  have hm₁ := hd.back.writeApart
    ((b.remainder pos).contents (firstAddress m none) (some b.address)) hback
  have hl₁ := hd.front.writeApart
    ((b.remainder pos).contents (firstAddress m none) (some b.address)) hnew
  obtain ⟨h₂, hset, hm₂, hbase₂, hbytes₂, hother₂⟩ := relinkPrev_spec (W := W) hm₁
    hs.append_right.tail (some (b.address + pos)) fun c hc => hW c (by simp [hc])
  have hremainder₂ : h₂.headers (b.address + pos) =
      some ((b.remainder pos).contents (firstAddress m none) (some b.address)) := by
    rw [hother₂ _ fun c hc => .inl (hbehind c hc)]
    exact writeHeader_headers_self
  have hl₂ := hl₁.frame fun c hc => hother₂ c.address fun d hd => by
    have hs : Spaced ((l ++ [b]) ++ m) := by simpa using hs
    exact hs.before hc hd
  obtain ⟨hl₂, hb₂, -⟩ := linked_append.mp hl₂
  refine ⟨h₂.writeHeader b.address ((b.cut pos).contents (some (b.address + pos))
    (lastAddress none l)), ?_, ?_, ?_⟩
  · rw [splitHeader_of_lt hd.contents hlt hpos, setPrev_eq]
    refine (congrArg (fun h => Option.bind h _) hset).trans ?_
    rw [Option.bind_some, modifyHeader_eq hb₂]
    rfl
  · constructor
    · refine hbase₂.trans (hd.base.trans ?_)
      rw [firstAddress_append, firstAddress_append, firstAddress_append]
      rfl
    · rw [linked_append]
      refine ⟨?_, writeHeader_headers_self, ?_, ?_⟩
      · exact hl₂.writeApart _ fun c hc => hs.before hc (by simp)
      · rw [writeHeader_apart (.inr (by simp only [Block.remainder]; omega))]
        exact hremainder₂
      · exact hm₂.writeApart _ fun c hc => hs.append_right.behind (l := [b]) (by simp) hc
  · refine (writeHeader_keepsBytes _ ?_).trans (hbytes₂.trans (writeHeader_keepsBytes _ ?_))
    · exact fun x hx hxb => hW (b.remainder pos) (by simp) x ⟨hx, hxb⟩
    · exact fun x hx hxb => hW b (by simp) x ⟨hx, hxb⟩

/-- The block behind `b` with the end of `b`, which was cut at `pos`. -/
def Block.grown (c b : Block) (pos : Nat) : Block :=
  { c with address := b.address + pos, size := c.size + (b.size - pos) }

theorem Threads.cut (ht : Threads h (l ++ b :: m)) (hs : Spaced (l ++ b :: m)) (pos : Nat) :
    Threads (h.writeHeader b.address ((b.cut pos).contents (firstAddress m none)
      (lastAddress none l))) (l ++ b.cut pos :: m) := by
  have happend : ∀ c : Block, l ++ c :: m = (l ++ [c]) ++ m := by simp
  rw [happend] at ht ⊢
  rw [threads_append] at ht ⊢
  have hwritten := ht.write (b.cut pos) hs rfl
  rw [lastAddress_append] at hwritten ⊢
  exact hwritten

/-- A block keeps its end to itself where no available block is behind it. -/
theorem passOn_kept (ht : Threads h (l ++ b :: m)) (hs : Spaced (l ++ b :: m))
    (hm : ∀ c ∈ m.head?, c.kind ≠ .available) (pos : Nat)
    (hW : ∀ x, b.HeaderAt x → W x) :
    ∃ h', h.passOn b.address pos = some h' ∧ Threads h' (l ++ b.cut pos :: m) ∧
      KeepsBytes W h h' := by
  have hcut := ht.cut hs pos
  refine ⟨_, ?_, hcut, writeHeader_keepsBytes _ fun x hx hxb => hW x ⟨hx, hxb⟩⟩
  unfold passOn
  simp only [ht.last_contents, Option.bind_eq_bind, Option.bind_some]
  cases m with
  | nil => rfl
  | cons c m =>
      have hc := hm c (by simp)
      have happend : l ++ b.cut pos :: c :: m = (l ++ [b.cut pos]) ++ c :: m := by simp
      have hread := (happend ▸ hcut).last_contents
      simp only [Block.contents, firstAddress, Block.cut] at hread ⊢
      simp only [hread, Option.bind_some, if_neg hc]

/-- The state in which the moved header has been written. -/
theorem passOn_eq (ht : Threads h (l ++ b :: c :: m)) (hs : Spaced (l ++ b :: c :: m))
    (hc : c.kind = .available) (hsize : pos < b.size) (hadjacent : b.finish = c.address)
    (hbound : c.finish < 2 ^ 32) :
    h.passOn b.address pos =
      ((h.writeHeader b.address ((b.cut pos).contents (some c.address)
        (lastAddress none l))).writeHeader (b.address + pos)
          ((c.grown b pos).contents (firstAddress m none) (some b.address))).modifyHeader
        b.address fun contents => { contents with next := some (b.address + pos) } := by
  unfold Block.finish at hadjacent hbound
  have hoffset : subSize b.size pos = b.size - pos := subSize_of_le hsize.le (by omega)
  have hmoved : wrap (b.address + pos) = b.address + pos := wrap_of_lt (by omega)
  have hgrown : wrap (c.size + (b.size - pos)) = c.size + (b.size - pos) :=
    wrap_of_lt (by omega)
  have hcut := ht.cut hs pos
  have happend : l ++ b.cut pos :: c :: m = (l ++ [b.cut pos]) ++ c :: m := by simp
  have hread := (happend ▸ hcut).last_contents
  rw [lastAddress_append] at hread
  unfold passOn
  simp only [ht.last_contents, Option.bind_eq_bind, Option.bind_some]
  simp only [Block.contents, firstAddress, Block.cut, lastAddress] at hread ⊢
  simp only [hread, Option.bind_some, if_pos hc, hmoved, hoffset, hgrown]
  rfl

/-- An available block behind takes the end of the block in, and the header behind that
one still points to where its header was. -/
theorem passOn_taken (ht : Threads h (l ++ b :: c :: m)) (hs : Spaced (l ++ b :: c :: m))
    (hc : c.kind = .available) (hpos : sizeofHeapHeader ≤ pos) (hsize : pos < b.size)
    (hadjacent : b.finish = c.address) (hbound : c.finish < 2 ^ 32)
    (hW : ∀ d ∈ [b, c.grown b pos], ∀ x, d.HeaderAt x → W x) :
    ∃ h', h.passOn b.address pos = some h' ∧
      Dangling h' (l ++ [b.cut pos, c.grown b pos]) (some c.address) m ∧
      KeepsBytes W h h' ∧
      (c.address < b.address + pos + sizeofHeapHeader → h'.headers c.address = none) ∧
      (b.address + pos + sizeofHeapHeader ≤ c.address →
        h'.headers c.address = h.headers c.address) := by
  have hcut := ht.cut hs pos
  have happend : l ++ b.cut pos :: c :: m = (l ++ [b.cut pos]) ++ c :: m := by simp
  rw [happend] at hcut
  have hread := (threads_append.mp hcut).contents
  obtain ⟨hlb, -, hm⟩ := linked_append.mp hcut.linked
  obtain ⟨hl, -, -⟩ := linked_append.mp hlb
  have hself : Apart b.address (b.address + pos) := .inl (by omega)
  have hmoved : b.address + pos < c.address := by
    unfold Block.finish at hadjacent
    omega
  have hbehind : ∀ d ∈ m, c.address + sizeofHeapHeader ≤ d.address := by
    intro d hd
    have hpair := (List.pairwise_append.mp hs).2.1.tail
    exact (List.pairwise_cons.mp hpair).1 d hd
  have hfront : ∀ d ∈ l, Apart d.address (b.address + pos) := by
    intro d hd
    have hdb := (List.pairwise_append.mp hs).2.2 d hd b (by simp)
    exact .inl (by omega)
  rw [passOn_eq ht hs hc hsize hadjacent hbound]
  have hbc : Apart c.address b.address := hs.append_right.behind (l := [b]) (by simp) (by simp)
  refine ⟨_, modifyHeader_eq ((writeHeader_apart hself).trans hread), ?_, ?_, ?_, ?_⟩
  · constructor
    · refine hcut.base.trans ?_
      simp only [List.append_assoc, firstAddress_append]
      rfl
    · rw [linked_append]
      refine ⟨?_, writeHeader_headers_self, ?_, trivial⟩
      · exact (hl.writeApart _ hfront).writeApart _ fun d hd => hs.before hd (by simp)
      · rw [writeHeader_apart (.inr (by simp only [Block.grown]; omega))]
        exact writeHeader_headers_self
    · refine (hm.writeApart _ fun d hd => ?_).writeApart _ fun d hd => ?_
      · have := hbehind d hd
        exact .inr (by omega)
      · exact hs.append_right.behind (l := [b]) (by simp) (by simp [hd])
  · refine (writeHeader_keepsBytes _ ?_).trans
      ((writeHeader_keepsBytes _ ?_).trans (writeHeader_keepsBytes _ ?_))
    · exact fun x hx hxb => hW b (by simp) x ⟨hx, hxb⟩
    · exact fun x hx hxb => hW (c.grown b pos) (by simp) x ⟨hx, hxb⟩
    · exact fun x hx hxb => hW b (by simp) x ⟨hx, hxb⟩
  · intro hcover
    rw [writeHeader_apart hbc]
    simp only [writeHeader, if_neg hmoved.ne']
    exact if_pos ⟨hcover, by omega⟩
  · intro hclear
    rw [writeHeader_apart hbc, writeHeader_apart (.inr hclear), writeHeader_apart hbc]

/-- Without room for both headers the moved one is written over the one in front. -/
theorem passOn_destroyed (ht : Threads h (l ++ b :: c :: m)) (hs : Spaced (l ++ b :: c :: m))
    (hc : c.kind = .available) (hpos : 0 < pos) (hshort : pos < sizeofHeapHeader)
    (hsize : pos < b.size) (hadjacent : b.finish = c.address) (hbound : c.finish < 2 ^ 32) :
    h.passOn b.address pos = none := by
  rw [passOn_eq ht hs hc hsize hadjacent hbound]
  unfold modifyHeader
  have hne : pos ≠ 0 := by omega
  have hover : b.address < b.address + pos + sizeofHeapHeader ∧
      b.address + pos < b.address + sizeofHeapHeader := by omega
  simp [writeHeader, hne, hover]

/-! What becomes of the header. -/

def Block.locked (b : Block) : Block :=
  { b with kind := .immovable, updateRef := b.updateRef.clear }

theorem Dangling.use (hd : Dangling h l stale m) (size : Nat) : Dangling (h.use size) l stale m :=
  ⟨hd.base, hd.front.of_headers rfl, hd.back.of_headers rfl⟩

theorem Threads.use (ht : Threads h l) (size : Nat) : Threads (h.use size) l :=
  ⟨ht.base, ht.linked.of_headers rfl⟩

theorem lockHeader_locks (hd : Dangling h (l ++ [b]) stale m) (hs : Spaced (l ++ b :: m))
    (hb : b.address ≤ start) (hbound : start + sizeofHeapHeader < 2 ^ 32)
    (hW : ∀ x, b.HeaderAt x → W x) :
    ∃ h', h.lockHeader start b.address = some h' ∧ Dangling h' (l ++ [b.locked]) stale m ∧
      KeepsBytes W h h' ∧ (∀ x, Apart x b.address → h'.headers x = h.headers x) ∧
      ∀ x, x ≠ b.address → h.headers x = none → h'.headers x = none := by
  have hused := hd.use b.size
  refine ⟨_, ?_, hused.write b.locked hs rfl,
    writeHeader_keepsBytes (h := h.use b.size) _ fun x hx hxb => hW x ⟨hx, hxb⟩, ?_, ?_⟩
  · unfold lockHeader
    have hle : wrap (b.address + sizeofHeapHeader) ≤ wrap (start + sizeofHeapHeader) := by
      rw [wrap_of_lt hbound, wrap_of_lt (by omega)]
      omega
    simp only [hd.contents, Option.bind_eq_bind, Option.bind_some, if_pos hle]
    exact modifyHeader_eq hused.contents
  · exact fun x hx => writeHeader_apart hx
  · intro x hx hnone
    simp only [writeHeader, if_neg hx]
    split
    · rfl
    · exact hnone

theorem lockHeader_drops (ht : Threads h (l ++ b :: m)) (hs : Spaced (l ++ b :: m))
    (hb : start < b.address) (hbound : b.address + sizeofHeapHeader < 2 ^ 32)
    (hW : ∀ c ∈ l ++ b :: m, ∀ x, c.HeaderAt x → W x) :
    ∃ h', h.lockHeader start b.address = some h' ∧ Threads h' (l ++ m) ∧ KeepsBytes W h h' ∧
      h'.headers b.address = h.headers b.address := by
  obtain ⟨h', hunlink, ht', hbytes, hself⟩ := unlink_spec (ht.use b.size) hs hW
  refine ⟨h', ?_, ht', hbytes, hself⟩
  unfold lockHeader
  have hlt : ¬wrap (b.address + sizeofHeapHeader) ≤ wrap (start + sizeofHeapHeader) := by
    rw [wrap_of_lt hbound, wrap_of_lt (by omega)]
    omega
  simp only [ht.last_contents, Option.bind_eq_bind, Option.bind_some, if_neg hlt]
  exact hunlink

/-- The block is not split, and no available block in front of it takes part. -/
theorem lockBack_unsplit (hd : Dangling h (l ++ [b]) stale m) (hlarger : sizeofHeapHeader < b.size)
    (hfinish : b.address < finish) (hbound : b.finish < 2 ^ 32)
    (hfront : ∀ p ∈ l.getLast?, p.kind ≠ .available ∨ b.address + sizeofHeapHeader < finish)
    (hunsplit : finish ≤ b.address + sizeofHeapHeader ∨ b.finish ≤ finish + sizeofHeapHeader) :
    h.lockBack start finish b.address b.finish =
      (h.lockHeader start b.address).map fun h => (h, b.address) := by
  have hmap : ∀ o : Option Heap, (o.bind fun h => some (h, b.address)) =
      o.map fun h => (h, b.address) := by
    intro o
    cases o <;> rfl
  unfold Block.finish at *
  unfold lockBack
  by_cases hend : finish < b.address + b.size
  · have hpos : subSize finish b.address = finish - b.address :=
      subSize_of_le (by omega) (by omega)
    have hsub : subSize b.size sizeofHeapHeader = b.size - sizeofHeapHeader :=
      subSize_of_le (by omega) (by omega)
    have hkept : h.splitHeader b.address (finish - b.address) = some (h, false) := by
      apply splitHeader_of_le hd.contents
      simp only [Block.contents, hsub]
      omega
    rw [if_pos hend]
    simp only [hd.contents, Option.bind_eq_bind, Option.bind_some, hpos]
    by_cases hsmall : finish - b.address ≤ sizeofHeapHeader
    · rw [if_pos hsmall]
      rcases List.eq_nil_or_concat' l with rfl | ⟨l, p, rfl⟩
      · simp only [Block.contents, lastAddress, hkept, Option.bind_some]
        exact hmap _
      · have hp : h.headers p.address = some (p.contents (some b.address) (lastAddress none l)) := by
          have hfront := (linked_append.mp (linked_append.mp hd.front).1).2
          exact hfront.1
        have hkind : p.kind ≠ .available := by
          cases hfront p (by simp) with
          | inl hkind => exact hkind
          | inr hlarge => omega
        have hlast : lastAddress none (l ++ [p]) = some p.address := by
          rw [lastAddress_append]
          rfl
        simp only [Block.contents, hlast, hp, Option.bind_some, if_neg hkind]
        exact hmap _
    · rw [if_neg hsmall]
      simp only [hkept, Option.bind_some]
      exact hmap _
  · rw [if_neg hend]
    exact hmap _

theorem lockBack_split (hd : Dangling h (l ++ [b]) stale m)
    (hpos : b.address + sizeofHeapHeader < finish) (hend : finish < b.finish)
    (hbound : b.finish < 2 ^ 32)
    (hsplit : h.splitHeader b.address (finish - b.address) = some (h', true)) :
    h.lockBack start finish b.address b.finish =
      (h'.lockHeader start b.address).map fun h => (h, b.address) := by
  have hsub : subSize finish b.address = finish - b.address :=
    subSize_of_le (by omega) (by omega)
  have hlarge : ¬finish - b.address ≤ sizeofHeapHeader := by omega
  unfold lockBack
  rw [if_pos hend]
  simp only [hd.contents, Option.bind_eq_bind, Option.bind_some, hsub, if_neg hlarge, hsplit]
  cases h'.lockHeader start b.address <;> rfl

end Cenix.Heap
