import Cenix.Heap.Spans

namespace Cenix.Heap

/-! What the steps of `heap_alloc` do to the list of blocks. -/

/-- Bytes that no block of `l` outside the range from `a` to `e` keeps data in. -/
def Scratch (a e : Nat) (l : List Block) (x : Nat) : Prop :=
  (a ≤ x ∧ x < e) ∨ ∃ b ∈ l, b.HeaderAt x

def Block.cut (b : Block) (pos : Nat) : Block :=
  { b with size := pos }

/-- The block that is split off `b` at `pos`. -/
def Block.remainder (b : Block) (pos : Nat) : Block :=
  { address := b.address + pos, size := b.size - pos, kind := .available,
    oldKind := .available, updateRef := .absolute none }

theorem splitHeader_of_le {h : Heap} {contents : HeapHeader}
    (hc : h.headers header = some contents)
    (hpos : subSize contents.size sizeofHeapHeader ≤ pos ∨ pos ≤ sizeofHeapHeader) :
    h.splitHeader header pos = some (h, false) := by
  unfold splitHeader
  rw [hc, Option.bind_eq_bind, Option.bind_some]
  by_cases hend : subSize contents.size sizeofHeapHeader ≤ pos
  · rw [if_pos hend]
  · rw [if_neg hend, if_pos (hpos.resolve_left hend)]

theorem splitHeader_of_lt {h : Heap} {contents : HeapHeader}
    (hc : h.headers header = some contents)
    (hend : pos < subSize contents.size sizeofHeapHeader) (hpos : sizeofHeapHeader < pos) :
    h.splitHeader header pos =
      ((h.writeHeader (header + pos)
        { size := contents.size - pos, kind := .available, oldKind := .available,
          updateRef := .absolute none, next := contents.next,
          prev := some header }).setPrev contents.next (header + pos)).bind fun h =>
        (h.modifyHeader header fun contents =>
          { contents with size := pos, next := some (header + pos) }).bind fun h =>
            some (h, true) := by
  unfold splitHeader
  rw [hc, Option.bind_eq_bind, Option.bind_some, if_neg (Nat.not_le.mpr hend),
    if_neg (Nat.not_le.mpr hpos)]
  rfl

theorem splitHeader_spec (hl : Linked h none (pre ++ b :: post) none)
    (ho : Ordered (pre ++ b :: post)) (pos : Nat) :
    h.splitHeader b.address pos = some (h, false) ∧
        (b.size ≤ pos + sizeofHeapHeader ∨ pos ≤ sizeofHeapHeader) ∨
      sizeofHeapHeader < pos ∧ pos + sizeofHeapHeader < b.size ∧
        ∃ h', h.splitHeader b.address pos = some (h', true) ∧
          Linked h' none (pre ++ b.cut pos :: b.remainder pos :: post) none ∧
          Edits (Scratch b.address b.finish (pre ++ post)) h h' ∧
          h'.usedMemory = h.usedMemory := by
  have hlarger := ho.larger b (by simp)
  have hbounded := ho.bounded b (by simp)
  have hsub : subSize b.size sizeofHeapHeader = b.size - sizeofHeapHeader := by
    refine subSize_of_le (Nat.le_of_lt hlarger) ?_
    unfold Block.finish at hbounded
    omega
  by_cases hend : b.size ≤ pos + sizeofHeapHeader
  · have hle : subSize b.size sizeofHeapHeader ≤ pos := by omega
    exact Or.inl ⟨splitHeader_of_le hl.contents (Or.inl hle), Or.inl hend⟩
  by_cases hsmall : pos ≤ sizeofHeapHeader
  · exact Or.inl ⟨splitHeader_of_le hl.contents (Or.inr hsmall), Or.inr hsmall⟩
  refine Or.inr ⟨by omega, by omega, ?_⟩
  have hlt : pos < subSize b.size sizeofHeapHeader := by omega
  have hbefore : ∀ c ∈ pre, ∀ y, c.HeaderAt y → y < b.address := by
    intro c hc y hy
    have happart := ho.before hc (c := b) (by simp)
    have hc := ho.larger c (by simp [hc])
    unfold Block.HeaderAt at hy
    unfold Block.finish at happart
    omega
  have hafter : ∀ c ∈ post, ∀ y, c.HeaderAt y → b.finish ≤ y := by
    intro c hc y hy
    have happart := ho.append_right.head_before hc
    unfold Block.HeaderAt at hy
    omega
  have hparts := linked_append.mp hl
  -- the new header is written first
  have hedits₁ := h.writeHeader_edits (b.address + pos)
    ((b.remainder pos).contents (firstAddress post none) (some b.address))
  set h₁ := h.writeHeader (b.address + pos)
    ((b.remainder pos).contents (firstAddress post none) (some b.address)) with hh₁
  have hpost₁ : Linked h₁ (some b.address) post none := by
    refine hparts.2.2.edits hedits₁ ?_
    intro c hc y hy hw
    have := hafter c hc y hy
    unfold Block.finish at this
    omega
  obtain ⟨h₂, hset, hpost₂, hedits₂, hused₂⟩ :=
    setPrev_spec hpost₁ ho.append_right.tail (b.address + pos)
  have hself₂ : h₂.headers b.address =
      some (b.contents (firstAddress post none) (lastAddress none pre)) := by
    rw [hedits₂.headers, hedits₁.headers]
    · exact hl.contents
    · intro y hy hyb hw
      omega
    · rintro y hy hyb ⟨c, hc, hcy⟩
      have := hafter c hc y hcy
      unfold Block.finish at this
      omega
  have hedits₃ := h₂.writeHeader_edits b.address
    ((b.cut pos).contents (some (b.address + pos)) (lastAddress none pre))
  set h₃ := h₂.writeHeader b.address
    ((b.cut pos).contents (some (b.address + pos)) (lastAddress none pre)) with hh₃
  refine ⟨h₃, ?_, ?_, ?_, ?_⟩
  · have hwrite : h₂.modifyHeader b.address (fun contents =>
        { contents with size := pos, next := some (b.address + pos) }) = some h₃ :=
      modifyHeader_eq hself₂
    rw [splitHeader_of_lt hl.contents hlt (Nat.lt_of_not_le hsmall)]
    refine (congrArg (fun h => Option.bind h _) hset).trans ?_
    rw [Option.bind_some, hwrite]
    rfl
  · rw [linked_append]
    refine ⟨?_, ?_, ?_, ?_⟩
    · refine ((hparts.1.edits hedits₁ ?_).edits hedits₂ ?_).edits hedits₃ ?_
      · intro c hc y hy hw
        have := hbefore c hc y hy
        omega
      · rintro c hc y hy ⟨d, hd, hdy⟩
        have hcy := hbefore c hc y hy
        have hdy := hafter d hd y hdy
        unfold Block.finish at hdy
        omega
      · intro c hc y hy hw
        have := hbefore c hc y hy
        omega
    · exact writeHeader_headers_self
    · rw [hedits₃.headers, hedits₂.headers]
      · exact writeHeader_headers_self
      · rintro y hy hyb ⟨d, hd, hdy⟩
        have hdy := hafter d hd y hdy
        simp only [Block.remainder] at hy hyb
        unfold Block.finish at hdy
        omega
      · intro y hy hyb hw
        simp only [Block.remainder] at hy hyb
        omega
    · refine hpost₂.edits hedits₃ ?_
      intro c hc y hy hw
      have := hafter c hc y hy
      unfold Block.finish at this
      omega
  · refine (hedits₁.mono ?_).trans ((hedits₂.mono ?_).trans (hedits₃.mono ?_))
    · intro x hx
      refine Or.inl ⟨by omega, ?_⟩
      unfold Block.finish
      omega
    · rintro x ⟨c, hc, hx⟩
      exact Or.inr ⟨c, List.mem_append_right pre hc, hx⟩
    · intro x hx
      refine Or.inl ⟨by omega, ?_⟩
      unfold Block.finish
      omega
  · exact hused₂

/-! The loops over the headers of a run. -/

theorem forHeaders_succ (body : Nat → Heap → Option (Heap × Bool)) :
    forHeaders body last (fuel + 1) header h = (body header h).bind fun r =>
      if r.2 = false ∨ header = last then some r
      else (r.1.headers header).bind fun contents =>
        contents.next.bind fun next => forHeaders body last fuel next r.1 :=
  rfl

/-- `Inv todo` holds whenever the blocks `todo` of the run are left, and `Fail` when
the body leaves the loop early. -/
theorem forHeaders_sound {body : Nat → Heap → Option (Heap × Bool)}
    {Inv : List Block → Heap → Prop} (Fail : Heap → Prop)
    (hgoesOn : ∀ b todo h h', Inv (b :: todo) h → body b.address h = some (h', true) →
      Inv todo h' ∧ (todo ≠ [] → ∃ contents, h'.headers b.address = some contents ∧
        contents.next = firstAddress todo none))
    (hfails : ∀ b todo h h', Inv (b :: todo) h → body b.address h = some (h', false) →
      Fail h')
    (run : List Block) (hfirst : firstAddress run none = some first)
    (hlast : lastAddress none run = some last) (hnodup : (run.map Block.address).Nodup)
    (hinv : Inv run h) (hrun : forHeaders body last fuel first h = some (h', goesOn)) :
    goesOn = true ∧ Inv [] h' ∨ goesOn = false ∧ Fail h' := by
  induction run generalizing fuel first h with
  | nil => simp [firstAddress] at hfirst
  | cons b todo ih =>
      obtain rfl : b.address = first := by simpa [firstAddress] using hfirst
      cases fuel with
      | zero => simp [forHeaders] at hrun
      | succ fuel =>
          rw [forHeaders_succ] at hrun
          obtain ⟨⟨h₁, more⟩, hbody, hrun⟩ := Option.bind_eq_some_iff.mp hrun
          cases more with
          | false =>
              have heq : h₁ = h' ∧ false = goesOn := by simpa using hrun
              exact Or.inr ⟨heq.2.symm, heq.1 ▸ hfails b todo h h₁ hinv hbody⟩
          | true =>
              obtain ⟨hinv₁, hnext⟩ := hgoesOn b todo h h₁ hinv hbody
              cases todo with
              | nil =>
                  obtain rfl : b.address = last := by simpa [lastAddress] using hlast
                  have heq : h₁ = h' ∧ true = goesOn := by simpa using hrun
                  exact Or.inl ⟨heq.2.symm, heq.1 ▸ hinv₁⟩
              | cons c todo =>
                  have hne : b.address ≠ last := by
                    intro heq
                    have hmem : last ∈ (c :: todo).map Block.address :=
                      lastAddress_mem (some b.address) hlast (by simp)
                    exact (List.nodup_cons.mp hnodup).1 (heq ▸ hmem)
                  obtain ⟨contents, hcontents, hnext⟩ := hnext (by simp)
                  have hrun' : forHeaders body last fuel c.address h₁ =
                      some (h', goesOn) := by
                    simpa [hne, hcontents, hnext, firstAddress] using hrun
                  exact ih rfl hlast (List.nodup_cons.mp hnodup).2 hinv₁ hrun'

theorem forHeaders_total {body : Nat → Heap → Option (Heap × Bool)}
    {Inv : List Block → Heap → Prop}
    (hreturns : ∀ b todo h, Inv (b :: todo) h → ∃ h' goesOn,
      body b.address h = some (h', goesOn) ∧ (goesOn = true → Inv todo h' ∧
        (todo ≠ [] → ∃ contents, h'.headers b.address = some contents ∧
          contents.next = firstAddress todo none)))
    (run : List Block) (hfirst : firstAddress run none = some first)
    (hlast : lastAddress none run = some last) (hinv : Inv run h)
    (hfuel : run.length ≤ fuel) : ∃ r, forHeaders body last fuel first h = some r := by
  induction run generalizing fuel first h with
  | nil => simp [firstAddress] at hfirst
  | cons b todo ih =>
      obtain rfl : b.address = first := by simpa [firstAddress] using hfirst
      cases fuel with
      | zero => simp at hfuel
      | succ fuel =>
          obtain ⟨h₁, more, hbody, hmore⟩ := hreturns b todo h hinv
          rw [forHeaders_succ, hbody, Option.bind_some]
          by_cases hleft : more = false ∨ b.address = last
          · exact ⟨_, if_pos hleft⟩
          · rw [if_neg hleft]
            obtain ⟨hinv₁, hnext⟩ := hmore (by simpa using (not_or.mp hleft).1)
            cases todo with
            | nil =>
                have heq : b.address = last := by simpa [lastAddress] using hlast
                exact absurd (Or.inr heq) hleft
            | cons c todo =>
                obtain ⟨contents, hcontents, hnext⟩ := hnext (by simp)
                rw [hcontents, Option.bind_some, hnext]
                exact ih rfl hlast hinv₁ (by simpa using hfuel)

/-- The size of the block, when it is available. -/
def Block.free (b : Block) : Nat :=
  if b.kind = .available then b.size else 0

/-- What `total_memory - used_memory` has over the available blocks. -/
def surplus (h : Heap) (l : List Block) : Nat :=
  subSize h.availableMemory (total Block.free l)

def Block.pinned (b : Block) : Block :=
  { b with oldKind := b.kind, kind := .immovable }

def Block.reverted (b : Block) : Block :=
  { b with kind := b.oldKind }

/-- The loop body `body` writes nothing but the header, turns the block `b` into
`g b`, and accounts for it. -/
structure Rewrites (p : Block → Prop) (body : Nat → Heap → Option (Heap × Bool))
    (g : Block → Block) : Prop where
  address : ∀ b, (g b).address = b.address
  size : ∀ b, (g b).size = b.size
  step : ∀ b next prev h, p b → h.headers b.address = some (b.contents next prev) →
    ∃ used, body b.address h =
        some ({ h.writeHeader b.address ((g b).contents next prev) with
          usedMemory := used }, true) ∧
      ∀ rest, subSize (subSize h.totalMemory used) (rest + (g b).free) =
        subSize h.availableMemory (rest + b.free)

theorem pin_rewrites : Rewrites (fun _ => True) pin Block.pinned where
  address := fun _ => rfl
  size := fun _ => rfl
  step := by
    intro b next prev h _ hb
    have hfree : b.pinned.free = 0 := rfl
    by_cases hkind : b.kind = .available
    · have hsize : b.free = b.size := if_pos hkind
      refine ⟨wrap (h.usedMemory + b.size), ?_, ?_⟩
      · simp [pin, hb, Block.contents, Block.pinned, hkind, use, writeHeader]
      · intro rest
        rw [hfree, hsize, Nat.add_zero]
        exact subSize_use h.totalMemory h.usedMemory rest b.size
    · have hzero : b.free = 0 := if_neg hkind
      refine ⟨h.usedMemory, ?_, ?_⟩
      · simp [pin, hb, Block.contents, Block.pinned, hkind, writeHeader]
      · intro rest
        rw [hfree, hzero]
        rfl

theorem revert_rewrites : Rewrites (fun b => b.kind = .immovable) revert Block.reverted where
  address := fun _ => rfl
  size := fun _ => rfl
  step := by
    intro b next prev h himmovable hb
    have hfree : b.free = 0 := by simp [Block.free, himmovable]
    by_cases hkind : b.oldKind = .available
    · have hsize : b.reverted.free = b.size := if_pos hkind
      refine ⟨subSize h.usedMemory b.size, ?_, ?_⟩
      · simp [revert, hb, Block.contents, Block.reverted, hkind, unuse, writeHeader]
      · intro rest
        rw [hfree, hsize, Nat.add_zero]
        exact subSize_unuse h.totalMemory h.usedMemory rest b.size
    · have hzero : b.reverted.free = 0 := if_neg hkind
      refine ⟨h.usedMemory, ?_, ?_⟩
      · simp [revert, hb, Block.contents, Block.reverted, hkind, writeHeader]
      · intro rest
        rw [hfree, hzero]
        rfl

/-- The headers of `run` that have been rewritten when `todo` is left. -/
structure Rewriting (p : Block → Prop) (g : Block → Block) (pre run post : List Block)
    (h₀ : Heap) (todo : List Block) (h : Heap) : Prop where
  split : ∃ done, run = done ++ todo ∧
    Linked h none (pre ++ (done.map g ++ todo) ++ post) none ∧
    surplus h (pre ++ (done.map g ++ todo) ++ post) = surplus h₀ (pre ++ run ++ post)
  edits : Edits (fun x => ∃ b ∈ run, b.HeaderAt x) h₀ h
  admits : ∀ b ∈ todo, p b

theorem Rewrites.next {p : Block → Prop} {body : Nat → Heap → Option (Heap × Bool)}
    {g : Block → Block} (hbody : Rewrites p body g) (ho : Ordered (pre ++ run ++ post))
    (hinv : Rewriting p g pre run post h₀ (b :: todo) h) :
    ∃ h', body b.address h = some (h', true) ∧ Rewriting p g pre run post h₀ todo h' ∧
      (todo ≠ [] → ∃ contents, h'.headers b.address = some contents ∧
        contents.next = firstAddress todo none) := by
  obtain ⟨⟨done, rfl, hl, hsurplus⟩, hedits, hadmits⟩ := hinv
  have hshape : pre ++ (done.map g ++ b :: todo) ++ post =
      (pre ++ done.map g) ++ b :: (todo ++ post) := by simp
  have hshape' : pre ++ ((done ++ [b]).map g ++ todo) ++ post =
      (pre ++ done.map g) ++ g b :: (todo ++ post) := by simp
  have hordered : Ordered ((pre ++ done.map g) ++ b :: (todo ++ post)) := by
    rw [← hshape]
    refine ho.of_extents ?_
    simp only [extents_append, extents_map hbody.address hbody.size]
  rw [hshape] at hl hsurplus
  obtain ⟨used, heq, hused⟩ :=
    hbody.step b _ _ h (hadmits b (by simp)) hl.contents
  have hwritten := hl.write hordered (hbody.address b)
  have hedits' := h.writeHeader_edits b.address ((g b).contents
    (firstAddress (todo ++ post) none) (lastAddress none (pre ++ done.map g)))
  refine ⟨_, heq, ⟨⟨done ++ [b], by simp, ?_, ?_⟩, ?_, ?_⟩, ?_⟩
  · rw [hshape']
    exact hwritten.edits (Edits.usedMemory (fun _ => False) _ used) fun _ _ _ _ => id
  · rw [hshape', ← hsurplus]
    have hmiddle : ∀ c, total Block.free ((pre ++ done.map g) ++ c :: (todo ++ post)) =
        total Block.free (pre ++ done.map g) + total Block.free (todo ++ post) + c.free := by
      intro c
      simp only [total_append, total_cons]
      omega
    simp only [surplus, hmiddle]
    exact hused _
  · refine hedits.trans ((hedits'.mono ?_).trans (Edits.usedMemory _ _ used))
    intro x hx
    exact ⟨b, by simp, hx⟩
  · exact fun c hc => hadmits c (by simp [hc])
  · intro hne
    obtain ⟨c, rest, rfl⟩ := List.exists_cons_of_ne_nil hne
    exact ⟨_, writeHeader_headers_self, rfl⟩

/-- The loop rewrites the whole run. -/
theorem Rewrites.loop {p : Block → Prop} {body : Nat → Heap → Option (Heap × Bool)}
    {g : Block → Block} (hbody : Rewrites p body g) (ho : Ordered (pre ++ run ++ post))
    (hl : Linked h none (pre ++ run ++ post) none) (hadmits : ∀ b ∈ run, p b)
    (hfirst : firstAddress run none = some first) (hlast : lastAddress none run = some last)
    (hrun : forHeaders body last fuel first h = some (h', goesOn)) :
    Linked h' none (pre ++ run.map g ++ post) none ∧
      surplus h' (pre ++ run.map g ++ post) = surplus h (pre ++ run ++ post) ∧
      Edits (fun x => ∃ b ∈ run, b.HeaderAt x) h h' := by
  have hstart : Rewriting p g pre run post h run h :=
    ⟨⟨[], rfl, hl, rfl⟩, Edits.refl _ h, hadmits⟩
  have hnodup := ho.append_left.append_right.addresses_nodup
  have hgoesOn : ∀ b todo h₁ h₂, Rewriting p g pre run post h (b :: todo) h₁ →
      body b.address h₁ = some (h₂, true) → Rewriting p g pre run post h todo h₂ ∧
        (todo ≠ [] → ∃ contents, h₂.headers b.address = some contents ∧
          contents.next = firstAddress todo none) := by
    intro b todo h₁ h₂ hinv heq
    obtain ⟨h₃, heq', hnext⟩ := hbody.next ho hinv
    obtain rfl : h₃ = h₂ := by simpa [heq'] using heq
    exact hnext
  have hfails : ∀ b todo h₁ h₂, Rewriting p g pre run post h (b :: todo) h₁ →
      body b.address h₁ = some (h₂, false) → False := by
    intro b todo h₁ h₂ hinv heq
    obtain ⟨h₃, heq', -⟩ := hbody.next ho hinv
    simp [heq'] at heq
  rcases forHeaders_sound (fun _ => False) hgoesOn hfails run hfirst hlast hnodup hstart hrun
    with ⟨-, hdone⟩ | ⟨-, hfalse⟩
  · obtain ⟨⟨done, hsplit, hl', hsurplus⟩, hedits, -⟩ := hdone
    obtain rfl : run = done := by simpa using hsplit
    simp only [List.append_nil] at hl' hsurplus
    exact ⟨hl', hsurplus, hedits⟩
  · exact hfalse.elim

theorem Rewrites.returns {p : Block → Prop} {body : Nat → Heap → Option (Heap × Bool)}
    {g : Block → Block} (hbody : Rewrites p body g) (ho : Ordered (pre ++ run ++ post))
    (hl : Linked h none (pre ++ run ++ post) none) (hadmits : ∀ b ∈ run, p b)
    (hfirst : firstAddress run none = some first) (hlast : lastAddress none run = some last)
    (hfuel : run.length ≤ fuel) : ∃ r, forHeaders body last fuel first h = some r := by
  have hstart : Rewriting p g pre run post h run h :=
    ⟨⟨[], rfl, hl, rfl⟩, Edits.refl _ h, hadmits⟩
  refine forHeaders_total ?_ run hfirst hlast hstart hfuel
  intro b todo h₁ hinv
  obtain ⟨h₂, heq, hnext⟩ := hbody.next ho hinv
  exact ⟨h₂, true, heq, fun _ => hnext⟩

end Cenix.Heap
