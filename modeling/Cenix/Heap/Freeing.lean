import Cenix.Heap.Soundness

namespace Cenix.Heap

/-! `heap_free` -/

/-- `header` takes in the block behind it, if that one is available. -/
def mergeNext (h : Heap) (header : Nat) : Option Heap := do
  let contents ← h.headers header
  match contents.next with
  | none => some h
  | some next => do
      let following ← h.headers next
      if following.kind = .available then
        let h := h.writeHeader header
          { contents with size := wrap (contents.size + following.size) }
        -- only the variable goes on to the block behind, which `next->next` is read of even
        -- where there is none
        let next ← following.next
        let following ← h.headers next
        h.setPrev following.next header
      else
        some h

/-- The block in front takes in `header`, if it is available. -/
def mergePrev (h : Heap) (header : Nat) : Option Heap := do
  let contents ← h.headers header
  match contents.prev with
  | none => some h
  | some prev => do
      let before ← h.headers prev
      if before.kind = .available then
        let h := h.writeHeader prev
          { before with size := wrap (before.size + contents.size), next := contents.next }
        h.setPrev contents.next prev
      else
        some h

/-- What is left of `update_ref` is not read before it is written again. -/
def heapFree (h : Heap) (ptr : Nat) : Option Heap := do
  let header := ptr - sizeofHeapHeader
  let contents ← h.headers header
  let h := h.writeHeader header
    { contents with kind := .available, oldKind := .available, updateRef := .absolute none }
  let h := h.unuse contents.size
  let h ← h.mergeNext header
  h.mergePrev header

/-! What it is for. -/

/-- The heap has these blocks, which need not be contiguous. -/
structure Lists (h : Heap) (l : List Block) : Prop where
  base : h.heapBase = firstAddress l none
  linked : Linked h none l none
  ordered : Ordered l

theorem WellFormed.lists (hw : WellFormed h l) : Lists h l :=
  ⟨hw.base, hw.linked, hw.ordered⟩

def Block.freed (b : Block) : Block :=
  { b with kind := .available, oldKind := .available, updateRef := .absolute none }

/-- Two available blocks, one directly behind the other. -/
def Joins (b c : Block) : Prop :=
  b.kind = .available ∧ c.kind = .available ∧ b.finish = c.address

instance (b c : Block) : Decidable (Joins b c) :=
  inferInstanceAs (Decidable (_ ∧ _))

def Block.join (b c : Block) : Block :=
  { b with size := b.size + c.size }

/-- The blocks of both lists; the last one in front and the first one behind become one
if they are available and adjacent. -/
def joinLists : List Block → List Block → List Block
  | [], back => back
  | [b], [] => [b]
  | [b], c :: back => if Joins b c then b.join c :: back else b :: c :: back
  | b :: c :: front, back => b :: joinLists (c :: front) back

/-- The block is freed and merged with its neighbours; no header has been followed that is
not there, and nothing else than headers has been written. -/
def FreesBlock (h : Heap) (front : List Block) (b : Block) (back : List Block) : Prop :=
  ∃ h', heapFree h b.pointer = some h' ∧
    Lists h' (joinLists front (joinLists [b.freed] back)) ∧
    h'.usedMemory = subSize h.usedMemory b.size ∧
    Edits (fun x => ∃ c ∈ front ++ b :: back, c.HeaderAt x) h h'

theorem joinLists_append (front : List Block) (b : Block) (back : List Block) :
    joinLists (front ++ [b]) back = front ++ joinLists [b] back := by
  induction front with
  | nil => rfl
  | cons c front ih =>
      cases front with
      | nil => rfl
      | cons d front => exact congrArg (c :: ·) ih

/-! Headers that are apart. -/

def Apart (x y : Nat) : Prop :=
  x + sizeofHeapHeader ≤ y ∨ y + sizeofHeapHeader ≤ x

theorem Ordered.headers_apart (ho : Ordered l) (hb : b ∈ l) (hc : c ∈ l)
    (hne : b.address ≠ c.address) : Apart b.address c.address := by
  have hblarge := ho.larger b hb
  have hclarge := ho.larger c hc
  unfold Apart
  rcases ho.apart hb hc with rfl | hlt | hlt
  · exact absurd rfl hne
  · unfold Block.finish at hlt
    omega
  · unfold Block.finish at hlt
    omega

theorem writeHeader_apart (hapart : Apart x header) :
    (writeHeader h header contents).headers x = h.headers x := by
  have hpos := sizeofHeapHeader_pos
  unfold Apart at hapart
  have hne : x ≠ header := by omega
  have houtside : ¬ (x < header + sizeofHeapHeader ∧ header < x + sizeofHeapHeader) := by omega
  simp [writeHeader, hne, houtside]

theorem setPrev_apart (hrun : setPrev h next prev = some h')
    (hapart : ∀ y, next = some y → Apart x y) : h'.headers x = h.headers x := by
  unfold setPrev at hrun
  cases next with
  | none =>
      cases hrun
      rfl
  | some next =>
      obtain ⟨contents, -, rfl⟩ := Option.map_eq_some_iff.mp hrun
      exact writeHeader_apart (hapart next rfl)

/-! What the merges do to the headers. -/

theorem mergeNext_kept (hheader : headers h header = some contents)
    (hnext : ∀ next following, contents.next = some next → h.headers next = some following →
      following.kind ≠ .available)
    (hread : ∀ next, contents.next = some next → ∃ following, h.headers next = some following) :
    h.mergeNext header = some h := by
  unfold mergeNext
  rw [hheader, Option.bind_eq_bind, Option.bind_some]
  cases hcontents : contents.next with
  | none => rfl
  | some next =>
      obtain ⟨following, hfollowing⟩ := hread next hcontents
      simp only [hfollowing, Option.bind_eq_bind, Option.bind_some]
      exact if_neg (hnext next following hcontents hfollowing)

theorem mergePrev_kept (hheader : headers h header = some contents)
    (hprev : ∀ prev before, contents.prev = some prev → h.headers prev = some before →
      before.kind ≠ .available)
    (hread : ∀ prev, contents.prev = some prev → ∃ before, h.headers prev = some before) :
    h.mergePrev header = some h := by
  unfold mergePrev
  rw [hheader, Option.bind_eq_bind, Option.bind_some]
  cases hcontents : contents.prev with
  | none => rfl
  | some prev =>
      obtain ⟨before, hbefore⟩ := hread prev hcontents
      simp only [hbefore, Option.bind_some]
      exact if_neg (hprev prev before hcontents hbefore)

theorem mergePrev_taken (hheader : headers h header = some contents)
    (hprev : contents.prev = some prev) (hbefore : h.headers prev = some before)
    (havailable : before.kind = .available) :
    h.mergePrev header = (h.writeHeader prev
      { before with size := wrap (before.size + contents.size), next := contents.next }).setPrev
        contents.next prev := by
  unfold mergePrev
  rw [hheader, Option.bind_eq_bind, Option.bind_some]
  simp only [hprev, hbefore, Option.bind_some]
  exact if_pos havailable

/-- An available block behind stays in the list, and there has to be another one behind it. -/
theorem mergeNext_taken (hheader : headers h header = some contents)
    (hnext : contents.next = some next) (hfollowing : h.headers next = some following)
    (havailable : following.kind = .available)
    (hrun : h.mergeNext header = some h') :
    ∃ second after, following.next = some second ∧
      (h.writeHeader header
        { contents with size := wrap (contents.size + following.size) }).headers second =
          some after ∧
      (h.writeHeader header
        { contents with size := wrap (contents.size + following.size) }).setPrev
          after.next header = some h' := by
  obtain ⟨size, kind, oldKind, ref, next', prev⟩ := contents
  obtain rfl : next' = some next := hnext
  unfold mergeNext at hrun
  rw [hheader, Option.bind_eq_bind, Option.bind_some] at hrun
  simp only [hfollowing, Option.bind_eq_bind, Option.bind_some] at hrun
  have hrun' := (if_pos havailable).symm.trans hrun
  obtain ⟨second, hsecond, hrun'⟩ := Option.bind_eq_some_iff.mp hrun'
  obtain ⟨after, hafter, hrun'⟩ := Option.bind_eq_some_iff.mp hrun'
  exact ⟨second, after, hsecond, hafter, hrun'⟩

/-! The blocks that are merged correctly. -/

theorem Lists.usedMemory (hl : Lists h l) (used : Nat) : Lists { h with usedMemory := used } l where
  base := hl.base
  linked := hl.linked.edits (Edits.usedMemory (fun _ => False) h used) fun _ _ _ _ => id
  ordered := hl.ordered

/-- The header is written and the block counts as available. -/
theorem heapFree_begin (hl : Lists h (front ++ b :: back)) :
    ∃ h₁, heapFree h b.pointer =
        (h₁.mergeNext b.address).bind (fun h => h.mergePrev b.address) ∧
      Lists h₁ (front ++ b.freed :: back) ∧ h₁.usedMemory = subSize h.usedMemory b.size ∧
      Edits (fun x => b.HeaderAt x) h h₁ := by
  have haddress : b.pointer - sizeofHeapHeader = b.address := Nat.add_sub_cancel ..
  have hwritten := hl.linked.write hl.ordered (rfl : b.freed.address = b.address)
  have hlists : Lists (h.writeHeader b.address
      (b.freed.contents (firstAddress back none) (lastAddress none front)))
      (front ++ b.freed :: back) := by
    refine ⟨?_, hwritten, ?_⟩
    · refine hl.base.trans ?_
      cases front <;> rfl
    · refine hl.ordered.of_extents ?_
      simp [extents, Block.freed]
  refine ⟨_, ?_, hlists.usedMemory (subSize h.usedMemory b.size), rfl, ?_⟩
  · unfold heapFree
    rw [haddress]
    simp only [hl.linked.contents, Option.bind_eq_bind, Option.bind_some]
    rfl
  · exact (writeHeader_edits h b.address _).trans (Edits.usedMemory _ _ _)

theorem Ordered.join (ho : Ordered (front ++ a :: b :: back)) (hadjacent : a.finish = b.address) :
    Ordered (front ++ a.join b :: back) := by
  have hfinish : (a.join b).finish = b.finish := by
    unfold Block.finish at hadjacent ⊢
    unfold Block.join
    simp only
    omega
  have hfront := ho.append_left
  have hback := ho.append_right
  have hsame : ∀ c ∈ front ++ a.join b :: back, c = a.join b ∨ c ∈ front ++ a :: b :: back := by
    intro c hc
    simp only [List.mem_append, List.mem_cons] at hc ⊢
    rcases hc with hc | hc | hc
    · exact Or.inr (Or.inl hc)
    · exact Or.inl hc
    · exact Or.inr (Or.inr (Or.inr (Or.inr hc)))
  constructor
  · refine List.pairwise_append.mpr ⟨hfront.sorted, List.pairwise_cons.mpr ⟨?_, ?_⟩, ?_⟩
    · intro c hc
      rw [hfinish]
      exact hback.tail.head_before hc
    · exact hback.tail.tail.sorted
    · intro c hc d hd
      rcases List.mem_cons.mp hd with rfl | hd
      · exact ho.before hc (c := a) (by simp)
      · exact ho.before hc (by simp [hd])
  · intro c hc
    rcases hsame c hc with rfl | hc
    · have hlarger := ho.larger a (by simp)
      unfold Block.join
      simp only
      omega
    · exact ho.larger c hc
  · intro c hc
    rcases hsame c hc with rfl | hc
    · rw [hfinish]
      exact ho.bounded b (by simp)
    · exact ho.bounded c hc

theorem mergePrev_joined (hl : Lists h (front ++ a :: b :: back)) (hjoins : Joins a b) :
    ∃ h', h.mergePrev b.address = some h' ∧ Lists h' (front ++ a.join b :: back) ∧
      h'.usedMemory = h.usedMemory ∧
      Edits (fun x => ∃ c ∈ front ++ a :: b :: back, c.HeaderAt x) h h' := by
  obtain ⟨havailable, -, hadjacent⟩ := hjoins
  have ho := hl.ordered
  have hshape : front ++ a :: b :: back = (front ++ [a]) ++ b :: back := by simp
  have hheader := (hshape ▸ hl.linked).contents
  have hbefore := hl.linked.contents
  have hlast : lastAddress none (front ++ [a]) = some a.address := by
    rw [lastAddress_append]
    rfl
  rw [hlast] at hheader
  have hsize : wrap (a.size + b.size) = a.size + b.size := by
    refine wrap_of_lt ?_
    have hbounded := ho.bounded b (by simp)
    unfold Block.finish at hbounded hadjacent
    omega
  have htaken := mergePrev_taken hheader rfl hbefore havailable
  obtain ⟨hfrontLinked, -, -, hbackLinked⟩ := linked_append.mp hl.linked
  -- the header of the block in front is written first
  have hedits := h.writeHeader_edits a.address
    ((a.join b).contents (firstAddress back none) (lastAddress none front))
  have hbackLinked₁ := hbackLinked.edits hedits (by
    intro c hc y hy hin
    have hbelow := ho.append_right.head_before (c := c) (by simp [hc])
    have hlarger := ho.larger a (by simp)
    unfold Block.HeaderAt at hy
    unfold Block.finish at hbelow
    omega)
  obtain ⟨h', hrun, hbackLinked', hedits', hused⟩ :=
    setPrev_spec hbackLinked₁ ho.append_right.tail.tail a.address
  have hall : Edits (fun x => ∃ c ∈ front ++ a :: b :: back, c.HeaderAt x) h h' := by
    refine (hedits.mono ?_).trans (hedits'.mono ?_)
    · exact fun x hx => ⟨a, by simp, hx⟩
    · rintro x ⟨c, hc, hx⟩
      exact ⟨c, by simp [hc], hx⟩
  refine ⟨h', ?_, ⟨?_, ?_, ho.join hadjacent⟩, hused, hall⟩
  · rw [htaken]
    have hcontents : (a.join b).contents (firstAddress back none) (lastAddress none front) =
        { a.contents (firstAddress (b :: back) none) (lastAddress none front) with
          size := wrap (a.size + b.size), next := firstAddress back none } := by
      rw [hsize]
      rfl
    rw [hcontents] at hrun
    exact hrun
  · rw [hall.heapBase, hl.base]
    cases front <;> rfl
  · refine linked_append.mpr ⟨?_, ?_, ?_⟩
    · refine (hfrontLinked.edits hedits ?_).edits hedits' ?_
      · intro c hc y hy hin
        have hbelow := ho.before hc (c := a) (by simp)
        have hlarger := ho.larger c (by simp [hc])
        unfold Block.HeaderAt at hy
        unfold Block.finish at hbelow
        omega
      · rintro c hc y hy ⟨d, hd, hin⟩
        have hbelow := ho.before hc (c := d) (by simp [hd])
        have hlarger := ho.larger c (by simp [hc])
        unfold Block.HeaderAt at hy hin
        unfold Block.finish at hbelow
        omega
    · rw [hedits'.headers]
      · exact writeHeader_headers_self
      · rintro y hay hya ⟨d, hd, hin⟩
        have hbelow := ho.append_right.head_before (c := d) (by simp [hd])
        have hlarger := ho.larger a (by simp)
        have haddress : (a.join b).address = a.address := rfl
        unfold Block.HeaderAt at hin
        unfold Block.finish at hbelow
        omega
    · exact hbackLinked'

/-- The block behind is in use, and one in front that is available is adjacent. -/
structure FreesCleanly (front : List Block) (b : Block) (back : List Block) : Prop where
  behind : ∀ c ∈ back.head?, c.kind ≠ .available
  before : ∀ a ∈ front.getLast?, a.kind = .available → a.finish = b.address

theorem joinLists_kept (hkept : ∀ c ∈ back.head?, ¬ Joins b c) :
    joinLists [b] back = b :: back := by
  cases back with
  | nil => rfl
  | cons c back => exact if_neg (hkept c rfl)

theorem Lists.next (hl : Lists h (front ++ b :: back)) :
    ∃ contents, h.headers b.address = some contents ∧ contents.size = b.size ∧
      contents.kind = b.kind ∧ contents.next = firstAddress back none ∧
      contents.prev = lastAddress none front :=
  ⟨_, hl.linked.contents, rfl, rfl, rfl, rfl⟩

/-- The block behind is left alone. -/
theorem Lists.mergeNext_kept (hl : Lists h (front ++ b :: back))
    (hbehind : ∀ c ∈ back.head?, c.kind ≠ .available) : h.mergeNext b.address = some h := by
  obtain ⟨contents, hheader, -, -, hnext, -⟩ := hl.next
  cases back with
  | nil =>
      refine Heap.mergeNext_kept hheader ?_ ?_
      · intro next following hcontents
        rw [hnext] at hcontents
        cases hcontents
      · intro next hcontents
        rw [hnext] at hcontents
        cases hcontents
  | cons c back =>
      have hshape : front ++ b :: c :: back = (front ++ [b]) ++ c :: back := by simp
      obtain ⟨following, hfollowing, -, hkind, -⟩ := (hshape ▸ hl).next
      have haddress : ∀ next, contents.next = some next → next = c.address := by
        intro next hcontents
        rw [hnext] at hcontents
        exact (Option.some.inj hcontents).symm
      refine Heap.mergeNext_kept hheader ?_ ?_
      · intro next following' hcontents hfollowing'
        obtain rfl := haddress next hcontents
        obtain rfl := Option.some.inj (hfollowing.symm.trans hfollowing')
        rw [hkind]
        exact hbehind c rfl
      · intro next hcontents
        exact ⟨following, haddress next hcontents ▸ hfollowing⟩

/-- So is a block in front that is in use. -/
theorem Lists.mergePrev_kept (hl : Lists h (front ++ b :: back))
    (hbefore : ∀ a ∈ front.getLast?, a.kind ≠ .available) : h.mergePrev b.address = some h := by
  obtain ⟨contents, hheader, -, -, -, hprev⟩ := hl.next
  rcases List.eq_nil_or_concat front with rfl | ⟨front, a, rfl⟩
  · refine Heap.mergePrev_kept hheader ?_ ?_
    · intro prev before hcontents
      rw [hprev] at hcontents
      cases hcontents
    · intro prev hcontents
      rw [hprev] at hcontents
      cases hcontents
  · rw [List.concat_eq_append] at hl hprev hbefore
    have hshape : (front ++ [a]) ++ b :: back = front ++ a :: b :: back := by simp
    obtain ⟨before, hheader', -, hkind, -⟩ := (hshape ▸ hl).next
    have haddress : ∀ prev, contents.prev = some prev → prev = a.address := by
      intro prev hcontents
      rw [hprev, lastAddress_append] at hcontents
      exact (Option.some.inj hcontents).symm
    refine Heap.mergePrev_kept hheader ?_ ?_
    · intro prev before' hcontents hheader''
      obtain rfl := haddress prev hcontents
      obtain rfl := Option.some.inj (hheader'.symm.trans hheader'')
      rw [hkind]
      exact hbefore a (by simp)
    · intro prev hcontents
      exact ⟨before, haddress prev hcontents ▸ hheader'⟩

theorem FreesCleanly.frees (hclean : FreesCleanly front b back)
    (hl : Lists h (front ++ b :: back)) : FreesBlock h front b back := by
  obtain ⟨h₁, hrun, hl₁, hused, hedits⟩ := heapFree_begin hl
  have hbegin : Edits (fun x => ∃ c ∈ front ++ b :: back, c.HeaderAt x) h h₁ :=
    hedits.mono fun x hx => ⟨b, by simp, hx⟩
  have hbehind : joinLists [b.freed] back = b.freed :: back :=
    joinLists_kept fun c hc hjoins => hclean.behind c hc hjoins.2.1
  have hnext : h₁.mergeNext b.address = some h₁ := hl₁.mergeNext_kept hclean.behind
  rw [hnext, Option.bind_some] at hrun
  unfold FreesBlock
  rw [hrun, hbehind]
  rcases List.eq_nil_or_concat front with rfl | ⟨front, a, rfl⟩
  · exact ⟨h₁, hl₁.mergePrev_kept (by simp), hl₁, hused, hbegin⟩
  · rw [List.concat_eq_append] at hl₁ hclean hbegin ⊢
    have hshape : ∀ b, (front ++ [a]) ++ b :: back = front ++ a :: b :: back := by simp
    rw [joinLists_append]
    by_cases havailable : a.kind = .available
    · have hjoins : Joins a b.freed := ⟨havailable, rfl, hclean.before a (by simp) havailable⟩
      obtain ⟨h', hmerge, hl', hused', hedits'⟩ := mergePrev_joined (hshape _ ▸ hl₁) hjoins
      have hjoined : joinLists [a] (b.freed :: back) = a.join b.freed :: back := if_pos hjoins
      refine ⟨h', hmerge, hjoined ▸ hl', hused'.trans hused, hbegin.trans (hedits'.mono ?_)⟩
      rintro x ⟨c, hc, hx⟩
      simp only [List.mem_append, List.mem_cons] at hc ⊢
      rcases hc with hc | rfl | rfl | hc
      · exact ⟨c, by simp [hc], hx⟩
      · exact ⟨c, by simp, hx⟩
      · exact ⟨b, by simp, hx⟩
      · exact ⟨c, by simp [hc], hx⟩
    · have hkept : joinLists [a] (b.freed :: back) = a :: b.freed :: back :=
        if_neg fun hjoins => havailable hjoins.1
      refine ⟨h₁, hl₁.mergePrev_kept (by simpa using havailable), ?_, hused, hbegin⟩
      rw [hkept, ← hshape]
      exact hl₁

/-! The blocks that are not. -/

theorem joinLists_cases (b c : Block) (back : List Block) :
    (Joins b c ∧ joinLists [b] (c :: back) = b.join c :: back) ∨
      (¬ Joins b c ∧ joinLists [b] (c :: back) = b :: c :: back) := by
  by_cases hjoins : Joins b c
  · exact Or.inl ⟨hjoins, if_pos hjoins⟩
  · exact Or.inr ⟨hjoins, if_neg hjoins⟩

theorem mergePrev_header (hheader : headers h header = some contents)
    (hprev : contents.prev = some prev) (hbefore : h.headers prev = some before)
    (havailable : before.kind = .available)
    (hapart : ∀ next, contents.next = some next → Apart prev next)
    (hrun : h.mergePrev header = some h') :
    h'.headers prev = some
      { before with size := wrap (before.size + contents.size), next := contents.next } := by
  rw [mergePrev_taken hheader hprev hbefore havailable] at hrun
  rw [setPrev_apart hrun hapart]
  exact writeHeader_headers_self

/-- After the merge with an available block behind, its header still has that block
behind it. -/
theorem Lists.mergeNext_taken (hl : Lists h (front ++ b :: c :: back)) (hkind : c.kind = .available)
    (hrun : h.mergeNext b.address = some h') :
    ∃ contents d back', back = d :: back' ∧ h'.headers b.address = some contents ∧
      contents.size = wrap (b.size + c.size) ∧ contents.next = some c.address ∧
      contents.prev = lastAddress none front ∧
      ∀ a ∈ front, h'.headers a.address = h.headers a.address := by
  obtain ⟨contents, hheader, hsize, -, hnext, hprev⟩ := hl.next
  have hshape : front ++ b :: c :: back = (front ++ [b]) ++ c :: back := by simp
  obtain ⟨following, hfollowing, hsize', hkind', hnext', -⟩ := (hshape ▸ hl).next
  obtain ⟨second, after, hsecond, hafter, hset⟩ :=
    Heap.mergeNext_taken hheader hnext hfollowing (hkind'.trans hkind) hrun
  cases back with
  | nil =>
      rw [hnext'] at hsecond
      cases hsecond
  | cons d back =>
      have ho := hl.ordered
      have hnodup := ho.addresses_nodup
      have haddress : second = d.address := by
        rw [hnext'] at hsecond
        exact (Option.some.inj hsecond).symm
      have hbd : Apart d.address b.address := by
        refine ho.headers_apart (by simp) (by simp) ?_
        intro heq
        simp only [List.map_append, List.map_cons, List.nodup_append, List.nodup_cons,
          List.mem_cons] at hnodup
        exact hnodup.2.1.1 (Or.inr (Or.inl heq.symm))
      have hshape' : front ++ b :: c :: d :: back = (front ++ [b, c]) ++ d :: back := by simp
      obtain ⟨after', hafter', -, -, hnext'', -⟩ := (hshape' ▸ hl).next
      rw [haddress, writeHeader_apart hbd, hafter'] at hafter
      obtain rfl := Option.some.inj hafter
      have hfar : ∀ a ∈ front ++ [b], ∀ y, after'.next = some y → Apart a.address y := by
        intro a ha y hy
        rw [hnext''] at hy
        cases back with
        | nil => cases hy
        | cons e back =>
            obtain rfl : e.address = y := Option.some.inj hy
            have hbelow := (hshape ▸ ho).before ha (c := e) (by simp)
            have hlarger := ho.larger a (by
              simp only [List.mem_append, List.mem_cons, List.not_mem_nil, or_false] at ha ⊢
              exact ha.imp id Or.inl)
            unfold Apart
            unfold Block.finish at hbelow
            omega
      refine ⟨{ contents with size := wrap (contents.size + following.size) }, d, back, rfl,
        ?_, ?_, hnext, hprev, ?_⟩
      · rw [setPrev_apart hset (hfar b (by simp))]
        exact writeHeader_headers_self
      · rw [hsize, hsize']
      · intro a ha
        rw [setPrev_apart hset (hfar a (by simp [ha]))]
        refine writeHeader_apart ?_
        have hbelow := ho.before ha (c := b) (by simp)
        have hlarger := ho.larger a (by simp [ha])
        unfold Apart
        unfold Block.finish at hbelow
        omega

theorem Ordered.address_ne (ho : Ordered (front ++ b :: back)) (hc : c ∈ back) :
    b.address ≠ c.address := by
  have hbelow := ho.append_right.head_before hc
  have hlarger := ho.larger b (by simp)
  unfold Block.finish at hbelow
  omega

/-! A block behind which `c` still is has not grown. -/

theorem Lists.size_of_next (hl : Lists h (front ++ joinLists [b] (c :: d :: back)))
    (hne : c.address ≠ d.address) (hheader : h.headers b.address = some contents)
    (hnext : contents.next = some c.address) : contents.size = b.size := by
  rcases joinLists_cases b c (d :: back) with ⟨-, hjoin⟩ | ⟨-, hjoin⟩
  · rw [hjoin] at hl
    obtain ⟨contents', hheader', -, -, hnext', -⟩ := hl.next
    obtain rfl := Option.some.inj (hheader.symm.trans hheader')
    exact absurd (Option.some.inj (hnext.symm.trans hnext')) hne
  · rw [hjoin] at hl
    obtain ⟨contents', hheader', hsize, -⟩ := hl.next
    obtain rfl := Option.some.inj (hheader.symm.trans hheader')
    exact hsize

theorem Lists.size_of_second
    (hl : Lists h (front ++ joinLists [a] (joinLists [b] (c :: d :: back))))
    (hbc : b.address ≠ c.address) (hcd : c.address ≠ d.address)
    (hheader : h.headers a.address = some contents) (hnext : contents.next = some c.address) :
    contents.size = a.size + b.size := by
  rcases joinLists_cases b c (d :: back) with ⟨-, hjoin⟩ | ⟨-, hjoin⟩
  · rw [hjoin] at hl
    rcases joinLists_cases a (b.join c) (d :: back) with ⟨-, hjoin'⟩ | ⟨-, hjoin'⟩
    · rw [hjoin'] at hl
      obtain ⟨contents', hheader', -, -, hnext', -⟩ := hl.next
      obtain rfl := Option.some.inj (hheader.symm.trans hheader')
      exact absurd (Option.some.inj (hnext.symm.trans hnext')) hcd
    · rw [hjoin'] at hl
      obtain ⟨contents', hheader', -, -, hnext', -⟩ := hl.next
      obtain rfl := Option.some.inj (hheader.symm.trans hheader')
      exact absurd (Option.some.inj (hnext.symm.trans hnext')).symm hbc
  · rw [hjoin] at hl
    rcases joinLists_cases a b (c :: d :: back) with ⟨-, hjoin'⟩ | ⟨-, hjoin'⟩
    · rw [hjoin'] at hl
      obtain ⟨contents', hheader', hsize, -⟩ := hl.next
      obtain rfl := Option.some.inj (hheader.symm.trans hheader')
      exact hsize
    · rw [hjoin'] at hl
      obtain ⟨contents', hheader', -, -, hnext', -⟩ := hl.next
      obtain rfl := Option.some.inj (hheader.symm.trans hheader')
      exact absurd (Option.some.inj (hnext.symm.trans hnext')).symm hbc

/-- An available block in front takes over the header with the available block behind. -/
theorem FreesBlock.behind (hl : Lists h (front ++ b :: back)) (hf : FreesBlock h front b back) :
    ∀ c ∈ back.head?, c.kind ≠ .available := by
  intro c hmem hkind
  obtain ⟨back, rfl⟩ : ∃ back', back = c :: back' := List.head?_eq_some_iff.mp hmem
  obtain ⟨h', hrun, hl', -, -⟩ := hf
  obtain ⟨h₁, hbegin, hl₁, -, -⟩ := heapFree_begin hl
  rw [hbegin] at hrun
  obtain ⟨h₂, hmergeNext, hmergePrev⟩ := Option.bind_eq_some_iff.mp hrun
  obtain ⟨K, d, back, rfl, hheader, hsize, hnext, hprev, hothers⟩ :=
    hl₁.mergeNext_taken hkind hmergeNext
  have ho := hl.ordered
  have hshape : front ++ b :: c :: d :: back = (front ++ [b]) ++ c :: d :: back := by simp
  have hcd : c.address ≠ d.address := (hshape ▸ ho).address_ne (by simp)
  have hbc : b.address ≠ c.address := ho.address_ne (by simp)
  have hc : 0 < c.size ∧ c.size < 2 ^ 32 := by
    have hlarger := ho.larger c (by simp)
    have hbounded := ho.bounded c (by simp)
    unfold Block.finish at hbounded
    omega
  have hfreed : b.freed.size = b.size := rfl
  rcases List.eq_nil_or_concat front with rfl | ⟨front, a, rfl⟩
  · have hkept : h₂.mergePrev b.address = some h₂ :=
      Heap.mergePrev_kept hheader (by simp [hprev, lastAddress]) (by simp [hprev, lastAddress])
    obtain rfl := Option.some.inj (hkept.symm.trans hmergePrev)
    have hjoined : Lists h₂ ([] ++ joinLists [b.freed] (c :: d :: back)) := hl'
    have hsame := hjoined.size_of_next hcd hheader hnext
    rw [hsize] at hsame
    unfold wrap at hsame
    omega
  · rw [List.concat_eq_append] at *
    have hshape₁ : ∀ b, (front ++ [a]) ++ b :: c :: d :: back =
        front ++ a :: b :: c :: d :: back := by simp
    obtain ⟨A, hA, hsizeA, hkindA, -, -⟩ := (hshape₁ _ ▸ hl₁).next
    have hbefore : h₂.headers a.address = some A := (hothers a (by simp)).trans hA
    have hprev' : K.prev = some a.address := by
      rw [hprev, lastAddress_append]
      rfl
    rw [joinLists_append] at hl'
    by_cases havailable : a.kind = .available
    · have hapart : ∀ next, K.next = some next → Apart a.address next := by
        intro next hnext'
        obtain rfl := Option.some.inj (hnext.symm.trans hnext')
        have hbelow := ho.before (b := a) (c := c) (by simp) (by simp)
        have hlarger := ho.larger a (by simp)
        unfold Apart
        unfold Block.finish at hbelow
        omega
      have hfinal := mergePrev_header hheader hprev' hbefore (hkindA.trans havailable) hapart
        hmergePrev
      have hsame : wrap (A.size + K.size) = a.size + b.freed.size :=
        hl'.size_of_second hbc hcd hfinal hnext
      rw [hsize] at hsame
      unfold wrap at hsame
      omega
    · have hkept : h₂.mergePrev b.address = some h₂ := by
        refine Heap.mergePrev_kept hheader ?_ ?_
        · intro prev before hcontents hheader'
          obtain rfl := Option.some.inj (hprev'.symm.trans hcontents)
          obtain rfl := Option.some.inj (hbefore.symm.trans hheader')
          rw [hkindA]
          exact havailable
        · intro prev hcontents
          exact ⟨A, Option.some.inj (hprev'.symm.trans hcontents) ▸ hbefore⟩
      obtain rfl := Option.some.inj (hkept.symm.trans hmergePrev)
      have hfront : Lists h₂ ((front ++ [a]) ++ joinLists [b.freed] (c :: d :: back)) := by
        have happart : joinLists [a] (joinLists [b.freed] (c :: d :: back)) =
            a :: joinLists [b.freed] (c :: d :: back) := by
          rcases joinLists_cases b.freed c (d :: back) with ⟨-, hjoin⟩ | ⟨-, hjoin⟩
          · rw [hjoin]
            exact if_neg fun hjoins => havailable hjoins.1
          · rw [hjoin]
            exact if_neg fun hjoins => havailable hjoins.1
        rw [happart] at hl'
        simpa using hl'
      have hsame := hfront.size_of_next hcd hheader hnext
      rw [hsize] at hsame
      unfold wrap at hsame
      omega

theorem FreesBlock.before (hl : Lists h (front ++ b :: back)) (hf : FreesBlock h front b back) :
    ∀ a ∈ front.getLast?, a.kind = .available → a.finish = b.address := by
  intro a hmem havailable
  by_contra hgap
  obtain ⟨front, rfl⟩ := List.getLast?_eq_some_iff.mp hmem
  have hbehind := hf.behind hl
  obtain ⟨h', hrun, hl', -, -⟩ := hf
  obtain ⟨h₁, hbegin, hl₁, -, -⟩ := heapFree_begin hl
  have hnext : h₁.mergeNext b.address = some h₁ := hl₁.mergeNext_kept hbehind
  rw [hbegin, hnext, Option.bind_some] at hrun
  have ho := hl.ordered
  have hshape : ∀ b, (front ++ [a]) ++ b :: back = front ++ a :: b :: back := by simp
  obtain ⟨A, hA, -, hkindA, -, -⟩ := (hshape _ ▸ hl₁).next
  obtain ⟨K, hK, -, -, hnext, hprev⟩ := hl₁.next
  have hbelow : ∀ y, firstAddress back none = some y → a.finish ≤ y ∧ b.address ≠ y := by
    intro y hy
    cases back with
    | nil => cases hy
    | cons c back =>
        obtain rfl : c.address = y := Option.some.inj hy
        exact ⟨ho.before (by simp) (by simp), ho.address_ne (by simp)⟩
  have hfinal := mergePrev_header hK (hprev.trans (by rw [lastAddress_append]; rfl)) hA
    (hkindA.trans havailable) (by
      intro next hnext'
      have hlarger := ho.larger a (by simp)
      have hle := (hbelow next (hnext.symm.trans hnext')).1
      unfold Apart
      unfold Block.finish at hle
      omega) hrun
  have hapart : joinLists [a] (b.freed :: back) = a :: b.freed :: back :=
    if_neg fun hjoins => hgap hjoins.2.2
  rw [joinLists_append, joinLists_kept fun c hc hjoins => hbehind c hc hjoins.2.1, hapart] at hl'
  obtain ⟨A', hA', -, -, hnext', -⟩ := hl'.next
  obtain rfl := Option.some.inj (hfinal.symm.trans hA')
  exact (hbelow b.address (hnext.symm.trans hnext')).2 rfl

/-- The block is freed and merged as it should be exactly if the block behind is in use,
and the one in front is too or is adjacent. -/
theorem heapFree_iff (hl : Lists h (front ++ b :: back)) :
    FreesBlock h front b back ↔ FreesCleanly front b back :=
  ⟨fun hf => ⟨hf.behind hl, hf.before hl⟩, fun hclean => hclean.frees hl⟩

/-- A block between an available one and one in use. -/
def freeing : List Block :=
  [.plain 100 100 .available, .plain 200 100 .immovable, .plain 300 100 .movable]

theorem lists_freeing : Lists (withBlocks freeing 300 200)
    ([.plain 100 100 .available] ++ .plain 200 100 .immovable :: [.plain 300 100 .movable]) := by
  refine (wellFormed_withBlocks ⟨?_, ?_, ?_⟩ (by decide) ?_ 300 200).lists
  all_goals decide

theorem heapFree_iff_freeing : FreesBlock (withBlocks freeing 300 200)
    [.plain 100 100 .available] (.plain 200 100 .immovable) [.plain 300 100 .movable] :=
  (heapFree_iff lists_freeing).mpr ⟨by decide, by decide⟩

/-- A block in front of an available one. -/
def absorbing : List Block :=
  [.plain 100 100 .immovable, .plain 200 100 .available, .plain 300 100 .immovable]

theorem lists_absorbing : Lists (withBlocks absorbing 300 200) ([] ++ .plain 100 100 .immovable ::
    [.plain 200 100 .available, .plain 300 100 .immovable]) := by
  refine (wellFormed_withBlocks ⟨?_, ?_, ?_⟩ (by decide) ?_ 300 200).lists
  all_goals decide

/-- Freeing it makes it overlap the one behind, which stays in the list. -/
theorem heapFree_absorbing : ∃ (h' : Heap) (first second : HeapHeader),
    heapFree (withBlocks absorbing 300 200) 126 = some h' ∧
    h'.headers 100 = some first ∧ first.size = 200 ∧ first.next = some 200 ∧
    h'.headers 200 = some second ∧ second.size = 100 ∧ second.kind = .available ∧
    ¬ FreesBlock (withBlocks absorbing 300 200) [] (.plain 100 100 .immovable)
      [.plain 200 100 .available, .plain 300 100 .immovable] := by
  have hrun : (heapFree (withBlocks absorbing 300 200) 126).any (fun h' =>
      (h'.headers 100).any fun first => (h'.headers 200).any fun second =>
        decide (first.size = 200 ∧ first.next = some 200 ∧ second.size = 100 ∧
          second.kind = .available)) = true := by decide +kernel
  simp only [Option.any_eq_true, decide_eq_true_eq] at hrun
  obtain ⟨h', hfree, first, hfirst, second, hsecond, hsize, hnext, hsize', hkind⟩ := hrun
  refine ⟨h', first, second, hfree, hfirst, hsize, hnext, hsecond, hsize', hkind, ?_⟩
  intro hf
  exact hf.behind lists_absorbing _ rfl rfl

end Cenix.Heap
