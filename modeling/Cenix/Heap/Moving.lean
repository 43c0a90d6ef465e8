import Cenix.Heap.Edits

namespace Cenix.Heap

/-! A block is moved into another one, and a run becomes one allocation. -/

/-- Puts `b'` in the place of `b`. -/
def exchange (b b' c : Block) : Block :=
  if c = b then b' else c

@[simp] theorem exchange_self : exchange b b' b = b' :=
  if_pos rfl

theorem exchange_of_ne (hne : c ≠ b) : exchange b b' c = c :=
  if_neg hne

theorem map_exchange_of_not_mem {l : List Block} (hb : b ∉ l) :
    l.map (exchange b b') = l := by
  induction l with
  | nil => rfl
  | cons c l ih =>
      have hc : c ≠ b := fun heq => hb (by simp [heq])
      rw [List.map_cons, exchange_of_ne hc, ih fun hmem => hb (List.mem_cons_of_mem c hmem)]

theorem Ordered.map_exchange (ho : Ordered (pre ++ b :: post)) :
    (pre ++ b :: post).map (exchange b b') = pre ++ b' :: post := by
  have hlarger := ho.larger b (by simp)
  have hpre : b ∉ pre := by
    intro hb
    have hbefore := ho.before hb (c := b) (by simp)
    unfold Block.finish at hbefore
    omega
  have hpost : b ∉ post := by
    intro hb
    have hafter := ho.append_right.head_before hb
    unfold Block.finish at hafter
    omega
  rw [List.map_append, List.map_cons, map_exchange_of_not_mem hpre, exchange_self,
    map_exchange_of_not_mem hpost]

theorem exchange_extents (ho : Ordered l) (hb : b ∈ l) (haddress : b'.address = b.address)
    (hsize : b'.size = b.size) : extents (l.map (exchange b b')) = extents l := by
  obtain ⟨pre, post, rfl⟩ := List.append_of_mem hb
  rw [ho.map_exchange]
  simp [extents, haddress, hsize]

theorem Linked.exchange (hl : Linked h none l none) (ho : Ordered l) (hb : b ∈ l) :
    ∃ next prev, h.headers b.address = some (b.contents next prev) ∧
      ∀ b', b'.address = b.address →
        Linked (h.writeHeader b.address (b'.contents next prev)) none
          (l.map (exchange b b')) none := by
  obtain ⟨pre, post, rfl⟩ := List.append_of_mem hb
  refine ⟨_, _, hl.contents, ?_⟩
  intro b' haddress
  rw [ho.map_exchange]
  exact hl.write ho haddress

theorem Linked.of_headers (hl : Linked h before l after) (heq : h'.headers = h.headers) :
    Linked h' before l after := by
  induction l generalizing before with
  | nil => trivial
  | cons b l ih => exact ⟨(congrFun heq b.address).trans hl.1, ih hl.2⟩

theorem writeHeader_twice (h : Heap) (header : Nat) (first second : HeapHeader) :
    (h.writeHeader header first).writeHeader header second = h.writeHeader header second := by
  ext x
  · rfl
  · rfl
  · rfl
  · simp only [writeHeader]
    split_ifs <;> rfl
  · simp only [writeHeader]
    split_ifs <;> rfl
  · rfl

theorem memcpy_edits (h : Heap) (dest src size : Nat) :
    Edits (fun x => dest ≤ x ∧ x < dest + size) h (h.memcpy dest src size) where
  headers := by
    intro x hx
    have hapart : ¬ (0 < size ∧ x < dest + size ∧ dest < x + sizeofHeapHeader) := by
      rintro ⟨hpos, hlt, hgt⟩
      have := sizeofHeapHeader_pos
      rcases Nat.le_total x dest with hle | hle
      · exact hx dest hle hgt ⟨by omega, by omega⟩
      · exact hx x (by omega) (by omega) ⟨hle, hlt⟩
    exact if_neg hapart
  bytes := fun x hx => if_neg hx
  heapBase := rfl
  totalMemory := rfl
  relocations := rfl

theorem memcpy_bytes (h : Heap) (dest src : Nat) (hi : i < size) :
    (h.memcpy dest src size).bytes (dest + i) = h.bytes (src + i) := by
  have hin : dest ≤ dest + i ∧ dest + i < dest + size := ⟨by omega, by omega⟩
  have hsub : dest + i - dest = i := by omega
  simp [memcpy, hin, hsub]

/-- What remains of a block whose contents have been moved. -/
def Block.vacated (b : Block) : Block :=
  { b with oldKind := .available }

/-- The block when it holds the contents of another one. -/
def Block.tenanted (b : Block) (ref : UpdateRef) : Block :=
  { b with updateRef := ref, kind := .movable }

theorem pointer_sub (b : Block) : b.pointer - sizeofHeapHeader = b.address := by
  unfold Block.pointer
  omega

theorem heapSetUpdate_heapUnlock {h : Heap} {d : Block}
    (hd : h.headers d.address = some (d.contents next prev))
    (href : d.updateRef = .absolute none) (ref : UpdateRef) :
    (if ref = .absolute none then (some h).bind fun h => h.heapUnlock d.pointer
        else (h.heapSetUpdate d.pointer ref).bind fun h => h.heapUnlock d.pointer) =
      some (h.writeHeader d.address ((d.tenanted ref).contents next prev)) := by
  by_cases hnone : ref = .absolute none
  · subst ref
    rw [if_pos rfl, Option.bind_some, heapUnlock, pointer_sub, modifyHeader_eq hd]
    simp [Block.contents, Block.tenanted, href]
  · rw [if_neg hnone, heapSetUpdate, pointer_sub, modifyHeader_eq hd, Option.bind_some,
      heapUnlock, pointer_sub, modifyHeader_eq writeHeader_headers_self, writeHeader_twice]
    rfl

theorem moveTo_spec (hl : Linked h none l none) (ho : Ordered l) (hx : x ∈ l) (hd : d ∈ l)
    (hne : x ≠ d) (hsize : x.size ≤ d.size) (href : d.updateRef = .absolute none) :
    ∃ h', h.moveTo x.address d.pointer (x.size - sizeofHeapHeader) = some h' ∧
      Linked h' none ((l.map (exchange x x.vacated)).map
        (exchange d (d.tenanted x.updateRef))) none ∧
      (∀ y, (¬ ∃ c ∈ l, c.HeaderAt y) → ¬ (d.address ≤ y ∧ y < d.finish) →
        h'.bytes y = h.bytes y) ∧
      (∀ i, sizeofHeapHeader + i < x.size →
        h'.bytes (d.pointer + i) = h.bytes (x.pointer + i)) ∧
      h'.relocations = h.relocations ++ [⟨x.pointer, d.pointer, x.updateRef⟩] ∧
      h'.usedMemory = h.usedMemory ∧ h'.totalMemory = h.totalMemory ∧
      h'.heapBase = h.heapBase := by
  have hxlarger := ho.larger x hx
  have hdlarger := ho.larger d hd
  have hcopy := h.memcpy_edits d.pointer x.pointer (x.size - sizeofHeapHeader)
  set h₁ := h.memcpy d.pointer x.pointer (x.size - sizeofHeapHeader) with hh₁
  have hl₁ : Linked h₁ none l none := by
    refine hl.edits hcopy ?_
    intro c hc y hy hw
    have hclarger := ho.larger c hc
    unfold Block.HeaderAt at hy
    unfold Block.pointer at hw
    rcases ho.apart hc hd with rfl | hlt | hlt
    · omega
    · unfold Block.finish at hlt
      omega
    · unfold Block.finish at hlt
      omega
  obtain ⟨next, prev, hheader₁, hwrite₁⟩ := hl₁.exchange ho hx
  have hl₂ := hwrite₁ x.vacated rfl
  have hedits₂ := h₁.writeHeader_edits x.address (x.vacated.contents next prev)
  set h₂ := h₁.writeHeader x.address (x.vacated.contents next prev) with hh₂
  have hd₂ : d ∈ l.map (exchange x x.vacated) :=
    List.mem_map.mpr ⟨d, hd, exchange_of_ne hne.symm⟩
  have ho₂ : Ordered (l.map (exchange x x.vacated)) :=
    ho.of_extents (exchange_extents ho hx rfl rfl)
  set h₃ : Heap := { h₂ with
    relocations := h₂.relocations ++ [⟨x.pointer, d.pointer, x.updateRef⟩] } with hh₃
  have hl₃ : Linked h₃ none (l.map (exchange x x.vacated)) none := hl₂.of_headers rfl
  obtain ⟨next', prev', hheader₃, hwrite₃⟩ := hl₃.exchange ho₂ hd₂
  have hedits₄ := h₃.writeHeader_edits d.address
    ((d.tenanted x.updateRef).contents next' prev')
  refine ⟨_, ?_, hwrite₃ (d.tenanted x.updateRef) rfl, ?_, ?_, ?_, rfl, rfl, rfl⟩
  · have hmodify : h₁.modifyHeader x.address
        (fun contents => { contents with oldKind := .available }) = some h₂ :=
      modifyHeader_eq hheader₁
    have hself : h₂.headers x.address = some (x.vacated.contents next prev) :=
      writeHeader_headers_self
    unfold moveTo
    simp only [Option.bind_eq_bind]
    refine (congrArg (fun h => Option.bind h _) hmodify).trans ?_
    rw [Option.bind_some, hself, Option.bind_some]
    exact heapSetUpdate_heapUnlock hheader₃ href x.updateRef
  · intro y hheaders hblock
    have hdy : ¬ d.HeaderAt y := fun hy => hheaders ⟨d, hd, hy⟩
    have hxy : ¬ x.HeaderAt y := fun hy => hheaders ⟨x, hx, hy⟩
    rw [hedits₄.bytes y hdy]
    refine (hedits₂.bytes y hxy).trans (hcopy.bytes y ?_)
    intro hw
    unfold Block.pointer at hw
    unfold Block.finish at hblock
    omega
  · intro i hi
    have hdi : ¬ (d.address ≤ d.pointer + i ∧
        d.pointer + i < d.address + sizeofHeapHeader) := by
      unfold Block.pointer
      omega
    have hxi : ¬ (x.address ≤ d.pointer + i ∧
        d.pointer + i < x.address + sizeofHeapHeader) := by
      unfold Block.pointer
      rcases ho.apart hx hd with heq | hlt | hlt
      · exact absurd heq hne
      · unfold Block.finish at hlt
        omega
      · unfold Block.finish at hlt
        omega
    rw [hedits₄.bytes _ hdi]
    refine (hedits₂.bytes _ hxi).trans ?_
    exact h.memcpy_bytes d.pointer x.pointer (by omega)
  · rfl

/-- The block from `a` to `e` that has just been allocated. -/
def Block.allocation (a e : Nat) : Block :=
  { address := a, size := e - a, kind := .immovable, oldKind := .available,
    updateRef := .absolute none }

/-- The headers of a run are replaced by a single one. -/
theorem merge_spec (hl : Linked h none (pre ++ run ++ post) none)
    (ho : Ordered (pre ++ run ++ post)) (hs : Spans a run e) (hne : run ≠ []) :
    ∃ contents h₁ h₂, h.headers a = some contents ∧
      h₁ = h.writeHeader a ((Block.allocation a e).contents (firstAddress post none)
        (lastAddress none pre)) ∧ contents.prev = lastAddress none pre ∧
      h₁.setPrev (firstAddress post none) a = some h₂ ∧
      Linked h₂ none (pre ++ Block.allocation a e :: post) none ∧
      Edits (Scratch a e (pre ++ post)) h h₂ ∧ h₂.usedMemory = h.usedMemory := by
  obtain ⟨b, rest, rfl⟩ := List.exists_cons_of_ne_nil hne
  obtain rfl : b.address = a := hs.1
  have hrest := hs.2
  have hblarger := ho.larger b (by simp)
  have hle := hrest.le
  have hbefore : ∀ c ∈ pre, ∀ y, c.HeaderAt y → y < b.address := by
    intro c hc y hy
    have happart := ho.append_left.before hc (c := b) (by simp)
    have hclarger := ho.larger c (by simp [hc])
    unfold Block.HeaderAt at hy
    unfold Block.finish at happart
    omega
  have hafter : ∀ c ∈ post, ∀ y, c.HeaderAt y → e ≤ y := by
    intro c hc y hy
    obtain ⟨d, hd, hde⟩ := hs.exists_last hne
    have happart := ho.before (List.mem_append_right pre hd) hc
    unfold Block.HeaderAt at hy
    omega
  have hself : h.headers b.address =
      some (b.contents (firstAddress (rest ++ post) none) (lastAddress none pre)) := by
    rw [List.append_assoc] at hl
    exact hl.contents
  have hparts := linked_append.mp hl
  have hedits₁ := h.writeHeader_edits b.address ((Block.allocation b.address e).contents
    (firstAddress post none) (lastAddress none pre))
  set h₁ := h.writeHeader b.address ((Block.allocation b.address e).contents
    (firstAddress post none) (lastAddress none pre)) with hh₁
  have hpost₁ := hparts.2.edits hedits₁ (fun c hc y hy hw => by
    have := hafter c hc y hy
    unfold Block.finish at hle
    omega)
  obtain ⟨h₂, hset, hpost₂, hedits₂, hused₂⟩ := setPrev_spec hpost₁ ho.append_right b.address
  refine ⟨_, h₁, h₂, hself, rfl, rfl, hset, ?_, ?_, hused₂⟩
  · rw [linked_append]
    refine ⟨?_, ?_, hpost₂⟩
    · refine ((linked_append.mp hparts.1).1.edits hedits₁ ?_).edits hedits₂ ?_
      · intro c hc y hy hw
        have := hbefore c hc y hy
        omega
      · rintro c hc y hy ⟨d, hd, hdy⟩
        have hcy := hbefore c hc y hy
        have hdy := hafter d hd y hdy
        unfold Block.finish at hle
        omega
    · refine (hedits₂.headers _ ?_).trans writeHeader_headers_self
      rintro y hy hyb ⟨d, hd, hdy⟩
      have hdy := hafter d hd y hdy
      unfold Block.finish at hle
      simp only [Block.allocation] at hy hyb
      omega
  · refine (hedits₁.mono ?_).trans (hedits₂.mono ?_)
    · intro x hx
      refine Or.inl ⟨hx.1, ?_⟩
      unfold Block.finish at hle
      omega
    · rintro x ⟨c, hc, hx⟩
      exact Or.inr ⟨c, List.mem_append_right pre hc, hx⟩

theorem last_contents (hl : Linked h none (pre ++ run ++ post) none) (hs : Spans a run e)
    (hlast : lastAddress none run = some last) :
    ∃ front b prev, run = front ++ [b] ∧ b.address = last ∧ b.finish = e ∧
      h.headers last = some (b.contents (firstAddress post none) prev) := by
  have hne : run ≠ [] := by
    rintro rfl
    simp [lastAddress] at hlast
  obtain ⟨front, b, rfl⟩ := List.eq_nil_or_concat run |>.resolve_left hne
  rw [List.concat_eq_append] at hl hs hlast ⊢
  obtain rfl : b.address = last := by simpa [lastAddress_append, lastAddress] using hlast
  obtain ⟨x, -, -, hx⟩ := spans_append.mp hs
  refine ⟨front, b, lastAddress none (pre ++ front), rfl, rfl, hx, ?_⟩
  have hshape : pre ++ (front ++ [b]) ++ post = (pre ++ front) ++ b :: post := by simp
  rw [hshape] at hl
  exact hl.contents

theorem occupy_eq {h h₁ h₂ : Heap} {contents endContents : HeapHeader} {s : Search}
    (hend : h.headers s.endHeader = some endContents)
    (hstart : h.headers s.startHeader = some contents)
    (hwrite : h₁ = h.writeHeader s.startHeader { contents with
      size := subSize (s.endHeader + endContents.size) s.startHeader
      kind := .immovable
      oldKind := .available
      updateRef := .absolute none
      next := endContents.next })
    (hset : h₁.setPrev endContents.next s.startHeader = some h₂) :
    h.occupy size s =
      ((if s.toMove = 0 then
          h₂.use (subSize (s.endHeader + endContents.size) s.startHeader)
        else h₂).splitHeader s.startHeader size).bind fun r =>
        (if r.2 then (r.1.headers (s.startHeader + size)).bind fun contents =>
            some (r.1.unuse contents.size)
          else some r.1).bind fun h => some (h, some (s.startHeader + sizeofHeapHeader)) := by
  subst hwrite
  unfold occupy
  rw [hend, Option.bind_eq_bind, Option.bind_some]
  simp only [Option.bind_eq_bind, Option.bind_some, modifyHeader_eq hstart, hset]
  congr 1
  funext ⟨h₃, excess⟩
  cases excess with
  | false => rfl
  | true => simp [Option.bind_assoc]

theorem occupy_spec {s : Search} (hl : Linked h none (pre ++ run ++ post) none)
    (hr : Room pre a e post) (hs : Spans a run e)
    (hlarger : ∀ b ∈ run, sizeofHeapHeader < b.size)
    (hfirst : firstAddress run none = some s.startHeader)
    (hlast : lastAddress none run = some s.endHeader) (hsize : a + size ≤ e)
    (hfree : total Block.free run = if s.toMove = 0 then e - a else 0) :
    ∃ h' b rest, h.occupy size s = some (h', some b.pointer) ∧
      Linked h' none (pre ++ (b :: rest) ++ post) none ∧ Spans a (b :: rest) e ∧
      (∀ c ∈ b :: rest, sizeofHeapHeader < c.size) ∧ size ≤ b.size ∧
      b.kind = .immovable ∧ b.updateRef = .absolute none ∧
      (∀ c ∈ rest, c.kind = .available) ∧
      surplus h' (pre ++ (b :: rest) ++ post) = surplus h (pre ++ run ++ post) ∧
      Edits (Scratch a e (pre ++ post)) h h' := by
  have hne : run ≠ [] := by
    rintro rfl
    simp [firstAddress] at hfirst
  have ho := hr.ordered hs hlarger
  obtain rfl : a = s.startHeader := by simpa [hs.firstAddress hne] using hfirst
  obtain ⟨c, hc⟩ := List.exists_mem_of_ne_nil run hne
  have hcmem := hs.mem hc
  have hclarger := hlarger c hc
  have hlong : sizeofHeapHeader < e - s.startHeader := by
    unfold Block.finish at hcmem
    omega
  have hbounded := hr.bounded
  obtain ⟨contents, h₁, h₂, hstart, hwrite, hprev, hset, hl₂, hedits₂, hused₂⟩ :=
    merge_spec hl ho hs hne
  obtain ⟨front, last, prev, rfl, haddress, hfinish, hend⟩ := last_contents hl hs hlast
  have hstartSize : subSize (s.endHeader + (last.contents (firstAddress post none) prev).size)
      s.startHeader = e - s.startHeader := by
    have hsum : s.endHeader + (last.contents (firstAddress post none) prev).size = e := by
      rw [← haddress]
      exact hfinish
    rw [hsum]
    exact subSize_of_le hs.le hbounded
  set b := Block.allocation s.startHeader e with hb
  have hbspan : Spans s.startHeader [b] e := by
    have hle := hs.le
    refine ⟨rfl, ?_⟩
    simp only [Spans, Block.finish, hb, Block.allocation]
    omega
  have hblarger : ∀ c ∈ [b], sizeofHeapHeader < c.size := by
    intro c hc
    obtain rfl := List.mem_singleton.mp hc
    exact hlong
  have hbordered : Ordered (pre ++ b :: post) := by simpa using hr.ordered hbspan hblarger
  set h₃ := if s.toMove = 0 then h₂.use (e - s.startHeader) else h₂ with hh₃
  have hl₃ : Linked h₃ none (pre ++ b :: post) none := by
    refine hl₂.of_headers ?_
    rw [hh₃]
    split_ifs <;> rfl
  have hedits₃ : Edits (Scratch s.startHeader e (pre ++ post)) h h₃ := by
    rw [hh₃]
    split_ifs
    · exact hedits₂.trans (Edits.usedMemory _ h₂ _)
    · exact hedits₂
  -- the whole run is in use now
  have hused₃ : ∀ rest, subSize h₃.availableMemory rest =
      subSize h.availableMemory (rest + total Block.free (front ++ [last])) := by
    intro rest
    rw [hfree, hh₃]
    split_ifs
    · simp only [availableMemory, use, hedits₂.totalMemory, hused₂]
      exact subSize_use h.totalMemory h.usedMemory rest (e - s.startHeader)
    · simp only [availableMemory, hedits₂.totalMemory, hused₂, Nat.add_zero]
  have hpieces : ∀ l, total Block.free (pre ++ l ++ post) =
      total Block.free pre + total Block.free post + total Block.free l := by
    intro l
    simp only [total_append]
    omega
  have hbfree : b.free = 0 := rfl
  have hset' : h₁.setPrev (last.contents (firstAddress post none) prev).next s.startHeader =
      some h₂ := hset
  have hwrite' : h₁ = h.writeHeader s.startHeader { contents with
      size := subSize (s.endHeader + (last.contents (firstAddress post none) prev).size)
        s.startHeader
      kind := .immovable
      oldKind := .available
      updateRef := .absolute none
      next := (last.contents (firstAddress post none) prev).next } := by
    rw [hwrite, hstartSize]
    simp only [Block.contents, hb, Block.allocation, hprev]
  have heq : h.occupy size s = _ := occupy_eq hend hstart hwrite' hset'
  rw [hstartSize] at heq
  rcases splitHeader_spec hl₃ hbordered size with
    ⟨hsplit, hwhy⟩ | ⟨hmore, hless, h₄, hsplit, hl₄, hedits₄, hused₄⟩
  · refine ⟨h₃, b, [], ?_, by simpa using hl₃, hbspan, hblarger, ?_, rfl, rfl, by simp, ?_,
      hedits₃⟩
    · rw [heq]
      refine (congrArg (fun r => Option.bind r _) hsplit).trans ?_
      rfl
    · show size ≤ e - s.startHeader
      omega
    · unfold surplus
      rw [hpieces, hpieces, hused₃]
      simp [hbfree]
  · have hcut : (b.cut size).free = 0 := rfl
    have hremainder : (b.remainder size).free = (b.remainder size).size := rfl
    refine ⟨h₄.unuse (b.remainder size).size, b.cut size, [b.remainder size], ?_, ?_, ?_, ?_, ?_,
      rfl, rfl, ?_, ?_, ?_⟩
    · rw [heq]
      refine (congrArg (fun r => Option.bind r _) hsplit).trans ?_
      have hcontents : h₄.headers (s.startHeader + size) =
          some ((b.remainder size).contents (firstAddress post none) (some b.address)) :=
        (linked_append.mp hl₄).2.2.1
      simp [hcontents, Block.contents, Block.pointer, Block.cut, hb, Block.allocation]
    · have hshape : pre ++ [b.cut size, b.remainder size] ++ post =
          pre ++ b.cut size :: b.remainder size :: post := by simp
      rw [hshape]
      exact hl₄.of_headers rfl
    · have hle := hs.le
      refine ⟨rfl, ?_, ?_⟩
      · simp [Block.finish, Block.remainder, Block.cut]
      · simp only [Spans, Block.finish, Block.remainder, hb, Block.allocation] at hless ⊢
        omega
    · intro c hc
      rcases List.mem_cons.mp hc with rfl | hc
      · exact hmore
      · obtain rfl := List.mem_singleton.mp hc
        simp only [Block.remainder]
        omega
    · exact Nat.le_refl size
    · intro c hc
      obtain rfl := List.mem_singleton.mp hc
      rfl
    · have hunuse : ∀ rest, subSize (h₄.unuse (b.remainder size).size).availableMemory
          (rest + (b.remainder size).size) = subSize h₃.availableMemory rest := by
        intro rest
        simp only [availableMemory, unuse, hedits₄.totalMemory, hused₄]
        exact subSize_unuse h₃.totalMemory h₃.usedMemory rest _
      unfold surplus
      rw [hpieces, hpieces]
      simp only [total_cons, total_nil, hcut, hremainder, Nat.zero_add, Nat.add_zero]
      rw [hunuse, hused₃]
    · refine hedits₃.trans ((hedits₄.mono ?_).trans (Edits.usedMemory _ h₄ _))
      rintro x (hx | hx)
      · have hle := hs.le
        simp only [Block.finish, hb, Block.allocation] at hx
        exact Or.inl ⟨hx.1, by omega⟩
      · exact Or.inr hx

end Cenix.Heap
