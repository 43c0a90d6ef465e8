import Cenix.Heap.Moving
import Mathlib.Data.List.Count

namespace Cenix.Heap

/-! What becomes of the blocks that are in use. -/

variable {bytes bytes' bytes'' : Nat → Option UInt8}

/-- Where a pointer leads after the relocations. -/
def landing : List Relocation → Nat → Nat
  | [], pointer => pointer
  | m :: moves, pointer => landing moves (if m.srcPtr = pointer then m.destPtr else pointer)

/-- The relocations of the block that `pointer` is for. -/
def itinerary : List Relocation → Nat → List Relocation
  | [], _ => []
  | m :: moves, pointer =>
      if m.srcPtr = pointer then m :: itinerary moves m.destPtr
      else itinerary moves pointer

theorem landing_append :
    landing (moves ++ later) pointer = landing later (landing moves pointer) := by
  induction moves generalizing pointer with
  | nil => rfl
  | cons m moves ih => exact ih

theorem itinerary_append : itinerary (moves ++ later) pointer =
    itinerary moves pointer ++ itinerary later (landing moves pointer) := by
  induction moves generalizing pointer with
  | nil => rfl
  | cons m moves ih =>
      simp only [List.cons_append, itinerary, landing]
      split_ifs
      · simp [ih]
      · exact ih

theorem landing_eq_last : landing moves pointer =
    ((itinerary moves pointer).getLast?.map Relocation.destPtr).getD pointer := by
  induction moves generalizing pointer with
  | nil => rfl
  | cons m moves ih =>
      simp only [landing, itinerary]
      split_ifs
      · rw [ih, List.getLast?_cons]
        cases (itinerary moves m.destPtr).getLast? <;> rfl
      · exact ih

theorem landing_of_itinerary_nil (h : itinerary moves pointer = []) :
    landing moves pointer = pointer := by
  rw [landing_eq_last, h]
  rfl

/-- `b'` has room for what is in `b`, and holds it. -/
structure SameData (bytes bytes' : Nat → Option UInt8) (b b' : Block) : Prop where
  size : b.size ≤ b'.size
  data : ∀ i, sizeofHeapHeader + i < b.size → bytes' (b'.pointer + i) = bytes (b.pointer + i)

theorem SameData.trans (first : SameData bytes bytes' b b')
    (second : SameData bytes' bytes'' b' b'') : SameData bytes bytes'' b b'' where
  size := first.size.trans second.size
  data := fun i hi => (second.data i (hi.trans_le first.size)).trans (first.data i hi)

theorem SameData.congr (hsame : SameData bytes bytes' b b') (haddress : c.address = b.address)
    (hsize : c.size = b.size) (haddress' : c'.address = b'.address)
    (hsize' : c'.size = b'.size) : SameData bytes bytes' c c' where
  size := by rw [hsize, hsize']; exact hsame.size
  data := by
    intro i hi
    unfold Block.pointer
    rw [haddress, haddress']
    exact hsame.data i (hsize ▸ hi)

def Block.Live (b : Block) : Prop :=
  b.kind ≠ .available

def movables (l : List Block) : Nat :=
  l.countP fun b => b.kind = .movable

@[simp] theorem movables_append : movables (l ++ m) = movables l + movables m :=
  List.countP_append

/-- From the blocks `l` to the blocks `l'`: the same bytes are covered, the
immovable blocks stay, and the movable ones follow the relocations, which go to
their `update_ref`. -/
structure Evolution (bytes : Nat → Option UInt8) (l : List Block)
    (bytes' : Nat → Option UInt8) (l' : List Block) (moves : List Relocation) : Prop where
  covered : ∀ x, Covered l' x ↔ Covered l x
  size : total Block.size l' = total Block.size l
  movables : movables l' = movables l
  immovable : ∀ b ∈ l, b.kind = .immovable →
    b ∈ l' ∧ itinerary moves b.pointer = [] ∧ SameData bytes bytes' b b
  movable : ∀ b ∈ l, b.kind = .movable → ∃ b' ∈ l', b'.pointer = landing moves b.pointer ∧
    b'.kind = .movable ∧ b'.updateRef = b.updateRef ∧ SameData bytes bytes' b b' ∧
    ∀ m ∈ itinerary moves b.pointer, m.updateRef = b.updateRef
  injective : ∀ b ∈ l, ∀ c ∈ l, b.Live → c.Live →
    landing moves b.pointer = landing moves c.pointer → b = c

theorem Block.pointer_inj {b c : Block} (heq : b.pointer = c.pointer) : b.address = c.address :=
  Nat.add_right_cancel heq

theorem Evolution.refl (ho : Ordered l) : Evolution bytes l bytes l [] where
  covered := fun _ => Iff.rfl
  size := rfl
  movables := rfl
  immovable := fun _ hb _ => ⟨hb, rfl, Nat.le_refl _, fun _ _ => rfl⟩
  movable := fun b hb hkind =>
    ⟨b, hb, rfl, hkind, rfl, ⟨Nat.le_refl _, fun _ _ => rfl⟩, fun _ hm => nomatch hm⟩
  injective := fun _ hb _ hc _ _ heq => ho.eq_of_address hb hc (Block.pointer_inj heq)

/-- Where a block in use is in the end. -/
theorem Evolution.live (he : Evolution bytes l bytes' l' moves) (hb : b ∈ l)
    (hlive : b.Live) : ∃ b' ∈ l', b'.pointer = landing moves b.pointer ∧ b'.kind = b.kind := by
  cases hkind : b.kind with
  | available => exact absurd hkind hlive
  | immovable =>
      obtain ⟨hmem, hnil, -⟩ := he.immovable b hb hkind
      exact ⟨b, hmem, (landing_of_itinerary_nil hnil).symm, hkind⟩
  | movable =>
      obtain ⟨b', hmem, hpointer, hkind', -⟩ := he.movable b hb hkind
      exact ⟨b', hmem, hpointer, hkind'⟩

theorem Evolution.trans (first : Evolution bytes l bytes' l' moves)
    (second : Evolution bytes' l' bytes'' l'' later) :
    Evolution bytes l bytes'' l'' (moves ++ later) where
  covered := fun x => (second.covered x).trans (first.covered x)
  size := second.size.trans first.size
  movables := second.movables.trans first.movables
  immovable := by
    intro b hb hkind
    obtain ⟨hmem, hnil, hdata⟩ := first.immovable b hb hkind
    obtain ⟨hmem', hnil', hdata'⟩ := second.immovable b hmem hkind
    refine ⟨hmem', ?_, hdata.trans hdata'⟩
    rw [itinerary_append, hnil, landing_of_itinerary_nil hnil, hnil']
    rfl
  movable := by
    intro b hb hkind
    obtain ⟨b', hmem, hpointer, hkind', href, hdata, hmoves⟩ := first.movable b hb hkind
    obtain ⟨b'', hmem', hpointer', hkind'', href', hdata', hmoves'⟩ :=
      second.movable b' hmem hkind'
    refine ⟨b'', hmem', ?_, hkind'', href'.trans href, hdata.trans hdata', ?_⟩
    · rw [hpointer', hpointer, landing_append]
    · intro m hm
      rw [itinerary_append, ← hpointer] at hm
      rcases List.mem_append.mp hm with hm | hm
      · exact hmoves m hm
      · exact (hmoves' m hm).trans href
  injective := by
    intro b hb c hc hlive hlive' heq
    obtain ⟨b', hb', hpointer, hkind⟩ := first.live hb hlive
    obtain ⟨c', hc', hpointer', hkind'⟩ := first.live hc hlive'
    rw [landing_append, landing_append, ← hpointer, ← hpointer'] at heq
    have hsame := second.injective b' hb' c' hc' (by rwa [Block.Live, hkind])
      (by rwa [Block.Live, hkind']) heq
    refine first.injective b hb c hc hlive hlive' ?_
    rw [← hpointer, ← hpointer', hsame]

/-- Nobody who was there before has come to `pointer`. -/
def Fresh (l : List Block) (moves : List Relocation) (pointer : Nat) : Prop :=
  ∀ b ∈ l, b.Live → landing moves b.pointer ≠ pointer

theorem Evolution.fresh (he : Evolution bytes l bytes' l' moves)
    (hfresh : Fresh l' later pointer) : Fresh l (moves ++ later) pointer := by
  intro b hb hlive heq
  obtain ⟨b', hb', hpointer, hkind⟩ := he.live hb hlive
  rw [landing_append, ← hpointer] at heq
  exact hfresh b' hb' (by rwa [Block.Live, hkind]) heq

/-- Writing headers and in a range between blocks leaves the data of the blocks. -/
theorem Edits.sameData (he : Edits (Scratch a e (pre ++ post)) h h')
    (hr : Room pre a e post) (hs : Spans a run e)
    (hlarger : ∀ b ∈ run, sizeofHeapHeader < b.size) (hb : b ∈ pre ++ post) :
    SameData h.bytes h'.bytes b b where
  size := Nat.le_refl _
  data := by
    intro i hi
    have ho := hr.ordered hs hlarger
    have hmem : ∀ c ∈ pre ++ post, c ∈ pre ++ run ++ post := by
      intro c hc
      rcases List.mem_append.mp hc with hc | hc <;> simp [hc]
    apply he.bytes
    rintro (hrange | ⟨c, hc, hcx⟩)
    · unfold Block.pointer at hrange
      rcases List.mem_append.mp hb with hb | hb
      · have hbefore := hr.before b hb
        unfold Block.finish at hbefore
        omega
      · have hafter := hr.after b hb
        omega
    · unfold Block.HeaderAt Block.pointer at hcx
      have hclarger := ho.larger c (hmem c hc)
      rcases ho.apart (hmem b hb) (hmem c hc) with rfl | hlt | hlt
      · omega
      · unfold Block.finish at hlt
        omega
      · unfold Block.finish at hlt
        omega

theorem movables_eq_zero (h : ∀ b ∈ l, b.kind ≠ .movable) : movables l = 0 := by
  refine List.countP_eq_zero.mpr ?_
  intro b hb
  simpa using h b hb

/-- An available run is divided anew, perhaps with new immovable blocks. -/
theorem Evolution.of_available (hr : Room pre a e post) (hs : Spans a run e)
    (hs' : Spans a run' e) (hlarger : ∀ b ∈ run, sizeofHeapHeader < b.size)
    (hrun : ∀ b ∈ run, b.kind = .available) (hrun' : ∀ b ∈ run', b.kind ≠ .movable)
    (hdata : ∀ b ∈ pre ++ post, SameData bytes bytes' b b) :
    Evolution bytes (pre ++ run ++ post) bytes' (pre ++ run' ++ post) [] where
  covered := by
    intro x
    simp only [covered_append, hs.covered_iff, hs'.covered_iff]
  size := by
    have hsize := hs.size
    have hsize' := hs'.size
    simp only [total_append]
    omega
  movables := by
    have hnone : Heap.movables run = 0 :=
      movables_eq_zero fun b hb => by rw [hrun b hb]; decide
    have hnone' : Heap.movables run' = 0 := movables_eq_zero hrun'
    simp only [movables_append, hnone, hnone']
  immovable := by
    intro b hb hkind
    have hmem : b ∈ pre ++ post := by
      rcases List.mem_append.mp hb with hb | hb
      · refine List.mem_append_left post ((List.mem_append.mp hb).resolve_right fun hb => ?_)
        rw [hrun b hb] at hkind
        cases hkind
      · exact List.mem_append_right pre hb
    refine ⟨?_, rfl, hdata b hmem⟩
    rcases List.mem_append.mp hmem with hmem | hmem <;> simp [hmem]
  movable := by
    intro b hb hkind
    have hmem : b ∈ pre ++ post := by
      rcases List.mem_append.mp hb with hb | hb
      · refine List.mem_append_left post ((List.mem_append.mp hb).resolve_right fun hb => ?_)
        rw [hrun b hb] at hkind
        cases hkind
      · exact List.mem_append_right pre hb
    refine ⟨b, ?_, rfl, hkind, rfl, hdata b hmem, fun _ hm => nomatch hm⟩
    rcases List.mem_append.mp hmem with hmem | hmem <;> simp [hmem]
  injective := fun _ hb _ hc _ _ heq =>
    (hr.ordered hs hlarger).eq_of_address hb hc (Block.pointer_inj heq)

end Cenix.Heap
