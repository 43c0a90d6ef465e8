import Cenix.Heap.Fuel

namespace Cenix.Heap

/-! When the search loop of `heap_alloc` is left. -/

/-- The size of the block, when it is in use. -/
def Block.used (b : Block) : Nat :=
  if b.kind = .available then 0 else b.size

/-- `used_memory` accounts for the blocks that are in use, and what is left of
`total_memory` for the available ones. -/
structure Consistent (h : Heap) (l : List Block) : Prop where
  used : total Block.used l ≤ h.usedMemory
  free : h.usedMemory + total Block.free l ≤ h.totalMemory
  bounded : h.totalMemory < 2 ^ 32

/-- What is left of this while blocks are marked immovable for a time. -/
structure Accounted (h : Heap) (l : List Block) : Prop where
  free : total Block.free l ≤ h.availableMemory
  bounded : h.availableMemory + total Block.size l < 2 ^ 32 + total Block.free l

theorem used_add_free (l : List Block) :
    total Block.used l + total Block.free l = total Block.size l := by
  induction l with
  | nil => rfl
  | cons b l ih =>
      have hb : b.used + b.free = b.size := by
        unfold Block.used Block.free
        split_ifs <;> omega
      simp only [total_cons]
      omega

theorem Consistent.accounted (hc : Consistent h l) : Accounted h l := by
  have hused := hc.used
  have hfree := hc.free
  have hsum := used_add_free l
  have havailable : h.availableMemory = h.totalMemory - h.usedMemory :=
    subSize_of_le (by omega) hc.bounded
  have hbounded := hc.bounded
  constructor <;> omega

theorem Accounted.evolves (ha : Accounted h l) (hsize : total Block.size l' = total Block.size l)
    (hsurplus : surplus h' l' = surplus h l) : Accounted h' l' := by
  have hsum := used_add_free l
  have hsum' := used_add_free l'
  have hlt : h.availableMemory < 2 ^ 32 := subSize_lt
  have hlt' : h'.availableMemory < 2 ^ 32 := subSize_lt
  obtain ⟨hfree, hbounded⟩ := ha
  unfold surplus subSize at hsurplus
  constructor <;> omega

/-- The search has come to a movable block that is large enough, but larger than
what is available. -/
def Trapped (h : Heap) (size : Nat) (s : Search) : Prop :=
  ∃ contents, h.headers s.endHeader = some contents ∧ contents.kind = .movable ∧
    size ≤ contents.size ∧ h.availableMemory < contents.size

/-- The search for a run of the given size comes to `s`. -/
inductive Searches (h : Heap) (size : Nat) : Search → Prop
  | start (hbase : h.heapBase = some base) (hcontents : h.headers base = some contents)
      (havailable : ¬ h.availableMemory < size) :
      Searches h size (h.searchFrom base contents.size)
  | round (hs : Searches h size s) (hround : h.searchRound size s = some (.goesOn s')) :
      Searches h size s'

theorem Searches.searching (hw : WellFormed h l) (hs : Searches h size s) :
    ∃ P R E Q, Searching h l size s P R E Q := by
  induction hs with
  | start hbase hcontents _ =>
      obtain ⟨E, Q, -, hbase', hcontents', hstart⟩ := Searching.start hw size
      obtain rfl := Option.some.inj (hbase'.symm.trans hbase)
      obtain rfl := Option.some.inj (hcontents'.symm.trans hcontents)
      exact ⟨[], [], E, Q, hstart⟩
  | round _ hround ih =>
      obtain ⟨P, R, E, Q, hs⟩ := ih
      rcases searchRound_spec hw hs with heq | ⟨s₁, heq, -⟩ | ⟨s₁, P', R', E', Q', heq, hs', -⟩
      · rw [heq] at hround
        cases hround
      · rw [heq] at hround
        cases hround
      · rw [heq] at hround
        cases hround
        exact ⟨P', R', E', Q', hs'⟩

theorem search_succ (h : Heap) (size fuel : Nat) (s : Search) :
    h.search size (fuel + 1) s = (h.searchRound size s).bind fun
      | .goesOn s => h.search size fuel s
      | .found s => some (some s)
      | .gaveUp => some none :=
  rfl

/-- A search that is never trapped is left. The blocks it has not come to and the
length of the run decrease together, even when it starts over. -/
theorem Searching.returns (hw : WellFormed h l) (hs : Searching h l size s P R E Q)
    (hcomes : Searches h size s)
    (hfree : ∀ s, Searches h size s → ¬ Trapped h size s) :
    ∃ fuel found, h.search size fuel s = some found := by
  induction hm : 2 * Q.length + R.length using Nat.strongRecOn generalizing s P R E Q with
  | ind m ih =>
      rcases searchRound_spec hw hs with heq | ⟨s₁, heq, -⟩ |
        ⟨s₁, P', R', E', Q', heq, hs', hless | ⟨rfl, -, htraps⟩⟩
      · exact ⟨1, none, by rw [search_succ, heq]; rfl⟩
      · exact ⟨1, some s₁, by rw [search_succ, heq]; rfl⟩
      · obtain ⟨fuel, found, hfound⟩ := ih _ (hm ▸ hless) hs' (hcomes.round heq) rfl
        exact ⟨fuel + 1, found, by rw [search_succ, heq]; exact hfound⟩
      · have hl := hw.linked
        rw [hs.blocks] at hl
        refine absurd ?_ (hfree s hcomes)
        exact ⟨_, hs.endHeader ▸ hl.contents, htraps.kind, htraps.large, htraps.stuck⟩

/-- From a block that traps it the search starts over at that block. -/
theorem Searching.trapped_round (hw : WellFormed h l) (ha : Accounted h l)
    (hs : Searching h l size s P R E Q) (htrapped : Trapped h size s) :
    ∃ s', h.searchRound size s = some (.goesOn s') ∧ Trapped h size s' := by
  obtain ⟨contents, hcontents, hkind, hlarge, hstuck⟩ := htrapped
  have hl := hw.linked
  rw [hs.blocks] at hl
  have hE := hs.endHeader ▸ hl.contents
  obtain rfl := Option.some.inj (hE.symm.trans hcontents)
  have hkind' : E.kind = .movable := hkind
  have hlarge' : size ≤ E.size := hlarge
  have hstuck' : h.availableMemory < E.size := hstuck
  have hmovable : E.kind ≠ .immovable := by
    rw [hkind']
    decide
  obtain ⟨-, hend, htotal, hmove, havailable⟩ := countBlock_spec hs hw.ordered hmovable
    (firstAddress Q none) (lastAddress none (P ++ R))
  set next := firstAddress Q none
  set prev := lastAddress none (P ++ R)
  have henough : size ≤ (countBlock s (E.contents next prev)).totalSize := by
    rw [htotal, hs.totalSize]
    omega
  have hmany : ¬ (countBlock s (E.contents next prev)).toMove ≤
      (countBlock s (E.contents next prev)).availableMemory := by
    have hburden : E.burden = E.size := if_pos hkind'
    have hfree : total Block.free (R ++ [E]) ≤ h.availableMemory := by
      have hall := ha.free
      rw [hs.blocks] at hall
      simp only [total_append, total_cons, total_nil] at hall ⊢
      omega
    rw [hmove, havailable, subSize_of_le hfree subSize_lt, total_append, total_cons, hburden]
    omega
  refine ⟨h.searchFrom E.address E.size, ?_, _, hl.contents, hkind, hlarge, hstuck⟩
  unfold searchRound
  rw [hE, Option.bind_eq_bind, Option.bind_some]
  refine (if_neg hmovable).trans ((if_pos henough).trans ((if_neg hmany).trans ?_))
  rw [hend, hs.endHeader]
  rfl

theorem search_trapped (hw : WellFormed h l) (ha : Accounted h l) (hs : Searches h size s)
    (htrapped : Trapped h size s) : h.search size fuel s = none := by
  induction fuel generalizing s with
  | zero => rfl
  | succ fuel ih =>
      obtain ⟨P, R, E, Q, hsearching⟩ := hs.searching hw
      obtain ⟨s', hround, htrapped'⟩ := hsearching.trapped_round hw ha htrapped
      rw [search_succ, hround]
      exact ih (hs.round hround) htrapped'

/-- A search that comes to where it is not left is not left. -/
theorem Searches.diverges (hs : Searches h size s) (hnever : ∀ fuel, h.search size fuel s = none)
    (hbase : h.heapBase = some base) (hcontents : h.headers base = some contents) :
    h.search size fuel (h.searchFrom base contents.size) = none := by
  induction hs generalizing fuel with
  | start hbase' hcontents' _ =>
      obtain rfl := Option.some.inj (hbase'.symm.trans hbase)
      obtain rfl := Option.some.inj (hcontents'.symm.trans hcontents)
      exact hnever fuel
  | round _ hround ih =>
      refine ih fun fuel => ?_
      cases fuel with
      | zero => rfl
      | succ fuel =>
          rw [search_succ, hround]
          exact hnever fuel

/-- A search of the call of `heap_alloc` comes to a block that traps it. -/
def GetsTrapped (h : Heap) (actualSize : Nat) : Prop :=
  ∃ s, Searches h (roundSize actualSize) s ∧ Trapped h (roundSize actualSize) s

theorem Searches.enough (hs : Searches h size s) : ¬ h.availableMemory < size := by
  induction hs with
  | start _ _ havailable => exact havailable
  | round _ _ ih => exact ih

theorem GetsTrapped.diverges (hw : WellFormed h l) (ha : Accounted h l)
    (htrapped : GetsTrapped h n) (fuel : Nat) : heapAlloc fuel h n = none := by
  obtain ⟨s, hs, htrapped⟩ := htrapped
  cases fuel with
  | zero => rfl
  | succ fuel =>
      obtain ⟨E, Q, -, hbase, hheader, -⟩ := Searching.start hw (roundSize n)
      have hnever : h.search (roundSize n) fuel (h.searchFrom _ _) = none :=
        hs.diverges (fun fuel => search_trapped hw ha hs htrapped) hbase hheader
      rw [heapAlloc_succ, hbase, Option.bind_some, hheader, Option.bind_some,
        if_neg hs.enough]
      exact Option.bind_eq_none_iff.mpr fun _ hfound => by simp [hnever] at hfound

end Cenix.Heap
