import Cenix.Heap.Freeing

namespace Cenix.Heap

/-! Memory between the blocks that belongs to none of them. -/

/-- Bytes between blocks that belong to none lie at one of the blocks `reserved`. -/
def GapsReserved (reserved l : List Block) : Prop :=
  ∀ x y, Covered l x → Covered l y → x + 1 < y → (∀ z, x < z → z < y → ¬Covered l z) →
    (∃ b ∈ reserved, b.finish = x + 1) ∨ ∃ b ∈ reserved, b.address = y

theorem GapsReserved.congr {reserved : List Block} (hg : GapsReserved reserved l)
    (hcovered : ∀ x, Covered m x ↔ Covered l x) : GapsReserved reserved m :=
  fun x y hx hy hxy hgap => hg x y ((hcovered x).mp hx) ((hcovered y).mp hy) hxy
    fun z hxz hzy hz => hgap z hxz hzy ((hcovered z).mpr hz)

/-- Without gaps, nothing needs to be reserved. -/
theorem gapsReserved_of_chain {reserved : List Block} (ho : Ordered l)
    (hchain : l.IsChain fun b c => b ∈ reserved ∨ c ∈ reserved ∨ b.finish = c.address) :
    GapsReserved reserved l := by
  rintro x y ⟨b, hb, hbx, hxb⟩ ⟨c, hc, hcy, hyc⟩ hxy hgap
  have hbend : b.finish = x + 1 := by
    by_contra hne
    exact hgap (x + 1) (by omega) hxy ⟨b, hb, by omega, by omega⟩
  have hcstart : c.address = y := by
    by_contra hne
    exact hgap (y - 1) (by omega) (by omega) ⟨c, hc, by omega, by omega⟩
  obtain ⟨front, back, rfl⟩ := List.append_of_mem hb
  cases back with
  | nil =>
      rcases List.mem_append.mp hc with hc | hc
      · have hbefore := ho.before hc (c := b) (by simp)
        omega
      · have heq := List.mem_singleton.mp hc
        rw [heq] at hcstart
        omega
  | cons d back =>
      have hbd := (List.isChain_iff_forall_rel_of_append_cons_cons.mp hchain)
        (rfl : front ++ b :: d :: back = front ++ b :: d :: back)
      have hd := ho.append_right.head_before (c := d) (by simp)
      have hdlarger := ho.larger d (by simp)
      have hcd : d.address = y := by
        by_contra hne
        have hdx : Covered (front ++ b :: d :: back) d.address :=
          ⟨d, by simp, Nat.le_refl _, by unfold Block.finish; omega⟩
        rcases Nat.lt_or_gt_of_ne hne with hlt | hgt
        · exact hgap d.address (by omega) hlt hdx
        · -- `c` would be between `b` and the block behind it
          have hcd : c.finish ≤ d.address ∨ d.finish ≤ c.address ∨ c = d := by
            rcases ho.apart hc (c := d) (by simp) with heq | hlt | hlt
            · exact .inr (.inr heq)
            · exact .inl hlt
            · exact .inr (.inl hlt)
          simp only [List.mem_append, List.mem_cons] at hc
          rcases hc with hc | rfl | rfl | hc
          · have hbefore := ho.before hc (c := b) (by simp)
            omega
          · omega
          · omega
          · have hbehind := ho.append_right.tail.head_before hc
            unfold Block.finish at hbehind
            omega
      rcases hbd with hbres | hdres | hcontiguous
      · exact .inl ⟨b, hbres, hbend⟩
      · exact .inr ⟨d, hdres, hcd⟩
      · omega

/-- Neighbours that are not reserved are contiguous. -/
theorem GapsReserved.neighbours {reserved : List Block} (hg : GapsReserved reserved l)
    (ho : Ordered l) (hreserved : ∀ b ∈ reserved, b ∈ l) (hl : l = front ++ b :: c :: back) :
    b ∈ reserved ∨ c ∈ reserved ∨ b.finish = c.address := by
  subst hl
  have hb := ho.larger b (by simp)
  have hc := ho.larger c (by simp)
  have hbc := ho.append_right.head_before (c := c) (by simp)
  by_cases hcontiguous : b.finish = c.address
  · exact .inr (.inr hcontiguous)
  · have hgap : ∀ z, b.finish - 1 < z → z < c.address →
        ¬Covered (front ++ b :: c :: back) z := by
      rintro z hbz hzc ⟨d, hd, hdz, hzd⟩
      simp only [List.mem_append, List.mem_cons] at hd
      rcases hd with hd | rfl | rfl | hd
      · have hbefore := ho.before hd (c := b) (by simp)
        unfold Block.finish at *
        omega
      · omega
      · omega
      · have hbehind := ho.append_right.tail.head_before hd
        unfold Block.finish at *
        omega
    have hgap' := hg (b.finish - 1) c.address
      ⟨b, by simp, by unfold Block.finish; omega, by unfold Block.finish; omega⟩
      ⟨c, by simp, Nat.le_refl _, by unfold Block.finish; omega⟩
      (by unfold Block.finish at *; omega) hgap
    rcases hgap' with ⟨d, hd, hdb⟩ | ⟨d, hd, hdc⟩
    · have hdl := hreserved d hd
      have hdlarger := ho.larger d hdl
      rcases ho.apart hdl (c := b) (by simp) with rfl | hlt | hlt
      · exact .inl hd
      · unfold Block.finish at *
        omega
      · unfold Block.finish at *
        omega
    · obtain rfl := ho.eq_of_address (hreserved d hd) (by simp) hdc
      exact .inr (.inl hd)

theorem GapsReserved.adjoining {reserved : List Block} (hg : GapsReserved reserved l)
    (ho : Ordered l) (hreserved : ∀ b ∈ reserved, b ∈ l ∧ b.kind = .immovable) :
    l.IsChain Adjoining := by
  rw [List.isChain_iff_forall_rel_of_append_cons_cons]
  intro b c front back hl
  rcases hg.neighbours ho (fun b hb => (hreserved b hb).1) hl with hb | hc | hcontiguous
  · exact .inl (hreserved b hb).2
  · exact .inr (.inl (hreserved c hc).2)
  · exact .inr (.inr hcontiguous)

/-! Blocks that are joined. -/

theorem Joins.covered (hj : Joins b c) {x : Nat} :
    Covered (b.join c :: l) x ↔ Covered (b :: c :: l) x := by
  obtain ⟨-, -, hcontiguous⟩ := hj
  have hjoined : (b.join c).address ≤ x ∧ x < (b.join c).finish ↔
      (b.address ≤ x ∧ x < b.finish) ∨ (c.address ≤ x ∧ x < c.finish) := by
    unfold Block.join Block.finish at *
    simp only
    omega
  simp only [Covered, List.mem_cons, exists_eq_or_imp, hjoined, or_assoc]

theorem Joins.free (hj : Joins b c) : (b.join c).free = b.free + c.free := by
  obtain ⟨hb, hc, -⟩ := hj
  simp [Block.free, Block.join, hb, hc]

theorem joinLists_covered (front back : List Block) {x : Nat} :
    Covered (joinLists front back) x ↔ Covered (front ++ back) x := by
  fun_induction joinLists front back with
  | case1 back => rfl
  | case2 b => rfl
  | case3 b c back hj => exact hj.covered
  | case4 b c back hj => rfl
  | case5 b c front back ih =>
      simp only [Covered, List.cons_append, List.mem_cons, exists_eq_or_imp] at ih ⊢
      rw [ih]

theorem joinLists_free (front back : List Block) :
    total Block.free (joinLists front back) = total Block.free (front ++ back) := by
  fun_induction joinLists front back with
  | case1 back => rfl
  | case2 b => rfl
  | case3 b c back hj =>
      simp only [total_cons, hj.free, List.cons_append, List.nil_append]
      omega
  | case4 b c back hj => rfl
  | case5 b c front back ih =>
      simp only [total_cons, List.cons_append] at ih ⊢
      rw [ih]

/-- Blocks in use are not joined. -/
theorem mem_joinLists {front back : List Block} (hc : c ∈ front ++ back) (hlive : c.Live) :
    c ∈ joinLists front back := by
  fun_induction joinLists front back with
  | case1 back => exact hc
  | case2 b => exact hc
  | case3 b d back hj =>
      simp only [List.cons_append, List.nil_append, List.mem_cons] at hc
      rcases hc with rfl | rfl | hc
      · exact absurd hj.1 hlive
      · exact absurd hj.2.1 hlive
      · exact List.mem_cons_of_mem _ hc
  | case4 b d back hj => exact hc
  | case5 b d front back ih =>
      simp only [List.cons_append, List.mem_cons] at hc ih ⊢
      tauto

end Cenix.Heap
