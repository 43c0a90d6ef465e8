import Cenix.Heap.Chains
import Mathlib.Data.List.Chain
import Mathlib.Data.List.Infix

namespace Cenix.Heap

/-! Contiguous runs of blocks, and what lies on both sides of them. -/

/-- The blocks follow each other without a gap from `a` to `e`. -/
def Spans : Nat → List Block → Nat → Prop
  | a, [], e => a = e
  | a, b :: l, e => b.address = a ∧ Spans b.finish l e

theorem spans_append : Spans a (l ++ m) e ↔ ∃ x, Spans a l x ∧ Spans x m e := by
  induction l generalizing a with
  | nil => simp [Spans]
  | cons b l ih =>
      simp only [List.cons_append, Spans, ih]
      constructor
      · rintro ⟨hb, x, hl, hm⟩
        exact ⟨x, ⟨hb, hl⟩, hm⟩
      · rintro ⟨x, ⟨hb, hl⟩, hm⟩
        exact ⟨hb, x, hl, hm⟩

theorem Spans.le (hs : Spans a l e) : a ≤ e := by
  induction l generalizing a with
  | nil => exact Nat.le_of_eq hs
  | cons b l ih =>
      have htail := ih hs.2
      have hhead := hs.1
      unfold Block.finish at htail
      omega

theorem Spans.mem (hs : Spans a l e) (hb : b ∈ l) : a ≤ b.address ∧ b.finish ≤ e := by
  induction l generalizing a with
  | nil => cases hb
  | cons c l ih =>
      have hhead := hs.1
      rcases List.mem_cons.mp hb with rfl | hb
      · exact ⟨Nat.le_of_eq hhead.symm, hs.2.le⟩
      · have htail := ih hs.2 hb
        unfold Block.finish at htail
        unfold Block.finish
        omega

theorem Spans.sorted (hs : Spans a l e) : l.Pairwise fun b c => b.finish ≤ c.address := by
  induction l generalizing a with
  | nil => exact List.Pairwise.nil
  | cons b l ih =>
      exact List.pairwise_cons.mpr ⟨fun c hc => (hs.2.mem hc).1, ih hs.2⟩

theorem Spans.adjoining (hs : Spans a l e) : l.IsChain Adjoining := by
  induction l generalizing a with
  | nil => exact List.isChain_nil
  | cons b l ih =>
      rw [List.isChain_cons]
      refine ⟨?_, ih hs.2⟩
      intro c hc
      cases l with
      | nil => simp at hc
      | cons d l =>
          obtain rfl : d = c := by simpa using hc
          exact Or.inr (Or.inr hs.2.1.symm)

theorem Spans.firstAddress (hs : Spans a l e) (hne : l ≠ []) :
    firstAddress l after = some a := by
  cases l with
  | nil => exact absurd rfl hne
  | cons b l => exact congrArg some hs.1

theorem Spans.map {f : Block → Block} (hs : Spans a l e)
    (haddress : ∀ b ∈ l, (f b).address = b.address) (hsize : ∀ b ∈ l, (f b).size = b.size) :
    Spans a (l.map f) e := by
  induction l generalizing a with
  | nil => exact hs
  | cons b l ih =>
      refine ⟨(haddress b (by simp)).trans hs.1, ?_⟩
      have hfinish : (f b).finish = b.finish := by
        unfold Block.finish
        rw [haddress b (by simp), hsize b (by simp)]
      rw [hfinish]
      exact ih hs.2 (fun c hc => haddress c (by simp [hc])) fun c hc => hsize c (by simp [hc])

def total (f : Block → Nat) (l : List Block) : Nat :=
  (l.map f).sum

@[simp] theorem total_nil : total f [] = 0 :=
  rfl

@[simp] theorem total_cons : total f (b :: l) = f b + total f l := by
  simp [total]

@[simp] theorem total_append : total f (l ++ m) = total f l + total f m := by
  simp [total]

theorem total_map : total f (l.map g) = total (f ∘ g) l := by
  simp [total]

theorem total_congr (h : ∀ b ∈ l, f b = g b) : total f l = total g l := by
  simp [total, List.map_congr_left h]

theorem Spans.size (hs : Spans a l e) : a + total Block.size l = e := by
  induction l generalizing a with
  | nil => exact hs
  | cons b l ih =>
      have htail := ih hs.2
      have hhead := hs.1
      unfold Block.finish at htail
      simp only [total_cons]
      omega

/-- The byte at `x` belongs to a block. -/
def Covered (l : List Block) (x : Nat) : Prop :=
  ∃ b ∈ l, b.address ≤ x ∧ x < b.finish

theorem covered_append : Covered (l ++ m) x ↔ Covered l x ∨ Covered m x := by
  simp only [Covered, List.mem_append, or_and_right, exists_or]

theorem Spans.covered_iff (hs : Spans a l e) : Covered l x ↔ a ≤ x ∧ x < e := by
  induction l generalizing a with
  | nil =>
      have hae : a = e := hs
      constructor
      · rintro ⟨b, hb, -⟩
        cases hb
      · omega
  | cons b l ih =>
      have hhead := hs.1
      have hle := hs.2.le
      have hsplit : Covered (b :: l) x ↔ (b.address ≤ x ∧ x < b.finish) ∨ Covered l x := by
        simp [Covered]
      rw [hsplit, ih hs.2]
      unfold Block.finish at hle ⊢
      omega

/-- Between `pre` and `post` there is the room from `a` to `e` for blocks that may
adjoin both sides. -/
structure Room (pre : List Block) (a e : Nat) (post : List Block) : Prop where
  front : Ordered pre
  back : Ordered post
  before : ∀ b ∈ pre, b.finish ≤ a
  after : ∀ c ∈ post, e ≤ c.address
  bounded : e < 2 ^ 32
  frontAdjoining : pre.IsChain Adjoining
  backAdjoining : post.IsChain Adjoining
  left : ∀ b ∈ pre.getLast?, b.kind = .immovable ∨ b.finish = a
  right : ∀ c ∈ post.head?, c.kind = .immovable ∨ e = c.address

theorem Room.ordered (hr : Room pre a e post) (hs : Spans a run e)
    (hlarger : ∀ b ∈ run, sizeofHeapHeader < b.size) : Ordered (pre ++ run ++ post) where
  sorted := by
    refine List.pairwise_append.mpr ⟨List.pairwise_append.mpr
      ⟨hr.front.sorted, hs.sorted, ?_⟩, hr.back.sorted, ?_⟩
    · intro b hb c hc
      exact (hr.before b hb).trans (hs.mem hc).1
    · intro b hb c hc
      rcases List.mem_append.mp hb with hb | hb
      · exact (hr.before b hb).trans (hs.le.trans (hr.after c hc))
      · exact (hs.mem hb).2.trans (hr.after c hc)
  larger := by
    intro b hb
    rcases List.mem_append.mp hb with hb | hb
    · rcases List.mem_append.mp hb with hb | hb
      · exact hr.front.larger b hb
      · exact hlarger b hb
    · exact hr.back.larger b hb
  bounded := by
    intro b hb
    rcases List.mem_append.mp hb with hb | hb
    · rcases List.mem_append.mp hb with hb | hb
      · exact hr.front.bounded b hb
      · exact (hs.mem hb).2.trans_lt hr.bounded
    · exact hr.back.bounded b hb

theorem Room.adjoining (hr : Room pre a e post) (hs : Spans a run e) (hne : run ≠ []) :
    (pre ++ run ++ post).IsChain Adjoining := by
  have hlast : ∀ b, run.getLast? = some b → b.finish = e := by
    intro b hb
    obtain ⟨front, hfront⟩ := List.getLast?_eq_some_iff.mp hb
    rw [hfront] at hs
    obtain ⟨x, -, -, hx⟩ := spans_append.mp hs
    exact hx
  have hfirst : ∀ b, run.head? = some b → b.address = a := by
    intro b hb
    cases run with
    | nil => simp at hb
    | cons c run =>
        obtain rfl : c = b := by simpa using hb
        exact hs.1
  refine (hr.frontAdjoining.append hs.adjoining ?_).append hr.backAdjoining ?_
  · intro b hb c hc
    rcases hr.left b hb with hkind | hfinish
    · exact Or.inl hkind
    · exact Or.inr (Or.inr (hfinish.trans (hfirst c hc).symm))
  · intro b hb c hc
    rw [List.getLast?_append_of_ne_nil _ hne] at hb
    rcases hr.right c hc with hkind | hstart
    · exact Or.inr (Or.inl hkind)
    · exact Or.inr (Or.inr ((hlast b hb).trans hstart))

/-- A run that is not immovable leaves room for another one. -/
theorem Room.of_run (ho : Ordered (pre ++ run ++ post))
    (ha : (pre ++ run ++ post).IsChain Adjoining) (hs : Spans a run e) (hne : run ≠ [])
    (hkinds : ∀ b ∈ run, b.kind ≠ .immovable) : Room pre a e post where
  front := ho.append_left.append_left
  back := ho.append_right
  before := by
    intro b hb
    obtain ⟨c, l, rfl⟩ := List.exists_cons_of_ne_nil hne
    rw [← hs.1]
    exact ho.append_left.before hb (by simp)
  after := by
    intro c hc
    obtain ⟨front, d, rfl⟩ := List.eq_nil_or_concat run |>.resolve_left hne
    rw [List.concat_eq_append] at hs ho
    obtain ⟨x, -, -, hx⟩ := spans_append.mp hs
    rw [← show d.finish = e from hx]
    exact ho.before (by simp) hc
  bounded := by
    obtain ⟨front, d, rfl⟩ := List.eq_nil_or_concat run |>.resolve_left hne
    rw [List.concat_eq_append] at hs ho
    obtain ⟨x, -, -, hx⟩ := spans_append.mp hs
    rw [← show d.finish = e from hx]
    exact ho.bounded d (by simp)
  frontAdjoining := ha.left_of_append.left_of_append
  backAdjoining := ha.right_of_append
  left := by
    intro b hb
    obtain ⟨c, l, rfl⟩ := List.exists_cons_of_ne_nil hne
    have hadj := (List.isChain_append.mp ha.left_of_append).2.2 b hb c (by simp)
    rcases hadj with hkind | hkind | hfinish
    · exact Or.inl hkind
    · exact absurd hkind (hkinds c (by simp))
    · exact Or.inr (hfinish.trans hs.1)
  right := by
    intro c hc
    obtain ⟨front, d, rfl⟩ := List.eq_nil_or_concat run |>.resolve_left hne
    rw [List.concat_eq_append] at hs ha
    obtain ⟨x, -, -, hx⟩ := spans_append.mp hs
    have hadj := (List.isChain_append.mp ha).2.2 d (by simp) c hc
    rcases hadj with hkind | hkind | hfinish
    · exact absurd hkind (hkinds d (by simp))
    · exact Or.inl hkind
    · exact Or.inr ((show d.finish = e from hx).symm.trans hfinish)

theorem Ordered.prefix_of_run (ho : Ordered l) (hs : Spans a run e)
    (hmem : ∀ b ∈ run, b ∈ l) (hfrom : ∀ c ∈ l, a ≤ c.address) : ∃ post, l = run ++ post := by
  induction run generalizing a l with
  | nil => exact ⟨l, rfl⟩
  | cons b run ih =>
      obtain ⟨hb, hrest⟩ := hs
      cases l with
      | nil => exact absurd (hmem b (by simp)) (by simp)
      | cons d l =>
          have hd : d = b := by
            rcases List.mem_cons.mp (hmem b (by simp)) with heq | hbl
            · exact heq.symm
            · have hdb := ho.head_before hbl
              have hda := hfrom d (by simp)
              have hlarger := ho.larger d (by simp)
              unfold Block.finish at hdb
              omega
          subst d
          have hmem' : ∀ c ∈ run, c ∈ l := by
            intro c hc
            refine (List.mem_cons.mp (hmem c (by simp [hc]))).resolve_left ?_
            rintro rfl
            have hafter := (hrest.mem hc).1
            have hlarger := ho.larger c (by simp)
            unfold Block.finish at hafter
            omega
          obtain ⟨post, rfl⟩ := ih ho.tail hrest hmem' fun c hc => ho.head_before hc
          exact ⟨post, rfl⟩

/-- The blocks of a run are neighbours in every ordered list that has them. -/
theorem Ordered.infix_of_run (ho : Ordered l) (hs : Spans a run e) (hne : run ≠ [])
    (hmem : ∀ b ∈ run, b ∈ l) : ∃ pre post, l = pre ++ run ++ post := by
  obtain ⟨b, run, rfl⟩ := List.exists_cons_of_ne_nil hne
  obtain ⟨pre, rest, rfl⟩ := List.append_of_mem (hmem b (by simp))
  have hb := hs.1
  have hmem' : ∀ c ∈ b :: run, c ∈ b :: rest := by
    intro c hc
    refine (List.mem_append.mp (hmem c hc)).resolve_left fun hpre => ?_
    have hbefore := ho.before hpre (c := b) (by simp)
    have hafter := (hs.mem hc).1
    have hlarger := ho.larger c (by simp [hpre])
    unfold Block.finish at hbefore
    omega
  have hfrom : ∀ c ∈ b :: rest, a ≤ c.address := by
    intro c hc
    rcases List.mem_cons.mp hc with rfl | hc
    · exact Nat.le_of_eq hb.symm
    · have hbefore := ho.append_right.head_before hc
      unfold Block.finish at hbefore
      omega
  obtain ⟨post, hpost⟩ := ho.append_right.prefix_of_run hs hmem' hfrom
  exact ⟨pre, post, by rw [hpost, List.append_assoc]⟩

theorem Spans.exists_last (hs : Spans a l e) (hne : l ≠ []) : ∃ b ∈ l, b.finish = e := by
  obtain ⟨front, b, rfl⟩ := List.eq_nil_or_concat l |>.resolve_left hne
  rw [List.concat_eq_append] at hs
  obtain ⟨x, -, -, hx⟩ := spans_append.mp hs
  exact ⟨b, by simp, hx⟩

theorem Ordered.mem_front (ho : Ordered (pre ++ run ++ post)) (hb : b ∈ pre ++ run ++ post)
    (hbefore : b.finish ≤ a) (hs : Spans a run e) (hafter : ∀ c ∈ post, e ≤ c.address) :
    b ∈ pre := by
  have hlarger := ho.larger b hb
  rcases List.mem_append.mp hb with hb | hb
  · refine (List.mem_append.mp hb).resolve_right fun hb => ?_
    have hfrom := (hs.mem hb).1
    unfold Block.finish at hbefore
    omega
  · have hfrom := hafter b hb
    have hle := hs.le
    unfold Block.finish at hbefore
    omega

theorem Ordered.mem_back (ho : Ordered (pre ++ run ++ post)) (hb : b ∈ pre ++ run ++ post)
    (hafter : e ≤ b.address) (hs : Spans a run e) (hbefore : ∀ c ∈ pre, c.finish ≤ a) :
    b ∈ post := by
  have hlarger := ho.larger b hb
  refine (List.mem_append.mp hb).resolve_left fun hb => ?_
  rcases List.mem_append.mp hb with hb | hb
  · have hto := hbefore b hb
    have hle := hs.le
    unfold Block.finish at hto
    omega
  · have hto := (hs.mem hb).2
    unfold Block.finish at hto
    omega

theorem Ordered.last_after (ho : Ordered l) (hlast : l.getLast? = some b) (hc : c ∈ l) :
    c = b ∨ c.finish ≤ b.address := by
  obtain ⟨front, rfl⟩ := List.getLast?_eq_some_iff.mp hlast
  rcases List.mem_append.mp hc with hc | hc
  · exact Or.inr (ho.before hc (by simp))
  · exact Or.inl (List.mem_singleton.mp hc)

theorem Ordered.first_before (ho : Ordered l) (hfirst : l.head? = some b) (hc : c ∈ l) :
    c = b ∨ b.finish ≤ c.address := by
  cases l with
  | nil => cases hc
  | cons d l =>
      obtain rfl : d = b := by simpa using hfirst
      rcases List.mem_cons.mp hc with heq | hc
      · exact Or.inl heq
      · exact Or.inr (ho.head_before hc)

/-- What lies before the room covers the byte in front of it, or ends with a gap
behind an immovable block. -/
theorem Room.gap_before (hr : Room pre a e post) (hae : a < e) (hb : b ∈ pre.getLast?)
    (hrun : Spans a run e) (hgap : b.finish ≤ x) (hx : x < a) :
    ¬ Covered (pre ++ run ++ post) x := by
  rintro ⟨c, hc, hcx, hxc⟩
  rcases List.mem_append.mp hc with hc | hc
  · rcases List.mem_append.mp hc with hc | hc
    · rcases hr.front.last_after hb hc with rfl | hlt
      · omega
      · have hlarger := hr.front.larger b (List.mem_of_getLast? hb)
        unfold Block.finish at hgap
        omega
    · have hmem := (hrun.mem hc).1
      omega
  · have hmem := hr.after c hc
    omega

theorem Room.gap_after (hr : Room pre a e post) (hae : a < e) (hb : b ∈ post.head?)
    (hrun : Spans a run e) (hgap : x < b.address) (hx : e ≤ x) :
    ¬ Covered (pre ++ run ++ post) x := by
  rintro ⟨c, hc, hcx, hxc⟩
  rcases List.mem_append.mp hc with hc | hc
  · rcases List.mem_append.mp hc with hc | hc
    · have hmem := hr.before c hc
      omega
    · have hmem := (hrun.mem hc).2
      omega
  · rcases hr.back.first_before hb hc with rfl | hlt
    · omega
    · unfold Block.finish at hlt
      omega

/-- What happens elsewhere leaves the room between its neighbours as it was, when
immovable blocks stay and the same bytes are covered. -/
theorem Room.transport (hr : Room pre a e post) (hs : Spans a run e) (hae : a < e)
    (hne : run ≠ []) (ho : Ordered l) (ha : l.IsChain Adjoining)
    (hmem : ∀ b ∈ run, b ∈ l)
    (himmovable : ∀ b ∈ pre ++ post, b.kind = .immovable → b ∈ l)
    (hcovered : ∀ x, Covered l x ↔ Covered (pre ++ run ++ post) x) :
    ∃ pre' post', l = pre' ++ run ++ post' ∧ Room pre' a e post' ∧
      (∀ b ∈ pre'.getLast?, b ∈ pre ∨ b.finish = a) ∧
      ∀ c ∈ post'.head?, c ∈ post ∨ e = c.address := by
  obtain ⟨pre', post', rfl⟩ := ho.infix_of_run hs hne hmem
  have hbefore : ∀ b ∈ pre', b.finish ≤ a := by
    intro b hb
    obtain ⟨c, rest, rfl⟩ := List.exists_cons_of_ne_nil hne
    rw [← hs.1]
    exact ho.append_left.before hb (by simp)
  have hafter : ∀ c ∈ post', e ≤ c.address := by
    intro c hc
    obtain ⟨d, hd, hde⟩ := hs.exists_last hne
    rw [← hde]
    exact ho.before (List.mem_append_right pre' hd) hc
  have hcover : ∀ b ∈ pre' ++ run ++ post', Covered (pre ++ run ++ post) b.address := by
    intro b hb
    have hlarger := ho.larger b hb
    exact (hcovered b.address).mp ⟨b, hb, Nat.le_refl _, by unfold Block.finish; omega⟩
  have hleft : ∀ b ∈ pre'.getLast?, (b.kind = .immovable ∧ b ∈ pre) ∨ b.finish = a := by
    intro b hb
    have hbpre := List.mem_of_getLast? hb
    have hblarger := ho.larger b (by simp [hbpre])
    have hbfinish := hbefore b hbpre
    cases hlast : pre.getLast? with
    | none =>
        obtain rfl := List.getLast?_eq_none_iff.mp hlast
        obtain ⟨c, hc, hcx, -⟩ := hcover b (by simp [hbpre])
        have hca : a ≤ c.address := by
          rcases List.mem_append.mp hc with hc | hc
          · exact (hs.mem (by simpa using hc)).1
          · exact hs.le.trans (hr.after c hc)
        unfold Block.finish at hbfinish
        omega
    | some c =>
        have hcpre := List.mem_of_getLast? hlast
        rcases hr.left c hlast with hkind | hfinish
        · have hc := himmovable c (by simp [hcpre]) hkind
          have hcpre' := ho.mem_front hc (hr.before c hcpre) hs hafter
          rcases (ho.append_left.append_left).last_after hb hcpre' with rfl | hlt
          · exact Or.inl ⟨hkind, hcpre⟩
          · have hgap := hr.gap_before hae hlast hs hlt (by
              unfold Block.finish at hbfinish
              omega)
            exact absurd (hcover b (by simp [hbpre])) hgap
        · have hclarger := hr.front.larger c hcpre
          obtain ⟨d, hd, hdx, hxd⟩ := (hcovered (a - 1)).mpr
            ⟨c, by simp [hcpre], by unfold Block.finish at hfinish; omega,
              by unfold Block.finish at hfinish ⊢; omega⟩
          have hdpre : d ∈ pre' := by
            rcases List.mem_append.mp hd with hd | hd
            · refine (List.mem_append.mp hd).resolve_right fun hd => ?_
              have := (hs.mem hd).1
              unfold Block.finish at hfinish
              omega
            · have := hafter d hd
              unfold Block.finish at hfinish
              omega
          have hdfinish := hbefore d hdpre
          rcases (ho.append_left.append_left).last_after hb hdpre with rfl | hlt
          · exact Or.inr (by omega)
          · unfold Block.finish at hbfinish
            omega
  have hright : ∀ c ∈ post'.head?, (c.kind = .immovable ∧ c ∈ post) ∨ e = c.address := by
    intro b hb
    have hbpost := List.mem_of_head? hb
    have hblarger := ho.larger b (by simp [hbpost])
    have hbstart := hafter b hbpost
    cases hfirst : post.head? with
    | none =>
        obtain rfl := List.head?_eq_none_iff.mp hfirst
        obtain ⟨c, hc, hcx, hxc⟩ := hcover b (by simp [hbpost])
        have hce : c.finish ≤ e := by
          rcases List.mem_append.mp (by simpa using hc) with hc | hc
          · exact (hr.before c hc).trans hs.le
          · exact (hs.mem hc).2
        omega
    | some c =>
        have hcpost := List.mem_of_head? hfirst
        rcases hr.right c hfirst with hkind | hstart
        · have hc := himmovable c (by simp [hcpost]) hkind
          have hcpost' := ho.mem_back hc (hr.after c hcpost) hs hbefore
          rcases ho.append_right.first_before hb hcpost' with rfl | hlt
          · exact Or.inl ⟨hkind, hcpost⟩
          · have hgap := hr.gap_after hae hfirst hs (x := b.address) (by
              unfold Block.finish at hlt
              omega) hbstart
            exact absurd (hcover b (by simp [hbpost])) hgap
        · have hclarger := hr.back.larger c hcpost
          obtain ⟨d, hd, hdx, hxd⟩ := (hcovered e).mpr
            ⟨c, by simp [hcpost], by omega, by unfold Block.finish; omega⟩
          have hdpost : d ∈ post' := by
            rcases List.mem_append.mp hd with hd | hd
            · rcases List.mem_append.mp hd with hd | hd
              · have := hbefore d hd
                omega
              · have := (hs.mem hd).2
                omega
            · exact hd
          have hdstart := hafter d hdpost
          rcases ho.append_right.first_before hb hdpost with rfl | hlt
          · exact Or.inr (by omega)
          · unfold Block.finish at hlt
            omega
  refine ⟨pre', post', rfl, ⟨ho.append_left.append_left, ho.append_right, hbefore, hafter,
    hr.bounded, ha.left_of_append.left_of_append, ha.right_of_append, ?_, ?_⟩, ?_, ?_⟩
  · exact fun b hb => (hleft b hb).imp_left And.left
  · exact fun c hc => (hright c hc).imp_left And.left
  · exact fun b hb => (hleft b hb).imp_left And.right
  · exact fun c hc => (hright c hc).imp_left And.right

end Cenix.Heap
