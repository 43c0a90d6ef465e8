import Cenix.LinkedLists.OrderedInsertions

namespace Cenix.LinkedLists

/-! Pointers to an element that has moved away. -/

variable {P : Type} [DecidableEq P] {m m₀ m' : P → Links P} {known : P → Prop}
  {ahead behind : P → Nat} {old item container skipped p q : P}

/-- The links of well-formed lists, one element at a time. -/
structure Mutual (m : P → Links P) (known : P → Prop) : Prop where
  prev_of_next : ∀ p q, known p → (m p).next = some q → (m q).prev = some p
  next_of_prev : ∀ p q, known p → (m p).prev = some q → (m q).next = some p
  last : ∀ p e, known p → (m p).last = some e →
    (m e).next = none ∧ (m e).start = (m p).start ∧ (m e).last = some e
  alone : ∀ p, known p → (m p).start = (m p).last → (m p).next = none ∧
    ((m p).last = some p ∨ (m p).last = none)
  reaches : ∀ p e, known p → (m p).prev = none → (m p).last = some e →
    Reaches (fun a => (m a).prev) e p

/-- Lists that are well formed but for one element, which the `prev` pointers skip. -/
structure Skips (m : P → Links P) (known : P → Prop) (skipped : P) : Prop where
  next : ∀ p q, known p → (m p).next = some q → (m q).prev ≠ some p →
    p = skipped ∧ (m p).prev ≠ none ∧
      ∃ r, (m q).prev = some r ∧ ∀ y, known y → (m y).next = some p → y = r
  prev : ∀ p q, known p → (m p).prev = some q → (m q).next ≠ some p →
    (m p).next = none ∧ ∀ y, known y → (m y).prev ≠ some p
  last : ∀ p e, known p → (m p).last = some e → (m e).next = none
  reaches : ∀ p e, known p → (m p).prev = none → (m p).last = some e →
    Reaches (fun a => (m a).prev) e p

/-- The elements that still point to `old` lie where no walk comes by. -/
structure Stale (m : P → Links P) (known : P → Prop) (old skipped : P) : Prop where
  next : ∀ p, known p → (m p).next = some old →
    p = skipped ∧ (m p).prev ≠ none ∧ ∀ y, known y → (m y).next ≠ some p
  prev : ∀ p, known p → (m p).prev = some old →
    (m p).next = none ∧ ∀ y, known y → (m y).prev ≠ some p
  last : ∀ p, known p → p ≠ old → (m p).prev = none → (m p).last ≠ some old

omit [DecidableEq P] in
theorem Mutual.skips (h : Mutual m known) (skipped : P) : Skips m known skipped where
  next p q hp hpq hne := absurd (h.prev_of_next p q hp hpq) hne
  prev p q hp hpq hne := absurd (h.next_of_prev p q hp hpq) hne
  last p e hp hlast := (h.last p e hp hlast).1
  reaches := h.reaches

/-- A new list of one element is well formed. -/
theorem Mutual.init_skips (h : Mutual m₀ known) (horder : Ordered m₀ known ahead behind)
    (hitem : ¬known item) (hother : ∀ q, q ≠ item → m q = m₀ q) (skipped : P) :
    Skips (listInitNoContainer m item) (fun q => known q ∨ q = item) skipped := by
  have hnew : listInitNoContainer m item item = ⟨some item, some item, none, none⟩ :=
    modify_self m item _
  have hsame : ∀ q, known q → listInitNoContainer m item q = m₀ q := by
    intro q hq
    have hqi : q ≠ item := fun heq => hitem (heq ▸ hq)
    rw [listInitNoContainer, modify_of_ne m _ hqi, hother q hqi]
  constructor
  · rintro p q (hp | rfl) hpq hback
    · rw [hsame p hp] at hpq
      rw [hsame q (horder.next p q hp hpq).1] at hback
      exact absurd (h.prev_of_next p q hp hpq) hback
    · rw [hnew] at hpq
      cases hpq
  · rintro p q (hp | rfl) hpq hback
    · rw [hsame p hp] at hpq
      rw [hsame q (horder.prev p q hp hpq).1] at hback
      exact absurd (h.next_of_prev p q hp hpq) hback
    · rw [hnew] at hpq
      cases hpq
  · rintro p e (hp | rfl) hlast
    · rw [hsame p hp] at hlast
      rw [hsame e (horder.last p e hp hlast).1]
      exact (h.last p e hp hlast).1
    · rw [hnew] at hlast
      obtain rfl := Option.some.inj hlast
      rw [hnew]
  · rintro p e (hp | rfl) hprev hlast
    · rw [hsame p hp] at hprev hlast
      exact Reaches.congr (fun a b ha hb => (horder.prev a b ha hb).1)
        (fun a ha => by rw [hsame a ha]) (horder.last p e hp hlast).1
        (h.reaches p e hp hprev hlast)
    · rw [hnew] at hlast
      obtain rfl := Option.some.inj hlast
      exact Reaches.refl _ _

/-- An insertion has the `prev` pointers skip the new element, at most. -/
theorem Inserted.skips (h : Mutual m₀ known) (horder : Ordered m₀ known ahead behind)
    (hcontainer : known container) (hitem : ¬known item)
    (hm' : Inserted m₀ known container item m') :
    Skips m' (fun q => known q ∨ q = item) item := by
  have hne : ∀ q, known q → q ≠ item := fun q hq heq => hitem (heq ▸ hq)
  cases hm' with
  | behind hends hfirst hat hnew hother =>
      obtain ⟨hcNext, hcLast⟩ := h.alone container hcontainer hends
      have hprevs : ∀ q, known q → (m' q).prev = (m₀ q).prev := by
        intro q hq
        by_cases hqc : q = container
        · rw [hqc, hat]
        · rw [hother q hqc (hne q hq)]
      constructor
      · rintro p q (hp | rfl) hpq hback
        · by_cases hpc : p = container
          · rw [hpc, hat] at hpq
            obtain rfl := Option.some.inj hpq
            rw [hnew, hpc] at hback
            exact absurd rfl hback
          · rw [hother p hpc (hne p hp)] at hpq
            have hq := (horder.next p q hp hpq).1
            rw [hprevs q hq] at hback
            exact absurd (h.prev_of_next p q hp hpq) hback
        · rw [hnew] at hpq
          cases hpq
      · rintro p q (hp | rfl) hpq hback
        · rw [hprevs p hp] at hpq
          have hq := (horder.prev p q hp hpq).1
          have hnext := h.next_of_prev p q hp hpq
          have hqc : q ≠ container := by
            rintro rfl
            rw [hcNext] at hnext
            cases hnext
          rw [hother q hqc (hne q hq)] at hback
          exact absurd hnext hback
        · rw [hnew] at hpq
          obtain rfl := Option.some.inj hpq
          rw [hat] at hback
          exact absurd rfl hback
      · rintro p e (hp | rfl) hlast
        · by_cases hpc : p = container
          · rw [hpc, hat] at hlast
            obtain rfl := Option.some.inj hlast
            rw [hnew]
          · rw [hother p hpc (hne p hp)] at hlast
            obtain ⟨heNext, heStart, heLast⟩ := h.last p e hp hlast
            have he := (horder.last p e hp hlast).1
            have hec : e ≠ container := by
              rintro rfl
              obtain hself | hnone := (h.alone p hp (by rw [← heStart, hends, heLast, hlast])).2
              · exact hpc (Option.some.inj (hself.symm.trans hlast))
              · rw [hlast] at hnone
                cases hnone
            rw [hother e hec (hne e he)]
            exact heNext
        · rw [hnew] at hlast
          obtain rfl := Option.some.inj hlast
          rw [hnew]
      · rintro p e (hp | rfl) hpPrev hlast
        · rw [hprevs p hp] at hpPrev
          by_cases hpc : p = container
          · rw [hpc, hat] at hlast
            obtain rfl := Option.some.inj hlast
            refine reaches_iff.mpr (.inr ⟨container, by rw [hnew], ?_⟩)
            rw [hpc]
            exact Reaches.refl _ _
          · rw [hother p hpc (hne p hp)] at hlast
            have he := (horder.last p e hp hlast).1
            exact Reaches.congr (fun a b ha hb => (horder.prev a b ha hb).1) hprevs he
              (h.reaches p e hp hpPrev hlast)
        · rw [hnew] at hpPrev
          cases hpPrev
  | between e prev he hlast hprev hnew hat hother =>
      obtain ⟨hprevKnown, hahead, -, hprevNext⟩ := horder.prev e prev he hprev
      have heNext : (m₀ e).next = none := (h.last container e hcontainer hlast).1
      have hprevE : (m₀ prev).next = some e := h.next_of_prev e prev he hprev
      have hep : e ≠ prev := by
        rintro rfl
        omega
      have hsame : ∀ q, known q → (m' q).prev = (m₀ q).prev ∧ (m' q).last = (m₀ q).last := by
        intro q hq
        by_cases hqp : q = prev
        · rw [hqp, hat]
          exact ⟨rfl, rfl⟩
        · rw [hother q hqp (hne q hq)]
          exact ⟨rfl, rfl⟩
      constructor
      · rintro p q (hp | rfl) hpq hback
        · by_cases hpp : p = prev
          · rw [hpp, hat] at hpq
            obtain rfl := Option.some.inj hpq
            rw [hnew, hpp] at hback
            exact absurd rfl hback
          · rw [hother p hpp (hne p hp)] at hpq
            have hq := (horder.next p q hp hpq).1
            rw [(hsame q hq).1] at hback
            exact absurd (h.prev_of_next p q hp hpq) hback
        · rw [hnew] at hpq
          obtain rfl := Option.some.inj hpq
          refine ⟨rfl, by rw [hnew]; simp, prev, by rw [(hsame e he).1, hprev], ?_⟩
          rintro y (hy | rfl) hyNext
          · by_contra hyp
            rw [hother y hyp (hne y hy)] at hyNext
            exact hitem (horder.next y p hy hyNext).1
          · rw [hnew] at hyNext
            exact absurd (Option.some.inj hyNext) (hne e he)
      · rintro p q (hp | rfl) hpq hback
        · rw [(hsame p hp).1] at hpq
          have hnext := h.next_of_prev p q hp hpq
          have hq := (horder.prev p q hp hpq).1
          have hqp : q = prev := by
            by_contra hqp
            rw [hother q hqp (hne q hq)] at hback
            exact hback hnext
          have hpe : p = e := by
            rw [hqp, hprevE] at hnext
            exact (Option.some.inj hnext).symm
          subst hpe
          refine ⟨by rw [hother p hep (hne p hp)]; exact heNext, ?_⟩
          rintro y (hy | rfl) hyPrev
          · rw [(hsame y hy).1] at hyPrev
            have hyNext := h.next_of_prev y p hy hyPrev
            rw [heNext] at hyNext
            cases hyNext
          · rw [hnew] at hyPrev
            exact hep (Option.some.inj hyPrev).symm
        · rw [hnew] at hpq
          obtain rfl := Option.some.inj hpq
          rw [hat] at hback
          exact absurd rfl hback
      · intro p x hp hpLast
        have hx : known x ∧ (m₀ x).next = none := by
          rcases hp with hp | rfl
          · rw [(hsame p hp).2] at hpLast
            exact ⟨(horder.last p x hp hpLast).1, (h.last p x hp hpLast).1⟩
          · rw [hnew] at hpLast
            obtain rfl := Option.some.inj hpLast
            exact ⟨he, heNext⟩
        have hxp : x ≠ prev := by
          rintro rfl
          exact hprevNext hx.2
        rw [hother x hxp (hne x hx.1)]
        exact hx.2
      · rintro p x (hp | rfl) hpPrev hpLast
        · rw [(hsame p hp).1] at hpPrev
          rw [(hsame p hp).2] at hpLast
          exact Reaches.congr (fun a b ha hb => (horder.prev a b ha hb).1)
            (fun a ha => (hsame a ha).1) (horder.last p x hp hpLast).1
            (h.reaches p x hp hpPrev hpLast)
        · rw [hnew] at hpPrev
          cases hpPrev

/-- An element moves out of lists that skip at most one. -/
theorem Skips.relinked (h : Skips m₀ known skipped) (horder : Ordered m₀ known ahead behind)
    (hold : known old) (hitem : ¬known item) (hself : m item = m₀ old)
    (hother : ∀ q, q ≠ item → m q = m₀ q) (hm' : Relinked m item m') :
    Stale m' (fun q => known q ∨ q = item) old skipped := by
  have hne : ∀ q, known q → q ≠ item := fun q hq heq => hitem (heq ▸ hq)
  have hoi := hne old hold
  have hirreflNext : (m₀ old).next ≠ some old := fun heq => by
    have := (horder.next old old hold heq).2.1
    omega
  have hirreflPrev : (m₀ old).prev ≠ some old := fun heq => by
    have := (horder.prev old old hold heq).2.1
    omega
  constructor
  · intro p hp hpOld
    rw [hm'.next, hself] at hpOld
    split at hpOld
    · exact absurd (Option.some.inj hpOld).symm hoi
    · rename_i hprevOld
      have hpKnown : known p := by
        refine hp.resolve_right ?_
        rintro rfl
        rw [hself] at hpOld
        exact hirreflNext hpOld
      rw [hother p (hne p hpKnown)] at hpOld
      obtain ⟨hskipped, hpPrev, r, hr, honly⟩ := h.next p old hpKnown hpOld hprevOld
      refine ⟨hskipped, ?_, ?_⟩
      · rw [hm'.prev]
        split
        · simp
        · rwa [hother p (hne p hpKnown)]
      · intro y hy hyNext
        rw [hm'.next, hself] at hyNext
        split at hyNext
        · exact hne p hpKnown (Option.some.inj hyNext).symm
        · rename_i hyOld
          rcases hy with hy | rfl
          · rw [hother y (hne y hy)] at hyNext
            rw [honly y hy hyNext] at hyOld
            exact hyOld hr
          · rw [hself] at hyNext
            have := (horder.next old p hold hyNext).2.1
            have := (horder.next p old hpKnown hpOld).2.1
            omega
  · intro p hp hpOld
    rw [hm'.prev, hself] at hpOld
    split at hpOld
    · exact absurd (Option.some.inj hpOld).symm hoi
    · rename_i hnextOld
      have hpKnown : known p := by
        refine hp.resolve_right ?_
        rintro rfl
        rw [hself] at hpOld
        exact hirreflPrev hpOld
      rw [hother p (hne p hpKnown)] at hpOld
      obtain ⟨hpNext, honly⟩ := h.prev p old hpKnown hpOld hnextOld
      have hcross : (m₀ old).prev ≠ some p := by
        intro heq
        have := (horder.prev old p hold heq).2.1
        have := (horder.prev p old hpKnown hpOld).2.1
        omega
      refine ⟨?_, ?_⟩
      · rw [hm'.next, hself, if_neg hcross, hother p (hne p hpKnown), hpNext]
      · intro y hy hyPrev
        rw [hm'.prev] at hyPrev
        split at hyPrev
        · exact hne p hpKnown (Option.some.inj hyPrev).symm
        · rcases hy with hy | rfl
          · rw [hother y (hne y hy)] at hyPrev
            exact honly y hy hyPrev
          · rw [hself] at hyPrev
            exact hcross hyPrev
  · intro p hp hpo hpPrev hpLast
    have hwalk : ¬((m item).next = none ∧ Reaches (fun a => (m' a).prev) item p) := by
      intro hwalk
      rw [hm'.lasts hwalk.1 p hwalk.2] at hpLast
      exact hoi (Option.some.inj hpLast).symm
    rw [hm'.last p hwalk] at hpLast
    rcases hp with hp | rfl
    · have hpOld : (m₀ p).prev = none := by
        rw [hm'.prev] at hpPrev
        split at hpPrev
        · cases hpPrev
        · rwa [hother p (hne p hp)] at hpPrev
      rw [hother p (hne p hp)] at hpLast
      have hend : (m item).next = none := by
        rw [hself]
        exact h.last p old hp hpLast
      have hprevs : ∀ a, known a → (m' a).prev = (m₀ a).prev := by
        intro a ha
        rw [hm'.prev, hend, if_neg (by simp), hother a (hne a ha)]
      refine hwalk ⟨hend, ?_⟩
      obtain heq | ⟨r, hr, hreach⟩ := reaches_iff.mp (h.reaches p old hp hpOld hpLast)
      · exact absurd heq hpo
      · refine reaches_iff.mpr (.inr ⟨r, ?_, ?_⟩)
        · rw [hm'.prev, hend, if_neg (by simp), hself, hr]
        · exact Reaches.congr (fun a b ha hb => (horder.prev a b ha hb).1) hprevs
            (horder.prev old r hold hr).1 hreach
    · rw [hself] at hpLast
      refine hwalk ⟨?_, Reaches.refl _ _⟩
      rw [hself]
      exact h.last old old hold hpLast

/-- What is stale stays so when another element moves. -/
theorem Stale.relinked {source : P} (h : Stale m₀ known old skipped)
    (horder : Ordered m₀ known ahead behind) (hold : known old) (hsource : known source)
    (hne : source ≠ old) (hskipped : source ≠ skipped) (hitem : ¬known item)
    (hself : m item = m₀ source) (hother : ∀ q, q ≠ item → m q = m₀ q)
    (hm' : Relinked m item m') : Stale m' (fun q => known q ∨ q = item) old skipped := by
  have hni : ∀ q, known q → q ≠ item := fun q hq heq => hitem (heq ▸ hq)
  have hoi := hni old hold
  constructor
  · intro p hp hpOld
    rw [hm'.next] at hpOld
    split at hpOld
    · exact absurd (Option.some.inj hpOld).symm hoi
    · have hpKnown : known p := by
        refine hp.resolve_right ?_
        rintro rfl
        rw [hself] at hpOld
        exact hskipped (h.next source hsource hpOld).1
      rw [hother p (hni p hpKnown)] at hpOld
      obtain ⟨hps, hpPrev, honly⟩ := h.next p hpKnown hpOld
      refine ⟨hps, ?_, ?_⟩
      · rw [hm'.prev]
        split
        · simp
        · rwa [hother p (hni p hpKnown)]
      · intro y hy hyNext
        rw [hm'.next] at hyNext
        split at hyNext
        · exact hni p hpKnown (Option.some.inj hyNext).symm
        · rcases hy with hy | rfl
          · rw [hother y (hni y hy)] at hyNext
            exact honly y hy hyNext
          · rw [hself] at hyNext
            exact honly source hsource hyNext
  · intro p hp hpOld
    rw [hm'.prev] at hpOld
    split at hpOld
    · exact absurd (Option.some.inj hpOld).symm hoi
    · rcases hp with hp | rfl
      · rw [hother p (hni p hp)] at hpOld
        obtain ⟨hpNext, honly⟩ := h.prev p hp hpOld
        refine ⟨?_, ?_⟩
        · rw [hm'.next, hself, if_neg (honly source hsource), hother p (hni p hp), hpNext]
        · intro y hy hyPrev
          rw [hm'.prev] at hyPrev
          split at hyPrev
          · exact hni p hp (Option.some.inj hyPrev).symm
          · rcases hy with hy | rfl
            · rw [hother y (hni y hy)] at hyPrev
              exact honly y hy hyPrev
            · rw [hself] at hyPrev
              exact honly source hsource hyPrev
      · rw [hself] at hpOld
        have hend := (h.prev source hsource hpOld).1
        have hirrefl : (m₀ source).prev ≠ some p :=
          fun heq => hitem (horder.prev source p hsource heq).1
        refine ⟨?_, ?_⟩
        · rw [hm'.next, hself, if_neg hirrefl, hend]
        · intro y hy hyPrev
          rw [hm'.prev, hself, hend, if_neg (by simp)] at hyPrev
          rcases hy with hy | rfl
          · rw [hother y (hni y hy)] at hyPrev
            exact hitem (horder.prev y p hy hyPrev).1
          · rw [hself] at hyPrev
            exact hirrefl hyPrev
  · intro p hp hpo hpPrev hpLast
    have hwalk : ¬((m item).next = none ∧ Reaches (fun a => (m' a).prev) item p) := by
      intro hwalk
      rw [hm'.lasts hwalk.1 p hwalk.2] at hpLast
      exact hoi (Option.some.inj hpLast).symm
    rw [hm'.last p hwalk] at hpLast
    rw [hm'.prev] at hpPrev
    split at hpPrev
    · cases hpPrev
    · rcases hp with hp | rfl
      · rw [hother p (hni p hp)] at hpPrev hpLast
        exact h.last p hp hpo hpPrev hpLast
      · rw [hself] at hpPrev hpLast
        exact h.last source hsource hne hpPrev hpLast

/-! Another element moves to where stale links point. -/

/-- The element that had `old` before it points to itself there. -/
theorem listUpdateAddressNoContainer_selfLoop (hprev : (m item).prev = some item) :
    ∃ m', (∀ fuel, listUpdateAddressNoContainer fuel m item = some m') ∧
      m' item = { m item with prev := some item, next := some item } ∧
      ∀ q, q ≠ item → m' q = m q := by
  have hrelink : relinkNeighbours m item =
      modify (modify m item fun l => { l with next := some item }) item
        fun l => { l with prev := some item } := by
    rw [relinkNeighbours]
    simp only [hprev, modify_self]
  refine ⟨relinkNeighbours m item, fun fuel => ?_, ?_, ?_⟩
  · rw [listUpdateAddressNoContainer, relinkEnds, hrelink]
    simp only [modify_self]
    rw [if_neg (by simp), Option.bind_some, modify_self, if_neg (by simp)]
  · rw [hrelink, modify_self, modify_self]
  · intro q hq
    rw [hrelink, modify_of_ne _ _ hq, modify_of_ne _ _ hq]

theorem Stale.updateAddress {source : P} (h : Stale m₀ known old skipped)
    (horder : Ordered m₀ known ahead behind) (hsource : known source) (hne : source ≠ old)
    (hskipped : source ≠ skipped) (hself : m old = m₀ source)
    (hother : ∀ q, q ≠ old → m q = m₀ q) :
    ∃ n m', (∀ fuel ≥ n, listUpdateAddressNoContainer fuel m old = some m') ∧
      ∀ d a, known d → (m₀ d).prev = none → ((m₀ source).prev = some old → d ≠ old) →
        (m' d).start = some a → Ends (fun q => (m' q).next) a := by
  have hsourceNext : (m₀ source).next ≠ some old :=
    fun heq => hskipped (h.next source hsource heq).1
  -- a walk through elements that do not point to `old` never gets there
  have hclear : ∀ p q, known p → (m₀ p).next = some q → (m₀ q).next ≠ some old := by
    intro p q hp hpq heq
    exact (h.next q (horder.next p q hp hpq).1 heq).2.2 p hp hpq
  have hclearPrev : ∀ p q, known p → (m₀ p).prev = some q → (m₀ q).prev ≠ some old := by
    intro p q hp hpq heq
    exact (h.prev q (horder.prev p q hp hpq).1 heq).2 p hp hpq
  have hfirstClear : ∀ q, known q → (m₀ q).prev = none → (m₀ q).next ≠ some old :=
    fun q hq hprev heq => (h.next q hq heq).2.1 hprev
  by_cases hloop : (m₀ source).prev = some old
  · obtain ⟨m', hm', hat, hsame⟩ :=
      listUpdateAddressNoContainer_selfLoop (m := m) (hself ▸ hloop)
    refine ⟨0, m', fun fuel _ => hm' fuel, fun d a hd hdPrev hdOld hstart => ?_⟩
    have hdOld := hdOld hloop
    rw [hsame d hdOld, hother d hdOld] at hstart
    have had : a = d := by
      rcases horder.first d hd hdPrev with hself | ⟨hnone, -⟩
      · exact Option.some.inj (hstart.symm.trans hself)
      · rw [hstart] at hnone
        cases hnone
    refine ends_of_rank (fun q => known q ∧ q ≠ old ∧ (m₀ q).next ≠ some old)
      ahead ?_ (had ▸ ⟨hd, hdOld, hfirstClear d hd hdPrev⟩)
    rintro p q ⟨hp, hpo, hpNext⟩ hpq
    rw [hsame p hpo, hother p hpo] at hpq
    obtain ⟨hq, hlt, -, -⟩ := horder.next p q hp hpq
    exact ⟨⟨hq, fun heq => hpNext (heq ▸ hpq), hclear p q hp hpq⟩, hlt⟩
  · have hforward : Ends (fun a => (m a).next) old := by
      refine ends_of_rank
        (fun q => q = old ∨ known q ∧ q ≠ old ∧ (m₀ q).next ≠ some old)
        (Function.update ahead old (ahead source)) ?_ (.inl rfl)
      rintro p q (rfl | ⟨hp, hpo, hpNext⟩) hpq
      · rw [hself] at hpq
        obtain ⟨hq, hlt, -, -⟩ := horder.next source q hsource hpq
        have hqo : q ≠ p := fun heq => hsourceNext (heq ▸ hpq)
        rw [Function.update_of_ne hqo, Function.update_self]
        exact ⟨.inr ⟨hq, hqo, hclear source q hsource hpq⟩, hlt⟩
      · rw [hother p hpo] at hpq
        obtain ⟨hq, hlt, -, -⟩ := horder.next p q hp hpq
        have hqo : q ≠ old := fun heq => hpNext (heq ▸ hpq)
        rw [Function.update_of_ne hqo, Function.update_of_ne hpo]
        exact ⟨.inr ⟨hq, hqo, hclear p q hp hpq⟩, hlt⟩
    have hbackward : Ends (fun a => (m a).prev) old := by
      refine ends_of_rank
        (fun q => q = old ∨ known q ∧ q ≠ old ∧ (m₀ q).prev ≠ some old)
        (Function.update behind old (behind source)) ?_ (.inl rfl)
      rintro p q (rfl | ⟨hp, hpo, hpPrev⟩) hpq
      · rw [hself] at hpq
        obtain ⟨hq, -, hlt, -⟩ := horder.prev source q hsource hpq
        have hqo : q ≠ p := fun heq => hloop (heq ▸ hpq)
        rw [Function.update_of_ne hqo, Function.update_self]
        exact ⟨.inr ⟨hq, hqo, hclearPrev source q hsource hpq⟩, hlt⟩
      · rw [hother p hpo] at hpq
        obtain ⟨hq, -, hlt, -⟩ := horder.prev p q hp hpq
        have hqo : q ≠ old := fun heq => hpPrev (heq ▸ hpq)
        rw [Function.update_of_ne hqo, Function.update_of_ne hpo]
        exact ⟨.inr ⟨hq, hqo, hclearPrev p q hp hpq⟩, hlt⟩
    obtain ⟨n, m', hm', hrelinked⟩ := listUpdateAddressNoContainer_ends (by rwa [hself])
      (by rwa [hself]) (fun _ => hforward) (fun _ => hbackward)
    refine ⟨n, m', hm', fun d a hd hdPrev _ hstart => ?_⟩
    have ha : a = old ∨ known a ∧ (m₀ a).prev = none := by
      by_cases hwalk : (m old).prev = none ∧ Reaches (fun a => (m' a).next) old d
      · rw [hrelinked.starts hwalk.1 d hwalk.2] at hstart
        exact .inl (Option.some.inj hstart).symm
      · rw [hrelinked.start d hwalk] at hstart
        by_cases hdo : d = old
        · rw [hdo, hself] at hstart
          exact .inr (horder.start source a hsource hstart)
        · rw [hother d hdo] at hstart
          exact .inr (horder.start d a hd hstart)
    -- the element before `source` now points to `old`, as it did to `source`
    refine ends_of_rank (fun q => q = old ∨ known q ∧ q ≠ old ∧
        ((m₀ q).next ≠ some old ∨ (m₀ source).prev = some q))
      (Function.update ahead old (ahead source)) ?_ ?_
    · rintro p q (rfl | ⟨hp, hpo, hpNext⟩) hpq
      · rw [hrelinked.next, hself, if_neg hloop] at hpq
        obtain ⟨hq, hlt, -, -⟩ := horder.next source q hsource hpq
        have hqo : q ≠ p := fun heq => hsourceNext (heq ▸ hpq)
        rw [Function.update_of_ne hqo, Function.update_self]
        exact ⟨.inr ⟨hq, hqo, .inl (hclear source q hsource hpq)⟩, hlt⟩
      · rw [hrelinked.next, hself] at hpq
        split at hpq
        · rename_i hbefore
          obtain rfl := Option.some.inj hpq
          rw [Function.update_self, Function.update_of_ne hpo]
          exact ⟨.inl rfl, (horder.prev source p hsource hbefore).2.1⟩
        · rename_i hbefore
          rw [hother p hpo] at hpq
          obtain ⟨hq, hlt, -, -⟩ := horder.next p q hp hpq
          have hqo : q ≠ old := fun heq => hpNext.resolve_right hbefore (heq ▸ hpq)
          rw [Function.update_of_ne hqo, Function.update_of_ne hpo]
          exact ⟨.inr ⟨hq, hqo, .inl (hclear p q hp hpq)⟩, hlt⟩
    · by_cases hao : a = old
      · exact .inl hao
      · obtain ⟨haKnown, haPrev⟩ := ha.resolve_left hao
        exact .inr ⟨haKnown, hao, .inl (hfirstClear a haKnown haPrev)⟩

/-- A copy is put where stale links point. -/
theorem Stale.insert_total {source : P} (h : Stale m₀ known old skipped)
    (horder : Ordered m₀ known ahead behind) (hsource : known source) (hne : source ≠ old)
    (hself : m old = m₀ source) (hother : ∀ q, q ≠ old → m q = m₀ q)
    (hcontainer : known p) (hp : p = source ∨ (m₀ p).prev = none)
    (hlinks : m container = m₀ p) (hpo : p ≠ old) :
    ∃ m', listInsertNoContainer m container old = some m' := by
  refine listInsertNoContainer_total fun hends => ?_
  rw [hlinks] at hends ⊢
  rcases horder.ends_cases hcontainer with ⟨heq, -⟩ | ⟨-, e, prev, hlast, hprev, he, -⟩
  · exact absurd heq hends
  · by_cases heo : e = old
    · subst heo
      have hnotFirst : (m₀ p).prev ≠ none := fun hfirst => h.last p hcontainer hpo hfirst hlast
      obtain rfl := hp.resolve_right hnotFirst
      obtain ⟨r, hr⟩ := Option.ne_none_iff_exists'.mp hnotFirst
      exact ⟨e, r, hlast, by rw [hself, hr]⟩
    · exact ⟨e, prev, hlast, by rw [hother e heo, hprev]⟩

end Cenix.LinkedLists
