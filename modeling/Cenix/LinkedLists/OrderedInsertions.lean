import Cenix.LinkedLists.Ordered

namespace Cenix.LinkedLists

/-! Insertions into lists in which a pointer need not have its counterpart. -/

variable {P : Type} [DecidableEq P] {m m₀ m' : P → Links P} {known : P → Prop}
  {ahead behind : P → Nat} {old item container p q : P}

/-- An insertion fails on a list with several elements whose last one has lost its
predecessor. -/
theorem listInsertNoContainer_total
    (h : (m container).start ≠ (m container).last →
      ∃ e prev, (m container).last = some e ∧ (m e).prev = some prev) :
    ∃ m', listInsertNoContainer m container item = some m' := by
  unfold listInsertNoContainer
  split
  · exact ⟨_, rfl⟩
  · rename_i hends
    obtain ⟨e, prev, hlast, hprev⟩ := h hends
    have hkept : ∀ start last q, (modify m item (fun l => { l with
        start := start
        last := last }) q).prev = (m q).prev := by
      intro start last q
      by_cases hq : q = item
      · rw [hq, modify_self]
      · rw [modify_of_ne m _ hq]
    have hsame : ∀ start, (modify m item (fun l => { l with
        start := start
        last := some e }) container).last = some e := by
      intro start
      by_cases hq : container = item
      · rw [hq, modify_self]
      · rw [modify_of_ne m _ hq, hlast]
    simp only [hlast, hsame, Option.bind_eq_bind, Option.bind_some, hkept, hprev]
    exact ⟨_, rfl⟩

/-- The insertion behind an element that takes itself for the whole list. -/
theorem listInsertNoContainer_behind (hne : item ≠ container)
    (hends : (m container).start = (m container).last) :
    listInsertNoContainer m container item = some fun q =>
      if q = container then { m container with last := some item, next := some item }
      else if q = item then ⟨some container, some item, some container, none⟩
      else m q := by
  rw [listInsertNoContainer, if_pos hends]
  refine congrArg some (funext fun q => ?_)
  by_cases hqc : q = container
  · subst hqc
    simp [Ne.symm hne]
  · by_cases hqi : q = item
    · subst hqi
      simp [hqc]
    · simp [hqc, hqi]

/-- The insertion between the last element and what it has for its predecessor. -/
theorem listInsertNoContainer_between {e prev : P} (hne : container ≠ item) (he : e ≠ item)
    (hprevNe : prev ≠ item) (hends : (m container).start ≠ (m container).last)
    (hlast : (m container).last = some e) (hprev : (m e).prev = some prev) :
    listInsertNoContainer m container item = some fun q =>
      if q = item then ⟨(m container).start, some e, some prev, some e⟩
      else if q = prev then { m prev with next := some item }
      else m q := by
  rw [listInsertNoContainer, if_neg hends]
  simp only [Option.bind_eq_bind, modify_of_ne _ _ hne, hlast, Option.bind_some,
    modify_of_ne _ _ he, hprev, Option.some.injEq]
  funext q
  have hcontainer : ∀ change : Links P → Links P, (∀ l, (change l).last = l.last) →
      (modify m prev change container).last = some e := by
    intro change hchange
    by_cases hcp : container = prev
    · rw [← hcp, modify_self, hchange, hlast]
    · rw [modify_of_ne _ _ hcp, hlast]
  by_cases hqi : q = item
  · subst hqi
    by_cases hcp : container = prev
    · subst hcp
      simp [hne, Ne.symm hne, hlast]
    · simp [hne, hcp, Ne.symm hprevNe, hlast]
  · by_cases hqp : q = prev
    · subst hqp
      simp [hqi]
    · simp [hqi, hqp]

namespace Ordered

omit [DecidableEq P] in
/-- Where an insertion puts the new element. -/
theorem ends_cases (h : Ordered m known ahead behind) (hp : known p) :
    ((m p).start = (m p).last ∧ (m p).prev = none) ∨
      (m p).start ≠ (m p).last ∧ ∃ e prev, (m p).last = some e ∧ (m e).prev = some prev ∧
        known e ∧ known prev := by
  by_cases hends : (m p).start = (m p).last
  · refine .inl ⟨hends, ?_⟩
    cases hlast : (m p).last with
    | none =>
        rw [h.empty p hp hlast]
        rfl
    | some e =>
        have hfirst := (h.start p e hp (hends.trans hlast)).2
        rw [← (h.last p e hp hlast).2.resolve_right fun hprev => hprev hfirst]
        exact hfirst
  · refine .inr ⟨hends, ?_⟩
    cases hlast : (m p).last with
    | none =>
        rw [h.empty p hp hlast] at hends
        exact absurd rfl hends
    | some e =>
        obtain ⟨he, hprev⟩ := h.last p e hp hlast
        have hprev : (m e).prev ≠ none := by
          refine hprev.elim (fun hep hnone => ?_) id
          subst hep
          rcases h.first e hp hnone with hstart | ⟨-, hnot⟩
          · exact hends (hstart.trans hlast.symm)
          · exact hnot hlast
        obtain ⟨prev, hprev⟩ := Option.ne_none_iff_exists'.mp hprev
        exact ⟨e, prev, rfl, hprev, he, (h.prev e prev he hprev).1⟩

/-- Room for a new element between all others. -/
def spread (rank : P → Nat) (item : P) (place : Nat) (q : P) : Nat :=
  if q = item then place else 2 * rank q + 1

theorem insert_behind (h : Ordered m₀ known ahead behind) (hcontainer : known container)
    (hitem : ¬known item) (hends : (m₀ container).start = (m₀ container).last)
    (hfirst : (m₀ container).prev = none)
    (hat : m' container = { m₀ container with last := some item, next := some item })
    (hnew : m' item = ⟨some container, some item, some container, none⟩)
    (hother : ∀ q, q ≠ container → q ≠ item → m' q = m₀ q) :
    Ordered m' (fun q => known q ∨ q = item) (spread ahead item (2 * ahead container))
      (spread behind item (2 * behind container + 2)) := by
  have hne : ∀ q, known q → q ≠ item := fun q hq heq => hitem (heq ▸ hq)
  have hrank : ∀ q place (rank : P → Nat), known q → spread rank item place q = 2 * rank q + 1 :=
    fun q place rank hq => if_neg (hne q hq)
  have hrankItem : ∀ place (rank : P → Nat), spread rank item place item = place :=
    fun place rank => if_pos rfl
  have hprevs : ∀ q, known q → (m' q).prev = (m₀ q).prev := by
    intro q hq
    by_cases hqc : q = container
    · rw [hqc, hat]
    · rw [hother q hqc (hne q hq)]
  have hnexts : ∀ q, known q → (m₀ q).next ≠ none → (m' q).next ≠ none := by
    intro q hq hnext
    by_cases hqc : q = container
    · rw [hqc, hat]
      simp
    · rwa [hother q hqc (hne q hq)]
  constructor
  · rintro p q (hp | rfl) hpq
    · by_cases hpc : p = container
      · rw [hpc, hat] at hpq
        obtain rfl := Option.some.inj hpq
        rw [hpc, hrank _ _ _ hcontainer, hrank _ _ _ hcontainer, hrankItem, hrankItem, hnew]
        exact ⟨.inr rfl, by omega, by omega, by simp⟩
      · rw [hother p hpc (hne p hp)] at hpq
        obtain ⟨hq, hlt, hgt, hprev⟩ := h.next p q hp hpq
        rw [hrank _ _ _ hp, hrank _ _ _ hp, hrank _ _ _ hq, hrank _ _ _ hq, hprevs q hq]
        exact ⟨.inl hq, by omega, by omega, hprev⟩
    · rw [hnew] at hpq
      cases hpq
  · rintro p q (hp | rfl) hpq
    · rw [hprevs p hp] at hpq
      obtain ⟨hq, hlt, hgt, hnext⟩ := h.prev p q hp hpq
      rw [hrank _ _ _ hp, hrank _ _ _ hp, hrank _ _ _ hq, hrank _ _ _ hq]
      exact ⟨.inl hq, by omega, by omega, hnexts q hq hnext⟩
    · rw [hnew] at hpq
      obtain rfl := Option.some.inj hpq
      rw [hrank _ _ _ hcontainer, hrank _ _ _ hcontainer, hrankItem, hrankItem, hat]
      exact ⟨.inl hcontainer, by omega, by omega, by simp⟩
  · rintro p q (hp | rfl) hpq
    · have hpq : (m₀ p).start = some q := by
        by_cases hpc : p = container
        · rw [hpc, hat] at hpq
          rw [hpc]
          exact hpq
        · rwa [hother p hpc (hne p hp)] at hpq
      obtain ⟨hq, hprev⟩ := h.start p q hp hpq
      exact ⟨.inl hq, (hprevs q hq).trans hprev⟩
    · rw [hnew] at hpq
      obtain rfl := Option.some.inj hpq
      exact ⟨.inl hcontainer, (hprevs _ hcontainer).trans hfirst⟩
  · rintro p q (hp | rfl) hpq
    · by_cases hpc : p = container
      · rw [hpc, hat] at hpq
        obtain rfl := Option.some.inj hpq
        exact ⟨.inr rfl, .inr (by rw [hnew]; simp)⟩
      · rw [hother p hpc (hne p hp)] at hpq
        obtain ⟨hq, hprev⟩ := h.last p q hp hpq
        exact ⟨.inl hq, hprev.imp_right fun hprev => by rwa [hprevs q hq]⟩
    · rw [hnew] at hpq
      obtain rfl := Option.some.inj hpq
      exact ⟨.inr rfl, .inl rfl⟩
  · rintro p (hp | rfl) hlast
    · by_cases hpc : p = container
      · rw [hpc, hat] at hlast
        exact absurd (Option.some.inj hlast).symm (hne _ hcontainer)
      · rw [hother p hpc (hne p hp)] at hlast ⊢
        exact h.last_self p hp hlast
    · rw [hnew]
  · rintro p (hp | rfl) hprev
    · rw [hprevs p hp] at hprev
      have hold := h.first p hp hprev
      by_cases hpc : p = container
      · subst hpc
        rw [hat]
        exact hold.imp_right fun hold => ⟨hold.1, fun heq => hne p hp (Option.some.inj heq).symm⟩
      · rwa [hother p hpc (hne p hp)]
    · rw [hnew] at hprev
      cases hprev
  · rintro p (hp | rfl) hlast
    · by_cases hpc : p = container
      · rw [hpc, hat] at hlast
        cases hlast
      · rw [hother p hpc (hne p hp)] at hlast ⊢
        exact h.empty p hp hlast
    · rw [hnew] at hlast
      cases hlast

theorem insert_between {e prev : P} (h : Ordered m₀ known ahead behind)
    (hcontainer : known container) (hitem : ¬known item) (he : known e)
    (hprev : (m₀ e).prev = some prev)
    (hnew : m' item = ⟨(m₀ container).start, some e, some prev, some e⟩)
    (hat : m' prev = { m₀ prev with next := some item })
    (hother : ∀ q, q ≠ prev → q ≠ item → m' q = m₀ q) :
    Ordered m' (fun q => known q ∨ q = item) (spread ahead item (2 * ahead e + 2))
      (spread behind item (2 * behind prev + 2)) := by
  obtain ⟨hprevKnown, hahead, hbehind, hprevNext⟩ := h.prev e prev he hprev
  have hne : ∀ q, known q → q ≠ item := fun q hq heq => hitem (heq ▸ hq)
  have hrank : ∀ q place (rank : P → Nat), known q → spread rank item place q = 2 * rank q + 1 :=
    fun q place rank hq => if_neg (hne q hq)
  have hrankItem : ∀ place (rank : P → Nat), spread rank item place item = place :=
    fun place rank => if_pos rfl
  have hsame : ∀ q, known q → (m' q).prev = (m₀ q).prev ∧ (m' q).start = (m₀ q).start ∧
      (m' q).last = (m₀ q).last := by
    intro q hq
    by_cases hqp : q = prev
    · rw [hqp, hat]
      exact ⟨rfl, rfl, rfl⟩
    · rw [hother q hqp (hne q hq)]
      exact ⟨rfl, rfl, rfl⟩
  have hnexts : ∀ q, known q → (m₀ q).next ≠ none → (m' q).next ≠ none := by
    intro q hq hnext
    by_cases hqp : q = prev
    · rw [hqp, hat]
      simp
    · rwa [hother q hqp (hne q hq)]
  constructor
  · rintro p q (hp | rfl) hpq
    · by_cases hpp : p = prev
      · rw [hpp, hat] at hpq
        obtain rfl := Option.some.inj hpq
        rw [hpp, hrank _ _ _ hprevKnown, hrank _ _ _ hprevKnown, hrankItem, hrankItem, hnew]
        exact ⟨.inr rfl, by omega, by omega, by simp⟩
      · rw [hother p hpp (hne p hp)] at hpq
        obtain ⟨hq, hlt, hgt, hback⟩ := h.next p q hp hpq
        rw [hrank _ _ _ hp, hrank _ _ _ hp, hrank _ _ _ hq, hrank _ _ _ hq, (hsame q hq).1]
        exact ⟨.inl hq, by omega, by omega, hback⟩
    · rw [hnew] at hpq
      obtain rfl := Option.some.inj hpq
      rw [hrank _ _ _ he, hrank _ _ _ he, hrankItem, hrankItem, (hsame e he).1, hprev]
      exact ⟨.inl he, by omega, by omega, by simp⟩
  · rintro p q (hp | rfl) hpq
    · rw [(hsame p hp).1] at hpq
      obtain ⟨hq, hlt, hgt, hnext⟩ := h.prev p q hp hpq
      rw [hrank _ _ _ hp, hrank _ _ _ hp, hrank _ _ _ hq, hrank _ _ _ hq]
      exact ⟨.inl hq, by omega, by omega, hnexts q hq hnext⟩
    · rw [hnew] at hpq
      obtain rfl := Option.some.inj hpq
      rw [hrank _ _ _ hprevKnown, hrank _ _ _ hprevKnown, hrankItem, hrankItem, hat]
      exact ⟨.inl hprevKnown, by omega, by omega, by simp⟩
  · rintro p q (hp | rfl) hpq
    · rw [(hsame p hp).2.1] at hpq
      obtain ⟨hq, hfirst⟩ := h.start p q hp hpq
      exact ⟨.inl hq, (hsame q hq).1.trans hfirst⟩
    · rw [hnew] at hpq
      obtain ⟨hq, hfirst⟩ := h.start container q hcontainer hpq
      exact ⟨.inl hq, (hsame q hq).1.trans hfirst⟩
  · rintro p q (hp | rfl) hpq
    · rw [(hsame p hp).2.2] at hpq
      obtain ⟨hq, hback⟩ := h.last p q hp hpq
      exact ⟨.inl hq, hback.imp_right fun hback => by rwa [(hsame q hq).1]⟩
    · rw [hnew] at hpq
      obtain rfl := Option.some.inj hpq
      exact ⟨.inl he, .inr (by rw [(hsame e he).1, hprev]; simp)⟩
  · rintro p (hp | rfl) hself
    · rw [(hsame p hp).2.2] at hself
      have hnext := h.last_self p hp hself
      by_cases hpp : p = prev
      · exact absurd (hpp ▸ hnext) hprevNext
      · rwa [hother p hpp (hne p hp)]
    · rw [hnew] at hself
      exact absurd (Option.some.inj hself) (hne e he)
  · rintro p (hp | rfl) hfirst
    · rw [(hsame p hp).1] at hfirst
      rw [(hsame p hp).2.1, (hsame p hp).2.2]
      exact h.first p hp hfirst
    · rw [hnew] at hfirst
      cases hfirst
  · rintro p (hp | rfl) hnone
    · rw [(hsame p hp).2.2] at hnone
      have hempty := h.empty p hp hnone
      by_cases hpp : p = prev
      · rw [← hpp, hempty] at hprevNext
        exact absurd rfl hprevNext
      · rwa [hother p hpp (hne p hp)]
    · rw [hnew] at hnone
      cases hnone

end Ordered

/-- What the insertion of `item` has written: behind `container`, or before the last
element of its list, whose `prev` stays as it is. -/
inductive Inserted (m₀ : P → Links P) (known : P → Prop) (container item : P)
    (m' : P → Links P) : Prop where
  | behind (hends : (m₀ container).start = (m₀ container).last)
      (hfirst : (m₀ container).prev = none)
      (hat : m' container = { m₀ container with last := some item, next := some item })
      (hnew : m' item = ⟨some container, some item, some container, none⟩)
      (hother : ∀ q, q ≠ container → q ≠ item → m' q = m₀ q)
  | between (e prev : P) (he : known e) (hlast : (m₀ container).last = some e)
      (hprev : (m₀ e).prev = some prev)
      (hnew : m' item = ⟨(m₀ container).start, some e, some prev, some e⟩)
      (hat : m' prev = { m₀ prev with next := some item })
      (hother : ∀ q, q ≠ prev → q ≠ item → m' q = m₀ q)

omit [DecidableEq P] in
/-- No element that was there gets another `prev`. -/
theorem Inserted.prev_eq (h : Inserted m₀ known container item m') (hq : q ≠ item) :
    (m' q).prev = (m₀ q).prev := by
  cases h with
  | behind hends hfirst hat hnew hother =>
      by_cases hqc : q = container
      · rw [hqc, hat]
      · rw [hother q hqc hq]
  | between e prev he hlast hprev hnew hat hother =>
      by_cases hqp : q = prev
      · rw [hqp, hat]
      · rw [hother q hqp hq]

namespace Ordered

theorem insert (h : Ordered m₀ known ahead behind) (hcontainer : known container)
    (hitem : ¬known item) (hother : ∀ q, q ≠ item → m q = m₀ q) :
    ∃ m', listInsertNoContainer m container item = some m' ∧
      Inserted m₀ known container item m' := by
  have hne : ∀ q, known q → q ≠ item := fun q hq heq => hitem (heq ▸ hq)
  have hcontainerLinks := hother container (hne container hcontainer)
  rcases h.ends_cases hcontainer with ⟨hends, hfirst⟩ | ⟨hends, e, prev, hlast, hprev, he, hknown⟩
  · refine ⟨_, listInsertNoContainer_behind (hne container hcontainer).symm ?_,
      .behind hends hfirst ?_ ?_ ?_⟩
    · rw [hcontainerLinks, hends]
    · simp only [hcontainerLinks, if_pos]
    · simp only [if_neg (hne container hcontainer).symm, if_pos]
    · intro q hqc hqi
      simp only [if_neg hqc, if_neg hqi, hother q hqi]
  · refine ⟨_, listInsertNoContainer_between (hne container hcontainer) (hne e he)
      (hne prev hknown) ?_ ?_ ?_, .between e prev he hlast hprev ?_ ?_ ?_⟩
    · rwa [hcontainerLinks]
    · rwa [hcontainerLinks]
    · rwa [hother e (hne e he)]
    · simp only [if_pos, hcontainerLinks]
    · simp only [if_neg (hne prev hknown), if_pos, hother prev (hne prev hknown)]
    · intro q hqp hqi
      simp only [if_neg hqi, if_neg hqp, hother q hqi]

/-- An insertion keeps the order. -/
theorem inserted (h : Ordered m₀ known ahead behind) (hcontainer : known container)
    (hitem : ¬known item) (hm' : Inserted m₀ known container item m') :
    ∃ ahead' behind', Ordered m' (fun q => known q ∨ q = item) ahead' behind' := by
  cases hm' with
  | behind hends hfirst hat hnew hother =>
      exact ⟨_, _, h.insert_behind hcontainer hitem hends hfirst hat hnew hother⟩
  | between e prev he hlast hprev hnew hat hother =>
      exact ⟨_, _, h.insert_between hcontainer hitem he hprev hnew hat hother⟩

/-- A new list of one element. -/
theorem init (h : Ordered m₀ known ahead behind) (hitem : ¬known item)
    (hother : ∀ q, q ≠ item → m q = m₀ q) :
    Ordered (listInitNoContainer m item) (fun q => known q ∨ q = item) ahead behind := by
  have hne : ∀ q, known q → q ≠ item := fun q hq heq => hitem (heq ▸ hq)
  have hat : listInitNoContainer m item item = ⟨some item, some item, none, none⟩ :=
    modify_self m item _
  have hsame : ∀ q, known q → listInitNoContainer m item q = m₀ q := by
    intro q hq
    rw [listInitNoContainer, modify_of_ne m _ (hne q hq), hother q (hne q hq)]
  constructor
  · rintro p q (hp | rfl) hpq
    · rw [hsame p hp] at hpq
      obtain ⟨hq, hlt, hgt, hback⟩ := h.next p q hp hpq
      rw [hsame q hq]
      exact ⟨.inl hq, hlt, hgt, hback⟩
    · rw [hat] at hpq
      cases hpq
  · rintro p q (hp | rfl) hpq
    · rw [hsame p hp] at hpq
      obtain ⟨hq, hlt, hgt, hback⟩ := h.prev p q hp hpq
      rw [hsame q hq]
      exact ⟨.inl hq, hlt, hgt, hback⟩
    · rw [hat] at hpq
      cases hpq
  · rintro p q (hp | rfl) hpq
    · rw [hsame p hp] at hpq
      obtain ⟨hq, hfirst⟩ := h.start p q hp hpq
      rw [hsame q hq]
      exact ⟨.inl hq, hfirst⟩
    · have hpq' := hpq
      rw [hat] at hpq
      obtain rfl := Option.some.inj hpq
      rw [hat]
      exact ⟨.inr rfl, rfl⟩
  · rintro p q (hp | rfl) hpq
    · rw [hsame p hp] at hpq
      obtain ⟨hq, hback⟩ := h.last p q hp hpq
      rw [hsame q hq]
      exact ⟨.inl hq, hback⟩
    · rw [hat] at hpq
      obtain rfl := Option.some.inj hpq
      exact ⟨.inr rfl, .inl rfl⟩
  · rintro p (hp | rfl) hself
    · rw [hsame p hp] at hself ⊢
      exact h.last_self p hp hself
    · rw [hat]
  · rintro p (hp | rfl) hfirst
    · rw [hsame p hp] at hfirst ⊢
      exact h.first p hp hfirst
    · rw [hat]
      exact .inl rfl
  · rintro p (hp | rfl) hnone
    · rw [hsame p hp] at hnone ⊢
      exact h.empty p hp hnone
    · rw [hat] at hnone
      cases hnone

end Ordered

end Cenix.LinkedLists
