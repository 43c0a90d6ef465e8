import Cenix.LinkedLists.PointerWalks

namespace Cenix.LinkedLists

/-! Container-less lists in which a pointer need not have its counterpart. -/

variable {P : Type} [DecidableEq P] {m m₀ m' : P → Links P} {known : P → Prop}
  {ahead behind : P → Nat} {old item container p q : P}

/-- What an address update of `item` leaves behind, whatever its links are. -/
structure Relinked (m : P → Links P) (item : P) (m' : P → Links P) : Prop where
  prev : ∀ q, (m' q).prev = if (m item).next = some q then some item else (m q).prev
  next : ∀ q, (m' q).next = if (m item).prev = some q then some item else (m q).next
  starts : (m item).prev = none →
    ∀ q, Reaches (fun a => (m' a).next) item q → (m' q).start = some item
  start : ∀ q, ¬((m item).prev = none ∧ Reaches (fun a => (m' a).next) item q) →
    (m' q).start = (m q).start
  lasts : (m item).next = none →
    ∀ q, Reaches (fun a => (m' a).prev) item q → (m' q).last = some item
  last : ∀ q, ¬((m item).next = none ∧ Reaches (fun a => (m' a).prev) item q) →
    (m' q).last = (m q).last

/-- The loops of `relinkEnds` on walks that end. -/
theorem relinkEnds_ends (m : P → Links P) (item : P)
    (hforward : (m item).prev = none → Ends (fun a => (m a).next) item)
    (hbackward : (m item).next = none → Ends (fun a => (m a).prev) item) :
    ∃ n m', (∀ fuel ≥ n, relinkEnds fuel m item = some m') ∧
      (∀ q, (m' q).prev = (m q).prev ∧ (m' q).next = (m q).next) ∧
      (∀ q, ((m item).prev = none ∧ Reaches (fun a => (m a).next) item q →
          (m' q).start = some item) ∧
        (¬((m item).prev = none ∧ Reaches (fun a => (m a).next) item q) →
          (m' q).start = (m q).start)) ∧
      ∀ q, ((m item).next = none ∧ Reaches (fun a => (m a).prev) item q →
          (m' q).last = some item) ∧
        (¬((m item).next = none ∧ Reaches (fun a => (m a).prev) item q) →
          (m' q).last = (m q).last) := by
  have hstarts : ∃ n m₁, (∀ fuel ≥ n, (if (m item).prev = none then
      setStarts fuel item m (some item) else some m) = some m₁) ∧
      (∀ q, (m₁ q).prev = (m q).prev ∧ (m₁ q).next = (m q).next ∧ (m₁ q).last = (m q).last) ∧
      ∀ q, ((m item).prev = none ∧ Reaches (fun a => (m a).next) item q →
          (m₁ q).start = some item) ∧
        (¬((m item).prev = none ∧ Reaches (fun a => (m a).next) item q) →
          (m₁ q).start = (m q).start) := by
    by_cases hprev : (m item).prev = none
    · obtain ⟨n, hn⟩ := updateAlong_ends (·.next)
        (fun l => { l with start := some item }) (fun _ => rfl) (fun _ => rfl)
        (hforward hprev)
      obtain ⟨m₁, hm₁, hat⟩ := hn m fun _ => rfl
      refine ⟨n, m₁, fun fuel hfuel => ?_, fun q => ?_, fun q => ⟨?_, ?_⟩⟩
      · rw [if_pos hprev]
        exact hm₁ fuel hfuel
      · by_cases hq : Reaches (fun a => (m a).next) item q
        · rw [(hat q).1 hq]
          exact ⟨rfl, rfl, rfl⟩
        · rw [(hat q).2 hq]
          exact ⟨rfl, rfl, rfl⟩
      · intro hq
        rw [(hat q).1 hq.2]
      · intro hq
        rw [(hat q).2 fun hreach => hq ⟨hprev, hreach⟩]
    · exact ⟨0, m, fun fuel _ => if_neg hprev, fun _ => ⟨rfl, rfl, rfl⟩,
        fun q => ⟨fun hq => absurd hq.1 hprev, fun _ => rfl⟩⟩
  obtain ⟨n₁, m₁, hm₁, hsame, hstart⟩ := hstarts
  by_cases hnext : (m item).next = none
  · obtain ⟨n₂, hn₂⟩ := updateAlong_ends (·.prev)
      (fun l => { l with last := some item }) (fun _ => rfl) (fun _ => rfl)
      (hbackward hnext)
    obtain ⟨m₂, hm₂, hat⟩ := hn₂ m₁ fun q => (hsame q).1
    have hlinks : ∀ q, (m₂ q).prev = (m₁ q).prev ∧ (m₂ q).next = (m₁ q).next ∧
        (m₂ q).start = (m₁ q).start := by
      intro q
      by_cases hq : Reaches (fun a => (m a).prev) item q
      · rw [(hat q).1 hq]
        exact ⟨rfl, rfl, rfl⟩
      · rw [(hat q).2 hq]
        exact ⟨rfl, rfl, rfl⟩
    refine ⟨n₁ + n₂, m₂, fun fuel hfuel => ?_, fun q => ?_, fun q => ?_, fun q => ⟨?_, ?_⟩⟩
    · rw [relinkEnds, hm₁ fuel (by omega), Option.bind_some, (hsame item).2.1, if_pos hnext]
      exact hm₂ fuel (by omega)
    · exact ⟨(hlinks q).1.trans (hsame q).1, (hlinks q).2.1.trans (hsame q).2.1⟩
    · rw [(hlinks q).2.2]
      exact hstart q
    · intro hq
      rw [(hat q).1 hq.2]
    · intro hq
      rw [(hat q).2 fun hreach => hq ⟨hnext, hreach⟩, (hsame q).2.2]
  · refine ⟨n₁, m₁, fun fuel hfuel => ?_, fun q => ⟨(hsame q).1, (hsame q).2.1⟩, hstart,
      fun q => ⟨?_, ?_⟩⟩
    · rw [relinkEnds, hm₁ fuel hfuel, Option.bind_some, (hsame item).2.1, if_neg hnext]
    · exact fun hq => absurd hq.1 hnext
    · exact fun _ => (hsame q).2.2

/-- An address update ends when the walks from `item` do. -/
theorem listUpdateAddressNoContainer_ends (hprev : (m item).prev ≠ some item)
    (hnext : (m item).next ≠ some item)
    (hforward : (m item).prev = none → Ends (fun a => (m a).next) item)
    (hbackward : (m item).next = none → Ends (fun a => (m a).prev) item) :
    ∃ n m', (∀ fuel ≥ n, listUpdateAddressNoContainer fuel m item = some m') ∧
      Relinked m item m' := by
  have hrelink := relinkNeighbours_eq m hprev
  have hprevs : ∀ q, (relinkNeighbours m item q).prev =
      if (m item).next = some q then some item else (m q).prev := fun q => by rw [hrelink q]
  have hnexts : ∀ q, (relinkNeighbours m item q).next =
      if (m item).prev = some q then some item else (m q).next := fun q => by rw [hrelink q]
  have hitemPrev : (relinkNeighbours m item item).prev = (m item).prev := by
    rw [hprevs, if_neg hnext]
  have hitemNext : (relinkNeighbours m item item).next = (m item).next := by
    rw [hnexts, if_neg hprev]
  have hstarts : (relinkNeighbours m item item).prev = none →
      Ends (fun a => (relinkNeighbours m item a).next) item := by
    intro hfirst
    rw [hitemPrev] at hfirst
    have hsame : (fun a => (relinkNeighbours m item a).next) = fun a => (m a).next := by
      funext a
      rw [hnexts, hfirst, if_neg (by simp)]
    rw [hsame]
    exact hforward hfirst
  have hlasts : (relinkNeighbours m item item).next = none →
      Ends (fun a => (relinkNeighbours m item a).prev) item := by
    intro hend
    rw [hitemNext] at hend
    have hsame : (fun a => (relinkNeighbours m item a).prev) = fun a => (m a).prev := by
      funext a
      rw [hprevs, hend, if_neg (by simp)]
    rw [hsame]
    exact hbackward hend
  obtain ⟨n, m', hm', hlinks, hstart, hlast⟩ :=
    relinkEnds_ends (relinkNeighbours m item) item hstarts hlasts
  have hforward' : (fun a => (m' a).next) = fun a => (relinkNeighbours m item a).next :=
    funext fun a => (hlinks a).2
  have hbackward' : (fun a => (m' a).prev) = fun a => (relinkNeighbours m item a).prev :=
    funext fun a => (hlinks a).1
  rw [hitemPrev, ← hforward'] at hstart
  rw [hitemNext, ← hbackward'] at hlast
  refine ⟨n, m', hm', ?_, ?_, ?_, ?_, ?_, ?_⟩
  · exact fun q => (hlinks q).1.trans (hprevs q)
  · exact fun q => (hlinks q).2.trans (hnexts q)
  · exact fun hfirst q hq => (hstart q).1 ⟨hfirst, hq⟩
  · intro q hq
    rw [(hstart q).2 hq, hrelink q]
  · exact fun hend q hq => (hlast q).1 ⟨hend, hq⟩
  · intro q hq
    rw [(hlast q).2 hq, hrelink q]

/-- All pointers of the known elements stay among them and lead forwards or backwards.
An element may be missing from the list that its own pointers lead into. -/
structure Ordered (m : P → Links P) (known : P → Prop) (ahead behind : P → Nat) : Prop where
  next : ∀ p q, known p → (m p).next = some q →
    known q ∧ ahead q < ahead p ∧ behind p < behind q ∧ (m q).prev ≠ none
  prev : ∀ p q, known p → (m p).prev = some q →
    known q ∧ ahead p < ahead q ∧ behind q < behind p ∧ (m q).next ≠ none
  start : ∀ p q, known p → (m p).start = some q → known q ∧ (m q).prev = none
  last : ∀ p q, known p → (m p).last = some q → known q ∧ (q = p ∨ (m q).prev ≠ none)
  last_self : ∀ p, known p → (m p).last = some p → (m p).next = none
  first : ∀ p, known p → (m p).prev = none →
    (m p).start = some p ∨ (m p).start = none ∧ (m p).last ≠ some p
  empty : ∀ p, known p → (m p).last = none → m p = .empty

namespace Ordered

omit [DecidableEq P] in
theorem next_ends (h : Ordered m known ahead behind) (hp : known p) :
    Ends (fun a => (m a).next) p :=
  ends_of_rank _ _ (fun a b ha hb => ⟨(h.next a b ha hb).1, (h.next a b ha hb).2.1⟩) hp

omit [DecidableEq P] in
theorem prev_ends (h : Ordered m known ahead behind) (hp : known p) :
    Ends (fun a => (m a).prev) p :=
  ends_of_rank _ _ (fun a b ha hb => ⟨(h.prev a b ha hb).1, (h.prev a b ha hb).2.2.1⟩) hp

/-! An address update of `item`, a copy of the known element `old` that nothing
known points to. -/

section Relinking

/-- The pointers of the copy and of everything else before the update. -/
theorem copied_next (h : Ordered m₀ known ahead behind) (hold : known old) (hitem : ¬known item)
    (hself : m item = m₀ old) (hother : ∀ q, q ≠ item → m q = m₀ q) (p q : P)
    (hp : known p ∨ p = item) (hnext : (m p).next = some q) :
    known q ∧ q ≠ item ∧ Function.update ahead item (ahead old) q <
        Function.update ahead item (ahead old) p ∧
      Function.update behind item (behind old) p < Function.update behind item (behind old) q ∧
      (m q).prev ≠ none := by
  have hknown : ∃ x, known x ∧ (m₀ x).next = some q ∧
      Function.update ahead item (ahead old) p = ahead x ∧
      Function.update behind item (behind old) p = behind x := by
    by_cases hpi : p = item
    · subst hpi
      exact ⟨old, hold, hself ▸ hnext, by simp, by simp⟩
    · refine ⟨p, hp.resolve_right hpi, hother p hpi ▸ hnext, ?_, ?_⟩
      · rw [Function.update_of_ne hpi]
      · rw [Function.update_of_ne hpi]
  obtain ⟨x, hx, hxq, hahead, hbehind⟩ := hknown
  obtain ⟨hq, hlt, hgt, hprev⟩ := h.next x q hx hxq
  have hqi : q ≠ item := fun heq => hitem (heq ▸ hq)
  rw [hahead, hbehind, Function.update_of_ne hqi, Function.update_of_ne hqi, hother q hqi]
  exact ⟨hq, hqi, hlt, hgt, hprev⟩

theorem copied_prev (h : Ordered m₀ known ahead behind) (hold : known old) (hitem : ¬known item)
    (hself : m item = m₀ old) (hother : ∀ q, q ≠ item → m q = m₀ q) (p q : P)
    (hp : known p ∨ p = item) (hprev : (m p).prev = some q) :
    known q ∧ q ≠ item ∧ Function.update ahead item (ahead old) p <
        Function.update ahead item (ahead old) q ∧
      Function.update behind item (behind old) q < Function.update behind item (behind old) p ∧
      (m q).next ≠ none := by
  have hknown : ∃ x, known x ∧ (m₀ x).prev = some q ∧
      Function.update ahead item (ahead old) p = ahead x ∧
      Function.update behind item (behind old) p = behind x := by
    by_cases hpi : p = item
    · subst hpi
      exact ⟨old, hold, hself ▸ hprev, by simp, by simp⟩
    · refine ⟨p, hp.resolve_right hpi, hother p hpi ▸ hprev, ?_, ?_⟩
      · rw [Function.update_of_ne hpi]
      · rw [Function.update_of_ne hpi]
  obtain ⟨x, hx, hxq, hahead, hbehind⟩ := hknown
  obtain ⟨hq, hlt, hgt, hnext⟩ := h.prev x q hx hxq
  have hqi : q ≠ item := fun heq => hitem (heq ▸ hq)
  rw [hahead, hbehind, Function.update_of_ne hqi, Function.update_of_ne hqi, hother q hqi]
  exact ⟨hq, hqi, hlt, hgt, hnext⟩

theorem updateAddress_ends (h : Ordered m₀ known ahead behind) (hold : known old)
    (hitem : ¬known item) (hself : m item = m₀ old) (hother : ∀ q, q ≠ item → m q = m₀ q) :
    ∃ n m', (∀ fuel ≥ n, listUpdateAddressNoContainer fuel m item = some m') ∧
      Relinked m item m' := by
  have hnext := h.copied_next hold hitem hself hother
  have hprev := h.copied_prev hold hitem hself hother
  refine listUpdateAddressNoContainer_ends ?_ ?_ ?_ ?_
  · exact fun heq => (hprev item item (.inr rfl) heq).2.1 rfl
  · exact fun heq => (hnext item item (.inr rfl) heq).2.1 rfl
  · exact fun _ => ends_of_rank _ _ (fun a b ha hb =>
      ⟨.inl (hnext a b ha hb).1, (hnext a b ha hb).2.2.1⟩) (.inr rfl)
  · exact fun _ => ends_of_rank _ _ (fun a b ha hb =>
      ⟨.inl (hprev a b ha hb).1, (hprev a b ha hb).2.2.2.1⟩) (.inr rfl)

/-- The update keeps the order, with `item` where `old` is. -/
theorem relinked (h : Ordered m₀ known ahead behind) (hold : known old) (hitem : ¬known item)
    (hself : m item = m₀ old) (hother : ∀ q, q ≠ item → m q = m₀ q) (hm' : Relinked m item m') :
    Ordered m' (fun q => known q ∨ q = item) (Function.update ahead item (ahead old))
      (Function.update behind item (behind old)) := by
  have hnext := h.copied_next hold hitem hself hother
  have hprev := h.copied_prev hold hitem hself hother
  have hne : ∀ q, known q → q ≠ item := fun q hq heq => hitem (heq ▸ hq)
  -- no pointer that is there goes away
  have hkeepPrev : ∀ q, (m q).prev ≠ none → (m' q).prev ≠ none := by
    intro q hq
    rw [hm'.prev]
    split
    · simp
    · exact hq
  have hkeepNext : ∀ q, (m q).next ≠ none → (m' q).next ≠ none := by
    intro q hq
    rw [hm'.next]
    split
    · simp
    · exact hq
  have hitemPrev : (m' item).prev = (m item).prev := by
    rw [hm'.prev, if_neg fun heq => (hnext item item (.inr rfl) heq).2.1 rfl]
  have hitemNext : (m' item).next = (m item).next := by
    rw [hm'.next, if_neg fun heq => (hprev item item (.inr rfl) heq).2.1 rfl]
  have hnext' : ∀ p q, (known p ∨ p = item) → (m' p).next = some q →
      (known q ∨ q = item) ∧ Function.update ahead item (ahead old) q <
        Function.update ahead item (ahead old) p ∧
      Function.update behind item (behind old) p < Function.update behind item (behind old) q ∧
      (m' q).prev ≠ none := by
    intro p q hp hpq
    rw [hm'.next] at hpq
    split at hpq
    · rename_i hitemP
      obtain rfl := Option.some.inj hpq
      obtain ⟨hknown, hpi, hlt, hgt, -⟩ := hprev item p (.inr rfl) hitemP
      exact ⟨.inr rfl, hlt, hgt, hkeepPrev item (by rw [hitemP]; simp)⟩
    · obtain ⟨hknown, hqi, hlt, hgt, hq⟩ := hnext p q hp hpq
      exact ⟨.inl hknown, hlt, hgt, hkeepPrev q hq⟩
  have hprev' : ∀ p q, (known p ∨ p = item) → (m' p).prev = some q →
      (known q ∨ q = item) ∧ Function.update ahead item (ahead old) p <
        Function.update ahead item (ahead old) q ∧
      Function.update behind item (behind old) q < Function.update behind item (behind old) p ∧
      (m' q).next ≠ none := by
    intro p q hp hpq
    rw [hm'.prev] at hpq
    split at hpq
    · rename_i hitemP
      obtain rfl := Option.some.inj hpq
      obtain ⟨hknown, hpi, hlt, hgt, -⟩ := hnext item p (.inr rfl) hitemP
      exact ⟨.inr rfl, hlt, hgt, hkeepNext item (by rw [hitemP]; simp)⟩
    · obtain ⟨hknown, hqi, hlt, hgt, hq⟩ := hprev p q hp hpq
      exact ⟨.inl hknown, hlt, hgt, hkeepNext q hq⟩
  -- what the loops reach beyond `item` has a pointer back
  have hforward : ∀ q, Reaches (fun a => (m' a).next) item q → q ≠ item → (m' q).prev ≠ none := by
    intro q hq hqi
    obtain ⟨r, hr, hrq⟩ := hq.pointed hqi
    have hknown := Reaches.mem (fun a b ha hb => (hnext' a b ha hb).1) (.inr rfl) hr
    exact (hnext' r q hknown hrq).2.2.2
  have hbackward : ∀ q, Reaches (fun a => (m' a).prev) item q → q ≠ item →
      (m' q).next ≠ none ∧ (m' item).prev ≠ none := by
    intro q hq hqi
    obtain ⟨r, hr, hrq⟩ := hq.pointed hqi
    have hknown := Reaches.mem (fun a b ha hb => (hprev' a b ha hb).1) (.inr rfl) hr
    refine ⟨(hprev' r q hknown hrq).2.2.2, ?_⟩
    obtain heq | ⟨s, hs, -⟩ := reaches_iff.mp hq
    · exact absurd heq hqi
    · rw [hs]
      simp
  refine ⟨hnext', hprev', ?_, ?_, ?_, ?_, ?_⟩
  · intro p q hp hstart
    by_cases hwalk : (m item).prev = none ∧ Reaches (fun a => (m' a).next) item p
    · rw [hm'.starts hwalk.1 p hwalk.2] at hstart
      obtain rfl := Option.some.inj hstart
      exact ⟨.inr rfl, hitemPrev.trans hwalk.1⟩
    · rw [hm'.start p hwalk] at hstart
      have hq : known q ∧ (m₀ q).prev = none := by
        by_cases hpi : p = item
        · rw [hpi, hself] at hstart
          exact h.start old q hold hstart
        · rw [hother p hpi] at hstart
          exact h.start p q (hp.resolve_right hpi) hstart
      have hqPrev : (m q).prev = none := by
        rw [hother q (hne q hq.1)]
        exact hq.2
      refine ⟨.inl hq.1, ?_⟩
      rw [hm'.prev, if_neg, hqPrev]
      exact fun heq => (hnext item q (.inr rfl) heq).2.2.2.2 hqPrev
  · intro p q hp hlast
    by_cases hwalk : (m item).next = none ∧ Reaches (fun a => (m' a).prev) item p
    · rw [hm'.lasts hwalk.1 p hwalk.2] at hlast
      obtain rfl := Option.some.inj hlast
      refine ⟨.inr rfl, ?_⟩
      by_cases hpi : p = item
      · exact .inl hpi.symm
      · exact .inr (hbackward p hwalk.2 hpi).2
    · rw [hm'.last p hwalk] at hlast
      by_cases hpi : p = item
      · rw [hpi, hself] at hlast
        obtain ⟨hq, hqOld | hqPrev⟩ := h.last old q hold hlast
        · rw [hqOld] at hlast
          refine absurd ⟨?_, hpi ▸ Reaches.refl _ _⟩ hwalk
          rw [hself]
          exact h.last_self old hold hlast
        · refine ⟨.inl hq, .inr (hkeepPrev q ?_)⟩
          rwa [hother q (hne q hq)]
      · rw [hother p hpi] at hlast
        obtain ⟨hq, hqPrev⟩ := h.last p q (hp.resolve_right hpi) hlast
        refine ⟨.inl hq, hqPrev.imp_right fun hqPrev => hkeepPrev q ?_⟩
        rwa [hother q (hne q hq)]
  · intro p hp hlast
    by_cases hwalk : (m item).next = none ∧ Reaches (fun a => (m' a).prev) item p
    · rw [hm'.lasts hwalk.1 p hwalk.2] at hlast
      obtain rfl := Option.some.inj hlast
      exact hitemNext.trans hwalk.1
    · rw [hm'.last p hwalk] at hlast
      by_cases hpi : p = item
      · rw [hpi, hself] at hlast
        exact absurd (h.last old item hold hlast).1 hitem
      · rw [hother p hpi] at hlast
        have hpNext : (m p).next = none := by
          rw [hother p hpi]
          exact h.last_self p (hp.resolve_right hpi) hlast
        rw [hm'.next, if_neg, hpNext]
        exact fun heq => (hprev item p (.inr rfl) heq).2.2.2.2 hpNext
  · intro p hp hpPrev
    by_cases hpi : p = item
    · subst hpi
      exact .inl (hm'.starts (hitemPrev ▸ hpPrev) p (Reaches.refl _ _))
    · have hpKnown := hp.resolve_right hpi
      have hpOld : (m₀ p).prev = none := by
        rw [hm'.prev] at hpPrev
        split at hpPrev
        · cases hpPrev
        · rwa [hother p hpi] at hpPrev
      rw [hm'.start p fun hwalk => hforward p hwalk.2 hpi hpPrev, hother p hpi]
      refine (h.first p hpKnown hpOld).imp_right fun hend => ⟨hend.1, ?_⟩
      by_cases hwalk : (m item).next = none ∧ Reaches (fun a => (m' a).prev) item p
      · rw [hm'.lasts hwalk.1 p hwalk.2]
        exact fun heq => hpi (Option.some.inj heq).symm
      · rw [hm'.last p hwalk, hother p hpi]
        exact hend.2
  · intro p hp hlast
    have hwalk : ¬((m item).next = none ∧ Reaches (fun a => (m' a).prev) item p) := by
      intro hwalk
      rw [hm'.lasts hwalk.1 p hwalk.2] at hlast
      cases hlast
    have hpEmpty : m p = .empty := by
      rw [hm'.last p hwalk] at hlast
      by_cases hpi : p = item
      · rw [hpi, hself] at hlast ⊢
        exact h.empty old hold hlast
      · rw [hother p hpi] at hlast ⊢
        exact h.empty p (hp.resolve_right hpi) hlast
    have hpPrev : (m' p).prev = none := by
      rw [hm'.prev, if_neg, hpEmpty]
      · rfl
      · exact fun heq => (hnext item p (.inr rfl) heq).2.2.2.2 (by rw [hpEmpty]; rfl)
    have hpNext : (m' p).next = none := by
      rw [hm'.next, if_neg, hpEmpty]
      · rfl
      · exact fun heq => (hprev item p (.inr rfl) heq).2.2.2.2 (by rw [hpEmpty]; rfl)
    have hpStart : (m' p).start = none := by
      rw [hm'.start p, hpEmpty]
      · rfl
      · intro hstarts
        by_cases hpi : p = item
        · refine hwalk ⟨?_, hpi ▸ Reaches.refl _ _⟩
          rw [← hpi, hpEmpty]
          rfl
        · exact hforward p hstarts.2 hpi hpPrev
    cases hlinks : m' p
    rw [hlinks] at hlast hpPrev hpNext hpStart
    simp only at hlast hpPrev hpNext hpStart
    rw [hlast, hpPrev, hpNext, hpStart]
    rfl

end Relinking

end Ordered

end Cenix.LinkedLists
