import Cenix.Heap.CleanLocking

namespace Cenix.Heap

/-! A header behind the region that points back to where a header was. -/

/-- What the headers at the start of a list are determines the blocks. -/
theorem Linked.isPrefix (hl : Linked h before l after) (hm : Linked h before m none)
    (hfirst : firstAddress m none = firstAddress l after) :
    ∃ m', m = l ++ m' ∧ Linked h (lastAddress before l) m' none ∧
      firstAddress m' none = after := by
  induction l generalizing before m with
  | nil => exact ⟨m, rfl, hm, hfirst⟩
  | cons b l ih =>
      cases m with
      | nil => cases hfirst
      | cons c m =>
          have haddress : c.address = b.address := Option.some.inj hfirst
          have hcontents := hl.1.symm.trans (haddress ▸ hm.1)
          simp only [Block.contents, Option.some.injEq, HeapHeader.mk.injEq] at hcontents
          obtain ⟨hsize, hkind, holdKind, href, hnext, -⟩ := hcontents
          have heq : c = b := by
            cases b
            cases c
            simp_all
          subst heq
          obtain ⟨m', rfl, hm', hafter⟩ := ih hl.2 hm.2 hnext.symm
          exact ⟨m', rfl, hm', hafter⟩

theorem Threads.unique (hl : Threads h l) (hm : Threads h m) : m = l := by
  obtain ⟨m', rfl, -, hnone⟩ := hl.linked.isPrefix hm.linked (hm.base.symm.trans hl.base)
  cases m' with
  | nil => exact List.append_nil l
  | cons b m' => cases hnone

/-- The loop goes on behind the margin, from headers `A` that point back to each other or to
`ghost`, where a header was, but not to the header at the margin. -/
structure Stray (margin ghost : Nat) (A : Nat → Prop) (h₀ h : Heap) : Prop where
  base : h.heapBase = h₀.heapBase
  front : ∀ x, x + sizeofHeapHeader ≤ margin → h.headers x = h₀.headers x
  lock : h.headers margin = h₀.headers margin ∨ h.headers margin = none
  beyond : ∀ x, A x ∨ x = ghost → margin < x
  prev : ∀ x contents, A x → h.headers x = some contents →
    ∃ p, contents.prev = some p ∧ (A p ∨ p = ghost)
  next : ∀ x contents, A x ∨ x = ghost → h.headers x = some contents →
    ∀ n ∈ contents.next, A n

namespace Stray

theorem of_writeHeader {h : Heap} {contents : HeapHeader}
    (hy : (h.writeHeader x contents).headers y = some c) :
    (y = x ∧ c = contents) ∨ (y ≠ x ∧ h.headers y = some c) := by
  simp only [writeHeader] at hy
  split at hy
  · rename_i heq
    exact .inl ⟨heq, (Option.some.inj hy).symm⟩
  · rename_i hne
    split at hy
    · cases hy
    · exact .inr ⟨hne, hy⟩

/-- The header that is written gets into the set. -/
theorem write (hs : Stray margin ghost A h₀ h) (contents : HeapHeader) (hx : margin < x)
    (hprev : ∃ p, contents.prev = some p ∧ (A p ∨ p = ghost))
    (hnext : ∀ n ∈ contents.next, A n) :
    Stray margin ghost (fun y => A y ∨ y = x) h₀ (h.writeHeader x contents) := by
  constructor
  · exact hs.base
  · intro y hy
    rw [← hs.front y hy]
    exact writeHeader_apart (.inl (by omega))
  · simp only [writeHeader, if_neg (show margin ≠ x by omega)]
    split
    · exact .inr rfl
    · exact hs.lock
  · rintro y ((hy | rfl) | rfl)
    · exact hs.beyond y (.inl hy)
    · exact hx
    · exact hs.beyond y (.inr rfl)
  · intro y c hy hc
    have hgood : ∃ p, c.prev = some p ∧ (A p ∨ p = ghost) := by
      rcases of_writeHeader hc with ⟨-, rfl⟩ | ⟨hne, hc⟩
      · exact hprev
      · exact hs.prev y c (hy.resolve_right hne) hc
    obtain ⟨p, hp, hA⟩ := hgood
    exact ⟨p, hp, hA.imp_left .inl⟩
  · intro y c hy hc n hn
    rcases of_writeHeader hc with ⟨-, rfl⟩ | ⟨hne, hc⟩
    · exact .inl (hnext n hn)
    · have hy : A y ∨ y = ghost := by
        rcases hy with (hy | hy) | hy
        · exact .inl hy
        · exact absurd hy hne
        · exact .inr hy
      exact .inl (hs.next y c hy hc n hn)

/-- A header of the set, or the ghost, is changed. -/
theorem modify {f : HeapHeader → HeapHeader} (hs : Stray margin ghost A h₀ h)
    (hx : A x ∨ x = ghost) (hmodify : h.modifyHeader x f = some h')
    (hprev : ∀ c, (f c).prev = c.prev ∨ ∃ p, (f c).prev = some p ∧ (A p ∨ p = ghost))
    (hnext : ∀ c, (f c).next = c.next ∨ ∀ n ∈ (f c).next, A n) :
    Stray margin ghost A h₀ h' := by
  simp only [modifyHeader, Option.map_eq_some_iff] at hmodify
  obtain ⟨old, hold, rfl⟩ := hmodify
  have hmargin := hs.beyond x hx
  constructor
  · exact hs.base
  · intro y hy
    rw [← hs.front y hy]
    exact writeHeader_apart (.inl (by omega))
  · simp only [writeHeader, if_neg (show margin ≠ x by omega)]
    split
    · exact .inr rfl
    · exact hs.lock
  · exact hs.beyond
  · intro y c hy hc
    rcases of_writeHeader hc with ⟨rfl, rfl⟩ | ⟨-, hc⟩
    · rcases hprev old with hkept | hgood
      · rw [hkept]
        exact hs.prev y old hy hold
      · exact hgood
    · exact hs.prev y c hy hc
  · intro y c hy hc n hn
    rcases of_writeHeader hc with ⟨rfl, rfl⟩ | ⟨-, hc⟩
    · rcases hnext old with hkept | hgood
      · rw [hkept] at hn
        exact hs.next y old hy hold n hn
      · exact hgood n hn
    · exact hs.next y c hy hc n hn

theorem use (hs : Stray margin ghost A h₀ h) (size : Nat) :
    Stray margin ghost A h₀ (h.use size) :=
  ⟨hs.base, hs.front, hs.lock, hs.beyond, hs.prev, hs.next⟩

theorem relinkPrev {following : Option Nat} (hs : Stray margin ghost A h₀ h)
    (hnext : ∀ n ∈ following, A n) (hprev : A p ∨ p = ghost)
    (hrun : h.relinkPrev following (some p) = some h') : Stray margin ghost A h₀ h' := by
  cases following with
  | none =>
      cases hrun
      exact hs
  | some n =>
      exact hs.modify (.inl (hnext n rfl)) hrun (fun _ => .inr ⟨p, rfl, hprev⟩) fun _ => .inl rfl

theorem splitHeader (hs : Stray margin ghost A h₀ h) (hx : A x)
    (hrun : h.splitHeader x pos = some (h', done)) :
    ∃ A', (∀ y, A y → A' y) ∧ Stray margin ghost A' h₀ h' := by
  simp only [Heap.splitHeader, Option.bind_eq_bind, Option.bind_eq_some_iff] at hrun
  obtain ⟨contents, hcontents, hrun⟩ := hrun
  split at hrun
  · cases hrun
    exact ⟨A, fun _ hy => hy, hs⟩
  · split at hrun
    · cases hrun
      exact ⟨A, fun _ hy => hy, hs⟩
    · simp only [Option.bind_eq_some_iff] at hrun
      obtain ⟨h₁, hset, h₂, hmodify, heq⟩ := hrun
      cases heq
      have hmargin := hs.beyond x (.inl hx)
      have hnext := hs.next x contents (.inl hx) hcontents
      have hnew : margin < x + pos := by omega
      have hs₁ := hs.write ⟨contents.size - pos, .available, .available, .absolute none,
        contents.next, some x⟩ hnew ⟨x, rfl, .inl hx⟩ hnext
      rw [setPrev_eq] at hset
      have hs₂ := hs₁.relinkPrev (fun n hn => .inl (hnext n hn)) (.inl (.inr rfl)) hset
      refine ⟨_, fun y hy => .inl hy, hs₂.modify (.inl (.inl hx)) hmodify (fun _ => .inl rfl) ?_⟩
      intro c
      refine .inr fun n hn => .inr ?_
      exact (Option.some.inj hn).symm

theorem unlink (hs : Stray margin ghost A h₀ h) (hx : A x) (hrun : h.unlink x = some h') :
    Stray margin ghost A h₀ h' := by
  simp only [Heap.unlink, Option.bind_eq_bind, Option.bind_eq_some_iff] at hrun
  obtain ⟨contents, hcontents, h₁, hfirst, contents₁, hcontents₁, hsecond⟩ := hrun
  obtain ⟨p, hp, hpA⟩ := hs.prev x contents hx hcontents
  rw [hp] at hfirst
  have hs₁ := hs.modify hpA hfirst (fun _ => .inl rfl)
    fun _ => .inr (hs.next x contents (.inl hx) hcontents)
  obtain ⟨q, hq, hqA⟩ := hs₁.prev x contents₁ hx hcontents₁
  rw [hq] at hsecond
  exact hs₁.relinkPrev (hs₁.next x contents₁ (.inl hx) hcontents₁) hqA hsecond

theorem lockHeader (hs : Stray margin ghost A h₀ h) (hx : A x)
    (hrun : h.lockHeader start x = some h') : Stray margin ghost A h₀ h' := by
  simp only [Heap.lockHeader, Option.bind_eq_bind, Option.bind_eq_some_iff] at hrun
  obtain ⟨contents, -, hrun⟩ := hrun
  split at hrun
  · exact (hs.use _).modify (.inl hx) hrun (fun _ => .inl rfl) fun _ => .inl rfl
  · exact (hs.use _).unlink hx hrun

/-- The header is copied down, but not as far as the margin. -/
theorem slideDown (hs : Stray margin ghost A h₀ h) (hx : A x) (hp : A p ∨ p = ghost)
    (hmoved : margin < subSize x pos) (hrun : h.slideDown x p pos = some h') :
    ∃ A', (∀ y, A y → A' y) ∧ Stray margin ghost A' h₀ h' := by
  simp only [Heap.slideDown, Option.bind_eq_bind, Option.bind_eq_some_iff] at hrun
  obtain ⟨h₁, hshrink, contents, hcontents, hrun⟩ := hrun
  have hs₁ := hs.modify hp hshrink (fun _ => .inl rfl) fun _ => .inl rfl
  have hs₂ := hs₁.write { contents with size := wrap (contents.size + pos) } hmoved (hs₁.prev x contents hx hcontents) (hs₁.next x contents (.inl hx) hcontents)
  refine ⟨_, fun y hy => .inl hy, hs₂.modify (hp.imp_left .inl) hrun (fun _ => .inl rfl) ?_⟩
  intro c
  refine .inr fun n hn => .inr ?_
  exact (Option.some.inj hn).symm

theorem lockBack (hs : Stray margin ghost A h₀ h) (hx : A x) (hfinish : x < finish)
    (hbound : finish < 2 ^ 32) (hroom : margin + sizeofHeapHeader + sizeofHeapHeader < finish)
    (hrun : h.lockBack start finish x blockEnd = some (h', y)) :
    ∃ A', (∀ x, A x → A' x) ∧ Stray margin ghost A' h₀ h' ∧ (A' y ∨ y = ghost) := by
  have hpos : subSize finish x = finish - x := subSize_of_le hfinish.le hbound
  have hlocks : ∀ {h : Heap} {A : Nat → Prop}, Stray margin ghost A h₀ h → A x →
      ((h.lockHeader start x).bind fun h => some (h, x)) = some (h', y) →
        ∃ A', (∀ x, A x → A' x) ∧ Stray margin ghost A' h₀ h' ∧ (A' y ∨ y = ghost) := by
    intro h A hs hx hrun
    obtain ⟨h₁, hlock, heq⟩ := Option.bind_eq_some_iff.mp hrun
    cases heq
    exact ⟨A, fun _ hy => hy, hs.lockHeader hx hlock, .inl hx⟩
  unfold Heap.lockBack at hrun
  split at hrun
  · simp only [Option.bind_eq_bind, Option.bind_eq_some_iff, hpos] at hrun
    obtain ⟨contents, hcontents, hrun⟩ := hrun
    split at hrun
    · rename_i hprev
      split at hprev
      · rename_i hsmall
        obtain ⟨q, hq, hA⟩ := hs.prev x contents hx hcontents
        cases hq.symm.trans hprev
        obtain ⟨before, -, hrun⟩ := Option.bind_eq_some_iff.mp hrun
        split at hrun
        · obtain ⟨h₁, hslide, heq⟩ := Option.bind_eq_some_iff.mp hrun
          cases heq
          have hmoved : margin < subSize x (finish - x) := by
            rw [subSize_of_le (by omega) (by omega)]
            omega
          obtain ⟨A', hsub, hs'⟩ := hs.slideDown hx hA hmoved hslide
          exact ⟨A', hsub, hs', hA.imp_left (hsub _)⟩
        · exact hlocks hs hx hrun
      · cases hprev
    · obtain ⟨⟨h₁, done⟩, hsplit, hrun⟩ := Option.bind_eq_some_iff.mp hrun
      obtain ⟨A₁, hsub₁, hs₁⟩ := hs.splitHeader hx hsplit
      obtain ⟨A₂, hsub₂, hs₂⟩ := hlocks hs₁ (hsub₁ x hx) hrun
      exact ⟨A₂, fun x hx => hsub₂ x (hsub₁ x hx), hs₂⟩
  · exact hlocks hs hx hrun

theorem lockRound (hs : Stray margin ghost A h₀ h) (hx : A x) (hbound : finish < 2 ^ 32)
    (hroom : margin + sizeofHeapHeader + sizeofHeapHeader < finish)
    (hrun : h.lockRound margin finish x = some (h', y)) :
    ∃ A', (∀ x, A x → A' x) ∧ Stray margin ghost A' h₀ h' ∧ (A' y ∨ y = ghost) := by
  have hmargin := hs.beyond x (.inl hx)
  simp only [Heap.lockRound, Option.bind_eq_bind, Option.bind_eq_some_iff] at hrun
  obtain ⟨contents, -, hrun⟩ := hrun
  split at hrun
  · obtain ⟨rfl, rfl⟩ := Prod.mk.inj (Option.some.inj hrun)
    exact ⟨A, fun _ hy => hy, hs, .inl hx⟩
  · rename_i hinside
    split at hrun
    · obtain ⟨rfl, rfl⟩ := Prod.mk.inj (Option.some.inj hrun)
      exact ⟨A, fun _ hy => hy, hs, .inl hx⟩
    · rw [if_neg (by omega)] at hrun
      exact hs.lockBack hx (by omega) hbound hroom hrun

/-- The loop never gets back in front of the margin. -/
theorem lockHeaders (hs : Stray margin ghost A h₀ h) (hheader : ∀ x ∈ header, A x)
    (hbound : finish < 2 ^ 32) (hroom : margin + sizeofHeapHeader + sizeofHeapHeader < finish)
    (hrun : Heap.lockHeaders margin finish fuel h header = some h') :
    ∃ A', (∀ x, A x → A' x) ∧ Stray margin ghost A' h₀ h' := by
  induction fuel generalizing h A header with
  | zero =>
      cases header with
      | none =>
          cases hrun
          exact ⟨A, fun _ hy => hy, hs⟩
      | some x => cases hrun
  | succ fuel ih =>
      cases header with
      | none =>
          cases hrun
          exact ⟨A, fun _ hy => hy, hs⟩
      | some x =>
          simp only [Heap.lockHeaders, Option.bind_eq_bind, Option.bind_eq_some_iff] at hrun
          obtain ⟨⟨h₁, y⟩, hround, contents, hcontents, hrun⟩ := hrun
          obtain ⟨A₁, hsub₁, hs₁, hy⟩ := hs.lockRound (hheader x rfl) hbound hroom hround
          obtain ⟨A₂, hsub₂, hs₂⟩ := ih hs₁ (hs₁.next y contents hy hcontents) hrun
          exact ⟨A₂, fun x hx => hsub₂ x (hsub₁ x hx), hs₂⟩

/-- The list is broken where the loop has left it. -/
theorem not_threads {b : Block} (hs : Stray margin ghost A h₀ h) (hd : Dangling h₀ (l ++ [b]) stale (c :: m))
    (hl : ∀ p ∈ l, p.address + sizeofHeapHeader ≤ margin) (hb : b.address = margin)
    (hc : A c.address) : ¬Threads h l' := by
  intro ht
  obtain ⟨hfront, hblock⟩ := linked_append.mp hd.front
  have hkept : Linked h none l (some margin) := by
    rw [← hb]
    exact hfront.frame fun p hp => hs.front p.address (hl p hp)
  have hfirst : firstAddress l' none = firstAddress l (some margin) := by
    rw [← ht.base, hs.base, hd.base, ← hb]
    simp only [firstAddress_append]
    rfl
  obtain ⟨m', rfl, hm', hstart⟩ := hkept.isPrefix ht.linked hfirst
  cases m' with
  | nil => cases hstart
  | cons b' m' =>
      have hb' : b'.address = margin := Option.some.inj hstart
      have hread := hm'.1
      rw [hb'] at hread
      rcases hs.lock with hlock | hlock
      · rw [hlock, ← hb] at hread
        have hnext := congrArg (Option.map HeapHeader.next) (hblock.1.symm.trans hread)
        have hnext : firstAddress m' none = some c.address := (Option.some.inj hnext).symm
        cases m' with
        | nil => cases hnext
        | cons c' m' =>
            have hc' : c'.address = c.address := Option.some.inj hnext
            obtain ⟨p, hp, hA⟩ := hs.prev c.address _ hc (hc' ▸ hm'.2.1)
            have hpb : p = b'.address := (Option.some.inj hp).symm
            have hbeyond := hs.beyond p hA
            omega
      · rw [hlock] at hread
        cases hread

end Stray

end Cenix.Heap
