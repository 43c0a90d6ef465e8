import Cenix.Capabilities.NodeTrees

namespace Cenix

open LinkedLists

/-! The lists of capabilities that are handed over, one after the other. -/

namespace Space

variable {s s' : Space} {first second source dest : SlotPtr} {copied : Bool} {n : Nat}
  {address depth : Nat}

/-- A capability in the first space, and an empty slot of the second one for it. -/
structure Entry (s : Space) (first second : SlotPtr) (copied : Bool) (source dest : SlotPtr) :
    Prop where
  sourceHeld : s.Holds first source
  destHeld : s.Holds second dest
  occupied : (s.slots source).handlers ≠ none
  copyable : copied = true → (s.slots source).handlers ≠ some .node
  empty : (s.slots dest).handlers = none

/-- Links to an empty slot of the second space are not in the way of capabilities of the
first one. -/
structure Ready (s : Space) (first second : SlotPtr) (known : SlotPtr → Prop) : Prop where
  ordered : OrderedLists s known
  live : ∀ q, s.Live q → known q
  stale : ∀ q, s.Holds second q → known q → ¬s.Live q →
    ∃ skipped, ¬s.Holds first skipped ∧ StaleLists s known q skipped

/-- What well-linked lists can have become after `n` entries.  Only a copy followed by two
moves can have left links to a slot of the second space. -/
inductive Phase (s : Space) (first second : SlotPtr) : Nat → Prop where
  | linked {n : Nat} (h : s.WellLinked) : Phase s first second n
  | copied {n : Nat} {skipped : SlotPtr} (hn : 1 ≤ n) (h : OneCopy s s.Live skipped)
      (hskipped : ¬s.Holds first skipped) : Phase s first second n
  | unlinked {n : Nat} (hn : 2 ≤ n) (h : OrderedLists s s.Live) : Phase s first second n
  | stale {n : Nat} {old skipped : SlotPtr} (hn : 2 ≤ n)
      (h : StaleLists s (fun q => s.Live q ∨ q = old) old skipped)
      (hold : ¬s.Live old) (hskipped : ¬s.Holds first skipped)
      (hstays : ¬s.Holds second old) : Phase s first second n
  | ready {n : Nat} {known : SlotPtr → Prop} (hn : 3 ≤ n) (h : s.Ready first second known) :
      Phase s first second n
  | done {n : Nat} (hn : 4 ≤ n) : Phase s first second n

theorem Phase.later (h : s.Phase first second n) : s.Phase first second (n + 1) := by
  cases h with
  | linked h => exact .linked h
  | copied hn h hskipped => exact .copied (by omega) h hskipped
  | unlinked hn h => exact .unlinked (by omega) h
  | stale hn h hold hskipped hstays => exact .stale (by omega) h hold hskipped hstays
  | ready hn h => exact .ready (by omega) h
  | done hn => exact .done (by omega)

theorem HandedOver.live_copied (h : HandedOver s true source dest s') (hsource : s.Live source)
    (hdest : s.Slot dest) (hne : source ≠ dest) : s'.Live = fun q => s.Live q ∨ q = dest := by
  funext q
  simp [h.live_iff hsource hdest hne]

theorem HandedOver.live_moved (h : HandedOver s false source dest s') (hsource : s.Live source)
    (hdest : s.Slot dest) (hne : source ≠ dest) (q : SlotPtr) :
    s'.Live q ↔ (s.Live q ∧ q ≠ source) ∨ q = dest := by
  simp [h.live_iff hsource hdest hne]

namespace Entry

theorem source_live (h : s.Entry first second copied source dest)
    (htrees : s.NodesApart first second) : s.Live source :=
  ⟨htrees.firstTree.slots source h.sourceHeld, h.occupied⟩

theorem dest_dead (h : s.Entry first second copied source dest) : ¬s.Live dest :=
  fun hlive => hlive.2 h.empty

theorem dest_slot (h : s.Entry first second copied source dest)
    (htrees : s.NodesApart first second) : s.Slot dest :=
  htrees.secondTree.slots dest h.destHeld

theorem ne (h : s.Entry first second copied source dest)
    (htrees : s.NodesApart first second) : source ≠ dest :=
  htrees.ne h.sourceHeld h.destHeld

end Entry

/-- A copy returns in every phase, and ends in the next one. -/
theorem Phase.copy (h : s.Phase first second n) (hn : n < 4)
    (htrees : s.NodesApart first second) (hentry : s.Entry first second true source dest)
    (address depth : Nat) :
    ∃ s', s.copyCapability source dest address depth = some s' ∧
      s'.Phase first second (n + 1) := by
  have hlive := hentry.source_live htrees
  have hdead := hentry.dest_dead
  have hne := hentry.ne htrees
  -- what is the same in all phases
  have hover : ∀ {s'}, s.copyCapability source dest address depth = some s' →
      s'.Holds = s.Holds ∧ s'.Live = fun q => s.Live q ∨ q = dest := fun hs' =>
    have hover := copyCapability_handedOver hne hs'
    ⟨hover.holds_copied (hentry.copyable rfl) hentry.empty,
      hover.live_copied hlive (hentry.dest_slot htrees) hne⟩
  cases h with
  | linked h =>
      obtain ⟨s', hs', hcopied, hordered⟩ :=
        h.orderedLists.copy hlive hdead address depth
      obtain ⟨hholds, hlive'⟩ := hover hs'
      have honce := h.oneCopy hlive hdead hcopied hordered
      rw [← hlive'] at honce
      refine ⟨s', hs', .copied (by omega) honce ?_⟩
      rw [hholds]
      exact fun hbelow => htrees.disjoint dest hbelow hentry.destHeld
  | copied _ h =>
      obtain ⟨s', hs', -, hordered⟩ :=
        h.ordered.copy hlive hdead address depth
      rw [← (hover hs').2] at hordered
      exact ⟨s', hs', .unlinked (by omega) hordered⟩
  | unlinked _ h =>
      obtain ⟨s', hs', -, hordered⟩ := h.copy hlive hdead address depth
      rw [← (hover hs').2] at hordered
      exact ⟨s', hs', .unlinked (by omega) hordered⟩
  | @stale old _ _ h _ _ hstays =>
      have hnew : ¬(s.Live dest ∨ dest = old) := by
        rintro (hdest | rfl)
        · exact hdead hdest
        · exact hstays hentry.destHeld
      obtain ⟨s', hs', -, hordered⟩ := h.ordered.copy (.inl hlive) hnew address depth
      obtain ⟨hholds, hlive'⟩ := hover hs'
      refine ⟨s', hs', .ready (by omega) ⟨hordered, fun q hq => ?_, fun q hq hknown hnot => ?_⟩⟩
      · rw [hlive'] at hq
        exact hq.imp_left .inl
      · rw [hlive', not_or] at hnot
        rw [hholds] at hq
        rcases hknown with (hqLive | rfl) | hqDest
        · exact absurd hqLive hnot.1
        · exact absurd hq hstays
        · exact absurd hqDest hnot.2
  | @ready known _ h =>
      by_cases hknown : known dest
      · obtain ⟨_, -, hstale⟩ := h.stale dest hentry.destHeld hknown hdead
        obtain ⟨s', hs'⟩ := hstale.copyCapability_returns (h.live source hlive) hne address depth
        exact ⟨s', hs', .done (by omega)⟩
      · obtain ⟨s', hs', -⟩ := h.ordered.copy (h.live source hlive) hknown address depth
        exact ⟨s', hs', .done (by omega)⟩
  | done hdone => omega

/-- So does a move. -/
theorem Phase.move (h : s.Phase first second n) (hn : n < 4)
    (htrees : s.NodesApart first second) (hentry : s.Entry first second false source dest) :
    ∃ s', Settles (fun fuel => s.moveCapability fuel source dest) s' ∧
      s'.Phase first second (n + 1) := by
  have hlive := hentry.source_live htrees
  have hdead := hentry.dest_dead
  have hslot := hentry.dest_slot htrees
  have hne := hentry.ne htrees
  have hskips : ∀ {skipped}, ¬s.Holds first skipped → source ≠ skipped :=
    fun hskipped heq => hskipped (heq ▸ hentry.sourceHeld)
  have hover : ∀ {s'}, Settles (fun fuel => s.moveCapability fuel source dest) s' →
      (∀ q, s'.Live q ↔ (s.Live q ∧ q ≠ source) ∨ q = dest) ∧ ¬s'.Holds second source ∧
        ∀ q, s'.Holds first q → s.Holds first q := fun hs' =>
    have ⟨_, hreturns⟩ := hs'.returns
    have hover := moveCapability_handedOver hne hreturns
    have hmoved := htrees.moved hover hentry.sourceHeld hentry.destHeld hentry.empty
    ⟨hover.live_moved hlive hslot hne, hmoved.2.1, hmoved.2.2.1⟩
  cases h with
  | linked h =>
      obtain ⟨hreturns, hlinked, -⟩ := moveCapability_exact h hlive hslot hentry.empty
      exact ⟨_, hreturns, .linked hlinked⟩
  | copied _ h hskipped =>
      obtain ⟨fuel, s', hs', hmoved, hordered⟩ := h.ordered.move hlive hdead
      obtain ⟨hlive', hstays, hfirst⟩ := hover ⟨fuel, hs'⟩
      have hknown : (fun q => s.Live q ∨ q = dest) = fun q => s'.Live q ∨ q = source := by
        funext q
        rw [hlive' q]
        by_cases hqs : q = source
        · simp [hqs, hlive]
        · simp [hqs]
      have hstale := h.move hlive hdead hmoved hordered
      rw [hknown] at hstale
      refine ⟨s', ⟨fuel, hs'⟩, .stale (by omega) hstale ?_ (fun hq => hskipped (hfirst _ hq))
        hstays⟩
      rw [hlive']
      simp [hne]
  | unlinked _ h =>
      obtain ⟨fuel, s', hs', -, hordered⟩ := h.move hlive hdead
      obtain ⟨hlive', hstays, -⟩ := hover ⟨fuel, hs'⟩
      refine ⟨s', ⟨fuel, hs'⟩, .ready (by omega) ⟨hordered, fun q hq => ?_,
        fun q hq hknown hnot => ?_⟩⟩
      · exact ((hlive' q).mp hq).imp_left And.left
      · rw [hlive', not_or, not_and, not_not] at hnot
        rcases hknown with hqLive | hqDest
        · exact absurd (hnot.1 hqLive ▸ hq) hstays
        · exact absurd hqDest hnot.2
  | @stale old skipped _ h hold hskipped hstaysOld =>
      have hnew : ¬(s.Live dest ∨ dest = old) := by
        rintro (hdest | rfl)
        · exact hdead hdest
        · exact hstaysOld hentry.destHeld
      obtain ⟨fuel, s', hs', hmoved, hordered⟩ := h.ordered.move (.inl hlive) hnew
      obtain ⟨hlive', hstays, hfirst⟩ := hover ⟨fuel, hs'⟩
      have hstale := h.move (.inr rfl) (.inl hlive) (fun heq => hold (heq ▸ hlive))
        (hskips hskipped) hnew hmoved hordered
      refine ⟨s', ⟨fuel, hs'⟩, .ready (by omega) ⟨hordered, fun q hq => ?_,
        fun q hq hknown hnot => ?_⟩⟩
      · exact ((hlive' q).mp hq).imp_left (.inl ·.1)
      · rw [hlive', not_or, not_and, not_not] at hnot
        rcases hknown with (hqLive | rfl) | hqDest
        · exact absurd (hnot.1 hqLive ▸ hq) hstays
        · exact ⟨skipped, fun hq => hskipped (hfirst _ hq), hstale⟩
        · exact absurd hqDest hnot.2
  | @ready known _ h =>
      by_cases hknown : known dest
      · obtain ⟨skipped, hskipped, hstale⟩ := h.stale dest hentry.destHeld hknown hdead
        obtain ⟨fuel, s', hs'⟩ := hstale.moveCapability_returns (h.live source hlive) hne
          (hskips hskipped)
        exact ⟨s', ⟨fuel, hs'⟩, .done (by omega)⟩
      · obtain ⟨fuel, s', hs', -⟩ := h.ordered.move (h.live source hlive) hknown
        exact ⟨s', ⟨fuel, hs'⟩, .done (by omega)⟩
  | done hdone => omega

theorem Phase.readdress (h : s.Phase first second n) (hs : Readdressed s s') :
    s'.Phase first second n := by
  cases h with
  | linked h => exact .linked (hs.wellLinked h)
  | copied hn h hskipped =>
      refine .copied hn ?_ (hs.holds ▸ hskipped)
      rw [hs.live]
      exact hs.oneCopy h
  | unlinked hn h =>
      refine .unlinked hn ?_
      rw [hs.live]
      exact hs.orderedLists h
  | stale hn h hold hskipped hstays =>
      refine .stale hn ?_ (hs.live ▸ hold) (hs.holds ▸ hskipped) (hs.holds ▸ hstays)
      rw [hs.live]
      exact hs.staleLists h
  | @ready known hn h =>
      refine .ready hn ⟨hs.orderedLists h.ordered, ?_, fun q hq hknown hnot => ?_⟩
      · rw [hs.live]
        exact h.live
      · rw [hs.holds] at hq ⊢
        rw [hs.live] at hnot
        obtain ⟨skipped, hskipped, hstale⟩ := h.stale q hq hknown hnot
        exact ⟨skipped, hskipped, hs.staleLists hstale⟩
  | done hn => exact .done hn

/-- An entry that hands over its capability. -/
theorem transferSlot_settles (h : s.Phase first second n) (hn : n < 4)
    (htrees : s.NodesApart first second) (hentry : s.Entry first second copied source dest)
    (address : AbsoluteCapabilityAddress) :
    ∃ s', Settles (fun fuel => Kernel.transferSlot fuel s copied source dest address) s' ∧
      HandedOver s copied source dest s' ∧ s'.NodesApart first second ∧
      s'.Phase first second (n + 1) := by
  have hne := hentry.ne htrees
  have hplace : ∃ s₁, Settles (fun fuel => if copied then
        s.copyCapability source dest address.address address.depth
      else s.moveCapability fuel source dest) s₁ ∧ HandedOver s copied source dest s₁ ∧
      s₁.NodesApart first second ∧ s₁.Holds second dest ∧ s₁.Phase first second (n + 1) := by
    cases copied with
    | true =>
        obtain ⟨s₁, hs₁, hphase⟩ := h.copy hn htrees hentry address.address address.depth
        have hover := copyCapability_handedOver hne hs₁
        have hholds := hover.holds_copied (hentry.copyable rfl) hentry.empty
        exact ⟨s₁, .of_eq fun _ => hs₁, hover,
          htrees.copied hover (hentry.copyable rfl) hentry.empty,
          hholds ▸ hentry.destHeld, hphase⟩
    | false =>
        obtain ⟨s₁, hs₁, hphase⟩ := h.move hn htrees hentry
        obtain ⟨fuel, hreturns⟩ := hs₁.returns
        have hover := moveCapability_handedOver hne hreturns
        obtain ⟨hapart, -, -, hkept⟩ :=
          htrees.moved hover hentry.sourceHeld hentry.destHeld hentry.empty
        exact ⟨s₁, hs₁, hover, hapart, hkept dest hentry.destHeld, hphase⟩
  obtain ⟨s₁, hs₁, hover, hapart, hbelow, hphase⟩ := hplace
  obtain ⟨s', hs'⟩ :=
    updateCapabilityAddresses_settles hapart.secondTree hbelow s₁ (.refl s₁) address 0
  obtain ⟨fuel, hreturns⟩ := hs'.returns
  have hreaddressed := updateCapabilityAddresses_readdressed hreturns
  refine ⟨s', hs₁.bind hs', hover.readdress hreaddressed,
    hapart.readdressed hreaddressed, hphase.readdress hreaddressed⟩

end Space

end Cenix
