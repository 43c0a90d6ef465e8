import Cenix.Heap.Soundness

namespace Cenix.Heap

/-! More fuel changes nothing about a call that returns. -/

/-- `g` returns what `f` returns, and perhaps more often. -/
def Extends (f g : Heap → Nat → Option (Heap × Option Nat)) : Prop :=
  ∀ h n r, f h n = some r → g h n = some r

theorem search_mono (hle : fuel ≤ fuel') (hrun : search h size fuel s = some found) :
    search h size fuel' s = some found := by
  induction fuel generalizing fuel' s with
  | zero => cases hrun
  | succ fuel ih =>
      obtain _ | fuel' := fuel'
      · omega
      rw [search] at hrun ⊢
      obtain ⟨progress, hround, hrun⟩ := Option.bind_eq_some_iff.mp hrun
      rw [hround, Option.bind_some]
      cases progress with
      | goesOn s' => exact ih (by omega) hrun
      | found s' => exact hrun
      | gaveUp => exact hrun

theorem forHeaders_mono {body body' : Nat → Heap → Option (Heap × Bool)}
    (hbody : ∀ header h r, body header h = some r → body' header h = some r)
    (hle : fuel ≤ fuel') (hrun : forHeaders body last fuel header h = some r) :
    forHeaders body' last fuel' header h = some r := by
  induction fuel generalizing fuel' header h with
  | zero => cases hrun
  | succ fuel ih =>
      obtain _ | fuel' := fuel'
      · omega
      rw [forHeaders_succ] at hrun ⊢
      obtain ⟨r₁, hr₁, hrun⟩ := Option.bind_eq_some_iff.mp hrun
      rw [hbody header h r₁ hr₁, Option.bind_some]
      by_cases hleft : r₁.2 = false ∨ header = last
      · rw [if_pos hleft] at hrun ⊢
        exact hrun
      · rw [if_neg hleft] at hrun ⊢
        obtain ⟨contents, hcontents, hrun⟩ := Option.bind_eq_some_iff.mp hrun
        obtain ⟨next, hnext, hrun⟩ := Option.bind_eq_some_iff.mp hrun
        rw [hcontents, Option.bind_some, hnext, Option.bind_some]
        exact ih (by omega) hrun

theorem relocate_mono (hfg : Extends f g) (hrun : relocate f header h = some r) :
    relocate g header h = some r := by
  unfold relocate at hrun ⊢
  obtain ⟨contents, hcontents, hrun⟩ := Option.bind_eq_some_iff.mp hrun
  rw [hcontents, Option.bind_eq_bind, Option.bind_some]
  by_cases hkind : contents.oldKind ≠ .movable
  · rw [if_pos hkind] at hrun ⊢
    exact hrun
  · rw [if_neg hkind] at hrun ⊢
    obtain ⟨r₁, hr₁, hrun⟩ := Option.bind_eq_some_iff.mp hrun
    exact Option.bind_eq_some_iff.mpr ⟨r₁, hfg _ _ r₁ hr₁, hrun⟩

theorem takeRun_mono (hfg : Extends f g) (hle : fuel ≤ fuel')
    (hrun : takeRun f fuel h size s = some r) : takeRun g fuel' h size s = some r := by
  obtain ⟨h₁, hsplit, -⟩ := Option.bind_eq_some_iff.mp hrun
  rcases Nat.eq_zero_or_pos s.toMove with hmove | hmove
  · rw [takeRun_settled _ _ hsplit hmove] at hrun ⊢
    exact hrun
  · rw [takeRun_moving _ _ hsplit hmove] at hrun ⊢
    obtain ⟨pinned, hpin, hrun⟩ := Option.bind_eq_some_iff.mp hrun
    obtain ⟨r', hloop, hrun⟩ := Option.bind_eq_some_iff.mp hrun
    rw [forHeaders_mono (fun _ _ _ hr => hr) hle hpin, Option.bind_some,
      forHeaders_mono (fun _ _ _ hr => relocate_mono hfg hr) hle hloop, Option.bind_some]
    by_cases hmoved : r'.2 = true
    · rw [if_pos hmoved] at hrun ⊢
      exact hrun
    · rw [if_neg hmoved] at hrun ⊢
      obtain ⟨reverted, hrevert, hrun⟩ := Option.bind_eq_some_iff.mp hrun
      rw [forHeaders_mono (fun _ _ _ hr => hr) hle hrevert]
      exact hrun

theorem heapAlloc_mono (hle : fuel ≤ fuel') : Extends (heapAlloc fuel) (heapAlloc fuel') := by
  induction fuel generalizing fuel' with
  | zero => exact fun _ _ _ hrun => nomatch hrun
  | succ fuel ih =>
      intro h n r hrun
      obtain _ | fuel' := fuel'
      · omega
      rw [heapAlloc_succ] at hrun ⊢
      obtain ⟨base, hbase, hrun⟩ := Option.bind_eq_some_iff.mp hrun
      obtain ⟨contents, hcontents, hrun⟩ := Option.bind_eq_some_iff.mp hrun
      rw [hbase, Option.bind_some, hcontents, Option.bind_some]
      by_cases hless : h.availableMemory < roundSize n
      · rw [if_pos hless] at hrun ⊢
        exact hrun
      · rw [if_neg hless] at hrun ⊢
        obtain ⟨found, hfound, hrun⟩ := Option.bind_eq_some_iff.mp hrun
        rw [search_mono (by omega) hfound, Option.bind_some]
        cases found with
        | none => exact hrun
        | some s => exact takeRun_mono (ih (by omega)) (by omega) hrun

/-- A call returns one result. -/
theorem heapAlloc_unique (first : heapAlloc fuel h n = some r)
    (second : heapAlloc fuel' h n = some r') : r = r' := by
  have hfirst := heapAlloc_mono (Nat.le_max_left fuel fuel') h n r first
  have hsecond := heapAlloc_mono (Nat.le_max_right fuel fuel') h n r' second
  exact Option.some.inj (hfirst.symm.trans hsecond)

end Cenix.Heap
