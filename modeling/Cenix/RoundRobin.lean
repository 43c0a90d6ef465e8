import Mathlib.Data.List.Nodup

namespace Cenix

/-! A processor that is given to those who wait for it in turn. -/

/-- Who runs, who waits in which order, and whether a switch is due. -/
structure RoundRobin (T : Type) where
  running : Option T
  waiting : List T
  due : Bool

namespace RoundRobin

variable {T : Type} [DecidableEq T]

/-- Whoever waits already keeps the place. -/
def enqueue (s : RoundRobin T) (t : T) : RoundRobin T :=
  if t ∈ s.waiting then s else { s with waiting := s.waiting ++ [t] }

/-- The first one that waits runs.  The one that ran waits behind the others if it
is still ready, and goes on if nobody waits. -/
def switch (ready : T → Bool) (s : RoundRobin T) : RoundRobin T :=
  match s.waiting, s.running with
  | [], running => { running := running.filter ready, waiting := [], due := false }
  | next :: rest, none => { running := some next, waiting := rest, due := false }
  | next :: rest, some t =>
      let s : RoundRobin T := { running := some next, waiting := rest, due := false }
      if ready t then s.enqueue t else s

/-- One step, with the number of switches in it: some of those who wait leave, one
joins them, or there is a switch. -/
inductive Step (s : RoundRobin T) : Nat → RoundRobin T → Prop where
  | leave (waiting : List T) (due : Bool) (hwaiting : waiting.Sublist s.waiting)
      (hdue : s.due = true → due = true) : Step s 0 { s with waiting := waiting, due := due }
  | enqueue (t : T) (due : Bool) (hdue : s.due = true → due = true)
      (hidle : s.running = none → due = true) : Step s 0 { s.enqueue t with due := due }
  | switch (ready : T → Bool) (hdue : s.due = true) : Step s 1 (s.switch ready)

/-- At most `n` others are in front. -/
def Behind (s : RoundRobin T) (t : T) (n : Nat) : Prop :=
  ∃ front back, s.waiting = front ++ t :: back ∧ front.length ≤ n

variable {s s' s₁ : RoundRobin T} {back : List T} {t u : T} {n : Nat}

@[simp] theorem enqueue_running (s : RoundRobin T) (t : T) :
    (s.enqueue t).running = s.running := by
  unfold enqueue
  split <;> rfl

@[simp] theorem enqueue_due (s : RoundRobin T) (t : T) : (s.enqueue t).due = s.due := by
  unfold enqueue
  split <;> rfl

theorem enqueue_waiting (s : RoundRobin T) (t : T) :
    (s.enqueue t).waiting = if t ∈ s.waiting then s.waiting else s.waiting ++ [t] := by
  unfold enqueue
  split <;> rfl

theorem mem_enqueue : u ∈ (s.enqueue t).waiting ↔ u ∈ s.waiting ∨ u = t := by
  unfold enqueue
  split
  · rename_i ht
    constructor
    · exact .inl
    · rintro (hu | rfl)
      · exact hu
      · exact ht
  · simp

theorem Behind.enqueue (h : s.Behind t n) (u : T) : (s.enqueue u).Behind t n := by
  obtain ⟨front, back, hwaiting, hn⟩ := h
  unfold RoundRobin.enqueue
  split
  · exact ⟨front, back, hwaiting, hn⟩
  · refine ⟨front, back ++ [u], ?_, hn⟩
    simp [hwaiting]

omit [DecidableEq T] in
/-- Those who leave make room. -/
theorem Behind.leave (h : s.Behind t n) (hnodup : s.waiting.Nodup)
    (hwaiting : s'.waiting.Sublist s.waiting) (ht : t ∈ s'.waiting) : s'.Behind t n := by
  obtain ⟨front, back, heq, hn⟩ := h
  rw [heq] at hwaiting hnodup
  rw [List.nodup_middle] at hnodup
  have hapart := (List.nodup_cons.mp hnodup).1
  obtain ⟨front', rest, heq', hfront, hrest⟩ := List.sublist_append_iff.mp hwaiting
  rcases List.sublist_cons_iff.mp hrest with hback | ⟨back', rfl, hback⟩
  · rw [heq'] at ht
    exact absurd ((hfront.append hback).subset ht) hapart
  · exact ⟨front', back', heq', Nat.le_trans hfront.length_le hn⟩

/-- Whoever is first runs after the switch. -/
theorem switch_running (h : s.waiting = t :: back) (ready : T → Bool) :
    (s.switch ready).running = some t := by
  unfold switch
  rw [h]
  cases s.running with
  | none => rfl
  | some u =>
      simp only
      split
      · rw [enqueue_running]
      · rfl

@[simp] theorem switch_due (s : RoundRobin T) (ready : T → Bool) :
    (s.switch ready).due = false := by
  unfold switch
  split
  · rfl
  · rfl
  · simp only
    split
    · rw [enqueue_due]
    · rfl

theorem switch_waiting (h : s.waiting = u :: back) (ready : T → Bool) :
    (s.switch ready).waiting =
      s.running.elim back fun t => if ready t = true ∧ t ∉ back then back ++ [t] else back := by
  unfold switch
  rw [h]
  cases s.running with
  | none => rfl
  | some t =>
      by_cases hready : ready t = true
      · by_cases ht : t ∈ back
        · simp [hready, enqueue_waiting, ht]
        · simp [hready, enqueue_waiting, ht]
      · simp [hready]

theorem mem_switch (h : s.waiting = u :: back) (ready : T → Bool) (t : T) :
    t ∈ (s.switch ready).waiting ↔ t ∈ back ∨ s.running = some t ∧ ready t = true := by
  rw [switch_waiting h]
  cases s.running with
  | none => simp
  | some v =>
      simp only [Option.elim_some, Option.some.injEq]
      split
      · rename_i hv
        rw [List.mem_append, List.mem_singleton]
        constructor
        · rintro (ht | rfl)
          · exact .inl ht
          · exact .inr ⟨rfl, hv.1⟩
        · rintro (ht | ⟨rfl, -⟩)
          · exact .inl ht
          · exact .inr rfl
      · rename_i hv
        constructor
        · exact .inl
        · rintro (ht | ⟨rfl, hready⟩)
          · exact ht
          · by_contra hnot
            exact hv ⟨hready, hnot⟩

/-- The others move up by one place. -/
theorem Behind.switch (h : s.Behind t n) (ready : T → Bool)
    (hother : (s.switch ready).running ≠ some t) :
    1 ≤ n ∧ (s.switch ready).Behind t (n - 1) := by
  obtain ⟨front, back, hwaiting, hn⟩ := h
  cases front with
  | nil => exact absurd (switch_running hwaiting ready) hother
  | cons u front =>
      rw [List.length_cons] at hn
      refine ⟨by omega, ?_⟩
      have hrest := switch_waiting hwaiting ready
      have hfront : front.length ≤ n - 1 := by omega
      cases hrunning : s.running with
      | none =>
          rw [hrunning] at hrest
          exact ⟨front, back, hrest, hfront⟩
      | some v =>
          rw [hrunning, Option.elim_some] at hrest
          split at hrest
          · exact ⟨front, back ++ [v], by simp [hrest], hfront⟩
          · exact ⟨front, back, hrest, hfront⟩

/-- A switch moves everyone up, and no step moves anyone back. -/
theorem Behind.step {m : Nat} (h : s.Behind t n) (hstep : s.Step m s')
    (hnodup : s.waiting.Nodup) (ht : t ∈ s'.waiting) (hother : s'.running ≠ some t) :
    m ≤ n ∧ s'.Behind t (n - m) := by
  cases hstep with
  | leave waiting due hwaiting hdue => exact ⟨Nat.zero_le n, h.leave hnodup hwaiting ht⟩
  | enqueue u due hdue hidle => exact ⟨Nat.zero_le n, h.enqueue u⟩
  | switch ready hdue => exact h.switch ready hother

/-- Nobody waits while the processor is idle, unless a switch is due. -/
def Awake (s : RoundRobin T) : Prop :=
  s.running = none → s.waiting ≠ [] → s.due = true

theorem awake_switch (s : RoundRobin T) (ready : T → Bool) : (s.switch ready).Awake := by
  intro hrunning hwaiting
  cases hold : s.waiting with
  | nil =>
      unfold switch at hwaiting
      rw [hold] at hwaiting
      exact absurd rfl hwaiting
  | cons t rest =>
      rw [switch_running hold] at hrunning
      cases hrunning

theorem Awake.step {m : Nat} (h : s.Awake) (hstep : s.Step m s') : s'.Awake := by
  cases hstep with
  | leave waiting due hwaiting hdue =>
      intro hrunning hne
      apply hdue
      apply h hrunning
      intro hempty
      rw [hempty, List.sublist_nil] at hwaiting
      exact hne hwaiting
  | enqueue u due hdue hidle =>
      intro hrunning _
      rw [enqueue_running] at hrunning
      exact hidle hrunning
  | switch ready hdue => exact awake_switch s ready

end RoundRobin

end Cenix
