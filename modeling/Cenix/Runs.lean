import Mathlib.Logic.Relation

namespace Cenix

/-! Runs of a partial step function whose steps all meet a condition. -/

variable {S I : Type} (step : S → I → Option S) (condition : S → I → Prop)
  (initial : S → Prop)

/-- `s` is reached from an initial state by steps that meet the condition. -/
inductive Reaches : S → Prop where
  | initial {s : S} (h : initial s) : Reaches s
  | step {s s' : S} {i : I} (h : Reaches s) (hcondition : condition s i)
      (hstep : step s i = some s') : Reaches s'

variable {step condition initial}

/-- What holds initially and is preserved by every step holds of every state. -/
theorem Reaches.invariant {motive : S → Prop}
    (hinitial : ∀ s, initial s → motive s)
    (hpreserved : ∀ s i s', motive s → condition s i → step s i = some s' → motive s')
    {s : S} (h : Reaches step condition initial s) : motive s := by
  induction h with
  | initial h => exact hinitial _ h
  | step _ hcondition hstep ih => exact hpreserved _ _ _ ih hcondition hstep

theorem Reaches.weaken {condition' : S → I → Prop} {s : S}
    (hcondition : ∀ s i, condition s i → condition' s i)
    (h : Reaches step condition initial s) : Reaches step condition' initial s := by
  induction h with
  | initial h => exact .initial h
  | step _ hc hstep ih => exact .step ih (hcondition _ _ hc) hstep

/-- Executes steps as long as they meet the condition. -/
def runWhile (step : S → I → Option S) (condition : S → I → Prop)
    [∀ s i, Decidable (condition s i)] : S → List I → Option S
  | s, [] => some s
  | s, i :: is =>
      if condition s i then (step s i).bind fun s => runWhile step condition s is else none

theorem Reaches.runWhile [∀ s i, Decidable (condition s i)] {s s' : S} {is : List I}
    (h : Reaches step condition initial s) (hrun : runWhile step condition s is = some s') :
    Reaches step condition initial s' := by
  induction is generalizing s with
  | nil =>
      cases hrun
      exact h
  | cons i is ih =>
      unfold Cenix.runWhile at hrun
      split at hrun
      · rename_i hcondition
        simp only [Option.bind_eq_some_iff] at hrun
        obtain ⟨s₁, hs₁, hrun⟩ := hrun
        exact ih (.step h hcondition hs₁) hrun
      · cases hrun

/-- A run of inputs that meet the condition in every state. -/
theorem Reaches.runAll {s s' : S} {is : List I} (h : Reaches step condition initial s)
    (hall : ∀ s, ∀ i ∈ is, condition s i)
    (hrun : Cenix.runWhile step (fun _ _ => True) s is = some s') :
    Reaches step condition initial s' := by
  induction is generalizing s with
  | nil =>
      cases hrun
      exact h
  | cons i is ih =>
      unfold Cenix.runWhile at hrun
      rw [if_pos trivial, Option.bind_eq_some_iff] at hrun
      obtain ⟨s₁, hs₁, hrun⟩ := hrun
      exact ih (.step h (hall s i (by simp)) hs₁) (fun s j hj => hall s j (by simp [hj])) hrun

end Cenix
