import Cenix.LinkedLists.Iterate
import Cenix.LinkedLists.NoContainer
import Mathlib.Logic.Relation

namespace Cenix.LinkedLists

/-! Walks along pointers that need not form lists. -/

variable {P S : Type} {f g : P → Option P} {p q : P}

/-- Following `f` from `p` comes to an end. -/
def Ends (f : P → Option P) (p : P) : Prop :=
  Acc (fun b a => f a = some b) p

/-- Following `f` from `p` passes through `q`. -/
def Reaches (f : P → Option P) (p q : P) : Prop :=
  Relation.ReflTransGen (fun a b => f a = some b) p q

/-- A walk along which a rank decreases. -/
theorem ends_of_rank (known : P → Prop) (rank : P → Nat)
    (h : ∀ a b, known a → f a = some b → known b ∧ rank b < rank a) (hp : known p) :
    Ends f p := by
  generalize hn : rank p = n
  induction n using Nat.strongRecOn generalizing p with
  | ind n ih =>
      refine ⟨p, fun q hq => ?_⟩
      obtain ⟨hknown, hrank⟩ := h p q hp hq
      exact ih (rank q) (hn ▸ hrank) hknown rfl

theorem reaches_iff : Reaches f p q ↔ q = p ∨ ∃ r, f p = some r ∧ Reaches f r q := by
  unfold Reaches
  rw [Relation.ReflTransGen.cases_head_iff]
  constructor
  · rintro (rfl | h)
    · exact .inl rfl
    · exact .inr h
  · rintro (rfl | h)
    · exact .inl rfl
    · exact .inr h

theorem Reaches.refl (f : P → Option P) (p : P) : Reaches f p p :=
  Relation.ReflTransGen.refl

/-- Beyond its first element a walk follows pointers. -/
theorem Reaches.pointed (h : Reaches f p q) (hne : q ≠ p) : ∃ r, Reaches f p r ∧ f r = some q := by
  cases Relation.ReflTransGen.cases_tail h with
  | inl heq => exact absurd heq hne
  | inr htail => exact htail

theorem Reaches.mem {known : P → Prop} (hclosed : ∀ a b, known a → f a = some b → known b)
    (hp : known p) (h : Reaches f p q) : known q := by
  induction h with
  | refl => exact hp
  | tail _ hstep ih => exact hclosed _ _ ih hstep

/-- Pointers that agree on what a walk passes through. -/
theorem Reaches.congr {known : P → Prop} (hclosed : ∀ a b, known a → f a = some b → known b)
    (hfg : ∀ a, known a → g a = f a) (hp : known p) (h : Reaches f p q) : Reaches g p q := by
  induction h with
  | refl => exact Reaches.refl g p
  | tail hwalk hstep ih =>
      refine Relation.ReflTransGen.tail ih ?_
      rw [hfg _ (Reaches.mem hclosed hp hwalk)]
      exact hstep

section Loops

variable [DecidableEq P] (step : Links P → Option P) (change : Links P → Links P)

/-- The loops of the list macros on a walk that ends. -/
theorem updateAlong_ends (hstep : ∀ l, step (change l) = step l)
    (hchange : ∀ l, change (change l) = change l) (hends : Ends f p) :
    ∃ n, ∀ m : P → Links P, (∀ a, step (m a) = f a) →
      ∃ m', (∀ fuel ≥ n, updateAlong step change fuel m (some p) = some m') ∧
        ∀ q, (Reaches f p q → m' q = change (m q)) ∧ (¬Reaches f p q → m' q = m q) := by
  induction hends with
  | intro p _ ih =>
      have hfirst : ∀ m : P → Links P, (∀ a, step (m a) = f a) →
          ∀ a, step (modify m p change a) = f a := by
        intro m hm a
        by_cases ha : a = p
        · subst ha
          rw [modify_self, hstep, hm]
        · rw [modify_of_ne m change ha, hm]
      cases hnext : f p with
      | none =>
          refine ⟨1, fun m hm => ⟨modify m p change, fun fuel hfuel => ?_, fun q => ?_⟩⟩
          · obtain ⟨fuel, rfl⟩ := Nat.exists_eq_add_of_le' hfuel
            rw [updateAlong]
            simp only [hfirst m hm, hnext]
            cases fuel <;> rfl
          · have hreach : Reaches f p q ↔ q = p := by
              rw [reaches_iff]
              simp [hnext]
            rw [hreach]
            constructor
            · rintro rfl
              exact modify_self m q change
            · exact fun hq => modify_of_ne m change hq
      | some r =>
          obtain ⟨n, hn⟩ := ih r hnext
          refine ⟨n + 1, fun m hm => ?_⟩
          obtain ⟨m', hm', hat⟩ := hn (modify m p change) (hfirst m hm)
          refine ⟨m', fun fuel hfuel => ?_, fun q => ?_⟩
          · obtain ⟨fuel, rfl⟩ :=
              Nat.exists_eq_add_of_le' (Nat.le_trans (Nat.le_add_left 1 n) hfuel)
            rw [updateAlong]
            simp only [hfirst m hm, hnext]
            exact hm' fuel (by omega)
          · have hreach : Reaches f p q ↔ q = p ∨ Reaches f r q := by
              rw [reaches_iff]
              simp [hnext]
            rw [hreach]
            constructor
            · intro hq
              by_cases hqr : Reaches f r q
              · rw [(hat q).1 hqr]
                by_cases hqp : q = p
                · rw [hqp, modify_self, hchange]
                · rw [modify_of_ne m change hqp]
              · rw [(hat q).2 hqr, hq.resolve_right hqr, modify_self]
            · intro hq
              rw [(hat q).2 fun hqr => hq (.inr hqr), modify_of_ne m change fun heq => hq (.inl heq)]

end Loops

/-- A loop whose body leaves the pointers alone ends if the walk does. -/
theorem listIter_ends (next : S → P → Option P) {body : S → P → Option S} {motive : S → Prop}
    (hbody : ∀ s p, motive s → ∃ s', body s p = some s' ∧ motive s' ∧ next s' = next s)
    (hends : Ends f p) :
    ∃ n, ∀ s, motive s → next s = f →
      ∃ s', (∀ fuel ≥ n, listIter next body fuel s (some p) = some s') ∧ motive s' := by
  induction hends with
  | intro p _ ih =>
      cases hnext : f p with
      | none =>
          refine ⟨1, fun s hs hf => ?_⟩
          obtain ⟨s', hs', hmotive, hsame⟩ := hbody s p hs
          refine ⟨s', fun fuel hfuel => ?_, hmotive⟩
          obtain ⟨fuel, rfl⟩ := Nat.exists_eq_add_of_le' hfuel
          rw [listIter, hs', Option.bind_some, hsame, hf, hnext]
          cases fuel <;> rfl
      | some r =>
          obtain ⟨n, hn⟩ := ih r hnext
          refine ⟨n + 1, fun s hs hf => ?_⟩
          obtain ⟨s₁, hs₁, hmotive, hsame⟩ := hbody s p hs
          obtain ⟨s', hs', hend⟩ := hn s₁ hmotive (hsame.trans hf)
          refine ⟨s', fun fuel hfuel => ?_, hend⟩
          obtain ⟨fuel, rfl⟩ :=
            Nat.exists_eq_add_of_le' (Nat.le_trans (Nat.le_add_left 1 n) hfuel)
          rw [listIter, hs₁, Option.bind_some, hsame, hf, hnext]
          exact hs' fuel (by omega)

end Cenix.LinkedLists
