import Mathlib.Data.List.Nodup

namespace Cenix

/-! Searches through a list for the first entry with some property. -/

section

variable {α β : Type} {l : List α}

theorem find?_congr {p q : α → Bool} (h : ∀ a ∈ l, p a = q a) : l.find? p = l.find? q := by
  induction l with
  | nil => rfl
  | cons a l ih =>
      rw [List.find?_cons, List.find?_cons, h a List.mem_cons_self,
        ih fun b hb => h b (List.mem_cons_of_mem _ hb)]

/-- The entries that a search for `p` looks at. -/
def upTo (p : α → Bool) : List α → List α
  | [] => []
  | a :: l => a :: if p a then [] else upTo p l

/-- A search that stops at bad entries too finds none. -/
theorem upTo_iff (p bad : α → Bool) :
    (∀ a ∈ upTo p l, bad a = false) ↔
      ∀ a ∈ l.find? (fun a => p a || bad a), bad a = false := by
  induction l with
  | nil => exact iff_of_true nofun nofun
  | cons a l ih =>
      rw [upTo, List.forall_mem_cons, List.find?_cons]
      cases hp : p a with
      | true => simp
      | false =>
          cases hbad : bad a with
          | true => simp [hbad]
          | false => simpa using ih

/-- Two searches give the same entry, and the first one looks at no bad one, exactly if the
first entry that either of them would take or that is bad is right for both. -/
theorem find?_map_eq_and_iff (p q bad : α → Bool) {f : α → β} (hdistinct : (l.map f).Nodup) :
    ((l.find? p).map f = (l.find? q).map f ∧
        ∀ a ∈ l.find? (fun a => p a || bad a), bad a = false) ↔
      ∀ a ∈ l.find? (fun a => (p a || bad a) || q a),
        p a = true ∧ q a = true ∧ bad a = false := by
  induction l with
  | nil => exact iff_of_true ⟨rfl, nofun⟩ nofun
  | cons a l ih =>
      rw [List.map_cons, List.nodup_cons] at hdistinct
      have hother : ∀ r : α → Bool, (l.find? r).map f ≠ some (f a) := by
        intro r heq
        obtain ⟨b, hb, hsame⟩ := Option.map_eq_some_iff.mp heq
        exact hdistinct.1 (hsame ▸ List.mem_map_of_mem (List.mem_of_find?_eq_some hb))
      simp only [List.find?_cons]
      cases hbad : bad a with
      | true => simp [hbad]
      | false =>
          cases hp : p a with
          | false =>
              cases hq : q a with
              | false => exact ih hdistinct.2
              | true => simp [hother, hp]
          | true =>
              cases hq : q a with
              | false => simp [(hother q).symm, hq]
              | true => simp [hp, hq, hbad]

theorem find?_map_eq_iff (p q : α → Bool) {f : α → β} (hdistinct : (l.map f).Nodup) :
    (l.find? p).map f = (l.find? q).map f ↔
      ∀ a ∈ l.find? (fun a => p a || q a), p a = true ∧ q a = true := by
  simpa using find?_map_eq_and_iff p q (fun _ => false) hdistinct

end

end Cenix
