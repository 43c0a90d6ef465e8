import Mathlib.Data.List.Nodup
import Mathlib.Logic.Function.Basic

namespace Cenix.LinkedLists

/-! Runs of a partial successor function along a list of pointers. -/

/-- Following `f` from the first element of the list passes through all of it
in order and leaves it at `e`. -/
def Seg (f : P → Option P) : List P → Option P → Prop
  | [], _ => True
  | x :: xs, e => f x = xs.head?.or e ∧ Seg f xs e

@[simp] theorem seg_nil (f : P → Option P) (e : Option P) : Seg f [] e :=
  trivial

@[simp] theorem seg_cons (f : P → Option P) (x : P) (xs : List P) (e : Option P) :
    Seg f (x :: xs) e ↔ f x = xs.head?.or e ∧ Seg f xs e :=
  Iff.rfl

theorem seg_append (f : P → Option P) (xs ys : List P) (e : Option P) :
    Seg f (xs ++ ys) e ↔ Seg f xs (ys.head?.or e) ∧ Seg f ys e := by
  induction xs with
  | nil => simp
  | cons x xs ih =>
      cases xs with
      | nil => simp
      | cons y xs =>
          simp only [List.cons_append, seg_cons, List.head?_cons, Option.some_or]
          rw [and_assoc]
          exact and_congr_right fun _ => ih

theorem Seg.congr {f g : P → Option P} {xs : List P} {e : Option P}
    (h : Seg f xs e) (hfg : ∀ x ∈ xs, g x = f x) : Seg g xs e := by
  induction xs with
  | nil => trivial
  | cons x xs ih =>
      refine ⟨(hfg x (by simp)).trans h.1, ih h.2 ?_⟩
      intro y hy
      exact hfg y (by simp [hy])

/-- Redirecting the last element of a segment moves its end and nothing else. -/
theorem Seg.retarget {f g : P → Option P} {xs : List P} {e e' : Option P}
    (h : Seg f xs e) (hnodup : xs.Nodup)
    (hlast : ∀ x, xs.getLast? = some x → g x = e')
    (hother : ∀ x ∈ xs, xs.getLast? ≠ some x → g x = f x) : Seg g xs e' := by
  induction xs with
  | nil => trivial
  | cons x xs ih =>
      cases xs with
      | nil =>
          refine ⟨?_, trivial⟩
          simpa using hlast x (by simp)
      | cons y ys =>
          have hx : x ∉ y :: ys := (List.nodup_cons.mp hnodup).1
          have hne : (x :: y :: ys).getLast? ≠ some x := by
            intro heq
            rw [List.getLast?_cons_cons] at heq
            exact hx (List.mem_of_getLast? heq)
          refine ⟨?_, ih h.2 (List.nodup_cons.mp hnodup).2 ?_ ?_⟩
          · rw [hother x (by simp) hne, h.1]
            simp
          · intro z hz
            exact hlast z (by rw [List.getLast?_cons_cons]; exact hz)
          · intro z hz hzne
            refine hother z (List.mem_cons_of_mem x hz) ?_
            rw [List.getLast?_cons_cons]
            exact hzne

/-- Cutting one element out of a segment. -/
theorem Seg.erase {f g : P → Option P} {front back : List P} {d : P}
    {e : Option P} (h : Seg f (front ++ d :: back) e)
    (hnodup : (front ++ d :: back).Nodup)
    (hlast : ∀ x, front.getLast? = some x → g x = back.head?.or e)
    (hother : ∀ x ∈ front ++ back, front.getLast? ≠ some x → g x = f x) :
    Seg g (front ++ back) e := by
  rw [seg_append] at h ⊢
  have hfront : front.Nodup := hnodup.of_append_left
  refine ⟨h.1.retarget hfront hlast ?_, ?_⟩
  · intro x hx
    exact hother x (by simp [hx])
  · refine h.2.2.congr ?_
    intro x hx
    refine hother x (by simp [hx]) ?_
    intro hmem
    have hdisjoint := (List.nodup_append.mp hnodup).2.2
    exact hdisjoint x (List.mem_of_getLast? hmem) x (by simp [hx]) rfl

/-- Putting `q` in the place of one element of a segment. -/
theorem Seg.replace {f g : P → Option P} {front back : List P} {d q : P}
    {e : Option P} (h : Seg f (front ++ d :: back) e)
    (hnodup : (front ++ d :: back).Nodup)
    (hself : g q = f d)
    (hlast : ∀ x, front.getLast? = some x → g x = some q)
    (hother : ∀ x ∈ front ++ back, front.getLast? ≠ some x → g x = f x) :
    Seg g (front ++ q :: back) e := by
  rw [seg_append] at h ⊢
  have hfront : front.Nodup := hnodup.of_append_left
  refine ⟨h.1.retarget hfront ?_ ?_, hself.trans h.2.1, ?_⟩
  · intro x hx
    simpa using hlast x hx
  · intro x hx
    exact hother x (by simp [hx])
  · refine h.2.2.congr ?_
    intro x hx
    refine hother x (by simp [hx]) ?_
    intro hmem
    have hdisjoint := (List.nodup_append.mp hnodup).2.2
    exact hdisjoint x (List.mem_of_getLast? hmem) x (by simp [hx]) rfl

/-- Appending one element at the end of a segment. -/
theorem Seg.snoc {f g : P → Option P} {xs : List P} {q : P} {e e' : Option P}
    (h : Seg f xs e) (hnodup : xs.Nodup)
    (hself : g q = e')
    (hlast : ∀ x, xs.getLast? = some x → g x = some q)
    (hother : ∀ x ∈ xs, xs.getLast? ≠ some x → g x = f x) :
    Seg g (xs ++ [q]) e' := by
  rw [seg_append]
  refine ⟨h.retarget hnodup ?_ hother, ?_, trivial⟩
  · intro x hx
    simpa using hlast x hx
  · simpa using hself

theorem Seg.of_split {f : P → Option P} {front back : List P} {d : P}
    (h : Seg f (front ++ d :: back) none) : f d = back.head? := by
  rw [seg_append] at h
  simpa using h.2.1

/-- A run that ends at `none` is determined by where it starts. -/
theorem Seg.unique {f : P → Option P} {xs ys : List P}
    (hx : Seg f xs none) (hy : Seg f ys none) (h : xs.head? = ys.head?) :
    xs = ys := by
  induction xs generalizing ys with
  | nil =>
      cases ys with
      | nil => rfl
      | cons y ys => simp at h
  | cons x xs ih =>
      cases ys with
      | nil => simp at h
      | cons y ys =>
          have hxy : x = y := by simpa using h
          subst hxy
          have htail : xs.head? = ys.head? := by
            have hfirst := hx.1.symm.trans hy.1
            simpa using hfirst
          rw [ih hx.2 hy.2 htail]

end Cenix.LinkedLists
