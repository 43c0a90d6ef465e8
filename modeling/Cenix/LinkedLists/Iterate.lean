import Cenix.LinkedLists.Segment

namespace Cenix.LinkedLists

/-! Loops that run a body on every element of a list. -/

/-- Runs `body` on `link` and on everything that follows it.  The next element
is read after the body has run.  `none` when the body fails or when more than
`fuel` elements follow. -/
def listIter (next : S → P → Option P) (body : S → P → Option S) :
    Nat → S → Option P → Option S
  | _, s, none => some s
  | 0, _, some _ => none
  | fuel + 1, s, some link =>
      (body s link).bind fun s => listIter next body fuel s (next s link)

variable {S P : Type} {next : S → P → Option P} {body : S → P → Option S}

/-- A body that leaves the links alone runs once on each element of the list. -/
theorem listIter_eq_foldlM
    (hnext : ∀ s p s', body s p = some s' → next s' = next s) {xs : List P} {s : S}
    (hseg : Seg (next s) xs none) {fuel : Nat} (hfuel : xs.length ≤ fuel) :
    listIter next body fuel s xs.head? = xs.foldlM body s := by
  induction xs generalizing s fuel with
  | nil => cases fuel <;> rfl
  | cons x xs ih =>
      cases fuel with
      | zero => simp at hfuel
      | succ fuel =>
          simp only [List.head?_cons, listIter, List.foldlM_cons]
          cases hbody : body s x with
          | none => rfl
          | some s' =>
              have hs := hnext s x s' hbody
              have hx : next s' x = xs.head? := by
                rw [hs]
                simpa using hseg.1
              have hrest : Seg (next s') xs none := by
                rw [hs]
                exact hseg.2
              simp only [Option.bind_eq_bind, Option.bind_some, hx]
              exact ih hrest (by simpa using hfuel)

/-- A loop that ended ran once on each element. -/
theorem listIter_foldlM
    (hnext : ∀ s p s', body s p = some s' → next s' = next s) {xs : List P} {s s' : S}
    (hseg : Seg (next s) xs none) {fuel : Nat}
    (h : listIter next body fuel s xs.head? = some s') :
    xs.foldlM body s = some s' := by
  induction xs generalizing s fuel with
  | nil => cases fuel <;> simpa [listIter] using h
  | cons x xs ih =>
      cases fuel with
      | zero => simp [listIter] at h
      | succ fuel =>
          simp only [List.head?_cons, listIter, List.foldlM_cons] at h ⊢
          cases hbody : body s x with
          | none => simp [hbody] at h
          | some s₁ =>
              have hs := hnext s x s₁ hbody
              have hx : next s₁ x = xs.head? := by
                rw [hs]
                simpa using hseg.1
              have hrest : Seg (next s₁) xs none := by
                rw [hs]
                exact hseg.2
              simp only [hbody, Option.bind_some, hx] at h
              simpa using ih hrest h

/-- What holds may depend on the elements that are left, as long as the body does not
touch the links to them. -/
theorem listIter_along {motive : List P → S → Prop}
    (hbody : ∀ p rest s s', motive (p :: rest) s → body s p = some s' →
      motive rest s' ∧ next s' p = rest.head?) {xs : List P} {s s' : S} {fuel : Nat}
    (h : listIter next body fuel s xs.head? = some s') (hs : motive xs s) : motive [] s' := by
  induction xs generalizing s fuel with
  | nil =>
      have hend : s = s' := by cases fuel <;> simpa [listIter] using h
      exact hend ▸ hs
  | cons x xs ih =>
      cases fuel with
      | zero => simp [listIter] at h
      | succ fuel =>
          simp only [List.head?_cons, listIter, Option.bind_eq_some_iff] at h
          obtain ⟨s₁, hs₁, h⟩ := h
          obtain ⟨hrest, hnext⟩ := hbody x xs s s₁ hs hs₁
          rw [hnext] at h
          exact ih h hrest

/-- A loop whose body succeeds and leaves the links to the rest ends, with enough fuel. -/
theorem listIter_returns {motive : List P → S → Prop}
    (hbody : ∀ p rest s, motive (p :: rest) s →
      ∃ s', body s p = some s' ∧ motive rest s' ∧ next s' p = rest.head?) {xs : List P} {s : S}
    {fuel : Nat} (hfuel : xs.length ≤ fuel) (hs : motive xs s) :
    ∃ s', listIter next body fuel s xs.head? = some s' ∧ motive [] s' := by
  induction xs generalizing s fuel with
  | nil =>
      refine ⟨s, ?_, hs⟩
      cases fuel <;> rfl
  | cons x xs ih =>
      cases fuel with
      | zero => simp at hfuel
      | succ fuel =>
          obtain ⟨s₁, hs₁, hrest, hnext⟩ := hbody x xs s hs
          obtain ⟨s', hs', hend⟩ := ih (Nat.le_of_succ_le_succ hfuel) hrest
          refine ⟨s', ?_, hend⟩
          simp only [List.head?_cons, listIter, hs₁, Option.bind_some, hnext, hs']

/-- What every round of the body preserves, the loop preserves. -/
theorem listIter_induct {motive : S → Prop}
    (hbody : ∀ s p s', motive s → body s p = some s' → motive s') {fuel : Nat}
    {s s' : S} {p : Option P} (h : listIter next body fuel s p = some s')
    (hs : motive s) : motive s' := by
  induction fuel generalizing s p with
  | zero =>
      cases p with
      | none =>
          simp only [listIter, Option.some.injEq] at h
          exact h ▸ hs
      | some p => simp [listIter] at h
  | succ fuel ih =>
      cases p with
      | none =>
          simp only [listIter, Option.some.injEq] at h
          exact h ▸ hs
      | some p =>
          simp only [listIter, Option.bind_eq_some_iff] at h
          obtain ⟨s₁, hs₁, h⟩ := h
          exact ih h (hbody s p s₁ hs hs₁)

/-- The same for a fold over a list of inputs. -/
theorem foldlM_induct {f : S → P → Option S} {motive : S → Prop}
    (hf : ∀ s p s', motive s → f s p = some s' → motive s') {ps : List P} {s s' : S}
    (h : ps.foldlM f s = some s') (hs : motive s) : motive s' := by
  induction ps generalizing s with
  | nil =>
      cases h
      exact hs
  | cons p ps ih =>
      simp only [List.foldlM_cons, Option.bind_eq_bind, Option.bind_eq_some_iff] at h
      obtain ⟨s₁, hs₁, h⟩ := h
      exact ih h (hf s p s₁ hs hs₁)

/-- The same when what holds depends on the inputs that are done. -/
theorem foldlM_induct_done {f : S → P → Option S} {motive : List P → S → Prop} {ps : List P}
    (hf : ∀ done p s s', p ∈ ps → motive done s → f s p = some s' → motive (done ++ [p]) s')
    {s s' : S} (h : ps.foldlM f s = some s') (hs : motive [] s) : motive ps s' := by
  have hrest : ∀ (rest done : List P) (s : S), (∀ p ∈ rest, p ∈ ps) → motive done s →
      rest.foldlM f s = some s' → motive (done ++ rest) s' := by
    intro rest
    induction rest with
    | nil =>
        intro done s _ hs h
        cases h
        simpa using hs
    | cons p rest ih =>
        intro done s hmem hs h
        simp only [List.foldlM_cons, Option.bind_eq_bind, Option.bind_eq_some_iff] at h
        obtain ⟨s₁, hs₁, h⟩ := h
        have hnext := hf done p s s₁ (hmem p (by simp)) hs hs₁
        simpa using ih (done ++ [p]) s₁ (fun q hq => hmem q (by simp [hq])) hnext h
  exact hrest ps [] s (fun _ hp => hp) hs h

/-- A loop on states that the body and the links do not tell apart. -/
theorem listIter_map {f : S → S} (hnext : ∀ s, next (f s) = next s)
    (hbody : ∀ s p, body (f s) p = (body s p).map f) (fuel : Nat) (s : S) (p : Option P) :
    listIter next body fuel (f s) p = (listIter next body fuel s p).map f := by
  induction fuel generalizing s p with
  | zero => cases p <;> rfl
  | succ fuel ih =>
      cases p with
      | none => rfl
      | some p =>
          simp only [listIter, hbody]
          cases body s p with
          | none => rfl
          | some s' => simp only [Option.map_some, Option.bind_some, hnext, ih]

theorem foldlM_map {f : S → S} {g : S → P → Option S}
    (hg : ∀ s p, g (f s) p = (g s p).map f) (ps : List P) (s : S) :
    ps.foldlM g (f s) = (ps.foldlM g s).map f := by
  induction ps generalizing s with
  | nil => rfl
  | cons p ps ih =>
      simp only [List.foldlM_cons, hg]
      cases g s p with
      | none => rfl
      | some s' => exact ih s'

/-! What a loop arrives at when it has enough fuel. -/

section

variable {A B : Type} {f g : Nat → Option A} {a a' : A}

def Settles (f : Nat → Option A) (a : A) : Prop :=
  ∃ n, ∀ fuel ≥ n, f fuel = some a

namespace Settles

theorem of_eq (h : ∀ fuel, f fuel = some a) : Settles f a :=
  ⟨0, fun fuel _ => h fuel⟩

theorem returns (h : Settles f a) : ∃ fuel, f fuel = some a :=
  have ⟨n, hn⟩ := h
  ⟨n, hn n (Nat.le_refl n)⟩

theorem unique (h : Settles f a) (h' : Settles f a') : a = a' := by
  obtain ⟨n, hn⟩ := h
  obtain ⟨n', hn'⟩ := h'
  have hsame : some a = some a' :=
    (hn (n + n') (Nat.le_add_right n n')).symm.trans (hn' (n + n') (Nat.le_add_left n' n))
  exact Option.some.inj hsame

theorem congr (h : Settles f a) (hfg : ∀ fuel, g fuel = f fuel) : Settles g a := by
  obtain ⟨n, hn⟩ := h
  exact ⟨n, fun fuel hfuel => (hfg fuel).trans (hn fuel hfuel)⟩

/-- A function that takes one unit of fuel for itself. -/
theorem of_succ (hf : ∀ fuel, f (fuel + 1) = g fuel) (h : Settles g a) : Settles f a := by
  obtain ⟨n, hn⟩ := h
  refine ⟨n + 1, fun fuel hfuel => ?_⟩
  obtain ⟨left, rfl⟩ := Nat.exists_eq_add_of_le' (Nat.le_trans (Nat.le_add_left 1 n) hfuel)
  rw [hf]
  exact hn left (Nat.le_of_succ_le_succ hfuel)

theorem bind {h : Nat → A → Option B} {b : B} (hf : Settles f a)
    (hh : Settles (fun fuel => h fuel a) b) :
    Settles (fun fuel => (f fuel).bind (h fuel)) b := by
  obtain ⟨n, hn⟩ := hf
  obtain ⟨n', hn'⟩ := hh
  refine ⟨n + n', fun fuel hfuel => ?_⟩
  simp only [hn fuel (Nat.le_trans (Nat.le_add_right n n') hfuel), Option.bind_some]
  exact hn' fuel (Nat.le_trans (Nat.le_add_left n' n) hfuel)

theorem map (hf : Settles f a) (h : A → B) : Settles (fun fuel => (f fuel).map h) (h a) := by
  obtain ⟨n, hn⟩ := hf
  exact ⟨n, fun fuel hfuel => by simp only [hn fuel hfuel, Option.map_some]⟩

end Settles

/-- A fold whose rounds all settle. -/
theorem foldlM_settles {f : Nat → S → P → Option S} {motive : S → Prop} {ps : List P}
    (hf : ∀ s, ∀ p ∈ ps, motive s → ∃ s', Settles (fun fuel => f fuel s p) s' ∧ motive s')
    {s : S} (hs : motive s) :
    ∃ s', Settles (fun fuel => ps.foldlM (f fuel) s) s' ∧ motive s' := by
  induction ps generalizing s with
  | nil => exact ⟨s, .of_eq fun _ => rfl, hs⟩
  | cons p ps ih =>
      obtain ⟨s₁, hfirst, hs₁⟩ := hf s p List.mem_cons_self hs
      obtain ⟨s', hrest, hend⟩ := ih (fun s q hq => hf s q (List.mem_cons_of_mem p hq)) hs₁
      exact ⟨s', hfirst.bind hrest, hend⟩

end

end Cenix.LinkedLists
