import Mathlib.Logic.Basic
import Mathlib.Order.Defs.Unbundled

namespace Cenix.Programs

/-! Rules for programs that pass on a state and may go wrong. -/

variable {σ α β : Type}

/-- Whatever the program returns from a state with `P` meets `Q`. -/
def Ensures (P : σ → Prop) (p : StateT σ Option α) (Q : α → σ → Prop) : Prop :=
  ∀ s a s', P s → p s = some (a, s') → Q a s'

/-- The program returns from every state with `P`, and what it returns meets `Q`. -/
def Returns (P : σ → Prop) (p : StateT σ Option α) (Q : α → σ → Prop) : Prop :=
  ∀ s, P s → ∃ a s', p s = some (a, s') ∧ Q a s'

/-- Every run of the program goes from a state to a related one. -/
def Respects (R : σ → σ → Prop) (p : StateT σ Option α) : Prop :=
  ∀ s a s', p s = some (a, s') → R s s'

/-- Every result of the program is one with `C`. -/
def Yields (C : α → Prop) (p : StateT σ Option α) : Prop :=
  ∀ s a s', p s = some (a, s') → C a

theorem bind_some {p : StateT σ Option α} {f : α → StateT σ Option β} {s s'' : σ} {b : β}
    (h : (p >>= f) s = some (b, s'')) : ∃ a s', p s = some (a, s') ∧ f a s' = some (b, s'') := by
  have hbind : (p s).bind (fun r => f r.1 r.2) = some (b, s'') := h
  rw [Option.bind_eq_some_iff] at hbind
  obtain ⟨⟨a, s'⟩, hp, hf⟩ := hbind
  exact ⟨a, s', hp, hf⟩

theorem bind_of {p : StateT σ Option α} {f : α → StateT σ Option β} {s s' : σ} {a : α}
    (hp : p s = some (a, s')) : (p >>= f) s = f a s' := by
  have hbind : (p >>= f) s = (p s).bind (fun r => f r.1 r.2) := rfl
  rw [hbind, hp]
  rfl

namespace Ensures

variable {P A : σ → Prop} {p : StateT σ Option α} {Q B : α → σ → Prop}

theorem pure {a : α} (h : ∀ s, P s → Q a s) : Ensures P (pure a) Q := by
  intro s a' s' hs hp
  cases hp
  exact h s hs

theorem bind {R : α → σ → Prop} {f : α → StateT σ Option β} {Q : β → σ → Prop}
    (hp : Ensures P p R) (hf : ∀ a, Ensures (R a) (f a) Q) : Ensures P (p >>= f) Q := by
  intro s b s'' hs h
  obtain ⟨a, s', ha, hb⟩ := bind_some h
  exact hf a s' b s'' (hp s a s' hs ha) hb

theorem ite {c : Prop} [Decidable c] {q : StateT σ Option α}
    (hp : c → Ensures P p Q) (hq : ¬c → Ensures P q Q) : Ensures P (if c then p else q) Q := by
  split
  · rename_i hc
    exact hp hc
  · rename_i hc
    exact hq hc

theorem failure : Ensures P (failure : StateT σ Option α) Q := by
  intro s a s' _ hp
  cases hp

theorem weaken (h : Ensures A p B) (hpre : ∀ s, P s → A s)
    (hpost : ∀ a s, B a s → Q a s) : Ensures P p Q :=
  fun s a s' hs hp => hpost a s' (h s a s' (hpre s hs) hp)

theorem post (h : Ensures P p B) (hpost : ∀ a s, B a s → Q a s) : Ensures P p Q :=
  h.weaken (fun _ hs => hs) hpost

theorem pre (h : Ensures A p Q) (hpre : ∀ s, P s → A s) : Ensures P p Q :=
  h.weaken hpre fun _ _ hq => hq

theorem exists_pre {ι : Type} {P : ι → σ → Prop} (h : ∀ i, Ensures (P i) p Q) :
    Ensures (fun s => ∃ i, P i s) p Q :=
  fun s a s' ⟨i, hs⟩ hp => h i s a s' hs hp

theorem and_pre {c : Prop} (h : c → Ensures P p Q) : Ensures (fun s => c ∧ P s) p Q :=
  fun s a s' ⟨hc, hs⟩ hp => h hc s a s' hs hp

theorem or {P₁ P₂ : σ → Prop} (h₁ : Ensures P₁ p Q) (h₂ : Ensures P₂ p Q) :
    Ensures (fun s => P₁ s ∨ P₂ s) p Q :=
  fun s a s' hs hp => hs.elim (fun hs => h₁ s a s' hs hp) fun hs => h₂ s a s' hs hp

theorem and (h : Ensures P p Q) (h' : Ensures P p B) : Ensures P p fun a s => Q a s ∧ B a s :=
  fun s a s' hs hp => ⟨h s a s' hs hp, h' s a s' hs hp⟩

end Ensures

namespace Yields

variable {C : α → Prop} {p : StateT σ Option α}

theorem pure {a : α} (h : C a) : Yields C (pure a : StateT σ Option α) := by
  intro s a' s' hp
  cases hp
  exact h

theorem bind {f : α → StateT σ Option β} {C : β → Prop} (hf : ∀ a, Yields C (f a)) :
    Yields C (p >>= f) := by
  intro s b s'' h
  obtain ⟨a, s', -, hb⟩ := bind_some h
  exact hf a s' b s'' hb

theorem bind_of {f : α → StateT σ Option β} {C' : β → Prop} (hp : Yields C p)
    (hf : ∀ a, C a → Yields C' (f a)) : Yields C' (p >>= f) := by
  intro s b s'' h
  obtain ⟨a, s', ha, hb⟩ := bind_some h
  exact hf a (hp s a s' ha) s' b s'' hb

theorem ite {c : Prop} [Decidable c] {q : StateT σ Option α} (hp : c → Yields C p)
    (hq : ¬c → Yields C q) : Yields C (if c then p else q) := by
  split
  · rename_i hc
    exact hp hc
  · rename_i hc
    exact hq hc

end Yields

namespace Returns

variable {P A : σ → Prop} {p : StateT σ Option α} {Q B : α → σ → Prop}

theorem pure {a : α} (h : ∀ s, P s → Q a s) : Returns P (pure a) Q :=
  fun s hs => ⟨a, s, rfl, h s hs⟩

theorem bind {R : α → σ → Prop} {f : α → StateT σ Option β} {Q : β → σ → Prop}
    (hp : Returns P p R) (hf : ∀ a, Returns (R a) (f a) Q) : Returns P (p >>= f) Q := by
  intro s hs
  obtain ⟨a, s', ha, hR⟩ := hp s hs
  obtain ⟨b, s'', hb, hQ⟩ := hf a s' hR
  exact ⟨b, s'', (bind_of ha).trans hb, hQ⟩

theorem ite {c : Prop} [Decidable c] {q : StateT σ Option α}
    (hp : c → Returns P p Q) (hq : ¬c → Returns P q Q) : Returns P (if c then p else q) Q := by
  split
  · rename_i hc
    exact hp hc
  · rename_i hc
    exact hq hc

theorem weaken (h : Returns A p B) (hpre : ∀ s, P s → A s)
    (hpost : ∀ a s, B a s → Q a s) : Returns P p Q := by
  intro s hs
  obtain ⟨a, s', hp, hQ⟩ := h s (hpre s hs)
  exact ⟨a, s', hp, hpost a s' hQ⟩

theorem post (h : Returns P p B) (hpost : ∀ a s, B a s → Q a s) : Returns P p Q :=
  h.weaken (fun _ hs => hs) hpost

theorem pre (h : Returns A p Q) (hpre : ∀ s, P s → A s) : Returns P p Q :=
  h.weaken hpre fun _ _ hq => hq

theorem or {P₁ P₂ : σ → Prop} (h₁ : Returns P₁ p Q) (h₂ : Returns P₂ p Q) :
    Returns (fun s => P₁ s ∨ P₂ s) p Q := by
  intro s hs
  cases hs with
  | inl hs => exact h₁ s hs
  | inr hs => exact h₂ s hs

theorem exists_pre {ι : Type} {P : ι → σ → Prop} (h : ∀ i, Returns (P i) p Q) :
    Returns (fun s => ∃ i, P i s) p Q :=
  fun s ⟨i, hs⟩ => h i s hs

/-- A part of the precondition that is not about the state. -/
theorem and_pre {c : Prop} (h : c → Returns P p Q) : Returns (fun s => c ∧ P s) p Q :=
  fun s ⟨hc, hs⟩ => h hc s hs

/-- What the program returns also meets whatever its runs ensure. -/
theorem and (h : Returns P p Q) (h' : Ensures P p B) :
    Returns P p fun a s => Q a s ∧ B a s := by
  intro s hs
  obtain ⟨a, s', hp, hQ⟩ := h s hs
  exact ⟨a, s', hp, hQ, h' s a s' hs hp⟩

end Returns

/-- The program always returns. -/
abbrev Total (p : StateT σ Option α) : Prop :=
  Returns (fun _ => True) p fun _ _ => True

theorem Total.returns {P : σ → Prop} {p : StateT σ Option α} {Q : α → σ → Prop}
    (h : Total p) (hQ : Ensures P p Q) : Returns P p Q := by
  intro s hs
  obtain ⟨a, s', hp, -⟩ := h s trivial
  exact ⟨a, s', hp, hQ s a s' hs hp⟩

namespace Respects

variable {R : σ → σ → Prop} {p : StateT σ Option α}

theorem pure [Std.Refl R] {a : α} : Respects R (pure a : StateT σ Option α) := by
  intro s a' s' hp
  cases hp
  exact Std.Refl.refl s

theorem bind [IsTrans σ R] {f : α → StateT σ Option β} (hp : Respects R p)
    (hf : ∀ a, Respects R (f a)) : Respects R (p >>= f) := by
  intro s b s'' h
  obtain ⟨a, s', ha, hb⟩ := bind_some h
  exact IsTrans.trans s s' s'' (hp s a s' ha) (hf a s' b s'' hb)

/-- The rest of the program may depend on what the first part yields. -/
theorem bind_of [IsTrans σ R] {C : α → Prop} {f : α → StateT σ Option β} (hp : Respects R p)
    (hC : Yields C p) (hf : ∀ a, C a → Respects R (f a)) : Respects R (p >>= f) := by
  intro s b s'' h
  obtain ⟨a, s', ha, hb⟩ := bind_some h
  exact IsTrans.trans s s' s'' (hp s a s' ha) (hf a (hC s a s' ha) s' b s'' hb)

theorem ite {c : Prop} [Decidable c] {q : StateT σ Option α} (hp : Respects R p)
    (hq : Respects R q) : Respects R (if c then p else q) := by
  split
  · exact hp
  · exact hq

theorem ite' {c : Prop} [Decidable c] {q : StateT σ Option α} (hp : c → Respects R p)
    (hq : ¬c → Respects R q) : Respects R (if c then p else q) := by
  split
  · rename_i hc
    exact hp hc
  · rename_i hc
    exact hq hc

theorem failure : Respects R (failure : StateT σ Option α) := by
  intro s a s' hp
  cases hp

theorem mono {R' : σ → σ → Prop} (h : Respects R p) (hR : ∀ s s', R s s' → R' s s') :
    Respects R' p :=
  fun s a s' hp => hR s s' (h s a s' hp)

/-- A relation that holds with every fixed state before it. -/
theorem ensures (h : Respects R p) (s₀ : σ) [IsTrans σ R] :
    Ensures (R s₀) p fun _ => R s₀ :=
  fun s a s' hs hp => IsTrans.trans s₀ s s' hs (h s a s' hp)

end Respects

end Cenix.Programs
