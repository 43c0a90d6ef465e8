import Mathlib.Data.List.Basic

namespace Cenix

/-! Rendezvous of two kinds of calls in the order in which they are made. -/

/-- All calls so far.  The n-th one of each kind meets the n-th one of the other
kind, when the later of the two is made. -/
structure Rendezvous (S R : Type) where
  sends : List S
  receives : List R

namespace Rendezvous

variable {S R : Type}

def empty : Rendezvous S R := ⟨[], []⟩

def swap (r : Rendezvous S R) : Rendezvous R S := ⟨r.receives, r.sends⟩

def send (r : Rendezvous S R) (s : S) : Rendezvous S R :=
  { r with sends := r.sends ++ [s] }

def receive (r : Rendezvous S R) (x : R) : Rendezvous S R :=
  { r with receives := r.receives ++ [x] }

def pendingSends (r : Rendezvous S R) : List S :=
  r.sends.drop r.receives.length

def pendingReceives (r : Rendezvous S R) : List R :=
  r.receives.drop r.sends.length

@[simp] theorem pendingSends_empty : (empty : Rendezvous S R).pendingSends = [] :=
  rfl

@[simp] theorem pendingReceives_empty : (empty : Rendezvous S R).pendingReceives = [] :=
  rfl

theorem pendingSends_eq_nil_or (r : Rendezvous S R) :
    r.pendingSends = [] ∨ r.pendingReceives = [] := by
  simp only [pendingSends, pendingReceives, List.drop_eq_nil_iff]
  exact Nat.le_total _ _

/-- The receive that the next send meets is the first one pending. -/
theorem pendingReceives_head (r : Rendezvous S R) :
    r.pendingReceives.head? = r.receives[r.sends.length]? := by
  rw [pendingReceives, List.head?_drop]

theorem pendingSends_head (r : Rendezvous S R) :
    r.pendingSends.head? = r.sends[r.receives.length]? :=
  r.swap.pendingReceives_head

@[simp] theorem send_pendingReceives (r : Rendezvous S R) (s : S) :
    (r.send s).pendingReceives = r.pendingReceives.tail := by
  simp [pendingReceives, send]

@[simp] theorem receive_pendingSends (r : Rendezvous S R) (x : R) :
    (r.receive x).pendingSends = r.pendingSends.tail :=
  r.swap.send_pendingReceives x

theorem send_pendingSends (r : Rendezvous S R) (s : S) :
    (r.send s).pendingSends =
      if r.pendingReceives = [] then r.pendingSends ++ [s] else [] := by
  split
  · rename_i hnone
    simp only [pendingReceives, List.drop_eq_nil_iff] at hnone
    exact List.drop_append_of_le_length hnone
  · rename_i hsome
    simp only [pendingReceives, List.drop_eq_nil_iff] at hsome
    simp only [pendingSends, send, List.drop_eq_nil_iff, List.length_append,
      List.length_singleton]
    omega

theorem receive_pendingReceives (r : Rendezvous S R) (x : R) :
    (r.receive x).pendingReceives =
      if r.pendingSends = [] then r.pendingReceives ++ [x] else [] :=
  r.swap.send_pendingSends x

end Rendezvous

end Cenix
