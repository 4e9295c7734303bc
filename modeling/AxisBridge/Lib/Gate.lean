import Mathlib.Data.List.Basic

/-! A condition variable of a lock: who sleeps on it, who is on the way to the lock, and the signals
still owed. -/

/-- The callers that a condition holds up, each with what it came with. -/
structure Gate (α : Type*) where
  asleep : List α
  coming : List α
  owed : ℕ

namespace Gate
open List

variable {α : Type*} {g g' : Gate α} {a : α} {room : ℕ}

/-- Room was made, and is yet to be signalled. -/
def owe (g : Gate α) : Gate α := { g with owed := g.owed + 1 }

/-- What happens without the lock: one comes, one wakes by itself, or a signal wakes one, if any. -/
inductive Stirs : Gate α → Gate α → Prop
  | comes (g : Gate α) (a : α) : Stirs g { g with coming := a :: g.coming }
  | wakes (pre post coming : List α) (a : α) (owed : ℕ) :
      Stirs ⟨pre ++ a :: post, coming, owed⟩ ⟨pre ++ post, a :: coming, owed⟩
  | signals (pre post coming : List α) (a : α) (owed : ℕ) :
      Stirs ⟨pre ++ a :: post, coming, owed + 1⟩ ⟨pre ++ post, a :: coming, owed⟩
  | unheard (coming : List α) (owed : ℕ) : Stirs ⟨[], coming, owed + 1⟩ ⟨[], coming, owed⟩

/-- A caller with the lock goes through. -/
inductive Passes (a : α) : Gate α → Gate α → Prop
  | mk (asleep pre post : List α) (owed : ℕ) :
      Passes a ⟨asleep, pre ++ a :: post, owed⟩ ⟨asleep, pre ++ post, owed⟩

/-- A caller with the lock finds no room. -/
inductive Sleeps (a : α) : Gate α → Gate α → Prop
  | mk (asleep pre post : List α) (owed : ℕ) :
      Sleeps a ⟨asleep, pre ++ a :: post, owed⟩ ⟨a :: asleep, pre ++ post, owed⟩

/-- Nobody sleeps beside room that no one is on the way to. -/
def Served (g : Gate α) (room : ℕ) : Prop := g.asleep ≠ [] → room ≤ g.coming.length + g.owed

theorem Served.stirs (h : g.Served room) (hs : Stirs g g') : g'.Served room := by
  intro hne
  cases hs with
  | comes g a =>
    have hroom := h hne
    simp only [length_cons]
    omega
  | wakes pre post coming a owed | signals pre post coming a owed =>
    have hroom := h (by simp)
    simp only [length_cons] at hroom ⊢
    omega
  | unheard coming owed => exact absurd rfl hne

theorem Served.passes (h : g.Served (room + 1)) (hs : Passes a g g') : g'.Served room := by
  intro hne
  cases hs with
  | mk asleep pre post owed =>
    have hroom := h hne
    simp only [length_append, length_cons] at hroom ⊢
    omega

theorem Served.owe (h : g.Served room) : g.owe.Served (room + 1) := by
  intro hne
  have hroom := h hne
  simp only [Gate.owe]
  omega

theorem Served.mono (h : g.Served room) {room' : ℕ} (hle : room' ≤ room) : g.Served room' :=
  fun hne => Nat.le_trans hle (h hne)

/-- No one is on the way, and no signal is owed. -/
def Settled (g : Gate α) : Prop := g.coming = [] ∧ g.owed = 0

theorem Served.eq_zero (h : g.Served room) (hs : g.Settled) (hne : g.asleep ≠ []) : room = 0 := by
  have hroom := h hne
  rw [hs.1, hs.2] at hroom
  exact Nat.le_zero.mp hroom

end Gate
