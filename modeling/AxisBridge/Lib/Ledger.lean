import Mathlib.Logic.Function.Basic
import Mathlib.Data.Nat.Notation

/-! A ledger of what the calls of a system did, in the order they did it. -/
namespace AxisBridge
open Function

/-- What call `i` entered. -/
def itemsOf {α : Type*} (i : ℕ) (ledger : List (ℕ × α)) : List α :=
  (ledger.filter fun p => p.1 == i).map Prod.snd

variable {α γ : Type*} {i j : ℕ} {ledger : List (ℕ × α)} {f : γ → List α} {calls : ℕ → γ} {call : γ}

theorem itemsOf_append (i : ℕ) (ledger ledger' : List (ℕ × α)) :
    itemsOf i (ledger ++ ledger') = itemsOf i ledger ++ itemsOf i ledger' := by
  simp [itemsOf]

@[simp] theorem itemsOf_own (i : ℕ) (items : List α) : itemsOf i (items.map (i, ·)) = items := by
  induction items with
  | nil => rfl
  | cons item items ih => simpa [itemsOf] using ih

theorem itemsOf_other (hij : j ≠ i) (items : List α) : itemsOf i (items.map (j, ·)) = [] := by
  induction items with
  | nil => rfl
  | cons item items ih => simp [itemsOf, hij]

/-- A call that enters `items` is the only one whose items change. -/
theorem itemsOf_update (h : ∀ j, itemsOf j ledger = f (calls j)) (items : List α)
    (hcall : f call = f (calls i) ++ items) (j : ℕ) :
    itemsOf j (ledger ++ items.map (i, ·)) = f (update calls i call j) := by
  rw [itemsOf_append, h j]
  by_cases hij : j = i
  · subst hij
    rw [update_self, itemsOf_own, hcall]
  · rw [update_of_ne hij, itemsOf_other (Ne.symm hij), List.append_nil]

theorem itemsOf_update_none (h : ∀ j, itemsOf j ledger = f (calls j)) (hcall : f call = f (calls i))
    (j : ℕ) : itemsOf j ledger = f (update calls i call j) := by
  simpa using itemsOf_update h [] (by simpa using hcall) j

end AxisBridge
