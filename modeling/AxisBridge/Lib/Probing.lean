import Mathlib.Logic.Function.Basic
import Mathlib.Data.Nat.Notation

/-! Open addressing: every key has a path of slots, and lies behind slots of its path that are
taken. -/
namespace AxisBridge
open Function Option

variable {σ κ : Type*} {path : κ → ℕ → σ} {held held' : σ → Option κ} {x y : κ} {s t : σ} {k l : ℕ}

/-- The first `k` slots on the path of `x` hold other keys. -/
def Passed (path : κ → ℕ → σ) (held : σ → Option κ) (x : κ) (k : ℕ) : Prop :=
  ∀ j < k, ∃ y, held (path x j) = some y ∧ y ≠ x

/-- Every key that is held lies on its own path, behind slots that hold other keys. -/
def WellPlaced (path : κ → ℕ → σ) (held : σ → Option κ) : Prop :=
  ∀ s x, held s = some x → ∃ k, path x k = s ∧ Passed path held x k

/-- A slot that holds a key goes on to hold it. -/
def HeldMono (held held' : σ → Option κ) : Prop := ∀ s x, held s = some x → held' s = some x

theorem HeldMono.refl (held : σ → Option κ) : HeldMono held held := fun _ _ h => h

theorem Passed.zero (x : κ) : Passed path held x 0 := fun j h => absurd h (Nat.not_lt_zero j)

theorem Passed.succ (h : Passed path held x k) (hy : held (path x k) = some y) (hne : y ≠ x) :
    Passed path held x (k + 1) := by
  intro j hj
  rcases Nat.lt_succ_iff_lt_or_eq.mp hj with hj | rfl
  · exact h j hj
  · exact ⟨y, hy, hne⟩

theorem Passed.mono (h : Passed path held x k) (hmono : HeldMono held held') :
    Passed path held' x k := fun j hj =>
  let ⟨y, hy, hne⟩ := h j hj
  ⟨y, hmono _ y hy, hne⟩

/-- Of two places on the path, the later one cannot have passed the earlier one where the key
lies. -/
theorem Passed.le (h : Passed path held x k) (hl : held (path x l) = some x) : k ≤ l := by
  by_contra hlt
  obtain ⟨y, hy, hne⟩ := h l (Nat.lt_of_not_le hlt)
  rw [hl] at hy
  exact hne (some.inj hy).symm

/-- A key lies in one slot. -/
theorem WellPlaced.slot_eq (h : WellPlaced path held) (hs : held s = some x)
    (ht : held t = some x) : s = t := by
  obtain ⟨k, rfl, hk⟩ := h s x hs
  obtain ⟨l, rfl, hl⟩ := h t x ht
  rw [Nat.le_antisymm (hk.le ht) (hl.le hs)]

/-- A key that has met an empty slot lies nowhere. -/
theorem WellPlaced.absent (h : WellPlaced path held) (hk : Passed path held x k)
    (hempty : held (path x k) = none) (s : σ) : held s ≠ some x := by
  intro hs
  obtain ⟨l, rfl, hl⟩ := h s x hs
  rcases Nat.lt_or_eq_of_le (hk.le hs) with hlt | rfl
  · obtain ⟨y, hy, _⟩ := hl k hlt
    rw [hempty] at hy
    cases hy
  · rw [hempty] at hs
    cases hs

theorem heldMono_claim [DecidableEq σ] (hempty : held s = none) :
    HeldMono held (update held s (some x)) := by
  intro t y ht
  have hne : t ≠ s := by
    rintro rfl
    rw [hempty] at ht
    cases ht
  rw [update_of_ne hne, ht]

/-- A key is put into the empty slot it meets first. -/
theorem WellPlaced.claim [DecidableEq σ] (h : WellPlaced path held) (hk : Passed path held x k)
    (hempty : held (path x k) = none) : WellPlaced path (update held (path x k) (some x)) := by
  intro s y hs
  by_cases he : s = path x k
  · subst he
    rw [update_self, some.injEq] at hs
    subst hs
    exact ⟨k, rfl, hk.mono (heldMono_claim hempty)⟩
  · rw [update_of_ne he] at hs
    obtain ⟨l, hl, hpassed⟩ := h s y hs
    exact ⟨l, hl, hpassed.mono (heldMono_claim hempty)⟩

end AxisBridge
