import Mathlib.Data.List.Basic
import Mathlib.Order.Lattice

/-! Of each key of a list the first element, or the one with the lowest ordinal. -/
namespace AxisBridge
open List

variable {α κ ο : Type*} [LinearOrder ο] {key : α → κ} {ord : α → ο} {xs : List α} {x y : α}

/-- No element with the key of `x` has a lower ordinal. -/
def Lowest (key : α → κ) (ord : α → ο) (xs : List α) (x : α) : Prop :=
  ∀ y ∈ xs, key y = key x → ord x ≤ ord y

theorem lowest_cons_self (h : ∀ y ∈ xs, ord x < ord y) : Lowest key ord (x :: xs) x := by
  intro y hy _
  rcases mem_cons.mp hy with rfl | hy
  · exact le_refl _
  · exact le_of_lt (h y hy)

theorem lowest_cons_iff (h : ord x < ord y) :
    Lowest key ord (x :: xs) y ↔ key y ≠ key x ∧ Lowest key ord xs y := by
  constructor
  · intro hl
    refine ⟨fun he => ?_, fun z hz => hl z (mem_cons_of_mem x hz)⟩
    exact absurd h (not_lt_of_ge (hl x mem_cons_self he.symm))
  · rintro ⟨hne, hl⟩ z hz he
    rcases mem_cons.mp hz with rfl | hz
    · exact absurd he.symm hne
    · exact hl z hz he

variable [DecidableEq κ]

instance (key : α → κ) (ord : α → ο) (xs : List α) (x : α) : Decidable (Lowest key ord xs x) :=
  inferInstanceAs (Decidable (∀ y ∈ xs, key y = key x → ord x ≤ ord y))

/-- The elements that hold the lowest ordinal of their key. -/
def lowest (key : α → κ) (ord : α → ο) (xs : List α) : List α :=
  xs.filter fun x => decide (Lowest key ord xs x)

theorem mem_lowest : x ∈ lowest key ord xs ↔ x ∈ xs ∧ Lowest key ord xs x := by
  rw [lowest, mem_filter, decide_eq_true_iff]

/-- The loop that takes an element when its key was not seen before. -/
def firstSeen (key : α → κ) : List κ → List α → List α
  | _, [] => []
  | seen, x :: xs =>
    if key x ∈ seen then firstSeen key seen xs else x :: firstSeen key (key x :: seen) xs

theorem firstSeen_eq (h : xs.Pairwise fun x y => ord x < ord y) (seen : List κ) :
    firstSeen key seen xs = xs.filter fun x => decide (key x ∉ seen ∧ Lowest key ord xs x) := by
  induction xs generalizing seen with
  | nil => rfl
  | cons x xs ih =>
    obtain ⟨hx, hxs⟩ := pairwise_cons.mp h
    have hself : Lowest key ord (x :: xs) x := lowest_cons_self hx
    rw [firstSeen, filter_cons]
    split
    · next hseen =>
      rw [if_neg (by simp [hseen]), ih hxs]
      refine filter_congr fun y hy => decide_eq_decide.mpr ?_
      rw [lowest_cons_iff (hx y hy)]
      refine and_congr_right fun hy' => (and_iff_right ?_).symm
      exact fun he => hy' (he ▸ hseen)
    · next hseen =>
      rw [if_pos (by simp [hseen, hself]), ih hxs]
      refine congrArg (x :: ·) (filter_congr fun y hy => decide_eq_decide.mpr ?_)
      rw [lowest_cons_iff (hx y hy), mem_cons, not_or]
      exact ⟨fun ⟨⟨hne, hy'⟩, hl⟩ => ⟨hy', hne, hl⟩, fun ⟨hy', hne, hl⟩ => ⟨⟨hne, hy'⟩, hl⟩⟩

/-- Where the ordinals ascend, the lowest of each key is the first that is seen. -/
theorem lowest_eq_firstSeen (h : xs.Pairwise fun x y => ord x < ord y) :
    lowest key ord xs = firstSeen key [] xs := by
  rw [firstSeen_eq h, lowest]
  refine filter_congr fun x _ => decide_eq_decide.mpr ?_
  exact (and_iff_right not_mem_nil).symm

theorem lowest_sublist : (lowest key ord xs).Sublist xs := filter_sublist

/-- Where the ordinals ascend, two of the lowest have different keys. -/
theorem pairwise_lowest (h : xs.Pairwise fun x y => ord x < ord y) :
    (lowest key ord xs).Pairwise fun x y => ord x < ord y ∧ key x ≠ key y := by
  have hord := Pairwise.sublist (lowest_sublist : (lowest key ord xs).Sublist xs) h
  refine hord.imp_of_mem fun {x y} hx hy hlt => ⟨hlt, fun he => ?_⟩
  exact absurd hlt (not_lt_of_ge ((mem_lowest.mp hy).2 x (mem_lowest.mp hx).1 he))

end AxisBridge
