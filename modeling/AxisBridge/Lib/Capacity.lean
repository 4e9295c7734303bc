import Mathlib.Algebra.GroupWithZero.Nat
import Mathlib.Algebra.Order.Group.Nat
import Mathlib.Algebra.BigOperators.Group.List.Basic

/-! What there is room for: a window of a list in a ring, and the longest front of a list that
fits. -/
namespace Capacity
open List Function

/-! ### A window of a list in a ring -/

section
variable {α : Type*} {N : ℕ} {ring : ℕ → Option α} {lo : ℕ} {xs : List α}

/-- The places of a window of `N` indices are all different. -/
theorem eq_of_mod_eq {i j k : ℕ} (hi : k ≤ i) (hiN : i < k + N) (hj : k ≤ j) (hjN : j < k + N)
    (hmod : i % N = j % N) : i = j := by
  wlog hle : i ≤ j generalizing i j
  · exact (this hj hjN hi hiN hmod.symm (Nat.le_of_not_le hle)).symm
  have hdvd : N ∣ j - i := Nat.dvd_of_mod_eq_zero (Nat.sub_mod_eq_zero_of_mod_eq hmod.symm)
  have hzero := Nat.eq_zero_of_dvd_of_lt hdvd (by omega)
  omega

/-- The ring has the list from `lo` on, each element at its index modulo `N`, and nothing else. -/
def Window (N : ℕ) (ring : ℕ → Option α) (lo : ℕ) (xs : List α) : Prop :=
  ∀ n, lo ≤ n → n < lo + N → ring (n % N) = xs[n]?

theorem Window.free (h : Window N ring lo xs) (hlo : lo ≤ xs.length) (hroom : xs.length < lo + N) :
    ring (xs.length % N) = none := by
  rw [h _ hlo hroom, getElem?_eq_none (le_refl _)]

theorem Window.push (h : Window N ring lo xs) (hlo : lo ≤ xs.length) (hroom : xs.length < lo + N)
    (v : α) : Window N (update ring (xs.length % N) (some v)) lo (xs ++ [v]) := by
  intro n hn hnN
  by_cases heq : n = xs.length
  · subst heq
    rw [update_self, getElem?_concat_length]
  · have hother : n % N ≠ xs.length % N := fun hmod => heq (eq_of_mod_eq hn hnN hlo hroom hmod)
    rw [update_of_ne hother, h n hn hnN]
    rcases Nat.lt_or_gt_of_ne heq with hlt | hgt
    · rw [getElem?_append_left hlt]
    · rw [getElem?_eq_none hgt.le, getElem?_eq_none]
      rwa [length_append, length_singleton]

theorem Window.front (h : Window N ring lo xs) (hlo : lo < xs.length) (hfits : xs.length ≤ lo + N) :
    ring (lo % N) = xs[lo]? :=
  h lo (le_refl _) (hlo.trans_le hfits)

theorem Window.pop (h : Window N ring lo xs) (hfits : xs.length ≤ lo + N) :
    Window N (update ring (lo % N) none) (lo + 1) xs := by
  intro n hn hnN
  by_cases hlast : n = lo + N
  · -- the place that is free now is the last one of the window
    rw [hlast, Nat.add_mod_right, update_self, getElem?_eq_none hfits]
  · have hother : n % N ≠ lo % N := by
      intro hmod
      have heq := eq_of_mod_eq (Nat.le_of_succ_le hn) (by omega) (le_refl lo) (by omega) hmod
      omega
    rw [update_of_ne hother, h n (Nat.le_of_succ_le hn) (by omega)]

end

/-! ### What fits of a list, from its front -/

variable {α : Type*} (w : α → ℕ)

/-- The loop that drops the last element while the whole is over the cap and another one is left;
the list has its last element in front. -/
def shed (cap : ℕ) : List α → ℕ → List α × ℕ
  | old :: x :: rest, total =>
    if cap < total then shed cap (x :: rest) (total - w old) else (old :: x :: rest, total)
  | rest, total => (rest, total)

def evict (cap : ℕ) (xs : List α) (total : ℕ) : List α × ℕ :=
  ((shed w cap xs.reverse total).1.reverse, (shed w cap xs.reverse total).2)

def size (xs : List α) : ℕ := (xs.map w).sum

/-- The longest front that fits, and one element in any case. -/
structure Resident (cap : ℕ) (all kept : List α) : Prop where
  front : kept <+: all
  first : all ≠ [] → kept ≠ []
  fits : size w kept ≤ cap ∨ kept.length ≤ 1
  most : ∀ p, p <+: all → size w p ≤ cap → p <+: kept

variable {w} {cap : ℕ} {x : α} {xs ys all kept : List α}

@[simp] theorem size_nil : size w [] = 0 := rfl

@[simp] theorem size_cons : size w (x :: xs) = w x + size w xs := by
  rw [size, map_cons, sum_cons, size]

@[simp] theorem size_append : size w (xs ++ ys) = size w xs + size w ys := by
  rw [size, map_append, sum_append, size, size]

theorem size_reverse : size w xs.reverse = size w xs := by
  rw [size, map_reverse, sum_reverse, size]

theorem Resident.nil : Resident w cap [] [] :=
  ⟨prefix_rfl, fun h => h, .inr (Nat.zero_le _), fun _ h _ => h⟩

theorem shed_spec (w : α → ℕ) (cap : ℕ) (xs : List α) :
    (shed w cap xs (size w xs)).2 = size w (shed w cap xs (size w xs)).1 ∧
      (shed w cap xs (size w xs)).1 <:+ xs ∧ (xs ≠ [] → (shed w cap xs (size w xs)).1 ≠ []) ∧
      (size w (shed w cap xs (size w xs)).1 ≤ cap ∨ (shed w cap xs (size w xs)).1.length ≤ 1) ∧
      ∀ p, p <:+ xs → size w p ≤ cap → p <:+ (shed w cap xs (size w xs)).1 := by
  induction xs with
  | nil => exact ⟨rfl, suffix_rfl, fun h => h, .inr (Nat.zero_le _), fun _ h _ => h⟩
  | cons old xs ih =>
    cases xs with
    | nil => exact ⟨rfl, suffix_rfl, fun h => h, .inr (le_refl _), fun _ h _ => h⟩
    | cons x rest =>
      rw [shed]
      split
      · next hover =>
        rw [size_cons, Nat.add_sub_cancel_left]
        obtain ⟨htotal, hsub, hne, hfits, hmost⟩ := ih
        refine ⟨htotal, hsub.trans (suffix_cons _ _), fun _ => hne (cons_ne_nil _ _), hfits,
          fun p hp hle => ?_⟩
        rcases suffix_cons_iff.mp hp with rfl | hp
        · exact absurd hle (Nat.not_le.mpr hover)
        · exact hmost p hp hle
      · next hfits => exact ⟨rfl, suffix_rfl, fun h => h, .inl (Nat.not_lt.mp hfits),
          fun _ h _ => h⟩

theorem evict_resident (cap : ℕ) (xs : List α) : Resident w cap xs (evict w cap xs (size w xs)).1 ∧
    (evict w cap xs (size w xs)).2 = size w (evict w cap xs (size w xs)).1 := by
  obtain ⟨htotal, hsub, hne, hfits, hmost⟩ := shed_spec w cap xs.reverse
  rw [size_reverse] at htotal hsub hne hfits hmost
  refine ⟨⟨?_, ?_, ?_, fun p hp hle => ?_⟩, ?_⟩
  · rw [evict, ← reverse_suffix, reverse_reverse]
    exact hsub
  · intro hxs hnil
    rw [evict, reverse_eq_nil_iff] at hnil
    exact hne (fun h => hxs (reverse_eq_nil_iff.mp h)) hnil
  · rw [evict, size_reverse, length_reverse]
    exact hfits
  · rw [evict, ← reverse_suffix, reverse_reverse]
    exact hmost _ (reverse_suffix.mpr hp) (by rwa [size_reverse])
  · rw [evict, size_reverse]
    exact htotal

/-- What is kept of a list that is kept itself behind a new element is what is kept of the whole. -/
theorem Resident.cons (h : Resident w cap all kept) (x : α) {kept' : List α}
    (h' : Resident w cap (x :: kept) kept') : Resident w cap (x :: all) kept' := by
  refine ⟨h'.front.trans (cons_prefix_cons.mpr ⟨rfl, h.front⟩), fun _ => h'.first (cons_ne_nil _ _),
    h'.fits, fun p hp hle => h'.most p ?_ hle⟩
  rcases prefix_cons_iff.mp hp with rfl | ⟨front, rfl, hfront⟩
  · exact nil_prefix
  · refine cons_prefix_cons.mpr ⟨rfl, h.most front hfront ?_⟩
    rw [size_cons] at hle
    omega

end Capacity
