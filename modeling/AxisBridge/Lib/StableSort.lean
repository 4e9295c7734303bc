import Mathlib.Data.List.Perm.Basic

/-! Sorting by a key such that elements of one key keep their order. -/
namespace StableSort
open List

/-- A comparison that can sort: any two keys are in some order, and the order can be followed. -/
structure Ranks {κ : Type*} (le : κ → κ → Bool) : Prop where
  trans : ∀ a b c, le a b = true → le b c = true → le a c = true
  total : ∀ a b, (le a b || le b a) = true

variable {α κ : Type*} {le : κ → κ → Bool} {key : α → κ} {xs out : List α}

theorem Ranks.refl (h : Ranks le) (a : κ) : le a a = true := by
  have hself := h.total a a
  rwa [Bool.or_self] at hself

/-- The order downwards. -/
theorem Ranks.flip (h : Ranks le) : Ranks fun a b => le b a where
  trans a b c hab hbc := h.trans c b a hbc hab
  total a b := h.total b a

def sortBy (le : κ → κ → Bool) (key : α → κ) (xs : List α) : List α :=
  xs.mergeSort fun a b => le (key a) (key b)

/-- `out` has the elements of `xs` in the order of their keys, those of one key as they stand in
`xs`. -/
structure Sorts [DecidableEq κ] (le : κ → κ → Bool) (key : α → κ) (xs out : List α) : Prop where
  perm : out.Perm xs
  sorted : out.Pairwise fun a b => le (key a) (key b) = true
  stable : ∀ k, (out.filter fun a => key a = k) = xs.filter fun a => key a = k

theorem pairwise_sortBy (h : Ranks le) (key : α → κ) (xs : List α) :
    (sortBy le key xs).Pairwise fun a b => le (key a) (key b) = true :=
  pairwise_mergeSort (fun a b c => h.trans (key a) (key b) (key c))
    (fun a b => h.total (key a) (key b)) xs

theorem perm_sortBy (le : κ → κ → Bool) (key : α → κ) (xs : List α) : (sortBy le key xs).Perm xs :=
  mergeSort_perm xs _

theorem filter_sortBy [DecidableEq κ] (h : Ranks le) (key : α → κ) (xs : List α) (k : κ) :
    ((sortBy le key xs).filter fun a => key a = k) = xs.filter fun a => key a = k := by
  have hequal : (xs.filter fun a => key a = k).Pairwise fun a b => le (key a) (key b) = true := by
    refine pairwise_of_forall_mem_list fun a ha b hb => ?_
    have hka := of_decide_eq_true (mem_filter.mp ha).2
    have hkb := of_decide_eq_true (mem_filter.mp hb).2
    rw [hka, hkb]
    exact h.refl k
  have hsub : (xs.filter fun a => key a = k).Sublist (sortBy le key xs) :=
    sublist_mergeSort (fun a b c => h.trans (key a) (key b) (key c))
      (fun a b => h.total (key a) (key b)) hequal filter_sublist
  have hfilter := hsub.filter fun a => decide (key a = k)
  rw [filter_filter] at hfilter
  simp only [Bool.and_self] at hfilter
  have hlen := ((perm_sortBy le key xs).filter fun a => decide (key a = k)).length_eq
  exact (hfilter.eq_of_length hlen.symm).symm

theorem sorts_sortBy [DecidableEq κ] (h : Ranks le) (key : α → κ) (xs : List α) :
    Sorts le key xs (sortBy le key xs) where
  perm := perm_sortBy le key xs
  sorted := pairwise_sortBy h key xs
  stable := filter_sortBy h key xs

theorem Sorts.sortBy_eq [DecidableEq κ] (h : Sorts le key xs out) : sortBy le key out = out :=
  mergeSort_of_pairwise h.sorted

/-- Where no two keys are the same, the elements alone determine the order. -/
theorem sortBy_eq_of_perm (h : Ranks le) (hanti : ∀ a b, le a b = true → le b a = true → a = b)
    {ys : List κ} {zs : List κ} (hperm : ys.Perm zs) : sortBy le id ys = sortBy le id zs := by
  refine Perm.eq_of_pairwise ?_ (pairwise_sortBy h id ys) (pairwise_sortBy h id zs) ?_
  · intro a b _ _ hab hba
    exact hanti a b hab hba
  · exact (perm_sortBy le id ys).trans (hperm.trans (perm_sortBy le id zs).symm)
end StableSort
