import Mathlib.Data.List.Basic

/-! Machines that read one letter after the other and write something at each. -/
namespace AxisBridge.Transducer
open List

variable {σ α β γ ι : Type}

/-- The state behind the word, and what was written. -/
def run (step : σ → α → σ × List β) : σ → List α → σ × List β
  | s, [] => (s, [])
  | s, x :: xs => ((run step (step s x).1 xs).1, (step s x).2 ++ (run step (step s x).1 xs).2)

section
variable {step : σ → α → σ × List β} {s t : σ} {xs ys : List α} {out more : List β}

theorem run_cons (s : σ) (x : α) (xs : List α) :
    run step s (x :: xs) =
      ((run step (step s x).1 xs).1, (step s x).2 ++ (run step (step s x).1 xs).2) :=
  rfl

theorem run_append (hxs : run step s xs = (t, out)) :
    run step s (xs ++ ys) = ((run step t ys).1, out ++ (run step t ys).2) := by
  induction xs generalizing s t out with
  | nil =>
    cases hxs
    rfl
  | cons x xs ih =>
    have hstate : (run step (step s x).1 xs).1 = t := congrArg Prod.fst hxs
    have hout : (step s x).2 ++ (run step (step s x).1 xs).2 = out := congrArg Prod.snd hxs
    have hrest : run step (step s x).1 xs = (t, (run step (step s x).1 xs).2) := Prod.ext hstate rfl
    rw [cons_append, run_cons, ih hrest, ← hout, append_assoc]

/-- One word behind another. -/
theorem run_trans {u : σ} (hxs : run step s xs = (t, out)) (hys : run step t ys = (u, more)) :
    run step s (xs ++ ys) = (u, out ++ more) := by
  rw [run_append hxs, hys]

/-- A machine that sees only a part of each letter. -/
theorem run_map {step' : σ → γ → σ × List β} (f : α → γ) (h : ∀ s x, step s x = step' s (f x))
    (s : σ) (xs : List α) : run step s xs = run step' s (xs.map f) := by
  induction xs generalizing s with
  | nil => rfl
  | cons x xs ih => rw [map_cons, run_cons, run_cons, h, ih]

/-- Letters that the machine passes over. -/
theorem run_idle (h : ∀ x ∈ xs, step s x = (s, [])) : run step s xs = (s, []) := by
  induction xs with
  | nil => rfl
  | cons x xs ih =>
    rw [forall_mem_cons] at h
    rw [run_cons, h.1, ih h.2]
    rfl

/-- Words that lead from home to home, one after the other. -/
theorem run_flatMap {home : σ → Prop} {word : ι → List α} {written : ι → List β} {items : List ι}
    (h : ∀ i ∈ items, ∀ s, home s → ∃ t, home t ∧ run step s (word i) = (t, written i))
    (hs : home s) : ∃ t, home t ∧ run step s (items.flatMap word) = (t, items.flatMap written) := by
  induction items generalizing s with
  | nil => exact ⟨s, hs, rfl⟩
  | cons i items ih =>
    obtain ⟨t, ht, hi⟩ := h i mem_cons_self s hs
    obtain ⟨u, hu, hrest⟩ := ih (fun j hj => h j (mem_cons_of_mem i hj)) ht
    exact ⟨u, hu, run_trans hi hrest⟩

end

/-- Pieces none of which is too long make the same list only one by one. -/
theorem flatMap_eq_iff {f g : ι → List β} {items : List ι}
    (h : ∀ i ∈ items, (f i).length ≤ (g i).length) :
    items.flatMap f = items.flatMap g ↔ ∀ i ∈ items, f i = g i := by
  induction items with
  | nil => exact iff_of_true rfl (by simp)
  | cons i items ih =>
    rw [forall_mem_cons] at h ⊢
    rw [flatMap_cons, flatMap_cons, ← ih h.2]
    constructor
    · intro heq
      have hle : ∀ js : List ι, (∀ j ∈ js, (f j).length ≤ (g j).length) →
          (js.flatMap f).length ≤ (js.flatMap g).length := by
        intro js hjs
        induction js with
        | nil => exact Nat.le_refl _
        | cons j js ihjs =>
          rw [forall_mem_cons] at hjs
          have hrest := ihjs hjs.2
          rw [flatMap_cons, flatMap_cons, length_append, length_append]
          omega
      have hlen := congrArg List.length heq
      rw [length_append, length_append] at hlen
      have hrest := hle items h.2
      have hfirst := h.1
      exact append_inj heq (by omega)
    · rintro ⟨hi, hitems⟩
      rw [hi, hitems]

end AxisBridge.Transducer
