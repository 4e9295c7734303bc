import Mathlib.Data.List.Nodup

/-! Collecting the images of a list's elements, each element once: what is in, and when it
repeats. -/
namespace Dedup
open List

variable {α β γ : Type} [DecidableEq α]

/-- The images under `f` of the elements outside `seen`, each at its first occurrence. -/
def collect (f : α → Option β) : List α → List α → List β
  | _, [] => []
  | seen, x :: xs =>
    if x ∈ seen then collect f seen xs
    else
      match f x with
      | some y => y :: collect f (x :: seen) xs
      | none => collect f seen xs

variable {f : α → Option β}
variable {seen xs : List α}

theorem collect_mem {x : α} (h : x ∈ seen) : collect f seen (x :: xs) = collect f seen xs := by
  simp [collect, h]

theorem collect_none {x : α} (h : f x = none) : collect f seen (x :: xs) = collect f seen xs := by
  simp [collect, h]

theorem collect_some {x : α} {y : β} (hx : x ∉ seen) (h : f x = some y) :
    collect f seen (x :: xs) = y :: collect f (x :: seen) xs := by
  simp [collect, hx, h]

/-- Whether an element without an image was seen makes no difference. -/
theorem collect_congr {seen' : List α} (h : ∀ x, f x ≠ none → (x ∈ seen ↔ x ∈ seen')) :
    collect f seen xs = collect f seen' xs := by
  induction xs generalizing seen seen' with
  | nil => rfl
  | cons x xs ih =>
    cases hx : f x with
    | none => rw [collect_none hx, collect_none hx, ih h]
    | some y =>
      have hmem := h x (by simp [hx])
      by_cases hs : x ∈ seen
      · rw [collect_mem hs, collect_mem (hmem.mp hs), ih h]
      · rw [collect_some hs hx, collect_some (fun hs' => hs (hmem.mpr hs')) hx]
        refine congrArg (y :: ·) (ih fun z hz => ?_)
        simp [h z hz]

theorem map_collect (g : β → γ) :
    (collect f seen xs).map g = collect (fun x => (f x).map g) seen xs := by
  induction xs generalizing seen with
  | nil => rfl
  | cons x xs ih =>
    by_cases hs : x ∈ seen
    · rw [collect_mem hs, collect_mem hs, ih]
    · cases hx : f x with
      | none => rw [collect_none hx, collect_none (by simp [hx]), ih]
      | some y =>
        rw [collect_some hs hx, collect_some hs (y := g y) (by simp [hx]), map_cons, ih]

theorem mem_collect {y : β} : y ∈ collect f seen xs ↔ ∃ x ∈ xs, x ∉ seen ∧ f x = some y := by
  induction xs generalizing seen with
  | nil => simp [collect]
  | cons x xs ih =>
    by_cases hs : x ∈ seen
    · rw [collect_mem hs, ih]
      simp [hs]
    · cases hx : f x with
      | none =>
        rw [collect_none hx, ih]
        simp [hx]
      | some z =>
        rw [collect_some hs hx, mem_cons, ih]
        constructor
        · rintro (rfl | ⟨w, hw, hseen, hy⟩)
          · exact ⟨x, by simp, hs, hx⟩
          · exact ⟨w, by simp [hw], fun h => hseen (by simp [h]), hy⟩
        · rintro ⟨w, hw, hseen, hy⟩
          by_cases hwx : w = x
          · subst hwx
            rw [hx, Option.some.injEq] at hy
            exact Or.inl hy.symm
          · refine Or.inr ⟨w, ?_, ?_, hy⟩
            · simpa [hwx] using hw
            · simp [hwx, hseen]

/-- No image repeats exactly when the new elements have different images. -/
theorem nodup_collect_iff : (collect f seen xs).Nodup ↔
    ∀ x ∈ xs, ∀ y ∈ xs, x ∉ seen → y ∉ seen → ∀ z, f x = some z → f y = some z → x = y := by
  induction xs generalizing seen with
  | nil => simp [collect]
  | cons x xs ih =>
    by_cases hs : x ∈ seen
    · rw [collect_mem hs, ih]
      simp [hs]
    · cases hx : f x with
      | none =>
        rw [collect_none hx, ih]
        simp [hx]
      | some z =>
        rw [collect_some hs hx, nodup_cons, mem_collect, ih]
        constructor
        · rintro ⟨hnew, hinj⟩ a ha b hb has hbs w haw hbw
          by_cases hax : a = x
          · by_cases hbx : b = x
            · rw [hax, hbx]
            · rw [hax, hx] at haw
              refine (hnew ⟨b, ?_, ?_, hbw.trans haw.symm⟩).elim
              · simpa [hbx] using hb
              · simp [hbx, hbs]
          · by_cases hbx : b = x
            · rw [hbx, hx] at hbw
              refine (hnew ⟨a, ?_, ?_, haw.trans hbw.symm⟩).elim
              · simpa [hax] using ha
              · simp [hax, has]
            · exact hinj a (by simpa [hax] using ha) b (by simpa [hbx] using hb)
                (by simp [hax, has]) (by simp [hbx, hbs]) w haw hbw
        · intro hall
          constructor
          · rintro ⟨b, hb, hbs, hbz⟩
            have hxb := hall x (by simp) b (by simp [hb]) hs (fun h => hbs (by simp [h])) z hx hbz
            exact hbs (by simp [hxb])
          · intro a ha b hb has hbs
            exact hall a (by simp [ha]) b (by simp [hb]) (fun h => has (by simp [h]))
              fun h => hbs (by simp [h])

end Dedup
