import Mathlib.Data.List.Basic

/-! Reading from a source that hands out its symbols in pieces, against reading from a list of
them. -/
namespace Source
open List

variable {τ α β ε σ ρ : Type} {R : σ → ρ → Prop}

/-- Two outcomes with the same answer or the same error, and related sources. -/
inductive Agree (R : σ → ρ → Prop) : Except ε (α × σ) → Except ε (α × ρ) → Prop
  | error (e : ε) : Agree R (.error e) (.error e)
  | ok {a : α} {s : σ} {t : ρ} : R s t → Agree R (.ok (a, s)) (.ok (a, t))

/-- The next `n` symbols of a list, or its end. -/
def takeExact (eof : ε) (n : ℕ) (xs : List τ) : Except ε (List τ × List τ) :=
  if n ≤ xs.length then .ok (xs.take n, xs.drop n) else .error eof

/-- The next `n` symbols of pieces; a piece that is empty is the end. -/
def readExact (eof : ε) (n : ℕ) : List (List τ) → Except ε (List τ × List (List τ))
  | [] => if n = 0 then .ok ([], []) else .error eof
  | piece :: rest =>
    if n = 0 then .ok ([], piece :: rest)
    else if piece = [] then .error eof
    else if piece.length ≤ n then do
      let (got, rest) ← readExact eof (n - piece.length) rest
      return (piece ++ got, rest)
    else .ok (piece.take n, piece.drop n :: rest)

/-- The pieces are these symbols, and none of them is empty. -/
def Delivers (ps : List (List τ)) (xs : List τ) : Prop := (∀ p ∈ ps, p ≠ []) ∧ ps.flatten = xs

variable {x : Except ε (α × σ)} {y : Except ε (α × ρ)} {f : α × σ → Except ε (β × σ)}
  {g : α × ρ → Except ε (β × ρ)} {eof : ε} {n : ℕ} {xs rest : List τ} {ps : List (List τ)}

theorem Agree.bind (h : Agree R x y) (hf : ∀ a s t, R s t → Agree R (f (a, s)) (g (a, t))) :
    Agree R (x >>= f) (y >>= g) := by
  cases h with
  | error e => exact .error e
  | ok hst => exact hf _ _ _ hst

theorem takeExact_append (h : xs.length = n) : takeExact eof n (xs ++ rest) = .ok (xs, rest) := by
  rw [takeExact, if_pos (by rw [length_append]; omega), ← h, take_left, drop_left]

theorem takeExact_short (h : xs.length < n) : takeExact eof n xs = .error eof :=
  if_neg (Nat.not_le.mpr h)

/-- A whole piece is the beginning of what is read. -/
theorem takeExact_piece {piece : List τ} (h : piece.length ≤ n) : takeExact eof n (piece ++ xs) =
    (takeExact eof (n - piece.length) xs >>= fun p => .ok (piece ++ p.1, p.2)) := by
  by_cases hle : n ≤ piece.length + xs.length
  · rw [takeExact, takeExact, if_pos (by rw [length_append]; exact hle), if_pos (by omega),
      take_append, drop_append, take_of_length_le h, drop_of_length_le h, nil_append]
    rfl
  · rw [takeExact_short (by rw [length_append]; omega), takeExact_short (by omega)]
    rfl

/-- Whatever the pieces, the symbols read are those of the list. -/
theorem readExact_agree (eof : ε) (n : ℕ) (h : Delivers ps xs) :
    Agree Delivers (readExact eof n ps) (takeExact eof n xs) := by
  obtain ⟨hne, rfl⟩ := h
  induction ps generalizing n with
  | nil =>
    rw [readExact]
    by_cases hn : n = 0
    · subst hn
      exact .ok ⟨hne, rfl⟩
    · rw [if_neg hn, takeExact_short (by simpa using Nat.pos_of_ne_zero hn)]
      exact .error eof
  | cons piece ps ih =>
    have hpiece := hne piece mem_cons_self
    have hrest : ∀ p ∈ ps, p ≠ [] := fun p hp => hne p (mem_cons_of_mem piece hp)
    rw [readExact, flatten_cons]
    by_cases hn : n = 0
    · subst hn
      exact .ok ⟨hne, rfl⟩
    rw [if_neg hn, if_neg hpiece]
    by_cases hle : piece.length ≤ n
    · rw [if_pos hle, takeExact_piece hle]
      exact (ih (n - piece.length) hrest).bind fun _ _ _ hst => .ok hst
    · have htake : takeExact eof n (piece ++ ps.flatten) =
          .ok (piece.take n, piece.drop n ++ ps.flatten) := by
        have hsplit := @takeExact_append _ _ eof n (piece.take n) (piece.drop n ++ ps.flatten)
          (length_take_of_le (Nat.le_of_not_le hle))
        rwa [← append_assoc, take_append_drop] at hsplit
      rw [if_neg hle, htake]
      refine .ok ⟨?_, by rw [flatten_cons]⟩
      intro p hp
      rcases mem_cons.mp hp with rfl | hp
      · exact ne_nil_of_length_pos (by rw [length_drop]; omega)
      · exact hrest p hp

end Source
