import Mathlib.Data.List.Basic
import Mathlib.Data.List.TakeDrop

/-! Pieces of a file at their offsets: what is written past a piece leaves it where it is. -/
namespace Pieces
open List

variable {τ : Type}

/-- A write at an offset, filled up to it when the file is shorter; a write of nothing does
nothing. -/
def putAt (fill : τ) (file : List τ) (off : ℕ) (piece : List τ) : List τ :=
  match piece with
  | [] => file
  | t :: ts => file.take off ++ replicate (off - file.length) fill ++ (t :: ts) ++
      file.drop (off + (t :: ts).length)

/-- The piece stands in the file at this offset. -/
def At (file : List τ) (off : ℕ) (piece : List τ) : Prop :=
  ∀ i < piece.length, file[off + i]? = piece[i]?

variable {fill : τ} {file file' other piece block : List τ} {off pos n i : ℕ}

theorem At.le (h : At file off piece) (hne : piece ≠ []) : off + piece.length ≤ file.length := by
  have hpos : 0 < piece.length := length_pos_of_ne_nil hne
  have hlast := h (piece.length - 1) (by omega)
  have hin : piece.length - 1 < piece.length := by omega
  rw [getElem?_eq_getElem hin] at hlast
  have hlt := (List.getElem?_eq_some_iff.mp hlast).1
  omega

theorem At.take_drop (h : At file off piece) : (file.drop off).take piece.length = piece := by
  apply ext_getElem?
  intro i
  by_cases hi : i < piece.length
  · rw [getElem?_take_of_lt hi, getElem?_drop, h i hi]
  · rw [getElem?_eq_none (by rw [length_take]; omega), getElem?_eq_none (by omega)]

theorem at_between (before piece after : List τ) :
    At (before ++ (piece ++ after)) before.length piece := by
  intro i hi
  rw [getElem?_append_right (Nat.le_add_right _ _), Nat.add_sub_cancel_left,
    getElem?_append_left hi]

theorem At.of_drop (h : At (file.drop pos) off piece) : At file (pos + off) piece := by
  intro i hi
  have hdrop := h i hi
  rwa [getElem?_drop, ← Nat.add_assoc] at hdrop

/-- Whatever follows a file, a piece of it stands where it was. -/
theorem At.of_prefix (h : At file off piece) (hpre : file <+: file') : At file' off piece := by
  obtain ⟨more, rfl⟩ := hpre
  intro i hi
  have hsome := h i hi
  rw [getElem?_eq_getElem hi] at hsome
  rw [List.getElem?_append_left (List.getElem?_eq_some_iff.mp hsome).1]
  exact h i hi

/-- Part of a piece stands at its own offset. -/
theorem At.slice (h : At file off block) (hle : pos + n ≤ block.length) :
    At file (off + pos) ((block.drop pos).take n) := by
  intro i hi
  rw [length_take, length_drop] at hi
  rw [Nat.add_assoc, h (pos + i) (by omega), getElem?_take_of_lt (by omega), getElem?_drop]

theorem getElem?_putAt_of_lt (hi : i < file.length) (hlt : i < off) :
    (putAt fill file off piece)[i]? = file[i]? := by
  cases piece with
  | nil => rfl
  | cons t ts =>
    have htake : i < (file.take off).length := by
      rw [length_take]
      omega
    simp only [putAt, append_assoc]
    rw [getElem?_append_left htake, getElem?_take_of_lt hlt]

theorem at_putAt (fill : τ) (file : List τ) (off : ℕ) (piece : List τ) :
    At (putAt fill file off piece) off piece := by
  intro i hi
  cases piece with
  | nil => cases hi
  | cons t ts =>
    have hbefore : (file.take off ++ replicate (off - file.length) fill).length = off := by
      rw [length_append, length_take, length_replicate]
      omega
    simp only [putAt]
    rw [append_assoc, getElem?_append_right (by omega), hbefore, Nat.add_sub_cancel_left,
      getElem?_append_left hi]

/-- What is written past a piece leaves it. -/
theorem At.putAt (h : At file off piece) (hle : off + piece.length ≤ pos) :
    At (putAt fill file pos other) off piece := by
  intro i hi
  have hsome := h i hi
  rw [getElem?_eq_getElem hi] at hsome
  have hlt := (List.getElem?_eq_some_iff.mp hsome).1
  rw [getElem?_putAt_of_lt hlt (by omega)]
  exact h i hi

/-- A piece that two versions of a file have stands in every mixture of them. -/
theorem At.mixed {mix : List τ} (h : At file off piece) (h' : At file' off piece)
    (hmix : ∀ i < file.length, mix[i]? = file[i]? ∨ mix[i]? = file'[i]?) : At mix off piece := by
  intro i hi
  have hsome := h i hi
  rw [getElem?_eq_getElem hi] at hsome
  rcases hmix (off + i) (List.getElem?_eq_some_iff.mp hsome).1 with hfile | hfile
  · rw [hfile, h i hi]
  · rw [hfile, h' i hi]

end Pieces
