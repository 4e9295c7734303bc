import Mathlib.Algebra.Group.Nat.Even
import Mathlib.Data.List.Basic

/-! Texts with quoted parts, read by a scanner that turns at every quote: which marks it takes for
marks, what it leaves in front of the first one, and the pieces between them. -/
namespace Quoting
open List

variable {α : Type} [DecidableEq α] (quote : α) (mark : α → Bool)

def turned (inQuotes : Bool) (x : α) : Bool := if x = quote then !inQuotes else inQuotes

/-- Whether the scanner is in quotes behind the text. -/
def inside (inQuotes : Bool) (l : List α) : Bool := l.foldl (turned quote) inQuotes

/-- What is in front of the first mark outside quotes. -/
def before (inQuotes : Bool) : List α → Option (List α)
  | [] => none
  | x :: l =>
    if mark x && !inQuotes then some [] else (before (turned quote inQuotes x) l).map (x :: ·)

/-- The pieces between the marks outside quotes. -/
def pieces (inQuotes : Bool) : List α → List (List α)
  | [] => [[]]
  | x :: l =>
    if mark x && !inQuotes then [] :: pieces (turned quote inQuotes x) l
    else (pieces (turned quote inQuotes x) l).modifyHead (x :: ·)

/-- The text has a mark outside quotes. -/
def Exposed (inQuotes : Bool) (l : List α) : Prop :=
  ∃ front x back, l = front ++ x :: back ∧ mark x = true ∧ inside quote inQuotes front = false

variable {quote mark} {b : Bool} {x : α} {l m front : List α}

@[simp] theorem inside_nil : inside quote b [] = b := rfl

@[simp] theorem inside_cons : inside quote b (x :: l) = inside quote (turned quote b x) l := rfl

@[simp] theorem inside_append : inside quote b (l ++ m) = inside quote (inside quote b l) m :=
  foldl_append

/-- A quote turns the scanner, so the number of quotes tells where it is. -/
theorem inside_eq_false : inside quote b l = false ↔ (b = true ↔ ¬ Even (l.count quote)) := by
  induction l generalizing b with
  | nil => simp
  | cons x l ih =>
    rw [inside_cons, ih, turned]
    by_cases hx : x = quote
    · subst hx
      rw [if_pos rfl, count_cons_self, Nat.even_add_one]
      cases b <;> simp
    · rw [if_neg hx, count_cons_of_ne hx]

theorem turned_of_mark (hmark : mark quote = false) (hx : mark x = true) :
    turned quote b x = b := by
  apply if_neg
  rintro rfl
  rw [hmark] at hx
  cases hx

theorem not_exposed_nil : ¬ Exposed quote mark b [] := by
  rintro ⟨front, x, back, h, -⟩
  simp at h

theorem exposed_cons : Exposed quote mark b (x :: l) ↔
    (mark x = true ∧ b = false) ∨ Exposed quote mark (turned quote b x) l := by
  constructor
  · rintro ⟨front, y, back, heq, hy, hin⟩
    cases front with
    | nil =>
      obtain ⟨rfl, rfl⟩ := List.cons.inj heq
      exact .inl ⟨hy, hin⟩
    | cons z front =>
      obtain ⟨rfl, rfl⟩ := List.cons.inj heq
      exact .inr ⟨front, y, back, rfl, hy, hin⟩
  · rintro (⟨hx, rfl⟩ | ⟨front, y, back, rfl, hy, hin⟩)
    · exact ⟨[], x, l, rfl, hx, rfl⟩
    · exact ⟨x :: front, y, back, rfl, hy, hin⟩

theorem exposed_append : Exposed quote mark b (l ++ m) ↔
    Exposed quote mark b l ∨ Exposed quote mark (inside quote b l) m := by
  induction l generalizing b with
  | nil => simp [not_exposed_nil]
  | cons x l ih => rw [cons_append, exposed_cons, exposed_cons, ih, inside_cons, or_assoc]

theorem not_exposed_of_forall (h : ∀ x ∈ l, mark x = false) : ¬ Exposed quote mark b l := by
  rintro ⟨front, x, back, rfl, hx, -⟩
  rw [h x (mem_append_right _ mem_cons_self)] at hx
  cases hx

/-- The first mark outside quotes. -/
theorem exists_first (h : Exposed quote mark b l) : ∃ front x back, l = front ++ x :: back ∧
    mark x = true ∧ inside quote b front = false ∧ ¬ Exposed quote mark b front := by
  induction l generalizing b with
  | nil => exact absurd h not_exposed_nil
  | cons x l ih =>
    by_cases hx : mark x = true ∧ b = false
    · exact ⟨[], x, l, rfl, hx.1, hx.2, not_exposed_nil⟩
    · obtain ⟨front, y, back, rfl, hy, hin, hnot⟩ := ih ((exposed_cons.mp h).resolve_left hx)
      refine ⟨x :: front, y, back, rfl, hy, hin, ?_⟩
      rw [exposed_cons, not_or]
      exact ⟨hx, hnot⟩

theorem before_append (h : ¬ Exposed quote mark b l) :
    before quote mark b (l ++ m) = (before quote mark (inside quote b l) m).map (l ++ ·) := by
  induction l generalizing b with
  | nil => simp
  | cons x l ih =>
    rw [exposed_cons, not_or] at h
    have hstep : ¬ (mark x && !b) = true := by simpa using h.1
    rw [cons_append, before, if_neg hstep, ih h.2, Option.map_map, inside_cons]
    rfl

theorem before_of_not_exposed (h : ¬ Exposed quote mark b l) : before quote mark b l = none := by
  have happend := before_append (m := []) h
  rwa [append_nil] at happend

/-- What is in front of the first mark depends on nothing behind it. -/
theorem before_mark (h : ¬ Exposed quote mark b front) (hx : mark x = true)
    (hin : inside quote b front = false) : before quote mark b (front ++ x :: l) = some front := by
  have hstep : (mark x && !false) = true := by rw [hx]; rfl
  rw [before_append h, hin, before, if_pos hstep, Option.map_some, append_nil]

theorem pieces_ne_nil (b : Bool) (l : List α) : pieces quote mark b l ≠ [] := by
  induction l generalizing b with
  | nil => exact cons_ne_nil _ _
  | cons x l ih =>
    rw [pieces]
    split
    · exact cons_ne_nil _ _
    · rw [Ne, modifyHead_eq_nil_iff]
      exact ih _

theorem pieces_append (h : ¬ Exposed quote mark b l) : pieces quote mark b (l ++ m) =
    (pieces quote mark (inside quote b l) m).modifyHead (l ++ ·) := by
  induction l generalizing b with
  | nil =>
    change pieces quote mark b m = (pieces quote mark b m).modifyHead id
    rw [modifyHead_id]
    rfl
  | cons x l ih =>
    rw [exposed_cons, not_or] at h
    have hstep : ¬ (mark x && !b) = true := by simpa using h.1
    rw [cons_append, pieces, if_neg hstep, ih h.2, modifyHead_modifyHead, inside_cons]
    rfl

theorem pieces_of_not_exposed (h : ¬ Exposed quote mark b l) : pieces quote mark b l = [l] := by
  have happend := pieces_append (m := []) h
  rwa [append_nil, pieces, modifyHead_cons, append_nil] at happend

/-- The piece up to the first mark, and the pieces behind it. -/
theorem pieces_mark (hmark : mark quote = false) (h : ¬ Exposed quote mark b front)
    (hx : mark x = true) (hin : inside quote b front = false) :
    pieces quote mark b (front ++ x :: l) = front :: pieces quote mark false l := by
  have hstep : (mark x && !false) = true := by rw [hx]; rfl
  rw [pieces_append h, hin, pieces, if_pos hstep, turned_of_mark hmark hx, modifyHead_cons,
    append_nil]

end Quoting
