import Mathlib.Data.List.Basic

/-! Cursor readers over a token list: what a reader accepts and what it leaves, with sequencing. -/
namespace Codec
open List

/-- A token list and how much of it has been read. -/
structure Cursor (τ : Type) where
  b : List τ
  pos : ℕ

abbrev Reader (τ ε α : Type) := StateT (Cursor τ) (Except ε) α

variable {τ ε α β : Type}

def Cursor.advance (c : Cursor τ) (n : ℕ) : Cursor τ := { c with pos := c.pos + n }

/-- From `c`, the tokens `w` lead to `c'`. -/
def Spans (c c' : Cursor τ) (w : List τ) : Prop :=
  c' = c.advance w.length ∧ c.b.drop c.pos = w ++ c'.b.drop c'.pos

/-- `p` takes the tokens `w` for `x`, wherever they stand. -/
def Reads (p : Reader τ ε α) (w : List τ) (x : α) : Prop :=
  ∀ c c', Spans c c' w → p c = .ok (x, c')

/-- Whatever `p` accepts, it accepts from that value's own encoding. -/
def Exact (p : Reader τ ε α) (encode : α → List τ) : Prop :=
  ∀ c x c', p c = .ok (x, c') → Spans c c' (encode x)

theorem Spans.refl (c : Cursor τ) : Spans c c [] := ⟨rfl, rfl⟩

variable {c c' : Cursor τ} {w w' : List τ} {f : α → Reader τ ε β} {p : ℕ → Reader τ ε α}

theorem Spans.trans {c1 c2 : Cursor τ} (h : Spans c c1 w) (h' : Spans c1 c2 w') :
    Spans c c2 (w ++ w') := by
  obtain ⟨rfl, hd⟩ := h
  obtain ⟨rfl, hd'⟩ := h'
  refine ⟨by simp [Cursor.advance, Nat.add_assoc], ?_⟩
  rw [hd, hd', append_assoc]

/-- A span of two parts passes through the cursor between them. -/
theorem Spans.split {c2 : Cursor τ} (h : Spans c c2 (w ++ w')) :
    ∃ c1, Spans c c1 w ∧ Spans c1 c2 w' := by
  obtain ⟨rfl, hd⟩ := h
  have hmid : (c.advance w.length).b.drop (c.advance w.length).pos =
      w' ++ (c.advance (w ++ w').length).b.drop (c.advance (w ++ w').length).pos := by
    have hdrop := congrArg (List.drop w.length) hd
    rwa [append_assoc, drop_left, drop_drop] at hdrop
  refine ⟨c.advance w.length, ⟨rfl, ?_⟩, ⟨?_, hmid⟩⟩
  · rw [hmid, hd, append_assoc]
  · simp [Cursor.advance, Nat.add_assoc]

theorem Spans.bytes_eq (h : Spans c c' w) : c'.b = c.b := by
  rw [h.1, Cursor.advance]

/-- The whole list is one span. -/
theorem Spans.whole (w : List τ) : Spans ⟨w, 0⟩ ⟨w, w.length⟩ w :=
  ⟨by simp [Cursor.advance], by simp⟩

theorem Spans.eq_whole {b : List τ} (h : Spans ⟨b, 0⟩ c w) (hend : c.pos = b.length) : b = w := by
  have hd := h.2
  rw [h.bytes_eq, hend] at hd
  simpa using hd

theorem bind_eq_ok {p : Reader τ ε α} {y : β} :
    (p >>= f) c = .ok (y, c') ↔ ∃ x c1, p c = .ok (x, c1) ∧ f x c1 = .ok (y, c') := by
  show (p c >>= fun r => f r.1 r.2) = .ok (y, c') ↔ _
  cases h : p c with
  | error e => simp [bind, Except.bind]
  | ok r =>
    constructor
    · exact fun hf => ⟨r.1, r.2, rfl, hf⟩
    · rintro ⟨x, c1, hr, hf⟩
      cases hr
      exact hf

theorem pure_eq_ok {x y : α} : (pure x : Reader τ ε α) c = .ok (y, c') ↔ y = x ∧ c' = c := by
  show (.ok (x, c) : Except ε _) = .ok (y, c') ↔ _
  simp [eq_comm]

theorem Reads.pure (x : α) : Reads (pure x : Reader τ ε α) [] x := by
  rintro c c' ⟨rfl, -⟩
  rfl

theorem Reads.bind {p : Reader τ ε α} {x : α} {y : β}
    (hp : Reads p w x) (hf : Reads (f x) w' y) : Reads (p >>= f) (w ++ w') y := by
  intro c c2 h
  obtain ⟨c1, h1, h2⟩ := h.split
  exact bind_eq_ok.mpr ⟨x, c1, hp c c1 h1, hf c1 c2 h2⟩

/-- Read `count` items, the first of which has index `i`. -/
def collect (p : ℕ → Reader τ ε α) : ℕ → ℕ → Reader τ ε (List α)
  | _, 0 => return []
  | i, count + 1 => do
    let x ← p i
    let xs ← collect p (i + 1) count
    return x :: xs

/-- The encodings of a list's items, one after the other. -/
def encodeAll (encode : α → List τ) (xs : List α) : List τ := xs.flatMap encode

theorem Reads.collect {p : ℕ → Reader τ ε α} {encode : α → List τ} {i : ℕ} {xs : List α}
    (h : ∀ k x, xs[k]? = some x → Reads (p (i + k)) (encode x) x) :
    Reads (Codec.collect p i xs.length) (encodeAll encode xs) xs := by
  induction xs generalizing i with
  | nil => exact Reads.pure []
  | cons x xs ih =>
    have hhead : Reads (p i) (encode x) x := h 0 x rfl
    have htail := ih (i := i + 1) fun k y hy => by
      rw [Nat.add_assoc, Nat.add_comm 1 k]
      exact h (k + 1) y hy
    have hall := htail.bind (f := fun ys => Pure.pure (x :: ys)) (Reads.pure (x :: xs))
    rw [append_nil] at hall
    exact hhead.bind (f := fun y => do return y :: (← Codec.collect p (i + 1) xs.length)) hall

/-- What the loop accepts has its length, and each item what its reader promises. -/
theorem collect_all {P : ℕ → α → Prop} (h : ∀ j c x c', p j c = .ok (x, c') → P j x) {i count : ℕ}
    {xs : List α} (hc : collect p i count c = .ok (xs, c')) :
    xs.length = count ∧ ∀ k x, xs[k]? = some x → P (i + k) x := by
  induction count generalizing i c xs with
  | zero =>
    obtain ⟨rfl, rfl⟩ := pure_eq_ok.mp hc
    exact ⟨rfl, by simp⟩
  | succ count ih =>
    obtain ⟨x, c1, hx, hrest⟩ := bind_eq_ok.mp hc
    obtain ⟨ys, c2, hys, hpure⟩ := bind_eq_ok.mp hrest
    obtain ⟨rfl, rfl⟩ := pure_eq_ok.mp hpure
    obtain ⟨hlen, hall⟩ := ih hys
    refine ⟨by simp [hlen], fun k y hy => ?_⟩
    cases k with
    | zero =>
      simp only [getElem?_cons_zero, Option.some.injEq] at hy
      exact hy ▸ h i c x c1 hx
    | succ k =>
      have hgood := hall k y hy
      rwa [Nat.add_assoc, Nat.add_comm 1 k] at hgood

/-- A loop over exact readers takes exactly the encodings of its items. -/
theorem collect_exact {encode : α → List τ} {i count : ℕ}
    (h : ∀ j < i + count, Exact (p j) encode) : Exact (collect p i count) (encodeAll encode) := by
  induction count generalizing i with
  | zero =>
    intro c xs c' hc
    obtain ⟨rfl, rfl⟩ := pure_eq_ok.mp hc
    exact Spans.refl _
  | succ count ih =>
    intro c xs c' hc
    obtain ⟨x, c1, hx, hrest⟩ := bind_eq_ok.mp hc
    obtain ⟨ys, c2, hys, hpure⟩ := bind_eq_ok.mp hrest
    obtain ⟨rfl, rfl⟩ := pure_eq_ok.mp hpure
    have htail := ih (i := i + 1) (fun j hj => h j (by omega)) c1 ys c' hys
    exact (h i (by omega) c x c1 hx).trans htail

end Codec
