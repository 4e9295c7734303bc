import Mathlib.Data.List.Basic

/-! Encodings whose words tell where they end. -/
namespace SelfDelimiting
open List

variable {τ α β : Type*}

/-- Whatever follows, a word has one reading. -/
def Delimits (ok : α → Prop) (encode : α → List τ) : Prop :=
  ∀ x y r r', ok x → ok y → encode x ++ r = encode y ++ r' → x = y ∧ r = r'

variable {ok : α → Prop} {encode : α → List τ} {ok' : β → Prop} {encode' : β → List τ}

theorem Delimits.pair (h : Delimits ok encode) (h' : Delimits ok' encode') :
    Delimits (fun p : α × β => ok p.1 ∧ ok' p.2) fun p => encode p.1 ++ encode' p.2 := by
  intro x y r r' hx hy heq
  rw [append_assoc, append_assoc] at heq
  obtain ⟨hfst, heq⟩ := h _ _ _ _ hx.1 hy.1 heq
  obtain ⟨hsnd, hrest⟩ := h' _ _ _ _ hx.2 hy.2 heq
  exact ⟨Prod.ext hfst hsnd, hrest⟩

/-- A word under a head of fixed width that tells its length. -/
theorem delimits_prefixed {bound width : ℕ} {head : ℕ → List τ}
    (hwidth : ∀ n, (head n).length = width)
    (hinj : ∀ m n, m < bound → n < bound → head m = head n → m = n) :
    Delimits (fun w : List τ => w.length < bound) fun w => head w.length ++ w := by
  intro x y r r' hx hy heq
  rw [append_assoc, append_assoc] at heq
  obtain ⟨hhead, htail⟩ := append_inj heq (by rw [hwidth, hwidth])
  exact append_inj htail (hinj _ _ hx hy hhead)

/-- A byte in two digits. -/
theorem delimits_digits {digit : ℕ → τ} (hinj : ∀ m < 16, ∀ n < 16, digit m = digit n → m = n) :
    Delimits (fun _ : UInt8 => True) fun b => [digit (b.toNat / 16), digit (b.toNat % 16)] := by
  intro x y r r' _ _ heq
  simp only [cons_append, nil_append, List.cons.injEq] at heq
  obtain ⟨hhigh, hlow, hrest⟩ := heq
  have hx := x.toNat_lt
  have hy := y.toNat_lt
  have hdiv := hinj _ (by omega) _ (by omega) hhigh
  have hmod := hinj _ (by omega) _ (by omega) hlow
  exact ⟨UInt8.toNat_inj.mp (by omega), hrest⟩

/-- A sequence of words that are not empty is read back. -/
theorem Delimits.flatMap_inj (h : Delimits ok encode) (hne : ∀ x, encode x ≠ []) :
    ∀ {xs ys : List α}, (∀ x ∈ xs, ok x) → (∀ y ∈ ys, ok y) →
      xs.flatMap encode = ys.flatMap encode → xs = ys := by
  intro xs
  induction xs with
  | nil =>
    intro ys _ _ heq
    cases ys with
    | nil => rfl
    | cons y ys =>
      rw [flatMap_nil, flatMap_cons] at heq
      exact absurd (append_eq_nil_iff.mp heq.symm).1 (hne y)
  | cons x xs ih =>
    intro ys hxs hys heq
    cases ys with
    | nil =>
      rw [flatMap_nil, flatMap_cons] at heq
      exact absurd (append_eq_nil_iff.mp heq).1 (hne x)
    | cons y ys =>
      rw [flatMap_cons, flatMap_cons] at heq
      obtain ⟨hhead, htail⟩ := h _ _ _ _ (hxs x mem_cons_self) (hys y mem_cons_self) heq
      have hrest := ih (fun z hz => hxs z (mem_cons_of_mem x hz))
        (fun z hz => hys z (mem_cons_of_mem y hz)) htail
      rw [hhead, hrest]

end SelfDelimiting
