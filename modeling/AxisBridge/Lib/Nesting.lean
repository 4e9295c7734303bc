import Mathlib.Order.Interval.Finset.Nat
import Mathlib.Tactic.Linarith

/-! Bracket nesting over a sequence of openers, closers and plain items, read by position. -/
namespace Nesting
open List Option

inductive Bracket
  | opener
  | closer
  | plain
  deriving DecidableEq, Repr

def Bracket.weight : Bracket → ℤ
  | .opener => 1
  | .closer => -1
  | .plain => 0

variable {role : ℕ → Bracket} {a b e i j k n : ℕ}

/-- Openers minus closers among the first `i` items. -/
def depth (role : ℕ → Bracket) : ℕ → ℤ
  | 0 => 0
  | i + 1 => depth role i + (role i).weight

/-- No prefix of the first `n` items closes more than it opens. -/
def NoUnderflow (role : ℕ → Bracket) (n : ℕ) : Prop := ∀ i ≤ n, 0 ≤ depth role i

def Balanced (role : ℕ → Bracket) (n : ℕ) : Prop := NoUnderflow role n ∧ depth role n = 0

/-- The opener `b` is still open when item `i` is reached; its own closer is inside it. -/
def Encloses (role : ℕ → Bracket) (b i : ℕ) : Prop :=
  role b = .opener ∧ b < i ∧ ∀ k ≤ i, b < k → depth role b < depth role k

/-- The closer `e` ends the block that `b` opened. -/
def Matches (role : ℕ → Bracket) (b e : ℕ) : Prop :=
  Encloses role b e ∧ role e = .closer ∧ depth role e = depth role b + 1

/-- `i` sits inside the block of `b`, whose own opener and closer do not. -/
def Inside (role : ℕ → Bracket) (b i : ℕ) : Prop := Encloses role b i ∧ ¬ Matches role b i

instance : Decidable (NoUnderflow role n) := by unfold NoUnderflow; infer_instance
instance : Decidable (Balanced role n) := by unfold Balanced; infer_instance
instance : Decidable (Encloses role b i) := by unfold Encloses; infer_instance
instance : Decidable (Matches role b e) := by unfold Matches; infer_instance
instance : Decidable (Inside role b i) := by unfold Inside; infer_instance

/-- The openers not yet closed before item `i`, innermost first. -/
def opened (role : ℕ → Bracket) : ℕ → List ℕ
  | 0 => []
  | i + 1 =>
    match role i with
    | .opener => i :: opened role i
    | .closer => (opened role i).tail
    | .plain => opened role i

theorem depth_succ (i : ℕ) : depth role (i + 1) = depth role i + (role i).weight := rfl

theorem opened_opener (h : role i = .opener) : opened role (i + 1) = i :: opened role i := by
  simp [opened, h]

theorem opened_closer (h : role i = .closer) : opened role (i + 1) = (opened role i).tail := by
  simp [opened, h]

theorem opened_plain (h : role i = .plain) : opened role (i + 1) = opened role i := by
  simp [opened, h]

theorem NoUnderflow.mono (h : NoUnderflow role n) (hin : i ≤ n) : NoUnderflow role i :=
  fun k hk => h k (le_trans hk hin)

theorem noUnderflow_succ_iff :
    NoUnderflow role (n + 1) ↔ NoUnderflow role n ∧ 0 ≤ depth role (n + 1) := by
  constructor
  · intro h
    exact ⟨h.mono (Nat.le_succ n), h _ le_rfl⟩
  · rintro ⟨h, hd⟩ i hi
    rcases lt_or_ge n i with hlt | hge
    · rwa [show i = n + 1 by omega]
    · exact h i hge

/-- What lies below an open `b` is exactly what was open when `b` was reached. -/
theorem opened_split {p post : List ℕ} (h : opened role i = p ++ b :: post) :
    role b = .opener ∧ b < i ∧ opened role b = post := by
  induction i generalizing p with
  | zero => simp [opened] at h
  | succ i ih =>
    cases hr : role i with
    | opener =>
      rw [opened_opener hr] at h
      cases p with
      | nil =>
        simp only [nil_append, List.cons.injEq] at h
        obtain ⟨rfl, rfl⟩ := h
        exact ⟨hr, Nat.lt_succ_self _, rfl⟩
      | cons x p =>
        simp only [cons_append, List.cons.injEq] at h
        obtain ⟨ho, hlt, hp⟩ := ih h.2
        exact ⟨ho, Nat.lt_succ_of_lt hlt, hp⟩
    | closer =>
      rw [opened_closer hr] at h
      cases ho : opened role i with
      | nil => simp [ho] at h
      | cons x rest =>
        rw [ho, tail_cons] at h
        obtain ⟨hb, hlt, hp⟩ := ih (p := x :: p) (by rw [ho, h, cons_append])
        exact ⟨hb, Nat.lt_succ_of_lt hlt, hp⟩
    | plain =>
      rw [opened_plain hr] at h
      obtain ⟨hb, hlt, hp⟩ := ih h
      exact ⟨hb, Nat.lt_succ_of_lt hlt, hp⟩

theorem opened_of_mem (h : b ∈ opened role i) :
    ∃ pre, opened role i = pre ++ b :: opened role b := by
  obtain ⟨pre, post, hs⟩ := append_of_mem h
  exact ⟨pre, by rw [(opened_split hs).2.2]; exact hs⟩

theorem opener_of_mem (h : b ∈ opened role i) : role b = .opener := by
  obtain ⟨pre, hs⟩ := opened_of_mem h
  exact (opened_split hs).1

theorem lt_of_mem (h : b ∈ opened role i) : b < i := by
  obtain ⟨pre, hs⟩ := opened_of_mem h
  exact (opened_split hs).2.1

/-- A block open at `i` was open at every item since it was opened. -/
theorem mem_opened_of_le (h : b ∈ opened role i) (hbk : b < k) (hki : k ≤ i) :
    b ∈ opened role k := by
  induction i, hki using Nat.le_induction with
  | base => exact h
  | succ i hki ih =>
    apply ih
    cases hr : role i with
    | opener =>
      rw [opened_opener hr, mem_cons] at h
      exact h.resolve_left (by omega)
    | closer =>
      rw [opened_closer hr] at h
      exact mem_of_mem_tail h
    | plain => rwa [opened_plain hr] at h

/-- Without underflow the depth is the number of open blocks. -/
theorem length_opened (h : NoUnderflow role i) : ((opened role i).length : ℤ) = depth role i := by
  induction i with
  | zero => rfl
  | succ i ih =>
    have hi := ih (h.mono (Nat.le_succ i))
    have hd := h (i + 1) le_rfl
    rw [depth_succ] at hd ⊢
    cases hr : role i with
    | opener => simp [opened_opener hr, Bracket.weight, hi]
    | closer =>
      simp only [hr, Bracket.weight] at hd ⊢
      rw [opened_closer hr, length_tail]
      omega
    | plain => simp [opened_plain hr, Bracket.weight, hi]

/-- An open block is as deep as there are blocks open in it. -/
theorem depth_of_opened {p : List ℕ} (h : opened role i = p ++ b :: opened role b) :
    depth role i = depth role b + p.length + 1 := by
  have hb : b ∈ opened role i := by simp [h]
  have hlt := lt_of_mem hb
  induction i, Nat.succ_le_of_lt hlt using Nat.le_induction generalizing p with
  | base =>
    have hr := opener_of_mem hb
    rw [opened_opener hr] at h
    have hlen := congrArg List.length h
    simp only [length_append, length_cons] at hlen
    rw [depth_succ, hr, Bracket.weight]
    omega
  | succ i hbi ih =>
    have hmem := mem_opened_of_le hb (Nat.lt_of_succ_le hbi) (Nat.le_succ i)
    obtain ⟨p', hs⟩ := opened_of_mem hmem
    have hd := ih hs hmem (lt_of_mem hmem)
    have hlen := congrArg List.length h
    rw [depth_succ]
    cases hr : role i with
    | opener =>
      simp only [opened_opener hr, hs, length_append, length_cons] at hlen
      rw [Bracket.weight]
      omega
    | closer =>
      simp only [opened_closer hr, hs, length_tail, length_append, length_cons] at hlen
      rw [Bracket.weight]
      omega
    | plain =>
      simp only [opened_plain hr, hs, length_append, length_cons] at hlen
      rw [Bracket.weight]
      omega

theorem encloses_of_mem (hb : b ∈ opened role i) : Encloses role b i := by
  refine ⟨opener_of_mem hb, lt_of_mem hb, ?_⟩
  intro k hk hbk
  obtain ⟨pre, hs⟩ := opened_of_mem (mem_opened_of_le hb hbk hk)
  have hd := depth_of_opened hs
  omega

theorem mem_of_encloses (hb : Encloses role b i) : b ∈ opened role i := by
  obtain ⟨ho, hlt, hd⟩ := hb
  induction i, (Nat.succ_le_of_lt hlt) using Nat.le_induction with
  | base => simp [opened_opener ho]
  | succ i hbi ih =>
    have hmem := ih (by omega) (fun k hk => hd k (by omega))
    have hdi := hd (i + 1) le_rfl (by omega)
    cases hr : role i with
    | opener => rw [opened_opener hr]; exact mem_cons_of_mem _ hmem
    | closer =>
      obtain ⟨pre, hs⟩ := opened_of_mem hmem
      rw [opened_closer hr, hs]
      cases pre with
      | cons x pre => simp
      | nil =>
        -- the closer would pop `b` itself, and the depth would fall back to that of `b`
        have hdb := depth_of_opened hs
        rw [depth_succ, hr, Bracket.weight] at hdi
        simp only [length_nil] at hdb
        omega
    | plain => rwa [opened_plain hr]

theorem mem_opened_iff : b ∈ opened role i ↔ Encloses role b i := ⟨encloses_of_mem, mem_of_encloses⟩

theorem not_mem_opened_self (b : ℕ) : b ∉ opened role b := fun h => lt_irrefl b (lt_of_mem h)

/-- The block a closer ends is the innermost open one. -/
theorem matches_iff_head (hr : role e = .closer) :
    Matches role b e ↔ (opened role e).head? = some b := by
  constructor
  · rintro ⟨he, -, hd⟩
    obtain ⟨pre, hs⟩ := opened_of_mem (mem_of_encloses he)
    have hdb := depth_of_opened hs
    have hp : pre = [] := length_eq_zero_iff.mp (by omega)
    simp [hs, hp]
  · intro hh
    obtain ⟨rest, hs⟩ : ∃ rest, opened role e = b :: rest := by
      cases ho : opened role e with
      | nil => simp [ho] at hh
      | cons x rest => simp_all
    obtain ⟨ho, hlt, hp⟩ := opened_split (p := []) hs
    have hdb := depth_of_opened (p := []) (hs.trans (by rw [hp, nil_append]))
    refine ⟨encloses_of_mem (by simp [hs]), hr, ?_⟩
    simpa using hdb

theorem Matches.unique_left (ha : Matches role a e) (hb : Matches role b e) : a = b := by
  have h1 := (matches_iff_head ha.2.1).mp ha
  have h2 := (matches_iff_head hb.2.1).mp hb
  simpa [h1] using h2

/-- At its closer a block is the innermost open one, over the blocks it was opened in. -/
theorem Matches.opened_eq (hm : Matches role b e) : opened role e = b :: opened role b := by
  have hhead := (matches_iff_head hm.2.1).mp hm
  cases ho : opened role e with
  | nil => simp [ho] at hhead
  | cons x rest =>
    rw [ho, head?_cons, some.injEq] at hhead
    subst hhead
    rw [(opened_split (p := []) ho).2.2]

theorem Matches.opened_succ (hm : Matches role b e) : opened role (e + 1) = opened role b := by
  rw [opened_closer hm.2.1, hm.opened_eq, tail_cons]

/-- Every closer has its opener. -/
theorem exists_matches_left (h : NoUnderflow role (e + 1)) (hr : role e = .closer) :
    ∃ b, Matches role b e := by
  have hlen := length_opened (h.mono (Nat.le_succ e))
  have hd := h (e + 1) le_rfl
  rw [depth_succ, hr, Bracket.weight] at hd
  cases ho : opened role e with
  | nil => simp [ho] at hlen; omega
  | cons b rest =>
    exact ⟨b, (matches_iff_head hr).mpr (by simp [ho])⟩

/-- The blocks `i` sits inside, innermost first. -/
def enclosing (role : ℕ → Bracket) (i : ℕ) : List ℕ :=
  match role i with
  | .closer => (opened role i).tail
  | _ => opened role i

theorem enclosing_of_ne (h : role i ≠ .closer) : enclosing role i = opened role i := by
  unfold enclosing
  split
  · exact (h ‹_›).elim
  · rfl

theorem enclosing_closer (h : role i = .closer) : enclosing role i = (opened role i).tail := by
  simp [enclosing, h]

theorem mem_opened_of_enclosing (h : b ∈ enclosing role i) : b ∈ opened role i := by
  cases hr : role i with
  | closer =>
    rw [enclosing_closer hr] at h
    exact mem_of_mem_tail h
  | opener | plain => rwa [enclosing_of_ne (by simp [hr])] at h

theorem mem_enclosing_iff : b ∈ enclosing role i ↔ Inside role b i := by
  unfold Inside
  rw [← mem_opened_iff]
  by_cases hr : role i = .closer
  · rw [enclosing_closer hr, matches_iff_head hr]
    cases ho : opened role i with
    | nil => simp
    | cons x rest =>
      have hx := (opened_split (p := []) ho).2.2
      have hnot : x ∉ rest := hx ▸ not_mem_opened_self x
      simp only [tail_cons, mem_cons, head?_cons, some.injEq]
      constructor
      · intro hb
        exact ⟨Or.inr hb, fun he => hnot (he ▸ hb)⟩
      · rintro ⟨hb | hb, hne⟩
        · exact (hne hb.symm).elim
        · exact hb
  · rw [enclosing_of_ne hr]
    exact ⟨fun hb => ⟨hb, fun hm => hr hm.2.1⟩, And.left⟩

/-- The blocks around `i` beyond the innermost are those around the innermost itself. -/
theorem enclosing_split {rest : List ℕ} (h : enclosing role i = b :: rest) :
    role b = .opener ∧ b < i ∧ enclosing role b = rest := by
  obtain ⟨pre, hs⟩ : ∃ pre, opened role i = pre ++ b :: rest := by
    cases hr : role i with
    | closer =>
      rw [enclosing_closer hr] at h
      cases ho : opened role i with
      | nil => simp [ho] at h
      | cons x l => exact ⟨[x], by rw [ho, tail_cons] at h; rw [h]; rfl⟩
    | opener | plain => exact ⟨[], by rw [← h, enclosing_of_ne (by simp [hr])]; rfl⟩
  obtain ⟨ho, hlt, hp⟩ := opened_split hs
  exact ⟨ho, hlt, by rw [enclosing_of_ne (by simp [ho]), hp]⟩

theorem Encloses.le_of_matches (he : Encloses role b i) (hm : Matches role b e) : i ≤ e := by
  by_contra hlt
  have hd := he.2.2 (e + 1) (by omega) (by have := hm.1.2.1; omega)
  rw [depth_succ, hm.2.1, Bracket.weight, hm.2.2] at hd
  omega

theorem Matches.unique_right (hi : Matches role b i) (hj : Matches role b j) : i = j :=
  le_antisymm (hi.1.le_of_matches hj) (hj.1.le_of_matches hi)

/-- What stands between the ends of a block is inside it. -/
theorem Matches.mem_enclosing (hm : Matches role b e) (hbj : b < j) (hje : j < e) :
    b ∈ enclosing role j := by
  rw [mem_enclosing_iff]
  refine ⟨⟨hm.1.1, hbj, fun k hk => hm.1.2.2 k (by omega)⟩, fun hmj => ?_⟩
  have := hm.unique_right hmj
  omega

/-- A block of a balanced sequence has its closer. -/
theorem exists_matches (h : Balanced role n) (hr : role b = .opener) (hb : b < n) :
    ∃ e < n, Matches role b e := by
  by_contra hno
  have hopen : ∀ i, b < i → i ≤ n → b ∈ opened role i := by
    intro i hi
    induction i, (Nat.succ_le_of_lt hi) using Nat.le_induction with
    | base => intro _; simp [opened_opener hr]
    | succ i hbi ih =>
      intro hin
      have hmem := ih (by omega) (by omega)
      cases hi' : role i with
      | opener => rw [opened_opener hi']; exact mem_cons_of_mem _ hmem
      | closer =>
        obtain ⟨pre, hs⟩ := opened_of_mem hmem
        rw [opened_closer hi', hs]
        cases pre with
        | cons x pre => simp
        | nil =>
          have hm : Matches role b i :=
            (matches_iff_head hi').mpr (by simp [hs])
          exact (hno ⟨i, by omega, hm⟩).elim
      | plain => rwa [opened_plain hi']
  have hlen := length_opened h.1
  have hn := length_pos_of_mem (hopen n hb le_rfl)
  rw [h.2] at hlen
  omega

end Nesting
