import Mathlib.Algebra.BigOperators.Group.Multiset.Basic
import Mathlib.Algebra.GroupWithZero.Nat

/-! Aligning two sequences by their longest common block and what is left and right of it: a
work-list taken in any order finds the blocks that the recursion finds. -/
namespace Alignment
open List
open Multiset (map_add sum_add map_coe sum_coe coe_add rel_add_left rel_zero_left)

/-- A part of each sequence: from `alo` up to `ahi` of the one, from `blo` up to `bhi` of the
other. -/
structure Window where
  alo : ℕ
  ahi : ℕ
  blo : ℕ
  bhi : ℕ

/-- `k` elements from `i` of the one sequence, against those from `j` of the other. -/
structure Block where
  i : ℕ
  j : ℕ
  k : ℕ

/-- The block lies in the window. -/
structure Window.Has (w : Window) (c : Block) : Prop where
  alo_le : w.alo ≤ c.i
  le_ahi : c.i + c.k ≤ w.ahi
  blo_le : w.blo ≤ c.j
  le_bhi : c.j + c.k ≤ w.bhi

def Window.left (w : Window) (d : Block) : Window := ⟨w.alo, d.i, w.blo, d.j⟩

def Window.right (w : Window) (d : Block) : Window := ⟨d.i + d.k, w.ahi, d.j + d.k, w.bhi⟩

/-- All places of the block are related. -/
def Block.All (rel : ℕ → ℕ → Prop) (c : Block) : Prop := ∀ t < c.k, rel (c.i + t) (c.j + t)

/-- The longest block of hits, the first in the one sequence and then in the other among equally
long ones. -/
structure Longest (hit : ℕ → ℕ → Prop) (w : Window) (c : Block) : Prop where
  has : w.Has c
  hits : c.All hit
  longest : ∀ d, w.Has d → d.All hit → d.k ≤ c.k
  first : ∀ d, w.Has d → d.All hit → d.k = c.k → c.i < d.i ∨ c.i = d.i ∧ c.j ≤ d.j

/-- `d` goes on from `c` to both sides over equal elements, as far as they go in the window. -/
structure Extended (eq : ℕ → ℕ → Prop) (w : Window) (c d : Block) : Prop where
  has : w.Has d
  all : d.All eq
  start : d.i ≤ c.i
  stop : c.i + c.k ≤ d.i + d.k
  diagonal : d.i + c.j = d.j + c.i
  left : w.alo < d.i → w.blo < d.j → ¬ eq (d.i - 1) (d.j - 1)
  right : d.i + d.k < w.ahi → d.j + d.k < w.bhi → ¬ eq (d.i + d.k) (d.j + d.k)

/-- The blocks of a window, in order: the longest one, extended, between those of the two sides. -/
inductive Blocks (hit eq : ℕ → ℕ → Prop) : Window → List Block → Prop
  | none {w : Window} {c d : Block} (hc : Longest hit w c) (hd : Extended eq w c d) (hk : d.k = 0) :
    Blocks hit eq w []
  | node {w : Window} {c d : Block} {l r : List Block} (hc : Longest hit w c)
    (hd : Extended eq w c d)
    (hk : 0 < d.k) (hl : Blocks hit eq (w.left d) l) (hr : Blocks hit eq (w.right d) r) :
    Blocks hit eq w (l ++ d :: r)

def total (l : List Block) : ℕ := (l.map Block.k).sum

/-- One block ends before another begins, in both sequences. -/
def Block.Before (d e : Block) : Prop := d.i + d.k ≤ e.i ∧ d.j + d.k ≤ e.j

variable {hit eq : ℕ → ℕ → Prop} {w : Window} {c c' d d' : Block} {l l' r : List Block} {n : ℕ}

theorem Block.eq_of (hi : c.i = d.i) (hj : c.j = d.j) (hk : c.k = d.k) : c = d := by
  cases c
  cases d
  simp only at hi hj hk
  rw [hi, hj, hk]

theorem Longest.unique (h : Longest hit w c) (h' : Longest hit w c') : c = c' := by
  have hk : c.k = c'.k := le_antisymm (h'.longest c h.has h.hits) (h.longest c' h'.has h'.hits)
  have hcc := h.first c' h'.has h'.hits hk.symm
  have hcc' := h'.first c h.has h.hits hk
  exact Block.eq_of (by omega) (by omega) hk

/-- One extension begins where another does: it cannot begin inside it. -/
theorem Extended.start_le (h : Extended eq w c d) (h' : Extended eq w c d') : d'.i ≤ d.i := by
  by_contra hlt
  have hstart := h'.start
  have hstop := h.stop
  have hdiagonal := h.diagonal
  have hdiagonal' := h'.diagonal
  have halo := h.has.alo_le
  have hblo := h.has.blo_le
  refine h'.left (by omega) (by omega) ?_
  have hcell := h.all (d'.i - 1 - d.i) (by omega)
  have hi : d.i + (d'.i - 1 - d.i) = d'.i - 1 := by omega
  have hj : d.j + (d'.i - 1 - d.i) = d'.j - 1 := by omega
  rwa [hi, hj] at hcell

theorem Extended.stop_le (h : Extended eq w c d) (h' : Extended eq w c d') :
    d.i + d.k ≤ d'.i + d'.k := by
  by_contra hlt
  have hstart := h.start
  have hstop := h'.stop
  have hdiagonal := h.diagonal
  have hdiagonal' := h'.diagonal
  have hahi := h.has.le_ahi
  have hbhi := h.has.le_bhi
  refine h'.right (by omega) (by omega) ?_
  have hcell := h.all (d'.i + d'.k - d.i) (by omega)
  have hi : d.i + (d'.i + d'.k - d.i) = d'.i + d'.k := by omega
  have hj : d.j + (d'.i + d'.k - d.i) = d'.j + d'.k := by omega
  rwa [hi, hj] at hcell

theorem Extended.unique (h : Extended eq w c d) (h' : Extended eq w c d') : d = d' := by
  have hle := h.start_le h'
  have hge := h'.start_le h
  have hle' := h.stop_le h'
  have hge' := h'.stop_le h
  have hdiagonal := h.diagonal
  have hdiagonal' := h'.diagonal
  exact Block.eq_of (by omega) (by omega) (by omega)

/-- The recursion has one result. -/
theorem Blocks.unique (h : Blocks hit eq w l) : ∀ {l'}, Blocks hit eq w l' → l = l' := by
  induction h with
  | none hc hd hk =>
    intro l' h'
    cases h' with
    | none => rfl
    | node hc' hd' hk' =>
      cases hc.unique hc'
      cases hd.unique hd'
      omega
  | node hc hd hk hl hr ihl ihr =>
    intro l' h'
    cases h' with
    | none hc' hd' hk' =>
      cases hc.unique hc'
      cases hd.unique hd'
      omega
    | node hc' hd' hk' hl' hr' =>
      cases hc.unique hc'
      cases hd.unique hd'
      rw [ihl hl', ihr hr']

/-! ### What the blocks are -/

theorem total_append : total (l ++ d :: r) = total l + (d.k + total r) := by
  unfold total
  rw [map_append, sum_append, map_cons, sum_cons]

theorem Blocks.has (h : Blocks hit eq w l) : ∀ d ∈ l, w.Has d ∧ d.All eq := by
  induction h with
  | none => exact fun d hd => absurd hd not_mem_nil
  | @node w c d l r hc hd hk hl hr ihl ihr =>
    have hw := hd.has
    intro e he
    rcases mem_append.mp he with he | he
    · obtain ⟨⟨h1, h2, h3, h4⟩, hall⟩ := ihl e he
      simp only [Window.left] at h1 h2 h3 h4
      exact ⟨⟨h1, by have := hw.le_ahi; omega, h3, by have := hw.le_bhi; omega⟩, hall⟩
    · rcases mem_cons.mp he with rfl | he
      · exact ⟨hw, hd.all⟩
      · obtain ⟨⟨h1, h2, h3, h4⟩, hall⟩ := ihr e he
        simp only [Window.right] at h1 h2 h3 h4
        exact ⟨⟨by have := hw.alo_le; omega, h2, by have := hw.blo_le; omega, h4⟩, hall⟩

/-- The blocks are in the same order in both sequences, and apart. -/
theorem Blocks.pairwise (h : Blocks hit eq w l) : l.Pairwise Block.Before := by
  induction h with
  | none => exact .nil
  | @node w c d l r hc hd hk hl hr ihl ihr =>
    have hleft : ∀ e ∈ l, e.Before d := by
      intro e he
      have hin := (hl.has e he).1
      exact ⟨hin.le_ahi, hin.le_bhi⟩
    have hright : ∀ e ∈ r, d.Before e := by
      intro e he
      have hin := (hr.has e he).1
      exact ⟨hin.alo_le, hin.blo_le⟩
    refine pairwise_append.mpr ⟨ihl, pairwise_cons.mpr ⟨hright, ihr⟩, ?_⟩
    intro e he f hf
    rcases mem_cons.mp hf with rfl | hf
    · exact hleft e he
    · obtain ⟨hi, hj⟩ := hleft e he
      obtain ⟨hi', hj'⟩ := hright f hf
      exact ⟨by omega, by omega⟩

/-- No more elements than the window has in either sequence. -/
theorem Blocks.total_le (h : Blocks hit eq w l) :
    w.alo + total l ≤ w.ahi ∧ w.blo + total l ≤ w.bhi := by
  induction h with
  | none hc =>
    have halo := hc.has.alo_le
    have hahi := hc.has.le_ahi
    have hblo := hc.has.blo_le
    have hbhi := hc.has.le_bhi
    exact ⟨by simp only [total, map_nil, sum_nil]; omega,
      by simp only [total, map_nil, sum_nil]; omega⟩
  | node hc hd hk hl hr ihl ihr =>
    simp only [Window.left, Window.right] at ihl ihr
    rw [total_append]
    omega

/-- Blocks that take up both parts whole leave nothing unequal. -/
theorem Blocks.equal_of_total (h : Blocks hit eq w l) (ha : w.alo + total l = w.ahi)
    (hb : w.blo + total l = w.bhi) : ∀ t < total l, eq (w.alo + t) (w.blo + t) := by
  induction h with
  | none => exact fun t ht => absurd ht (Nat.not_lt_zero t)
  | @node w c d l r hc hd hk hl hr ihl ihr =>
    have hleft := hl.total_le
    have hright := hr.total_le
    simp only [Window.left, Window.right] at hleft hright ihl ihr
    rw [total_append] at ha hb ⊢
    intro t ht
    by_cases hin : t < total l
    · exact ihl (by omega) (by omega) t hin
    · by_cases hmid : t < total l + d.k
      · have hcell := hd.all (t - total l) (by omega)
        have hi : d.i + (t - total l) = w.alo + t := by omega
        have hj : d.j + (t - total l) = w.blo + t := by omega
        rwa [hi, hj] at hcell
      · have hcell := ihr (by omega) (by omega) (t - (total l + d.k)) (by omega)
        have hi : d.i + d.k + (t - (total l + d.k)) = w.alo + t := by omega
        have hj : d.j + d.k + (t - (total l + d.k)) = w.blo + t := by omega
        rwa [hi, hj] at hcell

/-- A sequence against itself is one block: a hit on it is one with its own place as well. -/
theorem Blocks.total_of_same (h : Blocks hit eq ⟨0, n, 0, n⟩ l)
    (hhit : ∀ i j, hit i j → hit i i ∧ hit j j) (heq : ∀ i < n, eq i i) : total l = n := by
  have hwhole :
      ∀ {c d : Block}, Longest hit ⟨0, n, 0, n⟩ c → Extended eq ⟨0, n, 0, n⟩ c d → d.k = n := by
    intro c d hc hd
    have hahi := hc.has.le_ahi
    have hbhi := hc.has.le_bhi
    have hi := hc.first ⟨c.i, c.i, c.k⟩ ⟨Nat.zero_le _, hahi, Nat.zero_le _, hahi⟩
      (fun t ht => (hhit _ _ (hc.hits t ht)).1) rfl
    have hj := hc.first ⟨c.j, c.j, c.k⟩ ⟨Nat.zero_le _, hbhi, Nat.zero_le _, hbhi⟩
      (fun t ht => (hhit _ _ (hc.hits t ht)).2) rfl
    simp only at hahi hbhi hi hj
    have hdiagonal := hd.diagonal
    have hsame : d.i = d.j := by omega
    have hdahi := hd.has.le_ahi
    simp only at hdahi
    have hstart : d.i = 0 := by
      by_contra hne
      refine hd.left (Nat.pos_of_ne_zero hne) (by simp only; omega) ?_
      rw [← hsame]
      exact heq _ (by omega)
    by_contra hne
    refine hd.right (by simp only; omega) (by simp only; omega) ?_
    rw [← hsame]
    exact heq _ (by omega)
  have hle := h.total_le.1
  simp only at hle
  cases h with
  | none hc hd hk =>
    have hn := hwhole hc hd
    simp only [total, map_nil, sum_nil]
    omega
  | node hc hd hk hl hr =>
    have hn := hwhole hc hd
    rw [total_append] at hle ⊢
    omega

/-! ### The work-list -/

/-- The sides of a block that have something in both sequences. -/
def pushed (w : Window) (d : Block) : List Window :=
  (if w.alo < d.i ∧ w.blo < d.j then [w.left d] else []) ++
    if d.i + d.k < w.ahi ∧ d.j + d.k < w.bhi then [w.right d] else []

/-- Any of the windows is taken out, and its block found. -/
inductive Take (hit eq : ℕ → ℕ → Prop) : Multiset Window × Multiset Block →
    Multiset Window × Multiset Block → Prop
  | nothing {w : Window} {c d : Block} {rest : Multiset Window} {found : Multiset Block}
    (hc : Longest hit w c) (hd : Extended eq w c d) (hk : d.k = 0) :
    Take hit eq (w ::ₘ rest, found) (rest, found)
  | block {w : Window} {c d : Block} {rest : Multiset Window} {found : Multiset Block}
    (hc : Longest hit w c) (hd : Extended eq w c d) (hk : 0 < d.k) :
    Take hit eq (w ::ₘ rest, found) (rest + pushed w d, d ::ₘ found)

def Window.size (w : Window) : ℕ := (w.ahi - w.alo) + (w.bhi - w.blo) + 1

/-- What is left to do. -/
def work (queue : Multiset Window) : ℕ := (queue.map Window.size).sum

variable {queue : Multiset Window} {s s' : Multiset Window × Multiset Block}
  {ls : Multiset (List Block)}

theorem work_cons : work (w ::ₘ queue) = w.size + work queue := by
  unfold work
  rw [Multiset.map_cons, Multiset.sum_cons]

theorem work_add {queue' : Multiset Window} : work (queue + queue') = work queue + work queue' := by
  unfold work
  rw [map_add, sum_add]

theorem work_pushed (hd : Extended eq w c d) (hk : 0 < d.k) : work (pushed w d) < w.size := by
  have halo := hd.has.alo_le
  have hahi := hd.has.le_ahi
  have hblo := hd.has.blo_le
  have hbhi := hd.has.le_bhi
  have hcoe : work (pushed w d : Multiset Window) = ((pushed w d).map Window.size).sum := by
    unfold work
    rw [map_coe, sum_coe]
  rw [hcoe]
  unfold pushed
  split <;> split <;>
    simp only [append_nil, nil_append, map_append, map_cons, map_nil, sum_append,
      sum_cons, sum_nil, Window.size, Window.left, Window.right] <;> omega

/-- Every order comes to an end. -/
theorem Take.work_lt (h : Take hit eq s s') : work s'.1 < work s.1 := by
  cases h with
  | @nothing w c d rest found =>
    have hpos : 0 < w.size := Nat.succ_pos _
    change work rest < work (w ::ₘ rest)
    rw [work_cons]
    omega
  | block hc hd hk =>
    have hlt := work_pushed hd hk
    rw [work_cons, work_add]
    omega

/-- The blocks of several windows. -/
def gather (ls : Multiset (List Block)) : Multiset Block :=
  (ls.map fun l : List Block => (l : Multiset Block)).sum

theorem gather_cons : gather (l ::ₘ ls) = l + gather ls := by
  unfold gather
  rw [Multiset.map_cons, Multiset.sum_cons]

theorem gather_add {ls' : Multiset (List Block)} : gather (ls + ls') = gather ls + gather ls' := by
  unfold gather
  rw [map_add, sum_add]

/-- A side that is not pushed has no block. -/
theorem blocks_of_pushed (hd : Extended eq w c d)
    (h : Multiset.Rel (Blocks hit eq) (pushed w d : Multiset Window) ls) :
    ∃ l r, Blocks hit eq (w.left d) l ∧ Blocks hit eq (w.right d) r ∧
      gather ls = (l : Multiset Block) + r := by
  have hempty : ∀ v : Window, v.alo ≤ v.ahi → v.blo ≤ v.bhi → ¬ (v.alo < v.ahi ∧ v.blo < v.bhi) →
      Blocks hit eq v [] := by
    intro v ha hb hnot
    have hhas : v.Has ⟨v.alo, v.blo, 0⟩ := ⟨le_refl _, ha, le_refl _, hb⟩
    have hzero : ∀ d : Block, v.Has d → d.k = 0 := by
      intro d hd
      have h1 := hd.alo_le
      have h2 := hd.le_ahi
      have h3 := hd.blo_le
      have h4 := hd.le_bhi
      omega
    refine .none (c := ⟨v.alo, v.blo, 0⟩) (d := ⟨v.alo, v.blo, 0⟩)
      ⟨hhas, fun t ht => absurd ht (Nat.not_lt_zero t), ?_, ?_⟩
      ⟨hhas, fun t ht => absurd ht (Nat.not_lt_zero t), Nat.le_refl _, Nat.le_refl _,
        Nat.add_comm _ _, ?_, ?_⟩ rfl
    · intro d hd _
      exact Nat.le_of_eq (hzero d hd)
    · intro d hd _ _
      have h1 := hd.alo_le
      have h3 := hd.blo_le
      simp only
      omega
    · exact fun hlt => absurd hlt (lt_irrefl _)
    · exact fun hi hj => absurd ⟨hi, hj⟩ hnot
  have hw := hd.has
  have hleft : ¬ (w.alo < d.i ∧ w.blo < d.j) → Blocks hit eq (w.left d) [] :=
    hempty (w.left d) hw.alo_le hw.blo_le
  have hright : ¬ (d.i + d.k < w.ahi ∧ d.j + d.k < w.bhi) → Blocks hit eq (w.right d) [] :=
    hempty (w.right d) hw.le_ahi hw.le_bhi
  unfold pushed at h
  rw [← coe_add, rel_add_left] at h
  obtain ⟨ls₁, ls₂, h₁, h₂, rfl⟩ := h
  have hside : ∀ {p : Prop} [Decidable p] {v : Window} {ls : Multiset (List Block)},
    (¬ p → Blocks hit eq v []) →
      Multiset.Rel (Blocks hit eq) ((if p then [v] else [] : List Window) : Multiset Window) ls →
      ∃ l, Blocks hit eq v l ∧ gather ls = (l : Multiset Block) := by
    intro p _ v ls hnot hrel
    by_cases hp : p
    · rw [if_pos hp] at hrel
      change Multiset.Rel (Blocks hit eq) (v ::ₘ 0) ls at hrel
      obtain ⟨l, rest, hl, hrest, rfl⟩ := Multiset.rel_cons_left.mp hrel
      rw [rel_zero_left.mp hrest, gather_cons]
      exact ⟨l, hl, add_zero _⟩
    · rw [if_neg hp] at hrel
      rw [rel_zero_left.mp hrel]
      exact ⟨[], hnot hp, rfl⟩
  obtain ⟨l, hl, hlsum⟩ := hside hleft h₁
  obtain ⟨r, hr, hrsum⟩ := hside hright h₂
  refine ⟨l, r, hl, hr, ?_⟩
  rw [gather_add, hlsum, hrsum]

/-- A run that empties the work-list has found the blocks of each window that was in it. -/
theorem blocks_of_run (h : Relation.ReflTransGen (Take hit eq) s s') (hend : s'.1 = 0) :
    ∃ ls, Multiset.Rel (Blocks hit eq) s.1 ls ∧ s'.2 = s.2 + gather ls := by
  induction h using Relation.ReflTransGen.head_induction_on with
  | refl =>
    refine ⟨0, ?_, (add_zero _).symm⟩
    rw [hend]
    exact .zero
  | head hstep _ ih =>
    obtain ⟨ls, hls, hfound⟩ := ih
    cases hstep with
    | nothing hc hd hk =>
      refine ⟨[] ::ₘ ls, .cons (.none hc hd hk) hls, ?_⟩
      rw [hfound, gather_cons]
      exact congrArg _ (zero_add _).symm
    | @block w c d rest found hc hd hk =>
      obtain ⟨ls₁, ls₂, h₁, h₂, rfl⟩ := rel_add_left.mp hls
      obtain ⟨l, r, hl, hr, hsum⟩ := blocks_of_pushed hd h₂
      refine ⟨(l ++ d :: r) ::ₘ ls₁, .cons (.node hc hd hk hl hr) h₁, ?_⟩
      rw [hfound, gather_add, hsum, gather_cons, ← coe_add, ← Multiset.cons_coe]
      simp only [Multiset.cons_add, Multiset.add_cons]
      rw [add_comm (gather ls₁)]

end Alignment
