import AxisBridge.Lib.Alignment
import AxisBridge.Runtime.Value

/-! The similarity of two texts, matched as `difflib` matches them. -/
namespace AxisBridge.SimRatio
open Option List Function Alignment

/-- The places of each code point of `b`. -/
def indexed (b : List Char) : Char → Option (List ℕ) :=
  b.zipIdx.foldl (fun b2j p => update b2j p.1 (some ((b2j p.1).getD [] ++ [p.2]))) fun _ => none

/-- Popular code points go out again. -/
def b2jOf (b : List Char) : Char → Option (List ℕ) :=
  if 200 ≤ b.length then
    fun c => (indexed b c).filter fun v => v.length ≤ b.length / 100 + 1 else indexed b

/-- `j - 1` in 64 bits. -/
def wrappingPred (j : ℕ) : ℕ := if j = 0 then 2 ^ 64 - 1 else j - 1

/-- One row of the table: the lengths of the runs that end in it, and the best block so far. -/
def scanRow (w : Window) (i : ℕ) (j2len : ℕ → Option ℕ) :
    List ℕ → (ℕ → Option ℕ) × Block → (ℕ → Option ℕ) × Block
  | [], st => st
  | j :: js, st =>
    if j < w.blo then scanRow w i j2len js st
    else if w.bhi ≤ j then st
    else
      let k := (j2len (wrappingPred j)).getD 0 + 1
      let k := if j = 0 then 1 else k
      scanRow w i j2len js
        (update st.1 j (some k), if st.2.k < k then ⟨i + 1 - k, j + 1 - k, k⟩ else st.2)

def columns (b2j : Char → Option (List ℕ)) (a : List Char) (i : ℕ) : List ℕ :=
  (a[i]?.bind b2j).getD []

def scan (cols : ℕ → List ℕ) (w : Window) : (ℕ → Option ℕ) × Block :=
  (List.range' w.alo (w.ahi - w.alo)).foldl
    (fun st i => scanRow w i st.1 (cols i) (fun _ => none, st.2)) (fun _ => none, ⟨w.alo, w.blo, 0⟩)

def extendLeft (a b : List Char) (w : Window) : ℕ → ℕ → ℕ → Block
  | bi + 1, bj + 1, bs =>
    if w.alo < bi + 1 ∧ w.blo < bj + 1 ∧ a[bi]? = b[bj]? then extendLeft a b w bi bj (bs + 1)
    else ⟨bi + 1, bj + 1, bs⟩
  | bi, bj, bs => ⟨bi, bj, bs⟩

/-- The first argument is how far `bi + bs` is from `ahi`. -/
def extendRight (a b : List Char) (w : Window) : ℕ → Block → Block
  | 0, c => c
  | room + 1, c =>
    if c.i + c.k < w.ahi ∧ c.j + c.k < w.bhi ∧ a[c.i + c.k]? = b[c.j + c.k]? then
      extendRight a b w room { c with k := c.k + 1 }
    else c

def longest (a b : List Char) (w : Window) : Block :=
  let best := (scan (columns (b2jOf b) a) w).2
  let best := extendLeft a b w best.i best.j best.k
  extendRight a b w (w.ahi - (best.i + best.k)) best

/-- The queue with its end in front, for at most `fuel` rounds. -/
def simLoop (a b : List Char) : ℕ → List Window → ℕ → Option ℕ
  | 0, _, _ => none
  | _ + 1, [], m => some m
  | fuel + 1, w :: queue, m =>
    let d := longest a b w
    if 0 < d.k then
      let queue := if w.alo < d.i ∧ w.blo < d.j then w.left d :: queue else queue
      let queue := if d.i + d.k < w.ahi ∧ d.j + d.k < w.bhi then w.right d :: queue else queue
      simLoop a b fuel queue (m + d.k)
    else simLoop a b fuel queue m

def whole (a b : List Char) : Window := ⟨0, a.length, 0, b.length⟩

/-- `scaled` rounds the quotient of its arguments, times 10^12, in floating point. -/
def strSimRatio (scaled : ℕ → ℕ → Int64) (fuel : ℕ) (a b : String) : Option Value :=
  let a := a.toList
  let b := b.toList
  if a.length + b.length = 0 then some (.int 1000000000000)
  else (simLoop a b fuel [whole a b] 0).map fun m => .int (scaled (2 * m) (a.length + b.length))

/-! ### What is matched -/

/-- In a text of 200 code points and more, one that is there more often than in one place of a
hundred, and once. -/
def Popular (b : List Char) (c : Char) : Prop := 200 ≤ b.length ∧ b.length / 100 + 1 < b.count c

def Equal (a b : List Char) (i j : ℕ) : Prop := ∃ c, a[i]? = some c ∧ b[j]? = some c

/-- Equal, and not popular: the two places can begin a match. -/
def Anchors (a b : List Char) (i j : ℕ) : Prop :=
  ∃ c, a[i]? = some c ∧ b[j]? = some c ∧ ¬ Popular b c

section
variable {a b : List Char} {i j n : ℕ} {c : Char}

theorem indexed_append : indexed (b ++ [c]) =
    update (indexed b) c (some ((indexed b c).getD [] ++ [b.length])) := by
  unfold indexed
  rw [zipIdx_append, foldl_append]
  rw [zero_add]
  rfl

/-- The places of a code point, in order, are as many as its occurrences. -/
theorem indexed_spec (b : List Char) (c : Char) : ((indexed b c).getD []).Pairwise (· < ·) ∧
    (∀ j, j ∈ (indexed b c).getD [] ↔ b[j]? = some c) ∧
    ((indexed b c).getD []).length = b.count c := by
  induction b using reverseRecOn with
  | nil => exact ⟨.nil, fun j => by simp [indexed], rfl⟩
  | append_singleton b x ih =>
    obtain ⟨hsorted, hmem, hlength⟩ := ih
    have hlt : ∀ j ∈ (indexed b c).getD [], j < b.length := by
      intro j hj
      exact (List.getElem?_eq_some_iff.mp ((hmem j).mp hj)).1
    rw [indexed_append]
    by_cases hc : c = x
    · subst hc
      rw [update_self, getD_some]
      refine ⟨?_, ?_, ?_⟩
      · refine pairwise_append.mpr ⟨hsorted, pairwise_singleton _ _, ?_⟩
        intro j hj k hk
        rw [mem_singleton.mp hk]
        exact hlt j hj
      · intro j
        rw [mem_append, mem_singleton, hmem, getElem?_append]
        split
        · next hin =>
          exact or_iff_left (ne_of_lt hin)
        · next hout =>
          rw [getElem?_eq_none (Nat.not_lt.mp hout), getElem?_singleton]
          by_cases hj : j = b.length
          · simp [hj]
          · have hsub : j - b.length ≠ 0 := by omega
            simp [hj, hsub]
      · rw [length_append, hlength, length_singleton, count_append, count_singleton_self]
    · rw [update_of_ne hc]
      refine ⟨hsorted, ?_, ?_⟩
      · intro j
        rw [hmem, getElem?_append]
        split
        · rfl
        · next hout =>
          rw [getElem?_eq_none (Nat.not_lt.mp hout), getElem?_singleton]
          split
          · simp [Ne.symm hc]
          · rfl
      · rw [hlength, count_append, count_singleton]
        simp [Ne.symm hc]

theorem b2jOf_spec (b : List Char) (c : Char) : ((b2jOf b c).getD []).Pairwise (· < ·) ∧
    ∀ j, j ∈ (b2jOf b c).getD [] ↔ b[j]? = some c ∧ ¬ Popular b c := by
  obtain ⟨hsorted, hmem, hlength⟩ := indexed_spec b c
  unfold b2jOf Popular
  by_cases hlong : 200 ≤ b.length
  · rw [if_pos hlong]
    cases hplaces : indexed b c with
    | none =>
      rw [hplaces] at hmem
      refine ⟨.nil, fun j => ?_⟩
      rw [← hmem]
      exact iff_of_false not_mem_nil fun h => not_mem_nil h.1
    | some v =>
      rw [hplaces, getD_some] at hsorted hmem hlength
      rw [filter_some]
      by_cases hfew : v.length ≤ b.length / 100 + 1
      · rw [if_pos (decide_eq_true hfew), getD_some]
        refine ⟨hsorted, fun j => ?_⟩
        rw [hmem, ← hlength]
        exact (and_iff_left fun h => Nat.not_lt.mpr hfew h.2).symm
      · rw [if_neg (by simpa using hfew)]
        refine ⟨.nil, fun j => iff_of_false not_mem_nil fun h => h.2 ⟨hlong, ?_⟩⟩
        rw [← hlength]
        exact Nat.not_le.mp hfew
  · rw [if_neg hlong]
    refine ⟨hsorted, fun j => ?_⟩
    rw [hmem]
    exact (and_iff_left fun h => hlong h.1).symm

theorem columns_spec (a b : List Char) (i : ℕ) : (columns (b2jOf b) a i).Pairwise (· < ·) ∧
    ∀ j, j ∈ columns (b2jOf b) a i ↔ Anchors a b i j := by
  unfold columns Anchors
  cases hi : a[i]? with
  | none => exact ⟨.nil, fun j => iff_of_false not_mem_nil fun ⟨c, hc, _⟩ => by cases hc⟩
  | some c =>
    obtain ⟨hsorted, hmem⟩ := b2jOf_spec b c
    refine ⟨hsorted, fun j => (hmem j).trans ?_⟩
    constructor
    · rintro ⟨hj, hpop⟩
      exact ⟨c, rfl, hj, hpop⟩
    · rintro ⟨c', hc', hj, hpop⟩
      injection hc' with hc'
      subst hc'
      exact ⟨hj, hpop⟩

end

/-! ### The table -/

section
variable {cols : ℕ → List ℕ} {w : Window} {i j k n : ℕ} {best : Block}

/-- A place of the table: in the window, with a hit. -/
def Cell (cols : ℕ → List ℕ) (w : Window) (i j : ℕ) : Prop :=
  (w.alo ≤ i ∧ i < w.ahi) ∧ (w.blo ≤ j ∧ j < w.bhi) ∧ j ∈ cols i

instance : Decidable (Cell cols w i j) := inferInstanceAs (Decidable (_ ∧ _))

/-- How many hits in the window lead up to the two places, one after the other. -/
def run (cols : ℕ → List ℕ) (w : Window) : ℕ → ℕ → ℕ
  | i + 1, j + 1 => if Cell cols w i j then run cols w i j + 1 else 0
  | _, _ => 0

theorem run_succ : run cols w (i + 1) (j + 1) = if Cell cols w i j then run cols w i j + 1 else 0 :=
    rfl

theorem run_zero_right : run cols w i 0 = 0 := by
  cases i <;> rfl

theorem cell_of_run (h : 0 < run cols w (i + 1) (j + 1)) : Cell cols w i j := by
  rw [run_succ] at h
  by_contra hnot
  rw [if_neg hnot] at h
  exact lt_irrefl 0 h

/-- A run stays in the window. -/
theorem run_le : ∀ {i j : ℕ}, 0 < run cols w i j →
    w.alo + run cols w i j ≤ i ∧ w.blo + run cols w i j ≤ j ∧ i ≤ w.ahi ∧ j ≤ w.bhi
  | 0, _, h => absurd h (lt_irrefl 0)
  | i + 1, 0, h => absurd h (lt_irrefl 0)
  | i + 1, j + 1, h => by
    have hcell := cell_of_run h
    obtain ⟨⟨halo, hahi⟩, ⟨hblo, hbhi⟩, -⟩ := id hcell
    rw [run_succ, if_pos hcell]
    by_cases hpos : 0 < run cols w i j
    · obtain ⟨h1, h2, -, -⟩ := run_le hpos
      omega
    · omega

/-- A block is of hits just where the run up to its end is as long. -/
theorem all_iff_le_run {c : Block} (hc : w.Has c) :
    c.All (fun i j => j ∈ cols i) ↔ c.k ≤ run cols w (c.i + c.k) (c.j + c.k) := by
  obtain ⟨i, j, k⟩ := c
  obtain ⟨halo, hahi, hblo, hbhi⟩ := hc
  simp only at halo hahi hblo hbhi
  unfold Block.All
  simp only
  induction k with
  | zero => exact iff_of_true (fun t ht => absurd ht (Nat.not_lt_zero t)) (Nat.zero_le _)
  | succ k ih =>
    have ih := ih (by omega) (by omega)
    rw [← add_assoc, ← add_assoc, run_succ]
    constructor
    · intro h
      have hcell : Cell cols w (i + k) (j + k) :=
        ⟨⟨by omega, by omega⟩, ⟨by omega, by omega⟩, h k (Nat.lt_succ_self k)⟩
      rw [if_pos hcell]
      exact Nat.succ_le_succ (ih.mp fun t ht => h t (Nat.lt_succ_of_lt ht))
    · intro h t ht
      by_cases hcell : Cell cols w (i + k) (j + k)
      · rw [if_pos hcell] at h
        by_cases htk : t < k
        · exact ih.mpr (Nat.le_of_succ_le_succ h) t htk
        · obtain rfl : t = k := by omega
          exact hcell.2.2
      · rw [if_neg hcell] at h
        omega

/-- The better of a block and the run that ends at a place. -/
def better (cols : ℕ → List ℕ) (w : Window) (best : Block) (e : ℕ × ℕ) : Block :=
  if best.k < run cols w (e.1 + 1) (e.2 + 1) then
    ⟨e.1 + 1 - run cols w (e.1 + 1) (e.2 + 1), e.2 + 1 - run cols w (e.1 + 1) (e.2 + 1),
      run cols w (e.1 + 1) (e.2 + 1)⟩
  else best

/-- The first of the longest runs is kept, if it is longer than the block there was. -/
theorem foldl_better (es : List (ℕ × ℕ)) : ∀ best : Block,
    es.foldl (better cols w) best = best ∧ (∀ e ∈ es, run cols w (e.1 + 1) (e.2 + 1) ≤ best.k) ∨
    ∃ pre e post, es = pre ++ e :: post ∧ best.k < run cols w (e.1 + 1) (e.2 + 1) ∧
      es.foldl (better cols w) best = ⟨e.1 + 1 - run cols w (e.1 + 1) (e.2 + 1),
        e.2 + 1 - run cols w (e.1 + 1) (e.2 + 1), run cols w (e.1 + 1) (e.2 + 1)⟩ ∧
      (∀ x ∈ pre, run cols w (x.1 + 1) (x.2 + 1) < run cols w (e.1 + 1) (e.2 + 1)) ∧
      ∀ x ∈ post, run cols w (x.1 + 1) (x.2 + 1) ≤ run cols w (e.1 + 1) (e.2 + 1) := by
  induction es with
  | nil => exact fun best => .inl ⟨rfl, fun e he => absurd he not_mem_nil⟩
  | cons e es ih =>
    intro best
    rw [foldl_cons]
    by_cases hlt : best.k < run cols w (e.1 + 1) (e.2 + 1)
    · have hbetter : better cols w best e = ⟨e.1 + 1 - run cols w (e.1 + 1) (e.2 + 1),
          e.2 + 1 - run cols w (e.1 + 1) (e.2 + 1), run cols w (e.1 + 1) (e.2 + 1)⟩ := if_pos hlt
      obtain ⟨heq, hle⟩ | ⟨pre, x, post, rfl, hx, heq, hpre, hpost⟩ := ih (better cols w best e)
      · refine .inr ⟨[], e, es, rfl, hlt, heq.trans hbetter, fun x hx => absurd hx not_mem_nil, ?_⟩
        rw [hbetter] at hle
        exact hle
      · rw [hbetter] at hx
        refine .inr ⟨e :: pre, x, post, rfl, lt_trans hlt hx, heq, ?_, hpost⟩
        intro y hy
        rcases mem_cons.mp hy with rfl | hy
        · exact hx
        · exact hpre y hy
    · have hbetter : better cols w best e = best := if_neg hlt
      rw [hbetter]
      obtain ⟨heq, hle⟩ | ⟨pre, x, post, rfl, hx, heq, hpre, hpost⟩ := ih best
      · refine .inl ⟨heq, fun y hy => ?_⟩
        rcases mem_cons.mp hy with rfl | hy
        · exact Nat.not_lt.mp hlt
        · exact hle y hy
      · refine .inr ⟨e :: pre, x, post, rfl, hx, heq, ?_, hpost⟩
        intro y hy
        rcases mem_cons.mp hy with rfl | hy
        · exact lt_of_le_of_lt (Nat.not_lt.mp hlt) hx
        · exact hpre y hy

/-- The columns of a row that the window has. -/
def visited (w : Window) (js : List ℕ) : List ℕ := js.filter fun j => decide (w.blo ≤ j ∧ j < w.bhi)

/-- What a row does, when the row above has the runs up to it. -/
theorem scanRow_spec {j2len : ℕ → Option ℕ} (htable : ∀ j, (j2len j).getD 0 = run cols w i (j + 1))
    (halo : w.alo ≤ i) (hahi : i < w.ahi) : ∀ {js : List ℕ}, js.Pairwise (· < ·) →
    (∀ j ∈ js, j ∈ cols i) →
    ∀ (nj : ℕ → Option ℕ) (best : Block),
    (∀ j, ((scanRow w i j2len js (nj, best)).1 j) =
      if j ∈ visited w js then some (run cols w (i + 1) (j + 1)) else nj j) ∧
    (scanRow w i j2len js (nj, best)).2 =
      ((visited w js).map (i, ·)).foldl (better cols w) best := by
  intro js
  induction js with
  | nil =>
    intro _ _ nj best
    exact ⟨fun j => (if_neg not_mem_nil).symm, rfl⟩
  | cons j js ih =>
    intro hsorted hcols nj best
    obtain ⟨hafter, hsorted⟩ := pairwise_cons.mp hsorted
    have ih := ih hsorted fun j' hj' => hcols j' (mem_cons_of_mem _ hj')
    have hnone : ∀ (l : List ℕ), (∀ x ∈ l, w.bhi ≤ x) → visited w l = [] := by
      intro l hl
      refine filter_eq_nil_iff.mpr fun x hx => ?_
      have hle := hl x hx
      simp only [decide_eq_true_eq]
      omega
    unfold scanRow
    by_cases hblo : j < w.blo
    · have hskip : visited w (j :: js) = visited w js := by
        refine filter_cons_of_neg ?_
        simp only [decide_eq_true_eq]
        omega
      rw [if_pos hblo, hskip]
      exact ih nj best
    · rw [if_neg hblo]
      by_cases hbhi : w.bhi ≤ j
      · have hall : ∀ x ∈ j :: js, w.bhi ≤ x := by
          intro x hx
          rcases mem_cons.mp hx with rfl | hx
          · exact hbhi
          · exact le_trans hbhi (le_of_lt (hafter x hx))
        rw [if_pos hbhi, hnone _ hall]
        exact ⟨fun x => (if_neg not_mem_nil).symm, rfl⟩
      · rw [if_neg hbhi]
        have hvisit : visited w (j :: js) = j :: visited w js := by
          refine filter_cons_of_pos ?_
          simp only [decide_eq_true_eq]
          omega
        have hcell : Cell cols w i j :=
          ⟨⟨halo, hahi⟩, ⟨Nat.not_lt.mp hblo, Nat.not_le.mp hbhi⟩, hcols j mem_cons_self⟩
        have hk : (if j = 0 then 1 else (j2len (wrappingPred j)).getD 0 + 1) =
          run cols w (i + 1) (j + 1) := by
          rw [run_succ, if_pos hcell]
          cases j with
          | zero => rw [if_pos rfl, run_zero_right]
          | succ j =>
            have hpred : wrappingPred (j + 1) = j := by
              rw [wrappingPred, if_neg (Nat.succ_ne_zero j), Nat.add_sub_cancel]
            rw [if_neg (Nat.succ_ne_zero j), hpred, htable]
        simp only [hk]
        obtain ⟨hfst, hsnd⟩ := ih (update nj j (some (run cols w (i + 1) (j + 1))))
          (if best.k < run cols w (i + 1) (j + 1) then ⟨i + 1 - run cols w (i + 1) (j + 1),
            j + 1 - run cols w (i + 1) (j + 1), run cols w (i + 1) (j + 1)⟩ else best)
        rw [hvisit]
        refine ⟨fun x => ?_, hsnd⟩
        rw [hfst x]
        by_cases hx : x ∈ visited w js
        · rw [if_pos hx, if_pos (mem_cons_of_mem _ hx)]
        · rw [if_neg hx]
          by_cases hxj : x = j
          · subst hxj
            rw [update_self, if_pos mem_cons_self]
          · rw [update_of_ne hxj, if_neg]
            exact fun hmem => (mem_cons.mp hmem).elim hxj hx

/-- The places of the first rows of the window, in the order of the scan. -/
def cells (cols : ℕ → List ℕ) (w : Window) (n : ℕ) : List (ℕ × ℕ) :=
  (List.range' w.alo n).flatMap fun i => (visited w (cols i)).map (i, ·)

theorem mem_visited {js : List ℕ} : j ∈ visited w js ↔ j ∈ js ∧ w.blo ≤ j ∧ j < w.bhi := by
  unfold visited
  rw [mem_filter, decide_eq_true_eq]

theorem mem_cells {e : ℕ × ℕ} : e ∈ cells cols w n ↔
    (w.alo ≤ e.1 ∧ e.1 < w.alo + n) ∧ e.2 ∈ cols e.1 ∧ w.blo ≤ e.2 ∧ e.2 < w.bhi := by
  obtain ⟨x, y⟩ := e
  unfold cells
  rw [mem_flatMap]
  constructor
  · rintro ⟨i, hi, hmem⟩
    obtain ⟨j, hj, heq⟩ := mem_map.mp hmem
    injection heq with hx hy
    subst hx hy
    exact ⟨mem_range'_1.mp hi, mem_visited.mp hj⟩
  · rintro ⟨hx, hy⟩
    exact ⟨x, mem_range'_1.mpr hx, mem_map.mpr ⟨y, mem_visited.mpr hy, rfl⟩⟩

/-- One place comes before another in the scan. -/
def Earlier (e f : ℕ × ℕ) : Prop := e.1 < f.1 ∨ e.1 = f.1 ∧ e.2 < f.2

theorem cells_pairwise
    (hsorted : ∀ i, (cols i).Pairwise (· < ·)) : (cells cols w n).Pairwise Earlier := by
  unfold cells
  refine pairwise_flatMap.mpr ⟨fun i _ => ?_, ?_⟩
  · refine pairwise_map.mpr (((hsorted i).filter _).imp ?_)
    exact fun hlt => .inr ⟨rfl, hlt⟩
  · refine Pairwise.imp ?_ (pairwise_lt_range' 1 Nat.one_pos)
    intro i j hlt e he f hf
    obtain ⟨x, -, rfl⟩ := mem_map.mp he
    obtain ⟨y, -, rfl⟩ := mem_map.mp hf
    exact .inl hlt

/-- The rows of the table hold the runs, and the block is the best of all places so far. -/
theorem scan_rows (hsorted : ∀ i, (cols i).Pairwise (· < ·)) : ∀ {n : ℕ}, w.alo + n ≤ w.ahi →
    (∀ j,
    (((List.range' w.alo n).foldl (fun st i => scanRow w i st.1 (cols i) (fun _ => none, st.2))
      (fun _ => none, ⟨w.alo, w.blo, 0⟩)).1 j).getD 0 = run cols w (w.alo + n) (j + 1)) ∧
    ((List.range' w.alo n).foldl (fun st i => scanRow w i st.1 (cols i) (fun _ => none, st.2))
      (fun _ => none, ⟨w.alo, w.blo, 0⟩)).2 =
        (cells cols w n).foldl (better cols w) ⟨w.alo, w.blo, 0⟩ := by
  intro n
  induction n with
  | zero =>
    intro _
    refine ⟨fun j => ?_, rfl⟩
    by_contra hne
    have hpos : 0 < run cols w w.alo (j + 1) := Nat.pos_of_ne_zero (Ne.symm hne)
    have hle := (run_le hpos).1
    omega
  | succ n ih =>
    intro hn
    obtain ⟨htable, hbest⟩ := ih (by omega)
    have hcells : cells cols w (n + 1) = cells cols w n ++ (visited w (cols (w.alo + n))).map
      (w.alo + n, ·) := by
      unfold cells
      rw [range'_1_concat, flatMap_append, flatMap_singleton]
    rw [range'_1_concat, foldl_append, foldl_cons, foldl_nil]
    obtain ⟨hfst, hsnd⟩ := scanRow_spec htable (Nat.le_add_right _ _) hn (hsorted (w.alo + n))
      (fun j hj => hj) (fun _ => none) ((List.range' w.alo n).foldl
        (fun st i => scanRow w i st.1 (cols i) (fun _ => none, st.2))
          (fun _ => none, ⟨w.alo, w.blo, 0⟩)).2
    refine ⟨fun j => ?_, ?_⟩
    · rw [hfst j, ← add_assoc]
      by_cases hj : j ∈ visited w (cols (w.alo + n))
      · rw [if_pos hj]
        rfl
      · rw [if_neg hj, run_succ, if_neg]
        · rfl
        · rintro ⟨-, hwindow, hmem⟩
          exact hj (mem_visited.mpr ⟨hmem, hwindow⟩)
    · rw [hsnd, hbest, hcells, foldl_append]

/-- The scan finds the longest block, the first of equally long ones. -/
theorem scan_longest (hsorted : ∀ i, (cols i).Pairwise (· < ·)) (ha : w.alo ≤ w.ahi)
    (hb : w.blo ≤ w.bhi) : Longest (fun i j => j ∈ cols i) w (scan cols w).2 := by
  have hn : w.alo + (w.ahi - w.alo) = w.ahi := Nat.add_sub_cancel' ha
  have hscan :
      (scan cols w).2 = (cells cols w (w.ahi - w.alo)).foldl (better cols w) ⟨w.alo, w.blo, 0⟩ :=
    (scan_rows hsorted (Nat.le_of_eq hn)).2
  -- the end of a block of hits is a place of the scan
  have hend : ∀ d : Block, w.Has d → d.All (fun i j => j ∈ cols i) → 0 < d.k →
      (d.i + d.k - 1, d.j + d.k - 1) ∈ cells cols w (w.ahi - w.alo) ∧
        d.k ≤ run cols w (d.i + d.k - 1 + 1) (d.j + d.k - 1 + 1) := by
    intro d hd hall hpos
    have hle := (all_iff_le_run hd).mp hall
    have hi : d.i + d.k - 1 + 1 = d.i + d.k := by omega
    have hj : d.j + d.k - 1 + 1 = d.j + d.k := by omega
    have hrun : 0 < run cols w (d.i + d.k - 1 + 1) (d.j + d.k - 1 + 1) := by
      rw [hi, hj]
      omega
    obtain ⟨⟨h1, h2⟩, h3, h4⟩ := cell_of_run hrun
    refine ⟨mem_cells.mpr ⟨⟨h1, by rw [hn]; exact h2⟩, h4, h3⟩, ?_⟩
    rw [hi, hj]
    exact hle
  rw [hscan]
  obtain ⟨heq, hle⟩ | ⟨pre, e, post, hcells, hlt, heq, hpre, hpost⟩ :=
    @foldl_better cols w (cells cols w (w.ahi - w.alo)) ⟨w.alo, w.blo, 0⟩
  · rw [heq]
    refine ⟨⟨Nat.le_refl _, ha, Nat.le_refl _, hb⟩, fun t ht => absurd ht (Nat.not_lt_zero t), ?_,
      ?_⟩
    · intro d hd hall
      by_contra hpos
      obtain ⟨hmem, hrun⟩ := hend d hd hall (Nat.not_le.mp hpos)
      exact hpos (le_trans hrun (hle _ hmem))
    · intro d hd _ _
      have h1 := hd.alo_le
      have h2 := hd.blo_le
      simp only
      omega
  · rw [heq]
    obtain ⟨x, y⟩ := e
    simp only at hlt hpre hpost ⊢
    obtain ⟨h1, h2, h3, h4⟩ := run_le (Nat.lt_of_le_of_lt (Nat.zero_le _) hlt)
    have hi : x + 1 - run cols w (x + 1) (y + 1) + run cols w (x + 1) (y + 1) = x + 1 := by omega
    have hj : y + 1 - run cols w (x + 1) (y + 1) + run cols w (x + 1) (y + 1) = y + 1 := by omega
    have hhas : w.Has ⟨x + 1 - run cols w (x + 1) (y + 1), y + 1 - run cols w (x + 1) (y + 1),
        run cols w (x + 1) (y + 1)⟩ := by
      constructor
      · simp only
        omega
      · rw [hi]
        exact h3
      · simp only
        omega
      · rw [hj]
        exact h4
    have horder : ∀ f ∈ post, Earlier (x, y) f := by
      have hpairwise : (cells cols w (w.ahi - w.alo)).Pairwise Earlier := cells_pairwise hsorted
      rw [hcells] at hpairwise
      exact (pairwise_cons.mp (pairwise_append.mp hpairwise).2.1).1
    refine ⟨hhas, ?_, ?_, ?_⟩
    · refine (all_iff_le_run hhas).mpr ?_
      simp only
      rw [hi, hj]
    · intro d hd hall
      by_cases hpos : 0 < d.k
      · obtain ⟨hmem, hrun⟩ := hend d hd hall hpos
        rw [hcells] at hmem
        rcases mem_append.mp hmem with hmem | hmem
        · exact le_trans hrun (le_of_lt (hpre _ hmem))
        · rcases mem_cons.mp hmem with hsame | hmem
          · injection hsame with hx hy
            rw [hx, hy] at hrun
            exact hrun
          · exact le_trans hrun (hpost _ hmem)
      · omega
    · intro d hd hall hk
      simp only at hk
      have hpos : 0 < d.k := by omega
      obtain ⟨hmem, hrun⟩ := hend d hd hall hpos
      rw [hcells] at hmem
      rcases mem_append.mp hmem with hmem | hmem
      · have hless := hpre _ hmem
        simp only at hless
        omega
      · rcases mem_cons.mp hmem with hsame | hmem
        · injection hsame with hx hy
          simp only
          omega
        · have hearlier := horder _ hmem
          simp only [Earlier] at hearlier
          simp only
          omega

end

/-! ### The block of a window -/

section
variable {a b : List Char} {w : Window} {c d : Block} {i j m : ℕ}

theorem extendLeft_spec : ∀ {bi bj : ℕ} (bs : ℕ), w.alo ≤ bi → w.blo ≤ bj →
    (w.alo ≤ (extendLeft a b w bi bj bs).i ∧ w.blo ≤ (extendLeft a b w bi bj bs).j ∧
      (extendLeft a b w bi bj bs).i ≤ bi) ∧
    ((extendLeft a b w bi bj bs).i + (extendLeft a b w bi bj bs).k = bi + bs ∧
      (extendLeft a b w bi bj bs).i + bj = (extendLeft a b w bi bj bs).j + bi) ∧
    (∀ t, (extendLeft a b w bi bj bs).i + t < bi →
      a[(extendLeft a b w bi bj bs).i + t]? = b[(extendLeft a b w bi bj bs).j + t]?) ∧
    (w.alo < (extendLeft a b w bi bj bs).i → w.blo < (extendLeft a b w bi bj bs).j →
      a[(extendLeft a b w bi bj bs).i - 1]? ≠ b[(extendLeft a b w bi bj bs).j - 1]?)
  | 0, bj, bs, ha, hb => by
    rw [extendLeft]
    · exact ⟨⟨ha, hb, Nat.le_refl _⟩, ⟨rfl, Nat.add_comm _ _⟩,
        fun t ht => absurd ht (Nat.not_lt_zero _), fun hlt => absurd hlt (Nat.not_lt_zero _)⟩
    · exact fun bi bj' h => by cases h
  | bi + 1, 0, bs, ha, hb => by
    rw [extendLeft]
    · refine ⟨⟨ha, hb, le_refl _⟩, ⟨rfl, add_comm _ _⟩, fun t ht => ?_,
        fun _ hlt => absurd hlt (Nat.not_lt_zero _)⟩
      simp only at ht
      omega
    · exact fun bi' bj' _ h => by cases h
  | bi + 1, bj + 1, bs, ha, hb => by
    rw [extendLeft]
    by_cases hstep : w.alo < bi + 1 ∧ w.blo < bj + 1 ∧ a[bi]? = b[bj]?
    · rw [if_pos hstep]
      obtain ⟨halo, hblo, heq⟩ := hstep
      obtain ⟨⟨h1, h2, h3⟩, ⟨h4, h5⟩, h6, h7⟩ :=
        extendLeft_spec (bs + 1) (Nat.le_of_lt_succ halo) (Nat.le_of_lt_succ hblo)
      refine ⟨⟨h1, h2, by omega⟩, ⟨by omega, by omega⟩, fun t ht => ?_, h7⟩
      by_cases hlt : (extendLeft a b w bi bj (bs + 1)).i + t < bi
      · exact h6 t hlt
      · have hi : (extendLeft a b w bi bj (bs + 1)).i + t = bi := by omega
        have hj : (extendLeft a b w bi bj (bs + 1)).j + t = bj := by omega
        rw [hi, hj]
        exact heq
    · rw [if_neg hstep]
      refine ⟨⟨ha, hb, le_refl _⟩, ⟨rfl, add_comm _ _⟩, fun t ht => ?_, fun halo hblo heq => ?_⟩
      · simp only at ht
        omega
      · exact hstep ⟨halo, hblo, heq⟩

theorem extendRight_spec : ∀ {room : ℕ} {c : Block}, w.ahi ≤ c.i + c.k + room → c.i + c.k ≤ w.ahi →
    c.j + c.k ≤ w.bhi →
    ((extendRight a b w room c).i = c.i ∧ (extendRight a b w room c).j = c.j) ∧
    (c.k ≤ (extendRight a b w room c).k ∧ c.i + (extendRight a b w room c).k ≤ w.ahi ∧
      c.j + (extendRight a b w room c).k ≤ w.bhi) ∧
    (∀ t, c.k ≤ t → t < (extendRight a b w room c).k → a[c.i + t]? = b[c.j + t]?) ∧
    (c.i + (extendRight a b w room c).k < w.ahi → c.j + (extendRight a b w room c).k < w.bhi →
      a[c.i + (extendRight a b w room c).k]? ≠ b[c.j + (extendRight a b w room c).k]?)
  | 0, c, hroom, ha, hb => by
    rw [extendRight]
    refine ⟨⟨rfl, rfl⟩, ⟨le_refl _, ha, hb⟩, fun t h1 h2 => ?_, fun hlt => ?_⟩
    · omega
    · omega
  | room + 1, c, hroom, ha, hb => by
    rw [extendRight]
    by_cases hstep : c.i + c.k < w.ahi ∧ c.j + c.k < w.bhi ∧ a[c.i + c.k]? = b[c.j + c.k]?
    · rw [if_pos hstep]
      obtain ⟨hahi, hbhi, heq⟩ := hstep
      obtain ⟨h1, ⟨h2, h3, h4⟩, h5, h6⟩ := @extendRight_spec room { c with k := c.k + 1 }
        (by simp only; omega) hahi hbhi
      simp only at h1 h2 h3 h4 h5 h6
      refine ⟨h1, ⟨by omega, h3, h4⟩, fun t hle hlt => ?_, h6⟩
      by_cases ht : t = c.k
      · rw [ht]
        exact heq
      · exact h5 t (by omega) hlt
    · rw [if_neg hstep]
      refine ⟨⟨rfl, rfl⟩, ⟨le_refl _, ha, hb⟩, fun t h1 h2 => ?_, fun hahi hbhi heq => ?_⟩
      · omega
      · exact hstep ⟨hahi, hbhi, heq⟩

/-- A window of the two texts. -/
structure Inside (a b : List Char) (w : Window) : Prop where
  alo_le : w.alo ≤ w.ahi
  ahi_le : w.ahi ≤ a.length
  blo_le : w.blo ≤ w.bhi
  bhi_le : w.bhi ≤ b.length

theorem equal_iff (hi : i < a.length) : Equal a b i j ↔ a[i]? = b[j]? := by
  unfold Equal
  rw [getElem?_eq_getElem hi]
  constructor
  · rintro ⟨c, hc, hj⟩
    rw [hc, hj]
  · exact fun h => ⟨a[i], rfl, h.symm⟩

/-- `longest` finds the first longest block of anchors, and extends it as far as the texts are
equal. -/
theorem longest_spec (hw : Inside a b w) :
    ∃ c, Longest (Anchors a b) w c ∧ Extended (Equal a b) w c (longest a b w) := by
  have hhit : (fun i j => j ∈ columns (b2jOf b) a i) = Anchors a b := by
    funext i j
    exact propext ((columns_spec a b i).2 j)
  have hc := scan_longest (w := w) (fun i => (columns_spec a b i).1) hw.alo_le hw.blo_le
  rw [hhit] at hc
  refine ⟨_, hc, ?_⟩
  have hequal : (scan (columns (b2jOf b) a) w).2.All (Equal a b) := by
    intro t ht
    obtain ⟨x, hi, hj, -⟩ := hc.hits t ht
    exact ⟨x, hi, hj⟩
  have hhas := hc.has
  unfold longest
  generalize (scan (columns (b2jOf b) a) w).2 = c at hequal hhas
  obtain ⟨⟨hl1, hl2, hl3⟩, ⟨hl4, hl5⟩, hl6, hl7⟩ :=
    extendLeft_spec (a := a) (b := b) c.k hhas.alo_le hhas.blo_le
  simp only
  generalize extendLeft a b w c.i c.j c.k = l at hl1 hl2 hl3 hl4 hl5 hl6 hl7
  have hahi := hhas.le_ahi
  have hbhi := hhas.le_bhi
  obtain ⟨⟨hr1, hr2⟩, ⟨hr3, hr4, hr5⟩, hr6, hr7⟩ :=
    @extendRight_spec a b w (w.ahi - (l.i + l.k)) l (by omega) (by omega) (by omega)
  generalize extendRight a b w (w.ahi - (l.i + l.k)) l = d at hr1 hr2 hr3 hr4 hr5 hr6 hr7
  have hlen : ∀ {x}, x < w.ahi → x < a.length := fun hx => lt_of_lt_of_le hx hw.ahi_le
  constructor
  · exact ⟨by omega, by omega, by omega, by omega⟩
  · -- left of the anchored block, in it, and right of it
    intro t ht
    rw [hr1, hr2, equal_iff (hlen (by omega))]
    by_cases hleft : l.i + t < c.i
    · exact hl6 t hleft
    · by_cases hright : l.k ≤ t
      · exact hr6 t hright ht
      · have hcell := hequal (l.i + t - c.i) (by omega)
        have hi : c.i + (l.i + t - c.i) = l.i + t := by omega
        have hj : c.j + (l.i + t - c.i) = l.j + t := by omega
        rw [hi, hj] at hcell
        exact (equal_iff (hlen (by omega))).mp hcell
  · omega
  · omega
  · omega
  · intro halo hblo
    rw [equal_iff (hlen (by omega)), hr1, hr2]
    rw [hr1] at halo
    rw [hr2] at hblo
    exact hl7 halo hblo
  · intro halo hblo
    rw [equal_iff (hlen halo), hr1, hr2]
    rw [hr1] at halo
    rw [hr2] at hblo
    exact hr7 halo hblo

/-! ### The loop -/

theorem Inside.left (hw : Inside a b w) (hd : w.Has d) : Inside a b (w.left d) := by
  obtain ⟨h1, h2, h3, h4⟩ := hd
  obtain ⟨h5, h6, h7, h8⟩ := hw
  exact ⟨h1, by simp only [Window.left]; omega, h3, by simp only [Window.left]; omega⟩

theorem Inside.right (hw : Inside a b w) (hd : w.Has d) : Inside a b (w.right d) := by
  obtain ⟨h1, h2, h3, h4⟩ := hd
  exact ⟨h2, hw.ahi_le, h4, hw.bhi_le⟩

theorem Inside.pushed (hw : Inside a b w) (hd : w.Has d) : ∀ v ∈ pushed w d, Inside a b v := by
  intro v hv
  unfold Alignment.pushed at hv
  rcases mem_append.mp hv with hv | hv
  · split at hv
    · rw [mem_singleton.mp hv]
      exact hw.left hd
    · cases hv
  · split at hv
    · rw [mem_singleton.mp hv]
      exact hw.right hd
    · cases hv

/-- With fuel for the work there is, the loop comes to its end as a run of the work-list, and `m`
grows by the sizes of the blocks found. -/
theorem simLoop_run : ∀ {fuel : ℕ} {queue : List Window} (m : ℕ) (found : Multiset Block),
    (∀ v ∈ queue, Inside a b v) → work (queue : Multiset Window) < fuel →
    ∃ more : Multiset Block, Relation.ReflTransGen (Take (Anchors a b) (Equal a b)) (queue, found)
      (0, more + found) ∧ simLoop a b fuel queue m = some (m + (more.map Block.k).sum)
  | 0, queue, m, found, _, hfuel => absurd hfuel (Nat.not_lt_zero _)
  | fuel + 1, [], m, found, _, _ => by
    refine ⟨0, ?_, rfl⟩
    rw [zero_add]
    exact .refl
  | fuel + 1, w :: queue, m, found, hin, hfuel => by
    obtain ⟨c, hc, hd⟩ := longest_spec (hin w mem_cons_self)
    have hrest : ∀ v ∈ queue, Inside a b v := fun v hv => hin v (mem_cons_of_mem _ hv)
    rw [simLoop]
    simp only
    by_cases hk : 0 < (longest a b w).k
    · rw [if_pos hk]
      have hstep := @Take.block _ _ w c _ (queue : Multiset Window) found hc hd hk
      have hlt := hstep.work_lt
      generalize longest a b w = d at hd hk hstep hlt ⊢
      have hqueue : ((if d.i + d.k < w.ahi ∧ d.j + d.k < w.bhi then
          w.right d :: (if w.alo < d.i ∧ w.blo < d.j then w.left d :: queue else queue)
          else (if w.alo < d.i ∧ w.blo < d.j then w.left d :: queue else queue) : List Window) :
            Multiset Window) = queue + pushed w d := by
        rw [Multiset.coe_add, Multiset.coe_eq_coe]
        unfold Alignment.pushed
        refine Perm.trans ?_ perm_append_comm
        split <;> split
        · exact Perm.swap _ _ _
        · exact .refl _
        · exact .refl _
        · exact .refl _
      have hinside : ∀ v ∈ (if d.i + d.k < w.ahi ∧ d.j + d.k < w.bhi then
          w.right d :: (if w.alo < d.i ∧ w.blo < d.j then w.left d :: queue else queue)
          else (if w.alo < d.i ∧ w.blo < d.j then w.left d :: queue else queue) : List Window),
            Inside a b v := by
        intro v hv
        rw [← Multiset.mem_coe, hqueue] at hv
        rcases Multiset.mem_add.mp hv with hv | hv
        · exact hrest v hv
        · exact (hin w mem_cons_self).pushed hd.has v hv
      obtain ⟨more, hrun, hsome⟩ := simLoop_run (m + d.k) (d ::ₘ found) hinside (by
        rw [hqueue]
        exact lt_of_lt_of_le hlt (Nat.le_of_lt_succ hfuel))
      rw [hqueue] at hrun
      refine ⟨d ::ₘ more, ?_, ?_⟩
      · rw [Multiset.cons_add, ← Multiset.add_cons]
        exact .head hstep hrun
      · rw [hsome, Multiset.map_cons, Multiset.sum_cons, add_assoc]
    · rw [if_neg hk]
      have hstep := @Take.nothing _ _ w c _ (queue : Multiset Window) found hc hd (by omega)
      have hlt := hstep.work_lt
      obtain ⟨more, hrun, hsome⟩ :=
        simLoop_run m found hrest (lt_of_lt_of_le hlt (Nat.le_of_lt_succ hfuel))
      exact ⟨more, .head hstep hrun, hsome⟩

/-- In every order, each window in the queue can be taken next. -/
theorem inside_of_run {s s' : Multiset Window × Multiset Block}
    (h : Relation.ReflTransGen (Take (Anchors a b) (Equal a b)) s s')
    (hs : ∀ v ∈ s.1, Inside a b v) : ∀ v ∈ s'.1, Inside a b v := by
  induction h with
  | refl => exact hs
  | tail _ hstep ih =>
    cases hstep with
    | nothing hc hd hk => exact fun v hv => ih v (Multiset.mem_cons_of_mem hv)
    | block hc hd hk =>
      intro v hv
      rcases Multiset.mem_add.mp hv with hv | hv
      · exact ih v (Multiset.mem_cons_of_mem hv)
      · exact (ih _ (Multiset.mem_cons_self _ _)).pushed hd.has v hv

theorem whole_inside (a b : List Char) : Inside a b (whole a b) :=
  ⟨Nat.zero_le _, Nat.le_refl _, Nat.zero_le _, Nat.le_refl _⟩

/-- A run of the whole work-list ends with the blocks of the recursion. -/
theorem found_of_run {found : Multiset Block}
    (h : Relation.ReflTransGen (Take (Anchors a b) (Equal a b)) ({w}, 0) (0, found)) :
    ∃ bs, Alignment.Blocks (Anchors a b) (Equal a b) w bs ∧ found = bs := by
  obtain ⟨ls, hls, hfound⟩ := blocks_of_run h rfl
  change Multiset.Rel _ (w ::ₘ 0) ls at hls
  obtain ⟨bs, rest, hbs, hrest, rfl⟩ := Multiset.rel_cons_left.mp hls
  rw [Multiset.rel_zero_left.mp hrest, gather_cons] at hfound
  exact ⟨bs, hbs, hfound.trans ((zero_add _).trans (add_zero _))⟩

/-- All of both texts is matched just where they are the same. -/
theorem total_eq_iff {bs : List Block}
    (h : Alignment.Blocks (Anchors a b) (Equal a b) (whole a b) bs) :
    2 * total bs = a.length + b.length ↔ a = b := by
  obtain ⟨ha, hb⟩ := h.total_le
  simp only [whole] at ha hb
  constructor
  · intro htotal
    have hcells := h.equal_of_total (by simp only [whole]; omega) (by simp only [whole]; omega)
    refine ext_getElem? fun t => ?_
    by_cases ht : t < total bs
    · obtain ⟨x, hx, hx'⟩ := hcells t ht
      simp only [whole, zero_add] at hx hx'
      rw [hx, hx']
    · rw [getElem?_eq_none (by omega), getElem?_eq_none (by omega)]
  · rintro rfl
    have htotal := h.total_of_same ?_ ?_
    · omega
    · rintro i j ⟨x, hi, hj, hpop⟩
      exact ⟨⟨x, hi, hi, hpop⟩, ⟨x, hj, hj, hpop⟩⟩
    · intro i hi
      exact ⟨a[i], getElem?_eq_getElem hi, getElem?_eq_getElem hi⟩

end

/-- The recursion has one result, which the loop reaches, and so does the work-list in every order;
its blocks are apart and in the same order in both texts, and take up both whole just where the
texts are the same. -/
theorem matching_total (scaled : ℕ → ℕ → Int64) (a b : String) :
    ∃ bs, (∀ bs', Alignment.Blocks (Anchors a.toList b.toList) (Equal a.toList b.toList)
        (whole a.toList b.toList) bs' ↔ bs' = bs) ∧
      (∀ fuel, a.toList.length + b.toList.length + 1 < fuel →
        simLoop a.toList b.toList fuel [whole a.toList b.toList] 0 = some (total bs) ∧
        strSimRatio scaled fuel a b =
          some (.int (if a.toList.length + b.toList.length = 0 then 1000000000000
          else scaled (2 * total bs) (a.toList.length + b.toList.length)))) ∧
      (∀ s s', Take (Anchors a.toList b.toList) (Equal a.toList b.toList) s s' →
        work s'.1 < work s.1) ∧
      (∀ s, Relation.ReflTransGen (Take (Anchors a.toList b.toList) (Equal a.toList b.toList))
          ({whole a.toList b.toList}, 0) s →
        (∀ w ∈ s.1, ∃ c d, Longest (Anchors a.toList b.toList) w c ∧
          Extended (Equal a.toList b.toList) w c d) ∧ (s.1 = 0 → s.2 = bs)) ∧
      bs.Pairwise Block.Before ∧
      (∀ d ∈ bs, (whole a.toList b.toList).Has d ∧ d.All (Equal a.toList b.toList)) ∧
      2 * total bs ≤ a.toList.length + b.toList.length ∧
      (2 * total bs = a.toList.length + b.toList.length ↔ a = b) := by
  have hinside : ∀ v ∈ [whole a.toList b.toList], Inside a.toList b.toList v := by
    intro v hv
    rw [mem_singleton.mp hv]
    exact whole_inside _ _
  have hwork : work (([whole a.toList b.toList] : List Window) : Multiset Window) =
      a.toList.length + b.toList.length + 1 := by
    rw [Multiset.coe_singleton, work, Multiset.map_singleton, Multiset.sum_singleton]
    rfl
  have hloop : ∀ fuel, a.toList.length + b.toList.length + 1 < fuel → ∃ found : Multiset Block,
      Relation.ReflTransGen (Take (Anchors a.toList b.toList) (Equal a.toList b.toList))
      ({whole a.toList b.toList}, 0) (0, found) ∧ simLoop a.toList b.toList fuel
      [whole a.toList b.toList] 0 = some (found.map Block.k).sum := by
    intro fuel hfuel
    obtain ⟨found, hrun, hsome⟩ := simLoop_run 0 0 hinside (by rw [hwork]; exact hfuel)
    rw [add_zero] at hrun
    rw [zero_add] at hsome
    exact ⟨found, hrun, hsome⟩
  obtain ⟨found, hrun, -⟩ := hloop _ (Nat.lt_succ_self _)
  obtain ⟨bs, hbs, -⟩ := found_of_run hrun
  have htotal : ∀ fuel, a.toList.length + b.toList.length + 1 < fuel →
      simLoop a.toList b.toList fuel [whole a.toList b.toList] 0 = some (total bs) := by
    intro fuel hfuel
    obtain ⟨found, hrun, hsome⟩ := hloop fuel hfuel
    obtain ⟨bs', hbs', rfl⟩ := found_of_run hrun
    rw [hsome, hbs.unique hbs', Multiset.map_coe, Multiset.sum_coe]
    rfl
  refine ⟨bs, fun bs' => ⟨fun h => h.unique hbs, ?_⟩, fun fuel hfuel => ⟨htotal fuel hfuel, ?_⟩,
    fun s s' h => h.work_lt, ?_, hbs.pairwise, hbs.has, ?_, ?_⟩
  · rintro rfl
    exact hbs
  · unfold strSimRatio
    simp only
    split
    · rfl
    · rw [htotal fuel hfuel]
      rfl
  · intro s hs
    constructor
    · intro w hw
      obtain ⟨c, hc, hd⟩ :=
        longest_spec (inside_of_run hs (fun v hv => hinside v (by simpa using hv)) w hw)
      exact ⟨c, _, hc, hd⟩
    · obtain ⟨queue, found⟩ := s
      rintro rfl
      obtain ⟨bs', hbs', hfound⟩ := found_of_run hs
      rw [hbs.unique hbs']
      exact hfound
  · obtain ⟨ha, hb⟩ := hbs.total_le
    simp only [whole] at ha hb
    omega
  · rw [total_eq_iff hbs, String.toList_inj]

end AxisBridge.SimRatio
