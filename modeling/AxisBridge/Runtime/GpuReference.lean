import AxisBridge.Lib.FirstSeen
import AxisBridge.Runtime.GpuRecall
import AxisBridge.Runtime.GpuSearch

/-! What a size is for: a loop over its combinations in order, that banks and records a vector when
it is wanted and first seen. -/
namespace AxisBridge.Gpu
open List Option

/-- A combination that is tried. -/
structure Combo where
  job : SearchJob
  jj : ℕ

def Combo.ordinal (q : Combo) : UInt64 := .ofInt (q.job.base + q.jj)

/-- All combinations of a size, job after job. -/
def SearchSize.tried (z : SearchSize) : List Combo :=
  z.jobs.flatMap fun j => (range (z.tries j)).map fun jj => ⟨j, jj⟩

namespace Search

variable (e : Search)

/-- The answers of the memo for a combination, column after column. -/
def vector (q : Combo) : List UInt32 :=
  (range e.n).map fun col =>
    recalled e.table (e.cap - 1) (key q.job.toJob e.bvec e.n q.jj col)

/-- Not all E, at the last size with the rows, and not in B for its role. -/
def wanted (entries : List BEntry) (q : Combo) : Bool :=
  !((e.vector q).all fun x => x == e.size.eid) &&
    (!e.size.last ||
      (e.vector q).zipIdx.all fun p => e.size.mask p.2 == noId || e.size.mask p.2 == p.1) &&
    !decide (⟨q.job.role, e.vector q⟩ ∈ entries)

/-- What is seen of a combination: its role and its vector, at the last size its vector alone. -/
def seenAs (q : Combo) : Option String × List UInt32 :=
  (if e.size.last then none else some q.job.role, e.vector q)

/-- The combinations a size is to bank: of those wanted for a role (or, at the last size, for any)
with one vector, the one with the lowest ordinal. -/
def lowestWanted (entries : List BEntry) : List Combo :=
  lowest e.seenAs (fun q => q.ordinal.toNat) (e.size.tried.filter (e.wanted entries))

def handedOf (q : Combo) : Handed := ⟨q.job, q.jj, e.vector q⟩

end Search

/-- The texts of the ids a combination takes its arguments from. -/
def SearchJob.argTexts (j : SearchJob) (jj : ℕ) : String × String × String :=
  let c2 := j.c2.toNat
  let c3 := j.c3.toNat
  (toString (j.p1 (jj / (c3 * c2))).toNat,
    if 2 ≤ j.k then toString (j.p2 (jj / c3 % c2)).toNat else "",
    if 3 ≤ j.k then toString (j.p3 (jj % c3)).toNat else "")

variable {β : Type*}

/-- A combination banked, and recorded with its argument ids if the bank takes it. -/
def bankAndRecord (put : BankName → ℤ → String → β → ℤ × β) (e : Search) (q : Combo)
    (s : Bool × β) : Bool × β :=
  let r := putVector put e.size (Int.bmod (q.job.base + q.jj) (2 ^ 64)) q.job.role (e.vector q) s.2
  let full := s.1 || r.1 == -2
  if r.1 < 0 then (full, r.2)
  else
    let r' := put .r 0 (q.job.recordText r.1 (q.job.argTexts q.jj)) r.2
    (full || r'.1 == -2, r'.2)

/-- The loop over the combinations, with what it has seen. -/
def reference (put : BankName → ℤ → String → β → ℤ × β) (e : Search) (entries : List BEntry) :
    List (Option String × List UInt32) → List Combo → Bool × β → Bool × β
  | _, [], s => s
  | seen, q :: qs, s =>
    if e.wanted entries q = true ∧ e.seenAs q ∉ seen then
      reference put e entries (e.seenAs q :: seen) qs (bankAndRecord put e q s)
    else reference put e entries seen qs s

/-- The loop banks and records what it first sees of the combinations that are wanted. -/
theorem reference_eq (put : BankName → ℤ → String → β → ℤ × β) (e : Search) (entries : List BEntry)
    (seen : List (Option String × List UInt32)) (qs : List Combo) (s : Bool × β) :
    reference put e entries seen qs s =
      (firstSeen e.seenAs seen (qs.filter (e.wanted entries))).foldl
        (fun s q => bankAndRecord put e q s) s := by
  induction qs generalizing seen s with
  | nil => rfl
  | cons q qs ih =>
    rw [reference, filter_cons]
    by_cases hw : e.wanted entries q = true
    · rw [if_pos hw, firstSeen]
      by_cases hseen : e.seenAs q ∈ seen
      · rw [if_neg fun hand => hand.2 hseen, if_pos hseen, ih]
      · rw [if_pos ⟨hw, hseen⟩, if_neg hseen, foldl_cons, ih]
    · rw [if_neg fun hand => hw hand.1, if_neg hw, ih]

theorem argText_eq {takes : Bool} {ids : List UInt32} {i : ℕ} {a : String} {p : ℕ → UInt32}
    (ha : argText takes ids i = some a) (hp : ∀ (i : ℕ) id, ids[i]? = some id → p i = id) :
    a = if takes then toString (p i).toNat else "" := by
  unfold argText at ha
  split at ha
  · next ht =>
    obtain ⟨id, hid, rfl⟩ := map_eq_some_iff.mp ha
    rw [if_pos ht, hp i id hid]
  · next ht =>
    rw [if_neg ht]
    exact (some.inj ha).symm

theorem args_eq {j : SearchJob} {jj : ℕ} {a : String × String × String} (ha : j.args jj = some a) :
    a = j.argTexts jj := by
  unfold SearchJob.args at ha
  simp only at ha
  split at ha
  · cases ha
  · obtain ⟨a1, h1, ha⟩ := bind_eq_some_iff.mp ha
    obtain ⟨a2, h2, ha⟩ := bind_eq_some_iff.mp ha
    obtain ⟨a3, h3, rfl⟩ := map_eq_some_iff.mp ha
    refine Prod.ext (argText_eq h1 j.copied1) (Prod.ext ?_ ?_)
    · exact (argText_eq h2 j.copied2).trans (if_congr decide_eq_true_iff rfl rfl)
    · exact (argText_eq h3 j.copied3).trans (if_congr decide_eq_true_iff rfl rfl)

variable {put : BankName → ℤ → String → β → ℤ × β}

/-- A survivor that is recorded is recorded with the argument ids of its combination. -/
theorem recordOne_eq {e : Search} {q : Combo}
    {s s' : Bool × β} (h : recordOne put e.size q.job q.jj (e.vector q) s = some s') :
    s' = bankAndRecord put e q s := by
  simp only [recordOne] at h
  simp only [bankAndRecord]
  split at h
  · next hneg =>
    rw [if_pos hneg]
    exact (some.inj h).symm
  · next hpos =>
    rw [if_neg hpos]
    obtain ⟨a, ha, rfl⟩ := map_eq_some_iff.mp h
    rw [← args_eq ha]

theorem record_eq {e : Search} {qs : List Combo}
    {s s' : Bool × β} (h : record put e.size (qs.map e.handedOf) s = some s') :
    s' = qs.foldl (fun s q => bankAndRecord put e q s) s := by
  induction qs generalizing s with
  | nil => exact (some.inj h).symm
  | cons q qs ih =>
    rw [record, map_cons, foldlM_cons] at h
    obtain ⟨s₁, hone, hrest⟩ := bind_eq_some_iff.mp h
    have hs₁ : s₁ = bankAndRecord put e q s := recordOne_eq hone
    rw [foldl_cons, ← hs₁]
    exact ih hrest

end AxisBridge.Gpu
