import AxisBridge.Runtime.Arith
import AxisBridge.Runtime.Iter
import Mathlib.Tactic.Ring

/-! `range_step`: its loop moves past the last member before it looks whether it is done. -/
namespace AxisBridge.Iter
open List Arith
export Arith (Fits)

/-- What the program's build makes of an addition that leaves its word. -/
inductive Overflow
  | panics
  | wraps

def addAssign (overflow : Overflow) (i step : Int64) : Except String Int64 :=
  match checked (i.toInt + step.toInt), overflow with
  | some r, _ => .ok r
  | none, .panics => .error "attempt to add with overflow"
  | none, .wraps => .ok (i + step)

/-- The test of the loop: `i < e` upwards, `i > e` downwards. -/
def goesOn (step e i : Int64) : Bool := if 0 < step then i < e else e < i

/-- The loop; `none` when it has not ended within the fuel. -/
def stepLoop (overflow : Overflow) (step e : Int64) :
    ℕ → Int64 → List Int64 → Option (Except String (List Int64))
  | 0, _, _ => none
  | fuel + 1, i, out =>
    if goesOn step e i then
      match addAssign overflow i step with
      | .ok i' => stepLoop overflow step e fuel i' (out ++ [i])
      | .error why => some (.error why)
    else some (.ok out)

-- `debug v` is the text of `{:?}`.
variable (debug : Value → String)

def rangeStepArgs (s e step : Value) : Except String (Int64 × Int64 × Int64) := do
  let s ← asInt debug s
  let e ← asInt debug e
  let step ← asInt debug step
  if step = 0 then throw "range_step: step must be non-zero"
  return (s, e, step)

def rangeStep (overflow : Overflow) (fuel : ℕ) : Value → Option (Except String Value)
  | .tuple [s, e, step] =>
    match rangeStepArgs debug s e step with
    | .error why => some (.error why)
    | .ok (s, e, step) =>
      (stepLoop overflow step e fuel s []).map fun out => out.map fun items => .list
        (items.map .int)
  | args => some (.error s!"range_step: expected Tuple(Int, Int, Int), got {debug args}")

def range : Value → Except String Value
  | .tuple [s, e] => do
    let s ← asInt debug s
    let e ← asInt debug e
    let width := (e.toInt - s.toInt).toNat
    return .list ((List.range width).map fun k : ℕ => .int (.ofInt (s.toInt + k)))
  | args => .error s!"range: expected Tuple(Int, Int), got {debug args}"

/-! ### The members of a progression -/

/-- Strictly before the end, in the direction of the step. -/
def Before (step e m : ℤ) : Prop := if 0 < step then m < e else e < m

instance (step e m : ℤ) : Decidable (Before step e m) := inferInstanceAs (Decidable (ite _ _ _))

/-- The list of the members `s`, `s + step`, ... that lie before the end. -/
structure Members (s e step : ℤ) (out : List ℤ) : Prop where
  nth : ∀ (k : ℕ) (h : k < out.length), out[k] = s + k * step
  before : ∀ k : ℕ, Before step e (s + k * step) ↔ k < out.length

section Progression
variable {s e step : ℤ}

theorem before_shift {n : ℕ} (h : ∀ k : ℕ, Before step e (s + k * step) ↔ k < n + 1) :
    ∀ k : ℕ, Before step e (s + step + k * step) ↔ k < n := by
  intro k
  have hk := h (k + 1)
  have heq : s + ((k + 1 : ℕ) : ℤ) * step = s + step + k * step := by push_cast; ring
  rw [heq] at hk
  exact hk.trans Nat.add_lt_add_iff_right

/-- A member at or past the end is followed by such members only. -/
theorem not_before_add {m : ℤ} (h : ¬ Before step e m) : ¬ Before step e (m + step) := by
  by_cases hpos : 0 < step
  · simp only [Before, hpos, if_true] at h ⊢
    omega
  · simp only [Before, hpos, if_false] at h ⊢
    omega

theorem not_before_of_le {i j : ℕ} (hij : i ≤ j) (h : ¬ Before step e (s + i * step)) :
    ¬ Before step e (s + j * step) := by
  induction j, hij using Nat.le_induction with
  | base => exact h
  | succ j hij ih =>
    have heq : s + ((j + 1 : ℕ) : ℤ) * step = s + j * step + step := by push_cast; ring
    rw [heq]
    exact not_before_add ih

theorem exists_not_before (hstep : step ≠ 0) : ∃ k : ℕ, ¬ Before step e (s + k * step) := by
  refine ⟨(e - s).natAbs, ?_⟩
  have habs : e - s ≤ (e - s).natAbs ∧ s - e ≤ (e - s).natAbs := by omega
  unfold Before
  split
  next hpos =>
    have :=
      Int.mul_le_mul_of_nonneg_left (show 1 ≤ step by omega) (Int.natCast_nonneg (e - s).natAbs)
    omega
  next hneg =>
    have :=
      Int.mul_le_mul_of_nonneg_left (show step ≤ -1 by omega) (Int.natCast_nonneg (e - s).natAbs)
    omega

theorem exists_count (hstep : step ≠ 0) :
    ∃ n : ℕ, ∀ k : ℕ, Before step e (s + k * step) ↔ k < n := by
  have hex := exists_not_before (s := s) (e := e) hstep
  refine ⟨Nat.find hex, fun k => ⟨fun hk => ?_, fun hk => ?_⟩⟩
  · apply Nat.lt_of_not_le
    intro hle
    exact not_before_of_le hle (Nat.find_spec hex) hk
  · by_contra hn
    exact Nat.find_min hex hk hn

theorem Members.cons {out : List ℤ} (hs : Before step e s) (h : Members (s + step) e step out) :
    Members s e step (s :: out) where
  nth := by
    intro k hk
    cases k with
    | zero => simp
    | succ k =>
      have hout := h.nth k (by simpa using hk)
      rw [getElem_cons_succ, hout]
      push_cast
      ring
  before := by
    intro k
    cases k with
    | zero => simpa using hs
    | succ k =>
      have hout := h.before k
      have heq : s + ((k + 1 : ℕ) : ℤ) * step = s + step + k * step := by push_cast; ring
      rw [heq, hout]
      simp

theorem members_nil (h : ¬ Before step e s) : Members s e step [] where
  nth := by simp
  before := by
    intro k
    have hk := not_before_of_le (Nat.zero_le k) (by simpa using h)
    simp [hk]

/-- What lies between two numbers of a word is one. -/
theorem fits_between {i j : ℕ} (hij : i ≤ j) (hs : Fits s) (h : Fits (s + j * step)) :
    Fits (s + i * step) := by
  obtain ⟨c, rfl⟩ := Nat.exists_eq_add_of_le hij
  have hsum : ((i + c : ℕ) : ℤ) * step = i * step + c * step := by push_cast; ring
  rw [hsum] at h
  unfold Fits at hs h ⊢
  rcases Int.le_total 0 step with hstep | hstep
  · have hi := Int.mul_nonneg (Int.natCast_nonneg i) hstep
    have hc := Int.mul_nonneg (Int.natCast_nonneg c) hstep
    omega
  · have hi := Int.mul_nonpos_of_nonneg_of_nonpos (Int.natCast_nonneg i) hstep
    have hc := Int.mul_nonpos_of_nonneg_of_nonpos (Int.natCast_nonneg c) hstep
    omega

end Progression

/-! ### The loop -/

section Loop
variable (overflow : Overflow) {step e i : Int64}

theorem goesOn_iff : goesOn step e i = true ↔ Before step.toInt e.toInt i.toInt := by
  have hzero : (0 : Int64).toInt = 0 := rfl
  simp [goesOn, Before, Int64.lt_iff_toInt_lt, hzero]

theorem addAssign_fits (h : Fits (i.toInt + step.toInt)) :
    ∃ i', addAssign overflow i step = .ok i' ∧ i'.toInt = i.toInt + step.toInt :=
  ⟨_, by simp [addAssign, checked, h], toInt_ofInt h⟩

/-- An addition that leaves the word ends the program or goes back behind where it began. -/
theorem addAssign_leaves (h : ¬ Fits (i.toInt + step.toInt)) (hi : goesOn step e i = true) :
    (∃ why, addAssign overflow i step = .error why) ∨
      addAssign overflow i step = .ok (i + step) ∧ goesOn step e (i + step) = true := by
  cases overflow with
  | panics => exact .inl ⟨"attempt to add with overflow", by simp [addAssign, checked, h]⟩
  | wraps =>
    refine .inr ⟨by simp [addAssign, checked, h], ?_⟩
    have hi := goesOn_iff.mp hi
    have hword := fits_toInt i
    have hstep := fits_toInt step
    have hsum : (i + step).toInt = (i.toInt + step.toInt).bmod (2 ^ 64) := Int64.toInt_add i step
    rw [goesOn_iff, hsum, Int.bmod_def]
    unfold Fits at h hword hstep
    unfold Before at hi ⊢
    split at hi
    next hpos =>
      simp only [hpos, if_true]
      omega
    next hpos =>
      simp only [hpos, if_false]
      omega

/-- A step that stays before the end stays in the word. -/
theorem fits_of_before (hi : Before step.toInt e.toInt (i.toInt + step.toInt)) :
    Fits (i.toInt + step.toInt) := by
  have hword := fits_toInt i
  have hend := fits_toInt e
  unfold Before at hi
  unfold Fits at hword hend ⊢
  split at hi <;> omega

theorem stepLoop_length {overflow : Overflow} {fuel : ℕ} {out res : List Int64}
    (h : stepLoop overflow step e fuel i out = some (.ok res)) :
    out.length ≤ res.length ∧ (goesOn step e i = true → out.length < res.length) := by
  induction fuel generalizing i out with
  | zero => simp [stepLoop] at h
  | succ fuel ih =>
    unfold stepLoop at h
    split at h
    next hgo =>
      split at h
      next i' _ =>
        have hlen := (ih h).1
        simp only [length_append, length_singleton] at hlen
        exact ⟨by omega, fun _ => by omega⟩
      next => simp at h
    next hstop =>
      injection h with h
      injection h with h
      subst h
      exact ⟨le_refl _, fun hgo => absurd hgo hstop⟩

/-- A run whose steps all stay in the word ends with the members. -/
theorem stepLoop_of_fits {n : ℕ} (out : List Int64)
    (hn : ∀ k : ℕ, Before step.toInt e.toInt (i.toInt + k * step.toInt) ↔ k < n)
    (hfits : Fits (i.toInt + n * step.toInt)) :
    ∃ fuel items, stepLoop overflow step e fuel i out = some (.ok (out ++ items)) ∧
      Members i.toInt e.toInt step.toInt (items.map Int64.toInt) := by
  induction n generalizing i out with
  | zero =>
    have hstop : ¬ Before step.toInt e.toInt i.toInt := by simpa using hn 0
    refine ⟨1, [], ?_, members_nil hstop⟩
    simp [stepLoop, goesOn_iff, hstop]
  | succ n ih =>
    have hgo : Before step.toInt e.toInt i.toInt := by simpa using hn 0
    have hnext : Fits (i.toInt + step.toInt) := by
      simpa using fits_between (show 1 ≤ n + 1 by omega) (fits_toInt i) hfits
    obtain ⟨i', hadd, hi'⟩ := addAssign_fits overflow hnext
    have hlast : Fits (i'.toInt + n * step.toInt) := by
      have heq : i.toInt + ((n + 1 : ℕ) : ℤ) * step.toInt = i'.toInt + n * step.toInt := by
        rw [hi']
        push_cast
        ring
      rwa [heq] at hfits
    obtain ⟨fuel, items, hrun, hmem⟩ := ih (i := i') (out ++ [i])
      (by rw [hi']; exact before_shift hn) hlast
    refine ⟨fuel + 1, i :: items, ?_, ?_⟩
    · rw [stepLoop, if_pos (goesOn_iff.mpr hgo), hadd]
      simpa using hrun
    · rw [hi'] at hmem
      exact hmem.cons hgo

/-- A run that has to leave the word returns too many items, if it returns. -/
theorem stepLoop_of_leaves {overflow : Overflow} {n fuel : ℕ} {out res : List Int64}
    (hn : ∀ k : ℕ, Before step.toInt e.toInt (i.toInt + k * step.toInt) ↔ k < n)
    (hfits : ¬ Fits (i.toInt + n * step.toInt))
    (h : stepLoop overflow step e fuel i out = some (.ok res)) : out.length + n < res.length := by
  induction n generalizing i out fuel with
  | zero => exact absurd (fits_toInt i) (by simpa using hfits)
  | succ n ih =>
    have hgo : goesOn step e i = true := goesOn_iff.mpr (by simpa using hn 0)
    cases fuel with
    | zero => simp [stepLoop] at h
    | succ fuel =>
      rw [stepLoop, if_pos hgo] at h
      by_cases hnext : Fits (i.toInt + step.toInt)
      · obtain ⟨i', hadd, hi'⟩ := addAssign_fits overflow hnext
        rw [hadd] at h
        have heq : i.toInt + ((n + 1 : ℕ) : ℤ) * step.toInt = i'.toInt + n * step.toInt := by
          rw [hi']
          push_cast
          ring
        have hlen := ih (by rw [hi']; exact before_shift hn) (by rwa [heq] at hfits) h
        simp only [length_append, length_singleton] at hlen
        omega
      · -- the step is the last one: the one after it would still lie in the word
        have hlast : n = 0 := by
          have hone := hn 1
          have hbefore := fun hb => hnext (fits_of_before (e := e) hb)
          simp only [Nat.cast_one, Int.one_mul] at hone
          by_contra hpos
          exact hbefore (hone.mpr (by omega))
        subst hlast
        rcases addAssign_leaves overflow hnext hgo with ⟨why, hadd⟩ | ⟨hadd, hgo'⟩
        · simp [hadd] at h
        · rw [hadd] at h
          have hlen := (stepLoop_length h).2 hgo'
          simp only [length_append, length_singleton] at hlen
          omega

end Loop

/-! ### The builtin -/

section Calls
variable {overflow : Overflow} {s e step : Int64}

theorem rangeStep_ints (hstep : step ≠ 0) (fuel : ℕ) :
    rangeStep debug overflow fuel (.tuple [.int s, .int e, .int step]) =
      (stepLoop overflow step e fuel s []).map fun out => out.map fun items => .list
      (items.map .int) := by
  have hargs : rangeStepArgs debug (.int s) (.int e) (.int step) = .ok (s, e, step) := by
    change (if step = 0 then _ else _) = _
    rw [if_neg hstep]
    rfl
  simp only [rangeStep, hargs]

/-- The call ends and returns the members of the progression, as integers. -/
def Delivers (overflow : Overflow) (s e step : Int64) : Prop :=
  ∃ (fuel : ℕ) (items : List Int64),
    rangeStep debug overflow fuel (.tuple [.int s, .int e, .int step]) = some
      (.ok (.list (items.map .int))) ∧ Members s.toInt e.toInt step.toInt (items.map Int64.toInt)

theorem not_delivers {n : ℕ} (hstep : step ≠ 0)
    (hn : ∀ k : ℕ, Before step.toInt e.toInt (s.toInt + k * step.toInt) ↔ k < n)
    (hfits : ¬ Fits (s.toInt + n * step.toInt)) : ¬ Delivers debug overflow s e step := by
  rintro ⟨fuel, items, hcall, hmem⟩
  rw [rangeStep_ints debug hstep] at hcall
  obtain ⟨out, hrun, hout⟩ := Option.map_eq_some_iff.mp hcall
  cases out with
  | error why => simp [Except.map] at hout
  | ok res =>
    have hres : res = items := by
      simp only [Except.map, Except.ok.injEq, Value.list.injEq] at hout
      exact map_injective_iff.mpr (fun _ _ h => Value.int.inj h) hout
    subst hres
    have hlong := stepLoop_of_leaves hn hfits hrun
    have hlen := (hn n).symm.trans (hmem.before n)
    simp only [length_map, length_nil] at hlen hlong
    omega

/-- `range_step` delivers the members just when one at or past the end is still a number of the
word. -/
theorem rangeStep_iff (hstep : step ≠ 0) :
    Delivers debug overflow s e step ↔
      ∃ k : ℕ, ¬ Before step.toInt e.toInt (s.toInt + k * step.toInt) ∧
        Fits (s.toInt + k * step.toInt) := by
  have hne : step.toInt ≠ 0 := fun h => hstep (Int64.toInt_inj.mp h)
  obtain ⟨n, hn⟩ := exists_count (s := s.toInt) (e := e.toInt) hne
  constructor
  · intro hdel
    refine ⟨n, fun hb => lt_irrefl n ((hn n).mp hb), ?_⟩
    by_contra hfits
    exact not_delivers debug hstep hn hfits hdel
  · rintro ⟨k, hpast, hfits⟩
    have hle : n ≤ k := Nat.le_of_not_lt fun hlt => hpast ((hn k).mpr hlt)
    obtain ⟨fuel, items, hrun, hmem⟩ := stepLoop_of_fits overflow [] hn
      (fits_between hle (fits_toInt s) hfits)
    refine ⟨fuel, items, ?_, hmem⟩
    rw [rangeStep_ints debug hstep, hrun]
    rfl

theorem rangeStep_iff_ten : Delivers (fun _ => "") .panics 0 10 3 ↔
    ∃ k : ℕ, ¬ Before 3 10 (0 + k * 3) ∧ Fits (0 + k * 3) :=
  rangeStep_iff (fun _ => "") (by decide)

/-- The number after the last member is none of the word: one build panics, the other goes on from
the smallest number. -/
theorem last_before_maxValue :
    ¬ Delivers (fun _ => "") .panics 9223372036854775806 9223372036854775807 2 ∧
      ¬ Delivers (fun _ => "") .wraps 9223372036854775806 9223372036854775807 2 := by
  have hn : ∀ k : ℕ, Before (2 : Int64).toInt (9223372036854775807 : Int64).toInt
      ((9223372036854775806 : Int64).toInt + k * (2 : Int64).toInt) ↔ k < 1 := by
    intro k
    change (9223372036854775806 + (k : ℤ) * 2 < 9223372036854775807) ↔ k < 1
    omega
  have hfits : ¬ Fits
    ((9223372036854775806 : Int64).toInt + (1 : ℕ) * (2 : Int64).toInt) := by decide
  exact ⟨not_delivers _ (by decide) hn hfits, not_delivers _ (by decide) hn hfits⟩

theorem before_one {k : ℕ} :
    Before 1 e.toInt (s.toInt + k * 1) ↔ k < (e.toInt - s.toInt).toNat := by
  simp only [Before, Int.zero_lt_one, if_true]
  omega

theorem eq_of_members {items : List Int64} (h : Members s.toInt e.toInt 1 (items.map Int64.toInt)) :
    items = (List.range (e.toInt - s.toInt).toNat).map fun k : ℕ => .ofInt (s.toInt + k) := by
  have hlen : items.length = (e.toInt - s.toInt).toNat := by
    have h1 := (before_one (s := s) (e := e)).symm.trans (h.before items.length)
    have h2 := (before_one (s := s) (e := e)).symm.trans (h.before (e.toInt - s.toInt).toNat)
    rw [length_map] at h1 h2
    omega
  refine ext_getElem (by simpa using hlen) ?_
  intro k hk hk'
  have hnth := h.nth k (by simpa using hk)
  simp only [getElem_map, Int.mul_one] at hnth
  rw [getElem_map, getElem_range, ← hnth, Int64.ofInt_toInt]

/-- `range` is `range_step` by one, which never leaves the word. -/
theorem range_eq_rangeStep (overflow : Overflow) (s e : Value) :
    ∃ fuel, rangeStep debug overflow fuel (.tuple [s, e, .int 1]) =
      some (range debug (.tuple [s, e])) := by
  cases hs : asInt debug s with
  | error why =>
    refine ⟨0, ?_⟩
    simp only [rangeStep, rangeStepArgs, range, hs]
    rfl
  | ok s' =>
    cases he : asInt debug e with
    | error why =>
      refine ⟨0, ?_⟩
      simp only [rangeStep, rangeStepArgs, range, hs, he]
      rfl
    | ok e' =>
      have hone : (1 : Int64).toInt = 1 := rfl
      have hn : ∀ k : ℕ, Before (1 : Int64).toInt e'.toInt (s'.toInt + k * (1 : Int64).toInt) ↔
          k < (e'.toInt - s'.toInt).toNat := by
        intro k
        rw [hone]
        exact before_one
      have hfits : Fits (s'.toInt + (e'.toInt - s'.toInt).toNat * (1 : Int64).toInt) := by
        have hs' := fits_toInt s'
        have he' := fits_toInt e'
        rw [hone]
        unfold Fits at hs' he' ⊢
        omega
      obtain ⟨fuel, items, hrun, hmem⟩ := stepLoop_of_fits overflow [] hn hfits
      refine ⟨fuel, ?_⟩
      simp only [rangeStep, rangeStepArgs, range, hs, he]
      change (stepLoop overflow 1 e' fuel s' []).map _ = some (Except.ok (Value.list _))
      rw [hrun, eq_of_members hmem]
      simp [Except.map, Function.comp_def]

end Calls
end AxisBridge.Iter
