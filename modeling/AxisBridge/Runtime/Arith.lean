import AxisBridge.Runtime.Substitution
import Mathlib.Tactic.Linarith

/-! The integer primitives on words of 64 bits: each is exact, or stops the program. -/
namespace AxisBridge.Arith
open IrEval (makeCtor)
open Int64 (minValue ofInt toInt_inj lt_iff_toInt_lt)

/-- Whether an integer is an `i64`. -/
def Fits (n : ℤ) : Prop := -2 ^ 63 ≤ n ∧ n < 2 ^ 63

instance (n : ℤ) : Decidable (Fits n) := inferInstanceAs (Decidable (_ ∧ _))

/-- The `checked_` operations of the standard library: the exact result, when it fits. -/
def checked (n : ℤ) : Option Int64 := if Fits n then some (.ofInt n) else none

def intAdd (x y : Int64) : Except String Value :=
  match checked (x.toInt + y.toInt) with
  | some r => .ok (.int r)
  | none => .error s!"int_add: overflow ({x} + {y})"

def intSub (x y : Int64) : Except String Value :=
  match checked (x.toInt - y.toInt) with
  | some r => .ok (.int r)
  | none => .error s!"int_sub: overflow ({x} - {y})"

def intMul (x y : Int64) : Except String Value :=
  match checked (x.toInt * y.toInt) with
  | some r => .ok (.int r)
  | none => .error s!"int_mul: overflow ({x} * {y})"

def intAbs (n : Int64) : Except String Value :=
  match checked |n.toInt| with
  | some r => .ok (.int r)
  | none => .error s!"int_abs: overflow ({n})"

/-- A shift to the left by a count modulo 64; what leaves the word is lost. -/
def wrappingShl (x : Int64) (n : ℕ) : Int64 := .ofBitVec (x.toBitVec <<< (n % 64))

/-- The shift to the right that keeps the sign. -/
def shr (x : Int64) (n : ℕ) : Int64 := .ofBitVec (x.toBitVec.sshiftRight n)

def intShl (x n : Int64) : Except String Value :=
  if n < 0 then .error s!"int_shl: negative shift count {n}"
  else if x = 0 then .ok (.int 0)
  else if 63 < n then .error s!"int_shl: overflow ({x} << {n})"
  else
    let r := wrappingShl x n.toInt.toNat
    if shr r n.toInt.toNat ≠ x then .error s!"int_shl: overflow ({x} << {n})"
    else .ok (.int r)

def intShr (x n : Int64) : Except String Value :=
  if n < 0 then .error s!"int_shr: negative shift count {n}"
  else .ok (.int (if 63 < n then if x < 0 then -1 else 0 else shr x n.toInt.toNat))

/-- The standard library's `div_euclid`, over the division that truncates. -/
def divEuclid (x y : Int64) : Except String Int64 :=
  if y = 0 then .error "attempt to divide by zero"
  else if x = minValue ∧ y = -1 then .error "attempt to divide with overflow"
  else
    let q := x / y
    .ok (if x % y < 0 then if 0 < y then q - 1 else q + 1 else q)

/-- The standard library's `rem_euclid`; the magnitude of the divisor wraps. -/
def remEuclid (x y : Int64) : Except String Int64 :=
  if y = 0 then .error "attempt to calculate the remainder with a divisor of zero"
  else if x = minValue ∧ y = -1 then .error "attempt to calculate the remainder with overflow"
  else
    let r := x % y
    .ok (if r < 0 then r + (if y < 0 then -y else y) else r)

def intDiv (x y : Int64) : Except String Value :=
  if y = 0 then .error "int_div: division by zero" else (divEuclid x y).map .int

def optionNone (tags : IrEval.TagTable) : Value := makeCtor tags "None" []

def optionSome (tags : IrEval.TagTable) (v : Value) : Value := makeCtor tags "Some" [v]

def intDivChecked (tags : IrEval.TagTable) (x y : Int64) : Except String Value :=
  if y = 0 then .ok (optionNone tags)
  else (divEuclid x y).map fun q => optionSome tags (.int q)

def intMod (x y : Int64) : Except String Value :=
  if y = 0 then .error "int_mod: division by zero" else (remEuclid x y).map .int

/-! ### Words and integers -/

/-- The call returns the integer. -/
def Answers (out : Except String Value) (n : ℤ) : Prop :=
  ∃ r : Int64, out = .ok (.int r) ∧ r.toInt = n

def Panics {ρ : Type} (out : Except String ρ) : Prop := ∃ why, out = .error why

/-- The call returns the integer when it is an `i64`, and panics when it is none. -/
def Exact (out : Except String Value) (n : ℤ) : Prop :=
  (Fits n → Answers out n) ∧ (¬ Fits n → Panics out)

theorem fits_toInt (x : Int64) : Fits x.toInt := ⟨x.le_toInt, x.toInt_lt⟩

theorem toInt_ofInt {n : ℤ} (h : Fits n) : (ofInt n).toInt = n :=
  Int64.toInt_ofInt_of_le h.1 h.2

theorem exact_checked {n : ℤ} {why : String} {out : Except String Value}
    (h : out = match checked n with
      | some r => .ok (.int r)
      | none => .error why) : Exact out n := by
  constructor
  · intro hfits
    rw [checked, if_pos hfits] at h
    exact ⟨_, h, toInt_ofInt hfits⟩
  · intro hfits
    rw [checked, if_neg hfits] at h
    exact ⟨why, h⟩

/-! ### Shifts -/

theorem toInt_shr (x : Int64) (n : ℕ) : (shr x n).toInt = x.toInt / 2 ^ n := by
  change (x.toBitVec.sshiftRight n).toInt = _
  rw [BitVec.toInt_sshiftRight, Int.shiftRight_eq_div_pow]
  rfl

theorem toInt_wrappingShl (x : Int64) {n : ℕ} (hn : n < 64) :
    (wrappingShl x n).toInt = (x.toInt * 2 ^ n).bmod (2 ^ 64) := by
  change (x.toBitVec <<< (n % 64)).toInt = _
  rw [Nat.mod_eq_of_lt hn, BitVec.toInt_shiftLeft, Nat.shiftLeft_eq, ← Int64.toInt_toBitVec,
    BitVec.toInt_eq_toNat_bmod]
  simp

/-- Shifting back tells whether the product fits: a low part that was lost would be a multiple of `2
^ n`. -/
theorem shr_wrappingShl (x : Int64) {n : ℕ} (hn : n < 64) :
    shr (wrappingShl x n) n = x ↔ Fits (x.toInt * 2 ^ n) := by
  have hpow : (0 : ℤ) < 2 ^ n := by positivity
  rw [← toInt_inj, toInt_shr]
  constructor
  · intro hback
    have hdvd : (2 : ℤ) ^ n ∣ (wrappingShl x n).toInt := by
      have hword : (2 : ℤ) ^ n ∣ 2 ^ 64 := pow_dvd_pow 2 hn.le
      rw [toInt_wrappingShl x hn, Int.bmod_eq_self_sub_mul_bdiv]
      exact Int.dvd_sub (Dvd.intro_left _ rfl) (hword.mul_right _)
    have hword := Int.ediv_mul_cancel hdvd
    rw [hback] at hword
    rw [hword]
    exact fits_toInt _
  · intro hfits
    rw [toInt_wrappingShl x hn, Int.bmod_eq_of_le hfits.1 hfits.2]
    exact Int.mul_ediv_cancel _ hpow.ne'

theorem not_fits_of_long {x : ℤ} (hx : x ≠ 0) {n : ℕ} (hn : 64 ≤ n) : ¬ Fits (x * 2 ^ n) := by
  intro hfits
  obtain ⟨hlow, hhigh⟩ := hfits
  have hpow : (2 : ℤ) ^ 64 ≤ 2 ^ n := pow_le_pow_right₀ (by omega) hn
  obtain hneg | hpos := lt_or_gt_of_ne hx
  · nlinarith
  · nlinarith

theorem long_iff {n : Int64} : 63 < n ↔ 64 ≤ n.toInt.toNat := by
  have h63 : (63 : Int64).toInt = 63 := rfl
  rw [lt_iff_toInt_lt]
  omega

theorem intShl_exact (x : Int64) {n : Int64} (hn : 0 ≤ n.toInt) :
    Exact (intShl x n) (x.toInt * 2 ^ n.toInt.toNat) := by
  have hneg : ¬ n < 0 := by
    rw [lt_iff_toInt_lt]
    exact hn.not_gt
  rw [intShl, if_neg hneg]
  by_cases hx : x = 0
  · rw [if_pos hx, hx]
    refine ⟨fun _ => ⟨0, rfl, ?_⟩, fun hfits => absurd ?_ hfits⟩
    · simp
    · simp [Fits]
  rw [if_neg hx]
  by_cases hlong : 63 < n
  · rw [if_pos hlong]
    have hcount := long_iff.mp hlong
    have hnot := not_fits_of_long (fun h => hx (toInt_inj.mp h)) hcount
    exact ⟨fun hfits => absurd hfits hnot, fun _ => ⟨_, rfl⟩⟩
  · rw [if_neg hlong]
    have hcount := not_le.mp (mt long_iff.mpr hlong)
    have hback := shr_wrappingShl x hcount
    constructor
    · intro hfits
      refine ⟨_, if_neg (not_not.mpr (hback.mpr hfits)), ?_⟩
      rw [toInt_wrappingShl x hcount, Int.bmod_eq_of_le hfits.1 hfits.2]
    · intro hfits
      exact ⟨_, if_pos (mt hback.mp hfits)⟩

theorem intShr_floor (x : Int64) {n : Int64} (hn : 0 ≤ n.toInt) :
    Answers (intShr x n) (x.toInt / 2 ^ n.toInt.toNat) := by
  have hneg : ¬ n < 0 := by
    rw [lt_iff_toInt_lt]
    exact hn.not_gt
  rw [intShr, if_neg hneg]
  refine ⟨_, rfl, ?_⟩
  by_cases hlong : 63 < n
  · rw [if_pos hlong]
    have hcount := long_iff.mp hlong
    have hpow : (2 : ℤ) ^ 64 ≤ 2 ^ n.toInt.toNat := pow_le_pow_right₀ (by omega) hcount
    obtain ⟨hlow, hhigh⟩ := fits_toInt x
    by_cases hx : x < 0
    · have hx0 := lt_iff_toInt_lt.mp hx
      rw [if_pos hx, eq_comm]
      refine ((Int.ediv_emod_unique (r := x.toInt + 2 ^ n.toInt.toNat) (by omega)).mpr
        ⟨?_, ?_, ?_⟩).1
      · change _ + _ * (-1) = _
        omega
      · omega
      · change x.toInt < 0 at hx0
        omega
    · have hx0 := mt lt_iff_toInt_lt.mpr hx
      change ¬ x.toInt < 0 at hx0
      rw [if_neg hx, Int.ediv_eq_zero_of_lt (by omega) (by omega)]
      rfl
  · rw [if_neg hlong, toInt_shr]

/-! ### Division -/

/-- The one quotient of words that is no word. -/
def Overflows (x y : Int64) : Prop := x = minValue ∧ y = -1

variable {x y : Int64}

theorem fits_ediv (hy : y ≠ 0) : Fits (x.toInt / y.toInt) ↔ ¬ Overflows x y := by
  have hy0 : y.toInt ≠ 0 := fun h => hy (toInt_inj.mp h)
  constructor
  · rintro hfits ⟨rfl, rfl⟩
    exact absurd hfits (by decide)
  · intro hsafe
    have hle := Int.natAbs_ediv_le_natAbs x.toInt y.toInt
    obtain ⟨hlow, hhigh⟩ := fits_toInt x
    by_contra hnot
    have hquot : x.toInt / y.toInt = 2 ^ 63 := by
      rw [Fits] at hnot
      omega
    have hdiv := Int.emod_add_mul_ediv x.toInt y.toInt
    have hmod := Int.emod_nonneg x.toInt hy0
    have hlt := Int.emod_lt_abs x.toInt hy0
    rw [hquot] at hdiv hle
    apply hsafe
    have hx : x.toInt = -2 ^ 63 := by omega
    have hone : y.toInt = -1 := by
      rw [abs_eq_max_neg] at hlt
      omega
    exact ⟨toInt_inj.mp hx, toInt_inj.mp hone⟩

theorem tmod_neg_iff {a b : ℤ} (hb : b ≠ 0) : a.tmod b < 0 ↔ ¬ (0 ≤ a ∨ b ∣ a) := by
  have hmod := Int.emod_nonneg a hb
  have hlt := Int.emod_lt_abs a hb
  rw [Int.tmod_eq_emod]
  split
  · next h => exact ⟨fun hneg => by omega, fun hnot => absurd h hnot⟩
  · next h =>
    rw [Int.abs_eq_natAbs] at hlt
    exact ⟨fun _ => h, fun _ => by omega⟩

theorem toInt_sign : x % y < 0 ↔ x.toInt.tmod y.toInt < 0 := by
  rw [lt_iff_toInt_lt, Int64.toInt_mod]
  rfl

theorem divEuclid_eq (hy : y ≠ 0) (hsafe : ¬ Overflows x y) :
    ∃ q, divEuclid x y = .ok q ∧ q.toInt = x.toInt / y.toInt := by
  have hy0 : y.toInt ≠ 0 := fun h => hy (toInt_inj.mp h)
  obtain ⟨hlow, hhigh⟩ := (fits_ediv hy).mpr hsafe
  have hword : (x.toInt / y.toInt).bmod (2 ^ 64) = x.toInt / y.toInt := Int.bmod_eq_of_le hlow hhigh
  refine ⟨_, (if_neg hy).trans (if_neg hsafe), ?_⟩
  have hsign := tmod_neg_iff (a := x.toInt) hy0
  rw [Int.ediv_eq_tdiv] at hword ⊢
  by_cases hneg : x % y < 0
  · have hdvd := hsign.mp (toInt_sign.mp hneg)
    rw [if_neg hdvd] at hword ⊢
    rw [if_pos hneg]
    by_cases hpos : 0 < y
    · have hy1 : y.toInt.sign = 1 := Int.sign_eq_one_of_pos (lt_iff_toInt_lt.mp hpos)
      rw [hy1] at hword ⊢
      simpa [hpos] using hword
    · have hlt : y.toInt < 0 := by
        have hpos0 := mt lt_iff_toInt_lt.mpr hpos
        change ¬ 0 < y.toInt at hpos0
        omega
      rw [Int.sign_eq_neg_one_of_neg hlt] at hword ⊢
      simpa [hpos] using hword
  · have hdvd := not_not.mp (mt (hsign.mpr ·) (mt toInt_sign.mpr hneg))
    rw [if_pos hdvd] at hword ⊢
    rw [if_neg hneg]
    simpa using hword

theorem remEuclid_eq (hy : y ≠ 0) (hsafe : ¬ Overflows x y) :
    ∃ r, remEuclid x y = .ok r ∧ r.toInt = x.toInt % y.toInt := by
  have hy0 : y.toInt ≠ 0 := fun h => hy (toInt_inj.mp h)
  have hmod := Int.emod_nonneg x.toInt hy0
  have hlt := Int.emod_lt_abs x.toInt hy0
  obtain ⟨hlow, hhigh⟩ := fits_toInt y
  have hword : (x.toInt % y.toInt).bmod (2 ^ 64) = x.toInt % y.toInt := by
    rw [abs_eq_max_neg] at hlt
    exact Int.bmod_eq_of_le (by omega) (by omega)
  refine ⟨_, (if_neg hy).trans (if_neg hsafe), ?_⟩
  have hsign := tmod_neg_iff (a := x.toInt) hy0
  rw [Int.emod_eq_tmod] at hword ⊢
  by_cases hneg : x % y < 0
  · have hdvd := hsign.mp (toInt_sign.mp hneg)
    rw [if_neg hdvd] at hword ⊢
    rw [if_pos hneg]
    by_cases hdown : y < 0
    · have hy1 : y.toInt < 0 := lt_iff_toInt_lt.mp hdown
      have habs : (y.toInt.natAbs : ℤ) = -y.toInt := by omega
      rw [habs] at hword ⊢
      simpa [hdown] using hword
    · have hup := mt lt_iff_toInt_lt.mpr hdown
      change ¬ y.toInt < 0 at hup
      have habs : (y.toInt.natAbs : ℤ) = y.toInt := by omega
      rw [habs] at hword ⊢
      simpa [hdown] using hword
  · have hdvd := not_not.mp (mt (hsign.mpr ·) (mt toInt_sign.mpr hneg))
    rw [if_pos hdvd, if_neg hneg]
    simp

theorem intDiv_eq (hy : y ≠ 0) (hsafe : ¬ Overflows x y) :
    ∃ q : Int64, intDiv x y = .ok (.int q) ∧ q.toInt = x.toInt / y.toInt := by
  obtain ⟨q, hq, hval⟩ := divEuclid_eq hy hsafe
  refine ⟨q, ?_, hval⟩
  rw [intDiv, if_neg hy, hq]
  rfl

theorem intMod_eq (hy : y ≠ 0) (hsafe : ¬ Overflows x y) :
    ∃ r : Int64, intMod x y = .ok (.int r) ∧ r.toInt = x.toInt % y.toInt := by
  obtain ⟨r, hr, hval⟩ := remEuclid_eq hy hsafe
  refine ⟨r, ?_, hval⟩
  rw [intMod, if_neg hy, hr]
  rfl

theorem intMod_overflow (h : Overflows x y) : Panics (intMod x y) := by
  obtain ⟨rfl, rfl⟩ := h
  exact ⟨_, rfl⟩

/-! ### Bytes -/

/-- The byte with the weight `256 ^ k` of a word in two's complement. -/
def byteOf (v : Int64) (k : ℕ) : BitVec 8 := v.toBitVec.extractLsb' (8 * k) 8

/-- The sign bit weighs `2 ^ 64` less than the bit of the unsigned word, a multiple of what the byte
reads. -/
theorem ediv_emod_byte (v : Int64) {k : ℕ} (hk : k < 8) :
    v.toInt / 256 ^ k % 256 = (byteOf v k).toNat := by
  have hpow : (256 : ℤ) ^ k ≠ 0 := by positivity
  have hunsigned : ((byteOf v k).toNat : ℤ) = v.toBitVec.toNat / 256 ^ k % 256 := by
    rw [byteOf, BitVec.extractLsb'_toNat, Nat.shiftRight_eq_div_pow, pow_mul]
    norm_cast
  rw [hunsigned, ← Int64.toInt_toBitVec, BitVec.toInt_eq_toNat_cond]
  split
  · rfl
  · obtain ⟨m, hm⟩ : ∃ m, 8 = k + (m + 1) := ⟨7 - k, by omega⟩
    have hsign : ((2 ^ 64 : ℕ) : ℤ) = 256 ^ k * (256 * 256 ^ m) := by
      have h256 : ((2 ^ 64 : ℕ) : ℤ) = 256 ^ 8 := by norm_num
      rw [h256, hm, pow_add, pow_succ, mul_comm (256 ^ m) 256]
    rw [hsign, Int.sub_mul_ediv_left _ _ hpow, Int.sub_mul_emod_self_left]

theorem toInt_weight {k : ℕ} (hk : k < 8) : (ofInt (256 ^ k)).toInt = 256 ^ k := by
  have hle : (256 : ℤ) ^ k ≤ 256 ^ 7 := pow_le_pow_right₀ (by omega) (by omega)
  have hpos : (0 : ℤ) < 256 ^ k := by positivity
  exact toInt_ofInt ⟨by omega, by omega⟩

theorem not_overflows_of_pos (hy : 0 < y.toInt) : ¬ Overflows x y := by
  rintro ⟨-, rfl⟩
  exact absurd hy (by decide)

theorem ne_zero_of_pos (hy : 0 < y.toInt) : y ≠ 0 := by
  rintro rfl
  exact absurd hy (by decide)

/-- What a decoder reads a byte of a word with. -/
def byteAt (v : Int64) (k : ℕ) : Except String Value := do
  match ← intDiv v (.ofInt (256 ^ k)) with
  | .int w => intMod w 256
  | other => .ok other

theorem byteAt_eq (v : Int64) {k : ℕ} (hk : k < 8) : Answers (byteAt v k) (byteOf v k).toNat := by
  have hweight := toInt_weight hk
  have hpos : 0 < (ofInt (256 ^ k)).toInt := by
    rw [hweight]
    positivity
  obtain ⟨w, hw, hquot⟩ := intDiv_eq (x := v) (ne_zero_of_pos hpos) (not_overflows_of_pos hpos)
  have h256 : (0 : ℤ) < (256 : Int64).toInt := by decide
  obtain ⟨b, hb, hrem⟩ := intMod_eq (x := w) (ne_zero_of_pos h256) (not_overflows_of_pos h256)
  refine ⟨b, ?_, ?_⟩
  · rw [byteAt, hw]
    exact hb
  · rw [hrem, hquot, hweight, ← ediv_emod_byte v hk]
    rfl

/-! ### The primitives -/

/-- What a program relies on: exact results, a panic for those that are no word, and the law of
Euclidean division. -/
structure Primitives (tags : IrEval.TagTable) (x y n : Int64) : Prop where
  add : Exact (intAdd x y) (x.toInt + y.toInt)
  sub : Exact (intSub x y) (x.toInt - y.toInt)
  mul : Exact (intMul x y) (x.toInt * y.toInt)
  abs : Exact (intAbs x) |x.toInt|
  shlNegative : n.toInt < 0 → Panics (intShl x n)
  shl : 0 ≤ n.toInt → Exact (intShl x n) (x.toInt * 2 ^ n.toInt.toNat)
  shr : 0 ≤ n.toInt → Answers (intShr x n) (x.toInt / 2 ^ n.toInt.toNat)
  division : y ≠ 0 → ∃ r : Int64, intMod x y = .ok (.int r) ∧ 0 ≤ r.toInt ∧ r.toInt < |y.toInt| ∧
    ∃ q : Int64, intDiv x y = .ok (.int q) ∧ q.toInt * y.toInt + r.toInt = x.toInt
  checked : (y = 0 ∨ ¬ Fits (x.toInt / y.toInt) → intDivChecked tags x y = .ok (optionNone tags)) ∧
    (y ≠ 0 → Fits (x.toInt / y.toInt) → ∃ q : Int64,
      intDivChecked tags x y = .ok (optionSome tags (.int q)) ∧ q.toInt = x.toInt / y.toInt)
  bytes : ∀ k < 8, Answers (byteAt x k) (byteOf x k).toNat

theorem intDivChecked_zero (tags : IrEval.TagTable) (x : Int64) :
    intDivChecked tags x 0 = .ok (optionNone tags) :=
  rfl

theorem intDivChecked_eq (tags : IrEval.TagTable) (hy : y ≠ 0) (hsafe : ¬ Overflows x y) :
    ∃ q : Int64, intDivChecked tags x y = .ok (optionSome tags (.int q)) ∧
      q.toInt = x.toInt / y.toInt := by
  obtain ⟨q, hq, hval⟩ := divEuclid_eq hy hsafe
  refine ⟨q, ?_, hval⟩
  rw [intDivChecked, if_neg hy, hq]
  rfl

/-- The primitives are right except where the one quotient that is no word is asked for. -/
theorem primitives_iff (tags : IrEval.TagTable) (x y n : Int64) :
    Primitives tags x y n ↔ ¬ Overflows x y := by
  constructor
  · intro h hover
    have hy : y ≠ 0 := by
      rw [hover.2]
      decide
    obtain ⟨r, hr, -⟩ := h.division hy
    obtain ⟨why, hpanics⟩ := intMod_overflow hover
    rw [hpanics] at hr
    cases hr
  · intro hsafe
    refine ⟨exact_checked rfl, exact_checked rfl, exact_checked rfl, exact_checked rfl, ?_,
      intShl_exact x, intShr_floor x, ?_, ⟨?_, ?_⟩, fun k hk => byteAt_eq x hk⟩
    · intro hn
      exact ⟨_, if_pos (lt_iff_toInt_lt.mpr hn)⟩
    · intro hy
      have hy0 : y.toInt ≠ 0 := fun h => hy (toInt_inj.mp h)
      obtain ⟨r, hr, hrem⟩ := intMod_eq hy hsafe
      obtain ⟨q, hq, hquot⟩ := intDiv_eq hy hsafe
      refine ⟨r, hr, ?_, ?_, q, hq, ?_⟩
      · rw [hrem]
        exact Int.emod_nonneg _ hy0
      · rw [hrem]
        exact Int.emod_lt_abs _ hy0
      · rw [hquot, hrem]
        exact Int.ediv_mul_add_emod _ _
    · rintro (rfl | hfits)
      · exact intDivChecked_zero tags x
      · by_cases hy : y = 0
        · rw [hy]
          exact intDivChecked_zero tags x
        · exact absurd ((fits_ediv hy).mpr hsafe) hfits
    · intro hy _
      exact intDivChecked_eq tags hy hsafe

def noTags : IrEval.TagTable := ⟨[], List.nodup_nil, by decide⟩

/-- Both the remainder and the checked quotient of `i64::MIN` by `-1` stop the program. -/
theorem minValue_by_neg_one :
    intMod minValue (-1) = .error "attempt to calculate the remainder with overflow" ∧
      intDivChecked noTags minValue (-1) = .error "attempt to divide with overflow" ∧
      ¬ Primitives noTags minValue (-1) 0 := by
  refine ⟨rfl, rfl, fun h => ?_⟩
  obtain ⟨r, hr, -⟩ := h.division (by decide)
  cases hr

end AxisBridge.Arith
