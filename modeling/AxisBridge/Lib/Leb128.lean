import Mathlib.Data.Nat.Bitwise
import Mathlib.Tactic.Ring

/-! Unsigned LEB128 over the naturals: seven bits a byte, lowest first, in minimal form. -/
namespace Leb128
open List

def encode (n : ℕ) : List UInt8 :=
  if n < 128 then [.ofNat n] else .ofNat (n % 128 + 128) :: encode (n / 128)
termination_by n
decreasing_by omega

theorem encode_lt {n : ℕ} (h : n < 128) : encode n = [.ofNat n] := by
  rw [encode, if_pos h]

theorem encode_ge {n : ℕ} (h : 128 ≤ n) :
    encode n = .ofNat (n % 128 + 128) :: encode (n / 128) := by
  rw [encode, if_neg (by omega)]

/-- A continued byte in front of a nonzero number is that number's next seven bits. -/
theorem encode_cons {low n : ℕ} (hlow : low < 128) (hn : n ≠ 0) :
    encode (low + 128 * n) = .ofNat (low + 128) :: encode n := by
  rw [encode_ge (by omega)]
  congr 2
  · omega
  · omega

/-- The number that a varint says, however long it is, and how many bytes it has. -/
def decode : List UInt8 → Option (ℕ × ℕ)
  | [] => none
  | byte :: rest =>
    if byte.toNat < 128 then some (byte.toNat, 1)
    else (decode rest).map fun read => (byte.toNat % 128 + 128 * read.1, read.2 + 1)

theorem decode_last {byte : UInt8} (h : byte.toNat < 128) (rest : List UInt8) :
    decode (byte :: rest) = some (byte.toNat, 1) := by
  rw [decode, if_pos h]

theorem decode_more {byte : UInt8} (h : 128 ≤ byte.toNat) (rest : List UInt8) :
    decode (byte :: rest) =
      (decode rest).map fun read => (byte.toNat % 128 + 128 * read.1, read.2 + 1) := by
  rw [decode, if_neg (by omega)]

theorem decode_encoded (n : ℕ) (tail : List UInt8) :
    decode (encode n ++ tail) = some (n, (encode n).length) := by
  induction n using Nat.strong_induction_on with
  | _ n ih =>
    rcases lt_or_ge n 128 with hlt | hge
    · have hbyte : (UInt8.ofNat n).toNat = n := by
        rw [UInt8.toNat_ofNat']
        omega
      rw [encode_lt hlt, singleton_append, decode_last (by omega), hbyte]
      rfl
    · have hbyte : (UInt8.ofNat (n % 128 + 128)).toNat = n % 128 + 128 := by
        rw [UInt8.toNat_ofNat']
        omega
      rw [encode_ge hge, cons_append, decode_more (by omega), ih (n / 128) (by omega),
        Option.map_some, hbyte, length_cons]
      congr 2
      omega

/-- A varint has a byte, and is all there. -/
theorem decode_length {p : List UInt8} {n len : ℕ} (h : decode p = some (n, len)) :
    0 < len ∧ len ≤ p.length := by
  induction p generalizing n len with
  | nil => cases h
  | cons byte rest ih =>
    rcases lt_or_ge byte.toNat 128 with hlt | hge
    · rw [decode_last hlt, Option.some.injEq, Prod.mk.injEq] at h
      rw [length_cons]
      omega
    · rw [decode_more hge] at h
      obtain ⟨⟨m, k⟩, hread, heq⟩ := Option.map_eq_some_iff.mp h
      have hk := ih hread
      have hlen : k + 1 = len := congrArg Prod.snd heq
      rw [length_cons]
      omega

theorem length_encode_le {n : ℕ} : ∀ {k : ℕ}, 0 < k → n < 2 ^ (7 * k) → (encode n).length ≤ k := by
  induction n using Nat.strong_induction_on with
  | _ n ih =>
    intro k hk hn
    rcases lt_or_ge n 128 with hlt | hge
    · rw [encode_lt hlt]
      exact hk
    · obtain ⟨k, rfl⟩ : ∃ k', k = k' + 1 := ⟨k - 1, by omega⟩
      have hpow : 2 ^ (7 * (k + 1)) = 128 * 2 ^ (7 * k) := by ring
      have hk : 0 < k := by
        rcases Nat.eq_zero_or_pos k with rfl | hk
        · norm_num at hn
          omega
        · exact hk
      have hrest := ih (n / 128) (by omega) hk (by omega)
      rw [encode_ge hge, length_cons]
      omega

theorem toNat_and_low (byte : UInt8) : (byte &&& 0x7f).toNat = byte.toNat % 128 := by
  rw [UInt8.toNat_and]
  exact Nat.and_two_pow_sub_one_eq_mod byte.toNat 7

theorem and_high_eq_zero_iff (byte : UInt8) : byte &&& 0x80 = 0 ↔ byte.toNat < 128 := by
  have hlt := UInt8.toNat_lt byte
  rw [← UInt8.toNat_inj, UInt8.toNat_and]
  show byte.toNat &&& 2 ^ 7 = 0 ↔ _
  rw [Nat.and_two_pow, Nat.testBit_eq_decide_div_mod_eq]
  by_cases h : byte.toNat < 128
  · simp [h, show byte.toNat / 128 % 2 = 0 by omega]
  · simp [h, show byte.toNat / 128 % 2 = 1 by omega]

/-- Or-ing seven bits above an accumulator adds them. -/
theorem toNat_or_shift {acc low : UInt64} {shift : ℕ} (hs : shift < 64)
    (hacc : acc.toNat < 2 ^ shift) (hlow : low.toNat * 2 ^ shift < 2 ^ 64) :
    (acc ||| low <<< .ofNat shift).toNat = acc.toNat + low.toNat * 2 ^ shift := by
  have hshift : (UInt64.ofNat shift).toNat % 64 = shift := by
    rw [UInt64.toNat_ofNat']
    omega
  rw [UInt64.toNat_or, UInt64.toNat_shiftLeft, hshift, Nat.shiftLeft_eq,
    Nat.mod_eq_of_lt hlow, Nat.or_comm, ← Nat.shiftLeft_eq, ← Nat.shiftLeft_add_eq_or_of_lt hacc,
    add_comm]

end Leb128
