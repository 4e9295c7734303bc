import AxisBridge.CoreIr.CanonicalSpec
import AxisBridge.Emit.Pool

/-! The payloads of the pool: what is encoded is decoded, and what else the decoders make of
bytes. -/
namespace AxisBridge
open List Leb128 Option
open UInt64 (ofNat toNat_ofNat' ofNat_toNat)

/-! ### The codecs -/

def zigzag (v : Int64) : UInt64 := (v <<< 1 ^^^ v >>> 63).toUInt64

/-- The loop is that of `write_varint`, here and in the other encoders. -/
def encodeIntPayload (v : Int64) : Bytes := writeVarint (zigzag v)

def encodeTextPayload (v : Str) : Bytes := writeBytes v.asBytes

def encodeBytesPayload (v : Vec UInt8) : Bytes := writeBytes v.toList

/-- The loop over a varint, with the words of its errors. -/
def lengthLoop (truncated overflow : String) (pos shift : ℕ) (len : UInt64) :
    Bytes → Res (UInt64 × ℕ)
  | [] => .error (.err truncated)
  | byte :: rest =>
    if byte &&& 0x80 = 0 then .ok (addBits len byte shift, pos + 1)
    else if shift + 7 ≥ 64 then .error (.err overflow)
    else lengthLoop truncated overflow (pos + 1) (shift + 7) (addBits len byte shift) rest

def decodeBytesPayload (payload : Bytes) : Res (Vec UInt8) := do
  let (len, pos) ← lengthLoop "truncated bytes length" "bytes length varint overflow" 0 0 0 payload
  -- `pos + len` wraps past the check, and the slice then ends before it starts
  if pos + len.toNat ≥ 2 ^ 64 then
    throw (.panic s!"slice index starts at {pos} but ends at {pos + len.toNat - 2 ^ 64}")
  if pos + len.toNat > payload.length then throw (.err "truncated bytes payload")
  toVec ((payload.drop pos).take len.toNat)

/-! ### Zigzag -/

section
variable (x : BitVec 64) {i : ℕ}

theorem getLsbD_sign (hi : i < 64) : (x.sshiftRight 63).getLsbD i = x.msb := by
  rw [BitVec.getLsbD_sshiftRight, BitVec.msb_eq_getLsbD_last]
  by_cases h0 : i = 0
  · subst h0
    simp
  · have hlong : ¬ 63 + i < 64 := by omega
    simp only [hlong, if_false]
    simp [hi]

/-- All bits one place up, and turned where the sign is set. -/
theorem getLsbD_zigzag (hi : i < 64) : (x <<< 1 ^^^ x.sshiftRight 63).getLsbD i =
    ((decide (0 < i) && x.getLsbD (i - 1)) ^^ x.msb) := by
  rw [BitVec.getLsbD_xor, getLsbD_sign x hi, BitVec.getLsbD_shiftLeft]
  by_cases h0 : i = 0
  · subst h0
    simp
  · have hpos : 0 < i := by omega
    have hone : ¬ i < 1 := by omega
    simp [hi, hpos, hone]

theorem getLsbD_neg_low (hi : i < 64) :
    (-((x <<< 1 ^^^ x.sshiftRight 63) &&& 1#64)).getLsbD i = x.msb := by
  have hlow : (x <<< 1 ^^^ x.sshiftRight 63) &&& 1#64 = if x.msb then 1#64 else 0#64 := by
    apply BitVec.eq_of_getLsbD_eq
    intro j hj
    rw [BitVec.getLsbD_and, getLsbD_zigzag x hj]
    by_cases h0 : j = 0
    · subst h0
      cases x.msb <;> rfl
    · have hone : (1#64).getLsbD j = false := by
        rw [BitVec.getLsbD_one]
        simp [h0]
      rw [hone, Bool.and_false]
      cases x.msb
      · simp
      · exact hone.symm
  rw [hlow]
  cases x.msb
  · simp
  · have hneg : -(1#64) = BitVec.allOnes 64 := rfl
    rw [if_pos rfl, hneg, BitVec.getLsbD_allOnes]
    exact decide_eq_true hi

theorem unzigzag_zigzag : (x <<< 1 ^^^ x.sshiftRight 63) >>> 1 ^^^
    -((x <<< 1 ^^^ x.sshiftRight 63) &&& 1#64) = x := by
  apply BitVec.eq_of_getLsbD_eq
  intro i hi
  rw [BitVec.getLsbD_xor, getLsbD_neg_low x hi, BitVec.getLsbD_ushiftRight]
  by_cases hlast : i = 63
  · subst hlast
    have hout : (x <<< 1 ^^^ x.sshiftRight 63).getLsbD (1 + 63) = false :=
      BitVec.getLsbD_of_ge _ _ (le_refl _)
    rw [hout, BitVec.msb_eq_getLsbD_last, Bool.false_xor]
  · have hpos : 0 < 1 + i := by omega
    have hsub : 1 + i - 1 = i := by omega
    rw [getLsbD_zigzag x (by omega), decide_eq_true hpos, hsub, Bool.true_and, Bool.xor_assoc,
      Bool.xor_self, Bool.xor_false]

end

theorem zigzag_decoded (v : Int64) :
    (zigzag v >>> 1).toInt64 ^^^ -(zigzag v &&& 1).toInt64 = v := by
  apply Int64.toBitVec_inj.mp
  have hround := unzigzag_zigzag v.toBitVec
  simpa [zigzag] using hround

/-! ### The loop -/

section
variable {truncated overflow : String} {pos k n len : ℕ} {acc : UInt64} {p : Bytes}

/-- Bits above the sixty-fourth are dropped. -/
theorem toNat_addBits {shift : ℕ} (byte : UInt8) (hs : shift < 64) (hacc : acc.toNat < 2 ^ shift) :
    (addBits acc byte shift).toNat = (acc.toNat + byte.toNat % 128 * 2 ^ shift) % 2 ^ 64 := by
  have hbyte : (byte &&& 0x7f).toUInt64.toNat = byte.toNat % 128 := by
    rw [UInt8.toNat_toUInt64, toNat_and_low]
  have hshift : (ofNat shift).toNat % 64 = shift := by
    rw [toNat_ofNat']
    omega
  have hpow : 2 ^ 64 = 2 ^ (64 - shift) * 2 ^ shift := by
    rw [← Nat.pow_add, Nat.sub_add_cancel (le_of_lt hs)]
  have hcut :
      byte.toNat % 128 * 2 ^ shift % 2 ^ 64 = byte.toNat % 128 % 2 ^ (64 - shift) * 2 ^ shift := by
    rw [hpow, Nat.mul_mod_mul_right]
  have hsum : acc.toNat + byte.toNat % 128 % 2 ^ (64 - shift) * 2 ^ shift < 2 ^ 64 := by
    have hlt : byte.toNat % 128 % 2 ^ (64 - shift) < 2 ^ (64 - shift) :=
      Nat.mod_lt _ (Nat.two_pow_pos _)
    have hmul :
        (byte.toNat % 128 % 2 ^ (64 - shift) + 1) * 2 ^ shift ≤ 2 ^ (64 - shift) * 2 ^ shift :=
      Nat.mul_le_mul_right _ hlt
    rw [Nat.add_mul, one_mul, ← hpow] at hmul
    omega
  rw [addBits, UInt64.toNat_or, UInt64.toNat_shiftLeft, hshift, hbyte, Nat.shiftLeft_eq, hcut,
    Nat.or_comm,
    ← Nat.shiftLeft_eq, ← Nat.shiftLeft_add_eq_or_of_lt hacc, Nat.shiftLeft_eq, Nat.add_mod,
    hcut, Nat.mod_eq_of_lt (lt_of_le_of_lt (Nat.le_add_right _ _) hsum), Nat.mod_eq_of_lt hsum,
    add_comm]

theorem lengthLoop_ok (truncated overflow : String) (pos : ℕ) (hk : k ≤ 9)
    (hacc : acc.toNat < 2 ^ (7 * k)) (h : decode p = some (n, len)) (hlen : k + len ≤ 10) :
    lengthLoop truncated overflow pos (7 * k) acc p =
      .ok (.ofNat (acc.toNat + n * 2 ^ (7 * k)), pos + len) := by
  induction p generalizing pos k acc n len with
  | nil => cases h
  | cons byte rest ih =>
    have hadd := toNat_addBits byte (show 7 * k < 64 by omega) hacc
    rcases lt_or_ge byte.toNat 128 with hlt | hge
    · rw [decode_last hlt, some.injEq, Prod.mk.injEq] at h
      obtain ⟨rfl, rfl⟩ := h
      rw [lengthLoop, if_pos ((and_high_eq_zero_iff byte).mpr hlt)]
      rw [Nat.mod_eq_of_lt hlt] at hadd
      have hval : addBits acc byte (7 * k) = .ofNat (acc.toNat + byte.toNat * 2 ^ (7 * k)) := by
        apply UInt64.toNat_inj.mp
        rw [hadd, toNat_ofNat']
      rw [hval]
    · rw [decode_more hge] at h
      obtain ⟨⟨m, more⟩, hread, heq⟩ := Option.map_eq_some_iff.mp h
      obtain ⟨rfl, rfl⟩ := Prod.mk.inj heq
      have hmore := (decode_length hread).1
      have hlow : byte.toNat % 128 < 128 := Nat.mod_lt _ (by omega)
      have hgroup := group_lt hacc hlow
      have hpow : 2 ^ (7 * (k + 1)) ≤ 2 ^ 64 := Nat.pow_le_pow_right (by omega) (by omega)
      rw [Nat.mod_eq_of_lt (lt_of_lt_of_le hgroup hpow)] at hadd
      have hstep : lengthLoop truncated overflow pos (7 * k) acc (byte :: rest) = lengthLoop
          truncated overflow (pos + 1) (7 * (k + 1)) (addBits acc byte (7 * k)) rest := by
        rw [lengthLoop, if_neg ((and_high_eq_zero_iff byte).not.mpr (by omega)), if_neg (by omega)]
        rfl
      rw [hstep, ih _ (by omega) (by rw [hadd]; exact hgroup) hread (by omega), hadd, group_split]
      congr 2
      · rw [add_assoc]
      · omega

theorem lengthLoop_err (hk : k ≤ 9) (h : ∀ n len, decode p = some (n, len) → 10 < k + len) :
    ∃ msg, lengthLoop truncated overflow pos (7 * k) acc p = .error (.err msg) := by
  induction p generalizing pos k acc with
  | nil => exact ⟨truncated, rfl⟩
  | cons byte rest ih =>
    rcases lt_or_ge byte.toNat 128 with hlt | hge
    · have hone := h byte.toNat 1 (decode_last hlt rest)
      omega
    · rw [lengthLoop, if_neg ((and_high_eq_zero_iff byte).not.mpr (by omega))]
      by_cases hlast : 7 * k + 7 ≥ 64
      · exact ⟨overflow, by rw [if_pos hlast]⟩
      · rw [if_neg hlast]
        have hshift : 7 * k + 7 = 7 * (k + 1) := by omega
        rw [hshift]
        apply ih (by omega)
        intro n len hread
        have hall := h _ _ (by rw [decode_more hge, hread]; rfl)
        omega

end

/-! ### The decoders -/

/-- A varint of at most ten bytes, at the head of the bytes. -/
def VarintAt (p : Bytes) (n len : ℕ) : Prop := decode p = some (n, len) ∧ len ≤ 10

section
variable {truncated overflow : String} {pos shift n len : ℕ} {acc : UInt64} {p : Bytes}

theorem unsignedLoop_eq (p : Bytes) (acc : UInt64) (pos shift : ℕ) :
    unsignedLoop acc shift p = Prod.fst <$> lengthLoop "truncated unsigned varint"
      "unsigned varint overflow" pos shift acc p := by
  induction p generalizing acc pos shift with
  | nil => rfl
  | cons byte rest ih =>
    rw [unsignedLoop, lengthLoop, ih _ (pos + 1)]
    split_ifs <;> rfl

theorem intLoop_eq (p : Bytes) (acc : UInt64) (pos shift : ℕ) : intLoop acc shift p =
    Prod.fst <$> lengthLoop "truncated int payload" "int varint overflow" pos shift acc p := by
  induction p generalizing acc pos shift with
  | nil => rfl
  | cons byte rest ih =>
    rw [intLoop, lengthLoop, ih _ (pos + 1)]
    split_ifs <;> rfl

theorem textLength_eq (p : Bytes) (acc : UInt64) (pos shift : ℕ) : textLength pos shift acc p =
    lengthLoop "truncated text length" "text length varint overflow" pos shift acc p := by
  induction p generalizing acc pos shift with
  | nil => rfl
  | cons byte rest ih => rw [textLength, lengthLoop, ih]

theorem lengthLoop_at (h : VarintAt p n len) :
    lengthLoop truncated overflow 0 0 0 p = .ok (.ofNat n, len) := by
  have hlen : 0 + len ≤ 10 := by
    rw [zero_add]
    exact h.2
  have hzero : (0 : UInt64).toNat < 2 ^ (7 * 0) := by decide
  have hloop := lengthLoop_ok truncated overflow 0 (by omega) hzero h.1 hlen
  simpa using hloop

theorem lengthLoop_none (h : ¬ ∃ n len, VarintAt p n len) :
    ∃ msg, lengthLoop truncated overflow 0 0 0 p = .error (.err msg) := by
  apply lengthLoop_err (k := 0) (by omega)
  intro n len hread
  by_contra hle
  exact h ⟨n, len, hread, by omega⟩

theorem decodeUnsigned_eq (p : Bytes) : decodeUnsignedVarint p =
    Prod.fst <$> lengthLoop "truncated unsigned varint" "unsigned varint overflow" 0 0 0 p :=
  unsignedLoop_eq p 0 0 0

theorem decodeInt_eq (p : Bytes) : decodeIntPayload p =
    (fun read : UInt64 × ℕ => (read.1 >>> 1).toInt64 ^^^ -(read.1 &&& 1).toInt64) <$>
      lengthLoop "truncated int payload" "int varint overflow" 0 0 0 p := by
  rw [decodeIntPayload, intLoop_eq p 0 0 0]
  cases lengthLoop "truncated int payload" "int varint overflow" 0 0 0 p <;> rfl

/-- The bytes behind a length. -/
def slice (truncated : String) (payload : Bytes) (len : UInt64) (pos : ℕ) : Res Bytes :=
  if pos + len.toNat ≥ 2 ^ 64 then
    .error (.panic s!"slice index starts at {pos} but ends at {pos + len.toNat - 2 ^ 64}")
  else if pos + len.toNat > payload.length then .error (.err truncated)
  else .ok ((payload.drop pos).take len.toNat)

/-- A varint, and as many bytes as it says. -/
def prefixed (truncated overflow truncated' : String) (payload : Bytes) : Res (Vec UInt8) := do
  let (len, pos) ← lengthLoop truncated overflow 0 0 0 payload
  toVec (← slice truncated' payload len pos)

theorem decodeBytes_eq (p : Bytes) :
    decodeBytesPayload p = prefixed "truncated bytes length" "bytes length varint overflow"
      "truncated bytes payload" p := by
  rw [decodeBytesPayload, prefixed]
  cases lengthLoop "truncated bytes length" "bytes length varint overflow" 0 0 0 p with
  | error e => rfl
  | ok read =>
    obtain ⟨v, len⟩ := read
    simp only [Res.ok_bind, slice]
    split_ifs <;> rfl

theorem decodeText_eq (p : Bytes) : decodeTextPayload p =
    prefixed "truncated text length" "text length varint overflow" "truncated text payload" p >>=
      fromUtf8 "text UTF-8 error" := by
  rw [decodeTextPayload, prefixed, textLength_eq]
  cases lengthLoop "truncated text length" "text length varint overflow" 0 0 0 p with
  | error e => rfl
  | ok read =>
    obtain ⟨v, len⟩ := read
    simp only [Res.ok_bind, slice]
    split_ifs <;> rfl

end

/-! ### Round trips -/

/-- What is written in front of some bytes is read back. -/
theorem varintAt_writeVarint (v : UInt64) (tail : Bytes) :
    VarintAt (writeVarint v ++ tail) v.toNat (writeVarint v).length := by
  have hpow : (2 : ℕ) ^ 64 < 2 ^ (7 * 10) := by decide
  have hshort : (encode v.toNat).length ≤ 10 :=
    length_encode_le (by omega) (lt_trans (UInt64.toNat_lt v) hpow)
  rw [writeVarint_eq]
  exact ⟨decode_encoded v.toNat tail, hshort⟩

theorem decodeInt_encodeInt (v : Int64) : decodeIntPayload (encodeIntPayload v) = .ok v := by
  have hat := varintAt_writeVarint (zigzag v) []
  rw [append_nil] at hat
  rw [decodeInt_eq, encodeIntPayload, lengthLoop_at hat, ofNat_toNat]
  exact congrArg Except.ok (zigzag_decoded v)

theorem slice_writeBytes (truncated : String) {data : Bytes} (h : data.length < 2 ^ 63) :
    slice truncated (writeBytes data) (.ofNat data.length)
      (writeVarint (.ofNat data.length)).length = .ok data := by
  have hlen : (ofNat data.length).toNat = data.length := by
    rw [toNat_ofNat']
    omega
  have hshort := (varintAt_writeVarint (.ofNat data.length) []).2
  have hall : (writeBytes data).length = (writeVarint (.ofNat data.length)).length + data.length :=
    length_append
  rw [slice, hlen, if_neg (by omega), if_neg (by omega), writeBytes, drop_left, take_length]

theorem prefixed_writeBytes (truncated overflow truncated' : String) (v : Vec UInt8) :
    prefixed truncated overflow truncated' (writeBytes v.toList) = .ok v := by
  have hat := varintAt_writeVarint (.ofNat v.toList.length) v.toList
  rw [← writeBytes] at hat
  rw [prefixed, lengthLoop_at hat, Res.ok_bind, ofNat_toNat]
  dsimp only
  rw [slice_writeBytes truncated' v.length_lt, Res.ok_bind]
  exact toVec_eq_ok.mpr rfl

theorem decodeBytes_encodeBytes (v : Vec UInt8) :
    decodeBytesPayload (encodeBytesPayload v) = .ok v := by
  rw [decodeBytes_eq]
  exact prefixed_writeBytes _ _ _ v

theorem decodeText_encodeText (v : Str) : decodeTextPayload (encodeTextPayload v) = .ok v := by
  have hread := prefixed_writeBytes "truncated text length" "text length varint overflow"
    "truncated text payload" ⟨v.asBytes, v.size_lt⟩
  rw [decodeText_eq, encodeTextPayload, hread, Res.ok_bind]
  exact fromUtf8_eq_ok.mpr rfl

/-! ### Arbitrary bytes -/

/-- A value, where this holds, or an error: no panic. -/
def Answers {α : Type} (r : Res α) (ok : Prop) : Prop :=
  (∃ x, r = .ok x) ∧ ok ∨ ∃ msg, r = .error (.err msg)

/-- A varint that fits 64 bits. -/
def Whole (p : Bytes) : Prop := ∃ n len, decode p = some (n, len) ∧ n < 2 ^ 64

/-- And the length that it declares fits the bytes behind it. -/
def Framed (p : Bytes) : Prop :=
  ∃ n len, decode p = some (n, len) ∧ n < 2 ^ 64 ∧ len + n ≤ p.length

structure Exact (p : Vec UInt8) : Prop where
  unsigned : Answers (decodeUnsignedVarint p.toList) (Whole p.toList)
  int : Answers (decodeIntPayload p.toList) (Whole p.toList)
  text : Answers (decodeTextPayload p.toList) (Framed p.toList)
  bytes : Answers (decodeBytesPayload p.toList) (Framed p.toList)

section
variable {α β : Type} {p : Vec UInt8} {n len : ℕ}
variable {ok : Prop} {r : Res α}

theorem Answers.map (f : α → β) (h : Answers r ok) : Answers (f <$> r) ok := by
  rcases h with ⟨⟨x, rfl⟩, hok⟩ | ⟨msg, rfl⟩
  · exact .inl ⟨⟨f x, rfl⟩, hok⟩
  · exact .inr ⟨msg, rfl⟩

theorem Answers.imp {ok' : Prop} (h : Answers r ok) (himp : ok → ok') : Answers r ok' := by
  rcases h with ⟨hx, hok⟩ | hmsg
  · exact .inl ⟨hx, himp hok⟩
  · exact .inr hmsg

theorem Answers.bind {ok' : Prop} {f : α → Res β} (h : Answers r ok)
    (hf : ∀ x, r = .ok x → ok → Answers (f x) ok') : Answers (r >>= f) ok' := by
  rcases h with ⟨⟨x, rfl⟩, hok⟩ | ⟨msg, rfl⟩
  · exact hf x rfl hok
  · exact .inr ⟨msg, rfl⟩

theorem lengthLoop_answers (truncated overflow : String) (p : Bytes) :
    Answers (lengthLoop truncated overflow 0 0 0 p) (∃ n len, VarintAt p n len) := by
  by_cases hat : ∃ n len, VarintAt p n len
  · obtain ⟨n, len, hat⟩ := hat
    exact .inl ⟨⟨_, lengthLoop_at hat⟩, n, len, hat⟩
  · exact .inr (lengthLoop_none hat)

/-- No panic behind a length that does not pass the end of the addresses. -/
theorem slice_answers (truncated : String) (hat : VarintAt p.toList n len) (hn : n < 2 ^ 64)
    (hend : len + n < 2 ^ 64) :
    Answers (slice truncated p.toList (.ofNat n) len) (Framed p.toList) := by
  have hval : (ofNat n).toNat = n := by
    rw [toNat_ofNat']
    omega
  rw [slice, hval, if_neg (by omega)]
  by_cases hpast : len + n > p.toList.length
  · rw [if_pos hpast]
    exact .inr ⟨truncated, rfl⟩
  · rw [if_neg hpast]
    exact .inl ⟨⟨_, rfl⟩, n, len, hat.1, hn, by omega⟩

theorem slice_length {truncated : String} {v : UInt64} {data : Bytes}
    (h : slice truncated p.toList v len = .ok data) : data.length < 2 ^ 63 := by
  have hp := p.length_lt
  rw [slice] at h
  split_ifs at h
  obtain rfl := Except.ok.inj h
  rw [length_take, length_drop]
  omega

theorem fromUtf8_answers (what : String) (data : Vec UInt8) (hok : ok) :
    Answers (fromUtf8 what data) ok := by
  rw [fromUtf8]
  split
  · exact .inl ⟨⟨_, rfl⟩, hok⟩
  · split <;> exact .inr ⟨_, rfl⟩

/-- Neither is the varint cut, nor does its length pass the end of the addresses. -/
def FitsWord (p : Vec UInt8) : Prop :=
  ∀ n len, VarintAt p.toList n len → n < 2 ^ 64 ∧ len + n < 2 ^ 64

theorem FitsWord.whole (h : FitsWord p) (hat : ∃ n len, VarintAt p.toList n len) :
    Whole p.toList := by
  obtain ⟨n, len, hat⟩ := hat
  exact ⟨n, len, hat.1, (h n len hat).1⟩

theorem FitsWord.framed (h : FitsWord p) (truncated overflow truncated' : String) :
    Answers (prefixed truncated overflow truncated' p.toList) (Framed p.toList) := by
  apply (lengthLoop_answers truncated overflow p.toList).bind
  rintro read hread ⟨n, len, hat⟩
  rw [lengthLoop_at hat] at hread
  obtain rfl := Except.ok.inj hread
  obtain ⟨hn, hend⟩ := h n len hat
  apply (slice_answers truncated' hat hn hend).bind
  intro data hdata hframed
  have hvec : toVec data = .ok ⟨data, slice_length hdata⟩ := toVec_eq_ok.mpr rfl
  exact .inl ⟨⟨_, hvec⟩, hframed⟩

theorem exact_of_fitsWord (h : FitsWord p) : Exact p := by
  constructor
  · rw [decodeUnsigned_eq]
    apply Answers.map
    exact (lengthLoop_answers _ _ p.toList).imp h.whole
  · rw [decodeInt_eq]
    apply Answers.map
    exact (lengthLoop_answers _ _ p.toList).imp h.whole
  · rw [decodeText_eq]
    apply (h.framed _ _ _).bind
    intro data _ hframed
    exact fromUtf8_answers _ data hframed
  · rw [decodeBytes_eq]
    exact h.framed _ _ _

theorem fitsWord_of_exact (h : Exact p) : FitsWord p := by
  intro n len hat
  have hn : n < 2 ^ 64 := by
    have hunsigned := h.unsigned
    rw [decodeUnsigned_eq, lengthLoop_at hat] at hunsigned
    rcases hunsigned with ⟨-, n', len', hread, hlt⟩ | ⟨msg, hmsg⟩
    · have heq := hat.1.symm.trans hread
      obtain ⟨rfl, rfl⟩ := Prod.mk.inj (some.inj heq)
      exact hlt
    · cases hmsg
  refine ⟨hn, ?_⟩
  by_contra hpast
  have hval : (ofNat n).toNat = n := by
    rw [toNat_ofNat']
    omega
  have hbytes := h.bytes
  rw [decodeBytes_eq, prefixed, lengthLoop_at hat, Res.ok_bind] at hbytes
  dsimp only at hbytes
  rw [slice, hval, if_pos (by omega)] at hbytes
  rcases hbytes with ⟨⟨x, hx⟩, -⟩ | ⟨msg, hmsg⟩
  · cases hx
  · cases hmsg

end

/-- Round trips of every value; on other bytes the decoders are exact just when the varint fits. -/
theorem payload_codecs (v : Int64) (s : Str) (b p : Vec UInt8) :
    decodeIntPayload (encodeIntPayload v) = .ok v ∧
      decodeTextPayload (encodeTextPayload s) = .ok s ∧
      decodeBytesPayload (encodeBytesPayload b) = .ok b ∧ (Exact p ↔ FitsWord p) :=
  ⟨decodeInt_encodeInt v, decodeText_encodeText s, decodeBytes_encodeBytes b,
    fitsWord_of_exact, exact_of_fitsWord⟩

/-- The tenth byte says a bit that `u64` has no place for. -/
def tenthByte : Vec UInt8 := ⟨replicate 9 0xff ++ [0x03], by decide⟩

theorem tenthByte_cut : decodeUnsignedVarint tenthByte.toList = .ok 0xffffffffffffffff ∧
    decode tenthByte.toList = some (2 ^ 65 - 1, 10) ∧ ¬ Exact tenthByte := by
  have hread : decode tenthByte.toList = some (2 ^ 65 - 1, 10) := by decide
  have hcut : ofNat (2 ^ 65 - 1) = 0xffffffffffffffff := by decide
  refine ⟨?_, hread, ?_⟩
  · rw [decodeUnsigned_eq, lengthLoop_at ⟨hread, le_refl 10⟩, hcut]
    rfl
  intro h
  exact absurd (fitsWord_of_exact h _ _ ⟨hread, le_refl 10⟩).1 (by decide)

end AxisBridge
