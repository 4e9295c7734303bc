import AxisBridge.CoreIr.Canonical

/-! Writer and reader of the canonical bytes, field by field: each undoes the other exactly. -/
namespace AxisBridge
open List Codec Leb128
open UInt64 (toNat toNat_zero ofNat ofNat_toNat toNat_lt)
open UInt8 (toNat_inj toNat_ofNat')

theorem toUInt8_and_low (v : UInt64) : (v &&& 0x7f).toUInt8 = UInt8.ofNat (v.toNat % 128) := by
  apply toNat_inj.mp
  have hand : v.toNat &&& 127 = v.toNat % 128 := Nat.and_two_pow_sub_one_eq_mod v.toNat 7
  simp only [UInt64.toNat_toUInt8, UInt64.toNat_and, UInt64.reduceToNat, hand, toNat_ofNat']

theorem or_high {low : ℕ} (h : low < 128) : UInt8.ofNat low ||| 0x80 = UInt8.ofNat (low + 128) := by
  apply toNat_inj.mp
  have hor : low ||| 128 = low + 128 := by
    rw [Nat.or_comm, add_comm]
    exact (Nat.two_pow_add_eq_or_of_lt (i := 7) h 1).symm
  simp only [UInt8.toNat_or, toNat_ofNat', UInt8.reduceToNat,
    Nat.mod_eq_of_lt (show low < 2 ^ 8 by omega), hor,
    Nat.mod_eq_of_lt (show low + 128 < 2 ^ 8 by omega)]

theorem toNat_shiftRight_seven (v : UInt64) : (v >>> 7).toNat = v.toNat / 128 := by
  simp [UInt64.toNat_shiftRight, Nat.shiftRight_eq_div_pow]

/-- The writer emits the minimal LEB128 form. -/
theorem writeVarint_eq (v : UInt64) : writeVarint v = encode v.toNat := by
  induction v using writeVarint.induct with
  | case1 v h =>
    have hlt : v.toNat < 128 := by
      have hzero := congrArg toNat h
      rw [toNat_shiftRight_seven, toNat_zero] at hzero
      omega
    rw [writeVarint, dif_pos h, encode_lt hlt, toUInt8_and_low, Nat.mod_eq_of_lt hlt]
  | case2 v h ih =>
    have hge : 128 ≤ v.toNat := by
      by_contra hlt
      refine h (UInt64.toNat_inj.mp ?_)
      rw [toNat_shiftRight_seven, toNat_zero]
      omega
    rw [writeVarint, dif_neg h, ih, toNat_shiftRight_seven, encode_ge hge, toUInt8_and_low,
      or_high (Nat.mod_lt _ (by norm_num))]

variable {acc : UInt64} {byte : UInt8} {k n : ℕ} {c c' : Cursor UInt8}

/-- The accumulator after one byte of the loop. -/
theorem toNat_step {shift : ℕ} (byte : UInt8) (hs : shift < 64)
    (hacc : acc.toNat < 2 ^ shift) (hlow : byte.toNat % 128 * 2 ^ shift < 2 ^ 64) :
    (acc ||| (byte &&& 0x7f).toUInt64 <<< ofNat shift).toNat =
      acc.toNat + byte.toNat % 128 * 2 ^ shift := by
  have hbyte : (byte &&& 0x7f).toUInt64.toNat = byte.toNat % 128 := by
    rw [UInt8.toNat_toUInt64, toNat_and_low]
  rw [toNat_or_shift hs hacc (by rwa [hbyte]), hbyte]

/-- The overflow guard, over the naturals. -/
theorem overflow_iff {shift : ℕ} :
    (decide (shift ≥ 64) || (shift == 63 && decide ((byte &&& 0x7f) > 1))) = true ↔
      64 ≤ shift ∨ (shift = 63 ∧ 1 < byte.toNat % 128) := by
  simp only [Bool.or_eq_true, decide_eq_true_eq, Bool.and_eq_true, beq_iff_eq, ge_iff_le, gt_iff_lt,
    UInt8.lt_iff_toNat_lt, toNat_and_low, UInt8.reduceToNat]

/-- Seven more bits on top of `k` groups still fit below `k + 1` groups. -/
theorem group_lt {acc low : ℕ} (hacc : acc < 2 ^ (7 * k)) (hlow : low < 128) :
    acc + low * 2 ^ (7 * k) < 2 ^ (7 * (k + 1)) := by
  have hpow : 2 ^ (7 * (k + 1)) = 128 * 2 ^ (7 * k) := by ring
  have hmul : low * 2 ^ (7 * k) ≤ 127 * 2 ^ (7 * k) := Nat.mul_le_mul_right _ (by omega)
  omega

theorem group_split (low m k : ℕ) :
    (low + 128 * m) * 2 ^ (7 * k) = low * 2 ^ (7 * k) + m * 2 ^ (7 * (k + 1)) := by
  ring

/-- The last group of 64 bits has room for one bit only. -/
theorem group_le (hk : k = 9) (hn : n * 2 ^ (7 * k) < 2 ^ 64) : n ≤ 1 := by
  subst hk
  norm_num at hn
  omega

theorem varintLoop_last {start pos : ℕ} {tail : Bytes}
    (hk : k ≤ 9) (hacc : acc.toNat < 2 ^ (7 * k)) (hbyte : byte.toNat < 128)
    (hn : byte.toNat * 2 ^ (7 * k) < 2 ^ 64) (hmin : byte = 0 → pos = start) :
    varintLoop start pos (7 * k) acc (byte :: tail) =
      .ok (ofNat (acc.toNat + byte.toNat * 2 ^ (7 * k)), pos + 1) := by
  have hmod : byte.toNat % 128 = byte.toNat := Nat.mod_eq_of_lt hbyte
  have hguard : ¬ (64 ≤ 7 * k ∨ (7 * k = 63 ∧ 1 < byte.toNat % 128)) := by
    rintro (h | ⟨h, hgt⟩)
    · omega
    · have := group_le (show k = 9 by omega) hn
      omega
  have hzero : (byte == 0 && decide (pos + 1 - start > 1)) = false := by
    by_cases h0 : byte = 0
    · have := hmin h0
      simp only [Bool.and_eq_false_iff, decide_eq_false_iff_not]
      omega
    · simp [h0]
  rw [varintLoop, if_neg (overflow_iff.not.mpr hguard),
    if_pos ((and_high_eq_zero_iff byte).mpr hbyte), hzero]
  have hval := toNat_step byte (show 7 * k < 64 by omega) hacc (by rwa [hmod])
  rw [hmod] at hval
  rw [← hval, ofNat_toNat]
  rfl

theorem varintLoop_more {start pos : ℕ} {tail : Bytes}
    (hguard : ¬ (64 ≤ 7 * k ∨ (7 * k = 63 ∧ 1 < byte.toNat % 128))) (hbyte : 128 ≤ byte.toNat) :
    varintLoop start pos (7 * k) acc (byte :: tail) = varintLoop start (pos + 1) (7 * (k + 1))
      (acc ||| (byte &&& 0x7f).toUInt64 <<< ofNat (7 * k)) tail := by
  rw [varintLoop, if_neg (overflow_iff.not.mpr hguard),
    if_neg ((and_high_eq_zero_iff byte).not.mpr (by omega))]
  rfl

/-- The loop reads a minimal encoding back, from any group on. -/
theorem varintLoop_encode {n : ℕ} : ∀ {start pos k : ℕ} {acc : UInt64} {tail : Bytes},
    k ≤ 9 → acc.toNat < 2 ^ (7 * k) → n * 2 ^ (7 * k) < 2 ^ 64 → (n = 0 → pos = start) →
    varintLoop start pos (7 * k) acc (encode n ++ tail) =
      .ok (ofNat (acc.toNat + n * 2 ^ (7 * k)), pos + (encode n).length) := by
  induction n using Nat.strong_induction_on with
  | _ n ih =>
    intro start pos k acc tail hk hacc hn hmin
    rcases lt_or_ge n 128 with hlt | hge
    · have hbyte : (UInt8.ofNat n).toNat = n := by
        rw [toNat_ofNat']
        omega
      rw [encode_lt hlt, singleton_append,
        varintLoop_last hk hacc (by omega) (by rwa [hbyte]) ?_, hbyte]
      · rfl
      · intro h0
        rw [h0, UInt8.toNat_zero] at hbyte
        exact hmin hbyte.symm
    · obtain ⟨low, m, hlow, hm, rfl⟩ : ∃ low m, low < 128 ∧ m ≠ 0 ∧ n = low + 128 * m :=
        ⟨n % 128, n / 128, by omega, by omega, by omega⟩
      have hk9 : k < 9 := by
        rcases lt_or_ge k 9 with h | h
        · exact h
        · have := group_le (show k = 9 by omega) hn
          omega
      have hbyte : (UInt8.ofNat (low + 128)).toNat = low + 128 := by
        rw [toNat_ofNat']
        omega
      have hmod : (UInt8.ofNat (low + 128)).toNat % 128 = low := by omega
      rw [group_split] at hn
      have hval := toNat_step (UInt8.ofNat (low + 128)) (show 7 * k < 64 by omega) hacc
        (by rw [hmod]; omega)
      rw [hmod] at hval
      rw [encode_cons hlow hm, cons_append, varintLoop_more (by omega) (by omega),
        ih m (by omega) (by omega) (by rw [hval]; exact group_lt hacc hlow) (by omega)
          (fun h => (hm h).elim), hval, group_split, length_cons]
      congr 2
      · rw [add_assoc]
      · omega

/-- Whatever the loop accepts is the minimal encoding of what it adds to the accumulator. -/
theorem varintLoop_sound {bytes : Bytes} : ∀ {start pos pos' k : ℕ} {acc v : UInt64},
    acc.toNat < 2 ^ (7 * k) → start ≤ pos → varintLoop start pos (7 * k) acc bytes = .ok (v, pos') →
    ∃ n tail, bytes = encode n ++ tail ∧ v.toNat = acc.toNat + n * 2 ^ (7 * k) ∧
    pos' = pos + (encode n).length ∧ (start < pos → n ≠ 0) := by
  induction bytes with
  | nil => simp [varintLoop]
  | cons byte bytes ih =>
    intro start pos pos' k acc v hacc hpos hok
    by_cases hguard : 64 ≤ 7 * k ∨ (7 * k = 63 ∧ 1 < byte.toNat % 128)
    · rw [varintLoop, if_pos (overflow_iff.mpr hguard)] at hok
      cases hok
    · have hk : k ≤ 9 := by omega
      have hlow : byte.toNat % 128 * 2 ^ (7 * k) < 2 ^ 64 := by
        rcases lt_or_ge k 9 with h9 | h9
        · have h8 : 2 ^ (7 * k) ≤ 2 ^ 56 := Nat.pow_le_pow_right (by norm_num) (by omega)
          have hmul : byte.toNat % 128 * 2 ^ (7 * k) ≤ 127 * 2 ^ 56 :=
            Nat.mul_le_mul (by omega) h8
          omega
        · have hone : byte.toNat % 128 ≤ 1 := by omega
          have hk9 : k = 9 := by omega
          subst hk9
          omega
      have hval := toNat_step byte (show 7 * k < 64 by omega) hacc hlow
      rcases lt_or_ge byte.toNat 128 with hlt | hge
      · have hmod : byte.toNat % 128 = byte.toNat := Nat.mod_eq_of_lt hlt
        have hmin : ¬ (byte = 0 ∧ start < pos) := by
          rintro ⟨rfl, hsp⟩
          have hpad : pos + 1 - start > 1 := by omega
          rw [varintLoop, if_neg (overflow_iff.not.mpr hguard),
            if_pos ((and_high_eq_zero_iff 0).mpr hlt), if_pos (by simp [hpad])] at hok
          cases hok
        have hstart : byte = 0 → pos = start := by
          intro h0
          have hle : ¬ start < pos := fun hsp => hmin ⟨h0, hsp⟩
          omega
        rw [varintLoop_last hk hacc hlt (by rwa [hmod] at hlow) hstart] at hok
        simp only [Except.ok.injEq, Prod.mk.injEq] at hok
        obtain ⟨rfl, rfl⟩ := hok
        have hzero : byte.toNat = 0 → byte = 0 := fun h => toNat_inj.mp h
        refine ⟨byte.toNat, bytes, ?_, ?_, ?_, fun hsp h0 => hmin ⟨hzero h0, hsp⟩⟩
        · rw [encode_lt hlt, UInt8.ofNat_toNat, singleton_append]
        · rw [hmod] at hval
          rw [← hval, ofNat_toNat]
        · rw [encode_lt hlt, length_singleton]
      · rw [varintLoop_more hguard hge] at hok
        obtain ⟨n, tail, rfl, hv, hp, hne⟩ :=
          ih (by rw [hval]; exact group_lt hacc (by omega)) (by omega) hok
        have hn0 : n ≠ 0 := hne (by omega)
        have hbyte : UInt8.ofNat (byte.toNat % 128 + 128) = byte := by
          apply toNat_inj.mp
          have := UInt8.toNat_lt byte
          rw [toNat_ofNat']
          omega
        have henc := encode_cons (Nat.mod_lt byte.toNat (show 0 < 128 by norm_num)) hn0
        rw [hbyte] at henc
        refine ⟨byte.toNat % 128 + 128 * n, tail, ?_, ?_, ?_, fun _ => by omega⟩
        · rw [henc, cons_append]
        · rw [group_split, hv, hval, add_assoc]
        · rw [hp, henc, length_cons]
          omega

theorem varint_eq {v : UInt64} : varint c = .ok (v, c') ↔
    ∃ pos, varintLoop c.pos c.pos 0 0 (c.b.drop c.pos) = .ok (v, pos) ∧
      c' = { c with pos := pos } := by
  unfold varint
  rw [Res.bind_eq_ok]
  constructor
  · rintro ⟨⟨w, pos⟩, hloop, hret⟩
    simp only [pure, Except.pure, Except.ok.injEq, Prod.mk.injEq] at hret
    obtain ⟨rfl, rfl⟩ := hret
    exact ⟨pos, hloop, rfl⟩
  · rintro ⟨pos, hloop, rfl⟩
    exact ⟨(v, pos), hloop, rfl⟩

theorem reads_varint (v : UInt64) : Reads varint (writeVarint v) v := by
  rintro c c' ⟨rfl, hd⟩
  rw [varint_eq]
  refine ⟨_, ?_, rfl⟩
  rw [hd, writeVarint_eq]
  have hlt := toNat_lt v
  have hloop := @varintLoop_encode v.toNat c.pos c.pos 0 0
    ((c.advance (writeVarint v).length).b.drop (c.advance (writeVarint v).length).pos)
    (by omega) (by simp) (by simpa using hlt) (fun _ => rfl)
  simpa [writeVarint_eq] using hloop

theorem exact_varint : Exact varint writeVarint := by
  intro c v c' hok
  obtain ⟨pos, hloop, rfl⟩ := varint_eq.mp hok
  obtain ⟨n, tail, hbytes, hv, hpos, -⟩ := varintLoop_sound (k := 0) (by simp) le_rfl hloop
  have hn : v.toNat = n := by simpa using hv
  have hspan : pos = c.pos + (writeVarint v).length := by rw [hpos, writeVarint_eq, hn]
  refine ⟨by rw [hspan]; rfl, ?_⟩
  have htail : c.b.drop pos = tail := by
    rw [hpos, ← drop_drop, hbytes, drop_left]
  rw [hbytes, writeVarint_eq, hn, htail]

theorem exact_take {w : Bytes} (h : take n c = .ok (w, c')) : w.length = n ∧ Spans c c' w := by
  unfold take at h
  split at h
  · cases h
  · simp only [Except.ok.injEq, Prod.mk.injEq] at h
    obtain ⟨rfl, rfl⟩ := h
    have hlen : ((c.b.drop c.pos).take n).length = n := by
      rw [length_take, length_drop]
      omega
    refine ⟨hlen, by rw [hlen], ?_⟩
    show c.b.drop c.pos = (c.b.drop c.pos).take n ++ c.b.drop (c.pos + n)
    rw [← drop_drop, take_append_drop]

theorem reads_take (w : Bytes) : Reads (take w.length) w w := by
  rintro c c' ⟨rfl, hd⟩
  have hlen := congrArg List.length hd
  simp only [length_drop, length_append] at hlen
  rw [take, if_neg (by omega), hd, take_left]

@[simp] theorem ofRes_eq_ok {α : Type} {x : Res α} {y : α} :
    CanonReader.ofRes x c = .ok (y, c') ↔ x = .ok y ∧ c' = c := by
  unfold CanonReader.ofRes
  cases x with
  | error e => simp [Except.map]
  | ok a => simp [Except.map, eq_comm]

theorem toVec_eq_ok {α : Type} {xs : List α} {v : Vec α} : toVec xs = .ok v ↔ xs = v.toList := by
  unfold toVec
  constructor
  · intro h
    split at h
    · simp only [Except.ok.injEq] at h
      rw [← h]
    · cases h
  · rintro rfl
    rw [dif_pos v.length_lt]

theorem fromUtf8_eq_ok {what : String} {bytes : Vec UInt8} {s : Str} :
    fromUtf8 what bytes = .ok s ↔ bytes.toList = s.asBytes := by
  unfold fromUtf8 Str.asBytes
  constructor
  · intro h
    split at h
    · simp only [Except.ok.injEq] at h
      rw [← h]
      simp
    · split at h <;> cases h
  · intro h
    have hbytes : bytes.toList.toByteArray = s.toString.toByteArray := by
      rw [h]
      apply ByteArray.ext
      rw [data_toByteArray, Array.toArray_toList]
    have hvalid : bytes.toList.toByteArray.IsValidUTF8 := by
      rw [hbytes]
      exact s.toString.isValidUTF8
    obtain ⟨⟨arr, harr⟩, hs⟩ := s
    subst hbytes
    rw [dif_pos hvalid]

theorem hash_eq {h : Hash256} : hash c = .ok (h, c') ↔ take 32 c = .ok (h.bytes, c') := by
  unfold hash
  rw [Res.bind_eq_ok]
  constructor
  · rintro ⟨⟨w, r⟩, htake, hret⟩
    have hw : w.length = 32 := (exact_take htake).1
    simp only [hw, dite_true, pure, Except.pure, Except.ok.injEq, Prod.mk.injEq] at hret
    obtain ⟨rfl, rfl⟩ := hret
    exact htake
  · intro htake
    exact ⟨_, htake, by simp [h.length_eq, pure, Except.pure]⟩

theorem reads_hash (h : Hash256) : Reads hash h.bytes h := by
  intro c c' hspan
  rw [hash_eq, ← h.length_eq]
  exact reads_take h.bytes c c' hspan

theorem exact_hash : Exact hash Hash256.bytes := by
  intro c h c' hok
  exact (exact_take (hash_eq.mp hok)).2

theorem reads_len (h : n < 2 ^ 64) : Reads len (writeVarint (ofNat n)) n := by
  have hval : (ofNat n).toNat = n := by rw [UInt64.toNat_ofNat', Nat.mod_eq_of_lt h]
  have hread := (reads_varint (ofNat n)).bind (f := fun v => Pure.pure v.toNat)
    (Reads.pure (ofNat n).toNat)
  rwa [append_nil, hval] at hread

/-- A length-prefixed byte string is read back by a length and a `take`. -/
theorem reads_bytes {data : Bytes} (h : data.length < 2 ^ 64)
    (hspan : Spans c c' (writeBytes data)) :
    ∃ n c1, len c = .ok (n, c1) ∧ take n c1 = .ok (data, c') := by
  obtain ⟨c1, h1, h2⟩ := hspan.split
  exact ⟨data.length, c1, reads_len h c c1 h1, reads_take data c1 c' h2⟩

theorem exact_len (h : len c = .ok (n, c')) :
    n < 2 ^ 64 ∧ Spans c c' (writeVarint (ofNat n)) := by
  obtain ⟨v, c1, hv, hpure⟩ := bind_eq_ok.mp h
  obtain ⟨rfl, rfl⟩ := pure_eq_ok.mp hpure
  refine ⟨toNat_lt v, ?_⟩
  rw [ofNat_toNat]
  exact exact_varint c v _ hv

theorem exact_bytes {c1 : Cursor UInt8} {w : Bytes} (hn : len c = .ok (n, c1))
    (hw : take n c1 = .ok (w, c')) : Spans c c' (writeBytes w) := by
  obtain ⟨rfl, hspan⟩ := exact_take hw
  exact (exact_len hn).2.trans hspan

end AxisBridge
