import AxisBridge.Lib.Framing
import AxisBridge.Runtime.RawBlk

/-! Raw frames as they are written, and a block of them that was cut anywhere: the parser visits the
frames in front of the cut and no others. -/
namespace AxisBridge.RawBlk
open List
open Framing (Format Record words within places scanFrom)

/-- `encode_frame`. -/
def encodeFrame (kind : UInt8) (ts : ℤ) (payload : Bytes) : Bytes :=
  MAGIC ++ kind :: (textBytes (padded 20 (max ts 0).toNat) ++
    (textBytes (padded 10 payload.length) ++ (payload ++ SENTINEL)))

section
variable {σ : Type} (visit : σ → UInt8 → ℤ → Bytes → σ)

/-- The loop of the parser, one turn for each unit of fuel: what the visitor makes of the frames,
and how many it was called with. -/
def visitLoop (data : Bytes) : ℕ → ℕ → ℕ → σ → σ × ℕ
  | 0, _, n, s => (s, n)
  | fuel + 1, off, n, s =>
    match frameAt (data.drop off) with
    | none => (s, n)
    | some f =>
      visitLoop data fuel (off + OVERHEAD + f.payload.length) (n + 1)
        (visit s f.kind f.ts f.payload)

/-- `parse_raw_frames`. -/
def visitRawFrames (data : Bytes) (s : σ) : σ × ℕ := visitLoop visit data data.length 0 0 s

/-- The visitor over frames, one after another. -/
def visitAll (s : σ) (fs : List RawFrame) : σ :=
  fs.foldl (fun s f => visit s f.kind f.ts f.payload) s

variable {visit} {data : Bytes}

theorem visitLoop_eq (fuel off n : ℕ) (s : σ) : visitLoop visit data fuel off n s =
    (visitAll visit s (parseLoop data fuel off).1, n + (parseLoop data fuel off).1.length) := by
  induction fuel generalizing off n s with
  | zero => rfl
  | succ fuel ih =>
    cases hframe : frameAt (data.drop off) with
    | none => simp [visitLoop, parseLoop, hframe, visitAll]
    | some f =>
      simp only [visitLoop, parseLoop, hframe, ih, visitAll, foldl_cons, length_cons,
        Prod.mk.injEq, true_and]
      omega

end

/-! ### The numbers in a header -/

section
variable {width n : ℕ}

theorem dec_concat (bs : Bytes) (b : UInt8) : dec (bs ++ [b]) = (dec bs).bind fun n =>
    if 48 ≤ b ∧ b ≤ 57 ∧ n * 10 + (b.toNat - 48) < 2 ^ 64 then some (n * 10 + (b.toNat - 48))
    else none := by
  rw [dec, foldl_concat]
  rfl

theorem utf8_digit {c : Char} (h : c.isDigit = true) :
    ∃ b : UInt8, String.utf8EncodeChar c = [b] ∧ 48 ≤ b ∧ b ≤ 57 ∧
      b.toNat - 48 = c.toNat - '0'.toNat := by
  obtain ⟨hlo, hhi⟩ := Char.isDigit_iff_toNat.mp h
  have h0 : '0'.toNat = 48 := rfl
  have h9 : '9'.toNat = 57 := rfl
  have hval : c.val.toNat = c.toNat := rfl
  have hbyte : c.val.toUInt8.toNat = c.toNat := by
    rw [UInt32.toNat_toUInt8, hval]
    exact Nat.mod_eq_of_lt (by omega)
  refine ⟨c.val.toUInt8, String.utf8EncodeChar_eq_singleton (utf8Size_of_isDigit h), ?_, ?_, ?_⟩
  · rw [UInt8.le_iff_toNat_le, hbyte]
    exact hlo
  · rw [UInt8.le_iff_toNat_le, hbyte]
    exact hhi
  · rw [hbyte, h0]

theorem dec_digits (cs : List Char) (hdigits : ∀ c ∈ cs, c.isDigit = true)
    (hfits : Nat.ofDigitChars 10 cs 0 < 2 ^ 64) :
    dec (textBytes (String.ofList cs)) = some (Nat.ofDigitChars 10 cs 0) := by
  rw [textBytes_ofList]
  induction cs using reverseRecOn with
  | nil => rfl
  | append_singleton cs c ih =>
    obtain ⟨b, hb, hlo, hhi, hval⟩ := utf8_digit (hdigits c (by simp))
    have hlast : Nat.ofDigitChars 10 (cs ++ [c]) 0 =
        Nat.ofDigitChars 10 cs 0 * 10 + (c.toNat - '0'.toNat) := by
      rw [Nat.ofDigitChars_append, Nat.ofDigitChars_cons, Nat.ofDigitChars_nil, mul_comm]
    rw [hlast] at hfits
    have hcs := ih (fun d hd => hdigits d (mem_append_left _ hd)) (by omega)
    rw [flatMap_append, flatMap_singleton, hb, dec_concat, hcs, Option.bind_some, hval,
      if_pos ⟨hlo, hhi, hfits⟩, hlast]

theorem dec_padded (hn : n < 2 ^ 64) : dec (textBytes (padded width n)) = some n := by
  have hval : digitsVal (padded width n).toList = some n := digitsVal_padded
  rw [digitsVal] at hval
  split at hval
  · have hn' := Option.some.inj hval
    have hdec := dec_digits (padded width n).toList (fun c => isDigit_padded) (by rwa [hn'])
    rwa [String.ofList_toList, hn'] at hdec
  · cases hval

end

/-! ### What a frame is -/

/-- The bytes of a frame with these two fields of digits. -/
def frameWith (kind : UInt8) (tsf plenf payload : Bytes) : Bytes :=
  MAGIC ++ kind :: (tsf ++ (plenf ++ (payload ++ SENTINEL)))

section
variable {bs tsf plenf payload more : Bytes} {kind : UInt8} {f : RawFrame} {ts n : ℕ}

theorem length_frameWith (hts : tsf.length = 20) (hplen : plenf.length = 10) :
    (frameWith kind tsf plenf payload).length = OVERHEAD + payload.length := by
  simp only [frameWith, MAGIC, SENTINEL, OVERHEAD, length_append, length_cons,
    length_nil, hts, hplen]
  omega

theorem frameAt_frameWith (kind : UInt8) (hts : tsf.length = 20) (hplen : plenf.length = 10)
    (hdec : dec tsf = some ts) (hdec' : dec plenf = some payload.length) (more : Bytes) :
    frameAt (frameWith kind tsf plenf payload ++ more) =
      some ⟨kind, (ts : ℤ).bmod (2 ^ 64), payload⟩ := by
  have hlen : OVERHEAD + payload.length ≤ (frameWith kind tsf plenf payload ++ more).length := by
    rw [length_append, length_frameWith hts hplen]
    omega
  have hmagic : (frameWith kind tsf plenf payload ++ more).take 5 = MAGIC := rfl
  have hkind : (frameWith kind tsf plenf payload ++ more).getD 5 0 = kind := rfl
  have hdrop : (frameWith kind tsf plenf payload ++ more).drop 6 =
      tsf ++ (plenf ++ (payload ++ (SENTINEL ++ more))) := by
    have hsix : (frameWith kind tsf plenf payload ++ more).drop 6 =
      tsf ++ (plenf ++ (payload ++ SENTINEL)) ++ more := rfl
    rw [hsix]
    simp
  have hdrop' : (frameWith kind tsf plenf payload ++ more).drop 26 =
      plenf ++ (payload ++ (SENTINEL ++ more)) := by
    rw [show 26 = 6 + 20 from rfl, ← drop_drop, hdrop, drop_left' hts]
  have hbody :
      (frameWith kind tsf plenf payload ++ more).drop HDR = payload ++ (SENTINEL ++ more) := by
    rw [show HDR = 26 + 10 from rfl, ← drop_drop, hdrop', drop_left' hplen]
  have hend : (frameWith kind tsf plenf payload ++ more).drop (HDR + payload.length) =
      SENTINEL ++ more := by
    rw [← drop_drop, hbody, drop_left]
  have htail : (SENTINEL ++ more).take 6 = SENTINEL := rfl
  have hlong : OVERHEAD ≤ (frameWith kind tsf plenf payload ++ more).length := by omega
  rw [frameAt, if_pos ⟨hlong, hmagic⟩, hdrop, take_left' hts, hdec, hdrop',
    take_left' hplen, hdec', Option.bind_some, Option.bind_some, hend, htail,
    if_pos ⟨hlen, rfl⟩, hkind, hbody, take_left]

/-- What the parser takes for a frame has all five parts. -/
theorem exists_of_frameAt (h : frameAt bs = some f) : ∃ tsf plenf ts rest,
    tsf.length = 20 ∧ plenf.length = 10 ∧ dec tsf = some ts ∧ dec plenf = some f.payload.length ∧
      f.ts = (ts : ℤ).bmod (2 ^ 64) ∧ bs = frameWith f.kind tsf plenf f.payload ++ rest := by
  unfold frameAt at h
  split at h
  · next hhead =>
    obtain ⟨hlong, hmagic⟩ := hhead
    obtain ⟨ts, hts, h⟩ := Option.bind_eq_some_iff.mp h
    obtain ⟨plen, hplen, h⟩ := Option.bind_eq_some_iff.mp h
    split at h
    · next htail =>
      obtain ⟨hfits, hsentinel⟩ := htail
      cases h
      simp only [OVERHEAD] at hlong hfits
      have hpay : ((bs.drop HDR).take plen).length = plen := by
        simp only [length_take, length_drop, HDR]
        omega
      have hlast : dec ((bs.drop 26).take 10) = some ((bs.drop HDR).take plen).length :=
        hplen.trans (congrArg some hpay.symm)
      refine ⟨(bs.drop 6).take 20, (bs.drop 26).take 10, ts, bs.drop (HDR + plen + 6), ?_, ?_, hts,
        hlast, by dsimp only, ?_⟩
      · simp only [length_take, length_drop]
        omega
      · simp only [length_take, length_drop]
        omega
      · have hkind : bs.drop 5 = bs.getD 5 0 :: bs.drop 6 := by
          have hfive : 5 < bs.length := by omega
          rw [drop_eq_getElem_cons hfive, getD_eq_getElem?_getD,
            getElem?_eq_getElem hfive, Option.getD_some]
        have hcut (i j : ℕ) : bs.drop i = (bs.drop i).take j ++ bs.drop (i + j) := by
          rw [← drop_drop, take_append_drop]
        have htail : bs.drop (HDR + plen) = SENTINEL ++ bs.drop (HDR + plen + 6) := by
          have h6 := hcut (HDR + plen) 6
          rwa [hsentinel] at h6
        have hbody : bs.drop 6 = (bs.drop 6).take 20 ++ ((bs.drop 26).take 10 ++
            ((bs.drop HDR).take plen ++ bs.drop (HDR + plen))) :=
          calc bs.drop 6 = (bs.drop 6).take 20 ++ bs.drop 26 := hcut 6 20
            _ = (bs.drop 6).take 20 ++ ((bs.drop 26).take 10 ++ bs.drop HDR) :=
              congrArg _ (hcut 26 10)
            _ = _ := congrArg _ (congrArg _ (hcut HDR plen))
        calc bs = bs.take 5 ++ bs.drop 5 := (take_append_drop 5 bs).symm
          _ = MAGIC ++ bs.getD 5 0 :: bs.drop 6 := by rw [hmagic, hkind]
          _ = MAGIC ++ bs.getD 5 0 :: ((bs.drop 6).take 20 ++ ((bs.drop 26).take 10 ++
              ((bs.drop HDR).take plen ++ (SENTINEL ++ bs.drop (HDR + plen + 6))))) :=
            congrArg (fun rest => MAGIC ++ bs.getD 5 0 :: rest) (hbody.trans (by rw [htail]))
          _ = _ := by
            simp [frameWith]
    · cases h
  · cases h

/-- A frame at the start of the bytes, and how many bytes it takes. -/
def rawNext (bs : Bytes) : Option (RawFrame × ℕ) :=
  (frameAt bs).map fun f => (f, OVERHEAD + f.payload.length)

theorem exists_of_rawNext (h : rawNext bs = some (f, n)) :
    frameAt bs = some f ∧ n = OVERHEAD + f.payload.length := by
  obtain ⟨f', hf, heq⟩ := Option.map_eq_some_iff.mp h
  cases heq
  exact ⟨hf, rfl⟩

/-- The format of the raw frames. -/
def rawFormat : Format UInt8 RawFrame where
  next := rawNext
  width_pos := by
    intro bs f n h
    obtain ⟨-, rfl⟩ := exists_of_rawNext h
    exact lt_of_lt_of_le (by decide) (Nat.le_add_right _ _)
  width_le := by
    intro bs f n h
    obtain ⟨hframe, rfl⟩ := exists_of_rawNext h
    obtain ⟨tsf, plenf, ts, rest, htsf, hplenf, -, -, -, rfl⟩ := exists_of_frameAt hframe
    rw [length_append, length_frameWith htsf hplenf]
    exact Nat.le_add_right _ _
  next_take := by
    intro bs f n h more
    obtain ⟨hframe, rfl⟩ := exists_of_rawNext h
    obtain ⟨tsf, plenf, ts, rest, htsf, hplenf, hdec, hdec', hts, rfl⟩ := exists_of_frameAt hframe
    rw [take_left' (length_frameWith htsf hplenf), rawNext,
      frameAt_frameWith f.kind htsf hplenf hdec hdec' more, ← hts]
    rfl

/-- The parser's loop is the scan for frames. -/
theorem parseLoop_eq_scanFrom (data : Bytes) (fuel off : ℕ) :
    parseLoop data fuel off = ((scanFrom rawFormat fuel off (data.drop off)).1.map Prod.snd,
      (scanFrom rawFormat fuel off (data.drop off)).2) := by
  induction fuel generalizing off with
  | zero => rfl
  | succ fuel ih =>
    cases hframe : frameAt (data.drop off) with
    | none =>
      have hnext : rawFormat.next (data.drop off) = none := by
        simp [rawFormat, rawNext, hframe]
      simp [parseLoop, scanFrom, hframe, hnext]
    | some f =>
      have hnext : rawFormat.next (data.drop off) = some (f, OVERHEAD + f.payload.length) := by
        simp [rawFormat, rawNext, hframe]
      simp only [parseLoop, scanFrom, hframe, hnext, ih, drop_drop, add_assoc, map_cons]

end

/-! ### Frames that are written -/

/-- A frame that can be written: the time is a machine integer from 0 on, and the length of the
payload has ten digits at most. -/
structure Writable where
  kind : UInt8
  ts : ℤ
  payload : Bytes
  ts_nonneg : 0 ≤ ts
  ts_lt : ts < 2 ^ 63
  payload_lt : payload.length < 10 ^ 10

namespace Writable

def bytes (w : Writable) : Bytes := encodeFrame w.kind w.ts w.payload

/-- What the visitor is to be called with. -/
def frame (w : Writable) : RawFrame := ⟨w.kind, w.ts, w.payload⟩

/-- The frames that lie wholly within the first `cut` bytes. -/
def wholeFrames : ℕ → List Writable → List Writable
  | _, [] => []
  | cut, w :: ws =>
    if w.bytes.length ≤ cut then w :: wholeFrames (cut - w.bytes.length) ws else []

theorem frameAt_bytes (w : Writable) (more : Bytes) : frameAt (w.bytes ++ more) = some w.frame := by
  have hts := w.ts_lt
  have hts0 := w.ts_nonneg
  have hpay := w.payload_lt
  have hmax : max w.ts 0 = w.ts := max_eq_left hts0
  have hnat : w.ts.toNat < 2 ^ 64 := by omega
  have hfield : (textBytes (padded 20 w.ts.toNat)).length = 20 :=
    length_textBytes_padded_of_lt (by norm_num) (hnat.trans (by norm_num))
  have hfield' : (textBytes (padded 10 w.payload.length)).length = 10 :=
    length_textBytes_padded_of_lt (by norm_num) hpay
  have hdec : dec (textBytes (padded 10 w.payload.length)) = some w.payload.length :=
    dec_padded (hpay.trans (by norm_num))
  have hframe := frameAt_frameWith w.kind hfield hfield' (dec_padded hnat) hdec more
  have hback : ((w.ts.toNat : ℤ)).bmod (2 ^ 64) = w.ts := by
    rw [Int.toNat_of_nonneg hts0]
    apply Int.bmod_eq_of_le <;> omega
  rw [hback] at hframe
  rw [bytes, encodeFrame, hmax]
  exact hframe

theorem length_bytes (w : Writable) : w.bytes.length = OVERHEAD + w.payload.length := by
  have hframe := frameAt_bytes w []
  rw [append_nil] at hframe
  have hpay := w.payload_lt
  have hts := w.ts_lt
  have hts0 := w.ts_nonneg
  have hmax : max w.ts 0 = w.ts := max_eq_left hts0
  rw [bytes, encodeFrame, hmax]
  apply length_frameWith
  · exact length_textBytes_padded_of_lt (by norm_num) (by omega)
  · exact length_textBytes_padded_of_lt (by norm_num) hpay

/-- A written frame is a record of the format. -/
def record (w : Writable) : Record rawFormat where
  word := w.bytes
  value := w.frame
  whole := by
    have hframe := frameAt_bytes w []
    rw [append_nil] at hframe
    simp only [rawFormat, rawNext, hframe, Option.map_some, length_bytes]
    rfl

theorem words_record (ws : List Writable) : words (ws.map record) = ws.flatMap bytes :=
  flatMap_map ..

theorem within_record (cut : ℕ) (ws : List Writable) :
    within cut (ws.map record) = (wholeFrames cut ws).map record := by
  induction ws generalizing cut with
  | nil => rfl
  | cons w ws ih =>
    have hword : w.record.word.length = w.bytes.length := rfl
    simp only [map_cons, within, wholeFrames, hword]
    split
    · rw [ih, map_cons]
    · rfl

end Writable

open Writable (wholeFrames)

theorem parseRawFrames_eq_scan (data : Bytes) :
    parseRawFrames data =
      ((Framing.scan rawFormat 0 data).1.map Prod.snd, (Framing.scan rawFormat 0 data).2) :=
  parseLoop_eq_scanFrom data data.length 0

/-- Frames written one after another and cut at any byte: the visitor is called with those that lie
wholly in front of the cut, in order and as they were written, and their number is returned. -/
theorem visitRawFrames_truncated {σ : Type} (visit : σ → UInt8 → ℤ → Bytes → σ) (s : σ)
    (ws : List Writable) (cut : ℕ) :
    visitRawFrames visit ((ws.flatMap Writable.bytes).take cut) s =
      ((wholeFrames cut ws).foldl (fun s w => visit s w.kind w.ts w.payload) s,
        (wholeFrames cut ws).length) := by
  have hparse := parseRawFrames_eq_scan ((ws.flatMap Writable.bytes).take cut)
  rw [← Writable.words_record, Framing.scan_take_words, Writable.within_record,
    Framing.places_values, map_map] at hparse
  have hframes : (parseRawFrames ((words (ws.map Writable.record)).take cut)).1 =
      (wholeFrames cut ws).map Writable.frame := by
    rw [hparse]
    rfl
  have hloop : visitLoop visit ((words (ws.map Writable.record)).take cut) _ 0 0 s = _ :=
    visitLoop_eq ((words (ws.map Writable.record)).take cut).length 0 0 s
  rw [← Writable.words_record, visitRawFrames, hloop]
  rw [parseRawFrames] at hframes
  rw [hframes, length_map, zero_add, visitAll, foldl_map]
  rfl

def twoFrames : List Writable :=
  [⟨75, 5, [1], by decide, by decide, by decide⟩, ⟨75, 7, [2, 3], by decide, by decide, by decide⟩]

/-- The cut is in the header of the second frame. -/
theorem visitRawFrames_truncated_second :
    visitRawFrames (fun seen _ _ payload => seen ++ payload)
      ((twoFrames.flatMap Writable.bytes).take 60) [] = ([1], 1) := by
  have hcut : wholeFrames 60 twoFrames = [twoFrames[0]] := by
    simp [wholeFrames, twoFrames, Writable.length_bytes, OVERHEAD]
  rw [visitRawFrames_truncated, hcut]
  rfl

end AxisBridge.RawBlk
