import AxisBridge.Lib.Framing
import Mathlib.Algebra.GroupWithZero.Nat

/-! A segment mapped into memory: frames behind one another, and the scan that finds where they
end. -/
namespace AxisBridge
open List Option Framing

namespace MmapSeg

def FRAME_OVERHEAD : ℕ := 8

def MAX_REC : ℕ := 64 * 1024 * 1024

def PAGE : ℕ := 4096

/-- FNV-1a in 32 bits. -/
def fnv1a (bytes : List UInt8) : UInt32 :=
  bytes.foldl (fun h b => (h ^^^ b.toUInt32) * 0x01000193) 0x811c9dc5

/-- `(n as u32).to_le_bytes()`. -/
def toLeBytes (n : ℕ) : List UInt8 :=
  [.ofNat n, .ofNat (n / 2 ^ 8), .ofNat (n / 2 ^ 16), .ofNat (n / 2 ^ 24)]

/-- `u32::from_le_bytes`. -/
def fromLeBytes (bytes : List UInt8) : ℕ := bytes.foldr (fun b n => b.toNat + 2 ^ 8 * n) 0

/-- The payload of the frame at `off`, if a whole frame is there with its checksum. -/
def readFrame (bytes : List UInt8) (limit off : ℕ) : Option (List UInt8) :=
  if off + 4 > limit then none
  else
    let n := fromLeBytes ((bytes.drop off).take 4)
    if n = 0 ∨ n > MAX_REC ∨ off + FRAME_OVERHEAD + n > limit then none
    else
      let v := (bytes.drop (off + 4)).take n
      let crc := fromLeBytes ((bytes.drop (off + 4 + n)).take 4)
      if (fnv1a v).toNat ≠ crc then none else some v

def scanLoop (bytes : List UInt8) (cap : ℕ) : ℕ → ℕ → ℕ → ℕ × ℕ
  | 0, off, count => (off, count)
  | fuel + 1, off, count =>
    match readFrame bytes cap off with
    | some v => scanLoop bytes cap fuel (off + FRAME_OVERHEAD + v.length) (count + 1)
    | none => (off, count)

/-- Where the frames end and how many they are; no mapping holds more frames than bytes. -/
def scanFrontier (bytes : List UInt8) (cap : ℕ) : ℕ × ℕ := scanLoop bytes cap cap 0 0

/-- `File::set_len`: the file is cut, or filled up with zeros. -/
def setLen (file : List UInt8) (cap : ℕ) : List UInt8 :=
  file.take cap ++ replicate (cap - file.length) 0

/-- The frame of a record. -/
def frame (rec : List UInt8) : List UInt8 :=
  toLeBytes rec.length ++ rec ++ toLeBytes (fnv1a rec).toNat

/-- `copy_nonoverlapping` of `piece` to `off`. -/
def copyTo (bytes : List UInt8) (off : ℕ) (piece : List UInt8) : List UInt8 :=
  bytes.take off ++ piece ++ bytes.drop (off + piece.length)

end MmapSeg

/-- An open segment: the mapped file, and how far it is written and synced. -/
structure MmapSeg where
  bytes : List UInt8
  cap : ℕ
  cursor : ℕ
  synced : ℕ

namespace MmapSeg

/-- `MmapSeg::open` over what the file has. -/
def openFile (file : List UInt8) (cap : ℕ) : MmapSeg :=
  let bytes := setLen file cap
  let frontier := (scanFrontier bytes cap).1
  ⟨bytes, cap, frontier, frontier⟩

def append (seg : MmapSeg) (rec : List UInt8) : MmapSeg × ℤ :=
  let need := FRAME_OVERHEAD + rec.length
  if rec.length > MAX_REC ∨ seg.cursor + need > seg.cap then (seg, -1)
  else
    let off := seg.cursor
    ({ seg with bytes := copyTo seg.bytes off (frame rec), cursor := seg.cursor + need }, off)

def readAt (seg : MmapSeg) (off : ℕ) : Option (List UInt8) :=
  (readFrame seg.bytes (max seg.cursor seg.cap) off).filter fun _ => off < seg.cursor

/-- The records of a list that find room behind `used` bytes. -/
def fitting (cap : ℕ) : ℕ → List (List UInt8) → List (List UInt8)
  | _, [] => []
  | used, rec :: recs =>
    if rec.length > MAX_REC ∨ used + FRAME_OVERHEAD + rec.length > cap then fitting cap used recs
    else rec :: fitting cap (used + FRAME_OVERHEAD + rec.length) recs

/-- How many bytes the frames of some records take. -/
def framesSize (recs : List (List UInt8)) : ℕ :=
  (recs.map fun rec => FRAME_OVERHEAD + rec.length).sum

/-- The end of the last append that was not refused; `e` when there is none. -/
def lastEnd : ℕ → List (List UInt8 × ℤ) → ℕ
  | e, [] => e
  | e, (rec, off) :: log =>
    lastEnd (if off < 0 then e else off.toNat + FRAME_OVERHEAD + rec.length) log

/-- Appends one after another, each record with the offset it returned. -/
def appendAll (seg : MmapSeg) : List (List UInt8) → MmapSeg × List (List UInt8 × ℤ)
  | [] => (seg, [])
  | rec :: recs =>
    let (seg', off) := seg.append rec
    let (last, log) := seg'.appendAll recs
    (last, (rec, off) :: log)

section
variable {bytes rec v : List UInt8} {n : ℕ}

@[simp] theorem length_toLeBytes (n : ℕ) : (toLeBytes n).length = 4 := rfl

theorem fromLeBytes_toLeBytes (h : n < 2 ^ 32) : fromLeBytes (toLeBytes n) = n := by
  simp only [toLeBytes, fromLeBytes, foldr_cons, foldr_nil, UInt8.toNat_ofNat']
  omega

theorem toLeBytes_fromLeBytes (h : bytes.length = 4) : toLeBytes (fromLeBytes bytes) = bytes := by
  match bytes, h with
  | [a, b, c, d], _ =>
    have ha := a.toNat_lt
    have hb := b.toNat_lt
    have hc := c.toNat_lt
    have hd := d.toNat_lt
    simp only [toLeBytes, fromLeBytes, foldr_cons, foldr_nil, List.cons.injEq, and_true,
      ← UInt8.toNat_inj, UInt8.toNat_ofNat']
    omega

@[simp] theorem length_frame (rec : List UInt8) :
    (frame rec).length = FRAME_OVERHEAD + rec.length := by
  simp only [frame, length_append, length_toLeBytes, FRAME_OVERHEAD]
  omega

/-- A record that `read_frame` can give back. -/
def Readable (v : List UInt8) : Prop := v ≠ [] ∧ v.length ≤ MAX_REC

theorem fnv1a_lt (v : List UInt8) : (fnv1a v).toNat < 2 ^ 32 := (fnv1a v).toNat_lt

theorem take_drop_pieces (bs : List UInt8) (n : ℕ) :
    bs.take 4 ++ (bs.drop 4).take n ++ (bs.drop (4 + n)).take 4 ++ bs.drop (8 + n) = bs := by
  have hlast : (bs.drop (4 + n)).take 4 ++ bs.drop (8 + n) = bs.drop (4 + n) := by
    have hdrop : bs.drop (8 + n) = (bs.drop (4 + n)).drop 4 := by
      rw [drop_drop]
      congr 1
      omega
    rw [hdrop, take_append_drop]
  have hmid : (bs.drop 4).take n ++ bs.drop (4 + n) = bs.drop 4 := by
    rw [← drop_drop, take_append_drop]
  rw [append_assoc, hlast, append_assoc, hmid, take_append_drop]

theorem frame_of_readFrame (h : readFrame bytes bytes.length 0 = some v) :
    Readable v ∧ frame v <+: bytes := by
  simp only [readFrame, zero_add, drop_zero] at h
  split at h
  · cases h
  · split at h
    · cases h
    · rename_i hfour hrange
      split at h
      · cases h
      · rename_i hcrc
        obtain rfl := some.inj h
        simp only [FRAME_OVERHEAD, not_or] at hrange
        generalize hn : fromLeBytes (bytes.take 4) = n at *
        have hlen : ((bytes.drop 4).take n).length = n := by
          simp only [length_take, length_drop]
          omega
        have hhead : toLeBytes n = bytes.take 4 := by
          rw [← hn]
          apply toLeBytes_fromLeBytes
          rw [length_take]
          omega
        have htail : toLeBytes (fnv1a ((bytes.drop 4).take n)).toNat =
            (bytes.drop (4 + n)).take 4 := by
          rw [not_not.mp hcrc]
          apply toLeBytes_fromLeBytes
          simp only [length_take, length_drop]
          omega
        refine ⟨⟨?_, by omega⟩, bytes.drop (8 + n), ?_⟩
        · intro hnil
          rw [hnil] at hlen
          exact hrange.1 hlen.symm
        · simp only [frame, hlen, hhead, htail]
          exact take_drop_pieces bytes n

theorem readFrame_of_frame (hv : Readable v) (rest : List UInt8) :
    readFrame (frame v ++ rest) (frame v ++ rest).length 0 = some v := by
  obtain ⟨hne, hmax⟩ := hv
  have hpos : 0 < v.length := length_pos_of_ne_nil hne
  have hbytes : frame v ++ rest =
      toLeBytes v.length ++ (v ++ (toLeBytes (fnv1a v).toNat ++ rest)) := by
    simp [frame]
  have hlen : (frame v ++ rest).length = 8 + v.length + rest.length := by
    rw [length_append, length_frame, FRAME_OVERHEAD]
  have hhead : (frame v ++ rest).take 4 = toLeBytes v.length := by
    rw [hbytes]
    exact take_left' rfl
  have hdrop : (frame v ++ rest).drop 4 = v ++ (toLeBytes (fnv1a v).toNat ++ rest) := by
    rw [hbytes]
    exact drop_left' rfl
  have hmid : ((frame v ++ rest).drop 4).take v.length = v := by
    rw [hdrop]
    exact take_left' rfl
  have htail : ((frame v ++ rest).drop (4 + v.length)).take 4 = toLeBytes (fnv1a v).toNat := by
    rw [← drop_drop, hdrop, drop_left' rfl]
    exact take_left' rfl
  have hn : fromLeBytes (toLeBytes v.length) = v.length :=
    fromLeBytes_toLeBytes (by rw [MAX_REC] at hmax; omega)
  simp only [readFrame, zero_add, drop_zero, hhead, hn, hmid, htail,
    fromLeBytes_toLeBytes (fnv1a_lt v), FRAME_OVERHEAD, hlen]
  rw [if_neg (by omega), if_neg (by omega), if_neg (not_not.mpr rfl)]

/-- A record is read where its frame is. -/
theorem readFrame_eq_some :
    readFrame bytes bytes.length 0 = some v ↔ Readable v ∧ frame v <+: bytes := by
  constructor
  · exact frame_of_readFrame
  · rintro ⟨hv, rest, rfl⟩
    exact readFrame_of_frame hv rest

/-- The frames of a segment are told apart by their own bytes. -/
def segFormat : Format UInt8 (List UInt8) where
  next bs := (readFrame bs bs.length 0).map fun v => (v, FRAME_OVERHEAD + v.length)
  width_pos h := by
    obtain ⟨v, -, h⟩ := map_eq_some_iff.mp h
    simp only [Prod.mk.injEq, FRAME_OVERHEAD] at h
    omega
  width_le h := by
    obtain ⟨v, hv, h⟩ := map_eq_some_iff.mp h
    have hle := (readFrame_eq_some.mp hv).2.length_le
    rw [length_frame] at hle
    cases h
    exact hle
  next_take {bs a n} h more := by
    obtain ⟨v, hv, h⟩ := map_eq_some_iff.mp h
    obtain ⟨hread, rest, hrest⟩ := readFrame_eq_some.mp hv
    cases h
    have htake : bs.take (FRAME_OVERHEAD + a.length) = frame a := by
      rw [← hrest, ← length_frame, take_left]
    rw [htake, readFrame_of_frame hread, map_some]

/-- The frame of a readable record is a whole record of the format. -/
def frameRecord (v : {v : List UInt8 // Readable v}) : Record segFormat where
  word := frame v
  value := v
  whole := by
    have hread := readFrame_of_frame v.2 []
    rw [append_nil] at hread
    simp only [segFormat]
    rw [hread, map_some, length_frame]

theorem next_eq_none : segFormat.next bytes = none ↔ readFrame bytes bytes.length 0 = none :=
  map_eq_none_iff

theorem readFrame_drop (bytes : List UInt8) (off : ℕ) :
    readFrame bytes bytes.length off = readFrame (bytes.drop off) (bytes.drop off).length 0 := by
  have hfour : off + 4 > bytes.length ↔ 0 + 4 > (bytes.drop off).length := by
    rw [length_drop]
    omega
  by_cases h : off + 4 > bytes.length
  · simp only [readFrame, if_pos h, if_pos (hfour.mp h)]
  · have hlimit (n : ℕ) : off + FRAME_OVERHEAD + n > bytes.length ↔
        0 + FRAME_OVERHEAD + n > (bytes.drop off).length := by
      rw [length_drop]
      omega
    have hcrc (n : ℕ) : bytes.drop (off + 4 + n) = (bytes.drop off).drop (0 + 4 + n) := by
      rw [drop_drop, zero_add, add_assoc]
    simp only [readFrame, if_neg h, if_neg (mt hfour.mpr h), hlimit, hcrc]
    simp

theorem scanLoop_eq (bytes : List UInt8) (fuel off count : ℕ) :
    scanLoop bytes bytes.length fuel off count = ((scanFrom segFormat fuel off (bytes.drop off)).2,
      count + (scanFrom segFormat fuel off (bytes.drop off)).1.length) := by
  induction fuel generalizing off count with
  | zero => rfl
  | succ fuel ih =>
    rw [scanLoop, readFrame_drop]
    cases h : readFrame (bytes.drop off) (bytes.drop off).length 0 with
    | none =>
      have hnext : segFormat.next (bytes.drop off) = none := next_eq_none.mpr h
      simp [scanFrom, hnext]
    | some v =>
      have hnext : segFormat.next (bytes.drop off) = some (v, FRAME_OVERHEAD + v.length) := by
        simp only [segFormat, h, map_some]
      simp only [scanFrom, hnext, ih, drop_drop, length_cons, Prod.mk.injEq, add_assoc, true_and]
      omega

/-- The frontier is where the scan for frames stops. -/
theorem scanFrontier_eq (bytes : List UInt8) :
    scanFrontier bytes bytes.length =
      ((Framing.scan segFormat 0 bytes).2, (Framing.scan segFormat 0 bytes).1.length) := by
  rw [scanFrontier, scanLoop_eq, drop_zero, zero_add]
  rfl

/-- The bytes of the frames of some records. -/
def framesOf (recs : List (List UInt8)) : List UInt8 := recs.flatMap frame

variable {seg : MmapSeg} {recs recs' : List (List UInt8)} {cap cap' k used : ℕ}

@[simp] theorem framesOf_nil : framesOf [] = [] := rfl

@[simp] theorem framesOf_cons : framesOf (rec :: recs) = frame rec ++ framesOf recs := rfl

@[simp] theorem framesOf_append : framesOf (recs ++ recs') = framesOf recs ++ framesOf recs' :=
  flatMap_append

theorem length_framesOf (recs : List (List UInt8)) : (framesOf recs).length = framesSize recs := by
  induction recs with
  | nil => rfl
  | cons rec recs ih =>
    rw [framesOf_cons, length_append, length_frame, ih]
    rfl

/-- Zeros are no frame, and neither is the frame of an empty record. -/
theorem next_of_zero (h : bytes.take 4 = toLeBytes 0) : segFormat.next bytes = none := by
  rw [next_eq_none, readFrame, drop_zero, h]
  simp [show fromLeBytes (toLeBytes 0) = 0 from rfl]

theorem next_zeros (k : ℕ) : segFormat.next (replicate k 0) = none := by
  rcases lt_or_ge k 4 with hlt | hge
  · rw [next_eq_none, readFrame, if_pos (by rw [length_replicate]; omega)]
  · apply next_of_zero
    rw [take_replicate, min_eq_left hge]
    rfl

theorem next_empty (rest : List UInt8) : segFormat.next (frame [] ++ rest) = none :=
  next_of_zero rfl

/-- Behind the frames of readable records the scan goes on. -/
theorem scan_frames (h : ∀ v ∈ recs, Readable v) (rest : List UInt8) (off : ℕ) :
    ((Framing.scan segFormat off (framesOf recs ++ rest)).1.map Prod.snd,
        (Framing.scan segFormat off (framesOf recs ++ rest)).2) =
      (recs ++ (Framing.scan segFormat (off + framesSize recs) rest).1.map Prod.snd,
        (Framing.scan segFormat (off + framesSize recs) rest).2) := by
  induction recs generalizing off with
  | nil => rfl
  | cons v recs ih =>
    have hv := h v (mem_cons_self ..)
    have hnext : segFormat.next (framesOf (v :: recs) ++ rest) =
        some (v, FRAME_OVERHEAD + v.length) := by
      rw [framesOf_cons, append_assoc, ← length_frame]
      exact next_word (frameRecord ⟨v, hv⟩) _
    have hdrop : (framesOf (v :: recs) ++ rest).drop (FRAME_OVERHEAD + v.length) =
        framesOf recs ++ rest := by
      rw [framesOf_cons, append_assoc, ← length_frame, drop_left]
    have hsize : off + (FRAME_OVERHEAD + v.length) + framesSize recs =
        off + framesSize (v :: recs) := add_assoc ..
    have hlater := ih (fun w hw => h w (mem_cons_of_mem v hw)) (off + (FRAME_OVERHEAD + v.length))
    rw [hsize, Prod.mk.injEq] at hlater
    rw [scan_record hnext, hdrop, map_cons, hlater.1, hlater.2]
    rfl

/-- What a segment with zeros behind its frames becomes when it is resized. -/
theorem setLen_frames (h : bytes.length ≤ cap') :
    setLen (bytes ++ replicate k 0) cap' = bytes ++ replicate (cap' - bytes.length) 0 := by
  rw [setLen, take_append, take_of_length_le h, take_replicate, append_assoc,
    ← replicate_add, length_append, length_replicate]
  congr 2
  omega

@[simp] theorem length_setLen (file : List UInt8) (cap : ℕ) : (setLen file cap).length = cap := by
  simp only [setLen, length_append, length_take, length_replicate]
  omega

theorem framesSize_append (recs recs' : List (List UInt8)) :
    framesSize (recs ++ recs') = framesSize recs + framesSize recs' := by
  rw [framesSize, map_append, sum_append]
  rfl

/-- The mapping has these records' frames at its start and the cursor behind them. -/
structure Holds (seg : MmapSeg) (recs : List (List UInt8)) (rest : List UInt8) : Prop where
  cursor : seg.cursor = framesSize recs
  bytes : seg.bytes = framesOf recs ++ rest
  cap : seg.cap = seg.bytes.length

/-- A segment is opened behind the frames that it finds. -/
theorem holds_openFile {file rest : List UInt8} (hbytes : setLen file cap = framesOf recs ++ rest)
    (hread : ∀ v ∈ recs, Readable v) (hstop : segFormat.next rest = none) :
    (openFile file cap).Holds recs rest := by
  have hscan := scanFrontier_eq (setLen file cap)
  have hframes := scan_frames hread rest 0
  rw [scan_stop hstop, zero_add, Prod.mk.injEq] at hframes
  rw [length_setLen, hbytes, hframes.2, ← hbytes] at hscan
  refine ⟨?_, hbytes, (length_setLen file cap).symm⟩
  simp only [openFile, hscan]

theorem holds_openFile_nil (cap : ℕ) : (openFile [] cap).Holds [] (replicate cap 0) :=
  holds_openFile (by simp [setLen]) (by simp) (next_zeros cap)

variable {rest : List UInt8}

theorem append_of_refused
    (h : rec.length > MAX_REC ∨ seg.cursor + FRAME_OVERHEAD + rec.length > seg.cap) :
    seg.append rec = (seg, -1) := by
  rw [add_assoc] at h
  simp only [append, if_pos h]

/-- An append that is not refused puts its frame at the cursor. -/
theorem Holds.append (h : seg.Holds recs rest)
    (hroom : ¬(rec.length > MAX_REC ∨ seg.cursor + FRAME_OVERHEAD + rec.length > seg.cap)) :
    (seg.append rec).2 = framesSize recs ∧ (seg.append rec).1.cap = seg.cap ∧
      (seg.append rec).1.Holds (recs ++ [rec]) (rest.drop (FRAME_OVERHEAD + rec.length)) := by
  have hsize : framesSize (recs ++ [rec]) = framesSize recs + (FRAME_OVERHEAD + rec.length) := by
    rw [framesSize_append]
    rfl
  have hcopy : copyTo seg.bytes seg.cursor (frame rec) =
      framesOf (recs ++ [rec]) ++ rest.drop (FRAME_OVERHEAD + rec.length) := by
    rw [copyTo, h.bytes, h.cursor, ← length_framesOf, take_left, ← drop_drop,
      drop_left, length_frame, framesOf_append, framesOf_cons, framesOf_nil, append_nil]
  have hcap := h.cap
  have hlen := congrArg List.length h.bytes
  rw [length_append, length_framesOf] at hlen
  have hcur := h.cursor
  rw [add_assoc] at hroom
  simp only [MmapSeg.append, if_neg hroom]
  refine ⟨by rw [hcur], trivial, ⟨by rw [hsize, hcur], hcopy, ?_⟩⟩
  change seg.cap = (copyTo seg.bytes seg.cursor (frame rec)).length
  rw [hcopy, length_append, length_framesOf, length_drop, hsize]
  omega

theorem length_of_mem_fitting (h : rec ∈ fitting cap used recs) : rec.length ≤ MAX_REC := by
  induction recs generalizing used with
  | nil => cases h
  | cons rec' recs ih =>
    rw [fitting] at h
    split at h
    · exact ih h
    · rename_i hroom
      rcases mem_cons.mp h with rfl | h
      · omega
      · exact ih h

/-- What a list of appends leaves: the frames of the records that found room, and the end of the
last one in the cursor. -/
theorem Holds.appendAll {done : List (List UInt8)} (h : seg.Holds done rest)
    (recs : List (List UInt8)) :
    (seg.appendAll recs).1.Holds (done ++ fitting seg.cap (framesSize done) recs)
      (rest.drop (framesSize (fitting seg.cap (framesSize done) recs))) ∧
      (seg.appendAll recs).1.cap = seg.cap ∧ lastEnd (framesSize done) (seg.appendAll recs).2 =
      (seg.appendAll recs).1.cursor ∧ ∀ p ∈ (seg.appendAll recs).2, 0 ≤ p.2 →
      ∃ before after, done ++ fitting seg.cap (framesSize done) recs = before ++ p.1 :: after ∧
      p.2 = framesSize before := by
  induction recs generalizing seg done rest with
  | nil =>
    refine ⟨?_, rfl, h.cursor.symm, by simp [MmapSeg.appendAll]⟩
    rw [fitting, append_nil]
    exact h
  | cons rec recs ih =>
    by_cases hroom : rec.length > MAX_REC ∨ framesSize done + FRAME_OVERHEAD + rec.length > seg.cap
    · have hrefused : seg.append rec = (seg, -1) := append_of_refused (by rwa [h.cursor])
      obtain ⟨hholds, hcap, hend, hlog⟩ := ih h
      simp only [MmapSeg.appendAll, hrefused, fitting, if_pos hroom]
      refine ⟨hholds, hcap, hend, ?_⟩
      intro p hp hpos
      rcases mem_cons.mp hp with rfl | hp
      · simp at hpos
      · exact hlog p hp hpos
    · obtain ⟨hoff, hcap, hnext⟩ := h.append (by rwa [h.cursor])
      have hsize : framesSize (done ++ [rec]) = framesSize done + FRAME_OVERHEAD + rec.length := by
        rw [framesSize_append, add_assoc]
        rfl
      obtain ⟨hholds, hcap', hend, hlog⟩ := ih hnext
      rw [hcap, hsize] at hholds hlog
      rw [hsize] at hend
      simp only [MmapSeg.appendAll, fitting, if_neg hroom, hoff]
      have happend (fit : List (List UInt8)) : done ++ rec :: fit = done ++ [rec] ++ fit := by simp
      refine ⟨?_, hcap'.trans hcap, ?_, ?_⟩
      · rw [happend]
        rw [drop_drop] at hholds
        exact hholds
      · rw [lastEnd, if_neg (by omega), Int.toNat_natCast]
        exact hend
      · intro p hp hpos
        rcases mem_cons.mp hp with rfl | hp
        · exact ⟨done, _, rfl, rfl⟩
        · rw [happend]
          exact hlog p hp hpos

/-- A frame in the middle of others is read at its offset. -/
theorem readAt_frame {before after : List (List UInt8)}
    (h : seg.Holds (before ++ rec :: after) rest) (hread : Readable rec) :
    seg.readAt (framesSize before) = some rec := by
  have hlen := congrArg List.length h.bytes
  have hsize : framesSize (before ++ rec :: after) =
      framesSize before + (FRAME_OVERHEAD + rec.length + framesSize after) := by
    rw [framesSize_append]
    rfl
  rw [length_append, length_framesOf] at hlen
  have hcap := h.cap
  have hcur := h.cursor
  have hmax : max seg.cursor seg.cap = seg.bytes.length := by omega
  have hlt : framesSize before < seg.cursor := by
    rw [hcur, hsize, FRAME_OVERHEAD]
    omega
  have hdrop : seg.bytes.drop (framesSize before) = frame rec ++ (framesOf after ++ rest) := by
    rw [h.bytes, framesOf_append, framesOf_cons, append_assoc, ← length_framesOf,
      drop_left, append_assoc]
  rw [readAt, hmax, readFrame_drop, hdrop, readFrame_of_frame hread]
  simp [hlt]

/-- A list of records stops being readable at its first empty one. -/
theorem exists_first_empty (h : ¬∀ rec ∈ recs, rec ≠ []) :
    ∃ before after, recs = before ++ [] :: after ∧ ∀ rec ∈ before, rec ≠ [] := by
  induction recs with
  | nil => simp at h
  | cons rec recs ih =>
    by_cases hrec : rec = []
    · exact ⟨[], recs, by rw [hrec]; rfl, by simp⟩
    · obtain ⟨before, after, heq, hne⟩ := ih fun hall => h (forall_mem_cons.mpr ⟨hrec, hall⟩)
      exact ⟨rec :: before, after, by rw [heq]; rfl, forall_mem_cons.mpr ⟨hrec, hne⟩⟩

theorem cursor_le_cap (file : List UInt8) (cap : ℕ) : (openFile file cap).cursor ≤ cap := by
  have hscan := scanFrontier_eq (setLen file cap)
  have hle := scan_le (f := segFormat) (setLen file cap) 0
  rw [length_setLen] at hscan hle
  rw [zero_add] at hle
  simp only [openFile, hscan]
  exact hle

theorem holds_reopened (hread : ∀ v ∈ recs, Readable v) (hle : framesSize recs ≤ cap') :
    (openFile (framesOf recs ++ replicate k 0) cap').Holds recs
      (replicate (cap' - framesSize recs) 0) := by
  apply holds_openFile _ hread (next_zeros _)
  rw [← length_framesOf] at hle ⊢
  exact setLen_frames hle

/-- The scan of a resized file comes to the end of its frames only if there is none without bytes
and none is cut off. -/
theorem cursor_reopened_iff (hshort : ∀ v ∈ recs, v.length ≤ MAX_REC) :
    (openFile (framesOf recs ++ replicate k 0) cap').cursor = framesSize recs ↔
      (∀ v ∈ recs, v ≠ []) ∧ framesSize recs ≤ cap' := by
  constructor
  · intro hcur
    have hle : framesSize recs ≤ cap' := hcur ▸ cursor_le_cap _ cap'
    refine ⟨?_, hle⟩
    by_contra hempty
    obtain ⟨before, after, rfl, hne⟩ := exists_first_empty hempty
    have hset : setLen (framesOf (before ++ [] :: after) ++ replicate k 0) cap' =
        framesOf before ++ (frame [] ++ (framesOf after ++
          replicate (cap' - framesSize (before ++ [] :: after)) 0)) := by
      rw [← length_framesOf] at hle ⊢
      rw [setLen_frames hle, framesOf_append, framesOf_cons]
      simp
    have hstop := holds_openFile hset
      (fun v hv => ⟨hne v hv, hshort v (mem_append_left _ hv)⟩) (next_empty _)
    have hsize : framesSize (before ++ [] :: after) =
        framesSize before + (FRAME_OVERHEAD + 0 + framesSize after) := by
      rw [framesSize_append]
      rfl
    have hcursor := hstop.cursor
    rw [FRAME_OVERHEAD] at hsize
    omega
  · rintro ⟨hne, hle⟩
    exact (holds_reopened (fun v hv => ⟨hne v hv, hshort v hv⟩) hle).cursor

/-- The appends to a new segment. -/
theorem appendAll_new (cap : ℕ) (recs : List (List UInt8)) : (∃ k,
    ((openFile [] cap).appendAll recs).1.bytes = framesOf (fitting cap 0 recs) ++ replicate k 0) ∧
    lastEnd 0 ((openFile [] cap).appendAll recs).2 = framesSize (fitting cap 0 recs) ∧
    ∀ p ∈ ((openFile [] cap).appendAll recs).2, 0 ≤ p.2 →
    ∃ before after, fitting cap 0 recs = before ++ p.1 :: after ∧ p.2 = framesSize before := by
  obtain ⟨hholds, -, hend, hlog⟩ := (holds_openFile_nil cap).appendAll recs
  have hbytes := hholds.bytes
  rw [drop_replicate] at hbytes
  exact ⟨⟨_, hbytes⟩, hend.trans hholds.cursor, hlog⟩

end

/-- What is expected of a segment that is opened again: its frontier is the end of the last append,
and every offset that an append returned gives its record. -/
def Reopened (seg : MmapSeg) (log : List (List UInt8 × ℤ)) : Prop :=
  seg.cursor = lastEnd 0 log ∧ ∀ p ∈ log, 0 ≤ p.2 → seg.readAt p.2.toNat = some p.1

/-- A file comes back as it was appended when no record without bytes was taken and the new length
cuts no frame off. -/
theorem mmapseg_reopens_iff (cap cap' : ℕ) (recs : List (List UInt8)) :
    Reopened (openFile ((openFile [] cap).appendAll recs).1.bytes cap')
        ((openFile [] cap).appendAll recs).2 ↔
      (∀ rec ∈ fitting cap 0 recs, rec ≠ []) ∧ framesSize (fitting cap 0 recs) ≤ cap' := by
  obtain ⟨⟨k, hbytes⟩, hend, hlog⟩ := appendAll_new cap recs
  have hshort : ∀ v ∈ fitting cap 0 recs, v.length ≤ MAX_REC := fun v => length_of_mem_fitting
  rw [Reopened, hend, hbytes, cursor_reopened_iff hshort]
  constructor
  · exact And.left
  · intro h
    refine ⟨h, ?_⟩
    intro p hp hpos
    obtain ⟨before, after, hfit, hoff⟩ := hlog p hp hpos
    have hread : ∀ v ∈ fitting cap 0 recs, Readable v := fun v hv => ⟨h.1 v hv, hshort v hv⟩
    have hholds := holds_reopened (k := k) hread h.2
    rw [hfit] at hholds hread ⊢
    rw [hoff, Int.toNat_natCast]
    exact readAt_frame hholds (hread p.1 (by simp))

/-- A record without bytes is taken, and everything from it on is gone after a restart. -/
theorem empty_record_ends_segment : ¬∀ (cap cap' : ℕ) (recs : List (List UInt8)), 0 < cap →
    0 < cap' → Reopened (openFile ((openFile [] cap).appendAll recs).1.bytes cap')
    ((openFile [] cap).appendAll recs).2 := by
  intro h
  have hlost := (h 32 32 [[], [1]] (by decide) (by decide)).1
  revert hlost
  decide

end MmapSeg

end AxisBridge
