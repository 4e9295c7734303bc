import AxisBridge.Lib.Disk
import AxisBridge.Lib.Framing
import AxisBridge.Runtime.Text

/-! The frame `H|P|V|env|payload` of the write-ahead log, its one parser and the walk over the
segments. -/
namespace AxisBridge
open List Option
open Framing (Format Record)

/-- What the parser hands on of a frame besides its place. -/
structure FrameView where
  env : Bytes
  payload : Bytes
  hexh : String
  deriving DecidableEq

def FrameView.width (v : FrameView) : ℕ := 84 + v.env.length + v.payload.length

/-- The arguments of one call of the visitor. -/
structure Visit where
  seg : ℤ
  poff : ℤ
  plen : ℤ
  env : Bytes
  payload : Bytes
  hexh : String
  deriving DecidableEq

def visitAt (seg : ℤ) (p : ℕ × FrameView) : Visit :=
  ⟨seg, p.1 + 84 + p.2.env.length, p.2.payload.length, p.2.env, p.2.payload, p.2.hexh⟩

/-- A length field: ten bytes of text around a number. -/
def headerLen (field : Bytes) : Option ℕ := do
  let s ← strFromUtf8 field
  parseUsize (trim s)

section
variable [Sha256]

/-- The frame at the head of `bs`, unless it is torn or invalid. -/
def readFrame (bs : Bytes) : Option FrameView := do
  let hexh ← strFromUtf8 (bs.take 64)
  let plen ← headerLen ((bs.drop 64).take 10)
  let vlen ← headerLen ((bs.drop 74).take 10)
  let env := (bs.drop 84).take vlen
  let payload := (bs.drop (84 + vlen)).take plen
  if 84 + vlen + plen > bs.length then none
  else if sha256Hex payload ≠ hexh then none
  else some ⟨env, payload, hexh⟩

/-- The loop of the parser, one turn for each unit of fuel: the frames, where it stopped, whether it
stopped at a torn one. -/
def parseLoop (seg : ℤ) (data : Bytes) : ℕ → ℕ → List Visit × ℕ × Bool
  | 0, off => ([], off, false)
  | fuel + 1, off =>
    if off + 84 ≤ data.length then
      match readFrame (data.drop off) with
      | none => ([], off, true)
      | some v =>
        let later := parseLoop seg data fuel (off + v.width)
        (visitAt seg (off, v) :: later.1, later.2)
    else ([], off, false)

/-- Every turn takes a byte at least, so the bytes are fuel enough. -/
def parseFramesFromBytes (seg : ℤ) (data : Bytes) (startOff : ℕ) : List Visit × ℕ × Bool :=
  parseLoop seg data data.length startOff

end

def segPath (segPrefix : String) (seq : ℤ) : String := s!"{segPrefix}{seq}.log"

def walSegPrefix (shard : String) : String := s!".axverity/wal/{shard}-"

theorem walSegPrefix_eq (shard : String) :
    walSegPrefix shard = ".axverity/wal/" ++ (shard ++ "-") := by
  rw [← String.append_assoc]
  rfl

def readSegment (d : Volume) (segPrefix : String) (seq : ℤ) : Option Bytes :=
  d.read (segPath segPrefix seq)

section
variable [Sha256]

def walkLoop (d : Volume) (segPrefix : String) (wm : ℤ × ℤ) :
    ℕ → ℤ → ℤ → List Visit × ℤ × ℤ
  | 0, _, _ => ([], wm)
  | fuel + 1, cur, off =>
    match readSegment d segPrefix cur with
    | none => ([], wm)
    | some data =>
      let startOff := if off < 0 then 0 else off.toNat
      let parsed := parseFramesFromBytes cur data startOff
      let cleanEnd := !parsed.2.2 && parsed.2.1 == data.length
      if cleanEnd && (readSegment d segPrefix (cur + 1)).isSome then
        let later := walkLoop d segPrefix wm fuel (cur + 1) 0
        (parsed.1 ++ later.1, later.2)
      else (parsed.1, cur, parsed.2.1)

/-- The visits of a walk from the watermark and the frontier it returns; it reads each segment once,
so the directory's entries are fuel enough. -/
def walkFrames (d : Volume) (segPrefix : String) (wmSeg wmOff : ℤ) : List Visit × ℤ × ℤ :=
  walkLoop d segPrefix (wmSeg, wmOff) (d.live.length + 1) wmSeg wmOff

end

/-! ### Valid frames -/

/-- An envelope and a payload with two length fields that say how long they are. -/
structure Frame where
  env : Bytes
  payload : Bytes
  plenf : Bytes
  vlenf : Bytes
  plenf_length : plenf.length = 10
  vlenf_length : vlenf.length = 10
  plenf_value : headerLen plenf = some payload.length
  vlenf_value : headerLen vlenf = some env.length

open Frame

theorem headerLen_padded {n : ℕ} (h : n < 2 ^ 64) :
    headerLen (textBytes (padded 10 n)) = some n := by
  simp [headerLen, trim_padded, parseUsize_padded h]

/-- An envelope and a payload whose lengths fit the ten digits of their fields. -/
structure Entry where
  env : Bytes
  payload : Bytes
  env_lt : env.length < 10 ^ 10
  payload_lt : payload.length < 10 ^ 10

theorem nil_fits : ([] : Bytes).length < 10 ^ 10 := by norm_num

/-- The frame as the writers make it, its lengths padded with zeros. -/
def Entry.frame (e : Entry) : Frame where
  env := e.env
  payload := e.payload
  plenf := textBytes (padded 10 e.payload.length)
  vlenf := textBytes (padded 10 e.env.length)
  plenf_length := length_textBytes_padded_of_lt (by norm_num) e.payload_lt
  vlenf_length := length_textBytes_padded_of_lt (by norm_num) e.env_lt
  plenf_value := headerLen_padded (e.payload_lt.trans (by norm_num))
  vlenf_value := headerLen_padded (e.env_lt.trans (by norm_num))

section
variable [Sha256] {bs more : Bytes} {v : FrameView} {n : ℕ} {f : Frame}

def Frame.view (f : Frame) : FrameView := ⟨f.env, f.payload, sha256Hex f.payload⟩

def Frame.bytes (f : Frame) : Bytes :=
  textBytes (sha256Hex f.payload) ++ (f.plenf ++ (f.vlenf ++ (f.env ++ f.payload)))

theorem Frame.length_bytes (f : Frame) : f.bytes.length = f.view.width := by
  have hhex := length_textBytes_hex (sha256Bytes f.payload)
  simp only [bytes, length_append, sha256Hex, hhex, f.plenf_length, f.vlenf_length,
    FrameView.width, view]
  omega

theorem readFrame_bytes (f : Frame) (more : Bytes) : readFrame (f.bytes ++ more) = some f.view := by
  have hhex : (textBytes (sha256Hex f.payload)).length = 64 := length_textBytes_hex _
  have htake : (f.bytes ++ more).take 64 = textBytes (sha256Hex f.payload) := by
    rw [bytes, append_assoc, ← hhex, take_left]
  have hdrop :
      (f.bytes ++ more).drop 64 = f.plenf ++ (f.vlenf ++ (f.env ++ f.payload) ++ more) := by
    rw [bytes, append_assoc, ← hhex, drop_left, append_assoc]
  have hdrop' : (f.bytes ++ more).drop 74 = f.vlenf ++ (f.env ++ f.payload ++ more) := by
    rw [show 74 = 64 + 10 from rfl, ← drop_drop, hdrop, ← f.plenf_length, drop_left, append_assoc]
  have hbody : (f.bytes ++ more).drop 84 = f.env ++ (f.payload ++ more) := by
    rw [show 84 = 74 + 10 from rfl, ← drop_drop, hdrop', ← f.vlenf_length, drop_left, append_assoc]
  have hpay : (f.bytes ++ more).drop (84 + f.env.length) = f.payload ++ more := by
    rw [← drop_drop, hbody, drop_left]
  have hplen : ((f.bytes ++ more).drop 64).take 10 = f.plenf := by
    rw [hdrop, ← f.plenf_length, take_left]
  have hvlen : ((f.bytes ++ more).drop 74).take 10 = f.vlenf := by
    rw [hdrop', ← f.vlenf_length, take_left]
  have hlen : ¬ 84 + f.env.length + f.payload.length > (f.bytes ++ more).length := by
    have hbytes := f.length_bytes
    simp only [FrameView.width, view] at hbytes
    rw [length_append]
    omega
  simp only [readFrame, htake, hplen, hvlen, strFromUtf8_textBytes, f.plenf_value, f.vlenf_value,
    bind_eq_bind, bind_some, hbody, hpay, take_left, if_neg hlen,
    ne_eq, not_true_eq_false, if_false]
  rfl

/-- What the parser accepts at the head of an input is a valid frame. -/
theorem exists_frame (hlen : 84 ≤ bs.length) (h : readFrame bs = some v) :
    ∃ f : Frame, f.view = v ∧ f.bytes <+: bs := by
  simp only [readFrame, bind_eq_bind, bind_eq_some_iff] at h
  obtain ⟨hexh, hhex, plen, hplen, vlen, hvlen, h⟩ := h
  split at h
  · cases h
  · rename_i hfits
    split at h
    · cases h
    · rename_i hhash
      cases h
      have hhash := not_not.mp hhash
      have henv : ((bs.drop 84).take vlen).length = vlen := by
        rw [length_take, length_drop]
        omega
      have hpay : ((bs.drop (84 + vlen)).take plen).length = plen := by
        rw [length_take, length_drop]
        omega
      refine ⟨⟨(bs.drop 84).take vlen, (bs.drop (84 + vlen)).take plen, (bs.drop 64).take 10,
        (bs.drop 74).take 10, ?_, ?_, ?_, ?_⟩, ?_, ?_⟩
      · rw [length_take, length_drop]
        omega
      · rw [length_take, length_drop]
        omega
      · rw [hplen, hpay]
      · rw [hvlen, henv]
      · simp only [view, hhash]
      · refine ⟨(bs.drop (84 + vlen)).drop plen, ?_⟩
        simp only [bytes, hhash, ← strFromUtf8_eq_some.mp hhex, append_assoc, take_append_drop]
        rw [← drop_drop, take_append_drop, show 84 = 74 + 10 from rfl, ← drop_drop,
          take_append_drop, show 74 = 64 + 10 from rfl, ← drop_drop,
          take_append_drop, take_append_drop]

/-- The frame as a self-delimiting record. -/
def frameNext (bs : Bytes) : Option (FrameView × ℕ) :=
  if 84 ≤ bs.length then (readFrame bs).map fun v => (v, v.width) else none

theorem frameNext_bytes (f : Frame) (more : Bytes) :
    frameNext (f.bytes ++ more) = some (f.view, f.bytes.length) := by
  have hlen := f.length_bytes
  have hwide : 84 ≤ (f.bytes ++ more).length := by
    simp only [length_append, hlen, FrameView.width]
    omega
  rw [frameNext, if_pos hwide, readFrame_bytes, hlen]
  rfl

theorem frameNext_eq_some (h : frameNext bs = some (v, n)) :
    ∃ f : Frame, f.view = v ∧ f.bytes.length = n ∧ f.bytes <+: bs := by
  unfold frameNext at h
  split at h
  · rename_i hlen
    obtain ⟨w, hw, heq⟩ := map_eq_some_iff.mp h
    cases heq
    obtain ⟨f, rfl, hpre⟩ := exists_frame hlen hw
    exact ⟨f, rfl, f.length_bytes, hpre⟩
  · cases h

def frameFormat : Format UInt8 FrameView where
  next := frameNext
  width_pos h := by
    obtain ⟨f, -, hlen, -⟩ := frameNext_eq_some h
    have hwidth := f.length_bytes
    simp only [FrameView.width] at hwidth
    omega
  width_le h := by
    obtain ⟨f, -, hlen, hpre⟩ := frameNext_eq_some h
    exact hlen ▸ hpre.length_le
  next_take h more := by
    obtain ⟨f, rfl, hlen, rest, rfl⟩ := frameNext_eq_some h
    rw [← hlen, take_left]
    exact frameNext_bytes f more

def Frame.record (f : Frame) : Record frameFormat where
  word := f.bytes
  value := f.view
  whole := by
    have hnext := frameNext_bytes f []
    rwa [append_nil] at hnext

end

attribute [local instance] textDigests

def frameA : Frame := Entry.frame ⟨[], [97], nil_fits, by decide⟩

theorem length_frameA : frameA.bytes.length = 85 := frameA.length_bytes

end AxisBridge
