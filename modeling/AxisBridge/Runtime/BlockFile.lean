import AxisBridge.Runtime.FrameWalk

/-! Block files `block-<seq>.bin`: the trailer that records completeness, the walk over the sealed
blocks, and why its frontier never passes an unfinished one. -/
namespace AxisBridge
open List
open Framing (exists_cut)

/-- `b"AXVBLK1\n"`. -/
def BLOCK_MAGIC : Bytes := [65, 88, 86, 66, 76, 75, 49, 10]

def BLOCK_LEN_DIGITS : ℕ := 16

def BLOCK_TRAILER_LEN : ℕ := 8 + BLOCK_LEN_DIGITS

def trailerFor (bodyLen : ℕ) : Bytes :=
  BLOCK_MAGIC ++ textBytes (padded BLOCK_LEN_DIGITS bodyLen)

/-- The body in front of a trailer that records its length. -/
def trailered (data : Bytes) : Option Bytes :=
  if data.length ≥ BLOCK_TRAILER_LEN then
    let split := data.length - BLOCK_TRAILER_LEN
    let body := data.take split
    let trailer := data.drop split
    if trailer.take 8 = BLOCK_MAGIC then
      if headerLen (trailer.drop 8) = some body.length then some body else none
    else none
  else none

/-- The completeness rule of the readers: without a trailer a file is whole only where files are
renamed into place. -/
def splitComplete (preallocEnabled : Bool) (data : Bytes) : Option Bytes :=
  match trailered data with
  | some body => some body
  | none => if preallocEnabled then none else some data

def bodyIsIntact (bodyLen endOff : ℕ) (torn : Bool) : Bool := !torn && endOff == bodyLen

def blockPath (flushDir : String) (seq : ℤ) : String := s!"{flushDir}/block-{seq}.bin"

section
variable [Sha256]

def hotblkLoop (preallocEnabled : Bool) (d : Volume) (flushDir : String) :
    ℕ → ℤ → List Visit × ℤ
  | 0, seq => ([], seq)
  | fuel + 1, seq =>
    match d.read (blockPath flushDir seq) with
    | none => ([], seq)
    | some data =>
      match splitComplete preallocEnabled data with
      | none => ([], seq)
      | some body =>
        let parsed := parseFramesFromBytes seq body 0
        if !bodyIsIntact body.length parsed.2.1 parsed.2.2 then (parsed.1, seq)
        else
          let later := hotblkLoop preallocEnabled d flushDir fuel (seq + 1)
          (parsed.1 ++ later.1, later.2)

/-- The visits of a walk over the sealed blocks, and the block to try next. -/
def walkHotblkFrames (preallocEnabled : Bool) (d : Volume) (flushDir : String)
    (fromSeq : ℤ) : List Visit × ℤ :=
  hotblkLoop preallocEnabled d flushDir (d.live.length + 1) (if fromSeq < 1 then 1 else fromSeq)

/-- The walk steps past the block `seq` with these bytes. -/
def Advances (preallocEnabled : Bool) (seq : ℤ) (data : Bytes) : Prop :=
  ∃ body, splitComplete preallocEnabled data = some body ∧
    bodyIsIntact body.length (parseFramesFromBytes seq body 0).2.1
      (parseFramesFromBytes seq body 0).2.2 = true

end

section
variable {data body : Bytes} {n : ℕ}

theorem blockPath_inj {flushDir : String} {m n : ℕ}
    (h : blockPath flushDir (m : ℤ) = blockPath flushDir (n : ℤ)) : m = n := by
  have hnumbered : flushDir ++ "/block-" ++ toString (m : ℤ) ++ ".bin" =
      flushDir ++ "/block-" ++ toString (n : ℤ) ++ ".bin" := h
  exact Int.ofNat_inj.mp (numbered_inj hnumbered)

/-- A directory has no more blocks than entries. -/
theorem blocks_le_live {d : Volume} {flushDir : String} {m : ℕ}
    (h : ∀ i < n, (d.read (blockPath flushDir ((m + i : ℕ) : ℤ))).isSome = true) :
    n ≤ d.live.length := by
  have hnd : ((range n).map fun i : ℕ => blockPath flushDir ((m + i : ℕ) : ℤ)).Nodup := by
    apply nodup_range.map
    intro i j hij
    have hinj := blockPath_inj hij
    omega
  have hle := Disk.length_le_of_readable (d := d) hnd (by
    intro p hp
    obtain ⟨i, hi, rfl⟩ := mem_map.mp hp
    exact h i (mem_range.mp hi))
  rwa [length_map, length_range] at hle

theorem length_trailerFor (h : n < 10 ^ 16) : (trailerFor n).length = BLOCK_TRAILER_LEN := by
  have hlen : (textBytes (padded 16 n)).length = 16 :=
    length_textBytes_padded_of_lt (by norm_num) h
  simp [trailerFor, BLOCK_MAGIC, BLOCK_LEN_DIGITS, BLOCK_TRAILER_LEN, hlen]

theorem trailered_eq_some (h : trailered data = some body) :
    ∃ field, data = body ++ (BLOCK_MAGIC ++ field) ∧ field.length = BLOCK_LEN_DIGITS ∧
      headerLen field = some body.length := by
  unfold trailered at h
  split at h
  · rename_i hlen
    simp only at h
    split at h
    · rename_i hmagic
      split at h
      · rename_i hfield
        cases h
        refine ⟨_, ?_, ?_, hfield⟩
        · rw [← hmagic, take_append_drop, take_append_drop]
        · simp only [length_drop, BLOCK_TRAILER_LEN, BLOCK_LEN_DIGITS] at hlen ⊢
          omega
      · cases h
    · cases h
  · cases h

theorem trailered_trailerFor (h : body.length < 10 ^ 16) :
    trailered (body ++ trailerFor body.length) = some body := by
  have hlen := length_trailerFor h
  have hsplit : (body ++ trailerFor body.length).length - BLOCK_TRAILER_LEN = body.length := by
    rw [length_append, hlen, Nat.add_sub_cancel]
  have hge : (body ++ trailerFor body.length).length ≥ BLOCK_TRAILER_LEN := by
    rw [length_append, hlen]
    exact Nat.le_add_left _ _
  have hmagic : (trailerFor body.length).take 8 = BLOCK_MAGIC := rfl
  have hfield : (trailerFor body.length).drop 8 = textBytes (padded 16 body.length) := rfl
  have hvalue : headerLen (textBytes (padded 16 body.length)) = some body.length := by
    simp [headerLen, trim_padded, parseUsize_padded (h.trans (by norm_num : 10 ^ 16 < 2 ^ 64))]
  unfold trailered
  rw [if_pos hge]
  simp only [hsplit, take_left, drop_left, hmagic, hfield, hvalue, if_true]

/-- A recorded length never needs more than its sixteen digits. -/
theorem lt_of_headerLen {field : Bytes} (h : headerLen field = some n) :
    n < 10 ^ field.length := by
  simp only [headerLen, Option.bind_eq_bind, Option.bind_eq_some_iff] at h
  obtain ⟨s, hs, hparse⟩ := h
  have hchars := length_le_length_textBytes (s := s)
  rw [← strFromUtf8_eq_some.mp hs] at hchars
  exact (parseUsize_lt hparse).trans_le
    (Nat.pow_le_pow_right (by norm_num) (length_trim_le.trans hchars))

/-- No digit and no hexadecimal digit is the first letter of the magic. -/
theorem magic_not_mem_digits {c : Char} (h : c.isDigit = true) :
    (65 : UInt8) ∉ String.utf8EncodeChar c := by
  rw [String.utf8EncodeChar_eq_singleton (utf8Size_of_isDigit h), mem_singleton]
  intro heq
  have hle := (Char.isDigit_iff_toNat.mp h).2
  have h9 : '9'.toNat = 57 := rfl
  have hval : c.val.toNat = c.toNat := rfl
  have hnat := congrArg UInt8.toNat heq
  simp only [UInt32.toNat_toUInt8, UInt8.reduceToNat] at hnat
  omega

theorem magic_not_mem_hexDigit : ∀ n < 16, (65 : UInt8) ∉ String.utf8EncodeChar (hexDigit n) := by
  decide

theorem magic_not_mem_padded (width : ℕ) : (65 : UInt8) ∉ textBytes (padded width n) := by
  intro hmem
  rw [← String.ofList_toList (s := padded width n), textBytes_ofList, mem_flatMap] at hmem
  obtain ⟨c, hc, hmem⟩ := hmem
  exact magic_not_mem_digits (isDigit_padded hc) hmem

theorem magic_not_mem_hex (h : Hash256) : (65 : UInt8) ∉ textBytes (hash256ToHex h) := by
  intro hmem
  rw [← String.ofList_toList (s := hash256ToHex h), textBytes_ofList, mem_flatMap] at hmem
  obtain ⟨c, hc, hmem⟩ := hmem
  obtain ⟨k, hk, rfl⟩ := hexDigit_of_mem hc
  exact magic_not_mem_hexDigit k hk hmem

end

section
variable [Sha256] {b : Bytes} {seq : ℤ} {frames : List Frame}

/-- A file whose body parses to its end is one the walk steps past. -/
theorem intact_framesBytes (seq : ℤ) (frames : List Frame) :
    bodyIsIntact (framesBytes frames).length (parseFramesFromBytes seq (framesBytes frames) 0).2.1
      (parseFramesFromBytes seq (framesBytes frames) 0).2.2 = true := by
  obtain ⟨torn, hparse, htorn⟩ := parseFrames_start seq frames
    (append_nil (framesBytes frames)).symm frameNext_nil
  cases torn with
  | false => simp [hparse, bodyIsIntact]
  | true => exact absurd rfl (htorn rfl)

/-- A prefix of whole frames that parses to its end holds whole frames. -/
theorem frames_of_intact (hpre : b <+: framesBytes frames)
    (h : bodyIsIntact b.length (parseFramesFromBytes seq b 0).2.1
      (parseFramesFromBytes seq b 0).2.2 = true) : ∃ k, b = framesBytes (frames.take k) := by
  rw [← words_record] at hpre
  obtain ⟨k, piece, hb, hnone, -⟩ := exists_cut _ hpre
  rw [← map_take, words_record] at hb
  obtain ⟨torn, hparse, -⟩ := parseFrames_start seq (frames.take k) hb hnone
  simp only [bodyIsIntact, hparse, Bool.and_eq_true, beq_iff_eq] at h
  have hlen := h.2
  rw [hb, length_append] at hlen
  have hnil : piece = [] := length_eq_zero_iff.mp (by omega)
  exact ⟨k, by rw [hb, hnil, append_nil]⟩

/-- Behind a proper prefix of whole frames the next byte is a hexadecimal digit. -/
theorem next_byte_ne (k : ℕ) {rest tail : Bytes} (hk : k < frames.length)
    (h : framesBytes frames ++ rest = framesBytes (frames.take k) ++ 65 :: tail) : False := by
  have hsplit : frames = frames.take k ++ frames[k] :: frames.drop (k + 1) := by
    rw [cons_getElem_drop_succ, take_append_drop]
  rw [hsplit, framesBytes_append, append_assoc, framesBytes_cons] at h
  rw [← hsplit] at h
  have hnext := append_cancel_left h
  have hhex : (textBytes (sha256Hex frames[k].payload)).length = 64 := length_textBytes_hex _
  cases hbytes : textBytes (sha256Hex frames[k].payload) with
  | nil => simp [hbytes] at hhex
  | cons c cs =>
    rw [Frame.bytes, hbytes] at hnext
    simp only [cons_append, List.cons.injEq] at hnext
    have hmem : (65 : UInt8) ∈ textBytes (sha256Hex frames[k].payload) := by
      rw [hbytes, hnext.1]
      exact mem_cons_self
    exact magic_not_mem_hex _ hmem

/-- Among the prefixes of a file in the making the walk steps past the complete file only, and past
that when the length of its body has its digits in the trailer. -/
theorem complete_of_advances {p : Bytes}
    (hpre : p <+: framesBytes frames ++ trailerFor (framesBytes frames).length)
    (h : Advances true seq p) :
    p = framesBytes frames ++ trailerFor (framesBytes frames).length ∧
      (framesBytes frames).length < 10 ^ 16 := by
  obtain ⟨b, hsplit, hintact⟩ := h
  have htrailer : trailered p = some b := by
    unfold splitComplete at hsplit
    split at hsplit
    · rename_i htrailer
      rw [htrailer, hsplit]
    · simp at hsplit
  obtain ⟨field, hp, hfield, hvalue⟩ := trailered_eq_some htrailer
  obtain ⟨rest, hrest⟩ := hpre
  have hfile : framesBytes frames ++ trailerFor (framesBytes frames).length =
      b ++ 65 :: (BLOCK_MAGIC.tail ++ field ++ rest) := by
    rw [← hrest, hp]
    simp [BLOCK_MAGIC]
  have hbfile : b <+: framesBytes frames ++ trailerFor (framesBytes frames).length :=
    ⟨_, hfile.symm⟩
  rcases lt_trichotomy b.length (framesBytes frames).length with hlt | heq | hgt
  · -- the trailer would start where a frame starts
    have hb : b <+: framesBytes frames :=
      prefix_of_prefix_length_le hbfile (prefix_append _ _) hlt.le
    obtain ⟨k, hk⟩ := frames_of_intact hb hintact
    have hlt' : k < frames.length := by
      by_contra hge
      rw [hk, take_of_length_le (not_lt.mp hge)] at hlt
      exact lt_irrefl _ hlt
    exact (next_byte_ne k hlt' (hk ▸ hfile)).elim
  · have hb : b = framesBytes frames :=
      (prefix_of_prefix_length_le hbfile (prefix_append _ _) heq.le).eq_of_length heq
    have hshort : (framesBytes frames).length < 10 ^ 16 := by
      rw [← heq]
      have hlt := lt_of_headerLen hvalue
      rwa [hfield] at hlt
    refine ⟨?_, hshort⟩
    have hlen := congrArg List.length hrest
    rw [hp, hb] at hlen
    simp only [length_append, length_trailerFor hshort, hfield, BLOCK_TRAILER_LEN] at hlen
    have hmagic : BLOCK_MAGIC.length = 8 := rfl
    have hnil : rest = [] := length_eq_zero_iff.mp (by omega)
    rw [← hrest, hnil, append_nil]
  · -- the trailer would start inside the real one
    have hinside : ∃ pre, b = framesBytes frames ++ pre ∧ pre ≠ [] := by
      obtain ⟨pre, hpre⟩ := prefix_of_prefix_length_le (prefix_append _ _) hbfile hgt.le
      refine ⟨pre, hpre.symm, ?_⟩
      rintro rfl
      rw [← hpre, append_nil] at hgt
      exact lt_irrefl _ hgt
    obtain ⟨pre, rfl, hpre⟩ := hinside
    rw [append_assoc] at hfile
    have htail := append_cancel_left hfile
    obtain ⟨c, pre, rfl⟩ := exists_cons_of_ne_nil hpre
    have hmem :
        (65 : UInt8) ∈ BLOCK_MAGIC.tail ++ textBytes (padded 16 (framesBytes frames).length) := by
      have hcons := congrArg List.tail htail
      have hleft : (trailerFor (framesBytes frames).length).tail =
          BLOCK_MAGIC.tail ++ textBytes (padded 16 (framesBytes frames).length) := rfl
      rw [← hleft, hcons]
      simp
    rcases mem_append.mp hmem with hmem | hmem
    · exact absurd hmem (by decide)
    · exact (magic_not_mem_padded 16 hmem).elim

theorem length_framesBytes_replicate (n : ℕ) (f : Frame) :
    (framesBytes (replicate n f)).length = n * f.bytes.length := by
  induction n with
  | zero => simp
  | succ n ih =>
    rw [replicate_succ, framesBytes_cons, length_append, ih, Nat.succ_mul, Nat.add_comm]

theorem advances_complete (h : (framesBytes frames).length < 10 ^ 16) :
    Advances true seq (framesBytes frames ++ trailerFor (framesBytes frames).length) :=
  ⟨framesBytes frames, by rw [splitComplete, trailered_trailerFor h], intact_framesBytes seq frames⟩

/-- The frontier never passes an unfinished preallocated block, whatever its payloads imitate; it
passes the finished one, whose body comes back, when the body's length fits the trailer's digits. -/
theorem block_frontier (seq : ℤ) (frames : List Frame) :
    let body := framesBytes frames
    let file := body ++ trailerFor body.length
    (∀ p, p <+: file → p ≠ file → ¬ Advances true seq p) ∧
      (body.length < 10 ^ 16 → Advances true seq file ∧ splitComplete true file = some body) := by
  intro body file
  refine ⟨?_, ?_⟩
  · intro p hpre hne hadv
    exact hne (complete_of_advances hpre hadv).1
  · intro hshort
    exact ⟨advances_complete hshort, by rw [splitComplete, trailered_trailerFor hshort]⟩

end

attribute [local instance] textDigests

theorem block_frontier_frameA :
    Advances true 1 (framesBytes [frameA] ++ trailerFor 85) ∧
      ¬ Advances true 1 (framesBytes [frameA] ++ BLOCK_MAGIC) := by
  have hlen : (framesBytes [frameA]).length = 85 := by
    simp [length_frameA]
  obtain ⟨hcut, hwhole⟩ := block_frontier 1 [frameA]
  rw [hlen] at hcut hwhole
  have hmagic : BLOCK_MAGIC.length = 8 := rfl
  refine ⟨(hwhole (by norm_num)).1, hcut _ ?_ ?_⟩
  · exact (prefix_append_right_inj _).mpr (prefix_append _ _)
  · intro heq
    have hfile := congrArg List.length (append_cancel_left heq)
    rw [length_trailerFor (by norm_num), hmagic] at hfile
    exact absurd hfile (by decide)

/-- A body whose length takes seventeen digits: the trailer is one byte too wide to be found. -/
theorem block_frontier_seventeenDigits :
    let body := framesBytes (replicate (10 ^ 16) frameA)
    ¬ Advances true 1 (body ++ trailerFor body.length) := by
  intro body hadv
  have hshort := (complete_of_advances (prefix_refl _) hadv).2
  have hlen := length_framesBytes_replicate (10 ^ 16) frameA
  rw [length_frameA] at hlen
  omega

end AxisBridge
