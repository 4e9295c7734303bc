import AxisBridge.Runtime.Frames

/-! The walk over a log of valid frames: from any frame boundary it meets the frames behind it,
whole or not, up to the last whole one. -/
namespace AxisBridge
open List Option
open Framing (words places scan_words scan_stop scan_record places_append next_of_cut)

section
variable {d : Volume} {segPrefix : String} {k : ℤ}

/-- The segments numbered from `k` on have these bytes, and there are no others. -/
def HoldsFrom (d : Volume) (segPrefix : String) : ℤ → List Bytes → Prop
  | k, [] => readSegment d segPrefix k = none
  | k, data :: rest => readSegment d segPrefix k = some data ∧ HoldsFrom d segPrefix (k + 1) rest

theorem HoldsFrom.drop {contents : List Bytes} (h : HoldsFrom d segPrefix k contents) (i : ℕ)
    (hi : i ≤ contents.length) : HoldsFrom d segPrefix (k + i) (contents.drop i) := by
  induction i generalizing k contents with
  | zero => simpa using h
  | succ i ih =>
    cases contents with
    | nil => simp at hi
    | cons data contents =>
      have hnext := ih h.2 (by simpa using hi)
      rw [drop_succ_cons, Nat.cast_succ, add_comm (i : ℤ), ← add_assoc]
      exact hnext

theorem segPath_inj {m n : ℕ} (h : segPath segPrefix (m : ℤ) = segPath segPrefix (n : ℤ)) :
    m = n := by
  have hnumbered : segPrefix ++ toString (m : ℤ) ++ ".log" =
    segPrefix ++ toString (n : ℤ) ++ ".log" := h
  exact Int.ofNat_inj.mp (numbered_inj hnumbered)

variable {contents : List Bytes}

theorem HoldsFrom.readable (h : HoldsFrom d segPrefix k contents)
    {i : ℕ} (hi : i < contents.length) : (readSegment d segPrefix (k + i)).isSome = true := by
  have hfrom := h.drop i hi.le
  rw [drop_eq_getElem_cons hi] at hfrom
  exact isSome_iff_exists.mpr ⟨_, hfrom.1⟩

theorem HoldsFrom.length_le (h : HoldsFrom d segPrefix 0 contents) :
    contents.length ≤ d.live.length := by
  have hnd : ((range contents.length).map fun i : ℕ => segPath segPrefix i).Nodup :=
    nodup_range.map fun m n => segPath_inj
  have hle := Disk.length_le_of_readable (d := d) hnd (by
    intro p hp
    obtain ⟨i, hi, rfl⟩ := mem_map.mp hp
    have hread := h.readable (mem_range.mp hi)
    rwa [zero_add] at hread)
  simpa using hle

end

variable [Sha256]

def framesBytes (fs : List Frame) : Bytes := fs.flatMap Frame.bytes

/-- The visits of a segment's frames, the first of them at `off`. -/
def frameVisits (seg : ℤ) : ℕ → List Frame → List Visit
  | _, [] => []
  | off, f :: fs => visitAt seg (off, f.view) :: frameVisits seg (off + f.bytes.length) fs

/-- The visits of a log's segments, the first of them number `k`. -/
def logVisits : ℤ → List (List Frame) → List Visit
  | _, [] => []
  | k, s :: rest => frameVisits k 0 s ++ logVisits (k + 1) rest

/-- The bytes of a log's segments when `piece` follows the last whole frame. -/
def logBytes : List (List Frame) → Bytes → List Bytes
  | [], _ => []
  | [s], piece => [framesBytes s ++ piece]
  | s :: s' :: rest, piece => framesBytes s :: logBytes (s' :: rest) piece

/-- Where the last whole frame of a log ends. -/
def logEnd : ℤ → List (List Frame) → ℤ × ℤ
  | k, [] => (k, 0)
  | k, [s] => (k, (framesBytes s).length)
  | k, _ :: s' :: rest => logEnd (k + 1) (s' :: rest)

variable {d : Volume} {segPrefix : String} {seg k cur : ℤ} {data piece : Bytes}
  {off fuel : ℕ} {f : Frame} {fs done todo : List Frame} {segs rest : List (List Frame)}

@[simp] theorem framesBytes_nil : framesBytes [] = [] := rfl

@[simp] theorem framesBytes_cons : framesBytes (f :: fs) = f.bytes ++ framesBytes fs := rfl

@[simp] theorem framesBytes_append :
    framesBytes (done ++ todo) = framesBytes done ++ framesBytes todo :=
  flatMap_append

theorem frameNext_nil : frameNext [] = none := Framing.next_nil (f := frameFormat)

theorem words_record (fs : List Frame) : words (fs.map Frame.record) = framesBytes fs := by
  induction fs with
  | nil => rfl
  | cons f fs ih =>
    rw [map_cons, Framing.words_cons, ih]
    rfl

theorem places_record (fs : List Frame) (off : ℕ) :
    (places off (fs.map Frame.record)).map (visitAt seg) = frameVisits seg off fs := by
  induction fs generalizing off with
  | nil => rfl
  | cons f fs ih =>
    rw [map_cons, places, map_cons, ih]
    rfl

theorem frameVisits_append (done todo : List Frame) (off : ℕ) :
    frameVisits seg off (done ++ todo) =
      frameVisits seg off done ++ frameVisits seg (off + (framesBytes done).length) todo := by
  rw [← places_record, map_append, places_append, map_append, places_record,
    places_record, words_record]

theorem length_frameVisits (seg : ℤ) (fs : List Frame) (off : ℕ) :
    (frameVisits seg off fs).length = fs.length := by
  induction fs generalizing off with
  | nil => rfl
  | cons f fs ih => simp [frameVisits, ih]

theorem logVisits_append (segs rest : List (List Frame)) (k : ℤ) :
    logVisits k (segs ++ rest) = logVisits k segs ++ logVisits (k + segs.length) rest := by
  induction segs generalizing k with
  | nil => simp [logVisits]
  | cons s segs ih =>
    have hk : k + 1 + (segs.length : ℤ) = k + ((s :: segs).length : ℕ) := by
      simp only [length_cons, Nat.cast_add, Nat.cast_one]
      omega
    rw [cons_append, logVisits, logVisits, ih, hk, append_assoc]

theorem length_logVisits (segs : List (List Frame)) (k : ℤ) :
    (logVisits k segs).length = segs.flatten.length := by
  induction segs generalizing k with
  | nil => rfl
  | cons s segs ih => simp [logVisits, ih, length_frameVisits]

/-- The parser's loop is the scan for frames; when it stops at a torn one, bytes are left. -/
theorem parseLoop_eq (seg : ℤ) (data : Bytes) (fuel off : ℕ) (hfuel : data.length - off ≤ fuel) :
    ∃ torn, parseLoop seg data fuel off = ((Framing.scan frameFormat off (data.drop off)).1.map
      (visitAt seg), (Framing.scan frameFormat off (data.drop off)).2, torn) ∧
      (torn = true → (Framing.scan frameFormat off (data.drop off)).2 < data.length) := by
  induction fuel generalizing off with
  | zero =>
    have hnil : data.drop off = [] := drop_eq_nil_iff.mpr (by omega)
    refine ⟨false, ?_, by simp⟩
    rw [hnil, scan_stop Framing.next_nil]
    rfl
  | succ fuel ih =>
    by_cases hshort : off + 84 ≤ data.length
    · have hlong : 84 ≤ (data.drop off).length := by
        rw [length_drop]
        omega
      cases hread : readFrame (data.drop off) with
      | none =>
        have hnext : frameFormat.next (data.drop off) = none := by
          simp [frameFormat, frameNext, hread]
        refine ⟨true, ?_, ?_⟩
        · rw [scan_stop hnext, parseLoop, if_pos hshort, hread]
          rfl
        · intro _
          rw [scan_stop hnext]
          omega
      | some v =>
        have hnext : frameNext (data.drop off) = some (v, v.width) := by
          rw [frameNext, if_pos hlong, hread]
          rfl
        have hwidth : 84 ≤ v.width := by
          simp only [FrameView.width]
          omega
        obtain ⟨torn, hloop, htorn⟩ := ih (off + v.width) (by omega)
        rw [← drop_drop] at hloop htorn
        refine ⟨torn, ?_, ?_⟩
        · rw [scan_record (f := frameFormat) hnext, parseLoop, if_pos hshort, hread]
          simp [hloop]
        · rw [scan_record (f := frameFormat) hnext]
          exact htorn
    · have hnext : frameFormat.next (data.drop off) = none := by
        have hlen : ¬ 84 ≤ (data.drop off).length := by
          rw [length_drop]
          omega
        simp only [frameFormat, frameNext, if_neg hlen]
      refine ⟨false, ?_, by simp⟩
      rw [scan_stop hnext, parseLoop, if_neg hshort]
      rfl

/-- From a frame boundary the parser meets the frames behind it, and comes to the end of the bytes
exactly when nothing follows the last one. -/
theorem parseFrames_spec (seg : ℤ) (done todo : List Frame)
    (hdata : data = framesBytes (done ++ todo) ++ piece) (hoff : off = (framesBytes done).length)
    (hpiece : frameNext piece = none) : ∃ torn, parseFramesFromBytes seg data off =
    (frameVisits seg off todo, (framesBytes (done ++ todo)).length, torn) ∧
    (torn = true → piece ≠ []) := by
  have hdrop : data.drop off = framesBytes todo ++ piece := by
    rw [hdata, hoff, framesBytes_append, append_assoc, drop_left]
  have hscan : Framing.scan frameFormat off (data.drop off) =
      (places off (todo.map Frame.record), (framesBytes (done ++ todo)).length) := by
    have hstop : Framing.scan frameFormat (off + (framesBytes todo).length) piece =
        ([], off + (framesBytes todo).length) := scan_stop hpiece
    rw [hdrop, ← words_record todo, scan_words, words_record, hstop, append_nil, hoff,
      framesBytes_append, length_append]
  obtain ⟨torn, hloop, htorn⟩ := parseLoop_eq seg data data.length off (by omega)
  rw [hscan] at hloop htorn
  refine ⟨torn, ?_, ?_⟩
  · rw [parseFramesFromBytes, hloop, places_record]
  · rintro rfl rfl
    have hlt := htorn rfl
    rw [hdata, append_nil] at hlt
    exact lt_irrefl _ hlt

/-- The same from the start of the bytes. -/
theorem parseFrames_start (seg : ℤ) (fs : List Frame) (hdata : data = framesBytes fs ++ piece)
    (hpiece : frameNext piece = none) :
    ∃ torn, parseFramesFromBytes seg data 0 =
        (frameVisits seg 0 fs, (framesBytes fs).length, torn) ∧ (torn = true → piece ≠ []) :=
  parseFrames_spec seg [] fs hdata rfl hpiece

/-- Behind the bytes there is nothing to parse. -/
theorem parseFrames_past (seg : ℤ) (hoff : data.length < off) :
    parseFramesFromBytes seg data off = ([], off, false) := by
  unfold parseFramesFromBytes
  cases hlen : data.length with
  | zero => rfl
  | succ n =>
    have hshort : ¬ off + 84 ≤ data.length := by omega
    rw [parseLoop, if_neg hshort]

/-- The walk from a frame boundary of the current segment. -/
theorem walkLoop_spec (hpiece : frameNext piece = none) {wm : ℤ × ℤ} (rest : List (List Frame)) :
    ∀ {fuel : ℕ} {cur : ℤ} {done todo : List Frame}, rest.length < fuel →
      HoldsFrom d segPrefix cur (logBytes ((done ++ todo) :: rest) piece) →
      walkLoop d segPrefix wm fuel cur (framesBytes done).length =
        (frameVisits cur (framesBytes done).length todo ++ logVisits (cur + 1) rest,
          logEnd cur ((done ++ todo) :: rest)) := by
  induction rest with
  | nil =>
    intro fuel cur done todo hfuel hlog
    obtain ⟨fuel, rfl⟩ := Nat.exists_eq_succ_of_ne_zero (ne_of_gt hfuel)
    obtain ⟨hread, hend⟩ := hlog
    have hend : readSegment d segPrefix (cur + 1) = none := hend
    obtain ⟨torn, hparse, -⟩ := parseFrames_spec cur done todo rfl rfl hpiece
    simp only [walkLoop, hread, Int.toNat_natCast, hparse, hend, isSome_none, Bool.and_false,
      Bool.false_eq_true, if_false, logVisits, append_nil, logEnd,
      if_neg (not_lt.mpr (Int.natCast_nonneg _))]
  | cons s rest ih =>
    intro fuel cur done todo hfuel hlog
    obtain ⟨fuel, rfl⟩ :=
      Nat.exists_eq_succ_of_ne_zero (Nat.ne_of_gt (Nat.lt_of_le_of_lt (Nat.zero_le _) hfuel))
    obtain ⟨hread, hlog⟩ := hlog
    have hnext : (readSegment d segPrefix (cur + 1)).isSome = true := by
      cases rest with
      | nil | cons s' rest => exact isSome_iff_exists.mpr ⟨_, hlog.1⟩
    obtain ⟨torn, hparse, htorn⟩ := parseFrames_spec cur done todo (append_nil _).symm rfl
      frameNext_nil
    have hclean : torn = false := by
      cases torn with
      | false => rfl
      | true => exact absurd rfl (htorn rfl)
    have hlater := @ih fuel (cur + 1) [] s (Nat.lt_of_succ_lt_succ hfuel) hlog
    simp only [framesBytes_nil, length_nil, Nat.cast_zero, nil_append] at hlater
    simp only [walkLoop, hread, Int.toNat_natCast, hparse, hclean, hnext, hlater, Bool.not_false,
      beq_self_eq_true, Bool.and_self, if_true, logVisits, logEnd,
      if_neg (not_lt.mpr (Int.natCast_nonneg _))]

theorem length_logBytes (segs : List (List Frame)) (piece : Bytes) :
    (logBytes segs piece).length = segs.length := by
  induction segs with
  | nil => rfl
  | cons s rest ih =>
    cases rest with
    | nil => rfl
    | cons s' rest => simpa [logBytes] using ih

theorem drop_logBytes (segs rest : List (List Frame)) (hrest : rest ≠ []) (piece : Bytes) :
    (logBytes (segs ++ rest) piece).drop segs.length = logBytes rest piece := by
  induction segs with
  | nil => rfl
  | cons s segs ih =>
    obtain ⟨s', rest', hcons⟩ := exists_cons_of_ne_nil (l := segs ++ rest) (by simp [hrest])
    rw [cons_append, hcons, logBytes, length_cons, drop_succ_cons, ← hcons]
    exact ih

theorem logBytes_concat (segs : List (List Frame)) (s : List Frame) (piece : Bytes) :
    logBytes (segs ++ [s]) piece = segs.map framesBytes ++ [framesBytes s ++ piece] := by
  induction segs with
  | nil => rfl
  | cons s' segs ih =>
    obtain ⟨t, rest, hcons⟩ := exists_cons_of_ne_nil (l := segs ++ [s]) (by simp)
    rw [cons_append, hcons, logBytes, ← hcons, ih]
    rfl

theorem logEnd_append (segs rest : List (List Frame)) (hrest : rest ≠ []) (k : ℤ) :
    logEnd k (segs ++ rest) = logEnd (k + segs.length) rest := by
  induction segs generalizing k with
  | nil => simp
  | cons s segs ih =>
    obtain ⟨s', rest', hcons⟩ := exists_cons_of_ne_nil (l := segs ++ rest) (by simp [hrest])
    rw [cons_append, hcons, logEnd, ← hcons, ih, length_cons, Nat.cast_succ]
    congr 1
    omega

variable {before : List (List Frame)}

/-- The walk from a frame boundary of a log: the frames behind it, and the log's end. -/
theorem walkFrames_spec (hpiece : frameNext piece = none)
    (hlog : HoldsFrom d segPrefix 0 (logBytes (before ++ (done ++ todo) :: rest) piece)) :
    walkFrames d segPrefix before.length (framesBytes done).length =
      (frameVisits before.length (framesBytes done).length todo ++
          logVisits (before.length + 1) rest, logEnd 0 (before ++ (done ++ todo) :: rest)) := by
  have hle := hlog.length_le
  rw [length_logBytes, length_append, length_cons] at hle
  have hfrom := hlog.drop before.length (by
    rw [length_logBytes, length_append]
    omega)
  rw [drop_logBytes _ _ (cons_ne_nil _ _), zero_add] at hfrom
  rw [logEnd_append _ _ (cons_ne_nil _ _), zero_add]
  exact walkLoop_spec hpiece rest (by omega) hfrom

/-- The frames behind a boundary, among those of the whole log. -/
theorem drop_logVisits (before rest : List (List Frame)) (done todo : List Frame) :
    (logVisits 0 (before ++ (done ++ todo) :: rest)).drop (before.flatten.length + done.length) =
      frameVisits before.length (framesBytes done).length todo ++
        logVisits (before.length + 1) rest := by
  rw [logVisits_append, ← drop_drop, ← length_logVisits before 0, drop_left, logVisits,
    frameVisits_append, append_assoc, ← length_frameVisits (0 + before.length) done 0,
    drop_left, zero_add, zero_add]

/-- The same, the boundary given by its segment and the number of frames before it there. -/
theorem walkFrames_drop {s : List Frame} {j : ℕ} (hpiece : frameNext piece = none)
    (hlog : HoldsFrom d segPrefix 0 (logBytes (before ++ s :: rest) piece)) (hj : j ≤ s.length) :
    walkFrames d segPrefix before.length (framesBytes (s.take j)).length =
      ((logVisits 0 (before ++ s :: rest)).drop (before.flatten.length + j),
        logEnd 0 (before ++ s :: rest)) := by
  have hdrop := drop_logVisits before rest (s.take j) (s.drop j)
  rw [← take_append_drop j s] at hlog
  have hwalk := walkFrames_spec hpiece hlog
  rw [take_append_drop, length_take_of_le hj] at hdrop
  rw [take_append_drop] at hwalk
  rw [hdrop]
  exact hwalk

end AxisBridge
