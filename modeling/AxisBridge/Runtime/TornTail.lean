import AxisBridge.Runtime.FrameWalk
import AxisBridge.Runtime.RecLog

/-! A log whose last segment was cut anywhere: the walk recovers the whole frames and no others. -/
namespace AxisBridge
open List
open Framing (take_words within)

section
variable [Sha256] {d : Volume} {segPrefix : String} {cut i j : ℕ}
  {fs s last : List Frame} {init : List (List Frame)}

/-- The frames that lie whole within the first `cut` bytes. -/
def wholeFrames : ℕ → List Frame → List Frame
  | _, [] => []
  | cut, f :: fs =>
    if f.bytes.length ≤ cut then f :: wholeFrames (cut - f.bytes.length) fs else []

theorem wholeFrames_prefix (cut : ℕ) (fs : List Frame) : wholeFrames cut fs <+: fs := by
  induction fs generalizing cut with
  | nil => exact nil_prefix
  | cons f fs ih =>
    unfold wholeFrames
    split
    · exact (prefix_cons_inj f).mpr (ih _)
    · exact nil_prefix

theorem within_record (cut : ℕ) (fs : List Frame) :
    within cut (fs.map Frame.record) = (wholeFrames cut fs).map Frame.record := by
  induction fs generalizing cut with
  | nil => rfl
  | cons f fs ih =>
    have hword : f.record.word.length = f.bytes.length := rfl
    simp only [map_cons, within, wholeFrames, hword]
    split
    · rw [ih, map_cons]
    · rfl

/-- A cut leaves the whole frames and a piece that is none. -/
theorem take_framesBytes (cut : ℕ) (fs : List Frame) :
    ∃ piece, (framesBytes fs).take cut = framesBytes (wholeFrames cut fs) ++ piece ∧
      frameNext piece = none := by
  have htake := take_words cut (fs.map Frame.record)
  rwa [words_record, within_record, words_record] at htake

/-- A frame boundary behind the whole frames lies behind the cut. -/
theorem cut_lt_of_past (hpast : (wholeFrames cut fs).length < j) (hj : j ≤ fs.length) :
    cut < (framesBytes (fs.take j)).length := by
  induction fs generalizing cut j with
  | nil =>
    simp only [length_nil, Nat.le_zero] at hj
    omega
  | cons f fs ih =>
    obtain ⟨j, rfl⟩ :=
      Nat.exists_eq_succ_of_ne_zero (Nat.ne_of_gt (Nat.lt_of_le_of_lt (Nat.zero_le _) hpast))
    rw [take_succ_cons, framesBytes_cons, length_append]
    unfold wholeFrames at hpast
    split at hpast
    · have hlater := ih (Nat.lt_of_succ_lt_succ hpast) (Nat.le_of_succ_le_succ hj)
      omega
    · omega

/-- A log of valid frames cut at any byte of its last segment, walked from any frame boundary: the
visits are those of the whole frames behind the boundary. The frontier is the end of the last whole
frame, unless the cut took the boundary itself, which then stays the frontier. -/
theorem walkFrames_truncated (init : List (List Frame)) (last : List Frame) (cut : ℕ)
    (hlog : HoldsFrom d segPrefix 0 (init.map framesBytes ++ [(framesBytes last).take cut]))
    (hi : (init ++ [last])[i]? = some s) (hj : j ≤ s.length) :
    let log := init ++ [wholeFrames cut last]
    let off := (framesBytes (s.take j)).length
    walkFrames d segPrefix i off =
      ((logVisits 0 log).drop (((init ++ [last]).take i).flatten.length + j),
        if i < init.length ∨ j ≤ (wholeFrames cut last).length then
          logEnd 0 log else (↑i, ↑off)) := by
  intro log off
  obtain ⟨piece, htake, hpiece⟩ := take_framesBytes cut last
  have hlog' : HoldsFrom d segPrefix 0 (logBytes log piece) := by
    rw [logBytes_concat, ← htake]
    exact hlog
  obtain ⟨hlt, hget⟩ := List.getElem?_eq_some_iff.mp hi
  rw [length_append, length_singleton] at hlt
  rcases Nat.lt_or_eq_of_le (Nat.le_of_lt_succ hlt) with hinit | rfl
  · -- the boundary lies in a segment that was not cut
    have hs : s = init[i] := by
      rw [← hget, getElem_append_left hinit]
    have hsplit : init.take i ++ s :: (init.drop (i + 1) ++ [wholeFrames cut last]) = log := by
      rw [hs, ← cons_append, ← append_assoc, cons_getElem_drop_succ, take_append_drop]
    have hwalk := walkFrames_drop hpiece (hsplit ▸ hlog') hj
    rw [hsplit, length_take_of_le hinit.le] at hwalk
    rw [if_pos (Or.inl hinit), take_append_of_le_length hinit.le]
    exact hwalk
  · have hs : s = last := by
      rw [← hget, getElem_append_right le_rfl]
      simp
    subst hs
    rw [take_left]
    by_cases hwhole : j ≤ (wholeFrames cut s).length
    · -- the boundary lies in the cut segment, before the cut
      have hdone : (wholeFrames cut s).take j = s.take j := by
        obtain ⟨rest, hrest⟩ := wholeFrames_prefix cut s
        have htake : (wholeFrames cut s ++ rest).take j = (wholeFrames cut s).take j :=
          take_append_of_le_length hwhole
        rwa [hrest, eq_comm] at htake
      have hwalk := walkFrames_drop hpiece hlog' hwhole
      rw [hdone] at hwalk
      rw [if_pos (Or.inr hwhole)]
      exact hwalk
    · -- the cut took the boundary
      have hpast : cut < off := cut_lt_of_past (not_le.mp hwhole) hj
      have hlast := hlog.drop init.length (by simp)
      rw [drop_left' (length_map _), zero_add] at hlast
      have hpast' : ((framesBytes s).take cut).length < off :=
        lt_of_le_of_lt (length_take_le _ _) hpast
      have hparse := parseFrames_past init.length hpast'
      have hmiss : ¬ (init.length < init.length ∨ j ≤ (wholeFrames cut s).length) := by omega
      have hdrop : (logVisits 0 log).drop (init.flatten.length + j) = [] := by
        apply drop_eq_nil_of_le
        rw [length_logVisits, flatten_append, length_append]
        simp only [flatten_cons, flatten_nil, append_nil]
        omega
      rw [if_neg hmiss, hdrop, walkFrames, walkLoop, hlast.1]
      simp only [if_neg (not_lt.mpr (Int.natCast_nonneg off)), Int.toNat_natCast, hparse,
        beq_eq_false_iff_ne.mpr (ne_of_gt hpast'), Bool.and_false, Bool.false_and,
        Bool.false_eq_true, if_false]

end

attribute [local instance] textDigests

/-- A segment of two frames cut inside the second: one visit, and the frontier before the second. -/
theorem walkFrames_truncated_cutInside :
    let e : Entry := ⟨[], [97], by decide, by decide⟩
    let f := e.frame
    let d : Volume := ⟨[⟨(framesBytes [f, f]).take 100, 0⟩], [("w0.log", 0)], []⟩
    walkFrames d "w" 0 0 = (frameVisits 0 0 [f], 0, 85) := by
  intro e f d
  have hlog : HoldsFrom d "w" 0 (([] : List (List Frame)).map framesBytes ++
      [(framesBytes [f, f]).take 100]) := ⟨rfl, rfl⟩
  have hlen : f.bytes.length = 85 := f.length_bytes
  have hwhole : wholeFrames 100 [f, f] = [f] := by simp [wholeFrames, hlen]
  have hwalk := walkFrames_truncated [] [f, f] 100 hlog (i := 0) (j := 0) rfl (Nat.zero_le _)
  rw [hwhole] at hwalk
  simpa [logVisits, logEnd, hlen] using hwalk

end AxisBridge

/-! Batches of the recovery log across crashes that cut a batch short: which of the acknowledged
frames the walk still reaches. -/
namespace AxisBridge
open List Option

section
variable {d d' : Volume} {segPrefix : String} {contents : List Bytes} {k : ℤ}

/-- The segments have these bytes, and there are no others under any number. -/
def Log (d : Volume) (segPrefix : String) (contents : List Bytes) : Prop :=
  ∀ k : ℕ, readSegment d segPrefix k = contents[k]?

/-- The last segment got these bytes behind its own, or a new one was started for them. -/
def Grows (contents : List Bytes) (bs : Bytes) (contents' : List Bytes) : Prop :=
  contents' = contents ++ [bs] ∨
    ∃ init last, contents = init ++ [last] ∧ contents' = init ++ [last ++ bs]

theorem holdsFrom_of_getElem? (contents : List Bytes)
    (h : ∀ i : ℕ, readSegment d segPrefix (k + i) = contents[i]?) :
    HoldsFrom d segPrefix k contents := by
  induction contents generalizing k with
  | nil =>
    have hnone := h 0
    rw [Nat.cast_zero, add_zero] at hnone
    exact hnone
  | cons data rest ih =>
    refine ⟨by simpa using h 0, ih ?_⟩
    intro i
    have hi := h (i + 1)
    rw [Nat.cast_succ, add_comm (i : ℤ), ← add_assoc, getElem?_cons_succ] at hi
    exact hi

theorem Log.holdsFrom (h : Log d segPrefix contents) : HoldsFrom d segPrefix 0 contents :=
  holdsFrom_of_getElem? contents fun i => by
    rw [zero_add]
    exact h i

theorem HoldsFrom.unique {contents' : List Bytes} (h : HoldsFrom d segPrefix k contents)
    (h' : HoldsFrom d segPrefix k contents') : contents = contents' := by
  induction contents generalizing k contents' with
  | nil =>
    cases contents' with
    | nil => rfl
    | cons data rest => cases h'.1.symm.trans h
  | cons data rest ih =>
    cases contents' with
    | nil => cases h.1.symm.trans h'
    | cons data' rest' =>
      have hdata := some.inj (h.1.symm.trans h'.1)
      rw [hdata, ih h.2 h'.2]

theorem nextFree_skip (n : ℕ) : ∀ {fuel k : ℕ}, n ≤ fuel →
    (∀ i < n, (d.inode (segPath segPrefix ((k + i : ℕ) : ℤ))).isSome = true) →
    d.inode (segPath segPrefix ((k + n : ℕ) : ℤ)) = none → nextFree d segPrefix fuel k = k + n := by
  induction n with
  | zero =>
    intro fuel k _ _ hnone
    cases fuel with
    | zero => rfl
    | succ fuel =>
      have hfree : d.inode (segPath segPrefix (k : ℤ)) = none := hnone
      simp [nextFree, hfree]
  | succ n ih =>
    intro fuel k hfuel hsome hnone
    obtain ⟨fuel, rfl⟩ := Nat.exists_eq_succ_of_ne_zero (ne_of_gt (lt_of_lt_of_le n.succ_pos hfuel))
    have hthere : (d.inode (segPath segPrefix (k : ℤ))).isSome = true := hsome 0 n.succ_pos
    have hshift : ∀ i, k + 1 + i = k + (i + 1) := by
      intro i
      omega
    rw [nextFree, if_pos hthere, ih (Nat.le_of_succ_le_succ hfuel), hshift]
    · intro i hi
      rw [hshift]
      exact hsome (i + 1) (Nat.succ_lt_succ hi)
    · rw [hshift]
      exact hnone

theorem Log.nextFree_eq (h : Log d segPrefix contents) (hd : d.Sound) :
    nextFree d segPrefix d.live.length 0 = contents.length := by
  have hinode : ∀ i : ℕ, (d.inode (segPath segPrefix i)).isSome = (contents[i]?).isSome := by
    intro i
    rw [← hd.isSome_read, ← h i]
    rfl
  rw [nextFree_skip contents.length h.holdsFrom.length_le, zero_add]
  · intro i hi
    rw [zero_add, hinode, getElem?_eq_getElem hi]
    rfl
  · rw [zero_add]
    have hnone := hinode contents.length
    rw [getElem?_eq_none le_rfl] at hnone
    exact isNone_iff_eq_none.mp (isSome_eq_false_iff.mp hnone)

/-- The next bytes go to the last segment or behind it. -/
theorem Log.pickSeg_eq (h : Log d segPrefix contents) (hd : d.Sound) (frameSize segSize : ℤ) :
    pickSeg d segPrefix frameSize segSize = contents.length ∨ ∃ init last, contents =
      init ++ [last] ∧ pickSeg d segPrefix frameSize segSize = init.length := by
  rcases eq_nil_or_concat' contents with rfl | ⟨init, last, rfl⟩
  · left
    simp [pickSeg, h.nextFree_eq hd]
  · have hhi : ¬ ((init.length + 1 : ℕ) : ℤ) - 1 < 0 := by omega
    simp only [pickSeg, h.nextFree_eq hd, length_append, length_singleton, if_neg hhi]
    split
    · left
      omega
    · right
      exact ⟨init, last, rfl, by omega⟩

/-- Bytes written where the writer puts them make the log grow. -/
theorem Log.write (h : Log d segPrefix contents) (hd : d.Sound) {frameSize segSize : ℤ} {bs : Bytes}
    (hself : readSegment d' segPrefix (pickSeg d segPrefix frameSize segSize) =
      some ((readSegment d segPrefix (pickSeg d segPrefix frameSize segSize)).getD [] ++ bs))
    (hother : ∀ k : ℕ, segPath segPrefix k ≠ segPath segPrefix (pickSeg d segPrefix frameSize
      segSize) → readSegment d' segPrefix k = readSegment d segPrefix k) :
    ∃ contents', Grows contents bs contents' ∧ Log d' segPrefix contents' := by
  rcases h.pickSeg_eq hd frameSize segSize with hpick | ⟨init, last, rfl, hpick⟩
  · rw [hpick] at hself hother
    refine ⟨contents ++ [bs], Or.inl rfl, ?_⟩
    intro k
    rcases eq_or_ne k contents.length with rfl | hne
    · rw [hself, h, getElem?_eq_none le_rfl]
      simp
    · rw [hother k (mt segPath_inj hne), h]
      rcases Nat.lt_or_gt_of_ne hne with hlt | hgt
      · rw [getElem?_append_left hlt]
      · rw [getElem?_eq_none hgt.le, getElem?_eq_none]
        rw [length_append]
        exact hgt
  · rw [hpick] at hself hother
    refine ⟨init ++ [last ++ bs], Or.inr ⟨init, last, rfl, rfl⟩, ?_⟩
    intro k
    rcases eq_or_ne k init.length with rfl | hne
    · rw [hself, h]
      simp
    · rw [hother k (mt segPath_inj hne), h]
      rcases Nat.lt_or_gt_of_ne hne with hlt | hgt
      · rw [getElem?_append_left hlt, getElem?_append_left hlt]
      · rw [getElem?_eq_none, getElem?_eq_none]
        all_goals
          rw [length_append]
          exact hgt

end

/-! ### What the walk reaches -/

def Visit.view (v : Visit) : FrameView := ⟨v.env, v.payload, v.hexh⟩

section
variable [Sha256]

/-- Any bytes at all: whole frames, and behind them a piece that starts with none. -/
structure SegmentText where
  frames : List Frame
  piece : Bytes
  broken : frameNext piece = none

open SegmentText

def SegmentText.bytes (t : SegmentText) : Bytes := framesBytes t.frames ++ t.piece

/-- A segment of whole frames. -/
def SegmentText.whole (fs : List Frame) : SegmentText := ⟨fs, [], frameNext_nil⟩

/-- The frames of the segments up to the first piece. -/
def reached : List SegmentText → List FrameView
  | [] => []
  | t :: rest => t.frames.map Frame.view ++ if t.piece = [] then reached rest else []

/-- Every byte of the log belongs to a whole frame. -/
def Intact (d : Volume) (segPrefix : String) : Prop :=
  ∃ segs : List (List Frame), HoldsFrom d segPrefix 0 (segs.map framesBytes)

variable {d d' : Volume} {segPrefix : String} {contents contents' : List Bytes}
  {bs : Bytes} {t : SegmentText} {segs : List SegmentText} {fs : List Frame}

theorem exists_segmentText (bs : Bytes) : ∃ t : SegmentText, t.bytes = bs := by
  induction hlen : bs.length using Nat.strong_induction_on generalizing bs with
  | _ n ih =>
    cases hnext : frameNext bs with
    | none => exact ⟨⟨[], bs, hnext⟩, rfl⟩
    | some p =>
      obtain ⟨f, -, -, rest, rfl⟩ := frameNext_eq_some hnext
      have hpos : 0 < f.bytes.length := f.record.word_pos
      obtain ⟨t, ht⟩ := ih rest.length (by simp at hlen; omega) rest rfl
      refine ⟨⟨f :: t.frames, t.piece, t.broken⟩, ?_⟩
      rw [← ht]
      simp [bytes]

theorem exists_segmentTexts (contents : List Bytes) :
    ∃ segs : List SegmentText, segs.map bytes = contents := by
  induction contents with
  | nil => exact ⟨[], rfl⟩
  | cons bs contents ih =>
    obtain ⟨t, rfl⟩ := exists_segmentText bs
    obtain ⟨segs, rfl⟩ := ih
    exact ⟨t :: segs, rfl⟩

theorem view_frameVisits (seg : ℤ) (off : ℕ) (fs : List Frame) :
    (frameVisits seg off fs).map Visit.view = fs.map Frame.view := by
  induction fs generalizing off with
  | nil => rfl
  | cons f fs ih =>
    rw [frameVisits, map_cons, ih]
    rfl

theorem walkLoop_reached {wm : ℤ × ℤ} (segs : List SegmentText) :
    ∀ {fuel : ℕ} {k : ℤ}, segs.length ≤ fuel → HoldsFrom d segPrefix k (segs.map bytes) →
      (walkLoop d segPrefix wm fuel k 0).1.map Visit.view = reached segs := by
  induction segs with
  | nil =>
    intro fuel k _ hend
    have hend : readSegment d segPrefix k = none := hend
    cases fuel with
    | zero => rfl
    | succ fuel => simp [walkLoop, hend, reached]
  | cons t rest ih =>
    intro fuel k hfuel hlog
    obtain ⟨fuel, rfl⟩ := Nat.exists_eq_succ_of_ne_zero
      (ne_of_gt (lt_of_lt_of_le (Nat.succ_pos _) hfuel))
    obtain ⟨hread, hlog⟩ := hlog
    have hlater := ih (Nat.le_of_succ_le_succ hfuel) hlog
    have hbytes : t.bytes = framesBytes t.frames ++ t.piece := rfl
    obtain ⟨torn, hparse, htorn⟩ := parseFrames_start k t.frames hbytes t.broken
    have hzero : (if (0 : ℤ) < 0 then 0 else (0 : ℤ).toNat) = 0 := rfl
    simp only [walkLoop, hread, hzero, hparse, reached]
    by_cases hpiece : t.piece = []
    · have hclean : torn = false := by
        cases torn with
        | false => rfl
        | true => exact absurd hpiece (htorn rfl)
      have hlen : t.bytes = framesBytes t.frames := by
        rw [bytes, hpiece, append_nil]
      rw [if_pos hpiece, hclean, hlen]
      cases rest with
      | nil =>
        have hend : readSegment d segPrefix (k + 1) = none := hlog
        simp [hend, view_frameVisits, reached]
      | cons t' rest =>
        have hnext : (readSegment d segPrefix (k + 1)).isSome = true :=
          isSome_iff_exists.mpr ⟨_, hlog.1⟩
        simp [hnext, view_frameVisits, hlater]
    · have hshort : ((framesBytes t.frames).length == t.bytes.length) = false := by
        have hpos := length_pos_iff.mpr hpiece
        rw [bytes, length_append]
        exact beq_eq_false_iff_ne.mpr (by omega)
      simp [if_neg hpiece, hshort, view_frameVisits]

theorem walkFrames_reached (h : HoldsFrom d segPrefix 0 (segs.map bytes)) :
    (walkFrames d segPrefix 0 0).1.map Visit.view = reached segs := by
  have hle := h.length_le
  rw [length_map] at hle
  exact walkLoop_reached segs (Nat.le_succ_of_le hle) h

theorem reached_concat (segs : List SegmentText) (t : SegmentText) :
    reached segs <+: reached (segs ++ [t]) := by
  induction segs with
  | nil => exact nil_prefix
  | cons t' segs ih =>
    rw [cons_append, reached, reached]
    apply (prefix_append_right_inj _).mpr
    split
    · exact ih
    · exact prefix_refl _

theorem reached_last (segs : List SegmentText) {t t' : SegmentText} (h : t.frames <+: t'.frames) :
    reached (segs ++ [t]) <+: reached (segs ++ [t']) := by
  induction segs with
  | nil => simpa [reached] using h.map Frame.view
  | cons t'' segs ih =>
    rw [cons_append, cons_append, reached, reached]
    apply (prefix_append_right_inj _).mpr
    split
    · exact ih
    · exact prefix_refl _

/-- Whatever is written, the walk still reaches what it reached. -/
theorem reached_grows (hgrow : Grows (segs.map bytes) bs contents') :
    ∃ segs' : List SegmentText, segs'.map bytes = contents' ∧ reached segs <+: reached segs' := by
  rcases hgrow with rfl | ⟨init, last, hsplit, rfl⟩
  · obtain ⟨t, rfl⟩ := exists_segmentText bs
    exact ⟨segs ++ [t], by simp, reached_concat segs t⟩
  · obtain ⟨before, rest, rfl, rfl, hrest⟩ := map_eq_append_iff.mp hsplit
    obtain ⟨t, rest', rfl, rfl, hrest'⟩ := map_eq_cons_iff.mp hrest
    obtain rfl := map_eq_nil_iff.mp hrest'
    obtain ⟨u, hu⟩ := exists_segmentText (t.piece ++ bs)
    refine ⟨before ++ [⟨t.frames ++ u.frames, u.piece, u.broken⟩], ?_,
      reached_last before (prefix_append _ _)⟩
    have hbytes : framesBytes u.frames ++ u.piece = t.piece ++ bs := hu
    simp [bytes, append_assoc, hbytes]

theorem reached_whole (segs : List (List Frame)) :
    reached (segs.map whole) = segs.flatten.map Frame.view := by
  induction segs with
  | nil => rfl
  | cons s segs ih => simp [reached, whole, ih]

theorem walkFrames_intact {segs : List (List Frame)}
    (h : HoldsFrom d segPrefix 0 (segs.map framesBytes)) :
    (walkFrames d segPrefix 0 0).1.map Visit.view = segs.flatten.map Frame.view := by
  have hbytes : (segs.map whole).map bytes = segs.map framesBytes := by
    simp [bytes, whole]
  rw [walkFrames_reached (hbytes ▸ h), reached_whole]

/-- Whole frames written to a log of whole frames come last in it. -/
theorem grows_intact {segs : List (List Frame)}
    (hgrow : Grows (segs.map framesBytes) (framesBytes fs) contents') :
    ∃ segs' : List (List Frame), segs'.map framesBytes = contents' ∧
      segs'.flatten = segs.flatten ++ fs := by
  rcases hgrow with rfl | ⟨init, last, hsplit, rfl⟩
  · exact ⟨segs ++ [fs], by simp, by simp⟩
  · obtain ⟨before, rest, rfl, rfl, hrest⟩ := map_eq_append_iff.mp hsplit
    obtain ⟨s, rest', rfl, rfl, hrest'⟩ := map_eq_cons_iff.mp hrest
    obtain rfl := map_eq_nil_iff.mp hrest'
    exact ⟨before ++ [s ++ fs], by simp, by simp⟩

/-! ### Batches and crashes -/

/-- An insert whose frame is valid and whose bind line goes to a name log. -/
structure Row where
  id : ℤ
  frame : Frame
  slug : String
  bindLine : Bytes

open Row

def Row.submission (r : Row) : Submission :=
  ⟨r.id, r.frame.bytes, ".axverity/names/" ++ r.slug, r.bindLine⟩

/-- The process dies in the middle of a batch: the segment has the first `cut` bytes of its
frames. -/
def tornBatch (d : Volume) (shard : String) (segSize : ℤ) (batch : List Submission)
    (cut : ℕ) : Volume :=
  let segPrefix := walSegPrefix shard
  let seg := walWriteSeg d segPrefix (frameTotal batch) segSize
  let path := segPath segPrefix seg.2
  (openAppend seg.1 path).1.append path ((batch.flatMap Submission.frame).take cut)

/-- Batches of one shard, each acknowledged or cut short by a crash, and the frames acknowledged so
far; an acknowledged batch found a disk that `ok` allows. -/
inductive TornRun (ok : Volume → Prop) (shard : String) : Volume → List Frame → Prop
  | start {d : Volume} (hd : d.Sound) (hnone : Log d (walSegPrefix shard) []) :
      TornRun ok shard d []
  | acked {d : Volume} {frames : List Frame} (segSize : ℤ) (rows : List Row)
      (h : TornRun ok shard d frames) (hok : ok d) :
      TornRun ok shard (writeBatchFused d shard segSize (rows.map submission)).1
        (frames ++ rows.map frame)
  | torn {d : Volume} {frames : List Frame} (segSize : ℤ) (rows : List Row) (cut : ℕ)
      (h : TornRun ok shard d frames) :
      TornRun ok shard (tornBatch d shard segSize (rows.map submission) cut) frames

variable {shard : String} {rows : List Row} {acked : List Frame} {segSize : ℤ} {cut : ℕ}

theorem frames_submission (rows : List Row) :
    (rows.map submission).flatMap Submission.frame = framesBytes (rows.map frame) := by
  induction rows with
  | nil => rfl
  | cons r rows ih =>
    rw [map_cons, flatMap_cons, ih]
    rfl

theorem read_writeNames (hd : d.Sound) (seq : ℤ) :
    readSegment (writeNames d (rows.map submission)) (walSegPrefix shard) seq =
      readSegment d (walSegPrefix shard) seq := by
  have hnot : segPath (walSegPrefix shard) seq ∉ nameOrder (rows.map submission) := by
    intro hmem
    obtain ⟨s, hs, heq⟩ := mem_map.mp ((Epochs.mem_firsts.mp hmem).resolve_left not_mem_nil)
    obtain ⟨r, -, rfl⟩ := mem_map.mp hs
    exact segPath_ne_nameLog shard seq r.slug heq.symm
  have hfile : (appendNames (rows.map submission) (nameOrder (rows.map submission)) d).1.read
      (segPath (walSegPrefix shard) seq) = d.read (segPath (walSegPrefix shard) seq) :=
    congrArg (Option.map DiskFile.data) (file_appendNames_ne hd hnot)
  simp only [writeNames]
  split
  · exact hfile
  · exact hfile

/-- What an acknowledged batch does to the segments. -/
theorem log_writeBatchFused (hd : d.Sound) (h : Log d (walSegPrefix shard) contents) (segSize : ℤ)
    (rows : List Row) :
    ∃ contents', Grows contents (framesBytes (rows.map frame)) contents' ∧ Log
      (writeBatchFused d shard segSize (rows.map submission)).1 (walSegPrefix shard) contents' := by
  have hread : ∀ seq : ℤ, readSegment
      (writeBatchFused d shard segSize (rows.map submission)).1 (walSegPrefix shard) seq =
      (appendAll (d.create (batchSeg d shard segSize (rows.map submission)))
      (batchSeg d shard segSize (rows.map submission))
      ((rows.map submission).map Submission.frame)).1.read (segPath (walSegPrefix shard) seq) := by
    intro seq
    rw [← writeFrames_eq]
    exact read_writeNames (sound_writeFrames hd) seq
  apply h.write hd
  · rw [hread]
    refine (read_appendAll_self hd.create).trans ?_
    rw [Disk.read_create_self hd, ← flatMap_def, frames_submission]
    rfl
  · intro k hne
    rw [hread]
    exact (read_appendAll_ne hd.create hne).trans (Disk.read_create_ne hd hne)

/-- What a batch cut short does to them. -/
theorem log_tornBatch (hd : d.Sound) (h : Log d (walSegPrefix shard) contents)
    (segSize : ℤ) (rows : List Row) (cut : ℕ) :
    ∃ contents', Grows contents ((framesBytes (rows.map frame)).take cut) contents' ∧
      Log (tornBatch d shard segSize (rows.map submission) cut) (walSegPrefix shard) contents' := by
  have htorn : tornBatch d shard segSize (rows.map submission) cut =
      (d.create (batchSeg d shard segSize (rows.map submission))).append
        (batchSeg d shard segSize (rows.map submission))
        ((framesBytes (rows.map frame)).take cut) := by
    rw [← frames_submission, ← Disk.create_of_isSome (Disk.inode_create_self (d := d))]
    rfl
  rw [htorn]
  apply h.write hd
  · refine Disk.read_append_self.trans ?_
    rw [Disk.read_create_self hd]
    rfl
  · intro k hne
    exact (Disk.read_modify_ne hd.create hne).trans (Disk.read_create_ne hd hne)

theorem sound_tornBatch (hd : d.Sound) :
    (tornBatch d shard segSize (rows.map submission) cut).Sound :=
  hd.create.create.modify

theorem TornRun.sound {ok : Volume → Prop} (h : TornRun ok shard d acked) : d.Sound := by
  induction h with
  | start hd hnone => exact hd
  | acked segSize rows h hok ih => exact sound_writeBatchFused ih
  | torn segSize rows cut h ih => exact sound_tornBatch ih

theorem TornRun.log {ok : Volume → Prop} (h : TornRun ok shard d acked) :
    ∃ contents, Log d (walSegPrefix shard) contents := by
  induction h with
  | start hd hnone => exact ⟨[], hnone⟩
  | acked segSize rows h hok ih =>
    obtain ⟨contents, hlog⟩ := ih
    obtain ⟨contents', -, hlog'⟩ := log_writeBatchFused h.sound hlog segSize rows
    exact ⟨contents', hlog'⟩
  | torn segSize rows cut h ih =>
    obtain ⟨contents, hlog⟩ := ih
    obtain ⟨contents', -, hlog'⟩ := log_tornBatch h.sound hlog segSize rows cut
    exact ⟨contents', hlog'⟩

/-- A batch cut short leaves the walk what it had. -/
theorem walkFrames_tornBatch (hd : d.Sound) (h : Log d (walSegPrefix shard) contents) :
    (walkFrames d (walSegPrefix shard) 0 0).1.map Visit.view <+:
      (walkFrames (tornBatch d shard segSize (rows.map submission) cut)
        (walSegPrefix shard) 0 0).1.map Visit.view := by
  obtain ⟨contents', hgrow, hlog'⟩ := log_tornBatch hd h segSize rows cut
  obtain ⟨segs, rfl⟩ := exists_segmentTexts contents
  obtain ⟨segs', rfl, hpre⟩ := reached_grows hgrow
  rw [walkFrames_reached h.holdsFrom, walkFrames_reached hlog'.holdsFrom]
  exact hpre

/-- A batch on an intact log comes last in the walk. -/
theorem walkFrames_acked (hd : d.Sound) (h : Log d (walSegPrefix shard) contents)
    (hintact : Intact d (walSegPrefix shard)) :
    (walkFrames (writeBatchFused d shard segSize (rows.map submission)).1 (walSegPrefix shard)
      0 0).1.map Visit.view = (walkFrames d (walSegPrefix shard) 0 0).1.map Visit.view ++
      (rows.map frame).map Frame.view := by
  obtain ⟨segs, hsegs⟩ := hintact
  obtain ⟨contents', hgrow, hlog'⟩ := log_writeBatchFused hd h segSize rows
  rw [h.holdsFrom.unique hsegs] at hgrow
  obtain ⟨segs', rfl, hflat⟩ := grows_intact hgrow
  rw [walkFrames_intact hlog'.holdsFrom, walkFrames_intact hsegs, hflat, map_append]

/-- When every acknowledged batch found a log whose every byte belonged to a whole frame, the walk
meets all acknowledged frames in order, whatever was cut short before, between and after. -/
theorem acked_frames_reached (h : TornRun (Intact · (walSegPrefix shard)) shard d acked) :
    (acked.map Frame.view).Sublist ((walkFrames d (walSegPrefix shard) 0 0).1.map Visit.view) := by
  induction h with
  | start hd hnone => exact nil_sublist _
  | acked segSize rows h hok ih =>
    obtain ⟨contents, hlog⟩ := h.log
    rw [walkFrames_acked h.sound hlog hok, map_append]
    exact ih.append (Sublist.refl _)
  | torn segSize rows cut h ih =>
    obtain ⟨contents, hlog⟩ := h.log
    exact ih.trans (walkFrames_tornBatch h.sound hlog).sublist

end

attribute [local instance] textDigests

def rowA : Row := ⟨1, frameA, "a.log", [98]⟩

theorem acked_frames_reached_rowA :
    ∃ d, TornRun (Intact · (walSegPrefix "0")) "0" d [frameA] ∧
      [frameA.view].Sublist ((walkFrames d (walSegPrefix "0") 0 0).1.map Visit.view) := by
  have hrun : TornRun (Intact · (walSegPrefix "0")) "0" Disk.empty [] := .start .empty fun _ => rfl
  have hacked := hrun.acked 1000 [rowA] ⟨[], rfl⟩
  have htorn := hacked.torn 1000 [rowA] 1
  exact ⟨_, htorn, acked_frames_reached htorn⟩

set_option maxRecDepth 4000 in
/-- One byte of a batch that was cut short hides the batch that is acknowledged after it. -/
theorem acked_frame_not_reached :
    ∃ d, TornRun (fun _ => True) "0" d [frameA] ∧
      ¬ [frameA.view].Sublist ((walkFrames d (walSegPrefix "0") 0 0).1.map Visit.view) := by
  have hrun : TornRun (fun _ => True) "0" Disk.empty [] := .start .empty fun _ => rfl
  have htorn := hrun.torn 1000 [rowA] 1
  have hacked := htorn.acked 1000 [rowA] trivial
  refine ⟨_, hacked, ?_⟩
  have hnone : (walkFrames (writeBatchFused
      (tornBatch Disk.empty "0" 1000 ([rowA].map Row.submission) 1) "0" 1000
      ([rowA].map Row.submission)).1 (walSegPrefix "0") 0 0).1 = [] := rfl
  rw [hnone]
  nofun

end AxisBridge
