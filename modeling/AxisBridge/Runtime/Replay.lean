import AxisBridge.Lib.Epochs
import AxisBridge.Runtime.BlockFile

/-! The shards of the index projections: the rebuild from a snapshot, the replay from the shard's
own frontier, the resident handles, and what these hold over a history of writes and reads. -/
namespace AxisBridge
open Option List Function Epochs

/-- A projection's shard: its map, the position it has read up to in the segments, and the block it
reads next. -/
structure Shard (M : Type) where
  map : M
  fseg : ℤ
  foff : ℤ
  hbSeq : ℤ

/-- What one index does with a snapshot, a segment's frame and a block's frame. -/
structure Projection (M : Type) where
  empty : M
  loadSnapshot : M → Option Bytes → M × ℤ × ℤ
  visitSegment : M → Visit → M
  visitBlock : M → Visit → M

/-- A thread's open shards and those it keeps for a shard's name. -/
structure Handles (M : Type) where
  next : ℤ
  idx : ℤ → Option (Shard M)
  resident : String → Option ℤ

def hotblkDir (shard : String) : String := s!".axverity/hotblocks/{shard}"

def hotblkDirFromWalPrefix (segPrefix : String) : Option String := do
  let rest ← stripPrefix ".axverity/wal/" segPrefix
  let shard ← stripSuffix "-" rest
  if shard = "" then none else some (hotblkDir shard)

section
variable {M : Type}

def Shard.bumpFrontier (sh : Shard M) (seg endOff : ℤ) : Shard M :=
  if seg > sh.fseg ∨ seg = sh.fseg ∧ endOff > sh.foff then { sh with fseg := seg, foff := endOff }
  else sh

def Projection.openShard (P : Projection M) : Shard M := ⟨P.empty, 0, 0, 1⟩

/-- Turn by turn, the segments' news before the blocks'. -/
def Projection.turns (P : Projection M) (es : List (List Visit × List Visit)) (m : M) : M :=
  es.foldl (fun m e => e.2.foldl P.visitBlock (e.1.foldl P.visitSegment m)) m

theorem Projection.turns_append (P : Projection M) (es es' : List (List Visit × List Visit))
    (m : M) : P.turns (es ++ es') m = P.turns es' (P.turns es m) :=
  foldl_append

def segmentLen (d : Volume) (segPrefix : String) (seq : ℤ) : Option ℕ :=
  (readSegment d segPrefix seq).map List.length

/-- The guard of a replay: the frontier's segment has grown, or another follows it. -/
def walHasDelta (d : Volume) (segPrefix : String) (fromSeg fromOff : ℤ) : Bool :=
  let hasNext := (segmentLen d segPrefix (fromSeg + 1)).isSome
  match segmentLen d segPrefix fromSeg with
  | some len => !((len : ℤ) ≤ fromOff && !hasNext)
  | none => hasNext

variable [Sha256] (P : Projection M) (preallocEnabled : Bool) (d : Volume)

/-- The new blocks of the shard, and how many frames they held. -/
def scanHotblk (segPrefix : String) (sh : Shard M) : Shard M × ℕ :=
  match hotblkDirFromWalPrefix segPrefix with
  | none => (sh, 0)
  | some flushDir =>
    let walked := walkHotblkFrames preallocEnabled d flushDir sh.hbSeq
    ({ sh with map := walked.1.foldl P.visitBlock sh.map, hbSeq := walked.2 }, walked.1.length)

/-- The segments from a position on, and how many frames they held. -/
def scanSegments (segPrefix : String) (fromSeg fromOff : ℤ) (sh : Shard M) : Shard M × ℕ :=
  let walked := walkFrames d segPrefix fromSeg fromOff
  let read := { sh with map := walked.1.foldl P.visitSegment sh.map }
  (read.bumpFrontier walked.2.1 walked.2.2, walked.1.length)

def doRebuild (segPrefix snapPath : String) (sh : Shard M) : Shard M × ℕ :=
  let snap := P.loadSnapshot sh.map (d.read snapPath)
  let loaded := { sh with map := snap.1 }.bumpFrontier snap.2.1 snap.2.2
  let wal := scanSegments P d segPrefix snap.2.1 snap.2.2 loaded
  let blocks := scanHotblk P preallocEnabled d segPrefix wal.1
  (blocks.1, wal.2 + blocks.2)

def doReplay (segPrefix : String) (sh : Shard M) : Shard M × ℕ :=
  let wal :=
    if walHasDelta d segPrefix sh.fseg sh.foff then scanSegments P d segPrefix sh.fseg sh.foff sh
    else (sh, 0)
  let blocks := scanHotblk P preallocEnabled d segPrefix wal.1
  (blocks.1, wal.2 + blocks.2)

/-- The read through the resident shard: a rebuild when there is none yet, a replay afterwards.
There is no result where the handle has no shard. -/
def resGet (shard segPrefix snapPath : String) (answer : M → String) (t : Handles M) :
    Option (Handles M × String) :=
  let existing := t.resident shard
  let held : ℤ × Handles M :=
    match existing with
    | some h => (h, t)
    | none =>
      (t.next, ⟨t.next + 1, update t.idx t.next (some P.openShard),
        update t.resident shard (some t.next)⟩)
  match held.2.idx held.1 with
  | none => none
  | some sh =>
    let current :=
      if existing.isNone then (doRebuild P preallocEnabled d segPrefix snapPath sh).1
      else (doReplay P preallocEnabled d segPrefix sh).1
    some ({ held.2 with idx := update held.2.idx held.1 (some current) },
      answer current.map)

def openHandle (t : Handles M) : Handles M × ℤ :=
  (⟨t.next + 1, update t.idx t.next (some P.openShard), t.resident⟩, t.next)

def rebuildHandle (segPrefix snapPath : String) (h : ℤ) (t : Handles M) : Option (Handles M × ℕ) :=
  (t.idx h).map fun sh =>
    let rebuilt := doRebuild P preallocEnabled d segPrefix snapPath sh
    ({ t with idx := update t.idx h (some rebuilt.1) }, rebuilt.2)

def getHandle (t : Handles M) (h : ℤ) (answer : M → String) : Option String :=
  (t.idx h).map fun sh => answer sh.map

/-- The read through a handle opened and rebuilt for it. -/
def freshGet (segPrefix snapPath : String) (answer : M → String)
    (t : Handles M) : Option String := do
  let opened := openHandle P t
  let rebuilt ← rebuildHandle P preallocEnabled d segPrefix snapPath opened.2 opened.1
  getHandle rebuilt.1 opened.2 answer

end

/-! ### Histories -/

section
variable [Sha256]

/-- A sealed block: a complete file whose body is whole frames. -/
structure SealedBlock (preallocEnabled : Bool) where
  frames : List Frame
  content : Bytes
  whole : splitComplete preallocEnabled content = some (framesBytes frames)

/-- What was written for a shard: the frames of each segment, and the sealed blocks. -/
structure Store (preallocEnabled : Bool) where
  segs : List (List Frame)
  blocks : List (SealedBlock preallocEnabled)

inductive Event (preallocEnabled : Bool)
  | append (f : Frame)
  | rotate
  | block (b : SealedBlock preallocEnabled)
  | read

/-- A frame at the end of the last segment. -/
def appendFrame (f : Frame) : List (List Frame) → List (List Frame)
  | [] => [[f]]
  | [s] => [s ++ [f]]
  | s :: s' :: rest => s :: appendFrame f (s' :: rest)

variable {preallocEnabled : Bool}

def Store.after (s : Store preallocEnabled) : Event preallocEnabled → Store preallocEnabled
  | .append f => { s with segs := appendFrame f s.segs }
  | .rotate => { s with segs := s.segs ++ [[]] }
  | .block b => { s with blocks := s.blocks ++ [b] }
  | .read => s

/-- The visits of the blocks' frames, the first block number `k`. -/
def blockVisits (k : ℤ) (blocks : List (SealedBlock preallocEnabled)) : List Visit :=
  logVisits k (blocks.map SealedBlock.frames)

/-- The files on the disk are those of the store: the segments, the sealed blocks and no complete
one behind them, and the snapshot. -/
structure Shows (d : Volume) (shard snapPath : String) (snap : Option Bytes)
    (s : Store preallocEnabled) : Prop where
  segments : HoldsFrom d (walSegPrefix shard) 0 (s.segs.map framesBytes)
  blocks : ∀ i (hi : i < s.blocks.length),
    d.read (blockPath (hotblkDir shard) (i + 1)) = some s.blocks[i].content
  unsealed : ∀ data, d.read (blockPath (hotblkDir shard) (s.blocks.length + 1)) = some data →
    splitComplete preallocEnabled data = none
  snapshot : d.read snapPath = snap

/-- A thread's reads through the resident shard while the store is written. -/
inductive Run {M : Type} (P : Projection M) (shard snapPath : String) (snap : Option Bytes) :
    Store preallocEnabled → Handles M → List (Event preallocEnabled) →
      Store preallocEnabled → Handles M → Prop
  | done {s t} : Run P shard snapPath snap s t [] s t
  | write {s t e es s' t'} : e ≠ .read → Run P shard snapPath snap (s.after e) t es s' t' →
      Run P shard snapPath snap s t (e :: es) s' t'
  | read {s t t₁ es s' t'} (d : Volume) (answer : M → String) (text : String) :
      Shows d shard snapPath snap s →
      resGet P preallocEnabled d shard (walSegPrefix shard) snapPath answer t = some (t₁, text) →
      Run P shard snapPath snap s t₁ es s' t' → Run P shard snapPath snap s t (.read :: es) s' t'

/-- What the segments and the blocks hold behind `n` frames and `m` blocks. -/
def Store.news (s : Store preallocEnabled) (n m : ℕ) : List Visit × List Visit :=
  ((logVisits 0 s.segs).drop n, blockVisits (m + 1) (s.blocks.drop m))

/-- What each read of a history finds new in the segments and in the blocks, one more read coming at
its end; `n` frames of the segments and `m` blocks are behind the first. -/
def epochs (n m : ℕ) (s : Store preallocEnabled) :
    List (Event preallocEnabled) → List (List Visit × List Visit)
  | [] => [s.news n m]
  | .read :: es => s.news n m :: epochs (logVisits 0 s.segs).length s.blocks.length s es
  | e :: es => epochs n m (s.after e) es

/-- A position in the segments with `n` whole frames before it. -/
def Boundary (segs : List (List Frame)) (n : ℕ) (pos : ℤ × ℤ) : Prop :=
  (segs = [] ∧ n = 0 ∧ pos = (0, 0)) ∨
    ∃ before s rest j, segs = before ++ s :: rest ∧ j ≤ s.length ∧
      n = before.flatten.length + j ∧ pos = (↑before.length, ↑(framesBytes (s.take j)).length)

end

/-! ### What a rebuild and a replay do -/

variable {M : Type} {sh : Shard M} {seg endOff : ℤ}

/-- Whether a position is no later than another. -/
def NotAfter (p q : ℤ × ℤ) : Prop := p.1 < q.1 ∨ p.1 = q.1 ∧ p.2 ≤ q.2

/-- A frontier moves forward to a later position. -/
theorem Shard.bumpFrontier_of_notAfter (sh : Shard M)
    (h : NotAfter (sh.fseg, sh.foff) (seg, endOff)) :
    sh.bumpFrontier seg endOff = { sh with fseg := seg, foff := endOff } := by
  unfold Shard.bumpFrontier
  split
  · rfl
  · rename_i hnot
    have heq : sh.fseg = seg ∧ sh.foff = endOff := by
      simp only [NotAfter] at h
      omega
    rw [← heq.1, ← heq.2]

theorem hotblkDirFromWalPrefix_walSegPrefix {shard : String} (h : shard ≠ "") :
    hotblkDirFromWalPrefix (walSegPrefix shard) = some (hotblkDir shard) := by
  simp [hotblkDirFromWalPrefix, walSegPrefix_eq, stripPrefix_append, stripSuffix_append, h]

variable [Sha256] {preallocEnabled : Bool} {f : Frame} {segs : List (List Frame)} {k : ℤ} {n m : ℕ}
  {pos : ℤ × ℤ} {d : Volume} {shard snapPath flushDir : String}
  {snap : Option Bytes} {s : Store preallocEnabled}

theorem logVisits_appendFrame (f : Frame) (segs : List (List Frame)) (k : ℤ) :
    ∃ v, logVisits k (appendFrame f segs) = logVisits k segs ++ [v] := by
  induction segs generalizing k with
  | nil => exact ⟨_, rfl⟩
  | cons s rest ih =>
    cases rest with
    | nil =>
      refine ⟨visitAt k ((framesBytes s).length, f.view), ?_⟩
      simp [appendFrame, logVisits, frameVisits_append, frameVisits]
    | cons s' rest =>
      obtain ⟨v, hv⟩ := ih (k + 1)
      refine ⟨v, ?_⟩
      have hcons : logVisits k (s :: s' :: rest) =
          frameVisits k 0 s ++ logVisits (k + 1) (s' :: rest) := rfl
      rw [appendFrame, logVisits, hv, hcons, append_assoc]

/-- Writing adds to the visits of the segments and to the blocks, at their ends. -/
theorem Store.after_extends (s : Store preallocEnabled) (e : Event preallocEnabled) :
    (∃ vs, logVisits 0 (s.after e).segs = logVisits 0 s.segs ++ vs) ∧
      ∃ bs, (s.after e).blocks = s.blocks ++ bs := by
  cases e with
  | append f =>
    obtain ⟨v, hv⟩ := logVisits_appendFrame f s.segs 0
    exact ⟨⟨[v], hv⟩, [], (append_nil _).symm⟩
  | rotate =>
    refine ⟨⟨[], ?_⟩, [], (append_nil _).symm⟩
    simp [Store.after, logVisits_append, logVisits, frameVisits]
  | block b => exact ⟨⟨[], (append_nil _).symm⟩, [b], rfl⟩
  | read => exact ⟨⟨[], (append_nil _).symm⟩, [], (append_nil _).symm⟩

/-! ### Positions -/

theorem Boundary.le_length (h : Boundary segs n pos) : n ≤ (logVisits 0 segs).length := by
  rw [length_logVisits]
  rcases h with ⟨rfl, rfl, -⟩ | ⟨before, s, rest, j, rfl, hj, rfl, -⟩
  · exact Nat.zero_le _
  · simp only [flatten_append, flatten_cons, length_append]
    omega

theorem Boundary.appendFrame (h : Boundary segs n pos) (f : Frame) :
    Boundary (appendFrame f segs) n pos := by
  rcases h with ⟨rfl, rfl, rfl⟩ | ⟨before, s, rest, j, rfl, hj, rfl, rfl⟩
  · exact .inr ⟨[], [f], [], 0, rfl, Nat.zero_le _, rfl, rfl⟩
  · right
    induction before with
    | nil =>
      cases rest with
      | nil =>
        refine ⟨[], s ++ [f], [], j, rfl, ?_, rfl, ?_⟩
        · rw [length_append]
          omega
        · rw [take_append_of_le_length hj]
      | cons s' rest => exact ⟨[], s, AxisBridge.appendFrame f (s' :: rest), j, rfl, hj, rfl, rfl⟩
    | cons b before ih =>
      obtain ⟨before', s'', rest', j', heq, hj', hn, hpos⟩ := ih
      obtain ⟨t, tail, hcons⟩ := exists_cons_of_ne_nil (l := before ++ s :: rest) (by simp)
      refine ⟨b :: before', s'', rest', j', ?_, hj', ?_, ?_⟩
      · rw [cons_append, hcons, AxisBridge.appendFrame, ← hcons, heq, cons_append]
      · simp only [flatten_cons, length_append] at hn ⊢
        omega
      · simp only [Prod.mk.injEq, length_cons] at hpos ⊢
        exact ⟨by omega, hpos.2⟩

theorem Boundary.rotate (h : Boundary segs n pos) : Boundary (segs ++ [[]]) n pos := by
  rcases h with ⟨rfl, rfl, rfl⟩ | ⟨before, s, rest, j, rfl, hj, rfl, rfl⟩
  · exact .inr ⟨[], [], [], 0, rfl, Nat.zero_le _, rfl, rfl⟩
  · exact .inr ⟨before, s, rest ++ [[]], j, by simp, hj, rfl, rfl⟩

theorem Boundary.after (h : Boundary s.segs n pos) (e : Event preallocEnabled) :
    Boundary (s.after e).segs n pos := by
  cases e with
  | append f => exact h.appendFrame f
  | rotate => exact h.rotate
  | block b => exact h
  | read => exact h

theorem boundary_logEnd (segs : List (List Frame)) :
    Boundary segs (logVisits 0 segs).length (logEnd 0 segs) := by
  rw [length_logVisits]
  rcases eq_nil_or_concat segs with rfl | ⟨before, s, rfl⟩
  · exact .inl ⟨rfl, rfl, rfl⟩
  · refine .inr ⟨before, s, [], s.length, concat_eq_append, le_rfl, ?_, ?_⟩
    · simp
    · rw [concat_eq_append, logEnd_append _ _ (cons_ne_nil _ _), take_length]
      simp [logEnd]

theorem Boundary.notAfter (h : Boundary segs n pos) : NotAfter pos (logEnd 0 segs) := by
  rcases h with ⟨rfl, -, rfl⟩ | ⟨before, s, rest, j, rfl, hj, -, rfl⟩
  · exact .inr ⟨rfl, le_rfl⟩
  · rw [logEnd_append _ _ (cons_ne_nil _ _)]
    rcases eq_nil_or_concat rest with rfl | ⟨rest, s', rfl⟩
    · refine .inr ⟨?_, ?_⟩
      · simp [logEnd]
      · have hle : (framesBytes (s.take j)).length ≤ (framesBytes s).length := by
          conv_rhs => rw [← take_append_drop j s, framesBytes_append, length_append]
          exact Nat.le_add_right _ _
        simpa [logEnd] using hle
    · left
      rw [concat_eq_append, ← cons_append, logEnd_append _ _ (cons_ne_nil _ _)]
      simp only [logEnd, length_cons]
      omega

theorem Boundary.nonneg (h : Boundary segs n pos) : 0 ≤ pos.1 ∧ 0 ≤ pos.2 := by
  rcases h with ⟨-, -, rfl⟩ | ⟨before, s, rest, j, -, -, -, rfl⟩
  · exact ⟨le_rfl, le_rfl⟩
  · exact ⟨Int.natCast_nonneg _, Int.natCast_nonneg _⟩

theorem logBytes_nil (segs : List (List Frame)) : logBytes segs [] = segs.map framesBytes := by
  rcases eq_nil_or_concat segs with rfl | ⟨before, s, rfl⟩
  · rfl
  · rw [concat_eq_append, logBytes_concat, append_nil, map_append]
    rfl

/-- The walk from a boundary: the frames behind it, and the end of the segments. -/
theorem walkFrames_boundary {segPrefix : String}
    (hlog : HoldsFrom d segPrefix 0 (segs.map framesBytes)) (h : Boundary segs n pos) :
    walkFrames d segPrefix pos.1 pos.2 = ((logVisits 0 segs).drop n, logEnd 0 segs) := by
  rcases h with ⟨rfl, rfl, rfl⟩ | ⟨before, s, rest, j, rfl, hj, rfl, rfl⟩
  · have hread : readSegment d segPrefix 0 = none := hlog
    simp [walkFrames, walkLoop, hread, logVisits, logEnd]
  · exact walkFrames_drop frameNext_nil ((logBytes_nil _).symm ▸ hlog) hj

/-- Where the guard of a replay refuses, the walk would find nothing. -/
theorem walkFrames_of_no_delta {segPrefix : String} (pos : ℤ × ℤ) (hpos : 0 ≤ pos.2)
    (h : walHasDelta d segPrefix pos.1 pos.2 = false) :
    walkFrames d segPrefix pos.1 pos.2 = ([], pos) := by
  unfold walHasDelta segmentLen at h
  unfold walkFrames walkLoop
  cases hread : readSegment d segPrefix pos.1 with
  | none => rfl
  | some data =>
    have hnext : readSegment d segPrefix (pos.1 + 1) = none := by
      rw [hread] at h
      simpa using (by simpa using h : _ ∧ _).2
    have hlen : (data.length : ℤ) ≤ pos.2 := by
      rw [hread] at h
      simpa using (by simpa using h : _ ∧ _).1
    have hstart : ¬ pos.2 < 0 := not_lt.mpr hpos
    obtain ⟨torn, hparse⟩ : ∃ torn,
        parseFramesFromBytes pos.1 data pos.2.toNat = ([], pos.2.toNat, torn) := by
      rcases Nat.lt_or_eq_of_le (show data.length ≤ pos.2.toNat by omega) with hlt | heq
      · exact ⟨false, parseFrames_past _ hlt⟩
      · obtain ⟨torn, hloop, -⟩ := parseLoop_eq pos.1 data data.length pos.2.toNat (by omega)
        rw [← heq, drop_length, Framing.scan_stop Framing.next_nil] at hloop
        exact ⟨torn, by rw [parseFramesFromBytes, ← heq, hloop]; rfl⟩
    simp [if_neg hstart, hparse, hnext, Int.toNat_of_nonneg hpos]

theorem hotblkLoop_spec (rest : List (SealedBlock preallocEnabled)) :
    ∀ {fuel : ℕ} {seq : ℤ}, rest.length < fuel →
      (∀ i (hi : i < rest.length), d.read (blockPath flushDir (seq + i)) = some rest[i].content) →
      (∀ data, d.read (blockPath flushDir (seq + rest.length)) = some data →
      splitComplete preallocEnabled data = none) → hotblkLoop preallocEnabled d flushDir fuel seq =
      (blockVisits seq rest, seq + rest.length) := by
  induction rest with
  | nil =>
    intro fuel seq hfuel _ hend
    obtain ⟨fuel, rfl⟩ := Nat.exists_eq_succ_of_ne_zero (ne_of_gt hfuel)
    simp only [length_nil, Nat.cast_zero, add_zero] at hend ⊢
    unfold hotblkLoop
    cases hread : d.read (blockPath flushDir seq) with
    | none => rfl
    | some data =>
      simp only [hend data hread]
      rfl
  | cons b rest ih =>
    intro fuel seq hfuel hread hend
    obtain ⟨fuel, rfl⟩ :=
      Nat.exists_eq_succ_of_ne_zero (Nat.ne_of_gt (Nat.lt_of_le_of_lt (Nat.zero_le _) hfuel))
    have hfirst := hread 0 (Nat.zero_lt_succ _)
    simp only [Nat.cast_zero, add_zero, getElem_cons_zero] at hfirst
    have hseq : ∀ i : ℕ, seq + 1 + (i : ℤ) = seq + ((i + 1 : ℕ) : ℤ) := by
      intro i
      rw [Nat.cast_add, Nat.cast_one]
      omega
    have hlater := @ih fuel (seq + 1) (Nat.lt_of_succ_lt_succ hfuel) (by
      intro i hi
      rw [hseq, hread (i + 1) (Nat.succ_lt_succ hi), getElem_cons_succ]) (by
      intro data hdata
      rw [hseq] at hdata
      exact hend data hdata)
    obtain ⟨torn, hparse, -⟩ := parseFrames_start seq b.frames (append_nil _).symm frameNext_nil
    have hintact := intact_framesBytes seq b.frames
    rw [hparse] at hintact
    simp only [hotblkLoop, hfirst, b.whole, hintact, Bool.not_true, Bool.false_eq_true, if_false,
      hlater, hparse, hseq, length_cons]
    rfl

theorem Shows.walkHotblk (h : Shows d shard snapPath snap s) (hm : m ≤ s.blocks.length) :
    walkHotblkFrames preallocEnabled d (hotblkDir shard) (m + 1) =
      (blockVisits (m + 1) (s.blocks.drop m), (s.blocks.length + 1 : ℤ)) := by
  have hseq : ∀ i : ℕ, (m : ℤ) + 1 + i = ↑(m + i) + 1 := by
    intro i
    rw [Nat.cast_add]
    omega
  have hread : ∀ i (hi : i < (s.blocks.drop m).length),
      d.read (blockPath (hotblkDir shard) (m + 1 + i)) = some (s.blocks.drop m)[i].content := by
    intro i hi
    rw [length_drop] at hi
    rw [hseq, h.blocks (m + i) (by omega), getElem_drop]
  have hle : (s.blocks.drop m).length ≤ d.live.length := by
    apply @blocks_le_live _ d (hotblkDir shard) (m + 1)
    intro i hi
    rw [Nat.cast_add, Nat.cast_succ]
    exact isSome_iff_exists.mpr ⟨_, hread i hi⟩
  have hlen : (m : ℤ) + 1 + (s.blocks.drop m).length = ↑s.blocks.length + 1 := by
    rw [hseq, length_drop, Nat.add_sub_cancel' hm]
  have hstart : ¬ (m : ℤ) + 1 < 1 := by omega
  have hloop := hotblkLoop_spec (s.blocks.drop m) (Nat.lt_succ_of_le hle) hread (by
    intro data hdata
    rw [hlen] at hdata
    exact h.unsealed data hdata)
  rw [walkHotblkFrames, if_neg hstart, hloop, hlen]

variable (P : Projection M)

/-- The shard has read `n` frames of the segments and `m` blocks. -/
structure HasRead (s : Store preallocEnabled) (n m : ℕ) (sh : Shard M) : Prop where
  frontier : Boundary s.segs n (sh.fseg, sh.foff)
  hbSeq : sh.hbSeq = m + 1
  le : m ≤ s.blocks.length

/-- The shard after all of the store. -/
def caughtUp (s : Store preallocEnabled) (map : M) : Shard M :=
  ⟨map, (logEnd 0 s.segs).1, (logEnd 0 s.segs).2, s.blocks.length + 1⟩

theorem hasRead_caughtUp (s : Store preallocEnabled) (map : M) :
    HasRead s (logVisits 0 s.segs).length s.blocks.length (caughtUp s map) :=
  ⟨boundary_logEnd s.segs, rfl, le_rfl⟩

theorem HasRead.after (h : HasRead s n m sh) (e : Event preallocEnabled) :
    HasRead (s.after e) n m sh := by
  obtain ⟨bs, hbs⟩ := (s.after_extends e).2
  refine ⟨h.frontier.after e, h.hbSeq, ?_⟩
  rw [hbs, length_append]
  exact Nat.le_add_right_of_le h.le

theorem Shows.scanSegments (h : Shows d shard snapPath snap s) (sh : Shard M)
    (hpos : Boundary s.segs n pos) (hsh : NotAfter (sh.fseg, sh.foff) pos) :
    scanSegments P d (walSegPrefix shard) pos.1 pos.2 sh =
      (⟨((logVisits 0 s.segs).drop n).foldl P.visitSegment sh.map, (logEnd 0 s.segs).1,
      (logEnd 0 s.segs).2, sh.hbSeq⟩, ((logVisits 0 s.segs).drop n).length) := by
  have hend := hpos.notAfter
  have hbump : NotAfter (sh.fseg, sh.foff) (logEnd 0 s.segs) := by
    simp only [NotAfter] at hsh hend ⊢
    omega
  simp only [AxisBridge.scanSegments, walkFrames_boundary h.segments hpos]
  have hread := Shard.bumpFrontier_of_notAfter
    { sh with map := ((logVisits 0 s.segs).drop n).foldl P.visitSegment sh.map } hbump
  rw [hread]

theorem Shows.scanHotblk (h : Shows d shard snapPath snap s) (sh : Shard M) (hshard : shard ≠ "")
    (hm : m ≤ s.blocks.length) (hsh : sh.hbSeq = m + 1) :
    scanHotblk P preallocEnabled d (walSegPrefix shard) sh =
      ({ sh with
          map := (blockVisits (m + 1) (s.blocks.drop m)).foldl P.visitBlock sh.map,
          hbSeq := s.blocks.length + 1 }, (blockVisits (m + 1) (s.blocks.drop m)).length) := by
  simp only [AxisBridge.scanHotblk, hotblkDirFromWalPrefix_walSegPrefix hshard, hsh,
    h.walkHotblk hm]

/-- A replay takes what is new in the segments, then what is new in the blocks; its guard never
refuses a frame. -/
theorem Shows.doReplay (h : Shows d shard snapPath snap s) (hshard : shard ≠ "")
    (hsh : HasRead s n m sh) : doReplay P preallocEnabled d (walSegPrefix shard) sh =
    (caughtUp s (P.turns [s.news n m] sh.map), (s.news n m).1.length + (s.news n m).2.length) := by
  have hscan := h.scanSegments P sh hsh.frontier (.inr ⟨rfl, le_rfl⟩)
  have hwal : (if walHasDelta d (walSegPrefix shard) sh.fseg sh.foff then
      AxisBridge.scanSegments P d (walSegPrefix shard) sh.fseg sh.foff sh else (sh, 0)) =
      (⟨((logVisits 0 s.segs).drop n).foldl P.visitSegment sh.map, (logEnd 0 s.segs).1,
        (logEnd 0 s.segs).2, sh.hbSeq⟩, ((logVisits 0 s.segs).drop n).length) := by
    cases hdelta : walHasDelta d (walSegPrefix shard) sh.fseg sh.foff with
    | true => rw [if_pos rfl, hscan]
    | false =>
      have hwalk := walkFrames_of_no_delta (sh.fseg, sh.foff) hsh.frontier.nonneg.2 hdelta
      rw [walkFrames_boundary h.segments hsh.frontier, Prod.mk.injEq] at hwalk
      rw [if_neg Bool.false_ne_true, hwalk.1, hwalk.2]
      rfl
  have hblocks := h.scanHotblk P ⟨((logVisits 0 s.segs).drop n).foldl P.visitSegment sh.map,
    (logEnd 0 s.segs).1, (logEnd 0 s.segs).2, sh.hbSeq⟩ hshard hsh.le hsh.hbSeq
  simp only [AxisBridge.doReplay, hwal, hblocks]
  rfl

/-- A rebuild of a new shard takes what the snapshot lacks of the segments, then all blocks. -/
theorem Shows.doRebuild (h : Shows d shard snapPath snap s) (hshard : shard ≠ "") {map : M}
    (hsnap : P.loadSnapshot P.empty snap = (map, pos)) (hpos : Boundary s.segs n pos) :
    doRebuild P preallocEnabled d (walSegPrefix shard) snapPath P.openShard =
      (caughtUp s (P.turns [s.news n 0] map), (s.news n 0).1.length + (s.news n 0).2.length) := by
  have hzero : NotAfter ((0 : ℤ), (0 : ℤ)) pos := by
    have hnn := hpos.nonneg
    simp only [NotAfter]
    omega
  have hload := Shard.bumpFrontier_of_notAfter { P.openShard with map := map } hzero
  have hscan := h.scanSegments P ⟨map, pos.1, pos.2, 1⟩ hpos (.inr ⟨rfl, le_rfl⟩)
  have hblocks := h.scanHotblk P ⟨((logVisits 0 s.segs).drop n).foldl P.visitSegment map,
    (logEnd 0 s.segs).1, (logEnd 0 s.segs).2, 1⟩ hshard (Nat.zero_le s.blocks.length) rfl
  have hopen : P.openShard.map = P.empty := rfl
  simp only [AxisBridge.doRebuild, h.snapshot, hopen, hsnap, hload]
  simp only [Projection.openShard, hscan, hblocks, drop_zero, Nat.cast_zero, zero_add]
  rfl

/-! ### Reads over a history -/

variable {t t' t₁ : Handles M} {s' : Store preallocEnabled} {es : List (Event preallocEnabled)}
  {past : List (List Visit × List Visit)} {map : M}

def Handles.Holds (t : Handles M) (shard : String) (sh : Shard M) : Prop :=
  ∃ h, t.resident shard = some h ∧ t.idx h = some sh

/-- Before a read: nothing is resident yet, or the resident shard holds the turns so far. -/
inductive Ready (shard : String) (map : M) (pos : ℤ × ℤ) (s : Store preallocEnabled)
    (t : Handles M) : List (List Visit × List Visit) → ℕ → ℕ → Prop
  | untouched {n : ℕ} :
      t.resident shard = none → Boundary s.segs n pos → Ready shard map pos s t [] n 0
  | resident {past : List (List Visit × List Visit)} {n m : ℕ} {sh : Shard M} : t.Holds shard sh →
      HasRead s n m sh → sh.map = P.turns past map → Ready shard map pos s t past n m

theorem Ready.after (h : Ready P shard map pos s t past n m) (e : Event preallocEnabled) :
    Ready P shard map pos (s.after e) t past n m := by
  cases h with
  | untouched hnew hpos => exact .untouched hnew (hpos.after e)
  | resident hheld hread hmap => exact .resident hheld (hread.after e) hmap

/-- A read answers from the turns so far and one more, which the resident shard then holds too. -/
theorem Ready.read (h : Ready P shard map pos s t past n m) (hshard : shard ≠ "")
    (hsnap : P.loadSnapshot P.empty snap = (map, pos)) (hshow : Shows d shard snapPath snap s)
    (answer : M → String) :
    ∃ t₁, resGet P preallocEnabled d shard (walSegPrefix shard) snapPath answer t =
      some (t₁, answer (P.turns (past ++ [s.news n m]) map)) ∧ Ready P shard map pos s t₁
      (past ++ [s.news n m]) (logVisits 0 s.segs).length s.blocks.length := by
  cases h with
  | untouched hnew hpos =>
    have hrebuild := hshow.doRebuild P hshard hsnap hpos
    refine ⟨⟨t.next + 1, update (update t.idx t.next (some P.openShard)) t.next
      (some (caughtUp s (P.turns [s.news n 0] map))),
      update t.resident shard (some t.next)⟩, ?_, ?_⟩
    · simp only [resGet, hnew, update_self, isNone_none, if_true, hrebuild]
      rfl
    · exact .resident ⟨t.next, update_self .., update_self ..⟩ (hasRead_caughtUp s _) rfl
  | resident hheld hread hmap =>
    obtain ⟨h, hres, hidx⟩ := hheld
    have hreplay := hshow.doReplay P hshard hread
    rw [hmap, ← Projection.turns_append] at hreplay
    refine ⟨⟨t.next, update t.idx h
      (some (caughtUp s (P.turns (past ++ [s.news n m]) map))), t.resident⟩, ?_, ?_⟩
    · simp only [resGet, hres, hidx, isNone_some, Bool.false_eq_true, if_false, hreplay]
      rfl
    · exact .resident ⟨h, hres, update_self ..⟩ (hasRead_caughtUp s _) rfl

theorem freshGet_eq (hshard : shard ≠ "") (hsnap : P.loadSnapshot P.empty snap = (map, pos))
    (hpos : Boundary s.segs n pos) (hshow : Shows d shard snapPath snap s) (answer : M → String)
    (t : Handles M) :
    freshGet P preallocEnabled d (walSegPrefix shard) snapPath answer t =
      some (answer (P.turns [s.news n 0] map)) := by
  have hrebuild := hshow.doRebuild P hshard hsnap hpos
  simp only [freshGet, openHandle, rebuildHandle, getHandle, update_self, map_some,
    bind_eq_bind, bind_some, hrebuild]
  rfl

theorem epochs_write {e : Event preallocEnabled} (h : e ≠ .read) :
    epochs n m s (e :: es) = epochs n m (s.after e) es := by
  cases e with
  | append f => rfl
  | rotate => rfl
  | block b => rfl
  | read => exact absurd rfl h

theorem Run.extends (hrun : Run P shard snapPath snap s t es s' t') :
    (∃ vs, logVisits 0 s'.segs = logVisits 0 s.segs ++ vs) ∧ ∃ bs, s'.blocks = s.blocks ++ bs := by
  induction hrun with
  | done => exact ⟨⟨[], (append_nil _).symm⟩, [], (append_nil _).symm⟩
  | @write s t e es s' t' _ _ ih =>
    obtain ⟨⟨vs, hvs⟩, bs, hbs⟩ := s.after_extends e
    obtain ⟨⟨vs', hvs'⟩, bs', hbs'⟩ := ih
    exact ⟨⟨vs ++ vs', by rw [hvs', hvs, append_assoc]⟩, bs ++ bs', by rw [hbs', hbs, append_assoc]⟩
  | read d answer text _ _ _ ih => exact ih

theorem Run.boundary (hrun : Run P shard snapPath snap s t es s' t') (h : Boundary s.segs n pos) :
    Boundary s'.segs n pos := by
  induction hrun with
  | done => exact h
  | @write s t e es s' t' _ _ ih => exact ih (h.after e)
  | read d answer text _ _ _ ih => exact ih h

/-- Nothing is skipped and nothing comes twice: the reads together find what the store holds. -/
theorem Run.news (hrun : Run P shard snapPath snap s t es s' t')
    (hn : n ≤ (logVisits 0 s.segs).length) (hm : m ≤ s.blocks.length) :
    (lefts (epochs n m s es), rights (epochs n m s es)) = s'.news n m := by
  induction hrun generalizing n m with
  | done => simp [epochs, lefts, rights]
  | @write s t e es s' t' hne _ ih =>
    obtain ⟨⟨vs, hvs⟩, bs, hbs⟩ := s.after_extends e
    rw [epochs_write hne]
    apply ih
    · rw [hvs, length_append]
      exact Nat.le_add_right_of_le hn
    · rw [hbs, length_append]
      exact Nat.le_add_right_of_le hm
  | @read s t t₁ es s' t' d answer text _ _ hlater ih =>
    obtain ⟨⟨vs, hvs⟩, bs, hbs⟩ := hlater.extends
    have hih := ih (n := (logVisits 0 s.segs).length) (m := s.blocks.length) le_rfl le_rfl
    simp only [Store.news, Prod.mk.injEq] at hih ⊢
    rw [hvs, drop_left, hbs, drop_left] at hih
    simp only [epochs, lefts_cons, rights_cons, hih.1, hih.2, Store.news, hvs, hbs,
      drop_append_of_le_length hn, drop_append_of_le_length hm, blockVisits,
      map_append, logVisits_append, length_map, length_drop, true_and]
    congr 2
    omega

/-- Over a history the resident shard and a shard rebuilt at its end have seen the same frames and
blocks: the one turn by turn, the other all segments before all blocks. -/
theorem Run.answers (hrun : Run P shard snapPath snap s t es s' t') (hshard : shard ≠ "")
    (hnew : t.resident shard = none) (hsnap : P.loadSnapshot P.empty snap = (map, pos))
    (hpos : Boundary s.segs n pos) (hshow : Shows d shard snapPath snap s') (answer : M → String) :
    let news := epochs n 0 s es
    (∃ t₁, resGet P preallocEnabled d shard (walSegPrefix shard) snapPath answer t' =
        some (t₁, answer (P.turns news map))) ∧
      freshGet P preallocEnabled d (walSegPrefix shard) snapPath answer t' =
        some (answer (P.turns [(lefts news, rights news)] map)) := by
  intro news
  constructor
  · have hstep : ∀ {past n m}, Ready P shard map pos s t past n m →
        ∃ past' n' m', Ready P shard map pos s' t' past' n' m' ∧
          past ++ epochs n m s es = past' ++ [s'.news n' m'] := by
      clear hnew hpos hshow news
      induction hrun with
      | done => intro past n m h; exact ⟨past, n, m, h, rfl⟩
      | @write s t e es s' t' hne _ ih =>
        intro past n m h
        rw [epochs_write hne]
        exact ih (h.after P e)
      | @read s t t₁ es s' t' d answer text hshow hget _ ih =>
        intro past n m h
        obtain ⟨t₂, hread, hready⟩ := h.read P hshard hsnap hshow answer
        rw [hget, some.injEq, Prod.mk.injEq] at hread
        rw [← hread.1] at hready
        obtain ⟨past', n', m', hready', heq⟩ := ih hready
        refine ⟨past', n', m', hready', ?_⟩
        rw [← heq, epochs, append_assoc]
        rfl
    obtain ⟨past, n', m', hready, heq⟩ := hstep (.untouched hnew hpos)
    obtain ⟨t₁, hread, -⟩ := hready.read P hshard hsnap hshow answer
    rw [← heq] at hread
    exact ⟨t₁, hread⟩
  · have hall := hrun.news P hpos.le_length (Nat.zero_le _)
    rw [hall]
    exact freshGet_eq P hshard hsnap (hrun.boundary P hpos) hshow answer t'

/-! ### A block, a read, and a frame -/

def blockOf (f : Frame) (h : f.bytes.length < 10 ^ 16) : SealedBlock true where
  frames := [f]
  content := framesBytes [f] ++ trailerFor (framesBytes [f]).length
  whole := by
    have hlen : (framesBytes [f]).length < 10 ^ 16 := by simpa using h
    rw [splitComplete, trailered_trailerFor hlen]

/-- The first block's file of the shard `s`. -/
def diskBlock (b : SealedBlock true) : Volume :=
  ⟨[⟨b.content, 0⟩], [(".axverity/hotblocks/s/block-1.bin", 0)], []⟩

/-- The same file and a segment of one frame. -/
def diskBoth (b : SealedBlock true) (f : Frame) : Volume :=
  ⟨[⟨b.content, 0⟩, ⟨framesBytes [f], 0⟩],
    [(".axverity/hotblocks/s/block-1.bin", 0), (".axverity/wal/s-0.log", 1)], []⟩

theorem shows_diskBlock (b : SealedBlock true) :
    Shows (diskBlock b) "s" "snap" none (⟨[], [b]⟩ : Store true) where
  segments := rfl
  blocks i hi := by
    obtain rfl : i = 0 := by simpa using hi
    rfl
  unsealed data hdata := by
    have hread : (diskBlock b).read (blockPath (hotblkDir "s") 2) = none := rfl
    cases hread.symm.trans hdata
  snapshot := rfl

theorem shows_diskBoth (b : SealedBlock true) (f : Frame) :
    Shows (diskBoth b f) "s" "snap" none (⟨[[f]], [b]⟩ : Store true) where
  segments := ⟨rfl, rfl⟩
  blocks i hi := by
    obtain rfl : i = 0 := by simpa using hi
    rfl
  unsealed data hdata := by
    have hread : (diskBoth b f).read (blockPath (hotblkDir "s") 2) = none := rfl
    cases hread.symm.trans hdata
  snapshot := rfl

def noHandles (M : Type) : Handles M := ⟨1, fun _ => none, fun _ => none⟩

theorem exists_run_block_then_frame (map : M) (hsnap : P.loadSnapshot P.empty none = (map, 0, 0))
    (answer : M → String) (b : SealedBlock true) (f : Frame) :
    ∃ t, Run P "s" "snap" none (⟨[], []⟩ : Store true) (noHandles M)
      [.block b, .read, .append f] ⟨[[f]], [b]⟩ t := by
  have hready : Ready P "s" map (0, 0) (⟨[], [b]⟩ : Store true) (noHandles M) [] 0 0 :=
    .untouched rfl (.inl ⟨rfl, rfl, rfl⟩)
  obtain ⟨t₁, hread, -⟩ := hready.read P (by decide) hsnap (shows_diskBlock b) answer
  exact ⟨t₁, .write nofun (.read _ answer _ (shows_diskBlock b) hread (.write nofun .done))⟩

end AxisBridge
