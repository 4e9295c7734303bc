import AxisBridge.Runtime.BlockFile
import AxisBridge.Runtime.RawBlk

/-! Recovery from a shard's raw blocks: which of their frames it applies, and what a second call
does. -/
namespace AxisBridge
open List

open StdText (fromUtf8Lossy)

namespace RawBlk

structure RawShard where
  rawDir : String
  shapes : ℕ → Option Shape
  pk : String → Option String
  hashes : Finset String
  blocksScanned : ℕ
  framesScanned : ℕ
  undecodable : ℕ

def shapesPath (rawRoot : String) : String := s!"{rawRoot}/shapes.log"

def readShapes (d : Volume) (rawRoot : String) : ℕ → Option Shape :=
  loadShapes ((d.read (shapesPath rawRoot)).getD [])

/-- `trim_end_matches('/')`. -/
def trimSlashes (s : String) : String :=
    String.ofList ((s.toList.reverse.dropWhile (· = '/')).reverse)

/-- The shapes of the log one level up, and over them those beside the blocks. -/
def rawblkRecoverOpen (d : Volume) (rawDir : String) : RawShard :=
  let parent := ((rsplitOnce '/' (trimSlashes rawDir)).map Prod.fst).getD rawDir
  { rawDir
    shapes := fun id => (readShapes d rawDir id).or (readShapes d parent id)
    pk := fun _ => none
    hashes := ∅
    blocksScanned := 0
    framesScanned := 0
    undecodable := 0 }

section
variable [Sha256] [StdText]

def derive (shapes : ℕ → Option Shape) (f : RawFrame) : Option (String × String) :=
  if f.kind = 65 then deriveA (fromUtf8Lossy f.payload)
  else if f.kind = 66 then deriveB f.payload shapes
  else none

def visitFrame (sh : RawShard) (f : RawFrame) : RawShard :=
  match derive sh.shapes f with
  | some (name, record) =>
    let hex := sha256Hex (textBytes record)
    { sh with
      pk := Function.update sh.pk name (some ("sha256:" ++ hex))
      hashes := insert hex sh.hashes }
  | none => { sh with undecodable := sh.undecodable + 1 }

def rebuildBlock (sh : RawShard) (data : Bytes) : RawShard :=
  let frames := (parseRawFrames data).1
  let visited := frames.foldl visitFrame { sh with blocksScanned := sh.blocksScanned + 1 }
  { visited with framesScanned := visited.framesScanned + frames.length }

def rebuildLoop (d : Volume) : ℕ → ℤ → RawShard → RawShard
  | 0, _, sh => sh
  | fuel + 1, seq, sh =>
    match d.read (blockPath sh.rawDir seq) with
    | none => sh
    | some data => rebuildLoop d fuel (seq + 1) (rebuildBlock sh data)

/-- The loop ends at the first gap; there are no more blocks than directory entries. -/
def rawblkRecoverRebuild (d : Volume) (sh : RawShard) : RawShard :=
  rebuildLoop d (d.live.length + 1) 1 sh

/-- A frame's row, and the frame counted. -/
def applyFrame (sh : RawShard) (f : RawFrame) : RawShard :=
  let visited := visitFrame sh f
  { visited with framesScanned := visited.framesScanned + 1 }

end

def blocksLoop (d : Volume) (rawDir : String) : ℕ → ℤ → List Bytes
  | 0, _ => []
  | fuel + 1, seq =>
    match d.read (blockPath rawDir seq) with
    | none => []
    | some data => data :: blocksLoop d rawDir fuel (seq + 1)

/-- The blocks from the first on, up to the first gap. -/
def blocksOf (d : Volume) (rawDir : String) : List Bytes :=
  blocksLoop d rawDir (d.live.length + 1) 1

/-- A block is torn when something follows its intact frames. -/
def Torn (data : Bytes) : Prop := (parseRawFrames data).2 ≠ data.length

instance (data : Bytes) : Decidable (Torn data) := inferInstanceAs (Decidable (_ ≠ _))

/-- The frames of the blocks in order, up to the first damage. -/
def frameStream : List Bytes → List RawFrame
  | [] => []
  | data :: blocks =>
    (parseRawFrames data).1 ++ if Torn data then [] else frameStream blocks

/-- What a recovery has found: bindings, hashes, and the counts of frames and undecodable ones. -/
def RawShard.found (sh : RawShard) : (String → Option String) × Finset String × ℕ × ℕ :=
  (sh.pk, sh.hashes, sh.framesScanned, sh.undecodable)

section
variable {d : Volume} {rawDir : String} {fuel : ℕ} {seq : ℤ} {blocks : List Bytes} {data : Bytes}

theorem read_blocksLoop {i : ℕ} (hi : i < (blocksLoop d rawDir fuel seq).length) :
    d.read (blockPath rawDir (seq + i)) = some (blocksLoop d rawDir fuel seq)[i] := by
  induction fuel generalizing seq i with
  | zero => exact absurd hi (Nat.not_lt_zero i)
  | succ fuel ih =>
    rw [blocksLoop] at hi
    cases hread : d.read (blockPath rawDir seq) with
    | none => simp [hread] at hi
    | some data =>
      simp only [blocksLoop, hread] at hi ⊢
      cases i with
      | zero => simpa using hread
      | succ i =>
        have hnext := @ih (seq + 1) i (by simpa using hi)
        have hseq : seq + ((i + 1 : ℕ) : ℤ) = seq + 1 + i := by
          rw [Nat.cast_succ]
          omega
        rw [hseq, getElem_cons_succ]
        exact hnext

theorem gap_blocksLoop (h : (blocksLoop d rawDir fuel seq).length < fuel) :
    d.read (blockPath rawDir (seq + (blocksLoop d rawDir fuel seq).length)) = none := by
  induction fuel generalizing seq with
  | zero => exact absurd h (Nat.not_lt_zero _)
  | succ fuel ih =>
    cases hread : d.read (blockPath rawDir seq) with
    | none => simp [blocksLoop, hread]
    | some data =>
      simp only [blocksLoop, hread, length_cons] at h ⊢
      have hnext := @ih (seq + 1) (Nat.lt_of_succ_lt_succ h)
      have hseq : seq + (((blocksLoop d rawDir fuel (seq + 1)).length + 1 : ℕ) : ℤ) =
          seq + 1 + (blocksLoop d rawDir fuel (seq + 1)).length := by
        rw [Nat.cast_succ]
        omega
      rw [hseq]
      exact hnext

variable [Sha256] [StdText] {sh sh' : RawShard} {fs : List RawFrame}

theorem rebuildBlock_rawDir (data : Bytes) : (rebuildBlock sh data).rawDir = sh.rawDir := by
  have hvisit (sh : RawShard) (f : RawFrame) : (visitFrame sh f).rawDir = sh.rawDir := by
    rw [visitFrame]
    split <;> rfl
  have hfold (fs : List RawFrame) (sh : RawShard) :
      (fs.foldl visitFrame sh).rawDir = sh.rawDir := by
    induction fs generalizing sh with
    | nil => rfl
    | cons f fs ih => exact (ih _).trans (hvisit sh f)
  exact hfold _ _

theorem rebuildLoop_eq (fuel : ℕ) (seq : ℤ) (sh : RawShard) :
    rebuildLoop d fuel seq sh = (blocksLoop d sh.rawDir fuel seq).foldl rebuildBlock sh := by
  induction fuel generalizing seq sh with
  | zero => rfl
  | succ fuel ih =>
    cases hread : d.read (blockPath sh.rawDir seq) with
    | none => simp [rebuildLoop, blocksLoop, hread]
    | some data => simp [rebuildLoop, blocksLoop, hread, ih, rebuildBlock_rawDir]

/-- A shard whose blocks are not counted. -/
def RawShard.uncounted (sh : RawShard) : RawShard := { sh with blocksScanned := 0 }

/-- The counts of a shard take no part in a visit. -/
theorem visitFrame_counts (sh : RawShard) (f : RawFrame) (b n : ℕ) :
    visitFrame { sh with blocksScanned := b, framesScanned := n } f =
      { visitFrame sh f with blocksScanned := b, framesScanned := n } := by
  simp only [visitFrame]
  split <;> rfl

theorem foldl_visitFrame_counts (fs : List RawFrame) (sh : RawShard) (b n : ℕ) :
    fs.foldl visitFrame { sh with blocksScanned := b, framesScanned := n } =
      { fs.foldl visitFrame sh with blocksScanned := b, framesScanned := n } := by
  induction fs generalizing sh with
  | nil => rfl
  | cons f fs ih => rw [foldl_cons, visitFrame_counts, ih, foldl_cons]

theorem foldl_applyFrame (fs : List RawFrame) (sh : RawShard) :
    fs.foldl applyFrame sh = { fs.foldl visitFrame sh with
      blocksScanned := sh.blocksScanned
      framesScanned := sh.framesScanned + fs.length } := by
  induction fs generalizing sh with
  | nil => rfl
  | cons f fs ih =>
    have hself : visitFrame sh f = { visitFrame sh f with
        blocksScanned := sh.blocksScanned
        framesScanned := sh.framesScanned } :=
          visitFrame_counts sh f sh.blocksScanned sh.framesScanned
    have happly : applyFrame sh f = { visitFrame sh f with
        blocksScanned := sh.blocksScanned
        framesScanned := sh.framesScanned + 1 } := by
      rw [applyFrame, hself]
    rw [foldl_cons, ih, happly, foldl_visitFrame_counts, foldl_cons, length_cons,
      add_assoc, add_comm 1]

theorem uncounted_rebuildBlock (sh : RawShard) (data : Bytes) :
    (rebuildBlock sh data).uncounted = (parseRawFrames data).1.foldl applyFrame sh.uncounted := by
  have hblock : (parseRawFrames data).1.foldl visitFrame
      { sh with blocksScanned := sh.blocksScanned + 1 } =
      { (parseRawFrames data).1.foldl visitFrame sh with
        blocksScanned := sh.blocksScanned + 1
        framesScanned := sh.framesScanned } :=
    foldl_visitFrame_counts _ sh (sh.blocksScanned + 1) sh.framesScanned
  have hbare : (parseRawFrames data).1.foldl visitFrame sh.uncounted =
      { (parseRawFrames data).1.foldl visitFrame sh with
        blocksScanned := 0
        framesScanned := sh.framesScanned } :=
    foldl_visitFrame_counts _ sh 0 sh.framesScanned
  rw [foldl_applyFrame, hbare, rebuildBlock, hblock]
  rfl

theorem uncounted_foldl_rebuildBlock (blocks : List Bytes) (sh : RawShard) :
    (blocks.foldl rebuildBlock sh).uncounted =
      (blocks.flatMap fun data => (parseRawFrames data).1).foldl applyFrame sh.uncounted := by
  induction blocks generalizing sh with
  | nil => rfl
  | cons data blocks ih =>
    rw [foldl_cons, ih, uncounted_rebuildBlock, flatMap_cons, foldl_append]

theorem blocksScanned_foldl (blocks : List Bytes) (sh : RawShard) :
    (blocks.foldl rebuildBlock sh).blocksScanned = sh.blocksScanned + blocks.length := by
  induction blocks generalizing sh with
  | nil => rfl
  | cons data blocks ih =>
    have hblock : (rebuildBlock sh data).blocksScanned = sh.blocksScanned + 1 := by
      have hvisited := foldl_visitFrame_counts (parseRawFrames data).1 sh (sh.blocksScanned + 1)
        sh.framesScanned
      exact congrArg RawShard.blocksScanned hvisited
    rw [foldl_cons, ih, hblock, length_cons]
    omega

/-- All frames of all blocks, wherever they stand. -/
def allFrames (blocks : List Bytes) : List RawFrame :=
  blocks.flatMap fun data => (parseRawFrames data).1

theorem found_rebuild (d : Volume) (sh : RawShard) :
    (rawblkRecoverRebuild d sh).found =
      ((allFrames (blocksOf d sh.rawDir)).foldl applyFrame sh).found := by
  have hfound (sh : RawShard) : sh.found = sh.uncounted.found := rfl
  have hfold (fs : List RawFrame) : (fs.foldl applyFrame sh).uncounted =
      fs.foldl applyFrame sh.uncounted := by
    rw [foldl_applyFrame, foldl_applyFrame]
    have hbare : fs.foldl visitFrame sh.uncounted =
        { fs.foldl visitFrame sh with blocksScanned := 0, framesScanned := sh.framesScanned } :=
      foldl_visitFrame_counts fs sh 0 sh.framesScanned
    rw [hbare]
    rfl
  rw [rawblkRecoverRebuild, rebuildLoop_eq, hfound, uncounted_foldl_rebuildBlock, ← hfold]
  exact (hfound _).symm

/-- On every disk a recovery scans the blocks up to the first gap, and finds what their intact
frames say, each in its place. -/
theorem recovery_finds (d : Volume) (sh : RawShard) : ∃ blocks : List Bytes,
    (∀ i (hi : i < blocks.length), d.read (blockPath sh.rawDir (1 + i)) = some blocks[i]) ∧
      d.read (blockPath sh.rawDir (1 + blocks.length)) = none ∧
      (rawblkRecoverRebuild d sh).found = ((allFrames blocks).foldl applyFrame sh).found ∧
      (rawblkRecoverRebuild d sh).blocksScanned = sh.blocksScanned + blocks.length := by
  have hread (i : ℕ) (hi : i < (blocksOf d sh.rawDir).length) :
      d.read (blockPath sh.rawDir (1 + i)) = some (blocksOf d sh.rawDir)[i] := read_blocksLoop hi
  have hlive : (blocksOf d sh.rawDir).length ≤ d.live.length := by
    apply @blocks_le_live _ d sh.rawDir 1
    intro i hi
    rw [Nat.cast_add]
    exact Option.isSome_iff_exists.mpr ⟨_, hread i hi⟩
  have hscanned : (rawblkRecoverRebuild d sh).blocksScanned =
      sh.blocksScanned + (blocksOf d sh.rawDir).length := by
    rw [rawblkRecoverRebuild, rebuildLoop_eq]
    exact blocksScanned_foldl _ sh
  exact ⟨_, hread, gap_blocksLoop (Nat.lt_succ_of_le hlive), found_rebuild d sh, hscanned⟩

theorem framesScanned_foldl (fs : List RawFrame) (sh : RawShard) :
    (fs.foldl applyFrame sh).framesScanned = sh.framesScanned + fs.length := by
  rw [foldl_applyFrame]

omit [Sha256] [StdText] in
theorem framesScanned_of_found (h : sh.found = sh'.found) : sh.framesScanned = sh'.framesScanned :=
  congrArg (fun found => found.2.2.1) h

theorem rawDir_rebuild (d : Volume) (sh : RawShard) :
    (rawblkRecoverRebuild d sh).rawDir = sh.rawDir := by
  rw [rawblkRecoverRebuild, rebuildLoop_eq]
  generalize blocksLoop d sh.rawDir _ 1 = blocks
  induction blocks generalizing sh with
  | nil => rfl
  | cons data blocks ih => rw [foldl_cons, ih, rebuildBlock_rawDir]

end

section
variable {blocks : List Bytes} {data : Bytes}

/-- Behind a torn block there is no block that starts with an intact frame. -/
def NoFrameBehindTorn : List Bytes → Prop
  | [] => True
  | data :: blocks => if Torn data then ∀ b ∈ blocks, frameAt b = none else NoFrameBehindTorn blocks

theorem parseRawFrames_nil_iff : (parseRawFrames data).1 = [] ↔ frameAt data = none := by
  cases hdata : data with
  | nil => exact iff_of_true rfl rfl
  | cons b bs =>
    rw [parseRawFrames, length_cons, parseLoop, drop_zero]
    cases frameAt (b :: bs) with
    | none => simp
    | some f => simp

theorem frameStream_prefix (blocks : List Bytes) : frameStream blocks <+: allFrames blocks := by
  induction blocks with
  | nil => exact prefix_rfl
  | cons data blocks ih =>
    rw [frameStream, allFrames, flatMap_cons]
    split
    · rw [append_nil]
      exact prefix_append _ _
    · exact (prefix_append_right_inj _).mpr ih

theorem allFrames_eq_nil_iff : allFrames blocks = [] ↔ ∀ b ∈ blocks, frameAt b = none := by
  simp [allFrames, parseRawFrames_nil_iff]

theorem frameStream_eq_iff : frameStream blocks = allFrames blocks ↔ NoFrameBehindTorn blocks := by
  induction blocks with
  | nil => exact iff_of_true rfl trivial
  | cons data blocks ih =>
    have hall : allFrames (data :: blocks) = (parseRawFrames data).1 ++ allFrames blocks := rfl
    rw [frameStream, NoFrameBehindTorn, hall]
    split
    · rw [append_cancel_left_eq, eq_comm]
      exact allFrames_eq_nil_iff
    · rw [append_cancel_left_eq]
      exact ih

end

section
variable [Sha256] [StdText] {d : Volume} {sh : RawShard}

/-- What a recovery finds is the fold over frames in front of the first damage. -/
def StopsAtDamage (d : Volume) (sh : RawShard) : Prop :=
  ∃ fs, fs <+: frameStream (blocksOf d sh.rawDir) ∧
    (rawblkRecoverRebuild d sh).found = (fs.foldl applyFrame sh).found

theorem stopsAtDamage_iff : StopsAtDamage d sh ↔ NoFrameBehindTorn (blocksOf d sh.rawDir) := by
  rw [← frameStream_eq_iff]
  have hpre := frameStream_prefix (blocksOf d sh.rawDir)
  constructor
  · rintro ⟨fs, hfs, hfound⟩
    rw [found_rebuild] at hfound
    have hcount := framesScanned_of_found hfound
    rw [framesScanned_foldl, framesScanned_foldl] at hcount
    have hle := hfs.length_le
    have hle' := hpre.length_le
    exact hpre.eq_of_length (by omega)
  · intro heq
    exact ⟨_, heq ▸ prefix_rfl, found_rebuild d sh⟩

theorem found_again_iff : (rawblkRecoverRebuild d (rawblkRecoverRebuild d sh)).found =
    (rawblkRecoverRebuild d sh).found ↔ ∀ b ∈ blocksOf d sh.rawDir, frameAt b = none := by
  rw [← allFrames_eq_nil_iff]
  have hfound := found_rebuild d (rawblkRecoverRebuild d sh)
  rw [rawDir_rebuild] at hfound
  constructor
  · intro heq
    rw [hfound] at heq
    have hcount := framesScanned_of_found heq
    rw [framesScanned_foldl] at hcount
    exact length_eq_zero_iff.mp (by omega)
  · intro hnil
    rw [hfound, hnil]
    rfl

theorem again_iff : rawblkRecoverRebuild d (rawblkRecoverRebuild d sh) = rawblkRecoverRebuild d sh ↔
    blocksOf d sh.rawDir = [] := by
  have hdir := rawDir_rebuild d sh
  rw [rawblkRecoverRebuild, rebuildLoop_eq, hdir]
  constructor
  · intro heq
    have hcount := congrArg RawShard.blocksScanned heq
    rw [blocksScanned_foldl] at hcount
    exact length_eq_zero_iff.mp (Nat.add_eq_left.mp hcount)
  · intro hnil
    rw [blocksOf] at hnil
    rw [hnil]
    rfl

/-- The first call stops at damage exactly when no intact frame stands behind a torn block; another
call finds the same exactly when there is no frame at all, and leaves the whole shard as it is
exactly when there is no block. -/
theorem rawblk_recover_iff (d : Volume) (rawDir : String) :
    let sh := rawblkRecoverOpen d rawDir
    (StopsAtDamage d sh ↔ NoFrameBehindTorn (blocksOf d rawDir)) ∧
      ((rawblkRecoverRebuild d (rawblkRecoverRebuild d sh)).found =
        (rawblkRecoverRebuild d sh).found ↔ ∀ b ∈ blocksOf d rawDir, frameAt b = none) ∧
      (rawblkRecoverRebuild d (rawblkRecoverRebuild d sh) = rawblkRecoverRebuild d sh ↔
        blocksOf d rawDir = []) :=
  ⟨stopsAtDamage_iff, found_again_iff, again_iff⟩

end

/-- A frame of no kind that is known, without a payload. -/
def bareFrame : Bytes := MAGIC ++ [67] ++ replicate 30 48 ++ SENTINEL

/-- A torn block and behind it a frame. -/
def diskTorn : Volume :=
  ⟨[⟨[0], 1⟩, ⟨bareFrame, 42⟩], [("r/block-1.bin", 0), ("r/block-2.bin", 1)], []⟩

theorem blocksOf_diskTorn : blocksOf diskTorn "r" = [[0], bareFrame] := by decide +kernel

theorem frameAt_bareFrame : frameAt bareFrame ≠ none := by decide +kernel

attribute [local instance] textDigests plainText

/-- The frame behind the damage is applied, and counted once more by another call. -/
theorem recovery_passes_damage :
    ¬StopsAtDamage diskTorn (rawblkRecoverOpen diskTorn "r") ∧ (rawblkRecoverRebuild diskTorn
      (rawblkRecoverRebuild diskTorn (rawblkRecoverOpen diskTorn "r"))).found ≠
      (rawblkRecoverRebuild diskTorn (rawblkRecoverOpen diskTorn "r")).found := by
  have hblocks : blocksOf diskTorn (rawblkRecoverOpen diskTorn "r").rawDir = [[0], bareFrame] :=
    blocksOf_diskTorn
  have htorn : Torn [0] := by decide
  constructor
  · rw [stopsAtDamage_iff, hblocks, NoFrameBehindTorn, if_pos htorn]
    intro h
    exact frameAt_bareFrame (h bareFrame (mem_singleton_self _))
  · rw [Ne, found_again_iff, hblocks]
    intro h
    exact frameAt_bareFrame (h bareFrame (mem_cons_of_mem _ (mem_singleton_self _)))

end RawBlk

end AxisBridge
