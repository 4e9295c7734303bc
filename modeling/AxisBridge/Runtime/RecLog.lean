import AxisBridge.Lib.Epochs
import AxisBridge.Runtime.Frames

/-! One batch of the recovery log: its frames go to a segment of the write-ahead log, its bind lines
to the name logs, and every file is synced before the callers are told. -/
namespace AxisBridge
open List
open Epochs (firsts mem_firsts)
open Disk

/-- A caller's oneshot, the frame of its row and the line that binds its name. -/
structure Submission where
  id : ℤ
  frame : Bytes
  logp : String
  bindLine : Bytes
  deriving DecidableEq

open Submission

def fsyncParentDir (d : Volume) (path : String) : Volume :=
  d.syncDir (inParentOf path)

/-- The file is there afterwards; the blocks reserved for it change nothing of its length. -/
def preallocFile (d : Volume) (path : String) : Volume := d.create path

/-- The flag says whether the file had to be created. -/
def openAppend (d : Volume) (path : String) : Volume × Bool :=
  (d.create path, (d.inode path).isNone)

/-- The first number from `k` on whose segment does not exist. -/
def nextFree (d : Volume) (segPrefix : String) : ℕ → ℕ → ℕ
  | 0, k => k
  | fuel + 1, k =>
    if (d.inode (segPath segPrefix k)).isSome then nextFree d segPrefix fuel (k + 1) else k

/-- The segment that the next `frameSize` bytes go to; each segment has its own entry, so the
entries are fuel enough. -/
def pickSeg (d : Volume) (segPrefix : String) (frameSize segSize : ℤ) : ℤ :=
  let hi : ℤ := (nextFree d segPrefix d.live.length 0 : ℤ) - 1
  if hi < 0 then 0
  else
    let curSize : ℤ := ((d.read (segPath segPrefix hi)).getD []).length
    if 0 < curSize ∧ segSize < curSize + frameSize then hi + 1 else hi

def walWriteSeg (d : Volume) (segPrefix : String) (frameSize segSize : ℤ) : Volume × ℤ :=
  let chosen := pickSeg d segPrefix frameSize segSize
  (preallocFile d (segPath segPrefix chosen), chosen)

/-- Every piece is appended to the file, then it is synced; the flag says whether it was created. -/
def appendAll (d : Volume) (path : String) (pieces : List Bytes) : Volume × Bool :=
  let opened := openAppend d path
  ((pieces.foldl (fun d piece => d.append path piece) opened.1).sync path, opened.2)

def frameTotal (batch : List Submission) : ℤ := (batch.map fun s => (s.frame.length : ℤ)).sum

/-- The frames of a batch, all in one segment. -/
def writeFrames (d : Volume) (shard : String) (segSize : ℤ) (batch : List Submission) :
    Volume :=
  let segPrefix := walSegPrefix shard
  let seg := walWriteSeg d segPrefix (frameTotal batch) segSize
  let path := segPath segPrefix seg.2
  let written := appendAll seg.1 path (batch.map frame)
  if written.2 then fsyncParentDir written.1 path else written.1

def nameOrder (batch : List Submission) : List String := firsts [] (batch.map logp)

def nameLines (batch : List Submission) (logp : String) : List Bytes :=
  (batch.filter (·.logp = logp)).map bindLine

/-- The logs in order, and whether any of them was created. -/
def appendNames (batch : List Submission) :
    List String → Volume → Volume × Bool
  | [], d => (d, false)
  | logp :: names, d =>
    let written := appendAll d logp (nameLines batch logp)
    let later := appendNames batch names written.1
    (later.1, written.2 || later.2)

/-- The bind lines of a batch; one sync of the names' directory covers every new log. -/
def writeNames (d : Volume) (batch : List Submission) : Volume :=
  let written := appendNames batch (nameOrder batch) d
  if written.2 then fsyncParentDir written.1 ".axverity/names/x" else written.1

/-- One drained batch, written durably, and the oneshots to signal. -/
def writeBatchFused (d : Volume) (shard : String) (segSize : ℤ)
    (batch : List Submission) : Volume × List ℤ :=
  (writeNames (writeFrames d shard segSize batch) batch, batch.map Submission.id)

/-! ### What a batch does to the files -/

variable {d d' : Volume} {path q shard : String} {pieces : List Bytes}
  {names : List String} {batch : List Submission} {segSize : ℤ} {s : Submission}

theorem sound_foldl_append (h : d.Sound) (pieces : List Bytes) :
    (pieces.foldl (fun d piece => d.append path piece) d).Sound := by
  induction pieces generalizing d with
  | nil => exact h
  | cons piece pieces ih => exact ih h.modify

theorem sound_appendAll (h : d.Sound) : (appendAll d path pieces).1.Sound :=
  (sound_foldl_append h.create pieces).modify

theorem keeps_foldl_append (h : d.Sound) (pieces : List Bytes) :
    d.Keeps (pieces.foldl (fun d piece => d.append path piece) d) := by
  induction pieces generalizing d with
  | nil => exact Disk.Keeps.refl d
  | cons piece pieces ih => exact (keeps_append h).trans (ih h.modify)

theorem keeps_appendAll (h : d.Sound) : d.Keeps (appendAll d path pieces).1 :=
  ((keeps_create h).trans (keeps_foldl_append h.create pieces)).trans
    (keeps_sync (sound_foldl_append h.create pieces))

theorem inode_foldl_append (pieces : List Bytes) :
    (pieces.foldl (fun d piece => d.append path piece) d).inode q = d.inode q := by
  induction pieces generalizing d with
  | nil => rfl
  | cons piece pieces ih => exact ih.trans inode_modify

theorem inode_appendAll : (appendAll d path pieces).1.inode q = (d.create path).inode q :=
  inode_modify.trans (inode_foldl_append pieces)

theorem file_foldl_append_self (pieces : List Bytes) :
    (pieces.foldl (fun d piece => d.append path piece) d).file path =
      (d.file path).map fun f => { f with data := f.data ++ pieces.flatten } := by
  induction pieces generalizing d with
  | nil => simp
  | cons piece pieces ih =>
    rw [foldl_cons, ih, append, file_modify_self, Option.map_map]
    congr 1
    funext f
    simp

theorem file_foldl_append_ne (h : d.Sound) (hne : q ≠ path) (pieces : List Bytes) :
    (pieces.foldl (fun d piece => d.append path piece) d).file q = d.file q := by
  induction pieces generalizing d with
  | nil => rfl
  | cons piece pieces ih => exact (ih h.modify).trans (file_modify_ne h hne)

/-- The pieces stand behind what the file had, and all of it is synced. -/
theorem file_appendAll_self (h : d.Sound) :
    (appendAll d path pieces).1.file path = some ⟨(d.read path).getD [] ++ pieces.flatten,
      ((d.read path).getD [] ++ pieces.flatten).length⟩ := by
  have hcreate := Disk.file_create_self (p := path) h
  simp only [appendAll, openAppend, Disk.sync]
  rw [Disk.file_modify_self, file_foldl_append_self, hcreate]
  unfold Disk.read
  cases d.file path <;> rfl

theorem file_appendAll_ne (h : d.Sound) (hne : q ≠ path) :
    (appendAll d path pieces).1.file q = d.file q := by
  have hsync : (appendAll d path pieces).1.file q =
      (pieces.foldl (fun d piece => d.append path piece) (d.create path)).file q :=
    file_modify_ne (sound_foldl_append h.create pieces) hne
  rw [hsync, file_foldl_append_ne h.create hne, file_create_ne h hne]

theorem read_appendAll_self (h : d.Sound) :
    (appendAll d path pieces).1.read path = some ((d.read path).getD [] ++ pieces.flatten) :=
  congrArg (Option.map DiskFile.data) (file_appendAll_self h)

theorem read_appendAll_ne (h : d.Sound) (hne : q ≠ path) :
    (appendAll d path pieces).1.read q = d.read q :=
  congrArg (Option.map DiskFile.data) (file_appendAll_ne h hne)

theorem stored_appendAll (h : d.Sound) {piece : Bytes} (hmem : piece ∈ pieces) :
    (appendAll d path pieces).1.Stored path piece := by
  refine ⟨_, file_appendAll_self h, ?_⟩
  rw [take_length]
  exact (infix_of_mem_flatten hmem).trans (suffix_append _ _).isInfix

theorem sound_appendNames (h : d.Sound) : (appendNames batch names d).1.Sound := by
  induction names generalizing d with
  | nil => exact h
  | cons logp names ih => exact ih (sound_appendAll h)

theorem keeps_appendNames (h : d.Sound) : d.Keeps (appendNames batch names d).1 := by
  induction names generalizing d with
  | nil => exact Disk.Keeps.refl d
  | cons logp names ih => exact (keeps_appendAll h).trans (ih (sound_appendAll h))

theorem file_appendNames_ne (h : d.Sound) (hq : q ∉ names) :
    (appendNames batch names d).1.file q = d.file q := by
  induction names generalizing d with
  | nil => rfl
  | cons logp names ih =>
    obtain ⟨hne, hq⟩ := not_or.mp (mt mem_cons.mpr hq)
    exact (ih (sound_appendAll h) hq).trans (file_appendAll_ne h hne)

theorem isSome_inode_create (h : (d.inode q).isSome = true) :
    ((d.create path).inode q).isSome = true := by
  rcases eq_or_ne q path with rfl | hne
  · exact inode_create_self
  · rwa [inode_create_ne hne]

theorem isSome_inode_appendAll (h : (d.inode q).isSome = true) :
    ((appendAll d path pieces).1.inode q).isSome = true := by
  rw [inode_appendAll]
  exact isSome_inode_create h

theorem isSome_inode_appendAll_self : ((appendAll d path pieces).1.inode path).isSome = true := by
  rw [inode_appendAll]
  exact inode_create_self

theorem isSome_inode_appendNames (h : (d.inode q).isSome = true) :
    ((appendNames batch names d).1.inode q).isSome = true := by
  induction names generalizing d with
  | nil => exact h
  | cons logp names ih => exact ih (isSome_inode_appendAll h)

/-- Every log of the batch is there afterwards, with its lines synced. -/
theorem appendNames_mem (h : d.Sound) (hq : q ∈ names) :
    ((appendNames batch names d).1.inode q).isSome = true ∧
      ∀ line ∈ nameLines batch q, (appendNames batch names d).1.Stored q line := by
  induction names generalizing d with
  | nil => cases hq
  | cons logp names ih =>
    rcases mem_cons.mp hq with rfl | hq
    · have hrest : (appendNames batch (q :: names) d).1 =
          (appendNames batch names (appendAll d q (nameLines batch q)).1).1 := rfl
      rw [hrest]
      constructor
      · exact isSome_inode_appendNames isSome_inode_appendAll_self
      · intro line hline
        exact (keeps_appendNames (sound_appendAll h)).stored _ _ (stored_appendAll h hline)
    · exact ih (sound_appendAll h) hq

/-- The flag tells of a log that did not exist. -/
theorem appendNames_flag (hq : q ∈ names) (hnew : d.inode q = none) :
    (appendNames batch names d).2 = true := by
  induction names generalizing d with
  | nil => cases hq
  | cons logp names ih =>
    rcases eq_or_ne q logp with rfl | hne
    · have hfirst : (appendAll d q (nameLines batch q)).2 = true := by
        simp [appendAll, openAppend, hnew]
      simp [appendNames, hfirst]
    · have hlater := ih (d := (appendAll d logp (nameLines batch logp)).1)
        ((mem_cons.mp hq).resolve_left hne) (by rw [inode_appendAll, inode_create_ne hne, hnew])
      simp [appendNames, hlater]

theorem mem_nameOrder (h : s ∈ batch) : s.logp ∈ nameOrder batch :=
  mem_firsts.mpr (Or.inr (mem_map_of_mem h))

theorem mem_nameLines (h : s ∈ batch) : s.bindLine ∈ nameLines batch s.logp :=
  mem_map_of_mem (mem_filter.mpr ⟨h, by simp⟩)

/-- No segment is a name log. -/
theorem segPath_ne_nameLog (shard : String) (seq : ℤ) (slug : String) :
    segPath (walSegPrefix shard) seq ≠ ".axverity/names/" ++ slug := by
  intro h
  have hseg : segPath (walSegPrefix shard) seq = walSegPrefix shard ++ toString seq ++ ".log" := rfl
  have hlist := congrArg String.toList h
  rw [hseg, walSegPrefix_eq] at hlist
  simp at hlist

/-- The segment that the batch's frames go to. -/
def batchSeg (d : Volume) (shard : String) (segSize : ℤ) (batch : List Submission) :
    String :=
  segPath (walSegPrefix shard) (pickSeg d (walSegPrefix shard) (frameTotal batch) segSize)

/-- The segment was reserved before it is opened, so it is never found new, and its directory is not
synced. -/
theorem writeFrames_eq : writeFrames d shard segSize batch =
    (appendAll (d.create (batchSeg d shard segSize batch)) (batchSeg d shard segSize batch)
      (batch.map frame)).1 := by
  have hflag : (appendAll (d.create (batchSeg d shard segSize batch))
      (batchSeg d shard segSize batch) (batch.map frame)).2 = false := by
    have hthere := inode_create_self (d := d) (p := batchSeg d shard segSize batch)
    simp [appendAll, openAppend, hthere]
  unfold batchSeg at hflag
  simp [writeFrames, walWriteSeg, preallocFile, batchSeg, hflag]

theorem sound_writeFrames (h : d.Sound) : (writeFrames d shard segSize batch).Sound := by
  rw [writeFrames_eq]
  exact sound_appendAll h.create

theorem keeps_writeFrames (h : d.Sound) : d.Keeps (writeFrames d shard segSize batch) := by
  rw [writeFrames_eq]
  exact (keeps_create h).trans (keeps_appendAll h.create)

theorem stored_writeFrames (h : d.Sound) (hs : s ∈ batch) :
    (writeFrames d shard segSize batch).Stored (batchSeg d shard segSize batch) s.frame := by
  rw [writeFrames_eq]
  exact stored_appendAll h.create (mem_map_of_mem hs)

theorem sound_writeNames (h : d.Sound) : (writeNames d batch).Sound := by
  simp only [writeNames]
  split
  · exact (sound_appendNames h).syncDir
  · exact sound_appendNames h

theorem keeps_writeNames (h : d.Sound) : d.Keeps (writeNames d batch) := by
  simp only [writeNames]
  split
  · exact (keeps_appendNames h).trans keeps_syncDir
  · exact keeps_appendNames h

/-- What a batch needs to find of its directories: the segment's entry is settled, and each log's
is, unless the names' directory is synced for the sake of a new log. -/
def Anchored (d : Volume) (shard : String) (segSize : ℤ) (batch : List Submission) :
    Prop :=
  d.Settled (batchSeg d shard segSize batch) ∧
    ∀ s ∈ batch, d.Settled s.logp ∨
      parentDir s.logp = ".axverity/names" ∧ ∃ s' ∈ batch, d.inode s'.logp = none

/-- The whole of an insert is on stable storage, and so are the names of the files it is in. -/
def Submission.Durable (d : Volume) (shard : String) (s : Submission) : Prop :=
  (∃ seq, d.Settled (segPath (walSegPrefix shard) seq) ∧
      d.Stored (segPath (walSegPrefix shard) seq) s.frame) ∧
    d.Settled s.logp ∧ d.Stored s.logp s.bindLine

theorem Submission.Durable.keep (h : s.Durable d shard) (hkeeps : d.Keeps d') :
    s.Durable d' shard := by
  obtain ⟨⟨seq, hseg, hframe⟩, hlog, hline⟩ := h
  exact ⟨⟨seq, hkeeps.settled _ hseg, hkeeps.stored _ _ hframe⟩, hkeeps.settled _ hlog,
    hkeeps.stored _ _ hline⟩

theorem sound_writeBatchFused (h : d.Sound) : (writeBatchFused d shard segSize batch).1.Sound :=
  sound_writeNames (sound_writeFrames h)

theorem keeps_writeBatchFused (h : d.Sound) : d.Keeps (writeBatchFused d shard segSize batch).1 :=
  (keeps_writeFrames h).trans (keeps_writeNames (sound_writeFrames h))

theorem stored_writeNames (h : d.Sound) (hs : s ∈ batch) :
    (writeNames d batch).Stored s.logp s.bindLine := by
  have hstored := (appendNames_mem h (mem_nameOrder hs)).2 _ (mem_nameLines hs)
  simp only [writeNames]
  split
  · exact keeps_syncDir.stored _ _ hstored
  · exact hstored

/-- A new log makes the batch settle every log that lies beside it. -/
theorem settled_writeNames (h : d.Sound) (hs : s ∈ batch)
    (hdir : parentDir s.logp = ".axverity/names") (hnew : ∃ s' ∈ batch, d.inode s'.logp = none) :
    (writeNames d batch).Settled s.logp := by
  obtain ⟨s', hs', hnone⟩ := hnew
  have hflag : (appendNames batch (nameOrder batch) d).2 = true :=
    appendNames_flag (mem_nameOrder hs') hnone
  simp only [writeNames, hflag, if_true]
  apply settled_syncDir (appendNames_mem h (mem_nameOrder hs)).1
  have hnames : parentDir ".axverity/names/x" = ".axverity/names" := by decide
  simp [inParentOf, hdir, hnames]

/-- A batch that finds its directories anchored leaves every insert in it durable. -/
theorem durable_writeBatchFused (h : d.Sound) (hanchor : Anchored d shard segSize batch)
    (hs : s ∈ batch) : s.Durable (writeBatchFused d shard segSize batch).1 shard := by
  have hsound : (writeFrames d shard segSize batch).Sound := sound_writeFrames h
  have hnames : (writeFrames d shard segSize batch).Keeps
      (writeBatchFused d shard segSize batch).1 := keeps_writeNames hsound
  have hkeeps : d.Keeps (writeBatchFused d shard segSize batch).1 := keeps_writeBatchFused h
  refine ⟨⟨_, hkeeps.settled _ hanchor.1, hnames.stored _ _ (stored_writeFrames h hs)⟩, ?_,
    stored_writeNames hsound hs⟩
  rcases hanchor.2 s hs with hsettled | ⟨hdir, s', hs', hnone⟩
  · exact hkeeps.settled _ hsettled
  · refine settled_writeNames hsound hs hdir ⟨s', hs', ?_⟩
    have hne : s'.logp ≠ batchSeg d shard segSize batch := by
      intro heq
      obtain ⟨i, hi, -⟩ := hanchor.1
      rw [← heq, hnone] at hi
      cases hi
    rw [writeFrames_eq, inode_appendAll, inode_create_ne hne, inode_create_ne hne, hnone]

end AxisBridge
