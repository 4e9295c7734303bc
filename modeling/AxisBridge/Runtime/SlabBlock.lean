import AxisBridge.Lib.DiskRun
import AxisBridge.Runtime.Text

/-! The slab writer: blocks that grow in place, are synced on the tick of their tier, and get their
name and content hash when they are sealed. -/
namespace AxisBridge
open List Option

abbrev FileOp := Disk.Op String UInt8

/-- A block under its position; the hasher is given by the bytes it was fed. -/
structure SlabBlock where
  seq : ℤ
  path : String
  len : ℤ
  unflushed : ℤ
  hasher : Bytes
  dirSynced : Bool

open SlabBlock

/-- A writer of one thread: the active block, the full ones that wait for a sweep, the ledger of the
sealed ones and the counters. -/
structure Slab where
  dir : String
  slaUs : ℤ
  blockBytes : ℤ
  nextSeq : ℤ
  active : Option SlabBlock
  fullPending : List SlabBlock
  sealed : List (ℤ × String × ℤ)
  lastSweep : Option ℕ
  appends : ℤ
  dataFsyncs : ℤ
  dirFsyncs : ℤ
  sweeps : ℤ
  gatedTicks : ℤ

open Slab

def DEFAULT_BLOCK_BYTES : ℤ := 4 * 1024 * 1024

/-- The name a block has once it is sealed. -/
def sealedPath (dir : String) (seq : ℤ) : String := s!"{dir}/block-{seq}.bin"

/-- The name a block has while it is written. -/
def partPath (dir : String) (seq : ℤ) : String := s!"{dir}/block-{seq}.bin.part"

def inDirOf (dir p : String) : Bool := parentDir p = dir

/-- The next block number; a file's name can take it to the end of its range, where the checked
addition fails. -/
def nextBlock (seq : ℤ) : Option ℤ := if seq + 1 < 2 ^ 63 then some (seq + 1) else none

/-- A new block, after whatever was left under its working name is removed. -/
def mintBlock (s : Slab) : Option (Slab × SlabBlock × List FileOp) := do
  let seq := s.nextSeq
  let next ← nextBlock seq
  let path := partPath s.dir seq
  some ({ s with nextSeq := next }, ⟨seq, path, 0, 0, [], false⟩, [.remove path, .create path])

/-- A block after a sync of its data, with the counters. -/
structure Fsynced where
  block : SlabBlock
  dataFsyncs : ℤ
  dirFsyncs : ℤ
  ops : List FileOp

/-- The first sync of a block's data syncs its directory too. -/
def fsyncBlock (b : SlabBlock) (dataFsyncs dirFsyncs : ℤ) : Fsynced :=
  if b.dirSynced then ⟨{ b with unflushed := 0 }, dataFsyncs + 1, dirFsyncs, [.sync b.path]⟩
  else
    ⟨{ b with unflushed := 0, dirSynced := true }, dataFsyncs + 1, dirFsyncs + 1,
      [.sync b.path, .syncDir (inParentOf b.path)]⟩

def fsyncDirty (b : SlabBlock) (dataFsyncs dirFsyncs : ℤ) : Fsynced :=
  if 0 < b.unflushed then fsyncBlock b dataFsyncs dirFsyncs else ⟨b, dataFsyncs, dirFsyncs, []⟩

section
variable [Sha256]

/-- A block gets its name; the assertion fails on one with bytes that are not synced. -/
def sealBlock (s : Slab) (b : SlabBlock) : Option (Slab × String × List FileOp) :=
  if b.unflushed ≠ 0 then none
  else
    let path := sealedPath s.dir b.seq
    let hash := bytesHash b.hasher
    some
      ({ s with dirFsyncs := s.dirFsyncs + 1, sealed := s.sealed ++ [(b.seq, hash, b.len)] }, hash,
      [.rename b.path path, .syncDir (inDirOf s.dir)])

/-- The full blocks are synced and sealed in order; the two counters that the loop carries go over
those of the slab at each block. -/
def drainPending (s : Slab) (dataFsyncs dirFsyncs : ℤ) :
    List SlabBlock → Option (Slab × ℤ × ℤ × List FileOp)
  | [] => some (s, dataFsyncs, dirFsyncs, [])
  | b :: pending => do
    let f := fsyncDirty b dataFsyncs dirFsyncs
    let r ← sealBlock { s with dataFsyncs := f.dataFsyncs, dirFsyncs := f.dirFsyncs } f.block
    let later ← drainPending r.1 f.dataFsyncs f.dirFsyncs pending
    some (later.1, later.2.1, later.2.2.1, f.ops ++ r.2.2 ++ later.2.2.2)

/-- Every block with bytes that are not synced gets its sync, full ones are sealed; the number of
data syncs. -/
def sweep (s : Slab) : Option (Slab × ℤ × List FileOp) := do
  let (drained, data, dirs, ops) ←
    drainPending { s with fullPending := [] } s.dataFsyncs s.dirFsyncs s.fullPending
  match drained.active with
  | none =>
    some ({ drained with dataFsyncs := data, dirFsyncs := dirs, sweeps := drained.sweeps + 1 },
      data - s.dataFsyncs, ops)
  | some active =>
    let f := fsyncDirty active data dirs
    some
      ({ drained with
          active := some f.block
          dataFsyncs := f.dataFsyncs
          dirFsyncs := f.dirFsyncs
          sweeps := drained.sweeps + 1 },
        f.dataFsyncs - s.dataFsyncs, ops ++ f.ops)

/-- The tick at the time `now`, in nanoseconds; within the tier's period it does nothing. -/
def slabTick (now : ℕ) (s : Slab) : Option (Slab × ℤ × List FileOp) :=
  let gated := match s.lastSweep with
    | some last => ((((now - last) / 1000 : ℕ) : ℤ) < s.slaUs : Bool)
    | none => false
  if gated then some ({ s with gatedTicks := s.gatedTicks + 1 }, -1, [])
  else sweep { s with lastSweep := some now }

/-- The end of the stream: all blocks are sealed, and the text is the active one's hash. -/
def slabSeal (s : Slab) : Option (Slab × String × List FileOp) := do
  let (drained, data, dirs, ops) ←
    drainPending { s with fullPending := [] } s.dataFsyncs s.dirFsyncs s.fullPending
  match drained.active with
  | none => some (drained, "EMPTY", ops)
  | some b =>
    if b.len = 0 then some (drained, "EMPTY", ops)
    else
      let f := fsyncDirty b data dirs
      let r ← sealBlock
        { drained with active := none, dataFsyncs := f.dataFsyncs, dirFsyncs := f.dirFsyncs }
          f.block
      some (r.1, r.2.1, ops ++ f.ops ++ r.2.2)

end

/-- A block with bytes that would overflow makes room. -/
def rotate (s : Slab) (size : ℤ) : Slab :=
  match s.active with
  | some a =>
    if 0 < a.len ∧ s.blockBytes < a.len + size then
      { s with active := none, fullPending := s.fullPending ++ [a] }
    else s
  | none => s

def SlabBlock.write (b : SlabBlock) (bytes : Bytes) : SlabBlock :=
  { b with
    len := b.len + bytes.length
    unflushed := b.unflushed + bytes.length
    hasher := b.hasher ++ bytes }

/-- The record goes to the active block, a new one if there is none; its offset there. -/
def slabAppend (s : Slab) (bytes : Bytes) : Option (Slab × ℤ × List FileOp) := do
  let rotated := rotate s bytes.length
  let (minted, active, ops) ← match rotated.active with
    | some a => some (rotated, a, [])
    | none => mintBlock rotated
  some
    ({ minted with active := some (active.write bytes), appends := minted.appends + 1 }, active.len,
    ops ++ [.append active.path bytes])

/-- The same for a range of memory, which has to fit a block. -/
def slabAppendRaw (s : Slab) (mem : ℤ → UInt8) (ptr off len : ℤ) :
    Option (Slab × ℤ × List FileOp) :=
  if s.blockBytes < len then none else (memReadRaw mem ptr off len).bind (slabAppend s)

/-- The names in a directory. -/
def readDir (d : Volume) (dir : String) : List String :=
  d.live.filterMap fun e => (stripPrefix (dir ++ "/") e.1).filter fun name => '/' ∉ name.toList

/-- The number of a sealed block's name. -/
def sealedSeq (name : String) : Option ℤ := do
  let rest ← stripPrefix "block-" name
  let digits ← stripSuffix ".bin" rest
  parseI64 digits

/-- The number after those of all sealed blocks in the directory. -/
def resume (d : Volume) (dir : String) : Option ℤ :=
  match ((readDir d dir).filterMap sealedSeq).max? with
  | none => some 0
  | some seq => nextBlock seq

def slabOpen (d : Volume) (dir : String) (slaUs blockBytes : ℤ) : Option Slab :=
  if slaUs ≤ 0 then none
  else do
    let resume ← resume d dir
    some
      { dir := dir
        slaUs := slaUs
        blockBytes := if 0 < blockBytes then blockBytes else DEFAULT_BLOCK_BYTES
        nextSeq := resume
        active := none
        fullPending := []
        sealed := []
        lastSweep := none
        appends := 0
        dataFsyncs := 0
        dirFsyncs := 0
        sweeps := 0
        gatedTicks := 0 }

/-! ### Names -/

section
variable {dir : String} {seq seq' : ℤ}

theorem slash_not_mem_int (seq : ℤ) : '/' ∉ (toString seq).toList := by
  intro hmem
  rcases isDigit_int hmem with h | h
  · cases h
  · cases h

theorem parentDir_append {name : String} (hdir : dir ≠ "") (h : '/' ∉ name.toList) :
    parentDir (dir ++ "/" ++ name) = dir := by
  have hsplit : rsplitOnce '/' (dir ++ "/" ++ name) = some (dir, name) := rsplitOnce_append dir h
  simp only [parentDir, hsplit, if_neg hdir]

theorem sealedPath_eq (dir : String) (seq : ℤ) :
    sealedPath dir seq = dir ++ "/" ++ ("block-" ++ (toString seq ++ ".bin")) := by
  have hname : "/block-" = "/" ++ "block-" := rfl
  show dir ++ "/block-" ++ toString seq ++ ".bin" = _
  rw [hname]
  simp only [String.append_assoc]

theorem partPath_eq (dir : String) (seq : ℤ) :
    partPath dir seq = dir ++ "/" ++ ("block-" ++ (toString seq ++ ".bin.part")) := by
  have hname : "/block-" = "/" ++ "block-" := rfl
  show dir ++ "/block-" ++ toString seq ++ ".bin.part" = _
  rw [hname]
  simp only [String.append_assoc]

theorem inDirOf_sealedPath (hdir : dir ≠ "") : inDirOf dir (sealedPath dir seq) = true := by
  have hname : '/' ∉ ("block-" ++ (toString seq ++ ".bin")).toList := by
    simpa using slash_not_mem_int seq
  rw [inDirOf, sealedPath_eq, parentDir_append hdir hname]
  exact decide_eq_true rfl

theorem inDirOf_partPath (hdir : dir ≠ "") : inDirOf dir (partPath dir seq) = true := by
  have hname : '/' ∉ ("block-" ++ (toString seq ++ ".bin.part")).toList := by
    simpa using slash_not_mem_int seq
  rw [inDirOf, partPath_eq, parentDir_append hdir hname]
  exact decide_eq_true rfl

/-- A working name's directory is the slab's. -/
theorem inParentOf_partPath (hdir : dir ≠ "") : inParentOf (partPath dir seq) = inDirOf dir := by
  funext p
  have hparent : inDirOf dir (partPath dir seq) = true := inDirOf_partPath hdir
  rw [inDirOf, decide_eq_true_iff] at hparent
  rw [inParentOf, inDirOf, hparent]

theorem sealedPath_inj (h : sealedPath dir seq = sealedPath dir seq') : seq = seq' := by
  have hnumbered : dir ++ "/block-" ++ toString seq ++ ".bin" =
      dir ++ "/block-" ++ toString seq' ++ ".bin" := h
  exact numbered_inj hnumbered

theorem partPath_inj (h : partPath dir seq = partPath dir seq') : seq = seq' := by
  have hnumbered : dir ++ "/block-" ++ toString seq ++ ".bin.part" =
      dir ++ "/block-" ++ toString seq' ++ ".bin.part" := h
  exact numbered_inj hnumbered

theorem sealedPath_ne_partPath : sealedPath dir seq ≠ partPath dir seq' := by
  intro h
  rw [sealedPath_eq, partPath_eq] at h
  have hlast := congrArg (fun s : String => s.toList.getLast?) (append_cancel (append_cancel h))
  simp [getLast?_append] at hlast

theorem le_sealedSeq {name : String} (h : sealedSeq name = some seq) : -2 ^ 63 ≤ seq := by
  simp only [sealedSeq, bind_eq_bind, bind_eq_some_iff] at h
  obtain ⟨rest, -, digits, -, hparse⟩ := h
  exact le_parseI64 hparse

/-- Opening a directory finds the number of each sealed block in it. -/
theorem sealedSeq_mem_readDir {d : Volume} {i : ℕ} (hlow : -2 ^ 63 ≤ seq)
    (hhigh : seq < 2 ^ 63) (h : d.inode (sealedPath dir seq) = some i) :
    seq ∈ (readDir d dir).filterMap sealedSeq := by
  refine mem_filterMap.mpr ⟨"block-" ++ (toString seq ++ ".bin"), ?_, ?_⟩
  · refine mem_filterMap.mpr ⟨_, Disk.mem_of_inode h, ?_⟩
    have hname : '/' ∉ ("block-" ++ (toString seq ++ ".bin")).toList := by
      simpa using slash_not_mem_int seq
    simp only [sealedPath_eq, stripPrefix_append, filter_some, hname, not_false_eq_true,
      decide_true, if_true]
  · simp only [sealedSeq, stripPrefix_append, stripSuffix_append, bind_eq_bind,
      bind_some, parseI64_toString hlow hhigh]

end

/-! ### What each call does -/

/-- The blocks that have no name yet, oldest first. -/
def Slab.unsealed (s : Slab) : List SlabBlock := s.fullPending ++ s.active.toList

def newBlock (dir : String) (seq : ℤ) : SlabBlock := ⟨seq, partPath dir seq, 0, 0, [], false⟩

/-- A block once its bytes are synced. -/
def SlabBlock.flushed (b : SlabBlock) : SlabBlock :=
  if 0 < b.unflushed then { b with unflushed := 0, dirSynced := true } else b

def SlabBlock.flushOps (b : SlabBlock) : List FileOp :=
  if 0 < b.unflushed then
    .sync b.path :: if b.dirSynced then [] else [.syncDir (inParentOf b.path)]
  else []

def SlabBlock.sealOps (dir : String) (b : SlabBlock) : List FileOp :=
  b.flushOps ++ [.rename b.path (sealedPath dir b.seq), .syncDir (inDirOf dir)]

/-- The record needs a new block. -/
def Slab.Mints (s : Slab) (size : ℤ) : Prop :=
  ∀ a ∈ s.active, 0 < a.len ∧ s.blockBytes < a.len + size

section
variable {s : Slab} {b : SlabBlock} {bytes : Bytes} {mem : ℤ → UInt8} {ptr off len x y : ℤ}

theorem nextBlock_eq_some {seq next : ℤ} :
    nextBlock seq = some next ↔ seq + 1 < 2 ^ 63 ∧ next = seq + 1 := by
  unfold nextBlock
  split <;> grind

/-- The slab and the operations of an append to the active block. -/
def appended (s : Slab) (a : SlabBlock) (bytes : Bytes) : Slab × ℤ × List FileOp :=
  ({ s with active := some (a.write bytes), appends := s.appends + 1 }, a.len,
    [.append a.path bytes])

/-- The slab and the operations of an append to a new block, the blocks before it full. -/
def appendedNew (s : Slab) (bytes : Bytes) : Slab × ℤ × List FileOp :=
  let path := partPath s.dir s.nextSeq
  ({ s with
      nextSeq := s.nextSeq + 1
      active := some ((newBlock s.dir s.nextSeq).write bytes)
      fullPending := s.unsealed
      appends := s.appends + 1 }, 0, [.remove path, .create path, .append path bytes])

/-- An append goes to the active block, or the active block makes room and a new one is minted. -/
theorem slabAppend_cases {r : Slab × ℤ × List FileOp} (h : slabAppend s bytes = some r) :
    (∃ a, s.active = some a ∧ ¬ (0 < a.len ∧ s.blockBytes < a.len + bytes.length) ∧
      r = appended s a bytes) ∨
    (s.Mints bytes.length ∧ s.nextSeq + 1 < 2 ^ 63 ∧ r = appendedNew s bytes) := by
  cases hactive : s.active with
  | none =>
    right
    simp only [slabAppend, rotate, hactive, mintBlock, bind_eq_bind, bind_eq_some_iff,
      nextBlock_eq_some, some.injEq] at h
    obtain ⟨-, ⟨-, ⟨hfits, rfl⟩, rfl⟩, rfl⟩ := h
    refine ⟨by simp [Mints, hactive], hfits, ?_⟩
    simp [appendedNew, newBlock, unsealed, hactive]
  | some a =>
    by_cases hroom : 0 < a.len ∧ s.blockBytes < a.len + bytes.length
    · right
      simp only [slabAppend, rotate, hactive, if_pos hroom, mintBlock, bind_eq_bind,
        bind_eq_some_iff, nextBlock_eq_some, some.injEq] at h
      obtain ⟨-, ⟨-, ⟨hfits, rfl⟩, rfl⟩, rfl⟩ := h
      refine ⟨by simpa [Mints, hactive] using hroom, hfits, ?_⟩
      simp [appendedNew, newBlock, unsealed, hactive]
    · left
      simp only [slabAppend, rotate, hactive, if_neg hroom, bind_eq_bind, bind_some,
        some.injEq] at h
      exact ⟨a, rfl, hroom, h.symm⟩

/-- A range of memory is appended as a record of its bytes is. -/
theorem slabAppendRaw_eq_some {r : Slab × ℤ × List FileOp}
    (h : slabAppendRaw s mem ptr off len = some r)
    (hread : memReadRaw mem ptr off len = some bytes) : slabAppend s bytes = some r := by
  unfold slabAppendRaw at h
  split at h
  · cases h
  · rwa [hread] at h

/-- A slab starts without blocks, past the number of every sealed block in its directory. -/
theorem slabOpen_eq_some {d : Volume} {dir : String} {slaUs blockBytes : ℤ}
    (h : slabOpen d dir slaUs blockBytes = some s) :
    s.dir = dir ∧ 0 < s.blockBytes ∧ s.unsealed = [] ∧ s.sealed = [] ∧ -2 ^ 63 ≤ s.nextSeq ∧
      ∀ seq ∈ (readDir d dir).filterMap sealedSeq, seq < s.nextSeq := by
  unfold slabOpen at h
  split at h
  · cases h
  · obtain ⟨next, hnext, h⟩ := bind_eq_some_iff.mp h
    cases h
    refine ⟨rfl, ?_, rfl, rfl, ?_, ?_⟩
    · show (0 : ℤ) < if 0 < blockBytes then blockBytes else DEFAULT_BLOCK_BYTES
      split
      · assumption
      · decide
    · show -2 ^ 63 ≤ next
      unfold resume at hnext
      split at hnext
      · cases hnext
        decide
      · rename_i last hmax
        obtain ⟨name, -, hlast⟩ := mem_filterMap.mp (max?_mem hmax)
        have hlow := le_sealedSeq hlast
        have hstep := (nextBlock_eq_some.mp hnext).2
        omega
    · intro seq hseq
      unfold resume at hnext
      split at hnext
      · rename_i hmax
        rw [max?_eq_none_iff.mp hmax] at hseq
        cases hseq
      · rename_i last hmax
        have hle := (max?_le_iff hmax).mp (le_refl last) seq hseq
        have hstep := (nextBlock_eq_some.mp hnext).2
        show seq < next
        omega

theorem fsyncDirty_block (b : SlabBlock) (x y : ℤ) : (fsyncDirty b x y).block = b.flushed := by
  unfold fsyncDirty flushed
  split
  · unfold fsyncBlock
    split
    · rename_i hsynced
      rw [← hsynced]
    · rfl
  · rfl

theorem fsyncDirty_ops (b : SlabBlock) (x y : ℤ) : (fsyncDirty b x y).ops = b.flushOps := by
  unfold fsyncDirty flushOps
  split
  · unfold fsyncBlock
    split <;> rfl
  · rfl

theorem le_dataFsyncs_fsyncDirty (b : SlabBlock) (x y : ℤ) : x ≤ (fsyncDirty b x y).dataFsyncs := by
  have hstep : x ≤ x + 1 := by omega
  unfold fsyncDirty
  split
  · unfold fsyncBlock
    split
    · exact hstep
    · exact hstep
  · exact le_refl x

theorem unflushed_flushed (h : 0 ≤ b.unflushed) : b.flushed.unflushed = 0 := by
  unfold flushed
  split
  · rfl
  · omega

@[simp] theorem seq_flushed (b : SlabBlock) : b.flushed.seq = b.seq := by
  unfold flushed
  split <;> rfl

@[simp] theorem path_flushed (b : SlabBlock) : b.flushed.path = b.path := by
  unfold flushed
  split <;> rfl

@[simp] theorem len_flushed (b : SlabBlock) : b.flushed.len = b.len := by
  unfold flushed
  split <;> rfl

@[simp] theorem hasher_flushed (b : SlabBlock) : b.flushed.hasher = b.hasher := by
  unfold flushed
  split <;> rfl

variable {dir q : String} {d : Volume}

theorem run_sealOps : d.run (b.sealOps dir) =
    (((d.run b.flushOps).rename b.path (sealedPath dir b.seq)).syncDir (inDirOf dir)) := by
  unfold sealOps
  rw [Disk.run_append]
  rfl

theorem flatMap_flushOps_some (b : SlabBlock) : (some b).toList.flatMap flushOps = b.flushOps := by
  simp

/-- A sync changes no name. -/
theorem inode_run_flushOps : (d.run b.flushOps).inode q = d.inode q := by
  unfold flushOps
  split
  · split
    · exact Disk.inode_modify
    · exact Disk.inode_modify
  · rfl

end

variable [Sha256] {s : Slab} {b : SlabBlock}

def SlabBlock.entry (b : SlabBlock) : ℤ × String × ℤ := (b.seq, bytesHash b.hasher, b.len)

theorem sealBlock_flushed (s : Slab) (h : 0 ≤ b.unflushed) :
    sealBlock s b.flushed = some
      ({ s with dirFsyncs := s.dirFsyncs + 1, sealed := s.sealed ++ [b.entry] }, bytesHash b.hasher,
        [.rename b.path (sealedPath s.dir b.seq), .syncDir (inDirOf s.dir)]) := by
  simp [sealBlock, unflushed_flushed h, entry]

/-- The full blocks are sealed in order; the assertion holds for each. -/
theorem drainPending_spec (pending : List SlabBlock) (h : ∀ b ∈ pending, 0 ≤ b.unflushed) :
    ∀ (s : Slab) (x y : ℤ), ∃ data dirs x' y', x ≤ x' ∧ drainPending s x y pending = some
      ({ s with
          dataFsyncs := data
          dirFsyncs := dirs
          sealed := s.sealed ++ pending.map entry }, x', y',
        pending.flatMap (sealOps s.dir)) := by
  induction pending with
  | nil => exact fun s x y => ⟨s.dataFsyncs, s.dirFsyncs, x, y, le_refl x, by simp [drainPending]⟩
  | cons b pending ih =>
    intro s x y
    obtain ⟨hb, hpending⟩ := forall_mem_cons.mp h
    obtain ⟨data, dirs, x', y', hle, hlater⟩ := ih hpending
      { s with
        dataFsyncs := (fsyncDirty b x y).dataFsyncs
        dirFsyncs := (fsyncDirty b x y).dirFsyncs + 1
        sealed := s.sealed ++ [b.entry] }
      (fsyncDirty b x y).dataFsyncs (fsyncDirty b x y).dirFsyncs
    refine ⟨data, dirs, x', y', (le_dataFsyncs_fsyncDirty b x y).trans hle, ?_⟩
    simp only [drainPending, fsyncDirty_block, sealBlock_flushed _ hb, bind_eq_bind,
      bind_some, hlater, fsyncDirty_ops]
    simp [sealOps]

/-- A sweep seals the full blocks and syncs the active one. -/
theorem sweep_spec (h : ∀ b ∈ s.fullPending, 0 ≤ b.unflushed) :
    ∃ data dirs sweeps n, 0 ≤ n ∧ sweep s = some
      ({ s with
          active := s.active.map flushed
          fullPending := []
          sealed := s.sealed ++ s.fullPending.map entry
          dataFsyncs := data
          dirFsyncs := dirs
          sweeps := sweeps }, n,
        s.fullPending.flatMap (sealOps s.dir) ++
          s.active.toList.flatMap flushOps) := by
  obtain ⟨data, dirs, x, y, hle, hdrain⟩ := drainPending_spec s.fullPending h
    { s with fullPending := [] } s.dataFsyncs s.dirFsyncs
  cases hactive : s.active with
  | none =>
    refine ⟨x, y, s.sweeps + 1, x - s.dataFsyncs, by omega, ?_⟩
    rw [sweep, hdrain]
    simp [hactive]
  | some a =>
    have hmore := le_dataFsyncs_fsyncDirty a x y
    refine ⟨(fsyncDirty a x y).dataFsyncs, (fsyncDirty a x y).dirFsyncs, s.sweeps + 1,
      (fsyncDirty a x y).dataFsyncs - s.dataFsyncs, by omega, ?_⟩
    rw [sweep, hdrain]
    simp [hactive, fsyncDirty_block, fsyncDirty_ops]

/-- A tick within the period does nothing and says so; any other is a sweep. -/
theorem slabTick_spec (now : ℕ) (h : ∀ b ∈ s.fullPending, 0 ≤ b.unflushed) :
    slabTick now s = some ({ s with gatedTicks := s.gatedTicks + 1 }, -1, []) ∨
    ∃ data dirs sweeps n, 0 ≤ n ∧ slabTick now s = some
      ({ s with
          active := s.active.map flushed
          fullPending := []
          sealed := s.sealed ++ s.fullPending.map entry
          lastSweep := some now
          dataFsyncs := data
          dirFsyncs := dirs
          sweeps := sweeps }, n,
        s.fullPending.flatMap (sealOps s.dir) ++
          s.active.toList.flatMap flushOps) := by
  have hsweep := @sweep_spec _ { s with lastSweep := some now } h
  unfold slabTick
  extract_lets gated
  cases gated with
  | true => exact Or.inl rfl
  | false => exact Or.inr hsweep

/-- The end of the stream seals every block but an active one without bytes. -/
theorem slabSeal_spec (h : ∀ b ∈ s.unsealed, 0 ≤ b.unflushed) :
    ∃ done active data dirs text, s.unsealed = done ++ active.toList ∧
      ((∀ b ∈ active, b.len = 0) ∧ ∀ b ∈ done, b ∈ s.fullPending ∨ b.len ≠ 0) ∧
      slabSeal s = some
        ({ s with
            active := active
            fullPending := []
            sealed := s.sealed ++ done.map entry
            dataFsyncs := data
            dirFsyncs := dirs }, text,
          done.flatMap (sealOps s.dir)) := by
  have hpending : ∀ b ∈ s.fullPending, 0 ≤ b.unflushed := fun b hb => h b (mem_append_left _ hb)
  obtain ⟨data, dirs, x, y, -, hdrain⟩ := drainPending_spec s.fullPending hpending
    { s with fullPending := [] } s.dataFsyncs s.dirFsyncs
  cases hactive : s.active with
  | none =>
    refine ⟨s.fullPending, none, data, dirs, "EMPTY", by simp [unsealed, hactive],
      ⟨nofun, fun b hb => Or.inl hb⟩, ?_⟩
    rw [slabSeal, hdrain]
    simp [hactive]
  | some a =>
    have hmem : a ∈ s.unsealed := by simp [unsealed, hactive]
    by_cases hlen : a.len = 0
    · refine ⟨s.fullPending, some a, data, dirs, "EMPTY", by simp [unsealed, hactive],
        ⟨by simpa using hlen, fun b hb => Or.inl hb⟩, ?_⟩
      rw [slabSeal, hdrain]
      simp [hactive, hlen]
    · refine ⟨s.fullPending ++ [a], none, (fsyncDirty a x y).dataFsyncs,
        (fsyncDirty a x y).dirFsyncs + 1, bytesHash a.hasher, by simp [unsealed, hactive],
        ⟨nofun, ?_⟩, ?_⟩
      · intro b hb
        rcases mem_append.mp hb with hfull | hlast
        · exact Or.inl hfull
        · exact Or.inr (mem_singleton.mp hlast ▸ hlen)
      · rw [slabSeal, hdrain]
        simp [hactive, hlen, fsyncDirty_block, fsyncDirty_ops, sealBlock_flushed _ (h a hmem),
          sealOps]

end AxisBridge
