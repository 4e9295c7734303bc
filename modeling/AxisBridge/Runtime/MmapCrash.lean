import AxisBridge.Lib.Reach
import AxisBridge.Runtime.MmapSeg
import Mathlib.Data.List.GetD

/-! A mapped segment over crashes of its process and losses of power: what its file has on stable
storage, and which records come back. -/
namespace AxisBridge
open List hiding rec

namespace MmapSeg

/-- The bytes on stable storage once these pages of the page cache are written to it. -/
def writePages (pages : ℕ → Bool) (stable cache : List UInt8) : List UInt8 :=
  cache.mapIdx fun i b => if pages (i / PAGE) then b else stable.getD i 0

/-- The pages that `msync` flushes: from the start of the page of `synced` up to the cursor. -/
def dirtyPages (seg : MmapSeg) (page : ℕ) : Bool :=
  seg.synced < seg.cursor ∧ seg.synced / PAGE ≤ page ∧ page * PAGE < seg.cursor

def msync (seg : MmapSeg) : MmapSeg := { seg with synced := max seg.synced seg.cursor }

def readFrom (seg : MmapSeg) : ℕ → ℕ → List (List UInt8)
  | 0, _ => []
  | fuel + 1, off =>
    match seg.readAt off with
    | some v => v :: seg.readFrom fuel (off + FRAME_OVERHEAD + v.length)
    | none => []

/-- What `read_at` gives from the start on, frame after frame. -/
def records (seg : MmapSeg) : List (List UInt8) := seg.readFrom seg.bytes.length 0

end MmapSeg

open MmapSeg

/-- A process has the segment mapped; or none has, and then the end of the last process's appends is
known unless power was lost since. -/
inductive Mapping
  | closed (file : List UInt8) (frontier : Option ℕ)
  | mapped (seg : MmapSeg)

/-- The file as the page cache has it. -/
def Mapping.cached : Mapping → List UInt8
  | .closed file _ => file
  | .mapped seg => seg.bytes

/-- A segment's file in the page cache and on stable storage. `expected` is a ghost: the records
that the first opening after a loss of power found, and those appended since. -/
structure SegWorld where
  mapping : Mapping
  stable : List UInt8
  expected : List (List UInt8)

def SegWorld.start : SegWorld := ⟨.closed [] none, [], []⟩

/-- The kernel can write back any pages at any time. -/
inductive SegAction
  | openFile (cap : ℕ)
  | append (rec : List UInt8)
  | msync
  | flushFile
  | writeBack (pages : ℕ → Bool)
  | processCrash
  | powerLoss

inductive SegStep : SegAction → SegWorld → SegWorld → Prop
  | openFile {w : SegWorld} {cap : ℕ} {file : List UInt8} {frontier : Option ℕ} (hcap : 0 < cap)
      (hw : w.mapping = .closed file frontier) :
      SegStep (.openFile cap) w { w with
        mapping := .mapped (MmapSeg.openFile file cap)
        expected := if frontier.isSome then w.expected else (MmapSeg.openFile file cap).records }
  | append {w : SegWorld} {rec : List UInt8} {seg : MmapSeg} (hw : w.mapping = .mapped seg) :
      SegStep (.append rec) w { w with
        mapping := .mapped (seg.append rec).1
        expected := if (seg.append rec).2 < 0 then w.expected else w.expected ++ [rec] }
  | msync {w : SegWorld} {seg : MmapSeg} (hw : w.mapping = .mapped seg) :
      SegStep .msync w { w with
        mapping := .mapped seg.msync
        stable := writePages seg.dirtyPages w.stable seg.bytes }
  | flushFile {w : SegWorld} : SegStep .flushFile w { w with stable := w.mapping.cached }
  | writeBack {w : SegWorld} {pages : ℕ → Bool} :
      SegStep (.writeBack pages) w { w with stable := writePages pages w.stable w.mapping.cached }
  | processCrash {w : SegWorld} {seg : MmapSeg} (hw : w.mapping = .mapped seg) :
      SegStep .processCrash w { w with mapping := .closed seg.bytes (some seg.cursor) }
  | powerLoss {w : SegWorld} : SegStep .powerLoss w { w with mapping := .closed w.stable none }

/-- Records without bytes are not appended where they find room. After a crash of the process the
file is not cut short of the frontier, and no intact frame stands there. -/
def NoStale (w : SegWorld) : SegAction → Prop
  | .append rec => ∀ seg, w.mapping = .mapped seg →
      seg.cursor + FRAME_OVERHEAD + rec.length ≤ seg.cap → rec ≠ []
  | .openFile cap => ∀ file frontier, w.mapping = .closed file (some frontier) →
      frontier ≤ cap ∧ readFrame (setLen file cap) cap frontier = none
  | _ => True

/-- The records that come back are the expected ones. -/
def SegWorld.Recovered (w : SegWorld) : Prop :=
  ∀ seg, w.mapping = .mapped seg → seg.records = w.expected

section
variable {seg : MmapSeg} {recs recs' : List (List UInt8)} {rest rest' bytes file : List UInt8}
  {cap : ℕ}

/-- Bytes are the frames at their start and something that does not start with a frame. -/
theorem exists_frames (bytes : List UInt8) : ∃ recs rest, bytes = framesOf recs ++ rest ∧
    (∀ v ∈ recs, Readable v) ∧ segFormat.next rest = none := by
  induction hn : bytes.length using Nat.strong_induction_on generalizing bytes with
  | _ n ih =>
    cases h : readFrame bytes bytes.length 0 with
    | none => exact ⟨[], bytes, rfl, by simp, next_eq_none.mpr h⟩
    | some v =>
      obtain ⟨hv, after, rfl⟩ := readFrame_eq_some.mp h
      rw [length_append, length_frame, FRAME_OVERHEAD] at hn
      obtain ⟨recs, rest, rfl, hread, hstop⟩ := ih _ (by omega) after rfl
      refine ⟨v :: recs, rest, by simp, ?_, hstop⟩
      exact forall_mem_cons.mpr ⟨hv, hread⟩

theorem MmapSeg.Holds.limit (h : seg.Holds recs rest) :
    max seg.cursor seg.cap = seg.bytes.length := by
  have hlen := congrArg List.length h.bytes
  rw [length_append, length_framesOf, ← h.cursor] at hlen
  have hcap := h.cap
  omega

theorem readAt_end (h : seg.Holds recs rest) : seg.readAt (framesSize recs) = none := by
  rw [MmapSeg.readAt, h.cursor]
  simp

theorem readable_of_readAt {v : List UInt8} {off : ℕ} (h : seg.Holds recs rest)
    (hv : seg.readAt off = some v) : Readable v := by
  rw [MmapSeg.readAt, h.limit, readFrame_drop] at hv
  exact (readFrame_eq_some.mp (Option.filter_eq_some_iff.mp hv).1).1

theorem readable_of_mem_readFrom {v : List UInt8} {fuel off : ℕ} (h : seg.Holds recs rest)
    (hv : v ∈ seg.readFrom fuel off) : Readable v := by
  induction fuel generalizing off with
  | zero => cases hv
  | succ fuel ih =>
    rw [readFrom] at hv
    cases hat : seg.readAt off with
    | none =>
      rw [hat] at hv
      cases hv
    | some w =>
      rw [hat] at hv
      rcases mem_cons.mp hv with rfl | hv
      · exact readable_of_readAt h hat
      · exact ih hv

/-- From a frame on, the readable frames up to the cursor are read. -/
theorem readFrom_frames {before after : List (List UInt8)} {fuel : ℕ}
    (h : seg.Holds (before ++ after) rest) (hread : ∀ v ∈ after, Readable v)
    (hfuel : after.length ≤ fuel) : seg.readFrom fuel (framesSize before) = after := by
  induction after generalizing before fuel with
  | nil =>
    rw [append_nil] at h
    cases fuel with
    | zero => rfl
    | succ fuel => rw [readFrom, readAt_end h]
  | cons v after ih =>
    rw [length_cons] at hfuel
    obtain ⟨fuel, rfl⟩ : ∃ k, fuel = k + 1 := ⟨fuel - 1, by omega⟩
    have hv := hread v (mem_cons_self ..)
    have hnext : framesSize (before ++ [v]) = framesSize before + FRAME_OVERHEAD + v.length := by
      rw [framesSize_append, add_assoc]
      rfl
    have hholds : seg.Holds (before ++ [v] ++ after) rest := by
      rw [append_assoc]
      exact h
    have hlater : seg.readFrom fuel (framesSize (before ++ [v])) = after :=
      ih hholds (fun w hw => hread w (mem_cons_of_mem v hw)) (by omega)
    rw [hnext] at hlater
    simp only [readFrom, readAt_frame h hv, hlater]

theorem length_le_framesSize (recs : List (List UInt8)) : recs.length ≤ framesSize recs := by
  induction recs with
  | nil => exact Nat.zero_le _
  | cons v recs ih =>
    simp only [framesSize, map_cons, sum_cons, length_cons, FRAME_OVERHEAD] at ih ⊢
    omega

theorem MmapSeg.Holds.records (h : seg.Holds recs rest) (hread : ∀ v ∈ recs, Readable v) :
    seg.records = recs := by
  have hlen := congrArg List.length h.bytes
  rw [length_append, length_framesOf] at hlen
  have hle := length_le_framesSize recs
  have hstart : seg.Holds ([] ++ recs) rest := h
  exact readFrom_frames hstart hread (by omega)

/-- What is known of a segment between the actions of a run. -/
def Kept (w : SegWorld) : Prop :=
  match w.mapping with
  | .closed file (some frontier) => frontier = framesSize w.expected ∧
      (∃ rest, file = framesOf w.expected ++ rest) ∧ ∀ v ∈ w.expected, Readable v
  | .closed _ none => True
  | .mapped seg => (∃ rest, seg.Holds w.expected rest) ∧ ∀ v ∈ w.expected, Readable v

/-- A file cut behind some frames is still these frames and something behind them. -/
theorem setLen_behind (rest : List UInt8) (hle : framesSize recs ≤ cap) :
    ∃ rest', setLen (framesOf recs ++ rest) cap = framesOf recs ++ rest' := by
  rw [← length_framesOf] at hle
  refine ⟨rest.take (cap - (framesOf recs).length) ++
    replicate (cap - (framesOf recs ++ rest).length) 0, ?_⟩
  rw [setLen, take_append, take_of_length_le hle, append_assoc]

/-- A segment opened behind known frames holds them and the intact frames that stand behind them. -/
theorem openFile_behind (rest : List UInt8) (hread : ∀ v ∈ recs, Readable v)
    (hle : framesSize recs ≤ cap) : ∃ stale rest', (openFile (framesOf recs ++ rest) cap).Holds
    (recs ++ stale) rest' ∧ (∀ v ∈ recs ++ stale, Readable v) ∧
    (stale = [] ↔ readFrame (setLen (framesOf recs ++ rest) cap) cap (framesSize recs) = none) := by
  obtain ⟨behind, hset⟩ := setLen_behind rest hle
  obtain ⟨stale, rest', rfl, hstale, hstop⟩ := exists_frames behind
  have hall : ∀ v ∈ recs ++ stale, Readable v := by
    intro v hv
    rcases mem_append.mp hv with hv | hv
    · exact hread v hv
    · exact hstale v hv
  have hdrop : (setLen (framesOf recs ++ rest) cap).drop (framesSize recs) =
      framesOf stale ++ rest' := by
    rw [hset, ← length_framesOf, drop_left]
  have hat : readFrame (setLen (framesOf recs ++ rest) cap) cap (framesSize recs) =
      readFrame (framesOf stale ++ rest') (framesOf stale ++ rest').length 0 := by
    have hlimit := readFrame_drop (setLen (framesOf recs ++ rest) cap) (framesSize recs)
    rw [length_setLen, hdrop] at hlimit
    exact hlimit
  refine ⟨stale, rest', holds_openFile ?_ hall hstop, hall, ?_⟩
  · rw [hset, framesOf_append, append_assoc]
  · rw [hat]
    cases stale with
    | nil => exact iff_of_true rfl (next_eq_none.mp hstop)
    | cons v stale =>
      have hv := readFrame_of_frame (hstale v (mem_cons_self ..)) (framesOf stale ++ rest')
      rw [← append_assoc, ← framesOf_cons] at hv
      rw [hv]
      exact iff_of_false (cons_ne_nil v stale) (Option.some_ne_none v)

section
variable {stable : List UInt8} {frontier : ℕ}

theorem SegStep.found (hcap : 0 < cap) (hrec : (MmapSeg.openFile file cap).records = recs') :
    SegStep (.openFile cap) ⟨.closed file none, stable, recs⟩
      ⟨.mapped (MmapSeg.openFile file cap), stable, recs'⟩ := by
  have hstep := @SegStep.openFile ⟨.closed file none, stable, recs⟩ cap file none hcap rfl
  rw [hrec] at hstep
  exact hstep

theorem SegStep.again (hcap : 0 < cap) :
    SegStep (.openFile cap) ⟨.closed file (some frontier), stable, recs⟩
      ⟨.mapped (MmapSeg.openFile file cap), stable, recs⟩ :=
  @SegStep.openFile ⟨.closed file (some frontier), stable, recs⟩ cap file (some frontier) hcap rfl

theorem SegStep.appended {rec : List UInt8} (h : 0 ≤ (seg.append rec).2) :
    SegStep (.append rec) ⟨.mapped seg, stable, recs⟩
      ⟨.mapped (seg.append rec).1, stable, recs ++ [rec]⟩ := by
  have hstep := @SegStep.append ⟨.mapped seg, stable, recs⟩ rec seg rfl
  rw [if_neg (Int.not_lt.mpr h)] at hstep
  exact hstep

end

variable {w w' : SegWorld} {a : SegAction}

theorem append_kept {rec : List UInt8} (h : seg.Holds recs rest) (hread : ∀ v ∈ recs, Readable v)
    (hne : seg.cursor + FRAME_OVERHEAD + rec.length ≤ seg.cap → rec ≠ []) :
    (∃ rest', (seg.append rec).1.Holds
        (if (seg.append rec).2 < 0 then recs else recs ++ [rec]) rest') ∧
      ∀ v ∈ if (seg.append rec).2 < 0 then recs else recs ++ [rec], Readable v := by
  by_cases hroom : rec.length > MAX_REC ∨ seg.cursor + FRAME_OVERHEAD + rec.length > seg.cap
  · rw [append_of_refused hroom]
    exact ⟨⟨rest, h⟩, hread⟩
  · obtain ⟨hoff, -, hholds⟩ := h.append hroom
    have hpos : ¬(seg.append rec).2 < 0 := by omega
    rw [if_neg hpos]
    refine ⟨⟨_, hholds⟩, ?_⟩
    intro v hv
    rcases mem_append.mp hv with hv | hv
    · exact hread v hv
    · obtain rfl := mem_singleton.mp hv
      exact ⟨hne (by omega), by omega⟩

theorem kept_step (hw : Kept w) (hok : NoStale w a) (hs : SegStep a w w') : Kept w' := by
  cases hs with
  | @openFile _ cap file frontier hcap hmap =>
    cases frontier with
    | none =>
      obtain ⟨recs, rest, hset, hread, hstop⟩ := exists_frames (setLen file cap)
      have hholds := holds_openFile hset hread hstop
      have hrecords := hholds.records hread
      refine ⟨⟨rest, ?_⟩, ?_⟩
      · simpa [hrecords] using hholds
      · simpa [hrecords] using hread
    | some frontier =>
      simp only [Kept, hmap] at hw
      obtain ⟨rfl, ⟨rest, rfl⟩, hread⟩ := hw
      obtain ⟨hle, hnone⟩ := hok _ _ hmap
      obtain ⟨stale, rest', hholds, -, hstale⟩ := openFile_behind rest hread hle
      obtain rfl := hstale.mpr hnone
      rw [append_nil] at hholds
      exact ⟨⟨rest', hholds⟩, hread⟩
  | @append _ rec seg hmap =>
    simp only [Kept, hmap] at hw
    obtain ⟨⟨rest, hholds⟩, hread⟩ := hw
    exact append_kept hholds hread (hok seg hmap)
  | @msync _ seg hmap =>
    simp only [Kept, hmap] at hw
    obtain ⟨⟨rest, hholds⟩, hread⟩ := hw
    exact ⟨⟨rest, hholds.cursor, hholds.bytes, hholds.cap⟩, hread⟩
  | flushFile => exact hw
  | writeBack => exact hw
  | @processCrash _ seg hmap =>
    simp only [Kept, hmap] at hw
    obtain ⟨⟨rest, hholds⟩, hread⟩ := hw
    exact ⟨hholds.cursor, ⟨rest, hholds.bytes⟩, hread⟩
  | powerLoss => trivial

theorem recovered_of_kept (hw : Kept w) : w.Recovered := by
  intro seg hmap
  simp only [Kept, hmap] at hw
  obtain ⟨⟨rest, hholds⟩, hread⟩ := hw
  exact hholds.records hread

theorem cursor_of_records (hread : ∀ v ∈ recs, Readable v) (h : seg.Holds recs rest)
    (hrec : seg.records = recs') : seg.cursor = framesSize recs' := by
  rw [← hrec, h.records hread]
  exact h.cursor

/-- An action that is not allowed makes other records come back. -/
theorem noStale_of_recovered (hw : Kept w) (hs : SegStep a w w') (hrec : w'.Recovered) :
    NoStale w a := by
  cases hs with
  | @openFile _ cap file frontier hcap hmap =>
    intro file' frontier' hmap'
    rw [hmap] at hmap'
    obtain ⟨rfl, rfl⟩ : file = file' ∧ frontier = some frontier' := by simpa using hmap'
    simp only [Kept, hmap] at hw
    obtain ⟨rfl, ⟨rest, rfl⟩, hread⟩ := hw
    have hrecords : (MmapSeg.openFile (framesOf w.expected ++ rest) cap).records = w.expected :=
      hrec _ rfl
    obtain ⟨recs, rest', hset, hreads, hstop⟩ :=
      exists_frames (setLen (framesOf w.expected ++ rest) cap)
    have hcursor := cursor_of_records hreads (holds_openFile hset hreads hstop) hrecords
    have hle : framesSize w.expected ≤ cap := hcursor ▸ cursor_le_cap _ cap
    obtain ⟨stale, rest', hholds, hall, hstale⟩ := openFile_behind rest hread hle
    rw [hholds.records hall] at hrecords
    exact ⟨hle, hstale.mp (append_right_eq_self.mp hrecords)⟩
  | @append _ rec seg hmap =>
    intro seg' hmap' hfits
    rw [hmap] at hmap'
    obtain rfl : seg = seg' := by simpa using hmap'
    rintro rfl
    simp only [Kept, hmap] at hw
    obtain ⟨⟨rest, hholds⟩, -⟩ := hw
    have hroom : ¬(([] : List UInt8).length > MAX_REC ∨
        seg.cursor + FRAME_OVERHEAD + ([] : List UInt8).length > seg.cap) := by
      rw [length_nil] at hfits ⊢
      omega
    obtain ⟨hoff, -, hnext⟩ := hholds.append hroom
    have hrecords := hrec _ rfl
    have hpos : ¬(seg.append []).2 < 0 := by omega
    simp only [if_neg hpos] at hrecords
    have hmem : [] ∈ (seg.append []).1.records := by simp [hrecords]
    exact (readable_of_mem_readFrom hnext hmem).1 rfl
  | msync | flushFile | writeBack | processCrash | powerLoss => trivial

theorem kept_run (h : Reaches SegStep NoStale .start w) : Kept w :=
  h.invariant kept_step trivial

end

/-- While no record without bytes is appended and no stale frame stands where a crashed process
stopped, the records that come back are those before the frontier and those appended since; the
first action that is otherwise makes them others. -/
theorem mmapseg_recovers_iff {w w' : SegWorld} {a : SegAction}
    (h : Reaches SegStep NoStale .start w) (hs : SegStep a w w') :
    w.Recovered ∧ (w'.Recovered ↔ NoStale w a) := by
  have hw := kept_run h
  refine ⟨recovered_of_kept hw, ?_, ?_⟩
  · exact noStale_of_recovered hw hs
  · intro hok
    exact recovered_of_kept (kept_step hw hok hs)

theorem mmapseg_recovers_run : ∃ w w', Reaches SegStep NoStale .start w ∧
    SegStep (.openFile 64) w w' ∧ w'.Recovered ∧ w'.expected = [[1], [2]] := by
  have hopen : Reaches SegStep NoStale .start ⟨.mapped (openFile [] 64), [], []⟩ :=
    .of_step (by simp [NoStale, SegWorld.start]) (.found (by decide) (by decide +kernel))
  have happend : Reaches SegStep NoStale .start
      ⟨.mapped ((openFile [] 64).append [1]).1, [], [[1]]⟩ :=
    hopen.next (by simp [NoStale]) (.appended (by decide +kernel))
  let file := ((openFile [] 64).append [1]).1.bytes
  have hflush :
      Reaches SegStep NoStale .start ⟨.mapped ((openFile [] 64).append [1]).1, file, [[1]]⟩ :=
    happend.next (a := .flushFile) trivial .flushFile
  have hlost : Reaches SegStep NoStale .start ⟨.closed file none, file, [[1]]⟩ :=
    hflush.next (a := .powerLoss) trivial .powerLoss
  have hfound : Reaches SegStep NoStale .start ⟨.mapped (openFile file 64), file, [[1]]⟩ :=
    hlost.next (by simp [NoStale]) (.found (by decide) (by decide +kernel))
  have hmore : Reaches SegStep NoStale .start
      ⟨.mapped ((openFile file 64).append [2]).1, file, [[1], [2]]⟩ :=
    hfound.next (by simp [NoStale]) (.appended (by decide +kernel))
  let again := ((openFile file 64).append [2]).1
  have hcrash :
      Reaches SegStep NoStale .start ⟨.closed again.bytes (some again.cursor), file, [[1], [2]]⟩ :=
    hmore.next (a := .processCrash) trivial (.processCrash rfl)
  have hs : SegStep (.openFile 64) ⟨.closed again.bytes (some again.cursor), file, [[1], [2]]⟩
      ⟨.mapped (openFile again.bytes 64), file, [[1], [2]]⟩ := .again (by decide)
  refine ⟨_, _, hcrash, hs, (mmapseg_recovers_iff hcrash hs).2.mpr ?_, rfl⟩
  intro file' frontier h
  obtain ⟨hfile, hfrontier⟩ := Mapping.closed.inj h
  rw [← hfile, ← Option.some.inj hfrontier]
  decide +kernel

theorem setLen_self {file : List UInt8} {n : ℕ} (h : file.length = n) : setLen file n = file := by
  rw [setLen, h, Nat.sub_self, replicate_zero, append_nil, take_of_length_le h.le]

theorem writePages_second (first second : List UInt8) (hfirst : first.length = PAGE)
    (hsecond : second.length = PAGE) :
    writePages (· == 1) [] (first ++ second) = replicate PAGE 0 ++ second := by
  rw [PAGE] at *
  apply ext_getElem
  · simp only [writePages, length_mapIdx, length_append, length_replicate, hfirst]
  · intro i hi _
    simp only [writePages, length_mapIdx, length_append] at hi
    simp only [writePages, getElem_mapIdx, getElem_append, length_replicate, hfirst,
      getElem_replicate, getD_nil, PAGE, beq_iff_eq]
    by_cases hlt : i < 4096
    · have hpage : ¬i / 4096 = 1 := by omega
      simp only [if_neg hpage, dif_pos hlt]
    · have hpage : i / 4096 = 1 := by omega
      simp only [if_pos hpage, dif_neg hlt]

section
variable {old later rest : List UInt8} {seg : MmapSeg}

/-- A record whose frame is one page is appended to a segment of two. -/
theorem append_page (stable : List UInt8) (h : seg.Holds [] rest) (hcap : seg.cap = 8192)
    (hold : old.length = 4088) :
    SegStep (.append old) ⟨.mapped seg, stable, []⟩ ⟨.mapped (seg.append old).1, stable, [old]⟩ ∧
      (seg.append old).1.Holds [old] (rest.drop 4096) ∧ (seg.append old).1.cap = 8192 ∧
      (seg.append old).1.cursor = 4096 := by
  have hmax : MAX_REC = 67108864 := rfl
  have hover : FRAME_OVERHEAD = 8 := rfl
  have hcur : seg.cursor = 0 := h.cursor
  have hroom : ¬(old.length > MAX_REC ∨ seg.cursor + FRAME_OVERHEAD + old.length > seg.cap) := by
    omega
  obtain ⟨hoff, hcap', hone⟩ := h.append hroom
  have hwidth : FRAME_OVERHEAD + old.length = 4096 := by omega
  rw [hwidth] at hone
  refine ⟨.appended (by omega), hone, by omega, ?_⟩
  rw [hone.cursor]
  exact hwidth

/-- The first page, with the whole frame of a record, never reaches the disk. -/
theorem half_written (old : List UInt8) (hold : old.length = 4088) (hlen : later.length ≤ 4088) :
    ∃ k, later.length + 8 + k = 4096 ∧ Reaches SegStep anyAction .start
      ⟨.closed (replicate PAGE 0 ++ (frame later ++ replicate k 0)) none,
        replicate PAGE 0 ++ (frame later ++ replicate k 0), [old, later]⟩ := by
  have hmax : MAX_REC = 67108864 := rfl
  have hover : FRAME_OVERHEAD = 8 := rfl
  have hempty := holds_openFile_nil 8192
  have hopen : Reaches SegStep anyAction .start ⟨.mapped (openFile [] 8192), [], []⟩ :=
    .of_step trivial (.found (by omega) (hempty.records (by simp)))
  obtain ⟨hstep, hone, hcap, hcur⟩ := append_page [] hempty rfl hold
  have hfirst := hopen.next trivial hstep
  generalize (openFile [] 8192).append old = p at *
  have hroom :
      ¬(later.length > MAX_REC ∨ p.1.cursor + FRAME_OVERHEAD + later.length > p.1.cap) := by
    omega
  obtain ⟨hoff, -, htwo⟩ := hone.append hroom
  have hsecond := hfirst.next (a := .append later) trivial (.appended (by omega))
  have hbytes : (p.1.append later).1.bytes =
      frame old ++ (frame later ++ replicate (4088 - later.length) 0) := by
    rw [htwo.bytes, drop_replicate, drop_replicate, hover, framesOf_append]
    simp only [framesOf_cons, framesOf_nil, append_nil, append_assoc]
    congr 3
    omega
  have hkept := hsecond.next (a := .writeBack (· == 1)) trivial .writeBack
  have hlost := hkept.next (a := .powerLoss) trivial .powerLoss
  have hpages := writePages_second (frame old) (frame later ++ replicate (4088 - later.length) 0)
    (by rw [length_frame, PAGE]; omega)
    (by rw [length_append, length_frame, length_replicate, PAGE]; omega)
  simp only [Mapping.cached, hbytes, hpages] at hlost
  exact ⟨_, by omega, hlost⟩

/-- Once the first page is filled again, the record behind it is back. -/
theorem stale_run (old new later : List UInt8) (hold : old.length = 4088) (hnew : new.length = 4088)
    (hpos : 0 < later.length) (hlen : later.length ≤ 4088) :
    ∃ w seg, Reaches SegStep anyAction .start w ∧ w.mapping = .mapped seg ∧
      seg.records = [new, later] ∧ w.expected = [new] := by
  have hmax : MAX_REC = 67108864 := rfl
  have hread : ∀ v ∈ [new, later], Readable v := by
    simp only [mem_cons, not_mem_nil, or_false, forall_eq_or_imp, forall_eq, Readable,
      ← length_pos_iff]
    omega
  obtain ⟨k, hk, hlost⟩ := half_written old hold hlen
  have hsize : (replicate PAGE 0 ++ (frame later ++ replicate k 0)).length = 8192 := by
    simp only [length_append, length_replicate, length_frame, PAGE, FRAME_OVERHEAD]
    omega
  have hstop : segFormat.next (replicate PAGE 0 ++ (frame later ++ replicate k 0)) = none :=
    next_of_zero rfl
  have hdrop : (replicate PAGE 0 ++ (frame later ++ replicate k 0)).drop 4096 =
      frame later ++ replicate k 0 := drop_left' length_replicate
  generalize replicate PAGE 0 ++ (frame later ++ replicate k 0) = file at *
  have hfound : (openFile file 8192).Holds [] file :=
    holds_openFile (setLen_self hsize) (by simp) hstop
  have hopen := hlost.next trivial (.found (by decide : 0 < 8192) (hfound.records (by simp)))
  obtain ⟨hstep, hone, -, -⟩ := append_page file hfound rfl hnew
  have hfilled := hopen.next trivial hstep
  have hcrash := hfilled.next (a := .processCrash) trivial (.processCrash rfl)
  have hagain := hcrash.next trivial (.again (by decide : 0 < 8192))
  refine ⟨_, _, hagain, rfl, ?_, rfl⟩
  generalize ((openFile file 8192).append new).1 = seg at *
  have hbytes : seg.bytes = framesOf [new, later] ++ replicate k 0 := by
    rw [hone.bytes, hdrop]
    simp
  have hset : setLen seg.bytes 8192 = framesOf [new, later] ++ replicate k 0 := by
    rw [← hbytes]
    apply setLen_self
    rw [hbytes]
    simp only [framesOf_cons, framesOf_nil, length_append, length_replicate, length_frame,
      FRAME_OVERHEAD, length_nil]
    omega
  exact (holds_openFile hset hread (next_zeros k)).records hread

end

/-- Only the second page reached the disk. -/
theorem stale_record_comes_back : ¬∀ w, Reaches SegStep anyAction .start w → w.Recovered := by
  intro h
  obtain ⟨w, seg, hrun, hmap, hrecords, hexpected⟩ :=
    stale_run (replicate 4088 2) (replicate 4088 3) [1] length_replicate
      length_replicate (by decide) (by decide)
  have hsame := h w hrun seg hmap
  rw [hrecords, hexpected] at hsame
  cases hsame

end AxisBridge
