import AxisBridge.Lib.Pieces
import AxisBridge.Lib.Reach
import AxisBridge.Runtime.Text
import Mathlib.Data.List.MinMax

/-! Object segments: blocks are appended to segment files, and committed rows point into them. -/
namespace AxisBridge.ObjSeg
open Option List Function
open Pieces (At putAt)

/-- A row of `gcore_objects`. -/
structure ObjRow where
  addr : String
  segmentId : ℕ
  segOffset : ℕ
  len : ℕ
  deriving DecidableEq

def ObjRow.stop (row : ObjRow) : ℕ := row.segOffset + row.len

structure SegWriter where
  id : ℕ
  cursor : ℕ

/-- The segment files by number. -/
abbrev Segments := ℕ → Option Bytes

/-- The file is there afterwards; the blocks reserved for it change nothing of its length. -/
def preallocFile (files : Segments) (id : ℕ) : Segments :=
  update files id (some ((files id).getD []))

/-- The highest segment of the rows, and where its rows end. -/
def recoverSegWriter (rows : List ObjRow) : SegWriter :=
  match (rows.map ObjRow.segmentId).max? with
  | none => ⟨0, 0⟩
  | some id => ⟨id, (((rows.filter (·.segmentId = id)).map ObjRow.stop).max?).getD 0⟩

/-- The place of the next `len` bytes: a new segment when they do not fit behind others. -/
def SegWriter.pick (w : SegWriter) (cap len : ℕ) : SegWriter :=
  if 0 < w.cursor ∧ w.cursor + len > cap then ⟨w.id + 1, 0⟩ else w

def segRead (files : Segments) (id offset len : ℕ) : Option Bytes :=
  (files id).bind fun file =>
    if len = 0 ∨ offset + len ≤ file.length then some ((file.drop offset).take len) else none

/-- An object of a block: its address, and where it lies in the block. -/
structure Obj where
  addr : String
  off : ℕ
  len : ℕ

/-- A line of the index; a line that is none is a panic. -/
def parseLine (block : Bytes) (line : String) : Option Obj :=
  match split '\t' line with
  | addr :: off :: len :: _ =>
    (parseUsize off).bind fun off => (parseUsize len).bind fun len =>
      if off + len < 2 ^ 64 ∧ off + len ≤ block.length then some ⟨addr, off, len⟩ else none
  | _ => none

inductive PutCall
  | pgBytesPut (addr : String) (content : Bytes)
  | pgObjBlockPut (block : Bytes) (index : String)

def PutCall.block : PutCall → Bytes
  | .pgBytesPut _ content => content
  | .pgObjBlockPut block _ => block

/-- What is put: one object, or those of the index; with none the call returns at once. -/
def PutCall.objs : PutCall → Option (List Obj)
  | .pgBytesPut addr content => some [⟨addr, 0, content.length⟩]
  | .pgObjBlockPut block index => ((lines index).filter (· ≠ "")).mapM (parseLine block)

/-- A row with the bytes that were put for it; the table has only the row. -/
abbrev Stored := ObjRow × Bytes

/-- `ON CONFLICT (addr) DO NOTHING`. -/
def insertRow (rows : List Stored) (row : Stored) : List Stored :=
  if rows.any (·.1.addr = row.1.addr) then rows else rows ++ [row]

def PutCall.stored (call : PutCall) (id base : ℕ) (o : Obj) : Stored :=
  (⟨o.addr, id, base + o.off, o.len⟩, (call.block.drop o.off).take o.len)

/-- The transaction of a call whose block is in the segment at `base`. -/
def PutCall.commit (call : PutCall) (id base : ℕ) (rows : List Stored) : List Stored :=
  ((call.objs.getD []).map (call.stored id base)).foldl insertRow rows

/-- A block that is written and synced, with its place; its rows are not committed yet. -/
structure Placed where
  call : PutCall
  id : ℕ
  base : ℕ

/-- The segment files as they are read, and as they are on stable storage; the table; and the
process: `SEG_WRITER` once it is recovered, the call that holds it between its write and its sync,
and the calls that have appended their blocks. -/
structure ObjWorld where
  files : Segments
  stable : Segments
  rows : List Stored
  writer : Option SegWriter
  writing : Option PutCall
  placed : List Placed

/-- No row is committed; there may be files of any kind. -/
def ObjWorld.start (files : Segments) : ObjWorld := ⟨files, files, [], none, none, []⟩

/-- Each byte of a file that was synced is as it was synced or as it was written since. -/
def Torn (files stable left : Segments) : Prop :=
  ∀ id, ∀ s ∈ stable id, ∀ l ∈ left id, ∀ i < s.length,
    l[i]? = s[i]? ∨ l[i]? = ((files id).getD [])[i]?

/-- These files keep their names. -/
def NamesKept (files left : Segments) : Prop :=
  ∀ id, (files id).isSome = true → (left id).isSome = true

inductive ObjAction
  | recover
  | write (call : PutCall) (cap : ℕ)
  | sync
  | commit (p : Placed)
  | processCrash (left : Segments)
  | powerLoss (left : Segments)

/-- The steps of the calls, in any order that the mutex allows; a step that panics is none. A crash
can tear the write that is going on; that a power loss leaves a synced file its name is assumed of
the file system. -/
inductive ObjStep : ObjAction → ObjWorld → ObjWorld → Prop
  | recover {st : ObjWorld} (hw : st.writer = none) :
      ObjStep .recover st { st with
        files := preallocFile st.files (recoverSegWriter (st.rows.map Prod.fst)).id
        writer := some (recoverSegWriter (st.rows.map Prod.fst)) }
  | write {st : ObjWorld} {call : PutCall} {cap : ℕ} {w : SegWriter} {files : Segments}
      {file : Bytes} (hw : st.writer = some w) (hfree : st.writing = none)
      (hobjs : ∃ o os, call.objs = some (o :: os))
      (hfiles : files = if (w.pick cap call.block.length).cursor = 0 then
        preallocFile st.files (w.pick cap call.block.length).id else st.files)
      (hfile : files (w.pick cap call.block.length).id = some file) :
      ObjStep (.write call cap) st { st with
        files := update files (w.pick cap call.block.length).id
          (some (putAt 0 file (w.pick cap call.block.length).cursor call.block))
        writer := some (w.pick cap call.block.length)
        writing := some call }
  | sync {st : ObjWorld} {call : PutCall} {w : SegWriter} (hw : st.writer = some w)
      (hcall : st.writing = some call) :
      ObjStep .sync st { st with
        stable := update st.stable w.id (st.files w.id)
        writer := some ⟨w.id, w.cursor + call.block.length⟩
        writing := none
        placed := ⟨call, w.id, w.cursor⟩ :: st.placed }
  | commit {st : ObjWorld} {p : Placed} {before after : List Placed}
      (hp : st.placed = before ++ p :: after) :
      ObjStep (.commit p) st { st with
        rows := p.call.commit p.id p.base st.rows
        placed := before ++ after }
  | processCrash {st : ObjWorld} {left : Segments} (htorn : Torn st.files st.stable left)
      (hnames : NamesKept st.files left) :
      ObjStep (.processCrash left) st ⟨left, st.stable, st.rows, none, none, []⟩
  | powerLoss {st : ObjWorld} {left : Segments} (htorn : Torn st.files st.stable left)
      (hsynced : NamesKept st.stable left) :
      ObjStep (.powerLoss left) st ⟨left, left, st.rows, none, none, []⟩

/-- The segment has these bytes at the offset. -/
def Stands (files : Segments) (id off : ℕ) (bytes : Bytes) : Prop :=
  ∃ file, files id = some file ∧ At file off bytes

/-- The place before the cursor that ends at `stop`. -/
def Below (w : SegWriter) (id stop : ℕ) : Prop := id < w.id ∨ id = w.id ∧ stop ≤ w.cursor

/-- Bytes that no later write comes to. -/
structure Guarded (st : ObjWorld) (id off : ℕ) (bytes : Bytes) : Prop where
  files : Stands st.files id off bytes
  stable : Stands st.stable id off bytes
  below : ∀ w, st.writer = some w → Below w id (off + bytes.length)

structure ObjInvariant (st : ObjWorld) : Prop where
  rows : ∀ r ∈ st.rows, Guarded st r.1.segmentId r.1.segOffset r.2 ∧ r.2.length = r.1.len
  placed : ∀ p ∈ st.placed, Guarded st p.id p.base p.call.block
  writing : ∀ call w, st.writing = some call → st.writer = some w →
    Stands st.files w.id w.cursor call.block
  stopped : st.writer = none → st.placed = [] ∧ st.writing = none

section
variable {st st' : ObjWorld} {files stable left : Segments} {id off stop cap len : ℕ}
  {bytes : Bytes} {w : SegWriter} {a : ObjAction} {rows : List ObjRow} {row : ObjRow}
  {call : PutCall} {o : Obj}

theorem Stands.prealloc (h : Stands files id off bytes) (other : ℕ) :
    Stands (preallocFile files other) id off bytes := by
  obtain ⟨file, hfile, hat⟩ := h
  refine ⟨file, ?_, hat⟩
  by_cases hid : id = other
  · subst hid
    simp [preallocFile, hfile]
  · simp only [preallocFile, update_of_ne hid, hfile]

theorem Stands.torn (h : Stands files id off bytes) (hstable : Stands stable id off bytes)
    (htorn : Torn files stable left) (hnames : NamesKept files left ∨ NamesKept stable left) :
    Stands left id off bytes := by
  obtain ⟨file, hfile, hat⟩ := h
  obtain ⟨file', hfile', hat'⟩ := hstable
  have hthere : (left id).isSome = true :=
    hnames.elim (fun h => h id (by rw [hfile]; rfl)) fun h => h id (by rw [hfile']; rfl)
  obtain ⟨l, hl⟩ := isSome_iff_exists.mp hthere
  have hmix := htorn id file' hfile' l hl
  rw [hfile, getD_some] at hmix
  exact ⟨l, hl, hat'.mixed hat hmix⟩

variable {block : Bytes} {r : Stored}

/-- A write at the cursor leaves what is before it. -/
theorem Stands.written {file : Bytes} (h : Stands files id off bytes)
    (hbelow : Below w id (off + bytes.length)) (hfile : files w.id = some file) :
    Stands (update files w.id (some (Pieces.putAt 0 file w.cursor block))) id off bytes := by
  obtain ⟨file', hfile', hat⟩ := h
  by_cases hid : id = w.id
  · subst hid
    obtain rfl : file' = file := some.inj (hfile'.symm.trans hfile)
    have hle : off + bytes.length ≤ w.cursor := by
      rcases hbelow with hlt | hle
      · omega
      · exact hle.2
    exact ⟨_, update_self .., hat.putAt hle⟩
  · exact ⟨file', by rw [update_of_ne hid, hfile'], hat⟩

theorem Below.pick (h : Below w id stop) (cap len : ℕ) : Below (w.pick cap len) id stop := by
  rw [SegWriter.pick]
  split
  · have hle : id ≤ w.id := by
      rcases h with hlt | hle
      · exact hlt.le
      · exact hle.1.le
    exact .inl (Nat.lt_succ_of_le hle)
  · exact h

theorem Below.advance (h : Below w id stop) (len : ℕ) : Below ⟨w.id, w.cursor + len⟩ id stop := by
  simp only [Below] at *
  omega

/-- The recovered cursor is behind every row. -/
theorem below_recover (h : row ∈ rows) : Below (recoverSegWriter rows) row.segmentId row.stop := by
  cases hmax : (rows.map ObjRow.segmentId).max? with
  | none =>
    rw [max?_eq_none_iff, map_eq_nil_iff] at hmax
    rw [hmax] at h
    cases h
  | some id =>
    have hid : row.segmentId ≤ id :=
      (max?_eq_some_iff.mp hmax).2 _ (mem_map_of_mem h)
    simp only [recoverSegWriter, hmax]
    rcases Nat.lt_or_eq_of_le hid with hlt | rfl
    · exact .inl hlt
    · right
      refine ⟨rfl, ?_⟩
      have hmem : row.stop ∈ (rows.filter (·.segmentId = row.segmentId)).map ObjRow.stop :=
        mem_map_of_mem (mem_filter.mpr ⟨h, by simp⟩)
      cases hstop : ((rows.filter (·.segmentId = row.segmentId)).map ObjRow.stop).max? with
      | none =>
        rw [max?_eq_none_iff.mp hstop] at hmem
        cases hmem
      | some stop => exact (max?_eq_some_iff.mp hstop).2 _ hmem

theorem Guarded.write {cap : ℕ} {file : Bytes} (h : Guarded st id off bytes)
    (hw : st.writer = some w)
    (hfiles : files = if (w.pick cap call.block.length).cursor = 0 then
      preallocFile st.files (w.pick cap call.block.length).id else st.files)
    (hfile : files (w.pick cap call.block.length).id = some file) :
    Guarded { st with
      files := update files (w.pick cap call.block.length).id
        (some (Pieces.putAt 0 file (w.pick cap call.block.length).cursor call.block))
      writer := some (w.pick cap call.block.length)
      writing := some call } id off bytes := by
  have hbelow := (h.below w hw).pick cap call.block.length
  have hstands : Stands files id off bytes := by
    rw [hfiles]
    split
    · exact h.files.prealloc _
    · exact h.files
  refine ⟨hstands.written hbelow hfile, h.stable, ?_⟩
  rintro _ ⟨⟩
  exact hbelow

theorem Guarded.sync (h : Guarded st id off bytes) (hw : st.writer = some w) :
    Guarded { st with
      stable := update st.stable w.id (st.files w.id)
      writer := some ⟨w.id, w.cursor + call.block.length⟩
      writing := none
      placed := ⟨call, w.id, w.cursor⟩ :: st.placed } id off bytes := by
  refine ⟨h.files, ?_, ?_⟩
  · obtain ⟨file, hfile, hat⟩ := h.files
    obtain ⟨file', hfile', hat'⟩ := h.stable
    by_cases hid : id = w.id
    · subst hid
      exact ⟨file, by simp only [update_self, hfile], hat⟩
    · exact ⟨file', by simp only [update_of_ne hid, hfile'], hat'⟩
  · rintro _ ⟨⟩
    exact (h.below w hw).advance _

/-- The block that is synced now is guarded from now on. -/
theorem guarded_synced (h : Stands st.files w.id w.cursor call.block) :
    Guarded { st with
      stable := update st.stable w.id (st.files w.id)
      writer := some ⟨w.id, w.cursor + call.block.length⟩
      writing := none
      placed := ⟨call, w.id, w.cursor⟩ :: st.placed } w.id w.cursor call.block := by
  obtain ⟨file, hfile, hat⟩ := h
  refine ⟨⟨file, hfile, hat⟩, ⟨file, by simp only [update_self, hfile], hat⟩, ?_⟩
  rintro _ ⟨⟩
  exact .inr ⟨rfl, le_rfl⟩

theorem Stands.slice {pos n : ℕ} (h : Stands files id off block)
    (hle : pos + n ≤ block.length) : Stands files id (off + pos) ((block.drop pos).take n) := by
  obtain ⟨file, hfile, hat⟩ := h
  exact ⟨file, hfile, hat.slice hle⟩

theorem Guarded.slice {pos n : ℕ} (h : Guarded st id off block)
    (hle : pos + n ≤ block.length) : Guarded st id (off + pos) ((block.drop pos).take n) := by
  refine ⟨h.files.slice hle, h.stable.slice hle, ?_⟩
  intro w hw
  have hbelow := h.below w hw
  simp only [Below, length_take, length_drop] at hbelow ⊢
  omega

theorem exists_of_mem_mapM {α β : Type} {f : α → Option β} {xs : List α} {ys : List β} {y : β}
    (h : xs.mapM f = some ys) (hy : y ∈ ys) : ∃ x ∈ xs, f x = some y := by
  induction xs generalizing ys with
  | nil =>
    obtain rfl : [] = ys := by simpa using h
    cases hy
  | cons x xs ih =>
    rw [mapM_cons] at h
    obtain ⟨z, hz, h⟩ := bind_eq_some_iff.mp h
    obtain ⟨zs, hzs, h⟩ := bind_eq_some_iff.mp h
    obtain rfl := some.inj h
    rcases mem_cons.mp hy with rfl | hy
    · exact ⟨x, mem_cons_self .., hz⟩
    · obtain ⟨x', hx', hf⟩ := ih hzs hy
      exact ⟨x', mem_cons_of_mem x hx', hf⟩

theorem parseLine_le {line : String} (h : parseLine block line = some o) :
    o.off + o.len ≤ block.length := by
  rw [parseLine] at h
  split at h
  · obtain ⟨off, -, h⟩ := bind_eq_some_iff.mp h
    obtain ⟨len, -, h⟩ := bind_eq_some_iff.mp h
    split at h
    · rename_i hle
      obtain rfl := some.inj h
      exact hle.2
    · cases h
  · cases h

/-- The objects of a call lie in its block. -/
theorem obj_le {objs : List Obj} (h : call.objs = some objs) (ho : o ∈ objs) :
    o.off + o.len ≤ call.block.length := by
  cases call with
  | pgBytesPut addr content =>
    obtain rfl := some.inj h
    obtain rfl := mem_singleton.mp ho
    exact (zero_add _).le
  | pgObjBlockPut block index =>
    obtain ⟨line, -, hline⟩ := exists_of_mem_mapM h ho
    exact parseLine_le hline

theorem mem_insertRow {r' : Stored} {rows : List Stored} (h : r ∈ insertRow rows r') :
    r ∈ rows ∨ r = r' := by
  rw [insertRow] at h
  split at h
  · exact .inl h
  · simpa using h

theorem subset_insertRow (rows : List Stored) (r' : Stored) : rows ⊆ insertRow rows r' := by
  rw [insertRow]
  split
  · exact Subset.refl _
  · exact subset_append_left _ _

theorem mem_foldl_insertRow {rows new : List Stored}
    (h : r ∈ new.foldl insertRow rows) : r ∈ rows ∨ r ∈ new := by
  induction new generalizing rows with
  | nil => exact .inl h
  | cons r' new ih =>
    rcases ih h with h | h
    · rcases mem_insertRow h with h | rfl
      · exact .inl h
      · exact .inr (mem_cons_self ..)
    · exact .inr (mem_cons_of_mem _ h)

theorem subset_foldl_insertRow (rows new : List Stored) : rows ⊆ new.foldl insertRow rows := by
  induction new generalizing rows with
  | nil => exact Subset.refl _
  | cons r' new ih => exact Subset.trans (subset_insertRow rows r') (ih _)

theorem mem_commit {p : Placed} {rows : List Stored} (h : r ∈ p.call.commit p.id p.base rows) :
    r ∈ rows ∨ ∃ o, o.off + o.len ≤ p.call.block.length ∧ r = p.call.stored p.id p.base o := by
  rcases mem_foldl_insertRow h with h | h
  · exact .inl h
  · obtain ⟨o, ho, rfl⟩ := mem_map.mp h
    cases hobjs : p.call.objs with
    | none =>
      rw [hobjs] at ho
      cases ho
    | some objs =>
      rw [hobjs] at ho
      exact .inr ⟨o, obj_le hobjs ho, rfl⟩

/-- What is guarded stands after a crash, whatever the crash tore. -/
theorem Guarded.crash (h : Guarded st id off bytes) (htorn : Torn st.files st.stable left)
    (hnames : NamesKept st.files left ∨ NamesKept st.stable left)
    (hstable : stable = st.stable ∨ stable = left) :
    Guarded ⟨left, stable, st.rows, none, none, []⟩ id off bytes := by
  have hstands := h.files.torn h.stable htorn hnames
  refine ⟨hstands, ?_, by rintro _ ⟨⟩⟩
  rcases hstable with rfl | rfl
  · exact h.stable
  · exact hstands

theorem ObjInvariant.crash (h : ObjInvariant st)
    (htorn : Torn st.files st.stable left)
    (hnames : NamesKept st.files left ∨ NamesKept st.stable left)
    (hstable : stable = st.stable ∨ stable = left) :
    ObjInvariant ⟨left, stable, st.rows, none, none, []⟩ where
  rows r hr := ⟨(h.rows r hr).1.crash htorn hnames hstable, (h.rows r hr).2⟩
  placed p hp := by cases hp
  writing call w hcall := by cases hcall
  stopped _ := ⟨rfl, rfl⟩

theorem ObjInvariant.recover (h : ObjInvariant st) (hw : st.writer = none) :
    ObjInvariant { st with
      files := preallocFile st.files (recoverSegWriter (st.rows.map Prod.fst)).id
      writer := some (recoverSegWriter (st.rows.map Prod.fst)) } where
  rows r hr := by
    obtain ⟨hguard, hlen⟩ := h.rows r hr
    refine ⟨⟨hguard.files.prealloc _, hguard.stable, ?_⟩, hlen⟩
    rintro _ ⟨⟩
    rw [hlen]
    exact below_recover (mem_map_of_mem hr)
  placed p hp := by
    rw [(h.stopped hw).1] at hp
    cases hp
  writing call w hcall _ := by
    rw [(h.stopped hw).2] at hcall
    cases hcall
  stopped := by rintro ⟨⟩

theorem ObjInvariant.step (h : ObjInvariant st) (_ : anyAction st a) (hs : ObjStep a st st') :
    ObjInvariant st' := by
  cases hs with
  | recover hw => exact h.recover hw
  | @write _ call cap w files file hw hfree hobjs hfiles hfile =>
    exact {
      rows := fun r hr => ⟨(h.rows r hr).1.write hw hfiles hfile, (h.rows r hr).2⟩
      placed := fun p hp => (h.placed p hp).write hw hfiles hfile
      writing := by
        rintro _ _ ⟨⟩ ⟨⟩
        exact ⟨_, update_self .., Pieces.at_putAt _ _ _ _⟩
      stopped := by rintro ⟨⟩ }
  | @sync _ call w hw hcall =>
    exact {
      rows := fun r hr => ⟨(h.rows r hr).1.sync hw, (h.rows r hr).2⟩
      placed := by
        intro p hp
        rcases mem_cons.mp hp with rfl | hp
        · exact guarded_synced (h.writing call w hcall hw)
        · exact (h.placed p hp).sync hw
      writing := by rintro _ _ ⟨⟩
      stopped := by rintro ⟨⟩ }
  | @commit _ p before after hp =>
    have hplaced : Guarded st p.id p.base p.call.block := h.placed p (by rw [hp]; simp)
    exact {
      rows := by
        intro r hr
        rcases mem_commit hr with hr | ⟨o, hle, rfl⟩
        · exact ⟨⟨(h.rows r hr).1.files, (h.rows r hr).1.stable, (h.rows r hr).1.below⟩,
            (h.rows r hr).2⟩
        · have hguard := hplaced.slice hle
          refine ⟨⟨hguard.files, hguard.stable, hguard.below⟩, ?_⟩
          simp only [PutCall.stored, length_take, length_drop]
          omega
      placed := by
        intro q hq
        have hguard := h.placed q (by
          rw [hp]
          rcases mem_append.mp hq with hq | hq
          · exact mem_append_left _ hq
          · exact mem_append_right _ (mem_cons_of_mem p hq))
        exact ⟨hguard.files, hguard.stable, hguard.below⟩
      writing := h.writing
      stopped := by
        intro hw
        have hnone := (h.stopped hw).1
        rw [hp] at hnone
        simp at hnone }
  | processCrash htorn hnames => exact h.crash htorn (.inl hnames) (.inl rfl)
  | powerLoss htorn hsynced => exact h.crash htorn (.inr hsynced) (.inr rfl)

theorem objInvariant_start (files : Segments) : ObjInvariant (.start files) where
  rows r hr := by cases hr
  placed p hp := by cases hp
  writing call w hcall := by cases hcall
  stopped _ := ⟨rfl, rfl⟩

theorem rows_subset_step (hs : ObjStep a st st') : st.rows ⊆ st'.rows := by
  cases hs with
  | commit hp => exact subset_foldl_insertRow _ _
  | recover hw | write hw hfree hobjs hfiles hfile | sync hw hcall | processCrash htorn hnames
  | powerLoss htorn hsynced => exact Subset.refl _

theorem segRead_of_stands (h : Stands files id off bytes) :
    segRead files id off bytes.length = some bytes := by
  obtain ⟨file, hfile, hat⟩ := h
  have hle : bytes.length = 0 ∨ off + bytes.length ≤ file.length := by
    rcases bytes.eq_nil_or_concat with rfl | hne
    · exact .inl rfl
    · right
      apply hat.le
      rintro rfl
      simp at hne
  simp only [segRead, hfile, bind_some, if_pos hle, hat.take_drop]

end

/-- Every row that is ever committed stays, and at every later time its bytes are read where it
points. -/
theorem object_rows_read_back {files : Segments} {st st' : ObjWorld}
    (h : Reaches ObjStep anyAction (.start files) st) (h' : Reaches ObjStep anyAction st st') :
    ∀ r ∈ st.rows, r ∈ st'.rows ∧
      segRead st'.files r.1.segmentId r.1.segOffset r.1.len = some r.2 := by
  intro r hr
  have hrows : r ∈ st'.rows := h'.invariant (I := fun st => r ∈ st.rows)
    (fun hr _ hs => rows_subset_step hs hr) hr
  obtain ⟨hguard, hlen⟩ :=
    ((h.trans h').invariant ObjInvariant.step (objInvariant_start files)).rows r hrows
  refine ⟨hrows, ?_⟩
  rw [← hlen]
  exact segRead_of_stands hguard.files

theorem object_rows_read_back_run : ∃ st st', Reaches ObjStep anyAction (.start fun _ => none) st ∧
    Reaches ObjStep anyAction st st' ∧ st.rows = [(⟨"a", 0, 0, 1⟩, [7])] ∧
    segRead st'.files 0 0 1 = some [7] := by
  have hrecover : Reaches ObjStep anyAction (.start fun _ => none)
      ⟨preallocFile (fun _ => none) 0, fun _ => none, [], some ⟨0, 0⟩, none, []⟩ :=
    .of_step (a := .recover) trivial (.recover rfl)
  have hwrite := hrecover.next (a := .write (.pgBytesPut "a" [7]) 10) trivial
    (.write rfl rfl ⟨_, _, rfl⟩ rfl rfl)
  have hsync := hwrite.next (a := .sync) trivial (.sync rfl rfl)
  have hcommit := hsync.next (a := .commit ⟨.pgBytesPut "a" [7], 0, 0⟩) trivial
    (.commit (nil_append _).symm)
  obtain ⟨st, h, hrows⟩ : ∃ st, Reaches ObjStep anyAction (.start fun _ => none) st ∧
      st.rows = [(⟨"a", 0, 0, 1⟩, [7])] := ⟨_, hcommit, rfl⟩
  have htorn : Torn st.files st.stable st.stable :=
    fun id s hs l hl i _ => .inl (by rw [some.inj (hs.symm.trans hl)])
  have hlost : Reaches ObjStep anyAction st ⟨st.stable, st.stable, st.rows, none, none, []⟩ :=
    .of_step (a := .powerLoss st.stable) trivial (.powerLoss htorn fun _ h => h)
  have h' := hlost.next (a := .recover) trivial (.recover rfl)
  have hrow : (⟨"a", 0, 0, 1⟩, [7]) ∈ st.rows := by
    rw [hrows]
    exact mem_cons_self ..
  exact ⟨_, _, h, h', hrows, (object_rows_read_back h h' _ hrow).2⟩

end AxisBridge.ObjSeg
