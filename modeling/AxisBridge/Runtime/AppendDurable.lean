import AxisBridge.Lib.DiskRun
import AxisBridge.Lib.Reach
import AxisBridge.Runtime.Text

/-! Durable appends to one path, by the threads of any number of processes, on a machine that may
lose its power. -/
namespace AxisBridge.AppendDurable
open List Disk

/-- How far a call of `append_durable` has come. -/
inductive Phase
  | checked
  | writing (written : Bytes)
  | dataSynced
  | parentSynced

/-- A call in progress; `existed` is what `p.exists()` said. -/
structure Call where
  text : Bytes
  existed : Bool
  phase : Phase

/-- The directory of the path, the calls in progress, and the texts of the calls that returned. -/
structure World where
  disk : Volume
  calls : ℕ → Option Call
  returned : List Bytes

def World.boot (d : Volume) : World := ⟨d, fun _ => none, []⟩

def World.put (w : World) (id : ℕ) (c : Option Call) : World :=
  { w with calls := Function.update w.calls id c }

inductive Action
  | check (id : ℕ)
  | openFile (id : ℕ)
  | write (id : ℕ)
  | syncAll (id : ℕ)
  | syncParent (id : ℕ)
  | ret (id : ℕ)
  | stop (id : ℕ)
  | writeBack
  | powerLoss

/-- The kernel stores some of the bytes that were not synced. -/
def flush (n : ℕ) (f : DiskFile UInt8) : DiskFile UInt8 :=
  { f with synced := max f.synced (min n f.data.length) }

/-- One step of a call, of the kernel or of the power supply. Nothing removes or renames the file,
so that the handle of a call is the file of the path. -/
inductive Step (path : String) : Action → World → World → Prop
  | check {w id text existed} (hid : w.calls id = none)
      (hthere : existed = true → (w.disk.inode path).isSome = true) :
      Step path (.check id) w (w.put id (some ⟨text, existed, .checked⟩))
  | openFile {w id text existed} (hc : w.calls id = some ⟨text, existed, .checked⟩) :
      Step path (.openFile id) w
        (World.put { w with disk := w.disk.create path } id (some ⟨text, existed, .writing []⟩))
  -- `write_all` goes on until nothing is left, a `write` takes at least one byte
  | write {w id text existed written bs rest}
      (hc : w.calls id = some ⟨text, existed, .writing written⟩) (hne : bs ≠ [])
      (htext : text = written ++ bs ++ rest) :
      Step path (.write id) w
        (World.put { w with disk := w.disk.append path bs } id
          (some ⟨text, existed, .writing (written ++ bs)⟩))
  | syncAll {w id text existed} (hc : w.calls id = some ⟨text, existed, .writing text⟩) :
      Step path (.syncAll id) w
        (World.put { w with disk := w.disk.sync path } id (some ⟨text, existed, .dataSynced⟩))
  | syncParent {w id text} (hc : w.calls id = some ⟨text, false, .dataSynced⟩) :
      Step path (.syncParent id) w
        (World.put { w with disk := w.disk.syncDir (inParentOf path) } id
          (some ⟨text, false, .parentSynced⟩))
  | retExisted {w id text} (hc : w.calls id = some ⟨text, true, .dataSynced⟩) :
      Step path (.ret id) w (World.put { w with returned := text :: w.returned } id none)
  | retCreated {w id text} (hc : w.calls id = some ⟨text, false, .parentSynced⟩) :
      Step path (.ret id) w (World.put { w with returned := text :: w.returned } id none)
  -- an error, on which the caller panics, or the end of the process
  | stop {w id} : Step path (.stop id) w (w.put id none)
  | writeBackData {w n} :
      Step path .writeBack w { w with disk := w.disk.modify path (flush n) }
  | writeBackDir {w} :
      Step path .writeBack w { w with disk := w.disk.syncDir (inParentOf path) }
  | powerLoss {w} :
      Step path .powerLoss w
        { disk := w.disk.crash, calls := fun _ => none, returned := w.returned }

/-- The text can be read from the file. -/
def InFile (d : Volume) (path : String) (text : Bytes) : Prop :=
  ∃ data, d.read path = some data ∧ text <:+: data

/-- A call that found the file there returns when the file's entry is on stable storage, and a
`write` goes on where the one before it ended. -/
def Careful (path : String) (w : World) : Action → Prop
  | .ret id => ∀ c, w.calls id = some c → c.existed = true → w.disk.Settled path
  | .write id => ∀ c written data, w.calls id = some c → c.phase = .writing written →
      w.disk.read path = some data → written <:+ data
  | _ => True

/-- A directory in which the path's file has no other entry than the one in force. -/
structure Ready (path : String) (d : Volume) : Prop where
  tidy : Tidy (inParentOf path) d
  agree : ∀ i, (path, i) ∈ d.durable → d.inode path = some i

section
variable {path : String} {d d' : Volume} {text written bs : Bytes} {c : Call}
  {w w' : World} {a : Action}

theorem inParentOf_self : inParentOf path path = true := decide_eq_true rfl

/-! ### What the calls do to the file -/

/-- What was stored is stored later, and what was read is read again, with more after it. -/
structure Grows (path : String) (d d' : Volume) : Prop where
  keeps : Keeps d d'
  read : ∀ data, d.read path = some data → ∃ data', d'.read path = some data' ∧ data <+: data'

theorem Grows.inFile (h : Grows path d d') (hin : InFile d path text) : InFile d' path text := by
  obtain ⟨data, hdata, hsub⟩ := hin
  obtain ⟨data', hdata', hpre⟩ := h.read data hdata
  exact ⟨data', hdata', hsub.trans hpre.isInfix⟩

theorem grows_create (hd : d.Sound) : Grows path d (d.create path) := by
  refine ⟨keeps_create hd, fun data h => ⟨data, ?_, prefix_refl data⟩⟩
  rw [read_create_self hd, h]
  rfl

theorem grows_append (hd : d.Sound) : Grows path d (d.append path bs) := by
  refine ⟨keeps_append hd, fun data h => ⟨data ++ bs, ?_, prefix_append data bs⟩⟩
  rw [read_append_self, h]
  rfl

theorem grows_sync (hd : d.Sound) : Grows path d (d.sync path) :=
  ⟨keeps_sync hd, fun data h => ⟨data, read_sync.trans h, prefix_refl data⟩⟩

theorem grows_syncDir {inDir : String → Bool} : Grows path d (d.syncDir inDir) :=
  ⟨keeps_syncDir, fun data h => ⟨data, h, prefix_refl data⟩⟩

theorem grows_flush (hd : d.Sound) {n : ℕ} : Grows path d (d.modify path (flush n)) := by
  constructor
  · apply keeps_modify hd
    intro f
    apply take_prefix_take_left
    exact le_max_left _ _
  · intro data h
    refine ⟨data, ?_, prefix_refl data⟩
    rw [Disk.read, Disk.file_modify_self, Option.map_map]
    exact h

theorem Ready.modify (h : Ready path d) {g : DiskFile UInt8 → DiskFile UInt8} :
    Ready path (d.modify path g) := by
  refine ⟨h.tidy.modify, fun i hi => ?_⟩
  rw [durable_modify] at hi
  exact inode_modify.trans (h.agree i hi)

theorem Ready.create (h : Ready path d) : Ready path (d.create path) := by
  refine ⟨h.tidy.create inParentOf_self, fun i hi => ?_⟩
  rw [durable_create] at hi
  have hinode := h.agree i hi
  rw [create_of_isSome (hinode ▸ rfl), hinode]

theorem Ready.syncDir (h : Ready path d) : Ready path (d.syncDir (inParentOf path)) := by
  refine ⟨h.tidy.syncDir, fun i hi => ?_⟩
  rw [h.tidy.durable_syncDir] at hi
  exact h.tidy.live.lookup hi

theorem Ready.crash (h : Ready path d) : Ready path d.crash :=
  ⟨h.tidy.crash, fun _ hi => h.tidy.inode_crash hi⟩

/-- With its entry not on stable storage, the file does not survive a loss of power. -/
theorem Ready.inFile_crash_iff (h : Ready path d) (hstored : d.Stored path text) :
    InFile d.crash path text ↔ d.Settled path := by
  constructor
  · rintro ⟨data, hdata, -⟩
    have hisSome : (d.crash.inode path).isSome = true :=
      isSome_of_read (hdata ▸ rfl)
    obtain ⟨i, hi⟩ := Option.isSome_iff_exists.mp hisSome
    have hmem : (path, i) ∈ d.durable := mem_of_inode hi
    exact ⟨i, h.agree i hmem, hmem⟩
  · intro hsettled
    exact (hstored.crash h.tidy hsettled).read

/-! ### The invariant of a run -/

/-- What a call has brought about. -/
def Call.Done (path : String) (d : Volume) (c : Call) : Prop :=
  match c.phase with
  | .checked => True
  | .writing written => InFile d path written
  | .dataSynced => d.Stored path c.text
  | .parentSynced => d.Stored path c.text ∧ d.Settled path

theorem Call.Done.grows (h : c.Done path d) (hgrows : Grows path d d') : c.Done path d' := by
  unfold Call.Done at *
  cases hphase : c.phase with
  | checked => trivial
  | writing written =>
    simp only [hphase] at h
    exact hgrows.inFile h
  | dataSynced =>
    simp only [hphase] at h
    exact hgrows.keeps.stored _ _ h
  | parentSynced =>
    simp only [hphase] at h
    exact ⟨hgrows.keeps.stored _ _ h.1, hgrows.keeps.settled _ h.2⟩

structure World.Lasting (path : String) (w : World) : Prop where
  ready : Ready path w.disk
  calls : ∀ id c, w.calls id = some c → c.Done path w.disk
  returned : ∀ text ∈ w.returned, w.disk.Stored path text ∧ w.disk.Settled path

theorem World.Lasting.boot (h : Ready path d) : (World.boot d).Lasting path :=
  ⟨h, nofun, fun _ hmem => (not_mem_nil hmem).elim⟩

/-- A disk that grew under the calls. -/
theorem World.Lasting.grows (h : w.Lasting path) (hready : Ready path d)
    (hgrows : Grows path w.disk d) : World.Lasting path { w with disk := d } := by
  refine ⟨hready, fun id c hc => (h.calls id c hc).grows hgrows, fun text hmem => ?_⟩
  obtain ⟨hstored, hsettled⟩ := h.returned text hmem
  exact ⟨hgrows.keeps.stored _ _ hstored, hgrows.keeps.settled _ hsettled⟩

theorem World.Lasting.put (h : w.Lasting path) {id : ℕ} {c : Option Call}
    (hdone : ∀ c' ∈ c, c'.Done path w.disk) : (w.put id c).Lasting path := by
  refine ⟨h.ready, fun id' c' hc => ?_, h.returned⟩
  rcases eq_or_ne id' id with rfl | hne
  · have hc : c = some c' := by simpa [World.put] using hc
    exact hdone c' hc
  · have hc : w.calls id' = some c' := by simpa [World.put, hne] using hc
    exact h.calls id' c' hc

theorem World.Lasting.ret (h : w.Lasting path) {id : ℕ} (hstored : w.disk.Stored path text)
    (hsettled : w.disk.Settled path) :
    (World.put { w with returned := text :: w.returned } id none).Lasting path := by
  have hreturned : World.Lasting path { w with returned := text :: w.returned } := by
    refine ⟨h.ready, h.calls, fun text' hmem => ?_⟩
    rcases mem_cons.mp hmem with rfl | hmem
    · exact ⟨hstored, hsettled⟩
    · exact h.returned text' hmem
  exact hreturned.put nofun

theorem inFile_create (hd : d.Sound) : InFile (d.create path) path [] :=
  ⟨_, read_create_self hd, nil_infix⟩

/-- A write right after the call's earlier bytes leaves them in one piece. -/
theorem inFile_append (hin : InFile d path written)
    (hlast : ∀ data, d.read path = some data → written <:+ data) :
    InFile (d.append path bs) path (written ++ bs) := by
  obtain ⟨data, hdata, -⟩ := hin
  obtain ⟨before, rfl⟩ := hlast data hdata
  refine ⟨before ++ written ++ bs, ?_, ?_⟩
  · rw [read_append_self, hdata]
    rfl
  · rw [append_assoc]
    exact (suffix_append before _).isInfix

theorem stored_sync (hin : InFile d path text) : (d.sync path).Stored path text := by
  obtain ⟨data, hdata, hsub⟩ := hin
  obtain ⟨f, hf, rfl⟩ := Option.map_eq_some_iff.mp hdata
  refine ⟨{ f with synced := f.data.length }, ?_, ?_⟩
  · rw [sync, file_modify_self, hf]
    rfl
  · rw [take_length]
    exact hsub

theorem World.Lasting.step (h : w.Lasting path) (hok : Careful path w a)
    (hstep : Step path a w w') : w'.Lasting path := by
  have hsound := h.ready.tidy.sound
  cases hstep with
  | check hid hthere => exact h.put (by rintro c ⟨⟩; trivial)
  | openFile hc =>
    refine (h.grows h.ready.create (grows_create hsound)).put ?_
    rintro c ⟨⟩
    exact inFile_create hsound
  | write hc hne htext =>
    refine (h.grows h.ready.modify (grows_append hsound)).put ?_
    rintro c ⟨⟩
    exact inFile_append (h.calls _ _ hc) fun data hdata => hok _ _ data hc rfl hdata
  | syncAll hc =>
    refine (h.grows h.ready.modify (grows_sync hsound)).put ?_
    rintro c ⟨⟩
    exact stored_sync (h.calls _ _ hc)
  | @syncParent _ _ text hc =>
    have hstored : w.disk.Stored path text := h.calls _ _ hc
    refine (h.grows h.ready.syncDir grows_syncDir).put ?_
    rintro c ⟨⟩
    refine ⟨keeps_syncDir.stored _ _ hstored, settled_syncDir ?_ inParentOf_self⟩
    obtain ⟨data, hdata, -⟩ := hstored.read
    exact isSome_of_read (hdata ▸ rfl)
  | retExisted hc => exact h.ret (h.calls _ _ hc) (hok _ hc rfl)
  | retCreated hc =>
    obtain ⟨hstored, hsettled⟩ := h.calls _ _ hc
    exact h.ret hstored hsettled
  | stop => exact h.put nofun
  | writeBackData => exact h.grows h.ready.modify (grows_flush hsound)
  | writeBackDir => exact h.grows h.ready.syncDir grows_syncDir
  | powerLoss =>
    refine ⟨h.ready.crash, nofun, fun text hmem => ?_⟩
    obtain ⟨hstored, hsettled⟩ := h.returned text hmem
    exact ⟨hstored.crash h.ready.tidy hsettled, hsettled.crash h.ready.tidy⟩

end

/-- In a run of careful steps every text whose call returned can be read, now and after a loss of
power; and a call that found the file there may return only with the entry on stable storage. -/
theorem append_durable_lasts {path : String} {d : Volume} {w : World} (hd : Ready path d)
    (hrun : Reaches (Step path) (Careful path) (.boot d) w) :
    (∀ text ∈ w.returned, InFile w.disk path text ∧ InFile w.disk.crash path text) ∧
      ∀ id text, w.calls id = some ⟨text, true, .dataSynced⟩ →
        (InFile w.disk.crash path text ↔ w.disk.Settled path) := by
  have h : w.Lasting path :=
    hrun.invariant (fun hw hok hstep => World.Lasting.step hw hok hstep) (.boot hd)
  constructor
  · intro text hmem
    obtain ⟨hstored, hsettled⟩ := h.returned text hmem
    exact ⟨hstored.read, (h.ready.inFile_crash_iff hstored).mpr hsettled⟩
  · intro id text hc
    exact h.ready.inFile_crash_iff (h.calls id _ hc)

theorem ready_empty {path : String} : Ready path (empty : Volume) :=
  ⟨Disk.Tidy.empty, fun _ h => (not_mem_nil h).elim⟩

/-- A `write` that takes all of the text at once. -/
theorem Step.writeAll {path : String} {w : World} {id : ℕ} {text : Bytes} {existed : Bool}
    (hc : w.calls id = some ⟨text, existed, .writing []⟩) (hne : text ≠ []) :
    Step path (.write id) w
      (World.put { w with disk := w.disk.append path text } id
        (some ⟨text, existed, .writing text⟩)) :=
  .write hc hne (show text = [] ++ text ++ [] by simp)

/-- A first call makes the file, writes to it and syncs both; a second one finds it there and writes
its text in two pieces. -/
theorem append_durable_lasts_two : ∃ w, Reaches (Step "log") (Careful "log") (.boot .empty) w ∧
    [97] ∈ w.returned ∧ InFile w.disk.crash "log" [98, 99] := by
  have hchecked : Reaches (Step "log") (Careful "log") (.boot .empty)
      ((World.boot .empty).put 0 (some ⟨[97], false, .checked⟩)) :=
    .of_step (a := .check 0) trivial (.check rfl nofun)
  have hopened := hchecked.next (a := Action.openFile 0) trivial (.openFile rfl)
  have hwritten := hopened.next (a := Action.write 0)
    (by rintro c written data ⟨⟩ ⟨⟩ -; exact nil_suffix) (.writeAll rfl (cons_ne_nil _ _))
  have hsynced := hwritten.next (a := Action.syncAll 0) trivial (.syncAll rfl)
  have hparent := hsynced.next (a := Action.syncParent 0) trivial (.syncParent rfl)
  have hreturned := hparent.next (a := .ret 0) (by rintro c ⟨⟩ ⟨⟩) (.retCreated rfl)
  have hfound := hreturned.next (a := Action.check 1)
    (u := World.put _ 1 (some ⟨[98, 99], true, .checked⟩)) trivial (.check rfl fun _ => rfl)
  have hagain := hfound.next (a := Action.openFile 1) trivial (.openFile rfl)
  have hfirst := hagain.next (a := Action.write 1)
    (by rintro c written data ⟨⟩ ⟨⟩ -; exact nil_suffix)
    (.write rfl (cons_ne_nil _ _) (show [98, 99] = [] ++ [98] ++ [99] from rfl))
  have hsecond := hfirst.next (a := Action.write 1)
    (by rintro c written data ⟨⟩ ⟨⟩ ⟨⟩; exact ⟨[97], rfl⟩)
    (.write rfl (cons_ne_nil _ _) (show [98, 99] = [98] ++ [99] ++ [] from rfl))
  have hstored := hsecond.next (a := Action.syncAll 1) trivial (.syncAll rfl)
  have hended := hstored.next (a := Action.ret 1) (fun _ _ _ => ⟨0, rfl, mem_cons_self⟩)
    (.retExisted rfl)
  have hmem : ([98, 99] : Bytes) ∈ ([[98, 99], [97]] : List Bytes) := mem_cons_self
  exact ⟨_, hended, mem_cons_of_mem _ (mem_singleton_self _),
    ((append_durable_lasts ready_empty hended).1 [98, 99] hmem).2⟩

/-- The process of the call that made the file ends before the directory is synced. The next call
finds the file there, returns, and the loss of power takes the file. -/
theorem append_durable_lost : ∃ w, Reaches (Step "log") anyAction (.boot .empty) w ∧
    [97] ∈ w.returned ∧ ¬ InFile w.disk "log" [97] := by
  have hchecked : Reaches (Step "log") anyAction (.boot .empty)
      ((World.boot .empty).put 0 (some ⟨[97], false, .checked⟩)) :=
    .of_step (a := .check 0) trivial (.check rfl nofun)
  have hopened := hchecked.next (a := .openFile 0) trivial (.openFile rfl)
  have hstopped := hopened.next (a := .stop 0) trivial .stop
  have hfound := hstopped.next (a := .check 1)
    (u := World.put _ 1 (some ⟨[97], true, .checked⟩)) trivial (.check rfl fun _ => rfl)
  have hagain := hfound.next (a := .openFile 1) trivial (.openFile rfl)
  have hwritten := hagain.next (a := .write 1) trivial (.writeAll rfl (cons_ne_nil _ _))
  have hsynced := hwritten.next (a := .syncAll 1) trivial (.syncAll rfl)
  have hreturned := hsynced.next (a := .ret 1) trivial (.retExisted rfl)
  refine ⟨_, hreturned.next (a := .powerLoss) trivial .powerLoss, mem_singleton_self _, ?_⟩
  rintro ⟨data, hdata, -⟩
  cases hdata

end AxisBridge.AppendDurable
