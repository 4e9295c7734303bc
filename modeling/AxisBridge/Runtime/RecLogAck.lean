import AxisBridge.Runtime.RecLog

/-! Callers and the one janitor of the recovery log: what a returned wait says about the disk. -/
namespace AxisBridge
open List

/-- The janitor drains the channel into a batch, or tells the callers of a batch it has written; it
takes a oneshot out of the registry before it marks it done. -/
inductive Janitor
  | draining (batch : List Submission)
  | telling (ids : List ℤ)
  | ringing (id : ℤ) (ids : List ℤ)

/-- The store, the oneshots, the channel and its callers. What was minted and what a wait has
returned for is kept for the sake of the statements only. -/
structure RecLogState where
  disk : Volume
  nextId : ℤ
  registry : List ℤ
  done : List ℤ
  minted : List Submission
  submitting : List Submission
  queue : List Submission
  janitor : Janitor
  waiting : List ℤ
  returned : List Submission

/-- A new process over the disk as it stands. -/
def RecLogState.start (d : Volume) : RecLogState :=
  ⟨d, 1, [], [], [], [], [], .draining [], [], []⟩

/-- The submissions that a wait for `id` acknowledges. -/
def RecLogState.awaited (st : RecLogState) (id : ℤ) : List Submission :=
  st.minted.filter (·.id = id)

inductive AckAction
  | newOneshot (frame : Bytes) (logp : String) (bindLine : Bytes)
  | enqueue (s : Submission)
  | take
  | write (segSize : ℤ)
  | nextBatch
  | retire
  | skip
  | ring
  | miss (id : ℤ)
  | block (id : ℤ)
  | wake (id : ℤ)
  | syncElsewhere (path : String)

/-- One step of a caller, of the janitor, or of another writer that syncs a directory. -/
inductive AckStep (shard : String) (chanCap batchCap : ℕ) :
    AckAction → RecLogState → RecLogState → Prop
  | newOneshot {st : RecLogState} (frame : Bytes) (logp : String) (bindLine : Bytes) :
      AckStep shard chanCap batchCap (.newOneshot frame logp bindLine) st
        { st with
          nextId := st.nextId + 1
          registry := st.nextId :: st.registry
          minted := st.minted ++ [⟨st.nextId, frame, logp, bindLine⟩]
          submitting := st.submitting ++ [⟨st.nextId, frame, logp, bindLine⟩] }
  | enqueue {st : RecLogState} {s : Submission} (hs : s ∈ st.submitting)
      (hroom : st.queue.length < chanCap) :
      AckStep shard chanCap batchCap (.enqueue s) st
        { st with submitting := st.submitting.erase s, queue := st.queue ++ [s] }
  | take {st : RecLogState} {batch queue : List Submission} {s : Submission}
      (hjan : st.janitor = .draining batch) (hqueue : st.queue = s :: queue)
      (hroom : batch.length < max 1 batchCap) :
      AckStep shard chanCap batchCap .take st
        { st with queue := queue, janitor := .draining (batch ++ [s]) }
  | write {st : RecLogState} {batch : List Submission} (segSize : ℤ)
      (hjan : st.janitor = .draining batch) (hne : batch ≠ []) :
      AckStep shard chanCap batchCap (.write segSize) st
        { st with
          disk := (writeBatchFused st.disk shard segSize batch).1
          janitor := .telling (writeBatchFused st.disk shard segSize batch).2 }
  | nextBatch {st : RecLogState} (hjan : st.janitor = .telling []) :
      AckStep shard chanCap batchCap .nextBatch st { st with janitor := .draining [] }
  | retire {st : RecLogState} {id : ℤ} {ids : List ℤ} (hjan : st.janitor = .telling (id :: ids))
      (hcell : id ∈ st.registry) :
      AckStep shard chanCap batchCap .retire st
        { st with registry := st.registry.filter (· ≠ id), janitor := .ringing id ids }
  | skip {st : RecLogState} {id : ℤ} {ids : List ℤ} (hjan : st.janitor = .telling (id :: ids))
      (hcell : id ∉ st.registry) :
      AckStep shard chanCap batchCap .skip st { st with janitor := .telling ids }
  | ring {st : RecLogState} {id : ℤ} {ids : List ℤ} (hjan : st.janitor = .ringing id ids) :
      AckStep shard chanCap batchCap .ring st
        { st with done := id :: st.done, janitor := .telling ids }
  | miss {st : RecLogState} {id : ℤ} (hcell : id ∉ st.registry) :
      AckStep shard chanCap batchCap (.miss id) st
        { st with returned := st.returned ++ st.awaited id }
  | block {st : RecLogState} {id : ℤ} (hcell : id ∈ st.registry) :
      AckStep shard chanCap batchCap (.block id) st { st with waiting := id :: st.waiting }
  | wake {st : RecLogState} {id : ℤ} (hwait : id ∈ st.waiting) (hdone : id ∈ st.done) :
      AckStep shard chanCap batchCap (.wake id) st
        { st with
          registry := st.registry.filter (· ≠ id)
          waiting := st.waiting.erase id
          returned := st.returned ++ st.awaited id }
  | syncElsewhere {st : RecLogState} (path : String) :
      AckStep shard chanCap batchCap (.syncElsewhere path) st
        { st with disk := fsyncParentDir st.disk path }

/-- Any steps in any order, each of them allowed by `ok` in the state before it. -/
inductive AckRun (shard : String) (chanCap batchCap : ℕ) (ok : RecLogState → AckAction → Prop)
    (st₀ : RecLogState) : RecLogState → Prop
  | start : AckRun shard chanCap batchCap ok st₀ st₀
  | step {st st' : RecLogState} {a : AckAction} (h : AckRun shard chanCap batchCap ok st₀ st)
      (hok : ok st a) (hs : AckStep shard chanCap batchCap a st st') :
      AckRun shard chanCap batchCap ok st₀ st'

/-- A write finds its directories anchored. -/
def WritesAnchored (shard : String) (st : RecLogState) (a : AckAction) : Prop :=
  match a, st.janitor with
  | .write segSize, .draining batch => Anchored st.disk shard segSize batch
  | _, _ => True

def Janitor.batch : Janitor → List Submission
  | .draining batch => batch
  | _ => []

/-- The oneshots whose batch is written and that are not marked done yet. -/
def Janitor.told : Janitor → List ℤ
  | .draining _ => []
  | .telling ids => ids
  | .ringing id ids => id :: ids

/-- What was minted under `id` is durable, and nothing more will be minted under it. -/
structure Safe (shard : String) (d : Volume) (minted : List Submission) (nextId id : ℤ) :
    Prop where
  lt : id < nextId
  durable : ∀ s ∈ minted, s.id = id → s.Durable d shard

/-- What holds whenever every write so far found its directories anchored. -/
structure AckInvariant (shard : String) (st : RecLogState) : Prop where
  sound : st.disk.Sound
  lt : ∀ s ∈ st.minted, s.id < st.nextId
  nodup : (st.minted.map Submission.id).Nodup
  submitting : ∀ s ∈ st.submitting, s ∈ st.minted
  queue : ∀ s ∈ st.queue, s ∈ st.minted
  batch : ∀ s ∈ st.janitor.batch, s ∈ st.minted
  told : ∀ id ∈ st.janitor.told, Safe shard st.disk st.minted st.nextId id
  done : ∀ id ∈ st.done, Safe shard st.disk st.minted st.nextId id
  retired : ∀ s ∈ st.minted, s.id ∉ st.registry → s.Durable st.disk shard
  returned : ∀ s ∈ st.returned, s.Durable st.disk shard

section
variable {shard : String} {chanCap batchCap : ℕ} {d d' : Volume}
  {minted : List Submission} {nextId id : ℤ} {s : Submission} {st st' : RecLogState} {a : AckAction}
  {ok : RecLogState → AckAction → Prop}

theorem writesAnchored_of_ne_write (st : RecLogState) (a : AckAction)
    (h : ∀ segSize, a ≠ .write segSize) : WritesAnchored shard st a := by
  cases a with
  | write segSize => exact absurd rfl (h segSize)
  | _ => trivial

theorem writesAnchored_of_draining {batch : List Submission} {segSize : ℤ}
    (hjan : st.janitor = .draining batch) (h : Anchored st.disk shard segSize batch) :
    WritesAnchored shard st (.write segSize) := by
  simp only [WritesAnchored, hjan]
  exact h

theorem Safe.keep (h : Safe shard d minted nextId id) (hkeeps : d.Keeps d') :
    Safe shard d' minted nextId id :=
  ⟨h.lt, fun s hs hid => (h.durable s hs hid).keep hkeeps⟩

theorem Safe.mint (h : Safe shard d minted nextId id) (hid : s.id = nextId) :
    Safe shard d (minted ++ [s]) (nextId + 1) id := by
  have hlt := h.lt
  refine ⟨by omega, ?_⟩
  intro s' hs' heq
  rcases mem_append.mp hs' with hs' | hs'
  · exact h.durable s' hs' heq
  · obtain rfl := mem_singleton.mp hs'
    omega

/-- The submissions of an id are durable once one of them is. -/
theorem AckInvariant.safe (hi : AckInvariant shard st) (hs : s ∈ st.minted)
    (hdur : s.Durable d shard) : Safe shard d st.minted st.nextId s.id := by
  refine ⟨hi.lt s hs, ?_⟩
  intro s' hs' heq
  rwa [inj_on_of_nodup_map hi.nodup hs' hs heq]

theorem AckInvariant.start (hd : d.Sound) : AckInvariant shard (.start d) where
  sound := hd
  lt := nofun
  nodup := nodup_nil
  submitting := nofun
  queue := nofun
  batch := nofun
  told := nofun
  done := nofun
  retired := nofun
  returned := nofun

/-- A change of the disk that keeps what is on stable storage. -/
theorem AckInvariant.keep (hi : AckInvariant shard st) (hd : d.Sound) (hkeeps : st.disk.Keeps d) :
    AckInvariant shard { st with disk := d } where
  sound := hd
  lt := hi.lt
  nodup := hi.nodup
  submitting := hi.submitting
  queue := hi.queue
  batch := hi.batch
  told id hid := (hi.told id hid).keep hkeeps
  done id hid := (hi.done id hid).keep hkeeps
  retired s hs hreg := (hi.retired s hs hreg).keep hkeeps
  returned s hs := (hi.returned s hs).keep hkeeps

theorem AckInvariant.newOneshot (hi : AckInvariant shard st) (hid : s.id = st.nextId) :
    AckInvariant shard
      { st with
        nextId := st.nextId + 1
        registry := st.nextId :: st.registry
        minted := st.minted ++ [s]
        submitting := st.submitting ++ [s] } := by
  refine ⟨hi.sound, ?_, ?_, ?_, ?_, ?_, ?_, ?_, ?_, hi.returned⟩
  · intro s' hs'
    show s'.id < st.nextId + 1
    rcases mem_append.mp hs' with hs' | hs'
    · have hlt := hi.lt s' hs'
      omega
    · obtain rfl := mem_singleton.mp hs'
      omega
  · show ((st.minted ++ [s]).map Submission.id).Nodup
    rw [map_append, nodup_append]
    refine ⟨hi.nodup, nodup_singleton _, ?_⟩
    intro id hmem id' hmem'
    obtain ⟨s', hs', rfl⟩ := mem_map.mp hmem
    obtain rfl := mem_singleton.mp hmem'
    have hlt := hi.lt s' hs'
    omega
  · intro s' hs'
    rcases mem_append.mp hs' with hs' | hs'
    · exact mem_append_left _ (hi.submitting s' hs')
    · exact mem_append_right _ hs'
  · exact fun s' hs' => mem_append_left _ (hi.queue s' hs')
  · exact fun s' hs' => mem_append_left _ (hi.batch s' hs')
  · exact fun id hid' => (hi.told id hid').mint hid
  · exact fun id hid' => (hi.done id hid').mint hid
  · intro s' hs' hreg
    obtain ⟨hne, hreg⟩ := not_or.mp (mt mem_cons.mpr hreg)
    rcases mem_append.mp hs' with hs' | hs'
    · exact hi.retired s' hs' hreg
    · obtain rfl := mem_singleton.mp hs'
      exact absurd hid hne

/-- A oneshot leaves the registry when what was minted under it is durable. -/
theorem AckInvariant.unregister (hi : AckInvariant shard st)
    (hsafe : Safe shard st.disk st.minted st.nextId id) (hs : s ∈ st.minted)
    (hreg : s.id ∉ st.registry.filter (· ≠ id)) : s.Durable st.disk shard := by
  by_cases heq : s.id = id
  · exact hsafe.durable s hs heq
  · refine hi.retired s hs fun hmem => hreg ?_
    exact mem_filter.mpr ⟨hmem, by simpa using heq⟩

/-- A wait may return for an id when what was minted under it is durable. -/
theorem AckInvariant.return (hi : AckInvariant shard st)
    (hdur : ∀ s ∈ st.minted, s.id = id → s.Durable st.disk shard) :
    ∀ s ∈ st.returned ++ st.awaited id, s.Durable st.disk shard := by
  intro s hs
  rcases mem_append.mp hs with hs | hs
  · exact hi.returned s hs
  · obtain ⟨hmem, hid⟩ := mem_filter.mp hs
    exact hdur s hmem (by simpa using hid)

/-- Every step keeps the invariant, a write when it finds its directories anchored. -/
theorem AckInvariant.step (hi : AckInvariant shard st) (hok : WritesAnchored shard st a)
    (hs : AckStep shard chanCap batchCap a st st') : AckInvariant shard st' := by
  cases hs with
  | newOneshot frame logp bindLine => exact hi.newOneshot rfl
  | @enqueue _ s hs hroom =>
    refine { hi with submitting := ?_, queue := ?_ }
    · exact fun s' hs' => hi.submitting s' (mem_of_mem_erase hs')
    · intro s' hs'
      rcases mem_append.mp hs' with hs' | hs'
      · exact hi.queue s' hs'
      · exact mem_singleton.mp hs' ▸ hi.submitting s hs
  | @take _ batch queue s hjan hqueue hroom =>
    have hqueued := hi.queue
    have hbatch := hi.batch
    rw [hqueue] at hqueued
    rw [hjan] at hbatch
    refine { hi with queue := ?_, batch := ?_, told := nofun }
    · exact fun s' hs' => hqueued s' (mem_cons_of_mem _ hs')
    · intro s' hs'
      rcases mem_append.mp hs' with hs' | hs'
      · exact hbatch s' hs'
      · exact mem_singleton.mp hs' ▸ hqueued s mem_cons_self
  | @write _ batch segSize hjan hne =>
    have hbatch := hi.batch
    rw [hjan] at hbatch
    simp only [WritesAnchored, hjan] at hok
    have hkept : AckInvariant shard
        { st with disk := (writeBatchFused st.disk shard segSize batch).1 } :=
      hi.keep (sound_writeBatchFused hi.sound) (keeps_writeBatchFused hi.sound)
    refine { hkept with batch := nofun, told := ?_ }
    intro id hid
    obtain ⟨s, hs, rfl⟩ := mem_map.mp hid
    exact hi.safe (hbatch s hs) (durable_writeBatchFused hi.sound hok hs)
  | nextBatch hjan => exact { hi with batch := nofun, told := nofun }
  | @retire _ id ids hjan hcell =>
    have htold := hi.told
    rw [hjan] at htold
    refine { hi with batch := nofun, told := htold, retired := ?_ }
    exact fun s hs hreg => hi.unregister (htold id mem_cons_self) hs hreg
  | @skip _ id ids hjan hcell =>
    have htold := hi.told
    rw [hjan] at htold
    exact { hi with batch := nofun, told := fun id' hid' => htold id' (mem_cons_of_mem _ hid') }
  | @ring _ id ids hjan =>
    have htold := hi.told
    rw [hjan] at htold
    refine { hi with batch := nofun, told := ?_, done := ?_ }
    · exact fun id' hid' => htold id' (mem_cons_of_mem _ hid')
    · intro id' hid'
      rcases mem_cons.mp hid' with rfl | hid'
      · exact htold _ mem_cons_self
      · exact hi.done id' hid'
  | @miss _ id hcell =>
    refine { hi with returned := hi.return ?_ }
    rintro s hs rfl
    exact hi.retired s hs hcell
  | block hcell => exact { hi with }
  | @wake _ id hwait hdone =>
    have hsafe := hi.done id hdone
    refine { hi with retired := ?_, returned := hi.return hsafe.durable }
    exact fun s hs hreg => hi.unregister hsafe hs hreg
  | syncElsewhere path => exact hi.keep hi.sound.syncDir Disk.keeps_syncDir

theorem AckInvariant.run (hd : d.Sound)
    (hrun : AckRun shard chanCap batchCap (WritesAnchored shard) (.start d) st) :
    AckInvariant shard st := by
  induction hrun with
  | start => exact AckInvariant.start hd
  | step h hok hs ih => exact ih.step hok hs

/-- Whatever the interleaving, the caps and the segment sizes: when every write found its
directories anchored, each insert that a wait has returned for is on stable storage, under names
that are. -/
theorem reclog_ack_durable (hd : d.Sound)
    (hrun : AckRun shard chanCap batchCap (WritesAnchored shard) (.start d) st) :
    ∀ s ∈ st.returned, s.Durable st.disk shard :=
  (AckInvariant.run hd hrun).returned

/-- One insert goes through alone, from the oneshot to the wait that finds it gone. -/
theorem exists_ackRun_sole (shard : String) (batchCap : ℕ) (d : Volume)
    (hchan : 0 < chanCap) (segSize : ℤ) (frame : Bytes) (logp : String) (bindLine : Bytes)
    (hfree : ∀ st a, (∀ segSize, a ≠ .write segSize) → ok st a)
    (hwrite : ∀ st : RecLogState, st.disk = d →
      st.janitor = .draining [⟨1, frame, logp, bindLine⟩] → ok st (.write segSize)) :
    ∃ st, AckRun shard chanCap batchCap ok (.start d) st ∧
      st.returned = [⟨1, frame, logp, bindLine⟩] ∧
      st.disk = (writeBatchFused d shard segSize [⟨1, frame, logp, bindLine⟩]).1 := by
  have hminted := (@AckRun.start shard chanCap batchCap ok (.start d)).step
    (hfree _ _ (by nofun)) (.newOneshot frame logp bindLine)
  have hqueued := hminted.step (hfree _ _ (by nofun)) (.enqueue mem_cons_self hchan)
  have hdrained := hqueued.step (hfree _ _ (by nofun))
    (.take rfl rfl (lt_of_lt_of_le Nat.one_pos (le_max_left 1 batchCap)))
  have hwritten := hdrained.step (hwrite _ rfl rfl) (.write segSize rfl (cons_ne_nil _ _))
  have hretired := hwritten.step (hfree _ _ (by nofun)) (.retire rfl mem_cons_self)
  have hrung := hretired.step (hfree _ _ (by nofun)) (.ring rfl)
  have hgone : (1 : ℤ) ∉ [(1 : ℤ)].filter (· ≠ 1) := by decide
  have hreturned := hrung.step (hfree _ _ (by nofun)) (.miss hgone)
  exact ⟨_, hreturned, rfl, rfl⟩

end

def insertA : Submission := ⟨1, [97], ".axverity/names/a.log", [98]⟩

/-- A store whose first segment was reserved and its directory synced. -/
def segmentSettled : Volume :=
  ⟨[⟨[], 0⟩], [(".axverity/wal/0-0.log", 0)], [(".axverity/wal/0-0.log", 0)]⟩

theorem sound_segmentSettled : segmentSettled.Sound :=
  ⟨nodup_singleton _, by simp [segmentSettled]⟩

theorem anchored_insertA : Anchored segmentSettled "0" 1 [insertA] := by
  refine ⟨⟨0, rfl, mem_cons_self⟩, ?_⟩
  intro s hs
  obtain rfl := mem_singleton.mp hs
  exact Or.inr ⟨by decide, insertA, hs, rfl⟩

theorem reclog_ack_durable_insertA :
    ∃ st, AckRun "0" 1 1 (WritesAnchored "0") (.start segmentSettled) st ∧
      st.returned = [insertA] ∧ insertA.Durable st.disk "0" := by
  obtain ⟨st, hrun, hret, -⟩ := exists_ackRun_sole "0" 1 segmentSettled Nat.one_pos 1 [97]
    ".axverity/names/a.log" [98] writesAnchored_of_ne_write
    fun st hdisk hjan => writesAnchored_of_draining hjan (hdisk ▸ anchored_insertA)
  refine ⟨st, hrun, hret, ?_⟩
  exact reclog_ack_durable sound_segmentSettled hrun insertA (hret ▸ mem_cons_self)

/-- In a new store the entry of the first segment is never synced. -/
theorem reclog_ack_not_durable :
    ∃ st, AckRun "0" 1 1 (fun _ _ => True) (.start Disk.empty) st ∧
      insertA ∈ st.returned ∧ ¬ insertA.Durable st.disk "0" := by
  obtain ⟨st, hrun, hret, hdisk⟩ := exists_ackRun_sole "0" 1 Disk.empty Nat.one_pos 1 [97]
    ".axverity/names/a.log" [98] (fun _ _ _ => trivial) (fun _ _ _ => trivial)
  refine ⟨st, hrun, hret ▸ mem_cons_self, ?_⟩
  rintro ⟨⟨seq, ⟨i, -, hmem⟩, -⟩, -⟩
  have hdurable : st.disk.durable = [(".axverity/names/" ++ "a.log", 1)] := by
    rw [hdisk]
    rfl
  rw [hdurable] at hmem
  exact segPath_ne_nameLog "0" seq "a.log" (congrArg Prod.fst (mem_singleton.mp hmem))

end AxisBridge
