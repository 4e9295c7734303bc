import AxisBridge.Lib.Reach
import AxisBridge.Runtime.RecLog

/-! The log buffers of the threads: a file and the bytes not yet written to it, read as one
stream. -/
namespace AxisBridge
open Option List Function Disk

/-- An open log: the file it appends to, the bytes in memory and how many are in the file. -/
structure LogBuf where
  path : String
  buf : Bytes
  fileLen : ℕ

open LogBuf

/-- A thread and a handle of its table. -/
abbrev LogKey := ℕ × ℤ

/-- The files, and `LOGS` and `NEXT` of each thread. -/
structure LogState where
  disk : Volume
  logs : LogKey → Option LogBuf
  next : ℕ → ℤ

open LogState

def LogState.start (d : Volume) : LogState := ⟨d, fun _ => none, fun _ => 1⟩

/-- `n as i64`. -/
def asI64 (n : ℕ) : ℤ := (n : ℤ).bmod (2 ^ 64)

def LogBuf.total (lb : LogBuf) : ℕ := lb.fileLen + lb.buf.length

def logbufOpen (st : LogState) (t : ℕ) (path : String) : ℤ × LogState :=
  let disk := st.disk.create path
  let fileLen := ((disk.read path).getD []).length
  let h := st.next t
  (h, ⟨fsyncParentDir disk path, update st.logs (t, h) (some ⟨path, [], fileLen⟩),
    update st.next t (h + 1)⟩)

/-- An unknown handle panics. -/
def logbufAppend (st : LogState) (k : LogKey) (data : Bytes) : Option (ℤ × LogState) :=
  (st.logs k).map fun lb =>
    (asI64 lb.total,
      { st with logs := update st.logs k (some { lb with buf := lb.buf ++ data }) })

def LogBuf.written (lb : LogBuf) : LogBuf := ⟨lb.path, [], lb.fileLen + lb.buf.length⟩

def logbufSync (st : LogState) (k : LogKey) : Option LogState :=
  (st.logs k).map fun lb =>
    if lb.buf = [] then st
    else
      { st with
        disk := (st.disk.append lb.path lb.buf).sync lb.path
        logs := update st.logs k (some lb.written) }

def logbufFlush (st : LogState) (k : LogKey) : Option LogState :=
  (st.logs k).map fun lb =>
    if lb.buf = [] then st
    else
      { st with
        disk := st.disk.append lb.path lb.buf
        logs := update st.logs k (some lb.written) }

/-- The items are written one by one; one that is no Bytes panics. -/
def writeItems (path : String) (d : Volume) (total : ℕ) :
    List Value → Except Volume (Volume × ℕ)
  | [] => .ok (d, total)
  | .bytes b :: items => writeItems path (d.append path b) (total + b.length) items
  | _ :: _ => .error d

/-- The items go to the file of handle 1 past its buffer; a panic leaves the ones before it
there. -/
def walFastBatchWrite (st : LogState) (t : ℕ) (arg : Value) : Except LogState LogState :=
  match arg with
  | .list [] => .ok st
  | .list items =>
    match st.logs (t, 1) with
    | none => .error st
    | some lb =>
      match writeItems lb.path st.disk 0 items with
      | .error disk => .error { st with disk := disk }
      | .ok (disk, total) =>
        .ok
          { st with
            disk := disk.sync lb.path
            logs := update st.logs (t, 1) (some { lb with fileLen := lb.fileLen + total }) }
  | _ => .error st

def logbufRead (st : LogState) (k : LogKey) (off len : ℤ) : Option Bytes :=
  if off < 0 ∨ len < 0 then none
  else
    (st.logs k).bind fun lb =>
      let start := min off.toNat lb.total
      let stop := if off.toNat + len.toNat < 2 ^ 64 then min (off.toNat + len.toNat) lb.total
        else lb.total
      let filePart :=
        if start < lb.fileLen then
          (st.disk.read lb.path).map fun data =>
            (data.drop start).take (min stop lb.fileLen - start)
        else some []
      let bufPart :=
        if stop > lb.fileLen then
          (lb.buf.take (stop - lb.fileLen)).drop (max start lb.fileLen - lb.fileLen)
        else []
      filePart.map (· ++ bufPart)

def logbufLen (st : LogState) (k : LogKey) : Option ℤ :=
  (st.logs k).map fun lb => asI64 lb.total

inductive LogCall
  | logbufOpen (t : ℕ) (path : String)
  | logbufAppend (k : LogKey) (data : Bytes)
  | logbufSync (k : LogKey)
  | logbufFlush (k : LogKey)
  | walFastBatchWrite (t : ℕ) (arg : Value)

/-- A batch that panics leaves its state too; any other panic leaves the state as it was. -/
def LogCall.run (st : LogState) : LogCall → Option LogState
  | .logbufOpen t path => some (AxisBridge.logbufOpen st t path).2
  | .logbufAppend k data => (AxisBridge.logbufAppend st k data).map Prod.snd
  | .logbufSync k => AxisBridge.logbufSync st k
  | .logbufFlush k => AxisBridge.logbufFlush st k
  | .walFastBatchWrite t arg =>
    match AxisBridge.walFastBatchWrite st t arg with
    | .ok st' => some st'
    | .error st' => some st'

def LogStep (call : LogCall) (st st' : LogState) : Prop := call.run st = some st'

/-- The stream of a log: what it has of its file, and then its buffer. -/
def LogState.stream (st : LogState) (k : LogKey) : Option Bytes :=
  (st.logs k).map fun lb => ((st.disk.read lb.path).getD []).take lb.fileLen ++ lb.buf

/-- No other open log has the file of this one. -/
def LogState.Exclusive (st : LogState) (k : LogKey) (path : String) : Prop :=
  ∀ k' lb, st.logs k' = some lb → lb.path = path → k' = k

/-- The items before the first that is no Bytes. -/
def leading : List Value → List Bytes
  | .bytes b :: items => b :: leading items
  | _ => []

/-- A call that writes bytes to a file finds no other log open on it, a batch that writes bytes has
only Bytes and finds the buffer empty, and lengths stay within an `i64`. -/
def InOrder (st : LogState) : LogCall → Prop
  | .logbufOpen _ path => ((st.disk.read path).getD []).length < 2 ^ 63
  | .logbufAppend k data => ∀ lb, st.logs k = some lb → lb.total + data.length < 2 ^ 63
  | .logbufSync k => ∀ lb, st.logs k = some lb → lb.buf ≠ [] → st.Exclusive k lb.path
  | .logbufFlush k => ∀ lb, st.logs k = some lb → lb.buf ≠ [] → st.Exclusive k lb.path
  | .walFastBatchWrite t arg => ∀ items lb, arg = .list items → st.logs (t, 1) = some lb →
      (leading items).flatten ≠ [] → (leading items).length = items.length ∧ lb.buf = [] ∧
        st.Exclusive (t, 1) lb.path ∧ lb.total + (leading items).flatten.length < 2 ^ 63

structure LogInvariant (st : LogState) : Prop where
  sound : st.disk.Sound
  fresh : ∀ t h, st.logs (t, h) ≠ none → h < st.next t
  file : ∀ k lb, st.logs k = some lb → ∃ data, st.disk.read lb.path = some data ∧
    data.length = lb.fileLen
  small : ∀ k lb, st.logs k = some lb → lb.total < 2 ^ 63

variable {st st' : LogState} {k k' : LogKey} {lb lb' : LogBuf} {d : Volume}
  {data bytes s : Bytes} {a : LogCall}

theorem asI64_of_lt {n : ℕ} (h : n < 2 ^ 63) : asI64 n = n :=
  Int.bmod_eq_of_le (by omega) (by omega)

theorem LogInvariant.start (h : d.Sound) : LogInvariant (.start d) :=
  ⟨h, fun _ _ hlog => absurd rfl hlog, nofun, nofun⟩

/-- The stream of a log, in a state that keeps the invariant: all of its file and the buffer. -/
theorem stream_eq (hlog : st.logs k = some lb) (hread : st.disk.read lb.path = some data)
    (hlen : data.length = lb.fileLen) : st.stream k = some (data ++ lb.buf) := by
  simp [stream, hlog, hread, ← hlen]

theorem stream_congr (hlog : st'.logs k = st.logs k)
    (hread : ∀ lb, st.logs k = some lb → st'.disk.read lb.path = st.disk.read lb.path) :
    st'.stream k = st.stream k := by
  unfold stream
  rw [hlog]
  cases h : st.logs k with
  | none => rfl
  | some lb => simp [hread lb h]

/-- What a call that writes `bytes` to the file of one log leaves. -/
structure Wrote (st : LogState) (k : LogKey) (lb lb' : LogBuf) (bytes : Bytes)
    (d : Volume) : Prop where
  log : st.logs k = some lb
  sound : d.Sound
  self : d.read lb.path = (st.disk.read lb.path).map (· ++ bytes)
  other : ∀ p ≠ lb.path, d.read p = st.disk.read p
  exclusive : bytes ≠ [] → st.Exclusive k lb.path
  path : lb'.path = lb.path
  fileLen : lb'.fileLen = lb.fileLen + bytes.length
  small : lb'.total < 2 ^ 63

def LogState.wrote (st : LogState) (k : LogKey) (lb' : LogBuf) (d : Volume) : LogState :=
  { st with disk := d, logs := update st.logs k (some lb') }

theorem Wrote.wrote_self (hw : Wrote st k lb lb bytes d) :
    st.wrote k lb d = { st with disk := d } := by
  rw [wrote, ← hw.log, update_eq_self]

/-- The files of the other logs stay as they are. -/
theorem Wrote.read_other (hw : Wrote st k lb lb' bytes d) {lb₁ : LogBuf} (hk : k' ≠ k)
    (hlog : st.logs k' = some lb₁) : d.read lb₁.path = st.disk.read lb₁.path := by
  by_cases hpath : lb₁.path = lb.path
  · have hbytes : bytes = [] := by
      by_contra hne
      exact hk (hw.exclusive hne k' lb₁ hlog hpath)
    rw [hpath, hw.self, hbytes]
    simp
  · exact hw.other _ hpath

theorem Wrote.invariant (hw : Wrote st k lb lb' bytes d) (hi : LogInvariant st) :
    LogInvariant (st.wrote k lb' d) := by
  have hlogs : ∀ k' lb₁, (st.wrote k lb' d).logs k' = some lb₁ →
      k' = k ∧ lb₁ = lb' ∨ k' ≠ k ∧ st.logs k' = some lb₁ := by
    intro k' lb₁ (h : update st.logs k (some lb') k' = some lb₁)
    by_cases hk : k' = k
    · subst hk
      rw [update_self] at h
      exact .inl ⟨rfl, (some.inj h).symm⟩
    · rw [update_of_ne hk] at h
      exact .inr ⟨hk, h⟩
  refine ⟨hw.sound, ?_, ?_, ?_⟩
  · intro t h hne
    obtain ⟨lb₁, hlog⟩ := ne_none_iff_exists'.mp hne
    rcases hlogs _ _ hlog with ⟨rfl, rfl⟩ | ⟨-, hlog⟩
    · exact hi.fresh t h (by simp [hw.log])
    · exact hi.fresh t h (by simp [hlog])
  · intro k' lb₁ hlog
    rcases hlogs _ _ hlog with ⟨rfl, rfl⟩ | ⟨hk, hlog⟩
    · obtain ⟨data, hread, hlen⟩ := hi.file k' lb hw.log
      refine ⟨data ++ bytes, ?_, ?_⟩
      · show d.read lb₁.path = _
        rw [hw.path, hw.self, hread]
        rfl
      · rw [length_append, hlen, hw.fileLen]
    · obtain ⟨data, hread, hlen⟩ := hi.file k' lb₁ hlog
      exact ⟨data, (hw.read_other hk hlog).trans hread, hlen⟩
  · intro k' lb₁ hlog
    rcases hlogs _ _ hlog with ⟨rfl, rfl⟩ | ⟨-, hlog⟩
    · exact hw.small
    · exact hi.small k' lb₁ hlog

theorem Wrote.stream_other (hw : Wrote st k lb lb' bytes d) (hk : k' ≠ k) :
    (st.wrote k lb' d).stream k' = st.stream k' :=
  stream_congr (update_of_ne hk _ _) fun _ hlog => hw.read_other hk hlog

theorem Wrote.stream_self (hw : Wrote st k lb lb' bytes d)
    (hread : st.disk.read lb.path = some data) (hlen : data.length = lb.fileLen) :
    (st.wrote k lb' d).stream k = some (data ++ bytes ++ lb'.buf) := by
  have hlog : (st.wrote k lb' d).logs k = some lb' := update_self ..
  refine stream_eq hlog ?_ ?_
  · show d.read lb'.path = _
    rw [hw.path, hw.self, hread]
    rfl
  · rw [length_append, hlen, hw.fileLen]

/-- A write grows its stream when the bytes come out of the buffer or pass an empty one. -/
theorem Wrote.grows (hw : Wrote st k lb lb' bytes d) (hi : LogInvariant st)
    (hbuf : lb.buf <+: bytes ++ lb'.buf) (hs : st.stream k' = some s) :
    ∃ s', (st.wrote k lb' d).stream k' = some s' ∧ s <+: s' := by
  by_cases hk : k' = k
  · subst hk
    obtain ⟨data, hread, hlen⟩ := hi.file k' lb hw.log
    rw [stream_eq hw.log hread hlen] at hs
    obtain rfl := some.inj hs
    refine ⟨_, hw.stream_self hread hlen, ?_⟩
    rw [append_assoc]
    exact (prefix_append_right_inj data).mpr hbuf
  · exact ⟨s, (hw.stream_other hk).trans hs, prefix_rfl⟩

theorem Wrote.append (hi : LogInvariant st) (hlog : st.logs k = some lb)
    (hok : InOrder st (.logbufAppend k data)) :
    Wrote st k lb { lb with buf := lb.buf ++ data } [] st.disk := by
  refine ⟨hlog, hi.sound, ?_, fun _ _ => rfl, fun h => absurd rfl h, rfl, rfl, ?_⟩
  · cases st.disk.read lb.path <;> simp
  · have hlt := hok lb hlog
    simp only [total, length_append] at hlt ⊢
    omega

theorem Wrote.flush (hi : LogInvariant st) (hlog : st.logs k = some lb) (hne : lb.buf ≠ [])
    (hok : InOrder st (.logbufFlush k)) :
    Wrote st k lb lb.written lb.buf (st.disk.append lb.path lb.buf) := by
  refine ⟨hlog, hi.sound.modify, read_append_self, ?_, fun _ => hok lb hlog hne, rfl, rfl, ?_⟩
  · intro p hp
    exact read_modify_ne hi.sound hp
  · have hlt := hi.small k lb hlog
    simpa [total, written] using hlt

theorem Wrote.sync (hw : Wrote st k lb lb' bytes d) (p : String) :
    Wrote st k lb lb' bytes (d.sync p) :=
  ⟨hw.log, hw.sound.modify, read_sync.trans hw.self,
    fun q hq => read_sync.trans (hw.other q hq), hw.exclusive, hw.path, hw.fileLen, hw.small⟩

theorem Wrote.batch (hi : LogInvariant st) (items : List Bytes) (hlog : st.logs k = some lb)
    (hexclusive : items.flatten ≠ [] → st.Exclusive k lb.path) (hpath : lb'.path = lb.path)
    (hlen : lb'.fileLen = lb.fileLen + items.flatten.length) (hsmall : lb'.total < 2 ^ 63) :
    Wrote st k lb lb' items.flatten
      (items.foldl (fun d bytes => d.append lb.path bytes) st.disk) := by
  refine ⟨hlog, sound_foldl_append hi.sound items, ?_, ?_, hexclusive, hpath, hlen, hsmall⟩
  · unfold Disk.read
    rw [file_foldl_append_self]
    cases st.disk.file lb.path <;> rfl
  · intro p hp
    exact congrArg (Option.map DiskFile.data) (file_foldl_append_ne hi.sound hp items)

theorem writeItems_eq (path : String) (items : List Value) (d : Volume) (total : ℕ) :
    writeItems path d total items =
      if (leading items).length = items.length then
        .ok ((leading items).foldl (fun d bytes => d.append path bytes) d,
          total + (leading items).flatten.length)
      else .error ((leading items).foldl (fun d bytes => d.append path bytes) d) := by
  induction items generalizing d total with
  | nil => rfl
  | cons item items ih =>
    cases item with
    | bytes b => simp [writeItems, leading, ih, add_assoc]
    | _ => simp [writeItems, leading]

/-- A batch does nothing, or writes its items up to the first that is no Bytes. -/
theorem walFastBatchWrite_cases (st : LogState) (t : ℕ) (arg : Value) :
    walFastBatchWrite st t arg = .ok st ∨ walFastBatchWrite st t arg = .error st ∨
      ∃ items lb, arg = .list items ∧ st.logs (t, 1) = some lb ∧
        walFastBatchWrite st t arg =
          let disk := (leading items).foldl (fun d bytes => d.append lb.path bytes) st.disk
          let fileLen := lb.fileLen + (leading items).flatten.length
          if (leading items).length = items.length then
            .ok
              { st with
                disk := disk.sync lb.path
                logs := update st.logs (t, 1) (some { lb with fileLen := fileLen }) }
          else .error { st with disk := disk } := by
  cases arg with
  | list items =>
    cases items with
    | nil => exact .inl rfl
    | cons item items =>
      right
      cases hlog : st.logs (t, 1) with
      | none => exact .inl (by simp [walFastBatchWrite, hlog])
      | some lb =>
        refine .inr ⟨_, lb, rfl, rfl, ?_⟩
        simp only [walFastBatchWrite, hlog, writeItems_eq, zero_add]
        split <;> rename_i heq <;> split at heq <;> simp_all
  | _ => exact .inr (.inl rfl)

theorem LogInvariant.opened (hi : LogInvariant st) {t : ℕ} {path : String}
    (hok : InOrder st (.logbufOpen t path)) :
    LogInvariant (logbufOpen st t path).2 ∧
      ∀ k s, st.stream k = some s → (logbufOpen st t path).2.stream k = some s := by
  have hread : ∀ k lb, st.logs k = some lb →
      (fsyncParentDir (st.disk.create path) path).read lb.path = st.disk.read lb.path := by
    intro k lb hlog
    show (st.disk.create path).read lb.path = _
    by_cases hpath : lb.path = path
    · obtain ⟨data, hread, -⟩ := hi.file k lb hlog
      rw [hpath] at hread ⊢
      rw [read_create_self hi.sound, hread]
      rfl
    · exact read_create_ne hi.sound hpath
  have hnew : st.logs (t, st.next t) = none := by
    by_contra hne
    exact absurd (hi.fresh t _ hne) (Int.lt_irrefl _)
  have hlogs : ∀ k lb, (logbufOpen st t path).2.logs k = some lb → k = (t, st.next t) ∧
      lb = ⟨path, [], (((st.disk.create path).read path).getD []).length⟩ ∨
      k ≠ (t, st.next t) ∧ st.logs k = some lb := by
    intro k lb (h : update st.logs _ _ k = some lb)
    by_cases hk : k = (t, st.next t)
    · subst hk
      rw [update_self] at h
      exact .inl ⟨rfl, (some.inj h).symm⟩
    · rw [update_of_ne hk] at h
      exact .inr ⟨hk, h⟩
  refine ⟨⟨hi.sound.create.syncDir, ?_, ?_, ?_⟩, ?_⟩
  · intro t' h hne
    show h < update st.next t (st.next t + 1) t'
    obtain ⟨lb, hlog⟩ := ne_none_iff_exists'.mp hne
    rcases hlogs _ lb hlog with ⟨hk, -⟩ | ⟨-, hlog⟩
    · obtain ⟨rfl, rfl⟩ := Prod.mk.inj hk
      rw [update_self]
      omega
    · have hlt := hi.fresh t' h (by simp [hlog])
      by_cases ht : t' = t
      · subst ht
        rw [update_self]
        omega
      · rwa [update_of_ne ht]
  · intro k lb hlog
    rcases hlogs k lb hlog with ⟨-, rfl⟩ | ⟨-, hlog⟩
    · refine ⟨(st.disk.read path).getD [], read_create_self hi.sound, ?_⟩
      rw [read_create_self hi.sound]
      rfl
    · obtain ⟨data, hdata, hlen⟩ := hi.file k lb hlog
      exact ⟨data, (hread k lb hlog).trans hdata, hlen⟩
  · intro k lb hlog
    rcases hlogs k lb hlog with ⟨-, rfl⟩ | ⟨-, hlog⟩
    · rw [read_create_self hi.sound]
      exact hok
    · exact hi.small k lb hlog
  · intro k s hs
    have hk : k ≠ (t, st.next t) := by
      rintro rfl
      simp [stream, hnew] at hs
    exact (stream_congr (update_of_ne hk _ _) (hread k)).trans hs

theorem LogInvariant.step (hi : LogInvariant st) (hok : InOrder st a) (hs : LogStep a st st') :
    LogInvariant st' ∧ ∀ k s, st.stream k = some s → ∃ s', st'.stream k = some s' ∧ s <+: s' := by
  have hsame : ∀ k s, st.stream k = some s → ∃ s', st.stream k = some s' ∧ s <+: s' :=
    fun k s h => ⟨s, h, prefix_rfl⟩
  cases a with
  | logbufOpen t path =>
    obtain rfl := some.inj hs
    obtain ⟨hi', hkept⟩ := hi.opened hok
    exact ⟨hi', fun k s h => ⟨s, hkept k s h, prefix_rfl⟩⟩
  | logbufAppend k data =>
    obtain ⟨⟨off, st₁⟩, happ, rfl⟩ := map_eq_some_iff.mp hs
    obtain ⟨lb, hlog, heq⟩ := map_eq_some_iff.mp happ
    obtain ⟨-, rfl⟩ := Prod.mk.inj heq
    have hw := Wrote.append hi hlog hok
    exact ⟨hw.invariant hi, fun k' s h => hw.grows hi (prefix_append ..) h⟩
  | logbufSync k =>
    obtain ⟨lb, hlog, heq⟩ := map_eq_some_iff.mp hs
    split at heq
    · subst heq
      exact ⟨hi, hsame⟩
    · rename_i hne
      subst heq
      have hw := (Wrote.flush hi hlog hne hok).sync lb.path
      exact ⟨hw.invariant hi, fun k' s h => hw.grows hi (prefix_append ..) h⟩
  | logbufFlush k =>
    obtain ⟨lb, hlog, heq⟩ := map_eq_some_iff.mp hs
    split at heq
    · subst heq
      exact ⟨hi, hsame⟩
    · rename_i hne
      subst heq
      have hw := Wrote.flush hi hlog hne hok
      exact ⟨hw.invariant hi, fun k' s h => hw.grows hi (prefix_append ..) h⟩
  | walFastBatchWrite t arg =>
    rcases walFastBatchWrite_cases st t arg with heq | heq | ⟨items, lb, rfl, hlog, heq⟩
    · simp only [LogStep, LogCall.run, heq, some.injEq] at hs
      exact hs ▸ ⟨hi, hsame⟩
    · simp only [LogStep, LogCall.run, heq, some.injEq] at hs
      exact hs ▸ ⟨hi, hsame⟩
    · have hexclusive := fun hne => (hok items lb rfl hlog hne).2.2.1
      by_cases hall : (leading items).length = items.length
      · simp only [LogStep, LogCall.run, heq, if_pos hall, some.injEq] at hs
        subst hs
        have hsmall : lb.total + (leading items).flatten.length < 2 ^ 63 := by
          by_cases hne : (leading items).flatten = []
          · simpa [hne] using hi.small _ lb hlog
          · exact (hok items lb rfl hlog hne).2.2.2
        have hbatch : Wrote st (t, 1) lb
            { lb with fileLen := lb.fileLen + (leading items).flatten.length } _ _ :=
          Wrote.batch hi (leading items) hlog hexclusive rfl rfl (by
            simp only [total] at hsmall ⊢
            omega)
        have hw := hbatch.sync lb.path
        refine ⟨hw.invariant hi, fun k' s h => hw.grows hi ?_ h⟩
        by_cases hne : (leading items).flatten = []
        · rw [hne]
          exact prefix_rfl
        · rw [(hok items lb rfl hlog hne).2.1]
          exact nil_prefix
      · -- nothing was written before the panic
        simp only [LogStep, LogCall.run, heq, if_neg hall, some.injEq] at hs
        have hnone : (leading items).flatten = [] := by
          by_contra hne
          exact hall (hok items lb rfl hlog hne).1
        have hw := Wrote.batch hi (leading items) hlog hexclusive rfl (by simp [hnone])
          (hi.small _ lb hlog)
        rw [← hs, ← hw.wrote_self]
        exact ⟨hw.invariant hi, fun k' s h => hw.grows hi (by simp [hnone]) h⟩

/-- A range of a file and the buffer behind it, as `logbuf_read` puts it together. -/
theorem slice_append (data buf : Bytes) {start stop : ℕ} (hle : start ≤ stop) :
    ((data ++ buf).drop start).take (stop - start) =
      (if start < data.length then (data.drop start).take (min stop data.length - start) else []) ++
      if stop > data.length then
        (buf.take (stop - data.length)).drop (max start data.length - data.length)
      else [] := by
  rw [drop_append, take_append, length_drop]
  by_cases hstart : start < data.length
  · have hbuf : start - data.length = 0 := by omega
    have hmax : max start data.length - data.length = 0 := by omega
    have hrest : stop - start - (data.length - start) = stop - data.length := by omega
    rw [if_pos hstart, hbuf, hmax, hrest, drop_zero, drop_zero]
    congr 1
    · refine take_eq_take_iff.mpr ?_
      rw [length_drop]
      omega
    · by_cases hstop : stop > data.length
      · rw [if_pos hstop]
      · have hzero : stop - data.length = 0 := by omega
        rw [if_neg hstop, hzero, take_zero]
  · have hmax : max start data.length - data.length = start - data.length := by omega
    have hdrop : data.drop start = [] := drop_eq_nil_of_le (by omega)
    have hrest : stop - start - (data.length - start) =
        stop - data.length - (start - data.length) := by omega
    rw [if_neg hstart, hmax, hdrop, hrest, take_nil, drop_take]
    by_cases hstop : stop > data.length
    · rw [if_pos hstop]
    · have hzero : stop - data.length - (start - data.length) = 0 := by omega
      rw [if_neg hstop, hzero, take_zero]

/-- The clamped bounds cut the same slice. -/
theorem slice_clamp (s : Bytes) {off len stop : ℕ} (hsmall : s.length < 2 ^ 63)
    (hstop : stop = if off + len < 2 ^ 64 then min (off + len) s.length else s.length) :
    min off s.length ≤ stop ∧
      (s.drop off).take len = (s.drop (min off s.length)).take (stop - min off s.length) := by
  have hstop : stop = min (off + len) s.length := by
    rw [hstop]
    split <;> omega
  subst hstop
  refine ⟨by omega, ?_⟩
  rcases lt_or_ge off s.length with hlt | hge
  · rw [min_eq_left (le_of_lt hlt)]
    refine take_eq_take_iff.mpr ?_
    rw [length_drop]
    omega
  · rw [drop_eq_nil_of_le hge, min_eq_right hge, drop_length, take_nil, take_nil]

/-- A stream is the file of its log and the buffer behind it. -/
theorem LogInvariant.parts (hi : LogInvariant st) (hs : st.stream k = some s) :
    ∃ lb data, st.logs k = some lb ∧ st.disk.read lb.path = some data ∧
      data.length = lb.fileLen ∧ s = data ++ lb.buf := by
  obtain ⟨lb, hlog, -⟩ := map_eq_some_iff.mp hs
  obtain ⟨data, hread, hdata⟩ := hi.file k lb hlog
  rw [stream_eq hlog hread hdata] at hs
  exact ⟨lb, data, hlog, hread, hdata, (some.inj hs).symm⟩

theorem LogInvariant.read (hi : LogInvariant st) (hs : st.stream k = some s) {off len : ℤ}
    (hoff : 0 ≤ off) (hlen : 0 ≤ len) :
    logbufRead st k off len = some ((s.drop off.toNat).take len.toNat) := by
  obtain ⟨lb, data, hlog, hread, hdata, rfl⟩ := hi.parts hs
  have hneg : ¬ (off < 0 ∨ len < 0) := by omega
  have htotal : lb.total = (data ++ lb.buf).length := by simp [total, hdata]
  have hsmall := hi.small k lb hlog
  rw [htotal] at hsmall
  simp only [logbufRead, if_neg hneg, hlog, bind_some, hread, map_some, ← hdata, htotal]
  obtain ⟨stop, hstop⟩ : ∃ stop, stop = if off.toNat + len.toNat < 2 ^ 64 then
    min (off.toNat + len.toNat) (data ++ lb.buf).length else (data ++ lb.buf).length := ⟨_, rfl⟩
  obtain ⟨hle, hslice⟩ := slice_clamp (data ++ lb.buf) hsmall hstop
  rw [← hstop, hslice, slice_append data lb.buf hle]
  by_cases hstart : min off.toNat (data ++ lb.buf).length < data.length
  · rw [if_pos hstart, if_pos hstart]
    rfl
  · rw [if_neg hstart, if_neg hstart]
    rfl

theorem LogInvariant.len (hi : LogInvariant st) (hs : st.stream k = some s) :
    logbufLen st k = some (s.length : ℤ) := by
  obtain ⟨lb, data, hlog, hread, hdata, rfl⟩ := hi.parts hs
  rw [logbufLen, hlog, map_some, asI64_of_lt (hi.small k lb hlog), total, ← hdata, length_append]

theorem LogInvariant.run (hi : LogInvariant st) (h : Reaches LogStep InOrder st st') :
    LogInvariant st' :=
  h.invariant (fun hi hok hs => (hi.step hok hs).1) hi

theorem stream_run (hi : LogInvariant st) (h : Reaches LogStep InOrder st st')
    (hs : st.stream k = some s) : ∃ s', st'.stream k = some s' ∧ s <+: s' := by
  have hgrows : ∀ s, st.stream k = some s → ∃ s', st'.stream k = some s' ∧ s <+: s' := by
    refine h.relates (R := fun st st' => ∀ s, st.stream k = some s →
      ∃ s', st'.stream k = some s' ∧ s <+: s') (fun hi hok hs => (hi.step hok hs).1) hi
      (fun _ s hs => ⟨s, hs, prefix_rfl⟩) ?_ (fun hi hok hs => (hi.step hok hs).2 k)
    intro st st' st'' h h' s hs
    obtain ⟨s', hs', hpre⟩ := h s hs
    obtain ⟨s'', hs'', hpre'⟩ := h' s' hs'
    exact ⟨s'', hs'', hpre.trans hpre'⟩
  exact hgrows s hs

/-- What an append returns is where its bytes are from then on. -/
theorem read_back_run (hi : LogInvariant st) {off : ℤ} {st₁ : LogState}
    (happ : logbufAppend st k data = some (off, st₁)) (hok : InOrder st (.logbufAppend k data))
    (h : Reaches LogStep InOrder st₁ st') : logbufRead st' k off data.length = some data := by
  obtain ⟨lb, hlog, heq⟩ := map_eq_some_iff.mp happ
  obtain ⟨rfl, rfl⟩ := Prod.mk.inj heq
  obtain ⟨file, hread, hlen⟩ := hi.file k lb hlog
  have hw := Wrote.append hi hlog hok
  have htotal : (file ++ lb.buf).length = lb.total := by simp [total, hlen]
  have hstream := hw.stream_self hread hlen
  obtain ⟨s', hs', rest, rfl⟩ := stream_run (hw.invariant hi) h hstream
  have hi' := (hw.invariant hi).run h
  rw [asI64_of_lt (hi.small k lb hlog)]
  rw [hi'.read hs' (by omega) (by omega), Int.toNat_natCast, Int.toNat_natCast, ← htotal]
  simp [append_assoc]

/-- The stream of every log as long as no batch passes buffered bytes. -/
theorem logbuf_one_stream (hd : d.Sound) (h : Reaches LogStep InOrder (.start d) st) :
    (∀ k s, st.stream k = some s → logbufLen st k = some (s.length : ℤ) ∧
      ∀ off len, 0 ≤ off → 0 ≤ len →
        logbufRead st k off len = some ((s.drop off.toNat).take len.toNat)) ∧
    (∀ k s st', st.stream k = some s → Reaches LogStep InOrder st st' →
      ∃ s', st'.stream k = some s' ∧ s <+: s') ∧
    ∀ k data off st₁ st', logbufAppend st k data = some (off, st₁) →
      InOrder st (.logbufAppend k data) → Reaches LogStep InOrder st₁ st' →
      logbufRead st' k off data.length = some data := by
  have hi := (LogInvariant.start hd).run h
  refine ⟨?_, ?_, ?_⟩
  · intro k s hs
    exact ⟨hi.len hs, fun off len hoff hlen => hi.read hs hoff hlen⟩
  · intro k s st' hs h'
    exact stream_run hi h' hs
  · intro k data off st₁ st' happ hok h'
    exact read_back_run hi happ hok h'

theorem reaches_batch (t : ℕ) (arg : Value) (h : walFastBatchWrite st t arg = .ok st') :
    Reaches LogStep anyAction st st' :=
  .of_step (a := .walFastBatchWrite t arg) trivial (by simp [LogStep, LogCall.run, h])

/-- A batch between an append and its flush moves what was appended. -/
theorem batch_moves_stream : ¬ ∀ (st st' : LogState) k data off st₁,
    Reaches LogStep anyAction (.start empty) st →
    logbufAppend st k data = some (off, st₁) → Reaches LogStep anyAction st₁ st' →
    logbufRead st' k off data.length = some data := by
  intro hclaim
  have hopen : LogStep (.logbufOpen 0 "w") (.start empty) _ := rfl
  have happ : logbufAppend (logbufOpen (.start empty) 0 "w").2 (0, 1) [1] = some (_, _) := rfl
  have hread := hclaim _ _ (0, 1) [1] _ _ (.of_step trivial hopen) happ
    (reaches_batch 0 (.list [.bytes [2]]) rfl)
  exact absurd hread (by decide)

theorem exclusive_of_only (h : ∀ k' ≠ k, st.logs k' = none) (path : String) :
    st.Exclusive k path := by
  intro k' lb hlog _
  by_contra hk
  rw [h k' hk] at hlog
  cases hlog

/-- An append, a flush, a batch past the empty buffer and another append. -/
theorem logbuf_one_stream_run : ∃ st : LogState,
    Reaches LogStep InOrder (.start empty) st ∧ st.stream (0, 1) = some [1, 2, 3] ∧
    logbufRead st (0, 1) 1 9 = some [2, 3] := by
  have h0 : Reaches LogStep InOrder (.start empty) _ := .refl _
  have hopen : InOrder (.start empty) (.logbufOpen 0 "w") := by
    show (0 : ℕ) < 2 ^ 63
    omega
  have h1 := h0.next hopen rfl
  have h2 := h1.next (?_ : InOrder _ (.logbufAppend (0, 1) [1])) rfl
  · have h3 := h2.next (?_ : InOrder _ (.logbufFlush (0, 1))) rfl
    · have h4 := h3.next (?_ : InOrder _ (.walFastBatchWrite 0 (.list [.bytes [2]]))) rfl
      · have h5 := h4.next (?_ : InOrder _ (.logbufAppend (0, 1) [3])) rfl
        · have hs := (logbuf_one_stream Disk.Sound.empty h5).1 (0, 1) [1, 2, 3] (by decide)
          exact ⟨_, h5, by decide, hs.2 1 9 (by decide) (by decide)⟩
        · rintro lb ⟨⟩
          decide
      · rintro items lb ⟨⟩ ⟨⟩ -
        refine ⟨rfl, rfl, exclusive_of_only ?_ _, by decide⟩
        intro k hk
        simp [logbufOpen, start, update_of_ne hk]
    · rintro lb ⟨⟩ -
      refine exclusive_of_only ?_ _
      intro k hk
      simp [logbufOpen, start, update_of_ne hk]
  · rintro lb ⟨⟩
    decide

end AxisBridge
