import AxisBridge.Lib.Capacity
import AxisBridge.Runtime.BridgedCell
import AxisBridge.Runtime.ContentIdx

/-! The query hash map: look-ups without a lock in the sealed batches of a shard, the oldest of
which go when they are too many. -/
namespace AxisBridge.Qhm
open Function Option
open List hiding set
open BridgedCell

open BridgedCell (World CellStep)
open Capacity (Resident size evict evict_resident)

/-! ### The shards -/

abbrev NSHARDS : ℕ := ContentIdx.NSHARDS

/-- `per_shard_cap`, from the value of `$AXVERITY_QHM_CAP`; the total is read as for the content
index. -/
def perShardCap (var : Option String) : ℕ := ContentIdx.perShardCap var

/-- `block_size`, from the value of `$AXVERITY_QHM_BLOCK`. -/
def blockSize (capVar var : Option String) : ℕ :=
  ((var.bind fun s => parseUsize (trim s)).filter (1 ≤ ·)).getD (max (perShardCap capVar / 4) 1)

def shardOf (key : String) : Fin NSHARDS := ContentIdx.shard key

def WATERMARK : ℕ := 256

def SWEEP_BACKOFF_CAP : ℕ := 255

/-- A batch of entries, one for a hash. -/
structure Segment where
  entries : List (String × Bytes)
  nodup : (entries.map Prod.fst).Nodup

def Segment.empty : Segment := ⟨[], .nil⟩

def Segment.len (seg : Segment) : ℕ := seg.entries.length

def Segment.get (seg : Segment) (hash : String) : Option Bytes := seg.entries.lookup hash

/-- A hash that is there keeps its bytes. -/
def Segment.insert (seg : Segment) (hash : String) (bytes : Bytes) : Segment :=
  if h : hash ∈ seg.entries.map Prod.fst then seg
  else ⟨(hash, bytes) :: seg.entries, nodup_cons.mpr ⟨h, seg.nodup⟩⟩

/-- What the cell of a shard shows: the sealed batches, newest first, and how many entries they
have. -/
structure SegSet where
  segs : List Segment
  total : ℕ

/-- The set that a seal publishes. -/
def newSet (cap : ℕ) (cur : Option SegSet) (seg : Segment) : SegSet :=
  let segs := seg :: (cur.map SegSet.segs).getD []
  let kept := evict Segment.len cap segs (size Segment.len segs)
  ⟨kept.1, kept.2⟩

def SegSet.lookup (set : SegSet) (hash : String) : Option Bytes :=
  set.segs.findSome? fun seg => seg.get hash

/-! ### Calls -/

/-- Where a look-up is: it has no handle, its slot is pinned next, the head is loaded next, it has
loaded a block, it has a ref to one, it has the set and drops the ref next, it has found the cell
empty. -/
inductive GetPc
  | acquire
  | pin
  | load
  | tighten (b : ℕ)
  | clone (b : ℕ)
  | drop (set : SegSet)
  | leave

/-- A put, or a flush at the shard it has come to. -/
inductive Job
  | put (hash : String) (bytes : Bytes)
  | flush (s : Fin NSHARDS)

def Job.shard : Job → Fin NSHARDS
  | .put hash _ => shardOf hash
  | .flush s => s

/-- Where the call of a writer is: it waits for the mutex, it has taken the batch and reads the
head, it has the new set, it has the epoch too, it has published, it is in `reclaim` with so many
retired blocks before, it is done. -/
inductive SealPc
  | lock
  | read (seg : Segment)
  | count (seg : Segment) (set : SegSet)
  | publish (seg : Segment) (set : SegSet) (epoch : ℕ)
  | watermark
  | reclaim (before : ℕ)
  | unlock

/-- What a thread does; a look-up with what was sealed when it began and when it loaded the head. -/
inductive Call
  | idle
  | get (hash : String) (pc : GetPc) (since seen : List Segment)
  | write (job : Job) (pc : SealPc)

/-- What the holder of the mutex does with the pending batch: the batch after it, and what comes
next. -/
def Job.enter (block : ℕ) (pending : Segment) : Job → Segment × SealPc
  | .put hash bytes =>
    if (pending.get hash).isSome then (pending, .unlock)
    else if block ≤ (pending.insert hash bytes).len then (.empty, .read (pending.insert hash bytes))
    else (pending.insert hash bytes, .unlock)
  | .flush _ => if pending.entries = [] then (pending, .unlock) else (.empty, .read pending)

/-- What the pending batch gets. -/
def Job.stored (pending : Segment) : Job → List (String × Bytes)
  | .put hash bytes => if (pending.get hash).isSome then [] else [(hash, bytes)]
  | .flush _ => []

/-- A flush goes on to the next shard. -/
def Job.after : Job → Call
  | .put .. => .idle
  | .flush s => if h : s.1 + 1 < NSHARDS then .write (.flush ⟨s.1 + 1, h⟩) .lock else .idle

structure Answer where
  hash : String
  since : List Segment
  seen : List Segment
  bytes : Bytes

/-- The cells with their registry, what the mutexes guard, the counter of epochs, the threads with
their handles. What was stored, sealed and answered, and how many epochs were taken, is only
watched. -/
structure QhmState (τ : Type*) where
  world : World (Fin NSHARDS) SegSet
  pending : Fin NSHARDS → Segment
  skip : Fin NSHARDS → ℕ
  backoff : Fin NSHARDS → ℕ
  locked : Fin NSHARDS → Option τ
  epoch : ℕ
  handle : τ → Option ℕ
  calls : τ → Call
  puts : List (String × Bytes)
  sealed : Fin NSHARDS → List Segment
  answers : List Answer
  seals : ℕ

variable {τ : Type*}

def QhmState.start : QhmState τ :=
  ⟨.new, fun _ => .empty, fun _ => 0, fun _ => 0, fun _ => none, 0, fun _ => none, fun _ => .idle,
    [], fun _ => [], [], 0⟩

/-- The set in a block; it is read whether the block is freed or not. -/
def setAt (world : World (Fin NSHARDS) SegSet) (b : ℕ) : SegSet :=
  (world.blocks[b]?.map BridgedCell.Block.value).getD ⟨[], 0⟩

/-- What the owned read of the writer finds. -/
def current (world : World (Fin NSHARDS) SegSet) (s : Fin NSHARDS) : Option SegSet :=
  match world.heads s with
  | .empty => none
  | .inline set _ => some set
  | .block b => some (setAt world b)

/-- An `Arc` is too wide for the head word. -/
abbrev outline (_ : Fin NSHARDS) : Bool := false

variable [DecidableEq τ]

def QhmState.to (st : QhmState τ) (t : τ) (call : Call) : QhmState τ :=
  { st with calls := update st.calls t call }

def QhmState.answer (st : QhmState τ) (t : τ) (a : Answer) : QhmState τ :=
  { st.to t .idle with answers := a :: st.answers }

/-- The next step of a look-up. -/
inductive GetStep (t : τ) : QhmState τ → QhmState τ → Prop
  | acquire {st world hash since seen} : st.calls t = .get hash .acquire since seen →
      CellStep outline .acquire st.world world →
      GetStep t st
        { st.to t (.get hash .pin since seen) with
          world
          handle := update st.handle t (some st.world.handles) }
  | pin {st world hash since seen r} : st.calls t = .get hash .pin since seen →
      st.handle t = some r → CellStep outline (.pin r (shardOf hash)) st.world world →
      GetStep t st { st.to t (.get hash .load since seen) with world }
  | loadBlock {st world hash since seen r b} : st.calls t = .get hash .load since seen →
      st.handle t = some r → CellStep outline (.load r) st.world world →
        (world.readers r).pc = .loaded b →
      GetStep t st { st.to t (.get hash (.tighten b) since (st.sealed (shardOf hash))) with world }
  | loadEmpty {st world hash since seen r} : st.calls t = .get hash .load since seen →
      st.handle t = some r → CellStep outline (.load r) st.world world →
        (world.readers r).pc = .leave none →
      GetStep t st { st.to t (.get hash .leave since (st.sealed (shardOf hash))) with world }
  | tighten {st world hash b since seen r} : st.calls t = .get hash (.tighten b) since seen →
      st.handle t = some r → CellStep outline (.tighten r) st.world world →
      GetStep t st { st.to t (.get hash (.clone b) since seen) with world }
  | clone {st hash b since seen} : st.calls t = .get hash (.clone b) since seen →
      GetStep t st (st.to t (.get hash (.drop (setAt st.world b)) since seen))
  | drop {st world hash set since seen r} : st.calls t = .get hash (.drop set) since seen →
      st.handle t = some r → CellStep outline (.drop r 0) st.world world →
      GetStep t st { st.answer t ⟨hash, since, seen, (set.lookup hash).getD []⟩ with world }
  | leave {st world hash since seen r} : st.calls t = .get hash .leave since seen →
      st.handle t = some r → CellStep outline (.leave r) st.world world →
      GetStep t st { st.answer t ⟨hash, since, seen, []⟩ with world }

/-- The next step of a put or a flush. -/
inductive SealStep (cap block : ℕ) (t : τ) : QhmState τ → QhmState τ → Prop
  | lock {st job} : st.calls t = .write job .lock → st.locked job.shard = none →
      SealStep cap block t st
        { st.to t (.write job (job.enter block (st.pending job.shard)).2) with
          locked := update st.locked job.shard (some t)
          pending := update st.pending job.shard (job.enter block (st.pending job.shard)).1
          puts := job.stored (st.pending job.shard) ++ st.puts }
  | read {st job seg} : st.calls t = .write job (.read seg) →
      SealStep cap block t st
        (st.to t (.write job (.count seg (newSet cap (current st.world job.shard) seg))))
  | count {st job seg set} : st.calls t = .write job (.count seg set) →
      SealStep cap block t st
        { st.to t (.write job (.publish seg set ((st.epoch + 1) % 2 ^ 64))) with
          epoch := (st.epoch + 1) % 2 ^ 64
          seals := st.seals + 1 }
  | publish {st world job seg set epoch} : st.calls t = .write job (.publish seg set epoch) →
      CellStep outline (.writeWithEpoch job.shard set epoch) st.world world →
      SealStep cap block t st
        { st.to t (.write job .watermark) with
          world
          sealed := update st.sealed job.shard (seg :: st.sealed job.shard) }
  | below {st job} : st.calls t = .write job .watermark →
      (st.world.writers job.shard).retired.length < WATERMARK →
      SealStep cap block t st (st.to t (.write job .unlock))
  | skip {st job n} : st.calls t = .write job .watermark →
      WATERMARK ≤ (st.world.writers job.shard).retired.length → st.skip job.shard = n + 1 →
      SealStep cap block t st
        { st.to t (.write job .unlock) with skip := update st.skip job.shard n }
  | reclaim {st world job} : st.calls t = .write job .watermark →
      WATERMARK ≤ (st.world.writers job.shard).retired.length → st.skip job.shard = 0 →
      CellStep outline (.reclaim job.shard) st.world world →
      SealStep cap block t st
        { st.to t (.write job (.reclaim (st.world.writers job.shard).retired.length)) with world }
  | sweep {st world job before} : st.calls t = .write job (.reclaim before) →
      (st.world.writers job.shard).pc ≠ .idle → CellStep outline (.next job.shard) st.world world →
      SealStep cap block t st { st with world }
  | swept {st job before} : st.calls t = .write job (.reclaim before) →
      (st.world.writers job.shard).pc = .idle →
      (st.world.writers job.shard).retired.length < before →
      SealStep cap block t st
        { st.to t (.write job .unlock) with backoff := update st.backoff job.shard 0 }
  | starved {st job before} : st.calls t = .write job (.reclaim before) →
      (st.world.writers job.shard).pc = .idle →
      before ≤ (st.world.writers job.shard).retired.length →
      SealStep cap block t st
        { st.to t (.write job .unlock) with
          backoff := update st.backoff job.shard
            (min (st.backoff job.shard * 2 + 1) SWEEP_BACKOFF_CAP)
          skip := update st.skip job.shard
            (min (st.backoff job.shard * 2 + 1) SWEEP_BACKOFF_CAP) }
  | unlock {st job} : st.calls t = .write job .unlock →
      SealStep cap block t st
        { st.to t job.after with locked := update st.locked job.shard none }

inductive QhmAction (τ : Type*)
  | get (t : τ) (hash : String)
  | put (t : τ) (hash : String) (bytes : Bytes)
  | flush (t : τ)
  | next (t : τ)

/-- A thread begins a call, or takes the next step of its own: one access to memory that threads
share, with what it does on its own before the next. -/
inductive QhmStep (cap block : ℕ) : QhmAction τ → QhmState τ → QhmState τ → Prop
  | get {st t hash} : st.calls t = .idle →
      QhmStep cap block (.get t hash) st
        (st.to t (.get hash (if (st.handle t).isSome then .pin else .acquire)
          (st.sealed (shardOf hash)) (st.sealed (shardOf hash))))
  | put {st t hash bytes} : st.calls t = .idle →
      QhmStep cap block (.put t hash bytes) st (st.to t (.write (.put hash bytes) .lock))
  | flush {st t} : st.calls t = .idle →
      QhmStep cap block (.flush t) st (st.to t (.write (.flush ⟨0, by decide⟩) .lock))
  | reader {st st' t} : GetStep t st st' → QhmStep cap block (.next t) st st'
  | writer {st st' t} : SealStep cap block t st st' → QhmStep cap block (.next t) st st'

/-! ### The mutexes -/

/-- The shard whose mutex a call has. -/
def Call.holds : Call → Option (Fin NSHARDS)
  | .write _ .lock => none
  | .write job _ => some job.shard
  | _ => none

def Locks (calls : τ → Call) (locked : Fin NSHARDS → Option τ) : Prop :=
  ∀ t s, (calls t).holds = some s → locked s = some t

/-- What a look-up leaves as it was; it goes on or is done. -/
structure Reads (t : τ) (st st' : QhmState τ) : Prop where
  cells : st'.world.heads = st.world.heads ∧ st'.world.blocks = st.world.blocks
  guarded : st'.pending = st.pending ∧ st'.locked = st.locked
  counted : st'.epoch = st.epoch ∧ st'.seals = st.seals
  watched : st'.sealed = st.sealed ∧ st'.puts = st.puts
  calls : ∃ call, st'.calls = update st.calls t call ∧ ∀ job pc, call ≠ .write job pc

/-- What a writer leaves as it was; its call goes on or is done. -/
structure Writes (t : τ) (st st' : QhmState τ) : Prop where
  readers : st'.world.readers = st.world.readers ∧ st'.world.handles = st.world.handles
  handle : st'.handle = st.handle
  answers : st'.answers = st.answers
  was : ∃ job pc, st.calls t = .write job pc
  calls : ∃ call, st'.calls = update st.calls t call ∧
    ∀ hash pc since seen, call ≠ .get hash pc since seen

section
variable {st st' : QhmState τ} {t t' : τ} {cap block : ℕ} {call : Call} {calls : τ → Call}
  {locked : Fin NSHARDS → Option τ} {s : Fin NSHARDS}

theorem GetStep.reads (hs : GetStep t st st') : Reads t st st' := by
  cases hs with
  | clone hcall => exact ⟨⟨rfl, rfl⟩, ⟨rfl, rfl⟩, ⟨rfl, rfl⟩, ⟨rfl, rfl⟩, _, rfl, nofun⟩
  | acquire _ hcell | pin _ _ hcell | loadBlock _ _ hcell _ | loadEmpty _ _ hcell _
  | tighten _ _ hcell | drop _ _ hcell | leave _ _ hcell =>
    cases hcell <;> exact ⟨⟨rfl, rfl⟩, ⟨rfl, rfl⟩, ⟨rfl, rfl⟩, ⟨rfl, rfl⟩, _, rfl, nofun⟩

theorem Job.after_cases (job : Job) :
    job.after = .idle ∨ ∃ s, job.after = .write (.flush s) .lock := by
  cases job with
  | put => exact .inl rfl
  | flush s =>
    rw [Job.after]
    split
    · exact .inr ⟨_, rfl⟩
    · exact .inl rfl

theorem SealStep.writes (hs : SealStep cap block t st st') : Writes t st st' := by
  cases hs with
  | lock hcall _ | read hcall | count hcall | below hcall _ | skip hcall _ _ | swept hcall _ _
  | starved hcall _ _ => exact ⟨⟨rfl, rfl⟩, rfl, rfl, ⟨_, _, hcall⟩, _, rfl, nofun⟩
  | publish hcall hcell | reclaim hcall _ _ hcell =>
    cases hcell
    exact ⟨⟨rfl, rfl⟩, rfl, rfl, ⟨_, _, hcall⟩, _, rfl, nofun⟩
  | sweep hcall hbusy hcell =>
    cases hcell
    obtain ⟨-, -, hreaders, hhandles, -⟩ := next_same st.world _
    exact ⟨⟨hreaders, hhandles⟩, rfl, rfl, ⟨_, _, hcall⟩, _, (update_eq_self t st.calls).symm,
      by rw [hcall]; nofun⟩
  | unlock hcall =>
    refine ⟨⟨rfl, rfl⟩, rfl, rfl, ⟨_, _, hcall⟩, _, rfl, ?_⟩
    rcases Job.after_cases _ with heq | ⟨s, heq⟩ <;> rw [heq] <;> nofun

theorem Locks.to (h : Locks calls locked) (hcall : ∀ s, call.holds = some s → locked s = some t) :
    Locks (update calls t call) locked :=
  (Function.forall_update_iff calls fun t' call => ∀ s, call.holds = some s →
    locked s = some t').mpr ⟨hcall, fun t' _ => h t'⟩

/-- A mutex that was free or was the thread's own changes hands. -/
theorem Locks.pass (h : Locks calls locked) {owner : Option τ}
    (hours : ∀ t', t' ≠ t → locked s ≠ some t')
    (hcall : ∀ s', call.holds = some s' → s' = s ∧ owner = some t) :
    Locks (update calls t call) (update locked s owner) := by
  refine (Function.forall_update_iff calls fun t' call => ∀ s', call.holds = some s' →
    update locked s owner s' = some t').mpr ⟨fun s' hs' => ?_, fun t' ht s' ht' => ?_⟩
  · obtain ⟨rfl, rfl⟩ := hcall s' hs'
    rw [update_self]
  · have hs : s' ≠ s := by
      rintro rfl
      exact hours t' ht (h t' s' ht')
    rw [update_of_ne hs]
    exact h t' s' ht'

theorem Locks.step {a : QhmAction τ} (h : Locks st.calls st.locked)
    (hs : QhmStep cap block a st st') : Locks st'.calls st'.locked := by
  cases hs with
  | get hidle | put hidle | flush hidle => exact h.to nofun
  | reader hs =>
    obtain ⟨call, hcalls, hcall⟩ := hs.reads.calls
    rw [hcalls, hs.reads.guarded.2]
    refine h.to fun s hholds => ?_
    cases call with
    | idle => cases hholds
    | get => cases hholds
    | write job pc => exact absurd rfl (hcall job pc)
  | @writer _ _ t hs =>
    have hours :
        ∀ {job pc}, st.calls t = .write job pc → pc ≠ .lock → st.locked job.shard = some t := by
      intro job pc hcall hpc
      refine h t job.shard ?_
      rw [hcall]
      cases pc <;> first | rfl | exact absurd rfl hpc
    cases hs with
    | lock hcall hfree =>
      refine h.pass (by rw [hfree]; nofun) fun s' hs' => ⟨?_, rfl⟩
      revert hs'
      cases (Job.enter block (st.pending _) _).2 <;> intro hs' <;> cases hs' <;> rfl
    | read hcall | count hcall | publish hcall _ | below hcall _ | skip hcall _ _
    | reclaim hcall _ _ _ | swept hcall _ _ | starved hcall _ _ =>
      refine h.to fun s hs => ?_
      cases hs
      exact hours hcall nofun
    | sweep hcall hbusy hcell => exact h
    | unlock hcall =>
      refine h.pass (fun t' ht heq => ?_) fun s' hs' => ?_
      · rw [hours hcall nofun] at heq
        exact ht (some.inj heq).symm
      · rcases Job.after_cases _ with heq | ⟨s, heq⟩ <;> rw [heq] at hs' <;> cases hs'

end

/-! ### The handles of the readers -/

/-- What a reader's handle is at, by the call of its thread. -/
def Call.At (rd : Reader (Fin NSHARDS) SegSet) : Call → Prop
  | .get hash .load _ _ => rd.pc = .pinned (shardOf hash) ∧ rd.refs = []
  | .get _ (.tighten b) _ _ => rd.pc = .loaded b ∧ rd.refs = []
  | .get _ (.clone b) _ _ =>
    rd.pc = .idle ∧ ∃ epoch wasStacked, rd.refs = [.block b epoch wasStacked]
  | .get _ (.drop _) _ _ =>
    rd.pc = .idle ∧ ∃ b epoch wasStacked, rd.refs = [.block b epoch wasStacked]
  | .get _ .leave _ _ => rd.pc = .leave none ∧ rd.refs = []
  | _ => rd.pc = .idle ∧ rd.refs = []

/-- A look-up that is past its `acquire`. -/
def Call.Holding : Call → Prop
  | .get _ pc _ _ => pc ≠ .acquire
  | _ => False

/-- Each thread has its own handle, and a look-up has one. -/
structure Readers (world : World (Fin NSHARDS) SegSet) (handle : τ → Option ℕ) (calls : τ → Call) :
    Prop where
  own : ∀ t t' r, handle t = some r → handle t' = some r → t = t'
  lt : ∀ t r, handle t = some r → r < world.handles
  stands : ∀ t r, handle t = some r → (calls t).At (world.readers r)
  has : ∀ t, (calls t).Holding → ∃ r, handle t = some r

section
variable {world world' : World (Fin NSHARDS) SegSet} {handle : τ → Option ℕ} {calls : τ → Call}
  {t : τ} {call : Call} {r slot : ℕ} {rd : Reader (Fin NSHARDS) SegSet}

/-- A thread goes on, and its handle stays where it is. -/
theorem Readers.to (h : Readers world handle calls) (hreaders : world'.readers = world.readers)
    (hhandles : world'.handles = world.handles)
    (hstands : ∀ r, handle t = some r → call.At (world.readers r))
    (hhas : call.Holding → ∃ r, handle t = some r) :
    Readers world' handle (update calls t call) := by
  refine ⟨h.own, fun t' r hr => hhandles ▸ h.lt t' r hr, ?_, ?_⟩
  · rw [hreaders]
    exact (Function.forall_update_iff calls fun t' call => ∀ r, handle t' = some r →
      call.At (world.readers r)).mpr ⟨hstands, fun t' _ => h.stands t'⟩
  · exact (Function.forall_update_iff calls fun t' call => call.Holding →
      ∃ r, handle t' = some r).mpr ⟨hhas, fun t' _ => h.has t'⟩

/-- The handle of a thread goes on with it. -/
theorem Readers.go (h : Readers world handle calls) (hr : handle t = some r)
    (hstands : call.At rd) : Readers (world.setReader r rd slot) handle (update calls t call) := by
  refine ⟨h.own, h.lt, ?_, ?_⟩
  · refine (Function.forall_update_iff calls fun t' call => ∀ r', handle t' = some r' →
      call.At ((world.setReader r rd slot).readers r')).mpr
        ⟨fun r' hr' => ?_, fun t' ht r' hr' => ?_⟩
    · obtain rfl := some.inj (hr'.symm.trans hr)
      rw [setReader_self]
      exact hstands
    · have hne : r' ≠ r := by
        rintro rfl
        exact ht (h.own t' t r' hr' hr)
      rw [setReader_of_ne hne]
      exact h.stands t' r' hr'
  · exact (Function.forall_update_iff calls fun t' call => call.Holding →
      ∃ r, handle t' = some r).mpr ⟨fun _ => ⟨r, hr⟩, fun t' _ => h.has t'⟩

/-- A thread gets the next handle. -/
theorem Readers.take (h : Readers world handle calls) {any : Bool}
    (hstands : call.At (world.readers world.handles)) :
    Readers { world with handles := world.handles + 1, anyHandleEver := any }
      (update handle t (some world.handles)) (update calls t call) := by
  have hcases : ∀ t' r, update handle t (some world.handles) t' = some r →
      t' = t ∧ r = world.handles ∨ t' ≠ t ∧ handle t' = some r := by
    intro t' r hr
    by_cases ht : t' = t
    · subst ht
      rw [update_self] at hr
      exact .inl ⟨rfl, (some.inj hr).symm⟩
    · rw [update_of_ne ht] at hr
      exact .inr ⟨ht, hr⟩
  refine ⟨fun t₁ t₂ r h₁ h₂ => ?_, fun t' r hr => ?_, fun t' r hr => ?_, fun t' ht' => ?_⟩
  · rcases hcases t₁ r h₁ with ⟨hfst, hnew⟩ | ⟨-, hold₁⟩ <;>
      rcases hcases t₂ r h₂ with ⟨hsnd, hnew'⟩ | ⟨-, hold₂⟩
    · rw [hfst, hsnd]
    · exact absurd hnew (h.lt t₂ r hold₂).ne
    · exact absurd hnew' (h.lt t₁ r hold₁).ne
    · exact h.own t₁ t₂ r hold₁ hold₂
  · rcases hcases t' r hr with ⟨-, rfl⟩ | ⟨-, hr⟩
    · exact Nat.lt_succ_self _
    · exact (h.lt t' r hr).trans (Nat.lt_succ_self _)
  · rcases hcases t' r hr with ⟨rfl, rfl⟩ | ⟨ht, hr⟩
    · rw [update_self]
      exact hstands
    · rw [update_of_ne ht]
      exact h.stands t' r hr
  · by_cases ht : t' = t
    · subst ht
      exact ⟨_, update_self ..⟩
    · rw [update_of_ne ht] at ht' ⊢
      exact h.has t' ht'

variable {st st' : QhmState τ} {cap block : ℕ}

theorem Readers.getStep (h : Readers st.world st.handle st.calls) (hworld : Invariant st.world)
    (hs : GetStep t st st') : Readers st'.world st'.handle st'.calls := by
  have hstands :
      ∀ {call r}, st.calls t = call → st.handle t = some r → call.At (st.world.readers r) := by
    rintro call r rfl hr
    exact h.stands t r hr
  cases hs with
  | acquire hcall hcell =>
    cases hcell
    refine h.take ?_
    rw [hworld.unregistered _ (le_refl _)]
    exact ⟨rfl, rfl⟩
  | pin hcall hr hcell =>
    cases hcell
    exact h.go hr ⟨rfl, (hstands hcall hr).2⟩
  | loadBlock hcall hr hcell hpc | loadEmpty hcall hr hcell hpc =>
    cases hcell
    rw [setReader_self] at hpc
    exact h.go hr ⟨hpc, (hstands hcall hr).2⟩
  | tighten hcall hr hcell =>
    obtain ⟨hloaded, hrefs⟩ := hstands hcall hr
    cases hcell with
    | tighten hpc =>
      obtain rfl := BridgedCell.ReaderPc.loaded.inj (hpc.symm.trans hloaded)
      exact h.go hr ⟨rfl, _, _, congrArg (List.cons _) hrefs⟩
  | clone hcall =>
    refine h.to rfl rfl (fun r hr => ?_) fun _ => ?_
    · obtain ⟨hidle, epoch, wasStacked, hrefs⟩ := hstands hcall hr
      exact ⟨hidle, _, epoch, wasStacked, hrefs⟩
    · exact h.has t (by rw [hcall]; nofun)
  | @drop _ _ _ _ _ r hcall hr hcell =>
    obtain ⟨hidle, b, epoch, wasStacked, hrefs⟩ := hstands hcall hr
    have hnone : (st.world.readers r).refs.eraseIdx 0 = [] := by rw [hrefs]; rfl
    cases hcell with
    | dropInline hpc hk | dropBlock hpc hk => exact h.go hr ⟨hpc, hnone⟩
  | leave hcall hr hcell =>
    obtain ⟨hleave, hrefs⟩ := hstands hcall hr
    cases hcell with
    | leave hpc =>
      cases hpc.symm.trans hleave
      exact h.go hr ⟨rfl, hrefs⟩

theorem At_idle (hcall : ∀ hash pc since seen, call ≠ .get hash pc since seen) :
    call.At rd ↔ rd.pc = .idle ∧ rd.refs = [] := by
  cases call with
  | get => exact (hcall _ _ _ _ rfl).elim
  | idle => exact Iff.rfl
  | write => exact Iff.rfl

theorem Readers.step {a : QhmAction τ} (h : Readers st.world st.handle st.calls)
    (hworld : Invariant st.world) (hs : QhmStep cap block a st st') :
    Readers st'.world st'.handle st'.calls := by
  have hidle : ∀ {t r}, st.calls t = .idle → st.handle t = some r →
      (st.world.readers r).pc = .idle ∧ (st.world.readers r).refs = [] := by
    intro t r hcall hr
    have hstands := h.stands t r hr
    rwa [hcall] at hstands
  cases hs with
  | @get _ t hash hcall =>
    refine h.to rfl rfl (fun r hr => ?_) fun hpc => ?_
    · rw [hr]
      exact hidle hcall hr
    · cases hr : st.handle t with
      | none =>
        rw [hr] at hpc
        exact absurd rfl hpc
      | some r => exact ⟨r, rfl⟩
  | put hcall | flush hcall => exact h.to rfl rfl (fun r hr => hidle hcall hr) nofun
  | reader hs => exact h.getStep hworld hs
  | @writer _ _ t hs =>
    obtain ⟨⟨hreaders, hhandles⟩, hhandle, -, ⟨job, pc, hwas⟩, call, hcalls, hcall⟩ := hs.writes
    rw [hhandle, hcalls]
    refine h.to hreaders hhandles (fun r hr => ?_) fun hpc => ?_
    · have hstands := h.stands t r hr
      rw [hwas] at hstands
      exact (At_idle hcall).mpr hstands
    · cases call with
      | get => exact (hcall _ _ _ _ rfl).elim
      | idle => exact hpc.elim
      | write => exact hpc.elim

end

/-! ### Epochs -/

/-- As long as the counter has not come round, each epoch taken is greater than 0. -/
structure Counts (st : QhmState τ) : Prop where
  epoch : st.epoch = st.seals
  blocks : ∀ blk ∈ st.world.blocks, 1 ≤ blk.epoch
  taken : ∀ t job seg set epoch, st.calls t = .write job (.publish seg set epoch) → 1 ≤ epoch

section
variable {st st' : QhmState τ} {t : τ} {cap block : ℕ} {a : QhmAction τ}

omit [DecidableEq τ] in
theorem Counts.start : Counts (.start : QhmState τ) := ⟨rfl, nofun, nofun⟩

/-- A call goes on without an epoch. -/
theorem Counts.to (h : Counts st) {call : Call} {calls : τ → Call}
    (hcalls : calls = update st.calls t call)
    (htaken : ∀ job seg set epoch, call = .write job (.publish seg set epoch) → 1 ≤ epoch) :
    ∀ t job seg set epoch, calls t = .write job (.publish seg set epoch) → 1 ≤ epoch := by
  subst hcalls
  exact (Function.forall_update_iff st.calls fun _ call => ∀ job seg set epoch,
    call = .write job (.publish seg set epoch) → 1 ≤ epoch).mpr ⟨htaken, fun t' _ => h.taken t'⟩

theorem seals_le (hs : QhmStep cap block a st st') : st.seals ≤ st'.seals := by
  cases hs with
  | reader hs => exact hs.reads.counted.2.ge
  | writer hs =>
    cases hs with
    | count => exact Nat.le_succ _
    | _ => exact le_refl _
  | _ => exact le_refl _

theorem Job.enter_ne (block : ℕ) (pending : Segment) (job : Job) (seg : Segment) (set : SegSet)
    (epoch : ℕ) : (job.enter block pending).2 ≠ .publish seg set epoch := by
  cases job <;> rw [Job.enter] <;> repeat' split
  all_goals nofun

theorem Counts.step (h : Counts st) (hs : QhmStep cap block a st st')
    (hseals : st'.seals < 2 ^ 64) : Counts st' := by
  cases hs with
  | get | put | flush => exact ⟨h.epoch, h.blocks, h.to rfl nofun⟩
  | reader hs =>
    obtain ⟨⟨-, hblocks⟩, -, ⟨hepoch, hseals⟩, -, call, hcalls, hcall⟩ := hs.reads
    refine ⟨by rw [hepoch, hseals, h.epoch], by rw [hblocks]; exact h.blocks, h.to hcalls ?_⟩
    exact fun job seg set epoch heq => absurd heq (hcall job _)
  | writer hs =>
    cases hs with
    | lock hcall hfree =>
      refine ⟨h.epoch, h.blocks, h.to rfl fun job seg set epoch heq => ?_⟩
      exact (Job.enter_ne _ _ _ _ _ _ (Call.write.inj heq).2).elim
    | read | below | skip | swept | starved => exact ⟨h.epoch, h.blocks, h.to rfl nofun⟩
    | count hcall =>
      have hlt : st.epoch + 1 < 2 ^ 64 := by rw [h.epoch]; exact hseals
      rw [Nat.mod_eq_of_lt hlt]
      refine ⟨congrArg (· + 1) h.epoch, h.blocks, h.to rfl fun job seg set epoch heq => ?_⟩
      cases heq
      exact Nat.le_add_left _ _
    | publish hcall hcell =>
      cases hcell
      refine ⟨h.epoch, fun blk hblk => ?_, h.to rfl nofun⟩
      rcases mem_append.mp hblk with hblk | hblk
      · exact h.blocks blk hblk
      · rw [mem_singleton.mp hblk]
        exact h.taken _ _ _ _ _ hcall
    | reclaim hcall hlen hskip hcell =>
      cases hcell
      exact ⟨h.epoch, h.blocks, h.to rfl nofun⟩
    | sweep hcall hbusy hcell =>
      cases hcell
      refine ⟨h.epoch, ?_, h.taken⟩
      rw [(next_same st.world _).2.1]
      exact h.blocks
    | unlock hcall =>
      refine ⟨h.epoch, h.blocks, h.to rfl fun job seg set epoch heq => ?_⟩
      rcases Job.after_cases _ with hafter | ⟨s, hafter⟩ <;> rw [hafter] at heq <;> cases heq

/-! ### The cells -/

omit [DecidableEq τ] in
/-- The cells are used with care: an empty cell is left by a handle that holds nothing, and no block
of epoch 0 is loaded. -/
theorem careful {c : CellAction (Fin NSHARDS) SegSet} (hworld : Invariant st.world)
    (hblocks : ∀ blk ∈ st.world.blocks, 1 ≤ blk.epoch)
    (hleave : ∀ r, c = .leave r → (st.world.readers r).refs = []) :
    BridgedCell.Careful st.world c := by
  cases c with
  | load r =>
    intro s b _ hid
    have hlt := (hworld.pools.live s b (mem_append_left _ (mem_toList.mpr hid))).1
    rw [blockEpoch, getElem?_eq_getElem hlt]
    exact Nat.one_le_iff_ne_zero.mp (hblocks _ (getElem_mem hlt))
  | leave r =>
    have hkeeps := (hworld.readers r).keeps
    rw [BridgedCell.Reader.epochs, BridgedCell.Reader.epochs, hleave r rfl] at hkeeps
    exact hkeeps.floor_idle
  | _ => trivial

theorem world_step (hworld : Invariant st.world) (hreaders : Readers st.world st.handle st.calls)
    (hblocks : ∀ blk ∈ st.world.blocks, 1 ≤ blk.epoch) (hs : QhmStep cap block a st st') :
    Invariant st'.world := by
  have hcell : ∀ {c world}, CellStep outline c st.world world →
      (∀ r, c = .leave r → (st.world.readers r).refs = []) → Invariant world :=
    fun hcell hleave => hworld.step (careful hworld hblocks hleave) hcell
  cases hs with
  | reader hs =>
    cases hs with
    | acquire _ hc | pin _ _ hc | loadBlock _ _ hc _ | loadEmpty _ _ hc _ | tighten _ _ hc
    | drop _ _ hc =>
      exact hcell hc nofun
    | clone _ => exact hworld
    | leave hcall hr hc =>
      refine hcell hc fun r' heq => ?_
      obtain rfl := BridgedCell.CellAction.leave.inj heq
      have hstands := hreaders.stands _ _ hr
      rw [hcall] at hstands
      exact hstands.2
  | writer hs =>
    cases hs with
    | publish _ hc | reclaim _ _ _ hc | sweep _ _ hc => exact hcell hc nofun
    | _ => exact hworld
  | _ => exact hworld

end

/-! ### What the cells show -/

def Segment.From (puts : List (String × Bytes)) (seg : Segment) : Prop :=
  ∀ q ∈ seg.entries, q ∈ puts

/-- The cell of a shard shows what is kept of all that was sealed. -/
structure Held (cap : ℕ) (sealed : List Segment) (cur : Option SegSet) : Prop where
  kept : Resident Segment.len cap sealed ((cur.map SegSet.segs).getD [])
  total : ∀ set, cur = some set → set.total = size Segment.len set.segs

def GetPc.Shows (cap : ℕ) (world : World (Fin NSHARDS) SegSet) (seen : List Segment) : GetPc → Prop
  | .tighten b | .clone b => b < world.blocks.length ∧ Held cap seen (some (setAt world b))
  | .drop set => Held cap seen (some set)
  | .leave => Held cap seen none
  | _ => True

def SealPc.Shows (cap : ℕ) (puts : List (String × Bytes)) (sealed : List Segment) : SealPc → Prop
  | .read seg => seg.From puts
  | .count seg set | .publish seg set _ => seg.From puts ∧ Held cap (seg :: sealed) (some set)
  | _ => True

def Call.Shows (cap : ℕ) (st : QhmState τ) : Call → Prop
  | .idle => True
  | .get hash pc since seen =>
    since <:+ seen ∧ seen <:+ st.sealed (shardOf hash) ∧ pc.Shows cap st.world seen
  | .write job pc => pc.Shows cap st.puts (st.sealed job.shard)

structure Answer.Shows (cap : ℕ) (sealed : Fin NSHARDS → List Segment) (a : Answer) : Prop where
  since : a.since <:+ a.seen
  seen : a.seen <:+ sealed (shardOf a.hash)
  bytes : ∃ cur, Held cap a.seen cur ∧ a.bytes = (cur.bind (·.lookup a.hash)).getD []

structure Contents (cap : ℕ) (st : QhmState τ) : Prop where
  held : ∀ s, Held cap (st.sealed s) (current st.world s)
  calls : ∀ t, (st.calls t).Shows cap st
  sealed : ∀ s, ∀ seg ∈ st.sealed s, seg.From st.puts
  pending : ∀ s, (st.pending s).From st.puts
  answers : ∀ a ∈ st.answers, a.Shows cap st.sealed

/-- Nothing that is in a block, was sealed or was put is lost. -/
structure Grows (st st' : QhmState τ) : Prop where
  blocks : st.world.blocks <+: st'.world.blocks
  sealed : ∀ s, st.sealed s <:+ st'.sealed s
  puts : ∀ q ∈ st.puts, q ∈ st'.puts

section
variable {st st' : QhmState τ} {t : τ} {cap block : ℕ} {a : QhmAction τ} {seg : Segment}
  {call : Call} {sealed : List Segment} {cur : Option SegSet} {puts puts' : List (String × Bytes)}
  {world world' : World (Fin NSHARDS) SegSet} {s : Fin NSHARDS} {b : ℕ}

theorem Segment.From.mono (h : seg.From puts) (hputs : ∀ q ∈ puts, q ∈ puts') : seg.From puts' :=
  fun q hq => hputs q (h q hq)

theorem Held.newSet (h : Held cap sealed cur) (seg : Segment) :
    Held cap (seg :: sealed) (some (newSet cap cur seg)) := by
  obtain ⟨hkept, htotal⟩ :=
    evict_resident (w := Segment.len) cap (seg :: (cur.map SegSet.segs).getD [])
  exact ⟨h.kept.cons seg hkept, fun set heq => some.inj heq ▸ htotal⟩

theorem setAt_mono (hblocks : world.blocks <+: world'.blocks) (hb : b < world.blocks.length) :
    setAt world' b = setAt world b := by
  obtain ⟨more, hmore⟩ := hblocks
  rw [setAt, setAt, ← hmore, getElem?_append_left hb]

theorem current_congr (hheads : world'.heads = world.heads) (hblocks : world'.blocks = world.blocks)
    (s : Fin NSHARDS) : current world' s = current world s := by
  rw [current, current, hheads]
  cases world.heads s <;> simp only [setAt, hblocks]

omit [DecidableEq τ] in
theorem Call.Shows.mono (h : call.Shows cap st) (hg : Grows st st')
    (hsealed : ∀ s, call.holds = some s → st'.sealed s = st.sealed s) : call.Shows cap st' := by
  cases call with
  | idle => trivial
  | get hash pc since seen =>
    obtain ⟨hsince, hseen, hpc⟩ := h
    refine ⟨hsince, hseen.trans (hg.sealed _), ?_⟩
    have hblock : ∀ {b}, b < st.world.blocks.length ∧ Held cap seen (some (setAt st.world b)) →
        b < st'.world.blocks.length ∧ Held cap seen (some (setAt st'.world b)) := by
      rintro b ⟨hb, hheld⟩
      rw [setAt_mono hg.blocks hb]
      exact ⟨hb.trans_le hg.blocks.length_le, hheld⟩
    cases pc with
    | tighten b | clone b => exact hblock hpc
    | _ => exact hpc
  | write job pc =>
    cases pc with
    | read seg => exact Segment.From.mono h hg.puts
    | count seg set | publish seg set epoch =>
      refine ⟨h.1.mono hg.puts, ?_⟩
      rw [hsealed _ rfl]
      exact h.2
    | _ => trivial

theorem Answer.Shows.mono {a : Answer} {all all' : Fin NSHARDS → List Segment} (h : a.Shows cap all)
    (hall : ∀ s, all s <:+ all' s) : a.Shows cap all' :=
  ⟨h.since, h.seen.trans (hall _), h.bytes⟩

theorem load_seen {r : ℕ} (hcell : CellStep outline (.load r) world world')
    (hpinned : (world.readers r).pc = .pinned s) :
    world'.heads = world.heads ∧ world'.blocks = world.blocks ∧
      (world'.readers r).pc = (world.heads s).seen := by
  cases hcell with
  | load hpc =>
    obtain rfl := BridgedCell.ReaderPc.pinned.inj (hpc.symm.trans hpinned)
    rw [setReader_self]
    exact ⟨rfl, rfl, rfl⟩

theorem Segment.From.insert (h : seg.From puts) {hash : String} {bytes : Bytes} :
    (seg.insert hash bytes).From ((hash, bytes) :: puts) := by
  intro q hq
  rw [Segment.insert] at hq
  split at hq
  · exact mem_cons_of_mem _ (h q hq)
  · rcases mem_cons.mp hq with rfl | hq
    · exact mem_cons_self
    · exact mem_cons_of_mem _ (h q hq)

/-- What a writer does to the pending batch is what it stores. -/
theorem Job.enter_from (cap block : ℕ) (job : Job) (h : seg.From puts) :
    (job.enter block seg).1.From (job.stored seg ++ puts) ∧
      ∀ sealed, (job.enter block seg).2.Shows cap (job.stored seg ++ puts) sealed := by
  have hnone : Segment.empty.From (job.stored seg ++ puts) := nofun
  cases job with
  | put hash bytes =>
    rw [Job.enter, Job.stored]
    split
    · exact ⟨h, fun _ => trivial⟩
    · split
      · exact ⟨nofun, fun _ => h.insert⟩
      · exact ⟨h.insert, fun _ => trivial⟩
  | flush s =>
    rw [Job.enter]
    split
    · exact ⟨h, fun _ => trivial⟩
    · exact ⟨hnone, fun _ => h⟩

section
variable (h : Contents cap st)

include h

/-- A step that seals nothing. -/
theorem Contents.go (hheads : st'.world.heads = st.world.heads)
    (hblocks : st'.world.blocks = st.world.blocks) (hsealed : st'.sealed = st.sealed)
    (hputs : ∀ q ∈ st.puts, q ∈ st'.puts) (hpending : ∀ s, (st'.pending s).From st'.puts)
    (hcalls : st'.calls = update st.calls t call) (hcall : call.Shows cap st')
    (hanswers : ∀ a ∈ st'.answers, a ∈ st.answers ∨ a.Shows cap st.sealed) : Contents cap st' := by
  have hg : Grows st st' :=
    ⟨by rw [hblocks], fun s => by rw [hsealed], hputs⟩
  refine ⟨fun s => ?_, ?_, fun s seg hseg => ?_, hpending, fun a ha => ?_⟩
  · rw [hsealed, current_congr hheads hblocks]
    exact h.held s
  · rw [hcalls]
    exact (Function.forall_update_iff st.calls fun _ call => call.Shows cap st').mpr
      ⟨hcall, fun t' _ => (h.calls t').mono hg fun s _ => by rw [hsealed]⟩
  · rw [hsealed] at hseg
    exact (h.sealed s seg hseg).mono hputs
  · rw [hsealed]
    exact (hanswers a ha).elim (h.answers a) id

variable (hworld : Invariant st.world)

include hworld

theorem Contents.getStep (hreaders : Readers st.world st.handle st.calls) (hs : GetStep t st st') :
    Contents cap st' := by
  have hshows := h.calls t
  have hstands :
      ∀ {call r}, st.calls t = call → st.handle t = some r → call.At (st.world.readers r) := by
    rintro call r rfl hr
    exact hreaders.stands t r hr
  have hkeep := hs.reads
  have hpending : ∀ s, (st'.pending s).From st'.puts := by
    rw [hkeep.guarded.1, hkeep.watched.2]
    exact h.pending
  have hputs : ∀ q ∈ st.puts, q ∈ st'.puts := by
    rw [hkeep.watched.2]
    exact fun q hq => hq
  cases hs with
  | acquire hcall hcell =>
    rw [hcall] at hshows
    exact h.go hkeep.cells.1 hkeep.cells.2 rfl hputs hpending rfl hshows fun a ha => .inl ha
  | pin hcall hr hcell =>
    rw [hcall] at hshows
    exact h.go hkeep.cells.1 hkeep.cells.2 rfl hputs hpending rfl ⟨hshows.1, hshows.2.1, trivial⟩
      fun a ha => .inl ha
  | @loadBlock world hash _ _ r b hcall hr hcell hpc =>
    rw [hcall] at hshows
    have hheld := h.held (shardOf hash)
    obtain ⟨hheads, hblocks, hseen⟩ := load_seen hcell (hstands hcall hr).1
    rw [hpc] at hseen
    have hhead : st.world.heads (shardOf hash) = .block b := by
      cases hhead : st.world.heads (shardOf hash) <;> rw [hhead] at hseen <;> cases hseen
      rfl
    have hlive := hworld.pools.live (shardOf hash) b
      (mem_append_left _ (by rw [hhead]; exact mem_singleton_self b))
    have hcur : current world (shardOf hash) = some (setAt world b) := by
      rw [current, hheads, hhead]
    rw [← current_congr hheads hblocks, hcur] at hheld
    exact h.go hheads hblocks rfl hputs hpending rfl
      ⟨hshows.1.trans hshows.2.1, suffix_rfl, hblocks ▸ hlive.1, hheld⟩ fun a ha => .inl ha
  | @loadEmpty _ hash _ _ r hcall hr hcell hpc =>
    rw [hcall] at hshows
    have hheld := h.held (shardOf hash)
    obtain ⟨hheads, hblocks, hseen⟩ := load_seen hcell (hstands hcall hr).1
    rw [hpc] at hseen
    have hhead : st.world.heads (shardOf hash) = .empty := by
      cases hhead : st.world.heads (shardOf hash) <;> rw [hhead] at hseen <;> cases hseen
    rw [current, hhead] at hheld
    exact h.go hheads hblocks rfl hputs hpending rfl
      ⟨hshows.1.trans hshows.2.1, suffix_rfl, hheld⟩ fun a ha => .inl ha
  | tighten hcall hr hcell =>
    rw [hcall] at hshows
    cases hcell
    exact h.go rfl rfl rfl hputs hpending rfl hshows fun a ha => .inl ha
  | clone hcall =>
    rw [hcall] at hshows
    exact h.go rfl rfl rfl hputs hpending rfl ⟨hshows.1, hshows.2.1,
      hshows.2.2.2⟩ fun a ha => .inl ha
  | drop hcall hr hcell =>
    rw [hcall] at hshows
    refine h.go hkeep.cells.1 hkeep.cells.2 rfl hputs hpending rfl trivial fun a ha => ?_
    rcases mem_cons.mp ha with rfl | ha
    · exact .inr ⟨hshows.1, hshows.2.1, _, hshows.2.2, rfl⟩
    · exact .inl ha
  | leave hcall hr hcell =>
    rw [hcall] at hshows
    refine h.go hkeep.cells.1 hkeep.cells.2 rfl hputs hpending rfl trivial fun a ha => ?_
    rcases mem_cons.mp ha with rfl | ha
    · exact .inr ⟨hshows.1, hshows.2.1, none, hshows.2.2, rfl⟩
    · exact .inl ha

theorem Contents.publish (hlocks : Locks st.calls st.locked) {job : Job} {set : SegSet} {epoch : ℕ}
    (hcall : st.calls t = .write job (.publish seg set epoch)) {w : BridgedCell.Writer} :
    Contents cap { st.to t (.write job .watermark) with
      world := st.world.publish outline job.shard set epoch w
      sealed := update st.sealed job.shard (seg :: st.sealed job.shard) } := by
  have hshows := h.calls t
  rw [hcall] at hshows
  have hg : Grows st { st.to t (.write job .watermark) with
      world := st.world.publish outline job.shard set epoch w
      sealed := update st.sealed job.shard (seg :: st.sealed job.shard) } := by
    refine ⟨prefix_append _ _, fun s => ?_, fun q hq => hq⟩
    by_cases hs : s = job.shard
    · subst hs
      simp only [update_self]
      exact suffix_cons _ _
    · simp only [update_of_ne hs]
      exact suffix_rfl
  refine ⟨fun s => ?_, ?_, fun s seg' hseg => ?_, h.pending,
    fun a ha => (h.answers a ha).mono hg.sealed⟩
  · by_cases hs : s = job.shard
    · subst hs
      have hcur :
          current (st.world.publish outline job.shard set epoch w) job.shard = some set := by
        simp [current, World.publish, World.published, setAt]
      simp only [update_self, hcur]
      exact hshows.2
    · have hcur :
          current (st.world.publish outline job.shard set epoch w) s = current st.world s := by
        simp only [current, World.publish, World.published, update_of_ne hs, reduceCtorEq, if_false]
        cases hhead : st.world.heads s with
        | block b =>
          have hlive := hworld.pools.live s b
            (mem_append_left _ (by rw [hhead]; exact mem_singleton_self b))
          simp only [setAt, getElem?_append_left hlive.1]
        | _ => rfl
      simp only [update_of_ne hs, hcur]
      exact h.held s
  · refine (Function.forall_update_iff st.calls fun _ call => call.Shows cap _).mpr
      ⟨trivial, fun t' ht => (h.calls t').mono hg fun s hholds => ?_⟩
    -- the other one has the mutex of another shard
    have hs : s ≠ job.shard := by
      rintro rfl
      have howner := hlocks t' _ hholds
      rw [hlocks t job.shard (by rw [hcall]; rfl)] at howner
      exact ht (some.inj howner).symm
    simp only [update_of_ne hs]
  · by_cases hs : s = job.shard
    · subst hs
      simp only [update_self] at hseg
      rcases mem_cons.mp hseg with rfl | hseg
      · exact hshows.1
      · exact h.sealed _ seg' hseg
    · simp only [update_of_ne hs] at hseg
      exact h.sealed s seg' hseg

theorem Contents.step (hreaders : Readers st.world st.handle st.calls)
    (hlocks : Locks st.calls st.locked) (hs : QhmStep cap block a st st') : Contents cap st' := by
  have hquiet : ∀ {t call}, call.Shows cap st → Contents cap (st.to t call) := by
    intro t call hcall
    refine h.go rfl rfl rfl (fun q hq => hq) h.pending rfl ?_ fun a ha => .inl ha
    exact hcall.mono ⟨prefix_rfl, fun _ => suffix_rfl, fun q hq => hq⟩ fun _ _ => rfl
  cases hs with
  | @get _ t hash hidle =>
    refine hquiet ⟨suffix_rfl, suffix_rfl, ?_⟩
    cases st.handle t <;> trivial
  | put | flush => exact hquiet trivial
  | reader hs => exact h.getStep hworld hreaders hs
  | @writer _ _ t hs =>
    have hshows := h.calls t
    cases hs with
    | @lock job hcall hfree =>
      have henter := Job.enter_from cap block job (h.pending job.shard)
      have hputs : ∀ q ∈ st.puts, q ∈ job.stored (st.pending job.shard) ++ st.puts :=
        fun q hq => mem_append_right _ hq
      refine h.go rfl rfl rfl hputs (fun s => ?_) rfl (henter.2 _) fun a ha => .inl ha
      by_cases hs : s = job.shard
      · subst hs
        simp only [update_self]
        exact henter.1
      · simp only [update_of_ne hs]
        exact (h.pending s).mono hputs
    | read hcall =>
      rw [hcall] at hshows
      exact hquiet ⟨hshows, (h.held _).newSet _⟩
    | count hcall =>
      rw [hcall] at hshows
      exact h.go rfl rfl rfl (fun q hq => hq) h.pending rfl hshows fun a ha => .inl ha
    | publish hcall hcell =>
      cases hcell
      exact h.publish hworld hlocks hcall
    | below | skip | swept | starved =>
      exact h.go rfl rfl rfl (fun q hq => hq) h.pending rfl trivial fun a ha => .inl ha
    | reclaim hcall hlen hskip hcell =>
      cases hcell
      exact h.go rfl rfl rfl (fun q hq => hq) h.pending rfl trivial fun a ha => .inl ha
    | sweep hcall hbusy hcell =>
      cases hcell
      obtain ⟨hheads, hblocks, -⟩ := next_same st.world _
      refine h.go hheads hblocks rfl (fun q hq => hq) h.pending (update_eq_self t st.calls).symm ?_
        fun a ha => .inl ha
      rw [hcall]
      trivial
    | unlock hcall =>
      refine h.go rfl rfl rfl (fun q hq => hq) h.pending rfl ?_ fun a ha => .inl ha
      rcases Job.after_cases _ with heq | ⟨s, heq⟩ <;> rw [heq] <;> trivial

end

end

/-! ### Runs -/

structure Inv (cap : ℕ) (st : QhmState τ) : Prop where
  world : Invariant st.world
  readers : Readers st.world st.handle st.calls
  counts : Counts st
  locks : Locks st.calls st.locked
  contents : Contents cap st

section
variable {st st' : QhmState τ} {t : τ} {cap block : ℕ} {a : QhmAction τ} {hash : String}
  {since seen : List Segment} {b : ℕ}

omit [DecidableEq τ] in
theorem Inv.start : Inv cap (.start : QhmState τ) where
  world := .new
  readers := ⟨nofun, nofun, nofun, nofun⟩
  counts := .start
  locks := nofun
  contents := ⟨fun _ => ⟨.nil, nofun⟩, fun _ => trivial, nofun, nofun, nofun⟩

theorem Inv.step (h : Inv cap st) (hs : QhmStep cap block a st st') (hseals : st'.seals < 2 ^ 64) :
    Inv cap st' where
  world := world_step h.world h.readers h.counts.blocks hs
  readers := h.readers.step h.world hs
  counts := h.counts.step hs hseals
  locks := h.locks.step hs
  contents := h.contents.step h.world h.readers h.locks hs

variable {st₀ : QhmState τ} {sealed : List Segment} {cur : Option SegSet} {bytes : Bytes}

theorem reads_on (t : τ) (hrun : Reaches (QhmStep cap block) anyAction st₀ st)
    (hs : GetStep t st st') : Reaches (QhmStep cap block) anyAction st₀ st' :=
  hrun.next (a := .next t) trivial (.reader hs)

theorem writes_on (t : τ) (hrun : Reaches (QhmStep cap block) anyAction st₀ st)
    (hs : SealStep cap block t st st') : Reaches (QhmStep cap block) anyAction st₀ st' :=
  hrun.next (a := .next t) trivial (.writer hs)

theorem inv_of_reaches (hrun : Reaches (QhmStep cap block) anyAction .start st)
    (hseals : st.seals < 2 ^ 64) : Inv cap st :=
  hrun.invariant (I := fun st => st.seals < 2 ^ 64 → Inv cap st)
    (fun h _ hs hseals => (h ((seals_le hs).trans_lt hseals)).step hs hseals)
    (fun _ => .start) hseals

omit [DecidableEq τ] in
/-- The block that a look-up reads is live. -/
theorem Inv.get_live (h : Inv cap st) (hcall : st.calls t = .get hash (.tighten b) since seen ∨
    st.calls t = .get hash (.clone b) since seen) : b ∉ st.world.freed := by
  rcases hcall with hcall | hcall
  · obtain ⟨r, hr⟩ := h.readers.has t (by rw [hcall]; nofun)
    have hstands := h.readers.stands t r hr
    rw [hcall] at hstands
    exact h.world.live r b (.inl hstands.1)
  · obtain ⟨r, hr⟩ := h.readers.has t (by rw [hcall]; nofun)
    have hstands := h.readers.stands t r hr
    rw [hcall] at hstands
    obtain ⟨-, epoch, wasStacked, hrefs⟩ := hstands
    exact h.world.live r b (.inr ⟨epoch, wasStacked, by rw [hrefs]; exact mem_singleton_self _⟩)

theorem Held.total_le {set : SegSet} (h : Held cap sealed (some set)) :
    set.total ≤ max cap ((set.segs.head?.map Segment.len).getD 0) := by
  rw [h.total set rfl]
  have hfits : size Segment.len set.segs ≤ cap ∨ set.segs.length ≤ 1 := h.kept.fits
  rcases hfits with hcap | hone
  · exact hcap.trans (le_max_left _ _)
  · cases hsegs : set.segs with
    | nil => exact Nat.zero_le _
    | cons newest rest =>
      rw [hsegs, length_cons] at hone
      obtain rfl := length_eq_zero_iff.mp (Nat.le_zero.mp (Nat.le_of_succ_le_succ hone))
      exact le_max_right _ _

theorem lookup_eq (cur : Option SegSet) (hash : String) :
    cur.bind (·.lookup hash) = ((cur.map SegSet.segs).getD []).findSome? (·.get hash) := by
  cases cur <;> rfl

/-- What a look-up answers is in a batch that was sealed. -/
theorem Held.lookup_mem (h : Held cap sealed cur)
    (hlookup : cur.bind (·.lookup hash) = some bytes) :
    ∃ seg ∈ sealed, (hash, bytes) ∈ seg.entries := by
  rw [lookup_eq] at hlookup
  obtain ⟨seg, hseg, hget⟩ := exists_of_findSome?_eq_some hlookup
  obtain ⟨l₁, l₂, hentries, -⟩ := lookup_eq_some_iff.mp hget
  refine ⟨seg, h.kept.front.subset hseg, ?_⟩
  rw [hentries]
  exact mem_append_right _ mem_cons_self

/-- A batch that fits with those sealed after it is found, or one of them. -/
theorem Held.lookup_found {newer older : List Segment} {seg : Segment}
    (h : Held cap (newer ++ seg :: older) cur)
    (hget : seg.get hash = some bytes) (hfits : size Segment.len newer + seg.len ≤ cap) :
    cur.bind (·.lookup hash) = some ((newer.findSome? (·.get hash)).getD bytes) := by
  have hfront : newer ++ [seg] <+: newer ++ seg :: older := ⟨older, (append_cons ..).symm⟩
  obtain ⟨rest, hrest⟩ := h.kept.most _ hfront (by simpa using hfits)
  rw [lookup_eq, ← hrest, findSome?_append, findSome?_append, findSome?_singleton, hget]
  cases newer.findSome? (·.get hash) <;> rfl

/-- A look-up answers with what was stored, from a live block, and the sets of the shards are
bounded: in a run in which the counter of epochs does not come round. A batch that was sealed when
the look-up loaded the head is found as long as it fits the cap with those sealed after it. -/
theorem qhm_serves (cap block : ℕ) (hrun : Reaches (QhmStep cap block) anyAction .start st)
    (hseals : st.seals < 2 ^ 64) :
    (∀ t hash b since seen, st.calls t = .get hash (.tighten b) since seen ∨
      st.calls t = .get hash (.clone b) since seen → b ∉ st.world.freed) ∧
    (∀ s b, st.world.heads s = .block b → b ∉ st.world.freed) ∧
    (∀ a ∈ st.answers, a.bytes = [] ∨ (a.hash, a.bytes) ∈ st.puts) ∧
    (∀ s set, current st.world s = some set → set.total = size Segment.len set.segs ∧
      set.total ≤ max cap ((set.segs.head?.map Segment.len).getD 0)) ∧
    ∀ a ∈ st.answers, a.since <:+ a.seen ∧ a.seen <:+ st.sealed (shardOf a.hash) ∧
      ∀ newer seg older bytes, a.seen = newer ++ seg :: older → seg.get a.hash = some bytes →
        size Segment.len newer + seg.len ≤ cap →
        a.bytes = (newer.findSome? (·.get a.hash)).getD bytes := by
  have h := inv_of_reaches hrun hseals
  refine ⟨fun t hash b since seen hcall => h.get_live hcall, fun s b hhead => ?_, fun a ha => ?_,
    fun s set hcur => ?_, fun a ha => ?_⟩
  · exact (h.world.pools.live s b (mem_append_left _ (by rw [hhead]; exact mem_singleton_self b))).2
  · obtain ⟨-, hseen, cur, hheld, hbytes⟩ := h.contents.answers a ha
    cases hlookup : cur.bind (·.lookup a.hash) with
    | none =>
      rw [hlookup] at hbytes
      exact .inl hbytes
    | some bytes =>
      rw [hlookup, getD_some] at hbytes
      obtain ⟨seg, hseg, hmem⟩ := hheld.lookup_mem hlookup
      rw [hbytes]
      exact .inr (h.contents.sealed _ seg (hseen.subset hseg) _ hmem)
  · have hheld := h.contents.held s
    rw [hcur] at hheld
    exact ⟨hheld.total set rfl, hheld.total_le⟩
  · obtain ⟨hsince, hseen, cur, hheld, hbytes⟩ := h.contents.answers a ha
    refine ⟨hsince, hseen, fun newer seg older bytes heq hget hfits => ?_⟩
    rw [heq] at hheld
    rw [hbytes, hheld.lookup_found hget hfits, getD_some]

end

/-- A put that seals a batch of one entry, and a look-up that finds it. -/
theorem qhm_serves_run : ∃ (st : QhmState Unit) (a : Answer),
    Reaches (QhmStep (perShardCap none) 1) anyAction .start st ∧ st.answers = [a] ∧ a.bytes = [7] ∧
      (a.bytes = [] ∨ (a.hash, a.bytes) ∈ st.puts) := by
  have hput : Reaches (QhmStep (perShardCap none) 1) anyAction (.start : QhmState Unit) _ :=
    .of_step (a := .put () "a" [7]) trivial (.put rfl)
  have hlock := writes_on () hput (.lock rfl rfl)
  have hread := writes_on () hlock
    (.read (show _ = Call.write (.put "a" [7]) (.read (Segment.empty.insert "a" [7])) from rfl))
  have hcount := writes_on () hread (.count rfl)
  have hpublish :=
    writes_on () hcount (.publish rfl (.writeWithEpoch rfl (Nat.mod_lt _ (Nat.two_pow_pos 64))))
  have hbelow := writes_on () hpublish (.below rfl (by
    simp only [World.publish, update_self]
    decide))
  have hunlock := writes_on () hbelow (.unlock rfl)
  have hget := hunlock.next (a := .get () "a") trivial (.get rfl)
  have hacquire := reads_on () hget (.acquire rfl (.acquire (by decide)))
  have hpin := reads_on () hacquire (.pin rfl rfl (.pin (by decide) rfl))
  have hload := reads_on () hpin (.loadBlock (b := 0) rfl rfl
    (.load (c := shardOf "a") rfl) (by
      simp only [World.setReader, World.publish, World.published, update_self]
      rfl))
  have htighten := reads_on () hload (.tighten rfl rfl (.tighten (b := 0) (by
      simp only [World.setReader, World.publish, World.published, update_self]
      rfl)))
  have hclone := reads_on () htighten (.clone rfl)
  have hdrop := reads_on () hclone (.drop rfl rfl
    (.dropBlock rfl (show _ = some (BridgedCell.ReadRef.block 0 1 true) from rfl)))
  exact ⟨_, _, hdrop, rfl, rfl,
    (qhm_serves _ _ hdrop (show 1 < 2 ^ 64 by decide)).2.2.1 _ (mem_singleton_self _)⟩

/-! ### A counter that comes round -/

variable {st st' : QhmState Bool} {cap : ℕ} {hash : String} {bytes : Bytes} {job : Job}
  {before b : ℕ} {world : World (Fin NSHARDS) SegSet}

/-- The writer `true` is between its puts of one hash. -/
structure Quiet (hash : String) (st : QhmState Bool) : Prop where
  idle : st.calls true = .idle
  unlocked : st.locked (shardOf hash) = none
  pending : st.pending (shardOf hash) = .empty
  writer : (st.world.writers (shardOf hash)).pc = .idle

/-- What the writer leaves as it was while it looks after the retired blocks. -/
structure Aside (st st' : QhmState Bool) : Prop where
  reader : st'.calls false = st.calls false ∧ st'.handle = st.handle
  epoch : st'.epoch = st.epoch
  cells : st'.world.heads = st.world.heads ∧ st'.world.blocks = st.world.blocks
  slots : st'.world.readers = st.world.readers ∧ st'.world.handles = st.world.handles ∧
    st'.world.slots = st.world.slots

theorem sweeps_reach (hcall : st.calls true = .write job (.reclaim before))
    (hends : BridgedCell.Ends job.shard st.world world) :
    Reaches (QhmStep cap 1) anyAction st { st with world } := by
  induction hends with
  | refl => exact .refl st
  | tail _ hstep ih =>
    obtain ⟨hbusy, rfl⟩ := hstep
    exact writes_on true ih (.sweep hcall hbusy .next)

/-- The end of a put: where the retired blocks are swept, those of epoch 0 are freed. -/
theorem watermark_quiet {st₀ : QhmState Bool} (hrun : Reaches (QhmStep cap 1) anyAction st₀ st)
    (hcall : st.calls true = .write (.put hash bytes) .watermark)
    (hpending : st.pending (shardOf hash) = .empty)
    (hwriter : (st.world.writers (shardOf hash)).pc = .idle) (hslots : ∀ r, 1 ≤ st.world.slots r) :
    ∃ st', Reaches (QhmStep cap 1) anyAction st₀ st' ∧ Quiet hash st' ∧
      Aside st st' ∧ (st'.world.writers (shardOf hash) = st.world.writers (shardOf hash) ∧
      ((st.world.writers (shardOf hash)).retired.length < WATERMARK ∧ st'.skip (shardOf hash) =
      st.skip (shardOf hash) ∨ WATERMARK ≤ (st.world.writers (shardOf hash)).retired.length ∧
      st'.skip (shardOf hash) + 1 = st.skip (shardOf hash)) ∨
      ∀ b, (b, 0) ∈ (st.world.writers (shardOf hash)).retired → b ∈ st'.world.freed) := by
  rcases lt_or_ge (st.world.writers (shardOf hash)).retired.length WATERMARK with hlt | hge
  · have hbelow := writes_on true hrun (.below hcall hlt)
    exact ⟨_, writes_on true hbelow (.unlock rfl), ⟨rfl, update_self .., hpending, hwriter⟩,
      ⟨⟨rfl, rfl⟩, rfl, ⟨rfl, rfl⟩, rfl, rfl, rfl⟩, .inl ⟨rfl, .inl ⟨hlt, rfl⟩⟩⟩
  · cases hskip : st.skip (shardOf hash) with
    | succ n =>
      have hskipped := writes_on true hrun (.skip hcall hge hskip)
      exact ⟨_, writes_on true hskipped (.unlock rfl), ⟨rfl, update_self .., hpending, hwriter⟩,
        ⟨⟨rfl, rfl⟩, rfl, ⟨rfl, rfl⟩, rfl, rfl, rfl⟩,
        .inl ⟨rfl, .inr ⟨hge, congrArg (· + 1) (update_self ..)⟩⟩⟩
    | zero =>
      have hreclaim := writes_on true hrun (.reclaim hcall hge hskip (.reclaim hwriter))
      have hscan : (st.world.setWriter (shardOf hash)
          { st.world.writers (shardOf hash) with pc := .scan none 0 idleFloor }).writers
            (shardOf hash) = _ := update_self ..
      obtain ⟨world, hends, hidle, -, hfreed⟩ := scan_ends hscan
        (show 1 ≤ idleFloor by decide) hslots
      obtain ⟨hheads, hblocks, hsame⟩ := hends.same
      have hsweep := hreclaim.trans (sweeps_reach rfl hends)
      have hzero : ∀ b, (b, 0) ∈ (st.world.writers (shardOf hash)).retired → b ∈ world.freed :=
        fun b hb => hfreed (b, 0) hb Nat.one_pos
      rcases lt_or_ge (world.writers (shardOf hash)).retired.length
        (st.world.writers (shardOf hash)).retired.length with hless | hall
      · have hswept := writes_on true hsweep (.swept rfl hidle hless)
        exact ⟨_, writes_on true hswept (.unlock rfl), ⟨rfl, update_self .., hpending, hidle⟩,
          ⟨⟨rfl, rfl⟩, rfl, ⟨hheads, hblocks⟩, hsame⟩, .inr hzero⟩
      · have hstarved := writes_on true hsweep (.starved rfl hidle hall)
        exact ⟨_, writes_on true hstarved (.unlock rfl), ⟨rfl, update_self .., hpending, hidle⟩,
          ⟨⟨rfl, rfl⟩, rfl, ⟨hheads, hblocks⟩, hsame⟩, .inr hzero⟩

/-- The writer's side of the cell once the block at the head is retired. -/
def nextWriter (hash : String) (st : QhmState Bool) : BridgedCell.Writer :=
  (st.world.writers (shardOf hash)).retire st.world.blocks (st.world.heads (shardOf hash))

/-- A put of the writer has sealed one more batch. -/
structure Seals (hash : String) (st st' : QhmState Bool) : Prop where
  quiet : Quiet hash st'
  reader : st'.calls false = st.calls false ∧ st'.handle = st.handle
  epoch : st'.epoch = (st.epoch + 1) % 2 ^ 64
  head : ∃ b, st'.world.heads (shardOf hash) = .block b ∧
    blockEpoch st'.world.blocks b = (st.epoch + 1) % 2 ^ 64
  slots : st'.world.readers = st.world.readers ∧ st'.world.handles = st.world.handles ∧
    st'.world.slots = st.world.slots
  retired : st'.world.writers (shardOf hash) = nextWriter hash st ∧
      ((nextWriter hash st).retired.length < WATERMARK ∧ st'.skip (shardOf hash) =
        st.skip (shardOf hash) ∨ WATERMARK ≤ (nextWriter hash st).retired.length ∧
          st'.skip (shardOf hash) + 1 = st.skip (shardOf hash)) ∨
    ∀ b, (b, 0) ∈ (nextWriter hash st).retired → b ∈ st'.world.freed

/-- A put of the writer up to its publish. -/
theorem put_publishes (cap : ℕ) (h : Quiet hash st) :
    ∃ st₁ set, Reaches (QhmStep cap 1) anyAction st st₁ ∧
      st₁.calls true = .write (.put hash []) .watermark ∧ st₁.pending (shardOf hash) = .empty ∧
      (st₁.calls false = st.calls false ∧ st₁.handle = st.handle) ∧ st₁.epoch =
      (st.epoch + 1) % 2 ^ 64 ∧ st₁.skip = st.skip ∧ st₁.world = st.world.publish outline
      (shardOf hash) set ((st.epoch + 1) % 2 ^ 64) (nextWriter hash st) := by
  have henter : (Job.put hash []).enter 1 (st.pending (shardOf hash)) =
      (.empty, .read (Segment.empty.insert hash [])) := by
    rw [h.pending]
    rfl
  have hput : Reaches (QhmStep cap 1) anyAction st _ :=
    .of_step (a := .put true hash []) trivial (.put h.idle)
  have hlock := writes_on true hput (.lock rfl h.unlocked)
  have hread := writes_on true hlock (.read (
      show Call.write (.put hash []) ((Job.put hash []).enter 1 (st.pending (shardOf hash))).2 =
        _ by
        rw [henter]))
  have hcount := writes_on true hread (.count rfl)
  have hpublish := writes_on true hcount
    (.publish rfl (.writeWithEpoch h.writer (Nat.mod_lt _ (Nat.two_pow_pos 64))))
  exact ⟨_, _, hpublish, rfl, (update_self ..).trans (congrArg Prod.fst henter), ⟨rfl, rfl⟩, rfl,
    rfl, rfl⟩

theorem put_seals (cap : ℕ) (h : Quiet hash st) (hslots : ∀ r, 1 ≤ st.world.slots r) :
    ∃ st', Reaches (QhmStep cap 1) anyAction st st' ∧ Seals hash st st' := by
  obtain ⟨st₁, set, hrun, hcall, hpending, hreader, hepoch, hskip, hworld⟩ := put_publishes cap h
  have hwriters : st₁.world.writers (shardOf hash) = nextWriter hash st := by
    rw [hworld]
    exact update_self ..
  have hidle : (st₁.world.writers (shardOf hash)).pc = .idle := by
    rw [hwriters]
    exact (retire_owed h.writer _ _).2.1
  have hslots' : ∀ r, 1 ≤ st₁.world.slots r := by
    rw [hworld]
    exact hslots
  obtain ⟨st', hdone, hquiet, haside, hretired⟩ := watermark_quiet hrun hcall hpending hidle hslots'
  refine ⟨st', hdone, hquiet, ⟨haside.reader.1.trans hreader.1, haside.reader.2.trans hreader.2⟩,
    haside.epoch.trans hepoch, ⟨st.world.blocks.length, ?_, ?_⟩, ?_, ?_⟩
  · rw [haside.cells.1, hworld]
    exact update_self ..
  · rw [haside.cells.2, hworld]
    simp [World.publish, World.published, blockEpoch]
  · have hsame := haside.slots
    rw [hworld] at hsame
    exact hsame
  · rwa [hwriters, hskip] at hretired

/-- No reader has come yet. -/
structure Unread (st : QhmState Bool) : Prop where
  idle : st.calls false = .idle
  handle : st.handle false = none
  readers : st.world.readers = fun _ => .new
  handles : st.world.handles = 0
  slots : st.world.slots = fun _ => idleFloor

theorem seals_many (cap : ℕ) (hash : String) (n : ℕ) :
    ∃ st : QhmState Bool, Reaches (QhmStep cap 1) anyAction .start st ∧ Quiet hash st ∧
      Unread st ∧ st.epoch = n % 2 ^ 64 ∧ (0 < n → ∃ b, st.world.heads (shardOf hash) = .block b ∧
      blockEpoch st.world.blocks b = n % 2 ^ 64) := by
  induction n with
  | zero => exact ⟨.start, .refl _, ⟨rfl, rfl, rfl, rfl⟩, ⟨rfl, rfl, rfl, rfl, rfl⟩, rfl, nofun⟩
  | succ n ih =>
    obtain ⟨st, hrun, hquiet, hunread, hepoch, -⟩ := ih
    obtain ⟨st', hput, hseals⟩ := put_seals cap hquiet
      (fun r => by rw [hunread.slots]; exact show 1 ≤ idleFloor by decide)
    have hnext : (st.epoch + 1) % 2 ^ 64 = (n + 1) % 2 ^ 64 := by rw [hepoch, Nat.mod_add_mod]
    obtain ⟨hreaders, hhandles, hslots⟩ := hseals.slots
    refine ⟨st', hrun.trans hput, hseals.quiet,
      ⟨hseals.reader.1.trans hunread.idle, ?_, hreaders.trans hunread.readers,
      hhandles.trans hunread.handles, hslots.trans hunread.slots⟩, hseals.epoch.trans
        hnext, fun _ => ?_⟩
    · rw [hseals.reader.2]
      exact hunread.handle
    · rw [← hnext]
      exact hseals.head

/-- A reader comes and loads the head. -/
theorem get_loads (cap : ℕ) (hquiet : Quiet hash st) (h : Unread st)
    (hhead : st.world.heads (shardOf hash) = .block b) : ∃ st' since seen,
    Reaches (QhmStep cap 1) anyAction st st' ∧ Quiet hash st' ∧
      st'.calls false = .get hash (.tighten b) since seen ∧ (∀ r, 1 ≤ st'.world.slots r) ∧
      st'.world.heads = st.world.heads ∧ st'.world.blocks = st.world.blocks := by
  have hget : Reaches (QhmStep cap 1) anyAction st _ :=
    .of_step (a := .get false hash) trivial (.get h.idle)
  have hacquire := reads_on false hget (.acquire (
    show Call.get hash (if (st.handle false).isSome then .pin else .acquire)
        (st.sealed (shardOf hash)) (st.sealed (shardOf hash)) = _ by
      rw [h.handle]
      rfl) (.acquire (by
        change st.world.handles < _
        rw [h.handles]
        decide)))
  have hpin := reads_on false hacquire (.pin rfl rfl (.pin (Nat.lt_succ_self _) (by
    change (st.world.readers _).pc = _
    rw [h.readers]
    rfl)))
  have hload := reads_on false hpin (.loadBlock (b := b) rfl rfl
    (.load (c := shardOf hash) (by rw [setReader_self])) (by
      rw [setReader_self]
      change (st.world.heads (shardOf hash)).seen = _
      rw [hhead]
      rfl))
  refine ⟨_, _, _, hload, ⟨hquiet.idle, hquiet.unlocked, hquiet.pending, hquiet.writer⟩, rfl,
    fun r => ?_, rfl, rfl⟩
  change 1 ≤ update (update st.world.slots st.world.handles 1) st.world.handles
    (update st.world.slots st.world.handles 1 st.world.handles) r
  rw [update_self, update_idem, h.slots]
  by_cases hr : r = st.world.handles
  · rw [hr, update_self]
  · rw [update_of_ne hr]
    decide

/-- A block of epoch 0 that is at the head or retired is freed in the end, if the writer goes on. -/
theorem zero_freed (cap : ℕ) (hquiet : Quiet hash st) (hslots : ∀ r, 1 ≤ st.world.slots r)
    (hhead : ∃ b', st.world.heads (shardOf hash) = .block b')
    (hzero : st.world.heads (shardOf hash) = .block b ∧ blockEpoch st.world.blocks b = 0 ∨
      (b, 0) ∈ (st.world.writers (shardOf hash)).retired) :
    ∃ st', Reaches (QhmStep cap 1) anyAction st st' ∧ st'.calls false = st.calls false ∧
      b ∈ st'.world.freed := by
  induction hn : (WATERMARK - (st.world.writers (shardOf hash)).retired.length) + st.skip
    (shardOf hash) using Nat.strong_induction_on generalizing st with
  | _ n ih =>
    obtain ⟨b', hb'⟩ := hhead
    obtain ⟨st', hput, hseals⟩ := put_seals cap hquiet hslots
    have hretired : (nextWriter hash st).retired = (st.world.writers (shardOf hash)).retired ++
        [(b', blockEpoch st.world.blocks b')] := by
      rw [nextWriter, hb']
      rfl
    have hmem : (b, 0) ∈ (nextWriter hash st).retired := by
      rw [hretired]
      rcases hzero with ⟨hb, hepoch⟩ | hzero
      · obtain rfl := BridgedCell.Head.block.inj (hb'.symm.trans hb)
        rw [hepoch]
        exact mem_append_right _ (mem_singleton_self _)
      · exact mem_append_left _ hzero
    rcases hseals.retired with ⟨hwriter, hskip⟩ | hfreed
    · have hlen := congrArg List.length hretired
      rw [length_append, length_singleton] at hlen
      have hless : (WATERMARK - (st'.world.writers (shardOf hash)).retired.length) + st'.skip
          (shardOf hash) < n := by
        rw [hwriter, hlen]
        rw [hlen] at hskip
        omega
      obtain ⟨b'', hhead', -⟩ := hseals.head
      obtain ⟨st'', hrun, hcall, hb⟩ :=
        ih _ hless hseals.quiet (by rw [hseals.slots.2.2]; exact hslots)
        ⟨b'', hhead'⟩ (.inr (by rw [hwriter]; exact hmem)) rfl
      exact ⟨st'', hput.trans hrun, hcall.trans hseals.reader.1, hb⟩
    · exact ⟨st', hput, hseals.reader.1, hfreed b hmem⟩

/-- After 2^64 batches a look-up is about to read a block that is freed. -/
theorem qhm_epoch_wraps :
    ∃ (st : QhmState Bool) (hash : String) (b : ℕ) (since seen : List Segment),
      Reaches (QhmStep (perShardCap none) (blockSize none (some "1"))) anyAction .start st ∧
      st.calls false = .get hash (.tighten b) since seen ∧ b ∈ st.world.freed := by
  have hblock : blockSize none (some "1") = 1 := by decide +kernel
  rw [hblock]
  obtain ⟨st, hrun, hquiet, hunread, -, hhead⟩ := seals_many (perShardCap none) "a" (2 ^ 64)
  obtain ⟨b, hb, hepoch⟩ := hhead (Nat.two_pow_pos 64)
  obtain ⟨st₁, since, seen, hget, hquiet₁, hcall, hslots, hheads, hblocks⟩ :=
    get_loads (perShardCap none) hquiet hunread hb
  rw [← hheads] at hb
  rw [Nat.mod_self, ← hblocks] at hepoch
  obtain ⟨st₂, hfree, hcall₂, hmem⟩ :=
    zero_freed (perShardCap none) hquiet₁ hslots ⟨b, hb⟩ (.inl ⟨hb, hepoch⟩)
  exact ⟨st₂, "a", b, since, seen, (hrun.trans hget).trans hfree, hcall₂.trans hcall, hmem⟩

end AxisBridge.Qhm
