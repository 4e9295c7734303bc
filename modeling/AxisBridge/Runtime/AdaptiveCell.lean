import AxisBridge.Runtime.BridgedCell
import Mathlib.Data.Fintype.Pi

/-! The adaptive cell: a sequence-locked slot, and blocks while readers ask for pinned views. -/
namespace AxisBridge.AdaptiveCell
open Option List Function BridgedCell

open BridgedCell (World Reader ReadRef CellAction CellStep Head maxReaders idleFloor)

/-- The bytes of a value of `w` bytes. -/
abbrev Bytes (w : ℕ) : Type := Fin w → UInt8

/-! ### The control word -/

/-- `cnt << 1`, with the mode bit. -/
def ctrlWord (cnt : ℕ) (hot : Bool) : ℕ := cnt * 2 % 2 ^ 64 + hot.toNat

def isHot (c : ℕ) : Bool := c % 2 = 1

def inProgress (c : ℕ) : Bool := c / 2 % 2 = 1

def ctrlEpoch (c : ℕ) : ℕ := c / 4

def coolDown : ℕ := 64

def sweepPeriod : ℕ := 8192

/-- A call of `write`, with the control word it began with. -/
structure WriteCall (w : ℕ) where
  value : Bytes w
  c : ℕ

/-- Where the writer is: before `has_any_reader`, in `any_demand` before slot `i`, before the odd
store, in the copy before byte `n`, before `write_with_epoch`, before the even store, in
`reclaim`. -/
inductive WriterPc (w : ℕ)
  | idle
  | flag (call : WriteCall w)
  | scan (call : WriteCall w) (i : ℕ)
  | mark (call : WriteCall w) (goHot : Bool)
  | copy (call : WriteCall w) (goHot : Bool) (n : ℕ)
  | publish (call : WriteCall w)
  | commit (call : WriteCall w) (goHot : Bool)
  | sweep

/-- Where a reader is: in the loop of `read` or `read_pinned` before its first load of the control
word, in the copy before byte `n`, before the second load, in `read_ref`, with its ref before the
second load, before it drops the ref. -/
inductive ReaderPc (w : ℕ)
  | idle
  | demandLoad
  | demandStore
  | ctrl (pinned : Bool)
  | copy (pinned : Bool) (c0 n : ℕ) (buf : Bytes w)
  | recheck (pinned : Bool) (c0 : ℕ) (buf : Bytes w)
  | inRef
  | recheckMode
  | retry

/-- What a call has returned, and how many writes were complete when it began. -/
structure Answer (w : ℕ) where
  pair : Option (Bytes w × ℕ)
  began : ℕ

/-- A reader, with its answers from the newest on. -/
structure CallerState (w : ℕ) where
  pc : ReaderPc w
  began : ℕ
  answers : List (Answer w)

/-- The cell and its registry; the values of all writes so far and the number of complete ones. -/
structure Adaptive (w : ℕ) where
  world : World Unit (Bytes w)
  ctrl : ℕ
  slot : Bytes w
  coolStreak : ℕ
  hotWrites : ℕ
  demand : ℕ → Bool
  writer : WriterPc w
  readers : ℕ → CallerState w
  writes : List (Bytes w)
  completed : ℕ

variable {w : ℕ}

/-- `AdaptiveCell::new`; the bytes of the slot are not initialised. -/
def Adaptive.new (slot : Bytes w) : Adaptive w :=
  ⟨.new, 0, slot, 0, 0, fun _ => false, .idle, fun _ => ⟨.idle, 0, []⟩, [], 0⟩

/-- Whether a value is kept in the head word. -/
def small (w : ℕ) (_ : Unit) : Bool := w ≤ 4

/-! ### The writer -/

def Adaptive.return (st : Adaptive w) : Adaptive w :=
  { st with writer := .idle, completed := st.completed + 1 }

def Adaptive.startSweep (st : Adaptive w) : Adaptive w :=
  { st with
    world := st.world.setWriter () { st.world.writers () with pc := .scan none 0 idleFloor }
    writer := .sweep }

/-- Whether a write goes hot. -/
def Adaptive.decide (st : Adaptive w) (call : WriteCall w) (demand : Bool) : Adaptive w :=
  if demand then { st with coolStreak := 0, writer := .mark call true }
  else if isHot call.c then
    { st with
      coolStreak := st.coolStreak + 1, writer := .mark call (st.coolStreak + 1 < coolDown) }
  else { st with writer := .mark call false }

/-- The next step of the writer's call. -/
def Adaptive.writerNext (st : Adaptive w) : Adaptive w :=
  match st.writer with
  | .idle => st
  | .flag call =>
    if st.world.anyHandleEver then { st with writer := .scan call 0 } else st.decide call false
  | .scan call i =>
    if i < maxReaders then
      if st.demand i then st.decide call true else { st with writer := .scan call (i + 1) }
    else st.decide call false
  | .mark call goHot =>
    { st with ctrl := ctrlWord (call.c / 2 + 1) goHot, writer := .copy call goHot 0 }
  | .copy call goHot n =>
    if h : n < w then
      { st with
        slot := update st.slot ⟨n, h⟩ (call.value ⟨n, h⟩)
        writer := .copy call goHot (n + 1) }
    else { st with writer := if goHot then .publish call else .commit call false }
  | .publish call =>
    { st with
      world := st.world.publish (small w) () call.value (ctrlEpoch call.c + 1)
        ((st.world.writers ()).retire st.world.blocks (st.world.heads ()))
      writer := .commit call true }
  | .commit call goHot =>
    let even := { st with ctrl := ctrlWord (call.c / 2 + 2) goHot }
    if goHot then
      let counted := { even with hotWrites := st.hotWrites + 1 }
      if (st.hotWrites + 1) % sweepPeriod = 0 then counted.startSweep else counted.return
    else if isHot call.c then { even with coolStreak := 0 }.startSweep
    else even.return
  | .sweep =>
    match (st.world.writers ()).pc with
    | .idle => st.return
    | _ => { st with world := st.world.next () }

/-! ### The readers -/

def Adaptive.setPc (st : Adaptive w) (r : ℕ) (pc : ReaderPc w) : Adaptive w :=
  { st with readers := update st.readers r { st.readers r with pc } }

def Adaptive.answer (st : Adaptive w) (r : ℕ) (pair : Option (Bytes w × ℕ)) : Adaptive w :=
  { st with
    readers := update st.readers r
      { st.readers r with
        pc := .idle, answers := ⟨pair, (st.readers r).began⟩ :: (st.readers r).answers } }

/-- What a ref derefs to, with its epoch. -/
def deref (world : World Unit (Bytes w)) : ReadRef (Bytes w) → Option (Bytes w × ℕ)
  | .inline value epoch => some (value, epoch)
  | .block b epoch _ => world.blocks[b]?.map fun blk => (blk.value, epoch)

/-- The next step of a `read_ref` of the hot cell. -/
def refNext (world : World Unit (Bytes w)) (r : ℕ) : World Unit (Bytes w) :=
  let rd := world.readers r
  match rd.pc with
  | .idle => world.setReader r { rd with pc := .pinned () } 1
  | .pinned c => world.setReader r { rd with pc := (world.heads c).seen } (world.slots r)
  | .leave inner =>
    world.setReader r
      { rd with pc := .idle, refs := (inner.map fun q => .inline q.1 q.2).toList ++ rd.refs }
      idleFloor
  | .loaded b =>
    let rd := rd.pinBlock b (blockEpoch world.blocks b)
    world.setReader r rd rd.holds.floor

/-- `ReadRef::drop`. -/
def dropRef (world : World Unit (Bytes w)) (r k : ℕ) : World Unit (Bytes w) :=
  let rd := world.readers r
  match rd.refs[k]? with
  | some (.inline ..) =>
    world.setReader r { rd with refs := rd.refs.eraseIdx k } (world.slots r)
  | some (.block _ epoch wasStacked) =>
    world.setReader r
      { rd with holds := rd.holds.remove epoch wasStacked, refs := rd.refs.eraseIdx k }
      (rd.holds.remove epoch wasStacked).floor
  | none => world

/-- Where a `read_pinned` is after the next step of its `read_ref`. -/
def afterRef : BridgedCell.ReaderPc Unit (Bytes w) → ReaderPc w
  | .leave none => .ctrl true
  | .leave (some _) | .loaded _ => .recheckMode
  | _ => .inRef

/-- The next step of a reader's call. -/
def Adaptive.readerNext (st : Adaptive w) (r : ℕ) : Adaptive w :=
  match (st.readers r).pc with
  | .idle => st
  | .demandLoad => st.setPc r (if st.demand r then .ctrl true else .demandStore)
  | .demandStore => { st.setPc r (.ctrl true) with demand := update st.demand r true }
  | .ctrl pinned =>
    if st.ctrl / 2 = 0 then st.answer r none
    else if inProgress st.ctrl then st
    else if pinned && isHot st.ctrl then st.setPc r .inRef
    else st.setPc r (.copy pinned st.ctrl 0 fun _ => 0)
  | .copy pinned c0 n buf =>
    if h : n < w then
      st.setPc r (.copy pinned c0 (n + 1) (update buf ⟨n, h⟩ (st.slot ⟨n, h⟩)))
    else st.setPc r (.recheck pinned c0 buf)
  | .recheck pinned c0 buf =>
    if st.ctrl = c0 then st.answer r (some (buf, ctrlEpoch c0)) else st.setPc r (.ctrl pinned)
  | .inRef =>
    { st.setPc r (afterRef (st.world.readers r).pc) with world := refNext st.world r }
  | .recheckMode =>
    if isHot st.ctrl then st.answer r ((st.world.readers r).refs.head?.bind (deref st.world))
    else st.setPc r .retry
  | .retry => { st.setPc r (.ctrl true) with world := dropRef st.world r 0 }

inductive AdaptiveAction (w : ℕ)
  | acquire
  | write (value : Bytes w)
  | writer
  | read (r : ℕ)
  | readPinned (r : ℕ)
  | reader (r : ℕ)
  | drop (r k : ℕ)
  | releaseDemand (r : ℕ)

/-- One access to shared memory by the writer or a reader, or the begin of a call. -/
inductive AdaptiveStep : AdaptiveAction w → Adaptive w → Adaptive w → Prop
  | acquire {st} : st.world.handles < maxReaders →
      AdaptiveStep .acquire st
        { st with world :=
          { st.world with handles := st.world.handles + 1, anyHandleEver := true } }
  | write {st value} : st.writer = .idle →
      AdaptiveStep (.write value) st
        { st with writer := .flag ⟨value, st.ctrl⟩, writes := st.writes ++ [value] }
  | writer {st} : AdaptiveStep .writer st st.writerNext
  | read {st r} : (st.readers r).pc = .idle →
      AdaptiveStep (.read r) st
        { st with
          readers := update st.readers r
            { st.readers r with pc := .ctrl false, began := st.completed } }
  | readPinned {st r} : r < st.world.handles → (st.readers r).pc = .idle →
      AdaptiveStep (.readPinned r) st
        { st with
          readers := update st.readers r
            { st.readers r with pc := .demandLoad, began := st.completed } }
  | reader {st r} : AdaptiveStep (.reader r) st (st.readerNext r)
  | drop {st r k} : (st.readers r).pc = .idle →
      AdaptiveStep (.drop r k) st { st with world := dropRef st.world r k }
  | releaseDemand {st r} : r < st.world.handles → (st.readers r).pc = .idle →
      AdaptiveStep (.releaseDemand r) st { st with demand := update st.demand r false }

/-- The epoch of a write fits the control word, and the head word where a small value goes there. -/
def InRange (st : Adaptive w) : AdaptiveAction w → Prop
  | .write _ => st.writes.length + 1 < 2 ^ 62
  | .writer => ∀ call, st.writer = .publish call → w ≤ 4 → ctrlEpoch call.c + 1 < 2 ^ 31
  | _ => True

/-! ### Words in order -/

/-- The control word with `m` writes complete, one more in progress or none, in a mode. -/
def word (m : ℕ) (busy hot : Bool) : ℕ := 4 * m + 2 * busy.toNat + hot.toNat

/-- The epoch of the next word that is even. -/
def nextEpoch (c : ℕ) : ℕ := (c / 2 + 1) / 2

theorem ctrlEpoch_word (m : ℕ) (busy hot : Bool) : ctrlEpoch (word m busy hot) = m := by
  unfold ctrlEpoch word
  cases busy <;> cases hot <;> simp only [Bool.toNat_true, Bool.toNat_false] <;> omega

theorem inProgress_word (m : ℕ) (busy hot : Bool) : inProgress (word m busy hot) = busy := by
  unfold inProgress word
  cases busy <;> cases hot <;>
    simp only [Bool.toNat_true, Bool.toNat_false, decide_eq_true_eq, decide_eq_false_iff_not] <;>
      omega

theorem isHot_word (m : ℕ) (busy hot : Bool) : isHot (word m busy hot) = hot := by
  unfold isHot word
  cases busy <;> cases hot <;>
    simp only [Bool.toNat_true, Bool.toNat_false, decide_eq_true_eq, decide_eq_false_iff_not] <;>
      omega

theorem nextEpoch_word (m : ℕ) (busy hot : Bool) :
    nextEpoch (word m busy hot) = m + busy.toNat := by
  unfold nextEpoch word
  cases busy <;> cases hot <;> simp only [Bool.toNat_true, Bool.toNat_false] <;> omega

theorem nextEpoch_mono {c c' : ℕ} (h : c ≤ c') : nextEpoch c ≤ nextEpoch c' := by
  unfold nextEpoch
  omega

theorem word_lt {m m' : ℕ} (busy hot : Bool) (hm : m < m') (busy' hot' : Bool) :
    word m busy hot < word m' busy' hot' := by
  have h₁ := busy.toNat_le
  have h₂ := hot.toNat_le
  unfold word
  omega

theorem word_lt_busy (m : ℕ) (hot hot' : Bool) : word m false hot < word m true hot' := by
  have h := hot.toNat_le
  unfold word
  simp only [Bool.toNat_true, Bool.toNat_false]
  omega

/-- The odd store of a write. -/
theorem ctrlWord_mark {m : ℕ} (hm : m + 1 < 2 ^ 62) (hot goHot : Bool) :
    ctrlWord (word m false hot / 2 + 1) goHot = word m true goHot := by
  have h := hot.toNat_le
  have hcnt : (word m false hot / 2 + 1) * 2 = 4 * m + 2 := by
    unfold word
    simp only [Bool.toNat_false]
    omega
  rw [ctrlWord, hcnt, Nat.mod_eq_of_lt (by omega), word, Bool.toNat_true]

/-- The even store of a write. -/
theorem ctrlWord_commit {m : ℕ} (hm : m + 1 < 2 ^ 62) (hot goHot : Bool) :
    ctrlWord (word m false hot / 2 + 2) goHot = word (m + 1) false goHot := by
  have h := hot.toNat_le
  have hcnt : (word m false hot / 2 + 2) * 2 = 4 * (m + 1) := by
    unfold word
    simp only [Bool.toNat_false]
    omega
  rw [ctrlWord, hcnt, Nat.mod_eq_of_lt (by omega), word, Bool.toNat_false]
  rfl

/-! ### What a state has of the writes -/

/-- The value of the write that produced the epoch. -/
def Wrote (writes : List (Bytes w)) (value : Bytes w) (epoch : ℕ) : Prop :=
  1 ≤ epoch ∧ writes[epoch - 1]? = some value

/-- The value and the epoch at the head of the block path. -/
def headPair (world : World Unit (Bytes w)) : Option (Bytes w × ℕ) :=
  match world.heads () with
  | .empty => none
  | .inline value epoch => some (value, epoch)
  | .block b => world.blocks[b]?.map fun blk => (blk.value, blk.epoch)

def Answer.epoch (a : Answer w) : ℕ := (a.pair.map Prod.snd).getD 0

/-- An epoch that a call of the reader may return now. -/
def Covers (rd : CallerState w) (epoch : ℕ) : Prop :=
  rd.began ≤ epoch ∧ ∀ a ∈ rd.answers, a.epoch ≤ epoch

structure CellOk (st : Adaptive w) : Prop where
  slot : ∀ m hot, st.ctrl = word m false hot → 1 ≤ m → Wrote st.writes st.slot m
  hot : ∀ m, st.ctrl = word m false true → ∃ value, headPair st.world = some (value, m)
  blocks : ∀ blk ∈ st.world.blocks,
    Wrote st.writes blk.value blk.epoch ∧ blk.epoch ≤ nextEpoch st.ctrl
  head : ∀ value epoch, headPair st.world = some (value, epoch) →
    Wrote st.writes value epoch ∧ epoch ≤ nextEpoch st.ctrl
  small : w ≤ 4 → st.world.blocks = []
  large : 4 < w → ∀ value epoch, st.world.heads () ≠ .inline value epoch

/-- A call of `write` that has not reached its even store. -/
structure Calls (st : Adaptive w) (call : WriteCall w) : Prop where
  open_call : st.completed + 1 = st.writes.length
  range : st.completed + 1 < 2 ^ 62
  began : ∃ hot, call.c = word st.completed false hot
  value : Wrote st.writes call.value (st.completed + 1)

def WriterOk (st : Adaptive w) : Prop :=
  match st.writer with
  | .idle => (∃ hot, st.ctrl = word st.completed false hot) ∧ st.completed = st.writes.length
  | .flag call | .scan call _ | .mark call _ => Calls st call ∧ st.ctrl = call.c
  | .copy call goHot n => Calls st call ∧ st.ctrl = word st.completed true goHot ∧
      ∀ i, i.val < n → st.slot i = call.value i
  | .publish call => Calls st call ∧ st.ctrl = word st.completed true true ∧ st.slot = call.value
  | .commit call goHot => Calls st call ∧ st.ctrl = word st.completed true goHot ∧
      st.slot = call.value ∧
      (goHot = true → ∃ value, headPair st.world = some (value, st.completed + 1))
  | .sweep => (∃ hot, st.ctrl = word (st.completed + 1) false hot) ∧
      st.completed + 1 = st.writes.length

/-- A value and an epoch that a call of the reader may return. -/
def Good (st : Adaptive w) (rd : CallerState w) (value : Bytes w) (epoch : ℕ) : Prop :=
  Wrote st.writes value epoch ∧ Covers rd epoch ∧ epoch ≤ nextEpoch st.ctrl

/-- A first load of the control word, and the copy made since, which is right while the word
stays. -/
def Copying (st : Adaptive w) (rd : CallerState w) (c0 n : ℕ) (buf : Bytes w) : Prop :=
  (∃ m hot, c0 = word m false hot ∧ 1 ≤ m ∧ Covers rd m) ∧ c0 ≤ st.ctrl ∧
    (st.ctrl = c0 → ∀ i, i.val < n → buf i = st.slot i)

/-- What a `read_ref` has found. -/
def Found (st : Adaptive w) (rd : CallerState w) : BridgedCell.ReaderPc Unit (Bytes w) → Prop
  | .leave inner => w ≤ 4 ∧ ∃ value epoch, inner = some (value, epoch) ∧ Good st rd value epoch
  | .loaded b => ∃ blk, st.world.blocks[b]? = some blk ∧ Good st rd blk.value blk.epoch
  | _ => True

def Phase (st : Adaptive w) (r : ℕ) : Prop :=
  match (st.readers r).pc with
  | .copy _ c0 n buf => Copying st (st.readers r) c0 n buf ∧ (st.world.readers r).pc = .idle
  | .recheck _ c0 buf => Copying st (st.readers r) c0 w buf ∧ (st.world.readers r).pc = .idle
  | .inRef =>
      (∃ value epoch, headPair st.world = some (value, epoch) ∧ Covers (st.readers r) epoch) ∧
      Found st (st.readers r) (st.world.readers r).pc
  | .recheckMode => (st.world.readers r).pc = .idle ∧ ∃ ref rest value epoch,
      (st.world.readers r).refs = ref :: rest ∧ deref st.world ref = some (value, epoch) ∧
      Good st (st.readers r) value epoch
  | _ => (st.world.readers r).pc = .idle

def AnswerOk (writes : List (Bytes w)) (a : Answer w) : Prop :=
  match a.pair with
  | some (value, epoch) => Wrote writes value epoch ∧ a.began ≤ epoch
  | none => a.began = 0

/-- The calls of `read_pinned`, which are made with a handle. -/
def ReaderPc.isPinned : ReaderPc w → Bool
  | .idle => false
  | .ctrl pinned | .copy pinned .. | .recheck pinned .. => pinned
  | _ => true

structure CallerOk (st : Adaptive w) (r : ℕ) : Prop where
  registered : (st.readers r).pc.isPinned = true → r < st.world.handles
  answers : ∀ a ∈ (st.readers r).answers, AnswerOk st.writes a
  sorted : ((st.readers r).answers.map Answer.epoch).Pairwise (· ≥ ·)
  known : Covers (st.readers r) (nextEpoch st.ctrl)
  phase : Phase st r

/-- All that does not speak of the writer's own state. -/
structure Core (st : Adaptive w) : Prop where
  world : Invariant st.world
  cell : CellOk st
  callers : ∀ r, CallerOk st r

/-- What holds between a state and one the writer has led to. -/
structure Later (st st' : Adaptive w) : Prop where
  writes : st.writes <+: st'.writes
  ctrl : st.ctrl ≤ st'.ctrl
  slot : ∀ m hot, st.ctrl = word m false hot → st'.ctrl = st.ctrl → st'.slot = st.slot
  blocks : st.world.blocks <+: st'.world.blocks
  head : ∀ value epoch, headPair st.world = some (value, epoch) →
    ∃ value' epoch', headPair st'.world = some (value', epoch') ∧ epoch ≤ epoch'
  handles : st.world.handles ≤ st'.world.handles

section
variable {st st' : Adaptive w} {r : ℕ} {rd : CallerState w} {value : Bytes w} {epoch : ℕ}

theorem headPair_congr {world world' : World Unit (Bytes w)} (hheads : world'.heads = world.heads)
    (hblocks : world'.blocks = world.blocks) : headPair world' = headPair world := by
  unfold headPair
  rw [hheads, hblocks]

/-- A step that leaves the heads and the blocks. -/
theorem Later.of_heads (hwrites : st.writes <+: st'.writes) (hctrl : st.ctrl ≤ st'.ctrl)
    (hslot : ∀ m hot, st.ctrl = word m false hot → st'.ctrl = st.ctrl → st'.slot = st.slot)
    (hheads : st'.world.heads = st.world.heads) (hblocks : st'.world.blocks = st.world.blocks)
    (hhandles : st.world.handles ≤ st'.world.handles) : Later st st' :=
  ⟨hwrites, hctrl, hslot, by rw [hblocks],
    fun value epoch h => ⟨value, epoch, (headPair_congr hheads hblocks).trans h, le_refl _⟩,
      hhandles⟩

theorem getElem?_of_prefix {β : Type*} {xs ys : List β} (h : xs <+: ys) {i : ℕ} {x : β}
    (hx : xs[i]? = some x) : ys[i]? = some x := by
  obtain ⟨more, rfl⟩ := h
  rw [List.getElem?_append_left (List.getElem?_eq_some_iff.mp hx).1, hx]

theorem Wrote.mono (h : Wrote st.writes value epoch) (hl : Later st st') :
    Wrote st'.writes value epoch :=
  ⟨h.1, getElem?_of_prefix hl.writes h.2⟩

theorem Covers.mono {epoch' : ℕ} (h : Covers rd epoch) (hle : epoch ≤ epoch') : Covers rd epoch' :=
  ⟨h.1.trans hle, fun a ha => (h.2 a ha).trans hle⟩

theorem Good.mono (h : Good st rd value epoch) (hl : Later st st') : Good st' rd value epoch :=
  ⟨h.1.mono hl, h.2.1, h.2.2.trans (nextEpoch_mono hl.ctrl)⟩

theorem AnswerOk.mono {a : Answer w} (h : AnswerOk st.writes a) (hl : Later st st') :
    AnswerOk st'.writes a := by
  unfold AnswerOk at h ⊢
  split
  · rename_i hpair
    rw [hpair] at h
    exact ⟨h.1.mono hl, h.2⟩
  · rename_i hpair
    rw [hpair] at h
    exact h

theorem Copying.mono {c0 n : ℕ} {buf : Bytes w} (h : Copying st rd c0 n buf) (hl : Later st st') :
    Copying st' rd c0 n buf := by
  obtain ⟨⟨m, hot, rfl, hm, hcovers⟩, hle, hbuf⟩ := h
  refine ⟨⟨m, hot, rfl, hm, hcovers⟩, hle.trans hl.ctrl, fun hc i hi => ?_⟩
  have hst : st.ctrl = word m false hot := le_antisymm (hc ▸ hl.ctrl) hle
  rw [hl.slot m hot hst (hc.trans hst.symm)]
  exact hbuf hst i hi

theorem Found.mono {pc : BridgedCell.ReaderPc Unit (Bytes w)} (h : Found st rd pc)
    (hl : Later st st') : Found st' rd pc := by
  cases pc with
  | leave inner =>
    obtain ⟨hw, value, epoch, hinner, hgood⟩ := h
    exact ⟨hw, value, epoch, hinner, hgood.mono hl⟩
  | loaded b =>
    obtain ⟨blk, hblk, hgood⟩ := h
    exact ⟨blk, getElem?_of_prefix hl.blocks hblk, hgood.mono hl⟩
  | idle | pinned => trivial

theorem deref_mono {ref : ReadRef (Bytes w)} {q : Bytes w × ℕ}
    (h : deref st.world ref = some q) (hl : Later st st') : deref st'.world ref = some q := by
  cases ref with
  | inline value epoch => exact h
  | block b epoch wasStacked =>
    obtain ⟨blk, hblk, rfl⟩ := map_eq_some_iff.mp h
    exact map_eq_some_iff.mpr ⟨blk, getElem?_of_prefix hl.blocks hblk, rfl⟩

theorem CellOk.congr (h : CellOk st) (hctrl : st'.ctrl = st.ctrl) (hslot : st'.slot = st.slot)
    (hwrites : st'.writes = st.writes) (hheads : st'.world.heads = st.world.heads)
    (hblocks : st'.world.blocks = st.world.blocks) : CellOk st' := by
  have hpair := headPair_congr hheads hblocks
  refine ⟨?_, ?_, ?_, ?_, ?_, ?_⟩
  · rw [hctrl, hslot, hwrites]
    exact h.slot
  · rw [hctrl, hpair]
    exact h.hot
  · rw [hctrl, hblocks, hwrites]
    exact h.blocks
  · rw [hctrl, hpair, hwrites]
    exact h.head
  · rw [hblocks]
    exact h.small
  · rw [hheads]
    exact h.large

theorem CallerOk.mono (h : CallerOk st r) (hl : Later st st') (hrd : st'.readers r = st.readers r)
    (hworld : st'.world.readers r = st.world.readers r) : CallerOk st' r := by
  refine ⟨?_, ?_, ?_, ?_, ?_⟩
  · rw [hrd]
    exact fun hpinned => (h.registered hpinned).trans_le hl.handles
  · rw [hrd]
    exact fun a ha => (h.answers a ha).mono hl
  · rw [hrd]
    exact h.sorted
  · rw [hrd]
    exact h.known.mono (nextEpoch_mono hl.ctrl)
  · have hphase := h.phase
    unfold Phase at hphase ⊢
    rw [hrd, hworld]
    split at hphase
    · exact ⟨hphase.1.mono hl, hphase.2⟩
    · exact ⟨hphase.1.mono hl, hphase.2⟩
    · obtain ⟨⟨value, epoch, hhead, hcovers⟩, hfound⟩ := hphase
      obtain ⟨value', epoch', hhead', hle⟩ := hl.head value epoch hhead
      exact ⟨⟨value', epoch', hhead', hcovers.mono hle⟩, hfound.mono hl⟩
    · obtain ⟨hidle, ref, rest, value, epoch, hrefs, hderef, hgood⟩ := hphase
      exact ⟨hidle, ref, rest, value, epoch, hrefs, deref_mono hderef hl, hgood.mono hl⟩
    · exact hphase

theorem Core.later (h : Core st) (hl : Later st st') (hrd : st'.readers = st.readers)
    (hworld : st'.world.readers = st.world.readers) (hinv : Invariant st'.world)
    (hcell : CellOk st') : Core st' :=
  ⟨hinv, hcell, fun r => (h.callers r).mono hl (by rw [hrd]) (by rw [hworld])⟩

end

/-- One more byte of a copy. -/
theorem copied_succ {buf src : Bytes w} {n : ℕ} (hn : n < w) (h : ∀ i, i.val < n → buf i = src i) :
    ∀ i, i.val < n + 1 → update buf ⟨n, hn⟩ (src ⟨n, hn⟩) i = src i := by
  intro i hi
  by_cases hin : i = ⟨n, hn⟩
  · subst hin
    exact update_self ..
  · have hlt : i.val < n := by
      have hne : i.val ≠ n := fun he => hin (Fin.ext he)
      omega
    exact (update_of_ne hin ..).trans (h i hlt)

/-! ### The writer's steps -/

/-- A step of the block path of this cell. -/
theorem cellStep {world world' : World Unit (Bytes w)} {a : CellAction Unit (Bytes w)}
    (h : Invariant world) (hok : BridgedCell.Careful world a)
    (hs : CellStep (small w) a world world') : Invariant world' :=
  h.step hok hs

section
variable {st : Adaptive w}
variable {call : WriteCall w} {m : ℕ} {hot : Bool}

theorem Calls.epoch (h : Calls st call) : ctrlEpoch call.c = st.completed := by
  obtain ⟨hot, hc⟩ := h.began
  rw [hc, ctrlEpoch_word]

/-- The even word after a write, which is not there before the write's odd store. -/
theorem not_even_of_busy {m' : ℕ} {hot' : Bool} (h : st.ctrl = word m true hot) :
    st.ctrl ≠ word m' false hot' := by
  intro h'
  have := (inProgress_word m true hot).symm.trans ((congrArg inProgress (h.symm.trans h')).trans
    (inProgress_word m' false hot'))
  cases this

theorem word_inj {m' : ℕ} {busy busy' hot' : Bool}
    (h : word m busy hot = word m' busy' hot') : m = m' ∧ busy = busy' ∧ hot = hot' :=
  ⟨(ctrlEpoch_word m busy hot).symm.trans ((congrArg ctrlEpoch h).trans (ctrlEpoch_word ..)),
    (inProgress_word m busy hot).symm.trans ((congrArg inProgress h).trans (inProgress_word ..)),
    (isHot_word m busy hot).symm.trans ((congrArg isHot h).trans (isHot_word ..))⟩

/-- The store of an odd word. -/
theorem Core.mark (h : Core st) {goHot : Bool} (hc : st.ctrl = word m false hot)
    (pc : WriterPc w) : Core { st with ctrl := word m true goHot, writer := pc } := by
  have hle : st.ctrl ≤ word m true goHot := hc ▸ (word_lt_busy m hot goHot).le
  have hbusy : ∀ m' hot', word m true goHot ≠ word m' false hot' :=
    fun m' hot' he => nomatch (word_inj he).2.1
  have hepoch := nextEpoch_mono hle
  refine h.later (.of_heads (prefix_refl _) hle (fun m' hot' _ he => ?_) rfl rfl (le_refl _))
    rfl rfl h.world
    ⟨fun m' hot' he => absurd he (hbusy m' hot'), fun m' he => absurd he (hbusy m' true),
      fun blk hblk => (h.cell.blocks blk hblk).imp_right (·.trans hepoch),
      fun value epoch hpair => (h.cell.head value epoch hpair).imp_right (·.trans hepoch),
      h.cell.small, h.cell.large⟩
  exact absurd (he.trans hc) (hbusy m hot)

/-- The store of one byte of the slot under an odd word. -/
theorem Core.store (h : Core st) (hc : st.ctrl = word m true hot)
    (slot : Bytes w) (pc : WriterPc w) : Core { st with slot, writer := pc } := by
  refine h.later (.of_heads (prefix_refl _) (le_refl _) (fun m' hot' he _ => ?_) rfl rfl
    (le_refl _)) rfl rfl h.world
    ⟨fun m' hot' he => absurd he (not_even_of_busy hc), h.cell.hot, h.cell.blocks, h.cell.head,
      h.cell.small, h.cell.large⟩
  exact absurd he (not_even_of_busy hc)

/-- The store of the even word. -/
theorem Core.commit (h : Core st) {m : ℕ} {goHot : Bool} (hc : st.ctrl = word m true goHot)
    (hslot : Wrote st.writes st.slot (m + 1))
    (hhead : goHot = true → ∃ value, headPair st.world = some (value, m + 1)) :
    Core { st with ctrl := word (m + 1) false goHot } := by
  have hle : st.ctrl ≤ word (m + 1) false goHot := hc ▸ (word_lt _ _ (Nat.lt_succ_self m) _ _).le
  have hepoch := nextEpoch_mono hle
  refine h.later (.of_heads (prefix_refl _) hle
    (fun m' hot' he _ => absurd he (not_even_of_busy hc)) rfl rfl (le_refl _)) rfl rfl h.world
    ⟨fun m' hot' he _ => ?_, fun m' he => ?_,
      fun blk hblk => (h.cell.blocks blk hblk).imp_right (·.trans hepoch),
      fun value epoch hpair => (h.cell.head value epoch hpair).imp_right (·.trans hepoch),
      h.cell.small, h.cell.large⟩
  · obtain ⟨rfl, -, -⟩ := word_inj he
    exact hslot
  · obtain ⟨rfl, -, rfl⟩ := word_inj he
    exact hhead rfl

/-- The new head of a hot write. -/
theorem headPair_publish (world : World Unit (Bytes w)) (value : Bytes w) {epoch : ℕ}
    (hrange : w ≤ 4 → epoch < 2 ^ 31) (wr : BridgedCell.Writer) :
    headPair (world.publish (small w) () value epoch wr) = some (value, epoch) := by
  by_cases hw : w ≤ 4
  · have hs : small w () = true := decide_eq_true hw
    have hhead : (world.publish (small w) () value epoch wr).heads () =
        .inline value (epoch % 2 ^ 31) := by simp [World.publish, World.published, hs]
    rw [headPair, hhead, Nat.mod_eq_of_lt (hrange hw)]
  · have hs : small w () = false := decide_eq_false hw
    have hhead : (world.publish (small w) () value epoch wr).heads () =
        .block world.blocks.length := by simp [World.publish, World.published, hs]
    simp only [headPair, hhead]
    simp [World.publish, World.published, hs]

theorem Core.publish (h : Core st) {m : ℕ} {value : Bytes w} (hc : st.ctrl = word m true true)
    (hidle : (st.world.writers ()).pc = .idle) (hrange : m + 1 < 2 ^ 62)
    (hsmall : w ≤ 4 → m + 1 < 2 ^ 31) (hvalue : Wrote st.writes value (m + 1)) (pc : WriterPc w) :
    Core { st with
      world := st.world.publish (small w) () value (m + 1)
        ((st.world.writers ()).retire st.world.blocks (st.world.heads ()))
      writer := pc } := by
  have hnext : nextEpoch st.ctrl = m + 1 := by rw [hc, nextEpoch_word, Bool.toNat_true]
  have hpair := headPair_publish st.world value hsmall
    ((st.world.writers ()).retire st.world.blocks (st.world.heads ()))
  have hinv := cellStep h.world (a := .writeWithEpoch () value (m + 1)) trivial
    (.writeWithEpoch hidle (hrange.trans (by decide)))
  have hblocks : ∀ blk ∈ (st.world.published (small w ()) value (m + 1)).2,
      blk ∈ st.world.blocks ∨ blk.value = value ∧ blk.epoch = m + 1 := by
    intro blk hblk
    unfold World.published at hblk
    split at hblk
    · exact .inl hblk
    · refine (mem_append.mp hblk).imp_right fun hblk => ?_
      rw [mem_singleton.mp hblk]
      exact ⟨rfl, rfl⟩
  refine h.later ⟨prefix_refl _, le_refl _, fun _ _ _ _ => rfl, ?_,
    fun value' epoch hold => ⟨value, m + 1, hpair, ?_⟩, le_refl _⟩ rfl rfl hinv
    ⟨fun m' hot' he => absurd he (not_even_of_busy hc),
      fun m' he => absurd he (not_even_of_busy hc),
      fun blk hblk => ?_, fun value' epoch hpair' => ?_, fun hw => ?_,
        fun hw value' epoch hhead => ?_⟩
  · simp only [World.publish, World.published]
    split
    · exact prefix_refl _
    · exact prefix_append ..
  · rw [← hnext]
    exact (h.cell.head value' epoch hold).2
  · rcases hblocks blk hblk with hold | ⟨hvalue', hepoch⟩
    · exact h.cell.blocks blk hold
    · rw [hvalue', hepoch, hnext]
      exact ⟨hvalue, le_refl _⟩
  · rw [hpair] at hpair'
    cases hpair'
    exact ⟨hvalue, hnext.ge⟩
  · have hs : small w () = true := decide_eq_true hw
    simp only [World.publish, World.published, hs, if_true]
    exact h.cell.small hw
  · have hs : small w () = false := decide_eq_false (Nat.not_le_of_lt hw)
    simp [World.publish, World.published, hs] at hhead

/-- The writer of the block path moves on; heads, blocks and readers stay. -/
theorem Core.quiet (h : Core st) {world : World Unit (Bytes w)} (hinv : Invariant world)
    (hheads : world.heads = st.world.heads) (hblocks : world.blocks = st.world.blocks)
    (hreaders : world.readers = st.world.readers) (hhandles : world.handles = st.world.handles)
    (pc : WriterPc w) : Core { st with world, writer := pc } :=
  h.later (.of_heads (prefix_refl _) (le_refl _) (fun _ _ _ _ => rfl) hheads hblocks hhandles.ge)
    rfl hreaders hinv (h.cell.congr rfl rfl rfl hheads hblocks)

structure Invariant (st : Adaptive w) : Prop where
  core : Core st
  writer : WriterOk st
  idle : st.writer ≠ .sweep → (st.world.writers ()).pc = .idle

/-- What the writer has to itself. -/
theorem Core.own (h : Core st) (coolStreak hotWrites completed : ℕ) (demand : ℕ → Bool)
    (writer : WriterPc w) : Core { st with coolStreak, hotWrites, completed, demand, writer } :=
  h.later (.of_heads (prefix_refl _) (le_refl _) (fun _ _ _ _ => rfl) rfl rfl (le_refl _))
    rfl rfl h.world (h.cell.congr rfl rfl rfl rfl rfl)

theorem Calls.congr {st' : Adaptive w} (h : Calls st call) (hwrites : st'.writes = st.writes)
    (hcompleted : st'.completed = st.completed) : Calls st' call := by
  obtain ⟨hopen, hrange, hbegan, hvalue⟩ := h
  rw [← hwrites, ← hcompleted] at *
  exact ⟨hopen, hrange, hbegan, hvalue⟩

/-- The control word, of which the complete writes are known. -/
theorem WriterOk.word (h : WriterOk st) :
    ∃ m busy hot, st.ctrl = AdaptiveCell.word m busy hot ∧ st.completed ≤ m := by
  unfold WriterOk at h
  split at h
  · exact ⟨_, _, h.1.choose, h.1.choose_spec, le_refl _⟩
  · exact ⟨_, _, h.1.began.choose, h.2.trans h.1.began.choose_spec, le_refl _⟩
  · exact ⟨_, _, h.1.began.choose, h.2.trans h.1.began.choose_spec, le_refl _⟩
  · exact ⟨_, _, h.1.began.choose, h.2.trans h.1.began.choose_spec, le_refl _⟩
  · exact ⟨_, _, _, h.2.1, le_refl _⟩
  · exact ⟨_, _, _, h.2.1, le_refl _⟩
  · exact ⟨_, _, _, h.2.1, le_refl _⟩
  · exact ⟨_, _, h.1.choose, h.1.choose_spec, Nat.le_succ _⟩

theorem WriterOk.congr {st' : Adaptive w} (h : WriterOk st) (hwriter : st'.writer = st.writer)
    (hctrl : st'.ctrl = st.ctrl) (hslot : st'.slot = st.slot) (hwrites : st'.writes = st.writes)
    (hcompleted : st'.completed = st.completed) (hpair : headPair st'.world = headPair st.world) :
    WriterOk st' := by
  unfold WriterOk at h ⊢
  rw [hwriter, hctrl, hslot, hwrites, hcompleted, hpair]
  split at h
  · exact h
  · exact ⟨h.1.congr hwrites hcompleted, h.2⟩
  · exact ⟨h.1.congr hwrites hcompleted, h.2⟩
  · exact ⟨h.1.congr hwrites hcompleted, h.2⟩
  · exact ⟨h.1.congr hwrites hcompleted, h.2⟩
  · exact ⟨h.1.congr hwrites hcompleted, h.2⟩
  · exact ⟨h.1.congr hwrites hcompleted, h.2⟩
  · exact h

/-- A write has found out in which mode it goes. -/
theorem Invariant.decide (h : Invariant st) (hcalls : Calls st call)
    (hc : st.ctrl = call.c) (hidle : (st.world.writers ()).pc = .idle) (demand : Bool) :
    Invariant (st.decide call demand) := by
  unfold Adaptive.decide
  split
  · exact ⟨h.core.own .., ⟨hcalls.congr rfl rfl, hc⟩, fun _ => hidle⟩
  · split
    · exact ⟨h.core.own .., ⟨hcalls.congr rfl rfl, hc⟩, fun _ => hidle⟩
    · exact ⟨h.core.own .., ⟨hcalls.congr rfl rfl, hc⟩, fun _ => hidle⟩

theorem Core.startSweep (h : Core st) (hidle : (st.world.writers ()).pc = .idle) :
    Core st.startSweep :=
  h.quiet (cellStep h.world (a := .reclaim ()) trivial (.reclaim hidle)) rfl rfl rfl rfl
    _

/-- The even store of a write, and what comes after it. -/
theorem Invariant.commit (h : Invariant st) {call : WriteCall w} {goHot : Bool}
    (hpc : st.writer = .commit call goHot) : Invariant st.writerNext := by
  have hw := h.writer
  simp only [WriterOk, hpc] at hw
  obtain ⟨hcalls, hc, hslot, hhead⟩ := hw
  have hidle := h.idle (by rw [hpc]; nofun)
  obtain ⟨hot, hbegan⟩ := hcalls.began
  have hword := ctrlWord_commit hcalls.range hot goHot
  rw [← hbegan] at hword
  have hcore := h.core.commit hc (by rw [hslot]; exact hcalls.value) hhead
  rw [← hword] at hcore
  have hreturn : ∀ cool hotWrites, Invariant (Adaptive.return { st with
      ctrl := ctrlWord (call.c / 2 + 2) goHot, coolStreak := cool, hotWrites }) :=
        fun cool hotWrites =>
    ⟨hcore.own .., ⟨⟨goHot, hword⟩, hcalls.open_call⟩, fun _ => hidle⟩
  have hsweep : ∀ cool hotWrites, Invariant (Adaptive.startSweep { st with
      ctrl := ctrlWord (call.c / 2 + 2) goHot, coolStreak := cool, hotWrites }) :=
        fun cool hotWrites =>
    ⟨(hcore.own cool hotWrites st.completed st.demand st.writer).startSweep hidle,
      ⟨⟨goHot, hword⟩, hcalls.open_call⟩, fun hne => absurd rfl hne⟩
  simp only [Adaptive.writerNext, hpc]
  split
  · split
    · exact hsweep _ _
    · exact hreturn _ _
  · split
    · exact hsweep _ _
    · exact hreturn _ _

theorem Invariant.writerNext (h : Invariant st) (hok : InRange st .writer) :
    Invariant st.writerNext := by
  have hw := h.writer
  cases hpc : st.writer with
  | idle =>
    simp only [Adaptive.writerNext, hpc]
    exact h
  | flag call =>
    have hidle := h.idle (by rw [hpc]; nofun)
    simp only [WriterOk, hpc] at hw
    simp only [Adaptive.writerNext, hpc]
    split
    · exact ⟨h.core.own .., ⟨hw.1.congr rfl rfl, hw.2⟩, fun _ => hidle⟩
    · exact h.decide hw.1 hw.2 hidle false
  | scan call i =>
    have hidle := h.idle (by rw [hpc]; nofun)
    simp only [WriterOk, hpc] at hw
    simp only [Adaptive.writerNext, hpc]
    split
    · split
      · exact h.decide hw.1 hw.2 hidle true
      · exact ⟨h.core.own .., ⟨hw.1.congr rfl rfl, hw.2⟩, fun _ => hidle⟩
    · exact h.decide hw.1 hw.2 hidle false
  | mark call goHot =>
    have hidle := h.idle (by rw [hpc]; nofun)
    simp only [WriterOk, hpc] at hw
    obtain ⟨hcalls, hc⟩ := hw
    obtain ⟨hot, hbegan⟩ := hcalls.began
    have hword := ctrlWord_mark hcalls.range hot goHot
    rw [← hbegan] at hword
    simp only [Adaptive.writerNext, hpc, hword]
    exact ⟨h.core.mark (hc.trans hbegan) _,
      ⟨hcalls.congr rfl rfl, rfl, fun i hi => absurd hi (Nat.not_lt_zero _)⟩, fun _ => hidle⟩
  | copy call goHot n =>
    have hidle := h.idle (by rw [hpc]; nofun)
    simp only [WriterOk, hpc] at hw
    obtain ⟨hcalls, hc, hslot⟩ := hw
    simp only [Adaptive.writerNext, hpc]
    split
    · rename_i hn
      exact ⟨h.core.store hc _ _, ⟨hcalls.congr rfl rfl, hc, copied_succ hn hslot⟩, fun _ => hidle⟩
    · rename_i hn
      have heq : st.slot = call.value := funext fun i => hslot i (by omega)
      cases goHot with
      | true => exact ⟨h.core.own .., ⟨hcalls.congr rfl rfl, hc, heq⟩, fun _ => hidle⟩
      | false => exact ⟨h.core.own .., ⟨hcalls.congr rfl rfl, hc, heq, nofun⟩, fun _ => hidle⟩
  | publish call =>
    have hidle := h.idle (by rw [hpc]; nofun)
    simp only [WriterOk, hpc] at hw
    obtain ⟨hcalls, hc, hslot⟩ := hw
    have hrange : w ≤ 4 → st.completed + 1 < 2 ^ 31 := by
      have := hok call hpc
      rwa [hcalls.epoch] at this
    simp only [Adaptive.writerNext, hpc, hcalls.epoch]
    refine ⟨h.core.publish hc hidle hcalls.range hrange hcalls.value _,
      ⟨hcalls.congr rfl rfl, hc, hslot, fun _ => ⟨call.value, headPair_publish _ _ hrange _⟩⟩,
      fun _ => ?_⟩
    have hretire := (retire_owed hidle st.world.blocks (st.world.heads ())).2.1
    simp only [World.publish, update_self]
    exact hretire
  | commit call goHot => exact h.commit hpc
  | sweep =>
    simp only [WriterOk, hpc] at hw
    obtain ⟨hc, hlen⟩ := hw
    simp only [Adaptive.writerNext, hpc]
    split
    · rename_i hidle
      exact ⟨h.core.own .., ⟨hc, hlen⟩, fun _ => hidle⟩
    · obtain ⟨hheads, hblocks, hreaders, hhandles, -⟩ := next_same st.world ()
      exact ⟨h.core.quiet (h.core.world.next ()) hheads hblocks hreaders hhandles _, ⟨hc, hlen⟩,
        fun hne => absurd rfl hne⟩

end

/-! ### The readers' steps -/

section
variable {st : Adaptive w} {r : ℕ}

theorem even_word {c : ℕ} (h : inProgress c = false) : c = word (ctrlEpoch c) false (isHot c) := by
  unfold inProgress at h
  unfold word ctrlEpoch isHot
  simp only [decide_eq_false_iff_not, Bool.toNat_false] at h ⊢
  rcases Nat.mod_two_eq_zero_or_one c with hc | hc <;> simp only [hc, decide_true, decide_false,
    Bool.toNat_true, Bool.toNat_false, Nat.zero_ne_one] <;> omega

variable {world : World Unit (Bytes w)}

/-- A reader moves on, with its handle and its demand. -/
theorem Invariant.moveReader (h : Invariant st) (rd : CallerState w) (demand : ℕ → Bool)
    (hinv : BridgedCell.Invariant world)
    (hheads : world.heads = st.world.heads) (hblocks : world.blocks = st.world.blocks)
    (hhandles : world.handles = st.world.handles) (hwriters : world.writers = st.world.writers)
    (hothers : ∀ r' ≠ r, world.readers r' = st.world.readers r')
    (hcaller : CallerOk { st with world, demand, readers := update st.readers r rd } r) :
    Invariant { st with world, demand, readers := update st.readers r rd } := by
  have hl : Later st { st with world, demand, readers := update st.readers r rd } :=
    .of_heads (prefix_refl _) (le_refl _) (fun _ _ _ _ => rfl) hheads hblocks hhandles.ge
  refine ⟨⟨hinv, h.core.cell.congr rfl rfl rfl hheads hblocks, fun r' => ?_⟩, ?_, ?_⟩
  · by_cases hr : r' = r
    · subst hr
      exact hcaller
    · exact (h.core.callers r').mono hl (update_of_ne hr ..) (hothers r' hr)
  · exact h.writer.congr rfl rfl rfl rfl rfl (headPair_congr hheads hblocks)
  · rw [hwriters]
    exact h.idle

/-- A call goes on; its reader's own phase holds in the new state. -/
theorem Invariant.setPc (h : Invariant st) {pc : ReaderPc w}
    {demand : ℕ → Bool} (hinv : BridgedCell.Invariant world) (hheads : world.heads = st.world.heads)
    (hblocks : world.blocks = st.world.blocks) (hhandles : world.handles = st.world.handles)
    (hwriters : world.writers = st.world.writers)
    (hothers : ∀ r' ≠ r, world.readers r' = st.world.readers r')
    (hpinned : pc.isPinned = true → r < st.world.handles)
    (hphase : Phase { st.setPc r pc with world, demand } r) :
    Invariant { st.setPc r pc with world, demand } := by
  have hcaller := h.core.callers r
  refine h.moveReader _ _ hinv hheads hblocks hhandles hwriters hothers ⟨?_, ?_, ?_, ?_, hphase⟩
  · simp only [update_self, hhandles]
    exact hpinned
  · simp only [update_self]
    exact hcaller.answers
  · simp only [update_self]
    exact hcaller.sorted
  · simp only [update_self]
    exact hcaller.known

/-- A call goes on without a step of the block path. -/
theorem Invariant.setPcOnly (h : Invariant st) {pc : ReaderPc w} (demand : ℕ → Bool)
    (hpinned : pc.isPinned = true → r < st.world.handles)
    (hphase : Phase { st.setPc r pc with demand } r) : Invariant { st.setPc r pc with demand } :=
  h.setPc h.core.world rfl rfl rfl rfl (fun _ _ => rfl) hpinned hphase

/-- A call returns. -/
theorem Invariant.answer (h : Invariant st) {pair : Option (Bytes w × ℕ)}
    (hidle : (st.world.readers r).pc = .idle)
    (hok : AnswerOk st.writes ⟨pair, (st.readers r).began⟩)
    (hcovers : Covers (st.readers r) (Answer.epoch ⟨pair, (st.readers r).began⟩))
    (hle : Answer.epoch ⟨pair, (st.readers r).began⟩ ≤ nextEpoch st.ctrl) :
    Invariant (st.answer r pair) := by
  have hcaller := h.core.callers r
  refine h.moveReader _ st.demand h.core.world rfl rfl rfl rfl (fun _ _ => rfl) ⟨?_, ?_, ?_, ?_, ?_⟩
  · simp only [update_self]
    nofun
  · simp only [update_self]
    intro a ha
    rcases mem_cons.mp ha with rfl | ha
    · exact hok
    · exact hcaller.answers a ha
  · simp only [update_self, map_cons, pairwise_cons]
    refine ⟨fun e he => ?_, hcaller.sorted⟩
    obtain ⟨a, ha, rfl⟩ := mem_map.mp he
    exact hcovers.2 a ha
  · simp only [update_self]
    refine ⟨hcaller.known.1, fun a ha => ?_⟩
    rcases mem_cons.mp ha with rfl | ha
    · exact hle
    · exact hcaller.known.2 a ha
  · simp only [Phase, update_self]
    exact hidle

/-- A call begins. -/
theorem Invariant.begin (h : Invariant st) {pc : ReaderPc w} (hpc : (st.readers r).pc = .idle)
    (hpinned : pc.isPinned = true → r < st.world.handles)
    (hbegin : pc = .ctrl false ∨ pc = .demandLoad) :
    Invariant { st with
      readers := update st.readers r { st.readers r with pc, began := st.completed } } := by
  have hcaller := h.core.callers r
  have hidle : (st.world.readers r).pc = .idle := by
    have hphase := hcaller.phase
    rwa [Phase, hpc] at hphase
  have hcompleted : st.completed ≤ nextEpoch st.ctrl := by
    obtain ⟨m, busy, hot, hc, hm⟩ := h.writer.word
    rw [hc, nextEpoch_word]
    exact hm.trans (Nat.le_add_right _ _)
  refine h.moveReader _ st.demand h.core.world rfl rfl rfl rfl (fun _ _ => rfl) ⟨?_, ?_, ?_, ?_, ?_⟩
  · simp only [update_self]
    exact hpinned
  · simp only [update_self]
    exact hcaller.answers
  · simp only [update_self]
    exact hcaller.sorted
  · simp only [update_self]
    exact ⟨hcompleted, hcaller.known.2⟩
  · rcases hbegin with rfl | rfl
    · simp only [Phase, update_self]
      exact hidle
    · simp only [Phase, update_self]
      exact hidle

/-- The first load of the control word, of an even word. -/
theorem Invariant.enter (h : Invariant st) {pinned : Bool} (hpc : (st.readers r).pc = .ctrl pinned)
    (hne : st.ctrl / 2 ≠ 0) (heven : inProgress st.ctrl = false) :
    Invariant (if pinned && isHot st.ctrl then st.setPc r .inRef
      else st.setPc r (.copy pinned st.ctrl 0 fun _ => 0)) := by
  have hcaller := h.core.callers r
  have hidle : (st.world.readers r).pc = .idle := by
    have hphase := hcaller.phase
    rwa [Phase, hpc] at hphase
  have hword := even_word heven
  have hcovers : Covers (st.readers r) (ctrlEpoch st.ctrl) := by
    have hknown := hcaller.known
    rw [hword, nextEpoch_word] at hknown
    exact hknown
  have hpinned : pinned = true → r < st.world.handles :=
    fun hp => hcaller.registered (by rw [hpc]; exact hp)
  split
  · rename_i hhot
    obtain ⟨hp, hhot⟩ := Bool.and_eq_true_iff.mp hhot
    rw [hhot] at hword
    refine h.setPcOnly st.demand (fun _ => hpinned hp) ?_
    obtain ⟨value, hpair⟩ := h.core.cell.hot _ hword
    simp only [Phase, Adaptive.setPc, update_self, hidle]
    exact ⟨⟨value, _, hpair, hcovers⟩, trivial⟩
  · refine h.setPcOnly st.demand hpinned ?_
    simp only [Phase, Adaptive.setPc, update_self]
    refine ⟨⟨⟨_, _, hword, ?_, hcovers⟩, Nat.le_refl _,
      fun _ i hi => absurd hi (Nat.not_lt_zero _)⟩, hidle⟩
    unfold ctrlEpoch
    unfold inProgress at heven
    simp only [decide_eq_false_iff_not] at heven
    omega

/-- One step of a `read_ref`. -/
theorem Invariant.refNext (h : Invariant st) (hpc : (st.readers r).pc = .inRef) :
    Invariant
      { st.setPc r (afterRef (st.world.readers r).pc) with world := refNext st.world r } := by
  have hcaller := h.core.callers r
  have hr : r < st.world.handles := hcaller.registered (by rw [hpc]; rfl)
  have hphase := hcaller.phase
  rw [Phase, hpc] at hphase
  obtain ⟨⟨value, epoch, hpair, hcovers⟩, hfound⟩ := hphase
  have hothers : ∀ {rd : Reader Unit (Bytes w)} {slot : ℕ}, ∀ r' ≠ r,
      (st.world.setReader r rd slot).readers r' = st.world.readers r' :=
    fun r' hr' => setReader_of_ne hr'
  have hself : ∀ {rd : Reader Unit (Bytes w)} {slot : ℕ},
      (st.world.setReader r rd slot).readers r = rd := setReader_self ..
  cases hworld : (st.world.readers r).pc with
  | idle =>
    simp only [AdaptiveCell.refNext, hworld]
    refine h.setPc (cellStep h.core.world (a := .pin r ()) trivial (.pin hr hworld))
      rfl rfl rfl rfl hothers (fun _ => hr) ?_
    simp only [Phase, afterRef, Adaptive.setPc, update_self, hself]
    exact ⟨⟨value, epoch, hpair, hcovers⟩, trivial⟩
  | pinned c =>
    -- the head is there, and the epoch of its value is one that a write has produced
    obtain ⟨hwrote, hle⟩ := h.core.cell.head value epoch hpair
    have hinv := cellStep h.core.world (a := .load r) (fun c' b _ hid hzero => ?_) (.load hworld)
    · simp only [AdaptiveCell.refNext, hworld]
      refine h.setPc hinv rfl rfl rfl rfl hothers (fun _ => hr) ?_
      simp only [Phase, afterRef, Adaptive.setPc, update_self, hself]
      refine ⟨⟨value, epoch, hpair, hcovers⟩, ?_⟩
      unfold headPair at hpair
      cases hhead : st.world.heads () with
      | empty =>
        rw [hhead] at hpair
        cases hpair
      | inline v e =>
        rw [hhead] at hpair
        cases hpair
        refine ⟨?_, value, epoch, rfl, hwrote, hcovers, hle⟩
        by_contra hw
        exact h.core.cell.large (Nat.lt_of_not_le hw) value epoch hhead
      | block b =>
        rw [hhead] at hpair
        obtain ⟨blk, hblk, heq⟩ := map_eq_some_iff.mp hpair
        cases heq
        exact ⟨blk, hblk, hwrote, hcovers, hle⟩
    · have hlt := h.core.world.pools.live () b (mem_append_left _ (mem_toList.mpr hid))
      have hpos := (h.core.cell.blocks _ (getElem_mem hlt.1)).1.1
      rw [blockEpoch, getElem?_eq_getElem hlt.1] at hzero
      exact absurd hzero (Nat.one_le_iff_ne_zero.mp hpos)
  | leave inner =>
    rw [hworld] at hfound
    obtain ⟨hw, value', epoch', rfl, hgood⟩ := hfound
    have hfloor : (st.world.readers r).holds.floor = idleFloor := by
      have hok := h.core.world.readers r
      rw [h.core.cell.small hw] at hok
      exact hok.floor_idle
    simp only [AdaptiveCell.refNext, hworld]
    refine h.setPc (cellStep h.core.world (a := .leave r) hfloor (.leave hworld))
      rfl rfl rfl rfl hothers (fun _ => hr) ?_
    simp only [Phase, afterRef, Adaptive.setPc, update_self, hself]
    exact ⟨trivial, _, _, value', epoch', rfl, rfl, hgood⟩
  | loaded b =>
    rw [hworld] at hfound
    obtain ⟨blk, hblk, hgood⟩ := hfound
    have hepoch : blockEpoch st.world.blocks b = blk.epoch := by
      rw [blockEpoch, hblk, map_some, getD_some]
    simp only [AdaptiveCell.refNext, hworld]
    refine h.setPc (cellStep h.core.world (a := .tighten r) trivial (.tighten hworld))
      rfl rfl rfl rfl hothers (fun _ => hr) ?_
    simp only [Phase, afterRef, Adaptive.setPc, update_self, hself]
    refine ⟨rfl, _, _, blk.value, blk.epoch, rfl, ?_, hgood⟩
    rw [hepoch]
    exact map_eq_some_iff.mpr ⟨blk, hblk, rfl⟩

/-- A ref is dropped; the heads, the blocks and the other readers stay. -/
theorem dropRef_spec (h : BridgedCell.Invariant world) (hidle : (world.readers r).pc = .idle)
    (k : ℕ) : BridgedCell.Invariant (dropRef world r k) ∧ (dropRef world r k).heads = world.heads ∧
    (dropRef world r k).blocks = world.blocks ∧ (dropRef world r k).handles = world.handles ∧
    (dropRef world r k).writers = world.writers ∧
    (∀ r' ≠ r, (dropRef world r k).readers r' = world.readers r') ∧
    ((dropRef world r k).readers r).pc = .idle := by
  unfold dropRef
  dsimp only
  split
  · rename_i hk
    refine ⟨cellStep h (a := .drop r k) trivial (.dropInline hidle hk), rfl, rfl, rfl, rfl,
      fun r' hr' => BridgedCell.setReader_of_ne hr', ?_⟩
    rw [BridgedCell.setReader_self]
    exact hidle
  · rename_i hk
    refine ⟨cellStep h (a := .drop r k) trivial (.dropBlock hidle hk), rfl, rfl, rfl, rfl,
      fun r' hr' => BridgedCell.setReader_of_ne hr', ?_⟩
    rw [BridgedCell.setReader_self]
    exact hidle
  · exact ⟨h, rfl, rfl, rfl, rfl, fun _ _ => rfl, hidle⟩

theorem Invariant.readerNext (h : Invariant st) (r : ℕ) : Invariant (st.readerNext r) := by
  have hcaller := h.core.callers r
  have hphase := hcaller.phase
  cases hpc : (st.readers r).pc with
  | idle =>
    simp only [Adaptive.readerNext, hpc]
    exact h
  | demandLoad =>
    rw [Phase, hpc] at hphase
    have hr : r < st.world.handles := hcaller.registered (by rw [hpc]; rfl)
    simp only [Adaptive.readerNext, hpc]
    refine h.setPcOnly st.demand (fun _ => hr) ?_
    split <;> simpa only [Phase, Adaptive.setPc, update_self] using hphase
  | demandStore =>
    rw [Phase, hpc] at hphase
    have hr : r < st.world.handles := hcaller.registered (by rw [hpc]; rfl)
    simp only [Adaptive.readerNext, hpc]
    refine h.setPcOnly _ (fun _ => hr) ?_
    simpa only [Phase, Adaptive.setPc, update_self] using hphase
  | ctrl pinned =>
    rw [Phase, hpc] at hphase
    simp only [Adaptive.readerNext, hpc]
    split
    · rename_i hzero
      have hknown := hcaller.known
      have hepoch : nextEpoch st.ctrl = 0 := by
        unfold nextEpoch
        omega
      rw [hepoch] at hknown
      exact h.answer hphase (Nat.le_zero.mp hknown.1) hknown (Nat.zero_le _)
    · rename_i hne
      split
      · exact h
      · rename_i heven
        exact h.enter hpc hne (Bool.not_eq_true _ ▸ heven)
  | copy pinned c0 n buf =>
    rw [Phase, hpc] at hphase
    obtain ⟨⟨hseen, hle, hbuf⟩, hidle⟩ := hphase
    have hpinned : pinned = true → r < st.world.handles :=
      fun hp => hcaller.registered (by rw [hpc]; exact hp)
    simp only [Adaptive.readerNext, hpc]
    split
    · rename_i hn
      refine h.setPcOnly st.demand hpinned ?_
      simp only [Phase, Adaptive.setPc, update_self]
      exact ⟨⟨hseen, hle, fun hc => copied_succ hn (hbuf hc)⟩, hidle⟩
    · refine h.setPcOnly st.demand hpinned ?_
      simp only [Phase, Adaptive.setPc, update_self]
      exact ⟨⟨hseen, hle, fun hc i _ => hbuf hc i (by omega)⟩, hidle⟩
  | recheck pinned c0 buf =>
    rw [Phase, hpc] at hphase
    obtain ⟨⟨⟨m, hot, hword, hm, hcovers⟩, hle, hbuf⟩, hidle⟩ := hphase
    have hpinned : pinned = true → r < st.world.handles :=
      fun hp => hcaller.registered (by rw [hpc]; exact hp)
    simp only [Adaptive.readerNext, hpc]
    split
    · rename_i hc
      have hepoch : ctrlEpoch c0 = m := by rw [hword, ctrlEpoch_word]
      have hslot : buf = st.slot := funext fun i => hbuf hc i i.isLt
      rw [hepoch]
      refine h.answer hidle ⟨?_, hcovers.1⟩ hcovers ?_
      · rw [hslot]
        exact h.core.cell.slot m hot (hc.trans hword) hm
      · rw [hc, hword, nextEpoch_word]
        exact Nat.le_add_right _ _
    · refine h.setPcOnly st.demand hpinned ?_
      simpa only [Phase, Adaptive.setPc, update_self] using hidle
  | inRef =>
    simp only [Adaptive.readerNext, hpc]
    exact h.refNext hpc
  | recheckMode =>
    rw [Phase, hpc] at hphase
    obtain ⟨hidle, ref, rest, value, epoch, hrefs, hderef, hwrote, hcovers, hle⟩ := hphase
    have hr : r < st.world.handles := hcaller.registered (by rw [hpc]; rfl)
    simp only [Adaptive.readerNext, hpc]
    split
    · rw [hrefs, head?_cons, bind_some, hderef]
      exact h.answer hidle ⟨hwrote, hcovers.1⟩ hcovers hle
    · refine h.setPcOnly st.demand (fun _ => hr) ?_
      simpa only [Phase, Adaptive.setPc, update_self] using hidle
  | retry =>
    rw [Phase, hpc] at hphase
    have hr : r < st.world.handles := hcaller.registered (by rw [hpc]; rfl)
    obtain ⟨hinv, hheads, hblocks, hhandles, hwriters, hothers, hidle⟩ :=
      dropRef_spec h.core.world hphase 0
    simp only [Adaptive.readerNext, hpc]
    refine h.setPc hinv hheads hblocks hhandles hwriters hothers (fun _ => hr) ?_
    simpa only [Phase, Adaptive.setPc, update_self] using hidle

/-! ### Runs -/

theorem Invariant.new (slot : Bytes w) : Invariant (.new slot) := by
  refine ⟨⟨.new, ⟨?_, ?_, nofun, nofun, fun _ => rfl, fun _ _ _ => nofun⟩, fun r =>
    ⟨nofun, nofun, .nil, ⟨Nat.zero_le _, nofun⟩, rfl⟩⟩, ⟨⟨false, rfl⟩, rfl⟩, fun _ => rfl⟩
  · intro m hot hc hm
    have hepoch := (congrArg ctrlEpoch hc).trans (ctrlEpoch_word m false hot)
    have hzero : ctrlEpoch (Adaptive.new slot).ctrl = 0 := Nat.zero_div 4
    omega
  · intro m hc
    have hhot := (congrArg isHot hc).trans (isHot_word m false true)
    cases hhot

theorem Invariant.write (h : Invariant st) (hpc : st.writer = .idle) {value : Bytes w}
    (hrange : st.writes.length + 1 < 2 ^ 62) :
    Invariant { st with writer := .flag ⟨value, st.ctrl⟩, writes := st.writes ++ [value] } := by
  have hw := h.writer
  rw [WriterOk, hpc] at hw
  obtain ⟨hword, hlen⟩ := hw
  have hl : Later st { st with writer := .flag ⟨value, st.ctrl⟩, writes := st.writes ++ [value] } :=
    .of_heads (prefix_append ..) (le_refl _) (fun _ _ _ _ => rfl) rfl rfl (le_refl _)
  refine ⟨h.core.later hl rfl rfl h.core.world
    ⟨fun m hot hc hm => (h.core.cell.slot m hot hc hm).mono hl,
    h.core.cell.hot, fun blk hblk => (h.core.cell.blocks blk hblk).imp_left (·.mono hl),
    fun value epoch hpair => (h.core.cell.head value epoch hpair).imp_left (·.mono hl),
    h.core.cell.small, h.core.cell.large⟩, ⟨⟨?_, ?_, hword, ?_, ?_⟩, rfl⟩,
    fun _ => h.idle (by rw [hpc]; nofun)⟩
  · simp [hlen]
  · simp only [hlen]
    exact hrange
  · exact Nat.le_add_left _ _
  · simp [hlen]

theorem Invariant.step {a : AdaptiveAction w} {st' : Adaptive w} (h : Invariant st)
    (hok : InRange st a) (hs : AdaptiveStep a st st') : Invariant st' := by
  cases hs with
  | acquire hlt =>
    have hinv := cellStep h.core.world (a := .acquire) trivial (.acquire hlt)
    have hl : Later st { st with world :=
        { st.world with handles := st.world.handles + 1, anyHandleEver := true } } :=
      .of_heads (prefix_refl _) (le_refl _) (fun _ _ _ _ => rfl) rfl rfl (Nat.le_succ _)
    exact ⟨h.core.later hl rfl rfl hinv (h.core.cell.congr rfl rfl rfl rfl rfl),
      h.writer.congr rfl rfl rfl rfl rfl rfl, h.idle⟩
  | write hpc => exact h.write hpc hok
  | writer => exact h.writerNext hok
  | read hpc => exact h.begin hpc nofun (.inl rfl)
  | readPinned hr hpc => exact h.begin hpc (fun _ => hr) (.inr rfl)
  | reader => exact h.readerNext _
  | @drop _ r k hpc =>
    have hcaller := h.core.callers r
    have hphase := hcaller.phase
    have hidle := hphase
    rw [Phase, hpc] at hidle
    obtain ⟨hinv, hheads, hblocks, hhandles, hwriters, hothers, hidle'⟩ :=
      dropRef_spec h.core.world hidle k
    have hmoved := h.moveReader (st.readers r) st.demand hinv hheads hblocks hhandles
      hwriters hothers ?_
    · rwa [update_eq_self] at hmoved
    · rw [update_eq_self]
      refine ⟨?_, hcaller.answers, hcaller.sorted, hcaller.known, ?_⟩
      · rw [hhandles]
        exact hcaller.registered
      · rw [Phase, hpc]
        exact hidle'
  | releaseDemand hr hpc =>
    exact ⟨h.core.own .., h.writer.congr rfl rfl rfl rfl rfl rfl, h.idle⟩

/-- In any run in which the epochs stay in range: what a read answers is the value of the write that
produced its epoch, which is not below that of the last write complete when the read began, and
nothing is answered only where there was none; the epochs that a reader gets do not go back; and the
block that a ref it has got points to is not freed. -/
theorem adaptive_reads (slot : Bytes w) (hrun : Reaches AdaptiveStep InRange (.new slot) st)
    (r : ℕ) : (∀ a ∈ (st.readers r).answers, ∀ value epoch, a.pair = some (value, epoch) →
      1 ≤ epoch ∧ st.writes[epoch - 1]? = some value ∧ a.began ≤ epoch) ∧
    (∀ a ∈ (st.readers r).answers, a.pair = none → a.began = 0) ∧
    ((st.readers r).answers.map Answer.epoch).Pairwise (· ≥ ·) ∧
    ∀ b epoch wasStacked, .block b epoch wasStacked ∈ (st.world.readers r).refs →
      b ∉ st.world.freed := by
  have h : Invariant st := hrun.invariant (fun h hok hs => h.step hok hs) (.new slot)
  have hcaller := h.core.callers r
  refine ⟨fun a ha value epoch hpair => ?_, fun a ha hpair => ?_, hcaller.sorted,
    fun b epoch wasStacked href => h.core.world.live r b (.inr ⟨epoch, wasStacked, href⟩)⟩
  · have hok := hcaller.answers a ha
    rw [AnswerOk, hpair] at hok
    exact ⟨hok.1.1, hok.1.2, hok.2⟩
  · have hok := hcaller.answers a ha
    rwa [AnswerOk, hpair] at hok

end

section
variable {ok : Adaptive w → AdaptiveAction w → Prop}

theorem reaches_reader {r : ℕ} (hok : ∀ st, ok st (.reader r)) (st : Adaptive w) (n : ℕ) :
    Reaches AdaptiveStep ok st ((Adaptive.readerNext · r)^[n] st) := by
  induction n generalizing st with
  | zero => exact .refl st
  | succ n ih => exact (Reaches.of_step (hok st) (.reader (r := r))).trans (ih _)

theorem reaches_writer (hok : ∀ st, ok st .writer) (st : Adaptive w) (n : ℕ) :
    Reaches AdaptiveStep ok st (Adaptive.writerNext^[n] st) := by
  induction n generalizing st with
  | zero => exact .refl st
  | succ n ih => exact (Reaches.of_step (hok st) .writer).trans (ih _)

end

/-- A cold write and a hot one, each read by a reader which holds a ref to the block of the
second. -/
theorem adaptive_reads_run : ∃ (st : Adaptive 5) (a : Answer 5),
    Reaches AdaptiveStep InRange (.new fun _ => 0) st ∧ a ∈ (st.readers 0).answers ∧
      a.pair = some (fun _ => 6, 2) ∧ st.writes[1]? = some (fun _ => 6) ∧
      ReadRef.block 0 2 true ∈ (st.world.readers 0).refs ∧ 0 ∉ st.world.freed := by
  have hwriter : ∀ st : Adaptive 5, InRange st .writer := fun _ _ _ hw => absurd hw (by decide)
  have hfirst : Reaches AdaptiveStep InRange (.new fun _ : Fin 5 => 0) _ :=
    .of_step (a := .write fun _ => 5) (show 0 + 1 < 2 ^ 62 by decide) (.write rfl)
  have hcold := hfirst.trans (reaches_writer hwriter _ 9)
  have hacquire := hcold.next (a := AdaptiveAction.acquire) trivial (.acquire (by decide))
  have hpinned :=
    hacquire.next (a := AdaptiveAction.readPinned 0) trivial (.readPinned (by decide) rfl)
  have hslot := hpinned.trans (reaches_reader (r := 0) (fun _ => trivial) _ 10)
  have hsecond := hslot.next (a := AdaptiveAction.write fun _ => 6) (show 1 + 1 < 2 ^ 62 by decide)
    (.write rfl)
  have hhot := hsecond.trans (reaches_writer hwriter _ 11)
  have hpinned' :=
    hhot.next (a := AdaptiveAction.readPinned 0) trivial (.readPinned (by decide) rfl)
  have hblock := hpinned'.trans (reaches_reader (r := 0) (fun _ => trivial) _ 6)
  obtain ⟨st, hrun, hpairs, href⟩ : ∃ st : Adaptive 5,
      Reaches AdaptiveStep InRange (.new fun _ => 0) st ∧
        (st.readers 0).answers.map Answer.pair = [some (fun _ => 6, 2), some (fun _ => 5, 1)] ∧
        ReadRef.block 0 2 true ∈ (st.world.readers 0).refs :=
    ⟨_, hblock, by decide +kernel, by decide +kernel⟩
  obtain ⟨a, ha, hpair⟩ := mem_map.mp (hpairs ▸ mem_cons_self)
  obtain ⟨hvalue, -, -, hlive⟩ := adaptive_reads _ hrun 0
  exact ⟨st, a, hrun, ha, hpair, (hvalue a ha _ _ hpair).2.1, href, hlive 0 2 true href⟩

/-- A cell after `n` cold writes of one value. -/
def coldWrites (value : Bytes 1) (n : ℕ) : Adaptive 1 :=
  { Adaptive.new value with ctrl := 4 * n, writes := replicate n value, completed := n }

theorem reaches_coldWrites (value : Bytes 1) {n : ℕ} (hn : n < 2 ^ 62) :
    Reaches AdaptiveStep anyAction (.new value) (coldWrites value n) := by
  induction n with
  | zero => exact .refl _
  | succ n ih =>
    have hwrite :=
      (ih (Nat.lt_of_succ_lt hn)).next (a := .write value) trivial (.write rfl)
    have hdone := hwrite.trans (reaches_writer (fun _ => trivial) _ 5)
    have hcold : isHot (4 * n) = false := isHot_word n false false
    have hword : ctrlWord (4 * n / 2 + 2) false = 4 * (n + 1) :=
      ctrlWord_commit (m := n) hn false false
    convert hdone using 1
    simp [coldWrites, Adaptive.new, World.new, Adaptive.writerNext, Adaptive.decide,
      Adaptive.return, hcold, hword, replicate_succ']

/-- A reader gets epoch `2 ^ 31 - 1` by the slot, and after one more write epoch 0 by the head
word. -/
theorem pinned_epoch_wraps : ∃ st : Adaptive 1,
    Reaches AdaptiveStep anyAction (.new fun _ => 5) st ∧
      (st.readers 0).answers.map Answer.epoch = [0, 2 ^ 31 - 1] ∧
      ¬ ((st.readers 0).answers.map Answer.epoch).Pairwise (· ≥ ·) := by
  have hcold := reaches_coldWrites (fun _ => 5) (n := 2 ^ 31 - 1) (by decide)
  have hacquire := hcold.next (a := .acquire) trivial (.acquire (by decide))
  have hpinned :=
    hacquire.next (a := .readPinned 0) trivial (.readPinned (by decide) rfl)
  have hslot := hpinned.trans (reaches_reader (r := 0) (fun _ => trivial) _ 6)
  have hwrite := hslot.next (a := .write fun _ => 5) trivial (.write rfl)
  have hhot := hwrite.trans (reaches_writer (fun _ => trivial) _ 7)
  have hpinned' :=
    hhot.next (a := .readPinned 0) trivial (.readPinned (by decide) rfl)
  have hhead := hpinned'.trans (reaches_reader (r := 0) (fun _ => trivial) _ 6)
  refine ⟨_, hhead, ?_, ?_⟩
  · decide +kernel
  · decide +kernel

end AxisBridge.AdaptiveCell
