import AxisBridge.Lib.Reach
import Mathlib.Algebra.Order.Group.Nat
import Mathlib.Data.List.Nodup
import Mathlib.Data.List.Perm.Basic

/-! Cells whose replaced blocks are freed under readers that pin them. -/
namespace AxisBridge.BridgedCell
open Option List Function

/-- `Vec::swap_remove`: the last element takes the place of the one removed. -/
def swapRemove {β : Type*} (xs : List β) (i : ℕ) : List β :=
  match xs.getLast? with
  | some x => (xs.set i x).dropLast
  | none => xs

/-- `u64::MAX`: the slot of a reader that pins nothing. -/
def idleFloor : ℕ := 2 ^ 64 - 1

def maxReaders : ℕ := 64

def holdDepth : ℕ := 8

/-- The epochs that the refs of one handle hold; those that do not fit are only counted. -/
structure HoldStack where
  epochs : List ℕ
  overflowCount : ℕ
  overflowFloor : ℕ

def HoldStack.new : HoldStack := ⟨[], 0, idleFloor⟩

def HoldStack.push (s : HoldStack) (epoch : ℕ) : HoldStack × Bool :=
  if s.epochs.length < holdDepth then ({ s with epochs := s.epochs ++ [epoch] }, true)
  else
    ({ s with
        overflowCount := s.overflowCount + 1
        overflowFloor := if epoch < s.overflowFloor then epoch else s.overflowFloor },
      false)

def HoldStack.remove (s : HoldStack) (epoch : ℕ) (wasStacked : Bool) : HoldStack :=
  if wasStacked then
    match s.epochs.idxOf? epoch with
    | some i => { s with epochs := swapRemove s.epochs i }
    | none => s
  else
    { s with
      overflowCount := s.overflowCount - 1
      overflowFloor := if s.overflowCount - 1 = 0 then idleFloor else s.overflowFloor }

def HoldStack.floor (s : HoldStack) : ℕ :=
  s.epochs.foldl min (if 0 < s.overflowCount then s.overflowFloor else idleFloor)

variable {γ α : Type*}

structure Block (α : Type*) where
  value : α
  prev : Option ℕ
  epoch : ℕ

/-- The head word of a cell. -/
inductive Head (α : Type*)
  | empty
  | inline (value : α) (epoch : ℕ)
  | block (id : ℕ)

def Head.id? : Head α → Option ℕ
  | .block b => some b
  | _ => none

inductive ReadRef (α : Type*)
  | inline (value : α) (epoch : ℕ)
  | block (id holdEpoch : ℕ) (wasStacked : Bool)
  deriving DecidableEq

/-- Where a `read_ref` is: its slot is pinned, it leaves without a pin, it has loaded a block. -/
inductive ReaderPc (γ α : Type*)
  | idle
  | pinned (c : γ)
  | leave (inner : Option (α × ℕ))
  | loaded (id : ℕ)

/-- A reader with its handle, and the refs it has not dropped. -/
structure Reader (γ α : Type*) where
  pc : ReaderPc γ α
  holds : HoldStack
  refs : List (ReadRef α)

def Reader.new : Reader γ α := ⟨.idle, .new, []⟩

/-- Where a writer is: before `has_any_reader`, in `floor_min` before slot `i` for the block that
`write_lazy` has replaced or for `reclaim`, in the loop of `reclaim`. -/
inductive WriterPc
  | idle
  | check (old : ℕ)
  | scan (old : Option ℕ) (i m : ℕ)
  | sweep (floorMin i : ℕ)

/-- A writer with its retired blocks and their epochs. -/
structure Writer where
  pc : WriterPc
  retired : List (ℕ × ℕ)

/-- The cells, the blocks as they were allocated and the ones freed, the registry. -/
structure World (γ α : Type*) where
  heads : γ → Head α
  blocks : List (Block α)
  freed : List ℕ
  slots : ℕ → ℕ
  handles : ℕ
  anyHandleEver : Bool
  readers : ℕ → Reader γ α
  writers : γ → Writer

def World.new : World γ α :=
  ⟨fun _ => .empty, [], [], fun _ => idleFloor, 0, false, fun _ => .new, fun _ => ⟨.idle, []⟩⟩

def blockEpoch (blocks : List (Block α)) (b : ℕ) : ℕ := (blocks[b]?.map Block.epoch).getD 0

def World.writerEpoch (st : World γ α) (c : γ) : ℕ :=
  match st.heads c with
  | .empty => 0
  | .inline _ epoch => epoch
  | .block b => blockEpoch st.blocks b

/-- The epoch of the next write. -/
def World.nextEpoch (st : World γ α) (c : γ) : ℕ := (st.writerEpoch c + 1) % 2 ^ 64

/-- What `read_ref` finds at the head. -/
def Head.seen : Head α → ReaderPc γ α
  | .empty => .leave none
  | .inline value epoch => .leave (some (value, epoch))
  | .block b => .loaded b

/-- A block is read: its epoch goes onto the stack. -/
def Reader.pinBlock (rd : Reader γ α) (b epoch : ℕ) : Reader γ α :=
  ⟨.idle, (rd.holds.push epoch).1, .block b epoch (rd.holds.push epoch).2 :: rd.refs⟩

/-- The head a write leaves, with the block it is in; `small` is for values of at most 4 bytes,
whose epoch has 31 bits. -/
def World.published (st : World γ α) (small : Bool) (value : α) (epoch : ℕ) :
    Head α × List (Block α) :=
  if small then (.inline value (epoch % 2 ^ 31), st.blocks)
  else (.block st.blocks.length, st.blocks ++ [⟨value, none, epoch⟩])

/-- The block at a head that is replaced. -/
def Writer.retire (w : Writer) (blocks : List (Block α)) (head : Head α) : Writer :=
  match head.id? with
  | some b => { w with retired := w.retired ++ [(b, blockEpoch blocks b)] }
  | none => w

variable [DecidableEq γ]

/-- `Cell::write_with_epoch` of a cell, whose writer becomes `w`. -/
def World.publish (st : World γ α) (small : γ → Bool) (c : γ) (value : α) (epoch : ℕ) (w : Writer) :
    World γ α :=
  { st with
    heads := update st.heads c (st.published (small c) value epoch).1
    blocks := (st.published (small c) value epoch).2
    writers := update st.writers c w }

/-- `Cell::append`. -/
def World.extend (st : World γ α) (c : γ) (value : α) : World γ α :=
  { st with
    heads := update st.heads c (.block st.blocks.length)
    blocks := st.blocks ++ [⟨value, (st.heads c).id?, st.nextEpoch c⟩] }

def World.setReader (st : World γ α) (r : ℕ) (rd : Reader γ α) (slot : ℕ) : World γ α :=
  { st with slots := update st.slots r slot, readers := update st.readers r rd }

def World.setWriter (st : World γ α) (c : γ) (w : Writer) : World γ α :=
  { st with writers := update st.writers c w }

def World.free (st : World γ α) (b : ℕ) : World γ α := { st with freed := st.freed ++ [b] }

/-- What the writer of a cell does next. -/
def World.next (st : World γ α) (c : γ) : World γ α :=
  let w := st.writers c
  match w.pc with
  | .idle => st
  | .check old =>
    if st.anyHandleEver then st.setWriter c { w with pc := .scan (some old) 0 idleFloor }
    else (st.free old).setWriter c { w with pc := .idle }
  | .scan old i m =>
    if i < maxReaders then st.setWriter c { w with pc := .scan old (i + 1) (min m (st.slots i)) }
    else
      match old with
      | none => st.setWriter c { w with pc := .sweep m 0 }
      | some old =>
        let epoch := blockEpoch st.blocks old
        if epoch < m then (st.free old).setWriter c { w with pc := .idle }
        else st.setWriter c { pc := .idle, retired := w.retired ++ [(old, epoch)] }
  | .sweep floorMin i =>
    match w.retired[i]? with
    | some (b, epoch) =>
      if epoch < floorMin then
        (st.free b).setWriter c { w with retired := swapRemove w.retired i }
      else st.setWriter c { w with pc := .sweep floorMin (i + 1) }
    | none => st.setWriter c { w with pc := .idle }

inductive CellAction (γ α : Type*)
  | acquire
  | pin (r : ℕ) (c : γ)
  | load (r : ℕ)
  | leave (r : ℕ)
  | tighten (r : ℕ)
  | drop (r k : ℕ)
  | write (c : γ) (value : α)
  | writeLazy (c : γ) (value : α)
  | append (c : γ) (value : α)
  | writeWithEpoch (c : γ) (value : α) (epoch : ℕ)
  | reclaim (c : γ)
  | next (c : γ)

/-- One access to memory that threads share, with what the thread does on its own before the next.
A call of a writer begins when the one before is done. -/
inductive CellStep (small : γ → Bool) : CellAction γ α → World γ α → World γ α → Prop
  | acquire {st} : st.handles < maxReaders →
      CellStep small .acquire st { st with handles := st.handles + 1, anyHandleEver := true }
  | pin {st r c} : r < st.handles → (st.readers r).pc = .idle →
      CellStep small (.pin r c) st (st.setReader r { st.readers r with pc := .pinned c } 1)
  | load {st r c} : (st.readers r).pc = .pinned c →
      CellStep small (.load r) st
        (st.setReader r { st.readers r with pc := (st.heads c).seen } (st.slots r))
  | leave {st r inner} : (st.readers r).pc = .leave inner →
      CellStep small (.leave r) st
        (st.setReader r
          { st.readers r with
            pc := .idle
            refs := (inner.map fun q => .inline q.1 q.2).toList ++ (st.readers r).refs }
          idleFloor)
  | tighten {st r b} : (st.readers r).pc = .loaded b →
      CellStep small (.tighten r) st
        (st.setReader r ((st.readers r).pinBlock b (blockEpoch st.blocks b))
          ((st.readers r).pinBlock b (blockEpoch st.blocks b)).holds.floor)
  | dropInline {st r k value epoch} : (st.readers r).pc = .idle →
      (st.readers r).refs[k]? = some (.inline value epoch) →
      CellStep small (.drop r k) st
        (st.setReader r { st.readers r with refs := (st.readers r).refs.eraseIdx k } (st.slots r))
  | dropBlock {st r k b epoch wasStacked} : (st.readers r).pc = .idle →
      (st.readers r).refs[k]? = some (.block b epoch wasStacked) →
      CellStep small (.drop r k) st
        (st.setReader r
          { st.readers r with
            holds := (st.readers r).holds.remove epoch wasStacked
            refs := (st.readers r).refs.eraseIdx k }
          ((st.readers r).holds.remove epoch wasStacked).floor)
  | write {st c value} : (st.writers c).pc = .idle →
      CellStep small (.write c value) st
        (st.publish small c value (st.nextEpoch c) ((st.writers c).retire st.blocks (st.heads c)))
  | writeLazy {st c value} : (st.writers c).pc = .idle →
      CellStep small (.writeLazy c value) st
        (st.publish small c value (st.nextEpoch c)
          { st.writers c with pc := ((st.heads c).id?.map .check).getD .idle })
  | append {st c value} : (st.writers c).pc = .idle →
      CellStep small (.append c value) st (st.extend c value)
  | writeWithEpoch {st c value epoch} : (st.writers c).pc = .idle → epoch < 2 ^ 64 →
      CellStep small (.writeWithEpoch c value epoch) st
        (st.publish small c value epoch ((st.writers c).retire st.blocks (st.heads c)))
  | reclaim {st c} : (st.writers c).pc = .idle →
      CellStep small (.reclaim c) st
        (st.setWriter c { st.writers c with pc := .scan none 0 idleFloor })
  | next {st c} : CellStep small (.next c) st (st.next c)

/-! ### The floor of a reader -/

theorem swapRemove_perm {β : Type*} {xs : List β} {i : ℕ} {x : β} (h : xs[i]? = some x) :
    Perm xs (x :: swapRemove xs i) := by
  rcases eq_nil_or_concat' xs with rfl | ⟨ys, z, rfl⟩
  · cases h
  have hlast : swapRemove (ys ++ [z]) i = ((ys ++ [z]).set i z).dropLast := by
    simp [swapRemove]
  rw [hlast]
  by_cases hlt : i < ys.length
  · rw [getElem?_append_left hlt, getElem?_eq_getElem hlt, some.injEq] at h
    subst h
    rw [set_append_left _ _ hlt, dropLast_concat]
    calc Perm (ys ++ [z]) (z :: ys) := perm_append_singleton z ys
      Perm _ (z :: ys[i] :: ys.eraseIdx i) := (getElem_cons_eraseIdx_perm hlt).symm.cons z
      Perm _ (ys[i] :: z :: ys.eraseIdx i) := .swap ..
      Perm _ (ys[i] :: ys.set i z) := (set_perm_cons_eraseIdx hlt z).symm.cons _
  · have hi := (List.getElem?_eq_some_iff.mp h).1
    obtain rfl : i = ys.length := by
      rw [length_append, length_singleton] at hi
      omega
    rw [getElem?_concat_length, some.injEq] at h
    subst h
    rw [set_append_right _ _ (Nat.le_refl _), Nat.sub_self, set_cons_zero, dropLast_concat]
    exact perm_append_singleton z ys

theorem le_foldl_min {n m : ℕ} {xs : List ℕ} : n ≤ xs.foldl min m ↔ n ≤ m ∧ ∀ x ∈ xs, n ≤ x := by
  induction xs generalizing m with
  | nil => simp
  | cons x xs ih => simp [ih, and_assoc]

theorem HoldStack.le_floor_iff {s : HoldStack} {n : ℕ} : n ≤ s.floor ↔
    n ≤ (if 0 < s.overflowCount then s.overflowFloor else idleFloor) ∧ ∀ e ∈ s.epochs, n ≤ e :=
  le_foldl_min

/-- The stack has these epochs in its places, and these that it only counts. -/
structure HoldStack.Keeps (s : HoldStack) (stacked counted : List ℕ) : Prop where
  stacked : s.epochs.Perm stacked
  overflow : s.overflowCount = counted.length
  overflow_le : ∀ e ∈ counted, s.overflowFloor ≤ e

namespace HoldStack.Keeps
variable {s : HoldStack} {stacked stacked' counted counted' : List ℕ} {e : ℕ}

theorem new : HoldStack.new.Keeps [] [] := ⟨.refl _, rfl, nofun⟩

theorem perm (h : s.Keeps stacked counted) (hs : stacked.Perm stacked')
    (hc : counted.Perm counted') : s.Keeps stacked' counted' :=
  ⟨h.stacked.trans hs, h.overflow.trans hc.length_eq,
    fun e he => h.overflow_le e (hc.mem_iff.mpr he)⟩

theorem push (h : s.Keeps stacked counted) (e : ℕ) :
    (s.push e).1.Keeps ((if (s.push e).2 = true then [e] else []) ++ stacked)
      ((if (s.push e).2 = false then [e] else []) ++ counted) := by
  by_cases hfits : s.epochs.length < holdDepth
  · rw [HoldStack.push, if_pos hfits]
    exact ⟨(perm_append_singleton _ _).trans (h.stacked.cons _), h.overflow, h.overflow_le⟩
  · rw [HoldStack.push, if_neg hfits]
    refine ⟨h.stacked, congrArg (· + 1) h.overflow, fun e' he' => ?_⟩
    dsimp only
    rcases mem_cons.mp he' with rfl | he'
    · split <;> omega
    · have hle := h.overflow_le e' he'
      split <;> omega

theorem removeStacked (h : s.Keeps (e :: stacked) counted) :
    (s.remove e true).Keeps stacked counted := by
  have hmem : e ∈ s.epochs := h.stacked.mem_iff.mpr mem_cons_self
  obtain ⟨i, hi⟩ := isSome_iff_exists.mp (isSome_idxOf?.mpr hmem)
  have hat : s.epochs[i]? = some e := by
    obtain ⟨hlt, hat, -⟩ := idxOf?_eq_some_iff.mp hi
    rw [getElem?_eq_getElem hlt, hat]
  simp only [HoldStack.remove, if_true, hi]
  exact ⟨((swapRemove_perm hat).symm.trans h.stacked).cons_inv, h.overflow, h.overflow_le⟩

theorem removeCounted (h : s.Keeps stacked (e :: counted)) :
    (s.remove e false).Keeps stacked counted := by
  have hcount : s.overflowCount - 1 = counted.length := by
    rw [h.overflow, length_cons, Nat.add_sub_cancel]
  simp only [HoldStack.remove, reduceCtorEq, if_false]
  refine ⟨h.stacked, hcount, fun e' he' => ?_⟩
  have hne : s.overflowCount - 1 ≠ 0 := by
    rw [hcount]
    exact (length_pos_of_mem he').ne'
  rw [if_neg hne]
  exact h.overflow_le e' (mem_cons_of_mem _ he')

theorem remove {flag : Bool} (rest : Bool → List ℕ)
    (h : s.Keeps ((if flag = true then [e] else []) ++ rest true)
      ((if flag = false then [e] else []) ++ rest false)) :
    (s.remove e flag).Keeps (rest true) (rest false) := by
  cases flag with
  | true => exact removeStacked h
  | false => exact removeCounted h

theorem floor_le (h : s.Keeps stacked counted) (he : e ∈ stacked ∨ e ∈ counted) : s.floor ≤ e := by
  obtain ⟨hoverflow, hstacked⟩ := HoldStack.le_floor_iff.mp (le_refl s.floor)
  rcases he with he | he
  · exact hstacked e (h.stacked.mem_iff.mpr he)
  · have hcount : 0 < s.overflowCount := by
      rw [h.overflow]
      exact length_pos_of_mem he
    rw [if_pos hcount] at hoverflow
    exact hoverflow.trans (h.overflow_le e he)

/-- Nothing is held: the floor is the one of an idle slot. -/
theorem floor_idle (h : s.Keeps [] []) : s.floor = idleFloor := by
  have hstacked := perm_nil.mp h.stacked
  have hoverflow := h.overflow
  simp [HoldStack.floor, hstacked, hoverflow]

end HoldStack.Keeps

theorem HoldStack.overflowFloor_push_pos {s : HoldStack} {e : ℕ} (h : 1 ≤ s.overflowFloor)
    (he : 1 ≤ e) : 1 ≤ (s.push e).1.overflowFloor := by
  unfold HoldStack.push
  split
  · exact h
  · dsimp only
    split <;> omega

theorem HoldStack.overflowFloor_remove_pos {s : HoldStack} {e : ℕ} {flag : Bool}
    (h : 1 ≤ s.overflowFloor) : 1 ≤ (s.remove e flag).overflowFloor := by
  unfold HoldStack.remove
  split
  · split <;> exact h
  · dsimp only
    split
    · decide
    · exact h

/-- The epoch a ref holds, where it is on the stack or where it is only counted. -/
def ReadRef.epoch? (stacked : Bool) : ReadRef α → Option ℕ
  | .block _ epoch wasStacked => if wasStacked = stacked then some epoch else none
  | .inline .. => none

def Reader.epochs (rd : Reader γ α) (stacked : Bool) : List ℕ :=
  rd.refs.filterMap (ReadRef.epoch? stacked)

/-- A reader may read a block: it has loaded it, or has a ref to it. -/
def Reader.Holds (rd : Reader γ α) (b : ℕ) : Prop :=
  rd.pc = .loaded b ∨ ∃ epoch wasStacked, .block b epoch wasStacked ∈ rd.refs

/-- A reader's stack has the epochs of its refs, and its slot none that is higher. -/
structure ReaderOk (blocks : List (Block α)) (slot : ℕ) (rd : Reader γ α) : Prop where
  stacked : rd.holds.epochs.Perm (rd.epochs true)
  overflow : rd.holds.overflowCount = (rd.epochs false).length
  overflow_le : ∀ e ∈ rd.epochs false, rd.holds.overflowFloor ≤ e
  overflow_pos : 1 ≤ rd.holds.overflowFloor
  held : ∀ b epoch wasStacked, .block b epoch wasStacked ∈ rd.refs →
    ∃ blk, blocks[b]? = some blk ∧ blk.epoch = epoch ∧ 1 ≤ epoch
  loaded : ∀ b, rd.pc = .loaded b → ∃ blk, blocks[b]? = some blk ∧ 1 ≤ blk.epoch
  slot_le : slot ≤ rd.holds.floor
  pinned : rd.pc ≠ .idle → slot ≤ 1

section
omit [DecidableEq γ]
variable {blocks : List (Block α)} {slot : ℕ} {rd : Reader γ α} {b : ℕ}

theorem ReaderOk.new : ReaderOk blocks idleFloor (.new : Reader γ α) :=
  ⟨.refl _, rfl, nofun, show 1 ≤ idleFloor by decide, nofun, nofun, le_refl _,
    fun h => absurd rfl h⟩

theorem mem_epochs {e : ℕ} {stacked : Bool} :
    e ∈ rd.epochs stacked ↔ ∃ b, .block b e stacked ∈ rd.refs := by
  simp only [Reader.epochs, mem_filterMap]
  constructor
  · rintro ⟨ref, href, he⟩
    cases ref with
    | inline => cases he
    | block b epoch wasStacked =>
      simp only [ReadRef.epoch?, ite_none_right_eq_some, some.injEq] at he
      obtain ⟨rfl, rfl⟩ := he
      exact ⟨b, href⟩
  · rintro ⟨b, href⟩
    exact ⟨_, href, by simp [ReadRef.epoch?]⟩

theorem epochs_drop {k : ℕ} {ref : ReadRef α} (hk : rd.refs[k]? = some ref) (stacked : Bool) :
    (rd.epochs stacked).Perm
      ((ref.epoch? stacked).toList ++ (rd.refs.eraseIdx k).filterMap (ReadRef.epoch? stacked)) := by
  obtain ⟨hlt, rfl⟩ := List.getElem?_eq_some_iff.mp hk
  have hperm := ((getElem_cons_eraseIdx_perm hlt).symm).filterMap (ReadRef.epoch? stacked)
  refine hperm.trans (.of_eq ?_)
  rw [filterMap_cons]
  cases ReadRef.epoch? stacked rd.refs[k] <;> rfl

section
variable (h : ReaderOk blocks slot rd)

include h

theorem ReaderOk.mono (more : List (Block α)) : ReaderOk (blocks ++ more) slot rd where
  stacked := h.stacked
  overflow := h.overflow
  overflow_le := h.overflow_le
  overflow_pos := h.overflow_pos
  held b epoch wasStacked href := by
    obtain ⟨blk, hblk, hepoch⟩ := h.held b epoch wasStacked href
    exact ⟨blk, List.getElem?_append_left (List.getElem?_eq_some_iff.mp hblk).1 ▸ hblk, hepoch⟩
  loaded b hb := by
    obtain ⟨blk, hblk, hepoch⟩ := h.loaded b hb
    exact ⟨blk, List.getElem?_append_left (List.getElem?_eq_some_iff.mp hblk).1 ▸ hblk, hepoch⟩
  slot_le := h.slot_le
  pinned := h.pinned

theorem ReaderOk.floor_pos : 1 ≤ rd.holds.floor := by
  refine HoldStack.le_floor_iff.mpr ⟨?_, fun e he => ?_⟩
  · split
    · exact h.overflow_pos
    · decide
  · obtain ⟨b, href⟩ := mem_epochs.mp (h.stacked.subset he)
    obtain ⟨blk, -, -, hpos⟩ := h.held b e true href
    exact hpos

theorem ReaderOk.keeps : rd.holds.Keeps (rd.epochs true) (rd.epochs false) :=
  ⟨h.stacked, h.overflow, h.overflow_le⟩

theorem ReaderOk.floor_le {epoch : ℕ} {wasStacked : Bool}
    (href : .block b epoch wasStacked ∈ rd.refs) : rd.holds.floor ≤ epoch := by
  have hmem := mem_epochs.mpr ⟨b, href⟩
  cases wasStacked with
  | true => exact h.keeps.floor_le (.inl hmem)
  | false => exact h.keeps.floor_le (.inr hmem)

/-- The slot of a reader is not above the epoch of any block it may read. -/
theorem ReaderOk.slot_le_epoch (hb : rd.Holds b) :
    ∃ blk, blocks[b]? = some blk ∧ slot ≤ blk.epoch := by
  rcases hb with hpc | ⟨epoch, wasStacked, href⟩
  · obtain ⟨blk, hblk, hpos⟩ := h.loaded b hpc
    exact ⟨blk, hblk, (h.pinned (by rw [hpc]; nofun)).trans hpos⟩
  · obtain ⟨blk, hblk, rfl, -⟩ := h.held b epoch wasStacked href
    exact ⟨blk, hblk, h.slot_le.trans (h.floor_le href)⟩

theorem ReaderOk.pin (c : γ) : ReaderOk blocks 1 { rd with pc := .pinned c } :=
  { h with loaded := nofun, slot_le := h.floor_pos, pinned := fun _ => le_refl 1 }

theorem ReaderOk.load {c : γ} (hpc : rd.pc = .pinned c) {pc : ReaderPc γ α}
    (hseen : ∀ b, pc = .loaded b → ∃ blk, blocks[b]? = some blk ∧ 1 ≤ blk.epoch) :
    ReaderOk blocks slot { rd with pc } :=
  { h with loaded := hseen, pinned := fun _ => h.pinned (by rw [hpc]; nofun) }

theorem ReaderOk.leave (hfloor : rd.holds.floor = idleFloor) (inner : Option (α × ℕ)) :
    ReaderOk (γ := γ) blocks idleFloor
      { rd with
        pc := .idle
        refs := (inner.map fun q => .inline q.1 q.2).toList ++ rd.refs } := by
  have hepochs :
      ∀ stacked, ((inner.map fun q => ReadRef.inline q.1 q.2).toList ++ rd.refs).filterMap
        (ReadRef.epoch? stacked) = rd.epochs stacked := by
    intro stacked
    cases inner <;> rfl
  refine ⟨?_, ?_, ?_, h.overflow_pos, fun b epoch wasStacked href => ?_, nofun, hfloor.ge,
    fun hne => absurd rfl hne⟩
  · rw [Reader.epochs, hepochs]
    exact h.stacked
  · rw [Reader.epochs, hepochs]
    exact h.overflow
  · rw [Reader.epochs, hepochs]
    exact h.overflow_le
  · refine h.held b epoch wasStacked ?_
    cases inner with
    | none => exact href
    | some q => exact (mem_cons.mp href).resolve_left nofun

/-- The stack takes the epoch of one more ref. -/
theorem ReaderOk.pinBlock {blk : Block α} (hblk : blocks[b]? = some blk) (hpos : 1 ≤ blk.epoch) :
    ReaderOk blocks (rd.pinBlock b blk.epoch).holds.floor (rd.pinBlock b blk.epoch) := by
  have hheld : ∀ b' epoch wasStacked w, .block b' epoch wasStacked ∈
      .block b blk.epoch w :: rd.refs →
      ∃ blk, blocks[b']? = some blk ∧ blk.epoch = epoch ∧ 1 ≤ epoch := by
    intro b' epoch wasStacked w href
    rcases mem_cons.mp href with heq | href
    · cases heq
      exact ⟨blk, hblk, rfl, hpos⟩
    · exact h.held b' epoch wasStacked href
  have hcons : ∀ w stacked, (.block b blk.epoch w :: rd.refs).filterMap
      (ReadRef.epoch? stacked) =
        (if w = stacked then [blk.epoch] else []) ++ rd.epochs stacked := by
    intro w stacked
    cases w <;> cases stacked <;> rfl
  have hkeeps := h.keeps.push blk.epoch
  refine ⟨?_, ?_, ?_, HoldStack.overflowFloor_push_pos h.overflow_pos hpos,
    fun b' epoch wasStacked => hheld b' epoch wasStacked _, nofun, le_refl _,
      fun hne => absurd rfl hne⟩
  · rw [Reader.epochs, Reader.pinBlock, hcons]
    exact hkeeps.stacked
  · rw [Reader.epochs, Reader.pinBlock, hcons]
    exact hkeeps.overflow
  · rw [Reader.epochs, Reader.pinBlock, hcons]
    exact hkeeps.overflow_le

theorem ReaderOk.dropInline {k epoch : ℕ} {value : α} (hpc : rd.pc = .idle)
    (hk : rd.refs[k]? = some (.inline value epoch)) :
    ReaderOk blocks slot { rd with refs := rd.refs.eraseIdx k } := by
  have hperm := fun stacked => epochs_drop hk stacked
  refine ⟨h.stacked.trans (hperm true), h.overflow.trans (hperm false).length_eq,
    fun e he => h.overflow_le e ((hperm false).mem_iff.mpr he), h.overflow_pos,
    fun b e w href => h.held b e w (mem_of_mem_eraseIdx href), h.loaded, h.slot_le,
    fun hne => absurd hpc hne⟩

theorem ReaderOk.dropBlock {k epoch : ℕ} {wasStacked : Bool} (hpc : rd.pc = .idle)
    (hk : rd.refs[k]? = some (.block b epoch wasStacked)) :
    ReaderOk blocks (rd.holds.remove epoch wasStacked).floor
      { rd with holds := rd.holds.remove epoch wasStacked, refs := rd.refs.eraseIdx k } := by
  have hheld : ∀ b' e w, .block b' e w ∈ rd.refs.eraseIdx k → _ := fun b' e w href =>
    h.held b' e w (mem_of_mem_eraseIdx href)
  have hdrop : ∀ stacked,
    (rd.epochs stacked).Perm ((if wasStacked = stacked then [epoch] else []) ++
      (rd.refs.eraseIdx k).filterMap (ReadRef.epoch? stacked)) := by
    intro stacked
    have hperm := epochs_drop hk stacked
    cases wasStacked <;> cases stacked <;> exact hperm
  have hkeeps := (h.keeps.perm (hdrop true) (hdrop false)).remove
    fun stacked => (rd.refs.eraseIdx k).filterMap (ReadRef.epoch? stacked)
  exact ⟨hkeeps.stacked, hkeeps.overflow, hkeeps.overflow_le,
    HoldStack.overflowFloor_remove_pos h.overflow_pos,
    hheld, fun b' hb => absurd (hpc.symm.trans hb) nofun, le_refl _, fun hne => absurd hpc hne⟩

end

/-- Where there are no blocks, nothing is held. -/
theorem ReaderOk.floor_idle (h : ReaderOk ([] : List (Block α)) slot rd) :
    rd.holds.floor = idleFloor := by
  have hnone : ∀ stacked, rd.epochs stacked = [] := by
    intro stacked
    refine eq_nil_iff_forall_not_mem.mpr fun e he => ?_
    obtain ⟨b, href⟩ := mem_epochs.mp he
    obtain ⟨blk, hblk, -⟩ := h.held b e stacked href
    cases hblk
  have hkeeps := h.keeps
  rw [hnone, hnone] at hkeeps
  exact hkeeps.floor_idle

end

/-! ### Who may free a block -/

/-- The blocks a writer has replaced and not freed. -/
def Writer.owed (w : Writer) : List ℕ :=
  (match w.pc with
    | .check old | .scan (some old) _ _ => [old]
    | _ => []) ++ w.retired.map Prod.fst

/-- The blocks that the writer of a cell will free. -/
def pool (head : Head α) (w : Writer) : List ℕ := head.id?.toList ++ w.owed

structure Pools (heads : γ → Head α) (writers : γ → Writer) (blocks : List (Block α))
    (freed : List ℕ) : Prop where
  nodup : ∀ c, (pool (heads c) (writers c)).Nodup
  disjoint : ∀ c c' b, b ∈ pool (heads c) (writers c) → b ∈ pool (heads c') (writers c') → c = c'
  live : ∀ c, ∀ b ∈ pool (heads c) (writers c), b < blocks.length ∧ b ∉ freed
  unlinked : ∀ c, ∀ b ∈ pool (heads c) (writers c), ∀ blk ∈ blocks, blk.prev ≠ some b
  linked : ∀ blk ∈ blocks, ∀ b, blk.prev = some b → b < blocks.length ∧ b ∉ freed
  freed_nodup : freed.Nodup
  freed_lt : ∀ b ∈ freed, b < blocks.length
  epochs : ∀ c, ∀ q ∈ (writers c).retired, q.2 = blockEpoch blocks q.1

section
variable {heads : γ → Head α} {writers : γ → Writer} {blocks : List (Block α)} {freed : List ℕ}
  {c : γ} {hd : Head α} {w : Writer} {b : ℕ} {blk : Block α}

omit [DecidableEq γ] in
theorem Pools.new : Pools (fun _ : γ => (.empty : Head α)) (fun _ => ⟨.idle, []⟩) [] [] :=
  ⟨fun _ => .nil, nofun, nofun, nofun, nofun, .nil, nofun, nofun⟩

omit [DecidableEq γ] in
theorem blockEpoch_append (hb : b < blocks.length) (more : List (Block α)) :
    blockEpoch (blocks ++ more) b = blockEpoch blocks b := by
  rw [blockEpoch, blockEpoch, getElem?_append_left hb]

/-- The pool of one cell changes: what it has now it had, or it is new. -/
theorem Pools.update (h : Pools heads writers blocks freed) (hd : Head α) (more : List (Block α))
    (hnodup : (pool hd w).Nodup)
    (hmem : ∀ b ∈ pool hd w, b ∈ pool (heads c) (writers c) ∨ b = blocks.length ∧ more ≠ [])
    (hunlinked : ∀ b ∈ pool hd w, ∀ blk ∈ more, blk.prev ≠ some b)
    (hlinked : ∀ blk ∈ more, ∀ b, blk.prev = some b → b ∈ pool (heads c) (writers c))
    (hepochs : ∀ q ∈ w.retired, q.2 = blockEpoch blocks q.1)
    (hretired : ∀ q ∈ w.retired, q.1 < blocks.length) :
    Pools (Function.update heads c hd) (Function.update writers c w) (blocks ++ more) freed := by
  have hlen : blocks.length ≤ (blocks ++ more).length := by simp
  have hnew : ∀ {c'} b, b ∈ pool (heads c') (writers c') → b ≠ blocks.length :=
    fun {c'} b hb => (h.live c' b hb).1.ne
  have hself : pool (Function.update heads c hd c) (Function.update writers c w c) = pool hd w := by
    rw [update_self, update_self]
  have hother :
      ∀ {c'}, c' ≠ c → pool (Function.update heads c hd c') (Function.update writers c w c') =
        pool (heads c') (writers c') := by
    intro c' hc
    rw [update_of_ne hc, update_of_ne hc]
  refine ⟨fun c' => ?_, fun c₁ c₂ b h₁ h₂ => ?_, fun c' b hb => ?_, fun c' b hb blk hblk => ?_,
    fun blk hblk b hb => ?_, h.freed_nodup, fun b hb => (h.freed_lt b hb).trans_le hlen,
    fun c' q hq => ?_⟩
  · by_cases hc : c' = c
    · subst hc
      rwa [hself]
    · rw [hother hc]
      exact h.nodup c'
  · by_cases hc₁ : c₁ = c <;> by_cases hc₂ : c₂ = c
    · rw [hc₁, hc₂]
    · subst hc₁
      rw [hself] at h₁
      rw [hother hc₂] at h₂
      rcases hmem b h₁ with h₁ | ⟨rfl, -⟩
      · exact h.disjoint _ _ b h₁ h₂
      · exact absurd rfl (hnew _ h₂)
    · subst hc₂
      rw [hself] at h₂
      rw [hother hc₁] at h₁
      rcases hmem b h₂ with h₂ | ⟨rfl, -⟩
      · exact h.disjoint _ _ b h₁ h₂
      · exact absurd rfl (hnew _ h₁)
    · rw [hother hc₁] at h₁
      rw [hother hc₂] at h₂
      exact h.disjoint _ _ b h₁ h₂
  · have hold :
        ∀ {c'}, b ∈ pool (heads c') (writers c') → b < (blocks ++ more).length ∧ b ∉ freed :=
      fun hb => ⟨(h.live _ b hb).1.trans_le hlen, (h.live _ b hb).2⟩
    by_cases hc : c' = c
    · subst hc
      rw [hself] at hb
      rcases hmem b hb with hb | ⟨rfl, hmore⟩
      · exact hold hb
      · have := length_pos_iff.mpr hmore
        exact ⟨by simpa using this, fun hf => (h.freed_lt _ hf).ne rfl⟩
    · rw [hother hc] at hb
      exact hold hb
  · rcases mem_append.mp hblk with hblk | hblk <;> by_cases hc : c' = c
    · subst hc
      rw [hself] at hb
      rcases hmem b hb with hb | ⟨rfl, -⟩
      · exact h.unlinked _ b hb blk hblk
      · exact fun hprev => (h.linked blk hblk _ hprev).1.ne rfl
    · rw [hother hc] at hb
      exact h.unlinked c' b hb blk hblk
    · subst hc
      rw [hself] at hb
      exact hunlinked b hb blk hblk
    · rw [hother hc] at hb
      exact fun hprev => hc (h.disjoint _ _ b hb (hlinked blk hblk b hprev))
  · rcases mem_append.mp hblk with hblk | hblk
    · obtain ⟨hlt, hf⟩ := h.linked blk hblk b hb
      exact ⟨hlt.trans_le hlen, hf⟩
    · obtain ⟨hlt, hf⟩ := h.live c b (hlinked blk hblk b hb)
      exact ⟨hlt.trans_le hlen, hf⟩
  · have hq' : q.2 = blockEpoch blocks q.1 ∧ q.1 < blocks.length := by
      by_cases hc : c' = c
      · subst hc
        rw [update_self] at hq
        exact ⟨hepochs q hq, hretired q hq⟩
      · rw [update_of_ne hc] at hq
        exact ⟨h.epochs c' q hq, (h.live c' q.1 (by
          refine mem_append_right _ (mem_append_right _ ?_)
          exact mem_map_of_mem hq)).1⟩
    rw [blockEpoch_append hq'.2]
    exact hq'.1

omit [DecidableEq γ] in
/-- A block in no pool, which no block leads to, is freed. -/
theorem Pools.free (h : Pools heads writers blocks freed) (hlt : b < blocks.length) (hf : b ∉ freed)
    (hpool : ∀ c, b ∉ pool (heads c) (writers c)) (hlink : ∀ blk ∈ blocks, blk.prev ≠ some b) :
    Pools heads writers blocks (freed ++ [b]) where
  nodup := h.nodup
  disjoint := h.disjoint
  live c b' hb' := by
    obtain ⟨hlt', hf'⟩ := h.live c b' hb'
    refine ⟨hlt', fun hmem => ?_⟩
    rcases mem_append.mp hmem with hmem | hmem
    · exact hf' hmem
    · obtain rfl := mem_singleton.mp hmem
      exact hpool c hb'
  unlinked := h.unlinked
  linked blk hblk b' hb' := by
    obtain ⟨hlt', hf'⟩ := h.linked blk hblk b' hb'
    refine ⟨hlt', fun hmem => ?_⟩
    rcases mem_append.mp hmem with hmem | hmem
    · exact hf' hmem
    · obtain rfl := mem_singleton.mp hmem
      exact hlink blk hblk hb'
  freed_nodup := nodup_append.mpr ⟨h.freed_nodup, nodup_singleton b, fun x hx y hy => by
    obtain rfl := mem_singleton.mp hy
    exact fun he => hf (he ▸ hx)⟩
  freed_lt b' hb' := by
    rcases mem_append.mp hb' with hb' | hb'
    · exact h.freed_lt b' hb'
    · obtain rfl := mem_singleton.mp hb'
      exact hlt
  epochs := h.epochs

/-- The writer of a cell frees a block of its pool. -/
theorem Pools.take (h : Pools heads writers blocks freed)
    (hperm : (pool (heads c) (writers c)).Perm (b :: pool (heads c) w))
    (hretired : ∀ q ∈ w.retired, q ∈ (writers c).retired) :
    Pools heads (Function.update writers c w) blocks (freed ++ [b]) := by
  have hb : b ∈ pool (heads c) (writers c) := hperm.mem_iff.mpr mem_cons_self
  have hnodup := hperm.nodup_iff.mp (h.nodup c)
  have hupdate : Pools heads (Function.update writers c w) blocks freed := by
    have hpools := h.update (c := c) (w := w) (heads c) [] (nodup_cons.mp hnodup).2
      (fun b' hb' => .inl (hperm.mem_iff.mpr (mem_cons_of_mem b hb'))) nofun nofun
      (fun q hq => h.epochs c q (hretired q hq))
      (fun q hq => (h.live c q.1 (mem_append_right _ (mem_append_right _
        (mem_map_of_mem (hretired q hq))))).1)
    rwa [Function.update_eq_self, List.append_nil] at hpools
  obtain ⟨hlt, hf⟩ := h.live c b hb
  refine hupdate.free hlt hf (fun c' hc' => ?_) (h.unlinked c b hb)
  by_cases hc : c' = c
  · subst hc
    rw [update_self] at hc'
    exact (nodup_cons.mp hnodup).1 hc'
  · rw [update_of_ne hc] at hc'
    exact hc (h.disjoint _ _ b hc' hb)

end

/-! ### Readers and writers together -/

/-- What the scan of a writer has got out of the slot of a reader, at most. -/
def Writer.bound (w : Writer) (r : ℕ) : Option ℕ :=
  match w.pc with
  | .scan _ i m => if r < i then some m else none
  | .sweep floorMin _ => some floorMin
  | _ => none

structure Invariant (st : World γ α) : Prop where
  pools : Pools st.heads st.writers st.blocks st.freed
  readers : ∀ r, ReaderOk st.blocks (st.slots r) (st.readers r)
  unregistered : ∀ r, st.handles ≤ r → st.readers r = .new
  handles : st.handles ≤ maxReaders ∧ (0 < st.handles → st.anyHandleEver = true)
  live : ∀ r b, (st.readers r).Holds b → b ∉ st.freed
  scanned : ∀ c r b m, (st.readers r).Holds b → b ∈ (st.writers c).owed →
    (st.writers c).bound r = some m → m ≤ blockEpoch st.blocks b

section
variable {st : World γ α} {r : ℕ} {c : γ} {b : ℕ} {rd : Reader γ α} {w : Writer}

section
omit [DecidableEq γ]

theorem Invariant.new : Invariant (.new : World γ α) :=
  ⟨.new, fun _ => .new, fun _ _ => rfl, ⟨Nat.zero_le _, nofun⟩,
    fun _ _ h => h.elim nofun nofun, fun _ _ _ _ h => h.elim nofun nofun⟩

theorem Invariant.lt_handles (h : Invariant st) (hb : (st.readers r).Holds b) : r < st.handles := by
  by_contra hle
  rw [h.unregistered r (Nat.le_of_not_lt hle)] at hb
  exact hb.elim nofun nofun

theorem Invariant.slot_le (h : Invariant st) (hb : (st.readers r).Holds b) :
    b < st.blocks.length ∧ st.slots r ≤ blockEpoch st.blocks b := by
  obtain ⟨blk, hblk, hle⟩ := (h.readers r).slot_le_epoch hb
  refine ⟨(List.getElem?_eq_some_iff.mp hblk).1, ?_⟩
  rwa [blockEpoch, hblk, map_some, getD_some]

theorem setReader_self (st : World γ α) (r : ℕ) (rd : Reader γ α) (slot : ℕ) :
    (st.setReader r rd slot).readers r = rd := update_self ..

theorem setReader_of_ne {slot r' : ℕ} (hr : r' ≠ r) :
    (st.setReader r rd slot).readers r' = st.readers r' := update_of_ne hr ..

/-- A reader moves on; a block it did not hold is one at a head. -/
theorem Invariant.setReader (h : Invariant st) {slot : ℕ} (hr : r < st.handles)
    (hok : ReaderOk st.blocks slot rd)
    (hholds : ∀ b, rd.Holds b → (st.readers r).Holds b ∨ ∃ c, (st.heads c).id? = some b) :
    Invariant (st.setReader r rd slot) := by
  have hcases : ∀ r' b, ((st.setReader r rd slot).readers r').Holds b →
      (st.readers r').Holds b ∨ ∃ c, (st.heads c).id? = some b := by
    intro r' b hb
    by_cases hr' : r' = r
    · subst hr'
      rw [setReader_self] at hb
      exact hholds b hb
    · rw [setReader_of_ne hr'] at hb
      exact .inl hb
  have hhead : ∀ {c b}, (st.heads c).id? = some b → b ∈ pool (st.heads c) (st.writers c) := by
    intro c b hid
    simp [pool, hid]
  refine ⟨h.pools, fun r' => ?_, fun r' hr' => ?_, h.handles, fun r' b hb => ?_,
    fun c r' b m hb howed hbound => ?_⟩
  · by_cases hr' : r' = r
    · subst hr'
      simpa [World.setReader] using hok
    · rw [setReader_of_ne hr']
      simpa [World.setReader, update_of_ne hr'] using h.readers r'
  · have hne : r' ≠ r := by
      rintro rfl
      exact absurd hr (Nat.not_lt_of_le hr')
    rw [setReader_of_ne hne]
    exact h.unregistered r' hr'
  · rcases hcases r' b hb with hb | ⟨c, hid⟩
    · exact h.live r' b hb
    · exact (h.pools.live c b (hhead hid)).2
  · rcases hcases r' b hb with hb | ⟨c', hid⟩
    · exact h.scanned c r' b m hb howed hbound
    · -- a block at a head is none that a writer owes
      have hmem : b ∈ pool (st.heads c) (st.writers c) := mem_append_right _ howed
      obtain rfl := h.pools.disjoint c c' b hmem (hhead hid)
      have hnodup := h.pools.nodup c
      simp only [pool, hid, toList_some, singleton_append, nodup_cons] at hnodup
      exact absurd howed hnodup.1

end

/-- A cell gets a new head or its writer moves on. -/
theorem Invariant.setCell (h : Invariant st) (hd : Head α) (more : List (Block α))
    (hpools : Pools (update st.heads c hd) (update st.writers c w)
      (st.blocks ++ more) st.freed)
    (hbound : ∀ r b m, (st.readers r).Holds b → b ∈ w.owed → w.bound r = some m →
      m ≤ blockEpoch st.blocks b) :
    Invariant { st with
      heads := update st.heads c hd
      blocks := st.blocks ++ more
      writers := update st.writers c w } := by
  refine ⟨hpools, fun r => (h.readers r).mono more, h.unregistered, h.handles, h.live,
    fun c' r b m hb howed hm => ?_⟩
  rw [blockEpoch_append (h.slot_le hb).1]
  by_cases hc : c' = c
  · subst hc
    simp only [update_self] at howed hm
    exact hbound r b m hb howed hm
  · simp only [update_of_ne hc] at howed hm
    exact h.scanned c' r b m hb howed hm

omit [DecidableEq γ] in
theorem Invariant.owed_lt (h : Invariant st) (hb : b ∈ (st.writers c).owed) :
    b < st.blocks.length :=
  (h.pools.live c b (mem_append_right _ hb)).1

omit [DecidableEq γ] in
theorem retired_owed {q : ℕ × ℕ} (hq : q ∈ w.retired) : q.1 ∈ w.owed :=
  mem_append_right _ (mem_map_of_mem hq)

/-- The writer of a cell moves on with the blocks it owes. -/
theorem Invariant.setWriter (h : Invariant st) (howed : w.owed.Perm (st.writers c).owed)
    (hretired : ∀ q ∈ w.retired, q.2 = blockEpoch st.blocks q.1)
    (hbound : ∀ r b m, (st.readers r).Holds b → b ∈ (st.writers c).owed → w.bound r = some m →
      m ≤ blockEpoch st.blocks b) : Invariant (st.setWriter c w) := by
  have hperm : (pool (st.heads c) w).Perm (pool (st.heads c) (st.writers c)) := howed.append_left _
  have hset := h.setCell (c := c) (w := w) (st.heads c) []
    (h.pools.update _ [] (hperm.nodup_iff.mpr (h.pools.nodup c))
      (fun b hb => .inl (hperm.mem_iff.mp hb)) nofun nofun hretired
      (fun q hq => h.owed_lt (howed.mem_iff.mp (retired_owed hq))))
    (fun r b m hb hmem => hbound r b m hb (howed.mem_iff.mp hmem))
  rwa [update_eq_self, append_nil] at hset

/-- A write: the block that was at the head is now owed. -/
theorem Invariant.publish (h : Invariant st) (small : γ → Bool) (value : α) (epoch : ℕ)
    (howed : w.owed.Perm (pool (st.heads c) (st.writers c)))
    (hretired : ∀ q ∈ w.retired, q.2 = blockEpoch st.blocks q.1) (hbound : ∀ r, w.bound r = none) :
    Invariant (st.publish small c value epoch w) := by
  have hnodup : w.owed.Nodup := howed.nodup_iff.mpr (h.pools.nodup c)
  have hlt : ∀ q ∈ w.retired, q.1 < st.blocks.length := fun q hq =>
    (h.pools.live c q.1 (howed.mem_iff.mp (retired_owed hq))).1
  have hscan : ∀ r b m, (st.readers r).Holds b → b ∈ w.owed → w.bound r = some m →
      m ≤ blockEpoch st.blocks b := by
    intro r b m _ _ hm
    rw [hbound r] at hm
    cases hm
  unfold World.publish World.published
  cases small c with
  | true =>
    have hset := h.setCell (c := c) (w := w) (.inline value (epoch % 2 ^ 31)) []
      (h.pools.update _ [] hnodup (fun b hb => .inl (howed.mem_iff.mp hb)) nofun nofun hretired hlt)
      hscan
    rwa [append_nil] at hset
  | false =>
    refine h.setCell _ _ (h.pools.update _ [⟨value, none, epoch⟩] (nodup_cons.mpr ⟨?_, hnodup⟩)
      (fun b hb => ?_) ?_ ?_ hretired hlt) hscan
    · exact fun hmem => (h.pools.live c _ (howed.mem_iff.mp hmem)).1.ne rfl
    · rcases mem_cons.mp hb with rfl | hb
      · exact .inr ⟨rfl, cons_ne_nil _ _⟩
      · exact .inl (howed.mem_iff.mp hb)
    · intro b _ blk hblk
      rw [mem_singleton.mp hblk]
      nofun
    · intro blk hblk b hb
      rw [mem_singleton.mp hblk] at hb
      cases hb

/-- An append: the block that was at the head is behind the new one for good. -/
theorem Invariant.extend (h : Invariant st) (hidle : (st.writers c).pc = .idle) (value : α) :
    Invariant (st.extend c value) := by
  have hbound : ∀ r, (st.writers c).bound r = none := fun r => by rw [Writer.bound, hidle]
  have hnodup := h.pools.nodup c
  have hset := h.setCell (c := c) (w := st.writers c) (.block st.blocks.length)
    [⟨value, (st.heads c).id?, st.nextEpoch c⟩]
    (h.pools.update _ _ (nodup_cons.mpr ⟨?_, hnodup.of_append_right⟩) (fun b hb => ?_)
      (fun b hb blk hblk hprev => ?_) (fun blk hblk b hprev => ?_) (h.pools.epochs c)
      (fun q hq => h.owed_lt (retired_owed hq)))
    (fun r b m _ _ hm => by rw [hbound r] at hm; cases hm)
  · rwa [update_eq_self] at hset
  · exact fun hmem => (h.owed_lt hmem).ne rfl
  · rcases mem_cons.mp hb with rfl | hb
    · exact .inr ⟨rfl, cons_ne_nil _ _⟩
    · exact .inl (mem_append_right _ hb)
  · rw [mem_singleton.mp hblk] at hprev
    have hmem : b ∈ (st.heads c).id?.toList := mem_toList.mpr hprev
    rcases mem_cons.mp hb with rfl | hb
    · exact (h.pools.live c _ (mem_append_left _ hmem)).1.ne rfl
    · exact disjoint_of_nodup_append hnodup hmem hb
  · rw [mem_singleton.mp hblk] at hprev
    exact mem_append_left _ (mem_toList.mpr hprev)

/-- A block that no reader holds is freed. -/
theorem Invariant.take (h : Invariant st) (howed : (st.writers c).owed.Perm (b :: w.owed))
    (hretired : ∀ q ∈ w.retired, q ∈ (st.writers c).retired)
    (hbound : ∀ r m, w.bound r = some m → (st.writers c).bound r = some m)
    (hnot : ∀ r, ¬(st.readers r).Holds b) : Invariant ((st.free b).setWriter c w) := by
  have hperm : (pool (st.heads c) (st.writers c)).Perm (b :: pool (st.heads c) w) :=
    (howed.append_left _).trans perm_middle
  refine ⟨h.pools.take hperm hretired, h.readers, h.unregistered, h.handles,
    fun r b' hb' hmem => ?_, fun c' r b' m hb' hmem hm => ?_⟩
  · rcases mem_append.mp hmem with hmem | hmem
    · exact h.live r b' hb' hmem
    · rw [mem_singleton.mp hmem] at hb'
      exact hnot r hb'
  · by_cases hc : c' = c
    · subst hc
      simp only [World.setWriter, update_self] at hmem hm
      exact h.scanned c' r b' m hb' (howed.mem_iff.mpr (mem_cons_of_mem b hmem)) (hbound r m hm)
    · simp only [World.setWriter, update_of_ne hc] at hmem hm
      exact h.scanned c' r b' m hb' hmem hm

theorem Invariant.next (h : Invariant st) (c : γ) : Invariant (st.next c) := by
  have hscanned := h.scanned c
  have hepochs := h.pools.epochs c
  cases hw : st.writers c with
  | mk pc retired =>
  rw [hw] at hscanned hepochs
  cases pc with
  | idle =>
    simp only [World.next, hw]
    exact h
  | check old =>
    simp only [World.next, hw]
    split
    · exact h.setWriter (by rw [hw]; exact .refl _) hepochs nofun
    · rename_i hflag
      refine h.take (by rw [hw]; exact .refl _) (fun q hq => by rwa [hw]) nofun fun r hr => ?_
      exact hflag (h.handles.2 (Nat.zero_lt_of_lt (h.lt_handles hr)))
  | scan old i m =>
    simp only [World.next, hw]
    split
    · -- one more slot, which is not above the epochs of the blocks its reader holds
      refine h.setWriter (by rw [hw]; cases old <;> exact .refl _) hepochs fun r b m' hb howed hm =>
        ?_
      rw [hw] at howed
      simp only [Writer.bound, ite_none_right_eq_some, some.injEq] at hm
      obtain ⟨hr, rfl⟩ := hm
      rcases Nat.lt_succ_iff_lt_or_eq.mp hr with hr | rfl
      · exact (min_le_left _ _).trans (hscanned r b m hb howed (if_pos hr))
      · exact (min_le_right _ _).trans (h.slot_le hb).2
    · rename_i hi
      have hall : ∀ r b, (st.readers r).Holds b → b ∈ (Writer.mk (.scan old i m) retired).owed →
          m ≤ blockEpoch st.blocks b := by
        intro r b hb howed
        have hr := (h.lt_handles hb).trans_le h.handles.1
        exact hscanned r b m hb howed (if_pos (hr.trans_le (Nat.le_of_not_lt hi)))
      cases old with
      | none =>
        refine h.setWriter (by rw [hw]; exact .refl _) hepochs fun r b m' hb howed hm => ?_
        rw [hw] at howed
        cases hm
        exact hall r b hb howed
      | some old =>
        dsimp only
        split
        · rename_i hlt
          refine h.take (by rw [hw]; exact .refl _) (fun q hq => by rwa [hw]) nofun fun r hr => ?_
          exact absurd hlt (Nat.not_lt_of_le (hall r old hr mem_cons_self))
        · refine h.setWriter ?_ (fun q hq => ?_) nofun
          · rw [hw]
            simp only [Writer.owed, map_append, map_cons, map_nil, nil_append]
            exact perm_append_singleton _ _
          · rcases mem_append.mp hq with hq | hq
            · exact hepochs q hq
            · rw [mem_singleton.mp hq]
  | sweep floorMin i =>
    simp only [World.next, hw]
    split
    · rename_i b epoch hq
      have hmem : (b, epoch) ∈ retired := mem_of_getElem? hq
      have hperm := swapRemove_perm hq
      split
      · rename_i hlt
        refine h.take (by rw [hw]; exact hperm.map Prod.fst)
          (fun q hq => by rw [hw]; exact hperm.mem_iff.mpr (mem_cons_of_mem _ hq))
          (fun r m hm => by rw [hw]; exact hm) fun r hr => ?_
        have hle := hscanned r b floorMin hr (@retired_owed ⟨_, _⟩ (b, epoch) hmem) rfl
        rw [← hepochs _ hmem] at hle
        exact absurd hlt (Nat.not_lt_of_le hle)
      · refine h.setWriter (by rw [hw]; exact .refl _) hepochs fun r b' m hb howed hm => ?_
        rw [hw] at howed
        cases hm
        exact hscanned r b' floorMin hb howed rfl
    · exact h.setWriter (by rw [hw]; exact .refl _) hepochs nofun

omit [DecidableEq γ] in
theorem retire_owed (hidle : w.pc = .idle) (blocks : List (Block α)) (hd : Head α) :
    (w.retire blocks hd).owed.Perm (pool hd w) ∧ (w.retire blocks hd).pc = .idle ∧
      ∀ q ∈ (w.retire blocks hd).retired, q ∈ w.retired ∨ q.2 = blockEpoch blocks q.1 := by
  unfold Writer.retire
  cases hid : hd.id? with
  | none =>
    simp only [pool, hid, toList_none, nil_append]
    exact ⟨.refl _, hidle, fun q hq => .inl hq⟩
  | some b =>
    refine ⟨?_, hidle, fun q hq => ?_⟩
    · simp only [pool, hid, Writer.owed, hidle, nil_append, map_append, map_cons,
        map_nil, toList_some]
      exact perm_append_comm
    · refine (mem_append.mp hq).imp_right fun hq => ?_
      rw [mem_singleton.mp hq]

omit [DecidableEq γ] in
theorem bound_idle (hidle : w.pc = .idle) (r : ℕ) : w.bound r = none := by
  rw [Writer.bound, hidle]

/-- The steps that keep blocks safe: a `read_ref` leaves an empty cell or an inline value behind
only where its handle holds nothing, and loads no block of epoch 0. -/
def Careful (st : World γ α) : CellAction γ α → Prop
  | .load r => ∀ c b, (st.readers r).pc = .pinned c → (st.heads c).id? = some b →
      blockEpoch st.blocks b ≠ 0
  | .leave r => (st.readers r).holds.floor = idleFloor
  | _ => True

omit [DecidableEq γ] in
/-- A reader that is not where it began has a handle. -/
theorem Invariant.busy (h : Invariant st) (hpc : (st.readers r).pc ≠ .idle) : r < st.handles := by
  by_contra hle
  rw [h.unregistered r (Nat.le_of_not_lt hle)] at hpc
  exact hpc rfl

theorem Invariant.step {small : γ → Bool} {a : CellAction γ α} {st' : World γ α} (h : Invariant st)
    (hok : Careful st a) (hs : CellStep small a st st') : Invariant st' := by
  cases hs with
  | acquire hlt =>
    refine ⟨h.pools, h.readers, fun r hr => h.unregistered r (Nat.le_of_succ_le hr),
      ⟨hlt, fun _ => rfl⟩, h.live, h.scanned⟩
  | @pin _ r c hr hpc =>
    refine h.setReader hr ((h.readers r).pin c) fun b hb => .inl (hb.imp_left nofun)
  | @load _ r c hpc =>
    refine h.setReader (h.busy (by rw [hpc]; nofun)) ((h.readers r).load hpc fun b hb => ?_)
      fun b hb => ?_
    · have hid : (st.heads c).id? = some b := by
        cases hhd : st.heads c <;> rw [hhd] at hb <;> cases hb
        rfl
      have hlt := (h.pools.live c b (mem_append_left _ (mem_toList.mpr hid))).1
      have hpos := hok c b hpc hid
      rw [blockEpoch, getElem?_eq_getElem hlt] at hpos
      exact ⟨_, getElem?_eq_getElem hlt, Nat.one_le_iff_ne_zero.mpr hpos⟩
    · rcases hb with hb | hb
      · refine .inr ⟨c, ?_⟩
        cases hhd : st.heads c <;> rw [hhd] at hb <;> cases hb
        rfl
      · exact .inl (.inr hb)
  | @leave _ r inner hpc =>
    refine h.setReader (h.busy (by rw [hpc]; nofun)) ((h.readers r).leave hok inner) fun b hb => ?_
    obtain ⟨epoch, wasStacked, href⟩ := hb.resolve_left nofun
    refine .inl (.inr ⟨epoch, wasStacked, ?_⟩)
    cases inner with
    | none => exact href
    | some q => exact (mem_cons.mp href).resolve_left nofun
  | @tighten _ r b hpc =>
    obtain ⟨blk, hblk, hpos⟩ := (h.readers r).loaded b hpc
    have hepoch : blockEpoch st.blocks b = blk.epoch := by
      rw [blockEpoch, hblk, map_some, getD_some]
    rw [hepoch]
    refine h.setReader (h.busy (by rw [hpc]; nofun))
      ((h.readers r).pinBlock hblk hpos) fun b' hb' => ?_
    obtain ⟨epoch, wasStacked, href⟩ := hb'.resolve_left nofun
    rcases mem_cons.mp href with heq | href
    · cases heq
      exact .inl (.inl hpc)
    · exact .inl (.inr ⟨epoch, wasStacked, href⟩)
  | @dropInline _ r k value epoch hpc hk =>
    have hr : r < st.handles := by
      by_contra hle
      rw [h.unregistered r (Nat.le_of_not_lt hle)] at hk
      cases hk
    refine h.setReader hr ((h.readers r).dropInline hpc hk) fun b hb => ?_
    obtain ⟨epoch, wasStacked, href⟩ := hb.resolve_left fun hb => absurd (hpc.symm.trans hb) nofun
    exact .inl (.inr ⟨epoch, wasStacked, mem_of_mem_eraseIdx href⟩)
  | @dropBlock _ r k b epoch wasStacked hpc hk =>
    have hr := h.lt_handles (.inr ⟨epoch, wasStacked, mem_of_getElem? hk⟩)
    refine h.setReader hr ((h.readers r).dropBlock hpc hk) fun b' hb' => ?_
    obtain ⟨epoch, wasStacked, href⟩ := hb'.resolve_left fun hb => absurd (hpc.symm.trans hb) nofun
    exact .inl (.inr ⟨epoch, wasStacked, mem_of_mem_eraseIdx href⟩)
  | @write _ c value hidle | @writeWithEpoch _ c value epoch hidle hlt =>
    obtain ⟨hperm, hpc, hretired⟩ := retire_owed hidle st.blocks (st.heads c)
    exact h.publish small value _ hperm (fun q hq => (hretired q hq).elim (h.pools.epochs c q) id)
      (bound_idle hpc)
  | @writeLazy _ c value hidle =>
    refine h.publish small value _ ?_ (h.pools.epochs c) fun r => ?_
    · simp only [pool, Writer.owed, hidle]
      cases (st.heads c).id? <;> exact .refl _
    · cases hid : (st.heads c).id? <;> rfl
  | append hidle => exact h.extend hidle _
  | @reclaim _ c hidle =>
    refine h.setWriter ?_ (h.pools.epochs c) fun r b m hb howed hm => ?_
    · simp only [Writer.owed, hidle]
      exact .refl _
    · simp [Writer.bound] at hm
  | next => exact h.next _

end

/-- The block before another in a chain. -/
def Behind (blocks : List (Block α)) (b b' : ℕ) : Prop :=
  ∃ blk, blocks[b]? = some blk ∧ blk.prev = some b'

omit [DecidableEq γ] in
theorem Invariant.chain_live {st : World γ α} (h : Invariant st) {b b' : ℕ}
    (hchain : Relation.ReflTransGen (Behind st.blocks) b b') (hb : b ∉ st.freed) :
    b' ∉ st.freed := by
  cases hchain with
  | refl => exact hb
  | tail _ hlast =>
    obtain ⟨blk, hblk, hprev⟩ := hlast
    exact (h.pools.linked blk (mem_of_getElem? hblk) b' hprev).2

/-- In a run of careful steps no block is freed that a ref leads to or that a `read_ref` has loaded,
and none is freed twice. -/
theorem reclaim_safe (small : γ → Bool) {st : World γ α}
    (hrun : Reaches (CellStep small) Careful .new st) :
    (∀ r b epoch wasStacked, .block b epoch wasStacked ∈ (st.readers r).refs →
      ∀ b', Relation.ReflTransGen (Behind st.blocks) b b' → b' ∉ st.freed) ∧
    (∀ r b, (st.readers r).pc = .loaded b → b ∉ st.freed) ∧ st.freed.Nodup := by
  have h : Invariant st := hrun.invariant (fun h hok hs => h.step hok hs) .new
  refine ⟨fun r b epoch wasStacked href b' hchain => ?_, fun r b hpc => h.live r b (.inl hpc),
    h.pools.freed_nodup⟩
  exact h.chain_live hchain (h.live r b (.inr ⟨epoch, wasStacked, href⟩))

/-- A block is read, and its ref is dropped after the block was replaced and a sweep kept it. -/
theorem reclaim_safe_run : ∃ st : World Unit ℕ,
    Reaches (CellStep fun _ => false) Careful .new st ∧ (st.writers ()).retired = [(0, 1)] ∧
      .block 0 1 true ∈ (st.readers 0).refs ∧ 0 ∉ st.freed := by
  have hacquire : Reaches (CellStep fun _ => false) Careful (.new : World Unit ℕ) _ :=
    .of_step (a := .acquire) trivial (.acquire (by decide))
  have hwrite := hacquire.next (a := CellAction.write () 5) trivial (.write rfl)
  have hpin := hwrite.next (a := CellAction.pin 0 ()) trivial (.pin (by decide) rfl)
  have hload :=
    hpin.next (a := CellAction.load 0) (fun c b _ hid => by cases hid; decide) (.load rfl)
  have htighten := hload.next (a := CellAction.tighten 0) trivial (.tighten rfl)
  have hreplace := htighten.next (a := CellAction.write () 6) trivial (.write rfl)
  exact ⟨_, hreplace, rfl, mem_singleton_self _,
    (reclaim_safe _ hreplace).1 0 0 1 true (mem_singleton_self _) 0 .refl⟩

/-- The writer of a cell alone is changed by its next step, and what is freed. -/
theorem next_same (st : World γ α) (c : γ) :
    (st.next c).heads = st.heads ∧ (st.next c).blocks = st.blocks ∧ (st.next c).readers =
      st.readers ∧ (st.next c).handles = st.handles ∧ (st.next c).slots = st.slots := by
  unfold World.next
  dsimp only
  repeat' split
  all_goals exact ⟨rfl, rfl, rfl, rfl, rfl⟩

theorem reaches_next (small : γ → Bool) (st : World γ α) (c : γ) (n : ℕ) :
    Reaches (CellStep small) anyAction st ((World.next · c)^[n] st) := by
  induction n generalizing st with
  | zero => exact .refl st
  | succ n ih => exact (Reaches.of_step trivial (.next (c := c))).trans (ih _)

/-- A reader holds block 0 of one cell and reads another, which is empty; its slot is idle after
that, and the block is freed under its ref. -/
theorem empty_read_unpins : ∃ st : World Bool ℕ,
    Reaches (CellStep fun _ => false) anyAction .new st ∧
      .block 0 1 true ∈ (st.readers 0).refs ∧ 0 ∈ st.freed := by
  have hacquire : Reaches (CellStep fun _ => false) anyAction (.new : World Bool ℕ) _ :=
    .of_step (a := .acquire) trivial (.acquire (by decide))
  have hwrite := hacquire.next (a := .write true 5) trivial (.write rfl)
  have hpin := hwrite.next (a := .pin 0 true) trivial (.pin (by decide) rfl)
  have hload := hpin.next (a := .load 0) trivial (.load rfl)
  have htighten := hload.next (a := .tighten 0) trivial (.tighten rfl)
  have hpin' := htighten.next (a := .pin 0 false) trivial (.pin (by decide) rfl)
  have hload' := hpin'.next (a := .load 0) trivial (.load rfl)
  have hleave := hload'.next (a := .leave 0) trivial (.leave rfl)
  have hreplace := hleave.next (a := .write true 6) trivial (.write rfl)
  have hreclaim := hreplace.next (a := .reclaim true) trivial (.reclaim rfl)
  exact ⟨_, hreclaim.trans (reaches_next _ _ true (maxReaders + 2)), by decide +kernel,
    by decide +kernel⟩

/-! ### The end of a reclaim -/

section
variable {st : World γ α} {c : γ} {m i : ℕ} {retired : List (ℕ × ℕ)}

/-- The writer of a cell takes its steps until it is done. -/
def Ends (c : γ) : World γ α → World γ α → Prop :=
  Relation.ReflTransGen fun st st' => (st.writers c).pc ≠ .idle ∧ st' = st.next c

omit [DecidableEq γ] in
theorem mem_swapRemove_drop {q p : ℕ × ℕ} (hq : q ∈ retired.drop i) (hp : retired[i]? = some p) :
    q = p ∨ q ∈ (swapRemove retired i).drop i := by
  rcases eq_nil_or_concat' retired with rfl | ⟨ys, z, rfl⟩
  · cases hp
  have hlast : swapRemove (ys ++ [z]) i = ((ys ++ [z]).set i z).dropLast := by
    simp [swapRemove]
  obtain ⟨hlt, rfl⟩ := List.getElem?_eq_some_iff.mp hp
  rw [drop_eq_getElem_cons hlt] at hq
  rcases mem_cons.mp hq with rfl | hq
  · exact .inl rfl
  · right
    have hi : i < ys.length := by
      have hpos := length_pos_of_mem hq
      rw [length_drop, length_append, length_singleton] at hpos
      omega
    rw [hlast, set_append_left _ _ hi, dropLast_concat,
      drop_eq_getElem_cons (by rwa [length_set]), getElem_set_self,
      drop_set_of_lt (Nat.lt_succ_self i)]
    rw [drop_append_of_le_length hi] at hq
    rcases mem_append.mp hq with hq | hq
    · exact mem_cons_of_mem _ hq
    · rw [mem_singleton.mp hq]
      exact mem_cons_self

theorem length_swapRemove {p : ℕ × ℕ} (hp : retired[i]? = some p) :
    (swapRemove retired i).length + 1 = retired.length := (swapRemove_perm hp).length_eq.symm

/-- The loop of `reclaim` ends, and frees what is below the floor. -/
theorem sweep_ends (hw : st.writers c = ⟨.sweep m i, retired⟩) : ∃ st', Ends c st st' ∧
    (st'.writers c).pc = .idle ∧ (∀ b ∈ st.freed, b ∈ st'.freed) ∧
      ∀ q ∈ retired.drop i, q.2 < m → q.1 ∈ st'.freed := by
  induction hn : retired.length - i generalizing st i retired with
  | zero =>
    have hle : retired.length ≤ i := Nat.le_of_sub_eq_zero hn
    refine ⟨st.next c, .single ⟨by rw [hw]; nofun, rfl⟩, ?_⟩
    simp only [World.next, hw, getElem?_eq_none hle]
    refine ⟨by simp only [World.setWriter, update_self], fun b hb => hb, fun q hq => ?_⟩
    rw [drop_of_length_le hle] at hq
    cases hq
  | succ n ih =>
    have hlt : i < retired.length := Nat.lt_of_sub_pos (by omega)
    have hat := getElem?_eq_getElem hlt
    have hnext : Ends c st (st.next c) := .single ⟨by rw [hw]; nofun, rfl⟩
    by_cases hfloor : retired[i].2 < m
    · have hst :
          st.next c = (st.free retired[i].1).setWriter c ⟨.sweep m i, swapRemove retired i⟩ := by
        simp only [World.next, hw, hat, if_pos hfloor]
      have hlen := length_swapRemove hat
      have hnow : (st.next c).writers c = ⟨.sweep m i, swapRemove retired i⟩ := by
        rw [hst, World.setWriter]
        exact update_self ..
      obtain ⟨st', hends, hidle, hfreed, hbelow⟩ := ih hnow (by omega)
      refine ⟨st', hnext.trans hends, hidle, fun b hb => hfreed b ?_, fun q hq hqm => ?_⟩
      · rw [hst]
        exact mem_append_left _ hb
      · rcases mem_swapRemove_drop hq hat with rfl | hq
        · refine hfreed _ ?_
          rw [hst]
          exact mem_append_right _ (mem_singleton_self _)
        · exact hbelow q hq hqm
    · have hst : st.next c = st.setWriter c ⟨.sweep m (i + 1), retired⟩ := by
        simp only [World.next, hw, hat, if_neg hfloor]
      have hnow : (st.next c).writers c = ⟨.sweep m (i + 1), retired⟩ := by
        rw [hst, World.setWriter]
        exact update_self ..
      obtain ⟨st', hends, hidle, hfreed, hbelow⟩ := ih hnow (by omega)
      refine ⟨st', hnext.trans hends, hidle, fun b hb => hfreed b ?_, fun q hq hqm => ?_⟩
      · rw [hst]
        exact hb
      · rw [drop_eq_getElem_cons hlt] at hq
        rcases mem_cons.mp hq with rfl | hq
        · exact absurd hqm hfloor
        · exact hbelow q hq hqm

/-- `reclaim` ends, and frees what is below all slots. -/
theorem scan_ends {floor : ℕ} (hw : st.writers c = ⟨.scan none i m, retired⟩) (hm : floor ≤ m)
    (hslots : ∀ r, floor ≤ st.slots r) : ∃ st', Ends c st st' ∧ (st'.writers c).pc = .idle ∧
      (∀ b ∈ st.freed, b ∈ st'.freed) ∧ ∀ q ∈ retired, q.2 < floor → q.1 ∈ st'.freed := by
  induction hn : maxReaders - i generalizing st i m with
  | zero =>
    have hst : st.next c = st.setWriter c ⟨.sweep m 0, retired⟩ := by
      simp only [World.next, hw, if_neg (Nat.not_lt.mpr (Nat.le_of_sub_eq_zero hn))]
    have hnow : (st.next c).writers c = ⟨.sweep m 0, retired⟩ := by
      rw [hst, World.setWriter]
      exact update_self ..
    obtain ⟨st', hends, hidle, hfreed, hbelow⟩ := sweep_ends hnow
    refine ⟨st', .head ⟨by rw [hw]; nofun, rfl⟩ hends, hidle, fun b hb => hfreed b ?_,
      fun q hq hlt =>
      hbelow q hq (hlt.trans_le hm)⟩
    rw [hst]
    exact hb
  | succ n ih =>
    have hlt : i < maxReaders := Nat.lt_of_sub_pos (by omega)
    have hst : st.next c = st.setWriter c ⟨.scan none (i + 1) (min m (st.slots i)), retired⟩ := by
      simp only [World.next, hw, if_pos hlt]
    have hnow : (st.next c).writers c = ⟨.scan none (i + 1) (min m (st.slots i)), retired⟩ := by
      rw [hst, World.setWriter]
      exact update_self ..
    obtain ⟨st', hends, hidle, hfreed, hbelow⟩ := ih hnow (Nat.le_min.mpr ⟨hm, hslots i⟩)
      (by rw [hst]; exact hslots) (by omega)
    refine ⟨st', .head ⟨by rw [hw]; nofun, rfl⟩ hends, hidle, fun b hb => hfreed b ?_, hbelow⟩
    rw [hst]
    exact hb

theorem Ends.same {st st' : World γ α} (h : Ends c st st') :
    st'.heads = st.heads ∧ st'.blocks = st.blocks ∧ st'.readers = st.readers ∧
      st'.handles = st.handles ∧ st'.slots = st.slots := by
  induction h with
  | refl => exact ⟨rfl, rfl, rfl, rfl, rfl⟩
  | tail _ hstep ih =>
    obtain ⟨-, rfl⟩ := hstep
    obtain ⟨hheads, hblocks, hreaders, hhandles, hslots⟩ := next_same _ c
    exact ⟨hheads.trans ih.1, hblocks.trans ih.2.1, hreaders.trans ih.2.2.1,
      hhandles.trans ih.2.2.2.1, hslots.trans ih.2.2.2.2⟩

end

/-! ### The hold stack of one handle, over every sequence of pushes and removals of what is held -/

inductive HoldOp
  | push (epoch : ℕ)
  | remove (epoch : ℕ) (wasStacked : Bool)

/-- A stack, and what is held: each epoch with the flag that its `push` returned. -/
structure Holds where
  stack : HoldStack
  held : List (ℕ × Bool)

def Holds.new : Holds := ⟨.new, []⟩

inductive HoldStep : HoldOp → Holds → Holds → Prop
  | push {h epoch} : epoch < 2 ^ 64 →
      HoldStep (.push epoch) h ⟨(h.stack.push epoch).1, (epoch, (h.stack.push epoch).2) :: h.held⟩
  | remove {h epoch wasStacked} : (epoch, wasStacked) ∈ h.held →
      HoldStep (.remove epoch wasStacked) h
        ⟨h.stack.remove epoch wasStacked, h.held.erase (epoch, wasStacked)⟩

/-- The epoch of a hold, where it is on the stack or where it is only counted. -/
def epochOf? (stacked : Bool) (hold : ℕ × Bool) : Option ℕ :=
  if hold.2 = stacked then some hold.1 else none

def Holds.epochs (h : Holds) (stacked : Bool) : List ℕ := h.held.filterMap (epochOf? stacked)

structure Holds.Ok (h : Holds) : Prop where
  keeps : h.stack.Keeps (h.epochs true) (h.epochs false)
  words : ∀ hold ∈ h.held, hold.1 < 2 ^ 64

theorem filterMap_cons_hold {held : List (ℕ × Bool)} {epoch : ℕ} {flag stacked : Bool} :
    ((epoch, flag) :: held).filterMap (epochOf? stacked) =
      (if flag = stacked then [epoch] else []) ++ held.filterMap (epochOf? stacked) := by
  cases flag <;> cases stacked <;> rfl

theorem Holds.mem_epochs {h : Holds} {epoch : ℕ} {flag : Bool} (hmem : (epoch, flag) ∈ h.held) :
    epoch ∈ h.epochs flag :=
  mem_filterMap.mpr ⟨_, hmem, if_pos rfl⟩

theorem Holds.Ok.new : Holds.new.Ok := ⟨.new, nofun⟩

theorem Holds.Ok.step {h h' : Holds} {op : HoldOp} (hok : h.Ok) (hs : HoldStep op h h') :
    h'.Ok := by
  cases hs with
  | @push _ epoch hword =>
    refine ⟨?_, ?_⟩
    · simp only [Holds.epochs, filterMap_cons_hold]
      exact hok.keeps.push epoch
    · intro hold hmem
      rcases mem_cons.mp hmem with rfl | hmem
      · exact hword
      · exact hok.words hold hmem
  | @remove _ epoch wasStacked hmem =>
    refine ⟨?_, fun hold hhold => hok.words hold (mem_of_mem_erase hhold)⟩
    have hperm : ∀ stacked,
      (h.epochs stacked).Perm ((if wasStacked = stacked then [epoch] else []) ++
        (h.held.erase (epoch, wasStacked)).filterMap (epochOf? stacked)) := by
      intro stacked
      have hcons := (perm_cons_erase hmem).filterMap (epochOf? stacked)
      rwa [filterMap_cons_hold] at hcons
    exact (hok.keeps.perm (hperm true) (hperm false)).remove
      fun stacked => (h.held.erase (epoch, wasStacked)).filterMap (epochOf? stacked)

theorem Holds.Ok.floor_le {h : Holds} (hok : h.Ok) {hold : ℕ × Bool} (hmem : hold ∈ h.held) :
    h.stack.floor ≤ hold.1 := by
  obtain ⟨epoch, flag⟩ := hold
  have hepoch := Holds.mem_epochs hmem
  cases flag with
  | true => exact hok.keeps.floor_le (.inl hepoch)
  | false => exact hok.keeps.floor_le (.inr hepoch)

/-- After every run the floor is at or below what is held, idle when nothing is, and not idle when
an epoch below the idle one is. -/
theorem holds_floor {h : Holds} (hr : Reaches HoldStep anyAction .new h) :
    (∀ hold ∈ h.held, h.stack.floor ≤ hold.1) ∧ (h.held = [] → h.stack.floor = idleFloor) ∧
      ((∃ hold ∈ h.held, hold.1 ≠ idleFloor) → h.stack.floor ≠ idleFloor) := by
  have hok : h.Ok := Reaches.invariant (I := Holds.Ok) hr (fun hok _ hs => hok.step hs) .new
  refine ⟨fun hold hmem => hok.floor_le hmem, ?_, ?_⟩
  · intro hnone
    have hkeeps := hok.keeps
    simp only [Holds.epochs, hnone, filterMap_nil] at hkeeps
    exact hkeeps.floor_idle
  · rintro ⟨hold, hmem, hne⟩ hidle
    have hle := hok.floor_le hmem
    have hword := hok.words hold hmem
    rw [hidle] at hle
    unfold idleFloor at hle hne
    omega

def Holds.push (h : Holds) (epoch : ℕ) : Holds :=
  ⟨(h.stack.push epoch).1, (epoch, (h.stack.push epoch).2) :: h.held⟩

theorem reaches_pushes {h : Holds} {epochs : List ℕ} (hr : Reaches HoldStep anyAction .new h)
    (hwords : ∀ epoch ∈ epochs, epoch < 2 ^ 64) :
    Reaches HoldStep anyAction .new (epochs.foldl Holds.push h) := by
  induction epochs generalizing h with
  | nil => exact hr
  | cons epoch epochs ih =>
    have hpushed := hr.next (a := .push epoch) trivial (.push (hwords epoch mem_cons_self))
    exact ih hpushed fun e he => hwords e (mem_cons_of_mem _ he)

/-- Nine pushes, the last of which is only counted, and the removal of one that is on the stack. -/
theorem holds_floor_overflow :
    ∃ h, Reaches HoldStep anyAction .new h ∧ h.stack.overflowCount = 1 ∧ (30, true) ∉ h.held ∧
      (∀ hold ∈ h.held, h.stack.floor ≤ hold.1) ∧ h.stack.floor ≠ idleFloor := by
  have hpushed := @reaches_pushes .new [10, 20, 30, 40, 50, 60, 70, 80, 5] (.refl _) (by decide)
  have hremoved := hpushed.next (a := .remove 30 true) trivial (.remove (by decide))
  obtain ⟨hfloor, -, hnot⟩ := holds_floor hremoved
  exact ⟨_, hremoved, by decide, by decide, hfloor, hnot ⟨(5, false), by decide, by decide⟩⟩

/-- The largest word as an epoch: it is held, and the floor is the idle one. -/
theorem idle_epoch_held : ∃ h, Reaches HoldStep anyAction .new h ∧ h.held = [(idleFloor, true)] ∧
    h.stack.floor = idleFloor :=
  ⟨_, .of_step trivial (.push (show idleFloor < 2 ^ 64 by decide)), rfl, by decide⟩

end AxisBridge.BridgedCell
