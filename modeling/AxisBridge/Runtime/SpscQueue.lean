import AxisBridge.Lib.Capacity
import AxisBridge.Lib.Reach

/-! The ring between one producer and one consumer. -/
namespace AxisBridge.Spsc
open List Function

open Capacity (Window)

variable {α : Type*} {N : ℕ}

/-! ### A bounded queue -/

inductive Answer (α : Type*)
  | pushed (v : α)
  | refused (v : α)
  | popped (v : α)
  | empty

/-- The queue that the ring is for, with at most `N` values; most steps answer nothing. -/
inductive FifoStep (N : ℕ) : Option (Answer α) → List α → List α → Prop
  | quiet {q} : FifoStep N none q q
  | pushed {q v} : q.length < N → FifoStep N (some (.pushed v)) q (q ++ [v])
  | refused {q v} : q.length = N → FifoStep N (some (.refused v)) q q
  | popped {q v} : FifoStep N (some (.popped v)) (v :: q) q
  | empty : FifoStep N (some .empty) [] []

theorem FifoStep.full {q q' : List α} {v : α} (h : FifoStep N (some (.refused v)) q q') :
    q.length = N := by
  cases h
  assumption

theorem FifoStep.nil {q q' : List α} (h : FifoStep N (some .empty) q q') : q = [] := by
  cases h
  rfl

/-! ### The ring -/

/-- Where a `push` is: it has its own counter and loads the other one, it writes the slot, it stores
its counter. -/
inductive Producer (α : Type*)
  | idle
  | load (v : α)
  | write (v : α) (head : ℕ)
  | publish (v : α) (head : ℕ)

/-- Where a `pop` is. -/
inductive Consumer (α : Type*)
  | idle
  | load
  | read (tail : ℕ)
  | publish (v : α) (tail : ℕ)

/-- A slot has nothing before its first write and after a read. What was pushed and popped, and how
many calls have begun, is only watched. -/
structure SpscState (α : Type*) where
  ring : ℕ → Option α
  head : ℕ
  tail : ℕ
  producer : Producer α
  consumer : Consumer α
  pushed : List α
  popped : List α
  calls : ℕ

/-- `SpscQueue::new` -/
def SpscState.start : SpscState α := ⟨fun _ => none, 0, 0, .idle, .idle, [], [], 0⟩

def wrappingAdd (a b : ℕ) : ℕ := (a + b) % 2 ^ 64

def wrappingSub (a b : ℕ) : ℕ := (a + 2 ^ 64 - b) % 2 ^ 64

inductive SpscAction (α : Type*)
  | push (v : α)
  | pop
  | next (answer : Option (Answer α))

def SpscAction.answer? : SpscAction α → Option (Answer α)
  | .next answer => answer
  | _ => none

/-- A call begins, or there is one access to what both sides share. -/
inductive SpscStep (N : ℕ) : SpscAction α → SpscState α → SpscState α → Prop
  | push {st v} : st.producer = .idle →
      SpscStep N (.push v) st { st with producer := .load v, calls := st.calls + 1 }
  | full {st v} : st.producer = .load v → N ≤ wrappingSub st.head st.tail →
      SpscStep N (.next (some (.refused v))) st { st with producer := .idle }
  | room {st v} : st.producer = .load v → wrappingSub st.head st.tail < N →
      SpscStep N (.next none) st { st with producer := .write v st.head }
  | write {st v head} : st.producer = .write v head →
      SpscStep N (.next none) st
        { st with ring := update st.ring (head % N) (some v), producer := .publish v head }
  | publish {st v head} : st.producer = .publish v head →
      SpscStep N (.next (some (.pushed v))) st
        { st with head := wrappingAdd head 1, producer := .idle, pushed := st.pushed ++ [v] }
  | pop {st} : st.consumer = .idle →
      SpscStep N .pop st { st with consumer := .load, calls := st.calls + 1 }
  | empty {st} : st.consumer = .load → st.head = st.tail →
      SpscStep N (.next (some .empty)) st { st with consumer := .idle }
  | found {st} : st.consumer = .load → st.head ≠ st.tail →
      SpscStep N (.next none) st { st with consumer := .read st.tail }
  | read {st v tail} : st.consumer = .read tail → st.ring (tail % N) = some v →
      SpscStep N (.next none) st
        { st with ring := update st.ring (tail % N) none, consumer := .publish v tail }
  | release {st v tail} : st.consumer = .publish v tail →
      SpscStep N (.next (some (.popped v))) st
        { st with tail := wrappingAdd tail 1, consumer := .idle, popped := st.popped ++ [v] }

/-- The loop of `Drop`: what it drops from `i` on, if every slot on the way has a value. -/
def dropFrom (N : ℕ) (ring : ℕ → Option α) (head : ℕ) : ℕ → ℕ → Option (List α)
  | 0, i => if i = head then some [] else none
  | fuel + 1, i =>
    if i = head then some []
    else (ring (i % N)).bind fun v => (dropFrom N ring head fuel (wrappingAdd i 1)).map (v :: ·)

/-! ### Counters and slots -/

theorem wrappingSub_mod {a b : ℕ} (hle : b ≤ a) (hlt : a < b + 2 ^ 64) :
    wrappingSub (a % 2 ^ 64) (b % 2 ^ 64) = a - b := by
  unfold wrappingSub
  omega

theorem wrappingAdd_mod (a : ℕ) : wrappingAdd (a % 2 ^ 64) 1 = (a + 1) % 2 ^ 64 :=
  Nat.mod_add_mod a (2 ^ 64) 1

theorem mod_inj {a b : ℕ} (hle : b ≤ a) (hlt : a < b + 2 ^ 64) (hmod : a % 2 ^ 64 = b % 2 ^ 64) :
    a = b := by
  omega

/-- What has been written into a slot and not been counted yet. -/
def Producer.inHand : Producer α → List α
  | .publish v _ => [v]
  | _ => []

def Consumer.inHand : Consumer α → List α
  | .publish v _ => [v]
  | _ => []

def SpscState.written (st : SpscState α) : List α := st.pushed ++ st.producer.inHand

/-- How many values have been read out of their slots. -/
def SpscState.reads (st : SpscState α) : ℕ := st.popped.length + st.consumer.inHand.length

/-- The values still in the ring. -/
def SpscState.held (st : SpscState α) : List α := st.pushed.drop st.popped.length

open SpscState (held written reads)

/-- What the side that has made so many of its calls knows of the other. -/
def Producer.Ok (N : ℕ) (pushed popped head calls : ℕ) : Producer α → Prop
  | .idle => pushed ≤ calls
  | .load _ => pushed + 1 ≤ calls
  | .write _ h => h = head ∧ pushed < popped + N ∧ pushed + 1 ≤ calls
  | .publish _ h => h = head ∧ pushed < popped + N ∧ pushed + 1 ≤ calls

def Consumer.Ok (pushed : List α) (popped tail : ℕ) : Consumer α → Prop
  | .idle | .load => True
  | .read t => t = tail ∧ popped < pushed.length
  | .publish v t => t = tail ∧ pushed[popped]? = some v

structure RingInvariant (N : ℕ) (st : SpscState α) : Prop where
  order : st.popped <+: st.pushed
  fits : st.pushed.length ≤ st.popped.length + N
  head : st.head = st.pushed.length % 2 ^ 64
  tail : st.tail = st.popped.length % 2 ^ 64
  slots : Window N st.ring st.reads st.written
  producer : st.producer.Ok N st.pushed.length st.popped.length st.head st.calls
  consumer : st.consumer.Ok st.pushed st.popped.length st.tail

/-- The counters do not wrap, or wrap where the slots do. -/
def Counts (N calls : ℕ) : Prop := calls < 2 ^ 64 ∨ N ∣ 2 ^ 64 ∧ N < 2 ^ 64

variable {st st' : SpscState α} {a : SpscAction α} {n : ℕ} {v : α}

theorem Counts.mono {calls calls' : ℕ} (h : Counts N calls') (hle : calls ≤ calls') :
    Counts N calls :=
  h.imp_left hle.trans_lt

theorem Counts.slot {calls : ℕ} (h : Counts N calls) (hn : n ≤ calls) : n % 2 ^ 64 % N = n % N := by
  rcases h with hlt | ⟨hdvd, -⟩
  · rw [Nat.mod_eq_of_lt (hn.trans_lt hlt)]
  · exact Nat.mod_mod_of_dvd n hdvd

theorem written_of_write {head : ℕ} (hpc : st.producer = .write v head) :
    st.written = st.pushed := by
  rw [written, hpc]
  exact append_nil _

theorem reads_of_read {tail : ℕ} (hpc : st.consumer = .read tail) :
    st.reads = st.popped.length := by
  rw [reads, hpc]
  rfl

theorem RingInvariant.start : RingInvariant N (.start : SpscState α) :=
  ⟨prefix_rfl, Nat.zero_le _, rfl, rfl, fun _ _ _ => rfl, Nat.le_refl _, trivial⟩

section
variable (h : RingInvariant N st)

include h

theorem RingInvariant.popped_le : st.popped.length ≤ st.pushed.length :=
  h.order.length_le

theorem RingInvariant.pushed_le : st.pushed.length ≤ st.calls := by
  have hok := h.producer
  cases hpc : st.producer <;> rw [hpc] at hok <;> simp only [Producer.Ok] at hok <;> omega

theorem RingInvariant.reads_le : st.reads ≤ st.pushed.length := by
  have hok := h.consumer
  have hle := h.popped_le
  cases hpc : st.consumer with
  | publish v t =>
    rw [hpc] at hok
    have hlt := (List.getElem?_eq_some_iff.mp hok.2).1
    simp only [reads, hpc, Consumer.inHand, length_singleton]
    omega
  | _ => simpa only [reads, hpc, Consumer.inHand, length_nil, add_zero] using hle

/-- A step that moves no value. -/
theorem RingInvariant.quiet {producer : Producer α} {consumer : Consumer α} {calls : ℕ}
    (hwritten : producer.inHand = st.producer.inHand) (hread : consumer.inHand = st.consumer.inHand)
    (hproducer : producer.Ok N st.pushed.length st.popped.length st.head calls)
    (hconsumer : consumer.Ok st.pushed st.popped.length st.tail) :
    RingInvariant N { st with producer, consumer, calls } := by
  refine ⟨h.order, h.fits, h.head, h.tail, ?_, hproducer, hconsumer⟩
  have hslots := h.slots
  rwa [written, reads, ← hwritten, ← hread] at hslots

theorem RingInvariant.written_fits : st.written.length ≤ st.popped.length + N := by
  have hok := h.producer
  have hfits := h.fits
  rw [written, length_append]
  cases hpc : st.producer with
  | publish v head =>
    rw [hpc] at hok
    exact hok.2.1
  | _ => exact hfits

theorem RingInvariant.publish {head : ℕ} (hpc : st.producer = .publish v head) : RingInvariant N
      { st with head := wrappingAdd head 1, producer := .idle, pushed := st.pushed ++ [v] } := by
  have hok := h.producer
  have hslots := h.slots
  rw [written, hpc] at hslots
  rw [hpc] at hok
  obtain ⟨rfl, hroom, hcalls⟩ := hok
  have hlen : (st.pushed ++ [v]).length = st.pushed.length + 1 := length_append
  refine ⟨h.order.trans (prefix_append _ _), hlen.trans_le hroom, ?_, h.tail, ?_,
    hlen.trans_le hcalls, ?_⟩
  · rw [h.head, wrappingAdd_mod, hlen]
  · change Window N st.ring st.reads (st.pushed ++ [v] ++ [])
    rwa [append_nil]
  · have hok := h.consumer
    cases hpc' : st.consumer with
    | read t =>
      rw [hpc'] at hok
      exact ⟨hok.1, hok.2.trans (hlen ▸ Nat.lt_succ_self _)⟩
    | publish w t =>
      rw [hpc'] at hok
      refine ⟨hok.1, ?_⟩
      rw [List.getElem?_append_left (List.getElem?_eq_some_iff.mp hok.2).1]
      exact hok.2
    | _ => trivial

theorem RingInvariant.release {tail : ℕ} (hpc : st.consumer = .publish v tail) : RingInvariant N
      { st with tail := wrappingAdd tail 1, consumer := .idle, popped := st.popped ++ [v] } := by
  have hok := h.consumer
  have hslots := h.slots
  rw [reads, hpc] at hslots
  rw [hpc] at hok
  obtain ⟨rfl, hnext⟩ := hok
  have hlen : (st.popped ++ [v]).length = st.popped.length + 1 := length_append
  refine ⟨?_, ?_, h.head, ?_, ?_, ?_, trivial⟩
  · obtain ⟨hlt, hget⟩ := List.getElem?_eq_some_iff.mp hnext
    have htake := prefix_iff_eq_take.mp h.order
    have hconcat : st.popped ++ [v] = st.pushed.take (st.popped.length + 1) := by
      rw [← take_append_getElem hlt, hget, ← htake]
    exact hconcat ▸ take_prefix _ _
  · exact h.fits.trans (by rw [hlen]; omega)
  · rw [h.tail, wrappingAdd_mod, hlen]
  · change Window N st.ring ((st.popped ++ [v]).length + 0) st.written
    rwa [hlen]
  · have hok := h.producer
    rw [hlen]
    cases hpc' : st.producer with
    | write w head | publish w head =>
      rw [hpc'] at hok
      exact ⟨hok.1, hok.2.1.trans (by omega), hok.2.2⟩
    | _ =>
      rw [hpc'] at hok
      exact hok

variable (hcounts : Counts N st.calls)

include hcounts

/-- The two counters are less than a turn apart. -/
theorem RingInvariant.near : st.pushed.length < st.popped.length + 2 ^ 64 := by
  rcases hcounts with hlt | ⟨-, hlt⟩
  · exact (h.pushed_le.trans_lt hlt).trans_le (Nat.le_add_left _ _)
  · exact h.fits.trans_lt (Nat.add_lt_add_left hlt _)

theorem RingInvariant.gap : wrappingSub st.head st.tail = st.held.length := by
  rw [h.head, h.tail, wrappingSub_mod h.popped_le (h.near hcounts), held, length_drop]

theorem RingInvariant.head_eq_tail : st.head = st.tail ↔ st.held = [] := by
  rw [h.head, h.tail, held, drop_eq_nil_iff]
  have hle := h.popped_le
  have hnear := h.near hcounts
  constructor
  · exact fun heq => Nat.le_of_eq (mod_inj hle hnear heq)
  · exact fun hlen => congrArg (· % 2 ^ 64) (le_antisymm hlen hle)

/-- Where a push writes next, nothing is that has not been read. -/
theorem RingInvariant.slot_free {head : ℕ} (hpc : st.producer = .write v head) :
    head % N = st.pushed.length % N ∧ st.ring (head % N) = none := by
  have hok := h.producer
  have hslots := h.slots
  rw [written_of_write hpc] at hslots
  rw [hpc] at hok
  obtain ⟨rfl, hroom, -⟩ := hok
  have hslot : st.head % N = st.pushed.length % N := by
    rw [h.head]
    exact hcounts.slot h.pushed_le
  rw [hslot]
  exact ⟨rfl,
    hslots.free h.reads_le (hroom.trans_le (Nat.add_le_add_right (Nat.le_add_right _ _) N))⟩

/-- Where a pop reads next, the value is that comes next. -/
theorem RingInvariant.slot_next {tail : ℕ} (hpc : st.consumer = .read tail) :
    tail % N = st.popped.length % N ∧ ∃ v, st.pushed[st.popped.length]? = some v ∧
      st.ring (tail % N) = some v := by
  have hok := h.consumer
  have hslots := h.slots
  rw [reads_of_read hpc] at hslots
  rw [hpc] at hok
  obtain ⟨rfl, hlt⟩ := hok
  have hslot : st.tail % N = st.popped.length % N := by
    rw [h.tail]
    exact hcounts.slot (h.popped_le.trans h.pushed_le)
  have hwritten : st.popped.length < st.written.length := by
    rw [written, length_append]
    exact hlt.trans_le (Nat.le_add_right _ _)
  refine ⟨hslot, _, getElem?_eq_getElem hlt, ?_⟩
  rw [hslot, hslots.front hwritten h.written_fits, written, getElem?_append_left hlt,
    getElem?_eq_getElem hlt]

theorem RingInvariant.write {head : ℕ} (hpc : st.producer = .write v head) : RingInvariant N
      { st with ring := update st.ring (head % N) (some v), producer := .publish v head } := by
  have hok := h.producer
  have hslots := h.slots
  rw [written_of_write hpc] at hslots
  rw [hpc] at hok
  refine ⟨h.order, h.fits, h.head, h.tail, ?_, hok, h.consumer⟩
  rw [(h.slot_free hcounts hpc).1]
  exact hslots.push h.reads_le (hok.2.1.trans_le (Nat.add_le_add_right (Nat.le_add_right _ _) N)) v

theorem RingInvariant.read {tail : ℕ} (hpc : st.consumer = .read tail)
    (hring : st.ring (tail % N) = some v) :
    RingInvariant N
      { st with ring := update st.ring (tail % N) none, consumer := .publish v tail } := by
  obtain ⟨hslot, w, hw, hring'⟩ := h.slot_next hcounts hpc
  obtain rfl : w = v := Option.some.inj (hring'.symm.trans hring)
  have hok := h.consumer
  have hslots := h.slots
  rw [reads_of_read hpc] at hslots
  rw [hpc] at hok
  refine ⟨h.order, h.fits, h.head, h.tail, ?_, h.producer, hok.1, hw⟩
  rw [hslot]
  exact hslots.pop h.written_fits

theorem RingInvariant.step (hs : SpscStep N a st st') : RingInvariant N st' := by
  have hproducer := h.producer
  have hconsumer := h.consumer
  cases hs with
  | push hpc =>
    rw [hpc] at hproducer
    exact h.quiet (by rw [hpc]; rfl) rfl (Nat.succ_le_succ hproducer) hconsumer
  | full hpc hfull =>
    rw [hpc] at hproducer
    exact h.quiet (by rw [hpc]; rfl) rfl (Nat.le_of_succ_le hproducer) hconsumer
  | room hpc hroom =>
    rw [hpc] at hproducer
    rw [h.gap hcounts, held, length_drop] at hroom
    exact h.quiet (by rw [hpc]; rfl) rfl ⟨rfl, by omega, hproducer⟩ hconsumer
  | write hpc => exact h.write hcounts hpc
  | publish hpc => exact h.publish hpc
  | pop hpc =>
    refine h.quiet rfl (by rw [hpc]; rfl) ?_ trivial
    cases hpc' : st.producer <;> rw [hpc'] at hproducer <;>
      simp only [Producer.Ok] at hproducer ⊢ <;> omega
  | empty hpc hsame => exact h.quiet rfl (by rw [hpc]; rfl) hproducer trivial
  | found hpc hother =>
    refine h.quiet rfl (by rw [hpc]; rfl) hproducer ⟨rfl, ?_⟩
    rw [Ne, h.head_eq_tail hcounts, held, drop_eq_nil_iff] at hother
    exact Nat.lt_of_not_le hother
  | read hpc hring => exact h.read hcounts hpc hring
  | release hpc => exact h.release hpc

theorem RingInvariant.refines (hs : SpscStep N a st st') :
    FifoStep N a.answer? st.held st'.held := by
  have hproducer := h.producer
  have hconsumer := h.consumer
  cases hs with
  | full hpc hfull =>
    refine .refused (le_antisymm ?_ (by rwa [h.gap hcounts] at hfull))
    have hfits := h.fits
    rw [held, length_drop]
    omega
  | publish hpc =>
    rw [hpc] at hproducer
    obtain ⟨-, hroom, -⟩ := hproducer
    simp only [held, drop_append_of_le_length h.popped_le]
    refine .pushed ?_
    have hle := h.popped_le
    rw [length_drop]
    omega
  | empty hpc hsame =>
    have hnil : st.held = [] := (h.head_eq_tail hcounts).mp hsame
    change FifoStep N (some .empty) st.held st.held
    rw [hnil]
    exact .empty
  | release hpc =>
    rw [hpc] at hconsumer
    obtain ⟨hlt, rfl⟩ := List.getElem?_eq_some_iff.mp hconsumer.2
    simp only [held, length_append, length_singleton, drop_eq_getElem_cons hlt]
    exact .popped
  | _ => exact .quiet

end

theorem calls_le (hs : SpscStep N a st st') : st.calls ≤ st'.calls := by
  cases hs with
  | push => exact Nat.le_succ _
  | pop => exact Nat.le_succ _
  | _ => exact le_refl _

theorem ringInvariant_of_reaches (hrun : Reaches (SpscStep N) anyAction .start st)
    (hcounts : Counts N st.calls) : RingInvariant N st :=
  hrun.invariant (I := fun st => Counts N st.calls → RingInvariant N st)
    (fun h _ hs hcounts => (h (hcounts.mono (calls_le hs))).step (hcounts.mono (calls_le hs)) hs)
    (fun _ => .start) hcounts

/-- What the loop of `Drop` finds from the `k`-th value on. -/
theorem RingInvariant.dropFrom_eq (h : RingInvariant N st) (hcounts : Counts N st.calls)
    (hpushed : st.written = st.pushed) {k fuel : ℕ} (hk : st.reads ≤ k) (hle : k ≤ st.pushed.length)
    (hfuel : st.pushed.length ≤ k + fuel) :
    dropFrom N st.ring st.head fuel (k % 2 ^ 64) = some (st.pushed.drop k) := by
  have hnear := h.near hcounts
  induction fuel generalizing k with
  | zero =>
    obtain rfl : k = st.pushed.length := le_antisymm hle hfuel
    rw [dropFrom, if_pos h.head.symm, drop_length]
  | succ fuel ih =>
    rcases Nat.eq_or_lt_of_le hle with rfl | hlt
    · rw [dropFrom, if_pos h.head.symm, drop_length]
    · have hother : k % 2 ^ 64 ≠ st.head := by
        rw [h.head]
        intro heq
        have hreads : st.popped.length ≤ k := (Nat.le_add_right _ _).trans hk
        exact hlt.ne' (mod_inj hle (by omega) heq.symm)
      have hslot : st.ring (k % 2 ^ 64 % N) = some st.pushed[k] := by
        rw [hcounts.slot (hle.trans h.pushed_le), h.slots k hk ?_, hpushed, getElem?_eq_getElem hlt]
        have hfits := h.fits
        rw [reads] at hk ⊢
        omega
      rw [dropFrom, if_neg hother, hslot, Option.bind_some, wrappingAdd_mod,
        ih (hk.trans (Nat.le_succ k)) hlt (by omega), drop_eq_getElem_cons hlt, Option.map_some]

/-- The ring is a bounded queue, over any interleaving of one producer and one consumer. The
counters may wrap where the number of slots divides their range. -/
theorem spsc_fifo (hrun : Reaches (SpscStep N) anyAction .start st)
    (hcalls : st.calls < 2 ^ 64 ∨ N ∣ 2 ^ 64 ∧ N < 2 ^ 64) :
    st.popped <+: st.pushed ∧ st.pushed.length ≤ st.popped.length + N ∧
      (∀ v st', SpscStep N (.next (some (.refused v))) st st' →
        st.pushed.length = st.popped.length + N) ∧
      (∀ st', SpscStep N (.next (some .empty)) st st' → st.popped = st.pushed) ∧
      (∀ v head, st.producer = .write v head → st.ring (head % N) = none) ∧
      (∀ tail, st.consumer = .read tail →
        ∃ v, st.ring (tail % N) = some v ∧ st.pushed[st.popped.length]? = some v) ∧
      (st.producer = .idle → st.consumer = .idle → ∀ fuel, N ≤ fuel →
        dropFrom N st.ring st.head fuel st.tail = some (st.pushed.drop st.popped.length)) := by
  have h := ringInvariant_of_reaches hrun hcalls
  refine ⟨h.order, h.fits, fun v st' hs => ?_, fun st' hs => ?_,
    fun v head hpc => (h.slot_free hcalls hpc).2,
    fun tail hpc => ?_, fun hproducer hconsumer fuel hfuel => ?_⟩
  · have hfull := (h.refines hcalls hs).full
    have hle := h.popped_le
    rw [held, length_drop] at hfull
    omega
  · have hnil := (h.refines hcalls hs).nil
    exact h.order.eq_of_length_le (drop_eq_nil_iff.mp hnil)
  · obtain ⟨-, v, hnext, hring⟩ := h.slot_next hcalls hpc
    exact ⟨v, hring, hnext⟩
  · have hwritten : st.written = st.pushed := by
      rw [written, hproducer]
      exact append_nil _
    have hreads : st.reads = st.popped.length := by
      rw [reads, hconsumer]
      rfl
    rw [h.tail]
    exact h.dropFrom_eq hcalls hwritten hreads.le h.popped_le
      (h.fits.trans (Nat.add_le_add_left hfuel _))

/-- A ring of one slot, in which a push has put a value and a pop is about to read it. -/
theorem spsc_fifo_run :
    ∃ st : SpscState ℕ, Reaches (SpscStep 1) anyAction .start st ∧ st.consumer = .read 0 ∧
      ∃ v, st.ring (0 % 1) = some v ∧ st.pushed[st.popped.length]? = some v := by
  have hpush : Reaches (SpscStep 1) anyAction (.start : SpscState ℕ) _ :=
    .of_step (a := .push 7) trivial (.push rfl)
  have hroom := hpush.next trivial (.room rfl (by decide))
  have hwrite := hroom.next trivial (.write rfl)
  have hpublish := hwrite.next trivial (.publish rfl)
  have hpop := hpublish.next trivial (.pop rfl)
  have hfound := hpop.next trivial (.found rfl (by decide))
  exact ⟨_, hfound, rfl, (spsc_fifo hfound (.inl (by decide))).2.2.2.2.2.1 0 rfl⟩

end AxisBridge.Spsc
