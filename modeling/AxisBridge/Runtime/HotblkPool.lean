import AxisBridge.Lib.Gate
import AxisBridge.Runtime.Text

/-! The pool of a shard's ready arenas: a queue under one lock, and a condition at either end. -/
namespace AxisBridge.HotblkPool
open List

/-- An arena's address, and that of its state cell. -/
abbrev Arena := Int64 × Int64

def poolDepth (var : Option String) : ℕ :=
  ((var.bind fun s => parseUsize (trim s)).filter (1 ≤ ·)).getD 2

/-- `pool_put` with the lock held; `none` is a wait on `not_full`. -/
def poolPut (cap : ℕ) (queue : List Arena) (item : Arena) : Option (List Arena) :=
  if queue.length ≥ cap then none else some (queue ++ [item])

/-- `pool_return` never waits, and goes past the depth. -/
def poolReturn (queue : List Arena) (item : Arena) : List Arena := queue ++ [item]

/-- `pool_take` with the lock held; `none` is a wait on `not_empty`. -/
def poolTake : List Arena → Option (Arena × List Arena)
  | item :: queue => some (item, queue)
  | [] => none

/-- A pool and its callers, and what entered its queue and left it. -/
structure Pool where
  queue : List Arena
  notFull : Gate Arena
  notEmpty : Gate Unit
  entered : List Arena
  left : List Arena

def Pool.start : Pool := ⟨[], ⟨[], [], 0⟩, ⟨[], [], 0⟩, [], []⟩

/-- One lock section of one caller, or what happens at a condition without the lock. -/
inductive Step (cap : ℕ) : Pool → Pool → Prop
  | put {s : Pool} {item : Arena} {queue : List Arena} {g : Gate Arena}
      (hput : poolPut cap s.queue item = some queue) (hpass : Gate.Passes item s.notFull g) :
      Step cap s
        { s with queue := queue, notFull := g, notEmpty := s.notEmpty.owe, entered :=
          s.entered ++ [item] }
  | putWait {s : Pool} {item : Arena} {g : Gate Arena} (hput : poolPut cap s.queue item = none)
      (hsleep : Gate.Sleeps item s.notFull g) : Step cap s { s with notFull := g }
  | giveBack {s : Pool} (item : Arena) : Step cap s
      { s with queue := poolReturn s.queue item, notEmpty := s.notEmpty.owe, entered :=
        s.entered ++ [item] }
  | take {s : Pool} {item : Arena} {queue : List Arena} {g : Gate Unit}
      (htake : poolTake s.queue = some (item, queue)) (hpass : Gate.Passes () s.notEmpty g) :
      Step cap s
        { s with queue := queue, notFull := s.notFull.owe, notEmpty := g, left := s.left ++ [item] }
  | takeWait {s : Pool} {g : Gate Unit} (htake : poolTake s.queue = none)
      (hsleep : Gate.Sleeps () s.notEmpty g) : Step cap s { s with notEmpty := g }
  | atNotFull {s : Pool} {g : Gate Arena} (hstir : Gate.Stirs s.notFull g) :
      Step cap s { s with notFull := g }
  | atNotEmpty {s : Pool} {g : Gate Unit} (hstir : Gate.Stirs s.notEmpty g) :
      Step cap s { s with notEmpty := g }

/-- The queue is what entered and did not leave, in order, and both conditions serve their
callers. -/
structure Invariant (cap : ℕ) (s : Pool) : Prop where
  flow : s.left ++ s.queue = s.entered
  notFull : s.notFull.Served (cap - s.queue.length)
  notEmpty : s.notEmpty.Served s.queue.length

variable {cap : ℕ} {s t : Pool}

theorem Invariant.step (h : Invariant cap s) (hs : Step cap s t) : Invariant cap t := by
  have hflow := h.flow
  cases hs with
  | @put item queue g hput hpass =>
    unfold poolPut at hput
    split at hput
    · cases hput
    · next hroom =>
      cases hput
      have hone : cap - s.queue.length = cap - (s.queue ++ [item]).length + 1 := by
        rw [length_append, length_singleton]
        omega
      refine ⟨by simp [← hflow], (hone ▸ h.notFull).passes hpass, ?_⟩
      simpa using h.notEmpty.owe
  | putWait hput hsleep =>
    unfold poolPut at hput
    split at hput
    · next hfull =>
      refine ⟨hflow, fun _ => ?_, h.notEmpty⟩
      rw [Nat.sub_eq_zero_of_le hfull]
      exact Nat.zero_le _
    · cases hput
  | giveBack item =>
    have hless : cap - (poolReturn s.queue item).length ≤ cap - s.queue.length := by
      simp [poolReturn]
      omega
    refine ⟨by simp [poolReturn, ← hflow], h.notFull.mono hless, ?_⟩
    simpa [poolReturn] using h.notEmpty.owe
  | @take item queue g htake hpass =>
    obtain ⟨x, q, hqueue⟩ : ∃ x q, s.queue = x :: q := by
      cases hq : s.queue with
      | nil => simp [hq, poolTake] at htake
      | cons x q => exact ⟨x, q, rfl⟩
    rw [hqueue] at htake hflow
    cases htake
    have hempty := h.notEmpty
    have hmore := h.notFull.owe
    rw [hqueue] at hempty hmore
    have hless : cap - queue.length ≤ cap - (item :: queue).length + 1 := by
      rw [length_cons]
      omega
    exact ⟨by simp [← hflow], hmore.mono hless, hempty.passes hpass⟩
  | takeWait htake hsleep =>
    refine ⟨hflow, h.notFull, fun _ => ?_⟩
    cases hq : s.queue with
    | nil => exact Nat.zero_le _
    | cons x q => simp [hq, poolTake] at htake
  | atNotFull hstir => exact ⟨hflow, h.notFull.stirs hstir, h.notEmpty⟩
  | atNotEmpty hstir => exact ⟨hflow, h.notFull, h.notEmpty.stirs hstir⟩

theorem poolDepth_pos (var : Option String) : 1 ≤ poolDepth var := by
  unfold poolDepth
  cases h : (var.bind fun s => parseUsize (trim s)).filter (1 ≤ ·) with
  | none => exact Nat.le_of_ble_eq_true rfl
  | some n => simpa using (Option.filter_eq_some_iff.mp h).2

/-- Arenas leave in the order they entered, and no wake-up is lost: at a settled condition a put
sleeps only at a full queue, a take only at an empty one. -/
theorem pool_serves {var : Option String}
    (h : Relation.ReflTransGen (Step (poolDepth var)) .start s) : s.left ++ s.queue = s.entered ∧
    (s.notFull.Settled → s.notFull.asleep ≠ [] → poolDepth var ≤ s.queue.length) ∧
    (s.notEmpty.Settled → s.notEmpty.asleep ≠ [] → s.queue = []) ∧
    (s.notFull.Settled → s.notEmpty.Settled → s.notFull.asleep = [] ∨ s.notEmpty.asleep = []) := by
  have hinv : Invariant (poolDepth var) s := by
    induction h with
    | refl => exact ⟨rfl, fun hne => (hne rfl).elim, fun hne => (hne rfl).elim⟩
    | tail _ hs ih => exact ih.step hs
  have hfull := fun hset hne => Nat.sub_eq_zero_iff_le.mp (hinv.notFull.eq_zero hset hne)
  have hempty := fun hset hne => length_eq_zero_iff.mp (hinv.notEmpty.eq_zero hset hne)
  refine ⟨hinv.flow, hfull, hempty, fun hset hset' => ?_⟩
  by_contra hboth
  rw [not_or] at hboth
  have hlen := hfull hset hboth.1
  rw [hempty hset' hboth.2] at hlen
  exact Nat.not_le_of_lt (poolDepth_pos var) hlen

/-- A take that came too early has the arena that is given back. -/
theorem pool_serves_early :
    ∃ s : Pool, s.notEmpty.coming = [()] ∧ s.left ++ s.queue = [(64, 8)] := by
  have hcomes : Relation.ReflTransGen (Step (poolDepth none)) .start _ :=
    .single (.atNotEmpty (.comes _ ()))
  have hsleeps := hcomes.tail (.takeWait rfl (.mk [] [] [] 0))
  have hgiven := hsleeps.tail (.giveBack (64, 8))
  have hwoken := hgiven.tail (.atNotEmpty (.signals [] [] [] () 0))
  exact ⟨_, rfl, (pool_serves hwoken).1⟩

end AxisBridge.HotblkPool
