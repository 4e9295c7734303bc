import AxisBridge.Lib.Reach
import Mathlib.Algebra.Group.Int.Defs
import Mathlib.Data.List.Basic

/-! Oneshots: the registry of cells under one lock, and each cell under its own, with any number of
threads between their lock sections. -/
namespace AxisBridge.Oneshot
open List Function

/-- Where a thread stands between two lock sections. A waiter has its own handle of the cell. -/
inductive Phase
  | idle
  | minting (id : ℤ)
  | holding (timed : Bool) (id : ℤ)
  | blocked (timed : Bool) (id : ℤ)
  | woken (timed : Bool) (id : ℤ)
  | retiring (timed : Bool) (id : ℤ)
  | signaling (id : ℤ)

/-- `notify_all` on the cell of `id`. -/
def Phase.notified (id : ℤ) : Phase → Phase
  | .blocked timed i => if i = id then .woken timed i else .blocked timed i
  | p => p

/-- The ids are counted from one, and no run counts to the end of 64 bits; a cell is named by the id
it was made for. The last three lists are kept for the statements: the ids whose cell a signal took
out of the registry, those a call of a signal returned for, and those a wait returned for, a timed
one with true. -/
structure State where
  nextId : ℤ
  registry : ℤ → Bool
  done : ℤ → Bool
  phase : ℕ → Phase
  minted : List ℤ
  signaled : List ℤ
  completed : List ℤ
  returned : List ℤ

def State.start : State := ⟨1, fun _ => false, fun _ => false, fun _ => .idle, [], [], [], []⟩

def State.to (st : State) (t : ℕ) (p : Phase) : State := { st with phase := update st.phase t p }

/-- A lock section of thread `t`, the count of a new id, or a return of the condition variable. -/
inductive Action
  | nextId (t : ℕ)
  | register (t : ℕ)
  | wait (t : ℕ) (timed : Bool) (id : ℤ)
  | check (t : ℕ)
  | wake (t : ℕ)
  | retire (t : ℕ)
  | signal (t : ℕ) (id : ℤ)
  | ring (t : ℕ)

/-- The section begins a call, or the condition variable returns by the clock or without a cause. -/
def Action.Starts : Action → Prop
  | .nextId _ | .wait _ _ _ | .signal _ _ | .wake _ => True
  | _ => False

inductive Step : Action → State → State → Prop
  | nextId {st : State} {t : ℕ} (ht : st.phase t = .idle) :
      Step (.nextId t) st { st.to t (.minting st.nextId) with nextId := st.nextId + 1 }
  | register {st : State} {t : ℕ} {id : ℤ} (ht : st.phase t = .minting id) :
      Step (.register t) st { st.to t .idle with
        registry := update st.registry id true
        done := update st.done id false
        minted := id :: st.minted }
  | unknown {st : State} {t : ℕ} {timed : Bool} {id : ℤ} (ht : st.phase t = .idle)
      (hid : id ∈ st.minted) (hreg : st.registry id = false) :
      Step (.wait t timed id) st { st with returned := id :: st.returned }
  | found {st : State} {t : ℕ} {timed : Bool} {id : ℤ} (ht : st.phase t = .idle)
      (hid : id ∈ st.minted) (hreg : st.registry id = true) :
      Step (.wait t timed id) st (st.to t (.holding timed id))
  -- a timed wait that finds the cell done leaves the registry to others
  | already {st : State} {t : ℕ} {id : ℤ} (ht : st.phase t = .holding true id)
      (hdone : st.done id = true) :
      Step (.check t) st { st.to t .idle with returned := id :: st.returned }
  | leave {st : State} {t : ℕ} {timed : Bool} {id : ℤ}
      (ht : st.phase t = .woken timed id ∨ st.phase t = .holding false id ∧ timed = false)
      (hdone : st.done id = true) :
      Step (.check t) st (st.to t (.retiring timed id))
  | block {st : State} {t : ℕ} {timed : Bool} {id : ℤ}
      (ht : st.phase t = .holding timed id ∨ st.phase t = .woken false id ∧ timed = false)
      (hdone : st.done id = false) :
      Step (.check t) st (st.to t (.blocked timed id))
  -- the answer false: the cell stays in the registry
  | timeout {st : State} {t : ℕ} {id : ℤ} (ht : st.phase t = .woken true id)
      (hdone : st.done id = false) : Step (.check t) st (st.to t .idle)
  | wake {st : State} {t : ℕ} {timed : Bool} {id : ℤ} (ht : st.phase t = .blocked timed id) :
      Step (.wake t) st (st.to t (.woken timed id))
  | retire {st : State} {t : ℕ} {timed : Bool} {id : ℤ} (ht : st.phase t = .retiring timed id) :
      Step (.retire t) st { st.to t .idle with
        registry := update st.registry id false
        returned := id :: st.returned }
  | nothing {st : State} {t : ℕ} {id : ℤ} (ht : st.phase t = .idle) (hid : id ∈ st.minted)
      (hreg : st.registry id = false) :
      Step (.signal t id) st { st with completed := id :: st.completed }
  | remove {st : State} {t : ℕ} {id : ℤ} (ht : st.phase t = .idle) (hid : id ∈ st.minted)
      (hreg : st.registry id = true) :
      Step (.signal t id) st { st.to t (.signaling id) with
        registry := update st.registry id false
        signaled := id :: st.signaled }
  | ring {st : State} {t : ℕ} {id : ℤ} (ht : st.phase t = .signaling id) :
      Step (.ring t) st { st with
        done := update st.done id true
        phase := update (fun u => (st.phase u).notified id) t .idle
        completed := id :: st.completed }

/-! ### The invariant -/

/-- What a thread's place says of the cell it is at. -/
def Phase.Sound (st : State) : Phase → Prop
  | .idle => True
  | .minting id => id < st.nextId ∧ id ∉ st.minted
  | .holding _ id | .woken _ id => id ∈ st.minted
  | .blocked _ id => id ∈ st.minted ∧ st.done id = false
  | .retiring _ id | .signaling id => id ∈ st.signaled

structure Inv (st : State) : Prop where
  sound : ∀ t, (st.phase t).Sound st
  minting : ∀ {t u id}, st.phase t = .minting id → st.phase u = .minting id → t = u
  minted : ∀ id ∈ st.minted, id < st.nextId
  signaled : ∀ id ∈ st.signaled, id ∈ st.minted
  -- a cell leaves the registry by its signal and in no other way
  registry : ∀ id, st.registry id = true ↔ id ∈ st.minted ∧ id ∉ st.signaled
  done : ∀ id, st.done id = true → id ∈ st.signaled
  pending : ∀ id ∈ st.signaled, st.done id = true ∨ ∃ t, st.phase t = .signaling id
  completed : ∀ id ∈ st.completed, id ∈ st.signaled
  returned : ∀ id ∈ st.returned, id ∈ st.signaled

section
variable {st st' : State} {t u : ℕ} {p : Phase} {id other : ℤ} {timed : Bool} {a : Action}

theorem State.to_phase_self : (st.to t p).phase t = p := update_self ..

theorem State.to_phase_ne (hu : u ≠ t) : (st.to t p).phase u = st.phase u := update_of_ne hu ..

/-- A place to which no thread goes is held by those that held it. -/
theorem State.phase_of_to {q : Phase} (hu : (st.to t p).phase u = q) (hq : q ≠ p) :
    st.phase u = q := by
  have hne : u ≠ t := by
    rintro rfl
    exact hq (hu.symm.trans State.to_phase_self)
  exact (State.to_phase_ne hne).symm.trans hu

open State (to_phase_ne to_phase_self phase_of_to)

theorem Inv.start : Inv .start where
  sound _ := trivial
  minting h := by cases h
  minted _ h := by cases h
  signaled _ h := by cases h
  registry id := by
    constructor
    · intro h
      cases h
    · rintro ⟨h, -⟩
      cases h
  done _ h := by cases h
  pending _ h := by cases h
  completed _ h := by cases h
  returned _ h := by cases h

/-- A thread that signals nothing leaves no signal behind. -/
theorem Inv.pending_to (h : Inv st) (ht : ∀ id, st.phase t ≠ .signaling id) (p : Phase)
    (hid : id ∈ st.signaled) : st.done id = true ∨ ∃ u, (st.to t p).phase u = .signaling id := by
  obtain hdone | ⟨u, hu⟩ := h.pending id hid
  · exact .inl hdone
  · have hne : u ≠ t := by
      rintro rfl
      exact ht id hu
    exact .inr ⟨u, (to_phase_ne hne).trans hu⟩

/-- A thread that signals nothing goes to a place that is sound, and nothing else changes. -/
theorem Inv.move (h : Inv st) (hp : p.Sound st) (hmint : ∀ id, p ≠ .minting id)
    (ht : ∀ id, st.phase t ≠ .signaling id) : Inv (st.to t p) where
  sound u := by
    by_cases hu : u = t
    · subst hu
      rw [to_phase_self]
      exact hp
    · rw [to_phase_ne hu]
      exact h.sound u
  minting := by
    intro v w id hv hw
    exact h.minting (phase_of_to hv (hmint id).symm) (phase_of_to hw (hmint id).symm)
  minted := h.minted
  signaled := h.signaled
  registry := h.registry
  done := h.done
  pending _ hid := h.pending_to ht p hid
  completed := h.completed
  returned := h.returned

/-- A wait returns for an id that was signaled. -/
theorem Inv.answer (h : Inv st) (hid : id ∈ st.signaled) :
    Inv { st with returned := id :: st.returned } :=
  { h with
    returned := by
      intro i hi
      rcases mem_cons.mp hi with rfl | hi
      · exact hid
      · exact h.returned i hi }

theorem Inv.complete (h : Inv st) (hid : id ∈ st.signaled) :
    Inv { st with completed := id :: st.completed } :=
  { h with
    completed := by
      intro i hi
      rcases mem_cons.mp hi with rfl | hi
      · exact hid
      · exact h.completed i hi }

/-- Retiring a cell whose signal took it out finds it gone. -/
theorem Inv.retired (h : Inv st) (hid : id ∈ st.signaled) :
    Inv { st with registry := update st.registry id false } :=
  { h with
    registry := by
      intro i
      by_cases hi : i = id
      · subst hi
        have hself : update st.registry i false i = false := update_self ..
        constructor
        · intro hreg
          have hgone := hself.symm.trans hreg
          cases hgone
        · rintro ⟨-, hnot⟩
          exact absurd hid hnot
      · have hsame : update st.registry id false i = st.registry i := update_of_ne hi ..
        change update st.registry id false i = true ↔ _
        rw [hsame]
        exact h.registry i }

/-- What the registry does not hold of the minted ids was signaled. -/
theorem Inv.signaled_of_gone (h : Inv st) (hid : id ∈ st.minted) (hreg : st.registry id = false) :
    id ∈ st.signaled := by
  by_contra hnot
  have hheld := (h.registry id).mpr ⟨hid, hnot⟩
  rw [hreg] at hheld
  cases hheld

theorem Phase.Sound.mono (h : p.Sound st) (hnext : st.nextId ≤ st'.nextId)
    (hminted : st'.minted = st.minted) (hdone : st'.done = st.done)
    (hsignaled : ∀ i ∈ st.signaled, i ∈ st'.signaled) : p.Sound st' := by
  cases p with
  | idle => trivial
  | minting id => exact ⟨Int.lt_of_lt_of_le h.1 hnext, hminted ▸ h.2⟩
  | holding timed id | woken timed id => exact (congrArg (id ∈ ·) hminted).mpr h
  | blocked timed id => exact ⟨hminted ▸ h.1, hdone ▸ h.2⟩
  | retiring timed id => exact hsignaled id h
  | signaling id => exact hsignaled id h

/-- The new id is beyond all that are minted or about to be. -/
theorem Inv.counted (h : Inv st) (ht : st.phase t = .idle) :
    Inv { st.to t (.minting st.nextId) with nextId := st.nextId + 1 } := by
  have hfresh : ∀ {u}, st.phase u ≠ .minting st.nextId := by
    intro u hu
    have hsound := h.sound u
    rw [hu] at hsound
    exact absurd hsound.1 (Int.lt_irrefl _)
  have hat : ∀ {x id}, (st.to t (.minting st.nextId)).phase x = .minting id →
      x = t ∧ id = st.nextId ∨ x ≠ t ∧ st.phase x = .minting id := by
    intro x id hx
    by_cases hxt : x = t
    · subst hxt
      rw [to_phase_self] at hx
      cases hx
      exact .inl ⟨rfl, rfl⟩
    · rw [to_phase_ne hxt] at hx
      exact .inr ⟨hxt, hx⟩
  constructor
  · intro u
    by_cases hu : u = t
    · subst hu
      change Phase.Sound _ ((st.to u (.minting st.nextId)).phase u)
      rw [to_phase_self]
      refine ⟨Int.lt_succ st.nextId, fun hmem => ?_⟩
      exact absurd (h.minted _ hmem) (Int.lt_irrefl _)
    · change Phase.Sound _ ((st.to t (.minting st.nextId)).phase u)
      rw [to_phase_ne hu]
      exact (h.sound u).mono (Int.le_of_lt (Int.lt_succ _)) rfl rfl fun i hi => hi
  · intro v w id hv hw
    obtain ⟨rfl, rfl⟩ | ⟨-, hold⟩ := hat hv
    · obtain ⟨rfl, -⟩ | ⟨-, hold⟩ := hat hw
      · rfl
      · exact absurd hold hfresh
    · obtain ⟨-, rfl⟩ | ⟨-, hold'⟩ := hat hw
      · exact absurd hold hfresh
      · exact h.minting hold hold'
  · intro id hid
    exact Int.lt_trans (h.minted id hid) (Int.lt_succ _)
  · exact h.signaled
  · exact h.registry
  · exact h.done
  · intro id hid
    exact h.pending_to (by simp [ht]) _ hid
  · exact h.completed
  · exact h.returned

/-- The cell of a new id, not done, goes into the registry. -/
theorem Inv.registered (h : Inv st) (ht : st.phase t = .minting id) : Inv { st.to t .idle with
    registry := update st.registry id true
    done := update st.done id false
    minted := id :: st.minted } := by
  have hsound := h.sound t
  rw [ht] at hsound
  obtain ⟨hlt, hnew⟩ := hsound
  have hnotSignaled : id ∉ st.signaled := fun hmem => hnew (h.signaled id hmem)
  have hdone : update st.done id false = st.done := by
    have hfalse : st.done id = false := by
      rw [← Bool.not_eq_true]
      exact fun htrue => hnotSignaled (h.done id htrue)
    rw [← hfalse, update_eq_self]
  rw [hdone]
  constructor
  · intro u
    change Phase.Sound _ ((st.to t .idle).phase u)
    by_cases hu : u = t
    · subst hu
      rw [to_phase_self]
      trivial
    · rw [to_phase_ne hu]
      have hs := h.sound u
      cases hp : st.phase u with
      | idle => trivial
      | minting i =>
        rw [hp] at hs
        refine ⟨hs.1, fun hmem => ?_⟩
        rcases mem_cons.mp hmem with rfl | hmem
        · exact hu (h.minting hp ht)
        · exact hs.2 hmem
      | holding timed i | woken timed i =>
        rw [hp] at hs
        exact mem_cons_of_mem _ hs
      | blocked timed i =>
        rw [hp] at hs
        exact ⟨mem_cons_of_mem _ hs.1, hs.2⟩
      | retiring timed i | signaling i =>
        rw [hp] at hs
        exact hs
  · intro v w i hv hw
    exact h.minting (phase_of_to hv (by simp)) (phase_of_to hw (by simp))
  · intro i hi
    rcases mem_cons.mp hi with rfl | hi
    · exact hlt
    · exact h.minted i hi
  · intro i hi
    exact mem_cons_of_mem _ (h.signaled i hi)
  · intro i
    change update st.registry id true i = true ↔ i ∈ id :: st.minted ∧ i ∉ st.signaled
    by_cases hi : i = id
    · subst hi
      rw [update_self]
      exact iff_of_true rfl ⟨mem_cons_self, hnotSignaled⟩
    · rw [update_of_ne hi, h.registry i, mem_cons]
      exact and_congr_left fun _ => (or_iff_right hi).symm
  · exact h.done
  · intro i hi
    exact h.pending_to (by simp [ht]) _ hi
  · exact h.completed
  · exact h.returned

/-- The signal takes the cell out of the registry first. -/
theorem Inv.removed (h : Inv st) (ht : st.phase t = .idle) (hid : id ∈ st.minted) :
    Inv { st.to t (.signaling id) with
      registry := update st.registry id false
      signaled := id :: st.signaled } := by
  constructor
  · intro u
    change Phase.Sound _ ((st.to t (.signaling id)).phase u)
    by_cases hu : u = t
    · subst hu
      rw [to_phase_self]
      exact mem_cons_self
    · rw [to_phase_ne hu]
      exact (h.sound u).mono (Int.le_refl _) rfl rfl fun i hi => mem_cons_of_mem _ hi
  · intro v w i hv hw
    exact h.minting (phase_of_to hv (by simp)) (phase_of_to hw (by simp))
  · exact h.minted
  · intro i hi
    rcases mem_cons.mp hi with rfl | hi
    · exact hid
    · exact h.signaled i hi
  · intro i
    change update st.registry id false i = true ↔ i ∈ st.minted ∧ i ∉ id :: st.signaled
    by_cases hi : i = id
    · subst hi
      rw [update_self]
      exact iff_of_false (by decide) fun hmem => hmem.2 mem_cons_self
    · rw [update_of_ne hi, h.registry i, mem_cons, not_or]
      exact and_congr_right fun _ => (and_iff_right hi).symm
  · intro i hi
    exact mem_cons_of_mem _ (h.done i hi)
  · intro i hi
    rcases mem_cons.mp hi with rfl | hi
    · exact .inr ⟨t, to_phase_self⟩
    · exact h.pending_to (by simp [ht]) _ hi
  · intro i hi
    exact mem_cons_of_mem _ (h.completed i hi)
  · intro i hi
    exact mem_cons_of_mem _ (h.returned i hi)

theorem Phase.notified_eq {q : Phase} (h : p.notified id = q) :
    p = q ∨ ∃ timed, p = .blocked timed id ∧ q = .woken timed id := by
  cases p with
  | blocked timed i =>
    rw [Phase.notified] at h
    split at h
    · next hi =>
      subst hi
      exact .inr ⟨timed, rfl, h.symm⟩
    · exact .inl h
  | _ => exact .inl h

/-- The signal marks the cell done and wakes all that wait at it. -/
theorem Inv.rung (h : Inv st) (ht : st.phase t = .signaling id) : Inv { st with
    done := update st.done id true
    phase := update (fun u => (st.phase u).notified id) t .idle
    completed := id :: st.completed } := by
  have hid : id ∈ st.signaled := by
    have hsound := h.sound t
    rw [ht] at hsound
    exact hsound
  have hphase : ∀ {x q}, update (fun u => (st.phase u).notified id) t .idle x = q → q ≠ .idle →
      x ≠ t ∧ (st.phase x).notified id = q := by
    intro x q hx hq
    have hne : x ≠ t := by
      rintro rfl
      rw [update_self] at hx
      exact hq hx.symm
    rw [update_of_ne hne] at hx
    exact ⟨hne, hx⟩
  have hminting : ∀ {x i}, update (fun u => (st.phase u).notified id) t .idle x = .minting i →
      st.phase x = .minting i := by
    intro x i hx
    obtain ⟨-, hx⟩ := hphase hx (by simp)
    obtain hx | ⟨timed, -, hx⟩ := Phase.notified_eq hx
    · exact hx
    · cases hx
  suffices hrung : Inv { st with
      done := update st.done id true
      phase := update (fun u => (st.phase u).notified id) t .idle } from hrung.complete hid
  constructor
  · intro u
    change Phase.Sound _ (update (fun u => (st.phase u).notified id) t .idle u)
    by_cases hu : u = t
    · subst hu
      rw [update_self]
      trivial
    · rw [update_of_ne hu]
      have hs := h.sound u
      cases hp : st.phase u with
      | blocked timed i =>
        rw [hp] at hs
        rw [Phase.notified]
        split
        · exact hs.1
        · next hi =>
          refine ⟨hs.1, ?_⟩
          change update st.done id true i = false
          rw [update_of_ne hi]
          exact hs.2
      | _ =>
        rw [hp] at hs
        exact hs
  · intro v w i hv hw
    exact h.minting (hminting hv) (hminting hw)
  · exact h.minted
  · exact h.signaled
  · exact h.registry
  · intro i hi
    by_cases hne : i = id
    · exact hne ▸ hid
    · change update st.done id true i = true at hi
      rw [update_of_ne hne] at hi
      exact h.done i hi
  · intro i hi
    change update st.done id true i = true ∨ _
    by_cases hne : i = id
    · subst hne
      rw [update_self]
      exact .inl rfl
    · rw [update_of_ne hne]
      obtain hdone | ⟨u, hu⟩ := h.pending i hi
      · exact .inl hdone
      · have hut : u ≠ t := by
          rintro rfl
          rw [ht] at hu
          injection hu with hsame
          exact hne hsame.symm
        refine .inr ⟨u, ?_⟩
        change update (fun u => (st.phase u).notified id) t .idle u = _
        rw [update_of_ne hut, hu]
        rfl
  · exact h.completed
  · exact h.returned

theorem Inv.step (h : Inv st) (hs : Step a st st') : Inv st' := by
  have hsound := h.sound
  cases hs with
  | nextId ht => exact h.counted ht
  | register ht => exact h.registered ht
  | unknown ht hid hreg => exact h.answer (h.signaled_of_gone hid hreg)
  | found ht hid hreg => exact h.move hid (by simp) (by simp [ht])
  | already ht hdone =>
    exact (h.move (p := .idle) trivial (by simp) (by simp [ht])).answer (h.done _ hdone)
  | @leave _ t timed id ht hdone =>
    refine h.move (h.done _ hdone) (by simp) fun i hi => ?_
    rcases ht with ht | ⟨ht, -⟩ <;> cases ht.symm.trans hi
  | @block _ t timed id ht hdone =>
    have hid : id ∈ st.minted := by
      have hs := hsound t
      rcases ht with ht | ⟨ht, -⟩
      · rw [ht] at hs
        exact hs
      · rw [ht] at hs
        exact hs
    refine h.move ⟨hid, hdone⟩ (by simp) fun i hi => ?_
    rcases ht with ht | ⟨ht, -⟩ <;> cases ht.symm.trans hi
  | timeout ht hdone => exact h.move trivial (by simp) (by simp [ht])
  | @wake _ t timed id ht =>
    have hs := hsound t
    rw [ht] at hs
    exact h.move hs.1 (by simp) (by simp [ht])
  | @retire _ t timed id ht =>
    have hs := hsound t
    rw [ht] at hs
    exact ((h.move (p := .idle) trivial (by simp) (by simp [ht])).retired hs).answer hs
  | nothing ht hid hreg => exact h.complete (h.signaled_of_gone hid hreg)
  | remove ht hid hreg => exact h.removed ht hid
  | ring ht => exact h.rung ht

theorem Inv.reach (h : Reaches Step anyAction .start st) : Inv st :=
  h.invariant (fun hs _ hstep => hs.step hstep) .start

/-! ### Ends of runs -/

/-- Nobody can go on: only a new call, or a condition variable that returns by itself, is left. -/
def Final (st : State) : Prop := ∀ a st', Step a st st' → a.Starts

/-- A waiter that was woken, like a thread with a section in front of it, can always go on. -/
theorem Final.phase (hf : Final st) (t : ℕ) :
    st.phase t = .idle ∨ ∃ timed id, st.phase t = .blocked timed id := by
  cases ht : st.phase t with
  | idle => exact .inl rfl
  | blocked timed id => exact .inr ⟨timed, id, rfl⟩
  | minting id => exact (hf _ _ (.register ht)).elim
  | retiring timed id => exact (hf _ _ (.retire ht)).elim
  | signaling id => exact (hf _ _ (.ring ht)).elim
  | holding timed id =>
    cases hdone : st.done id with
    | false => exact (hf _ _ (.block (.inl ht) hdone)).elim
    | true =>
      cases timed with
      | false => exact (hf _ _ (.leave (.inr ⟨ht, rfl⟩) hdone)).elim
      | true => exact (hf _ _ (.already ht hdone)).elim
  | woken timed id =>
    cases hdone : st.done id with
    | true => exact (hf _ _ (.leave (.inl ht) hdone)).elim
    | false =>
      cases timed with
      | false => exact (hf _ _ (.block (.inr ⟨ht, rfl⟩) hdone)).elim
      | true => exact (hf _ _ (.timeout ht hdone)).elim

theorem Inv.no_waiter (h : Inv st) (hf : Final st) (ht : st.phase t = .blocked timed id) :
    id ∉ st.completed := by
  intro hid
  have hsound := h.sound t
  rw [ht] at hsound
  obtain hdone | ⟨u, hu⟩ := h.pending id (h.completed id hid)
  · exact Bool.false_ne_true (hsound.2.symm.trans hdone)
  · obtain hidle | ⟨timed', id', hblocked⟩ := hf.phase u
    · cases hu.symm.trans hidle
    · cases hu.symm.trans hblocked

/-! ### One signal -/

/-- The section is one of a signal of `id`. -/
def Signals (st : State) (id : ℤ) : Action → Prop
  | .signal _ i => i = id
  | .ring t => st.phase t = .signaling id
  | _ => False

def Action.thread : Action → ℕ
  | .nextId t | .register t | .wait t _ _ | .check t | .wake t | .retire t | .signal t _
  | .ring t => t

/-- The id a thread is busy with. -/
def Phase.id? : Phase → Option ℤ
  | .idle => none
  | .minting id | .holding _ id | .blocked _ id | .woken _ id | .retiring _ id | .signaling id =>
    some id

theorem Phase.notified_of_ne (hp : p.id? ≠ some id) : p.notified id = p := by
  cases p with
  | blocked timed i =>
    have hi : i ≠ id := by
      rintro rfl
      exact hp rfl
    rw [Phase.notified, if_neg hi]
  | _ => rfl

/-- A signal changes neither the entry nor the cell nor the waiters of another id. -/
theorem signal_frame (hs : Step a st st') (ha : Signals st id a) (hother : other ≠ id) :
    st'.registry other = st.registry other ∧ st'.done other = st.done other ∧
      ∀ u, u ≠ a.thread → (st.phase u).id? ≠ some id → st'.phase u = st.phase u := by
  cases hs with
  | nothing ht hid hreg => exact ⟨rfl, rfl, fun u _ _ => rfl⟩
  | remove ht hid hreg =>
    obtain rfl : _ = id := ha
    exact ⟨update_of_ne hother .., rfl, fun u hu _ => to_phase_ne hu⟩
  | @ring _ t id' ht =>
    obtain rfl : id' = id := by
      have hsame := ht.symm.trans ha
      injection hsame
    refine ⟨rfl, update_of_ne hother .., fun u hu hid => ?_⟩
    have hut : u ≠ t := hu
    change update (fun v => (st.phase v).notified id') t .idle u = st.phase u
    rw [update_of_ne hut]
    exact Phase.notified_of_ne hid
  | _ => exact ha.elim

end

/-- In every state that the lock sections can reach: a wait has returned only for a signaled id;
where nobody can go on, nobody waits for an id whose signal completed; the registry holds no
signaled id; and a signal touches no other id. -/
theorem oneshots {st : State} (h : Reaches Step anyAction .start st) :
    (∀ id ∈ st.returned, id ∈ st.signaled) ∧
      (Final st → ∀ t timed id, st.phase t = .blocked timed id → id ∉ st.completed) ∧
      (∀ id ∈ st.signaled, st.registry id = false) ∧
      ∀ {a st' id other}, Step a st st' → Signals st id a → other ≠ id →
        st'.registry other = st.registry other ∧ st'.done other = st.done other ∧
          ∀ u, u ≠ a.thread → (st.phase u).id? ≠ some id → st'.phase u = st.phase u := by
  have hinv := Inv.reach h
  refine ⟨hinv.returned, fun hf t timed id ht => hinv.no_waiter hf ht, ?_, signal_frame⟩
  intro id hid
  rw [← Bool.not_eq_true, hinv.registry id]
  exact fun hmem => hmem.2 hid

/-- A waiter blocks, is signaled by another thread, and returns. -/
theorem oneshots_waited :
    ∃ st, Reaches Step anyAction .start st ∧ st.returned = [1] ∧ 1 ∈ st.signaled := by
  have hstart : Reaches Step anyAction .start .start := .refl _
  have hminted :=
    (hstart.next trivial (@Step.nextId _ 0 rfl)).next trivial (@Step.register _ 0 _ rfl)
  have hfound := hminted.next trivial (@Step.found _ 0 false 1 rfl (by decide) rfl)
  have hblocked := hfound.next trivial (@Step.block _ 0 false 1 (.inl rfl) rfl)
  have hremoved := hblocked.next trivial (@Step.remove _ 1 1 rfl (by decide) rfl)
  have hrung := hremoved.next trivial (@Step.ring _ 1 1 rfl)
  have hleft := hrung.next trivial (@Step.leave _ 0 false 1 (.inl rfl) rfl)
  have hreturned := hleft.next trivial (@Step.retire _ 0 false 1 rfl)
  exact ⟨_, hreturned, rfl, (oneshots hreturned).1 1 (by decide)⟩

end AxisBridge.Oneshot
