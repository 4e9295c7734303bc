import AxisBridge.Runtime.Fault

/-! The two generated `main` programs and the exit status each gives to what its entries did. -/
namespace AxisBridge
open List

/-- What the single-root shim prints for the end of its entry. -/
inductive ShimReport
  | silent
  | printed (v : Value)
  | described (v : Value)
  | panicked (p : Payload)

/-- The single-root shim's `run` and `main`: the exit status and the report. -/
def singleRoot (env : FaultEnv) (entry : Prog) : UInt8 × ShimReport :=
  match entry.run env .fresh with
  | (.exited status, _) => (status, .silent)
  | (.unwind p, _) => if isDefectPayload p then (4, .silent) else (101, .panicked p)
  | (.value result, t) =>
    if isErr result then (2, .described result)
    else if isUnknown result then (3, .described result)
    else
      match firstFault t with
      | some first => (3, .described first)
      | none =>
        match result with
        | .unit => (0, .silent)
        | v => (0, .printed v)

/-- The end of an entry's thread, as the multi-entry driver's `join` sees it. -/
inductive ThreadEnd
  | returned (v : Value)
  | died (p : Payload)
  | joinFailed
  | exited (status : UInt8)

/-- The supervised loop of one entry: `attempts n` is its run after `n` restarts, on one thread. The
restart counter is a `u32` without overflow checks; no fuel is left only in a loop that runs on. -/
def supervise (env : FaultEnv) (budget : UInt32) (attempts : ℕ → Prog) :
    ℕ → UInt32 → ℕ → Thread → Option (ThreadEnd × Thread)
  | 0, _, _, _ => none
  | fuel + 1, restarts, n, t =>
    match (attempts n).run env t with
    | (.value v, t) => some (.returned v, t)
    | (.exited status, t) => some (.exited status, t)
    | (.unwind p, t) =>
      if isDefectPayload p then some (.died p, t)
      else if restarts + 1 > budget then some (.died p, t)
      else supervise env budget attempts fuel (restarts + 1) (n + 1) t

/-- Below the largest budget the restarts are bounded: the loop comes to an end. -/
theorem supervise_total (env : FaultEnv) {budget : UInt32} (hb : budget.toNat + 1 < 2 ^ 32)
    (attempts : ℕ → Prog) {fuel : ℕ} : ∀ {restarts : UInt32} {n : ℕ} {t : Thread},
    restarts.toNat ≤ budget.toNat → budget.toNat < restarts.toNat + fuel →
    (supervise env budget attempts fuel restarts n t).isSome = true := by
  induction fuel with
  | zero =>
    intro restarts n t hr hf
    omega
  | succ fuel ih =>
    intro restarts n t hr hf
    rw [supervise]
    split
    · rfl
    · rfl
    · split
      · rfl
      · split
        · rfl
        · rename_i hle
          have hadd : (restarts + 1).toNat = restarts.toNat + 1 := by
            rw [UInt32.toNat_add, UInt32.toNat_one]
            omega
          have hle' : (restarts + 1).toNat ≤ budget.toNat := UInt32.not_lt.mp hle
          exact ih (by omega) (by omega)

/-- The line the driver prints for one joined entry. -/
inductive Verdict
  | pass
  | unknown (v : Value)
  | err (v : Value)
  | value (v : Value)
  | defect
  | panic
  | joinFailed

open Verdict

/-- The match of the join loop; an entry that ended the process is never joined. -/
def verdict : ThreadEnd → Option Verdict
  | .returned .unit => some .pass
  | .returned v =>
    if isUnknown v then some (.unknown v) else if isErr v then some (.err v) else some (.value v)
  | .died p => some (if isDefectPayload p then .defect else .panic)
  | .joinFailed => some .joinFailed
  | .exited _ => none

/-- The verdicts that report an entry as failed. -/
def Verdict.failed : Verdict → Bool
  | .pass => false
  | .value _ => false
  | _ => true

structure Flags where
  bad : Bool
  unknown : Bool
  err : Bool
  defect : Bool

def Flags.join (f : Flags) : Verdict → Flags
  | .pass => f
  | .value _ => f
  | .unknown _ => { f with unknown := true }
  | .err _ => { f with err := true }
  | .defect => { f with defect := true }
  | .panic => { f with bad := true }
  | .joinFailed => { f with bad := true }

/-- A restart in place keeps the fault of the attempt before it. -/
theorem supervise_faulted {env : FaultEnv} {budget : UInt32} {attempts : ℕ → Prog} {u : Value}
    {fuel : ℕ} : ∀ {restarts : UInt32} {n : ℕ} {t t' : Thread} {e : ThreadEnd},
    t.faulted = some u → supervise env budget attempts fuel restarts n t = some (e, t') →
    t'.faulted = some u := by
  induction fuel with
  | zero =>
    intro restarts n t t' e _ h
    cases h
  | succ fuel ih =>
    intro restarts n t t' e hu h
    have hrun := run_faulted env (p := attempts n) hu
    rw [supervise] at h
    cases hend : (attempts n).run env t with
    | mk o t1 =>
      rw [hend] at h hrun
      cases o with
      | value v | exited status =>
        cases h
        exact hrun
      | unwind p =>
        simp only at h
        split at h
        · cases h
          exact hrun
        · split at h
          · cases h
            exact hrun
          · exact ih hrun h

/-- An entry that panics in its first attempt only. -/
def resetOnce : ℕ → Prog
  | 0 => .panic (.string "reset") "net.rs:1"
  | _ => .ret .unit

theorem supervise_total_reset : (supervise ⟨false, none⟩ 1 resetOnce 2 0 0 .fresh).isSome = true :=
  supervise_total _ (by decide) _ (by decide) (by decide)

theorem supervise_faulted_reset : ∃ t', supervise ⟨false, none⟩ 1 resetOnce 2 0 0
    ⟨some .unit, none, false, 1, [], []⟩ = some (.returned .unit, t') ∧ t'.faulted = some .unit :=
  ⟨_, rfl, @supervise_faulted ⟨false, none⟩ 1 resetOnce .unit 2 0 0 _ _ _ rfl rfl⟩

end AxisBridge
