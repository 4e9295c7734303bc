import AxisBridge.Runtime.Fault
import AxisBridge.Runtime.Iter

/-! Runs of emitted code with the callbacks of its higher-order calls, and the builtins they
start. -/
namespace AxisBridge

/-- A builtin, and whether its registry row says `effect pure` and `deterministic true`. -/
structure Builtin where
  name : String
  pureDet : Bool

/-- What a builtin without callbacks does when it runs. -/
inductive Leaf
  | value (v : Value)
  | panic (p : Payload) (location : String)
  | raise (message location : String)
  | exit (status : UInt8)

mutual

/-- One run of emitted code: its guarded calls of builtins, without callbacks and with them, and
its calls of composites, which no guard surrounds. -/
inductive Code
  | ret (v : Value)
  | leaf (b : Builtin) (args : List Value) (does : Leaf) (k : Value → Code)
  | higher {n : ℕ} (b : Builtin) (args : List Value) (callees : Fin n → Callback) (d : Driver n)
    (location : String) (k : Value → Code)
  | composite (body : Code) (k : Value → Code)

/-- A callee slot: the bare path or `_vfn` adapter of a builtin, or the `_xfn` wrapper of a
composite, with what the calls that the driver makes do. -/
inductive Callback
  | builtin (b : Builtin) (does : ℕ → Value → Leaf)
  | composite (run : ℕ → Value → Code)

end

/-- A composite is never in the set of pure and deterministic callees. -/
def Callback.pureDet : Callback → Bool
  | .builtin b _ => b.pureDet
  | .composite _ => false

/-- What `call_is_pure_det` finds of such a call. -/
def pureDetCall {n : ℕ} (b : Builtin) (callees : Fin n → Callback) : Bool :=
  b.pureDet && decide (∀ f, (callees f).pureDet = true)

/-- A builtin that started to run, and whether a fault had been recorded for the thread. -/
structure Start where
  builtin : Builtin
  afterFault : Bool

structure EntryState where
  thread : Thread
  started : List Start

def EntryState.fresh : EntryState := ⟨.fresh, []⟩

def EntryState.start (s : EntryState) (b : Builtin) : EntryState :=
  { s with started := s.started ++ [⟨b, s.thread.faulted.isSome⟩] }

def EntryState.hook (s : EntryState) :
    EntryState := { s with thread := { s.thread with hookInstalled :=
  true } }

/-- How a call ended and what is left of the entry. -/
abbrev Ends := Outcome × EntryState

/-- An unwinding or an exit skips the code after the call. -/
def Ends.andThen (r : Ends) (k : Value → EntryState → Ends) : Ends :=
  match r with
  | (.value v, s) => k v s
  | done => done

@[simp] theorem Ends.andThen_value (v : Value) (s : EntryState) (k : Value → EntryState → Ends) :
    Ends.andThen (.value v, s) k = k v s := rfl

def Leaf.run : Leaf → EntryState → Ends
  | .value v, s => (.value v, s)
  | .panic p location, s =>
    (.unwind p,
      { s with
        thread := if s.thread.hookInstalled then { s.thread with lastLoc := some location }
          else s.thread })
  | .raise message location, s =>
    let (u, t) := AxisBridge.raise message location s.thread
    (.value u, { s with thread := t })
  | .exit status, s => (.exited status, s)

/-- `guard_pre`, and `guard_run` around the builtin. -/
def guardedCall (env : FaultEnv) (b : Builtin) (effectful : Bool) (args : List Value)
    (body : EntryState → Ends) (s : EntryState) : Ends :=
  match guardPre s.thread effectful args with
  | some v => (.value v, s)
  | none =>
    let (o, s) := body (s.hook.start b)
    let (o, t) := guardRun env b.name effectful (o, s.thread)
    (o, { s with thread := t })

/-- The driver's calls are numbered from `i` on. -/
def Drive.run {n : ℕ} (call : Fin n → ℕ → Value → EntryState → Ends) (location : String) :
    Drive n → ℕ → EntryState → Ends
  | .done v, _, s => (.value v, s)
  | .panic message, _, s => Leaf.run (.panic (.string message) location) s
  | .call f arg next, i, s =>
    (call f i arg s).andThen fun r s => (next r).run call location (i + 1) s

mutual

def Code.run (env : FaultEnv) : Code → EntryState → Ends
  | .ret v, s => (.value v, s)
  | .leaf b args does k, s =>
    (guardedCall env b (! b.pureDet) args does.run s).andThen fun v s => (k v).run env s
  | .higher b args callees d location k, s =>
    (guardedCall env b (! pureDetCall b callees) args
      (d.drive.run (fun f i arg s => (callees f).call env i arg s) location 0) s).andThen
        fun v s => (k v).run env s
  | .composite body k, s => (body.run env s).andThen fun v s => (k v).run env s

/-- A callback is called without a guard. -/
def Callback.call (env : FaultEnv) : Callback → ℕ → Value → EntryState → Ends
  | .builtin b does, i, arg, s => (does i arg).run (s.start b)
  | .composite run, i, arg, s => (run i arg).run env s

end

/-- The attempts of an entry's restarts, one after the other on its thread. -/
def runAttempts (env : FaultEnv) (attempts : List Code) (s : EntryState) : EntryState :=
  attempts.foldl (fun s c => (c.run env s).2) s

def Leaf.prog : Leaf → (Value → Prog) → Prog
  | .value v, κ => κ v
  | .panic p location, _ => .panic p location
  | .raise message location, κ => .raise message location κ
  | .exit status, κ => .exit (.int status.toUInt64.toInt64) κ

def Drive.prog {n : ℕ} (call : Fin n → ℕ → Value → (Value → Prog) → Prog) (location : String) :
    Drive n → ℕ → Prog
  | .done v, _ => .ret v
  | .panic message, _ => .panic (.string message) location
  | .call f arg next, i => call f i arg fun r => (next r).prog call location (i + 1)

mutual

/-- The guarded calls of the run, without the starts of its callbacks. -/
def Code.prog : Code → (Value → Prog) → Prog
  | .ret v, κ => κ v
  | .leaf b args does k, κ =>
    .guard b.name (! b.pureDet) args (does.prog .ret) fun v => (k v).prog κ
  | .higher b args callees d location k, κ =>
    .guard b.name (! pureDetCall b callees) args
      (d.drive.prog (fun f i arg κ => (callees f).prog i arg κ) location 0) fun v => (k v).prog κ
  | .composite body k, κ => body.prog fun v => (k v).prog κ

def Callback.prog : Callback → ℕ → Value → (Value → Prog) → Prog
  | .builtin _ does, i, arg, κ => (does i arg).prog κ
  | .composite run, i, arg, κ => (run i arg).prog κ

end

variable {env : FaultEnv}

/-- The run of the guarded calls ends as `r` does, with the rest `κ` after a value. -/
def Ends.Follows (env : FaultEnv) (r : Ends) (κ : Value → Prog) (run : Outcome × Thread) : Prop :=
  match r with
  | (.value v, s) => run = (κ v).run env s.thread
  | (.unwind p, s) => run = (.unwind p, s.thread)
  | (.exited _, _) => True

theorem Ends.Follows.andThen {r : Ends} {k : Value → EntryState → Ends} {κ κ' : Value → Prog}
    {run : Outcome × Thread} (h : r.Follows env κ run)
    (hk : ∀ v s, (k v s).Follows env κ' ((κ v).run env s.thread)) :
    (r.andThen k).Follows env κ' run := by
  rcases r with ⟨o, s⟩
  cases o with
  | value v =>
    have hr : run = (κ v).run env s.thread := h
    rw [hr]
    exact hk v s
  | unwind p => exact h
  | exited status => trivial

theorem Leaf.follows_run (does : Leaf) (s : EntryState) (κ : Value → Prog) :
    (does.run s).Follows env κ ((does.prog κ).run env s.thread) := by
  cases does <;> first | rfl | trivial

/-- A guarded call of a body is the guard of the program its body follows. -/
theorem follows_guardedCall {b : Builtin} {effectful : Bool} {args : List Value}
    {body : EntryState → Ends} {p : Prog}
    (hbody : ∀ s, (body s).Follows env .ret (p.run env s.thread)) (s : EntryState)
    (κ : Value → Prog) :
    (guardedCall env b effectful args body s).Follows env κ
      ((Prog.guard b.name effectful args p κ).run env s.thread) := by
  rw [guardedCall, Prog.run]
  cases guardPre s.thread effectful args with
  | some v => rfl
  | none =>
    have h := hbody (s.hook.start b)
    rcases hb : body (s.hook.start b) with ⟨o, s1⟩
    rw [hb] at h
    cases o with
    | value v =>
      have hp : p.run env { s.thread with hookInstalled := true } = (.value v, s1.thread) := h
      simp only [hp]
      rfl
    | unwind q =>
      have hp : p.run env { s.thread with hookInstalled := true } = (.unwind q, s1.thread) := h
      simp only [hp]
      rcases guardRun env b.name effectful (.unwind q, s1.thread) with ⟨o, t⟩
      cases o <;> first | rfl | trivial
    | exited status => trivial

theorem Drive.follows_run {n : ℕ} {call : Fin n → ℕ → Value → EntryState → Ends}
    {prog : Fin n → ℕ → Value → (Value → Prog) → Prog} (location : String)
    (hcall : ∀ f i arg s κ, (call f i arg s).Follows env κ ((prog f i arg κ).run env s.thread))
    {d : Drive n} : ∀ {i : ℕ} {s : EntryState},
      (d.run call location i s).Follows env .ret ((d.prog prog location i).run env s.thread) := by
  induction d with
  | done v => exact fun {_ _} => rfl
  | panic message =>
    intro i s
    exact Leaf.follows_run (.panic (.string message) location) s .ret
  | call f arg next ih =>
    intro i s
    exact (hcall f i arg s _).andThen fun r s => ih r

mutual

/-- The run is that of its guarded calls, unless a builtin ends the process. -/
theorem Code.follows_run (env : FaultEnv) : (c : Code) → ∀ s κ,
    (c.run env s).Follows env κ ((c.prog κ).run env s.thread)
  | .ret v => fun _ _ => rfl
  | .leaf b args does k => fun s κ =>
    (follows_guardedCall (fun s => does.follows_run s .ret) s _).andThen
      fun v s => Code.follows_run env (k v) s κ
  | .higher b args callees d location k => fun s κ => by
    have hdrive : ∀ s : EntryState, _ := fun s =>
      Drive.follows_run (d := d.drive) (i := 0) (s := s) location
        fun f i arg s κ => Callback.follows_call env (callees f) i arg s κ
    exact (follows_guardedCall hdrive s _).andThen fun v s => Code.follows_run env (k v) s κ
  | .composite body k => fun s κ =>
    (Code.follows_run env body s _).andThen fun v s => Code.follows_run env (k v) s κ

theorem Callback.follows_call (env : FaultEnv) : (c : Callback) → ∀ i arg s κ,
    (c.call env i arg s).Follows env κ ((c.prog i arg κ).run env s.thread)
  | .builtin b does => fun i arg s κ => (does i arg).follows_run (s.start b) κ
  | .composite run => fun i arg s κ => Code.follows_run env (run i arg) s κ

end

/-- Unless the process ends, a run ends as its guarded calls do, and leaves the thread as they leave
it. -/
theorem Code.run_refines (env : FaultEnv) (c : Code) (s : EntryState) :
    (∃ status, (c.run env s).1 = .exited status) ∨
      (c.prog .ret).run env s.thread = ((c.run env s).1, (c.run env s).2.thread) := by
  have h := Code.follows_run env c s .ret
  rcases hr : c.run env s with ⟨o, s'⟩
  rw [hr] at h
  cases o with
  | value v | unwind p => exact .inr h
  | exited status => exact .inl ⟨status, rfl⟩

end AxisBridge
