import AxisBridge.Runtime.Value

/-! Bridge faults: a builtin's panic becomes a sticky Unknown, kept for the life of its thread. -/
namespace AxisBridge

/-- `$AX_FAULT_MODE` is `abort`, and the text of the user's `$AX_FAULT_MAP`, if it can be read. -/
structure FaultEnv where
  abortMode : Bool
  faultMap : Option String

/-- What a panic unwinds with. -/
inductive Payload
  | str (s : String)
  | string (s : String)
  | other

structure FaultRecord where
  kind : String
  builtin : String
  message : String
  location : String

/-- The fault state of one thread, its fault log and what it printed to stderr. -/
structure Thread where
  faulted : Option Value
  lastLoc : Option String
  hookInstalled : Bool
  faults : ℕ
  log : List FaultRecord
  stderr : List String

def Thread.fresh : Thread := ⟨none, none, false, 0, [], []⟩

/-- How a call ends: with a value, by unwinding, or with the whole process. -/
inductive Outcome
  | value (v : Value)
  | unwind (p : Payload)
  | exited (status : UInt8)

/-- One run of an entry: the guarded calls it makes, each with the body its builtin ran. -/
inductive Prog
  | ret (v : Value)
  | panic (p : Payload) (location : String)
  | raise (message location : String) (k : Value → Prog)
  | exit (code : Value) (k : Value → Prog)
  | guard (builtin : String) (effectful : Bool) (args : List Value) (body : Prog)
    (k : Value → Prog)

def classifyByUserMap (env : FaultEnv) (builtin message : String) : Option String :=
  match env.faultMap with
  | none => none
  | some text =>
    ((lines text).filter fun l => (trimStart l).toList.head? != some '#').findSome? fun l =>
      match split '\t' l with
      | [f0, f1, f2] => if f0 == builtin && containsText message f1 then some (trim f2) else none
      | _ => none

def DEFECT_PREFIX : String := "DEFECT in "

def isDefectPayload : Payload → Bool
  | .string m => DEFECT_PREFIX.toList.isPrefixOf m.toList
  | _ => false

/-- The panic message a payload carries. -/
def Payload.message : Payload → String
  | .str m => m
  | .string m => m
  | .other => "<non-string panic payload>"

/-- `FAULTED` keeps the first fault only. -/
def Thread.fault (t : Thread) (u : Value) : Thread := { t with faulted := t.faulted.or (some u) }

def Thread.print (t : Thread) (line : String) : Thread := { t with stderr := t.stderr ++ [line] }

def Thread.record (t : Thread) (r : FaultRecord) : Thread := { t with log := t.log ++ [r] }

@[simp] theorem Thread.faulted_print (t : Thread) (line : String) :
    (t.print line).faulted = t.faulted := rfl

@[simp] theorem Thread.faulted_record (t : Thread) (r : FaultRecord) :
    (t.record r).faulted = t.faulted := rfl

/-- A deliberate Unknown. -/
def raise (message location : String) (t : Thread) : Value × Thread :=
  let u := unknown "fail" "fail" message location
  (u, (t.fault u).print s!"axis: fail: {message} (at {location})")

def firstFault (t : Thread) : Option Value := t.faulted

/-- The value a guarded call yields without running its builtin. -/
def guardPre (t : Thread) (effectful : Bool) (args : List Value) : Option Value :=
  match effectful, t.faulted with
  | true, some first => some first
  | _, _ => args.find? fun a => isUnknown a || isErr a

/-- What `guard_run` makes of the builtin's own end. -/
def guardRun (env : FaultEnv) (builtin : String) (effectful : Bool) :
    Outcome × Thread → Outcome × Thread
  | (.unwind p, t) =>
    let msg := p.message
    let loc := t.lastLoc.getD ""
    let t := { t with lastLoc := none }
    if ! effectful then
      (.unwind (.string s!"{DEFECT_PREFIX}{builtin}: {msg}"),
        (t.record ⟨"defect", builtin, msg, loc⟩).print
          s!"axis: DEFECT in {builtin}: {msg} (at {loc}) -- a bug in the program")
    else
      match classifyByUserMap env builtin msg with
      | some name => (.value (.ctor ERR_TAG [.str name, .str builtin, .str msg]), t)
      | none =>
        let t := (t.record ⟨"bridge_fault", builtin, msg, loc⟩).print
          s!"axis: BRIDGE FAULT in {builtin}: {msg} (at {loc})"
        if env.abortMode then (.exited 70, t)
        else
          let u := unknown "bridge_fault" builtin msg loc
          (.value u, { t with faults := t.faults + 1 }.fault u)
  | done => done

/-- The status the parent sees of `process::exit(n as i32)`. -/
def exitStatus : Value → UInt8
  | .int n => n.toUInt64.toUInt8
  | _ => 0

/-- The builtin `proc_exit` is effectful, so it is guarded like any other. -/
def Prog.run (env : FaultEnv) : Prog → Thread → Outcome × Thread
  | .ret v, t => (.value v, t)
  | .panic p location, t =>
    (.unwind p, if t.hookInstalled then { t with lastLoc := some location } else t)
  | .raise message location k, t =>
    let (u, t) := AxisBridge.raise message location t
    (k u).run env t
  | .exit code k, t =>
    match guardPre t true [code] with
    | some v => (k v).run env t
    | none => (.exited (exitStatus code), { t with hookInstalled := true })
  | .guard builtin effectful args body k, t =>
    match guardPre t effectful args with
    | some v => (k v).run env t
    | none =>
      match guardRun env builtin effectful (body.run env { t with hookInstalled := true }) with
      | (.value v, t) => (k v).run env t
      | done => done

theorem guardRun_faulted (env : FaultEnv) (builtin : String) (effectful : Bool)
    {r : Outcome × Thread} {u : Value} (h : r.2.faulted = some u) :
    (guardRun env builtin effectful r).2.faulted = some u := by
  rcases r with ⟨o, t⟩
  cases o with
  | value v => exact h
  | exited status => exact h
  | unwind p =>
    have hor : t.faulted.or (some (unknown "bridge_fault" builtin p.message (t.lastLoc.getD ""))) =
        some u := by
      rw [h]
      rfl
    simp only [guardRun]
    split
    · exact h
    · split
      · exact h
      · split
        · exact h
        · exact hor

/-- The first fault lasts for the entry's life: nothing the thread runs replaces or discharges
it. -/
theorem run_faulted (env : FaultEnv) {p : Prog} {u : Value} : ∀ {t : Thread},
    t.faulted = some u → (p.run env t).2.faulted = some u := by
  induction p with
  | ret v => exact fun h => h
  | panic p location =>
    intro t h
    simp only [Prog.run]
    split <;> exact h
  | raise message location k ih =>
    intro t h
    apply ih
    simp [Thread.fault, h]
  | exit code k ih =>
    intro t h
    simp only [Prog.run]
    split
    · exact ih _ h
    · exact h
  | guard builtin effectful args body k ihbody ih =>
    intro t h
    have hbody := guardRun_faulted env builtin effectful
      (ihbody (t := { t with hookInstalled := true }) h)
    simp only [Prog.run]
    split
    · exact ih _ h
    · split
      · rename_i v t' heq
        rw [heq] at hbody
        exact ih _ hbody
      · exact hbody

end AxisBridge
