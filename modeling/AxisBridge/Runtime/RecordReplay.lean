import AxisBridge.Runtime.WorldLayer

/-! Programs over the world layer, their recorded runs and the replays of these. -/
namespace AxisBridge.WorldLayer
open String List Function

inductive Call
  | wRead (path : String)
  | wExists (path : String)
  | wList (path : String)
  | wArgs
  | wEnv (name : String)
  | wNow
  | wWrite (path content : String)
  | wAppend (path content : String)
  | wMkdir (path : String)
  | wPrint (s : String)
  | wEprint (s : String)
  | wExit (code : Int64)
  | wRun (cmd : String)

/-- What the outer world can do with a call. -/
def Call.Answer : Call → Type
  | .wRead _ => Except ErrorKind String
  | .wExists _ => Bool
  | .wList _ => Listing
  | .wArgs => List String
  | .wEnv _ => Option String
  | .wNow => Option ℕ
  | .wWrite _ _ | .wAppend _ _ | .wMkdir _ => Except ErrorKind Unit
  | .wPrint _ | .wEprint _ | .wExit _ => Unit
  | .wRun _ => Output

def Call.exits : Call → Bool
  | .wExit _ => true
  | _ => false

/-- How the outer world behaves: its answer to a call that comes after so many others, or the fault
of one that panics, as a print to a closed pipe does, or comes behind such a fault and is not
run. -/
abbrev Outer := ℕ → (c : Call) → Except Fault c.Answer

/-- A single-threaded program that is deterministic given the results of its calls: the next call,
if there is one, after these results. -/
abbrev Program := List Value → Option Call

/-- A call that ended with a result. -/
structure Event where
  call : Call
  answer : call.Answer

section
variable (valueTag : UInt32)

def perform : (c : Call) → Except Fault c.Answer → World → Stepped
  | .wRead path, a => wRead path a
  | .wExists path, a => wExists path a
  | .wList path, a => wList path a
  | .wArgs, a => wArgs a
  | .wEnv name, a => wEnv name a
  | .wNow, a => wNow a
  | .wWrite path content, a => wWrite path content a
  | .wAppend path content, a => wAppend path content a
  | .wMkdir path, a => wMkdir path a
  | .wPrint s, a => wPrint s a
  | .wEprint s, a => wEprint s a
  | .wExit code, a => wExit code a
  | .wRun cmd, a => wRun valueTag cmd a

/-- The first `n` calls of a program with their results, and all it does outside; `vs` are the
results it has had before. -/
def runCalls (next : Program) (outer : Outer) : ℕ → List Value → World →
    List (Call × Value) × List Effect
  | 0, _, _ => ([], [])
  | n + 1, vs, w =>
    match next vs with
    | none => ([], [])
    | some c =>
      let p := perform valueTag c (outer vs.length c) w
      match p.2.1 with
      | .ok v =>
        let later := if c.exits then ([], []) else runCalls next outer n (vs ++ [v]) p.1
        ((c, v) :: later.1, p.2.2 ++ later.2)
      | .error fault =>
        let later := runCalls next outer n (vs ++ [fault.value]) p.1
        ((c, fault.value) :: later.1, p.2.2 ++ later.2)

def runUnder (spec : String) (readToString : String → Option String) (next : Program)
    (outer : Outer) (n : ℕ) : List (Call × Value) × List Effect :=
  let loaded := load spec readToString
  let ran := runCalls valueTag next outer n [] loaded.1
  (ran.1, loaded.2 ++ ran.2)

/-- A file after these effects. -/
def fileAfter (path : String) (effects : List Effect) (content : String) : String :=
  effects.foldl
    (fun content e =>
      match e with
      | .perform _ _ => content
      | .truncate p => if p = path then "" else content
      | .append p line => if p = path then content ++ line else content)
    content

def recorded (next : Program) (outer : Outer) (path : String) (n : ℕ) :
    List (Call × Value) × List Effect :=
  runUnder valueTag ("record:" ++ path) (fun _ => none) next outer n

/-- What becomes of the trace file where a call that comes after so many others is performed. The
recorder writes there only behind it, but the call may name the file itself, or run a command that
writes to it. -/
abbrev OnTrace := ℕ → String → String

/-- The number of calls performed, and the trace file, after these effects. -/
def traceAfter (path : String) (onTrace : OnTrace) (effects : List Effect) (s : ℕ × String) :
    ℕ × String :=
  effects.foldl
    (fun s e =>
      match e with
      | .perform _ _ => (s.1 + 1, onTrace s.1 s.2)
      | .truncate p => (s.1, if p = path then "" else s.2)
      | .append p line => (s.1, if p = path then s.2 ++ line else s.2))
    s

/-- The trace file of a recorded run, empty before it. -/
def traceOf (next : Program) (outer : Outer) (onTrace : OnTrace) (path : String) (n : ℕ) : String :=
  (traceAfter path onTrace (recorded valueTag next outer path n).2 (0, "")).2

/-- The replay of a text that stands in the trace file. -/
def replayed (next : Program) (outer : Outer) (path txt : String) (n : ℕ) :
    List (Call × Value) × List Effect :=
  runUnder valueTag ("replay:" ++ path) (fun p => if p = path then some txt else none) next outer n

end

/-! ### The calls alike -/

section
variable (valueTag : UInt32)

def Call.f : Call → String
  | .wRead _ => "w_read"
  | .wExists _ => "w_exists"
  | .wList _ => "w_list"
  | .wArgs => "w_args"
  | .wEnv _ => "w_env"
  | .wNow => "w_now"
  | .wWrite _ _ => "w_write"
  | .wAppend _ _ => "w_append"
  | .wMkdir _ => "w_mkdir"
  | .wPrint _ => "w_print"
  | .wEprint _ => "w_eprint"
  | .wExit _ => "w_exit"
  | .wRun _ => "w_run"

def Call.args : Call → List String
  | .wRead s | .wExists s | .wList s | .wEnv s | .wMkdir s | .wPrint s | .wEprint s | .wRun s => [s]
  | .wArgs | .wNow => []
  | .wWrite path content | .wAppend path content => [path, content]
  | .wExit code => [toString code]

def Call.kind : Call → Kind
  | .wRead _ | .wExists _ | .wList _ | .wArgs | .wEnv _ | .wNow => .read
  | .wWrite _ _ | .wAppend _ _ | .wMkdir _ | .wPrint _ | .wEprint _ | .wExit _ => .write
  | .wRun _ => .run

/-- The answer of a replay whose trace holds none. -/
def Call.miss : Call → String
  | .wRead _ | .wList _ => "T:Err:replay_miss"
  | .wExists _ => "B:0"
  | .wArgs | .wEnv _ => "T:"
  | .wNow => "I:0"
  | .wWrite _ _ | .wAppend _ _ | .wMkdir _ => "T:Ok:"
  | .wPrint _ | .wEprint _ | .wExit _ => "U:"
  | .wRun _ => "R:-1\x1f\x1freplay_miss"

def Call.key (c : Call) : String := WorldLayer.key c.f c.args

/-- The typed result of a call that is performed. -/
def Call.real : (c : Call) → c.Answer → String
  | .wRead _, .ok c => "T:Ok:" ++ c
  | .wRead _, .error e => ioErr e
  | .wExists _, a => if (show Bool from a) then "B:1" else "B:0"
  | .wList _, .file => "T:Err:not_a_dir"
  | .wList _, .entries names =>
    let names := names.map fun e => if e.2 then e.1 ++ "/" else e.1
    "T:Ok:" ++ "\n".intercalate (names.mergeSort fun a b => !decide (b < a))
  | .wList _, .error e => ioErr e
  | .wArgs, a => "T:" ++ "\n".intercalate (List.drop 1 a)
  | .wEnv _, a => "T:" ++ Option.getD a ""
  | .wNow, a => "I:" ++ toString (min (Option.getD a 0) (2 ^ 63 - 1))
  | .wWrite _ _, a | .wAppend _ _, a | .wMkdir _, a => written a
  | .wPrint _, _ | .wEprint _, _ | .wExit _, _ => "U:"
  | .wRun _, .ok (code, out, err) =>
    "R:" ++ toString (Option.getD code (-2)) ++ "\x1f" ++ out ++ "\x1f" ++ err
  | .wRun _, .error e => "R:-1\x1f\x1f" ++ e

/-- The value of a typed result. -/
def Call.decode : Call → String → Value
  | .wExists _, r => .bool (r == "B:1")
  | .wNow, r => .int (.ofInt (((stripPrefix "I:" r).bind parseI64).getD 0))
  | .wPrint _, _ | .wEprint _, _ | .wExit _, _ => .unit
  | .wRun _, r => decodeRun valueTag r
  | _, r => text r

/-- What a replay answers from its own writes. -/
def Call.fromOverlay (o : String → Option String) : Call → Option Value
  | .wRead path => (o path).map fun c => .str ("Ok:" ++ c)
  | .wExists path => (o path).map fun _ => .bool true
  | _ => none

/-- What a call asks for leaves as the content of the files a program has written. -/
def Call.touch (o : String → Option String) : Call → String → Option String
  | .wWrite path content => update o path (some content)
  | .wAppend path content =>
    match o path with
    | some c => update o path (some (c ++ content))
    | none => o
  | _ => o

def Event.text (e : Event) : String := e.call.real e.answer

def Event.value (e : Event) : Value := e.call.decode valueTag e.text

/-- The line a call leaves in the trace. -/
def Event.line (e : Event) : String := e.call.key ++ "\t" ++ esc e.text

/-- The first `n` calls of a program that end with a result. -/
def events (next : Program) (outer : Outer) : ℕ → List Value → List Event
  | 0, _ => []
  | n + 1, vs =>
    match next vs with
    | none => []
    | some c =>
      match outer vs.length c with
      | .ok a =>
        let e : Event := ⟨c, a⟩
        e :: if c.exits then [] else events next outer n (vs ++ [e.value valueTag])
      | .error fault => events next outer n (vs ++ [fault.value])

/-- None of the first `n` calls of a program ends with a fault. -/
def Unfaulted (next : Program) (outer : Outer) : ℕ → List Value → Prop
  | 0, _ => True
  | n + 1, vs =>
    match next vs with
    | none => True
    | some c =>
      match outer vs.length c with
      | .ok a =>
        c.exits = true ∨ Unfaulted next outer n (vs ++ [Event.value valueTag ⟨c, a⟩])
      | .error _ => False

def World.touched (w : World) (c : Call) : World :=
  if w.isReplay then { w with overlay := c.touch w.overlay } else w

theorem perform_eq (c : Call) (a : Except Fault c.Answer) (w : World) :
    perform valueTag c a w =
      match if w.isReplay then c.fromOverlay w.overlay else none with
      | some v => (w, .ok v, [])
      | none =>
        let s := slot c.f c.args c.kind c.miss (a.map c.real) (w.touched c)
        (s.1, s.2.1.map (c.decode valueTag), s.2.2) := by
  have htouched : c.touch w.overlay = w.overlay → w.touched c = w := by
    intro h
    simp only [World.touched, h, ite_self]
  cases c with
  | wRead path =>
    rw [htouched rfl]
    simp only [perform, wRead, Call.fromOverlay]
    cases hw : w.isReplay with
    | false => rcases a with fault | a | a <;> rfl
    | true => cases ho : w.overlay path <;> rcases a with fault | a | a <;> rfl
  | wExists path =>
    rw [htouched rfl]
    simp only [perform, wExists, Call.fromOverlay]
    cases hw : w.isReplay with
    | false => rfl
    | true => cases ho : w.overlay path <;> rfl
  | wAppend path content =>
    simp only [perform, wAppend, Call.fromOverlay, World.touched, Call.touch]
    cases hw : w.isReplay with
    | false => rfl
    | true => cases ho : w.overlay path <;> rfl
  | wWrite path content =>
    simp only [perform, wWrite, Call.fromOverlay, World.touched, Call.touch]
    cases hw : w.isReplay <;> rfl
  | wList path =>
    rw [htouched rfl]
    simp only [Call.fromOverlay, ite_self]
    rcases a with fault | a | a | a <;> rfl
  | wRun cmd =>
    rw [htouched rfl]
    simp only [Call.fromOverlay, ite_self]
    rcases a with fault | a | a <;> rfl
  | _ =>
    rw [htouched rfl]
    simp only [Call.fromOverlay, ite_self]
    rfl

end

/-! ### The recorded run -/

/-- The lines that calls leave in the trace. -/
def traceText : List Event → String
  | [] => ""
  | e :: es => e.line ++ "\n" ++ traceText es

variable {valueTag : UInt32} {next : Program} {outer : Outer} {path : String} {w : World}
  {e : Event} {es es' : List Event} {effects effects' : List Effect} {content : String}
  {vs : List Value} {n : ℕ}

theorem traceText_append (es es' : List Event) :
    traceText (es ++ es') = traceText es ++ traceText es' := by
  induction es with
  | nil => rw [nil_append, traceText, empty_append]
  | cons e es ih =>
    rw [cons_append, traceText, ih, traceText]
    simp only [String.append_assoc]

theorem traceText_ends (es : List Event) : EndsLine (traceText es) := by
  rcases eq_nil_or_concat es with rfl | ⟨front, last, rfl⟩
  · exact .inl rfl
  · refine .inr ⟨traceText front ++ last.line, ?_⟩
    rw [concat_eq_append, traceText_append, traceText, traceText, append_empty, String.append_assoc]

theorem fileAfter_append (effects effects' : List Effect) (content : String) :
    fileAfter path (effects ++ effects') content =
      fileAfter path effects' (fileAfter path effects content) :=
  foldl_append

/-- A trace file that no call changes is what the layer writes. -/
theorem traceAfter_kept {onTrace : OnTrace} (hkept : ∀ i s, onTrace i s = s) (effects : List Effect)
    (s : ℕ × String) : (traceAfter path onTrace effects s).2 = fileAfter path effects s.2 := by
  induction effects generalizing s with
  | nil => rfl
  | cons e effects ih =>
    refine (ih _).trans ?_
    cases e with
    | perform f args => exact congrArg (fileAfter path effects) (hkept _ _)
    | truncate p => rfl
    | append p line => rfl

theorem perform_record (valueTag : UInt32) (hw : w.mode = .record) (c : Call) (a : c.Answer) :
    perform valueTag c (.ok a) w = (w, .ok (c.decode valueTag (c.real a)), [.perform c.f c.args,
      .append w.trace (c.key ++ "\t" ++ esc (c.real a) ++ "\n")]) := by
  have hreplay : w.isReplay = false := by simp [World.isReplay, hw]
  rw [perform_eq, hreplay]
  simp only [Bool.false_eq_true, if_false, World.touched, hreplay, slot, hw]
  rfl

theorem perform_fault (valueTag : UInt32) (hw : w.mode = .record) (c : Call) (fault : Fault) :
    perform valueTag c (.error fault) w = (w, .error fault, [.perform c.f c.args]) := by
  have hreplay : w.isReplay = false := by simp [World.isReplay, hw]
  rw [perform_eq, hreplay]
  simp only [Bool.false_eq_true, if_false, World.touched, hreplay, slot, hw]
  rfl

/-- A recorded run without a fault is the run against the outer world, and its trace has a line for
each call. -/
theorem record_run (valueTag : UInt32) (next : Program) (outer : Outer) (n : ℕ) (vs : List Value)
    (hw : w.mode = .record) (hruns : Unfaulted valueTag next outer n vs) (content : String) :
    (runCalls valueTag next outer n vs w).1 =
        (events valueTag next outer n vs).map (fun e => (e.call, e.value valueTag)) ∧
      fileAfter w.trace (runCalls valueTag next outer n vs w).2 content =
        content ++ traceText (events valueTag next outer n vs) := by
  induction n generalizing vs content with
  | zero => exact ⟨rfl, (append_empty).symm⟩
  | succ n ih =>
    cases hnext : next vs with
    | none =>
      simp only [runCalls, events, hnext]
      exact ⟨rfl, (append_empty).symm⟩
    | some c =>
      simp only [Unfaulted, hnext] at hruns
      cases ha : outer vs.length c with
      | error fault =>
        rw [ha] at hruns
        exact hruns.elim
      | ok a =>
        have hstep := perform_record valueTag hw c a
        have hline : ∀ s, fileAfter w.trace [.perform c.f c.args, .append w.trace
            (c.key ++ "\t" ++ esc (c.real a) ++ "\n")] s = s ++ (Event.line ⟨c, a⟩ ++ "\n") := by
          intro s
          simp [fileAfter, Event.line, Event.text]
        have hvalue : Event.value valueTag ⟨c, a⟩ = c.decode valueTag (c.real a) := rfl
        rw [ha] at hruns
        simp only [runCalls, events, hnext, ha, hstep, fileAfter_append, hline, map_cons, traceText,
          hvalue]
        cases hexits : c.exits with
        | true => simp [traceText, fileAfter]
        | false =>
          obtain ⟨hresults, hfile⟩ := ih (vs ++ [c.decode valueTag (c.real a)])
            (hruns.resolve_left (by simp [hexits])) (content ++ (Event.line ⟨c, a⟩ ++ "\n"))
          simp [hresults, hfile, String.append_assoc]

theorem answersOf_traceText (es : List Event) (k : String) :
    answersOf (traceText es) k =
      (es.filter fun e => e.call.key = k).map fun e => chopReturn e.text := by
  induction es using reverseRecOn with
  | nil => rfl
  | append_singleton es e ih =>
    have hline : traceText (es ++ [e]) =
        traceText es ++ (key e.call.f e.call.args ++ "\t" ++ esc e.text ++ "\n") := by
      rw [traceText_append, traceText, traceText, append_empty]
      rfl
    rw [hline, answersOf_append (traceText_ends es), filter_append, map_append, ← ih]
    by_cases hk : k = key e.call.f e.call.args
    · subst hk
      simp [Call.key]
    · have hk' : ¬ e.call.key = k := fun h => hk h.symm
      rw [update_of_ne hk]
      simp [hk']

end AxisBridge.WorldLayer
