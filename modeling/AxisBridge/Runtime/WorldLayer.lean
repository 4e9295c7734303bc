import AxisBridge.Runtime.Lines

/-! The world layer: every call to the outer world goes through one switch, which performs it,
performs and records it, or answers it from a trace. -/
namespace AxisBridge.WorldLayer
open String List Function

inductive Mode
  | real
  | record
  | replay
  deriving DecidableEq

inductive Kind
  | read
  | write
  | run
  deriving DecidableEq

structure World where
  mode : Mode
  trace : String
  answers : String → List String
  used : String → ℕ
  overlay : String → Option String

/-- What a step does outside: the call itself, or a write of the layer's own. -/
inductive Effect
  | perform (f : String) (args : List String)
  | truncate (path : String)
  | append (path line : String)
  deriving DecidableEq

def escChar : Char → List Char
  | '\\' => ['\\', '\\']
  | '\t' => ['\\', 't']
  | '\n' => ['\\', 'n']
  | '\x1f' => ['\\', 'u']
  | c => [c]

/-- The four replacements, none of which touches what another has put in. -/
def esc (s : String) : String := ofList (s.toList.flatMap escChar)

def unescChars : List Char → List Char
  | '\\' :: 't' :: cs => '\t' :: unescChars cs
  | '\\' :: 'n' :: cs => '\n' :: unescChars cs
  | '\\' :: 'u' :: cs => '\x1f' :: unescChars cs
  | '\\' :: o :: cs => o :: unescChars cs
  | c :: cs => c :: unescChars cs
  | [] => []

def unesc (s : String) : String := ofList (unescChars s.toList)

def key (f : String) (args : List String) : String := esc f ++ "\t" ++ esc ("\x1f".intercalate args)

/-- The three pieces of `splitn(3, sep)`, when there are three. -/
def splitThree (sep : Char) (s : String) : Option (String × String × String) := do
  let (first, rest) ← splitOnce sep s
  let (second, third) ← splitOnce sep rest
  return (first, second, third)

/-- What the lines of a trace answer. -/
def answersOf (text : String) : String → List String :=
  (lines text).foldl
    (fun answers line =>
      match splitThree '\t' line with
      | some (f, a, r) =>
        let k := f ++ "\t" ++ a
        update answers k (answers k ++ [unesc r])
      | none => answers)
    fun _ => []

/-- `load`, with what can be read of the disk. -/
def load (spec : String) (readToString : String → Option String) : World × List Effect :=
  match splitOnce ':' spec with
  | some ("record", p) => (⟨.record, p, fun _ => [], fun _ => 0, fun _ => none⟩, [])
  | some ("replay", p) =>
    (⟨.replay, p, answersOf ((readToString p).getD ""), fun _ => 0, fun _ => none⟩,
      [.truncate (p ++ ".out")])
  | _ => (⟨.real, "", fun _ => [], fun _ => 0, fun _ => none⟩, [])

/-- What the guard of the builtins yields for a call that panics, and for those it does not run
behind one: an Unknown, or an error of the user's map. -/
inductive Fault
  | unknown (kind builtin message location : String)
  | mapped (name builtin message : String)

def Fault.value : Fault → Value
  | .unknown kind builtin message location => AxisBridge.unknown kind builtin message location
  | .mapped name builtin message => .ctor ERR_TAG [.str name, .str builtin, .str message]

/-- The one switch. `real` is the typed result of the call where it is performed, `miss` the answer
when the trace holds none. A panic gets past the line of the trace. -/
def slot (f : String) (args : List String) (kind : Kind) (miss : String)
    (real : Except Fault String) (w : World) : World × Except Fault String × List Effect :=
  let k := key f args
  match w.mode with
  | .real => (w, real, [.perform f args])
  | .record =>
    match real with
    | .ok r => (w, real, [.perform f args, .append w.trace (k ++ "\t" ++ esc r ++ "\n")])
    | .error _ => (w, real, [.perform f args])
  | .replay =>
    let n := w.used k
    let r := (w.answers k)[n]?.getD miss
    ({ w with used := update w.used k (n + 1) }, .ok r,
      if kind = .write then [.append (w.trace ++ ".out") (k ++ "\t" ++ esc r ++ "\n")] else [])

def World.isReplay (w : World) : Bool := w.mode = .replay

def World.overlayPut (w : World) (path content : String) : World :=
  { w with overlay := update w.overlay path (some content) }

def text (r : String) : Value := .str ((stripPrefix "T:" r).getD r)

/-- An error of the standard library; `other` has the name its debug output shows. -/
inductive ErrorKind
  | notFound
  | permissionDenied
  | other (name : String)

def ioErr : ErrorKind → String
  | .notFound => "T:Err:missing"
  | .permissionDenied => "T:Err:denied"
  | .other name => ("T:Err:" ++ name).toLower

/-- What a directory turns out to be, its entries in any order and each with whether it is one. -/
inductive Listing
  | file
  | entries (names : List (String × Bool))
  | error (e : ErrorKind)

/-- The results a step hands back: the world after it, the value, what it did outside. -/
abbrev Stepped := World × Except Fault Value × List Effect

def asText (s : World × Except Fault String × List Effect) : Stepped := (s.1, s.2.1.map text, s.2.2)

def asUnit (s : World × Except Fault String × List Effect) : Stepped :=
  (s.1, s.2.1.map fun _ => .unit, s.2.2)

def written : Except ErrorKind Unit → String
  | .ok () => "T:Ok:"
  | .error e => ioErr e

/-! ### Reads -/

def wRead (path : String) (real : Except Fault (Except ErrorKind String)) (w : World) : Stepped :=
  match if w.isReplay then w.overlay path else none with
  | some c => (w, .ok (.str ("Ok:" ++ c)), [])
  | none =>
    asText <| slot "w_read" [path] .read "T:Err:replay_miss"
      (real.map fun
        | .ok c => "T:Ok:" ++ c
        | .error e => ioErr e) w

def wExists (path : String) (real : Except Fault Bool) (w : World) : Stepped :=
  if w.isReplay && (w.overlay path).isSome then (w, .ok (.bool true), [])
  else
    let s := slot "w_exists" [path] .read "B:0" (real.map fun b => if b then "B:1" else "B:0") w
    (s.1, s.2.1.map fun r => .bool (r == "B:1"), s.2.2)

def wList (path : String) (real : Except Fault Listing) (w : World) : Stepped :=
  asText <| slot "w_list" [path] .read "T:Err:replay_miss"
    (real.map fun
      | .file => "T:Err:not_a_dir"
      | .entries names =>
        let names := names.map fun e => if e.2 then e.1 ++ "/" else e.1
        "T:Ok:" ++ "\n".intercalate (names.mergeSort fun a b => !decide (b < a))
      | .error e => ioErr e) w

/-- An argument that is no text panics. -/
def wArgs (real : Except Fault (List String)) (w : World) : Stepped :=
  asText <| slot "w_args" [] .read "T:"
    (real.map fun args => "T:" ++ "\n".intercalate (args.drop 1)) w

def wEnv (name : String) (real : Except Fault (Option String)) (w : World) : Stepped :=
  asText <| slot "w_env" [name] .read "T:" (real.map fun r => "T:" ++ r.getD "") w

/-- The nanoseconds since the epoch, if it is not ahead. -/
def wNow (real : Except Fault (Option ℕ)) (w : World) : Stepped :=
  let s := slot "w_now" [] .read "I:0"
    (real.map fun n => "I:" ++ toString (min (n.getD 0) (2 ^ 63 - 1))) w
  (s.1, s.2.1.map fun r => .int (.ofInt (((stripPrefix "I:" r).bind parseI64).getD 0)), s.2.2)

/-! ### Writes -/

def wWrite (path content : String) (real : Except Fault (Except ErrorKind Unit)) (w : World) :
    Stepped :=
  let w := if w.isReplay then w.overlayPut path content else w
  asText <| slot "w_write" [path, content] .write "T:Ok:" (real.map written) w

def wAppend (path content : String) (real : Except Fault (Except ErrorKind Unit)) (w : World) :
    Stepped :=
  let w :=
    match if w.isReplay then w.overlay path else none with
    | some c => w.overlayPut path (c ++ content)
    | none => w
  asText <| slot "w_append" [path, content] .write "T:Ok:" (real.map written) w

def wMkdir (path : String) (real : Except Fault (Except ErrorKind Unit)) (w : World) : Stepped :=
  asText <| slot "w_mkdir" [path] .write "T:Ok:" (real.map written) w

/-- A write that fails panics. -/
def wPrint (s : String) (real : Except Fault Unit) (w : World) : Stepped :=
  asUnit (slot "w_print" [s] .write "U:" (real.map fun _ => "U:") w)

def wEprint (s : String) (real : Except Fault Unit) (w : World) : Stepped :=
  asUnit (slot "w_eprint" [s] .write "U:" (real.map fun _ => "U:") w)

/-- The process ends behind the step. -/
def wExit (code : Int64) (real : Except Fault Unit) (w : World) : Stepped :=
  asUnit (slot "w_exit" [toString code] .write "U:" (real.map fun _ => "U:") w)

/-! ### Runs -/

/-- What became of a command: its exit code, unless a signal ended it, and its two outputs, or why
it did not start. -/
abbrev Output := Except String (Option ℤ × String × String)

def decodeRun (valueTag : UInt32) (r : String) : Value :=
  let body := (stripPrefix "R:" r).getD r
  let first := (splitOnce '\x1f' body).getD (body, "")
  let second := (splitOnce '\x1f' first.2).getD (first.2, "")
  .ctor valueTag [.int (.ofInt ((parseI64 first.1).getD (-1))), .str second.1, .str second.2]

def wRun (valueTag : UInt32) (cmd : String) (real : Except Fault Output) (w : World) : Stepped :=
  let s := slot "w_run" [cmd] .run "R:-1\x1f\x1freplay_miss"
    (real.map fun
      | .ok (code, out, err) => "R:" ++ toString (code.getD (-2)) ++ "\x1f" ++ out ++ "\x1f" ++ err
      | .error e => "R:-1\x1f\x1f" ++ e) w
  (s.1, s.2.1.map (decodeRun valueTag), s.2.2)

/-! ### Escapes and lines -/

variable {c : Char} {cs : List Char} {s t f r txt : String} {args : List String}

theorem escChar_cases (c : Char) : c = '\\' ∨ c = '\t' ∨ c = '\n' ∨ c = '\x1f' ∨
    c ≠ '\\' ∧ c ≠ '\t' ∧ c ≠ '\n' ∧ escChar c = [c] := by
  by_cases h : c = '\\' ∨ c = '\t' ∨ c = '\n' ∨ c = '\x1f'
  · tauto
  · simp only [not_or] at h
    obtain ⟨hslash, htab, hline, hunit⟩ := h
    refine .inr (.inr (.inr (.inr ⟨hslash, htab, hline, ?_⟩)))
    unfold escChar
    split <;> simp_all

theorem unescChars_escChar (c : Char) (cs : List Char) :
    unescChars (escChar c ++ cs) = c :: unescChars cs := by
  rcases escChar_cases c with rfl | rfl | rfl | rfl | ⟨hslash, -, -, hc⟩
  · rfl
  · rfl
  · rfl
  · rfl
  · rw [hc, singleton_append, unescChars.eq_def]
    split <;> simp_all

theorem unesc_esc (s : String) : unesc (esc s) = s := by
  have hchars : ∀ cs : List Char, unescChars (cs.flatMap escChar) = cs := by
    intro cs
    induction cs with
    | nil => rfl
    | cons c cs ih => rw [flatMap_cons, unescChars_escChar, ih]
  rw [unesc, esc, toList_ofList, hchars, ofList_toList]

theorem esc_inj (h : esc s = esc t) : s = t := by
  rw [← unesc_esc s, h, unesc_esc]

/-- No escaped text has a tab or a line feed. -/
theorem esc_clean (s : String) : '\t' ∉ (esc s).toList ∧ '\n' ∉ (esc s).toList := by
  have hchar : ∀ c : Char, '\t' ∉ escChar c ∧ '\n' ∉ escChar c := by
    intro c
    rcases escChar_cases c with rfl | rfl | rfl | rfl | ⟨-, htab, hline, hc⟩
    · decide
    · decide
    · decide
    · decide
    · rw [hc]
      exact ⟨fun h => htab (mem_singleton.mp h).symm, fun h => hline (mem_singleton.mp h).symm⟩
  rw [esc, toList_ofList]
  constructor
  · intro h
    obtain ⟨c, -, hc⟩ := mem_flatMap.mp h
    exact (hchar c).1 hc
  · intro h
    obtain ⟨c, -, hc⟩ := mem_flatMap.mp h
    exact (hchar c).2 hc

theorem esc_append (s t : String) : esc (s ++ t) = esc s ++ esc t := by
  simp [esc]

/-- The carriage return is not escaped. -/
theorem chopReturn_esc (r : String) : chopReturn (esc r) = esc (chopReturn r) := by
  by_cases h : r.toList.getLast? = some '\r'
  · have hreturn : esc "\r" = "\r" := rfl
    rw [exists_return h, esc_append, hreturn, chopReturn_return, chopReturn_return]
  · rw [chopReturn_of_ne h]
    apply chopReturn_of_ne
    rcases eq_nil_or_concat r.toList with hnil | ⟨front, last, hlast⟩
    · rw [esc, hnil]
      simp
    · rw [concat_eq_append] at hlast
      rw [hlast, getLast?_concat] at h
      rw [esc, hlast, toList_ofList, flatMap_append, flatMap_singleton]
      rcases escChar_cases last with rfl | rfl | rfl | rfl | ⟨-, -, -, hc⟩
      · simp [escChar]
      · simp [escChar]
      · simp [escChar]
      · simp [escChar]
      · rw [hc, getLast?_concat]
        exact h

/-- One more line of the trace answers one more call. -/
theorem answersOf_append (h : EndsLine txt) (f : String) (args : List String) (r : String) :
    answersOf (txt ++ (key f args ++ "\t" ++ esc r ++ "\n")) =
      update (answersOf txt) (key f args) (answersOf txt (key f args) ++ [chopReturn r]) := by
  have hline : '\n' ∉ (key f args ++ "\t" ++ esc r).toList := by
    have htab : '\n' ∉ "\t".toList := by decide
    simp only [key, toList_append, mem_append, not_or]
    exact ⟨⟨⟨⟨(esc_clean _).2, htab⟩, (esc_clean _).2⟩, htab⟩, (esc_clean _).2⟩
  have hchop :
      chopReturn (key f args ++ "\t" ++ esc r) = key f args ++ "\t" ++ esc (chopReturn r) := by
    rw [chopReturn_tab, chopReturn_esc]
  have hsplit : splitThree '\t' (key f args ++ "\t" ++ esc (chopReturn r)) =
      some (esc f, esc ("\x1f".intercalate args), esc (chopReturn r)) := by
    have hassoc : key f args ++ "\t" ++ esc (chopReturn r) = esc f ++ String.singleton '\t' ++
        (esc ("\x1f".intercalate args) ++ String.singleton '\t' ++ esc (chopReturn r)) := by
      simp only [key, String.append_assoc]
      rfl
    simp only [hassoc, splitThree, splitOnce_append (esc_clean _).1, Option.bind_eq_bind,
      Option.bind_some]
    rfl
  rw [answersOf, lines_append_line h hline, foldl_append, hchop]
  simp only [foldl_cons, foldl_nil, hsplit, unesc_esc]
  rfl

end AxisBridge.WorldLayer
