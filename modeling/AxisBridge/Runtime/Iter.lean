import AxisBridge.Runtime.Value

/-! The higher-order builtins, each as the callbacks it makes and what it does with their
results. -/
namespace AxisBridge

def stuck (v : Value) : Bool := isUnknown v || isErr v

def truthy : Value → Bool
  | .bool b => b
  | .int n => n != 0
  | .str s => s != ""
  | .unit => false
  | .tuple es => ! es.isEmpty
  | .list es => ! es.isEmpty
  | .ctor _ _ => true
  | .dec mantissa _ => mantissa != 0
  -- the two zeros; a NaN is different from 0.0
  | .float bits => bits != 0 && bits != 0x8000000000000000
  | .bytes bs => ! bs.isEmpty
  | .localMap _ => true
  | .frozenMap _ => true

/-- The body of a builtin with `n` callbacks: its next callback and how it goes on from the
result. -/
inductive Drive (n : ℕ)
  | done (v : Value)
  | panic (message : String)
  | call (callee : Fin n) (arg : Value) (next : Value → Drive n)

open Drive

/-- An Unknown or Err that a callback yields is the builtin's own result. -/
def Drive.Stops {n : ℕ} : Drive n → Prop
  | .done _ => True
  | .panic _ => True
  | .call _ _ next => (∀ r, stuck r = true → next r = .done r) ∧ ∀ r, (next r).Stops

structure Driver (n : ℕ) where
  drive : Drive n
  stops : drive.Stops

/-- What a loop over items makes of a callback's result. -/
inductive After (σ : Type)
  | go (s : σ)
  | stop (v : Value)
  | panic (message : String)

/-- One callback for each item: `arg` is what it is called with, `after` what its result leads
to. -/
def Drive.each {σ : Type} (arg : σ → Value → Value) (after : σ → Value → Value → After σ)
    (finish : σ → Value) : List Value → σ → Drive 1
  | [], s => .done (finish s)
  | item :: items, s => .call 0 (arg s item) fun r =>
    if stuck r then .done r
    else
      match after s item r with
      | .go s => each arg after finish items s
      | .stop v => .done v
      | .panic message => .panic message

theorem Drive.stops_each {σ : Type} (arg : σ → Value → Value) (after : σ → Value → Value → After σ)
    (finish : σ → Value) {items : List Value} :
    ∀ {s : σ}, (each arg after finish items s).Stops := by
  induction items with
  | nil =>
    intro s
    trivial
  | cons item items ih =>
    intro s
    refine ⟨fun r hr => if_pos hr, fun r => ?_⟩
    by_cases hr : stuck r = true
    · simp [hr, Stops]
    · cases ha : after s item r <;> simp [hr, ha, Stops, ih]

namespace Iter

-- `debug v` is the text of `{:?}`.
variable (debug : Value → String)

/-- The builtins that walk one list and panic on any other value. -/
def overList {σ : Type} (name : String) (arg : σ → Value → Value)
    (after : σ → Value → Value → After σ) (finish : σ → Value) (s : σ) : Value → Driver 1
  | .list items => ⟨.each arg after finish items s, stops_each arg after finish⟩
  | other => ⟨.panic s!"{name}: expected List, got {debug other}", trivial⟩

def foreach (list : Value) : Driver 1 :=
  overList debug "foreach" (fun _ item => item) (fun s _ _ => .go s) (fun _ => .unit) () list

def fold (list init : Value) : Driver 1 :=
  overList debug "fold" (fun acc item => .tuple [acc, item]) (fun _ _ r => .go r) id init list

def flatMap (list : Value) : Driver 1 :=
  overList debug "flat_map" (fun _ item => item)
    (fun out _ r =>
      match r with
      | .list inner => .go (out ++ inner)
      | other => .panic s!"flat_map: callee must return ValueList, got {debug other}")
    .list [] list

def filter (list : Value) : Driver 1 :=
  overList debug "filter" (fun _ item => item)
    (fun out item r => .go (if truthy r then out ++ [item] else out)) .list [] list

def map (list : Value) : Driver 1 :=
  overList debug "map" (fun _ item => item) (fun out _ r => .go (out ++ [r])) .list [] list

def any (list : Value) : Driver 1 :=
  overList debug "any" (fun _ item => item)
    (fun s _ r => if truthy r then .stop (.bool true) else .go s) (fun _ => .bool false) () list

def all (list : Value) : Driver 1 :=
  overList debug "all" (fun _ item => item)
    (fun s _ r => if ! truthy r then .stop (.bool false) else .go s) (fun _ => .bool true) () list

def findIndex (list : Value) : Driver 1 :=
  overList debug "find_index" (fun _ item => item)
    (fun i _ r => if truthy r then .stop (.int (Int64.ofNat i)) else .go (i + 1))
    (fun _ => .int (-1)) 0 list

def count (list : Value) : Driver 1 :=
  overList debug "count" (fun _ item => item)
    (fun n _ r => .go (if truthy r then n + 1 else n)) .int 0 list

/-- The positions of lists of one length, each with its items as a tuple. -/
def overTuples (tuples : List Value) : Driver 1 :=
  ⟨.each (fun _ es => es) (fun out _ r => .go (out ++ [r])) .list tuples [], stops_each _ _ _⟩

def map2 : Value → Value → Driver 1
  | .list xs, .list ys =>
    if xs.length ≠ ys.length then
      ⟨.panic s!"map2: lists of {xs.length} and {ys.length} elements", trivial⟩
    else overTuples (List.zipWith (fun x y => .tuple [x, y]) xs ys)
  | a, b => ⟨.panic s!"map2: expected two Lists, got {debug a} and {debug b}", trivial⟩

def map3 : Value → Value → Value → Driver 1
  | .list xs, .list ys, .list zs =>
    if xs.length ≠ ys.length ∨ xs.length ≠ zs.length then
      ⟨.panic s!"map3: lists of {xs.length}, {ys.length} and {zs.length} elements", trivial⟩
    else overTuples (List.zipWith (fun x (y, z) => .tuple [x, y, z]) xs (List.zip ys zs))
  | a, b, c =>
    ⟨.panic s!"map3: expected three Lists, got {debug a}, {debug b} and {debug c}", trivial⟩

def loopCountFrom : ℕ → Value → Drive 1
  | 0, acc => .done acc
  | iters + 1, acc =>
    .call 0 acc fun acc => if stuck acc then .done acc else loopCountFrom iters acc

theorem stops_loopCountFrom {iters : ℕ} : ∀ {acc : Value}, (loopCountFrom iters acc).Stops := by
  induction iters with
  | zero =>
    intro acc
    trivial
  | succ iters ih =>
    intro acc
    refine ⟨fun r hr => if_pos hr, fun r => ?_⟩
    by_cases hr : stuck r = true
    · simp [hr, Stops]
    · simpa [hr] using ih

def loopCount (n : Int64) (init : Value) : Driver 1 :=
  ⟨loopCountFrom (if n > 0 then n.toInt.toNat else 0) init, stops_loopCountFrom⟩

/-- The callbacks are `cond` and `step`, in this order. -/
def loopWhileFrom : ℕ → Value → Drive 2
  | 0, acc => .done acc
  | iters + 1, acc => .call 0 acc fun c =>
    if stuck c then .done c
    else if ! truthy c then .done acc
    else .call 1 acc fun acc => if stuck acc then .done acc else loopWhileFrom iters acc

theorem stops_loopWhileFrom {iters : ℕ} : ∀ {acc : Value}, (loopWhileFrom iters acc).Stops := by
  induction iters with
  | zero =>
    intro acc
    trivial
  | succ iters ih =>
    intro acc
    refine ⟨fun c hc => if_pos hc, fun c => ?_⟩
    by_cases hc : stuck c = true
    · simp [hc, Stops]
    · by_cases ht : truthy c = true
      · simp only [hc, ht, Bool.not_true]
        refine ⟨fun r hr => if_pos hr, fun r => ?_⟩
        by_cases hr : stuck r = true
        · simp [hr, Stops]
        · simpa [hr] using ih
      · simp [hc, ht, Stops]

def loopWhile (init max : Value) : Driver 2 :=
  match max with
  | .int limit =>
    ⟨loopWhileFrom (if limit > 0 then limit.toInt.toNat else 0) init, stops_loopWhileFrom⟩
  | other => ⟨.panic s!"expected Int, got {debug other}", trivial⟩

/-- One call, whose result is the builtin's. -/
def once {n : ℕ} (callee : Fin n) (arg : Value) : Driver n :=
  ⟨.call callee arg .done, fun _ _ => rfl, fun _ => trivial⟩

/-- The callbacks of the two dispatchers convert an Int, a Dec and a Float. -/
def dispatch (name : String) : Value → Driver 3
  | .int n => once 0 (.int n)
  | .dec mantissa scale => once 1 (.dec mantissa scale)
  | .float bits => once 2 (.float bits)
  | other => ⟨.panic s!"{name}: non-numeric Value tag: {debug other}", trivial⟩

def bridgeToDec (v : Value) : Driver 3 := dispatch debug "bridge_to_dec" v

def bridgeToFloat (v : Value) : Driver 3 := dispatch debug "bridge_to_float" v

/-- The handler's only call, with what was drained from the subscribed channels; `none` when the
context has no subscriptions. -/
def wait (drained : Option (List Value)) : Driver 1 :=
  match drained with
  | some items => once 0 (.list items)
  | none =>
    ⟨.panic "wait: current context has no subscriptions (call event_subscribe first)", trivial⟩

end Iter

end AxisBridge
