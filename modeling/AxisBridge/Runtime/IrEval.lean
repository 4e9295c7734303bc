import AxisBridge.CoreIr.Bundle
import AxisBridge.Lib.Watched
import AxisBridge.Runtime.Iter
import AxisBridge.Runtime.Substitution

/-! The evaluator of Core IR terms, by substitution. -/
namespace AxisBridge
namespace IrEval

/-- What the evaluator runs on: the interned tags, the texts of `{:?}`, and the builtins, which read
and change a world. -/
structure Host (W : Type) where
  tags : TagTable
  debug : Value → String
  dispatchTable : String → Option (Value → Effect Stop W Value)

section
variable {W : Type}

/-- `remove(0)`. -/
def removeFirst : List Value → Effect Stop W (Value × List Value)
  | [] => .stop (.panic "removal index (is 0) should be < len (is 0)")
  | v :: vs => pure (v, vs)

def strOr (message : Value → String) : Value → Effect Stop W String
  | .str s => pure s
  | other => .stop (.panic (message other))

def listOr (message : Value → String) : Value → Effect Stop W (List Value)
  | .list items => pure items
  | other => .stop (.panic (message other))

def varName : List Value → String
  | .str name :: _ => name
  | _ => "<unknown>"

variable (host : Host W)

/-- A builtin, with nothing, its one argument or the tuple of all. -/
def callBuiltin (target : String) (args : List Value) : Effect Stop W Value :=
  match host.dispatchTable target with
  | none => .stop (.panic s!"ir_eval: unknown function: {target}")
  | some f =>
    match args with
    | [] => f .unit
    | [arg] => f arg
    | args => f (.tuple args)

/-- `evalBody` evaluates the body. -/
def apply (evalBody : Value → Effect Stop W Value) (fnVal argVal : Value) : Effect Stop W Value :=
  match fnVal with
  | .ctor tag fields =>
    if host.tags.kind tag = .lam then do
      let (param, fields) ← removeFirst fields
      let param ← strOr
        (fun other => s!"ir_eval: apply: Lam param not Str, got {host.debug other}") param
      let (body, _) ← removeFirst fields
      evalBody (substValue host.tags param argVal body)
    else .stop (.panic s!"ir_eval: App: expected Lam, got {host.debug fnVal}")
  | _ => .stop (.panic s!"ir_eval: App: expected Lam, got {host.debug fnVal}")

/-- A constructor; `ev` evaluates its parts. -/
def evalCtor (ev : Value → Effect Stop W Value) (tag : UInt32) (fields : List Value) :
    Effect Stop W Value :=
  match host.tags.kind tag with
  | .intLit | .boolLit => do
    let (v, _) ← removeFirst fields
    return v
  | .unitLit => return .unit
  | .var => .stop (.panic s!"ir_eval: unbound variable: {varName fields}")
  -- a value, its body not evaluated
  | .lam => return .ctor tag fields
  | .letIn => do
    let (name, fields) ← removeFirst fields
    let name ← strOr (fun other => s!"ir_eval: Let: name is not Str, got {host.debug other}") name
    let (val, fields) ← removeFirst fields
    let val ← ev val
    let (body, _) ← removeFirst fields
    ev (substValue host.tags name val body)
  | .ite => do
    let (cond, fields) ← removeFirst fields
    let cond ← ev cond
    let (then_, fields) ← removeFirst fields
    let (els, _) ← removeFirst fields
    if truthy cond then ev then_ else ev els
  | .app => do
    let (func, fields) ← removeFirst fields
    let fnVal ← ev func
    let (arg, _) ← removeFirst fields
    let argVal ← ev arg
    apply host ev fnVal argVal
  | .call => do
    let (target, fields) ← removeFirst fields
    let target ← strOr
      (fun other => s!"ir_eval: Call: target not Str, got {host.debug other}") target
    let (argsVal, _) ← removeFirst fields
    let args ← listOr
      (fun other => s!"ir_eval: Call: args not List, got {host.debug other}") argsVal
    let args ← args.mapM' ev
    callBuiltin host target args
  | .data => return .ctor tag fields

/-- The number bounds the depth of the recursion. -/
def eval : ℕ → Value → Effect Stop W Value
  | 0, _ => .stop .looping
  | n + 1, .ctor tag fields => evalCtor host (eval n) tag fields
  | _ + 1, other => return other

theorem eval_ctor (n : ℕ) (tag : UInt32) (fields : List Value) :
    eval host (n + 1) (.ctor tag fields) = evalCtor host (eval host n) tag fields := rfl

def applyBinding (term pair : Value) : Effect Stop W Value :=
  match pair with
  | .tuple [key, val] => do
    let name ← strOr (fun _ => "ir_eval: binding key not Str") key
    return substValue host.tags name val term
  | _ => .stop (.panic "ir_eval: binding entry not Tuple([Str, Value])")

def applyBindings (term bindingsVal : Value) : Effect Stop W Value := do
  let pairs ← listOr (fun _ => "ir_eval: bindings not a List") bindingsVal
  pairs.foldlM (applyBinding host) term

def irEval (n : ℕ) (v : Value) : Effect Stop W Value :=
  match v with
  | .tuple [term, bindingsVal] => do
    let term ← applyBindings host term bindingsVal
    eval host n term
  | _ => .stop (.panic s!"ir_eval: expected Tuple([term, bindings]), got {host.debug v}")

end

/-! ### With an environment -/

/-- What a variable is bound to: a value as it is, or a lambda with the environment it was met
in. -/
inductive Datum
  | value (v : Value)
  | closure (tag : UInt32) (param body : Value) (env : List (String × Datum))

abbrev Env := List (String × Datum)

section
variable (tags : TagTable)

mutual

/-- A closure is read as the lambda with its variables filled in. -/
def Datum.toValue : Datum → Value
  | .value v => v
  | .closure tag param body env => .ctor tag [param, fill tags (hide param (read env)) body]

def read : List (String × Datum) → Fill
  | [] => fun _ => none
  | (name, d) :: env => fun n => if n = name then some d.toValue else read env n

end

/-- A node of another shape than that of a term is outside of every scope. -/
def scope (env : Env) (v : Value) : Env := if isLeaf tags v then [] else env

/-- The fields of a lambda, and the environment of its body. -/
def Datum.lambda : Datum → Option (List Value × Env)
  | .closure tag param body env => if tags.kind tag = .lam then some ([param, body], env) else none
  | .value (.ctor tag fields) => if tags.kind tag = .lam then some (fields, []) else none
  | .value _ => none

end

/-- What a run with an environment does to variables: the value of one is taken, or one is bound in
a body, in which the values of others are already. -/
inductive Note
  | taken (value : Value)
  | bound (name : String) (body : Value) (filled : Fill)

variable {W : Type} (host : Host W)

def envApply (evalBody : Env → Value → Watched Stop W Note Datum) (fn arg : Datum) :
    Watched Stop W Note Datum :=
  match fn.lambda host.tags with
  | some (fields, env) => do
    let (param, fields) ← .lift (removeFirst fields)
    let param ← .lift
      (strOr (fun other => s!"ir_eval: apply: Lam param not Str, got {host.debug other}") param)
    let (body, _) ← .lift (removeFirst fields)
    .note (.bound param body (hide (.str param) (read host.tags env)))
    evalBody ((param, arg) :: env) body
  | none => .stop (.panic s!"ir_eval: App: expected Lam, got {host.debug (fn.toValue host.tags)}")

/-- A constructor; `ev` evaluates its parts in their environments. -/
def envCtor (ev : Env → Value → Watched Stop W Note Datum) (env : Env) (tag : UInt32)
    (fields : List Value) : Watched Stop W Note Datum :=
  let inner := scope host.tags env (.ctor tag fields)
  match host.tags.kind tag with
  | .intLit | .boolLit => do
    let (v, _) ← .lift (removeFirst fields)
    return .value v
  | .unitLit => return .value .unit
  | .var =>
    match inner.lookup (varName fields) with
    | some d => do
      .note (.taken (d.toValue host.tags))
      return d
    | none => .stop (.panic s!"ir_eval: unbound variable: {varName fields}")
  | .lam =>
    match fields with
    | [param, body] => return .closure tag param body env
    | fields => return .value (.ctor tag fields)
  | .letIn => do
    let (name, fields) ← .lift (removeFirst fields)
    let name ← .lift
      (strOr (fun other => s!"ir_eval: Let: name is not Str, got {host.debug other}") name)
    let (val, fields) ← .lift (removeFirst fields)
    let d ← ev inner val
    let (body, _) ← .lift (removeFirst fields)
    .note (.bound name body (hide (.str name) (read host.tags inner)))
    ev ((name, d) :: inner) body
  | .ite => do
    let (cond, fields) ← .lift (removeFirst fields)
    let d ← ev inner cond
    let (then_, fields) ← .lift (removeFirst fields)
    let (els, _) ← .lift (removeFirst fields)
    if truthy (d.toValue host.tags) then ev inner then_ else ev inner els
  | .app => do
    let (func, fields) ← .lift (removeFirst fields)
    let fn ← ev inner func
    let (arg, _) ← .lift (removeFirst fields)
    let d ← ev inner arg
    envApply host ev fn d
  | .call => do
    let (target, fields) ← .lift (removeFirst fields)
    let target ← .lift
      (strOr (fun other => s!"ir_eval: Call: target not Str, got {host.debug other}") target)
    let (argsVal, _) ← .lift (removeFirst fields)
    let args ← .lift
      (listOr (fun other => s!"ir_eval: Call: args not List, got {host.debug other}") argsVal)
    let ds ← args.mapM' (ev inner)
    let v ← .lift (callBuiltin host target (ds.map (Datum.toValue host.tags)))
    return .value v
  | .data => return .value (.ctor tag fields)

/-- Call by value with an environment: nothing is put into a term, and what a variable is bound to
is not evaluated. -/
def envEval : ℕ → Env → Value → Watched Stop W Note Datum
  | 0, _, _ => .stop .looping
  | n + 1, env, .ctor tag fields => envCtor host (envEval n) env tag fields
  | _ + 1, _, other => return .value other

theorem envEval_ctor (n : ℕ) (env : Env) (tag : UInt32) (fields : List Value) :
    envEval host (n + 1) env (.ctor tag fields) = envCtor host (envEval host n) env tag fields :=
  rfl

/-- The first binding of a name stands. -/
def bindOne (term : Value) (env : Env) (pair : Value) : Watched Stop W Note Env :=
  match pair with
  | .tuple [key, val] => do
    let name ← .lift (strOr (fun _ => "ir_eval: binding key not Str") key)
    .note (.bound name term (read host.tags env))
    return if (env.lookup name).isSome then env else (name, .value val) :: env
  | _ => .stop (.panic "ir_eval: binding entry not Tuple([Str, Value])")

def envIrEval (n : ℕ) (v : Value) : Watched Stop W Note Datum :=
  match v with
  | .tuple [term, bindingsVal] => do
    let pairs ← .lift (listOr (fun _ => "ir_eval: bindings not a List") bindingsVal)
    let env ← pairs.foldlM (bindOne host term) []
    envEval host n env term
  | _ => .stop (.panic s!"ir_eval: expected Tuple([term, bindings]), got {host.debug v}")

end IrEval
end AxisBridge

/-! The evaluator by substitution against the one by environment. -/
namespace AxisBridge
open List
namespace IrEval

section
variable (tags : TagTable)

/-- A value that evaluates to itself: no term, or a lambda. -/
def Settled : Value → Prop
  | .ctor tag _ => tags.kind tag = .lam ∨ tags.kind tag = .data
  | _ => True

/-- The substituting evaluator leaves what variables are bound to alone: it does not evaluate the
value that is taken, and the variable it substitutes is in none of the values that are in the body
already. -/
def Intact : Note → Prop
  | .taken value => Settled tags value
  | .bound name body filled => ∀ n ∈ free tags body, ∀ u, filled n = some u → name ∉ free tags u

instance : DecidablePred (Intact tags)
  | .taken (.ctor tag _) =>
    inferInstanceAs (Decidable (tags.kind tag = .lam ∨ tags.kind tag = .data))
  | .taken (.localMap _) | .taken (.frozenMap _) | .taken (.int _) | .taken (.bool _)
  | .taken (.str _) | .taken .unit | .taken (.tuple _) | .taken (.list _) | .taken (.dec _ _)
  | .taken (.float _) | .taken (.bytes _) => .isTrue trivial
  | .bound name body filled => inferInstanceAs
      (Decidable (∀ n ∈ free tags body, ∀ u, filled n = some u → name ∉ free tags u))

end

section
variable {tags : TagTable} {env : Env} {tag : UInt32} {v : Value} {n name : String} {d : Datum}

theorem lookup_self (name : String) (d : Datum) (env : Env) :
    ((name, d) :: env).lookup name = some d := by
  rw [lookup_cons, beq_self_eq_true]

theorem lookup_of_ne (h : n ≠ name) (d : Datum) (env : Env) :
    ((name, d) :: env).lookup n = env.lookup n := by
  rw [lookup_cons, beq_false_of_ne h]

theorem read_cons (name : String) (d : Datum) (env : Env) (n : String) :
    read tags ((name, d) :: env) n = if n = name then some (d.toValue tags) else read tags env n :=
      rfl

theorem read_eq (env : Env) (n : String) :
    read tags env n = (env.lookup n).map (Datum.toValue tags) := by
  induction env with
  | nil => rfl
  | cons entry env ih =>
    obtain ⟨name, d⟩ := entry
    rw [read_cons]
    by_cases h : n = name
    · subst h
      rw [if_pos rfl, lookup_self]
      rfl
    · rw [if_neg h, lookup_of_ne h, ih]

theorem fill_nil (v : Value) : fill tags (read tags []) v = v := fill_eq_self fun _ _ => rfl

theorem fill_hide_nil (binder v : Value) : fill tags (hide binder (read tags [])) v = v := by
  apply fill_eq_self
  intro n _
  exact hide_eq_none rfl binder

theorem hide_self (name : String) (σ : Fill) : hide (.str name) σ name = none :=
  hide_of_isName (by simp [isName]) σ

theorem hide_of_ne (h : n ≠ name) (σ : Fill) : hide (.str name) σ n = σ n :=
  hide_of_not (by simp [isName, Ne.symm h]) σ

/-- A substitution into a body that has no values with the variable. -/
theorem substValue_fill {body : Value} {σ : Fill} (h : Intact tags (.bound name body σ))
    (u : Value) :
    substValue tags name u (fill tags σ body) = fill tags (σ.andThen (only name u)) body := by
  rw [substValue_eq_fill]
  apply fill_fill
  intro n hn w hw m hm
  rw [only, if_neg]
  rintro rfl
  exact h n hn w hw hm

/-- It is one more variable filled in. -/
theorem read_bound (env : Env) (name : String) (d : Datum) :
    (hide (.str name) (read tags env)).andThen (only name (d.toValue tags)) =
      read tags ((name, d) :: env) := by
  funext n
  rw [Fill.andThen, read_cons]
  by_cases heq : n = name
  · rw [if_pos heq, only, if_pos heq, heq, hide_self]
    rfl
  · rw [if_neg heq, only, if_neg heq, hide_of_ne heq]
    exact Option.or_none

/-! ### Fields -/

theorem scope_leaf (h : isLeaf tags v = true) (env : Env) : scope tags env v = [] := if_pos h

theorem scope_node (h : isLeaf tags v = false) (env : Env) : scope tags env v = env := by
  rw [scope, h]
  rfl

/-- The fields of an application or a conditional, each in the scope of the node. -/
theorem fill_parts (fields : List Value) (hk : tags.kind tag = .app ∨ tags.kind tag = .ite) :
    fill tags (read tags env) (.ctor tag fields) = .ctor tag (fields.map
      (fill tags (read tags (scope tags env (.ctor tag fields))))) := by
  cases hleaf : isLeaf tags (.ctor tag fields) with
  | true =>
    rw [fill_leaf hleaf, scope_leaf hleaf, map_congr_left (g := id) fun f _ => fill_nil f, map_id]
  | false =>
    rw [scope_node hleaf]
    rcases hk with hk | hk
    · simp only [isLeaf, hk] at hleaf
      split at hleaf <;> simp_all [fill]
    · simp only [isLeaf, hk] at hleaf
      split at hleaf <;> simp_all [fill]

/-- A let with its name, value and body. -/
theorem fill_let (bound val body : Value) (rest : List Value) (hk : tags.kind tag = .letIn) :
    fill tags (read tags env) (.ctor tag (bound :: val :: body :: rest)) = .ctor tag (bound :: fill
      tags (read tags (scope tags env (.ctor tag (bound :: val :: body :: rest)))) val :: fill tags
      (hide bound (read tags (scope tags env (.ctor tag (bound :: val :: body :: rest))))) body ::
      rest) := by
  cases rest with
  | nil =>
    have hleaf : isLeaf tags (.ctor tag [bound, val, body]) = false := by simp [isLeaf, hk]
    rw [scope_node hleaf]
    simp only [fill, hk]
  | cons extra rest =>
    have hleaf : isLeaf tags (.ctor tag (bound :: val :: body :: extra :: rest)) = true := by
      simp [isLeaf, hk]
    rw [scope_leaf hleaf, fill_leaf hleaf, fill_nil, fill_hide_nil]

theorem fill_call (target : Value) (args rest : List Value) (hk : tags.kind tag = .call) :
    fill tags (read tags env) (.ctor tag (target :: .list args :: rest)) =
      .ctor tag (target :: .list (args.map (fill tags
      (read tags (scope tags env (.ctor tag (target :: .list args :: rest)))))) :: rest) := by
  cases rest with
  | nil =>
    have hleaf : isLeaf tags (.ctor tag [target, .list args]) = false := by simp [isLeaf, hk]
    rw [scope_node hleaf]
    simp only [fill, hk, fillAll_eq_map]
  | cons extra rest =>
    have hleaf : isLeaf tags (.ctor tag (target :: .list args :: extra :: rest)) = true := by
      simp [isLeaf, hk]
    rw [scope_leaf hleaf, fill_leaf hleaf, map_congr_left (g := id) fun f _ => fill_nil f, map_id]

end

/-! ### One node -/

/-- The value that a datum is read as. -/
def Reads (tags : TagTable) (v : Value) (d : Datum) : Prop := v = d.toValue tags

section
variable {W : Type} {host : Host W} {n : ℕ} {env : Env} {tag : UInt32} {fields : List Value}

/-- With this much depth the evaluators agree on a value. -/
def AgreeOn (host : Host W) (n : ℕ) (env : Env) (v : Value) : Prop :=
  Agrees (Intact host.tags) (Reads host.tags) (eval host n (fill host.tags (read host.tags env) v))
    (envEval host n env v)

/-- With this much depth the evaluators agree. -/
def AgreeAt (host : Host W) (n : ℕ) : Prop :=
  ∀ env v, Agrees (Intact host.tags) (Reads host.tags)
    (eval host n (fill host.tags (read host.tags env) v)) (envEval host n env v)

theorem eval_settled {v : Value} (h : Settled host.tags v) : eval host (n + 1) v = pure v := by
  cases v with
  | ctor tag fields =>
    rcases h with hk | hk <;> simp [eval_ctor, evalCtor, hk]
  | _ => rfl

theorem agrees_value (v : Value) :
    Agrees (Intact host.tags) (Reads host.tags) (pure v : Effect Stop W Value) (pure (.value v)) :=
  Agrees.pure rfl

/-- Both go on with the same answer. -/
theorem agrees_same {α γ δ : Type} {S : γ → δ → Prop} {f : α → Effect Stop W γ}
    {g : α → Watched Stop W Note δ} (x : Effect Stop W α)
    (h : ∀ a, Agrees (Intact host.tags) S (f a) (g a)) :
    Agrees (Intact host.tags) S (x >>= f) (Watched.lift x >>= g) := by
  apply (Agrees.lift x).bind
  rintro a b rfl
  exact h a

/-- A body with its variable bound. -/
theorem agrees_body (ih : AgreeAt host n) (name : String) (d : Datum) (body : Value) :
    Agrees (Intact host.tags) (Reads host.tags) (eval host n (substValue host.tags name
      (d.toValue host.tags) (fill host.tags (hide (.str name) (read host.tags env)) body)))
      (Watched.note (.bound name body (hide (.str name) (read host.tags env))) >>= fun _ =>
      envEval host n ((name, d) :: env) body) := by
  apply Agrees.note
  intro hintact
  rw [substValue_fill hintact, read_bound]
  exact ih ((name, d) :: env) body

section
variable (env fields)

theorem agreeOn_leaf (hleaf : isLeaf host.tags (.ctor tag fields) = true) :
    AgreeOn host (n + 1) env (.ctor tag fields) ↔ Agrees (Intact host.tags) (Reads host.tags)
      (evalCtor host (eval host n) tag fields) (envCtor host (envEval host n) env tag fields) := by
  rw [AgreeOn, fill_leaf hleaf, eval_ctor, envEval_ctor]

theorem agrees_lit (hk : host.tags.kind tag = .intLit ∨ host.tags.kind tag = .boolLit) :
    AgreeOn host (n + 1) env (.ctor tag fields) := by
  have hleaf : isLeaf host.tags (.ctor tag fields) = true := by
    rcases hk with hk | hk <;> simp [isLeaf, hk]
  rw [agreeOn_leaf _ _ hleaf]
  rcases hk with hk | hk
  · simp only [evalCtor, envCtor, hk]
    apply agrees_same
    intro read
    exact agrees_value read.1
  · simp only [evalCtor, envCtor, hk]
    apply agrees_same
    intro read
    exact agrees_value read.1

theorem agrees_var (hk : host.tags.kind tag = .var) :
    AgreeOn host (n + 1) env (.ctor tag fields) := by
  cases hleaf : isLeaf host.tags (.ctor tag fields) with
  | true =>
    rw [agreeOn_leaf _ _ hleaf]
    simp only [evalCtor, envCtor, hk, scope_leaf hleaf]
    exact Agrees.stop _
  | false =>
    simp only [AgreeOn, envEval_ctor, envCtor, hk, scope_node hleaf]
    simp only [isLeaf, hk] at hleaf
    split at hleaf <;> simp_all only [reduceCtorEq]
    rename_i name
    simp only [fill, hk, read_eq, varName]
    cases hd : env.lookup name with
    | none =>
      simp only [eval_ctor, evalCtor, hk, Option.map_none, Option.getD_none, varName]
      exact Agrees.stop _
    | some d =>
      rw [Option.map_some, Option.getD_some]
      apply Agrees.note
      intro hsettled
      rw [eval_settled hsettled]
      exact Agrees.pure rfl

theorem agrees_lam (hk : host.tags.kind tag = .lam) :
    AgreeOn host (n + 1) env (.ctor tag fields) := by
  cases hleaf : isLeaf host.tags (.ctor tag fields) with
  | true =>
    rw [agreeOn_leaf _ _ hleaf]
    simp only [evalCtor, envCtor, hk]
    split
    · simp [isLeaf, hk] at hleaf
    · exact agrees_value _
  | false =>
    simp only [isLeaf, hk] at hleaf
    split at hleaf <;> simp_all only [reduceCtorEq]
    simp only [AgreeOn, fill, eval_ctor, envEval_ctor, evalCtor, envCtor, hk]
    exact Agrees.pure rfl

theorem agrees_ite (ih : AgreeAt host n) (hk : host.tags.kind tag = .ite) :
    AgreeOn host (n + 1) env (.ctor tag fields) := by
  rw [AgreeOn, fill_parts fields (.inr hk)]
  simp only [eval_ctor, envEval_ctor, evalCtor, envCtor, hk]
  match fields with
  | [] => exact Agrees.stop _
  | cond :: rest =>
    apply (ih _ cond).bind
    rintro v d rfl
    match rest with
    | [] => exact Agrees.stop _
    | [then_] => exact Agrees.stop _
    | then_ :: els :: rest =>
      show Agrees _ _ (if truthy (d.toValue host.tags) then _ else _)
        (if truthy (d.toValue host.tags) then _ else _)
      split
      · exact ih _ then_
      · exact ih _ els

end

/-! ### Applications -/

theorem apply_lam (hk : host.tags.kind tag = .lam) (ev : Value → Effect Stop W Value)
    (argVal : Value) : apply host ev (.ctor tag fields) argVal = (do
      let (param, fields) ← removeFirst fields
      let param ← strOr
        (fun other => s!"ir_eval: apply: Lam param not Str, got {host.debug other}") param
      let (body, _) ← removeFirst fields
      ev (substValue host.tags param argVal body)) := if_pos hk

theorem apply_other {fnVal : Value}
    (h : ∀ tag fields, fnVal = .ctor tag fields → host.tags.kind tag ≠ .lam)
    (ev : Value → Effect Stop W Value) (argVal : Value) :
    apply host ev fnVal argVal =
      .stop (.panic s!"ir_eval: App: expected Lam, got {host.debug fnVal}") := by
  cases fnVal with
  | ctor tag fields => exact if_neg (h tag fields rfl)
  | _ => rfl

/-- The fields of a lambda that is applied, as the substituting evaluator has them. -/
def Opened (tags : TagTable) (env : Env) : List Value → List Value → Prop
  | param :: body :: rest, fields' =>
    fields' = param :: fill tags (hide param (read tags env)) body :: rest
  | fields, fields' => fields' = fields

theorem agrees_opened (ih : AgreeAt host n) {fn : Datum} {fields' : List Value}
    (hk : host.tags.kind tag = .lam) (hlambda : fn.lambda host.tags = some (fields, env))
    (hfields : Opened host.tags env fields fields') (arg : Datum) : Agrees (Intact host.tags)
    (Reads host.tags) (apply host (eval host n) (.ctor tag fields') (arg.toValue host.tags))
    (envApply host (envEval host n) fn arg) := by
  rw [apply_lam hk, envApply, hlambda]
  match fields with
  | [] =>
    obtain rfl : fields' = [] := hfields
    exact Agrees.stop _
  | [param] =>
    obtain rfl : fields' = [param] := hfields
    dsimp only [removeFirst]
    rw [Effect.pure_bind, Watched.lift_pure_bind]
    apply agrees_same
    intro name
    exact Agrees.stop _
  | param :: body :: rest =>
    obtain rfl : fields' = _ := hfields
    cases param with
    | str name => exact agrees_body ih name arg body
    | _ => exact Agrees.stop _

theorem opened_value (fields : List Value) : Opened host.tags [] fields fields := by
  match fields with
  | [] => rfl
  | [param] => rfl
  | param :: body :: rest =>
    show _ = _
    rw [fill_hide_nil]

/-- Both evaluators see a lambda, or neither does. -/
theorem lambda_cases (host : Host W) (fn : Datum) :
    (∃ tag fields fields' env, host.tags.kind tag = .lam ∧ fn.toValue host.tags = .ctor tag
      fields' ∧ fn.lambda host.tags = some (fields, env) ∧ Opened host.tags env fields fields') ∨
      (fn.lambda host.tags = none ∧ ∀ tag fields, fn.toValue host.tags = .ctor tag fields →
      host.tags.kind tag ≠ .lam) := by
  cases fn with
  | closure tag param body env =>
    by_cases hk : host.tags.kind tag = .lam
    · exact .inl ⟨tag, [param, body], _, env, hk, rfl, if_pos hk, rfl⟩
    · refine .inr ⟨if_neg hk, ?_⟩
      rintro _ _ ⟨⟩
      exact hk
  | value v =>
    cases v with
    | ctor tag fields =>
      by_cases hk : host.tags.kind tag = .lam
      · exact .inl ⟨tag, fields, fields, [], hk, rfl, if_pos hk, opened_value fields⟩
      · refine .inr ⟨if_neg hk, ?_⟩
        rintro _ _ ⟨⟩
        exact hk
    | _ =>
      refine .inr ⟨rfl, ?_⟩
      rintro _ _ ⟨⟩

theorem agrees_apply (ih : AgreeAt host n) (fn arg : Datum) : Agrees (Intact host.tags)
    (Reads host.tags) (apply host (eval host n) (fn.toValue host.tags) (arg.toValue host.tags))
    (envApply host (envEval host n) fn arg) := by
  rcases lambda_cases host fn with ⟨tag, fields, fields', env, hk, hvalue, hlambda,
    hopened⟩ | ⟨hnone, hother⟩
  · rw [hvalue]
    exact agrees_opened ih hk hlambda hopened arg
  · rw [apply_other hother, envApply, hnone]
    exact Agrees.stop _

section
variable (env fields)

theorem agrees_app (ih : AgreeAt host n) (hk : host.tags.kind tag = .app) :
    AgreeOn host (n + 1) env (.ctor tag fields) := by
  rw [AgreeOn, fill_parts fields (.inl hk)]
  simp only [eval_ctor, envEval_ctor, evalCtor, envCtor, hk]
  match fields with
  | [] => exact Agrees.stop _
  | func :: rest =>
    apply (ih _ func).bind
    rintro fnVal fn rfl
    match rest with
    | [] => exact Agrees.stop _
    | arg :: rest =>
      apply (ih _ arg).bind
      rintro argVal d rfl
      exact agrees_apply ih fn d

theorem agrees_let (ih : AgreeAt host n) (hk : host.tags.kind tag = .letIn) :
    AgreeOn host (n + 1) env (.ctor tag fields) := by
  match fields with
  | [] =>
    rw [agreeOn_leaf _ _ (by simp [isLeaf, hk])]
    simp only [evalCtor, envCtor, hk]
    exact Agrees.stop _
  | [bound] =>
    rw [agreeOn_leaf _ _ (by simp [isLeaf, hk])]
    simp only [evalCtor, envCtor, hk, removeFirst, Effect.pure_bind, Watched.lift_pure_bind,
      Effect.stop_bind, Watched.lift_stop_bind]
    apply agrees_same
    intro name
    exact Agrees.stop _
  | [bound, val] =>
    have hleaf : isLeaf host.tags (.ctor tag [bound, val]) = true := by simp [isLeaf, hk]
    have hval := ih [] val
    rw [fill_nil] at hval
    rw [agreeOn_leaf _ _ hleaf]
    simp only [evalCtor, envCtor, hk, scope_leaf hleaf, removeFirst, Effect.pure_bind,
      Watched.lift_pure_bind, Effect.stop_bind, Watched.lift_stop_bind]
    apply agrees_same
    intro name
    apply hval.bind
    intro v d _
    exact Agrees.stop _
  | bound :: val :: body :: rest =>
    rw [AgreeOn, fill_let bound val body rest hk]
    simp only [eval_ctor, envEval_ctor, evalCtor, envCtor, hk]
    cases bound with
    | str name =>
      apply (ih _ val).bind
      rintro v d rfl
      exact agrees_body ih name d body
    | _ => exact Agrees.stop _

theorem agrees_call (ih : AgreeAt host n) (hk : host.tags.kind tag = .call) :
    AgreeOn host (n + 1) env (.ctor tag fields) := by
  match fields with
  | [] =>
    rw [agreeOn_leaf _ _ (by simp [isLeaf, hk])]
    simp only [evalCtor, envCtor, hk]
    exact Agrees.stop _
  | [target] =>
    rw [agreeOn_leaf _ _ (by simp [isLeaf, hk])]
    simp only [evalCtor, envCtor, hk, removeFirst, Effect.pure_bind, Watched.lift_pure_bind,
      Effect.stop_bind, Watched.lift_stop_bind]
    apply agrees_same
    intro name
    exact Agrees.stop _
  | target :: argsVal :: rest =>
    cases argsVal with
    | list args =>
      rw [AgreeOn, fill_call target args rest hk]
      simp only [eval_ctor, envEval_ctor, evalCtor, envCtor, hk, removeFirst, Effect.pure_bind,
        Watched.lift_pure_bind]
      apply agrees_same
      intro name
      have hall :
          ∀ inner, Forall₂ (fun a b => Agrees (Intact host.tags) (Reads host.tags) (eval host n a)
            (envEval host n inner b)) (args.map (fill host.tags (read host.tags inner))) args := by
        intro inner
        rw [List.forall₂_map_left_iff]
        apply List.forall₂_same.mpr
        intro a _
        exact ih inner a
      apply (Agrees.mapM (hall _)).bind
      intro vs ds hds
      have hvs : vs = ds.map (Datum.toValue host.tags) := by
        induction hds with
        | nil => rfl
        | cons hvd _ ih => rw [map_cons, ih, hvd]
      have hcall := agrees_same (callBuiltin host name vs) (@agrees_value W host)
      rw [Effect.bind_pure] at hcall
      rw [← hvs]
      exact hcall
    | _ =>
      rw [agreeOn_leaf _ _ (by simp [isLeaf, hk])]
      simp only [evalCtor, envCtor, hk, removeFirst, Effect.pure_bind, Watched.lift_pure_bind]
      apply agrees_same
      intro name
      exact Agrees.stop _

end

/-- As long as the substituting evaluator leaves what variables are bound to alone, the evaluators
agree at every depth. -/
theorem eval_agrees (host : Host W) (n : ℕ) : AgreeAt host n := by
  induction n with
  | zero =>
    intro env v
    exact Agrees.stop _
  | succ n ih =>
    intro env v
    cases v with
    | ctor tag fields =>
      cases hk : host.tags.kind tag with
      | intLit => exact agrees_lit env fields (.inl hk)
      | boolLit => exact agrees_lit env fields (.inr hk)
      | unitLit | data =>
        apply (agreeOn_leaf env fields (by simp [isLeaf, hk])).mpr
        simp only [evalCtor, envCtor, hk]
        exact agrees_value _
      | var => exact agrees_var env fields hk
      | lam => exact agrees_lam env fields hk
      | letIn => exact agrees_let env fields ih hk
      | ite => exact agrees_ite env fields ih hk
      | app => exact agrees_app env fields ih hk
      | call => exact agrees_call env fields ih hk
    | _ => exact agrees_value _

/-! ### The bindings -/

/-- A further binding of a term, or of a name that has its value already. -/
theorem read_bindOne (tags : TagTable) (env : Env) (name : String) (val : Value) :
    (read tags env).andThen (only name val) =
      read tags (if (env.lookup name).isSome then env else (name, .value val) :: env) := by
  funext n
  rw [Fill.andThen, only]
  cases hlookup : env.lookup name with
  | some d =>
    rw [Option.isSome_some, if_pos rfl]
    by_cases heq : n = name
    · rw [if_pos heq, heq, read_eq, hlookup]
      rfl
    · rw [if_neg heq]
      exact Option.or_none
  | none =>
    rw [Option.isSome_none, if_neg Bool.false_ne_true, read_cons]
    by_cases heq : n = name
    · rw [if_pos heq, if_pos heq, heq, read_eq, hlookup]
      rfl
    · rw [if_neg heq, if_neg heq]
      exact Option.or_none

theorem agrees_bindOne (env : Env) (term pair : Value) :
    Agrees (Intact host.tags) (fun t env => t = fill host.tags (read host.tags env) term)
      (applyBinding host (fill host.tags (read host.tags env) term) pair)
      (bindOne host term env pair) := by
  rw [applyBinding.eq_def, bindOne.eq_def]
  split
  · rename_i key val
    apply agrees_same
    intro name
    apply Agrees.note
    intro hintact
    apply Agrees.pure
    rw [substValue_fill hintact, read_bindOne]
  · exact Agrees.stop _

theorem agrees_bindings (term : Value) (pairs : List Value) :
    ∀ env, Agrees (Intact host.tags) (fun t env => t = fill host.tags (read host.tags env) term)
      (pairs.foldlM (applyBinding host) (fill host.tags (read host.tags env) term))
      (pairs.foldlM (bindOne host term) env) := by
  induction pairs with
  | nil =>
    intro env
    exact Agrees.pure rfl
  | cons pair pairs ih =>
    intro env
    rw [foldlM_cons, foldlM_cons]
    apply (agrees_bindOne env term pair).bind
    rintro t env' rfl
    exact ih env'

theorem irEval_agrees (host : Host W) (n : ℕ) (v : Value) :
    Agrees (Intact host.tags) (Reads host.tags) (irEval host n v) (envIrEval host n v) := by
  rw [irEval.eq_def, envIrEval.eq_def]
  split
  · rename_i term bindingsVal
    cases bindingsVal with
    | list pairs =>
      have hbind := @agrees_bindings W host term pairs []
      rw [fill_nil] at hbind
      apply hbind.bind
      rintro t env rfl
      exact eval_agrees host n env term
    | _ => exact Agrees.stop _
  · exact Agrees.stop _

/-- In a run that never evaluates what a variable is bound to, nor substitutes in it, the evaluator
by substitution gives the value of the evaluator by environment, or stops as this does. -/
theorem irEval_eq (host : Host W) (n : ℕ) (v : Value) (w : W)
    (h : ∀ note ∈ (envIrEval host n v w).2.2, Intact host.tags note) :
    irEval host n v w = (envIrEval host n v).forget (Datum.toValue host.tags) w := by
  apply (irEval_agrees host n v).eq_forget _ h
  intro a d hread
  exact hread

end

/-- The names of the terms, as they are when no other tag was made. -/
def termTags : TagTable :=
  ⟨["IntLit", "BoolLit", "UnitLit", "Var", "Lam", "Let", "If", "App", "Call"], by decide, by decide⟩

/-- With the builtin `int_add` alone. -/
def addHost : Host Unit where
  tags := termTags
  debug := fun _ => ""
  dispatchTable
    | "int_add" => some fun
      | .tuple (.int x :: .int y :: _) =>
        if -2 ^ 63 ≤ x.toInt + y.toInt ∧ x.toInt + y.toInt < 2 ^ 63 then pure (.int (x + y))
        else .stop (.panic s!"int_add: overflow ({x} + {y})")
      | .tuple (_ :: _ :: _) => .stop (.panic "int_add: expected two Int values")
      | _ => .stop (.panic "int_add: expected Tuple(Int, Int)")
    | _ => none

def irMakeVar (name : String) : Value := makeCtor termTags "Var" [.str name]

/-- `let f = fn(x) { int_add(x, y) }; f(1)`, with a value for `y`. -/
def addTerm (y : Value) : Value :=
  .tuple [makeCtor termTags "Let" [.str "f",
      makeCtor termTags "Lam" [.str "x",
        makeCtor termTags "Call" [.str "int_add", .list [irMakeVar "x", irMakeVar "y"]]],
      makeCtor termTags "App" [irMakeVar "f", makeCtor termTags "IntLit" [.int 1]]],
    .list [.tuple [.str "y", y]]]

theorem irEval_eq_add : irEval addHost 5 (addTerm (.int 2)) () =
    (envIrEval addHost 5 (addTerm (.int 2))).forget (Datum.toValue termTags) () :=
  irEval_eq addHost 5 (addTerm (.int 2)) () (by decide +kernel)

/-- The term `x`, with the variable `y` for `x` and a number for `y`. -/
def nested : Value :=
  .tuple [irMakeVar "x", .list [.tuple [.str "x", irMakeVar "y"], .tuple [.str "y", .int 5]]]

theorem nested_replaced :
    irEval addHost 1 nested () = (.ok (.int 5), ()) ∧ (envIrEval addHost 1 nested).forget
      (Datum.toValue termTags) () = (.ok (irMakeVar "y"), ()) ∧ irEval addHost 1 nested () ≠
      (envIrEval addHost 1 nested).forget (Datum.toValue termTags) () := by
  refine ⟨rfl, rfl, ?_⟩
  intro h
  have hvalue : (Except.ok (.int 5) : Except Stop Value) = .ok (irMakeVar "y") :=
    congrArg Prod.fst h
  cases hvalue

end IrEval
end AxisBridge
