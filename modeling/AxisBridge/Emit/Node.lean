import AxisBridge.Emit.Pool

/-! Moves on last use, and the expression of one call. -/
namespace AxisBridge

def RESULT_USE : UInt32 := 0xffffffff

def refExpr : NodeRef → Var
  | .node i => .node i.toNat
  | .pool i => .pool i.toNat

/-- Every use of a value, with the node index it is recorded at. -/
def CoreBundle.uses (b : CoreBundle) : List (NodeRef × UInt32) :=
  b.nodes.zipIdx.flatMap (fun p => p.1.reads.map fun r => (r, asU32 p.2)) ++
    [(b.result, RESULT_USE)]

def CoreBundle.usesOf (b : CoreBundle) (r : NodeRef) : List UInt32 :=
  (b.uses.filter fun use => use.1 = r).map Prod.snd

/-- Whether a reference may move at a node index. -/
abbrev MoveSet := NodeRef → UInt32 → Bool

/-- A single use moves; of several top-level uses the last does, when its node names it once. -/
def lastUses (b : CoreBundle) (topLevel : List UInt32) : MoveSet := fun r index =>
  match (b.usesOf r).max? with
  | none => false
  | some last =>
    let onceThere := ((b.usesOf r).filter (· = last)).length = 1
    index = last && ((b.usesOf r).length = 1 ||
      (last ≠ RESULT_USE && onceThere && (b.usesOf r).all (· ∈ topLevel)))

def takeMode (moves : MoveSet) (r : NodeRef) (index : UInt32) : Mode :=
  if moves r index then .take else .clone

/-- The value at its use in node `index`: moved when this is its last use, else a clone. -/
def refTake (moves : MoveSet) (r : NodeRef) (index : UInt32) : Tok :=
  .use (takeMode moves r index) (refExpr r)

/-- The data of an emission that every call reads. -/
structure CallEnv where
  tables : Tables
  constantPool : List ConstantPoolEntry
  poolKinds : List PoolKind
  moves : MoveSet

/-- A Fn-typed constant is not a data argument. -/
def gateDataArg (kinds : List PoolKind) (name : String) (i : ℕ) (arg : NodeRef) : Res Unit :=
  match arg with
  | .pool pi =>
    match kinds[pi.toNat]? with
    | some (.fnRef _) =>
      .error (.err (s!"type gate: CCall '{name}' arg[{i}] is a Data slot but pool[{pi}] is " ++
        "Fn-typed — Fn refs are callee-only, never data (FN_REF_IS_CALLEE_ONLY)"))
    | _ => .ok ()
  | .node _ => .ok ()

/-- A data argument: the value itself, or what a native parameter takes of it. -/
def dataExpr (moves : MoveSet) (index : UInt32) (native : Option NativeArgType) (arg : NodeRef) :
    Tok :=
  match native with
  | some .value => refTake moves arg index
  | some .bytes =>
    if moves arg index then .use .intoBytes (refExpr arg)
    else .use (.access .bytes) (refExpr arg)
  | some t => .use (.access t) (refExpr arg)
  | none => refTake moves arg index

/-- The type gate and the expression of argument `i`. -/
def argExpr (env : CallEnv) (index : UInt32) (name : String) (native : Option NativeArgType)
    (i : ℕ) (kind : ArgKind) (arg : NodeRef) : Res Tok :=
  match kind with
  | .fnRef =>
    match arg with
    | .pool pi =>
      match env.poolKinds[pi.toNat]? with
      | some (.fnRef target) => .ok (.raw target.text)
      | some (.data _) =>
        .error (.err s!"type gate: CCall '{name}' arg[{i}] expects Fn but pool[{pi}] is Data")
      | some (.param _) =>
        .error (.err (s!"type gate: CCall '{name}' arg[{i}] expects Fn but pool[{pi}] is a " ++
          "Param slot (Fn-by-name resolution requires a statically known identity, not a " ++
          "runtime Value)"))
      | none => .error (.err s!"CCall '{name}' arg[{i}]: pool[{pi}] out of range")
    | .node j =>
      .error (.err (s!"type gate: CCall '{name}' arg[{i}] expects Fn but got node[{j}] result — " ++
        "Fn refs originate from pool entries only"))
  | .data => do
    gateDataArg env.poolKinds name i arg
    return dataExpr env.moves index native arg

/-- The arguments from the `i`-th on, each with its kind. -/
def argExprs (env : CallEnv) (index : UInt32) (name : String)
    (native : Option (List NativeArgType)) : ℕ → List (NodeRef × ArgKind) → Res (List Tok)
  | _, [] => .ok []
  | i, (arg, kind) :: rest => do
    let expr ← argExpr env index name (native.bind fun types => types[i]?) i kind arg
    return expr :: (← argExprs env index name native (i + 1) rest)

def checkCount (name what : String) (declared : Option ℕ) (got : ℕ) : Res Unit :=
  match declared with
  | some n =>
    if n ≠ got then
      .error (.err s!"CCall '{name}' arg count mismatch: declared {n} {what}, got {got} args")
    else .ok ()
  | none => .ok ()

def commaSep (exprs : List Tok) : List Tok := exprs.intersperse (.raw ", ")

/-- Native multi-arg call, or the arguments packed into one value. -/
def callBody (target : Target) (native : Bool) (exprs : List Tok) : List Tok :=
  let callee : Tok := .text (.callee target.path target.isExtern)
  if native then callee :: .raw "(" :: commaSep exprs ++ [.raw ")"]
  else
    match exprs with
    | [] => [callee, .raw "(Value::Unit)"]
    | [expr] => [callee, .raw "(", expr, .raw ")"]
    | exprs => callee :: .raw "(Value::Tuple(vec![" :: commaSep exprs ++ [.raw "]))"]

/-- The target is pure and deterministic, and so is every function it is given. -/
def callIsPureDet [Sha256] (env : CallEnv) (targetIdentity : Hash256) (args : List NodeRef) :
    Bool :=
  env.tables.pureDet targetIdentity && args.all fun arg =>
    match arg with
    | .pool i =>
      match env.constantPool[i.toNat]? with
      | some e =>
        if e.defHash = fnTypeHash then
          match payloadIdentity e.payload.toList with
          | some id => env.tables.pureDet id
          | none => false
        else true
      | none => true
    | .node _ => true

/-- The borrowing pre-check, then the call, which may take the moved values. -/
def guarded (name : String) (effectful : Bool) (dataRefs body : List Tok) : List Tok :=
  .openBrace ::
    (.raw s!" let __pre = axis_codegen_bridge::runtime::fault::guard_pre({effectful}, &[" ::
      commaSep dataRefs ++ [.raw "])"]) ++ .semi ::
    (.raw " match __pre " :: (.openBrace ::
      (.raw " Some(v) => v, None => axis_codegen_bridge::runtime::fault::guard_run(" ::
        .text (.debug name) :: .raw s!", {effectful}, || " :: body ++ [.raw ") "]) ++
      [.closeBrace])) ++ [.closeBrace]

/-- The borrows of the data arguments. -/
def dataRefs (args : List (NodeRef × ArgKind)) : List Tok :=
  args.filterMap fun arg => if arg.2 = .data then some (.use .borrow (refExpr arg.1)) else none

/-- An extern call is unsafe and unguarded; a builtin is guarded against panics. -/
def callToks (target : Target) (effectful : Bool) (args : List (NodeRef × ArgKind))
    (body : List Tok) : List Tok :=
  if target.isExtern then .raw "unsafe " :: (.openBrace :: body ++ [.closeBrace])
  else guarded target.name effectful (dataRefs args) body

def emitCall [Sha256] (env : CallEnv) (index : UInt32) (targetIdentity : Hash256)
    (args : List NodeRef) (targetName : String) : Res (List Tok) := do
  let target ← resolveTarget env.tables targetIdentity targetName
  let declared := env.tables.argKinds target.name
  checkCount target.name "arg-kinds" (declared.map List.length) args.length
  let kinds := declared.getD (List.replicate args.length .data)
  let native := env.tables.nativeCalls target.name
  checkCount target.name "native arg-types" (native.map List.length) args.length
  let exprs ← argExprs env index target.name native 0 (args.zip kinds)
  let body := callBody target (kinds.any (· = .fnRef) || native.isSome) exprs
  return callToks target (! callIsPureDet env targetIdentity args) (args.zip kinds) body

end AxisBridge
