import AxisBridge.Emit.Node

/-! Emission of a bundle's nodes, in index order, inside the blocks the IR puts them in. -/
namespace AxisBridge

/-- What one node prints; a `CIf` is bound as `node_k` where its then-arm opens. -/
inductive Piece
  | openIf (k : ℕ) (cond : Var)
  | openBlock (e : ℕ)
  | elseArm (how : Mode) (value : Var)
  | closeUnit (how : Mode) (value : Var)
  | close (how : Mode) (value : Var)
  | bind (i : ℕ) (expr : List Tok)
  deriving DecidableEq

/-- The text of a piece, without its indentation. -/
def Piece.toks : Piece → List Tok
  | .openIf k c =>
    [.letVar (.node k), .raw "if axis_codegen_bridge::runtime::fault::is_unknown(", .use .borrow c,
      .raw ") || axis_codegen_bridge::runtime::fault::is_err(", .use .borrow c, .raw ") ",
      .openBrace, .use .clone c, .closeBrace,
      .raw " else if axis_codegen_bridge::runtime::value::truthy(", .use .borrow c, .raw ") ",
      .openBrace]
  | .openBlock e => [.letVar (.node e), .openBrace]
  | .elseArm how v => [.use how v, .closeBrace, .raw " else ", .openBrace]
  | .closeUnit how v =>
    [.use how v, .closeBrace, .raw " else ", .openBrace, .raw " Value::Unit ", .closeBrace, .semi]
  | .close how v => [.use how v, .closeBrace, .semi]
  | .bind i expr => .letVar (.node i) :: expr ++ [.semi]

/-- A Fn-typed constant is not data. -/
def gateDataRef (kinds : List PoolKind) (label : String) (r : NodeRef) : Res Unit :=
  match r with
  | .pool pi =>
    match kinds[pi.toNat]? with
    | some (.fnRef _) =>
      .error (.err (s!"type gate: {label} slot is Data but pool[{pi}] is Fn-typed — Fn refs are " ++
        "callee-only, never a condition or a value (FN_REF_IS_CALLEE_ONLY)"))
    | _ => .ok ()
  | .node _ => .ok ()

/-- The delimiter of a `CBlock`: a then-arm opens its `CIf`, an else-arm was opened already. -/
def emitOpen (b : CoreBundle) (blocks : Blocks) (kinds : List PoolKind) (i : ℕ) :
    Res (List Piece) := do
  let end_ ← expect (← readAt blocks.partner i) "a verified block"
  match ← readAt blocks.arm end_.toNat with
  | some (k, .then_) =>
    match ← readAt b.nodes k.toNat with
    | .cif cond _ _ =>
      gateDataRef kinds "CIf cond" cond
      return [.openIf k.toNat (refExpr cond)]
    | _ => throw (.panic "internal error: entered unreachable code: an arm's CIf is a CIf")
  | some (_, .else_) => return []
  | none => return [.openBlock end_.toNat]

/-- The value of a block and the delimiter after it. -/
def emitClose (b : CoreBundle) (blocks : Blocks) (env : CallEnv) (i : ℕ) (value : NodeRef) :
    Res (List Piece) := do
  gateDataRef env.poolKinds "CEnd value" value
  let how := takeMode env.moves value (asU32 i)
  match ← readAt blocks.arm i with
  | some (k, .then_) =>
    match ← readAt b.nodes k.toNat with
    | .cif _ _ (.node _) => return [.elseArm how (refExpr value)]
    | _ => return [.closeUnit how (refExpr value)]
  | _ => return [.close how (refExpr value)]

def emitPiece [Sha256] (b : CoreBundle) (blocks : Blocks) (env : CallEnv) (i : ℕ) (node : Node) :
    Res (List Piece) :=
  match node with
  | .cblock => emitOpen b blocks env.poolKinds i
  | .cend value => emitClose b blocks env i value
  | .cif _ _ _ => .ok []
  | .ccall targetIdentity args targetName => do
    let expr ← (emitCall env (asU32 i) targetIdentity args.toList targetName.toString).mapErr
      fun e => s!"node[{i}]: {e}"
    return [.bind i expr]
  | .cdeterminate => .ok [.bind i [.raw "Value::Unit"]]

/-- The pieces of `nodes`, the first of which is node `i`. -/
def emitBlocks [Sha256] (b : CoreBundle) (blocks : Blocks) (env : CallEnv) :
    ℕ → List Node → Res (List Piece)
  | _, [] => .ok []
  | i, node :: nodes => do
    let here ← emitPiece b blocks env i node
    return here ++ (← emitBlocks b blocks env (i + 1) nodes)

end AxisBridge
