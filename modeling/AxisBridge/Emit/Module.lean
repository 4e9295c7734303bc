import AxisBridge.Emit.Blocks
import AxisBridge.Emit.Resolve

/-! The generated module of one bundle: its items, and the body of its function. -/
namespace AxisBridge
open String

/-- The character tables of the standard library. -/
class CharTables where
  alphanumeric : Char → Bool
  printable : Char → Bool
  graphemeExtended : Char → Bool

/-- A `_vfn` adapter: a native builtin as a function of one value. -/
structure VfnAdapter where
  name : String
  path : String
  types : List NativeArgType
  deriving DecidableEq

/-- A generated module; its function is cut into what precedes the nodes, the nodes, the result. -/
structure RustModule where
  providerCrates : List String
  externSyms : List String
  xfnSyms : List String
  vfns : List VfnAdapter
  safeName : String
  prologue : List Tok
  pieces : List Piece
  result : Var
  identitySym : String
  deriving DecidableEq

/-- The body of the generated function. -/
def RustModule.body (m : RustModule) : List Tok :=
  m.prologue ++ (m.pieces.flatMap Piece.toks ++ [.use .take m.result])

/-- The names of the extern block, the wrappers, the adapters and the identity export. -/
def RustModule.itemNames (m : RustModule) : List String :=
  m.externSyms ++ m.xfnSyms.map (· ++ "_xfn") ++ m.vfns.map (·.name ++ "_vfn") ++ [m.identitySym]

section
variable [CharTables]

/-- A name made a Rust identifier. -/
def sanitise (name : String) : String :=
  let s := name.toList.map fun c => if CharTables.alphanumeric c || c == '_' then c else '_'
  match s with
  | [] => "_bundle"
  | c :: _ => if c.isDigit then ofList ('_' :: s) else ofList s

def hexNat (n : ℕ) : String := ofList (Nat.toDigits 16 n)

def debugChar (c : Char) : String :=
  match c.toNat with
  | 0 => "\\0"
  | 9 => "\\t"
  | 10 => "\\n"
  | 13 => "\\r"
  | 34 => "\\\""
  | 92 => "\\\\"
  | n =>
    if CharTables.graphemeExtended c || ! CharTables.printable c then
      "\\u\x7b" ++ hexNat n ++ "\x7d"
    else ofList [c]

/-- A `{:?}` of a string. -/
def debugStr (s : String) : String :=
  "\"" ++ String.join (s.toList.map debugChar) ++ "\""

end

/-- The symbol a function's identity is exported under. -/
def exportSym (id : Hash256) : String := "ax_fn_" ++ hash256ToHex id

variable [Sha256]

/-- The identities of the Fn-typed constants, in pool order. -/
def CoreBundle.fnRefs (b : CoreBundle) : List Hash256 :=
  b.constantPool.filterMap fun entry =>
    if entry.defHash = fnTypeHash then payloadIdentity entry.payload.toList else none

/-- The identities of the calls, in node order. -/
def CoreBundle.calls (b : CoreBundle) : List Hash256 :=
  b.nodes.filterMap fun node =>
    match node with
    | .ccall targetIdentity _ _ => some targetIdentity
    | _ => none

/-- The symbols of the provided identities among `ids`, each identity once and none of `seen`. -/
def collectSyms (t : Tables) : List Hash256 → List Hash256 → List String
  | _, [] => []
  | seen, id :: ids =>
    match t.xbundle id with
    | none => collectSyms t seen ids
    | some sym =>
      if id ∈ seen then collectSyms t seen ids else sym :: collectSyms t (id :: seen) ids

/-- The extern block: calls first, then function references, the module's own identity apart. -/
def CoreBundle.externSyms (b : CoreBundle) (t : Tables) (fnName : String) : List String :=
  collectSyms t [nameIdentity fnName] (b.calls ++ b.fnRefs)

def CoreBundle.xfnSyms (b : CoreBundle) (t : Tables) : List String := collectSyms t [] b.fnRefs

/-- The adapters for `ids`, each identity once and none of `seen`. -/
def collectVfns (t : Tables) : List Hash256 → List Hash256 → List VfnAdapter
  | _, [] => []
  | seen, id :: ids =>
    if id ∈ seen then collectVfns t seen ids
    else
      match vfnAdapter t id with
      | some (name, path) =>
        ⟨name, path, (t.nativeCalls name).getD []⟩ :: collectVfns t (id :: seen) ids
      | none => collectVfns t (id :: seen) ids

def identitySym (fnName : String) : String := exportSym (nameIdentity fnName)

/-- Every call's target must be resolvable. -/
def validateTargets (t : Tables) (b : CoreBundle) : Res Unit :=
  let errors := b.nodes.filterMap fun node =>
    match node with
    | .ccall targetIdentity _ targetName => targetError t targetIdentity targetName.toString
    | _ => none
  if errors = [] then .ok ()
  else .error (.err ("unresolved CCall targets:\n  " ++ "\n  ".intercalate errors))

def classifyPool (t : Tables) : ℕ → List ConstantPoolEntry → Res (List PoolKind)
  | _, [] => .ok []
  | i, entry :: entries => do
    let kind ← (classifyPoolEntry entry t).mapErr fun e => s!"pool[{i}]: {e}"
    return kind :: (← classifyPool t (i + 1) entries)

/-- One more than the largest parameter slot; the addition wraps. -/
def paramCount (kinds : List PoolKind) : UInt32 :=
  ((kinds.filterMap fun kind =>
    match kind with
    | .param slot => some (slot + 1)
    | _ => none).max?).getD 0

/-- How many pool entries take the parameter `slot`. -/
def slotUses (kinds : List PoolKind) (slot : UInt32) : ℕ :=
  (kinds.filter (· = .param slot)).length

/-- The statement that binds constant `i`; a function reference has none. -/
def poolBinding (kinds : List PoolKind) (i : ℕ) : PoolKind → List Tok
  | .data expr => .letVar (.pool i) :: expr.map .text ++ [.semi]
  | .param slot =>
    let take := if slotUses kinds slot = 1 then "" else ".clone()"
    [.letVar (.pool i), .raw s!"__param_{slot}{take}", .semi]
  | .fnRef _ => []

def poolBindings (kinds : List PoolKind) : List Tok :=
  kinds.zipIdx.flatMap fun p => poolBinding kinds p.2 p.1

/-- The nodes of which every use is in no block and in emission order. -/
def topLevel (b : CoreBundle) (blocks : Blocks) : List UInt32 :=
  (b.nodes.zipIdx.filter fun p => blocks.home[p.2]? = some none && match p.1 with
    | .ccall _ _ _ => true
    | .cdeterminate => true
    | .cif _ _ _ => true
    | .cblock => false
    | .cend _ => false).map fun p => asU32 p.2

def gateResult (kinds : List PoolKind) (result : NodeRef) : Res Unit :=
  match result with
  | .pool i =>
    match kinds[i.toNat]? with
    | some (.fnRef _) =>
      .error (.err (s!"type gate: bundle result is a bare pool ref but pool[{i}] is Fn-typed — " ++
        "Fn refs are callee-only, never returned as data (FN_REF_IS_CALLEE_ONLY)"))
    | _ => .ok ()
  | .node _ => .ok ()

variable [CharTables]

/-- The literal name of a `channel_send` is a declared channel. -/
def checkChannel (t : Tables) (b : CoreBundle) (args : List NodeRef) : Res Unit :=
  match args with
  | .pool pi :: _ =>
    match b.constantPool[pi.toNat]? with
    | some entry =>
      if entry.defHash = textTypeHash then do
        let cname ← (decodeTextPayload entry.payload.toList).mapErr
          fun e => s!"channel_send: name literal: {e}"
        if t.declaredChannels cname.toString then return
        throw (.err ("CHANNELS_STATIC: channel_send targets undeclared channel " ++
          s!"{debugStr cname.toString} — declare it with a `channel {cname.toString} / type " ++
          "<Ty> / end` block in a --reg registry file"))
      else .ok ()
    | none => .ok ()
  | _ => .ok ()

def checkChannels (t : Tables) (b : CoreBundle) : List Node → Res Unit
  | [] => .ok ()
  | .ccall targetIdentity args _ :: nodes => do
    if targetIdentity = nameIdentity "channel_send" then checkChannel t b args.toList
    checkChannels t b nodes
  | _ :: nodes => checkChannels t b nodes

/-- The parameters, out of the function's one argument. -/
def paramBindings (safeName : String) (count : UInt32) : List Tok :=
  match count.toNat with
  | 0 => []
  | 1 => [.raw "let __param_0: Value = args", .semi]
  | n =>
    [.raw "#[allow(unused_mut)] let mut __params_vec: Vec<Value> = match args ", .openBrace,
      .raw (s!" Value::Tuple(es) if es.len() == {n} => es, other => panic!(\"{safeName}: " ++
        s!"expected Value::Tuple of {n} args, got \x7b:?\x7d\", other), "),
      .closeBrace, .semi] ++
    (List.range n).flatMap fun i =>
      [.raw s!"let __param_{i}: Value = std::mem::replace(&mut __params_vec[{i}], Value::Unit)",
        .semi]

/-- What the function's body does before its nodes. -/
def emitPrologue (b : CoreBundle) (safeName : String) (kinds : List PoolKind) : List Tok :=
  [.raw "init_runtime()", .semi] ++ (paramBindings safeName (paramCount kinds) ++
    (poolBindings kinds ++
      if paramCount kinds = 0 && (b.constantPool ≠ [] || b.nodes ≠ []) then
        [.raw "let _ = &args", .semi]
      else []))

/-- The module around the pieces of a bundle's nodes. -/
def moduleOf (t : Tables) (b : CoreBundle) (fnName : String) (providerCrates : List String)
    (kinds : List PoolKind) (pieces : List Piece) : RustModule where
  providerCrates := providerCrates
  externSyms := b.externSyms t fnName
  xfnSyms := b.xfnSyms t
  vfns := collectVfns t [] b.fnRefs
  safeName := sanitise fnName
  prologue := emitPrologue b (sanitise fnName) kinds
  pieces := pieces
  result := refExpr b.result
  identitySym := identitySym fnName

/-- What every call of one emission reads. -/
def callEnv (t : Tables) (b : CoreBundle) (kinds : List PoolKind) (blocks : Blocks) : CallEnv where
  tables := t
  constantPool := b.constantPool
  poolKinds := kinds
  moves := lastUses b (topLevel b blocks)

/-- The generated module of the bundle, `emit_rust_lib_from_bundle_with_dispatch`. -/
def emitModule (t : Tables) (b : CoreBundle) (fnName : String) (providerCrates : List String) :
    Res RustModule := do
  validateTargets t b
  checkChannels t b b.nodes
  let kinds ← classifyPool t 0 b.constantPool
  let blocks ← verifyBlocks b
  let pieces ← emitBlocks b blocks (callEnv t b kinds blocks) 0 b.nodes
  gateResult kinds b.result
  return moduleOf t b fnName providerCrates kinds pieces

/-- The parts of a successful emission. -/
theorem emitModule_eq_ok {t : Tables} {b : CoreBundle} {fnName : String}
    {providerCrates : List String} {m : RustModule} : emitModule t b fnName providerCrates = .ok m ↔
    validateTargets t b = .ok () ∧ checkChannels t b b.nodes = .ok () ∧
    ∃ kinds blocks pieces, classifyPool t 0 b.constantPool = .ok kinds ∧ verifyBlocks b =
    .ok blocks ∧ emitBlocks b blocks (callEnv t b kinds blocks) 0 b.nodes = .ok pieces ∧
    gateResult kinds b.result = .ok () ∧ moduleOf t b fnName providerCrates kinds pieces = m := by
  unfold emitModule
  simp only [Res.bind_eq_ok, pure, Except.pure, Except.ok.injEq]
  constructor
  · rintro ⟨⟨⟩, hv, ⟨⟩, hc, kinds, hk, blocks, hb, pieces, hp, ⟨⟩, hg, hm⟩
    exact ⟨hv, hc, kinds, blocks, pieces, hk, hb, hp, hg, hm⟩
  · rintro ⟨hv, hc, kinds, blocks, pieces, hk, hb, hp, hg, hm⟩
    exact ⟨(), hv, (), hc, kinds, hk, blocks, hb, pieces, hp, (), hg, hm⟩

end AxisBridge
