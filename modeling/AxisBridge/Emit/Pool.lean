import AxisBridge.CoreIr.Canonical
import AxisBridge.Emit.Tables
import AxisBridge.Lib.Scope

/-! The emitted text, and what each constant of the pool is emitted as. -/
namespace AxisBridge

/-- A variable of the emitted function, `node_i` or `pool_i`. -/
inductive Var
  | node (i : ℕ)
  | pool (i : ℕ)
  deriving DecidableEq

/-- How the text uses a variable: `x`, `x.clone()`, `&x`, `x.as_int()` and its like, or
`x.into_bytes()`. -/
inductive Mode
  | take
  | clone
  | borrow
  | access (t : NativeArgType)
  | intoBytes
  deriving DecidableEq

/-- Text between the variables: verbatim, a `{:?}` of a string, a decimal's serialized bytes, the
name of a called function. -/
inductive Frag
  | raw (s : String)
  | debug (s : String)
  | decimal (payload : Bytes)
  | callee (path : String) (isExtern : Bool)
  deriving DecidableEq

abbrev Tok := Scope.Tok Var Mode Frag

def Tok.raw (s : String) : Tok := .text (.raw s)

/-- What a Fn-typed constant names: a Rust path, the wrapper of an extern symbol, or the adapter of
a native builtin. -/
inductive FnTarget
  | path (p : String)
  | xfn (sym : String)
  | vfn (name : String)
  deriving DecidableEq

def FnTarget.text : FnTarget → String
  | .path p => p
  | .xfn sym => sym ++ "_xfn"
  | .vfn name => name ++ "_vfn"

inductive PoolKind
  | data (expr : List Frag)
  | fnRef (target : FnTarget)
  | param (slot : UInt32)
  deriving DecidableEq

/-- A `{:?}` of a byte slice. -/
def debugBytes (bytes : Bytes) : String :=
  "[" ++ ", ".intercalate (bytes.map fun b => s!"{b}") ++ "]"

def decodeBoolPayload : Bytes → Res Bool
  | [0] => .ok false
  | [1] => .ok true
  | other => .error (.err s!"invalid bool payload: {debugBytes other}")

/-- The bits a varint byte adds to `v` at `shift`. -/
def addBits (v : UInt64) (byte : UInt8) (shift : ℕ) : UInt64 :=
  v ||| (byte &&& 0x7f).toUInt64 <<< .ofNat shift

def unsignedLoop (result : UInt64) (shift : ℕ) : Bytes → Res UInt64
  | [] => .error (.err "truncated unsigned varint")
  | byte :: rest =>
    if byte &&& 0x80 = 0 then .ok (addBits result byte shift)
    else if shift + 7 ≥ 64 then .error (.err "unsigned varint overflow")
    else unsignedLoop (addBits result byte shift) (shift + 7) rest

def decodeUnsignedVarint (payload : Bytes) : Res UInt64 := unsignedLoop 0 0 payload

def intLoop (result : UInt64) (shift : ℕ) : Bytes → Res UInt64
  | [] => .error (.err "truncated int payload")
  | byte :: rest =>
    if byte &&& 0x80 = 0 then .ok (addBits result byte shift)
    else if shift + 7 ≥ 64 then .error (.err "int varint overflow")
    else intLoop (addBits result byte shift) (shift + 7) rest

/-- A zigzag varint. -/
def decodeIntPayload (payload : Bytes) : Res Int64 := do
  let result ← intLoop 0 0 payload
  return (result >>> 1).toInt64 ^^^ -(result &&& 1).toInt64

def textLength (pos shift : ℕ) (len : UInt64) : Bytes → Res (UInt64 × ℕ)
  | [] => .error (.err "truncated text length")
  | byte :: rest =>
    if byte &&& 0x80 = 0 then .ok (addBits len byte shift, pos + 1)
    else if shift + 7 ≥ 64 then .error (.err "text length varint overflow")
    else textLength (pos + 1) (shift + 7) (addBits len byte shift) rest

def decodeTextPayload (payload : Bytes) : Res Str := do
  let (len, pos) ← textLength 0 0 0 payload
  -- `pos + len` wraps past the check, and the slice then ends before it starts
  if pos + len.toNat ≥ 2 ^ 64 then
    throw (.panic s!"slice index starts at {pos} but ends at {pos + len.toNat - 2 ^ 64}")
  if pos + len.toNat > payload.length then throw (.err "truncated text payload")
  fromUtf8 "text UTF-8 error" (← toVec ((payload.drop pos).take len.toNat))

/-- The bits of a little-endian float. -/
def decodeFloatPayload (payload : Bytes) : Res ℕ :=
  if payload.length ≠ 8 then
    .error (.err s!"invalid float payload: expected 8 bytes, got {payload.length}")
  else .ok (payload.foldr (fun b bits => b.toNat + 256 * bits) 0)

def decodeDecPayload (payload : Bytes) : Res Bytes :=
  if payload.length ≠ 16 then
    .error (.err s!"invalid dec payload: expected 16 bytes, got {payload.length}")
  else .ok payload

/-- A builtin as a callee: not itself higher-order, and through its adapter when native. -/
def fnRefKind (t : Tables) (name path : String) : Res FnTarget :=
  if (t.argKinds name).isSome then
    .error (.err (s!"type gate: '{name}' is a higher-order fn (has its own Fn-typed arg slots) " ++
      "and cannot be used as another HOF's callee (HOF_NOT_A_CALLEE)"))
  else if (t.nativeCalls name).isSome then .ok (.vfn name)
  else .ok (.path path)

/-- The callee a Fn-typed constant resolves to. -/
def resolveFnRef (t : Tables) (id : Hash256) : Res FnTarget :=
  match t.builtin id with
  | some path => fnRefKind t (lastSegment path) path
  | none =>
    match t.xbundle id with
    | some sym => .ok (.xfn sym)
    | none =>
      match t.registry id with
      | some name =>
        match t.nameToPath name with
        | some path => fnRefKind t name path
        | none =>
          .error (.err (s!"Fn-typed pool entry resolves to registry name '{name}' (identity " ++
            s!"{hash256ToHex id}) but that name has no bridge implementation and no xbundle " ++
            "provider"))
      | none =>
        .error (.err (s!"Fn-typed pool entry references unknown identity {hash256ToHex id} — " ++
          "not a bridge built-in, not in --reg files, not in --lib providers"))

/-- The identity a Fn-typed payload holds. -/
def payloadIdentity (payload : Bytes) : Option Hash256 :=
  if h : payload.length = 32 then some ⟨payload, h⟩ else none

def zeroHash : Hash256 := ⟨List.replicate 32 0, by simp⟩

def classifyPoolEntry [Sha256] (entry : ConstantPoolEntry) (t : Tables) : Res PoolKind := do
  let dh := entry.defHash
  let payload := entry.payload.toList
  if dh = zeroHash then
    throw (.err ("all-zero def_hash (UNKNOWN-gate sentinel): pool entry has no resolved type " ++
      "identity. This is an upstream lowering gap — e.g. a lambda or fn-reference that was not " ++
      "assigned a Fn type hash — not a bridge defect."))
  else if dh = unitTypeHash then return .data [.raw "Value::Unit"]
  else if dh = boolTypeHash then
    let v ← decodeBoolPayload payload
    return .data [.raw s!"Value::Bool({v})"]
  else if dh = intTypeHash then
    let v ← decodeIntPayload payload
    return .data [.raw s!"Value::Int({v})"]
  else if dh = textTypeHash then
    let s ← decodeTextPayload payload
    return .data [.raw "Value::Str(axis_codegen_bridge::runtime::value::intern_str(",
      .debug s.toString, .raw "))"]
  else if dh = floatTypeHash then
    let bits ← decodeFloatPayload payload
    return .data [.raw s!"Value::Float(f64::from_bits({bits}u64))"]
  else if dh = decTypeHash then
    let bytes ← decodeDecPayload payload
    return .data [.raw "Value::Dec(axis_codegen_bridge::runtime::value::Decimal::deserialize([",
      .decimal bytes, .raw "]))"]
  else if dh = paramTypeHash then
    let slot ← (decodeUnsignedVarint payload).mapErr fun e => s!"Param pool entry: {e}"
    if slot.toNat < 2 ^ 32 then return .param slot.toUInt32
    else throw (.err s!"Param pool entry: slot index {slot} doesn't fit in u32")
  else if dh = fnTypeHash then
    match payloadIdentity payload with
    | none =>
      throw (.err ("Fn-typed pool entry has malformed payload: expected 32-byte identity, got " ++
        s!"{payload.length} bytes"))
    | some id => return .fnRef (← resolveFnRef t id)
  else
    throw (.err (s!"unknown pool entry type hash: {hash256ToHex dh} (only Unit/Bool/Int/Text/Fn " ++
      "supported)"))

end AxisBridge
