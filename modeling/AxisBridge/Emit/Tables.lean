import AxisBridge.CoreIr.Bundle

/-! The tables of the emitter, and how a call's target is resolved through them. -/
namespace AxisBridge

/-- Whether an argument slot takes a value or a bare function path. -/
inductive ArgKind
  | data
  | fnRef
  deriving DecidableEq

/-- The native Rust type of a parameter. -/
inductive NativeArgType
  | int
  | text
  | bytes
  | bool
  | value
  deriving DecidableEq

/-- The maps an emission reads; the builtin and symbol maps already hold the dispatch overlay. -/
structure Tables where
  builtin : Hash256 → Option String
  registry : Hash256 → Option String
  nameToPath : String → Option String
  xbundle : Hash256 → Option String
  argKinds : String → Option (List ArgKind)
  nativeCalls : String → Option (List NativeArgType)
  pureDet : Hash256 → Bool
  declaredChannels : String → Bool

def hexDigit (n : ℕ) : Char := Char.ofNat (if n < 10 then 48 + n else 87 + n)

def hash256ToHex (h : Hash256) : String :=
  String.ofList (h.bytes.flatMap fun b => [hexDigit (b.toNat / 16), hexDigit (b.toNat % 16)])

/-- The hash the source takes of a name's UTF-8 bytes. -/
def nameIdentity [Sha256] (name : String) : Hash256 := sha256Bytes name.toByteArray.data.toList

/-- The last segment of a Rust path, `path.rsplit("::").next()`. -/
def lastSegment (path : String) : String :=
  let rec go : List Char → List Char → List Char
    | acc, [] => acc
    | _, ':' :: ':' :: rest => go [] rest
    | acc, c :: rest => go (acc ++ [c]) rest
  String.ofList (go [] path.toList)

/-- A resolved call target: the name its tables are read under, the callee and its linkage. -/
structure Target where
  name : String
  path : String
  isExtern : Bool
  deriving DecidableEq

/-- The target resolution of `emit_node`. -/
def resolveTarget (t : Tables) (targetIdentity : Hash256) (targetName : String) : Res Target :=
  match t.builtin targetIdentity with
  | some p => .ok ⟨targetName, p, false⟩
  | none =>
    match t.registry targetIdentity with
    | some n =>
      match t.nameToPath n with
      | some p => .ok ⟨n, p, false⟩
      | none =>
        match t.xbundle targetIdentity with
        | some sym => .ok ⟨n, sym, true⟩
        | none =>
          .error (.err (s!"CCall identity {hash256ToHex targetIdentity} resolves to registry " ++
            s!"name '{n}' but that name has no bridge implementation and no xbundle provider"))
    | none =>
      match t.xbundle targetIdentity with
      | some sym => .ok ⟨targetName, sym, true⟩
      | none =>
        .error (.err (s!"unresolved CCall identity: {hash256ToHex targetIdentity} — not in " ++
          "bridge built-ins, --reg files, or --lib providers"))

/-- The error the up-front validation reports for one call, if any. -/
def targetError [Sha256] (t : Tables) (targetIdentity : Hash256) (targetName : String) :
    Option String :=
  let short := (hash256ToHex targetIdentity).take 16
  if (t.builtin targetIdentity).isSome then none
  else
    match t.registry targetIdentity with
    | some name =>
      if (t.nameToPath name).isNone && (t.xbundle targetIdentity).isNone then
        some (s!"registry name '{name}' (identity {short}…) has no bridge implementation and no " ++
          "xbundle provider")
      else none
    | none =>
      if (t.xbundle targetIdentity).isSome then none
      else if targetName ≠ "" ∧ nameIdentity targetName = targetIdentity then
        some s!"UNRESOLVED_XBUNDLE: '{targetName}' (identity {short}…) — no provider in --lib set"
      else
        some s!"UNKNOWN_GATE: identity {short}… — not a bridge built-in, not a §5b identity"

end AxisBridge
