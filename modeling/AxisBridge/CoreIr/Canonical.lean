import AxisBridge.CoreIr.Verifier
import AxisBridge.Lib.Codec
import AxisBridge.Lib.Leb128

/-! The canonical bytes of a bundle, their strict reader, and the `.coreir` file around them. -/
namespace AxisBridge
open Codec

def AXBI_MAGIC : Bytes := [0x41, 0x58, 0x43, 0x49]

def REFUSE_05 : String :=
  "Core IR 0.5 bundle: it does not record where its nodes run; recompile from source"

def writeVarint (v : UInt64) : Bytes :=
  let byte := (v &&& 0x7f).toUInt8
  if _h : v >>> 7 = 0 then [byte] else (byte ||| 0x80) :: writeVarint (v >>> 7)
termination_by v.toNat
decreasing_by
  have hpos : v.toNat >>> 7 ≠ 0 := by
    intro h0
    exact _h (UInt64.toNat_inj.mp (by simpa using h0))
  rw [Nat.shiftRight_eq_div_pow] at hpos
  simp only [UInt64.toNat_shiftRight, UInt64.reduceToNat, Nat.reduceMod, Nat.shiftRight_eq_div_pow]
  omega

def writeBytes (data : Bytes) : Bytes :=
  writeVarint (.ofNat data.length) ++ data

def writeNoderef : NodeRef → Bytes
  | .node i => writeVarint (i.toUInt64 <<< 1)
  | .pool i => writeVarint (i.toUInt64 <<< 1 ||| 1)

/-- The UTF-8 bytes of a string. -/
def Str.asBytes (s : Str) : Bytes := s.toString.toByteArray.data.toList

def writeEntry (entry : ConstantPoolEntry) : Bytes :=
  entry.defHash.bytes ++ writeBytes entry.payload.toList

def writeNode : Node → Bytes
  | .ccall targetIdentity args targetName =>
    writeVarint 0 ++ (writeBytes targetName.asBytes ++ (targetIdentity.bytes ++
      (writeVarint (.ofNat args.toList.length) ++ encodeAll writeNoderef args.toList)))
  | .cif cond then_ else_ =>
    writeVarint 1 ++ (writeNoderef cond ++ (writeNoderef then_ ++ writeNoderef else_))
  | .cdeterminate => writeVarint 2
  | .cblock => writeVarint 3
  | .cend value => writeVarint 4 ++ writeNoderef value

def serializeCanonical (bundle : CoreBundle) : Bytes :=
  writeVarint (.ofNat bundle.constantPool.length) ++
    (encodeAll writeEntry bundle.constantPool ++
      (writeVarint (.ofNat bundle.nodes.length) ++
        (encodeAll writeNode bundle.nodes ++ writeNoderef bundle.result)))

/-- The bundle's content identity. -/
def bundleIdentity [Sha256] (bundle : CoreBundle) : Hash256 :=
  sha256Bytes (serializeCanonical bundle)

def serializeAxbi (bundle : CoreBundle) : Bytes :=
  AXBI_MAGIC ++ [0, 6] ++ serializeCanonical bundle

/-- Where a byte string stops being UTF-8; no length when it ends inside a character. -/
structure Utf8Error where
  validUpTo : ℕ
  errorLen : Option ℕ

/-- The second byte a lead byte of three or four bytes allows. -/
def secondByteOk (first second : UInt8) : Bool :=
  if first == 0xe0 then 0xa0 ≤ second && second ≤ 0xbf
  else if first == 0xed then 0x80 ≤ second && second ≤ 0x9f
  else if first == 0xf0 then 0x90 ≤ second && second ≤ 0xbf
  else if first == 0xf4 then 0x80 ≤ second && second ≤ 0x8f
  else 0x80 ≤ second && second ≤ 0xbf

/-- Scan one character after its lead byte: the bytes taken, or the error length. -/
def utf8Char (first : UInt8) (rest : Bytes) : Except (Option ℕ) ℕ :=
  let cont (byte : UInt8) : Bool := 0x80 ≤ byte && byte ≤ 0xbf
  if first < 0x80 then .ok 0
  else if first < 0xc2 || 0xf4 < first then .error (some 1)
  else
    match rest with
    | [] => .error none
    | b1 :: rest =>
      if first < 0xe0 then if cont b1 then .ok 1 else .error (some 1)
      else if ! secondByteOk first b1 then .error (some 1)
      else
        match rest with
        | [] => .error none
        | b2 :: rest =>
          if ! cont b2 then .error (some 2)
          else if first < 0xf0 then .ok 2
          else
            match rest with
            | [] => .error none
            | b3 :: _ => if cont b3 then .ok 3 else .error (some 3)

/-- The error the standard library reports for bytes that are not UTF-8. -/
def utf8Error : ℕ → ℕ → Bytes → Option Utf8Error
  | _, _, [] => none
  | validUpTo, skip + 1, _ :: rest => utf8Error (validUpTo + 1) skip rest
  | validUpTo, 0, first :: rest =>
    match utf8Char first rest with
    | .ok more => utf8Error (validUpTo + 1) more rest
    | .error errorLen => some ⟨validUpTo, errorLen⟩

def Utf8Error.message : Utf8Error → String
  | ⟨validUpTo, some errorLen⟩ =>
    s!"invalid utf-8 sequence of {errorLen} bytes from index {validUpTo}"
  | ⟨validUpTo, none⟩ => s!"incomplete utf-8 byte sequence from index {validUpTo}"

/-- A vector can not grow past `isize::MAX`. -/
def toVec {α : Type} (xs : List α) : Res (Vec α) :=
  if h : xs.length < 2 ^ 63 then .ok ⟨xs, h⟩ else .error (.panic "capacity overflow")

/-- Text from its bytes; the caller's words head the error. -/
def fromUtf8 (what : String) (bytes : Vec UInt8) : Res Str :=
  if h : bytes.toList.toByteArray.IsValidUTF8 then
    .ok ⟨String.ofByteArray bytes.toList.toByteArray h, by
      simpa [String.utf8ByteSize, List.size_toByteArray] using bytes.length_lt⟩
  else
    match utf8Error 0 0 bytes.toList with
    | some e => .error (.err s!"{what}: {e.message}")
    | none => .error (.err s!"{what}: ")

/-- The reader of canonical bytes: the input and the position in it. -/
abbrev CanonReader := Codec.Reader UInt8 Stop

def CanonReader.ofRes {α : Type} (x : Res α) : CanonReader α := fun r => x.map (·, r)

def take (n : ℕ) : CanonReader Bytes := fun r =>
  if r.b.length - r.pos < n then
    .error (.err s!"axbi: truncated at byte {r.pos} (need {n} more)")
  else .ok ((r.b.drop r.pos).take n, r.advance n)

/-- The loop of `varint`, over the bytes from `pos` on. -/
def varintLoop (start pos shift : ℕ) (v : UInt64) : Bytes → Res (UInt64 × ℕ)
  | [] => .error (.err s!"axbi: truncated at byte {pos} (need {1} more)")
  | byte :: rest =>
    if shift ≥ 64 || (shift == 63 && (byte &&& 0x7f) > 1) then
      .error (.err s!"axbi: varint overflows u64 at byte {start}")
    else
      let v := v ||| (byte &&& 0x7f).toUInt64 <<< .ofNat shift
      if byte &&& 0x80 = 0 then
        if byte == 0 && pos + 1 - start > 1 then
          .error (.err s!"axbi: non-minimal varint at byte {start}")
        else .ok (v, pos + 1)
      else varintLoop start (pos + 1) (shift + 7) v rest

/-- Unsigned LEB128 in minimal form. -/
def varint : CanonReader UInt64 := fun r => do
  let (v, pos) ← varintLoop r.pos r.pos 0 0 (r.b.drop r.pos)
  return (v, { r with pos := pos })

/-- A length; `usize` has 64 bits. -/
def len : CanonReader ℕ := do return (← varint).toNat

def hash : CanonReader Hash256 := fun r => do
  let (h, r) ← take 32 r
  if hlen : h.length = 32 then return (⟨h, hlen⟩, r)
  else .error (.panic ("copy_from_slice: source slice length does not match destination slice " ++
    "length"))

def noderef (nodesSoFar poolCount : ℕ) : CanonReader NodeRef := do
  let v ← varint
  let idx := v >>> 1
  if v &&& 1 = 1 then
    if idx.toNat ≥ poolCount then
      throw (.err s!"axbi: pool({idx}) out of range (pool has {poolCount})")
    else return .pool idx.toUInt32
  else
    if idx.toNat ≥ nodesSoFar then
      throw (.err s!"axbi: node({idx}) breaks the topological order (only {nodesSoFar} before it)")
    else return .node idx.toUInt32

def readEntry : CanonReader ConstantPoolEntry := do
  let defHash ← hash
  let n ← len
  let payload ← take n
  return ⟨defHash, ← .ofRes (toVec payload)⟩

def readName : CanonReader Str := do
  let n ← len
  let bytes ← take n
  let name ← .ofRes (toVec bytes)
  .ofRes (fromUtf8 "axbi: target name is not UTF-8" name)

/-- The node at index `i` of a bundle with `poolCount` constants. -/
def readNode (poolCount i : ℕ) : CanonReader Node := do
  let tag ← varint
  match tag.toNat with
  | 0 =>
    let targetName ← readName
    let targetIdentity ← hash
    let argc ← varint
    let args ← collect (fun _ => noderef i poolCount) 0 argc.toNat
    return .ccall targetIdentity (← .ofRes (toVec args)) targetName
  | 1 =>
    let cond ← noderef i poolCount
    let then_ ← noderef i poolCount
    let else_ ← noderef i poolCount
    return .cif cond then_ else_
  | 2 => return .cdeterminate
  | 3 => return .cblock
  | 4 =>
    let value ← noderef i poolCount
    return .cend value
  | k => throw (.err s!"axbi: unknown node kind tag {k}")

def readBundle : CanonReader CoreBundle := do
  let poolCount ← varint
  let constantPool ← collect (fun _ => readEntry) 0 poolCount.toNat
  let nodeCount ← varint
  let nodes ← collect (readNode poolCount.toNat) 0 nodeCount.toNat
  let result ← noderef nodeCount.toNat poolCount.toNat
  return ⟨"0.6", constantPool, nodes, result⟩

variable [Sha256]

def deserializeCanonical (bytes : Bytes) : Res CoreBundle := do
  let (bundle, r) ← readBundle ⟨bytes, 0⟩
  if r.pos ≠ bytes.length then
    .error (.err s!"axbi: {bytes.length - r.pos} trailing byte(s) after the result")
  else do
    let _ ← Res.mapErr (fun e => s!"axbi: {e}") (verifyBlocks bundle)
    return bundle

def isAxbi (bytes : Bytes) : Bool := bytes.length ≥ 4 && bytes.take 4 == AXBI_MAGIC

def parseAxbi (bytes : Bytes) : Res CoreBundle :=
  if ! isAxbi bytes then .error (.err "axbi: bad magic (not AXCI)")
  else if bytes.length ≥ 6 && bytes[4]? == some 0 && bytes[5]? == some 5 then
    .error (.err s!"axbi: {REFUSE_05}")
  else if bytes.length < 6 || bytes[4]? != some 0 || bytes[5]? != some 6 then
    .error (.err "axbi: unsupported IR version (this reader requires 0.6)")
  else deserializeCanonical (bytes.drop 6)

end AxisBridge
