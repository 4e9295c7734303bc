import AxisBridge.Runtime.Text

/-! Raw blocks: frames around what the client sent, and the rows derived from them. -/
namespace AxisBridge
open String

/-- What the standard library does by Unicode tables: `str::to_uppercase` and
`String::from_utf8_lossy`. -/
class StdText where
  toUppercase : String → String
  fromUtf8Lossy : Bytes → String

open StdText (toUppercase fromUtf8Lossy)

/-- The same for ASCII letters and valid UTF-8. -/
@[reducible] def plainText : StdText where
  toUppercase s := ofList (s.toList.map Char.toUpper)
  fromUtf8Lossy bs := (strFromUtf8 bs).getD ""

/-! ### Texts -/

/-- The characters in front of the first place where `pat` stands. -/
def charsBefore (pat : List Char) : List Char → Option (List Char)
  | [] => if pat = [] then some [] else none
  | c :: cs => if pat <+: c :: cs then some [] else (charsBefore pat cs).map (c :: ·)

/-- `str::find`, in bytes. -/
def findText (text pat : String) : Option ℕ :=
  (charsBefore pat.toList text.toList).map fun before => (textBytes (ofList before)).length

def isCharBoundary (s : String) (i : ℕ) : Bool :=
  match (textBytes s)[i]? with
  | some b => b < 0x80 || 0xC0 ≤ b
  | none => i == (textBytes s).length

/-- `str::get` of a range of bytes. -/
def getRange (s : String) (start stop : ℕ) : Option String :=
  if start ≤ stop ∧ isCharBoundary s start ∧ isCharBoundary s stop then
    strFromUtf8 (((textBytes s).take stop).drop start)
  else none

def sBefore (s : String) (sep : Char) : String :=
  match splitOnce sep s with
  | some (before, _) => before
  | none => s

def sAfter (s : String) (sep : Char) : String :=
  match splitOnce sep s with
  | some (_, after) => after
  | none => ""

def withoutQuotes (s : String) : String := ofList (s.toList.filter (· ≠ '\''))

/-! ### Frames -/

namespace RawBlk

/-- `b"RAWF1"`. -/
def MAGIC : Bytes := [82, 65, 87, 70, 49]

/-- `b"RAWEND"`. -/
def SENTINEL : Bytes := [82, 65, 87, 69, 78, 68]

def HDR : ℕ := 36

def OVERHEAD : ℕ := 42

/-- Decimal digits, as a `u64`. -/
def dec (b : Bytes) : Option ℕ :=
  b.foldl (fun n c => n.bind fun n =>
    if 48 ≤ c ∧ c ≤ 57 ∧ n * 10 + (c.toNat - 48) < 2 ^ 64 then some (n * 10 + (c.toNat - 48))
    else none) (some 0)

structure RawFrame where
  kind : UInt8
  ts : ℤ
  payload : Bytes
  deriving DecidableEq

/-- The frame that stands at the start of the bytes, if it is intact. -/
def frameAt (bs : Bytes) : Option RawFrame :=
  if OVERHEAD ≤ bs.length ∧ bs.take 5 = MAGIC then
    (dec ((bs.drop 6).take 20)).bind fun ts =>
      (dec ((bs.drop 26).take 10)).bind fun plen =>
        if OVERHEAD + plen ≤ bs.length ∧ (bs.drop (HDR + plen)).take 6 = SENTINEL then
          some ⟨bs.getD 5 0, (ts : ℤ).bmod (2 ^ 64), (bs.drop HDR).take plen⟩
        else none
  else none

def parseLoop (data : Bytes) : ℕ → ℕ → List RawFrame × ℕ
  | 0, off => ([], off)
  | fuel + 1, off =>
    match frameAt (data.drop off) with
    | none => ([], off)
    | some f =>
      let later := parseLoop data fuel (off + OVERHEAD + f.payload.length)
      (f :: later.1, later.2)

/-- The frames of a block up to the first that is not intact, and where they end. -/
def parseRawFrames (data : Bytes) : List RawFrame × ℕ := parseLoop data data.length 0

/-! ### Rows -/

/-- A table and its columns. -/
abbrev Shape := String × List String

variable [StdText]

/-- The values of an insert beside its columns. -/
def recordLoop : ℕ → String → String → String → String
  | 0, _, _, record => record
  | guard + 1, cols, vals, record =>
    if trim cols = "" then record
    else
      recordLoop guard (sAfter cols ',') (sAfter vals ',')
        (record ++ "\t" ++ trim (sBefore cols ',') ++ "=" ++ withoutQuotes
          (trim (sBefore vals ',')))

/-- The name and the record of an insert as the client wrote it. -/
def deriveA (q : String) : Option (String × String) :=
  let cols := sBefore (sAfter q '(') ')'
  let pastCols := sAfter (sAfter q '(') ')'
  let vals := sBefore (sAfter pastCols '(') ')'
  if trim cols = "" then none
  else do
    let record := recordLoop 1000000 cols vals "RECORD"
    let u := toUppercase q
    let si ← findText u "INTO"
    let ei ← findText u "("
    let table ← getRange q (si + 4) (max ei (si + 4))
    some (trim table ++ ":" ++ withoutQuotes (trim (sBefore vals ',')), record)

/-- `u16::from_be_bytes`, `u32::from_be_bytes`. -/
def fromBeBytes (bs : Bytes) : ℕ := bs.foldl (fun n b => n * 256 + b.toNat) 0

/-- `i32::from_be_bytes`. -/
def i32FromBe (bs : Bytes) : ℤ := (fromBeBytes bs : ℤ).bmod (2 ^ 32)

def paramLoop : ℕ → Bytes → Option (List String)
  | 0, _ => some []
  | n + 1, bs =>
    if bs.length < 4 then none
    else
      let l := i32FromBe (bs.take 4)
      let rest := bs.drop 4
      if l < 0 then (paramLoop n rest).map ("" :: ·)
      else if l.toNat > rest.length then none
      else (paramLoop n (rest.drop l.toNat)).map (fromUtf8Lossy (rest.take l.toNat) :: ·)

/-- The parameters of a bind message: how many, and each with its length in front. -/
def decodeParams (sec : Bytes) : Option (List String) :=
  if sec.length < 2 then none else paramLoop (fromBeBytes (sec.take 2)) (sec.drop 2)

/-- The name and the record of a row of this shape. -/
def rowOf (shape : Shape) (vals : List String) : String × String :=
  (shape.1 ++ ":" ++ vals.headD "",
    shape.2.zipIdx.foldl
      (fun record c => record ++ "\t" ++ c.1 ++ "=" ++ (vals[c.2]?).getD "") "RECORD")

/-- The name and the record of the parameters of a prepared insert. -/
def deriveB (payload : Bytes) (shapes : ℕ → Option Shape) : Option (String × String) :=
  if payload.length < 20 then none
  else do
    let id ← dec (payload.take 20)
    let shape ← shapes id
    let vals ← decodeParams (payload.drop 20)
    some (rowOf shape vals)

/-! ### The log of the shapes -/

/-- The line of a shape in the log. -/
def shapeLine (id : ℕ) (shape : Shape) : String :=
  toString id ++ "\t" ++ shape.1 ++ "\t" ++ ",".intercalate shape.2

/-- FNV-1a over the shape's text, without the sign bit. -/
def shapeId (shape : Shape) : ℕ :=
  ((textBytes (shape.1 ++ "\t" ++ ",".intercalate shape.2)).foldl
    (fun h b => (h ^^^ b.toUInt64) * 0x100000001b3) 0xcbf29ce484222325 &&&
      (0x7fffffffffffffff : UInt64)).toNat

/-- What a line of the log says, if it says anything. -/
def parseShapeLine (line : String) : Option (ℕ × Shape) :=
  match split '\t' line with
  | id :: table :: cols :: _ => (parseUsize id).map fun id => (id, table, split ',' cols)
  | _ => none

def loadShapes (log : Bytes) : ℕ → Option Shape :=
  match strFromUtf8 log with
  | none => fun _ => none
  | some txt => ((lines txt).filterMap parseShapeLine).foldl
      (fun m e => Function.update m e.1 (some e.2)) fun _ => none

end RawBlk

end AxisBridge
