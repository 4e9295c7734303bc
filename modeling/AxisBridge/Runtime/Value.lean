import Mathlib.Algebra.Group.Nat.Defs
import Mathlib.Data.List.Infix

/-! Runtime values, and the text functions of the standard library the runtime calls. -/
namespace AxisBridge
open String

/-- A runtime value; maps are handles into their tables, a decimal is a mantissa and its scale. -/
inductive Value
  | localMap (id : ℕ)
  | frozenMap (id : ℕ)
  | int (n : Int64)
  | bool (b : Bool)
  | str (s : String)
  | unit
  | tuple (items : List Value)
  | list (items : List Value)
  | ctor (tag : UInt32) (fields : List Value)
  | dec (mantissa : ℤ) (scale : ℕ)
  | float (bits : UInt64)
  | bytes (data : List UInt8)

def UNKNOWN_TAG : UInt32 := 0xFFFFFFF0

def ERR_TAG : UInt32 := 0xFFFFFFF1

def isErr : Value → Bool
  | .ctor tag _ => tag == ERR_TAG
  | _ => false

def isUnknown : Value → Bool
  | .ctor tag _ => tag == UNKNOWN_TAG
  | _ => false

def unknown (kind builtin message location : String) : Value :=
  .ctor UNKNOWN_TAG [.str kind, .str builtin, .str message, .str location]

/-- `debug` gives the text of `{:?}`. -/
def asInt (debug : Value → String) : Value → Except String Int64
  | .int n => .ok n
  | other => .error s!"expected Int, got {debug other}"

/-- A copy of the memory; no bytes come before the region or in a negative number. -/
def memReadRaw (mem : ℤ → UInt8) (ptr offset length : ℤ) : Option (List UInt8) :=
  if offset < 0 ∨ length < 0 then none
  else some ((List.range length.toNat).map fun i : ℕ => mem (ptr + offset + i))

/-- The Unicode `White_Space` property. -/
def isWhitespace (c : Char) : Bool :=
  let n := c.toNat
  (0x9 ≤ n && n ≤ 0xd) || n == 0x20 || n == 0x85 || n == 0xa0 || n == 0x1680 ||
    (0x2000 ≤ n && n ≤ 0x200a) || n == 0x2028 || n == 0x2029 || n == 0x202f || n == 0x205f ||
    n == 0x3000

/-- The pieces of a text between the characters `sep`. -/
def splitChars (sep : Char) : List Char → List (List Char)
  | [] => [[]]
  | c :: cs =>
    match splitChars sep cs with
    | [] => [[]]
    | piece :: pieces => if c == sep then [] :: piece :: pieces else (c :: piece) :: pieces

def split (sep : Char) (s : String) : List String := (splitChars sep s.toList).map ofList

/-- A line without its carriage return. -/
def chopReturn (line : String) : String :=
  if line.toList.getLast? = some '\r' then ofList line.toList.dropLast else line

/-- The lines of a text: a final line feed ends the last line instead of starting another, and a
carriage return belongs to the end of a line only in front of a line feed. -/
def lines (text : String) : List String :=
  let pieces := split '\n' text
  let unended := if pieces.getLast? = some "" then [] else pieces.getLast?.toList
  pieces.dropLast.map chopReturn ++ unended

def trimStart (s : String) : String := ofList (s.toList.dropWhile isWhitespace)

def trim (s : String) : String :=
  ofList (((s.toList.dropWhile isWhitespace).reverse.dropWhile isWhitespace).reverse)

def containsText (text fragment : String) : Bool := decide (fragment.toList <:+: text.toList)

end AxisBridge
