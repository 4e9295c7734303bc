import AxisBridge.CoreIr.RoundTrip
import AxisBridge.Lib.Grammar
import AxisBridge.Runtime.Value

/-! The runtime's parser of `.coreir` bytes: from a list of bytes to a tree of values. -/
namespace AxisBridge

namespace Axbi
open Codec

/-- How the parser ends without a tree: at its UNKNOWN gate, in another panic, or in an allocation
that the memory has no room for. -/
inductive Halt
  | gate (msg : String)
  | panic (msg : String)
  | outOfMemory

def hardFail (msg : String) : Halt := .gate s!"axbi_parse UNKNOWN gate: {msg}"

def IR_MAJOR : UInt8 := 0

def IR_MINOR : UInt8 := 6

abbrev AxbiReader := Codec.Reader UInt8 Halt

/-- The loop of `readVarint`, over the bytes from `p` on. -/
def readVarintLoop (p shift : ℕ) (result : UInt64) : Bytes → Except Halt (UInt64 × ℕ)
  | [] => .error (hardFail "truncated varint")
  | byte :: rest =>
    let payload := (byte &&& 0x7f).toUInt64
    if shift ≥ 64 || (shift == 63 && payload > 1) then .error (hardFail "varint overflow")
    else
      let result := result ||| payload <<< .ofNat shift
      if byte &&& 0x80 = 0 then
        if byte == 0 && shift != 0 then .error (hardFail "non-minimal varint")
        else .ok (result, p + 1)
      else readVarintLoop (p + 1) (shift + 7) result rest

def readVarint : AxbiReader UInt64 := fun c => do
  let (v, p) ← readVarintLoop c.pos 0 0 (c.b.drop c.pos)
  return (v, { c with pos := p })

/-- The slice of the next `n` bytes; the sum that says where it ends wraps around. -/
def sliceOf (what : String) (n : UInt64) : AxbiReader Bytes := fun c =>
  let stop := (.ofNat c.pos + n).toNat
  if stop > c.b.length then .error (hardFail s!"truncated {what}")
  else if stop < c.pos then .error (.panic s!"slice index starts at {c.pos} but ends at {stop}")
  else .ok ((c.b.take stop).drop c.pos, { c with pos := stop })

/-- The bytes one value takes. -/
def VALUE_SIZE : ℕ := 32

/-- `Vec::with_capacity`, in a memory with room for `room` values in one vector. -/
def withCapacity (room : ℕ) (n : UInt64) : AxbiReader Unit :=
  if n.toNat * VALUE_SIZE ≥ 2 ^ 63 then throw (.panic "capacity overflow")
  else if n.toNat > room then throw .outOfMemory
  else return ()

def inputByte : Value → Except Halt UInt8
  | .int n =>
    if 0 ≤ n && n ≤ 255 then .ok n.toUInt64.toUInt8
    else .error (hardFail s!"byte value {n} out of 0..=255")
  | _ => .error (hardFail "byte list element is not Int")

def inputToBytes : Value → Except Halt Bytes
  | .list es => es.mapM inputByte
  | _ => .error (hardFail "axbi_parse: input must be a List of Int bytes")

def byteValue (byte : UInt8) : Value := .int byte.toUInt64.toInt64

def bytesToList (bytes : Bytes) : Value := .list (bytes.map byteValue)

def hexDigit (n : ℕ) : Char := "0123456789abcdef".toList.getD n '0'

def hexChars (bytes : Bytes) : List Char :=
  bytes.flatMap fun byte => [hexDigit (byte.toNat / 16), hexDigit (byte.toNat % 16)]

def hexStr (bytes : Bytes) : Value := .str (String.ofList (hexChars bytes))

def edgeValue (space : String) (idx : UInt32) : Value :=
  .tuple [.str space, .int idx.toUInt64.toInt64]

def readEdge (nodeIdx poolLen : UInt32) : AxbiReader Value := do
  let tagged ← readVarint
  let idx := (tagged >>> 1).toUInt32
  if tagged &&& 1 = 1 then
    if idx ≥ poolLen then throw (hardFail s!"pool edge {idx} out of range ({poolLen})")
    else return edgeValue "pool" idx
  else
    if idx ≥ nodeIdx then throw (hardFail s!"forward edge at node {nodeIdx}: references {idx}")
    else return edgeValue "node" idx

def readPoolEntry : AxbiReader Value := do
  let defHash ← sliceOf "def_hash" 32
  let payloadLen ← readVarint
  let payload ← sliceOf "payload" payloadLen
  return .tuple [hexStr defHash, bytesToList payload]

def readTargetName : AxbiReader Value := do
  let nameLen ← readVarint
  let name ← sliceOf "target_name" nameLen
  if h : name.toByteArray.IsValidUTF8 then return .str (String.ofByteArray name.toByteArray h)
  else throw (hardFail "target_name not valid UTF-8")

section
variable (internTag : String → UInt32) (room : ℕ)

def readNodeValue (poolLen i : UInt32) : AxbiReader Value := do
  let kind ← readVarint
  match kind.toNat with
  | 0 =>
    let name ← readTargetName
    let identity ← sliceOf "target_identity" 32
    let argCount ← readVarint
    withCapacity room argCount
    let args ← collect (fun _ => readEdge i poolLen) 0 argCount.toNat
    return .ctor (internTag "CCall") [name, hexStr identity, .list args]
  | 1 =>
    let cond ← readEdge i poolLen
    let then_ ← readEdge i poolLen
    let else_ ← readEdge i poolLen
    return .ctor (internTag "CIf") [cond, then_, else_]
  | 2 => return .ctor (internTag "CDeterminate") []
  | 3 => return .ctor (internTag "CBlock") []
  | 4 =>
    let value ← readEdge i poolLen
    return .ctor (internTag "CEnd") [value]
  | k => throw (hardFail s!"unknown node kind tag {k}")

/-- The counts are cut to 32 bits after the vectors are made. -/
def parseCanonical : AxbiReader Value := do
  let poolCount ← readVarint
  withCapacity room poolCount
  let pool ← collect (fun _ => readPoolEntry) 0 poolCount.toNat
  let nodeCount ← readVarint
  let poolLen := poolCount.toUInt32
  withCapacity room nodeCount
  let nodes ← collect (fun i => readNodeValue internTag room poolLen (asU32 i)) 0
    nodeCount.toUInt32.toNat
  let result ← readEdge nodeCount.toUInt32 poolLen
  return .tuple [.list pool, .list nodes, result]

def axbiParse (v : Value) : Except Halt Value := do
  let bytes ← inputToBytes v
  if bytes.length < 6 then .error (hardFail "input too short to be .coreir (need ≥ 6 bytes)")
  else if bytes.take 4 ≠ AXBI_MAGIC then
    .error (hardFail s!"bad magic {bytes.take 4}: expected b\"AXCI\"")
  else if bytes.getD 4 0 = 0 ∧ bytes.getD 5 0 = 5 then .error (hardFail REFUSE_05)
  else if bytes.getD 4 0 ≠ IR_MAJOR ∨ bytes.getD 5 0 ≠ IR_MINOR then
    .error (hardFail
      s!"unsupported IR version {bytes.getD 4 0}.{bytes.getD 5 0} (expected 0.6)")
  else return (← parseCanonical internTag room ⟨bytes.drop 6, 0⟩).1

end

/-- A byte string whose list of byte values fits a vector. -/
structure ByteString where
  bytes : Bytes
  fits : bytes.length * VALUE_SIZE < 2 ^ 63

def ByteString.toValue (input : ByteString) : Value := bytesToList input.bytes

/-! ### The tree of a bundle -/

def refValue : NodeRef → Value
  | .node i => edgeValue "node" i
  | .pool i => edgeValue "pool" i

def entryValue (entry : ConstantPoolEntry) : Value :=
  .tuple [hexStr entry.defHash.bytes, bytesToList entry.payload.toList]

variable (internTag : String → UInt32)

def nodeValue : Node → Value
  | .ccall targetIdentity args targetName => .ctor (internTag "CCall")
      [.str targetName.toString, hexStr targetIdentity.bytes, .list (args.toList.map refValue)]
  | .cif cond then_ else_ =>
    .ctor (internTag "CIf") [refValue cond, refValue then_, refValue else_]
  | .cdeterminate => .ctor (internTag "CDeterminate") []
  | .cblock => .ctor (internTag "CBlock") []
  | .cend value => .ctor (internTag "CEnd") [refValue value]

def bundleValue (bundle : CoreBundle) : Value :=
  .tuple [.list (bundle.constantPool.map entryValue),
    .list (bundle.nodes.map (nodeValue internTag)), refValue bundle.result]

end Axbi

end AxisBridge

/-! The two readers of `.coreir` bytes against one grammar: what each takes for a node, and where
the runtime's reader stops without its gate. -/
namespace AxisBridge
open List

namespace Axbi
open Codec

def Halt.Bad : Halt → Prop
  | .gate _ => False
  | .panic _ | .outOfMemory => True

variable {b : Bytes}

/-! ### Tokens -/

variable {bytes : Bytes} {c : Cursor UInt8} {n : UInt64}

theorem readVarintLoop_eq_ok : ∀ {start p shift : ℕ} {acc v : UInt64} {p' : ℕ}, start ≤ p →
    shift = 7 * (p - start) → (readVarintLoop p shift acc bytes = .ok (v, p') ↔
    varintLoop start p shift acc bytes = .ok (v, p')) := by
  induction bytes with
  | nil =>
    intro start p shift acc v p' _ _
    simp [readVarintLoop, varintLoop]
  | cons byte rest ih =>
    intro start p shift acc v p' hle hshift
    have hsame : ((byte &&& 0x7f).toUInt64 > 1) ↔ ((byte &&& 0x7f) > 1) := by
      simp only [gt_iff_lt, UInt64.lt_iff_toNat_lt, UInt8.lt_iff_toNat_lt, UInt8.toNat_toUInt64]
      rfl
    have hpad : (shift != 0) = decide (p + 1 - start > 1) := by
      rw [Bool.eq_iff_iff, bne_iff_ne, decide_eq_true_iff]
      omega
    simp only [readVarintLoop, varintLoop, hsame, hpad]
    split
    · simp
    · split
      · split
        · simp
        · simp
      · exact ih (by omega) (by omega)

theorem readVarintLoop_gate : ∀ {p shift : ℕ} {acc : UInt64} {e : Halt},
    readVarintLoop p shift acc bytes = .error e → ¬e.Bad := by
  induction bytes with
  | nil =>
    intro p shift acc e h
    cases h
    exact id
  | cons byte rest ih =>
    intro p shift acc e h
    simp only [readVarintLoop] at h
    split at h
    · cases h
      exact id
    · split at h
      · split at h
        · cases h
          exact id
        · cases h
      · exact ih h

theorem readVarint_eq_ok {c' : Cursor UInt8} {v : UInt64} :
    readVarint c = .ok (v, c') ↔ varint c = .ok (v, c') := by
  have hrun : readVarint c = .ok (v, c') ↔
      ∃ p, readVarintLoop c.pos 0 0 (c.b.drop c.pos) = .ok (v, p) ∧ c' = { c with pos := p } := by
    show (readVarintLoop c.pos 0 0 (c.b.drop c.pos) >>= fun r =>
      .ok (r.1, ({ c with pos := r.2 } : Cursor UInt8))) = _ ↔ _
    cases readVarintLoop c.pos 0 0 (c.b.drop c.pos) with
    | error e =>
      simp [Bind.bind, Except.bind]
    | ok r =>
      constructor
      · intro h
        cases h
        exact ⟨r.2, rfl, rfl⟩
      · rintro ⟨p, hp, rfl⟩
        cases hp
        rfl
  rw [hrun, varint_eq]
  simp only [readVarintLoop_eq_ok (le_refl c.pos) (by omega : 0 = 7 * (c.pos - c.pos))]

theorem derives_varint : Derives b varint (Coded writeVarint id fun _ => True) :=
  .coded reads_varint exact_varint

theorem derives_readVarint : Derives b readVarint (Coded writeVarint id fun _ => True) :=
  derives_varint.of_iff fun _ _ _ => readVarint_eq_ok

theorem faults_readVarint : Faults b Halt.Bad readVarint fun _ _ => False := by
  intro c _ _
  constructor
  · rintro ⟨e, hbad, he⟩
    have hloop : readVarintLoop c.pos 0 0 (c.b.drop c.pos) = .error e := by
      unfold readVarint at he
      cases hrun : readVarintLoop c.pos 0 0 (c.b.drop c.pos) with
      | error e' =>
        rw [hrun] at he
        cases he
        rfl
      | ok r =>
        rw [hrun] at he
        cases he
    exact (readVarintLoop_gate hloop hbad).elim
  · rintro ⟨w, hw, -⟩
    exact hw.elim

theorem toNat_stop {pos : ℕ} (hpos : pos < 2 ^ 63) :
    (.ofNat pos + n).toNat = if pos + n.toNat < 2 ^ 64 then pos + n.toNat
      else pos + n.toNat - 2 ^ 64 := by
  have hn := UInt64.toNat_lt n
  rw [UInt64.toNat_add, UInt64.toNat_ofNat']
  split <;> omega

/-- A slice ends where it says, unless the sum wraps around. -/
theorem sliceOf_of_lt (hb : b.length < 2 ^ 63) (what : String)
    (hcb : c.b = b) (hpos : c.pos ≤ b.length) (h : c.pos + n.toNat < 2 ^ 64) :
    sliceOf what n c = if c.pos + n.toNat ≤ b.length then
      .ok ((b.drop c.pos).take n.toNat, c.advance n.toNat) else
        .error (hardFail s!"truncated {what}") := by
  have hstop : (.ofNat c.pos + n).toNat = c.pos + n.toNat := by
    rw [toNat_stop (by omega), if_pos h]
  simp only [sliceOf, hstop, hcb]
  by_cases hle : c.pos + n.toNat ≤ b.length
  · rw [if_neg (by omega), if_neg (by omega), if_pos hle, drop_take, Nat.add_sub_cancel_left]
    rw [Cursor.advance, hcb]
  · rw [if_pos (by omega), if_neg hle]

theorem sliceOf_of_ge (what : String) (hb : b.length < 2 ^ 63)
    (hcb : c.b = b) (hpos : c.pos ≤ b.length) (h : 2 ^ 64 ≤ c.pos + n.toNat) :
    ∃ msg, sliceOf what n c = .error (.panic msg) := by
  have hn := UInt64.toNat_lt n
  have hstop : (.ofNat c.pos + n).toNat = c.pos + n.toNat - 2 ^ 64 := by
    rw [toNat_stop (by omega), if_neg (by omega)]
  simp only [sliceOf, hstop, hcb]
  rw [if_neg (by omega), if_pos (by omega)]
  exact ⟨_, rfl⟩

theorem derives_sliceOf (hb : b.length < 2 ^ 63) (what : String) (n : UInt64) :
    Derives b (sliceOf what n) fun w x => w.length = n.toNat ∧ x = w := by
  intro c c' x hcb hpos
  rcases lt_or_ge (c.pos + n.toNat) (2 ^ 64) with hlt | hge
  · rw [sliceOf_of_lt hb what hcb hpos hlt]
    constructor
    · intro h
      split at h
      · rename_i hle
        cases h
        have hlen : ((b.drop c.pos).take n.toNat).length = n.toNat := by
          rw [length_take, length_drop]
          omega
        have hspan := Spans.of_front (hcb.symm ▸ take_prefix n.toNat (b.drop c.pos) :
          (b.drop c.pos).take n.toNat <+: c.b.drop c.pos)
        rw [hlen] at hspan
        exact ⟨_, ⟨hlen, rfl⟩, hspan⟩
      · cases h
    · rintro ⟨w, ⟨hlen, rfl⟩, hspan⟩
      have hfits := hspan.pos_le (hcb.symm ▸ hpos)
      rw [hspan.bytes_eq, hcb, hspan.pos_eq, hlen] at hfits
      have hx : (b.drop c.pos).take n.toNat = x := by
        rw [← hcb, hspan.2, ← hlen, take_left]
      rw [if_pos hfits, hx, hspan.1, hlen]
  · obtain ⟨msg, hpanic⟩ := sliceOf_of_ge what hb hcb hpos hge
    rw [hpanic]
    refine iff_of_false (by simp) ?_
    rintro ⟨w, ⟨hlen, -⟩, hspan⟩
    have hfits := hspan.pos_le (hcb.symm ▸ hpos)
    rw [hspan.bytes_eq, hcb, hspan.pos_eq, hlen] at hfits
    omega

theorem faults_sliceOf (hb : b.length < 2 ^ 63) (what : String) (n : UInt64) :
    Faults b Halt.Bad (sliceOf what n) fun i w => w = [] ∧ 2 ^ 64 ≤ i + n.toNat := by
  intro c hcb hpos
  rcases lt_or_ge (c.pos + n.toNat) (2 ^ 64) with hlt | hge
  · rw [sliceOf_of_lt hb what hcb hpos hlt]
    refine iff_of_false ?_ ?_
    · rintro ⟨e, hbad, he⟩
      split at he
      · cases he
      · cases he
        exact hbad
    · rintro ⟨w, ⟨-, hge⟩, -⟩
      omega
  · obtain ⟨msg, hpanic⟩ := sliceOf_of_ge what hb hcb hpos hge
    exact iff_of_true ⟨.panic msg, trivial, hpanic⟩ ⟨[], ⟨rfl, hge⟩, nil_prefix⟩

/-- The most values `withCapacity` grants. -/
def mostValues (room : ℕ) : ℕ := min room (2 ^ 58 - 1)

theorem withCapacity_eq (room : ℕ) (n : UInt64) : withCapacity room n =
    if n.toNat ≤ mostValues room then return ()
    else if n.toNat * VALUE_SIZE ≥ 2 ^ 63 then
      throw (.panic "capacity overflow") else throw .outOfMemory := by
  have hsize : n.toNat * VALUE_SIZE ≥ 2 ^ 63 ↔ ¬n.toNat ≤ 2 ^ 58 - 1 := by
    show n.toNat * 32 ≥ 2 ^ 63 ↔ _
    omega
  unfold withCapacity mostValues
  by_cases hbig : n.toNat * VALUE_SIZE ≥ 2 ^ 63
  · rw [if_pos hbig, if_neg (by omega), if_pos hbig]
  · by_cases hroom : n.toNat > room
    · rw [if_neg hbig, if_pos hroom, if_neg (by omega), if_neg hbig]
    · rw [if_neg hbig, if_neg hroom, if_pos (by omega)]

theorem derives_withCapacity (room : ℕ) (n : UInt64) :
    Derives b (withCapacity room n) fun w _ => w = [] ∧ n.toNat ≤ mostValues room := by
  rw [withCapacity_eq]
  split
  · rename_i hle
    exact (Derives.pure ()).congr fun w x _ => ⟨fun h => ⟨h.1, hle⟩, fun h => ⟨h.1, rfl⟩⟩
  · rename_i hgt
    split <;> exact (Derives.throw _).congr fun w x _ => ⟨False.elim, fun h => hgt h.2⟩

theorem faults_withCapacity (room : ℕ) (n : UInt64) :
    Faults b Halt.Bad (withCapacity room n) fun _ w => w = [] ∧ mostValues room < n.toNat := by
  rw [withCapacity_eq]
  split
  · rename_i hle
    exact (Faults.pure ()).congr fun i w _ => ⟨False.elim, fun h => absurd h.2 (Nat.not_lt.mpr hle)⟩
  · rename_i hgt
    split <;> exact (Faults.throw (by trivial)).congr fun i w _ =>
      ⟨fun h => ⟨h, Nat.lt_of_not_le hgt⟩, fun h => h.1⟩

/-! ### References -/

/-- What a reference's varint stands for, its index cut to 32 bits. -/
def refOf (v : UInt64) : NodeRef :=
  if v &&& 1 = 1 then .pool (v >>> 1).toUInt32 else .node (v >>> 1).toUInt32

/-- The index itself is in range. -/
def CodeInRange (nodes pool : ℕ) (v : UInt64) : Prop :=
  if v &&& 1 = 1 then (v >>> 1).toNat < pool else (v >>> 1).toNat < nodes

theorem derives_noderef (nodes pool : ℕ) :
    Derives b (noderef nodes pool) (Coded writeVarint refOf (CodeInRange nodes pool)) := by
  refine derives_varint.decode fun v => ?_
  unfold refOf CodeInRange
  by_cases hodd : v &&& 1 = 1
  · simp only [if_pos hodd]
    exact (Derives.check _ _).congr fun w r _ => by rw [ge_iff_le, Nat.not_le]
  · simp only [if_neg hodd]
    exact (Derives.check _ _).congr fun w r _ => by rw [ge_iff_le, Nat.not_le]

theorem derives_readEdge (nodeIdx poolLen : UInt32) : Derives b (readEdge nodeIdx poolLen)
    (Coded writeVarint (fun v => refValue (refOf v))
      fun v => (refOf v).InRange nodeIdx.toNat poolLen.toNat) := by
  refine derives_readVarint.decode fun v => ?_
  unfold refOf
  by_cases hodd : v &&& 1 = 1
  · simp only [if_pos hodd]
    exact (Derives.check _ _).congr fun w r _ => by rw [ge_iff_le, UInt32.not_le]; rfl
  · simp only [if_neg hodd]
    exact (Derives.check _ _).congr fun w r _ => by rw [ge_iff_le, UInt32.not_le]; rfl

theorem faults_readEdge (nodeIdx poolLen : UInt32) :
    Faults b Halt.Bad (readEdge nodeIdx poolLen) fun _ _ => False := by
  have hcheck : ∀ v : UInt64, Faults b Halt.Bad
      (if v &&& 1 = 1 then
        if (v >>> 1).toUInt32 ≥ poolLen then
          throw (hardFail s!"pool edge {(v >>> 1).toUInt32} out of range ({poolLen})")
        else return edgeValue "pool" (v >>> 1).toUInt32
      else
        if (v >>> 1).toUInt32 ≥ nodeIdx then
          throw (hardFail s!"forward edge at node {nodeIdx}: references {(v >>> 1).toUInt32}")
        else return edgeValue "node" (v >>> 1).toUInt32 : AxbiReader Value) fun _ _ => False := by
    intro v
    split
    · exact Faults.check id _
    · exact Faults.check id _
  refine (faults_readVarint.bind derives_readVarint hcheck).congr fun i w _ => ⟨?_, False.elim⟩
  rintro (h | ⟨_, _, _, _, _, h⟩)
  · exact h
  · exact h

/-! ### Pool entries and names -/

theorem derives_sliceOf_hash (hb : b.length < 2 ^ 63) (what : String) :
    Derives b (sliceOf what 32) (Coded Hash256.bytes Hash256.bytes fun _ => True) := by
  refine (derives_sliceOf hb what 32).congr fun w x _ => ⟨?_, ?_⟩
  · rintro ⟨hlen, rfl⟩
    exact ⟨⟨x, hlen⟩, trivial, rfl, rfl⟩
  · rintro ⟨h, -, rfl, rfl⟩
    exact ⟨h.length_eq, rfl⟩

theorem faults_sliceOf_hash (hb : b.length < 2 ^ 63) (what : String) :
    Faults b Halt.Bad (sliceOf what 32) fun _ _ => False := by
  refine (faults_sliceOf hb what 32).congr fun i w hfits => ⟨?_, False.elim⟩
  rintro ⟨-, hge⟩
  have h32 : (32 : UInt64).toNat = 32 := rfl
  omega

theorem derives_bytes (hb : b.length < 2 ^ 63) (what : String) :
    Derives b (do let n ← readVarint; sliceOf what n)
      (Coded (fun v : Vec UInt8 => writeBytes v.toList) Vec.toList fun _ => True) := by
  refine (derives_readVarint.bind fun n => derives_sliceOf hb what n).congr fun w x hfits =>
    ⟨?_, ?_⟩
  · rintro ⟨_, _, w2, rfl, ⟨n, -, rfl, rfl⟩, hlen, rfl⟩
    have hlt : x.length < 2 ^ 63 := by
      rw [length_append] at hfits
      omega
    refine ⟨⟨x, hlt⟩, trivial, ?_, rfl⟩
    show _ = writeVarint (.ofNat x.length) ++ x
    rw [hlen, UInt64.ofNat_toNat]
  · rintro ⟨v, -, rfl, rfl⟩
    refine ⟨.ofNat v.toList.length, _, _, rfl, ⟨_, trivial, rfl, rfl⟩, ?_, rfl⟩
    rw [UInt64.toNat_ofNat', Nat.mod_eq_of_lt v.length_lt_two_pow_64]

/-- A declared length stops the reader when the end of its slice wraps around. -/
theorem faults_bytes (hb : b.length < 2 ^ 63) (what : String) :
    Faults b Halt.Bad (do let n ← readVarint; sliceOf what n)
      fun i w => ∃ n, w = writeVarint n ∧ 2 ^ 64 ≤ i + w.length + n.toNat := by
  refine (faults_readVarint.bind derives_readVarint fun n => faults_sliceOf hb what n).congr
    fun i w _ => ⟨?_, ?_⟩
  · rintro (h | ⟨_, _, _, rfl, ⟨n, -, rfl, rfl⟩, rfl, hge⟩)
    · exact h.elim
    · exact ⟨_, append_nil _, by rwa [append_nil]⟩
  · rintro ⟨n, rfl, hge⟩
    exact .inr ⟨n, _, [], (append_nil _).symm, ⟨n, trivial, rfl, rfl⟩, rfl, hge⟩

theorem bind_bytes {α : Type} (what : String) (f : Bytes → AxbiReader α) :
    (do let n ← readVarint; let bytes ← sliceOf what n; f bytes) =
      (do let n ← readVarint; sliceOf what n) >>= f := (bind_assoc ..).symm

theorem derives_readPoolEntry (hb : b.length < 2 ^ 63) :
    Derives b readPoolEntry (Coded writeEntry entryValue fun _ => True) := by
  unfold readPoolEntry
  simp only [bind_bytes]
  refine ((derives_sliceOf_hash hb _).bind fun h => (derives_bytes hb _).bind fun payload =>
    Derives.pure _).congr fun w y _ => ⟨?_, ?_⟩
  · rintro ⟨_, _, _, rfl, ⟨h, -, rfl, rfl⟩, _, _, _, rfl, ⟨v, -, rfl, rfl⟩, rfl, rfl⟩
    exact ⟨⟨h, v⟩, trivial, by rw [append_nil]; rfl, rfl⟩
  · rintro ⟨⟨h, v⟩, -, rfl, rfl⟩
    exact ⟨_, h.bytes, writeBytes v.toList, rfl, ⟨h, trivial, rfl, rfl⟩, _, _, [],
      (append_nil _).symm, ⟨v, trivial, rfl, rfl⟩, rfl, rfl⟩

theorem faults_readPoolEntry (hb : b.length < 2 ^ 63) : Faults b Halt.Bad readPoolEntry
    fun i w => ∃ (h : Hash256) (n : UInt64), w = h.bytes ++ writeVarint n ∧
      2 ^ 64 ≤ i + w.length + n.toNat := by
  unfold readPoolEntry
  simp only [bind_bytes]
  refine ((faults_sliceOf_hash hb _).bind (derives_sliceOf_hash hb _) fun h =>
    (faults_bytes hb _).bind (derives_bytes hb _) fun payload => Faults.pure _).congr
      fun i w _ => ⟨?_, ?_⟩
  · rintro (h | ⟨_, _, _, rfl, ⟨h, -, rfl, rfl⟩, ⟨n, rfl, hge⟩ | ⟨_, _, _, _, _, hf⟩⟩)
    · exact h.elim
    · refine ⟨h, n, rfl, ?_⟩
      rwa [length_append, ← add_assoc]
    · exact hf.elim
  · rintro ⟨h, n, rfl, hge⟩
    rw [length_append, ← add_assoc] at hge
    exact .inr ⟨_, h.bytes, writeVarint n, rfl, ⟨h, trivial, rfl, rfl⟩, .inl ⟨n, rfl, hge⟩⟩

/-- The texts that bytes can be decoded to. -/
theorem decoded_iff {v : Vec UInt8} {y : Value} :
    (∃ h, y = .str (String.ofByteArray v.toList.toByteArray h)) ↔
      ∃ s : Str, v.toList = s.asBytes ∧ y = .str s.toString := by
  constructor
  · rintro ⟨h, rfl⟩
    have hsize : (String.ofByteArray v.toList.toByteArray h).utf8ByteSize < 2 ^ 63 := by
      simpa [String.utf8ByteSize, size_toByteArray] using v.length_lt
    refine ⟨⟨_, hsize⟩, (@fromUtf8_eq_ok "" v _).mp (dif_pos h), rfl⟩
  · rintro ⟨s, hs, rfl⟩
    have hdecoded := (@fromUtf8_eq_ok "" v s).mpr hs
    unfold fromUtf8 at hdecoded
    split at hdecoded
    · rename_i h
      exact ⟨h, congrArg (Value.str ∘ Str.toString) (Except.ok.inj hdecoded).symm⟩
    · split at hdecoded <;> cases hdecoded

def writeName (s : Str) : Bytes := writeBytes s.asBytes

theorem derives_readName : Derives b readName (Coded writeName id fun _ => True) :=
  .coded reads_name exact_name

theorem derives_readTargetName (hb : b.length < 2 ^ 63) :
    Derives b readTargetName (Coded writeName (fun s => .str s.toString) fun _ => True) := by
  unfold readTargetName
  rw [bind_bytes]
  refine ((derives_bytes hb _).bind (H := fun x w y => w = [] ∧
    ∃ h, y = .str (String.ofByteArray x.toByteArray h)) fun x => ?_).congr fun w y _ => ⟨?_, ?_⟩
  · split
    · rename_i h
      exact (Derives.pure _).congr fun w y _ => ⟨fun hy => ⟨hy.1, h, hy.2⟩,
        fun hy => ⟨hy.1, hy.2.2⟩⟩
    · rename_i h
      exact (Derives.throw _).congr fun w y _ => ⟨False.elim, fun hy => h hy.2.1⟩
  · rintro ⟨_, _, _, rfl, ⟨v, -, rfl, rfl⟩, rfl, hy⟩
    obtain ⟨s, hs, rfl⟩ := decoded_iff.mp hy
    exact ⟨s, trivial, (append_nil _).trans (congrArg writeBytes hs), rfl⟩
  · rintro ⟨s, -, rfl, rfl⟩
    exact ⟨_, writeName s, [], (append_nil _).symm,
      ⟨⟨s.asBytes, s.length_asBytes⟩, trivial, rfl, rfl⟩, rfl, decoded_iff.mpr ⟨s, rfl, rfl⟩⟩

theorem faults_readTargetName (hb : b.length < 2 ^ 63) : Faults b Halt.Bad readTargetName
    fun i w => ∃ n, w = writeVarint n ∧ 2 ^ 64 ≤ i + w.length + n.toNat := by
  unfold readTargetName
  rw [bind_bytes]
  refine ((faults_bytes hb _).bind (derives_bytes hb _) (K := fun _ _ _ => False) fun x => ?_).congr
    fun i w _ => ⟨?_, .inl⟩
  · split
    · exact Faults.pure _
    · exact Faults.harmless id
  · rintro (h | ⟨_, _, _, _, _, h⟩)
    · exact h
    · exact h.elim

/-! ### Nodes -/

/-- A node with its references as they are written. -/
inductive RawNode
  | ccall (targetIdentity : Hash256) (args : Vec UInt64) (targetName : Str)
  | cif (cond then_ else_ : UInt64)
  | cdeterminate
  | cblock
  | cend (value : UInt64)

def RawNode.codes : RawNode → List UInt64
  | .ccall _ args _ => args.toList
  | .cif cond then_ else_ => [cond, then_, else_]
  | .cdeterminate => []
  | .cblock => []
  | .cend value => [value]

def RawNode.kind : RawNode → UInt64
  | .ccall .. => 0
  | .cif .. => 1
  | .cdeterminate => 2
  | .cblock => 3
  | .cend _ => 4

def RawNode.body : RawNode → Bytes
  | .ccall targetIdentity args targetName => writeName targetName ++ (targetIdentity.bytes ++
      (writeVarint (.ofNat args.toList.length) ++ encodeAll writeVarint args.toList))
  | .cif cond then_ else_ => writeVarint cond ++ (writeVarint then_ ++ writeVarint else_)
  | .cdeterminate => []
  | .cblock => []
  | .cend value => writeVarint value

def RawNode.encode (raw : RawNode) : Bytes := writeVarint raw.kind ++ raw.body

def RawNode.node : RawNode → Node
  | .ccall targetIdentity args targetName =>
    .ccall targetIdentity ⟨args.toList.map refOf, by simpa using args.length_lt⟩ targetName
  | .cif cond then_ else_ => .cif (refOf cond) (refOf then_) (refOf else_)
  | .cdeterminate => .cdeterminate
  | .cblock => .cblock
  | .cend value => .cend (refOf value)

def RawNode.All (P : UInt64 → Prop) (raw : RawNode) : Prop := ∀ v ∈ raw.codes, P v

/-- The references are in range. -/
def RawNode.Exact (pool i : ℕ) (raw : RawNode) : Prop := raw.All (CodeInRange i pool)

/-- The references with their indices cut to 32 bits are in range. -/
def RawNode.Narrow (pool i : ℕ) (raw : RawNode) : Prop := raw.All fun v => (refOf v).InRange i pool

def RawNode.argCount : RawNode → ℕ
  | .ccall _ args _ => args.toList.length
  | _ => 0

open RawNode (codes argCount Narrow)

section
variable {P : UInt64 → Prop} {u v t : UInt64}

theorem all_cif : (RawNode.cif u v t).All P ↔ P u ∧ P v ∧ P t := by
  simp [RawNode.All, codes]

theorem all_cend : (RawNode.cend v).All P ↔ P v := by
  simp [RawNode.All, codes]

theorem all_cdeterminate : RawNode.cdeterminate.All P := by
  simp [RawNode.All, codes]

theorem all_cblock : RawNode.cblock.All P := by
  simp [RawNode.All, codes]

end

section
variable {ε α β : Type} {edge : Reader UInt8 ε α} {value : UInt64 → α} {P : UInt64 → Prop}

theorem derives_one (h : Derives b edge (Coded writeVarint value P)) (g : α → β) :
    Derives b (do let x ← edge; return g x) fun w y => ∃ v, P v ∧ w = writeVarint v ∧
      y = g (value v) := by
  refine (h.bind fun x => Derives.pure (g x)).congr fun w y _ => ⟨?_, ?_⟩
  · rintro ⟨_, _, _, rfl, ⟨v, hv, rfl, rfl⟩, rfl, rfl⟩
    exact ⟨v, hv, append_nil _, rfl⟩
  · rintro ⟨v, hv, rfl, rfl⟩
    exact ⟨_, _, [], (append_nil _).symm, ⟨v, hv, rfl, rfl⟩, rfl, rfl⟩

theorem derives_three (h : Derives b edge (Coded writeVarint value P)) (g : α → α → α → β) :
    Derives b (do let x ← edge; let y ← edge; let z ← edge; return g x y z)
      fun w r => ∃ u v t, (P u ∧ P v ∧ P t) ∧
        w = writeVarint u ++ (writeVarint v ++ writeVarint t) ∧
          r = g (value u) (value v) (value t) := by
  refine (h.bind fun x => h.bind fun y => derives_one h (g x y)).congr fun w y _ => ⟨?_, ?_⟩
  · rintro ⟨_, _, _, rfl, ⟨u, hu, rfl, rfl⟩, _, _, _, rfl, ⟨v, hv, rfl, rfl⟩, t, ht, rfl, rfl⟩
    exact ⟨u, v, t, ⟨hu, hv, ht⟩, rfl, rfl⟩
  · rintro ⟨u, v, t, ⟨hu, hv, ht⟩, rfl, rfl⟩
    exact ⟨_, _, _, rfl, ⟨u, hu, rfl, rfl⟩, _, _, _, rfl, ⟨v, hv, rfl, rfl⟩, t, ht, rfl, rfl⟩

end

section
variable {α : Type} {value : RawNode → α} {Ok : RawNode → Prop} {k : UInt64} {w : Bytes} {y : α}

/-- The bodies of the nodes of one kind, kind by kind. -/
def Bodies (value : RawNode → α) (Ok : RawNode → Prop) (k : UInt64) : Bytes → α → Prop :=
  Coded RawNode.body value fun raw => raw.kind = k ∧ Ok raw

theorem bodies_ccall (hk : k.toNat = 0) : Bodies value Ok k w y ↔ ∃ targetIdentity args targetName,
    Ok (.ccall targetIdentity args targetName) ∧
      w = RawNode.body (.ccall targetIdentity args targetName) ∧
        y = value (.ccall targetIdentity args targetName) := by
  constructor
  · rintro ⟨raw, ⟨rfl, hok⟩, rfl, rfl⟩
    cases raw with
    | ccall targetIdentity args targetName =>
      exact ⟨targetIdentity, args, targetName, hok, rfl, rfl⟩
    | _ => cases hk
  · rintro ⟨targetIdentity, args, targetName, hok, rfl, rfl⟩
    exact ⟨.ccall targetIdentity args targetName, ⟨UInt64.toNat_inj.mp hk.symm, hok⟩, rfl, rfl⟩

theorem bodies_cif (hk : k.toNat = 1) : Bodies value Ok k w y ↔ ∃ cond then_ else_,
    Ok (.cif cond then_ else_) ∧ w = RawNode.body (.cif cond then_ else_) ∧
      y = value (.cif cond then_ else_) := by
  constructor
  · rintro ⟨raw, ⟨rfl, hok⟩, rfl, rfl⟩
    cases raw with
    | cif cond then_ else_ => exact ⟨cond, then_, else_, hok, rfl, rfl⟩
    | _ => cases hk
  · rintro ⟨cond, then_, else_, hok, rfl, rfl⟩
    exact ⟨.cif cond then_ else_, ⟨UInt64.toNat_inj.mp hk.symm, hok⟩, rfl, rfl⟩

theorem bodies_cdeterminate (hk : k.toNat = 2) :
    Bodies value Ok k w y ↔ Ok .cdeterminate ∧ w = [] ∧ y = value .cdeterminate := by
  constructor
  · rintro ⟨raw, ⟨rfl, hok⟩, rfl, rfl⟩
    cases raw with
    | cdeterminate => exact ⟨hok, rfl, rfl⟩
    | _ => cases hk
  · rintro ⟨hok, rfl, rfl⟩
    exact ⟨.cdeterminate, ⟨UInt64.toNat_inj.mp hk.symm, hok⟩, rfl, rfl⟩

theorem bodies_cblock (hk : k.toNat = 3) :
    Bodies value Ok k w y ↔ Ok .cblock ∧ w = [] ∧ y = value .cblock := by
  constructor
  · rintro ⟨raw, ⟨rfl, hok⟩, rfl, rfl⟩
    cases raw with
    | cblock => exact ⟨hok, rfl, rfl⟩
    | _ => cases hk
  · rintro ⟨hok, rfl, rfl⟩
    exact ⟨.cblock, ⟨UInt64.toNat_inj.mp hk.symm, hok⟩, rfl, rfl⟩

theorem bodies_cend (hk : k.toNat = 4) : Bodies value Ok k w y ↔ ∃ v,
    Ok (.cend v) ∧ w = writeVarint v ∧ y = value (.cend v) := by
  constructor
  · rintro ⟨raw, ⟨rfl, hok⟩, rfl, rfl⟩
    cases raw with
    | cend v => exact ⟨v, hok, rfl, rfl⟩
    | _ => cases hk
  · rintro ⟨v, hok, rfl, rfl⟩
    exact ⟨.cend v, ⟨UInt64.toNat_inj.mp hk.symm, hok⟩, rfl, rfl⟩

theorem not_bodies {n : ℕ} (hk : k.toNat = n + 5) : ¬Bodies value Ok k w y := by
  rintro ⟨raw, ⟨rfl, -⟩, -⟩
  cases raw <;> cases hk

end

theorem derives_ofRes {α : Type} (x : Res α) :
    Derives b (CanonReader.ofRes x) fun w y => w = [] ∧ x = .ok y := by
  intro c c' y _ _
  rw [ofRes_eq_ok]
  constructor
  · rintro ⟨hx, rfl⟩
    exact ⟨[], ⟨rfl, hx⟩, Spans.refl _⟩
  · rintro ⟨w, ⟨rfl, hx⟩, hspan⟩
    exact ⟨hx, hspan.1⟩

/-- What the strict reader takes for a node. -/
theorem derives_readNode (pool i : ℕ) :
    Derives b (readNode pool i) (Coded RawNode.encode RawNode.node (RawNode.Exact pool i)) := by
  refine derives_varint.tagged fun k => ?_
  have hedge := derives_noderef (b := b) i pool
  generalize hk : k.toNat = tag
  match tag with
  | 0 =>
    refine (derives_readName.bind fun name => (Derives.coded reads_hash exact_hash).bind fun h =>
      derives_varint.bind fun argc =>
        (Derives.collect (fun _ => hedge) 0 argc.toNat).bind fun args =>
        (derives_ofRes (toVec args)).bind fun v => Derives.pure _).congr fun w y _ => ?_
    refine Iff.trans ⟨?_, ?_⟩ (bodies_ccall hk).symm
    · rintro ⟨_, _, _, rfl, ⟨name, -, rfl, rfl⟩, _, _, _, rfl, ⟨h, -, rfl, rfl⟩, _, _, _, rfl,
        ⟨argc, -, rfl, rfl⟩, _, _, _, rfl, ⟨rs, ⟨hlen, hall⟩, rfl, rfl⟩, v, _, _, rfl, ⟨rfl, hv⟩,
          rfl, rfl⟩
      obtain ⟨args, hlt⟩ := v
      rw [toVec_eq_ok] at hv
      cases hv
      have hrs : rs.length < 2 ^ 63 := by rwa [length_map] at hlt
      refine ⟨_, ⟨rs, hrs⟩, _, allFrom_const.mp hall, ?_, rfl⟩
      rw [append_nil, append_nil, RawNode.body, hlen, UInt64.ofNat_toNat]
    · rintro ⟨h, args, name, hok, rfl, rfl⟩
      refine ⟨name, _, _, rfl, ⟨name, trivial, rfl, rfl⟩, h, _, _, rfl, ⟨h, trivial, rfl, rfl⟩, _,
        _, _, rfl,
        ⟨_, trivial, rfl, rfl⟩, args.toList.map refOf, encodeAll writeVarint args.toList, [],
        (append_nil _).symm, ⟨args.toList, ⟨?_, allFrom_const.mpr hok⟩, rfl, rfl⟩, _, [], [], rfl,
        ⟨rfl, toVec_eq_ok.mpr rfl⟩, rfl, rfl⟩
      rw [id_eq, UInt64.toNat_ofNat', Nat.mod_eq_of_lt args.length_lt_two_pow_64]
  | 1 =>
    refine (derives_three hedge Node.cif).congr fun w y _ => Iff.trans ?_ (bodies_cif hk).symm
    simp only [RawNode.Exact, all_cif]
    rfl
  | 2 =>
    refine (Derives.pure _).congr fun w y _ => Iff.trans ?_ (bodies_cdeterminate hk).symm
    rw [and_iff_right (show RawNode.cdeterminate.Exact pool i from all_cdeterminate)]
    rfl
  | 3 =>
    refine (Derives.pure _).congr fun w y _ => Iff.trans ?_ (bodies_cblock hk).symm
    rw [and_iff_right (show RawNode.cblock.Exact pool i from all_cblock)]
    rfl
  | 4 =>
    refine (derives_one hedge Node.cend).congr fun w y _ => Iff.trans ?_ (bodies_cend hk).symm
    simp only [RawNode.Exact, all_cend]
    rfl
  | k + 5 => exact (Derives.throw _).congr fun w y _ => iff_of_false id (not_bodies hk)

variable {internTag : String → UInt32} {room : ℕ} {poolLen i : UInt32}

theorem nodeValue_ccall (internTag : String → UInt32) (h : Hash256) (args : Vec UInt64)
    (name : Str) : nodeValue internTag (RawNode.node (.ccall h args name)) =
    .ctor (internTag "CCall") [.str name.toString, hexStr h.bytes,
    .list (args.toList.map fun v => refValue (refOf v))] := by
  simp only [RawNode.node, nodeValue, map_map]
  rfl

/-- What the runtime's reader takes for a node. -/
theorem derives_readNodeValue (hb : b.length < 2 ^ 63) :
    Derives b (readNodeValue internTag room poolLen i) (Coded RawNode.encode
      (fun raw => nodeValue internTag raw.node)
        fun raw => raw.Narrow poolLen.toNat i.toNat ∧ raw.argCount ≤ mostValues room) := by
  refine derives_readVarint.tagged fun k => ?_
  have hedge := derives_readEdge (b := b) i poolLen
  generalize hk : k.toNat = tag
  match tag with
  | 0 =>
    refine ((derives_readTargetName hb).bind fun name => (derives_sliceOf_hash hb _).bind fun h =>
      derives_readVarint.bind fun argc => (derives_withCapacity room argc).bind fun _ =>
        (Derives.collect (fun _ => hedge) 0 argc.toNat).bind fun args => Derives.pure _).congr fun w
          y hfits => ?_
    refine Iff.trans ⟨?_, ?_⟩ (bodies_ccall hk).symm
    · rintro ⟨_, _, _, rfl, ⟨name, -, rfl, rfl⟩, _, _, _, rfl, ⟨h, -, rfl, rfl⟩, _, _, _, rfl,
        ⟨argc, -, rfl, rfl⟩, _, _, _, rfl, ⟨rfl, hgrant⟩, _, _, _, rfl,
          ⟨rs, ⟨hlen, hall⟩, rfl, rfl⟩, rfl, rfl⟩
      have hrs : rs.length < 2 ^ 63 := by
        have hmost : mostValues room ≤ 2 ^ 58 - 1 := min_le_right _ _
        omega
      refine ⟨h, ⟨rs, hrs⟩, name, ⟨allFrom_const.mp hall, hlen.trans_le hgrant⟩, ?_,
        (nodeValue_ccall internTag h ⟨rs, hrs⟩ name).symm⟩
      simp [RawNode.body, hlen]
    · rintro ⟨h, args, name, ⟨hok, hgrant⟩, rfl, rfl⟩
      have hcount : (UInt64.ofNat args.toList.length).toNat = args.toList.length := by
        rw [UInt64.toNat_ofNat', Nat.mod_eq_of_lt args.length_lt_two_pow_64]
      refine ⟨_, _, _, rfl, ⟨name, trivial, rfl, rfl⟩, _, _, _, rfl, ⟨h, trivial, rfl, rfl⟩, _, _,
        _, rfl, ⟨_, trivial, rfl, rfl⟩, (), [], _, rfl, ⟨rfl, hcount.trans_le hgrant⟩, _,
        encodeAll writeVarint args.toList, [],
        (append_nil _).symm, ⟨args.toList, ⟨hcount.symm, allFrom_const.mpr hok⟩, rfl, rfl⟩, rfl,
        nodeValue_ccall internTag h args name⟩
  | 1 =>
    refine (derives_three hedge _).congr fun w y _ => Iff.trans ?_ (bodies_cif hk).symm
    simp only [Narrow, all_cif, argCount, zero_le, and_true]
    rfl
  | 2 =>
    refine (Derives.pure _).congr fun w y _ => Iff.trans ?_ (bodies_cdeterminate hk).symm
    simp only [Narrow, all_cdeterminate, argCount, zero_le, true_and]
    rfl
  | 3 =>
    refine (Derives.pure _).congr fun w y _ => Iff.trans ?_ (bodies_cblock hk).symm
    simp only [Narrow, all_cblock, argCount, zero_le, true_and]
    rfl
  | 4 =>
    refine (derives_one hedge _).congr fun w y _ => Iff.trans ?_ (bodies_cend hk).symm
    simp only [Narrow, all_cend, argCount, zero_le, and_true]
    rfl
  | k + 5 => exact (Derives.throw _).congr fun w y _ => iff_of_false id (not_bodies hk)

theorem faults_edges (count : ℕ) :
    Faults b Halt.Bad (collect (fun _ => readEdge i poolLen) 0 count) fun _ _ => False := by
  refine (Faults.collect (fun _ => derives_readEdge i poolLen) (fun _ => faults_readEdge i poolLen)
    0 count).congr fun at_ w _ => ⟨?_, False.elim⟩
  rintro ⟨_, _, _, _, _, h⟩
  exact h

/-- The fronts of a call at which the reader stops: a name's length that wraps around, a count of
arguments that is not granted. -/
def CallFault (room at_ : ℕ) (w : Bytes) : Prop :=
  (∃ n, w = writeVarint n ∧ 2 ^ 64 ≤ at_ + w.length + n.toNat) ∨
  ∃ (name : Str) (h : Hash256) (n : UInt64), mostValues room < n.toNat ∧
    w = writeName name ++ (h.bytes ++ writeVarint n)

/-- Where the runtime's reader stops in a node without its gate. -/
theorem faults_readNodeValue (hb : b.length < 2 ^ 63) :
    Faults b Halt.Bad (readNodeValue internTag room poolLen i) fun at_ w =>
      ∃ w', w = writeVarint 0 ++ w' ∧ CallFault room (at_ + (writeVarint 0).length) w' := by
  have hedge := derives_readEdge (b := b) i poolLen
  have hquiet := faults_readEdge (b := b) i poolLen
  refine (faults_readVarint.behind derives_readVarint
    (K := fun k at_ w => k.toNat = 0 ∧ CallFault room at_ w)
    fun k => ?_).congr fun at_ w _ => ⟨?_, ?_⟩
  · generalize hk : k.toNat = tag
    match tag with
    | 0 =>
      refine ((faults_readTargetName hb).bind (derives_readTargetName hb) fun name =>
        (faults_sliceOf_hash hb _).behind (derives_sliceOf_hash hb _) fun h =>
          faults_readVarint.behind derives_readVarint fun argc =>
            (faults_withCapacity room argc).front (derives_withCapacity room argc) fun _ =>
              (faults_edges argc.toNat).front
                (Derives.collect (fun _ => hedge) 0 argc.toNat) fun args =>
                Faults.pure _).congr fun at_ w _ => ⟨?_, ?_⟩
      · rintro (hname | ⟨_, _, _, rfl, ⟨name, -, rfl, rfl⟩, h, _, -, rfl, n, _, -, rfl, rfl, hgt⟩)
        · exact ⟨rfl, .inl hname⟩
        · exact ⟨rfl, .inr ⟨name, h, n, hgt, by rw [append_nil]⟩⟩
      · rintro ⟨-, hname | ⟨name, h, n, hgt, rfl⟩⟩
        · exact .inl hname
        · exact .inr ⟨_, _, _, rfl, ⟨name, trivial, rfl, rfl⟩, h, _, trivial, rfl, n, [], trivial,
            (append_nil _).symm, rfl, hgt⟩
    | 1 =>
      exact (hquiet.front hedge fun _ => hquiet.front hedge fun _ => hquiet.front hedge fun _ =>
        Faults.pure _).congr fun at_ w _ => ⟨False.elim, fun h => absurd h.1 (by omega)⟩
    | 2 | 3 =>
      exact (Faults.pure _).congr fun at_ w _ => ⟨False.elim, fun h => absurd h.1 (by omega)⟩
    | 4 =>
      exact (hquiet.front hedge fun _ => Faults.pure _).congr fun at_ w _ =>
        ⟨False.elim, fun h => absurd h.1 (by omega)⟩
    | k + 5 =>
      exact (Faults.harmless id).congr fun at_ w _ => ⟨False.elim, fun h => absurd h.1 (by omega)⟩
  · rintro ⟨k, w', -, rfl, hk, hcall⟩
    have hzero : k = 0 := UInt64.toNat_inj.mp hk
    subst hzero
    exact ⟨w', rfl, hcall⟩
  · rintro ⟨w', rfl, hcall⟩
    exact ⟨0, w', trivial, rfl, rfl, hcall⟩

end Axbi

end AxisBridge
