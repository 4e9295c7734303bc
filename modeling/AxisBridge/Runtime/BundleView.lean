import AxisBridge.CoreIr.RoundTrip
import AxisBridge.CoreIr.VerifyTotal
import AxisBridge.Runtime.Hex
import AxisBridge.Runtime.Substitution

/-! Bundles as runtime values, and which values are read as a bundle. -/
namespace AxisBridge.IrBundle
open List
open IrEval (makeCtor)
open Res

/-- What the constructors of a bundle's value are told apart by. -/
inductive Part
  | bundle05
  | poolRef
  | nodeRef
  | ccall
  | cif
  | cdeterminate
  | cblock
  | cend
  | other
  deriving DecidableEq

def Part.of : String → Part
  | "Bundle05" => .bundle05
  | "PoolRef" => .poolRef
  | "NodeRef" => .nodeRef
  | "CCall" => .ccall
  | "CIf" => .cif
  | "CDeterminate" => .cdeterminate
  | "CBlock" => .cblock
  | "CEnd" => .cend
  | _ => .other

def Part.name : Part → String
  | .bundle05 => "Bundle05"
  | .poolRef => "PoolRef"
  | .nodeRef => "NodeRef"
  | .ccall => "CCall"
  | .cif => "CIf"
  | .cdeterminate => "CDeterminate"
  | .cblock => "CBlock"
  | .cend => "CEnd"
  | .other => "Unknown"

/-- The interned names of tags once those of a bundle's parts are among them; a tag keeps its
name. -/
structure Tags extends IrEval.TagTable where
  interned : ∀ part : Part, part ≠ .other → part.name ∈ names

def Tags.part (tags : Tags) (tag : UInt32) : Part := Part.of (tags.getTagName tag)

def bytesToHex (bytes : Bytes) : String :=
  String.ofList (bytes.flatMap fun b => [hexDigit (b.toNat / 16), hexDigit (b.toNat % 16)])

/-- The files of a machine. -/
abbrev Disk := String → Option Bytes

/-- Text of no more bytes than Rust allows. -/
def toStr (s : String) : Res Str :=
  if h : s.utf8ByteSize < 2 ^ 63 then .ok ⟨s, h⟩ else .error (.panic "capacity overflow")

section
variable (tags : Tags)

def refValue : NodeRef → Value
  | .pool i => makeCtor tags.toTagTable "PoolRef" [.int (.ofNat i.toNat)]
  | .node i => makeCtor tags.toTagTable "NodeRef" [.int (.ofNat i.toNat)]

def entryValue (e : ConstantPoolEntry) : Value :=
  .tuple [.str (hash256ToHex e.defHash), .str (bytesToHex e.payload.toList)]

def nodeValue : Node → Value
  | .ccall targetIdentity args targetName => makeCtor tags.toTagTable "CCall"
    [.str (hash256ToHex targetIdentity), .str targetName.toString,
    .list (args.toList.map (refValue tags))]
  | .cif cond then_ else_ =>
    makeCtor tags.toTagTable "CIf" [refValue tags cond, refValue tags then_, refValue tags else_]
  | .cdeterminate => makeCtor tags.toTagTable "CDeterminate" []
  | .cblock => makeCtor tags.toTagTable "CBlock" []
  | .cend value => makeCtor tags.toTagTable "CEnd" [refValue tags value]

def valueFromBundle05 (bundle : CoreBundle) : Value :=
  makeCtor tags.toTagTable "Bundle05" [.list (bundle.constantPool.map entryValue),
    .list (bundle.nodes.map (nodeValue tags)), refValue tags bundle.result]

-- `debug` is the `Debug` text of a value, which only error messages show
variable (debug : Value → String)

def parseNr (ctx : String) : Value → Res NodeRef
  | .ctor tag fields =>
    match tags.part tag, fields with
    | .poolRef, [.int i] => .ok (.pool (UInt32.ofInt i.toInt))
    | .nodeRef, [.int i] => .ok (.node (UInt32.ofInt i.toInt))
    | _, fields => .error (.err s!"{ctx}: expected PoolRef/NodeRef, got {debug (.ctor tag fields)}")
  | r => .error (.err s!"{ctx}: expected Ctor noderef, got {debug r}")

def parseDefHash (i : ℕ) : Value → Res Hash256
  | .str s => mapErr (fun e => s!"pool[{i}] def_hash: {e}") (hexToHash256 s)
  | other => .error (.err s!"pool[{i}]: expected Str def_hash, got {debug other}")

def parsePayload (i : ℕ) : Value → Res Bytes
  | .str s => mapErr (fun e => s!"pool[{i}] payload: {e}") (hexToBytes s)
  | other => .error (.err s!"pool[{i}]: expected Str payload, got {debug other}")

def parseEntry (i : ℕ) : Value → Res ConstantPoolEntry
  | .tuple [first, second] => do
    let defHash ← parseDefHash debug i first
    let payload ← parsePayload debug i second
    return ⟨defHash, ← toVec payload⟩
  | e => .error (.err s!"pool[{i}]: expected Tuple([Str, Str]), got {debug e}")

def parseCall (i : ℕ) (hexId tgtName : String) (argRefs : List Value) : Res Node := do
  let targetIdentity ← mapErr (fun e => s!"node[{i}] CCall identity: {e}") (hexToHash256 hexId)
  let targetName ← toStr tgtName
  let args ← argRefs.zipIdx.mapM fun (r, j) => parseNr tags debug s!"node[{i}] arg[{j}]" r
  return .ccall targetIdentity (← toVec args) targetName

def parseNode (i : ℕ) : Value → Res Node
  | .ctor tag fields =>
    match tags.part tag, fields with
    | .ccall, [.str hexId, .str tgtName, .list argRefs] =>
      parseCall tags debug i hexId tgtName argRefs
    | .cif, [cond, then_, else_] => do
      let cond ← parseNr tags debug s!"node[{i}] CIf cond" cond
      let then_ ← parseNr tags debug s!"node[{i}] CIf then" then_
      let else_ ← parseNr tags debug s!"node[{i}] CIf else" else_
      return .cif cond then_ else_
    | .cdeterminate, [] => .ok .cdeterminate
    | .cblock, [] => .ok .cblock
    | .cend, [value] => do
      let value ← parseNr tags debug s!"node[{i}] CEnd value" value
      return .cend value
    | _, fields => .error (.err s!"node[{i}]: unknown shape {debug (.ctor tag fields)}")
  | n => .error (.err s!"node[{i}]: expected Ctor, got {debug n}")

/-- `value_to_bundle_05` up to the block rules. -/
def parseBundle : Value → Res CoreBundle
  | .ctor tag fields =>
    match tags.part tag, fields with
    | .bundle05, [.list pool, .list nodes, r] => do
      let constantPool ← pool.zipIdx.mapM fun (e, i) => parseEntry debug i e
      let nodes ← nodes.zipIdx.mapM fun (n, i) => parseNode tags debug i n
      let result ← parseNr tags debug "result" r
      return ⟨"0.6", constantPool, nodes, result⟩
    | .bundle05, _ => .error (.err "Bundle05: expected [List, List, NodeRef]")
    | _, fields => .error (.err s!"expected Ctor(Bundle05), got {debug (.ctor tag fields)}")
  | v => .error (.err s!"expected Ctor(Bundle05), got {debug v}")

variable [Sha256]

def valueToBundle05 (v : Value) : Res CoreBundle := do
  let bundle ← parseBundle tags debug v
  let _ ← verifyBlocks bundle
  return bundle

/-- The files after the call, `failed` what the system says against the write. The two panics of the
source that carry an error are `err`. -/
def irWriteBundle (disk : Disk) (failed : Option String) (bundleVal : Value)
    (path : String) : Res Disk := do
  let bundle ← mapErr (fun e => s!"ir_write_bundle: {e}") (valueToBundle05 tags debug bundleVal)
  match failed with
  | some e => .error (.err s!"ir_write_bundle({path}): write failed: {e}")
  | none => return Function.update disk path (some (serializeAxbi bundle))

def irReadBundle (disk : Disk) (path : String) : Res Value :=
  match disk path with
  | none => .error (.err s!"ir_read_bundle: failed to load {path}: failed to open {path}")
  | some bytes => do
    let bundle ← mapErr (fun e => s!"ir_read_bundle: failed to load {path}: {path}: {e}")
      (parseAxbi bytes)
    return valueFromBundle05 tags bundle

end

/-! ### What a value says of a bundle -/

section
variable (tags : Tags) (hex : List Char → Bytes → Prop) (index : Int64 → UInt32 → Prop)

inductive RefOf : Value → NodeRef → Prop
  | pool {tag : UInt32} {i : Int64} {k : UInt32} (h : tags.part tag = .poolRef) (hi : index i k) :
    RefOf (.ctor tag [.int i]) (.pool k)
  | node {tag : UInt32} {i : Int64} {k : UInt32} (h : tags.part tag = .nodeRef) (hi : index i k) :
    RefOf (.ctor tag [.int i]) (.node k)

inductive EntryOf : Value → ConstantPoolEntry → Prop
  | entry {defHash payload : String} {e : ConstantPoolEntry}
    (hhash : hex defHash.toList e.defHash.bytes)
    (hpayload : hex payload.toList e.payload.toList) :
    EntryOf (.tuple [.str defHash, .str payload]) e

inductive NodeOf : Value → Node → Prop
  | ccall {tag : UInt32} {hexId : String} {refs : List Value} {targetIdentity : Hash256}
    {args : Vec NodeRef}
    {targetName : Str} (h : tags.part tag = .ccall) (hid : hex hexId.toList targetIdentity.bytes)
    (hargs : Forall₂ (RefOf tags index) refs args.toList) :
    NodeOf (.ctor tag [.str hexId, .str targetName.toString, .list refs])
      (.ccall targetIdentity args targetName)
  | cif {tag : UInt32} {cond then_ else_ : Value} {c t e : NodeRef} (h : tags.part tag = .cif)
    (hcond : RefOf tags index cond c) (hthen : RefOf tags index then_ t)
    (helse : RefOf tags index else_ e) :
    NodeOf (.ctor tag [cond, then_, else_]) (.cif c t e)
  | cdeterminate {tag : UInt32} (h : tags.part tag = .cdeterminate) :
      NodeOf (.ctor tag []) .cdeterminate
  | cblock {tag : UInt32} (h : tags.part tag = .cblock) : NodeOf (.ctor tag []) .cblock
  | cend {tag : UInt32} {value : Value} {r : NodeRef} (h : tags.part tag = .cend)
    (hvalue : RefOf tags index value r) : NodeOf (.ctor tag [value]) (.cend r)

/-- The value has the shape of the bundle, with the digits and the numbers allowed. -/
inductive BundleOf : Value → CoreBundle → Prop
  | bundle {tag : UInt32} {pool nodes : List Value} {r : Value} {entries : List ConstantPoolEntry}
    {table : List Node} {result : NodeRef} (h : tags.part tag = .bundle05)
    (hpool : Forall₂ (EntryOf hex) pool entries)
    (hnodes : Forall₂ (NodeOf tags hex index) nodes table) (hresult : RefOf tags index r result) :
    BundleOf (.ctor tag [.list pool, .list nodes, r]) ⟨"0.6", entries, table, result⟩

end

/-- What the cast makes of an integer. -/
def Cast (i : Int64) (k : UInt32) : Prop := UInt32.ofInt i.toInt = k

/-- The integer is the index. -/
def Exact (i : Int64) (k : UInt32) : Prop := i.toInt = k.toNat

section
variable (tags : Tags)

/-- The bundle that a value is taken for. -/
abbrev Denotes : Value → CoreBundle → Prop := BundleOf tags Pieces Cast

/-- The bundle that a value is the view of, letter case aside: digits without signs, indices of 32
bits. -/
abbrev Shows : Value → CoreBundle → Prop := BundleOf tags Spelled Exact

inductive TornEntry : Value → Prop
  | defHash {h : String} {x : Value} (ht : TornText h) : TornEntry (.tuple [.str h, x])
  | payload {h p : String} {hash : Hash256} (hh : Pieces h.toList hash.bytes) (hp : TornText p) :
    TornEntry (.tuple [.str h, .str p])

inductive TornNode : Value → Prop
  | identity {tag : UInt32} {hexId name : String} {refs : List Value} (h : tags.part tag = .ccall)
    (ht : TornText hexId) : TornNode (.ctor tag [.str hexId, .str name, .list refs])

/-- A text of the value is cut inside a character, with all that stands before it read. -/
inductive TornBundle : Value → Prop
  | entry {tag : UInt32} {front back nodes : List Value} {e r : Value}
    {entries : List ConstantPoolEntry}
    (h : tags.part tag = .bundle05) (hfront : Forall₂ (EntryOf Pieces) front entries)
    (he : TornEntry e) :
    TornBundle (.ctor tag [.list (front ++ e :: back), .list nodes, r])
  | node {tag : UInt32} {pool front back : List Value} {n r : Value}
    {entries : List ConstantPoolEntry}
    {table : List Node} (h : tags.part tag = .bundle05)
    (hpool : Forall₂ (EntryOf Pieces) pool entries)
    (hfront : Forall₂ (NodeOf tags Pieces Cast) front table) (hn : TornNode tags n) :
    TornBundle (.ctor tag [.list pool, .list (front ++ n :: back), r])

end

/-- A text, and a vector, has a length that Rust allows. -/
inductive Held : Value → Prop
  | localMap {id : ℕ} : Held (.localMap id)
  | frozenMap {id : ℕ} : Held (.frozenMap id)
  | int {n : Int64} : Held (.int n)
  | bool {b : Bool} : Held (.bool b)
  | str {s : String} (h : s.utf8ByteSize < 2 ^ 63) : Held (.str s)
  | unit : Held .unit
  | tuple {items : List Value} (h : items.length < 2 ^ 63) (hs : ∀ v ∈ items, Held v) :
      Held (.tuple items)
  | list {items : List Value} (h : items.length < 2 ^ 63) (hs : ∀ v ∈ items, Held v) :
      Held (.list items)
  | ctor {tag : UInt32} {fields : List Value} (h : fields.length < 2 ^ 63)
    (hs : ∀ v ∈ fields, Held v) :
    Held (.ctor tag fields)
  | dec {mantissa : ℤ} {scale : ℕ} : Held (.dec mantissa scale)
  | float {bits : UInt64} : Held (.float bits)
  | bytes {data : Bytes} (h : data.length < 2 ^ 63) : Held (.bytes data)

/-- A value that a program can hold. -/
structure HeldValue where
  value : Value
  held : Held value

variable {tags : Tags} {debug : Value → String} {ctx : String} {v r : Value} {x : NodeRef}
  {e : ConstantPoolEntry} {n : Node} {b : CoreBundle} {i : ℕ} {s : String} {bytes : Bytes}

theorem parseNr_eq_ok : parseNr tags debug ctx r = .ok x ↔ RefOf tags Cast r x := by
  constructor
  · intro h
    unfold parseNr at h
    split at h
    · split at h
      · next hpart =>
        injection h with h
        exact h ▸ .pool hpart rfl
      · next hpart =>
        injection h with h
        exact h ▸ .node hpart rfl
      · cases h
    · cases h
  · intro h
    cases h with
    | pool hpart hi | node hpart hi =>
      unfold parseNr
      simp only [hpart]
      rw [hi]

theorem parseNr_answers : ¬ Crashes (parseNr tags debug ctx r) := by
  unfold parseNr
  split
  · split
    · exact not_crashes_ok
    · exact not_crashes_ok
    · exact not_crashes_err
  · exact not_crashes_err

theorem crashes_toVec {α : Type} {xs : List α} (h : xs.length < 2 ^ 63) : ¬ Crashes (toVec xs) := by
  rw [toVec, dif_pos h]
  exact not_crashes_ok

theorem toStr_eq_ok {name : Str} : toStr s = .ok name ↔ s = name.toString := by
  constructor
  · intro h
    unfold toStr at h
    split at h
    · injection h with h
      rw [← h]
    · cases h
  · rintro rfl
    exact dif_pos name.size_lt

theorem parseDefHash_eq_ok {h : Hash256} :
    parseDefHash debug i v = .ok h ↔ ∃ s, v = .str s ∧ Pieces s.toList h.bytes := by
  cases v with
  | str s =>
    rw [parseDefHash, mapErr_eq_ok, hexToHash256_eq_ok]
    simp only [Value.str.injEq, exists_eq_left']
  | _ =>
    refine iff_of_false nofun ?_
    rintro ⟨s', hs, -⟩
    cases hs

theorem parsePayload_eq_ok :
    parsePayload debug i v = .ok bytes ↔ ∃ s, v = .str s ∧ Pieces s.toList bytes := by
  cases v with
  | str s =>
    rw [parsePayload, mapErr_eq_ok, hexToBytes_eq_ok]
    simp only [Value.str.injEq, exists_eq_left']
  | _ =>
    refine iff_of_false nofun ?_
    rintro ⟨s', hs, -⟩
    cases hs

theorem parseEntry_eq_ok : parseEntry debug i v = .ok e ↔ EntryOf Pieces v e := by
  constructor
  · intro h
    unfold parseEntry at h
    split at h
    · obtain ⟨defHash, hhash, hrest⟩ := bind_eq_ok.mp h
      obtain ⟨payload, hpayload, hrest⟩ := bind_eq_ok.mp hrest
      obtain ⟨vec, hvec, hrest⟩ := bind_eq_ok.mp hrest
      obtain rfl := Except.ok.inj hrest
      obtain ⟨s, rfl, hs⟩ := parseDefHash_eq_ok.mp hhash
      obtain ⟨s', rfl, hs'⟩ := parsePayload_eq_ok.mp hpayload
      rw [toVec_eq_ok] at hvec
      exact .entry hs (hvec ▸ hs')
    · cases h
  · intro h
    cases h with
    | entry hhash hpayload =>
      refine bind_eq_ok.mpr ⟨e.defHash, parseDefHash_eq_ok.mpr ⟨_, rfl, hhash⟩, ?_⟩
      refine bind_eq_ok.mpr ⟨e.payload.toList, parsePayload_eq_ok.mpr ⟨_, rfl, hpayload⟩, ?_⟩
      exact bind_eq_ok.mpr ⟨e.payload, toVec_eq_ok.mpr rfl, rfl⟩

theorem parseNode_eq_ok : parseNode tags debug i v = .ok n ↔ NodeOf tags Pieces Cast v n := by
  constructor
  · intro h
    unfold parseNode at h
    split at h
    · split at h
      · next hpart =>
        obtain ⟨targetIdentity, hid, h⟩ := bind_eq_ok.mp h
        obtain ⟨targetName, hname, h⟩ := bind_eq_ok.mp h
        obtain ⟨args, hargs, h⟩ := bind_eq_ok.mp h
        obtain ⟨vec, hvec, h⟩ := bind_eq_ok.mp h
        obtain rfl := Except.ok.inj h
        rw [toVec_eq_ok] at hvec
        rw [toStr_eq_ok] at hname
        rw [mapErr_eq_ok, hexToHash256_eq_ok] at hid
        subst hname
        refine .ccall hpart hid ?_
        rw [← hvec]
        exact (mapM_zipIdx_eq_ok fun r j x => parseNr_eq_ok).mp hargs
      · next hpart =>
        obtain ⟨c, hcond, h⟩ := bind_eq_ok.mp h
        obtain ⟨t, hthen, h⟩ := bind_eq_ok.mp h
        obtain ⟨e, helse, h⟩ := bind_eq_ok.mp h
        obtain rfl := Except.ok.inj h
        exact .cif hpart (parseNr_eq_ok.mp hcond) (parseNr_eq_ok.mp hthen) (parseNr_eq_ok.mp helse)
      · next hpart =>
        injection h with h
        exact h ▸ .cdeterminate hpart
      · next hpart =>
        injection h with h
        exact h ▸ .cblock hpart
      · next hpart =>
        obtain ⟨value, hvalue, h⟩ := bind_eq_ok.mp h
        obtain rfl := Except.ok.inj h
        exact .cend hpart (parseNr_eq_ok.mp hvalue)
      · cases h
    · cases h
  · intro h
    cases h with
    | @ccall tag hexId refs targetIdentity args targetName hpart hid hargs =>
      unfold parseNode
      simp only [hpart]
      refine bind_eq_ok.mpr ⟨targetIdentity, mapErr_eq_ok.mpr (hexToHash256_eq_ok.mpr hid), ?_⟩
      refine bind_eq_ok.mpr ⟨targetName, toStr_eq_ok.mpr rfl, ?_⟩
      refine bind_eq_ok.mpr ⟨args.toList, (mapM_zipIdx_eq_ok fun r j x => parseNr_eq_ok).mpr hargs,
        ?_⟩
      exact bind_eq_ok.mpr ⟨args, toVec_eq_ok.mpr rfl, rfl⟩
    | cif hpart hcond hthen helse =>
      unfold parseNode
      simp only [hpart]
      refine bind_eq_ok.mpr ⟨_, parseNr_eq_ok.mpr hcond,
        bind_eq_ok.mpr ⟨_, parseNr_eq_ok.mpr hthen, ?_⟩⟩
      exact bind_eq_ok.mpr ⟨_, parseNr_eq_ok.mpr helse, rfl⟩
    | cdeterminate hpart | cblock hpart =>
      unfold parseNode
      simp only [hpart]
    | cend hpart hvalue =>
      unfold parseNode
      simp only [hpart]
      exact bind_eq_ok.mpr ⟨_, parseNr_eq_ok.mpr hvalue, rfl⟩

/-- A value is read as the bundle it denotes. -/
theorem parseBundle_eq_ok : parseBundle tags debug v = .ok b ↔ Denotes tags v b := by
  constructor
  · intro h
    unfold parseBundle at h
    split at h
    · split at h
      · next hpart =>
        obtain ⟨entries, hpool, h⟩ := bind_eq_ok.mp h
        obtain ⟨table, hnodes, h⟩ := bind_eq_ok.mp h
        obtain ⟨result, hresult, h⟩ := bind_eq_ok.mp h
        obtain rfl := Except.ok.inj h
        exact .bundle hpart ((mapM_zipIdx_eq_ok fun e i x => parseEntry_eq_ok).mp hpool)
          ((mapM_zipIdx_eq_ok fun n i x => parseNode_eq_ok).mp hnodes) (parseNr_eq_ok.mp hresult)
      · cases h
      · cases h
    · cases h
  · intro h
    cases h with
    | bundle hpart hpool hnodes hresult =>
      unfold parseBundle
      simp only [hpart]
      refine bind_eq_ok.mpr ⟨_, (mapM_zipIdx_eq_ok fun e i x => parseEntry_eq_ok).mpr hpool, ?_⟩
      refine bind_eq_ok.mpr ⟨_, (mapM_zipIdx_eq_ok fun n i x => parseNode_eq_ok).mpr hnodes, ?_⟩
      exact bind_eq_ok.mpr ⟨_, parseNr_eq_ok.mpr hresult, rfl⟩

/-! ### Where the reading of a value crashes -/

theorem crashes_parseDefHash : Crashes (parseDefHash debug i v) ↔ ∃ s, v = .str s ∧ TornText s := by
  cases v with
  | str s =>
    rw [parseDefHash, crashes_mapErr, crashes_hexToHash256]
    simp only [Value.str.injEq, exists_eq_left']
  | _ =>
    refine iff_of_false not_crashes_err ?_
    rintro ⟨s', hs, -⟩
    cases hs

theorem crashes_parsePayload : Crashes (parsePayload debug i v) ↔ ∃ s, v = .str s ∧ TornText s := by
  cases v with
  | str s =>
    rw [parsePayload, crashes_mapErr, crashes_hexToBytes]
    simp only [Value.str.injEq, exists_eq_left']
  | _ =>
    refine iff_of_false not_crashes_err ?_
    rintro ⟨s', hs, -⟩
    cases hs

theorem Pieces.length_lt (h : Pieces s.toList bytes) (hs : s.utf8ByteSize < 2 ^ 63) :
    bytes.length < 2 ^ 63 := by
  have hlen := h.length_textBytes
  rw [String.ofList_toList] at hlen
  have hsize : (textBytes s).length = s.utf8ByteSize := rfl
  omega

theorem Held.of_mem_tuple {items : List Value} (h : Held (.tuple items)) (hv : v ∈ items) :
    Held v := by
  cases h with
  | tuple _ hs => exact hs v hv

theorem Held.of_mem_list {items : List Value} (h : Held (.list items)) (hv : v ∈ items) :
    Held v := by
  cases h with
  | list _ hs => exact hs v hv

theorem Held.of_mem_ctor {tag : UInt32} {fields : List Value} (h : Held (.ctor tag fields))
    (hv : v ∈ fields) : Held v := by
  cases h with
  | ctor _ hs => exact hs v hv

theorem crashes_parseEntry (hv : Held v) : Crashes (parseEntry debug i v) ↔ TornEntry v := by
  constructor
  · intro h
    unfold parseEntry at h
    split at h
    · rcases crashes_bind.mp h with h | ⟨defHash, hhash, h⟩
      · obtain ⟨s, rfl, ht⟩ := crashes_parseDefHash.mp h
        exact .defHash ht
      · rcases crashes_bind.mp h with h | ⟨payload, hpayload, h⟩
        · obtain ⟨s', rfl, ht⟩ := crashes_parsePayload.mp h
          obtain ⟨s, rfl, hs⟩ := parseDefHash_eq_ok.mp hhash
          exact .payload hs ht
        · rcases crashes_bind.mp h with hvec | ⟨vec, -, hdone⟩
          · obtain ⟨s', rfl, hs'⟩ := parsePayload_eq_ok.mp hpayload
            cases hv.of_mem_tuple (mem_cons_of_mem _ mem_cons_self) with
            | str hsize => exact absurd hvec (crashes_toVec (hs'.length_lt hsize))
          · exact absurd hdone not_crashes_ok
    · exact absurd h not_crashes_err
  · intro h
    cases h with
    | defHash ht => exact crashes_bind.mpr (.inl (crashes_parseDefHash.mpr ⟨_, rfl, ht⟩))
    | payload hh hp =>
      refine crashes_bind.mpr (.inr ⟨_, parseDefHash_eq_ok.mpr ⟨_, rfl, hh⟩, ?_⟩)
      exact crashes_bind.mpr (.inl (crashes_parsePayload.mpr ⟨_, rfl, hp⟩))

/-- The references of a call are read or refused. -/
theorem parseArgs_answers {refs : List Value} :
    ¬ Crashes (refs.zipIdx.mapM fun (r, j) => parseNr tags debug s!"node[{i}] arg[{j}]" r) := by
  intro h
  obtain ⟨front, r, back, bs, -, -, hr⟩ :=
    (crashes_mapM_zipIdx (R := RefOf tags Cast) (T := fun _ => False)
    (fun r j x => parseNr_eq_ok) fun r _ j => iff_of_false parseNr_answers not_false).mp h
  exact hr

theorem crashes_parseNode (hv : Held v) : Crashes (parseNode tags debug i v) ↔ TornNode tags v := by
  constructor
  · intro h
    unfold parseNode at h
    split at h
    · split at h
      · next hpart =>
        rcases crashes_bind.mp h with h | ⟨targetIdentity, -, h⟩
        · rw [crashes_mapErr, crashes_hexToHash256] at h
          exact .identity hpart h
        · rcases crashes_bind.mp h with h | ⟨targetName, -, h⟩
          · cases hv.of_mem_ctor (mem_cons_of_mem _ mem_cons_self) with
            | str hsize =>
              rw [toStr, dif_pos hsize] at h
              exact absurd h not_crashes_ok
          · rcases crashes_bind.mp h with h | ⟨args, hargs, h⟩
            · exact absurd h parseArgs_answers
            · rcases crashes_bind.mp h with h | ⟨vec, -, h⟩
              · have hlen := ((mapM_zipIdx_eq_ok fun r j x => parseNr_eq_ok).mp hargs).length_eq
                cases hv.of_mem_ctor (mem_cons_of_mem _ (mem_cons_of_mem _ mem_cons_self)) with
                | list hsize _ => exact absurd h (crashes_toVec (hlen ▸ hsize))
              · exact absurd h not_crashes_ok
      · rcases crashes_bind.mp h with h | ⟨c, -, h⟩
        · exact absurd h parseNr_answers
        · rcases crashes_bind.mp h with h | ⟨t, -, h⟩
          · exact absurd h parseNr_answers
          · rcases crashes_bind.mp h with h | ⟨e, -, h⟩
            · exact absurd h parseNr_answers
            · exact absurd h not_crashes_ok
      · exact absurd h not_crashes_ok
      · exact absurd h not_crashes_ok
      · rcases crashes_bind.mp h with h | ⟨value, -, h⟩
        · exact absurd h parseNr_answers
        · exact absurd h not_crashes_ok
      · exact absurd h not_crashes_err
    · exact absurd h not_crashes_err
  · intro h
    cases h with
    | identity hpart ht =>
      unfold parseNode
      simp only [hpart]
      exact crashes_bind.mpr (.inl (crashes_mapErr.mpr (crashes_hexToHash256.mpr ht)))

theorem crashes_parseBundle (hv : Held v) :
    Crashes (parseBundle tags debug v) ↔ TornBundle tags v := by
  constructor
  · intro h
    unfold parseBundle at h
    split at h
    · split at h
      · next pool nodes r hpart =>
        have hpool := hv.of_mem_ctor (v := .list pool) mem_cons_self
        have hnodes := hv.of_mem_ctor (v := .list nodes) (mem_cons_of_mem _ mem_cons_self)
        rcases crashes_bind.mp h with h | ⟨entries, hentries, h⟩
        · obtain ⟨front, e, back, bs, rfl, hfront, he⟩ := (crashes_mapM_zipIdx
            (fun e i x => parseEntry_eq_ok) fun e he i => crashes_parseEntry
              (hpool.of_mem_list he)).mp h
          exact .entry hpart hfront he
        · rcases crashes_bind.mp h with h | ⟨table, -, h⟩
          · obtain ⟨front, n, back, bs, rfl, hfront, hn⟩ := (crashes_mapM_zipIdx
              (fun n i x => parseNode_eq_ok) fun n hn i => crashes_parseNode
                (hnodes.of_mem_list hn)).mp h
            exact .node hpart
              ((mapM_zipIdx_eq_ok fun e i x => parseEntry_eq_ok).mp hentries) hfront hn
          · rcases crashes_bind.mp h with h | ⟨result, -, h⟩
            · exact absurd h parseNr_answers
            · exact absurd h not_crashes_ok
      · exact absurd h not_crashes_err
      · exact absurd h not_crashes_err
    · exact absurd h not_crashes_err
  · intro h
    cases h with
    | entry hpart hfront he =>
      have hpool := hv.of_mem_ctor mem_cons_self
      unfold parseBundle
      simp only [hpart]
      refine crashes_bind.mpr (.inl ((crashes_mapM_zipIdx (fun e i x => parseEntry_eq_ok)
        fun e he i => crashes_parseEntry (hpool.of_mem_list he)).mpr ⟨_, _, _, _, rfl, hfront, he⟩))
    | node hpart hpool hfront hn =>
      have hnodes := hv.of_mem_ctor (mem_cons_of_mem _ mem_cons_self)
      unfold parseBundle
      simp only [hpart]
      refine crashes_bind.mpr
        (.inr ⟨_, (mapM_zipIdx_eq_ok fun e i x => parseEntry_eq_ok).mpr hpool, ?_⟩)
      exact crashes_bind.mpr (.inl ((crashes_mapM_zipIdx (fun n i x => parseNode_eq_ok)
        fun n hn i => crashes_parseNode (hnodes.of_mem_list hn)).mpr ⟨_, _, _, _, rfl, hfront, hn⟩))

end AxisBridge.IrBundle
