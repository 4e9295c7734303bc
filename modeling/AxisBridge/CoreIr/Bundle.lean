import AxisBridge.Lib.Nesting

/-! The Core IR 0.6 bundle: a constant pool, a flat table of nodes and the result reference. -/
namespace AxisBridge

abbrev Bytes := List UInt8

/-- How a source function ends without a value: its `Err`, a panic, or a loop past its bound. -/
inductive Stop
  | err (msg : String)
  | panic (msg : String)
  | looping
  deriving DecidableEq, Repr

abbrev Res := Except Stop

variable {α β : Type} {i : ℕ}

theorem Res.bind_eq_ok {x : Res α} {f : α → Res β} {y : β} :
    (x >>= f) = .ok y ↔ ∃ a, x = .ok a ∧ f a = .ok y := by
  cases x <;> simp [bind, Except.bind]

@[simp] theorem Res.ok_bind (a : α) (f : α → Res β) : ((Except.ok a : Res α) >>= f) = f a := rfl

@[simp] theorem Res.error_bind (e : Stop) (f : α → Res β) :
    ((.error e : Res α) >>= f) = .error e := rfl

/-- Put a caller's words around an error; a panic passes through. -/
def Res.mapErr {α : Type} (f : String → String) : Res α → Res α
  | .error (.err e) => .error (.err (f e))
  | x => x

theorem Res.mapErr_eq_ok {f : String → String} {x : Res α} {y : α} :
    Res.mapErr f x = .ok y ↔ x = .ok y := by
  cases x with
  | error e => cases e <;> simp [Res.mapErr]
  | ok a => simp [Res.mapErr]

/-- A slice index: out of bounds is a panic. -/
def readAt {α : Type} (t : List α) (i : ℕ) : Res α :=
  match t[i]? with
  | some x => .ok x
  | none => .error (.panic s!"index out of bounds: the len is {t.length} but the index is {i}")

def writeAt {α : Type} (t : List α) (i : ℕ) (x : α) : Res (List α) :=
  if i < t.length then .ok (t.set i x)
  else .error (.panic s!"index out of bounds: the len is {t.length} but the index is {i}")

def expect {α : Type} (o : Option α) (msg : String) : Res α :=
  match o with
  | some x => .ok x
  | none => .error (.panic msg)

theorem readAt_of_getElem? {t : List α} {x : α} (h : t[i]? = some x) : readAt t i = .ok x := by
  simp [readAt, h]

theorem readAt_eq_ok {t : List α} {x : α} : readAt t i = .ok x ↔ t[i]? = some x := by
  unfold readAt
  cases t[i]? <;> simp

theorem writeAt_of_lt {t : List α} (h : i < t.length) (x : α) :
    writeAt t i x = .ok (t.set i x) := by
  simp [writeAt, h]

@[simp] theorem expect_some (x : α) (msg : String) : expect (some x) msg = .ok x := rfl

/-- Rust's vector: its length never passes `isize::MAX`. -/
structure Vec (α : Type) where
  toList : List α
  length_lt : toList.length < 2 ^ 63
  deriving DecidableEq

/-- Rust's string: UTF-8 text of at most `isize::MAX` bytes. -/
structure Str where
  toString : String
  size_lt : toString.utf8ByteSize < 2 ^ 63
  deriving DecidableEq

/-- A 256-bit hash or identity token. -/
structure Hash256 where
  bytes : Bytes
  length_eq : bytes.length = 32
  deriving DecidableEq

/-- The digest of the hashing crate. -/
class Sha256 where
  digest : Bytes → Hash256

inductive NodeRef
  | node (i : UInt32)
  | pool (i : UInt32)
  deriving DecidableEq

structure ConstantPoolEntry where
  defHash : Hash256
  payload : Vec UInt8
  deriving DecidableEq

inductive Node
  | ccall (targetIdentity : Hash256) (args : Vec NodeRef) (targetName : Str)
  | cif (cond then_ else_ : NodeRef)
  | cdeterminate
  | cblock
  | cend (value : NodeRef)
  deriving DecidableEq

structure CoreBundle where
  version : String
  constantPool : List ConstantPoolEntry
  nodes : List Node
  result : NodeRef
  deriving DecidableEq

section Hashes
variable [Sha256]

def sha256Bytes (data : Bytes) : Hash256 := Sha256.digest data

def primitiveTypeHash (primCode : UInt8) : Hash256 := sha256Bytes [0x01, 0x00, primCode]

def unitTypeHash : Hash256 := primitiveTypeHash 0
def boolTypeHash : Hash256 := primitiveTypeHash 1
def intTypeHash : Hash256 := primitiveTypeHash 2
def floatTypeHash : Hash256 := primitiveTypeHash 3
def textTypeHash : Hash256 := primitiveTypeHash 5
def decTypeHash : Hash256 := primitiveTypeHash 7
def fnTypeHash : Hash256 := primitiveTypeHash 8
def paramTypeHash : Hash256 := primitiveTypeHash 9

end Hashes

/-- Which arm of a `CIf`. -/
inductive Arm
  | then_
  | else_
  deriving DecidableEq

/-- The references a node reads as values: arguments, a condition, a block's value. -/
def Node.reads : Node → List NodeRef
  | .ccall _ args _ => args.toList
  | .cif cond _ _ => [cond]
  | .cdeterminate => []
  | .cblock => []
  | .cend value => [value]

/-- The references by which a `CIf` names its arms. -/
def Node.arms : Node → List (Arm × NodeRef)
  | .cif _ then_ else_ => [(.then_, then_), (.else_, else_)]
  | _ => []

def Node.refs (node : Node) : List NodeRef := node.reads ++ node.arms.map Prod.snd

/-- The reference is to a pool entry, or to one of the first `nodes` nodes. -/
def NodeRef.InRange (nodes pool : ℕ) : NodeRef → Prop
  | .node i => i.toNat < nodes
  | .pool i => i.toNat < pool

instance {nodes pool : ℕ} {r : NodeRef} : Decidable (r.InRange nodes pool) := by
  cases r <;> unfold NodeRef.InRange <;> infer_instance

/-- Topological order and index ranges, as the decoder enforces them. -/
structure CoreBundle.InRange (b : CoreBundle) : Prop where
  node : ∀ {j : ℕ} {node : Node} {r : NodeRef}, b.nodes[j]? = some node → r ∈ node.refs →
    r.InRange j b.constantPool.length
  result : b.result.InRange b.nodes.length b.constantPool.length

variable {b : CoreBundle} {node : Node}

theorem CoreBundle.inRange_iff :
    ((∀ j : Fin b.nodes.length, ∀ r ∈ b.nodes[j].refs, r.InRange j b.constantPool.length) ∧
      b.result.InRange b.nodes.length b.constantPool.length) ↔ b.InRange := by
  constructor
  · rintro ⟨hnode, hres⟩
    refine ⟨fun {j node r} hj hr => ?_, hres⟩
    obtain ⟨hlt, rfl⟩ := List.getElem?_eq_some_iff.mp hj
    exact hnode ⟨j, hlt⟩ r hr
  · rintro ⟨hnode, hres⟩
    exact ⟨fun j r hr => hnode (List.getElem?_eq_getElem j.isLt) hr, hres⟩

instance {b : CoreBundle} : Decidable b.InRange := decidable_of_iff _ CoreBundle.inRange_iff

theorem CoreBundle.InRange.node_lt (h : b.InRange) {j : ℕ}
    {i : UInt32} (hj : b.nodes[j]? = some node) (hi : .node i ∈ node.refs) : i.toNat < j :=
  h.node hj hi

theorem CoreBundle.InRange.pool_lt (h : b.InRange) {j : ℕ} {i : UInt32}
    (hj : b.nodes[j]? = some node) (hi : .pool i ∈ node.refs) : i.toNat < b.constantPool.length :=
  h.node hj hi

theorem CoreBundle.InRange.result_lt (h : b.InRange) {i : UInt32}
    (hi : b.result = .node i) : i.toNat < b.nodes.length := by
  have hres := h.result
  rwa [hi] at hres

/-- A node's role in the block structure. -/
def Node.role : Node → Nesting.Bracket
  | .cblock => .opener
  | .cend _ => .closer
  | _ => .plain

def CoreBundle.role (b : CoreBundle) (i : ℕ) : Nesting.Bracket :=
  match b.nodes[i]? with
  | some node => node.role
  | none => .plain

theorem CoreBundle.role_of_getElem? (h : b.nodes[i]? = some node) : b.role i = node.role := by
  simp [role, h]

/-- The cast `i as u32`. -/
def asU32 (i : ℕ) : UInt32 := UInt32.ofNat i

theorem toNat_asU32 (h : i < 2 ^ 32) : (asU32 i).toNat = i := by
  simp only [asU32, UInt32.toNat_ofNat']
  omega

@[simp] theorem asU32_toNat (k : UInt32) : asU32 k.toNat = k := by
  simp [asU32]

end AxisBridge
