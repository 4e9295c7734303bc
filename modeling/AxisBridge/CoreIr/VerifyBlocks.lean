import AxisBridge.CoreIr.Bundle

/-! The block verifier: a stack pass that fills three tables, then a pass over the references. -/
namespace AxisBridge

/-- The block structure of a bundle that passed the rules. -/
structure Blocks where
  home : List (Option UInt32)
  partner : List (Option UInt32)
  arm : List (Option (UInt32 × Arm))

/-- The tables of the structure pass and its stack, innermost block first. -/
structure Scan where
  home : List (Option UInt32)
  partner : List (Option UInt32)
  arm : List (Option (UInt32 × Arm))
  stack : List UInt32

def Blocks.armOfBlock (blocks : Blocks) (block : UInt32) : Res (Option (UInt32 × Arm)) := do
  match ← readAt blocks.partner block.toNat with
  | some end_ => readAt blocks.arm end_.toNat
  | none => return none

def armName : Arm → String
  | .then_ => "then"
  | .else_ => "else"

/-- Is node `j` a `CEnd`? -/
def CoreBundle.isEnd (b : CoreBundle) (j : UInt32) : Bool :=
  match b.nodes[j.toNat]? with
  | some (.cend _) => true
  | _ => false

/-- Record `r` as an arm of the `CIf` at `k` when it is a `CEnd`. -/
def nameArm (b : CoreBundle) (k : UInt32) (arm : List (Option (UInt32 × Arm))) (r : NodeRef)
    (which : Arm) : Res (List (Option (UInt32 × Arm))) :=
  match r with
  | .pool _ => .ok arm
  | .node j =>
    if b.isEnd j then do
      match ← readAt arm j.toNat with
      | some (k0, _) =>
        throw (.err (s!"block rule 3: node {j} closes an arm of if node {k0}, and if node {k} " ++
          "references it too"))
      | none => writeAt arm j.toNat (some (k, which))
    else .ok arm

section
variable [Sha256]

def CoreBundle.unitElse (b : CoreBundle) (else_ : NodeRef) : Bool :=
  match else_ with
  | .pool p =>
    match b.constantPool[p.toNat]? with
    | some e => e.defHash == unitTypeHash
    | none => false
  | .node _ => false

/-- Rule 2 for the `CIf` at `k`: both arms directly before it, or one arm and a Unit else. -/
def armsInPlace (b : CoreBundle) (partner : List (Option UInt32)) (k : UInt32)
    (then_ else_ : NodeRef) : Res Bool :=
  match then_, else_ with
  | .node t, .node e =>
    if k ≥ 1 && e == k - 1 && b.isEnd e then do
      let open_ ← expect (← readAt partner e.toNat) "a closed block"
      return open_ ≥ 1 && t == open_ - 1 && b.isEnd t
    else if k ≥ 1 && t == k - 1 && b.isEnd t then .ok (b.unitElse else_)
    else .ok false
  | .node t, .pool _ =>
    if k ≥ 1 && t == k - 1 && b.isEnd t then .ok (b.unitElse else_) else .ok false
  | .pool _, _ => .ok false

def scanStep (b : CoreBundle) (s : Scan) (i : ℕ) (node : Node) : Res Scan := do
  let k := asU32 i
  let home ← writeAt s.home i s.stack.head?
  match node with
  | .cblock => return { s with home := home, stack := k :: s.stack }
  | .cend _ =>
    match s.stack with
    | [] => throw (.err s!"block rule 1: node {k} is a CEnd with no open block")
    | open_ :: stack =>
      let partner ← writeAt s.partner open_.toNat (some k)
      let partner ← writeAt partner i (some open_)
      let home ← writeAt home i stack.head?
      return { s with home := home, partner := partner, stack := stack }
  | .cif _ then_ else_ =>
    let arm ← nameArm b k s.arm then_ .then_
    let arm ← nameArm b k arm else_ .else_
    if ← armsInPlace b s.partner k then_ else_ then
      return { s with home := home, arm := arm }
    else
      throw (.err (s!"block rule 2: if node {k}: its arms must be the blocks directly before it " ++
        s!"(else = the CEnd at node {k - 1}, then = the CEnd just before that block; or " ++
        s!"one-armed: then = the CEnd at node {k - 1}, else = pool Unit)"))
  | .ccall _ _ _ => return { s with home := home }
  | .cdeterminate => return { s with home := home }

/-- The structure pass over `nodes`, the first of which is node `i`. -/
def scan (b : CoreBundle) : ℕ → List Node → Scan → Res Scan
  | _, [], s => .ok s
  | i, node :: nodes, s => do scan b (i + 1) nodes (← scanStep b s i node)

end

/-- The search for the outermost closed block around a refused reference, and the arm it is in. -/
def climb (blocks : Blocks) (opened : List Bool) :
    ℕ → Option UInt32 → UInt32 → Option (UInt32 × Arm) → Res (UInt32 × Option (UInt32 × Arm))
  | _, none, outermost, inArm => .ok (outermost, inArm)
  | 0, some _, _, _ => .error .looping
  | fuel + 1, some at_, outermost, inArm => do
    if ← readAt opened at_.toNat then return (outermost, inArm)
    let inArm := (← blocks.armOfBlock at_).or inArm
    climb blocks opened fuel (← readAt blocks.home at_.toNat) at_ inArm

/-- The last part of `check`: the blocks around `j` must still be open. -/
def checkOpen (b : CoreBundle) (blocks : Blocks) (opened : List Bool) (who : String)
    (j : UInt32) : Res Unit := do
  match ← readAt blocks.home j.toNat with
  | none => return
  | some home =>
    if ← readAt opened home.toNat then return
    let (outermost, inArm) ← climb blocks opened (b.nodes.length + 1) (some home) home none
    match inArm with
    | some (k, a) =>
      throw (.err (s!"block rule 4: {who} uses node {j}, which is inside the {armName a} arm of " ++
        s!"if node {k}"))
    | none =>
      throw (.err (s!"block rule 5: {who} uses node {j}, which is inside the closed block " ++
        s!"opened at node {outermost}"))

/-- Rules 3, 4 and 5 for one reference made while the blocks of `opened` are open. -/
def check (b : CoreBundle) (blocks : Blocks) (opened : List Bool) (who : String)
    (used : NodeRef) : Res Unit :=
  match used with
  | .pool _ => .ok ()
  | .node j => do
    match ← readAt b.nodes j.toNat with
    | .cblock => throw (.err s!"block rule 5: {who} references node {j}, a CBlock")
    | .cend _ =>
      if let some (k, _) ← readAt blocks.arm j.toNat then
        throw (.err (s!"block rule 3: node {j} closes an arm of if node {k}, and {who} " ++
          "references it too"))
    | _ => pure ()
    checkOpen b blocks opened who j

def checkAll (b : CoreBundle) (blocks : Blocks) (opened : List Bool) (who : String) :
    List NodeRef → Res Unit
  | [] => .ok ()
  | used :: rest => do
    check b blocks opened who used
    checkAll b blocks opened who rest

def referenceStep (b : CoreBundle) (blocks : Blocks) (opened : List Bool) (u : ℕ) (node : Node) :
    Res (List Bool) := do
  let who := s!"node {u}"
  match node with
  | .cblock => writeAt opened u true
  | .cend value =>
    check b blocks opened who value
    let open_ ← expect (← readAt blocks.partner u) "a matched CEnd"
    writeAt opened open_.toNat false
  | .ccall _ args _ =>
    checkAll b blocks opened who args.toList
    return opened
  | .cif cond _ _ =>
    check b blocks opened who cond
    return opened
  | .cdeterminate => return opened

/-- The reference pass over `nodes`, the first of which is node `u`. -/
def references (b : CoreBundle) (blocks : Blocks) : ℕ → List Node → List Bool → Res (List Bool)
  | _, [], opened => .ok opened
  | u, node :: nodes, opened => do
    references b blocks (u + 1) nodes (← referenceStep b blocks opened u node)

/-- The Core IR 0.6 block rules 1-5. -/
def verifyBlocks [Sha256] (b : CoreBundle) : Res Blocks := do
  let n := b.nodes.length
  let s ← scan b 0 b.nodes
    ⟨List.replicate n none, List.replicate n none, List.replicate n none, []⟩
  if let some open_ := s.stack.getLast? then
    throw (.err s!"block rule 1: the block opened at node {open_} is never closed")
  let blocks : Blocks := ⟨s.home, s.partner, s.arm⟩
  let opened ← references b blocks 0 b.nodes (List.replicate n false)
  check b blocks opened "the result" b.result
  return blocks

end AxisBridge
