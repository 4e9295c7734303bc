import AxisBridge.Emit.Names
import AxisBridge.Emit.NodeSpec

/-! Emission casts node indices to `u32` as the verifier does: bundles of more than `2 ^ 32` nodes
that both accept. -/
namespace AxisBridge
open List

section
variable [Sha256] {t : Tables} {b : CoreBundle} {blocks : Blocks} {env : CallEnv} {i m : ℕ}

/-- The pieces of the nodes from `i` on, emitted without an error. -/
def Emits (b : CoreBundle) (blocks : Blocks) (env : CallEnv) (i : ℕ) (nodes : List Node) : Prop :=
  ∃ pieces, emitBlocks b blocks env i nodes = .ok pieces

variable {nodes : List Node}

theorem emitBlocks_cons {node : Node} {here rest : List Piece}
    (hhere : emitPiece b blocks env i node = .ok here)
    (hrest : emitBlocks b blocks env (i + 1) nodes = .ok rest) :
    emitBlocks b blocks env i (node :: nodes) = .ok (here ++ rest) := by
  simp [emitBlocks, hhere, hrest, pure, Except.pure]

theorem Emits.cons {node : Node} {nodes : List Node}
    (hhere : ∃ here, emitPiece b blocks env i node = .ok here)
    (h : Emits b blocks env (i + 1) nodes) : Emits b blocks env i (node :: nodes) := by
  obtain ⟨here, hhere⟩ := hhere
  obtain ⟨rest, hrest⟩ := h
  exact ⟨_, emitBlocks_cons hhere hrest⟩

theorem Emits.gates (h : Emits b blocks env (i + m) nodes) :
    Emits b blocks env i (replicate m .cdeterminate ++ nodes) := by
  induction m generalizing i with
  | zero => exact h
  | succ m ih =>
    rw [replicate_succ, cons_append]
    refine Emits.cons ⟨_, rfl⟩ (ih ?_)
    rwa [show i + 1 + m = i + (m + 1) by omega]

theorem validateTargets_of_forall (h : ∀ node ∈ b.nodes, ∀ id args targetName,
    node = .ccall id args targetName → targetError t id targetName.toString = none) :
    validateTargets t b = .ok () := by
  rw [validateTargets, if_pos]
  rw [filterMap_eq_nil_iff]
  intro node hnode
  cases node with
  | ccall id args targetName => exact h _ hnode id args targetName rfl
  | _ => rfl

theorem checkChannels_of_forall [CharTables] (h : ∀ node ∈ nodes,
    ∀ id args targetName, node = .ccall id args targetName → id ≠ nameIdentity "channel_send") :
    checkChannels t b nodes = .ok () := by
  induction nodes with
  | nil => rfl
  | cons node nodes ih =>
    have hrest := ih fun node hnode => h node (mem_cons_of_mem _ hnode)
    cases node with
    | ccall id args targetName =>
      have hne := h _ mem_cons_self id args targetName rfl
      simp [checkChannels, hne, hrest]
    | _ => exact hrest

/-- Determinacy gates inside a block: the structure pass notes where each of them lives. -/
theorem scan_gates_in {pre post : List (Option UInt32)} {partner : List (Option UInt32)}
    {arm : List (Option (UInt32 × Arm))} {stack : List UInt32} {x : Option UInt32}
    (hpre : pre.length = i) : scan b i
    (replicate m .cdeterminate ++ nodes) ⟨pre ++ (replicate m x ++ post), partner, arm, stack⟩ =
    scan b (i + m) nodes ⟨pre ++ (replicate m stack.head? ++ post), partner, arm, stack⟩ := by
  induction m generalizing i pre with
  | zero => rfl
  | succ m ih =>
    have hset : (pre ++ (replicate (m + 1) x ++ post)).set i stack.head? =
        (pre ++ [stack.head?]) ++ (replicate m x ++ post) := by
      subst hpre
      simp [replicate_succ]
    have hstep : scanStep b ⟨pre ++ (replicate (m + 1) x ++ post), partner, arm, stack⟩ i
        .cdeterminate =
        .ok ⟨(pre ++ [stack.head?]) ++ (replicate m x ++ post), partner, arm, stack⟩ := by
      have hlt : i < (pre ++ (replicate (m + 1) x ++ post)).length := by
        simp only [length_append, length_replicate, hpre]
        omega
      simp [scanStep, writeAt_of_lt hlt, hset, pure, Except.pure]
    rw [replicate_succ (a := Node.cdeterminate), cons_append, scan_cons hstep, ih (by simp [hpre])]
    simp only [replicate_succ, append_assoc, cons_append, nil_append]
    congr 1
    omega

end

/-- Node 0 opens a block that spans the bundle, nodes 3 to 5 are an `if` on node 1. After `m` gates
node `m + 6` ends block 0: with `m + 2 = 2 ^ 32` its index is cast to 4, the end of the arm. -/
def lateClose [Sha256] (m : ℕ) : CoreBundle where
  version := "0.6"
  constantPool := [unitEntry]
  nodes := .cblock :: .cdeterminate :: .cdeterminate :: .cblock :: .cend (.pool 0) ::
    .cif (.node 1) (.node 4) (.pool 0) :: (replicate m .cdeterminate ++ [.cend (.pool 0)])
  result := .pool 0

section LateClose
variable {m : ℕ}

/-- Six entries, `m` alike, and a last one. -/
def spread {α : Type} (m : ℕ) (x0 x1 x2 x3 x4 x5 mid last : α) : List α :=
  [x0, x1, x2, x3, x4, x5] ++ (replicate m mid ++ [last])

/-- The structure pass's tables: block 0 was closed by node 4 as well. -/
def lateBlocks (m : ℕ) : Blocks where
  home := spread m none (some 0) (some 0) (some 0) (some 0) (some 0) (some 0) none
  partner := spread m (some 4) none none (some 4) (some 3) none none (some 0)
  arm := spread m none none none none (some (5, .then_)) none none none

variable {α : Type}

theorem spread_last {x0 x1 x2 x3 x4 x5 mid last : α} :
    (spread m x0 x1 x2 x3 x4 x5 mid last)[m + 6]? = some last := by
  simp [spread]

theorem spread_set_last {x0 x1 x2 x3 x4 x5 mid last y : α} :
    (spread m x0 x1 x2 x3 x4 x5 mid last).set (m + 6) y = spread m x0 x1 x2 x3 x4 x5 mid y := by
  simp [spread, set_append_right]

theorem length_spread {x0 x1 x2 x3 x4 x5 mid last : α} :
    (spread m x0 x1 x2 x3 x4 x5 mid last).length = m + 7 := by
  simp [spread]

theorem replicate_spread {x : α} : replicate (m + 7) x = spread m x x x x x x x x := by
  rw [spread, ← replicate_succ', show m + 7 = 6 + (m + 1) by omega, replicate_add]
  rfl

theorem asU32_lateClose (hm : m + 2 = 2 ^ 32) : asU32 (m + 6) = 4 := by
  show asU32 (m + 6) = UInt32.ofNat 4
  apply UInt32.toNat_inj.mp
  simp only [asU32, UInt32.toNat_ofNat']
  omega

variable [Sha256]

theorem nodes_lateClose : (lateClose m).nodes =
    .cblock :: .cdeterminate :: .cdeterminate :: .cblock :: .cend (.pool 0) ::
      .cif (.node 1) (.node 4) (.pool 0) :: (replicate m .cdeterminate ++ [.cend (.pool 0)]) := rfl

theorem length_lateClose : (lateClose m).nodes.length = m + 7 := by
  simp [lateClose]

theorem isEnd_lateClose_four : (lateClose m).isEnd 4 = true := by
  simp [CoreBundle.isEnd, lateClose]

theorem unitElse_lateClose : (lateClose m).unitElse (.pool 0) = true := by
  simp [CoreBundle.unitElse, lateClose, unitEntry]

theorem scan_lateClose (hm : m + 2 = 2 ^ 32) :
    scan (lateClose m) 0 (lateClose m).nodes ⟨spread m none none none none none none none none,
      spread m none none none none none none none none,
      spread m none none none none none none none none, []⟩ =
      .ok ⟨(lateBlocks m).home, (lateBlocks m).partner, (lateBlocks m).arm, []⟩ := by
  have hend : (lateClose m).isEnd 4 = true := isEnd_lateClose_four
  have hif : scanStep (lateClose m)
      ⟨spread m none (some 0) (some 0) (some 0) (some 0) none none none,
        spread m none none none (some 4) (some 3) none none none,
        spread m none none none none none none none none, [0]⟩ 5
        (.cif (.node 1) (.node 4) (.pool 0)) =
      .ok ⟨spread m none (some 0) (some 0) (some 0) (some 0) (some 0) none none,
        spread m none none none (some 4) (some 3) none none none,
        spread m none none none none (some (5, .then_)) none none none, [0]⟩ := by
    simp only [scanStep, nameArm, hend, armsInPlace, unitElse_lateClose]
    rfl
  have hgates : scan (lateClose m) 6 (replicate m .cdeterminate ++ [.cend (.pool 0)])
      ⟨spread m none (some 0) (some 0) (some 0) (some 0) (some 0) none none,
        spread m none none none (some 4) (some 3) none none none,
        spread m none none none none (some (5, .then_)) none none none, [0]⟩ =
      scan (lateClose m) (6 + m) [.cend (.pool 0)]
      ⟨spread m none (some 0) (some 0) (some 0) (some 0) (some 0) (some 0) none,
        spread m none none none (some 4) (some 3) none none none,
        spread m none none none none (some (5, .then_)) none none none, [0]⟩ :=
    scan_gates_in rfl
  have hlast : scanStep (lateClose m)
      ⟨spread m none (some 0) (some 0) (some 0) (some 0) (some 0) (some 0) none,
        spread m none none none (some 4) (some 3) none none none,
        spread m none none none none (some (5, .then_)) none none none, [0]⟩ (m + 6)
        (.cend (.pool 0)) =
      .ok ⟨(lateBlocks m).home, (lateBlocks m).partner, (lateBlocks m).arm, []⟩ := by
    simp [scanStep, asU32_lateClose hm, writeAt_of_lt, length_spread, spread_set_last, pure,
      Except.pure, lateBlocks]
    show (spread m (some 4) none none (some 4) (some 3) none none none).set (m + 6) (some 0) = _
    exact spread_set_last
  rw [nodes_lateClose, scan_cons (t := ⟨spread m none none none none none none none none,
      spread m none none none none none none none none,
      spread m none none none none none none none none, [0]⟩) rfl,
    scan_cons (t := ⟨spread m none (some 0) none none none none none none,
      spread m none none none none none none none none,
      spread m none none none none none none none none, [0]⟩) rfl,
    scan_cons (t := ⟨spread m none (some 0) (some 0) none none none none none,
      spread m none none none none none none none none,
      spread m none none none none none none none none, [0]⟩) rfl,
    scan_cons (t := ⟨spread m none (some 0) (some 0) (some 0) none none none none,
      spread m none none none none none none none none,
      spread m none none none none none none none none, [3, 0]⟩) rfl,
    scan_cons (t := ⟨spread m none (some 0) (some 0) (some 0) (some 0) none none none,
      spread m none none none (some 4) (some 3) none none none,
      spread m none none none none none none none none, [0]⟩) rfl, scan_cons hif]
  refine hgates.trans ?_
  rw [add_comm 6 m]
  exact (scan_cons hlast).trans rfl

/-- The reference pass: node 1 is read while block 0 is open. -/
theorem references_lateClose : references (lateClose m) (lateBlocks m) 0
    (lateClose m).nodes (false :: false :: false :: false :: replicate (m + 3) false) =
    .ok (false :: false :: false :: false :: replicate (m + 3) false) := by
  have hpartner : (lateBlocks m).partner[m + 6]? = some (some 0) := spread_last
  have hif : referenceStep (lateClose m) (lateBlocks m)
      (true :: false :: false :: false :: replicate (m + 3) false) 5
      (.cif (.node 1) (.node 4) (.pool 0)) =
      .ok (true :: false :: false :: false :: replicate (m + 3) false) := rfl
  rw [nodes_lateClose,
    references_cons (f := true :: false :: false :: false :: replicate (m + 3) false) rfl,
    references_cons rfl, references_cons rfl,
    references_cons (f := true :: false :: false :: true :: replicate (m + 3) false) rfl,
    references_cons (f := true :: false :: false :: false :: replicate (m + 3) false) rfl,
    references_cons hif, references_gates,
    show 0 + 1 + 1 + 1 + 1 + 1 + 1 + m = m + 6 by omega,
    references_cons (f := false :: false :: false :: false :: replicate (m + 3) false)
      (by simp [referenceStep, check, readAt_of_getElem? hpartner, writeAt])]
  rfl

theorem verifyBlocks_lateClose (hm : m + 2 = 2 ^ 32) :
    verifyBlocks (lateClose m) = .ok (lateBlocks m) := by
  have hflags : replicate (m + 7) false =
    false :: false :: false :: false :: replicate (m + 3) false := rfl
  simp only [verifyBlocks, length_lateClose]
  rw [replicate_spread, replicate_spread, hflags, scan_lateClose hm]
  show (do
    let opened ← references (lateClose m) (lateBlocks m) 0 (lateClose m).nodes _
    check (lateClose m) (lateBlocks m) opened "the result" (.pool 0)
    return lateBlocks m) = _
  rw [references_lateClose]
  rfl

theorem inRange_lateClose : (lateClose m).InRange where
  node := by
    intro u node r hu hr
    match u with
    | 0 | 1 | 2 | 3 =>
      simp [lateClose] at hu
      subst hu
      simp [Node.refs, Node.reads, Node.arms] at hr
    | 4 =>
      simp [lateClose] at hu
      subst hu
      simp [Node.refs, Node.reads, Node.arms] at hr
      subst hr
      simp [NodeRef.InRange, lateClose]
    | 5 =>
      simp [lateClose] at hu
      subst hu
      simp only [Node.refs, Node.reads, Node.arms, map_cons, map_nil, cons_append,
        nil_append, mem_cons, not_mem_nil, or_false] at hr
      rcases hr with rfl | rfl | rfl <;> simp [NodeRef.InRange, lateClose]
    | u + 6 =>
      simp only [lateClose, getElem?_cons_succ] at hu
      rcases mem_append.mp (mem_of_getElem? hu) with hmem | hmem
      · rw [(mem_replicate.mp hmem).2] at hr
        simp [Node.refs, Node.reads, Node.arms] at hr
      · rw [mem_singleton.mp hmem] at hr
        simp [Node.refs, Node.reads, Node.arms] at hr
        subst hr
        simp [NodeRef.InRange, lateClose]
  result := by simp [NodeRef.InRange, lateClose]

/-- The first piece already reads node 1. -/
theorem emitBlocks_lateClose (env : CallEnv) (henv : env.poolKinds = [.data [.raw "Value::Unit"]]) :
    ∃ rest, emitBlocks (lateClose m) (lateBlocks m) env 0 (lateClose m).nodes =
      .ok (.openIf 5 (.node 1) :: rest) := by
  have hlast : ∃ here, emitPiece (lateClose m) (lateBlocks m) env (0 + 1 + 1 + 1 + 1 + 1 + 1 + m)
      (.cend (.pool 0)) = .ok here := by
    have harm : (lateBlocks m).arm[0 + 1 + 1 + 1 + 1 + 1 + 1 + m]? = some none := by
      rw [show 0 + 1 + 1 + 1 + 1 + 1 + 1 + m = m + 6 by omega]
      exact spread_last
    simp [emitPiece, emitClose, gateDataRef, henv, readAt_of_getElem? harm, pure, Except.pure]
  have hrest : Emits (lateClose m) (lateBlocks m) env 1 (.cdeterminate :: .cdeterminate ::
      .cblock :: .cend (.pool 0) :: .cif (.node 1) (.node 4) (.pool 0) ::
      (replicate m .cdeterminate ++ [.cend (.pool 0)])) := by
    apply Emits.cons ⟨_, rfl⟩
    apply Emits.cons ⟨_, rfl⟩
    apply Emits.cons ⟨_, rfl⟩
    apply Emits.cons
    · simp only [emitPiece, emitClose, gateDataRef, henv]
      exact ⟨_, rfl⟩
    apply Emits.cons ⟨_, rfl⟩
    apply Emits.gates
    exact Emits.cons hlast ⟨[], rfl⟩
  have hhead :
      emitPiece (lateClose m) (lateBlocks m) env 0 .cblock = .ok [.openIf 5 (.node 1)] := by
    simp only [emitPiece, emitOpen, henv]
    rfl
  obtain ⟨rest, hrest⟩ := hrest
  exact ⟨rest, emitBlocks_cons hhead hrest⟩

end LateClose

section
attribute [local instance] knownDigests asciiTables

/-- Emission of the late close succeeds, and its first piece reads node 1. -/
theorem emitModule_lateClose {m : ℕ} (hm : m + 2 = 2 ^ 32) :
    ∃ out rest, emitModule noTables (lateClose m) "f" [] = .ok out ∧
      out.prologue = emitPrologue (lateClose m) out.safeName [.data [.raw "Value::Unit"]] ∧
      out.pieces = .openIf 5 (.node 1) :: rest := by
  have hcalls : ∀ node ∈ (lateClose m).nodes, ∀ id args targetName,
      node ≠ .ccall id args targetName := by
    intro node hnode id args targetName
    simp only [lateClose, mem_cons, mem_append, mem_replicate, not_mem_nil, or_false] at hnode
    rcases hnode with rfl | rfl | rfl | rfl | rfl | rfl | ⟨-, rfl⟩ | rfl <;> simp
  have hkinds : classifyPool noTables 0 (lateClose m).constantPool =
      .ok [.data [.raw "Value::Unit"]] := rfl
  obtain ⟨rest, hrest⟩ := emitBlocks_lateClose (m := m)
    (callEnv noTables (lateClose m) [.data [.raw "Value::Unit"]] (lateBlocks m)) rfl
  refine ⟨_, rest, emitModule_eq_ok.mpr ⟨?_, ?_, _, _, _, hkinds, verifyBlocks_lateClose hm, hrest,
    rfl, rfl⟩, rfl, rfl⟩
  · exact validateTargets_of_forall fun node hnode id args targetName h =>
      (hcalls node hnode id args targetName h).elim
  · exact checkChannels_of_forall fun node hnode id args targetName h =>
      (hcalls node hnode id args targetName h).elim

end

/-- Calls of constants, and gates: a bundle without blocks. -/
def CoreBundle.Flat (b : CoreBundle) : Prop :=
  ∀ node ∈ b.nodes, node = .cdeterminate ∨ ∃ id args targetName, node = .ccall id args targetName ∧
    ∀ r ∈ args.toList, ∃ p, r = .pool p

section Flat
variable {b : CoreBundle} {blocks : Blocks} {flags : List Bool} {i : ℕ}

theorem checkAll_pool {who : String} {rs : List NodeRef} (h : ∀ r ∈ rs, ∃ p, r = .pool p) :
    checkAll b blocks flags who rs = .ok () := by
  induction rs with
  | nil => rfl
  | cons r rs ih =>
    obtain ⟨p, rfl⟩ := h r mem_cons_self
    exact ih fun r hr => h r (mem_cons_of_mem _ hr)

theorem references_flat {nodes : List Node} (hflat : ∀ node ∈ nodes, node = .cdeterminate ∨
      ∃ id args targetName, node = .ccall id args targetName ∧
        ∀ r ∈ args.toList, ∃ p, r = .pool p) : references b blocks i nodes flags = .ok flags := by
  induction nodes generalizing i with
  | nil => rfl
  | cons node nodes ih =>
    have hrest := ih (i := i + 1) fun node hnode => hflat node (mem_cons_of_mem _ hnode)
    rcases hflat node mem_cons_self with rfl | ⟨id, args, targetName, rfl, hargs⟩
    · rw [references_cons rfl, hrest]
    · rw [references_cons (f := flags) (by simp [referenceStep, checkAll_pool hargs, pure,
        Except.pure]), hrest]

variable [Sha256]

def emptyBlocks (n : ℕ) : Blocks :=
  ⟨replicate n none, replicate n none, replicate n none⟩

theorem scan_flat {home partner : List (Option UInt32)} {arm : List (Option (UInt32 × Arm))}
    {nodes : List Node} (hflat : ∀ node ∈ nodes, node.role = .plain ∧ node.arms = [])
    (hhome : ∀ j < i + nodes.length, home[j]? = some none) :
    scan b i nodes ⟨home, partner, arm, []⟩ = .ok ⟨home, partner, arm, []⟩ := by
  induction nodes generalizing i with
  | nil => rfl
  | cons node nodes ih =>
    obtain ⟨hlt, hget⟩ := List.getElem?_eq_some_iff.mp (hhome i (by simp))
    have hset : home.set i none = home := by
      rw [← hget]
      exact set_getElem_self hlt
    have hstep : scanStep b ⟨home, partner, arm, []⟩ i node = .ok ⟨home, partner, arm, []⟩ := by
      have hnode := hflat node mem_cons_self
      cases node with
      | cdeterminate | ccall id args targetName =>
        simp [scanStep, writeAt_of_lt hlt, hset, pure, Except.pure]
      | cif c t e => simp [Node.arms] at hnode
      | cblock | cend value => simp [Node.role] at hnode
    rw [scan_cons hstep]
    exact ih (fun node hnode => hflat node (mem_cons_of_mem _ hnode))
      (fun j hj => hhome j (by simp only [length_cons]; omega))

/-- The verifier accepts a bundle without blocks, and its tables are empty. -/
theorem verifyBlocks_flat (hflat : b.Flat) (hres : ∀ j, b.result = .node j →
      b.nodes[j.toNat]? = some .cdeterminate) :
    verifyBlocks b = .ok (emptyBlocks b.nodes.length) := by
  have hrole : ∀ node ∈ b.nodes, node.role = .plain ∧ node.arms = [] := by
    intro node hnode
    rcases hflat node hnode with rfl | ⟨id, args, targetName, rfl, -⟩ <;> exact ⟨rfl, rfl⟩
  have hscan : scan b 0 b.nodes ⟨replicate b.nodes.length none,
      replicate b.nodes.length none, replicate b.nodes.length none, []⟩ = .ok _ :=
    scan_flat hrole fun j hj => getElem?_replicate_of_lt (by omega)
  have hcheck : check b (emptyBlocks b.nodes.length) (replicate b.nodes.length false)
      "the result" b.result = .ok () := by
    cases hr : b.result with
    | pool p => rfl
    | node j =>
      have hnode := hres j hr
      have hlt := (List.getElem?_eq_some_iff.mp hnode).1
      have hhome : (emptyBlocks b.nodes.length).home[j.toNat]? = some none :=
        getElem?_replicate_of_lt hlt
      simp [check, readAt_of_getElem? hnode, checkOpen, readAt_of_getElem? hhome, pure, Except.pure]
  simp only [verifyBlocks]
  rw [hscan]
  show (do
    let opened ← references b (emptyBlocks b.nodes.length) 0 b.nodes _
    check b (emptyBlocks b.nodes.length) opened "the result" b.result
    return emptyBlocks b.nodes.length) = _
  rw [references_flat hflat, Res.ok_bind, hcheck]
  rfl

end Flat

/-- Node 1 and, after `m` gates, node `m + 2` pass the constant 0: with `m + 2 = 2 ^ 32` the index
of the second use is cast to 0. -/
def usedTwice [Sha256] (m : ℕ) : CoreBundle where
  version := "0.6"
  constantPool := [unitEntry]
  nodes := .cdeterminate :: .ccall (nameIdentity "list_append") (oneArg (.pool 0)) noName ::
    (replicate m .cdeterminate ++
      [.ccall (nameIdentity "list_append") (oneArg (.pool 0)) noName])
  result := .node 0

section UsedTwice
variable {m : ℕ}

theorem asU32_usedTwice (hm : m + 2 = 2 ^ 32) : asU32 (m + 2) = 0 := by
  show asU32 (m + 2) = UInt32.ofNat 0
  apply UInt32.toNat_inj.mp
  simp only [asU32, UInt32.toNat_ofNat']
  omega

variable [Sha256]

theorem length_usedTwice : (usedTwice m).nodes.length = m + 3 := by
  simp [usedTwice]

theorem mem_usedTwice {node : Node} (h : node ∈ (usedTwice m).nodes) :
    node = .cdeterminate ∨
      node = .ccall (nameIdentity "list_append") (oneArg (.pool 0)) noName := by
  simp only [usedTwice, mem_cons, mem_append, mem_replicate, not_mem_nil, or_false] at h
  rcases h with h | h | ⟨-, h⟩ | h <;> simp [h]

theorem flat_usedTwice : (usedTwice m).Flat := by
  intro node hnode
  rcases mem_usedTwice hnode with rfl | rfl
  · exact Or.inl rfl
  · exact Or.inr ⟨_, _, _, rfl, fun r hr => ⟨0, mem_singleton.mp hr⟩⟩

theorem inRange_usedTwice : (usedTwice m).InRange where
  node := by
    intro u node r hu hr
    rcases mem_usedTwice (mem_of_getElem? hu) with rfl | rfl
    · simp [Node.refs, Node.reads, Node.arms] at hr
    · simp [Node.refs, Node.reads, Node.arms, oneArg] at hr
      subst hr
      simp [NodeRef.InRange, usedTwice]
  result := by simp [NodeRef.InRange, usedTwice]

theorem uses_usedTwice (hm : m + 2 = 2 ^ 32) :
    (usedTwice m).uses = [(.pool 0, 1), (.pool 0, 0), (.node 0, RESULT_USE)] := by
  have hgates : ((replicate m Node.cdeterminate).zipIdx 2).flatMap
      (fun p => p.1.reads.map fun r => (r, asU32 p.2)) = [] := by
    rw [flatMap_eq_nil_iff]
    rintro ⟨node, k⟩ hk
    obtain ⟨-, rfl⟩ := mem_replicate.mp (fst_mem_of_mem_zipIdx hk)
    rfl
  have hlast : asU32 (2 + m) = 0 := by
    rw [add_comm]
    exact asU32_usedTwice hm
  rw [CoreBundle.uses, usedTwice, zipIdx_cons, zipIdx_cons, zipIdx_append,
    flatMap_cons, flatMap_cons, flatMap_append, hgates, length_replicate]
  show [(NodeRef.pool 0, (1 : UInt32))] ++ [(NodeRef.pool 0, asU32 (2 + m))] ++ _ = _
  rw [hlast]
  rfl

theorem usesOf_usedTwice (hm : m + 2 = 2 ^ 32) : (usedTwice m).usesOf (.pool 0) = [1, 0] := by
  rw [CoreBundle.usesOf, uses_usedTwice hm]
  rfl

theorem lastUses_usedTwice (hm : m + 2 = 2 ^ 32) {top : List UInt32} (h0 : 0 ∈ top) (h1 : 1 ∈ top) :
    lastUses (usedTwice m) top (.pool 0) 1 = true := by
  have hmax : [(1 : UInt32), 0].max? = some 1 := rfl
  simp [lastUses, usesOf_usedTwice hm, hmax, h0, h1]
  decide

theorem topLevel_usedTwice :
    0 ∈ topLevel (usedTwice m) (emptyBlocks (m + 3)) ∧
      1 ∈ topLevel (usedTwice m) (emptyBlocks (m + 3)) := by
  constructor
  · refine mem_map.mpr ⟨(.cdeterminate, 0), mem_filter.mpr ⟨?_, ?_⟩, rfl⟩
    · exact mem_zipIdx_iff_getElem?.mpr rfl
    · simp [emptyBlocks]
  · refine mem_map.mpr ⟨(.ccall (nameIdentity "list_append") (oneArg (.pool 0)) noName, 1),
      mem_filter.mpr ⟨?_, ?_⟩, rfl⟩
    · exact mem_zipIdx_iff_getElem?.mpr rfl
    · simp [emptyBlocks]

end UsedTwice

attribute [local instance] knownDigests asciiTables

/-- A call of `list_append` under no name passes its argument as a value. -/
theorem emitPiece_usedTwice (b : CoreBundle) (blocks : Blocks) {env : CallEnv} (i : ℕ)
    (htables : env.tables = aliasTables) (hkinds : env.poolKinds = [.data [.raw "Value::Unit"]]) :
    ∃ toks, emitPiece b blocks env i
        (.ccall (nameIdentity "list_append") (oneArg (.pool 0)) noName) = .ok [.bind i toks] ∧
      .use (takeMode env.moves (.pool 0) (asU32 i)) (.pool 0) ∈ toks := by
  have htarget : resolveTarget aliasTables (nameIdentity "list_append") noName.toString =
      .ok ⟨"", listAppendPath, false⟩ := rfl
  have hargs : aliasTables.argKinds "" = none := rfl
  have hnative : aliasTables.nativeCalls "" = none := rfl
  simp [emitPiece, emitCall, htables, htarget, hargs, hnative, checkCount, oneArg, argExprs,
    argExpr, gateDataArg, hkinds, dataExpr, Res.mapErr, pure, Except.pure]
  simp [callToks, guarded, callBody, refTake, refExpr, commaSep]

theorem emitBlocks_usedTwice {m : ℕ} (env : CallEnv) (htables : env.tables = aliasTables)
    (hkinds : env.poolKinds = [.data [.raw "Value::Unit"]]) :
    ∃ first toks rest, emitBlocks (usedTwice m) (emptyBlocks (m + 3)) env 0 (usedTwice m).nodes =
      .ok (first :: .bind 1 toks :: rest) ∧ .use (takeMode env.moves (.pool 0) 1) (.pool 0) ∈ toks ∧
      ∃ how, .use how (.pool 0) ∈ rest.flatMap Piece.toks := by
  obtain ⟨toks, hcall, huse⟩ :=
    emitPiece_usedTwice (usedTwice m) (emptyBlocks (m + 3)) 1 htables hkinds
  obtain ⟨later, hlater, hlast⟩ :=
    emitPiece_usedTwice (usedTwice m) (emptyBlocks (m + 3)) (2 + m) htables hkinds
  have htail : Emits (usedTwice m) (emptyBlocks (m + 3)) env 2 (replicate m .cdeterminate ++
      [.ccall (nameIdentity "list_append") (oneArg (.pool 0)) noName]) :=
    Emits.gates (Emits.cons ⟨_, hlater⟩ ⟨[], rfl⟩)
  obtain ⟨rest, hrest⟩ := htail
  refine ⟨.bind 0 [.raw "Value::Unit"], toks, rest, ?_, huse,
    takeMode env.moves (.pool 0) (asU32 (2 + m)), ?_⟩
  · have hgate : emitPiece (usedTwice m) (emptyBlocks (m + 3)) env 0 .cdeterminate =
        .ok [.bind 0 [.raw "Value::Unit"]] := rfl
    exact emitBlocks_cons hgate (emitBlocks_cons hcall hrest)
  · refine mem_flatMap.mpr ⟨.bind (2 + m) later, ?_, mem_append_left _ (mem_cons_of_mem _ hlast)⟩
    refine (mem_emitBlocks hrest).mpr ⟨_, 2 + m, _, ?_, hlater, mem_singleton_self _⟩
    simp [zipIdx_append, add_comm]

/-- Emission succeeds, and moves the constant at its first use. -/
theorem emitModule_usedTwice {m : ℕ} (hm : m + 2 = 2 ^ 32) :
    ∃ out first toks rest, emitModule aliasTables (usedTwice m) "f" [] = .ok out ∧
      out.pieces = first :: .bind 1 toks :: rest ∧ .use .take (.pool 0) ∈ toks ∧
      ∃ how, .use how (.pool 0) ∈ rest.flatMap Piece.toks := by
  have hkinds : classifyPool aliasTables 0 (usedTwice m).constantPool =
      .ok [.data [.raw "Value::Unit"]] := rfl
  have hblocks : verifyBlocks (usedTwice m) = .ok (emptyBlocks (m + 3)) := by
    rw [verifyBlocks_flat flat_usedTwice, length_usedTwice]
    intro j hj
    cases hj
    rfl
  obtain ⟨first, toks, rest, hp, huse, hlast⟩ := emitBlocks_usedTwice (m := m)
    (callEnv aliasTables (usedTwice m) [.data [.raw "Value::Unit"]] (emptyBlocks (m + 3))) rfl rfl
  have hmoves : takeMode (lastUses (usedTwice m) (topLevel (usedTwice m) (emptyBlocks (m + 3))))
      (.pool 0) 1 = .take :=
    if_pos (lastUses_usedTwice hm topLevel_usedTwice.1 topLevel_usedTwice.2)
  refine ⟨_, first, toks, rest, emitModule_eq_ok.mpr ⟨?_, ?_, _, _, _, hkinds, hblocks, hp, rfl,
    rfl⟩, rfl, hmoves ▸ huse, hlast⟩
  · refine validateTargets_of_forall fun node hnode id args targetName h => ?_
    rcases mem_usedTwice hnode with rfl | rfl
    · cases h
    · cases h
      rfl
  · refine checkChannels_of_forall fun node hnode id args targetName h => ?_
    rcases mem_usedTwice hnode with rfl | rfl
    · cases h
    · cases h
      decide

end AxisBridge
