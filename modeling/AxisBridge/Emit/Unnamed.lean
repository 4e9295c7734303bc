import AxisBridge.Emit.Module

/-! A bundle without its display names: its blocks, and the parts of its emission that read no
name. -/
namespace AxisBridge
open List

/-- A node without its display name. -/
def Node.unnamed : Node → Node
  | .ccall targetIdentity args _ => .ccall targetIdentity args noName
  | node => node

/-- A bundle without its display names. -/
def CoreBundle.unnamed (b : CoreBundle) : CoreBundle := { b with nodes := b.nodes.map Node.unnamed }

variable {b b' : CoreBundle} {blocks : Blocks} {j k : UInt32} {i : ℕ} {node : Node} {s : Scan}

/-! ### The blocks -/

theorem reads_unnamed : node.unnamed.reads = node.reads := by cases node <;> rfl

theorem isEnd_unnamed : b.unnamed.isEnd j = b.isEnd j := by
  simp only [CoreBundle.isEnd, CoreBundle.unnamed, getElem?_map]
  cases b.nodes[j.toNat]? with
  | none => rfl
  | some node => cases node <;> rfl

theorem nameArm_unnamed {arm : List (Option (UInt32 × Arm))} {r : NodeRef} {which : Arm} :
    nameArm b.unnamed k arm r which = nameArm b k arm r which := by
  cases r with
  | pool p => rfl
  | node j => simp only [nameArm, isEnd_unnamed]

theorem length_unnamed : b.unnamed.nodes.length = b.nodes.length := length_map _

theorem readAt_unnamed : readAt b.unnamed.nodes i = (readAt b.nodes i).map Node.unnamed := by
  simp only [readAt, CoreBundle.unnamed, getElem?_map, length_map]
  cases b.nodes[i]? <;> rfl

section
variable [Sha256]

theorem armsInPlace_unnamed {partner : List (Option UInt32)} {then_ else_ : NodeRef} :
    armsInPlace b.unnamed partner k then_ else_ = armsInPlace b partner k then_ else_ := by
  have hunit : b.unnamed.unitElse else_ = b.unitElse else_ := rfl
  cases then_ with
  | pool p => cases else_ <;> rfl
  | node t =>
    cases else_ with
    | pool p | node e => simp only [armsInPlace, isEnd_unnamed, hunit]

theorem scanStep_unnamed : scanStep b.unnamed s i node.unnamed = scanStep b s i node := by
  cases node with
  | cif cond then_ else_ =>
    simp only [scanStep, Node.unnamed, nameArm_unnamed, armsInPlace_unnamed]
  | _ => rfl

theorem scan_unnamed {nodes : List Node} :
    scan b.unnamed i (nodes.map Node.unnamed) s = scan b i nodes s := by
  induction nodes generalizing i s with
  | nil => rfl
  | cons node nodes ih =>
    simp only [map_cons, scan, scanStep_unnamed]
    congr 1
    funext s'
    exact ih

end

variable {opened : List Bool} {who : String} {kinds : List PoolKind}

theorem checkOpen_unnamed :
    checkOpen b.unnamed blocks opened who j = checkOpen b blocks opened who j := by
  simp only [checkOpen, length_unnamed]

theorem check_unnamed {used : NodeRef} :
    check b.unnamed blocks opened who used = check b blocks opened who used := by
  cases used with
  | pool p => rfl
  | node j =>
    simp only [check, readAt_unnamed, checkOpen_unnamed]
    cases readAt b.nodes j.toNat with
    | error e => rfl
    | ok node => cases node <;> rfl

theorem checkAll_unnamed {refs : List NodeRef} :
    checkAll b.unnamed blocks opened who refs = checkAll b blocks opened who refs := by
  induction refs with
  | nil => rfl
  | cons r refs ih => simp only [checkAll, check_unnamed, ih]

theorem referenceStep_unnamed :
    referenceStep b.unnamed blocks opened i node.unnamed =
      referenceStep b blocks opened i node := by
  cases node with
  | cend value | cif cond then_ else_ => simp only [referenceStep, Node.unnamed, check_unnamed]
  | ccall id args name => simp only [referenceStep, Node.unnamed, checkAll_unnamed]
  | _ => rfl

theorem references_unnamed {nodes : List Node} :
    references b.unnamed blocks i (nodes.map Node.unnamed) opened =
      references b blocks i nodes opened := by
  induction nodes generalizing i opened with
  | nil => rfl
  | cons node nodes ih =>
    simp only [map_cons, references, referenceStep_unnamed]
    congr 1
    funext opened'
    exact ih

theorem verifyBlocks_unnamed [Sha256] : verifyBlocks b.unnamed = verifyBlocks b := by
  have hscan : ∀ s, scan b.unnamed 0 b.unnamed.nodes s = scan b 0 b.nodes s := fun _ => scan_unnamed
  have hrefs : ∀ blocks opened, references b.unnamed blocks 0 b.unnamed.nodes opened =
      references b blocks 0 b.nodes opened := fun _ _ => references_unnamed
  simp only [verifyBlocks, length_unnamed, hscan, hrefs, check_unnamed]
  rfl

/-! ### Everything but the calls -/

theorem uses_unnamed : b.unnamed.uses = b.uses := by
  simp [CoreBundle.uses, CoreBundle.unnamed, zipIdx_map, flatMap_map, reads_unnamed]

theorem lastUses_unnamed {top : List UInt32} : lastUses b.unnamed top = lastUses b top := by
  funext r index
  have huses : b.unnamed.usesOf r = b.usesOf r := by simp only [CoreBundle.usesOf, uses_unnamed]
  rw [lastUses, lastUses, huses]

theorem topLevel_unnamed : topLevel b.unnamed blocks = topLevel b blocks := by
  simp only [topLevel, CoreBundle.unnamed, zipIdx_map, filter_map, map_map]
  congr 1
  refine filter_congr fun p _ => ?_
  obtain ⟨node, i⟩ := p
  cases node <;> rfl

theorem callEnv_unnamed {t : Tables} :
    callEnv t b.unnamed kinds blocks = callEnv t b kinds blocks := by
  simp only [callEnv, topLevel_unnamed, lastUses_unnamed]
  rfl

theorem readAt_bind_unnamed {α : Type} {f g : Node → Res α} (h : ∀ node, f node.unnamed = g node) :
    (readAt b.unnamed.nodes i >>= f) = readAt b.nodes i >>= g := by
  rw [readAt_unnamed]
  cases readAt b.nodes i with
  | error e => rfl
  | ok node => exact h node

theorem emitOpen_unnamed : emitOpen b.unnamed blocks kinds i = emitOpen b blocks kinds i := by
  refine bind_congr fun partner => bind_congr fun end_ => bind_congr fun arm => ?_
  match arm with
  | none => rfl
  | some (k, .else_) => rfl
  | some (k, .then_) => exact readAt_bind_unnamed fun node => by cases node <;> rfl

theorem emitClose_unnamed {env : CallEnv} {value : NodeRef} :
    emitClose b.unnamed blocks env i value = emitClose b blocks env i value := by
  refine bind_congr fun _ => bind_congr fun arm => ?_
  match arm with
  | none => rfl
  | some (k, .else_) => rfl
  | some (k, .then_) => exact readAt_bind_unnamed fun node => by cases node <;> rfl

variable [Sha256] {t : Tables} {id : Hash256} {n n' : String}

theorem targetError_eq_none (h : targetError t id n = none) : targetError t id n' = none := by
  simp only [targetError] at h ⊢
  split
  · rfl
  · rename_i hbuiltin
    rw [if_neg hbuiltin] at h
    split
    · rename_i name hname
      simpa only [hname] using h
    · rename_i hname
      simp only [hname] at h
      split
      · rfl
      · rename_i hprovided
        rw [if_neg hprovided] at h
        split at h <;> cases h

theorem validateTargets_eq_ok : validateTargets t b = .ok () ↔
    ∀ id args name, .ccall id args name ∈ b.nodes → targetError t id name.toString = none := by
  simp only [validateTargets]
  split
  · rename_i herrors
    refine iff_of_true rfl fun id args name hmem => ?_
    exact filterMap_eq_nil_iff.mp herrors _ hmem
  · rename_i herrors
    refine iff_of_false nofun fun hall => herrors ?_
    refine filterMap_eq_nil_iff.mpr fun node hmem => ?_
    cases node with
    | ccall id args name => exact hall id args name hmem
    | _ => rfl

variable [CharTables]

theorem checkChannels_unnamed {nodes : List Node} :
    checkChannels t b.unnamed (nodes.map Node.unnamed) = checkChannels t b nodes := by
  induction nodes with
  | nil => rfl
  | cons node nodes ih =>
    cases node with
    | ccall id args name =>
      simp only [map_cons, Node.unnamed, checkChannels, ih]
      rfl
    | _ => simpa only [map_cons, Node.unnamed, checkChannels] using ih

end AxisBridge
