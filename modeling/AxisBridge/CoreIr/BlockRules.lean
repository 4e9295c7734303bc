import AxisBridge.CoreIr.VerifyBlocks

/-! The five block rules as statements about the nodes alone. -/
namespace AxisBridge
open Nesting

/-- The `CIf` at `k` names the `CEnd` at `j` as the end of one of its arms. -/
def CoreBundle.NamesArm (b : CoreBundle) (k : ℕ) (which : Arm) (j : UInt32) : Prop :=
  b.isEnd j = true ∧ ∃ node, b.nodes[k]? = some node ∧ (which, .node j) ∈ node.arms

section
variable [Sha256]

/-- Rule 2: the else arm directly before `k` and the then arm directly before that block, or a
then arm directly before `k` and a Unit else. -/
def CoreBundle.ArmsPlaced (b : CoreBundle) (k : ℕ) (then_ else_ : NodeRef) : Prop :=
  (∃ t e open_, then_ = .node t ∧ else_ = .node e ∧ b.isEnd t = true ∧ e.toNat + 1 = k ∧
    Matches b.role open_ e.toNat ∧ t.toNat + 1 = open_) ∨
  (∃ t, then_ = .node t ∧ b.isEnd t = true ∧ t.toNat + 1 = k ∧ b.unitElse else_ = true)

/-- `j` may be used where `i` stands: every block around `j` is still open there. -/
def CoreBundle.Visible (b : CoreBundle) (j i : ℕ) : Prop :=
  ∀ open_, Inside b.role open_ j → Encloses b.role open_ i

/-- Rules 1 to 5 with rule 3 read literally: an arm's `CEnd` is referenced by its one `CIf` only. -/
structure CoreBundle.DeclaredRules (b : CoreBundle) : Prop where
  balanced : Balanced b.role b.nodes.length
  placed : ∀ {k : ℕ} {cond then_ else_ : NodeRef}, b.nodes[k]? = some (.cif cond then_ else_) →
    b.ArmsPlaced k then_ else_
  armOwner : ∀ {k u : ℕ} {which : Arm} {j : UInt32} {node : Node}, b.NamesArm k which j →
    b.nodes[u]? = some node → .node j ∈ node.refs → u = k
  armResult : ∀ {k : ℕ} {which : Arm} {j : UInt32}, b.NamesArm k which j → b.result ≠ .node j
  noBlock : ∀ {u : ℕ} {node : Node} {j : UInt32}, b.nodes[u]? = some node → .node j ∈ node.refs →
    b.nodes[j.toNat]? ≠ some .cblock
  resultNoBlock : ∀ {j : UInt32}, b.result = .node j → b.nodes[j.toNat]? ≠ some .cblock
  visible : ∀ {u : ℕ} {node : Node} {j : UInt32}, b.nodes[u]? = some node → .node j ∈ node.refs →
    b.Visible j.toNat u
  resultVisible : ∀ {j : UInt32}, b.result = .node j → b.Visible j.toNat b.nodes.length

/-- The rules as the verifier reads them: no value position reads an arm's `CEnd`, not even the
condition of the `CIf` that owns it. -/
structure CoreBundle.BlockRules (b : CoreBundle) : Prop extends b.DeclaredRules where
  armRead : ∀ {k u : ℕ} {which : Arm} {j : UInt32} {node : Node}, b.NamesArm k which j →
    b.nodes[u]? = some node → .node j ∉ node.reads

end

variable {b : CoreBundle} {j : UInt32} {k : ℕ}

theorem CoreBundle.isEnd_iff :
    b.isEnd j = true ↔ ∃ value, b.nodes[j.toNat]? = some (.cend value) := by
  unfold CoreBundle.isEnd
  split
  · simp_all
  · simp_all

theorem CoreBundle.role_closer_iff {i : ℕ} :
    b.role i = .closer ↔ ∃ value, b.nodes[i]? = some (.cend value) := by
  unfold CoreBundle.role
  cases h : b.nodes[i]? with
  | none => simp
  | some node => cases node <;> simp [Node.role]

theorem CoreBundle.role_opener_iff {i : ℕ} : b.role i = .opener ↔ b.nodes[i]? = some .cblock := by
  unfold CoreBundle.role
  cases h : b.nodes[i]? with
  | none => simp
  | some node => cases node <;> simp [Node.role]

theorem CoreBundle.isEnd_iff_closer : b.isEnd j = true ↔ b.role j.toNat = .closer := by
  rw [isEnd_iff, role_closer_iff]

theorem CoreBundle.lt_of_isEnd (h : b.isEnd j = true) : j.toNat < b.nodes.length := by
  obtain ⟨value, hv⟩ := isEnd_iff.mp h
  exact (List.getElem?_eq_some_iff.mp hv).1

theorem CoreBundle.NamesArm.lt {which : Arm} (h : b.NamesArm k which j) : k < b.nodes.length := by
  obtain ⟨-, node, hk, -⟩ := h
  exact (List.getElem?_eq_some_iff.mp hk).1

/-- Only a `CIf` names an arm, by its own then and else fields. -/
theorem CoreBundle.namesArm_iff {node : Node} {which : Arm} (hk : b.nodes[k]? = some node) :
    b.NamesArm k which j ↔ b.isEnd j = true ∧ (which, .node j) ∈ node.arms := by
  simp [NamesArm, hk]

theorem CoreBundle.namesArm_cif_then {cond else_ : NodeRef}
    (hk : b.nodes[k]? = some (.cif cond (.node j) else_)) (hj : b.isEnd j = true) :
    b.NamesArm k .then_ j :=
  (namesArm_iff hk).mpr ⟨hj, by simp [Node.arms]⟩

theorem CoreBundle.namesArm_cif_else {cond then_ : NodeRef}
    (hk : b.nodes[k]? = some (.cif cond then_ (.node j))) (hj : b.isEnd j = true) :
    b.NamesArm k .else_ j :=
  (namesArm_iff hk).mpr ⟨hj, by simp [Node.arms]⟩

end AxisBridge
