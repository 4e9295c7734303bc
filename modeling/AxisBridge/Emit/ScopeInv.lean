import AxisBridge.CoreIr.BlockRun
import AxisBridge.Emit.NodeSpec

/-! The scopes of the emitted body mirror the open blocks: what each node's piece preserves. -/
namespace AxisBridge
open List Nesting CoreBundle Node

/-- Where a variable's `let` stands: in the blocks around its node, a constant's in none. -/
def CoreBundle.varPath (b : CoreBundle) : Var → List ℕ
  | .node j => enclosing b.role j
  | .pool _ => []

/-- The variables bound before node `i`, wherever their blocks are: nodes that are no `CBlock` and
end no arm, a `CIf` with the last of its arms, and the constants that are no function references. -/
def CoreBundle.Emitted (b : CoreBundle) (kinds : List PoolKind) (i : ℕ) : Var → Prop
  | .node j => (∃ node, b.nodes[j]? = some node ∧ node ≠ .cblock ∧
      (j < i ∨ (j = i ∧ ∃ c t e, node = .cif c t e))) ∧ ∀ k w, ¬ b.NamesArm k w (asU32 j)
  | .pool p => ∃ kind, kinds[p]? = some kind ∧ ∀ target, kind ≠ .fnRef target

/-- The variable a block's text binds: its `CIf`, or its own `CEnd`. -/
def Blocks.nameOf (blocks : Blocks) (o : ℕ) : Var :=
  match blocks.partner[o]? with
  | some (some e) =>
    match blocks.arm[e.toNat]? with
    | some (some (k, _)) => .node k.toNat
    | _ => .node e.toNat
  | _ => .node o

/-- The `CBlock` at `i` opens an else-arm. -/
def CoreBundle.ElseOpener (b : CoreBundle) (i : ℕ) : Prop :=
  ∃ k e : UInt32, Matches b.role i e.toNat ∧ b.NamesArm k.toNat .else_ e

/-- The blocks whose braces are open before node `i`: an else-arm's are since its then-arm's end. -/
def CoreBundle.OpenPath (b : CoreBundle) (i : ℕ) (os : List ℕ) : Prop :=
  (¬ b.ElseOpener i ∧ os = opened b.role i) ∨ (b.ElseOpener i ∧ os = i :: opened b.role i)

/-- A bundle the verifier accepted, with its tables, and the kinds of its constants. -/
structure Accepted [Sha256] (b : CoreBundle) (blocks : Blocks) (kinds : List PoolKind) : Prop where
  small : b.nodes.length ≤ 2 ^ 32
  range : b.InRange
  rules : b.BlockRules
  tables : Blocks.Exact b blocks
  poolLength : kinds.length = b.constantPool.length

/-- Before node `i` the scopes mirror the open braces. -/
def ScopeInv (b : CoreBundle) (blocks : Blocks) (kinds : List PoolKind) (i : ℕ)
    (fs : List (Scope.Frame Var)) : Prop :=
  ∃ os, b.OpenPath i os ∧
    Scope.Mirror (b.Emitted kinds i) b.varPath blocks.nameOf os fs none

variable {b : CoreBundle} {blocks : Blocks} {kinds : List PoolKind} {i k : ℕ}
  {cond then_ else_ : NodeRef}

theorem CoreBundle.ElseOpener.role_eq (h : b.ElseOpener i) : b.role i = .opener := by
  obtain ⟨k, e, hm, -⟩ := h
  exact hm.1.1

/-- What a step adds: the node itself, or the `CIf` after it. -/
theorem emitted_succ {x : Var} (h : b.Emitted kinds (i + 1) x) :
    b.Emitted kinds i x ∨ (x = .node i ∧ b.nodes[i]? ≠ some .cblock ∧
      (∀ c t e, b.nodes[i]? ≠ some (.cif c t e)) ∧ ∀ k w, ¬ b.NamesArm k w (asU32 i)) ∨
      (x = .node (i + 1) ∧ ∃ c t e, b.nodes[i + 1]? = some (.cif c t e)) := by
  cases x with
  | pool p => exact .inl h
  | node j =>
    obtain ⟨⟨node, hnode, hblock, hj⟩, harm⟩ := h
    rcases hj with hj | ⟨rfl, c, t, e, rfl⟩
    · rcases Nat.lt_succ_iff_lt_or_eq.mp hj with hj | rfl
      · exact .inl ⟨⟨node, hnode, hblock, .inl hj⟩, harm⟩
      · by_cases hcif : ∃ c t e, node = .cif c t e
        · exact .inl ⟨⟨node, hnode, hblock, .inr ⟨rfl, hcif⟩⟩, harm⟩
        · refine .inr (.inl ⟨rfl, ?_, ?_, harm⟩)
          · rw [hnode]
            simpa using hblock
          · rintro c t e heq
            rw [hnode, Option.some.injEq] at heq
            exact hcif ⟨c, t, e, heq⟩
    · exact .inr (.inr ⟨rfl, c, t, e, hnode⟩)

/-- Only an arm's end is named as one. -/
theorem not_namesArm_of_role (hi : i < 2 ^ 32) (h : b.role i ≠ .closer) (k : ℕ) (w : Arm) :
    ¬ b.NamesArm k w (asU32 i) := by
  intro harm
  have hcloser := isEnd_iff_closer.mp harm.1
  rw [toNat_asU32 hi] at hcloser
  exact h hcloser

theorem emitted_node {j : UInt32} (hj : j.toNat < b.nodes.length) (hji : j.toNat < i)
    (hblock : b.nodes[j.toNat]? ≠ some .cblock) (harm : ∀ k w, ¬ b.NamesArm k w j) :
    b.Emitted kinds i (.node j.toNat) := by
  refine ⟨⟨b.nodes[j.toNat], getElem?_eq_getElem hj, ?_, .inl hji⟩, ?_⟩
  · intro heq
    exact hblock (heq ▸ getElem?_eq_getElem hj)
  · simpa using harm

/-- What was bound in blocks that are still open is in sight. -/
theorem ScopeInv.visible {fs : List (Scope.Frame Var)} (h : ScopeInv b blocks kinds i fs) {x : Var}
    (hx : b.Emitted kinds i x) (hpath : ∃ pre, opened b.role i = pre ++ b.varPath x) :
    Scope.Visible fs x := by
  obtain ⟨os, hos, hm⟩ := h
  obtain ⟨pre, hpre⟩ := hpath
  have hsuffix : ∃ pre, os = pre ++ b.varPath x := by
    rcases hos with ⟨-, rfl⟩ | ⟨-, rfl⟩
    · exact ⟨pre, hpre⟩
    · exact ⟨i :: pre, by rw [hpre, cons_append]⟩
  obtain ⟨pre', rfl⟩ := hsuffix
  exact hm.visible hx

variable [Sha256]

theorem Accepted.noUnderflow (A : Accepted b blocks kinds) {i : ℕ} (hi : i ≤ b.nodes.length) :
    NoUnderflow b.role i := A.tables.balanced.1.mono hi

/-- The arms of a `CIf`, from the front: a then block, directly after it an else block when there is
one, and directly after that the `CIf`. -/
theorem CoreBundle.ArmsPlaced.cases (h : b.ArmsPlaced k then_ else_) :
    (∃ t e open_, then_ = .node t ∧ else_ = .node e ∧ b.isEnd t = true ∧ b.isEnd e = true ∧
      Matches b.role open_ e.toNat ∧ t.toNat + 1 = open_ ∧ e.toNat + 1 = k) ∨
    (∃ t p, then_ = .node t ∧ else_ = .pool p ∧ b.isEnd t = true ∧ t.toNat + 1 = k) := by
  rcases h with ⟨t, e, open_, rfl, rfl, ht, he, hm, hto⟩ | ⟨t, rfl, ht, htk, hunit⟩
  · exact .inl ⟨t, e, open_, rfl, rfl, ht, isEnd_iff_closer.mpr hm.2.1, hm, hto, he⟩
  · cases else_ with
    | node e => simp [unitElse] at hunit
    | pool p => exact .inr ⟨t, p, rfl, rfl, ht, htk⟩

/-- Directly before a `CIf` stands a `CEnd` that it names. -/
theorem Accepted.before_cif (A : Accepted b blocks kinds)
    (h : b.nodes[k]? = some (.cif cond then_ else_)) :
    ∃ j w, j.toNat + 1 = k ∧ b.NamesArm k w j := by
  rcases (A.rules.placed h).cases with ⟨t, e, o, rfl, rfl, -, he, -, -, hek⟩ |
    ⟨t, p, rfl, rfl, ht, htk⟩
  · exact ⟨e, .else_, hek, namesArm_cif_else h he⟩
  · exact ⟨t, .then_, htk, namesArm_cif_then h ht⟩

/-- Directly before an else-arm stands the end of the then-arm. -/
theorem Accepted.before_else (A : Accepted b blocks kinds) (h : b.ElseOpener i) :
    ∃ k t e cond, b.nodes[k]? = some (.cif cond (.node t) (.node e)) ∧ t.toNat + 1 = i ∧
      b.NamesArm k .then_ t ∧ b.NamesArm k .else_ e ∧ Matches b.role i e.toNat := by
  obtain ⟨k, e, hm, harm⟩ := h
  obtain ⟨hend, node, hnode, hmem⟩ := harm
  cases node with
  | cif cond then_ else_ =>
    simp only [arms, mem_cons, Prod.mk.injEq, reduceCtorEq, false_and, true_and,
      not_mem_nil, or_false, false_or] at hmem
    subst hmem
    have helt := lt_of_isEnd hend
    rcases (A.rules.placed hnode).cases with
      ⟨t, e', o, rfl, he', ht, -, hm', hto, -⟩ | ⟨t, p, -, hp, -, -⟩
    · cases he'
      have hoi := hm'.unique_left hm
      exact ⟨k.toNat, t, e, cond, hnode, by omega, namesArm_cif_then hnode ht,
        namesArm_cif_else hnode hend, hm⟩
    · cases hp
  | _ => simp [arms] at hmem

/-- After a node that ends no arm, no `CIf` comes next. -/
theorem Accepted.no_cif_after (A : Accepted b blocks kinds) (h : ∀ k w, ¬ b.NamesArm k w (asU32 i))
    (c t e : NodeRef) : b.nodes[i + 1]? ≠ some (.cif c t e) := by
  intro hnode
  obtain ⟨j, w, hj, harm⟩ := A.before_cif hnode
  have hji : asU32 i = j := by
    rw [show i = j.toNat by omega, asU32_toNat]
  exact h _ _ (hji ▸ harm)

omit [Sha256] in
/-- The blocks around a visible node are the outermost ones that are open. -/
theorem opened_of_visible {j u : ℕ} (h : b.Visible j u) :
    ∃ pre, opened b.role u = pre ++ enclosing b.role j := by
  have hhead := visible_iff.mp h
  cases he : enclosing b.role j with
  | nil => exact ⟨opened b.role u, by simp⟩
  | cons o rest =>
    obtain ⟨hopener, -, hrest⟩ := enclosing_split he
    obtain ⟨pre, hpre⟩ := opened_of_mem (hhead o (by simp [he]))
    refine ⟨pre, ?_⟩
    rw [hpre, ← hrest, enclosing_of_ne (by simp [hopener])]

theorem Accepted.emitted_pool (A : Accepted b blocks kinds) {p : UInt32}
    (hp : p.toNat < b.constantPool.length) (hdata : DataRef kinds (.pool p)) :
    b.Emitted kinds i (.pool p.toNat) := by
  have hlt : p.toNat < kinds.length := A.poolLength ▸ hp
  refine ⟨kinds[p.toNat], getElem?_eq_getElem hlt, ?_⟩
  rintro target heq
  exact hdata p target rfl (heq ▸ getElem?_eq_getElem hlt)

variable {fs : List (Scope.Frame Var)}

theorem ScopeInv.visible_pool (A : Accepted b blocks kinds) (h : ScopeInv b blocks kinds i fs)
    {p : UInt32} (hp : p.toNat < b.constantPool.length) (hdata : DataRef kinds (.pool p)) :
    Scope.Visible fs (refExpr (.pool p)) :=
  h.visible (A.emitted_pool hp hdata) ⟨opened b.role i, by simp [refExpr, varPath]⟩

/-- What a node reads is in sight where the node stands. -/
theorem ScopeInv.visible_read (A : Accepted b blocks kinds) (h : ScopeInv b blocks kinds i fs)
    {node : Node} (hnode : b.nodes[i]? = some node) {r : NodeRef} (hr : r ∈ node.reads)
    (hdata : DataRef kinds r) : Scope.Visible fs (refExpr r) := by
  have hi : i < b.nodes.length := (List.getElem?_eq_some_iff.mp hnode).1
  have hmem : r ∈ node.refs := mem_append_left _ hr
  cases r with
  | pool p => exact h.visible_pool A (A.range.pool_lt hnode hmem) hdata
  | node j =>
    have hji := A.range.node_lt hnode hmem
    have harm : ∀ k w, ¬ b.NamesArm k w j := fun k w hkw => A.rules.armRead hkw hnode hr
    exact h.visible (emitted_node (by omega) hji (A.rules.noBlock hnode hmem) harm)
      (opened_of_visible (A.rules.visible hnode hmem))

theorem ScopeInv.visible_result (A : Accepted b blocks kinds)
    (h : ScopeInv b blocks kinds b.nodes.length fs) (hdata : DataRef kinds b.result) :
    Scope.Visible fs (refExpr b.result) := by
  cases hres : b.result with
  | pool p =>
    have hp := A.range.result
    rw [hres] at hp hdata
    exact h.visible_pool A hp hdata
  | node j =>
    have hj := A.range.result_lt hres
    have harm : ∀ k w, ¬ b.NamesArm k w j := fun k w hkw => A.rules.armResult hkw hres
    exact h.visible (emitted_node hj hj (A.rules.resultNoBlock hres) harm)
      (opened_of_visible (A.rules.resultVisible hres))

omit [Sha256] in
/-- Nothing inside a closed block is visible after it. -/
theorem not_visible_inside {o e j : ℕ} (hm : Matches b.role o e) (hoj : o < j) (hje : j < e)
    (hop : opened b.role k = opened b.role o) : ¬ b.Visible j k := by
  intro hv
  have hin := hm.mem_enclosing hoj hje
  have henc := hv o (mem_enclosing_iff.mp hin)
  have hmem := mem_of_encloses henc
  rw [hop] at hmem
  exact not_mem_opened_self o hmem

/-- From a then-arm's `CBlock` to its `CIf`: the same blocks are open, and nothing between them that
is no end of an arm is visible to the `CIf`. -/
theorem Accepted.then_span (A : Accepted b blocks kinds) {e : UInt32}
    (hm : Matches b.role i e.toNat) (harm : b.NamesArm k .then_ e)
    (hnode : b.nodes[k]? = some (.cif cond then_ else_)) :
    opened b.role k = opened b.role i ∧ ∀ j : UInt32, i ≤ j.toNat → j.toNat < k →
      b.nodes[j.toNat]? ≠ some .cblock → (∀ k w, ¬ b.NamesArm k w j) → ¬ b.Visible j.toNat k := by
  have hk : k < b.nodes.length := (List.getElem?_eq_some_iff.mp hnode).1
  have hthen : then_ = .node e := by
    have hmem := ((namesArm_iff hnode).mp harm).2
    simpa [arms, eq_comm] using hmem
  subst hthen
  have hio := hm.1.2.1
  have hopener : ∀ {j : UInt32} {o e' : ℕ}, Matches b.role o e' → b.nodes[j.toNat]? ≠ some .cblock →
      j.toNat ≠ o := by
    rintro j o e' hm hblock rfl
    exact hblock (role_opener_iff.mp hm.1.1)
  have hcloser : ∀ {j : UInt32}, (∀ k w, ¬ b.NamesArm k w j) → j.toNat ≠ e.toNat := by
    intro j hno heq
    exact hno k .then_ (UInt32.toNat_inj.mp heq ▸ harm)
  rcases (A.rules.placed hnode).cases with
    ⟨t, e', o, ht, rfl, -, hend, hm', hto, hek⟩ | ⟨t, p, ht, rfl, -, htk⟩
  · cases ht
    have hoe := hm'.1.2.1
    have hopenO : opened b.role o = opened b.role i :=
      hto ▸ hm.opened_succ
    have hopenK : opened b.role k = opened b.role o :=
      hek ▸ hm'.opened_succ
    refine ⟨hopenK.trans hopenO, fun j hij hjk hblock hno => ?_⟩
    have hj1 := hopener hm hblock
    have hj2 := hcloser hno
    have hj3 := hopener hm' hblock
    have hj4 : j.toNat ≠ e'.toNat := by
      intro heq
      exact hno k .else_ (UInt32.toNat_inj.mp heq ▸ namesArm_cif_else hnode hend)
    by_cases hfirst : j.toNat < e.toNat
    · exact not_visible_inside hm (by omega) hfirst (hopenK.trans hopenO)
    · exact not_visible_inside hm' (by omega) (by omega) hopenK
  · cases ht
    have hopenK : opened b.role k = opened b.role i :=
      htk ▸ hm.opened_succ
    refine ⟨hopenK, fun j hij hjk hblock hno => ?_⟩
    have hj1 := hopener hm hblock
    have hj2 := hcloser hno
    exact not_visible_inside hm (by omega) (by omega) hopenK

/-- The condition of a `CIf` is in sight where its then-arm opens. -/
theorem ScopeInv.visible_cond (A : Accepted b blocks kinds) (h : ScopeInv b blocks kinds i fs)
    {e : UInt32} (hm : Matches b.role i e.toNat) (harm : b.NamesArm k .then_ e)
    (hnode : b.nodes[k]? = some (.cif cond then_ else_)) (hdata : DataRef kinds cond) :
    Scope.Visible fs (refExpr cond) := by
  have hk : k < b.nodes.length := (List.getElem?_eq_some_iff.mp hnode).1
  have hmem : cond ∈ (cif cond then_ else_).refs := by simp [refs, reads]
  cases hc : cond with
  | pool p =>
    subst hc
    exact h.visible_pool A (A.range.pool_lt hnode hmem) hdata
  | node j =>
    subst hc
    obtain ⟨hopen, hspan⟩ := A.then_span hm harm hnode
    have hblock := A.rules.noBlock hnode hmem
    have hno : ∀ k w, ¬ b.NamesArm k w j := fun k' w hkw =>
      A.rules.armRead hkw hnode (by simp [reads])
    have hvis := A.rules.visible hnode hmem
    have hjk := A.range.node_lt hnode hmem
    have hji : j.toNat < i := by
      by_contra hge
      exact hspan j (by omega) hjk hblock hno hvis
    refine h.visible (emitted_node (by omega) hji hblock hno) ?_
    rw [← hopen]
    exact opened_of_visible hvis

end AxisBridge
