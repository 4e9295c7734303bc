import AxisBridge.CoreIr.IndexWidth
import AxisBridge.CoreIr.VerifySpec

/-! The verifier accepts exactly the bundles that obey the block rules, and never panics. -/
namespace AxisBridge
open List Nesting Node

theorem stack_getLast_none {b : CoreBundle} {s : Scan} (inv : ScanInv b b.nodes.length s) :
    s.stack.getLast? = none ↔ depth b.role b.nodes.length = 0 := by
  rw [getLast?_eq_none_iff, inv.stack, map_eq_nil_iff, ← length_eq_zero_iff,
    ← length_opened inv.noUnderflow]
  omega

theorem openFlags_initial (b : CoreBundle) : OpenFlags b 0 (replicate b.nodes.length false) := by
  refine ⟨by simp, fun j hj => ?_⟩
  simp [hj, opened]

section
variable [Sha256] {b : CoreBundle} {blocks : Blocks}

/-- What the two passes check, node by node. -/
structure CoreBundle.Checked (b : CoreBundle) : Prop where
  step : ∀ j node, 0 ≤ j → b.nodes[j]? = some node → b.StepRule j node
  closed : depth b.role b.nodes.length = 0
  read : ∀ j node, 0 ≤ j → b.nodes[j]? = some node → ∀ r ∈ node.reads, b.RefRule j r
  result : b.RefRule b.nodes.length b.result

open CoreBundle

/-- The verifier's answer: the exact tables for a checked bundle, an error for any other. -/
theorem verifyBlocks_checked (hn : b.nodes.length ≤ 2 ^ 32) (hr : b.InRange) :
    (b.Checked → ∃ blocks, verifyBlocks b = .ok blocks ∧ Blocks.Exact b blocks) ∧
    (¬ b.Checked → ∃ msg, verifyBlocks b = .error (.err msg)) := by
  obtain ⟨hok, herr⟩ := scan_spec hn (drop_zero) (Nat.zero_le _) (ScanInv.initial b)
  by_cases hstep : ∀ j node, 0 ≤ j → b.nodes[j]? = some node → b.StepRule j node
  · obtain ⟨s, hs, inv⟩ := hok hstep
    by_cases hd : depth b.role b.nodes.length = 0
    · have hx := inv.exact hd
      have hlast := (stack_getLast_none inv).mpr hd
      obtain ⟨rok, rerr⟩ := references_spec hx hn hr (drop_zero) (Nat.zero_le _)
        (openFlags_initial b)
      by_cases hread : ∀ j node, 0 ≤ j → b.nodes[j]? = some node → ∀ r ∈ node.reads, b.RefRule j r
      · obtain ⟨flags, hflags, hf⟩ := rok hread
        obtain ⟨cok, cerr⟩ := check_spec hx hn hf "the result" (r := b.result)
          (fun j hj => hr.result_lt hj)
        by_cases hres : b.RefRule b.nodes.length b.result
        · refine ⟨fun _ => ⟨_, ?_, hx⟩, fun hno => (hno ⟨hstep, hd, hread, hres⟩).elim⟩
          simp [verifyBlocks, hs, hlast, hflags, cok hres, pure, Except.pure]
        · obtain ⟨msg, hmsg⟩ := cerr hres
          refine ⟨fun h => (hres h.result).elim, fun _ => ⟨msg, ?_⟩⟩
          simp [verifyBlocks, hs, hlast, hflags, hmsg]
      · obtain ⟨msg, hmsg⟩ := rerr hread
        refine ⟨fun h => (hread h.read).elim, fun _ => ⟨msg, ?_⟩⟩
        simp [verifyBlocks, hs, hlast, hmsg]
    · refine ⟨fun h => (hd h.closed).elim, fun _ => ?_⟩
      cases hlast : s.stack.getLast? with
      | none => exact (hd ((stack_getLast_none inv).mp hlast)).elim
      | some o => simp [verifyBlocks, hs, hlast, throw, throwThe, MonadExceptOf.throw]
  · obtain ⟨msg, hmsg⟩ := herr hstep
    refine ⟨fun h => (hstep h.step).elim, fun _ => ⟨msg, ?_⟩⟩
    simp [verifyBlocks, hmsg]

theorem CoreBundle.Checked.noUnderflow (h : b.Checked) : NoUnderflow b.role b.nodes.length := by
  have hall : ∀ i ≤ b.nodes.length, NoUnderflow b.role i := by
    intro i
    induction i with
    | zero =>
      intro _ k hk
      simp [Nat.le_zero.mp hk, depth]
    | succ i ih =>
      intro hi
      have hlt : i < b.nodes.length := hi
      refine noUnderflow_succ_iff.mpr ⟨ih (le_of_lt hlt), ?_⟩
      have hprev := ih (le_of_lt hlt) i le_rfl
      cases hr : b.role i with
      | closer =>
        obtain ⟨value, hv⟩ := role_closer_iff.mp hr
        exact h.step i _ (Nat.zero_le i) hv
      | opener | plain =>
        rw [depth_succ, hr, Bracket.weight]
        omega
  exact hall _ le_rfl

/-- The arms of a placed `CIf` are closed in the very block the `CIf` is in. -/
theorem visible_arm {k : ℕ} {then_ else_ : NodeRef} (hp : b.ArmsPlaced k then_ else_) {j : UInt32}
    (hj : then_ = .node j ∨ else_ = .node j) : b.isEnd j = true ∧ b.Visible j.toNat k := by
  have hclose : ∀ e : UInt32, b.role e.toNat = .closer → e.toNat < k →
      opened b.role (e.toNat + 1) = opened b.role k → b.Visible e.toNat k := by
    intro e he hek ho o hin
    rw [← mem_enclosing_iff, enclosing_closer he, ← opened_closer he, ho] at hin
    exact encloses_of_mem hin
  rcases hp with ⟨t, e, o, rfl, rfl, ht, rfl, hm, hto⟩ | ⟨t, rfl, ht, rfl, hunit⟩
  · have htc := isEnd_iff_closer.mp ht
    have hoe := hm.1.2.1
    have hopen : opened b.role (e.toNat + 1) = opened b.role o :=
      hm.opened_succ
    rcases hj with hj | hj <;> simp only [NodeRef.node.injEq] at hj <;> subst hj
    · exact ⟨ht, hclose t htc (by omega) (by rw [hto, hopen])⟩
    · exact ⟨isEnd_iff_closer.mpr hm.2.1, hclose e hm.2.1 (by omega) rfl⟩
  · rcases hj with hj | hj
    · simp only [NodeRef.node.injEq] at hj
      subst hj
      exact ⟨ht, hclose t (isEnd_iff_closer.mp ht) (by omega) rfl⟩
    · subst hj
      simp [unitElse] at hunit

theorem then_ne_else {k : ℕ} {then_ else_ : NodeRef} (hp : b.ArmsPlaced k then_ else_) :
    then_ ≠ else_ := by
  rcases hp with ⟨t, e, o, rfl, rfl, -, -, hm, hto⟩ | ⟨t, rfl, -, -, hunit⟩
  · have hoe := hm.1.2.1
    intro heq
    simp only [NodeRef.node.injEq] at heq
    subst heq
    omega
  · rintro rfl
    simp [unitElse] at hunit

/-- Two `CIf`s never name one arm, nor does one `CIf` name an arm twice. -/
theorem CoreBundle.Checked.armShared (h : b.Checked) {k u : ℕ} {w v : Arm} {j : UInt32}
    (hk : b.NamesArm k w j) (hu : b.NamesArm u v j) : u = k ∧ v = w := by
  -- the `CIf` met second refuses
  have hlater : ∀ {k u : ℕ} {w v : Arm}, b.NamesArm k w j → b.NamesArm u v j →
      ¬ (k < u ∨ (k = u ∧ w = .then_ ∧ v = .else_)) := by
    intro k u w v hk hu hlt
    obtain ⟨-, node, hnode, hmem⟩ := hu
    cases node with
    | cif cond then_ else_ =>
      obtain ⟨hf1, hf2, -⟩ := h.step u _ (Nat.zero_le u) hnode
      simp only [arms, mem_cons, Prod.mk.injEq, not_mem_nil, or_false] at hmem
      rcases hmem with ⟨rfl, rfl⟩ | ⟨rfl, rfl⟩
      · rcases hlt with hlt | ⟨-, -, hv⟩
        · exact hf1 j rfl k w hlt hk
        · simp at hv
      · refine hf2 j rfl k w ?_ hk
        rcases hlt with hlt | ⟨hku, hw, -⟩
        · exact .inl hlt
        · exact .inr ⟨hku, hw⟩
    | _ => simp [arms] at hmem
  have h1 := hlater hk hu
  have h2 := hlater hu hk
  have huk : u = k := by omega
  refine ⟨huk, ?_⟩
  cases w <;> cases v <;> simp_all

theorem checked_iff_blockRules : b.Checked ↔ b.BlockRules := by
  constructor
  · intro h
    have hplaced : ∀ {k : ℕ} {cond then_ else_ : NodeRef},
        b.nodes[k]? = some (.cif cond then_ else_) → b.ArmsPlaced k then_ else_ :=
      fun hk => (h.step _ _ (Nat.zero_le _) hk).2.2
    have harm : ∀ {u : ℕ} {node : Node} {j : UInt32}, b.nodes[u]? = some node →
        .node j ∈ node.arms.map Prod.snd → b.isEnd j = true ∧ b.Visible j.toNat u := by
      intro u node j hnode hmem
      cases node with
      | cif cond then_ else_ =>
        apply visible_arm (hplaced hnode)
        simpa [arms, eq_comm] using hmem
      | _ => simp [arms] at hmem
    have hread : ∀ {k u : ℕ} {which : Arm} {j : UInt32} {node : Node}, b.NamesArm k which j →
        b.nodes[u]? = some node → .node j ∉ node.reads :=
      fun ha hnode hmem => (h.read _ _ (Nat.zero_le _) hnode _ hmem _ rfl).2.1 _ _ ha
    refine ⟨⟨⟨h.noUnderflow, h.closed⟩, hplaced, ?_, ?_, ?_, ?_, ?_, ?_⟩, hread⟩
    · intro k u which j node ha hnode hmem
      rcases mem_append.mp hmem with hmem | hmem
      · exact (hread ha hnode hmem).elim
      · obtain ⟨⟨v, _⟩, hv, rfl⟩ := mem_map.mp hmem
        exact (h.armShared ha ((namesArm_iff hnode).mpr ⟨ha.1, hv⟩)).1
    · intro k which j ha hres
      exact (h.result j hres).2.1 k which ha
    · intro u node j hnode hmem
      rcases mem_append.mp hmem with hmem | hmem
      · exact (h.read u node (Nat.zero_le u) hnode _ hmem j rfl).1
      · obtain ⟨value, hv⟩ := isEnd_iff.mp (harm hnode hmem).1
        simp [hv]
    · exact fun hres => (h.result _ hres).1
    · intro u node j hnode hmem
      rcases mem_append.mp hmem with hmem | hmem
      · exact (h.read u node (Nat.zero_le u) hnode _ hmem j rfl).2.2
      · exact (harm hnode hmem).2
    · exact fun hres => (h.result _ hres).2.2
  · intro h
    refine ⟨?_, h.balanced.2, ?_, ?_⟩
    · intro j node _ hnode
      have hlt : j < b.nodes.length := (List.getElem?_eq_some_iff.mp hnode).1
      cases node with
      | cend value => exact h.balanced.1 (j + 1) hlt
      | cif cond then_ else_ =>
        refine ⟨?_, ?_, h.placed hnode⟩
        · rintro i rfl k w hk ha
          have := h.armOwner ha hnode (by simp [refs, arms])
          omega
        · rintro i rfl k w hk ha
          have := h.armOwner ha hnode (by simp [refs, arms])
          rcases hk with hk | ⟨rfl, rfl⟩
          · omega
          · have hthen := ((namesArm_iff hnode).mp ha).2
            simp only [arms, mem_cons, Prod.mk.injEq, not_mem_nil, or_false, true_and,
              reduceCtorEq, false_and] at hthen
            exact then_ne_else (h.placed hnode) hthen.symm
      | _ => trivial
    · rintro u node _ hnode r hmem j rfl
      exact ⟨h.noBlock hnode (mem_append_left _ hmem), fun k w ha => h.armRead ha hnode hmem,
        h.visible hnode (mem_append_left _ hmem)⟩
    · intro j hres
      exact ⟨h.resultNoBlock hres, fun k w ha => h.armResult ha hres, h.resultVisible hres⟩

/-- On bundles whose node indices fit `u32`, the verifier decides the block rules. -/
theorem verifyBlocks_decides (hn : b.nodes.length ≤ 2 ^ 32) (hr : b.InRange) :
    (b.BlockRules → ∃ blocks, verifyBlocks b = .ok blocks) ∧
    (¬ b.BlockRules → ∃ msg, verifyBlocks b = .error (.err msg)) := by
  obtain ⟨hok, herr⟩ := verifyBlocks_checked hn hr
  rw [← checked_iff_blockRules]
  refine ⟨fun h => ?_, herr⟩
  obtain ⟨blocks, hb, -⟩ := hok h
  exact ⟨blocks, hb⟩

theorem blockRules_of_verifyBlocks (hn : b.nodes.length ≤ 2 ^ 32) (hr : b.InRange)
    (h : verifyBlocks b = .ok blocks) : b.BlockRules := by
  by_contra hno
  obtain ⟨msg, hmsg⟩ := (verifyBlocks_checked hn hr).2 (hno ∘ checked_iff_blockRules.mp)
  simp [h] at hmsg

theorem exact_of_verifyBlocks (hn : b.nodes.length ≤ 2 ^ 32) (hr : b.InRange)
    (h : verifyBlocks b = .ok blocks) : Blocks.Exact b blocks := by
  have hc := checked_iff_blockRules.mpr (blockRules_of_verifyBlocks hn hr h)
  obtain ⟨blocks', hb, hx⟩ := (verifyBlocks_checked hn hr).1 hc
  rw [h, Except.ok.injEq] at hb
  exact hb ▸ hx

/-- With node indices that fit `u32`, the verifier neither panics nor loops, and it accepts exactly
the bundles that obey the block rules. -/
theorem verifyBlocks_ok_iff (hn : b.nodes.length ≤ 2 ^ 32) (hr : b.InRange) :
    (∀ msg, verifyBlocks b ≠ .error (.panic msg)) ∧ verifyBlocks b ≠ .error .looping ∧
    ((∃ blocks, verifyBlocks b = .ok blocks) ↔ b.BlockRules) := by
  obtain ⟨hok, herr⟩ := verifyBlocks_decides hn hr
  by_cases hrules : b.BlockRules
  · obtain ⟨blocks, hb⟩ := hok hrules
    exact ⟨by simp [hb], by simp [hb], iff_of_true ⟨blocks, hb⟩ hrules⟩
  · obtain ⟨msg, hmsg⟩ := herr hrules
    refine ⟨by simp [hmsg], by simp [hmsg], iff_of_false ?_ hrules⟩
    rintro ⟨blocks, hb⟩
    simp [hmsg] at hb

end

attribute [local instance] knownDigests

/-- A one-armed `CIf` whose arm yields Unit. -/
def oneArmed : CoreBundle where
  version := "0.6"
  constantPool := [unitEntry]
  nodes := [.cblock, .cend (.pool 0), .cif (.pool 0) (.node 1) (.pool 0)]
  result := .node 2

/-- A one-armed `CIf` that reads its own arm as its condition. -/
def ownCondition : CoreBundle where
  version := "0.6"
  constantPool := [unitEntry]
  nodes := [.cblock, .cend (.pool 0), .cif (.node 1) (.node 1) (.pool 0)]
  result := .pool 0

theorem verifyBlocks_ok_iff_oneArmed : oneArmed.BlockRules :=
  (verifyBlocks_ok_iff (b := oneArmed) (by decide) (by decide)).2.2.mp ⟨_, rfl⟩

theorem ownCondition_getElem {u : ℕ} {node : Node} (h : ownCondition.nodes[u]? = some node) :
    (u = 0 ∧ node = .cblock) ∨ (u = 1 ∧ node = .cend (.pool 0)) ∨
      (u = 2 ∧ node = .cif (.node 1) (.node 1) (.pool 0)) := by
  match u with
  | 0 | 1 | 2 => simp_all [ownCondition]
  | u + 3 => simp [ownCondition] at h

/-- Node 2 alone references a node, and that node is the `CEnd` it names as its arm. -/
theorem ownCondition_refs {u : ℕ} {node : Node} {j : UInt32}
    (h : ownCondition.nodes[u]? = some node) (hj : .node j ∈ node.refs) : u = 2 ∧ j = 1 := by
  rcases ownCondition_getElem h with ⟨-, rfl⟩ | ⟨-, rfl⟩ | ⟨rfl, rfl⟩
  · simp [refs, reads, arms] at hj
  · simp [refs, reads, arms] at hj
  · simpa [refs, reads, arms] using hj

theorem declaredRules_ownCondition : ownCondition.DeclaredRules where
  balanced := by decide
  placed := by
    intro k cond then_ else_ h
    rcases ownCondition_getElem h with ⟨-, hnode⟩ | ⟨-, hnode⟩ | ⟨rfl, hnode⟩
    · cases hnode
    · cases hnode
    · obtain ⟨-, rfl, rfl⟩ := cif.inj hnode
      exact .inr ⟨1, rfl, by decide, rfl, by decide⟩
  armOwner := by
    rintro k u which j node ⟨-, owner, howner, harm⟩ h hj
    have hk := ownCondition_refs howner (j := j)
      (mem_append_right _ (mem_map_of_mem (f := Prod.snd) harm))
    rw [(ownCondition_refs h hj).1, hk.1]
  armResult := by simp [ownCondition]
  noBlock := by
    intro u node j h hj
    rw [(ownCondition_refs h hj).2]
    simp [ownCondition]
  resultNoBlock := by simp [ownCondition]
  visible := by
    intro u node j h hj o hin
    obtain ⟨rfl, rfl⟩ := ownCondition_refs h hj
    have ho : o = 0 := Nat.lt_one_iff.mp hin.1.2.1
    subst ho
    revert hin
    decide
  resultVisible := by simp [ownCondition]

theorem verifyBlocks_ok_iff_ownCondition :
    (ownCondition.InRange ∧ ownCondition.DeclaredRules ∧
      ∃ msg, verifyBlocks ownCondition = .error (.err msg)) ∧
    ∃ m, m + 3 = 2 ^ 32 ∧ (wrapped m).InRange ∧ ¬ (wrapped m).DeclaredRules ∧
      ∃ blocks, verifyBlocks (wrapped m) = .ok blocks :=
  ⟨⟨by decide, declaredRules_ownCondition, _, rfl⟩, 2 ^ 32 - 3, by norm_num, inRange_wrapped,
    not_declaredRules_wrapped, _, verifyBlocks_wrapped (by norm_num)⟩

end AxisBridge
