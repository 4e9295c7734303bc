import AxisBridge.CoreIr.ScanSpec

/-! The reference pass, and the verifier as a decision procedure for the block rules. -/
namespace AxisBridge
open List Nesting CoreBundle Node

/-- The tables of an accepted bundle, entry by entry. -/
structure Blocks.Exact (b : CoreBundle) (blocks : Blocks) : Prop where
  balanced : Balanced b.role b.nodes.length
  homeLength : blocks.home.length = b.nodes.length
  home : ∀ j < b.nodes.length,
    blocks.home[j]? = some ((enclosing b.role j).head?.map asU32)
  partner : ∀ {o e : ℕ}, Matches b.role o e → e < b.nodes.length →
    blocks.partner[o]? = some (some (asU32 e)) ∧ blocks.partner[e]? = some (some (asU32 o))
  arm : ArmTable b (fun _ _ => True) blocks.arm

theorem ScanInv.exact {b : CoreBundle} {s : Scan} (inv : ScanInv b b.nodes.length s)
    (hd : depth b.role b.nodes.length = 0) : Blocks.Exact b ⟨s.home, s.partner, s.arm⟩ where
  balanced := ⟨inv.noUnderflow, hd⟩
  homeLength := inv.homeLength
  home := inv.home
  partner := inv.partner
  arm := by
    refine ⟨inv.arm.length_eq, fun j k w => ?_⟩
    rw [inv.arm.entry]
    exact ⟨fun h => ⟨trivial, h.2⟩, fun h => ⟨h.2.lt, h.2⟩⟩

/-- The open flags before node `u`. -/
structure OpenFlags (b : CoreBundle) (u : ℕ) (flags : List Bool) : Prop where
  length_eq : flags.length = b.nodes.length
  entry : ∀ j < b.nodes.length, flags[j]? = some (decide (j ∈ opened b.role u))

/-- What the reference pass checks of a reference made at `u`. -/
def CoreBundle.RefRule (b : CoreBundle) (u : ℕ) (r : NodeRef) : Prop :=
  ∀ j, r = .node j → b.nodes[j.toNat]? ≠ some .cblock ∧ (∀ k w, ¬ b.NamesArm k w j) ∧
    b.Visible j.toNat u

variable {b : CoreBundle} {blocks : Blocks} {flags : List Bool} {u : ℕ}

theorem lt_of_role_ne_plain {i : ℕ} (h : b.role i ≠ .plain) : i < b.nodes.length := by
  by_contra hge
  simp [CoreBundle.role, getElem?_eq_none (Nat.le_of_not_lt hge)] at h

theorem armOfBlock_total (hx : Blocks.Exact b blocks) (hn : b.nodes.length ≤ 2 ^ 32) {o : ℕ}
    (ho : b.role o = .opener) : ∃ x, blocks.armOfBlock (asU32 o) = .ok x := by
  have hlt := lt_of_role_ne_plain (by simp [ho] : b.role o ≠ .plain)
  obtain ⟨e, he, hm⟩ := exists_matches hx.balanced ho hlt
  have hp := (hx.partner hm he).1
  have hlen : e < blocks.arm.length := hx.arm.length_eq ▸ he
  refine ⟨blocks.arm[e], ?_⟩
  simp [Blocks.armOfBlock, toNat_asU32 (lt_of_lt_of_le hlt hn), readAt_of_getElem? hp,
    toNat_asU32 (lt_of_lt_of_le he hn), readAt_of_getElem? (getElem?_eq_getElem hlen)]

/-- The climb ends within its bound: each block is opened before the one it is in. -/
theorem climb_total (hx : Blocks.Exact b blocks) (hn : b.nodes.length ≤ 2 ^ 32)
    (hf : OpenFlags b u flags) {fuel o : ℕ} (ho : b.role o = .opener) (hlt : o < fuel)
    (outermost : UInt32) (inArm : Option (UInt32 × Arm)) :
    ∃ x, climb blocks flags fuel (some (asU32 o)) outermost inArm = .ok x := by
  induction fuel generalizing o outermost inArm with
  | zero => omega
  | succ fuel ih =>
    have hon := lt_of_role_ne_plain (by simp [ho] : b.role o ≠ .plain)
    have h32 := toNat_asU32 (lt_of_lt_of_le hon hn)
    obtain ⟨a, ha⟩ := armOfBlock_total hx hn ho
    simp only [climb, h32, readAt_of_getElem? (hf.entry o hon), Res.ok_bind, ha,
      readAt_of_getElem? (hx.home o hon)]
    split
    · exact ⟨_, rfl⟩
    · cases he : enclosing b.role o with
      | nil => exact ⟨(asU32 o, a.or inArm), by simp [climb]⟩
      | cons p rest =>
        obtain ⟨hp, hpo, -⟩ := enclosing_split he
        exact ih hp (by omega) _ _

/-- The innermost block around `j` is open at `u` exactly when all of them are. -/
theorem visible_iff {j : ℕ} :
    b.Visible j u ↔ ∀ o, (enclosing b.role j).head? = some o → o ∈ opened b.role u := by
  constructor
  · intro h o ho
    apply mem_of_encloses
    apply h
    rw [← mem_enclosing_iff]
    exact mem_of_head? ho
  · intro h o ho
    rw [← mem_opened_iff]
    rw [← mem_enclosing_iff] at ho
    cases he : enclosing b.role j with
    | nil => simp [he] at ho
    | cons p rest =>
      have hp := h p (by simp [he])
      obtain ⟨pre, hs⟩ := opened_of_mem hp
      obtain ⟨hop, -, hrest⟩ := enclosing_split he
      rw [enclosing_of_ne (by simp [hop])] at hrest
      rw [hs, hrest]
      rw [he] at ho
      exact mem_append_right _ ho

variable (hx : Blocks.Exact b blocks)

include hx

/-- Past the refusals of a `CBlock` and of an arm's end, the home block decides. -/
theorem check_eq_checkOpen {who : String} {j : UInt32} (hj : j.toNat < b.nodes.length)
    (hb : b.nodes[j.toNat]? ≠ some .cblock) (ha : ∀ k w, ¬ b.NamesArm k w j) :
    check b blocks flags who (.node j) = checkOpen b blocks flags who j := by
  have harm : blocks.arm[j.toNat]? = some none := by
    have hlt : j.toNat < blocks.arm.length := hx.arm.length_eq ▸ hj
    cases hy : blocks.arm[j.toNat] with
    | none => rw [getElem?_eq_getElem hlt, hy]
    | some x =>
      have hentry := (hx.arm.entry j x.1 x.2).mp (by rw [getElem?_eq_getElem hlt, hy])
      exact (ha _ _ hentry.2).elim
  have hnode := getElem?_eq_getElem hj
  simp only [check, readAt_of_getElem? hnode, Res.ok_bind]
  cases hk : b.nodes[j.toNat] with
  | cblock => simp [hnode, hk] at hb
  | cend value =>
    simp [readAt_of_getElem? harm]
  | ccall id args name => rfl
  | cif cond then_ else_ => rfl
  | cdeterminate => rfl

variable (hn : b.nodes.length ≤ 2 ^ 32)

include hn

theorem checkOpen_spec (hf : OpenFlags b u flags) (who : String) {j : UInt32}
    (hj : j.toNat < b.nodes.length) :
    (b.Visible j.toNat u → checkOpen b blocks flags who j = .ok ()) ∧
    (¬ b.Visible j.toNat u → ∃ msg, checkOpen b blocks flags who j = .error (.err msg)) := by
  rw [visible_iff]
  simp only [checkOpen, readAt_of_getElem? (hx.home j.toNat hj), Res.ok_bind]
  cases he : enclosing b.role j.toNat with
  | nil => exact ⟨fun _ => rfl, fun hno => (hno (by simp)).elim⟩
  | cons o rest =>
    obtain ⟨ho, hoj, -⟩ := enclosing_split he
    have hon : o < b.nodes.length := by omega
    have h32 := toNat_asU32 (lt_of_lt_of_le hon hn)
    simp only [head?_cons, Option.map_some, Option.some.injEq, forall_eq', h32,
      readAt_of_getElem? (hf.entry o hon), Res.ok_bind]
    by_cases hmem : o ∈ opened b.role u
    · simp [hmem, pure, Except.pure]
    · obtain ⟨⟨outermost, inArm⟩, hc⟩ := climb_total hx hn hf ho
        (show o < b.nodes.length + 1 by omega) (asU32 o) none
      refine ⟨fun h => (hmem h).elim, fun _ => ?_⟩
      cases inArm <;> simp [hmem, hc, throw, throwThe, MonadExceptOf.throw]

theorem check_spec (hf : OpenFlags b u flags) (who : String) {r : NodeRef}
    (hr : ∀ j, r = .node j → j.toNat < b.nodes.length) :
    (b.RefRule u r → check b blocks flags who r = .ok ()) ∧
    (¬ b.RefRule u r → ∃ msg, check b blocks flags who r = .error (.err msg)) := by
  cases r with
  | pool p => exact ⟨fun _ => rfl, fun hno => (hno (by simp [RefRule])).elim⟩
  | node j =>
    have hj := hr j rfl
    have hrule : b.RefRule u (.node j) ↔ b.nodes[j.toNat]? ≠ some .cblock ∧
        (∀ k w, ¬ b.NamesArm k w j) ∧ b.Visible j.toNat u := by
      simp [RefRule]
    rw [hrule]
    by_cases hb : b.nodes[j.toNat]? = some .cblock
    · refine ⟨fun h => (h.1 hb).elim, fun _ => ?_⟩
      simp [check, readAt_of_getElem? hb, throw, throwThe, MonadExceptOf.throw]
    · by_cases ha : ∀ k w, ¬ b.NamesArm k w j
      · obtain ⟨hok, herr⟩ := checkOpen_spec hx hn hf who hj
        rw [check_eq_checkOpen hx hj hb ha]
        exact ⟨fun h => hok h.2.2, fun h => herr fun hv => h ⟨hb, ha, hv⟩⟩
      · refine ⟨fun h => (ha h.2.1).elim, fun _ => ?_⟩
        simp only [not_forall, not_not] at ha
        obtain ⟨k, w, hkw⟩ := ha
        obtain ⟨value, hv⟩ := isEnd_iff.mp hkw.1
        have harm : blocks.arm[j.toNat]? = some (some (asU32 k, w)) := by
          rw [hx.arm.entry, toNat_asU32 (lt_of_lt_of_le hkw.lt hn)]
          exact ⟨trivial, hkw⟩
        simp [check, readAt_of_getElem? hv, readAt_of_getElem? harm, throw, throwThe,
          MonadExceptOf.throw]

theorem checkAll_spec (hf : OpenFlags b u flags) (who : String) {rs : List NodeRef}
    (hr : ∀ r ∈ rs, ∀ j, r = .node j → j.toNat < b.nodes.length) :
    ((∀ r ∈ rs, b.RefRule u r) → checkAll b blocks flags who rs = .ok ()) ∧
    (¬ (∀ r ∈ rs, b.RefRule u r) → ∃ msg, checkAll b blocks flags who rs = .error (.err msg)) := by
  induction rs with
  | nil => simp [checkAll]
  | cons r rs ih =>
    obtain ⟨hok, herr⟩ := check_spec hx hn hf who (hr r (by simp))
    obtain ⟨ihok, iherr⟩ := ih fun r' hr' => hr r' (by simp [hr'])
    by_cases h : b.RefRule u r
    · simp only [checkAll, hok h, Res.ok_bind, mem_cons, forall_eq_or_imp, h, true_and]
      exact ⟨ihok, iherr⟩
    · obtain ⟨msg, hmsg⟩ := herr h
      refine ⟨fun hall => (h (hall r (by simp))).elim, fun _ => ⟨msg, ?_⟩⟩
      simp [checkAll, hmsg]

theorem referenceStep_spec (hr : b.InRange) {node : Node} (hnode : b.nodes[u]? = some node)
    (hf : OpenFlags b u flags) : ((∀ r ∈ node.reads, b.RefRule u r) →
    ∃ flags', referenceStep b blocks flags u node = .ok flags' ∧ OpenFlags b (u + 1) flags') ∧
    (¬ (∀ r ∈ node.reads, b.RefRule u r) →
    ∃ msg, referenceStep b blocks flags u node = .error (.err msg)) := by
  have hlt : u < b.nodes.length := (List.getElem?_eq_some_iff.mp hnode).1
  have hu := le_of_lt hlt
  have hrole := role_of_getElem? hnode
  have hread : ∀ r ∈ node.reads, ∀ j, r = .node j → j.toNat < b.nodes.length := by
    rintro r hmem j rfl
    exact lt_trans (hr.node_lt hnode (mem_append_left _ hmem)) hlt
  have hplain : node.role = .plain → OpenFlags b (u + 1) flags := by
    intro hp
    refine ⟨hf.length_eq, fun j hj => ?_⟩
    rw [opened_plain (hrole.trans hp)]
    exact hf.entry j hj
  unfold referenceStep
  generalize s!"node {u}" = who
  have hall := checkAll_spec hx hn hf who hread
  cases node with
  | cdeterminate =>
    exact ⟨fun _ => ⟨flags, rfl, hplain rfl⟩, fun hno => (hno (by simp [reads])).elim⟩
  | ccall id args name =>
    refine ⟨fun h => ⟨flags, ?_, hplain rfl⟩, fun h => ?_⟩
    · have := hall.1 h
      simp only [reads] at this
      simp [this, pure, Except.pure]
    · obtain ⟨msg, hmsg⟩ := hall.2 h
      simp only [reads] at hmsg
      simp [hmsg]
  | cif cond then_ else_ =>
    obtain ⟨hok, herr⟩ := check_spec hx hn hf who (hread cond (by simp [reads]))
    simp only [reads, mem_singleton, forall_eq]
    refine ⟨fun h => ⟨flags, ?_, hplain rfl⟩, fun h => ?_⟩
    · simp [hok h, pure, Except.pure]
    · obtain ⟨msg, hmsg⟩ := herr h
      simp [hmsg]
  | cblock =>
    refine ⟨fun _ => ⟨flags.set u true, ?_, ?_⟩, fun hno => (hno (by simp [reads])).elim⟩
    · exact writeAt_of_lt (hf.length_eq ▸ hlt) true
    · refine ⟨by simp [hf.length_eq], fun j hj => ?_⟩
      rw [opened_opener hrole]
      by_cases hju : j = u
      · subst hju
        simp [getElem?_set_self (hf.length_eq ▸ hlt : j < flags.length)]
      · rw [getElem?_set_ne (Ne.symm hju), hf.entry j hj]
        simp [hju]
  | cend value =>
    obtain ⟨hok, herr⟩ := check_spec hx hn hf who (hread value (by simp [reads]))
    simp only [reads, mem_singleton, forall_eq]
    refine ⟨fun h => ?_, fun h => ?_⟩
    · obtain ⟨o, ho⟩ := exists_matches_left (hx.balanced.1.mono (by omega)) hrole
      have hp := (hx.partner ho hlt).2
      have hon : o < b.nodes.length := lt_trans ho.1.2.1 hlt
      have h32 := toNat_asU32 (lt_of_lt_of_le hon hn)
      have hhead := (matches_iff_head hrole).mp ho
      obtain ⟨rest, hrest⟩ : ∃ rest, opened b.role u = o :: rest := by
        cases hop : opened b.role u with
        | nil => simp [hop] at hhead
        | cons x rest => exact ⟨rest, by rw [hop] at hhead; simpa using hhead⟩
      have hnot : o ∉ rest := (opened_split (p := []) hrest).2.2 ▸ not_mem_opened_self o
      have hof : o < flags.length := hf.length_eq ▸ hon
      refine ⟨flags.set o false, ?_, ?_⟩
      · simp [hok h, readAt_of_getElem? hp, h32, writeAt_of_lt hof]
      · refine ⟨by simp [hf.length_eq], fun j hj => ?_⟩
        rw [opened_closer hrole, hrest, tail_cons]
        by_cases hjo : j = o
        · subst hjo
          simp [getElem?_set_self hof, hnot]
        · rw [getElem?_set_ne (Ne.symm hjo), hf.entry j hj, hrest]
          simp [hjo]
    · obtain ⟨msg, hmsg⟩ := herr h
      simp [hmsg]

theorem references_spec (hr : b.InRange) {nodes : List Node} (hdrop : b.nodes.drop u = nodes)
    (hu : u ≤ b.nodes.length) (hf : OpenFlags b u flags) :
    ((∀ j node, u ≤ j → b.nodes[j]? = some node → ∀ r ∈ node.reads, b.RefRule j r) → ∃ flags',
      references b blocks u nodes flags = .ok flags' ∧ OpenFlags b b.nodes.length flags') ∧
      (¬ (∀ j node, u ≤ j → b.nodes[j]? = some node → ∀ r ∈ node.reads, b.RefRule j r) →
      ∃ msg, references b blocks u nodes flags = .error (.err msg)) :=
  pass_spec (fun _ _ => rfl) (fun _ _ _ _ => rfl) (referenceStep_spec hx hn hr) hdrop hu hf

end AxisBridge
