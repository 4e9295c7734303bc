import AxisBridge.CoreIr.Verifier

/-! Running a bundle: which nodes run for given branch outcomes, and the values they read. -/
namespace AxisBridge
open List Function Nesting CoreBundle Option

/-- What each `CIf`'s condition chose; a condition that is Unknown or an Err chooses no arm. -/
abbrev Outcomes := ℕ → Option Arm

/-- The arms the node at `k` names by a `CEnd`. -/
def CoreBundle.armEnds (b : CoreBundle) (k : ℕ) : List (Arm × UInt32) :=
  match b.nodes[k]? with
  | some node => node.arms.filterMap fun (which, r) =>
    match r with
    | .node j => if b.isEnd j then some (which, j) else none
    | .pool _ => none
  | none => []

theorem CoreBundle.mem_armEnds {b : CoreBundle} {k : ℕ} {which : Arm} {j : UInt32} :
    (which, j) ∈ b.armEnds k ↔ b.NamesArm k which j := by
  unfold armEnds NamesArm
  cases hk : b.nodes[k]? with
  | none => simp
  | some node =>
    simp only [mem_filterMap, some.injEq, exists_eq_left']
    constructor
    · rintro ⟨⟨w, r⟩, hmem, hr⟩
      cases r with
      | pool p => simp at hr
      | node i =>
        by_cases hi : b.isEnd i = true
        · simp only [hi, if_true, some.injEq, Prod.mk.injEq] at hr
          obtain ⟨rfl, rfl⟩ := hr
          exact ⟨hi, hmem⟩
        · simp [hi] at hr
    · rintro ⟨hj, hmem⟩
      exact ⟨(which, .node j), hmem, by simp [hj]⟩

/-- A plain block is always selected; an arm is when its `CIf` chose it. -/
def CoreBundle.Selected (b : CoreBundle) (outcomes : Outcomes) (open_ : ℕ) : Prop :=
  ∀ k < b.nodes.length, ∀ a ∈ b.armEnds k, Matches b.role open_ a.2.toNat →
    outcomes k = some a.1

/-- A node runs when every block around it is selected. -/
def CoreBundle.Runs (b : CoreBundle) (outcomes : Outcomes) (i : ℕ) : Prop :=
  ∀ open_ < i, Encloses b.role open_ i → b.Selected outcomes open_

instance {b : CoreBundle} {outcomes : Outcomes} {o : ℕ} : Decidable (b.Selected outcomes o) := by
  unfold Selected
  infer_instance

instance {b : CoreBundle} {outcomes : Outcomes} {i : ℕ} : Decidable (b.Runs outcomes i) := by
  unfold Runs
  infer_instance

/-- The meaning of what a bundle leaves to the runtime. -/
structure Interp (V : Type) where
  constant : UInt32 → V
  call : Hash256 → List V → V
  gate : V
  /-- a `CIf` whose condition chose no arm yields from that condition -/
  undecided : V → V

/-- The values of the nodes run so far. -/
abbrev Env (V : Type) := ℕ → Option V

section
variable {V : Type} (I : Interp V) (b : CoreBundle) (outcomes : Outcomes)

def Env.read (env : Env V) : NodeRef → Option V
  | .node j => env j.toNat
  | .pool p => some (I.constant p)

/-- The value of a running node; the outer `none` is a read of a node without a value. -/
def Env.eval (env : Env V) (chosen : Option Arm) : Node → Option (Option V)
  | .ccall targetIdentity args _ => do
    return some (I.call targetIdentity (← args.toList.mapM (env.read I)))
  | .cif cond then_ else_ => do
    let c ← env.read I cond
    match chosen with
    | some .then_ => return some (← env.read I then_)
    | some .else_ => return some (← env.read I else_)
    | none => return some (I.undecided c)
  | .cdeterminate => return some I.gate
  | .cblock => return none
  | .cend value => do return some (← env.read I value)

/-- The values after the first `i` nodes, in index order; `none` when one of them was stuck. -/
def exec : ℕ → Option (Env V)
  | 0 => some fun _ => none
  | i + 1 => do
    let env ← exec i
    match b.nodes[i]? with
    | none => return env
    | some node =>
      if b.Runs outcomes i then
        return update env i (← env.eval I (outcomes i) node)
      else
        return env

end

/-- The reference is to the pool, or to an earlier node that ran and has a value. -/
def Available {V : Type} (I : Interp V) (b : CoreBundle) (outcomes : Outcomes) (i : ℕ) :
    NodeRef → Prop
  | .pool _ => True
  | .node j => j.toNat < i ∧ b.Runs outcomes j.toNat ∧
    ∃ env v, exec I b outcomes i = some env ∧ env j.toNat = some v

/-- The references a running node reads: its values and the arm its `CIf` chose. -/
def Node.readsUnder (chosen : Option Arm) (node : Node) : List NodeRef :=
  node.reads ++ (node.arms.filter fun a => some a.1 = chosen).map Prod.snd

section
variable {b : CoreBundle} {outcomes : Outcomes} {V : Type} {I : Interp V}

theorem selected_iff {o : ℕ} : b.Selected outcomes o ↔
    ∀ {k : ℕ} {which : Arm} {j : UInt32}, b.NamesArm k which j → Matches b.role o j.toNat →
      outcomes k = some which := by
  constructor
  · intro h k which j ha hm
    exact h k ha.lt (which, j) (mem_armEnds.mpr ha) hm
  · rintro h k - ⟨which, j⟩ ha hm
    exact h (mem_armEnds.mp ha) hm

/-- A node in sight of a running one runs, if the block it may end is selected. -/
theorem runs_of_visible {i j : ℕ} (hi : b.Runs outcomes i) (hv : b.Visible j i)
    (hend : ∀ o, Matches b.role o j → b.Selected outcomes o) : b.Runs outcomes j := by
  intro o _ henc
  by_cases hm : Matches b.role o j
  · exact hend o hm
  · have henc' := hv o ⟨henc, hm⟩
    exact hi o henc'.2.1 henc'

/-- The block that a node ends, when that node is no arm's `CEnd`, is selected. -/
theorem selected_of_plain {j : UInt32} (hno : ∀ k which, ¬ b.NamesArm k which j) {o : ℕ}
    (hm : Matches b.role o j.toNat) : b.Selected outcomes o := by
  rw [selected_iff]
  intro k which e ha hme
  have hej : e = j := UInt32.toNat_inj.mp (hme.unique_right hm)
  rw [hej] at ha
  exact (hno k which ha).elim

/-- An evaluation whose reads all have values has one too, a `CBlock` apart. -/
theorem Env.eval_of_reads {env : Env V} {chosen : Option Arm} {node : Node}
    (h : ∀ r ∈ node.readsUnder chosen, ∃ v, env.read I r = some v) :
    ∃ out, env.eval I chosen node = some out ∧ (node ≠ .cblock → ∃ v, out = some v) := by
  cases node with
  | ccall targetIdentity args targetName =>
    have hall : ∀ rs : List NodeRef, (∀ r ∈ rs, ∃ v, env.read I r = some v) →
        ∃ vs, rs.mapM (env.read I) = some vs := by
      intro rs
      induction rs with
      | nil => exact fun _ => ⟨[], rfl⟩
      | cons r rs ih =>
        intro hrs
        obtain ⟨v, hv⟩ := hrs r (mem_cons_self ..)
        obtain ⟨vs, hvs⟩ := ih fun x hx => hrs x (mem_cons_of_mem _ hx)
        exact ⟨v :: vs, by simp [hv, hvs]⟩
    obtain ⟨vs, hvs⟩ := hall args.toList fun r hr => h r (mem_append_left _ hr)
    exact ⟨some (I.call targetIdentity vs), by simp [Env.eval, hvs], fun _ => ⟨_, rfl⟩⟩
  | cif cond then_ else_ =>
    obtain ⟨c, hc⟩ := h cond (mem_append_left _ (by simp [Node.reads]))
    cases chosen with
    | none => exact ⟨some (I.undecided c), by simp [Env.eval, hc], fun _ => ⟨_, rfl⟩⟩
    | some which =>
      cases which with
      | then_ =>
        obtain ⟨v, hv⟩ := h then_ (mem_append_right _ (by simp [Node.arms]))
        exact ⟨some v, by simp [Env.eval, hc, hv], fun _ => ⟨_, rfl⟩⟩
      | else_ =>
        obtain ⟨v, hv⟩ := h else_ (mem_append_right _ (by simp [Node.arms]))
        exact ⟨some v, by simp [Env.eval, hc, hv], fun _ => ⟨_, rfl⟩⟩
  | cdeterminate => exact ⟨some I.gate, rfl, fun _ => ⟨_, rfl⟩⟩
  | cblock => exact ⟨none, rfl, fun hne => (hne rfl).elim⟩
  | cend value =>
    obtain ⟨v, hv⟩ := h value (mem_append_left _ (by simp [Node.reads]))
    exact ⟨some v, by simp [Env.eval, hv], fun _ => ⟨_, rfl⟩⟩

end

section
variable [Sha256] {b : CoreBundle} {blocks : Blocks} {outcomes : Outcomes} {V : Type} {I : Interp V}

theorem CoreBundle.DeclaredRules.armShared (h : b.DeclaredRules) {k u : ℕ} {w v : Arm}
    {j : UInt32} (hk : b.NamesArm k w j) (hu : b.NamesArm u v j) : u = k ∧ v = w := by
  obtain ⟨hj, node, hnode, hmem⟩ := hu
  have huk : u = k :=
    h.armOwner hk hnode (mem_append_right _ (mem_map_of_mem (f := Prod.snd) hmem))
  subst huk
  refine ⟨rfl, ?_⟩
  have hkm := ((namesArm_iff hnode).mp hk).2
  cases node with
  | cif cond then_ else_ =>
    have hne := then_ne_else (h.placed hnode)
    simp only [Node.arms, mem_cons, Prod.mk.injEq, not_mem_nil, or_false] at hmem hkm
    rcases hmem with ⟨rfl, hv⟩ | ⟨rfl, hv⟩ <;> rcases hkm with ⟨rfl, hw⟩ | ⟨rfl, hw⟩
    · rfl
    · exact (hne (hv.symm.trans hw)).elim
    · exact (hne (hw.symm.trans hv)).elim
    · rfl
  | _ => simp [Node.arms] at hmem

/-- At the end of a balanced bundle no block is open. -/
theorem runs_length (h : b.DeclaredRules) : b.Runs outcomes b.nodes.length := by
  intro o ho henc
  have hdeep := henc.2.2 _ le_rfl ho
  have hpos := h.balanced.1 o (le_of_lt ho)
  rw [h.balanced.2] at hdeep
  omega

/-- A node whose value a running node reads ran before it and is no `CBlock`. -/
theorem reads_ran (h : b.BlockRules) (hr : b.InRange) {i : ℕ} {node : Node} {j : UInt32}
    (hnode : b.nodes[i]? = some node) (hi : b.Runs outcomes i)
    (hj : .node j ∈ node.readsUnder (outcomes i)) :
    j.toNat < i ∧ b.Runs outcomes j.toNat ∧ b.nodes[j.toNat]? ≠ some .cblock := by
  have hmem : .node j ∈ node.refs := by
    rcases mem_append.mp hj with hread | harm
    · exact mem_append_left _ hread
    · obtain ⟨a, ha, hja⟩ := mem_map.mp harm
      exact mem_append_right _ (mem_map.mpr ⟨a, (mem_filter.mp ha).1, hja⟩)
  refine ⟨hr.node_lt hnode hmem, ?_, h.noBlock hnode hmem⟩
  apply runs_of_visible hi (h.visible hnode hmem)
  intro o hm
  rcases mem_append.mp hj with hread | harm
  · exact selected_of_plain (fun k which ha => h.armRead ha hnode hread) hm
  · obtain ⟨⟨which, r⟩, ha, rfl⟩ := mem_map.mp harm
    obtain ⟨hin, hchosen⟩ := mem_filter.mp ha
    have hname : b.NamesArm i which j :=
      (namesArm_iff hnode).mpr ⟨isEnd_iff_closer.mpr hm.2.1, hin⟩
    rw [selected_iff]
    intro k v e hk hme
    have hej : e = j := UInt32.toNat_inj.mp (hme.unique_right hm)
    subst hej
    obtain ⟨rfl, rfl⟩ := h.armShared hname hk
    simpa [eq_comm] using hchosen

/-- The run never sticks, and every node that ran has its value, a `CBlock` apart. -/
theorem exec_spec (outcomes : Outcomes) (h : b.BlockRules) (hr : b.InRange) {i : ℕ}
    (hi : i ≤ b.nodes.length) :
    ∃ env, exec I b outcomes i = some env ∧ ∀ j < i, b.Runs outcomes j →
      b.nodes[j]? ≠ some .cblock → ∃ v, env j = some v := by
  induction i with
  | zero => exact ⟨_, rfl, by simp⟩
  | succ i ih =>
    obtain ⟨env, henv, hval⟩ := ih (le_of_lt hi)
    have hnode := getElem?_eq_getElem (show i < b.nodes.length from hi)
    by_cases hrun : b.Runs outcomes i
    · have hreads : ∀ r ∈ (b.nodes[i]).readsUnder (outcomes i), ∃ v, env.read I r = some v := by
        intro r hmem
        cases r with
        | pool p => exact ⟨_, rfl⟩
        | node j =>
          obtain ⟨hlt, hj, hblock⟩ := reads_ran h hr hnode hrun hmem
          exact hval _ hlt hj hblock
      obtain ⟨out, hout, hsome⟩ := Env.eval_of_reads hreads
      refine ⟨update env i out, by simp [exec, henv, hnode, hrun, hout], ?_⟩
      intro j hj hjr hblock
      by_cases hji : j = i
      · subst hji
        rw [hnode, ne_eq, some.injEq] at hblock
        simpa using hsome hblock
      · rw [update_of_ne hji]
        exact hval j (by omega) hjr hblock
    · refine ⟨env, by simp [exec, henv, hnode, hrun], ?_⟩
      intro j hj hjr
      have hji : j ≠ i := by
        rintro rfl
        exact hrun hjr
      exact hval j (by omega) hjr

theorem available_of_ran (h : b.BlockRules) (hr : b.InRange) {i : ℕ} {j : UInt32}
    (hi : i ≤ b.nodes.length) (hlt : j.toNat < i) (hj : b.Runs outcomes j.toNat)
    (hblock : b.nodes[j.toNat]? ≠ some .cblock) : Available I b outcomes i (.node j) := by
  obtain ⟨env, henv, hval⟩ := exec_spec (I := I) outcomes h hr hi
  obtain ⟨v, hv⟩ := hval _ hlt hj hblock
  exact ⟨hlt, hj, env, v, henv, hv⟩

/-- An accepted bundle, whatever its conditions choose: no value position names a `CBlock`, and
what a running node reads, and the result, ran before and has its value. -/
theorem verifyBlocks_run_sound (hn : b.nodes.length ≤ 2 ^ 32) (hr : b.InRange)
    (hok : verifyBlocks b = .ok blocks) (I : Interp V) (outcomes : Outcomes) :
    (∀ i node, b.nodes[i]? = some node →
      (∀ j, .node j ∈ node.refs → b.nodes[j.toNat]? ≠ some .cblock) ∧
      (b.Runs outcomes i → ∀ r ∈ node.readsUnder (outcomes i), Available I b outcomes i r)) ∧
    (∀ j, b.result = .node j → b.nodes[j.toNat]? ≠ some .cblock) ∧
    Available I b outcomes b.nodes.length b.result ∧
    ∃ env, exec I b outcomes b.nodes.length = some env := by
  have h := blockRules_of_verifyBlocks hn hr hok
  refine ⟨fun i node hnode => ⟨fun j => h.noBlock hnode, fun hrun r hmem => ?_⟩,
    fun j => h.resultNoBlock, ?_, ?_⟩
  · cases r with
    | pool p => trivial
    | node j =>
      obtain ⟨hlt, hj, hblock⟩ := reads_ran h hr hnode hrun hmem
      exact available_of_ran h hr (le_of_lt (List.getElem?_eq_some_iff.mp hnode).1) hlt hj hblock
  · cases hres : b.result with
    | pool p => trivial
    | node j =>
      refine available_of_ran h hr le_rfl (hr.result_lt hres) ?_ (h.resultNoBlock hres)
      apply runs_of_visible (runs_length h.toDeclaredRules) (h.resultVisible hres)
      exact fun o hm => selected_of_plain (fun k which ha => h.armResult ha hres) hm
  · obtain ⟨env, henv, -⟩ := exec_spec (I := I) outcomes h hr le_rfl
    exact ⟨env, henv⟩

theorem runs_wrapped_four {m : ℕ} : (wrapped m).Runs outcomes 4 := by
  intro o ho henc
  have hopen := henc.1
  match o with
  | 0 => exact (not_encloses_wrapped henc).elim
  | 1 | 2 | 3 => simp [CoreBundle.role, wrapped, Node.role] at hopen

/-- The `CIf` at node 3 names block 0, around node 1, as its then arm. -/
theorem not_runs_wrapped_one {m : ℕ} : ¬ (wrapped m).Runs (fun _ => some .else_) 1 := by
  intro hrun
  have hname : (wrapped m).NamesArm 3 .then_ 2 :=
    namesArm_cif_then rfl isEnd_wrapped_two
  have hchosen := selected_iff.mp (hrun 0 (by omega) inside_wrapped.1) hname matches_wrapped
  simp at hchosen

end

attribute [local instance] knownDigests

theorem verifyBlocks_run_sound_oneArmed :
    Available ⟨fun _ => 0, fun _ _ => 1, 2, fun _ => 3⟩ oneArmed (fun _ => some .then_) 3
      (.node 2) :=
  (verifyBlocks_run_sound (b := oneArmed) (by decide) (by decide) rfl _ _).2.2.1

theorem verifyBlocks_run_sound_wrapped : ∃ m, m + 3 = 2 ^ 32 ∧ (wrapped m).InRange ∧
    (∃ blocks, verifyBlocks (wrapped m) = .ok blocks) ∧
    ∃ outcomes : Outcomes, (wrapped m).Runs outcomes 4 ∧
      (∃ node, (wrapped m).nodes[4]? = some node ∧ .node 1 ∈ node.reads) ∧
      ¬ (wrapped m).Runs outcomes 1 :=
  ⟨2 ^ 32 - 3, by norm_num, inRange_wrapped, ⟨_, verifyBlocks_wrapped (by norm_num)⟩,
    fun _ => some .else_, runs_wrapped_four, ⟨_, wrapped_four, mem_singleton.mpr rfl⟩,
    not_runs_wrapped_one⟩

end AxisBridge
