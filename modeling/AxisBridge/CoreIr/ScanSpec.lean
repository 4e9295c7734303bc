import AxisBridge.CoreIr.BlockRules

/-! The structure pass: what one step checks, and what its three tables hold afterwards. -/
namespace AxisBridge
open List Nesting CoreBundle Option

theorem UInt32.pred_iff (x e : UInt32) : (x ≥ 1 ∧ e = x - 1) ↔ e.toNat + 1 = x.toNat := by
  constructor
  · rintro ⟨hx, rfl⟩
    have h1 : (1 : UInt32).toNat ≤ x.toNat := UInt32.le_iff_toNat_le.mp hx
    rw [UInt32.toNat_sub_of_le x 1 hx]
    simp only [UInt32.reduceToNat] at h1 ⊢
    omega
  · intro h
    have hx : (1 : UInt32) ≤ x := by
      rw [UInt32.le_iff_toNat_le]
      simp only [UInt32.reduceToNat]
      omega
    refine ⟨hx, ?_⟩
    apply UInt32.toNat_inj.mp
    rw [UInt32.toNat_sub_of_le x 1 hx]
    simp only [UInt32.reduceToNat]
    omega

/-- The arm table holds exactly the arms named by the `CIf`s that satisfy `P`. -/
structure ArmTable (b : CoreBundle) (P : ℕ → Arm → Prop) (arm : List (Option (UInt32 × Arm))) :
    Prop where
  length_eq : arm.length = b.nodes.length
  entry : ∀ (j k : UInt32) (w : Arm),
    arm[j.toNat]? = some (some (k, w)) ↔ P k.toNat w ∧ b.NamesArm k.toNat w j

theorem ArmTable.congr {b : CoreBundle} {P Q : ℕ → Arm → Prop} {arm : List (Option (UInt32 × Arm))}
    (h : ArmTable b P arm) (hpq : ∀ k w, P k w ↔ Q k w) : ArmTable b Q arm :=
  ⟨h.length_eq, fun j k w => by rw [h.entry, hpq]⟩

/-- No `CIf` that satisfies `P` has named the arm `r` ends. -/
def ArmFree (b : CoreBundle) (P : ℕ → Arm → Prop) (r : NodeRef) : Prop :=
  ∀ j, r = .node j → ∀ k w, P k w → ¬ b.NamesArm k w j

theorem arms_functional {node : Node} {w : Arm} {r r' : NodeRef} (h : (w, r) ∈ node.arms)
    (h' : (w, r') ∈ node.arms) : r = r' := by
  cases node with
  | cif cond then_ else_ =>
    simp only [Node.arms, mem_cons, Prod.mk.injEq, not_mem_nil, or_false] at h h'
    rcases h with ⟨rfl, rfl⟩ | ⟨rfl, rfl⟩ <;> simp_all
  | _ => simp [Node.arms] at h

section Naming
variable {b : CoreBundle} {P : ℕ → Arm → Prop} {arm : List (Option (UInt32 × Arm))} {i : ℕ}
  {node : Node} {r : NodeRef}

theorem nameArm_ok (which : Arm) (hi : i < 2 ^ 32) (hnode : b.nodes[i]? = some node)
    (hr : (which, r) ∈ node.arms) (ht : ArmTable b P arm) (hf : ArmFree b P r) :
    ∃ arm', nameArm b (asU32 i) arm r which = .ok arm' ∧
      ArmTable b (fun k w => P k w ∨ (k = i ∧ w = which)) arm' := by
  -- the entries of the other references are those of `P`, and this one is new only at a `CEnd`
  have hsame : (∀ j, b.NamesArm i which j → r ≠ .node j) →
      ArmTable b (fun k w => P k w ∨ (k = i ∧ w = which)) arm := by
    intro hno
    refine ⟨ht.length_eq, fun j k w => ?_⟩
    rw [ht.entry]
    refine ⟨fun h => ⟨.inl h.1, h.2⟩, ?_⟩
    rintro ⟨h | ⟨hk, rfl⟩, hn⟩
    · exact ⟨h, hn⟩
    · rw [hk] at hn
      have hm := ((namesArm_iff hnode).mp hn).2
      exact (hno j hn (arms_functional hr hm)).elim
  cases r with
  | pool p => exact ⟨arm, rfl, hsame (by simp)⟩
  | node j =>
    by_cases he : b.isEnd j = true
    · have hj := lt_of_isEnd he
      have hnone : arm[j.toNat]? = some none := by
        have hlt : j.toNat < arm.length := ht.length_eq ▸ hj
        cases hx : arm[j.toNat] with
        | none => rw [getElem?_eq_getElem hlt, hx]
        | some x =>
          have hentry := (ht.entry j x.1 x.2).mp (by rw [getElem?_eq_getElem hlt, hx])
          exact (hf j rfl _ _ hentry.1 hentry.2).elim
      have hlt : j.toNat < arm.length := ht.length_eq ▸ hj
      refine ⟨arm.set j.toNat (some (asU32 i, which)), ?_, by simp [ht.length_eq], ?_⟩
      · simp [nameArm, he, readAt_of_getElem? hnone, writeAt_of_lt hlt]
      · intro j' k w
        by_cases hjj : j = j'
        · subst hjj
          simp only [getElem?_set_self hlt, some.injEq, Prod.mk.injEq]
          constructor
          · rintro ⟨rfl, rfl⟩
            rw [toNat_asU32 hi]
            exact ⟨.inr ⟨rfl, rfl⟩, he, node, hnode, hr⟩
          · rintro ⟨h | ⟨hk, rfl⟩, hn⟩
            · exact (hf j rfl _ _ h hn).elim
            · exact ⟨by rw [← hk, asU32_toNat], rfl⟩
        · have hne : j.toNat ≠ j'.toNat := fun h => hjj (UInt32.toNat_inj.mp h)
          rw [getElem?_set_ne hne, ht.entry]
          refine ⟨fun h => ⟨.inl h.1, h.2⟩, ?_⟩
          rintro ⟨h | ⟨hk, rfl⟩, hn⟩
          · exact ⟨h, hn⟩
          · rw [hk] at hn
            have hm := arms_functional hr ((namesArm_iff hnode).mp hn).2
            simp only [NodeRef.node.injEq] at hm
            exact (hjj hm).elim
    · refine ⟨arm, by simp [nameArm, he], hsame ?_⟩
      intro j' hn hrj
      simp only [NodeRef.node.injEq] at hrj
      subst hrj
      exact he hn.1

theorem nameArm_err (k : UInt32) (which : Arm) (hn : b.nodes.length ≤ 2 ^ 32)
    (ht : ArmTable b P arm) (hf : ¬ ArmFree b P r) :
    ∃ msg, nameArm b k arm r which = .error (.err msg) := by
  simp only [ArmFree, not_forall, not_not] at hf
  obtain ⟨j, rfl, k0, w, hp, ha⟩ := hf
  have hk0 : k0 < 2 ^ 32 := lt_of_lt_of_le ha.lt hn
  have he : arm[j.toNat]? = some (some (asU32 k0, w)) := by
    rw [ht.entry, toNat_asU32 hk0]
    exact ⟨hp, ha⟩
  simp [nameArm, ha.1, readAt_of_getElem? he, throw, throwThe, MonadExceptOf.throw]

end Naming

/-- What the tables hold before node `i`. -/
structure ScanInv (b : CoreBundle) (i : ℕ) (s : Scan) : Prop where
  noUnderflow : NoUnderflow b.role i
  stack : s.stack = (opened b.role i).map asU32
  homeLength : s.home.length = b.nodes.length
  partnerLength : s.partner.length = b.nodes.length
  home : ∀ j < i, s.home[j]? = some ((enclosing b.role j).head?.map asU32)
  partner : ∀ {o e : ℕ}, Matches b.role o e → e < i →
    s.partner[o]? = some (some (asU32 e)) ∧ s.partner[e]? = some (some (asU32 o))
  arm : ArmTable b (fun k _ => k < i) s.arm

section Step
variable {b : CoreBundle} {s : Scan} {i : ℕ} {node : Node}

theorem home_set {home : List (Option UInt32)} {x : Option UInt32}
    (hold : ∀ j < i, home[j]? = some ((enclosing b.role j).head?.map asU32))
    (hlt : i < home.length) (hx : x = (enclosing b.role i).head?.map asU32) :
    ∀ j < i + 1, (home.set i x)[j]? = some ((enclosing b.role j).head?.map asU32) := by
  intro j hj
  rcases Nat.lt_succ_iff_lt_or_eq.mp hj with hlt' | rfl
  · rw [getElem?_set_ne (by omega)]
    exact hold j hlt'
  · rw [getElem?_set_self hlt, hx]

/-- A plain node changes nothing but its own `home` entry. -/
theorem ScanInv.plain (inv : ScanInv b i s) (hr : b.role i = .plain) (hlt : i < b.nodes.length)
    {arm : List (Option (UInt32 × Arm))} (ha : ArmTable b (fun k _ => k < i + 1) arm) :
    ScanInv b (i + 1) { s with home := s.home.set i s.stack.head?, arm := arm } := by
  have hu : NoUnderflow b.role (i + 1) := by
    rw [noUnderflow_succ_iff, depth_succ, hr]
    exact ⟨inv.noUnderflow, by simpa [Bracket.weight] using inv.noUnderflow i le_rfl⟩
  refine ⟨hu, ?_, by simp [inv.homeLength], inv.partnerLength, ?_, ?_, ha⟩
  · simp [opened_plain hr, inv.stack]
  · apply home_set inv.home (inv.homeLength ▸ hlt)
    rw [enclosing_of_ne (by simp [hr]), inv.stack, head?_map]
  · intro o e hm he
    apply inv.partner hm
    have hne : e ≠ i := by
      rintro rfl
      simp [hm.2.1] at hr
    omega

theorem ScanInv.armTable_succ (inv : ScanInv b i s) (hnode : b.nodes[i]? = some node)
    (ha : node.arms = []) : ArmTable b (fun k _ => k < i + 1) s.arm := by
  refine ⟨inv.arm.length_eq, fun j k w => ?_⟩
  rw [inv.arm.entry]
  refine ⟨fun h => ⟨Nat.lt_succ_of_lt h.1, h.2⟩, ?_⟩
  rintro ⟨hk, hn⟩
  refine ⟨?_, hn⟩
  rcases Nat.lt_succ_iff_lt_or_eq.mp hk with h | h
  · exact h
  · rw [h, namesArm_iff hnode, ha] at hn
    simp at hn

end Step

theorem ScanInv.initial (b : CoreBundle) : ScanInv b 0 ⟨replicate b.nodes.length none,
    replicate b.nodes.length none, replicate b.nodes.length none, []⟩ := by
  refine ⟨?_, rfl, by simp, by simp, by simp, by simp, by simp, ?_⟩
  · intro i hi
    simp [Nat.le_zero.mp hi, depth]
  · intro j k w
    simp [getElem?_replicate]

variable [Sha256]

theorem armsInPlace_spec {b : CoreBundle} {s : Scan} {i : ℕ} (hi : i < 2 ^ 32)
    (inv : ScanInv b i s) (then_ else_ : NodeRef) :
    ∃ ok, armsInPlace b s.partner (asU32 i) then_ else_ = .ok ok ∧
      (ok = true ↔ b.ArmsPlaced i then_ else_) := by
  have hpred :
      ∀ e : UInt32, (decide (asU32 i ≥ 1) && e == asU32 i - 1) = true ↔ e.toNat + 1 = i := by
    intro e
    have h := UInt32.pred_iff (asU32 i) e
    rw [toNat_asU32 hi] at h
    simpa using h
  cases then_ with
  | pool t => exact ⟨false, rfl, by simp [ArmsPlaced]⟩
  | node t =>
    -- the one-armed form, which needs the else to be a Unit pool entry
    have hone : ∀ x : Bool, x = ((decide (asU32 i ≥ 1) && t == asU32 i - 1) && b.isEnd t) →
        ∃ ok, (if x = true then (.ok (b.unitElse else_) : Res Bool) else .ok false) = .ok ok ∧
          (ok = true ↔ b.isEnd t = true ∧ t.toNat + 1 = i ∧ b.unitElse else_ = true) := by
      rintro x rfl
      by_cases hx : t.toNat + 1 = i ∧ b.isEnd t = true
      · refine ⟨b.unitElse else_, ?_, by simp [hx.1, hx.2]⟩
        rw [if_pos (by rw [Bool.and_eq_true, hpred]; exact hx)]
      · refine ⟨false, ?_, ?_⟩
        · rw [if_neg (by rw [Bool.and_eq_true, hpred]; exact hx)]
        · simp only [Bool.false_eq_true, false_iff]
          rintro ⟨h1, h2, -⟩
          exact hx ⟨h2, h1⟩
    cases else_ with
    | pool p =>
      obtain ⟨ok, hok, hiff⟩ := hone _ rfl
      refine ⟨ok, by simpa [armsInPlace] using hok, hiff.trans ?_⟩
      simp [ArmsPlaced]
    | node e =>
      by_cases he : e.toNat + 1 = i ∧ b.isEnd e = true
      · have hcond : ((decide (asU32 i ≥ 1) && e == asU32 i - 1) && b.isEnd e) = true := by
          rw [Bool.and_eq_true, hpred]
          exact he
        obtain ⟨o, ho⟩ := exists_matches_left (he.1 ▸ inv.noUnderflow) (isEnd_iff_closer.mp he.2)
        have hp := (inv.partner ho (by omega)).2
        have ho32 : o < 2 ^ 32 := by have := ho.1.2.1; omega
        refine ⟨decide (asU32 o ≥ 1) && t == asU32 o - 1 && b.isEnd t, ?_, ?_⟩
        · simp only [armsInPlace]
          rw [if_pos hcond]
          simp [readAt_of_getElem? hp, pure, Except.pure]
        · have hpo := UInt32.pred_iff (asU32 o) t
          rw [toNat_asU32 ho32] at hpo
          have hu : b.unitElse (.node e) = false := rfl
          simp only [Bool.and_eq_true, decide_eq_true_eq, beq_iff_eq, hpo, ArmsPlaced,
            NodeRef.node.injEq, hu, Bool.false_eq_true, and_false, exists_const, or_false]
          constructor
          · rintro ⟨hto, ht⟩
            exact ⟨t, e, o, rfl, rfl, ht, he.1, ho, hto⟩
          · rintro ⟨t', e', o', rfl, rfl, ht, -, ho', hto⟩
            have hoo : o' = o := Matches.unique_left ho' ho
            exact ⟨hoo ▸ hto, ht⟩
      · have hcond : ¬ ((decide (asU32 i ≥ 1) && e == asU32 i - 1) && b.isEnd e) = true := by
          rw [Bool.and_eq_true, hpred]
          exact he
        obtain ⟨ok, hok, hiff⟩ := hone _ rfl
        refine ⟨ok, ?_, hiff.trans ?_⟩
        · simp only [armsInPlace]
          rw [if_neg hcond]
          exact hok
        · simp only [ArmsPlaced, NodeRef.node.injEq]
          constructor
          · rintro ⟨h1, h2, h3⟩
            exact .inr ⟨t, rfl, h1, h2, h3⟩
          · rintro (⟨t', e', o', rfl, rfl, ht, hei, ho', -⟩ | ⟨t', rfl, h⟩)
            · exact (he ⟨hei, isEnd_iff_closer.mpr ho'.2.1⟩).elim
            · exact h

/-- What the structure pass checks at node `i`. -/
def CoreBundle.StepRule (b : CoreBundle) (i : ℕ) : Node → Prop
  | .cend _ => 0 ≤ depth b.role (i + 1)
  | .cif _ then_ else_ =>
    ArmFree b (fun k _ => k < i) then_ ∧
      ArmFree b (fun k w => k < i ∨ (k = i ∧ w = .then_)) else_ ∧ b.ArmsPlaced i then_ else_
  | _ => True

variable {b : CoreBundle} {s : Scan} {i : ℕ} {node : Node}

/-- One step fills the tables when its node obeys the rules it checks, else it refuses. -/
theorem scanStep_spec (hn : b.nodes.length ≤ 2 ^ 32) (hnode : b.nodes[i]? = some node)
    (inv : ScanInv b i s) :
    (b.StepRule i node → ∃ s', scanStep b s i node = .ok s' ∧ ScanInv b (i + 1) s') ∧
    (¬ b.StepRule i node → ∃ msg, scanStep b s i node = .error (.err msg)) := by
  have hlt : i < b.nodes.length := (List.getElem?_eq_some_iff.mp hnode).1
  have hi : i < 2 ^ 32 := lt_of_lt_of_le hlt hn
  have hhome := writeAt_of_lt (inv.homeLength ▸ hlt) s.stack.head?
  have hrole := role_of_getElem? hnode
  cases node with
  | ccall id args name | cdeterminate =>
    refine ⟨fun _ => ⟨_, by simp [scanStep, hhome, pure, Except.pure]; rfl, ?_⟩, by simp [StepRule]⟩
    exact inv.plain hrole hlt (inv.armTable_succ hnode rfl)
  | cblock =>
    refine ⟨fun _ => ⟨_, by simp [scanStep, hhome, pure, Except.pure]; rfl, ?_⟩, by simp [StepRule]⟩
    have hu : NoUnderflow b.role (i + 1) := by
      rw [noUnderflow_succ_iff, depth_succ, hrole]
      have := inv.noUnderflow i le_rfl
      exact ⟨inv.noUnderflow, by simp only [Node.role, Bracket.weight]; omega⟩
    refine ⟨hu, ?_, by simp [inv.homeLength], inv.partnerLength, ?_, ?_,
      inv.armTable_succ hnode rfl⟩
    · simp [opened_opener (show b.role i = .opener from hrole), inv.stack]
    · apply home_set inv.home (inv.homeLength ▸ hlt)
      rw [enclosing_of_ne (by simp [hrole, Node.role]), inv.stack, head?_map]
    · intro o e hm he
      apply inv.partner hm
      have hne : e ≠ i := by
        rintro rfl
        simp [hm.2.1, Node.role] at hrole
      omega
  | cif cond then_ else_ =>
    obtain ⟨ok, hok, hiff⟩ := armsInPlace_spec hi inv then_ else_
    by_cases hf1 : ArmFree b (fun k _ => k < i) then_
    · obtain ⟨arm1, h1, ht1⟩ := nameArm_ok .then_ hi hnode (by simp [Node.arms]) inv.arm hf1
      by_cases hf2 : ArmFree b (fun k w => k < i ∨ (k = i ∧ w = .then_)) else_
      · obtain ⟨arm2, h2, ht2⟩ := nameArm_ok .else_ hi hnode (by simp [Node.arms]) ht1 hf2
        have ht : ArmTable b (fun k _ => k < i + 1) arm2 := by
          refine ht2.congr fun k w => ?_
          cases w <;> simp <;> omega
        cases ok with
        | true =>
          refine ⟨fun _ => ⟨_, by simp [scanStep, hhome, h1, h2, hok, pure, Except.pure]; rfl, ?_⟩,
            ?_⟩
          · exact inv.plain hrole hlt ht
          · intro hno
            exact (hno ⟨hf1, hf2, hiff.mp rfl⟩).elim
        | false =>
          refine ⟨fun hr => absurd (hiff.mpr hr.2.2) (by simp), fun _ => ?_⟩
          simp [scanStep, hhome, h1, h2, hok, throw, throwThe, MonadExceptOf.throw]
      · obtain ⟨msg, h2⟩ := nameArm_err (asU32 i) .else_ hn ht1 hf2
        refine ⟨fun hr => (hf2 hr.2.1).elim, fun _ => ⟨msg, ?_⟩⟩
        simp [scanStep, hhome, h1, h2]
    · obtain ⟨msg, h1⟩ := nameArm_err (asU32 i) .then_ hn inv.arm hf1
      refine ⟨fun hr => (hf1 hr.1).elim, fun _ => ⟨msg, ?_⟩⟩
      simp [scanStep, hhome, h1]
  | cend value =>
    have hcl : b.role i = .closer := hrole
    have hlen := length_opened inv.noUnderflow
    have hd : depth b.role (i + 1) = depth b.role i - 1 := by
      rw [depth_succ, hcl, Bracket.weight]
      omega
    cases ho : opened b.role i with
    | nil =>
      rw [ho] at hlen
      have hstack : s.stack = [] := by simp [inv.stack, ho]
      refine ⟨fun hr => ?_, fun _ => ?_⟩
      · simp only [StepRule, hd, ← hlen] at hr
        simp at hr
      · simp [scanStep, writeAt, inv.homeLength, hlt, hstack, throw, throwThe, MonadExceptOf.throw]
    | cons o rest =>
      have hstack : s.stack = asU32 o :: rest.map asU32 := by simp [inv.stack, ho]
      have holt : o < i := (opened_split (p := []) ho).2.1
      have ho32 : o < 2 ^ 32 := by omega
      have hu : NoUnderflow b.role (i + 1) := by
        rw [noUnderflow_succ_iff]
        refine ⟨inv.noUnderflow, ?_⟩
        rw [hd, ← hlen, ho]
        simp
      have hmi : Matches b.role o i := (matches_iff_head hcl).mpr (by simp [ho])
      have hon : o < b.nodes.length := by omega
      have hp1 : o < s.partner.length := inv.partnerLength ▸ hon
      refine ⟨fun _ => ⟨{ s with
          home := s.home.set i (rest.map asU32).head?
          partner := (s.partner.set o (some (asU32 i))).set i (some (asU32 o))
          stack := rest.map asU32 }, ?_, ?_⟩, fun hno => (hno (hu (i + 1) le_rfl)).elim⟩
      · simp [scanStep, hstack, toNat_asU32 ho32, writeAt, hon, inv.partnerLength,
          inv.homeLength, hlt, pure, Except.pure]
      · refine ⟨hu, ?_, by simp [inv.homeLength], by simp [inv.partnerLength], ?_, ?_,
          inv.armTable_succ hnode rfl⟩
        · simp [opened_closer hcl, ho]
        · apply home_set inv.home (inv.homeLength ▸ hlt)
          rw [enclosing_closer hcl, ho, tail_cons, head?_map]
        · intro o' e hm he
          rcases Nat.lt_succ_iff_lt_or_eq.mp he with hlt' | rfl
          · -- an older pair shares neither end with the new one
            obtain ⟨h1, h2⟩ := inv.partner hm hlt'
            have hoo : o' ≠ o := fun h => by
              have := Matches.unique_right hm (h ▸ hmi)
              omega
            have hoe : e ≠ o := fun h => by
              have h1 := hm.2.1
              have h2 := hmi.1.1
              simp [h, h2] at h1
            have hmlt := hm.1.2.1
            exact ⟨by rw [getElem?_set_ne (by omega), getElem?_set_ne (by omega), h1],
              by rw [getElem?_set_ne (by omega), getElem?_set_ne (by omega), h2]⟩
          · have hoo : o' = o := Matches.unique_left hm hmi
            subst hoo
            exact ⟨by rw [getElem?_set_ne (by omega), getElem?_set_self hp1],
              by rw [getElem?_set_self (by simp [inv.partnerLength, hlt])]⟩

omit [Sha256] in
/-- A pass over what is left of a list, which keeps `I` and stops at the first entry against its
rule. -/
theorem pass_spec {α σ : Type} {l : List α} {rule : ℕ → α → Prop} {I : ℕ → σ → Prop}
    {step : σ → ℕ → α → Res σ} {pass : ℕ → List α → σ → Res σ} (hnil : ∀ i s, pass i [] s = .ok s)
    (hcons : ∀ i x xs s, pass i (x :: xs) s = step s i x >>= pass (i + 1) xs)
    (hstep : ∀ {i x s}, l[i]? = some x → I i s → (rule i x → ∃ s', step s i x = .ok s' ∧
      I (i + 1) s') ∧ (¬ rule i x → ∃ msg, step s i x = .error (.err msg)))
    {i : ℕ} {s : σ} {rest : List α} (hdrop : l.drop i = rest) (hin : i ≤ l.length) (hs : I i s) :
    ((∀ j x, i ≤ j → l[j]? = some x → rule j x) → ∃ s', pass i rest s = .ok s' ∧ I l.length s') ∧
      (¬ (∀ j x, i ≤ j → l[j]? = some x → rule j x) →
      ∃ msg, pass i rest s = .error (.err msg)) := by
  induction rest generalizing i s with
  | nil =>
    obtain rfl : i = l.length := le_antisymm hin (drop_eq_nil_iff.mp hdrop)
    refine ⟨fun _ => ⟨s, hnil _ s, hs⟩, fun hno => (hno ?_).elim⟩
    intro j x hj hx
    exact absurd (List.getElem?_eq_some_iff.mp hx).1 (Nat.not_lt.mpr hj)
  | cons x rest ih =>
    have hx : l[i]? = some x := by
      rw [← head?_drop, hdrop, head?_cons]
    have hlt : i < l.length := (List.getElem?_eq_some_iff.mp hx).1
    have hdrop' : l.drop (i + 1) = rest := by
      rw [← tail_drop, hdrop, tail_cons]
    obtain ⟨hok, herr⟩ := hstep hx hs
    by_cases hrule : rule i x
    · obtain ⟨s', hs', hinv⟩ := hok hrule
      have hiff : (∀ j x, i ≤ j → l[j]? = some x → rule j x) ↔
          ∀ j x, i + 1 ≤ j → l[j]? = some x → rule j x := by
        constructor
        · intro h j y hj
          exact h j y (Nat.le_of_succ_le hj)
        · intro h j y hj hy
          rcases Nat.eq_or_lt_of_le hj with rfl | hlt'
          · rw [hx, some.injEq] at hy
            exact hy ▸ hrule
          · exact h j y hlt' hy
      rw [hiff, hcons, hs']
      exact ih hdrop' hlt hinv
    · obtain ⟨msg, hmsg⟩ := herr hrule
      refine ⟨fun h => (hrule (h i x le_rfl hx)).elim, fun _ => ⟨msg, ?_⟩⟩
      rw [hcons, hmsg]
      rfl

theorem scan_spec (hn : b.nodes.length ≤ 2 ^ 32) {nodes : List Node}
    (hdrop : b.nodes.drop i = nodes) (hin : i ≤ b.nodes.length) (inv : ScanInv b i s) :
    ((∀ j node, i ≤ j → b.nodes[j]? = some node → b.StepRule j node) →
      ∃ s', scan b i nodes s = .ok s' ∧ ScanInv b b.nodes.length s') ∧
    (¬ (∀ j node, i ≤ j → b.nodes[j]? = some node → b.StepRule j node) →
      ∃ msg, scan b i nodes s = .error (.err msg)) :=
  pass_spec (fun _ _ => rfl) (fun _ _ _ _ => rfl) (scanStep_spec hn) hdrop hin inv

end AxisBridge
