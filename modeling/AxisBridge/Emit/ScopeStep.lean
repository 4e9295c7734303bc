import AxisBridge.Emit.ScopeInv

/-! One node's piece keeps the mirror between the emitted scopes and the open blocks. -/
namespace AxisBridge
open List Nesting Scope CoreBundle Option

theorem inert_raw (s : String) : Inert ([] : List Var) [Tok.raw s] := inert_text _

/-- The variables of the data arguments. -/
def dataVars (args : List (NodeRef × ArgKind)) : List Var :=
  (args.filter fun arg => arg.2 = .data).map fun arg => refExpr arg.1

section
variable {env : CallEnv} {index : UInt32} {arg : NodeRef} {kind : ArgKind} {tok : Tok}
  {exprs : List Tok}

theorem ArgText.text_or_use (h : ArgText env index arg kind tok) :
    (∃ a, tok = .text a) ∨ (kind = .data ∧ ∃ how, tok = .use how (refExpr arg)) := by
  cases h with
  | callee target => exact .inl ⟨_, rfl⟩
  | take h | access h t | intoBytes h hmove => exact .inr ⟨rfl, _, rfl⟩

theorem ArgText.dataRef (h : ArgText env index arg .data tok) : DataRef env.poolKinds arg := by
  cases h <;> assumption

theorem mem_callBody {target : Target} {native : Bool} (h : tok ∈ callBody target native exprs) :
    (∃ a, tok = .text a) ∨ tok ∈ exprs := by
  obtain ⟨before, after, heq | ⟨-, heq⟩⟩ := callBody_eq target native exprs
  · rw [heq] at h
    rcases mem_append.mp h with h | h
    · rcases mem_cons.mp h with rfl | h
      · exact .inl ⟨_, rfl⟩
      rcases mem_cons.mp h with rfl | h
      · exact .inl ⟨_, rfl⟩
      rcases mem_commaSep h with rfl | h
      · exact .inl ⟨_, rfl⟩
      · exact .inr h
    · rw [mem_singleton.mp h]
      exact .inl ⟨_, rfl⟩
  · rw [heq] at h
    rcases mem_cons.mp h with rfl | h
    · exact .inl ⟨_, rfl⟩
    · rw [mem_singleton.mp h]
      exact .inl ⟨_, rfl⟩

/-- The borrows of the pre-check name the data arguments. -/
theorem inert_dataRefs (args : List (NodeRef × ArgKind)) :
    Inert (dataVars args) (commaSep (dataRefs args)) := by
  apply inert_of_forall
  intro tok h
  rcases mem_commaSep h with rfl | h
  · exact .inl ⟨_, rfl⟩
  · obtain ⟨arg, hmem, hsome⟩ := mem_filterMap.mp h
    split at hsome
    next hdata =>
      cases hsome
      refine .inr ⟨_, refExpr arg.1, mem_map.mpr ⟨arg, ?_, rfl⟩, rfl⟩
      exact mem_filter.mpr ⟨hmem, by simpa using hdata⟩
    next => cases hsome

theorem inert_callToks {target : Target} {effectful : Bool} {args : List (NodeRef × ArgKind)}
    {body : List Tok} (hbody : Inert (dataVars args) body) :
    Inert (dataVars args) (callToks target effectful args body) := by
  unfold callToks
  split
  · exact (inert_raw _).append hbody.block
  · have hpre := ((inert_raw
      s!" let __pre = axis_codegen_bridge::runtime::fault::guard_pre({effectful}, &[").append
      (inert_dataRefs args)).append (inert_raw "])")
    have hrun :=
      (((inert_raw " Some(v) => v, None => axis_codegen_bridge::runtime::fault::guard_run(").append
      ((inert_text (.debug target.name)).append
        ((inert_raw s!", {effectful}, || ").append hbody))).append (inert_raw ") ")).block
    refine (hpre.braces ((inert_raw " match __pre ").append hrun)).mono ?_
    simp

/-- A call's text keeps the scopes once its data arguments are in sight. -/
theorem CallText.inert [Sha256] {id : Hash256} {args : List NodeRef} {targetName : String}
    {toks : List Tok} (h : CallText env index id args targetName toks) :
    ∃ xs, Inert xs toks ∧ ∀ x ∈ xs, ∃ r ∈ args, DataRef env.poolKinds r ∧ x = refExpr r := by
  cases h with
  | mk target kinds native effectful exprs resolved length_eq argTexts =>
    have htexts : ∀ tok ∈ exprs, ∃ arg ∈ args.zip kinds, ArgText env index arg.1 arg.2 tok := by
      intro tok hin
      obtain ⟨n, hn, rfl⟩ := getElem_of_mem hin
      have hlt := argTexts.length_eq ▸ hn
      exact ⟨_, getElem_mem hlt, argTexts.get hlt hn⟩
    refine ⟨dataVars (args.zip kinds), inert_callToks (inert_of_forall ?_), ?_⟩
    · intro tok hin
      rcases mem_callBody hin with htext | hin
      · exact .inl htext
      · obtain ⟨arg, hmem, harg⟩ := htexts tok hin
        refine harg.text_or_use.imp_right ?_
        rintro ⟨hdata, how, rfl⟩
        refine ⟨how, refExpr arg.1, mem_map.mpr ⟨arg, ?_, rfl⟩, rfl⟩
        exact mem_filter.mpr ⟨hmem, by simpa using hdata⟩
    · intro x hx
      obtain ⟨arg, hmem, rfl⟩ := mem_map.mp hx
      obtain ⟨hmem, hdata⟩ := mem_filter.mp hmem
      obtain ⟨n, hn, heq⟩ := getElem_of_mem hmem
      have harg := argTexts.get hn (argTexts.length_eq ▸ hn)
      simp only [get_eq_getElem] at harg
      rw [heq, of_decide_eq_true hdata] at harg
      exact ⟨arg.1, (of_mem_zip hmem).1, harg.dataRef, rfl⟩

end

variable {b : CoreBundle} {blocks : Blocks} {kinds : List PoolKind} {i k : ℕ}

theorem openPath_of_ne {os : List ℕ} (h : ¬ b.ElseOpener i) (hos : b.OpenPath i os) :
    os = opened b.role i := by
  rcases hos with ⟨-, hos⟩ | ⟨helse, -⟩
  · exact hos
  · exact (h helse).elim

/-- What is bound before node `i` is in no block that opens there. -/
theorem Emitted.not_inside {os : List ℕ} {x : Var} (h : b.Emitted kinds i x) :
    b.varPath x ≠ i :: os := by
  intro heq
  cases x with
  | pool p => cases heq
  | node j =>
    obtain ⟨⟨node, -, -, hj⟩, -⟩ := h
    have hmem : i ∈ enclosing b.role j := by
      rw [show enclosing b.role j = i :: os from heq]
      exact mem_cons_self
    have hlt := lt_of_mem (mem_opened_of_enclosing hmem)
    rcases hj with hj | ⟨hj, -⟩ <;> omega

/-- A block's end binds the name its braces waited for. -/
theorem ScopeInv.of_close {fs : List (Scope.Frame Var)} {o : ℕ} {f : Scope.Frame Var}
    (hm : Mirror (b.Emitted kinds i) b.varPath blocks.nameOf (opened b.role (i + 1))
      (f :: fs) (some (blocks.nameOf o))) (helse : ¬ b.ElseOpener (i + 1))
    (hnew : ∀ y, b.Emitted kinds (i + 1) y → b.Emitted kinds i y ∨
      (y = blocks.nameOf o ∧ b.varPath y = opened b.role (i + 1))) :
    ScopeInv b blocks kinds (i + 1) (⟨blocks.nameOf o :: f.bound, none⟩ :: fs) := by
  refine ⟨_, .inl ⟨helse, rfl⟩, hm.bind ?_ none⟩
  intro y hy
  rcases hnew y hy with hy | ⟨rfl, hpath⟩
  · exact .inl hy
  · exact .inr ⟨rfl, hpath⟩

/-- The last arm of a `CIf` binds it. -/
theorem emitted_lastArm {w : Arm} (harm : b.NamesArm (i + 1) w (asU32 i)) {c t e : NodeRef}
    (hnode : b.nodes[i + 1]? = some (.cif c t e)) {x : Var} (hx : b.Emitted kinds (i + 1) x) :
    b.Emitted kinds i x ∨ (x = .node (i + 1) ∧ b.varPath x = opened b.role (i + 1)) := by
  rcases emitted_succ hx with hx | ⟨-, -, -, hno⟩ | ⟨rfl, -⟩
  · exact .inl hx
  · exact (hno _ _ harm).elim
  · refine .inr ⟨rfl, enclosing_of_ne ?_⟩
    simp [role_of_getElem? hnode, Node.role]

variable [Sha256] {fs : List (Scope.Frame Var)} (A : Accepted b blocks kinds)

include A

theorem Accepted.arm_iff (hi : i < b.nodes.length) {k : UInt32}
    {w : Arm} : blocks.arm[i]? = some (some (k, w)) ↔ b.NamesArm k.toNat w (asU32 i) := by
  have hentry := A.tables.arm.entry (asU32 i) k w
  rw [toNat_asU32 (lt_of_lt_of_le hi A.small)] at hentry
  simpa using hentry

/-- An end that names no arm has no entry. -/
theorem Accepted.not_namesArm (hi : i < b.nodes.length)
    (h : blocks.arm[i]? = some none) (k : ℕ) (w : Arm) : ¬ b.NamesArm k w (asU32 i) := by
  intro hname
  have hk := lt_of_lt_of_le hname.lt A.small
  have hentry := (A.arm_iff hi (k := asU32 k) (w := w)).mpr (by rwa [toNat_asU32 hk])
  rw [h] at hentry
  cases hentry

/-- The partner of a `CBlock` is its `CEnd`. -/
theorem Accepted.matches_partner (hi : i < b.nodes.length)
    (hrole : b.role i = .opener) {e : UInt32} (h : blocks.partner[i]? = some (some e)) :
    Matches b.role i e.toNat ∧ e.toNat < b.nodes.length := by
  obtain ⟨e', he', hm⟩ := exists_matches A.tables.balanced hrole hi
  rw [(A.tables.partner hm he').1, some.injEq, some.injEq] at h
  rw [← h, toNat_asU32 (lt_of_lt_of_le he' A.small)]
  exact ⟨hm, he'⟩

theorem Accepted.nameOf_arm {o e : ℕ} (hm : Matches b.role o e) (he : e < b.nodes.length) {w : Arm}
    (harm : b.NamesArm k w (asU32 e)) : blocks.nameOf o = .node k := by
  have hk := lt_of_lt_of_le harm.lt A.small
  have hentry := (A.arm_iff he (k := asU32 k)).mpr (toNat_asU32 hk ▸ harm)
  have hsmall := lt_of_lt_of_le he A.small
  simp [Blocks.nameOf, (A.tables.partner hm he).1, toNat_asU32 hsmall, hentry, toNat_asU32 hk]

theorem Accepted.nameOf_plain {o e : ℕ} (hm : Matches b.role o e) (he : e < b.nodes.length)
    (harm : ∀ k w, ¬ b.NamesArm k w (asU32 e)) : blocks.nameOf o = .node e := by
  have hsmall := lt_of_lt_of_le he A.small
  rw [Blocks.nameOf, (A.tables.partner hm he).1]
  split
  next e' heq =>
    cases heq
    rw [toNat_asU32 hsmall]
    split
    next k w hentry => exact (harm _ _ ((A.arm_iff he).mp hentry)).elim
    next => rfl
  next hno => exact (hno _ rfl).elim

/-- Only the end of a then-arm is followed by an else-arm. -/
theorem Accepted.not_elseOpener
    (h : ∀ k, ¬ b.NamesArm k .then_ (asU32 i)) : ¬ b.ElseOpener (i + 1) := by
  intro helse
  obtain ⟨k, t, e, cond, -, ht, harm, -, -⟩ := A.before_else helse
  have hti : asU32 i = t := by
    rw [show i = t.toNat by omega, asU32_toNat]
  exact h k (hti ▸ harm)

/-- Past a node that binds nothing there is nothing new in sight. -/
theorem Accepted.emitted_of_succ (harm : ∀ k w, ¬ b.NamesArm k w (asU32 i))
    (h : b.nodes[i]? = some .cblock ∨ ∃ c t e, b.nodes[i]? = some (.cif c t e)) {x : Var}
    (hx : b.Emitted kinds (i + 1) x) : b.Emitted kinds i x := by
  rcases emitted_succ hx with hx | ⟨-, hblock, hcif, -⟩ | ⟨-, c, t, e, hnode⟩
  · exact hx
  · rcases h with h | ⟨c, t, e, h⟩
    · exact (hblock h).elim
    · exact (hcif c t e h).elim
  · exact (A.no_cif_after harm c t e hnode).elim

/-- A statement binds node `i` where it stands. -/
theorem ScopeInv.bind
    (h : ScopeInv b blocks kinds i fs) (hi : i < b.nodes.length) (hrole : b.role i = .plain)
    {xs : List Var} {expr : List Tok} (hin : Inert xs expr) (hvis : ∀ x ∈ xs, Scope.Visible fs x) :
    ∃ fs', Scope.scan fs (Piece.bind i expr).toks = some fs' ∧
      ScopeInv b blocks kinds (i + 1) fs' := by
  obtain ⟨os, hos, hm⟩ := h
  obtain ⟨f, gs, rfl⟩ := hm.ne_nil
  have hos := openPath_of_ne (fun helse => by simp [helse.role_eq] at hrole) hos
  have harm := not_namesArm_of_role (b := b) (lt_of_lt_of_le hi A.small)
    (by simp [hrole] : b.role i ≠ .closer)
  have hpath : b.varPath (.node i) = os := by
    rw [hos, varPath, enclosing_of_ne (by simp [hrole])]
  refine ⟨_, scan_let hin hm.pending hvis, os, Or.inl ⟨A.not_elseOpener fun k => harm k _, ?_⟩,
    hm.bind ?_ none⟩
  · rw [hos, opened_plain hrole]
  · intro y hy
    rcases emitted_succ hy with hy | ⟨rfl, -⟩ | ⟨-, c, t, e, hnode⟩
    · exact .inl hy
    · exact .inr ⟨rfl, hpath⟩
    · exact (A.no_cif_after harm c t e hnode).elim

/-- A `CIf` prints nothing: its last arm bound it. -/
theorem ScopeInv.cif (h : ScopeInv b blocks kinds i fs) {c t e : NodeRef}
    (hnode : b.nodes[i]? = some (.cif c t e)) : ScopeInv b blocks kinds (i + 1) fs := by
  have hi : i < b.nodes.length := (List.getElem?_eq_some_iff.mp hnode).1
  have hrole : b.role i = .plain := role_of_getElem? hnode
  obtain ⟨os, hos, hm⟩ := h
  have hos := openPath_of_ne (fun helse => by simp [helse.role_eq] at hrole) hos
  have harm := not_namesArm_of_role (b := b) (lt_of_lt_of_le hi A.small)
    (by simp [hrole] : b.role i ≠ .closer)
  refine ⟨os, .inl ⟨A.not_elseOpener fun k => harm k _, ?_⟩, hm.mono ?_⟩
  · rw [hos, opened_plain hrole]
  · exact fun x _ hx => A.emitted_of_succ harm (.inr ⟨c, t, e, hnode⟩) hx

/-- A `CBlock` that opens a scope of its own. -/
theorem ScopeInv.push (h : ScopeInv b blocks kinds i fs) (hnode : b.nodes[i]? = some .cblock)
    (helse : ¬ b.ElseOpener i) {xs : List Var} {toks : List Tok} (hin : Inert xs toks)
    (hvis : ∀ x ∈ xs, Scope.Visible fs x) :
    ∃ fs', Scope.scan fs (.letVar (blocks.nameOf i) :: toks ++ [.openBrace]) = some fs' ∧
      ScopeInv b blocks kinds (i + 1) fs' := by
  have hi : i < b.nodes.length := (List.getElem?_eq_some_iff.mp hnode).1
  have hrole : b.role i = .opener := role_opener_iff.mpr hnode
  obtain ⟨os, hos, hm⟩ := h
  obtain ⟨f, gs, rfl⟩ := hm.ne_nil
  have harm := not_namesArm_of_role (b := b) (lt_of_lt_of_le hi A.small)
    (by simp [hrole] : b.role i ≠ .closer)
  have hmono := hm.mono fun x _ hx => A.emitted_of_succ harm (.inl hnode) hx
  refine ⟨_, scan_letOpen hin hm.pending hvis, i :: os,
    .inl ⟨A.not_elseOpener fun k => harm k _, ?_⟩, hmono.push fun x hx => ?_⟩
  · rw [openPath_of_ne helse hos, opened_opener hrole]
  · exact Emitted.not_inside (A.emitted_of_succ harm (.inl hnode) hx)

/-- An else-arm's braces were opened by its then-arm's end. -/
theorem ScopeInv.elseOpener (h : ScopeInv b blocks kinds i fs) (hnode : b.nodes[i]? = some .cblock)
    (helse : b.ElseOpener i) : ScopeInv b blocks kinds (i + 1) fs := by
  have hi : i < b.nodes.length := (List.getElem?_eq_some_iff.mp hnode).1
  have hrole : b.role i = .opener := role_opener_iff.mpr hnode
  have harm := not_namesArm_of_role (b := b) (lt_of_lt_of_le hi A.small)
    (by simp [hrole] : b.role i ≠ .closer)
  obtain ⟨os, hos, hm⟩ := h
  rcases hos with ⟨hno, -⟩ | ⟨-, rfl⟩
  · exact (hno helse).elim
  · exact ⟨_, .inl ⟨A.not_elseOpener fun k => harm k _, (opened_opener hrole).symm⟩,
      hm.mono fun x _ hx => A.emitted_of_succ harm (.inl hnode) hx⟩

/-- Which block a `CEnd` ends, and the scopes inside and around it. -/
theorem ScopeInv.closer
    (h : ScopeInv b blocks kinds i fs) (hi : i < b.nodes.length) (hrole : b.role i = .closer) :
    ∃ o f g gs, fs = f :: g :: gs ∧ Matches b.role o i ∧
      Mirror (b.Emitted kinds i) b.varPath blocks.nameOf
        (opened b.role (i + 1)) (g :: gs) (some (blocks.nameOf o)) := by
  obtain ⟨o, ho⟩ := exists_matches_left (A.noUnderflow hi) hrole
  obtain ⟨os, hos, hm⟩ := h
  have hos := openPath_of_ne (fun helse => by simp [helse.role_eq] at hrole) hos
  rw [ho.opened_eq] at hos
  subst hos
  obtain ⟨f, fs, rfl⟩ := hm.ne_nil
  have hpop := hm.pop
  obtain ⟨g, gs, rfl⟩ := hpop.ne_nil
  rw [ho.opened_succ]
  exact ⟨o, f, g, gs, rfl, ho, hpop⟩

/-- What a `CBlock` prints keeps the mirror. -/
theorem ScopeInv.open (h : ScopeInv b blocks kinds i fs) (hnode : b.nodes[i]? = some .cblock)
    {here : List Piece} (hhere : emitOpen b blocks kinds i = .ok here) :
    ∃ fs', Scope.scan fs (here.flatMap Piece.toks) = some fs' ∧
      ScopeInv b blocks kinds (i + 1) fs' := by
  have hi : i < b.nodes.length := (List.getElem?_eq_some_iff.mp hnode).1
  have hrole : b.role i = .opener := role_opener_iff.mpr hnode
  obtain ⟨end_, hpartner, hcases⟩ := emitOpen_ok hhere
  obtain ⟨hm, hend⟩ := A.matches_partner hi hrole hpartner
  have hunique : ∀ e : UInt32, Matches b.role i e.toNat → e = end_ := fun e he =>
    UInt32.toNat_inj.mp (he.unique_right hm)
  rcases hcases with ⟨k, cond, then_, else_, harm, hk, hdata, rfl⟩ | ⟨k, harm, rfl⟩ | ⟨harm, rfl⟩
  · have hname := (A.arm_iff hend).mp harm
    rw [asU32_toNat] at hname
    have helse : ¬ b.ElseOpener i := by
      rintro ⟨k', e, hm', hother⟩
      cases hunique e hm'
      have hw := (A.rules.toDeclaredRules.armShared hname hother).2
      cases hw
    have hcond := h.visible_cond A hm hname hk hdata
    have htest : Inert [refExpr cond] ([.raw "if axis_codegen_bridge::runtime::fault::is_unknown(",
        .use .borrow (refExpr cond), .raw ") || axis_codegen_bridge::runtime::fault::is_err(",
        .use .borrow (refExpr cond), .raw ") "] : List Tok) :=
      inert_of_forall (by simp [Tok.raw])
    have hclone : Inert [refExpr cond] ([.use .clone (refExpr cond)] : List Tok) :=
      inert_use _ _
    have htruthy : Inert [refExpr cond]
        ([.raw " else if axis_codegen_bridge::runtime::value::truthy(", .use .borrow (refExpr cond),
          .raw ") "] : List Tok) :=
      inert_of_forall (by simp [Tok.raw])
    have hin := htest.append (hclone.block.append htruthy)
    have hpush := h.push A hnode helse hin (by simp [hcond])
    rw [A.nameOf_arm hm hend (by simpa using hname)] at hpush
    simpa [Piece.toks] using hpush
  · have hname := (A.arm_iff hend).mp harm
    rw [asU32_toNat] at hname
    exact ⟨fs, rfl, h.elseOpener A hnode ⟨k, end_, hm, hname⟩⟩
  · have hno := A.not_namesArm hend harm
    rw [asU32_toNat] at hno
    have helse : ¬ b.ElseOpener i := by
      rintro ⟨k, e, hm', hname⟩
      cases hunique e hm'
      exact hno _ _ hname
    have hin : Inert ([] : List Var) ([] : List Tok) := inert_nil
    have hpush := h.push A hnode helse hin (by simp)
    rw [A.nameOf_plain hm hend (by simpa using hno)] at hpush
    simpa [Piece.toks] using hpush

/-- An arm with no else-arm after it stands directly before its `CIf`. -/
theorem Accepted.last_placed (hi : i < b.nodes.length) {w : Arm}
    (hname : b.NamesArm k w (asU32 i)) {node : Node} (hk : b.nodes[k]? = some node)
    (hlast : w = .then_ → ∀ cond then_ e, node ≠ .cif cond then_ (.node e)) :
    b.NamesArm (i + 1) w (asU32 i) ∧ ∃ c t e, b.nodes[i + 1]? = some (.cif c t e) := by
  have hsmall := lt_of_lt_of_le hi A.small
  have hmem := ((namesArm_iff hk).mp hname).2
  cases node with
  | cif cond then_ else_ =>
    have hki : i + 1 = k := by
      rcases (A.rules.placed hk).cases with
        ⟨t, e, o', rfl, rfl, -, -, -, -, hek⟩ | ⟨t, p, rfl, rfl, -, htk⟩
      · cases w with
        | then_ => exact (hlast rfl _ _ _ rfl).elim
        | else_ =>
          have he : asU32 i = e := by simpa [Node.arms] using hmem
          rw [← he, toNat_asU32 hsmall] at hek
          exact hek
      · have ht : asU32 i = t := by
          cases w with
          | then_ => simpa [Node.arms] using hmem
          | else_ => simp [Node.arms] at hmem
        rw [← ht, toNat_asU32 hsmall] at htk
        exact htk
    subst hki
    exact ⟨hname, cond, then_, else_, hk⟩
  | _ => simp [Node.arms] at hmem

section
variable {o : ℕ} {g : Scope.Frame Var} {gs : List (Scope.Frame Var)} (hi : i < b.nodes.length)
  (ho : Matches b.role o i)
  (hm : Mirror (b.Emitted kinds i) b.varPath blocks.nameOf (opened b.role (i + 1)) (g :: gs)
    (some (blocks.nameOf o)))

include hi ho hm

/-- The else-arm's block comes next, and waits for the same name. -/
theorem Accepted.elseArm (hname : b.NamesArm k .then_ (asU32 i)) {cond then_ : NodeRef} {e : UInt32}
    (hk : b.nodes[k]? = some (.cif cond then_ (.node e))) :
    ScopeInv b blocks kinds (i + 1) (.empty :: g :: gs) := by
  have hthen : then_ = .node (asU32 i) := by
    simpa [Node.arms, eq_comm] using ((namesArm_iff hk).mp hname).2
  rcases (A.rules.placed hk).cases with ⟨t, e', o', ht, he', -, hend, hm', hto, -⟩ |
    ⟨t, p, -, hp, -⟩
  · cases hthen.symm.trans ht
    cases he'
    rw [toNat_asU32 (lt_of_lt_of_le hi A.small)] at hto
    subst hto
    have hother := namesArm_cif_else hk hend
    have hsame : blocks.nameOf o = blocks.nameOf (i + 1) := by
      rw [A.nameOf_arm ho hi hname, A.nameOf_arm hm' (lt_of_isEnd hend) (by simpa using hother)]
    have hmono : Mirror (b.Emitted kinds (i + 1)) b.varPath blocks.nameOf
        (opened b.role (i + 1)) (g :: gs) (some (blocks.nameOf o)) := by
      refine hm.mono fun x _ hx => ?_
      rcases emitted_succ hx with hx | ⟨-, -, -, hno⟩ | ⟨-, c, t, e, hnode⟩
      · exact hx
      · exact (hno _ _ hname).elim
      · have hopener := hm'.1.1
        simp [role_of_getElem? hnode, Node.role] at hopener
    have hpush := hmono.push (o := i + 1) fun x hx => Emitted.not_inside hx
    rw [← hsame, ← hm.pending] at hpush
    have hk' := toNat_asU32 (lt_of_lt_of_le hother.lt A.small)
    exact ⟨_, .inr ⟨⟨asU32 k, e, hm', hk'.symm ▸ hother⟩, rfl⟩, hpush⟩
  · cases hp

/-- The `CIf` directly after its last arm is bound by it. -/
theorem Accepted.lastArm {w : Arm} (hname : b.NamesArm (i + 1) w (asU32 i)) {c t e : NodeRef}
    (hnode : b.nodes[i + 1]? = some (.cif c t e)) :
    ScopeInv b blocks kinds (i + 1) (⟨blocks.nameOf o :: g.bound, none⟩ :: gs) := by
  have helse : ¬ b.ElseOpener (i + 1) := by
    intro helse
    have hopener := helse.role_eq
    simp [role_of_getElem? hnode, Node.role] at hopener
  refine ScopeInv.of_close hm helse fun y hy => ?_
  rw [A.nameOf_arm ho hi hname]
  exact emitted_lastArm hname hnode hy

/-- A block of its own binds its `CEnd`. -/
theorem Accepted.ownBlock (hno : ∀ k w, ¬ b.NamesArm k w (asU32 i)) :
    ScopeInv b blocks kinds (i + 1) (⟨blocks.nameOf o :: g.bound, none⟩ :: gs) := by
  refine ScopeInv.of_close hm (A.not_elseOpener fun k => hno k _) fun y hy => ?_
  rcases emitted_succ hy with hy | ⟨rfl, -⟩ | ⟨-, c, t, e, hnode⟩
  · exact .inl hy
  · refine .inr ⟨(A.nameOf_plain ho hi hno).symm, ?_⟩
    rw [varPath, enclosing_closer ho.2.1, opened_closer ho.2.1]
  · exact (A.no_cif_after hno c t e hnode).elim

end

/-- What a `CEnd` prints keeps the mirror. -/
theorem ScopeInv.close (h : ScopeInv b blocks kinds i fs) {env : CallEnv}
    (henv : env.poolKinds = kinds) {value : NodeRef} (hnode : b.nodes[i]? = some (.cend value))
    {here : List Piece} (hhere : emitClose b blocks env i value = .ok here) :
    ∃ fs', Scope.scan fs (here.flatMap Piece.toks) = some fs' ∧
      ScopeInv b blocks kinds (i + 1) fs' := by
  have hi : i < b.nodes.length := (List.getElem?_eq_some_iff.mp hnode).1
  have hrole : b.role i = .closer := role_of_getElem? hnode
  obtain ⟨hdata, arm, harm, hcases⟩ := emitClose_ok hhere
  have hvis := h.visible_read A hnode (r := value) (by simp [Node.reads]) (henv ▸ hdata)
  obtain ⟨o, f, g, gs, rfl, ho, hm⟩ := h.closer A hi hrole
  have huse : ∀ (how : Mode) (ts : List Tok), Scope.scan (f :: g :: gs)
      (.use how (refExpr value) :: .closeBrace :: ts) = Scope.scan (g :: gs) ts :=
    fun how ts => scan_closeUse how hvis ts
  have hsemi : Scope.scan (g :: gs) ([.semi] : List Tok) =
      some (⟨blocks.nameOf o :: g.bound, none⟩ :: gs) := by
    rw [Scope.scan, step, Scope.Frame.endLet, hm.pending]
    rfl
  rcases hcases with ⟨k, cond, then_, e, rfl, hk, rfl⟩ | ⟨k, node, rfl, hk, hno, rfl⟩ | ⟨hthen, rfl⟩
  · exact ⟨_, huse _ _, A.elseArm hi ho hm ((A.arm_iff hi).mp harm) hk⟩
  · obtain ⟨hname, c, t, e, hif⟩ :=
      A.last_placed hi ((A.arm_iff hi).mp harm) hk fun _ => hno
    exact ⟨_, (huse _ _).trans hsemi, A.lastArm hi ho hm hname hif⟩
  · rcases arm with _ | ⟨k, w⟩
    · exact ⟨_, (huse _ _).trans hsemi, A.ownBlock hi ho hm (A.not_namesArm hi harm)⟩
    · have hname := (A.arm_iff hi).mp harm
      obtain ⟨node, hk, -⟩ := hname.2
      obtain ⟨hname, c, t, e, hif⟩ :=
        A.last_placed hi hname hk fun hw => (hthen k (hw ▸ rfl)).elim
      exact ⟨_, (huse _ _).trans hsemi, A.lastArm hi ho hm hname hif⟩

end AxisBridge
