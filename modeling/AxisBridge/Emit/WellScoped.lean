import AxisBridge.Emit.IndexCast
import AxisBridge.Emit.ScopeStep

/-! The body of an emitted function is well scoped. -/
namespace AxisBridge
open List Nesting Piece Scope Tok

section
variable [Sha256] {b : CoreBundle} {blocks : Blocks} {kinds : List PoolKind} {env : CallEnv}
variable {fs : List (Scope.Frame Var)}

/-- Every node's piece keeps the mirror. -/
theorem ScopeInv.piece (A : Accepted b blocks kinds) (henv : env.poolKinds = kinds) {i : ℕ}
    (h : ScopeInv b blocks kinds i fs) {node : Node} (hnode : b.nodes[i]? = some node)
    {here : List Piece} (hhere : emitPiece b blocks env i node = .ok here) :
    ∃ fs', Scope.scan fs (here.flatMap toks) = some fs' ∧ ScopeInv b blocks kinds (i + 1) fs' := by
  have hi : i < b.nodes.length := (List.getElem?_eq_some_iff.mp hnode).1
  cases node with
  | cblock => exact h.open A hnode (henv ▸ hhere)
  | cend value => exact h.close A henv hnode hhere
  | cif c t e =>
    cases hhere
    exact ⟨fs, rfl, h.cif A hnode⟩
  | cdeterminate =>
    cases hhere
    have hrole : b.role i = .plain := CoreBundle.role_of_getElem? hnode
    simpa using h.bind A hi hrole (inert_raw _) (by simp)
  | ccall id args targetName =>
    obtain ⟨expr, htext, rfl⟩ := emitPiece_ccall hhere
    have hrole : b.role i = .plain := CoreBundle.role_of_getElem? hnode
    obtain ⟨xs, hin, hxs⟩ := htext.inert
    have hvis : ∀ x ∈ xs, Visible fs x := by
      intro x hx
      obtain ⟨r, hr, hdata, rfl⟩ := hxs x hx
      exact h.visible_read A hnode hr (henv ▸ hdata)
    simpa using h.bind A hi hrole hin hvis

/-- And so do all of them, one after the other. -/
theorem ScopeInv.run (A : Accepted b blocks kinds) (henv : env.poolKinds = kinds) {i : ℕ}
    (h : ScopeInv b blocks kinds i fs) {nodes : List Node} (hdrop : b.nodes.drop i = nodes)
    (hi : i ≤ b.nodes.length) {pieces : List Piece}
    (hp : emitBlocks b blocks env i nodes = .ok pieces) :
    ∃ fs', Scope.scan fs (pieces.flatMap toks) = some fs' ∧
      ScopeInv b blocks kinds b.nodes.length fs' := by
  induction nodes generalizing i fs pieces with
  | nil =>
    cases hp
    have hn : i = b.nodes.length := by
      have hle := drop_eq_nil_iff.mp hdrop
      omega
    exact ⟨fs, rfl, hn ▸ h⟩
  | cons node nodes ih =>
    obtain ⟨here, hhere, hp⟩ := Res.bind_eq_ok.mp hp
    obtain ⟨rest, hrest, hp⟩ := Res.bind_eq_ok.mp hp
    cases hp
    have hnode : b.nodes[i]? = some node := by
      rw [← head?_drop, hdrop, head?_cons]
    have hdrop' : b.nodes.drop (i + 1) = nodes := by
      rw [← tail_drop, hdrop, tail_cons]
    obtain ⟨fs1, hscan1, h1⟩ := h.piece A henv hnode hhere
    obtain ⟨fs2, hscan2, h2⟩ := ih h1 hdrop' (List.getElem?_eq_some_iff.mp hnode).1 hrest
    refine ⟨fs2, ?_, h2⟩
    rw [flatMap_append, scan_append_of_some hscan1, hscan2]

/-- After the last node only the function's own scope is open. -/
theorem ScopeInv.end (A : Accepted b blocks kinds)
    (h : ScopeInv b blocks kinds b.nodes.length fs) : ∃ f, fs = [f] := by
  obtain ⟨os, hos, hm⟩ := h
  have hplain : b.role b.nodes.length = .plain := by
    by_contra hne
    exact lt_irrefl _ (lt_of_role_ne_plain hne)
  have hos := openPath_of_ne (fun helse => by simp [helse.role_eq] at hplain) hos
  have hlen := length_opened (A.noUnderflow le_rfl)
  rw [A.tables.balanced.2] at hlen
  have hnil : opened b.role b.nodes.length = [] := length_eq_zero_iff.mp (by omega)
  rw [hos, hnil] at hm
  obtain ⟨f, gs, rfl⟩ := hm.ne_nil
  cases gs with
  | nil => exact ⟨f, rfl⟩
  | cons g gs => exact hm.elim

/-- Before the first node nothing but constants is bound. -/
theorem ScopeInv.start (A : Accepted b blocks kinds) {f : Scope.Frame Var} (hf : f.pending = none)
    (hpool : ∀ p kind, kinds[p]? = some kind → (∀ target, kind ≠ .fnRef target) →
      .pool p ∈ f.bound) : ScopeInv b blocks kinds 0 [f] := by
  have helse : ¬ b.ElseOpener 0 := by
    intro helse
    obtain ⟨k, t, e, cond, -, ht, -⟩ := A.before_else helse
    omega
  refine ⟨[], Or.inl ⟨helse, rfl⟩, hf, ?_⟩
  intro x hx hpath
  cases x with
  | pool p =>
    obtain ⟨kind, hkind, hne⟩ := hx
    exact hpool p kind hkind hne
  | node j =>
    obtain ⟨⟨node, hnode, -, hj⟩, -⟩ := hx
    rcases hj with hj | ⟨rfl, c, t, e, rfl⟩
    · omega
    · obtain ⟨j, w, hj, -⟩ := A.before_cif hnode
      omega

end

section

theorem idle_raw (s : String) : Idle ([.raw s, .semi] : List Tok) :=
  (inert_raw s).idle

theorem idle_paramBindings (safeName : String) (count : UInt32) :
    Idle (paramBindings safeName count) := by
  unfold paramBindings
  split
  · exact idle_nil
  · exact idle_raw _
  · refine Scope.Idle.append ?_ (Scope.Idle.flatMap fun i _ => idle_raw _)
    exact ((inert_raw _).append (inert_raw _).block).idle

/-- The constants are bound one by one, function references apart. -/
theorem scan_poolBindings (all kinds : List PoolKind) (i : ℕ) (bound : List Var) : ∃ bound',
    Scope.scan [⟨bound, none⟩] ((kinds.zipIdx i).flatMap fun p => poolBinding all p.2 p.1) =
    some [⟨bound', none⟩] ∧ bound ⊆ bound' ∧ ∀ p kind, kinds[p]? = some kind →
    (∀ target, kind ≠ .fnRef target) → .pool (i + p) ∈ bound' := by
  induction kinds generalizing i bound with
  | nil => exact ⟨bound, rfl, Subset.refl _, by simp⟩
  | cons kind kinds ih =>
    have hhead : ∃ bound1, Scope.scan [⟨bound, none⟩] (poolBinding all i kind) =
        some [⟨bound1, none⟩] ∧ bound ⊆ bound1 ∧
        ((∀ target, kind ≠ .fnRef target) → .pool i ∈ bound1) := by
      cases kind with
      | data expr =>
        have hin : Inert ([] : List Var) (expr.map Scope.Tok.text : List Tok) :=
          inert_of_forall (by simp)
        exact ⟨_, scan_let hin rfl (by simp), subset_cons_self _ _, fun _ => mem_cons_self⟩
      | param slot =>
        exact ⟨_, scan_let (inert_raw _) rfl (by simp), subset_cons_self _ _,
          fun _ => mem_cons_self⟩
      | fnRef target => exact ⟨bound, rfl, Subset.refl _, fun h => (h target rfl).elim⟩
    obtain ⟨bound1, hscan1, hsub1, hmem1⟩ := hhead
    obtain ⟨bound2, hscan2, hsub2, hmem2⟩ := ih (i + 1) bound1
    refine ⟨bound2, ?_, Subset.trans hsub1 hsub2, ?_⟩
    · rw [zipIdx_cons, flatMap_cons, scan_append_of_some hscan1, hscan2]
    · intro p kind' hkind hne
      cases p with
      | zero =>
        cases hkind
        exact hsub2 (hmem1 hne)
      | succ p =>
        have hmem := hmem2 p kind' hkind hne
        rwa [show i + 1 + p = i + (p + 1) by omega] at hmem

/-- The prologue binds every constant that is no function reference. -/
theorem scan_emitPrologue (b : CoreBundle) (safeName : String) (kinds : List PoolKind) :
    ∃ bound, Scope.scan [.empty] (emitPrologue b safeName kinds) = some [⟨bound, none⟩] ∧
      ∀ p kind, kinds[p]? = some kind → (∀ target, kind ≠ .fnRef target) → .pool p ∈ bound := by
  obtain ⟨bound, hscan, -, hmem⟩ := scan_poolBindings kinds kinds 0 []
  refine ⟨bound, ?_, by simpa using hmem⟩
  rw [emitPrologue, scan_append_of_some (idle_raw _ .empty [] rfl),
    scan_append_of_some (idle_paramBindings _ _ .empty [] rfl)]
  show Scope.scan [⟨[], none⟩] _ = _
  rw [poolBindings, scan_append_of_some hscan]
  split
  · exact idle_raw _ _ [] rfl
  · rfl

end

section
variable {env : CallEnv} {index : UInt32} {x : Var}

theorem letVar_not_mem_callToks {target : Target} {effectful : Bool}
    {args : List (NodeRef × ArgKind)} {body : List Tok} (hbody : .letVar x ∉ body) :
    .letVar x ∉ callToks target effectful args body := by
  have hrefs : (.letVar x : Tok) ∉ commaSep (dataRefs args) := by
    intro hin
    rcases mem_commaSep hin with heq | hin
    · cases heq
    · simp [dataRefs] at hin
  unfold callToks guarded
  split
  · simp [raw, hbody]
  · simp [raw, hbody, hrefs]

/-- An expression binds no variable of the module. -/
theorem CallText.letVar_not_mem [Sha256] {id : Hash256} {args : List NodeRef} {targetName : String}
    {toks : List Tok} (h : CallText env index id args targetName toks) : .letVar x ∉ toks := by
  cases h with
  | mk target kinds native effectful exprs resolved length_eq argTexts =>
    apply letVar_not_mem_callToks
    intro hin
    rcases mem_callBody hin with ⟨a, heq⟩ | hin
    · cases heq
    · obtain ⟨n, hn, heq⟩ := getElem_of_mem hin
      have harg := (argTexts.get (argTexts.length_eq ▸ hn) hn).text_or_use
      rw [get_eq_getElem, get_eq_getElem, heq] at harg
      rcases harg with ⟨a, htext⟩ | ⟨-, how, huse⟩
      · cases htext
      · cases huse

/-- The pieces bind nodes only. -/
theorem node_of_letVar_mem [Sha256] {b : CoreBundle} {blocks : Blocks} {i : ℕ} {nodes : List Node}
    {pieces : List Piece} (h : emitBlocks b blocks env i nodes = .ok pieces)
    (hx : .letVar x ∈ pieces.flatMap toks) : ∃ j, x = .node j := by
  obtain ⟨p, hp, hx⟩ := mem_flatMap.mp hx
  obtain ⟨node, k, here, -, hhere, hmem⟩ := (mem_emitBlocks h).mp hp
  cases p with
  | openIf k cond =>
    simp only [toks, raw, mem_cons, Scope.Tok.letVar.injEq, reduceCtorEq,
      not_mem_nil, or_false] at hx
    exact ⟨k, hx⟩
  | openBlock e =>
    simp only [toks, mem_cons, Scope.Tok.letVar.injEq, reduceCtorEq, not_mem_nil, or_false] at hx
    exact ⟨e, hx⟩
  | elseArm how value | closeUnit how value => simp [toks, raw] at hx
  | close how value => simp [toks] at hx
  | bind j expr =>
    rcases mem_append.mp hx with hx | hx
    · rcases mem_cons.mp hx with heq | hexpr
      · cases heq
        exact ⟨j, rfl⟩
      · cases node with
        | ccall id args targetName =>
          obtain ⟨expr', htext, rfl⟩ := emitPiece_ccall hhere
          cases mem_singleton.mp hmem
          exact (htext.letVar_not_mem hexpr).elim
        | cdeterminate =>
          cases hhere
          cases mem_singleton.mp hmem
          simp [raw] at hexpr
        | cif c t e =>
          cases hhere
          cases hmem
        | cblock =>
          obtain ⟨e, -, hcases⟩ := emitOpen_ok hhere
          rcases hcases with ⟨_, _, _, _, _, _, _, rfl⟩ | ⟨_, _, rfl⟩ | ⟨_, rfl⟩ <;> simp at hmem
        | cend value =>
          obtain ⟨-, arm, -, hcases⟩ := emitClose_ok hhere
          rcases hcases with ⟨_, _, _, _, _, _, rfl⟩ | ⟨_, _, _, _, _, rfl⟩ | ⟨_, rfl⟩ <;>
            simp at hmem
    · cases mem_singleton.mp hx

/-- The prologue binds constants that are no function references. -/
theorem pool_of_letVar_mem {b : CoreBundle} {safeName : String} {kinds : List PoolKind}
    (hx : .letVar x ∈ emitPrologue b safeName kinds) :
    ∃ p kind, x = .pool p ∧ kinds[p]? = some kind ∧ ∀ target, kind ≠ .fnRef target := by
  have hparam : ∀ count, (.letVar x : Tok) ∉ paramBindings safeName count := by
    intro count hin
    unfold paramBindings at hin
    split at hin <;> simp [raw] at hin
  have hpool : (.letVar x : Tok) ∈ poolBindings kinds := by
    unfold emitPrologue at hx
    split at hx
    · simpa [raw, hparam] using hx
    · simpa [raw, hparam] using hx
  obtain ⟨⟨kind, p⟩, hkind, hmem⟩ := mem_flatMap.mp hpool
  have hget := mem_zipIdx_iff_getElem?.mp hkind
  cases kind with
  | data expr =>
    have hxp : x = .pool p := by simpa [poolBinding] using hmem
    exact ⟨p, _, hxp, hget, by simp⟩
  | param slot =>
    have hxp : x = .pool p := by simpa [poolBinding, raw] using hmem
    exact ⟨p, _, hxp, hget, by simp⟩
  | fnRef target => simp [poolBinding] at hmem

end

theorem classifyPool_ok [Sha256] {t : Tables} {i : ℕ} {entries : List ConstantPoolEntry}
    {kinds : List PoolKind} (h : classifyPool t i entries = .ok kinds) :
    Forall₂ (fun entry kind => classifyPoolEntry entry t = .ok kind) entries kinds := by
  induction entries generalizing i kinds with
  | nil =>
    cases h
    exact .nil
  | cons entry entries ih =>
    obtain ⟨kind, hkind, h⟩ := Res.bind_eq_ok.mp h
    obtain ⟨rest, hrest, h⟩ := Res.bind_eq_ok.mp h
    cases h
    exact .cons (Res.mapErr_eq_ok.mp hkind) (ih hrest)

theorem gateResult_ok {kinds : List PoolKind} {r : NodeRef} (h : gateResult kinds r = .ok ()) :
    DataRef kinds r := by
  rintro pi target rfl hk
  simp [gateResult, hk] at h

theorem accepted_of_emitModule [Sha256] {t : Tables} {b : CoreBundle}
    (hn : b.nodes.length ≤ 2 ^ 32) (hr : b.InRange) {kinds : List PoolKind} {blocks : Blocks}
    (hk : classifyPool t 0 b.constantPool = .ok kinds)
    (hb : verifyBlocks b = .ok blocks) : Accepted b blocks kinds where
  small := hn
  range := hr
  rules := blockRules_of_verifyBlocks hn hr hb
  tables := exact_of_verifyBlocks hn hr hb
  poolLength := (classifyPool_ok hk).length_eq.symm

section
variable [Sha256] [CharTables] {t : Tables} {b : CoreBundle} {fnName : String}
  {providerCrates : List String} {m : RustModule}

/-- In the body of an emitted function the braces balance and every name in use is bound by an
earlier `let` of its own or an enclosing scope; a function reference is never named. -/
theorem emitModule_wellScoped (hn : b.nodes.length ≤ 2 ^ 32) (hr : b.InRange)
    (hm : emitModule t b fnName providerCrates = .ok m) : WellScoped m.body ∧
    ∀ (p : ℕ) (entry : ConstantPoolEntry) (f : FnTarget), b.constantPool[p]? = some entry →
      classifyPoolEntry entry t = .ok (.fnRef f) → ∀ how, .use how (.pool p) ∉ m.body := by
  obtain ⟨-, -, kinds, blocks, pieces, hk, hb, hp, hg, rfl⟩ := emitModule_eq_ok.mp hm
  have A : Accepted b blocks kinds := accepted_of_emitModule hn hr hk hb
  have hscoped : WellScoped (moduleOf t b fnName providerCrates kinds pieces).body := by
    obtain ⟨bound, hprologue, hpool⟩ := scan_emitPrologue b (sanitise fnName) kinds
    obtain ⟨fs, hpieces, hend⟩ :=
      (ScopeInv.start A (f := ⟨bound, none⟩) rfl hpool).run A rfl rfl (Nat.zero_le _) hp
    have hvis := hend.visible_result A (gateResult_ok hg)
    obtain ⟨f, rfl⟩ := hend.end A
    refine ⟨f, ?_⟩
    rw [RustModule.body, moduleOf, scan_append_of_some hprologue,
      scan_append_of_some hpieces, Scope.scan, step, if_pos hvis]
    rfl
  refine ⟨hscoped, ?_⟩
  intro p entry f hentry hclass how huse
  have hlet := hscoped.letVar_mem huse
  have hkind : kinds[p]? = some (.fnRef f) := by
    obtain ⟨hlt, hget⟩ := List.getElem?_eq_some_iff.mp hentry
    have hlt' := (classifyPool_ok hk).length_eq ▸ hlt
    have hsame := (classifyPool_ok hk).get hlt hlt'
    rw [get_eq_getElem, get_eq_getElem, hget, hclass, Except.ok.injEq] at hsame
    exact hsame ▸ getElem?_eq_getElem hlt'
  rcases mem_append.mp hlet with hlet | hlet
  · obtain ⟨q, kind, hq, hget, hne⟩ := pool_of_letVar_mem hlet
    cases hq
    rw [hkind, Option.some.injEq] at hget
    exact hne f hget.symm
  · rcases mem_append.mp hlet with hlet | hlet
    · obtain ⟨j, hj⟩ := node_of_letVar_mem hp hlet
      cases hj
    · cases mem_singleton.mp hlet

end

attribute [local instance] knownDigests asciiTables

/-- A one-armed `CIf` is emitted well scoped. -/
theorem emitModule_wellScoped_oneArmed : ∃ m, emitModule noTables oneArmed "f" [] = .ok m ∧
    WellScoped m.body := by
  have hm : emitModule noTables oneArmed "f" [] = .ok _ := rfl
  exact ⟨_, hm, (emitModule_wellScoped (by decide) (by decide) hm).1⟩

/-- Past `2 ^ 32` nodes a `CIf` opens where an outer block does, before its condition is bound. -/
theorem emitModule_wellScoped_lateClose : ∃ b : CoreBundle, b.InRange ∧
    ∃ m, emitModule noTables b "f" [] = .ok m ∧ ¬ WellScoped m.body := by
  obtain ⟨out, rest, hok, hprologue, hpieces⟩ :=
    emitModule_lateClose (m := 2 ^ 32 - 2) (by norm_num)
  refine ⟨_, inRange_lateClose, out, hok, fun h => ?_⟩
  have hbody : out.body = (out.prologue ++ [.letVar (.node 5),
      .raw "if axis_codegen_bridge::runtime::fault::is_unknown("]) ++
      .use .borrow (.node 1) :: ((Piece.openIf 5 (.node 1)).toks.drop 3 ++
        (rest.flatMap toks ++ [.use .take out.result])) := by
    simp [RustModule.body, hpieces, toks]
  rw [hbody] at h
  rcases mem_append.mp h.letVar_before with hlet | hlet
  · rw [hprologue] at hlet
    obtain ⟨p, kind, heq, -⟩ := pool_of_letVar_mem hlet
    cases heq
  · simp [raw] at hlet

end AxisBridge
