import AxisBridge.Emit.CallParts
import AxisBridge.Emit.Names
import AxisBridge.Emit.Unnamed

/-! Two bundles that differ in their display names: when their emissions have the same calls. -/
namespace AxisBridge
open List Option Res CoreBundle

section
variable [Sha256]

/-- The parts of the call that node `i` is, if it is one. -/
def CoreBundle.emittedCall (b : CoreBundle) (t : Tables) (i : ℕ) : Res (Option EmittedCall) := do
  let kinds ← classifyPool t 0 b.constantPool
  let blocks ← verifyBlocks b
  match b.nodes[i]? with
  | some (.ccall targetIdentity args targetName) =>
    return some (← callParts (callEnv t b kinds blocks) (asU32 i) targetIdentity args.toList
      targetName.toString)
  | _ => return none

variable [CharTables]

/-- Both emissions fail, or both succeed with the same call at every node. -/
def SameEmission (t : Tables) (b b' : CoreBundle) (fnName : String) (providerCrates : List String) :
    Prop :=
  match emitModule t b fnName providerCrates, emitModule t b' fnName providerCrates with
  | .ok _, .ok _ => ∀ i, b.emittedCall t i = b'.emittedCall t i
  | .error _, .error _ => True
  | _, _ => False

/-- The checks that read no display name pass, and every node but the calls is emitted. -/
structure OtherwiseOk (t : Tables) (b : CoreBundle) (kinds : List PoolKind)
    (blocks : Blocks) : Prop where
  targets : validateTargets t b = .ok ()
  channels : checkChannels t b b.nodes = .ok ()
  pool : classifyPool t 0 b.constantPool = .ok kinds
  verified : verifyBlocks b = .ok blocks
  nodes : ∀ i node, b.nodes[i]? = some node → (∀ id args name, node ≠ .ccall id args name) →
    ∃ here, emitPiece b blocks (callEnv t b kinds blocks) i node = .ok here
  result : gateResult kinds b.result = .ok ()

/-- Every call's name has declarations that take its arguments. -/
def AllFit (t : Tables) (kinds : List PoolKind) (b : CoreBundle) : Prop :=
  ∀ id args name, .ccall id args name ∈ b.nodes →
    Fits t kinds (calledAs t id name.toString) args.toList

/-- Unless the emission fails without regard to names: either some call of each bundle is refused,
or none is and the two names of each call pass its arguments alike. -/
def NamesAlike (t : Tables) (b b' : CoreBundle) : Prop :=
  ∀ kinds blocks, OtherwiseOk t b kinds blocks → (AllFit t kinds b ↔ AllFit t kinds b') ∧
    (AllFit t kinds b → ∀ (i : ℕ) id args name name', b.nodes[i]? = some (.ccall id args name) →
      b'.nodes[i]? = some (.ccall id args name') →
        Alike t kinds args.toList (calledAs t id name.toString) (calledAs t id name'.toString))

variable {t : Tables} {b b' : CoreBundle} {kinds : List PoolKind} {blocks : Blocks}
  {fnName : String} {providerCrates : List String} {env : CallEnv} {id : Hash256}
  {args : Vec NodeRef} {name : Str} {i : ℕ} {node node' : Node}

omit [CharTables] in
theorem resolveTarget_of_targetError {n : String} (h : targetError t id n = none) :
    ∃ target, resolveTarget t id n = .ok target := by
  cases hb : t.builtin id with
  | some p => exact ⟨⟨n, p, false⟩, by simp only [resolveTarget, hb]⟩
  | none =>
    cases hr : t.registry id with
    | some m =>
      cases hp : t.nameToPath m with
      | some p => exact ⟨⟨m, p, false⟩, by simp only [resolveTarget, hb, hr, hp]⟩
      | none =>
        cases hx : t.xbundle id with
        | some sym => exact ⟨⟨m, sym, true⟩, by simp only [resolveTarget, hb, hr, hp, hx]⟩
        | none => simp [targetError, hb, hr, hp, hx] at h
    | none =>
      cases hx : t.xbundle id with
      | some sym => exact ⟨⟨n, sym, true⟩, by simp only [resolveTarget, hb, hr, hx]⟩
      | none =>
        simp only [targetError, hb, hr, hx, isSome_none, Bool.false_eq_true, if_false] at h
        split at h <;> cases h

omit [CharTables] in
theorem emitBlocks_isOk {nodes : List Node} :
    (∃ pieces, emitBlocks b blocks env i nodes = .ok pieces) ↔
      ∀ p ∈ nodes.zipIdx i, ∃ here, emitPiece b blocks env p.2 p.1 = .ok here := by
  constructor
  · rintro ⟨pieces, h⟩ p hp
    exact emitPiece_of_emitBlocks h hp
  · intro h
    induction nodes generalizing i with
    | nil => exact ⟨[], rfl⟩
    | cons node nodes ih =>
      rw [zipIdx_cons, forall_mem_cons] at h
      obtain ⟨here, hhere⟩ := h.1
      obtain ⟨rest, hrest⟩ := ih h.2
      exact ⟨here ++ rest, bind_eq_ok.mpr ⟨here, hhere, bind_eq_ok.mpr ⟨rest, hrest, rfl⟩⟩⟩

omit [CharTables] in
/-- A call is emitted exactly when its name's declarations take its arguments. -/
theorem emitPiece_ccall_isOk
    (htarget : ∃ target, resolveTarget env.tables id name.toString = .ok target) :
    (∃ here, emitPiece b blocks env i (.ccall id args name) = .ok here) ↔
      Fits env.tables env.poolKinds (calledAs env.tables id name.toString) args.toList := by
  obtain ⟨target, htarget⟩ := htarget
  constructor
  · rintro ⟨here, h⟩
    obtain ⟨toks, htoks, -⟩ := bind_eq_ok.mp h
    obtain ⟨c, -, hc, -⟩ := emitCall_eq_ok.mp (mapErr_eq_ok.mp htoks)
    exact ((callParts_eq_ok htarget).mp hc).1
  · intro hfits
    have hc : callParts env (asU32 i) id args.toList name.toString = .ok _ :=
      (callParts_eq_ok htarget).mpr ⟨hfits, rfl⟩
    have htoks := emitCall_eq_ok.mpr ⟨_, target, hc, htarget, rfl⟩
    exact ⟨_, bind_eq_ok.mpr ⟨_, mapErr_eq_ok.mpr htoks, rfl⟩⟩

/-- An emission succeeds exactly when all but the calls does and every call's name takes its
arguments. -/
theorem emitModule_isOk : (∃ m, emitModule t b fnName providerCrates = .ok m) ↔
    ∃ kinds blocks, OtherwiseOk t b kinds blocks ∧ AllFit t kinds b := by
  have hcall : ∀ {kinds blocks id args name} {i : ℕ}, validateTargets t b = .ok () →
      b.nodes[i]? = some (.ccall id args name) →
      ((∃ here, emitPiece b blocks (callEnv t b kinds blocks) i (.ccall id args name) = .ok here) ↔
        Fits t kinds (calledAs t id name.toString) args.toList) := by
    intro kinds blocks id args name i htargets hnode
    have herror := validateTargets_eq_ok.mp htargets id args name (mem_of_getElem? hnode)
    exact emitPiece_ccall_isOk (resolveTarget_of_targetError herror)
  constructor
  · rintro ⟨m, hm⟩
    obtain ⟨htargets, hchannels, kinds, blocks, pieces, hkinds, hblocks, hpieces, hresult, -⟩ :=
      emitModule_eq_ok.mp hm
    have hpiece := emitBlocks_isOk.mp ⟨pieces, hpieces⟩
    refine ⟨kinds, blocks,
      ⟨htargets, hchannels, hkinds, hblocks, fun i node hnode _ => ?_, hresult⟩, ?_⟩
    · exact hpiece (node, i) (mem_zipIdx_iff_getElem?.mpr hnode)
    · intro id args name hmem
      obtain ⟨i, hnode⟩ := mem_iff_getElem?.mp hmem
      exact (hcall htargets hnode).mp (hpiece (_, i) (mem_zipIdx_iff_getElem?.mpr hnode))
  · rintro ⟨kinds, blocks, hok, hfit⟩
    have hpiece :
        ∃ pieces, emitBlocks b blocks (callEnv t b kinds blocks) 0 b.nodes = .ok pieces := by
      refine emitBlocks_isOk.mpr fun p hp => ?_
      obtain ⟨node, i⟩ := p
      have hnode := mem_zipIdx_iff_getElem?.mp hp
      cases node with
      | ccall id args name =>
        exact (hcall hok.targets hnode).mpr (hfit id args name (mem_of_getElem? hnode))
      | _ => exact hok.nodes i _ hnode nofun
    obtain ⟨pieces, hpieces⟩ := hpiece
    exact ⟨_, emitModule_eq_ok.mpr ⟨hok.targets, hok.channels, kinds, blocks, pieces, hok.pool,
      hok.verified, hpieces, hok.result, rfl⟩⟩

/-- A call is emitted in its module as the parts it has there. -/
theorem emitModule_call {m : RustModule} (hm : emitModule t b fnName providerCrates = .ok m)
    (hnode : b.nodes[i]? = some (.ccall id args name)) :
    ∃ c target effectful, b.emittedCall t i = .ok (some c) ∧
      resolveTarget t id name.toString = .ok target ∧ .bind i (callToks target effectful
      (args.toList.zip (declaredKinds t target.name args.toList.length)) c.body) ∈ m.pieces := by
  obtain ⟨-, -, kinds, blocks, pieces, hkinds, hblocks, hpieces, -, rfl⟩ := emitModule_eq_ok.mp hm
  have hmem : (Node.ccall id args name, i) ∈ b.nodes.zipIdx := mem_zipIdx_iff_getElem?.mpr hnode
  obtain ⟨here, hhere⟩ := emitPiece_of_emitBlocks hpieces hmem
  obtain ⟨toks, htoks, hret⟩ := bind_eq_ok.mp hhere
  cases hret
  obtain ⟨c, target, hc, htarget, rfl⟩ := emitCall_eq_ok.mp (mapErr_eq_ok.mp htoks)
  refine ⟨c, target, _, ?_, htarget,
    (mem_emitBlocks hpieces).mpr ⟨_, i, _, hmem, hhere, mem_singleton_self _⟩⟩
  simp only [emittedCall, hkinds, hblocks, hnode, ok_bind, hc]
  rfl

omit [Sha256] [CharTables] in
theorem eq_ccall_of_unnamed {node' : Node} (h : node'.unnamed = (Node.ccall id args name).unnamed) :
    ∃ name', node' = .ccall id args name' := by
  cases node' with
  | ccall id' args' name' =>
    cases h
    exact ⟨name', rfl⟩
  | _ => cases h

omit [Sha256] [CharTables] in
theorem eq_of_unnamed {node' : Node} (h : node'.unnamed = node.unnamed)
    (hnode : ∀ id args name, node ≠ .ccall id args name) : node' = node := by
  cases node with
  | ccall id args name => exact (hnode id args name rfl).elim
  | _ => cases node' <;> first | exact h | cases h

omit [Sha256] [CharTables] in
theorem getElem?_unnamed (h : b.unnamed = b'.unnamed) (hnode : b.nodes[i]? = some node) :
    ∃ node', b'.nodes[i]? = some node' ∧ node'.unnamed = node.unnamed := by
  have hnodes : b.nodes.map Node.unnamed = b'.nodes.map Node.unnamed := congrArg nodes h
  have heq := congrArg (·[i]?) hnodes
  simp only [getElem?_map, hnode, map_some] at heq
  obtain ⟨node', hnode', hsame⟩ := map_eq_some_iff.mp heq.symm
  exact ⟨node', hnode', hsame⟩

theorem OtherwiseOk.unnamed (h : b.unnamed = b'.unnamed) (hok : OtherwiseOk t b kinds blocks) :
    OtherwiseOk t b' kinds blocks := by
  have hpool : b'.constantPool = b.constantPool := (congrArg CoreBundle.constantPool h).symm
  have hresult : b'.result = b.result := (congrArg CoreBundle.result h).symm
  have hverify : verifyBlocks b' = verifyBlocks b := by
    rw [← verifyBlocks_unnamed, ← h, verifyBlocks_unnamed]
  have henv : callEnv t b' kinds blocks = callEnv t b kinds blocks := by
    rw [← callEnv_unnamed, ← h, callEnv_unnamed]
  have hnodes : b.nodes.map Node.unnamed = b'.nodes.map Node.unnamed := congrArg CoreBundle.nodes h
  have hchannels : checkChannels t b' b'.nodes = checkChannels t b b.nodes := by
    rw [← checkChannels_unnamed, ← h, ← hnodes, checkChannels_unnamed]
  refine ⟨?_, hchannels.trans hok.channels, hpool ▸ hok.pool, hverify.trans hok.verified,
    fun i node hnode hno => ?_, hresult ▸ hok.result⟩
  · refine validateTargets_eq_ok.mpr fun id args name hmem => ?_
    obtain ⟨i, hnode⟩ := mem_iff_getElem?.mp hmem
    obtain ⟨node, hnode', hsame⟩ := getElem?_unnamed h.symm hnode
    obtain ⟨name', rfl⟩ := eq_ccall_of_unnamed hsame
    have herror := validateTargets_eq_ok.mp hok.targets id args name' (mem_of_getElem? hnode')
    exact targetError_eq_none herror
  · obtain ⟨node', hnode', hsame⟩ := getElem?_unnamed h.symm hnode
    obtain rfl := eq_of_unnamed hsame hno
    obtain ⟨here, hhere⟩ := hok.nodes i node' hnode' hno
    refine ⟨here, ?_⟩
    rw [henv, ← hhere]
    cases node' with
    | ccall id args name => exact (hno id args name rfl).elim
    | cblock =>
      show emitOpen b' blocks _ i = emitOpen b blocks _ i
      rw [← emitOpen_unnamed, ← h, emitOpen_unnamed]
    | cend value =>
      show emitClose b' blocks _ i value = emitClose b blocks _ i value
      rw [← emitClose_unnamed, ← h, emitClose_unnamed]
    | _ => rfl

theorem emittedCall_ccall (hok : OtherwiseOk t b kinds blocks)
    (hnode : b.nodes[i]? = some (.ccall id args name)) {c : EmittedCall} :
    b.emittedCall t i = .ok (some c) ↔
      callParts (callEnv t b kinds blocks) (asU32 i) id args.toList name.toString = .ok c := by
  simp only [emittedCall, hok.pool, hok.verified, hnode, ok_bind, bind_eq_ok, pure,
    Except.pure, Except.ok.injEq, some.injEq, exists_eq_right]

theorem emittedCall_other (hok : OtherwiseOk t b kinds blocks)
    (hno : ∀ id args name, b.nodes[i]? ≠ some (.ccall id args name)) :
    b.emittedCall t i = .ok none := by
  simp only [emittedCall, hok.pool, hok.verified, ok_bind]
  rfl

/-- The calls of two emissions are the same exactly when the names of each pass its arguments
alike. -/
theorem emittedCalls_eq_iff (h : b.unnamed = b'.unnamed) (hok : OtherwiseOk t b kinds blocks)
    (hfit : AllFit t kinds b) (hfit' : AllFit t kinds b') :
    (∀ i, b.emittedCall t i = b'.emittedCall t i) ↔ ∀ (i : ℕ) id args name name', b.nodes[i]? =
      some (.ccall id args name) → b'.nodes[i]? = some (.ccall id args name') →
      Alike t kinds args.toList (calledAs t id name.toString) (calledAs t id name'.toString) := by
  have hok' := hok.unnamed h
  have henv : callEnv t b' kinds blocks = callEnv t b kinds blocks := by
    rw [← callEnv_unnamed, ← h, callEnv_unnamed]
  have hcall : ∀ (i : ℕ) id args name name', b.nodes[i]? = some (.ccall id args name) →
      b'.nodes[i]? = some (.ccall id args name') → (b.emittedCall t i = b'.emittedCall t i ↔
      Alike t kinds args.toList (calledAs t id name.toString) (calledAs t id name'.toString)) := by
    intro i id args name name' hnode hnode'
    have herror := validateTargets_eq_ok.mp hok.targets id args name (mem_of_getElem? hnode)
    obtain ⟨target, htarget⟩ := resolveTarget_of_targetError herror
    have htarget' : resolveTarget t id name'.toString = _ := resolveTarget_renamed htarget
    have hparts := (emittedCall_ccall hok hnode).mpr ((callParts_eq_ok htarget).mpr
      ⟨hfit id args name (mem_of_getElem? hnode), rfl⟩)
    have hparts' := (emittedCall_ccall hok' hnode').mpr ((callParts_eq_ok htarget').mpr
      ⟨hfit' id args name' (mem_of_getElem? hnode'), rfl⟩)
    rw [hparts, hparts', henv, Except.ok.injEq, some.injEq]
    exact partsOf_eq_iff
  constructor
  · intro hsame i id args name name' hnode hnode'
    exact (hcall i id args name name' hnode hnode').mp (hsame i)
  · intro halike i
    by_cases hnode : ∃ id args name, b.nodes[i]? = some (.ccall id args name)
    · obtain ⟨id, args, name, hnode⟩ := hnode
      obtain ⟨node', hnode', hsame⟩ := getElem?_unnamed h hnode
      obtain ⟨name', rfl⟩ := eq_ccall_of_unnamed hsame
      exact (hcall i id args name name' hnode hnode').mpr (halike i id args name name' hnode hnode')
    · have hno : ∀ id args name, b.nodes[i]? ≠ some (.ccall id args name) :=
        fun id args name hnode' =>
        hnode ⟨id, args, name, hnode'⟩
      have hno' : ∀ id args name, b'.nodes[i]? ≠ some (.ccall id args name) := by
        intro id args name hnode'
        obtain ⟨node, hthere, hsame⟩ := getElem?_unnamed h.symm hnode'
        obtain ⟨name', rfl⟩ := eq_ccall_of_unnamed hsame
        exact hno id args name' hthere
      rw [emittedCall_other hok hno, emittedCall_other hok' hno']

/-- Of two bundles that differ in their display names only, the emissions both fail or have the same
calls exactly when the declarations under the two names of each call treat its arguments alike. -/
theorem emission_ignores_names_iff (h : b.unnamed = b'.unnamed) :
    SameEmission t b b' fnName providerCrates ↔ NamesAlike t b b' := by
  have hfails : ∀ {b : CoreBundle} {e : Stop}, emitModule t b fnName providerCrates = .error e →
      ∀ {kinds blocks}, OtherwiseOk t b kinds blocks → ¬ AllFit t kinds b := by
    intro b e hm kinds blocks hok hfit
    obtain ⟨m, hm'⟩ := emitModule_isOk.mpr ⟨kinds, blocks, hok, hfit⟩
    cases hm.symm.trans hm'
  unfold SameEmission
  cases hm : emitModule t b fnName providerCrates with
  | error e =>
    cases hm' : emitModule t b' fnName providerCrates with
    | error e' =>
      refine iff_of_true trivial fun kinds blocks hok => ?_
      have hrefused := hfails hm hok
      exact ⟨iff_of_false hrefused (hfails hm' (hok.unnamed h)), fun hfit => (hrefused hfit).elim⟩
    | ok m' =>
      refine iff_of_false id fun halike => ?_
      obtain ⟨kinds, blocks, hok', hfit'⟩ := emitModule_isOk.mp ⟨m', hm'⟩
      have hok := hok'.unnamed h.symm
      exact hfails hm hok ((halike kinds blocks hok).1.mpr hfit')
  | ok m =>
    obtain ⟨kinds, blocks, hok, hfit⟩ := emitModule_isOk.mp ⟨m, hm⟩
    cases hm' : emitModule t b' fnName providerCrates with
    | error e' =>
      refine iff_of_false id fun halike => ?_
      exact hfails hm' (hok.unnamed h) ((halike kinds blocks hok).1.mp hfit)
    | ok m' =>
      obtain ⟨kinds', blocks', hok', hfit'⟩ := emitModule_isOk.mp ⟨m', hm'⟩
      obtain rfl : kinds' = kinds := by
        have hpool := (hok'.unnamed h.symm).pool
        cases hok.pool.symm.trans hpool
        rfl
      refine (emittedCalls_eq_iff h hok hfit hfit').trans ⟨fun hcalls kinds blocks hok₁ => ?_,
        fun halike => ?_⟩
      · cases hok.pool.symm.trans hok₁.pool
        exact ⟨iff_of_true hfit hfit', fun _ => hcalls⟩
      · exact (halike kinds' blocks hok).2 hfit

end

attribute [local instance] knownDigests asciiTables

/-- One call of `id` with two arguments, under a display name. -/
def calling (id : Hash256) (name : Str) : CoreBundle where
  version := "0.6"
  constantPool := [unitEntry]
  nodes := [.ccall id ⟨[.pool 0, .pool 0], by decide⟩ name]
  result := .node 0

def otherName : Str := ⟨"add", by decide⟩

def intAddName : Str := ⟨"int_add", by decide⟩

/-- An identity of the registry: its registry name is read, not the display name. -/
theorem emission_ignores_names_registered :
    SameEmission shadowingTables (calling mintedIdentity otherName)
      (calling mintedIdentity intAddName) "f" [] := by
  have hunnamed : (calling mintedIdentity otherName).unnamed =
      (calling mintedIdentity intAddName).unnamed := rfl
  refine (emission_ignores_names_iff hunnamed).mpr fun kinds blocks hok => ⟨?_, fun _ => ?_⟩
  · constructor
    · rintro hfit id args name (⟨⟩ | ⟨_, ⟨⟩⟩)
      exact hfit _ _ otherName mem_cons_self
    · rintro hfit id args name (⟨⟩ | ⟨_, ⟨⟩⟩)
      exact hfit _ _ intAddName mem_cons_self
  · rintro (_ | i) id args name name' ⟨⟩ ⟨⟩
    exact ⟨fun _ _ _ _ => rfl, fun _ _ => rfl⟩

/-- A builtin's identity under two display names: its arguments are passed apart, as integers, under
the one and packed into a tuple under the other. -/
theorem emission_reads_name :
    (calling (nameIdentity "int_add") intAddName).unnamed =
      (calling (nameIdentity "int_add") otherName).unnamed ∧
    ¬ SameEmission shadowingTables (calling (nameIdentity "int_add") intAddName)
      (calling (nameIdentity "int_add") otherName) "f" [] := by
  refine ⟨rfl, fun h => ?_⟩
  have hm : emitModule shadowingTables (calling (nameIdentity "int_add") intAddName) "f" [] =
    .ok _ := rfl
  have hm' : emitModule shadowingTables (calling (nameIdentity "int_add") otherName) "f" [] =
    .ok _ := rfl
  simp only [SameEmission, hm, hm'] at h
  have hsame := h 0
  revert hsame
  decide

end AxisBridge
