import AxisBridge.Emit.Blocks
import AxisBridge.Emit.Resolve

/-! What a successful emission of a node wrote: the gates passed, and the shape of the text. -/
namespace AxisBridge
open List Res

/-- The reference may stand where a value is read. -/
def DataRef (kinds : List PoolKind) (r : NodeRef) : Prop :=
  ∀ pi target, r = .pool pi → kinds[pi.toNat]? ≠ some (.fnRef target)

/-- The text of one argument: a function's name, or one use, which moves only where the set says. -/
inductive ArgText (env : CallEnv) (index : UInt32) (arg : NodeRef) : ArgKind → Tok → Prop
  | callee (target : FnTarget) : ArgText env index arg .fnRef (.raw target.text)
  | take (h : DataRef env.poolKinds arg) : ArgText env index arg .data (refTake env.moves arg index)
  | access (h : DataRef env.poolKinds arg) (t : NativeArgType) :
      ArgText env index arg .data (.use (.access t) (refExpr arg))
  | intoBytes (h : DataRef env.poolKinds arg) (hmove : env.moves arg index = true) :
      ArgText env index arg .data (.use .intoBytes (refExpr arg))

section
variable {env : CallEnv} {index : UInt32} {name : String} {i : ℕ} {arg : NodeRef}
variable {kinds : List PoolKind} {native : Option NativeArgType} {tok : Tok}
  {args : List (NodeRef × ArgKind)} {exprs : List Tok} {targetName path : String}

theorem gateDataArg_ok (h : gateDataArg kinds name i arg = .ok ()) : DataRef kinds arg := by
  rintro pi target rfl hk
  simp [gateDataArg, hk] at h

theorem gateDataRef_ok {label : String} {r : NodeRef}
    (h : gateDataRef kinds label r = .ok ()) : DataRef kinds r := by
  rintro pi target rfl hk
  simp [gateDataRef, hk] at h

theorem dataExpr_argText (h : DataRef env.poolKinds arg) :
    ArgText env index arg .data (dataExpr env.moves index native arg) := by
  unfold dataExpr
  split
  · exact .take h
  · split
    next hmove => exact .intoBytes h hmove
    next => exact .access h .bytes
  · exact .access h _
  · exact .take h

theorem argExpr_ok {kind : ArgKind}
    (h : argExpr env index name native i kind arg = .ok tok) : ArgText env index arg kind tok := by
  cases kind with
  | fnRef =>
    cases arg with
    | node j => cases h
    | pool pi =>
      simp only [argExpr] at h
      split at h
      · cases h
        exact .callee _
      all_goals cases h
  | data =>
    obtain ⟨⟨⟩, hgate, htok⟩ := bind_eq_ok.mp h
    cases htok
    exact dataExpr_argText (gateDataArg_ok hgate)

/-- The texts of the arguments, one for one. -/
theorem argExprs_ok {native : Option (List NativeArgType)}
    (h : argExprs env index name native i args = .ok exprs) :
    Forall₂ (fun arg tok => ArgText env index arg.1 arg.2 tok) args exprs := by
  induction args generalizing i exprs with
  | nil =>
    cases h
    exact .nil
  | cons arg args ih =>
    obtain ⟨tok, htok, h⟩ := bind_eq_ok.mp h
    obtain ⟨rest, hrest, h⟩ := bind_eq_ok.mp h
    cases h
    exact .cons (argExpr_ok htok) (ih hrest)

theorem mem_commaSep (h : tok ∈ commaSep exprs) : tok = .raw ", " ∨ tok ∈ exprs := by
  induction exprs with
  | nil => exact .inr h
  | cons expr exprs ih =>
    cases exprs with
    | nil => exact .inr h
    | cons expr' exprs =>
      rw [commaSep, intersperse_cons_cons] at h
      rcases mem_cons.mp h with rfl | h
      · exact .inr mem_cons_self
      rcases mem_cons.mp h with rfl | h
      · exact .inl rfl
      · exact (ih h).imp_right (mem_cons_of_mem _)

theorem checkCount_ok {what : String} {n got : ℕ}
    (h : checkCount name what (some n) got = .ok ()) : n = got := by
  by_contra hne
  simp [checkCount, hne] at h

/-- The text of a call: its target, the kinds of its arguments, and their texts. -/
inductive CallText [Sha256] (env : CallEnv) (index : UInt32) (id : Hash256) (args : List NodeRef)
    (targetName : String) : List Tok → Prop
  | mk (target : Target) (kinds : List ArgKind) (native effectful : Bool) (exprs : List Tok)
      (resolved : resolveTarget env.tables id targetName = .ok target)
      (length_eq : kinds.length = args.length)
      (argTexts : Forall₂ (fun arg tok => ArgText env index arg.1 arg.2 tok)
        (args.zip kinds) exprs) :
      CallText env index id args targetName
        (callToks target effectful (args.zip kinds) (callBody target native exprs))

theorem emitCall_ok [Sha256] {id : Hash256} {args : List NodeRef}
    {toks : List Tok} (h : emitCall env index id args targetName = .ok toks) :
    CallText env index id args targetName toks := by
  obtain ⟨target, htarget, h⟩ := bind_eq_ok.mp h
  obtain ⟨⟨⟩, hkinds, h⟩ := bind_eq_ok.mp h
  obtain ⟨⟨⟩, -, h⟩ := bind_eq_ok.mp h
  obtain ⟨exprs, hexprs, h⟩ := bind_eq_ok.mp h
  cases h
  refine .mk target _ _ _ exprs htarget ?_ (argExprs_ok hexprs)
  cases hk : env.tables.argKinds target.name with
  | none => simp
  | some kinds =>
    rw [hk] at hkinds
    exact checkCount_ok hkinds

/-- Arguments are names and uses, never calls. -/
theorem ArgText.ne_callee {kind : ArgKind} (h : ArgText env index arg kind tok)
    (path : String) (isExtern : Bool) : tok ≠ .text (.callee path isExtern) := by
  cases h <;> simp [Tok.raw, refTake]

theorem not_callee_commaSep {isExtern : Bool} (h : .text (.callee path isExtern) ∉ exprs) :
    .text (.callee path isExtern) ∉ commaSep exprs := by
  intro hin
  rcases mem_commaSep hin with heq | hin
  · simp [Tok.raw] at heq
  · exact h hin

/-- A body is its callee, and then parentheses around the arguments. -/
theorem callBody_eq (target : Target) (native : Bool) (exprs : List Tok) :
    ∃ before after, callBody target native exprs = .text (.callee target.path target.isExtern) ::
      .raw before :: commaSep exprs ++ [.raw after] ∨ exprs = [] ∧ callBody target native exprs =
      [.text (.callee target.path target.isExtern), .raw before] := by
  unfold callBody
  split
  · exact ⟨_, _, .inl rfl⟩
  · split
    · exact ⟨"(Value::Unit)", "", .inr ⟨rfl, rfl⟩⟩
    · exact ⟨_, _, .inl rfl⟩
    · exact ⟨_, _, .inl rfl⟩

/-- The one call of a body is of its target. -/
theorem callee_mem_callBody {target : Target} {native : Bool}
    (h : .text (.callee path true) ∉ exprs) :
    .text (.callee path true) ∈ callBody target native exprs ↔
      target.isExtern = true ∧ target.path = path := by
  have hsep := not_callee_commaSep h
  have htarget : (.text (.callee path true) : Tok) = .text (.callee target.path target.isExtern) ↔
      target.isExtern = true ∧ target.path = path := by
    constructor
    · intro heq
      injection heq with heq
      injection heq with hpath hlinked
      exact ⟨hlinked.symm, hpath.symm⟩
    · rintro ⟨hlinked, hpath⟩
      rw [hlinked, hpath]
  obtain ⟨before, after, heq | ⟨-, heq⟩⟩ := callBody_eq target native exprs
  · simp only [heq, mem_append, mem_cons, htarget, hsep, Tok.raw, not_mem_nil]
    simp
  · simp only [heq, mem_cons, htarget, Tok.raw, not_mem_nil]
    simp

theorem callee_mem_callToks {target : Target} {effectful : Bool} {body : List Tok} :
    .text (.callee path true) ∈ callToks target effectful args body ↔
      .text (.callee path true) ∈ body := by
  have hrefs : (.text (.callee path true) : Tok) ∉ commaSep (dataRefs args) := by
    apply not_callee_commaSep
    simp [dataRefs]
  unfold callToks guarded
  split
  · simp [Tok.raw]
  · simp [Tok.raw, hrefs]

/-- An emitted call calls an extern symbol exactly when its target resolves to one. -/
theorem CallText.extern_iff [Sha256] {id : Hash256} {args : List NodeRef}
    {toks : List Tok} (h : CallText env index id args targetName toks) :
    .text (.callee path true) ∈ toks ↔ env.tables.intended id = some (.symbol path) := by
  cases h with
  | mk target kinds native effectful exprs resolved length_eq argTexts =>
    have hexprs : (.text (.callee path true) : Tok) ∉ exprs := by
      intro hin
      obtain ⟨n, hn, heq⟩ := getElem_of_mem hin
      exact (argTexts.get (argTexts.length_eq ▸ hn) hn).ne_callee path true heq
    rw [callee_mem_callToks, callee_mem_callBody hexprs, resolveTarget_impl resolved, Target.impl]
    cases target.isExtern <;> simp

end

section
variable {b : CoreBundle} {blocks : Blocks} {i : ℕ} {here : List Piece}

/-- What a `CBlock` prints, by the arm its `CEnd` ends. -/
theorem emitOpen_ok {kinds : List PoolKind} (h : emitOpen b blocks kinds i = .ok here) :
    ∃ end_ : UInt32, blocks.partner[i]? = some (some end_) ∧ ((∃ k cond then_ else_,
      blocks.arm[end_.toNat]? = some (some (k, .then_)) ∧ b.nodes[k.toNat]? =
      some (.cif cond then_ else_) ∧ DataRef kinds cond ∧ here = [.openIf k.toNat (refExpr cond)]) ∨
      (∃ k, blocks.arm[end_.toNat]? = some (some (k, .else_)) ∧ here = []) ∨
      (blocks.arm[end_.toNat]? = some none ∧ here = [.openBlock end_.toNat])) := by
  obtain ⟨partner, hpartner, h⟩ := bind_eq_ok.mp h
  rw [readAt_eq_ok] at hpartner
  cases partner with
  | none => cases h
  | some end_ =>
    obtain ⟨found, hfound, h⟩ := bind_eq_ok.mp h
    cases hfound
    obtain ⟨arm, harm, h⟩ := bind_eq_ok.mp h
    rw [readAt_eq_ok] at harm
    refine ⟨end_, hpartner, ?_⟩
    match arm with
    | none =>
      cases h
      exact .inr (.inr ⟨harm, rfl⟩)
    | some (k, .else_) =>
      cases h
      exact .inr (.inl ⟨k, harm, rfl⟩)
    | some (k, .then_) =>
      obtain ⟨node, hnode, h⟩ := bind_eq_ok.mp h
      rw [readAt_eq_ok] at hnode
      cases node with
      | cif cond then_ else_ =>
        obtain ⟨⟨⟩, hgate, h⟩ := bind_eq_ok.mp h
        cases h
        exact .inl ⟨k, cond, then_, else_, harm, hnode, gateDataRef_ok hgate, rfl⟩
      | _ => cases h

/-- What a `CEnd` prints: its value, and the delimiter of the arm or block it ends. -/
theorem emitClose_ok {env : CallEnv} {value : NodeRef}
    (h : emitClose b blocks env i value = .ok here) : DataRef env.poolKinds value ∧
    ∃ arm, blocks.arm[i]? = some arm ∧
      ((∃ k cond then_ e, arm = some (k, .then_) ∧
          b.nodes[k.toNat]? = some (.cif cond then_ (.node e)) ∧
          here = [.elseArm (takeMode env.moves value (asU32 i)) (refExpr value)]) ∨
        (∃ k node, arm = some (k, .then_) ∧ b.nodes[k.toNat]? = some node ∧
          (∀ cond then_ e, node ≠ .cif cond then_ (.node e)) ∧
          here = [.closeUnit (takeMode env.moves value (asU32 i)) (refExpr value)]) ∨
        ((∀ k, arm ≠ some (k, .then_)) ∧
          here = [.close (takeMode env.moves value (asU32 i)) (refExpr value)])) := by
  obtain ⟨⟨⟩, hgate, h⟩ := bind_eq_ok.mp h
  obtain ⟨arm, harm, h⟩ := bind_eq_ok.mp h
  rw [readAt_eq_ok] at harm
  refine ⟨gateDataRef_ok hgate, arm, harm, ?_⟩
  match arm with
  | none | some (k, .else_) =>
    cases h
    exact .inr (.inr ⟨by simp, rfl⟩)
  | some (k, .then_) =>
    obtain ⟨node, hnode, h⟩ := bind_eq_ok.mp h
    rw [readAt_eq_ok] at hnode
    split at h
    next cond then_ e =>
      cases h
      exact .inl ⟨k, cond, then_, e, rfl, hnode, rfl⟩
    next hno =>
      cases h
      exact .inr (.inl ⟨k, node, rfl, hnode, fun c t e heq => hno c t e heq, rfl⟩)

end

variable [Sha256] {b : CoreBundle} {blocks : Blocks} {env : CallEnv} {pieces : List Piece}

/-- The pieces are those of the nodes, each emitted at its index. -/
theorem mem_emitBlocks {i : ℕ} {nodes : List Node}
    (h : emitBlocks b blocks env i nodes = .ok pieces) {p : Piece} :
    p ∈ pieces ↔ ∃ node k here, (node, k) ∈ nodes.zipIdx i ∧
      emitPiece b blocks env k node = .ok here ∧ p ∈ here := by
  induction nodes generalizing i pieces with
  | nil =>
    cases h
    simp
  | cons node nodes ih =>
    obtain ⟨here, hhere, h⟩ := bind_eq_ok.mp h
    obtain ⟨rest, hrest, h⟩ := bind_eq_ok.mp h
    cases h
    rw [mem_append, ih hrest, zipIdx_cons]
    constructor
    · rintro (hp | ⟨node', k, here', hk, hok, hp⟩)
      · exact ⟨node, i, here, mem_cons_self, hhere, hp⟩
      · exact ⟨node', k, here', mem_cons_of_mem _ hk, hok, hp⟩
    · rintro ⟨node', k, here', hk, hok, hp⟩
      rcases mem_cons.mp hk with heq | hk
      · cases heq
        rw [hhere, Except.ok.injEq] at hok
        exact .inl (hok ▸ hp)
      · exact .inr ⟨node', k, here', hk, hok, hp⟩

theorem emitPiece_of_emitBlocks {i : ℕ} {nodes : List Node}
    (h : emitBlocks b blocks env i nodes = .ok pieces) {node : Node} {k : ℕ}
    (hk : (node, k) ∈ nodes.zipIdx i) : ∃ here, emitPiece b blocks env k node = .ok here := by
  induction nodes generalizing i pieces with
  | nil => simp at hk
  | cons node' nodes ih =>
    obtain ⟨here, hhere, h⟩ := bind_eq_ok.mp h
    obtain ⟨rest, hrest, -⟩ := bind_eq_ok.mp h
    rw [zipIdx_cons] at hk
    rcases mem_cons.mp hk with heq | hk
    · cases heq
      exact ⟨here, hhere⟩
    · exact ih hrest hk

/-- What a call prints. -/
theorem emitPiece_ccall {i : ℕ} {id : Hash256} {args : Vec NodeRef} {targetName : Str}
    {here : List Piece} (h : emitPiece b blocks env i (.ccall id args targetName) = .ok here) :
    ∃ expr, CallText env (asU32 i) id args.toList targetName.toString expr ∧
      here = [.bind i expr] := by
  obtain ⟨expr, hexpr, h⟩ := bind_eq_ok.mp h
  cases h
  exact ⟨expr, emitCall_ok (mapErr_eq_ok.mp hexpr), rfl⟩

end AxisBridge
