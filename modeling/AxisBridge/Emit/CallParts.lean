import AxisBridge.Emit.NodeSpec

/-! The parts of one call: when the declarations under its name take its arguments, and when those
under two names pass them alike. -/
namespace AxisBridge
open List Option Res

/-- What a call is emitted as, but for the name in its guard: the callee, whether the arguments are
passed apart or packed into one value, and their expressions. -/
structure EmittedCall where
  path : String
  isExtern : Bool
  apart : Bool
  exprs : List Tok
  deriving DecidableEq

/-- The calls of the body. -/
def EmittedCall.body (c : EmittedCall) : List Tok :=
  callBody ⟨"", c.path, c.isExtern⟩ c.apart c.exprs

/-- The name under which the tables of a call are read. -/
def calledAs (t : Tables) (id : Hash256) (targetName : String) : String :=
  match t.builtin id with
  | some _ => targetName
  | none => (t.registry id).getD targetName

/-- The kinds of `n` arguments. -/
def declaredKinds (t : Tables) (name : String) (n : ℕ) : List ArgKind :=
  (t.argKinds name).getD (replicate n .data)

/-- The parts of a call, as `emit_node` computes them. -/
def callParts (env : CallEnv) (index : UInt32) (targetIdentity : Hash256) (args : List NodeRef)
    (targetName : String) : Res EmittedCall := do
  let target ← resolveTarget env.tables targetIdentity targetName
  let declared := env.tables.argKinds target.name
  checkCount target.name "arg-kinds" (declared.map List.length) args.length
  let kinds := declaredKinds env.tables target.name args.length
  let native := env.tables.nativeCalls target.name
  checkCount target.name "native arg-types" (native.map List.length) args.length
  let exprs ← argExprs env index target.name native 0 (args.zip kinds)
  return ⟨target.path, target.isExtern, kinds.any (· = .fnRef) || native.isSome || exprs.length = 1,
    exprs⟩

/-- The function a constant names, if the reference is to a Fn-typed one. -/
def fnTarget (kinds : List PoolKind) : NodeRef → Option FnTarget
  | .pool pi =>
    match kinds[pi.toNat]? with
    | some (.fnRef target) => some target
    | _ => none
  | .node _ => none

/-- The expression of an argument. -/
def argTok (env : CallEnv) (index : UInt32) (native : Option NativeArgType) (arg : NodeRef) : Tok :=
  match fnTarget env.poolKinds arg with
  | some target => .raw target.text
  | none => dataExpr env.moves index native arg

/-- The declarations of `name` take the arguments: as many, and a function exactly where one is
given. -/
structure Fits (t : Tables) (kinds : List PoolKind) (name : String)
    (args : List NodeRef) : Prop where
  count : ∀ ks, t.argKinds name = some ks → ks.length = args.length
  nativeCount : ∀ ts, t.nativeCalls name = some ts → ts.length = args.length
  gates : ∀ arg ∈ args.zip (declaredKinds t name args.length),
    arg.2 = .fnRef ↔ (fnTarget kinds arg.1).isSome = true

/-- What a data argument is turned into for a native parameter, if not passed as it is. -/
def accessOf : Option NativeArgType → Option NativeArgType
  | some .value => none
  | native => native

def nativeAt (t : Tables) (name : String) (i : ℕ) : Option NativeArgType :=
  (t.nativeCalls name).bind fun types => types[i]?

/-- Two names under which the tables pass the arguments alike. -/
structure Alike (t : Tables) (kinds : List PoolKind) (args : List NodeRef) (name name' : String) :
    Prop where
  access : ∀ i arg, args[i]? = some arg → fnTarget kinds arg = none →
    accessOf (nativeAt t name i) = accessOf (nativeAt t name' i)
  apart : args.length ≠ 1 → (∀ arg ∈ args, fnTarget kinds arg = none) →
    ((t.nativeCalls name).isSome = (t.nativeCalls name').isSome)

variable {env : CallEnv} {index : UInt32} {id : Hash256} {args : List NodeRef}
  {n n' name name' : String} {t : Tables} {i : ℕ}
variable {target : Target} {native native' : Option NativeArgType} {arg : NodeRef}
  {kinds : List PoolKind}

/-- One argument is passed the same way apart and packed. -/
theorem callBody_single {native : Bool} {exprs : List Tok} :
    callBody ⟨"", target.path, target.isExtern⟩ (native || exprs.length = 1) exprs =
      callBody target native exprs := by
  match native, exprs with
  | true, _ => rfl
  | false, [] => rfl
  | false, [_] => rfl
  | false, _ :: _ :: _ => rfl

/-- The text of a call is made of its parts, its name and what is borrowed of its arguments. -/
theorem emitCall_eq_ok [Sha256] {toks : List Tok} : emitCall env index id args n = .ok toks ↔
    ∃ c target, callParts env index id args n = .ok c ∧ resolveTarget env.tables id n = .ok target ∧
    toks = callToks target (! callIsPureDet env id args)
    (args.zip (declaredKinds env.tables target.name args.length)) c.body := by
  constructor
  · intro h
    obtain ⟨target, htarget, h⟩ := bind_eq_ok.mp h
    obtain ⟨⟨⟩, hcount, h⟩ := bind_eq_ok.mp h
    obtain ⟨⟨⟩, hnative, h⟩ := bind_eq_ok.mp h
    obtain ⟨exprs, hexprs, h⟩ := bind_eq_ok.mp h
    cases h
    refine ⟨_, target, bind_eq_ok.mpr ⟨target, htarget, bind_eq_ok.mpr ⟨(), hcount,
      bind_eq_ok.mpr ⟨(), hnative, bind_eq_ok.mpr ⟨exprs, hexprs, rfl⟩⟩⟩⟩, htarget, ?_⟩
    rw [EmittedCall.body, callBody_single]
    rfl
  · rintro ⟨c, target, hparts, htarget, rfl⟩
    obtain ⟨target', htarget', h⟩ := bind_eq_ok.mp hparts
    cases htarget.symm.trans htarget'
    obtain ⟨⟨⟩, hcount, h⟩ := bind_eq_ok.mp h
    obtain ⟨⟨⟩, hnative, h⟩ := bind_eq_ok.mp h
    obtain ⟨exprs, hexprs, h⟩ := bind_eq_ok.mp h
    cases h
    refine bind_eq_ok.mpr ⟨target, htarget, bind_eq_ok.mpr ⟨(), hcount,
      bind_eq_ok.mpr ⟨(), hnative, bind_eq_ok.mpr ⟨exprs, hexprs, ?_⟩⟩⟩⟩
    rw [EmittedCall.body, callBody_single]
    rfl

/-- The callee does not depend on the display name, the name its tables are read under may. -/
theorem resolveTarget_renamed (h : resolveTarget t id n = .ok target) :
    resolveTarget t id n' = .ok ⟨calledAs t id n', target.path, target.isExtern⟩ := by
  cases hb : t.builtin id with
  | some p =>
    simp only [resolveTarget, hb, Except.ok.injEq] at h
    subst h
    simp only [resolveTarget, calledAs, hb]
  | none =>
    cases hr : t.registry id with
    | none =>
      cases hx : t.xbundle id with
      | none => simp only [resolveTarget, hb, hr, hx, reduceCtorEq] at h
      | some sym =>
        simp only [resolveTarget, hb, hr, hx, Except.ok.injEq] at h
        subst h
        simp [resolveTarget, calledAs, hb, hr, hx]
    | some name =>
      cases hp : t.nameToPath name with
      | some p =>
        simp only [resolveTarget, hb, hr, hp, Except.ok.injEq] at h
        subst h
        simp [resolveTarget, calledAs, hb, hr, hp]
      | none =>
        cases hx : t.xbundle id with
        | none => simp only [resolveTarget, hb, hr, hp, hx, reduceCtorEq] at h
        | some sym =>
          simp only [resolveTarget, hb, hr, hp, hx, Except.ok.injEq] at h
          subst h
          simp [resolveTarget, calledAs, hb, hr, hp, hx]

theorem calledAs_eq (h : resolveTarget t id n = .ok target) : target.name = calledAs t id n :=
  congrArg Target.name (Except.ok.inj (h.symm.trans (resolveTarget_renamed h)))

theorem checkCount_eq_ok {α : Type} {what : String} {declared : Option (List α)} {got : ℕ} :
    checkCount name what (declared.map List.length) got = .ok () ↔
      ∀ l, declared = some l → l.length = got := by
  cases declared with
  | none => simp [checkCount]
  | some l =>
    by_cases hl : l.length = got
    · simp [checkCount, hl]
    · simp [checkCount, hl]

theorem argExpr_eq_ok {kind : ArgKind} {tok : Tok} :
    argExpr env index name native i kind arg = .ok tok ↔
      (kind = .fnRef ↔ (fnTarget env.poolKinds arg).isSome = true) ∧
      tok = argTok env index native arg := by
  cases arg with
  | node j =>
    cases kind with
    | fnRef => simp [argExpr, fnTarget]
    | data => simp [argExpr, fnTarget, argTok, gateDataArg, pure, Except.pure, eq_comm]
  | pool pi =>
    cases hkind : env.poolKinds[pi.toNat]? with
    | none =>
      cases kind <;>
        simp [argExpr, fnTarget, argTok, gateDataArg, hkind, pure, Except.pure, eq_comm]
    | some entry =>
      cases entry <;> cases kind <;>
        simp [argExpr, fnTarget, argTok, gateDataArg, hkind, pure, Except.pure, eq_comm]

theorem argExprs_eq_ok {native : Option (List NativeArgType)} {l : List (NodeRef × ArgKind)}
    {exprs : List Tok} : argExprs env index name native i l = .ok exprs ↔
    (∀ arg ∈ l, arg.2 = .fnRef ↔ (fnTarget env.poolKinds arg.1).isSome = true) ∧ exprs =
    (l.zipIdx i).map fun p => argTok env index (native.bind fun types => types[p.2]?) p.1.1 := by
  induction l generalizing i exprs with
  | nil =>
    constructor
    · rintro ⟨⟩
      exact ⟨nofun, rfl⟩
    · rintro ⟨-, rfl⟩
      rfl
  | cons arg l ih =>
    obtain ⟨arg, kind⟩ := arg
    simp only [argExprs, bind_eq_ok, argExpr_eq_ok, ih, pure, Except.pure, Except.ok.injEq,
      forall_mem_cons, zipIdx_cons, map_cons]
    constructor
    · rintro ⟨tok, ⟨hkind, rfl⟩, rest, ⟨hrest, rfl⟩, rfl⟩
      exact ⟨⟨hkind, hrest⟩, rfl⟩
    · rintro ⟨⟨hkind, hrest⟩, rfl⟩
      exact ⟨_, ⟨hkind, rfl⟩, _, ⟨hrest, rfl⟩, rfl⟩

/-- The expressions of the arguments, whatever their kinds. -/
def argToks (env : CallEnv) (index : UInt32) (name : String) (args : List NodeRef) : List Tok :=
  args.zipIdx.map fun p => argTok env index (nativeAt env.tables name p.2) p.1

theorem map_zipIdx_zip {α β γ : Type} {xs : List α} {ys : List β} (h : ys.length = xs.length)
    (f : α → ℕ → γ) (k : ℕ) :
    ((xs.zip ys).zipIdx k).map (fun p => f p.1.1 p.2) = (xs.zipIdx k).map fun p => f p.1 p.2 := by
  induction xs generalizing ys k with
  | nil => simp
  | cons x xs ih =>
    cases ys with
    | nil => simp at h
    | cons y ys =>
      simp only [length_cons, Nat.add_right_cancel_iff] at h
      simp [zipIdx_cons, ih h]

/-- Some argument is a function. -/
def givesFn (kinds : List PoolKind) (args : List NodeRef) : Bool :=
  args.any fun arg => (fnTarget kinds arg).isSome

theorem length_declaredKinds (h : ∀ ks, t.argKinds name = some ks → ks.length = args.length) :
    (declaredKinds t name args.length).length = args.length := by
  unfold declaredKinds
  cases hkinds : t.argKinds name with
  | none => simp
  | some ks => exact h ks hkinds

theorem any_fnRef_zip {ks : List ArgKind} (hlen : ks.length = args.length)
    (h : ∀ arg ∈ args.zip ks, arg.2 = .fnRef ↔ (fnTarget kinds arg.1).isSome = true) :
    ks.any (· = .fnRef) = givesFn kinds args := by
  induction args generalizing ks with
  | nil =>
    obtain rfl : ks = [] := length_eq_zero_iff.mp hlen
    rfl
  | cons arg args ih =>
    cases ks with
    | nil => cases hlen
    | cons kind ks =>
      rw [zip_cons_cons, forall_mem_cons] at h
      have hhead : decide (kind = .fnRef) = (fnTarget kinds arg).isSome := by
        rw [Bool.eq_iff_iff, decide_eq_true_iff]
        exact h.1
      have htail := ih (Nat.succ.inj hlen) h.2
      rw [givesFn] at htail
      simp [givesFn, hhead, htail]

/-- The parts of a call whose arguments the name takes. -/
def partsOf (env : CallEnv) (index : UInt32) (target : Target) (args : List NodeRef)
    (name : String) : EmittedCall :=
  ⟨target.path, target.isExtern,
    givesFn env.poolKinds args || (env.tables.nativeCalls name).isSome ||
    args.length = 1, argToks env index name args⟩

/-- A call whose target is found is emitted exactly when its name's declarations take its
arguments. -/
theorem callParts_eq_ok {c : EmittedCall} (htarget : resolveTarget env.tables id n = .ok target) :
    callParts env index id args n = .ok c ↔
      Fits env.tables env.poolKinds (calledAs env.tables id n) args ∧
        c = partsOf env index target args (calledAs env.tables id n) := by
  rw [← calledAs_eq htarget]
  have hlength : (argToks env index target.name args).length = args.length := by simp [argToks]
  have hexprs : ∀ ks : List ArgKind, ks.length = args.length →
      ((args.zip ks).zipIdx.map fun p => argTok env index
        ((env.tables.nativeCalls target.name).bind fun types => types[p.2]?) p.1.1) =
        argToks env index target.name args := fun ks hks =>
    map_zipIdx_zip hks (fun arg i => argTok env index (nativeAt env.tables target.name i) arg) 0
  simp only [callParts, htarget, ok_bind, bind_eq_ok, argExprs_eq_ok, pure, Except.pure,
    Except.ok.injEq]
  constructor
  · rintro ⟨⟨⟩, hcount, ⟨⟩, hnative, exprs, ⟨hgates, rfl⟩, rfl⟩
    have hfits : Fits env.tables env.poolKinds target.name args :=
      ⟨checkCount_eq_ok.mp hcount, checkCount_eq_ok.mp hnative, hgates⟩
    have hks := length_declaredKinds hfits.count
    refine ⟨hfits, ?_⟩
    rw [partsOf, hexprs _ hks, any_fnRef_zip hks hgates, hlength]
  · rintro ⟨hfits, rfl⟩
    have hks := length_declaredKinds hfits.count
    refine ⟨(), checkCount_eq_ok.mpr hfits.count, (), checkCount_eq_ok.mpr hfits.nativeCount,
      _, ⟨hfits.gates, rfl⟩, ?_⟩
    rw [partsOf, hexprs _ hks, any_fnRef_zip hks hfits.gates, hlength]

/-! ### Two names of one call -/

/-- How the text of a data argument uses it. -/
def dataMode (moves : MoveSet) (index : UInt32) (native : Option NativeArgType) (arg : NodeRef) :
    Mode :=
  match accessOf native with
  | none => takeMode moves arg index
  | some .bytes => if moves arg index then .intoBytes else .access .bytes
  | some t => .access t

theorem dataExpr_eq {moves : MoveSet} :
    dataExpr moves index native arg = .use (dataMode moves index native arg) (refExpr arg) := by
  unfold dataExpr dataMode
  rcases native with _ | native
  · rfl
  · cases native with
    | bytes =>
      dsimp only [accessOf]
      split <;> rfl
    | _ => rfl

theorem dataMode_eq_iff {moves : MoveSet} :
    dataMode moves index native arg = dataMode moves index native' arg ↔
      accessOf native = accessOf native' := by
  unfold dataMode takeMode
  generalize accessOf native = a
  generalize accessOf native' = a'
  constructor
  · intro h
    rcases a with _ | t <;> rcases a' with _ | t'
    · rfl
    · cases t' <;> cases hmove : moves arg index <;> simp [hmove] at h
    · cases t <;> cases hmove : moves arg index <;> simp [hmove] at h
    · cases t <;> cases t' <;> cases hmove : moves arg index <;> simp_all
  · rintro rfl
    rfl

theorem dataExpr_eq_iff :
    dataExpr env.moves index native arg = dataExpr env.moves index native' arg ↔
      accessOf native = accessOf native' := by
  rw [dataExpr_eq, dataExpr_eq, Scope.Tok.use.injEq, dataMode_eq_iff]
  exact and_iff_left rfl

theorem argTok_eq_iff :
    argTok env index native arg = argTok env index native' arg ↔
      (fnTarget env.poolKinds arg = none → accessOf native = accessOf native') := by
  cases h : fnTarget env.poolKinds arg with
  | some target => simp [argTok, h]
  | none => simp [argTok, h, dataExpr_eq_iff]

theorem argToks_eq_iff : argToks env index name args = argToks env index name' args ↔
    ∀ i arg, args[i]? = some arg → fnTarget env.poolKinds arg = none →
      accessOf (nativeAt env.tables name i) = accessOf (nativeAt env.tables name' i) := by
  simp only [argToks, map_inj_left]
  constructor
  · intro h i arg harg
    exact argTok_eq_iff.mp (h (arg, i) (mem_zipIdx_iff_getElem?.mpr harg))
  · rintro h ⟨arg, i⟩ hmem
    exact argTok_eq_iff.mpr (h i arg (mem_zipIdx_iff_getElem?.mp hmem))

theorem givesFn_eq_false :
    givesFn kinds args = false ↔ ∀ arg ∈ args, fnTarget kinds arg = none := by
  simp [givesFn]

/-- Of two names that take the arguments, the call has the same parts exactly when they pass them
alike. -/
theorem partsOf_eq_iff :
    partsOf env index target args name = partsOf env index target args name' ↔
      Alike env.tables env.poolKinds args name name' := by
  simp only [partsOf, EmittedCall.mk.injEq, true_and, argToks_eq_iff]
  constructor
  · rintro ⟨hapart, haccess⟩
    refine ⟨haccess, fun hlen hdata => ?_⟩
    simpa [givesFn_eq_false.mpr hdata, hlen] using hapart
  · rintro ⟨haccess, hapart⟩
    refine ⟨?_, haccess⟩
    cases hfn : givesFn env.poolKinds args with
    | true => rfl
    | false =>
      by_cases hlen : args.length = 1
      · simp [hlen]
      · rw [hapart hlen (givesFn_eq_false.mp hfn)]

end AxisBridge
