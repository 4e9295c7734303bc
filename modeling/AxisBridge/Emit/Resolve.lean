import AxisBridge.Emit.Pool

/-! One identity, two resolvers: what a call of it runs, and what a reference to it runs. -/
namespace AxisBridge
open Tables

/-- The code behind a callee: a Rust function, or an extern symbol. -/
inductive Impl
  | rust (path : String)
  | symbol (sym : String)
  deriving DecidableEq

def Target.impl (target : Target) : Impl :=
  if target.isExtern then .symbol target.path else .rust target.path

/-- The name and path of the adapter that the scan of Fn-typed constants makes for `id`. -/
def vfnAdapter (t : Tables) (id : Hash256) : Option (String × String) :=
  match t.builtin id with
  | some path =>
    if (t.nativeCalls (lastSegment path)).isSome then some (lastSegment path, path) else none
  | none =>
    match t.registry id with
    | some name =>
      match t.nameToPath name with
      | some path => if (t.nativeCalls name).isSome then some (name, path) else none
      | none => none
    | none => none

/-- A `_vfn` name runs the path its identity's adapter calls. -/
def FnTarget.impl (t : Tables) (id : Hash256) : FnTarget → Option Impl
  | .path p => some (.rust p)
  | .xfn sym => some (.symbol sym)
  | .vfn name =>
    match vfnAdapter t id with
    | some (adapted, p) => if adapted = name then some (.rust p) else none
    | none => none

section
variable {t : Tables} {id : Hash256}

/-- The Rust path of an identity, as a builtin or through its registry name. -/
def Tables.rustPath (t : Tables) (id : Hash256) : Option String :=
  (t.builtin id).or ((t.registry id).bind t.nameToPath)

/-- The one implementation both resolvers are to find: Rust first, else the provider. -/
def Tables.intended (t : Tables) (id : Hash256) : Option Impl :=
  ((t.rustPath id).map .rust).or ((t.xbundle id).map .symbol)

/-- A provider's identity that the registry also names with a Rust implementation. -/
def Tables.Shadowed (t : Tables) (id : Hash256) : Prop :=
  t.builtin id = none ∧ (t.xbundle id).isSome ∧ ((t.registry id).bind t.nameToPath).isSome

instance : Decidable (t.Shadowed id) := by
  unfold Shadowed
  infer_instance

theorem resolveTarget_impl {targetName : String} {target : Target}
    (h : resolveTarget t id targetName = .ok target) : t.intended id = some target.impl := by
  unfold resolveTarget at h
  unfold intended rustPath
  cases hb : t.builtin id with
  | some p =>
    cases by simpa only [hb] using h
    rfl
  | none =>
    cases hr : t.registry id with
    | none =>
      cases hx : t.xbundle id with
      | none => simp only [hb, hr, hx, reduceCtorEq] at h
      | some sym =>
        cases by simpa only [hb, hr, hx] using h
        rfl
    | some n =>
      cases hp : t.nameToPath n with
      | some p =>
        cases by simpa only [hb, hr, hp] using h
        simp [hp, Target.impl]
      | none =>
        cases hx : t.xbundle id with
        | none => simp only [hb, hr, hp, hx, reduceCtorEq] at h
        | some sym =>
          cases by simpa only [hb, hr, hp, hx] using h
          simp [hp, Target.impl]

variable {f : FnTarget}

/-- A reference to a Rust function runs it, through the adapter where one is needed. -/
theorem fnRefKind_impl {name path : String} (h : fnRefKind t name path = .ok f)
    (hadapt : vfnAdapter t id =
      if (t.nativeCalls name).isSome then some (name, path) else none) :
    f.impl t id = some (.rust path) := by
  unfold fnRefKind at h
  split at h
  · cases h
  · split at h
    next hnative =>
      cases h
      simp [FnTarget.impl, hadapt, hnative]
    next =>
      cases h
      rfl

/-- A shadowed identity's references run the provider, and its calls the Rust path. -/
theorem resolveFnRef_impl_of_shadowed (h : resolveFnRef t id = .ok f) (hs : t.Shadowed id) :
    ∃ sym path, f.impl t id = some (.symbol sym) ∧ t.intended id = some (.rust path) := by
  obtain ⟨hb, hx, hr⟩ := hs
  obtain ⟨sym, hsym⟩ := Option.isSome_iff_exists.mp hx
  obtain ⟨path, hpath⟩ := Option.isSome_iff_exists.mp hr
  simp only [resolveFnRef, hb, hsym, Except.ok.injEq] at h
  refine ⟨sym, path, ?_, ?_⟩
  · rw [← h, FnTarget.impl]
  · simp [intended, rustPath, hb, hpath]

theorem resolveFnRef_impl (h : resolveFnRef t id = .ok f)
    (hs : ¬ t.Shadowed id) : f.impl t id = t.intended id := by
  unfold resolveFnRef at h
  unfold Shadowed at hs
  unfold intended rustPath
  cases hb : t.builtin id with
  | some p =>
    rw [hb] at h
    exact fnRefKind_impl h (by simp [vfnAdapter, hb])
  | none =>
    cases hx : t.xbundle id with
    | some sym =>
      simp only [hb, hx, Except.ok.injEq] at h
      have hr : (t.registry id).bind t.nameToPath = none := by simpa [hb, hx] using hs
      rw [← h, hr, FnTarget.impl]
      rfl
    | none =>
      cases hr : t.registry id with
      | none => simp only [hb, hx, hr, reduceCtorEq] at h
      | some name =>
        cases hp : t.nameToPath name with
        | none => simp only [hb, hx, hr, hp, reduceCtorEq] at h
        | some path =>
          simp only [hb, hx, hr, hp] at h
          rw [fnRefKind_impl h (by simp [vfnAdapter, hb, hr, hp])]
          simp [hp]

theorem bind_data_ne_fnRef {α : Type} (x : Res α) (expr : α → List Frag) (f : FnTarget) :
    (x >>= fun v => (pure (.data (expr v)) : Res PoolKind)) ≠ .ok (.fnRef f) := by
  intro h
  obtain ⟨v, -, hv⟩ := Res.bind_eq_ok.mp h
  cases hv

/-- A branch that gives no callee is not the one that was taken. -/
theorem else_of_fnRef {c : Prop} [Decidable c] {x y : Res PoolKind}
    (h : (if c then x else y) = .ok (.fnRef f)) (hx : x ≠ .ok (.fnRef f)) : y = .ok (.fnRef f) := by
  by_cases hc : c
  · rw [if_pos hc] at h
    exact absurd h hx
  · rwa [if_neg hc] at h

variable [Sha256]

/-- Only a Fn-typed constant is a callee, of the identity it holds. -/
theorem classifyPoolEntry_fnRef {entry : ConstantPoolEntry}
    (h : classifyPoolEntry entry t = .ok (.fnRef f)) :
    entry.defHash = fnTypeHash ∧
      ∃ id, payloadIdentity entry.payload.toList = some id ∧ resolveFnRef t id = .ok f := by
  unfold classifyPoolEntry at h
  dsimp only at h
  -- the constants of the other types, in the order of the branches
  replace h := else_of_fnRef h nofun
  replace h := else_of_fnRef h nofun
  replace h := else_of_fnRef h (bind_data_ne_fnRef _ _ f)
  replace h := else_of_fnRef h (bind_data_ne_fnRef _ _ f)
  replace h := else_of_fnRef h (bind_data_ne_fnRef _ _ f)
  replace h := else_of_fnRef h (bind_data_ne_fnRef _ _ f)
  replace h := else_of_fnRef h (bind_data_ne_fnRef _ _ f)
  replace h := else_of_fnRef h (by
    intro hparam
    obtain ⟨slot, -, hslot⟩ := Res.bind_eq_ok.mp hparam
    split_ifs at hslot
    cases hslot)
  by_cases hfn : entry.defHash = fnTypeHash
  · rw [if_pos hfn] at h
    cases hid : payloadIdentity entry.payload.toList with
    | none => simp [hid, throw, throwThe, MonadExceptOf.throw] at h
    | some id =>
      rw [hid] at h
      obtain ⟨f', hf', hret⟩ := Res.bind_eq_ok.mp h
      cases hret
      exact ⟨hfn, id, rfl, hf'⟩
  · rw [if_neg hfn] at h
    cases h

/-- A call and a function reference of one identity run the same code exactly when it is not a
provider's identity that the registry also gives a Rust implementation. -/
theorem callee_impl_iff {targetName : String} {target : Target} {entry : ConstantPoolEntry}
    {f : FnTarget} (hcall : resolveTarget t id targetName = .ok target)
    (hpayload : entry.payload.toList = id.bytes)
    (hentry : classifyPoolEntry entry t = .ok (.fnRef f)) :
    f.impl t id = some target.impl ↔ ¬ t.Shadowed id := by
  obtain ⟨-, held, hheld, href⟩ := classifyPoolEntry_fnRef hentry
  have hid : held = id := by
    rw [hpayload] at hheld
    simpa [payloadIdentity, id.length_eq] using hheld.symm
  subst hid
  rw [← resolveTarget_impl hcall]
  by_cases hs : t.Shadowed held
  · obtain ⟨sym, path, hf, hi⟩ := resolveFnRef_impl_of_shadowed href hs
    simp [hf, hi, hs]
  · simp [resolveFnRef_impl href hs, hs]

end

attribute [local instance] knownDigests

/-- A composite's minted identity, as its registry entry gives it. -/
def mintedIdentity : Hash256 := ⟨List.replicate 32 1, by simp⟩

def intAddPath : String := "axis_codegen_bridge::runtime::arith::int_add"

/-- `int_add`, which the registry also names under a minted identity with the bundle `g` as body. -/
def shadowingTables : Tables where
  builtin id := if id = nameIdentity "int_add" then some intAddPath else none
  registry id := if id = mintedIdentity then some "int_add" else none
  nameToPath name := if name = "int_add" then some intAddPath else none
  xbundle id :=
    if id = mintedIdentity then some ("ax_fn_" ++ hash256ToHex (nameIdentity "g")) else none
  argKinds _ := none
  nativeCalls name := if name = "int_add" then some [.int, .int] else none
  pureDet _ := false
  declaredChannels _ := false

def fnEntry (id : Hash256) : ConstantPoolEntry :=
  ⟨fnTypeHash, ⟨id.bytes, by simp [id.length_eq]⟩⟩

/-- A builtin's own identity: the call and the adapter run one path. -/
theorem callee_impl_iff_builtin :
    (FnTarget.vfn "int_add").impl shadowingTables (nameIdentity "int_add") =
      some (Target.impl ⟨"int_add", intAddPath, false⟩) := by
  have hcall : resolveTarget shadowingTables (nameIdentity "int_add") "int_add" =
      .ok ⟨"int_add", intAddPath, false⟩ := by decide
  have hentry : classifyPoolEntry (fnEntry (nameIdentity "int_add")) shadowingTables =
      .ok (.fnRef (.vfn "int_add")) := by decide
  exact (callee_impl_iff hcall rfl hentry).mpr (by decide)

/-- The minted identity: the call runs the Rust path, the function reference the provider. -/
theorem callee_impl_shadowed : ∃ target f,
    resolveTarget shadowingTables mintedIdentity "int_add" = .ok target ∧
    (fnEntry mintedIdentity).payload.toList = mintedIdentity.bytes ∧
    classifyPoolEntry (fnEntry mintedIdentity) shadowingTables = .ok (.fnRef f) ∧
    f.impl shadowingTables mintedIdentity ≠ some target.impl :=
  ⟨⟨"int_add", intAddPath, false⟩, .xfn ("ax_fn_" ++ hash256ToHex (nameIdentity "g")),
    by decide, by decide, by decide, by decide⟩

end AxisBridge
