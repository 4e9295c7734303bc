import AxisBridge.Emit.Module
import AxisBridge.Lib.Dedup

/-! The names a generated module introduces, and when one is introduced twice. -/
namespace AxisBridge
open List Option String Dedup

theorem hexDigit_ne_n : ∀ n < 16, hexDigit n ≠ 'n' := by decide

theorem hex_ne_n {h : Hash256} {c : Char} (hc : c ∈ (hash256ToHex h).toList) : c ≠ 'n' := by
  simp only [hash256ToHex, toList_ofList, mem_flatMap, mem_cons, not_mem_nil, or_false] at hc
  obtain ⟨b, -, rfl | rfl⟩ := hc
  · exact hexDigit_ne_n _ (by have := b.toNat_lt; omega)
  · exact hexDigit_ne_n _ (Nat.mod_lt _ (by norm_num))

theorem hex_ne_nil (h : Hash256) : (hash256ToHex h).toList ≠ [] := by
  have hlen : (hash256ToHex h).toList.length = 64 := by
    simp [hash256ToHex, length_flatMap, h.length_eq]
  intro hnil
  simp [hnil] at hlen

/-- An export's name ends in a hexadecimal digit, so not in `n`. -/
theorem hex_ne_append_n {h : Hash256} {a s : String} (suffix : List Char) :
    a ++ hash256ToHex h ≠ s ++ ofList (suffix ++ ['n']) := by
  intro heq
  have hlast := congrArg (fun x : String => x.toList.getLast?) heq
  simp only [toList_append, toList_ofList, getLast?_append, getLast?_singleton, some_or] at hlast
  rw [getLast?_eq_some_getLast (hex_ne_nil h), some_or, some.injEq] at hlast
  exact hex_ne_n (getLast_mem (hex_ne_nil h)) hlast

theorem identitySym_ne_xfn [Sha256] (fnName sym : String) : identitySym fnName ≠ sym ++ "_xfn" :=
  hex_ne_append_n ['_', 'x', 'f']

theorem identitySym_ne_vfn [Sha256] (fnName name : String) : identitySym fnName ≠ name ++ "_vfn" :=
  hex_ne_append_n ['_', 'v', 'f']

theorem xfn_ne_vfn (sym name : String) : sym ++ "_xfn" ≠ name ++ "_vfn" := by
  intro heq
  have hxfn : "_xfn" = ofList ['_', 'x', 'f', 'n'] := rfl
  have hvfn : "_vfn" = ofList ['_', 'v', 'f', 'n'] := rfl
  have hlist := congrArg String.toList heq
  rw [hxfn, hvfn, toList_append, toList_append, toList_ofList, toList_ofList] at hlist
  have htail := append_inj_right' hlist rfl
  revert htail
  decide

section
variable {t : Tables}

theorem collectSyms_eq_collect (seen ids : List Hash256) :
    collectSyms t seen ids = collect t.xbundle seen ids := by
  induction ids generalizing seen with
  | nil => rfl
  | cons id ids ih =>
    cases hx : t.xbundle id with
    | none => rw [collectSyms, hx, collect_none hx, ih]
    | some sym =>
      by_cases hs : id ∈ seen
      · rw [collectSyms, hx, collect_mem hs]
        simp [hs, ih]
      · rw [collectSyms, hx, collect_some hs hx]
        simp [hs, ih]

def adapterOf (t : Tables) (id : Hash256) : Option VfnAdapter :=
  (vfnAdapter t id).map fun a => ⟨a.1, a.2, (t.nativeCalls a.1).getD []⟩

theorem collectVfns_eq_collect (seen ids : List Hash256) :
    collectVfns t seen ids = collect (adapterOf t) seen ids := by
  induction ids generalizing seen with
  | nil => rfl
  | cons id ids ih =>
    by_cases hs : id ∈ seen
    · rw [collect_mem hs, collectVfns, if_pos hs, ih]
    · rw [collectVfns, if_neg hs]
      cases ha : vfnAdapter t id with
      | none =>
        have hnone : adapterOf t id = none := by simp [adapterOf, ha]
        rw [collect_none hnone, ih]
        apply collect_congr
        intro x hx
        have hne : x ≠ id := by
          rintro rfl
          exact hx hnone
        simp [hne]
      | some a =>
        rw [collect_some hs (y := ⟨a.1, a.2, (t.nativeCalls a.1).getD []⟩)
          (by simp [adapterOf, ha]), ih]

variable [Sha256]

/-- The identities a module declares, calls or wraps lead to different names: no two provided
identities other than the module's own share a symbol, nor two referenced ones, no two adapted
builtins share a name, and no symbol is the module's export, a wrapper or an adapter. -/
structure NamesApart (t : Tables) (b : CoreBundle) (fnName : String) : Prop where
  externs : ∀ id ∈ b.calls ++ b.fnRefs, ∀ id' ∈ b.calls ++ b.fnRefs, id ≠ nameIdentity fnName →
    id' ≠ nameIdentity fnName → ∀ sym, t.xbundle id = some sym → t.xbundle id' = some sym → id = id'
  wrappers : ∀ id ∈ b.fnRefs, ∀ id' ∈ b.fnRefs, ∀ sym, t.xbundle id = some sym →
    t.xbundle id' = some sym → id = id'
  adapters : ∀ id ∈ b.fnRefs, ∀ id' ∈ b.fnRefs, ∀ name path path',
    vfnAdapter t id = some (name, path) → vfnAdapter t id' = some (name, path') → id = id'
  own : ∀ id ∈ b.calls ++ b.fnRefs, id ≠ nameIdentity fnName →
    t.xbundle id ≠ some (identitySym fnName)
  externWrapper : ∀ id ∈ b.calls ++ b.fnRefs, id ≠ nameIdentity fnName → ∀ id' ∈ b.fnRefs, ∀ sym,
    t.xbundle id' = some sym → t.xbundle id ≠ some (sym ++ "_xfn")
  externAdapter : ∀ id ∈ b.calls ++ b.fnRefs, id ≠ nameIdentity fnName → ∀ id' ∈ b.fnRefs,
    ∀ name path, vfnAdapter t id' = some (name, path) → t.xbundle id ≠ some (name ++ "_vfn")

variable {b : CoreBundle} {fnName : String}

theorem nodup_externSyms_iff : (b.externSyms t fnName).Nodup ↔
    ∀ id ∈ b.calls ++ b.fnRefs, ∀ id' ∈ b.calls ++ b.fnRefs, id ≠ nameIdentity fnName →
      id' ≠ nameIdentity fnName → ∀ sym, t.xbundle id = some sym → t.xbundle id' = some sym →
      id = id' := by
  rw [CoreBundle.externSyms, collectSyms_eq_collect, nodup_collect_iff]
  simp

theorem mem_externSyms_iff {sym : String} : sym ∈ b.externSyms t fnName ↔
    ∃ id ∈ b.calls ++ b.fnRefs, id ≠ nameIdentity fnName ∧ t.xbundle id = some sym := by
  rw [CoreBundle.externSyms, collectSyms_eq_collect, mem_collect]
  simp

/-- The wrappers' names, with their suffix. -/
theorem xfnNames_eq : (b.xfnSyms t).map (· ++ "_xfn") =
    collect (fun id => (t.xbundle id).map (· ++ "_xfn")) [] b.fnRefs := by
  rw [CoreBundle.xfnSyms, collectSyms_eq_collect, map_collect]

theorem vfnNames_eq : (collectVfns t [] b.fnRefs).map (fun a => a.name ++ "_vfn") =
    collect (fun id => (vfnAdapter t id).map (·.1 ++ "_vfn")) [] b.fnRefs := by
  rw [collectVfns_eq_collect, map_collect]
  simp [adapterOf, Function.comp_def]

theorem nodup_xfnNames_iff : ((b.xfnSyms t).map (· ++ "_xfn")).Nodup ↔
    ∀ id ∈ b.fnRefs, ∀ id' ∈ b.fnRefs, ∀ sym, t.xbundle id = some sym →
      t.xbundle id' = some sym → id = id' := by
  rw [xfnNames_eq, nodup_collect_iff]
  constructor
  · intro h id hid id' hid' sym hx hx'
    exact h id hid id' hid' (by simp) (by simp) (sym ++ "_xfn") (by simp [hx]) (by simp [hx'])
  · intro h id hid id' hid' _ _ z hz hz'
    obtain ⟨sym, hx, rfl⟩ := map_eq_some_iff.mp hz
    obtain ⟨sym', hx', hsym⟩ := map_eq_some_iff.mp hz'
    rw [String.append_left_inj] at hsym
    exact h id hid id' hid' sym hx (hsym ▸ hx')

theorem nodup_vfnNames_iff : ((collectVfns t [] b.fnRefs).map fun a => a.name ++ "_vfn").Nodup ↔
    ∀ id ∈ b.fnRefs, ∀ id' ∈ b.fnRefs, ∀ name path path',
      vfnAdapter t id = some (name, path) → vfnAdapter t id' = some (name, path') → id = id' := by
  rw [vfnNames_eq, nodup_collect_iff]
  constructor
  · intro h id hid id' hid' name path path' hx hx'
    exact h id hid id' hid' (by simp) (by simp) (name ++ "_vfn") (by simp [hx]) (by simp [hx'])
  · intro h id hid id' hid' _ _ z hz hz'
    obtain ⟨⟨name, path⟩, hx, rfl⟩ := map_eq_some_iff.mp hz
    obtain ⟨⟨name', path'⟩, hx', hname⟩ := map_eq_some_iff.mp hz'
    rw [String.append_left_inj] at hname
    cases hname
    exact h id hid id' hid' name path path' hx hx'

theorem mem_xfnNames_iff {x : String} : x ∈ (b.xfnSyms t).map (· ++ "_xfn") ↔
    ∃ id ∈ b.fnRefs, ∃ sym, t.xbundle id = some sym ∧ sym ++ "_xfn" = x := by
  simp [xfnNames_eq, mem_collect]

theorem mem_vfnNames_iff {x : String} :
    x ∈ (collectVfns t [] b.fnRefs).map (fun a => a.name ++ "_vfn") ↔
      ∃ id ∈ b.fnRefs, ∃ name path, vfnAdapter t id = some (name, path) ∧ name ++ "_vfn" = x := by
  simp [vfnNames_eq, mem_collect]

variable [CharTables] {providerCrates : List String} {m : RustModule}

/-- An emitted module introduces each of its names once exactly when its identities lead apart. -/
theorem itemNames_nodup_iff (hm : emitModule t b fnName providerCrates = .ok m) :
    m.itemNames.Nodup ↔ NamesApart t b fnName := by
  obtain ⟨-, -, kinds, -, pieces, -, -, -, -, rfl⟩ := emitModule_eq_ok.mp hm
  simp only [RustModule.itemNames, moduleOf, nodup_append, nodup_singleton, true_and,
    mem_append, mem_singleton, or_imp, forall_and, forall_eq]
  rw [nodup_externSyms_iff, nodup_xfnNames_iff, nodup_vfnNames_iff]
  constructor
  · rintro ⟨⟨⟨hext, hwrap, hextwrap⟩, hadapt, hextadapt, -⟩, ⟨hextown, -⟩, -⟩
    refine ⟨hext, hwrap, hadapt, ?_, ?_, ?_⟩
    · intro id hid hself hx
      exact hextown _ (mem_externSyms_iff.mpr ⟨id, hid, hself, hx⟩) rfl
    · intro id hid hself id' hid' sym hx' hx
      exact hextwrap _ (mem_externSyms_iff.mpr ⟨id, hid, hself, hx⟩) _
        (mem_xfnNames_iff.mpr ⟨id', hid', sym, hx', rfl⟩) rfl
    · intro id hid hself id' hid' name path ha hx
      exact hextadapt _ (mem_externSyms_iff.mpr ⟨id, hid, hself, hx⟩) _
        (mem_vfnNames_iff.mpr ⟨id', hid', name, path, ha, rfl⟩) rfl
  · intro h
    refine ⟨⟨⟨h.externs, h.wrappers, ?_⟩, h.adapters, ?_, ?_⟩, ⟨?_, ?_⟩, ?_⟩
    · rintro x hx y hy rfl
      obtain ⟨id, hid, hself, hsym⟩ := mem_externSyms_iff.mp hx
      obtain ⟨id', hid', sym', hx', rfl⟩ := mem_xfnNames_iff.mp hy
      exact h.externWrapper id hid hself id' hid' sym' hx' hsym
    · rintro x hx y hy rfl
      obtain ⟨id, hid, hself, hsym⟩ := mem_externSyms_iff.mp hx
      obtain ⟨id', hid', name, path, ha, rfl⟩ := mem_vfnNames_iff.mp hy
      exact h.externAdapter id hid hself id' hid' name path ha hsym
    · rintro x hx y hy rfl
      obtain ⟨-, -, sym, -, rfl⟩ := mem_xfnNames_iff.mp hx
      obtain ⟨-, -, name, -, -, heq⟩ := mem_vfnNames_iff.mp hy
      exact xfn_ne_vfn sym name heq.symm
    · rintro x hx rfl
      obtain ⟨id, hid, hself, hsym⟩ := mem_externSyms_iff.mp hx
      exact h.own id hid hself hsym
    · rintro x hx rfl
      obtain ⟨-, -, sym, -, heq⟩ := mem_xfnNames_iff.mp hx
      exact identitySym_ne_xfn fnName sym heq.symm
    · rintro x hx rfl
      obtain ⟨-, -, name, -, -, heq⟩ := mem_vfnNames_iff.mp hx
      exact identitySym_ne_vfn fnName name heq.symm

end

attribute [local instance] knownDigests

/-- The character tables on ASCII text. -/
@[reducible] def asciiTables : CharTables where
  alphanumeric c := c.isAlphanum
  printable c := 32 ≤ c.toNat && c.toNat < 127
  graphemeExtended _ := false

attribute [local instance] asciiTables

def noTables : Tables where
  builtin _ := none
  registry _ := none
  nameToPath _ := none
  xbundle _ := none
  argKinds _ := none
  nativeCalls _ := none
  pureDet _ := false
  declaredChannels _ := false

def listAppendPath : String := "axis_codegen_bridge::runtime::list::list_append"

/-- Two names of one native builtin. -/
def aliasTables : Tables where
  builtin id :=
    if id = nameIdentity "list_append" ∨ id = nameIdentity "value_list_push" then
      some listAppendPath
    else none
  registry _ := none
  nameToPath name :=
    if name = "list_append" ∨ name = "value_list_push" then some listAppendPath else none
  xbundle _ := none
  argKinds _ := none
  nativeCalls name :=
    if name = "list_append" ∨ name = "value_list_push" then some [.value, .value] else none
  pureDet _ := false
  declaredChannels _ := false

/-- A function that refers to the builtins of `ids`, and yields Unit. -/
def referring (ids : List Hash256) : CoreBundle where
  version := "0.6"
  constantPool := unitEntry :: ids.map fnEntry
  nodes := []
  result := .pool 0

/-- One reference to a native builtin: every name is introduced once. -/
theorem itemNames_nodup_iff_referring :
    NamesApart aliasTables (referring [nameIdentity "list_append"]) "f" := by
  have hm : emitModule aliasTables (referring [nameIdentity "list_append"]) "f" [] = .ok _ := rfl
  exact (itemNames_nodup_iff hm).mp (by decide)

/-- Both names of one builtin as function references: its adapter is defined twice. -/
theorem itemNames_repeat : ∃ m,
    emitModule aliasTables
      (referring [nameIdentity "list_append", nameIdentity "value_list_push"]) "f" [] = .ok m ∧
    ¬ m.itemNames.Nodup :=
  ⟨_, rfl, by decide⟩

end AxisBridge
