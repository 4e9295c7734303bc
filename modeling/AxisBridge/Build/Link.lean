import AxisBridge.Build.Closure
import AxisBridge.Emit.Names
import AxisBridge.Emit.NodeSpec
import AxisBridge.Lib.SelfDelimiting

/-! Which symbols the modules of a build need, and which build exports each of them once. -/
namespace AxisBridge
open List Option Piece PostOrder

theorem hexDigit_inj : ∀ m < 16, ∀ n < 16, hexDigit m = hexDigit n → m = n := by decide

theorem hexPairs_inj {xs ys : Bytes}
    (h : (xs.flatMap fun b => [hexDigit (b.toNat / 16), hexDigit (b.toNat % 16)]) =
      ys.flatMap fun b => [hexDigit (b.toNat / 16), hexDigit (b.toNat % 16)]) : xs = ys :=
  (SelfDelimiting.delimits_digits hexDigit_inj).flatMap_inj (fun _ => cons_ne_nil _ _)
    (fun _ _ => trivial) (fun _ _ => trivial) h

theorem exportSym_inj {h h' : Hash256} (heq : exportSym h = exportSym h') : h = h' := by
  have hlist := congrArg String.toList heq
  simp only [exportSym, hash256ToHex, String.toList_append, String.toList_ofList,
    append_cancel_left_eq] at hlist
  have hbytes := hexPairs_inj hlist
  cases h
  cases h'
  simpa using hbytes

theorem mem_calledSyms_iff {m : RustModule} {sym : String} : sym ∈ m.calledSyms ↔
    .text (.callee sym true) ∈ m.pieces.flatMap toks ∨ sym ∈ m.xfnSyms := by
  unfold RustModule.calledSyms
  rw [mem_append, mem_filterMap]
  refine or_congr_left ⟨?_, fun h => ⟨_, h, rfl⟩⟩
  rintro ⟨tok, htok, hsym⟩
  split at hsym
  · cases hsym
    exact htok
  · cases hsym

/-- The extern symbols a module declares or calls. -/
def RustModule.requiredSyms (m : RustModule) : List String := m.externSyms ++ m.calledSyms

section
variable {t : Tables} {b : CoreBundle} {fnName : String}

theorem mem_calls_iff {id : Hash256} : id ∈ b.calls ↔
    ∃ args targetName, .ccall id args targetName ∈ b.nodes := by
  unfold CoreBundle.calls
  rw [mem_filterMap]
  constructor
  · rintro ⟨node, hnode, h⟩
    cases node with
    | ccall id' args targetName =>
      cases h
      exact ⟨args, targetName, hnode⟩
    | _ => cases h
  · rintro ⟨args, targetName, hnode⟩
    exact ⟨_, hnode, rfl⟩

theorem intended_symbol_iff {id : Hash256} {sym : String} :
    t.intended id = some (.symbol sym) ↔ t.rustPath id = none ∧ t.xbundle id = some sym := by
  unfold Tables.intended
  cases t.rustPath id <;> cases t.xbundle id <;> simp

variable [Sha256]

/-- The identities whose provider a module needs: function references, and calls other than of
itself; a call of itself too when it goes to an extern symbol. -/
def CoreBundle.Requires (b : CoreBundle) (t : Tables) (fnName : String) (id : Hash256) : Prop :=
  id ∈ b.fnRefs ∨ (id ∈ b.calls ∧ (id ≠ nameIdentity fnName ∨ t.rustPath id = none))

/-- Only a call's text names an extern symbol. -/
theorem callee_mem_pieces {blocks : Blocks} {env : CallEnv} {pieces : List Piece}
    (h : emitBlocks b blocks env 0 b.nodes = .ok pieces) {path : String} :
    .text (.callee path true) ∈ pieces.flatMap toks ↔
      ∃ id ∈ b.calls, env.tables.intended id = some (.symbol path) := by
  rw [mem_flatMap]
  constructor
  · rintro ⟨p, hp, htok⟩
    obtain ⟨node, k, here, hnode, hok, hin⟩ := (mem_emitBlocks h).mp hp
    cases node with
    | ccall id args targetName =>
      obtain ⟨expr, htext, rfl⟩ := emitPiece_ccall hok
      obtain rfl := mem_singleton.mp hin
      refine ⟨id, mem_calls_iff.mpr ⟨args, targetName, ?_⟩, htext.extern_iff.mp ?_⟩
      · obtain ⟨-, -, hget⟩ := mem_zipIdx hnode
        exact hget ▸ getElem_mem _
      · simpa [toks] using htok
    | cdeterminate =>
      cases hok
      obtain rfl := mem_singleton.mp hin
      simp [toks, Tok.raw] at htok
    | cif cond then_ else_ =>
      cases hok
      cases hin
    | cblock =>
      obtain ⟨end_, -, ⟨k, cond, -, -, -, -, -, rfl⟩ | ⟨k, -, rfl⟩ | ⟨-, rfl⟩⟩ := emitOpen_ok hok
      · obtain rfl := mem_singleton.mp hin
        simp [toks, Tok.raw] at htok
      · cases hin
      · obtain rfl := mem_singleton.mp hin
        simp [toks] at htok
    | cend value =>
      obtain ⟨-, arm, -, ⟨-, -, -, -, -, -, rfl⟩ | ⟨-, -, -, -, -, rfl⟩ | ⟨-, rfl⟩⟩ :=
        emitClose_ok hok
      all_goals
        obtain rfl := mem_singleton.mp hin
        simp [toks, Tok.raw] at htok
  · rintro ⟨id, hid, hsym⟩
    obtain ⟨args, targetName, hnode⟩ := mem_calls_iff.mp hid
    obtain ⟨k, hk, hget⟩ := getElem_of_mem hnode
    have hzip : (.ccall id args targetName, k) ∈ b.nodes.zipIdx := by
      rw [mem_zipIdx_iff_getElem?, getElem?_eq_getElem hk, hget]
    obtain ⟨here, hhere⟩ := emitPiece_of_emitBlocks h hzip
    obtain ⟨expr, htext, rfl⟩ := emitPiece_ccall hhere
    refine ⟨.bind k expr, (mem_emitBlocks h).mpr ⟨_, k, _, hzip, hhere, mem_singleton_self _⟩, ?_⟩
    have hcallee := htext.extern_iff.mpr hsym
    simp [toks, hcallee]

variable [CharTables] {crates : List String} {m : RustModule}

/-- A module needs the symbols of the identities its bundle requires. -/
theorem mem_requiredSyms_iff (hm : emitModule t b fnName crates = .ok m) {sym : String} :
    sym ∈ m.requiredSyms ↔ ∃ id, b.Requires t fnName id ∧ t.xbundle id = some sym := by
  obtain ⟨-, -, kinds, blocks, pieces, -, -, hpieces, -, rfl⟩ := emitModule_eq_ok.mp hm
  have hxfn : sym ∈ b.xfnSyms t ↔ ∃ id ∈ b.fnRefs, t.xbundle id = some sym := by
    rw [CoreBundle.xfnSyms, collectSyms_eq_collect, Dedup.mem_collect]
    simp
  rw [RustModule.requiredSyms, mem_append, mem_calledSyms_iff]
  simp only [moduleOf]
  rw [mem_externSyms_iff, callee_mem_pieces hpieces, hxfn]
  simp only [callEnv, intended_symbol_iff]
  constructor
  · rintro (⟨id, hid, hself, hsym⟩ | ⟨id, hid, hpath, hsym⟩ | ⟨id, hid, hsym⟩)
    · rcases mem_append.mp hid with hid | hid
      · exact ⟨id, .inr ⟨hid, .inl hself⟩, hsym⟩
      · exact ⟨id, .inl hid, hsym⟩
    · exact ⟨id, .inr ⟨hid, .inr hpath⟩, hsym⟩
    · exact ⟨id, .inl hid, hsym⟩
  · rintro ⟨id, hid | ⟨hid, hself | hpath⟩, hsym⟩
    · exact .inr (.inr ⟨id, hid, hsym⟩)
    · exact .inl ⟨id, mem_append_left _ hid, hself, hsym⟩
    · exact .inr (.inl ⟨id, hid, hpath, hsym⟩)

end

section
variable [Sha256] {B : Build} {t : Tables} {key : Hash256}

theorem available_key {p : Provider} (h : available B.providers key = some p) : p.key = key := by
  simpa using find?_some h

theorem next_isSome : (B.next t key).isSome = (available B.providers key).isSome := by
  simp [Build.next]

theorem collectEntry_extends {w w' : Walk Hash256} (hthere : (available B.providers key).isSome)
    (h : B.collectEntry t w key = some w') : Extends (B.next t) [key] w w' := by
  obtain ⟨p, hp⟩ := isSome_iff_exists.mp hthere
  have hnext : B.next t key = some (B.keys t p.bundle) := by simp [Build.next, hp]
  simp only [Build.collectEntry, hp] at h
  obtain ⟨w1, hw1, h⟩ := bind_eq_some_iff.mp h
  have hext := walk_extends hw1
  split at h
  next hmark =>
    cases h
    exact hext.reopen hnext hmark
  next hnew =>
    cases h
    refine hext.snoc hnext (fun hin => hnew (hext.marks hin)) (.inr hnew) rfl ?_ ?_
    · exact fun x _ => Iff.rfl
    · simp

/-- The providers a build reaches along the edges the walk follows. -/
def Build.Reached (B : Build) (t : Tables) (key : Hash256) : Prop :=
  Reach (B.next t) (B.keys t B.root ++ B.entries) key

/-- The closure walk ends, and lists each provider it reaches once. -/
theorem collectXbundleClosure_spec (B : Build) (t : Tables) :
    ∃ pids, B.collectXbundleClosure t = .ok pids ∧ pids.Nodup ∧
      ∀ key, key ∈ pids ↔ B.Reached t key := by
  have hall : ∀ key, (B.next t key).isSome → key ∈ B.providers.map Provider.key := by
    intro key hkey
    rw [next_isSome] at hkey
    obtain ⟨p, hp⟩ := isSome_iff_exists.mp hkey
    exact mem_map.mpr ⟨p, mem_of_find?_eq_some hp, available_key hp⟩
  have hdfs : ∀ (b : CoreBundle) (w : Walk Hash256), ∃ w', B.collectClosureDfs t b w = some w' := by
    intro b w
    apply walk_total hall
    have hle : unmarked (B.providers.map Provider.key) w ≤ _ := countP_le_length
    simp only [length_map] at hle
    omega
  have hentry : ∀ eid w, ∃ w', B.collectEntry t w eid = some w' := by
    intro eid w
    have hlast : ∀ w1 : Walk Hash256, ∃ w', (if eid ∈ w1.visited then some w1
        else some ⟨eid :: w1.visited, w1.ordered ++ [eid]⟩) = some w' := by
      intro w1
      split <;> exact ⟨_, rfl⟩
    cases hp : available B.providers eid with
    | none =>
      obtain ⟨w', hw'⟩ := hlast w
      exact ⟨w', by simpa [Build.collectEntry, hp] using hw'⟩
    | some p =>
      obtain ⟨w1, hw1⟩ := hdfs p.bundle w
      obtain ⟨w', hw'⟩ := hlast w1
      exact ⟨w', by simpa [Build.collectEntry, hp, hw1] using hw'⟩
  obtain ⟨w1, hw1⟩ := hdfs B.root ⟨[], []⟩
  obtain ⟨w2, hw2⟩ := foldlM_total hentry B.entries w1
  have hext : Extends (B.next t) (B.keys t B.root ++ B.entries) ⟨[], []⟩ w2 :=
    (walk_extends hw1).trans (foldlM_extends
      (fun key hkey {_ _} h => collectEntry_extends (B.entries_available key hkey) h) hw2)
  exact ⟨w2.ordered, by simp [Build.collectXbundleClosure, hw1, hw2], hext.ordered_iff⟩

variable {pids : List Hash256} {fnName : String} {b : CoreBundle} {ms : List RustModule}

theorem mem_collectXbundleClosure
    (h : B.collectXbundleClosure t = .ok pids) (key : Hash256) : key ∈ pids ↔ B.Reached t key := by
  obtain ⟨pids', hpids, -, hreached⟩ := collectXbundleClosure_spec B t
  rw [h, Except.ok.injEq] at hpids
  rw [hpids, hreached]

/-- Every provided identity's symbol is the export of the provider it leads to. -/
theorem xbundleProviders_eq_some {id : Hash256} {sym : String} :
    B.xbundleProviders id = some sym ↔
      (available B.providers (B.keyOf id)).isSome ∧ sym = exportSym (B.keyOf id) := by
  unfold Build.xbundleProviders Build.keyOf
  cases hb : B.byBody id with
  | some key =>
    simp only [getD_some, B.byBody_available hb, some.injEq, true_and]
    exact eq_comm
  | none =>
    by_cases hthere : (available B.providers id).isSome
    · simp only [getD_none, hthere, if_true, some.injEq, true_and]
      exact eq_comm
    · simp [hthere]

/-- A function of the build and its bundle: the root, or a provider the walk reaches. -/
def Build.Member (B : Build) (t : Tables) (fnName : String) (b : CoreBundle) : Prop :=
  (fnName = B.rootName ∧ b = B.root) ∨
    ∃ p, B.Reached t p.key ∧ available B.providers p.key = some p ∧ fnName = p.stem ∧ b = p.bundle

/-- An edge the walk follows reaches its provider. -/
theorem Build.Member.reached (h : B.Member t fnName b)
    (hkey : key ∈ B.keys t b) (hthere : (available B.providers key).isSome) : B.Reached t key := by
  rw [← next_isSome (t := t)] at hthere
  rcases h with ⟨-, rfl⟩ | ⟨p, hreach, hp, -, rfl⟩
  · exact .root (mem_append_left _ hkey) hthere
  · exact hreach.step (by simp [Build.next, hp]) hkey hthere

/-- An edge that the walk follows leads to the provider: from an entry, or from a member. -/
def Build.Followed (B : Build) (t : Tables) (key : Hash256) : Prop :=
  key ∈ B.entries ∨ ∃ fnName b, B.Member t fnName b ∧ key ∈ B.keys t b

theorem followed_iff (hthere : (available B.providers key).isSome) :
    B.Followed t key ↔ B.Reached t key := by
  constructor
  · rintro (hentry | ⟨fnName, b, hmem, hkey⟩)
    · exact .root (mem_append_right _ hentry) (by rwa [next_isSome])
    · exact hmem.reached hkey hthere
  · rintro ⟨r, hr, hrthere, hreach⟩
    cases hreach with
    | refl =>
      rcases mem_append.mp hr with hkey | hentry
      · exact .inr ⟨_, _, .inl ⟨rfl, rfl⟩, hkey⟩
      · exact .inl hentry
    | @tail x _ hx hedge =>
      obtain ⟨succs, hnext, hkey, -⟩ := hedge
      obtain ⟨p, hp, rfl⟩ := map_eq_some_iff.mp hnext
      have hmem : B.Reached t p.key := by
        rw [available_key hp]
        exact ⟨r, hr, hrthere, hx⟩
      exact .inr ⟨_, _, .inr ⟨p, hmem, by rw [available_key hp, hp], rfl, rfl⟩, hkey⟩

/-- Every provider that a member requires has a followed edge to it or is the root itself, and not
both. -/
structure Build.Linked (B : Build) (t : Tables) : Prop where
  followed : ∀ {fnName b id}, B.Member t fnName b → b.Requires (B.tables t) fnName id →
    (B.xbundleProviders id).isSome →
    B.Followed t (B.keyOf id) ∨ B.keyOf id = nameIdentity B.rootName
  rootOnce : ∀ {fnName b id}, B.Member t fnName b → b.Requires (B.tables t) fnName id →
    (B.xbundleProviders id).isSome → B.keyOf id = nameIdentity B.rootName →
    ¬ B.Followed t (B.keyOf id)

theorem available_keyOf {id : Hash256} (h : (B.xbundleProviders id).isSome) :
    (available B.providers (B.keyOf id)).isSome := by
  obtain ⟨sym, hsym⟩ := isSome_iff_exists.mp h
  exact (xbundleProviders_eq_some.mp hsym).1

variable [CharTables] {crates : List String}

theorem emitModule_identitySym {m : RustModule} (h : emitModule t b fnName crates = .ok m) :
    m.identitySym = exportSym (nameIdentity fnName) := by
  obtain ⟨-, -, -, -, -, -, -, -, -, rfl⟩ := emitModule_eq_ok.mp h
  rfl

/-- The modules of the listed providers, one for one. -/
theorem emitProviders_ok (h : B.emitProviders t crates pids = .ok ms) :
    Forall₂ (fun pid m => ∃ p, available B.providers pid = some p ∧
      emitModule (B.tables t) p.bundle p.stem crates = .ok m) pids ms := by
  induction pids generalizing ms with
  | nil =>
    cases h
    exact .nil
  | cons pid pids ih =>
    obtain ⟨p, hp, h⟩ := Res.bind_eq_ok.mp h
    obtain ⟨m, hm, h⟩ := Res.bind_eq_ok.mp h
    obtain ⟨rest, hrest, h⟩ := Res.bind_eq_ok.mp h
    cases h
    refine .cons ⟨p, ?_, Res.mapErr_eq_ok.mp hm⟩ (ih hrest)
    cases hav : available B.providers pid with
    | none =>
      rw [hav] at hp
      cases hp
    | some p' =>
      rw [hav] at hp
      cases hp
      rfl

theorem emitProviders_identitySym
    (h : B.emitProviders t crates pids = .ok ms) : ms.map (·.identitySym) = pids.map exportSym := by
  have hforall := emitProviders_ok h
  clear h
  induction hforall with
  | nil => rfl
  | cons hmod _ ih =>
    obtain ⟨p, hp, hm⟩ := hmod
    rw [map_cons, map_cons, ih, emitModule_identitySym hm]
    exact congrArg (exportSym · :: _) (available_key hp)

/-- The parts of a successful build. -/
theorem emitAll_eq_ok (h : B.emitAll t crates = .ok ms) :
    ∃ pids root provided, B.collectXbundleClosure t = .ok pids ∧
      B.emitProviders t crates pids = .ok provided ∧
      emitModule (B.tables t) B.root B.rootName crates = .ok root ∧ ms = root :: provided := by
  obtain ⟨pids, hpids, h⟩ := Res.bind_eq_ok.mp h
  obtain ⟨provided, hprovided, h⟩ := Res.bind_eq_ok.mp h
  obtain ⟨root, hroot, h⟩ := Res.bind_eq_ok.mp h
  cases h
  exact ⟨pids, root, provided, hpids, hprovided, Res.mapErr_eq_ok.mp hroot, rfl⟩

/-- Every emitted module is that of a member of the build. -/
theorem member_of_emitAll (h : B.emitAll t crates = .ok ms) {m : RustModule} (hm : m ∈ ms) :
    ∃ fnName b, B.Member t fnName b ∧ emitModule (B.tables t) b fnName crates = .ok m := by
  obtain ⟨pids, root, provided, hpids, hprovided, hroot, rfl⟩ := emitAll_eq_ok h
  have hreached := mem_collectXbundleClosure hpids
  have hforall := emitProviders_ok hprovided
  rcases mem_cons.mp hm with rfl | hm
  · exact ⟨_, _, .inl ⟨rfl, rfl⟩, hroot⟩
  · obtain ⟨n, hn, rfl⟩ := getElem_of_mem hm
    have hn' : n < pids.length := hforall.length_eq ▸ hn
    obtain ⟨p, hp, hok⟩ := hforall.get hn' hn
    have hkey := available_key hp
    rw [get_eq_getElem] at hp hkey
    refine ⟨p.stem, p.bundle, .inr ⟨p, ?_, ?_, rfl, rfl⟩, hok⟩
    · exact (hreached _).mp (hkey ▸ getElem_mem hn')
    · rw [hkey, hp]

theorem emitAll_of_member (h : B.emitAll t crates = .ok ms) (hmem : B.Member t fnName b) :
    ∃ m ∈ ms, emitModule (B.tables t) b fnName crates = .ok m := by
  obtain ⟨pids, root, provided, hpids, hprovided, hroot, rfl⟩ := emitAll_eq_ok h
  have hforall := emitProviders_ok hprovided
  rcases hmem with ⟨rfl, rfl⟩ | ⟨p, hreach, hp, rfl, rfl⟩
  · exact ⟨root, mem_cons_self, hroot⟩
  · obtain ⟨n, hn, hget⟩ := getElem_of_mem ((mem_collectXbundleClosure hpids _).mpr hreach)
    have hn' : n < provided.length := hforall.length_eq ▸ hn
    obtain ⟨p', hp', hok⟩ := hforall.get hn hn'
    rw [get_eq_getElem, hget, hp, some.injEq] at hp'
    subst hp'
    exact ⟨_, mem_cons_of_mem _ (getElem_mem hn'), hok⟩

/-- Exactly one module exports a provider's symbol when the provider is reached or is the root,
and not both. -/
theorem count_exports_iff (h : B.emitAll t crates = .ok ms)
    (key : Hash256) : (ms.map (·.identitySym)).count (exportSym key) = 1 ↔
      (B.Reached t key ∧ key ≠ nameIdentity B.rootName) ∨
        (¬ B.Reached t key ∧ key = nameIdentity B.rootName) := by
  obtain ⟨pids, root, provided, hpids, hprovided, hroot, rfl⟩ := emitAll_eq_ok h
  obtain ⟨pids', hpids', hnodup, -⟩ := collectXbundleClosure_spec B t
  obtain rfl : pids = pids' := by
    rw [hpids, Except.ok.injEq] at hpids'
    exact hpids'
  rw [map_cons, emitModule_identitySym hroot, emitProviders_identitySym hprovided,
    count_cons, count_map_of_injective _ _ fun _ _ => exportSym_inj, hnodup.count,
    ← mem_collectXbundleClosure hpids]
  by_cases hroot : key = nameIdentity B.rootName
  · subst hroot
    by_cases hin : nameIdentity B.rootName ∈ pids <;> simp [hin]
  · have hne : exportSym (nameIdentity B.rootName) ≠ exportSym key :=
      fun heq => hroot (exportSym_inj heq).symm
    by_cases hin : key ∈ pids <;> simp [hin, hroot, hne]

/-- The closure ends and lists each provider once; and in every build whose emission succeeds, each
symbol a module declares or calls is exported by exactly one module exactly when the build is
linked. -/
theorem exported_once_iff (B : Build) (t : Tables) (crates : List String) :
    (∃ pids, B.collectXbundleClosure t = .ok pids ∧ pids.Nodup) ∧
    ∀ ms, B.emitAll t crates = .ok ms →
      ((∀ m ∈ ms, ∀ sym ∈ m.requiredSyms, (ms.map (·.identitySym)).count sym = 1) ↔
        B.Linked t) := by
  obtain ⟨pids, hpids, hnodup, -⟩ := collectXbundleClosure_spec B t
  refine ⟨⟨pids, hpids, hnodup⟩, ?_⟩
  intro ms hms
  constructor
  · intro hall
    have honce : ∀ {fnName b id}, B.Member t fnName b → b.Requires (B.tables t) fnName id →
        (B.xbundleProviders id).isSome →
        (ms.map (·.identitySym)).count (exportSym (B.keyOf id)) = 1 := by
      intro fnName b id hmem hreq hprov
      obtain ⟨m, hm, hok⟩ := emitAll_of_member hms hmem
      obtain ⟨sym, hsym⟩ := isSome_iff_exists.mp hprov
      have hneed := hall m hm sym ((mem_requiredSyms_iff hok).mpr ⟨id, hreq, hsym⟩)
      rwa [(xbundleProviders_eq_some.mp hsym).2] at hneed
    constructor
    · intro fnName b id hmem hreq hprov
      rw [followed_iff (available_keyOf hprov)]
      exact ((count_exports_iff hms _).mp (honce hmem hreq hprov)).imp And.left And.right
    · intro fnName b id hmem hreq hprov hroot
      rw [followed_iff (available_keyOf hprov)]
      rcases (count_exports_iff hms _).mp (honce hmem hreq hprov) with ⟨-, hne⟩ | ⟨hreach, -⟩
      · exact (hne hroot).elim
      · exact hreach
  · intro hlinked m hm sym hneed
    obtain ⟨fnName, b, hmem, hok⟩ := member_of_emitAll hms hm
    obtain ⟨id, hreq, hsym⟩ := (mem_requiredSyms_iff hok).mp hneed
    have hprov : (B.xbundleProviders id).isSome := isSome_iff_exists.mpr ⟨sym, hsym⟩
    obtain ⟨hthere, rfl⟩ := xbundleProviders_eq_some.mp hsym
    rw [count_exports_iff hms, ← followed_iff hthere]
    have hsome := hlinked.followed hmem hreq hprov
    by_cases hroot : B.keyOf id = nameIdentity B.rootName
    · exact .inr ⟨hlinked.rootOnce hmem hreq hprov hroot, hroot⟩
    · exact .inl ⟨hsome.resolve_right hroot, hroot⟩

end

attribute [local instance] knownDigests asciiTables

/-- A function that calls the provider `g` under the given name, and yields what it returns. -/
def callingG (targetName : Str) : CoreBundle where
  version := "0.6"
  constantPool := [unitEntry]
  nodes := [.ccall (nameIdentity "g") (oneArg (.pool 0)) targetName]
  result := .node 0

/-- The root `f` calls the provider `g`. -/
def buildOf (targetName : Str) : Build where
  rootName := "f"
  root := callingG targetName
  providers := [⟨"g", referring []⟩]
  byBody _ := none
  entries := []
  byBody_available := by simp
  entries_available := by simp

/-- Called by its name, the provider is linked. -/
theorem exported_once_iff_named : (buildOf ⟨"g", by decide⟩).Linked noTables := by
  have hms : (buildOf ⟨"g", by decide⟩).emitAll noTables [] = .ok _ := rfl
  exact ((exported_once_iff _ noTables []).2 _ hms).mp (by decide)

/-- Called by its identity under no name, the provider's symbol is exported by no module. -/
theorem unnamed_call_not_linked : ∃ ms, (buildOf noName).emitAll noTables [] = .ok ms ∧
    ∃ m ∈ ms, ∃ sym ∈ m.requiredSyms, (ms.map (·.identitySym)).count sym = 0 :=
  ⟨_, rfl, by decide⟩

end AxisBridge
