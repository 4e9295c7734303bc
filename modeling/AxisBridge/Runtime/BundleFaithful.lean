import AxisBridge.Runtime.BundleView

/-! What is read back of a value that was written as a bundle. -/
namespace AxisBridge.IrBundle
open List Function
open IrEval (makeCtor)
open IrEval.TagTable Res

/-- A text with its letters in lower case. -/
def lowerText (s : String) : String := String.ofList (s.toList.map Char.toLower)

def lowerHex : Value → Value
  | .str s => .str (lowerText s)
  | v => v

def lowerEntry : Value → Value
  | .tuple [defHash, payload] => .tuple [lowerHex defHash, lowerHex payload]
  | v => v

def lowerNode (tags : Tags) : Value → Value
  | .ctor tag [hexId, name, refs] =>
    if tags.part tag = .ccall then
      .ctor tag [lowerHex hexId, name, refs] else .ctor tag [hexId, name, refs]
  | v => v

/-- The value with the hexadecimal texts of a bundle in lower case. -/
def lowered (tags : Tags) : Value → Value
  | .ctor tag [.list pool, .list nodes, r] =>
    if tags.part tag = .bundle05 then
      .ctor tag [.list (pool.map lowerEntry), .list (nodes.map (lowerNode tags)), r]
    else .ctor tag [.list pool, .list nodes, r]
  | v => v

/-- The write refuses the value with an error, or the file that it leaves is read back as the same
value up to letter case. -/
def Faithful [Sha256] (tags : Tags) (debug : Value → String) (v : Value) : Prop :=
  ∀ (disk : Disk) (failed : Option String) (path : String),
    (∃ e, irWriteBundle tags debug disk failed v path = .error (.err e)) ∨
    ∃ disk' v', irWriteBundle tags debug disk failed v path = .ok disk' ∧
      irReadBundle tags disk' path = .ok v' ∧ lowered tags v' = lowered tags v

/-- No text of the value is cut inside a character, and what the value denotes breaks a block rule,
or else it is in range and the value shows it. -/
def Sound [Sha256] (tags : Tags) (v : Value) : Prop :=
  ¬ TornBundle tags v ∧ ∀ b, Denotes tags v b →
    (∃ e, verifyBlocks b = .error (.err e)) ∨ b.InRange ∧ Shows tags v b

/-! ### The view of a bundle -/

section
variable {tags : Tags} {debug : Value → String} {v : Value} {x : NodeRef} {e : ConstantPoolEntry}
  {n : Node} {b : CoreBundle} {s : String} {bytes : Bytes}

theorem Part.name_of (h : Part.of s ≠ .other) : (Part.of s).name = s := by
  unfold Part.of at h ⊢
  split <;> simp_all [Part.name]

theorem Part.of_name (p : Part) : Part.of p.name = p := by
  cases p <;> rfl

theorem part_internTag {p : Part} (hp : p ≠ .other) : tags.part (tags.internTag p.name) = p := by
  have hmem := tags.interned p hp
  have hlt := idxOf_lt_length_of_mem hmem
  have hsize := tags.length_le
  have hnat : (UInt32.ofNat (tags.names.idxOf p.name)).toNat = tags.names.idxOf p.name := by
    rw [UInt32.toNat_ofNat']
    omega
  have hname : tags.getTagName (tags.internTag p.name) = p.name := by
    rw [getTagName, internTag, hnat, getElem?_eq_getElem hlt, getElem_idxOf hlt]
    rfl
  rw [Tags.part, hname, Part.of_name]

theorem internTag_of_part {p : Part} {tag : UInt32} (hp : p ≠ .other) (h : tags.part tag = p) :
    tags.internTag p.name = tag := by
  have hname : tags.getTagName tag = p.name := by
    rw [← h]
    exact (Part.name_of (by rw [← Tags.part, h]; exact hp)).symm
  refine internTag_getTagName hname ?_
  intro hunknown
  have hof := Part.of_name p
  rw [hunknown] at hof
  exact hp hof.symm

/-- A constructor of the view is one with the name's tag. -/
theorem ctor_eq_iff {p : Part} (hp : p ≠ .other) {tag : UInt32} {fields fields' : List Value} :
    .ctor tag fields = makeCtor tags.toTagTable p.name fields' ↔
      tags.part tag = p ∧ fields = fields' := by
  constructor
  · intro h
    injection h with htag hfields
    refine ⟨?_, hfields⟩
    rw [htag]
    exact part_internTag hp
  · rintro ⟨htag, rfl⟩
    rw [makeCtor, internTag_of_part hp htag]

theorem exact_iff {i : Int64} {k : UInt32} : Exact i k ↔ i = Int64.ofNat k.toNat := by
  have hk := k.toNat_lt
  rw [Exact, ← Int64.toInt_inj, Int64.toInt_ofNat_of_lt (by omega)]

theorem Exact.cast {i : Int64} {k : UInt32} (h : Exact i k) : Cast i k := by
  have hk := k.toNat_lt
  have hmod : ((k.toNat : ℤ) % 2 ^ 32).toNat = k.toNat := by omega
  rw [Cast, h, UInt32.ofInt, hmod, UInt32.ofNat_toNat]

theorem toLower_eq_hexDigit (c : Char) {d : ℕ} (hd : d < 16) :
    c.toLower = hexDigit d ↔ hexVal c = some d := by
  have hdigit := toNat_hexDigit d hd
  by_cases hupper : 'A'.val ≤ c.val ∧ c.val ≤ 'Z'.val
  · have hlow : 65 ≤ c.toNat := hupper.1
    have hhigh : c.toNat ≤ 90 := hupper.2
    have hlower : c.toLower = _ := dif_pos hupper
    have hval := congrArg Char.toNat hlower
    simp [UInt32.toNat_add] at hval
    rw [hexVal_eq_some]
    constructor
    · intro h
      rw [h, hdigit] at hval
      split at hval <;> omega
    · intro h
      apply char_ext
      rw [hdigit]
      split <;> omega
  · have hlower : c.toLower = c := dif_neg hupper
    have hrange : ¬ (65 ≤ c.toNat ∧ c.toNat ≤ 90) := hupper
    rw [hlower]
    constructor
    · rintro rfl
      exact hexVal_hexDigit hd
    · intro h
      apply eq_hexDigit h
      rintro ⟨hlow, hhigh⟩
      omega

theorem toList_bytesToHex (bytes : Bytes) :
    (bytesToHex bytes).toList = (nibbles bytes).map hexDigit := by
  rw [bytesToHex, String.toList_ofList, nibbles, map_flatMap]
  rfl

theorem map_eq_map_iff {α β γ : Type} {f : α → γ} {g : β → γ} {R : α → β → Prop} {xs : List α}
    {ys : List β} (h : ∀ x, ∀ y ∈ ys, f x = g y ↔ R x y) :
    xs.map f = ys.map g ↔ Forall₂ R xs ys := by
  induction xs generalizing ys with
  | nil =>
    rw [map_nil, List.forall₂_nil_left_iff]
    cases ys with
    | nil => exact iff_of_true rfl rfl
    | cons y ys => exact iff_of_false (cons_ne_nil _ _).symm (cons_ne_nil _ _)
  | cons x xs ih =>
    cases ys with
    | nil =>
      refine iff_of_false (cons_ne_nil _ _) ?_
      intro hxy
      cases hxy
    | cons y ys =>
      rw [map_cons, map_cons, List.cons.injEq, List.forall₂_cons, h x y mem_cons_self,
        ih fun x' y' hy' => h x' y' (mem_cons_of_mem _ hy')]

theorem lowerText_eq_hex :
    (lowerText s).toList = (nibbles bytes).map hexDigit ↔ Spelled s.toList bytes := by
  have hdigits : ∀ c, ∀ d ∈ nibbles bytes, Char.toLower c = hexDigit d ↔
    hexVal c = some d := fun c d hd =>
    toLower_eq_hexDigit c (nibbles_lt hd)
  rw [lowerText, String.toList_ofList, Spelled, map_eq_map_iff hdigits]
  exact (map_eq_map_iff fun c d _ => Iff.rfl).symm

theorem lowerHex_eq_hex :
    lowerHex v = .str (bytesToHex bytes) ↔ ∃ s, v = .str s ∧ Spelled s.toList bytes := by
  cases v with
  | str s =>
    have htext : lowerHex (.str s) = .str (bytesToHex bytes) ↔ Spelled s.toList bytes := by
      rw [← lowerText_eq_hex, ← toList_bytesToHex, String.toList_inj]
      constructor
      · intro h
        injection h
      · intro h
        exact congrArg Value.str h
    rw [htext]
    simp only [Value.str.injEq, exists_eq_left']
  | _ =>
    refine iff_of_false nofun ?_
    rintro ⟨s', hs, -⟩
    cases hs

theorem hash256ToHex_eq (h : Hash256) : hash256ToHex h = bytesToHex h.bytes := rfl

theorem eq_refValue_iff : v = refValue tags x ↔ RefOf tags Exact v x := by
  constructor
  · rintro rfl
    cases x with
    | pool k => exact .pool (part_internTag (p := .poolRef) (by decide)) (exact_iff.mpr rfl)
    | node k => exact .node (part_internTag (p := .nodeRef) (by decide)) (exact_iff.mpr rfl)
  · intro h
    cases h with
    | pool hpart hi =>
      rw [exact_iff.mp hi]
      exact (ctor_eq_iff (p := .poolRef) (by decide)).mpr ⟨hpart, rfl⟩
    | node hpart hi =>
      rw [exact_iff.mp hi]
      exact (ctor_eq_iff (p := .nodeRef) (by decide)).mpr ⟨hpart, rfl⟩

theorem eq_refValues_iff {refs : List Value} {args : List NodeRef} :
    refs = args.map (refValue tags) ↔ Forall₂ (RefOf tags Exact) refs args := by
  have hmap : refs.map id = args.map (refValue tags) ↔ Forall₂ (RefOf tags Exact) refs args :=
    map_eq_map_iff fun v x _ => eq_refValue_iff
  rwa [map_id] at hmap

theorem lowerEntry_eq_iff : lowerEntry v = entryValue e ↔ EntryOf Spelled v e := by
  constructor
  · intro h
    unfold lowerEntry at h
    split at h
    · injection h with h
      injection h with hhash h
      injection h with hpayload
      rw [hash256ToHex_eq, lowerHex_eq_hex] at hhash
      rw [lowerHex_eq_hex] at hpayload
      obtain ⟨s, rfl, hs⟩ := hhash
      obtain ⟨s', rfl, hs'⟩ := hpayload
      exact .entry hs hs'
    · next hother => exact absurd h (hother _ _)
  · intro h
    cases h with
    | entry hhash hpayload =>
      have hh := lowerHex_eq_hex.mpr ⟨_, rfl, hhash⟩
      have hp := lowerHex_eq_hex.mpr ⟨_, rfl, hpayload⟩
      rw [lowerEntry, hh, hp]
      rfl

theorem spelled_bytesToHex : Spelled (bytesToHex bytes).toList bytes := by
  rw [toList_bytesToHex]
  exact spelled_hexDigits

theorem shows_refValues (args : List NodeRef) :
    Forall₂ (RefOf tags Exact) (args.map (refValue tags)) args :=
  eq_refValues_iff.mp rfl

theorem shows_entryValue (e : ConstantPoolEntry) : EntryOf Spelled (entryValue e) e :=
  .entry spelled_bytesToHex spelled_bytesToHex

theorem shows_nodeValue (n : Node) : NodeOf tags Spelled Exact (nodeValue tags n) n := by
  have href : ∀ x, RefOf tags Exact (refValue tags x) x := fun x => eq_refValue_iff.mp rfl
  cases n with
  | ccall targetIdentity args targetName =>
    exact .ccall (part_internTag (p := .ccall) (by decide)) spelled_bytesToHex
      (shows_refValues args.toList)
  | cif cond then_ else_ =>
    exact .cif (part_internTag (p := .cif) (by decide)) (href cond) (href then_) (href else_)
  | cdeterminate => exact .cdeterminate (part_internTag (p := .cdeterminate) (by decide))
  | cblock => exact .cblock (part_internTag (p := .cblock) (by decide))
  | cend value => exact .cend (part_internTag (p := .cend) (by decide)) (href value)

/-- The view of a bundle shows it. -/
theorem shows_valueFromBundle05 (hb : b.version = "0.6") :
    Shows tags (valueFromBundle05 tags b) b := by
  obtain ⟨version, pool, nodes, result⟩ := b
  subst hb
  refine .bundle (part_internTag (p := .bundle05) (by decide)) ?_ ?_ (eq_refValue_iff.mp rfl)
  · rw [List.forall₂_map_left_iff, List.forall₂_same]
    exact fun e _ => shows_entryValue e
  · rw [List.forall₂_map_left_iff, List.forall₂_same]
    exact fun n _ => shows_nodeValue n

/-- The value of a call, by its tag and the number of its fields. -/
def IsCall (tags : Tags) (v : Value) : Prop :=
  ∃ tag hexId name refs, v = .ctor tag [hexId, name, refs] ∧ tags.part tag = .ccall

theorem lowerNode_of_not_call (h : ¬ IsCall tags v) : lowerNode tags v = v := by
  unfold lowerNode
  split
  · split
    · next hpart => exact absurd ⟨_, _, _, _, rfl, hpart⟩ h
    · rfl
  · rfl

theorem lowerNode_eq_iff : lowerNode tags v = nodeValue tags n ↔ NodeOf tags Spelled Exact v n := by
  by_cases hcall : IsCall tags v
  · obtain ⟨tag, hexId, name, refs, rfl, hpart⟩ := hcall
    rw [lowerNode, if_pos hpart]
    cases n with
    | ccall targetIdentity args targetName =>
      constructor
      · intro h
        obtain ⟨-, hfields⟩ := (ctor_eq_iff (p := .ccall) (by decide)).mp h
        injection hfields with hhex hfields
        injection hfields with hname hfields
        injection hfields with hrefs
        rw [hash256ToHex_eq, lowerHex_eq_hex] at hhex
        obtain ⟨s, rfl, hs⟩ := hhex
        rw [hname, hrefs]
        exact .ccall hpart hs (shows_refValues args.toList)
      · intro h
        cases h with
        | ccall _ hid hargs =>
          rw [lowerHex_eq_hex.mpr ⟨_, rfl, hid⟩, eq_refValues_iff.mpr hargs]
          exact (ctor_eq_iff (p := .ccall) (by decide)).mpr ⟨hpart, rfl⟩
    | cif cond then_ else_ =>
      refine iff_of_false (fun h => ?_) fun h => ?_
      · have hcif := ((ctor_eq_iff (p := .cif) (by decide)).mp h).1
        rw [hpart] at hcif
        cases hcif
      · cases h with
        | cif hcif _ _ _ =>
          rw [hpart] at hcif
          cases hcif
    | cdeterminate =>
      refine iff_of_false (fun h => ?_) fun h => by cases h
      have hfields := ((ctor_eq_iff (p := .cdeterminate) (by decide)).mp h).2
      cases hfields
    | cblock =>
      refine iff_of_false (fun h => ?_) fun h => by cases h
      have hfields := ((ctor_eq_iff (p := .cblock) (by decide)).mp h).2
      cases hfields
    | cend value =>
      refine iff_of_false (fun h => ?_) fun h => by cases h
      have hfields := ((ctor_eq_iff (p := .cend) (by decide)).mp h).2
      injection hfields with _ hfields
      cases hfields
  · rw [lowerNode_of_not_call hcall]
    constructor
    · rintro rfl
      exact shows_nodeValue n
    · intro h
      cases h with
      | ccall hpart hid hargs => exact absurd ⟨_, _, _, _, rfl, hpart⟩ hcall
      | cif hpart hcond hthen helse =>
        rw [eq_refValue_iff.mpr hcond, eq_refValue_iff.mpr hthen, eq_refValue_iff.mpr helse]
        exact (ctor_eq_iff (p := .cif) (by decide)).mpr ⟨hpart, rfl⟩
      | cdeterminate hpart => exact (ctor_eq_iff (p := .cdeterminate) (by decide)).mpr ⟨hpart, rfl⟩
      | cblock hpart => exact (ctor_eq_iff (p := .cblock) (by decide)).mpr ⟨hpart, rfl⟩
      | cend hpart hvalue =>
        rw [eq_refValue_iff.mpr hvalue]
        exact (ctor_eq_iff (p := .cend) (by decide)).mpr ⟨hpart, rfl⟩

/-- In lower case a value is the view of just the bundle that it shows. -/
theorem lowered_eq_iff (hb : b.version = "0.6") :
    lowered tags v = valueFromBundle05 tags b ↔ Shows tags v b := by
  have hpool : ∀ pool : List Value, pool.map lowerEntry = b.constantPool.map entryValue ↔
      Forall₂ (EntryOf Spelled) pool b.constantPool :=
        fun pool => map_eq_map_iff fun v e _ => lowerEntry_eq_iff
  have hnodes : ∀ nodes : List Value, nodes.map (lowerNode tags) = b.nodes.map (nodeValue tags) ↔
      Forall₂ (NodeOf tags Spelled Exact) nodes b.nodes :=
        fun nodes => map_eq_map_iff fun v n _ => lowerNode_eq_iff
  obtain ⟨version, entries, table, result⟩ := b
  subst hb
  constructor
  · intro h
    unfold lowered at h
    split at h
    · split at h
      · next hpart =>
        obtain ⟨-, hfields⟩ := (ctor_eq_iff (p := .bundle05) (by decide)).mp h
        injection hfields with hp hfields
        injection hfields with hn hfields
        injection hfields with hr
        injection hp with hp
        injection hn with hn
        exact .bundle hpart ((hpool _).mp hp) ((hnodes _).mp hn) (eq_refValue_iff.mp hr)
      · next hpart => exact absurd ((ctor_eq_iff (p := .bundle05) (by decide)).mp h).1 hpart
    · rw [h]
      exact shows_valueFromBundle05 rfl
  · intro h
    cases h with
    | bundle hpart hp hn hr =>
      rw [lowered, if_pos hpart, (hpool _).mpr hp, (hnodes _).mpr hn, eq_refValue_iff.mpr hr]
      exact (ctor_eq_iff (p := .bundle05) (by decide)).mpr ⟨hpart, rfl⟩

theorem version_of_denotes (h : Denotes tags v b) : b.version = "0.6" := by
  cases h with
  | bundle => rfl

theorem lengths_of_denotes (hv : Held v) (hb : Denotes tags v b) :
    b.constantPool.length < 2 ^ 63 ∧ b.nodes.length < 2 ^ 63 := by
  cases hb with
  | @bundle tag pool nodes r entries table result hpart hpool hnodes hresult =>
    have hp := hv.of_mem_ctor (v := .list pool) mem_cons_self
    have hn := hv.of_mem_ctor (v := .list nodes) (mem_cons_of_mem _ mem_cons_self)
    constructor
    · cases hp with
      | list hlen _ => exact hpool.length_eq ▸ hlen
    · cases hn with
      | list hlen _ => exact hnodes.length_eq ▸ hlen

/-- What shows a bundle denotes it. -/
theorem denotes_of_shows (h : Shows tags v b) : Denotes tags v b := by
  have hrefs : ∀ v x, RefOf tags Exact v x → RefOf tags Cast v x := by
    intro v x h
    cases h with
    | pool hpart hi => exact .pool hpart hi.cast
    | node hpart hi => exact .node hpart hi.cast
  cases h with
  | bundle hpart hpool hnodes hresult =>
    refine .bundle hpart (hpool.imp fun v e h => ?_) (hnodes.imp fun v n h => ?_)
      (hrefs _ _ hresult)
    · cases h with
      | entry hhash hpayload => exact .entry (.of_spelled hhash) (.of_spelled hpayload)
    · cases h with
      | ccall hpart hid hargs => exact .ccall hpart (.of_spelled hid) (hargs.imp hrefs)
      | cif hpart hcond hthen helse =>
        exact .cif hpart (hrefs _ _ hcond) (hrefs _ _ hthen) (hrefs _ _ helse)
      | cdeterminate hpart => exact .cdeterminate hpart
      | cblock hpart => exact .cblock hpart
      | cend hpart hvalue => exact .cend hpart (hrefs _ _ hvalue)

end

section
variable [Sha256] {tags : Tags} {debug : Value → String} {v : Value} {b : CoreBundle} {disk : Disk}
  {failed : Option String} {path e : String} {blocks : Blocks}
variable {file : Bytes}

theorem version_of_parseAxbi (h : parseAxbi file = .ok b) : b.version = "0.6" := by
  obtain ⟨bytes, -, hdecode⟩ := parseAxbi_eq h
  obtain ⟨c, blocks, hread, -, -⟩ := deserializeCanonical_eq.mp hdecode
  obtain ⟨c1, c2, c3, c4, poolCount, nodeCount, hversion, -⟩ := readBundle_eq hread
  exact hversion

theorem verified_of_parseAxbi (h : parseAxbi file = .ok b) :
    b.InRange ∧ ∃ blocks, verifyBlocks b = .ok blocks := by
  obtain ⟨bytes, -, hdecode⟩ := parseAxbi_eq h
  exact deserializeCanonical_verified hdecode

theorem valueToBundle05_eq_ok : valueToBundle05 tags debug v = .ok b ↔
    Denotes tags v b ∧ ∃ blocks, verifyBlocks b = .ok blocks := by
  rw [valueToBundle05, bind_eq_ok]
  constructor
  · rintro ⟨b', hb', h⟩
    obtain ⟨blocks, hblocks, h⟩ := bind_eq_ok.mp h
    obtain rfl := Except.ok.inj h
    exact ⟨parseBundle_eq_ok.mp hb', blocks, hblocks⟩
  · rintro ⟨hb, blocks, hblocks⟩
    exact ⟨b, parseBundle_eq_ok.mpr hb, bind_eq_ok.mpr ⟨blocks, hblocks, rfl⟩⟩

/-- A bundle that a loader accepts is the one its view is taken for. -/
theorem valueToBundle05_valueFromBundle05 (h : parseAxbi file = .ok b) :
    valueToBundle05 tags debug (valueFromBundle05 tags b) = .ok b :=
  valueToBundle05_eq_ok.mpr ⟨denotes_of_shows (shows_valueFromBundle05 (version_of_parseAxbi h)),
    (verified_of_parseAxbi h).2⟩

theorem crashes_valueToBundle05 : Crashes (valueToBundle05 tags debug v) ↔
    Crashes (parseBundle tags debug v) ∨ ∃ b, Denotes tags v b ∧ Crashes (verifyBlocks b) := by
  rw [valueToBundle05, crashes_bind]
  refine or_congr_right (exists_congr fun b => ?_)
  rw [parseBundle_eq_ok, crashes_bind]
  refine and_congr_right fun _ => ?_
  constructor
  · rintro (h | ⟨blocks, -, h⟩)
    · exact h
    · exact absurd h not_crashes_ok
  · exact .inl

theorem answers_of_faithful (h : Faithful tags debug v) :
    ¬ Crashes (valueToBundle05 tags debug v) := by
  intro hcrash
  have hwrite : Crashes (irWriteBundle tags debug (fun _ => none) none v "") :=
    crashes_bind.mpr (.inl (crashes_mapErr.mpr hcrash))
  rcases h (fun _ => none) none "" with ⟨e, he⟩ | ⟨disk', v', hok, -⟩
  · rw [he] at hwrite
    exact not_crashes_err hwrite
  · rw [hok] at hwrite
    exact not_crashes_ok hwrite

theorem irWriteBundle_ok (hb : Denotes tags v b) (hblocks : verifyBlocks b = .ok blocks) :
    irWriteBundle tags debug disk none v path =
      .ok (update disk path (some (serializeAxbi b))) := by
  have hvalue : valueToBundle05 tags debug v = .ok b :=
    valueToBundle05_eq_ok.mpr ⟨hb, blocks, hblocks⟩
  rw [irWriteBundle, hvalue]
  rfl

theorem irReadBundle_eq_ok {v' : Value} (hfile : disk path = some file) :
    irReadBundle tags disk path = .ok v' ↔
      ∃ b, parseAxbi file = .ok b ∧ v' = valueFromBundle05 tags b := by
  rw [irReadBundle, hfile]
  refine bind_eq_ok.trans (exists_congr fun b => ?_)
  rw [mapErr_eq_ok]
  refine and_congr_right fun _ => ?_
  constructor
  · intro h
    exact (Except.ok.inj h).symm
  · rintro rfl
    rfl

theorem sound_of_faithful (v : HeldValue) (h : Faithful tags debug v.value) :
    Sound tags v.value := by
  have hanswers := answers_of_faithful h
  rw [crashes_valueToBundle05, not_or] at hanswers
  obtain ⟨hparse, hverify⟩ := hanswers
  refine ⟨fun htorn => hparse ((crashes_parseBundle v.held).mpr htorn), fun b hb => ?_⟩
  rcases err_or_ok fun hcrash => hverify ⟨b, hb, hcrash⟩ with hrefused | ⟨blocks, hblocks⟩
  · exact .inl hrefused
  · right
    have hwrite : irWriteBundle tags debug (fun _ => none) none v.value "" =
        .ok (update (fun _ => none) "" (some (serializeAxbi b))) := irWriteBundle_ok hb hblocks
    rcases h (fun _ => none) none "" with ⟨e, he⟩ | ⟨disk', v', hok, hread, hsame⟩
    · rw [hwrite] at he
      cases he
    · obtain rfl := Except.ok.inj (hwrite.symm.trans hok)
      obtain ⟨b', hb', rfl⟩ := (irReadBundle_eq_ok (update_self _ _ _)).mp hread
      have hversion := version_of_parseAxbi hb'
      have hshows : Shows tags v.value b' := by
        rw [← lowered_eq_iff hversion, ← hsame, lowered_eq_iff hversion]
        exact shows_valueFromBundle05 hversion
      have hdenotes : parseBundle tags debug v.value = .ok b' :=
        parseBundle_eq_ok.mpr (denotes_of_shows hshows)
      obtain rfl := Except.ok.inj ((parseBundle_eq_ok.mpr hb).symm.trans hdenotes)
      exact ⟨(verified_of_parseAxbi hb').1, hshows⟩

theorem irWriteBundle_err (h : valueToBundle05 tags debug v = .error (.err e)) :
    irWriteBundle tags debug disk failed v path = .error (.err s!"ir_write_bundle: {e}") := by
  rw [irWriteBundle, h]
  rfl

theorem faithful_of_sound (v : HeldValue) (h : Sound tags v.value) :
    Faithful tags debug v.value := by
  obtain ⟨htorn, hsound⟩ := h
  intro disk failed path
  have hanswers : ¬ Crashes (valueToBundle05 tags debug v.value) := by
    rw [crashes_valueToBundle05]
    rintro (hparse | ⟨b, hb, hverify⟩)
    · exact htorn ((crashes_parseBundle v.held).mp hparse)
    · rcases hsound b hb with ⟨e, he⟩ | ⟨hrange, -⟩
      · rw [he] at hverify
        exact not_crashes_err hverify
      · exact verifyBlocks_answers hrange hverify
  rcases err_or_ok hanswers with ⟨e, he⟩ | ⟨b, hb⟩
  · exact .inl ⟨_, irWriteBundle_err he⟩
  · cases failed with
    | some e =>
      refine .inl ⟨s!"ir_write_bundle({path}): write failed: {e}", ?_⟩
      rw [irWriteBundle, hb]
      rfl
    | none =>
      obtain ⟨hdenotes, blocks, hblocks⟩ := valueToBundle05_eq_ok.mp hb
      rcases hsound b hdenotes with ⟨e, he⟩ | ⟨hrange, hshows⟩
      · rw [hblocks] at he
        cases he
      · have hversion := version_of_denotes hdenotes
        obtain ⟨hp, hn⟩ := lengths_of_denotes v.held hdenotes
        have hback : parseAxbi (serializeAxbi b) = .ok b :=
          (parseAxbi_header _).trans
            (deserializeCanonical_serialize hversion (by omega) (by omega) hrange hblocks)
        refine .inr ⟨_, _, irWriteBundle_ok hdenotes hblocks,
          (irReadBundle_eq_ok (update_self _ _ _)).mpr ⟨b, hback, rfl⟩, ?_⟩
        rw [(lowered_eq_iff hversion).mpr (shows_valueFromBundle05 hversion),
          (lowered_eq_iff hversion).mpr hshows]

/-- The view of a bundle that a loader accepts is taken for that bundle. A value that is written as
a bundle is refused with an error, or read back the same up to letter case, just where it is
sound. -/
theorem bundle_view_iff (tags : Tags) (debug : Value → String) :
    (∀ file b, parseAxbi file = .ok b → valueToBundle05 tags debug (valueFromBundle05 tags b) =
      .ok b) ∧ ∀ v : HeldValue, Faithful tags debug v.value ↔ Sound tags v.value :=
  ⟨fun _ _ h => valueToBundle05_valueFromBundle05 h,
    fun v => ⟨sound_of_faithful v, faithful_of_sound v⟩⟩

end

/-- The names of a bundle's parts alone. -/
def partTags : Tags where
  names := ["Bundle05", "PoolRef", "NodeRef", "CCall", "CIf", "CDeterminate", "CBlock", "CEnd"]
  nodup := by decide
  length_le := by decide
  interned := by
    intro part hpart
    cases part with
    | other => exact absurd rfl hpart
    | _ => decide

/-- A bundle with neither constants nor nodes. -/
def emptyBundle (result : NodeRef) : CoreBundle := ⟨"0.6", [], [], result⟩

attribute [local instance] knownDigests

theorem denotes_emptyBundle (result : NodeRef) :
    Denotes partTags (valueFromBundle05 partTags (emptyBundle result)) (emptyBundle result) :=
  denotes_of_shows (shows_valueFromBundle05 rfl)

theorem held_emptyBundle (result : NodeRef) :
    Held (valueFromBundle05 partTags (emptyBundle result)) := by
  have href : Held (refValue partTags result) := by
    cases result with
    | pool i | node i =>
      refine .ctor (show 1 < 2 ^ 63 by decide) fun v hv => ?_
      rw [mem_singleton.mp hv]
      exact .int
  have hnil : Held (.list []) := .list (by decide) fun v hv => absurd hv not_mem_nil
  refine .ctor (show 3 < 2 ^ 63 by decide) fun v hv => ?_
  rcases mem_cons.mp hv with rfl | hv
  · exact hnil
  · rcases mem_pair.mp hv with rfl | rfl
    · exact hnil
    · exact href

/-- With node `0` for the result the writer stops at an index, and with constant `0` it writes a
file that no loader accepts. -/
theorem empty_bundle_unfaithful :
    ¬ Faithful partTags (fun _ => "") (valueFromBundle05 partTags (emptyBundle (.node 0))) ∧
      ¬ Faithful partTags (fun _ => "") (valueFromBundle05 partTags (emptyBundle (.pool 0))) := by
  refine ⟨fun h => ?_, fun h => ?_⟩
  all_goals
    obtain ⟨-, hsound⟩ := sound_of_faithful ⟨_, held_emptyBundle _⟩ h
    rcases hsound _ (denotes_emptyBundle _) with ⟨e, he⟩ | ⟨hrange, -⟩
    · cases he
    · exact Nat.not_lt_zero _ hrange.result

end AxisBridge.IrBundle
