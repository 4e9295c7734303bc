import AxisBridge.Lib.Reach
import AxisBridge.Runtime.Lines
import Mathlib.Logic.Equiv.List

/-! The function registry: one file, which every insert reads, extends and writes again. -/
namespace AxisBridge.Registry
open List Function

structure RegistryEntry where
  qualifiedName : String
  hash : String
  provenance : String
  timestamp : String
  prevHash : Option String
  deriving DecidableEq

/-- What the JSON library makes of a store, and of a text. -/
structure Json where
  toStringPretty : List RegistryEntry → String
  fromStr : String → Option (List RegistryEntry)

/-- A store that was rendered is read back. -/
def Json.ReadsBack (json : Json) : Prop :=
  ∀ entries, json.fromStr (json.toStringPretty entries) = some entries

/-- The store a file's content stands for; no file is the empty store. -/
def Json.stored (json : Json) : Option Bytes → Option (List RegistryEntry)
  | none => some []
  | some content => (strFromUtf8 content).bind json.fromStr

/-- `load_registry`, with what the read of the file gave, if it gave anything. -/
def loadRegistry (json : Json) (got : Option Bytes) : List RegistryEntry :=
  (got.bind fun content => (strFromUtf8 content).bind json.fromStr).getD []

def computeHash [Sha256] (entry : RegistryEntry) : String :=
  sha256Hex (textBytes s!"{entry.qualifiedName}:{entry.provenance}:{entry.timestamp}")

def insertArgs : Value → Except String (String × String × String)
  | .tuple (.str name :: .str hash :: .str provenance :: _) => .ok (name, hash, provenance)
  | .tuple (_ :: _ :: _ :: _) => .error "insert expects Tuple(Str, Str, Str)"
  | _ => .error "insert expects Tuple(name, hash, provenance)"

/-- `registry_insert` between the load and the save: the entry it pushes, or the reason of its
`Err`. -/
def newEntry [Sha256] (v : Value) (entries : List RegistryEntry) (timestamp : String) :
    Except String RegistryEntry :=
  match insertArgs v with
  | .error why => .error why
  | .ok (name, binaryHash, provenance) =>
    if provenance ≠ "Human" ∧ provenance ≠ "OraclePromoted" then
      .error "provenance must be Human or OraclePromoted"
    else if entries.any (·.qualifiedName == name) then
      .error "entry already exists (registry is append-only)"
    else
      let entry : RegistryEntry := ⟨name, "", provenance, timestamp, entries.getLast?.map (·.hash)⟩
      .ok { entry with hash := if binaryHash = "" then computeHash entry else binaryHash }

/-- Each entry names the hash of the one before it. -/
def linked : RegistryEntry → List RegistryEntry → Bool
  | _, [] => true
  | before, entry :: rest => entry.prevHash == some before.hash && linked entry rest

def registryVerifyChain : List RegistryEntry → Bool
  | [] => true
  | first :: rest => first.prevHash.isNone && linked first rest

/-- An insert in progress: with the store it loaded and the entry to push, or in the middle of
`std::fs::write` at an offset of the new text. -/
inductive Insert
  | ready (entries : List RegistryEntry) (entry : RegistryEntry)
  | writing (entry : RegistryEntry) (text : Bytes) (offset : ℕ)

/-- The file, the inserts of all processes, and the entries of those that returned `Ok`. -/
structure World where
  file : Option Bytes
  calls : ℕ → Option Insert
  inserted : List RegistryEntry

def World.boot (file : Option Bytes) : World := ⟨file, fun _ => none, []⟩

def World.put (w : World) (id : ℕ) (c : Option Insert) : World :=
  { w with calls := update w.calls id c }

/-- Bytes written at an offset; a gap before them reads as zeros. -/
def overwrite (data : Bytes) (offset : ℕ) (bs : Bytes) : Bytes :=
  data.take offset ++ replicate (offset - data.length) 0 ++ bs ++ data.drop (offset + bs.length)

inductive Action
  | load (id : ℕ)
  | truncate (id : ℕ)
  | write (id : ℕ)
  | ret (id : ℕ)
  | stop (id : ℕ)

/-- One step of an insert. A read may fail, and one that overlaps a write may give anything. -/
inductive Step [Sha256] (json : Json) : Action → World → World → Prop
  | load {w id v got timestamp entry} (hid : w.calls id = none)
      (hnew : newEntry v (loadRegistry json got) timestamp = .ok entry) :
      Step json (.load id) w (w.put id (some (.ready (loadRegistry json got) entry)))
  -- `Err`, with the file as it was
  | refuse {w id v got timestamp why} (hid : w.calls id = none)
      (hnew : newEntry v (loadRegistry json got) timestamp = .error why) : Step json (.load id) w w
  | truncate {w id entries entry} (hc : w.calls id = some (.ready entries entry)) :
      Step json (.truncate id) w
        (World.put { w with file := some [] } id
          (some (.writing entry (textBytes (json.toStringPretty (entries ++ [entry]))) 0)))
  | write {w id entry text offset bs rest} (hc : w.calls id = some (.writing entry text offset))
      (hne : bs ≠ []) (htext : text.drop offset = bs ++ rest) :
      Step json (.write id) w
        (World.put { w with file := some (overwrite (w.file.getD []) offset bs) } id
          (some (.writing entry text (offset + bs.length))))
  | ret {w id entry text} (hc : w.calls id = some (.writing entry text text.length)) :
      Step json (.ret id) w (World.put { w with inserted := entry :: w.inserted } id none)
  -- the process ends, or its call ends with `Err`
  | stop {w id} : Step json (.stop id) w (w.put id none)

/-- The insert has bytes of its text left to write. -/
def World.Unfinished (w : World) (id : ℕ) : Prop :=
  ∃ entry text offset, w.calls id = some (.writing entry text offset) ∧ offset < text.length

/-- No insert is in the middle of its write. -/
def World.Quiet (w : World) : Prop := ∀ id, ¬ w.Unfinished id

/-- The file is truncated only when it stands for the store its insert loaded, and is then written
to the end by that insert alone. -/
def Careful (json : Json) (w : World) : Action → Prop
  | .truncate id => w.Quiet ∧
      ∀ entries entry, w.calls id = some (.ready entries entry) → json.stored w.file = some entries
  | .stop id => ¬ w.Unfinished id
  | _ => True

section
variable {json : Json} {entries : List RegistryEntry} {entry : RegistryEntry}

/-! ### What one insert adds -/

/-- The entry has a new name, and names the hash of the last one. -/
structure Fits (entries : List RegistryEntry) (entry : RegistryEntry) : Prop where
  name : entry.qualifiedName ∉ entries.map (·.qualifiedName)
  prev : entry.prevHash = entries.getLast?.map (·.hash)

theorem fits_newEntry [Sha256] {v : Value} {timestamp : String}
    (h : newEntry v entries timestamp = .ok entry) : Fits entries entry := by
  simp only [newEntry] at h
  split at h
  · cases h
  · split at h
    · cases h
    · split at h
      · cases h
      · rename_i hname
        cases h
        refine ⟨?_, rfl⟩
        intro hmem
        obtain ⟨e, he, heq⟩ := mem_map.mp hmem
        exact hname (any_eq_true.mpr ⟨e, he, beq_iff_eq.mpr heq⟩)

theorem linked_append (before : RegistryEntry) (rest : List RegistryEntry) :
    linked before (rest ++ [entry]) =
      (linked before rest && entry.prevHash == (before :: rest).getLast?.map (·.hash)) := by
  induction rest generalizing before with
  | nil => simp [linked]
  | cons e rest ih =>
    rw [cons_append, linked, linked, ih e, getLast?_cons_cons, Bool.and_assoc]

theorem registryVerifyChain_append (h : registryVerifyChain entries = true)
    (hprev : entry.prevHash = entries.getLast?.map (·.hash)) :
    registryVerifyChain (entries ++ [entry]) = true := by
  cases entries with
  | nil => simp [registryVerifyChain, linked, hprev]
  | cons first rest =>
    simp only [registryVerifyChain, Bool.and_eq_true] at h
    simp only [cons_append, registryVerifyChain, linked_append, h, hprev, beq_self_eq_true,
      Bool.and_self]

/-- A store without a repeated name, that extends `base` and keeps its chain. -/
structure Good (base entries : List RegistryEntry) : Prop where
  extends_ : base <+: entries
  names : (base.map (·.qualifiedName)).Nodup → (entries.map (·.qualifiedName)).Nodup
  chain : registryVerifyChain base = true → registryVerifyChain entries = true

theorem Good.refl (base : List RegistryEntry) : Good base base :=
  ⟨prefix_refl base, fun h => h, fun h => h⟩

theorem Good.append {base : List RegistryEntry} (h : Good base entries)
    (hfits : Fits entries entry) : Good base (entries ++ [entry]) := by
  refine ⟨h.extends_.trans (prefix_append _ _), fun hbase => ?_, fun hbase => ?_⟩
  · rw [map_append, nodup_append]
    refine ⟨h.names hbase, nodup_singleton _, ?_⟩
    rintro name hname name' hname' rfl
    rw [map_singleton, mem_singleton] at hname'
    exact hfits.name (hname' ▸ hname)
  · exact registryVerifyChain_append (h.chain hbase) hfits.prev

/-! ### The text as it grows -/

/-- The next piece of a text goes where the one before it ended. -/
theorem overwrite_take {text bs rest : Bytes} {offset : ℕ} (hle : offset ≤ text.length)
    (htext : text.drop offset = bs ++ rest) :
    overwrite (text.take offset) offset bs = text.take (offset + bs.length) := by
  have hlen : (text.take offset).length = offset := length_take_of_le hle
  have hpiece : bs = (text.drop offset).take bs.length := by rw [htext, take_left']; rfl
  have hgap : offset - (text.take offset).length = 0 := by omega
  have htail : (text.take offset).drop (offset + bs.length) = [] := by
    apply drop_eq_nil_of_le
    omega
  rw [overwrite, take_take, Nat.min_self, hgap, htail, append_nil, take_add, ← hpiece]
  simp

theorem stored_rendered (hjson : json.ReadsBack) :
    json.stored (some (textBytes (json.toStringPretty entries))) = some entries := by
  rw [Json.stored, strFromUtf8_textBytes, Option.bind_some]
  exact hjson entries

/-! ### The invariant of a run -/

variable {base cur : List RegistryEntry} {w w' : World} {id : ℕ} {a : Action}

/-- The insert has the file to itself: it holds the text of `cur` up to the offset. -/
def Underway (json : Json) (w : World) (cur : List RegistryEntry) (id : ℕ) : Prop :=
  ∃ entry text offset, w.calls id = some (.writing entry text offset) ∧ offset < text.length ∧
    text = textBytes (json.toStringPretty cur) ∧ w.file = some (text.take offset) ∧
    ∀ id', w.Unfinished id' → id' = id

/-- The registry is `cur`: the file stands for it, or is on its way to. -/
structure Holds (json : Json) (base : List RegistryEntry) (w : World) (cur : List RegistryEntry) :
    Prop where
  good : Good base cur
  inserted : ∀ e ∈ w.inserted, e ∈ cur
  ready : ∀ id entries entry, w.calls id = some (.ready entries entry) → Fits entries entry
  writing : ∀ id entry text offset, w.calls id = some (.writing entry text offset) →
    entry ∈ cur ∧ offset ≤ text.length
  file : w.Quiet ∧ json.stored w.file = some cur ∨ ∃ id, Underway json w cur id

theorem Holds.boot {file : Option Bytes} (hbase : json.stored file = some base) :
    Holds json base (.boot file) base := by
  refine ⟨Good.refl base, fun e he => (not_mem_nil he).elim, nofun, nofun, .inl ⟨?_, hbase⟩⟩
  rintro id ⟨entry, text, offset, hc, -⟩
  cases hc

theorem put_self {c : Option Insert} : (w.put id c).calls id = c := update_self ..

theorem put_ne {c : Option Insert} {id' : ℕ} (hne : id' ≠ id) :
    (w.put id c).calls id' = w.calls id' :=
  update_of_ne hne ..

/-- An insert that begins or ends, but not in the middle of its write. -/
theorem Holds.put (h : Holds json base w cur) (hid : ¬ w.Unfinished id) {c : Option Insert}
    (hc : ∀ c' ∈ c, ∃ entries entry, c' = .ready entries entry ∧ Fits entries entry) :
    Holds json base (w.put id c) cur := by
  have hunfinished : ∀ id', (w.put id c).Unfinished id' → w.Unfinished id' := by
    rintro id' ⟨entry, text, offset, hcall, hlt⟩
    rcases eq_or_ne id' id with rfl | hne
    · rw [put_self] at hcall
      obtain ⟨entries, entry', heq, -⟩ := hc _ hcall
      cases heq
    · exact ⟨entry, text, offset, put_ne hne ▸ hcall, hlt⟩
  refine ⟨h.good, h.inserted, ?_, ?_, ?_⟩
  · intro id' entries entry hcall
    rcases eq_or_ne id' id with rfl | hne
    · rw [put_self] at hcall
      obtain ⟨entries', entry', heq, hfits⟩ := hc _ hcall
      cases heq
      exact hfits
    · exact h.ready id' entries entry (put_ne hne ▸ hcall)
  · intro id' entry text offset hcall
    rcases eq_or_ne id' id with rfl | hne
    · rw [put_self] at hcall
      obtain ⟨entries', entry', heq, -⟩ := hc _ hcall
      cases heq
    · exact h.writing id' entry text offset (put_ne hne ▸ hcall)
  · rcases h.file with ⟨hquiet, hstored⟩ | ⟨id₀, entry, text, offset, hcall, hlt, htext, hfile,
      honly⟩
    · exact .inl ⟨fun id' h' => hquiet id' (hunfinished id' h'), hstored⟩
    · have hne : id₀ ≠ id := by
        rintro rfl
        exact hid ⟨entry, text, offset, hcall, hlt⟩
      exact .inr ⟨id₀, entry, text, offset, (put_ne hne).trans hcall, hlt, htext, hfile,
        fun id' h' => honly id' (hunfinished id' h')⟩

/-- An insert whose write has come to an offset of the text of `cur`, while no other is in the
middle of one. -/
theorem Holds.written (hjson : json.ReadsBack) (h : Holds json base w cur)
    {cur' : List RegistryEntry}
    (hgood : Good base cur') (hsub : cur <+: cur') {entry : RegistryEntry} (hentry : entry ∈ cur')
    {text : Bytes} {offset : ℕ} (htext : text = textBytes (json.toStringPretty cur'))
    (hle : offset ≤ text.length) (honly : ∀ id', w.Unfinished id' → id' = id) :
    Holds json base
      (World.put { w with file := some (text.take offset) } id (some (.writing entry text offset)))
      cur' := by
  have hothers : ∀ id', (World.put { w with file := some (text.take offset) } id
      (some (.writing entry text offset))).Unfinished id' → id' = id := by
    rintro id' ⟨entry', text', offset', hcall, hlt⟩
    by_contra hne
    rw [put_ne hne] at hcall
    exact hne (honly id' ⟨entry', text', offset', hcall, hlt⟩)
  refine ⟨hgood, fun e he => hsub.subset (h.inserted e he), ?_, ?_, ?_⟩
  · intro id' entries entry' hcall
    rcases eq_or_ne id' id with rfl | hne
    · rw [put_self] at hcall
      cases hcall
    · rw [put_ne hne] at hcall
      exact h.ready id' entries entry' hcall
  · intro id' entry' text' offset' hcall
    rcases eq_or_ne id' id with rfl | hne
    · rw [put_self] at hcall
      cases hcall
      exact ⟨hentry, hle⟩
    · rw [put_ne hne] at hcall
      obtain ⟨hmem, hle'⟩ := h.writing id' entry' text' offset' hcall
      exact ⟨hsub.subset hmem, hle'⟩
  · rcases Nat.lt_or_eq_of_le hle with hlt | heq
    · exact .inr ⟨id, entry, text, offset, put_self, hlt, htext, rfl, hothers⟩
    · refine .inl ⟨fun id' hun => ?_, ?_⟩
      · obtain rfl := hothers id' hun
        obtain ⟨entry', text', offset', hcall, hlt⟩ := hun
        rw [put_self] at hcall
        cases hcall
        omega
      · have hwhole : text.take offset = textBytes (json.toStringPretty cur') := by
          rw [heq, take_length, htext]
        rw [show (World.put { w with file := some (text.take offset) } id
          (some (.writing entry text offset))).file = some (text.take offset) from rfl, hwhole]
        exact stored_rendered hjson

theorem Holds.step [Sha256] (hjson : json.ReadsBack) (h : Holds json base w cur)
    (hok : Careful json w a) (hstep : Step json a w w') :
    ∃ cur', Holds json base w' cur' ∧ cur <+: cur' := by
  cases hstep with
  | @load _ id v got timestamp entry hid hnew =>
    have hidle : ¬ w.Unfinished id := by
      rintro ⟨entry, text, offset, hcall, -⟩
      cases hid.symm.trans hcall
    refine ⟨cur, h.put hidle ?_, prefix_refl cur⟩
    rintro c ⟨⟩
    exact ⟨_, _, rfl, fits_newEntry hnew⟩
  | refuse => exact ⟨cur, h, prefix_refl cur⟩
  | @truncate _ id entries entry hc =>
    obtain ⟨hquiet, hsame⟩ := hok
    have hcur : entries = cur := by
      rcases h.file with ⟨-, hstored⟩ | ⟨id₀, entry', text, offset, hcall, hlt, -⟩
      · exact Option.some.inj ((hsame entries entry hc).symm.trans hstored)
      · exact (hquiet id₀ ⟨entry', text, offset, hcall, hlt⟩).elim
    subst hcur
    have hfits := h.ready id entries entry hc
    refine ⟨entries ++ [entry], ?_, prefix_append _ _⟩
    exact h.written hjson (h.good.append hfits) (prefix_append _ _)
      (mem_append_right _ (mem_singleton_self _)) rfl (Nat.zero_le _)
      fun id' hun => (hquiet id' hun).elim
  | @write _ id entry text offset bs rest hc hne htext =>
    have hlen : (text.drop offset).length = bs.length + rest.length := by
      rw [htext, length_append]
    rw [length_drop] at hlen
    have hpos : 0 < bs.length := length_pos_iff.mpr hne
    have hun : w.Unfinished id := ⟨entry, text, offset, hc, by omega⟩
    rcases h.file with ⟨hquiet, -⟩ | ⟨id₀, entry₀, text₀, offset₀, hcall, hlt, htext₀, hfile, honly⟩
    · exact (hquiet id hun).elim
    · obtain rfl := honly id hun
      cases hc.symm.trans hcall
      refine ⟨cur, ?_, prefix_refl cur⟩
      rw [hfile, Option.getD_some, overwrite_take hlt.le htext]
      exact h.written hjson h.good (prefix_refl cur) (h.writing _ _ _ _ hc).1 htext₀
        (by omega) honly
  | @ret _ id entry text hc =>
    have hdone : Holds json base { w with inserted := entry :: w.inserted } cur := by
      refine ⟨h.good, fun e he => ?_, h.ready, h.writing, h.file⟩
      rcases mem_cons.mp he with rfl | he
      · exact (h.writing _ _ _ _ hc).1
      · exact h.inserted e he
    refine ⟨cur, hdone.put ?_ nofun, prefix_refl cur⟩
    rintro ⟨entry', text', offset', hcall, hlt⟩
    cases hc.symm.trans hcall
    exact lt_irrefl _ hlt
  | stop => exact ⟨cur, h.put hok nofun, prefix_refl cur⟩

theorem Holds.run [Sha256] (hjson : json.ReadsBack) (h : Holds json base w cur)
    (hrun : Reaches (Step json) (Careful json) w w') :
    ∃ cur', Holds json base w' cur' ∧ cur <+: cur' := by
  induction hrun with
  | refl => exact ⟨cur, h, prefix_refl cur⟩
  | tail _ hstep ih =>
    obtain ⟨cur₁, h₁, hpre⟩ := ih
    obtain ⟨a, hok, hstep⟩ := hstep
    obtain ⟨cur₂, h₂, hpre'⟩ := h₁.step hjson hok hstep
    exact ⟨cur₂, h₂, hpre.trans hpre'⟩

theorem Holds.stored (h : Holds json base w cur) (hquiet : w.Quiet) :
    json.stored w.file = some cur := by
  rcases h.file with ⟨-, hstored⟩ | ⟨id, entry, text, offset, hcall, hlt, -⟩
  · exact hstored
  · exact (hquiet id ⟨entry, text, offset, hcall, hlt⟩).elim

/-- No insert has truncated the file. -/
structure Untouched (file : Option Bytes) (w : World) : Prop where
  file : w.file = file
  inserted : w.inserted = []
  ready : ∀ id entry text offset, w.calls id ≠ some (.writing entry text offset)

theorem Untouched.put {file : Option Bytes} (h : Untouched file w) {c : Option Insert}
    (hc : ∀ entry text offset, c ≠ some (.writing entry text offset)) :
    Untouched file (w.put id c) := by
  refine ⟨h.file, h.inserted, fun id' entry text offset hcall => ?_⟩
  rcases eq_or_ne id' id with rfl | hne
  · exact hc entry text offset (put_self.symm.trans hcall)
  · exact h.ready id' entry text offset ((put_ne hne).symm.trans hcall)

/-- A content that is no store stays as it is. -/
theorem Untouched.step [Sha256] {file : Option Bytes} (hfile : json.stored file = none)
    (h : Untouched file w) (hok : Careful json w a) (hstep : Step json a w w') :
    Untouched file w' := by
  cases hstep with
  | load => exact h.put nofun
  | refuse => exact h
  | truncate hc =>
    have hsame := hok.2 _ _ hc
    rw [h.file, hfile] at hsame
    cases hsame
  | write hc | ret hc => exact (h.ready _ _ _ _ hc).elim
  | stop => exact h.put nofun

end

/-- In a run of careful steps the registry only grows: it keeps its entries in their order, has
those of the inserts that returned, no name twice, and its chain from no file on. A file that is no
registry stays. -/
theorem registry_append_only [Sha256] {json : Json} (hjson : json.ReadsBack)
    {file : Option Bytes} {w w' : World} (hrun : Reaches (Step json) (Careful json) (.boot file) w)
    (hrun' : Reaches (Step json) (Careful json) w w') (hw : w.Quiet) (hw' : w'.Quiet) :
    (json.stored file = none → w.file = file ∧ w.inserted = []) ∧
      ∀ base, json.stored file = some base → ∃ entries entries',
        json.stored w.file = some entries ∧ json.stored w'.file = some entries' ∧
          base <+: entries ∧ entries <+: entries' ∧ (∀ e ∈ w.inserted, e ∈ entries) ∧
          ((base.map (·.qualifiedName)).Nodup → (entries.map (·.qualifiedName)).Nodup) ∧
          (file = none → registryVerifyChain entries = true) := by
  constructor
  · intro hfile
    have h : Untouched file w :=
      hrun.invariant (fun hw hok hstep => Untouched.step hfile hw hok hstep) ⟨rfl, rfl, nofun⟩
    exact ⟨h.file, h.inserted⟩
  · intro base hbase
    obtain ⟨entries, h, -⟩ := (Holds.boot hbase).run hjson hrun
    obtain ⟨entries', h', hpre⟩ := h.run hjson hrun'
    refine ⟨entries, entries', h.stored hw, h'.stored hw', h.good.extends_, hpre, h.inserted,
      h.good.names, ?_⟩
    rintro rfl
    cases hbase
    exact h.good.chain rfl

/-! ### A registry of one entry -/

def sample : RegistryEntry := ⟨"m.f", "00", "Human", "0", none⟩

def sampleFields : String :=
  "\n  \"entries\": [\n    \x7b\n      \"qualified_name\": \"m.f\",\n      \"hash\": \"00\",\n" ++
    "      \"provenance\": \"Human\",\n      \"timestamp\": \"0\",\n" ++
    "      \"prev_hash\": null\n    \x7d\n" ++
    "  ]\n\x7d"

def sampleText : String := "\x7b" ++ sampleFields

theorem toList_sampleText : sampleText.toList = '\x7b' :: sampleFields.toList :=
  String.toList_append

def charCodes (s : String) : List ℕ := s.toList.map Char.toNat

def ofCharCodes (codes : List ℕ) : String := String.ofList (codes.map Char.ofNat)

@[simp] theorem ofCharCodes_charCodes (s : String) : ofCharCodes (charCodes s) = s := by
  have hid : (Char.ofNat ∘ Char.toNat) = id := funext Char.ofNat_toNat
  rw [ofCharCodes, charCodes, map_map, hid, map_id, String.ofList_toList]

abbrev EntryCode := List ℕ × List ℕ × List ℕ × List ℕ × Option (List ℕ)

def entryCode (e : RegistryEntry) : EntryCode :=
  (charCodes e.qualifiedName, charCodes e.hash, charCodes e.provenance, charCodes e.timestamp,
    e.prevHash.map charCodes)

def ofEntryCode (c : EntryCode) : RegistryEntry :=
  ⟨ofCharCodes c.1, ofCharCodes c.2.1, ofCharCodes c.2.2.1, ofCharCodes c.2.2.2.1,
    c.2.2.2.2.map ofCharCodes⟩

theorem ofEntryCode_entryCode (e : RegistryEntry) : ofEntryCode (entryCode e) = e := by
  obtain ⟨name, hash, provenance, timestamp, prev⟩ := e
  cases prev <;> simp [ofEntryCode, entryCode]

/-- The sample's JSON and the empty text; other stores in a numbering of their own. -/
@[reducible] def sampleJson : Json where
  toStringPretty entries :=
    if entries = [sample] then sampleText
    else String.ofList (replicate (Encodable.encode (entries.map entryCode) + 1) 'x')
  fromStr text :=
    if text = sampleText then some [sample]
    else if text = "" then none
    else
      (Encodable.decode (text.toList.length - 1) : Option (List EntryCode)).map (·.map ofEntryCode)

theorem sampleJson_readsBack : sampleJson.ReadsBack := by
  intro entries
  by_cases hentries : entries = [sample]
  · simp [hentries]
  · have htext : String.ofList
        (replicate (Encodable.encode (entries.map entryCode) + 1) 'x') ≠ sampleText := by
      intro heq
      have hlist := congrArg String.toList heq
      rw [String.toList_ofList, replicate_succ, toList_sampleText] at hlist
      exact absurd (List.cons.inj hlist).1 (by decide)
    have hne : String.ofList
        (replicate (Encodable.encode (entries.map entryCode) + 1) 'x') ≠ "" := by
      intro heq
      have hlist := congrArg String.toList heq
      rw [String.toList_ofList, replicate_succ] at hlist
      cases hlist
    have hback : ofEntryCode ∘ entryCode = id := funext ofEntryCode_entryCode
    simp [if_neg hentries, if_neg htext, hback]

/-- The whole text in one `write`, right after the truncation. -/
theorem Step.writeAll [Sha256] {json : Json} {w : World} {id : ℕ} {entry : RegistryEntry}
    {text : Bytes} (hc : w.calls id = some (.writing entry text 0)) (hfile : w.file = some [])
    (hne : text ≠ []) :
    Step json (.write id) w
      (World.put { w with file := some text } id (some (.writing entry text text.length))) := by
  have hstep : Step json (.write id) w _ := .write hc hne (show text.drop 0 = text ++ [] by simp)
  simpa [hfile, overwrite] using hstep

def sampleValue : Value := .tuple [.str "m.f", .str "00", .str "Human"]

/-- The sample is inserted where no file was. -/
theorem sample_inserted [Sha256] (ok : World → Action → Prop)
    (hok : ∀ {w a}, Careful sampleJson w a → ok w a) :
    ∃ w, Reaches (Step sampleJson) ok (.boot none) w ∧ w.inserted = [sample] ∧
      sampleJson.stored w.file = some [sample] ∧ ∀ id, w.calls id = none := by
  have htext : sampleJson.toStringPretty [sample] = sampleText := by simp
  have hne : textBytes sampleText ≠ [] := by
    intro heq
    have hlist := congrArg String.toList (textBytes_eq_nil heq)
    rw [toList_sampleText] at hlist
    cases hlist
  have hloaded : Reaches (Step sampleJson) ok (.boot none)
      ((World.boot none).put 0 (some (.ready [] sample))) := by
    have hstep : Step sampleJson (.load 0) (.boot none)
        ((World.boot none).put 0 (some (.ready (loadRegistry sampleJson none) sample))) :=
      .load rfl (show newEntry sampleValue _ "0" = .ok sample from rfl)
    exact .of_step (a := .load 0) (hok trivial) hstep
  have hquiet : World.Quiet ((World.boot none).put 0 (some (.ready [] sample))) := by
    rintro id ⟨entry, text, offset, hcall, -⟩
    rcases eq_or_ne id 0 with rfl | hid
    · cases hcall
    · rw [put_ne hid] at hcall
      cases hcall
  have htruncated := hloaded.next (a := Action.truncate 0)
    (hok ⟨hquiet, by rintro entries entry ⟨⟩; rfl⟩) (.truncate rfl)
  rw [nil_append, htext] at htruncated
  have hwritten := htruncated.next (a := Action.write 0) (hok trivial) (.writeAll rfl rfl hne)
  have hreturned := hwritten.next (a := Action.ret 0) (hok trivial) (.ret rfl)
  refine ⟨_, hreturned, rfl, ?_, ?_⟩
  · have hstored : sampleJson.stored (some (textBytes (sampleJson.toStringPretty [sample]))) = _ :=
      stored_rendered sampleJson_readsBack
    rwa [htext] at hstored
  · simp [World.put, World.boot]

attribute [local instance] textDigests

theorem registry_append_only_sample : ∃ w : World,
    Reaches (Step sampleJson) (Careful sampleJson) (.boot none) w ∧ w.inserted = [sample] ∧
      ∃ entries, sampleJson.stored w.file = some entries ∧ sample ∈ entries ∧
        registryVerifyChain entries = true := by
  obtain ⟨w, hrun, hinserted, -, hidle⟩ := sample_inserted (Careful sampleJson) fun hok => hok
  have hquiet : w.Quiet := by
    rintro id ⟨entry, text, offset, hcall, -⟩
    cases (hidle id).symm.trans hcall
  obtain ⟨entries, -, hstored, -, -, -, hmem, -, hchain⟩ :=
    (registry_append_only sampleJson_readsBack hrun (.refl w) hquiet hquiet).2 [] rfl
  exact ⟨w, hrun, hinserted, entries, hstored, hmem sample (hinserted ▸ mem_singleton_self _),
    hchain rfl⟩

/-- The process of a second insert ends after the truncation; the file stands for no store, and the
next load takes it for the empty one. -/
theorem registry_loses_entry : ∃ w w' : World,
    Reaches (Step sampleJson) anyAction (.boot none) w ∧ Reaches (Step sampleJson) anyAction w w' ∧
      sampleJson.stored w.file = some [sample] ∧ sample ∈ w.inserted ∧ sample ∈ w'.inserted ∧
      w'.Quiet ∧ sampleJson.stored w'.file = none ∧ loadRegistry sampleJson w'.file = [] := by
  obtain ⟨w, hrun, hinserted, hstored, hidle⟩ := sample_inserted anyAction fun _ => trivial
  have hmem : sample ∈ w.inserted := hinserted ▸ mem_singleton_self _
  have hread : loadRegistry sampleJson w.file = [sample] := by
    cases hfile : w.file with
    | none =>
      rw [hfile] at hstored
      cases hstored
    | some content =>
      rw [hfile] at hstored
      exact congrArg (Option.getD · []) hstored
  have hloaded : Reaches (Step sampleJson) anyAction w
      (w.put 0 (some (.ready (loadRegistry sampleJson w.file) _))) :=
    .of_step (a := .load 0) trivial (.load (hidle 0)
      (show newEntry (.tuple [.str "m.g", .str "01", .str "Human"]) _ "1" =
        .ok ⟨"m.g", "01", "Human", "1", some "00"⟩ by rw [hread]; rfl))
  have htruncated := hloaded.next (a := .truncate 0) trivial (.truncate put_self)
  have hstopped := htruncated.next (a := .stop 0) trivial .stop
  have hnone : sampleJson.stored (some []) = none := by
    have hempty : strFromUtf8 [] = some "" := strFromUtf8_textBytes (s := "")
    have hne : "" ≠ sampleText := by
      intro heq
      have hlist := congrArg String.toList heq
      rw [toList_sampleText] at hlist
      cases hlist
    rw [Json.stored, hempty, Option.bind_some]
    simp only [if_neg hne, if_true]
  refine ⟨w, _, hrun, hstopped, hstored, hmem, hmem, ?_, hnone, ?_⟩
  · rintro id ⟨entry, text, offset, hcall, -⟩
    rcases eq_or_ne id 0 with rfl | hid
    · rw [put_self] at hcall
      cases hcall
    · rw [put_ne hid, put_ne hid, put_ne hid] at hcall
      cases (hidle id).symm.trans hcall
  · exact congrArg (Option.getD · []) hnone

end AxisBridge.Registry
