import AxisBridge.Runtime.Batched

/-! The field index: the posting list of each field and value, kept in the order of first arrival,
and when a resident read equals a fresh one. -/
namespace AxisBridge
open Function List Epochs

/-- The posting lists under `<field>\t<value>`; a key that was never seen has none. -/
abbrev FieldMap := String → List String

namespace FieldIndex

def fieldKey (field value : String) : String := s!"{field}\t{value}"

def pushDedup (list : List String) (hash : String) : List String :=
  if hash ∈ list then list else list ++ [hash]

/-- A hash under a key. -/
def post (map : FieldMap) (e : String × String) : FieldMap :=
  update map e.1 (pushDedup (map e.1) e.2)

/-- A line of the snapshot: the key up to the last tab, and the hash. -/
def snapshotEntry (line : String) : Option (String × String) := rsplitOnce '\t' line

def loadSnapshot : FieldMap → Option Bytes → FieldMap × ℤ × ℤ :=
  loadBatched "FIELDIDX1" snapshotEntry post

/-- What a payload declares: each cell of a record against the frame's own hash, or one hash given
in so many words. -/
def declared (text ownHash : String) : List (String × String) :=
  match split '\t' text with
  | [] => []
  | kind :: cells =>
    if kind = "RECORD" then
      cells.filterMap fun cell =>
        (splitOnce '=' cell).map fun p => (fieldKey p.1 p.2, s!"sha256:{ownHash}")
    else if kind = "FIELDIDX" then
      match cells with
      | [field, value, hash] => [(fieldKey field value, hash)]
      | _ => []
    else []

def indexPayload (map : FieldMap) (text ownHash : String) : FieldMap :=
  (declared text ownHash).foldl post map

def visit (map : FieldMap) (v : Visit) : FieldMap :=
  match strFromUtf8 v.payload with
  | some text => indexPayload map text v.hexh
  | none => map

def projection : Projection FieldMap where
  empty := fun _ => []
  loadSnapshot := loadSnapshot
  visitSegment := visit
  visitBlock := visit

/-- The posting list, a line feed between two hashes. -/
def answer (field value : String) (map : FieldMap) : String :=
  "\n".intercalate (map (fieldKey field value))

section
variable [Sha256] (preallocEnabled : Bool) (d : Volume)

/-- `fieldidx_res_get`. -/
def resGet (shard segPrefix snapPath field value : String) (t : Handles FieldMap) :
    Option (Handles FieldMap × String) :=
  AxisBridge.resGet projection preallocEnabled d shard segPrefix snapPath (answer field value) t

/-- `fieldidx_get` on a handle opened and rebuilt for it. -/
def freshGet (segPrefix snapPath field value : String) (t : Handles FieldMap) : Option String :=
  AxisBridge.freshGet projection preallocEnabled d segPrefix snapPath (answer field value) t

end

/-- The hash of a posting under the key. -/
def ofKey (key : String) (e : String × String) : Option String :=
    if e.1 = key then some e.2 else none

/-- What a frame declares for a key. -/
def hashes (key : String) (v : Visit) : List String :=
  match strFromUtf8 v.payload with
  | some text => (declared text v.hexh).filterMap (ofKey key)
  | none => []

/-- What the frames of each turn declare for a key. -/
def hashNews (key : String) (news : List (List Visit × List Visit)) :
    List (List String × List String) :=
  news.map fun e => (e.1.flatMap (hashes key), e.2.flatMap (hashes key))

/-- Two hashes of the key, new at the first read: a block had the one first, and the segments have
had the other first since the block was read. -/
def Overtaken (key : String) (map : FieldMap) (news : List (List Visit × List Visit)) : Prop :=
  Overtakes (map key) (hashNews key news)

variable {key : String} {map : FieldMap} {l m : List String}

theorem post_self (map : FieldMap) (e : String × String) :
    post map e e.1 = pushDedup (map e.1) e.2 := update_self ..

theorem post_of_ne {e : String × String} (h : key ≠ e.1) : post map e key = map key :=
  update_of_ne h ..

theorem foldl_post (l : List (String × String)) (map : FieldMap) : l.foldl post map key =
    firsts (map key) (l.filterMap (ofKey key)) := by
  induction l generalizing map with
  | nil => rfl
  | cons e l ih =>
    rw [foldl_cons, ih]
    by_cases hkey : e.1 = key
    · subst hkey
      have hpost : post map e e.1 = push (map e.1) e.2 := post_self map e
      have hown : ofKey e.1 e = some e.2 := if_pos rfl
      rw [hpost, filterMap_cons_some hown]
      rfl
    · have hother : ofKey key e = none := if_neg hkey
      rw [post_of_ne (Ne.symm hkey), filterMap_cons_none hother]

/-- What a frame declares, all keys together. -/
def postings (v : Visit) : List (String × String) :=
  match strFromUtf8 v.payload with
  | some text => declared text v.hexh
  | none => []

theorem visit_eq (map : FieldMap) (v : Visit) : visit map v = (postings v).foldl post map := by
  unfold visit postings
  cases strFromUtf8 v.payload <;> rfl

theorem hashes_eq (key : String) (v : Visit) :
    hashes key v = (postings v).filterMap (ofKey key) := by
  unfold hashes postings
  cases strFromUtf8 v.payload <;> rfl

/-- The posting list of a key after some turns. -/
theorem turns_key (news : List (List Visit × List Visit)) (map : FieldMap) :
    projection.turns news map key = firsts (map key) (arrival (hashNews key news)) := by
  have hfold : projection.turns news map = _ :=
    foldl_arrival visit visit post postings postings visit_eq visit_eq news map
  have hsel : ∀ vs : List Visit, (vs.flatMap postings).filterMap (ofKey key) =
      vs.flatMap (hashes key) := by
    intro vs
    rw [filterMap_flatMap]
    exact flatMap_congr fun v _ => (hashes_eq key v).symm
  rw [hfold, foldl_post, filterMap_arrival, map_map, hashNews]
  simp only [Function.comp_def, hsel]

theorem arrival_one_turn (news : List (List Visit × List Visit)) :
    arrival (hashNews key [(lefts news, rights news)]) = bySource (hashNews key news) := by
  simp [arrival, bySource, lefts, rights, hashNews, flatMap_assoc, flatMap_map]

/-- Texts without line feeds can be told apart again. -/
theorem intercalate_inj (hl : ∀ h ∈ l, '\n' ∉ h.toList) (hm : ∀ h ∈ m, '\n' ∉ h.toList)
    (hlen : l = [] ↔ m = []) (h : "\n".intercalate l = "\n".intercalate m) : l = m := by
  by_cases hnil : l = []
  · rw [hnil, hlen.mp hnil]
  · have hchars := congrArg String.toList h
    simp only [String.toList_intercalate] at hchars
    have hsplit : ∀ {k : List String}, (∀ h ∈ k, '\n' ∉ h.toList) → k ≠ [] →
        (['\n'].intercalate (k.map String.toList)).splitOn '\n' = k.map String.toList := by
      intro k hk hne
      apply splitOn_intercalate '\n'
      · intro cs hcs
        obtain ⟨h, hh, rfl⟩ := mem_map.mp hcs
        exact hk h hh
      · simpa using hne
    have heq := congrArg (List.splitOn '\n') hchars
    have hlf : "\n".toList = ['\n'] := rfl
    rw [hlf, hsplit hl hnil, hsplit hm fun hm' => hnil (hlen.mpr hm')] at heq
    exact map_injective_iff.mpr (fun _ _ => String.toList_injective) heq

end FieldIndex

open FieldIndex (turns_key hashNews fieldKey arrival_one_turn Overtaken hashes)

section
variable [Sha256] {shard : String} {preallocEnabled : Bool}

/-- The resident read and the fresh one both answer, with the same text unless one hash of the key
has overtaken another; when no hash holds a line feed, the texts differ then. -/
theorem fieldidx_resident_eq_fresh_iff (hshard : shard ≠ "") {snapPath field value : String}
    {snap : Option Bytes} {s s' : Store preallocEnabled} {t t' : Handles FieldMap}
    {es : List (Event preallocEnabled)} {d : Volume} {map : FieldMap} {pos : ℤ × ℤ} {n : ℕ}
    (hrun : Run FieldIndex.projection shard snapPath snap s t es s' t')
    (hnew : t.resident shard = none)
    (hsnap : FieldIndex.loadSnapshot (fun _ => []) snap = (map, pos)) (hpos : Boundary s.segs n pos)
    (hshow : Shows d shard snapPath snap s') :
    let key := fieldKey field value
    let news := epochs n 0 s es
    ∃ t₁ resident fresh,
      FieldIndex.resGet preallocEnabled d shard (walSegPrefix shard) snapPath field value t' =
        some (t₁, resident) ∧
      FieldIndex.freshGet preallocEnabled d (walSegPrefix shard) snapPath field value t' =
        some fresh ∧
      (¬ Overtaken key map news → resident = fresh) ∧
      ((∀ h ∈ map key ++ arrival (hashNews key news), '\n' ∉ h.toList) →
        resident = fresh → ¬ Overtaken key map news) := by
  intro key news
  obtain ⟨⟨t₁, hres⟩, hfresh⟩ :=
    hrun.answers _ hshard hnew hsnap hpos hshow (FieldIndex.answer field value)
  refine ⟨t₁, _, _, hres, hfresh, ?_, ?_⟩
  · intro hgood
    have heq := firsts_eq_iff.mpr hgood
    simp only [FieldIndex.answer, turns_key, arrival_one_turn]
    exact congrArg _ heq
  · intro hlf heq
    simp only [FieldIndex.answer, turns_key, arrival_one_turn] at heq
    apply firsts_eq_iff.mp
    refine FieldIndex.intercalate_inj ?_ ?_ ?_ heq
    · intro h hh
      exact hlf h (mem_append.mpr (mem_firsts.mp hh))
    · intro h hh
      have hmem := mem_firsts.mp hh
      rw [← mem_arrival] at hmem
      exact hlf h (mem_append.mpr hmem)
    · simp only [eq_nil_iff_forall_not_mem, mem_firsts, mem_arrival]

end

/-- The digests of the two records below; that of the first stands for the rest too. -/
@[reducible] def recordDigests : Sha256 where
  digest data :=
    if data = [82, 69, 67, 79, 82, 68, 9, 102, 61, 118, 9, 103, 61, 119] then
      ⟨[131, 163, 56, 208, 237, 202, 94, 56, 38, 49, 242, 0, 243, 30, 208, 17, 104, 39, 92,
        243, 22, 188, 110, 93, 111, 96, 174, 56, 174, 116, 29, 197], rfl⟩
    else
      ⟨[150, 45, 53, 132, 173, 218, 0, 210, 101, 142, 93, 67, 130, 83, 251, 167, 42, 75, 163,
        253, 198, 97, 190, 12, 162, 17, 190, 208, 182, 187, 12, 99], rfl⟩

attribute [local instance] recordDigests

/-- `RECORD\tf=v` -/
def recordF : Frame :=
  Entry.frame ⟨[], [82, 69, 67, 79, 82, 68, 9, 102, 61, 118], nil_fits, by decide⟩

/-- `RECORD\tf=v\tg=w` -/
def recordG : Frame :=
  Entry.frame ⟨[], [82, 69, 67, 79, 82, 68, 9, 102, 61, 118, 9, 103, 61, 119], nil_fits, by decide⟩

def blockF : SealedBlock true := blockOf recordF (by rw [recordF.length_bytes]; decide)

def addressF : String := "sha256:962d3584adda00d2658e5d438253fba72a4ba3fdc661be0ca211bed0b6bb0c63"

def addressG : String := "sha256:83a338d0edca5e382631f200f31ed01168275cf316bc6e5d6f60ae38ae741dc5"

theorem hashes_recordF (seg : ℤ) (off : ℕ) :
    hashes "f\tv" (visitAt seg (off, recordF.view)) = [addressF] := by
  have htext : strFromUtf8 recordF.payload = some "RECORD\tf=v" := strFromUtf8_eq_some.mpr rfl
  have hpayload : (visitAt seg (off, recordF.view)).payload = recordF.payload := rfl
  rw [hashes, hpayload, htext]
  rfl

theorem hashes_recordG (seg : ℤ) (off : ℕ) :
    hashes "f\tv" (visitAt seg (off, recordG.view)) = [addressG] := by
  have htext : strFromUtf8 recordG.payload = some "RECORD\tf=v\tg=w" := strFromUtf8_eq_some.mpr rfl
  have hpayload : (visitAt seg (off, recordG.view)).payload = recordG.payload := rfl
  rw [hashes, hpayload, htext]
  rfl

theorem fieldidx_resident_eq_fresh_iff_block :
    ∃ t t₁ text, Run FieldIndex.projection "s" "snap" none (⟨[], []⟩ : Store true)
        (noHandles FieldMap) [.block blockF] ⟨[], [blockF]⟩ t ∧
      FieldIndex.resGet true (diskBlock blockF) "s" (walSegPrefix "s") "snap" "f" "v" t =
        some (t₁, text) ∧
      FieldIndex.freshGet true (diskBlock blockF) (walSegPrefix "s") "snap" "f" "v" t =
        some text := by
  have hrun : Run FieldIndex.projection "s" "snap" none (⟨[], []⟩ : Store true) (noHandles FieldMap)
      [.block blockF] ⟨[], [blockF]⟩ (noHandles FieldMap) := .write nofun .done
  obtain ⟨t₁, resident, fresh, hres, hfresh, hsame, -⟩ := @fieldidx_resident_eq_fresh_iff _ "s" true
    (by decide) "snap" "f" "v" none _ _ _ _ _ _ _ _ _ hrun rfl rfl (.inl ⟨rfl, rfl, rfl⟩)
    (shows_diskBlock blockF)
  have hgood : ¬ Overtaken (fieldKey "f" "v") (fun _ => [])
      (epochs 0 0 (⟨[], []⟩ : Store true) [.block blockF]) := by
    rintro ⟨pre, post, x, y, heq, -, -, -, -, -, -, hbefore⟩
    have hlefts := congrArg lefts heq
    have hnone : lefts (hashNews (fieldKey "f" "v")
        (epochs 0 0 (⟨[], []⟩ : Store true) [.block blockF])) = [] := rfl
    rw [hnone, lefts_append, eq_comm, append_eq_nil_iff] at hlefts
    rw [hlefts.2] at hbefore
    exact hbefore
  exact ⟨_, t₁, fresh, hrun, hsame hgood ▸ hres, hfresh⟩

theorem fieldidx_resident_reordered :
    ∃ t t₁, Run FieldIndex.projection "s" "snap" none (⟨[], []⟩ : Store true) (noHandles FieldMap)
        [.block blockF, .read, .append recordG] ⟨[[recordG]], [blockF]⟩ t ∧
      Shows (diskBoth blockF recordG) "s" "snap" none (⟨[[recordG]], [blockF]⟩ : Store true) ∧
      FieldIndex.resGet true (diskBoth blockF recordG) "s" (walSegPrefix "s") "snap" "f" "v" t =
        some (t₁, addressF ++ "\n" ++ addressG) ∧
      FieldIndex.freshGet true (diskBoth blockF recordG) (walSegPrefix "s") "snap" "f" "v" t =
        some (addressG ++ "\n" ++ addressF) := by
  obtain ⟨t, hrun⟩ := exists_run_block_then_frame FieldIndex.projection (fun _ => []) rfl
    (FieldIndex.answer "f" "v") blockF recordG
  obtain ⟨⟨t₁, hres⟩, hfresh⟩ := hrun.answers _ (by decide) rfl rfl (.inl ⟨rfl, rfl, rfl⟩)
    (shows_diskBoth blockF recordG) (FieldIndex.answer "f" "v")
  have hkey : fieldKey "f" "v" = "f\tv" := rfl
  have hnews : epochs 0 0 (⟨[], []⟩ : Store true) [.block blockF, .read, .append recordG] =
      [([], [visitAt 1 (0, recordF.view)]), ([visitAt 0 (0, recordG.view)], [])] := rfl
  have hhashes : hashNews "f\tv" [([], [visitAt 1 (0, recordF.view)]),
      ([visitAt 0 (0, recordG.view)], [])] = [([], [addressF]), ([addressG], [])] := by
    simp [hashNews, hashes_recordF, hashes_recordG]
  refine ⟨t, t₁, hrun, shows_diskBoth blockF recordG, hres.trans ?_, hfresh.trans ?_⟩
  · rw [FieldIndex.answer, turns_key, hkey, hnews, hhashes]
    rfl
  · rw [FieldIndex.answer, turns_key, arrival_one_turn, hkey, hnews, hhashes]
    rfl

end AxisBridge

/-! The snapshot of a shard of the field index, and what the reader makes of one that was cut
short. -/
namespace AxisBridge.FieldIndex
open List

def snapshotHeader (seg off : ℤ) (count : ℕ) : String := s!"FIELDIDX1\t{seg}\t{off}\t{count}"

def snapshotLine (e : String × String) : String := s!"{e.1}\t{e.2}"

/-- `fieldidx_snapshot`: the bytes of the file, the keys in the order in which the map gives
them. -/
def fieldidxSnapshot (sh : Shard FieldMap) (keys : List String) : Bytes :=
  let count := (keys.map fun key => (sh.map key).length).sum
  textBytes (keys.foldl (fun s key =>
    (sh.map key).foldl (fun s hash => s ++ (snapshotLine (key, hash) ++ "\n")) s)
    (snapshotHeader sh.fseg sh.foff count ++ "\n"))

/-- The postings in the order of the file. -/
def entries (map : FieldMap) (keys : List String) : List (String × String) :=
  keys.flatMap fun key => (map key).map (key, ·)

/-- The keys of a map in one of its orders; a map has fewer than `2 ^ 63` postings. -/
structure Iterates (keys : List String) (map : FieldMap) : Prop where
  nodup : keys.Nodup
  mem_iff : ∀ key, key ∈ keys ↔ map key ≠ []
  length_lt : (entries map keys).length < 2 ^ 63

/-- A shard that frames have led to. -/
structure Built [Sha256] (sh : Shard FieldMap) : Prop where
  map_eq : ∃ vs : List Visit, (∀ v ∈ vs, v.hexh = sha256Hex v.payload) ∧
    sh.map = vs.foldl visit fun _ => []
  fseg_i64 : -2 ^ 63 ≤ sh.fseg ∧ sh.fseg < 2 ^ 63
  foff_i64 : -2 ^ 63 ≤ sh.foff ∧ sh.foff < 2 ^ 63

/-- Nothing is taken from the file, or all postings are. -/
def NothingOrAll (sh : Shard FieldMap) (file : Bytes) : Prop :=
  (∀ map, loadSnapshot map (some file) = (map, 0, 0)) ∨
    loadSnapshot (fun _ => []) (some file) = (sh.map, sh.fseg, sh.foff)

/-- The header is left, and as many lines as it counts, each with a tab. -/
def Counted (sh : Shard FieldMap) (keys : List String) (file : Bytes) : Prop :=
  0 ≤ sh.fseg ∧ 0 ≤ sh.foff ∧ ∃ u,
    file = textBytes (snapshotHeader sh.fseg sh.foff (entries sh.map keys).length ++ "\n" ++ u) ∧
    (lines u).length = (entries sh.map keys).length ∧ ∀ line ∈ lines u, '\t' ∈ line.toList

/-- Every posting is a line of its own, and keeps its last character there. -/
def LineByLine (es : List (String × String)) : Prop :=
  (∀ e ∈ es, '\n' ∉ e.1.toList ∧ '\n' ∉ e.2.toList) ∧
    ∀ e ∈ es.dropLast, e.2.toList.getLast? ≠ some '\r'

/-- The cuts that the reader does not notice: as many lines are left as are counted, and more is
missing than the last line feed, or the postings are not the lines. -/
def Misread (sh : Shard FieldMap) (keys : List String) (file : Bytes) : Prop :=
  Counted sh keys file ∧
    ¬ (file ++ textBytes "\n" = fieldidxSnapshot sh keys ∧ LineByLine (entries sh.map keys))

section
variable {sh : Shard FieldMap} {keys : List String} {key hash line txt u : String} {map : FieldMap}
  {e : String × String} {es staged : List (String × String)} {file : Bytes}

/-! ### What is written -/

theorem length_entries (map : FieldMap) (keys : List String) :
    (entries map keys).length = (keys.map fun key => (map key).length).sum := by
  simp [entries, length_flatMap]

theorem fieldidxSnapshot_eq (sh : Shard FieldMap) (keys : List String) :
    fieldidxSnapshot sh keys = textBytes (snapshotHeader sh.fseg sh.foff
      (entries sh.map keys).length ++ "\n" ++ ended ((entries sh.map keys).map snapshotLine)) := by
  have hkey : ∀ (key : String) (hashes : List String) (s : String),
      hashes.foldl (fun s hash => s ++ (snapshotLine (key, hash) ++ "\n")) s =
        s ++ ended ((hashes.map (key, ·)).map snapshotLine) := by
    intro key hashes
    induction hashes with
    | nil => simp
    | cons hash hashes ih =>
      intro s
      rw [foldl_cons, ih, map_cons, map_cons, ended_cons, String.append_assoc]
  have hall : ∀ (ks : List String) (s : String), ks.foldl (fun s key =>
        (sh.map key).foldl (fun s hash => s ++ (snapshotLine (key, hash) ++ "\n")) s) s =
        s ++ ended ((entries sh.map ks).map snapshotLine) := by
    intro ks
    induction ks with
    | nil => simp [entries]
    | cons key ks ih =>
      intro s
      have hcons : entries sh.map (key :: ks) = (sh.map key).map (key, ·) ++ entries sh.map ks :=
        flatMap_cons
      rw [foldl_cons, ih, hkey, hcons, map_append, ended_append, String.append_assoc]
  rw [fieldidxSnapshot, hall, length_entries]

theorem mem_entries : e ∈ entries map keys ↔ e.1 ∈ keys ∧ e.2 ∈ map e.1 := by
  obtain ⟨key, hash⟩ := e
  simp only [entries, mem_flatMap, mem_map, Prod.mk.injEq]
  constructor
  · rintro ⟨key', hkey, hash', hhash, rfl, rfl⟩
    exact ⟨hkey, hhash⟩
  · rintro ⟨hkey, hhash⟩
    exact ⟨key, hkey, hash, hhash, rfl, rfl⟩

theorem headed [Sha256] (h : Built sh) (hit : Iterates keys sh.map) :
    Headed "FIELDIDX1" sh.fseg sh.foff (entries sh.map keys).length :=
  ⟨by decide, by decide, h.fseg_i64, h.foff_i64, hit.length_lt⟩

/-! ### What frames declare -/

/-- What holds of a map that frames have led to. -/
structure Sound (map : FieldMap) : Prop where
  nodup : ∀ key, (map key).Nodup
  tab : ∀ key, ∀ hash ∈ map key, '\t' ∉ hash.toList

theorem Sound.post (h : Sound map) (htab : '\t' ∉ e.2.toList) : Sound (post map e) := by
  have hpush : ∀ hash, hash ∈ pushDedup (map e.1) e.2 ↔ hash ∈ map e.1 ∨ hash = e.2 := by
    intro hash
    unfold pushDedup
    split
    · next hmem =>
      constructor
      · exact .inl
      · rintro (hold | rfl)
        · exact hold
        · exact hmem
    · rw [mem_append, mem_singleton]
  constructor
  · intro key
    by_cases hkey : key = e.1
    · subst hkey
      rw [post_self, pushDedup]
      split
      · exact h.nodup e.1
      · next hnew =>
        apply (h.nodup e.1).append (nodup_singleton e.2)
        intro hash hold hin
        exact hnew (mem_singleton.mp hin ▸ hold)
    · rw [post_of_ne hkey]
      exact h.nodup key
  · intro key hash hhash
    by_cases hkey : key = e.1
    · subst hkey
      rw [post_self, hpush] at hhash
      rcases hhash with hold | rfl
      · exact h.tab e.1 hash hold
      · exact htab
    · rw [post_of_ne hkey] at hhash
      exact h.tab key hash hhash

theorem Sound.foldl_post (h : Sound map) (htab : ∀ e ∈ es, '\t' ∉ e.2.toList) :
    Sound (es.foldl FieldIndex.post map) := by
  induction es generalizing map with
  | nil => exact h
  | cons e es ih =>
    apply ih (h.post (htab e mem_cons_self))
    exact fun e he => htab e (mem_cons_of_mem _ he)

/-- A hash is a digest or a field of the frame. -/
theorem tab_of_declared {text ownHash : String} (hown : '\t' ∉ ownHash.toList)
    (h : e ∈ declared text ownHash) : '\t' ∉ e.2.toList := by
  unfold declared at h
  split at h
  · cases h
  · next kind cells hsplit =>
    split at h
    · obtain ⟨cell, -, hcell⟩ := mem_filterMap.mp h
      obtain ⟨p, -, rfl⟩ := Option.map_eq_some_iff.mp hcell
      have haddr : (s!"sha256:{ownHash}").toList = "sha256:".toList ++ ownHash.toList :=
        String.toList_append
      rw [haddr, mem_append, not_or]
      exact ⟨by decide, hown⟩
    · split at h
      · split at h
        · next field value hash =>
          obtain rfl := mem_singleton.mp h
          have hmem : hash ∈ split '\t' text := by
            rw [hsplit]
            simp
          exact (of_mem_split hmem).1
        · cases h
      · cases h

theorem tab_not_mem_hex (h : Hash256) : '\t' ∉ (hash256ToHex h).toList := by
  have hdigit : ∀ n < 16, '\t' ≠ hexDigit n := by decide
  intro hmem
  obtain ⟨n, hn, heq⟩ := hexDigit_of_mem hmem
  exact hdigit n hn heq

theorem Sound.visits [Sha256] {vs : List Visit} (h : Sound map)
    (hvs : ∀ v ∈ vs, v.hexh = sha256Hex v.payload) : Sound (vs.foldl visit map) := by
  induction vs generalizing map with
  | nil => exact h
  | cons v vs ih =>
    rw [foldl_cons, visit_eq]
    apply ih
    · apply h.foldl_post
      intro e he
      unfold postings at he
      split at he
      · apply tab_of_declared _ he
        rw [hvs v mem_cons_self]
        exact tab_not_mem_hex _
      · cases he
    · exact fun v hv => hvs v (mem_cons_of_mem _ hv)

theorem Built.sound [Sha256] (h : Built sh) : Sound sh.map := by
  obtain ⟨vs, hvs, hmap⟩ := h.map_eq
  rw [hmap]
  have hempty : Sound fun _ => [] := ⟨fun _ => nodup_nil, nofun⟩
  exact hempty.visits hvs

/-! ### Lines read back -/

theorem snapshotLine_eq (e : String × String) :
    snapshotLine e = e.1 ++ String.singleton '\t' ++ e.2 := rfl

theorem snapshotEntry_eq_some :
    snapshotEntry line = some e ↔ line = snapshotLine e ∧ '\t' ∉ e.2.toList := rsplitOnce_eq_some

variable {ls : List String}

theorem mapM_eq_some : ls.mapM snapshotEntry = some staged ↔
    ls = staged.map snapshotLine ∧ ∀ e ∈ staged, '\t' ∉ e.2.toList := by
  induction ls generalizing staged with
  | nil =>
    rw [mapM_nil]
    constructor
    · rintro h
      cases h
      exact ⟨rfl, nofun⟩
    · rintro ⟨h, -⟩
      rw [map_eq_nil_iff.mp h.symm]
      rfl
  | cons line ls ih =>
    rw [mapM_cons]
    constructor
    · intro h
      obtain ⟨e, he, h⟩ := Option.bind_eq_some_iff.mp h
      obtain ⟨rest, hrest, h⟩ := Option.bind_eq_some_iff.mp h
      cases h
      obtain ⟨rfl, htab⟩ := snapshotEntry_eq_some.mp he
      obtain ⟨rfl, htabs⟩ := ih.mp hrest
      exact ⟨rfl, forall_mem_cons.mpr ⟨htab, htabs⟩⟩
    · rintro ⟨h, htabs⟩
      obtain ⟨e, rest, rfl, rfl, hls⟩ := map_eq_cons_iff.mp h.symm
      rw [forall_mem_cons] at htabs
      rw [snapshotEntry_eq_some.mpr ⟨rfl, htabs.1⟩, ih.mpr ⟨hls.symm, htabs.2⟩]
      rfl

/-- Every line with a tab is the line of some posting. -/
theorem exists_staged (h : ∀ line ∈ ls, '\t' ∈ line.toList) :
    ∃ staged, ls.mapM snapshotEntry = some staged := by
  induction ls with
  | nil => exact ⟨[], rfl⟩
  | cons line ls ih =>
    rw [forall_mem_cons] at h
    obtain ⟨staged, hstaged⟩ := ih h.2
    have hline : snapshotEntry line = some _ := if_pos h.1
    rw [mapM_cons, hline, hstaged]
    exact ⟨_, rfl⟩

theorem counted_iff [Sha256] (h : Built sh) (hit : Iterates keys sh.map) : Counted sh keys file ↔
    ∃ u staged, file = textBytes
        (snapshotHeader sh.fseg sh.foff (entries sh.map keys).length ++ "\n" ++ u) ∧
      lines u = staged.map snapshotLine ∧ staged.length = (entries sh.map keys).length ∧
      SnapshotText "FIELDIDX1" snapshotEntry
        (snapshotHeader sh.fseg sh.foff (entries sh.map keys).length ++ "\n" ++ u)
        (sh.fseg, sh.foff) staged := by
  have hhdr := headed h hit
  constructor
  · rintro ⟨hseg, hoff, u, hfile, hlen, htab⟩
    obtain ⟨staged, hstaged⟩ := exists_staged htab
    have hcount : staged.length = (entries sh.map keys).length := by
      rw [mapM_length hstaged, hlen]
    have htext :=
      (hhdr.snapshotText_iff (hhdr.lines_header u)).mpr ⟨rfl, hseg, hoff, hcount, hstaged⟩
    exact ⟨u, staged, hfile, (mapM_eq_some.mp hstaged).1, hcount, htext⟩
  · rintro ⟨u, staged, hfile, hlines, hcount, htext⟩
    obtain ⟨-, hseg, hoff, -, hstaged⟩ := (hhdr.snapshotText_iff (hhdr.lines_header u)).mp htext
    refine ⟨hseg, hoff, u, hfile, by rw [hlines, length_map, hcount], ?_⟩
    intro line hline
    rw [hlines] at hline
    obtain ⟨e, -, rfl⟩ := mem_map.mp hline
    rw [snapshotLine_eq]
    simp

/-! ### The map read back -/

theorem mem_of_foldl_post
    (h : hash ∈ staged.foldl post (fun _ => []) key) : (key, hash) ∈ staged := by
  rw [foldl_post] at h
  rcases Epochs.mem_firsts.mp h with h | h
  · cases h
  · obtain ⟨e, he, hof⟩ := mem_filterMap.mp h
    unfold ofKey at hof
    split at hof
    · next hkey =>
      cases hof
      rw [← hkey]
      exact he
    · cases hof

theorem nodup_entries (hkeys : keys.Nodup) (hnodup : ∀ key, (map key).Nodup) :
    (entries map keys).Nodup := by
  apply nodup_flatMap.mpr
  constructor
  · intro key _
    exact (hnodup key).map (Prod.mk_right_injective key)
  · apply hkeys.imp
    intro key key' hne e he he'
    obtain ⟨hash, -, rfl⟩ := mem_map.mp he
    obtain ⟨hash', -, heq⟩ := mem_map.mp he'
    cases heq
    exact hne rfl

theorem perm_of_exact (hit : Iterates keys sh.map) (hnodup : ∀ key, (sh.map key).Nodup)
    (hlen : staged.length = (entries sh.map keys).length)
    (hall : staged.foldl post (fun _ => []) = sh.map) : staged.Perm (entries sh.map keys) := by
  have hsub : entries sh.map keys ⊆ staged := by
    rintro ⟨key, hash⟩ he
    have hhash := (mem_entries.mp he).2
    rw [← hall] at hhash
    exact mem_of_foldl_post hhash
  have hperm := (subperm_of_subset (nodup_entries hit.nodup hnodup) hsub).perm_of_length_le hlen.le
  exact hperm.symm

theorem filterMap_entries (hkeys : keys.Nodup) (key : String) :
    (entries map keys).filterMap (ofKey key) = if key ∈ keys then map key else [] := by
  have hown : ∀ k, ((map k).map (k, ·)).filterMap (ofKey key) = if k = key then map k else [] := by
    intro k
    rw [filterMap_map]
    split
    · next hk =>
      have hsome : (ofKey key ∘ fun hash => (k, hash)) = some := funext fun hash => if_pos hk
      rw [hsome, filterMap_some]
    · next hk =>
      apply filterMap_eq_nil_iff.mpr
      intro hash _
      exact if_neg hk
  induction keys with
  | nil => rfl
  | cons k keys ih =>
    obtain ⟨hk, hkeys⟩ := nodup_cons.mp hkeys
    have hcons : entries map (k :: keys) = (map k).map (k, ·) ++ entries map keys := flatMap_cons
    rw [hcons, filterMap_append, hown, ih hkeys]
    by_cases heq : k = key
    · subst heq
      rw [if_pos rfl, if_neg hk, if_pos mem_cons_self, append_nil]
    · rw [if_neg heq, nil_append]
      simp [Ne.symm heq]

theorem foldl_entries (hit : Iterates keys map) (hnodup : ∀ key, (map key).Nodup) :
    (entries map keys).foldl post (fun _ => []) = map := by
  funext key
  rw [foldl_post, filterMap_entries hit.nodup]
  split
  · exact Epochs.firsts_of_nodup (hnodup key)
  · next hkey =>
    have hnil : map key = [] := by
      by_contra hne
      exact hkey ((hit.mem_iff key).mpr hne)
    rw [hnil]
    rfl

/-! ### The cuts -/

theorem chopReturn_snapshotLine :
    chopReturn (snapshotLine e) = snapshotLine e ↔ e.2.toList.getLast? ≠ some '\r' := by
  have hchop : chopReturn (snapshotLine e) = e.1 ++ "\t" ++ chopReturn e.2 := chopReturn_tab e.1 e.2
  rw [hchop]
  constructor
  · intro h hlast
    have hsame : chopReturn e.2 = e.2 := append_cancel h
    have hlonger := congrArg (fun s => s.toList.length) (exists_return hlast)
    rw [hsame] at hlonger
    simp at hlonger
  · intro hlast
    rw [chopReturn_of_ne hlast]
    rfl

theorem feed_not_mem_snapshotLine :
    '\n' ∉ (snapshotLine e).toList ↔ '\n' ∉ e.1.toList ∧ '\n' ∉ e.2.toList := by
  rw [snapshotLine_eq]
  simp

theorem length_chopReturn_le (line : String) :
    (chopReturn line).toList.length ≤ line.toList.length :=
  (prefix_chopReturn line).length_le

/-- Lines that are as long without a carriage return at the end as they were have none. -/
theorem chopReturn_all
    (h : (ls.map fun l => l.toList.length).sum ≤
      ((ls.map chopReturn).map fun l => l.toList.length).sum) : ∀ l ∈ ls, chopReturn l = l := by
  have hle : ∀ ls : List String, ((ls.map chopReturn).map fun l => l.toList.length).sum ≤
      (ls.map fun l => l.toList.length).sum := by
    intro ls
    induction ls with
    | nil => exact le_rfl
    | cons l ls ih =>
      have hl := length_chopReturn_le l
      simp only [map_cons, sum_cons]
      omega
  induction ls with
  | nil => exact nofun
  | cons l ls ih =>
    have hl := length_chopReturn_le l
    have hls := hle ls
    simp only [map_cons, sum_cons] at h
    rw [forall_mem_cons]
    constructor
    · exact String.toList_inj.mp ((prefix_chopReturn l).eq_of_length (by omega))
    · exact ih (by omega)

/-- When only the last line feed is missing, the lines are the postings. -/
theorem lines_of_missing_feed (hu : u ++ "\n" = ended (es.map snapshotLine))
    (hline : LineByLine es) : lines u = es.map snapshotLine := by
  rcases eq_nil_or_concat es with rfl | ⟨front, last, rfl⟩
  · exact absurd (String.append_eq_empty_iff.mp hu).2 (by decide)
  · rw [concat_eq_append] at hu hline ⊢
    obtain ⟨hfeed, hreturn⟩ := hline
    rw [dropLast_concat] at hreturn
    rw [map_append, ended_append, map_singleton, ended_cons, ended_nil, String.append_empty,
      ← String.append_assoc] at hu
    have hlast := hfeed last (mem_append_right _ mem_cons_self)
    have hne : snapshotLine last ≠ "" := by
      intro hempty
      have hfront := (String.append_eq_empty_iff.mp hempty).1
      exact absurd (String.append_eq_empty_iff.mp hfront).2 (by decide)
    rw [append_cancel_right hu, lines_ended _ (feed_not_mem_snapshotLine.mpr hlast), if_neg hne,
      map_append, map_singleton, map_map]
    · congr 1
      apply map_congr_left
      intro e he
      exact chopReturn_snapshotLine.mpr (hreturn e he)
    · intro l hl
      obtain ⟨e, he, rfl⟩ := mem_map.mp hl
      exact feed_not_mem_snapshotLine.mpr (hfeed e (mem_append_left _ he))

/-- When the lines that are left are those of the postings in some order, only the last line feed is
missing: no line is shorter than it was. -/
theorem missing_feed_of_perm (hpre : u.toList <+: (ended (es.map snapshotLine)).toList)
    (hcut : u ≠ ended (es.map snapshotLine)) (hperm : (lines u).Perm (es.map snapshotLine)) :
    u ++ "\n" = ended (es.map snapshotLine) ∧ LineByLine es := by
  have hfeed : ∀ e ∈ es, '\n' ∉ (snapshotLine e).toList := by
    intro e he
    have hmem := hperm.mem_iff.mpr (mem_map_of_mem he)
    exact feed_not_mem_lines hmem
  rcases prefix_ended hpre with heq | ⟨lfront, line, lback, r, hsplit, hr, rfl⟩
  · exact absurd heq hcut
  · obtain ⟨front, rest, rfl, rfl, hrest⟩ := map_eq_append_iff.mp hsplit
    obtain ⟨last, back, rfl, rfl, rfl⟩ := map_eq_cons_iff.mp hrest
    have hlast : '\n' ∉ (snapshotLine last).toList :=
      hfeed last (mem_append_right _ mem_cons_self)
    have hfront : ∀ l ∈ front.map snapshotLine, '\n' ∉ l.toList := by
      intro l hl
      obtain ⟨e, he, rfl⟩ := mem_map.mp hl
      exact hfeed e (mem_append_left _ he)
    rw [lines_ended hfront fun hmem => hlast (hr.subset hmem)] at hperm
    have hcount := hperm.length_eq
    simp only [length_append, length_map, length_cons] at hcount
    have hne : r ≠ "" := by
      rintro rfl
      rw [if_pos rfl, length_nil] at hcount
      omega
    rw [if_neg hne] at hperm hcount
    obtain rfl : back = [] := by
      apply eq_nil_of_length_eq_zero
      rw [length_singleton] at hcount
      omega
    -- all characters of the postings are among those of the lines
    have hsum := (hperm.map fun l => l.toList.length).sum_eq
    simp only [map_append, sum_append, map_cons, map_nil, sum_cons, sum_nil] at hsum
    have hrle := hr.length_le
    have hall : ∀ l ∈ front.map snapshotLine, chopReturn l = l := by
      apply chopReturn_all
      omega
    have hsame : (front.map snapshotLine).map chopReturn = front.map snapshotLine :=
      (map_congr_left hall).trans (map_id _)
    rw [hsame] at hsum
    have hwhole : r = snapshotLine last := String.toList_inj.mp (hr.eq_of_length (by omega))
    refine ⟨?_, ?_, ?_⟩
    · rw [hwhole, map_append, ended_append, map_singleton, ended_cons, ended_nil,
        String.append_empty, String.append_assoc]
    · intro e he
      exact feed_not_mem_snapshotLine.mp (hfeed e he)
    · intro e he
      rw [dropLast_concat] at he
      exact chopReturn_snapshotLine.mp (hall _ (mem_map_of_mem he))

end

/-- Every proper prefix of a snapshot gives nothing or all of it, except the cuts that the reader
does not notice. -/
theorem fieldidx_torn_snapshot_iff [Sha256] {sh : Shard FieldMap} {keys : List String}
    {file : Bytes} (h : Built sh) (hit : Iterates keys sh.map)
    (hpre : file <+: fieldidxSnapshot sh keys) (hcut : file ≠ fieldidxSnapshot sh keys) :
    NothingOrAll sh file ↔ ¬ Misread sh keys file := by
  have hhdr := headed h hit
  have hsound := h.sound
  have hmissing : ∀ u, textBytes
      (snapshotHeader sh.fseg sh.foff (entries sh.map keys).length ++ "\n" ++ u) ++ textBytes "\n" =
        fieldidxSnapshot sh keys ↔ u ++ "\n" = ended ((entries sh.map keys).map snapshotLine) := by
    intro u
    rw [fieldidxSnapshot_eq, ← textBytes_append]
    constructor
    · intro heq
      have htext := textBytes_inj heq
      rw [String.append_assoc] at htext
      exact append_cancel htext
    · intro heq
      rw [String.append_assoc, heq]
  constructor
  · rintro hall ⟨hcounted, hnot⟩
    obtain ⟨u, staged, rfl, hlines, hlen, htext⟩ := (counted_iff h hit).mp hcounted
    rw [fieldidxSnapshot_eq] at hpre hcut
    have hu := prefix_cancel (prefix_of_textBytes hpre)
    have hune : u ≠ ended ((entries sh.map keys).map snapshotLine) := by
      rintro rfl
      exact hcut rfl
    have hload : loadSnapshot (fun _ => []) _ = _ := loadBatched_of_snapshotText htext fun _ => []
    have hexact : staged.foldl post (fun _ => []) = sh.map := by
      rcases hall with hnone | hsome
      · -- nothing was read, so there was nothing to lose
        have hmap := congrArg Prod.fst (hload.symm.trans (hnone _))
        have hnil : entries sh.map keys = [] := by
          apply eq_nil_of_length_eq_zero
          rw [← hlen, length_eq_zero_iff]
          apply eq_nil_iff_forall_not_mem.mpr
          intro e he
          have hread : e.2 ∈ staged.foldl post (fun _ => []) e.1 := by
            rw [foldl_post]
            exact Epochs.mem_firsts.mpr (.inr (mem_filterMap.mpr ⟨e, he, if_pos rfl⟩))
          have hempty : staged.foldl post (fun _ => []) = fun _ => [] := hmap
          rw [hempty] at hread
          cases hread
        rw [hnil] at hu hune
        exact absurd (String.toList_eq_nil_iff.mp (prefix_nil.mp hu)) hune
      · exact congrArg Prod.fst (hload.symm.trans hsome)
    have hperm := (perm_of_exact hit hsound.nodup hlen hexact).map snapshotLine
    rw [← hlines] at hperm
    obtain ⟨hfeed, hline⟩ := missing_feed_of_perm hu hune hperm
    exact hnot ⟨(hmissing u).mpr hfeed, hline⟩
  · intro hgood
    rcases loadBatched_cases "FIELDIDX1" snapshotEntry post (some file) with
      ⟨txt, pos, staged, hfile, htext⟩ | hnone
    · obtain rfl := Option.some.inj hfile
      right
      have hload : loadSnapshot (fun _ => []) (some (textBytes txt)) = _ :=
        loadBatched_of_snapshotText htext fun _ => []
      rw [hload]
      rw [fieldidxSnapshot_eq] at hpre
      rcases hhdr.torn (prefix_of_textBytes hpre) htext with ⟨-, hzero, rfl, rfl⟩ |
        ⟨u, rfl, -, hlines⟩
      · have hmap := foldl_entries hit hsound.nodup
        rw [eq_nil_of_length_eq_zero hzero] at hmap
        rw [hmap]
      · obtain ⟨rfl, -, -, hlen, hstaged⟩ := (hhdr.snapshotText_iff hlines).mp htext
        have hcounted : Counted sh keys (textBytes
            (snapshotHeader sh.fseg sh.foff (entries sh.map keys).length ++ "\n" ++ u)) :=
          (counted_iff h hit).mpr ⟨u, staged, rfl, (mapM_eq_some.mp hstaged).1, hlen, htext⟩
        obtain ⟨hfeed, hline⟩ := not_not.mp fun hnot => hgood ⟨hcounted, hnot⟩
        have hall := lines_of_missing_feed ((hmissing u).mp hfeed) hline
        have htabs : ∀ e ∈ entries sh.map keys, '\t' ∉ e.2.toList :=
          fun e he => hsound.tab e.1 e.2 (mem_entries.mp he).2
        rw [mapM_eq_some.mpr ⟨hall, htabs⟩, Option.some.injEq] at hstaged
        rw [← hstaged, foldl_entries hit hsound.nodup]
    · exact .inl hnone

/-! ### One record -/

attribute [local instance] recordDigests

def visitF : Visit := visitAt 0 (0, recordF.view)

/-- A shard that has seen `RECORD\tf=v`. -/
def oneRecord : Shard FieldMap := ⟨visit (fun _ => []) visitF, 0, 94, 1⟩

def addressTorn : String := "sha256:962d3584adda00d2658e5d438253fba72a4ba3fdc661be0ca211bed0b6bb0c6"

theorem map_oneRecord : oneRecord.map = post (fun _ => []) ("f\tv", addressF) := by
  have htext : strFromUtf8 recordF.payload = some "RECORD\tf=v" := strFromUtf8_eq_some.mpr rfl
  have hpayload : visitF.payload = recordF.payload := rfl
  have hposted : postings visitF = [("f\tv", addressF)] := by
    rw [postings, hpayload, htext]
    rfl
  have hmap : oneRecord.map = visit (fun _ => []) visitF := rfl
  rw [hmap, visit_eq, hposted]
  rfl

theorem built_oneRecord : Built oneRecord where
  map_eq := by
    refine ⟨[visitF], ?_, rfl⟩
    intro v hv
    obtain rfl := mem_singleton.mp hv
    rfl
  fseg_i64 := ⟨by decide, by decide⟩
  foff_i64 := ⟨by decide, by decide⟩

theorem post_one (hash : String) : post (fun _ => []) ("f\tv", hash) "f\tv" = [hash] :=
  post_self (fun _ => []) ("f\tv", hash)

theorem entries_oneRecord : entries oneRecord.map ["f\tv"] = [("f\tv", addressF)] := by
  rw [map_oneRecord, entries, flatMap_singleton, post_one]
  rfl

theorem iterates_oneRecord : Iterates ["f\tv"] oneRecord.map where
  nodup := nodup_singleton _
  mem_iff key := by
    rw [mem_singleton, map_oneRecord]
    constructor
    · rintro rfl
      rw [post_one]
      exact cons_ne_nil _ _
    · intro hne
      by_contra hkey
      exact hne (post_of_ne (e := ("f\tv", addressF)) hkey)
  length_lt := by
    rw [entries_oneRecord, length_singleton]
    norm_num

theorem fieldidxSnapshot_oneRecord : fieldidxSnapshot oneRecord ["f\tv"] =
    textBytes (snapshotHeader 0 94 1 ++ "\n" ++ ("f\tv\t" ++ addressF)) ++ textBytes "\n" := by
  have hseg : oneRecord.fseg = 0 := rfl
  have hoff : oneRecord.foff = 94 := rfl
  rw [fieldidxSnapshot_eq, entries_oneRecord, hseg, hoff, ← textBytes_append]
  rfl

/-- Cut at the line feed behind the last hash, the snapshot gives the posting back. -/
theorem fieldidx_torn_snapshot_line :
    NothingOrAll oneRecord
      (textBytes (snapshotHeader 0 94 1 ++ "\n" ++ ("f\tv\t" ++ addressF))) := by
  have hne : textBytes "\n" ≠ [] := fun h => absurd (textBytes_eq_nil h) (by decide)
  refine (fieldidx_torn_snapshot_iff built_oneRecord iterates_oneRecord ?_ ?_).mpr ?_
  · rw [fieldidxSnapshot_oneRecord]
    exact prefix_append _ _
  · rw [fieldidxSnapshot_oneRecord]
    intro heq
    exact hne (self_eq_append_right.mp heq)
  · rintro ⟨-, hnot⟩
    refine hnot ⟨fieldidxSnapshot_oneRecord.symm, ?_⟩
    rw [entries_oneRecord]
    constructor
    · intro e he
      obtain rfl := mem_singleton.mp he
      exact ⟨by decide, by decide⟩
    · exact nofun

/-- The file but for the last digit and the line feed. -/
def tornPosting : Bytes :=
  textBytes (snapshotHeader 0 94 1 ++ "\n" ++ ("f\tv\t" ++ addressTorn))

/-- Cut in the hash, it gives a posting with another one. -/
theorem fieldidx_torn_snapshot_misread : Built oneRecord ∧ Iterates ["f\tv"] oneRecord.map ∧
    tornPosting <+: fieldidxSnapshot oneRecord ["f\tv"] ∧
    tornPosting ≠ fieldidxSnapshot oneRecord ["f\tv"] ∧
    loadSnapshot (fun _ => []) (some tornPosting) =
      (post (fun _ => []) ("f\tv", addressTorn), 0, 94) ∧ ¬ NothingOrAll oneRecord tornPosting := by
  have hwhole : fieldidxSnapshot oneRecord ["f\tv"] = tornPosting ++ textBytes "3\n" := by
    rw [fieldidxSnapshot_oneRecord, tornPosting, ← textBytes_append, ← textBytes_append]
    rfl
  have hload : loadSnapshot (fun _ => []) (some tornPosting) =
      (post (fun _ => []) ("f\tv", addressTorn), 0, 94) := by
    have htext : SnapshotText "FIELDIDX1" snapshotEntry (snapshotHeader 0 94 1 ++ "\n" ++
        ("f\tv\t" ++ addressTorn)) (0, 94) [("f\tv", addressTorn)] :=
      ⟨_, _, _, _, _, rfl, rfl, rfl, rfl, by decide, by decide, rfl, by decide, rfl⟩
    rw [tornPosting, loadSnapshot, loadBatched_of_snapshotText htext]
    rfl
  refine ⟨built_oneRecord, iterates_oneRecord, ⟨_, hwhole.symm⟩, ?_, hload, ?_⟩
  · rw [hwhole]
    intro heq
    exact absurd (textBytes_eq_nil (self_eq_append_right.mp heq)) (by decide)
  · rintro (hnone | hsome)
    · have hread := congrFun (congrArg Prod.fst (hload.symm.trans (hnone _))) "f\tv"
      exact absurd ((post_one addressTorn).symm.trans hread) (cons_ne_nil _ _)
    · have hread := congrFun (congrArg Prod.fst (hload.symm.trans hsome)) "f\tv"
      rw [map_oneRecord] at hread
      have hsame : [addressTorn] = [addressF] :=
        ((post_one addressTorn).symm.trans hread).trans (post_one addressF)
      exact absurd (List.cons.inj hsame).1 (by decide)

end AxisBridge.FieldIndex
