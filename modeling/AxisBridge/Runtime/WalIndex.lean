import AxisBridge.Runtime.Replay

/-! The content-hash index: its snapshot, its map from a payload's digest to the place of its bytes,
and when a resident read equals a fresh one. -/
namespace AxisBridge
open List Function Epochs

/-- A snapshot in one file: `magic`, the position it is current as of and the number of its entries,
then the entries line by line. What is malformed is no snapshot: nothing is taken from it, and the
position is the log's start. -/
def loadBatched {ε M : Type} (magic : String) (entry : String → Option ε) (commit : M → ε → M)
    (map : M) (file : Option Bytes) : M × ℤ × ℤ :=
  match (file.bind strFromUtf8).map lines with
  | some (hdr :: rest) =>
    match split '\t' hdr with
    | [word, seg, off, len] =>
      let wmSeg := (parseI64 seg).getD (-1)
      let wmOff := (parseI64 off).getD (-1)
      let count := (parseUsize len).getD (2 ^ 64 - 1)
      if word ≠ magic ∨ wmSeg < 0 ∨ wmOff < 0 ∨ count = 2 ^ 64 - 1 then (map, 0, 0)
      else
        match rest.mapM entry with
        | some staged =>
          if staged.length ≠ count then (map, 0, 0) else (staged.foldl commit map, wmSeg, wmOff)
        | none => (map, 0, 0)
    | _ => (map, 0, 0)
  | _ => (map, 0, 0)

/-- Where the bytes of each digest lie: segment, offset and length; a block's number is negated. -/
abbrev WalMap := String → Option (ℤ × ℤ × ℤ)

namespace WalIndex

def insert (map : WalMap) (e : String × ℤ × ℤ × ℤ) : WalMap := update map e.1 (some e.2)

/-- A line of the snapshot. -/
def snapshotEntry (line : String) : Option (String × ℤ × ℤ × ℤ) :=
  match split '\t' line with
  | [key, seg, off, len] =>
    let seg := (parseI64 seg).getD (-1)
    let off := (parseI64 off).getD (-1)
    let len := (parseI64 len).getD (-1)
    if seg < 0 ∨ off < 0 ∨ len < 0 then none else some (key, seg, off, len)
  | _ => none

def loadSnapshot : WalMap → Option Bytes → WalMap × ℤ × ℤ :=
  loadBatched "WALIDX1" snapshotEntry insert

def projection : Projection WalMap where
  empty := fun _ => none
  loadSnapshot := loadSnapshot
  visitSegment map v := insert map (v.hexh, v.seg, v.poff, v.plen)
  visitBlock map v := insert map (v.hexh, -v.seg, v.poff, v.plen)

/-- The answer for a key: the place, its parts apart by tabs. -/
def answer (key : String) (map : WalMap) : String :=
  match map key with
  | some (seg, off, len) => s!"{seg}\t{off}\t{len}"
  | none => ""

section
variable [Sha256] (preallocEnabled : Bool) (d : Volume)

/-- `walidx_res_get`. -/
def resGet (shard segPrefix snapPath key : String) (t : Handles WalMap) :
    Option (Handles WalMap × String) :=
  AxisBridge.resGet projection preallocEnabled d shard segPrefix snapPath (answer key) t

/-- `walidx_get` on a handle opened and rebuilt for it. -/
def freshGet (segPrefix snapPath key : String) (t : Handles WalMap) : Option String :=
  AxisBridge.freshGet projection preallocEnabled d segPrefix snapPath (answer key) t

end

variable {key : String} {e : String × ℤ × ℤ × ℤ} {l : List (String × ℤ × ℤ × ℤ)} {map : WalMap}

/-- The map after some inserts has the last of a key. -/
theorem foldl_insert : l.foldl insert map key =
    ((last (fun e => e.1 = key) l).map Prod.snd).or (map key) := by
  induction l generalizing map with
  | nil => rfl
  | cons e l ih =>
    have hsplit : last (fun e => decide (e.1 = key)) (e :: l) =
        (last (fun e => decide (e.1 = key)) l).or
          (last (fun e => decide (e.1 = key)) [e]) := last_append (l := [e])
    rw [foldl_cons, ih, hsplit]
    by_cases hkey : e.1 = key
    · subst hkey
      have hlast : last (fun e' => decide (e'.1 = e.1)) [e] = some e := by
        simp [last]
      rw [hlast, insert, update_self]
      cases last (fun e' => decide (e'.1 = e.1)) l <;> rfl
    · have hlast : last (fun e' => decide (e'.1 = key)) [e] = none := by
        simp [last, hkey]
      rw [hlast, insert, update_of_ne (Ne.symm hkey), Option.or_none]

theorem answer_insert (key : String) (place : ℤ × ℤ × ℤ) (map : WalMap) :
    answer key (insert map (key, place)) = s!"{place.1}\t{place.2.1}\t{place.2.2}" := by
  simp [answer, insert]

/-- The text of a place in a segment is not that of a place in a block. -/
theorem answer_ne {map' : WalMap} {p q : ℤ × ℤ × ℤ} (hp : map key = some p) (hq : map' key = some q)
    (hseg : 0 ≤ p.1) (hblock : q.1 < 0) : answer key map ≠ answer key map' := by
  obtain ⟨n, hn⟩ := Int.eq_ofNat_of_zero_le hseg
  obtain ⟨k, hk⟩ := Int.eq_negSucc_of_lt_zero hblock
  obtain ⟨seg, off, len⟩ := p
  obtain ⟨seg', off', len'⟩ := q
  simp only at hn hk
  subst hn hk
  intro heq
  have htext : n.repr ++ "\t" ++ toString off ++ "\t" ++ toString len =
      "-" ++ (k + 1).repr ++ "\t" ++ toString off' ++ "\t" ++ toString len' := by
    simp only [answer, hp, hq] at heq
    exact heq
  have hlist := congrArg String.toList htext
  cases hdigits : n.repr.toList with
  | nil => simp [Nat.toDigits_ne_nil] at hdigits
  | cons c cs =>
    simp only [String.toList_append, hdigits, cons_append, append_assoc] at hlist
    have hc : c = '-' := (List.cons.inj hlist).1
    have hmem : c ∈ Nat.toDigits 10 n := by
      have hhead : c ∈ n.repr.toList := hdigits ▸ mem_cons_self
      simpa using hhead
    have hdigit := Nat.isDigit_of_mem_toDigits (by norm_num) (by norm_num) hmem
    rw [hc] at hdigit
    exact absurd hdigit (by decide)

/-- An item of a segment and one of a block, as the visitors insert them. -/
def segmentItem (v : Visit) : String × ℤ × ℤ × ℤ := (v.hexh, v.seg, v.poff, v.plen)

def blockItem (v : Visit) : String × ℤ × ℤ × ℤ := (v.hexh, -v.seg, v.poff, v.plen)

def items (news : List (List Visit × List Visit)) :
    List (List (String × ℤ × ℤ × ℤ) × List (String × ℤ × ℤ × ℤ)) :=
  news.map fun e => (e.1.map segmentItem, e.2.map blockItem)

theorem turns_eq (news : List (List Visit × List Visit)) (map : WalMap) :
    projection.turns news map = (arrival (items news)).foldl insert map := by
  have hfold := foldl_arrival projection.visitSegment projection.visitBlock insert
    (fun v => [segmentItem v]) (fun v => [blockItem v]) (fun _ _ => rfl) (fun _ _ => rfl) news map
  simp only [← map_eq_flatMap] at hfold
  exact hfold

theorem arrival_one_turn (news : List (List Visit × List Visit)) :
    arrival (items [(lefts news, rights news)]) = bySource (items news) := by
  simp [arrival, bySource, lefts, rights, items, map_flatMap, flatMap_map]

end WalIndex

open WalIndex

section
variable [Sha256] {shard : String} {k : ℤ} {v : Visit} {preallocEnabled : Bool}

theorem le_seg_of_mem_frameVisits {fs : List Frame} {off : ℕ} (h : v ∈ frameVisits k off fs) :
    v.seg = k := by
  induction fs generalizing off with
  | nil => cases h
  | cons f fs ih =>
    rcases mem_cons.mp h with rfl | h
    · rfl
    · exact ih h

theorem le_seg_of_mem_logVisits {segs : List (List Frame)} (h : v ∈ logVisits k segs) :
    k ≤ v.seg := by
  induction segs generalizing k with
  | nil => cases h
  | cons s segs ih =>
    rcases mem_append.mp h with h | h
    · exact (le_seg_of_mem_frameVisits h).ge
    · have hle := ih h
      omega

/-- A block with the digest was read, a frame with the digest was appended to a segment after this
read, and no block with it was sealed since. -/
def WalIndex.Stale (key : String) (news : List (List Visit × List Visit)) : Prop :=
  Superseded (fun v => v.hexh = key) news

/-- The resident read and the fresh one both answer; the answers are the same exactly when no frame
of a segment has taken the place of a block read earlier. -/
theorem walidx_resident_eq_fresh_iff (hshard : shard ≠ "") {snapPath key : String}
    {snap : Option Bytes} {s s' : Store preallocEnabled} {t t' : Handles WalMap}
    {es : List (Event preallocEnabled)} {d : Volume} {map : WalMap} {pos : ℤ × ℤ} {n : ℕ}
    (hrun : Run projection shard snapPath snap s t es s' t') (hnew : t.resident shard = none)
    (hsnap : loadSnapshot (fun _ => none) snap = (map, pos)) (hpos : Boundary s.segs n pos)
    (hshow : Shows d shard snapPath snap s') :
    ∃ t₁ resident fresh,
      WalIndex.resGet preallocEnabled d shard (walSegPrefix shard) snapPath key t' =
        some (t₁, resident) ∧
      WalIndex.freshGet preallocEnabled d (walSegPrefix shard) snapPath key t' = some fresh ∧
      (resident = fresh ↔ ¬ Stale key (epochs n 0 s es)) := by
  obtain ⟨⟨t₁, hres⟩, hfresh⟩ := hrun.answers _ hshard hnew hsnap hpos hshow (answer key)
  refine ⟨t₁, _, _, hres, hfresh, ?_⟩
  rw [turns_eq, turns_eq, arrival_one_turn]
  generalize hnews : epochs n 0 s es = news
  have hstale := superseded_map (p := fun e => decide (e.1 = key)) (f := segmentItem)
    (g := blockItem) (q := fun v => decide (v.hexh = key)) (fun _ => rfl) (fun _ => rfl) news
  constructor
  · intro heq hbad
    have hboth := hrun.news _ hpos.le_length (Nat.zero_le s.blocks.length)
    rw [hnews, Store.news, Prod.mk.injEq] at hboth
    obtain ⟨x, hx, y, hy, harr, hsrc⟩ := last_of_superseded (hstale.mpr hbad)
    rw [lefts_map, hboth.1] at hx
    rw [rights_map, hboth.2] at hy
    obtain ⟨v, hv, rfl⟩ := mem_map.mp hx
    obtain ⟨w, hw, rfl⟩ := mem_map.mp hy
    have hseg : 0 ≤ v.seg := le_seg_of_mem_logVisits (mem_of_mem_drop hv)
    have hblock : 0 < w.seg := Int.lt_of_lt_of_le Int.one_pos (le_seg_of_mem_logVisits hw)
    refine answer_ne (p := (segmentItem v).2) (q := (blockItem w).2) ?_ ?_
      hseg (by simpa [blockItem] using hblock) heq
    · rw [foldl_insert, items, harr]
      rfl
    · rw [foldl_insert, items, hsrc]
      rfl
  · intro hgood
    have hlast := last_of_not_superseded (hstale.not.mpr hgood)
    simp only [answer, foldl_insert, items, hlast]

end

attribute [local instance] textDigests

def blockA : SealedBlock true := blockOf frameA (by rw [length_frameA]; norm_num)

theorem walidx_resident_eq_fresh_iff_block :
    ∃ t t₁ text, Run projection "s" "snap" none (⟨[], []⟩ : Store true) (noHandles WalMap)
      [.block blockA] ⟨[], [blockA]⟩ t ∧ WalIndex.resGet true (diskBlock blockA) "s"
      (walSegPrefix "s") "snap" (sha256Hex [97]) t = some (t₁, text) ∧ WalIndex.freshGet true
      (diskBlock blockA) (walSegPrefix "s") "snap" (sha256Hex [97]) t = some text := by
  have hrun : Run projection "s" "snap" none (⟨[], []⟩ : Store true) (noHandles WalMap)
      [.block blockA] ⟨[], [blockA]⟩ (noHandles WalMap) := .write nofun .done
  obtain ⟨t₁, resident, fresh, hres, hfresh, hiff⟩ := @walidx_resident_eq_fresh_iff _ "s" true
    (by decide) "snap" (sha256Hex [97]) none _ _ _ _ _ _ _ _ _ hrun rfl rfl (.inl ⟨rfl, rfl, rfl⟩)
    (shows_diskBlock blockA)
  have hgood : ¬ Stale (sha256Hex [97]) (epochs 0 0 (⟨[], []⟩ : Store true) [.block blockA]) := by
    rintro ⟨pre, post, heq, -, ⟨v, hv, -⟩, -⟩
    have hlefts := congrArg lefts heq
    have hnone : lefts (epochs 0 0 (⟨[], []⟩ : Store true) [.block blockA]) = [] := rfl
    rw [hnone, lefts_append, eq_comm, append_eq_nil_iff] at hlefts
    rw [hlefts.2] at hv
    cases hv
  exact ⟨_, t₁, fresh, hrun, hiff.mpr hgood ▸ hres, hfresh⟩

theorem walidx_resident_stale : ∃ t t₁, Run projection "s" "snap" none (⟨[], []⟩ : Store true)
    (noHandles WalMap) [.block blockA, .read, .append frameA] ⟨[[frameA]], [blockA]⟩ t ∧
    Shows (diskBoth blockA frameA) "s" "snap" none (⟨[[frameA]], [blockA]⟩ : Store true) ∧
    WalIndex.resGet true (diskBoth blockA frameA) "s" (walSegPrefix "s") "snap" (sha256Hex [97]) t =
    some (t₁, "0\t84\t1") ∧ WalIndex.freshGet true (diskBoth blockA frameA)
    (walSegPrefix "s") "snap" (sha256Hex [97]) t = some "-1\t84\t1" := by
  obtain ⟨t, hrun⟩ := exists_run_block_then_frame projection (fun _ => none) rfl
    (answer (sha256Hex [97])) blockA frameA
  obtain ⟨⟨t₁, hres⟩, hfresh⟩ := hrun.answers _ (by decide) rfl rfl (.inl ⟨rfl, rfl, rfl⟩)
    (shows_diskBoth blockA frameA) (answer (sha256Hex [97]))
  have hseg := answer_insert (sha256Hex [97]) (0, 84, 1)
    (insert (fun _ => none) (sha256Hex [97], -1, 84, 1))
  have hblock := answer_insert (sha256Hex [97]) (-1, 84, 1)
    (insert (fun _ => none) (sha256Hex [97], 0, 84, 1))
  refine ⟨t, t₁, hrun, shows_diskBoth blockA frameA, hres.trans ?_, hfresh.trans ?_⟩
  · exact congrArg (fun text => some (t₁, text)) hseg
  · exact congrArg some hblock

end AxisBridge
