import AxisBridge.Runtime.Batched

/-! The snapshot of a shard of the content-hash index: what is written, what the reader makes of the
whole file, and what it makes of a file that was cut short. -/
namespace AxisBridge
open Function List
open Option (getD_some some)

namespace WalIndex

/-! ### What is written -/

/-- `walidx_insert`, the sum in machine arithmetic. -/
def walidxInsert (sh : Shard WalMap) (key : String) (seg off len : ℤ) : Shard WalMap :=
  { sh with map := insert sh.map (key, seg, off, len) }.bumpFrontier seg ((off + len).bmod (2 ^ 64))

def snapshotHeader (seg off : ℤ) (count : ℕ) : String := s!"WALIDX1\t{seg}\t{off}\t{count}"

def snapshotLine (e : String × ℤ × ℤ × ℤ) : String := s!"{e.1}\t{e.2.1}\t{e.2.2.1}\t{e.2.2.2}"

/-- `walidx_snapshot`: the bytes of the file, the entries in the order in which the map gives
them. -/
def walidxSnapshot (sh : Shard WalMap) (entries : List (String × ℤ × ℤ × ℤ)) : Bytes :=
  textBytes (entries.foldl (fun s e => s ++ (snapshotLine e ++ "\n"))
    (snapshotHeader sh.fseg sh.foff entries.length ++ "\n"))

/-- The entries of a map in one of its orders; a map has fewer than `2 ^ 63` of them. -/
structure Iterates (entries : List (String × ℤ × ℤ × ℤ)) (map : WalMap) : Prop where
  nodup : (entries.map Prod.fst).Nodup
  mem_iff : ∀ key place, (key, place) ∈ entries ↔ map key = some place
  length_lt : entries.length < 2 ^ 63

def IsI64 (n : ℤ) : Prop := -2 ^ 63 ≤ n ∧ n < 2 ^ 63

/-- The numbers of a shard are machine integers. -/
structure Machine (sh : Shard WalMap) : Prop where
  fseg : IsI64 sh.fseg
  foff : IsI64 sh.foff
  places : ∀ key seg off len, sh.map key = some (seg, off, len) → IsI64 seg ∧ IsI64 off ∧ IsI64 len

/-- A key that the format can hold. -/
def Plain (key : String) : Prop := '\t' ∉ key.toList ∧ '\n' ∉ key.toList

/-- A place that the format can hold: the reader takes a negative number for an error. -/
def Fits (place : ℤ × ℤ × ℤ) : Prop := 0 ≤ place.1 ∧ 0 ≤ place.2.1 ∧ 0 ≤ place.2.2

instance (place : ℤ × ℤ × ℤ) : Decidable (Fits place) :=
  inferInstanceAs (Decidable (0 ≤ place.1 ∧ 0 ≤ place.2.1 ∧ 0 ≤ place.2.2))

section
variable {entries ls : List (String × ℤ × ℤ × ℤ)} {map : WalMap} {key : String}
  {e : String × ℤ × ℤ × ℤ} {sh : Shard WalMap} {n : ℤ} {txt : String}

theorem walidxSnapshot_eq (sh : Shard WalMap) (entries : List (String × ℤ × ℤ × ℤ)) :
    walidxSnapshot sh entries = textBytes
      (ended (snapshotHeader sh.fseg sh.foff entries.length :: entries.map snapshotLine)) := by
  have hfold : ∀ (ls : List (String × ℤ × ℤ × ℤ)) (s : String),
      ls.foldl (fun s e => s ++ (snapshotLine e ++ "\n")) s = s ++ ended (ls.map snapshotLine) := by
    intro ls
    induction ls with
    | nil => simp
    | cons e ls ih =>
      intro s
      rw [foldl_cons, ih, map_cons, ended_cons, String.append_assoc]
  rw [walidxSnapshot, hfold, ended_cons]

/-- Only keys that are inserted are changed. -/
theorem foldl_insert_of_not_mem (h : key ∉ ls.map Prod.fst) :
    ls.foldl insert map key = map key := by
  induction ls generalizing map with
  | nil => rfl
  | cons e ls ih =>
    rw [map_cons, mem_cons, not_or] at h
    rw [foldl_cons, ih h.2]
    exact update_of_ne h.1 ..

/-- Entries with different keys are all there once they are inserted. -/
theorem foldl_insert_of_mem (hnodup : (ls.map Prod.fst).Nodup) (he : e ∈ ls) :
    ls.foldl insert map e.1 = some e.2 := by
  induction ls generalizing map with
  | nil => cases he
  | cons e' ls ih =>
    rw [map_cons, nodup_cons] at hnodup
    rw [foldl_cons]
    rcases mem_cons.mp he with rfl | he
    · rw [foldl_insert_of_not_mem hnodup.1]
      exact update_self ..
    · exact ih hnodup.2 he

/-- The map over another one. -/
def restored (sh : Shard WalMap) (map : WalMap) : WalMap := fun key => (sh.map key).or (map key)

theorem Iterates.foldl_insert (h : Iterates entries sh.map) (map : WalMap) :
    entries.foldl insert map = restored sh map := by
  funext key
  cases hkey : sh.map key with
  | some place =>
    have hmem := (h.mem_iff key place).mpr hkey
    rw [restored, hkey]
    exact foldl_insert_of_mem h.nodup hmem
  | none =>
    rw [foldl_insert_of_not_mem, restored, hkey]
    · rfl
    · intro hin
      obtain ⟨⟨key', place⟩, he, rfl⟩ := mem_map.mp hin
      rw [(h.mem_iff key' place).mp he] at hkey
      cases hkey

theorem restored_empty (sh : Shard WalMap) : restored sh (fun _ => none) = sh.map := by
  funext key
  exact Option.or_none

/-! ### Fields and lines -/

theorem split_snapshotLine (h : Plain e.1) : split '\t' (snapshotLine e) =
    [e.1, toString e.2.1, toString e.2.2.1, toString e.2.2.2] := by
  have hline : snapshotLine e = _ :=
    fields_eq e.1 (toString e.2.1) (toString e.2.2.1) (toString e.2.2.2)
  rw [hline]
  apply split_intercalate (cons_ne_nil _ _)
  simp only [mem_cons, not_mem_nil, or_false, forall_eq_or_imp, forall_eq]
  exact ⟨h.1, not_mem_int (by decide) rfl _, not_mem_int (by decide) rfl _,
    not_mem_int (by decide) rfl _⟩

theorem chopReturn_snapshotLine (e : String × ℤ × ℤ × ℤ) :
    chopReturn (snapshotLine e) = snapshotLine e := by
  apply chopReturn_append _ (int_ne_empty e.2.2.2)
  intro hlast
  exact not_mem_int (by decide) rfl _ (mem_of_getLast? hlast)

theorem feed_not_mem_snapshotLine (h : Plain e.1) : '\n' ∉ (snapshotLine e).toList := by
  have hline : snapshotLine e = e.1 ++ "\t" ++ toString e.2.1 ++ "\t" ++ toString e.2.2.1 ++ "\t" ++
      toString e.2.2.2 := rfl
  simp only [hline, String.toList_append, mem_append, not_or]
  exact ⟨⟨⟨⟨⟨⟨h.2, by decide⟩, not_mem_int (by decide) rfl _⟩, by decide⟩,
    not_mem_int (by decide) rfl _⟩, by decide⟩, not_mem_int (by decide) rfl _⟩

/-! ### Numbers -/

/-- The number read from some of the digits, the last ones missing, is a smaller one. -/
theorem parseI64_cut {ds : String} (hne : ds ≠ "") (hpre : ds.toList <+: (toString n).toList)
    (hcut : ds ≠ toString n) (hlow : 0 ≤ n) (hn : IsI64 n) :
    ∃ k : ℕ, parseI64 ds = some (k : ℤ) ∧ (k : ℤ) < n := by
  cases n with
  | ofNat m =>
    obtain ⟨k, hk, -, hlt⟩ := digitsVal_cut hne hpre hcut
    have hm : (m : ℤ) < 2 ^ 63 := hn.2
    exact ⟨k, parseI64_digits hk (by omega), Int.ofNat_lt.mpr hlt⟩
  | negSucc m => exact absurd hlow (by omega)

/-- However much of a negative number is left, the reader finds an error. -/
theorem parseI64_cut_neg {ds : String} (hpre : ds.toList <+: (toString n).toList) (hneg : n < 0) :
    (parseI64 ds).getD (-1) < 0 := by
  cases n with
  | ofNat m => exact absurd hneg (not_lt.mpr (Int.natCast_nonneg m))
  | negSucc m =>
    rw [toList_negSucc] at hpre
    cases hds : ds.toList with
    | nil =>
      rw [String.toList_eq_nil_iff.mp hds]
      decide
    | cons c cs =>
      rw [hds, cons_prefix_cons] at hpre
      obtain ⟨rfl, hcs⟩ := hpre
      have hpos : ∀ k, digitsVal cs = some k → k ≠ 0 := by
        intro k hk
        by_cases hwhole : String.ofList cs = (m + 1).repr
        · have hval : digitsVal (m + 1).repr.toList = some (m + 1) := by
            rw [← padded_zero, digitsVal_padded]
          rw [← hwhole, String.toList_ofList, hk] at hval
          cases hval
          exact Nat.succ_ne_zero m
        · by_cases hempty : String.ofList cs = ""
          · rw [← String.toList_ofList (l := cs), hempty] at hk
            cases hk
          · obtain ⟨k', hk', hne, -⟩ := digitsVal_cut hempty (by rwa [String.toList_ofList]) hwhole
            rw [String.toList_ofList, hk] at hk'
            cases hk'
            exact hne
      simp only [parseI64, hds]
      cases hnum : (digitsVal cs).filter (· ≤ 2 ^ 63) with
      | none => decide
      | some k =>
        have hk := hpos k (Option.filter_eq_some_iff.mp hnum).1
        simp only [Option.map_some, getD_some]
        have hcast : Int.ofNat k = (k : ℤ) := rfl
        omega

/-! ### Lines read back -/

/-- An entry with a key that the format can hold and numbers of the machine. -/
def Written (e : String × ℤ × ℤ × ℤ) : Prop :=
  Plain e.1 ∧ IsI64 e.2.1 ∧ IsI64 e.2.2.1 ∧ IsI64 e.2.2.2

variable {line a b c : String}

theorem snapshotEntry_of_split (h : split '\t' line = [key, a, b, c])
    (he : snapshotEntry line = some e) :
    parseI64 a = some e.2.1 ∧ parseI64 b = some e.2.2.1 ∧ parseI64 c = some e.2.2.2 ∧ key = e.1 ∧
      Fits e.2 := by
  simp only [snapshotEntry, h] at he
  split at he
  · cases he
  · next hok =>
    cases he
    simp only [not_or] at hok
    exact ⟨eq_some_of_getD hok.1, eq_some_of_getD hok.2.1, eq_some_of_getD hok.2.2, rfl,
      not_lt.mp hok.1, not_lt.mp hok.2.1, not_lt.mp hok.2.2⟩

theorem split_of_snapshotEntry (h : snapshotEntry line = some e) :
    ∃ a b c d, split '\t' line = [a, b, c, d] := by
  unfold snapshotEntry at h
  split at h
  · next hsplit => exact ⟨_, _, _, _, hsplit⟩
  · cases h

theorem snapshotEntry_of_fits {seg off len : ℤ} (h : split '\t' line = [key, a, b, c])
    (ha : parseI64 a = some seg) (hb : parseI64 b = some off) (hc : parseI64 c = some len)
    (hfits : Fits (seg, off, len)) : snapshotEntry line = some (key, seg, off, len) := by
  have hok : ¬ (seg < 0 ∨ off < 0 ∨ len < 0) := by
    simp only [Fits] at hfits
    omega
  simp only [snapshotEntry, h, ha, hb, hc, getD_some, if_neg hok]

theorem snapshotEntry_snapshotLine (h : Written e) :
    snapshotEntry (snapshotLine e) = if Fits e.2 then some e else none := by
  obtain ⟨hkey, hseg, hoff, hlen⟩ := h
  have hsplit := split_snapshotLine hkey
  have hseg := parseI64_toString hseg.1 hseg.2
  have hoff := parseI64_toString hoff.1 hoff.2
  have hlen := parseI64_toString hlen.1 hlen.2
  split
  · next hfits => exact snapshotEntry_of_fits hsplit hseg hoff hlen hfits
  · next hfits =>
    refine Option.eq_none_iff_forall_ne_some.mpr fun e' he' => hfits ?_
    obtain ⟨hseg', hoff', hlen', -, hfits'⟩ := snapshotEntry_of_split hsplit he'
    rw [hseg, some.injEq] at hseg'
    rw [hoff, some.injEq] at hoff'
    rw [hlen, some.injEq] at hlen'
    rw [Fits, hseg', hoff', hlen']
    exact hfits'

/-- All lines are read back as they were written, or there is one that is not. -/
theorem mapM_snapshotLine (h : ∀ e ∈ ls, Written e) :
    (ls.map snapshotLine).mapM snapshotEntry = some ls ∧ (∀ e ∈ ls, Fits e.2) ∨
      (ls.map snapshotLine).mapM snapshotEntry = none ∧ ¬ ∀ e ∈ ls, Fits e.2 := by
  induction ls with
  | nil => exact .inl ⟨rfl, nofun⟩
  | cons e ls ih =>
    have hline := snapshotEntry_snapshotLine (h e mem_cons_self)
    rw [map_cons, mapM_cons, hline]
    by_cases hfits : Fits e.2
    · rw [if_pos hfits]
      rcases ih fun e he => h e (mem_cons_of_mem _ he) with ⟨heq, hall⟩ | ⟨heq, hnot⟩
      · left
        rw [heq]
        exact ⟨rfl, forall_mem_cons.mpr ⟨hfits, hall⟩⟩
      · right
        rw [heq]
        exact ⟨rfl, fun hall => hnot (forall_mem_cons.mp hall).2⟩
    · right
      rw [if_neg hfits]
      exact ⟨rfl, fun hall => hfits (forall_mem_cons.mp hall).1⟩

theorem lines_snapshotLines (h : ∀ e ∈ ls, Written e) {r : String} (hr : '\n' ∉ r.toList) :
    lines (ended (ls.map snapshotLine) ++ r) =
      ls.map snapshotLine ++ if r = "" then [] else [r] := by
  rw [lines_ended _ hr, map_map]
  · have hchop : chopReturn ∘ snapshotLine = snapshotLine := funext chopReturn_snapshotLine
    rw [hchop]
  · intro line hline
    obtain ⟨e, he, rfl⟩ := mem_map.mp hline
    exact feed_not_mem_snapshotLine (h e he).1

theorem Machine.headed (hm : Machine sh) {count : ℕ} (hcount : count < 2 ^ 63) :
    Headed "WALIDX1" sh.fseg sh.foff count :=
  ⟨by decide, by decide, hm.fseg, hm.foff, hcount⟩

theorem snapshotHeader_eq (seg off : ℤ) (count : ℕ) :
    snapshotHeader seg off count = batchHeader "WALIDX1" seg off count := rfl

/-! ### The whole file -/

/-- The keys of a map can be written, and its numbers are the machine's. -/
def Keyed (map : WalMap) : Prop := ∀ key place, map key = some place → Plain key

theorem Iterates.written (h : Iterates entries sh.map) (hkeys : Keyed sh.map) (hm : Machine sh) :
    ∀ e ∈ entries, Written e := by
  intro e he
  have hkey := (h.mem_iff e.1 e.2).mp he
  exact ⟨hkeys e.1 e.2 hkey, hm.places e.1 _ _ _ hkey⟩

/-- Read back into any map, the whole file gives what was written if the reader takes all its
numbers, and nothing otherwise. -/
theorem loadSnapshot_whole (hit : Iterates entries sh.map) (hkeys : Keyed sh.map) (hm : Machine sh)
    (map : WalMap) : loadSnapshot map (some (walidxSnapshot sh entries)) =
      if 0 ≤ sh.fseg ∧ 0 ≤ sh.foff ∧ ∀ e ∈ entries, Fits e.2 then
        (restored sh map, sh.fseg, sh.foff)
      else (map, 0, 0) := by
  have hwritten := hit.written hkeys hm
  have hlines : lines (ended (snapshotHeader sh.fseg sh.foff entries.length ::
      entries.map snapshotLine)) =
      snapshotHeader sh.fseg sh.foff entries.length :: entries.map snapshotLine := by
    have hbody := lines_snapshotLines hwritten (r := "") not_mem_nil
    rw [String.append_empty, if_pos rfl, append_nil] at hbody
    rw [ended_cons, snapshotHeader_eq, (hm.headed hit.length_lt).lines_header, hbody]
  rw [walidxSnapshot_eq]
  rcases mapM_snapshotLine hwritten with ⟨hmap, hfits⟩ | ⟨hmap, hfits⟩
  · by_cases hpos : 0 ≤ sh.fseg ∧ 0 ≤ sh.foff
    · have htext :=
        ((hm.headed hit.length_lt).snapshotText_iff hlines).mpr ⟨rfl, hpos.1, hpos.2, rfl, hmap⟩
      rw [if_pos ⟨hpos.1, hpos.2, hfits⟩, loadSnapshot, loadBatched_of_snapshotText htext,
        hit.foldl_insert]
    · rw [if_neg fun h => hpos ⟨h.1, h.2.1⟩]
      rcases loadBatched_cases "WALIDX1" snapshotEntry insert (some (textBytes _)) with
        ⟨txt, pos, staged, hfile, htext⟩ | hnone
      · rw [some.injEq, ← strFromUtf8_eq_some, strFromUtf8_textBytes,
          some.injEq] at hfile
        subst hfile
        obtain ⟨-, hseg, hoff, -⟩ := ((hm.headed hit.length_lt).snapshotText_iff hlines).mp htext
        exact absurd ⟨hseg, hoff⟩ hpos
      · exact hnone map
  · rw [if_neg fun h => hfits h.2.2]
    rcases loadBatched_cases "WALIDX1" snapshotEntry insert (some (textBytes _)) with
      ⟨txt, pos, staged, hfile, htext⟩ | hnone
    · rw [some.injEq, ← strFromUtf8_eq_some, strFromUtf8_textBytes,
        some.injEq] at hfile
      subst hfile
      obtain ⟨-, -, -, -, hmap'⟩ := ((hm.headed hit.length_lt).snapshotText_iff hlines).mp htext
      rw [hmap] at hmap'
      cases hmap'
    · exact hnone map

/-! ### A file cut short -/

/-- A line cut short that has all its fields is cut in the length. -/
theorem line_cut {r d : String} {seg off len : ℤ} (hkey : Plain key)
    (hpre : r.toList <+: (snapshotLine (key, seg, off, len)).toList)
    (hsplit : split '\t' r = [a, b, c, d]) :
    a = key ∧ b = toString seg ∧ c = toString off ∧ d.toList <+: (toString len).toList ∧
      r = key ++ "\t" ++ toString seg ++ "\t" ++ toString off ++ "\t" ++ d := by
  have hrow :
      split '\t' (key ++ "\t" ++ toString seg ++ "\t" ++ toString off ++ String.singleton '\t' ++
        toString len) = [key, toString seg, toString off] ++ [toString len] :=
    split_snapshotLine (e := (key, seg, off, len)) hkey
  have hcut : split '\t' r = [a, b, c] ++ [d] := hsplit
  obtain ⟨hfields, hd, hr⟩ := cut_last_field (not_mem_int (by decide) rfl _) hrow hpre hcut rfl
  simp only [List.cons.injEq, and_true] at hfields
  obtain ⟨rfl, rfl, rfl⟩ := hfields
  exact ⟨rfl, rfl, rfl, hd, hr⟩

/-- Nothing is taken from the file, or all of it is. -/
def NothingOrAll (sh : Shard WalMap) (file : Bytes) : Prop :=
  ∀ map, loadSnapshot map (some file) = (map, 0, 0) ∨
    loadSnapshot map (some file) = (restored sh map, sh.fseg, sh.foff)

/-- The cut is between two digits of the last entry's length, and the reader takes all numbers. -/
def LengthCut (sh : Shard WalMap) (entries : List (String × ℤ × ℤ × ℤ)) (file : Bytes) :
    Prop :=
  0 ≤ sh.fseg ∧ 0 ≤ sh.foff ∧ (∀ e ∈ entries, Fits e.2) ∧
    ∃ front key seg off len ds, entries = front ++ [(key, seg, off, len)] ∧ ds ≠ "" ∧
      ds ≠ toString len ∧ ds.toList <+: (toString len).toList ∧
      file = textBytes (snapshotHeader sh.fseg sh.foff entries.length ++ "\n" ++
        (ended (front.map snapshotLine) ++
          (key ++ "\t" ++ toString seg ++ "\t" ++ toString off ++ "\t" ++ ds)))

/-- A text in the format of a snapshot. -/
def InFormat (file : Bytes) : Prop :=
  ∃ txt pos staged, file = textBytes txt ∧ SnapshotText "WALIDX1" snapshotEntry txt pos staged

/-- The cuts that the reader does not notice: with keys that the format can hold, those inside the
last length; with other keys, those that leave a text in the format. -/
def Misread (sh : Shard WalMap) (entries : List (String × ℤ × ℤ × ℤ)) (file : Bytes) : Prop :=
  (Keyed sh.map ∧ LengthCut sh entries file) ∨ (¬ Keyed sh.map ∧ InFormat file)

/-- What is accepted of a file cut short and does not give what was written is cut in the last
length. -/
theorem lengthCut_of_accepted (hit : Iterates entries sh.map) (hkeys : Keyed sh.map)
    (hm : Machine sh) {u : String} {staged : List (String × ℤ × ℤ × ℤ)}
    (hpre : u.toList <+: (ended (entries.map snapshotLine)).toList)
    (hcut : u ≠ ended (entries.map snapshotLine)) (hlen : staged.length = entries.length)
    (hmap : (lines u).mapM snapshotEntry = some staged) :
    staged = entries ∨ (∀ e ∈ entries, Fits e.2) ∧
      ∃ front key seg off len ds, entries = front ++ [(key, seg, off, len)] ∧ ds ≠ "" ∧ ds ≠
      toString len ∧ ds.toList <+: (toString len).toList ∧ u = ended (front.map snapshotLine) ++
      (key ++ "\t" ++ toString seg ++ "\t" ++ toString off ++ "\t" ++ ds) := by
  have hwritten := hit.written hkeys hm
  rcases prefix_ended hpre with heq | ⟨lfront, line, lback, r, hsplit, hr, rfl⟩
  · exact absurd heq hcut
  · obtain ⟨front, rest, rfl, rfl, hrest⟩ := map_eq_append_iff.mp hsplit
    obtain ⟨⟨key, seg, off, len⟩, back, rfl, rfl, rfl⟩ := map_eq_cons_iff.mp hrest
    have hfront : ∀ e ∈ front, Written e := fun e he => hwritten e (mem_append_left _ he)
    have hlast : Written (key, seg, off, len) :=
      hwritten _ (mem_append_right _ mem_cons_self)
    have hfeed : '\n' ∉ r.toList := fun hmem =>
      feed_not_mem_snapshotLine (e := (key, seg, off, len)) hlast.1 (hr.subset hmem)
    rw [lines_snapshotLines hfront hfeed] at hmap
    have hcount := mapM_length hmap
    simp only [length_append, length_map, length_cons] at hcount hlen
    have hne : r ≠ "" := by
      intro hempty
      rw [if_pos hempty, length_nil] at hcount
      omega
    rw [if_neg hne] at hmap hcount
    have hback : back = [] := by
      apply eq_nil_of_length_eq_zero
      rw [length_singleton] at hcount
      omega
    subst hback
    rw [mapM_append] at hmap
    obtain ⟨front', hmapfront, hmap⟩ := Option.bind_eq_some_iff.mp hmap
    obtain ⟨last, hmaplast, hmap⟩ := Option.bind_eq_some_iff.mp hmap
    cases hmap
    rcases mapM_snapshotLine hfront with ⟨heq, hfits⟩ | ⟨heq, -⟩
    · rw [heq, some.injEq] at hmapfront
      subst hmapfront
      rw [mapM_cons] at hmaplast
      obtain ⟨e, he, hmaplast⟩ := Option.bind_eq_some_iff.mp hmaplast
      cases hmaplast
      obtain ⟨a, b, c, d, hfields⟩ := split_of_snapshotEntry he
      obtain ⟨rfl, rfl, rfl, hd, rfl⟩ := line_cut hlast.1 hr hfields
      obtain ⟨hseg, hoff, hnum, hkey, hfit⟩ := snapshotEntry_of_split hfields he
      rw [parseI64_toString hlast.2.1.1 hlast.2.1.2, some.injEq] at hseg
      rw [parseI64_toString hlast.2.2.1.1 hlast.2.2.1.2, some.injEq] at hoff
      by_cases hwhole : d = toString len
      · left
        rw [hwhole, parseI64_toString hlast.2.2.2.1 hlast.2.2.2.2, some.injEq] at hnum
        have heq : e = (a, seg, off, len) :=
          Prod.ext hkey.symm (Prod.ext hseg.symm (Prod.ext hoff.symm hnum.symm))
        rw [heq]
        rfl
      · right
        have hpos : 0 ≤ len := by
          by_contra hneg
          have herr := parseI64_cut_neg hd (not_le.mp hneg)
          rw [hnum, getD_some] at herr
          exact absurd hfit.2.2 (not_le.mpr herr)
        refine ⟨?_, front, a, seg, off, len, d, rfl, ?_, hwhole, hd, rfl⟩
        · intro e' he'
          rcases mem_append.mp he' with he' | he'
          · exact hfits e' he'
          · obtain rfl := mem_singleton.mp he'
            exact ⟨hseg ▸ hfit.1, hoff ▸ hfit.2.1, hpos⟩
        · rintro rfl
          cases hnum
    · rw [heq] at hmapfront
      cases hmapfront

/-- A cut in the last length gives the last entry another length. -/
theorem not_nothingOrAll_of_lengthCut (hit : Iterates entries sh.map) (hkeys : Keyed sh.map)
    (hm : Machine sh) {file : Bytes} (h : LengthCut sh entries file) :
    ¬ NothingOrAll sh file := by
  obtain ⟨hfseg, hfoff, hfits, front, key, seg, off, len, ds, heq, hne, hcut, hds, rfl⟩ := h
  have hwritten := hit.written hkeys hm
  have hmem : (key, seg, off, len) ∈ entries := heq ▸ mem_append_right _ mem_cons_self
  obtain ⟨hkey, hseg, hoff, hlen⟩ := hwritten _ hmem
  have hfit := hfits _ hmem
  have hfront : ∀ e ∈ front, Written e := fun e he =>
    hwritten e (heq ▸ mem_append_left _ he)
  obtain ⟨k, hk, hlt⟩ := parseI64_cut hne hds hcut hfit.2.2 hlen
  have htab : "\t" = String.singleton '\t' := rfl
  have hr : '\n' ∉ (key ++ "\t" ++ toString seg ++ "\t" ++ toString off ++ "\t" ++ ds).toList := by
    simp only [String.toList_append, mem_append, not_or]
    exact ⟨⟨⟨⟨⟨⟨hkey.2, by decide⟩, not_mem_int (by decide) rfl _⟩, by decide⟩,
      not_mem_int (by decide) rfl _⟩, by decide⟩,
      fun hmem => not_mem_int (by decide) rfl _ (hds.subset hmem)⟩
  have hrne : key ++ "\t" ++ toString seg ++ "\t" ++ toString off ++ "\t" ++ ds ≠ "" := by
    intro hempty
    exact hne (String.append_eq_empty_iff.mp hempty).2
  have hsplit : split '\t' (key ++ "\t" ++ toString seg ++ "\t" ++ toString off ++ "\t" ++ ds) =
      [key, toString seg, toString off, ds] := by
    rw [fields_eq]
    apply split_intercalate (cons_ne_nil _ _)
    simp only [mem_cons, not_mem_nil, or_false, forall_eq_or_imp, forall_eq]
    exact ⟨hkey.1, not_mem_int (by decide) rfl _, not_mem_int (by decide) rfl _,
      fun hmem => not_mem_int (by decide) rfl _ (hds.subset hmem)⟩
  have hlast := snapshotEntry_of_fits hsplit (parseI64_toString hseg.1 hseg.2)
    (parseI64_toString hoff.1 hoff.2) hk ⟨hfit.1, hfit.2.1, Int.natCast_nonneg k⟩
  generalize key ++ "\t" ++ toString seg ++ "\t" ++ toString off ++ "\t" ++ ds = r at *
  have hlines : lines (snapshotHeader sh.fseg sh.foff entries.length ++ "\n" ++
      (ended (front.map snapshotLine) ++ r)) =
      snapshotHeader sh.fseg sh.foff entries.length :: (front.map snapshotLine ++ [r]) := by
    rw [snapshotHeader_eq, (hm.headed hit.length_lt).lines_header, lines_snapshotLines hfront hr,
      if_neg hrne]
  have hmap : (front.map snapshotLine ++ [r]).mapM snapshotEntry =
      some (front ++ [(key, seg, off, (k : ℤ))]) := by
    rcases mapM_snapshotLine hfront with ⟨hall, -⟩ | ⟨-, hnot⟩
    · rw [mapM_append, hall, mapM_cons, hlast]
      rfl
    · exact absurd (fun e he => hfits e (heq ▸ mem_append_left _ he)) hnot
  have htext := ((hm.headed hit.length_lt).snapshotText_iff hlines).mpr
    ⟨rfl, hfseg, hfoff, by rw [heq, length_append, length_append]; rfl, hmap⟩
  have hread : (loadSnapshot (fun _ => none) (some (textBytes (snapshotHeader sh.fseg sh.foff
      entries.length ++ "\n" ++ (ended (front.map snapshotLine) ++ r))))).1 key =
      some (seg, off, (k : ℤ)) := by
    rw [loadSnapshot, loadBatched_of_snapshotText htext, foldl_append]
    exact update_self ..
  intro hall
  rcases hall (fun _ => none) with hload | hload
  · rw [hload] at hread
    cases hread
  · rw [hload, restored_empty] at hread
    have hplace := ((hit.mem_iff key _).mp hmem).symm.trans hread
    have hsame : len = k := congrArg (fun place => place.2.2) (some.inj hplace)
    omega

/-- The keys that are read can be written. -/
theorem plain_of_mapM {lines : List String} (hfeed : ∀ line ∈ lines, '\n' ∉ line.toList)
    (hmap : lines.mapM snapshotEntry = some ls) : ∀ e ∈ ls, Plain e.1 := by
  induction lines generalizing ls with
  | nil =>
    rw [mapM_nil] at hmap
    cases hmap
    exact nofun
  | cons line lines ih =>
    rw [mapM_cons] at hmap
    obtain ⟨e, he, hmap⟩ := Option.bind_eq_some_iff.mp hmap
    obtain ⟨ls', hls', hmap⟩ := Option.bind_eq_some_iff.mp hmap
    cases hmap
    refine forall_mem_cons.mpr ⟨?_, ih (fun l hl => hfeed l (mem_cons_of_mem _ hl)) hls'⟩
    obtain ⟨a, b, c, d, hsplit⟩ := split_of_snapshotEntry he
    obtain ⟨-, -, -, rfl, -⟩ := snapshotEntry_of_split hsplit he
    have hmem : e.1 ∈ split '\t' line := by
      rw [hsplit]
      exact mem_cons_self
    obtain ⟨htab, hsub⟩ := of_mem_split hmem
    exact ⟨htab, fun hin => hfeed line mem_cons_self (hsub hin)⟩

theorem snapshotText_plain {pos : ℤ × ℤ} (h : SnapshotText "WALIDX1" snapshotEntry txt pos ls) :
    ∀ e ∈ ls, Plain e.1 := by
  obtain ⟨hdr, rest, _, _, _, hlines, -, -, -, -, -, -, -, hmap⟩ := h
  refine plain_of_mapM (fun line hline => ?_) hmap
  have hmem : line ∈ lines txt := by
    rw [hlines]
    exact mem_cons_of_mem _ hline
  exact feed_not_mem_lines hmem

theorem foldl_insert_ne_none (hne : ls ≠ []) : ls.foldl insert (fun _ => none) ≠ fun _ => none := by
  rcases eq_nil_or_concat ls with rfl | ⟨init, last, rfl⟩
  · exact absurd rfl hne
  · intro hnone
    have hlast := congrFun hnone last.1
    rw [concat_eq_append, foldl_append] at hlast
    have hsome : insert (init.foldl insert fun _ => none) last last.1 = some last.2 :=
      update_self ..
    rw [foldl_cons, foldl_nil, hsome] at hlast
    cases hlast

/-- Every proper prefix of a snapshot gives nothing or all of it, except the cuts that the reader
does not notice. -/
theorem walidx_torn_snapshot_iff {file : Bytes} (hit : Iterates entries sh.map)
    (hm : Machine sh) (hpre : file <+: walidxSnapshot sh entries)
    (hcut : file ≠ walidxSnapshot sh entries) :
    NothingOrAll sh file ↔ ¬ Misread sh entries file := by
  rw [walidxSnapshot_eq, ended_cons] at hpre hcut
  constructor
  · rintro hall (⟨hkeys, hlength⟩ | ⟨hkeys, txt, pos, staged, rfl, htext⟩)
    · exact not_nothingOrAll_of_lengthCut hit hkeys hm hlength hall
    · -- the key that cannot be written is not among those that are read
      obtain ⟨key, hkey⟩ := not_forall.mp hkeys
      obtain ⟨place, hkey⟩ := not_forall.mp hkey
      rw [Classical.not_imp] at hkey
      obtain ⟨hplace, hbad⟩ := hkey
      have hload : loadSnapshot (fun _ => none) (some (textBytes txt)) = _ :=
        loadBatched_of_snapshotText htext (fun _ => none)
      have hmem := (hit.mem_iff key place).mpr hplace
      rcases hall (fun _ => none) with hnone | hsome
      · rw [hload] at hnone
        have hstaged : staged = [] := by
          by_contra hne
          exact foldl_insert_ne_none hne (congrArg Prod.fst hnone)
        subst hstaged
        rcases (hm.headed hit.length_lt).torn (prefix_of_textBytes hpre) htext with
          ⟨-, hnil, -⟩ | ⟨u, -, -, hlines⟩
        · rw [eq_nil_of_length_eq_zero hnil] at hmem
          cases hmem
        · obtain ⟨-, -, -, hlen, -⟩ := ((hm.headed hit.length_lt).snapshotText_iff hlines).mp htext
          rw [eq_nil_of_length_eq_zero hlen.symm] at hmem
          cases hmem
      · rw [hload, restored_empty] at hsome
        have hread : staged.foldl insert (fun _ => none) key = sh.map key :=
          congrFun (congrArg Prod.fst hsome) key
        rw [foldl_insert_of_not_mem, hplace] at hread
        · cases hread
        · intro hin
          obtain ⟨e, he, rfl⟩ := mem_map.mp hin
          exact hbad (snapshotText_plain htext e he)
  · intro hgood
    rcases loadBatched_cases "WALIDX1" snapshotEntry insert (some file) with
      ⟨txt, pos, staged, hfile, htext⟩ | hnone
    · obtain rfl := some.inj hfile
      by_cases hkeys : Keyed sh.map
      · intro map
        right
        have hload : loadSnapshot map (some (textBytes txt)) = _ :=
          loadBatched_of_snapshotText htext map
        rw [hload]
        rcases (hm.headed hit.length_lt).torn (prefix_of_textBytes hpre) htext with
          ⟨-, hnil, rfl, rfl⟩ | ⟨u, rfl, hu, hlines⟩
        · obtain rfl := eq_nil_of_length_eq_zero hnil
          rw [← hit.foldl_insert]
        · obtain ⟨rfl, hfseg, hfoff, hlen, hmap⟩ :=
            ((hm.headed hit.length_lt).snapshotText_iff hlines).mp htext
          have hne : u ≠ ended (entries.map snapshotLine) := by
            rintro rfl
            exact hcut rfl
          rcases lengthCut_of_accepted hit hkeys hm hu hne hlen hmap with
            rfl | ⟨hfits, front, key, seg, off, len, ds, heq, hds, hdsne, hdspre, rfl⟩
          · rw [hit.foldl_insert]
          · exact absurd (.inl ⟨hkeys, hfseg, hfoff, hfits, front, key, seg, off, len, ds, heq, hds,
              hdsne, hdspre, rfl⟩) hgood
      · exact absurd (.inr ⟨hkeys, txt, pos, staged, rfl, htext⟩) hgood
    · exact fun map => .inl (hnone map)

/-! ### One entry -/

theorem Iterates.cons {map : WalMap} {place : ℤ × ℤ × ℤ} (h : Iterates entries map)
    (hkey : key ∉ entries.map Prod.fst) (hlen : entries.length + 1 < 2 ^ 63) :
    Iterates ((key, place) :: entries) (insert map (key, place)) where
  nodup := nodup_cons.mpr ⟨hkey, h.nodup⟩
  mem_iff key' place' := by
    by_cases hsame : key' = key
    · subst hsame
      have hself : insert map (key', place) key' = some place := update_self ..
      rw [hself, mem_cons, some.injEq]
      constructor
      · rintro (heq | hmem)
        · cases heq
          rfl
        · exact absurd (mem_map_of_mem hmem) hkey
      · rintro rfl
        exact .inl rfl
    · have hother : insert map (key, place) key' = map key' := update_of_ne hsame ..
      rw [hother, ← h.mem_iff, mem_cons]
      exact or_iff_right fun heq => hsame (congrArg Prod.fst heq)
  length_lt := hlen

theorem iterates_one (key : String) (place : ℤ × ℤ × ℤ) :
    Iterates [(key, place)] (insert (fun _ => none) (key, place)) :=
  Iterates.cons ⟨nodup_nil, fun _ _ => ⟨nofun, nofun⟩, by decide⟩ not_mem_nil (by decide)

theorem eq_of_map_one {place place' : ℤ × ℤ × ℤ} {key' : String}
    (h : insert (fun _ => none) (key, place) key' = some place') : key' = key ∧ place' = place :=
  Prod.mk.inj (mem_singleton.mp (((iterates_one key place).mem_iff key' place').mpr h))

end

def digestA : String := "ca978112ca1bbdcafac231b39a23dc4da786eff8147c4e72b9807785afee48bb"

/-- A shard with one object of twelve bytes. -/
def oneObject : Shard WalMap := walidxInsert projection.openShard digestA 0 84 12

def oneEntry : List (String × ℤ × ℤ × ℤ) := [(digestA, 0, 84, 12)]

theorem iterates_oneObject : Iterates oneEntry oneObject.map := iterates_one digestA (0, 84, 12)

theorem place_oneObject : oneObject.map digestA = some (0, 84, 12) :=
  (iterates_oneObject.mem_iff digestA _).mp mem_cons_self

theorem keyed_oneObject : Keyed oneObject.map := by
  intro key place hplace
  obtain ⟨rfl, -⟩ := eq_of_map_one hplace
  exact ⟨by decide, by decide⟩

theorem machine_oneObject : Machine oneObject where
  fseg := ⟨by decide, by decide⟩
  foff := ⟨by decide, by decide⟩
  places key seg off len hplace := by
    obtain ⟨-, heq⟩ := eq_of_map_one hplace
    cases heq
    exact ⟨⟨by decide, by decide⟩, ⟨by decide, by decide⟩, ⟨by decide, by decide⟩⟩

/-- The file but for the last digit and the line feed. -/
def tornEntry : Bytes :=
  textBytes (snapshotHeader 0 96 1 ++ "\n" ++ (digestA ++ "\t0\t84\t1"))

/-- Cut inside the length, the snapshot gives the object one byte. -/
theorem walidx_torn_snapshot_misread : tornEntry <+: walidxSnapshot oneObject oneEntry ∧
    tornEntry ≠ walidxSnapshot oneObject oneEntry ∧
    loadSnapshot (fun _ => none) (some tornEntry) =
      (insert (fun _ => none) (digestA, 0, 84, 1), 0, 96) ∧ ¬ NothingOrAll oneObject tornEntry := by
  have hwhole : walidxSnapshot oneObject oneEntry = tornEntry ++ textBytes "2\n" := by
    rw [tornEntry, ← textBytes_append]
    rfl
  have hload : loadSnapshot (fun _ => none) (some tornEntry) =
      (insert (fun _ => none) (digestA, 0, 84, 1), 0, 96) := by
    have htext : SnapshotText "WALIDX1" snapshotEntry (snapshotHeader 0 96 1 ++ "\n" ++
        (digestA ++ "\t0\t84\t1")) (0, 96) [(digestA, 0, 84, 1)] :=
      ⟨_, _, _, _, _, rfl, rfl, rfl, rfl, by decide, by decide, rfl, by decide, rfl⟩
    rw [tornEntry, loadSnapshot, loadBatched_of_snapshotText htext]
    rfl
  refine ⟨⟨_, hwhole.symm⟩, ?_, hload, ?_⟩
  · rw [hwhole]
    intro heq
    have hrest : textBytes "2\n" = [] := self_eq_append_right.mp heq
    exact absurd (textBytes_eq_nil hrest) (by decide)
  · intro hall
    have hread : (loadSnapshot (fun _ => none) (some tornEntry)).1 digestA = some (0, 84, 1) := by
      rw [hload]
      exact update_self digestA (some ((0 : ℤ), (84 : ℤ), (1 : ℤ))) (fun _ => none)
    rcases hall (fun _ => none) with hnone | hsome
    · rw [hnone] at hread
      cases hread
    · rw [hsome, restored_empty] at hread
      have hplace := place_oneObject.symm.trans hread
      cases hplace

/-- Cut at the line feed behind the last entry, it gives the object back. -/
theorem walidx_torn_snapshot_line :
    NothingOrAll oneObject
      (textBytes (snapshotHeader 0 96 1 ++ "\n" ++ (digestA ++ "\t0\t84\t12"))) := by
  have hwhole : walidxSnapshot oneObject oneEntry = textBytes
      (snapshotHeader 0 96 1 ++ "\n" ++ (digestA ++ "\t0\t84\t12")) ++ textBytes "\n" := by
    rw [← textBytes_append]
    rfl
  refine (walidx_torn_snapshot_iff iterates_oneObject machine_oneObject ⟨_, hwhole.symm⟩ ?_).mpr ?_
  · rw [hwhole]
    intro heq
    have hrest : textBytes "\n" = [] := self_eq_append_right.mp heq
    exact absurd (textBytes_eq_nil hrest) (by decide)
  · rintro (⟨-, -, -, -, front, key, seg, off, len, ds, heq, -, hds, -, hfile⟩ | ⟨hkeys, -⟩)
    · cases front with
      | nil =>
        obtain ⟨rfl, rfl, rfl, rfl⟩ : digestA = key ∧ 0 = seg ∧ 84 = off ∧ 12 = len := by
          simpa [oneEntry] using heq
        have htext := congrArg strFromUtf8 hfile
        rw [strFromUtf8_textBytes, strFromUtf8_textBytes, some.injEq] at htext
        have hnum : digestA ++ "\t0\t84\t" ++ "12" = digestA ++ "\t0\t84\t" ++ ds :=
          append_cancel htext
        exact hds (append_cancel hnum).symm
      | cons e front => simp [oneEntry] at heq
    · exact hkeys keyed_oneObject

end WalIndex

end AxisBridge

/-! The shards that inserts, rebuilds and replays lead to, and which of them come back from their
snapshot. -/
namespace AxisBridge
open Function List

namespace WalIndex

/-- What every shard has: keys that can be written, machine integers, and no negative segment to go
on from. -/
structure Sound (sh : Shard WalMap) : Prop where
  keyed : Keyed sh.map
  machine : Machine sh
  fseg : 0 ≤ sh.fseg

/-- The digits of a digest. -/
def IsHex64 (key : String) : Prop :=
  key.toList.length = 64 ∧ ∀ c ∈ key.toList, ∃ n < 16, c = hexDigit n

section
variable {sh : Shard WalMap} {key : String} {map : WalMap} {vs : List Visit}
  {seg off len endOff : ℤ}

theorem plain_of_hexDigits (h : ∀ c ∈ key.toList, ∃ n < 16, c = hexDigit n) : Plain key := by
  have hdigit : ∀ n < 16, hexDigit n ≠ '\t' ∧ hexDigit n ≠ '\n' := by decide
  constructor
  · intro hmem
    obtain ⟨n, hn, heq⟩ := h _ hmem
    exact (hdigit n hn).1 heq.symm
  · intro hmem
    obtain ⟨n, hn, heq⟩ := h _ hmem
    exact (hdigit n hn).2 heq.symm

theorem Keyed.insert (h : Keyed map) {e : String × ℤ × ℤ × ℤ} (hkey : Plain e.1) :
    Keyed (insert map e) := by
  intro key place hplace
  by_cases heq : key = e.1
  · exact heq ▸ hkey
  · have hold : map key = some place := by
      rw [← hplace]
      exact (update_of_ne heq ..).symm
    exact h key place hold

theorem Keyed.visits {f : WalMap → Visit → WalMap}
    (hf : ∀ map v, Keyed map → Plain v.hexh → Keyed (f map v)) (h : Keyed map)
    (hvs : ∀ v ∈ vs, Plain v.hexh) : Keyed (vs.foldl f map) := by
  induction vs generalizing map with
  | nil => exact h
  | cons v vs ih =>
    apply ih (hf map v h (hvs v mem_cons_self))
    exact fun v hv => hvs v (mem_cons_of_mem _ hv)

/-- A snapshot adds only keys that can be written, whatever the file holds. -/
theorem Keyed.loadSnapshot (h : Keyed map) (file : Option Bytes) :
    Keyed (loadSnapshot map file).1 := by
  rcases loadBatched_cases "WALIDX1" snapshotEntry WalIndex.insert file with
    ⟨txt, pos, staged, rfl, htext⟩ | hnone
  · have hplain := snapshotText_plain htext
    rw [WalIndex.loadSnapshot, loadBatched_of_snapshotText htext]
    simp only
    clear htext
    induction staged generalizing map with
    | nil => exact h
    | cons e staged ih =>
      apply ih (h.insert (hplain e mem_cons_self))
      exact fun e he => hplain e (mem_cons_of_mem _ he)
  · rw [WalIndex.loadSnapshot, hnone]
    exact h

/-- A frontier stays where it is or moves to the position it is given, which is no earlier. -/
theorem bumpFrontier_cases (sh : Shard WalMap) (seg endOff : ℤ) :
    sh.bumpFrontier seg endOff = sh ∨
      sh.bumpFrontier seg endOff = { sh with fseg := seg, foff := endOff } ∧ sh.fseg ≤ seg := by
  unfold Shard.bumpFrontier
  split
  · next hlater => exact .inr ⟨rfl, by omega⟩
  · exact .inl rfl

/-- The part of soundness that does not rest on the machine's integers. -/
def Kept (sh : Shard WalMap) : Prop := Keyed sh.map ∧ 0 ≤ sh.fseg

theorem Kept.bumpFrontier (h : Kept sh) (seg endOff : ℤ) : Kept (sh.bumpFrontier seg endOff) := by
  rcases bumpFrontier_cases sh seg endOff with heq | ⟨heq, hle⟩
  · rwa [heq]
  · rw [heq]
    exact ⟨h.1, h.2.trans hle⟩

theorem isI64_bmod (n : ℤ) : IsI64 (n.bmod (2 ^ 64)) := by
  have hlow := Int.le_bmod (x := n) (m := 2 ^ 64) (by norm_num)
  have hhigh := Int.bmod_lt (x := n) (m := 2 ^ 64) (by norm_num)
  constructor <;> omega

theorem Sound.walidxInsert (h : Sound sh) (hkey : IsHex64 key) (hseg : IsI64 seg) (hoff : IsI64 off)
    (hlen : IsI64 len) : Sound (walidxInsert sh key seg off len) := by
  have hplaces :
      ∀ key' seg' off' len', insert sh.map (key, seg, off, len) key' = some (seg', off', len') →
        IsI64 seg' ∧ IsI64 off' ∧ IsI64 len' := by
    intro key' seg' off' len' hplace
    by_cases heq : key' = key
    · have hself : insert sh.map (key, seg, off, len) key = some (seg, off, len) :=
        update_self ..
      rw [heq, hself] at hplace
      cases hplace
      exact ⟨hseg, hoff, hlen⟩
    · have hold : sh.map key' = some (seg', off', len') :=
        (update_of_ne heq ..).symm.trans hplace
      exact h.machine.places key' seg' off' len' hold
  have hkeyed : Keyed (insert sh.map (key, seg, off, len)) :=
    h.keyed.insert (plain_of_hexDigits hkey.2)
  rcases bumpFrontier_cases { sh with map := insert sh.map (key, seg, off, len) } seg
    ((off + len).bmod (2 ^ 64)) with heq | ⟨heq, hle⟩
  · rw [WalIndex.walidxInsert, heq]
    exact ⟨hkeyed, ⟨h.machine.fseg, h.machine.foff, hplaces⟩, h.fseg⟩
  · rw [WalIndex.walidxInsert, heq]
    exact ⟨hkeyed, ⟨hseg, isI64_bmod _, hplaces⟩, h.fseg.trans hle⟩

end

section
variable [Sha256] {preallocEnabled : Bool} {sh : Shard WalMap} {segPrefix : String}
  {d : Volume} {v : Visit} {seg off : ℤ} {entries : List (String × ℤ × ℤ × ℤ)}

/-- The shards of a thread: opened, and changed by inserts of digests, by rebuilds and by replays,
each over whatever the disk then holds. The numbers of a shard are machine integers, so no walk goes
where they would not be. -/
inductive Reached (preallocEnabled : Bool) : Shard WalMap → Prop
  | opened : Reached preallocEnabled projection.openShard
  | insert {sh : Shard WalMap} {key : String} {seg off len : ℤ} : Reached preallocEnabled sh →
      IsHex64 key → IsI64 seg → IsI64 off → IsI64 len →
      Reached preallocEnabled (walidxInsert sh key seg off len)
  | rebuild {sh : Shard WalMap} (d : Volume) (segPrefix snapPath : String) :
      Reached preallocEnabled sh →
      Machine (doRebuild projection preallocEnabled d segPrefix snapPath sh).1 →
      Reached preallocEnabled (doRebuild projection preallocEnabled d segPrefix snapPath sh).1
  | replay {sh : Shard WalMap} (d : Volume) (segPrefix : String) :
      Reached preallocEnabled sh → Machine (doReplay projection preallocEnabled d segPrefix sh).1 →
      Reached preallocEnabled (doReplay projection preallocEnabled d segPrefix sh).1

/-! ### What the walks visit -/

theorem plain_of_readFrame {bs : Bytes} {f : FrameView} (h : readFrame bs = some f) :
    Plain f.hexh := by
  simp only [readFrame, Option.bind_eq_bind, Option.bind_eq_some_iff] at h
  obtain ⟨hexh, -, plen, -, vlen, -, h⟩ := h
  split at h
  · cases h
  · split at h
    · cases h
    · next hhash =>
      cases h
      rw [not_not] at hhash
      rw [← hhash]
      exact plain_of_hexDigits fun _ => hexDigit_of_mem

variable {fuel : ℕ}

theorem parseLoop_visits {data : Bytes} {start : ℕ}
    (hv : v ∈ (parseLoop seg data fuel start).1) :
    v.seg = seg ∧ (start : ℤ) ≤ v.poff ∧ Plain v.hexh := by
  induction fuel generalizing start with
  | zero => cases hv
  | succ fuel ih =>
    unfold parseLoop at hv
    split at hv
    · split at hv
      · cases hv
      · next f hread =>
        rcases mem_cons.mp hv with rfl | hv
        · refine ⟨rfl, ?_, plain_of_readFrame hread⟩
          simp only [visitAt]
          omega
        · obtain ⟨hseg, hpoff, hplain⟩ := ih hv
          exact ⟨hseg, by omega, hplain⟩
    · cases hv

/-- The walk over the segments only goes forward from the position it starts at. -/
theorem walkLoop_visits {wm : ℤ × ℤ} (hv : v ∈ (walkLoop d segPrefix wm fuel seg off).1) :
    NotAfter (seg, off) (v.seg, v.poff) ∧ Plain v.hexh := by
  induction fuel generalizing seg off with
  | zero => cases hv
  | succ fuel ih =>
    unfold walkLoop at hv
    split at hv
    · cases hv
    · next data hread =>
      have hstart : off ≤ (if off < 0 then 0 else off.toNat : ℕ) := by
        split
        · omega
        · omega
      generalize (if off < 0 then 0 else off.toNat : ℕ) = start at hv hstart
      have hfirst : ∀ v ∈ (parseFramesFromBytes seg data start).1,
          NotAfter (seg, off) (v.seg, v.poff) ∧ Plain v.hexh := by
        intro v hv
        obtain ⟨hseg, hpoff, hplain⟩ := parseLoop_visits hv
        exact ⟨.inr ⟨hseg.symm, hstart.trans hpoff⟩, hplain⟩
      simp only at hv
      split at hv
      · rcases mem_append.mp hv with hv | hv
        · exact hfirst v hv
        · obtain ⟨hafter, hplain⟩ := ih hv
          refine ⟨.inl ?_, hplain⟩
          simp only [NotAfter] at hafter
          simp only
          omega
      · exact hfirst v hv

theorem hotblkLoop_visits {flushDir : String}
    (hv : v ∈ (hotblkLoop preallocEnabled d flushDir fuel seg).1) : Plain v.hexh := by
  induction fuel generalizing seg with
  | zero => cases hv
  | succ fuel ih =>
    unfold hotblkLoop at hv
    split at hv
    · cases hv
    · split at hv
      · cases hv
      · simp only at hv
        split at hv
        · exact (parseLoop_visits hv).2.2
        · rcases mem_append.mp hv with hv | hv
          · exact (parseLoop_visits hv).2.2
          · exact ih hv

/-! ### What every step keeps -/

theorem Kept.scanSegments (h : Kept sh) :
    Kept (scanSegments projection d segPrefix seg off sh).1 := by
  apply Kept.bumpFrontier
  refine ⟨Keyed.visits (fun _ _ hmap hv => hmap.insert hv) h.1 ?_, h.2⟩
  exact fun v hv => (walkLoop_visits hv).2

theorem Kept.scanHotblk (h : Kept sh) :
    Kept (scanHotblk projection preallocEnabled d segPrefix sh).1 := by
  unfold AxisBridge.scanHotblk
  split
  · exact h
  · refine ⟨Keyed.visits (fun _ _ hmap hv => hmap.insert hv) h.1 ?_, h.2⟩
    exact fun v hv => hotblkLoop_visits hv

theorem Kept.doRebuild (h : Kept sh) (preallocEnabled : Bool) (d : Volume)
    (segPrefix snapPath : String) :
    Kept (doRebuild projection preallocEnabled d segPrefix snapPath sh).1 := by
  apply Kept.scanHotblk
  apply Kept.scanSegments
  apply Kept.bumpFrontier
  exact ⟨h.1.loadSnapshot _, h.2⟩

theorem Kept.doReplay (h : Kept sh) (preallocEnabled : Bool) (d : Volume)
    (segPrefix : String) : Kept (doReplay projection preallocEnabled d segPrefix sh).1 := by
  apply Kept.scanHotblk
  split
  · exact h.scanSegments
  · exact h

theorem Reached.sound (h : Reached preallocEnabled sh) : Sound sh := by
  induction h with
  | opened =>
    have hzero : IsI64 0 := ⟨by decide, by decide⟩
    exact ⟨nofun, ⟨hzero, hzero, nofun⟩, le_rfl⟩
  | insert _ hkey hseg hoff hlen ih => exact ih.walidxInsert hkey hseg hoff hlen
  | rebuild d segPrefix snapPath _ hm ih =>
    obtain ⟨hkeyed, hfseg⟩ :=
      Kept.doRebuild ⟨ih.keyed, ih.fseg⟩ preallocEnabled d segPrefix snapPath
    exact ⟨hkeyed, hm, hfseg⟩
  | replay d segPrefix _ hm ih =>
    obtain ⟨hkeyed, hfseg⟩ := Kept.doReplay ⟨ih.keyed, ih.fseg⟩ preallocEnabled d segPrefix
    exact ⟨hkeyed, hm, hfseg⟩

/-! ### The round trip -/

/-- What a shard's snapshot is for: an empty map gets all of the shard's, with its watermark, and
the walk that follows starts there. -/
def RoundTrip (sh : Shard WalMap) (entries : List (String × ℤ × ℤ × ℤ)) : Prop :=
  loadSnapshot (fun _ => none) (some (walidxSnapshot sh entries)) = (sh.map, sh.fseg, sh.foff) ∧
    ∀ (d : Volume) (segPrefix snapPath : String) (map : WalMap),
      d.read snapPath = some (walidxSnapshot sh entries) →
      let snap := loadSnapshot map (d.read snapPath)
      ∀ v ∈ (walkFrames d segPrefix snap.2.1 snap.2.2).1,
        NotAfter (sh.fseg, sh.foff) (v.seg, v.poff)

/-- The snapshot of a shard brings it back just when no place in its map has a negative number and
the frontier's offset is none. -/
theorem walidx_snapshot_roundtrip_iff (h : Reached preallocEnabled sh)
    (hit : Iterates entries sh.map) :
    RoundTrip sh entries ↔ 0 ≤ sh.foff ∧ ∀ key place, sh.map key = some place → Fits place := by
  obtain ⟨hkeys, hm, hfseg⟩ := h.sound
  have hwhole := loadSnapshot_whole hit hkeys hm
  have hfits : (∀ key place, sh.map key = some place → Fits place) ↔ ∀ e ∈ entries, Fits e.2 := by
    constructor
    · exact fun hall e he => hall e.1 e.2 ((hit.mem_iff e.1 e.2).mp he)
    · exact fun hall key place hplace => hall (key, place) ((hit.mem_iff key place).mpr hplace)
  rw [hfits]
  constructor
  · rintro ⟨hload, -⟩
    rw [hwhole] at hload
    split at hload
    · next hok => exact hok.2
    · next hbad =>
      -- nothing was read, so there was nothing to lose
      have hempty : entries = [] := by
        apply eq_nil_iff_forall_not_mem.mpr
        intro e he
        have hplace := (hit.mem_iff e.1 e.2).mp he
        have hnone : none = sh.map e.1 := congrFun (congrArg Prod.fst hload) e.1
        rw [← hnone] at hplace
        cases hplace
      have hfoff : (0 : ℤ) = sh.foff := congrArg (fun snap => snap.2.2) hload
      exact ⟨hfoff.le, by rw [hempty]; exact nofun⟩
  · rintro ⟨hfoff, hall⟩
    constructor
    · rw [hwhole, if_pos ⟨hfseg, hfoff, hall⟩, restored_empty]
    · intro d segPrefix snapPath map hread snap v hv
      have hsnap : loadSnapshot map (d.read snapPath) = (restored sh map, sh.fseg, sh.foff) := by
        rw [hread, hwhole, if_pos ⟨hfseg, hfoff, hall⟩]
      simp only [snap] at hv
      rw [hsnap] at hv
      exact (walkLoop_visits hv).1

end

attribute [local instance] textDigests

def digestB : String := "3e23e8160039594a33894f6564e1b1348bbd7a0088d42c4acb73eeaed59c009d"

theorem isHex64_of_elem {key : String} (hlen : key.toList.length = 64)
    (hdigits : (key.toList.all fun c => ((range 16).map hexDigit).elem c) = true) :
    IsHex64 key := by
  refine ⟨hlen, fun c hc => ?_⟩
  obtain ⟨n, hn, heq⟩ := mem_map.mp (elem_iff.mp (all_eq_true.mp hdigits c hc))
  exact ⟨n, mem_range.mp hn, heq.symm⟩

/-- A second object behind the first, in the next segment. -/
def twoObjects : Shard WalMap := walidxInsert oneObject digestB 1 84 3

def twoEntries : List (String × ℤ × ℤ × ℤ) := (digestB, 1, 84, 3) :: oneEntry

theorem walidx_snapshot_roundtrip_two :
    Reached true twoObjects ∧ RoundTrip twoObjects twoEntries := by
  have hfirst : Reached true oneObject := .insert .opened (isHex64_of_elem (by decide) (by decide))
    ⟨by decide, by decide⟩ ⟨by decide, by decide⟩ ⟨by decide, by decide⟩
  have hreached : Reached true twoObjects :=
    .insert hfirst (isHex64_of_elem (by decide) (by decide))
    ⟨by decide, by decide⟩ ⟨by decide, by decide⟩ ⟨by decide, by decide⟩
  have hiter : Iterates twoEntries twoObjects.map :=
    iterates_oneObject.cons (by decide) (by decide)
  refine ⟨hreached, (walidx_snapshot_roundtrip_iff hreached hiter).mpr ⟨by decide, ?_⟩⟩
  intro key place hplace
  rcases mem_cons.mp ((hiter.mem_iff key place).mpr hplace) with heq | hmem
  · cases heq
    decide
  · cases mem_singleton.mp hmem
    decide

/-- The shard `s` of a disk with one sealed block, rebuilt. -/
def blockShard : Shard WalMap := ⟨insert (fun _ => none) (sha256Hex [97], -1, 84, 1), 0, 0, 2⟩

def blockEntry : List (String × ℤ × ℤ × ℤ) := [(sha256Hex [97], -1, 84, 1)]

theorem reached_blockShard : Reached true blockShard := by
  have hrebuild : (doRebuild projection true (diskBlock blockA) (walSegPrefix "s") "snap"
      projection.openShard).1 = blockShard :=
    congrArg Prod.fst ((shows_diskBlock blockA).doRebuild projection (by decide) rfl
      (.inl ⟨rfl, rfl, rfl⟩))
  rw [← hrebuild]
  refine .rebuild (diskBlock blockA) (walSegPrefix "s") "snap" .opened ?_
  rw [hrebuild]
  refine ⟨⟨by decide, by decide⟩, ⟨by decide, by decide⟩, fun key seg off len hplace => ?_⟩
  obtain ⟨-, heq⟩ := eq_of_map_one hplace
  cases heq
  exact ⟨⟨by decide, by decide⟩, ⟨by decide, by decide⟩, ⟨by decide, by decide⟩⟩

/-- An object in a sealed block keeps the whole shard from coming back. -/
theorem walidx_snapshot_loses_block : Reached true blockShard ∧ Iterates blockEntry blockShard.map ∧
    loadSnapshot (fun _ => none) (some (walidxSnapshot blockShard blockEntry)) =
      (fun _ => none, 0, 0) ∧ ¬ RoundTrip blockShard blockEntry := by
  have hiter : Iterates blockEntry blockShard.map := iterates_one (sha256Hex [97]) (-1, 84, 1)
  have hsound := reached_blockShard.sound
  have hneg : ¬ (0 ≤ blockShard.fseg ∧ 0 ≤ blockShard.foff ∧ ∀ e ∈ blockEntry, Fits e.2) := by
    rintro ⟨-, -, hfits⟩
    exact absurd (hfits _ mem_cons_self) (by decide)
  have hload := loadSnapshot_whole hiter hsound.keyed hsound.machine fun _ => none
  rw [if_neg hneg] at hload
  refine ⟨reached_blockShard, hiter, hload, ?_⟩
  rintro ⟨hback, -⟩
  have hplace := (hiter.mem_iff (sha256Hex [97]) _).mp mem_cons_self
  have hnone : (fun _ => none) = blockShard.map := congrArg Prod.fst (hload.symm.trans hback)
  rw [← hnone] at hplace
  cases hplace

end WalIndex

end AxisBridge
