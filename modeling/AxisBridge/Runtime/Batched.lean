import AxisBridge.Runtime.Cuts
import AxisBridge.Runtime.WalIndex

/-! A snapshot in one file, a header with the number of lines and the lines: what the reader takes
for one, and what is left of the header when the file was cut short. -/
namespace AxisBridge
open List Option String

/-! ### What the reader takes for a snapshot -/

section
variable {ε M : Type} {magic txt : String} {entry : String → Option ε} {commit : M → ε → M}
  {pos : ℤ × ℤ} {staged : List ε}

/-- A text in the format: a header with a position and a number, and that many lines with an
entry. -/
def SnapshotText (magic : String) (entry : String → Option ε) (txt : String) (pos : ℤ × ℤ)
    (staged : List ε) : Prop :=
  ∃ hdr rest seg off count, lines txt = hdr :: rest ∧ split '\t' hdr = [magic, seg, off, count] ∧
    parseI64 seg = some pos.1 ∧ parseI64 off = some pos.2 ∧ 0 ≤ pos.1 ∧ 0 ≤ pos.2 ∧
    parseUsize count = some staged.length ∧ staged.length ≠ 2 ^ 64 - 1 ∧
    rest.mapM entry = some staged

theorem loadBatched_of_snapshotText (h : SnapshotText magic entry txt pos staged) (map : M) :
    loadBatched magic entry commit map (some (textBytes txt)) =
      (staged.foldl commit map, pos.1, pos.2) := by
  obtain ⟨hdr, rest, seg, off, count, hlines, hsplit, hseg, hoff, hpos, hpos', hcount, hmax,
    hrest⟩ := h
  have hok : ¬ (False ∨ pos.1 < 0 ∨ pos.2 < 0 ∨ staged.length = 2 ^ 64 - 1) := by
    simp only [false_or, not_or, not_lt]
    exact ⟨hpos, hpos', hmax⟩
  simp only [loadBatched, bind_some, strFromUtf8_textBytes, map_some, hlines, hsplit,
    hseg, hoff, hcount, getD_some, if_neg hok, hrest, ne_eq, not_true_eq_false, if_false]

theorem eq_some_of_getD {o : Option ℤ} (h : ¬ o.getD (-1) < 0) : o = some (o.getD (-1)) := by
  cases o with
  | none => exact absurd (by decide) h
  | some n => rfl

/-- What is not in the format leaves the map as it was. -/
theorem loadBatched_cases (magic : String) (entry : String → Option ε) (commit : M → ε → M)
    (file : Option Bytes) :
    (∃ txt pos staged, file = some (textBytes txt) ∧ SnapshotText magic entry txt pos staged) ∨
      ∀ map, loadBatched magic entry commit map file = (map, 0, 0) := by
  refine or_iff_not_imp_right.mpr fun hall => ?_
  obtain ⟨map, hread⟩ := not_forall.mp hall
  unfold loadBatched at hread
  split at hread
  · next hdr rest hlines =>
    split at hread
    · next word seg off count hsplit =>
      obtain ⟨txt, htxt, hlines⟩ := map_eq_some_iff.mp hlines
      obtain ⟨bytes, hfile, htxt⟩ := bind_eq_some_iff.mp htxt
      simp only at hread
      split at hread
      · exact absurd rfl hread
      · next hok =>
        simp only [not_or, not_not] at hok
        obtain ⟨rfl, hseg, hoff, hcount⟩ := hok
        split at hread
        · next staged hstaged =>
          split at hread
          · exact absurd rfl hread
          · next hlen =>
            rw [not_not] at hlen
            have hparsed : parseUsize count = some staged.length := by
              rw [hlen]
              cases hnum : parseUsize count with
              | none => exact absurd (by rw [hnum]; rfl) hcount
              | some n => rfl
            refine ⟨txt, (_, _), staged, ?_, hdr, rest, seg, off, count, hlines, hsplit,
              eq_some_of_getD hseg, eq_some_of_getD hoff, not_lt.mp hseg, not_lt.mp hoff, hparsed,
              hlen ▸ hcount, hstaged⟩
            rw [hfile, strFromUtf8_eq_some.mp htxt]
        · exact absurd rfl hread
    · exact absurd rfl hread
  · exact absurd rfl hread

end

/-! ### Numbers and fields -/

section
variable {s : String} {k : ℕ}

theorem not_mem_int {c : Char} (hminus : c ≠ '-') (hdigit : c.isDigit = false) (n : ℤ) :
    c ∉ (toString n).toList := by
  intro hmem
  rcases isDigit_int hmem with h | h
  · exact hminus h
  · rw [hdigit] at h
    cases h

theorem not_mem_repr {c : Char} (hdigit : c.isDigit = false) (n : ℕ) : c ∉ n.repr.toList := by
  intro hmem
  rw [isDigit_repr hmem] at hdigit
  cases hdigit

theorem fields_eq (a b c d : String) : a ++ "\t" ++ b ++ "\t" ++ c ++ "\t" ++ d =
    (String.singleton '\t').intercalate [a, b, c, d] := by
  simp only [String.intercalate_cons_cons, String.intercalate_singleton, String.append_assoc]
  rfl

theorem int_ne_empty (n : ℤ) : toString n ≠ "" := by
  intro h
  cases n with
  | ofNat n =>
    have hval : digitsVal n.repr.toList = some n := by rw [← padded_zero, digitsVal_padded]
    have hrepr : n.repr = "" := h
    rw [hrepr] at hval
    cases hval
  | negSucc n =>
    have hlist := toList_negSucc n
    rw [h] at hlist
    cases hlist

theorem isDigit_of_digitsVal {cs : List Char} (h : digitsVal cs = some k) :
    ∀ c ∈ cs, c.isDigit = true := by
  unfold digitsVal at h
  split at h
  · next hall => exact all_eq_true.mp hall.2
  · cases h

theorem parseI64_digits (hs : digitsVal s.toList = some k) (hk : k < 2 ^ 63) :
    parseI64 s = some (k : ℤ) := by
  have hall := isDigit_of_digitsVal hs
  unfold parseI64
  split
  · next hcs => exact absurd hcs (head_ne_sign hall '+' rfl _)
  · next hcs => exact absurd hcs (head_ne_sign hall '-' rfl _)
  · rw [hs, filter_some, if_pos (decide_eq_true hk)]
    rfl

theorem parseUsize_digits (hs : digitsVal s.toList = some k)
    (hk : k < 2 ^ 64) : parseUsize s = some k := by
  have hall := isDigit_of_digitsVal hs
  unfold parseUsize
  split
  · next hcs => exact absurd hcs (head_ne_sign hall '+' rfl _)
  · rw [hs, filter_some, if_pos (decide_eq_true hk)]

theorem mapM_length {α β : Type} {f : α → Option β} {xs : List α} {ys : List β}
    (h : xs.mapM f = some ys) : ys.length = xs.length := by
  induction xs generalizing ys with
  | nil =>
    rw [mapM_nil] at h
    cases h
    rfl
  | cons x xs ih =>
    rw [mapM_cons] at h
    obtain ⟨y, -, h⟩ := bind_eq_some_iff.mp h
    obtain ⟨ys', hys', h⟩ := bind_eq_some_iff.mp h
    cases h
    rw [length_cons, length_cons, ih hys']

end

/-! ### The header -/

def batchHeader (magic : String) (seg off : ℤ) (count : ℕ) : String :=
  s!"{magic}\t{seg}\t{off}\t{count}"

/-- A word and numbers that a header can hold. -/
structure Headed (magic : String) (seg off : ℤ) (count : ℕ) : Prop where
  tab : '\t' ∉ magic.toList
  feed : '\n' ∉ magic.toList
  seg_i64 : -2 ^ 63 ≤ seg ∧ seg < 2 ^ 63
  off_i64 : -2 ^ 63 ≤ off ∧ off < 2 ^ 63
  count_lt : count < 2 ^ 63

variable {ε : Type} {magic txt : String} {entry : String → Option ε} {seg off : ℤ} {count : ℕ}
  {pos : ℤ × ℤ} {staged : List ε}

theorem batchHeader_eq (magic : String) (seg off : ℤ) (count : ℕ) :
    batchHeader magic seg off count = magic ++ "\t" ++ toString seg ++ "\t" ++ toString off ++
      "\t" ++ count.repr :=
  rfl

theorem Headed.split_header (h : Headed magic seg off count) :
    split '\t' (batchHeader magic seg off count) =
      [magic, toString seg, toString off, count.repr] := by
  rw [batchHeader_eq, fields_eq]
  apply split_intercalate (cons_ne_nil _ _)
  simp only [mem_cons, not_mem_nil, or_false, forall_eq_or_imp, forall_eq]
  exact ⟨h.tab, not_mem_int (by decide) rfl _, not_mem_int (by decide) rfl _, not_mem_repr rfl _⟩

theorem chopReturn_header (magic : String) (seg off : ℤ) (count : ℕ) :
    chopReturn (batchHeader magic seg off count) = batchHeader magic seg off count := by
  apply chopReturn_append _ (int_ne_empty count)
  intro hlast
  exact not_mem_int (by decide) rfl _ (mem_of_getLast? hlast)

theorem Headed.feed_not_mem (h : Headed magic seg off count) :
    '\n' ∉ (batchHeader magic seg off count).toList := by
  simp only [batchHeader_eq, toList_append, mem_append, not_or]
  exact ⟨⟨⟨⟨⟨⟨h.feed, by decide⟩, not_mem_int (by decide) rfl _⟩, by decide⟩,
    not_mem_int (by decide) rfl _⟩, by decide⟩, not_mem_repr rfl _⟩

theorem Headed.lines_header (h : Headed magic seg off count) (txt : String) :
    lines (batchHeader magic seg off count ++ "\n" ++ txt) =
      batchHeader magic seg off count :: lines txt := by
  rw [lines_line_append h.feed_not_mem, chopReturn_header]

/-- Behind the whole header, the text is a snapshot when its lines are as many entries. -/
theorem Headed.snapshotText_iff {rest : List String} (h : Headed magic seg off count)
    (hlines : lines txt = batchHeader magic seg off count :: rest) :
    SnapshotText magic entry txt pos staged ↔ pos = (seg, off) ∧ 0 ≤ seg ∧ 0 ≤ off ∧
      staged.length = count ∧ rest.mapM entry = some staged := by
  have hsplit := h.split_header
  have hseg := parseI64_toString h.seg_i64.1 h.seg_i64.2
  have hoff := parseI64_toString h.off_i64.1 h.off_i64.2
  have hlt := h.count_lt
  have hnum : parseUsize count.repr = some count := parseUsize_repr (by omega)
  constructor
  · rintro ⟨hdr, rest', seg', off', num, hlines', hsplit', hseg', hoff', hpos, hpos', hnum', -,
      hmap⟩
    rw [hlines, List.cons.injEq] at hlines'
    obtain ⟨rfl, rfl⟩ := hlines'
    rw [hsplit, List.cons.injEq, List.cons.injEq, List.cons.injEq, List.cons.injEq] at hsplit'
    obtain ⟨-, rfl, rfl, rfl, -⟩ := hsplit'
    rw [hseg, some.injEq] at hseg'
    rw [hoff, some.injEq] at hoff'
    rw [hnum, some.injEq] at hnum'
    exact ⟨Prod.ext hseg'.symm hoff'.symm, hseg' ▸ hpos, hoff' ▸ hpos', hnum'.symm, hmap⟩
  · rintro ⟨rfl, hpos, hpos', rfl, hmap⟩
    exact ⟨_, rest, _, _, _, hlines, hsplit, hseg, hoff, hpos, hpos', hnum, by omega, hmap⟩

/-- A header cut short that has all its fields is cut in the number of the entries. -/
theorem Headed.cut {r a b c d : String} (h : Headed magic seg off count)
    (hpre : r.toList <+: (batchHeader magic seg off count).toList)
    (hsplit : split '\t' r = [a, b, c, d]) :
    b = toString seg ∧ c = toString off ∧ d.toList <+: count.repr.toList ∧
      r = magic ++ "\t" ++ toString seg ++ "\t" ++ toString off ++ "\t" ++ d := by
  have hrow : split '\t'
      (magic ++ "\t" ++ toString seg ++ "\t" ++ toString off ++ String.singleton '\t' ++
      count.repr) = [magic, toString seg, toString off] ++ [count.repr] := h.split_header
  have hcut : split '\t' r = [a, b, c] ++ [d] := hsplit
  obtain ⟨hfields, hd, hr⟩ := cut_last_field (not_mem_repr rfl _) hrow hpre hcut rfl
  simp only [List.cons.injEq, and_true] at hfields
  obtain ⟨-, rfl, rfl⟩ := hfields
  exact ⟨rfl, rfl, hd, hr⟩

/-- A cut that leaves a snapshot in the format is behind the header, or has left just the header of
a shard without entries. -/
theorem Headed.torn (h : Headed magic seg off count) {body : String}
    (hpre : txt.toList <+: (batchHeader magic seg off count ++ "\n" ++ body).toList)
    (htext : SnapshotText magic entry txt pos staged) :
    (txt = batchHeader magic seg off count ∧ count = 0 ∧ staged = [] ∧ pos = (seg, off)) ∨
      ∃ u, txt = batchHeader magic seg off count ++ "\n" ++ u ∧ u.toList <+: body.toList ∧
        lines txt = batchHeader magic seg off count :: lines u := by
  have hfeed : ("\n" : String).toList = ['\n'] := rfl
  have hlt := h.count_lt
  rw [toList_append] at hpre
  rcases prefix_or_prefix_of_prefix hpre (prefix_append _ _) with hshort | ⟨cs, hcs⟩
  · rw [toList_append, hfeed] at hshort
    rcases prefix_concat_iff.mp hshort with heq | hhdr
    · have htxt : txt = batchHeader magic seg off count ++ "\n" ++ "" := by
        rw [append_empty]
        exact toList_inj.mp (by rw [heq, toList_append]; rfl)
      exact .inr ⟨"", htxt, nil_prefix, htxt ▸ h.lines_header ""⟩
    · left
      -- the cut is in the header: no line is left to count
      have hone : lines txt = if txt = "" then [] else [txt] := by
        have hnofeed : '\n' ∉ txt.toList := fun hmem => h.feed_not_mem (hhdr.subset hmem)
        have happend := lines_append (.inl rfl) hnofeed
        rwa [empty_append] at happend
      obtain ⟨hdr, rest, seg', off', num, hlines, hsplit, hseg, hoff, hpos, hpos', hnum, -, hmap⟩ :=
        htext
      rw [hone] at hlines
      split at hlines
      · cases hlines
      · rw [List.cons.injEq] at hlines
        obtain ⟨rfl, rfl⟩ := hlines
        rw [mapM_nil] at hmap
        cases hmap
        obtain ⟨rfl, rfl, hds, heq⟩ := h.cut hhdr hsplit
        have hwhole : num = count.repr := by
          by_contra hcut
          obtain ⟨k, hk, hne, hlt'⟩ := digitsVal_cut (by rintro rfl; cases hnum) hds hcut
          rw [parseUsize_digits hk (by omega), some.injEq] at hnum
          exact hne hnum
        rw [hwhole, parseUsize_repr (by omega), some.injEq] at hnum
        rw [parseI64_toString h.seg_i64.1 h.seg_i64.2, some.injEq] at hseg
        rw [parseI64_toString h.off_i64.1 h.off_i64.2, some.injEq] at hoff
        refine ⟨?_, hnum, rfl, Prod.ext hseg.symm hoff.symm⟩
        rw [heq, hwhole, batchHeader_eq]
  · rw [← hcs, prefix_append_right_inj] at hpre
    have htxt : txt = batchHeader magic seg off count ++ "\n" ++ ofList cs :=
      toList_inj.mp (by rw [toList_append, toList_ofList, hcs])
    exact .inr ⟨ofList cs, htxt, by rwa [toList_ofList], htxt ▸ h.lines_header _⟩

end AxisBridge
