import AxisBridge.Lib.StableSort
import AxisBridge.Runtime.Text

/-! Texts cut into lines and lines into fields, and put together again. -/
namespace AxisBridge
open List
open String (ofList ofList_toList toList_ofList utf8EncodeChar toList_append toList_singleton)

section
variable {sep c : Char} {cs : List Char} {s t txt line p : String} {parts init : List String}

/-- Nothing, or whole lines. -/
def EndsLine (txt : String) : Prop := txt = "" ∨ ∃ body, txt = body ++ "\n"

theorem splitChars_eq (sep : Char) (cs : List Char) : splitChars sep cs = cs.splitOn sep := by
  induction cs with
  | nil => rfl
  | cons c cs ih =>
    rw [splitChars, ih, splitOn_cons_eq_if_modifyHead]
    cases hpieces : cs.splitOn sep with
    | nil => exact absurd hpieces (splitOn_ne_nil sep cs)
    | cons piece pieces => rfl

theorem split_eq (sep : Char) (s : String) :
    split sep s = (s.toList.splitOn sep).map ofList := by
  rw [split, splitChars_eq]

theorem split_append (sep : Char) (s t : String) :
    split sep (s ++ String.singleton sep ++ t) = split sep s ++ split sep t := by
  have hchars : (s ++ String.singleton sep ++ t).toList = s.toList ++ sep :: t.toList := by simp
  rw [split_eq, hchars, splitOn_append_cons_self, map_append, split_eq, split_eq]

theorem split_of_not_mem (h : sep ∉ s.toList) : split sep s = [s] := by
  rw [split_eq, splitOn_eq_singleton h, map_singleton, ofList_toList]

theorem split_intercalate (hne : parts ≠ []) (h : ∀ p ∈ parts, sep ∉ p.toList) :
    split sep ((String.singleton sep).intercalate parts) = parts := by
  have hchars : ((String.singleton sep).intercalate parts).toList =
      [sep].intercalate (parts.map String.toList) := by
    rw [String.toList_intercalate, toList_singleton]
  rw [split_eq, hchars, splitOn_intercalate]
  · simp
  · simpa using h
  · simpa using hne

theorem intercalate_split (sep : Char) (s : String) :
    (String.singleton sep).intercalate (split sep s) = s := by
  apply String.toList_inj.mp
  rw [String.toList_intercalate, toList_singleton, split_eq, map_map]
  have hpieces :
      (s.toList.splitOn sep).map (String.toList ∘ ofList) = s.toList.splitOn sep := by
    simp
  rw [hpieces, intercalate_splitOn]

theorem of_mem_splitOn {piece : List Char} (h : piece ∈ cs.splitOn sep) :
    sep ∉ piece ∧ piece ⊆ cs := by
  induction cs generalizing piece with
  | nil =>
    obtain rfl : piece = [] := by simpa using h
    exact ⟨not_mem_nil, Subset.refl _⟩
  | cons d cs ih =>
    rw [splitOn_cons_eq_if_modifyHead] at h
    by_cases hd : d = sep
    · rw [if_pos (beq_iff_eq.mpr hd)] at h
      rcases mem_cons.mp h with rfl | h
      · exact ⟨not_mem_nil, nil_subset _⟩
      · exact ⟨(ih h).1, subset_cons_of_subset d (ih h).2⟩
    · rw [if_neg (mt beq_iff_eq.mp hd)] at h
      obtain ⟨q, qs, hqs⟩ := exists_cons_of_ne_nil (splitOn_ne_nil sep cs)
      rw [hqs] at h ih
      rcases mem_cons.mp h with rfl | h
      · obtain ⟨hsep, hsub⟩ := ih (mem_cons_self ..)
        refine ⟨?_, cons_subset_cons d hsub⟩
        intro hmem
        exact (mem_cons.mp hmem).elim (fun heq => hd heq.symm) hsep
      · obtain ⟨hsep, hsub⟩ := ih (mem_cons_of_mem q h)
        exact ⟨hsep, subset_cons_of_subset d hsub⟩

/-- The pieces of a split are free of the separator, and their characters are the text's. -/
theorem of_mem_split (h : p ∈ split sep s) : sep ∉ p.toList ∧ p.toList ⊆ s.toList := by
  rw [split_eq] at h
  obtain ⟨piece, hpiece, rfl⟩ := mem_map.mp h
  rw [toList_ofList]
  exact of_mem_splitOn hpiece

theorem lines_eq (h : split '\n' txt = init ++ [p]) :
    lines txt = init.map chopReturn ++ if p = "" then [] else [p] := by
  rw [lines, h]
  by_cases hp : p = ""
  · simp [hp]
  · simp [hp]

theorem split_ended (h : EndsLine txt) : ∃ init, split '\n' txt = init ++ [""] ∧
    ∀ p, split '\n' (txt ++ p) = init ++ split '\n' p := by
  rcases h with rfl | ⟨body, rfl⟩
  · exact ⟨[], rfl, fun p => by rw [String.empty_append, nil_append]⟩
  · refine ⟨split '\n' body, ?_, fun p => split_append '\n' body p⟩
    have hsplit := split_append '\n' body ""
    rw [String.append_empty] at hsplit
    exact hsplit

/-- A last line without a line feed. -/
theorem lines_append (h : EndsLine txt) (hp : '\n' ∉ p.toList) :
    lines (txt ++ p) = lines txt ++ if p = "" then [] else [p] := by
  obtain ⟨init, hinit, hsplit⟩ := split_ended h
  have hlast : split '\n' (txt ++ p) = init ++ [p] := by rw [hsplit, split_of_not_mem hp]
  rw [lines_eq hlast, lines_eq hinit, if_pos rfl, append_nil]

/-- A last line with its line feed. -/
theorem lines_append_line (h : EndsLine txt) (hline : '\n' ∉ line.toList) :
    lines (txt ++ (line ++ "\n")) = lines txt ++ [chopReturn line] := by
  obtain ⟨init, hinit, hsplit⟩ := split_ended h
  have hbody : split '\n' (line ++ "\n") = split '\n' line ++ [""] := by
    have hsplit := split_append '\n' line ""
    rw [String.append_empty] at hsplit
    exact hsplit
  have hlast : split '\n' (txt ++ (line ++ "\n")) = (init ++ [line]) ++ [""] := by
    rw [hsplit, hbody, split_of_not_mem hline, append_assoc]
  rw [lines_eq hlast, lines_eq hinit, if_pos rfl, map_append, append_nil, append_nil]
  rfl

theorem prefix_chopReturn (line : String) : (chopReturn line).toList <+: line.toList := by
  rw [chopReturn]
  split
  · rw [toList_ofList]
    exact dropLast_prefix _
  · exact prefix_rfl

/-- The last column of a line keeps its end. -/
theorem chopReturn_append (s : String) (hne : t ≠ "") (hlast : t.toList.getLast? ≠ some '\r') :
    chopReturn (s ++ t) = s ++ t := by
  have hchars : t.toList ≠ [] := mt String.toList_eq_nil_iff.mp hne
  rw [chopReturn, toList_append, getLast?_append_of_ne_nil _ hchars, if_neg hlast]

theorem chopReturn_return (s : String) : chopReturn (s ++ "\r") = s := by
  simp [chopReturn]

theorem chopReturn_of_ne (h : s.toList.getLast? ≠ some '\r') : chopReturn s = s := if_neg h

theorem exists_return (h : s.toList.getLast? = some '\r') : s = chopReturn s ++ "\r" := by
  apply String.toList_inj.mp
  rw [chopReturn, if_pos h, toList_append, toList_ofList]
  exact (dropLast_append_getLast? _ h).symm

theorem chopReturn_tab (s t : String) :
    chopReturn (s ++ "\t" ++ t) = s ++ "\t" ++ chopReturn t := by
  by_cases h : t.toList.getLast? = some '\r'
  · rw [exists_return h, ← String.append_assoc, chopReturn_return, chopReturn_return]
  · rw [chopReturn_of_ne h]
    apply chopReturn_of_ne
    rw [toList_append]
    by_cases hnil : t.toList = []
    · rw [hnil, append_nil, toList_append]
      simp
    · rwa [getLast?_append_of_ne_nil _ hnil]

theorem splitOnce_append (h : sep ∉ s.toList) (t : String) :
    splitOnce sep (s ++ String.singleton sep ++ t) = some (s, t) := by
  have hchars : (s ++ String.singleton sep ++ t).toList = s.toList ++ sep :: t.toList := by simp
  have hmem : sep ∈ s.toList ++ sep :: t.toList := by simp
  have hall : ∀ c ∈ s.toList, decide (c ≠ sep) = true := by
    intro c hc
    exact decide_eq_true fun heq => h (heq ▸ hc)
  rw [splitOnce, hchars, if_pos hmem, takeWhile_append_of_pos hall, dropWhile_append_of_pos hall]
  simp

theorem splitOnce_eq_some {p : String × String} :
    splitOnce sep s = some p ↔ s = p.1 ++ String.singleton sep ++ p.2 ∧ sep ∉ p.1.toList := by
  constructor
  · intro h
    have hmem : sep ∈ s.toList := by
      by_contra hnot
      rw [splitOnce, if_neg hnot] at h
      cases h
    obtain ⟨front, back, hsplit, hfront⟩ := eq_append_cons_of_mem hmem
    have hs : s = ofList front ++ String.singleton sep ++ ofList back := by
      apply String.toList_inj.mp
      simp [hsplit]
    have hnot : sep ∉ (ofList front).toList := by simpa using hfront
    rw [hs, splitOnce_append hnot, Option.some.injEq] at h
    exact h ▸ ⟨hs, hnot⟩
  · rintro ⟨rfl, hnot⟩
    exact splitOnce_append hnot p.2

theorem mem_intercalate (sep : Char) (h : c ∈ ((String.singleton sep).intercalate parts).toList) :
    c = sep ∨ ∃ p ∈ parts, c ∈ p.toList := by
  induction parts with
  | nil => simp at h
  | cons p parts ih =>
    by_cases hparts : parts = []
    · subst hparts
      exact .inr ⟨p, mem_singleton_self p, by simpa using h⟩
    · rw [String.intercalate_cons_of_ne_nil hparts, toList_append, toList_append,
        mem_append, mem_append, toList_singleton, mem_singleton] at h
      rcases h with (h | h) | h
      · exact .inr ⟨p, mem_cons_self .., h⟩
      · exact .inl h
      · rcases ih h with h | ⟨p', hp', h⟩
        · exact .inl h
        · exact .inr ⟨p', mem_cons_of_mem p hp', h⟩

theorem exists_intercalate_eq (hne : parts ≠ []) :
    ∃ front, ∃ last ∈ parts, s.intercalate parts = front ++ last := by
  induction parts with
  | nil => exact absurd rfl hne
  | cons p parts ih =>
    by_cases hparts : parts = []
    · subst hparts
      exact ⟨"", p, mem_singleton_self p, by simp⟩
    · obtain ⟨front, last, hlast, heq⟩ := ih hparts
      refine ⟨p ++ s ++ front, last, mem_cons_of_mem p hlast, ?_⟩
      rw [String.intercalate_cons_of_ne_nil hparts, heq, String.append_assoc, String.append_assoc,
        String.append_assoc]

/-- The bytes of a text begin with its first character's. -/
theorem decode_head (c : Char) (bs : Bytes) :
    ByteArray.utf8DecodeChar? (utf8EncodeChar c ++ bs).toByteArray 0 = some c := by
  have hbytes : (utf8EncodeChar c ++ bs).toByteArray =
      (utf8EncodeChar c).toByteArray ++ bs.toByteArray := by simp
  rw [hbytes]
  exact ByteArray.utf8DecodeChar?_utf8EncodeChar_append

variable {ds : List Char} {front : Bytes}

theorem prefix_of_encoded
    (h : cs.flatMap utf8EncodeChar <+: ds.flatMap utf8EncodeChar) : cs <+: ds := by
  induction cs generalizing ds with
  | nil => exact nil_prefix
  | cons c cs ih =>
    cases ds with
    | nil =>
      have hlen := h.length_le
      rw [flatMap_cons, length_append, String.length_utf8EncodeChar] at hlen
      have hpos := c.utf8Size_pos
      simp only [flatMap_nil, length_nil] at hlen
      omega
    | cons d ds =>
      obtain ⟨rest, hrest⟩ := h
      rw [flatMap_cons, flatMap_cons, append_assoc] at hrest
      have hc := decode_head c (cs.flatMap utf8EncodeChar ++ rest)
      rw [hrest, decode_head] at hc
      obtain rfl := Option.some.inj hc
      rw [append_cancel_left_eq] at hrest
      exact cons_prefix_cons.mpr ⟨rfl, ih ⟨rest, hrest⟩⟩

theorem prefix_of_textBytes (h : textBytes s <+: textBytes t) : s.toList <+: t.toList := by
  rw [← ofList_toList (s := s), ← ofList_toList (s := t), textBytes_ofList,
    textBytes_ofList] at h
  exact prefix_of_encoded h

/-- A byte that begins a character has whole characters in front of it. -/
theorem cut_of_first_byte {b : UInt8} (hb : b.IsUTF8FirstByte) {back : Bytes}
    (h : cs.flatMap utf8EncodeChar = front ++ b :: back) :
    ∃ before behind, cs = before ++ behind ∧ before.flatMap utf8EncodeChar = front := by
  induction cs generalizing front with
  | nil =>
    have hlen := congrArg List.length h
    rw [length_append] at hlen
    simp only [flatMap_nil, length_nil, length_cons] at hlen
    omega
  | cons c cs ih =>
    rw [flatMap_cons] at h
    rcases lt_or_ge front.length (utf8EncodeChar c).length with hshort | hlong
    · have hat := congrArg (fun bs => bs[front.length]?) h
      rw [getElem?_append_left hshort, getElem?_append_right (le_refl _), Nat.sub_self,
        getElem?_cons_zero, getElem?_eq_getElem hshort] at hat
      obtain rfl := Option.some.inj hat
      have hzero := UInt8.isUTF8FirstByte_getElem_utf8EncodeChar.mp hb
      exact ⟨[], c :: cs, rfl, (length_eq_zero_iff.mp hzero).symm⟩
    · obtain ⟨more, rfl⟩ := prefix_of_prefix_length_le
        (prefix_append _ (cs.flatMap utf8EncodeChar)) (h ▸ prefix_append _ _) hlong
      rw [append_assoc, append_cancel_left_eq] at h
      obtain ⟨before, behind, rfl, hbefore⟩ := ih h
      exact ⟨c :: before, behind, rfl, by rw [flatMap_cons, hbefore]⟩

theorem encoded_inj
    (h : cs.flatMap utf8EncodeChar = ds.flatMap utf8EncodeChar) : cs = ds := by
  have hle : cs <+: ds := prefix_of_encoded (by rw [h])
  have hge : ds <+: cs := prefix_of_encoded (by rw [h])
  exact hle.eq_of_length (le_antisymm hle.length_le hge.length_le)

theorem encoded_cons (c : Char) (cs : List Char) : ∃ b bs, b.IsUTF8FirstByte ∧
    (c :: cs).flatMap utf8EncodeChar = b :: bs := by
  have hpos : 0 < (utf8EncodeChar c).length := by
    rw [String.length_utf8EncodeChar]
    exact c.utf8Size_pos
  have hfirst : ((utf8EncodeChar c)[0]).IsUTF8FirstByte :=
    UInt8.isUTF8FirstByte_getElem_utf8EncodeChar.mpr rfl
  rw [flatMap_cons]
  cases hbytes : utf8EncodeChar c with
  | nil =>
    rw [hbytes] at hpos
    exact absurd hpos (lt_irrefl 0)
  | cons b bs =>
    simp only [hbytes] at hfirst
    exact ⟨b, bs ++ cs.flatMap utf8EncodeChar, hfirst, rfl⟩

/-- Bytes that are a text and end another are characters of it. -/
theorem suffix_of_encoded
    (h : cs.flatMap utf8EncodeChar = front ++ ds.flatMap utf8EncodeChar) :
    ds <:+ cs := by
  cases ds with
  | nil => exact nil_suffix
  | cons d ds =>
    obtain ⟨b, bs, hb, hbytes⟩ := encoded_cons d ds
    obtain ⟨before, behind, rfl, rfl⟩ := cut_of_first_byte hb (hbytes ▸ h)
    rw [flatMap_append, append_cancel_left_eq] at h
    rw [encoded_inj h]
    exact suffix_append before _

theorem suffix_of_textBytes (h : textBytes s = front ++ textBytes t) :
    ∃ before, s = before ++ t ∧ textBytes before = front := by
  have hchars : t.toList <:+ s.toList := by
    rw [← ofList_toList (s := s), ← ofList_toList (s := t), textBytes_ofList,
      textBytes_ofList] at h
    exact suffix_of_encoded h
  obtain ⟨cs, hcs⟩ := hchars
  have hs : s = ofList cs ++ t := by
    apply String.toList_inj.mp
    simp [← hcs]
  refine ⟨_, hs, ?_⟩
  have hbytes :
      textBytes (ofList cs ++ t) = textBytes (ofList cs) ++ textBytes t := by
    simp [textBytes]
  rw [hs, hbytes, append_cancel_right_eq] at h
  exact h

theorem textBytes_inj (h : textBytes s = textBytes t) : s = t := by
  have htext := congrArg strFromUtf8 h
  rwa [strFromUtf8_textBytes, strFromUtf8_textBytes, Option.some.injEq] at htext

theorem textBytes_eq_nil (h : textBytes s = []) : s = "" := by
  have hempty : strFromUtf8 (textBytes s) = some "" := by
    rw [h]
    rfl
  rw [strFromUtf8_textBytes] at hempty
  exact Option.some.inj hempty

theorem textBytes_append (s t : String) : textBytes (s ++ t) = textBytes s ++ textBytes t := by
  simp [textBytes]

end

/-! ### The order of texts by their bytes, which sorts keys -/

/-- `str::cmp` is not `Greater`. -/
def bytewise (s t : String) : Bool := decide (textBytes s ≤ textBytes t)

theorem ranks_bytewise : StableSort.Ranks bytewise where
  trans a b c hab hbc :=
    decide_eq_true (List.le_trans (of_decide_eq_true hab) (of_decide_eq_true hbc))
  total a b := by
    rw [Bool.or_eq_true]
    exact (List.le_total (textBytes a) (textBytes b)).imp decide_eq_true decide_eq_true

theorem bytewise_antisymm (s t : String) (h : bytewise s t = true) (h' : bytewise t s = true) :
    s = t :=
  textBytes_inj (List.le_antisymm (of_decide_eq_true h) (of_decide_eq_true h'))

end AxisBridge
