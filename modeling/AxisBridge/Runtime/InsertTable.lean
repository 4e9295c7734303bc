import AxisBridge.Runtime.ByteRange
import AxisBridge.Runtime.PgbShape

/-! The table of an insert: found in an upper-cased copy, cut out of the statement itself. -/
namespace AxisBridge
open List
open String (ofList ofList_toList toList_ofList toList_append)
open String (singleton toList_inj append_empty)

open StdText (toUppercase)

section
variable {c : Char} {a b s t rest : String}

theorem charsBefore_of_not_mem {front : List Char} (h : c ∉ front) (more : List Char) :
    charsBefore [c] (front ++ c :: more) = some front := by
  induction front with
  | nil => exact if_pos (prefix_append [c] more)
  | cons d front ih =>
    rw [mem_cons, not_or] at h
    have hnot : ¬ [c] <+: d :: (front ++ c :: more) := by
      intro hprefix
      exact h.1 (cons_prefix_cons.mp hprefix).1
    rw [cons_append, charsBefore, if_neg hnot, ih h.2]
    rfl

/-- Texts in front of one text, one byte apart, are one character apart. -/
theorem one_byte_apart {x y : String} (h : a ++ x = b ++ y)
    (hlen : (textBytes b).length = (textBytes a).length + 1) :
    ∃ c, c.utf8Size = 1 ∧ x = singleton c ++ y := by
  have ha : a.toList <+: (a ++ x).toList := by
    rw [toList_append]
    exact prefix_append _ _
  have hb : b.toList <+: (a ++ x).toList := by
    rw [h, toList_append]
    exact prefix_append _ _
  have hbytes : ∀ {s t : String}, s.toList <+: t.toList → ∃ u, t = s ++ u := by
    rintro s t ⟨u, hu⟩
    refine ⟨ofList u, toList_inj.mp ?_⟩
    simp [← hu]
  rcases prefix_or_prefix_of_prefix ha hb with hle | hle
  · obtain ⟨u, rfl⟩ := hbytes hle
    rw [textBytes_append, length_append] at hlen
    obtain ⟨c, hc⟩ : ∃ c, u.toList = [c] := by
      have hshort := length_le_length_textBytes (s := u)
      cases hu : u.toList with
      | nil =>
        obtain rfl : u = "" := toList_inj.mp hu
        have hzero : (textBytes "").length = 0 := rfl
        omega
      | cons c cs =>
        rw [hu, length_cons] at hshort
        have hnil : cs.length = 0 := by omega
        exact ⟨c, by rw [length_eq_zero_iff.mp hnil]⟩
    have hu : u = singleton c := toList_inj.mp (by simp [hc])
    have hsize : (textBytes u).length = c.utf8Size := by
      rw [← ofList_toList (s := u), hc, textBytes_ofList]
      simp
    refine ⟨c, by omega, ?_⟩
    rw [String.append_assoc, hu] at h
    exact append_cancel h
  · obtain ⟨u, rfl⟩ := hbytes hle
    rw [textBytes_append, length_append] at hlen
    omega

end

namespace RawBlk

/-! ### The statement -/

/-- `str::to_uppercase` as it is documented: character by character, an ASCII character to its upper
case, and only the parenthesis to a parenthesis. -/
structure UppercaseBy [StdText] (up : Char → List Char) : Prop where
  text : ∀ s, (toUppercase s).toList = s.toList.flatMap up
  ascii : ∀ c : Char, c.toNat < 128 → up c = [c.toUpper]
  paren : ∀ c, '(' ∈ up c → c = '('

/-- A keyword in any letter case. -/
def Spells (keyword text : String) : Prop := text.toList.map Char.toUpper = keyword.toList

/-- `INSERT INTO <table> (<cols>) VALUES (<vals>)`, with a table and a column in it. -/
structure Insert where
  insert : String
  into : String
  table : String
  cols : String
  values : String
  vals : String
  spells_insert : Spells "INSERT" insert
  spells_into : Spells "INTO" into
  spells_values : Spells "VALUES" values
  no_paren : '(' ∉ table.toList
  named : trim table ≠ ""
  columns : columnsOf (cols ++ ")") ≠ []

namespace Insert

def head (q : Insert) : String := q.insert ++ " " ++ q.into

/-- What stands between INTO and the parenthesis. -/
def slot (q : Insert) : String := " " ++ q.table ++ " "

def behind (q : Insert) : String := q.cols ++ ") " ++ q.values ++ " (" ++ q.vals ++ ")"

def text (q : Insert) : String := q.head ++ q.slot ++ "(" ++ q.behind

variable [StdText]

/-- The key as it is derived from the values. -/
def key (q : Insert) : String :=
  withoutQuotes (trim (sBefore (sBefore (sAfter (sAfter q.behind ')') '(') ')') ','))

/-- Both find the table. -/
def TableFound (q : Insert) : Prop :=
  (∃ cols, insertShape q.text = some (some (trim q.table, cols))) ∧
    ∃ record, deriveA q.text = some (trim q.table ++ ":" ++ q.key, record)

/-- In upper case, the text in front of the parenthesis is as long as it was, but for blanks at its
end of which the first is a byte. -/
def Aligned (q : Insert) : Prop :=
  ∃ front back, q.slot = front ++ back ∧
    (textBytes front).length = (textBytes (toUppercase q.slot)).length ∧
    (∀ c ∈ back.toList, isWhitespace c = true) ∧ ∀ c ∈ back.toList.head?, c.utf8Size = 1

end Insert

/-! ### Columns -/

/-- The characters in front of the first closing parenthesis. -/
def upTo (x : String) : String := ofList (x.toList.takeWhile (· ≠ ')'))

theorem splitOnce_upTo (x y : String) :
    (splitOnce ')' (x ++ ")" ++ y)).map Prod.fst = some (upTo x) := by
  have hchars : (x ++ ")" ++ y).toList = x.toList ++ ')' :: y.toList := by simp
  have hmem : ')' ∈ x.toList ++ ')' :: y.toList := by simp
  have htake : (x.toList ++ ')' :: y.toList).takeWhile (· ≠ ')') =
      x.toList.takeWhile (· ≠ ')') := by
    rw [takeWhile_append, takeWhile_cons_of_neg (by simp)]
    split
    · next hlen =>
      rw [append_nil]
      exact ((List.takeWhile_prefix _).eq_of_length hlen).symm
    · rfl
  rw [splitOnce, hchars, if_pos hmem, Option.map_some, htake, upTo]

theorem mem_splitOn {sep c : Char} {cs : List Char} (h : c ∈ cs) (hne : c ≠ sep) :
    ∃ piece ∈ cs.splitOn sep, c ∈ piece := by
  induction cs with
  | nil => cases h
  | cons d cs ih =>
    rw [splitOn_cons_eq_if_modifyHead]
    obtain ⟨piece, pieces, hpieces⟩ := exists_cons_of_ne_nil (splitOn_ne_nil sep cs)
    rw [hpieces] at ih ⊢
    rcases mem_cons.mp h with rfl | h
    · rw [if_neg (mt beq_iff_eq.mp hne)]
      exact ⟨c :: piece, mem_cons_self, mem_cons_self⟩
    · obtain ⟨p, hp, hc⟩ := ih h
      by_cases hd : d = sep
      · rw [if_pos (beq_iff_eq.mpr hd)]
        exact ⟨p, mem_cons_of_mem _ hp, hc⟩
      · rw [if_neg (mt beq_iff_eq.mp hd)]
        rcases mem_cons.mp hp with rfl | hp
        · exact ⟨d :: p, mem_cons_self, mem_cons_of_mem _ hc⟩
        · exact ⟨p, mem_cons_of_mem _ hp, hc⟩

/-- There is a column where something but commas and blanks is left in the parentheses. -/
theorem columnsOf_ne_nil (x y : String) :
    columnsOf (x ++ ")" ++ y) ≠ [] ↔ ∃ c ∈ (upTo x).toList, c ≠ ',' ∧ isWhitespace c = false := by
  rw [columnsOf, splitOnce_upTo, Option.getD_some]
  constructor
  · intro h
    obtain ⟨col, hcol⟩ := exists_mem_of_ne_nil _ h
    obtain ⟨hcol, hne⟩ := mem_filter.mp hcol
    obtain ⟨piece, hpiece, rfl⟩ := mem_map.mp hcol
    obtain ⟨hcomma, hsub⟩ := of_mem_split hpiece
    have hblank : ¬ ∀ c ∈ piece.toList, isWhitespace c = true := by
      intro hall
      rw [trim_eq_empty.mpr hall] at hne
      simp at hne
    push Not at hblank
    obtain ⟨c, hc, hnot⟩ := hblank
    refine ⟨c, hsub hc, ?_, Bool.not_eq_true _ ▸ hnot⟩
    rintro rfl
    exact hcomma hc
  · rintro ⟨c, hc, hcomma, hblank⟩
    obtain ⟨piece, hpiece, hmem⟩ := mem_splitOn hc hcomma
    have hne : trim (ofList piece) ≠ "" := by
      intro hempty
      have hall := trim_eq_empty.mp hempty c (by rwa [toList_ofList])
      rw [hblank] at hall
      cases hall
    apply ne_nil_of_mem
    apply mem_filter.mpr
    refine ⟨mem_map.mpr ⟨ofList piece, ?_, rfl⟩, by simpa using hne⟩
    rw [split_eq]
    exact mem_map_of_mem hpiece

/-! ### Upper case -/

section
variable {keyword text : String}

theorem toUpper_cases (c : Char) :
    c.toUpper = c ∨ 97 ≤ c.toNat ∧ c.toNat ≤ 122 ∧ 65 ≤ c.toUpper.toNat := by
  by_cases h : 'a'.val ≤ c.val ∧ c.val ≤ 'z'.val
  · right
    have hlow : 97 ≤ c.toNat := h.1
    have hhigh : c.toNat ≤ 122 := h.2
    have hupper : c.toUpper = _ := dif_pos h
    have hval := congrArg Char.toNat hupper
    simp [UInt32.toNat_add] at hval
    omega
  · exact .inl (dif_neg h)

theorem toNat_lt_of_toUpper {c : Char} (h : c.toUpper.toNat < 128) : c.toNat < 128 := by
  obtain hsame | ⟨-, hhigh, -⟩ := toUpper_cases c
  · rw [hsame] at h
    exact h
  · omega

theorem Spells.ascii (h : Spells keyword text)
    (hkeyword : (keyword.toList.all fun c => c.toNat < 128) = true) :
    ∀ c ∈ text.toList, c.toNat < 128 := by
  intro c hc
  have hmem : c.toUpper ∈ keyword.toList := by
    rw [← h]
    exact mem_map_of_mem hc
  have hupper := all_eq_true.mp hkeyword _ hmem
  exact toNat_lt_of_toUpper (of_decide_eq_true hupper)

theorem Spells.length_textBytes (h : Spells keyword text)
    (hkeyword : (keyword.toList.all fun c => c.toNat < 128) = true) :
    (textBytes text).length = keyword.toList.length := by
  have hsize : ∀ c ∈ text.toList, c.utf8Size = 1 := by
    intro c hc
    have hlt := h.ascii hkeyword c hc
    have hval : c.val ≤ 127 := UInt32.le_iff_toNat_le.mpr (Nat.le_of_lt_succ hlt)
    exact if_pos hval
  have hbytes := length_textBytes_ofList text.toList hsize
  rw [ofList_toList] at hbytes
  rw [hbytes, ← h, length_map]

variable [StdText] {up : Char → List Char}

theorem UppercaseBy.spells (hup : UppercaseBy up) (h : Spells keyword text)
    (hkeyword : (keyword.toList.all fun c => c.toNat < 128) = true) :
    text.toList.flatMap up = keyword.toList := by
  have hmap : text.toList.map up = text.toList.map fun c => [c.toUpper] := by
    apply map_congr_left
    intro c hc
    exact hup.ascii c (h.ascii hkeyword c hc)
  rw [flatMap_def, hmap, ← flatMap_def, ← h, map_eq_flatMap]

theorem UppercaseBy.blank (hup : UppercaseBy up) : (" " : String).toList.flatMap up = [' '] := by
  have hspace : up ' ' = [' '] := hup.ascii ' ' (by decide)
  exact (flatMap_singleton up ' ').trans hspace

end

theorem length_head (q : Insert) : (textBytes q.head).length = 11 := by
  have hinsert := q.spells_insert.length_textBytes rfl
  have hinto := q.spells_into.length_textBytes rfl
  have hblank : (textBytes " ").length = 1 := rfl
  rw [Insert.head, textBytes_append, textBytes_append, length_append, length_append, hinsert,
    hinto, hblank]
  rfl

theorem paren_not_mem_slot (q : Insert) : '(' ∉ q.slot.toList := by
  have htable := q.no_paren
  simpa [Insert.slot] using htable

/-- There is a column in front of the parenthesis. -/
theorem column_mem (q : Insert) : ∃ c ∈ (upTo q.cols).toList, c ≠ ',' ∧ isWhitespace c = false := by
  have hcolumns := q.columns
  rw [← append_empty (s := q.cols ++ ")")] at hcolumns
  exact (columnsOf_ne_nil q.cols "").mp hcolumns

theorem behind_eq (q : Insert) :
    q.behind = q.cols ++ ")" ++ (" " ++ q.values ++ " (" ++ q.vals ++ ")") := by
  apply toList_inj.mp
  simp [Insert.behind]

theorem trimStart_text (q : Insert) : trimStart q.text = q.text := by
  have hhead : ∃ c cs, q.insert.toList = c :: cs ∧ isWhitespace c = false := by
    have hspells := q.spells_insert
    cases hchars : q.insert.toList with
    | nil =>
      rw [Spells, hchars] at hspells
      cases hspells
    | cons c cs =>
      refine ⟨c, cs, rfl, ?_⟩
      rw [Spells, hchars] at hspells
      have hc : c.toUpper = 'I' := (List.cons.inj hspells).1
      by_contra hblank
      rw [Bool.not_eq_false] at hblank
      obtain hsame | ⟨hlow, hhigh, -⟩ := toUpper_cases c
      · rw [← hsame, hc] at hblank
        cases hblank
      · simp [isWhitespace] at hblank
        omega
  obtain ⟨c, cs, hchars, hc⟩ := hhead
  have htext : ∃ more, q.text.toList = c :: more := by
    refine ⟨cs ++ (" " ++ q.into ++ q.slot ++ "(" ++ q.behind).toList, ?_⟩
    simp [Insert.text, Insert.head, hchars]
  obtain ⟨more, hmore⟩ := htext
  rw [trimStart, hmore, dropWhile_cons_of_neg (by simp [hc]), ← hmore, ofList_toList]

theorem trim_slot (q : Insert) : trim q.slot = trim q.table := by
  have hblank : ∀ c ∈ (" " : String).toList, isWhitespace c = true := blank_lead
  rw [Insert.slot, trim_append_blank _ hblank, trim_blank_append hblank]

section
variable [StdText] {up : Char → List Char} (hup : UppercaseBy up) (q : Insert)
include hup

theorem upper_head :
    q.head.toList.flatMap up = ['I', 'N', 'S', 'E', 'R', 'T', ' ', 'I', 'N', 'T', 'O'] := by
  rw [Insert.head, toList_append, toList_append, flatMap_append, flatMap_append,
    hup.spells q.spells_insert rfl, hup.spells q.spells_into rfl, hup.blank]
  rfl

theorem upper_text : (toUppercase q.text).toList =
    ['I', 'N', 'S', 'E', 'R', 'T', ' ', 'I', 'N', 'T', 'O'] ++
      ((toUppercase q.slot).toList ++ '(' :: q.behind.toList.flatMap up) := by
  have hparen : up '(' = ['('] := hup.ascii '(' (by decide)
  have hchars : q.text.toList = q.head.toList ++ (q.slot.toList ++ '(' :: q.behind.toList) := by
    simp [Insert.text]
  rw [hup.text, hchars, flatMap_append, upper_head hup, flatMap_append, flatMap_cons, hparen,
    hup.text]
  rfl

theorem paren_not_mem_upper : '(' ∉ (toUppercase q.slot).toList := by
  rw [hup.text, mem_flatMap]
  rintro ⟨c, hc, hmem⟩
  obtain rfl := hup.paren c hmem
  exact paren_not_mem_slot q hc

theorem paren_not_mem_head : '(' ∉ q.head.toList := by
  intro hmem
  have hparen : up '(' = ['('] := hup.ascii '(' (by decide)
  have hupper : '(' ∈ q.head.toList.flatMap up :=
    mem_flatMap.mpr ⟨'(', hmem, hparen ▸ mem_singleton_self _⟩
  rw [upper_head hup] at hupper
  simp at hupper

/-! ### What the two find -/

theorem find_into : findText (toUppercase q.text) "INTO" = some 7 := by
  have hinto : "INTO".toList = ['I', 'N', 'T', 'O'] := rfl
  rw [findText, upper_text hup, hinto]
  rfl

theorem find_paren : findText (toUppercase q.text) "(" =
    some (11 + (textBytes (toUppercase q.slot)).length) := by
  have hparen : "(".toList = ['('] := rfl
  have hnot : '(' ∉ ['I', 'N', 'S', 'E', 'R', 'T', ' ', 'I', 'N', 'T', 'O'] ++
      (toUppercase q.slot).toList := by
    rw [mem_append, not_or]
    exact ⟨by simp, paren_not_mem_upper hup q⟩
  have hbytes : textBytes (ofList (['I',
      'N', 'S', 'E', 'R', 'T', ' ', 'I', 'N', 'T', 'O'] ++ (toUppercase q.slot).toList)) =
      textBytes "INSERT INTO" ++ textBytes (toUppercase q.slot) := by
    rw [String.ofList_append, ofList_toList, textBytes_append]
  rw [findText, upper_text hup, hparen, ← append_assoc, charsBefore_of_not_mem hnot,
    Option.map_some, hbytes, length_append]
  rfl

theorem insertShape_text : insertShape q.text =
    match getRange q.text 11 (11 + (textBytes (toUppercase q.slot)).length) with
    | none => some none
    | some t =>
      (getRange q.text (11 + (textBytes (toUppercase q.slot)).length + 1)
        (textBytes q.text).length).map
        fun rest => if trim t = "" ∨ columnsOf rest = [] then
          none else some (trim t, columnsOf rest) := by
  have hinsert : "INSERT".toList <+: (toUppercase (trimStart q.text)).toList := by
    rw [trimStart_text, upper_text hup]
    exact ⟨_, rfl⟩
  have hle : ¬ 11 + (textBytes (toUppercase q.slot)).length < 7 + 4 := by omega
  rw [insertShape, if_neg (not_not_intro hinsert), find_into hup, find_paren hup]
  exact if_neg hle

theorem deriveA_text : (deriveA q.text).map Prod.fst =
    (getRange q.text 11 (11 + (textBytes (toUppercase q.slot)).length)).map fun t =>
      trim t ++ ":" ++ q.key := by
  have hparen : '(' ∉ (q.head ++ q.slot).toList := by
    rw [toList_append, mem_append, not_or]
    exact ⟨paren_not_mem_head hup q, paren_not_mem_slot q⟩
  have hbehind : sAfter q.text '(' = q.behind := by
    have hsplit : splitOnce '(' q.text = some (q.head ++ q.slot, q.behind) :=
      splitOnce_append hparen q.behind
    rw [sAfter, hsplit]
  have hcols : trim (sBefore q.behind ')') ≠ "" := by
    have hfirst := splitOnce_upTo q.cols (" " ++ q.values ++ " (" ++ q.vals ++ ")")
    rw [← behind_eq] at hfirst
    obtain ⟨pair, hpair, hcols⟩ := Option.map_eq_some_iff.mp hfirst
    have hbefore : sBefore q.behind ')' = upTo q.cols := by
      rw [sBefore, hpair]
      exact hcols
    obtain ⟨c, hc, -, hblank⟩ := column_mem q
    intro hempty
    rw [hbefore] at hempty
    rw [trim_eq_empty.mp hempty c hc] at hblank
    cases hblank
  have hmax : max (11 + (textBytes (toUppercase q.slot)).length) (7 + 4) =
      11 + (textBytes (toUppercase q.slot)).length := by omega
  rw [deriveA, hbehind]
  simp only [if_neg hcols, find_into hup, find_paren hup, Option.bind_eq_bind, Option.bind_some,
    Insert.key]
  rw [hmax]
  cases getRange q.text 11 (11 + (textBytes (toUppercase q.slot)).length) <;> rfl

end

/-! ### Where the table is found -/

section
variable (q : Insert)
variable {t back : String}

theorem text_eq (h : q.slot = t ++ back) : q.text = q.head ++ t ++ (back ++ "(" ++ q.behind) := by
  rw [Insert.text, h]
  apply toList_inj.mp
  simp

/-- The range up to the parenthesis of the copy is the table just when it is the text, or all of it
but blanks at its end. -/
theorem range_iff {n : ℕ} (htrim : trim t = trim q.table) :
    getRange q.text 11 (11 + n) = some t ↔ ∃ back, q.slot = t ++ back ∧ (textBytes t).length = n ∧
      ∀ c ∈ back.toList, isWhitespace c = true := by
  have hhead := length_head q
  constructor
  · intro h
    obtain ⟨-, hbytes⟩ := of_getRange h
    have htext : textBytes q.text =
        textBytes q.head ++ (textBytes q.slot ++ textBytes ("(" ++ q.behind)) := by
      rw [← textBytes_append, ← textBytes_append, Insert.text]
      simp only [String.append_assoc]
    have htake : (textBytes q.slot ++ textBytes ("(" ++ q.behind)).take n = textBytes t := by
      rw [← hbytes, htext, ← hhead, take_length_add_append, drop_left]
    rcases lt_or_ge (textBytes q.slot).length n with hlong | hshort
    · -- the parenthesis would be part of the table
      have hparen : textBytes (q.slot ++ "(") <+: textBytes t := by
        rw [← htake, textBytes_append, textBytes_append, ← append_assoc, ← textBytes_append]
        apply prefix_take_iff.mpr
        refine ⟨prefix_append _ _, ?_⟩
        have hone : (textBytes "(").length = 1 := rfl
        rw [textBytes_append, length_append, hone]
        omega
      have hmem : '(' ∈ t.toList := (prefix_of_textBytes hparen).subset (by simp)
      have htable := trim_subset q.table (htrim ▸ mem_trim hmem rfl)
      exact absurd htable q.no_paren
    · rw [take_append_of_le_length hshort] at htake
      have hprefix : textBytes t <+: textBytes q.slot := htake ▸ take_prefix n _
      obtain ⟨cs, hcs⟩ := prefix_of_textBytes hprefix
      have hslot : q.slot = t ++ ofList cs := toList_inj.mp (by simp [← hcs])
      refine ⟨_, hslot, ?_, ?_⟩
      · rw [← htake, length_take, min_eq_left hshort]
      · apply blank_of_trim_append (htrim ▸ q.named)
        rw [← hslot, trim_slot, htrim]
  · rintro ⟨back, hslot, rfl, -⟩
    rw [text_eq q hslot, ← hhead]
    exact getRange_append _ _ _

/-- Behind the range there is one more byte to skip, and a column is found behind it. -/
theorem rest_of_range (hslot : q.slot = t ++ back)
    (hblank : ∀ c ∈ back.toList, isWhitespace c = true)
    (hone : ∀ c ∈ back.toList.head?, c.utf8Size = 1) :
    ∃ rest, getRange q.text (11 + (textBytes t).length + 1) (textBytes q.text).length = some rest ∧
      columnsOf rest ≠ [] := by
  have hskip : ∃ c rest, c.utf8Size = 1 ∧ back ++ "(" ++ q.behind = singleton c ++ rest ∧
      columnsOf rest ≠ [] := by
    cases hchars : back.toList with
    | nil =>
      obtain rfl : back = "" := toList_inj.mp hchars
      refine ⟨'(', q.behind, rfl, by rw [String.empty_append]; rfl, ?_⟩
      rw [behind_eq, columnsOf_ne_nil]
      exact column_mem q
    | cons c cs =>
      have hc : c.utf8Size = 1 := hone c (by rw [hchars]; rfl)
      refine ⟨c, ofList cs ++ "(" ++ q.behind, hc, ?_, ?_⟩
      · apply toList_inj.mp
        simp [hchars]
      · have hrest : ofList cs ++ "(" ++ q.behind = ofList cs ++ "(" ++ q.cols ++
            ")" ++ (" " ++ q.values ++ " (" ++ q.vals ++ ")") := by
          rw [behind_eq]
          simp only [String.append_assoc]
        have hcs : ∀ d ∈ cs, (d ≠ ')' : Bool) = true := by
          intro d hd
          have hspace := hblank d (by rw [hchars]; exact mem_cons_of_mem c hd)
          rw [decide_eq_true_eq]
          rintro rfl
          cases hspace
        have hchars' : (ofList cs ++ "(" ++ q.cols).toList =
          cs ++ ('(' :: q.cols.toList) := by simp
        rw [hrest, columnsOf_ne_nil]
        refine ⟨'(', ?_, by simp, rfl⟩
        rw [upTo, toList_ofList, hchars', takeWhile_append_of_pos hcs, mem_append,
          takeWhile_cons_of_pos (by simp)]
        exact .inr mem_cons_self
  obtain ⟨c, rest, hc, hrest, hcolumns⟩ := hskip
  have htext : q.text = q.head ++ t ++ singleton c ++ rest ++ "" := by
    rw [text_eq q hslot, hrest, append_empty]
    simp only [String.append_assoc]
  have hsize : (textBytes (singleton c)).length = 1 := by
    have hbytes : singleton c = ofList [c] := rfl
    rw [hbytes, textBytes_ofList]
    simp [hc]
  have hstart :
      (textBytes (q.head ++ t ++ singleton c)).length = 11 + (textBytes t).length + 1 := by
    rw [textBytes_append, textBytes_append, length_append, length_append, hsize, length_head]
  have hstop : (textBytes q.text).length =
      (textBytes (q.head ++ t ++ singleton c)).length + (textBytes rest).length := by
    rw [htext, append_empty, textBytes_append, length_append]
  refine ⟨rest, ?_, hcolumns⟩
  rw [hstop, ← hstart, htext]
  exact getRange_append _ _ _

theorem range_of_rest {rest : String} (hslot : q.slot = t ++ back)
    (h : getRange q.text (11 + (textBytes t).length + 1) (textBytes q.text).length = some rest) :
    ∀ c ∈ back.toList.head?, c.utf8Size = 1 := by
  obtain ⟨before, htext, hbefore⟩ := of_getRange_end h
  have hhead : (textBytes (q.head ++ t)).length = 11 + (textBytes t).length := by
    rw [textBytes_append, length_append, length_head]
  rw [text_eq q hslot] at htext
  obtain ⟨d, hd, hrest⟩ := one_byte_apart htext (by rw [hbefore, hhead])
  intro c hc
  obtain ⟨cs, hcs⟩ : ∃ cs, back.toList = c :: cs := head?_eq_some_iff.mp hc
  have hchars := congrArg String.toList hrest
  simp only [toList_append, hcs, String.toList_singleton, cons_append, nil_append] at hchars
  rw [(List.cons.inj hchars).1]
  exact hd

end

/-- Both find the table of an insert just when its text is as long in upper case, but for blanks at
its end of which the first is a byte. -/
theorem tableFound_iff [StdText] {up : Char → List Char} (hup : UppercaseBy up) (q : Insert) :
    q.TableFound ↔ q.Aligned := by
  constructor
  · rintro ⟨⟨cols, hshape⟩, -⟩
    rw [insertShape_text hup] at hshape
    cases hrange : getRange q.text 11 (11 + (textBytes (toUppercase q.slot)).length) with
    | none =>
      rw [hrange] at hshape
      cases hshape
    | some t =>
      simp only [hrange] at hshape
      obtain ⟨rest, hrest, hshape⟩ := Option.map_eq_some_iff.mp hshape
      split at hshape
      · cases hshape
      · have htrim : trim t = trim q.table := congrArg Prod.fst (Option.some.inj hshape)
        obtain ⟨back, hslot, hlen, hblank⟩ := (range_iff q htrim).mp hrange
        rw [← hlen] at hrest
        exact ⟨t, back, hslot, hlen, hblank, range_of_rest q hslot hrest⟩
  · rintro ⟨t, back, hslot, hlen, hblank, hone⟩
    have htrim : trim t = trim q.table := by
      rw [← trim_slot, hslot, trim_append_blank t hblank]
    have hrange := (range_iff q htrim).mpr ⟨back, hslot, hlen, hblank⟩
    obtain ⟨rest, hrest, hcolumns⟩ := rest_of_range q hslot hblank hone
    rw [hlen] at hrest
    constructor
    · have hnone : ¬ (trim q.table = "" ∨ columnsOf rest = []) := not_or.mpr ⟨q.named, hcolumns⟩
      refine ⟨columnsOf rest, ?_⟩
      rw [insertShape_text hup]
      simp [hrange, hrest, htrim, if_neg hnone]
    · have hname := deriveA_text hup q
      rw [hrange, Option.map_some, htrim] at hname
      obtain ⟨row, hrow, hfst⟩ := Option.map_eq_some_iff.mp hname
      exact ⟨row.2, by rw [hrow, ← hfst]⟩

/-! ### A letter that is shorter in upper case -/

/-- The dotless i has two bytes, and one in upper case. -/
def dotlessUpper (c : Char) : List Char :=
  if c = 'ı' then ['I'] else if c = 'é' then ['É'] else [c.toUpper]

@[reducible] def dotlessText : StdText where
  toUppercase s := ofList (s.toList.flatMap dotlessUpper)
  fromUtf8Lossy bs := (strFromUtf8 bs).getD ""

attribute [local instance] dotlessText

theorem uppercaseBy_dotless : UppercaseBy dotlessUpper where
  text s := toList_ofList
  ascii c h := by
    have hdotless : c ≠ 'ı' := by
      rintro rfl
      revert h
      decide
    have hacute : c ≠ 'é' := by
      rintro rfl
      revert h
      decide
    rw [dotlessUpper, if_neg hdotless, if_neg hacute]
  paren c h := by
    rw [dotlessUpper] at h
    split at h
    · simp at h
    · split at h
      · simp at h
      · have hupper : '(' = c.toUpper := mem_singleton.mp h
        obtain hsame | ⟨-, -, hlow⟩ := toUpper_cases c
        · rw [← hsame, ← hupper]
        · rw [← hupper] at hlow
          have hparen : 65 ≤ 40 := hlow
          omega

def insertInto (table : String) (hparen : '(' ∉ table.toList)
    (hnamed : trim table ≠ "") : Insert where
  insert := "insert"
  into := "into"
  table := table
  cols := "a"
  values := "values"
  vals := "1"
  spells_insert := rfl
  spells_into := rfl
  spells_values := rfl
  no_paren := hparen
  named := hnamed
  columns := by decide +kernel

theorem tableFound_dotless : (insertInto "tı" (by simp) (by decide +kernel)).TableFound := by
  refine (tableFound_iff uppercaseBy_dotless _).mpr
    ⟨" tı", " ", by decide +kernel, by decide +kernel, blank_lead, ?_⟩
  intro c hc
  obtain rfl : ' ' = c := Option.some.inj hc
  rfl

/-- Three bytes are lost in front of the last letter: the one slice leaves it out, the other
panics. -/
theorem table_cut : (insertInto "ıııé" (by simp) (by decide +kernel)).text =
      "insert into ıııé (a) values (1)" ∧ insertShape "insert into ıııé (a) values (1)" = none ∧
    deriveA "insert into ıııé (a) values (1)" = some ("ııı:1", "RECORD\ta=1") := by
  decide +kernel

end RawBlk

end AxisBridge
