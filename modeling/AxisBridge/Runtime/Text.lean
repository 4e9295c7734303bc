import AxisBridge.Emit.Tables
import AxisBridge.Runtime.Value
import Mathlib.Data.List.DropRight

/-! UTF-8 bytes of a text, decimal numbers, and the hexadecimal of a digest. -/
namespace AxisBridge
open List Option
open String (ofList ofList_toList toList_append toList_ofList)

def textBytes (s : String) : Bytes := s.toByteArray.data.toList

/-- `std::str::from_utf8`, without the error nobody here reads. -/
def strFromUtf8 (bytes : Bytes) : Option String :=
  if h : bytes.toByteArray.IsValidUTF8 then some (String.ofByteArray bytes.toByteArray h) else none

def digitsVal (cs : List Char) : Option ℕ :=
  if cs ≠ [] ∧ cs.all Char.isDigit = true then some (Nat.ofDigitChars 10 cs 0) else none

/-- `str::parse::<usize>`. -/
def parseUsize (s : String) : Option ℕ :=
  match s.toList with
  | '+' :: cs => (digitsVal cs).filter (· < 2 ^ 64)
  | cs => (digitsVal cs).filter (· < 2 ^ 64)

/-- `str::parse::<i64>`. -/
def parseI64 (s : String) : Option ℤ :=
  match s.toList with
  | '+' :: cs => ((digitsVal cs).filter (· < 2 ^ 63)).map Int.ofNat
  | '-' :: cs => ((digitsVal cs).filter (· ≤ 2 ^ 63)).map fun n => -Int.ofNat n
  | cs => ((digitsVal cs).filter (· < 2 ^ 63)).map Int.ofNat

/-- `format!("{:0width$}", n)`. -/
def padded (width n : ℕ) : String :=
  ofList (replicate (width - (Nat.toDigits 10 n).length) '0' ++ Nat.toDigits 10 n)

/-- `str::strip_prefix`. -/
def stripPrefix (p s : String) : Option String :=
  if p.toList <+: s.toList then some (ofList (s.toList.drop p.toList.length)) else none

/-- `str::strip_suffix`. -/
def stripSuffix (p s : String) : Option String :=
  if p.toList <:+ s.toList then
    some (ofList (s.toList.take (s.toList.length - p.toList.length)))
  else none

/-- The two sides of the first `sep`. -/
def splitOnce (sep : Char) (s : String) : Option (String × String) :=
  if sep ∈ s.toList then
    some (ofList (s.toList.takeWhile (· ≠ sep)), ofList (s.toList.dropWhile (· ≠ sep)).tail)
  else none

/-- The two sides of the last `sep`. -/
def rsplitOnce (sep : Char) (s : String) : Option (String × String) :=
  if sep ∈ s.toList then
    some (ofList (s.toList.reverse.dropWhile (· ≠ sep)).tail.reverse,
      ofList (s.toList.reverse.takeWhile (· ≠ sep)).reverse)
  else none

/-- `Path::parent`, the working directory for a bare name. -/
def parentDir (path : String) : String :=
  match rsplitOnce '/' path with
  | some (dir, _) => if dir = "" then "/" else dir
  | none => "."

def inParentOf (path p : String) : Bool := parentDir p = parentDir path

def sha256Hex [Sha256] (data : Bytes) : String := hash256ToHex (sha256Bytes data)

def bytesHash [Sha256] (bytes : Bytes) : String := s!"sha256:{sha256Hex bytes}"

/-- The digests of `a`, of `b`, of `ab` and of the empty input, which here stands for the rest
too. -/
@[reducible] def textDigests : Sha256 where
  digest data :=
    if data = [97] then
      ⟨[202, 151, 129, 18, 202, 27, 189, 202, 250, 194, 49, 179, 154, 35, 220, 77, 167, 134,
        239, 248, 20, 124, 78, 114, 185, 128, 119, 133, 175, 238, 72, 187], rfl⟩
    else if data = [98] then
      ⟨[62, 35, 232, 22, 0, 57, 89, 74, 51, 137, 79, 101, 100, 225, 177, 52, 139, 189, 122, 0,
        136, 212, 44, 74, 203, 115, 238, 174, 213, 156, 0, 157], rfl⟩
    else if data = [97, 98] then
      ⟨[251, 142, 32, 252, 46, 76, 63, 36, 140, 96, 195, 155, 214, 82, 243, 193, 52, 114, 152,
        187, 151, 123, 139, 77, 89, 3, 184, 80, 85, 98, 6, 3], rfl⟩
    else
      ⟨[227, 176, 196, 66, 152, 252, 28, 20, 154, 251, 244, 200, 153, 111, 185, 36, 39, 174,
        65, 228, 100, 155, 147, 76, 164, 149, 153, 27, 120, 82, 184, 85], rfl⟩

section
variable {s t : String} {bs : Bytes} {cs : List Char} {c : Char} {n width : ℕ}

theorem stripPrefix_append : stripPrefix s (s ++ t) = some t := by
  simp [stripPrefix]

theorem stripSuffix_append : stripSuffix s (t ++ s) = some t := by
  simp [stripSuffix]

/-- A name without separators comes behind the last one. -/
theorem rsplitOnce_append {sep : Char} (dir : String) {name : String} (h : sep ∉ name.toList) :
    rsplitOnce sep (dir ++ String.singleton sep ++ name) = some (dir, name) := by
  have hrev : (dir ++ String.singleton sep ++ name).toList.reverse =
      name.toList.reverse ++ sep :: dir.toList.reverse := by
    simp
  have hname : ∀ c ∈ name.toList.reverse, decide (c ≠ sep) = true := by
    intro c hc
    refine decide_eq_true ?_
    rintro rfl
    exact h (mem_reverse.mp hc)
  have hmem : sep ∈ (dir ++ String.singleton sep ++ name).toList := by simp
  rw [rsplitOnce, if_pos hmem, hrev, takeWhile_append_of_pos hname, dropWhile_append_of_pos hname]
  simp

theorem rsplitOnce_eq_some {sep : Char} {p : String × String} :
    rsplitOnce sep s = some p ↔ s = p.1 ++ String.singleton sep ++ p.2 ∧ sep ∉ p.2.toList := by
  constructor
  · intro h
    have hmem : sep ∈ s.toList := by
      by_contra hnot
      rw [rsplitOnce, if_neg hnot] at h
      cases h
    obtain ⟨back, front, hsplit, hback⟩ := eq_append_cons_of_mem (mem_reverse.mpr hmem)
    have hs :
        s = ofList front.reverse ++ String.singleton sep ++ ofList back.reverse := by
      apply String.toList_inj.mp
      rw [← reverse_reverse s.toList, hsplit]
      simp
    have hnot : sep ∉ (ofList back.reverse).toList := by simpa using hback
    rw [hs, rsplitOnce_append _ hnot, some.injEq] at h
    exact h ▸ ⟨hs, hnot⟩
  · rintro ⟨rfl, hnot⟩
    exact rsplitOnce_append p.1 hnot

theorem textBytes_ofList : textBytes (ofList cs) = cs.flatMap String.utf8EncodeChar := by
  simp [textBytes, List.utf8Encode]

theorem strFromUtf8_eq_some : strFromUtf8 bs = some s ↔ bs = textBytes s := by
  unfold strFromUtf8
  constructor
  · intro h
    split at h
    · cases h
      simp [textBytes]
    · cases h
  · rintro rfl
    have hbytes : (textBytes s).toByteArray = s.toByteArray := by
      apply ByteArray.ext
      simp [textBytes]
    have hvalid : (textBytes s).toByteArray.IsValidUTF8 := hbytes ▸ s.isValidUTF8
    rw [dif_pos hvalid, some.injEq]
    exact String.toByteArray_inj.mp hbytes

@[simp] theorem strFromUtf8_textBytes : strFromUtf8 (textBytes s) = some s :=
  strFromUtf8_eq_some.mpr rfl

/-- A text of one-byte characters has as many bytes as characters. -/
theorem length_textBytes_ofList (cs : List Char) (h : ∀ c ∈ cs, c.utf8Size = 1) :
    (textBytes (ofList cs)).length = cs.length := by
  induction cs with
  | nil => rfl
  | cons c cs ih =>
    have hc := h c mem_cons_self
    have hcs := ih fun d hd => h d (mem_cons_of_mem c hd)
    simp only [textBytes_ofList] at hcs ⊢
    simp [hc, hcs, add_comm]

theorem utf8Size_of_isDigit (h : c.isDigit = true) : c.utf8Size = 1 := by
  have hle : c.toNat ≤ '9'.toNat := (Char.isDigit_iff_toNat.mp h).2
  have hval : c.val ≤ 127 := UInt32.le_iff_toNat_le.mpr (hle.trans (by decide))
  exact if_pos hval

theorem not_isWhitespace_of_isDigit (h : c.isDigit = true) : isWhitespace c = false := by
  obtain ⟨hlo, hhi⟩ := Char.isDigit_iff_toNat.mp h
  have h0 : '0'.toNat = 48 := rfl
  have h9 : '9'.toNat = 57 := rfl
  simp only [isWhitespace, Bool.or_eq_false_iff, Bool.and_eq_false_iff, decide_eq_false_iff_not,
    beq_eq_false_iff_ne]
  omega

theorem dropWhile_isWhitespace (h : ∀ c ∈ cs, c.isDigit = true) :
    cs.dropWhile isWhitespace = cs := by
  cases cs with
  | nil => rfl
  | cons c cs =>
    exact dropWhile_cons_of_neg (by
      simp [not_isWhitespace_of_isDigit (h c mem_cons_self)])

theorem trim_digits (h : ∀ c ∈ cs, c.isDigit = true) :
    trim (ofList cs) = ofList cs := by
  unfold trim
  rw [toList_ofList, dropWhile_isWhitespace h,
    dropWhile_isWhitespace fun c hc => h c (mem_reverse.mp hc), reverse_reverse]

theorem isDigit_padded (hc : c ∈ (padded width n).toList) : c.isDigit = true := by
  simp only [padded, toList_ofList, mem_append, mem_replicate] at hc
  rcases hc with ⟨-, rfl⟩ | hc
  · rfl
  · exact Nat.isDigit_of_mem_toDigits (by norm_num) (by norm_num) hc

theorem trim_padded : trim (padded width n) = padded width n := by
  apply trim_digits
  intro c hc
  exact isDigit_padded (by simpa [padded] using hc)

theorem length_padded (hw : 0 < width) (h : n < 10 ^ width) :
    (padded width n).toList.length = width := by
  have hle : (Nat.toDigits 10 n).length ≤ width :=
    (Nat.length_toDigits_le_iff (by norm_num) hw).mpr h
  simp only [padded, toList_ofList, length_append, length_replicate]
  omega

theorem length_textBytes_padded :
    (textBytes (padded width n)).length = (padded width n).toList.length := by
  have hlen := length_textBytes_ofList (padded width n).toList fun c hc =>
    utf8Size_of_isDigit (isDigit_padded hc)
  rwa [ofList_toList] at hlen

theorem length_textBytes_padded_of_lt (hw : 0 < width) (h : n < 10 ^ width) :
    (textBytes (padded width n)).length = width :=
  length_textBytes_padded.trans (length_padded hw h)

theorem digitsVal_padded : digitsVal (padded width n).toList = some n := by
  have hne : (padded width n).toList ≠ [] := by simp [padded, Nat.toDigits_ne_nil]
  have hall : (padded width n).toList.all Char.isDigit = true :=
    all_eq_true.mpr fun c hc => isDigit_padded hc
  rw [digitsVal, if_pos ⟨hne, hall⟩, padded, toList_ofList, Nat.ofDigitChars_append]
  simp

/-- A text that starts with a digit has no sign for the parser to take off. -/
theorem head_ne_sign (h : ∀ c ∈ cs, c.isDigit = true) (d : Char) (hd : d.isDigit = false)
    (rest : List Char) : cs ≠ d :: rest := by
  rintro rfl
  simp [h d mem_cons_self] at hd

theorem parseUsize_padded (h : n < 2 ^ 64) : parseUsize (padded width n) = some n := by
  unfold parseUsize
  split
  · rename_i hcs
    exact absurd hcs (head_ne_sign (fun c => isDigit_padded) '+' rfl _)
  · rw [digitsVal_padded, Option.filter_some, if_pos (decide_eq_true h)]

theorem parseI64_padded (h : n < 2 ^ 63) : parseI64 (padded width n) = some (n : ℤ) := by
  unfold parseI64
  split
  · rename_i hcs
    exact absurd hcs (head_ne_sign (fun c => isDigit_padded) '+' rfl _)
  · rename_i hcs
    exact absurd hcs (head_ne_sign (fun c => isDigit_padded) '-' rfl _)
  · rw [digitsVal_padded, Option.filter_some, if_pos (decide_eq_true h)]
    rfl

/-- A number is smaller than the power its digits reach. -/
theorem digitsVal_lt (h : digitsVal cs = some n) : n < 10 ^ cs.length := by
  unfold digitsVal at h
  split at h
  · rename_i hcs
    cases h
    obtain ⟨-, hall⟩ := hcs
    induction cs with
    | nil => simp
    | cons c cs ih =>
      rw [all_cons, Bool.and_eq_true] at hall
      have hc := (Char.isDigit_iff_toNat.mp hall.1).2
      have h9 : '9'.toNat = 57 := rfl
      have h0 : '0'.toNat = 48 := rfl
      have hrest := ih hall.2
      rw [Nat.ofDigitChars_cons, Nat.ofDigitChars_eq_ofDigitChars_zero, length_cons, pow_succ]
      have hmul : 10 ^ cs.length * (10 * 0 + (c.toNat - '0'.toNat)) ≤ 10 ^ cs.length * 9 :=
        Nat.mul_le_mul_left _ (by omega)
      omega
  · cases h

theorem length_trim_le : (trim s).toList.length ≤ s.toList.length := by
  simp only [trim, toList_ofList, length_reverse]
  have houter :=
    (dropWhile_sublist isWhitespace (l := (s.toList.dropWhile isWhitespace).reverse)).length_le
  have hinner := (dropWhile_sublist isWhitespace (l := s.toList)).length_le
  rw [length_reverse] at houter
  omega

theorem length_le_length_textBytes : s.toList.length ≤ (textBytes s).length := by
  have hbytes : textBytes s = s.toList.flatMap String.utf8EncodeChar := by
    rw [← textBytes_ofList, ofList_toList]
  rw [hbytes, length_flatMap]
  induction s.toList with
  | nil => rfl
  | cons c cs ih =>
    have hc := Char.utf8Size_pos c
    simp only [map_cons, sum_cons, length_cons, String.length_utf8EncodeChar] at ih ⊢
    omega

theorem parseUsize_lt (h : parseUsize s = some n) : n < 10 ^ s.toList.length := by
  unfold parseUsize at h
  split at h
  · rename_i cs hcs
    have hlt := digitsVal_lt (Option.filter_eq_some_iff.mp h).1
    rw [hcs, length_cons]
    exact hlt.trans_le (Nat.pow_le_pow_right (by norm_num) (Nat.le_succ _))
  · exact digitsVal_lt (Option.filter_eq_some_iff.mp h).1

theorem padded_zero : padded 0 n = n.repr := by
  simp [padded, Nat.repr_eq_ofList_toDigits]

theorem parseUsize_repr (h : n < 2 ^ 64) : parseUsize n.repr = some n := by
  rw [← padded_zero]
  exact parseUsize_padded h

theorem repr_inj {m : ℕ} (h : n.repr = m.repr) : n = m := by
  have hval := congrArg (fun s : String => digitsVal s.toList) h
  rw [← padded_zero, ← padded_zero] at hval
  simpa only [digitsVal_padded, some.injEq] using hval

theorem isDigit_repr {m : ℕ} (hc : c ∈ m.repr.toList) : c.isDigit = true := by
  rw [← padded_zero] at hc
  exact isDigit_padded hc

theorem toList_negSucc (m : ℕ) : (toString (Int.negSucc m)).toList = '-' :: (m + 1).repr.toList :=
  toList_append

theorem isDigit_int {n : ℤ} (hc : c ∈ (toString n).toList) : c = '-' ∨ c.isDigit = true := by
  cases n with
  | ofNat m => exact Or.inr (isDigit_repr hc)
  | negSucc m =>
    rw [toList_negSucc] at hc
    exact (mem_cons.mp hc).imp id isDigit_repr

theorem int_toString_inj {n m : ℤ} (h : toString n = toString m) : n = m := by
  have hlist := congrArg String.toList h
  cases n with
  | ofNat n =>
    cases m with
    | ofNat m => exact congrArg Int.ofNat (repr_inj h)
    | negSucc m =>
      rw [toList_negSucc] at hlist
      exact absurd hlist (head_ne_sign (fun _ => isDigit_repr) '-' rfl _)
  | negSucc n =>
    rw [toList_negSucc] at hlist
    cases m with
    | ofNat m => exact absurd hlist.symm (head_ne_sign (fun _ => isDigit_repr) '-' rfl _)
    | negSucc m =>
      rw [toList_negSucc] at hlist
      have hrepr := repr_inj (String.toList_inj.mp (tail_eq_of_cons_eq hlist))
      omega

variable {u : String}

theorem append_cancel (h : s ++ t = s ++ u) : t = u := by
  have hlist := congrArg String.toList h
  simp only [toList_append] at hlist
  exact String.toList_inj.mp (append_cancel_left hlist)

theorem append_cancel_right (h : t ++ s = u ++ s) : t = u := by
  have hlist := congrArg String.toList h
  simp only [toList_append] at hlist
  exact String.toList_inj.mp (List.append_cancel_right hlist)

theorem prefix_cancel (h : (s ++ t).toList <+: (s ++ u).toList) : t.toList <+: u.toList := by
  rw [toList_append, toList_append] at h
  exact (prefix_append_right_inj _).mp h

/-- A number between two texts can be told from any other. -/
theorem numbered_inj {pre post : String} {n m : ℤ}
    (h : pre ++ toString n ++ post = pre ++ toString m ++ post) : n = m :=
  int_toString_inj (append_cancel (append_cancel_right h))

theorem le_parseI64 {n : ℤ} (h : parseI64 s = some n) : -2 ^ 63 ≤ n := by
  unfold parseI64 at h
  split at h
  · obtain ⟨m, -, rfl⟩ := Option.map_eq_some_iff.mp h
    exact le_trans (by decide) (Int.natCast_nonneg m)
  · obtain ⟨m, hm, rfl⟩ := Option.map_eq_some_iff.mp h
    have hle : m ≤ 2 ^ 63 := by simpa using (Option.filter_eq_some_iff.mp hm).2
    have hcast : (m : ℤ) ≤ 2 ^ 63 := by exact_mod_cast hle
    exact neg_le_neg hcast
  · obtain ⟨m, -, rfl⟩ := Option.map_eq_some_iff.mp h
    exact le_trans (by decide) (Int.natCast_nonneg m)

theorem parseI64_toString {n : ℤ} (hlow : -2 ^ 63 ≤ n) (hhigh : n < 2 ^ 63) :
    parseI64 (toString n) = some n := by
  cases n with
  | ofNat m =>
    have hrepr : toString (Int.ofNat m) = padded 0 m := padded_zero.symm
    have hlt : (m : ℤ) < 2 ^ 63 := hhigh
    rw [hrepr, parseI64_padded (by omega)]
    rfl
  | negSucc m =>
    have hval : digitsVal (m + 1).repr.toList = some (m + 1) := by
      rw [← padded_zero, digitsVal_padded]
    have hle : m + 1 ≤ 2 ^ 63 := by omega
    simp only [parseI64, toList_negSucc, hval, Option.filter_some, if_pos (decide_eq_true hle)]
    rfl
end

theorem hexDigit_utf8 : ∀ n < 16, (hexDigit n).utf8Size = 1 := by decide

theorem hexDigit_of_mem {h : Hash256} {c : Char} (hc : c ∈ (hash256ToHex h).toList) :
    ∃ n < 16, c = hexDigit n := by
  simp only [hash256ToHex, toList_ofList, mem_flatMap, mem_cons, not_mem_nil, or_false] at hc
  obtain ⟨b, -, rfl | rfl⟩ := hc
  · exact ⟨b.toNat / 16, by have := b.toNat_lt; omega, rfl⟩
  · exact ⟨b.toNat % 16, Nat.mod_lt _ (by norm_num), rfl⟩

theorem length_textBytes_hex (h : Hash256) : (textBytes (hash256ToHex h)).length = 64 := by
  have hlen := length_textBytes_ofList (hash256ToHex h).toList fun c hc => by
    obtain ⟨n, hn, rfl⟩ := hexDigit_of_mem hc
    exact hexDigit_utf8 n hn
  rw [ofList_toList] at hlen
  exact hlen.trans (by simp [hash256ToHex, length_flatMap, h.length_eq])

end AxisBridge

/-! Texts without the blanks at their ends. -/
namespace AxisBridge
open List

section
variable {α : Type} {c : α} {l m : List α} {p : α → Bool}

/-! ### The end of a list -/

theorem rdropWhile_append (h : p c = false) :
    (l ++ [c] ++ m).rdropWhile p = l ++ [c] ++ m.rdropWhile p := by
  induction m using reverseRecOn with
  | nil =>
    rw [append_nil, rdropWhile_nil, append_nil]
    exact rdropWhile_concat_neg _ _ _ (by simp [h])
  | append_singleton m d ih =>
    rw [← append_assoc]
    by_cases hd : p d = true
    · rw [rdropWhile_concat_pos _ _ _ hd, rdropWhile_concat_pos _ _ _ hd, ih]
    · rw [rdropWhile_concat_neg _ _ _ hd, rdropWhile_concat_neg _ _ _ hd, append_assoc]

theorem rdropWhile_append_of_ne_nil (h : m.rdropWhile p ≠ []) :
    (l ++ m).rdropWhile p = l ++ m.rdropWhile p := by
  induction m using reverseRecOn with
  | nil => exact absurd (rdropWhile_nil p) h
  | append_singleton m c ih =>
    rw [← append_assoc]
    by_cases hc : p c = true
    · rw [rdropWhile_concat_pos _ _ _ hc] at h ⊢
      rw [rdropWhile_concat_pos _ _ _ hc, ih h]
    · rw [rdropWhile_concat_neg _ _ _ hc, rdropWhile_concat_neg _ _ _ hc, append_assoc]

theorem rdropWhile_append_of_pos (h : ∀ c ∈ m, p c = true) :
    (l ++ m).rdropWhile p = l.rdropWhile p := by
  induction m using reverseRecOn with
  | nil => rw [append_nil]
  | append_singleton m c ih =>
    rw [← append_assoc, rdropWhile_concat_pos _ _ _ (h c (by simp))]
    apply ih
    intro d hd
    exact h d (mem_append_left _ hd)

theorem rdropWhile_cons (h : p c = false) : (c :: m).rdropWhile p = c :: m.rdropWhile p :=
  rdropWhile_append (l := []) h

theorem rdropWhile_idem (l : List α) (p : α → Bool) :
    (l.rdropWhile p).rdropWhile p = l.rdropWhile p :=
  rdropWhile_idempotent p l

end

variable {c : Char} {s back : String} {rest : List Char}

/-! ### Blanks -/

theorem blank_lead : ∀ c ∈ [' '], isWhitespace c = true := by
  intro c hc
  rw [mem_singleton.mp hc]
  rfl

theorem no_lead : ∀ c ∈ ([] : List Char), isWhitespace c = true := nofun

theorem trim_eq (s : String) :
    trim s = String.ofList ((s.toList.dropWhile isWhitespace).rdropWhile isWhitespace) := rfl

theorem trim_lead (lead : List Char) (hlead : ∀ c ∈ lead, isWhitespace c = true)
    (hc : isWhitespace c = false) (rest : List Char) :
    trim (String.ofList (lead ++ c :: rest)) =
      String.ofList (c :: rest.rdropWhile isWhitespace) := by
  have hdrop : (lead ++ c :: rest).dropWhile isWhitespace = c :: rest := by
    rw [dropWhile_append_of_pos hlead]
    exact dropWhile_cons_of_neg (by simp [hc])
  rw [trim, String.toList_ofList, hdrop]
  exact congrArg String.ofList (rdropWhile_cons hc)

/-- A text is blank, or its first character that is not stands behind blanks. -/
theorem blank_or_lead (s : String) : (∀ c ∈ s.toList, isWhitespace c = true) ∨
    ∃ lead c rest, s.toList = lead ++ c :: rest ∧ (∀ d ∈ lead, isWhitespace d = true) ∧
      isWhitespace c = false := by
  have hsplit : s.toList.takeWhile isWhitespace ++ s.toList.dropWhile isWhitespace = s.toList :=
    takeWhile_append_dropWhile
  cases hdrop : s.toList.dropWhile isWhitespace with
  | nil => exact .inl (dropWhile_eq_nil_iff.mp hdrop)
  | cons c rest =>
    refine .inr ⟨_, c, rest, (hdrop ▸ hsplit).symm, fun d hd => mem_takeWhile_imp hd, ?_⟩
    have hhead := head?_dropWhile_not isWhitespace s.toList
    rwa [hdrop] at hhead

theorem trim_eq_empty : trim s = "" ↔ ∀ c ∈ s.toList, isWhitespace c = true := by
  constructor
  · intro h
    rcases blank_or_lead s with hblank | ⟨lead, c, rest, hs, hlead, hc⟩
    · exact hblank
    · rw [← String.ofList_toList (s := s), hs, trim_lead lead hlead hc] at h
      have hchars := congrArg String.toList h
      rw [String.toList_ofList] at hchars
      cases hchars
  · intro h
    rw [trim_eq, dropWhile_eq_nil_iff.mpr h]
    rfl

theorem trim_trim (s : String) : trim (trim s) = trim s := by
  rcases blank_or_lead s with hblank | ⟨lead, c, rest, hs, hlead, hc⟩
  · rw [trim_eq_empty.mpr hblank]
    rfl
  · have htrim : trim s = String.ofList (c :: rest.rdropWhile isWhitespace) := by
      rw [← String.ofList_toList (s := s), hs, trim_lead lead hlead hc]
    have hagain := trim_lead [] no_lead hc (rest.rdropWhile isWhitespace)
    rw [nil_append, rdropWhile_idem] at hagain
    rw [htrim, hagain]

theorem trim_blank_append {lead : String} (h : ∀ c ∈ lead.toList, isWhitespace c = true)
    (s : String) : trim (lead ++ s) = trim s := by
  rw [trim_eq, trim_eq, String.toList_append, dropWhile_append_of_pos h]

theorem trim_append_blank (s : String) (h : ∀ c ∈ back.toList, isWhitespace c = true) :
    trim (s ++ back) = trim s := by
  rcases blank_or_lead s with hblank | ⟨lead, c, rest, hs, hlead, hc⟩
  · rw [trim_blank_append hblank, trim_eq_empty.mpr h, trim_eq_empty.mpr hblank]
  · have happend : s ++ back = String.ofList (lead ++ c :: (rest ++ back.toList)) := by
      apply String.toList_inj.mp
      simp [hs]
    rw [happend, trim_lead lead hlead hc, rdropWhile_append_of_pos h, ← trim_lead lead hlead hc,
      ← hs, String.ofList_toList]

/-- What trims to the text in front of it is blank. -/
theorem blank_of_trim_append (hne : trim s ≠ "") (h : trim (s ++ back) = trim s) :
    ∀ c ∈ back.toList, isWhitespace c = true := by
  rcases blank_or_lead s with hblank | ⟨lead, c, rest, hs, hlead, hc⟩
  · exact absurd (trim_eq_empty.mpr hblank) hne
  · have happend : s ++ back = String.ofList (lead ++ c :: (rest ++ back.toList)) := by
      apply String.toList_inj.mp
      simp [hs]
    have hself : s = String.ofList (lead ++ c :: rest) := by rw [← hs, String.ofList_toList]
    rw [happend, trim_lead lead hlead hc, hself, trim_lead lead hlead hc, String.ofList_inj] at h
    by_contra hnot
    have hback : back.toList.rdropWhile isWhitespace ≠ [] := by
      rwa [Ne, rdropWhile_eq_nil_iff]
    have hrest := (List.cons.inj h).2
    rw [rdropWhile_append_of_ne_nil hback] at hrest
    have hlen := congrArg List.length hrest
    have hle := (List.rdropWhile_prefix isWhitespace (l := rest)).length_le
    have hpos := length_pos_iff.mpr hback
    rw [length_append] at hlen
    omega

theorem mem_trim (h : c ∈ s.toList) (hc : isWhitespace c = false) : c ∈ (trim s).toList := by
  rw [trim_eq, String.toList_ofList]
  have hdrop : c ∈ s.toList.dropWhile isWhitespace := by
    rw [← takeWhile_append_dropWhile (p := isWhitespace) (l := s.toList), mem_append] at h
    rcases h with h | h
    · have hblank := mem_takeWhile_imp h
      rw [hc] at hblank
      cases hblank
    · exact h
  rw [← rdropWhile_append_rtakeWhile (p := isWhitespace) (l := s.toList.dropWhile isWhitespace),
    mem_append] at hdrop
  rcases hdrop with hdrop | hdrop
  · exact hdrop
  · have hblank := mem_rtakeWhile_imp hdrop
    rw [hc] at hblank
    cases hblank

theorem trim_subset (txt : String) : (trim txt).toList ⊆ txt.toList := by
  rw [trim, String.toList_ofList]
  intro c hc
  have hc := (dropWhile_sublist _).subset (mem_reverse.mp hc)
  exact (dropWhile_sublist _).subset (mem_reverse.mp hc)

theorem last_trim {txt : String} (h : (trim txt).toList.getLast? = some c) :
    isWhitespace c = false := by
  rw [trim, String.toList_ofList, getLast?_reverse] at h
  have hhead := head?_dropWhile_not isWhitespace (txt.toList.dropWhile isWhitespace).reverse
  rw [h] at hhead
  exact hhead

end AxisBridge
