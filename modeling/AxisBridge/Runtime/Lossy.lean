import AxisBridge.Runtime.Lines

/-! Bytes read as a text, with a replacement character for what is not one. -/
namespace AxisBridge.Lossy
open List
open String (length_utf8EncodeChar utf8EncodeChar)

/-- The character that the bytes begin with. -/
def headChar (bs : Bytes) : Option Char := bs.toByteArray.utf8DecodeChar? 0

/-- Whether the byte `c` can follow the first byte `b` of a character of three or four bytes. -/
def canFollow (b c : UInt8) : Bool :=
  if b = 0xE0 then 0xA0 ≤ c && c ≤ 0xBF
  else if b = 0xED then 0x80 ≤ c && c ≤ 0x9F
  else if b = 0xF0 then 0x90 ≤ c && c ≤ 0xBF
  else if b = 0xF4 then 0x80 ≤ c && c ≤ 0x8F
  else 0x80 ≤ c && c ≤ 0xBF

/-- The bytes that one replacement stands for: as much as could begin a character, or one byte. -/
def brokenWidth : Bytes → ℕ
  | b :: c :: rest =>
    if 0xE0 ≤ b && b ≤ 0xF4 && canFollow b c then
      match rest with
      | d :: _ => if 0xF0 ≤ b && 0x80 ≤ d && d ≤ 0xBF then 3 else 2
      | [] => 2
    else 1
  | _ => 1

/-- `char::REPLACEMENT_CHARACTER`. -/
def REPLACEMENT : Char := Char.ofNat 0xFFFD

def lossyChars : ℕ → Bytes → List Char
  | 0, _ => []
  | fuel + 1, bs =>
    if bs = [] then []
    else
      match headChar bs with
      | some c => c :: lossyChars fuel (bs.drop c.utf8Size)
      | none => REPLACEMENT :: lossyChars fuel (bs.drop (brokenWidth bs))

/-- `String::from_utf8_lossy`. -/
def fromUtf8Lossy (bs : Bytes) : String := String.ofList (lossyChars bs.length bs)

variable {bs rest : Bytes} {cs : List Char} {c : Char} {fuel : ℕ}

theorem headChar_encoded (c : Char) (rest : Bytes) :
    headChar (utf8EncodeChar c ++ rest) = some c :=
  decode_head c rest

theorem of_headChar (h : headChar bs = some c) : ∃ rest, bs = utf8EncodeChar c ++ rest := by
  have hbytes := ByteArray.eq_of_utf8DecodeChar?_eq_some h
  refine ⟨(bs.toByteArray.extract c.utf8Size bs.toByteArray.size).data.toList, ?_⟩
  have hlist := congrArg (fun b : ByteArray => b.data.toList) hbytes
  simpa [List.utf8Encode] using hlist

theorem lossyChars_cons :
    lossyChars (fuel + 1) (utf8EncodeChar c ++ rest) = c :: lossyChars fuel rest := by
  have hne : utf8EncodeChar c ++ rest ≠ [] := by
    intro hnil
    have hpos := c.utf8Size_pos
    have hlen := congrArg List.length hnil
    rw [length_append, length_utf8EncodeChar, length_nil] at hlen
    omega
  simp only [lossyChars, if_neg hne, headChar_encoded, drop_left' (length_utf8EncodeChar c)]

/-- A text keeps its characters; other bytes are replaced from the first place on where no character
begins. -/
theorem lossyChars_cases (h : bs.length ≤ fuel) :
    bs = (lossyChars fuel bs).flatMap utf8EncodeChar ∨
      ∃ cs tail more, bs = cs.flatMap utf8EncodeChar ++ tail ∧ headChar tail = none ∧
        lossyChars fuel bs = cs ++ REPLACEMENT :: more := by
  induction fuel generalizing bs with
  | zero =>
    obtain rfl := length_eq_zero_iff.mp (Nat.le_zero.mp h)
    exact .inl rfl
  | succ fuel ih =>
    by_cases hnil : bs = []
    · subst hnil
      exact .inl rfl
    cases hhead : headChar bs with
    | none =>
      refine .inr ⟨[], bs, lossyChars fuel (bs.drop (brokenWidth bs)), rfl, hhead, ?_⟩
      simp [lossyChars, if_neg hnil, hhead]
    | some c =>
      obtain ⟨rest, rfl⟩ := of_headChar hhead
      have hpos := c.utf8Size_pos
      rw [length_append, length_utf8EncodeChar] at h
      rw [lossyChars_cons]
      rcases @ih rest (by omega) with hrest | ⟨cs, tail, more, hrest, htail, hchars⟩
      · left
        rw [flatMap_cons, ← hrest]
      · refine .inr ⟨c :: cs, tail, more, ?_, htail, by rw [hchars, cons_append]⟩
        rw [hrest, flatMap_cons, append_assoc]

theorem lossyChars_encoded (h : (cs.flatMap utf8EncodeChar).length ≤ fuel) :
    lossyChars fuel (cs.flatMap utf8EncodeChar) = cs := by
  induction cs generalizing fuel with
  | nil => cases fuel <;> rfl
  | cons c cs ih =>
    have hpos := c.utf8Size_pos
    rw [flatMap_cons, length_append, length_utf8EncodeChar] at h
    obtain ⟨fuel, rfl⟩ : ∃ k, fuel = k + 1 := ⟨fuel - 1, by omega⟩
    rw [flatMap_cons, lossyChars_cons, ih (by omega)]

@[simp] theorem fromUtf8Lossy_textBytes (s : String) : fromUtf8Lossy (textBytes s) = s := by
  rw [← String.ofList_toList (s := s), textBytes_ofList, fromUtf8Lossy,
    lossyChars_encoded (le_refl _)]

/-- Only a text begins with the text that is read. -/
theorem of_prefix_lossy (h : textBytes (fromUtf8Lossy bs) <+: bs) :
    bs = textBytes (fromUtf8Lossy bs) := by
  rcases lossyChars_cases (le_refl bs.length) with htext | ⟨cs, tail, more, hbs, htail, hchars⟩
  · rw [fromUtf8Lossy, textBytes_ofList, ← htext]
  · obtain ⟨rest, hrest⟩ := h
    rw [fromUtf8Lossy, hchars, textBytes_ofList, flatMap_append, flatMap_cons, append_assoc,
      append_assoc] at hrest
    have hsame := append_cancel_left (hrest.trans hbs)
    rw [← hsame, headChar_encoded] at htail
    cases htail

end AxisBridge.Lossy
