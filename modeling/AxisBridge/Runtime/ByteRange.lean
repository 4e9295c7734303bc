import AxisBridge.Runtime.Lines
import AxisBridge.Runtime.RawBlk

/-! Ranges of the bytes of a text, and the texts that they are. -/
namespace AxisBridge
open List

variable {s t rest : String} {i j : ℕ}

theorem first_byte (b : UInt8) (h : b.IsUTF8FirstByte) : (b < 0x80 || 0xC0 ≤ b) = true := by
  have hall : ∀ n : Fin 256, (UInt8.ofNat n).IsUTF8FirstByte →
      (UInt8.ofNat n < 0x80 || 0xC0 ≤ UInt8.ofNat n) = true := by
    decide +kernel
  have hb := hall ⟨b.toNat, b.toNat_lt⟩
  rw [UInt8.ofNat_toNat] at hb
  exact hb h

theorem isCharBoundary_append (s t : String) :
    isCharBoundary (s ++ t) (textBytes s).length = true := by
  rw [isCharBoundary, textBytes_append]
  cases hchars : t.toList with
  | nil =>
    obtain rfl : t = "" := String.toList_inj.mp hchars
    have hnil : textBytes "" = [] := rfl
    rw [hnil, append_nil, getElem?_eq_none (le_refl _)]
    exact beq_self_eq_true _
  | cons c cs =>
    have hpos : 0 < (String.utf8EncodeChar c).length := by
      rw [String.length_utf8EncodeChar]
      exact c.utf8Size_pos
    have hbyte : (textBytes s ++ textBytes t)[(textBytes s).length]? =
        some (String.utf8EncodeChar c)[0] := by
      rw [getElem?_append_right (le_refl _), Nat.sub_self, ← String.ofList_toList (s := t), hchars,
        textBytes_ofList, flatMap_cons, getElem?_append_left hpos, getElem?_eq_getElem hpos]
    rw [hbyte]
    exact first_byte _ (UInt8.isUTF8FirstByte_getElem_utf8EncodeChar.mpr rfl)

theorem getRange_append (a b c : String) :
    getRange (a ++ b ++ c) (textBytes a).length ((textBytes a).length + (textBytes b).length) =
      some b := by
  have hstop : (textBytes a).length + (textBytes b).length = (textBytes (a ++ b)).length := by
    rw [textBytes_append, length_append]
  have hstart : isCharBoundary (a ++ b ++ c) (textBytes a).length = true := by
    rw [String.append_assoc]
    exact isCharBoundary_append a (b ++ c)
  rw [getRange, if_pos ⟨Nat.le_add_right _ _, hstart, hstop ▸ isCharBoundary_append (a ++ b) c⟩,
    hstop,
    textBytes_append (a ++ b) c, take_left, textBytes_append, drop_left, strFromUtf8_textBytes]

theorem of_getRange (h : getRange s i j = some t) :
    i ≤ j ∧ ((textBytes s).take j).drop i = textBytes t := by
  rw [getRange] at h
  split at h
  · next hrange => exact ⟨hrange.1, strFromUtf8_eq_some.mp h⟩
  · cases h

/-- A range to the end is what stands behind some characters. -/
theorem of_getRange_end (h : getRange s i (textBytes s).length = some rest) :
    ∃ before, s = before ++ rest ∧ (textBytes before).length = i := by
  obtain ⟨hle, hbytes⟩ := of_getRange h
  rw [take_length] at hbytes
  have hsplit : textBytes s = (textBytes s).take i ++ textBytes rest := by
    rw [← hbytes, take_append_drop]
  obtain ⟨before, hs, hfront⟩ := suffix_of_textBytes hsplit
  exact ⟨before, hs, by rw [hfront, length_take, min_eq_left hle]⟩

end AxisBridge
