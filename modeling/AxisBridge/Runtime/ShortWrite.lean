import AxisBridge.Runtime.ObjSeg

/-! Appends to a segment whose write may be short: when the bytes stand where the call says they
do. -/
namespace AxisBridge.ObjSeg
open Option List Function
open Pieces (At putAt at_putAt)

/-- What `write_at` may report: a part of the bytes, and not nothing of something. -/
def MayWrite (bytes : Bytes) (n : ℕ) : Prop := n ≤ bytes.length ∧ (bytes ≠ [] → 0 < n)

/-- `seg_append` where the write takes `n` of the bytes: the segments, the cursor, and the place
that is returned. A segment that is not there is a panic. -/
def segAppend (files : Segments) (w : SegWriter) (cap : ℕ) (bytes : Bytes) (n : ℕ) :
    Option ((Segments × SegWriter) × ℕ × ℕ) :=
  let w := w.pick cap bytes.length
  let files := if w.cursor = 0 then preallocFile files w.id else files
  (files w.id).map fun file =>
    ((update files w.id (some (putAt 0 file w.cursor (bytes.take n))),
      ⟨w.id, w.cursor + bytes.length⟩), w.id, w.cursor)

/-- The whole of the bytes is at the place that was returned, and is read from there. -/
def Acknowledged (files : Segments) (id off : ℕ) (bytes : Bytes) : Prop :=
  Stands files id off bytes ∧ segRead files id off bytes.length = some bytes

section
variable {files files' : Segments} {w w' : SegWriter} {cap id off n : ℕ} {bytes file : Bytes}

theorem acknowledged_iff : Acknowledged files id off bytes ↔ Stands files id off bytes :=
  ⟨fun h => h.1, fun h => ⟨h, segRead_of_stands h⟩⟩

/-- A write changes nothing behind its last byte. -/
theorem getElem?_putAt_of_le {piece : Bytes} {i : ℕ} (hne : piece ≠ [])
    (hi : off + piece.length ≤ i) : (putAt 0 file off piece)[i]? = file[i]? := by
  cases piece with
  | nil => exact absurd rfl hne
  | cons t ts =>
    have hfront : (file.take off ++ replicate (off - file.length) 0 ++ (t :: ts)).length =
        off + (t :: ts).length := by
      simp only [length_append, length_take, length_replicate]
      omega
    rw [putAt, getElem?_append_right (hfront ▸ hi), hfront, getElem?_drop]
    congr 1
    omega

/-- Bytes whose first `n` are written stand there if the others stood behind them. -/
theorem at_putAt_take_iff (hn : MayWrite bytes n) (hne : bytes ≠ []) :
    At (putAt 0 file off (bytes.take n)) off bytes ↔ At file (off + n) (bytes.drop n) := by
  have hpos := hn.2 hne
  have hlen : (bytes.take n).length = n := by
    have hle := hn.1
    simp only [length_take]
    omega
  have hne' : bytes.take n ≠ [] := by
    intro hnil
    rw [hnil] at hlen
    exact absurd hlen.symm (ne_of_gt hpos)
  constructor
  · intro h i hi
    have hin : n + i < bytes.length := by
      simp only [length_drop] at hi
      omega
    have hbehind : off + (bytes.take n).length ≤ off + n + i := by omega
    have hold : (putAt 0 file off (bytes.take n))[off + n + i]? = file[off + n + i]? :=
      getElem?_putAt_of_le hne' hbehind
    rw [← hold, add_assoc, h (n + i) hin, getElem?_drop]
  · intro h i hi
    by_cases hfront : i < n
    · have hhead := at_putAt 0 file off (bytes.take n) i (by omega)
      rw [hhead, getElem?_take_of_lt hfront]
    · have hbehind : off + (bytes.take n).length ≤ off + i := by omega
      have hin : i - n < (bytes.drop n).length := by
        simp only [length_drop]
        omega
      have htail := h (i - n) hin
      have hi' : off + n + (i - n) = off + i := by omega
      rw [getElem?_putAt_of_le hne' hbehind, ← hi', htail, getElem?_drop]
      congr 1
      omega

/-- Reserving a segment gives no bytes to stand anywhere. -/
theorem stands_prealloc_iff (hne : bytes ≠ []) {other : ℕ} :
    Stands (preallocFile files other) id off bytes ↔ Stands files id off bytes := by
  refine ⟨?_, fun h => h.prealloc other⟩
  rintro ⟨file, hfile, hat⟩
  by_cases hid : id = other
  · subst hid
    simp only [preallocFile, update_self, some.injEq] at hfile
    cases hold : files id with
    | none =>
      rw [hold, getD_none] at hfile
      subst hfile
      have hle := hat.le hne
      have hpos := length_pos_of_ne_nil hne
      simp only [length_nil] at hle
      omega
    | some file' =>
      rw [hold, getD_some] at hfile
      exact ⟨file', hold, hfile ▸ hat⟩
  · exact ⟨file, by rwa [preallocFile, update_of_ne hid] at hfile, hat⟩

/-- A call that returns has the bytes at the place it returns exactly when the write took all of
them, or the segment had those that it left out at their place already. -/
theorem segAppend_acknowledged_iff (hn : MayWrite bytes n)
    (h : segAppend files w cap bytes n = some ((files', w'), id, off)) :
    Acknowledged files' id off bytes ↔
      n = bytes.length ∨ Stands files id (off + n) (bytes.drop n) := by
  obtain ⟨file, hfile, heq⟩ := map_eq_some_iff.mp h
  obtain ⟨⟨rfl, -⟩, rfl, rfl⟩ : (_ = files' ∧ _ = w') ∧ _ = id ∧ _ = off := by
    simpa only [Prod.mk.injEq] using heq
  rw [acknowledged_iff]
  generalize w.pick cap bytes.length = v at hfile ⊢
  generalize hbefore : (if v.cursor = 0 then preallocFile files v.id else files) = before at hfile ⊢
  have hafter : Stands (update before v.id (some (putAt 0 file v.cursor (bytes.take n)))) v.id
      v.cursor bytes ↔ At (putAt 0 file v.cursor (bytes.take n)) v.cursor bytes := by
    simp [Stands]
  rw [hafter]
  by_cases hfull : n = bytes.length
  · subst hfull
    rw [take_length]
    exact iff_of_true (at_putAt 0 file v.cursor bytes) (Or.inl rfl)
  · have hrest : bytes.drop n ≠ [] := by
      intro hnil
      have hle := drop_eq_nil_iff.mp hnil
      have hle' := hn.1
      omega
    have hne : bytes ≠ [] := by
      intro hnil
      rw [hnil] at hrest
      exact hrest (drop_nil ..)
    have hstood : Stands before v.id (v.cursor + n) (bytes.drop n) ↔
        Stands files v.id (v.cursor + n) (bytes.drop n) := by
      rw [← hbefore]
      split
      · exact stands_prealloc_iff hrest
      · rfl
    rw [at_putAt_take_iff hn hne, or_iff_right hfull, ← hstood]
    simp [Stands, hfile]

end

/-- Five bytes of which two are written, as the first of their segment. -/
def shortWrite : Segments :=
  update (preallocFile (fun _ => none) 0) 0 (some [104, 101])

/-- A write that takes all five bytes. -/
theorem segAppend_acknowledged_iff_full : ∃ files' w',
    segAppend (fun _ => none) ⟨0, 0⟩ 1000 [104, 101, 108, 108, 111] 5 = some ((files', w'), 0, 0) ∧
      Acknowledged files' 0 0 [104, 101, 108, 108, 111] := by
  have hn : MayWrite [104, 101, 108, 108, 111] 5 := ⟨le_rfl, fun _ => Nat.succ_pos 4⟩
  have happend : segAppend (fun _ => none) ⟨0, 0⟩ 1000 [104, 101, 108, 108, 111] 5 =
      some ((_, _), 0, 0) := rfl
  refine ⟨_, _, happend, ?_⟩
  exact (segAppend_acknowledged_iff hn happend).mpr (Or.inl rfl)

/-- The call returns the place of five bytes; the segment ends behind the second. -/
theorem segAppend_acknowledges_part : MayWrite [104, 101, 108, 108, 111] 2 ∧
    segAppend (fun _ => none) ⟨0, 0⟩ 1000 [104, 101, 108, 108, 111] 2 =
      some ((shortWrite, ⟨0, 5⟩), 0, 0) ∧
    segRead shortWrite 0 0 5 = none ∧ ¬ Acknowledged shortWrite 0 0 [104, 101, 108, 108, 111] := by
  have hread : segRead shortWrite 0 0 5 = none := rfl
  refine ⟨⟨by simp, fun _ => Nat.succ_pos 1⟩, rfl, hread, ?_⟩
  intro hack
  have hsome : segRead shortWrite 0 0 5 = some _ := hack.2
  rw [hread] at hsome
  cases hsome

end AxisBridge.ObjSeg
