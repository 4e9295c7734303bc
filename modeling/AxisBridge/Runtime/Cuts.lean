import AxisBridge.Runtime.Lines

/-! Texts cut short: what is left of their lines, of the fields of a line, and of the digits of a
number. -/
namespace AxisBridge
open List
open String (ofList toList_append)

/-- Lines, each with its line feed. -/
def ended (ls : List String) : String := String.join (ls.map (· ++ "\n"))

variable {sep : Char} {front last line p r s t txt : String} {ls back : List String} {n : ℕ}

/-! ### Lines -/

theorem length_split (sep : Char) (s : String) : (split sep s).length = s.toList.count sep + 1 := by
  rw [split_eq, length_map]
  induction s.toList with
  | nil => rfl
  | cons c cs ih =>
    rw [splitOn_cons_eq_if_modifyHead]
    by_cases hc : c = sep
    · rw [if_pos (beq_iff_eq.mpr hc), length_cons, ih, hc, count_cons_self]
    · rw [if_neg (mt beq_iff_eq.mp hc), length_modifyHead, ih, count_cons_of_ne hc]

@[simp] theorem ended_nil : ended [] = "" := rfl

@[simp] theorem ended_cons : ended (line :: ls) = line ++ "\n" ++ ended ls := by
  simp [ended]

@[simp] theorem ended_append (ls back : List String) :
    ended (ls ++ back) = ended ls ++ ended back := by
  simp [ended]

theorem endsLine_ended (ls : List String) : EndsLine (ended ls) := by
  rcases eq_nil_or_concat ls with rfl | ⟨init, last, rfl⟩
  · exact .inl rfl
  · refine .inr ⟨ended init ++ last, ?_⟩
    rw [concat_eq_append, ended_append, String.append_assoc]
    simp

theorem lines_line_append (hline : '\n' ∉ line.toList) (txt : String) :
    lines (line ++ "\n" ++ txt) = chopReturn line :: lines txt := by
  have hsplit : split '\n' (line ++ "\n" ++ txt) = [line] ++ split '\n' txt := by
    rw [← split_of_not_mem hline]
    exact split_append '\n' line txt
  rcases eq_nil_or_concat (split '\n' txt) with hnil | ⟨init, last, hlast⟩
  · exact absurd (congrArg List.length hnil) (by rw [length_split]; exact Nat.succ_ne_zero _)
  · rw [concat_eq_append] at hlast
    have hall : split '\n' (line ++ "\n" ++ txt) = (line :: init) ++ [last] := by
      rw [hsplit, hlast, singleton_append, cons_append]
    rw [lines_eq hall, lines_eq hlast, map_cons, cons_append]

theorem feed_not_mem_lines (h : line ∈ lines txt) : '\n' ∉ line.toList := by
  rcases mem_append.mp h with h | h
  · obtain ⟨piece, hpiece, rfl⟩ := mem_map.mp h
    intro hmem
    exact (of_mem_split (mem_of_mem_dropLast hpiece)).1 ((prefix_chopReturn piece).subset hmem)
  · split at h
    · cases h
    · exact (of_mem_split (mem_of_getLast? (Option.mem_toList.mp h))).1

/-- Whole lines and the rest of one that is cut. -/
theorem lines_ended (hls : ∀ l ∈ ls, '\n' ∉ l.toList) (hr : '\n' ∉ r.toList) :
    lines (ended ls ++ r) = ls.map chopReturn ++ if r = "" then [] else [r] := by
  rw [lines_append (endsLine_ended ls) hr]
  congr 1
  induction ls using reverseRecOn with
  | nil => rfl
  | append_singleton ls line ih =>
    have hline := hls line (mem_append_right _ mem_cons_self)
    rw [ended_append, ended_cons, ended_nil, String.append_empty,
      lines_append_line (endsLine_ended ls) hline, map_append,
      ih fun l hl => hls l (mem_append_left _ hl)]
    rfl

/-- A text that begins whole lines is the lines themselves, or some of them and the beginning of the
next. -/
theorem prefix_ended (h : t.toList <+: (ended ls).toList) :
    t = ended ls ∨ ∃ front line back r, ls = front ++ line :: back ∧ r.toList <+: line.toList ∧
      t = ended front ++ r := by
  induction ls generalizing t with
  | nil =>
    left
    exact String.toList_eq_nil_iff.mp (prefix_nil.mp h)
  | cons line ls ih =>
    rw [ended_cons, toList_append] at h
    rcases prefix_or_prefix_of_prefix h (prefix_append _ _) with hshort | hlong
    · -- the cut is in the first line or behind its line feed
      rw [toList_append, show ("\n" : String).toList = ['\n'] from rfl] at hshort
      rcases prefix_concat_iff.mp hshort with heq | hline
      · have ht : t = line ++ "\n" := String.toList_inj.mp (by rw [heq, toList_append]; rfl)
        cases ls with
        | nil => exact .inl (by simp [ht])
        | cons next ls =>
          exact .inr ⟨[line], next, ls, "", rfl, nil_prefix, by simp [ht]⟩
      · exact .inr ⟨[], line, ls, t, rfl, hline, by simp⟩
    · obtain ⟨cs, hcs⟩ := hlong
      have ht : t = line ++ "\n" ++ ofList cs :=
        String.toList_inj.mp (by simpa using hcs.symm)
      rw [← hcs, prefix_append_right_inj] at h
      rcases ih (t := ofList cs) (by simpa using h) with heq | ⟨front, next, back, r, rfl, hr, heq⟩
      · exact .inl (by rw [ht, heq, ended_cons])
      · exact .inr ⟨line :: front, next, back, r, rfl, hr, by
          rw [ht, heq, ended_cons, String.append_assoc, String.append_assoc, String.append_assoc]⟩

/-! ### Fields -/

/-- A cut that leaves all fields is in the last one. -/
theorem prefix_last_field (hlast : sep ∉ last.toList)
    (hr : r.toList <+: (front ++ String.singleton sep ++ last).toList)
    (hlen : (split sep r).length = (split sep (front ++ String.singleton sep ++ last)).length) :
    ∃ ds : String, ds.toList <+: last.toList ∧ r = front ++ String.singleton sep ++ ds ∧
      split sep r = split sep front ++ [ds] := by
  rw [length_split, length_split] at hlen
  have htotal :
      (front ++ String.singleton sep ++ last).toList.count sep = front.toList.count sep + 1 := by
    simp [count_eq_zero.mpr hlast]
  have hcut :
      ∃ ds : String, ds.toList <+: last.toList ∧ r = front ++ String.singleton sep ++ ds := by
    rw [toList_append] at hr
    rcases prefix_or_prefix_of_prefix hr (prefix_append _ _) with hshort | ⟨cs, hcs⟩
    · rw [toList_append, String.toList_singleton] at hshort
      rcases prefix_concat_iff.mp hshort with heq | hfront
      · exact ⟨"", nil_prefix, String.toList_inj.mp (by simpa using heq)⟩
      · have hle := hfront.sublist.count_le sep
        omega
    · rw [← hcs, prefix_append_right_inj] at hr
      exact ⟨ofList cs, by simpa using hr, String.toList_inj.mp (by simpa using hcs.symm)⟩
  obtain ⟨ds, hds, rfl⟩ := hcut
  refine ⟨ds, hds, rfl, ?_⟩
  rw [split_append, split_of_not_mem fun hmem => hlast (hds.subset hmem)]

/-- A cut that leaves all fields leaves those in front of the last one as they are. -/
theorem cut_last_field {fields fields' : List String} {d : String} (hlast : sep ∉ last.toList)
    (hrow : split sep (front ++ String.singleton sep ++ last) = fields ++ [last])
    (hr : r.toList <+: (front ++ String.singleton sep ++ last).toList)
    (hcut : split sep r = fields' ++ [d]) (hlen : fields'.length = fields.length) :
    fields' = fields ∧ d.toList <+: last.toList ∧ r = front ++ String.singleton sep ++ d := by
  have hcount :
      (split sep r).length = (split sep (front ++ String.singleton sep ++ last)).length := by
    rw [hcut, hrow, length_append, length_append, hlen, length_singleton, length_singleton]
  obtain ⟨ds, hds, htext, hfields⟩ := prefix_last_field hlast hr hcount
  have hfront : split sep front = fields := by
    have hsplit := split_append sep front last
    rw [split_of_not_mem hlast, hrow] at hsplit
    exact (List.append_cancel_right hsplit).symm
  rw [hcut, hfront] at hfields
  obtain ⟨hsame, hd⟩ := append_inj' hfields rfl
  obtain rfl := singleton_inj.mp hd
  exact ⟨hsame, hds, htext⟩

/-! ### Digits -/

/-- The first digits of a number are those of a smaller one, which is not zero. -/
theorem digitsVal_cut (hne : s ≠ "") (hpre : s.toList <+: n.repr.toList) (hcut : s ≠ n.repr) :
    ∃ k, digitsVal s.toList = some k ∧ k ≠ 0 ∧ k < n := by
  obtain ⟨rest, hrest⟩ := hpre
  have hdigits : Nat.toDigits 10 n = s.toList ++ rest := by
    rw [hrest]
    simp [Nat.repr_eq_ofList_toDigits]
  have hrne : rest ≠ [] := by
    rintro rfl
    rw [append_nil] at hrest
    exact hcut (String.toList_inj.mp hrest)
  have hsne : s.toList ≠ [] := mt String.toList_eq_nil_iff.mp hne
  have hall : ∀ c ∈ s.toList ++ rest, c.isDigit = true := fun c hc =>
    isDigit_repr (hrest ▸ hc)
  have hval : Nat.ofDigitChars 10 (s.toList ++ rest) 0 = n := by
    rw [← hdigits]
    exact Nat.ofDigitChars_toDigits (by norm_num) (by norm_num)
  rw [Nat.ofDigitChars_append, Nat.ofDigitChars_eq_ofDigitChars_zero] at hval
  have hk : digitsVal s.toList = some (Nat.ofDigitChars 10 s.toList 0) :=
    if_pos ⟨hsne, all_eq_true.mpr fun c hc => hall c (mem_append_left _ hc)⟩
  have hr : digitsVal rest = some (Nat.ofDigitChars 10 rest 0) :=
    if_pos ⟨hrne, all_eq_true.mpr fun c hc => hall c (mem_append_right _ hc)⟩
  have hlt := digitsVal_lt hr
  have hspos := length_pos_iff.mpr hsne
  have hrpos := length_pos_iff.mpr hrne
  -- all the digits are too many for the rest of them
  have hmany : 10 ^ rest.length ≤ n := by
    by_contra hsmall
    have hle := (Nat.length_toDigits_le_iff (by norm_num) hrpos).mpr (Nat.lt_of_not_le hsmall)
    rw [hdigits, length_append] at hle
    omega
  refine ⟨_, hk, ?_, ?_⟩
  · intro hzero
    rw [hzero] at hval
    omega
  · have hten : 10 ≤ 10 ^ rest.length := by
      calc 10 = 10 ^ 1 := (pow_one 10).symm
        _ ≤ 10 ^ rest.length := Nat.pow_le_pow_right (by norm_num) hrpos
    have hmul := Nat.mul_le_mul_right (Nat.ofDigitChars 10 s.toList 0) hten
    have hpos : 0 < Nat.ofDigitChars 10 s.toList 0 := by
      by_contra h0
      rw [Nat.eq_zero_of_not_pos h0] at hval
      omega
    omega

end AxisBridge
