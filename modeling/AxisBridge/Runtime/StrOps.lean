import AxisBridge.Runtime.ByteRange

/-! The string primitives that borrow the text: one walk from places in code points to places in
bytes. -/
namespace AxisBridge.StrOps
open List
open String (ofList ofList_toList toList_ofList utf8EncodeChar)

/-- `str::char_indices`, from a byte on. -/
def charIndices : List Char → ℕ → List (ℕ × Char)
  | [], _ => []
  | c :: cs, b => (b, c) :: charIndices cs (b + c.utf8Size)

/-- The walk, with the offset noted for `start` and the code points passed. -/
def charBytesLoop (start stop len : ℕ) : List (ℕ × Char) → Option ℕ → ℕ → Option ℕ × ℕ
  | [], sb, n => (if n = start then some len else sb, len)
  | (b, _) :: rest, sb, n =>
    let sb := if n = start then some b else sb
    if n = stop then (sb, b) else charBytesLoop start stop len rest sb (n + 1)

def charBytes (text : String) (start stop : ℕ) : Option ℕ × ℕ :=
  charBytesLoop start stop (textBytes text).length (charIndices text.toList 0) none 0

/-- An `i64` as a `usize`: a negative number is past the end of every text. -/
def asUsize (n : Int64) : ℕ := n.toUInt64.toNat

def outOfRange (start : ℕ) (text : String) : String :=
  s!"str_slice: range start index {start} out of range for slice of length {text.toList.length}"

/-- `&text[start..stop]`. -/
def byteSlice (text : String) (start stop : ℕ) : Except String String :=
  match getRange text start stop with
  | some t => .ok t
  | none => .error s!"byte range {start}..{stop} is not a range of characters"

def strSlice (s : Str) (start stop : Int64) : Except String Value :=
  match charBytes s.toString (asUsize start) (asUsize stop) with
  | (some sb, eb) =>
    if sb ≤ eb then (byteSlice s.toString sb eb).map .str
    else .error (outOfRange (asUsize start) s.toString)
  | (none, _) => .error (outOfRange (asUsize start) s.toString)

/-- `str::find`: the first place where the bytes of the pattern stand. -/
def findBytes (pat : Bytes) : Bytes → Option ℕ
  | [] => if pat = [] then some 0 else none
  | b :: bs => if pat <+: b :: bs then some 0 else (findBytes pat bs).map (· + 1)

def strFindFrom (hay needle : Str) (start : Int64) : Except String Value := do
  if start < 0 then return .int (-1)
  match (charBytes hay.toString (asUsize start) (asUsize start)).1 with
  | none => return .int (-1)
  | some fb =>
    let tail ← byteSlice hay.toString fb (textBytes hay.toString).length
    match findBytes (textBytes needle.toString) (textBytes tail) with
    | none => return .int (-1)
    | some p =>
      let passed ← byteSlice hay.toString fb (fb + p)
      return .int (start + .ofNat passed.toList.length)

def strStartsWithAt (hay needle : Str) (pos : Int64) : Except String Value := do
  if pos < 0 then return .bool false
  match (charBytes hay.toString (asUsize pos) (asUsize pos)).1 with
  | none => return .bool false
  | some pb =>
    let tail ← byteSlice hay.toString pb (textBytes hay.toString).length
    return .bool (decide (textBytes needle.toString <+: textBytes tail))

/-! ### Places in bytes -/

/-- The bytes of the characters. -/
def size (cs : List Char) : ℕ := (cs.map Char.utf8Size).sum

section
variable {cs ds : List Char} {text s t : String} {start stop len n i j : ℕ}

@[simp] theorem size_nil : size [] = 0 := rfl

@[simp] theorem size_cons (c : Char) : size (c :: cs) = c.utf8Size + size cs := rfl

@[simp] theorem size_append : size (cs ++ ds) = size cs + size ds := by
  rw [size, size, size, map_append, sum_append]

theorem length_encoded : (cs.flatMap utf8EncodeChar).length = size cs := by
  induction cs with
  | nil => rfl
  | cons c cs ih => rw [flatMap_cons, length_append, ih, String.length_utf8EncodeChar, size_cons]

theorem length_textBytes : (textBytes text).length = size text.toList := by
  rw [← ofList_toList (s := text), textBytes_ofList, length_encoded, ofList_toList]

/-- The walk finds both offsets: that of `start` unless it is past `stop` or past the end. -/
theorem charBytesLoop_eq (hn : n ≤ stop) (b : ℕ) (sb : Option ℕ) :
    charBytesLoop start stop (b + size cs) (charIndices cs b) sb n =
      (if n ≤ start ∧ start ≤ min stop (n + cs.length) then
        some (b + size (cs.take (start - n))) else sb, b + size (cs.take (stop - n))) := by
  induction cs generalizing n b sb with
  | nil =>
    rw [charIndices, charBytesLoop, take_nil, take_nil, length_nil]
    by_cases hstart : n = start
    · rw [if_pos hstart, if_pos (by omega)]
    · rw [if_neg hstart, if_neg (by omega)]
  | cons c cs ih =>
    rw [charIndices, charBytesLoop]
    by_cases hstop : n = stop
    · rw [if_pos hstop]
      have htake : stop - n = 0 := by omega
      rw [htake, take_zero, size_nil]
      by_cases hstart : n = start
      · have hzero : start - n = 0 := by omega
        rw [if_pos hstart, if_pos (by omega), hzero, take_zero, size_nil]
        rfl
      · rw [if_neg hstart, if_neg (by omega)]
        rfl
    · rw [if_neg hstop, size_cons, ← add_assoc, ih (by omega)]
      have hstep : stop - n = stop - (n + 1) + 1 := by omega
      rw [hstep, take_succ_cons, size_cons, length_cons]
      by_cases hstart : n = start
      · have hzero : start - n = 0 := by omega
        rw [if_pos hstart, if_neg (by omega), if_pos (by omega), hzero, take_zero, size_nil,
          add_assoc]
        rfl
      · rw [if_neg hstart]
        by_cases hin : n + 1 ≤ start ∧ start ≤ min stop (n + 1 + cs.length)
        · have hsucc : start - n = start - (n + 1) + 1 := by omega
          rw [if_pos hin, if_pos (by omega), hsucc, take_succ_cons, size_cons, add_assoc, add_assoc]
        · rw [if_neg hin, if_neg (by omega), add_assoc]

theorem charBytes_eq : charBytes text start stop =
    (if start ≤ min stop text.toList.length then some (size (text.toList.take start)) else none,
      size (text.toList.take stop)) := by
  have hloop := @charBytesLoop_eq text.toList start stop 0 (Nat.zero_le stop) 0 none
  rw [zero_add, ← length_textBytes] at hloop
  rw [charBytes, hloop]
  simp

theorem byteSlice_eq (hle : i ≤ j) :
    byteSlice text (size (text.toList.take i)) (size (text.toList.take j)) =
      .ok (ofList ((text.toList.take j).drop i)) := by
  have hback := take_append_drop j text.toList
  have hfront := take_append_drop i (text.toList.take j)
  rw [take_take, min_eq_left hle] at hfront
  have htext : ofList (text.toList.take i) ++ ofList ((text.toList.take j).drop i) ++
      ofList (text.toList.drop j) = text := by
    rw [← String.ofList_append, ← String.ofList_append, hfront, hback, ofList_toList]
  have hrange := getRange_append (ofList (text.toList.take i))
    (ofList ((text.toList.take j).drop i)) (ofList (text.toList.drop j))
  rw [htext, length_textBytes, length_textBytes, toList_ofList, toList_ofList,
    ← size_append, hfront] at hrange
  rw [byteSlice, hrange]

theorem byteSlice_end : byteSlice text (size (text.toList.take i)) (textBytes text).length =
    .ok (ofList (text.toList.drop i)) := by
  have hslice := @byteSlice_eq text _ _ (le_max_left i text.toList.length)
  rwa [take_of_length_le (le_max_right i _), ← length_textBytes] at hslice

/-! ### Slices -/

/-- The code points from `start` to `stop` or the end, and a panic just when `start` is past that
end. -/
structure Slices (out : Except String Value) (text : String) (start stop : ℤ) : Prop where
  slice : start ≤ min stop text.toList.length → out = .ok (.str (ofList
    ((text.toList.take (min stop text.toList.length).toNat).drop start.toNat)))
  panics : min stop text.toList.length < start → ∃ why, out = .error why

theorem size_take_le (hle : i ≤ j) : size (cs.take i) ≤ size (cs.take j) := by
  have hsplit := take_append_drop i (cs.take j)
  rw [take_take, min_eq_left hle] at hsplit
  rw [← hsplit, size_append]
  exact Nat.le_add_right _ _

theorem strSlice_eq (s : Str) (start stop : Int64) :
    strSlice s start stop = if asUsize start ≤ min (asUsize stop) s.toString.toList.length then
      .ok (.str (ofList ((s.toString.toList.take (asUsize stop)).drop (asUsize start))))
    else .error (outOfRange (asUsize start) s.toString) := by
  rw [strSlice, charBytes_eq]
  by_cases hin : asUsize start ≤ min (asUsize stop) s.toString.toList.length
  · have hle : asUsize start ≤ asUsize stop := by omega
    simp only [if_pos hin, if_pos (size_take_le hle), byteSlice_eq hle]
    rfl
  · simp only [if_neg hin]

theorem strSlice_slices (s : Str) (start stop : Int64) :
    Slices (strSlice s start stop) s.toString (asUsize start) (asUsize stop) := by
  rw [strSlice_eq]
  constructor
  · intro hin
    have htake : s.toString.toList.take (min (asUsize stop : ℤ) s.toString.toList.length).toNat =
        s.toString.toList.take (asUsize stop) := by
      rw [← Nat.cast_min, Int.toNat_natCast, ← take_eq_take_min]
    rw [if_pos (by omega), htake, Int.toNat_natCast]
  · intro hpast
    exact ⟨_, if_neg (by omega)⟩

/-! ### Searches -/

theorem findBytes_some {pat bytes : Bytes} {p : ℕ} (h : findBytes pat bytes = some p) :
    p ≤ bytes.length ∧ pat <+: bytes.drop p ∧ ∀ q < p, ¬ pat <+: bytes.drop q := by
  induction bytes generalizing p with
  | nil =>
    rw [findBytes] at h
    split at h
    · next hpat =>
      cases h
      exact ⟨le_rfl, hpat ▸ nil_prefix, fun q hq => absurd hq (Nat.not_lt_zero q)⟩
    · cases h
  | cons b bytes ih =>
    rw [findBytes] at h
    split at h
    · next hpat =>
      cases h
      exact ⟨Nat.zero_le _, hpat, fun q hq => absurd hq (Nat.not_lt_zero q)⟩
    · next hpat =>
      obtain ⟨q, hq, rfl⟩ := Option.map_eq_some_iff.mp h
      obtain ⟨hle, hat, hleast⟩ := ih hq
      refine ⟨Nat.succ_le_succ hle, hat, ?_⟩
      rintro (_ | r) hr
      · exact hpat
      · exact hleast r (Nat.lt_of_succ_lt_succ hr)

theorem findBytes_none {pat bytes : Bytes} (h : findBytes pat bytes = none) {q : ℕ} :
    ¬ pat <+: bytes.drop q := by
  induction bytes generalizing q with
  | nil =>
    rw [findBytes] at h
    split at h
    · cases h
    · next hpat =>
      rw [drop_nil, prefix_nil]
      exact hpat
  | cons b bytes ih =>
    rw [findBytes] at h
    split at h
    · cases h
    · next hpat =>
      cases q with
      | zero => exact hpat
      | succ q => exact ih (Option.map_eq_none_iff.mp h)

theorem size_take_lt (hij : i < j) (hj : j ≤ cs.length) : size (cs.take i) < size (cs.take j) := by
  have hi : i < cs.length := by omega
  have hsucc : size (cs.take (i + 1)) = size (cs.take i) + cs[i].utf8Size := by
    rw [take_succ_eq_append_getElem hi, size_append, size_cons, size_nil, add_zero]
  have hle : size (cs.take (i + 1)) ≤ size (cs.take j) := size_take_le hij
  have hpos := cs[i].utf8Size_pos
  omega

theorem drop_encoded : (cs.flatMap utf8EncodeChar).drop (size (cs.take i)) =
    (cs.drop i).flatMap utf8EncodeChar := by
  conv_lhs => rw [← take_append_drop i cs, flatMap_append, take_append_drop]
  rw [← length_encoded, drop_left]

theorem encoded_prefix_iff {pat : List Char} :
    pat.flatMap utf8EncodeChar <+: cs.flatMap utf8EncodeChar ↔ pat <+: cs := by
  refine ⟨prefix_of_encoded, ?_⟩
  rintro ⟨rest, rfl⟩
  rw [flatMap_append]
  exact prefix_append _ _

/-- Bytes that begin like the pattern begin at a character, unless the pattern is empty. -/
theorem found_in_bytes {pat : List Char} {p : ℕ} (hne : pat ≠ [])
    (h : pat.flatMap utf8EncodeChar <+: (cs.flatMap utf8EncodeChar).drop p) :
    ∃ i ≤ cs.length, p = size (cs.take i) := by
  obtain ⟨c, pat', rfl⟩ := exists_cons_of_ne_nil hne
  obtain ⟨b, bs, hb, hbytes⟩ := encoded_cons c pat'
  rw [hbytes] at h
  obtain ⟨back, hback⟩ := h
  have hp : p ≤ (cs.flatMap utf8EncodeChar).length := by
    have hlen := congrArg List.length hback
    rw [length_drop, length_append, length_cons] at hlen
    omega
  have hsplit : cs.flatMap utf8EncodeChar =
      (cs.flatMap utf8EncodeChar).take p ++ b :: (bs ++ back) := by
    rw [← cons_append, hback, take_append_drop]
  obtain ⟨before, behind, rfl, hbefore⟩ := cut_of_first_byte hb hsplit
  refine ⟨before.length, by simp, ?_⟩
  rw [take_left, ← length_encoded, hbefore, length_take, min_eq_left hp]

/-- The search in bytes finds the first place in code points. -/
theorem findBytes_encoded (pat : List Char) : (∃ i ≤ cs.length,
    findBytes (pat.flatMap utf8EncodeChar) (cs.flatMap utf8EncodeChar) =
    some (size (cs.take i)) ∧ pat <+: cs.drop i ∧ ∀ k < i, ¬ pat <+: cs.drop k) ∨
    (findBytes (pat.flatMap utf8EncodeChar) (cs.flatMap utf8EncodeChar) = none ∧ ∀ k,
    ¬ pat <+: cs.drop k) := by
  cases hfind : findBytes (pat.flatMap utf8EncodeChar)
    (cs.flatMap utf8EncodeChar) with
  | none =>
    refine .inr ⟨rfl, fun k hk => findBytes_none hfind (q := size (cs.take k)) ?_⟩
    rw [drop_encoded]
    exact encoded_prefix_iff.mpr hk
  | some p =>
    obtain ⟨-, hat, hleast⟩ := findBytes_some hfind
    obtain ⟨i, hi, rfl⟩ : ∃ i ≤ cs.length, p = size (cs.take i) := by
      by_cases hne : pat = []
      · have hzero : p = 0 := by
          by_contra hpos
          exact hleast 0 (by omega) (by rw [hne]; exact nil_prefix)
        exact ⟨0, Nat.zero_le _, hzero⟩
      · exact found_in_bytes hne hat
    refine .inl ⟨i, hi, rfl, ?_, ?_⟩
    · rw [drop_encoded] at hat
      exact encoded_prefix_iff.mp hat
    · intro k hk hpat
      apply hleast _ (size_take_lt hk hi)
      rw [drop_encoded]
      exact encoded_prefix_iff.mpr hpat

theorem toInt_cases (n : Int64) : asUsize n < 2 ^ 64 ∧ (asUsize n < 2 ^ 63 ∧ n.toInt = asUsize n ∨
    2 ^ 63 ≤ asUsize n ∧ n.toInt = asUsize n - 2 ^ 64) := by
  have hcond : n.toBitVec.toInt = if 2 * asUsize n < 2 ^ 64 then (asUsize n : ℤ)
      else (asUsize n : ℤ) - (2 ^ 64 : ℕ) := BitVec.toInt_eq_toNat_cond _
  have hlt : asUsize n < 2 ^ 64 := n.toBitVec.isLt
  rw [Int64.toInt_toBitVec] at hcond
  split at hcond <;> omega

theorem asUsize_eq {n : Int64} (hn : 0 ≤ n.toInt) : (asUsize n : ℤ) = n.toInt := by
  have hcases := toInt_cases n
  omega

theorem negative_iff {n : Int64} : n < 0 ↔ n.toInt < 0 := Int64.lt_iff_toInt_lt

/-- The places of the needle at `start` or behind it. -/
def Occurs (hay needle : List Char) (start : ℤ) : Set ℕ :=
  {i | 0 ≤ start ∧ start ≤ i ∧ i ≤ hay.length ∧ needle <+: hay.drop i}

/-- The least place of the needle, or `-1`. -/
def Finds (out : Except String Value) (hay needle : List Char) (start : ℤ) : Prop :=
  ∃ r : Int64, out = .ok (.int r) ∧
    ((∃ i, IsLeast (Occurs hay needle start) i ∧ r.toInt = i) ∨ Occurs hay needle start = ∅ ∧
    r = -1)

theorem Str.length_lt (s : Str) : s.toString.toList.length < 2 ^ 63 := by
  have hle := length_le_length_textBytes (s := s.toString)
  have hlt : (textBytes s.toString).length < 2 ^ 63 := s.size_lt
  omega

/-- Offsets that lie in a text add up without wrapping. -/
theorem toInt_place {start : Int64} {i len : ℕ} (hstart : 0 ≤ start.toInt) (hlen : len < 2 ^ 63)
    (hle : asUsize start + i ≤ len) : (start + .ofNat i).toInt = asUsize start + i := by
  have hoff := asUsize_eq hstart
  have hi : (Int64.ofNat i).toInt = i := Int64.toInt_ofNat_of_lt (by omega)
  rw [Int64.toInt_add, hi, ← hoff]
  exact Int.bmod_eq_of_le (by omega) (by omega)

theorem charBytes_self {k : ℕ} : (charBytes text k k).1 =
    if k ≤ text.toList.length then some (size (text.toList.take k)) else none := by
  rw [charBytes_eq]
  by_cases hk : k ≤ text.toList.length
  · rw [if_pos hk, if_pos (by omega)]
  · rw [if_neg hk, if_neg (by omega)]

theorem textBytes_eq : textBytes text = text.toList.flatMap utf8EncodeChar := by
  rw [← textBytes_ofList, ofList_toList]

theorem strFindFrom_finds (hay needle : Str) (start : Int64) :
    Finds
      (strFindFrom hay needle start) hay.toString.toList needle.toString.toList start.toInt := by
  unfold strFindFrom
  by_cases hneg : start < 0
  · rw [if_pos hneg]
    refine ⟨-1, rfl, .inr ⟨?_, rfl⟩⟩
    apply Set.eq_empty_of_forall_notMem
    rintro i ⟨hnonneg, -⟩
    exact absurd (negative_iff.mp hneg) hnonneg.not_gt
  rw [if_neg hneg]
  have hstart : 0 ≤ start.toInt := not_lt.mp (mt negative_iff.mpr hneg)
  have hoff := asUsize_eq hstart
  generalize hk : asUsize start = k at hoff
  rw [charBytes_self]
  by_cases hin : k ≤ hay.toString.toList.length
  · rw [if_pos hin]
    dsimp only
    rw [byteSlice_end]
    obtain ⟨i, hi, hfind, hat, hleast⟩ | ⟨hfind, hnever⟩ :=
      @findBytes_encoded (hay.toString.toList.drop k) needle.toString.toList
    · rw [← textBytes_eq, ← textBytes_ofList] at hfind
      rw [length_drop] at hi
      have hpassed := @byteSlice_eq hay.toString _ _ (Nat.le_add_right k i)
      rw [take_add, size_append, drop_left' (length_take.trans (min_eq_left hin))] at hpassed
      have hplace := toInt_place hstart (Str.length_lt hay) (i := i) (by omega)
      refine ⟨start + .ofNat i, ?_, .inl ⟨k + i, ⟨⟨hstart, by omega, by omega, ?_⟩, ?_⟩, ?_⟩⟩
      · change (match findBytes _ _ with | none => _ | some p => _) = _
        rw [hfind]
        change (byteSlice hay.toString _ _).bind _ = _
        rw [hpassed]
        change Except.ok (Value.int (start + Int64.ofNat (ofList _).toList.length)) = _
        rw [toList_ofList, length_take, length_drop, min_eq_left hi]
      · rwa [drop_drop] at hat
      · rintro j ⟨-, hge, hle, hj⟩
        by_contra hlt
        apply hleast (j - k) (by omega)
        rw [drop_drop, Nat.add_sub_of_le (by omega)]
        exact hj
      · rw [hplace, hk]
        push_cast
        rfl
    · rw [← textBytes_eq, ← textBytes_ofList] at hfind
      refine ⟨-1, ?_, .inr ⟨?_, rfl⟩⟩
      · change (match findBytes _ _ with | none => _ | some p => _) = _
        rw [hfind]
        rfl
      · apply Set.eq_empty_of_forall_notMem
        rintro j ⟨-, hge, hle, hj⟩
        apply hnever (j - k)
        rw [drop_drop, Nat.add_sub_of_le (by omega)]
        exact hj
  · rw [if_neg hin]
    refine ⟨-1, rfl, .inr ⟨?_, rfl⟩⟩
    apply Set.eq_empty_of_forall_notMem
    rintro i ⟨-, hge, hle, -⟩
    omega

/-- Whether the needle stands at the place. -/
theorem strStartsWithAt_eq (hay needle : Str) (pos : Int64) :
    ∃ b, strStartsWithAt hay needle pos = .ok (.bool b) ∧ (b = true ↔ 0 ≤ pos.toInt ∧
      pos.toInt ≤ hay.toString.toList.length ∧
      needle.toString.toList <+: hay.toString.toList.drop pos.toInt.toNat) := by
  unfold strStartsWithAt
  by_cases hneg : pos < 0
  · rw [if_pos hneg]
    refine ⟨false, rfl, ?_⟩
    have := negative_iff.mp hneg
    simp
    omega
  rw [if_neg hneg]
  have hpos : 0 ≤ pos.toInt := not_lt.mp (mt negative_iff.mpr hneg)
  have hoff := asUsize_eq hpos
  generalize hk : asUsize pos = k at hoff
  have hnat : pos.toInt.toNat = k := by omega
  rw [charBytes_self, hnat]
  by_cases hin : k ≤ hay.toString.toList.length
  · rw [if_pos hin]
    refine ⟨decide (textBytes needle.toString <+:
      textBytes (ofList (hay.toString.toList.drop k))), ?_, ?_⟩
    · change (byteSlice hay.toString _ _).bind _ = _
      rw [byteSlice_end]
      rfl
    · rw [decide_eq_true_iff, textBytes_eq, textBytes_ofList, encoded_prefix_iff]
      exact ⟨fun h => ⟨hpos, by omega, h⟩, fun h => h.2.2⟩
  · rw [if_neg hin]
    refine ⟨false, rfl, ?_⟩
    simp
    omega

end

/-- The three primitives against the code points. A slice takes a negative number as one past the
end. -/
theorem borrowed_primitives (s needle : Str) (start stop : Int64) :
    Slices (strSlice s start stop) s.toString (asUsize start) (asUsize stop) ∧
      (0 ≤ start.toInt → (asUsize start : ℤ) = start.toInt) ∧
      (start.toInt < 0 → 2 ^ 63 ≤ asUsize start) ∧ Finds (strFindFrom s needle start)
      s.toString.toList needle.toString.toList start.toInt ∧ ∃ b, strStartsWithAt s needle start =
      .ok (.bool b) ∧ (b = true ↔ 0 ≤ start.toInt ∧ start.toInt ≤ s.toString.toList.length ∧
      needle.toString.toList <+: s.toString.toList.drop start.toInt.toNat) := by
  refine ⟨strSlice_slices s start stop, asUsize_eq, ?_, strFindFrom_finds s needle start,
    strStartsWithAt_eq s needle start⟩
  intro hneg
  have hcases := toInt_cases start
  omega

def ab : Str := ⟨"ab", by decide⟩

/-- A negative end is in front of every start, and yet the slice is the whole text. -/
theorem negative_end_clamps :
    strSlice ab 0 (-1) = .ok (.str "ab") ∧ ¬ Slices (strSlice ab 0 (-1)) "ab" 0 (-1) := by
  have hslice : strSlice ab 0 (-1) = .ok (.str "ab") := rfl
  refine ⟨hslice, fun h => ?_⟩
  obtain ⟨why, hpanics⟩ := h.panics (by decide)
  rw [hslice] at hpanics
  cases hpanics

end AxisBridge.StrOps
