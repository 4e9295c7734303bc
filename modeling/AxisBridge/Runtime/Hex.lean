import AxisBridge.CoreIr.Canonical
import AxisBridge.CoreIr.Outcome
import AxisBridge.Runtime.ByteRange

/-! Hexadecimal digits of either case, and the half bytes they stand for. -/
namespace AxisBridge
open List

/-- `char::to_digit(16)`. -/
def hexVal (c : Char) : Option ℕ :=
  if 48 ≤ c.toNat ∧ c.toNat ≤ 57 then some (c.toNat - 48)
  else if 65 ≤ c.toNat ∧ c.toNat ≤ 70 then some (c.toNat - 55)
  else if 97 ≤ c.toNat ∧ c.toNat ≤ 102 then some (c.toNat - 87)
  else none

def IsUpperHex (c : Char) : Prop := 65 ≤ c.toNat ∧ c.toNat ≤ 70

instance (c : Char) : Decidable (IsUpperHex c) := inferInstanceAs (Decidable (_ ∧ _))

def nibbles (bytes : Bytes) : List ℕ := bytes.flatMap fun b => [b.toNat / 16, b.toNat % 16]

/-- The bytes whose halves are given. -/
def joined : List ℕ → Bytes
  | hi :: lo :: rest => UInt8.ofNat (16 * hi + lo) :: joined rest
  | _ => []

/-- The text spells the half bytes, in letters of either case. -/
def Spelled (cs : List Char) (bytes : Bytes) : Prop := cs.map hexVal = (nibbles bytes).map some

variable {c : Char} {n : ℕ} {cs : List Char} {bytes : Bytes} {ds : List ℕ}

theorem toNat_hexDigit : ∀ n < 16, (hexDigit n).toNat = if n < 10 then 48 + n else 87 + n :=
    by decide

theorem hexVal_eq_some : hexVal c = some n ↔ (48 ≤ c.toNat ∧ c.toNat ≤ 57 ∧ n + 48 = c.toNat) ∨
    (65 ≤ c.toNat ∧ c.toNat ≤ 70 ∧ n + 55 = c.toNat) ∨
    (97 ≤ c.toNat ∧ c.toNat ≤ 102 ∧ n + 87 = c.toNat) := by
  unfold hexVal
  by_cases hdec : 48 ≤ c.toNat ∧ c.toNat ≤ 57
  · rw [if_pos hdec, Option.some_inj]
    omega
  by_cases hupper : 65 ≤ c.toNat ∧ c.toNat ≤ 70
  · rw [if_neg hdec, if_pos hupper, Option.some_inj]
    omega
  by_cases hlower : 97 ≤ c.toNat ∧ c.toNat ≤ 102
  · rw [if_neg hdec, if_neg hupper, if_pos hlower, Option.some_inj]
    omega
  · rw [if_neg hdec, if_neg hupper, if_neg hlower]
    constructor
    · intro h
      cases h
    · intro h
      omega

theorem hexVal_hexDigit (hn : n < 16) : hexVal (hexDigit n) = some n := by
  rw [hexVal_eq_some, toNat_hexDigit n hn]
  split <;> omega

theorem not_isUpperHex_hexDigit (hn : n < 16) : ¬ IsUpperHex (hexDigit n) := by
  rw [IsUpperHex, toNat_hexDigit n hn]
  split <;> omega

theorem hexVal_lt (h : hexVal c = some n) : n < 16 := by
  rw [hexVal_eq_some] at h
  omega

theorem char_ext {a b : Char} (h : a.toNat = b.toNat) : a = b := Char.ext (UInt32.toNat_inj.mp h)

/-- A digit that is no capital is the one the number is written with. -/
theorem eq_hexDigit (h : hexVal c = some n) (hlower : ¬ IsUpperHex c) : c = hexDigit n := by
  apply char_ext
  rw [toNat_hexDigit n (hexVal_lt h)]
  rw [IsUpperHex] at hlower
  rw [hexVal_eq_some] at h
  split <;> omega

theorem nibbles_lt (h : n ∈ nibbles bytes) : n < 16 := by
  obtain ⟨b, -, hn⟩ := mem_flatMap.mp h
  have hb := b.toNat_lt
  rcases mem_pair.mp hn with rfl | rfl <;> omega

@[simp] theorem length_nibbles : (nibbles bytes).length = 2 * bytes.length := by
  induction bytes with
  | nil => rfl
  | cons b rest ih =>
    have hcons : nibbles (b :: rest) = b.toNat / 16 :: b.toNat % 16 :: nibbles rest := rfl
    rw [hcons, length_cons, length_cons, ih, length_cons]
    omega

variable {bytes' : Bytes}

theorem nibbles_inj (h : nibbles bytes = nibbles bytes') : bytes = bytes' := by
  induction bytes generalizing bytes' with
  | nil =>
    cases bytes' with
    | nil => rfl
    | cons b rest => cases h
  | cons b rest ih =>
    cases bytes' with
    | nil => cases h
    | cons b' rest' =>
      injection h with hhi h
      injection h with hlo hrest
      have hb : b = b' := UInt8.toNat_inj.mp (by omega)
      rw [hb, ih hrest]

theorem nibbles_joined (heven : Even ds.length) (hlt : ∀ d ∈ ds, d < 16) :
    nibbles (joined ds) = ds := by
  fun_induction joined ds with
  | case1 hi lo rest ih =>
    have hhi : hi < 16 := hlt hi (by simp)
    have hlo : lo < 16 := hlt lo (by simp)
    have hrest := ih (by simpa [Nat.even_add] using heven) fun d hd => hlt d (by simp [hd])
    have hbyte : (UInt8.ofNat (16 * hi + lo)).toNat = 16 * hi + lo := by
      rw [UInt8.toNat_ofNat']
      omega
    have hcons : nibbles (UInt8.ofNat (16 * hi + lo) :: joined rest) =
        (UInt8.ofNat (16 * hi + lo)).toNat / 16 :: (UInt8.ofNat (16 * hi + lo)).toNat % 16 ::
          nibbles (joined rest) := rfl
    rw [hcons, hbyte, hrest]
    congr 1
    · omega
    · congr 1
      omega
  | case2 ds hshort =>
    match ds, heven, hshort with
    | [], _, _ => rfl
    | [d], heven, _ => simp at heven
    | hi :: lo :: rest, _, hshort => exact absurd rfl (hshort hi lo rest)

theorem length_joined (heven : Even ds.length) (hlt : ∀ d ∈ ds, d < 16) :
    (joined ds).length = ds.length / 2 := by
  have hlen := congrArg List.length (nibbles_joined heven hlt)
  rw [length_nibbles] at hlen
  omega

/-- The digits the runtime writes. -/
theorem spelled_hexDigits : Spelled ((nibbles bytes).map hexDigit) bytes := by
  rw [Spelled, map_map]
  exact map_congr_left fun n hn => hexVal_hexDigit (nibbles_lt hn)

theorem Spelled.length (h : Spelled cs bytes) : cs.length = 2 * bytes.length := by
  have hlen := congrArg List.length h
  simpa using hlen

theorem Spelled.inj (h : Spelled cs bytes) (h' : Spelled cs bytes') : bytes = bytes' :=
  nibbles_inj (map_injective_iff.mpr (Option.some_injective ℕ) (h.symm.trans h'))

/-- Spelled without capitals is spelled as the runtime writes. -/
theorem Spelled.eq_hexDigits (h : Spelled cs bytes) (hlower : ∀ c ∈ cs, ¬ IsUpperHex c) :
    cs = (nibbles bytes).map hexDigit := by
  rw [Spelled] at h
  generalize nibbles bytes = ns at h ⊢
  induction cs generalizing ns with
  | nil =>
    cases ns with
    | nil => rfl
    | cons n ns => cases h
  | cons c cs ih =>
    cases ns with
    | nil => cases h
    | cons n ns =>
      injection h with hc hcs
      rw [map_cons, eq_hexDigit hc (hlower c (by simp)),
        ih (fun c hc => hlower c (by simp [hc])) ns hcs]

theorem exists_spelled (heven : Even cs.length) (hdigits : ∀ c ∈ cs, (hexVal c).isSome = true) :
    ∃ bytes, Spelled cs bytes ∧ bytes.length = cs.length / 2 := by
  obtain ⟨ds, hds⟩ : ∃ ds : List ℕ, cs.map hexVal = ds.map some := by
    clear heven
    induction cs with
    | nil => exact ⟨[], rfl⟩
    | cons c cs ih =>
      obtain ⟨ds, hds⟩ := ih fun c hc => hdigits c (by simp [hc])
      obtain ⟨d, hd⟩ := Option.isSome_iff_exists.mp (hdigits c (by simp))
      exact ⟨d :: ds, by rw [map_cons, map_cons, hd, hds]⟩
  have hlen : cs.length = ds.length := by simpa using congrArg List.length hds
  have hlt : ∀ d ∈ ds, d < 16 := by
    intro d hd
    have hmem : some d ∈ cs.map hexVal := hds ▸ mem_map_of_mem hd
    obtain ⟨c, -, hc⟩ := mem_map.mp hmem
    exact hexVal_lt hc
  rw [hlen] at heven ⊢
  exact ⟨joined ds, by rw [Spelled, nibbles_joined heven hlt, hds], length_joined heven hlt⟩

theorem Spelled.isSome (h : Spelled cs bytes) (hc : c ∈ cs) : (hexVal c).isSome = true := by
  have hmem : hexVal c ∈ (nibbles bytes).map some := h ▸ mem_map_of_mem hc
  obtain ⟨n, -, hn⟩ := mem_map.mp hmem
  rw [← hn]
  rfl

theorem toList_hash256ToHex (h : Hash256) :
    (hash256ToHex h).toList = (nibbles h.bytes).map hexDigit := by
  rw [hash256ToHex, String.toList_ofList, nibbles, map_flatMap]
  rfl

end AxisBridge

/-! Bytes from hexadecimal text, two bytes of the text at a time. -/
namespace AxisBridge.IrBundle
open List
open String (ofList ofList_toList toList_ofList)

/-- `&s[start..stop]`. -/
def sliceText (s : String) (start stop : ℕ) : Res String :=
  match getRange s start stop with
  | some t => .ok t
  | none => .error (.panic s!"byte index {stop} is not a char boundary")

def parseHexDigits : ℕ → List Char → Except String ℕ
  | n, [] => .ok n
  | n, c :: cs =>
    match hexVal c with
    | none => .error "invalid digit found in string"
    | some d =>
      if 16 * n + d < 256 then parseHexDigits (16 * n + d) cs
      else .error "number too large to fit in target type"

/-- `u8::from_str_radix` for hexadecimal: a plus sign may come before the digits. -/
def u8FromHex (s : String) : Except String UInt8 :=
  match s.toList with
  | [] => .error "cannot parse integer from empty string"
  | '+' :: c :: cs => (parseHexDigits 0 (c :: cs)).map UInt8.ofNat
  | cs => (parseHexDigits 0 cs).map UInt8.ofNat

/-- The piece at `i` of `hexToBytes`. -/
def hexByte (s : String) (i : ℕ) : Res UInt8 := do
  let piece ← sliceText s (2 * i) (2 * i + 2)
  match u8FromHex piece with
  | .ok b => .ok b
  | .error e => .error (.err s!"hex_to_bytes: invalid byte '{piece}': {e}")

def hexToBytes (s : String) : Res Bytes :=
  let len := (textBytes s).length
  if len % 2 ≠ 0 then .error (.err s!"hex_to_bytes: odd-length string ({len} chars)")
  else (range (len / 2)).mapM (hexByte s)

def hexToHash256 (s : String) : Res Hash256 := do
  let bytes ← hexToBytes s
  if h : bytes.length = 32 then return ⟨bytes, h⟩
  else
    let len := (textBytes s).length
    .error (.err s!"hex_to_hash256: expected 64 hex chars, got len {len}")

/-- Two characters that are read as the byte `b`. -/
def Piece (c d : Char) (b : UInt8) : Prop :=
  ∃ lo, hexVal d = some lo ∧ ((∃ hi, hexVal c = some hi ∧ b = UInt8.ofNat (16 * hi + lo)) ∨
    c = '+' ∧ b = UInt8.ofNat lo)

/-- Characters that are read as bytes, two by two. -/
inductive Pieces : List Char → Bytes → Prop
  | nil : Pieces [] []
  | cons {c d : Char} {b : UInt8} {cs : List Char} {bytes : Bytes} (h : Piece c d b)
    (hs : Pieces cs bytes) :
    Pieces (c :: d :: cs) (b :: bytes)

/-- Behind characters that are read as bytes stands one that the next two bytes cut. -/
inductive Torn : List Char → Prop
  | wide {c : Char} {cs : List Char} (h : 2 < c.utf8Size) : Torn (c :: cs)
  | straddled {c d : Char} {cs : List Char} (hc : c.utf8Size = 1) (hd : 1 < d.utf8Size) :
      Torn (c :: d :: cs)
  | later {c d : Char} {b : UInt8} {cs : List Char} (h : Piece c d b) (hs : Torn cs) :
      Torn (c :: d :: cs)

/-- A text of even length in bytes that is cut inside a character before a piece of it is
refused. -/
def TornText (s : String) : Prop := (textBytes s).length % 2 = 0 ∧ Torn s.toList

variable {s before : String} {c d : Char} {cs : List Char} {b : UInt8} {bytes bytes' : Bytes}
  {i k n : ℕ}

theorem utf8Size_of_hexVal (h : hexVal c = some n) : c.utf8Size = 1 := by
  rw [hexVal_eq_some] at h
  have hval : c.val ≤ 127 := UInt32.le_iff_toNat_le.mpr (show c.toNat ≤ 127 by omega)
  exact if_pos hval

theorem hexVal_of_wide (h : 1 < c.utf8Size) : hexVal c = none := by
  cases hval : hexVal c with
  | none => rfl
  | some n =>
    have hsize := utf8Size_of_hexVal hval
    omega

theorem Piece.sizes (h : Piece c d b) : c.utf8Size = 1 ∧ d.utf8Size = 1 := by
  obtain ⟨lo, hlo, ⟨hi, hhi, -⟩ | ⟨rfl, -⟩⟩ := h
  · exact ⟨utf8Size_of_hexVal hhi, utf8Size_of_hexVal hlo⟩
  · exact ⟨rfl, utf8Size_of_hexVal hlo⟩

theorem hexVal_plus : hexVal '+' = none := rfl

/-- Digits without a sign are read as what they spell. -/
theorem Pieces.of_spelled (h : Spelled cs bytes) : Pieces cs bytes := by
  induction bytes generalizing cs with
  | nil =>
    obtain rfl : cs = [] := length_eq_zero_iff.mp h.length
    exact .nil
  | cons b rest ih =>
    have hlen := h.length
    match cs, h, hlen with
    | c :: d :: cs, h, _ =>
      injection h with hc h
      injection h with hd h
      refine .cons ⟨b.toNat % 16, hd, .inl ⟨b.toNat / 16, hc, ?_⟩⟩ (ih h)
      have hb : 16 * (b.toNat / 16) + b.toNat % 16 = b.toNat := Nat.div_add_mod b.toNat 16
      rw [hb, UInt8.ofNat_toNat]

theorem parseHexDigits_two : parseHexDigits 0 [c, d] = .ok n ↔
    ∃ hi lo, hexVal c = some hi ∧ hexVal d = some lo ∧ n = 16 * hi + lo := by
  cases hc : hexVal c with
  | none => simp [parseHexDigits, hc]
  | some hi =>
    have hhi := hexVal_lt hc
    cases hd : hexVal d with
    | none =>
      have hlt : hi < 256 := by omega
      simp [parseHexDigits, hc, hd, hlt]
    | some lo =>
      have hlo := hexVal_lt hd
      have hfirst : 16 * 0 + hi < 256 := by omega
      have hsecond : 16 * (16 * 0 + hi) + lo < 256 := by omega
      simp only [parseHexDigits, hc, hd, if_pos hfirst, if_pos hsecond]
      constructor
      · intro h
        injection h with h
        exact ⟨hi, lo, rfl, rfl, by omega⟩
      · rintro ⟨hi', lo', h, h', rfl⟩
        injection h with h
        injection h' with h'
        subst h
        subst h'
        rw [mul_zero, zero_add]

theorem parseHexDigits_one : parseHexDigits 0 [d] = .ok n ↔ hexVal d = some n := by
  cases hd : hexVal d with
  | none => simp [parseHexDigits, hd]
  | some lo =>
    have hlo := hexVal_lt hd
    have hlt : 16 * 0 + lo < 256 := by omega
    simp only [parseHexDigits, hd, if_pos hlt]
    simp

theorem u8FromHex_two : u8FromHex (ofList [c, d]) = .ok b ↔ Piece c d b := by
  have hmap :
      ∀ {x : Except String ℕ}, x.map UInt8.ofNat = .ok b ↔ ∃ n, x = .ok n ∧ b = UInt8.ofNat n := by
    intro x
    cases x with
    | error e => simp [Except.map]
    | ok n => simp [Except.map, eq_comm]
  by_cases hplus : c = '+'
  · subst hplus
    rw [u8FromHex, toList_ofList]
    simp only [hmap, parseHexDigits_one]
    constructor
    · rintro ⟨lo, hlo, rfl⟩
      exact ⟨lo, hlo, .inr ⟨rfl, rfl⟩⟩
    · rintro ⟨lo, hlo, ⟨hi, hhi, -⟩ | ⟨-, rfl⟩⟩
      · rw [hexVal_plus] at hhi
        cases hhi
      · exact ⟨lo, hlo, rfl⟩
  · rw [u8FromHex, toList_ofList]
    have hcase : (match [c, d] with
        | [] => .error "cannot parse integer from empty string"
        | '+' :: c :: cs => (parseHexDigits 0 (c :: cs)).map UInt8.ofNat
        | cs => (parseHexDigits 0 cs).map UInt8.ofNat) =
          (parseHexDigits 0 [c, d]).map UInt8.ofNat := by
      split
      · next h => cases h
      · next h =>
        injection h with h
        exact absurd h hplus
      · rfl
    rw [hcase, hmap]
    constructor
    · rintro ⟨n, hn, rfl⟩
      obtain ⟨hi, lo, hhi, hlo, rfl⟩ := parseHexDigits_two.mp hn
      exact ⟨lo, hlo, .inl ⟨hi, hhi, rfl⟩⟩
    · rintro ⟨lo, hlo, ⟨hi, hhi, rfl⟩ | ⟨h, -⟩⟩
      · exact ⟨_, parseHexDigits_two.mpr ⟨hi, lo, hhi, hlo, rfl⟩, rfl⟩
      · exact absurd h hplus

theorem u8FromHex_one (h : hexVal c = none) : u8FromHex (ofList [c]) ≠ .ok b := by
  have hparse : parseHexDigits 0 [c] = .error "invalid digit found in string" := by
    simp only [parseHexDigits, h]
  have hcase : u8FromHex (ofList [c]) = (parseHexDigits 0 [c]).map UInt8.ofNat := by
    rw [u8FromHex, toList_ofList]
    split
    · next h => cases h
    · next h => cases h
    · rfl
  rw [hcase, hparse]
  intro herr
  cases herr

theorem length_textBytes_cons (c : Char) (cs : List Char) :
    (textBytes (ofList (c :: cs))).length =
      c.utf8Size + (textBytes (ofList cs)).length := by
  rw [textBytes_ofList, textBytes_ofList, flatMap_cons, length_append, String.length_utf8EncodeChar]

theorem append_ofList {c : List Char} (s : String) :
    s ++ ofList (c ++ cs) = s ++ ofList c ++ ofList cs := by
  apply String.toList_inj.mp
  simp

/-- The next two bytes, when they are whole characters. -/
theorem sliceText_two (piece : List Char) (hi : (textBytes before).length = 2 * i)
    (hpiece : (textBytes (ofList piece)).length = 2) :
    sliceText (before ++ ofList (piece ++ cs)) (2 * i) (2 * i + 2) =
      .ok (ofList piece) := by
  have hrange := getRange_append before (ofList piece) (ofList cs)
  rw [hi, hpiece, ← append_ofList] at hrange
  rw [sliceText, hrange]

theorem prefix_of_slice {t : String} (hi : (textBytes before).length = 2 * i)
    (hcs : 2 ≤ (textBytes (ofList cs)).length)
    (h : sliceText (before ++ ofList cs) (2 * i) (2 * i + 2) = .ok t) :
    t.toList <+: cs ∧ (textBytes t).length = 2 := by
  have hrange : getRange (before ++ ofList cs) (2 * i) (2 * i + 2) = some t := by
    rw [sliceText] at h
    split at h
    · next heq =>
      injection h with h
      rw [heq, h]
    · cases h
  obtain ⟨-, hbytes⟩ := of_getRange hrange
  have hfront : (textBytes (ofList cs)).take 2 = textBytes t := by
    rw [← hbytes, textBytes_append, ← hi, take_length_add_append, drop_left]
  refine ⟨?_, ?_⟩
  · have hpre := prefix_of_textBytes (hfront ▸ take_prefix 2 _)
    rwa [toList_ofList] at hpre
  · rw [← hfront, length_take, min_eq_left hcs]

/-- Where no characters end two bytes on, the slice is none. -/
theorem hexByte_crashes (hi : (textBytes before).length = 2 * i)
    (hcs : 2 ≤ (textBytes (ofList cs)).length)
    (h : ∀ piece, piece <+: cs → (textBytes (ofList piece)).length ≠ 2) :
    Res.Crashes (hexByte (before ++ ofList cs) i) := by
  have hslice : Res.Crashes (sliceText (before ++ ofList cs) (2 * i) (2 * i + 2)) := by
    cases hx : sliceText (before ++ ofList cs) (2 * i) (2 * i + 2) with
    | ok t =>
      obtain ⟨hpre, htwo⟩ := prefix_of_slice hi hcs hx
      rw [← ofList_toList (s := t)] at htwo
      exact absurd htwo (h t.toList hpre)
    | error e =>
      unfold sliceText at hx
      split at hx
      · cases hx
      · injection hx with hx
        rw [← hx]
        trivial
  exact Res.crashes_bind.mpr (.inl hslice)

theorem hexByte_of_slice {t : String} (h : sliceText s (2 * i) (2 * i + 2) = .ok t) :
    (hexByte s i = .ok b ↔ u8FromHex t = .ok b) ∧ ¬ Res.Crashes (hexByte s i) := by
  rw [hexByte, h, Res.ok_bind]
  cases hparse : u8FromHex t with
  | ok b' =>
    refine ⟨?_, Res.not_crashes_ok⟩
    constructor
    · intro h
      injection h with h
      rw [h]
    · intro h
      injection h with h
      rw [h]
  | error e =>
    refine ⟨?_, Res.not_crashes_err⟩
    constructor
    · intro h
      cases h
    · intro h
      cases h

theorem Pieces.sizes (h : Pieces (c :: cs) bytes) :
    ∃ d rest, cs = d :: rest ∧ c.utf8Size = 1 ∧ d.utf8Size = 1 := by
  cases h with
  | cons h hs => exact ⟨_, _, rfl, h.sizes⟩

theorem ne_ok_of_crashes {α : Type} {x : Res α} (h : Res.Crashes x) (a : α) : x ≠ .ok a := by
  rintro rfl
  exact h

/-- What the next piece is: two characters of a byte each, or nothing that is read. -/
theorem hexByte_cases (hi : (textBytes before).length = 2 * i)
    (hcs : 2 ≤ (textBytes (ofList cs)).length) :
    (∃ c d rest, cs = c :: d :: rest ∧ c.utf8Size = 1 ∧
      d.utf8Size = 1 ∧ (∀ b, hexByte (before ++ ofList cs) i = .ok b ↔ Piece c d b) ∧
      ¬ Res.Crashes (hexByte (before ++ ofList cs) i)) ∨
      ((∀ b, hexByte (before ++ ofList cs) i ≠ .ok b) ∧ (Res.Crashes
      (hexByte (before ++ ofList cs) i) ↔ Torn cs) ∧ ∀ bytes, ¬ Pieces cs bytes) := by
  cases cs with
  | nil =>
    have hnil : (textBytes (ofList [])).length = 0 := rfl
    omega
  | cons c cs =>
    have hlen := hcs
    rw [length_textBytes_cons] at hlen
    have hpos := c.utf8Size_pos
    by_cases hwide : 2 < c.utf8Size
    · -- the two bytes end inside the first character
      have hcrash := hexByte_crashes hi hcs fun piece hpre htwo => by
        cases piece with
        | nil => cases htwo
        | cons c' piece =>
          obtain ⟨rfl, -⟩ := cons_prefix_cons.mp hpre
          rw [length_textBytes_cons] at htwo
          omega
      refine .inr ⟨ne_ok_of_crashes hcrash, iff_of_true hcrash (.wide hwide), fun bytes h => ?_⟩
      obtain ⟨d, rest, -, hc, -⟩ := h.sizes
      omega
    · by_cases hsize : c.utf8Size = 2
      · -- one character of two bytes is no digit
        have hslice : sliceText (before ++ ofList (c :: cs)) (2 * i) (2 * i + 2) =
            .ok (ofList [c]) := by
          apply sliceText_two [c] hi
          rw [length_textBytes_cons]
          exact congrArg (· + 0) hsize
        have hanswers := (hexByte_of_slice (b := 0) hslice).2
        refine .inr ⟨fun b hb => ?_, iff_of_false hanswers fun h => ?_, fun bytes h => ?_⟩
        · exact u8FromHex_one (hexVal_of_wide (by omega)) ((hexByte_of_slice hslice).1.mp hb)
        · cases h with
          | wide h => exact hwide h
          | straddled hc _ => omega
          | later h _ =>
            have hc := h.sizes.1
            omega
        · obtain ⟨d, rest, -, hc, -⟩ := h.sizes
          omega
      · have hone : c.utf8Size = 1 := by omega
        cases cs with
        | nil =>
          have hnil : (textBytes (ofList [])).length = 0 := rfl
          omega
        | cons d rest =>
          by_cases hd : d.utf8Size = 1
          · have hslice : sliceText (before ++ ofList (c :: d :: rest)) (2 * i) (2 * i + 2) =
                .ok (ofList [c, d]) := by
              apply sliceText_two [c, d] hi
              rw [length_textBytes_cons, length_textBytes_cons, hone, hd]
              rfl
            refine .inl ⟨c, d, rest, rfl, hone, hd, fun b => ?_,
              (hexByte_of_slice (b := 0) hslice).2⟩
            exact (hexByte_of_slice hslice).1.trans u8FromHex_two
          · -- they end inside the second
            have hdpos := d.utf8Size_pos
            have hcrash := hexByte_crashes hi hcs fun piece hpre htwo => by
              match piece with
              | [] => cases htwo
              | [c'] =>
                obtain ⟨rfl, -⟩ := cons_prefix_cons.mp hpre
                have hnil : (textBytes (ofList [])).length = 0 := rfl
                rw [length_textBytes_cons] at htwo
                omega
              | c' :: d' :: piece =>
                obtain ⟨rfl, htail⟩ := cons_prefix_cons.mp hpre
                obtain ⟨rfl, -⟩ := cons_prefix_cons.mp htail
                rw [length_textBytes_cons, length_textBytes_cons] at htwo
                omega
            refine .inr ⟨ne_ok_of_crashes hcrash, iff_of_true hcrash (.straddled hone (by omega)),
              fun bytes h => ?_⟩
            obtain ⟨d', rest', heq, -, hd'⟩ := h.sizes
            injection heq with heq
            rw [heq] at hd
            exact hd hd'

/-- The text from its byte `2 * i` on, `k` pieces of two bytes. -/
theorem mapM_hexByte (hi : (textBytes before).length = 2 * i)
    (hk : (textBytes (ofList cs)).length = 2 * k) :
    ((List.range' i k).mapM (hexByte (before ++ ofList cs)) = .ok bytes ↔ Pieces cs bytes) ∧
      (Res.Crashes ((List.range' i k).mapM (hexByte (before ++ ofList cs))) ↔ Torn cs) := by
  induction k generalizing before cs bytes i with
  | zero =>
    have hcs : cs = [] := by
      cases cs with
      | nil => rfl
      | cons c cs =>
        have hpos := c.utf8Size_pos
        rw [length_textBytes_cons] at hk
        omega
    subst hcs
    rw [range'_zero, mapM_nil]
    constructor
    · constructor
      · intro h
        injection h with h
        exact h ▸ .nil
      · intro h
        cases h
        rfl
    · refine iff_of_false Res.not_crashes_ok ?_
      intro h
      cases h
  | succ k ih =>
    rw [range'_succ, mapM_cons, Res.bind_eq_ok, Res.crashes_bind]
    rcases hexByte_cases hi (show 2 ≤ (textBytes (ofList cs)).length by omega) with
      ⟨c, d, rest, rfl, hc, hd, hpiece, hanswers⟩ | ⟨hnone, hcrash, hpieces⟩
    · have hlen := hk
      rw [length_textBytes_cons, length_textBytes_cons] at hlen
      have hbefore : (textBytes (before ++ ofList [c, d])).length = 2 * (i + 1) := by
        have hnil : (textBytes (ofList [])).length = 0 := rfl
        rw [textBytes_append, length_append, length_textBytes_cons, length_textBytes_cons, hnil]
        omega
      have htext : before ++ ofList (c :: d :: rest) =
          before ++ ofList [c, d] ++ ofList rest :=
        append_ofList (c := [c, d]) before
      have hlater : ∀ later, ((List.range' (i + 1) k).mapM
          (hexByte (before ++ ofList [c, d] ++ ofList rest)) = .ok later ↔ Pieces rest later) ∧
          (Res.Crashes ((List.range' (i + 1) k).mapM
          (hexByte (before ++ ofList [c, d] ++ ofList rest))) ↔ Torn rest) :=
        fun later => ih hbefore (by omega)
      rw [htext] at hpiece hanswers ⊢
      constructor
      · constructor
        · rintro ⟨b, hb, h⟩
          obtain ⟨later, hrest, h⟩ := Res.bind_eq_ok.mp h
          injection h with h
          exact h ▸ .cons ((hpiece b).mp hb) ((hlater later).1.mp hrest)
        · intro h
          cases h with
          | cons h hs =>
            exact ⟨_, (hpiece _).mpr h, Res.bind_eq_ok.mpr ⟨_, (hlater _).1.mpr hs, rfl⟩⟩
      · constructor
        · rintro (h | ⟨b, hb, h⟩)
          · exact absurd h hanswers
          · rcases Res.crashes_bind.mp h with h | ⟨later, -, h⟩
            · exact .later ((hpiece b).mp hb) ((hlater []).2.mp h)
            · exact (Res.not_crashes_ok h).elim
        · intro h
          cases h with
          | wide h => omega
          | straddled _ h => omega
          | later h hs =>
            exact .inr ⟨_, (hpiece _).mpr h, Res.crashes_bind.mpr (.inl ((hlater []).2.mpr hs))⟩
    · constructor
      · refine iff_of_false ?_ (hpieces bytes)
        rintro ⟨b, hb, -⟩
        exact hnone b hb
      · rw [← hcrash]
        constructor
        · rintro (h | ⟨b, hb, -⟩)
          · exact h
          · exact absurd hb (hnone b)
        · exact .inl

theorem hexToBytes_even (bytes : Bytes) (h : (textBytes s).length % 2 = 0) :
    (hexToBytes s = .ok bytes ↔ Pieces s.toList bytes) ∧
      (Res.Crashes (hexToBytes s) ↔ Torn s.toList) := by
  have htext : "" ++ ofList s.toList = s := by
    rw [ofList_toList, String.empty_append]
  have hlen : (textBytes (ofList s.toList)).length = 2 * ((textBytes s).length / 2) := by
    rw [ofList_toList]
    omega
  have hstart : (textBytes "").length = 2 * 0 := rfl
  have hpieces := @mapM_hexByte "" s.toList bytes 0 ((textBytes s).length / 2) hstart hlen
  rw [htext, ← range_eq_range'] at hpieces
  rw [hexToBytes, if_neg (not_not_intro h)]
  exact hpieces

theorem Pieces.length_textBytes (h : Pieces cs bytes) :
    (textBytes (ofList cs)).length = 2 * bytes.length := by
  induction h with
  | nil => rfl
  | cons h _ ih =>
    rw [length_textBytes_cons, length_textBytes_cons, h.sizes.1, h.sizes.2, ih, length_cons]
    omega

theorem hexToBytes_eq_ok : hexToBytes s = .ok bytes ↔ Pieces s.toList bytes := by
  by_cases h : (textBytes s).length % 2 = 0
  · exact (hexToBytes_even bytes h).1
  · rw [hexToBytes, if_pos h]
    refine iff_of_false ?_ fun hpieces => ?_
    · intro herr
      cases herr
    · have hlen := hpieces.length_textBytes
      rw [ofList_toList] at hlen
      omega

theorem crashes_hexToBytes : Res.Crashes (hexToBytes s) ↔ TornText s := by
  by_cases h : (textBytes s).length % 2 = 0
  · rw [(hexToBytes_even [] h).2, TornText]
    exact (and_iff_right h).symm
  · rw [hexToBytes, if_pos h]
    exact iff_of_false Res.not_crashes_err fun htorn => h htorn.1

theorem hexToHash256_eq_ok {hash : Hash256} :
    hexToHash256 s = .ok hash ↔ Pieces s.toList hash.bytes := by
  rw [hexToHash256, Res.bind_eq_ok]
  constructor
  · rintro ⟨bytes, hbytes, h⟩
    split at h
    · injection h with h
      rw [← h]
      exact hexToBytes_eq_ok.mp hbytes
    · cases h
  · intro h
    exact ⟨hash.bytes, hexToBytes_eq_ok.mpr h, dif_pos hash.length_eq⟩

theorem crashes_hexToHash256 : Res.Crashes (hexToHash256 s) ↔ TornText s := by
  rw [hexToHash256, Res.crashes_bind, crashes_hexToBytes]
  constructor
  · rintro (h | ⟨bytes, -, h⟩)
    · exact h
    · split at h
      · exact (Res.not_crashes_ok h).elim
      · exact (Res.not_crashes_err h).elim
  · exact .inl

end AxisBridge.IrBundle
