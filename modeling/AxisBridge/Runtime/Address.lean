import AxisBridge.Runtime.Hex
import AxisBridge.Runtime.Adjacency

/-! Content addresses: the functions that return them, and those that accept a text or a path as
one. -/
namespace AxisBridge.ContentAddress
open List
open Adjacency (addrFromPath isHexDigit)
open String (ofList ofList_toList toList_append toList_ofList)

def hardFailCh (msg : String) : String := s!"content_hash UNKNOWN gate: {msg}"

def inputByte : Value → Except String UInt8
  | .int n =>
    if 0 ≤ n && n ≤ 255 then .ok n.toUInt64.toUInt8
    else .error (hardFailCh s!"byte value {n} out of 0..=255")
  | _ => .error (hardFailCh "byte list element is not Int")

def inputToBytes : Value → Except String Bytes
  | .list es => es.mapM inputByte
  | _ => .error (hardFailCh "input must be a List of Int bytes")

def contentHash [Sha256] (v : Value) : Except String String := do
  let bytes ← inputToBytes v
  return s!"sha256:{hash256ToHex (sha256Bytes bytes)}"

def isAsciiHexdigit (c : Char) : Bool :=
  (48 ≤ c.toNat && c.toNat ≤ 57) || (65 ≤ c.toNat && c.toNat ≤ 70) ||
    (97 ≤ c.toNat && c.toNat ≤ 102)

/-- The first twenty bytes of a text without the prefix go into the message, where they end a
character. -/
def hash256Parse (s : String) : Except String String :=
  match stripPrefix "sha256:" s with
  | none =>
    match getRange s 0 (min (textBytes s).length 20) with
    | some head => .error s!"hash256_parse: invalid input: expected 'sha256:' prefix, got: {head}"
    | none => .error "byte index 20 is not a char boundary"
  | some hex =>
    if (textBytes hex).length ≠ 64 then
      .error ("hash256_parse: invalid input: expected 64 hex chars after 'sha256:', got " ++
        s!"{(textBytes hex).length}")
    else if hex.toList.all isAsciiHexdigit = false then
      .error "hash256_parse: invalid input: non-hex character in hash"
    else .ok s

/-! ### Texts and digests -/

/-- The text a digest is written as. -/
def address (h : Hash256) : String := s!"sha256:{hash256ToHex h}"

/-- The directory and the file an object is stored under. -/
def storePath (h : Hash256) : String × String :=
  (ofList ((hash256ToHex h).toList.take 2), ofList ((hash256ToHex h).toList.drop 2))

/-- The text says the digest, in letters of either case. -/
def Denotes (s : String) (h : Hash256) : Prop :=
  ∃ cs, s.toList = "sha256:".toList ++ cs ∧ Spelled cs h.bytes

/-- Digits for a digest, a capital letter among them. -/
def Capital (cs : List Char) : Prop :=
  cs.length = 64 ∧ (∀ c ∈ cs, isAsciiHexdigit c = true) ∧ ∃ c ∈ cs, IsUpperHex c

/-- No half byte of the digest is written with a letter. -/
def Decimal (h : Hash256) : Prop := ∀ n ∈ nibbles h.bytes, n < 10

section
variable {s t : String} {h h' : Hash256} {cs : List Char}

theorem isSome_hexVal {c : Char} : (hexVal c).isSome = isAsciiHexdigit c := by
  unfold hexVal isAsciiHexdigit
  split
  · simp_all
  split
  · simp_all
  split
  · simp_all
  · simp
    omega

theorem spelling_toList : ("sha256:" ++ ofList cs).toList = "sha256:".toList ++ cs :=
  String.toList_append.trans (congrArg _ toList_ofList)

theorem address_toList :
    (address h).toList = "sha256:".toList ++ (nibbles h.bytes).map hexDigit := by
  rw [← toList_hash256ToHex]
  exact toList_append

theorem denotes_address : Denotes (address h) h := ⟨_, address_toList, spelled_hexDigits⟩

theorem Denotes.inj (hs : Denotes s h) (hs' : Denotes s h') : h = h' := by
  obtain ⟨cs, heq, hcs⟩ := hs
  obtain ⟨cs', heq', hcs'⟩ := hs'
  have hsame : cs = cs' := append_cancel_left (heq.symm.trans heq')
  subst hsame
  cases h
  cases h'
  congr
  exact hcs.inj hcs'

theorem exists_digest (hlen : cs.length = 64) (hdigits : ∀ c ∈ cs, isAsciiHexdigit c = true) :
    ∃ h : Hash256, Spelled cs h.bytes := by
  obtain ⟨bytes, hspelled, hbytes⟩ :=
    exists_spelled (by rw [hlen]; decide) fun c hc => isSome_hexVal.trans (hdigits c hc)
  exact ⟨⟨bytes, by omega⟩, hspelled⟩

theorem spelled_length (hcs : Spelled cs h.bytes) : cs.length = 64 := by
  have hlen := hcs.length
  rw [h.length_eq] at hlen
  omega

theorem spelled_digits (hcs : Spelled cs h.bytes) : ∀ c ∈ cs, isAsciiHexdigit c = true := by
  intro c hc
  rw [← isSome_hexVal]
  exact hcs.isSome hc

theorem utf8Size_of_hexdigit {c : Char} (hc : isAsciiHexdigit c = true) : c.utf8Size = 1 := by
  have hlt : c.toNat ≤ 127 := by
    simp [isAsciiHexdigit] at hc
    omega
  exact Char.utf8Size_eq_one_iff.mpr hlt

theorem length_textBytes_hexdigits (hdigits : ∀ c ∈ cs, isAsciiHexdigit c = true) :
    (textBytes (ofList cs)).length = cs.length :=
  length_textBytes_ofList cs fun c hc => utf8Size_of_hexdigit (hdigits c hc)

/-- The parser accepts the texts that say a digest, in either case. -/
theorem hash256Parse_ok : hash256Parse s = .ok s ↔ ∃ h, Denotes s h := by
  unfold hash256Parse stripPrefix
  by_cases hpre : "sha256:".toList <+: s.toList
  · rw [if_pos hpre]
    obtain ⟨cs, hcs⟩ := hpre
    have hdrop : s.toList.drop "sha256:".toList.length = cs := by
      rw [← hcs, drop_left]
    simp only [hdrop, toList_ofList]
    constructor
    · intro hok
      split at hok
      · cases hok
      split at hok
      · cases hok
      · next hlen hall =>
        have hdigits : ∀ c ∈ cs, isAsciiHexdigit c = true := by
          simpa using hall
        rw [length_textBytes_hexdigits hdigits, not_not] at hlen
        obtain ⟨h, hspelled⟩ := exists_digest hlen hdigits
        exact ⟨h, cs, hcs.symm, hspelled⟩
    · rintro ⟨h, cs', hcs', hspelled⟩
      have hsame : cs' = cs := append_cancel_left (hcs'.symm.trans hcs.symm)
      subst hsame
      have hdigits := spelled_digits hspelled
      rw [if_neg, if_neg]
      · rw [all_eq_true.mpr hdigits]
        decide
      · rw [length_textBytes_hexdigits hdigits, spelled_length hspelled]
        decide
  · rw [if_neg hpre]
    constructor
    · intro hok
      cases hhead : getRange s 0 (min (textBytes s).length 20) with
      | some head | none =>
        rw [hhead] at hok
        cases hok
    · rintro ⟨h, cs, hcs, -⟩
      exact absurd ⟨cs, hcs.symm⟩ hpre

/-! ### Paths -/

theorem encode_hexdigit {c : Char} (hc : isAsciiHexdigit c = true) :
    ∃ b : UInt8, String.utf8EncodeChar c = [b] ∧ isHexDigit b = true := by
  have hlt : c.toNat ≤ 127 := by
    simp [isAsciiHexdigit] at hc
    omega
  have hbyte : c.val.toUInt8.toNat = c.toNat := by
    rw [UInt32.toNat_toUInt8]
    exact Nat.mod_eq_of_lt (lt_of_le_of_lt hlt (by decide))
  refine ⟨_, String.utf8EncodeChar_eq_singleton (utf8Size_of_hexdigit hc), ?_⟩
  generalize c.val.toUInt8 = b at hbyte ⊢
  simp [isAsciiHexdigit] at hc
  simp [isHexDigit, UInt8.le_iff_toNat_le, hbyte]
  omega

theorem ofUInt8_hexDigit {b : UInt8} (hb : isHexDigit b = true) :
    isAsciiHexdigit (Char.ofUInt8 b) = true ∧ String.utf8EncodeChar (Char.ofUInt8 b) = [b] := by
  have hrange : (48 ≤ b.toNat ∧ b.toNat ≤ 57 ∨ 65 ≤ b.toNat ∧ b.toNat ≤ 70) ∨
      97 ≤ b.toNat ∧ b.toNat ≤ 102 := by
    simpa [isHexDigit, UInt8.le_iff_toNat_le] using hb
  have hchar : (Char.ofUInt8 b).toNat = b.toNat := UInt8.toNat_toUInt32 b
  have hdigit : isAsciiHexdigit (Char.ofUInt8 b) = true := by
    simp [isAsciiHexdigit, hchar]
    omega
  refine ⟨hdigit, ?_⟩
  rw [String.utf8EncodeChar_eq_singleton (utf8Size_of_hexdigit hdigit)]
  congr 1
  apply UInt8.toNat_inj.mp
  rw [UInt32.toNat_toUInt8]
  change (Char.ofUInt8 b).toNat % 256 = b.toNat
  omega

/-- The scan looks at bytes; the bytes of digits are those of texts of digits. -/
theorem all_isHexDigit (s : String) :
    (textBytes s).all isHexDigit = true ↔ ∀ c ∈ s.toList, isAsciiHexdigit c = true := by
  constructor
  · intro hall
    have hdigits : ∀ b ∈ textBytes s, isHexDigit b = true := all_eq_true.mp hall
    have hsame : textBytes (ofList ((textBytes s).map Char.ofUInt8)) = textBytes s := by
      rw [textBytes_ofList, flatMap_map]
      generalize textBytes s = bytes at hdigits
      induction bytes with
      | nil => rfl
      | cons b rest ih =>
        rw [flatMap_cons, (ofUInt8_hexDigit (hdigits b (by simp))).2,
          ih fun b hb => hdigits b (by simp [hb])]
        rfl
    intro c hc
    rw [← textBytes_inj hsame, toList_ofList] at hc
    obtain ⟨b, hb, rfl⟩ := mem_map.mp hc
    exact (ofUInt8_hexDigit (hdigits b hb)).1
  · intro hdigits
    apply all_eq_true.mpr
    intro b hb
    rw [← ofList_toList (s := s), textBytes_ofList] at hb
    obtain ⟨c, hc, hb⟩ := mem_flatMap.mp hb
    obtain ⟨b', hb', hdigit⟩ := encode_hexdigit (hdigits c hc)
    rw [hb', mem_singleton] at hb
    exact hb ▸ hdigit

theorem length_of_digits (hdigits : ∀ c ∈ s.toList, isAsciiHexdigit c = true) :
    (textBytes s).length = s.toList.length := by
  have hlen := length_textBytes_hexdigits hdigits
  rwa [ofList_toList] at hlen

/-- The scan accepts the paths that say a digest, in either case. -/
theorem addrFromPath_eq_some {sub file a : String} : addrFromPath sub file = some a ↔
    (∃ h : Hash256, Spelled (sub.toList ++ file.toList) h.bytes) ∧ sub.toList.length = 2 ∧
      a = s!"sha256:{sub}{file}" := by
  unfold addrFromPath
  constructor
  · intro hsome
    split at hsome
    · cases hsome
    split at hsome
    · next hlens hall =>
      rw [all_append, Bool.and_eq_true, all_isHexDigit, all_isHexDigit] at hall
      rw [length_of_digits hall.1, length_of_digits hall.2] at hlens
      have hboth : ∀ c ∈ sub.toList ++ file.toList, isAsciiHexdigit c = true := by
        intro c hc
        rcases mem_append.mp hc with hc | hc
        · exact hall.1 c hc
        · exact hall.2 c hc
      refine ⟨exists_digest ?_ hboth, ?_, (Option.some_inj.mp hsome).symm⟩
      · rw [length_append]
        omega
      · omega
    · cases hsome
  · rintro ⟨⟨h, hspelled⟩, hsub, rfl⟩
    have hdigits := spelled_digits hspelled
    have hlen := spelled_length hspelled
    have hleft : ∀ c ∈ sub.toList, isAsciiHexdigit c = true := fun c hc => hdigits c (by simp [hc])
    have hright : ∀ c ∈ file.toList, isAsciiHexdigit c = true :=
      fun c hc => hdigits c (by simp [hc])
    rw [length_append] at hlen
    rw [if_neg, if_pos]
    · rw [all_append, (all_isHexDigit sub).mpr hleft, (all_isHexDigit file).mpr hright]
      rfl
    · rw [length_of_digits hleft, length_of_digits hright]
      omega

/-! ### One spelling -/

theorem eq_address_of_lower (heq : s.toList = "sha256:".toList ++ cs) (hcs : Spelled cs h.bytes)
    (hlower : ∀ c ∈ cs, ¬ IsUpperHex c) : s = address h := by
  apply String.toList_inj.mp
  rw [heq, address_toList, hcs.eq_hexDigits hlower]

theorem not_capital_hexDigits : ¬ Capital ((nibbles h.bytes).map hexDigit) := by
  rintro ⟨-, -, c, hc, hupper⟩
  obtain ⟨n, hn, rfl⟩ := mem_map.mp hc
  exact not_isUpperHex_hexDigit (nibbles_lt hn) hupper

theorem lower_of_not_capital (hcs : Spelled cs h.bytes) (hcap : ¬ Capital cs) :
    ∀ c ∈ cs, ¬ IsUpperHex c :=
  fun c hc hupper => hcap ⟨spelled_length hcs, spelled_digits hcs, c, hc, hupper⟩

/-- A text is accepted just when it is an address, unless it has the shape of one with a capital. -/
theorem parse_exact_iff : (hash256Parse s = .ok s ↔ ∃ h, s = address h) ↔
    ¬ ∃ cs, s.toList = "sha256:".toList ++ cs ∧ Capital cs := by
  rw [hash256Parse_ok]
  constructor
  · rintro hexact ⟨cs, heq, hcap⟩
    obtain ⟨h, hspelled⟩ := exists_digest hcap.1 hcap.2.1
    obtain ⟨h', rfl⟩ := hexact.mp ⟨h, cs, heq, hspelled⟩
    rw [address_toList] at heq
    exact not_capital_hexDigits (append_cancel_left heq ▸ hcap)
  · intro hlower
    constructor
    · rintro ⟨h, cs, heq, hcs⟩
      exact ⟨h,
        eq_address_of_lower heq hcs (lower_of_not_capital hcs fun hcap => hlower ⟨cs, heq, hcap⟩)⟩
    · rintro ⟨h, rfl⟩
      exact ⟨h, denotes_address⟩

theorem storePath_eq {sub file : String} (h : Hash256) (hsub : sub.toList.length = 2) :
    (sub, file) = storePath h ↔ sub.toList ++ file.toList = (nibbles h.bytes).map hexDigit := by
  rw [storePath, toList_hash256ToHex, Prod.mk.injEq]
  generalize (nibbles h.bytes).map hexDigit = digits
  constructor
  · rintro ⟨rfl, rfl⟩
    simp
  · rintro rfl
    rw [← hsub, take_left, drop_left, ofList_toList, ofList_toList]
    exact ⟨rfl, rfl⟩

/-- The scan takes only the paths that the store writes, unless a path has a capital. -/
theorem path_exact_iff {sub file : String} :
    (∀ a, addrFromPath sub file = some a → ∃ h, (sub, file) = storePath h ∧ a = address h) ↔
      ¬ (sub.toList.length = 2 ∧ Capital (sub.toList ++ file.toList)) := by
  constructor
  · rintro hexact ⟨hsub, hcap⟩
    obtain ⟨h, hpath, -⟩ :=
      hexact _ (addrFromPath_eq_some.mpr ⟨exists_digest hcap.1 hcap.2.1, hsub, rfl⟩)
    rw [storePath_eq h hsub] at hpath
    exact not_capital_hexDigits (hpath ▸ hcap)
  · intro hlower a ha
    obtain ⟨⟨h, hcs⟩, hsub, rfl⟩ := addrFromPath_eq_some.mp ha
    have hdigits := hcs.eq_hexDigits (lower_of_not_capital hcs fun hcap => hlower ⟨hsub, hcap⟩)
    refine ⟨h, (storePath_eq h hsub).mpr hdigits, String.toList_inj.mp ?_⟩
    rw [address_toList, ← hdigits]
    change ("sha256:" ++ sub ++ file).toList = _
    rw [toList_append, toList_append, append_assoc]

/-- The capital of a digit. -/
def upperDigit (n : ℕ) : Char := if n < 10 then hexDigit n else Char.ofNat (55 + n)

theorem hexVal_upperDigit : ∀ n < 16, hexVal (upperDigit n) = some n := by decide

theorem upperDigit_ne : ∀ n < 16, 10 ≤ n → upperDigit n ≠ hexDigit n := by decide

/-- The address in capitals. -/
def loud (h : Hash256) : String := "sha256:" ++ ofList ((nibbles h.bytes).map upperDigit)

theorem denotes_loud : Denotes (loud h) h := by
  refine ⟨_, spelling_toList, ?_⟩
  rw [Spelled, map_map]
  exact map_congr_left fun n hn => hexVal_upperDigit n (nibbles_lt hn)

theorem loud_eq_address (heq : loud h = address h) : Decimal h := by
  have hlists := congrArg String.toList heq
  rw [address_toList, loud, spelling_toList] at hlists
  have hdigits := map_inj_left.mp (append_cancel_left hlists)
  intro n hn
  by_contra hletter
  exact upperDigit_ne n (nibbles_lt hn) (by omega) (hdigits n hn)

theorem Denotes.eq_address (hs : Denotes s h) (hdec : Decimal h) : s = address h := by
  obtain ⟨cs, heq, hcs⟩ := hs
  apply eq_address_of_lower heq hcs
  intro c hc hupper
  have hmem : hexVal c ∈ (nibbles h.bytes).map some := hcs ▸ mem_map_of_mem hc
  obtain ⟨n, hn, hval⟩ := mem_map.mp hmem
  have hlt := hdec n hn
  have hcap := hexVal_eq_some.mp hval.symm
  rw [IsUpperHex] at hupper
  omega

/-- Two accepted texts are one just when their digests are, unless they are two spellings of one
digest that has a letter. -/
theorem spelling_iff :
    (∀ s t, Denotes s h → Denotes t h' → (s = t ↔ h = h')) ↔ (h = h' → Decimal h) := by
  constructor
  · rintro hsame rfl
    exact loud_eq_address ((hsame _ _ denotes_loud denotes_address).mpr rfl)
  · intro hdec s t hs ht
    constructor
    · rintro rfl
      exact hs.inj ht
    · rintro rfl
      rw [hs.eq_address (hdec rfl), ht.eq_address (hdec rfl)]

theorem unique_iff : (∃! s, hash256Parse s = .ok s ∧ Denotes s h) ↔ Decimal h := by
  constructor
  · rintro ⟨s, -, honly⟩
    have hloud := honly _ ⟨hash256Parse_ok.mpr ⟨h, denotes_loud⟩, denotes_loud⟩
    have haddress := honly _ ⟨hash256Parse_ok.mpr ⟨h, denotes_address⟩, denotes_address⟩
    exact loud_eq_address (hloud.trans haddress.symm)
  · intro hdec
    refine ⟨address h, ⟨hash256Parse_ok.mpr ⟨h, denotes_address⟩, denotes_address⟩, ?_⟩
    rintro s ⟨-, hs⟩
    exact hs.eq_address hdec

theorem contentHash_eq [Sha256] {v : Value} {a : String} (hok : contentHash v = .ok a) :
    ∃ h, a = address h := by
  unfold contentHash at hok
  cases hbytes : inputToBytes v with
  | error why =>
    rw [hbytes] at hok
    cases hok
  | ok bytes =>
    rw [hbytes] at hok
    cases hok
    exact ⟨_, rfl⟩

end

/-- What is returned is always an address. What is accepted is right for every text, path and digest
except those a capital letter can spell. -/
theorem addresses [Sha256] (v : Value) (bytes : Bytes) (s sub file : String) (h h' : Hash256) :
    (∀ a, contentHash v = .ok a → ∃ h, a = address h) ∧ (∃ h, bytesHash bytes = address h) ∧
      ((hash256Parse s = .ok s ↔ ∃ h, s = address h) ↔
        ¬ ∃ cs, s.toList = "sha256:".toList ++ cs ∧ Capital cs) ∧
      ((∀ a, addrFromPath sub file = some a → ∃ h, (sub, file) = storePath h ∧ a = address h) ↔
        ¬ (sub.toList.length = 2 ∧ Capital (sub.toList ++ file.toList))) ∧
      ((∃! s, hash256Parse s = .ok s ∧ Denotes s h) ↔ Decimal h) ∧
      ((∀ s t, Denotes s h → Denotes t h' → (s = t ↔ h = h')) ↔ (h = h' → Decimal h)) :=
  ⟨fun _ => contentHash_eq, ⟨_, rfl⟩, parse_exact_iff, path_exact_iff, unique_iff, spelling_iff⟩

/-- An accepted text that no function returns: 64 capitals. -/
theorem capitals_accepted :
    hash256Parse ("sha256:" ++ ofList (replicate 64 'A')) =
        .ok ("sha256:" ++ ofList (replicate 64 'A')) ∧
      ¬ ∃ h, "sha256:" ++ ofList (replicate 64 'A') = address h := by
  have hcap : Capital (replicate 64 'A') := by
    refine ⟨length_replicate, ?_, 'A', mem_replicate.mpr ⟨by decide, rfl⟩, by decide⟩
    intro c hc
    rw [eq_of_mem_replicate hc]
    rfl
  have hlist : ("sha256:" ++ ofList (replicate 64 'A')).toList =
      "sha256:".toList ++ replicate 64 'A' := spelling_toList
  constructor
  · rw [hash256Parse_ok]
    obtain ⟨h, hspelled⟩ := exists_digest hcap.1 hcap.2.1
    exact ⟨h, _, hlist, hspelled⟩
  · rintro ⟨h, heq⟩
    rw [heq, address_toList] at hlist
    exact not_capital_hexDigits (append_cancel_left hlist ▸ hcap)

end AxisBridge.ContentAddress
