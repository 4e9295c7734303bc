import AxisBridge.Runtime.Lines
import AxisBridge.Runtime.RawBlk

/-! Bind messages: the walker that captures their parameters, the one that decodes them, and what
both make of any bytes. -/
namespace AxisBridge
open List
open Option (some_ne_none map_some some)

open StdText (fromUtf8Lossy)

namespace RawBlk

/-! ### The capture -/

section
variable (msg : Bytes)

/-- Behind `n` names that end with a 0. A slice that starts behind the end of the message is a
panic. -/
def skipNames : ℕ → ℕ → Option (Option ℕ)
  | 0, off => some (some off)
  | n + 1, off =>
    if msg.length < off then none
    else
      match (msg.drop off).findIdx? (· = 0) with
      | none => some none
      | some nul => skipNames n (off + nul + 1)

/-- Behind `n` format codes, and whether one of them is not text. -/
def skipFormats : ℕ → ℕ → Bool → Option (ℕ × Bool)
  | 0, off, binary => some (off, binary)
  | n + 1, off, binary =>
    if off + 2 > msg.length then none
    else skipFormats n (off + 2) (binary || fromBeBytes ((msg.drop off).take 2) ≠ 0)

/-- Behind `n` values, of which only one of positive length has bytes. -/
def skipValues : ℕ → ℕ → Option ℕ
  | 0, off => some off
  | n + 1, off =>
    if off + 4 > msg.length then none
    else
      let l := i32FromBe ((msg.drop off).take 4)
      if 0 < l then
        if off + 4 + l.toNat > msg.length then none else skipValues n (off + 4 + l.toNat)
      else skipValues n (off + 4)

/-- Where the parameters are, and whether some are binary; no result is a panic. -/
def paramSection : Option (Option (ℕ × ℕ × Bool)) :=
  (skipNames msg 2 5).map fun behind => behind.bind fun off =>
    if off + 2 > msg.length then none
    else
      (skipFormats msg (fromBeBytes ((msg.drop off).take 2)) (off + 2) false).bind fun formats =>
        if formats.1 + 2 > msg.length then none
        else
          (skipValues msg (fromBeBytes ((msg.drop formats.1).take 2)) (formats.1 + 2)).map
            fun stop =>
            (formats.1, stop, formats.2)

/-- What a thread keeps: the shape of its statement under its id, and the parameters of the last
message. -/
structure BindThread where
  shape : Option (ℕ × Shape)
  params : Bytes

/-- The id and the section that are captured, if any. -/
def captured (t : BindThread) : Option (Option (ℕ × Bytes)) :=
  match t.shape with
  | none => some none
  | some (id, _) =>
    (paramSection msg).map fun found => found.bind fun (start, stop, binary) =>
      if binary then none else some (id, (msg.take stop).drop start)

/-- `pgb_bind_capture`. -/
def pgbBindCapture (t : BindThread) : Option (BindThread × ℕ) :=
  (captured msg t).map fun
    | none => (t, 0)
    | some (id, sec) => ({ t with params := sec }, id)

end

/-! ### The decoder -/

section
variable [StdText]

/-- The decoder's loop with the bytes that it leaves. -/
def paramWalk : ℕ → Bytes → Option (List String × Bytes)
  | 0, bs => some ([], bs)
  | n + 1, bs =>
    if bs.length < 4 then none
    else
      let l := i32FromBe (bs.take 4)
      let rest := bs.drop 4
      if l < 0 then (paramWalk n rest).map fun w => ("" :: w.1, w.2)
      else if l.toNat > rest.length then none
      else (paramWalk n (rest.drop l.toNat)).map fun w =>
        (fromUtf8Lossy (rest.take l.toNat) :: w.1, w.2)

theorem paramLoop_eq (n : ℕ) (bs : Bytes) : paramLoop n bs = (paramWalk n bs).map Prod.fst := by
  induction n generalizing bs with
  | zero => rfl
  | succ n ih =>
    simp only [paramLoop, paramWalk]
    split
    · rfl
    · split
      · rw [ih, Option.map_map, Option.map_map]
        rfl
      · split
        · rfl
        · rw [ih, Option.map_map, Option.map_map]
          rfl

/-- The section decodes to these texts, and nothing of it is left over. -/
def DecodesExactly (sec : Bytes) (texts : List String) : Prop :=
  decodeParams sec = some texts ∧
    paramWalk (fromBeBytes (sec.take 2)) (sec.drop 2) = some (texts, [])

end

/-! ### Bind messages -/

/-- A parameter: NULL has a negative length and no bytes. -/
structure BindParam where
  len : Bytes
  value : Bytes
  length_len : len.length = 4
  length_value : value.length = (i32FromBe len).toNat

def BindParam.bytes (p : BindParam) : Bytes := p.len ++ p.value

/-- `u16::to_be_bytes`. -/
def u16ToBe (n : ℕ) : Bytes := [.ofNat (n / 256), .ofNat (n % 256)]

/-- The type byte and the length, two names, the format codes, the parameters, and what follows
them. -/
structure BindMessage where
  header : Bytes
  portal : Bytes
  statement : Bytes
  formats : List (UInt8 × UInt8)
  params : List BindParam
  rest : Bytes
  length_header : header.length = 5
  portal_ended : 0 ∉ portal
  statement_ended : 0 ∉ statement
  formats_lt : formats.length < 2 ^ 16
  params_lt : params.length < 2 ^ 16

namespace BindMessage

def front (m : BindMessage) : Bytes :=
  m.header ++ (m.portal ++ [0]) ++ (m.statement ++ [0])

def formatBytes (m : BindMessage) : Bytes := m.formats.flatMap fun f => [f.1, f.2]

def paramBytes (m : BindMessage) : Bytes := m.params.flatMap BindParam.bytes

def sec (m : BindMessage) : Bytes := u16ToBe m.params.length ++ m.paramBytes

def bytes (m : BindMessage) : Bytes :=
  m.front ++ (u16ToBe m.formats.length ++ m.formatBytes) ++ m.sec ++ m.rest

/-- Some format code is not that of text. -/
def binary (m : BindMessage) : Bool := m.formats.any (· ≠ (0, 0))

end BindMessage

/-- Any message is handled: the call returns, and a section it captures is the message's, decodes
exactly, and to the values as they stand in the message. -/
def Handled [StdText] (t : BindThread) (msg : Bytes) : Prop :=
  ∃ t' id, pgbBindCapture msg t = some (t', id) ∧
    (captured msg t = some none ∧ t' = t ∧ id = 0 ∨
      ∃ (shape : Shape) (m : BindMessage) (texts : List String), t.shape = some (id, shape) ∧
        m.bytes = msg ∧ captured msg t = some (some (id, m.sec)) ∧ t' = { t with params := m.sec } ∧
        DecodesExactly m.sec texts ∧ texts.map textBytes = m.params.map BindParam.value)

/-- There is no shape, or the message has its header and, if it is captured, values in UTF-8. -/
def Fit (t : BindThread) (msg : Bytes) : Prop :=
  t.shape = none ∨ 5 ≤ msg.length ∧ ∀ m : BindMessage, m.bytes = msg → m.binary = false →
    ∀ p ∈ m.params, ∃ s, p.value = textBytes s

/-! ### Two bytes -/

section
variable {msg pre post bs sec name : Bytes} {n off stop start : ℕ}

theorem fromBeBytes_u16ToBe (hn : n < 2 ^ 16) : fromBeBytes (u16ToBe n) = n := by
  have hhigh : (UInt8.ofNat (n / 256)).toNat = n / 256 := by
    rw [UInt8.toNat_ofNat']
    omega
  have hlow : (UInt8.ofNat (n % 256)).toNat = n % 256 := by
    rw [UInt8.toNat_ofNat']
    omega
  simp only [fromBeBytes, u16ToBe, foldl_cons, foldl_nil, hhigh, hlow]
  omega

theorem u16ToBe_fromBeBytes (hlen : bs.length = 2) :
    u16ToBe (fromBeBytes bs) = bs ∧ fromBeBytes bs < 2 ^ 16 := by
  obtain ⟨a, b, rfl⟩ := length_eq_two.mp hlen
  have ha := a.toNat_lt
  have hb := b.toNat_lt
  have hhigh : (0 * 256 + a.toNat) * 256 + b.toNat = a.toNat * 256 + b.toNat := by omega
  simp only [fromBeBytes, u16ToBe, foldl_cons, foldl_nil, hhigh]
  have hdiv : (a.toNat * 256 + b.toNat) / 256 = a.toNat := by omega
  have hmod : (a.toNat * 256 + b.toNat) % 256 = b.toNat := by omega
  refine ⟨?_, by omega⟩
  rw [hdiv, hmod, UInt8.ofNat_toNat, UInt8.ofNat_toNat]

/-! ### Names -/

/-- A slice that starts in the message is no panic. -/
theorem skipNames_ne_none (hoff : off ≤ msg.length) : skipNames msg n off ≠ none := by
  induction n generalizing off with
  | zero => exact some_ne_none _
  | succ n ih =>
    rw [skipNames, if_neg (Nat.not_lt_of_le hoff)]
    cases hnul : (msg.drop off).findIdx? (· = 0) with
    | none => exact some_ne_none _
    | some nul =>
      apply ih
      obtain ⟨hlt, -⟩ := findIdx?_eq_some_iff_getElem.mp hnul
      simp only [length_drop] at hlt
      omega

theorem paramSection_eq_none_iff : paramSection msg = none ↔ msg.length < 5 := by
  rw [paramSection, Option.map_eq_none_iff]
  constructor
  · intro hnone
    by_contra hlong
    exact skipNames_ne_none (by omega) hnone
  · intro hshort
    rw [skipNames, if_pos hshort]

theorem skipNames_name (hname : 0 ∉ name) (hdrop : msg.drop off = name ++ [0] ++ post) :
    skipNames msg (n + 1) off = skipNames msg n (off + (name ++ [0]).length) ∧
      msg.drop (off + (name ++ [0]).length) = post := by
  have hnul : (msg.drop off).findIdx? (· = 0) = some name.length := by
    rw [hdrop, append_assoc, findIdx?_eq_some_iff_getElem]
    refine ⟨by simp, by simp, ?_⟩
    intro j hj
    rw [getElem_append_left hj]
    intro hzero
    exact hname (of_decide_eq_true hzero ▸ getElem_mem hj)
  have hin : ¬ msg.length < off := by
    intro hlt
    have hlen := congrArg List.length hdrop
    simp only [length_drop, length_append, length_singleton] at hlen
    omega
  constructor
  · rw [skipNames, if_neg hin, hnul]
    simp only [length_append, length_singleton, add_assoc]
  · rw [← drop_drop, hdrop, drop_left]

theorem exists_name (h : skipNames msg (n + 1) off = some (some stop)) :
    ∃ name : Bytes, 0 ∉ name ∧ msg.drop off = name ++ [0] ++ msg.drop (off + (name ++ [0]).length) ∧
      skipNames msg n (off + (name ++ [0]).length) = some (some stop) := by
  rw [skipNames] at h
  split at h
  · cases h
  · cases hnul : (msg.drop off).findIdx? (· = 0) with
    | none =>
      rw [hnul] at h
      cases h
    | some nul =>
      rw [hnul] at h
      obtain ⟨hlt, hzero, hbefore⟩ := findIdx?_eq_some_iff_getElem.mp hnul
      have hlen : ((msg.drop off).take nul ++ [0]).length = nul + 1 := by
        simp only [length_append, length_take, length_singleton]
        omega
      refine ⟨(msg.drop off).take nul, ?_, ?_, ?_⟩
      · intro hmem
        obtain ⟨j, hj, hget⟩ := mem_iff_getElem.mp hmem
        rw [length_take] at hj
        rw [getElem_take] at hget
        exact hbefore j (by omega) (decide_eq_true hget)
      · have hbyte : (msg.drop off)[nul] = 0 := of_decide_eq_true hzero
        rw [hlen, ← drop_drop, append_assoc, singleton_append, ← hbyte,
          ← drop_eq_getElem_cons hlt, take_append_drop]
      · rw [hlen]
        exact h

/-! ### Format codes -/

theorem skipFormats_codes (fs : List (UInt8 × UInt8)) (b : Bool) (hoff : off ≤ msg.length)
    (hdrop : msg.drop off = fs.flatMap (fun f => [f.1, f.2]) ++ post) :
    skipFormats msg fs.length off b =
      some (off + (fs.flatMap fun f => [f.1, f.2]).length, b || fs.any (· ≠ (0, 0))) := by
  induction fs generalizing off b with
  | nil => simp [skipFormats]
  | cons f fs ih =>
    have htwo : msg.drop off = [f.1, f.2] ++ (fs.flatMap (fun f => [f.1, f.2]) ++ post) := hdrop
    have hlen := congrArg List.length htwo
    simp only [length_drop, length_append, length_cons, length_nil] at hlen
    have hfits : ¬ off + 2 > msg.length := by omega
    have hcode : (msg.drop off).take 2 = [f.1, f.2] := by
      rw [htwo]
      rfl
    have hnext : msg.drop (off + 2) = fs.flatMap (fun f => [f.1, f.2]) ++ post := by
      rw [← drop_drop, htwo]
      rfl
    have hval : (fromBeBytes [f.1, f.2] ≠ 0) ↔ f ≠ (0, 0) := by
      have hfst := f.1.toNat_lt
      simp only [fromBeBytes, foldl_cons, foldl_nil, ne_eq, Prod.ext_iff,
        ← UInt8.toNat_inj, UInt8.toNat_zero]
      omega
    have hstop : off + 2 + (fs.flatMap fun f => [f.1, f.2]).length =
        off + ((f :: fs).flatMap fun f => [f.1, f.2]).length := by
      simp only [flatMap_cons, length_append, length_cons, length_nil]
      omega
    rw [length_cons, skipFormats, if_neg hfits, hcode, ih _ (by omega) hnext, hstop]
    simp [Bool.or_assoc, decide_eq_decide.mpr hval]

theorem exists_formats {b binary : Bool} (hoff : off ≤ msg.length)
    (h : skipFormats msg n off b = some (stop, binary)) :
    ∃ fs : List (UInt8 × UInt8), fs.length = n ∧ stop ≤ msg.length ∧
      msg.drop off = fs.flatMap (fun f => [f.1, f.2]) ++ msg.drop stop := by
  induction n generalizing off b with
  | zero =>
    cases h
    exact ⟨[], rfl, hoff, rfl⟩
  | succ n ih =>
    rw [skipFormats] at h
    split at h
    · cases h
    · next hfits =>
      obtain ⟨fs, hlen, hstop, hdrop⟩ := ih (by omega) h
      have htwo : ((msg.drop off).take 2).length = 2 := by
        simp only [length_take, length_drop]
        omega
      obtain ⟨x, y, hxy⟩ := length_eq_two.mp htwo
      refine ⟨(x, y) :: fs, by rw [length_cons, hlen], hstop, ?_⟩
      rw [flatMap_cons, append_assoc, ← hdrop, ← hxy, ← drop_drop, take_append_drop]

/-! ### Values -/

theorem BindParam.length_bytes (p : BindParam) : p.bytes.length = 4 + (i32FromBe p.len).toNat := by
  rw [BindParam.bytes, length_append, p.length_len, p.length_value]

theorem skipValues_params (ps : List BindParam) (hoff : off ≤ msg.length)
    (hdrop : msg.drop off = ps.flatMap BindParam.bytes ++ post) :
    skipValues msg ps.length off = some (off + (ps.flatMap BindParam.bytes).length) := by
  induction ps generalizing off with
  | nil => simp [skipValues]
  | cons p ps ih =>
    have hcons : msg.drop off = p.bytes ++ (ps.flatMap BindParam.bytes ++ post) := by
      rw [hdrop, flatMap_cons, append_assoc]
    have hbytes := p.length_bytes
    have hlong := congrArg List.length hcons
    simp only [length_drop, length_append] at hlong
    have hlen : (msg.drop off).take 4 = p.len := by
      rw [hcons, BindParam.bytes, append_assoc, take_left' p.length_len]
    have hnext : msg.drop (off + p.bytes.length) = ps.flatMap BindParam.bytes ++ post := by
      rw [← drop_drop, hcons, drop_left]
    have hrest := ih (by omega) hnext
    have hfits : ¬ off + 4 > msg.length := by omega
    have hfits' : ¬ off + p.bytes.length > msg.length := by omega
    have hstop : off + ((p :: ps).flatMap BindParam.bytes).length =
        off + p.bytes.length + (ps.flatMap BindParam.bytes).length := by
      rw [flatMap_cons, length_append, add_assoc]
    rw [length_cons, skipValues, if_neg hfits, hlen, hstop, ← hrest]
    by_cases hpos : 0 < i32FromBe p.len
    · have hoff' : off + 4 + (i32FromBe p.len).toNat = off + p.bytes.length := by omega
      simp only [if_pos hpos, hoff', if_neg hfits']
    · have hoff' : off + 4 = off + p.bytes.length := by omega
      simp only [if_neg hpos, hoff']

theorem exists_params (hoff : off ≤ msg.length) (h : skipValues msg n off = some stop) :
    ∃ ps : List BindParam, ps.length = n ∧ off ≤ stop ∧ stop ≤ msg.length ∧
      msg.drop off = ps.flatMap BindParam.bytes ++ msg.drop stop := by
  induction n generalizing off with
  | zero =>
    cases h
    exact ⟨[], rfl, le_rfl, hoff, rfl⟩
  | succ n ih =>
    rw [skipValues] at h
    split at h
    · cases h
    · next hfits =>
      have hlen : ((msg.drop off).take 4).length = 4 := by
        simp only [length_take, length_drop]
        omega
      -- both branches go on behind the bytes of one parameter
      have hnext : off + 4 + (i32FromBe ((msg.drop off).take 4)).toNat ≤ msg.length ∧
          skipValues msg n (off + 4 + (i32FromBe ((msg.drop off).take 4)).toNat) = some stop := by
        simp only at h
        split at h
        · split at h
          · cases h
          · next hle => exact ⟨by omega, h⟩
        · next hneg =>
          have hzero : (i32FromBe ((msg.drop off).take 4)).toNat = 0 := by omega
          rw [hzero]
          exact ⟨by omega, h⟩
      obtain ⟨hle, hnext⟩ := hnext
      obtain ⟨ps, hps, hbehind, hstop, hdrop⟩ := ih hle hnext
      have hvalue : ((msg.drop (off + 4)).take (i32FromBe ((msg.drop off).take 4)).toNat).length =
          (i32FromBe ((msg.drop off).take 4)).toNat := by
        simp only [length_take, length_drop]
        omega
      refine ⟨⟨_, _, hlen, hvalue⟩ :: ps, by rw [length_cons, hps], by omega, hstop, ?_⟩
      have hcut (i j : ℕ) : msg.drop i = (msg.drop i).take j ++ msg.drop (i + j) := by
        rw [← drop_drop, take_append_drop]
      rw [flatMap_cons, append_assoc, ← hdrop, BindParam.bytes, append_assoc,
        ← hcut (off + 4), ← hcut off]

/-! ### The section of a message -/

namespace BindMessage

variable (m : BindMessage)

def secStart : ℕ := m.front.length + (2 + m.formatBytes.length)

theorem length_u16ToBe (n : ℕ) : (u16ToBe n).length = 2 := rfl

theorem bytes_eq : m.bytes =
    m.front ++ (u16ToBe m.formats.length ++ (m.formatBytes ++ (m.sec ++ m.rest))) := by
  simp only [bytes, append_assoc]

theorem drop_secStart : m.bytes.drop m.secStart = m.sec ++ m.rest := by
  rw [secStart, bytes_eq, ← drop_drop, drop_left, ← length_u16ToBe m.formats.length,
    ← drop_drop, drop_left, drop_left]

theorem skipNames_bytes : skipNames m.bytes 2 5 = some (some m.front.length) := by
  have hportal : m.bytes.drop 5 = m.portal ++ [0] ++ (m.statement ++ [0] ++
      (u16ToBe m.formats.length ++ (m.formatBytes ++ (m.sec ++ m.rest)))) := by
    rw [bytes_eq, front, ← m.length_header]
    simp only [append_assoc, drop_left]
  obtain ⟨hfirst, hstatement⟩ := skipNames_name (n := 1) m.portal_ended hportal
  obtain ⟨hsecond, -⟩ := skipNames_name (n := 0) m.statement_ended hstatement
  rw [hfirst, hsecond, skipNames, front, ← m.length_header]
  simp only [length_append]

/-- The walker finds the section of a message. -/
theorem paramSection_bytes :
    paramSection m.bytes = some (some (m.secStart, m.secStart + m.sec.length, m.binary)) := by
  have hlen := congrArg List.length m.bytes_eq
  simp only [length_append, length_u16ToBe] at hlen
  have hfront : m.bytes.drop m.front.length =
      u16ToBe m.formats.length ++ (m.formatBytes ++ (m.sec ++ m.rest)) := by
    rw [bytes_eq, drop_left]
  have hcount : fromBeBytes ((m.bytes.drop m.front.length).take 2) = m.formats.length := by
    rw [hfront, take_left' (length_u16ToBe _), fromBeBytes_u16ToBe m.formats_lt]
  have hformats : m.bytes.drop (m.front.length + 2) = m.formatBytes ++ (m.sec ++ m.rest) := by
    rw [← drop_drop, hfront, drop_left' (length_u16ToBe _)]
  have hcodes := skipFormats_codes m.formats false (by omega) hformats
  have hstart : m.front.length + 2 + m.formatBytes.length = m.secStart := by
    rw [secStart]
    omega
  have hsec : m.sec.length = 2 + m.paramBytes.length := by
    rw [sec, length_append, length_u16ToBe]
  have hnumber : fromBeBytes ((m.bytes.drop m.secStart).take 2) = m.params.length := by
    rw [drop_secStart, sec, append_assoc, take_left' (length_u16ToBe _),
      fromBeBytes_u16ToBe m.params_lt]
  have hvalues : m.bytes.drop (m.secStart + 2) = m.paramBytes ++ m.rest := by
    rw [← drop_drop, drop_secStart, sec, append_assoc, drop_left' (length_u16ToBe _)]
  have hparams := skipValues_params m.params (by rw [secStart]; omega) hvalues
  have hfits : ¬ m.front.length + 2 > m.bytes.length := by omega
  have hfits' : ¬ m.secStart + 2 > m.bytes.length := by
    rw [secStart]
    omega
  have hcodes' : skipFormats m.bytes m.formats.length (m.front.length + 2) false =
      some (m.secStart, m.binary) := by
    rw [hcodes, ← hstart]
    rfl
  have hstop : skipValues m.bytes m.params.length (m.secStart + 2) =
      some (m.secStart + m.sec.length) := by
    rw [hparams, hsec, ← add_assoc]
    rfl
  simp [paramSection, skipNames_bytes, if_neg hfits, hcount, hcodes', if_neg hfits', hnumber, hstop]

theorem slice_bytes : (m.bytes.take (m.secStart + m.sec.length)).drop m.secStart = m.sec := by
  rw [drop_take, Nat.add_sub_cancel_left, drop_secStart, take_left]

end BindMessage

/-- Whatever the walker finds is the section of a message. -/
theorem exists_message {binary : Bool} (h : paramSection msg = some (some (start, stop, binary))) :
    ∃ m : BindMessage, m.bytes = msg := by
  obtain ⟨found, hnames, h⟩ := Option.map_eq_some_iff.mp h
  obtain ⟨off, rfl, h⟩ := Option.bind_eq_some_iff.mp h
  have hhead : 5 ≤ msg.length := by
    by_contra hshort
    rw [skipNames, if_pos (by omega)] at hnames
    cases hnames
  obtain ⟨portal, hportal, hdrop, hnames⟩ := exists_name hnames
  obtain ⟨statement, hstatement, hdrop', hnames⟩ := exists_name hnames
  cases hnames
  generalize hoff : 5 + (portal ++ [0]).length + (statement ++ [0]).length = off at h hdrop'
  have hcut (i j : ℕ) : msg.drop i = (msg.drop i).take j ++ msg.drop (i + j) := by
    rw [← drop_drop, take_append_drop]
  rw [Option.bind_some] at h
  split at h
  · cases h
  · next hfits =>
    obtain ⟨⟨start', b⟩, hformats, h⟩ := Option.bind_eq_some_iff.mp h
    simp only at h
    split at h
    · cases h
    · next hfits' =>
      obtain ⟨stop', hvalues, -⟩ := Option.map_eq_some_iff.mp h
      obtain ⟨fs, hfs, -, hcodes⟩ := exists_formats (by omega) hformats
      obtain ⟨ps, hps, -, -, hparams⟩ := exists_params (by omega) hvalues
      have hcount : ((msg.drop off).take 2).length = 2 := by
        simp only [length_take, length_drop]
        omega
      have hnumber : ((msg.drop start').take 2).length = 2 := by
        simp only [length_take, length_drop]
        omega
      obtain ⟨hcount, hcount'⟩ := u16ToBe_fromBeBytes hcount
      obtain ⟨hnumber, hnumber'⟩ := u16ToBe_fromBeBytes hnumber
      refine ⟨⟨msg.take 5, portal, statement, fs, ps, msg.drop stop', by
        rw [length_take]
        omega, hportal, hstatement, hfs ▸ hcount', hps ▸ hnumber'⟩, ?_⟩
      calc _ = msg.take 5 ++ (portal ++ [0] ++ (statement ++ [0] ++ ((msg.drop off).take 2 ++
              (fs.flatMap (fun f => [f.1, f.2]) ++ ((msg.drop start').take 2 ++
                (ps.flatMap BindParam.bytes ++ msg.drop stop')))))) := by
            simp [BindMessage.bytes, BindMessage.front, BindMessage.sec, BindMessage.formatBytes,
              BindMessage.paramBytes, hfs, hps, hcount, hnumber]
        _ = msg.take 5 ++ msg.drop 5 := by
            rw [← hparams, ← hcut start', ← hcodes, ← hcut off, ← hdrop', ← hdrop]
        _ = msg := take_append_drop 5 msg

/-- The bytes of so many parameters are those of no others. -/
theorem params_inj {ps qs : List BindParam} (hlen : ps.length = qs.length)
    (h : ps.flatMap BindParam.bytes = qs.flatMap BindParam.bytes) : ps = qs := by
  induction ps generalizing qs with
  | nil => exact (length_eq_zero_iff.mp hlen.symm).symm
  | cons p ps ih =>
    cases qs with
    | nil => cases hlen
    | cons q qs =>
      obtain ⟨len, value, hl, hv⟩ := p
      obtain ⟨len', value', hl', hv'⟩ := q
      simp only [flatMap_cons, BindParam.bytes, append_assoc] at h
      obtain ⟨rfl, hbody⟩ := append_inj h (hl.trans hl'.symm)
      obtain ⟨rfl, htail⟩ := append_inj hbody (hv.trans hv'.symm)
      rw [ih (Nat.succ.inj hlen) htail]

theorem BindMessage.params_eq {m m' : BindMessage} (h : m.sec = m'.sec) : m.params = m'.params := by
  obtain ⟨hcount, hbytes⟩ := append_inj h rfl
  have hnumber := congrArg fromBeBytes hcount
  rw [fromBeBytes_u16ToBe m.params_lt, fromBeBytes_u16ToBe m'.params_lt] at hnumber
  exact params_inj hnumber hbytes

/-! ### The two walkers -/

variable [StdText]

/-- What the decoder makes of a parameter. -/
def BindParam.text (p : BindParam) : String :=
  if i32FromBe p.len < 0 then "" else fromUtf8Lossy p.value

open BindParam (bytes text)

theorem paramWalk_params (ps : List BindParam) (post : Bytes) :
    paramWalk ps.length (ps.flatMap bytes ++ post) =
      some (ps.map text, post) := by
  induction ps with
  | nil => rfl
  | cons p ps ih =>
    have hbytes : (p :: ps).flatMap bytes ++ post =
        p.len ++ (p.value ++ (ps.flatMap bytes ++ post)) := by
      simp [bytes]
    have hlong : ¬ (p.len ++ (p.value ++ (ps.flatMap bytes ++ post))).length < 4 := by
      simp only [length_append, p.length_len]
      omega
    have hfits :
        ¬ (i32FromBe p.len).toNat > (p.value ++ (ps.flatMap bytes ++ post)).length := by
      simp only [length_append, p.length_value]
      omega
    rw [hbytes, length_cons, paramWalk, if_neg hlong, take_left' p.length_len,
      drop_left' p.length_len, map_cons]
    by_cases hneg : i32FromBe p.len < 0
    · have hnil : p.value = [] := by
        apply length_eq_zero_iff.mp
        have hvalue := p.length_value
        omega
      simp only [if_pos hneg, hnil, nil_append, ih, map_some, text]
    · simp only [if_neg hneg, if_neg hfits, take_left' p.length_value,
        drop_left' p.length_value, ih, map_some, text]

theorem decodesExactly_sec (m : BindMessage) :
    DecodesExactly m.sec (m.params.map text) := by
  have hcount : fromBeBytes (m.sec.take 2) = m.params.length := by
    rw [BindMessage.sec, take_left' (BindMessage.length_u16ToBe _), fromBeBytes_u16ToBe m.params_lt]
  have hrest : m.sec.drop 2 = m.paramBytes ++ [] := by
    rw [BindMessage.sec, drop_left' (BindMessage.length_u16ToBe _), append_nil]
  have hwalk : paramWalk (fromBeBytes (m.sec.take 2)) (m.sec.drop 2) =
      some (m.params.map text, []) := by
    rw [hcount, hrest]
    exact paramWalk_params m.params []
  have hlong : ¬ m.sec.length < 2 := by
    simp only [BindMessage.sec, length_append, BindMessage.length_u16ToBe]
    omega
  refine ⟨?_, hwalk⟩
  rw [decodeParams, if_neg hlong, paramLoop_eq, hwalk, map_some]

/-- The decoder gives the value of a parameter exactly when it is text. -/
theorem BindParam.textBytes_text_iff (hlossy : ∀ s, fromUtf8Lossy (textBytes s) = s)
    (p : BindParam) : textBytes p.text = p.value ↔ ∃ s, p.value = textBytes s := by
  refine ⟨fun h => ⟨p.text, h.symm⟩, ?_⟩
  rintro ⟨s, hs⟩
  rw [text]
  split
  · next hneg =>
    have hvalue := p.length_value
    have hnil : p.value = [] := length_eq_zero_iff.mp (by omega)
    rw [hnil]
    rfl
  · rw [hs, hlossy]

variable {t : BindThread} {shape : Shape} {id : ℕ} {m : BindMessage}

omit [StdText] in
/-- Of a message with text parameters only, the section is captured. -/
theorem captured_bytes (hshape : t.shape = some (id, shape)) (m : BindMessage) :
    captured m.bytes t = some (if m.binary then none else some (id, m.sec)) := by
  simp [captured, hshape, m.paramSection_bytes, m.slice_bytes]

theorem handled_of_nothing (h : captured msg t = some none) : Handled t msg := by
  refine ⟨t, 0, ?_, .inl ⟨h, rfl, rfl⟩⟩
  rw [pgbBindCapture, h, map_some]

/-- A message whose section is captured is handled when its values are text. -/
theorem handled_bytes_iff (hlossy : ∀ s, fromUtf8Lossy (textBytes s) = s)
    (hshape : t.shape = some (id, shape)) (hbinary : m.binary = false) :
    Handled t m.bytes ↔ ∀ p ∈ m.params, ∃ s, p.value = textBytes s := by
  have hcap := captured_bytes hshape m
  rw [hbinary, if_neg Bool.false_ne_true] at hcap
  constructor
  · rintro ⟨t', id', -, ⟨hnone, -, -⟩ | ⟨shape', m', texts, -, -, hcap', -, hexact, hvalues⟩⟩ p hp
    · rw [hcap] at hnone
      cases hnone
    · rw [hcap] at hcap'
      obtain ⟨-, hsec⟩ := Prod.mk.inj (some.inj (some.inj hcap'))
      have htexts := some.inj (hexact.1.symm.trans (decodesExactly_sec m').1)
      rw [BindMessage.params_eq hsec] at hp
      rw [htexts, map_map, map_inj_left] at hvalues
      have hvalue := hvalues p hp
      rw [Function.comp_apply] at hvalue
      exact (p.textBytes_text_iff hlossy).mp hvalue
  · intro htext
    refine ⟨{ t with params := m.sec }, id, ?_, .inr ⟨shape, m, _, hshape, rfl, hcap, rfl,
      decodesExactly_sec m, ?_⟩⟩
    · rw [pgbBindCapture, hcap, map_some]
    · rw [map_map, map_inj_left]
      intro p hp
      rw [Function.comp_apply]
      exact (p.textBytes_text_iff hlossy).mpr (htext p hp)

/-- A message is handled exactly when it is fit: only without a shape may it be shorter than its
header, and what is captured has to be text. -/
theorem bind_handled_iff (hlossy : ∀ s, fromUtf8Lossy (textBytes s) = s) (t : BindThread)
    (msg : Bytes) : Handled t msg ↔ Fit t msg := by
  cases hshape : t.shape with
  | none =>
    have hnone : captured msg t = some none := by simp only [captured, hshape]
    exact iff_of_true (handled_of_nothing hnone) (.inl hshape)
  | some s =>
    obtain ⟨id, shape⟩ := s
    have hfit : Fit t msg ↔ 5 ≤ msg.length ∧ ∀ m : BindMessage, m.bytes = msg → m.binary = false →
        ∀ p ∈ m.params, ∃ s, p.value = textBytes s :=
      or_iff_right (by rw [hshape]; exact some_ne_none _)
    rw [hfit]
    by_cases hshort : msg.length < 5
    · have hpanic : captured msg t = none := by
        simp [captured, hshape, paramSection_eq_none_iff.mpr hshort]
      refine iff_of_false ?_ (fun h => absurd h.1 (Nat.not_le_of_lt hshort))
      rintro ⟨t', id', hcall, -⟩
      rw [pgbBindCapture, hpanic] at hcall
      cases hcall
    · rw [and_iff_right (Nat.le_of_not_lt hshort)]
      constructor
      · rintro hhandled m rfl hbinary
        exact (handled_bytes_iff hlossy hshape hbinary).mp hhandled
      · intro htext
        cases hfound : paramSection msg with
        | none => exact absurd (paramSection_eq_none_iff.mp hfound) hshort
        | some found =>
          cases found with
          | none =>
            apply handled_of_nothing
            simp [captured, hshape, hfound]
          | some found =>
            obtain ⟨m, rfl⟩ := exists_message hfound
            cases hbinary : m.binary with
            | false => exact (handled_bytes_iff hlossy hshape hbinary).mpr (htext m rfl hbinary)
            | true =>
              apply handled_of_nothing
              rw [captured_bytes hshape, hbinary, if_pos rfl]

end

attribute [local instance] plainText

theorem i32FromBe_of_lt {bs : Bytes} (h : fromBeBytes bs < 2 ^ 31) :
    i32FromBe bs = fromBeBytes bs := by
  have hsmall : ((fromBeBytes bs : ℕ) : ℤ).bmod (2 ^ 32) = fromBeBytes bs := by
    apply Int.bmod_eq_of_le
    · omega
    · omega
  exact hsmall

/-- A message for the statement `s` with the text `abc` as its one parameter. -/
def oneText : BindMessage where
  header := [66, 0, 0, 0, 21]
  portal := []
  statement := [115]
  formats := []
  params := [⟨[0, 0, 0, 3], [97, 98, 99], rfl, by
    rw [i32FromBe_of_lt (by decide)]
    rfl⟩]
  rest := [0, 0]
  length_header := rfl
  portal_ended := not_mem_nil
  statement_ended := by simp
  formats_lt := by simp
  params_lt := by simp

def oneShape : BindThread := ⟨some (7, ("t", ["a"])), []⟩

theorem plainText_lossy (s : String) : fromUtf8Lossy (textBytes s) = s := by
  simp [fromUtf8Lossy]

theorem bind_handled_iff_text : Handled oneShape oneText.bytes := by
  refine (bind_handled_iff plainText_lossy oneShape oneText.bytes).mpr (.inr ⟨by decide, ?_⟩)
  intro m hm hbinary p hp
  have hone := captured_bytes (t := oneShape) rfl oneText
  have hany := captured_bytes (t := oneShape) rfl m
  rw [hm, hone, hbinary] at hany
  obtain ⟨-, hsec⟩ := Prod.mk.inj (some.inj (some.inj hany))
  rw [← BindMessage.params_eq hsec] at hp
  obtain rfl := mem_singleton.mp hp
  exact ⟨"abc", rfl⟩

/-- A message that is only its type byte is a panic. -/
theorem bind_panics : pgbBindCapture [66] oneShape = none ∧ ¬ Handled oneShape [66] := by
  have hpanic : pgbBindCapture [66] oneShape = none := rfl
  refine ⟨hpanic, ?_⟩
  rintro ⟨t', id, hcall, -⟩
  rw [hpanic] at hcall
  cases hcall

end RawBlk

end AxisBridge
