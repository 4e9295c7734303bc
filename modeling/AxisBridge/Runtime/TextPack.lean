import AxisBridge.Runtime.Axbi
import AxisBridge.Runtime.Batched
import AxisBridge.Runtime.StrOps

/-! Lists of texts packed into one text, with the lengths of the items in front. -/
namespace AxisBridge.TextPack
open List Option
open Axbi (Halt VALUE_SIZE mostValues)
open StrOps (byteSlice charIndices size)

def valueTagName : Value → String
  | .int _ => "Int"
  | .bool _ => "Bool"
  | .str _ => "Text"
  | .unit => "Unit"
  | .tuple _ => "Tuple"
  | .list _ => "List"
  | .ctor _ _ => "Ctor"
  | .dec _ _ => "Dec"
  | .float _ => "Float"
  | .bytes _ => "Bytes"
  | .localMap _ => "LocalMap"
  | .frozenMap _ => "FrozenMap"

/-- The loop of `text_list_pack`, with the number of the next item. -/
def packLoop (idx : ℕ) (lens body : String) : List Value → Except String (String × String)
  | [] => .ok (lens, body)
  | .str s :: items =>
    let lens := if idx > 0 then lens ++ "," else lens
    packLoop (idx + 1) (lens ++ s.toList.length.repr) (body ++ s) items
  | other :: _ => .error s!"text_list_pack: element {idx} is {valueTagName other}, expected Text"

/-- `"{n}|{lens}|{body}"`. -/
def packed (n lens body : String) : String := n ++ "|" ++ (lens ++ "|" ++ body)

def textListPack : Value → Except String Value
  | .list items => do
    let (lens, body) ← packLoop 0 "" "" items
    return .str (packed items.length.repr lens body)
  | other => .error s!"text_list_pack: expected TextList, got {valueTagName other}"

def bad (why : String) : String := s!"text_list_unpack: not a packed list ({why})"

/-- `nth(l)` of the characters, or the end of the body after its last character. -/
def cutAt (body : String) (l : ℕ) : Except String ℕ :=
  match (charIndices body.toList 0)[l]? with
  | some (i, _) => .ok i
  | none =>
    if body.toList.length = l then .ok (textBytes body).length
    else .error (bad "items shorter than the lengths")

/-- The loop of `text_list_unpack`: the items and what is left of the body. -/
def unpackLoop : List String → String → List Value → Except String (List Value × String)
  | [], body, out => .ok (out, body)
  | l :: lens, body, out => do
    let some l := parseUsize l | .error (bad "a length is not a number")
    let cut ← cutAt body l
    let item ← byteSlice body 0 cut
    let rest ← byteSlice body cut (textBytes body).length
    unpackLoop lens rest (out ++ [.str item])

def unpackFields (n : ℕ) (lens body : String) : Except String (List Value × String) :=
  if n > 0 then unpackLoop (split ',' lens) body []
  else if lens ≠ "" then .error (bad "count 0 with lengths")
  else .ok ([], body)

/-- The last checks: the items are as many as stated, and nothing is left of the body. -/
def checkUnpacked (n : ℕ) (out : List Value) (body : String) : Except String Value :=
  if out.length ≠ n then .error (bad "count and lengths differ")
  else if body ≠ "" then .error (bad "items longer than the lengths")
  else .ok (.list out)

/-- Behind the allocation. -/
def unpackItems (n : ℕ) (lens body : String) : Except String Value := do
  let (out, body) ← unpackFields n lens body
  checkUnpacked n out body

/-- `text_list_unpack`, in a memory with room for `room` values in one vector. -/
def textListUnpack (room : ℕ) (t : String) : Except Halt Value := do
  let some (n, rest) := splitOnce '|' t | .error (.panic (bad "no count"))
  let some n := parseUsize n | .error (.panic (bad "count is not a number"))
  let some (lens, body) := splitOnce '|' rest | .error (.panic (bad "no lengths"))
  -- `Vec::with_capacity`, before a length is looked at
  if n * VALUE_SIZE ≥ 2 ^ 63 then .error (.panic "capacity overflow")
  else if n > room then .error .outOfMemory
  else (unpackItems n lens body).mapError .panic

/-- A list of texts as the process holds it: in one vector. -/
structure TextList where
  items : List Str
  fits : items.length * VALUE_SIZE < 2 ^ 63

def texts (items : List String) : Value := .list (items.map .str)

def TextList.value (l : TextList) : Value := texts (l.items.map Str.toString)

/-- The length fields. -/
def fields (lens : String) : List String := if lens = "" then [] else split ',' lens

/-- What a packing states of its items: their number and the length of each. Together they are its
body. -/
def States (t : String) (items : List String) : Prop :=
  ∃ n lens, t = packed n lens (String.join items) ∧ '|' ∉ n.toList ∧ '|' ∉ lens.toList ∧
    parseUsize n = some items.length ∧
      (fields lens).mapM parseUsize = some (items.map fun s => s.toList.length)

/-- The vector of so many values as the text's count states is granted, or no vector can be so
large. -/
def Granted (room : ℕ) (t : String) : Prop :=
  ∀ n rest k, splitOnce '|' t = some (n, rest) → parseUsize n = some k →
    (splitOnce '|' rest).isSome = true → k ≤ room ∨ 2 ^ 63 ≤ k * VALUE_SIZE

variable {cs : List Char} {t n lens body rest l : String} {items parts front : List String}
  {k b : ℕ} {out out' : List Value}

/-! ### Cutting the body -/

theorem getElem?_charIndices :
    (charIndices cs b)[k]? = cs[k]?.map fun c => (b + size (cs.take k), c) := by
  induction cs generalizing b k with
  | nil => rfl
  | cons c cs ih =>
    cases k with
    | zero => rfl
    | succ k =>
      rw [charIndices, getElem?_cons_succ, ih, getElem?_cons_succ, take_succ_cons, StrOps.size_cons,
        add_assoc]

/-- The body is cut behind its first `k` characters. -/
theorem cutAt_eq : cutAt body k = if k ≤ body.toList.length then .ok (size (body.toList.take k))
    else .error (bad "items shorter than the lengths") := by
  rw [cutAt, getElem?_charIndices]
  rcases Nat.lt_trichotomy k body.toList.length with hlt | heq | hgt
  · rw [getElem?_eq_getElem hlt, if_pos hlt.le, Option.map_some, zero_add]
  · rw [getElem?_eq_none heq.ge, if_pos heq.le, heq, take_length, StrOps.length_textBytes]
    exact if_pos rfl
  · rw [getElem?_eq_none hgt.le, if_neg (Nat.not_le.mpr hgt)]
    exact if_neg hgt.ne

theorem unpackLoop_cons (hl : parseUsize l = some k) : unpackLoop (l :: parts) body out =
    if k ≤ body.toList.length then
      unpackLoop parts (String.ofList (body.toList.drop k))
        (out ++ [.str (String.ofList (body.toList.take k))])
    else .error (bad "items shorter than the lengths") := by
  have hitem := @StrOps.byteSlice_eq body 0 k (Nat.zero_le k)
  rw [take_zero, StrOps.size_nil, drop_zero] at hitem
  simp only [unpackLoop, hl, cutAt_eq]
  split
  · simp only [bind, Except.bind, hitem, StrOps.byteSlice_end]
  · rfl

/-- The loop takes an item of each length off the body. -/
theorem unpackLoop_iff : unpackLoop parts body out = .ok (out', rest) ↔
    ∃ items, out' = out ++ items.map .str ∧ parts.mapM parseUsize =
    some (items.map fun s => s.toList.length) ∧ body = String.join items ++ rest := by
  induction parts generalizing body out with
  | nil =>
    rw [unpackLoop]
    constructor
    · rintro h
      cases h
      exact ⟨[], by simp⟩
    · rintro ⟨items, rfl, hlens, rfl⟩
      have hnil : items = [] := by simpa using hlens
      subst hnil
      simp
  | cons l parts ih =>
    cases hl : parseUsize l with
    | none => simp [unpackLoop, hl]
    | some k =>
      rw [unpackLoop_cons hl]
      constructor
      · intro h
        split at h
        · next hk =>
          obtain ⟨items, rfl, hlens, hrest⟩ := ih.mp h
          refine ⟨String.ofList (body.toList.take k) :: items, by simp, ?_, ?_⟩
          · simp [mapM_cons, hl, hlens, hk]
          · apply String.toList_inj.mp
            have hdrop := congrArg String.toList hrest
            rw [String.toList_ofList] at hdrop
            rw [String.join_cons, String.append_assoc, String.toList_append, ← hdrop,
              String.toList_ofList, take_append_drop]
        · cases h
      · rintro ⟨items, rfl, hlens, rfl⟩
        cases items with
        | nil =>
          rw [mapM_cons, hl] at hlens
          cases hparts : parts.mapM parseUsize <;> simp [hparts] at hlens
        | cons s items =>
          simp only [mapM_cons, hl, Option.pure_def, Option.bind_eq_bind, Option.bind_some,
            map_cons, Option.bind_eq_some_iff, some.injEq, List.cons.injEq] at hlens
          obtain ⟨lens, hlens, rfl, rfl⟩ := hlens
          have htext : (String.join (s :: items) ++ rest).toList =
              s.toList ++ (String.join items ++ rest).toList := by simp
          rw [if_pos (by rw [htext, length_append]; exact Nat.le_add_right _ _), htext, take_left,
            drop_left, String.ofList_toList, String.ofList_toList]
          exact ih.mpr ⟨items, by simp, hlens, rfl⟩

/-! ### What is unpacked -/

theorem fields_eq_nil (h : fields lens = []) : lens = "" := by
  rw [fields] at h
  split at h
  · assumption
  · have hlen := length_split ',' lens
    rw [h] at hlen
    cases hlen

theorem length_of_mapM (h : parts.mapM parseUsize = some (items.map fun s => s.toList.length)) :
    items.length = parts.length := by
  have hlen := mapM_length h
  rwa [length_map] at hlen

/-- The items by the number that the count states. -/
theorem unpackFields_iff {n : ℕ} (hn : out.length = n) :
    unpackFields n lens body = .ok (out, rest) ↔ ∃ items, out = items.map .str ∧
      (fields lens).mapM parseUsize = some (items.map fun s => s.toList.length) ∧
      body = String.join items ++ rest := by
  rw [unpackFields]
  by_cases hpos : n > 0
  · rw [if_pos hpos, unpackLoop_iff]
    refine exists_congr fun items => ?_
    rw [nil_append]
    refine and_congr_right fun hout => and_congr_left fun _ => ?_
    rw [fields]
    split
    · next hlens =>
      -- neither no field nor an empty one is a length
      subst hlens
      have hitems : items.length = n := by rw [← hn, hout, length_map]
      constructor
      · intro h
        have hsplit : split ',' "" = [""] := rfl
        have hparse : parseUsize "" = none := rfl
        rw [hsplit, mapM_cons, hparse] at h
        cases h
      · intro h
        have hlen := length_of_mapM h
        rw [hitems, length_nil] at hlen
        omega
    · rfl
  · obtain rfl : out = [] := length_eq_zero_iff.mp (by omega)
    rw [if_neg hpos]
    by_cases hlens : lens = ""
    · subst hlens
      rw [if_neg (fun h => h rfl)]
      constructor
      · intro h
        cases h
        exact ⟨[], by simp [fields]⟩
      · rintro ⟨items, hout, -, rfl⟩
        have hnil : items = [] := by simpa using hout.symm
        subst hnil
        simp
    · rw [if_pos hlens]
      constructor
      · intro h
        cases h
      · rintro ⟨items, hout, h, -⟩
        have hnil : items = [] := by simpa using hout.symm
        subst hnil
        exact absurd (fields_eq_nil (length_eq_zero_iff.mp (length_of_mapM h).symm)) hlens

theorem splitOnce_packed (hn : '|' ∉ n.toList) (lens body : String) :
    splitOnce '|' (packed n lens body) = some (n, lens ++ "|" ++ body) := splitOnce_append hn _

theorem splitOnce_rest (hlens : '|' ∉ lens.toList) (body : String) :
    splitOnce '|' (lens ++ "|" ++ body) = some (lens, body) := splitOnce_append hlens body

variable {v : Value}

theorem checkUnpacked_iff :
    checkUnpacked k out body = .ok v ↔ out.length = k ∧ body = "" ∧ v = .list out := by
  rw [checkUnpacked]
  by_cases hlen : out.length = k
  · rw [if_neg (fun h => h hlen)]
    by_cases hbody : body = ""
    · rw [if_neg (fun h => h hbody), Except.ok.injEq]
      exact ⟨fun h => ⟨hlen, hbody, h.symm⟩, fun h => h.2.2.symm⟩
    · rw [if_pos hbody]
      exact ⟨fun h => (by cases h), fun h => absurd h.2.1 hbody⟩
  · rw [if_pos hlen]
    exact ⟨fun h => (by cases h), fun h => absurd h.1 hlen⟩

theorem unpackItems_iff : unpackItems k lens body = .ok v ↔
    ∃ items, v = texts items ∧ items.length = k ∧ body = String.join items ∧
      (fields lens).mapM parseUsize = some (items.map fun s => s.toList.length) := by
  rw [unpackItems]
  constructor
  · intro h
    cases hout : unpackFields k lens body with
    | error why =>
      rw [hout] at h
      cases h
    | ok p =>
      rw [hout] at h
      obtain ⟨hlen, hrest, rfl⟩ := checkUnpacked_iff.mp h
      obtain ⟨items, hitems, hfields, hbody⟩ := (unpackFields_iff hlen).mp hout
      refine ⟨items, congrArg Value.list hitems, ?_, ?_, hfields⟩
      · rw [← hlen, hitems, length_map]
      · rw [hbody, hrest, String.append_empty]
  · rintro ⟨items, rfl, hlen, hbody, hfields⟩
    have hout : unpackFields k lens body = .ok (items.map .str, "") :=
      (unpackFields_iff (by rw [length_map, hlen])).mpr
        ⟨items, rfl, hfields, by rw [hbody, String.append_empty]⟩
    rw [hout]
    exact checkUnpacked_iff.mpr ⟨by rw [length_map, hlen], rfl, rfl⟩

theorem le_mostValues {room : ℕ} :
    k ≤ mostValues room ↔ ¬ k * VALUE_SIZE ≥ 2 ^ 63 ∧ ¬ k > room := by
  rw [mostValues, VALUE_SIZE]
  omega

theorem mapError_eq_ok {ε ε' α : Type*} {f : ε → ε'} {x : Except ε α} {v : α} :
    x.mapError f = .ok v ↔ x = .ok v := by
  cases x <;> simp [Except.mapError]

/-- Behind the count and the lengths. -/
theorem textListUnpack_packed (room : ℕ) (hn : '|' ∉ n.toList) (hlens : '|' ∉ lens.toList)
    (hnum : parseUsize n = some k) : textListUnpack room (packed n lens body) = .ok v ↔
    k ≤ mostValues room ∧ ∃ items, v = texts items ∧ items.length = k ∧ body = String.join items ∧
    (fields lens).mapM parseUsize = some (items.map fun s => s.toList.length) := by
  simp only [textListUnpack, splitOnce_packed hn, splitOnce_rest hlens, hnum, le_mostValues]
  by_cases hcap : k * VALUE_SIZE ≥ 2 ^ 63
  · rw [if_pos hcap]
    exact ⟨fun h => (by cases h), fun h => absurd hcap h.1.1⟩
  · rw [if_neg hcap]
    by_cases hroom : k > room
    · rw [if_pos hroom]
      exact ⟨fun h => (by cases h), fun h => absurd hroom h.1.2⟩
    · rw [if_neg hroom, mapError_eq_ok, unpackItems_iff]
      exact (and_iff_right ⟨hcap, hroom⟩).symm

/-- A text is unpacked into the items that it states, if a vector for them is granted. -/
theorem textListUnpack_iff {room : ℕ} : textListUnpack room t = .ok v ↔
    ∃ items, v = texts items ∧ States t items ∧ items.length ≤ mostValues room := by
  constructor
  · intro h
    cases hcount : splitOnce '|' t with
    | none =>
      simp only [textListUnpack, hcount] at h
      cases h
    | some p =>
      obtain ⟨n, rest⟩ := p
      cases hnum : parseUsize n with
      | none =>
        simp only [textListUnpack, hcount, hnum] at h
        cases h
      | some k =>
        cases hfields : splitOnce '|' rest with
        | none =>
          simp only [textListUnpack, hcount, hnum, hfields] at h
          cases h
        | some q =>
          obtain ⟨lens, body⟩ := q
          obtain ⟨rfl, hn⟩ := splitOnce_eq_some.mp hcount
          obtain ⟨rfl, hlens⟩ := splitOnce_eq_some.mp hfields
          obtain ⟨hcap, items, rfl, rfl, rfl, hitems⟩ :=
            (textListUnpack_packed room hn hlens hnum).mp h
          exact ⟨items, rfl, ⟨n, lens, rfl, hn, hlens, hnum, hitems⟩, hcap⟩
  · rintro ⟨items, rfl, ⟨n, lens, rfl, hn, hlens, hnum, hitems⟩, hcap⟩
    exact (textListUnpack_packed room hn hlens hnum).mpr ⟨hcap, items, rfl, rfl, rfl, hitems⟩

/-- The length field of an item. -/
def lengthField (s : String) : String := s.toList.length.repr

/-- The loop goes on behind the fields and texts of `front`. -/
theorem packLoop_eq (items front : List String) (body : String) :
    packLoop front.length (",".intercalate front) body (items.map .str) =
      .ok (",".intercalate (front ++ items.map lengthField), body ++ String.join items) := by
  induction items generalizing front body with
  | nil => simp [packLoop]
  | cons s items ih =>
    have hlens : (if front.length > 0 then
      ",".intercalate front ++ "," else ",".intercalate front) ++ lengthField s =
        ",".intercalate (front ++ [lengthField s]) := by
      cases front with
      | nil => simp
      | cons p front =>
        have hpos : (p :: front).length > 0 := Nat.succ_pos front.length
        rw [if_pos hpos, String.intercalate_append_of_ne_nil (cons_ne_nil _ _)
          (cons_ne_nil _ _), String.intercalate_singleton]
    have hrest := ih (front ++ [lengthField s]) (body ++ s)
    rw [length_append, ← hlens] at hrest
    rw [map_cons, packLoop]
    refine hrest.trans ?_
    rw [append_assoc, String.join_cons, String.append_assoc, map_cons]
    rfl

theorem textListPack_eq (items : List String) : textListPack (texts items) = .ok (.str
    (packed items.length.repr (",".intercalate (items.map lengthField)) (String.join items))) := by
  have hloop := packLoop_eq items [] ""
  rw [nil_append, String.empty_append] at hloop
  simp only [textListPack, texts]
  rw [String.intercalate_nil, length_nil] at hloop
  rw [hloop, length_map]
  rfl

theorem repr_ne_empty (n : ℕ) : n.repr ≠ "" := int_ne_empty n

theorem fields_intercalate (items : List String) :
    fields (",".intercalate (items.map lengthField)) = items.map lengthField := by
  by_cases hnil : items = []
  · subst hnil
    rfl
  · have hsplit : split ',' (",".intercalate (items.map lengthField)) = items.map lengthField := by
      refine split_intercalate (by simpa using hnil) fun p hp hmem => ?_
      obtain ⟨s, -, rfl⟩ := mem_map.mp hp
      cases isDigit_repr hmem
    rw [fields, if_neg, hsplit]
    intro hempty
    rw [hempty] at hsplit
    have hfield : "" ∈ items.map lengthField := hsplit ▸ mem_singleton_self ""
    obtain ⟨s, -, hs⟩ := mem_map.mp hfield
    exact repr_ne_empty _ hs

theorem mapM_lengthField (h : ∀ s ∈ items, s.toList.length < 2 ^ 64) :
    (items.map lengthField).mapM parseUsize = some (items.map fun s => s.toList.length) := by
  induction items with
  | nil => rfl
  | cons s items ih =>
    have hs : parseUsize (lengthField s) = some s.toList.length :=
      parseUsize_repr (h s mem_cons_self)
    rw [map_cons, mapM_cons, hs, ih fun s hs => h s (mem_cons_of_mem _ hs)]
    rfl

/-- A packing states its items. -/
theorem states_packed (hlen : items.length < 2 ^ 64)
    (hshort : ∀ s ∈ items, s.toList.length < 2 ^ 64) :
    States (packed items.length.repr (",".intercalate (items.map lengthField)) (String.join items))
      items := by
  refine ⟨_, _, rfl, ?_, ?_, parseUsize_repr hlen, ?_⟩
  · intro hmem
    cases isDigit_repr hmem
  · intro hmem
    rcases mem_intercalate ',' hmem with h | ⟨p, hp, hmem⟩
    · cases h
    · obtain ⟨s, -, rfl⟩ := mem_map.mp hp
      cases isDigit_repr hmem
  · rw [fields_intercalate, mapM_lengthField hshort]

theorem texts_inj {other : List String} (h : texts items = texts other) : items = other := by
  injection h with h
  exact map_injective_iff.mpr (fun s t hst => by injection hst) h

/-- A list is unpacked from its packing, if a second vector for it is granted. -/
theorem unpack_pack (room : ℕ) (l : TextList) : ∃ t, textListPack l.value = .ok (.str t) ∧
    (textListUnpack room t = .ok l.value ↔ l.items.length ≤ room) := by
  have hlen : (l.items.map Str.toString).length * VALUE_SIZE < 2 ^ 63 := by
    rw [length_map]
    exact l.fits
  have hsize : (l.items.map Str.toString).length < 2 ^ 64 := by
    rw [VALUE_SIZE] at hlen
    omega
  have hmost : (l.items.map Str.toString).length ≤ mostValues room ↔ l.items.length ≤ room := by
    rw [le_mostValues, length_map]
    exact ⟨fun h => Nat.not_lt.mp h.2, fun h => ⟨Nat.not_le.mpr l.fits, Nat.not_lt.mpr h⟩⟩
  refine ⟨_, textListPack_eq _, ?_⟩
  rw [textListUnpack_iff, ← hmost]
  constructor
  · rintro ⟨items, hitems, -, hcap⟩
    rw [texts_inj hitems]
    exact hcap
  · refine fun hcap => ⟨_, rfl, states_packed hsize ?_, hcap⟩
    intro s hs
    obtain ⟨s, -, rfl⟩ := mem_map.mp hs
    have hlt := StrOps.Str.length_lt s
    omega

end AxisBridge.TextPack
