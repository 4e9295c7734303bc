import AxisBridge.Emit.Names
import AxisBridge.Emit.TomlValues

/-! The dispatch file: its tables line by line, and which files are read as they were written. -/
namespace AxisBridge.Dispatch
open List String Res Quoting

/-! ### The reader -/

structure RawDispatchEntry where
  name : Option String := none
  path : Option String := none
  nativeArgs : Option (List String) := none
  argKinds : Option (List String) := none
  deriving DecidableEq

section
variable [CharTables] (file : String)

/-- The match on a line's key. -/
def setKey (lineNo : ℕ) (entry : RawDispatchEntry) (key value : String) : Res RawDispatchEntry :=
  if key = "name" then do
    let v ← parseTomlString file lineNo value
    return { entry with name := some v }
  else if key = "path" then do
    let v ← parseTomlString file lineNo value
    return { entry with path := some v }
  else if key = "native_args" then do
    let v ← parseTomlStringArray file lineNo value
    return { entry with nativeArgs := some v }
  else if key = "arg_kinds" then do
    let v ← parseTomlStringArray file lineNo value
    return { entry with argKinds := some v }
  else .error (.err (s!"{file}:{lineNo}: unknown dispatch key " ++ debugStr key))

/-- The body of the loop: the finished entries and the current one. -/
def parseLine (lineNo : ℕ) (st : List RawDispatchEntry × Option RawDispatchEntry)
    (rawLine : String) : Res (List RawDispatchEntry × Option RawDispatchEntry) :=
  let line := stripTomlComment (trim rawLine)
  if line = "" then .ok st
  else if line = "[[fn]]" then .ok (st.1 ++ st.2.toList, some {})
  else
    match st.2 with
    | none => .error (.err s!"{file}:{lineNo}: key outside of any [[fn]] table")
    | some entry =>
      match splitOnce '=' line with
      | none => .error (.err (s!"{file}:{lineNo}: expected `key = value`, got " ++ debugStr line))
      | some (key, value) => do
        let entry ← setKey file lineNo entry (trim key) value
        return (st.1, some entry)

def parseLines : ℕ → List String → List RawDispatchEntry × Option RawDispatchEntry →
    Res (List RawDispatchEntry × Option RawDispatchEntry)
  | _, [], st => .ok st
  | lineNo, rawLine :: rest, st => do
    let st ← parseLine file lineNo st rawLine
    parseLines (lineNo + 1) rest st

def parseDispatchToml (content : String) : Res (List RawDispatchEntry) := do
  let st ← parseLines file 1 (lines content) ([], none)
  return st.1 ++ st.2.toList

end

/-! ### The writer -/

/-- A key with its value. -/
inductive Setting
  | name (s : String)
  | path (s : String)
  | nativeArgs (ts : List String)
  | argKinds (ts : List String)

namespace Setting

def key : Setting → String
  | name _ => "name"
  | path _ => "path"
  | nativeArgs _ => "native_args"
  | argKinds _ => "arg_kinds"

def value : Setting → List Char
  | name s | path s => quoted s
  | nativeArgs ts | argKinds ts => '[' :: listed ts

/-- The value is read as it was written, with this comment behind it. -/
def Kept (comment : Option String) : Setting → Prop
  | name s | path s => StringKept s comment
  | nativeArgs ts | argKinds ts => ArrayKept ts comment

end Setting

def RawDispatchEntry.set (e : RawDispatchEntry) : Setting → RawDispatchEntry
  | .name s => { e with name := some s }
  | .path s => { e with path := some s }
  | .nativeArgs ts => { e with nativeArgs := some ts }
  | .argKinds ts => { e with argKinds := some ts }

/-- A comment that does not end its line. -/
def OneLine (comment : Option String) : Prop := ∀ text ∈ comment, '\n' ∉ text.toList

/-- A key's line. -/
structure KeyLine where
  setting : Setting
  comment : Option String
  one_line : OneLine comment

def KeyLine.text (l : KeyLine) : String :=
  ofList (l.setting.key.toList ++ [' ', '=', ' '] ++ (l.setting.value ++ trailing l.comment))

/-- An entry as it is written: its header, and its keys in some order, each at most once. -/
structure Table where
  comment : Option String
  one_line : OneLine comment
  keyLines : List KeyLine
  nodup : (keyLines.map fun l => l.setting.key).Nodup

def entryOf (settings : List Setting) : RawDispatchEntry := settings.foldl RawDispatchEntry.set {}

namespace Table

def header (t : Table) : String := ofList ("[[fn]]".toList ++ trailing t.comment)

def texts (t : Table) : List String := t.header :: t.keyLines.map KeyLine.text

def entry (t : Table) : RawDispatchEntry := entryOf (t.keyLines.map KeyLine.setting)

end Table

/-- The file. -/
def render (tables : List Table) : String := ended (tables.flatMap Table.texts)

variable {c : Char} {l m : List Char} {s s' : Setting} {ss ss' : List Setting}
  {e : RawDispatchEntry} {comment : Option String} {text : String} {x y : List Char}

/-! ### One line -/

theorem trim_chopReturn (text : String) : trim (chopReturn text) = trim text := by
  by_cases h : text.toList.getLast? = some '\r'
  · have hblank : ∀ c ∈ ("\r" : String).toList, isWhitespace c = true := by
      intro c hc
      rw [mem_singleton.mp hc]
      rfl
    conv_rhs => rw [exists_return h]
    rw [trim_append_blank _ hblank]
  · rw [chopReturn_of_ne h]

/-- What is left of a line: the text up to the comment, without the blanks at its end. -/
theorem strip_trim (hc : isWhitespace c = false) (x : List Char) :
    stripTomlComment (trim (ofList (c :: x))) =
      ofList ((valueOf (c :: x)).rdropWhile isWhitespace) := by
  have htrim : trim (ofList (c :: x)) = ofList ((c :: x).rdropWhile isWhitespace) := by
    rw [rdropWhile_cons hc]
    exact trim_lead [] no_lead hc x
  have hsplit : (c :: x).rdropWhile isWhitespace ++ (c :: x).rtakeWhile isWhitespace = c :: x :=
    rdropWhile_append_rtakeWhile
  have hblank : ∀ d ∈ (c :: x).rtakeWhile isWhitespace, (d == '#') = false := by
    intro d hd
    have hspace := mem_rtakeWhile_imp hd
    apply beq_eq_false_iff_ne.mpr
    rintro rfl
    exact absurd hspace (by decide)
  rw [htrim, stripTomlComment, toList_ofList]
  by_cases hexposed : Exposed '"' (· == '#') false ((c :: x).rdropWhile isWhitespace)
  · obtain ⟨front, d, back, heq, hd, hin, hnot⟩ := exists_first hexposed
    obtain rfl := beq_iff_eq.mp hd
    have hall : c :: x = front ++ '#' :: (back ++ (c :: x).rtakeWhile isWhitespace) := by
      conv_lhs => rw [← hsplit, heq]
      rw [List.append_assoc, List.cons_append]
    conv_rhs => rw [hall, valueOf_hash hnot hin]
    rw [heq, before_mark hnot rfl hin]
    exact congrArg (fun cs => ofList (cs.rdropWhile isWhitespace)) toList_ofList
  · have hwhole : ¬ Exposed '"' (· == '#') false (c :: x) := by
      rw [← hsplit, exposed_append, not_or]
      exact ⟨hexposed, not_exposed_of_forall hblank⟩
    rw [before_of_not_exposed hexposed, valueOf, before_of_not_exposed hwhole, Option.getD_none]

/-- The head of a value is not a blank. -/
theorem value_eq (s : Setting) (comment : Option String) :
    ∃ c x, s.value ++ trailing comment = c :: x ∧ isWhitespace c = false ∧ c ≠ '#' := by
  cases s with
  | name s | path s => exact ⟨'"', _, rfl, rfl, by decide⟩
  | nativeArgs ts | argKinds ts => exact ⟨'[', _, rfl, rfl, by decide⟩

/-- A key is a plain word. -/
theorem key_plain (s : Setting) : (∃ d ds, s.key.toList = d :: ds ∧ d ≠ '[') ∧
    ∀ c ∈ s.key.toList, c ≠ '#' ∧ c ≠ '"' ∧ c ≠ '=' ∧ isWhitespace c = false := by
  have hplain : ∀ (key : String) (d : Char) (ds : List Char), key.toList = d :: ds → d ≠ '[' →
      (key.toList.all fun c => c != '#' && (c != '"' && (c != '=' && !isWhitespace c))) = true →
      (∃ d ds, key.toList = d :: ds ∧ d ≠ '[') ∧
        ∀ c ∈ key.toList, c ≠ '#' ∧ c ≠ '"' ∧ c ≠ '=' ∧ isWhitespace c = false := by
    intro key d ds hkey hd hall
    refine ⟨⟨d, ds, hkey, hd⟩, ?_⟩
    intro c hc
    have hchar := all_eq_true.mp hall c hc
    simpa using hchar
  cases s with
  | name s => exact hplain "name" 'n' _ rfl (by decide) rfl
  | path s => exact hplain "path" 'p' _ rfl (by decide) rfl
  | nativeArgs ts => exact hplain "native_args" 'n' _ rfl (by decide) rfl
  | argKinds ts => exact hplain "arg_kinds" 'a' _ rfl (by decide) rfl

theorem trim_key (s : Setting) : trim (s.key ++ " ") = s.key := by
  obtain ⟨⟨d, ds, hkey, -⟩, hplain⟩ := key_plain s
  have hblank : ∀ c ∈ d :: ds, isWhitespace c = false := by
    intro c hc
    exact (hplain c (hkey ▸ hc)).2.2.2
  have hchars : s.key ++ " " = ofList ([] ++ d :: (ds ++ [' '])) := by
    apply toList_inj.mp
    simp [hkey]
  have hds : ds.rdropWhile isWhitespace = ds := by
    rw [rdropWhile_eq_self_iff]
    intro hne hlast
    rw [hblank _ (mem_cons_of_mem _ (getLast_mem hne))] at hlast
    cases hlast
  rw [hchars, trim_lead [] no_lead (hblank d mem_cons_self),
    rdropWhile_concat_pos _ _ _ (by decide), hds, ← hkey, ofList_toList]

theorem valueOf_cons (hc : c ≠ '#') (x : List Char) : ∃ y, valueOf (c :: x) = c :: y := by
  have hplain : ¬ Exposed '"' (· == '#') false [c] := not_exposed_of_forall (by simpa using hc)
  exact ⟨_, valueOf_append hplain⟩

/-- A key's line, stripped: the key and the text of its value. -/
theorem strip_text (l : KeyLine) : stripTomlComment (trim l.text) = l.setting.key ++ " " ++
    String.singleton '=' ++ valueText (l.setting.value ++ trailing l.comment) := by
  obtain ⟨c, x, hvalue, hc, hhash⟩ := value_eq l.setting l.comment
  obtain ⟨y, hy⟩ := valueOf_cons hhash x
  have hne : (valueOf (c :: x)).rdropWhile isWhitespace ≠ [] := by
    rw [hy, rdropWhile_cons hc]
    exact List.cons_ne_nil _ _
  obtain ⟨⟨d, ds, hkey, -⟩, hplain⟩ := key_plain l.setting
  have hd : isWhitespace d = false := by
    have hmem : d ∈ l.setting.key.toList := by
      rw [hkey]
      exact List.mem_cons_self
    exact (hplain d hmem).2.2.2
  have hhidden : ¬ Exposed '"' (· == '#') false (d :: ds ++ [' ', '=', ' ']) := by
    rw [exposed_append, not_or, ← hkey]
    exact ⟨not_exposed_of_forall fun c hc => beq_eq_false_iff_ne.mpr (hplain c hc).1,
      not_exposed_of_forall (by simp)⟩
  have hinside : inside '"' false (d :: ds ++ [' ', '=', ' ']) = false := by
    have hnone : '"' ∉ d :: ds := by
      rw [← hkey]
      exact fun hmem => (hplain _ hmem).2.1 rfl
    rw [inside_eq_false, count_append, count_eq_zero.mpr hnone]
    simp
  have htext : l.text = ofList (d :: (ds ++ [' ', '=', ' '] ++ (c :: x))) := by
    rw [KeyLine.text, hkey, hvalue]
    rfl
  have hchars : d :: (ds ++ [' ', '=', ' '] ++ (c :: x)) = d :: ds ++ [' ', '=', ' '] ++ (c :: x) :=
    rfl
  rw [htext, strip_trim hd, hchars, valueOf_append_outside hhidden hinside,
    rdropWhile_append_of_ne_nil hne, hvalue, valueText, ← hkey]
  apply toList_inj.mp
  simp

theorem header_eq (t : Table) :
    t.header = ofList (['[', '[', 'f', 'n', ']', ']'] ++ trailing t.comment) := rfl

theorem strip_header (t : Table) : stripTomlComment (trim t.header) = "[[fn]]" := by
  have hplain : ∀ cs : List Char, (cs.all fun c => !(c == '#')) = true →
      ¬ Exposed '"' (· == '#') false cs := by
    intro cs hall
    apply not_exposed_of_forall
    intro c hc
    have hchar := List.all_eq_true.mp hall c hc
    rwa [Bool.not_eq_true'] at hchar
  have hvalue :
      (valueOf (['[', '[', 'f', 'n', ']', ']'] ++ trailing t.comment)).rdropWhile isWhitespace =
        ['[', '[', 'f', 'n', ']', ']'] :=
    valueOf_trailing (hplain _ rfl) rfl fun _ => rfl
  rw [header_eq, List.cons_append, strip_trim rfl]
  exact congrArg ofList hvalue

theorem feed_not_mem_trailing (h : OneLine comment) : '\n' ∉ trailing comment := by
  cases comment with
  | none => exact List.not_mem_nil
  | some text =>
    have htext := h text rfl
    simpa [trailing] using htext

theorem feed_not_mem_value (s : Setting) : '\n' ∉ s.value := by
  cases s with
  | name s => exact feed_not_mem_quoted s
  | path s => exact feed_not_mem_quoted s
  | nativeArgs ts | argKinds ts => simpa [Setting.value] using feed_not_mem_listed ts

/-- No line that is written has a line feed inside. -/
theorem feed_not_mem_texts {t : Table} (h : text ∈ t.texts) : '\n' ∉ text.toList := by
  rw [Table.texts, List.mem_cons, List.mem_map] at h
  cases h with
  | inl h =>
    rw [h, header_eq, toList_ofList, List.mem_append, not_or]
    exact ⟨by simp, feed_not_mem_trailing t.one_line⟩
  | inr h =>
    obtain ⟨l, -, rfl⟩ := h
    obtain ⟨-, hplain⟩ := key_plain l.setting
    have hkey : '\n' ∉ l.setting.key.toList := by
      intro hmem
      have hspace : isWhitespace '\n' = false := (hplain _ hmem).2.2.2
      cases hspace
    rw [KeyLine.text, toList_ofList, List.mem_append, List.mem_append, List.mem_append, not_or,
      not_or, not_or]
    exact ⟨⟨hkey, by simp⟩, feed_not_mem_value _, feed_not_mem_trailing l.one_line⟩

/-! ### The lines in order -/

section
variable [CharTables] (file : String) (lineNo : ℕ)

/-- What is read under a setting's key. -/
def Setting.readAs (v : String) : Setting → Res Setting
  | .name _ => .name <$> parseTomlString file lineNo v
  | .path _ => .path <$> parseTomlString file lineNo v
  | .nativeArgs _ => .nativeArgs <$> parseTomlStringArray file lineNo v
  | .argKinds _ => .argKinds <$> parseTomlStringArray file lineNo v

def KeyLine.read (l : KeyLine) : Res Setting :=
  l.setting.readAs file lineNo (valueText (l.setting.value ++ trailing l.comment))

end

theorem map_eq_ok {α β : Type} {f : α → β} {r : Res α} {b : β} :
    f <$> r = .ok b ↔ ∃ a, r = .ok a ∧ f a = b := by
  cases r with
  | error e => exact iff_of_false nofun (by simp)
  | ok a =>
    have hmap : f <$> (.ok a : Res α) = .ok (f a) := rfl
    rw [hmap]
    simp

section
variable [CharTables] (file : String) (lineNo : ℕ)

theorem readAs_iff (s : Setting) (comment : Option String) :
    s.readAs file lineNo (valueText (s.value ++ trailing comment)) = .ok s ↔ s.Kept comment := by
  cases s with
  | name s | path s =>
    apply Iff.trans _ (parse_string_iff file lineNo)
    exact map_eq_ok.trans (by simp [Setting.value])
  | nativeArgs ts | argKinds ts =>
    apply Iff.trans _ (parse_array_iff file lineNo)
    exact map_eq_ok.trans (by simp [Setting.value])

variable {file lineNo}

theorem key_of_readAs {v : String} (h : s.readAs file lineNo v = .ok s') : s'.key = s.key := by
  cases s with
  | name t | path t | nativeArgs ts | argKinds ts =>
    obtain ⟨v, -, rfl⟩ := map_eq_ok.mp h
    rfl

theorem setKey_key (s : Setting) (v : String) (e : RawDispatchEntry) :
    setKey file lineNo e s.key v =
      (do
        let s' ← s.readAs file lineNo v
        return e.set s') := by
  cases s with
  | name t =>
    have hset : setKey file lineNo e "name" v = _ := if_pos rfl
    refine hset.trans ?_
    rw [Setting.readAs]
    cases parseTomlString file lineNo v <;> rfl
  | path t =>
    have hset : setKey file lineNo e "path" v = _ := (if_neg (by decide)).trans (if_pos rfl)
    refine hset.trans ?_
    rw [Setting.readAs]
    cases parseTomlString file lineNo v <;> rfl
  | nativeArgs ts =>
    have hset : setKey file lineNo e "native_args" v = _ :=
      (if_neg (by decide)).trans ((if_neg (by decide)).trans (if_pos rfl))
    refine hset.trans ?_
    rw [Setting.readAs]
    cases parseTomlStringArray file lineNo v <;> rfl
  | argKinds ts =>
    have hset : setKey file lineNo e "arg_kinds" v = _ :=
      (if_neg (by decide)).trans
        ((if_neg (by decide)).trans ((if_neg (by decide)).trans (if_pos rfl)))
    refine hset.trans ?_
    rw [Setting.readAs]
    cases parseTomlStringArray file lineNo v <;> rfl

theorem parseLine_header (t : Table) (es : List RawDispatchEntry) (cur : Option RawDispatchEntry) :
    parseLine file lineNo (es, cur) (chopReturn t.header) = .ok (es ++ cur.toList, some {}) := by
  have hne : ¬ "[[fn]]" = "" := by decide
  rw [parseLine, trim_chopReturn, strip_header]
  simp

theorem parseLine_text (l : KeyLine) (es : List RawDispatchEntry) (e : RawDispatchEntry) :
    parseLine file lineNo (es, some e) (chopReturn l.text) =
      (do
        let s ← l.read file lineNo
        return (es, some (e.set s))) := by
  obtain ⟨⟨d, ds, hkey, hd⟩, hplain⟩ := key_plain l.setting
  have hhead : ∀ v : String, (l.setting.key ++ " " ++ String.singleton '=' ++ v).toList =
      d :: (ds ++ [' ', '='] ++ v.toList) := by
    intro v
    simp [hkey]
  have hempty : ∀ v : String, ¬ l.setting.key ++ " " ++ String.singleton '=' ++ v = "" := by
    intro v h
    have hchars := congrArg String.toList h
    rw [hhead] at hchars
    cases hchars
  have hheader : ∀ v : String, ¬ l.setting.key ++ " " ++ String.singleton '=' ++ v = "[[fn]]" := by
    intro v h
    have hchars := congrArg String.toList h
    rw [hhead] at hchars
    exact hd (List.cons.inj hchars).1
  have hequals : '=' ∉ (l.setting.key ++ " ").toList := by
    rw [toList_append, List.mem_append, not_or]
    exact ⟨fun hmem => (hplain _ hmem).2.2.1 rfl, by decide⟩
  rw [parseLine, trim_chopReturn, strip_text]
  simp only [if_neg (hempty _), if_neg (hheader _), splitOnce_append hequals, trim_key, setKey_key]
  rw [KeyLine.read]
  cases l.setting.readAs file lineNo _ <;> rfl

end

/-! ### All lines -/

section
variable [CharTables] (file : String)

/-- What is read of some keys' lines. -/
def readAll : ℕ → List KeyLine → Res (List Setting)
  | _, [] => .ok []
  | lineNo, l :: ls => do
    let s ← l.read file lineNo
    let ss ← readAll (lineNo + 1) ls
    return s :: ss

def readTables : ℕ → List Table → Res (List (List Setting))
  | _, [] => .ok []
  | lineNo, t :: ts => do
    let ss ← readAll file (lineNo + 1) t.keyLines
    let rest ← readTables (lineNo + 1 + t.keyLines.length) ts
    return ss :: rest

variable {file} {lineNo : ℕ}

theorem parseLines_texts (ls : List KeyLine) (more : List String) (es : List RawDispatchEntry)
    (e : RawDispatchEntry) (lineNo : ℕ) :
    parseLines file lineNo (ls.map (fun l => chopReturn l.text) ++ more) (es, some e) =
      (do
        let ss ← readAll file lineNo ls
        parseLines file (lineNo + ls.length) more
          (es, some (ss.foldl RawDispatchEntry.set e))) := by
  induction ls generalizing lineNo e with
  | nil => rfl
  | cons l ls ih =>
    rw [List.map_cons, List.cons_append, parseLines, parseLine_text, readAll]
    cases l.read file lineNo with
    | error stop => rfl
    | ok s =>
      have hrest := ih (e.set s) (lineNo + 1)
      have hcount : lineNo + 1 + ls.length = lineNo + (ls.length + 1) := by omega
      rw [hcount] at hrest
      simp only [ok_bind, pure_bind, hrest, List.length_cons]
      cases readAll file (lineNo + 1) ls <;> rfl

theorem parseLines_tables (ts : List Table) (es : List RawDispatchEntry)
    (cur : Option RawDispatchEntry) :
    (do
        let st ← parseLines file lineNo ((ts.flatMap Table.texts).map chopReturn) (es, cur)
        return st.1 ++ st.2.toList : Res (List RawDispatchEntry)) =
      (do
        let sss ← readTables file lineNo ts
        return es ++ cur.toList ++ sss.map entryOf) := by
  induction ts generalizing lineNo es cur with
  | nil =>
    have hnil : es ++ cur.toList ++ ([] : List (List Setting)).map entryOf = es ++ cur.toList := by
      simp
    rw [readTables, ok_bind, hnil]
    rfl
  | cons t ts ih =>
    have htexts :
        ((t :: ts).flatMap Table.texts).map chopReturn = chopReturn t.header :: (t.keyLines.map
          (fun l => chopReturn l.text) ++ (ts.flatMap Table.texts).map chopReturn) := by
      simp [Table.texts, Function.comp_def]
    rw [htexts, parseLines, parseLine_header, ok_bind, parseLines_texts, readTables]
    cases readAll file (lineNo + 1) t.keyLines with
    | error stop => rfl
    | ok ss =>
      rw [ok_bind, ih]
      simp only [ok_bind]
      cases readTables file (lineNo + 1 + t.keyLines.length) ts with
      | error stop => rfl
      | ok sss =>
        have happend : es ++ cur.toList ++ (ss :: sss).map entryOf =
            es ++ cur.toList ++ [entryOf ss] ++ sss.map entryOf := by simp
        simp only [ok_bind, pure_bind, happend]
        rfl

end

/-! ### What an entry has of its lines -/

/-- The entry's value under the setting's key is the setting's. -/
def RawDispatchEntry.Has (e : RawDispatchEntry) : Setting → Prop
  | .name s => e.name = some s
  | .path s => e.path = some s
  | .nativeArgs ts => e.nativeArgs = some ts
  | .argKinds ts => e.argKinds = some ts

theorem has_set (e : RawDispatchEntry) (s : Setting) : (e.set s).Has s := by
  cases s <;> rfl

theorem has_set_of_ne (h : s.key ≠ s'.key) (hs : e.Has s) : (e.set s').Has s := by
  cases s <;> cases s' <;> first | exact hs | exact absurd rfl h

theorem has_unique (hs : e.Has s) (hs' : e.Has s') (h : s.key = s'.key) : s = s' := by
  have hsome : ∀ {α : Type} {o : Option α} {a b : α}, o = some a → o = some b → a = b := by
    rintro α o a b rfl hb
    exact Option.some.inj hb
  cases s <;> cases s' <;> first
    | exact congrArg _ (hsome hs hs')
    | exact absurd h (by simp [Setting.key])

theorem has_foldl (hs : e.Has s) (h : ∀ s' ∈ ss, s.key ≠ s'.key) :
    (ss.foldl RawDispatchEntry.set e).Has s := by
  induction ss generalizing e with
  | nil => exact hs
  | cons s' ss ih =>
    rw [List.forall_mem_cons] at h
    exact ih (has_set_of_ne h.1 hs) h.2

theorem has_of_mem (hnodup : (ss.map Setting.key).Nodup) (h : s ∈ ss) :
    (ss.foldl RawDispatchEntry.set e).Has s := by
  induction ss generalizing e with
  | nil => cases h
  | cons s' ss ih =>
    rw [List.map_cons, List.nodup_cons] at hnodup
    rcases List.mem_cons.mp h with rfl | h
    · apply has_foldl (has_set e s)
      intro s' hs' heq
      exact hnodup.1 (List.mem_map.mpr ⟨s', hs', heq.symm⟩)
    · exact ih hnodup.2 h

/-- An entry tells the settings of its keys. -/
theorem entryOf_inj (hnodup : (ss.map Setting.key).Nodup)
    (hkeys : ss'.map Setting.key = ss.map Setting.key) (h : entryOf ss' = entryOf ss) :
    ss' = ss := by
  have hlen : ss'.length = ss.length := by
    have hlen := congrArg List.length hkeys
    rwa [List.length_map, List.length_map] at hlen
  apply List.ext_getElem hlen
  intro i hi hi'
  have hleft : (entryOf ss').Has ss'[i] := has_of_mem (hkeys ▸ hnodup) (List.getElem_mem hi)
  have hright : (entryOf ss).Has ss[i] := has_of_mem hnodup (List.getElem_mem hi')
  rw [h] at hleft
  apply has_unique hleft hright
  have hkey := congrArg (fun keys => keys[i]?) hkeys
  simpa [hi, hi'] using hkey

section
variable [CharTables] {file : String} {lineNo : ℕ}

theorem keys_of_readAll {ls : List KeyLine} (h : readAll file lineNo ls = .ok ss) :
    ss.map Setting.key = ls.map fun l => l.setting.key := by
  induction ls generalizing lineNo ss with
  | nil =>
    cases h
    rfl
  | cons l ls ih =>
    obtain ⟨s, hs, h⟩ := bind_eq_ok.mp h
    obtain ⟨rest, hrest, h⟩ := bind_eq_ok.mp h
    cases h
    rw [List.map_cons, List.map_cons, key_of_readAs hs, ih hrest]

theorem readAll_iff (file : String) (lineNo : ℕ) (ls : List KeyLine) :
    readAll file lineNo ls = .ok (ls.map KeyLine.setting) ↔ ∀ l ∈ ls, l.setting.Kept l.comment := by
  induction ls generalizing lineNo with
  | nil => exact iff_of_true rfl nofun
  | cons l ls ih =>
    rw [List.forall_mem_cons, ← ih (lineNo + 1), ← readAs_iff file lineNo]
    constructor
    · intro h
      obtain ⟨s, hs, h⟩ := bind_eq_ok.mp h
      obtain ⟨rest, hrest, h⟩ := bind_eq_ok.mp h
      cases h
      exact ⟨hs, hrest⟩
    · rintro ⟨hs, hrest⟩
      exact bind_eq_ok.mpr ⟨_, hs, bind_eq_ok.mpr ⟨_, hrest, rfl⟩⟩

/-- The entries that are read are those that were written just when every value is kept. -/
theorem readTables_iff (file : String) (lineNo : ℕ) (ts : List Table) :
    (∃ sss, readTables file lineNo ts = .ok sss ∧ sss.map entryOf = ts.map Table.entry) ↔
      ∀ t ∈ ts, ∀ l ∈ t.keyLines, l.setting.Kept l.comment := by
  induction ts generalizing lineNo with
  | nil => exact iff_of_true ⟨[], rfl, rfl⟩ nofun
  | cons t ts ih =>
    rw [List.forall_mem_cons, ← ih (lineNo + 1 + t.keyLines.length),
      ← readAll_iff file (lineNo + 1)]
    constructor
    · rintro ⟨sss, h, heq⟩
      obtain ⟨ss, hss, h⟩ := bind_eq_ok.mp h
      obtain ⟨rest, hrest, h⟩ := bind_eq_ok.mp h
      cases h
      obtain ⟨hentry, hentries⟩ := List.cons.inj heq
      have hkeys := keys_of_readAll hss
      have hsame : ss = t.keyLines.map KeyLine.setting := by
        apply entryOf_inj _ _ hentry
        · rw [List.map_map]
          exact t.nodup
        · rw [hkeys, List.map_map]
          rfl
      exact ⟨hsame ▸ hss, rest, hrest, hentries⟩
    · rintro ⟨hss, rest, hrest, heq⟩
      refine ⟨_ :: rest, bind_eq_ok.mpr ⟨_, hss, bind_eq_ok.mpr ⟨_, hrest, rfl⟩⟩, ?_⟩
      rw [List.map_cons, List.map_cons, heq]
      rfl

/-- The loop over a file that was written: line after line, the values alone. -/
theorem parse_render (file : String) (tables : List Table) :
    parseDispatchToml file (render tables) =
      (do
        let sss ← readTables file 1 tables
        return sss.map entryOf) := by
  have hfeed : ∀ text ∈ tables.flatMap Table.texts, '\n' ∉ text.toList := by
    intro text htext
    obtain ⟨t, -, htext⟩ := List.mem_flatMap.mp htext
    exact feed_not_mem_texts htext
  have hlines : lines (render tables) = (tables.flatMap Table.texts).map chopReturn := by
    have hended := lines_ended hfeed (r := "") List.not_mem_nil
    rwa [append_empty, if_pos rfl, List.append_nil] at hended
  rw [parseDispatchToml, hlines, parseLines_tables]
  rfl

end

/-- A file that was written is read as it was written just when every value is kept. -/
theorem parseDispatchToml_iff [CharTables] (file : String) (tables : List Table) :
    parseDispatchToml file (render tables) = .ok (tables.map Table.entry) ↔
      ∀ t ∈ tables, ∀ l ∈ t.keyLines, l.setting.Kept l.comment := by
  rw [parse_render, ← readTables_iff file 1, bind_eq_ok]
  constructor
  · rintro ⟨sss, hsss, heq⟩
    exact ⟨sss, hsss, Except.ok.inj heq⟩
  · rintro ⟨sss, hsss, heq⟩
    exact ⟨sss, hsss, congrArg Except.ok heq⟩

attribute [local instance] asciiTables

/-- A name with a quote and a hash. -/
def quoteHash : Table where
  comment := none
  one_line := nofun
  keyLines := [⟨.name "a\"#b", none, nofun⟩]
  nodup := by decide

/-- The quote of the name ends the string for the comment scan, and the hash starts a comment. -/
theorem parseDispatchToml_quote_hash :
    render [quoteHash] = "[[fn]]\nname = \"a\\\"#b\"\n" ∧
      parseDispatchToml "f" (render [quoteHash]) =
        .error (.err "f:2: dangling escape at end of string") :=
  ⟨rfl, rfl⟩

end AxisBridge.Dispatch
