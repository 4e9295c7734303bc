import AxisBridge.Emit.Module
import AxisBridge.Lib.Quoting
import AxisBridge.Runtime.Cuts

/-! The values of a dispatch file: strings with escapes, arrays of them, and the comment behind a
value. The comment and the commas are found by counting quotes, before the escapes are read. -/
namespace AxisBridge.Dispatch
open List Quoting
open String (ofList toList_ofList)

/-! ### The reader -/

/-- `str::trim_end`. -/
def trimEnd (s : String) : String := ofList (s.toList.rdropWhile isWhitespace)

def stripTomlComment (s : String) : String :=
  match before '"' (· == '#') false s.toList with
  | some cs => trimEnd (ofList cs)
  | none => s

section
variable (file : String) (line : ℕ)

/-- The loop over the characters between the quotes. -/
def unescape : List Char → Res (List Char)
  | [] => .ok []
  | '\\' :: '"' :: cs => ('"' :: ·) <$> unescape cs
  | '\\' :: '\\' :: cs => ('\\' :: ·) <$> unescape cs
  | '\\' :: 'n' :: cs => ('\n' :: ·) <$> unescape cs
  | '\\' :: 't' :: cs => ('\t' :: ·) <$> unescape cs
  | '\\' :: other :: _ => .error (.err s!"{file}:{line}: unsupported escape \\{other}")
  | ['\\'] => .error (.err s!"{file}:{line}: dangling escape at end of string")
  | c :: cs => (c :: ·) <$> unescape cs

variable [CharTables]

def parseTomlString (v : String) : Res String :=
  let v := trim v
  match v.toList with
  | '"' :: rest =>
    if rest.getLast? = some '"' then ofList <$> unescape file line rest.dropLast
    else .error (.err (s!"{file}:{line}: expected a quoted string, got " ++ debugStr v))
  | _ => .error (.err (s!"{file}:{line}: expected a quoted string, got " ++ debugStr v))

/-- The loop over the characters between the brackets: blank pieces are left out. -/
def parseItems (inner : List Char) : Res (List String) :=
  (((pieces '"' (· == ',') false inner).map fun piece => trim (ofList piece)).filter
    (· ≠ "")).mapM (parseTomlString file line)

def parseTomlStringArray (v : String) : Res (List String) :=
  let v := trim v
  match v.toList with
  | '[' :: rest =>
    if rest.getLast? = some ']' then parseItems file line rest.dropLast
    else .error (.err (s!"{file}:{line}: expected an array, got " ++ debugStr v))
  | _ => .error (.err (s!"{file}:{line}: expected an array, got " ++ debugStr v))

end

/-! ### The writer -/

def escChar : Char → List Char
  | '"' => ['\\', '"']
  | '\\' => ['\\', '\\']
  | '\n' => ['\\', 'n']
  | '\t' => ['\\', 't']
  | c => [c]

def esc (cs : List Char) : List Char := cs.flatMap escChar

/-- A basic string. -/
def quoted (s : String) : List Char := '"' :: esc s.toList ++ ['"']

/-- The items of an array behind the opening bracket, and the closing one. -/
def listed : List String → List Char
  | [] => [']']
  | [t] => quoted t ++ [']']
  | t :: u :: ts => quoted t ++ [',', ' '] ++ listed (u :: ts)

/-- A trailing comment. -/
def trailing : Option String → List Char
  | none => []
  | some comment => ' ' :: '#' :: comment.toList

/-! ### What the reader finds again -/

/-- No mark of the text stands behind an odd number of its quotes. -/
def Hidden (marks : List Char) (t : String) : Prop :=
  ∀ front c back, t.toList = front ++ c :: back → c ∈ marks → Even (front.count '"')

def EvenQuotes (t : String) : Prop := Even (t.toList.count '"')

/-- A string is found again. -/
def StringKept (s : String) (comment : Option String) : Prop :=
  Hidden ['#'] s ∧ (comment ≠ none → EvenQuotes s)

/-- All items are found again: what follows an item needs its quotes in pairs. -/
def ArrayKept : List String → Option String → Prop
  | [], _ => True
  | [t], comment => Hidden ['#', ','] t ∧ (comment ≠ none → EvenQuotes t)
  | t :: u :: ts, comment => Hidden ['#', ','] t ∧ EvenQuotes t ∧ ArrayKept (u :: ts) comment

variable {c : Char} {cs front back l m rest lead x : List Char} {s t : String} {ts : List String}
  {b : Bool} {comment : Option String} {p : Char → Bool}

/-! ### Escapes -/

theorem escChar_cases (c : Char) : c = '"' ∨ c = '\\' ∨ c = '\n' ∨ c = '\t' ∨
    (c ≠ '"' ∧ c ≠ '\\' ∧ c ≠ '\n' ∧ c ≠ '\t' ∧ escChar c = [c]) := by
  by_cases hquote : c = '"'
  · exact .inl hquote
  · by_cases hslash : c = '\\'
    · exact .inr (.inl hslash)
    · by_cases hfeed : c = '\n'
      · exact .inr (.inr (.inl hfeed))
      · by_cases htab : c = '\t'
        · exact .inr (.inr (.inr (.inl htab)))
        · refine .inr (.inr (.inr (.inr ⟨hquote, hslash, hfeed, htab, ?_⟩)))
          unfold escChar
          split <;> simp_all

@[simp] theorem esc_nil : esc [] = [] := rfl

@[simp] theorem esc_cons : esc (c :: cs) = escChar c ++ esc cs := flatMap_cons

@[simp] theorem esc_append : esc (l ++ m) = esc l ++ esc m := flatMap_append

theorem feed_not_mem_esc (cs : List Char) : '\n' ∉ esc cs := by
  intro h
  obtain ⟨c, -, hc⟩ := mem_flatMap.mp h
  rcases escChar_cases c with rfl | rfl | rfl | rfl | ⟨-, -, hfeed, -, heq⟩
  · revert hc
    decide
  · revert hc
    decide
  · revert hc
    decide
  · revert hc
    decide
  · rw [heq] at hc
    exact hfeed (mem_singleton.mp hc).symm

theorem feed_not_mem_quoted (s : String) : '\n' ∉ quoted s := by
  have hesc := feed_not_mem_esc s.toList
  simpa [quoted] using hesc

theorem feed_not_mem_listed : ∀ ts : List String, '\n' ∉ listed ts
  | [] => by decide
  | [t] => by simpa [listed] using feed_not_mem_quoted t
  | t :: u :: ts => by
    have ih := feed_not_mem_listed (u :: ts)
    simpa [listed, feed_not_mem_quoted t] using ih

theorem unescape_escChar (file : String) (line : ℕ) (c : Char) (rest : List Char) :
    unescape file line (escChar c ++ rest) = (c :: ·) <$> unescape file line rest := by
  rcases escChar_cases c with rfl | rfl | rfl | rfl | ⟨-, hslash, -, -, hc⟩
  · rfl
  · rfl
  · rfl
  · rfl
  · rw [hc, singleton_append, unescape.eq_def]
    split <;> simp_all

theorem unescape_esc (file : String) (line : ℕ) (cs rest : List Char) :
    unescape file line (esc cs ++ rest) = (cs ++ ·) <$> unescape file line rest := by
  induction cs with
  | nil => cases h : unescape file line rest <;> simp [h]
  | cons c cs ih =>
    rw [esc_cons, append_assoc, unescape_escChar, ih]
    cases unescape file line rest <;> rfl

/-- The last character of an escaped text is one of its own, or the second one of an escape. -/
theorem esc_concat {d : Char} (h : esc cs = l ++ [d]) : ∃ cs' c, cs = cs' ++ [c] ∧
    (c = '"' ∧ d = '"' ∧ l = esc cs' ++ ['\\'] ∨ (d = '\\' ∨ d = 'n' ∨ d = 't') ∨
      d ≠ '"' ∧ c = d ∧ l = esc cs') := by
  rcases eq_nil_or_concat cs with rfl | ⟨cs', c, rfl⟩
  · exact absurd h.symm (by simp)
  · refine ⟨cs', c, concat_eq_append, ?_⟩
    rw [concat_eq_append, esc_append, esc_cons, esc_nil, append_nil] at h
    rcases escChar_cases c with rfl | rfl | rfl | rfl | ⟨hquote, -, -, -, hc⟩
    · have hlast : esc cs' ++ ['\\'] ++ ['"'] = l ++ [d] := by rw [append_assoc]; exact h
      obtain ⟨hl, hd⟩ := append_inj' hlast rfl
      exact .inl ⟨rfl, (singleton_inj.mp hd).symm, hl.symm⟩
    · have hlast : esc cs' ++ ['\\'] ++ ['\\'] = l ++ [d] := by rw [append_assoc]; exact h
      exact .inr (.inl (.inl (singleton_inj.mp (append_inj' hlast rfl).2).symm))
    · have hlast : esc cs' ++ ['\\'] ++ ['n'] = l ++ [d] := by rw [append_assoc]; exact h
      exact .inr (.inl (.inr (.inl (singleton_inj.mp (append_inj' hlast rfl).2).symm)))
    · have hlast : esc cs' ++ ['\\'] ++ ['t'] = l ++ [d] := by rw [append_assoc]; exact h
      exact .inr (.inl (.inr (.inr (singleton_inj.mp (append_inj' hlast rfl).2).symm)))
    · rw [hc] at h
      obtain ⟨hl, hd⟩ := append_inj' h rfl
      have heq := singleton_inj.mp hd
      exact .inr (.inr ⟨heq ▸ hquote, heq, hl.symm⟩)

/-! ### Blanks at the end -/

/-- An escaped text without the blanks at its end is an escaped text. -/
theorem rdropWhile_esc (cs : List Char) :
    ∃ cs', (esc cs).rdropWhile isWhitespace = esc cs' ∧ cs' <+: cs := by
  induction cs using reverseRecOn with
  | nil => exact ⟨[], rfl, prefix_rfl⟩
  | append_singleton cs c ih =>
    have hwhole : ∀ d, escChar c = ['\\', d] → isWhitespace d = false → ∃ cs',
        (esc (cs ++ [c])).rdropWhile isWhitespace = esc cs' ∧ cs' <+: cs ++ [c] := by
      intro d hd hblank
      refine ⟨cs ++ [c], ?_, prefix_rfl⟩
      have hend : esc (cs ++ [c]) = esc cs ++ ['\\'] ++ [d] := by
        rw [esc_append, esc_cons, esc_nil, append_nil, hd, append_assoc]
        rfl
      rw [hend]
      exact rdropWhile_concat_neg _ _ _ (by simp [hblank])
    rcases escChar_cases c with rfl | rfl | rfl | rfl | ⟨-, -, -, -, hc⟩
    · exact hwhole '"' rfl rfl
    · exact hwhole '\\' rfl rfl
    · exact hwhole 'n' rfl rfl
    · exact hwhole 't' rfl rfl
    · rw [esc_append, esc_cons, esc_nil, append_nil, hc]
      by_cases hblank : isWhitespace c = true
      · obtain ⟨cs', heq, hpre⟩ := ih
        rw [rdropWhile_concat_pos _ _ _ hblank]
        exact ⟨cs', heq, hpre.trans (prefix_append _ _)⟩
      · refine ⟨cs ++ [c], ?_, prefix_rfl⟩
        rw [rdropWhile_concat_neg _ _ _ hblank, esc_append, esc_cons, esc_nil, append_nil, hc]

/-! ### What stands outside quotes -/

/-- The marks of a comment and of an array. -/
def both (c : Char) : Bool := c == '#' || c == ','

theorem not_exposed_hash (h : ¬ Exposed '"' both b cs) : ¬ Exposed '"' (· == '#') b cs := by
  rintro ⟨front, c, back, rfl, hc, hin⟩
  exact h ⟨front, c, back, rfl, by simp [both, hc], hin⟩

theorem not_exposed_comma (h : ¬ Exposed '"' both b cs) : ¬ Exposed '"' (· == ',') b cs := by
  rintro ⟨front, c, back, rfl, hc, hin⟩
  exact h ⟨front, c, back, rfl, by simp [both, hc], hin⟩

@[simp] theorem inside_escChar : inside '"' b (escChar c) = turned '"' b c := by
  rcases escChar_cases c with rfl | rfl | rfl | rfl | ⟨-, -, -, -, hc⟩
  · rfl
  · rfl
  · rfl
  · rfl
  · rw [hc]
    rfl

@[simp] theorem inside_esc : inside '"' b (esc cs) = inside '"' b cs := by
  induction cs generalizing b with
  | nil => rfl
  | cons c cs ih => rw [esc_cons, inside_append, inside_escChar, ih, inside_cons]

theorem exposed_escChar (hp : ∀ c, p c = true → both c = true) :
    Exposed '"' p b (escChar c) ↔ p c = true ∧ b = false := by
  have hplain : ∀ d, both d = false → p d = false := by
    intro d hd
    by_contra hnot
    rw [hp d (Bool.not_eq_false _ ▸ hnot)] at hd
    cases hd
  have hpair : ∀ d, both c = false → both d = false → escChar c = ['\\', d] →
      (Exposed '"' p b (escChar c) ↔ p c = true ∧ b = false) := by
    intro d hc hd heq
    rw [heq, hplain c hc]
    refine iff_of_false (not_exposed_of_forall ?_) (by simp)
    simp only [mem_cons, not_mem_nil, or_false, forall_eq_or_imp, forall_eq]
    exact ⟨hplain _ rfl, hplain _ hd⟩
  rcases escChar_cases c with rfl | rfl | rfl | rfl | ⟨-, -, -, -, hc⟩
  · exact hpair '"' rfl rfl rfl
  · exact hpair '\\' rfl rfl rfl
  · exact hpair 'n' rfl rfl rfl
  · exact hpair 't' rfl rfl rfl
  · rw [hc, exposed_cons]
    simp [not_exposed_nil]

theorem exposed_esc (hp : ∀ c, p c = true → both c = true) :
    Exposed '"' p b (esc cs) ↔ Exposed '"' p b cs := by
  induction cs generalizing b with
  | nil => rfl
  | cons c cs ih =>
    rw [esc_cons, exposed_append, exposed_escChar hp, inside_escChar, ih, exposed_cons]

theorem both_of_hash (c : Char) (h : (c == '#') = true) : both c = true := by
  rw [both, h, Bool.true_or]

theorem both_of_comma (c : Char) (h : (c == ',') = true) : both c = true := by
  rw [both, h, Bool.or_true]

/-- In quotes, a text hides its marks as long as they stand behind pairs of quotes. -/
theorem hidden_iff {marks : List Char} (hp : ∀ c, p c = true ↔ c ∈ marks) :
    Hidden marks t ↔ ¬ Exposed '"' p true t.toList := by
  constructor
  · rintro h ⟨front, c, back, heq, hc, hin⟩
    have heven := h front c back heq ((hp c).mp hc)
    exact (inside_eq_false.mp hin).mp rfl heven
  · intro h front c back heq hc
    by_contra hodd
    exact h ⟨front, c, back, heq, (hp c).mpr hc, inside_eq_false.mpr (iff_of_true rfl hodd)⟩

theorem hidden_hash_iff : Hidden ['#'] t ↔ ¬ Exposed '"' (· == '#') true t.toList :=
  hidden_iff (by simp)

theorem hidden_both_iff : Hidden ['#', ','] t ↔ ¬ Exposed '"' both true t.toList :=
  hidden_iff (by simp [both])

theorem evenQuotes_iff : EvenQuotes t ↔ inside '"' true t.toList = true := by
  rw [← Bool.not_eq_false, inside_eq_false, EvenQuotes]
  simp

/-! ### One string -/

theorem inside_quoted : inside '"' false (quoted t) = !(inside '"' true t.toList) := by
  have hopen : turned '"' false '"' = true := rfl
  have hclose : ∀ b, turned '"' b '"' = !b := fun b => rfl
  rw [quoted, cons_append, inside_cons, hopen, inside_append, inside_esc, inside_cons, hclose,
    inside_nil]

theorem exposed_quoted (hp : ∀ c, p c = true → both c = true) :
    Exposed '"' p false (quoted t) ↔ Exposed '"' p true t.toList := by
  have hquote : p '"' = false := by
    by_contra hnot
    exact absurd (hp '"' (Bool.not_eq_false _ ▸ hnot)) (by decide)
  have hopen : turned '"' false '"' = true := rfl
  rw [quoted, cons_append, exposed_cons, hquote, hopen, exposed_append, exposed_esc hp,
    exposed_cons, hquote]
  simp [not_exposed_nil]

theorem not_exposed_open (hp : ∀ c, p c = true → both c = true) (h : ¬ Exposed '"' p true cs) :
    ¬ Exposed '"' p false ('"' :: esc cs) := by
  have hquote : p '"' = false := by
    by_contra htrue
    exact absurd (hp '"' (Bool.not_eq_false _ ▸ htrue)) (by decide)
  rw [exposed_cons, not_or, hquote]
  exact ⟨by simp, (exposed_esc hp).not.mpr h⟩

/-- What the reader takes for the value: the text up to a comment. -/
def valueOf (x : List Char) : List Char := (before '"' (· == '#') false x).getD x

/-- Behind a text without comment marks outside quotes, the value goes on. -/
theorem valueOf_append (h : ¬ Exposed '"' (· == '#') false l) :
    valueOf (l ++ m) = l ++ (before '"' (· == '#') (inside '"' false l) m).getD m := by
  rw [valueOf, before_append h]
  cases before '"' (· == '#') (inside '"' false l) m <;> rfl

theorem valueOf_append_outside (h : ¬ Exposed '"' (· == '#') false l)
    (hin : inside '"' false l = false) : valueOf (l ++ m) = l ++ valueOf m := by
  rw [valueOf_append h, hin, valueOf]

theorem valueOf_hash (h : ¬ Exposed '"' (· == '#') false l) (hin : inside '"' false l = false) :
    valueOf (l ++ '#' :: m) = l := by
  rw [valueOf, before_mark h rfl hin, Option.getD_some]

/-- In quotes, the mark of a comment is an ordinary character. -/
theorem not_blank_behind (hc : isWhitespace c = false) (m : List Char) :
    ((before '"' (· == '#') true (' ' :: c :: m)).getD (' ' :: c :: m)).rdropWhile isWhitespace ≠
      [] := by
  have hplain : ¬ Exposed '"' (· == '#') true [' ', c] := by
    rw [exposed_cons, exposed_cons]
    simp [turned, not_exposed_nil]
  have hgo : (before '"' (· == '#') true (' ' :: c :: m)).getD (' ' :: c :: m) =
      [' ', c] ++ (before '"' (· == '#') (inside '"' true [' ', c]) m).getD m := by
    have happend := before_append (m := m) hplain
    rw [cons_append, singleton_append] at happend
    rw [happend]
    cases before '"' (· == '#') (inside '"' true [' ', c]) m <;> rfl
  have hend : ([' ', c] ++ (before '"' (· == '#') (inside '"' true [' ', c]) m).getD m).rdropWhile
      isWhitespace = [' ', c] ++ _ := rdropWhile_append (l := [' ']) hc
  rw [hgo, hend]
  exact cons_ne_nil _ _

/-- The text of a value in its line, without the blanks at its end. -/
def valueText (x : List Char) : String :=
  ofList ([' '] ++ (valueOf x).rdropWhile isWhitespace)

theorem rdropWhile_quoted (t : String) : (quoted t).rdropWhile isWhitespace = quoted t :=
  rdropWhile_concat_neg _ _ _ (by decide)

theorem rdropWhile_quoted_append (t : String) (m : List Char) :
    (quoted t ++ m).rdropWhile isWhitespace = quoted t ++ m.rdropWhile isWhitespace :=
  rdropWhile_append rfl

theorem listed_eq (u : String) (ts : List String) : ∃ y, listed (u :: ts) = quoted u ++ y := by
  cases ts with
  | nil => exact ⟨_, rfl⟩
  | cons v ts => exact ⟨[',', ' '] ++ listed (v :: ts), append_assoc ..⟩

/-- Outside quotes, a text with a comment behind it ends in front of the comment. -/
theorem valueOf_trailing (h : ¬ Exposed '"' (· == '#') false l)
    (hend : l.rdropWhile isWhitespace = l) (hin : comment ≠ none → inside '"' false l = false) :
    (valueOf (l ++ trailing comment)).rdropWhile isWhitespace = l := by
  cases comment with
  | none =>
    rw [trailing, append_nil, valueOf, before_of_not_exposed h, Option.getD_none, hend]
  | some comment =>
    have hblank : ¬ Exposed '"' (· == '#') false (l ++ [' ']) := by
      rw [exposed_append, not_or]
      exact ⟨h, not_exposed_of_forall (by simp)⟩
    have hinside : inside '"' false (l ++ [' ']) = false := by
      rw [inside_append, hin (Option.some_ne_none _)]
      rfl
    have hsplit : l ++ trailing (some comment) = (l ++ [' ']) ++ '#' :: comment.toList := by
      simp [trailing]
    rw [hsplit, valueOf_hash hblank hinside, rdropWhile_concat_pos _ _ _ (by decide), hend]

theorem not_blank (lead : List Char) (hlead : ∀ c ∈ lead, isWhitespace c = true) :
    trim (ofList (lead ++ '"' :: rest)) ≠ "" := by
  rw [trim_lead lead hlead rfl rest]
  intro h
  have hchars := congrArg String.toList h
  rw [toList_ofList] at hchars
  cases hchars

variable [CharTables] {file : String} {line : ℕ}

theorem parseTomlString_eq_ok (lead : List Char) (hlead : ∀ c ∈ lead, isWhitespace c = true) :
    parseTomlString file line (ofList (lead ++ '"' :: rest)) = .ok t ↔ ∃ body,
      rest.rdropWhile isWhitespace = body ++ ['"'] ∧ unescape file line body = .ok t.toList := by
  have htrim : (trim (ofList (lead ++ '"' :: rest))).toList =
      '"' :: rest.rdropWhile isWhitespace := by
    rw [trim_lead lead hlead rfl rest, toList_ofList]
  simp only [parseTomlString, htrim]
  constructor
  · intro h
    split at h
    · next hlast =>
      obtain ⟨body, hbody⟩ := getLast?_eq_some_iff.mp hlast
      refine ⟨body, hbody, ?_⟩
      rw [hbody, dropLast_concat] at h
      cases hun : unescape file line body with
      | error e =>
        rw [hun] at h
        cases h
      | ok cs =>
        rw [hun] at h
        cases h
        rw [toList_ofList]
    · cases h
  · rintro ⟨body, hbody, hun⟩
    rw [hbody, getLast?_concat, if_pos rfl, dropLast_concat, hun]
    exact congrArg Except.ok String.ofList_toList

/-- A string that ends where it was written to end. -/
theorem parse_quoted (lead : List Char) (hlead : ∀ c ∈ lead, isWhitespace c = true) :
    parseTomlString file line (ofList (lead ++ quoted t)) = .ok t := by
  apply (parseTomlString_eq_ok lead hlead).mpr
  refine ⟨esc t.toList, rdropWhile_concat_neg _ _ _ (by decide), ?_⟩
  have hun := unescape_esc file line t.toList []
  rw [append_nil] at hun
  rw [hun]
  exact congrArg Except.ok (append_nil _)

/-- With more behind its end, the string is not itself. -/
theorem parse_quoted_more (lead : List Char) (hlead : ∀ c ∈ lead, isWhitespace c = true)
    (hm : m.rdropWhile isWhitespace ≠ []) :
    parseTomlString file line (ofList (lead ++ (quoted t ++ m))) ≠ .ok t := by
  have hchars : quoted t ++ m = '"' :: (esc t.toList ++ ['"'] ++ m) := rfl
  rw [hchars]
  intro h
  obtain ⟨body, hbody, hun⟩ := (parseTomlString_eq_ok lead hlead).mp h
  rw [rdropWhile_append rfl] at hbody
  rcases eq_nil_or_concat (m.rdropWhile isWhitespace) with hnil | ⟨more, d, hmore⟩
  · exact hm hnil
  · rw [hmore, concat_eq_append, ← append_assoc] at hbody
    obtain ⟨rfl, -⟩ := append_inj' hbody rfl
    rw [append_assoc, unescape_esc] at hun
    have hquote : unescape file line (['"'] ++ more) = ('"' :: ·) <$> unescape file line more := rfl
    rw [hquote] at hun
    cases hmore : unescape file line more with
    | error e =>
      rw [hmore] at hun
      cases hun
    | ok cs =>
      rw [hmore] at hun
      have hchars := congrArg List.length (Except.ok.inj hun)
      simp at hchars

/-- A string that was cut in front of its end is an error. -/
theorem parse_cut (lead : List Char) (hlead : ∀ c ∈ lead, isWhitespace c = true) :
    parseTomlString file line (ofList (lead ++ '"' :: esc cs)) ≠ .ok t := by
  intro h
  obtain ⟨body, hbody, hun⟩ := (parseTomlString_eq_ok lead hlead).mp h
  obtain ⟨cs', heq, -⟩ := rdropWhile_esc cs
  rw [heq] at hbody
  obtain ⟨front, c, -, ⟨-, -, rfl⟩ | hescape | ⟨hquote, -⟩⟩ := esc_concat hbody
  · rw [unescape_esc] at hun
    cases hun
  · revert hescape
    decide
  · exact hquote rfl

/-- A string is read as it was written exactly when it is kept. -/
theorem parse_string_iff (file : String) (line : ℕ) :
    parseTomlString file line (valueText (quoted s ++ trailing comment)) = .ok s ↔
      StringKept s comment := by
  rw [StringKept, hidden_hash_iff, evenQuotes_iff]
  by_cases hexposed : Exposed '"' (· == '#') true s.toList
  · -- the comment seems to begin inside the string
    refine iff_of_false ?_ fun h => h.1 hexposed
    obtain ⟨front, c, back, heq, hc, hin, hnot⟩ := exists_first hexposed
    obtain rfl := beq_iff_eq.mp hc
    have hsplit : quoted s ++ trailing comment =
        ('"' :: esc front) ++ '#' :: (esc back ++ ['"'] ++ trailing comment) := by
      rw [quoted, heq, esc_append, esc_cons]
      simp [escChar]
    have hfront : ¬ Exposed '"' (· == '#') false ('"' :: esc front) := by
      rw [exposed_cons, not_or]
      exact ⟨by decide, (exposed_esc both_of_hash).not.mpr hnot⟩
    have hinside : inside '"' false ('"' :: esc front) = false := inside_esc.trans hin
    obtain ⟨cs', hcut, -⟩ := rdropWhile_esc front
    rw [valueText, hsplit, valueOf_hash hfront hinside, rdropWhile_cons rfl, hcut]
    exact parse_cut [' '] blank_lead
  · have hquoted : ¬ Exposed '"' (· == '#') false (quoted s) :=
      (exposed_quoted both_of_hash).not.mpr hexposed
    by_cases hkept : comment ≠ none → inside '"' true s.toList = true
    · refine iff_of_true ?_ ⟨hexposed, hkept⟩
      have hinside : comment ≠ none → inside '"' false (quoted s) = false := by
        intro hsome
        rw [inside_quoted, hkept hsome]
        rfl
      rw [valueText, valueOf_trailing hquoted (rdropWhile_quoted s) hinside]
      exact parse_quoted [' '] blank_lead
    · -- the closing quote opens another string, and the comment is a part of it
      refine iff_of_false ?_ fun h => hkept h.2
      rw [Classical.not_imp, Bool.not_eq_true] at hkept
      obtain ⟨hsome, hparity⟩ := hkept
      obtain ⟨comment, rfl⟩ := Option.ne_none_iff_exists'.mp hsome
      rw [trailing, valueText, valueOf_append hquoted, inside_quoted, hparity,
        rdropWhile_quoted_append]
      apply parse_quoted_more [' '] blank_lead
      rw [rdropWhile_idem]
      exact not_blank_behind rfl comment.toList

theorem parseTomlString_trim (v : String) :
    parseTomlString file line (trim v) = parseTomlString file line v := by
  simp only [parseTomlString, trim_trim]

variable {more : List (List Char)} {inner z : List Char}

/-- The items are the string of the first piece and those of the pieces behind it. -/
theorem parseItems_cons {piece : List Char}
    (hpieces : pieces '"' (· == ',') false inner = piece :: more)
    (hne : trim (ofList piece) ≠ "") : parseItems file line inner =
      (do
        let t ← parseTomlString file line (ofList piece)
        let ts ← ((more.map fun piece => trim (ofList piece)).filter (· ≠ "")).mapM
          (parseTomlString file line)
        return t :: ts) := by
  rw [parseItems, hpieces, map_cons, filter_cons_of_pos (by simpa using hne), mapM_cons,
    parseTomlString_trim]

/-- An item up to the comma behind it. -/
theorem parseItems_comma (h : ¬ Exposed '"' (· == ',') false l) (hin : inside '"' false l = false)
    (hne : trim (ofList l) ≠ "") : parseItems file line (l ++ ',' :: m) =
      (do
        let t ← parseTomlString file line (ofList l)
        let ts ← parseItems file line m
        return t :: ts) :=
  parseItems_cons (pieces_mark rfl h rfl hin) hne

theorem parseItems_blank (m : List Char) :
    parseItems file line (' ' :: m) = parseItems file line m := by
  have hskip : ∀ piece, trim (ofList (' ' :: piece)) = trim (ofList piece) := by
    intro piece
    simp only [trim, toList_ofList]
    rw [dropWhile_cons_of_pos (by decide)]
  have hpieces : pieces '"' (· == ',') false (' ' :: m) =
      (pieces '"' (· == ',') false m).modifyHead (' ' :: ·) := rfl
  rw [parseItems, parseItems, hpieces]
  cases pieces '"' (· == ',') false m with
  | nil => rfl
  | cons piece more => rw [modifyHead_cons, map_cons, map_cons, hskip]

/-- If the first piece is not the text's string, its items are not those of a list that begins with
the text. -/
theorem parseItems_ne {piece : List Char}
    (hpieces : pieces '"' (· == ',') false inner = piece :: more)
    (hne : trim (ofList piece) ≠ "")
    (hparse : parseTomlString file line (ofList piece) ≠ .ok t) :
    parseItems file line inner ≠ .ok (t :: ts) := by
  rw [parseItems_cons hpieces hne]
  intro h
  obtain ⟨t', ht, h⟩ := Res.bind_eq_ok.mp h
  obtain ⟨ts', -, h⟩ := Res.bind_eq_ok.mp h
  cases h
  exact hparse ht

variable (file line) in
/-- The items read from the text behind an opening bracket. -/
def Lists (z : List Char) (ts : List String) : Prop :=
  ∃ body, (valueOf z).rdropWhile isWhitespace = body ++ [']'] ∧ parseItems file line body = .ok ts

theorem parseTomlStringArray_eq_ok :
    parseTomlStringArray file line (valueText ('[' :: z)) = .ok ts ↔ Lists file line z ts := by
  have hvalue : valueOf ('[' :: z) = '[' :: valueOf z :=
    valueOf_append (l := ['[']) (not_exposed_of_forall (by simp))
  have htrim :
      (trim (valueText ('[' :: z))).toList = '[' :: (valueOf z).rdropWhile isWhitespace := by
    rw [valueText, hvalue, rdropWhile_cons rfl, trim_lead [' '] blank_lead rfl, rdropWhile_idem,
      toList_ofList]
  simp only [parseTomlStringArray, htrim]
  constructor
  · intro h
    split at h
    · next hlast =>
      obtain ⟨body, hbody⟩ := getLast?_eq_some_iff.mp hlast
      rw [hbody, dropLast_concat] at h
      exact ⟨body, hbody, h⟩
    · cases h
  · rintro ⟨body, hbody, h⟩
    rw [hbody, getLast?_concat, if_pos rfl, dropLast_concat, h]

/-- A text of which the first item's string is cut. -/
theorem parseItems_cut
    (hpieces : pieces '"' (· == ',') false inner = ('"' :: esc cs) :: more) :
    parseItems file line inner ≠ .ok (t :: ts) :=
  parseItems_ne hpieces (not_blank [] no_lead) (parse_cut [] no_lead)

/-- A mark that is outside quotes inside the first item: the comment seems to begin there, or the
item to end. -/
theorem not_lists_of_exposed (h : Exposed '"' both true t.toList) :
    ¬ Lists file line (quoted t ++ z) (t :: ts) := by
  obtain ⟨front, c, back, heq, hc, hin, hnot⟩ := exists_first h
  have hinside : inside '"' false ('"' :: esc front) = false := inside_esc.trans hin
  have hsplit : ∀ d, escChar d = [d] → t.toList = front ++ d :: back →
      quoted t ++ z = ('"' :: esc front) ++ d :: (esc back ++ ['"'] ++ z) := by
    intro d hd heq
    rw [quoted, heq, esc_append, esc_cons, hd]
    simp
  have hhash := not_exposed_open both_of_hash (not_exposed_hash hnot)
  rintro ⟨body, hbody, hitems⟩
  rw [both, Bool.or_eq_true, beq_iff_eq, beq_iff_eq] at hc
  rcases hc with rfl | rfl
  · rw [hsplit '#' rfl heq, valueOf_hash hhash hinside, rdropWhile_cons rfl] at hbody
    obtain ⟨cs, hcut, hcs⟩ := rdropWhile_esc front
    rw [hcut] at hbody
    cases body with
    | nil => simp at hbody
    | cons c body =>
      obtain ⟨rfl, htail⟩ := List.cons.inj hbody
      obtain ⟨cs', c, rfl, ⟨-, hquote, -⟩ | hescape | ⟨-, -, rfl⟩⟩ := esc_concat htail
      · cases hquote
      · revert hescape
        decide
      · obtain ⟨more, rfl⟩ := hcs
        have hcomma : ¬ Exposed '"' (· == ',') true cs' := by
          intro hexposed
          apply not_exposed_comma hnot
          rw [append_assoc]
          exact exposed_append.mpr (.inl hexposed)
        have hpieces := pieces_of_not_exposed (not_exposed_open both_of_comma hcomma)
        exact parseItems_cut hpieces hitems
  · -- the comment begins behind the comma, and the closing bracket comes after it
    have hplain : ¬ Exposed '"' (· == '#') false (('"' :: esc front) ++ [',']) := by
      rw [exposed_append, not_or]
      exact ⟨hhash, not_exposed_of_forall (by simp)⟩
    have hcomma : quoted t ++ z = (('"' :: esc front) ++ [',']) ++ (esc back ++ ['"'] ++ z) :=
      (hsplit ',' rfl heq).trans (by simp)
    rw [hcomma, valueOf_append hplain, rdropWhile_append rfl] at hbody
    rcases eq_nil_or_concat (List.rdropWhile isWhitespace _) with hnil | ⟨more, d, hmore⟩
    · rw [hnil, append_nil] at hbody
      obtain ⟨-, hclose⟩ := append_inj' hbody rfl
      cases hclose
    · rw [hmore, concat_eq_append, ← append_assoc] at hbody
      obtain ⟨rfl, -⟩ := append_inj' hbody rfl
      rw [append_assoc, singleton_append] at hitems
      have hpieces := pieces_mark (l := more) rfl
        (not_exposed_open both_of_comma (not_exposed_comma hnot)) (beq_self_eq_true ',') hinside
      exact parseItems_cut hpieces hitems

/-- An odd number of quotes in the first item: what follows it is read as a part of its string. -/
theorem not_lists_of_odd (h : ¬ Exposed '"' both true t.toList)
    (hodd : inside '"' true t.toList = false) (hc : isWhitespace c = false) (hhash : c ≠ '#')
    (hquote : c ≠ '"')
    (hz : ((before '"' (· == '#') true z).getD z).rdropWhile isWhitespace ≠ []) :
    ¬ Lists file line (quoted t ++ c :: z) (t :: ts) := by
  rintro ⟨body, hbody, hitems⟩
  have hinside : inside '"' false (quoted t ++ [c]) = true := by
    rw [inside_append, inside_quoted, hodd, inside_cons, turned, if_neg hquote]
    rfl
  have hplain : ¬ Exposed '"' (· == '#') false (quoted t ++ [c]) := by
    rw [exposed_append, not_or]
    exact ⟨(exposed_quoted both_of_hash).not.mpr (not_exposed_hash h),
      not_exposed_of_forall (by simpa using hhash)⟩
  have hsplit : quoted t ++ c :: z = (quoted t ++ [c]) ++ z := by simp
  rw [hsplit, valueOf_append hplain, hinside, rdropWhile_append hc] at hbody
  rcases eq_nil_or_concat (List.rdropWhile isWhitespace _) with hnil | ⟨more, d, hmore⟩
  · exact hz hnil
  · rw [hmore, concat_eq_append, ← append_assoc] at hbody
    obtain ⟨rfl, -⟩ := append_inj' hbody rfl
    have hcomma : ¬ Exposed '"' (· == ',') false (quoted t) :=
      (exposed_quoted both_of_comma).not.mpr (not_exposed_comma h)
    have hpieces := pieces_append (m := c :: more) hcomma
    rw [inside_quoted, hodd, pieces, turned, if_neg hquote, Bool.not_false, Bool.not_true,
      Bool.and_false, if_neg Bool.false_ne_true] at hpieces
    rw [append_assoc, singleton_append] at hitems
    have hne : pieces '"' (· == ',') true more ≠ [] := pieces_ne_nil true more
    obtain ⟨piece, rest, hrest⟩ := exists_cons_of_ne_nil hne
    rw [hrest, modifyHead_cons, modifyHead_cons] at hpieces
    have hblank : trim (ofList (quoted t ++ c :: piece)) ≠ "" := not_blank [] no_lead
    have hmore : (c :: piece).rdropWhile isWhitespace ≠ [] := by
      rw [rdropWhile_cons hc]
      exact cons_ne_nil _ _
    exact parseItems_ne hpieces hblank (parse_quoted_more [] no_lead hmore) hitems

/-- An item that is read as it was written. -/
theorem lists_comma (h : ¬ Exposed '"' both true t.toList)
    (heven : inside '"' true t.toList = true) {us : List String} (hz : ∃ y, z = '"' :: y) :
    Lists file line (quoted t ++ [',', ' '] ++ z) (t :: us) ↔ Lists file line z us := by
  have hinside : inside '"' false (quoted t) = false := by
    rw [inside_quoted, heven]
    rfl
  have hcomma : ¬ Exposed '"' (· == ',') false (quoted t) :=
    (exposed_quoted both_of_comma).not.mpr (not_exposed_comma h)
  have hplain : ¬ Exposed '"' (· == '#') false (quoted t ++ [',', ' ']) := by
    rw [exposed_append, not_or]
    exact ⟨(exposed_quoted both_of_hash).not.mpr (not_exposed_hash h),
      not_exposed_of_forall (by simp)⟩
  have hfalse : inside '"' false (quoted t ++ [',', ' ']) = false := by
    rw [inside_append, hinside]
    rfl
  obtain ⟨y, hy⟩ : ∃ y, (valueOf z).rdropWhile isWhitespace = '"' :: y := by
    obtain ⟨y, rfl⟩ := hz
    have hvalue : valueOf ('"' :: y) = '"' :: (before '"' (· == '#') true y).getD y :=
      valueOf_append (l := ['"']) (not_exposed_of_forall (by simp))
    rw [hvalue, rdropWhile_cons rfl]
    exact ⟨_, rfl⟩
  have hvalue : (valueOf (quoted t ++ [',', ' '] ++ z)).rdropWhile isWhitespace =
      quoted t ++ [',', ' '] ++ (valueOf z).rdropWhile isWhitespace := by
    have hne : (valueOf z).rdropWhile isWhitespace ≠ [] := by
      rw [hy]
      exact cons_ne_nil _ _
    rw [valueOf_append_outside hplain hfalse]
    exact rdropWhile_append_of_ne_nil hne
  have hitems : ∀ body, parseItems file line (quoted t ++ [',', ' '] ++ body) = .ok (t :: us) ↔
      parseItems file line body = .ok us := by
    intro body
    have hchars : quoted t ++ [',', ' '] ++ body = quoted t ++ ',' :: ' ' :: body := by simp
    have hblank : trim (ofList (quoted t)) ≠ "" := not_blank [] no_lead
    have hone : parseTomlString file line (ofList (quoted t)) = .ok t :=
      parse_quoted [] no_lead
    rw [hchars, parseItems_comma hcomma hinside hblank, hone, parseItems_blank]
    simp only [Res.ok_bind, Res.bind_eq_ok]
    constructor
    · rintro ⟨ts, hts, heq⟩
      cases heq
      exact hts
    · intro hts
      exact ⟨us, hts, rfl⟩
  constructor
  · rintro ⟨body, hbody, hread⟩
    rw [hvalue] at hbody
    rcases eq_nil_or_concat ((valueOf z).rdropWhile isWhitespace) with hnil | ⟨more, d, hmore⟩
    · rw [hnil] at hy
      cases hy
    · rw [hmore, concat_eq_append, ← append_assoc] at hbody
      obtain ⟨rfl, hd⟩ := append_inj' hbody rfl
      refine ⟨more, ?_, (hitems more).mp hread⟩
      rw [hmore, concat_eq_append, hd]
  · rintro ⟨body, hbody, hread⟩
    refine ⟨quoted t ++ [',', ' '] ++ body, ?_, (hitems body).mpr hread⟩
    rw [hvalue, hbody, append_assoc _ body]

theorem parseItems_one (h : ¬ Exposed '"' both true t.toList) :
    parseItems file line (quoted t) = .ok [t] := by
  have hcomma : ¬ Exposed '"' (· == ',') false (quoted t) :=
    (exposed_quoted both_of_comma).not.mpr (not_exposed_comma h)
  have hone : parseTomlString file line (ofList (quoted t)) = .ok t :=
    parse_quoted [] no_lead
  rw [parseItems_cons (pieces_of_not_exposed hcomma) (not_blank [] no_lead), hone]
  rfl

/-- An array is read as it was written exactly when its items are kept. -/
theorem lists_iff : ∀ ts : List String,
    Lists file line (listed ts ++ trailing comment) ts ↔ ArrayKept ts comment
  | [] => by
    refine iff_of_true ⟨[], ?_, rfl⟩ trivial
    exact valueOf_trailing (not_exposed_of_forall (by simp [listed])) rfl fun _ => rfl
  | [t] => by
    rw [ArrayKept, hidden_both_iff, evenQuotes_iff]
    by_cases hexposed : Exposed '"' both true t.toList
    · refine iff_of_false ?_ fun h => h.1 hexposed
      rw [listed, append_assoc]
      exact not_lists_of_exposed hexposed
    · have hplain : ¬ Exposed '"' (· == '#') false (listed [t]) := by
        rw [listed, exposed_append, not_or]
        exact ⟨(exposed_quoted both_of_hash).not.mpr (not_exposed_hash hexposed),
          not_exposed_of_forall (by simp)⟩
      have hinside : inside '"' false (listed [t]) = !(inside '"' true t.toList) := by
        rw [listed, inside_append, inside_quoted]
        rfl
      have hend : (listed [t]).rdropWhile isWhitespace = listed [t] :=
        rdropWhile_concat_neg _ _ _ (by decide)
      cases hparity : inside '"' true t.toList with
      | true =>
        refine iff_of_true ⟨quoted t, ?_, parseItems_one hexposed⟩ ⟨hexposed, fun _ => rfl⟩
        exact valueOf_trailing hplain hend fun _ => by rw [hinside, hparity]; rfl
      | false =>
        cases comment with
        | none =>
          refine iff_of_true ⟨quoted t, ?_, parseItems_one hexposed⟩
            ⟨hexposed, fun h => absurd rfl h⟩
          exact valueOf_trailing hplain hend fun h => absurd rfl h
        | some comment =>
          refine iff_of_false ?_ fun h => Bool.false_ne_true (h.2 (Option.some_ne_none _))
          have hcons : listed [t] ++ trailing (some comment) =
              quoted t ++ ']' :: ' ' :: '#' :: comment.toList := by simp [listed, trailing]
          rw [hcons]
          exact not_lists_of_odd hexposed hparity rfl (by decide) (by decide)
            (not_blank_behind rfl comment.toList)
  | t :: u :: ts => by
    obtain ⟨y, hy⟩ : ∃ y, listed (u :: ts) ++ trailing comment = '"' :: y := by
      obtain ⟨y, hy⟩ := listed_eq u ts
      rw [hy]
      exact ⟨_, rfl⟩
    have hsplit : listed (t :: u :: ts) ++ trailing comment =
        quoted t ++ [',', ' '] ++ (listed (u :: ts) ++ trailing comment) := append_assoc ..
    rw [ArrayKept, hidden_both_iff, evenQuotes_iff, ← lists_iff (u :: ts), hsplit]
    by_cases hexposed : Exposed '"' both true t.toList
    · refine iff_of_false ?_ fun h => h.1 hexposed
      rw [append_assoc]
      exact not_lists_of_exposed hexposed
    · cases hparity : inside '"' true t.toList with
      | true =>
        rw [lists_comma hexposed hparity ⟨y, hy⟩]
        exact ⟨fun h => ⟨hexposed, rfl, h⟩, fun h => h.2.2⟩
      | false =>
        refine iff_of_false ?_ fun h => Bool.false_ne_true h.2.1
        have hcons : quoted t ++ [',', ' '] ++ (listed (u :: ts) ++ trailing comment) =
            quoted t ++ ',' :: ' ' :: '"' :: y := by simp [hy]
        rw [hcons]
        exact not_lists_of_odd hexposed hparity rfl (by decide) (by decide) (not_blank_behind rfl y)

/-- An array is read as it was written exactly when its items are kept. -/
theorem parse_array_iff (file : String) (line : ℕ) :
    parseTomlStringArray file line (valueText ('[' :: listed ts ++ trailing comment)) = .ok ts ↔
      ArrayKept ts comment :=
  parseTomlStringArray_eq_ok.trans (lists_iff ts)

end AxisBridge.Dispatch
