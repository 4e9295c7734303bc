import AxisBridge.Runtime.Text

/-! Rendered programs: the tokens of one pass over the text, and the spans of the calls, which are
counted from the tokens and not from the text. -/
namespace AxisBridge.Prog
open List Nesting

def isid (c : Char) : Bool := (97 ≤ c.toNat && c.toNat ≤ 122) || c.isDigit || c == '_'

/-- The length a literal states: up to nine digits are read, anything else counts as zero. -/
def literalLen (digits : List Char) : ℕ :=
  if digits ≠ [] ∧ digits.length < 10 then (parseUsize (String.ofList digits)).getD 0 else 0

/-- Behind `c(`: the typed value of a literal, and what follows it. -/
def literal (body : List Char) : Option (List Char × List Char) :=
  let digits := body.takeWhile Char.isDigit
  match body.dropWhile Char.isDigit with
  | ':' :: tail =>
    match tail.drop (literalLen digits) with
    | ')' :: rest => some (tail.take (literalLen digits), rest)
    | _ => none
  | _ => none

/-- A round of the pass: the token it pushes, and the text that is left unless it stops there. -/
def nextToken (cs : List Char) : List Char × Option (List Char) :=
  match cs with
  | [] => (['!'], none)
  | c :: rest =>
    if c = ')' ∨ c = ',' then ([c], some rest)
    else if isid c = false then (['!'], none)
    else
      let id := cs.takeWhile isid
      match cs.dropWhile isid with
      | '(' :: body =>
        if id = ['c'] then
          match literal body with
          | some (tv, rest) => ('L' :: tv, some rest)
          | none => (['!'], none)
        else ('F' :: id, some body)
      | behind => ('I' :: id, some behind)

/-- The loop, for as many rounds as there are characters at most. -/
def tokensFrom : ℕ → List Char → List (List Char)
  | 0, _ => []
  | _ + 1, [] => []
  | rounds + 1, c :: cs =>
    match nextToken (c :: cs) with
    | (token, none) => [token]
    | (token, some rest) => token :: tokensFrom rounds rest

def progTokens (p : String) : List String := (tokensFrom p.toList.length p.toList).map String.ofList

/-- The entry of a call: its first code point, the one behind its last, and the token that closes
it. -/
def spanText (start stop close : ℕ) : String := s!"{start},{stop},{close}"

/-- The loop over the tokens: the index of the next, the entries, the open calls and the place in
the text. -/
def spansFrom : List (List Char) → ℕ → List String → List (ℕ × ℕ) → ℕ → List String
  | [], _, spans, _, _ => spans
  | ('F' :: body) :: toks, k, spans, stack, pos =>
    spansFrom toks (k + 1) spans ((k, pos) :: stack) (pos + (body.length + 1))
  | ('L' :: body) :: toks, k, spans, stack, pos =>
    spansFrom toks (k + 1) spans stack
      (pos + (2 + body.length.repr.toList.length + 1 + body.length + 1))
  | ('I' :: body) :: toks, k, spans, stack, pos =>
    spansFrom toks (k + 1) spans stack (pos + body.length)
  | (')' :: _) :: toks, k, spans, stack, pos =>
    match stack with
    | (f, s) :: stack =>
      spansFrom toks (k + 1) (spans.set f (spanText s (pos + 1) k)) stack (pos + 1)
    | [] => spansFrom toks (k + 1) spans [] (pos + 1)
  | (',' :: _) :: toks, k, spans, stack, pos => spansFrom toks (k + 1) spans stack (pos + 1)
  | _ :: _, _, spans, _, _ => spans

def progSpans (p : String) : List String :=
  let toks := (progTokens p).map String.toList
  spansFrom toks 0 (replicate toks.length "") [] 0

/-! ### What the tokens were read from -/

/-- A token and the text it stands for. -/
inductive Reads : List Char → List Char → Prop
  | close : Reads [')'] [')']
  | comma : Reads [','] [',']
  | call {id : List Char} :
      id ≠ [] → (∀ c ∈ id, isid c = true) → id ≠ ['c'] → Reads ('F' :: id) (id ++ ['('])
  | name {id : List Char} : id ≠ [] → (∀ c ∈ id, isid c = true) → Reads ('I' :: id) id
  | literal {digits tv : List Char} :
    (∀ d ∈ digits, d.isDigit = true) → tv.length = literalLen digits →
    Reads ('L' :: tv) ('c' :: '(' :: (digits ++ ':' :: (tv ++ [')'])))

/-- The tokens with the texts they were read from; the token that ends a bad text has none. -/
def pieces : ℕ → List Char → List (List Char × List Char)
  | 0, _ => []
  | _ + 1, [] => []
  | rounds + 1, c :: cs =>
    match nextToken (c :: cs) with
    | (token, none) => [(token, [])]
    | (token, some rest) =>
      (token, (c :: cs).take ((c :: cs).length - rest.length)) :: pieces rounds rest

section
variable {cs rest token body tv id : List Char} {rounds : ℕ}

theorem literal_reads (h : literal body = some (tv, rest)) :
    ∃ digits, (∀ d ∈ digits, d.isDigit = true) ∧ tv.length = literalLen digits ∧
      body = digits ++ ':' :: (tv ++ ')' :: rest) := by
  have hsplit := takeWhile_append_dropWhile (p := Char.isDigit) (l := body)
  have hdigits := all_takeWhile (p := Char.isDigit) (l := body)
  unfold literal at h
  generalize body.takeWhile Char.isDigit = digits at h hsplit hdigits
  generalize body.dropWhile Char.isDigit = behind at h hsplit
  dsimp only at h
  split at h
  · next tail =>
    split at h
    · next more hdrop =>
      cases h
      have htake := take_append_drop (literalLen digits) tail
      rw [hdrop] at htake
      refine ⟨digits, all_eq_true.mp hdigits, ?_, ?_⟩
      · have hlen := congrArg List.length hdrop
        rw [length_drop, length_cons] at hlen
        rw [length_take]
        omega
      · rw [htake, hsplit]
    · cases h
  · cases h

/-- What a round does: it reads a token from the front of the text, or it stops. -/
theorem nextToken_reads (h : nextToken cs = (token, some rest)) :
    ∃ text, cs = text ++ rest ∧ text ≠ [] ∧ Reads token text := by
  cases cs with
  | nil => cases h
  | cons c cs =>
    unfold nextToken at h
    dsimp only at h
    split at h
    · next hpunct =>
      cases h
      refine ⟨[c], rfl, cons_ne_nil _ _, ?_⟩
      rcases hpunct with rfl | rfl
      · exact .close
      · exact .comma
    split at h
    · cases h
    · next hid =>
      rw [Bool.not_eq_false] at hid
      have hsplit := takeWhile_append_dropWhile (p := isid) (l := c :: cs)
      have hall := all_eq_true.mp (all_takeWhile (p := isid) (l := c :: cs))
      have hne : (c :: cs).takeWhile isid ≠ [] := by
        rw [takeWhile_cons, if_pos hid]
        exact cons_ne_nil _ _
      generalize (c :: cs).takeWhile isid = id at h hsplit hall hne
      generalize (c :: cs).dropWhile isid = behind at h hsplit
      split at h
      · next body =>
        split at h
        · next hc =>
          split at h
          · next tv more hliteral =>
            cases h
            obtain ⟨digits, hdigits, hlen, rfl⟩ := literal_reads hliteral
            refine ⟨_, ?_, cons_ne_nil _ _, .literal hdigits hlen⟩
            rw [← hsplit, hc]
            simp
          · cases h
        · next hc =>
          cases h
          refine ⟨id ++ ['('], ?_, by simp, .call hne hall hc⟩
          rw [← hsplit, append_assoc]
          rfl
      · cases h
        exact ⟨id, hsplit.symm, hne, .name hne hall⟩

theorem nextToken_stops (h : nextToken cs = (token, none)) : token = ['!'] := by
  cases cs with
  | nil =>
    cases h
    rfl
  | cons c cs =>
    unfold nextToken at h
    dsimp only at h
    split at h
    · cases h
    split at h
    · cases h
      rfl
    split at h
    · split at h
      · split at h
        · cases h
        · cases h
          rfl
      · cases h
    · cases h

theorem tokensFrom_eq : tokensFrom rounds cs = (pieces rounds cs).map Prod.fst := by
  induction rounds generalizing cs with
  | zero => rfl
  | succ rounds ih =>
    cases cs with
    | nil => rfl
    | cons c cs =>
      rw [tokensFrom, pieces]
      cases nextToken (c :: cs) with
      | mk token left =>
        cases left with
        | none => rfl
        | some rest => exact congrArg _ ih

/-- The pieces cover the text up to where the pass stopped; it stops early only in front of a bad
text. -/
theorem pieces_cover (hrounds : cs.length ≤ rounds) :
    ∃ good tail rest, pieces rounds cs = good ++ tail ∧
      (∀ q ∈ good, Reads q.1 q.2) ∧ cs = good.flatMap Prod.snd ++ rest ∧
      (tail = [] ∧ rest = [] ∨ tail = [(['!'], [])] ∧ rest ≠ []) := by
  induction rounds generalizing cs with
  | zero =>
    obtain rfl := length_eq_zero_iff.mp (Nat.le_zero.mp hrounds)
    exact ⟨[], [], [], rfl, fun q hq => absurd hq (not_mem_nil), rfl, .inl ⟨rfl, rfl⟩⟩
  | succ rounds ih =>
    cases cs with
    | nil => exact ⟨[], [], [], rfl, fun q hq => absurd hq (not_mem_nil), rfl, .inl ⟨rfl, rfl⟩⟩
    | cons c cs =>
      cases hnext : nextToken (c :: cs) with
      | mk token left =>
        cases left with
        | none =>
          refine ⟨[], [(token, [])], c :: cs, by rw [pieces, hnext]; rfl,
            fun q hq => absurd hq (not_mem_nil), rfl, .inr ⟨?_, cons_ne_nil _ _⟩⟩
          rw [nextToken_stops hnext]
        | some rest =>
          obtain ⟨text, htext, hne, hreads⟩ := nextToken_reads hnext
          have hpos := length_pos_iff.mpr hne
          have hlen := congrArg List.length htext
          rw [length_append] at hlen
          obtain ⟨good, tail, left, hpieces, hgood, hrest, hend⟩ := @ih rest (by omega)
          have htake : (c :: cs).take ((c :: cs).length - rest.length) = text := by
            rw [htext, length_append, Nat.add_sub_cancel, take_left]
          refine ⟨(token, text) :: good, tail, left, ?_, ?_, ?_, hend⟩
          · rw [pieces, hnext]
            dsimp only
            rw [htake, hpieces, cons_append]
          · intro q hq
            rcases mem_cons.mp hq with rfl | hq
            · exact hreads
            · exact hgood q hq
          · rw [htext, flatMap_cons, append_assoc, ← hrest]

end

/-! ### The loop over the tokens -/

def tokenRole (token : List Char) : Bracket :=
  match token with
  | 'F' :: _ => .opener
  | ')' :: _ => .closer
  | _ => .plain

def role (toks : List (List Char)) (k : ℕ) : Bracket := (toks[k]?.map tokenRole).getD .plain

/-- What the loop takes for the length of a token's text. -/
def width (token : List Char) : ℕ :=
  match token with
  | 'F' :: body => body.length + 1
  | 'L' :: body => 2 + body.length.repr.toList.length + 1 + body.length + 1
  | 'I' :: body => body.length
  | ')' :: _ => 1
  | ',' :: _ => 1
  | _ => 0

/-- Where the loop takes a token to begin. -/
def place (toks : List (List Char)) (k : ℕ) : ℕ := ((toks.take k).map width).sum

section
variable {toks good tail : List (List Char)} {spans : List String} {k f e : ℕ} {token : List Char}

theorem place_succ (h : toks[k]? = some token) :
    place toks (k + 1) = place toks k + width token := by
  obtain ⟨hlt, rfl⟩ := List.getElem?_eq_some_iff.mp h
  rw [place, place, take_succ_eq_append_getElem hlt, map_append, sum_append, map_singleton,
    sum_singleton]

theorem role_eq (h : toks[k]? = some token) : role toks k = tokenRole token := by
  rw [role, h]
  rfl

theorem lt_of_closer (h : role toks e = .closer) : e < toks.length := by
  by_contra hge
  rw [role, getElem?_eq_none (by omega)] at h
  cases h

/-- The loop from token `k` on writes the entry of each call that closes from there on, and no
other. -/
structure Writes (toks : List (List Char)) (k : ℕ) (spans out : List String) : Prop where
  call : ∀ {f e}, k ≤ e → Matches (role toks) f e →
    out[f]? = some (spanText (place toks f) (place toks (e + 1)) e)
  other : ∀ {f}, (∀ e, k ≤ e → ¬ Matches (role toks) f e) → out[f]? = spans[f]?
  length : out.length = spans.length

theorem Writes.plain {out : List String} (h : Writes toks (k + 1) spans out)
    (hk : role toks k ≠ .closer) : Writes toks k spans out := by
  have hlater : ∀ {f e}, k ≤ e → Matches (role toks) f e → k + 1 ≤ e := by
    intro f e hke hm
    have hne : e ≠ k := fun he => hk (he ▸ hm.2.1)
    omega
  refine ⟨fun hke hm => h.call (hlater hke hm) hm, fun hno => h.other fun e hke => hno e (by omega),
    h.length⟩

theorem Writes.closed {out : List String} {s : String} (hf : Matches (role toks) f k)
    (hflt : f < spans.length) (hs : s = spanText (place toks f) (place toks (k + 1)) k)
    (h : Writes toks (k + 1) (spans.set f s) out) : Writes toks k spans out := by
  constructor
  · intro f' e hke hm
    rcases lt_or_ge k e with hlt | hle
    · exact h.call hlt hm
    · obtain rfl : e = k := by omega
      obtain rfl := hf.unique_left hm
      rw [h.other fun e' hke' hm' => by have := hm.unique_right hm'; omega, getElem?_set_self hflt,
        hs]
  · intro f' hno
    have hne : f ≠ f' := by
      rintro rfl
      exact hno k le_rfl hf
    rw [h.other fun e hke => hno e (by omega), getElem?_set_ne hne]
  · rw [h.length, length_set]

theorem Writes.unopened {out : List String} (h : Writes toks (k + 1) spans out)
    (hk : role toks k = .closer) (hnone : opened (role toks) k = []) : Writes toks k spans out := by
  constructor
  · intro f e hke hm
    have hne : e ≠ k := by
      rintro rfl
      have hhead := (matches_iff_head hk).mp hm
      rw [hnone] at hhead
      cases hhead
    exact h.call (by omega) hm
  · intro f hno
    exact h.other fun e hke => hno e (by omega)
  · exact h.length

theorem spansFrom_writes (hdrop : toks.drop k = good ++ tail)
    (hgood : ∀ t ∈ good, ∃ text, Reads t text) (htail : tail = [] ∨ tail = [['!']])
    (hlen : spans.length = toks.length) :
    Writes toks k spans (spansFrom (good ++ tail) k spans
      ((opened (role toks) k).map fun f => (f, place toks f)) (place toks k)) := by
  induction good generalizing k spans with
  | nil =>
    have hnone : ∀ {f e}, k ≤ e → ¬ Matches (role toks) f e := by
      intro f e hke hm
      have helt := lt_of_closer hm.2.1
      have hat : toks[e]? = tail[e - k]? := by
        have hget := @List.getElem?_drop _ toks k (e - k)
        rw [hdrop, nil_append, Nat.add_sub_cancel' hke] at hget
        exact hget.symm
      have hclose := hm.2.1
      rw [role, hat] at hclose
      rcases htail with rfl | rfl
      · cases hclose
      · cases hek : e - k with
        | zero | succ n =>
          rw [hek] at hclose
          cases hclose
    have hout : spansFrom ([] ++ tail) k spans
        ((opened (role toks) k).map fun f => (f, place toks f)) (place toks k) = spans := by
      rcases htail with rfl | rfl
      · rfl
      · rfl
    rw [hout]
    exact ⟨fun hke hm => absurd hm (hnone hke), fun _ => rfl, rfl⟩
  | cons token good ih =>
    have hat : toks[k]? = some token := by
      have hget := @List.getElem?_drop _ toks k 0
      rw [hdrop] at hget
      exact hget.symm
    have hnext : toks.drop (k + 1) = good ++ tail := by
      rw [← drop_drop, hdrop]
      rfl
    have hplace := place_succ hat
    have hrole := role_eq hat
    have hstep : ∀ {spans : List String}, spans.length = toks.length → _ := fun {spans} hlen =>
      @ih spans (k + 1) hnext (fun t ht => hgood t (mem_cons_of_mem _ ht)) hlen
    rw [hplace] at hstep
    obtain ⟨text, hreads⟩ := hgood token mem_cons_self
    cases hreads with
    | close =>
      have hclose : role toks k = .closer := hrole
      have hstep' := @hstep
      rw [opened_closer hclose] at hstep'
      cases ho : opened (role toks) k with
      | nil =>
        rw [ho] at hstep'
        exact (hstep' hlen).unopened hclose ho
      | cons f rest =>
        rw [ho] at hstep'
        have hm : Matches (role toks) f k := (matches_iff_head hclose).mpr (by rw [ho]; rfl)
        have hflt : f < spans.length := by
          have hfk := hm.1.2.1
          have hk := lt_of_closer hclose
          omega
        refine Writes.closed hm hflt
          (congrArg (fun stop => spanText (place toks f) stop k) hplace.symm) ?_
        exact hstep' (by rw [length_set, hlen])
    | comma | name hne hid | literal hdigits hn =>
      have hplain : role toks k = .plain := hrole
      rw [opened_plain hplain] at hstep
      exact (hstep hlen).plain (by rw [hplain]; decide)
    | call hne hid hc =>
      have hopen : role toks k = .opener := hrole
      rw [opened_opener hopen] at hstep
      exact (hstep hlen).plain (by rw [hopen]; decide)

end

/-! ### Spans and the text -/

def piecesOf (p : String) : List (List Char × List Char) := pieces p.toList.length p.toList

def tokens (p : String) : List (List Char) := (piecesOf p).map Prod.fst

/-- The code points in front of a token. -/
def offset (p : String) (k : ℕ) : ℕ := (((piecesOf p).take k).map fun q => q.2.length).sum

/-- The digits a literal is written with. -/
def written (q : List Char × List Char) : ℕ :=
  match q.1 with
  | 'L' :: tv => q.2.length - (tv.length + 4)
  | _ => 0

/-- The digits of the length of a literal's value. -/
def numeral (q : List Char × List Char) : ℕ :=
  match q.1 with
  | 'L' :: tv => tv.length.repr.toList.length
  | _ => 0

/-- The literals among the pieces are written, in all, with as many digits as their lengths have. -/
def Level (qs : List (List Char × List Char)) : Prop := (qs.map written).sum = (qs.map numeral).sum

instance (qs : List (List Char × List Char)) : Decidable (Level qs) :=
  inferInstanceAs (Decidable (_ = _))

/-- The entries are the spans of the calls, and the tokens stand for the text up to where the pass
stopped. -/
structure SpansRight (p : String) : Prop where
  length : (progSpans p).length = (progTokens p).length
  call : ∀ {k e}, Matches (role (tokens p)) k e →
    (progSpans p)[k]? = some (spanText (offset p k) (offset p (e + 1)) e)
  other : ∀ {k}, k < (progTokens p).length → (∀ e, ¬ Matches (role (tokens p)) k e) →
    (progSpans p)[k]? = some ""
  text :
    ∀ {k e}, Matches (role (tokens p)) k e → (p.toList.take (offset p (e + 1))).drop (offset p k) =
    (((piecesOf p).take (e + 1)).drop k).flatMap Prod.snd
  cover : ∃ good tail rest, piecesOf p = good ++ tail ∧ (∀ q ∈ good, Reads q.1 q.2) ∧
    p.toList = good.flatMap Prod.snd ++ rest ∧
      (tail = [] ∧ rest = [] ∨ tail = [(['!'], [])] ∧ rest ≠ [])

section
variable {p : String} {q : List Char × List Char} {qs good tail : List (List Char × List Char)}
  {k e : ℕ}

theorem progTokens_eq : progTokens p = (tokens p).map String.ofList := by
  rw [progTokens, tokensFrom_eq]
  rfl

theorem toList_progTokens : (progTokens p).map String.toList = tokens p := by
  rw [progTokens_eq, map_map]
  exact (map_congr_left fun t _ => String.toList_ofList).trans (map_id _)

theorem length_progTokens : (progTokens p).length = (tokens p).length := by
  rw [progTokens_eq, length_map]

theorem cover (p : String) :
    ∃ good tail rest, piecesOf p = good ++ tail ∧ (∀ q ∈ good, Reads q.1 q.2) ∧ p.toList =
      good.flatMap Prod.snd ++ rest ∧ (tail = [] ∧ rest = [] ∨ tail = [(['!'], [])] ∧ rest ≠ []) :=
  pieces_cover le_rfl

theorem progSpans_writes (p : String) :
    Writes (tokens p) 0 (replicate (tokens p).length "") (progSpans p) := by
  obtain ⟨good, tail, rest, hpieces, hgood, -, hend⟩ := cover p
  have htoks : tokens p = good.map Prod.fst ++ tail.map Prod.fst := by
    rw [tokens, hpieces, map_append]
  have hwrites := @spansFrom_writes (tokens p) (good.map Prod.fst) (tail.map Prod.fst)
    (replicate (tokens p).length "") 0 htoks ?_ ?_ length_replicate
  · rw [← htoks] at hwrites
    rw [progSpans, toList_progTokens]
    exact hwrites
  · intro t ht
    obtain ⟨q, hq, rfl⟩ := mem_map.mp ht
    exact ⟨q.2, hgood q hq⟩
  · rcases hend with ⟨rfl, -⟩ | ⟨rfl, -⟩
    · exact .inl rfl
    · exact .inr rfl

theorem width_add {token text : List Char} (h : Reads token text) :
    width token + written (token, text) = text.length + numeral (token, text) := by
  cases h with
  | close => rfl
  | comma => rfl
  | call hne hid hc =>
    rw [length_append]
    rfl
  | name hne hid => rfl
  | @literal digits tv hdigits hlen =>
    have hw : width ('L' :: tv) = 2 + tv.length.repr.toList.length + 1 + tv.length + 1 := rfl
    have hn : numeral ('L' :: tv, 'c' :: '(' :: (digits ++ ':' :: (tv ++ [')']))) =
        tv.length.repr.toList.length := rfl
    have htext : ('c' :: '(' :: (digits ++ ':' :: (tv ++ [')']))).length =
        digits.length + (tv.length + 4) := by
      simp
      omega
    have hdigits : written ('L' :: tv, 'c' :: '(' :: (digits ++ ':' :: (tv ++ [')']))) =
        ('c' :: '(' :: (digits ++ ':' :: (tv ++ [')']))).length - (tv.length + 4) := rfl
    omega

theorem width_sum (h : ∀ q ∈ qs, Reads q.1 q.2 ∨ q = (['!'], [])) :
    (qs.map fun q => width q.1).sum + (qs.map written).sum =
      (qs.map fun q => q.2.length).sum + (qs.map numeral).sum := by
  induction qs with
  | nil => rfl
  | cons q qs ih =>
    have hq : width q.1 + written q = q.2.length + numeral q := by
      rcases h q mem_cons_self with hreads | rfl
      · exact width_add hreads
      · rfl
    have hqs := ih fun q hq => h q (mem_cons_of_mem _ hq)
    simp only [map_cons, sum_cons]
    omega

/-- The loop's places are right just where the literals in front are level. -/
theorem place_eq_iff : place (tokens p) k = offset p k ↔ Level ((piecesOf p).take k) := by
  obtain ⟨good, tail, rest, hpieces, hgood, -, hend⟩ := cover p
  have hall : ∀ q ∈ (piecesOf p).take k, Reads q.1 q.2 ∨ q = (['!'], []) := by
    intro q hq
    have hmem := mem_of_mem_take hq
    rw [hpieces, mem_append] at hmem
    rcases hmem with hmem | hmem
    · exact .inl (hgood q hmem)
    · rcases hend with ⟨rfl, -⟩ | ⟨rfl, -⟩
      · cases hmem
      · exact .inr (mem_singleton.mp hmem)
  have hsum := width_sum hall
  have hplace : place (tokens p) k = (((piecesOf p).take k).map fun q => width q.1).sum := by
    rw [place, tokens, ← map_take, map_map]
    rfl
  rw [hplace, offset, Level]
  omega

/-- A parenthesis is no literal. -/
theorem level_succ (h : role (tokens p) e = .closer) :
    Level ((piecesOf p).take (e + 1)) ↔ Level ((piecesOf p).take e) := by
  have hlt : e < (piecesOf p).length := by
    have hlt := lt_of_closer h
    rwa [tokens, length_map] at hlt
  have hq : tokenRole (piecesOf p)[e].1 = .closer := by
    rw [← h]
    refine (role_eq ?_).symm
    rw [tokens, getElem?_map, getElem?_eq_getElem hlt]
    rfl
  have hzero : written (piecesOf p)[e] = 0 ∧ numeral (piecesOf p)[e] = 0 := by
    generalize (piecesOf p)[e] = q at hq
    unfold tokenRole at hq
    unfold written numeral
    split at hq
    · cases hq
    · next heq =>
      rw [heq]
      exact ⟨rfl, rfl⟩
    · cases hq
  rw [Level, Level, take_succ_eq_append_getElem hlt, map_append, map_append, sum_append,
    sum_append, map_singleton, map_singleton, sum_singleton, sum_singleton, hzero.1, hzero.2]
  rfl

theorem cons_comma_inj {as bs as' bs' : List Char} (h : as ++ ',' :: bs = as' ++ ',' :: bs')
    (has : ',' ∉ as) (has' : ',' ∉ as') : as = as' ∧ bs = bs' := by
  induction as generalizing as' with
  | nil =>
    cases as' with
    | nil => exact ⟨rfl, (List.cons.inj h).2⟩
    | cons c as' =>
      injection h with hc
      exact absurd (hc ▸ mem_cons_self) has'
  | cons c as ih =>
    cases as' with
    | nil =>
      injection h with hc
      exact absurd (hc ▸ mem_cons_self) has
    | cons c' as' =>
      injection h with hc h
      obtain ⟨rfl, hbs⟩ := ih h (fun hmem => has (mem_cons_of_mem _ hmem))
        fun hmem => has' (mem_cons_of_mem _ hmem)
      exact ⟨by rw [hc], hbs⟩

theorem comma_not_mem_repr (n : ℕ) : ',' ∉ n.repr.toList := by
  intro h
  have hdigit := isDigit_repr h
  exact absurd hdigit (by decide)

theorem spanText_toList (a b c : ℕ) :
    (spanText a b c).toList = a.repr.toList ++ ',' :: (b.repr.toList ++ ',' :: c.repr.toList) := by
  change (a.repr ++ "," ++ b.repr ++ "," ++ c.repr).toList = _
  simp [String.toList_append]

theorem spanText_inj {a b a' b' c : ℕ} (h : spanText a b c = spanText a' b' c) :
    a = a' ∧ b = b' := by
  have hlist := congrArg String.toList h
  rw [spanText_toList, spanText_toList] at hlist
  obtain ⟨ha, hrest⟩ := cons_comma_inj hlist (comma_not_mem_repr a) (comma_not_mem_repr a')
  obtain ⟨hb, -⟩ := cons_comma_inj hrest (comma_not_mem_repr b) (comma_not_mem_repr b')
  exact ⟨repr_inj (String.toList_inj.mp ha), repr_inj (String.toList_inj.mp hb)⟩

theorem sum_length (qs : List (List Char × List Char)) :
    (qs.map fun q => q.2.length).sum = (qs.flatMap Prod.snd).length := by
  rw [length_flatMap]

/-- Between two places of the tokenized text stand the texts of the pieces there. -/
theorem text_between (hke : k ≤ e) : (p.toList.take (offset p e)).drop (offset p k) =
    (((piecesOf p).take e).drop k).flatMap Prod.snd := by
  obtain ⟨good, tail, rest, hpieces, -, hcover, hend⟩ := cover p
  have htail : tail.flatMap Prod.snd = [] := by
    rcases hend with ⟨rfl, -⟩ | ⟨rfl, -⟩ <;> rfl
  have hall : p.toList = (piecesOf p).flatMap Prod.snd ++ rest := by
    rw [hpieces, flatMap_append, htail, append_nil, hcover]
  have hsplit := take_append_drop e (piecesOf p)
  have hfront := take_append_drop k ((piecesOf p).take e)
  rw [take_take, min_eq_left hke] at hfront
  rw [offset, offset, sum_length, sum_length, hall]
  conv_lhs => rw [← hsplit, flatMap_append, append_assoc, hsplit, take_left]
  conv_lhs => rw [← hfront, flatMap_append, drop_left]

/-- The spans are right just when, in front of the name and of the closing parenthesis of every call
that closes, the literals are written with as many digits as their lengths have. -/
theorem spansRight_iff (p : String) : SpansRight p ↔ ∀ k e, Matches (role (tokens p)) k e →
    Level ((piecesOf p).take k) ∧ Level ((piecesOf p).take e) := by
  have hwrites := progSpans_writes p
  constructor
  · intro h k e hm
    have hsame := (hwrites.call (Nat.zero_le e) hm).symm.trans (h.call hm)
    obtain ⟨hstart, hstop⟩ := spanText_inj (Option.some_inj.mp hsame)
    exact ⟨place_eq_iff.mp hstart, (level_succ hm.2.1).mp (place_eq_iff.mp hstop)⟩
  · intro hlevel
    refine ⟨?_, ?_, ?_, ?_, cover p⟩
    · rw [hwrites.length, length_replicate, length_progTokens]
    · intro k e hm
      obtain ⟨hstart, hstop⟩ := hlevel k e hm
      rw [hwrites.call (Nat.zero_le e) hm, place_eq_iff.mpr hstart,
        place_eq_iff.mpr ((level_succ hm.2.1).mpr hstop)]
    · intro k hk hno
      rw [length_progTokens] at hk
      rw [hwrites.other fun e _ => hno e, getElem?_replicate, if_pos hk]
    · intro k e hm
      exact text_between (Nat.le_succ_of_le (le_of_lt hm.1.2.1))

end

/-- `f(c(03:abc))`: the zero in front of the length moves the end of the call by one. -/
theorem leading_zero_shifts : progSpans "f(c(03:abc))" = ["0,11,2", "", ""] ∧
    "f(c(03:abc))".toList.length = 12 ∧ ¬ SpansRight "f(c(03:abc))" := by
  have hpieces : piecesOf "f(c(03:abc))" =
      [("Ff".toList, "f(".toList), ("Labc".toList, "c(03:abc)".toList),
        (")".toList, ")".toList)] := by decide
  have hm : Matches (role (tokens "f(c(03:abc))")) 0 2 := by
    rw [tokens, hpieces]
    decide
  refine ⟨by decide, by decide, fun h => ?_⟩
  have hlevel := ((spansRight_iff _).mp h 0 2 hm).2
  rw [hpieces] at hlevel
  exact absurd hlevel (by decide)

end AxisBridge.Prog
