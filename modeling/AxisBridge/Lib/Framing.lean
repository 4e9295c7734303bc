import Mathlib.Data.List.Infix

/-! Scanning self-delimiting records one after another, up to the first that is not whole. -/
namespace Framing
open List

/-- A record format: what stands at the head of an input and how wide it is, told from the record's
own symbols alone. -/
structure Format (τ α : Type) where
  next : List τ → Option (α × ℕ)
  width_pos : ∀ {bs a n}, next bs = some (a, n) → 0 < n
  width_le : ∀ {bs a n}, next bs = some (a, n) → n ≤ bs.length
  next_take : ∀ {bs a n}, next bs = some (a, n) → ∀ more, next (bs.take n ++ more) = some (a, n)

/-- A whole record: nothing of its word is left over. -/
structure Record {τ α : Type} (f : Format τ α) where
  word : List τ
  value : α
  whole : f.next word = some (value, word.length)

variable {τ α : Type} (f : Format τ α)

def scanFrom : ℕ → ℕ → List τ → List (ℕ × α) × ℕ
  | 0, off, _ => ([], off)
  | fuel + 1, off, bs =>
    match f.next bs with
    | none => ([], off)
    | some (a, n) =>
      let later := scanFrom fuel (off + n) (bs.drop n)
      ((off, a) :: later.1, later.2)

/-- The records of an input that starts at `off`, each with its offset, and where the scan stops. -/
def scan (off : ℕ) (bs : List τ) : List (ℕ × α) × ℕ := scanFrom f bs.length off bs

variable {f}

def words (rs : List (Record f)) : List τ := rs.flatMap Record.word

/-- The records of a list with the offsets their words get from `off` on. -/
def places : ℕ → List (Record f) → List (ℕ × α)
  | _, [] => []
  | off, r :: rs => (off, r.value) :: places (off + r.word.length) rs

variable {bs more : List τ} {a : α} {n m off : ℕ} {r : Record f} {rs : List (Record f)}

@[simp] theorem words_nil : words ([] : List (Record f)) = [] := rfl

@[simp] theorem words_cons : words (r :: rs) = r.word ++ words rs := rfl

theorem Record.word_pos (r : Record f) : 0 < r.word.length := f.width_pos r.whole

theorem next_nil : f.next [] = none := by
  cases h : f.next [] with
  | none => rfl
  | some p =>
    have hpos := f.width_pos h
    have hle := f.width_le h
    simp only [length_nil] at hle
    omega

/-- More input after a record does not change it. -/
theorem next_append (h : f.next bs = some (a, n)) (more : List τ) :
    f.next (bs ++ more) = some (a, n) := by
  have hsplit : bs ++ more = bs.take n ++ (bs.drop n ++ more) := by
    rw [← append_assoc, take_append_drop]
  exact hsplit ▸ f.next_take h _

theorem next_word (r : Record f) (more : List τ) :
    f.next (r.word ++ more) = some (r.value, r.word.length) :=
  next_append r.whole more

/-- A record cut short is no record. -/
theorem next_of_cut {w : List τ} (hw : w <+: r.word) (hlt : w.length < r.word.length) :
    f.next w = none := by
  cases h : f.next w with
  | none => rfl
  | some p =>
    obtain ⟨rest, hrest⟩ := hw
    have hwhole := r.whole
    rw [← hrest, next_append h rest, Option.some.injEq, Prod.mk.injEq] at hwhole
    have hle := f.width_le h
    have hlen := congrArg List.length hrest
    omega

/-- The fuel of a scan only has to cover the input. -/
theorem scanFrom_eq (hn : bs.length ≤ n) (hm : bs.length ≤ m) :
    scanFrom f n off bs = scanFrom f m off bs := by
  induction n generalizing m off bs with
  | zero =>
    have hnil : bs = [] := length_eq_zero_iff.mp (by omega)
    subst hnil
    cases m with
    | zero => rfl
    | succ m => simp [scanFrom, next_nil]
  | succ n ih =>
    cases m with
    | zero =>
      have hnil : bs = [] := length_eq_zero_iff.mp (by omega)
      subst hnil
      simp [scanFrom, next_nil]
    | succ m =>
      cases h : f.next bs with
      | none => simp [scanFrom, h]
      | some p =>
        have hpos := f.width_pos h
        have hlen : (bs.drop p.2).length = bs.length - p.2 := length_drop
        have hle := f.width_le h
        have hlater :
            scanFrom f n (off + p.2) (bs.drop p.2) = scanFrom f m (off + p.2) (bs.drop p.2) :=
          ih (by omega) (by omega)
        simp only [scanFrom, h, hlater]

theorem scan_stop (h : f.next bs = none) : scan f off bs = ([], off) := by
  unfold scan
  cases bs with
  | nil => rfl
  | cons b bs => simp [scanFrom, h]

theorem scan_record (h : f.next bs = some (a, n)) :
    scan f off bs =
      ((off, a) :: (scan f (off + n) (bs.drop n)).1, (scan f (off + n) (bs.drop n)).2) := by
  have hpos := f.width_pos h
  have hle := f.width_le h
  have hlen : (bs.drop n).length = bs.length - n := length_drop
  unfold scan
  cases hb : bs.length with
  | zero => omega
  | succ k =>
    have hfuel : scanFrom f k (off + n) (bs.drop n) =
        scanFrom f (bs.drop n).length (off + n) (bs.drop n) := scanFrom_eq (by omega) le_rfl
    simp only [scanFrom, h, hfuel]

/-- Whole records are all found, and the scan goes on behind them. -/
theorem scan_words (rs : List (Record f)) (more : List τ) (off : ℕ) :
    scan f off (words rs ++ more) = (places off rs ++ (scan f (off + (words rs).length) more).1,
      (scan f (off + (words rs).length) more).2) := by
  induction rs generalizing off with
  | nil => simp [places]
  | cons r rs ih =>
    have hnext : f.next (words (r :: rs) ++ more) = some (r.value, r.word.length) := by
      rw [words_cons, append_assoc]
      exact next_word r _
    have hdrop : (words (r :: rs) ++ more).drop r.word.length = words rs ++ more := by
      simp [append_assoc]
    rw [scan_record hnext, hdrop, ih, words_cons, length_append, Nat.add_assoc]
    rfl

theorem places_append (off : ℕ) (rs rs' : List (Record f)) :
    places off (rs ++ rs') = places off rs ++ places (off + (words rs).length) rs' := by
  induction rs generalizing off with
  | nil => simp [places]
  | cons r rs ih => simp [places, ih, Nat.add_assoc]

theorem places_values (rs : List (Record f)) (off : ℕ) :
    (places off rs).map Prod.snd = rs.map Record.value := by
  induction rs generalizing off with
  | nil => rfl
  | cons r rs ih => simp [places, ih]

theorem scan_le (bs : List τ) (off : ℕ) : (scan f off bs).2 ≤ off + bs.length := by
  induction hn : bs.length using Nat.strong_induction_on generalizing bs off with
  | _ n ih =>
    cases h : f.next bs with
    | none =>
      rw [scan_stop h]
      exact Nat.le_add_right off n
    | some p =>
      have hpos := f.width_pos h
      have hle := f.width_le h
      have hlen : (bs.drop p.2).length = bs.length - p.2 := length_drop
      have hlater := ih _ (by omega) (bs.drop p.2) (off + p.2) rfl
      rw [scan_record h]
      simp only
      omega

/-- What is appended to an input leaves the records already found. -/
theorem scan_prefix (bs more : List τ) (off : ℕ) :
    (scan f off bs).1 <+: (scan f off (bs ++ more)).1 := by
  induction hn : bs.length using Nat.strong_induction_on generalizing bs off with
  | _ n ih =>
    cases h : f.next bs with
    | none =>
      rw [scan_stop h]
      exact nil_prefix
    | some p =>
      have hpos := f.width_pos h
      have hle := f.width_le h
      have hlen : (bs.drop p.2).length = bs.length - p.2 := length_drop
      have hdrop : (bs ++ more).drop p.2 = bs.drop p.2 ++ more := drop_append_of_le_length hle
      have hlater := ih _ (by omega) (bs.drop p.2) (off + p.2) rfl
      rw [scan_record h, scan_record (next_append h more), hdrop]
      exact cons_prefix_cons.mpr ⟨rfl, hlater⟩

/-- A cut through whole records leaves whole records and a piece of the next one. -/
theorem exists_cut (rs : List (Record f)) {w : List τ} (hw : w <+: words rs) :
    ∃ (k : ℕ) (piece : List τ), w = words (rs.take k) ++ piece ∧ f.next piece = none ∧
      (piece = [] ∨ ∃ r ∈ rs[k]?, piece <+: r.word ∧ piece.length < r.word.length) := by
  induction rs generalizing w with
  | nil =>
    obtain rfl := prefix_nil.mp hw
    exact ⟨0, [], rfl, next_nil, Or.inl rfl⟩
  | cons r rs ih =>
    rcases lt_or_ge w.length r.word.length with hlt | hge
    · have hpre : w <+: r.word :=
        prefix_of_prefix_length_le hw (prefix_append r.word (words rs)) hlt.le
      exact ⟨0, w, rfl, next_of_cut hpre hlt, Or.inr ⟨r, rfl, hpre, hlt⟩⟩
    · have hpre : r.word <+: w :=
        prefix_of_prefix_length_le (prefix_append r.word (words rs)) hw hge
      obtain ⟨rest, rfl⟩ := hpre
      have hrest : rest <+: words rs := (prefix_append_right_inj r.word).mp hw
      obtain ⟨k, piece, rfl, hnone, hpiece⟩ := ih hrest
      exact ⟨k + 1, piece, by simp [append_assoc], hnone, by simpa using hpiece⟩

/-- The records whose words lie wholly in front of a cut. -/
def within : ℕ → List (Record f) → List (Record f)
  | _, [] => []
  | cut, r :: rs =>
    if r.word.length ≤ cut then r :: within (cut - r.word.length) rs else []

/-- Between the records in front of a cut and the cut there is no record. -/
theorem take_words (cut : ℕ) (rs : List (Record f)) :
    ∃ piece, (words rs).take cut = words (within cut rs) ++ piece ∧ f.next piece = none := by
  induction rs generalizing cut with
  | nil => exact ⟨[], by simp [within], next_nil⟩
  | cons r rs ih =>
    by_cases hle : r.word.length ≤ cut
    · obtain ⟨piece, htake, hnone⟩ := ih (cut - r.word.length)
      refine ⟨piece, ?_, hnone⟩
      simp only [within, if_pos hle, words_cons, append_assoc]
      rw [take_append, take_of_length_le hle, htake]
    · have hshort : ((words (r :: rs)).take cut).length < r.word.length := by
        simp only [length_take]
        omega
      have hpre : (words (r :: rs)).take cut <+: r.word :=
        prefix_of_prefix_length_le (List.take_prefix _ _)
          (prefix_append r.word (words rs)) hshort.le
      refine ⟨(words (r :: rs)).take cut, ?_, next_of_cut hpre hshort⟩
      simp [within, hle]

/-- A scan of records that were cut anywhere finds the ones in front of the cut. -/
theorem scan_take_words (cut : ℕ) (rs : List (Record f)) (off : ℕ) :
    scan f off ((words rs).take cut) =
      (places off (within cut rs), off + (words (within cut rs)).length) := by
  obtain ⟨piece, htake, hnone⟩ := take_words cut rs
  rw [htake, scan_words, scan_stop hnone, append_nil]

end Framing
