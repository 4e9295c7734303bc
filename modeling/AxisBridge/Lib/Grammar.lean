import AxisBridge.Lib.Codec

/-! Readers of a fixed input against grammars: the words a reader takes, and the fronts of the input
at which it stops for a reason out of a given set. -/
namespace Codec
open List

variable {τ ε α β : Type} {b : List τ} {bad : ε → Prop}

/-- The reader takes the words of the grammar, each for its value, and nothing else. -/
def Derives (b : List τ) (p : Reader τ ε α) (G : List τ → α → Prop) : Prop :=
  ∀ c c' x, c.b = b → c.pos ≤ b.length → (p c = .ok (x, c') ↔ ∃ w, G w x ∧ Spans c c' w)

/-- The reader stops for a reason in `bad` at the words of `F`, which may look at the position. -/
def Faults (b : List τ) (bad : ε → Prop) (p : Reader τ ε α) (F : ℕ → List τ → Prop) : Prop :=
  ∀ c, c.b = b → c.pos ≤ b.length →
    ((∃ e, bad e ∧ p c = .error e) ↔ ∃ w, F c.pos w ∧ w <+: b.drop c.pos)

variable {p : Reader τ ε α} {f : α → Reader τ ε β} {G G' : List τ → α → Prop}
  {H : α → List τ → β → Prop} {F F' : ℕ → List τ → Prop} {K : α → ℕ → List τ → Prop}
variable {c c' : Cursor τ} {w : List τ} {e : ε}

theorem Spans.pos_le (h : Spans c c' w) (hle : c.pos ≤ c.b.length) : c'.pos ≤ c'.b.length := by
  have hlen := congrArg List.length h.2
  rw [h.bytes_eq] at hlen ⊢
  simp only [length_append, length_drop] at hlen
  have hpos : c'.pos = c.pos + w.length := by rw [h.1, Cursor.advance]
  omega

theorem Spans.pos_eq (h : Spans c c' w) : c'.pos = c.pos + w.length := by
  rw [h.1, Cursor.advance]

/-- Every front of what is left is a span. -/
theorem Spans.of_front (h : w <+: c.b.drop c.pos) : Spans c (c.advance w.length) w := by
  refine ⟨rfl, ?_⟩
  obtain ⟨rest, hrest⟩ := h
  have hlater : c.b.drop (c.pos + w.length) = rest := by
    rw [← drop_drop, ← hrest, drop_left]
  show c.b.drop c.pos = w ++ c.b.drop (c.pos + w.length)
  rw [hlater, hrest]

theorem Spans.front (h : Spans c c' w) : w <+: c.b.drop c.pos :=
  ⟨_, h.2.symm⟩

theorem Spans.length_le (h : Spans c c' w) : w.length ≤ c.b.length := by
  have hlen := congrArg List.length h.2
  simp only [length_append, length_drop] at hlen
  omega

/-- Only the words that fit into the input matter. -/
theorem Derives.congr (h : Derives b p G)
    (heq : ∀ w x, w.length ≤ b.length → (G w x ↔ G' w x)) : Derives b p G' := by
  intro c c' x hb hpos
  rw [h c c' x hb hpos]
  constructor
  · rintro ⟨w, hw, hspan⟩
    exact ⟨w, (heq w x (hb ▸ hspan.length_le)).mp hw, hspan⟩
  · rintro ⟨w, hw, hspan⟩
    exact ⟨w, (heq w x (hb ▸ hspan.length_le)).mpr hw, hspan⟩

theorem Faults.congr (h : Faults b bad p F)
    (heq : ∀ i w, i + w.length ≤ b.length → (F i w ↔ F' i w)) : Faults b bad p F' := by
  intro c hb hpos
  have hfits : ∀ w, w <+: b.drop c.pos → c.pos + w.length ≤ b.length := by
    intro w hw
    have hle := hw.length_le
    rw [length_drop] at hle
    omega
  rw [h c hb hpos]
  constructor
  · rintro ⟨w, hw, hfront⟩
    exact ⟨w, (heq _ w (hfits w hfront)).mp hw, hfront⟩
  · rintro ⟨w, hw, hfront⟩
    exact ⟨w, (heq _ w (hfits w hfront)).mpr hw, hfront⟩

theorem Derives.of_iff {ε' : Type} {p' : Reader τ ε' α} (h : Derives b p G)
    (heq : ∀ c c' x, p' c = .ok (x, c') ↔ p c = .ok (x, c')) : Derives b p' G :=
  fun c c' x hb hpos => (heq c c' x).trans (h c c' x hb hpos)

theorem Derives.pure (x : α) : Derives b (pure x : Reader τ ε α) fun w y => w = [] ∧ y = x := by
  intro c c' y _ _
  rw [pure_eq_ok]
  constructor
  · rintro ⟨rfl, rfl⟩
    exact ⟨[], ⟨rfl, rfl⟩, Spans.refl _⟩
  · rintro ⟨w, ⟨rfl, rfl⟩, hspan⟩
    exact ⟨rfl, hspan.1⟩

theorem Faults.pure (x : α) : Faults b bad (Pure.pure x : Reader τ ε α) fun _ _ => False := by
  intro c _ _
  constructor
  · rintro ⟨e, -, he⟩
    cases he
  · rintro ⟨w, hw, -⟩
    exact hw.elim

theorem Derives.throw (e : ε) : Derives b (throw e : Reader τ ε α) fun _ _ => False := by
  intro c c' y _ _
  constructor
  · intro h
    cases h
  · rintro ⟨w, hw, -⟩
    exact hw.elim

/-- A stop for a harmless reason is no fault. -/
theorem Faults.harmless (he : ¬bad e) : Faults b bad (throw e : Reader τ ε α) fun _ _ => False := by
  intro c _ _
  constructor
  · rintro ⟨e', hbad, h⟩
    cases h
    exact (he hbad).elim
  · rintro ⟨w, hw, -⟩
    exact hw.elim

theorem Faults.throw (he : bad e) : Faults b bad (throw e : Reader τ ε α) fun _ w => w = [] := by
  intro c _ _
  constructor
  · exact fun _ => ⟨[], rfl, nil_prefix⟩
  · exact fun _ => ⟨e, he, rfl⟩

theorem Derives.check {cond : Prop} [Decidable cond] (e : ε) (x : α) :
    Derives b (if cond then MonadExcept.throw e else Pure.pure x : Reader τ ε α)
      fun w y => w = [] ∧ y = x ∧ ¬cond := by
  split
  · rename_i hcond
    exact (Derives.throw e).congr fun w y _ => ⟨False.elim, fun h => h.2.2 hcond⟩
  · rename_i hcond
    exact (Derives.pure x).congr fun w y _ => ⟨fun h => ⟨h.1, h.2, hcond⟩, fun h => ⟨h.1, h.2.1⟩⟩

theorem Faults.check {cond : Prop} [Decidable cond] (he : ¬bad e) (x : α) :
    Faults b bad (if cond then MonadExcept.throw e else Pure.pure x : Reader τ ε α) fun _ _ =>
      False := by
  split
  · exact Faults.harmless he
  · exact Faults.pure x

theorem Derives.bind (hp : Derives b p G) (hf : ∀ x, Derives b (f x) (H x)) :
    Derives b (p >>= f) fun w y => ∃ x w1 w2, w = w1 ++ w2 ∧ G w1 x ∧ H x w2 y := by
  intro c c' y hb hpos
  rw [bind_eq_ok]
  constructor
  · rintro ⟨x, c1, hx, hy⟩
    obtain ⟨w1, hw1, h1⟩ := (hp c c1 x hb hpos).mp hx
    obtain ⟨w2, hw2, h2⟩ := (hf x c1 c' y (h1.bytes_eq.trans hb)
      (hb ▸ h1.bytes_eq ▸ h1.pos_le (hb ▸ hpos))).mp hy
    exact ⟨w1 ++ w2, ⟨x, w1, w2, rfl, hw1, hw2⟩, h1.trans h2⟩
  · rintro ⟨w, ⟨x, w1, w2, rfl, hw1, hw2⟩, hspan⟩
    obtain ⟨c1, h1, h2⟩ := hspan.split
    exact ⟨x, c1, (hp c c1 x hb hpos).mpr ⟨w1, hw1, h1⟩,
      (hf x c1 c' y (h1.bytes_eq.trans hb) (hb ▸ h1.bytes_eq ▸ h1.pos_le (hb ▸ hpos))).mpr
        ⟨w2, hw2, h2⟩⟩

theorem bind_eq_error : (p >>= f) c = .error e ↔
    p c = .error e ∨ ∃ x c1, p c = .ok (x, c1) ∧ f x c1 = .error e := by
  show (p c >>= fun r => f r.1 r.2) = .error e ↔ _
  cases h : p c with
  | error e' => simp [Bind.bind, Except.bind]
  | ok r =>
    constructor
    · exact fun hf => .inr ⟨r.1, r.2, rfl, hf⟩
    · rintro (hf | ⟨x, c1, hr, hf⟩)
      · cases hf
      · cases hr
        exact hf

/-- A sequence stops in its first part, or in its second behind a word of the first. -/
theorem Faults.bind (hp : Faults b bad p F) (hg : Derives b p G)
    (hf : ∀ x, Faults b bad (f x) (K x)) : Faults b bad (p >>= f) fun i w =>
      F i w ∨ ∃ x w1 w2, w = w1 ++ w2 ∧ G w1 x ∧ K x (i + w1.length) w2 := by
  intro c hb hpos
  constructor
  · rintro ⟨e, hbad, he⟩
    rcases bind_eq_error.mp he with he | ⟨x, c1, hx, he⟩
    · obtain ⟨w, hw, hfront⟩ := (hp c hb hpos).mp ⟨e, hbad, he⟩
      exact ⟨w, .inl hw, hfront⟩
    · obtain ⟨w1, hw1, h1⟩ := (hg c c1 x hb hpos).mp hx
      obtain ⟨w2, hw2, rest, hrest⟩ := (hf x c1 (h1.bytes_eq.trans hb)
        (hb ▸ h1.bytes_eq ▸ h1.pos_le (hb ▸ hpos))).mp ⟨e, hbad, he⟩
      rw [h1.pos_eq] at hw2
      refine ⟨w1 ++ w2, .inr ⟨x, w1, w2, rfl, hw1, hw2⟩, rest, ?_⟩
      have hdrop := h1.2
      rw [h1.bytes_eq, hb, ← hrest] at hdrop
      rw [hdrop, append_assoc]
  · rintro ⟨w, hw | ⟨x, w1, w2, rfl, hw1, hw2⟩, hfront⟩
    · obtain ⟨e, hbad, he⟩ := (hp c hb hpos).mpr ⟨w, hw, hfront⟩
      exact ⟨e, hbad, bind_eq_error.mpr (.inl he)⟩
    · obtain ⟨c1, h1, h2⟩ := (Spans.of_front (hb ▸ hfront : w1 ++ w2 <+: c.b.drop c.pos)).split
      have hb1 := h1.bytes_eq.trans hb
      obtain ⟨e, hbad, he⟩ := (hf x c1 hb1 (hb ▸ h1.bytes_eq ▸ h1.pos_le (hb ▸ hpos))).mpr
        ⟨w2, h1.pos_eq ▸ hw2, hb1 ▸ h2.front⟩
      exact ⟨e, hbad, bind_eq_error.mpr (.inr ⟨x, c1, (hg c c1 x hb hpos).mpr ⟨w1, hw1, h1⟩, he⟩)⟩

/-! ### Loops over coded items -/

variable {ρ : Type} {encode : ρ → List τ} {value : ρ → α} {Ok : ρ → Prop} {Oks : ℕ → ρ → Prop}

/-- The words that encode a good item, each for the item's value. -/
def Coded (encode : ρ → List τ) (value : ρ → α) (Ok : ρ → Prop) (w : List τ) (x : α) : Prop :=
  ∃ r, Ok r ∧ w = encode r ∧ x = value r

/-- A reader that reads an encoding back and accepts nothing else. -/
theorem Derives.coded {p : Reader τ ε ρ} (hreads : ∀ r, Reads p (encode r) r)
    (hexact : Exact p encode) : Derives b p (Coded encode id fun _ => True) := by
  intro c c' x _ _
  constructor
  · exact fun h => ⟨encode x, ⟨x, trivial, rfl, rfl⟩, hexact c x c' h⟩
  · rintro ⟨w, ⟨r, -, rfl, rfl⟩, hspan⟩
    exact hreads _ c c' hspan

/-- A check behind a read: the value is made of what was read, if that is good. -/
theorem Derives.decode {p : Reader τ ε ρ} {f : ρ → Reader τ ε α}
    (hp : Derives b p (Coded encode id fun _ => True))
    (hf : ∀ r, Derives b (f r) fun w x => w = [] ∧ x = value r ∧ Ok r) :
    Derives b (p >>= f) (Coded encode value Ok) := by
  refine (hp.bind hf).congr fun w x _ => ⟨?_, ?_⟩
  · rintro ⟨_, _, _, rfl, ⟨r, -, rfl, rfl⟩, rfl, rfl, hok⟩
    exact ⟨_, hok, append_nil _, rfl⟩
  · rintro ⟨r, hok, rfl, rfl⟩
    exact ⟨r, encode r, [], (append_nil _).symm, ⟨r, trivial, rfl, rfl⟩, rfl, rfl, hok⟩

/-- An item told apart by its kind, with its body behind it. -/
theorem Derives.tagged {κ : Type} {kind : ρ → κ} {encodeKind : κ → List τ} {body : ρ → List τ}
    {p : Reader τ ε κ} {f : κ → Reader τ ε α} (hp : Derives b p (Coded encodeKind id fun _ => True))
    (hf : ∀ k, Derives b (f k) (Coded body value fun r => kind r = k ∧ Ok r)) :
    Derives b (p >>= f) (Coded (fun r => encodeKind (kind r) ++ body r) value Ok) := by
  refine (hp.bind hf).congr fun w x _ => ⟨?_, ?_⟩
  · rintro ⟨_, _, _, rfl, ⟨k, -, rfl, rfl⟩, r, ⟨rfl, hok⟩, rfl, rfl⟩
    exact ⟨r, hok, rfl, rfl⟩
  · rintro ⟨r, hok, rfl, rfl⟩
    exact ⟨kind r, _, body r, rfl, ⟨kind r, trivial, rfl, rfl⟩, r, ⟨rfl, hok⟩, rfl, rfl⟩

/-- A sequence behind a coded item. -/
theorem Faults.coded (hp : Faults b bad p F) (hg : Derives b p (Coded encode value Ok))
    (hf : ∀ x, Faults b bad (f x) (K x)) : Faults b bad (p >>= f) fun i w => F i w ∨
    ∃ r w', Ok r ∧ w = encode r ++ w' ∧ K (value r) (i + (encode r).length) w' := by
  refine (hp.bind hg hf).congr fun i w _ => or_congr_right ⟨?_, ?_⟩
  · rintro ⟨_, _, w', rfl, ⟨r, hr, rfl, rfl⟩, hk⟩
    exact ⟨r, w', hr, rfl, hk⟩
  · rintro ⟨r, w', hr, rfl, hk⟩
    exact ⟨value r, encode r, w', rfl, ⟨r, hr, rfl, rfl⟩, hk⟩

/-- What is read first is harmless, so a fault stands behind it. -/
theorem Faults.behind (hp : Faults b bad p fun _ _ => False)
    (hg : Derives b p (Coded encode value Ok)) (hf : ∀ x, Faults b bad (f x) (K x)) :
    Faults b bad (p >>= f) fun i w => ∃ r w', Ok r ∧ w = encode r ++ w' ∧
      K (value r) (i + (encode r).length) w' :=
  (hp.coded hg hf).congr fun _ _ _ => iff_of_eq (false_or _)

/-- A guard that reads nothing stops there or lets the rest run. -/
theorem Faults.guard {P Q : Prop} {p : Reader τ ε Unit} {f : Unit → Reader τ ε β}
    (hp : Faults b bad p fun _ w => w = [] ∧ Q) (hg : Derives b p fun w _ => w = [] ∧ P)
    (hf : Faults b bad (f ()) F) :
    Faults b bad (p >>= f) fun i w => (w = [] ∧ Q) ∨ (P ∧ F i w) := by
  refine (hp.bind hg fun _ => hf).congr fun i w _ => or_congr_right ⟨?_, ?_⟩
  · rintro ⟨_, _, w', rfl, ⟨rfl, hpass⟩, hw⟩
    exact ⟨hpass, hw⟩
  · rintro ⟨hpass, hw⟩
    exact ⟨(), [], w, rfl, ⟨rfl, hpass⟩, hw⟩

/-- What follows is harmless, so a fault stands in what is read first. -/
theorem Faults.front (hp : Faults b bad p F) (hg : Derives b p G)
    (hf : ∀ x, Faults b bad (f x) fun _ _ => False) : Faults b bad (p >>= f) F := by
  refine (hp.bind hg hf).congr fun i w _ => ⟨?_, .inl⟩
  rintro (h | ⟨_, _, _, _, _, h⟩)
  · exact h
  · exact h.elim

/-- The items of a list, the first of which has index `i`, are good. -/
def AllFrom (Oks : ℕ → ρ → Prop) (i : ℕ) (rs : List ρ) : Prop :=
  ∀ k r, rs[k]? = some r → Oks (i + k) r

theorem allFrom_nil (i : ℕ) : AllFrom Oks i [] := by
  intro k r h
  rw [getElem?_nil] at h
  cases h

variable {rs : List ρ}

theorem allFrom_cons {i : ℕ} {r : ρ} :
    AllFrom Oks i (r :: rs) ↔ Oks i r ∧ AllFrom Oks (i + 1) rs := by
  constructor
  · intro h
    refine ⟨h 0 r rfl, fun k r' hr' => ?_⟩
    rw [Nat.add_assoc, Nat.add_comm 1 k]
    exact h (k + 1) r' hr'
  · rintro ⟨hhead, htail⟩ k r' hr'
    cases k with
    | zero =>
      cases hr'
      exact hhead
    | succ k =>
      have hgood := htail k r' hr'
      rwa [Nat.add_assoc, Nat.add_comm 1 k] at hgood

theorem allFrom_const {i : ℕ} : AllFrom (fun _ => Ok) i rs ↔ ∀ r ∈ rs, Ok r := by
  constructor
  · intro h r hr
    obtain ⟨k, hk⟩ := mem_iff_getElem?.mp hr
    exact h k r hk
  · intro h k r hk
    exact h r (mem_of_getElem? hk)

theorem length_encodeAll_cons (r : ρ) (rs : List ρ) :
    (encodeAll encode (r :: rs)).length = (encode r).length + (encodeAll encode rs).length :=
  length_append

variable {q : ℕ → Reader τ ε α} {Fs : ℕ → ℕ → List τ → Prop}

theorem Derives.collect (h : ∀ j, Derives b (q j) (Coded encode value (Oks j))) (i count : ℕ) :
    Derives b (Codec.collect q i count) (Coded (encodeAll encode) (List.map value)
      fun rs => rs.length = count ∧ AllFrom Oks i rs) := by
  induction count generalizing i with
  | zero =>
    refine (Derives.pure []).congr fun w xs _ => ⟨?_, ?_⟩
    · rintro ⟨rfl, rfl⟩
      exact ⟨[], ⟨rfl, allFrom_nil i⟩, rfl, rfl⟩
    · rintro ⟨rs, ⟨hlen, -⟩, rfl, rfl⟩
      rw [eq_nil_of_length_eq_zero hlen]
      exact ⟨rfl, rfl⟩
  | succ count ih =>
    have hstep := (h i).bind fun x => (ih (i + 1)).bind fun xs => Derives.pure (x :: xs)
    refine hstep.congr fun w xs _ => ⟨?_, ?_⟩
    · rintro ⟨x, w1, w2, rfl, ⟨r, hr, rfl, rfl⟩, ys, w3, w4, rfl, ⟨rs, ⟨hlen, hrs⟩, rfl, rfl⟩, rfl,
        rfl⟩
      refine ⟨r :: rs, ⟨congrArg (· + 1) hlen, allFrom_cons.mpr ⟨hr, hrs⟩⟩, ?_, rfl⟩
      rw [append_nil]
      rfl
    · rintro ⟨rs, ⟨hlen, hrs⟩, rfl, rfl⟩
      cases rs with
      | nil => cases hlen
      | cons r rs =>
        obtain ⟨hr, hrs⟩ := allFrom_cons.mp hrs
        exact ⟨value r, encode r, encodeAll encode rs, rfl, ⟨r, hr, rfl, rfl⟩, rs.map value,
          encodeAll encode rs, [], (append_nil _).symm,
          ⟨rs, ⟨Nat.succ.inj hlen, hrs⟩, rfl, rfl⟩, rfl, rfl⟩

/-- A loop stops at one item, behind the words of the items before it. -/
theorem Faults.collect (h : ∀ j, Derives b (q j) (Coded encode value (Oks j)))
    (hf : ∀ j, Faults b bad (q j) (Fs j)) (i count : ℕ) :
    Faults b bad (Codec.collect q i count) fun pos w => ∃ rs w', rs.length < count ∧
      AllFrom Oks i rs ∧ w = encodeAll encode rs ++ w' ∧
        Fs (i + rs.length) (pos + (encodeAll encode rs).length) w' := by
  induction count generalizing i with
  | zero =>
    refine (Faults.pure []).congr fun pos w _ => ⟨False.elim, ?_⟩
    rintro ⟨rs, w', hlt, -⟩
    exact absurd hlt (Nat.not_lt_zero _)
  | succ count ih =>
    have hstep := (hf i).bind (h i) fun x =>
      (ih (i + 1)).bind (Derives.collect h (i + 1) count) fun xs => Faults.pure (x :: xs)
    refine hstep.congr fun pos w _ => ⟨?_, ?_⟩
    · rintro (hw | ⟨x, w1, w2, rfl, ⟨r, hr, rfl, rfl⟩, hw | ⟨_, _, _, _, _, hw⟩⟩)
      · exact ⟨[], w, Nat.succ_pos count, allFrom_nil i, rfl, hw⟩
      · obtain ⟨rs, w', hlt, hrs, rfl, hw⟩ := hw
        refine ⟨r :: rs, w', Nat.succ_lt_succ hlt, allFrom_cons.mpr ⟨hr, hrs⟩, ?_, ?_⟩
        · exact (append_assoc ..).symm
        · rw [length_encodeAll_cons, ← Nat.add_assoc, length_cons, Nat.add_comm rs.length,
            ← Nat.add_assoc]
          exact hw
      · exact hw.elim
    · rintro ⟨rs, w', hlt, hrs, rfl, hw⟩
      cases rs with
      | nil => exact .inl hw
      | cons r rs =>
        obtain ⟨hr, hrs⟩ := allFrom_cons.mp hrs
        rw [length_encodeAll_cons, ← Nat.add_assoc, length_cons, Nat.add_comm rs.length,
          ← Nat.add_assoc] at hw
        exact .inr ⟨value r, encode r, encodeAll encode rs ++ w', append_assoc ..,
          ⟨r, hr, rfl, rfl⟩, .inl ⟨rs, w', Nat.lt_of_succ_lt_succ hlt, hrs, rfl, hw⟩⟩

/-! ### Words that say where they end -/

/-- Two encodings at the head of one input are the same. -/
def PrefixFree (encode : ρ → List τ) : Prop :=
  ∀ r r' w w', encode r ++ w = encode r' ++ w' → r = r' ∧ w = w'

theorem Reads.prefixFree {p : Reader τ ε ρ} (h : ∀ r, Reads p (encode r) r) :
    PrefixFree encode := by
  intro r r' w w' heq
  have hspan : ∀ r w, Spans ⟨encode r ++ w, 0⟩ ⟨encode r ++ w, (encode r).length⟩ (encode r) := by
    intro r w
    refine ⟨by simp [Cursor.advance], ?_⟩
    show encode r ++ w = encode r ++ (encode r ++ w).drop (encode r).length
    rw [drop_left]
  have hr := h r _ _ (hspan r w)
  have hr' := h r' _ _ (hspan r' w')
  rw [heq, hr'] at hr
  cases hr
  exact ⟨rfl, append_cancel_left heq⟩

theorem PrefixFree.all (h : PrefixFree encode) {rs' : List ρ} {w' : List τ}
    (hlen : rs.length = rs'.length) (heq : encodeAll encode rs ++ w = encodeAll encode rs' ++ w') :
    rs = rs' ∧ w = w' := by
  induction rs generalizing rs' with
  | nil =>
    rw [eq_nil_of_length_eq_zero hlen.symm] at heq ⊢
    exact ⟨rfl, heq⟩
  | cons r rs ih =>
    cases rs' with
    | nil => cases hlen
    | cons r' rs' =>
      have hcut : ∀ (r : ρ) (rs : List ρ) (w : List τ),
          encodeAll encode (r :: rs) ++ w = encode r ++ (encodeAll encode rs ++ w) :=
        fun _ _ _ => append_assoc ..
      rw [hcut, hcut] at heq
      obtain ⟨rfl, htail⟩ := h _ _ _ _ heq
      obtain ⟨rfl, rfl⟩ := ih (Nat.succ.inj hlen) htail
      exact ⟨rfl, rfl⟩

end Codec
