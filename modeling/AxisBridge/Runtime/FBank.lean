import AxisBridge.Lib.Probing
import AxisBridge.Lib.Reach
import Mathlib.Algebra.Order.Group.Nat
import Mathlib.Data.List.Basic

/-! The fragment bank: texts that any number of calls put or intern, without a lock. -/
namespace AxisBridge.FBank
open Option List Function

/-- What `fbank_new` fixes, with `hash_of`. -/
structure Shape where
  maxEntries : ℕ
  maxBytes : ℕ
  hashOf : List UInt8 → UInt64
  entries : 1 ≤ maxEntries ∧ maxEntries < 2 ^ 63

/-- The number of slots is a power of two. -/
def Shape.mask (p : Shape) : ℕ := (2 * p.maxEntries).nextPowerOfTwo - 1

def Shape.home (p : Shape) (data : List UInt8) : ℕ := (p.hashOf data).toNat &&& p.mask

def Shape.after (p : Shape) (i : ℕ) : ℕ := (i + 1) &&& p.mask

/-- The slots a text is looked for in. -/
def Shape.path (p : Shape) (data : List UInt8) : ℕ → ℕ
  | 0 => p.home data
  | k + 1 => p.after (p.path data k)

/-- The memory of a bank; a slot of `table` has the number of its entry plus 1, or 0. -/
structure Bank where
  cursor : ℕ
  count : ℕ
  bytes : ℕ → UInt8
  off : ℕ → ℕ
  len : ℕ → ℕ
  hash : ℕ → UInt64
  ord : ℕ → ℤ
  table : ℕ → ℕ

/-- `fbank_new`, zeroed. -/
def Bank.new : Bank :=
  ⟨0, 0, fun _ => 0, fun _ => 0, fun _ => 0, fun _ => 0, fun _ => 0, fun _ => 0⟩

def Bank.data (b : Bank) (id : ℕ) : List UInt8 :=
  (range (b.len id)).map fun n => b.bytes (b.off id + n)

def Bank.published (b : Bank) (p : Shape) : ℕ := min b.count p.maxEntries

/-- Where a call is: in the first loop, on its way to an entry of its own, in the second loop. -/
inductive Pc
  | probe
  | probeHash
  | probeData
  | probeOrd
  | takeId
  | takeBytes
  | copy (n : ℕ)
  | storeOff
  | storeLen
  | storeHash
  | storeOrd
  | load
  | claim
  | hash
  | data
  | ord
  | displace
  | done (answer : ℤ)
  deriving DecidableEq

/-- A call of `fbank_put`, or of `intern`, which puts every text with ordinal 0; its entry and its
bytes once it has them. -/
structure Call where
  interns : Bool
  ordinal : ℤ
  text : List UInt8
  pc : Pc
  i : ℕ
  cur : ℕ
  id : Option ℕ
  off : Option ℕ

def Call.put (p : Shape) (ordinal : ℤ) (text : List UInt8) : Call :=
  ⟨false, ordinal, text, .probe, p.home text, 0, none, none⟩

def Call.intern (p : Shape) (text : List UInt8) : Call :=
  ⟨true, 0, text, .probe, p.home text, 0, none, none⟩

/-- One access to the memory of the bank; `bk.data(c)` reads an entry that nobody writes any more,
and counts as one. -/
def Call.step (p : Shape) (c : Call) (b : Bank) : Call × Bank :=
  let id := c.id.getD 0
  let off := c.off.getD 0
  match c.pc with
  | .probe =>
    if b.table c.i = 0 then ({ c with pc := .takeId }, b)
    else ({ c with pc := .probeHash, cur := b.table c.i }, b)
  | .probeHash =>
    if b.hash (c.cur - 1) = p.hashOf c.text then ({ c with pc := .probeData }, b)
    else ({ c with pc := .probe, i := p.after c.i }, b)
  | .probeData =>
    if b.data (c.cur - 1) = c.text then
      ({ c with pc := if c.interns then .done (c.cur - 1 : ℕ) else .probeOrd }, b)
    else ({ c with pc := .probe, i := p.after c.i }, b)
  | .probeOrd =>
    ({ c with pc := if b.ord (c.cur - 1) ≤ c.ordinal then .done (-1) else .takeId }, b)
  | .takeId =>
    ({ c with
        pc := if p.maxEntries ≤ b.count then .done (-2) else .takeBytes
        id := some b.count },
      { b with count := b.count + 1 })
  | .takeBytes =>
    ({ c with
        pc := if p.maxBytes < b.cursor + c.text.length then .done (-2) else .copy 0
        off := some b.cursor },
      { b with cursor := b.cursor + c.text.length })
  | .copy n =>
    match c.text[n]? with
    | some x =>
      ({ c with pc := .copy (n + 1) }, { b with bytes := update b.bytes (off + n) x })
    | none => ({ c with pc := .storeOff }, b)
  | .storeOff => ({ c with pc := .storeLen }, { b with off := update b.off id off })
  | .storeLen => ({ c with pc := .storeHash }, { b with len := update b.len id c.text.length })
  | .storeHash =>
    ({ c with pc := if c.interns then .load else .storeOrd },
      { b with hash := update b.hash id (p.hashOf c.text) })
  | .storeOrd =>
    -- `fbank_put` starts over at its first slot, `intern` goes on where the first loop ended
    ({ c with pc := .load, i := p.home c.text }, { b with ord := update b.ord id c.ordinal })
  | .load =>
    if b.table c.i = 0 then ({ c with pc := .claim }, b)
    else ({ c with pc := .hash, cur := b.table c.i }, b)
  | .claim =>
    if b.table c.i = 0 then
      ({ c with pc := .done id }, { b with table := update b.table c.i (id + 1) })
    else ({ c with pc := .load }, b)
  | .hash =>
    if b.hash (c.cur - 1) = p.hashOf c.text then ({ c with pc := .data }, b)
    else ({ c with pc := .load, i := p.after c.i }, b)
  | .data =>
    if b.data (c.cur - 1) = c.text then
      ({ c with pc := if c.interns then .done (c.cur - 1 : ℕ) else .ord }, b)
    else ({ c with pc := .load, i := p.after c.i }, b)
  | .ord =>
    ({ c with pc := if b.ord (c.cur - 1) ≤ c.ordinal then .done (-1) else .displace }, b)
  | .displace =>
    if b.table c.i = c.cur then
      ({ c with pc := .done id }, { b with table := update b.table c.i (id + 1) })
    else ({ c with pc := .load }, b)
  | .done answer => ({ c with pc := .done answer }, b)

variable {ι : Type*} [DecidableEq ι]

/-- A bank and the calls on it. -/
structure BankState (ι : Type*) where
  bank : Bank
  calls : ι → Call

def BankState.advance (p : Shape) (st : BankState ι) (j : ι) : BankState ι :=
  ⟨((st.calls j).step p st.bank).2, update st.calls j ((st.calls j).step p st.bank).1⟩

/-- One call takes its next step. -/
def BankStep (p : Shape) (j : ι) (st st' : BankState ι) : Prop := st' = st.advance p j

/-- The loop of `fbank_holds` and `fbank_find`: the entry that holds the text, or no entry. -/
def lookup (p : Shape) (b : Bank) (h : UInt64) (data : List UInt8) : ℕ → ℕ → Option (Option ℕ)
  | 0, _ => none
  | fuel + 1, i =>
    if b.table i = 0 then some none
    else if b.hash (b.table i - 1) = h ∧ b.data (b.table i - 1) = data then
      some (some (b.table i - 1))
    else lookup p b h data fuel (p.after i)

/-- The answer of `fbank_find`, where -1 is for no entry. -/
def fbankFind (p : Shape) (b : Bank) (fuel : ℕ) (text : List UInt8) : Option ℤ :=
  (lookup p b (p.hashOf text) text fuel (p.home text)).map fun
    | some c => (c : ℤ)
    | none => -1

/-- Whether an entry holds its content; the outer `none` is the panic on an id that is no entry. -/
def fbankHolds (p : Shape) (b : Bank) (fuel e : ℕ) : Option Bool :=
  if b.published p ≤ e then none
  else
    (lookup p b (b.hash e) (b.data e) fuel ((b.hash e).toNat &&& p.mask)).map fun
      | some c => c == e
      | none => false

/-! ### Entries and bytes of one's own -/

/-- Ids and ranges of bytes are handed out once. -/
structure Reserved (st : BankState ι) : Prop where
  ids_lt : ∀ j id, (st.calls j).id = some id → id < st.bank.count
  ids_inj : ∀ j j' id, (st.calls j).id = some id → (st.calls j').id = some id → j = j'
  range_le : ∀ j o, (st.calls j).off = some o → o + (st.calls j).text.length ≤ st.bank.cursor
  range_disj : ∀ j j' o o', j ≠ j' → (st.calls j).off = some o → (st.calls j').off = some o' →
    o + (st.calls j).text.length ≤ o' ∨ o' + (st.calls j').text.length ≤ o

/-- How far a call is with its own entry. -/
def Pc.level : Pc → ℕ
  | .takeBytes => 1
  | .copy _ => 2
  | .storeOff => 3
  | .storeLen => 4
  | .storeHash => 5
  | .storeOrd => 6
  | .load | .claim | .hash | .data | .ord | .displace => 7
  | _ => 0

/-- The first `n` bytes of a text are in the range of its call. -/
def Copied (b : Bank) (c : Call) (n : ℕ) : Prop :=
  ∀ o, c.off = some o → ∀ m < n, ∀ x, c.text[m]? = some x → b.bytes (o + m) = x

/-- What a call has written into its own entry. -/
structure Stage (p : Shape) (b : Bank) (c : Call) : Prop where
  ordinal : c.interns = true → c.ordinal = 0
  zero : c.interns = true → ∀ id, c.id = some id → b.ord id = 0
  hasId : 1 ≤ c.pc.level → ∃ id, c.id = some id ∧ id < p.maxEntries
  hasOff : 2 ≤ c.pc.level → ∃ o, c.off = some o
  copying : ∀ n, c.pc = .copy n → Copied b c n
  copied : 3 ≤ c.pc.level → Copied b c c.text.length
  offAt : 4 ≤ c.pc.level → ∀ id o, c.id = some id → c.off = some o → b.off id = o
  lenAt : 5 ≤ c.pc.level → ∀ id, c.id = some id → b.len id = c.text.length
  hashAt : 6 ≤ c.pc.level → ∀ id, c.id = some id → b.hash id = p.hashOf c.text
  ordAt : 7 ≤ c.pc.level → ∀ id, c.id = some id → b.ord id = c.ordinal

/-- The entry `e` of a call is all written. -/
def Written (p : Shape) (b : Bank) (c : Call) (e : ℕ) : Prop :=
  c.id = some e ∧ e < p.maxEntries ∧ ∃ o, c.off = some o ∧ b.off e = o ∧ b.len e = c.text.length ∧
    b.hash e = p.hashOf c.text ∧ b.ord e = c.ordinal ∧ Copied b c c.text.length

/-- The entry and the bytes of a call are the same in two memories. -/
structure SameEntry (b b' : Bank) (c : Call) : Prop where
  fields : ∀ id, c.id = some id →
    b'.off id = b.off id ∧ b'.len id = b.len id ∧ b'.hash id = b.hash id ∧ b'.ord id = b.ord id
  bytes : ∀ o, c.off = some o → ∀ m < c.text.length, b'.bytes (o + m) = b.bytes (o + m)

variable {p : Shape} {b b' : Bank} {c d : Call} {st st' : BankState ι} {j j' : ι} {e n : ℕ}

theorem SameEntry.of_table (table : ℕ → ℕ) (count cursor : ℕ) :
    SameEntry b { b with table, count, cursor } c :=
  ⟨fun _ _ => ⟨rfl, rfl, rfl, rfl⟩, fun _ _ _ _ => rfl⟩

theorem Copied.mono (h : Copied b c n) (hsame : SameEntry b b' c) : Copied b' c n := by
  intro o ho m hm x hx
  rw [hsame.bytes o ho m (List.getElem?_eq_some_iff.mp hx).1]
  exact h o ho m hm x hx

theorem Stage.mono (h : Stage p b c) (hsame : SameEntry b b' c) : Stage p b' c where
  ordinal := h.ordinal
  zero hin id hid := (hsame.fields id hid).2.2.2.trans (h.zero hin id hid)
  hasId := h.hasId
  hasOff := h.hasOff
  copying n hn := (h.copying n hn).mono hsame
  copied hl := (h.copied hl).mono hsame
  offAt hl id o hid ho := (hsame.fields id hid).1.trans (h.offAt hl id o hid ho)
  lenAt hl id hid := (hsame.fields id hid).2.1.trans (h.lenAt hl id hid)
  hashAt hl id hid := (hsame.fields id hid).2.2.1.trans (h.hashAt hl id hid)
  ordAt hl id hid := (hsame.fields id hid).2.2.2.trans (h.ordAt hl id hid)

theorem Written.mono (h : Written p b c e) (hsame : SameEntry b b' c) : Written p b' c e := by
  obtain ⟨hid, hlt, o, ho, hoff, hlen, hhash, hord, hcopied⟩ := h
  obtain ⟨hoff', hlen', hhash', hord'⟩ := hsame.fields e hid
  exact ⟨hid, hlt, o, ho, hoff'.trans hoff, hlen'.trans hlen, hhash'.trans hhash, hord'.trans hord,
    hcopied.mono hsame⟩

theorem Stage.written (h : Stage p b c) (hl : 7 ≤ c.pc.level) : ∃ e, Written p b c e := by
  obtain ⟨id, hid, hlt⟩ := h.hasId (by omega)
  obtain ⟨o, ho⟩ := h.hasOff (by omega)
  exact ⟨id, hid, hlt, o, ho, h.offAt (by omega) id o hid ho, h.lenAt (by omega) id hid,
    h.hashAt (by omega) id hid, h.ordAt hl id hid, h.copied (by omega)⟩

theorem Written.data_eq (h : Written p b c e) : b.data e = c.text := by
  obtain ⟨-, -, o, ho, hoff, hlen, -, -, hcopied⟩ := h
  rw [Bank.data, hoff, hlen]
  refine ext_getElem (by simp) fun m hm hm' => ?_
  simp only [getElem_map, getElem_range]
  exact hcopied o ho m hm' _ (getElem?_eq_getElem hm')

/-- A call keeps its text, and gets an id and bytes where the bank counts them. -/
theorem step_reserve (p : Shape) (c : Call) (b : Bank) : let c' := (c.step p b).1
    let b' := (c.step p b).2
    (c'.text = c.text ∧ c'.interns = c.interns ∧ c'.ordinal = c.ordinal) ∧
      (c'.id = c.id ∧ c'.off = c.off ∧ b'.count = b.count ∧ b'.cursor = b.cursor ∨
        c'.id = some b.count ∧ c'.off = c.off ∧ b'.count = b.count + 1 ∧ b'.cursor = b.cursor ∨
        c'.id = c.id ∧ c'.off = some b.cursor ∧ b'.count = b.count ∧
          b'.cursor = b.cursor + c.text.length) := by
  unfold Call.step
  cases c.pc <;> (dsimp only; first | simp | (split <;> simp))

theorem advance_self (p : Shape) (st : BankState ι) (j : ι) :
    (st.advance p j).calls j = ((st.calls j).step p st.bank).1 := update_self ..

theorem advance_of_ne (p : Shape) (st : BankState ι) (h : j' ≠ j) :
    (st.advance p j).calls j' = st.calls j' := update_of_ne h ..

theorem advance_text (p : Shape) (st : BankState ι) (j k : ι) :
    ((st.advance p j).calls k).text = (st.calls k).text := by
  by_cases hk : k = j
  · subst hk
    rw [advance_self]
    exact (step_reserve p (st.calls k) st.bank).1.1
  · rw [advance_of_ne p st hk]

theorem Reserved.advance (h : Reserved st) (p : Shape) (j : ι) : Reserved (st.advance p j) := by
  obtain ⟨-, hcases⟩ := step_reserve p (st.calls j) st.bank
  have hids : ∀ k id, ((st.advance p j).calls k).id = some id →
      ((st.calls k).id = some id ∧ id < (st.advance p j).bank.count) ∨
        k = j ∧ id = st.bank.count ∧ id < (st.advance p j).bank.count := by
    intro k id hid
    have hcount : st.bank.count ≤ (st.advance p j).bank.count := by
      rcases hcases with ⟨-, -, hc, -⟩ | ⟨-, -, hc, -⟩ | ⟨-, -, hc, -⟩ <;>
        simp only [BankState.advance, hc] <;> omega
    by_cases hk : k = j
    · subst hk
      rw [advance_self] at hid
      rcases hcases with ⟨he, -, -, -⟩ | ⟨he, -, hc, -⟩ | ⟨he, -, -, -⟩
      · rw [he] at hid
        exact .inl ⟨hid, (h.ids_lt k id hid).trans_le hcount⟩
      · rw [he] at hid
        cases hid
        refine .inr ⟨rfl, rfl, ?_⟩
        simp only [BankState.advance, hc]
        omega
      · rw [he] at hid
        exact .inl ⟨hid, (h.ids_lt k id hid).trans_le hcount⟩
    · rw [advance_of_ne p st hk] at hid
      exact .inl ⟨hid, (h.ids_lt k id hid).trans_le hcount⟩
  have hoffs : ∀ k o, ((st.advance p j).calls k).off = some o →
      ((st.calls k).off = some o ∧ o + (st.calls k).text.length ≤ (st.advance p j).bank.cursor) ∨
      k = j ∧ o = st.bank.cursor ∧ o + (st.calls k).text.length ≤ (st.advance p j).bank.cursor := by
    intro k o ho
    have hcursor : st.bank.cursor ≤ (st.advance p j).bank.cursor := by
      rcases hcases with ⟨-, -, -, hc⟩ | ⟨-, -, -, hc⟩ | ⟨-, -, -, hc⟩ <;>
        simp only [BankState.advance, hc] <;> omega
    by_cases hk : k = j
    · subst hk
      rw [advance_self] at ho
      rcases hcases with ⟨-, he, -, -⟩ | ⟨-, he, -, -⟩ | ⟨-, he, -, hc⟩
      · rw [he] at ho
        exact .inl ⟨ho, (h.range_le k o ho).trans hcursor⟩
      · rw [he] at ho
        exact .inl ⟨ho, (h.range_le k o ho).trans hcursor⟩
      · rw [he] at ho
        cases ho
        refine .inr ⟨rfl, rfl, ?_⟩
        simp only [BankState.advance, hc]
        exact le_refl _
    · rw [advance_of_ne p st hk] at ho
      exact .inl ⟨ho, (h.range_le k o ho).trans hcursor⟩
  refine ⟨?_, ?_, ?_, ?_⟩
  · intro k id hid
    rcases hids k id hid with ⟨-, hlt⟩ | ⟨-, -, hlt⟩ <;> exact hlt
  · intro k k' id hid hid'
    rcases hids k id hid with ⟨hk, -⟩ | ⟨rfl, rfl, -⟩
    · rcases hids k' id hid' with ⟨hk', -⟩ | ⟨rfl, rfl, -⟩
      · exact h.ids_inj k k' id hk hk'
      · exact absurd (h.ids_lt k _ hk) (lt_irrefl _)
    · rcases hids k' _ hid' with ⟨hk', -⟩ | ⟨rfl, -, -⟩
      · exact absurd (h.ids_lt k' _ hk') (lt_irrefl _)
      · rfl
  · intro k o ho
    rw [advance_text]
    rcases hoffs k o ho with ⟨-, hle⟩ | ⟨-, -, hle⟩ <;> exact hle
  · intro k k' o o' hne ho ho'
    rw [advance_text, advance_text]
    rcases hoffs k o ho with ⟨hk, -⟩ | ⟨rfl, rfl, -⟩
    · rcases hoffs k' o' ho' with ⟨hk', -⟩ | ⟨rfl, rfl, -⟩
      · exact h.range_disj k k' o o' hne hk hk'
      · exact .inl (h.range_le k o hk)
    · rcases hoffs k' o' ho' with ⟨hk', -⟩ | ⟨rfl, -, -⟩
      · exact .inr (h.range_le k' o' hk')
      · exact absurd rfl hne

theorem SameEntry.refl (b : Bank) (c : Call) : SameEntry b b c := .of_table b.table b.count b.cursor

/-- A step writes into the entry and the bytes of its own call only. -/
theorem Stage.sameEntry (hstage : Stage p b c)
    (hid : ∀ id id', c.id = some id → d.id = some id' → id' ≠ id)
    (hoff : ∀ o o', c.off = some o → d.off = some o' →
      o + c.text.length ≤ o' ∨ o' + d.text.length ≤ o) : SameEntry b (c.step p b).2 d := by
  have hown : 1 ≤ c.pc.level → ∀ id', d.id = some id' → id' ≠ c.id.getD 0 := by
    intro hl id' hid'
    obtain ⟨id, hc, -⟩ := hstage.hasId hl
    rw [hc, getD_some]
    exact hid id id' hc hid'
  cases hpc : c.pc with
  | copy n =>
    obtain ⟨o, ho⟩ := hstage.hasOff (by rw [hpc]; exact le_refl _)
    simp only [Call.step, hpc, ho, getD_some]
    cases hx : c.text[n]? with
    | none => exact .refl b d
    | some x =>
      refine ⟨fun _ _ => ⟨rfl, rfl, rfl, rfl⟩, fun o' ho' m hm => ?_⟩
      have hn := (List.getElem?_eq_some_iff.mp hx).1
      have hdisj := hoff o o' ho ho'
      exact update_of_ne (by omega) ..
  | storeOff | storeLen | storeHash | storeOrd =>
    rw [hpc] at hown
    simp only [Call.step, hpc]
    refine ⟨fun id' hid' => ?_, fun _ _ _ _ => rfl⟩
    have hne := hown (by decide) id' hid'
    simp [update_of_ne hne]
  | probe | probeHash | probeData | load | hash | data | claim | displace =>
    simp only [Call.step, hpc]
    split
    · exact .of_table ..
    · exact .of_table ..
  | probeOrd | takeId | takeBytes | ord | done _ =>
    simp only [Call.step, hpc]
    exact .of_table ..

theorem Reserved.sameEntry (h : Reserved st) (hne : j' ≠ j)
    (hstage : Stage p st.bank (st.calls j)) :
    SameEntry st.bank (st.advance p j).bank (st.calls j') := by
  refine hstage.sameEntry (fun id id' hid hid' he => ?_) fun o o' ho ho' => ?_
  · subst he
    exact hne (h.ids_inj j' j id' hid' hid)
  · exact h.range_disj j j' o o' (Ne.symm hne) ho ho'

/-- The stages of all calls, and the ordinals of the entries nobody has. -/
structure Staged (p : Shape) (st : BankState ι) : Prop where
  reserved : Reserved st
  stage : ∀ j, Stage p st.bank (st.calls j)
  fresh : ∀ id, st.bank.count ≤ id → st.bank.ord id = 0

theorem Copied.succ (h : Copied b c n) {x : UInt8} (hx : c.text[n]? = some x) {o : ℕ}
    (ho : c.off = some o) :
    Copied { b with bytes := update b.bytes (o + n) x } { c with pc := .copy (n + 1) }
      (n + 1) := by
  intro o' ho' m hm y hy
  obtain rfl : o = o' := some.inj (ho.symm.trans ho')
  by_cases hmn : m = n
  · subst hmn
    rw [hx] at hy
    cases hy
    exact update_self ..
  · exact (update_of_ne (by omega) ..).trans (h o ho m (by omega) y hy)

/-- A step that writes nothing, and does not lead to a later stage. -/
theorem Stage.walk (h : Stage p b c) {pc : Pc} (i cur : ℕ) (hl : pc.level ≤ c.pc.level)
    (hcopy : ∀ n, pc ≠ .copy n) : Stage p b { c with pc, i, cur } where
  ordinal := h.ordinal
  zero := h.zero
  hasId hl' := h.hasId (hl'.trans hl)
  hasOff hl' := h.hasOff (hl'.trans hl)
  copying n hn := absurd hn (hcopy n)
  copied hl' := h.copied (hl'.trans hl)
  offAt hl' := h.offAt (hl'.trans hl)
  lenAt hl' := h.lenAt (hl'.trans hl)
  hashAt hl' := h.hashAt (hl'.trans hl)
  ordAt hl' := h.ordAt (hl'.trans hl)

theorem Stage.takeId (h : Stage p b c) (hfresh : b.ord b.count = 0) :
    Stage p { b with count := b.count + 1 } { c with
      pc := if p.maxEntries ≤ b.count then .done (-2) else .takeBytes, id := some b.count } := by
  split
  · exact ⟨h.ordinal, fun _ _ hid => some.inj hid ▸ hfresh, nofun, nofun, nofun, nofun,
      nofun, nofun, nofun, nofun⟩
  · rename_i hlt
    exact ⟨h.ordinal, fun _ _ hid => some.inj hid ▸ hfresh,
      fun _ => ⟨b.count, rfl, Nat.lt_of_not_le hlt⟩, by simp [Pc.level], nofun, by simp [Pc.level],
      by simp [Pc.level], by simp [Pc.level], by simp [Pc.level], by simp [Pc.level]⟩

theorem Stage.takeBytes (h : Stage p b c) (hpc : c.pc = .takeBytes) :
    Stage p { b with cursor := b.cursor + c.text.length } { c with
      pc := if p.maxBytes < b.cursor + c.text.length then .done (-2) else .copy 0
      off := some b.cursor } := by
  split
  · exact ⟨h.ordinal, h.zero, nofun, nofun, nofun, nofun, nofun, nofun, nofun, nofun⟩
  · refine ⟨h.ordinal, h.zero, fun _ => h.hasId (by rw [hpc]; exact le_refl _),
      fun _ => ⟨b.cursor, rfl⟩, ?_, by simp [Pc.level], by simp [Pc.level], by simp [Pc.level],
      by simp [Pc.level], by simp [Pc.level]⟩
    rintro n hn
    cases hn
    exact fun _ _ m hm => absurd hm (Nat.not_lt_zero m)

theorem getD_of_eq {o : Option ℕ} (h : o = some n) : o.getD 0 = n := by rw [h, getD_some]

/-- A step takes its call one stage on. -/
theorem Stage.step (h : Stage p b c) (hfresh : b.ord b.count = 0) :
    Stage p (c.step p b).2 (c.step p b).1 := by
  cases hpc : c.pc with
  | probe | probeHash | load | hash =>
    simp only [Call.step, hpc]
    split <;> exact h.walk _ _ (by rw [hpc]; decide) nofun
  | probeData | data =>
    simp only [Call.step, hpc]
    split
    · exact h.walk _ _ (by rw [hpc]; split <;> exact Nat.le_of_ble_eq_true rfl)
        (by intro n; split <;> nofun)
    · exact h.walk _ _ (by rw [hpc]; decide) nofun
  | probeOrd | ord =>
    simp only [Call.step, hpc]
    exact h.walk _ _ (by rw [hpc]; split <;> decide) (by intro n; split <;> nofun)
  | done answer =>
    simp only [Call.step, hpc]
    exact h.walk _ _ (Nat.zero_le _) (by nofun)
  | claim | displace =>
    simp only [Call.step, hpc]
    split
    · exact (h.walk _ _ (Nat.zero_le _) (by nofun)).mono (.of_table ..)
    · exact h.walk _ _ (by rw [hpc]; decide) nofun
  | takeId =>
    simp only [Call.step, hpc]
    exact h.takeId hfresh
  | takeBytes =>
    simp only [Call.step, hpc]
    exact h.takeBytes hpc
  | copy n =>
    have hcopied := h.copying n hpc
    obtain ⟨id, hid⟩ := h.hasId (by rw [hpc]; exact Nat.le_of_ble_eq_true rfl)
    obtain ⟨o, ho⟩ := h.hasOff (by rw [hpc]; exact Nat.le_of_ble_eq_true rfl)
    cases hx : c.text[n]? with
    | none =>
      simp only [Call.step, hpc, hx]
      have hlen := getElem?_eq_none_iff.mp hx
      refine ⟨h.ordinal, h.zero, fun _ => ⟨id, hid⟩, fun _ => ⟨o, ho⟩, nofun, fun _ => ?_,
        by simp [Pc.level], by simp [Pc.level], by simp [Pc.level], by simp [Pc.level]⟩
      exact fun o' ho' m hm => hcopied o' ho' m (hm.trans_le hlen)
    | some x =>
      simp only [Call.step, hpc, hx, getD_of_eq ho]
      refine ⟨h.ordinal, h.zero, fun _ => ⟨id, hid⟩, fun _ => ⟨o, ho⟩, ?_, by simp [Pc.level],
        by simp [Pc.level], by simp [Pc.level], by simp [Pc.level], by simp [Pc.level]⟩
      rintro m hm
      cases hm
      exact hcopied.succ hx ho
  | storeOff =>
    obtain ⟨id, hid, hlt⟩ := h.hasId (by rw [hpc]; decide)
    obtain ⟨o, ho⟩ := h.hasOff (by rw [hpc]; decide)
    simp only [Call.step, hpc, getD_of_eq hid, getD_of_eq ho]
    refine ⟨h.ordinal, h.zero, fun _ => ⟨id, hid, hlt⟩, fun _ => ⟨o, ho⟩, nofun,
      fun _ => h.copied (by rw [hpc]; decide), fun _ id' o' hid' ho' => ?_, by simp [Pc.level],
      by simp [Pc.level], by simp [Pc.level]⟩
    obtain rfl : id = id' := some.inj (hid.symm.trans hid')
    obtain rfl : o = o' := some.inj (ho.symm.trans ho')
    exact update_self ..
  | storeLen =>
    obtain ⟨id, hid, hlt⟩ := h.hasId (by rw [hpc]; decide)
    simp only [Call.step, hpc, getD_of_eq hid]
    refine ⟨h.ordinal, h.zero, fun _ => ⟨id, hid, hlt⟩, fun _ => h.hasOff (by rw [hpc]; decide),
      nofun, fun _ => h.copied (by rw [hpc]; decide), fun _ => h.offAt (by rw [hpc]; decide),
      fun _ id' hid' => ?_, by simp [Pc.level], by simp [Pc.level]⟩
    obtain rfl : id = id' := some.inj (hid.symm.trans hid')
    exact update_self ..
  | storeHash =>
    obtain ⟨id, hid, hlt⟩ := h.hasId (by rw [hpc]; decide)
    simp only [Call.step, hpc, getD_of_eq hid]
    refine ⟨h.ordinal, h.zero, fun _ => ⟨id, hid, hlt⟩, fun _ => h.hasOff (by rw [hpc]; decide), ?_,
      fun _ => h.copied (by rw [hpc]; decide), fun _ => h.offAt (by rw [hpc]; decide),
      fun _ => h.lenAt (by rw [hpc]; decide), fun _ id' hid' => ?_, fun hl id' hid' => ?_⟩
    · intro n
      split <;> nofun
    · obtain rfl : id = id' := some.inj (hid.symm.trans hid')
      exact update_self ..
    · -- an interning call keeps the zero of its entry
      have hin : c.interns = true := by
        by_contra hin
        simp [hin, Pc.level] at hl
      rw [h.ordinal hin]
      exact h.zero hin id' hid'
  | storeOrd =>
    obtain ⟨id, hid, hlt⟩ := h.hasId (by rw [hpc]; decide)
    simp only [Call.step, hpc, getD_of_eq hid]
    refine ⟨h.ordinal, fun hin id' hid' => ?_, fun _ => ⟨id, hid, hlt⟩,
      fun _ => h.hasOff (by rw [hpc]; decide), nofun, fun _ => h.copied (by rw [hpc]; decide),
      fun _ => h.offAt (by rw [hpc]; decide), fun _ => h.lenAt (by rw [hpc]; decide),
      fun _ => h.hashAt (by rw [hpc]; decide), fun _ id' hid' => ?_⟩
    · obtain rfl : id = id' := some.inj (hid.symm.trans hid')
      exact (update_self ..).trans (h.ordinal hin)
    · obtain rfl : id = id' := some.inj (hid.symm.trans hid')
      exact update_self ..

theorem Staged.advance (h : Staged p st) (j : ι) : Staged p (st.advance p j) := by
  have hfresh := h.fresh st.bank.count (le_refl _)
  refine ⟨h.reserved.advance p j, fun k => ?_, fun id hid => ?_⟩
  · by_cases hk : k = j
    · subst hk
      rw [advance_self]
      exact (h.stage k).step hfresh
    · rw [advance_of_ne p st hk]
      exact (h.stage k).mono (h.reserved.sameEntry hk (h.stage j))
  · have hcount : st.bank.count ≤ id := by
      rcases (step_reserve p (st.calls j) st.bank).2 with ⟨-, -, hc, -⟩ | ⟨-, -, hc, -⟩ |
        ⟨-, -, hc, -⟩ <;> simp only [BankState.advance, hc] at hid <;> omega
    -- nobody has the entry `id` yet
    have hsame :
        SameEntry st.bank (st.advance p j).bank { st.calls j with id := some id, off := none } := by
      refine (h.stage j).sameEntry (fun own id' hown hid' he => ?_) nofun
      subst he
      cases hid'
      exact absurd (h.reserved.ids_lt j _ hown) (Nat.not_lt_of_le hcount)
    exact (hsame.fields id rfl).2.2.2.trans (h.fresh id hcount)

/-! ### The table -/

/-- The text in a slot. -/
def Bank.held (b : Bank) (s : ℕ) : Option (List UInt8) :=
  if b.table s = 0 then none else some (b.data (b.table s - 1))

/-- The entry `e` was put into the table by the call that wrote `x` there. -/
def Published (p : Shape) (st : BankState ι) (e : ℕ) (x : List UInt8) : Prop :=
  ∃ j, (st.calls j).pc = .done e ∧ Written p st.bank (st.calls j) e ∧ (st.calls j).text = x

/-- The slots before `i` on the path of a call hold other texts. -/
def At (p : Shape) (b : Bank) (c : Call) : Prop :=
  ∃ k, c.i = p.path c.text k ∧ Passed p.path b.held c.text k

/-- The entry a call has read out of its slot, which holds `x` since. -/
def Seen (p : Shape) (st : BankState ι) (c : Call) (x : List UInt8) : Prop :=
  ∃ e, c.cur = e + 1 ∧ Published p st e x ∧ st.bank.held c.i = some x ∧
    st.bank.ord (st.bank.table c.i - 1) ≤ st.bank.ord e

/-- An entry of the content of a call is held, with an ordinal not above its own. -/
def Kept (b : Bank) (c : Call) : Prop :=
  ∃ s, b.held s = some c.text ∧ b.ord (b.table s - 1) ≤ c.ordinal

/-- What an answer says of the entries. -/
def Answered (p : Shape) (st : BankState ι) (c : Call) (answer : ℤ) : Prop :=
  answer = -2 ∨
    c.interns = false ∧ Kept st.bank c ∧
      (answer = -1 ∨ ∃ e : ℕ, answer = e ∧ Published p st e c.text ∧ st.bank.ord e = c.ordinal) ∨
    c.interns = true ∧ ∃ e : ℕ, answer = e ∧ Published p st e c.text

def Walk (p : Shape) (st : BankState ι) (c : Call) : Prop :=
  match c.pc with
  | .probeHash | .probeData | .hash | .data => At p st.bank c ∧ ∃ x, Seen p st c x
  | .probeOrd | .ord => At p st.bank c ∧ Seen p st c c.text ∧ c.interns = false
  | .displace => At p st.bank c ∧ (Seen p st c c.text ∧ c.interns = false) ∧
      c.ordinal < st.bank.ord (c.cur - 1)
  | .done answer => Answered p st c answer
  | _ => At p st.bank c

structure Tabled (p : Shape) (st : BankState ι) : Prop where
  staged : Staged p st
  entries : ∀ s, st.bank.table s ≠ 0 → ∃ x, Published p st (st.bank.table s - 1) x
  placed : WellPlaced p.path st.bank.held
  walk : ∀ j, Walk p st (st.calls j)

/-- What a step leaves in the table: the texts, with ordinals that only go down. -/
structure Grows (p : Shape) (st st' : BankState ι) : Prop where
  published : ∀ e x, Published p st e x → Published p st' e x ∧ st'.bank.ord e = st.bank.ord e
  held : HeldMono st.bank.held st'.bank.held
  ord : ∀ s, st.bank.table s ≠ 0 → st'.bank.table s ≠ 0 ∧
    st'.bank.ord (st'.bank.table s - 1) ≤ st.bank.ord (st.bank.table s - 1)

variable {x : List UInt8} {s fuel : ℕ}

section
omit [DecidableEq ι]

theorem Published.data_eq (h : Published p st e x) : st.bank.data e = x := by
  obtain ⟨j, -, hwritten, rfl⟩ := h
  exact hwritten.data_eq

theorem Published.hash_eq (h : Published p st e x) : st.bank.hash e = p.hashOf x := by
  obtain ⟨j, -, ⟨-, -, o, -, -, -, hhash, -⟩, rfl⟩ := h
  exact hhash

theorem Bank.held_eq_none : b.held s = none ↔ b.table s = 0 := by
  unfold Bank.held
  split <;> simp_all

theorem Bank.held_of_table (h : b.table s ≠ 0) : b.held s = some (b.data (b.table s - 1)) :=
  if_neg h

theorem At.mono (h : At p b c) (hheld : HeldMono b.held b'.held) : At p b' c :=
  let ⟨k, hi, hk⟩ := h
  ⟨k, hi, hk.mono hheld⟩

theorem Seen.mono (h : Seen p st c x) (hgrows : Grows p st st') : Seen p st' c x := by
  obtain ⟨e, hcur, hpub, hheld, hord⟩ := h
  obtain ⟨hpub', hord'⟩ := hgrows.published e x hpub
  have htable : st.bank.table c.i ≠ 0 := fun h0 => by
    rw [Bank.held_eq_none.mpr h0] at hheld
    cases hheld
  exact ⟨e, hcur, hpub', hgrows.held _ _ hheld, ((hgrows.ord _ htable).2.trans hord).trans hord'.ge⟩

theorem Kept.mono (h : Kept st.bank c) (hgrows : Grows p st st') : Kept st'.bank c := by
  obtain ⟨s, hheld, hord⟩ := h
  have htable : st.bank.table s ≠ 0 := fun h0 => by
    rw [Bank.held_eq_none.mpr h0] at hheld
    cases hheld
  exact ⟨s, hgrows.held _ _ hheld, (hgrows.ord s htable).2.trans hord⟩

theorem Answered.mono {answer : ℤ} (h : Answered p st c answer) (hgrows : Grows p st st') :
    Answered p st' c answer := by
  rcases h with h | ⟨hin, hkept, h⟩ | ⟨hin, e, he, hpub⟩
  · exact .inl h
  · refine .inr (.inl ⟨hin, hkept.mono hgrows, h.imp_right ?_⟩)
    rintro ⟨e, he, hpub, hord⟩
    obtain ⟨hpub', hord'⟩ := hgrows.published e _ hpub
    exact ⟨e, he, hpub', hord'.trans hord⟩
  · exact .inr (.inr ⟨hin, e, he, (hgrows.published e _ hpub).1⟩)

theorem Walk.mono (h : Walk p st c) (hgrows : Grows p st st') : Walk p st' c := by
  unfold Walk at h ⊢
  split at h
  · exact ⟨h.1.mono hgrows.held, h.2.imp fun x hx => hx.mono hgrows⟩
  · exact ⟨h.1.mono hgrows.held, h.2.imp fun x hx => hx.mono hgrows⟩
  · exact ⟨h.1.mono hgrows.held, h.2.imp fun x hx => hx.mono hgrows⟩
  · exact ⟨h.1.mono hgrows.held, h.2.imp fun x hx => hx.mono hgrows⟩
  · exact ⟨h.1.mono hgrows.held, h.2.1.mono hgrows, h.2.2⟩
  · exact ⟨h.1.mono hgrows.held, h.2.1.mono hgrows, h.2.2⟩
  · obtain ⟨hat, ⟨hseen, hin⟩, hlt⟩ := h
    refine ⟨hat.mono hgrows.held, ⟨hseen.mono hgrows, hin⟩, ?_⟩
    obtain ⟨e, hcur, hpub, -⟩ := hseen
    rw [hcur, Nat.add_sub_cancel] at hlt ⊢
    exact hlt.trans_eq (hgrows.published e _ hpub).2.symm
  · exact h.mono hgrows
  · exact h.mono hgrows.held

end

/-- A call enters the table by one step: into an empty slot, or in place of an equal text. -/
def Publishes (b : Bank) (c : Call) : Prop :=
  c.pc = .claim ∧ b.table c.i = 0 ∨ c.pc = .displace ∧ b.table c.i = c.cur

theorem step_publishes (h : Publishes b c) : c.step p b = ({ c with pc := .done (c.id.getD 0 : ℕ) },
      { b with table := update b.table c.i (c.id.getD 0 + 1) }) := by
  rcases h with ⟨hpc, htable⟩ | ⟨hpc, htable⟩ <;> simp [Call.step, hpc, htable]

theorem step_table (h : ¬Publishes b c) : (c.step p b).2.table = b.table := by
  cases hpc : c.pc with
  | claim =>
    simp only [Call.step, hpc]
    split
    · rename_i h0
      exact absurd (.inl ⟨hpc, h0⟩) h
    · rfl
  | displace =>
    simp only [Call.step, hpc]
    split
    · rename_i hcur
      exact absurd (.inr ⟨hpc, hcur⟩) h
    · rfl
  | copy n | probe | probeHash | probeData | load | hash | data =>
    simp only [Call.step, hpc]
    split <;> rfl
  | _ => simp only [Call.step, hpc]

/-- A call that has its answer stays as it is. -/
theorem advance_done {answer : ℤ} (h : (st.calls j).pc = .done answer) : st.advance p j = st := by
  have hstep : (st.calls j).step p st.bank = (st.calls j, st.bank) := by
    simp only [Call.step, h]
    rw [← h]
  rw [BankState.advance, hstep, update_eq_self]

/-- What others have published stays so. -/
theorem Staged.published (h : Staged p st) (hrun : ∀ answer, (st.calls j).pc ≠ .done answer)
    (hpub : Published p st e x) :
    Published p (st.advance p j) e x ∧ (st.advance p j).bank.ord e = st.bank.ord e := by
  obtain ⟨k, hpc, hwritten, hx⟩ := hpub
  have hk : k ≠ j := by
    rintro rfl
    exact hrun _ hpc
  have hsame := h.reserved.sameEntry hk (h.stage j)
  refine ⟨⟨k, ?_, ?_, ?_⟩, (hsame.fields e hwritten.1).2.2.2⟩
  · rw [advance_of_ne p st hk, hpc]
  · rw [advance_of_ne p st hk]
    exact hwritten.mono hsame
  · rw [advance_of_ne p st hk, hx]

/-- A slot that is not written holds what it held. -/
theorem Tabled.held_eq (h : Tabled p st) (hrun : ∀ answer, (st.calls j).pc ≠ .done answer)
    (htable : (st.advance p j).bank.table s = st.bank.table s) :
    (st.advance p j).bank.held s = st.bank.held s := by
  by_cases h0 : st.bank.table s = 0
  · rw [Bank.held_eq_none.mpr h0, Bank.held_eq_none.mpr (htable.trans h0)]
  · obtain ⟨x, hpub⟩ := h.entries s h0
    rw [Bank.held_of_table h0, Bank.held_of_table (by rwa [htable]), htable,
      (h.staged.published hrun hpub).1.data_eq, hpub.data_eq]

theorem Tabled.grows_of_table (h : Tabled p st) (hrun : ∀ answer, (st.calls j).pc ≠ .done answer)
    (htable : (st.advance p j).bank.table = st.bank.table) : Grows p st (st.advance p j) where
  published _ _ hpub := h.staged.published hrun hpub
  held s x hs := (h.held_eq hrun (by rw [htable])).trans hs
  ord s hs := by
    obtain ⟨x, hpub⟩ := h.entries s hs
    rw [htable]
    exact ⟨hs, (h.staged.published hrun hpub).2.le⟩

theorem Publishes.running (hp : Publishes b c) (answer : ℤ) : c.pc ≠ .done answer := by
  rcases hp with ⟨hpc, -⟩ | ⟨hpc, -⟩ <;> rw [hpc] <;> nofun

section
variable (h : Tabled p st) (hp : Publishes st.bank (st.calls j))

include h hp

/-- The entry of a call that enters the table. -/
theorem Tabled.publish : ∃ e, (st.calls j).id = some e ∧
      (st.advance p j).bank =
        { st.bank with table := update st.bank.table (st.calls j).i (e + 1) } ∧
      ((st.advance p j).calls j) = { st.calls j with pc := .done e } ∧
      Published p (st.advance p j) e (st.calls j).text ∧
      (st.advance p j).bank.ord e = (st.calls j).ordinal := by
  obtain ⟨e, hwritten⟩ := (h.staged.stage j).written (by
    rcases hp with ⟨hpc, -⟩ | ⟨hpc, -⟩ <;> rw [hpc] <;> exact le_refl _)
  have hstep := @step_publishes p _ _ hp
  rw [getD_of_eq hwritten.1] at hstep
  have hbank : (st.advance p j).bank =
      { st.bank with table := update st.bank.table (st.calls j).i (e + 1) } := by
    rw [BankState.advance, hstep]
  have hcall : (st.advance p j).calls j = { st.calls j with pc := .done e } := by
    rw [advance_self, hstep]
  have hwritten' : Written p (st.advance p j).bank ((st.advance p j).calls j) e := by
    rw [hcall, hbank]
    exact hwritten.mono (.of_table ..)
  refine ⟨e, hwritten.1, hbank, hcall, ⟨j, by rw [hcall], hwritten', by rw [hcall]⟩, ?_⟩
  obtain ⟨-, -, o, -, -, -, -, hord, -⟩ := hwritten
  rw [hbank]
  exact hord

omit [DecidableEq ι] in
/-- An empty slot is filled, or a slot keeps its text under a lower ordinal. -/
theorem Tabled.publish_slot : At p st.bank (st.calls j) ∧ (st.bank.held (st.calls j).i = none ∨
      st.bank.held (st.calls j).i = some (st.calls j).text ∧
        (st.calls j).ordinal < st.bank.ord (st.bank.table (st.calls j).i - 1)) := by
  have hw := h.walk j
  rcases hp with ⟨hpc, htable⟩ | ⟨hpc, htable⟩
  · simp only [Walk, hpc] at hw
    exact ⟨hw, .inl (Bank.held_eq_none.mpr htable)⟩
  · simp only [Walk, hpc] at hw
    obtain ⟨hat, ⟨⟨e, -, -, hheld, -⟩, -⟩, hlt⟩ := hw
    exact ⟨hat, .inr ⟨hheld, by rwa [htable]⟩⟩

theorem Tabled.held_publish : (st.advance p j).bank.held =
      update st.bank.held (st.calls j).i (some (st.calls j).text) := by
  obtain ⟨e, -, hbank, -, hpub, -⟩ := h.publish hp
  funext s
  by_cases hs : s = (st.calls j).i
  · subst hs
    have htable : (st.advance p j).bank.table (st.calls j).i = e + 1 := by simp [hbank]
    rw [update_self, Bank.held_of_table (by rw [htable]; exact Nat.succ_ne_zero e), htable,
      Nat.add_sub_cancel, hpub.data_eq]
  · rw [update_of_ne hs, h.held_eq hp.running]
    simp [hbank, update_of_ne hs]

theorem Tabled.grows_publish : Grows p st (st.advance p j) := by
  obtain ⟨e, -, hbank, -, hpub, hord⟩ := h.publish hp
  obtain ⟨-, hslot⟩ := h.publish_slot hp
  refine ⟨fun _ _ => h.staged.published hp.running, ?_, fun s hs => ?_⟩
  · rw [h.held_publish hp]
    rcases hslot with hnone | ⟨hsome, -⟩
    · exact heldMono_claim hnone
    · rw [← hsome, update_eq_self]
      exact .refl _
  · by_cases hsi : s = (st.calls j).i
    · subst hsi
      have htable : (st.advance p j).bank.table (st.calls j).i = e + 1 := by simp [hbank]
      rw [htable, Nat.add_sub_cancel, hord]
      refine ⟨Nat.succ_ne_zero e, ?_⟩
      rcases hslot with hnone | ⟨-, hlt⟩
      · exact absurd (Bank.held_eq_none.mp hnone) hs
      · exact hlt.le
    · have htable : (st.advance p j).bank.table s = st.bank.table s := by
        simp [hbank, update_of_ne hsi]
      obtain ⟨x, hpub'⟩ := h.entries s hs
      rw [htable]
      exact ⟨hs, (h.staged.published hp.running hpub').2.le⟩

theorem Tabled.placed_publish : WellPlaced p.path (st.advance p j).bank.held := by
  obtain ⟨⟨k, hi, hk⟩, hslot⟩ := h.publish_slot hp
  rw [h.held_publish hp]
  rcases hslot with hnone | ⟨hsome, -⟩
  · rw [hi] at hnone ⊢
    exact h.placed.claim hk hnone
  · rw [← hsome, update_eq_self]
    exact h.placed

end

/-- A call goes on to the next slot, past another text. -/
theorem At.next (h : At p b c) {x : List UInt8} (hheld : b.held c.i = some x) (hne : x ≠ c.text)
    (pc : Pc) : At p b { c with pc, i := p.after c.i } := by
  obtain ⟨k, hi, hk⟩ := h
  rw [hi] at hheld
  exact ⟨k + 1, by rw [Shape.path, ← hi], hk.succ hheld hne⟩

section
omit [DecidableEq ι]

/-- A call reads the entry in its slot. -/
theorem Tabled.seen (h : Tabled p st) (c : Call) (hi : st.bank.table c.i ≠ 0) (pc : Pc) :
    ∃ x, Seen p st { c with pc, cur := st.bank.table c.i } x := by
  obtain ⟨x, hpub⟩ := h.entries c.i hi
  refine ⟨x, st.bank.table c.i - 1, ?_, hpub, ?_, Int.le_refl _⟩
  · exact (Nat.sub_add_cancel (Nat.pos_of_ne_zero hi)).symm
  · rw [Bank.held_of_table hi, hpub.data_eq]

theorem Seen.data_cur (h : Seen p st c x) : st.bank.data (c.cur - 1) = x := by
  obtain ⟨e, hcur, hpub, -⟩ := h
  rw [hcur, Nat.add_sub_cancel, hpub.data_eq]

theorem Seen.hash_cur (h : Seen p st c x) : st.bank.hash (c.cur - 1) = p.hashOf x := by
  obtain ⟨e, hcur, hpub, -⟩ := h
  rw [hcur, Nat.add_sub_cancel, hpub.hash_eq]

/-- The entry a call has read has its text, and it is an interning one. -/
theorem Seen.answered (h : Seen p st c c.text) (hin : c.interns = true) :
    Answered p st c (c.cur - 1 : ℕ) := by
  obtain ⟨e, hcur, hpub, -⟩ := h
  exact .inr (.inr ⟨hin, e, by rw [hcur, Nat.add_sub_cancel], hpub⟩)

theorem Seen.kept (h : Seen p st c c.text) (hord : st.bank.ord (c.cur - 1) ≤ c.ordinal) :
    Kept st.bank c := by
  obtain ⟨e, hcur, -, hheld, hle⟩ := h
  rw [hcur, Nat.add_sub_cancel] at hord
  exact ⟨c.i, hheld, hle.trans hord⟩

end

theorem Tabled.walk_step (h : Tabled p st) (hrun : ∀ answer, (st.calls j).pc ≠ .done answer)
    (hnot : ¬Publishes st.bank (st.calls j)) :
    Walk p (st.advance p j) ((st.advance p j).calls j) := by
  have hgrows := h.grows_of_table hrun (step_table hnot)
  have hw := h.walk j
  rw [advance_self]
  generalize hst : st.advance p j = st' at hgrows ⊢
  cases hpc : (st.calls j).pc with
  | probe | load =>
    simp only [Walk, hpc] at hw
    simp only [Call.step, hpc]
    split
    · exact hw.mono hgrows.held
    · rename_i hi
      exact ⟨hw.mono hgrows.held, (h.seen (st.calls j) hi _).imp fun x hx => hx.mono hgrows⟩
  | probeHash | hash =>
    simp only [Walk, hpc] at hw
    obtain ⟨hat, x, hx⟩ := hw
    simp only [Call.step, hpc]
    split
    · exact ⟨hat.mono hgrows.held, x, hx.mono hgrows⟩
    · rename_i hhash
      have hne : x ≠ (st.calls j).text := fun he => hhash (he ▸ hx.hash_cur)
      obtain ⟨-, -, -, hheld, -⟩ := hx
      exact (hat.next hheld hne _).mono hgrows.held
  | probeData | data =>
    simp only [Walk, hpc] at hw
    obtain ⟨hat, x, hx⟩ := hw
    simp only [Call.step, hpc]
    split
    · rename_i hdata
      obtain rfl : x = (st.calls j).text := hx.data_cur.symm.trans hdata
      split
      · rename_i hin
        exact (hx.answered hin).mono hgrows
      · rename_i hin
        exact ⟨hat.mono hgrows.held, hx.mono hgrows, Bool.not_eq_true _ ▸ hin⟩
    · rename_i hdata
      have hne : x ≠ (st.calls j).text := fun he => hdata (hx.data_cur.trans he)
      obtain ⟨-, -, -, hheld, -⟩ := hx
      exact (hat.next hheld hne _).mono hgrows.held
  | probeOrd =>
    simp only [Walk, hpc] at hw
    obtain ⟨hat, hx, hin⟩ := hw
    simp only [Call.step, hpc]
    split
    · rename_i hord
      exact .inr (.inl ⟨hin, (hx.kept hord).mono hgrows, .inl rfl⟩)
    · exact hat.mono hgrows.held
  | ord =>
    simp only [Walk, hpc] at hw
    obtain ⟨hat, hx, hin⟩ := hw
    simp only [Call.step, hpc]
    split
    · rename_i hord
      exact .inr (.inl ⟨hin, (hx.kept hord).mono hgrows, .inl rfl⟩)
    · rename_i hord
      refine ⟨hat.mono hgrows.held, ⟨hx.mono hgrows, hin⟩, ?_⟩
      obtain ⟨e, hcur, hpub, -⟩ := hx
      rw [hcur, Nat.add_sub_cancel] at hord ⊢
      exact (Int.lt_of_not_ge hord).trans_eq (hgrows.published e _ hpub).2.symm
  | takeId | takeBytes =>
    simp only [Walk, hpc] at hw
    simp only [Call.step, hpc]
    split
    · exact .inl rfl
    · exact hw.mono hgrows.held
  | copy n | storeHash =>
    simp only [Walk, hpc] at hw
    simp only [Call.step, hpc]
    split
    · exact hw.mono hgrows.held
    · exact hw.mono hgrows.held
  | storeOff | storeLen =>
    simp only [Walk, hpc] at hw
    simp only [Call.step, hpc]
    exact hw.mono hgrows.held
  | storeOrd =>
    simp only [Call.step, hpc]
    exact ⟨0, rfl, .zero _⟩
  | claim =>
    simp only [Walk, hpc] at hw
    have hi : st.bank.table (st.calls j).i ≠ 0 := fun h0 => hnot (.inl ⟨hpc, h0⟩)
    simp only [Call.step, hpc, if_neg hi]
    exact hw.mono hgrows.held
  | displace =>
    simp only [Walk, hpc] at hw
    have hi : st.bank.table (st.calls j).i ≠ (st.calls j).cur := fun he => hnot (.inr ⟨hpc, he⟩)
    simp only [Call.step, hpc, if_neg hi]
    exact hw.1.mono hgrows.held
  | done answer => exact absurd hpc (hrun answer)

omit [DecidableEq ι] in
theorem Grows.refl (p : Shape) (st : BankState ι) : Grows p st st :=
  ⟨fun _ _ hpub => ⟨hpub, rfl⟩, .refl _, fun _ hs => ⟨hs, Int.le_refl _⟩⟩

omit [DecidableEq ι] in
theorem Grows.trans {st'' : BankState ι} (h : Grows p st st') (h' : Grows p st' st'') :
    Grows p st st'' where
  published e x hpub :=
    let ⟨hpub', hord⟩ := h.published e x hpub
    let ⟨hpub'', hord'⟩ := h'.published e x hpub'
    ⟨hpub'', hord'.trans hord⟩
  held s x hs := h'.held s x (h.held s x hs)
  ord s hs :=
    let ⟨hs', hle⟩ := h.ord s hs
    let ⟨hs'', hle'⟩ := h'.ord s hs'
    ⟨hs'', hle'.trans hle⟩

theorem Tabled.grows (h : Tabled p st) (j : ι) : Grows p st (st.advance p j) := by
  by_cases hdone : ∃ answer, (st.calls j).pc = .done answer
  · obtain ⟨answer, hdone⟩ := hdone
    rw [advance_done hdone]
    exact .refl p st
  by_cases hp : Publishes st.bank (st.calls j)
  · exact h.grows_publish hp
  · exact h.grows_of_table (not_exists.mp hdone) (step_table hp)

/-- The answer of a call that enters the table. -/
theorem Tabled.walk_publish (h : Tabled p st) (hp : Publishes st.bank (st.calls j)) :
    Walk p (st.advance p j) ((st.advance p j).calls j) := by
  obtain ⟨e, -, hbank, hcall, hpub, hord⟩ := h.publish hp
  have hheld : (st.advance p j).bank.held (st.calls j).i = some (st.calls j).text := by
    rw [h.held_publish hp, update_self]
  have htable : (st.advance p j).bank.table (st.calls j).i = e + 1 := by simp [hbank]
  rw [hcall]
  cases hin : (st.calls j).interns with
  | true => exact .inr (.inr ⟨hin, e, rfl, hpub⟩)
  | false =>
    refine .inr (.inl ⟨hin, ⟨(st.calls j).i, hheld, ?_⟩, .inr ⟨e, rfl, hpub, hord⟩⟩)
    rw [htable, Nat.add_sub_cancel, hord]

/-- Whatever call takes the next step, the table stays in order. -/
theorem Tabled.advance (h : Tabled p st) (j : ι) : Tabled p (st.advance p j) := by
  have hgrows := h.grows j
  by_cases hdone : ∃ answer, (st.calls j).pc = .done answer
  · obtain ⟨answer, hdone⟩ := hdone
    rwa [advance_done hdone]
  by_cases hp : Publishes st.bank (st.calls j)
  · refine ⟨h.staged.advance j, fun s hs => ?_, h.placed_publish hp, fun k => ?_⟩
    · obtain ⟨e, -, hbank, -, hpub, -⟩ := h.publish hp
      by_cases hsi : s = (st.calls j).i
      · have htable : (st.advance p j).bank.table s = e + 1 := by simp [hbank, hsi]
        rw [htable, Nat.add_sub_cancel]
        exact ⟨_, hpub⟩
      · have htable : (st.advance p j).bank.table s = st.bank.table s := by
          simp [hbank, update_of_ne hsi]
        rw [htable] at hs ⊢
        obtain ⟨x, hpub'⟩ := h.entries s hs
        exact ⟨x, (hgrows.published _ x hpub').1⟩
    · by_cases hk : k = j
      · subst hk
        exact h.walk_publish hp
      · rw [advance_of_ne p st hk]
        exact (h.walk k).mono hgrows
  · have hrun := not_exists.mp hdone
    have htable : (st.advance p j).bank.table = st.bank.table := step_table hp
    refine ⟨h.staged.advance j, fun s hs => ?_, ?_, fun k => ?_⟩
    · rw [htable] at hs ⊢
      obtain ⟨x, hpub⟩ := h.entries s hs
      exact ⟨x, (hgrows.published _ x hpub).1⟩
    · have hheld : (st.advance p j).bank.held = st.bank.held :=
        funext fun s => h.held_eq hrun (by rw [htable])
      rw [hheld]
      exact h.placed
    · by_cases hk : k = j
      · subst hk
        exact h.walk_step hrun hp
      · rw [advance_of_ne p st hk]
        exact (h.walk k).mono hgrows

omit [DecidableEq ι] in
/-- A new bank, with every call before its first step. -/
theorem Tabled.new {calls : ι → Call} (p : Shape)
    (hcalls : ∀ j, ∃ ordinal text, calls j = .put p ordinal text ∨ calls j = .intern p text) :
    Tabled p ⟨.new, calls⟩ := by
  have hcall : ∀ j, (calls j).pc = .probe ∧ (calls j).id = none ∧ (calls j).off = none ∧
      (calls j).i = p.home (calls j).text ∧ ((calls j).interns = true → (calls j).ordinal = 0) := by
    intro j
    obtain ⟨ordinal, text, hc | hc⟩ := hcalls j <;> rw [hc]
    · exact ⟨rfl, rfl, rfl, rfl, nofun⟩
    · exact ⟨rfl, rfl, rfl, rfl, fun _ => rfl⟩
  have hno : ∀ {o : Option ℕ} {n : ℕ}, o = none → o ≠ some n := by
    rintro o n rfl
    nofun
  refine ⟨⟨⟨fun j _ h => absurd h (hno (hcall j).2.1), fun j _ _ h => absurd h (hno (hcall j).2.1),
    fun j _ h => absurd h (hno (hcall j).2.2.1), fun j _ _ _ _ h => absurd h (hno (hcall j).2.2.1)⟩,
    fun j => ?_, fun _ _ => rfl⟩, fun s hs => absurd rfl hs, fun s x hs => (nomatch hs), fun j =>
      ?_⟩
  · obtain ⟨hpc, -, -, -, hord⟩ := hcall j
    exact ⟨hord, fun _ _ _ => rfl, by simp [hpc, Pc.level], by simp [hpc, Pc.level], by simp [hpc],
      by simp [hpc, Pc.level], by simp [hpc, Pc.level], by simp [hpc, Pc.level],
      by simp [hpc, Pc.level], by simp [hpc, Pc.level]⟩
  · obtain ⟨hpc, -, -, hi, -⟩ := hcall j
    simp only [Walk, hpc]
    exact ⟨0, hi, .zero _⟩

theorem Tabled.reaches (h : Tabled p st) (hrun : Reaches (BankStep p) anyAction st st') :
    Tabled p st' ∧ Grows p st st' := by
  have hinv : ∀ {s : BankState ι} {j : ι} {t : BankState ι}, Tabled p s → anyAction s j →
      BankStep p j s t → Tabled p t := by
    rintro s j t hs - rfl
    exact hs.advance j
  refine ⟨hrun.invariant hinv h, hrun.relates hinv h (.refl p) .trans ?_⟩
  rintro s j t hs - rfl
  exact hs.grows j

/-- Calls take their steps in any order. -/
theorem reaches_schedule (p : Shape) (st : BankState ι) (schedule : List ι) :
    Reaches (BankStep p) anyAction st (schedule.foldl (fun t j => t.advance p j) st) := by
  induction schedule generalizing st with
  | nil => exact .refl st
  | cons j schedule ih => exact (Reaches.of_step (a := j) trivial rfl).trans (ih _)

/-- A call goes on with what it was given. -/
theorem given_reaches (hrun : Reaches (BankStep p) anyAction st st') (k : ι) :
    (st'.calls k).text = (st.calls k).text ∧ (st'.calls k).interns = (st.calls k).interns ∧
      (st'.calls k).ordinal = (st.calls k).ordinal := by
  refine hrun.invariant (I := fun t => (t.calls k).text = (st.calls k).text ∧
    (t.calls k).interns = (st.calls k).interns ∧ (t.calls k).ordinal = (st.calls k).ordinal)
    ?_ ⟨rfl, rfl, rfl⟩
  rintro t j t' ht - rfl
  by_cases hk : k = j
  · subst hk
    obtain ⟨⟨htext, hin, hord⟩, -⟩ := step_reserve p (t.calls k) t.bank
    rw [advance_self]
    exact ⟨htext.trans ht.1, hin.trans ht.2.1, hord.trans ht.2.2⟩
  · rwa [advance_of_ne p t hk]

/-! ### Looking a text up -/

theorem lookup_sound {h : UInt64} {i : ℕ}
    (hfound : lookup p b h x fuel i = some (some e)) : ∃ s, b.table s = e + 1 ∧ b.data e = x := by
  induction fuel generalizing i with
  | zero => cases hfound
  | succ fuel ih =>
    rw [lookup] at hfound
    split at hfound
    · cases hfound
    rename_i hi
    split at hfound
    · rename_i heq
      simp only [some.injEq] at hfound
      subst hfound
      exact ⟨i, (Nat.sub_add_cancel (Nat.pos_of_ne_zero hi)).symm, heq.2⟩
    · exact ih hfound

omit [DecidableEq ι] in
/-- The loop finds a text that is held: the slots before it hold other texts. -/
theorem Tabled.lookup_held (h : Tabled p st) (hs : st.bank.held s = some x) :
    ∃ fuel, lookup p st.bank (p.hashOf x) x fuel (p.home x) =
      some (some (st.bank.table s - 1)) := by
  obtain ⟨k, rfl, hpassed⟩ := h.placed s x hs
  have hloop : ∀ n i, i + n = k → lookup p st.bank (p.hashOf x) x (n + 1) (p.path x i) =
      some (some (st.bank.table (p.path x k) - 1)) := by
    intro n
    induction n with
    | zero =>
      rintro i rfl
      have hi : st.bank.table (p.path x i) ≠ 0 := fun h0 => by
        rw [add_zero, Bank.held_eq_none.mpr h0] at hs
        cases hs
      obtain ⟨y, hpub⟩ := h.entries _ hi
      have hy : y = x := by
        rw [add_zero, Bank.held_of_table hi, hpub.data_eq] at hs
        exact some.inj hs
      subst hy
      rw [lookup, if_neg hi, if_pos ⟨hpub.hash_eq, hpub.data_eq⟩, add_zero]
    | succ n ih =>
      intro i hi
      obtain ⟨y, hy, hne⟩ := hpassed i (by omega)
      have htable : st.bank.table (p.path x i) ≠ 0 := fun h0 => by
        rw [Bank.held_eq_none.mpr h0] at hy
        cases hy
      have hdata : st.bank.data (st.bank.table (p.path x i) - 1) = y := by
        rw [Bank.held_of_table htable] at hy
        exact some.inj hy
      rw [lookup, if_neg htable, if_neg fun heq => hne (hdata.symm.trans heq.2)]
      exact ih (i + 1) (by omega)
  exact ⟨k + 1, hloop k 0 (zero_add k)⟩

theorem fbankFind_sound (hfind : fbankFind p b fuel x = some (e : ℤ)) : b.data e = x := by
  unfold fbankFind at hfind
  obtain ⟨found, hlookup, hfound⟩ := map_eq_some_iff.mp hfind
  cases found with
  | none => simp at hfound
  | some c =>
    obtain rfl : c = e := Int.ofNat_inj.mp hfound
    obtain ⟨s, -, hdata⟩ := lookup_sound hlookup
    exact hdata

theorem fbankHolds_sound (hholds : fbankHolds p b fuel e = some true) : ∃ s, b.table s = e + 1 := by
  unfold fbankHolds at hholds
  split at hholds
  · cases hholds
  obtain ⟨found, hlookup, hfound⟩ := map_eq_some_iff.mp hholds
  cases found with
  | none => cases hfound
  | some c =>
    obtain rfl : c = e := by simpa using hfound
    obtain ⟨s, htable, -⟩ := lookup_sound hlookup
    exact ⟨s, htable⟩

omit [DecidableEq ι] in
theorem Tabled.published_lt (h : Tabled p st) (hpub : Published p st e x) :
    e < st.bank.published p := by
  obtain ⟨j, -, ⟨hid, hlt, -⟩, -⟩ := hpub
  exact Nat.lt_min.mpr ⟨h.staged.reserved.ids_lt j e hid, hlt⟩

omit [DecidableEq ι] in
/-- An entry in a slot is one that holds its text, and that a look for the text finds. -/
theorem Tabled.fbank_held (h : Tabled p st)
    (hs : st.bank.held s = some x) : ∃ e, st.bank.table s = e + 1 ∧ e < st.bank.published p ∧
    st.bank.data e = x ∧ (∃ fuel, fbankFind p st.bank fuel x = some (e : ℤ)) ∧
    ∃ fuel, fbankHolds p st.bank fuel e = some true := by
  have htable : st.bank.table s ≠ 0 := fun h0 => by
    rw [Bank.held_eq_none.mpr h0] at hs
    cases hs
  obtain ⟨y, hpub⟩ := h.entries s htable
  obtain rfl : y = x := by
    rw [Bank.held_of_table htable, hpub.data_eq] at hs
    exact some.inj hs
  obtain ⟨fuel, hfuel⟩ := h.lookup_held hs
  refine ⟨st.bank.table s - 1, (Nat.sub_add_cancel (Nat.pos_of_ne_zero htable)).symm,
    h.published_lt hpub, hpub.data_eq, ⟨fuel, ?_⟩, fuel, ?_⟩
  · rw [fbankFind, hfuel, map_some]
  · rw [fbankHolds, if_neg (Nat.not_le_of_lt (h.published_lt hpub)), hpub.hash_eq, hpub.data_eq,
      ← Shape.home, hfuel]
    simp

end AxisBridge.FBank
