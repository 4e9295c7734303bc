import AxisBridge.Runtime.FBankIntern
import AxisBridge.Runtime.TextPack

/-! A range of a bank packed into one text, while other calls may still put into the bank. -/
namespace AxisBridge.FBank
open List TextPack
open TextPack (TextList States packed packLoop textListPack textListUnpack texts)

/-- The bytes of `bk.data(e)`, each read at its own moment. -/
def Reading.data (r : Reading) (e : ℕ) : Bytes :=
  (range (r.len.len e)).map fun n => (r.byte n).bytes (r.off.off e + n)

/-- `from_utf8_unchecked`, which has no result on other bytes than those of a text. -/
def Reading.text (r : Reading) (e : ℕ) : String := (strFromUtf8 (r.data e)).getD ""

/-- `fbank_get`; an error is the panic's text. -/
def fbankGetText (p : Shape) (r : Reading) (id : Int64) : Except String String :=
  if id < 0 ∨ r.check.published p ≤ id.toInt.toNat then
    .error s!"fbank_get: id {id} is not an entry of this bank ({r.check.published p} entries)"
  else .ok (r.text id.toInt.toNat)

/-- A new bank and the calls on it: whether a call interns, its ordinal if it does not, its text. -/
def filling {ι : Type*} (p : Shape) (given : ι → Bool × ℤ × String) : BankState ι where
  bank := .new
  calls j := if (given j).1 then .intern p (textBytes (given j).2.2)
    else .put p (given j).2.1 (textBytes (given j).2.2)

/-- A call has stored the length of its entry, or has its answer. -/
def Late (c : Call) : Prop := 5 ≤ c.pc.level ∨ ∃ answer, c.pc = .done answer

/-- The call that the entry was given to writes into it no more. -/
def Settled {ι : Type*} (st : BankState ι) (e : ℕ) : Prop :=
  ∃ j, (st.calls j).id = some e ∧ Late (st.calls j)

/-- All accesses at once. -/
def Reading.at' (b : Bank) : Reading := ⟨b, b, b, fun _ => b⟩

/-- A reading of an entry in a state, or from a state on where it is settled. -/
def Sees {ι : Type*} [DecidableEq ι] (p : Shape) (st : BankState ι) (r : Reading) (e : ℕ) : Prop :=
  r = .at' st.bank ∧ e < st.bank.published p ∨ Settled st e ∧ r.Later p st

/-- The bytes of a call are in its entry. -/
structure Stored (b : Bank) (c : Call) (e : ℕ) : Prop where
  late : Late c
  id : c.id = some e
  len : b.len e = c.text.length
  off : ∃ o, c.off = some o ∧ b.off e = o
  copied : Copied b c c.text.length

variable {ι : Type*} [DecidableEq ι] {p : Shape} {given : ι → Bool × ℤ × String}
  {st st' : BankState ι} {b b' : Bank} {c : Call} {j k : ι} {e : ℕ} {r : Reading}

/-! ### Entries that are not written any more -/

theorem Late.step (h : Late c) : Late (c.step p b).1 := by
  cases hpc : c.pc with
  | probe | probeHash | probeData | probeOrd | takeId | takeBytes | copy n | storeOff | storeLen =>
    simp [Late, hpc, Pc.level] at h
  | storeHash =>
    cases hin : c.interns <;> simp [Late, Call.step, hpc, hin, Pc.level]
  | storeOrd => simp [Late, Call.step, hpc, Pc.level]
  | done answer => simp [Late, Call.step, hpc]
  | load | claim | hash | displace =>
    simp only [Call.step, hpc]
    split <;> simp [Late, Pc.level]
  | data =>
    simp only [Call.step, hpc]
    split
    · cases hin : c.interns <;> simp [Late, Pc.level]
    · simp [Late, Pc.level]
  | ord =>
    by_cases hord : b.ord (c.cur - 1) ≤ c.ordinal <;> simp [Late, Call.step, hpc, hord, Pc.level]

/-- A late call keeps its entry and its bytes as they are. -/
theorem Late.frame (h : Late c) : (c.step p b).1.id = c.id ∧ (c.step p b).1.off = c.off ∧
    (c.step p b).2.off = b.off ∧ (c.step p b).2.len = b.len ∧ (c.step p b).2.bytes = b.bytes := by
  cases hpc : c.pc with
  | probe | probeHash | probeData | probeOrd | takeId | takeBytes | copy n | storeOff | storeLen =>
    simp [Late, hpc, Pc.level] at h
  | storeHash | storeOrd | ord | done _ => simp [Call.step, hpc]
  | load | claim | hash | data | displace =>
    simp only [Call.step, hpc]
    split <;> simp

theorem step_len (h : c.pc ≠ .storeLen) : (c.step p b).2.len = b.len := by
  cases hpc : c.pc with
  | storeLen => exact absurd hpc h
  | copy n =>
    simp only [Call.step, hpc]
    cases c.text[n]? <;> rfl
  | probe | probeHash | probeData | load | claim | hash | data | displace =>
    simp only [Call.step, hpc]
    split <;> rfl
  | probeOrd | takeId | takeBytes | storeOff | storeHash | storeOrd | ord | done _ =>
    simp only [Call.step, hpc]

theorem Stored.mono (h : Stored b c e) (hsame : SameEntry b b' c) : Stored b' c e where
  late := h.late
  id := h.id
  len := (hsame.fields e h.id).2.1.trans h.len
  off := by
    obtain ⟨o, ho, hoff⟩ := h.off
    exact ⟨o, ho, (hsame.fields e h.id).1.trans hoff⟩
  copied := h.copied.mono hsame

theorem Stored.step (h : Stored b c e) : Stored (c.step p b).2 (c.step p b).1 e := by
  obtain ⟨hid, hown, hoff, hlen, hbytes⟩ := @Late.frame p b c h.late
  obtain ⟨htext, -, -⟩ := (step_reserve p c b).1
  obtain ⟨o, ho, hat⟩ := h.off
  refine ⟨h.late.step, hid.trans h.id, ?_, ⟨o, hown.trans ho, hoff ▸ hat⟩, ?_⟩
  · rw [hlen, htext, h.len]
  · intro o' ho' m hm x hx
    rw [hbytes]
    rw [hown] at ho'
    rw [htext] at hm hx
    exact h.copied o' ho' m hm x hx

/-- Every entry is empty or has the text of its call. -/
def Entries (st : BankState ι) : Prop := ∀ e, st.bank.len e = 0 ∨ ∃ j, Stored st.bank (st.calls j) e

theorem Stage.stored (h : Stage p b c) (hpc : c.pc = .storeLen) (hid : c.id = some e) :
    Stored (c.step p b).2 (c.step p b).1 e := by
  have hlevel : c.pc.level = 4 := by rw [hpc, Pc.level]
  obtain ⟨o, ho⟩ := h.hasOff (by omega)
  simp only [Call.step, hpc, getD_of_eq hid]
  exact ⟨.inl (le_refl 5), hid, Function.update_self .., ⟨o, ho, h.offAt (by omega) e o hid ho⟩,
    h.copied (by omega)⟩

theorem Staged.entries (h : Staged p st) (hent : Entries st) (j : ι) :
    Entries (st.advance p j) := by
  intro e
  rcases hent e with hzero | ⟨k, hk⟩
  · by_cases hpc : (st.calls j).pc = .storeLen
    · obtain ⟨id, hid, -⟩ := (h.stage j).hasId (by rw [hpc, Pc.level]; omega)
      by_cases he : e = id
      · subst he
        refine .inr ⟨j, ?_⟩
        rw [advance_self]
        exact (h.stage j).stored hpc hid
      · left
        simp only [BankState.advance, Call.step, hpc, getD_of_eq hid]
        exact (Function.update_of_ne he ..).trans hzero
    · left
      simp only [BankState.advance, step_len hpc, hzero]
  · refine .inr ⟨k, ?_⟩
    by_cases hne : k = j
    · subst hne
      rw [advance_self]
      exact hk.step
    · rw [advance_of_ne p st hne]
      exact hk.mono (h.reserved.sameEntry hne (h.stage j))

/-- The state of a bank that is filled with the texts. -/
structure Filled (p : Shape) (given : ι → Bool × ℤ × String) (st : BankState ι) : Prop where
  staged : Staged p st
  entries : Entries st
  text : ∀ j, (st.calls j).text = textBytes (given j).2.2

omit [DecidableEq ι] in
theorem Filled.new (p : Shape) (given : ι → Bool × ℤ × String) : Filled p given
    (filling p given) where
  staged := by
    refine (Tabled.new p fun j => ⟨(given j).2.1, textBytes (given j).2.2, ?_⟩).staged
    by_cases h : (given j).1 = true
    · exact .inr (if_pos h)
    · exact .inl (if_neg h)
  entries _ := .inl rfl
  text j := by
    simp only [filling]
    split <;> rfl

theorem Filled.advance (h : Filled p given st) (j : ι) : Filled p given (st.advance p j) :=
  ⟨h.staged.advance j, h.staged.entries h.entries j,
    fun k => (advance_text p st j k).trans (h.text k)⟩

theorem Filled.of_run (hrun : Reaches (BankStep p) anyAction (filling p given) st) :
    Filled p given st := by
  refine hrun.invariant ?_ (Filled.new p given)
  rintro t j t' ht - rfl
  exact ht.advance j

theorem Settled.advance (h : Settled st e) (j : ι) : Settled (st.advance p j) e := by
  obtain ⟨k, hid, hlate⟩ := h
  refine ⟨k, ?_⟩
  by_cases hk : k = j
  · subst hk
    rw [advance_self]
    exact ⟨hlate.frame.1.trans hid, hlate.step⟩
  · rw [advance_of_ne p st hk]
    exact ⟨hid, hlate⟩

theorem count_advance (p : Shape) (st : BankState ι) (j : ι) :
    st.bank.count ≤ (st.advance p j).bank.count := by
  rcases (step_reserve p (st.calls j) st.bank).2 with ⟨-, -, hc, -⟩ | ⟨-, -, hc, -⟩ |
    ⟨-, -, hc, -⟩ <;> simp only [BankState.advance, hc] <;> omega

section
variable (h : Filled p given st)

include h

theorem Filled.sameText (hset : Settled st e) (j : ι) :
    SameText st.bank (st.advance p j).bank e := by
  obtain ⟨k, hid, hlate⟩ := hset
  by_cases hk : k = j
  · subst hk
    obtain ⟨-, -, hoff, hlen, hbytes⟩ := @Late.frame p st.bank _ hlate
    simp [BankState.advance, SameText, hoff, hlen, hbytes]
  · have hsame := h.staged.reserved.sameEntry hk (h.staged.stage j)
    obtain ⟨hoff, hlen, -⟩ := hsame.fields e hid
    refine ⟨hoff, hlen, fun m hm => ?_⟩
    rcases h.entries e with hzero | ⟨i, hi⟩
    · omega
    · obtain rfl := h.staged.reserved.ids_inj i k e hi.id hid
      obtain ⟨o, ho, hat⟩ := hi.off
      rw [hat]
      exact hsame.bytes o ho m (hi.len ▸ hm)

/-- A settled entry stays as it is, and the count only grows. -/
theorem Filled.settled (hset : Settled st e) (hrun : Reaches (BankStep p) anyAction st st') :
    SameText st.bank st'.bank e ∧ st.bank.count ≤ st'.bank.count := by
  refine (hrun.invariant (I := fun t : BankState ι => Filled p given t ∧ Settled t e ∧
    SameText st.bank t.bank e ∧ st.bank.count ≤ t.bank.count) ?_
    ⟨h, hset, ⟨rfl, rfl, fun _ _ => rfl⟩, le_refl _⟩).2.2
  rintro t j t' ⟨ht, hset', hsame, hcount⟩ - rfl
  exact ⟨ht.advance j, hset'.advance j, hsame.trans (ht.sameText hset' j),
    hcount.trans (count_advance p t j)⟩

/-- What a call reads of an entry are the bytes that the entry has. -/
theorem Filled.data_eq (hr : Sees p st r e) : r.data e = st.bank.data e := by
  rcases hr with ⟨rfl, -⟩ | ⟨hset, hr⟩
  · rfl
  · obtain ⟨t₁, hrun₁, hoff⟩ := hr.off
    obtain ⟨t₂, hrun₂, hlen⟩ := hr.len
    rw [Reading.data, Bank.data, ← hoff, ← hlen, (h.settled hset hrun₁).1.1,
      (h.settled hset hrun₂).1.2.1]
    refine map_congr_left fun n hn => ?_
    obtain ⟨t₃, hrun₃, hbyte⟩ := hr.byte n
    rw [← hbyte]
    exact (h.settled hset hrun₃).1.2.2 n (mem_range.mp hn)

theorem Filled.check (hr : Sees p st r e) (he : e < p.maxEntries) : e < r.check.published p := by
  rcases hr with ⟨rfl, hlt⟩ | ⟨hset, hr⟩
  · exact hlt
  · obtain ⟨t, hrun, hcheck⟩ := hr.check
    have hcount := (h.settled hset hrun).2
    obtain ⟨j, hid, -⟩ := hset
    have hlt := h.staged.reserved.ids_lt j e hid
    rw [← hcheck, Bank.published]
    omega

end

/-! ### The range -/

/-- The ranges that are packed. -/
def InRange (p : Shape) (now : Bank) (first stop : Int64) : Prop :=
  0 ≤ first.toInt ∧ first.toInt ≤ stop.toInt ∧ stop.toInt ≤ now.published p

variable {now : Bank} {first stop : Int64}

/-- The texts that `fbank_get` answers for the ids of the range. -/
theorem Filled.gets (h : Filled p given st) {ids : List ℕ} {r g : ℕ → Reading}
    (hids : ∀ e ∈ ids, e < p.maxEntries ∧ Sees p st (r e) e ∧ Sees p st (g e) e) :
    ids.mapM (fun e => fbankGetText p (g e) (.ofNat e)) = .ok (ids.map fun e => (r e).text e) := by
  induction ids with
  | nil => rfl
  | cons e ids ih =>
    obtain ⟨he, hr, hg⟩ := hids e mem_cons_self
    have hmax := p.entries.2
    have htoInt : (Int64.ofNat e).toInt = e := Int64.toInt_ofNat_of_lt (by omega)
    have hcheck := h.check hg he
    have hget : fbankGetText p (g e) (.ofNat e) = .ok ((r e).text e) := by
      have hcond :
          ¬ (Int64.ofNat e < 0 ∨ (g e).check.published p ≤ (Int64.ofNat e).toInt.toNat) := by
        rw [Int64.lt_iff_toInt_lt, htoInt, Int64.toInt_zero]
        omega
      rw [fbankGetText, if_neg hcond, htoInt, Int.toNat_natCast, Reading.text, Reading.text,
        h.data_eq hg, h.data_eq hr]
    rw [mapM_cons, hget, ih fun e he => hids e (mem_cons_of_mem _ he)]
    rfl

end AxisBridge.FBank
