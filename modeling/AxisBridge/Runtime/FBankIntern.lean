import AxisBridge.Runtime.FBank
import AxisBridge.Runtime.Text
import Mathlib.Data.Fin.VecNotation

/-! A bank that texts are only interned in: an id stands for its text. -/
namespace AxisBridge.FBank
open List

/-- The memory at each of the reads of one entry, which steps of other calls may come between. -/
structure Reading where
  check : Bank
  off : Bank
  len : Bank
  byte : ℕ → Bank

/-- One text of `fbank_get_list`; `none` is a panic. -/
def fbankGet (p : Shape) (r : Reading) (s : String) : Option Bytes :=
  match parseI64 s with
  | none => none
  | some id =>
    if id < 0 ∨ (r.check.published p : ℤ) ≤ id then none
    else
      let e := id.toNat
      some ((range (r.len.len e)).map fun n => (r.byte n).bytes (r.off.off e + n))

def fbankGetList (p : Shape) (ids : List (Reading × String)) : Option (List Bytes) :=
  ids.mapM fun q => fbankGet p q.1 q.2

variable {ι : Type*} [DecidableEq ι] {p : Shape} {text : ι → Bytes} {st st' : BankState ι}
  {b b' : Bank} {c : Call} {j k : ι} {e : ℕ} {x : Bytes}

/-- A new bank on which every call interns its text. -/
def interning (p : Shape) (text : ι → Bytes) : BankState ι :=
  ⟨.new, fun j => .intern p (text j)⟩

theorem interning_tabled (hrun : Reaches (BankStep p) anyAction (interning p text) st) :
    Tabled p st :=
  ((Tabled.new p fun j => ⟨0, text j, .inr rfl⟩).reaches hrun).1

/-! ### Slots that stay -/

/-- The slot a call reads stays as it was read, and an id that is answered lies in a slot. -/
def InSlot (b : Bank) (c : Call) : Prop :=
  match c.pc with
  | .probeHash | .probeData | .hash | .data => b.table c.i = c.cur ∧ c.cur ≠ 0
  | .done answer => answer = -2 ∨ ∃ (s e : ℕ), answer = e ∧ b.table s = e + 1
  | _ => True

/-- A slot that is taken is not written any more. -/
def TableKept (b b' : Bank) : Prop := ∀ s, b.table s ≠ 0 → b'.table s = b.table s

theorem InSlot.mono (h : InSlot b c) (hkept : TableKept b b') : InSlot b' c := by
  have hread : b.table c.i = c.cur ∧ c.cur ≠ 0 → b'.table c.i = c.cur ∧ c.cur ≠ 0 :=
    fun ⟨htable, hne⟩ => ⟨(hkept _ (by rwa [htable])).trans htable, hne⟩
  unfold InSlot at h ⊢
  split at h
  · exact hread h
  · exact hread h
  · exact hread h
  · exact hread h
  · rcases h with h | ⟨s, e, he, htable⟩
    · exact .inl h
    · exact .inr ⟨s, e, he, (hkept s (by omega)).trans htable⟩
  · trivial

theorem InSlot.answer (h : b.table c.i = c.cur ∧ c.cur ≠ 0) :
    InSlot b { c with pc := .done (c.cur - 1 : ℕ) } :=
  .inr ⟨c.i, c.cur - 1, rfl, h.1.trans (Nat.sub_add_cancel (Nat.pos_of_ne_zero h.2)).symm⟩

/-- An interning call never takes a slot from another. -/
theorem Tabled.tableKept (h : Tabled p st) (hin : (st.calls j).interns = true) :
    TableKept st.bank (st.advance p j).bank := by
  intro s hs
  by_cases hp : Publishes st.bank (st.calls j)
  · obtain ⟨e, -, hbank, -, -, -⟩ := h.publish hp
    rcases hp with ⟨-, htable⟩ | ⟨hpc, -⟩
    · have hne : s ≠ (st.calls j).i := by
        rintro rfl
        exact hs htable
      rw [hbank]
      exact Function.update_of_ne hne ..
    · have hw := h.walk j
      simp only [Walk, hpc, hin, reduceCtorEq, and_false, false_and] at hw
  · exact congrFun (step_table hp) s

theorem Tabled.inSlot_step (h : Tabled p st) (hin : (st.calls j).interns = true)
    (hslot : InSlot st.bank (st.calls j)) :
    InSlot (st.advance p j).bank ((st.advance p j).calls j) := by
  have hkept := h.tableKept hin
  by_cases hp : Publishes st.bank (st.calls j)
  · obtain ⟨e, -, hbank, hcall, -, -⟩ := h.publish hp
    rw [hcall]
    refine .inr ⟨(st.calls j).i, e, rfl, ?_⟩
    rw [hbank]
    exact Function.update_self ..
  have hw := h.walk j
  have hread : ∀ pc, st.bank.table (st.calls j).i ≠ 0 → pc = Pc.probeHash ∨ pc = Pc.hash →
      InSlot st.bank { st.calls j with pc, cur := st.bank.table (st.calls j).i } := by
    rintro pc hne (rfl | rfl) <;> exact ⟨rfl, hne⟩
  rw [advance_self]
  generalize (st.advance p j).bank = b' at hkept ⊢
  cases hpc : (st.calls j).pc with
  | probe | load =>
    simp only [Call.step, hpc]
    split
    · trivial
    · rename_i hi
      exact (hread _ hi (by simp)).mono hkept
  | probeHash | hash =>
    simp only [InSlot, hpc] at hslot
    simp only [Call.step, hpc]
    split
    · exact InSlot.mono (c := { st.calls j with pc := _ }) hslot hkept
    · trivial
  | probeData | data =>
    simp only [InSlot, hpc] at hslot
    simp only [Call.step, hpc, hin, if_true]
    split
    · exact (InSlot.answer hslot).mono hkept
    · trivial
  | takeId | takeBytes =>
    simp only [Call.step, hpc]
    split
    · exact .inl rfl
    · trivial
  | copy n =>
    simp only [Call.step, hpc]
    split <;> trivial
  | storeHash =>
    simp only [Call.step, hpc, hin, if_true]
    trivial
  | storeOff | storeLen | storeOrd =>
    simp only [Call.step, hpc]
    trivial
  | claim =>
    simp only [Call.step, hpc]
    split
    · rename_i hi
      exact absurd (.inl ⟨hpc, hi⟩) hp
    · trivial
  | probeOrd | ord | displace => simp [Walk, hpc, hin] at hw
  | done answer =>
    simp only [Call.step, hpc]
    exact InSlot.mono (c := { st.calls j with pc := _ }) (by rwa [InSlot, hpc] at hslot) hkept

theorem interning_inSlot (hrun : Reaches (BankStep p) anyAction (interning p text) st) :
    ∀ j, InSlot st.bank (st.calls j) := by
  have hinv := hrun.invariant (I := fun t : BankState ι => Tabled p t ∧
      ∀ j, (t.calls j).interns = true ∧ InSlot t.bank (t.calls j)) ?_
    ⟨interning_tabled (.refl _), fun _ => ⟨rfl, trivial⟩⟩
  · exact fun j => (hinv.2 j).2
  rintro t j t' ⟨ht, hslot⟩ - rfl
  refine ⟨ht.advance j, fun k => ?_⟩
  by_cases hk : k = j
  · subst hk
    refine ⟨?_, ht.inSlot_step (hslot k).1 (hslot k).2⟩
    rw [advance_self]
    exact (step_reserve p (t.calls k) t.bank).1.2.1.trans (hslot k).1
  · rw [advance_of_ne p t hk]
    exact ⟨(hslot k).1, (hslot k).2.mono (ht.tableKept (hslot j).1)⟩

/-! ### Entries that stay -/

/-- An entry has the same bytes, in the same place. -/
def SameText (b b' : Bank) (e : ℕ) : Prop :=
  b'.off e = b.off e ∧ b'.len e = b.len e ∧
    ∀ m < b.len e, b'.bytes (b.off e + m) = b.bytes (b.off e + m)

theorem SameText.trans {b'' : Bank} (h : SameText b b' e) (h' : SameText b' b'' e) :
    SameText b b'' e := by
  obtain ⟨hoff, hlen, hbytes⟩ := h
  obtain ⟨hoff', hlen', hbytes'⟩ := h'
  rw [hoff, hlen] at hbytes'
  exact ⟨hoff'.trans hoff, hlen'.trans hlen, fun m hm => (hbytes' m hm).trans (hbytes m hm)⟩

theorem Tabled.sameText_advance (h : Tabled p st) (j : ι) (hpub : Published p st e x) :
    SameText st.bank (st.advance p j).bank e := by
  by_cases hdone : ∃ answer, (st.calls j).pc = .done answer
  · obtain ⟨answer, hdone⟩ := hdone
    rw [advance_done hdone]
    exact ⟨rfl, rfl, fun _ _ => rfl⟩
  obtain ⟨k, hpc, ⟨hid, -, o, ho, hoff, hlen, -⟩, -⟩ := hpub
  have hk : k ≠ j := by
    rintro rfl
    exact hdone ⟨_, hpc⟩
  have hsame := h.staged.reserved.sameEntry hk (h.staged.stage j)
  obtain ⟨hoff', hlen', -, -⟩ := hsame.fields e hid
  refine ⟨hoff', hlen', fun m hm => ?_⟩
  rw [hoff]
  rw [hlen] at hm
  exact hsame.bytes o ho m hm

/-- Nobody writes an entry that is in the table. -/
theorem Tabled.sameText (h : Tabled p st) (hrun : Reaches (BankStep p) anyAction st st')
    (hpub : Published p st e x) : Published p st' e x ∧ SameText st.bank st'.bank e := by
  refine hrun.invariant (I := fun t : BankState ι =>
    Tabled p t ∧ Published p t e x ∧ SameText st.bank t.bank e) ?_
    ⟨h, hpub, rfl, rfl, fun _ _ => rfl⟩ |>.2
  rintro t j t' ⟨ht, hpub', hsame⟩ - rfl
  exact ⟨ht.advance j, ((ht.grows j).published e x hpub').1,
    hsame.trans (ht.sameText_advance j hpub')⟩

/-- The memory in a state from `st` on. -/
def Later (p : Shape) (st : BankState ι) (b : Bank) : Prop :=
  ∃ st', Reaches (BankStep p) anyAction st st' ∧ st'.bank = b

/-- Every access of a reading is one from `st` on. -/
structure Reading.Later (p : Shape) (st : BankState ι) (r : Reading) : Prop where
  check : FBank.Later p st r.check
  off : FBank.Later p st r.off
  len : FBank.Later p st r.len
  byte : ∀ n, FBank.Later p st (r.byte n)

/-- All accesses at once. -/
theorem Reading.Later.now (p : Shape) (st : BankState ι) :
    Reading.Later p st ⟨st.bank, st.bank, st.bank, fun _ => st.bank⟩ :=
  have h : FBank.Later p st st.bank := ⟨st, .refl st, rfl⟩
  ⟨h, h, h, fun _ => h⟩

theorem Tabled.fbankGet_eq (h : Tabled p st) (hpub : Published p st e x) {r : Reading}
    (hr : r.Later p st) : fbankGet p r (toString (e : ℤ)) = some x := by
  obtain ⟨t₁, hrun₁, hcheck⟩ := hr.check
  obtain ⟨t₂, hrun₂, hoff⟩ := hr.off
  obtain ⟨t₃, hrun₃, hlen⟩ := hr.len
  have he : e < r.check.published p := by
    rw [← hcheck]
    exact (h.reaches hrun₁).1.published_lt (h.sameText hrun₁ hpub).1
  have hlt : r.check.published p < 2 ^ 63 :=
    (min_le_right _ _).trans_lt p.entries.2
  have hparse : parseI64 (toString (e : ℤ)) = some (e : ℤ) :=
    parseI64_toString (by omega) (by omega)
  simp only [fbankGet, hparse]
  rw [if_neg (by omega), ← hpub.data_eq, Bank.data, Int.toNat_natCast, ← hoff, ← hlen,
    (h.sameText hrun₃ hpub).2.2.1, (h.sameText hrun₂ hpub).2.1]
  refine congrArg some (map_congr_left fun n hn => ?_)
  obtain ⟨t₄, hrun₄, hbyte⟩ := hr.byte n
  rw [← hbyte]
  exact (h.sameText hrun₄ hpub).2.2.2 n (mem_range.mp hn)

theorem interning_answered (hrun : Reaches (BankStep p) anyAction (interning p text) st)
    {answer : ℤ} (hdone : (st.calls j).pc = .done answer) (hfull : answer ≠ -2) :
    ∃ (s e : ℕ), answer = e ∧ st.bank.table s = e + 1 ∧ Published p st e (text j) := by
  have hslot := interning_inSlot hrun j
  have hw := (interning_tabled hrun).walk j
  obtain ⟨htext, hin, -⟩ := given_reaches hrun j
  rw [InSlot, hdone] at hslot
  rw [Walk, hdone] at hw
  obtain ⟨s, e, he, htable⟩ := hslot.resolve_left hfull
  refine ⟨s, e, he, htable, ?_⟩
  rcases hw with hw | ⟨hin', -⟩ | ⟨-, e', he', hpub⟩
  · exact absurd hw hfull
  · rw [hin] at hin'
    cases hin'
  · obtain rfl : e = e' := Int.ofNat_inj.mp (he.symm.trans he')
    rw [htext] at hpub
    exact hpub

/-- In any schedule of interning calls, two ids are equal where the texts are, and from the moment
calls have answered with their ids a list of these reads as the list of their texts. -/
theorem intern_consistent (p : Shape) (text : ι → Bytes)
    (hrun : Reaches (BankStep p) anyAction (interning p text) st) :
    (∀ j k a b, (st.calls j).pc = .done a → (st.calls k).pc = .done b → a ≠ -2 → b ≠ -2 →
      (a = b ↔ text j = text k)) ∧
    ∀ (asked : List (Reading × ι)) (id : ι → ℤ),
      (∀ q ∈ asked, (st.calls q.2).pc = .done (id q.2) ∧ id q.2 ≠ -2 ∧ q.1.Later p st) →
      fbankGetList p (asked.map fun q => (q.1, toString (id q.2))) =
        some (asked.map fun q => text q.2) := by
  have h := interning_tabled hrun
  constructor
  · intro j k a b hj hk ha hb
    obtain ⟨s, e, rfl, hs, hpub⟩ := interning_answered hrun hj ha
    obtain ⟨t, d, rfl, ht, hpub'⟩ := interning_answered hrun hk hb
    constructor
    · intro he
      obtain rfl : e = d := Int.ofNat_inj.mp he
      rw [← hpub.data_eq, hpub'.data_eq]
    · intro htext
      have hheld : st.bank.held s = some (text j) := by
        rw [Bank.held_of_table (by omega), hs, Nat.add_sub_cancel, hpub.data_eq]
      have hheld' : st.bank.held t = some (text j) := by
        rw [Bank.held_of_table (by omega), ht, Nat.add_sub_cancel, hpub'.data_eq, htext]
      rw [h.placed.slot_eq hheld hheld'] at hs
      omega
  · intro asked id hasked
    induction asked with
    | nil => rfl
    | cons q asked ih =>
      obtain ⟨hdone, hfull, hr⟩ := hasked q mem_cons_self
      obtain ⟨s, e, he, -, hpub⟩ := interning_answered hrun hdone hfull
      have ih := ih fun q' hq' => hasked q' (mem_cons_of_mem q hq')
      rw [fbankGetList] at ih ⊢
      rw [map_cons, mapM_cons, he, h.fbankGet_eq hpub hr, ih]
      rfl

/-- Two texts that share their hash, and the first of them once more. -/
theorem intern_consistent_run : ∃ (p : Shape) (text : Fin 3 → Bytes) (st : BankState (Fin 3)),
    Reaches (BankStep p) anyAction (interning p text) st ∧
      text 0 ≠ text 1 ∧ p.hashOf (text 0) = p.hashOf (text 1) ∧ (st.calls 0).pc = .done 1 ∧
      (st.calls 1).pc = .done 0 ∧ (st.calls 2).pc = .done 1 ∧ text 0 = text 2 ∧
      fbankGetList p [(⟨st.bank, st.bank, st.bank, fun _ => st.bank⟩, "1")] = some [text 0] := by
  obtain ⟨st, hrun, h0, h1, h2⟩ : ∃ st : BankState (Fin 3),
      Reaches (BankStep ⟨2, 8, fun _ => 0, by decide⟩) anyAction
        (interning ⟨2, 8, fun _ => 0, by decide⟩ (![[97], [98, 98], [97]] : Fin 3 → Bytes))
        st ∧ (st.calls 0).pc = .done 1 ∧ (st.calls 1).pc = .done 0 ∧ (st.calls 2).pc = .done 1 :=
    -- the second call gets its id first, the first call meets its entry in the slot of both
    ⟨_, @reaches_schedule (Fin 3) _ _ _
        (replicate 11 1 ++ replicate 13 0 ++ replicate 6 2),
      by decide +kernel, by decide +kernel, by decide +kernel⟩
  obtain ⟨hids, hget⟩ := intern_consistent _ _ hrun
  have hlist := hget [(⟨st.bank, st.bank, st.bank, fun _ => st.bank⟩, 0)] (fun _ => 1)
    (by simpa using ⟨h0, .now _ st⟩)
  exact ⟨_, _, st, hrun, by decide, rfl, h0, h1, h2,
    (hids 0 2 1 1 h0 h2 (by decide) (by decide)).mp rfl, hlist⟩

end AxisBridge.FBank
