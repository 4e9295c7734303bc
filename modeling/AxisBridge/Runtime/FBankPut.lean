import AxisBridge.Runtime.FBank
import Mathlib.Order.Bounds.Basic

/-! Puts from any number of calls keep each text under the lowest of its ordinals. -/
namespace AxisBridge.FBank

variable {ι : Type*} [DecidableEq ι] {p : Shape} {puts : ι → ℤ × List UInt8} {st st' : BankState ι}
  {j : ι}

/-- A new bank on which every call is a put of its ordinal and text. -/
def putting (p : Shape) (puts : ι → ℤ × List UInt8) : BankState ι :=
  ⟨.new, fun j => .put p (puts j).1 (puts j).2⟩

/-- Some look at the bank answers that the entry holds its text. -/
def Holds (p : Shape) (b : Bank) (e : ℕ) : Prop := ∃ fuel, fbankHolds p b fuel e = some true

theorem putting_tabled (hrun : Reaches (BankStep p) anyAction (putting p puts) st) : Tabled p st :=
  ((Tabled.new p fun j => ⟨(puts j).1, (puts j).2, .inl rfl⟩).reaches hrun).1

theorem putting_given (hrun : Reaches (BankStep p) anyAction (putting p puts) st) (j : ι) :
    (st.calls j).text = (puts j).2 ∧ (st.calls j).interns = false ∧
      (st.calls j).ordinal = (puts j).1 :=
  given_reaches hrun j

omit [DecidableEq ι] in
theorem Tabled.answered (h : Tabled p st) {answer : ℤ} (hdone : (st.calls j).pc = .done answer) :
    Answered p st (st.calls j) answer := by
  have hw := h.walk j
  rwa [Walk, hdone] at hw

omit [DecidableEq ι] in
/-- A put that is done has left its text in the table, with an ordinal not above its own. -/
theorem Tabled.kept (h : Tabled p st) (hin : (st.calls j).interns = false) {answer : ℤ}
    (hdone : (st.calls j).pc = .done answer) (hfull : answer ≠ -2) : Kept st.bank (st.calls j) := by
  rcases h.answered hdone with rfl | ⟨-, hkept, -⟩ | ⟨hin', -⟩
  · exact absurd rfl hfull
  · exact hkept
  · rw [hin] at hin'
    cases hin'

omit [DecidableEq ι] in
/-- Only one entry of a text holds it. -/
theorem Tabled.holds_iff (h : Tabled p st) {s e e' : ℕ} {x : List UInt8}
    (hs : st.bank.held s = some x) (htable : st.bank.table s = e + 1) :
    Holds p st.bank e' ∧ st.bank.data e' = x ↔ e' = e := by
  obtain ⟨c, hc, -, hdata, -, hholds⟩ := h.fbank_held hs
  obtain rfl : c = e := by omega
  constructor
  · rintro ⟨⟨fuel, hfuel⟩, hdata'⟩
    obtain ⟨t, ht⟩ := fbankHolds_sound hfuel
    have hheld : st.bank.held t = some x := by
      rw [Bank.held_of_table (by omega), ht, Nat.add_sub_cancel, hdata']
    rw [h.placed.slot_eq hheld hs] at ht
    omega
  · rintro rfl
    exact ⟨hholds, hdata⟩

theorem kept_least (hrun : Reaches (BankStep p) anyAction (putting p puts) st)
    (hdone : ∀ j, ∃ answer, (st.calls j).pc = .done answer ∧ answer ≠ -2) {s : ℕ} {x : List UInt8}
    (hs : st.bank.held s = some x) :
    IsLeast {n | ∃ j, puts j = (n, x)} (st.bank.ord (st.bank.table s - 1)) := by
  have h := putting_tabled hrun
  constructor
  · have htable : st.bank.table s ≠ 0 := fun h0 => by
      rw [Bank.held_eq_none.mpr h0] at hs
      cases hs
    obtain ⟨y, hpub⟩ := h.entries s htable
    rw [Bank.held_of_table htable, hpub.data_eq, Option.some.injEq] at hs
    subst hs
    obtain ⟨j, -, ⟨-, -, o, -, -, -, -, hord, -⟩, htext⟩ := hpub
    obtain ⟨htext', -, hord'⟩ := putting_given hrun j
    exact ⟨j, Prod.ext (hord'.symm.trans hord.symm) (htext'.symm.trans htext)⟩
  · rintro n ⟨j, hj⟩
    obtain ⟨answer, hpc, hfull⟩ := hdone j
    obtain ⟨htext, hin, hord⟩ := putting_given hrun j
    obtain ⟨t, ht, hle⟩ := h.kept hin hpc hfull
    rw [htext, hj] at ht
    rwa [hord, hj, h.placed.slot_eq ht hs] at hle

/-- In any schedule of puts: -1 is answered only where an entry of the text is held with an ordinal
not above the call's own, an id is that of an entry with the call's own text and ordinal, and a look
for a text answers only entries of that very text. Once all calls are done and none has met a full
bank, one entry holds each text, under the lowest ordinal it was put with. -/
theorem fbank_put_keeps_first (p : Shape) (puts : ι → ℤ × List UInt8)
    (hrun : Reaches (BankStep p) anyAction (putting p puts) st) :
    (∀ j, (st.calls j).pc = .done (-1) →
      ∃ e, Holds p st.bank e ∧ st.bank.data e = (puts j).2 ∧ st.bank.ord e ≤ (puts j).1) ∧
    (∀ j (e : ℕ), (st.calls j).pc = .done e →
      st.bank.data e = (puts j).2 ∧ st.bank.ord e = (puts j).1) ∧
    (∀ fuel x (e : ℕ), fbankFind p st.bank fuel x = some (e : ℤ) → st.bank.data e = x) ∧
    ((∀ j, ∃ answer, (st.calls j).pc = .done answer ∧ answer ≠ -2) → ∀ j, ∃ e,
      (∀ e', Holds p st.bank e' ∧ st.bank.data e' = (puts j).2 ↔ e' = e) ∧
      (∃ fuel, fbankFind p st.bank fuel (puts j).2 = some (e : ℤ)) ∧
      IsLeast {n | ∃ k, puts k = (n, (puts j).2)} (st.bank.ord e)) := by
  have h := putting_tabled hrun
  have hslot : ∀ j answer, (st.calls j).pc = .done answer → answer ≠ -2 → ∃ s,
      st.bank.held s = some (puts j).2 ∧ st.bank.ord (st.bank.table s - 1) ≤ (puts j).1 := by
    intro j answer hdone hfull
    obtain ⟨htext, hin, hord⟩ := putting_given hrun j
    rw [← htext, ← hord]
    exact h.kept hin hdone hfull
  refine ⟨fun j hdone => ?_, fun j e hdone => ?_, fun fuel x e => fbankFind_sound,
    fun hdone j => ?_⟩
  · obtain ⟨s, hs, hle⟩ := hslot j (-1) hdone (by decide)
    obtain ⟨e, htable, -, hdata, -, hholds⟩ := h.fbank_held hs
    rw [htable, Nat.add_sub_cancel] at hle
    exact ⟨e, hholds, hdata, hle⟩
  · obtain ⟨htext, hin, hord⟩ := putting_given hrun j
    rw [← htext, ← hord]
    rcases h.answered hdone with hfull | ⟨-, -, hfull | ⟨e', he, hpub, hord'⟩⟩ | ⟨hin', -⟩
    · omega
    · omega
    · obtain rfl : e = e' := Int.ofNat_inj.mp he
      exact ⟨hpub.data_eq, hord'⟩
    · rw [hin] at hin'
      cases hin'
  · obtain ⟨answer, hpc, hfull⟩ := hdone j
    obtain ⟨s, hs, -⟩ := hslot j answer hpc hfull
    obtain ⟨e, htable, -, -, hfind, -⟩ := h.fbank_held hs
    refine ⟨e, fun e' => h.holds_iff hs htable, hfind, ?_⟩
    have hleast := kept_least hrun hdone hs
    rwa [htable, Nat.add_sub_cancel] at hleast

/-- A put of ordinal 5 comes after one of ordinal 7 and takes its slot. -/
theorem fbank_put_keeps_first_run : ∃ (p : Shape) (puts : Bool → ℤ × List UInt8)
    (st : BankState Bool) (e : ℕ), Reaches (BankStep p) anyAction (putting p puts) st ∧
      puts false = (7, [97]) ∧ puts true = (5, [97]) ∧
      (st.calls false).pc = .done 0 ∧ (st.calls true).pc = .done 1 ∧
      IsLeast {n | ∃ k, puts k = (n, [97])} (st.bank.ord e) := by
  obtain ⟨st, hrun, hfalse, htrue⟩ : ∃ st : BankState Bool,
      Reaches (BankStep ⟨2, 8, fun _ => 0, by decide⟩) anyAction
        (putting ⟨2, 8, fun _ => 0, by decide⟩ fun k => bif k then (5, [97]) else (7, [97])) st ∧
      (st.calls false).pc = .done 0 ∧ (st.calls true).pc = .done 1 :=
    ⟨_, reaches_schedule _ _ (List.replicate 11 false ++ List.replicate 17 true),
      by decide +kernel, by decide +kernel⟩
  obtain ⟨-, -, -, hkept⟩ := fbank_put_keeps_first _ _ hrun
  have hdone : ∀ j, ∃ answer, (st.calls j).pc = .done answer ∧ answer ≠ -2 := by
    rintro (_ | _)
    · exact ⟨0, hfalse, by decide⟩
    · exact ⟨1, htrue, by decide⟩
  obtain ⟨e, -, -, hleast⟩ := hkept hdone true
  exact ⟨_, _, st, e, hrun, rfl, rfl, hfalse, htrue, hleast⟩

end AxisBridge.FBank
