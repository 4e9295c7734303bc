import AxisBridge.Runtime.GpuPasses

/-! A size runs to its end: with one thread at work at a time no claim meets a slot being
written. -/
namespace AxisBridge.Gpu
open List Function Kernel

variable {β : Type*} {mask bmask m off h i bound : ℕ} {t : VTable} {k : Key} {o : UInt64}
  {pc : PutPc} {s : ClaimMemory} {e : Search} {flag : Flag} {ls : List SearchLaunch}

/-! ### Produce and keep -/

/-- A bound on the steps of a thread of produce. -/
def ProducePc.left (mask : ℕ) : ProducePc → ℕ
  | .load _ i => 3 * (mask + 1 - i) + 7
  | .same0 _ i => 3 * (mask + 1 - i) + 6
  | .same1 _ i => 3 * (mask + 1 - i) + 5
  | .read _ => 3
  | .raise => 2
  | .store _ => 1

theorem produced_left (mask : ℕ) (v : UInt32) : (produced v).left mask < 3 := by
  unfold produced
  split
  · exact Nat.lt_succ_self 2
  · show 1 < 3
    decide

theorem produceProbed_left : (produceProbed mask h i).left mask < 3 * (mask + 1 - i) + 5 := by
  unfold produceProbed
  split
  · have := produced_left mask pending
    omega
  · show 3 * (mask + 1 - (i + 1)) + 7 < _
    omega

theorem produce_doneAlone {job : Job} {bvec : ℕ → UInt32} {n j0 total : ℕ} {t : Table} :
    (p5Produce job bvec n j0 t mask).DoneAlone total fun _ => True := by
  intro s x _ _
  refine exists_alone (J := fun _ _ => True) (fun l => l.pc.left mask) (fun s l _ => ?_) trivial
  obtain ⟨x, key, pc⟩ := l
  cases pc with
  | load h i =>
    refine ⟨trivial, ?_⟩
    show (if (t h).st = 0 then produced pending else .same0 h i).left mask < 3 * (mask + 1 - i) + 7
    split
    · have := produced_left mask pending
      omega
    · exact Nat.lt_succ_self _
  | same0 h i =>
    refine ⟨trivial, ?_⟩
    show (if (t h).k0 = key.1 then .same1 h i else produceProbed mask h i).left mask <
      3 * (mask + 1 - i) + 6
    split
    · exact Nat.lt_succ_self _
    · exact Nat.lt_succ_of_lt produceProbed_left
  | same1 h i =>
    refine ⟨trivial, ?_⟩
    show (if (t h).k1 = key.2 then .read h else produceProbed mask h i).left mask <
      3 * (mask + 1 - i) + 5
    split
    · show 3 < _
      omega
    · exact produceProbed_left
  | read h => exact ⟨trivial, produced_left mask _⟩
  | raise => exact ⟨trivial, Nat.lt_succ_self 1⟩
  | store v => trivial

theorem exists_produceInto (e : Search) (l : SearchLaunch) (flag : Flag) :
    ∃ o, e.ProduceInto l flag o := by
  obtain ⟨o, hrun, _⟩ :=
    exists_runs (s := ⟨fun _ => 0, flag⟩) produce_doneAlone (threads_pos _) trivial
  exact ⟨o, _, hrun⟩

def KeepPc.left : KeepPc → ℕ
  | .check => 4
  | .count => 3
  | .list _ => 2
  | .vector _ => 1

theorem keep_doneAlone (f : Filt) (out : ℕ → UInt32) (vt : VTable) (mask : ℕ) (cand : ℕ → Bool)
    (off m : ℕ) : (p5Keep f out vt mask cand off).DoneAlone m fun _ => True := by
  intro s x _ _
  refine exists_alone (J := fun _ _ => True) (fun l => l.pc.left) (fun s l _ => ?_) trivial
  obtain ⟨c, pc⟩ := l
  cases pc with
  | check =>
    by_cases hholds : f.holds out vt mask cand off c = true
    · simp only [p5Keep, keepStep, if_pos hholds]
      exact ⟨trivial, Nat.lt_succ_self 3⟩
    · simp only [p5Keep, keepStep, if_neg hholds]
  | count => exact ⟨trivial, Nat.lt_succ_self 2⟩
  | list i => exact ⟨trivial, Nat.lt_succ_self 1⟩
  | vector i => trivial

/-! ### Claim -/

/-- No slot is being written. -/
def VTable.Idle (t : VTable) : Prop := ∀ g, (t g).st ≠ 1

/-- Where a put is when no other is under way. -/
def PutPc.Calm (t : VTable) : PutPc → Prop
  | .load _ _ | .same0 _ _ | .same1 _ _ | .min _ => t.Idle
  | .claim h _ => (t h).st = 0 ∧ t.Idle
  | .write h _ => ∀ g ≠ h, (t g).st ≠ 1

/-- A bound on the steps of a put. -/
def PutPc.left (mask : ℕ) : PutPc → ℕ
  | .load _ i => 3 * (mask + 1 - i) + 7
  | .same0 _ i => 3 * (mask + 1 - i) + 6
  | .same1 _ i => 3 * (mask + 1 - i) + 5
  | .claim _ _ => 6
  | .write _ .key0 => 5
  | .write _ .key1 => 4
  | .write _ .val => 3
  | .write _ .publish => 2
  | .min _ => 1

theorem PutPc.left_pos (mask : ℕ) (pc : PutPc) : 0 < pc.left mask := by
  cases pc with
  | write h pc => cases pc <;> exact Nat.succ_pos _
  | load h i | same0 h i | same1 h i | claim h i | min h => exact Nat.succ_pos _

theorem PutEnd.slot_ne_retry (h : ℕ) : PutEnd.slot h ≠ .retry := nofun

theorem PutEnd.full_ne_retry : PutEnd.full ≠ .retry := nofun

/-- A put goes on by itself, or ends without meeting a slot being written. -/
def Calmly (mask bound : ℕ) (r : VTable × (PutPc ⊕ PutEnd)) : Prop :=
  match r with
  | (t, .inl pc) => pc.Calm t ∧ pc.left mask < bound
  | (t, .inr e) => t.Idle ∧ e ≠ .retry

theorem idle_update (hidle : ∀ g ≠ h, (t g).st ≠ 1) {slot : VSlot} (hslot : slot.st ≠ 1) :
    VTable.Idle (update t h slot) := by
  intro g
  by_cases he : g = h
  · subst he
    rwa [update_self]
  · rw [update_of_ne he]
    exact hidle g he

theorem calm_update (hidle : ∀ g ≠ h, (t g).st ≠ 1) (slot : VSlot) :
    ∀ g ≠ h, (update t h slot g).st ≠ 1 := by
  intro g he
  rw [update_of_ne he]
  exact hidle g he

theorem putProbed_calmly (hidle : t.Idle) :
    Calmly mask (3 * (mask + 1 - i) + 5) (t, putProbed mask h i) := by
  unfold putProbed
  split
  · exact ⟨hidle, PutEnd.full_ne_retry⟩
  · refine ⟨hidle, ?_⟩
    show 3 * (mask + 1 - (i + 1)) + 7 < _
    omega

theorem Calmly.weaken {r : VTable × (PutPc ⊕ PutEnd)} {bound' : ℕ} (hr : Calmly mask bound r)
    (hle : bound ≤ bound') : Calmly mask bound' r := by
  obtain ⟨t, r⟩ := r
  cases r with
  | inl pc => exact ⟨hr.1, lt_of_lt_of_le hr.2 hle⟩
  | inr e => exact hr

theorem putStep_calmly (mask : ℕ) (k : Key) (o : UInt64) (hcalm : pc.Calm t) :
     Calmly mask (pc.left mask) (putStep mask k o t pc) := by
  cases pc with
  | load h i =>
    have hidle : t.Idle := hcalm
    simp only [putStep]
    split
    · next h0 =>
      refine ⟨⟨h0, hidle⟩, ?_⟩
      show 6 < 3 * (mask + 1 - i) + 7
      omega
    · split
      · next h1 => exact absurd h1 (hidle h)
      · exact ⟨hidle, Nat.lt_succ_self _⟩
  | claim h i =>
    obtain ⟨h0, hidle⟩ := hcalm
    simp only [putStep, if_pos h0]
    exact ⟨calm_update (fun g _ => hidle g) _, Nat.lt_succ_self 5⟩
  | write h pc =>
    have hidle : ∀ g ≠ h, (t g).st ≠ 1 := hcalm
    cases pc with
    | key0 => exact ⟨calm_update hidle _, Nat.lt_succ_self 4⟩
    | key1 => exact ⟨calm_update hidle _, Nat.lt_succ_self 3⟩
    | val => exact ⟨calm_update hidle _, Nat.lt_succ_self 2⟩
    | publish => exact ⟨idle_update hidle (show 2 ≠ 1 by decide), PutEnd.slot_ne_retry h⟩
  | same0 h i =>
    have hidle : t.Idle := hcalm
    simp only [putStep]
    split
    · exact ⟨hidle, Nat.lt_succ_self _⟩
    · exact (putProbed_calmly hidle).weaken (Nat.le_succ _)
  | same1 h i =>
    have hidle : t.Idle := hcalm
    simp only [putStep]
    split
    · refine ⟨hidle, ?_⟩
      show 1 < 3 * (mask + 1 - i) + 5
      omega
    · exact putProbed_calmly hidle
  | min h =>
    have hidle : t.Idle := hcalm
    exact ⟨idle_update (fun g _ => hidle g) (hidle h), PutEnd.slot_ne_retry h⟩

/-- No slot is being written, and none was met that is. -/
def ClaimMemory.Calm (s : ClaimMemory) : Prop := s.vt.Idle ∧ s.flag .rerun = false

def ClaimPc.Calm (s : ClaimMemory) : ClaimPc → Prop
  | .filter | .mark _ => s.Calm
  | .put pc => pc.Calm s.vt ∧ s.flag .rerun = false
  | .raise bit => s.Calm ∧ bit ≠ .rerun

def ClaimPc.left (mask : ℕ) : ClaimPc → ℕ
  | .filter => 3 * (mask + 1) + 10
  | .put pc => pc.left mask + 2
  | .raise _ => 2
  | .mark _ => 1

theorem claim_doneAlone {f : Filt} {out : ℕ → UInt32} {bseen : VTable} :
    (p5Claim f out bseen bmask mask off).DoneAlone m ClaimMemory.Calm := by
  intro s x _ hs
  refine exists_alone (J := fun s l => l.pc.Calm s) (fun l => l.pc.left mask)
    (fun s l hcalm => ?_) hs
  obtain ⟨c, pc⟩ := l
  cases pc with
  | filter =>
    have hs : s.Calm := hcalm
    have hne : Bit.rerun ≠ Bit.refused := by decide
    have hflag : (if refused ∈ row out f.n c then s.flag.fetchOr .refused else s.flag) .rerun =
        false := by
      split
      · exact (s.flag.fetchOr_of_ne hne).trans hs.2
      · exact hs.2
    by_cases hk : f.keeps bseen bmask (row out f.n c) = true
    · simp only [p5Claim, claimStep, if_pos hk]
      exact ⟨⟨hs.1, hflag⟩, Nat.lt_succ_self _⟩
    · simp only [p5Claim, claimStep, if_neg hk]
      refine ⟨⟨hs.1, hflag⟩, ?_⟩
      show 1 < 3 * (mask + 1) + 10
      omega
  | put pc =>
    obtain ⟨hpc, hflag⟩ := hcalm
    have hnext := putStep_calmly mask (f.key out c) (f.ord c) hpc
    have hpos := pc.left_pos mask
    simp only [p5Claim, claimStep]
    generalize putStep mask (f.key out c) (f.ord c) s.vt pc = r at hnext ⊢
    obtain ⟨vt, r⟩ := r
    cases r with
    | inl pc' => exact ⟨⟨hnext.1, hflag⟩, Nat.add_lt_add_right hnext.2 2⟩
    | inr e =>
      obtain ⟨hidle, hretry⟩ := hnext
      cases e with
      | slot h =>
        refine ⟨⟨hidle, hflag⟩, ?_⟩
        show 1 < pc.left mask + 2
        omega
      | full =>
        refine ⟨⟨⟨hidle, hflag⟩, by decide⟩, ?_⟩
        show 2 < pc.left mask + 2
        omega
      | retry => exact absurd rfl hretry
  | raise bit =>
    obtain ⟨hs, hbit⟩ := hcalm
    refine ⟨⟨hs.1, ?_⟩, Nat.lt_succ_self 1⟩
    exact (s.flag.fetchOr_of_ne hbit.symm).trans hs.2
  | mark keep => exact hcalm

/-- A pass of claim can come to its end without meeting a slot being written. -/
theorem exists_claimPass (e : Search) (off : ℕ) (ls : List SearchLaunch) (hs : s.Calm) :
    ∃ s', ClaimPass e off ls s s' ∧ s'.Calm := by
  induction ls generalizing off s with
  | nil => exact ⟨s, .nil off s, hs⟩
  | cons l ls ih =>
    obtain ⟨o, hproduce⟩ := exists_produceInto e l s.flag
    have hrerun : o.flag .rerun = false := by
      refine Bool.eq_false_of_not_eq_true fun hb => ?_
      rcases ((produceInto_vectors hproduce).2 .rerun).mp hb with hb | ⟨hb, _⟩
      · rw [hs.2] at hb
        cases hb
      · cases hb
    obtain ⟨s₁, hclaim, hs₁⟩ := exists_runs (s := { s with flag := o.flag })
      (claim_doneAlone (f := e.filt l)) (threads_pos l.m) ⟨hs.1, hrerun⟩
    obtain ⟨s', hrest, hs'⟩ := ih (off + l.m) hs₁
    exact ⟨s', .cons hproduce hclaim hrest, hs'⟩

theorem exists_claimPasses (e : Search) (ls : List SearchLaunch) (hs : s.vt.Idle) :
    ∃ s', ClaimPasses e ls s s' := by
  obtain ⟨s', hpass, hs'⟩ := exists_claimPass e 0 ls (s := { s with flag := Flag.clear }) ⟨hs, rfl⟩
  exact ⟨s', .last hpass hs'.2⟩

/-! ### A size -/

variable {put : BankName → ℤ → String → β → ℤ × β} {z : SearchSize} {hs : List Handed}
  {st : Bool × β} {vt : VTable} {cand : ℕ → Bool}

theorem exists_record (put : BankName → ℤ → String → β → ℤ × β) (z : SearchSize) (st : Bool × β)
    (hargs : ∀ h ∈ hs, (h.job.args h.jj).isSome = true) : ∃ st', record put z hs st = some st' := by
  induction hs generalizing st with
  | nil => exact ⟨st, rfl⟩
  | cons h hs ih =>
    obtain ⟨st₁, hone⟩ : ∃ st₁, recordOne put z h.job h.jj h.vec st = some st₁ := by
      simp only [recordOne]
      split
      · exact ⟨_, rfl⟩
      · obtain ⟨a, ha⟩ := Option.isSome_iff_exists.mp (hargs h mem_cons_self)
        rw [ha]
        exact ⟨_, rfl⟩
    obtain ⟨st', hrest⟩ := ih st₁ fun h hh => hargs h (mem_cons_of_mem _ hh)
    refine ⟨st', ?_⟩
    rw [record, foldlM_cons, hone]
    exact hrest

theorem exists_keepPass (put : BankName → ℤ → String → β → ℤ × β) (vt : VTable) (flag : Flag)
    (st : Bool × β) (hsmall : ∀ l ∈ ls, l.m < 2 ^ 32)
    (hmarks : ∀ a q, (ls.flatMap SearchLaunch.combos)[a]? = some q → cand (off + a) = e.keeps q)
    (hargs : ∀ q ∈ ls.flatMap SearchLaunch.combos, (q.job.args q.jj).isSome = true) :
    ∃ hs st', KeepPass e put vt cand off ls flag hs st st' := by
  induction ls generalizing off flag st with
  | nil => exact ⟨[], st, .nil off flag st⟩
  | cons l ls ih =>
    rw [flatMap_cons] at hmarks hargs
    obtain ⟨o, hproduce⟩ := exists_produceInto e l flag
    obtain ⟨k, hkeep, _⟩ := exists_runs (s := ⟨fun _ => 0, fun _ => 0, 0⟩)
      (keep_doneAlone (e.filt l) o.out vt (e.vcap - 1) cand off l.m) (threads_pos l.m) trivial
    obtain ⟨hmarked, hmarks'⟩ := marks_append hmarks
    have hhands := launch_hands (hsmall l mem_cons_self) hproduce hkeep hmarked
    have hargs' : ∀ h ∈ l.handed (k.survivors e.n), (h.job.args h.jj).isSome = true := by
      intro h hh
      rw [hhands] at hh
      obtain ⟨q, hq, rfl⟩ := mem_map.mp hh
      exact hargs q (mem_append_left _ (mem_filter.mp hq).1)
    obtain ⟨st₁, hrecord⟩ := exists_record put e.size st hargs'
    obtain ⟨hs, st', hrest⟩ := ih o.flag st₁ (fun l hl => hsmall l (mem_cons_of_mem _ hl))
      hmarks' fun q hq => hargs q (mem_append_right _ hq)
    exact ⟨_, st', .cons hproduce hkeep hrecord hrest⟩

/-- A size whose keys are all answered, with an argument in the pools for every place, is
produced. -/
theorem exists_produce (e : Search) (put : BankName → ℤ → String → β → ℤ × β) (bs : β)
    (hanswered : ∀ q ∈ e.size.tried, pending ∉ e.vector q)
    (hargs : ∀ q ∈ e.size.tried, (q.job.args q.jj).isSome = true) :
    ∃ hs st, Produce e put hs bs st := by
  by_cases htotal : e.size.total = 0
  · exact ⟨[], (false, bs), .empty htotal⟩
  · obtain ⟨s, hclaim⟩ := exists_claimPasses e (e.size.launches e.n)
      (s := ⟨VTable.zeros, fun _ => false, Flag.clear⟩) fun _ => by
        show 0 ≠ 1
        decide
    have hleaves := claimPasses_leave hclaim ⟨_, Putting.zeros _ _⟩
    have hunanswered : s.flag .unanswered = false := by
      refine Bool.eq_false_of_not_eq_true fun hb => ?_
      obtain ⟨q, hq, hp⟩ := hleaves.unanswered.mp hb
      exact hanswered q hq hp
    rw [← combos_launches _ e.n] at hargs
    have hmarks : ∀ a q, ((e.size.launches e.n).flatMap SearchLaunch.combos)[a]? = some q →
        s.cand (0 + a) = e.keeps q := by
      intro a q ha
      rw [combos_launches] at ha
      rw [zero_add]
      exact hleaves.marks a q ha
    obtain ⟨hs, st, hkeep⟩ := exists_keepPass put s.vt s.flag (s.flag .refused, bs)
      (fun l hl => lt_of_mem_launches hl) hmarks hargs
    exact ⟨hs, st, .done htotal hclaim hunanswered hleaves.full hkeep⟩

end AxisBridge.Gpu
