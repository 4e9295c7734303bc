import AxisBridge.Runtime.GpuP5

/-! What produce reads out of the memo table, as a function of the table. -/
namespace AxisBridge.Gpu
open Function

variable {t : Table} {mask total x : ℕ} {k : Key} {v : UInt32} {keyOf : ℕ → Key}
  {s₀ s : ProduceMemory} {here : ℕ → Option ProduceThread} {l : ProduceThread} {pc : ProducePc}

/-- The value the loop of `p5_produce` ends on. -/
def recallFrom (t : Table) (mask : ℕ) (k : Key) : ℕ → ℕ → UInt32
  | 0, _ => pending
  | fuel + 1, h =>
    if (t h).st = 0 then pending
    else if (t h).k0 = k.1 ∧ (t h).k1 = k.2 then (t h).val
    else recallFrom t mask k fuel ((h + 1) &&& mask)

/-- The answer the memo has for a key, or `pending`. -/
def recalled (t : Table) (mask : ℕ) (k : Key) : UInt32 :=
  recallFrom t mask k (mask + 1) ((mix k).toNat &&& mask)

/-- A thread of produce is on its way to store `v`. -/
def ProducePc.Gives (t : Table) (mask : ℕ) (k : Key) (v : UInt32) : ProducePc → Prop
  | .load h i => i ≤ mask ∧ recallFrom t mask k (mask - i + 1) h = v
  | .same0 h i => i ≤ mask ∧ recallFrom t mask k (mask - i + 1) h = v ∧ (t h).st ≠ 0
  | .same1 h i =>
    i ≤ mask ∧ recallFrom t mask k (mask - i + 1) h = v ∧ (t h).st ≠ 0 ∧ (t h).k0 = k.1
  | .read h => (t h).val = v
  | .raise => v = pending
  | .store w => w = v

theorem gives_produced {w : UInt32} (hw : w = v) : (produced w).Gives t mask k v := by
  unfold produced
  split
  · next he => exact hw.symm.trans he
  · exact hw

/-- A slot with another key is passed. -/
theorem gives_probed {h i : ℕ} (hi : i ≤ mask) (hv : recallFrom t mask k (mask - i + 1) h = v)
    (h0 : (t h).st ≠ 0) (hne : ¬ ((t h).k0 = k.1 ∧ (t h).k1 = k.2)) :
    (produceProbed mask h i).Gives t mask k v := by
  rw [recallFrom, if_neg h0, if_neg hne] at hv
  unfold produceProbed
  split
  · next hlast =>
    have hzero : mask - i = 0 := by omega
    rw [hzero] at hv
    exact gives_produced hv
  · next hmore =>
    have hsub : mask - i = mask - (i + 1) + 1 := by omega
    rw [hsub] at hv
    exact ⟨by omega, hv⟩

/-- What a step of a thread leaves, and where it goes from there. -/
theorem produceStep_gives (hg : l.pc.Gives t mask l.key v) :
    (∃ pc', produceStep t mask s l = (s, some { l with pc := pc' }) ∧ pc'.Gives t mask l.key v ∧
      (∀ w, pc' = .store w → w ≠ pending)) ∨
    (l.pc = .raise ∧ v = pending ∧
      produceStep t mask s l =
        ({ s with flag := s.flag.fetchOr .unanswered }, some { l with pc := .store v })) ∨
    (l.pc = .store v ∧
      produceStep t mask s l = ({ s with out := update s.out l.x v }, none)) := by
  obtain ⟨x, key, pc⟩ := l
  have hproduced : ∀ u w, produced u = .store w → w ≠ pending := by
    intro u w he
    unfold produced at he
    split at he
    · cases he
    · next hne =>
      cases he
      exact hne
  have hprobed : ∀ h i w, produceProbed mask h i = .store w → w ≠ pending := by
    intro h i w he
    unfold produceProbed at he
    split at he
    · exact hproduced _ w he
    · cases he
  cases pc with
  | load h i =>
    obtain ⟨hi, hv⟩ := hg
    refine .inl ⟨_, rfl, ?_, ?_⟩
    · split
      · next h0 =>
        rw [recallFrom, if_pos h0] at hv
        exact gives_produced hv
      · next h0 => exact ⟨hi, hv, h0⟩
    · intro w he
      split at he
      · exact hproduced _ w he
      · cases he
  | same0 h i =>
    obtain ⟨hi, hv, h0⟩ := hg
    refine .inl ⟨_, rfl, ?_, ?_⟩
    · split
      · next hk => exact ⟨hi, hv, h0, hk⟩
      · next hk => exact gives_probed hi hv h0 fun he => hk he.1
    · intro w he
      split at he
      · cases he
      · exact hprobed h i w he
  | same1 h i =>
    obtain ⟨hi, hv, h0, hk0⟩ := hg
    refine .inl ⟨_, rfl, ?_, ?_⟩
    · split
      · next hk =>
        rw [recallFrom, if_neg h0, if_pos ⟨hk0, hk⟩] at hv
        exact hv
      · next hk => exact gives_probed hi hv h0 fun he => hk he.2
    · intro w he
      split at he
      · cases he
      · exact hprobed h i w he
  | read h => exact .inl ⟨_, rfl, gives_produced hg, hproduced _⟩
  | raise =>
    have hv : v = pending := hg
    subst hv
    exact .inr (.inl ⟨rfl, rfl, rfl⟩)
  | store w =>
    have hw : w = v := hg
    subst hw
    exact .inr (.inr ⟨rfl, rfl⟩)

/-- The values of a launch of produce so far. -/
structure Recalling (t : Table) (mask : ℕ) (keyOf : ℕ → Key) (total : ℕ) (s₀ s : ProduceMemory)
    (here : ℕ → Option ProduceThread) : Prop where
  thread : ∀ {x l}, here x = some l → x < total ∧ l.x = x ∧ l.key = keyOf x ∧
    l.pc.Gives t mask l.key (recalled t mask (keyOf x))
  out : ∀ x < total, here x = none → s.out x = recalled t mask (keyOf x)
  flags : ∀ bit, s₀.flag bit = true → s.flag bit = true
  raised : ∀ bit, s.flag bit = true → s₀.flag bit = true ∨
    bit = .unanswered ∧ ∃ x < total, recalled t mask (keyOf x) = pending
  unanswered : ∀ x < total, recalled t mask (keyOf x) = pending →
    (here x = none ∨ ∃ l, here x = some l ∧ l.pc = .store pending) → s.flag .unanswered = true

theorem Recalling.step (hr : Recalling t mask keyOf total s₀ s here) (hx : here x = some l) :
    Recalling t mask keyOf total s₀ (produceStep t mask s l).1
      (update here x (produceStep t mask s l).2) := by
  obtain ⟨hlt, hlx, hkey, hg⟩ := hr.thread hx
  rcases produceStep_gives hg with ⟨pc', hs, hg', hstore⟩ | ⟨hpc, hv, hs⟩ | ⟨hpc, hs⟩
  · rw [hs]
    refine ⟨fun {y m} hy => ?_, fun y hy hnone => ?_, hr.flags, hr.raised, fun y hy hp hat => ?_⟩
    · rw [update_apply] at hy
      split at hy
      · next he =>
        cases hy
        subst he
        exact ⟨hlt, hlx, hkey, hg'⟩
      · exact hr.thread hy
    · rw [update_apply] at hnone
      split at hnone
      · cases hnone
      · exact hr.out y hy hnone
    · rw [update_apply] at hat
      split at hat
      · rcases hat with hat | ⟨m, hm, hpc⟩
        · cases hat
        · cases hm
          exact absurd rfl (hstore _ hpc)
      · exact hr.unanswered y hy hp hat
  · rw [hs]
    refine ⟨fun {y m} hy => ?_, fun y hy hnone => ?_,
      fun bit hb => Flag.fetchOr_mono (hr.flags bit hb),
      fun bit hb => ?_, fun _ _ _ _ => s.flag.fetchOr_self .unanswered⟩
    · rw [update_apply] at hy
      split at hy
      · next he =>
        cases hy
        subst he
        exact ⟨hlt, hlx, hkey, rfl⟩
      · exact hr.thread hy
    · rw [update_apply] at hnone
      split at hnone
      · cases hnone
      · exact hr.out y hy hnone
    · by_cases he : bit = .unanswered
      · exact .inr ⟨he, x, hlt, hv⟩
      · exact hr.raised bit ((s.flag.fetchOr_of_ne he).symm.trans hb)
  · rw [hs]
    refine ⟨fun {y m} hy => ?_, fun y hy hnone => ?_, hr.flags, hr.raised, fun y hy hp hat => ?_⟩
    · rw [update_apply] at hy
      split at hy
      · cases hy
      · exact hr.thread hy
    · rw [update_apply] at hnone
      show update s.out l.x _ y = _
      rw [hlx, update_apply]
      split at hnone
      · next he => rw [if_pos he, he]
      · next he =>
        rw [if_neg he]
        exact hr.out y hy hnone
    · by_cases he : y = x
      · subst he
        refine hr.unanswered y hy hp (.inr ⟨l, hx, ?_⟩)
        rw [hpc, hp]
      · rw [update_of_ne he] at hat
        exact hr.unanswered y hy hp hat

/-- A launch of produce stores what the memo has for the key of each element, and flags as
unanswered just the elements without one. -/
theorem produce_recalls {job : Job} {bvec : ℕ → UInt32} {n j0 stride : ℕ} {s' : ProduceMemory}
    (hrun : (p5Produce job bvec n j0 t mask).Runs stride total s s') (hstride : 0 < stride) :
    (∀ x < total, s'.out x = recalled t mask (key job bvec n (j0 + x / n) (x % n))) ∧
      ∀ bit, s'.flag bit = true ↔ s.flag bit = true ∨ bit = .unanswered ∧
        ∃ x < total, recalled t mask (key job bvec n (j0 + x / n) (x % n)) = pending := by
  have hend := hrun.rule
    (I := Recalling t mask (fun x => key job bvec n (j0 + x / n) (x % n)) total s) hstride ?_
    fun hr hx => hr.step hx
  · refine ⟨fun x hx => hend.out x hx rfl, fun bit => ⟨hend.raised bit, ?_⟩⟩
    rintro (hb | ⟨rfl, x, hx, hp⟩)
    · exact hend.flags bit hb
    · exact hend.unanswered x hx hp (.inl rfl)
  · refine ⟨fun {x l} hx => ?_, fun x hx hnone => ?_, fun _ hb => hb, fun _ hb => .inl hb,
      fun x hx _ hor => ?_⟩
    · obtain ⟨hlt, rfl⟩ := Kernel.starts_eq hx
      exact ⟨hlt, rfl, rfl, Nat.zero_le mask, rfl⟩
    · exact absurd hnone (Kernel.starts_ne_none hx)
    · rcases hor with hnone | ⟨l, hl, hpc⟩
      · exact absurd hnone (Kernel.starts_ne_none hx)
      · obtain ⟨_, rfl⟩ := Kernel.starts_eq hl
        cases hpc

end AxisBridge.Gpu
