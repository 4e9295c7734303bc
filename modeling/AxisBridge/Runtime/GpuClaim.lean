import AxisBridge.Runtime.GpuPut

/-! A launch of claim: every vector that is kept has its fingerprint put under its ordinal, or met a
slot being written. -/
namespace AxisBridge.Gpu
open Function

variable {cap m off x bmask : ℕ} {P : Key → UInt64 → Prop} {f : Filt} {out : ℕ → UInt32}
  {bseen : VTable} {s₀ s s' : ClaimMemory} {here : ℕ → Option ClaimThread} {l : ClaimThread}
  {ks : List Key}

/-- Whether combination `c` of the launch is put. -/
def Filt.keepsAt (f : Filt) (out : ℕ → UInt32) (bseen : VTable) (bmask c : ℕ) : Bool :=
  f.keeps bseen bmask (row out f.n c)

/-- The put a thread of claim is in. -/
def ClaimThread.putter (f : Filt) (out : ℕ → UInt32) (l : ClaimThread) : Option Putter :=
  match l.pc with
  | .put pc => some ⟨f.key out l.c, f.ord l.c, pc⟩
  | _ => none

def claimPutters (f : Filt) (out : ℕ → UInt32) (here : ℕ → Option ClaimThread) (x : ℕ) :
    Option Putter := (here x).bind (ClaimThread.putter f out)

theorem claimPutters_at (hx : here x = some l) : claimPutters f out here x = l.putter f out := by
  rw [claimPutters, hx]
  rfl

theorem claimPutters_update (r : Option ClaimThread) :
    claimPutters f out (update here x r) =
      update (claimPutters f out here) x (r.bind (ClaimThread.putter f out)) := by
  funext y
  by_cases he : y = x
  · subst he
    simp [claimPutters]
  · simp only [claimPutters, update_of_ne he]

/-- The fingerprint of `c` is in the table under its ordinal or a lower one, or the pass is run
again. -/
def ClaimMemory.Settles (s : ClaimMemory) (f : Filt) (out : ℕ → UInt32) (c : ℕ) : Prop :=
  HasPut s.vt (f.key out c) (f.ord c) ∨ s.flag .rerun = true

/-- What a thread of claim knows. -/
def ClaimPc.Stands (f : Filt) (out : ℕ → UInt32) (bseen : VTable) (bmask c : ℕ) (s : ClaimMemory) :
    ClaimPc → Prop
  | .filter => True
  | .put _ => f.keepsAt out bseen bmask c = true
  | .raise bit => f.keepsAt out bseen bmask c = true ∧ bit = .rerun
  | .mark keep => keep = f.keepsAt out bseen bmask c ∧ (keep = true → s.Settles f out c)

/-- What a step of a launch of claim may do to the memory, but for its marks. -/
structure ClaimOnward (s s' : ClaimMemory) : Prop where
  lowered : Lowered s.vt s'.vt
  flags : ∀ bit, s.flag bit = true → s'.flag bit = true
  raised : ∀ bit, s'.flag bit = true → s.flag bit = true ∨ bit = .rerun ∨ bit = .refused

theorem ClaimOnward.refl (s : ClaimMemory) : ClaimOnward s s :=
  ⟨.refl s.vt, fun _ hb => hb, fun _ hb => .inl hb⟩

theorem ClaimOnward.trans {s'' : ClaimMemory} (h : ClaimOnward s s') (h' : ClaimOnward s' s'') :
    ClaimOnward s s'' := by
  refine ⟨h.lowered.trans h'.lowered, fun bit hb => h'.flags bit (h.flags bit hb), fun bit hb => ?_⟩
  rcases h'.raised bit hb with hb | hb
  · exact h.raised bit hb
  · exact .inr hb

theorem ClaimMemory.Settles.mono {c : ℕ} (hs : s.Settles f out c) (h : ClaimOnward s s') :
    s'.Settles f out c :=
  hs.imp (fun hp => hp.mono h.lowered) (h.flags .rerun)

theorem ClaimPc.Stands.mono {pc : ClaimPc} {c : ℕ} (hs : pc.Stands f out bseen bmask c s)
    (h : ClaimOnward s s') : pc.Stands f out bseen bmask c s' := by
  cases pc with
  | filter => trivial
  | put pc => exact hs
  | raise bit => exact hs
  | mark keep => exact ⟨hs.1, fun hk => (hs.2 hk).mono h⟩

/-- A launch of claim so far. -/
structure Claiming (cap : ℕ) (P : Key → UInt64 → Prop) (f : Filt) (out : ℕ → UInt32)
    (bseen : VTable)
    (bmask off m : ℕ) (s₀ s : ClaimMemory) (here : ℕ → Option ClaimThread) : Prop where
  putting : ∃ held, Putting cap P s.vt (claimPutters f out here) held
  onward : ClaimOnward s₀ s
  thread : ∀ {x l}, here x = some l → l.c = x ∧ x < m ∧ l.pc.Stands f out bseen bmask x s
  done : ∀ c < m, here c = none → s.cand (off + c) = f.keepsAt out bseen bmask c ∧
    (f.keepsAt out bseen bmask c = true → s.Settles f out c)
  other : ∀ a, (∀ c < m, a ≠ off + c) → s.cand a = s₀.cand a
  flagged : s.flag .refused = true → s₀.flag .refused = true ∨ ∃ c < m, refused ∈ row out f.n c
  refuses : ∀ c < m, refused ∈ row out f.n c →
    (∀ l, here c = some l → l.pc ≠ .filter) → s.flag .refused = true

/-- A thread goes on with its element. -/
theorem Claiming.next (hc : Claiming cap P f out bseen bmask off m s₀ s here) (pc : ClaimPc)
    (hx : here x = some l)
    (hputting : ∃ held, Putting cap P s'.vt
      (update (claimPutters f out here) x (ClaimThread.putter f out { l with pc })) held)
    (honward : ClaimOnward s s') (hstands : pc.Stands f out bseen bmask x s')
    (hcand : s'.cand = s.cand)
    (hrefused : s'.flag .refused = true → s.flag .refused = true ∨ refused ∈ row out f.n x)
    (hrefuses : l.pc = .filter → refused ∈ row out f.n x → s'.flag .refused = true) :
    Claiming cap P f out bseen bmask off m s₀ s' (update here x (some { l with pc })) := by
  obtain ⟨hl, hlt, _⟩ := hc.thread hx
  refine ⟨?_, hc.onward.trans honward, fun {y l'} hy => ?_, fun c hlt' hnone => ?_, fun a ha => ?_,
    fun hb => ?_, fun c hlt' hrow hat => ?_⟩
  · rw [claimPutters_update]
    exact hputting
  · rw [update_apply] at hy
    split at hy
    · next he =>
      cases hy
      subst he
      exact ⟨hl, hlt, hstands⟩
    · obtain ⟨hl', hlt', hst'⟩ := hc.thread hy
      exact ⟨hl', hlt', hst'.mono honward⟩
  · rw [update_apply] at hnone
    split at hnone
    · cases hnone
    · obtain ⟨hmark, hsettles⟩ := hc.done c hlt' hnone
      exact ⟨hcand ▸ hmark, fun hk => (hsettles hk).mono honward⟩
  · rw [hcand]
    exact hc.other a ha
  · rcases hrefused hb with hb | hrow
    · exact hc.flagged hb
    · exact .inr ⟨x, hlt, hrow⟩
  · by_cases he : c = x
    · subst he
      by_cases hpc : l.pc = .filter
      · exact hrefuses hpc hrow
      · refine honward.flags .refused (hc.refuses c hlt' hrow fun l' hl' => ?_)
        rw [hx] at hl'
        cases hl'
        exact hpc
    · rw [update_of_ne he] at hat
      exact honward.flags .refused (hc.refuses c hlt' hrow hat)

theorem Claiming.put (hc : Claiming cap P f out bseen bmask off m s₀ s here) (hcap : IsCap cap)
    (hks : ∀ k o, P k o → k ∈ ks) (hroom : ks.length < cap) {p : PutPc}
    (hx : here x = some ⟨x, .put p⟩) :
    Claiming cap P f out bseen bmask off m s₀
      (claimStep f out bseen bmask (cap - 1) off s ⟨x, .put p⟩).1
      (update here x (claimStep f out bseen bmask (cap - 1) off s ⟨x, .put p⟩).2) := by
  obtain ⟨_, _, hkeeps⟩ := hc.thread hx
  obtain ⟨held, hp⟩ := hc.putting
  obtain ⟨hlow, held', hp', hdone⟩ := hp.step hcap (claimPutters_at hx)
  simp only [claimStep]
  have hdone' : ∀ e, (putStep (cap - 1) (f.key out x) (f.ord x) s.vt p).2 = .inr e →
      Putter.Done cap (putStep (cap - 1) (f.key out x) (f.ord x) s.vt p).1 held'
        ⟨f.key out x, f.ord x, p⟩ e := hdone
  generalize putStep (cap - 1) (f.key out x) (f.ord x) s.vt p = r at hlow hp' hdone' ⊢
  obtain ⟨vt, r⟩ := r
  have honward : ClaimOnward s { s with vt } := ⟨hlow, fun _ hb => hb, fun _ hb => .inl hb⟩
  cases r with
  | inl pc => exact hc.next _ hx ⟨held', hp'⟩ honward hkeeps rfl .inl nofun
  | inr e =>
    refine hc.next (l := ⟨x, .put p⟩) (claimEnd e) hx ⟨held', ?_⟩ honward ?_ rfl .inl nofun
    · cases e <;> exact hp'
    · cases e with
      | slot h => exact ⟨hkeeps.symm, fun _ => .inl (hdone' _ rfl)⟩
      | full => exact absurd (hdone' _ rfl) (hp'.not_full hcap hks hroom)
      | retry => exact ⟨hkeeps, rfl⟩

theorem Claiming.step (hc : Claiming cap P f out bseen bmask off m s₀ s here) (hcap : IsCap cap)
    (hks : ∀ k o, P k o → k ∈ ks) (hroom : ks.length < cap)
    (hP : ∀ c < m, f.keepsAt out bseen bmask c = true → P (f.key out c) (f.ord c))
    (hx : here x = some l) :
    Claiming cap P f out bseen bmask off m s₀ (claimStep f out bseen bmask (cap - 1) off s l).1
      (update here x (claimStep f out bseen bmask (cap - 1) off s l).2) := by
  obtain ⟨hl, hlt, hstands⟩ := hc.thread hx
  obtain ⟨held, hp⟩ := hc.putting
  obtain ⟨c, pc⟩ := l
  have hl' : c = x := hl
  subst hl'
  have hat : claimPutters f out here c = ClaimThread.putter f out ⟨c, pc⟩ := claimPutters_at hx
  -- a thread that is in no put leaves the table as it is
  have hsame : ClaimThread.putter f out ⟨c, pc⟩ = none →
      Putting cap P s.vt (update (claimPutters f out here) c none) held := by
    intro hnone
    rw [show update (claimPutters f out here) c none = claimPutters f out here by
      rw [← hnone, ← hat, update_eq_self]]
    exact hp
  cases pc with
  | filter =>
    have honward : ClaimOnward s
        { s with flag := if refused ∈ row out f.n c then s.flag.fetchOr .refused else s.flag } := by
      refine ⟨.refl _, fun bit hb => ?_, fun bit hb => ?_⟩
      · show (if refused ∈ row out f.n c then s.flag.fetchOr .refused else s.flag) bit = true
        split
        · exact Flag.fetchOr_mono hb
        · exact hb
      · by_cases he : bit = .refused
        · exact .inr (.inr he)
        · refine .inl (Eq.trans ?_ hb)
          show s.flag bit =
            (if refused ∈ row out f.n c then s.flag.fetchOr .refused else s.flag) bit
          split
          · exact (s.flag.fetchOr_of_ne he).symm
          · rfl
    have hrefused : (if refused ∈ row out f.n c then s.flag.fetchOr .refused else s.flag) .refused =
        true → s.flag .refused = true ∨ refused ∈ row out f.n c := by
      intro hb
      split at hb
      · next hrow => exact .inr hrow
      · exact .inl hb
    have hrefuses : refused ∈ row out f.n c →
        (if refused ∈ row out f.n c then s.flag.fetchOr .refused else s.flag) .refused = true := by
      intro hrow
      rw [if_pos hrow]
      exact s.flag.fetchOr_self .refused
    simp only [claimStep]
    by_cases hk : f.keeps bseen bmask (row out f.n c) = true
    · rw [if_pos hk]
      refine hc.next _ hx ⟨held, ?_⟩ honward hk rfl hrefused fun _ => hrefuses
      refine hp.enter (p := ⟨f.key out c, f.ord c, _⟩) hat ?_ (hP c hlt hk)
      exact congrArg (PutPc.load · 0) (hcap.home _)
    · rw [if_neg hk]
      refine hc.next _ hx ⟨held, hsame rfl⟩ honward ⟨?_, nofun⟩ rfl hrefused fun _ => hrefuses
      exact (Bool.eq_false_of_not_eq_true hk).symm
  | put p => exact hc.put hcap hks hroom hx
  | raise bit =>
    obtain ⟨hk, rfl⟩ := hstands
    have honward : ClaimOnward s { s with flag := s.flag.fetchOr .rerun } := by
      refine ⟨.refl _, fun bit hb => Flag.fetchOr_mono hb, fun bit hb => ?_⟩
      by_cases he : bit = .rerun
      · exact .inr (.inl he)
      · exact .inl ((s.flag.fetchOr_of_ne he).symm.trans hb)
    refine hc.next _ hx ⟨held, hsame rfl⟩ honward
      ⟨hk.symm, fun _ => .inr (s.flag.fetchOr_self .rerun)⟩ rfl (fun hb => .inl ?_) nofun
    have hne : Bit.refused ≠ Bit.rerun := nofun
    exact (s.flag.fetchOr_of_ne hne).symm.trans hb
  | mark keep =>
    obtain ⟨hkeep, hsettles⟩ := hstands
    simp only [claimStep]
    refine ⟨⟨held, ?_⟩, ?_, fun {y l'} hy => ?_, fun d hd hnone => ?_, fun a ha => ?_, hc.flagged,
      fun d hd hrow hat' => hc.refuses d hd hrow fun l' hl' => ?_⟩
    · rw [claimPutters_update]
      exact hsame rfl
    · exact hc.onward.trans ⟨.refl _, fun _ hb => hb, fun _ hb => .inl hb⟩
    · rw [update_apply] at hy
      split at hy
      · cases hy
      · obtain ⟨hl', hlt', hst'⟩ := hc.thread hy
        exact ⟨hl', hlt', hst'.mono ⟨.refl _, fun _ hb => hb, fun _ hb => .inl hb⟩⟩
    · rw [update_apply] at hnone
      show update s.cand (off + c) keep (off + d) = _ ∧ _
      split at hnone
      · next he =>
        subst he
        rw [update_self]
        exact ⟨hkeep, fun hk => hsettles (hkeep.trans hk)⟩
      · next he =>
        rw [update_of_ne (by omega)]
        exact hc.done d hd hnone
    · show update s.cand (off + c) keep a = _
      rw [update_of_ne (ha c hlt)]
      exact hc.other a ha
    · by_cases he : d = c
      · subst he
        rw [hx] at hl'
        cases hl'
        nofun
      · exact hat' l' ((update_of_ne he ..).trans hl')

/-- What a launch of claim leaves. -/
structure ClaimLeaves (cap : ℕ) (P : Key → UInt64 → Prop) (f : Filt) (out : ℕ → UInt32)
    (bseen : VTable) (bmask off m : ℕ) (s s' : ClaimMemory) : Prop where
  putting : ∃ held, Putting cap P s'.vt noPutter held
  onward : ClaimOnward s s'
  marks : ∀ c < m, s'.cand (off + c) = f.keepsAt out bseen bmask c
  settles : ∀ c < m, f.keepsAt out bseen bmask c = true → s'.Settles f out c
  other : ∀ a, (∀ c < m, a ≠ off + c) → s'.cand a = s.cand a
  flagged : s'.flag .refused = true ↔ s.flag .refused = true ∨ ∃ c < m, refused ∈ row out f.n c

theorem claim_launch {stride : ℕ} (hcap : IsCap cap) (hks : ∀ k o, P k o → k ∈ ks)
    (hroom : ks.length < cap)
    (hP : ∀ c < m, f.keepsAt out bseen bmask c = true → P (f.key out c) (f.ord c))
    (hput : ∃ held, Putting cap P s.vt noPutter held)
    (hrun : (p5Claim f out bseen bmask (cap - 1) off).Runs stride m s s') (hstride : 0 < stride) :
    ClaimLeaves cap P f out bseen bmask off m s s' := by
  obtain ⟨held, hput⟩ := hput
  have hend := hrun.rule (I := Claiming cap P f out bseen bmask off m s) hstride ?_
    fun hc hx => hc.step hcap hks hroom hP hx
  · refine ⟨hend.putting, hend.onward, fun c hc => (hend.done c hc rfl).1,
      fun c hc => (hend.done c hc rfl).2, hend.other, hend.flagged, ?_⟩
    rintro (hb | ⟨c, hc, hrow⟩)
    · exact hend.onward.flags .refused hb
    · exact hend.refuses c hc hrow nofun
  · refine ⟨⟨held, hput.start fun x p hx => ?_⟩, .refl s, fun {x l} hx => ?_, fun c hc hnone => ?_,
      fun _ _ => rfl, .inl, fun c hc _ hpc => ?_⟩
    · obtain ⟨l, hl, hp⟩ := Option.bind_eq_some_iff.mp hx
      obtain ⟨_, rfl⟩ := Kernel.starts_eq hl
      cases hp
    · obtain ⟨hlt, rfl⟩ := Kernel.starts_eq hx
      exact ⟨rfl, hlt, trivial⟩
    · exact absurd hnone (Kernel.starts_ne_none hc)
    · refine absurd rfl (hpc ⟨c, .filter⟩ ?_)
      exact if_pos hc

end AxisBridge.Gpu
