import AxisBridge.Runtime.GpuMisses

/-! A launch of discover, in any order of its threads' steps: each missing key is claimed and listed
once. -/
namespace AxisBridge.Gpu
open Function Option

variable {cap x i h : ℕ} {A P : Key → Prop} {s s' : Memory} {l l' : DiscoverThread}
  {pc : DiscoverPc} {here : ℕ → Option DiscoverThread} {held : ℕ → Option Key} {listed : List ℕ}
  {k : Key}

/-- The table and the list of misses while discover runs. A table of 2 ^ 32 slots or more has every
key that is looked for. -/
structure Discovering (cap : ℕ) (A P : Key → Prop) (s : Memory) (here : ℕ → Option DiscoverThread)
    (held : ℕ → Option Key) (listed : List ℕ) : Prop where
  claims : Claims cap s.table (claimers here) held
  listing : Listing cap A P s here listed
  fits : cap < 2 ^ 32 ∨ ∀ k, P k → ∃ h, held h = some k
  planned : ∀ h k, held h = some k → A k ∨ P k
  answered : ∀ k, A k → ∃ h, held h = some k
  noOverflow : s.flag .overflow = false

/-- An element whose thread is done: its key is shown, or the pass is to be done again. -/
def Settled (s : Memory) (k : Key) : Prop :=
  (∃ h, Shows (s.table h) k) ∨ s.flag .full = true ∨ s.flag .rerun = true

/-- What a step leaves: published slots and raised flags stay, and an element that ends is
settled. -/
structure Onward (s s' : Memory) (l : DiscoverThread) (r : Option DiscoverThread) : Prop where
  kept : Kept s.table s'.table
  flags : ∀ bit, s.flag bit = true → s'.flag bit = true
  key : ∀ l', r = some l' → l'.key = l.key
  settled : r = none → Settled s' l.key

theorem Settled.mono (hs : Settled s k) (hkept : Kept s.table s'.table)
    (hflags : ∀ bit, s.flag bit = true → s'.flag bit = true) : Settled s' k := by
  rcases hs with ⟨h, hs⟩ | hs | hs
  · exact .inl ⟨h, hs.kept hkept⟩
  · exact .inr (.inl (hflags _ hs))
  · exact .inr (.inr (hflags _ hs))

/-- What `Discovering` is after the step, and what the step leaves. -/
def Advances (cap : ℕ) (A P : Key → Prop) (s : Memory) (here : ℕ → Option DiscoverThread) (x : ℕ)
    (l : DiscoverThread) (r : Memory × Option DiscoverThread) : Prop :=
  (∃ held listed, Discovering cap A P r.1 (update here x r.2) held listed) ∧
    Onward s r.1 l r.2

theorem onward_same (l : DiscoverThread) (pc : DiscoverPc) : Onward s s l (some { l with pc }) where
  kept := Kept.refl _
  flags := fun _ hb => hb
  key := fun l' he => by cases he; rfl
  settled := fun he => by cases he

theorem quiet_of_probes (hprobes : l.claimer = .probes k i) : l.pc.Quiet := by
  refine quiet_of_claimer fun he => ?_
  rw [hprobes] at he
  cases he

variable (hd : Discovering cap A P s here held listed) (hx : here x = some l)

include hd hx

/-- The thread goes on at another place and leaves the memory as it is. -/
theorem Discovering.turn
    (hclaims : Claims cap s.table
      (update (claimers here) x (DiscoverThread.claimer { l with pc })) held)
    (hold : l.pc.Quiet) (hknows : Knows cap A P s listed { l with pc }) (hnew : pc.Quiet) :
    Advances cap A P s here x l (s, some { l with pc }) := by
  refine ⟨⟨held, listed, ?_, ?_, hd.fits, hd.planned, hd.answered, hd.noOverflow⟩, onward_same l pc⟩
  · rw [claimers_update]
    exact hclaims
  · refine hd.listing.quiet hx hold ?_ rfl (Kept.refl _) fun _ hst => hst
    intro l' he
    cases he
    exact ⟨hknows, hnew⟩

/-- A thread that gives up goes to raise a flag. -/
theorem Discovering.giveUp {bit : Bit} (hprobes : l.claimer = .probes l.key i)
    (hbit : bit = .rerun ∨ bit = .full) :
    Advances cap A P s here x l (s, some { l with pc := .raise bit }) := by
  have hleave : Claims cap s.table (update (claimers here) x .rests) held := by
    refine hd.claims.leave fun k v h pc he => ?_
    rw [claimers_at hx, hprobes] at he
    cases he
  exact hd.turn hx hleave (quiet_of_probes hprobes) ⟨(hd.listing.knows hx).1, hbit⟩
    ⟨fun _ he => (by cases he), rfl⟩

/-- A thread goes on at the same slot. -/
theorem Discovering.stay (hprobes : l.claimer = .probes l.key i)
    (hprobes' : DiscoverThread.claimer { l with pc } = .probes l.key i)
    (hknows : Knows cap A P s listed { l with pc }) :
    Advances cap A P s here x l (s, some { l with pc }) := by
  have hsame : update (claimers here) x (DiscoverThread.claimer { l with pc }) = claimers here := by
    rw [hprobes', ← hprobes, ← claimers_at hx, update_eq_self]
  exact hd.turn hx (by rw [hsame]; exact hd.claims) (quiet_of_probes hprobes) hknows
    (quiet_of_probes hprobes')

/-- A thread goes past a slot that shows another key. -/
theorem Discovering.pass (hcap : IsCap cap) (hprobes : l.claimer = .probes l.key i)
    (hh : path cap l.key i = h) (h2 : (s.table h).st = 2) (hne : ¬ Shows (s.table h) l.key) :
    Advances cap A P s here x l (s, some { l with pc := probed (cap - 1) h i }) := by
  subst hh
  unfold probed
  split
  · exact hd.giveUp hx hprobes (.inr rfl)
  · have hother : ((s.table (path cap l.key i)).k0, (s.table (path cap l.key i)).k1) ≠ l.key := by
      intro he
      exact hne ⟨h2, congrArg Prod.fst he, congrArg Prod.snd he⟩
    have hlook := hd.claims.look ((claimers_at hx).trans hprobes) (hd.claims.full _ h2) hother
    exact hd.turn hx hlook (quiet_of_probes hprobes)
      ⟨(hd.listing.knows hx).1, (hcap.path_succ l.key i).symm⟩ ⟨fun _ he => (by cases he), rfl⟩

/-- A thread that neither writes, counts nor lists a slot ends its element. -/
theorem Discovering.finish (hold : ∀ h pc, l.pc ≠ .write h pc) (hquiet : l.pc.Quiet)
    (htable : s'.table = s.table) (hmisses : s'.toMisses = s.toMisses)
    (hflag : s'.flag .overflow = false) (hflags : ∀ bit, s.flag bit = true → s'.flag bit = true)
    (hsettled : Settled s' l.key) : Advances cap A P s here x l (s', none) := by
  have hkept : Kept s.table s'.table := htable ▸ Kept.refl _
  refine ⟨⟨held, listed, ?_, ?_, hd.fits, hd.planned, hd.answered, hflag⟩, hkept, hflags,
    fun _ he => (by cases he), fun _ => hsettled⟩
  · rw [claimers_update]
    show Claims cap s'.table _ held
    rw [htable]
    refine hd.claims.leave fun k v h pc he => ?_
    rw [claimers_at hx] at he
    obtain ⟨key, lpc⟩ := l
    cases lpc with
    | write g p => exact hold g p rfl
    | load | claim | count | list | list0 | list1 | same0 | same1 | raise => cases he
  · exact hd.listing.quiet hx hquiet (fun _ he => by cases he) hmisses hkept
      fun _ hst => htable ▸ hst

/-- The compare-exchange of a thread takes the free slot. -/
theorem Discovering.claim (hcap : IsCap cap) (hpc : l.pc = .claim h i) (hst : (s.table h).st = 0) :
    Advances cap A P s here x l
      ({ s with table := update s.table h { s.table h with st := 1 } },
        some { l with pc := .write h .key0 }) := by
  have hprobes : l.claimer = .probes l.key i := by
    rw [DiscoverThread.claimer, hpc]
  obtain ⟨hP, hh⟩ := hd.listing.knows hx
  rw [hpc] at hh
  have hat := (claimers_at hx).trans hprobes
  have habsent := hd.claims.absent hcap hat (hh ▸ hst)
  have hsmall : cap < 2 ^ 32 := by
    rcases hd.fits with hsmall | hheld
    · exact hsmall
    · obtain ⟨g, hg⟩ := hheld l.key hP
      exact absurd hg (habsent g)
  have hA : ¬ A l.key := by
    intro hA
    obtain ⟨g, hg⟩ := hd.answered l.key hA
    exact habsent g hg
  have hempty : held h = none := (hd.claims.free h (hh ▸ hcap.path_lt l.key i)).mp hst
  have hkept : Kept s.table (update s.table h { s.table h with st := 1 }) :=
    kept_update (by omega)
  refine ⟨⟨update held h (some l.key), listed, ?_, ?_, .inl hsmall, ?_, ?_, hd.noOverflow⟩,
    hkept, fun _ hb => hb, fun l' he => by cases he; rfl, fun he => by cases he⟩
  · rw [claimers_update]
    exact hd.claims.claim hcap hat hh hst
  · refine hd.listing.quiet hx (quiet_of_probes hprobes) ?_ rfl hkept ?_
    · intro l' he
      cases he
      exact ⟨⟨hP, hsmall, hA⟩, fun _ he => (by cases he), rfl⟩
    · intro g hg
      by_cases he : g = h
      · subst he
        simp only [update_self] at hg
        exact absurd hg (by decide)
      · simpa only [update_of_ne he] using hg
  · intro g k hg
    by_cases he : g = h
    · subst he
      rw [update_self, some.injEq] at hg
      exact .inr (hg ▸ hP)
    · rw [update_of_ne he] at hg
      exact hd.planned g k hg
  · intro k hk
    obtain ⟨g, hg⟩ := hd.answered k hk
    exact ⟨g, heldMono_claim hempty g k hg⟩

/-- The writer of a slot writes on. -/
theorem Discovering.write {pc : WritePc} (hpc : l.pc = .write h pc) : Advances cap A P s here x l
      ({ s with table := update s.table h (pc.step l.key pending (s.table h)).1 },
        some { l with
          pc := (pc.step l.key pending (s.table h)).2.elim (.count h) (.write h) }) := by
  have hwrites : l.claimer = .writes l.key pending h pc := by
    rw [DiscoverThread.claimer, hpc]
  have hat := (claimers_at hx).trans hwrites
  obtain ⟨hlt, h1, hheld, hdone⟩ := hd.claims.writing hat
  obtain ⟨hP, hknows⟩ := hd.listing.knows hx
  rw [hpc] at hknows
  have hquiet : l.pc.Quiet := quiet_of_claimer (by rw [hwrites]; exact fun he => by cases he)
  have hkept : Kept s.table (update s.table h (pc.step l.key pending (s.table h)).1) :=
    kept_update (by omega)
  have hclaims := hd.claims.write hat
  refine ⟨⟨held, listed, ?_, ?_, hd.fits, hd.planned, hd.answered, hd.noOverflow⟩,
    hkept, fun _ hb => hb, fun l' he => by cases he; rfl, fun he => by cases he⟩
  · rw [claimers_update]
    rcases WritePc.step_cases h1 hdone with ⟨pc', hnext, _⟩ | ⟨hnext, _⟩ <;>
      rw [hnext] at hclaims ⊢ <;> exact hclaims
  · rcases WritePc.step_cases h1 hdone with ⟨pc', hnext, hst, _⟩ | ⟨hnext, hslot⟩
    · rw [hnext]
      refine hd.listing.quiet hx hquiet ?_ rfl hkept ?_
      · intro l' he
        cases he
        exact ⟨⟨hP, hknows⟩, fun _ he => (by cases he), rfl⟩
      · intro g hg
        by_cases he : g = h
        · subst he
          simp only [update_self] at hg
          omega
        · simpa only [update_of_ne he] using hg
    · rw [hnext]
      refine hd.listing.publish hx hquiet hkept (by omega)
        (fun g hg => update_of_ne hg ..) rfl ⟨hP, hknows.1, hknows.2, hlt, ?_, ?_⟩
      · show Shows (update s.table h _ h) l.key
        rw [update_self, hslot]
        exact ⟨rfl, rfl, rfl⟩
      · intro hmem
        obtain ⟨_, _, hs, _⟩ := hd.listing.new h hmem
        have := hs.1
        omega

/-- A published slot is counted; the list of misses has a place for it. -/
theorem Discovering.count (hpc : l.pc = .count h) : Advances cap A P s here x l
      ({ s with nmiss := (s.nmiss + 1) % 2 ^ 32 },
        some { l with
          pc := if s.nmiss < cap % 2 ^ 32 then .list h s.nmiss else .raise .overflow }) := by
  obtain ⟨_, hknows⟩ := hd.listing.knows hx
  rw [hpc] at hknows
  obtain ⟨hsmall, _, hlt, _, hnot⟩ := hknows
  have hroom : s.nmiss < cap := by
    rw [hd.listing.count]
    exact hd.listing.length_lt hlt hnot
  rw [Nat.mod_eq_of_lt hsmall, if_pos hroom,
    Nat.mod_eq_of_lt (lt_of_le_of_lt (Nat.succ_le_of_lt hroom) hsmall)]
  have hlisting := hd.listing.counted hx hpc rfl
  refine ⟨⟨held, listed ++ [h], ?_, hlisting, hd.fits, hd.planned, hd.answered, hd.noOverflow⟩,
    Kept.refl _, fun _ hb => hb, fun l' he => by cases he; rfl, fun he => by cases he⟩
  rw [claimers_update]
  refine hd.claims.leave fun k v h pc he => ?_
  rw [claimers_at hx, DiscoverThread.claimer, hpc] at he
  cases he

/-- A place of the list of misses is written by the thread that has it. -/
theorem Discovering.list {r : Option DiscoverThread} (hpc : l.pc.index = some i)
    (htable : s'.table = s.table) (hflag : s'.flag = s.flag) (hnmiss : s'.nmiss = s.nmiss)
    (hother : ∀ j ≠ i, s'.miss j = s.miss j ∧ s'.missk0 j = s.missk0 j ∧ s'.missk1 j = s.missk1 j)
    (hshows : ∃ h, Shows (s.table h) l.key)
    (hnew : (∃ pc, r = some { l with pc } ∧ pc.index = some i ∧ Knows cap A P s' listed
      { l with pc }) ∨ (r = none ∧ ∀ h, listed[i]? = some h → Entry s' i h)) :
    Advances cap A P s here x l (s', r) := by
  have hrests : ∀ {m : DiscoverThread}, m.pc.index = some i → m.claimer = .rests := by
    rintro ⟨key, pc⟩ hm
    cases pc <;> cases hm <;> rfl
  refine ⟨⟨held, listed, ?_, ?_, hd.fits, hd.planned, hd.answered, hflag ▸ hd.noOverflow⟩,
    htable ▸ Kept.refl _, fun bit hb => hflag ▸ hb, ?_, fun _ => .inl (htable ▸ hshows)⟩
  · have hc : r.elim .rests DiscoverThread.claimer = .rests := by
      rcases hnew with ⟨pc, rfl, hpc', _⟩ | ⟨rfl, _⟩
      · exact hrests hpc'
      · rfl
    rw [claimers_update, hc]
    show Claims cap s'.table _ held
    rw [htable]
    refine hd.claims.leave fun k v h pc he => ?_
    rw [claimers_at hx, hrests hpc] at he
    cases he
  · refine hd.listing.written hx hpc htable hnmiss hother ?_
    rcases hnew with ⟨pc, rfl, hpc', hknows⟩ | hdone
    · exact .inl ⟨_, rfl, hpc', hknows⟩
    · exact .inr hdone
  · intro l' he
    rcases hnew with ⟨pc, rfl, _⟩ | ⟨rfl, _⟩
    · cases he
      rfl
    · cases he

theorem Discovering.step (hcap : IsCap cap) :
    Advances cap A P s here x l (discoverStep (cap - 1) (cap % 2 ^ 32) s l) := by
  obtain ⟨key, pc⟩ := l
  have hall := hd.listing.knows hx
  obtain ⟨hP, hknows⟩ := id hall
  cases pc with
  | load h i =>
    have hlt : h < cap := hknows ▸ hcap.path_lt key i
    simp only [discoverStep]
    split
    · exact hd.stay hx rfl rfl ⟨hP, hknows⟩
    · next h0 =>
      split
      · exact hd.giveUp hx rfl (.inl rfl)
      · next h1 =>
        refine hd.stay hx rfl rfl ⟨hP, hknows, ?_⟩
        -- a slot that is neither free nor published has a writer
        by_contra h2
        obtain ⟨y, k, v, p, hy⟩ := hd.claims.busy h hlt h0 h2
        exact h1 (hd.claims.writing hy).2.1
  | claim h i =>
    simp only [discoverStep]
    split
    · next h0 => exact hd.claim hx hcap rfl h0
    · exact hd.giveUp hx rfl (.inl rfl)
  | write h pc => exact hd.write hx rfl
  | count h => exact hd.count hx rfl
  | list h i =>
    obtain ⟨hi, hs⟩ := hknows
    refine hd.list hx rfl rfl rfl rfl (fun j hj => ⟨update_of_ne hj .., rfl, rfl⟩) ⟨h, hs⟩ ?_
    exact .inl ⟨.list0 h i, rfl, rfl, hP, hi, hs, update_self ..⟩
  | list0 h i =>
    obtain ⟨hi, hs, hmiss⟩ := hknows
    refine hd.list hx rfl rfl rfl rfl (fun j hj => ⟨rfl, update_of_ne hj .., rfl⟩) ⟨h, hs⟩ ?_
    exact .inl ⟨.list1 h i, rfl, rfl, hP, hi, hs, hmiss, update_self ..⟩
  | list1 h i =>
    obtain ⟨hi, hs, hmiss, hmiss0⟩ := hknows
    refine hd.list hx rfl rfl rfl rfl (fun j hj => ⟨rfl, rfl, update_of_ne hj ..⟩) ⟨h, hs⟩ ?_
    refine .inr ⟨rfl, fun g hg => ?_⟩
    rw [hi, some.injEq] at hg
    subst hg
    exact ⟨hmiss, hmiss0.trans hs.2.1.symm, (update_self ..).trans hs.2.2.symm⟩
  | same0 h i =>
    obtain ⟨hh, h2⟩ := hknows
    simp only [discoverStep]
    by_cases h0 : (s.table h).k0 = key.1
    · rw [if_pos h0]
      exact hd.stay hx rfl rfl ⟨hP, hh, h2, h0⟩
    · rw [if_neg h0]
      exact hd.pass hx hcap rfl hh h2 fun hs => h0 hs.2.1
  | same1 h i =>
    obtain ⟨hh, h2, h0⟩ := hknows
    simp only [discoverStep]
    by_cases h1 : (s.table h).k1 = key.2
    · rw [if_pos h1]
      exact hd.finish hx (fun _ _ he => by cases he) ⟨fun _ he => (by cases he), rfl⟩ rfl rfl
        hd.noOverflow (fun _ hb => hb) (.inl ⟨h, h2, h0, h1⟩)
    · rw [if_neg h1]
      exact hd.pass hx hcap rfl hh h2 fun hs => h1 hs.2.2
  | raise bit =>
    have hne : Bit.overflow ≠ bit := by
      rcases hknows with rfl | rfl <;> exact fun he => by cases he
    refine hd.finish hx (fun _ _ he => by cases he) ⟨fun _ he => (by cases he), rfl⟩ rfl rfl
      ((s.flag.fetchOr_of_ne hne).trans hd.noOverflow) (fun b hb => Flag.fetchOr_mono hb) ?_
    rcases hknows with rfl | rfl
    · exact .inr (.inr (s.flag.fetchOr_self .rerun))
    · exact .inr (.inl (s.flag.fetchOr_self .full))

end AxisBridge.Gpu
