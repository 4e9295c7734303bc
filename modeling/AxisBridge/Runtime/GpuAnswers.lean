import AxisBridge.Runtime.GpuTable
import Mathlib.Data.List.Nodup

/-! The answers of the memo table: setval writes them into slots, produce finds them under their
keys. -/
namespace AxisBridge.Gpu
open Option List Function

variable {cap stride total n x i h : ℕ} {slots vals : List UInt32} {t t' : Table} {gs : List Group}
  {held : ℕ → Option Key} {k : Key} {ans : ℕ → UInt32} {job : Job} {bvec : ℕ → UInt32} {j0 : ℕ}

/-- The values of a launch of setval so far. -/
structure Setting (slots vals : List UInt32) (t t' : Table) (here : ℕ → Option ℕ) : Prop where
  at' : ∀ {x y}, here x = some y → y = x ∧ x < vals.length
  set : ∀ x < vals.length, here x = none →
    t' (slots.getD x 0).toNat = { t (slots.getD x 0).toNat with val := vals.getD x 0 }
  other : ∀ h, (∀ x < vals.length, here x = none → (slots.getD x 0).toNat ≠ h) → t' h = t h

theorem getD_inj {y : ℕ} (hnodup : slots.Nodup) (hx : x < slots.length) (hy : y < slots.length)
    (he : (slots.getD x 0).toNat = (slots.getD y 0).toNat) : x = y := by
  have he' := UInt32.toNat_inj.mp he
  rw [getD_eq_getElem?_getD, getD_eq_getElem?_getD, getElem?_eq_getElem hx,
    getElem?_eq_getElem hy, getD_some, getD_some] at he'
  exact (Nodup.getElem_inj_iff hnodup).mp he'

theorem setval_sets (hrun : (p5Setval slots vals).Runs stride vals.length t t')
    (hstride : 0 < stride) (hlen : slots.length = vals.length) (hnodup : slots.Nodup) :
    Setting slots vals t t' fun _ => none := by
  refine hrun.rule (I := Setting slots vals t) hstride ?_ ?_
  · refine ⟨fun {x y} hx => ?_, fun x hx hnone => ?_, fun h _ => rfl⟩
    · obtain ⟨hlt, rfl⟩ := Kernel.starts_eq hx
      exact ⟨rfl, hlt⟩
    · exact absurd hnone (Kernel.starts_ne_none hx)
  · intro t' here x y hs hx
    obtain ⟨rfl, hlt⟩ := hs.at' hx
    -- the slot of the element is not among those that are set
    have hsame : t' (slots.getD y 0).toNat = t (slots.getD y 0).toNat := by
      refine hs.other _ fun z hz hnone he => ?_
      have := getD_inj hnodup (hlen ▸ hz) (hlen ▸ hlt) he
      subst this
      rw [hx] at hnone
      cases hnone
    refine ⟨fun {z w} hz => ?_, fun z hz hnone => ?_, fun h hother => ?_⟩
    · simp only [p5Setval, update_apply] at hz
      split at hz
      · cases hz
      · exact hs.at' hz
    · simp only [p5Setval, update_apply] at hnone ⊢
      by_cases he : z = y
      · subst he
        rw [if_pos rfl, hsame]
      · rw [if_neg he] at hnone
        rw [if_neg fun heq => he (getD_inj hnodup (hlen ▸ hz) (hlen ▸ hlt) heq)]
        exact hs.set z hz hnone
    · have hne : h ≠ (slots.getD y 0).toNat :=
        fun he => hother y hlt (update_self ..) he.symm
      simp only [p5Setval, update_of_ne hne]
      refine hs.other h fun z hz hnone => hother z hz ?_
      rw [update_apply]
      split
      · rfl
      · exact hnone

/-- The slots of all groups, each with its answer. -/
def slotVals (gs : List Group) : List (UInt32 × UInt32) := gs.flatMap fun g => g.slots.zip g.vals

theorem setVals_sets (hset : SetVals gs t t') (hlen : ∀ g ∈ gs, g.slots.length = g.vals.length)
    (hnodup : (gs.flatMap Group.slots).Nodup) :
    (∀ p ∈ slotVals gs, t' p.1.toNat = { t p.1.toNat with val := p.2 }) ∧
      ∀ h, (∀ s ∈ gs.flatMap Group.slots, s.toNat ≠ h) → t' h = t h := by
  induction hset with
  | nil t => exact ⟨fun p hp => absurd hp not_mem_nil, fun h _ => rfl⟩
  | @cons g gs t t₁ t'' hrun rest ih =>
    rw [flatMap_cons, nodup_append] at hnodup
    obtain ⟨hg, hgs, hapart⟩ := hnodup
    have hleng := hlen g mem_cons_self
    have hpos : 0 < threads g.vals.length := by
      unfold threads
      omega
    have hfirst := setval_sets hrun hpos hleng hg
    obtain ⟨hset, hother⟩ := ih (fun g' hg' => hlen g' (mem_cons_of_mem g hg')) hgs
    have hmem : ∀ x < g.vals.length, g.slots.getD x 0 ∈ g.slots := by
      intro x hx
      rw [getD_eq_getElem?_getD, getElem?_eq_getElem (hleng ▸ hx), getD_some]
      exact getElem_mem _
    refine ⟨fun p hp => ?_, fun h hh => ?_⟩
    · rw [slotVals, flatMap_cons] at hp
      rcases mem_append.mp hp with hp | hp
      · obtain ⟨x, hx⟩ := mem_iff_getElem?.mp hp
        rw [getElem?_zip_eq_some] at hx
        have hlt := (List.getElem?_eq_some_iff.mp hx.2).1
        have hs := hfirst.set x hlt rfl
        rw [getD_eq_getElem?_getD, getD_eq_getElem?_getD, hx.1, hx.2, getD_some, getD_some] at hs
        rw [hother p.1.toNat fun s hs' he => ?_, hs]
        exact hapart p.1 (mem_of_getElem? hx.1) s hs' (UInt32.toNat_inj.mp he).symm
      · have hp' : p.1 ∈ gs.flatMap Group.slots := by
          obtain ⟨g', hg', hz⟩ := mem_flatMap.mp hp
          exact mem_flatMap.mpr ⟨g', hg', (of_mem_zip hz).1⟩
        rw [hset p hp, hfirst.other p.1.toNat fun x hx _ he => ?_]
        exact hapart _ (hmem x hx) p.1 hp' (UInt32.toNat_inj.mp he)
    · rw [flatMap_cons] at hh
      rw [hother h fun s hs => hh s (mem_append_right _ hs)]
      exact hfirst.other h fun x hx _ => hh _ (mem_append_left _ (hmem x hx))

/-- What a thread of produce knows of its element; `v` is the answer of its key. -/
def Reads (cap : ℕ) (t : Table) (held : ℕ → Option Key) (k : Key) (v : UInt32) : ProducePc → Prop
  | .load h i => path cap k i = h ∧ Passed (path cap) held k i
  | .same0 h i => path cap k i = h ∧ Passed (path cap) held k i ∧ (t h).st ≠ 0
  | .same1 h i => path cap k i = h ∧ Passed (path cap) held k i ∧ (t h).st ≠ 0 ∧ (t h).k0 = k.1
  | .read h => Shows (t h) k
  | .raise => v = pending
  | .store w => w = v

/-- The answers of a launch of produce so far. -/
structure Producing (cap : ℕ) (t : Table) (held : ℕ → Option Key) (keyOf : ℕ → Key)
    (ans : ℕ → UInt32)
    (total : ℕ) (s₀ s : ProduceMemory) (here : ℕ → Option ProduceThread) : Prop where
  thread : ∀ {x l}, here x = some l →
    x < total ∧ l.x = x ∧ l.key = keyOf x ∧ Reads cap t held (keyOf x) (ans x) l.pc
  out : ∀ x < total, here x = none → s.out x = ans x
  flag : (∀ x < total, ans x ≠ pending) → s.flag = s₀.flag

theorem path_mod (cap : ℕ) (k : Key) (i : ℕ) : path cap k (i % cap) = path cap k i := by
  unfold path
  rw [Nat.add_mod_mod]

/-- A key that is shown is found before all slots have been looked at. -/
theorem Claims.passed_lt (hc : Claims cap t resting held) (hcap : IsCap cap) (hs : Shows (t h) k)
    (hpassed : Passed (path cap) held k i) : i < cap := by
  obtain ⟨l, rfl, _⟩ := hc.placed h k (hc.held_of_shows hs)
  have hheld := hc.held_of_shows hs
  rw [← path_mod] at hheld
  exact lt_of_le_of_lt (hpassed.le hheld) (Nat.mod_lt l hcap.pos)

/-- With no thread at work, the slot a key comes to is taken, and is published. -/
theorem Claims.taken (hc : Claims cap t resting held) (hcap : IsCap cap) (hs : Shows (t h) k)
    (hpassed : Passed (path cap) held k i) :
    (t (path cap k i)).st ≠ 0 ∧ (t (path cap k i)).st = 2 := by
  have hlt := hcap.path_lt k i
  have h0 : (t (path cap k i)).st ≠ 0 := by
    intro h0
    exact hc.placed.absent hpassed ((hc.free _ hlt).mp h0) h (hc.held_of_shows hs)
  refine ⟨h0, ?_⟩
  by_contra h2
  obtain ⟨_, _, _, _, hx⟩ := hc.busy _ hlt h0 h2
  cases hx

variable {keyOf : ℕ → Key} {s₀ s : ProduceMemory} {here : ℕ → Option ProduceThread}
  {l : ProduceThread} {pc : ProducePc}

theorem Producing.next (hp : Producing cap t held keyOf ans total s₀ s here) (hx : here x = some l)
    (hpc : Reads cap t held (keyOf x) (ans x) pc) :
    Producing cap t held keyOf ans total s₀ s (update here x (some { l with pc })) := by
  refine ⟨fun {y m} hy => ?_, fun y hy hnone => ?_, hp.flag⟩
  · rw [update_apply] at hy
    split at hy
    · next he =>
      cases hy
      subst he
      obtain ⟨hlt, hlx, hkey, _⟩ := hp.thread hx
      exact ⟨hlt, hlx, hkey, hpc⟩
    · exact hp.thread hy
  · rw [update_apply] at hnone
    split at hnone
    · cases hnone
    · exact hp.out y hy hnone

/-- A slot with another key is passed; it is not the last one. -/
theorem reads_probed (hc : Claims cap t resting held) (hcap : IsCap cap) (hs : Shows (t h) k)
    (hpassed : Passed (path cap) held k i) (hne : ¬ Shows (t (path cap k i)) k) (v : UInt32) :
    Reads cap t held k v (produceProbed (cap - 1) (path cap k i) i) := by
  obtain ⟨_, h2⟩ := hc.taken hcap hs hpassed
  have hother : ((t (path cap k i)).k0, (t (path cap k i)).k1) ≠ k :=
    fun he => hne ⟨h2, congrArg Prod.fst he, congrArg Prod.snd he⟩
  have hpassed' := hpassed.succ (hc.full _ h2) hother
  have hlt := hc.passed_lt hcap hs hpassed'
  rw [produceProbed, if_neg (by omega)]
  exact ⟨(hcap.path_succ k i).symm, hpassed'⟩

theorem reads_produced {v w : UInt32} (hv : w = v) : Reads cap t held k v (produced w) := by
  unfold produced
  split
  · next he => exact hv.symm.trans he
  · exact hv

theorem Producing.step (hp : Producing cap t held keyOf ans total s₀ s here)
    (hc : Claims cap t resting held) (hcap : IsCap cap)
    (hans : ∀ x < total, ∃ h, Shows (t h) (keyOf x) ∧ (t h).val = ans x) (hx : here x = some l) :
    Producing cap t held keyOf ans total s₀ (produceStep t (cap - 1) s l).1
      (update here x (produceStep t (cap - 1) s l).2) := by
  obtain ⟨hlt, hlx, hkey, hreads⟩ := hp.thread hx
  obtain ⟨g, hs, hval⟩ := hans x hlt
  obtain ⟨lx, lkey, lpc⟩ := l
  cases lpc with
  | load h i =>
    obtain ⟨rfl, hpassed⟩ := hreads
    obtain ⟨h0, _⟩ := hc.taken hcap hs hpassed
    simp only [produceStep, if_neg h0]
    exact hp.next hx ⟨rfl, hpassed, h0⟩
  | same0 h i =>
    obtain ⟨rfl, hpassed, h0⟩ := hreads
    simp only [produceStep]
    refine hp.next hx ?_
    split
    · next hk0 => exact ⟨rfl, hpassed, h0, hk0.trans (congrArg Prod.fst hkey)⟩
    · next hk0 =>
      exact reads_probed hc hcap hs hpassed
        (fun hshow => hk0 (hshow.2.1.trans (congrArg Prod.fst hkey).symm)) _
  | same1 h i =>
    obtain ⟨rfl, hpassed, h0, hk0⟩ := hreads
    obtain ⟨_, h2⟩ := hc.taken hcap hs hpassed
    simp only [produceStep]
    refine hp.next hx ?_
    split
    · next hk1 => exact ⟨h2, hk0, hk1.trans (congrArg Prod.snd hkey)⟩
    · next hk1 =>
      exact reads_probed hc hcap hs hpassed
        (fun hshow => hk1 (hshow.2.2.trans (congrArg Prod.snd hkey).symm)) _
  | read h =>
    have he := hc.slot_eq hreads hs
    subst he
    exact hp.next hx (reads_produced hval)
  | raise =>
    have hans' : ans x = pending := hreads
    have hnext :=
      hp.next hx (show Reads cap t held (keyOf x) (ans x) (.store pending) from hans'.symm)
    exact ⟨hnext.thread, hnext.out, fun hall => absurd hans' (hall x hlt)⟩
  | store w =>
    have hw : w = ans x := hreads
    have hlx' : lx = x := hlx
    subst hw hlx'
    refine ⟨fun {y m} hy => ?_, fun y hy hnone => ?_, hp.flag⟩
    · simp only [produceStep, update_apply] at hy
      split at hy
      · cases hy
      · exact hp.thread hy
    · simp only [produceStep, update_apply] at hnone ⊢
      split at hnone
      · next he => rw [if_pos he, he]
      · next he =>
        rw [if_neg he]
        exact hp.out y hy hnone

/-- A launch of produce over keys that are all shown gives the value of each key's slot. -/
theorem produce_finds {m : ℕ} {s' : ProduceMemory} (hc : Claims cap t resting held)
    (hcap : IsCap cap)
    (hans : ∀ x < m * n, ∃ h, Shows (t h) (key job bvec n (j0 + x / n) (x % n)) ∧ (t h).val = ans x)
    (hrun : (p5Produce job bvec n j0 t (cap - 1)).Runs stride (m * n) s s') (hstride : 0 < stride) :
    (∀ x < m * n, s'.out x = ans x) ∧ ((∀ x < m * n, ans x ≠ pending) → s'.flag = s.flag) := by
  have hend := hrun.rule
    (I := Producing cap t held (fun x => key job bvec n (j0 + x / n) (x % n)) ans (m * n) s) hstride
    ?_ fun hp hx => hp.step hc hcap hans hx
  · exact ⟨fun x hx => hend.out x hx rfl, hend.flag⟩
  · refine ⟨fun {x l} hx => ?_, fun x hx hnone => ?_, fun _ => rfl⟩
    · obtain ⟨hlt, rfl⟩ := Kernel.starts_eq hx
      exact ⟨hlt, rfl, rfl, (hcap.home _).symm, .zero _⟩
    · exact absurd hnone (Kernel.starts_ne_none hx)

end AxisBridge.Gpu
