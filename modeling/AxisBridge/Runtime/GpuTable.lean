import AxisBridge.Lib.Probing
import AxisBridge.Runtime.GpuP5

/-! The memo table under threads that claim its slots: where keys lie while slots are being
written. -/
namespace AxisBridge.Gpu
open Function

variable {cap i h x : ℕ} {t : Table} {held : ℕ → Option Key} {k k' : Key} {v : UInt32}
  {pc pc' : WritePc} {slot : Slot}

/-- The slots a key is looked for in, in turn. -/
def path (cap : ℕ) (k : Key) (i : ℕ) : ℕ := ((mix k).toNat + i) % cap

/-- A power of two. -/
def IsCap (cap : ℕ) : Prop := ∃ e, cap = 2 ^ e

theorem IsCap.pos (hcap : IsCap cap) : 0 < cap := by
  obtain ⟨e, rfl⟩ := hcap
  exact Nat.two_pow_pos e

theorem IsCap.grow (hcap : IsCap cap) : IsCap (cap * 4) := by
  obtain ⟨e, rfl⟩ := hcap
  exact ⟨e + 2, (Nat.pow_add 2 e 2).symm⟩

theorem IsCap.and_mask (hcap : IsCap cap) (a : ℕ) : a &&& (cap - 1) = a % cap := by
  obtain ⟨e, rfl⟩ := hcap
  exact Nat.and_two_pow_sub_one_eq_mod a e

theorem IsCap.home (hcap : IsCap cap) (k : Key) : (mix k).toNat &&& (cap - 1) = path cap k 0 := by
  rw [hcap.and_mask, path, add_zero]

theorem IsCap.path_succ (hcap : IsCap cap) (k : Key) (i : ℕ) :
    (path cap k i + 1) &&& (cap - 1) = path cap k (i + 1) := by
  rw [hcap.and_mask, path, Nat.mod_add_mod]
  rfl

theorem IsCap.path_lt (hcap : IsCap cap) (k : Key) (i : ℕ) : path cap k i < cap :=
  Nat.mod_lt _ hcap.pos

/-- What a thread is doing to the table. -/
inductive Claimer
  | probes (k : Key) (i : ℕ)
  | writes (k : Key) (v : UInt32) (h : ℕ) (pc : WritePc)
  | rests

variable {at' : ℕ → Claimer}

/-- What the writer of a slot has written so far. -/
def WritePc.Done (k : Key) (v : UInt32) (slot : Slot) : WritePc → Prop
  | .key0 => True
  | .key1 => slot.k0 = k.1
  | .val => slot.k0 = k.1 ∧ slot.k1 = k.2
  | .publish => slot.k0 = k.1 ∧ slot.k1 = k.2 ∧ slot.val = v

/-- A claimed slot has the key of the one thread that writes it, a published one the key it
shows. -/
structure Claims (cap : ℕ) (t : Table) (at' : ℕ → Claimer) (held : ℕ → Option Key) : Prop where
  placed : WellPlaced (path cap) held
  free : ∀ h < cap, ((t h).st = 0 ↔ held h = none)
  full : ∀ h, (t h).st = 2 → held h = some ((t h).k0, (t h).k1)
  busy : ∀ h < cap, (t h).st ≠ 0 → (t h).st ≠ 2 → ∃ x k v pc, at' x = .writes k v h pc
  probing : ∀ {x k i}, at' x = .probes k i → Passed (path cap) held k i
  writing : ∀ {x k v h pc}, at' x = .writes k v h pc →
    h < cap ∧ (t h).st = 1 ∧ held h = some k ∧ pc.Done k v (t h)
  apart : ∀ {x y k k' v v' h pc pc'}, at' x = .writes k v h pc → at' y = .writes k' v' h pc' → x = y

/-- No thread is at work on the table. -/
def resting : ℕ → Claimer := fun _ => .rests

theorem Claims.zeros (cap : ℕ) : Claims cap Table.zeros resting fun _ => none where
  placed := by
    intro s x hs
    cases hs
  free := fun h _ => ⟨fun _ => rfl, fun _ => rfl⟩
  full := fun h hst => absurd (show (0 : ℕ) = 2 from hst) (by decide)
  busy := fun h _ hst _ => absurd rfl hst
  probing := fun hx => by cases hx
  writing := fun hx => by cases hx
  apart := fun hx => by cases hx

/-- Threads come to a table at rest. -/
theorem Claims.start (hc : Claims cap t resting held)
    (hat : ∀ x, at' x = .rests ∨ ∃ k, at' x = .probes k 0) : Claims cap t at' held := by
  have hwrites : ∀ {x k v h pc}, at' x ≠ .writes k v h pc := by
    intro x k v h pc he
    rcases hat x with hx | ⟨_, hx⟩ <;> rw [hx] at he <;> cases he
  refine ⟨hc.placed, hc.free, hc.full, fun h hh h0 h2 => ?_, fun {x k i} hx => ?_,
    fun hx => absurd hx hwrites, fun hx => absurd hx hwrites⟩
  · obtain ⟨_, _, _, _, hx⟩ := hc.busy h hh h0 h2
    cases hx
  · rcases hat x with hx' | ⟨_, hx'⟩ <;> rw [hx'] at hx <;> cases hx
    exact .zero k

/-- What a write does: the writer goes on, or the slot is published whole. -/
theorem WritePc.step_cases (hst : slot.st = 1) (hdone : pc.Done k v slot) :
    (∃ pc', (pc.step k v slot).2 = some pc' ∧ (pc.step k v slot).1.st = 1 ∧
      pc'.Done k v (pc.step k v slot).1) ∨
    ((pc.step k v slot).2 = none ∧ (pc.step k v slot).1 = ⟨2, k.1, k.2, v⟩) := by
  cases pc with
  | key0 => exact .inl ⟨.key1, rfl, hst, rfl⟩
  | key1 => exact .inl ⟨.val, rfl, hst, hdone, rfl⟩
  | val => exact .inl ⟨.publish, rfl, hst, hdone.1, hdone.2, rfl⟩
  | publish =>
    obtain ⟨h0, h1, h2⟩ := hdone
    exact .inr ⟨rfl, by rw [← h0, ← h1, ← h2]; rfl⟩

section
variable (hc : Claims cap t at' held)

include hc

/-- A thread goes elsewhere without a change of the table. -/
theorem Claims.move {c : Claimer} (hold : ∀ k v h pc, at' x ≠ .writes k v h pc)
    (hnew : ∀ k v h pc, c ≠ .writes k v h pc)
    (hprobes : ∀ k i, c = .probes k i → Passed (path cap) held k i) :
    Claims cap t (update at' x c) held where
  placed := hc.placed
  free := hc.free
  full := hc.full
  busy := by
    intro h hh h0 h2
    obtain ⟨y, k, v, pc, hy⟩ := hc.busy h hh h0 h2
    have hne : y ≠ x := fun he => hold k v h pc (he ▸ hy)
    exact ⟨y, k, v, pc, by rw [update_of_ne hne, hy]⟩
  probing := by
    intro y k i hy
    rw [update_apply] at hy
    split at hy
    · exact hprobes k i hy
    · exact hc.probing hy
  writing := by
    intro y k v h pc hy
    rw [update_apply] at hy
    split at hy
    · exact absurd hy (hnew k v h pc)
    · exact hc.writing hy
  apart := by
    intro y z k k' v v' h pc pc' hy hz
    rw [update_apply] at hy hz
    split at hy
    · exact absurd hy (hnew k v h pc)
    · split at hz
      · exact absurd hz (hnew k' v' h pc')
      · exact hc.apart hy hz

theorem Claims.leave (hold : ∀ k v h pc, at' x ≠ .writes k v h pc) :
    Claims cap t (update at' x .rests) held :=
  hc.move hold (fun _ _ _ _ he => by cases he) fun _ _ he => by cases he

/-- The thread passes a slot that another key holds. -/
theorem Claims.look (hx : at' x = .probes k i) (hother : held (path cap k i) = some k')
    (hne : k' ≠ k) : Claims cap t (update at' x (.probes k (i + 1))) held := by
  refine hc.move (fun _ _ _ _ he => ?_) (fun _ _ _ _ he => by cases he) fun l j he => ?_
  · rw [hx] at he
    cases he
  · cases he
    exact (hc.probing hx).succ hother hne

theorem Claims.absent (hcap : IsCap cap) (hx : at' x = .probes k i)
    (hst : (t (path cap k i)).st = 0) (h : ℕ) : held h ≠ some k :=
  hc.placed.absent (hc.probing hx) ((hc.free _ (hcap.path_lt k i)).mp hst) h

/-- The compare-exchange of a thread on a free slot. -/
theorem Claims.claim (hcap : IsCap cap) (hx : at' x = .probes k i) (hh : path cap k i = h)
    (hst : (t h).st = 0) :
    Claims cap (update t h { t h with st := 1 })
      (update at' x (.writes k v h .key0)) (update held h (some k)) := by
  subst hh
  have hlt := hcap.path_lt k i
  have hempty := (hc.free _ hlt).mp hst
  have hmono : HeldMono held (update held (path cap k i) (some k)) := heldMono_claim hempty
  have hold : ∀ {y k' v' pc'}, at' y ≠ .writes k' v' (path cap k i) pc' := by
    intro y k' v' pc' hy
    have := (hc.writing hy).2.1
    omega
  refine ⟨hc.placed.claim (hc.probing hx) hempty, ?_, ?_, ?_, ?_, ?_, ?_⟩
  · intro h hh
    by_cases he : h = path cap k i
    · subst he
      simp only [update_self]
      exact ⟨fun h1 => absurd h1 Nat.one_ne_zero, fun h1 => by cases h1⟩
    · rw [update_of_ne he, update_of_ne he]
      exact hc.free h hh
  · intro h h2
    by_cases he : h = path cap k i
    · subst he
      rw [update_self] at h2
      exact absurd (show 1 = 2 from h2) (by decide)
    · rw [update_of_ne he] at h2 ⊢
      rw [update_of_ne he]
      exact hc.full h h2
  · intro h hh h0 h2
    by_cases he : h = path cap k i
    · subst he
      exact ⟨x, k, v, .key0, update_self ..⟩
    · rw [update_of_ne he] at h0 h2
      obtain ⟨y, k', v', pc', hy⟩ := hc.busy h hh h0 h2
      have hne : y ≠ x := by
        rintro rfl
        rw [hx] at hy
        cases hy
      exact ⟨y, k', v', pc', by rw [update_of_ne hne, hy]⟩
  · intro y k' j hy
    rw [update_apply] at hy
    split at hy
    · cases hy
    · exact (hc.probing hy).mono hmono
  · intro y k' v' h pc' hy
    rw [update_apply] at hy
    split at hy
    · cases hy
      rw [update_self, update_self]
      exact ⟨hlt, rfl, rfl, trivial⟩
    · have hne : h ≠ path cap k i := fun he => hold (he ▸ hy)
      rw [update_of_ne hne, update_of_ne hne]
      exact hc.writing hy
  · intro y z l l' w w' h pc pc' hy hz
    rw [update_apply] at hy hz
    split at hy
    · next he =>
      split at hz
      · next he' => rw [he, he']
      · cases hy
        exact absurd hz hold
    · split at hz
      · cases hz
        exact absurd hy hold
      · exact hc.apart hy hz

/-- The writer of a slot changes it. -/
theorem Claims.rewrite {c : Claimer} (hx : at' x = .writes k v h pc)
    (hslot : (∃ pc', c = .writes k v h pc' ∧ slot.st = 1 ∧ pc'.Done k v slot) ∨
      (c = .rests ∧ slot = ⟨2, k.1, k.2, v⟩)) :
    Claims cap (update t h slot) (update at' x c) held := by
  obtain ⟨hlt, h1, hheld, _⟩ := hc.writing hx
  have hother : ∀ {y l w pc'}, at' y = .writes l w h pc' → y = x := fun hy => hc.apart hy hx
  have hne0 : slot.st ≠ 0 := by
    rcases hslot with ⟨_, _, hst, _⟩ | ⟨_, rfl⟩
    · omega
    · exact Nat.succ_ne_zero 1
  refine ⟨hc.placed, ?_, ?_, ?_, ?_, ?_, ?_⟩
  · intro g hg
    by_cases he : g = h
    · subst he
      rw [update_self, hheld]
      exact ⟨fun h0 => absurd h0 hne0, fun h0 => by cases h0⟩
    · rw [update_of_ne he]
      exact hc.free g hg
  · intro g h2
    by_cases he : g = h
    · subst he
      rw [update_self] at h2 ⊢
      rcases hslot with ⟨_, _, hst, _⟩ | ⟨_, rfl⟩
      · omega
      · exact hheld
    · rw [update_of_ne he] at h2 ⊢
      exact hc.full g h2
  · intro g hg h0 h2
    by_cases he : g = h
    · subst he
      rw [update_self] at h0 h2
      rcases hslot with ⟨pc', rfl, _⟩ | ⟨_, rfl⟩
      · exact ⟨x, k, v, pc', update_self ..⟩
      · exact absurd rfl h2
    · rw [update_of_ne he] at h0 h2
      obtain ⟨y, l, w, pc', hy⟩ := hc.busy g hg h0 h2
      have hne : y ≠ x := by
        rintro rfl
        rw [hx] at hy
        cases hy
        exact he rfl
      exact ⟨y, l, w, pc', by rw [update_of_ne hne, hy]⟩
  · intro y l j hy
    rw [update_apply] at hy
    split at hy
    · rcases hslot with ⟨_, rfl, _⟩ | ⟨rfl, _⟩ <;> cases hy
    · exact hc.probing hy
  · intro y l w g pc' hy
    rw [update_apply] at hy
    split at hy
    · rcases hslot with ⟨_, rfl, hst, hdone⟩ | ⟨rfl, _⟩
      · cases hy
        rw [update_self]
        exact ⟨hlt, hst, hheld, hdone⟩
      · cases hy
    · next hne =>
      have hne' : g ≠ h := fun he => hne (hother (he ▸ hy))
      rw [update_of_ne hne']
      exact hc.writing hy
  · intro y z l l' w w' g p p' hy hz
    have hwrites : ∀ {l w g p}, c = .writes l w g p → g = h := by
      intro l w g p he
      rcases hslot with ⟨_, rfl, _⟩ | ⟨rfl, _⟩ <;> cases he
      rfl
    rw [update_apply] at hy hz
    split at hy
    · next he =>
      split at hz
      · next he' => rw [he, he']
      · cases hwrites hy
        exact he.trans (hother hz).symm
    · split at hz
      · next he =>
        cases hwrites hz
        exact (hother hy).trans he.symm
      · exact hc.apart hy hz

theorem Claims.write (hx : at' x = .writes k v h pc) :
    Claims cap (update t h (pc.step k v (t h)).1)
      (update at' x ((pc.step k v (t h)).2.elim .rests (.writes k v h))) held := by
  obtain ⟨_, h1, _, hdone⟩ := hc.writing hx
  rcases WritePc.step_cases h1 hdone with ⟨pc', hnext, hst, hdone'⟩ | ⟨hnext, hslot⟩
  · exact hc.rewrite hx (.inl ⟨pc', by rw [hnext]; rfl, hst, hdone'⟩)
  · exact hc.rewrite hx (.inr ⟨by rw [hnext]; rfl, hslot⟩)

end

/-- Slots that were published are as they were. -/
def Kept (t t' : Table) : Prop := ∀ h, (t h).st = 2 → t' h = t h

theorem Kept.refl (t : Table) : Kept t t := fun _ _ => rfl

theorem Kept.trans {t t' t'' : Table} (h : Kept t t') (h' : Kept t' t'') : Kept t t'' := by
  intro g h2
  have heq := h g h2
  rw [h' g (by rw [heq, h2]), heq]

theorem kept_update (h2 : (t h).st ≠ 2) : Kept t (update t h slot) := by
  intro g hg
  by_cases he : g = h
  · exact absurd (he ▸ hg) h2
  · rw [update_of_ne he]

/-- A slot that shows a key. -/
def Shows (slot : Slot) (k : Key) : Prop := slot.st = 2 ∧ slot.k0 = k.1 ∧ slot.k1 = k.2

theorem Claims.held_of_shows (hc : Claims cap t at' held) (hs : Shows (t h) k) :
    held h = some k := by
  rw [hc.full h hs.1, hs.2.1, hs.2.2]

/-- A key is shown by one slot. -/
theorem Claims.slot_eq {g : ℕ} (hc : Claims cap t at' held) (hg : Shows (t g) k)
    (hh : Shows (t h) k) : g = h :=
  hc.placed.slot_eq (hc.held_of_shows hg) (hc.held_of_shows hh)

theorem Claims.lt_of_shows (hc : Claims cap t at' held) (hcap : IsCap cap) (hs : Shows (t h) k) :
    h < cap := by
  obtain ⟨i, rfl, _⟩ := hc.placed h k (hc.held_of_shows hs)
  exact hcap.path_lt k i

/-- With no thread at work, a slot that holds a key shows it. -/
theorem Claims.shows_of_held (hc : Claims cap t resting held) (hcap : IsCap cap)
    (hheld : held h = some k) : Shows (t h) k := by
  obtain ⟨i, rfl, _⟩ := hc.placed h k hheld
  have hlt := hcap.path_lt k i
  have h0 : (t (path cap k i)).st ≠ 0 := by
    intro h0
    rw [(hc.free _ hlt).mp h0] at hheld
    cases hheld
  have h2 : (t (path cap k i)).st = 2 := by
    by_contra h2
    obtain ⟨_, _, _, _, hx⟩ := hc.busy _ hlt h0 h2
    cases hx
  have hkey := hc.full _ h2
  rw [hheld, Option.some.injEq] at hkey
  exact ⟨h2, (congrArg Prod.fst hkey).symm, (congrArg Prod.snd hkey).symm⟩

end AxisBridge.Gpu
