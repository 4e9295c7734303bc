import AxisBridge.Runtime.GpuAnswers
import AxisBridge.Runtime.GpuVectors
import Mathlib.Data.Finset.Card
import Mathlib.Data.Nat.ModEq

/-! Puts into a table of fingerprints, in any order of their steps: each key comes to one slot, and
the slot to the lowest of the ordinals put under it. -/
namespace AxisBridge.Gpu
open Function Option

variable {cap x h i : ℕ} {t t' t'' : VTable} {k : Key} {o : UInt64} {P : Key → UInt64 → Prop}
  {held held' : ℕ → Option Key}

/-- The part of a slot that the memo table has too. -/
def VSlot.shown (slot : VSlot) : Slot := ⟨slot.st, slot.k0, slot.k1, 0⟩

def VTable.keys (t : VTable) : Table := fun h => (t h).shown

theorem keys_update (t : VTable) (h : ℕ) (slot : VSlot) :
    VTable.keys (update t h slot) = update t.keys h slot.shown := by
  funext g
  by_cases he : g = h
  · subst he
    simp [VTable.keys]
  · simp only [VTable.keys, update_of_ne he]

/-- A put that has not returned. -/
structure Putter where
  key : Key
  ord : UInt64
  pc : PutPc

variable {at' : ℕ → Option Putter} {p : Putter} {q : Option Putter}

def Putter.claimer (p : Putter) : Claimer :=
  match p.pc with
  | .load _ i | .claim _ i | .same0 _ i | .same1 _ i => .probes p.key i
  | .write h pc => .writes p.key 0 h pc
  | .min _ => .rests

def putters (at' : ℕ → Option Putter) (x : ℕ) : Claimer := (at' x).elim .rests Putter.claimer

theorem putters_at (hx : at' x = some p) : putters at' x = p.claimer := by
  rw [putters, hx]
  rfl

theorem putters_update (q : Option Putter) : putters (update at' x q) =
      update (putters at') x (q.elim .rests Putter.claimer) := by
  funext y
  by_cases he : y = x
  · subst he
    simp [putters]
  · simp only [putters, update_of_ne he]

/-- What a put knows of the slot it is at. -/
def Putter.Fits (cap : ℕ) (t : VTable) (p : Putter) : Prop :=
  match p.pc with
  | .load h i | .claim h i => path cap p.key i = h
  | .same0 h i => path cap p.key i = h ∧ (t h).st = 2
  | .same1 h i => path cap p.key i = h ∧ (t h).st = 2 ∧ (t h).k0 = p.key.1
  | .min h => Shows (t.keys h) p.key
  | .write h pc => pc = .publish → (t h).ord = p.ord

/-- A table under puts of keys and ordinals with `P`. -/
structure Putting (cap : ℕ) (P : Key → UInt64 → Prop) (t : VTable) (at' : ℕ → Option Putter)
    (held : ℕ → Option Key) : Prop where
  claims : Claims cap t.keys (putters at') held
  fits : ∀ {x p}, at' x = some p → p.Fits cap t ∧ P p.key p.ord
  ord : ∀ h, (t h).st = 2 → P ((t h).k0, (t h).k1) (t h).ord

/-- Slots that were published go on to show their key, with ordinals that only go down. -/
def Lowered (t t' : VTable) : Prop := ∀ h, (t h).st = 2 →
  (t' h).st = 2 ∧ (t' h).k0 = (t h).k0 ∧ (t' h).k1 = (t h).k1 ∧ (t' h).ord ≤ (t h).ord

theorem Lowered.refl (t : VTable) : Lowered t t := fun _ h2 => ⟨h2, rfl, rfl, UInt64.le_refl _⟩

theorem Lowered.trans (h : Lowered t t') (h' : Lowered t' t'') : Lowered t t'' := by
  intro g h2
  obtain ⟨h2', h0, h1, hle⟩ := h g h2
  obtain ⟨h2'', h0', h1', hle'⟩ := h' g h2'
  exact ⟨h2'', h0'.trans h0, h1'.trans h1, UInt64.le_trans hle' hle⟩

theorem lowered_update {slot : VSlot} (h2 : (t h).st ≠ 2) : Lowered t (update t h slot) := by
  intro g hg
  have hne : g ≠ h := fun he => h2 (he ▸ hg)
  rw [update_of_ne hne]
  exact Lowered.refl t g hg

theorem Lowered.shows (h : Lowered t t') {g : ℕ} (hs : Shows (t.keys g) k) :
    Shows (t'.keys g) k := by
  obtain ⟨h2, h0, h1⟩ := hs
  obtain ⟨h2', h0', h1', _⟩ := h g h2
  exact ⟨h2', h0'.trans h0, h1'.trans h1⟩

/-- A slot shows the key under an ordinal that is not above `o`. -/
def HasPut (t : VTable) (k : Key) (o : UInt64) : Prop := ∃ h, Shows (t.keys h) k ∧ (t h).ord ≤ o

theorem HasPut.mono (hp : HasPut t k o) (hlow : Lowered t t') : HasPut t' k o := by
  obtain ⟨h, hs, hle⟩ := hp
  exact ⟨h, hlow.shows hs, UInt64.le_trans (hlow h hs.1).2.2.2 hle⟩

theorem Putter.Fits.mono (hf : p.Fits cap t) (hlow : Lowered t t')
    (hown : ∀ h pc, p.pc = .write h pc → t' h = t h) : p.Fits cap t' := by
  obtain ⟨key, ord, pc⟩ := p
  cases pc with
  | load h i => exact hf
  | claim h i => exact hf
  | write h pc =>
    intro hpc
    have heq : t' h = t h := hown h pc rfl
    exact (congrArg VSlot.ord heq).trans (hf hpc)
  | same0 h i => exact ⟨hf.1, (hlow h hf.2).1⟩
  | same1 h i =>
    obtain ⟨hpath, h2, h0⟩ := hf
    exact ⟨hpath, (hlow h h2).1, (hlow h h2).2.1.trans h0⟩
  | min h => exact hlow.shows hf

/-- What is known when `vput` has returned. -/
def Putter.Done (cap : ℕ) (t : VTable) (held : ℕ → Option Key) (p : Putter) : PutEnd → Prop
  | .slot _ => HasPut t p.key p.ord
  | .full => Passed (path cap) held p.key cap
  | .retry => True

/-- A put after one of its steps. -/
def Putter.next (p : Putter) (r : PutPc ⊕ PutEnd) : Option Putter :=
  r.elim (fun pc => some { p with pc }) fun _ => none

/-- What a step of a put leaves. -/
def Goes (cap : ℕ) (P : Key → UInt64 → Prop) (t : VTable) (at' : ℕ → Option Putter) (x : ℕ)
    (p : Putter) (r : VTable × (PutPc ⊕ PutEnd)) : Prop :=
  Lowered t r.1 ∧ ∃ held, Putting cap P r.1 (update at' x (p.next r.2)) held ∧
    ∀ e, r.2 = .inr e → p.Done cap r.1 held e

theorem put_shown (pc : WritePc) (key : Key) (o : UInt64) (slot : VSlot) :
    (pc.put key o slot).1.shown = (pc.step key 0 slot.shown).1 ∧
      (pc.put key o slot).2 = (pc.step key 0 slot.shown).2 := by
  cases pc <;> exact ⟨rfl, rfl⟩

section
variable (hp : Putting cap P t at' held)

include hp

/-- One put goes on, and the slots of the others that write are left alone. -/
theorem Putting.change
    (hclaims : Claims cap t'.keys (update (putters at') x (q.elim .rests Putter.claimer)) held')
    (hlow : Lowered t t')
    (hothers : ∀ y p h pc, y ≠ x → at' y = some p → p.pc = .write h pc → t' h = t h)
    (hord : ∀ h, (t' h).st = 2 → P ((t' h).k0, (t' h).k1) (t' h).ord)
    (hq : ∀ p, q = some p → p.Fits cap t' ∧ P p.key p.ord) :
    Putting cap P t' (update at' x q) held' := by
  refine ⟨?_, fun {y p} hy => ?_, hord⟩
  · rw [putters_update]
    exact hclaims
  · rw [update_apply] at hy
    split at hy
    · exact hq p hy
    · next hne =>
      obtain ⟨hfits, hP⟩ := hp.fits hy
      exact ⟨hfits.mono hlow fun h pc => hothers y p h pc hne hy, hP⟩

/-- One put goes on and leaves the table as it is. -/
theorem Putting.move
    (hclaims : Claims cap t.keys (update (putters at') x (q.elim .rests Putter.claimer)) held)
    (hq : ∀ p, q = some p → p.Fits cap t ∧ P p.key p.ord) : Putting cap P t (update at' x q) held :=
  hp.change hclaims (.refl t) (fun _ _ _ _ _ _ _ => rfl) hp.ord hq

theorem Putting.leave (hx : at' x = some p) (hpc : ∀ h pc, p.pc ≠ .write h pc) :
    Putting cap P t (update at' x none) held := by
  refine hp.move (hp.claims.leave fun k v h pc he => ?_) nofun
  rw [putters_at hx, Putter.claimer] at he
  split at he
  · cases he
  · cases he
  · cases he
  · cases he
  · next g pc' hpc' => exact hpc g pc' hpc'
  · cases he

/-- A put starts at the first slot of its key. -/
theorem Putting.enter (hx : at' x = none) (hpc : p.pc = .load (path cap p.key 0) 0)
    (hP : P p.key p.ord) : Putting cap P t (update at' x (some p)) held := by
  have hclaimer : p.claimer = .probes p.key 0 := by
    rw [Putter.claimer, hpc]
  have hrests : putters at' x = .rests := by
    rw [putters, hx]
    rfl
  refine hp.move (hp.claims.move (fun k v g pc he => ?_) (fun k v g pc he => ?_) fun k j he => ?_)
    fun p' he => ?_
  · rw [hrests] at he
    cases he
  · rw [elim_some, hclaimer] at he
    cases he
  · rw [elim_some, hclaimer] at he
    cases he
    exact .zero p.key
  · cases he
    refine ⟨?_, hP⟩
    rw [Putter.Fits, hpc]

/-- A put stays at its place of the path. -/
theorem Putting.stay (hx : at' x = some p) {pc : PutPc}
    (hclaimer : Putter.claimer { p with pc } = p.claimer)
    (hfits : Putter.Fits cap t { p with pc }) :
    Putting cap P t (update at' x (some { p with pc })) held := by
  refine hp.move ?_ fun p' he => ?_
  · have hsame : update (putters at') x (Putter.claimer { p with pc }) = putters at' := by
      rw [hclaimer, ← putters_at hx, update_eq_self]
    exact hsame.symm ▸ hp.claims
  · cases he
    exact ⟨hfits, (hp.fits hx).2⟩

/-- A slot that shows another key is passed. -/
theorem Putting.probed (hcap : IsCap cap) (hx : at' x = some p)
    (hprobes : p.claimer = .probes p.key i) (hpath : path cap p.key i = h) (h2 : (t h).st = 2)
    (hne : ((t h).k0, (t h).k1) ≠ p.key) : Goes cap P t at' x p (t, putProbed (cap - 1) h i) := by
  have hat : putters at' x = .probes p.key i := (putters_at hx).trans hprobes
  have hother : held (path cap p.key i) = some ((t h).k0, (t h).k1) := hpath ▸ hp.claims.full h h2
  have hlook := hp.claims.look hat hother hne
  refine ⟨.refl t, held, ?_⟩
  unfold putProbed
  split
  · next hlt =>
    refine ⟨hp.leave hx fun g pc he => ?_, fun e he => ?_⟩
    · rw [Putter.claimer, he] at hprobes
      cases hprobes
    · cases he
      have hpassed := hlook.probing (update_self ..)
      exact fun j hj => hpassed j (by omega)
  · refine ⟨hp.move hlook fun p' he => ?_, fun e he => by cases he⟩
    cases he
    refine ⟨?_, (hp.fits hx).2⟩
    show path cap p.key (i + 1) = (h + 1) &&& (cap - 1)
    rw [← hpath, hcap.path_succ]

/-- The slots that are shown, when one of them changes. -/
theorem Putting.ord_update {slot : VSlot} (hown : slot.st = 2 → P (slot.k0, slot.k1) slot.ord)
    (g : ℕ) (h2 : (update t h slot g).st = 2) :
    P ((update t h slot g).k0, (update t h slot g).k1) (update t h slot g).ord := by
  by_cases he : g = h
  · subst he
    rw [update_self] at h2 ⊢
    exact hown h2
  · rw [update_of_ne he] at h2 ⊢
    exact hp.ord g h2

/-- A slot in no writer's state is no put's to write. -/
theorem Putting.unwritten (hst : (t h).st ≠ 1) {y g : ℕ} {pc : WritePc} (hy : at' y = some p)
    (hpc : p.pc = .write g pc) : g ≠ h := by
  rintro rfl
  have hy' : putters at' y = .writes p.key 0 g pc := by
    rw [putters_at hy, Putter.claimer, hpc]
  exact hst (hp.claims.writing hy').2.1

/-- The writer of a slot goes on. -/
theorem Putting.write {key : Key} {pc : WritePc} (hx : at' x = some ⟨key, o, .write h pc⟩) :
    Goes cap P t at' x ⟨key, o, .write h pc⟩ (putStep (cap - 1) key o t (.write h pc)) := by
  obtain ⟨hfits, hP⟩ := hp.fits hx
  have hat : putters at' x = .writes key 0 h pc := putters_at hx
  obtain ⟨_, h1, _, hdone⟩ := hp.claims.writing hat
  have h1' : (t h).st = 1 := h1
  have hclaims := hp.claims.write hat
  have hshown : VTable.keys (update t h (pc.put key o (t h)).1) =
      update t.keys h (pc.step key 0 (t.keys h)).1 := by
    rw [keys_update, (put_shown pc key o (t h)).1]
    rfl
  have hlow : Lowered t (update t h (pc.put key o (t h)).1) := lowered_update (by omega)
  have hothers : ∀ y p g pc', y ≠ x → at' y = some p → p.pc = .write g pc' →
      update t h (pc.put key o (t h)).1 g = t g := by
    intro y p g pc' hne hy hpc
    refine update_of_ne (fun he => hne ?_) ..
    have hy' : putters at' y = .writes p.key 0 g pc' := by
      rw [putters_at hy, Putter.claimer, hpc]
    exact hp.claims.apart (he ▸ hy') hat
  rw [← hshown] at hclaims
  refine ⟨hlow, held, ?_⟩
  cases pc with
  | key0 | key1 =>
    refine ⟨hp.change hclaims hlow hothers (hp.ord_update fun h2' => ?_) fun p' he => ?_,
      fun e he => by cases he⟩
    · exact absurd (h1'.symm.trans h2') (by decide)
    · cases he
      exact ⟨nofun, hP⟩
  | val =>
    refine ⟨hp.change hclaims hlow hothers (hp.ord_update fun h2' => ?_) fun p' he => ?_,
      fun e he => by cases he⟩
    · exact absurd (h1'.symm.trans h2') (by decide)
    · cases he
      refine ⟨fun _ => ?_, hP⟩
      show (update t h { t h with ord := o } h).ord = o
      rw [update_self]
  | publish =>
    obtain ⟨h0, h1, _⟩ := hdone
    have hk0 : (t h).k0 = key.1 := h0
    have hk1 : (t h).k1 = key.2 := h1
    have ho : (t h).ord = o := hfits rfl
    refine ⟨hp.change hclaims hlow hothers (hp.ord_update fun _ => ?_) nofun, fun e he => ?_⟩
    · show P ((t h).k0, (t h).k1) (t h).ord
      rw [hk0, hk1, ho]
      exact hP
    · cases he
      refine ⟨h, ?_, ?_⟩
      · show Shows (VTable.keys (update t h (WritePc.put key o .publish (t h)).1) h) key
        rw [hshown, update_self]
        exact ⟨rfl, h0, h1⟩
      · show (update t h _ h).ord ≤ o
        rw [update_self]
        exact UInt64.le_of_eq ho

/-- The compare-exchange of a put on a free slot. -/
theorem Putting.claim (hcap : IsCap cap) {key : Key} (hx : at' x = some ⟨key, o, .claim h i⟩)
    (hst : (t h).st = 0) :
    Goes cap P t at' x ⟨key, o, .claim h i⟩
      (update t h { t h with st := 1 }, .inl (.write h .key0)) := by
  obtain ⟨hpath, hP⟩ := hp.fits hx
  have hclaims := hp.claims.claim (v := 0) hcap (putters_at hx) hpath hst
  have hlow : Lowered t (update t h { t h with st := 1 }) := lowered_update (by omega)
  refine ⟨hlow, update held h (some key),
    hp.change (q := some ⟨key, o, .write h .key0⟩) ?_ hlow ?_ ?_ ?_, fun e he => by cases he⟩
  · rw [keys_update]
    exact hclaims
  · intro y p g pc _ hy hpc
    exact update_of_ne (hp.unwritten (by omega) hy hpc) ..
  · exact hp.ord_update fun h2 => absurd (show 1 = 2 from h2) (by decide)
  · intro p' he
    cases he
    exact ⟨nofun, hP⟩

/-- The minimum on a slot that shows the key of the put. -/
theorem Putting.min {key : Key} (hx : at' x = some ⟨key, o, .min h⟩) :
    Goes cap P t at' x ⟨key, o, .min h⟩ (putStep (cap - 1) key o t (.min h)) := by
  obtain ⟨hshows, hP⟩ := hp.fits hx
  have h2 : (t h).st = 2 := hshows.1
  have hk0 : (t h).k0 = key.1 := hshows.2.1
  have hk1 : (t h).k1 = key.2 := hshows.2.2
  -- the ordinal the slot has then
  obtain ⟨n, hn, hnP, hno, hnt⟩ : ∃ n, (if o < (t h).ord then o else (t h).ord) = n ∧ P key n ∧
      n ≤ o ∧ n ≤ (t h).ord := by
    split
    · next hlt => exact ⟨o, rfl, hP, UInt64.le_refl o, UInt64.le_of_lt hlt⟩
    · next hle =>
      refine ⟨(t h).ord, rfl, ?_, UInt64.not_lt.mp hle, UInt64.le_refl _⟩
      have := hp.ord h h2
      rwa [hk0, hk1] at this
  have hkeys : VTable.keys (update t h { t h with ord := n }) = t.keys := by
    rw [keys_update]
    exact update_eq_self h t.keys
  have hlow : Lowered t (update t h { t h with ord := n }) := by
    intro g hg
    by_cases he : g = h
    · subst he
      rw [update_self]
      exact ⟨hg, rfl, rfl, hnt⟩
    · rw [update_of_ne he]
      exact Lowered.refl t g hg
  simp only [putStep, hn]
  refine ⟨hlow, held, hp.change (q := none) ?_ hlow ?_ ?_ nofun, fun e he => ?_⟩
  · rw [hkeys]
    refine hp.claims.leave fun k v g pc he => ?_
    rw [putters_at hx] at he
    cases he
  · intro y p g pc _ hy hpc
    exact update_of_ne (hp.unwritten (by omega) hy hpc) ..
  · refine hp.ord_update fun _ => ?_
    show P ((t h).k0, (t h).k1) n
    rw [hk0, hk1]
    exact hnP
  · cases he
    refine ⟨h, hkeys.symm ▸ hshows, ?_⟩
    show (update t h _ h).ord ≤ o
    rw [update_self]
    exact hno

/-- A step of a put. -/
theorem Putting.step (hcap : IsCap cap) (hx : at' x = some p) :
    Goes cap P t at' x p (putStep (cap - 1) p.key p.ord t p.pc) := by
  have hfits := (hp.fits hx).1
  obtain ⟨key, o, pc⟩ := p
  cases pc with
  | load h i =>
    have hpath : path cap key i = h := hfits
    have hlt : h < cap := hpath ▸ hcap.path_lt key i
    simp only [putStep]
    split
    · exact ⟨.refl t, held, hp.stay hx rfl hpath, fun e he => by cases he⟩
    · next h0 =>
      split
      · refine ⟨.refl t, held, hp.leave hx nofun, fun e he => ?_⟩
        cases he
        trivial
      · next h1 =>
        refine ⟨.refl t, held, hp.stay hx rfl ⟨hpath, ?_⟩, fun e he => by cases he⟩
        by_contra h2
        obtain ⟨_, _, _, _, hy⟩ := hp.claims.busy h hlt h0 h2
        exact h1 (hp.claims.writing hy).2.1
  | claim h i =>
    simp only [putStep]
    split
    · next h0 => exact hp.claim hcap hx h0
    · refine ⟨.refl t, held, hp.leave hx nofun, fun e he => ?_⟩
      cases he
      trivial
  | write h pc => exact hp.write hx
  | same0 h i =>
    obtain ⟨hpath, h2⟩ := hfits
    simp only [putStep]
    split
    · next h0 => exact ⟨.refl t, held, hp.stay hx rfl ⟨hpath, h2, h0⟩, fun e he => by cases he⟩
    · next h0 =>
      exact hp.probed hcap hx rfl hpath h2 fun he => h0 (congrArg Prod.fst he)
  | same1 h i =>
    obtain ⟨hpath, h2, h0⟩ := hfits
    simp only [putStep]
    split
    · next h1 =>
      refine ⟨.refl t, held, hp.move (hp.claims.leave fun k v g pc he => ?_) fun p' he => ?_,
        fun e he => by cases he⟩
      · rw [putters_at hx] at he
        cases he
      · cases he
        exact ⟨⟨h2, h0, h1⟩, (hp.fits hx).2⟩
    · next h1 =>
      exact hp.probed hcap hx rfl hpath h2 fun he => h1 (congrArg Prod.snd he)
  | min h => exact hp.min hx

end

/-- No put is under way. -/
def noPutter : ℕ → Option Putter := fun _ => none

theorem Putting.zeros (cap : ℕ) (P : Key → UInt64 → Prop) :
    Putting cap P VTable.zeros noPutter fun _ => none :=
  ⟨Claims.zeros cap, nofun, fun _ h2 => absurd (show 0 = 2 from h2) (by decide)⟩

/-- Puts start on a table at rest, each at the first slot of its key. -/
theorem Putting.start (hp : Putting cap P t noPutter held)
    (hat : ∀ x p, at' x = some p → p.pc = .load (path cap p.key 0) 0 ∧ P p.key p.ord) :
    Putting cap P t at' held := by
  refine ⟨hp.claims.start fun x => ?_, fun {x p} hx => ?_, hp.ord⟩
  · cases hx : at' x with
    | none => exact .inl (by rw [putters, hx]; rfl)
    | some p =>
      refine .inr ⟨p.key, ?_⟩
      rw [putters_at hx, Putter.claimer, (hat x p hx).1]
  · obtain ⟨hpc, hP⟩ := hat x p hx
    refine ⟨?_, hP⟩
    rw [Putter.Fits, hpc]

/-- The key in a slot is one that is put. -/
theorem Putting.exists_ord (hp : Putting cap P t at' held) (hcap : IsCap cap)
    (hheld : held h = some k) : ∃ o, P k o := by
  obtain ⟨i, rfl, _⟩ := hp.claims.placed h k hheld
  have hlt := hcap.path_lt k i
  generalize path cap k i = g at hheld hlt
  have h0 : (t g).st ≠ 0 := by
    intro h0
    rw [(hp.claims.free _ hlt).mp h0] at hheld
    cases hheld
  by_cases h2 : (t g).st = 2
  · have hkey : held g = some ((t g).k0, (t g).k1) := hp.claims.full g h2
    rw [hheld, some.injEq] at hkey
    refine ⟨(t g).ord, ?_⟩
    rw [hkey]
    exact hp.ord g h2
  · obtain ⟨y, k', v, pc, hy⟩ := hp.claims.busy _ hlt h0 h2
    have hk := (hp.claims.writing hy).2.2.1
    rw [hheld, some.injEq] at hk
    cases hy' : at' y with
    | none =>
      rw [putters, hy'] at hy
      cases hy
    | some p =>
      rw [putters_at hy', Putter.claimer] at hy
      split at hy <;> cases hy
      exact ⟨p.ord, hk ▸ (hp.fits hy').2⟩

/-- A table with more slots than keys are put is never full. -/
theorem Putting.not_full (hp : Putting cap P t at' held) (hcap : IsCap cap) {ks : List Key}
    (hks : ∀ k o, P k o → k ∈ ks) (hlt : ks.length < cap) : ¬ Passed (path cap) held k cap := by
  intro hpassed
  choose! y hy _ using hpassed
  have hinj : Set.InjOn y (Finset.range cap) := by
    intro i hi j hj he
    have hi' := Finset.mem_range.mp hi
    have hj' := Finset.mem_range.mp hj
    have hslot := hp.claims.placed.slot_eq (hy i hi') (he ▸ hy j hj')
    simp only [path] at hslot
    have hmod : Nat.ModEq cap i j := Nat.ModEq.add_left_cancel' _ hslot
    rwa [Nat.ModEq, Nat.mod_eq_of_lt hi', Nat.mod_eq_of_lt hj'] at hmod
  have hmaps : ∀ i ∈ Finset.range cap, y i ∈ ks.toFinset := by
    intro i hi
    obtain ⟨o, ho⟩ := hp.exists_ord hcap (hy i (Finset.mem_range.mp hi))
    exact List.mem_toFinset.mpr (hks _ o ho)
  have hcard := Finset.card_le_card_of_injOn y hmaps hinj
  rw [Finset.card_range] at hcard
  have := ks.toFinset_card_le
  omega

/-- What is found in a table at rest. -/
theorem vfindFrom_eq_some_iff (hc : Claims cap t.keys resting held) (hcap : IsCap cap) (fuel : ℕ)
    (hfuel : fuel + i = cap) (hpassed : Passed (path cap) held k i) :
    vfindFrom t (cap - 1) k fuel (path cap k i) = some h ↔ Shows (t.keys h) k := by
  induction fuel generalizing i with
  | zero =>
    refine ⟨nofun, fun hs => ?_⟩
    have := hc.passed_lt hcap hs hpassed
    omega
  | succ fuel ih =>
    have hlt := hcap.path_lt k i
    rw [vfindFrom]
    split
    · next h0 =>
      refine ⟨nofun, fun hs => ?_⟩
      exact absurd (hc.held_of_shows hs) (hc.placed.absent hpassed ((hc.free _ hlt).mp h0) h)
    · next h0 =>
      have h2 : (t (path cap k i)).st = 2 := by
        by_contra h2
        obtain ⟨_, _, _, _, hy⟩ := hc.busy _ hlt h0 h2
        cases hy
      split
      · next hkey =>
        have hs : Shows (t.keys (path cap k i)) k := ⟨h2, hkey.1, hkey.2⟩
        constructor
        · intro he
          cases he
          exact hs
        · exact fun hs' => congrArg some (hc.slot_eq hs hs')
      · next hkey =>
        rw [hcap.path_succ]
        refine ih (by omega) (hpassed.succ (hc.full _ h2) fun he => hkey ?_)
        exact ⟨congrArg Prod.fst he, congrArg Prod.snd he⟩

theorem vfind_eq_some_iff (hc : Claims cap t.keys resting held) (hcap : IsCap cap) :
    vfind t (cap - 1) k = some h ↔ Shows (t.keys h) k := by
  rw [vfind, hcap.home]
  refine vfindFrom_eq_some_iff hc hcap _ ?_ (.zero k)
  have := hcap.pos
  omega

theorem vfind_eq_none_iff (hc : Claims cap t.keys resting held) (hcap : IsCap cap) :
    vfind t (cap - 1) k = none ↔ ∀ h, ¬ Shows (t.keys h) k := by
  rw [eq_none_iff_forall_ne_some]
  exact forall_congr' fun h => not_congr (vfind_eq_some_iff hc hcap)

end AxisBridge.Gpu
