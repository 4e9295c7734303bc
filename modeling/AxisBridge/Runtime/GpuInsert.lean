import AxisBridge.Runtime.GpuTable
import Mathlib.Data.List.Nodup

/-! A launch of insert, in any order of its threads' steps: distinct keys go to slots of their
own. -/
namespace AxisBridge.Gpu
open List Function Option

variable {cap x i h : ℕ} {entries : List (Key × UInt32)} {s s' : InsertMemory} {l : InsertThread}
  {pc : InsertPc} {here : ℕ → Option InsertThread} {held : ℕ → Option Key} {k : Key}

def InsertThread.claimer (l : InsertThread) : Claimer :=
  match l.pc with
  | .load _ probes | .claim _ probes => .probes l.key probes
  | .write h pc => .writes l.key l.val h pc
  | .raise _ => .rests

def inserters (here : ℕ → Option InsertThread) (x : ℕ) : Claimer :=
  (here x).elim .rests InsertThread.claimer

theorem inserters_at (hx : here x = some l) : inserters here x = l.claimer := by
  rw [inserters, hx]
  rfl

theorem inserters_update (r : Option InsertThread) : inserters (update here x r) =
      update (inserters here) x (r.elim .rests InsertThread.claimer) := by
  funext y
  by_cases he : y = x
  · subst he
    simp [inserters]
  · simp only [inserters, update_of_ne he]

/-- A thread that looks for a slot has placed its key nowhere. -/
def Places (cap : ℕ) (held : ℕ → Option Key) (l : InsertThread) : Prop :=
  match l.pc with
  | .load h i | .claim h i => path cap l.key i = h ∧ ∀ g, held g ≠ some l.key
  | .write _ _ => True
  | .raise bit => bit = .full

/-- An entry is in its slot, or the table had no slot for it. -/
def Placed (s : InsertMemory) (e : Key × UInt32) : Prop :=
  (∃ h, s.table h = ⟨2, e.1.1, e.1.2, e.2⟩) ∨ s.flag .full = true

structure Inserting (cap : ℕ) (entries : List (Key × UInt32)) (s : InsertMemory)
    (here : ℕ → Option InsertThread) (held : ℕ → Option Key) : Prop where
  claims : Claims cap s.table (inserters here) held
  thread : ∀ {x l}, here x = some l → entries[x]? = some (l.key, l.val) ∧ Places cap held l
  owner : ∀ h k, held h = some k → k ∈ entries.map Prod.fst
  done : ∀ x e, entries[x]? = some e → here x = none → Placed s e

theorem Placed.mono {e : Key × UInt32} (hp : Placed s e) (hkept : Kept s.table s'.table)
    (hflag : s.flag .full = true → s'.flag .full = true) : Placed s' e := by
  rcases hp with ⟨h, hp⟩ | hp
  · exact .inl ⟨h, by rw [hkept h (by rw [hp]), hp]⟩
  · exact .inr (hflag hp)

section
variable (hi : Inserting cap entries s here held) (hx : here x = some l)

include hi hx

/-- The thread goes on with its entry. -/
theorem Inserting.next {held' : ℕ → Option Key}
    (hclaims : Claims cap s'.table
      (update (inserters here) x (InsertThread.claimer { l with pc })) held')
    (hplaces : Places cap held' { l with pc })
    (hothers : ∀ y m, y ≠ x → here y = some m → Places cap held' m)
    (howner : ∀ h k, held' h = some k → k ∈ entries.map Prod.fst) (hkept : Kept s.table s'.table)
    (hflag : s'.flag = s.flag) :
    Inserting cap entries s' (update here x (some { l with pc })) held' := by
  refine ⟨?_, ?_, howner, ?_⟩
  · rw [inserters_update]
    exact hclaims
  · intro y m hy
    rw [update_apply] at hy
    split at hy
    · next he =>
      cases hy
      exact ⟨he ▸ (hi.thread hx).1, hplaces⟩
    · next hne => exact ⟨(hi.thread hy).1, hothers y m hne hy⟩
  · intro y e hy hnone
    rw [update_apply] at hnone
    split at hnone
    · cases hnone
    · exact (hi.done y e hy hnone).mono hkept fun hf => hflag ▸ hf

/-- A slot that is taken holds another key, and is passed. -/
theorem Inserting.pass (hcap : IsCap cap) (hprobes : l.claimer = .probes l.key i)
    (hh : path cap l.key i = h) (habsent : ∀ g, held g ≠ some l.key) (hst : (s.table h).st ≠ 0) :
    Inserting cap entries s
      (update here x (some { l with pc := insertProbed (cap - 1) h i })) held := by
  subst hh
  have hat := (inserters_at hx).trans hprobes
  obtain ⟨y, hy⟩ : ∃ y, held (path cap l.key i) = some y := by
    rw [← Option.ne_none_iff_exists']
    exact fun hnone => hst ((hi.claims.free _ (hcap.path_lt l.key i)).mpr hnone)
  have hne : y ≠ l.key := fun he => habsent _ (he ▸ hy)
  unfold insertProbed
  split
  · refine hi.next hx (hi.claims.leave fun _ _ _ _ he => ?_) rfl
      (fun _ _ _ hm => (hi.thread hm).2) hi.owner (Kept.refl _) rfl
    rw [hat] at he
    cases he
  · exact hi.next hx (hi.claims.look hat hy hne) ⟨(hcap.path_succ l.key i).symm, habsent⟩
      (fun _ _ _ hm => (hi.thread hm).2) hi.owner (Kept.refl _) rfl

theorem Inserting.claim (hcap : IsCap cap) (hnodup : (entries.map Prod.fst).Nodup)
    (hpc : l.pc = .claim h i) (hst : (s.table h).st = 0) :
    Inserting cap entries
      { s with table := update s.table h { s.table h with st := 1 } }
      (update here x (some { l with pc := .write h .key0 }))
      (update held h (some l.key)) := by
  have hprobes : l.claimer = .probes l.key i := by
    rw [InsertThread.claimer, hpc]
  obtain ⟨hentry, hplaces⟩ := hi.thread hx
  rw [Places, hpc] at hplaces
  have hclaims := hi.claims.claim (v := l.val) hcap ((inserters_at hx).trans hprobes) hplaces.1 hst
  refine hi.next hx hclaims trivial (fun y m hne hy => ?_) (fun g k hg => ?_)
    (kept_update (by omega)) rfl
  · obtain ⟨hentry', hplaces'⟩ := hi.thread hy
    -- the keys of two elements differ
    have hkey : m.key ≠ l.key := by
      intro he
      refine hne ?_
      have hlt := (List.getElem?_eq_some_iff.mp hentry').1
      refine (getElem?_inj (by rwa [length_map]) hnodup).mp ?_
      rw [getElem?_map, getElem?_map, hentry, hentry']
      exact congrArg some he
    obtain ⟨key, v, pc⟩ := m
    have habsent : (∀ g, held g ≠ some key) → ∀ g, update held h (some l.key) g ≠ some key := by
      intro ha g hg
      rw [update_apply] at hg
      split at hg
      · exact hkey (some.inj hg).symm
      · exact ha g hg
    cases pc with
    | load g j | claim g j => exact ⟨hplaces'.1, habsent hplaces'.2⟩
    | write g p => trivial
    | raise bit => exact hplaces'
  · rw [update_apply] at hg
    split at hg
    · cases hg
      exact mem_map.mpr ⟨_, mem_of_getElem? hentry, rfl⟩
    · exact hi.owner g k hg

/-- The thread ends its entry. -/
theorem Inserting.finish (hclaims : Claims cap s'.table (update (inserters here) x .rests) held)
    (hkept : Kept s.table s'.table) (hflag : s.flag .full = true → s'.flag .full = true)
    (hplaced : Placed s' (l.key, l.val)) : Inserting cap entries s' (update here x none) held := by
  refine ⟨?_, ?_, hi.owner, ?_⟩
  · rw [inserters_update]
    exact hclaims
  · intro y m hy
    rw [update_apply] at hy
    split at hy
    · cases hy
    · exact hi.thread hy
  · intro y e hy hnone
    rw [update_apply] at hnone
    split at hnone
    · next he =>
      rw [he, (hi.thread hx).1, some.injEq] at hy
      exact hy ▸ hplaced
    · exact (hi.done y e hy hnone).mono hkept hflag

theorem Inserting.step (hcap : IsCap cap) (hnodup : (entries.map Prod.fst).Nodup) :
    ∃ held, Inserting cap entries (insertStep (cap - 1) s l).1
      (update here x (insertStep (cap - 1) s l).2) held := by
  obtain ⟨key, v, pc⟩ := l
  have hplaces := (hi.thread hx).2
  have hat := inserters_at hx
  cases pc with
  | load h i =>
    obtain ⟨hh, habsent⟩ := id hplaces
    simp only [insertStep]
    split
    · refine ⟨held, hi.next hx ?_ ⟨hh, habsent⟩ (fun _ _ _ hm => (hi.thread hm).2) hi.owner
        (Kept.refl _) rfl⟩
      have hsame : update (inserters here) x (.probes key i) = inserters here := by
        rw [← show inserters here x = .probes key i from hat, update_eq_self]
      show Claims cap s.table (update (inserters here) x (.probes key i)) held
      rw [hsame]
      exact hi.claims
    · next h0 => exact ⟨held, hi.pass hx hcap rfl hh habsent h0⟩
  | claim h i =>
    obtain ⟨hh, habsent⟩ := id hplaces
    simp only [insertStep]
    split
    · next h0 => exact ⟨_, hi.claim hx hcap hnodup rfl h0⟩
    · next h0 => exact ⟨held, hi.pass hx hcap rfl hh habsent h0⟩
  | write h pc =>
    obtain ⟨_, h1, _, hdone⟩ := hi.claims.writing hat
    have hclaims := hi.claims.write hat
    have hkept : Kept s.table (update s.table h (pc.step key v (s.table h)).1) :=
      kept_update (by omega)
    refine ⟨held, ?_⟩
    simp only [insertStep]
    rcases WritePc.step_cases h1 hdone with ⟨pc', hnext, _⟩ | ⟨hnext, hslot⟩
    · rw [hnext] at hclaims ⊢
      exact hi.next hx hclaims trivial (fun _ _ _ hm => (hi.thread hm).2) hi.owner hkept rfl
    · rw [hnext] at hclaims ⊢
      refine hi.finish hx hclaims hkept (fun hf => hf) (.inl ⟨h, ?_⟩)
      exact (update_self ..).trans hslot
  | raise bit =>
    have hbit : bit = .full := hplaces
    subst hbit
    refine ⟨held, hi.finish hx (hi.claims.leave fun _ _ _ _ he => ?_) (Kept.refl _)
      (fun _ => s.flag.fetchOr_self .full) (.inr (s.flag.fetchOr_self .full))⟩
    rw [hat] at he
    cases he

end

/-- A launch of insert that raised no flag has each entry in a slot of its own, and nothing else. -/
theorem insert_places {stride : ℕ} (hcap : IsCap cap) (hnodup : (entries.map Prod.fst).Nodup)
    (hstride : 0 < stride)
    (hrun : (p5Insert entries (cap - 1)).Runs stride entries.length ⟨Table.zeros, Flag.clear⟩ s)
    (hfull : s.flag .full = false) :
    ∃ held, Claims cap s.table resting held ∧ (∀ h k, held h = some k → k ∈ entries.map Prod.fst) ∧
      ∀ e ∈ entries, ∃ h, s.table h = ⟨2, e.1.1, e.1.2, e.2⟩ := by
  have hend := hrun.rule (I := fun s here => ∃ held, Inserting cap entries s here held) hstride ?_
    fun ⟨_, hi⟩ hx => hi.step hx hcap hnodup
  · obtain ⟨held, hi⟩ := hend
    refine ⟨held, hi.claims, hi.owner, fun e he => ?_⟩
    obtain ⟨x, hx⟩ := mem_iff_getElem?.mp he
    rcases hi.done x e hx rfl with hplaced | hfull'
    · exact hplaced
    · rw [hfull] at hfull'
      cases hfull'
  · have hat : ∀ {x l}, Kernel.starts (p5Insert entries (cap - 1)) entries.length x = some l →
        entries[x]? = some (l.key, l.val) ∧ l.pc = .load (path cap l.key 0) 0 := by
      intro x l hx
      obtain ⟨hlt, rfl⟩ := Kernel.starts_eq hx
      have hget : entries.getD x ((0, 0), 0) = entries[x] := by
        rw [getD_eq_getElem?_getD, getElem?_eq_getElem hlt, Option.getD_some]
      rw [← hcap.home, getElem?_eq_getElem hlt, ← hget]
      exact ⟨rfl, rfl⟩
    refine ⟨fun _ => none, (Claims.zeros cap).start fun x => ?_, fun {x l} hx => ?_,
      fun h k hk => (by cases hk), fun x e hx hnone => ?_⟩
    · cases hx : Kernel.starts (p5Insert entries (cap - 1)) entries.length x with
      | none => exact .inl (by rw [inserters, hx]; rfl)
      | some l =>
        refine .inr ⟨l.key, ?_⟩
        rw [inserters_at hx, InsertThread.claimer, (hat hx).2]
    · refine ⟨(hat hx).1, ?_⟩
      rw [Places, (hat hx).2]
      exact ⟨rfl, fun _ he => by cases he⟩
    · exact absurd hnone (Kernel.starts_ne_none (List.getElem?_eq_some_iff.mp hx).1)

end AxisBridge.Gpu
