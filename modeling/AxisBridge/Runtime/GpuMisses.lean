import AxisBridge.Runtime.GpuTable
import Mathlib.Data.Finset.Card

/-! The list of misses while the threads of a launch claim, count and list slots. -/
namespace AxisBridge.Gpu
open List Function Option

variable {cap x i h : ℕ} {A P : Key → Prop} {s s' : Memory} {l l' : DiscoverThread}
  {here : ℕ → Option DiscoverThread} {held : ℕ → Option Key} {listed listed' : List ℕ} {k : Key}

def DiscoverThread.claimer (l : DiscoverThread) : Claimer :=
  match l.pc with
  | .load _ probes | .claim _ probes | .same0 _ probes | .same1 _ probes => .probes l.key probes
  | .write h pc => .writes l.key pending h pc
  | .count _ | .list _ _ | .list0 _ _ | .list1 _ _ | .raise _ => .rests

def claimers (here : ℕ → Option DiscoverThread) (x : ℕ) : Claimer :=
  (here x).elim .rests DiscoverThread.claimer

theorem claimers_at (hx : here x = some l) : claimers here x = l.claimer := by
  rw [claimers, hx]
  rfl

theorem claimers_update (r : Option DiscoverThread) : claimers (update here x r) =
      update (claimers here) x (r.elim .rests DiscoverThread.claimer) := by
  funext y
  by_cases he : y = x
  · subst he
    simp [claimers]
  · simp only [claimers, update_of_ne he]

/-- The place in the list of misses that a thread is writing. -/
def DiscoverPc.index : DiscoverPc → Option ℕ
  | .list _ i | .list0 _ i | .list1 _ i => some i
  | _ => none

/-- A thread that is neither counting a slot nor listing one. -/
def DiscoverPc.Quiet (pc : DiscoverPc) : Prop := (∀ h, pc ≠ .count h) ∧ pc.index = none

theorem quiet_of_claimer (h : l.claimer ≠ .rests) : l.pc.Quiet := by
  obtain ⟨key, pc⟩ := l
  cases pc with
  | count | list | list0 | list1 | raise => exact absurd rfl h
  | load | claim | write | same0 | same1 => exact ⟨fun _ he => (by cases he), rfl⟩

/-- What a thread knows where it stands; `A` are the answered keys, `P` those that are looked
for. -/
def Knows (cap : ℕ) (A P : Key → Prop) (s : Memory) (listed : List ℕ) (l : DiscoverThread) : Prop :=
  P l.key ∧ match l.pc with
  | .load h i | .claim h i => path cap l.key i = h
  | .write _ _ => cap < 2 ^ 32 ∧ ¬ A l.key
  | .count h => cap < 2 ^ 32 ∧ ¬ A l.key ∧ h < cap ∧ Shows (s.table h) l.key ∧ h ∉ listed
  | .list h i => listed[i]? = some h ∧ Shows (s.table h) l.key
  | .list0 h i => listed[i]? = some h ∧ Shows (s.table h) l.key ∧ s.miss i = UInt32.ofNat h
  | .list1 h i =>
    listed[i]? = some h ∧ Shows (s.table h) l.key ∧ s.miss i = UInt32.ofNat h ∧ s.missk0 i = l.key.1
  | .same0 h i => path cap l.key i = h ∧ (s.table h).st = 2
  | .same1 h i => path cap l.key i = h ∧ (s.table h).st = 2 ∧ (s.table h).k0 = l.key.1
  | .raise bit => bit = .rerun ∨ bit = .full

/-- Place `i` of the list of misses is written, for slot `h`. -/
def Entry (s : Memory) (i h : ℕ) : Prop :=
  s.miss i = UInt32.ofNat h ∧ s.missk0 i = (s.table h).k0 ∧ s.missk1 i = (s.table h).k1

/-- The list of misses has every slot with a key that is not answered, but for those whose threads
are about to count them. -/
structure Listing (cap : ℕ) (A P : Key → Prop) (s : Memory) (here : ℕ → Option DiscoverThread)
    (listed : List ℕ) : Prop where
  knows : ∀ {x l}, here x = some l → Knows cap A P s listed l
  count : s.nmiss = listed.length
  nodup : listed.Nodup
  small : listed ≠ [] → cap < 2 ^ 32
  new : ∀ h ∈ listed, h < cap ∧ ∃ k, Shows (s.table h) k ∧ ¬ A k
  covered : ∀ h k, Shows (s.table h) k → ¬ A k →
    h ∈ listed ∨ ∃ x l, here x = some l ∧ l.pc = .count h
  entry : ∀ i h, listed[i]? = some h →
    Entry s i h ∨ ∃ x l, here x = some l ∧ l.pc.index = some i
  apart : ∀ {x y l l' h}, here x = some l → here y = some l' → l.pc = .count h → l'.pc = .count h →
    x = y
  apartIndex : ∀ {x y l l' i}, here x = some l → here y = some l' → l.pc.index = some i →
    l'.pc.index = some i → x = y

theorem Shows.kept {t t' : Table} (hs : Shows (t h) k) (hkept : Kept t t') : Shows (t' h) k := by
  rw [hkept h hs.1]
  exact hs

/-- What a thread knows is left by a step of another. -/
theorem Knows.frame (hl : Knows cap A P s listed l) (hkept : Kept s.table s'.table)
    (hlisted : listed <+: listed') (hcount : ∀ h, l.pc = .count h → h ∉ listed → h ∉ listed')
    (hindex : ∀ i, l.pc.index = some i → s'.miss i = s.miss i ∧ s'.missk0 i = s.missk0 i) :
    Knows cap A P s' listed' l := by
  have hget : ∀ {i h : ℕ}, listed[i]? = some h → listed'[i]? = some h := by
    intro i h hi
    obtain ⟨rest, rfl⟩ := hlisted
    rw [List.getElem?_append_left (List.getElem?_eq_some_iff.mp hi).1, hi]
  obtain ⟨hP, hl⟩ := hl
  refine ⟨hP, ?_⟩
  obtain ⟨key, pc⟩ := l
  cases pc with
  | load h i | claim h i | write h pc | raise bit => exact hl
  | count h =>
    obtain ⟨hcap, hA, hlt, hs, hnot⟩ := hl
    exact ⟨hcap, hA, hlt, hs.kept hkept, hcount h rfl hnot⟩
  | list h i => exact ⟨hget hl.1, hl.2.kept hkept⟩
  | list0 h i =>
    obtain ⟨hi, hs, hmiss⟩ := hl
    exact ⟨hget hi, hs.kept hkept, (hindex i rfl).1.trans hmiss⟩
  | list1 h i =>
    obtain ⟨hi, hs, hmiss, hmiss0⟩ := hl
    exact ⟨hget hi, hs.kept hkept, (hindex i rfl).1.trans hmiss, (hindex i rfl).2.trans hmiss0⟩
  | same0 h i =>
    obtain ⟨hh, h2⟩ := hl
    exact ⟨hh, by rw [hkept h h2, h2]⟩
  | same1 h i =>
    obtain ⟨hh, h2, h0⟩ := hl
    exact ⟨hh, by rw [hkept h h2, h2], by rw [hkept h h2, h0]⟩

theorem Entry.kept (he : Entry s i h) (hs : Shows (s.table h) k) (hkept : Kept s.table s'.table)
    (hmiss : s'.miss i = s.miss i) (h0 : s'.missk0 i = s.missk0 i) (h1 : s'.missk1 i = s.missk1 i) :
    Entry s' i h := by
  rw [Entry, hmiss, h0, h1, hkept h hs.1]
  exact he

/-- A thread that counts a slot or writes a place is not one that does neither. -/
theorem Quiet.ne {y : ℕ} {m : DiscoverThread} (hx : here x = some l) (hold : l.pc.Quiet)
    (hy : here y = some m) (hpc : m.pc = .count h ∨ m.pc.index = some i) : y ≠ x := by
  rintro rfl
  rw [hx, some.injEq] at hy
  subst hy
  rcases hpc with hpc | hpc
  · exact hold.1 h hpc
  · rw [hold.2] at hpc
    cases hpc

theorem Listing.length_lt (hl : Listing cap A P s here listed) (hh : h < cap) (hnot : h ∉ listed) :
    listed.length < cap := by
  have hnodup : (h :: listed).Nodup := nodup_cons.mpr ⟨hnot, hl.nodup⟩
  have hsub : (h :: listed).toFinset ⊆ Finset.range cap := by
    intro g hg
    rw [List.mem_toFinset, mem_cons] at hg
    rw [Finset.mem_range]
    rcases hg with rfl | hg
    · exact hh
    · exact (hl.new g hg).1
  have hcard := Finset.card_le_card hsub
  rw [toFinset_card_of_nodup hnodup, Finset.card_range] at hcard
  exact hcard

variable (hl : Listing cap A P s here listed) (hx : here x = some l)

include hl hx

variable {r : Option DiscoverThread}

/-- A step that writes no place of the list, of a thread that counts a slot at most if the step
shows it. -/
theorem Listing.replace (hold : l.pc.Quiet)
    (hnew : ∀ l', r = some l' → Knows cap A P s' listed l' ∧ l'.pc.index = none)
    (hmisses : s'.toMisses = s.toMisses) (hkept : Kept s.table s'.table)
    (hfresh : ∀ l' h, r = some l' → l'.pc = .count h → (s.table h).st ≠ 2)
    (hshows : ∀ h, (s'.table h).st = 2 → (s.table h).st = 2 ∨
      ∃ l', r = some l' ∧ l'.pc = .count h) : Listing cap A P s' (update here x r) listed := by
  have hmiss : ∀ i, s'.miss i = s.miss i := fun i => by rw [hmisses]
  have hmiss0 : ∀ i, s'.missk0 i = s.missk0 i := fun i => by rw [hmisses]
  have hmiss1 : ∀ i, s'.missk1 i = s.missk1 i := fun i => by rw [hmisses]
  -- a thread that counts a slot shows its key already
  have hcounting :
      ∀ {y m h}, here y = some m → m.pc = .count h → ¬ ∃ l', r = some l' ∧ l'.pc = .count h := by
    rintro y m h hy hpc ⟨l', hr, hl'⟩
    have hknows := (hl.knows hy).2
    rw [hpc] at hknows
    exact hfresh l' h hr hl' hknows.2.2.2.1.1
  refine ⟨?_, ?_, hl.nodup, hl.small, ?_, ?_, ?_, ?_, ?_⟩
  · intro y m hy
    rw [update_apply] at hy
    split at hy
    · exact (hnew m hy).1
    · exact (hl.knows hy).frame hkept (prefix_refl listed) (fun _ _ hh => hh)
        fun i _ => ⟨hmiss i, hmiss0 i⟩
  · rw [hmisses]
    exact hl.count
  · intro h hh
    obtain ⟨hlt, k, hs, hA⟩ := hl.new h hh
    exact ⟨hlt, k, hs.kept hkept, hA⟩
  · intro h k hs hA
    rcases hshows h hs.1 with hst | ⟨l', hr, hpc⟩
    · rw [hkept h hst] at hs
      rcases hl.covered h k hs hA with hmem | ⟨y, m, hy, hpc⟩
      · exact .inl hmem
      · have hne := Quiet.ne (i := 0) hx hold hy (.inl hpc)
        exact .inr ⟨y, m, by rw [update_of_ne hne, hy], hpc⟩
    · exact .inr ⟨x, l', by rw [update_self, hr], hpc⟩
  · intro i h hi
    obtain ⟨_, k, hs, _⟩ := hl.new h (mem_of_getElem? hi)
    rcases hl.entry i h hi with he | ⟨y, m, hy, hpc⟩
    · exact .inl (he.kept hs hkept (hmiss i) (hmiss0 i) (hmiss1 i))
    · have hne := Quiet.ne (h := 0) hx hold hy (.inr hpc)
      exact .inr ⟨y, m, by rw [update_of_ne hne, hy], hpc⟩
  · intro y z m m' h hy hz hm hm'
    rw [update_apply] at hy hz
    split at hy
    · split at hz
      · next he he' => rw [he, he']
      · exact absurd ⟨m, hy, hm⟩ (hcounting hz hm')
    · split at hz
      · exact absurd ⟨m', hz, hm'⟩ (hcounting hy hm)
      · exact hl.apart hy hz hm hm'
  · intro y z m m' i hy hz hm hm'
    rw [update_apply] at hy hz
    split at hy
    · rw [(hnew m hy).2] at hm
      cases hm
    · split at hz
      · rw [(hnew m' hz).2] at hm'
        cases hm'
      · exact hl.apartIndex hy hz hm hm'

/-- A step that shows no other slot and writes no place of the list. -/
theorem Listing.quiet (hold : l.pc.Quiet)
    (hnew : ∀ l', r = some l' → Knows cap A P s' listed l' ∧ l'.pc.Quiet)
    (hmisses : s'.toMisses = s.toMisses) (hkept : Kept s.table s'.table)
    (hshows : ∀ h, (s'.table h).st = 2 → (s.table h).st = 2) :
    Listing cap A P s' (update here x r) listed :=
  hl.replace hx hold (fun l' hr => ⟨(hnew l' hr).1, (hnew l' hr).2.2⟩) hmisses hkept
    (fun l' h hr hpc => absurd hpc ((hnew l' hr).2.1 h)) fun h h2 => .inl (hshows h h2)

/-- The writer of a slot publishes it and goes on to count it. -/
theorem Listing.publish (hold : l.pc.Quiet) (hkept : Kept s.table s'.table)
    (hst : (s.table h).st ≠ 2) (hother : ∀ g ≠ h, s'.table g = s.table g)
    (hmisses : s'.toMisses = s.toMisses)
    (hnew : Knows cap A P s' listed { l with pc := .count h }) :
    Listing cap A P s' (update here x (some { l with pc := .count h })) listed := by
  apply hl.replace hx hold
  · rintro l' hr
    cases hr
    exact ⟨hnew, rfl⟩
  · exact hmisses
  · exact hkept
  · rintro l' g hr hpc
    cases hr
    cases hpc
    exact hst
  · intro g hg
    by_cases he : g = h
    · exact .inr ⟨_, rfl, by rw [he]⟩
    · rw [hother g he] at hg
      exact .inl hg

/-- A slot is counted, and takes the next place of the list. -/
theorem Listing.counted (hpc : l.pc = .count h) (hs' : s' = { s with nmiss := s.nmiss + 1 }) :
    Listing cap A P s' (update here x (some { l with pc := .list h s.nmiss }))
      (listed ++ [h]) := by
  subst hs'
  have hknows := hl.knows hx
  obtain ⟨hP, hknows⟩ := hknows
  rw [hpc] at hknows
  obtain ⟨hsmall, hA, hlt, hs, hnot⟩ := hknows
  have hold : l.pc.index = none := by rw [hpc]; rfl
  have hget : ∀ {i g}, (listed ++ [h])[i]? = some g →
      listed[i]? = some g ∨ (i = listed.length ∧ g = h) := by
    intro i g hi
    rcases lt_or_ge i listed.length with hlt | hge
    · rw [getElem?_append_left hlt] at hi
      exact .inl hi
    · rw [getElem?_append_right hge, getElem?_singleton] at hi
      split at hi
      · cases hi
        exact .inr ⟨by omega, rfl⟩
      · cases hi
  refine ⟨?_, ?_, ?_, fun _ => hsmall, ?_, ?_, ?_, ?_, ?_⟩
  · intro y m hy
    rw [update_apply] at hy
    split at hy
    · cases hy
      refine ⟨hP, ?_, hs⟩
      rw [hl.count, getElem?_append_right (Nat.le_refl _), Nat.sub_self]
      rfl
    · next hne =>
      refine (hl.knows hy).frame (Kept.refl _) (prefix_append listed [h]) ?_ fun _ _ => ⟨rfl, rfl⟩
      intro g hg hnotg hmem
      rcases mem_append.mp hmem with hmem | hmem
      · exact hnotg hmem
      · rw [mem_singleton.mp hmem] at hg
        exact hne (hl.apart hy hx hg hpc)
  · show s.nmiss + 1 = _
    rw [hl.count, length_append, length_singleton]
  · rw [nodup_append]
    refine ⟨hl.nodup, nodup_singleton h, ?_⟩
    intro g hg g' hg' he
    rw [mem_singleton.mp hg'] at he
    exact hnot (he ▸ hg)
  · intro g hg
    rcases mem_append.mp hg with hg | hg
    · exact hl.new g hg
    · rw [mem_singleton.mp hg]
      exact ⟨hlt, l.key, hs, hA⟩
  · intro g k hsg hAg
    rcases hl.covered g k hsg hAg with hmem | ⟨y, m, hy, hm⟩
    · exact .inl (mem_append_left [h] hmem)
    · by_cases he : y = x
      · subst he
        rw [hx, some.injEq] at hy
        rw [← hy, hpc, DiscoverPc.count.injEq] at hm
        exact .inl (mem_append_right listed (mem_singleton.mpr hm.symm))
      · exact .inr ⟨y, m, by rw [update_of_ne he, hy], hm⟩
  · intro i g hi
    rcases hget hi with hi | ⟨rfl, rfl⟩
    · rcases hl.entry i g hi with he | ⟨y, m, hy, hm⟩
      · exact .inl he
      · have hne : y ≠ x := by
          rintro rfl
          rw [hx, some.injEq] at hy
          rw [← hy, hold] at hm
          cases hm
        exact .inr ⟨y, m, by rw [update_of_ne hne, hy], hm⟩
    · exact .inr ⟨x, _, update_self .., by rw [← hl.count]; rfl⟩
  · intro y z m m' g hy hz hm hm'
    rw [update_apply] at hy hz
    split at hy
    · cases hy
      cases hm
    · split at hz
      · cases hz
        cases hm'
      · exact hl.apart hy hz hm hm'
  · have hother : ∀ {y m}, here y = some m → m.pc.index ≠ some s.nmiss := by
      intro y m hy hm
      have hknows := (hl.knows hy).2
      have hlt : s.nmiss < listed.length := by
        obtain ⟨key, pc⟩ := m
        cases pc <;> cases hm <;> exact (List.getElem?_eq_some_iff.mp hknows.1).1
      exact lt_irrefl _ (hl.count ▸ hlt)
    intro y z m m' i hy hz hm hm'
    rw [update_apply] at hy hz
    split at hy
    · next he =>
      cases hy
      cases hm
      split at hz
      · next he' => rw [he, he']
      · exact absurd hm' (hother hz)
    · split at hz
      · cases hz
        cases hm'
        exact absurd hm (hother hy)
      · exact hl.apartIndex hy hz hm hm'

/-- A place of the list is written on by the thread that has it. -/
theorem Listing.written (hpc : l.pc.index = some i)
    (htable : s'.table = s.table) (hnmiss : s'.nmiss = s.nmiss)
    (hother : ∀ j ≠ i, s'.miss j = s.miss j ∧ s'.missk0 j = s.missk0 j ∧ s'.missk1 j = s.missk1 j)
    (hnew : (∃ l', r = some l' ∧ l'.pc.index = some i ∧ Knows cap A P s' listed l') ∨
      (r = none ∧ ∀ h, listed[i]? = some h → Entry s' i h)) :
    Listing cap A P s' (update here x r) listed := by
  have hcount : ∀ {m : DiscoverThread} {j h}, m.pc.index = some j → m.pc ≠ .count h := by
    intro m j h hm he
    rw [he] at hm
    cases hm
  refine ⟨?_, hnmiss.trans hl.count, hl.nodup, hl.small, ?_, ?_, ?_, ?_, ?_⟩
  · intro y m hy
    rw [update_apply] at hy
    split at hy
    · rcases hnew with ⟨l', rfl, _, hl'⟩ | ⟨rfl, _⟩
      · cases hy
        exact hl'
      · cases hy
    · next hne =>
      refine (hl.knows hy).frame (htable ▸ Kept.refl _) (prefix_refl listed)
        (fun _ _ hh => hh) fun j hj => ?_
      have hji : j ≠ i := fun he => hne (hl.apartIndex hy hx (he ▸ hj) hpc)
      exact ⟨(hother j hji).1, (hother j hji).2.1⟩
  · rw [htable]
    exact hl.new
  · intro g k hs hA
    rw [htable] at hs
    rcases hl.covered g k hs hA with hmem | ⟨y, m, hy, hm⟩
    · exact .inl hmem
    · have hne : y ≠ x := by
        rintro rfl
        rw [hx, some.injEq] at hy
        exact hcount hpc (hy ▸ hm)
      exact .inr ⟨y, m, by rw [update_of_ne hne, hy], hm⟩
  · intro j g hj
    by_cases he : j = i
    · subst he
      rcases hnew with ⟨l', rfl, hl', _⟩ | ⟨rfl, hentry⟩
      · exact .inr ⟨x, l', update_self .., hl'⟩
      · exact .inl (hentry g hj)
    · rcases hl.entry j g hj with hentry | ⟨y, m, hy, hm⟩
      · refine .inl ?_
        rw [Entry, (hother j he).1, (hother j he).2.1, (hother j he).2.2, htable]
        exact hentry
      · have hne : y ≠ x := by
          rintro rfl
          rw [hx, some.injEq] at hy
          rw [← hy, hpc, some.injEq] at hm
          exact he hm.symm
        exact .inr ⟨y, m, by rw [update_of_ne hne, hy], hm⟩
  · intro y z m m' g hy hz hm hm'
    have hr : ∀ {m g}, r = some m → m.pc ≠ .count g := by
      intro m g he
      rcases hnew with ⟨l', rfl, hl', _⟩ | ⟨rfl, _⟩
      · cases he
        exact hcount hl'
      · cases he
    rw [update_apply] at hy hz
    split at hy
    · exact absurd hm (hr hy)
    · split at hz
      · exact absurd hm' (hr hz)
      · exact hl.apart hy hz hm hm'
  · intro y z m m' j hy hz hm hm'
    have hr : ∀ {m j}, r = some m → m.pc.index = some j → j = i := by
      intro m j he hj
      rcases hnew with ⟨l', rfl, hl', _⟩ | ⟨rfl, _⟩
      · cases he
        rw [hl', some.injEq] at hj
        exact hj.symm
      · cases he
    rw [update_apply] at hy hz
    split at hy
    · next he =>
      cases hr hy hm
      split at hz
      · next he' => rw [he, he']
      · exact he.trans (hl.apartIndex hz hx hm' hpc).symm
    · split at hz
      · next he =>
        cases hr hz hm'
        exact (hl.apartIndex hy hx hm hpc).trans he.symm
      · exact hl.apartIndex hy hz hm hm'

end AxisBridge.Gpu
