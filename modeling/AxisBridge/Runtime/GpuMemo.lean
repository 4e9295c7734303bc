import AxisBridge.Runtime.GpuGroups
import AxisBridge.Runtime.GpuInsert

/-! The memo over the life of an engine: what a discover lists, and what produce finds once it is
settled. -/
namespace AxisBridge.Gpu
open List

variable {cap n h : ℕ} {e e' : Engine} {size : Size} {b : Misses} {s : Memory} {k : Key}
  {held : ℕ → Option Key} {listed : List ℕ} {a : Action}

/-- The keys of the pending groups with their slots. -/
def Engine.missing (e : Engine) : List (Key × UInt32) := e.groups.flatMap Group.entries

def Engine.Answered (e : Engine) (k : Key) : Prop := k ∈ e.answered.map Prod.fst

/-- A size is started when the one before it is settled, and a pass that meets a key its table lacks
runs on fewer than 2 ^ 32 slots. -/
def Careful (e : Engine) : Action → Prop
  | .size => e.groups = []
  | .pass => e.cap < 2 ^ 32 ∨
      ∀ size, e.size = some size → ∀ k, size.Asks e.n k → ∃ h < e.cap, Shows (e.table h) k
  | _ => True

/-- What a discover that has returned leaves: every key that is asked for is in the table once, and
the groups have those without an answer, each once and with a slot of its own. -/
structure Lists (e : Engine) (size : Size) : Prop where
  once : ∀ k, size.Asks e.n k → ∃! h, h < e.cap ∧ Shows (e.table h) k
  missing : ∀ k, k ∈ e.missing.map Prod.fst ↔ size.Asks e.n k ∧ ¬ e.Answered k
  keys : (e.missing.map Prod.fst).Nodup
  slots : (e.missing.map Prod.snd).Nodup
  shown : ∀ p ∈ e.missing, Shows (e.table p.2.toNat) p.1
  grouped : Grouped e.groups
  vals : ∀ g ∈ e.groups, g.vals.length = g.slots.length

/-- A launch of produce over combinations of the size gives each of its keys the answer that was
given for it; it flags a key as unanswered only where that answer is the value of a pending slot. -/
def Finds (e e' : Engine) (size : Size) : Prop :=
  ((e.answered ++ e.given).map Prod.fst).Nodup ∧
    ∀ job ∈ size.jobs, ∀ j0 m, j0 + m ≤ size.tries job → ∀ s s',
      (p5Produce job.toJob size.bvec e.n j0 e'.table (e'.cap - 1)).Runs (threads (m * e.n))
        (m * e.n) s s' →
      (∀ x < m * e.n,
        (key job.toJob size.bvec e.n (j0 + x / e.n) (x % e.n), s'.out x) ∈ e.answered ++ e.given) ∧
      ((∀ p ∈ e.answered ++ e.given, p.2 ≠ pending) → s'.flag = s.flag)

/-- The table between two calls: each answered key in its slot with its answer. -/
structure Memo (e : Engine) : Prop where
  cap : IsCap e.cap
  claims : ∃ held, Claims e.cap e.table resting held
  nodup : (e.answered.map Prod.fst).Nodup
  answers : ∀ p ∈ e.answered, ∃ h, e.table h = ⟨2, p.1.1, p.1.2, p.2⟩

/-- No discover is under way. -/
structure Idle (e : Engine) : Prop where
  lists : ∀ size, e.size = some size → Lists e size
  none : e.size = none → e.groups = []
  shown : ∀ h k, Shows (e.table h) k → e.Answered k ∨ k ∈ e.missing.map Prod.fst

/-- A discover is under way, between two passes. -/
def Busy (e : Engine) (b : Misses) : Prop :=
  ∃ size, e.size = some size ∧ ∃ held listed, Claims e.cap e.table resting held ∧
    Listing e.cap e.Answered (size.Asks e.n) ⟨b, e.table, Flag.clear⟩ nowhere listed ∧
    ∀ h k, held h = some k → e.Answered k ∨ size.Asks e.n k

structure EngineInvariant (e : Engine) : Prop where
  memo : Memo e
  idle : e.misses = none → Idle e
  busy : ∀ b, e.misses = some b → Busy e b

theorem Memo.shows_answered (hm : Memo e) (hk : e.Answered k) : ∃ h, Shows (e.table h) k := by
  obtain ⟨p, hp, rfl⟩ := mem_map.mp hk
  obtain ⟨h, hh⟩ := hm.answers p hp
  exact ⟨h, by rw [hh]; exact ⟨rfl, rfl, rfl⟩⟩

theorem invariant_opened (n : ℕ) : EngineInvariant (opened n) where
  memo := ⟨⟨20, rfl⟩, ⟨_, Claims.zeros _⟩, nodup_nil, fun p hp => absurd hp not_mem_nil⟩
  idle := fun _ => ⟨fun _ he => (by cases he), fun _ => rfl,
    fun h k hs => absurd (show (0 : ℕ) = 2 from hs.1) (by decide)⟩
  busy := fun _ he => by cases he

/-- A rebuilt table has the answered keys and nothing else. -/
theorem Rebuilds.memo (hr : Rebuilds cap e e') (hcap : IsCap cap) (hm : Memo e) :
    Memo e' ∧ (∀ h k, Shows (e'.table h) k → e'.Answered k) ∧
      e' = { e with cap := e'.cap, table := e'.table } := by
  cases hr with
  | empty hnone =>
    refine ⟨⟨hcap, ⟨_, Claims.zeros cap⟩, hm.nodup, fun p hp => ?_⟩, fun h k hs => ?_, rfl⟩
    · rw [show ({ e with cap, table := Table.zeros } : Engine).answered = [] from hnone] at hp
      cases hp
    · exact absurd (show (0 : ℕ) = 2 from hs.1) (by decide)
  | insert hsome hrun hflag =>
    obtain ⟨held, hclaims, howner, hplaced⟩ :=
      insert_places hcap hm.nodup (threads_pos _) hrun (by rw [hflag]; rfl)
    exact ⟨⟨hcap, ⟨held, hclaims⟩, hm.nodup, hplaced⟩,
      fun h k hs => howner h k (hclaims.held_of_shows hs), rfl⟩

/-- A discover starts on a table of answered keys. -/
theorem invariant_start (hm : Memo e) (hshown : ∀ h k, Shows (e.table h) k → e.Answered k)
    (hsize : e.size = some size) : EngineInvariant { e with misses := some Misses.zeros } := by
  refine ⟨⟨hm.cap, hm.claims, hm.nodup, hm.answers⟩, fun he => (by cases he), fun b hb => ?_⟩
  cases hb
  obtain ⟨held, hclaims⟩ := hm.claims
  refine ⟨size, hsize, held, [], hclaims, ?_, fun h k hk =>
    .inl (hshown h k (hclaims.shows_of_held hm.cap hk))⟩
  refine ⟨fun hx => (by cases hx), rfl, nodup_nil, fun hne => absurd rfl hne,
    fun h hh => absurd hh not_mem_nil, fun h k hs hA => absurd (hshown h k hs) hA,
    fun i h hi => (by cases hi), fun hx => (by cases hx), fun hx => (by cases hx)⟩

theorem Idle.shown_answered (hi : Idle e) (hgroups : e.groups = []) (hs : Shows (e.table h) k) :
    e.Answered k := by
  rcases hi.shown h k hs with hA | hmem
  · exact hA
  · rw [Engine.missing, hgroups] at hmem
    cases hmem

/-- A pass keeps the table and the list of misses; where no flag calls for another pass, every key
that is asked for is shown. -/
theorem pass_keeps (hinv : EngineInvariant e) (hok : Careful e .pass) (hsize : e.size = some size)
    (hb : e.misses = some b) (hpass : e.Passes size b s) :
    (∃ held listed, Discovering e.cap e.Answered (size.Asks e.n) s nowhere held listed) ∧
      Kept e.table s.table ∧ (s.flag .full = false → s.flag .rerun = false → ∀ k, size.Asks e.n k →
      ∃ h, Shows (s.table h) k) := by
  obtain ⟨size', hsize', held, listed, hclaims, hlisting, hplanned⟩ := hinv.busy b hb
  cases hsize.symm.trans hsize'
  have hfits : e.cap < 2 ^ 32 ∨ ∀ k, size.Asks e.n k → ∃ h, held h = some k := by
    refine hok.imp id fun hall k hk => ?_
    obtain ⟨h, _, hs⟩ := hall size hsize k hk
    exact ⟨h, hclaims.held_of_shows hs⟩
  have hanswered : ∀ k, e.Answered k → ∃ h, held h = some k := by
    intro k hk
    obtain ⟨h, hs⟩ := hinv.memo.shows_answered hk
    exact ⟨h, hclaims.held_of_shows hs⟩
  obtain ⟨hleaves, hsettled⟩ := pass_settles hinv.memo.cap hpass
    ⟨held, listed, hclaims, hlisting, hfits, hplanned, hanswered, rfl⟩
  refine ⟨hleaves.discovering, hleaves.kept, fun hfull hrerun k hk => ?_⟩
  rcases hsettled k hk with hs | hs | hs
  · exact hs
  · rw [hfull] at hs
    cases hs
  · rw [hrerun] at hs
    cases hs

theorem Memo.pass (hm : Memo e) (hkept : Kept e.table s.table) :
    ∀ p ∈ e.answered, ∃ h, s.table h = ⟨2, p.1.1, p.1.2, p.2⟩ := by
  intro p hp
  obtain ⟨h, hh⟩ := hm.answers p hp
  exact ⟨h, by rw [hkept h (by rw [hh]), hh]⟩

/-- The state of a list of misses does not depend on the flags. -/
theorem Listing.clear {A P : Key → Prop} (hl : Listing cap A P s nowhere listed) :
    Listing cap A P ⟨s.toMisses, s.table, Flag.clear⟩ nowhere listed :=
  ⟨fun hx => (by cases hx), hl.count, hl.nodup, hl.small, hl.new,
    fun h k hs hA => (hl.covered h k hs hA).imp id fun ⟨_, _, hx, _⟩ => (by cases hx),
    fun i h hi => (hl.entry i h hi).imp id fun ⟨_, _, hx, _⟩ => (by cases hx),
    fun hx => (by cases hx), fun hx => (by cases hx)⟩

/-- A pass after which discover returns. -/
theorem invariant_found (hinv : EngineInvariant e) (hok : Careful e .pass)
    (hsize : e.size = some size) (hb : e.misses = some b) (hpass : e.Passes size b s)
    (hrerun : s.flag .rerun = false) (hfull : s.flag .full = false) :
    EngineInvariant { e with table := s.table, misses := none, groups := s.toMisses.groups } := by
  obtain ⟨⟨held, listed, hd⟩, hkept, hall⟩ := pass_keeps hinv hok hsize hb hpass
  have hclaims : Claims e.cap s.table resting held := hd.claims
  obtain ⟨hkeys, hnodup, hslots, hshown⟩ := hd.listing.list_facts hclaims
  have hperm := groups_entries s.toMisses
  obtain ⟨hgrouped, hvals⟩ := groups_grouped s.toMisses
  have hmissing : ∀ k, k ∈ (s.toMisses.groups.flatMap Group.entries).map Prod.fst ↔
      (∃ h, Shows (s.table h) k) ∧ ¬ e.Answered k := fun k =>
    ((hperm.map Prod.fst).mem_iff).trans (hkeys k)
  refine ⟨⟨hinv.memo.cap, ⟨held, hclaims⟩, hinv.memo.nodup, hinv.memo.pass hkept⟩,
    fun _ => ⟨fun size' hs => ?_, fun hs => ?_, fun h k hs => ?_⟩, fun _ hb => by cases hb⟩
  · cases hsize.symm.trans hs
    refine ⟨fun k hk => ?_, fun k => (hmissing k).trans ?_,
      (hperm.map Prod.fst).nodup_iff.mpr hnodup,
      (hperm.map Prod.snd).nodup_iff.mpr hslots, fun p hp => hshown p (hperm.mem_iff.mp hp),
      hgrouped, hvals⟩
    · obtain ⟨h, hs⟩ := hall hfull hrerun k hk
      exact ⟨h, ⟨hclaims.lt_of_shows hinv.memo.cap hs, hs⟩, fun g hg => hclaims.slot_eq hg.2 hs⟩
    · refine ⟨fun ⟨⟨h, hs⟩, hA⟩ => ⟨?_, hA⟩, fun ⟨hk, hA⟩ => ⟨hall hfull hrerun k hk, hA⟩⟩
      exact (hd.planned h k (hclaims.held_of_shows hs)).resolve_left hA
  · cases hsize.symm.trans hs
  · by_cases hA : e.Answered k
    · exact .inl hA
    · exact .inr ((hmissing k).mpr ⟨⟨h, hs⟩, hA⟩)

/-- An answer changes nothing but the values of a group. -/
theorem invariant_answer {pre post : List Group} {g g' : Group} (hinv : EngineInvariant e)
    (hidle : e.misses = none) (hgroup : e.groups = pre ++ g :: post)
    (hsame : g'.code = g.code ∧ g'.keys = g.keys ∧ g'.slots = g.slots)
    (hlen : g'.vals.length = g.vals.length) :
    EngineInvariant { e with groups := pre ++ g' :: post } := by
  obtain ⟨hcode, hkeys, hslots⟩ := hsame
  have hi := hinv.idle hidle
  have hentries : g'.entries = g.entries := by rw [Group.entries, hkeys, hslots, Group.entries]
  have hmissing : (pre ++ g' :: post).flatMap Group.entries = e.missing := by
    rw [Engine.missing, hgroup, flatMap_append, flatMap_append, flatMap_cons,
      flatMap_cons, hentries]
  have hg : g ∈ e.groups := hgroup ▸ mem_append_right pre mem_cons_self
  have hmem : ∀ g'' ∈ pre ++ g' :: post, g'' = g' ∨ g'' ∈ e.groups := by
    intro g'' hg''
    rw [hgroup]
    rcases mem_append.mp hg'' with hpre | hpost
    · exact .inr (mem_append_left _ hpre)
    · rcases mem_cons.mp hpost with he | hpost
      · exact .inl he
      · exact .inr (mem_append_right pre (mem_cons_of_mem g hpost))
  refine ⟨⟨hinv.memo.cap, hinv.memo.claims, hinv.memo.nodup, hinv.memo.answers⟩,
    fun _ => ⟨fun size hs => ?_, fun hs => ?_, fun h k hs => ?_⟩, fun b hb => ?_⟩
  · have hl := hi.lists size hs
    refine ⟨hl.once, fun k => ?_, ?_, ?_, fun p hp => ?_, fun g'' hg'' => ?_, fun g'' hg'' => ?_⟩
    · rw [Engine.missing, hmissing]
      exact hl.missing k
    · rw [Engine.missing, hmissing]
      exact hl.keys
    · rw [Engine.missing, hmissing]
      exact hl.slots
    · rw [Engine.missing, hmissing] at hp
      exact hl.shown p hp
    · rcases hmem g'' hg'' with rfl | hg''
      · rw [hkeys, hslots, hcode]
        exact hl.grouped g hg
      · exact hl.grouped g'' hg''
    · rcases hmem g'' hg'' with rfl | hg''
      · rw [hlen, hslots]
        exact hl.vals g hg
      · exact hl.vals g'' hg''
  · rw [hi.none hs] at hg
    cases hg
  · rw [Engine.missing, hmissing]
    exact hi.shown h k hs
  · cases hidle.symm.trans hb

/-- Values do not count where keys lie. -/
theorem Claims.vals {t t' : Table} (hc : Claims cap t resting held)
    (hsame : ∀ h, (t' h).st = (t h).st ∧ (t' h).k0 = (t h).k0 ∧ (t' h).k1 = (t h).k1) :
    Claims cap t' resting held := by
  refine ⟨hc.placed, fun h hh => ?_, fun h h2 => ?_, fun h hh h0 h2 => ?_, fun hx => (by cases hx),
    fun hx => (by cases hx), fun hx => (by cases hx)⟩
  · rw [(hsame h).1]
    exact hc.free h hh
  · rw [(hsame h).2.1, (hsame h).2.2]
    exact hc.full h ((hsame h).1 ▸ h2)
  · rw [(hsame h).1] at h0 h2
    exact hc.busy h hh h0 h2

theorem Lists.given_keys (hl : Lists e size) : e.given.map Prod.fst = e.missing.map Prod.fst := by
  rw [Engine.given, Engine.missing, map_flatMap, map_flatMap]
  refine flatMap_congr fun g hg => ?_
  have hkeys := (hl.grouped g hg).1
  rw [Group.entries, map_fst_zip (by rw [hl.vals g hg, hkeys]), map_fst_zip (by rw [hkeys])]

theorem Lists.missing_slots (hl : Lists e size) :
    e.groups.flatMap Group.slots = e.missing.map Prod.snd := by
  rw [Engine.missing, map_flatMap]
  refine flatMap_congr fun g hg => ?_
  rw [Group.entries, map_snd_zip (by rw [(hl.grouped g hg).1])]

/-- The answer of a key is written into its slot. -/
theorem Lists.slot_of_given {p : Key × UInt32} (hl : Lists e size) (hp : p ∈ e.given) :
    ∃ slot, (p.1, slot) ∈ e.missing ∧ (slot, p.2) ∈ slotVals e.groups := by
  obtain ⟨g, hg, hp⟩ := mem_flatMap.mp hp
  obtain ⟨x, hx⟩ := mem_iff_getElem?.mp hp
  rw [getElem?_zip_eq_some] at hx
  have hlt : x < g.slots.length := by
    rw [← hl.vals g hg]
    exact (List.getElem?_eq_some_iff.mp hx.2).1
  have hslot := getElem?_eq_getElem hlt
  refine ⟨g.slots[x], mem_flatMap.mpr ⟨g, hg, ?_⟩, mem_flatMap.mpr ⟨g, hg, ?_⟩⟩
  · exact mem_iff_getElem?.mpr ⟨x, getElem?_zip_eq_some.mpr ⟨hx.1, hslot⟩⟩
  · exact mem_iff_getElem?.mpr ⟨x, getElem?_zip_eq_some.mpr ⟨hslot, hx.2⟩⟩

/-- What is given is for keys that have no answer yet. -/
theorem Lists.nodup_given (hl : Lists e size) (hm : Memo e) :
    ((e.answered ++ e.given).map Prod.fst).Nodup := by
  rw [map_append, nodup_append]
  refine ⟨hm.nodup, ?_, fun k hk k' hk' he => ?_⟩
  · rw [hl.given_keys]
    exact hl.keys
  · subst he
    rw [hl.given_keys] at hk'
    exact ((hl.missing k).mp hk').2 hk

/-- Settled, the table has the same keys in the same slots, and each answer in the slot of its
key. -/
theorem settle_table {t : Table} (hl : Lists e size) (hm : Memo e)
    (hset : SetVals e.groups e.table t) :
    (∀ h, (t h).st = (e.table h).st ∧ (t h).k0 = (e.table h).k0 ∧ (t h).k1 = (e.table h).k1) ∧
      ∀ p ∈ e.answered ++ e.given, ∃ h, t h = ⟨2, p.1.1, p.1.2, p.2⟩ := by
  obtain ⟨held, hclaims⟩ := hm.claims
  obtain ⟨hset, hother⟩ := setVals_sets hset
    (fun g hg => (hl.vals g hg).symm) (by rw [hl.missing_slots]; exact hl.slots)
  refine ⟨fun h => ?_, fun p hp => ?_⟩
  · by_cases hslot : ∃ q ∈ slotVals e.groups, q.1.toNat = h
    · obtain ⟨q, hq, rfl⟩ := hslot
      rw [hset q hq]
      exact ⟨rfl, rfl, rfl⟩
    · rw [hother h fun s hs he => hslot ?_]
      · exact ⟨rfl, rfl, rfl⟩
      · obtain ⟨g, hg, hs⟩ := mem_flatMap.mp hs
        obtain ⟨x, hx⟩ := mem_iff_getElem?.mp hs
        have hlt : x < g.vals.length := by
          rw [hl.vals g hg]
          exact (List.getElem?_eq_some_iff.mp hx).1
        exact ⟨(s, g.vals[x]), mem_flatMap.mpr ⟨g, hg, mem_iff_getElem?.mpr
          ⟨x, getElem?_zip_eq_some.mpr ⟨hx, getElem?_eq_getElem hlt⟩⟩⟩, he⟩
  · rcases mem_append.mp hp with hp | hp
    · obtain ⟨h, hh⟩ := hm.answers p hp
      have hs : Shows (e.table h) p.1 := by
        rw [hh]
        exact ⟨rfl, rfl, rfl⟩
      refine ⟨h, ?_⟩
      rw [hother h fun s hs' he => ?_, hh]
      -- a slot of the groups shows a key without an answer
      rw [hl.missing_slots] at hs'
      obtain ⟨q, hq, rfl⟩ := mem_map.mp hs'
      have hkey : q.1 = p.1 := by
        have hheld := hclaims.held_of_shows (hl.shown q hq)
        rw [he, hclaims.held_of_shows hs, Option.some.injEq] at hheld
        exact hheld.symm
      have hA := ((hl.missing q.1).mp (mem_map_of_mem hq)).2
      exact hA (mem_map.mpr ⟨p, hp, hkey.symm⟩)
    · obtain ⟨slot, hslot, hval⟩ := hl.slot_of_given hp
      have hs := hl.shown _ hslot
      refine ⟨slot.toNat, ?_⟩
      rw [hset _ hval]
      obtain ⟨h2, h0, h1⟩ := hs
      rw [Slot.mk.injEq]
      exact ⟨h2, h0, h1, rfl⟩

theorem invariant_settle {t : Table} (hinv : EngineInvariant e) (hidle : e.misses = none)
    (hsize : e.size = some size) (hset : SetVals e.groups e.table t) :
    EngineInvariant { e with table := t, groups := [], answered := e.answered ++ e.given } := by
  have hi := hinv.idle hidle
  have hl := hi.lists size hsize
  obtain ⟨held, hclaims⟩ := hinv.memo.claims
  obtain ⟨hsame, hanswers⟩ := settle_table hl hinv.memo hset
  have hshows : ∀ {h k}, Shows (t h) k ↔ Shows (e.table h) k := by
    intro h k
    rw [Shows, Shows, (hsame h).1, (hsame h).2.1, (hsame h).2.2]
  have hall : ∀ k, e.Answered k ∨ k ∈ e.missing.map Prod.fst →
      k ∈ (e.answered ++ e.given).map Prod.fst := by
    intro k hk
    rw [map_append, mem_append, hl.given_keys]
    exact hk
  refine ⟨⟨hinv.memo.cap, ⟨held, hclaims.vals hsame⟩, hl.nodup_given hinv.memo, hanswers⟩,
    fun _ => ⟨fun size' hs => ?_, fun _ => rfl, fun h k hs => ?_⟩, fun b hb => ?_⟩
  · cases hsize.symm.trans hs
    refine ⟨fun k hk => ?_, fun k => ⟨fun hk => (by cases hk), fun ⟨hk, hA⟩ => ?_⟩, nodup_nil,
      nodup_nil, fun p hp => absurd hp not_mem_nil, fun g hg => absurd hg not_mem_nil,
      fun g hg => absurd hg not_mem_nil⟩
    · obtain ⟨h, ⟨hlt, hs⟩, huniq⟩ := hl.once k hk
      exact ⟨h, ⟨hlt, hshows.mpr hs⟩, fun g hg => huniq g ⟨hg.1, hshows.mp hg.2⟩⟩
    · refine absurd (hall k ?_) hA
      by_cases hA' : e.Answered k
      · exact .inl hA'
      · exact .inr ((hl.missing k).mpr ⟨hk, hA'⟩)
  · exact .inl (hall k (hi.shown h k (hshows.mp hs)))
  · cases hidle.symm.trans hb

theorem EngineInvariant.step (hinv : EngineInvariant e) (hok : Careful e a)
    (hstep : EngineStep a e e') : EngineInvariant e' := by
  cases hstep with
  | @size _ size hidle hroom =>
    have hm := hinv.memo
    exact invariant_start (e := { e with size := some size }) ⟨hm.cap, hm.claims, hm.nodup,
      hm.answers⟩ (fun h k hs => (hinv.idle hidle).shown_answered hok hs) rfl
  | @sizeGrown _ e₁ size hidle hroom hrebuild =>
    obtain ⟨hm, hshown, _⟩ := hrebuild.memo (hinv.memo.cap.grow) hinv.memo
    exact invariant_start (e := { e₁ with size := some size }) ⟨hm.cap, hm.claims, hm.nodup,
      hm.answers⟩ hshown rfl
  | rerun hsize hb hpass hrerun hfull =>
    obtain ⟨⟨held, listed, hd⟩, hkept, _⟩ := pass_keeps hinv hok hsize hb hpass
    refine ⟨⟨hinv.memo.cap, ⟨held, hd.claims⟩, hinv.memo.nodup, hinv.memo.pass hkept⟩,
      fun he => (by cases he), fun b' hb' => ?_⟩
    cases hb'
    exact ⟨_, hsize, held, listed, hd.claims, hd.listing.clear, hd.planned⟩
  | @grow _ e₁ size _ _ hsize hb hpass hfull hrebuild =>
    obtain ⟨hm, hshown, he⟩ := hrebuild.memo (hinv.memo.cap.grow) hinv.memo
    have hsize₁ : e₁.size = some size := by rw [he, hsize]
    exact invariant_start hm hshown hsize₁
  | found hsize hb hpass hrerun hfull hoverflow =>
    exact invariant_found hinv hok hsize hb hpass hrerun hfull
  | @answer _ _ pre post g first ids hsize hidle hgroup hfit =>
    refine invariant_answer hinv hidle hgroup ⟨rfl, rfl, rfl⟩ ?_
    show (g.vals.take first ++ ids ++ g.vals.drop (first + ids.length)).length = g.vals.length
    rw [length_append, length_append, length_take, length_drop]
    omega
  | settle hsize hidle hset => exact invariant_settle hinv hidle hsize hset
  | produced hidle hgroups =>
    have hi := hinv.idle hidle
    have hm := hinv.memo
    exact ⟨⟨hm.cap, hm.claims, hm.nodup, hm.answers⟩,
      fun _ => ⟨fun _ he => (by cases he), fun _ => hgroups, hi.shown⟩,
      fun b hb => by cases hidle.symm.trans hb⟩

theorem invariant_run (hrun : Reaches EngineStep Careful (opened n) e) : EngineInvariant e :=
  hrun.invariant (fun hinv hok hstep => hinv.step hok hstep) (invariant_opened n)

/-- Settled, the size is found by produce. -/
theorem finds_settled (hinv : EngineInvariant e) (hsize : e.size = some size)
    (hstep : EngineStep .settle e e') : Finds e e' size := by
  cases hstep with
  | @settle _ size' t hsize' hidle hset =>
    cases hsize.symm.trans hsize'
    have hl := (hinv.idle hidle).lists size hsize
    obtain ⟨held, hclaims⟩ := hinv.memo.claims
    obtain ⟨hsame, hanswers⟩ := settle_table hl hinv.memo hset
    refine ⟨hl.nodup_given hinv.memo, fun job hjob j0 m hm s s' hrun => ?_⟩
    -- each element has an answer, and its slot
    have hans : ∀ x, ∃ v, x < m * e.n →
        (key job.toJob size.bvec e.n (j0 + x / e.n) (x % e.n), v) ∈ e.answered ++ e.given := by
      intro x
      by_cases hx : x < m * e.n
      · have hn : 0 < e.n := Nat.pos_of_mul_pos_left (Nat.zero_lt_of_lt hx)
        have hdiv : x / e.n < m := Nat.div_lt_of_lt_mul (mul_comm m e.n ▸ hx)
        have hasks : size.Asks e.n (key job.toJob size.bvec e.n (j0 + x / e.n) (x % e.n)) :=
          ⟨job, hjob, j0 + x / e.n, by omega, x % e.n, Nat.mod_lt x hn, rfl⟩
        have hmem : key job.toJob size.bvec e.n (j0 + x / e.n) (x % e.n) ∈
            (e.answered ++ e.given).map Prod.fst := by
          rw [map_append, mem_append, hl.given_keys]
          by_cases hA : e.Answered (key job.toJob size.bvec e.n (j0 + x / e.n) (x % e.n))
          · exact .inl hA
          · exact .inr ((hl.missing _).mpr ⟨hasks, hA⟩)
        obtain ⟨p, hp, he⟩ := mem_map.mp hmem
        exact ⟨p.2, fun _ => he ▸ hp⟩
      · exact ⟨0, fun h => absurd h hx⟩
    choose ans hans using hans
    have hslots :
        ∀ x < m * e.n, ∃ h, Shows (t h) (key job.toJob size.bvec e.n (j0 + x / e.n) (x % e.n)) ∧
          (t h).val = ans x := by
      intro x hx
      obtain ⟨h, hh⟩ := hanswers _ (hans x hx)
      exact ⟨h, by rw [hh]; exact ⟨rfl, rfl, rfl⟩, by rw [hh]⟩
    obtain ⟨hout, hflag⟩ :=
      produce_finds (hclaims.vals hsame) hinv.memo.cap hslots hrun (threads_pos _)
    exact ⟨fun x hx => hout x hx ▸ hans x hx, fun hall => hflag fun x hx => hall _ (hans x hx)⟩

end AxisBridge.Gpu
