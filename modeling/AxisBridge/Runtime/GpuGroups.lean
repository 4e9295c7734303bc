import AxisBridge.Runtime.GpuPasses

/-! The groups of a pass that found everything: each key of the list of misses once, with its
slot. -/
namespace AxisBridge.Gpu
open List

variable {cap n i h : ℕ} {A P : Key → Prop} {s : Memory} {held : ℕ → Option Key} {listed : List ℕ}
  {k : Key} {b : Misses} {g : Group} {gs : List Group} {miss : Key × UInt32}

def Group.entries (g : Group) : List (Key × UInt32) := g.keys.zip g.slots

/-- Every group has a slot for each key, and the keys of its op code. -/
def Grouped (gs : List Group) : Prop :=
  ∀ g ∈ gs, g.keys.length = g.slots.length ∧ ∀ k ∈ g.keys, opCode k = g.code

theorem grouped_cons : Grouped (g :: gs) ↔
    (g.keys.length = g.slots.length ∧ ∀ k ∈ g.keys, opCode k = g.code) ∧ Grouped gs :=
  forall_mem_cons

theorem grouped_new (miss : Key × UInt32) (vals : List UInt32) :
    Grouped [⟨opCode miss.1, [miss.2], [miss.1], vals⟩] :=
  grouped_cons.mpr ⟨⟨rfl, fun k hk => by rw [mem_singleton.mp hk]⟩,
    fun g hg => absurd hg not_mem_nil⟩

theorem grouped_enterGroup (hgs : Grouped gs) : Grouped (enterGroup miss gs) := by
  induction gs with
  | nil => exact grouped_new miss []
  | cons g gs ih =>
    obtain ⟨hg, hrest⟩ := grouped_cons.mp hgs
    unfold enterGroup
    split
    · exact grouped_cons.mpr ⟨(grouped_cons.mp (grouped_new miss [])).1, hgs⟩
    · split
      · next he =>
        refine grouped_cons.mpr ⟨⟨?_, fun k hk => ?_⟩, hrest⟩
        · show (g.keys ++ [miss.1]).length = (g.slots ++ [miss.2]).length
          rw [length_append, length_append, hg.1]
          rfl
        · rcases mem_append.mp hk with hk | hk
          · exact hg.2 k hk
          · rw [mem_singleton.mp hk]
            exact he
      · exact grouped_cons.mpr ⟨hg, ih hrest⟩

/-- A miss is entered once. -/
theorem enterGroup_entries (hgs : Grouped gs) :
    ((enterGroup miss gs).flatMap Group.entries).Perm (miss :: gs.flatMap Group.entries) := by
  induction gs with
  | nil => exact .refl _
  | cons g gs ih =>
    obtain ⟨hg, hrest⟩ := grouped_cons.mp hgs
    unfold enterGroup
    split
    · exact .refl _
    · split
      · rw [flatMap_cons, flatMap_cons]
        have hentries :
            Group.entries { g with slots := g.slots ++ [miss.2], keys := g.keys ++ [miss.1] } =
              g.entries ++ [miss] := by
          show (g.keys ++ [miss.1]).zip (g.slots ++ [miss.2]) = _
          rw [zip_append hg.1]
          rfl
        rw [hentries, append_assoc]
        exact perm_middle
      · rw [flatMap_cons, flatMap_cons]
        exact ((ih hrest).append_left g.entries).trans perm_middle

theorem foldl_enterGroup (misses : List (Key × UInt32)) (hgs : Grouped gs) :
    Grouped (misses.foldl (fun gs miss => enterGroup miss gs) gs) ∧
      ((misses.foldl (fun gs miss => enterGroup miss gs) gs).flatMap Group.entries).Perm
        (misses ++ gs.flatMap Group.entries) := by
  induction misses generalizing gs with
  | nil => exact ⟨hgs, .refl _⟩
  | cons miss misses ih =>
    have hentered : Grouped (enterGroup miss gs) := grouped_enterGroup hgs
    obtain ⟨hgrouped, hperm⟩ := ih hentered
    exact ⟨hgrouped, hperm.trans (((enterGroup_entries hgs).append_left misses).trans perm_middle)⟩

/-- The groups have what the list of misses has, each once. -/
theorem groups_entries (b : Misses) : (b.groups.flatMap Group.entries).Perm b.list := by
  have hnil : Grouped [] := fun g hg => absurd hg not_mem_nil
  have hperm := (foldl_enterGroup (b.list.mergeSort keyLe) hnil).2
  rw [flatMap_nil, append_nil] at hperm
  rw [Misses.groups, flatMap_map]
  exact hperm.trans (mergeSort_perm _ _)

/-- Every group has an answer for each slot. -/
theorem groups_grouped (b : Misses) :
    Grouped b.groups ∧ ∀ g ∈ b.groups, g.vals.length = g.slots.length := by
  have hnil : Grouped [] := fun g hg => absurd hg not_mem_nil
  have hgrouped := (foldl_enterGroup (b.list.mergeSort keyLe) hnil).1
  refine ⟨fun g hg => ?_, fun g hg => ?_⟩
  · obtain ⟨g', hg', rfl⟩ := mem_map.mp hg
    exact hgrouped g' hg'
  · obtain ⟨g', hg', rfl⟩ := mem_map.mp hg
    exact length_replicate

/-- What the list of misses has when no thread is at work. -/
theorem Listing.list_eq (hl : Listing cap A P s nowhere listed) :
    s.toMisses.list = listed.map fun h => (((s.table h).k0, (s.table h).k1), UInt32.ofNat h) := by
  refine ext_getElem? fun i => ?_
  rw [Misses.list, getElem?_map, getElem?_map, hl.count]
  cases hi : listed[i]? with
  | none =>
    have hge : (range listed.length).length ≤ i := by
      rw [length_range]
      exact getElem?_eq_none_iff.mp hi
    rw [getElem?_eq_none hge]
    rfl
  | some h =>
    have hlt := (List.getElem?_eq_some_iff.mp hi).1
    rw [getElem?_range hlt]
    rcases hl.entry i h hi with ⟨hmiss, h0, h1⟩ | ⟨_, _, hx, _⟩
    · show some ((s.missk0 i, s.missk1 i), s.miss i) = some _
      rw [hmiss, h0, h1]
    · cases hx

/-- The list of misses has each key that is shown and not answered, once, and with its slot. -/
theorem Listing.list_facts (hl : Listing cap A P s nowhere listed)
    (hc : Claims cap s.table resting held) :
    (∀ k, k ∈ s.toMisses.list.map Prod.fst ↔ (∃ h, Shows (s.table h) k) ∧ ¬ A k) ∧
      (s.toMisses.list.map Prod.fst).Nodup ∧ (s.toMisses.list.map Prod.snd).Nodup ∧
      ∀ p ∈ s.toMisses.list, Shows (s.table p.2.toNat) p.1 := by
  have hnat : ∀ h ∈ listed, (UInt32.ofNat h).toNat = h := by
    intro h hh
    have hsmall := hl.small (ne_nil_of_mem hh)
    rw [UInt32.toNat_ofNat', Nat.mod_eq_of_lt (lt_trans (hl.new h hh).1 hsmall)]
  have hshows : ∀ h ∈ listed, Shows (s.table h) ((s.table h).k0, (s.table h).k1) := by
    intro h hh
    obtain ⟨_, k, hs, _⟩ := hl.new h hh
    exact ⟨hs.1, rfl, rfl⟩
  have hkey : ∀ {h k}, Shows (s.table h) k → ((s.table h).k0, (s.table h).k1) = k := fun hs =>
    Prod.ext hs.2.1 hs.2.2
  rw [hl.list_eq, map_map, map_map]
  refine ⟨fun k => ⟨fun hk => ?_, fun ⟨⟨h, hs⟩, hA⟩ => ?_⟩, ?_, ?_, fun p hp => ?_⟩
  · obtain ⟨h, hh, rfl⟩ := mem_map.mp hk
    obtain ⟨_, k, hs, hA⟩ := hl.new h hh
    refine ⟨⟨h, hshows h hh⟩, ?_⟩
    show ¬ A ((s.table h).k0, (s.table h).k1)
    rw [hkey hs]
    exact hA
  · rcases hl.covered h k hs hA with hmem | ⟨_, _, hx, _⟩
    · exact mem_map.mpr ⟨h, hmem, hkey hs⟩
    · cases hx
  · refine hl.nodup.map_on fun h hh g hg he => ?_
    have he' : ((s.table h).k0, (s.table h).k1) = ((s.table g).k0, (s.table g).k1) := he
    exact hc.slot_eq (hshows h hh) (he' ▸ hshows g hg)
  · refine hl.nodup.map_on fun h hh g hg he => ?_
    have he' : UInt32.ofNat h = UInt32.ofNat g := he
    rw [← hnat h hh, ← hnat g hg, he']
  · obtain ⟨h, hh, rfl⟩ := mem_map.mp hp
    show Shows (s.table (UInt32.ofNat h).toNat) _
    rw [hnat h hh]
    exact hshows h hh

end AxisBridge.Gpu
