import AxisBridge.Lib.SelfDelimiting
import AxisBridge.Runtime.Lines
import AxisBridge.Runtime.LocalMap
import Mathlib.Data.List.AList

/-! Frozen maps: how two of them are compared, and the bytes that are hashed for one. -/
namespace AxisBridge.HMap
open List
open SelfDelimiting (Delimits)
open StableSort (sortBy)

/-- A text fits an allocation. -/
def Short (s : String) : Prop := (textBytes s).length < 2 ^ 63

/-- The `HashMap` behind a frozen map, its entries in the order in which the table iterates. -/
structure Frozen where
  table : AList fun _ : String => String
  short : ∀ e ∈ table.entries, Short e.1 ∧ Short e.2

namespace Frozen

/-- The finite map. -/
def get (m : Frozen) : Map := fun k => m.table.lookup k

/-- `HashMap::insert`, which `hmap_put` does. -/
def put (m : Frozen) (k v : String) (hk : Short k) (hv : Short v) : Frozen where
  table := m.table.insert k v
  short := by
    intro e he
    rw [AList.entries_insert] at he
    rcases mem_cons.mp he with rfl | he
    · exact ⟨hk, hv⟩
    · exact m.short e ((kerase_sublist k m.table.entries).mem he)

/-- `==` of two `HashMap`s. -/
def tableEq (m n : Frozen) : Bool :=
  m.table.keys.length == n.table.keys.length &&
    m.table.entries.all fun e => n.table.lookup e.1 == some e.2

/-- `(n as u64).to_le_bytes()`, byte by byte. -/
def leBytes : ℕ → ℕ → Bytes
  | 0, _ => []
  | width + 1, n => UInt8.ofNat n :: leBytes width (n / 256)

def chunk (bytes : Bytes) : Bytes := leBytes 8 bytes.length ++ bytes

/-- What `hash_of` feeds to the hash; every key it sorts is in the map. -/
def hashInput (m : Frozen) : Bytes :=
  (sortBy bytewise id m.table.keys).flatMap fun k =>
    chunk (textBytes k) ++ chunk (textBytes ((m.table.lookup k).getD ""))

def hashOf [Sha256] (m : Frozen) : String := "sha256:" ++ hash256ToHex (Sha256.digest m.hashInput)

end Frozen

/-! ### The encoding -/

theorem length_leBytes (width n : ℕ) : (Frozen.leBytes width n).length = width := by
  induction width generalizing n with
  | zero => rfl
  | succ width ih => simp [Frozen.leBytes, ih]

theorem leBytes_inj (width : ℕ) {m n : ℕ} (hm : m < 256 ^ width) (hn : n < 256 ^ width)
    (h : Frozen.leBytes width m = Frozen.leBytes width n) : m = n := by
  induction width generalizing m n with
  | zero => omega
  | succ width ih =>
    simp only [Frozen.leBytes, List.cons.injEq] at h
    obtain ⟨hlow, hhigh⟩ := h
    have hlow := congrArg UInt8.toNat hlow
    simp only [UInt8.toNat_ofNat'] at hlow
    rw [Nat.pow_succ] at hm hn
    have hdiv := ih (m := m / 256) (n := n / 256) (by omega) (by omega) hhigh
    omega

theorem delimits_chunk : Delimits (fun bs : Bytes => bs.length < 2 ^ 63) Frozen.chunk :=
  SelfDelimiting.delimits_prefixed (length_leBytes 8) fun m n hm hn h =>
    leBytes_inj 8 (by omega) (by omega) h

/-- An entry as it is hashed. -/
def entryBytes (e : String × String) : Bytes :=
  Frozen.chunk (textBytes e.1) ++ Frozen.chunk (textBytes e.2)

theorem delimits_entryBytes :
    Delimits (fun e : String × String => Short e.1 ∧ Short e.2) entryBytes := by
  intro x y r r' hx hy heq
  have hpair := (delimits_chunk.pair delimits_chunk) (textBytes x.1, textBytes x.2)
    (textBytes y.1, textBytes y.2) r r' hx hy heq
  obtain ⟨hentry, hrest⟩ := hpair
  injection hentry with hkey hval
  exact ⟨Prod.ext (textBytes_inj hkey) (textBytes_inj hval), hrest⟩

theorem entryBytes_ne_nil (e : String × String) : entryBytes e ≠ [] := by
  simp [entryBytes, Frozen.chunk, Frozen.leBytes]

/-! ### Maps -/

variable {m n : Frozen}

/-- The entries in the order of their keys. -/
def Frozen.ordered (m : Frozen) : List (String × String) :=
  (sortBy bytewise id m.table.keys).map fun k => (k, (m.table.lookup k).getD "")

theorem Frozen.hashInput_eq (m : Frozen) : m.hashInput = m.ordered.flatMap entryBytes := by
  rw [ordered, flatMap_map]
  rfl

theorem Frozen.mem_ordered {k v : String} : (k, v) ∈ m.ordered ↔ m.get k = some v := by
  have hmem : k ∈ sortBy bytewise id m.table.keys ↔ (m.get k).isSome := by
    rw [(StableSort.perm_sortBy bytewise id m.table.keys).mem_iff]
    exact AList.lookup_isSome.symm
  constructor
  · intro h
    obtain ⟨k', hk', heq⟩ := mem_map.mp h
    injection heq with hk hv
    subst hk hv
    obtain ⟨v, hv⟩ := Option.isSome_iff_exists.mp (hmem.mp hk')
    exact hv.trans (congrArg some (by rw [show m.table.lookup k' = some v from hv]; rfl))
  · intro h
    refine mem_map.mpr ⟨k, hmem.mpr (by rw [h]; rfl), ?_⟩
    rw [show m.table.lookup k = some v from h]
    rfl

theorem Frozen.short_ordered : ∀ e ∈ m.ordered, Short e.1 ∧ Short e.2 := by
  rintro ⟨k, v⟩ he
  exact m.short ⟨k, v⟩ (AList.mem_lookup_iff.mp (Frozen.mem_ordered.mp he))

theorem Frozen.keys_perm (h : m.get = n.get) : m.table.keys.Perm n.table.keys := by
  refine (perm_ext_iff_of_nodup m.table.keys_nodup n.table.keys_nodup).mpr fun k => ?_
  have hk := congrArg (fun f : Map => (f k).isSome = true) h
  exact AList.lookup_isSome.symm.trans (hk.to_iff.trans AList.lookup_isSome)

theorem Frozen.ordered_eq (h : m.get = n.get) : m.ordered = n.ordered := by
  have hlookup : ∀ k, m.table.lookup k = n.table.lookup k := fun k => congrFun h k
  rw [ordered, ordered, StableSort.sortBy_eq_of_perm ranks_bytewise bytewise_antisymm (keys_perm h)]
  simp only [hlookup]

theorem Frozen.tableEq_iff : m.tableEq n = true ↔ m.get = n.get := by
  simp only [tableEq, Bool.and_eq_true, beq_iff_eq, all_eq_true]
  constructor
  · rintro ⟨hlen, hall⟩
    have hfound : ∀ k v, m.get k = some v → n.get k = some v := by
      intro k v hv
      exact hall ⟨k, v⟩ (AList.mem_lookup_iff.mp hv)
    have hsub : m.table.keys ⊆ n.table.keys := by
      intro k hk
      obtain ⟨v, hv⟩ := Option.isSome_iff_exists.mp (AList.lookup_isSome.mpr hk)
      exact AList.lookup_isSome.mp (Option.isSome_iff_exists.mpr ⟨v, hfound k v hv⟩)
    -- as many keys, and all of them there: no key of the other map is left
    have hperm := (m.table.keys_nodup.subperm hsub).perm_of_length_le hlen.ge
    funext k
    by_cases hk : k ∈ m.table.keys
    · obtain ⟨v, hv⟩ := Option.isSome_iff_exists.mp (AList.lookup_isSome.mpr hk)
      exact (show m.get k = some v from hv).trans (hfound k v hv).symm
    · have hk' : k ∉ n.table.keys := fun hmem => hk (hperm.mem_iff.mpr hmem)
      exact (AList.lookup_eq_none.mpr hk).trans (AList.lookup_eq_none.mpr hk').symm
  · intro h
    refine ⟨(keys_perm h).length_eq, fun e he => ?_⟩
    exact (congrFun h e.1).symm.trans (AList.mem_lookup_iff.mpr he)

/-- The bytes that are hashed are the same for two maps, and `==` holds of them, just when they are
the same finite map. -/
theorem hashInput_iff (m n : Frozen) :
    (m.hashInput = n.hashInput ↔ m.get = n.get) ∧ (m.tableEq n = true ↔ m.get = n.get) := by
  refine ⟨⟨fun h => ?_, fun h => ?_⟩, Frozen.tableEq_iff⟩
  · rw [Frozen.hashInput_eq, Frozen.hashInput_eq] at h
    have hentries := delimits_entryBytes.flatMap_inj entryBytes_ne_nil Frozen.short_ordered
      Frozen.short_ordered h
    funext k
    refine Option.ext fun v => ?_
    rw [← Frozen.mem_ordered, ← Frozen.mem_ordered, hentries]
  · rw [Frozen.hashInput_eq, Frozen.hashInput_eq, Frozen.ordered_eq h]
end AxisBridge.HMap
