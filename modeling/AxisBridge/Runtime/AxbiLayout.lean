import AxisBridge.Runtime.Axbi

/-! Whole bundles as the two readers of `.coreir` bytes take them, and the fronts at which the
runtime's reader stops without its gate. -/
namespace AxisBridge.Axbi
open List Codec

/-- The parts of a bundle as they are written. -/
structure Layout where
  pool : List ConstantPoolEntry
  nodeCount : UInt64
  nodes : List RawNode
  result : UInt64

def writePool (pool : List ConstantPoolEntry) : Bytes :=
  writeVarint (.ofNat pool.length) ++ encodeAll writeEntry pool

def Layout.encode (l : Layout) : Bytes :=
  writePool l.pool ++
    (writeVarint l.nodeCount ++ (encodeAll RawNode.encode l.nodes ++ writeVarint l.result))

def Layout.bundle (l : Layout) : CoreBundle where
  version := "0.6"
  constantPool := l.pool
  nodes := l.nodes.map RawNode.node
  result := refOf l.result

/-- The counts and the references hold as they are written. -/
structure Layout.Exact (l : Layout) : Prop where
  count : l.nodes.length = l.nodeCount.toNat
  nodes : AllFrom (RawNode.Exact l.pool.length) 0 l.nodes
  result : CodeInRange l.nodeCount.toNat l.pool.length l.result

/-- The counts and the references hold when they are cut to 32 bits. -/
structure Layout.Narrow (l : Layout) : Prop where
  count : l.nodes.length = l.nodeCount.toUInt32.toNat
  nodes : AllFrom (RawNode.Narrow (asU32 l.pool.length).toNat) 0 l.nodes
  result : (refOf l.result).InRange l.nodeCount.toUInt32.toNat (asU32 l.pool.length).toNat

/-- The vectors of the tree are granted. -/
structure Layout.Granted (room : ℕ) (l : Layout) : Prop where
  pool : l.pool.length ≤ mostValues room
  nodes : l.nodeCount.toNat ≤ mostValues room
  args : ∀ raw ∈ l.nodes, raw.argCount ≤ mostValues room

/-- Fronts that declare too much: a count above `limit`, or a length that wraps around. -/
inductive Oversize (limit : ℕ) : Bytes → Prop
  | pool {n : UInt64} (hgt : limit < n.toNat) : Oversize limit (writeVarint n)
  | payload {count n : UInt64} {entries : List ConstantPoolEntry} {defHash : Hash256} {w : Bytes}
      (hlt : entries.length < count.toNat)
      (hw : w =
        writeVarint count ++ (encodeAll writeEntry entries ++ (defHash.bytes ++ writeVarint n)))
      (hwrap : 2 ^ 64 ≤ w.length + n.toNat) : Oversize limit w
  | nodes {pool : List ConstantPoolEntry} {n : UInt64} (hgt : limit < n.toNat) :
      Oversize limit (writePool pool ++ writeVarint n)
  | name {pool : List ConstantPoolEntry} {nodeCount n : UInt64} {nodes : List RawNode} {w : Bytes}
      (hlt : nodes.length < nodeCount.toUInt32.toNat)
      (hnodes : AllFrom (RawNode.Narrow (asU32 pool.length).toNat) 0 nodes)
      (hw : w = writePool pool ++ (writeVarint nodeCount ++ (encodeAll RawNode.encode nodes ++
        (writeVarint 0 ++ writeVarint n))))
      (hwrap : 2 ^ 64 ≤ w.length + n.toNat) : Oversize limit w
  | args {pool : List ConstantPoolEntry} {nodeCount n : UInt64} {nodes : List RawNode} {name : Str}
      {targetIdentity : Hash256} (hlt : nodes.length < nodeCount.toUInt32.toNat)
      (hnodes : AllFrom (RawNode.Narrow (asU32 pool.length).toNat) 0 nodes)
        (hgt : limit < n.toNat) :
      Oversize limit (writePool pool ++ (writeVarint nodeCount ++ (encodeAll RawNode.encode nodes ++
        (writeVarint 0 ++ (writeName name ++ (targetIdentity.bytes ++ writeVarint n))))))

variable {b : Bytes}

theorem ofNat_eq {n : ℕ} {v : UInt64} (h : n = v.toNat) : .ofNat n = v := by
  rw [h, UInt64.ofNat_toNat]

theorem toNat_ofNat_of_lt {n : ℕ} (h : n < 2 ^ 64) : (UInt64.ofNat n).toNat = n := by
  rw [UInt64.toNat_ofNat', Nat.mod_eq_of_lt h]

theorem length_le_encodeAll {ρ : Type} {encode : ρ → Bytes} (h : ∀ r, 0 < (encode r).length)
    (rs : List ρ) : rs.length ≤ (encodeAll encode rs).length := by
  induction rs with
  | nil => exact Nat.zero_le _
  | cons r rs ih =>
    have hr := h r
    rw [length_encodeAll_cons, length_cons]
    omega

theorem length_encodeAll_of_mem {ρ : Type} {encode : ρ → Bytes} {r : ρ} {rs : List ρ}
    (h : r ∈ rs) : (encode r).length ≤ (encodeAll encode rs).length := by
  induction rs with
  | nil => cases h
  | cons r' rs ih =>
    rw [length_encodeAll_cons]
    rcases mem_cons.mp h with rfl | h
    · omega
    · have := ih h
      omega

theorem writeVarint_pos (v : UInt64) : 0 < (writeVarint v).length := by
  unfold writeVarint
  split
  · exact Nat.one_pos
  · exact Nat.succ_pos _

theorem writeEntry_pos (entry : ConstantPoolEntry) : 0 < (writeEntry entry).length := by
  have h := entry.defHash.length_eq
  rw [writeEntry, length_append]
  omega

theorem RawNode.argCount_le (raw : RawNode) : raw.argCount ≤ raw.encode.length := by
  cases raw with
  | ccall targetIdentity args targetName =>
    have h := length_le_encodeAll writeVarint_pos args.toList
    simp only [RawNode.argCount, RawNode.encode, RawNode.body, length_append]
    omega
  | _ => exact Nat.zero_le _

theorem length_writePool (pool : List ConstantPoolEntry) :
    pool.length ≤ (writePool pool).length := by
  have h := length_le_encodeAll writeEntry_pos pool
  rw [writePool, length_append]
  omega

/-- What the strict reader takes for a bundle. -/
theorem derives_readBundle (hb : b.length < 2 ^ 63) :
    Derives b readBundle (Coded Layout.encode Layout.bundle Layout.Exact) := by
  have hentry : ∀ _ : ℕ, Derives b readEntry (Coded writeEntry id fun _ => True) :=
    fun _ => .coded reads_entry exact_entry
  refine (derives_varint.bind fun poolCount =>
    (Derives.collect hentry 0 poolCount.toNat).bind fun pool =>
    derives_varint.bind fun nodeCount =>
      (Derives.collect (derives_readNode poolCount.toNat) 0 nodeCount.toNat).bind fun nodes =>
        (derives_noderef nodeCount.toNat poolCount.toNat).bind fun result => Derives.pure _).congr
          fun w y hfits => ⟨?_, ?_⟩
  · rintro ⟨_, _, _, rfl, ⟨poolCount, -, rfl, rfl⟩, _, _, _, rfl, ⟨pool, ⟨hpool, -⟩, rfl, rfl⟩, _,
      _, _, rfl,
      ⟨nodeCount, -, rfl, rfl⟩, _, _, _, rfl, ⟨nodes, ⟨hnodes, hall⟩, rfl, rfl⟩, _, _, _, rfl,
      ⟨result, hresult, rfl, rfl⟩, rfl, rfl⟩
    refine ⟨⟨pool, _, nodes, result⟩, ⟨hnodes, hpool ▸ hall, hpool ▸ hresult⟩, ?_, ?_⟩
    · simp [Layout.encode, writePool, ofNat_eq hpool]
    · rw [map_id]
      rfl
  · rintro ⟨⟨pool, nodeCount, nodes, result⟩, ⟨hcount, hall, hresult⟩, rfl, rfl⟩
    have hlt : pool.length < 2 ^ 64 := by
      have h := length_writePool pool
      simp only [Layout.encode, length_append] at hfits
      omega
    have hpool := toNat_ofNat_of_lt hlt
    refine ⟨.ofNat pool.length, _, _, append_assoc .., ⟨_, trivial, rfl, rfl⟩, pool, _, _, rfl,
      ⟨pool, ⟨hpool.symm, allFrom_const.mpr fun _ _ => trivial⟩, rfl, (map_id _).symm⟩, nodeCount,
      _, _, rfl,
      ⟨_, trivial, rfl, rfl⟩, _, _, _, rfl, ⟨nodes, ⟨hcount, hpool.symm ▸ hall⟩, rfl, rfl⟩, _, _,
      [], (append_nil _).symm, ⟨result, hpool.symm ▸ hresult, rfl, rfl⟩, rfl, rfl⟩

theorem toNat_asU32_of_lt {i n : ℕ} {v : UInt32} (h : i < n) (hn : n ≤ v.toNat) :
    (asU32 i).toNat = i := by
  have hlt := UInt32.toNat_lt v
  exact toNat_asU32 (by omega)

theorem toUInt32_of_eq {n : ℕ} {v : UInt64} (h : n = v.toNat) : v.toUInt32 = asU32 n := by
  apply UInt32.toNat_inj.mp
  rw [h, asU32, UInt32.toNat_ofNat', UInt64.toNat_toUInt32]

variable {internTag : String → UInt32} {room : ℕ} {poolLen : UInt32}

/-- The nodes of a loop whose count is a 32-bit number. -/
theorem allFrom_nodes {rs : List RawNode} {count : UInt32} (hlen : rs.length ≤ count.toNat) :
    AllFrom (fun j raw => raw.Narrow poolLen.toNat (asU32 j).toNat ∧ raw.argCount ≤ mostValues room)
      0 rs ↔
      AllFrom (RawNode.Narrow poolLen.toNat) 0 rs ∧ ∀ raw ∈ rs, raw.argCount ≤ mostValues room := by
  have hidx : ∀ {k : ℕ} {raw : RawNode}, rs[k]? = some raw → (asU32 (0 + k)).toNat = 0 + k := by
    intro k raw hk
    obtain ⟨hlt, -⟩ := List.getElem?_eq_some_iff.mp hk
    rw [zero_add]
    exact toNat_asU32_of_lt hlt hlen
  constructor
  · intro h
    refine ⟨fun k raw hk => ?_, fun raw hraw => ?_⟩
    · have hnarrow := (h k raw hk).1
      rwa [hidx hk] at hnarrow
    · obtain ⟨k, hk⟩ := mem_iff_getElem?.mp hraw
      exact (h k raw hk).2
  · rintro ⟨hnarrow, hargs⟩ k raw hk
    rw [hidx hk]
    exact ⟨hnarrow k raw hk, hargs raw (mem_of_getElem? hk)⟩

/-- What the runtime's reader takes for a bundle. -/
theorem derives_parseCanonical (internTag : String → UInt32) (room : ℕ) (hb : b.length < 2 ^ 63) :
    Derives b (parseCanonical internTag room) (Coded Layout.encode
      (fun l => bundleValue internTag l.bundle) fun l => l.Narrow ∧ l.Granted room) := by
  refine
    (derives_readVarint.bind fun poolCount => (derives_withCapacity room poolCount).bind fun _ =>
    (Derives.collect (fun _ => derives_readPoolEntry hb) 0 poolCount.toNat).bind fun pool =>
      derives_readVarint.bind fun nodeCount => (derives_withCapacity room nodeCount).bind fun _ =>
        (Derives.collect (fun _ => derives_readNodeValue hb) 0 nodeCount.toUInt32.toNat).bind
          fun nodes =>
          (derives_readEdge nodeCount.toUInt32 poolCount.toUInt32).bind fun result =>
            Derives.pure _).congr fun w y hfits => ⟨?_, ?_⟩
  · rintro ⟨_, _, _, rfl, ⟨poolCount, -, rfl, rfl⟩, _, _, _, rfl, ⟨rfl, hgrant⟩, _, _, _, rfl,
      ⟨pool, ⟨hpool, -⟩, rfl, rfl⟩, _, _, _, rfl, ⟨nodeCount, -, rfl, rfl⟩, _, _, _, rfl,
      ⟨rfl, hgrant'⟩,
      _, _, _, rfl, ⟨nodes, ⟨hnodes, hall⟩, rfl, rfl⟩, _, _, _, rfl, ⟨result, hresult, rfl, rfl⟩,
        rfl, rfl⟩
    obtain ⟨hnarrow, hargs⟩ := (allFrom_nodes hnodes.le).mp hall
    rw [toUInt32_of_eq hpool] at hnarrow hresult
    refine ⟨⟨pool, _, nodes, result⟩,
      ⟨⟨hnodes, hnarrow, hresult⟩, ⟨hpool.trans_le hgrant, hgrant', hargs⟩⟩, ?_, ?_⟩
    · simp [Layout.encode, writePool, ofNat_eq hpool]
    · simp only [bundleValue, Layout.bundle, map_map]
      rfl
  · rintro ⟨⟨pool, nodeCount, nodes, result⟩, ⟨⟨hcount, hall, hresult⟩, ⟨hgrant, hgrant', hargs⟩⟩,
      rfl, rfl⟩
    have hlt : pool.length < 2 ^ 64 := by
      have h := length_writePool pool
      simp only [Layout.encode, length_append] at hfits
      omega
    have hpool := toNat_ofNat_of_lt hlt
    rw [← toUInt32_of_eq hpool.symm] at hall hresult
    refine ⟨.ofNat pool.length, _, _, append_assoc .., ⟨_, trivial, rfl, rfl⟩, (), [], _, rfl,
      ⟨rfl, hpool.trans_le hgrant⟩, _, _, _, rfl,
      ⟨pool, ⟨hpool.symm, allFrom_const.mpr fun _ _ => trivial⟩, rfl, rfl⟩, nodeCount, _, _, rfl,
      ⟨_, trivial, rfl, rfl⟩, (), [], _, rfl, ⟨rfl, hgrant'⟩, _, _, _, rfl,
      ⟨nodes, ⟨hcount, (allFrom_nodes hcount.le).mpr ⟨hall, hargs⟩⟩, rfl, rfl⟩, _, _, [],
      (append_nil _).symm, ⟨result, hresult, rfl, rfl⟩, rfl, ?_⟩
    simp only [bundleValue, Layout.bundle, map_map]
    rfl

theorem Oversize.mono {limit limit' : ℕ} {w : Bytes} (h : Oversize limit w)
    (hle : limit' ≤ limit) : Oversize limit' w := by
  cases h with
  | pool hgt => exact .pool (by omega)
  | payload hlt hw hwrap => exact .payload hlt hw hwrap
  | nodes hgt => exact .nodes (by omega)
  | name hlt hnodes hw hwrap => exact .name hlt hnodes hw hwrap
  | args hlt hnodes hgt => exact .args hlt hnodes (by omega)

theorem allFrom_true {ρ : Type} (rs : List ρ) : AllFrom (fun _ _ => True) 0 rs :=
  allFrom_const.mpr fun _ _ => trivial

/-- A pool at the front of the input can be counted, and its vector is granted. -/
theorem pool_of_front (hb : b.length < 2 ^ 63) (hroom : b.length ≤ mostValues room)
    {pool : List ConstantPoolEntry} {rest : Bytes} (h : writePool pool ++ rest <+: b) :
    (UInt64.ofNat pool.length).toNat = pool.length ∧
      (UInt64.ofNat pool.length).toNat ≤ mostValues room := by
  have hlen := h.length_le
  have hpool := length_writePool pool
  rw [length_append] at hlen
  have hcount := toNat_ofNat_of_lt (show pool.length < 2 ^ 64 by omega)
  omega

theorem args_of_front (hroom : b.length ≤ mostValues room) {nodes : List RawNode}
    {before rest : Bytes} (h : before ++ (encodeAll RawNode.encode nodes ++ rest) <+: b) :
    ∀ raw ∈ nodes, raw.argCount ≤ mostValues room := by
  intro raw hraw
  have hlen := h.length_le
  have hargs := raw.argCount_le
  have hnode : raw.encode.length ≤ (encodeAll RawNode.encode nodes).length :=
    length_encodeAll_of_mem hraw
  simp only [length_append] at hlen
  omega

/-- The runtime's reader stops without its gate exactly at a front that declares too much. -/
theorem stops_iff (internTag : String → UInt32) (hb : b.length < 2 ^ 63)
    (hroom : b.length ≤ mostValues room) :
    (∃ e : Halt, e.Bad ∧ parseCanonical internTag room ⟨b, 0⟩ = .error e) ↔
      ∃ w, Oversize (mostValues room) w ∧ w <+: b := by
  have hfaults : Faults b Halt.Bad (parseCanonical internTag room) _ :=
    faults_readVarint.behind derives_readVarint fun poolCount =>
      (faults_withCapacity room poolCount).guard (derives_withCapacity room poolCount)
        ((Faults.collect (fun _ => derives_readPoolEntry hb) (fun _ => faults_readPoolEntry hb) 0
          poolCount.toNat).coded
            (Derives.collect (fun _ => derives_readPoolEntry hb) 0 poolCount.toNat) fun pool =>
            faults_readVarint.behind derives_readVarint fun nodeCount =>
              (faults_withCapacity room nodeCount).guard (derives_withCapacity room nodeCount)
                ((Faults.collect (fun _ => derives_readNodeValue hb)
                  (fun _ => faults_readNodeValue hb) 0 nodeCount.toUInt32.toNat).front
                    (Derives.collect (fun _ => derives_readNodeValue hb) 0 nodeCount.toUInt32.toNat)
                      fun nodes =>
                      (faults_readEdge nodeCount.toUInt32 poolCount.toUInt32).front
                        (derives_readEdge nodeCount.toUInt32 poolCount.toUInt32) fun result =>
                          Faults.pure _))
  have hstart := hfaults ⟨b, 0⟩ rfl (Nat.zero_le _)
  constructor
  · intro hstop
    obtain ⟨w, ⟨poolCount, _, -, rfl, hw⟩, hfront⟩ := hstart.mp hstop
    refine ⟨_, ?_, hfront⟩
    rcases hw with ⟨rfl, hgt⟩ | ⟨-,
      ⟨entries, _, hlt, -, rfl, h, n, rfl, hwrap⟩ | ⟨pool, _, ⟨hpool, -⟩, rfl, hw⟩⟩
    · rw [append_nil]
      exact .pool hgt
    · refine .payload hlt rfl ?_
      simp only [length_append] at hwrap ⊢
      omega
    · have hcount : .ofNat pool.length = poolCount := ofNat_eq hpool
      rw [← append_assoc, ← hcount]
      obtain ⟨nodeCount, _, -, rfl, ⟨rfl, hgt⟩ | ⟨-, nodes, _, hlt, hall, rfl, _, rfl, hcall⟩⟩ := hw
      · rw [append_nil]
        exact .nodes hgt
      · obtain ⟨hnarrow, -⟩ := (allFrom_nodes hlt.le).mp hall
        rw [toUInt32_of_eq hpool] at hnarrow
        rcases hcall with ⟨n, rfl, hwrap⟩ | ⟨name, h, n, hgt, rfl⟩
        · refine .name hlt hnarrow rfl ?_
          rw [← hcount] at hwrap
          simp only [length_append] at hwrap ⊢
          omega
        · exact .args hlt hnarrow hgt
  · have hcalls : ∀ {pool : List ConstantPoolEntry} {nodeCount : UInt64}
        {nodes : List RawNode} {w : Bytes}, nodes.length < nodeCount.toUInt32.toNat →
        AllFrom (RawNode.Narrow (asU32 pool.length).toNat) 0 nodes →
        CallFault room ((writePool pool).length + (writeVarint nodeCount).length +
        (encodeAll RawNode.encode nodes).length + (writeVarint 0).length) w → writePool pool ++
        (writeVarint nodeCount ++ (encodeAll RawNode.encode nodes ++ (writeVarint 0 ++ w))) <+: b →
        ∃ e : Halt, e.Bad ∧ parseCanonical internTag room ⟨b, 0⟩ = .error e := by
      intro pool nodeCount nodes w hlt hnodes hcall hfront
      obtain ⟨hpool, hgrant⟩ := pool_of_front hb hroom hfront
      rcases lt_or_ge (mostValues room) nodeCount.toNat with hgt | hgrant'
      · refine hstart.mpr ⟨_,
          ⟨.ofNat pool.length, _, trivial, append_assoc .., .inr ⟨hgrant, .inr ⟨pool, _,
          ⟨hpool.symm, allFrom_true _⟩, rfl, nodeCount, [], trivial, rfl, .inl ⟨rfl, hgt⟩⟩⟩⟩, ?_⟩
        rw [append_nil]
        exact ((prefix_append_right_inj _).mpr (prefix_append _ _)).trans hfront
      · have hargs := args_of_front hroom (by rwa [← append_assoc] at hfront)
        rw [← toUInt32_of_eq hpool.symm] at hnodes
        rw [writePool, length_append, ← zero_add (writeVarint _).length] at hcall
        exact hstart.mpr ⟨_,
          ⟨.ofNat pool.length, _, trivial, append_assoc .., .inr ⟨hgrant, .inr ⟨pool, _,
          ⟨hpool.symm, allFrom_true _⟩, rfl, nodeCount, _, trivial, rfl, .inr ⟨hgrant', nodes, _,
            hlt, (allFrom_nodes hlt.le).mpr ⟨hnodes, hargs⟩, rfl, w, rfl, hcall⟩⟩⟩⟩, hfront⟩
    rintro ⟨w, hover, hfront⟩
    cases hover with
    | @pool n hgt =>
      exact hstart.mpr ⟨_, ⟨n, [], trivial, (append_nil _).symm, .inl ⟨rfl, hgt⟩⟩, hfront⟩
    | @payload count n entries h _ hlt hw hwrap =>
      subst hw
      rcases lt_or_ge (mostValues room) count.toNat with hgt | hgrant
      · refine hstart.mpr ⟨_, ⟨count, [], trivial, (append_nil _).symm, .inl ⟨rfl, hgt⟩⟩, ?_⟩
        exact (prefix_append _ _).trans hfront
      · refine hstart.mpr ⟨_, ⟨count, _, trivial, rfl,
          .inr ⟨hgrant, .inl ⟨entries, _, hlt, allFrom_true _, rfl, h, n, rfl, ?_⟩⟩⟩, hfront⟩
        simp only [length_append] at hwrap ⊢
        omega
    | @nodes pool n hgt =>
      obtain ⟨hpool, hgrant⟩ := pool_of_front hb hroom hfront
      exact hstart.mpr ⟨_,
        ⟨.ofNat pool.length, _, trivial, append_assoc .., .inr ⟨hgrant, .inr ⟨pool, _,
        ⟨hpool.symm, allFrom_true _⟩, rfl, n, [], trivial, (append_nil _).symm, .inl ⟨rfl, hgt⟩⟩⟩⟩,
          hfront⟩
    | @name pool nodeCount n nodes _ hlt hnodes hw hwrap =>
      subst hw
      refine hcalls hlt hnodes (.inl ⟨n, rfl, ?_⟩) hfront
      simp only [length_append] at hwrap ⊢
      omega
    | @args pool nodeCount n nodes name h hlt hnodes hgt =>
      exact hcalls hlt hnodes (.inr ⟨name, h, n, hgt, rfl⟩) hfront

end AxisBridge.Axbi
