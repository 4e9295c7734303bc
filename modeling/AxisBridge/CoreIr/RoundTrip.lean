import AxisBridge.CoreIr.CanonicalSpec

/-! The canonical bytes and the bundle determine each other. -/
namespace AxisBridge
open List Codec Node
open UInt64 (toNat_inj ofNat toNat_ofNat' ofNat_toNat)

/-- The varint a reference is written as. -/
def NodeRef.code : NodeRef → UInt64
  | .node i => i.toUInt64 <<< 1
  | .pool i => i.toUInt64 <<< 1 ||| 1

theorem writeNoderef_eq (r : NodeRef) : writeNoderef r = writeVarint r.code := by
  cases r <;> rfl

theorem toNat_double (i : UInt32) : (i.toUInt64 <<< 1).toNat = 2 * i.toNat := by
  have hlt := UInt32.toNat_lt i
  rw [UInt64.toNat_shiftLeft, UInt32.toNat_toUInt64, Nat.shiftLeft_eq]
  simp only [UInt64.reduceToNat, Nat.reduceMod, pow_one]
  omega

theorem toNat_code_node (i : UInt32) : (NodeRef.node i).code.toNat = 2 * i.toNat := toNat_double i

theorem toNat_code_pool (i : UInt32) : (NodeRef.pool i).code.toNat = 2 * i.toNat + 1 := by
  have hor : 2 ^ 1 * i.toNat + 1 = 2 ^ 1 * i.toNat ||| 1 :=
    Nat.two_pow_add_eq_or_of_lt (by norm_num) i.toNat
  show (i.toUInt64 <<< 1 ||| 1).toNat = _
  rw [UInt64.toNat_or, toNat_double]
  exact hor.symm

theorem toNat_half (v : UInt64) : (v >>> 1).toNat = v.toNat / 2 := by
  simp [UInt64.toNat_shiftRight, Nat.shiftRight_eq_div_pow]

theorem and_one_eq (v : UInt64) : v &&& 1 = 1 ↔ v.toNat % 2 = 1 := by
  rw [← toNat_inj, UInt64.toNat_and]
  show v.toNat &&& 1 = 1 ↔ _
  rw [Nat.and_one_is_mod]

theorem toNat_index (v : UInt64) : (v >>> 1).toUInt32.toNat = v.toNat / 2 % 2 ^ 32 := by
  rw [UInt64.toNat_toUInt32, toNat_half]

variable {nodes pool i : ℕ} {c c' : Cursor UInt8} {r : NodeRef} {node : Node} {b : CoreBundle}

/-- What a reference's varint stands for, in the ranges given. -/
theorem noderef_eq : noderef nodes pool c = .ok (r, c') ↔ ∃ v, varint c = .ok (v, c') ∧
    ((v.toNat % 2 = 1 ∧ v.toNat / 2 < pool ∧ r = .pool (v >>> 1).toUInt32) ∨
    (v.toNat % 2 = 0 ∧ v.toNat / 2 < nodes ∧ r = .node (v >>> 1).toUInt32)) := by
  unfold noderef
  rw [bind_eq_ok]
  constructor
  · rintro ⟨v, c1, hv, hrest⟩
    by_cases hodd : v &&& 1 = 1
    · by_cases hlt : v.toNat / 2 < pool
      · rw [if_pos hodd, if_neg (by rw [toNat_half]; omega)] at hrest
        obtain ⟨rfl, rfl⟩ := pure_eq_ok.mp hrest
        exact ⟨v, hv, .inl ⟨(and_one_eq v).mp hodd, hlt, rfl⟩⟩
      · rw [if_pos hodd, if_pos (by rw [toNat_half]; omega)] at hrest
        cases hrest
    · have heven : v.toNat % 2 = 0 := by
        have := (and_one_eq v).not.mp hodd
        omega
      by_cases hlt : v.toNat / 2 < nodes
      · rw [if_neg hodd, if_neg (by rw [toNat_half]; omega)] at hrest
        obtain ⟨rfl, rfl⟩ := pure_eq_ok.mp hrest
        exact ⟨v, hv, .inr ⟨heven, hlt, rfl⟩⟩
      · rw [if_neg hodd, if_pos (by rw [toNat_half]; omega)] at hrest
        cases hrest
  · rintro ⟨v, hv, ⟨hodd, hlt, rfl⟩ | ⟨heven, hlt, rfl⟩⟩
    · refine ⟨v, c', hv, ?_⟩
      rw [if_pos ((and_one_eq v).mpr hodd), if_neg (by rw [toNat_half]; omega)]
      rfl
    · refine ⟨v, c', hv, ?_⟩
      rw [if_neg (fun h => by have := (and_one_eq v).mp h; omega),
        if_neg (by rw [toNat_half]; omega)]
      rfl

theorem reads_noderef (h : r.InRange nodes pool) :
    Reads (noderef nodes pool) (writeNoderef r) r := by
  intro c c' hspan
  rw [writeNoderef_eq] at hspan
  rw [noderef_eq]
  refine ⟨r.code, reads_varint _ c c' hspan, ?_⟩
  cases r with
  | node i =>
    have hcode := toNat_code_node i
    have hlt : i.toNat < nodes := h
    refine .inr ⟨by omega, by omega, congrArg _ (UInt32.toNat_inj.mp ?_)⟩
    have := UInt32.toNat_lt i
    rw [toNat_index, hcode]
    omega
  | pool i =>
    have hcode := toNat_code_pool i
    have hlt : i.toNat < pool := h
    refine .inl ⟨by omega, by omega, congrArg _ (UInt32.toNat_inj.mp ?_)⟩
    have := UInt32.toNat_lt i
    rw [toNat_index, hcode]
    omega

theorem noderef_inRange (h : noderef nodes pool c = .ok (r, c')) : r.InRange nodes pool := by
  obtain ⟨v, -, ⟨-, hlt, rfl⟩ | ⟨-, hlt, rfl⟩⟩ := noderef_eq.mp h
  · exact lt_of_le_of_lt ((toNat_index v).le.trans (Nat.mod_le _ _)) hlt
  · exact lt_of_le_of_lt ((toNat_index v).le.trans (Nat.mod_le _ _)) hlt

/-- Below `2 ^ 32` no index is truncated, so the varint is the reference's own. -/
theorem exact_noderef (hn : nodes ≤ 2 ^ 32) (hp : pool ≤ 2 ^ 32) :
    Exact (noderef nodes pool) writeNoderef := by
  intro c r c' hok
  obtain ⟨v, hv, hr⟩ := noderef_eq.mp hok
  have hcode : v = r.code := by
    apply toNat_inj.mp
    have hidx := toNat_index v
    rcases hr with ⟨hodd, hlt, rfl⟩ | ⟨heven, hlt, rfl⟩
    · rw [toNat_code_pool]
      omega
    · rw [toNat_code_node]
      omega
  rw [writeNoderef_eq, ← hcode]
  exact exact_varint c v c' hv

theorem Vec.length_lt_two_pow_64 {α : Type} (v : Vec α) : v.toList.length < 2 ^ 64 :=
  lt_trans v.length_lt (by norm_num)

theorem reads_entry (entry : ConstantPoolEntry) : Reads readEntry (writeEntry entry) entry := by
  intro c c' hspan
  obtain ⟨c1, h1, h2⟩ := hspan.split
  obtain ⟨n, c2, hn, htake⟩ := reads_bytes entry.payload.length_lt_two_pow_64 h2
  refine bind_eq_ok.mpr ⟨entry.defHash, c1, reads_hash _ c c1 h1, ?_⟩
  refine bind_eq_ok.mpr ⟨n, c2, hn, bind_eq_ok.mpr ⟨_, c', htake, ?_⟩⟩
  exact bind_eq_ok.mpr ⟨entry.payload, c', ofRes_eq_ok.mpr ⟨toVec_eq_ok.mpr rfl, rfl⟩, rfl⟩

theorem exact_entry : Exact readEntry writeEntry := by
  intro c entry c' hok
  obtain ⟨h, c1, hh, hok1⟩ := bind_eq_ok.mp hok
  obtain ⟨n, c2, hn, hok2⟩ := bind_eq_ok.mp hok1
  obtain ⟨w, c3, htake, hok3⟩ := bind_eq_ok.mp hok2
  obtain ⟨payload, c4, hvec, hok4⟩ := bind_eq_ok.mp hok3
  obtain ⟨hw, rfl⟩ := ofRes_eq_ok.mp hvec
  obtain ⟨rfl, rfl⟩ := pure_eq_ok.mp hok4
  rw [toVec_eq_ok] at hw
  subst hw
  exact (exact_hash c h c1 hh).trans (exact_bytes hn htake)

theorem Str.length_asBytes (s : Str) : s.asBytes.length < 2 ^ 63 := s.size_lt

theorem reads_name (s : Str) : Reads readName (writeBytes s.asBytes) s := by
  intro c c' hspan
  obtain ⟨n, c1, hn, htake⟩ := reads_bytes (lt_trans s.length_asBytes (by norm_num)) hspan
  refine bind_eq_ok.mpr ⟨n, c1, hn, bind_eq_ok.mpr ⟨_, c', htake, ?_⟩⟩
  refine bind_eq_ok.mpr ⟨⟨s.asBytes, s.length_asBytes⟩, c', ?_, ?_⟩
  · exact ofRes_eq_ok.mpr ⟨toVec_eq_ok.mpr rfl, rfl⟩
  · exact ofRes_eq_ok.mpr ⟨fromUtf8_eq_ok.mpr rfl, rfl⟩

theorem exact_name : Exact readName fun s => writeBytes s.asBytes := by
  intro c s c' hok
  obtain ⟨n, c1, hn, hok1⟩ := bind_eq_ok.mp hok
  obtain ⟨w, c2, htake, hok2⟩ := bind_eq_ok.mp hok1
  obtain ⟨v, c3, hvec, hok3⟩ := bind_eq_ok.mp hok2
  obtain ⟨hw, rfl⟩ := ofRes_eq_ok.mp hvec
  obtain ⟨hs, rfl⟩ := ofRes_eq_ok.mp hok3
  rw [toVec_eq_ok] at hw
  rw [fromUtf8_eq_ok] at hs
  subst hw
  show Spans c c' (writeBytes s.asBytes)
  rw [← hs]
  exact exact_bytes hn htake

/-- The references a node is written with are in range where the node stands. -/
def Node.InRange (nodes pool : ℕ) (node : Node) : Prop := ∀ r ∈ node.refs, r.InRange nodes pool

theorem reads_node (h : node.InRange i pool) : Reads (readNode pool i) (writeNode node) node := by
  intro c c' hspan
  cases node with
  | ccall targetIdentity args targetName =>
    obtain ⟨c1, h1, hspan⟩ := hspan.split
    obtain ⟨c2, h2, hspan⟩ := hspan.split
    obtain ⟨c3, h3, hspan⟩ := hspan.split
    obtain ⟨c4, h4, h5⟩ := hspan.split
    have hargs : Reads (collect (fun _ => noderef i pool) 0 args.toList.length)
        (encodeAll writeNoderef args.toList) args.toList := by
      apply Reads.collect
      intro k r hr
      exact reads_noderef (h r (mem_append_left _ (mem_of_getElem? hr)))
    have hlen : (ofNat args.toList.length).toNat = args.toList.length := by
      rw [toNat_ofNat', Nat.mod_eq_of_lt args.length_lt_two_pow_64]
    refine bind_eq_ok.mpr ⟨0, c1, reads_varint 0 c c1 h1, ?_⟩
    refine bind_eq_ok.mpr ⟨targetName, c2, reads_name _ c1 c2 h2, ?_⟩
    refine bind_eq_ok.mpr ⟨targetIdentity, c3, reads_hash _ c2 c3 h3, ?_⟩
    refine bind_eq_ok.mpr ⟨_, c4, reads_varint _ c3 c4 h4, ?_⟩
    rw [hlen]
    refine bind_eq_ok.mpr ⟨_, c', hargs c4 c' h5, ?_⟩
    exact bind_eq_ok.mpr ⟨args, c', ofRes_eq_ok.mpr ⟨toVec_eq_ok.mpr rfl, rfl⟩, rfl⟩
  | cif cond then_ else_ =>
    obtain ⟨c1, h1, hspan⟩ := hspan.split
    obtain ⟨c2, h2, hspan⟩ := hspan.split
    obtain ⟨c3, h3, h4⟩ := hspan.split
    refine bind_eq_ok.mpr ⟨1, c1, reads_varint 1 c c1 h1, ?_⟩
    refine bind_eq_ok.mpr ⟨cond, c2, reads_noderef (h cond ?_) c1 c2 h2, ?_⟩
    · simp [refs, reads]
    refine bind_eq_ok.mpr ⟨then_, c3, reads_noderef (h then_ ?_) c2 c3 h3, ?_⟩
    · simp [refs, arms]
    refine bind_eq_ok.mpr ⟨else_, c', reads_noderef (h else_ ?_) c3 c' h4, rfl⟩
    simp [refs, arms]
  | cdeterminate => exact bind_eq_ok.mpr ⟨2, c', reads_varint 2 c c' hspan, rfl⟩
  | cblock => exact bind_eq_ok.mpr ⟨3, c', reads_varint 3 c c' hspan, rfl⟩
  | cend value =>
    obtain ⟨c1, h1, h2⟩ := hspan.split
    refine bind_eq_ok.mpr ⟨4, c1, reads_varint 4 c c1 h1, ?_⟩
    refine bind_eq_ok.mpr ⟨value, c', reads_noderef (h value ?_) c1 c' h2, rfl⟩
    simp [refs, reads]

/-- What the reader of one node did, tag by tag. -/
theorem readNode_eq (hok : readNode pool i c = .ok (node, c')) : ∃ c1,
    (∃ targetName c2 targetIdentity c3 argc c4 args, node = .ccall targetIdentity args targetName ∧
      varint c = .ok (0, c1) ∧ readName c1 = .ok (targetName, c2) ∧
      hash c2 = .ok (targetIdentity, c3) ∧ varint c3 = .ok (argc, c4) ∧
      collect (fun _ => noderef i pool) 0 argc.toNat c4 = .ok (args.toList, c')) ∨
    (∃ cond c2 then_ c3 else_, node = .cif cond then_ else_ ∧ varint c = .ok (1, c1) ∧
      noderef i pool c1 = .ok (cond, c2) ∧ noderef i pool c2 = .ok (then_, c3) ∧
      noderef i pool c3 = .ok (else_, c')) ∨ (node = .cdeterminate ∧ varint c = .ok (2, c')) ∨
    (node = .cblock ∧ varint c = .ok (3, c')) ∨
    (∃ value, node = .cend value ∧ varint c = .ok (4, c1) ∧
      noderef i pool c1 = .ok (value, c')) := by
  obtain ⟨tag, c1, htag, hok⟩ := bind_eq_ok.mp hok
  have hval : ∀ k : UInt64, tag.toNat = k.toNat → varint c = .ok (k, c1) := by
    intro k hk
    rw [htag, toNat_inj.mp hk]
  refine ⟨c1, ?_⟩
  generalize hk : tag.toNat = k at hok
  match k with
  | 0 =>
    obtain ⟨targetName, c2, hname, hok1⟩ := bind_eq_ok.mp hok
    obtain ⟨targetIdentity, c3, hid, hok2⟩ := bind_eq_ok.mp hok1
    obtain ⟨argc, c4, hargc, hok3⟩ := bind_eq_ok.mp hok2
    obtain ⟨xs, c5, hxs, hok4⟩ := bind_eq_ok.mp hok3
    obtain ⟨args, c6, hvec, hok5⟩ := bind_eq_ok.mp hok4
    obtain ⟨hargs, rfl⟩ := ofRes_eq_ok.mp hvec
    obtain ⟨rfl, rfl⟩ := pure_eq_ok.mp hok5
    rw [toVec_eq_ok] at hargs
    subst hargs
    exact .inl ⟨targetName, c2, targetIdentity, c3, argc, c4, args, rfl, hval 0 hk, hname, hid,
      hargc, hxs⟩
  | 1 =>
    obtain ⟨cond, c2, hcond, hok1⟩ := bind_eq_ok.mp hok
    obtain ⟨then_, c3, hthen, hok2⟩ := bind_eq_ok.mp hok1
    obtain ⟨else_, c4, helse, hok3⟩ := bind_eq_ok.mp hok2
    obtain ⟨rfl, rfl⟩ := pure_eq_ok.mp hok3
    exact .inr (.inl ⟨cond, c2, then_, c3, else_, rfl, hval 1 hk, hcond, hthen, helse⟩)
  | 2 =>
    obtain ⟨rfl, rfl⟩ := pure_eq_ok.mp hok
    exact .inr (.inr (.inl ⟨rfl, hval 2 hk⟩))
  | 3 =>
    obtain ⟨rfl, rfl⟩ := pure_eq_ok.mp hok
    exact .inr (.inr (.inr (.inl ⟨rfl, hval 3 hk⟩)))
  | 4 =>
    obtain ⟨value, c2, hvalue, hok1⟩ := bind_eq_ok.mp hok
    obtain ⟨rfl, rfl⟩ := pure_eq_ok.mp hok1
    exact .inr (.inr (.inr (.inr ⟨value, rfl, hval 4 hk, hvalue⟩)))
  | k + 5 => cases hok

theorem readNode_inRange (hok : readNode pool i c = .ok (node, c')) : node.InRange i pool := by
  intro r hr
  obtain ⟨c1, h | h | h | h | h⟩ := readNode_eq hok
  · obtain ⟨targetName, c2, targetIdentity, c3, argc, c4, args, rfl, -, -, -, -, hargs⟩ := h
    simp only [refs, reads, arms, map_nil, append_nil] at hr
    obtain ⟨k, hk⟩ := getElem?_of_mem hr
    exact (collect_all (P := fun _ r => r.InRange i pool)
      (fun j c x c' hx => noderef_inRange hx) hargs).2 k r hk
  · obtain ⟨cond, c2, then_, c3, else_, rfl, -, hcond, hthen, helse⟩ := h
    simp only [refs, reads, arms, map_cons, map_nil, cons_append,
      nil_append, mem_cons, not_mem_nil, or_false] at hr
    rcases hr with rfl | rfl | rfl
    · exact noderef_inRange hcond
    · exact noderef_inRange hthen
    · exact noderef_inRange helse
  · obtain ⟨rfl, -⟩ := h
    simp [refs, reads, arms] at hr
  · obtain ⟨rfl, -⟩ := h
    simp [refs, reads, arms] at hr
  · obtain ⟨value, rfl, -, hvalue⟩ := h
    simp only [refs, reads, arms, map_nil, append_nil, mem_singleton] at hr
    exact hr ▸ noderef_inRange hvalue

theorem exact_node (hi : i ≤ 2 ^ 32) (hp : pool ≤ 2 ^ 32) : Exact (readNode pool i) writeNode := by
  intro c node c' hok
  have hvar := fun {c c' : Cursor UInt8} {v : UInt64} (h : varint c = .ok (v, c')) =>
    exact_varint c v c' h
  have href := fun {c c' : Cursor UInt8} {r : NodeRef} (h : noderef i pool c = .ok (r, c')) =>
    exact_noderef hi hp c r c' h
  obtain ⟨c1, h | h | h | h | h⟩ := readNode_eq hok
  · obtain ⟨targetName, c2, targetIdentity, c3, argc, c4, args, rfl, htag, hname, hid, hargc,
      hargs⟩ := h
    have hlen := (collect_all (P := fun _ _ => True) (fun _ _ _ _ _ => trivial) hargs).1
    have hspan := collect_exact (fun _ _ => exact_noderef hi hp) c4 args.toList c' hargs
    have hcount : argc = .ofNat args.toList.length := by rw [hlen, ofNat_toNat]
    subst hcount
    exact (hvar htag).trans ((exact_name c1 _ c2 hname).trans
      ((exact_hash c2 _ c3 hid).trans ((hvar hargc).trans hspan)))
  · obtain ⟨cond, c2, then_, c3, else_, rfl, htag, hcond, hthen, helse⟩ := h
    exact (hvar htag).trans ((href hcond).trans ((href hthen).trans (href helse)))
  · obtain ⟨rfl, htag⟩ := h
    exact hvar htag
  · obtain ⟨rfl, htag⟩ := h
    exact hvar htag
  · obtain ⟨value, rfl, htag, hvalue⟩ := h
    exact (hvar htag).trans (href hvalue)

/-- What the reader of a bundle did, part by part. -/
theorem readBundle_eq (hok : readBundle c = .ok (b, c')) :
    ∃ c1 c2 c3 c4 poolCount nodeCount, b.version = "0.6" ∧ varint c = .ok (poolCount, c1) ∧
      collect (fun _ => readEntry) 0 poolCount.toNat c1 = .ok (b.constantPool, c2) ∧
      varint c2 = .ok (nodeCount, c3) ∧ collect (readNode poolCount.toNat) 0 nodeCount.toNat c3 =
      .ok (b.nodes, c4) ∧ noderef nodeCount.toNat poolCount.toNat c4 = .ok (b.result, c') ∧
      b.constantPool.length = poolCount.toNat ∧ b.nodes.length = nodeCount.toNat := by
  obtain ⟨poolCount, c1, hpool, hok1⟩ := bind_eq_ok.mp hok
  obtain ⟨constantPool, c2, hentries, hok2⟩ := bind_eq_ok.mp hok1
  obtain ⟨nodeCount, c3, hcount, hok3⟩ := bind_eq_ok.mp hok2
  obtain ⟨nodes, c4, hnodes, hok4⟩ := bind_eq_ok.mp hok3
  obtain ⟨result, c5, hresult, hok5⟩ := bind_eq_ok.mp hok4
  obtain ⟨rfl, rfl⟩ := pure_eq_ok.mp hok5
  exact ⟨c1, c2, c3, c4, poolCount, nodeCount, rfl, hpool, hentries, hcount, hnodes, hresult,
    (collect_all (P := fun _ _ => True) (fun _ _ _ _ _ => trivial) hentries).1,
    (collect_all (P := fun _ _ => True) (fun _ _ _ _ _ => trivial) hnodes).1⟩

theorem readBundle_inRange (hok : readBundle c = .ok (b, c')) : b.InRange := by
  obtain ⟨c1, c2, c3, c4, poolCount, nodeCount, -, -, -, -, hnodes, hresult, hpl, hnl⟩ :=
    readBundle_eq hok
  constructor
  · intro j node r hj hr
    have hall := (collect_all (P := fun i node => node.InRange i poolCount.toNat)
      (fun j c x c' hx => readNode_inRange hx) hnodes).2 j node hj
    rw [zero_add] at hall
    rw [hpl]
    exact hall r hr
  · rw [hpl, hnl]
    exact noderef_inRange hresult

theorem reads_bundle (hv : b.version = "0.6")
    (hp : b.constantPool.length < 2 ^ 64) (hn : b.nodes.length < 2 ^ 64) (hr : b.InRange) :
    Reads readBundle (serializeCanonical b) b := by
  intro c c' hspan
  obtain ⟨c1, h1, hspan⟩ := hspan.split
  obtain ⟨c2, h2, hspan⟩ := hspan.split
  obtain ⟨c3, h3, hspan⟩ := hspan.split
  obtain ⟨c4, h4, h5⟩ := hspan.split
  have hpool : (ofNat b.constantPool.length).toNat = b.constantPool.length := by
    rw [toNat_ofNat', Nat.mod_eq_of_lt hp]
  have hcount : (ofNat b.nodes.length).toNat = b.nodes.length := by
    rw [toNat_ofNat', Nat.mod_eq_of_lt hn]
  have hentries : Reads (collect (fun _ => readEntry) 0 b.constantPool.length)
      (encodeAll writeEntry b.constantPool) b.constantPool :=
    Reads.collect fun _ entry _ => reads_entry entry
  have hnodes : Reads (collect (readNode b.constantPool.length) 0 b.nodes.length)
      (encodeAll writeNode b.nodes) b.nodes := by
    apply Reads.collect
    intro k node hk
    rw [zero_add]
    exact reads_node fun r => hr.node hk
  refine bind_eq_ok.mpr ⟨_, c1, reads_varint _ c c1 h1, ?_⟩
  rw [hpool]
  refine bind_eq_ok.mpr ⟨_, c2, hentries c1 c2 h2, ?_⟩
  refine bind_eq_ok.mpr ⟨_, c3, reads_varint _ c2 c3 h3, ?_⟩
  rw [hcount]
  refine bind_eq_ok.mpr ⟨_, c4, hnodes c3 c4 h4, ?_⟩
  refine bind_eq_ok.mpr ⟨_, c', reads_noderef hr.result c4 c' h5, ?_⟩
  rw [← hv]
  rfl

theorem exact_bundle (hp : b.constantPool.length < 2 ^ 32) (hn : b.nodes.length < 2 ^ 32)
    (hok : readBundle c = .ok (b, c')) : Spans c c' (serializeCanonical b) := by
  obtain ⟨c1, c2, c3, c4, poolCount, nodeCount, -, hpool, hentries, hcount, hnodes, hresult, hpl,
    hnl⟩ := readBundle_eq hok
  have hspool := collect_exact (fun _ _ => exact_entry) c1 _ c2 hentries
  have hp32 : poolCount.toNat ≤ 2 ^ 32 := by omega
  have hn32 : nodeCount.toNat ≤ 2 ^ 32 := by omega
  have hsnodes := collect_exact (p := readNode poolCount.toNat)
    (fun j hj => exact_node (by omega) hp32) c3 _ c4 hnodes
  have hsresult := exact_noderef hn32 hp32 c4 _ c' hresult
  have hvpool := exact_varint c _ c1 hpool
  have hvcount := exact_varint c2 _ c3 hcount
  rw [← ofNat_toNat (x := poolCount), ← hpl] at hvpool
  rw [← ofNat_toNat (x := nodeCount), ← hnl] at hvcount
  exact hvpool.trans (hspool.trans (hvcount.trans (hsnodes.trans hsresult)))

section
variable [Sha256]
variable {bytes : Bytes} {b : CoreBundle}

theorem deserializeCanonical_eq :
    deserializeCanonical bytes = .ok b ↔ ∃ c blocks, readBundle ⟨bytes, 0⟩ = .ok (b, c) ∧
      c.pos = bytes.length ∧ verifyBlocks b = .ok blocks := by
  unfold deserializeCanonical
  rw [Res.bind_eq_ok]
  constructor
  · rintro ⟨⟨bundle, c⟩, hread, hrest⟩
    by_cases hpos : c.pos = bytes.length
    · simp only [hpos, ne_eq, not_true_eq_false, if_false] at hrest
      obtain ⟨blocks, hverify, hret⟩ := Res.bind_eq_ok.mp hrest
      simp only [pure, Except.pure, Except.ok.injEq] at hret
      subst hret
      exact ⟨c, blocks, hread, hpos, Res.mapErr_eq_ok.mp hverify⟩
    · simp [hpos] at hrest
  · rintro ⟨c, blocks, hread, hpos, hverify⟩
    refine ⟨(b, c), hread, ?_⟩
    simp [hpos, hverify, Res.mapErr, pure, Except.pure]

/-- A decoded bundle is in topological order, in range and verified. -/
theorem deserializeCanonical_verified (h : deserializeCanonical bytes = .ok b) :
    b.InRange ∧ ∃ blocks, verifyBlocks b = .ok blocks := by
  obtain ⟨c, blocks, hread, -, hverify⟩ := deserializeCanonical_eq.mp h
  exact ⟨readBundle_inRange hread, blocks, hverify⟩

theorem deserializeCanonical_serialize {blocks : Blocks} (hv : b.version = "0.6")
    (hp : b.constantPool.length < 2 ^ 64) (hn : b.nodes.length < 2 ^ 64) (hr : b.InRange)
    (hok : verifyBlocks b = .ok blocks) : deserializeCanonical (serializeCanonical b) = .ok b :=
  deserializeCanonical_eq.mpr
    ⟨_, blocks, reads_bundle hv hp hn hr _ _ (Spans.whole _), rfl, hok⟩

theorem serialize_of_deserialize
    (h : deserializeCanonical bytes = .ok b) (hp : b.constantPool.length < 2 ^ 32)
    (hn : b.nodes.length < 2 ^ 32) : serializeCanonical b = bytes := by
  obtain ⟨c, blocks, hread, hpos, -⟩ := deserializeCanonical_eq.mp h
  exact ((exact_bundle hp hn hread).eq_whole hpos).symm

theorem parseAxbi_header (bytes : Bytes) :
    parseAxbi (AXBI_MAGIC ++ [0, 6] ++ bytes) = deserializeCanonical bytes := by
  have hlen : ¬ bytes.length + 6 < 6 := by omega
  simp [parseAxbi, isAxbi, AXBI_MAGIC, hlen]

/-- An accepted file is the header and the canonical bytes behind it. -/
theorem parseAxbi_eq {file : Bytes} (h : parseAxbi file = .ok b) :
    ∃ bytes, file = AXBI_MAGIC ++ [0, 6] ++ bytes ∧ deserializeCanonical bytes = .ok b := by
  have hheader : ∃ bytes, file = AXBI_MAGIC ++ [0, 6] ++ bytes := by
    unfold parseAxbi at h
    split at h
    · cases h
    · rename_i hmagic
      split at h
      · cases h
      · split at h
        · cases h
        · rename_i hversion
          simp only [Bool.or_eq_true, decide_eq_true_eq, bne_iff_ne, ne_eq, not_or, not_not,
            not_lt] at hversion
          obtain ⟨⟨hlen, h4⟩, h5⟩ := hversion
          simp only [isAxbi, Bool.not_eq_true', Bool.not_eq_false, Bool.and_eq_true, beq_iff_eq]
            at hmagic
          obtain ⟨h4lt, h4⟩ := List.getElem?_eq_some_iff.mp h4
          obtain ⟨h5lt, h5⟩ := List.getElem?_eq_some_iff.mp h5
          have hdrop : file.drop 4 = 0 :: 6 :: file.drop 6 := by
            rw [drop_eq_getElem_cons h4lt, drop_eq_getElem_cons h5lt, h4, h5]
          refine ⟨file.drop 6, ?_⟩
          calc file = file.take 4 ++ file.drop 4 := (take_append_drop 4 file).symm
            _ = AXBI_MAGIC ++ [0, 6] ++ file.drop 6 := by
              rw [hmagic.2, hdrop, append_assoc]
              rfl
  obtain ⟨bytes, rfl⟩ := hheader
  exact ⟨bytes, rfl, (parseAxbi_header bytes).symm.trans h⟩

/-- Reading back what was written gives the bundle again, bare or as a `.coreir` file. -/
theorem decode_encode {b : CoreBundle} (hv : b.version = "0.6")
    (hp : b.constantPool.length < 2 ^ 32) (hn : b.nodes.length < 2 ^ 32) (hr : b.InRange)
    (hok : ∃ blocks, verifyBlocks b = .ok blocks) :
    deserializeCanonical (serializeCanonical b) = .ok b ∧ parseAxbi (serializeAxbi b) = .ok b := by
  obtain ⟨blocks, hok⟩ := hok
  have hback := deserializeCanonical_serialize hv (by omega) (by omega) hr hok
  exact ⟨hback, (parseAxbi_header _).trans hback⟩

end

section
attribute [local instance] knownDigests

theorem decode_encode_oneArmed :
    deserializeCanonical (serializeCanonical oneArmed) = .ok oneArmed ∧
      parseAxbi (serializeAxbi oneArmed) = .ok oneArmed :=
  decode_encode (b := oneArmed) rfl (by decide) (by decide) (by decide) ⟨_, rfl⟩

end

section
variable [Sha256]

/-- An accepted byte string is its bundle's own encoding: accepted bytes that differ decode to
different bundles, and writing back an accepted file gives that very file. -/
theorem encode_decode (bytes : Bytes) {b : CoreBundle} (hp : b.constantPool.length < 2 ^ 32)
    (hn : b.nodes.length < 2 ^ 32) :
    (deserializeCanonical bytes = .ok b → serializeCanonical b = bytes ∧
      ∀ bytes', bytes' ≠ bytes → deserializeCanonical bytes' ≠ .ok b) ∧
    (parseAxbi bytes = .ok b → serializeAxbi b = bytes) := by
  refine ⟨fun h => ⟨serialize_of_deserialize h hp hn, fun bytes' hne h' => hne ?_⟩, fun h => ?_⟩
  · rw [← serialize_of_deserialize h hp hn, serialize_of_deserialize h' hp hn]
  · obtain ⟨tail, rfl, hdecode⟩ := parseAxbi_eq h
    rw [serializeAxbi, serialize_of_deserialize hdecode hp hn]

end

attribute [local instance] knownDigests

/-- The canonical bytes of the one-armed bundle. -/
def oneArmedBytes : Bytes :=
  [1] ++ unitTypeHash.bytes ++ [0, 3, 3, 4, 1, 1, 1, 2, 1, 4]

theorem encode_decode_oneArmed : serializeCanonical oneArmed = oneArmedBytes :=
  ((encode_decode oneArmedBytes (b := oneArmed) (by decide) (by decide)).1 rfl).1

end AxisBridge
