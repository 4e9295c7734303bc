import AxisBridge.Runtime.AxbiLayout
import AxisBridge.Lib.SelfDelimiting

/-! When the runtime's parser of `.coreir` bytes agrees with the strict one. -/
namespace AxisBridge.Axbi
open List Value Codec

def header : Bytes := AXBI_MAGIC ++ [0, 6]

variable {internTag : String → UInt32} {room : ℕ} {bytes data : Bytes}

/-! ### The input and its header -/

theorem toInt_byte (byte : UInt8) : byte.toUInt64.toInt64.toInt = byte.toNat := by
  have hlt := UInt8.toNat_lt byte
  have hval : byte.toUInt64.toInt64.toBitVec.toNat = byte.toNat := UInt8.toNat_toUInt64 byte
  rw [← hval]
  exact BitVec.toInt_eq_toNat_of_lt (by omega)

theorem inputByte_byteValue (byte : UInt8) : inputByte (byteValue byte) = .ok byte := by
  have hlt := UInt8.toNat_lt byte
  have hlow : (0 : Int64) ≤ byte.toUInt64.toInt64 := by
    rw [Int64.le_iff_toInt_le, toInt_byte]
    exact Int.natCast_nonneg _
  have hhigh : byte.toUInt64.toInt64 ≤ (255 : Int64) := by
    rw [Int64.le_iff_toInt_le, toInt_byte]
    show (byte.toNat : ℤ) ≤ 255
    omega
  simp [inputByte, byteValue, hlow, hhigh]

theorem inputToBytes_bytesToList (bytes : Bytes) :
    inputToBytes (bytesToList bytes) = .ok bytes := by
  show (bytes.map byteValue).mapM inputByte = .ok bytes
  induction bytes with
  | nil => rfl
  | cons byte bytes ih =>
    rw [map_cons, mapM_cons, inputByte_byteValue, ih]
    rfl

theorem axbiParse_header (data : Bytes) :
    axbiParse internTag room (bytesToList (header ++ data)) =
      (parseCanonical internTag room ⟨data, 0⟩).map Prod.fst := by
  have hlen : ¬(header ++ data).length < 6 := by
    rw [length_append]
    exact Nat.not_lt.mpr (Nat.le_add_right 6 _)
  have hmagic : (header ++ data).take 4 = AXBI_MAGIC := rfl
  have hmajor : (header ++ data).getD 4 0 = 0 := rfl
  have hminor : (header ++ data).getD 5 0 = 6 := rfl
  have hdrop : (header ++ data).drop 6 = data := rfl
  unfold axbiParse
  rw [inputToBytes_bytesToList]
  simp only [bind, Except.bind]
  rw [if_neg hlen, if_neg (not_not.mpr hmagic), hmajor, hminor, hdrop, if_neg (by decide),
    if_neg (by decide)]
  cases parseCanonical internTag room ⟨data, 0⟩ <;> rfl

/-- Without the header the parser stops at its gate. -/
theorem axbiParse_headless (internTag : String → UInt32) (room : ℕ)
    (h : ∀ data, bytes ≠ header ++ data) :
    ∃ msg, axbiParse internTag room (bytesToList bytes) = .error (hardFail msg) := by
  unfold axbiParse
  rw [inputToBytes_bytesToList]
  simp only [bind, Except.bind]
  split
  · exact ⟨_, rfl⟩
  · split
    · exact ⟨_, rfl⟩
    · split
      · exact ⟨_, rfl⟩
      · split
        · exact ⟨_, rfl⟩
        · rename_i hlen hmagic _ hversion
          rw [not_not] at hmagic
          rw [not_or, not_not, not_not] at hversion
          refine absurd ?_ (h (bytes.drop 6))
          have h4 : 4 < bytes.length := by omega
          have h5 : 5 < bytes.length := by omega
          have hmajor : bytes[4] = 0 := by rw [← getD_eq_getElem _ 0 h4]; exact hversion.1
          have hminor : bytes[5] = 6 := by rw [← getD_eq_getElem _ 0 h5]; exact hversion.2
          have hdrop : bytes.drop 4 = 0 :: 6 :: bytes.drop 6 := by
            rw [drop_eq_getElem_cons h4, drop_eq_getElem_cons h5, hmajor, hminor]
          rw [header, ← hmagic, append_assoc]
          exact (take_append_drop 4 bytes).symm.trans (congrArg (bytes.take 4 ++ ·) hdrop)

theorem parseAxbi_headless [Sha256] (h : ∀ data, bytes ≠ header ++ data) (b : CoreBundle) :
    parseAxbi bytes ≠ .ok b := by
  intro hok
  obtain ⟨data, hdata, -⟩ := parseAxbi_eq hok
  exact h data hdata

/-! ### A tree has one bundle -/

theorem hexDigit_inj : ∀ m < 16, ∀ n < 16, hexDigit m = hexDigit n → m = n := by decide

variable {bytes' : Bytes}

theorem hexChars_inj (h : hexChars bytes = hexChars bytes') : bytes = bytes' :=
  (SelfDelimiting.delimits_digits hexDigit_inj).flatMap_inj (fun _ => cons_ne_nil _ _)
    (fun _ _ => trivial) (fun _ _ => trivial) h

theorem hexStr_inj (h : hexStr bytes = hexStr bytes') : bytes = bytes' :=
  hexChars_inj (String.ofList_inj.mp (str.inj h))

theorem bytesToList_inj (h : bytesToList bytes = bytesToList bytes') : bytes = bytes' := by
  have hback := congrArg inputToBytes h
  rw [inputToBytes_bytesToList, inputToBytes_bytesToList] at hback
  exact Except.ok.inj hback

theorem entryValue_inj {entry entry' : ConstantPoolEntry}
    (h : entryValue entry = entryValue entry') : entry = entry' := by
  simp only [entryValue, tuple.injEq, List.cons.injEq, and_true] at h
  have hhash := hexStr_inj h.1
  have hpayload := bytesToList_inj h.2
  obtain ⟨⟨hash, _⟩, ⟨payload, _⟩⟩ := entry
  obtain ⟨⟨hash', _⟩, ⟨payload', _⟩⟩ := entry'
  cases hhash
  cases hpayload
  rfl

theorem edgeValue_inj {space space' : String} {i j : UInt32}
    (h : edgeValue space i = edgeValue space' j) : space = space' ∧ i = j := by
  simp only [edgeValue, tuple.injEq, List.cons.injEq, str.injEq, int.injEq, and_true] at h
  have hidx := congrArg (fun n : Int64 => n.toUInt64.toUInt32) h.2
  exact ⟨h.1, by simpa using hidx⟩

theorem refValue_inj {r r' : NodeRef} (h : refValue r = refValue r') : r = r' := by
  cases r with
  | node i =>
    cases r' with
    | node j => rw [(edgeValue_inj h).2]
    | pool j => exact absurd (edgeValue_inj h).1 (by decide)
  | pool i =>
    cases r' with
    | node j => exact absurd (edgeValue_inj h).1 (by decide)
    | pool j => rw [(edgeValue_inj h).2]

theorem map_inj_of {α β : Type} {f : α → β} (hf : ∀ x y, f x = f y → x = y) {xs ys : List α}
    (h : xs.map f = ys.map f) : xs = ys := map_injective_iff.mpr (fun x y => hf x y) h

def kindName : Node → String
  | .ccall .. => "CCall"
  | .cif .. => "CIf"
  | .cdeterminate => "CDeterminate"
  | .cblock => "CBlock"
  | .cend _ => "CEnd"

/-- The tags of the five kinds of nodes differ. -/
def TagsDiffer (internTag : String → UInt32) : Prop :=
  ∀ node node' : Node, internTag (kindName node) = internTag (kindName node') →
    kindName node = kindName node'

theorem nodeValue_tag (internTag : String → UInt32) (node : Node) :
    ∃ fields, nodeValue internTag node = .ctor (internTag (kindName node)) fields := by
  cases node <;> exact ⟨_, rfl⟩

theorem kindName_of_value (htags : TagsDiffer internTag) {node node' : Node}
    (h : nodeValue internTag node = nodeValue internTag node') :
    kindName node = kindName node' := by
  obtain ⟨fields, hnode⟩ := nodeValue_tag internTag node
  obtain ⟨fields', hnode'⟩ := nodeValue_tag internTag node'
  rw [hnode, hnode'] at h
  exact htags node node' (ctor.inj h).1

theorem nodeValue_inj (htags : TagsDiffer internTag) {node node' : Node}
    (h : nodeValue internTag node = nodeValue internTag node') : node = node' := by
  have hkind := kindName_of_value htags h
  cases node with
  | ccall hash args name =>
    cases node' with
    | ccall hash' args' name' =>
      simp only [nodeValue, ctor.injEq, true_and, List.cons.injEq, str.injEq, list.injEq,
        and_true] at h
      have hhash := hexStr_inj h.2.1
      have hargs := map_inj_of (fun _ _ => refValue_inj) h.2.2
      obtain ⟨hash, _⟩ := hash
      obtain ⟨hash', _⟩ := hash'
      obtain ⟨args, _⟩ := args
      obtain ⟨args', _⟩ := args'
      obtain ⟨name, _⟩ := name
      obtain ⟨name', _⟩ := name'
      cases h.1
      cases hhash
      cases hargs
      rfl
    | _ => exact absurd hkind (by simp [kindName])
  | cif cond then_ else_ =>
    cases node' with
    | cif cond' then' else' =>
      simp only [nodeValue, ctor.injEq, true_and, List.cons.injEq, and_true] at h
      rw [refValue_inj h.1, refValue_inj h.2.1, refValue_inj h.2.2]
    | _ => exact absurd hkind (by simp [kindName])
  | cend value =>
    cases node' with
    | cend value' =>
      simp only [nodeValue, ctor.injEq, true_and, List.cons.injEq, and_true] at h
      rw [refValue_inj h]
    | _ => exact absurd hkind (by simp [kindName])
  | cdeterminate | cblock =>
    cases node' with
    | cdeterminate | cblock => first | rfl | exact absurd hkind (by simp [kindName])
    | _ => exact absurd hkind (by simp [kindName])

theorem bundleValue_inj (htags : TagsDiffer internTag) {bundle bundle' : CoreBundle}
    (hversion : bundle.version = bundle'.version)
    (h : bundleValue internTag bundle = bundleValue internTag bundle') : bundle = bundle' := by
  simp only [bundleValue, tuple.injEq, List.cons.injEq, list.injEq, and_true] at h
  have hpool := map_inj_of (fun _ _ => entryValue_inj) h.1
  have hnodes := map_inj_of (fun _ _ => nodeValue_inj htags) h.2.1
  have hresult := refValue_inj h.2.2
  cases bundle
  cases bundle'
  cases hversion
  cases hpool
  cases hnodes
  cases hresult
  rfl

theorem bundleValue_inj_oneArmed : oneArmed = { oneArmed with result := .node 2 } := by
  refine @bundleValue_inj (fun s => UInt32.ofNat s.length) ?_ _ _ rfl rfl
  intro node node' h
  cases node <;> cases node' <;>
    first
      | rfl
      | exact absurd (h : UInt32.ofNat _ = UInt32.ofNat _) (by simp only [kindName]; decide)

/-! ### What the parsers accept -/

/-- The strict parser accepts a whole bundle in full numbers that keeps the block rules. -/
theorem parseAxbi_iff [Sha256] (hdata : data.length < 2 ^ 63) {b : CoreBundle} :
    parseAxbi (header ++ data) = .ok b ↔ ∃ l : Layout, data = l.encode ∧ l.Exact ∧ b = l.bundle ∧
      ∃ blocks, verifyBlocks b = .ok blocks := by
  have hread := derives_readBundle hdata ⟨data, 0⟩
  rw [header, parseAxbi_header, deserializeCanonical_eq]
  constructor
  · rintro ⟨c, blocks, hok, hend, hverify⟩
    obtain ⟨w, ⟨l, hexact, rfl, rfl⟩, hspan⟩ := (hread c b rfl (Nat.zero_le _)).mp hok
    exact ⟨l, hspan.eq_whole hend, hexact, rfl, blocks, hverify⟩
  · rintro ⟨l, rfl, hexact, rfl, blocks, hverify⟩
    exact ⟨_, blocks, (hread _ _ rfl (Nat.zero_le _)).mpr ⟨_, ⟨l, hexact, rfl, rfl⟩, Spans.whole _⟩,
      rfl, hverify⟩

/-- The runtime's parser accepts whatever starts with a bundle in numbers cut to 32 bits. -/
theorem axbiParse_eq_ok (internTag : String → UInt32) (room : ℕ) (hdata : data.length < 2 ^ 63)
    {v : Value} : axbiParse internTag room (bytesToList (header ++ data)) = .ok v ↔
    ∃ (l : Layout) (rest : Bytes), data = l.encode ++ rest ∧ l.Narrow ∧ l.Granted room ∧
    v = bundleValue internTag l.bundle := by
  have hread := derives_parseCanonical internTag room hdata ⟨data, 0⟩
  rw [axbiParse_header]
  constructor
  · intro hok
    cases hrun : parseCanonical internTag room ⟨data, 0⟩ with
    | error e =>
      rw [hrun] at hok
      cases hok
    | ok r =>
      rw [hrun] at hok
      cases hok
      obtain ⟨w, ⟨l, ⟨hnarrow, hgranted⟩, rfl, hv⟩, rest, hrest⟩ :=
        (hread r.2 r.1 rfl (Nat.zero_le _)).mp hrun
      exact ⟨l, _, hrest, hnarrow, hgranted, hv⟩
  · rintro ⟨l, rest, rfl, hnarrow, hgranted, rfl⟩
    have hrun := (hread _ _ rfl (Nat.zero_le _)).mpr ⟨_, ⟨l, ⟨hnarrow, hgranted⟩, rfl, rfl⟩,
      Spans.of_front (prefix_append _ _)⟩
    rw [hrun]
    rfl

/-! ### One input, one bundle -/

theorem writeName_prefixFree : PrefixFree writeName := Reads.prefixFree reads_name

theorem writeVarint_prefixFree : PrefixFree writeVarint := Reads.prefixFree reads_varint

theorem hash_prefixFree : PrefixFree Hash256.bytes := Reads.prefixFree reads_hash

theorem encode_prefixFree : PrefixFree RawNode.encode := by
  intro raw raw' w w' heq
  rw [RawNode.encode, RawNode.encode, append_assoc, append_assoc] at heq
  obtain ⟨hkind, hbody⟩ := writeVarint_prefixFree _ _ _ _ heq
  cases raw with
  | ccall h args name =>
    cases raw' with
    | ccall h' args' name' =>
      simp only [RawNode.body, append_assoc] at hbody
      obtain ⟨rfl, hrest⟩ := writeName_prefixFree _ _ _ _ hbody
      obtain ⟨rfl, hargs⟩ := hash_prefixFree _ _ _ _ hrest
      obtain ⟨hcount, hcodes⟩ := writeVarint_prefixFree _ _ _ _ hargs
      have hlen : args.toList.length = args'.toList.length := by
        have hnat := congrArg UInt64.toNat hcount
        rwa [toNat_ofNat_of_lt args.length_lt_two_pow_64,
          toNat_ofNat_of_lt args'.length_lt_two_pow_64] at hnat
      obtain ⟨hsame, hend⟩ := writeVarint_prefixFree.all hlen hcodes
      cases args
      cases args'
      cases hsame
      exact ⟨rfl, hend⟩
    | _ => cases hkind
  | cif u v t =>
    cases raw' with
    | cif u' v' t' =>
      simp only [RawNode.body, append_assoc] at hbody
      obtain ⟨rfl, hthen⟩ := writeVarint_prefixFree _ _ _ _ hbody
      obtain ⟨rfl, helse⟩ := writeVarint_prefixFree _ _ _ _ hthen
      obtain ⟨rfl, hrest⟩ := writeVarint_prefixFree _ _ _ _ helse
      exact ⟨rfl, hrest⟩
    | _ => cases hkind
  | cend v =>
    cases raw' with
    | cend v' =>
      obtain ⟨rfl, hrest⟩ := writeVarint_prefixFree _ _ _ _ hbody
      exact ⟨rfl, hrest⟩
    | _ => cases hkind
  | cdeterminate | cblock =>
    cases raw' with
    | cdeterminate | cblock => first | exact ⟨rfl, hbody⟩ | cases hkind
    | _ => cases hkind

theorem Layout.unique {l l' : Layout} {rest rest' : Bytes} (hl : l.pool.length < 2 ^ 64)
    (hl' : l'.pool.length < 2 ^ 64) (hnodes : l.nodes.length = l'.nodes.length)
    (heq : l.encode ++ rest = l'.encode ++ rest') : l = l' ∧ rest = rest' := by
  obtain ⟨pool, nodeCount, nodes, result⟩ := l
  obtain ⟨pool', nodeCount', nodes', result'⟩ := l'
  simp only [Layout.encode, writePool, append_assoc] at heq
  obtain ⟨hcount, hentries⟩ := writeVarint_prefixFree _ _ _ _ heq
  have hlen : pool.length = pool'.length := by
    have hnat := congrArg UInt64.toNat hcount
    rwa [toNat_ofNat_of_lt hl, toNat_ofNat_of_lt hl'] at hnat
  obtain ⟨rfl, hlater⟩ := (Reads.prefixFree reads_entry).all hlen hentries
  obtain ⟨rfl, hcodes⟩ := writeVarint_prefixFree _ _ _ _ hlater
  obtain ⟨rfl, hend⟩ := encode_prefixFree.all hnodes hcodes
  obtain ⟨rfl, hrest⟩ := writeVarint_prefixFree _ _ _ _ hend
  exact ⟨rfl, hrest⟩

theorem nodes_length_of_value {b b' : CoreBundle}
    (h : bundleValue internTag b = bundleValue internTag b') :
    b.nodes.length = b'.nodes.length := by
  simp only [bundleValue, tuple.injEq, List.cons.injEq, list.injEq] at h
  have hlen := congrArg List.length h.2.1
  rwa [length_map, length_map] at hlen

/-! ### The agreement -/

/-- What the two parsers have to do on one input: the same tree, or a refusal that on the runtime's
side is its gate, in any memory with room for as many values as the input has bytes. -/
def Agree [Sha256] (internTag : String → UInt32) (input : ByteString) : Prop :=
  ∀ room, input.bytes.length ≤ room →
    (∀ b, parseAxbi input.bytes = .ok b →
      axbiParse internTag room input.toValue = .ok (bundleValue internTag b)) ∧
    ((∀ b, parseAxbi input.bytes ≠ .ok b) →
      ∃ msg, axbiParse internTag room input.toValue = .error (.gate msg))

/-- The bytes behind the header declare nothing too large, and what is a bundle at their front in
numbers cut to 32 bits is the whole of them, a bundle in full numbers and within the block rules. -/
structure Plain [Sha256] (limit : ℕ) (data : Bytes) : Prop where
  modest : ∀ w, w <+: data → ¬Oversize limit w
  alike : ∀ (l : Layout) (rest : Bytes), data = l.encode ++ rest →
    (l.Narrow ↔ rest = [] ∧ l.Exact ∧ ∃ blocks, verifyBlocks l.bundle = .ok blocks)

theorem gate_of_not_bad {e : Halt} (h : ¬e.Bad) : ∃ msg, e = .gate msg := by
  cases e with
  | gate msg => exact ⟨msg, rfl⟩
  | panic | outOfMemory => exact absurd trivial h

section
variable {limit : ℕ}

theorem le_mostValues {n : ℕ} (hroom : n ≤ room) (hfits : n * VALUE_SIZE < 2 ^ 63) :
    n ≤ mostValues room := by
  have hsize : n * VALUE_SIZE = n * 32 := rfl
  rw [mostValues]
  omega

variable {l : Layout} {rest : Bytes}

/-- In a modest input every vector of a bundle at the front is granted. -/
theorem granted_of_modest (hmodest : ∀ w, w <+: data → ¬Oversize limit w)
    (hle : data.length ≤ mostValues room) (hlimit : limit ≤ mostValues room)
    (heq : data = l.encode ++ rest) : l.Granted room := by
  have hfront : writePool l.pool ++ (writeVarint l.nodeCount ++ (encodeAll RawNode.encode l.nodes ++
      (writeVarint l.result ++ rest))) <+: data := by
    rw [heq]
    simp [Layout.encode]
  have hlen := hfront.length_le
  refine ⟨?_, ?_, ?_⟩
  · have hpool := length_writePool l.pool
    rw [length_append] at hlen
    omega
  · by_contra hgt
    have hcount : writePool l.pool ++ writeVarint l.nodeCount <+: data :=
      ((prefix_append_right_inj _).mpr (prefix_append _ _)).trans hfront
    exact hmodest _ hcount (.nodes (by omega))
  · exact args_of_front hle (by rwa [← append_assoc] at hfront)

theorem pool_lt (hdata : data.length < 2 ^ 63)
    (heq : data = l.encode ++ rest) : l.pool.length < 2 ^ 64 := by
  have hlen := congrArg List.length heq
  have hpool := length_writePool l.pool
  simp only [Layout.encode, length_append] at hlen
  omega

theorem Layout.unique_of_value (hdata : data.length < 2 ^ 63) {l' : Layout}
    {rest' : Bytes} (hl : data = l.encode ++ rest) (hl' : data = l'.encode ++ rest')
    (hvalue : bundleValue internTag l.bundle = bundleValue internTag l'.bundle) :
    l = l' ∧ rest = rest' := by
  have hnodes := nodes_length_of_value hvalue
  simp only [Layout.bundle, length_map] at hnodes
  exact Layout.unique (pool_lt hdata hl) (pool_lt hdata hl') hnodes (hl.symm.trans hl')

end

theorem length_header_append (data : Bytes) : (header ++ data).length = data.length + 6 := by
  rw [length_append]
  exact add_comm 6 _

theorem length_lt_of_fits (hfits : (header ++ data).length * VALUE_SIZE < 2 ^ 63) :
    data.length < 2 ^ 63 := by
  have hlen := length_header_append data
  have hsize : (header ++ data).length * VALUE_SIZE = (header ++ data).length * 32 := rfl
  omega

section
variable [Sha256]

theorem plain_of_agree {hfits : (header ++ data).length * VALUE_SIZE < 2 ^ 63}
    (h : Agree internTag ⟨header ++ data, hfits⟩) : Plain (header ++ data).length data := by
  have hdata := length_lt_of_fits hfits
  have hlen := length_header_append data
  have hmost := le_mostValues (le_refl (header ++ data).length) hfits
  obtain ⟨hok, hrefuse⟩ := h (header ++ data).length le_rfl
  have hmodest : ∀ w, w <+: data → ¬Oversize (header ++ data).length w := by
    intro w hfront hover
    have hsame : mostValues (header ++ data).length = (header ++ data).length :=
      le_antisymm (min_le_left _ _) hmost
    obtain ⟨e, hbad, hstop⟩ :=
      (stops_iff internTag hdata
        (show data.length ≤ mostValues (header ++ data).length by omega)).mpr
          ⟨w, hsame.symm ▸ hover, hfront⟩
    have hrun :
        axbiParse internTag (header ++ data).length (bytesToList (header ++ data)) = .error e := by
      rw [axbiParse_header, hstop]
      rfl
    by_cases hstrict : ∃ b, parseAxbi (header ++ data) = .ok b
    · obtain ⟨b, hb⟩ := hstrict
      have htree := hrun.symm.trans (hok b hb)
      cases htree
    · obtain ⟨msg, hgate⟩ := hrefuse (not_exists.mp hstrict)
      have hsame := hrun.symm.trans hgate
      cases hsame
      exact hbad
  have hgranted : ∀ {l : Layout} {rest : Bytes}, data = l.encode ++ rest →
      l.Granted (header ++ data).length :=
    granted_of_modest hmodest (by omega) hmost
  refine ⟨hmodest, fun l rest heq => ⟨fun hnarrow => ?_, ?_⟩⟩
  · have hrun := (axbiParse_eq_ok internTag (header ++ data).length hdata).mpr
      ⟨l, rest, heq, hnarrow, hgranted heq, rfl⟩
    by_cases hstrict : ∃ b, parseAxbi (header ++ data) = .ok b
    · obtain ⟨b, hb⟩ := hstrict
      obtain ⟨l', heq', hexact, rfl, hblocks⟩ := (parseAxbi_iff hdata).mp hb
      have hvalue := Except.ok.inj (hrun.symm.trans (hok _ hb))
      obtain ⟨rfl, rfl⟩ := Layout.unique_of_value hdata heq (heq'.trans (append_nil _).symm) hvalue
      exact ⟨rfl, hexact, hblocks⟩
    · obtain ⟨msg, hgate⟩ := hrefuse (not_exists.mp hstrict)
      cases hrun.symm.trans hgate
  · rintro ⟨rfl, hexact, hblocks⟩
    have hb := (parseAxbi_iff hdata).mpr ⟨l, heq.trans (append_nil _), hexact, rfl, hblocks⟩
    obtain ⟨l', rest', heq', hnarrow, -, hvalue⟩ :=
      (axbiParse_eq_ok internTag _ hdata).mp (hok _ hb)
    obtain ⟨rfl, -⟩ := Layout.unique_of_value hdata heq heq' hvalue
    exact hnarrow

theorem agree_of_plain {hfits : (header ++ data).length * VALUE_SIZE < 2 ^ 63}
    (h : Plain (header ++ data).length data) : Agree internTag ⟨header ++ data, hfits⟩ := by
  have hdata := length_lt_of_fits hfits
  have hlen := length_header_append data
  intro room hroom
  have hmost : (header ++ data).length ≤ mostValues room := le_mostValues hroom hfits
  constructor
  · intro b hb
    obtain ⟨l, heq, hexact, rfl, hblocks⟩ := (parseAxbi_iff hdata).mp hb
    have hwhole : data = l.encode ++ [] := heq.trans (append_nil _).symm
    exact (axbiParse_eq_ok internTag _ hdata).mpr ⟨l, [], hwhole,
      (h.alike l [] hwhole).mpr ⟨rfl, hexact, hblocks⟩,
      granted_of_modest h.modest (by omega) hmost hwhole, rfl⟩
  · intro hstrict
    cases hrun : parseCanonical internTag room ⟨data, 0⟩ with
    | ok r =>
      have hok : axbiParse internTag room (bytesToList (header ++ data)) = .ok r.1 := by
        rw [axbiParse_header, hrun]
        rfl
      obtain ⟨l, rest, heq, hnarrow, -, -⟩ := (axbiParse_eq_ok internTag _ hdata).mp hok
      obtain ⟨rfl, hexact, hblocks⟩ := (h.alike l rest heq).mp hnarrow
      exact absurd ((parseAxbi_iff hdata).mpr ⟨l, heq.trans (append_nil _), hexact, rfl, hblocks⟩)
        (hstrict _)
    | error e =>
      have hgate : ¬e.Bad := by
        intro hbad
        obtain ⟨w, hover, hfront⟩ :=
          (stops_iff internTag hdata (show data.length ≤ mostValues room by omega)).mp
            ⟨e, hbad, hrun⟩
        exact h.modest w hfront (hover.mono hmost)
      obtain ⟨msg, rfl⟩ := gate_of_not_bad hgate
      refine ⟨msg, ?_⟩
      show axbiParse internTag room (bytesToList (header ++ data)) = _
      rw [axbiParse_header, hrun]
      rfl

/-- The two parsers agree on exactly those inputs that have no header, or are plain behind it. -/
theorem parsers_agree_iff (internTag : String → UInt32) (input : ByteString) :
    Agree internTag input ↔ ∀ data, input.bytes = header ++ data →
      Plain input.bytes.length data := by
  obtain ⟨bytes, hfits⟩ := input
  constructor
  · rintro h data rfl
    exact plain_of_agree h
  · intro h
    by_cases hheader : ∃ data, bytes = header ++ data
    · obtain ⟨data, rfl⟩ := hheader
      exact agree_of_plain (h data rfl)
    · have hheadless := not_exists.mp hheader
      intro room _
      refine ⟨fun b hb => absurd hb (parseAxbi_headless hheadless b), fun _ => ?_⟩
      obtain ⟨msg, hgate⟩ := axbiParse_headless internTag room hheadless
      exact ⟨_, hgate⟩

end

attribute [local instance] knownDigests

/-- One `CDeterminate` node, its reference as the result, and one byte more. -/
def trailingByte : ByteString := ⟨header ++ [0, 1, 2, 0, 0], by decide⟩

/-- The byte behind the result is a refusal for the strict parser only. -/
theorem trailing_byte_accepted : ¬Agree (fun name => UInt32.ofNat name.length) trailingByte := by
  intro h
  have hstrict : parseAxbi trailingByte.bytes =
    .error (.err "axbi: 1 trailing byte(s) after the result") := rfl
  obtain ⟨msg, hgate⟩ := (h 11 (by decide)).2 fun b hb => by
    rw [hstrict] at hb
    cases hb
  have htree : axbiParse (fun name => UInt32.ofNat name.length) 11 trailingByte.toValue =
      .ok (.tuple [.list [], .list [.ctor 12 []], edgeValue "node" 0]) := rfl
  rw [htree] at hgate
  cases hgate

end AxisBridge.Axbi
