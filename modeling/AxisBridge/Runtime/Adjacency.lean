import AxisBridge.Runtime.Lines

/-! The adjacency projection: the edges of the loose store and of the packs, by source and by
target. -/
namespace AxisBridge.Adjacency
open List Function
open String (ofList)

/-- A file, and what `fs::read` gives of it when it succeeds. -/
structure StoreFile where
  name : String
  read : Option Bytes

/-- An entry of a tier's directory, with the files that `read_dir` lists when it succeeds. A name
that is not UTF-8 belongs to no address; its file is left out. -/
structure SubDir where
  name : String
  isDir : Bool
  files : Option (List StoreFile)

/-- The directories `objects` and `pack/index`, where they can be listed, and the pack files. -/
structure Store where
  objects : Option (List SubDir)
  index : Option (List SubDir)
  pack : String → Option Bytes

def isHexDigit (b : UInt8) : Bool :=
  (0x30 ≤ b && b ≤ 0x39) || (0x41 ≤ b && b ≤ 0x46) || (0x61 ≤ b && b ≤ 0x66)

def addrFromPath (sub file : String) : Option String :=
  if (textBytes sub).length ≠ 2 ∨ (textBytes file).length ≠ 62 then none
  else if (textBytes sub ++ textBytes file).all isHexDigit then some s!"sha256:{sub}{file}"
  else none

/-- `splitn`: the last of at most `n` pieces keeps the separators that are left. -/
def splitn (sep : UInt8) : ℕ → Bytes → List Bytes
  | 0, _ => []
  | 1, bytes => [bytes]
  | n + 2, bytes =>
    let piece := bytes.takeWhile (· != sep)
    match bytes.drop piece.length with
    | [] => [piece]
    | _ :: rest => piece :: splitn sep (n + 1) rest

/-- `EDGE` and a tab. -/
def TAG : Bytes := [0x45, 0x44, 0x47, 0x45, 0x09]

def parseEdge (body : Bytes) : Option (String × String × String) :=
  if TAG.isPrefixOf body then
    match splitn 0x09 5 body with
    | _ :: src :: verb :: tgt :: _ => do
      let src ← strFromUtf8 src
      let verb ← strFromUtf8 verb
      let tgt ← strFromUtf8 tgt
      if src.isEmpty || tgt.isEmpty then none else some (src, verb, tgt)
    | _ => none
  else none

structure Adj where
  out : String → List String
  inn : String → List String
  edges : ℕ
  scanned : ℕ
  malformed : ℕ
  loose : ℕ
  packed : ℕ
  built : Bool
  root : String

/-- The thread's projection before its first build. -/
def Adj.default : Adj := ⟨fun _ => [], fun _ => [], 0, 0, 0, 0, 0, false, ""⟩

def Adj.insert (a : Adj) (src tgt addr : String) : Adj :=
  { a with
    out := update a.out src (a.out src ++ [addr])
    inn := update a.inn tgt (a.inn tgt ++ [addr])
    edges := a.edges + 1 }

/-- Both scans make this of an address and of the body behind it, if that can be had: the address
is seen from here on, whether or not it can. -/
def Adj.visit (count : Adj → Adj) (addr : String) (body : Option Bytes)
    (st : Adj × List String) : Adj × List String :=
  let a := { st.1 with scanned := st.1.scanned + 1 }
  if addr ∈ st.2 then (a, st.2)
  else
    (match body with
    | none => a
    | some body =>
      match parseEdge body with
      | some (s, _, t) => (count a).insert s t addr
      | none => if (TAG.take 4).isPrefixOf body then { a with malformed := a.malformed + 1 } else a,
    addr :: st.2)

/-- The loops over a tier's directories and their files. -/
def walk {σ : Type} (file : String → StoreFile → σ → σ) (tier : Option (List SubDir)) (st : σ) :
    σ :=
  match tier with
  | none => st
  | some subs => subs.foldl (fun st sub =>
    if sub.isDir then
      match sub.files with
      | none => st
      | some files => files.foldl (fun st f => file sub.name f st) st
    else st) st

def scanLoose (store : Store) (st : Adj × List String) : Adj × List String :=
  walk (fun sub f st =>
    if (stripSuffix ".ver" f.name).isSome || containsText f.name ".tmp." then st
    else
      match addrFromPath sub f.name with
      | none => st
      | some addr => Adj.visit (fun a => { a with loose := a.loose + 1 }) addr f.read st)
    store.objects st

/-- A pack's file as its characters; the cache of decoded packs changes no read. -/
def packChars (store : Store) (packid : String) : Option (List Char) :=
  (store.pack packid).bind fun bytes => (strFromUtf8 bytes).map String.toList

/-- `<packid> \t <char_offset> \t <char_len>`. -/
def readPointer (text : String) : Option (String × ℕ × ℕ) :=
  match split '\t' text with
  | packid :: offs :: lens :: _ => do
    let off ← parseUsize (trim offs)
    let len ← parseUsize (trim lens)
    some (packid, off, len)
  | _ => none

/-- The object that a pointer's file leads to; the sum saturates above the length of any pack. -/
def packedBody (store : Store) (pointer : Option Bytes) : Option Bytes := do
  let (packid, off, len) ← (pointer.bind strFromUtf8).bind readPointer
  let chars ← packChars store packid
  let fin := min (off + len) chars.length
  if off ≥ fin then none else some (textBytes (ofList ((chars.take fin).drop off)))

def scanPacked (store : Store) (st : Adj × List String) : Adj × List String :=
  walk (fun sub f st =>
    match addrFromPath sub f.name with
    | none => st
    | some addr =>
      Adj.visit (fun a => { a with packed := a.packed + 1 }) addr (packedBody store f.read) st)
    store.index st

def Adj.clear (self : Adj) : Adj :=
  { self with
    out := fun _ => [], inn := fun _ => [], edges := 0, scanned := 0, malformed := 0, loose := 0,
    packed := 0 }

def Adj.build (self : Adj) (store : Store) (root : String) : Adj :=
  { (scanPacked store (scanLoose store (self.clear, []))).1 with built := true, root := root }

/-- A copy that a scan comes to: the address of its path, and what it reads there. -/
abbrev Copy := String × Option Bytes

/-- The files a walk comes to, with their directories. -/
def filesOf (tier : Option (List SubDir)) : List (String × StoreFile) :=
  (tier.getD []).flatMap fun sub =>
    if sub.isDir then (sub.files.getD []).map fun f => (sub.name, f) else []

def looseCopies (store : Store) : List Copy :=
  (filesOf store.objects).filterMap fun (sub, f) =>
    if (stripSuffix ".ver" f.name).isSome || containsText f.name ".tmp." then none
    else (addrFromPath sub f.name).map fun addr => (addr, f.read)

def packedCopies (store : Store) : List Copy :=
  (filesOf store.index).filterMap fun (sub, f) =>
    (addrFromPath sub f.name).map fun addr => (addr, packedBody store f.read)

inductive Dir
  | out
  | inn

/-- The projection in one direction. -/
def Adj.side (a : Adj) : Dir → String → List String
  | .out => a.out
  | .inn => a.inn

/-- The node under which an edge is listed in a direction. -/
def Dir.endpoint : Dir → String × String × String → String
  | .out, (src, _, _) => src
  | .inn, (_, _, tgt) => tgt

def Copy.edge (c : Copy) : Option (String × String × String) := c.2.bind parseEdge

/-- The copies not seen before, the first of each address. -/
def fresh (seen : List String) : List Copy → List Copy
  | [] => []
  | c :: cs => if c.1 ∈ seen then fresh seen cs else c :: fresh (c.1 :: seen) cs

/-- The addresses of the copies that are edges at the node, in their order. -/
def addresses (d : Dir) (node : String) (cs : List Copy) : List String :=
  (cs.filter fun c => c.edge.map d.endpoint = some node).map Prod.fst

def visitAll (count : Adj → Adj) (cs : List Copy) (st : Adj × List String) : Adj × List String :=
  cs.foldl (fun st c => Adj.visit count c.1 c.2 st) st

section
variable {store : Store} {st : Adj × List String} {count : Adj → Adj} {d : Dir} {node : String}
  {seen : List String} {c : Copy} {cs : List Copy}

theorem walk_eq {σ : Type} (file : String → StoreFile → σ → σ) (tier : Option (List SubDir))
    (s : σ) : walk file tier s = (filesOf tier).foldl (fun s e => file e.1 e.2 s) s := by
  cases tier with
  | none => rfl
  | some subs =>
    rw [walk, filesOf, Option.getD_some, foldl_flatMap]
    congr
    funext s sub
    cases sub.isDir with
    | false => rfl
    | true => cases sub.files <;> simp [foldl_map]

theorem scanLoose_eq :
    scanLoose store st = visitAll (fun a => { a with loose := a.loose + 1 })
      (looseCopies store) st := by
  rw [scanLoose, walk_eq, visitAll, looseCopies, foldl_filterMap]
  congr
  funext st e
  by_cases h : ((stripSuffix ".ver" e.2.name).isSome || containsText e.2.name ".tmp.") = true
  · simp [h]
  · cases ha : addrFromPath e.1 e.2.name <;> simp [h, ha]

theorem scanPacked_eq : scanPacked store st =
    visitAll (fun a => { a with packed := a.packed + 1 }) (packedCopies store) st := by
  rw [scanPacked, walk_eq, visitAll, packedCopies, foldl_filterMap]
  congr
  funext st e
  cases ha : addrFromPath e.1 e.2.name <;> simp [ha]

theorem side_insert (d : Dir) (node : String) (a : Adj) (src verb tgt addr : String) :
    (a.insert src tgt addr).side d node =
      a.side d node ++ if d.endpoint (src, verb, tgt) = node then [addr] else [] := by
  cases d with
  | out =>
    by_cases h : src = node
    · simp [Adj.side, Adj.insert, Dir.endpoint, h]
    · simp [Adj.side, Adj.insert, Dir.endpoint, h, update_of_ne (Ne.symm h)]
  | inn =>
    by_cases h : tgt = node
    · simp [Adj.side, Adj.insert, Dir.endpoint, h]
    · simp [Adj.side, Adj.insert, Dir.endpoint, h, update_of_ne (Ne.symm h)]

theorem seen_visit : (Adj.visit count c.1 c.2 st).2 = if c.1 ∈ st.2 then st.2 else c.1 :: st.2 := by
  simp only [Adj.visit]
  split <;> rfl

/-- A visited copy is listed when its address is new and it is an edge. -/
theorem side_visit (hcount : ∀ a, (count a).side d node = a.side d node) :
    (Adj.visit count c.1 c.2 st).1.side d node =
      st.1.side d node ++ if c.1 ∈ st.2 then [] else addresses d node [c] := by
  have hscan : ∀ n m : ℕ, ({ st.1 with scanned := n, malformed := m } : Adj).side d node =
      st.1.side d node := by
    intro n m
    cases d <;> rfl
  simp only [Adj.visit]
  by_cases hin : c.1 ∈ st.2
  · simpa [hin] using hscan _ st.1.malformed
  · rcases hc : c.2 with _ | body
    · simpa [hin, addresses, Copy.edge, hc] using hscan _ st.1.malformed
    · rcases he : parseEdge body with _ | ⟨src, verb, tgt⟩
      · by_cases hm : (TAG.take 4).isPrefixOf body = true
        · simpa [hin, addresses, Copy.edge, hc, he, hm] using hscan _ _
        · simpa [hin, addresses, Copy.edge, hc, he, hm] using hscan _ st.1.malformed
      · have hlisted := side_insert d node
          (count { st.1 with scanned := st.1.scanned + 1 }) src verb tgt c.1
        rw [hcount, hscan _ st.1.malformed] at hlisted
        by_cases hnode : d.endpoint (src, verb, tgt) = node <;>
          simpa [hin, addresses, Copy.edge, hc, he, hnode] using hlisted

theorem side_visitAll (hcount : ∀ a, (count a).side d node = a.side d node) :
    ∀ {st : Adj × List String}, (visitAll count cs st).1.side d node =
      st.1.side d node ++ addresses d node (fresh st.2 cs) := by
  induction cs with
  | nil =>
    intro st
    simp [visitAll, fresh, addresses]
  | cons c cs ih =>
    intro st
    have hstep : visitAll count (c :: cs) st = visitAll count cs (Adj.visit count c.1 c.2 st) := rfl
    rw [hstep, ih, side_visit hcount, seen_visit, fresh]
    by_cases hin : c.1 ∈ st.2
    · simp [hin]
    · simp only [hin, if_false, append_assoc]
      simp [addresses, filter_cons]
      split <;> simp_all

theorem mem_seen_visitAll {addr : String} : ∀ {st : Adj × List String},
    addr ∈ (visitAll count cs st).2 ↔ addr ∈ st.2 ∨ addr ∈ cs.map Prod.fst := by
  induction cs with
  | nil =>
    intro st
    simp [visitAll]
  | cons c cs ih =>
    intro st
    have hstep : visitAll count (c :: cs) st = visitAll count cs (Adj.visit count c.1 c.2 st) := rfl
    rw [hstep, ih, seen_visit]
    by_cases hin : c.1 ∈ st.2
    · by_cases ha : addr = c.1 <;> simp_all
    · simp only [hin, if_false, mem_cons, map_cons]
      tauto

/-- Of copies of different addresses, those with an address not seen before. -/
theorem fresh_of_nodup (h : (cs.map Prod.fst).Nodup) :
    ∀ {seen : List String}, fresh seen cs = cs.filter fun c => c.1 ∉ seen := by
  induction cs with
  | nil => exact fun {_} => rfl
  | cons c cs ih =>
    intro seen
    rw [map_cons, nodup_cons] at h
    by_cases hin : c.1 ∈ seen
    · rw [fresh, if_pos hin, ih h.2]
      simp [hin]
    · rw [fresh, if_neg hin, ih h.2, filter_cons_of_pos (by simpa using hin)]
      congr 1
      apply filter_congr
      intro e he
      have hne : e.1 ≠ c.1 := fun heq => h.1 (heq ▸ mem_map_of_mem he)
      simp [hne]

end

/-- The copies that `build` lists the edges of. -/
def listing (store : Store) : List Copy :=
  looseCopies store ++ (packedCopies store).filter fun c => c.1 ∉ (looseCopies store).map Prod.fst

/-- A pointer that gives the exact extent of the body in its pack, in characters. -/
def ExactPointer (store : Store) (pointer : Option Bytes) (body : Bytes) : Prop :=
  ∃ packid front object back,
    (pointer.bind strFromUtf8).bind readPointer =
      some (packid, List.length front, List.length object) ∧
    packChars store packid = some (front ++ object ++ back) ∧
    body = textBytes (ofList object)

/-- The store keeps `objects` under their addresses: no directory has two files of one name, what
can be read of a loose copy is the object, and every pack pointer leads to its object. -/
structure Store.Keeps (store : Store) (objects : String → Bytes) : Prop where
  looseNames : ((filesOf store.objects).map fun e => (e.1, e.2.name)).Nodup
  indexNames : ((filesOf store.index).map fun e => (e.1, e.2.name)).Nodup
  loose : ∀ addr body, (addr, some body) ∈ looseCopies store → body = objects addr
  packed : ∀ e ∈ filesOf store.index, ∀ addr, addrFromPath e.1 e.2.name = some addr →
    ExactPointer store e.2.read (objects addr)

/-- A loose copy that can be read, or a packed one. -/
def Store.Readable (store : Store) (addr : String) : Prop :=
  (∃ body, (addr, some body) ∈ looseCopies store) ∨ addr ∈ (packedCopies store).map Prod.fst

/-- Under each node `build` lists, once, the edges there that have a readable copy, and no other. -/
def ListsReadable (store : Store) (objects : String → Bytes) (a : Adj) : Prop :=
  ∀ d node addr, (a.side d node).count addr ≤ 1 ∧
    (addr ∈ a.side d node ↔
      store.Readable addr ∧ (parseEdge (objects addr)).map (Dir.endpoint d) = some node)

variable {store : Store} {objects : String → Bytes} {self : Adj} {root : String} {d : Dir}
  {node addr : String}

theorem addrFromPath_inj {sub sub' file file' : String} (h : addrFromPath sub file = some addr)
    (h' : addrFromPath sub' file' = some addr) : sub = sub' ∧ file = file' := by
  have hpath : ∀ {s f : String}, addrFromPath s f = some addr →
      (textBytes s).length = 2 ∧ addr = s!"sha256:{s}{f}" := by
    intro s f hs
    simp only [addrFromPath] at hs
    split at hs
    · cases hs
    · rename_i hlen
      split at hs
      · exact ⟨by omega, (Option.some.inj hs).symm⟩
      · cases hs
  obtain ⟨hlen, rfl⟩ := hpath h
  obtain ⟨hlen', heq⟩ := hpath h'
  have hjoin : textBytes sub ++ textBytes file = textBytes sub' ++ textBytes file' := by
    rw [← textBytes_append, ← textBytes_append]
    have happ : "sha256:" ++ (sub ++ file) = "sha256:" ++ (sub' ++ file') := by
      simpa [toString, String.append_assoc] using heq
    rw [append_cancel happ]
  obtain ⟨hsub, hfile⟩ := append_inj hjoin (hlen.trans hlen'.symm)
  constructor
  · exact Option.some.inj (by rw [← strFromUtf8_textBytes, hsub, strFromUtf8_textBytes])
  · exact Option.some.inj (by rw [← strFromUtf8_textBytes, hfile, strFromUtf8_textBytes])

/-- Files of different names have different addresses. -/
theorem nodup_addresses {files : List (String × StoreFile)}
    {copy : String × StoreFile → Option Copy} (hnames : (files.map fun e => (e.1, e.2.name)).Nodup)
    (hcopy : ∀ e c, copy e = some c → addrFromPath e.1 e.2.name = some c.1) :
    ((files.filterMap copy).map Prod.fst).Nodup := by
  rw [Nodup, pairwise_map] at hnames ⊢
  apply hnames.filterMap
  intro e e' hne c hc c' hc' heq
  have haddr := hcopy e c hc
  rw [heq] at haddr
  obtain ⟨hsub, hname⟩ := addrFromPath_inj haddr (hcopy e' c' hc')
  exact hne (Prod.ext hsub hname)

/-- What a pack holds under an exact extent is read back, unless it is empty. -/
theorem packedBody_of_exact {pointer : Option Bytes} {body : Bytes}
    (h : ExactPointer store pointer body) :
    (packedBody store pointer).bind parseEdge = parseEdge body := by
  obtain ⟨packid, front, object, back, hptr, hpack, rfl⟩ := h
  have hfin : min (front.length + object.length) (front ++ object ++ back).length =
      front.length + object.length := by
    simp
  cases object with
  | nil =>
    have hnone : parseEdge (textBytes (ofList [])) = none := rfl
    simp [packedBody, hptr, hpack, hnone]
  | cons c cs =>
    have htake : (front ++ (c :: cs) ++ back).take (front.length + (c :: cs).length) =
        front ++ (c :: cs) := by
      rw [← length_append, take_left]
    simp only [packedBody, hptr, hpack, Option.bind_eq_bind, Option.bind_some, hfin, htake,
      drop_left]
    rw [if_neg (by simp)]
    rfl

section
variable (h : store.Keeps objects)

include h

theorem Store.Keeps.nodup_loose : ((looseCopies store).map Prod.fst).Nodup := by
  apply nodup_addresses h.looseNames
  intro e c hc
  simp only at hc
  split at hc
  · cases hc
  · obtain ⟨addr, haddr, rfl⟩ := Option.map_eq_some_iff.mp hc
    exact haddr

theorem Store.Keeps.nodup_packed : ((packedCopies store).map Prod.fst).Nodup := by
  apply nodup_addresses h.indexNames
  intro e c hc
  obtain ⟨addr, haddr, rfl⟩ := Option.map_eq_some_iff.mp hc
  exact haddr

theorem Store.Keeps.packed_edge {c : Copy} (hc : c ∈ packedCopies store) :
    c.edge = parseEdge (objects c.1) := by
  obtain ⟨e, he, hmap⟩ := mem_filterMap.mp hc
  obtain ⟨addr, haddr, rfl⟩ := Option.map_eq_some_iff.mp hmap
  exact packedBody_of_exact (h.packed e he addr haddr)

theorem side_build : (self.build store root).side d node = addresses d node (listing store) := by
  have hloose : ∀ a : Adj, ({ a with loose := a.loose + 1 } : Adj).side d node = a.side d node := by
    intro a
    cases d <;> rfl
  have hpacked :
      ∀ a : Adj, ({ a with packed := a.packed + 1 } : Adj).side d node = a.side d node := by
    intro a
    cases d <;> rfl
  have hclear : self.clear.side d node = [] := by
    cases d <;> rfl
  have hroot : (self.build store root).side d node =
      (scanPacked store (scanLoose store (self.clear, []))).1.side d node := by
    cases d <;> rfl
  have hseen : ∀ addr, addr ∈ (scanLoose store (self.clear, [])).2 ↔
      addr ∈ (looseCopies store).map Prod.fst := by
    intro addr
    rw [scanLoose_eq, mem_seen_visitAll]
    exact or_iff_right not_mem_nil
  rw [hroot, scanPacked_eq, side_visitAll hpacked, fresh_of_nodup h.nodup_packed]
  simp only [hseen]
  rw [scanLoose_eq, side_visitAll hloose, hclear, fresh_of_nodup h.nodup_loose, listing, addresses,
    addresses, addresses, filter_append, map_append]
  simp

theorem nodup_listing : ((listing store).map Prod.fst).Nodup := by
  rw [listing, map_append, nodup_append]
  refine ⟨h.nodup_loose, ?_, ?_⟩
  · exact h.nodup_packed.sublist (filter_sublist.map _)
  · rintro a ha b hb rfl
    obtain ⟨c, hc, rfl⟩ := mem_map.mp hb
    simpa [ha] using (mem_filter.mp hc).2

/-- The edges under a node are those whose loose copy can be read, or that have no loose copy and
are packed. -/
theorem mem_side_build : addr ∈ (self.build store root).side d node ↔
    ((∃ body, (addr, some body) ∈ looseCopies store) ∨
      addr ∉ (looseCopies store).map Prod.fst ∧ addr ∈ (packedCopies store).map Prod.fst) ∧
    (parseEdge (objects addr)).map d.endpoint = some node := by
  rw [side_build h, addresses, listing]
  simp only [mem_map, mem_filter, mem_append, decide_eq_true_eq]
  constructor
  · rintro ⟨⟨a, body⟩, ⟨hmem | ⟨hmem, hfresh⟩, hedge⟩, rfl⟩
    · cases body with
      | none => simp [Copy.edge] at hedge
      | some body =>
        rw [← h.loose a body hmem]
        exact ⟨.inl ⟨body, hmem⟩, hedge⟩
    · rw [h.packed_edge hmem] at hedge
      exact ⟨.inr ⟨hfresh, _, hmem, rfl⟩, hedge⟩
  · rintro ⟨⟨body, hmem⟩ | ⟨hfresh, c, hmem, rfl⟩, hedge⟩
    · rw [← h.loose addr body hmem] at hedge
      exact ⟨_, ⟨.inl hmem, hedge⟩, rfl⟩
    · rw [← h.packed_edge hmem] at hedge
      exact ⟨c, ⟨.inr ⟨hmem, hfresh⟩, hedge⟩, rfl⟩

end

/-- `build` lists every edge with a readable copy, once in each direction, and no other, exactly
when no edge whose loose copy cannot be read has a packed copy. -/
theorem build_lists_readable_iff {store : Store} {objects : String → Bytes}
    (h : store.Keeps objects) (self : Adj) (root : String) :
    ListsReadable store objects (self.build store root) ↔
      ∀ addr, (addr, none) ∈ looseCopies store → addr ∈ (packedCopies store).map Prod.fst →
        parseEdge (objects addr) = none := by
  constructor
  · intro hlists addr hloose hpacked
    by_contra hedge
    obtain ⟨edge, hsome⟩ := Option.ne_none_iff_exists'.mp hedge
    have hlisted := (hlists .out (Dir.endpoint .out edge) addr).2.mpr
      ⟨.inr hpacked, by rw [hsome]; rfl⟩
    rcases ((mem_side_build h).mp hlisted).1 with ⟨body, hbody⟩ | ⟨hfresh, -⟩
    · have hsame := inj_on_of_nodup_map h.nodup_loose hloose hbody rfl
      cases hsame
    · exact hfresh (mem_map_of_mem hloose)
  · intro hcond d node addr
    constructor
    · rw [side_build h]
      apply nodup_iff_count_le_one.mp
      exact (nodup_listing h).sublist (filter_sublist.map _)
    · rw [mem_side_build h]
      refine and_congr_left fun hedge => ⟨?_, ?_⟩
      · rintro (hbody | ⟨-, hpacked⟩)
        · exact .inl hbody
        · exact .inr hpacked
      · rintro (hbody | hpacked)
        · exact .inl hbody
        · by_cases hfresh : addr ∈ (looseCopies store).map Prod.fst
          · obtain ⟨⟨a, body⟩, hmem, rfl⟩ := mem_map.mp hfresh
            cases body with
            | none => simp [hcond a hmem hpacked] at hedge
            | some body => exact .inl ⟨body, hmem⟩
          · exact .inr ⟨hfresh, hpacked⟩

/-- Packing and dropping loose copies change no answer: two stores that keep the same objects and
have readable copies of the same addresses give the same edges under every node. -/
theorem build_tier_independent {store' : Store} {self' : Adj} {root' : String}
    (hl : ListsReadable store objects (self.build store root))
    (hl' : ListsReadable store' objects (self'.build store' root'))
    (hsame : ∀ addr, store.Readable addr ↔ store'.Readable addr) :
    ((self.build store root).side d node).Perm ((self'.build store' root').side d node) := by
  apply (perm_ext_iff_of_nodup _ _).mpr
  · intro addr
    rw [(hl d node addr).2, (hl' d node addr).2, hsame]
  · exact nodup_iff_count_le_one.mpr fun addr => (hl d node addr).1
  · exact nodup_iff_count_le_one.mpr fun addr => (hl' d node addr).1

/-- One edge from `a` to `b`, loose and packed; its loose copy reads as given. -/
def oneEdge (loose : Option Bytes) : Store :=
  let name := ofList (replicate 62 'c')
  ⟨some [⟨"ab", true, some [⟨name, loose⟩]⟩],
    some [⟨"ab", true, some [⟨name, some (textBytes "p\t0\t10")⟩]⟩],
    fun _ => some (textBytes "EDGE\ta\tv\tb")⟩

def oneEdgeAddr : String := "sha256:ab" ++ ofList (replicate 62 'c')

theorem addrFromPath_oneEdge :
    addrFromPath "ab" (ofList (replicate 62 'c')) = some oneEdgeAddr := by
  decide

theorem looseCopies_oneEdge (loose : Option Bytes) :
    looseCopies (oneEdge loose) = [(oneEdgeAddr, loose)] := by
  have hkept : ((stripSuffix ".ver" (ofList (replicate 62 'c'))).isSome ||
      containsText (ofList (replicate 62 'c')) ".tmp.") = false := by
    decide
  simp only [looseCopies, filesOf, oneEdge, Option.getD_some, flatMap_singleton, if_true,
    map_singleton, filterMap_cons, filterMap_nil, hkept, addrFromPath_oneEdge]
  rfl

theorem packed_oneEdge (loose : Option Bytes) :
    oneEdgeAddr ∈ (packedCopies (oneEdge loose)).map Prod.fst := by
  simp only [packedCopies, filesOf, oneEdge, Option.getD_some, flatMap_singleton, if_true,
    map_singleton, filterMap_cons, filterMap_nil, addrFromPath_oneEdge]
  exact mem_singleton_self _

theorem oneEdge_keeps (loose : Option Bytes)
    (h : ∀ body, loose = some body → body = textBytes "EDGE\ta\tv\tb") :
    (oneEdge loose).Keeps fun _ => textBytes "EDGE\ta\tv\tb" := by
  refine ⟨nodup_singleton _, nodup_singleton _, fun addr body hmem => ?_, ?_⟩
  · rw [looseCopies_oneEdge, mem_singleton] at hmem
    exact h body (congrArg Prod.snd hmem).symm
  · intro e he addr _
    rw [mem_singleton.mp (show e ∈ [_] from he)]
    refine ⟨"p", [], "EDGE\ta\tv\tb".toList, [], ?_, ?_, by simp⟩
    · simp only [Option.bind_some, strFromUtf8_textBytes]
      decide
    · simp [packChars, oneEdge]

theorem build_lists_loose_edge :
    ListsReadable (oneEdge (some (textBytes "EDGE\ta\tv\tb"))) (fun _ => textBytes "EDGE\ta\tv\tb")
      (Adj.default.build (oneEdge (some (textBytes "EDGE\ta\tv\tb"))) ".") := by
  refine (build_lists_readable_iff (oneEdge_keeps _ fun body h => (Option.some.inj h).symm) _ _).mpr
    ?_
  intro addr hloose
  rw [looseCopies_oneEdge, mem_singleton] at hloose
  cases hloose

/-- The edge is in its pack, but its loose copy cannot be read: it is listed nowhere. -/
theorem build_loses_unreadable_loose : (oneEdge none).Keeps (fun _ => textBytes "EDGE\ta\tv\tb") ∧
    ∀ self : Adj, ¬ ListsReadable (oneEdge none) (fun _ => textBytes "EDGE\ta\tv\tb")
      (self.build (oneEdge none) ".") := by
  have hkeeps := oneEdge_keeps none fun _ h => nomatch h
  refine ⟨hkeeps, fun self hlists => ?_⟩
  have hnone := (build_lists_readable_iff hkeeps self ".").mp hlists oneEdgeAddr
    (by rw [looseCopies_oneEdge]; exact mem_singleton_self _) (packed_oneEdge none)
  exact absurd hnone (by decide)

end AxisBridge.Adjacency
