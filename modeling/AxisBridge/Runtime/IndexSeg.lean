import AxisBridge.Runtime.WalSnapshot

/-! Index segments: what the background indexer appends to them, and what a lookup makes of segments
that were cut. -/
namespace AxisBridge.Indexer
open List Epochs
open WalIndex (IsI64)
open String (ofList ofList_toList toList_append toList_ofList utf8EncodeChar)

/-- `(block_seq, flush_dir, byte_len, idx_cell)`. -/
structure Descriptor where
  blockSeq : ℤ
  flushDir : String
  byteLen : ℤ
  idxCell : ℤ
  blockSeq_i64 : IsI64 blockSeq

/-- A computed entry: the block, its directory and its body. -/
structure Entry where
  blockSeq : ℤ
  flushDir : String
  body : Bytes
  blockSeq_i64 : IsI64 blockSeq
  body_lt : body.length < 2 ^ 63

def buildSuccinctStub (bytes : Bytes) : String := s!"SUCCINCT_STUB len={bytes.length}"

/-- The block's entry, unless it is missing, incomplete, or not of the length its seal recorded. -/
def buildEntry (preallocEnabled : Bool) (d : Volume) (desc : Descriptor) : Option Entry :=
  (d.read (blockPath desc.flushDir desc.blockSeq)).bind fun raw =>
    (splitComplete preallocEnabled raw).bind fun bytes =>
      if 0 ≤ desc.byteLen ∧ (bytes.length : ℤ) ≠ desc.byteLen then none
      else
        -- no allocation is longer
        if h : bytes.length < 2 ^ 63 then
          some ⟨desc.blockSeq, desc.flushDir, bytes, desc.blockSeq_i64, h⟩
        else none

section
variable [Sha256]

def Entry.line (e : Entry) : String :=
  s!"ISEG1\t{e.blockSeq}\tsha256:{sha256Hex e.body}\t{e.body.length}\t{buildSuccinctStub e.body}\n"

/-- What the one write puts behind the segment of a directory. -/
def appendEntries (dir : String) (file : Bytes) (entries : List Entry) : Bytes :=
  file ++ textBytes (String.join ((entries.filter (·.flushDir = dir)).map Entry.line))

/-- A worker's segment of a directory after some calls of `index_build_batch`, and the entries they
put there. -/
inductive Filled (dir : String) : Bytes → List Entry → Prop
  | minted : Filled dir [] []
  | batch {file : Bytes} {es entries : List Entry} {preallocEnabled : Bool}
      {d : Volume} {items : List Descriptor} (h : Filled dir file es)
      (hbuild : items.mapM (buildEntry preallocEnabled d) = some entries) :
      Filled dir (appendEntries dir file entries) (es ++ entries.filter (·.flushDir = dir))

end

/-- A line of a segment: the block and the payload, unless it is torn or invalid. -/
def parseEntryLine (line : String) : Option (ℤ × String) :=
  match split '\t' line with
  | [magic, seq, merkle, len, succinct] =>
    if magic = "ISEG1" ∧ "sha256:".toList <+: merkle.toList ∧ (textBytes merkle).length = 71 then
      (parseI64 seq).bind fun seq => (parseI64 len).map fun len =>
        (seq, s!"{merkle}\t{len}\t{succinct}")
    else none
  | _ => none

def byName (f g : String × Bytes) : Bool := decide (f.1 ≤ g.1)

/-- The last valid entry of a block in a file, or what was found before. -/
def scanFile (seq : ℤ) (found : Option String) (f : String × Bytes) : Option String :=
  match strFromUtf8 f.2 with
  | none => found
  | some text => (lines text).foldl (fun found line =>
      match parseEntryLine line with
      | some (s, entry) => if s = seq then some entry else found
      | none => found) found

/-- The files of the index directory that are segments, in the order of their names. -/
def lookup (files : List (String × Bytes)) (seq : ℤ) : Option String :=
  ((files.filter fun f => decide ("iseg-".toList <+: f.1.toList)).mergeSort byName).foldl
    (scanFile seq) none

/-- `idxseg_lookup`. -/
def idxsegLookup (files : List (String × Bytes)) (seq : ℤ) : String :=
  (lookup files seq).getD ""

/-! ### Lines -/

section
variable [Sha256]

/-- The fields of a line in front of the last one. -/
def Entry.columns (e : Entry) : String :=
  s!"ISEG1\t{e.blockSeq}\t{bytesHash e.body}\t{e.body.length}"

def Entry.text (e : Entry) : String := e.columns ++ "\t" ++ buildSuccinctStub e.body

/-- The payload up to the last field. -/
def Entry.lead (e : Entry) : String := s!"{bytesHash e.body}\t{e.body.length}\t"

def Entry.payload (e : Entry) : String := e.lead ++ buildSuccinctStub e.body

variable {e e' : Entry} {r ds : String} {c : Char} {es : List Entry} {cut : ℕ}

theorem Entry.line_eq (e : Entry) : e.line = e.text ++ "\n" := by
  have hline : e.line = "ISEG1\t" ++ toString e.blockSeq ++ "\tsha256:" ++ sha256Hex e.body ++
      "\t" ++ e.body.length.repr ++ "\t" ++ buildSuccinctStub e.body ++ "\n" := rfl
  have htext : e.text = "ISEG1\t" ++ toString e.blockSeq ++ "\t" ++
      ("sha256:" ++ sha256Hex e.body) ++ "\t" ++
      e.body.length.repr ++ "\t" ++ buildSuccinctStub e.body := rfl
  have htab : "\tsha256:" = "\t" ++ "sha256:" := rfl
  rw [hline, htext, htab]
  simp only [String.append_assoc]

/-- A text of characters that take one byte each. -/
def Narrow (s : String) : Prop := ∀ c ∈ s.toList, c.utf8Size = 1

omit [Sha256] in
theorem narrow_append {s t : String} : Narrow (s ++ t) ↔ Narrow s ∧ Narrow t := by
  simp [Narrow, or_imp, forall_and]

omit [Sha256] in
theorem narrow_of_all {s : String} (h : s.toList.all (·.utf8Size == 1) = true) : Narrow s := by
  intro c hc
  exact beq_iff_eq.mp (all_eq_true.mp h c hc)

omit [Sha256] in
theorem narrow_repr (n : ℕ) : Narrow n.repr := fun _ hc => utf8Size_of_isDigit (isDigit_repr hc)

omit [Sha256] in
theorem narrow_int (n : ℤ) : Narrow (toString n) := by
  intro c hc
  rcases isDigit_int hc with rfl | hdigit
  · rfl
  · exact utf8Size_of_isDigit hdigit

theorem narrow_hash (bytes : Bytes) : Narrow (bytesHash bytes) := by
  have hhash : bytesHash bytes = "sha256:" ++ sha256Hex bytes := rfl
  rw [hhash, narrow_append]
  refine ⟨narrow_of_all rfl, ?_⟩
  intro c hc
  obtain ⟨n, hn, rfl⟩ := hexDigit_of_mem hc
  exact hexDigit_utf8 n hn

omit [Sha256] in
/-- Such a text is cut between characters, wherever it is cut. -/
theorem take_textBytes {s : String} (h : Narrow s) (n : ℕ) :
    (textBytes s).take n = textBytes (ofList (s.toList.take n)) := by
  have hcs : ∀ (cs : List Char) (n : ℕ), (∀ c ∈ cs, c.utf8Size = 1) →
      (cs.flatMap utf8EncodeChar).take n = (cs.take n).flatMap utf8EncodeChar := by
    intro cs
    induction cs with
    | nil =>
      intro n _
      simp
    | cons c cs ih =>
      intro n hnarrow
      cases n with
      | zero => rfl
      | succ n =>
        obtain ⟨b, hb⟩ : ∃ b, utf8EncodeChar c = [b] := by
          apply length_eq_one_iff.mp
          rw [String.length_utf8EncodeChar]
          exact hnarrow c mem_cons_self
        have hrest := ih n fun d hd => hnarrow d (mem_cons_of_mem c hd)
        rw [flatMap_cons, hb, singleton_append, take_succ_cons, hrest,
          take_succ_cons, flatMap_cons, hb, singleton_append]
  rw [textBytes_ofList, ← hcs _ n h, ← textBytes_ofList, ofList_toList]

theorem Entry.narrow_text (e : Entry) : Narrow e.text := by
  have hcolumns : e.columns = "ISEG1\t" ++ toString e.blockSeq ++ "\t" ++ bytesHash e.body ++
      "\t" ++ e.body.length.repr := rfl
  have hstub : buildSuccinctStub e.body = "SUCCINCT_STUB len=" ++ e.body.length.repr := rfl
  simp only [Entry.text, hcolumns, hstub, narrow_append]
  exact ⟨⟨⟨⟨⟨⟨⟨narrow_of_all rfl, narrow_int _⟩, narrow_of_all rfl⟩, narrow_hash _⟩,
    narrow_of_all rfl⟩, narrow_repr _⟩, narrow_of_all rfl⟩, narrow_of_all rfl, narrow_repr _⟩

/-- No character of a hash is `c`. -/
theorem not_mem_hash (hc : ∀ n < 16, c ≠ hexDigit n) (hlit : c ∉ ("sha256:" : String).toList)
    (bytes : Bytes) : c ∉ (bytesHash bytes).toList := by
  have hhash : bytesHash bytes = "sha256:" ++ sha256Hex bytes := rfl
  rw [hhash, toList_append, mem_append, not_or]
  refine ⟨hlit, ?_⟩
  intro hmem
  obtain ⟨n, hn, heq⟩ := hexDigit_of_mem hmem
  exact hc n hn heq

theorem split_columns (e : Entry) : split '\t' e.columns =
    ["ISEG1", toString e.blockSeq, bytesHash e.body, e.body.length.repr] := by
  have hcolumns : e.columns = _ :=
    fields_eq "ISEG1" (toString e.blockSeq) (bytesHash e.body) e.body.length.repr
  rw [hcolumns]
  apply split_intercalate (cons_ne_nil _ _)
  simp only [mem_cons, not_mem_nil, or_false, forall_eq_or_imp, forall_eq]
  exact ⟨by decide, not_mem_int (by decide) rfl _, not_mem_hash (by decide) (by decide) _,
    not_mem_repr rfl _⟩

theorem split_line (hds : '\t' ∉ ds.toList) : split '\t' (e.columns ++ "\t" ++ ds) =
    ["ISEG1", toString e.blockSeq, bytesHash e.body, e.body.length.repr, ds] := by
  have hsplit : split '\t' (e.columns ++ "\t" ++ ds) = split '\t' e.columns ++ split '\t' ds :=
    split_append '\t' e.columns ds
  rw [hsplit, split_columns, split_of_not_mem hds]
  rfl

omit [Sha256] in
theorem tab_not_mem_stub (bytes : Bytes) : '\t' ∉ (buildSuccinctStub bytes).toList := by
  have hstub : buildSuccinctStub bytes = "SUCCINCT_STUB len=" ++ bytes.length.repr := rfl
  rw [hstub, toList_append, mem_append, not_or]
  exact ⟨by decide, not_mem_repr rfl _⟩

/-- A line with five fields is taken, whatever the last of them is. -/
theorem parseEntryLine_columns (hds : '\t' ∉ ds.toList) :
    parseEntryLine (e.columns ++ "\t" ++ ds) = some (e.blockSeq, e.lead ++ ds) := by
  have hhash : bytesHash e.body = "sha256:" ++ sha256Hex e.body := rfl
  have hhead : "sha256:".toList <+: (bytesHash e.body).toList := by
    rw [hhash, toList_append]
    exact prefix_append _ _
  have hlen : (textBytes (bytesHash e.body)).length = 71 := by
    have hhex : (textBytes (sha256Hex e.body)).length = 64 := length_textBytes_hex _
    rw [hhash, textBytes_append, length_append, hhex]
    rfl
  have hseq : parseI64 (toString e.blockSeq) = some e.blockSeq :=
    parseI64_toString e.blockSeq_i64.1 e.blockSeq_i64.2
  have hbody : parseI64 e.body.length.repr = some (e.body.length : ℤ) := by
    rw [← padded_zero]
    exact parseI64_padded e.body_lt
  simp only [parseEntryLine, split_line hds, if_pos (⟨trivial, hhead, hlen⟩ : True ∧ _ ∧ _), hseq,
    hbody, Option.bind_some, Option.map_some]
  rfl

theorem parseEntryLine_text (e : Entry) : parseEntryLine e.text = some (e.blockSeq, e.payload) :=
  parseEntryLine_columns (tab_not_mem_stub e.body)

/-- A cut line is taken only where the cut is in its last field. -/
theorem exists_of_parse_cut {x : ℤ × String} (hr : r.toList <+: e.text.toList)
    (h : parseEntryLine r = some x) :
    ∃ ds : String, ds.toList <+: (buildSuccinctStub e.body).toList ∧ r = e.columns ++ "\t" ++ ds ∧
      x = (e.blockSeq, e.lead ++ ds) := by
  have hfive : (split '\t' r).length = 5 := by
    unfold parseEntryLine at h
    split at h
    · next hsplit => rw [hsplit, length_cons, length_cons, length_cons,
        length_cons, length_singleton]
    · cases h
  have hall : (split '\t' e.text).length = 5 := by
    rw [Entry.text, split_line (tab_not_mem_stub e.body)]
    rfl
  have hr' : r.toList <+:
      (e.columns ++ String.singleton '\t' ++ buildSuccinctStub e.body).toList := hr
  obtain ⟨ds, hds, hcut, -⟩ :=
    prefix_last_field (tab_not_mem_stub e.body) hr' (hfive.trans hall.symm)
  refine ⟨ds, hds, hcut, ?_⟩
  have htab : '\t' ∉ ds.toList := fun hmem => tab_not_mem_stub e.body (hds.subset hmem)
  have hline : r = e.columns ++ "\t" ++ ds := hcut
  rw [hline, parseEntryLine_columns htab] at h
  exact (Option.some.inj h).symm

theorem feed_not_mem_text (e : Entry) : '\n' ∉ e.text.toList := by
  have htext : e.text = "ISEG1\t" ++ toString e.blockSeq ++ "\t" ++ bytesHash e.body ++ "\t" ++
      e.body.length.repr ++ "\t" ++ ("SUCCINCT_STUB len=" ++ e.body.length.repr) := rfl
  simp only [htext, toList_append, mem_append, not_or]
  exact ⟨⟨⟨⟨⟨⟨⟨by decide, not_mem_int (by decide) rfl _⟩, by decide⟩,
    not_mem_hash (by decide) (by decide) _⟩, by decide⟩, not_mem_repr rfl _⟩, by decide⟩,
    by decide, not_mem_repr rfl _⟩

theorem chopReturn_text (e : Entry) : chopReturn e.text = e.text := by
  have htext : e.text = (e.columns ++ "\t" ++ "SUCCINCT_STUB len=") ++ e.body.length.repr := by
    have hstub : buildSuccinctStub e.body = "SUCCINCT_STUB len=" ++ e.body.length.repr := rfl
    rw [Entry.text, hstub, ← String.append_assoc]
  rw [htext]
  apply chopReturn_append _ (int_ne_empty e.body.length)
  intro hlast
  exact not_mem_repr rfl _ (mem_of_getLast? hlast)

/-! ### A segment that is cut -/

theorem Filled.bytes_eq {dir : String} {file : Bytes} (h : Filled dir file es) :
    file = textBytes (ended (es.map Entry.text)) := by
  induction h with
  | minted => rfl
  | @batch file es entries preallocEnabled d items h hbuild ih =>
    have hjoin : String.join ((entries.filter (·.flushDir = dir)).map Entry.line) =
        ended ((entries.filter (·.flushDir = dir)).map Entry.text) := by
      rw [ended, map_map]
      congr 1
      exact map_congr_left fun e _ => e.line_eq
    rw [appendEntries, ih, hjoin, ← textBytes_append, map_append, ended_append]

/-- The entries whose lines lie wholly within the first `cut` bytes; a character is a byte here. -/
def written : ℕ → List Entry → List Entry
  | _, [] => []
  | cut, e :: es =>
    if e.line.toList.length ≤ cut then e :: written (cut - e.line.toList.length) es else []

/-- The entry whose line the cut is in, and what is left of the line. -/
def torn : ℕ → List Entry → Option (Entry × String)
  | _, [] => none
  | cut, e :: es =>
    if e.line.toList.length ≤ cut then torn (cut - e.line.toList.length) es
    else some (e, ofList (e.line.toList.take cut))

def rest (cut : ℕ) (es : List Entry) : String := ((torn cut es).map Prod.snd).getD ""

theorem take_ended (cut : ℕ) (es : List Entry) :
    ofList ((ended (es.map Entry.text)).toList.take cut) =
      ended ((written cut es).map Entry.text) ++ rest cut es := by
  induction es generalizing cut with
  | nil => simp [written, rest, torn]
  | cons e es ih =>
    rw [map_cons, ended_cons, ← e.line_eq, toList_append, take_append, String.ofList_append]
    by_cases hle : e.line.toList.length ≤ cut
    · have hrest : rest cut (e :: es) = rest (cut - e.line.toList.length) es := by
        simp only [rest, torn, if_pos hle]
      rw [take_of_length_le hle, ih, hrest, written, if_pos hle, map_cons, ended_cons,
        ← e.line_eq, ofList_toList, String.append_assoc]
    · have hzero : cut - e.line.toList.length = 0 := by omega
      simp only [hzero, rest, torn, written, if_neg hle, Option.map_some, Option.getD_some,
        take_zero, map_nil, ended_nil, String.empty_append]
      exact String.append_empty

theorem of_torn (h : torn cut es = some (e, r)) : r.toList <+: e.text.toList := by
  induction es generalizing cut with
  | nil => cases h
  | cons e' es ih =>
    rw [torn] at h
    split at h
    · exact ih h
    · next hcut =>
      cases h
      rw [e.line_eq, toList_append] at hcut ⊢
      rw [toList_ofList]
      rcases prefix_concat_iff.mp (List.take_prefix cut (e.text.toList ++ ['\n'])) with heq | hpre
      · have hlen := congrArg List.length heq
        simp only [length_take, length_append] at hlen hcut
        have hone : ("\n" : String).toList.length = 1 := rfl
        simp only [length_singleton, hone] at hlen hcut
        omega
      · exact hpre

theorem feed_not_mem_rest (cut : ℕ) (es : List Entry) : '\n' ∉ (rest cut es).toList := by
  rw [rest]
  cases htorn : torn cut es with
  | none => exact not_mem_nil
  | some p =>
    intro hmem
    exact feed_not_mem_text p.1 ((of_torn htorn).subset hmem)

/-- What a reader takes from a cut segment: the entries in front of the cut, and the torn line if it
passes. -/
def parsed (cut : ℕ) (es : List Entry) : List (ℤ × String) :=
  (written cut es).map (fun e => (e.blockSeq, e.payload)) ++
    ((torn cut es).bind fun p => parseEntryLine p.2).toList

theorem parse_lines (cut : ℕ) (es : List Entry) :
    (lines (ended ((written cut es).map Entry.text) ++ rest cut es)).filterMap parseEntryLine =
      parsed cut es := by
  have hfeed : ∀ l ∈ (written cut es).map Entry.text, '\n' ∉ l.toList := by
    intro l hl
    obtain ⟨e, -, rfl⟩ := mem_map.mp hl
    exact feed_not_mem_text e
  have hwhole : (((written cut es).map Entry.text).map chopReturn).filterMap parseEntryLine =
      (written cut es).map fun e => (e.blockSeq, e.payload) := by
    induction written cut es with
    | nil => rfl
    | cons e es ih =>
      simp only [map_cons, chopReturn_text]
      rw [filterMap_cons_some (parseEntryLine_text e), ih]
  rw [lines_ended hfeed (feed_not_mem_rest cut es), filterMap_append, hwhole, parsed]
  congr 1
  rw [rest]
  cases torn cut es with
  | none => rfl
  | some p =>
    simp only [Option.map_some, Option.getD_some, Option.bind_some]
    by_cases hempty : p.2 = ""
    · rw [hempty]
      rfl
    · rw [if_neg hempty]
      cases hparse : parseEntryLine p.2 with
      | none => rw [filterMap_cons_none hparse]; rfl
      | some x => rw [filterMap_cons_some hparse]; rfl

end

/-! ### A directory of segments -/

/-- A segment of a directory and how many of its bytes are left. -/
structure Segment [Sha256] (dir : String) where
  nanos : ℕ
  pid : ℕ
  file : Bytes
  entries : List Entry
  filled : Filled dir file entries
  cut : ℕ

section
variable [Sha256] {dir : String}

namespace Segment

def name (s : Segment dir) : String := s!"iseg-{padded 19 s.nanos}-{s.pid}"

/-- The file that is left of a segment. -/
def left (s : Segment dir) : String × Bytes := (s.name, s.file.take s.cut)

/-- The entries that lie wholly in front of the cut. -/
def written (s : Segment dir) : List Entry := Indexer.written s.cut s.entries

def torn (s : Segment dir) : Option (Entry × String) := Indexer.torn s.cut s.entries

/-- The torn line of a block, cut in its last field. -/
def Trusts (s : Segment dir) (seq : ℤ) (e : Entry) (r : String) : Prop :=
  s.torn = some (e, r) ∧ e.blockSeq = seq ∧ (e.columns ++ "\t").toList <+: r.toList

/-- Nothing that is left of a segment is taken for an entry of the block. -/
def Lacks (s : Segment dir) (seq : ℤ) : Prop :=
  (∀ e ∈ s.written, e.blockSeq ≠ seq) ∧ ∀ e r, ¬ s.Trusts seq e r

end Segment

/-- The segments in the order of their names. -/
def inOrder (segs : List (Segment dir)) : List (Segment dir) :=
  segs.mergeSort fun s t => byName s.left t.left

/-- An answer is the payload of an entry of the block that lies wholly in front of its segment's
cut, or there is none. -/
def Answers (segs : List (Segment dir)) (seq : ℤ) (answer : String) : Prop :=
  answer = "" ∨ ∃ s ∈ segs, ∃ e ∈ s.written, e.blockSeq = seq ∧ answer = e.payload

/-- The last line of the block that is left is torn in its last field; and if it lacks only its line
feed, the same entry does not lie whole elsewhere. -/
def Misled (segs : List (Segment dir)) (seq : ℤ) : Prop :=
  ∃ before s after e r, inOrder segs = before ++ s :: after ∧ s.Trusts seq e r ∧
    (∀ s' ∈ after, s'.Lacks seq) ∧
    (r = e.text → ∀ s ∈ segs, ∀ e' ∈ s.written, e'.blockSeq = seq → e'.payload ≠ e.payload)

variable {s : Segment dir} {segs : List (Segment dir)} {seq : ℤ} {e e' : Entry} {r ds : String}

namespace Segment

def items (s : Segment dir) : List (ℤ × String) := parsed s.cut s.entries

theorem text_left (s : Segment dir) : strFromUtf8 s.left.2 =
    some (ended ((Indexer.written s.cut s.entries).map Entry.text) ++ rest s.cut s.entries) := by
  have hnarrow : Narrow (ended (s.entries.map Entry.text)) := by
    induction s.entries with
    | nil => exact narrow_of_all rfl
    | cons e es ih =>
      rw [map_cons, ended_cons, narrow_append, narrow_append]
      exact ⟨⟨e.narrow_text, narrow_of_all rfl⟩, ih⟩
  rw [left, s.filled.bytes_eq, take_textBytes hnarrow, take_ended, strFromUtf8_textBytes]

/-- What a torn line adds. -/
theorem mem_items_torn {x : ℤ × String} (h : x ∈ (s.torn.bind fun p => parseEntryLine p.2).toList) :
    ∃ e r ds, s.torn = some (e, r) ∧ ds.toList <+: (buildSuccinctStub e.body).toList ∧
      r = e.columns ++ "\t" ++ ds ∧ x = (e.blockSeq, e.lead ++ ds) := by
  obtain ⟨⟨e, r⟩, htorn, hparse⟩ := Option.bind_eq_some_iff.mp (Option.mem_toList.mp h)
  obtain ⟨ds, hds, hr, hx⟩ := exists_of_parse_cut (of_torn htorn) hparse
  exact ⟨e, r, ds, htorn, hds, hr, hx⟩

theorem Trusts.parse (h : s.Trusts seq e r) : ∃ ds : String,
    ds.toList <+: (buildSuccinctStub e.body).toList ∧ r = e.columns ++ "\t" ++ ds ∧
      parseEntryLine r = some (seq, e.lead ++ ds) := by
  obtain ⟨htorn, rfl, cs, hcs⟩ := h
  have hr : r = e.columns ++ "\t" ++ ofList cs :=
    String.toList_inj.mp (by simpa using hcs.symm)
  have hpre := of_torn htorn
  rw [Entry.text, toList_append, ← hcs, prefix_append_right_inj] at hpre
  have htab : '\t' ∉ (ofList cs).toList := by
    intro hmem
    rw [toList_ofList] at hmem
    exact tab_not_mem_stub e.body (hpre.subset hmem)
  refine ⟨ofList cs, by rwa [toList_ofList], hr, ?_⟩
  rw [hr, parseEntryLine_columns htab]

theorem Lacks.items (h : s.Lacks seq) : ∀ x ∈ s.items, decide (x.1 = seq) = false := by
  intro x hx
  apply decide_eq_false
  rcases mem_append.mp hx with hx | hx
  · obtain ⟨e, he, rfl⟩ := mem_map.mp hx
    exact h.1 e he
  · obtain ⟨e, r, ds, htorn, -, hr, rfl⟩ := mem_items_torn hx
    intro hseq
    refine h.2 e r ⟨htorn, hseq, ?_⟩
    rw [hr]
    exact ⟨ds.toList, by simp⟩

theorem lacks_of_items (h : ∀ x ∈ s.items, decide (x.1 = seq) = false) : s.Lacks seq := by
  constructor
  · intro e he
    exact of_decide_eq_false (h _ (mem_append_left _ (mem_map_of_mem he)))
  · intro e r htrusts
    obtain ⟨ds, -, -, hparse⟩ := htrusts.parse
    have hmem : (seq, e.lead ++ ds) ∈ s.items := by
      apply mem_append_right
      exact Option.mem_toList.mpr (Option.bind_eq_some_iff.mpr ⟨_, htrusts.1, hparse⟩)
    exact absurd rfl (of_decide_eq_false (h _ hmem))

end Segment

open Segment (left items)

theorem Segment.scanFile_left (s : Segment dir) (seq : ℤ) (found : Option String) :
    scanFile seq found s.left =
      ((last (fun x => decide (x.1 = seq)) s.items).map Prod.snd).or found := by
  simp only [scanFile, s.text_left]
  rw [items, ← parse_lines, ← foldl_last, foldl_filterMap]
  congr 1
  funext found line
  cases parseEntryLine line with
  | none => rfl
  | some x =>
    simp

/-- A lookup finds the last item of the block. -/
theorem lookup_eq (segs : List (Segment dir)) (seq : ℤ) :
    lookup (segs.map left) seq =
      (last (fun x => decide (x.1 = seq)) ((inOrder segs).flatMap items)).map Prod.snd := by
  have hnames : (segs.map left).filter (fun f => decide ("iseg-".toList <+: f.1.toList)) =
      segs.map left := by
    apply filter_eq_self.mpr
    intro f hf
    obtain ⟨s, -, rfl⟩ := mem_map.mp hf
    have hname : s.name = "iseg-" ++ (padded 19 s.nanos ++ "-" ++ s.pid.repr) := by
      rw [String.append_assoc, ← String.append_assoc, ← String.append_assoc]
      rfl
    apply decide_eq_true
    rw [left, hname, toList_append]
    exact prefix_append _ _
  have horder : (segs.map left).mergeSort byName = (inOrder segs).map left :=
    (map_mergeSort (f := left) fun _ _ _ _ => rfl).symm
  have hfold : ∀ (l : List (Segment dir)) (found : Option String),
      (l.map left).foldl (scanFile seq) found =
        ((last (fun x => decide (x.1 = seq)) (l.flatMap items)).map Prod.snd).or found := by
    intro l
    induction l with
    | nil =>
      intro found
      rfl
    | cons s l ih =>
      intro found
      rw [map_cons, foldl_cons, s.scanFile_left, ih, flatMap_cons, last_append,
        Option.map_or, Option.or_assoc]
  rw [lookup, hnames, horder, hfold, Option.or_none]

/-- The last segment in which the block is decides. -/
theorem lookup_of_last {before after : List (Segment dir)}
    (horder : inOrder segs = before ++ s :: after) (hafter : ∀ s' ∈ after, s'.Lacks seq)
    {x : ℤ × String} (hx : last (fun x => decide (x.1 = seq)) s.items = some x) :
    idxsegLookup (segs.map left) seq = x.2 := by
  have hnone : last (fun x => decide (x.1 = seq)) (after.flatMap items) = none := by
    apply last_eq_none.mpr
    intro y hy
    obtain ⟨s', hs', hy⟩ := mem_flatMap.mp hy
    exact (hafter s' hs').items y hy
  rw [idxsegLookup, lookup_eq, horder, flatMap_append, flatMap_cons, last_append,
    last_append, hnone, hx]
  rfl

theorem Segment.Trusts.last (h : s.Trusts seq e r) : ∃ ds : String,
    ds.toList <+: (buildSuccinctStub e.body).toList ∧ r = e.columns ++ "\t" ++ ds ∧
      last (fun x => decide (x.1 = seq)) s.items = some (seq, e.lead ++ ds) := by
  obtain ⟨ds, hds, hr, hparse⟩ := h.parse
  refine ⟨ds, hds, hr, ?_⟩
  have htorn : Indexer.torn s.cut s.entries = some (e, r) := h.1
  have hone : Epochs.last (fun x : ℤ × String => decide (x.1 = seq)) [(seq, e.lead ++ ds)] =
      some (seq, e.lead ++ ds) := by
    simp [Epochs.last]
  rw [items, parsed, Epochs.last_append, htorn, Option.bind_some, hparse,
    Option.toList_some, hone, Option.some_or]

/-- The last field of a payload says no more than the one in front of it. -/
theorem eq_stub_of_payload_eq (htab : '\t' ∉ ds.toList) (h : e.lead ++ ds = e'.payload) :
    ds = buildSuccinctStub e.body := by
  have hfields (e : Entry) {ds : String} (htab : '\t' ∉ ds.toList) : split '\t' (e.lead ++ ds) =
      [bytesHash e.body, e.body.length.repr, ds] := by
    have hline : e.lead ++ ds = bytesHash e.body ++ String.singleton '\t' ++
        (e.body.length.repr ++ String.singleton '\t' ++ ds) := by
      rw [← String.append_assoc, ← String.append_assoc]
      rfl
    rw [hline, split_append, split_append, split_of_not_mem htab,
      split_of_not_mem (not_mem_hash (by decide) (by decide) _),
        split_of_not_mem (not_mem_repr rfl _)]
    rfl
  have hsplit := congrArg (split '\t') h
  rw [hfields e htab, Entry.payload, hfields e' (tab_not_mem_stub e'.body)] at hsplit
  obtain ⟨-, hsplit⟩ := List.cons.inj hsplit
  obtain ⟨hlen, hsplit⟩ := List.cons.inj hsplit
  obtain ⟨hds, -⟩ := List.cons.inj hsplit
  have hstub (bytes : Bytes) : buildSuccinctStub bytes =
      "SUCCINCT_STUB len=" ++ bytes.length.repr := rfl
  rw [hds, hstub, hstub, hlen]

theorem lead_append_ne_empty (e : Entry) (ds : String) : e.lead ++ ds ≠ "" := by
  have hlead : e.lead = "sha256:" ++ (sha256Hex e.body ++ "\t" ++ e.body.length.repr ++ "\t") := by
    rw [← String.append_assoc, ← String.append_assoc, ← String.append_assoc]
    rfl
  intro hempty
  have hchars := congrArg String.toList hempty
  rw [hlead, toList_append, toList_append] at hchars
  cases hchars

theorem Misled.not_answers (h : Misled segs seq) :
    ¬ Answers segs seq (idxsegLookup (segs.map left) seq) := by
  obtain ⟨before, s, after, e, r, horder, htrusts, hafter, hunique⟩ := h
  obtain ⟨ds, hds, hr, hlast⟩ := htrusts.last
  rw [lookup_of_last horder hafter hlast]
  rintro (hempty | ⟨s', hs', e', he', hseq, hpayload⟩)
  · exact lead_append_ne_empty e ds hempty
  · have htab : '\t' ∉ ds.toList := fun hmem => tab_not_mem_stub e.body (hds.subset hmem)
    have hstub := eq_stub_of_payload_eq htab hpayload
    rw [hstub] at hr hpayload
    exact hunique hr s' hs' e' he' hseq hpayload.symm

/-- A block's answer is an entry that lies whole in what is left, or none, exactly when its last
line is not one that is torn in its last field. -/
theorem idxseg_lookup_iff (segs : List (Segment dir)) (seq : ℤ) :
    Answers segs seq (idxsegLookup (segs.map left) seq) ↔ ¬ Misled segs seq := by
  constructor
  · intro hanswer hmisled
    exact hmisled.not_answers hanswer
  · intro hgood
    by_cases hall : ∀ s ∈ inOrder segs, s.Lacks seq
    · left
      have hnone : last (fun x : ℤ × String => decide (x.1 = seq))
          ((inOrder segs).flatMap items) = none := by
        apply last_eq_none.mpr
        intro x hx
        obtain ⟨s, hs, hx⟩ := mem_flatMap.mp hx
        exact (hall s hs).items x hx
      rw [idxsegLookup, lookup_eq, hnone]
      rfl
    · classical
      have hex : ∃ s ∈ inOrder segs, decide (¬ s.Lacks seq) = true := by
        by_contra hnot
        exact hall fun s hs => by_contra fun hlacks => hnot ⟨s, hs, decide_eq_true hlacks⟩
      obtain ⟨s, hs, -, hlast⟩ := exists_last hex
      obtain ⟨before, after, horder, hlacks, hafter⟩ := split_of_last hlast
      have hafter : ∀ s' ∈ after, s'.Lacks seq := fun s' hs' =>
        not_not.mp (of_decide_eq_false (hafter s' hs'))
      by_cases htrusts : ∃ e r, s.Trusts seq e r
      · -- the torn line passes, so it must be whole but for its line feed
        obtain ⟨e, r, htrusts⟩ := htrusts
        obtain ⟨ds, -, hr, hlast⟩ := htrusts.last
        have hsame : r = e.text ∧ ∃ s ∈ segs, ∃ e' ∈ s.written, e'.blockSeq = seq ∧
            e'.payload = e.payload := by
          by_contra hnot
          refine hgood ⟨before, s, after, e, r, horder, htrusts, hafter, ?_⟩
          intro hwhole s' hs' e' he' hseq hpayload
          exact hnot ⟨hwhole, s', hs', e', he', hseq, hpayload⟩
        obtain ⟨hwhole, s', hs', e', he', hseq, hpayload⟩ := hsame
        have hds : ds = buildSuccinctStub e.body := by
          have htext : e.columns ++ "\t" ++ ds = e.columns ++ "\t" ++ buildSuccinctStub e.body :=
            hr.symm.trans hwhole
          exact append_cancel htext
        right
        refine ⟨s', hs', e', he', hseq, ?_⟩
        rw [lookup_of_last horder hafter hlast, hds, hpayload]
        rfl
      · -- the last line of the block is a whole one
        have htorn : last (fun x : ℤ × String => decide (x.1 = seq))
            ((Indexer.torn s.cut s.entries).bind fun p => parseEntryLine p.2).toList = none := by
          apply last_eq_none.mpr
          intro x hx
          obtain ⟨e, r, ds, htorn, -, hr, rfl⟩ := Segment.mem_items_torn hx
          apply decide_eq_false
          intro hseq
          refine htrusts ⟨e, r, htorn, hseq, ?_⟩
          rw [hr]
          exact ⟨ds.toList, by simp⟩
        have hitem : ∃ x ∈ s.items, decide (x.1 = seq) = true := by
          by_contra hnot
          refine of_decide_eq_true hlacks (Segment.lacks_of_items ?_)
          intro x hx
          exact Bool.eq_false_iff.mpr fun htrue => hnot ⟨x, hx, htrue⟩
        obtain ⟨x, hx, hxseq, hlast⟩ := exists_last hitem
        have hfound := hlast
        rw [items, parsed, last_append, htorn, Option.none_or] at hfound
        obtain ⟨front, back, hmap, -, -⟩ := split_of_last hfound
        have hmem : x ∈ (Indexer.written s.cut s.entries).map fun e => (e.blockSeq, e.payload) := by
          rw [hmap]
          exact mem_append_right _ mem_cons_self
        obtain ⟨e, he, rfl⟩ := mem_map.mp hmem
        right
        refine ⟨s, mem_mergeSort.mp hs, e, he, of_decide_eq_true hxseq, ?_⟩
        exact lookup_of_last horder hafter hlast

end

attribute [local instance] textDigests

theorem zero_i64 : IsI64 0 := ⟨by norm_num, by norm_num⟩

theorem one_lt_alloc : ([97] : Bytes).length < 2 ^ 63 := by norm_num

/-- A block of one byte. -/
def oneByte : Entry := ⟨0, "d", [97], zero_i64, one_lt_alloc⟩

def oneBlock : Volume := ⟨[⟨[97], 0⟩], [("d/block-0.bin", 0)], []⟩

theorem filled_oneByte : Filled "d" (appendEntries "d" [] [oneByte]) [oneByte] := by
  have hread : oneBlock.read (blockPath "d" 0) = some [97] := rfl
  have hbuild : [(⟨0, "d", 1, 0, zero_i64⟩ : Descriptor)].mapM (buildEntry false oneBlock) =
      some [oneByte] := by
    have hsplit : splitComplete false [97] = some [97] := rfl
    have hentry : buildEntry false oneBlock ⟨0, "d", 1, 0, zero_i64⟩ = some oneByte := by
      have hcheck : ¬ ((0 : ℤ) ≤ 1 ∧ (([97] : Bytes).length : ℤ) ≠ 1) := fun h => h.2 rfl
      rw [buildEntry, hread, Option.bind_some, hsplit, Option.bind_some, if_neg hcheck,
        dif_pos one_lt_alloc]
      rfl
    simp only [mapM_cons, mapM_nil, hentry]
    rfl
  exact .batch .minted hbuild

/-- The line of the block, its last field cut behind four letters. -/
def tornLine : String := oneByte.columns ++ "\t" ++ "SUCC"

def tornSegment : Segment "d" :=
  ⟨1, 1, _, [oneByte], filled_oneByte, tornLine.toList.length⟩

/-- The four letters are answered as the last field of the payload. -/
theorem idxseg_torn_line_trusted :
    idxsegLookup [tornSegment.left] 0 = oneByte.lead ++ "SUCC" ∧
      ¬ Answers [tornSegment] 0 (idxsegLookup [tornSegment.left] 0) := by
  have hline : oneByte.line = tornLine ++ "INCT_STUB len=1\n" := by
    have hstub : buildSuccinctStub oneByte.body ++ "\n" = "SUCC" ++ "INCT_STUB len=1\n" := rfl
    rw [Entry.line_eq, Entry.text, String.append_assoc, hstub, ← String.append_assoc]
    rfl
  have hcut : ¬ oneByte.line.toList.length ≤ tornLine.toList.length := by
    have hmore : ("INCT_STUB len=1\n" : String).toList.length = 16 := rfl
    rw [hline, toList_append, length_append, hmore]
    omega
  have htorn : tornSegment.torn = some (oneByte, tornLine) := by
    have hleft : ofList (oneByte.line.toList.take tornLine.toList.length) = tornLine := by
      rw [hline, toList_append, take_left, ofList_toList]
    have hone : torn tornLine.toList.length [oneByte] = some (oneByte, tornLine) := by
      rw [torn, if_neg hcut, hleft]
    exact hone
  have hwritten : tornSegment.written = [] := by
    have hone : written tornLine.toList.length [oneByte] = [] := by rw [written, if_neg hcut]
    exact hone
  have htrusts : tornSegment.Trusts 0 oneByte tornLine := by
    refine ⟨htorn, rfl, ?_⟩
    rw [tornLine]
    exact ⟨("SUCC" : String).toList, by simp⟩
  have horder : inOrder [tornSegment] = [] ++ tornSegment :: [] := mergeSort_singleton _
  have hnone : ∀ s' ∈ ([] : List (Segment "d")), s'.Lacks 0 := fun _ h => absurd h not_mem_nil
  have hmisled : Misled [tornSegment] 0 := by
    refine ⟨[], tornSegment, [], oneByte, tornLine, horder, htrusts, hnone, ?_⟩
    intro _ s hs e' he'
    obtain rfl := mem_singleton.mp hs
    rw [hwritten] at he'
    cases he'
  obtain ⟨ds, -, hr, hlast⟩ := htrusts.last
  have hds : ds = "SUCC" := by
    have htext : oneByte.columns ++ "\t" ++ "SUCC" = oneByte.columns ++ "\t" ++ ds := hr
    exact (append_cancel htext).symm
  refine ⟨?_, hmisled.not_answers⟩
  rw [← hds]
  exact lookup_of_last horder hnone hlast

end AxisBridge.Indexer
