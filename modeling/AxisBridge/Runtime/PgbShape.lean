import AxisBridge.Lib.Reach
import AxisBridge.Runtime.Lines
import AxisBridge.Runtime.RawFrames

/-! The shapes of prepared inserts: registered by the statement's text, logged, and looked up again
when the rows are derived. -/
namespace AxisBridge
open List Function
open String (ofList toList_append)

open StdText (toUppercase)

namespace RawBlk

section
variable [StdText]

/-- The columns of an insert, from the text behind its first parenthesis. -/
def columnsOf (rest : String) : List String :=
  ((split ',' (((splitOnce ')' rest).map Prod.fst).getD "")).map trim).filter (· ≠ "")

/-- The table and the columns of a statement, if it is an insert that names them; there is no result
where the slice of the text panics. -/
def insertShape (sql : String) : Option (Option Shape) :=
  if ¬"INSERT".toList <+: (toUppercase (trimStart sql)).toList then some none
  else
    match findText (toUppercase sql) "INTO", findText (toUppercase sql) "(" with
    | some si, some ei =>
      if ei < si + 4 then some none
      else
        match getRange sql (si + 4) ei with
        | none => some none
        | some t =>
          (getRange sql (ei + 1) (textBytes sql).length).map fun rest =>
            if trim t = "" ∨ columnsOf rest = [] then none else some (trim t, columnsOf rest)
    | _, _ => some none

/-- `append_shape_durable`, unless the log has the id already. -/
def register (log : Bytes) (shape : Shape) : Bytes :=
  if (loadShapes log (shapeId shape)).isSome then log
  else log ++ textBytes (shapeLine (shapeId shape) shape ++ "\n")

def pgbPayload (id : ℕ) (params : Bytes) : Bytes := textBytes (padded 20 id) ++ params

/-- The row as a thread of the pool derives it, and what it keeps of the log then. -/
def pgbRecord (cache : ℕ → Option Shape) (log payload : Bytes) : String × (ℕ → Option Shape) :=
  if payload.length < 20 then ("", cache)
  else
    match (strFromUtf8 (payload.take 20)).bind parseUsize with
    | none => ("", cache)
    | some id =>
      let loaded := loadShapes log
      let held := match cache id with
        | some shape => (some shape, cache)
        | none => (loaded id, fun k => (loaded k).or (cache k))
      match held.1, decodeParams (payload.drop 20) with
      | some shape, some vals => ((rowOf shape vals).1 ++ "\t" ++ (rowOf shape vals).2, held.2)
      | _, _ => ("", held.2)

/-- A derived row as `pgb_record` writes it, nothing where there is none. -/
def rowText : Option (String × String) → String
  | some (name, record) => name ++ "\t" ++ record
  | none => ""

/-- The log, the shapes that each thread of the process keeps, and the shapes that completed calls
have registered under the ids they returned. -/
structure ShapeWorld where
  log : Bytes
  cache : ℕ → ℕ → Option Shape
  registered : List (ℕ × Shape)

def ShapeWorld.start : ShapeWorld := ⟨[], fun _ _ => none, []⟩

/-- A call that completes: the id of the shape is returned, and 0 says that there is none. -/
def ShapeWorld.withShape (w : ShapeWorld) (shape : Shape) : ShapeWorld :=
  { w with
    log := register w.log shape
    registered :=
      if shapeId shape = 0 then w.registered else w.registered ++ [(shapeId shape, shape)] }

/-- What is left of the process when some of a line has got into the log. -/
def ShapeWorld.crashed (w : ShapeWorld) (left : Bytes) : ShapeWorld :=
  ⟨w.log ++ left, fun _ _ => none, w.registered⟩

/-- `crashInAppend` leaves some of the line in the log. -/
inductive ShapeAction
  | parseShape (sql : String)
  | crashInAppend (sql : String) (left : Bytes)
  | restart
  | record (t : ℕ) (payload : Bytes)

inductive ShapeStep : ShapeAction → ShapeWorld → ShapeWorld → Prop
  | registered {w : ShapeWorld} {sql : String} {shape : Shape}
      (hsql : insertShape sql = some (some shape)) :
      ShapeStep (.parseShape sql) w (w.withShape shape)
  | notRegistered {w : ShapeWorld} {sql : String}
      (hsql : ∀ shape, insertShape sql ≠ some (some shape)) : ShapeStep (.parseShape sql) w w
  | crashInAppend {w : ShapeWorld} {sql : String} {shape : Shape} {left : Bytes}
      (hsql : insertShape sql = some (some shape)) (hnew : loadShapes w.log (shapeId shape) = none)
      (hleft : left <+: textBytes (shapeLine (shapeId shape) shape ++ "\n")) :
      ShapeStep (.crashInAppend sql left) w (w.crashed left)
  | restart {w : ShapeWorld} : ShapeStep .restart w (w.crashed [])
  | record {w : ShapeWorld} {t : ℕ} {payload : Bytes} :
      ShapeStep (.record t payload) w { w with
        cache := update w.cache t (pgbRecord (w.cache t) w.log payload).2 }

/-- No tab and no line feed in a shape's names. -/
def PlainNames (shape : Shape) : Prop :=
  ∀ name ∈ shape.1 :: shape.2, '\t' ∉ name.toList ∧ '\n' ∉ name.toList

/-- The log is text and ends with a line feed, or is empty. -/
def WholeLines (log : Bytes) : Prop := ∃ txt, log = textBytes txt ∧ EndsLine txt

/-- A shape is registered where the log has it under its id already; or where its id is new, its
names are plain and the log has no torn line at its end. A crash leaves nothing of its line, or
whole characters of a line without line feeds in its names, behind whole lines. -/
def Unmixed (w : ShapeWorld) : ShapeAction → Prop
  | .parseShape sql => ∀ shape, insertShape sql = some (some shape) →
      match loadShapes w.log (shapeId shape) with
      | some held => shapeId shape ≠ 0 → held = shape
      | none => PlainNames shape ∧ WholeLines w.log
  | .crashInAppend sql left => ∀ shape, insertShape sql = some (some shape) → left = [] ∨
      WholeLines w.log ∧ (∀ name ∈ shape.1 :: shape.2, '\n' ∉ name.toList) ∧
        ∃ part, left = textBytes part
  | _ => True

/-- Every shape that was registered is found under its id, and both decoders derive the same row
from a payload of it, whatever a thread has kept. -/
def ShapesSurvive (w : ShapeWorld) : Prop :=
  ∀ id shape, (id, shape) ∈ w.registered → loadShapes w.log id = some shape ∧
    ∀ t params, (pgbRecord (w.cache t) w.log (pgbPayload id params)).1 =
      rowText (deriveB (pgbPayload id params) (loadShapes w.log))

end

/-! ### Lines and shapes -/

section
variable {ls : List String} {line q txt : String} {id k : ℕ} {shape s : Shape} {log : Bytes}

/-- What the lines of a log say, the later ones over the earlier. -/
def shapesOf (ls : List String) : ℕ → Option Shape :=
  (ls.filterMap parseShapeLine).foldl (fun m e => update m e.1 (some e.2)) fun _ => none

theorem loadShapes_textBytes (txt : String) :
    loadShapes (textBytes txt) = shapesOf (lines txt) := by
  rw [loadShapes, strFromUtf8_textBytes]
  rfl

theorem shapesOf_concat_some (h : parseShapeLine line = some (id, s)) :
    shapesOf (ls ++ [line]) = update (shapesOf ls) id (some s) := by
  simp only [shapesOf, filterMap_append, foldl_append, filterMap_cons, h,
    filterMap_nil, foldl_cons, foldl_nil]

theorem shapesOf_concat_none (h : parseShapeLine line = none) :
    shapesOf (ls ++ [line]) = shapesOf ls := by
  simp only [shapesOf, filterMap_append, filterMap_cons, h, filterMap_nil, append_nil]

theorem tab_not_mem_id (id : ℕ) : '\t' ∉ (toString id).toList := by
  intro h
  have hdigit := isDigit_repr h
  revert hdigit
  decide

theorem lf_not_mem_id (id : ℕ) : '\n' ∉ (toString id).toList := by
  intro h
  have hdigit := isDigit_repr h
  revert hdigit
  decide

theorem parseUsize_id (h : id < 2 ^ 64) : parseUsize (toString id) = some id := parseUsize_repr h

theorem shapeId_lt (shape : Shape) : shapeId shape < 2 ^ 63 := by
  rw [shapeId, UInt64.toNat_and]
  exact lt_of_le_of_lt Nat.and_le_right (by decide)

/-- What `insertShape` takes apart: there are columns, none is empty or has a comma, and none ends
with a carriage return. -/
structure Trimmed (shape : Shape) : Prop where
  ne_nil : shape.2 ≠ []
  nonempty : ∀ c ∈ shape.2, c ≠ ""
  no_comma : ∀ c ∈ shape.2, ',' ∉ c.toList
  no_return : ∀ c ∈ shape.2, c.toList.getLast? ≠ some '\r'

theorem lf_not_mem_line (h : ∀ name ∈ shape.1 :: shape.2, '\n' ∉ name.toList) :
    '\n' ∉ (shapeLine id shape).toList := by
  intro hmem
  simp only [shapeLine, toList_append, mem_append] at hmem
  rcases hmem with (((hmem | hmem) | hmem) | hmem) | hmem
  · exact lf_not_mem_id id hmem
  · simp at hmem
  · exact h _ (mem_cons_self ..) hmem
  · simp at hmem
  · rcases mem_intercalate ',' hmem with hmem | ⟨c, hc, hmem⟩
    · simp at hmem
    · exact h c (mem_cons_of_mem _ hc) hmem

theorem shapeLine_eq (id : ℕ) (shape : Shape) : shapeLine id shape =
    toString id ++ String.singleton '\t' ++
      (shape.1 ++ String.singleton '\t' ++ ",".intercalate shape.2) := by
  have htab : "\t" = String.singleton '\t' := rfl
  rw [shapeLine, htab]
  simp only [String.append_assoc]

/-- A line says what was written to it. -/
theorem parseShapeLine_shapeLine (htrim : Trimmed shape) (hplain : PlainNames shape)
    (hid : id < 2 ^ 64) : parseShapeLine (shapeLine id shape) = some (id, shape) := by
  have hcols : '\t' ∉ (",".intercalate shape.2).toList := by
    intro hmem
    rcases mem_intercalate ',' hmem with hmem | ⟨c, hc, hmem⟩
    · simp at hmem
    · exact (hplain c (mem_cons_of_mem _ hc)).1 hmem
  have htable : '\t' ∉ shape.1.toList := (hplain _ (mem_cons_self ..)).1
  have hsplit : split '\t' (shapeLine id shape) =
      [toString id, shape.1, ",".intercalate shape.2] := by
    rw [shapeLine_eq, split_append, split_append, split_of_not_mem (tab_not_mem_id id),
      split_of_not_mem htable, split_of_not_mem hcols]
    rfl
  have hjoin : split ',' (",".intercalate shape.2) = shape.2 :=
    split_intercalate htrim.ne_nil htrim.no_comma
  simp only [parseShapeLine, hsplit, parseUsize_id hid, Option.map_some, hjoin]

theorem parseShapeLine_no_tab (h : '\t' ∉ q.toList) : parseShapeLine q = none := by
  rw [parseShapeLine, split_of_not_mem h]

/-- Whatever is left of a line, it says nothing of any other id. -/
theorem parseShapeLine_part (hid : id < 2 ^ 64) (hpart : q.toList <+: (shapeLine id shape).toList)
    (h : parseShapeLine q = some (k, s)) : k = id := by
  have hfront : (toString id).toList ++ ['\t'] <+: (shapeLine id shape).toList := by
    rw [shapeLine_eq, toList_append, toList_append, String.toList_singleton]
    exact prefix_append _ _
  rcases prefix_or_prefix_of_prefix hfront hpart with ⟨tail, htail⟩ | hshort
  · have hq : q = toString id ++ String.singleton '\t' ++ ofList tail := by
      apply String.toList_inj.mp
      simp [← htail]
    rw [parseShapeLine, hq, split_append, split_of_not_mem (tab_not_mem_id id)] at h
    cases hpieces : split '\t' (ofList tail) with
    | nil => simp [hpieces] at h
    | cons table pieces =>
      cases pieces with
      | nil => simp [hpieces] at h
      | cons cols pieces =>
        simp only [hpieces, cons_append, nil_append, parseUsize_id hid, Option.map_some,
          Option.some.injEq, Prod.mk.injEq] at h
        exact h.1.symm
  · rcases prefix_concat_iff.mp hshort with hq | hq
    · have hempty : q = toString id ++ String.singleton '\t' ++ "" := by
        apply String.toList_inj.mp
        simp [hq]
      have hlast : '\t' ∉ "".toList := not_mem_nil
      rw [parseShapeLine, hempty, split_append, split_of_not_mem (tab_not_mem_id id),
        split_of_not_mem hlast] at h
      simp at h
    · rw [parseShapeLine_no_tab fun hmem => tab_not_mem_id id (hq.subset hmem)] at h
      cases h

theorem trimmed_columnsOf {table rest : String} (h : columnsOf rest ≠ []) :
    Trimmed (table, columnsOf rest) := by
  have hcol : ∀ c ∈ columnsOf rest, c ≠ "" ∧ ∃ piece, ',' ∉ piece.toList ∧ c = trim piece := by
    intro c hc
    obtain ⟨hc, hne⟩ := mem_filter.mp hc
    obtain ⟨piece, hpiece, rfl⟩ := mem_map.mp hc
    exact ⟨by simpa using hne, piece, (of_mem_split hpiece).1, rfl⟩
  generalize columnsOf rest = cols at h hcol
  refine ⟨h, fun c hc => (hcol c hc).1, ?_, ?_⟩
  · intro c hc hcomma
    obtain ⟨-, piece, hpiece, rfl⟩ := hcol c hc
    exact hpiece (trim_subset piece hcomma)
  · intro c hc hlast
    obtain ⟨-, piece, -, rfl⟩ := hcol c hc
    have hspace := last_trim hlast
    revert hspace
    decide

theorem insertShape_trimmed [StdText] {sql : String} (h : insertShape sql = some (some shape)) :
    Trimmed shape := by
  unfold insertShape at h
  split at h
  · cases h
  · split at h
    · split at h
      · cases h
      · split at h
        · cases h
        · obtain ⟨rest, -, hshape⟩ := Option.map_eq_some_iff.mp h
          split at hshape
          · cases hshape
          · rename_i hcols
            cases hshape
            exact trimmed_columnsOf (not_or.mp hcols).2
    · cases h

/-! ### What an append does to the log -/

/-- The later log has every shape of the earlier, under the same id. -/
def Keeps (log log' : Bytes) : Prop :=
  ∀ k s, loadShapes log k = some s → loadShapes log' k = some s

theorem Keeps.refl (log : Bytes) : Keeps log log := fun _ _ h => h

theorem Keeps.nil (log : Bytes) : Keeps log (log ++ []) := by
  rw [append_nil]
  exact Keeps.refl log

/-- One more line, for an id that the log did not have. -/
theorem keeps_line {log' : Bytes} (hnew : shapesOf ls id = none)
    (hlog : loadShapes log = shapesOf ls) (hlog' : loadShapes log' = shapesOf (ls ++ [q]))
    (hq : ∀ k s, parseShapeLine q = some (k, s) → k = id) : Keeps log log' := by
  intro k s hk
  rw [hlog] at hk
  rw [hlog']
  cases hparse : parseShapeLine q with
  | none => rwa [shapesOf_concat_none hparse]
  | some e =>
    obtain ⟨k', s'⟩ := e
    obtain rfl := hq k' s' hparse
    have hne : k ≠ k' := by
      rintro rfl
      rw [hnew] at hk
      cases hk
    rwa [shapesOf_concat_some hparse, update_of_ne hne]

theorem chopReturn_shapeLine (htrim : Trimmed shape) (id : ℕ) :
    chopReturn (shapeLine id shape) = shapeLine id shape := by
  obtain ⟨front, last, hlast, heq⟩ := exists_intercalate_eq (s := ",") htrim.ne_nil
  have hline : shapeLine id shape = toString id ++ "\t" ++ shape.1 ++ "\t" ++ front ++ last := by
    rw [shapeLine, heq, ← String.append_assoc]
  rw [hline]
  exact chopReturn_append _ (htrim.nonempty last hlast) (htrim.no_return last hlast)

/-- A whole line behind whole lines is found, and nothing that was there is lost. -/
theorem loadShapes_append (htrim : Trimmed shape) (hplain : PlainNames shape)
    (hwhole : WholeLines log) (hid : id < 2 ^ 64) (hnew : loadShapes log id = none) :
    loadShapes (log ++ textBytes (shapeLine id shape ++ "\n")) id = some shape ∧
      Keeps log (log ++ textBytes (shapeLine id shape ++ "\n")) := by
  obtain ⟨txt, rfl, hended⟩ := hwhole
  have hline : '\n' ∉ (shapeLine id shape).toList :=
    lf_not_mem_line fun name hname => (hplain name hname).2
  have hafter : loadShapes (textBytes txt ++ textBytes (shapeLine id shape ++ "\n")) =
      shapesOf (lines txt ++ [shapeLine id shape]) := by
    rw [← textBytes_append, loadShapes_textBytes, lines_append_line hended hline,
      chopReturn_shapeLine htrim]
  have hparse := parseShapeLine_shapeLine htrim hplain hid
  rw [loadShapes_textBytes] at hnew
  refine ⟨?_, keeps_line hnew (loadShapes_textBytes txt) hafter ?_⟩
  · rw [hafter, shapesOf_concat_some hparse, update_self]
  · intro k s hk
    rw [hparse] at hk
    cases hk
    rfl

/-- Whole characters of a line behind whole lines lose nothing that was there. -/
theorem keeps_part {part : String} (hnames : ∀ name ∈ shape.1 :: shape.2, '\n' ∉ name.toList)
    (hwhole : WholeLines log) (hid : id < 2 ^ 64) (hnew : loadShapes log id = none)
    (hpart : textBytes part <+: textBytes (shapeLine id shape ++ "\n")) :
    Keeps log (log ++ textBytes part) := by
  obtain ⟨txt, rfl, hended⟩ := hwhole
  have hline : '\n' ∉ (shapeLine id shape).toList := lf_not_mem_line hnames
  rw [loadShapes_textBytes] at hnew
  have hchars := prefix_of_textBytes hpart
  rw [toList_append] at hchars
  rcases prefix_concat_iff.mp hchars with hall | hpart
  · have hpart : part = shapeLine id shape ++ "\n" := by
      apply String.toList_inj.mp
      rw [hall, toList_append]
      rfl
    subst hpart
    have hafter : loadShapes (textBytes txt ++ textBytes (shapeLine id shape ++ "\n")) =
        shapesOf (lines txt ++ [chopReturn (shapeLine id shape)]) := by
      rw [← textBytes_append, loadShapes_textBytes, lines_append_line hended hline]
    exact keeps_line hnew (loadShapes_textBytes txt) hafter fun k s =>
      parseShapeLine_part hid (prefix_chopReturn _)
  · have hlf : '\n' ∉ part.toList := fun hmem => hline (hpart.subset hmem)
    have hafter : loadShapes (textBytes txt ++ textBytes part) =
        shapesOf (lines txt ++ if part = "" then [] else [part]) := by
      rw [← textBytes_append, loadShapes_textBytes, lines_append hended hlf]
    by_cases hempty : part = ""
    · rw [if_pos hempty, append_nil] at hafter
      intro k s hk
      rwa [hafter, ← loadShapes_textBytes]
    · rw [if_neg hempty] at hafter
      exact keeps_line hnew (loadShapes_textBytes txt) hafter fun k s =>
        parseShapeLine_part hid hpart

theorem register_keeps (htrim : Trimmed shape)
    (hok : match loadShapes log (shapeId shape) with
      | some held => shapeId shape ≠ 0 → held = shape
      | none => PlainNames shape ∧ WholeLines log) :
    (shapeId shape ≠ 0 → loadShapes (register log shape) (shapeId shape) = some shape) ∧
      Keeps log (register log shape) := by
  have hid : shapeId shape < 2 ^ 64 := (shapeId_lt shape).trans (by norm_num)
  cases hheld : loadShapes log (shapeId shape) with
  | some held =>
    rw [hheld] at hok
    have hlog : register log shape = log := if_pos (by rw [hheld]; rfl)
    rw [hlog]
    refine ⟨?_, Keeps.refl log⟩
    intro hne
    rw [hheld, hok hne]
  | none =>
    rw [hheld] at hok
    have hlog : register log shape = log ++ textBytes (shapeLine (shapeId shape) shape ++ "\n") :=
      if_neg (by rw [hheld]; exact Bool.false_ne_true)
    rw [hlog]
    obtain ⟨hfound, hkeeps⟩ := loadShapes_append htrim hok.1 hok.2 hid hheld
    exact ⟨fun _ => hfound, hkeeps⟩

/-! ### The two decoders -/

theorem pgbPayload_length (hid : id < 2 ^ 64) : (textBytes (padded 20 id)).length = 20 :=
  length_textBytes_padded_of_lt (by norm_num) (hid.trans (by norm_num))

variable {cache : ℕ → Option Shape} {w : ShapeWorld}

/-- Both decoders find the shape by the id in front of the parameters. -/
theorem pgbRecord_eq [StdText] {params : Bytes}
    (hid : id < 2 ^ 64) (hcache : ∀ s, cache id = some s → loadShapes log id = some s) :
    (pgbRecord cache log (pgbPayload id params)).1 =
      rowText (deriveB (pgbPayload id params) (loadShapes log)) := by
  have hlen := pgbPayload_length hid
  have htake : (pgbPayload id params).take 20 = textBytes (padded 20 id) := by
    rw [pgbPayload, take_left' hlen]
  have hdrop : (pgbPayload id params).drop 20 = params := by
    rw [pgbPayload, drop_left' hlen]
  have hlong : ¬(pgbPayload id params).length < 20 := by
    rw [pgbPayload, length_append, hlen]
    omega
  have hread : (strFromUtf8 ((pgbPayload id params).take 20)).bind parseUsize = some id := by
    rw [htake, strFromUtf8_textBytes, Option.bind_some, parseUsize_padded hid]
  have hdec : dec ((pgbPayload id params).take 20) = some id := by rw [htake, dec_padded hid]
  simp only [pgbRecord, deriveB, if_neg hlong, hread, hdec, hdrop]
  cases hheld : cache id with
  | some s =>
    simp only [Option.bind_eq_bind, Option.bind_some, hcache s hheld]
    cases decodeParams params <;> rfl
  | none =>
    cases hlog : loadShapes log id with
    | none => simp [hlog, rowText]
    | some s =>
      simp only [Option.bind_eq_bind, Option.bind_some, hlog]
      cases decodeParams params <;> rfl

/-! ### Runs -/

/-- What was registered is in the log, and a thread keeps only what is in it. -/
structure Resolved (w : ShapeWorld) : Prop where
  found : ∀ id shape, (id, shape) ∈ w.registered →
    id < 2 ^ 64 ∧ loadShapes w.log id = some shape
  cached : ∀ t k s, w.cache t k = some s → loadShapes w.log k = some s

theorem resolved_start : Resolved .start where
  found _ _ h := absurd h not_mem_nil
  cached _ _ _ h := by cases h

theorem Resolved.crashed {left : Bytes} (h : Resolved w)
    (hkeeps : Keeps w.log (w.log ++ left)) : Resolved (w.crashed left) where
  found id shape hmem := ⟨(h.found id shape hmem).1, hkeeps id shape (h.found id shape hmem).2⟩
  cached _ _ _ hk := by cases hk

theorem Resolved.withShape (h : Resolved w)
    (hfound : shapeId shape ≠ 0 → loadShapes (register w.log shape) (shapeId shape) = some shape)
    (hkeeps : Keeps w.log (register w.log shape)) : Resolved (w.withShape shape) where
  found id s hmem := by
    have hold : (id, s) ∈ w.registered →
        id < 2 ^ 64 ∧ loadShapes (register w.log shape) id = some s :=
      fun hmem => ⟨(h.found id s hmem).1, hkeeps id s (h.found id s hmem).2⟩
    by_cases hzero : shapeId shape = 0
    · simp only [ShapeWorld.withShape, if_pos hzero] at hmem
      exact hold hmem
    · simp only [ShapeWorld.withShape, if_neg hzero] at hmem
      rcases mem_append.mp hmem with hmem | hmem
      · exact hold hmem
      · obtain ⟨rfl, rfl⟩ := Prod.mk.inj (mem_singleton.mp hmem)
        exact ⟨(shapeId_lt s).trans (by norm_num), hfound hzero⟩
  cached t k s hk := hkeeps k s (h.cached t k s hk)

theorem pgbRecord_cached [StdText] {payload : Bytes}
    (hcache : ∀ k s, cache k = some s → loadShapes log k = some s)
    (hk : (pgbRecord cache log payload).2 k = some s) : loadShapes log k = some s := by
  have hheld : (pgbRecord cache log payload).2 = cache ∨
      (pgbRecord cache log payload).2 = fun k => (loadShapes log k).or (cache k) := by
    rw [pgbRecord]
    split
    · exact .inl rfl
    · split
      · exact .inl rfl
      · rename_i id _
        cases cache id with
        | some shape =>
          refine .inl ?_
          dsimp only
          split <;> rfl
        | none =>
          refine .inr ?_
          dsimp only
          split <;> rfl
  rcases hheld with hheld | hheld
  · rw [hheld] at hk
    exact hcache k s hk
  · rw [hheld] at hk
    rcases Option.or_eq_some_iff.mp hk with hk | ⟨-, hk⟩
    · exact hk
    · exact hcache k s hk

theorem resolved_step [StdText] {w' : ShapeWorld} {a : ShapeAction} (h : Resolved w)
    (hok : Unmixed w a) (hs : ShapeStep a w w') : Resolved w' := by
  cases hs with
  | @registered _ sql shape hsql =>
    obtain ⟨hfound, hkeeps⟩ := register_keeps (insertShape_trimmed hsql) (hok shape hsql)
    exact h.withShape hfound hkeeps
  | notRegistered => exact h
  | @crashInAppend _ sql shape left hsql hnew hleft =>
    have hid : shapeId shape < 2 ^ 64 := (shapeId_lt shape).trans (by norm_num)
    rcases hok shape hsql with rfl | ⟨hwhole, hnames, part, rfl⟩
    · exact h.crashed (Keeps.nil w.log)
    · exact h.crashed (keeps_part hnames hwhole hid hnew hleft)
  | restart => exact h.crashed (Keeps.nil w.log)
  | @record _ t payload =>
    refine ⟨h.found, ?_⟩
    intro t' k s hk
    by_cases ht : t' = t
    · subst ht
      dsimp only at hk
      rw [update_self] at hk
      exact pgbRecord_cached (h.cached t') hk
    · dsimp only at hk
      rw [update_of_ne ht] at hk
      exact h.cached t' k s hk

/-- Every registered shape is found after any run in which each registration writes a line that
reads back and no crash mixes two lines. -/
theorem shapes_survive [StdText] {w : ShapeWorld} (h : Reaches ShapeStep Unmixed .start w) :
    ShapesSurvive w := by
  have hresolved : Resolved w := h.invariant resolved_step resolved_start
  intro id shape hmem
  obtain ⟨hid, hfound⟩ := hresolved.found id shape hmem
  exact ⟨hfound, fun t params => pgbRecord_eq hid (hresolved.cached t id)⟩

end

attribute [local instance] plainText

/-- One shape registered, the line of another torn, a row of the first derived. -/
theorem shapes_survive_run : ∃ w, Reaches ShapeStep Unmixed .start w ∧
    w.registered = [(6234636757795796621, ("t", ["a"]))] ∧ ShapesSurvive w := by
  have hsql : insertShape "INSERT INTO t (a) VALUES ($1)" = some (some ("t", ["a"])) := by
    decide +kernel
  have hsql' : insertShape "INSERT INTO u (b) VALUES ($1)" = some (some ("u", ["b"])) := by
    decide +kernel
  have hparse := @ShapeStep.registered _ .start _ _ hsql
  have hcrash := @ShapeStep.crashInAppend _ (ShapeWorld.start.withShape ("t", ["a"])) _ _
    (textBytes "56") hsql' (by decide +kernel) (by decide +kernel)
  have hrecord := @ShapeStep.record _
    ((ShapeWorld.start.withShape ("t", ["a"])).crashed (textBytes "56")) 0 []
  have hplain : Unmixed .start (.parseShape "INSERT INTO t (a) VALUES ($1)") := by
    intro shape hshape
    rw [hsql] at hshape
    cases hshape
    exact ⟨by unfold PlainNames; decide +kernel, "", rfl, Or.inl rfl⟩
  have htorn : Unmixed (ShapeWorld.start.withShape ("t", ["a"]))
      (.crashInAppend "INSERT INTO u (b) VALUES ($1)" (textBytes "56")) := by
    intro shape hshape
    rw [hsql'] at hshape
    cases hshape
    refine .inr ⟨⟨"6234636757795796621\tt\ta\n", by decide +kernel, .inr ?_⟩,
      by decide +kernel, "56", rfl⟩
    exact ⟨"6234636757795796621\tt\ta", by decide +kernel⟩
  have hrow : Unmixed ((ShapeWorld.start.withShape ("t", ["a"])).crashed (textBytes "56"))
      (.record 0 []) := trivial
  have hrun := ((Reaches.of_step hplain hparse).next htorn hcrash).next hrow hrecord
  have hregistered : (ShapeWorld.start.withShape ("t", ["a"])).registered =
      [(6234636757795796621, ("t", ["a"]))] := by
    decide +kernel
  exact ⟨_, hrun, hregistered, shapes_survive hrun⟩

/-- The line of the second shape is glued to what a crash left of the first. -/
theorem line_behind_torn_line : ¬∀ w, Reaches ShapeStep anyAction .start w → ShapesSurvive w := by
  intro hall
  have hcrash := @ShapeStep.crashInAppend _ .start "INSERT INTO t (a) VALUES ($1)" ("t", ["a"])
    (textBytes "62") (by decide +kernel) (by decide +kernel) (by decide +kernel)
  have hparse := @ShapeStep.registered _ (ShapeWorld.start.crashed (textBytes "62"))
    "INSERT INTO u (b) VALUES ($1)" ("u", ["b"]) (by decide +kernel)
  have hrun : Reaches ShapeStep anyAction .start _ :=
    Reaches.next (Reaches.of_step trivial hcrash) trivial hparse
  have hmem : (shapeId ("u", ["b"]), ("u", ["b"])) ∈
      ((ShapeWorld.start.crashed (textBytes "62")).withShape ("u", ["b"])).registered := by
    decide +kernel
  have hfound := (hall _ hrun (shapeId ("u", ["b"])) ("u", ["b"]) hmem).1
  have hlost : loadShapes ((ShapeWorld.start.crashed (textBytes "62")).withShape ("u", ["b"])).log
      (shapeId ("u", ["b"])) = none := by
    decide +kernel
  have hnone : (none : Option Shape) = some ("u", ["b"]) := hlost.symm.trans hfound
  cases hnone

end RawBlk

end AxisBridge
