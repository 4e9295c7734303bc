import AxisBridge.Runtime.Cuts

/-! The lines of a cursor: a text is cut into its lines, sorted by their keys, and read line by
line. -/
namespace AxisBridge.Cursor
open List String
open StableSort (Ranks Sorts sortBy)

/-- `str::split_terminator`: the pieces between the separators, without an empty one at the end. -/
def splitTerminator (sep : Char) (s : String) : List String :=
  let pieces := split sep s
  if pieces.getLast? = some "" then pieces.dropLast else pieces

/-- The cursors of a thread, under their handles. -/
structure Curs where
  next : Int64
  bufs : Int64 → Option (List String)

def nextHandle (c : Curs) : Int64 × Curs := (c.next, { c with next := c.next + 1 })

def cursorLoad (text : String) (c : Curs) : Int64 × Curs :=
  let lines := splitTerminator '\n' text
  let (h, c) := nextHandle c
  (h, { c with bufs := fun h' => if h' = h then some lines else c.bufs h' })

def cursorLine (h i : Int64) (c : Curs) : String :=
  match c.bufs h with
  | some buf => if 0 ≤ i then (buf[i.toInt.toNat]?).getD "" else ""
  | none => ""

/-- The text before the first tab, or the whole line. -/
def key (l : String) : String := ((splitOnce '\t' l).map Prod.fst).getD l

/-- The comparison a direction sorts with. -/
def order (dir : String) (s t : String) : Bool := if dir = "1" then bytewise t s else bytewise s t

def cursorSort (keyed dir : String) : String :=
  ended (sortBy (order dir) key (splitTerminator '\n' keyed))

theorem ranks_order (dir : String) : Ranks (order dir) := by
  by_cases hdir : dir = "1"
  · have heq : order dir = fun s t => bytewise t s := by
      funext s t
      simp [order, hdir]
    rw [heq]
    exact ranks_bytewise.flip
  · have heq : order dir = bytewise := by
      funext s t
      simp [order, hdir]
    rw [heq]
    exact ranks_bytewise

/-! ### Lines -/

section
variable {s l : String} {ls : List String}

theorem split_feed_ended (h : ∀ l ∈ ls, '\n' ∉ l.toList) : split '\n' (ended ls) = ls ++ [""] := by
  induction ls with
  | nil => rfl
  | cons l ls ih =>
    have hsplit := split_append '\n' l (ended ls)
    rw [split_of_not_mem (h l mem_cons_self),
      ih fun l' hl' => h l' (mem_cons_of_mem _ hl')] at hsplit
    rw [ended_cons]
    exact hsplit

/-- Lines that were ended are cut into themselves. -/
theorem splitTerminator_ended (h : ∀ l ∈ ls, '\n' ∉ l.toList) :
    splitTerminator '\n' (ended ls) = ls := by
  simp [splitTerminator, split_feed_ended h]

theorem feed_not_mem (h : l ∈ splitTerminator '\n' s) : '\n' ∉ l.toList := by
  simp only [splitTerminator] at h
  split at h
  · exact (of_mem_split (mem_of_mem_dropLast h)).1
  · exact (of_mem_split h).1

theorem ended_split (s : String) : ended (split '\n' s) = s ++ "\n" := by
  have hlines : ∀ cs : List Char, (ended ((cs.splitOn '\n').map ofList)).toList = cs ++ ['\n'] := by
    intro cs
    induction cs with
    | nil => rfl
    | cons c cs ih =>
      rw [splitOn_cons_eq_if_modifyHead]
      cases hpieces : cs.splitOn '\n' with
      | nil => exact absurd hpieces (splitOn_ne_nil '\n' cs)
      | cons piece pieces =>
        rw [hpieces] at ih
        by_cases hc : c = '\n'
        · simpa [hc] using ih
        · simpa [hc] using ih
  apply toList_inj.mp
  rw [split_eq, hlines]
  simp

/-- The lines of a text, each ended, are the text with a line feed where the last one has none. -/
theorem ended_splitTerminator (s : String) :
    ended (splitTerminator '\n' s) = s ∨ ended (splitTerminator '\n' s) = s ++ "\n" := by
  have hsplit := ended_split s
  simp only [splitTerminator]
  split
  next hlast =>
    obtain ⟨init, hinit⟩ := getLast?_eq_some_iff.mp hlast
    rw [hinit, ended_append] at hsplit
    rw [hinit, dropLast_concat]
    refine .inl (toList_inj.mp ?_)
    simpa using congrArg String.toList hsplit
  · exact .inr hsplit

/-- Every line of a text that is loaded, under its handle; what is read beyond them is empty. -/
theorem line_of_load (text : String) (c : Curs) (i : Int64) :
    cursorLine (cursorLoad text c).1 i (cursorLoad text c).2 =
      if 0 ≤ i then ((splitTerminator '\n' text)[i.toInt.toNat]?).getD "" else "" := by
  simp [cursorLine, cursorLoad, nextHandle]

end

/-! ### The sort -/

/-- The output of the sort as lines, and what a cursor that loads it reads. -/
structure SortsLines (keyed dir : String) (out : List String) : Prop where
  text : cursorSort keyed dir = ended out
  whole : ∀ l ∈ out, '\n' ∉ l.toList
  sorts : Sorts (order dir) key (splitTerminator '\n' keyed) out
  input :
    ended (splitTerminator '\n' keyed) = keyed ∨ ended (splitTerminator '\n' keyed) = keyed ++ "\n"
  again : cursorSort (cursorSort keyed dir) dir = cursorSort keyed dir
  walk : ∀ (c : Curs) (i : Int64), cursorLine (cursorLoad (cursorSort keyed dir) c).1 i
    (cursorLoad (cursorSort keyed dir) c).2 = if 0 ≤ i then (out[i.toInt.toNat]?).getD "" else ""

/-- `cursor_sort` is a stable sort in both directions, and its output is read back line by line. -/
theorem cursorSort_sorts (keyed dir : String) : ∃ out, SortsLines keyed dir out := by
  have hsorts := StableSort.sorts_sortBy (ranks_order dir) key (splitTerminator '\n' keyed)
  have hwhole : ∀ l ∈ sortBy (order dir) key (splitTerminator '\n' keyed), '\n' ∉ l.toList := by
    intro l hl
    exact feed_not_mem (hsorts.perm.mem_iff.mp hl)
  have hlines : splitTerminator '\n' (cursorSort keyed dir) =
      sortBy (order dir) key (splitTerminator '\n' keyed) := splitTerminator_ended hwhole
  refine ⟨_, rfl, hwhole, hsorts, ended_splitTerminator keyed, ?_, ?_⟩
  · rw [cursorSort, hlines, hsorts.sortBy_eq]
    rfl
  · intro c i
    rw [line_of_load, hlines]

end AxisBridge.Cursor
