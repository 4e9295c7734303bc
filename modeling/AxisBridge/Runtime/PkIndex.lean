import AxisBridge.Runtime.Lines
import AxisBridge.Runtime.TornTail

/-! The index of the rows by table and key: what an envelope names, and what a rebuild binds. -/
namespace AxisBridge
open Option List Function Epochs Visit
namespace PkIndex

structure PkShard where
  shard : String
  map : String → Option String

def pkidxOpen (shard : String) : PkShard := ⟨shard, fun _ => none⟩

def pkidxHas (sh : PkShard) (name : String) : Bool := (sh.map name).isSome

/-- The name in an envelope, unless it is empty, malformed, a fact's or a contradiction's. -/
def envToName (env : Bytes) : Option String :=
  if env = [] then none
  else
    (strFromUtf8 env).bind fun s =>
      match split '\t' s with
      | [] => none
      | table :: it =>
        if table = "FACT" ∨ table = "CONTRADICTS" then none
        else
          match it with
          | _ :: pk :: _ => some (table ++ ":" ++ pk)
          | _ => none

/-- The visitor of a rebuild. -/
def visit (map : String → Option String) (v : Visit) : String → Option String :=
  match envToName v.env with
  | some name => update map name (some ("sha256:" ++ v.hexh))
  | none => map

/-- The shard after a replay of the whole log, and how many frames it met. -/
def pkidxRebuild [Sha256] (d : Volume) (segPrefix : String) (sh : PkShard) : PkShard × ℕ :=
  let walked := walkFrames d segPrefix 0 0
  ({ sh with map := walked.1.foldl visit sh.map }, walked.1.length)

end PkIndex

open PkIndex

/-- An envelope names a row: a table that is no keyword of the log, anything, and a key, apart by
tabs; more may follow. -/
def Names (env : Bytes) (name : String) : Prop :=
  ∃ table seq pk more, (∀ field ∈ table :: seq :: pk :: more, '\t' ∉ field.toList) ∧
    env = textBytes ("\t".intercalate (table :: seq :: pk :: more)) ∧
      table ≠ "FACT" ∧ table ≠ "CONTRADICTS" ∧ name = table ++ ":" ++ pk

/-- The last of the visits whose envelope names it. -/
def LastNaming (visits : List Visit) (name : String) (v : Visit) : Prop :=
  ∃ before after, visits = before ++ v :: after ∧ Names v.env name ∧
    ∀ w ∈ after, ¬ Names w.env name

/-- The hash of the last view whose envelope names it. -/
def lastHash (views : List FrameView) (name : String) : Option String :=
  (last (fun v => decide (envToName v.env = some name)) views).map FrameView.hexh

variable {env : Bytes} {name : String} {views later : List FrameView} {visits : List Visit}

theorem envToName_eq_some : envToName env = some name ↔ Names env name := by
  constructor
  · intro h
    unfold envToName at h
    split at h
    · cases h
    · obtain ⟨s, hs, h⟩ := bind_eq_some_iff.mp h
      split at h
      · cases h
      · rename_i table it hsplit
        split at h
        · cases h
        · rename_i hword
          split at h
          · rename_i seq pk more
            cases h
            refine ⟨table, seq, pk, more, ?_, ?_, ?_⟩
            · intro field hfield
              rw [← hsplit] at hfield
              exact (of_mem_split hfield).1
            · rw [← hsplit]
              have hjoin : "\t".intercalate (split '\t' s) = s := intercalate_split '\t' s
              rw [hjoin]
              exact strFromUtf8_eq_some.mp hs
            · exact ⟨fun heq => hword (Or.inl heq), fun heq => hword (Or.inr heq), rfl⟩
          · cases h
  · rintro ⟨table, seq, pk, more, hfields, rfl, hfact, hcontradicts, rfl⟩
    have hsplit : split '\t' ("\t".intercalate (table :: seq :: pk :: more)) =
        table :: seq :: pk :: more :=
      split_intercalate (cons_ne_nil _ _) hfields
    have hne : textBytes ("\t".intercalate (table :: seq :: pk :: more)) ≠ [] := by
      intro hnil
      rw [textBytes_eq_nil hnil] at hsplit
      cases hsplit
    rw [envToName, if_neg hne, strFromUtf8_textBytes, bind_some, hsplit]
    exact if_neg (not_or.mpr ⟨hfact, hcontradicts⟩)

theorem names_iff (v : FrameView) :
    decide (envToName v.env = some name) = true ↔ Names v.env name := by
  rw [decide_eq_true_eq, envToName_eq_some]

theorem lastHash_append (views later : List FrameView) (name : String) :
    lastHash (views ++ later) name = (lastHash later name).or (lastHash views name) := by
  rw [lastHash, last_append]
  cases hlast : last (fun v => decide (envToName v.env = some name)) later with
  | none => simp [lastHash, hlast]
  | some v => simp [lastHash, hlast]

/-- A name is bound to the hash of the last view that names it. -/
theorem foldl_visit (visits : List Visit) (map : String → Option String) (name : String) :
    visits.foldl visit map name =
      ((lastHash (visits.map view) name).map ("sha256:" ++ ·)).or (map name) := by
  induction visits generalizing map with
  | nil => rfl
  | cons v visits ih =>
    have hsplit := lastHash_append [v.view] (visits.map view) name
    rw [foldl_cons, ih, map_cons, ← singleton_append, hsplit]
    cases hlater : lastHash (visits.map view) name with
    | some hash => rfl
    | none =>
      by_cases hname : envToName v.env = some name
      · have hone : lastHash [v.view] name = some v.hexh := by
          simp [lastHash, last, view, hname]
        rw [hone, visit, hname]
        exact update_self ..
      · have hnone : lastHash [v.view] name = none := by
          simp [lastHash, last, view, hname]
        rw [hnone, visit]
        cases hother : envToName v.env with
        | none => rfl
        | some other =>
          have hne : name ≠ other := by
            rintro rfl
            exact hname hother
          exact update_of_ne hne ..

theorem lastHash_eq_none : lastHash views name = none ↔ ∀ v ∈ views, ¬ Names v.env name := by
  rw [lastHash, map_eq_none_iff, last_eq_none]
  constructor
  · intro h v hv hname
    have hfalse := h v hv
    rw [(names_iff v).mpr hname] at hfalse
    cases hfalse
  · intro h v hv
    exact Bool.eq_false_iff.mpr (mt (names_iff v).mp (h v hv))

theorem lastHash_isSome :
    (lastHash (visits.map view) name).isSome = true ↔ ∃ v ∈ visits, Names v.env name := by
  constructor
  · intro h
    by_contra hnone
    have hlast : lastHash (visits.map view) name = none := by
      apply lastHash_eq_none.mpr
      intro fv hfv hname
      obtain ⟨v, hv, rfl⟩ := mem_map.mp hfv
      exact hnone ⟨v, hv, hname⟩
    rw [hlast] at h
    cases h
  · rintro ⟨v, hv, hname⟩
    rw [isSome_iff_ne_none]
    intro hnone
    exact lastHash_eq_none.mp hnone v.view (mem_map_of_mem hv) hname

theorem lastNaming_of_lastHash {hash : String} (h : lastHash (visits.map view) name = some hash) :
    ∃ v, LastNaming visits name v ∧ v.hexh = hash := by
  rw [lastHash, last_map, Option.map_map] at h
  obtain ⟨v, hlast, rfl⟩ := map_eq_some_iff.mp h
  obtain ⟨before, after, hvisits, hv, hafter⟩ := split_of_last hlast
  refine ⟨v, ⟨before, after, hvisits, (names_iff v.view).mp hv, ?_⟩, rfl⟩
  intro w hw hname
  have hfalse := hafter w hw
  have htrue := (names_iff w.view).mpr hname
  exact Bool.noConfusion (htrue.symm.trans hfalse)

end AxisBridge
