import AxisBridge.Runtime.Value
import Mathlib.Data.List.Nodup

/-! `join` of spawned tasks: the handles are taken out of the table one by one, then each task is
waited for. -/
namespace AxisBridge.Tasks
open List

/-- How a task ends; a join blocks until it has. -/
inductive Ending
  | returned (v : Value)
  | panicked

/-- The tasks that were spawned and not yet joined. -/
abbrev Table := Int64 → Option Ending

-- `debug v` is the text of `{:?}`.
variable (debug : Value → String)

def handleValue (id : Int64) (result : Value) : Value := .tuple [.int id, result]

def handleId : Value → Except String Int64
  | .tuple [id, _] => asInt debug id
  | other => .error s!"join: expected a Handle (id, result) pair, got {debug other}"

def Table.remove (table : Table) (id : Int64) : Table :=
    fun id' => if id' = id then none else table id'

/-- The first loop, under the lock: what was taken, or the panic, and the table it leaves. -/
def take : List Value → Table → Except String (List (Int64 × Ending)) × Table
  | [], table => (.ok [], table)
  | item :: items, table =>
    match handleId debug item with
    | .error why => (.error why, table)
    | .ok h =>
      match table h with
      | none => (.error s!"join: unknown task handle {h} (never spawned, or already joined)", table)
      | some ending =>
        let (taken, table) := take items (table.remove h)
        (taken.map ((h, ending) :: ·), table)

/-- The second loop. -/
def collect : List (Int64 × Ending) → Except String (List Value)
  | [] => .ok []
  | (h, .returned v) :: taken => (collect taken).map (handleValue h v :: ·)
  | (h, .panicked) :: _ => .error s!"join: task {h} panicked"

def join (handles : Value) (table : Table) : Except String Value × Table :=
  match handles with
  | .list items =>
    let (taken, table) := take debug items table
    ((taken.bind collect).map .list, table)
  | other => (.error s!"join: expected a HandleList, got {debug other}", table)

/-! ### All or nothing -/

/-- The list names the task. -/
def Named (items : List Value) (id : Int64) : Prop := ∃ item ∈ items, handleId debug item = .ok id

/-- A join that fails leaves every task that it names as it was; one that succeeds has the results
in the order of the handles, and takes each task once. -/
def AllOrNothing (items : List Value) (table : Table) : Prop :=
  match join debug (.list items) table with
  | (.error _, table') =>
    ∀ id ending, Named debug items id → table id = some ending → table' id = some ending
  | (.ok v, table') => ∃ done : List (Int64 × Value),
    items.map (handleId debug) = done.map (fun p => .ok p.1) ∧ (done.map Prod.fst).Nodup ∧
      (∀ p ∈ done, table p.1 = some (.returned p.2)) ∧
      v = .list (done.map fun p => handleValue p.1 p.2) ∧
      table' = fun id => if id ∈ done.map Prod.fst then none else table id

/-- The handles are of different tasks of the table, which all return. -/
def AllReturn (items : List Value) (table : Table) : Prop :=
  ∃ done : List (Int64 × Value), items.map (handleId debug) = done.map (fun p => .ok p.1) ∧
    (done.map Prod.fst).Nodup ∧ ∀ p ∈ done, table p.1 = some (.returned p.2)

/-- The first item is of no task of the table. -/
def FirstUnknown (items : List Value) (table : Table) : Prop :=
  ∃ first rest, items = first :: rest ∧ ∀ id, handleId debug first = .ok id → table id = none

section
variable {debug} {items rest : List Value} {first : Value} {table table' : Table} {id : Int64}
  {ending : Ending} {taken : List (Int64 × Ending)} {done : List (Int64 × Value)}

@[simp] theorem remove_self : table.remove id id = none := if_pos rfl

theorem remove_of_ne {id' : Int64} (h : id' ≠ id) : table.remove id id' = table id' := if_neg h

theorem some_of_remove {id' : Int64} (h : table.remove id id' = some ending) :
    id' ≠ id ∧ table id' = some ending := by
  have hne : id' ≠ id := by
    rintro rfl
    simp at h
  exact ⟨hne, (remove_of_ne hne).symm.trans h⟩

/-! ### The loops -/

theorem take_ok_cons {h : Int64} (hid : handleId debug first = .ok h)
    (hlive : table h = some ending) :
    take debug (first :: rest) table =
      (((take debug rest (table.remove h)).1.map ((h, ending) :: ·)),
      (take debug rest (table.remove h)).2) := by
  simp only [take, hid, hlive]

/-- The loop only takes out. -/
theorem table_of_take (h : (take debug items table).2 id = some ending) :
    table id = some ending := by
  induction items generalizing table with
  | nil => exact h
  | cons first rest ih =>
    cases hid : handleId debug first with
    | error why =>
      simp only [take, hid] at h
      exact h
    | ok h' =>
      cases hlive : table h' with
      | none =>
        simp only [take, hid, hlive] at h
        exact h
      | some ending' =>
        rw [take_ok_cons hid hlive] at h
        exact (some_of_remove (ih h)).2

/-- A task that was there is gone as soon as its handle comes first. -/
theorem take_first (hid : handleId debug first = .ok id) (hlive : table id = some ending) :
    (take debug (first :: rest) table).2 id = none := by
  rw [take_ok_cons hid hlive]
  cases hleft : (take debug rest (table.remove id)).2 id with
  | none => rfl
  | some ending' => exact absurd rfl (some_of_remove (table_of_take hleft)).1

theorem take_unknown (h : FirstUnknown debug items table) :
    (∃ why, (take debug items table).1 = .error why) ∧ (take debug items table).2 = table := by
  obtain ⟨first, rest, rfl, hfirst⟩ := h
  cases hid : handleId debug first with
  | error why =>
    exact ⟨⟨why, by simp only [take, hid]⟩, by simp only [take, hid]⟩
  | ok h =>
    have hmissing := hfirst h hid
    refine ⟨⟨s!"join: unknown task handle {h} (never spawned, or already joined)", ?_⟩, ?_⟩
    · simp only [take, hid, hmissing]
    · simp only [take, hid, hmissing]

/-- What the first loop has taken where it did not panic. -/
theorem take_spec (h : take debug items table = (.ok taken, table')) :
    items.map (handleId debug) = taken.map (fun p => .ok p.1) ∧ (taken.map Prod.fst).Nodup ∧
      (∀ p ∈ taken, table p.1 = some p.2) ∧
      table' = fun id => if id ∈ taken.map Prod.fst then none else table id := by
  induction items generalizing table taken with
  | nil =>
    simp only [take, Prod.mk.injEq, Except.ok.injEq] at h
    obtain ⟨rfl, rfl⟩ := h
    simp
  | cons first rest ih =>
    cases hid : handleId debug first with
    | error why => simp [take, hid] at h
    | ok h' =>
      cases hlive : table h' with
      | none => simp [take, hid, hlive] at h
      | some ending =>
        rw [take_ok_cons hid hlive] at h
        obtain ⟨htaken, htable⟩ := Prod.mk.inj h
        cases hrest : (take debug rest (table.remove h')).1 with
        | error why => simp [hrest, Except.map] at htaken
        | ok taken' =>
          simp only [hrest, Except.map, Except.ok.injEq] at htaken
          subst htaken
          obtain ⟨hids, hnodup, hlives, htable'⟩ := ih (Prod.ext hrest htable)
          have hlive' : ∀ p ∈ taken', p.1 ≠ h' ∧ table p.1 = some p.2 :=
            fun p hp => some_of_remove (hlives p hp)
          refine ⟨by simp [hid, hids], ?_, ?_, ?_⟩
          · refine nodup_cons.mpr ⟨?_, hnodup⟩
            intro hmem
            obtain ⟨p, hp, heq⟩ := mem_map.mp hmem
            exact (hlive' p hp).1 heq
          · intro p hp
            rcases mem_cons.mp hp with rfl | hp
            · exact hlive
            · exact (hlive' p hp).2
          · funext id
            rw [htable']
            by_cases heq : id = h'
            · subst heq
              simp
            · simp only [map_cons, mem_cons, heq, false_or, Table.remove, if_false]

/-- Handles of different tasks of the table are all taken. -/
theorem take_all (hids : items.map (handleId debug) = taken.map (fun p => .ok p.1))
    (hnodup : (taken.map Prod.fst).Nodup) (hlive : ∀ p ∈ taken, table p.1 = some p.2) :
    (take debug items table).1 = .ok taken := by
  induction items generalizing table taken with
  | nil =>
    cases taken with
    | nil => rfl
    | cons p taken => simp at hids
  | cons first rest ih =>
    cases taken with
    | nil => simp at hids
    | cons p taken =>
      simp only [map_cons, List.cons.injEq] at hids
      rw [map_cons, nodup_cons] at hnodup
      have hleft : ∀ q ∈ taken, table.remove p.1 q.1 = some q.2 := by
        intro q hq
        have hne : q.1 ≠ p.1 := fun heq => hnodup.1 (mem_map.mpr ⟨q, hq, heq⟩)
        rw [remove_of_ne hne]
        exact hlive q (mem_cons_of_mem p hq)
      rw [take_ok_cons hids.1 (hlive p mem_cons_self)]
      simp [ih hids.2 hnodup.2 hleft, Except.map]

/-- The second loop ends with the results where every task that was taken returned. -/
theorem collect_ok {out : List Value} : collect taken = .ok out ↔
    ∃ done : List (Int64 × Value), taken = done.map (fun p => (p.1, .returned p.2)) ∧
      out = done.map fun p => handleValue p.1 p.2 := by
  constructor
  · intro h
    induction taken generalizing out with
    | nil =>
      simp only [collect, Except.ok.injEq] at h
      exact ⟨[], rfl, h.symm⟩
    | cons p taken ih =>
      obtain ⟨h', ending⟩ := p
      cases ending with
      | panicked => simp [collect] at h
      | returned v =>
        cases hrest : collect taken with
        | error why => simp [collect, hrest, Except.map] at h
        | ok out' =>
          simp only [collect, hrest, Except.map, Except.ok.injEq] at h
          obtain ⟨done, rfl, rfl⟩ := ih hrest
          exact ⟨(h', v) :: done, rfl, h.symm⟩
  · rintro ⟨done, rfl, rfl⟩
    induction done with
    | nil => rfl
    | cons p done ih => simp [collect, ih, Except.map]

/-- Where a loop panics past the first handle, the task of that handle is already out of the
table. -/
theorem take_lost (hknown : ¬ FirstUnknown debug items table) (hne : items ≠ []) :
    ∃ id ending, Named debug items id ∧ table id = some ending ∧
      (take debug items table).2 id = none := by
  cases items with
  | nil => exact absurd rfl hne
  | cons first rest =>
    cases hid : handleId debug first with
    | error why =>
      refine absurd ⟨first, rest, rfl, fun id heq => ?_⟩ hknown
      rw [hid] at heq
      cases heq
    | ok h =>
      cases hlive : table h with
      | none =>
        refine absurd ⟨first, rest, rfl, fun id heq => ?_⟩ hknown
        rw [hid, Except.ok.injEq] at heq
        exact heq ▸ hlive
      | some ending => exact ⟨h, ending, ⟨first, mem_cons_self, hid⟩, hlive, take_first hid hlive⟩

theorem join_error {why : String} (htake : (take debug items table).1 = .error why) :
    join debug (.list items) table = (.error why, (take debug items table).2) := by
  simp [join, htake, Except.bind, Except.map]

theorem join_ok (htake : (take debug items table).1 = .ok taken) :
    join debug (.list items) table = ((collect taken).map .list, (take debug items table).2) := by
  simp [join, htake, Except.bind]

/-- A join that fails after it took the task of its first handle loses that task. -/
theorem not_allOrNothing {why : String} (hfail : (join debug (.list items) table).1 = .error why)
    (htable : (join debug (.list items) table).2 = (take debug items table).2)
    (hknown : ¬ FirstUnknown debug items table) (hne : items ≠ []) :
    ¬ AllOrNothing debug items table := by
  intro h
  obtain ⟨id, ending, hnamed, hlive, hlost⟩ := take_lost hknown hne
  have hjoin := Prod.ext (y := (Except.error why, _)) hfail htable
  simp only [AllOrNothing, hjoin] at h
  have hkept := hlost.symm.trans (h id ending hnamed hlive)
  cases hkept

theorem allOrNothing_of_return (h : AllReturn debug items table) :
    AllOrNothing debug items table := by
  obtain ⟨done, hids, hnodup, hlive⟩ := h
  have hids' : items.map (handleId debug) =
      (done.map fun p => (p.1, Ending.returned p.2)).map (fun p => .ok p.1) := by
    rw [hids, map_map]
    rfl
  have hfst : (done.map fun p => (p.1, Ending.returned p.2)).map Prod.fst = done.map Prod.fst := by
    rw [map_map]
    rfl
  have hall := take_all hids' (hfst ▸ hnodup) fun p hp => by
    obtain ⟨q, hq, rfl⟩ := mem_map.mp hp
    exact hlive q hq
  have hspec := take_spec (Prod.ext hall rfl)
  have hjoin := join_ok hall
  rw [collect_ok.mpr ⟨done, rfl, rfl⟩] at hjoin
  simp only [AllOrNothing, hjoin, Except.map]
  exact ⟨done, hids, hnodup, hlive, rfl, hfst ▸ hspec.2.2.2⟩

theorem allOrNothing_of_unknown (h : FirstUnknown debug items table) :
    AllOrNothing debug items table := by
  obtain ⟨⟨why, herror⟩, htable⟩ := take_unknown h
  have hjoin := join_error herror
  rw [htable] at hjoin
  simp only [AllOrNothing, hjoin]
  intro id ending _ hlive
  exact hlive

end

/-- A join is all or nothing just when every task it names is there, named once and returns, or when
the first one is unknown. -/
theorem join_iff (items : List Value) (table : Table) :
    AllOrNothing debug items table ↔
      AllReturn debug items table ∨ FirstUnknown debug items table := by
  constructor
  · intro h
    by_cases hunknown : FirstUnknown debug items table
    · exact .inr hunknown
    cases htake : (take debug items table).1 with
    | error why =>
      have hne : items ≠ [] := by
        rintro rfl
        simp [take] at htake
      have hjoin := join_error htake
      exact absurd h
        (not_allOrNothing (congrArg Prod.fst hjoin) (congrArg Prod.snd hjoin) hunknown hne)
    | ok taken =>
      have hjoin := join_ok htake
      obtain ⟨hids, hnodup, hlive, -⟩ := take_spec (Prod.ext htake rfl)
      cases hcollect : collect taken with
      | error why =>
        have hne : items ≠ [] := by
          rintro rfl
          simp only [take, Except.ok.injEq] at htake
          subst htake
          simp [collect] at hcollect
        rw [hcollect] at hjoin
        exact absurd h
          (not_allOrNothing (congrArg Prod.fst hjoin) (congrArg Prod.snd hjoin) hunknown hne)
      | ok out =>
        obtain ⟨done, rfl, rfl⟩ := collect_ok.mp hcollect
        refine .inl ⟨done, ?_, ?_, fun p hp => hlive _ (mem_map.mpr ⟨p, hp, rfl⟩)⟩
        · rw [hids, map_map]
          rfl
        · rw [map_map] at hnodup
          exact hnodup
  · rintro (hreturn | hunknown)
    · exact allOrNothing_of_return hreturn
    · exact allOrNothing_of_unknown hunknown

/-- Task 1 has returned 5 and is listed before an unknown handle: the join panics, and the result is
lost. -/
theorem result_lost :
    (join (fun _ => "") (.list [handleValue 1 .unit, handleValue 2 .unit])
        (fun id => if id = 1 then some (.returned (.int 5)) else none)).2 1 = none ∧
      ¬ AllOrNothing (fun _ => "") [handleValue 1 .unit, handleValue 2 .unit]
        (fun id => if id = 1 then some (.returned (.int 5)) else none) := by
  refine ⟨rfl, fun h => ?_⟩
  have hkept := h 1 (.returned (.int 5)) ⟨handleValue 1 .unit, mem_cons_self, rfl⟩ rfl
  cases hkept

end AxisBridge.Tasks
