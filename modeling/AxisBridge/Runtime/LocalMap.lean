import AxisBridge.Lib.Reach
import Mathlib.Algebra.Order.Group.Nat
import Mathlib.Data.List.Count

/-! The local maps of a thread: slots that are counted in the table and reused under generations. -/
namespace AxisBridge.HMap
open Option List Function

/-- `HashMap<String, Arc<str>>`. -/
abbrev Map := String → Option String

inductive State
  | free
  | live (m : Map)
  | dead

def State.isFree : State → Bool
  | .free => true
  | _ => false

/-- A slot; `gen` and `count` are `u32`. -/
structure Entry where
  gen : ℕ
  count : ℕ
  state : State

/-- The table of a thread; the last slot freed comes first in `free`. -/
structure Table where
  slots : List Entry
  free : List ℕ

def Table.empty : Table := ⟨[], []⟩

/-- The handle: the thread that owns the table, and the slot and the generation as `u32`. -/
structure LocalMap where
  owner : ℕ
  index : ℕ
  gen : ℕ
  counted : Bool
  deriving DecidableEq

/-- The entry a handle counts in, unless it was freed. -/
def Table.counting (t : Table) (h : LocalMap) : Option Entry :=
  t.slots[h.index]?.filter fun e => e.gen == h.gen && !e.state.isFree

/-- `Clone`, on the thread `me` with the table `t`. -/
def LocalMap.clone (me : ℕ) (h : LocalMap) (t : Table) : LocalMap × Table :=
  match if h.owner = me then t.counting h else none with
  | some e =>
    ({ h with counted := true },
      { t with slots := t.slots.set h.index { e with count := (e.count + 1) % 2 ^ 32 } })
  | none => ({ h with counted := false }, t)

/-- `Drop`; the last copy empties the slot for the next generation. -/
def LocalMap.drop (me : ℕ) (h : LocalMap) (t : Table) : Table :=
  if !h.counted || h.owner ≠ me then t
  else
    match t.counting h with
    | some e =>
      let count := (e.count + (2 ^ 32 - 1)) % 2 ^ 32
      if count = 0 then
        ⟨t.slots.set h.index ⟨(e.gen + 1) % 2 ^ 32, count, .free⟩, h.index :: t.free⟩
      else { t with slots := t.slots.set h.index { e with count } }
    | none => t

def ownerCheck (me : ℕ) (h : LocalMap) (who : String) : Except String Unit :=
  if h.owner = me then .ok ()
  else .error (s!"{who}: <local map> belongs to thread ThreadId({h.owner}); this is thread " ++
    s!"ThreadId({me})")

/-- The live map of a handle, or the panic that refuses the handle by name. -/
def onLive (me : ℕ) (h : LocalMap) (who : String) (t : Table) : Except String Map := do
  ownerCheck me h who
  match t.slots[h.index]? with
  | some e =>
    if e.gen = h.gen then
      match e.state with
      | .live m => return m
      | .dead => throw s!"{who}: <local map> is dead (it was frozen)"
      | .free => throw s!"{who}: <local map> has no map here"
    else throw s!"{who}: <local map> has no map here"
  | none => throw s!"{who}: <local map> has no map here"

/-- The table with another state in one slot. -/
def Table.setState (t : Table) (i : ℕ) (state : State) : Table :=
  match t.slots[i]? with
  | some e => { t with slots := t.slots.set i { e with state } }
  | none => t

/-- There is no result where the index of a freed slot panics. -/
def hmapNew (me : ℕ) (t : Table) : Option (LocalMap × Table) :=
  match t.free with
  | i :: rest =>
    t.slots[i]?.map fun e =>
      (⟨me, i % 2 ^ 32, e.gen, true⟩, ⟨t.slots.set i ⟨e.gen, 1, .live fun _ => none⟩, rest⟩)
  | [] =>
    some (⟨me, t.slots.length % 2 ^ 32, 0, true⟩,
      ⟨t.slots ++ [⟨0, 1, .live fun _ => none⟩], []⟩)

/-- The builtins take their handle by value, so that it is dropped when they return or panic. -/
def hmapPut (me : ℕ) (h : LocalMap) (k v : String) (t : Table) : Except String Bool × Table :=
  match onLive me h "hmap_put" t with
  | .ok m =>
    (.ok (m k).isNone,
    h.drop me (t.setState h.index (.live fun k' => if k' = k then some v else m k')))
  | .error why => (.error why, h.drop me t)

def hmapHas (me : ℕ) (h : LocalMap) (k : String) (t : Table) : Except String Bool × Table :=
  ((onLive me h "hmap_has" t).map fun m => (m k).isSome, h.drop me t)

/-- The text of a lookup. -/
def found : Option String → String
  | some v => "Ok:" ++ v
  | none => "Unknown"

def hmapGet (me : ℕ) (h : LocalMap) (k : String) (t : Table) : Except String String × Table :=
  ((onLive me h "hmap_get" t).map fun m => found (m k), h.drop me t)

/-- The frozen map, which is an immutable value from here on. -/
def hmapFreeze (me : ℕ) (h : LocalMap) (t : Table) : Except String Map × Table :=
  match onLive me h "hmap_freeze" t with
  | .ok m => (.ok m, h.drop me (t.setState h.index .dead))
  | .error why => (.error why, h.drop me t)

/-! ### Runs on the owning thread -/

/-- The table with the handles that are alive, each with the creation it stems from. `maps` has what
was done to the map of each creation, nothing once it is frozen, and `returned` the creations whose
slot went back to the free list. -/
structure MapWorld where
  table : Table
  live : List (ℕ × LocalMap)
  created : ℕ
  maps : ℕ → Option Map
  returned : List ℕ

def MapWorld.start : MapWorld := ⟨.empty, [], 0, fun _ => none, []⟩

/-- The entry in `returned` of an operation on a handle of `c`. -/
def pushed (c : ℕ) (t t' : Table) : List ℕ := if t.free.length < t'.free.length then [c] else []

inductive MapAction
  | new
  | clone (h : LocalMap)
  | drop (h : LocalMap)
  | put (h : LocalMap) (k v : String)
  | has (h : LocalMap) (k : String)
  | get (h : LocalMap) (k : String)
  | freeze (h : LocalMap)

/-- One operation, on one of the handles that are alive. -/
inductive MapStep (me : ℕ) : MapAction → MapWorld → MapWorld → Prop
  | new {st : MapWorld} {h : LocalMap} {t : Table} (hnew : hmapNew me st.table = some (h, t)) :
      MapStep me .new st
        { st with
          table := t
          live := st.live ++ [(st.created, h)]
          created := st.created + 1
          maps := update st.maps st.created (some fun _ => none) }
  | clone {st : MapWorld} {pre post : List (ℕ × LocalMap)} {c : ℕ} {h : LocalMap}
      (hlive : st.live = pre ++ (c, h) :: post) :
      MapStep me (.clone h) st
        { st with
          table := (h.clone me st.table).2
          live := st.live ++ [(c, (h.clone me st.table).1)] }
  | drop {st : MapWorld} {pre post : List (ℕ × LocalMap)} {c : ℕ} {h : LocalMap}
      (hlive : st.live = pre ++ (c, h) :: post) :
      MapStep me (.drop h) st
        { st with
          table := h.drop me st.table
          live := pre ++ post
          returned := st.returned ++ pushed c st.table (h.drop me st.table) }
  | put {st : MapWorld} {pre post : List (ℕ × LocalMap)} {c : ℕ} {h : LocalMap} {k v : String}
      (hlive : st.live = pre ++ (c, h) :: post) :
      MapStep me (.put h k v) st
        { st with
          table := (hmapPut me h k v st.table).2
          live := pre ++ post
          maps := update st.maps c
            ((st.maps c).map fun m k' => if k' = k then some v else m k')
          returned := st.returned ++ pushed c st.table (hmapPut me h k v st.table).2 }
  | has {st : MapWorld} {pre post : List (ℕ × LocalMap)} {c : ℕ} {h : LocalMap} {k : String}
      (hlive : st.live = pre ++ (c, h) :: post) :
      MapStep me (.has h k) st
        { st with
          table := (hmapHas me h k st.table).2
          live := pre ++ post
          returned := st.returned ++ pushed c st.table (hmapHas me h k st.table).2 }
  | get {st : MapWorld} {pre post : List (ℕ × LocalMap)} {c : ℕ} {h : LocalMap} {k : String}
      (hlive : st.live = pre ++ (c, h) :: post) :
      MapStep me (.get h k) st
        { st with
          table := (hmapGet me h k st.table).2
          live := pre ++ post
          returned := st.returned ++ pushed c st.table (hmapGet me h k st.table).2 }
  | freeze {st : MapWorld} {pre post : List (ℕ × LocalMap)} {c : ℕ} {h : LocalMap}
      (hlive : st.live = pre ++ (c, h) :: post) :
      MapStep me (.freeze h) st
        { st with
          table := (hmapFreeze me h st.table).2
          live := pre ++ post
          maps := update st.maps c none
          returned := st.returned ++ pushed c st.table (hmapFreeze me h st.table).2 }

/-- The handles of slot `i`. -/
def handlesAt (i : ℕ) (live : List (ℕ × LocalMap)) : ℕ := live.countP fun p => p.2.index == i

/-- A clone has room in the slot's count, and a new map in the `u32` of its index. -/
def MapFits (st : MapWorld) : MapAction → Prop
  | .new => st.table.free ≠ [] ∨ st.table.slots.length < 2 ^ 32
  | .clone h => handlesAt h.index st.live + 1 < 2 ^ 32
  | _ => True

def stateOf : Option Map → State
  | some m => .live m
  | none => .dead

structure MapInvariant (me : ℕ) (st : MapWorld) : Prop where
  own : ∀ p ∈ st.live, p.2.owner = me ∧ p.2.counted = true ∧ p.1 < st.created
  slot : ∀ p ∈ st.live, ∃ count,
    st.table.slots[p.2.index]? = some ⟨p.2.gen, count, stateOf (st.maps p.1)⟩
  same : ∀ p ∈ st.live, ∀ q ∈ st.live, p.2.index = q.2.index ↔ p.1 = q.1
  count : ∀ i e, st.table.slots[i]? = some e → e.count = handlesAt i st.live ∧ e.count < 2 ^ 32
  idle : ∀ i e, st.table.slots[i]? = some e →
    (e.state.isFree = true ↔ i ∈ st.table.free) ∧ (i ∈ st.table.free ↔ handlesAt i st.live = 0)
  free : st.table.free.Nodup ∧ ∀ i ∈ st.table.free, i < st.table.slots.length
  small : st.table.slots.length ≤ 2 ^ 32
  returned : st.returned.Nodup ∧
    ∀ c, c ∈ st.returned ↔ c < st.created ∧ ∀ p ∈ st.live, p.1 ≠ c

section
variable {me c i : ℕ} {h : LocalMap} {st st' : MapWorld} {pre post live : List (ℕ × LocalMap)}
  {p : ℕ × LocalMap} {t : Table} {k v who : String} {state : State} {e : Entry} {a : MapAction}
  {m : Map}

theorem handlesAt_append (i : ℕ) (live live' : List (ℕ × LocalMap)) :
    handlesAt i (live ++ live') = handlesAt i live + handlesAt i live' := countP_append

theorem handlesAt_cons (i : ℕ) (p : ℕ × LocalMap) (live : List (ℕ × LocalMap)) :
    handlesAt i (p :: live) = handlesAt i live + if p.2.index = i then 1 else 0 := by
  simp [handlesAt, countP_cons]

theorem handlesAt_eq_zero : handlesAt i live = 0 ↔ ∀ p ∈ live, p.2.index ≠ i := by
  simp [handlesAt, countP_eq_zero]

/-- What one handle among the others adds to the handles of a slot. -/
theorem handlesAt_insert (i : ℕ) (pre post : List (ℕ × LocalMap)) (p : ℕ × LocalMap) :
    handlesAt i (pre ++ p :: post) =
      handlesAt i (pre ++ post) + if p.2.index = i then 1 else 0 := by
  rw [handlesAt_append, handlesAt_append, handlesAt_cons]
  omega

theorem isFree_stateOf (m : Option Map) : (stateOf m).isFree = false := by cases m <;> rfl

theorem MapInvariant.start (me : ℕ) : MapInvariant me .start where
  own := nofun
  slot := nofun
  same := nofun
  count := nofun
  idle := nofun
  free := ⟨nodup_nil, nofun⟩
  small := Nat.zero_le _
  returned := ⟨nodup_nil, fun c => by simp [MapWorld.start]⟩

theorem Table.setState_of_slot (hslot : t.slots[i]? = some e) :
    t.setState i state = { t with slots := t.slots.set i { e with state } } := by
  simp [Table.setState, hslot]

/-- What holds of all entries after one slot is set. -/
theorem forall_set {slots : List Entry} {P : ℕ → Entry → Prop} (hself : P i e)
    (hother : ∀ j e', i ≠ j → slots[j]? = some e' → P j e') :
    ∀ j e', (slots.set i e)[j]? = some e' → P j e' := by
  intro j e' he
  by_cases hij : i = j
  · subst hij
    rw [getElem?_set_self', Option.map_eq_map, map_eq_some_iff] at he
    obtain ⟨_, -, rfl⟩ := he
    exact hself
  · rw [getElem?_set_ne hij] at he
    exact hother j e' hij he

/-- The creations whose handles are all gone, with a handle of `c` among the others. -/
theorem gone_insert (pre post : List (ℕ × LocalMap)) (p : ℕ × LocalMap) (c : ℕ) :
    (∀ q ∈ pre ++ p :: post, q.1 ≠ c) ↔ p.1 ≠ c ∧ ∀ q ∈ pre ++ post, q.1 ≠ c := by
  simp only [mem_append, mem_cons]
  grind

section
variable (hi : MapInvariant me st)

include hi

/-- A live handle finds its entry. -/
theorem MapInvariant.entry (hp : p ∈ st.live) :
    ∃ count, st.table.slots[p.2.index]? = some ⟨p.2.gen, count, stateOf (st.maps p.1)⟩ ∧
      st.table.counting p.2 = some ⟨p.2.gen, count, stateOf (st.maps p.1)⟩ ∧
      count = handlesAt p.2.index st.live ∧ count < 2 ^ 32 := by
  obtain ⟨count, hslot⟩ := hi.slot p hp
  have hcount := hi.count _ _ hslot
  refine ⟨count, hslot, ?_, hcount⟩
  simp [Table.counting, hslot, isFree_stateOf]

/-- A live handle reaches the map of its creation, and is refused when that was frozen. -/
theorem MapInvariant.onLive_eq (hp : p ∈ st.live) (who : String) :
    onLive me p.2 who st.table = match st.maps p.1 with
      | some m => .ok m
      | none => .error s!"{who}: <local map> is dead (it was frozen)" := by
  obtain ⟨count, hslot, -⟩ := hi.entry hp
  have hown := (hi.own p hp).1
  cases hm : st.maps p.1 with
  | none =>
    simp [onLive, ownerCheck, hown, hslot, hm, stateOf]
    rfl
  | some m => simp [onLive, ownerCheck, hown, hslot, hm, stateOf]

/-- The handles find their entries when the slot of one of them gets another count or map. -/
theorem MapInvariant.slot_set (hp : p ∈ st.live) (count : ℕ) (m : Option Map) {q : ℕ × LocalMap}
    (hq : q ∈ st.live) :
    ∃ n, (st.table.slots.set p.2.index ⟨p.2.gen, count, stateOf m⟩)[q.2.index]? =
      some ⟨q.2.gen, n, stateOf (Function.update st.maps p.1 m q.1)⟩ := by
  obtain ⟨count', hslot, -⟩ := hi.entry hp
  have hlt := (List.getElem?_eq_some_iff.mp hslot).1
  obtain ⟨n, hq'⟩ := hi.slot q hq
  by_cases hpq : q.1 = p.1
  · have hindex := (hi.same q hq p hp).mpr hpq
    rw [hindex, hslot] at hq'
    refine ⟨count, ?_⟩
    simp only [hindex, hpq, update_self, getElem?_set_self hlt]
    rw [(Entry.mk.inj (some.inj hq')).1]
  · have hindex : p.2.index ≠ q.2.index := fun he => hpq ((hi.same q hq p hp).mp he.symm)
    refine ⟨n, ?_⟩
    simp only [update_of_ne hpq, getElem?_set_ne hindex, hq']

/-- What happens to the map of one creation happens in its slot. -/
theorem MapInvariant.write (hp : p ∈ st.live) (m : Option Map) : MapInvariant me
      { st with
        table := st.table.setState p.2.index (stateOf m)
        maps := update st.maps p.1 m } := by
  obtain ⟨count, hslot, -⟩ := hi.entry hp
  rw [Table.setState_of_slot hslot]
  refine ⟨hi.own, fun q hq => hi.slot_set hp count m hq, hi.same, forall_set ?_ ?_,
    forall_set ?_ ?_, ?_, ?_, hi.returned⟩
  · have hcount := hi.count _ _ hslot
    exact hcount
  · exact fun i e _ he => hi.count i e he
  · have hidle := hi.idle _ _ hslot
    simp only [isFree_stateOf] at hidle ⊢
    exact hidle
  · exact fun i e _ he => hi.idle i e he
  · simpa only [length_set] using hi.free
  · simpa only [length_set] using hi.small

/-- What the entry of a handle counts beside the handle itself. -/
theorem MapInvariant.rest (hlive : st.live = pre ++ (c, h) :: post) :
    (c, h) ∈ st.live ∧ (∀ q ∈ pre ++ post, q ∈ st.live) ∧
      st.table.slots[h.index]? =
        some ⟨h.gen, handlesAt h.index (pre ++ post) + 1, stateOf (st.maps c)⟩ ∧
      handlesAt h.index (pre ++ post) + 1 < 2 ^ 32 ∧
      ∀ i, h.index ≠ i → handlesAt i st.live = handlesAt i (pre ++ post) := by
  have hp : (c, h) ∈ st.live := by simp [hlive]
  obtain ⟨count, hslot, -, hcount, hsmall⟩ := hi.entry hp
  have hat : ∀ i, handlesAt i st.live =
      handlesAt i (pre ++ post) + if h.index = i then 1 else 0 := fun i => by
    rw [hlive, handlesAt_insert]
  have hself : count = handlesAt h.index (pre ++ post) + 1 := by
    rw [hcount, hat, if_pos rfl]
  subst hself
  refine ⟨hp, fun q hq => ?_, hslot, hsmall, fun i hne => ?_⟩
  · rw [hlive]
    simp only [mem_append, mem_cons] at hq ⊢
    exact hq.imp_right .inr
  · rw [hat, if_neg hne, add_zero]

/-- The last handle of a slot is dropped: the slot goes back to the free list. -/
theorem MapInvariant.emptied (hlive : st.live = pre ++ (c, h) :: post)
    (hlast : handlesAt h.index (pre ++ post) = 0) :
    MapInvariant me
      { st with
        table :=
          ⟨st.table.slots.set h.index ⟨(h.gen + 1) % 2 ^ 32, 0, .free⟩, h.index :: st.table.free⟩
        live := pre ++ post
        returned := st.returned ++ [c] } := by
  obtain ⟨hp, hsub, hslot, -, hother⟩ := hi.rest hlive
  have hnone : ∀ q ∈ pre ++ post, q.2.index ≠ h.index := handlesAt_eq_zero.mp hlast
  have hbusy : h.index ∉ st.table.free := by
    rw [(hi.idle _ _ hslot).2, ← (hi.count _ _ hslot).1]
    exact Nat.succ_ne_zero _
  refine ⟨fun q hq => hi.own q (hsub q hq), ?_,
    fun q hq q' hq' => hi.same q (hsub q hq) q' (hsub q' hq'),
    forall_set ?_ fun i e hindex he => ?_, forall_set ?_ fun i e hindex he => ?_, ?_, ?_, ?_, ?_⟩
  · intro q hq
    obtain ⟨n, hq'⟩ := hi.slot q (hsub q hq)
    exact ⟨n, by rw [getElem?_set_ne (hnone q hq).symm, hq']⟩
  · exact ⟨hlast.symm, by simp⟩
  · rw [← hother i hindex]
    exact hi.count i e he
  · exact ⟨by simp [State.isFree], by simp [hlast]⟩
  · rw [← hother i hindex, mem_cons, or_iff_right (Ne.symm hindex)]
    exact hi.idle i e he
  · refine ⟨nodup_cons.mpr ⟨hbusy, hi.free.1⟩, fun i hmem => ?_⟩
    rw [length_set]
    rcases mem_cons.mp hmem with rfl | hmem
    · exact (List.getElem?_eq_some_iff.mp hslot).1
    · exact hi.free.2 i hmem
  · simpa only [length_set] using hi.small
  · have hunreturned : c ∉ st.returned := fun hmem => ((hi.returned.2 c).mp hmem).2 _ hp rfl
    rw [nodup_append]
    exact ⟨hi.returned.1, by simp, fun b hb b' hb' hbb => by
      rw [mem_singleton.mp hb'] at hbb
      exact hunreturned (hbb ▸ hb)⟩
  · intro c'
    have hold := hi.returned.2 c'
    rw [hlive, gone_insert pre post (c, h) c'] at hold
    rw [mem_append, mem_singleton, hold]
    constructor
    · rintro (⟨hlt', -, hrest⟩ | rfl)
      · exact ⟨hlt', hrest⟩
      · exact ⟨(hi.own _ hp).2.2, fun q hq he => hnone q hq ((hi.same q (hsub q hq) _ hp).mpr he)⟩
    · rintro ⟨hlt', hrest⟩
      by_cases hc : c' = c
      · exact .inr hc
      · exact .inl ⟨hlt', Ne.symm hc, hrest⟩

/-- One of several handles of a slot is dropped. -/
theorem MapInvariant.uncounted (hlive : st.live = pre ++ (c, h) :: post)
    (hmore : handlesAt h.index (pre ++ post) ≠ 0) :
    MapInvariant me
      { st with
        table := { st.table with
          slots := st.table.slots.set h.index
            ⟨h.gen, handlesAt h.index (pre ++ post), stateOf (st.maps c)⟩ }
        live := pre ++ post } := by
  obtain ⟨hp, hsub, hslot, hsmall, hother⟩ := hi.rest hlive
  obtain ⟨other, hotherMem, hotherIndex⟩ : ∃ q ∈ pre ++ post, q.2.index = h.index := by
    by_contra hnot
    push Not at hnot
    exact hmore (handlesAt_eq_zero.mpr hnot)
  refine ⟨fun q hq => hi.own q (hsub q hq), fun q hq => ?_,
    fun q hq q' hq' => hi.same q (hsub q hq) q' (hsub q' hq'), forall_set ?_ fun i e hindex he =>
    ?_, forall_set ?_ fun i e hindex he => ?_, ?_, ?_, hi.returned.1, ?_⟩
  · have hset := hi.slot_set hp (handlesAt h.index (pre ++ post)) (st.maps c) (hsub q hq)
    rwa [update_eq_self] at hset
  · exact ⟨rfl, Nat.lt_of_succ_lt hsmall⟩
  · rw [← hother i hindex]
    exact hi.count i e he
  · have hidle := hi.idle _ _ hslot
    rw [← (hi.count _ _ hslot).1] at hidle
    exact ⟨hidle.1, iff_of_false (fun hmem => Nat.succ_ne_zero _ (hidle.2.mp hmem)) hmore⟩
  · rw [← hother i hindex]
    exact hi.idle i e he
  · simpa only [length_set] using hi.free
  · simpa only [length_set] using hi.small
  · intro c'
    rw [hi.returned.2 c', hlive, gone_insert pre post (c, h) c']
    constructor
    · rintro ⟨hlt', -, hrest⟩
      exact ⟨hlt', hrest⟩
    · rintro ⟨hlt', hrest⟩
      have hsame : other.1 = c := (hi.same other (hsub other hotherMem) _ hp).mp hotherIndex
      exact ⟨hlt', fun hc => hrest other hotherMem (hsame.trans hc), hrest⟩

/-- A handle is dropped, and its slot goes back to the free list exactly when it was the last. -/
theorem MapInvariant.dropped (hlive : st.live = pre ++ (c, h) :: post) : MapInvariant me
      { st with
        table := h.drop me st.table
        live := pre ++ post
        returned := st.returned ++ pushed c st.table (h.drop me st.table) } := by
  obtain ⟨hp, -, hslot, hsmall, -⟩ := hi.rest hlive
  obtain ⟨hown, hcounted, -⟩ : h.owner = me ∧ h.counted = true ∧ c < st.created := hi.own _ hp
  have hcounting : st.table.counting h =
      some ⟨h.gen, handlesAt h.index (pre ++ post) + 1, stateOf (st.maps c)⟩ := by
    simp [Table.counting, hslot, isFree_stateOf]
  have hmod : (handlesAt h.index (pre ++ post) + 1 + (2 ^ 32 - 1)) % 2 ^ 32 =
      handlesAt h.index (pre ++ post) := by omega
  simp only [LocalMap.drop, hcounted, hown, hcounting, hmod, Bool.not_true, Bool.false_or, ne_eq,
    not_true_eq_false, decide_false, Bool.false_eq_true, if_false]
  split
  case isTrue hlast =>
    have hemptied := hi.emptied hlive hlast
    simpa [pushed, hlast] using hemptied
  case isFalse hmore =>
    have huncounted := hi.uncounted hlive hmore
    simpa [pushed] using huncounted

/-- A clone of a handle counts in the same slot. -/
theorem MapInvariant.cloned (hp : (c, h) ∈ st.live)
    (hfits : handlesAt h.index st.live + 1 < 2 ^ 32) : MapInvariant me
      { st with
        table := (h.clone me st.table).2
        live := st.live ++ [(c, (h.clone me st.table).1)] } := by
  obtain ⟨count, hslot, hcounting, hcount, hsmall⟩ := hi.entry hp
  obtain ⟨hown, hcounted, hcreated⟩ : h.owner = me ∧ h.counted = true ∧ c < st.created :=
    hi.own _ hp
  have hcounting : st.table.counting h = some ⟨h.gen, count, stateOf (st.maps c)⟩ := hcounting
  have hcount : count = handlesAt h.index st.live := hcount
  have hmod : (count + 1) % 2 ^ 32 = count + 1 := by omega
  have hhandle : (⟨me, h.index, h.gen, true⟩ : LocalMap) = h := by
    rw [← hown, ← hcounted]
  have hclone : h.clone me st.table = (h, { st.table with
      slots := st.table.slots.set h.index ⟨h.gen, count + 1, stateOf (st.maps c)⟩ }) := by
    simp only [LocalMap.clone, hown, if_true, hcounting, hmod, hhandle]
  rw [hclone]
  have hmem : ∀ q, q ∈ st.live ++ [(c, h)] ↔ q ∈ st.live := by
    intro q
    rw [mem_append, mem_singleton]
    exact ⟨fun hq => hq.elim id fun he => he ▸ hp, .inl⟩
  have hat : ∀ i, handlesAt i (st.live ++ [(c, h)]) =
      handlesAt i st.live + if h.index = i then 1 else 0 := fun i => by
    rw [handlesAt_append, handlesAt_cons]
    simp [handlesAt]
  refine ⟨fun q hq => hi.own q ((hmem q).mp hq), ?_, fun q hq q' hq' =>
    hi.same q ((hmem q).mp hq) q' ((hmem q').mp hq'), forall_set ?_ fun i e hindex he => ?_,
    forall_set ?_ fun i e hindex he => ?_, ?_, ?_, hi.returned.1, ?_⟩
  · intro q hq
    have hset := hi.slot_set hp (count + 1) (st.maps c) ((hmem q).mp hq)
    rwa [update_eq_self] at hset
  · rw [hat, if_pos rfl]
    exact ⟨by simp only; omega, by simp only; omega⟩
  · rw [hat, if_neg hindex]
    exact hi.count i e he
  · have hidle : (stateOf (st.maps c)).isFree = true ↔ h.index ∈ st.table.free :=
      (hi.idle _ _ hslot).1
    refine ⟨hidle, iff_of_false ?_ (by rw [hat, if_pos rfl]; exact Nat.succ_ne_zero _)⟩
    rw [← hidle, isFree_stateOf]
    exact Bool.false_ne_true
  · rw [hat, if_neg hindex]
    exact hi.idle i e he
  · simpa only [length_set] using hi.free
  · simpa only [length_set] using hi.small
  · intro c'
    rw [hi.returned.2 c']
    simp only [hmem]

/-- A new map takes a slot that no handle is in. -/
theorem MapInvariant.placed {gen : ℕ} (hhere : t.slots[i]? = some ⟨gen, 1, .live fun _ => none⟩)
    (helse : ∀ j, j ≠ i → t.slots[j]? = st.table.slots[j]?) (hnone : handlesAt i st.live = 0)
    (hmem : ∀ j, j ∈ t.free ↔ j ∈ st.table.free ∧ j ≠ i)
    (hfree : t.free.Nodup ∧ ∀ j ∈ t.free, j < t.slots.length) (hsmall : t.slots.length ≤ 2 ^ 32) :
    MapInvariant me
      { st with
        table := t
        live := st.live ++ [(st.created, ⟨me, i, gen, true⟩)]
        created := st.created + 1
        maps := update st.maps st.created (some fun _ => none) } := by
  have hapart : ∀ q ∈ st.live, q.2.index ≠ i := handlesAt_eq_zero.mp hnone
  have hold : ∀ q ∈ st.live, q.1 ≠ st.created := fun q hq => ne_of_lt (hi.own q hq).2.2
  have hcases : ∀ q ∈ st.live ++ [(st.created, ⟨me, i, gen, true⟩)],
      q ∈ st.live ∨ q = (st.created, ⟨me, i, gen, true⟩) := by
    intro q hq
    rwa [mem_append, mem_singleton] at hq
  have hat : ∀ j, handlesAt j (st.live ++ [(st.created, ⟨me, i, gen, true⟩)]) =
      handlesAt j st.live + if i = j then 1 else 0 := fun j => by
    rw [handlesAt_append, handlesAt_cons]
    simp [handlesAt]
  refine ⟨?_, ?_, ?_, ?_, ?_, hfree, hsmall, hi.returned.1, ?_⟩
  · intro q hq
    rcases hcases q hq with hq | rfl
    · obtain ⟨hown, hcounted, hlt⟩ := hi.own q hq
      exact ⟨hown, hcounted, Nat.lt_succ_of_lt hlt⟩
    · exact ⟨rfl, rfl, Nat.lt_succ_self _⟩
  · intro q hq
    rcases hcases q hq with hq | rfl
    · obtain ⟨n, hslot⟩ := hi.slot q hq
      refine ⟨n, ?_⟩
      rw [helse _ (hapart q hq), hslot]
      simp only [update_of_ne (hold q hq)]
    · refine ⟨1, ?_⟩
      simp [stateOf, hhere]
  · intro q hq q' hq'
    rcases hcases q hq with hq | rfl <;> rcases hcases q' hq' with hq' | rfl
    · exact hi.same q hq q' hq'
    · exact iff_of_false (hapart q hq) (hold q hq)
    · exact iff_of_false (hapart q' hq').symm (hold q' hq').symm
    · exact iff_of_true rfl rfl
  · intro j e he
    rw [hat]
    by_cases hij : i = j
    · subst hij
      rw [hhere] at he
      cases he
      rw [if_pos rfl, hnone]
      exact ⟨rfl, by simp⟩
    · rw [helse j (Ne.symm hij)] at he
      rw [if_neg hij]
      exact hi.count j e he
  · intro j e he
    rw [hat, hmem]
    by_cases hij : i = j
    · subst hij
      rw [hhere] at he
      cases he
      simp [State.isFree]
    · rw [helse j (Ne.symm hij)] at he
      rw [if_neg hij, and_iff_left (Ne.symm hij)]
      exact hi.idle j e he
  · intro c'
    rw [hi.returned.2 c']
    constructor
    · rintro ⟨hlt, hrest⟩
      refine ⟨Nat.lt_succ_of_lt hlt, fun q hq => ?_⟩
      rcases hcases q hq with hq | rfl
      · exact hrest q hq
      · exact ne_of_gt hlt
    · rintro ⟨hlt, hrest⟩
      have hne := hrest _ (mem_append_right _ (mem_singleton_self _))
      exact ⟨Nat.lt_of_le_of_ne (Nat.le_of_lt_succ hlt) (Ne.symm hne),
        fun q hq => hrest q (mem_append_left _ hq)⟩

theorem MapInvariant.fresh (hnew : hmapNew me st.table = some (h, t))
    (hfits : st.table.free ≠ [] ∨ st.table.slots.length < 2 ^ 32) :
    MapInvariant me
      { st with
        table := t
        live := st.live ++ [(st.created, h)]
        created := st.created + 1
        maps := update st.maps st.created (some fun _ => none) } := by
  obtain ⟨hnodup, hbound⟩ := hi.free
  have hsmall := hi.small
  cases hfree : st.table.free with
  | nil =>
    have hlt : st.table.slots.length < 2 ^ 32 := hfits.resolve_left (not_not_intro hfree)
    simp only [hmapNew, hfree, Nat.mod_eq_of_lt hlt, some.injEq, Prod.mk.injEq] at hnew
    obtain ⟨rfl, rfl⟩ := hnew
    refine hi.placed (by simp) (fun j hj => ?_) ?_ (by simp [hfree]) (by simp)
      (by simp only [length_append, length_singleton]; omega)
    · by_cases hjlt : j < st.table.slots.length
      · rw [getElem?_append_left hjlt]
      · rw [getElem?_eq_none (by simp; omega), getElem?_eq_none (by omega)]
    · refine handlesAt_eq_zero.mpr fun q hq he => ?_
      obtain ⟨n, hslot⟩ := hi.slot q hq
      have := (List.getElem?_eq_some_iff.mp hslot).1
      omega
  | cons i rest =>
    rw [hfree] at hnodup hbound
    have hlt := hbound i mem_cons_self
    have hslot := getElem?_eq_getElem hlt
    simp only [hmapNew, hfree, hslot, Nat.mod_eq_of_lt (lt_of_lt_of_le hlt hsmall), map_some,
      some.injEq, Prod.mk.injEq] at hnew
    obtain ⟨rfl, rfl⟩ := hnew
    obtain ⟨hnotin, hrest⟩ := nodup_cons.mp hnodup
    refine hi.placed (getElem?_set_self hlt) (fun j hj => getElem?_set_ne (Ne.symm hj)) ?_ ?_
      ⟨hrest, fun j hj => ?_⟩ ?_
    · exact ((hi.idle i _ hslot).2.mp (by rw [hfree]; exact mem_cons_self))
    · intro j
      rw [hfree, mem_cons]
      exact ⟨fun hj => ⟨.inr hj, fun he => hnotin (he ▸ hj)⟩, fun hj => hj.1.resolve_left hj.2⟩
    · simpa only [length_set] using hbound j (mem_cons_of_mem i hj)
    · simpa only [length_set] using hsmall

/-- A builtin writes the map of its handle and drops the handle. -/
theorem MapInvariant.consumed (hlive : st.live = pre ++ (c, h) :: post) (m : Option Map) :
    MapInvariant me
      { st with
        table := h.drop me (st.table.setState h.index (stateOf m))
        live := pre ++ post
        maps := update st.maps c m
        returned := st.returned ++
          pushed c st.table (h.drop me (st.table.setState h.index (stateOf m))) } := by
  have hp : (c, h) ∈ st.live := by simp [hlive]
  have hdropped := (hi.write hp m).dropped hlive
  have hfree : (st.table.setState h.index (stateOf m)).free = st.table.free := by
    obtain ⟨count, hslot, -⟩ := hi.entry hp
    rw [Table.setState_of_slot hslot]
  simpa only [pushed, hfree] using hdropped

theorem MapInvariant.onLive_live (hp : p ∈ st.live) (hm : st.maps p.1 = some m) (who : String) :
    onLive me p.2 who st.table = .ok m := by
  rw [hi.onLive_eq hp, hm]

theorem MapInvariant.onLive_frozen (hp : p ∈ st.live) (hm : st.maps p.1 = none) (who : String) :
    onLive me p.2 who st.table = .error s!"{who}: <local map> is dead (it was frozen)" := by
  rw [hi.onLive_eq hp, hm]

theorem MapInvariant.step (hfits : MapFits st a) (hs : MapStep me a st st') :
    MapInvariant me st' := by
  cases hs with
  | new hnew => exact hi.fresh hnew hfits
  | clone hlive => exact hi.cloned (by simp [hlive]) hfits
  | drop hlive | has hlive | get hlive => exact hi.dropped hlive
  | @put _ pre post c h k v hlive =>
    have hp : (c, h) ∈ st.live := by simp [hlive]
    cases hm : st.maps c with
    | none =>
      rw [map_none, ← hm, update_eq_self, hmapPut, hi.onLive_frozen hp hm]
      exact hi.dropped hlive
    | some m =>
      rw [map_some, hmapPut, hi.onLive_live hp hm]
      exact hi.consumed hlive (some fun k' => if k' = k then some v else m k')
  | @freeze _ pre post c h hlive =>
    have hp : (c, h) ∈ st.live := by simp [hlive]
    cases hm : st.maps c with
    | none =>
      rw [show (none : Option Map) = st.maps c from hm.symm, update_eq_self, hmapFreeze,
        hi.onLive_frozen hp hm]
      exact hi.dropped hlive
    | some m =>
      rw [hmapFreeze, hi.onLive_live hp hm]
      exact hi.consumed hlive none

/-- What a builtin answers on the handle of a live map is what its own creation holds. -/
theorem MapInvariant.answers (hp : p ∈ st.live) (hm : st.maps p.1 = some m) :
    (hmapPut me p.2 k v st.table).1 = .ok (m k).isNone ∧ (hmapHas me p.2 k st.table).1 =
      .ok (m k).isSome ∧ (hmapGet me p.2 k st.table).1 = .ok (found (m k)) ∧
      (hmapFreeze me p.2 st.table).1 = .ok m := by
  simp [hmapPut, hmapHas, hmapGet, hmapFreeze, hi.onLive_live hp hm, Except.map]

end

/-- The refusal of a frozen map, by the name of the builtin. -/
def isDead (who : String) : String := s!"{who}: <local map> is dead (it was frozen)"

/-- On the handle of a frozen map a builtin does nothing but drop the handle. -/
theorem MapInvariant.refuses (hi : MapInvariant me st) (hp : p ∈ st.live)
    (hm : st.maps p.1 = none) :
    hmapPut me p.2 k v st.table = (.error (isDead "hmap_put"), p.2.drop me st.table) ∧
      hmapHas me p.2 k st.table = (.error (isDead "hmap_has"), p.2.drop me st.table) ∧
      hmapGet me p.2 k st.table = (.error (isDead "hmap_get"), p.2.drop me st.table) ∧
      hmapFreeze me p.2 st.table = (.error (isDead "hmap_freeze"), p.2.drop me st.table) := by
  simp [hmapPut, hmapHas, hmapGet, hmapFreeze, hi.onLive_frozen hp hm, Except.map, isDead]

/-- The live counted handles of an entry: those of its slot and its generation. -/
def holders (i : ℕ) (e : Entry) (live : List (ℕ × LocalMap)) : ℕ :=
  live.countP fun p => p.2.counted && p.2.index == i && p.2.gen == e.gen

/-- All the handles of a slot are counted and of its generation. -/
theorem MapInvariant.holders_eq (hi : MapInvariant me st) (he : st.table.slots[i]? = some e) :
    holders i e st.live = handlesAt i st.live := by
  refine countP_congr fun p hp => ?_
  obtain ⟨-, hcounted, -⟩ := hi.own p hp
  simp only [hcounted, Bool.true_and, Bool.and_eq_true, beq_iff_eq]
  refine and_iff_left_of_imp fun hindex => ?_
  obtain ⟨count, hslot⟩ := hi.slot p hp
  rw [hindex, he] at hslot
  rw [some.inj hslot]

/-- The table and its handles, as long as no count and no index runs over its `u32`. -/
theorem local_maps_sound (h : Reaches (MapStep me) MapFits .start st) :
    (∀ i e, st.table.slots[i]? = some e → e.count = holders i e st.live) ∧
      (∀ p ∈ st.live, ∀ q ∈ st.live, (p.2.index = q.2.index ∧ p.2.gen = q.2.gen) ↔ p.1 = q.1) ∧
      (∀ p ∈ st.live, ∀ m k v, st.maps p.1 = some m →
        (hmapPut me p.2 k v st.table).1 = .ok (m k).isNone ∧
          (hmapHas me p.2 k st.table).1 = .ok (m k).isSome ∧
          (hmapGet me p.2 k st.table).1 = .ok (found (m k)) ∧
          (hmapFreeze me p.2 st.table).1 = .ok m) ∧
      (∀ p ∈ st.live, ∀ k v, st.maps p.1 = none →
        hmapPut me p.2 k v st.table = (.error (isDead "hmap_put"), p.2.drop me st.table) ∧
          hmapHas me p.2 k st.table = (.error (isDead "hmap_has"), p.2.drop me st.table) ∧
          hmapGet me p.2 k st.table = (.error (isDead "hmap_get"), p.2.drop me st.table) ∧
          hmapFreeze me p.2 st.table = (.error (isDead "hmap_freeze"), p.2.drop me st.table)) ∧
      (st.table.free.Nodup ∧ (∀ i ∈ st.table.free, i < st.table.slots.length) ∧
        ∀ i e, st.table.slots[i]? = some e → (i ∈ st.table.free ↔ ∀ p ∈ st.live, p.2.index ≠ i)) ∧
      st.returned.Nodup ∧ ∀ c, c ∈ st.returned ↔ c < st.created ∧ ∀ p ∈ st.live, p.1 ≠ c := by
  have hi : MapInvariant me st := h.invariant (fun hi hfits hs => hi.step hfits hs) (.start me)
  refine ⟨fun i e he => ?_, fun p hp q hq => ?_, fun p hp m k v hm => hi.answers hp hm,
    fun p hp k v hm => hi.refuses hp hm, ⟨hi.free.1, hi.free.2, fun i e he => ?_⟩, hi.returned⟩
  · rw [hi.holders_eq he]
    exact (hi.count i e he).1
  · rw [← hi.same p hp q hq]
    refine and_iff_left_of_imp fun hindex => ?_
    obtain ⟨n, hp'⟩ := hi.slot p hp
    obtain ⟨n', hq'⟩ := hi.slot q hq
    rw [hindex, hq'] at hp'
    exact (Entry.mk.inj (some.inj hp')).1.symm
  · rw [(hi.idle i e he).2, handlesAt_eq_zero]

/-- A slot is used again: the second map is another one, under the next generation. -/
theorem local_maps_sound_run : ∃ st : MapWorld, Reaches (MapStep 7) MapFits .start st ∧
    st.live = [(1, ⟨7, 0, 1, true⟩)] ∧ st.returned = [0] ∧
    (hmapGet 7 ⟨7, 0, 1, true⟩ "k" st.table).1 = .ok (found ((some "v" : Option String))) := by
  have hnew : Reaches (MapStep 7) MapFits .start _ :=
    .of_step (a := MapAction.new) (Or.inr (by decide)) (.new rfl)
  have hdrop := hnew.next (a := MapAction.drop ⟨7, 0, 0, true⟩) trivial
    (@MapStep.drop 7 _ [] [] 0 _ rfl)
  have hagain := hdrop.next (a := MapAction.new) (Or.inl (cons_ne_nil 0 [])) (.new rfl)
  have hclone := hagain.next (a := MapAction.clone ⟨7, 0, 1, true⟩)
    (by decide : (1 : ℕ) + 1 < 2 ^ 32) (@MapStep.clone 7 _ [] [] 1 _ rfl)
  have hput := hclone.next (a := MapAction.put ⟨7, 0, 1, true⟩ "k" "v") trivial
    (@MapStep.put 7 _ [] [(1, ⟨7, 0, 1, true⟩)] 1 _ _ _ rfl)
  exact ⟨_, hput, rfl, rfl, ((local_maps_sound hput).2.2.1 (1, ⟨7, 0, 1, true⟩)
    mem_cons_self _ "k" "v" rfl).2.2.1⟩

end

/-- The world of one map and `n` clones of its handle. -/
def cloned (n : ℕ) : MapWorld where
  table := ⟨[⟨0, (n + 1) % 2 ^ 32, .live fun _ => none⟩], []⟩
  live := replicate (n + 1) (0, ⟨0, 0, 0, true⟩)
  created := 1
  maps := update (fun _ => none) 0 (some fun _ => none)
  returned := []

theorem cloned_step (n : ℕ) : MapStep 0 (.clone ⟨0, 0, 0, true⟩) (cloned n) (cloned (n + 1)) := by
  have hlive : (cloned n).live = [] ++ (0, ⟨0, 0, 0, true⟩) :: replicate n (0, ⟨0, 0, 0, true⟩) :=
    rfl
  have hstep := @MapStep.clone 0 _ _ _ _ _ hlive
  have hclone : LocalMap.clone 0 ⟨0, 0, 0, true⟩ (cloned n).table =
      (⟨0, 0, 0, true⟩, (cloned (n + 1)).table) := by
    have hcounting : (cloned n).table.counting ⟨0, 0, 0, true⟩ =
        some ⟨0, (n + 1) % 2 ^ 32, .live fun _ => none⟩ := rfl
    simp only [LocalMap.clone, if_true, hcounting]
    simp [cloned]
  rw [hclone] at hstep
  convert hstep using 1
  simp only [cloned]
  rw [replicate_succ']

theorem reaches_cloned (n : ℕ) : Reaches (MapStep 0) anyAction .start (cloned n) := by
  induction n with
  | zero => exact .of_step trivial (.new rfl)
  | succ n ih => exact ih.next trivial (cloned_step n)

/-- The count of a slot wraps: after `2 ^ 32 - 1` clones it is zero, with all the handles alive. -/
theorem count_wraps : ∃ st : MapWorld, Reaches (MapStep 0) anyAction .start st ∧
    ∃ i e, st.table.slots[i]? = some e ∧ e.count ≠ holders i e st.live := by
  refine ⟨cloned (2 ^ 32 - 1), reaches_cloned _, 0, ⟨0, 0, .live fun _ => none⟩, rfl, ?_⟩
  have hholders : ∀ n e, e.gen = 0 → holders 0 e (cloned n).live = n + 1 := by
    intro n e he
    simp [holders, cloned, he, countP_replicate]
  rw [hholders _ _ rfl]
  decide

end AxisBridge.HMap
