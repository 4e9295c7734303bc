import AxisBridge.Lib.Ledger
import AxisBridge.Lib.Reach
import Mathlib.Tactic.Linarith

/-! The tag interner: the mutex variant, and the lock-free one that publishes immutable
snapshots. -/
namespace AxisBridge
open List Function Option

/-- `TAG_TABLE` and `TAG_MAP`. -/
structure TagTable where
  table : List String
  map : String → Option ℕ

open TagTable

def internTagMutex (tags : TagTable) (name : String) : ℕ × TagTable :=
  match tags.map name with
  | some t => (t, tags)
  | none =>
    let t := tags.table.length % 2 ^ 32
    (t, ⟨tags.table ++ [name], update tags.map name (some t)⟩)

def getTagNameMutex (tags : TagTable) (tag : ℕ) : String :=
  (tags.table[tag]?).getD "Unknown"

structure TagSnapshot where
  names : List String
  map : String → Option ℕ

open TagSnapshot

def TagSnapshot.empty : TagSnapshot := ⟨[], fun _ => none⟩

/-- The tag a snapshot has for its next name. -/
def TagSnapshot.nextTag (cur : TagSnapshot) : ℕ := cur.names.length % 2 ^ 32

/-- The clone that publishes `name`. -/
def TagSnapshot.push (cur : TagSnapshot) (name : String) : TagSnapshot :=
  ⟨cur.names ++ [name], update cur.map name (some cur.nextTag)⟩

def TagSnapshot.tagName (snap : TagSnapshot) (tag : ℕ) : String :=
  (snap.names[tag]?).getD "Unknown"

inductive TagRequest
  | internTag (name : String)
  | getTagName (tag : ℕ)

inductive TagReply
  | tag (t : ℕ)
  | name (s : String)

/-- A call and how far it has come, with the snapshot it has loaded. -/
inductive TagCall
  | interning (name : String)
  | loaded (name : String) (snap : TagSnapshot)
  | locking (name : String)
  | locked (name : String)
  | rechecked (name : String) (cur : TagSnapshot)
  | unlocking (name : String) (t : ℕ)
  | interned (name : String) (t : ℕ)
  | naming (tag : ℕ)
  | reading (tag : ℕ) (snap : TagSnapshot)
  | named (tag : ℕ) (s : String)

open TagCall

def TagRequest.call : TagRequest → TagCall
  | .internTag name => .interning name
  | .getTagName tag => .naming tag

/-- Bytes of the address space, and of a `String` in a `Vec`; a snapshot takes at least those of its
names. -/
def ADDRESS_SPACE : ℕ := 2 ^ 64

def STRING_SIZE : ℕ := 24

/-- The published head, the holder of `LF_WRITE` and the bytes of the snapshots, which are never
freed. For the sake of the statements `order` keeps the requests with their replies, each from the
moment its reply is determined. -/
structure TagState where
  head : TagSnapshot
  lock : Option ℕ
  leaked : ℕ
  calls : ℕ → TagCall
  order : List (ℕ × TagRequest × TagReply)

def TagState.start (requests : ℕ → TagRequest) : TagState :=
  ⟨.empty, none, 0, fun i => (requests i).call, []⟩

/-- The entry of an intern that finds its name in the snapshot it loads. -/
def TagSnapshot.hit (snap : TagSnapshot) (name : String) : List (TagRequest × TagReply) :=
  (snap.map name).toList.map fun t => (.internTag name, .tag t)

inductive TagAction
  | loadFast (i : ℕ)
  | fastHit (i : ℕ)
  | fastMiss (i : ℕ)
  | lock (i : ℕ)
  | recheck (i : ℕ)
  | slowHit (i : ℕ)
  | publish (i : ℕ)
  | unlock (i : ℕ)
  | loadName (i : ℕ)
  | readName (i : ℕ)

/-- One atomic step of one call. A publish that finds no address space left aborts the process, so
it is no step. -/
inductive TagStep : TagAction → TagState → TagState → Prop
  | loadFast {st : TagState} {i : ℕ} {name : String} (hcall : st.calls i = .interning name) :
      TagStep (.loadFast i) st
        { st with
          calls := update st.calls i (.loaded name st.head)
          order := st.order ++ (st.head.hit name).map (i, ·) }
  | fastHit {st : TagState} {i t : ℕ} {name : String} {snap : TagSnapshot}
      (hcall : st.calls i = .loaded name snap) (hmap : snap.map name = some t) :
      TagStep (.fastHit i) st { st with calls := update st.calls i (.interned name t) }
  | fastMiss {st : TagState} {i : ℕ} {name : String} {snap : TagSnapshot}
      (hcall : st.calls i = .loaded name snap) (hmap : snap.map name = none) :
      TagStep (.fastMiss i) st { st with calls := update st.calls i (.locking name) }
  | lock {st : TagState} {i : ℕ} {name : String} (hcall : st.calls i = .locking name)
      (hlock : st.lock = none) :
      TagStep (.lock i) st
        { st with lock := some i, calls := update st.calls i (.locked name) }
  | recheck {st : TagState} {i : ℕ} {name : String} (hcall : st.calls i = .locked name) :
      TagStep (.recheck i) st
        { st with
          calls := update st.calls i (.rechecked name st.head)
          order := st.order ++ (st.head.hit name).map (i, ·) }
  | slowHit {st : TagState} {i t : ℕ} {name : String} {cur : TagSnapshot}
      (hcall : st.calls i = .rechecked name cur) (hmap : cur.map name = some t) :
      TagStep (.slowHit i) st { st with calls := update st.calls i (.unlocking name t) }
  | publish {st : TagState} {i : ℕ} {name : String} {cur : TagSnapshot}
      (hcall : st.calls i = .rechecked name cur) (hmap : cur.map name = none)
      (hroom : st.leaked + STRING_SIZE * (cur.names.length + 1) ≤ ADDRESS_SPACE) :
      TagStep (.publish i) st
        { st with
          head := cur.push name
          leaked := st.leaked + STRING_SIZE * (cur.names.length + 1)
          calls := update st.calls i (.unlocking name cur.nextTag)
          order := st.order ++ [(i, .internTag name, .tag cur.nextTag)] }
  | unlock {st : TagState} {i t : ℕ} {name : String} (hcall : st.calls i = .unlocking name t) :
      TagStep (.unlock i) st
        { st with lock := none, calls := update st.calls i (.interned name t) }
  | loadName {st : TagState} {i tag : ℕ} (hcall : st.calls i = .naming tag) :
      TagStep (.loadName i) st
        { st with
          calls := update st.calls i (.reading tag st.head)
          order := st.order ++ [(i, .getTagName tag, .name (st.head.tagName tag))] }
  | readName {st : TagState} {i tag : ℕ} {snap : TagSnapshot}
      (hcall : st.calls i = .reading tag snap) :
      TagStep (.readName i) st
        { st with calls := update st.calls i (.named tag (snap.tagName tag)) }

open TagStep

/-- The request and the reply of a call, once the reply is determined. -/
def TagCall.linearized : TagCall → List (TagRequest × TagReply)
  | .loaded name snap => snap.hit name
  | .rechecked name cur => cur.hit name
  | .unlocking name t => [(.internTag name, .tag t)]
  | .interned name t => [(.internTag name, .tag t)]
  | .reading tag snap => [(.getTagName tag, .name (snap.tagName tag))]
  | .named tag s => [(.getTagName tag, .name s)]
  | _ => []

/-- The mutex interner serves one request. -/
def TagTable.serve (tags : TagTable) : TagRequest → TagReply × TagTable
  | .internTag name =>
    let (t, next) := internTagMutex tags name
    (.tag t, next)
  | .getTagName tag => (.name (getTagNameMutex tags tag), tags)

/-- The mutex interner serves requests one after the other. -/
def TagTable.serveAll (tags : TagTable) : List TagRequest → List TagReply × TagTable
  | [] => ([], tags)
  | request :: requests =>
    let (reply, next) := tags.serve request
    let (replies, last) := next.serveAll requests
    (reply :: replies, last)

def TagTable.empty : TagTable := ⟨[], fun _ => none⟩

def TagSnapshot.toTable (snap : TagSnapshot) : TagTable := ⟨snap.names, snap.map⟩

/-- The map finds a name exactly at its place among the names. -/
def TagSnapshot.Sound (snap : TagSnapshot) : Prop :=
  ∀ name t, snap.map name = some t ↔ snap.names[t]? = some name

/-- The snapshot a call works on. -/
def TagCall.snapshot : TagCall → Option TagSnapshot
  | .loaded _ snap => some snap
  | .rechecked _ cur => some cur
  | .reading _ snap => some snap
  | _ => none

/-- The call is between taking `LF_WRITE` and dropping it. -/
def TagCall.Holds : TagCall → Prop
  | .locked .. | .rechecked .. | .unlocking .. => True
  | _ => False

/-- The name and the tag of an intern that has its tag. -/
def TagCall.tagged : TagCall → Option (String × ℕ)
  | .unlocking name t => some (name, t)
  | .interned name t => some (name, t)
  | _ => none

structure TagInvariant (st : TagState) : Prop where
  sound : st.head.Sound
  size : STRING_SIZE * (st.head.names.length * (st.head.names.length + 1)) ≤ 2 * st.leaked
  leaked : st.leaked ≤ ADDRESS_SPACE
  snapshot : ∀ i snap, (st.calls i).snapshot = some snap →
    snap.Sound ∧ snap.names <+: st.head.names
  holder : ∀ i, (st.calls i).Holds → st.lock = some i
  current : ∀ i name cur, st.calls i = .rechecked name cur → cur = st.head
  tagged : ∀ i name t, (st.calls i).tagged = some (name, t) → st.head.names[t]? = some name
  given : ∀ t < st.head.names.length, ∃ j name, (j, .internTag name, .tag t) ∈ st.order
  ledger : ∀ i, itemsOf i st.order = (st.calls i).linearized
  served : TagTable.empty.serveAll (st.order.map fun e => e.2.1) =
    (st.order.map fun e => e.2.2, st.head.toTable)

variable {st st' : TagState} {a : TagAction} {i t : ℕ} {name : String} {snap : TagSnapshot}
  {call₀ : TagCall} {requests : ℕ → TagRequest}

theorem TagTable.serveAll_append (tags : TagTable) (requests requests' : List TagRequest) :
    tags.serveAll (requests ++ requests') =
      ((tags.serveAll requests).1 ++ ((tags.serveAll requests).2.serveAll requests').1,
        ((tags.serveAll requests).2.serveAll requests').2) := by
  induction requests generalizing tags with
  | nil => rfl
  | cons first requests ih => simp [serveAll, ih]

/-- An intern that hits leaves the mutex interner as it is, too. -/
theorem TagSnapshot.serveAll_hit (snap : TagSnapshot) (name : String) :
    snap.toTable.serveAll ((snap.hit name).map Prod.fst) =
      ((snap.hit name).map Prod.snd, snap.toTable) := by
  cases hmap : snap.map name with
  | none => simp [hit, hmap, serveAll]
  | some t =>
    simp [hit, hmap, serveAll, serve, internTagMutex, toTable]

theorem TagSnapshot.serve_push (hmap : snap.map name = none) :
    snap.toTable.serve (.internTag name) = (.tag snap.nextTag, (snap.push name).toTable) := by
  simp [serve, internTagMutex, toTable, hmap, nextTag, push]

theorem TagSnapshot.sound_push (hsound : snap.Sound) (hmap : snap.map name = none)
    (hlen : snap.nextTag = snap.names.length) : (snap.push name).Sound := by
  intro name' t
  simp only [push, hlen]
  by_cases hname : name' = name
  · subst hname
    have hnot : ∀ t : ℕ, snap.names[t]? ≠ some name' := by
      intro t ht
      rw [(hsound name' t).mpr ht] at hmap
      cases hmap
    rw [update_self]
    refine ⟨?_, fun h => ?_⟩
    · rintro ⟨⟩
      exact getElem?_concat_length
    · rcases lt_or_ge t snap.names.length with hlt | hge
      · rw [getElem?_append_left hlt] at h
        exact absurd h (hnot t)
      · have hlen' := (List.getElem?_eq_some_iff.mp h).1
        simp only [length_append, length_singleton] at hlen'
        exact congrArg some (by omega)
  · rw [update_of_ne hname, hsound name' t]
    rcases lt_or_ge t snap.names.length with hlt | hge
    · rw [getElem?_append_left hlt]
    · rw [getElem?_append_right hge, getElem?_eq_none hge]
      refine ⟨nofun, fun h => ?_⟩
      exact absurd (mem_singleton.mp (mem_of_getElem? h)) hname

/-- A name found in a sound snapshot has its tag in every later one. -/
theorem TagSnapshot.getElem?_of_map {head : TagSnapshot} (hsound : snap.Sound)
    (hpre : snap.names <+: head.names) (hmap : snap.map name = some t) :
    head.names[t]? = some name := by
  obtain ⟨rest, hrest⟩ := hpre
  have ht := (hsound name t).mp hmap
  rw [← hrest, List.getElem?_append_left (List.getElem?_eq_some_iff.mp ht).1]
  exact ht

theorem TagInvariant.start (requests : ℕ → TagRequest) : TagInvariant (.start requests) := by
  have hcall : ∀ i, ((TagState.start requests).calls i).snapshot = none ∧
      ¬ ((TagState.start requests).calls i).Holds ∧ ((TagState.start requests).calls i).tagged =
      none ∧ ((TagState.start requests).calls i).linearized = [] ∧
      ∀ name cur, (TagState.start requests).calls i ≠ .rechecked name cur := by
    intro i
    simp only [TagState.start]
    cases requests i <;> exact ⟨rfl, id, rfl, rfl, nofun⟩
  constructor
  · intro name t
    exact ⟨nofun, nofun⟩
  · exact Nat.zero_le _
  · exact Nat.zero_le _
  · intro i snap h
    simp [(hcall i).1] at h
  · exact fun i h => absurd h (hcall i).2.1
  · exact fun i name cur h => absurd h ((hcall i).2.2.2.2 name cur)
  · intro i name t h
    simp [(hcall i).2.2.1] at h
  · exact nofun
  · exact fun i => (hcall i).2.2.2.1.symm
  · rfl

/-- The tags stay below the width of the counter. -/
theorem TagInvariant.nextTag_eq (hi : TagInvariant st) :
    st.head.nextTag = st.head.names.length := by
  have hsize := hi.size
  have hleaked := hi.leaked
  simp only [STRING_SIZE, ADDRESS_SPACE] at hsize hleaked
  refine Nat.mod_eq_of_lt ?_
  by_contra hlt
  have hge : 2 ^ 32 ≤ st.head.names.length := Nat.le_of_not_lt hlt
  have hsquare : 2 ^ 32 * 2 ^ 32 ≤ st.head.names.length * (st.head.names.length + 1) :=
    Nat.mul_le_mul hge (Nat.le_succ_of_le hge)
  omega

/-- A step that publishes nothing. The requests it replies to leave the mutex interner as it is. -/
theorem TagInvariant.turn (hi : TagInvariant st) (hcall : st.calls i = call₀) (call : TagCall)
    (lock : Option ℕ) (items : List (TagRequest × TagReply))
    (hsnapshot : ∀ snap, call.snapshot = some snap → call₀.snapshot = some snap ∨ snap = st.head)
    (hcurrent : ∀ name cur, call = .rechecked name cur → cur = st.head)
    (hholds : call.Holds → lock = some i) (hlock : ∀ j ≠ i, (st.calls j).Holds → lock = some j)
    (htagged : ∀ name t, call.tagged = some (name, t) →
      call₀.tagged = some (name, t) ∨ st.head.names[t]? = some name)
    (hlinearized : call.linearized = call₀.linearized ++ items)
    (hserve : st.head.toTable.serveAll (items.map Prod.fst) =
      (items.map Prod.snd, st.head.toTable)) :
    TagInvariant
      { st with
        lock := lock
        calls := update st.calls i call
        order := st.order ++ items.map (i, ·) } := by
  subst hcall
  refine ⟨hi.sound, hi.size, hi.leaked, ?_, ?_, ?_, ?_, ?_,
    itemsOf_update hi.ledger items hlinearized, ?_⟩
  · refine (Function.forall_update_iff st.calls fun _ call => ∀ snap, call.snapshot = some snap →
      snap.Sound ∧ snap.names <+: st.head.names).mpr ⟨fun snap h => ?_, fun j _ => hi.snapshot j⟩
    rcases hsnapshot snap h with h | rfl
    · exact hi.snapshot i snap h
    · exact ⟨hi.sound, prefix_rfl⟩
  · exact (Function.forall_update_iff st.calls fun j call => call.Holds → lock = some j).mpr
      ⟨hholds, hlock⟩
  · exact (Function.forall_update_iff st.calls fun _ call => ∀ name cur,
      call = .rechecked name cur → cur = st.head).mpr ⟨hcurrent, fun j _ => hi.current j⟩
  · exact (Function.forall_update_iff st.calls fun _ call => ∀ name t,
      call.tagged = some (name, t) → st.head.names[t]? = some name).mpr
      ⟨fun name t h => (htagged name t h).elim (hi.tagged i name t) id, fun j _ => hi.tagged j⟩
  · intro t ht
    obtain ⟨j, name, hmem⟩ := hi.given t ht
    exact ⟨j, name, mem_append_left _ hmem⟩
  · have hrequests : (items.map (i, ·)).map (fun e => e.2.1) = items.map Prod.fst := by simp
    have hreplies : (items.map (i, ·)).map (fun e => e.2.2) = items.map Prod.snd := by simp
    simp [hrequests, hreplies, serveAll_append, hi.served, hserve]

theorem TagInvariant.publish (hi : TagInvariant st) {cur : TagSnapshot}
    (hcall : st.calls i = .rechecked name cur) (hmap : cur.map name = none)
    (hroom : st.leaked + STRING_SIZE * (cur.names.length + 1) ≤ ADDRESS_SPACE) :
    TagInvariant
      { st with
        head := cur.push name
        leaked := st.leaked + STRING_SIZE * (cur.names.length + 1)
        calls := update st.calls i (.unlocking name cur.nextTag)
        order := st.order ++ [(i, .internTag name, .tag cur.nextTag)] } := by
  obtain rfl := hi.current i name cur hcall
  have hnext := hi.nextTag_eq
  have hpre : st.head.names <+: (st.head.push name).names := prefix_append ..
  have hlast : (st.head.push name).names[st.head.nextTag]? = some name := by
    rw [hnext]
    exact getElem?_concat_length
  have hholder := hi.holder i (by rw [hcall]; trivial)
  refine ⟨sound_push hi.sound hmap hnext, ?_, hroom, ?_, ?_, ?_, ?_, ?_,
    itemsOf_update hi.ledger [(.internTag name, .tag st.head.nextTag)] ?_, ?_⟩
  · have hsize := hi.size
    simp only [push, length_append, length_singleton, STRING_SIZE] at hsize ⊢
    linarith
  · refine (Function.forall_update_iff st.calls fun _ call => ∀ snap, call.snapshot = some snap →
      snap.Sound ∧ snap.names <+: (st.head.push name).names).mpr ⟨nofun, fun j _ snap h => ?_⟩
    obtain ⟨hsound, hsnap⟩ := hi.snapshot j snap h
    exact ⟨hsound, hsnap.trans hpre⟩
  · exact (Function.forall_update_iff st.calls fun j call => call.Holds → st.lock = some j).mpr
      ⟨fun _ => hholder, fun j _ => hi.holder j⟩
  · refine (Function.forall_update_iff st.calls fun _ call => ∀ name' cur, call =
      .rechecked name' cur → cur = st.head.push name).mpr ⟨nofun, fun j hij name' cur h => ?_⟩
    -- nobody else holds the lock
    have hj := hi.holder j (by rw [h]; trivial)
    exact absurd (some.inj (hj.symm.trans hholder)) hij
  · refine
      (Function.forall_update_iff st.calls fun _ call => ∀ name' t, call.tagged = some (name', t) →
      (st.head.push name).names[t]? = some name').mpr ⟨fun name' t h => ?_, fun j _ name' t h => ?_⟩
    · obtain ⟨rfl, rfl⟩ := Prod.mk.inj (some.inj h)
      exact hlast
    · have ht := hi.tagged j name' t h
      simp only [push]
      rwa [List.getElem?_append_left (List.getElem?_eq_some_iff.mp ht).1]
  · intro t ht
    simp only [push, length_append, length_singleton] at ht
    rcases lt_or_ge t st.head.names.length with hlt | hge
    · obtain ⟨j, name', hmem⟩ := hi.given t hlt
      exact ⟨j, name', mem_append_left _ hmem⟩
    · obtain rfl : t = st.head.nextTag := by omega
      exact ⟨i, name, mem_append_right _ (mem_singleton_self _)⟩
  · rw [hcall]
    simp [linearized, hit, hmap]
  · simp [serveAll_append, hi.served, serveAll, serve_push hmap]

theorem TagInvariant.step (hi : TagInvariant st) (hs : TagStep a st st') : TagInvariant st' := by
  have hholder : ∀ i, ∀ j ≠ i, (st.calls j).Holds → st.lock = some j := fun _ j _ => hi.holder j
  cases hs with
  | @loadFast _ i name hcall =>
    refine hi.turn hcall _ st.lock (st.head.hit name) ?_ nofun nofun (hholder i) nofun rfl
      (st.head.serveAll_hit name)
    rintro snap ⟨⟩
    exact .inr rfl
  | @fastHit _ i t name snap hcall hmap =>
    obtain ⟨hsound, hpre⟩ := hi.snapshot i snap (by rw [hcall]; rfl)
    have ht := getElem?_of_map hsound hpre hmap
    have hturn := hi.turn hcall (.interned name t) st.lock [] nofun nofun nofun (hholder i)
      (by rintro _ _ ⟨⟩; exact .inr ht) (by simp [linearized, hit, hmap]) rfl
    simpa using hturn
  | @fastMiss _ i name snap hcall hmap =>
    have hturn := hi.turn hcall (.locking name) st.lock [] nofun nofun nofun (hholder i) nofun
      (by simp [linearized, hit, hmap]) rfl
    simpa using hturn
  | @lock _ i name hcall hlock =>
    have hturn := hi.turn hcall (.locked name) (some i) [] nofun nofun
      (fun _ => rfl) (fun j _ hj => absurd (hi.holder j hj) (by simp [hlock])) nofun rfl rfl
    simpa using hturn
  | @recheck _ i name hcall =>
    refine hi.turn hcall _ st.lock (st.head.hit name) ?_ ?_ (fun _ => ?_) (hholder i) nofun rfl
      (st.head.serveAll_hit name)
    · rintro snap ⟨⟩
      exact .inr rfl
    · rintro _ _ ⟨⟩
      rfl
    · exact hi.holder i (by rw [hcall]; trivial)
  | @slowHit _ i t name cur hcall hmap =>
    obtain ⟨hsound, hpre⟩ := hi.snapshot i cur (by rw [hcall]; rfl)
    have ht := getElem?_of_map hsound hpre hmap
    have hturn := hi.turn hcall (.unlocking name t) st.lock [] nofun nofun
      (fun _ => hi.holder i (by rw [hcall]; trivial)) (hholder i)
      (by rintro _ _ ⟨⟩; exact .inr ht) (by simp [linearized, hit, hmap]) rfl
    simpa using hturn
  | publish hcall hmap hroom => exact hi.publish hcall hmap hroom
  | @unlock _ i t name hcall =>
    have hlock := hi.holder i (by rw [hcall]; trivial)
    have hturn := hi.turn hcall (.interned name t) none [] nofun nofun nofun
      (fun j hij hj => absurd (some.inj ((hi.holder j hj).symm.trans hlock)) hij)
      (fun _ _ h => .inl h) rfl rfl
    simpa using hturn
  | @loadName _ i tag hcall =>
    refine hi.turn hcall _ st.lock [(.getTagName tag, .name (st.head.tagName tag))] ?_ nofun nofun
      (hholder i) nofun rfl rfl
    rintro snap ⟨⟩
    exact .inr rfl
  | @readName _ i tag snap hcall =>
    have hturn := hi.turn hcall (.named tag (snap.tagName tag)) st.lock [] nofun nofun nofun
      (hholder i) nofun rfl rfl
    simpa using hturn

theorem TagInvariant.of_run (h : Reaches TagStep anyAction (.start requests) st) :
    TagInvariant st :=
  h.invariant (fun hi _ hs => hi.step hs) (.start requests)

/-- Names and order only grow. -/
theorem tagStep_extends (hi : TagInvariant st) (hs : TagStep a st st') :
    st.head.names <+: st'.head.names ∧ st.order <+: st'.order := by
  cases hs with
  | @publish _ i name cur hcall hmap hroom =>
    obtain rfl := hi.current i name cur hcall
    exact ⟨prefix_append .., prefix_append ..⟩
  | loadFast | recheck | loadName => exact ⟨prefix_rfl, prefix_append ..⟩
  | _ => exact ⟨prefix_rfl, prefix_rfl⟩

theorem tag_run_extends (hi : TagInvariant st) (h : Reaches TagStep anyAction st st') :
    st.head.names <+: st'.head.names ∧ st.order <+: st'.order := by
  refine h.relates (R := fun st st' => st.head.names <+: st'.head.names ∧ st.order <+: st'.order)
    (fun hi _ hs => hi.step hs) hi (fun _ => ⟨prefix_rfl, prefix_rfl⟩) ?_
    (fun hi _ hs => tagStep_extends hi hs)
  rintro s t u ⟨hnames, horder⟩ ⟨hnames', horder'⟩
  exact ⟨hnames.trans hnames', horder.trans horder'⟩

/-- A lookup of `tag` that began when `tag` was the tag of `name`. -/
def TagCall.Finds (tag : ℕ) (name : String) : TagCall → Prop
  | .naming tag' => tag' = tag
  | .reading tag' snap => tag' = tag ∧ snap.names[tag]? = some name
  | .named tag' s => tag' = tag ∧ s = name
  | _ => False

theorem TagCall.Finds.step {tag : ℕ} {j : ℕ} (ht : st.head.names[tag]? = some name)
    (hj : (st.calls j).Finds tag name) (hs : TagStep a st st') : (st'.calls j).Finds tag name := by
  cases hs with
  | @loadName _ i tag' hcall =>
    by_cases hij : j = i
    · subst hij
      rw [hcall] at hj
      simp only [update_self]
      exact ⟨hj, ht⟩
    · simpa [hij] using hj
  | @readName _ i tag' snap hcall =>
    by_cases hij : j = i
    · subst hij
      rw [hcall] at hj
      obtain ⟨rfl, hsnap⟩ := hj
      simp [Finds, tagName, hsnap]
    · simpa [hij] using hj
  | @loadFast _ i _ hcall | @fastHit _ i _ _ _ hcall | @fastMiss _ i _ _ hcall
  | @lock _ i _ hcall | @recheck _ i _ hcall | @slowHit _ i _ _ _ hcall
  | @publish _ i _ _ hcall | @unlock _ i _ _ hcall =>
    have hij : j ≠ i := by
      rintro rfl
      rw [hcall] at hj
      exact hj
    simpa [hij] using hj

theorem finds_of_run {tag : ℕ} {j : ℕ} (hi : TagInvariant st) (ht : st.head.names[tag]? = some name)
    (hj : (st.calls j).Finds tag name) (h : Reaches TagStep anyAction st st') :
    (st'.calls j).Finds tag name := by
  have hkept := h.invariant
    (I := fun st => TagInvariant st ∧ st.head.names[tag]? = some name ∧
      (st.calls j).Finds tag name) ?_ ⟨hi, ht, hj⟩
  · exact hkept.2.2
  · rintro st a st' ⟨hi, ht, hj⟩ - hs
    refine ⟨hi.step hs, ?_, hj.step ht hs⟩
    obtain ⟨rest, hrest⟩ := (tagStep_extends hi hs).1
    rw [← hrest, List.getElem?_append_left (List.getElem?_eq_some_iff.mp ht).1]
    exact ht

/-- The lock-free interner over any interleaving: names and tags correspond, the tags are dense, a
lookup after an intern finds its name, and the calls take effect in one order, which extends as the
run goes on and in which the mutex interner replies the same. -/
theorem tag_interner_consistent (h : Reaches TagStep anyAction (.start requests) st) :
    (∀ i j name t t', st.calls i = .interned name t → st.calls j = .interned name t' → t = t') ∧
    (∀ i j name name' t, st.calls i = .interned name t → st.calls j = .interned name' t →
      name = name') ∧
    (∀ i name t, st.calls i = .interned name t →
      ∀ t' ≤ t, ∃ j name', (j, .internTag name', .tag t') ∈ st.order) ∧
    (∀ st' i j name t s, Reaches TagStep anyAction st st' → st.calls i = .interned name t →
      st.calls j = .naming t → st'.calls j = .named t s → s = name) ∧
    TagTable.empty.serveAll (st.order.map fun e => e.2.1) =
      (st.order.map fun e => e.2.2, st.head.toTable) ∧
    (∀ i, itemsOf i st.order = (st.calls i).linearized) ∧
    ∀ st', Reaches TagStep anyAction st st' → st.order <+: st'.order := by
  have hi := TagInvariant.of_run h
  have htag : ∀ {i name t}, st.calls i = .interned name t → st.head.names[t]? = some name :=
    fun {i name t} hcall => hi.tagged i name t (by rw [hcall]; rfl)
  refine ⟨?_, ?_, ?_, ?_, hi.served, hi.ledger, fun st' h' => (tag_run_extends hi h').2⟩
  · intro i j name t t' hcall hcall'
    have ht := (hi.sound name t).mpr (htag hcall)
    have ht' := (hi.sound name t').mpr (htag hcall')
    exact some.inj (ht.symm.trans ht')
  · intro i j name name' t hcall hcall'
    exact some.inj ((htag hcall).symm.trans (htag hcall'))
  · intro i name t hcall t' hle
    have hlt := (List.getElem?_eq_some_iff.mp (htag hcall)).1
    exact hi.given t' (by omega)
  · intro st' i j name t s h' hcall hj hj'
    have hfinds := finds_of_run hi (htag hcall) (by rw [hj]; rfl) h'
    rw [hj'] at hfinds
    exact hfinds.2

/-- Two interns of one name that race, and a lookup afterwards. -/
def racingInterns : ℕ → TagRequest
  | 0 => .internTag "Some"
  | 1 => .internTag "Some"
  | _ => .getTagName 0

theorem tag_interner_consistent_run : ∃ st : TagState,
    Reaches TagStep anyAction (.start racingInterns) st ∧
    st.calls 0 = .interned "Some" 0 ∧ st.calls 1 = .interned "Some" 0 ∧
    st.calls 2 = .named 0 "Some" ∧
    TagTable.empty.serveAll (st.order.map fun e => e.2.1) =
      (st.order.map fun e => e.2.2, st.head.toTable) := by
  have hstart : Reaches TagStep anyAction (.start racingInterns) _ := .refl _
  have h0 := hstart.next trivial (loadFast (i := 0) rfl)
  have h1 := h0.next trivial (loadFast (i := 1) rfl)
  have h2 := h1.next trivial (fastMiss (i := 0) rfl rfl)
  have h3 := h2.next trivial (fastMiss (i := 1) rfl rfl)
  have h4 := h3.next trivial (.lock (i := 0) rfl rfl)
  have h5 := h4.next trivial (recheck (i := 0) rfl)
  have h6 := h5.next trivial (publish (i := 0) rfl rfl (by decide))
  have h7 := h6.next trivial (unlock (i := 0) rfl)
  have h8 := h7.next trivial (.lock (i := 1) rfl rfl)
  have h9 := h8.next trivial (recheck (i := 1) rfl)
  have h10 := h9.next trivial (slowHit (i := 1) rfl rfl)
  have h11 := h10.next trivial (unlock (i := 1) rfl)
  have h12 := h11.next trivial (loadName (i := 2) rfl)
  have h13 := h12.next trivial (.readName (i := 2) rfl)
  exact ⟨_, h13, rfl, rfl, rfl, (tag_interner_consistent h13).2.2.2.2.1⟩

end AxisBridge
