import AxisBridge.Lib.Reach
import Mathlib.Data.Int.Notation
import Mathlib.Data.List.Basic

/-! The waiters of the sealed blocks: who registers for a block, and whom its flush signals. -/
namespace AxisBridge
open List Function Option

/-- `(flush_dir, block_seq)`. -/
abbrev BlockKey := String × ℤ

inductive RegistryRequest
  | register (block : BlockKey)
  | signalBlock (block : BlockKey)
  | waitOneshot (id : ℤ)

/-- A call and how far it has come: `register` mints an id, puts its cell into the oneshots and
pushes it; `signal_block` takes the entry out and then signals id by id, the cell first and its flag
second. -/
inductive RegistryCall
  | idle
  | registering (block : BlockKey)
  | minted (block : BlockKey) (id : ℤ)
  | celled (block : BlockKey) (id : ℤ)
  | registered (block : BlockKey) (id : ℤ)
  | signaling (block : BlockKey)
  | telling (block : BlockKey) (n : ℕ) (ids : List ℤ)
  | ringing (block : BlockKey) (n : ℕ) (id : ℤ) (ids : List ℤ)
  | signaled (block : BlockKey) (n : ℕ)
  | waiting (id : ℤ)
  | blocked (id : ℤ)
  | woken (id : ℤ)
  | waited (id : ℤ)

open RegistryCall

def RegistryRequest.call : Option RegistryRequest → RegistryCall
  | none => .idle
  | some (.register block) => .registering block
  | some (.signalBlock block) => .signaling block
  | some (.waitOneshot id) => .waiting id

/-- What `signal_block` goes on with once it has removed the entry. -/
def signalBlock (block : BlockKey) : Option (List ℤ) → RegistryCall
  | some ids => .telling block ids.length ids
  | none => .signaled block 0

/-- The oneshots and the registry. `done` has the ids marked done, each with the call that did
it. -/
structure RegistryState where
  nextId : ℤ
  cells : List ℤ
  done : List (ℤ × ℕ)
  registry : BlockKey → Option (List ℤ)
  calls : ℕ → RegistryCall

open RegistryState

def RegistryState.start (requests : ℕ → Option RegistryRequest) : RegistryState :=
  ⟨1, [], [], fun _ => none, fun i => RegistryRequest.call (requests i)⟩

inductive RegistryAction
  | nextId (i : ℕ)
  | insertCell (i : ℕ)
  | push (i : ℕ)
  | remove (i : ℕ)
  | retire (i : ℕ)
  | skip (i : ℕ)
  | ring (i : ℕ)
  | finish (i : ℕ)
  | lookUp (i : ℕ)
  | miss (i : ℕ)
  | wake (i : ℕ)
  | forget (i : ℕ)

/-- One lock section of one call, or its mint. -/
inductive RegistryStep : RegistryAction → RegistryState → RegistryState → Prop
  | nextId {st : RegistryState} {i : ℕ} {block : BlockKey}
      (hcall : st.calls i = .registering block) :
      RegistryStep (.nextId i) st
        { st with
          nextId := st.nextId + 1
          calls := update st.calls i (.minted block st.nextId) }
  | insertCell {st : RegistryState} {i : ℕ} {block : BlockKey} {id : ℤ}
      (hcall : st.calls i = .minted block id) :
      RegistryStep (.insertCell i) st
        { st with
          cells := id :: st.cells
          calls := update st.calls i (.celled block id) }
  | push {st : RegistryState} {i : ℕ} {block : BlockKey} {id : ℤ}
      (hcall : st.calls i = .celled block id) :
      RegistryStep (.push i) st
        { st with
          registry := update st.registry block
            (some ((st.registry block).getD [] ++ [id]))
          calls := update st.calls i (.registered block id) }
  | remove {st : RegistryState} {i : ℕ} {block : BlockKey}
      (hcall : st.calls i = .signaling block) :
      RegistryStep (.remove i) st
        { st with
          registry := update st.registry block none
          calls := update st.calls i (signalBlock block (st.registry block)) }
  | retire {st : RegistryState} {i n : ℕ} {block : BlockKey} {id : ℤ} {ids : List ℤ}
      (hcall : st.calls i = .telling block n (id :: ids)) (hcell : id ∈ st.cells) :
      RegistryStep (.retire i) st
        { st with
          cells := st.cells.filter (· ≠ id)
          calls := update st.calls i (.ringing block n id ids) }
  | skip {st : RegistryState} {i n : ℕ} {block : BlockKey} {id : ℤ} {ids : List ℤ}
      (hcall : st.calls i = .telling block n (id :: ids)) (hcell : id ∉ st.cells) :
      RegistryStep (.skip i) st
        { st with calls := update st.calls i (.telling block n ids) }
  | ring {st : RegistryState} {i n : ℕ} {block : BlockKey} {id : ℤ} {ids : List ℤ}
      (hcall : st.calls i = .ringing block n id ids) :
      RegistryStep (.ring i) st
        { st with
          done := (id, i) :: st.done
          calls := update st.calls i (.telling block n ids) }
  | finish {st : RegistryState} {i n : ℕ} {block : BlockKey}
      (hcall : st.calls i = .telling block n []) :
      RegistryStep (.finish i) st
        { st with calls := update st.calls i (.signaled block n) }
  | lookUp {st : RegistryState} {i : ℕ} {id : ℤ} (hcall : st.calls i = .waiting id)
      (hcell : id ∈ st.cells) :
      RegistryStep (.lookUp i) st { st with calls := update st.calls i (.blocked id) }
  | miss {st : RegistryState} {i : ℕ} {id : ℤ} (hcall : st.calls i = .waiting id)
      (hcell : id ∉ st.cells) :
      RegistryStep (.miss i) st { st with calls := update st.calls i (.waited id) }
  | wake {st : RegistryState} {i j : ℕ} {id : ℤ} (hcall : st.calls i = .blocked id)
      (hdone : (id, j) ∈ st.done) :
      RegistryStep (.wake i) st { st with calls := update st.calls i (.woken id) }
  | forget {st : RegistryState} {i : ℕ} {id : ℤ} (hcall : st.calls i = .woken id) :
      RegistryStep (.forget i) st
        { st with
          cells := st.cells.filter (· ≠ id)
          calls := update st.calls i (.waited id) }

open RegistryStep

/-- The id a registration has minted. -/
def RegistryCall.token : RegistryCall → Option ℤ
  | .minted _ id => some id
  | .celled _ id => some id
  | .registered _ id => some id
  | _ => none

/-- The id a registration has put a cell up for. -/
def RegistryCall.cell : RegistryCall → Option ℤ
  | .celled _ id => some id
  | .registered _ id => some id
  | _ => none

/-- The block and the id of a registration that has returned. -/
def RegistryCall.enrolled : RegistryCall → Option (BlockKey × ℤ)
  | .registered block id => some (block, id)
  | _ => none

/-- The ids a signal has taken out of the registry and not signaled yet. -/
def RegistryCall.pending : RegistryCall → List ℤ
  | .telling _ _ ids => ids
  | .ringing _ _ id ids => id :: ids
  | _ => []

/-- The id whose cell a signal holds. -/
def RegistryCall.rings : RegistryCall → Option ℤ
  | .ringing _ _ id _ => some id
  | _ => none

/-- The block a call is to signal. -/
def RegistryCall.signals : RegistryCall → Option BlockKey
  | .signaling block => some block
  | .telling block _ _ => some block
  | .ringing block _ _ _ => some block
  | .signaled block _ => some block
  | _ => none

/-- The block whose entry a signal has removed. -/
def RegistryCall.removed : RegistryCall → Option BlockKey
  | .telling block _ _ => some block
  | .ringing block _ _ _ => some block
  | .signaled block _ => some block
  | _ => none

/-- No `register` or `signal_block` call is under way. -/
def RegistryCall.Settled : RegistryCall → Prop
  | .idle | .registered .. | .signaled .. | .waiting .. | .blocked .. | .woken .. | .waited .. =>
    True
  | _ => False

def RegistryState.entry (st : RegistryState) (block : BlockKey) : List ℤ :=
  (st.registry block).getD []

def RegistryState.Done (st : RegistryState) (id : ℤ) : Prop := ∃ j, (id, j) ∈ st.done

/-- A registration for `block` is pushed before a signal of the block removes its entry. -/
def PushedInTime (block : BlockKey) (st : RegistryState) (a : RegistryAction) : Prop :=
  ∀ i id, a = .push i → st.calls i = .celled block id → ∀ j, (st.calls j).removed ≠ some block

/-- Where a token is: with the entry of its block, with the call that signals it, or signaled. -/
inductive Place
  | unregistered
  | listed (block : BlockKey)
  | told (block : BlockKey) (j : ℕ)
  | rung (block : BlockKey) (j : ℕ)

def Place.block : Place → Option BlockKey
  | .unregistered => none
  | .listed block => some block
  | .told block _ => some block
  | .rung block _ => some block

/-- The call that has taken the token over. -/
def Place.signaler : Place → Option ℕ
  | .told _ j => some j
  | .rung _ j => some j
  | _ => none

/-- The registry and the signals hold the tokens where `place` says. -/
structure RegistryInvariant (place : ℤ → Place) (st : RegistryState) : Prop where
  fresh : ∀ i id, (st.calls i).token = some id → id < st.nextId
  distinct : ∀ i j id, (st.calls i).token = some id → (st.calls j).token = some id → i = j
  enrolled : ∀ i block id, (st.calls i).enrolled = some (block, id) → (place id).block = some block
  born : ∀ block id, (place id).block = some block → ∃ i, (st.calls i).enrolled = some (block, id)
  entry : ∀ block id, id ∈ st.entry block ↔ place id = .listed block
  entry_nodup : ∀ block, (st.entry block).Nodup
  pending : ∀ j id, id ∈ (st.calls j).pending ↔ ∃ block, place id = .told block j
  pending_nodup : ∀ j, (st.calls j).pending.Nodup
  removed : ∀ j id, (place id).signaler = some j → (st.calls j).removed = (place id).block
  done : ∀ id j, (id, j) ∈ st.done ↔ ∃ block, place id = .rung block j
  live : ∀ i id, (st.calls i).cell = some id →
    id ∈ st.cells ∨ st.Done id ∨ ∃ j, (st.calls j).rings = some id
  woken : ∀ i id, st.calls i = .woken id → st.Done id

variable {place : ℤ → Place} {st st' : RegistryState} {a : RegistryAction} {i : ℕ}
  {call : RegistryCall} {calls : ℕ → RegistryCall} {cells : List ℤ} {block : BlockKey} {id : ℤ}

theorem RegistryInvariant.start (requests : ℕ → Option RegistryRequest) :
    RegistryInvariant (fun _ => .unregistered) (.start requests) := by
  have hcall : ∀ i, ((RegistryState.start requests).calls i).token = none ∧
      ((RegistryState.start requests).calls i).cell = none ∧
      ((RegistryState.start requests).calls i).enrolled = none ∧
      ((RegistryState.start requests).calls i).pending = [] ∧
      ∀ id, (RegistryState.start requests).calls i ≠ .woken id := by
    intro i
    simp only [RegistryState.start]
    rcases requests i with _ | _ | _ | _ <;> exact ⟨rfl, rfl, rfl, rfl, nofun⟩
  constructor
  · intro i id h
    simp [(hcall i).1] at h
  · intro i j id h
    simp [(hcall i).1] at h
  · intro i block id h
    simp [(hcall i).2.2.1] at h
  · exact nofun
  · exact fun _ _ => ⟨nofun, nofun⟩
  · exact fun _ => nodup_nil
  · intro j id
    simp [(hcall j).2.2.2.1]
  · intro j
    simp [(hcall j).2.2.2.1]
  · exact nofun
  · intro id j
    exact ⟨nofun, nofun⟩
  · intro i id h
    simp [(hcall i).2.1] at h
  · exact fun i id h => absurd h ((hcall i).2.2.2.2 id)

theorem attr_self {β : Type*} (f : RegistryCall → β) (call : RegistryCall) :
    f (update calls i call i) = f call :=
  congrArg f (update_self ..)

variable {j : ℕ} {block' : BlockKey}

theorem attr_other {β : Type*} (f : RegistryCall → β) (hij : j ≠ i) :
    f (update calls i call j) = f (calls j) :=
  congrArg f (update_of_ne hij _ _)

/-- What a call does not change of itself, its step does not change of any call. -/
theorem update_attr {β : Type*} {f : RegistryCall → β} (h : f call = f (calls i)) (j : ℕ) :
    f (update calls i call j) = f (calls j) := by
  by_cases hij : j = i
  · subst hij
    exact (attr_self f call).trans h
  · exact attr_other f hij

/-- Where the tokens of a block go when call `i` removes its entry. -/
def Place.remove (block : BlockKey) (i : ℕ) : Place → Place
  | .listed block' => if block' = block then .told block i else .listed block'
  | place => place

theorem Place.remove_block (block : BlockKey) (i : ℕ) (place : Place) :
    (place.remove block i).block = place.block := by
  cases place with
  | listed block' =>
    by_cases h : block' = block
    · simp [Place.remove, Place.block, h]
    · simp [Place.remove, h]
  | _ => rfl

open Place (remove signaler remove_block)

theorem Place.remove_eq_listed {place : Place} :
    place.remove block i = .listed block' ↔ place = .listed block' ∧ block' ≠ block := by
  cases place with
  | listed block'' => grind [remove]
  | _ => simp [remove]

theorem Place.remove_signaler {place : Place} :
    (place.remove block i).signaler = some j ↔
      place.signaler = some j ∨ j = i ∧ place = .listed block := by
  cases place with
  | listed block'' => grind [remove, signaler]
  | _ => simp [remove, signaler]

theorem Place.remove_eq_told {place : Place} :
    place.remove block i = .told block' j ↔
      place = .told block' j ∨ j = i ∧ block' = block ∧ place = .listed block := by
  cases place with
  | listed block'' => grind [remove]
  | _ => simp [remove]

theorem Place.remove_eq_rung {place : Place} :
    place.remove block i = .rung block' j ↔ place = .rung block' j := by
  cases place with
  | listed block'' => grind [remove]
  | _ => simp [remove]

section
variable (hi : RegistryInvariant place st)

include hi

variable {next : ℤ}

/-- A call keeps its token or takes the next one. -/
theorem RegistryInvariant.fresh_update (hnext : st.nextId ≤ next)
    (htoken : ∀ id, call.token = some id → (st.calls i).token = some id ∨
      st.nextId ≤ id ∧ id < next)
    (j : ℕ) (id : ℤ) (h : (update st.calls i call j).token = some id) : id < next := by
  by_cases hij : j = i
  · subst hij
    rw [update_self] at h
    rcases htoken id h with h | h
    · have hlt := hi.fresh j id h
      omega
    · exact h.2
  · rw [update_of_ne hij] at h
    have hlt := hi.fresh j id h
    omega

theorem RegistryInvariant.distinct_update
    (htoken : ∀ id, call.token = some id → (st.calls i).token = some id ∨
      st.nextId ≤ id ∧ id < next)
    (j k : ℕ) (id : ℤ) (hj : (update st.calls i call j).token = some id)
    (hk : (update st.calls i call k).token = some id) : j = k := by
  have hother : ∀ k, k ≠ i → (st.calls k).token = some id → call.token ≠ some id := by
    intro k hki hk h
    rcases htoken id h with h | h
    · exact hki (hi.distinct k i id hk h)
    · have hlt := hi.fresh k id hk
      omega
  by_cases hji : j = i <;> by_cases hki : k = i
  · exact hji.trans hki.symm
  · subst hji
    rw [update_self] at hj
    rw [update_of_ne hki] at hk
    exact absurd hj (hother k hki hk)
  · subst hki
    rw [update_self] at hk
    rw [update_of_ne hji] at hj
    exact absurd hk (hother j hji hj)
  · rw [update_of_ne hji] at hj
    rw [update_of_ne hki] at hk
    exact hi.distinct j k id hj hk

/-- The cells a step removes are the ones that are done or that the step itself rings. -/
theorem RegistryInvariant.live_update
    (hcell : ∀ id, call.cell = some id → (st.calls i).cell = some id ∨ id ∈ cells)
    (hcells : ∀ id ∈ st.cells, id ∈ cells ∨ st.Done id ∨ call.rings = some id)
    (hrings : ∀ id, (st.calls i).rings = some id → call.rings = some id) (j : ℕ) (id : ℤ)
    (h : (update st.calls i call j).cell = some id) :
    id ∈ cells ∨ st.Done id ∨ ∃ k, (update st.calls i call k).rings = some id := by
  have hlive : id ∈ cells ∨ ∃ k, (st.calls k).cell = some id := by
    by_cases hij : j = i
    · subst hij
      rw [update_self] at h
      rcases hcell id h with h | h
      · exact .inr ⟨j, h⟩
      · exact .inl h
    · rw [update_of_ne hij] at h
      exact .inr ⟨j, h⟩
  have hself : call.rings = some id → ∃ k, (update st.calls i call k).rings = some id :=
    fun h => ⟨i, by rwa [update_self]⟩
  rcases hlive with hlive | ⟨k, hk⟩
  · exact .inl hlive
  · rcases hi.live k id hk with hlive | hlive | ⟨k, hk⟩
    · exact (hcells id hlive).imp_right (Or.imp_right hself)
    · exact .inr (.inl hlive)
    · by_cases hik : k = i
      · subst hik
        exact .inr (.inr (hself (hrings id hk)))
      · exact .inr (.inr ⟨k, by rwa [update_of_ne hik]⟩)

theorem RegistryInvariant.woken_update (hwoken : ∀ id, call = .woken id → st.Done id) (j : ℕ)
    (id : ℤ) (h : update st.calls i call j = .woken id) : st.Done id := by
  by_cases hij : j = i
  · subst hij
    exact hwoken id (by rwa [update_self] at h)
  · rw [update_of_ne hij] at h
    exact hi.woken j id h

/-- A step that moves no token. -/
theorem RegistryInvariant.quiet {call₀ : RegistryCall} (hcall : st.calls i = call₀)
    (hnext : st.nextId ≤ next)
    (htoken : ∀ id, call.token = some id → call₀.token = some id ∨ st.nextId ≤ id ∧ id < next)
    (henrolled : call.enrolled = call₀.enrolled) (hpending : call.pending = call₀.pending)
    (hremoved : call.removed = call₀.removed)
    (hcell : ∀ id, call.cell = some id → call₀.cell = some id ∨ id ∈ cells)
    (hcells : ∀ id ∈ st.cells, id ∈ cells ∨ st.Done id ∨ call.rings = some id)
    (hrings : ∀ id, call₀.rings = some id → call.rings = some id)
    (hwoken : ∀ id, call = .woken id → st.Done id) :
    RegistryInvariant place
      { st with
        nextId := next
        cells := cells
        calls := update st.calls i call } := by
  subst hcall
  refine ⟨hi.fresh_update hnext htoken, hi.distinct_update htoken, ?_, ?_, hi.entry,
    hi.entry_nodup, ?_, ?_, ?_, hi.done, hi.live_update hcell hcells hrings, hi.woken_update hwoken⟩
  · intro j block id
    rw [update_attr henrolled]
    exact hi.enrolled j block id
  · intro block id h
    obtain ⟨j, hj⟩ := hi.born block id h
    exact ⟨j, (update_attr henrolled j).trans hj⟩
  · intro j id
    rw [update_attr hpending]
    exact hi.pending j id
  · intro j
    rw [update_attr hpending]
    exact hi.pending_nodup j
  · intro j id h
    exact (update_attr hremoved j).trans (hi.removed j id h)

/-- A token of a registration that has not pushed yet is nowhere. -/
theorem RegistryInvariant.unregistered (htoken : (st.calls i).token = some id)
    (henrolled : (st.calls i).enrolled = none) : place id = .unregistered := by
  cases hplace : (place id).block with
  | none => cases h : place id <;> simp_all [Place.block]
  | some block =>
    obtain ⟨j, hj⟩ := hi.born block id hplace
    have htoken' : (st.calls j).token = some id := by
      cases hcall : st.calls j <;> simp_all [RegistryCall.enrolled, RegistryCall.token]
    obtain rfl := hi.distinct i j id htoken htoken'
    rw [henrolled] at hj
    cases hj

/-- The token of a registration goes into the entry of its block. -/
theorem RegistryInvariant.push (hcall : st.calls i = .celled block id) :
    RegistryInvariant (update place id (.listed block))
      { st with
        registry := update st.registry block (some ((st.registry block).getD [] ++ [id]))
        calls := update st.calls i (.registered block id) } := by
  have hnew : place id = .unregistered :=
    hi.unregistered (by rw [hcall]; rfl) (by rw [hcall]; rfl)
  have hself : update place id (.listed block) id = .listed block :=
    update_self ..
  have hother : ∀ {id'}, id' ≠ id → update place id (.listed block) id' = place id' :=
    fun hne => update_of_ne hne _ _
  have htoken : ∀ id', (registered block id).token = some id' →
      (st.calls i).token = some id' ∨ st.nextId ≤ id' ∧ id' < st.nextId := by
    intro id' h
    rw [hcall]
    exact .inl h
  have hpending : (registered block id).pending = (st.calls i).pending := by
    rw [hcall]
    rfl
  have hremoved : (registered block id).removed = (st.calls i).removed := by
    rw [hcall]
    rfl
  refine ⟨hi.fresh_update (Int.le_refl _) htoken, hi.distinct_update htoken, ?_, ?_, ?_, ?_, ?_, ?_,
    ?_, ?_, ?_, ?_⟩
  · intro j block' id' (h : (update st.calls i (.registered block id) j).enrolled = _)
    by_cases hij : j = i
    · subst hij
      rw [update_self] at h
      obtain ⟨rfl, rfl⟩ := Prod.mk.inj (some.inj h)
      rw [hself]
      rfl
    · rw [update_of_ne hij] at h
      have hblock := hi.enrolled j block' id' h
      rwa [hother (by rintro rfl; rw [hnew] at hblock; cases hblock)]
  · intro block' id' h
    by_cases hid : id' = id
    · subst hid
      rw [hself] at h
      obtain rfl := some.inj h
      exact ⟨i, attr_self RegistryCall.enrolled (.registered block id')⟩
    · rw [hother hid] at h
      obtain ⟨j, hj⟩ := hi.born block' id' h
      have hij : j ≠ i := by
        rintro rfl
        rw [hcall] at hj
        cases hj
      exact ⟨j, (attr_other RegistryCall.enrolled hij).trans hj⟩
  · intro block' id'
    have hentry := hi.entry block' id'
    simp only [RegistryState.entry] at hentry ⊢
    by_cases hblock : block' = block <;> by_cases hid : id' = id
    · subst hblock hid
      simp
    · subst hblock
      simpa [hid, hother hid] using hentry
    · subst hid
      simpa [hblock, Ne.symm hblock, hnew] using hentry
    · simpa [hblock, hother hid] using hentry
  · intro block'
    have hnodup := hi.entry_nodup block'
    have hentry := hi.entry block' id
    simp only [RegistryState.entry] at hentry hnodup ⊢
    by_cases hblock : block' = block
    · subst hblock
      have hnot : id ∉ (st.registry block').getD [] := by
        rw [hentry, hnew]
        exact nofun
      have hne : ∀ id' ∈ (st.registry block').getD [], id' ≠ id :=
        fun id' hmem heq => hnot (heq ▸ hmem)
      simpa [nodup_append, hnodup] using hne
    · simpa [hblock] using hnodup
  · intro j id'
    rw [update_attr hpending]
    by_cases hid : id' = id
    · subst hid
      simp [hi.pending, hnew]
    · rw [hother hid]
      exact hi.pending j id'
  · intro j
    rw [update_attr hpending]
    exact hi.pending_nodup j
  · intro j id' h
    have hid : id' ≠ id := by
      rintro rfl
      rw [hself] at h
      cases h
    rw [hother hid] at h ⊢
    exact (update_attr hremoved j).trans (hi.removed j id' h)
  · intro id' j
    by_cases hid : id' = id
    · subst hid
      simp [hi.done, hnew]
    · rw [hother hid]
      exact hi.done id' j
  · refine hi.live_update ?_ (fun id hid => .inl hid) ?_
    · intro id' h
      rw [hcall]
      exact .inl h
    · rw [hcall]
      exact nofun
  · exact hi.woken_update nofun

/-- Tokens that move stay with their block. -/
theorem RegistryInvariant.moved {place' : ℤ → Place}
    (hblock : ∀ id, (place' id).block = (place id).block) (i : ℕ) (call : RegistryCall)
    (henrolled : call.enrolled = (st.calls i).enrolled) :
    (∀ j block id, (update st.calls i call j).enrolled = some (block, id) →
      (place' id).block = some block) ∧ ∀ block id, (place' id).block = some block →
      ∃ j, (update st.calls i call j).enrolled = some (block, id) := by
  refine ⟨?_, ?_⟩
  · intro j block id h
    rw [update_attr henrolled] at h
    exact (hblock id).trans (hi.enrolled j block id h)
  · intro block id h
    obtain ⟨j, hj⟩ := hi.born block id ((hblock id).symm.trans h)
    exact ⟨j, (update_attr henrolled j).trans hj⟩

/-- A signal takes the tokens of its block over. -/
theorem RegistryInvariant.remove (hcall : st.calls i = .signaling block) :
    RegistryInvariant (fun id => (place id).remove block i)
      { st with
        registry := update st.registry block none
        calls := update st.calls i (signalBlock block (st.registry block)) } := by
  generalize hnext : signalBlock block (st.registry block) = call
  have hself : call.token = none ∧ call.enrolled = none ∧ call.pending = st.entry block ∧
      call.removed = some block ∧ call.cell = none ∧ ∀ id, call ≠ .woken id := by
    subst hnext
    simp only [RegistryState.entry]
    cases st.registry block <;> exact ⟨rfl, rfl, rfl, rfl, rfl, nofun⟩
  obtain ⟨htoken, henrolled, hpending, hremoved, hcell, hwoken⟩ := hself
  have hnone : ∀ id, (place id).signaler ≠ some i := by
    intro id h
    have hblock := hi.removed i id h
    rw [hcall] at hblock
    cases hplace : place id <;> simp_all [signaler, Place.block, RegistryCall.removed]
  have htoken' : ∀ id, call.token = some id →
      (st.calls i).token = some id ∨ st.nextId ≤ id ∧ id < st.nextId := by
    rw [htoken]
    exact nofun
  obtain ⟨hmoved, hborn⟩ := hi.moved (fun id => remove_block block i (place id)) i call
    (by rw [henrolled, hcall]; rfl)
  refine ⟨hi.fresh_update (Int.le_refl _) htoken', hi.distinct_update htoken', hmoved, hborn, ?_,
    ?_, ?_, ?_, ?_, ?_, ?_, ?_⟩
  · intro block' id
    have hentry := hi.entry block' id
    rw [Place.remove_eq_listed, ← hentry]
    simp only [RegistryState.entry]
    by_cases hblock : block' = block
    · simp [hblock]
    · simp [hblock]
  · intro block'
    have hnodup := hi.entry_nodup block'
    simp only [RegistryState.entry] at hnodup ⊢
    by_cases hblock : block' = block
    · simp [hblock]
    · simpa [hblock] using hnodup
  · intro j id
    simp only [Place.remove_eq_told]
    by_cases hij : j = i
    · subst hij
      rw [attr_self RegistryCall.pending, hpending, hi.entry]
      refine ⟨fun h => ⟨block, .inr ⟨rfl, rfl, h⟩⟩, ?_⟩
      rintro ⟨block', h | ⟨-, -, h⟩⟩
      · exact absurd (by rw [h]; rfl) (hnone id)
      · exact h
    · rw [attr_other RegistryCall.pending hij, hi.pending]
      simp [hij]
  · intro j
    by_cases hij : j = i
    · subst hij
      rw [attr_self RegistryCall.pending, hpending]
      exact hi.entry_nodup block
    · rw [attr_other RegistryCall.pending hij]
      exact hi.pending_nodup j
  · intro j id h
    show (update st.calls i call j).removed = _
    rw [remove_block]
    rcases Place.remove_signaler.mp h with hplace | ⟨rfl, hplace⟩
    · have hij : j ≠ i := by
        rintro rfl
        exact hnone id hplace
      rw [attr_other RegistryCall.removed hij]
      exact hi.removed j id hplace
    · rw [attr_self RegistryCall.removed, hremoved, hplace]
      rfl
  · intro id j
    simp only [Place.remove_eq_rung]
    exact hi.done id j
  · refine hi.live_update ?_ (fun id hid => .inl hid) ?_
    · rw [hcell]
      exact nofun
    · rw [hcall]
      exact nofun
  · exact hi.woken_update fun id h => absurd h (hwoken id)

/-- A signal marks a token done. -/
theorem RegistryInvariant.ring {n : ℕ} {ids : List ℤ}
    (hcall : st.calls i = .ringing block n id ids) :
    RegistryInvariant (update place id (.rung block i))
      { st with
        done := (id, i) :: st.done
        calls := update st.calls i (.telling block n ids) } := by
  have hmem : id ∈ (st.calls i).pending := by
    rw [hcall]
    exact mem_cons_self
  obtain ⟨hnot, hnodup⟩ : id ∉ ids ∧ ids.Nodup := by
    have hnodup := hi.pending_nodup i
    rw [hcall] at hnodup
    exact nodup_cons.mp hnodup
  obtain ⟨block', hplace⟩ := (hi.pending i id).mp hmem
  obtain rfl : block = block' := by
    have hblock := hi.removed i id (by rw [hplace]; rfl)
    rw [hcall, hplace] at hblock
    exact some.inj hblock
  have hself : update place id (.rung block i) id = .rung block i :=
    update_self ..
  have hother : ∀ {id'}, id' ≠ id → update place id (.rung block i) id' = place id' :=
    fun hne => update_of_ne hne _ _
  have htoken : ∀ id', (telling block n ids).token = some id' →
      (st.calls i).token = some id' ∨ st.nextId ≤ id' ∧ id' < st.nextId := nofun
  have hblock : ∀ id', (update place id (.rung block i) id').block = (place id').block := by
    intro id'
    by_cases hid : id' = id
    · subst hid
      rw [hself, hplace]
      rfl
    · rw [hother hid]
  have hremoved : (telling block n ids).removed = (st.calls i).removed := by
    rw [hcall]
    rfl
  have hdone : ∀ id', st.Done id' →
      Done { st with
        done := (id, i) :: st.done
        calls := update st.calls i (.telling block n ids) } id' :=
    fun id' ⟨j, hj⟩ => ⟨j, mem_cons_of_mem _ hj⟩
  obtain ⟨hmoved, hborn⟩ := hi.moved hblock i (.telling block n ids) (by rw [hcall]; rfl)
  refine ⟨hi.fresh_update (Int.le_refl _) htoken, hi.distinct_update htoken, hmoved, hborn, ?_,
    hi.entry_nodup, ?_, ?_, ?_, ?_, ?_, ?_⟩
  · intro block' id'
    by_cases hid : id' = id
    · subst hid
      have hentry := hi.entry block' id'
      rw [hplace] at hentry
      rw [hself]
      exact ⟨fun h => absurd (hentry.mp h) nofun, nofun⟩
    · rw [hother hid]
      exact hi.entry block' id'
  · intro j id'
    have hpending := hi.pending j id'
    by_cases hij : j = i
    · subst hij
      rw [attr_self RegistryCall.pending]
      rw [hcall] at hpending
      by_cases hid : id' = id
      · subst hid
        rw [hself]
        exact ⟨fun h => absurd h hnot, fun ⟨_, h⟩ => nomatch h⟩
      · rw [hother hid, ← hpending]
        simp [RegistryCall.pending, hid]
    · rw [attr_other RegistryCall.pending hij, hpending]
      by_cases hid : id' = id
      · subst hid
        simp [hplace, Ne.symm hij]
      · rw [hother hid]
  · intro j
    by_cases hij : j = i
    · subst hij
      rw [attr_self RegistryCall.pending]
      exact hnodup
    · rw [attr_other RegistryCall.pending hij]
      exact hi.pending_nodup j
  · intro j id' h
    rw [hblock]
    refine (update_attr hremoved j).trans (hi.removed j id' ?_)
    by_cases hid : id' = id
    · subst hid
      rw [hself] at h
      rw [hplace]
      exact h
    · rwa [hother hid] at h
  · intro id' j
    by_cases hid : id' = id
    · subst hid
      simp [hi.done, hplace, eq_comm]
    · simp [hid, hi.done]
  · intro j id' h
    have hsame : (telling block n ids).cell = (st.calls i).cell := by
      rw [hcall]
      rfl
    have hcell := (update_attr hsame j).symm.trans h
    rcases hi.live j id' hcell with hlive | hlive | ⟨k, hk⟩
    · exact .inl hlive
    · exact .inr (.inl (hdone id' hlive))
    · by_cases hki : k = i
      · subst hki
        rw [hcall] at hk
        obtain rfl := some.inj hk
        exact .inr (.inl ⟨k, mem_cons_self⟩)
      · exact .inr (.inr ⟨k, (attr_other rings hki).trans hk⟩)
  · have hwoken : ∀ id', telling block n ids = .woken id' → st.Done id' := nofun
    exact fun j id' h => hdone id' (hi.woken_update hwoken j id' h)

/-- A signal finds the cell of every token it tells. -/
theorem RegistryInvariant.mem_cells {n : ℕ} {ids : List ℤ}
    (hcall : st.calls i = .telling block n (id :: ids)) : id ∈ st.cells := by
  have hmem : id ∈ (st.calls i).pending := by
    rw [hcall]
    exact mem_cons_self
  obtain ⟨block', hplace⟩ := (hi.pending i id).mp hmem
  obtain ⟨j, hj⟩ := hi.born block' id (by rw [hplace]; rfl)
  have hcell : (st.calls j).cell = some id := by
    cases h : st.calls j <;> simp_all [RegistryCall.enrolled, RegistryCall.cell]
  rcases hi.live j id hcell with hlive | ⟨k, hk⟩ | ⟨k, hk⟩
  · exact hlive
  · obtain ⟨block'', hrung⟩ := (hi.done id k).mp hk
    rw [hplace] at hrung
    cases hrung
  · -- the call that rings the id is the one that tells it
    have hpending : id ∈ (st.calls k).pending := by
      cases h : st.calls k <;> simp_all [RegistryCall.rings, RegistryCall.pending]
    obtain ⟨block'', htold⟩ := (hi.pending k id).mp hpending
    rw [hplace] at htold
    cases htold
    rw [hcall] at hk
    cases hk

theorem RegistryInvariant.step (hs : RegistryStep a st st') :
    ∃ place', RegistryInvariant place' st' := by
  have hkeep : ∀ id ∈ st.cells, ∀ call : RegistryCall,
      id ∈ st.cells ∨ st.Done id ∨ call.rings = some id := fun id hid _ => .inl hid
  cases hs with
  | nextId hcall =>
    refine ⟨place, hi.quiet hcall (by omega) ?_ rfl rfl rfl nofun (hkeep · · _) nofun nofun⟩
    rintro id ⟨⟩
    exact .inr ⟨Int.le_refl _, by omega⟩
  | insertCell hcall =>
    refine ⟨place, hi.quiet hcall (Int.le_refl _) (fun _ h => .inl h) rfl rfl rfl ?_ ?_ nofun nofun⟩
    · rintro id ⟨⟩
      exact .inr mem_cons_self
    · intro id hid
      exact .inl (mem_cons_of_mem _ hid)
  | push hcall => exact ⟨_, hi.push hcall⟩
  | remove hcall => exact ⟨_, hi.remove hcall⟩
  | @retire _ _ _ _ id _ hcall hcell =>
    refine ⟨place, hi.quiet hcall (Int.le_refl _) nofun rfl rfl rfl nofun ?_ nofun nofun⟩
    intro id' hid'
    by_cases hid : id' = id
    · exact .inr (.inr (congrArg some hid.symm))
    · exact .inl (mem_filter.mpr ⟨hid', by simpa using hid⟩)
  | skip hcall hcell => exact absurd (hi.mem_cells hcall) hcell
  | ring hcall => exact ⟨_, hi.ring hcall⟩
  | finish hcall | lookUp hcall hcell | miss hcall hcell =>
    exact ⟨place, hi.quiet hcall (Int.le_refl _) nofun rfl rfl rfl nofun (hkeep · · _) nofun nofun⟩
  | @wake _ _ j id hcall hdone =>
    refine ⟨place, hi.quiet hcall (Int.le_refl _) nofun rfl rfl rfl nofun (hkeep · · _) nofun ?_⟩
    rintro _ ⟨⟩
    exact ⟨j, hdone⟩
  | @forget _ i id hcall =>
    refine ⟨place, hi.quiet hcall (Int.le_refl _) nofun rfl rfl rfl nofun ?_ nofun nofun⟩
    intro id' hid'
    by_cases hid : id' = id
    · exact .inr (.inl (hid ▸ hi.woken i id hcall))
    · exact .inl (mem_filter.mpr ⟨hid', by simpa using hid⟩)

end

theorem RegistryInvariant.of_run {requests : ℕ → Option RegistryRequest}
    (h : Reaches RegistryStep anyAction (.start requests) st) :
    ∃ place, RegistryInvariant place st :=
  h.invariant (I := fun st => ∃ place, RegistryInvariant place st)
    (fun ⟨_, hi⟩ _ hs => hi.step hs) ⟨_, .start requests⟩

theorem registryStep_signals (hs : RegistryStep a st st') (j : ℕ) :
    (st'.calls j).signals = (st.calls j).signals := by
  cases hs with
  | remove hcall =>
    refine update_attr ?_ j
    rw [hcall]
    unfold signalBlock
    split <;> rfl
  | _ hcall =>
    refine update_attr ?_ j
    rw [hcall]
    rfl

theorem signals_of_run {requests : ℕ → Option RegistryRequest}
    (h : Reaches RegistryStep anyAction (.start requests) st) (j : ℕ) :
    (st.calls j).signals = (RegistryRequest.call (requests j)).signals :=
  h.invariant (I := fun st => (st.calls j).signals = (RegistryRequest.call (requests j)).signals)
    (fun hi _ hs => (registryStep_signals hs j).trans hi) rfl

/-- What a step does to the entries: a registration pushes, a signal removes. -/
theorem registryStep_entry (hs : RegistryStep a st st') :
    (∃ i block id, a = .push i ∧ st.calls i = .celled block id ∧ st'.entry = update st.entry block
      (st.entry block ++ [id]) ∧ ∀ j, (st'.calls j).removed = (st.calls j).removed) ∨ (∃ i block,
      st.calls i = .signaling block ∧ st'.entry = update st.entry block [] ∧ (st'.calls i).removed =
      some block ∧ ∀ j, j ≠ i → (st'.calls j).removed = (st.calls j).removed) ∨
      st'.entry = st.entry ∧ ∀ j, (st'.calls j).removed = (st.calls j).removed := by
  cases hs with
  | @push _ i block id hcall =>
    refine .inl ⟨i, block, id, rfl, hcall, ?_, update_attr (by rw [hcall]; rfl)⟩
    funext block'
    by_cases hblock : block' = block
    · subst hblock
      simp [entry]
    · simp [entry, hblock]
  | @remove _ i block hcall =>
    refine .inr (.inl ⟨i, block, hcall, ?_, ?_, fun j hij => attr_other _ hij⟩)
    · funext block'
      by_cases hblock : block' = block
      · subst hblock
        simp [entry]
      · simp [entry, hblock]
    · refine (attr_self removed _).trans ?_
      unfold signalBlock
      split <;> rfl
  | _ hcall => exact .inr (.inr ⟨rfl, update_attr (by rw [hcall]; rfl)⟩)

theorem RegistryCall.enrolled_eq :
    call.enrolled = some (block, id) ↔ call = .registered block id := by
  cases call <;> simp [enrolled]

theorem RegistryCall.removed_of_settled (hsettled : call.Settled) (h : call.signals = some block) :
    call.removed = some block := by
  cases call with
  | signaled block' n => exact h
  | signaling block' => exact hsettled.elim
  | telling block' n ids => exact h
  | ringing block' n id ids => exact h
  | _ => cases h

/-- A token in the entry of a block whose signal has gone by. -/
def RegistryState.Stranded (block : BlockKey) (st : RegistryState) : Prop :=
  st.entry block ≠ [] ∧ ∃ j, (st.calls j).removed = some block

/-- A block is signaled by one call at most. -/
def SignaledOnce (block : BlockKey) (st : RegistryState) : Prop :=
  ∀ i j, (st.calls i).signals = some block → (st.calls j).signals = some block → i = j

theorem RegistryCall.signals_of_removed (h : call.removed = some block) :
    call.signals = some block := by
  cases call <;> first | exact h | cases h

/-- A stranded token stays stranded, as no other call will remove the entry. -/
theorem RegistryState.Stranded.step (h : st.Stranded block) (hone : SignaledOnce block st)
    (hs : RegistryStep a st st') : st'.Stranded block := by
  obtain ⟨hne, j, hj⟩ := h
  rcases registryStep_entry hs with ⟨i, block', id, -, -, hentry, hremoved⟩ |
    ⟨i, block', hcall, hentry, -, hremoved⟩ | ⟨hentry, hremoved⟩
  · refine ⟨?_, j, (hremoved j).trans hj⟩
    rw [hentry, update_apply]
    split
    · simp
    · exact hne
  · have hij : j ≠ i := by
      rintro rfl
      rw [hcall] at hj
      cases hj
    have hblock : block ≠ block' := by
      rintro rfl
      exact hij (hone j i (signals_of_removed hj) (by rw [hcall]; rfl))
    refine ⟨?_, j, (hremoved j hij).trans hj⟩
    rwa [hentry, update_of_ne hblock]
  · exact ⟨by rwa [hentry], j, (hremoved j).trans hj⟩

/-- Pushes in time leave nothing in the entry behind its signal. -/
theorem not_stranded_step (h : ¬ st.Stranded block) (hok : PushedInTime block st a)
    (hs : RegistryStep a st st') : ¬ st'.Stranded block := by
  rintro ⟨hne, j, hj⟩
  rcases registryStep_entry hs with ⟨i, block', id, rfl, hcall, hentry, hremoved⟩ |
    ⟨i, block', hcall, hentry, hself, hremoved⟩ | ⟨hentry, hremoved⟩
  · rw [hremoved] at hj
    by_cases hblock : block = block'
    · subst hblock
      exact hok i id rfl hcall j hj
    · rw [hentry, update_of_ne hblock] at hne
      exact h ⟨hne, j, hj⟩
  · by_cases hblock : block = block'
    · subst hblock
      rw [hentry, update_self] at hne
      exact hne rfl
    · rw [hentry, update_of_ne hblock] at hne
      by_cases hij : j = i
      · rw [hij, hself] at hj
        exact hblock (some.inj hj).symm
      · rw [hremoved j hij] at hj
        exact h ⟨hne, j, hj⟩
  · rw [hentry] at hne
    rw [hremoved] at hj
    exact h ⟨hne, j, hj⟩

variable {requests : ℕ → Option RegistryRequest}

theorem pushedInTime_of_ne (h : ∀ i, a ≠ .push i) : PushedInTime block st a :=
  fun i _ ha => absurd ha (h i)

theorem signaledOnce_of_run (hone : ∃! i, requests i = some (.signalBlock block))
    (h : Reaches RegistryStep anyAction (.start requests) st) : SignaledOnce block st := by
  have hrequest : ∀ i, (st.calls i).signals = some block →
      requests i = some (.signalBlock block) := by
    intro i hi
    rw [signals_of_run h i] at hi
    rcases hr : requests i with _ | _ | block' | _ <;> rw [hr] at hi <;> cases hi
    rfl
  intro i j hi hj
  exact hone.unique (hrequest i hi) (hrequest j hj)

/-- A run whose pushes for a block are all in time, or else it has stranded a token. -/
theorem in_time_or_stranded (hone : ∃! i, requests i = some (.signalBlock block))
    (h : Reaches RegistryStep anyAction (.start requests) st) :
    Reaches RegistryStep (PushedInTime block) (.start requests) st ∨ st.Stranded block := by
  induction h with
  | refl => exact .inl (.refl _)
  | @tail st st' h hstep ih =>
    obtain ⟨a, -, hs⟩ := hstep
    rcases ih with ih | ih
    · by_cases hok : PushedInTime block st a
      · exact .inl (ih.next hok hs)
      · simp only [PushedInTime, not_forall, not_not] at hok
        obtain ⟨i, id, rfl, hcall, j, hj⟩ := hok
        refine .inr ⟨?_, j, ?_⟩
        · cases hs with
          | push hcall' =>
            obtain ⟨rfl, rfl⟩ := celled.inj (hcall.symm.trans hcall')
            simp [entry]
        · cases hs with
          | push hcall' => exact (update_attr (by rw [hcall']; rfl) j).trans hj
    · exact .inr (ih.step (signaledOnce_of_run hone h) hs)

theorem not_stranded_of_run (h : Reaches RegistryStep (PushedInTime block) (.start requests) st) :
    ¬ st.Stranded block :=
  h.invariant (I := fun st => ¬ st.Stranded block) (fun hi hok hs => not_stranded_step hi hok hs)
    fun hs => hs.1 rfl

/-- When the calls are over, a token is with the entry of its block or done. -/
theorem RegistryInvariant.final (hi : RegistryInvariant place st)
    (hfinal : ∀ i, (st.calls i).Settled) (hcall : st.calls i = .registered block id) :
    id ∈ st.entry block ∨ st.Done id := by
  have hblock := hi.enrolled i block id (by rw [hcall]; rfl)
  cases hplace : place id with
  | unregistered =>
    rw [hplace] at hblock
    cases hblock
  | listed block' =>
    rw [hplace] at hblock
    obtain rfl := some.inj hblock
    exact .inl ((hi.entry _ id).mpr hplace)
  | told block' j =>
    have hmem := (hi.pending j id).mpr ⟨block', hplace⟩
    have hsettled := hfinal j
    cases h : st.calls j <;> simp_all [RegistryCall.pending, RegistryCall.Settled]
  | rung block' j => exact .inr ⟨j, (hi.done id j).mpr ⟨block', hplace⟩⟩

/-- The tokens of a block are all signaled exactly in the runs that push them in time, and in every
run its signal marks none but its own. -/
theorem ack_waiters_signaled (hone : ∃! i, requests i = some (.signalBlock block))
    (h : Reaches RegistryStep anyAction (.start requests) st) :
    ((∀ i, (st.calls i).Settled) →
      ((∀ i id, st.calls i = .registered block id → st.Done id) ↔
        Reaches RegistryStep (PushedInTime block) (.start requests) st)) ∧
    ∀ id j, (id, j) ∈ st.done → (st.calls j).signals = some block →
      ∀ i block', st.calls i = .registered block' id → block' = block := by
  obtain ⟨place, hi⟩ := RegistryInvariant.of_run h
  refine ⟨fun hfinal => ⟨fun hdone => ?_, fun hrun i id hcall => ?_⟩, ?_⟩
  · refine (in_time_or_stranded hone h).resolve_right ?_
    rintro ⟨hne, -⟩
    obtain ⟨id, hid⟩ := exists_mem_of_ne_nil _ hne
    have hplace := (hi.entry block id).mp hid
    obtain ⟨i, hcall⟩ := hi.born block id (by rw [hplace]; rfl)
    obtain ⟨j, hj⟩ := hdone i id (enrolled_eq.mp hcall)
    obtain ⟨block', hrung⟩ := (hi.done id j).mp hj
    rw [hplace] at hrung
    cases hrung
  · refine (hi.final hfinal hcall).resolve_left fun hmem => ?_
    obtain ⟨j, hj⟩ := hone.exists
    have hsignals : (st.calls j).signals = some block := by
      rw [signals_of_run h j, hj]
      rfl
    exact not_stranded_of_run hrun ⟨ne_nil_of_mem hmem, j, removed_of_settled (hfinal j) hsignals⟩
  · intro id j hmem hj i block' hcall
    obtain ⟨block'', hplace⟩ := (hi.done id j).mp hmem
    have hremoved := hi.removed j id (by rw [hplace]; rfl)
    have henrolled := hi.enrolled i block' id (enrolled_eq.mpr hcall)
    have hsignals := signals_of_removed (hremoved.trans henrolled)
    exact some.inj (hsignals.symm.trans hj)

/-- One registration for a block and the signal of the block. -/
def oneWaiter : ℕ → Option RegistryRequest
  | 0 => some (.register ("/d", 1))
  | 1 => some (.signalBlock ("/d", 1))
  | _ => none

theorem oneWaiter_once : ∃! i, oneWaiter i = some (.signalBlock ("/d", 1)) := by
  refine ⟨1, rfl, ?_⟩
  intro i hi
  match i with
  | 0 => cases hi
  | 1 => rfl
  | _ + 2 => cases hi

theorem oneWaiter_settled (h0 : (st.calls 0).Settled) (h1 : (st.calls 1).Settled)
    (h : ∀ i, st.calls (i + 2) = .idle) (i : ℕ) : (st.calls i).Settled := by
  match i with
  | 0 => exact h0
  | 1 => exact h1
  | i + 2 => rw [h i]; trivial

/-- A registration that comes after the signal of its block waits for ever. -/
theorem ack_waiter_lost : ¬ ∀ requests block st, (∃! i, requests i = some (.signalBlock block)) →
    Reaches RegistryStep anyAction (.start requests) st → (∀ i, (st.calls i).Settled) →
    ∀ i id, st.calls i = .registered block id → st.Done id := by
  intro hclaim
  have hstart : Reaches RegistryStep anyAction (.start oneWaiter) _ := .refl _
  have hremoved := hstart.next trivial (.remove (i := 1) rfl)
  have hminted := hremoved.next trivial (.nextId (i := 0) rfl)
  have hcelled := hminted.next trivial (insertCell (i := 0) rfl)
  have hpushed := hcelled.next trivial (push (i := 0) rfl)
  obtain ⟨j, hj⟩ := hclaim _ _ _ oneWaiter_once hpushed
    (oneWaiter_settled trivial trivial fun _ => rfl) 0 1 rfl
  cases hj

/-- A registration before the signal is signaled. -/
theorem ack_waiters_signaled_run : ∃ st : RegistryState,
    Reaches RegistryStep anyAction (.start oneWaiter) st ∧
    st.calls 0 = .registered ("/d", 1) 1 ∧ st.Done 1 := by
  have hstart : Reaches RegistryStep (PushedInTime ("/d", 1)) (.start oneWaiter) _ := .refl _
  have hminted := hstart.next (pushedInTime_of_ne (a := .nextId 0) nofun) (.nextId (i := 0) rfl)
  have hcelled := hminted.next (pushedInTime_of_ne (a := .insertCell 0) nofun)
      (insertCell (i := 0) rfl)
  have hpushed := hcelled.next ?_ (push (i := 0) rfl)
  · have hremoved := hpushed.next (pushedInTime_of_ne (a := .remove 1) nofun) (.remove (i := 1) rfl)
    have hretired := hremoved.next (pushedInTime_of_ne (a := .retire 1) nofun)
      (retire (i := 1) rfl mem_cons_self)
    have hrung := hretired.next (pushedInTime_of_ne (a := .ring 1) nofun) (ring (i := 1) rfl)
    have hover := hrung.next (pushedInTime_of_ne (a := .finish 1) nofun) (finish (i := 1) rfl)
    have hany := hover.mono fun _ => trivial
    exact ⟨_, hany, rfl, ((ack_waiters_signaled oneWaiter_once hany).1
      (oneWaiter_settled trivial trivial fun _ => rfl)).mpr hover 0 1 rfl⟩
  · rintro i id hi hcall j hj
    match j with
    | 0 => cases hj
    | 1 => cases hj
    | _ + 2 => cases hj

end AxisBridge
