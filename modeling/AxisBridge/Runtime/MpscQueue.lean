import AxisBridge.Lib.Reach
import Mathlib.Data.List.Nodup
import Mathlib.Data.List.Perm.Basic

/-! The intrusive queue: producers swap the head and then link it, one consumer pops and parks. -/
namespace AxisBridge
open Function List Option
namespace Mpsc

inductive PopResult (α : Type*)
  | value (v : α)
  | empty
  | inconsistent

/-- Where a call of `push` is; a node is named by the number of nodes allocated before it. -/
inductive Push (α : Type*)
  | ready (v : α)
  | built (node : ℕ) (v : α)
  | swapped (node prev : ℕ)
  | linked
  | claiming
  | unparking
  | done

/-- What runs `pop`: a caller of its own, or the first or the second try of a blocking pop, which
has a deadline when it is `timed`. -/
inductive Caller
  | pop
  | first (timed : Bool)
  | again (timed : Bool)

/-- Where the consumer is. -/
inductive Consumer (α : Type*)
  | idle
  | enter (who : Caller)
  | take (who : Caller) (next : ℕ)
  | free (who : Caller) (old : ℕ) (v : α)
  | check (who : Caller)
  | publish (timed : Bool)
  | park (timed : Bool)
  | parked (timed : Bool)
  | reclaim (timed : Bool) (answer : Option α)
  | panicked

/-- What the consumer does after a `pop`. -/
def Caller.resume {α : Type*} : Caller → PopResult α → Consumer α
  | .pop, _ => .idle
  | .first _, .value _ => .idle
  | .first timed, .inconsistent => .enter (.first timed)
  | .first timed, .empty => .publish timed
  | .again timed, .value v => .reclaim timed (some v)
  | .again timed, .inconsistent => .reclaim timed none
  | .again timed, .empty => .park timed

/-- The queue and its threads: `waiter` says that a handle of the consumer's thread is in the slot,
`token` that the thread has a park token. `swapped` and `popped` have the nodes and their values in
the order they went into `head` and came out of `pop`, `stale` the nodes touched after they were
freed. -/
structure MpscState (α : Type*) where
  next : ℕ → Option ℕ
  value : ℕ → Option α
  allocated : ℕ
  head : ℕ
  tail : ℕ
  waiter : Bool
  token : Bool
  pushes : ℕ → Push α
  consumer : Consumer α
  swapped : List (ℕ × α)
  popped : List (ℕ × α)
  freed : List ℕ
  stale : List ℕ

variable {α : Type*}

/-- `Queue::new`, with the calls of `push` to come; node 0 is the stub. -/
def MpscState.start (requests : ℕ → α) : MpscState α where
  next _ := none
  value _ := none
  allocated := 1
  head := 0
  tail := 0
  waiter := false
  token := false
  pushes i := .ready (requests i)
  consumer := .idle
  swapped := []
  popped := []
  freed := []
  stale := []

/-- The nodes touched after they were freed, when `node` is touched. -/
def MpscState.touch (st : MpscState α) (node : ℕ) : List ℕ :=
  st.stale ++ if node ∈ st.freed then [node] else []

inductive MpscAction (α : Type*)
  | push (i : ℕ)
  | consume
  | answer (r : PopResult α)

/-- One access to the shared state. -/
inductive MpscStep : MpscAction α → MpscState α → MpscState α → Prop
  | build {st : MpscState α} {i : ℕ} {v : α} (hpush : st.pushes i = .ready v) :
      MpscStep (.push i) st
        { st with
          next := update st.next st.allocated none
          value := update st.value st.allocated (some v)
          allocated := st.allocated + 1
          pushes := update st.pushes i (.built st.allocated v) }
  | swap {st : MpscState α} {i node : ℕ} {v : α} (hpush : st.pushes i = .built node v) :
      MpscStep (.push i) st
        { st with
          head := node
          pushes := update st.pushes i (.swapped node st.head)
          swapped := st.swapped ++ [(node, v)] }
  | link {st : MpscState α} {i node prev : ℕ} (hpush : st.pushes i = .swapped node prev) :
      MpscStep (.push i) st
        { st with
          next := update st.next prev (some node)
          pushes := update st.pushes i .linked
          stale := st.touch prev }
  | loadWaiter {st : MpscState α} {i : ℕ} (hpush : st.pushes i = .linked) :
      MpscStep (.push i) st
        { st with
          pushes := update st.pushes i (if st.waiter then .claiming else .done) }
  | claim {st : MpscState α} {i : ℕ} (hpush : st.pushes i = .claiming) :
      MpscStep (.push i) st
        { st with
          waiter := false
          pushes := update st.pushes i (if st.waiter then .unparking else .done) }
  | unpark {st : MpscState α} {i : ℕ} (hpush : st.pushes i = .unparking) :
      MpscStep (.push i) st
        { st with
          token := true
          pushes := update st.pushes i .done }
  | pop {st : MpscState α} (hidle : st.consumer = .idle) :
      MpscStep .consume st { st with consumer := .enter .pop }
  | popBlocking {st : MpscState α} {timed : Bool} (hidle : st.consumer = .idle) :
      MpscStep .consume st { st with consumer := .enter (.first timed) }
  | loadNext {st : MpscState α} {who : Caller} (henter : st.consumer = .enter who) :
      MpscStep .consume st
        { st with
          consumer := match st.next st.tail with
            | some node => .take who node
            | none => .check who
          stale := st.touch st.tail }
  | take {st : MpscState α} {who : Caller} {node : ℕ} {v : α} (htake : st.consumer = .take who node)
      (hvalue : st.value node = some v) :
      MpscStep .consume st
        { st with
          tail := node
          value := update st.value node none
          consumer := .free who st.tail v
          popped := st.popped ++ [(node, v)]
          stale := st.touch node }
  | takeNothing {st : MpscState α} {who : Caller} {node : ℕ} (htake : st.consumer = .take who node)
      (hvalue : st.value node = none) :
      MpscStep .consume st
        { st with tail := node, consumer := .panicked, stale := st.touch node }
  | free {st : MpscState α} {who : Caller} {old : ℕ} {v : α}
      (hfree : st.consumer = .free who old v) : MpscStep (.answer (.value v)) st
        { st with consumer := who.resume (.value v), freed := st.freed ++ [old] }
  | checkMoved {st : MpscState α} {who : Caller} (hcheck : st.consumer = .check who)
      (hhead : st.head ≠ st.tail) :
      MpscStep (.answer .inconsistent) st { st with consumer := who.resume .inconsistent }
  | checkSame {st : MpscState α} {who : Caller} (hcheck : st.consumer = .check who)
      (hhead : st.head = st.tail) :
      MpscStep (.answer .empty) st { st with consumer := who.resume .empty }
  | expire {st : MpscState α} (hpublish : st.consumer = .publish true) :
      MpscStep .consume st { st with consumer := .idle }
  | publish {st : MpscState α} {timed : Bool} (hpublish : st.consumer = .publish timed) :
      MpscStep .consume st { st with waiter := true, consumer := .enter (.again timed) }
  | park {st : MpscState α} {timed : Bool} (hpark : st.consumer = .park timed)
      (htoken : st.token = false) :
      MpscStep .consume st { st with consumer := .parked timed }
  | parkToken {st : MpscState α} {timed : Bool} (hpark : st.consumer = .park timed)
      (htoken : st.token = true) :
      MpscStep .consume st { st with token := false, consumer := .reclaim timed none }
  | wake {st : MpscState α} {timed : Bool} (hpark : st.consumer = .parked timed)
      (htoken : st.token = true) :
      MpscStep .consume st { st with token := false, consumer := .reclaim timed none }
  -- `park` may return for no reason, and `park_timeout` at the deadline
  | wakeEarly {st : MpscState α} {timed : Bool} (hpark : st.consumer = .parked timed) :
      MpscStep .consume st { st with consumer := .reclaim timed none }
  | reclaim {st : MpscState α} {timed : Bool} {answer : Option α}
      (hreclaim : st.consumer = .reclaim timed answer) :
      MpscStep .consume st
        { st with
          waiter := false
          consumer := if answer.isSome then .idle else .enter (.first timed) }

/-- The loop of `Drop`: the nodes it frees, from `cur` on. -/
def dropNodes (next : ℕ → Option ℕ) : ℕ → Option ℕ → Option (List ℕ)
  | _, none => some []
  | 0, some _ => none
  | fuel + 1, some cur => (dropNodes next fuel (next cur)).map (cur :: ·)

/-- No call is in progress. -/
def Quiescent (st : MpscState α) : Prop :=
  (∀ i, (∃ v, st.pushes i = .ready v) ∨ st.pushes i = .done) ∧ st.consumer = .idle

/-- The node the consumer has passed and not freed yet. -/
def Consumer.passed : Consumer α → List ℕ
  | .free _ old _ => [old]
  | _ => []

/-- The nodes from the tail on, with the values `ahead` that are still to pop. -/
def live (tail : ℕ) (ahead : List (ℕ × α)) : List ℕ := tail :: ahead.map Prod.fst

/-- The stub and the nodes that went into `head`. -/
def chain (swapped : List (ℕ × α)) : List ℕ := 0 :: swapped.map Prod.fst

structure MpscInvariant (ahead : List (ℕ × α)) (st : MpscState α) : Prop where
  flow : st.popped ++ ahead = st.swapped
  cells : st.freed ++ (st.consumer.passed ++ live st.tail ahead) = chain st.swapped
  nodup : (chain st.swapped).Nodup
  head : (live st.tail ahead).getLast? = some st.head
  last : st.next st.head = none
  values : ∀ p ∈ ahead, st.value p.1 = some p.2
  links : ∀ j n m, (live st.tail ahead)[j]? = some n → (live st.tail ahead)[j + 1]? = some m →
    st.next n = some m ∨ st.next n = none ∧ ∃ i, st.pushes i = .swapped m n
  prev : ∀ i n m, st.pushes i = .swapped m n → st.next n = none ∧
    ∃ j, (live st.tail ahead)[j]? = some n ∧ (live st.tail ahead)[j + 1]? = some m
  built : ∀ i n v, st.pushes i = .built n v →
    n ∉ chain st.swapped ∧ n < st.allocated ∧ st.next n = none ∧ st.value n = some v ∧
      ∀ i' v', st.pushes i' = .built n v' → i' = i
  linker : ∀ i i' n m n', st.pushes i = .swapped m n → st.pushes i' = .swapped m n' → i = i'
  nodes : ∀ n, n < st.allocated → n ∈ chain st.swapped ∨ ∃ i v, st.pushes i = .built n v
  allocated : ∀ n ∈ chain st.swapped, n < st.allocated
  taking : ∀ who n, st.consumer = .take who n → st.next st.tail = some n
  running : st.consumer ≠ .panicked
  stale : st.stale = []

variable {st st' : MpscState α} {ahead : List (ℕ × α)} {i j n m node prev : ℕ} {v : α}
  {a : MpscAction α} {requests : ℕ → α}

theorem update_eq_iff {f : ℕ → Push α} {p q : Push α} (hold : f i ≠ q) (hnew : p ≠ q) (j : ℕ) :
    update f i p j = q ↔ f j = q := by
  by_cases hj : j = i
  · subst hj
    rw [update_self]
    exact iff_of_false hnew hold
  · rw [update_of_ne hj]

/-- A call at another place than the one that moves stays there. -/
theorem update_of_old {f : ℕ → Push α} {p q : Push α} (hold : f i ≠ q) (hj : f j = q) :
    update f i p j = q := by
  have hji : j ≠ i := by
    rintro rfl
    exact hold hj
  exact (update_of_ne hji ..).trans hj

/-- Two neighbours in a list that has got one more element. -/
theorem neighbours_append {l : List ℕ} (hn : (l ++ [node])[j]? = some n)
    (hm : (l ++ [node])[j + 1]? = some m) :
    l[j]? = some n ∧ l[j + 1]? = some m ∨ l.getLast? = some n ∧ m = node := by
  by_cases hj : j + 1 < l.length
  · rw [getElem?_append_left (Nat.lt_of_succ_lt hj)] at hn
    rw [getElem?_append_left hj] at hm
    exact .inl ⟨hn, hm⟩
  · have hbound := (List.getElem?_eq_some_iff.mp hm).1
    have hlast : l.length = j + 1 := by
      rw [length_append, length_singleton] at hbound
      omega
    rw [getElem?_append_left (by omega)] at hn
    rw [getElem?_append_right (by omega), hlast, Nat.sub_self] at hm
    refine .inr ⟨?_, (some.inj hm).symm⟩
    rwa [getLast?_eq_getElem?, hlast, Nat.add_sub_cancel]

theorem MpscInvariant.start (requests : ℕ → α) : MpscInvariant [] (.start requests) where
  flow := rfl
  cells := rfl
  nodup := nodup_singleton 0
  head := rfl
  last := rfl
  values := nofun
  links j n m _ hm := by simp [live] at hm
  prev := nofun
  built := nofun
  linker := nofun
  nodes n hn := .inl (by simpa [MpscState.start, chain, Nat.lt_one_iff] using hn)
  allocated n hn := by simpa [MpscState.start, chain, Nat.lt_one_iff] using hn
  taking := nofun
  running := nofun
  stale := rfl

theorem resume_spec (who : Caller) (r : PopResult α) : (who.resume r).passed = [] ∧
    (∀ who' n, who.resume r ≠ .take who' n) ∧ who.resume r ≠ .panicked := by
  cases who <;> cases r <;> simp [Caller.resume, Consumer.passed]

section
variable (hi : MpscInvariant ahead st)

include hi

variable {waiter token : Bool} {consumer : Consumer α} {who : Caller}

/-- A step that leaves the nodes, their order and the calls around `swap` and `link` as they are. -/
theorem MpscInvariant.quiet {pushes : ℕ → Push α}
    (hbuilt : ∀ i n v, pushes i = .built n v ↔ st.pushes i = .built n v)
    (hswapped : ∀ i m n, pushes i = .swapped m n ↔ st.pushes i = .swapped m n)
    (hpassed : consumer.passed = st.consumer.passed)
    (htaking : ∀ who n, consumer = .take who n → st.next st.tail = some n)
    (hrunning : consumer ≠ .panicked) :
    MpscInvariant ahead { st with waiter, token, pushes, consumer } where
  flow := hi.flow
  cells := by
    rw [hpassed]
    exact hi.cells
  nodup := hi.nodup
  head := hi.head
  last := hi.last
  values := hi.values
  links j n m hn hm := (hi.links j n m hn hm).imp_right
    (And.imp_right (Exists.imp fun i => (hswapped i m n).mpr))
  prev i n m hpush := hi.prev i n m ((hswapped i m n).mp hpush)
  built i n v hpush := by
    simp only [hbuilt] at hpush ⊢
    exact hi.built i n v hpush
  linker i i' n m n' hpush hpush' :=
    hi.linker i i' n m n' ((hswapped i m n).mp hpush) ((hswapped i' m n').mp hpush')
  nodes n hn := by
    simp only [hbuilt]
    exact hi.nodes n hn
  allocated := hi.allocated
  taking := htaking
  running := hrunning
  stale := hi.stale

theorem MpscInvariant.mem_chain (hn : n ∈ live st.tail ahead) : n ∈ chain st.swapped := by
  rw [← hi.cells]
  exact mem_append_right _ (mem_append_right _ hn)

theorem MpscInvariant.live_nodup : (live st.tail ahead).Nodup := by
  have hnodup := hi.nodup
  rw [← hi.cells] at hnodup
  exact (hnodup.of_append_right).of_append_right

/-- A node from the tail on is not freed. -/
theorem MpscInvariant.touch_eq (hn : n ∈ live st.tail ahead) : st.touch n = st.stale := by
  have hnodup := hi.nodup
  rw [← hi.cells] at hnodup
  have hfreed : n ∉ st.freed := fun hmem =>
    disjoint_of_nodup_append hnodup hmem (mem_append_right _ hn)
  rw [MpscState.touch, if_neg hfreed, append_nil]

theorem MpscInvariant.head_mem : st.head ∈ live st.tail ahead :=
  mem_of_getLast? hi.head

/-- The place of a node among those from the tail on. -/
theorem MpscInvariant.place_eq {k : ℕ} (hj : (live st.tail ahead)[j]? = some n)
    (hk : (live st.tail ahead)[k]? = some n) : j = k :=
  (List.getElem?_inj (List.getElem?_eq_some_iff.mp hj).1 hi.live_nodup).mp (hj.trans hk.symm)

theorem MpscInvariant.built_step (hpush : st.pushes i = .ready v) : MpscInvariant ahead
      { st with
        next := update st.next st.allocated none
        value := update st.value st.allocated (some v)
        allocated := st.allocated + 1
        pushes := update st.pushes i (.built st.allocated v) } := by
  have hlive : ∀ n ∈ live st.tail ahead, n ≠ st.allocated := fun n hn =>
    Nat.ne_of_lt (hi.allocated n (hi.mem_chain hn))
  have hnext : ∀ n, n ≠ st.allocated → update st.next st.allocated none n = st.next n :=
    fun n hn => update_of_ne hn ..
  have hvalue : ∀ n, n ≠ st.allocated → update st.value st.allocated (some v) n = st.value n :=
    fun n hn => update_of_ne hn ..
  have hswapped : ∀ j m n, update st.pushes i (.built st.allocated v) j = .swapped m n ↔
      st.pushes j = .swapped m n :=
    fun j m n => update_eq_iff (by rw [hpush]; nofun) (by nofun) j
  have hcases : ∀ j n w, update st.pushes i (.built st.allocated v) j = .built n w →
      j = i ∧ n = st.allocated ∧ w = v ∨ st.pushes j = .built n w ∧ n ≠ st.allocated := by
    intro j n w hj
    by_cases hji : j = i
    · subst hji
      rw [update_self] at hj
      cases hj
      exact .inl ⟨rfl, rfl, rfl⟩
    · rw [update_of_ne hji] at hj
      exact .inr ⟨hj, Nat.ne_of_lt (hi.built j n w hj).2.1⟩
  refine ⟨hi.flow, hi.cells, hi.nodup, hi.head, ?_, ?_, ?_, ?_, ?_, ?_, ?_, ?_, ?_, hi.running,
    hi.stale⟩
  · exact (hnext _ (hlive _ hi.head_mem)).trans hi.last
  · intro p hp
    have hmem : p.1 ∈ live st.tail ahead := mem_cons_of_mem _ (mem_map_of_mem hp)
    exact (hvalue _ (hlive _ hmem)).trans (hi.values p hp)
  · intro j n m hn hm
    have hlink := hi.links j n m hn hm
    rw [← hnext n (hlive n (mem_of_getElem? hn))] at hlink
    exact hlink.imp_right (And.imp_right (Exists.imp fun i' => (hswapped i' m n).mpr))
  · intro j n m hj
    obtain ⟨hnone, k, hk, hk'⟩ := hi.prev j n m ((hswapped j m n).mp hj)
    exact ⟨(hnext n (hlive n (mem_of_getElem? hk))).trans hnone, k, hk, hk'⟩
  · intro j n w hj
    rcases hcases j n w hj with ⟨rfl, rfl, rfl⟩ | ⟨hj, hne⟩
    · refine ⟨fun hmem => Nat.lt_irrefl _ (hi.allocated _ hmem), Nat.lt_succ_self _,
        update_self .., update_self .., fun j' w' hj' => ?_⟩
      rcases hcases j' _ w' hj' with ⟨rfl, -, -⟩ | ⟨-, hne⟩
      · rfl
      · exact absurd rfl hne
    · obtain ⟨hchain, hlt, hnone, hsome, huniq⟩ := hi.built j n w hj
      refine ⟨hchain, Nat.lt_succ_of_lt hlt, (hnext n hne).trans hnone, (hvalue n hne).trans hsome,
        fun j' w' hj' => ?_⟩
      rcases hcases j' n w' hj' with ⟨-, he, -⟩ | ⟨hj', -⟩
      · exact absurd he hne
      · exact huniq j' w' hj'
  · intro j j' n m n' hj hj'
    exact hi.linker j j' n m n' ((hswapped j m n).mp hj) ((hswapped j' m n').mp hj')
  · intro n hn
    by_cases hne : n = st.allocated
    · exact .inr ⟨i, v, by simp [hne]⟩
    · refine (hi.nodes n (Nat.lt_of_le_of_ne (Nat.le_of_lt_succ hn) hne)).imp_right ?_
      exact fun ⟨j, w, hj⟩ => ⟨j, w, update_of_old (by rw [hpush]; nofun) hj⟩
  · exact fun n hn => Nat.lt_succ_of_lt (hi.allocated n hn)
  · intro who n htake
    exact (hnext _ (hlive _ mem_cons_self)).trans (hi.taking who n htake)

/-- The node of a call goes behind the last one, which is not linked to it yet. -/
theorem MpscInvariant.swap_step (hpush : st.pushes i = .built node v) :
    MpscInvariant (ahead ++ [(node, v)])
      { st with
        head := node
        pushes := update st.pushes i (.swapped node st.head)
        swapped := st.swapped ++ [(node, v)] } := by
  obtain ⟨hfresh, hlt, hnone, hsome, huniq⟩ := hi.built i node v hpush
  have hlive : live st.tail (ahead ++ [(node, v)]) = live st.tail ahead ++ [node] := by
    simp [live]
  have hchain : chain (st.swapped ++ [(node, v)]) = chain st.swapped ++ [node] := by
    simp [chain]
  have hpos : 0 < (live st.tail ahead).length := Nat.zero_lt_succ _
  have hheadAt : (live st.tail ahead)[(live st.tail ahead).length - 1]? = some st.head := by
    rw [← getLast?_eq_getElem?, hi.head]
  have hcases : ∀ j m n, update st.pushes i (.swapped node st.head) j = .swapped m n →
      j = i ∧ m = node ∧ n = st.head ∨ j ≠ i ∧ st.pushes j = .swapped m n := by
    intro j m n hj
    by_cases hji : j = i
    · subst hji
      rw [update_self] at hj
      cases hj
      exact .inl ⟨rfl, rfl, rfl⟩
    · rw [update_of_ne hji] at hj
      exact .inr ⟨hji, hj⟩
  have hbuilt : ∀ j n w, update st.pushes i (.swapped node st.head) j = .built n w →
      st.pushes j = .built n w ∧ j ≠ i := by
    intro j n w hj
    by_cases hji : j = i
    · subst hji
      rw [update_self] at hj
      cases hj
    · exact ⟨(update_of_ne hji ..).symm.trans hj, hji⟩
  have hplaced : ∀ j m n, st.pushes j = .swapped m n → m ≠ node := by
    rintro j m n hj rfl
    obtain ⟨-, k, -, hk'⟩ := hi.prev j n m hj
    exact hfresh (hi.mem_chain (mem_of_getElem? hk'))
  refine ⟨?_, ?_, ?_, ?_, hnone, ?_, ?_, ?_, ?_, ?_, ?_, ?_, hi.taking, hi.running, hi.stale⟩
  · rw [← append_assoc, hi.flow]
  · rw [hchain, ← hi.cells, hlive]
    simp
  · rw [hchain, nodup_append]
    exact ⟨hi.nodup, nodup_singleton node, fun n hn n' hn' he => hfresh
      (mem_singleton.mp hn' ▸ he ▸ hn)⟩
  · rw [hlive, getLast?_append_of_ne_nil _ (cons_ne_nil _ _)]
    rfl
  · intro p hp
    rcases mem_append.mp hp with hp | hp
    · exact hi.values p hp
    · rw [mem_singleton.mp hp]
      exact hsome
  · intro j n m hn hm
    rw [hlive] at hn hm
    rcases neighbours_append hn hm with ⟨hn, hm⟩ | ⟨hlast, rfl⟩
    · refine (hi.links j n m hn hm).imp_right (And.imp_right ?_)
      exact fun ⟨i', hi'⟩ => ⟨i', update_of_old (by rw [hpush]; nofun) hi'⟩
    · obtain rfl : st.head = n := some.inj (hi.head.symm.trans hlast)
      exact .inr ⟨hi.last, i, update_self ..⟩
  · intro j n m hj
    rcases hcases j m n hj with ⟨-, rfl, rfl⟩ | ⟨-, hold⟩
    · refine ⟨hi.last, (live st.tail ahead).length - 1, ?_, ?_⟩
      · rw [hlive, getElem?_append_left (by omega), hheadAt]
      · rw [hlive, Nat.sub_add_cancel hpos, getElem?_append_right (Nat.le_refl _), Nat.sub_self]
        rfl
    · obtain ⟨hnone', k, hk, hk'⟩ := hi.prev j n m hold
      refine ⟨hnone', k, ?_, ?_⟩
      · rw [hlive, List.getElem?_append_left (List.getElem?_eq_some_iff.mp hk).1, hk]
      · rw [hlive, List.getElem?_append_left (List.getElem?_eq_some_iff.mp hk').1, hk']
  · intro j n w hj
    obtain ⟨hold, hji⟩ := hbuilt j n w hj
    obtain ⟨hchain', hlt', hnone', hsome', huniq'⟩ := hi.built j n w hold
    refine ⟨?_, hlt', hnone', hsome', fun j' w' hj' => huniq' j' w' (hbuilt j' n w' hj').1⟩
    rw [hchain, mem_append, mem_singleton]
    rintro (hmem | rfl)
    · exact hchain' hmem
    · exact hji (huniq j w hold)
  · intro j j' n m n' hj hj'
    rcases hcases j m n hj with ⟨rfl, hm, -⟩ | ⟨-, hold⟩
    · rcases hcases j' m n' hj' with ⟨rfl, -, -⟩ | ⟨-, hold'⟩
      · rfl
      · exact absurd hm (hplaced j' m n' hold')
    · rcases hcases j' m n' hj' with ⟨-, hm, -⟩ | ⟨-, hold'⟩
      · exact absurd hm (hplaced j m n hold)
      · exact hi.linker j j' n m n' hold hold'
  · intro n hn
    rw [hchain, mem_append, mem_singleton]
    rcases hi.nodes n hn with hmem | ⟨j, w, hj⟩
    · exact .inl (.inl hmem)
    · by_cases hji : j = i
      · subst hji
        rw [hpush] at hj
        cases hj
        exact .inl (.inr rfl)
      · exact .inr ⟨j, w, (update_of_ne hji ..).trans hj⟩
  · intro n hn
    rw [hchain, mem_append, mem_singleton] at hn
    rcases hn with hn | rfl
    · exact hi.allocated n hn
    · exact hlt

theorem MpscInvariant.link_step (hpush : st.pushes i = .swapped node prev) : MpscInvariant ahead
      { st with
        next := update st.next prev (some node)
        pushes := update st.pushes i .linked
        stale := st.touch prev } := by
  obtain ⟨hnone, k, hk, hk'⟩ := hi.prev i prev node hpush
  have hmem : prev ∈ live st.tail ahead := mem_of_getElem? hk
  have hnext : ∀ n, n ≠ prev → update st.next prev (some node) n = st.next n :=
    fun n hn => update_of_ne hn ..
  have hbuilt : ∀ j n w, update st.pushes i .linked j = .built n w ↔ st.pushes j = .built n w :=
    fun j n w => update_eq_iff (by rw [hpush]; nofun) (by nofun) j
  have hswapped : ∀ j m n, update st.pushes i .linked j = .swapped m n →
      st.pushes j = .swapped m n ∧ n ≠ prev := by
    intro j m n hj
    have hji : j ≠ i := by
      rintro rfl
      rw [update_self] at hj
      cases hj
    rw [update_of_ne hji] at hj
    refine ⟨hj, ?_⟩
    rintro rfl
    -- only one node follows `n`
    obtain ⟨-, l, hl, hl'⟩ := hi.prev j n m hj
    rw [hi.place_eq hl hk, hk', some.injEq] at hl'
    subst hl'
    exact hji (hi.linker j i n node n hj hpush)
  have hhead : st.head ≠ prev := by
    rintro he
    have hlast : (live st.tail ahead)[(live st.tail ahead).length - 1]? = some prev := by
      rw [← getLast?_eq_getElem?, hi.head, he]
    have hplace := hi.place_eq hk hlast
    have hbound := (List.getElem?_eq_some_iff.mp hk').1
    omega
  refine ⟨hi.flow, hi.cells, hi.nodup, hi.head, (hnext _ hhead).trans hi.last, hi.values, ?_, ?_,
    ?_, ?_, ?_, hi.allocated, ?_, hi.running, (hi.touch_eq hmem).trans hi.stale⟩
  · intro j n m hn hm
    by_cases hne : n = prev
    · subst hne
      rw [hi.place_eq hn hk, hk', some.injEq] at hm
      subst hm
      exact .inl (update_self ..)
    · have hlink := hi.links j n m hn hm
      rw [← hnext n hne] at hlink
      have hother : st.pushes i ≠ .swapped m n := by
        rw [hpush]
        rintro ⟨⟩
        exact hne rfl
      exact hlink.imp_right (And.imp_right fun ⟨i', hi'⟩ => ⟨i', update_of_old hother hi'⟩)
  · intro j n m hj
    obtain ⟨hold, hne⟩ := hswapped j m n hj
    obtain ⟨hnone', l, hl⟩ := hi.prev j n m hold
    exact ⟨(hnext n hne).trans hnone', l, hl⟩
  · intro j n w hj
    obtain ⟨hchain, hlt, hnone', hsome, huniq⟩ := hi.built j n w ((hbuilt j n w).mp hj)
    have hne : n ≠ prev := fun he => hchain (he ▸ hi.mem_chain hmem)
    exact ⟨hchain, hlt, (hnext n hne).trans hnone', hsome,
      fun j' w' hj' => huniq j' w' ((hbuilt j' n w').mp hj')⟩
  · intro j j' n m n' hj hj'
    exact hi.linker j j' n m n' (hswapped j m n hj).1 (hswapped j' m n' hj').1
  · intro n hn
    exact (hi.nodes n hn).imp_right fun ⟨j, w, hj⟩ => ⟨j, w, (hbuilt j n w).mpr hj⟩
  · intro who n htake
    have hsome := hi.taking who n htake
    have hne : st.tail ≠ prev := by
      rintro he
      rw [he, hnone] at hsome
      cases hsome
    exact (hnext _ hne).trans hsome

/-- The node the consumer takes is the next of those ahead, with its value in it. -/
theorem MpscInvariant.taken (htake : st.consumer = .take who node) :
    ∃ w rest, ahead = (node, w) :: rest ∧ st.value node = some w := by
  have hnext := hi.taking who node htake
  cases hahead : ahead with
  | nil =>
    have hhead := hi.head
    rw [hahead] at hhead
    have htail : st.tail = st.head := some.inj hhead
    rw [htail, hi.last] at hnext
    cases hnext
  | cons p rest =>
    obtain ⟨m, w⟩ := p
    have hlink := hi.links 0 st.tail m rfl (by rw [hahead]; rfl)
    rw [hnext] at hlink
    simp only [some.injEq, reduceCtorEq, false_and, or_false] at hlink
    subst hlink
    exact ⟨w, rest, rfl, hi.values (node, w) (by simp [hahead])⟩

theorem MpscInvariant.take_step (htake : st.consumer = .take who node)
    (hvalue : st.value node = some v) :
    ∃ rest, MpscInvariant rest
      { st with
        tail := node
        value := update st.value node none
        consumer := .free who st.tail v
        popped := st.popped ++ [(node, v)]
        stale := st.touch node } := by
  obtain ⟨w, rest, hahead, hw⟩ := hi.taken htake
  obtain rfl : w = v := some.inj (hw.symm.trans hvalue)
  have hlive : live st.tail ahead = st.tail :: live node rest := by
    rw [hahead]
    rfl
  have hmem : node ∈ live st.tail ahead := by
    rw [hlive]
    exact mem_cons_of_mem _ mem_cons_self
  have hnodup := hi.live_nodup
  rw [hlive] at hnodup
  have hnext := hi.taking who node htake
  have hcells := hi.cells
  rw [htake, hlive] at hcells
  refine ⟨rest, ?_, hcells, hi.nodup, ?_, hi.last, ?_, ?_, ?_, ?_, hi.linker, hi.nodes,
    hi.allocated, nofun, nofun, (hi.touch_eq hmem).trans hi.stale⟩
  · rw [append_assoc, ← hi.flow, hahead]
    rfl
  · have hhead := hi.head
    rw [hlive] at hhead
    exact hhead
  · intro p hp
    have hne : p.1 ≠ node := by
      rintro he
      exact (nodup_cons.mp (nodup_cons.mp hnodup).2).1 (he ▸ mem_map_of_mem hp)
    exact (update_of_ne hne ..).trans (hi.values p (by simp [hahead, hp]))
  · intro j n m hn hm
    exact hi.links (j + 1) n m (by rw [hlive]; exact hn) (by rw [hlive]; exact hm)
  · intro j n m hj
    obtain ⟨hnone, k, hk, hk'⟩ := hi.prev j n m hj
    rw [hlive] at hk hk'
    cases k with
    | zero =>
      cases hk
      rw [hnext] at hnone
      cases hnone
    | succ k => exact ⟨hnone, k, hk, hk'⟩
  · intro j n u hj
    obtain ⟨hchain, hlt, hnone, hsome, huniq⟩ := hi.built j n u hj
    have hne : n ≠ node := fun he => hchain (he ▸ hi.mem_chain hmem)
    exact ⟨hchain, hlt, hnone, (update_of_ne hne ..).trans hsome, huniq⟩

theorem MpscInvariant.free_step {old : ℕ} (hfree : st.consumer = .free who old v) :
    MpscInvariant ahead
      { st with consumer := who.resume (.value v), freed := st.freed ++ [old] } := by
  obtain ⟨hpassed, htaking, hrunning⟩ := resume_spec who (.value v)
  have hcells := hi.cells
  rw [hfree] at hcells
  refine { hi with
    cells := ?_, taking := fun who' n htake => absurd htake (htaking who' n), running := hrunning }
  rw [hpassed, ← hcells, append_assoc]
  rfl

theorem MpscInvariant.consumer_step (hpassed : consumer.passed = st.consumer.passed)
    (htaking : ∀ who n, consumer = .take who n → st.next st.tail = some n)
    (hrunning : consumer ≠ .panicked) : MpscInvariant ahead { st with waiter, token, consumer } :=
  hi.quiet (fun _ _ _ => .rfl) (fun _ _ _ => .rfl) hpassed htaking hrunning

/-- A step of a call behind its link. -/
theorem MpscInvariant.wake_step {p : Push α}
    (hold : (∀ n v, st.pushes i ≠ .built n v) ∧ ∀ m n, st.pushes i ≠ .swapped m n)
    (hnew : (∀ n v, p ≠ .built n v) ∧ ∀ m n, p ≠ .swapped m n) :
    MpscInvariant ahead { st with waiter, token, pushes := update st.pushes i p } :=
  hi.quiet (fun j n v => update_eq_iff (hold.1 n v) (hnew.1 n v) j)
    (fun j m n => update_eq_iff (hold.2 m n) (hnew.2 m n) j) rfl hi.taking hi.running

theorem MpscInvariant.step (hs : MpscStep a st st') : ∃ ahead', MpscInvariant ahead' st' := by
  cases hs with
  | build hpush => exact ⟨_, hi.built_step hpush⟩
  | swap hpush => exact ⟨_, hi.swap_step hpush⟩
  | link hpush => exact ⟨_, hi.link_step hpush⟩
  | loadWaiter hpush =>
    exact ⟨_, hi.wake_step (by simp [hpush]) (by split <;> simp)⟩
  | claim hpush => exact ⟨_, hi.wake_step (by simp [hpush]) (by split <;> simp)⟩
  | unpark hpush => exact ⟨_, hi.wake_step (by simp [hpush]) (by simp)⟩
  | pop hidle | popBlocking hidle => exact ⟨_, hi.consumer_step (by rw [hidle]; rfl) nofun nofun⟩
  | loadNext henter =>
    rw [hi.touch_eq mem_cons_self]
    refine ⟨_, hi.consumer_step ?_ ?_ ?_⟩
    · rw [henter]
      split <;> rfl
    · intro who n htake
      split at htake
      · cases htake
        assumption
      · cases htake
    · split <;> nofun
  | take htake hvalue => exact hi.take_step htake hvalue
  | takeNothing htake hvalue =>
    obtain ⟨w, -, -, hw⟩ := hi.taken htake
    rw [hvalue] at hw
    cases hw
  | free hfree => exact ⟨_, hi.free_step hfree⟩
  | checkMoved hcheck hhead =>
    obtain ⟨hpassed, htaking, hrunning⟩ := @resume_spec α _ .inconsistent
    exact ⟨_, hi.consumer_step (by rw [hpassed, hcheck]; rfl)
      (fun who n htake => absurd htake (htaking who n)) hrunning⟩
  | checkSame hcheck hhead =>
    obtain ⟨hpassed, htaking, hrunning⟩ := @resume_spec α _ .empty
    exact ⟨_, hi.consumer_step (by rw [hpassed, hcheck]; rfl)
      (fun who n htake => absurd htake (htaking who n)) hrunning⟩
  | expire hpublish | publish hpublish =>
    exact ⟨_, hi.consumer_step (by rw [hpublish]; rfl) nofun nofun⟩
  | park hpark htoken | parkToken hpark htoken | wake hpark htoken | wakeEarly hpark =>
    exact ⟨_, hi.consumer_step (by rw [hpark]; rfl) nofun nofun⟩
  | reclaim hreclaim =>
    refine ⟨_, hi.consumer_step ?_ ?_ ?_⟩
    · rw [hreclaim]
      split <;> rfl
    · intro who n htake
      split at htake <;> cases htake
    · split <;> nofun

end

/-- The value that `pop` is about to answer is the last one popped. -/
def Answers (st : MpscState α) : Prop :=
  ∀ who old v, st.consumer = .free who old v → ∃ node, st.popped.getLast? = some (node, v)

theorem answers_step (hi : Answers st) (hs : MpscStep a st st') : Answers st' := by
  have hresume :
      ∀ (who who' : Caller) (r : PopResult α) old v, who.resume r ≠ .free who' old v := by
    intro who who' r old v
    cases who <;> cases r <;> nofun
  intro who old v hfree
  cases hs with
  | build _ | swap _ | link _ | loadWaiter _ | claim _ | unpark _ => exact hi who old v hfree
  | pop _ | popBlocking _ | takeNothing _ _ | expire _ | publish _ | park _ _ | parkToken _ _
  | wake _ _ | wakeEarly _ => cases hfree
  | loadNext _ | reclaim _ =>
    simp only at hfree
    split at hfree <;> cases hfree
  | @take _ _ node w _ _ =>
    cases hfree
    exact ⟨node, getLast?_concat ..⟩
  | free _ | checkMoved _ _ | checkSame _ _ => exact absurd hfree (hresume _ _ _ _ _)

/-- The loop of `Drop` frees a linked list of nodes from its first on. -/
theorem dropNodes_linked {next : ℕ → Option ℕ} {l : List ℕ} {fuel : ℕ} (hfuel : l.length < fuel)
    (hlinks : ∀ j a b, (n :: l)[j]? = some a → (n :: l)[j + 1]? = some b → next a = some b)
    (hlast : ∀ a, (n :: l).getLast? = some a → next a = none) :
    dropNodes next fuel (some n) = some (n :: l) := by
  induction l generalizing n fuel with
  | nil =>
    cases fuel with
    | zero => omega
    | succ fuel => simp [dropNodes, hlast n rfl]
  | cons m l ih =>
    cases fuel with
    | zero => omega
    | succ fuel =>
      have hrest := @ih m fuel (by simpa using hfuel) (fun j a b ha hb => hlinks (j + 1) a b ha hb)
        fun a ha => hlast a (by rw [getLast?_cons_cons, ha])
      rw [dropNodes, hlinks 0 n m rfl rfl, hrest]
      rfl

/-- With no call in progress the nodes that were not freed are those from the tail on. -/
theorem MpscInvariant.quiescent (hi : MpscInvariant ahead st) (hq : Quiescent st) :
    dropNodes st.next st.allocated (some st.tail) = some (live st.tail ahead) ∧
      (st.freed ++ live st.tail ahead).Perm (range st.allocated) := by
  obtain ⟨hpushes, hidle⟩ := hq
  have hnobuilt : ∀ i n v, st.pushes i ≠ .built n v := by
    intro i n v hpush
    rcases hpushes i with ⟨w, hi'⟩ | hi' <;> · rw [hi'] at hpush; cases hpush
  have hnoswap : ∀ i m n, st.pushes i ≠ .swapped m n := by
    intro i m n hpush
    rcases hpushes i with ⟨w, hi'⟩ | hi' <;> · rw [hi'] at hpush; cases hpush
  have hcells := hi.cells
  rw [hidle] at hcells
  have hperm : (st.freed ++ live st.tail ahead).Perm (range st.allocated) := by
    rw [show st.freed ++ live st.tail ahead = chain st.swapped from hcells]
    refine (perm_ext_iff_of_nodup hi.nodup nodup_range).mpr fun n => ?_
    rw [mem_range]
    exact ⟨hi.allocated n,
      fun hn => (hi.nodes n hn).resolve_right fun ⟨i, v, h⟩ => hnobuilt i n v h⟩
  refine ⟨?_, hperm⟩
  have hlength := hperm.length_eq
  rw [length_append, length_range, live, length_cons] at hlength
  refine dropNodes_linked (by omega) (fun j n m hn hm => ?_) fun n hn => ?_
  · exact (hi.links j n m hn hm).resolve_right fun ⟨_, i, h⟩ => hnoswap i m n h
  · have hhead : some n = some st.head := hn.symm.trans hi.head
    rw [some.inj hhead]
    exact hi.last

/-- The head is the tail exactly when everything that went into it was popped. -/
theorem MpscInvariant.popped_eq_iff (hi : MpscInvariant ahead st) :
    st.head = st.tail ↔ st.popped = st.swapped := by
  have hflow := hi.flow
  have hhead := hi.head
  cases ahead with
  | nil =>
    rw [append_nil] at hflow
    exact iff_of_true (some.inj hhead).symm hflow
  | cons p rest =>
    refine iff_of_false (fun he => ?_) fun he => ?_
    · have hnodup := (nodup_cons.mp hi.live_nodup).1
      rw [live, map_cons, getLast?_cons_cons] at hhead
      exact hnodup (he ▸ mem_of_getLast? hhead)
    · rw [← he] at hflow
      simp at hflow

theorem mpscInvariant_of_reaches (h : Reaches MpscStep anyAction (.start requests) st) :
    ∃ ahead, MpscInvariant ahead st :=
  h.invariant (I := fun st => ∃ ahead, MpscInvariant ahead st) (fun ⟨_, hi⟩ _ hs => hi.step hs)
    ⟨[], .start requests⟩

/-- The queue is a queue, over any interleaving of pushes with any use of it by the consumer. -/
theorem mpsc_refines_fifo (h : Reaches MpscStep anyAction (.start requests) st) :
    st.popped <+: st.swapped ∧ (st.swapped.map Prod.fst).Nodup ∧
      (∀ v st', MpscStep (.answer (.value v)) st st' →
        ∃ node, st.popped.getLast? = some (node, v)) ∧
      (∀ st', MpscStep (.answer .empty) st st' → st.popped = st.swapped) ∧
      (∀ st', MpscStep (.answer .inconsistent) st st' → st.popped ≠ st.swapped) ∧
      st.consumer ≠ .panicked ∧ st.stale = [] ∧ st.freed.Nodup ∧
      (Quiescent st → ∃ rest, dropNodes st.next st.allocated (some st.tail) = some rest ∧
        (st.freed ++ rest).Perm (range st.allocated)) := by
  obtain ⟨ahead, hi⟩ := mpscInvariant_of_reaches h
  have hanswers : Answers st := h.invariant (fun hi _ hs => answers_step hi hs) nofun
  have hnodup := hi.nodup
  refine ⟨⟨ahead, hi.flow⟩, (nodup_cons.mp hnodup).2, ?_, ?_, ?_, hi.running, hi.stale, ?_,
    fun hq => ⟨_, hi.quiescent hq⟩⟩
  · intro v st' hs
    cases hs with
    | free hfree => exact hanswers _ _ v hfree
  · intro st' hs
    cases hs with
    | checkSame hcheck hhead => exact hi.popped_eq_iff.mp hhead
  · intro st' hs
    cases hs with
    | checkMoved hcheck hhead => exact fun he => hhead (hi.popped_eq_iff.mpr he)
  · rw [← hi.cells] at hnodup
    exact hnodup.of_append_left

/-- A push between its swap and its link: the queue answers that it is inconsistent. -/
theorem mpsc_refines_fifo_run : ∃ st st' : MpscState ℕ,
    Reaches MpscStep anyAction (.start fun i => i) st ∧
      MpscStep (.answer .inconsistent) st st' ∧ st.swapped = [(1, 0)] ∧ st.popped ≠ st.swapped := by
  have hbuild : Reaches MpscStep anyAction (.start fun i => i) _ :=
    .of_step trivial (@MpscStep.build ℕ _ 0 _ rfl)
  have hswap := hbuild.next trivial (@MpscStep.swap ℕ _ 0 1 0 rfl)
  have hpop := hswap.next trivial (.pop rfl)
  have hload := hpop.next trivial (.loadNext rfl)
  exact ⟨_, _, hload, .checkMoved rfl (Nat.succ_ne_zero 0), rfl,
    (mpsc_refines_fifo hload).2.2.2.2.1 _ (.checkMoved rfl (Nat.succ_ne_zero 0))⟩

end Mpsc
end AxisBridge

/-! The wake of the intrusive queue: the consumer announces itself, looks again and parks. -/
namespace AxisBridge
open Function List
namespace Mpsc

variable {α : Type*}

/-- The steps of a push behind its link. -/
def Push.Waking : Push α → Prop
  | .linked | .claiming | .unparking => True
  | _ => False

/-- The consumer put its handle into the slot and has not taken it back. -/
def Consumer.Announced : Consumer α → Prop
  | .enter (.again _) | .take (.again _) _ | .free (.again _) _ _ | .check (.again _) => True
  | .park _ | .parked _ => True
  | _ => False

/-- The second look found nothing. -/
def Consumer.Asleep : Consumer α → Prop
  | .park _ | .parked _ => True
  | _ => False

/-- A handle that is gone from the slot was or is going to be woken, and so is the consumer once
there is something to pop. -/
structure WakeInvariant (st : MpscState α) : Prop where
  claimed : st.consumer.Announced →
    st.waiter = true ∨ st.token = true ∨ ∃ i, st.pushes i = .unparking
  pending : st.consumer.Asleep → st.next st.tail ≠ none →
    st.token = true ∨ ∃ i, (st.pushes i).Waking

variable {st st' : MpscState α} {ahead : List (ℕ × α)} {i j : ℕ} {a : MpscAction α}
  {requests : ℕ → α} {p : Push α} {consumer : Consumer α}

theorem Consumer.Asleep.announced (h : consumer.Asleep) : consumer.Announced := by
  cases consumer <;> first | exact h | cases h

theorem WakeInvariant.start (requests : ℕ → α) : WakeInvariant (.start requests) where
  claimed := nofun
  pending := nofun

/-- A call that was not about to wake the consumer takes a step. -/
theorem exists_unparking_update (hold : st.pushes i ≠ .unparking)
    (h : ∃ j, st.pushes j = .unparking) : ∃ j, update st.pushes i p j = .unparking := by
  obtain ⟨j, hj⟩ := h
  have hji : j ≠ i := by
    rintro rfl
    exact hold hj
  exact ⟨j, by rw [update_of_ne hji, hj]⟩

theorem exists_waking_update (h : ∃ j, (st.pushes j).Waking)
    (hnew : (st.pushes i).Waking → p.Waking) : ∃ j, (update st.pushes i p j).Waking := by
  obtain ⟨j, hj⟩ := h
  by_cases hji : j = i
  · subst hji
    exact ⟨j, by rw [update_self]; exact hnew hj⟩
  · exact ⟨j, by rwa [update_of_ne hji]⟩

/-- What a handle that is gone from the slot says after a step of a call that does not wake. -/
theorem WakeInvariant.claimed_update (hw : WakeInvariant st) (hold : st.pushes i ≠ .unparking)
    (h : st.consumer.Announced) :
    st.waiter = true ∨ st.token = true ∨ ∃ j, update st.pushes i p j = .unparking :=
  (hw.claimed h).imp_right (.imp_right (exists_unparking_update hold))

/-- A call finds the slot empty: another one took the handle out. -/
theorem WakeInvariant.pending_of_empty (hw : WakeInvariant st) (hold : st.pushes i ≠ .unparking)
    (hwaiter : st.waiter = false) (h : st.consumer.Asleep) :
    st.token = true ∨ ∃ j, (update st.pushes i p j).Waking := by
  rcases hw.claimed_update hold h.announced with hsome | htoken | ⟨j, hj⟩
  · rw [hwaiter] at hsome
    cases hsome
  · exact .inl htoken
  · exact .inr ⟨j, by rw [hj]; trivial⟩

theorem WakeInvariant.step (hw : WakeInvariant st) (hi : MpscInvariant ahead st)
    (hs : MpscStep a st st') : WakeInvariant st' := by
  cases hs with
  | build hpush =>
    refine ⟨hw.claimed_update (by rw [hpush]; nofun), fun h hnext => ?_⟩
    have htail : st.tail ≠ st.allocated :=
      Nat.ne_of_lt (hi.allocated _ (hi.mem_chain mem_cons_self))
    simp only [update_of_ne htail] at hnext
    exact (hw.pending h hnext).imp_right fun hwaking =>
      exists_waking_update hwaking (by rw [hpush]; nofun)
  | swap hpush =>
    refine ⟨hw.claimed_update (by rw [hpush]; nofun), fun h hnext => ?_⟩
    exact (hw.pending h hnext).imp_right fun hwaking =>
      exists_waking_update hwaking (by rw [hpush]; nofun)
  | @link _ i _ _ hpush =>
    refine ⟨hw.claimed_update (by rw [hpush]; nofun), fun _ _ => .inr ⟨i, ?_⟩⟩
    simp only [update_self]
    trivial
  | @loadWaiter _ i hpush =>
    have hold : st.pushes i ≠ .unparking := by
      rw [hpush]
      nofun
    refine ⟨hw.claimed_update hold, fun h hnext => ?_⟩
    cases hwaiter : st.waiter with
    | true =>
      refine .inr ⟨i, ?_⟩
      simp only [update_self]
      trivial
    | false => exact hw.pending_of_empty hold hwaiter h
  | @claim _ i hpush =>
    have hold : st.pushes i ≠ .unparking := by
      rw [hpush]
      nofun
    cases hwaiter : st.waiter with
    | true =>
      refine ⟨fun _ => .inr (.inr ⟨i, ?_⟩), fun _ _ => .inr ⟨i, ?_⟩⟩
      · simp
      · simp only [update_self]
        trivial
    | false =>
      refine ⟨fun h => .inr ?_, fun h _ => hw.pending_of_empty hold hwaiter h⟩
      exact (hw.claimed_update hold h).resolve_left (by simp [hwaiter])
  | unpark hpush => exact ⟨fun _ => .inr (.inl rfl), fun _ _ => .inl rfl⟩
  | pop _ | popBlocking _ | takeNothing _ _ | expire _ | parkToken _ _ | wake _ _ | wakeEarly _ =>
    exact ⟨nofun, nofun⟩
  | @loadNext _ who henter =>
    have hclaimed := hw.claimed
    rw [henter] at hclaimed
    cases hnext : st.next st.tail with
    | none | some node => exact ⟨fun h => hclaimed (by cases who <;> exact h), nofun⟩
  | @take _ who node v htake hvalue =>
    have hclaimed := hw.claimed
    rw [htake] at hclaimed
    exact ⟨fun h => hclaimed (by cases who <;> exact h), nofun⟩
  | @free _ who old v hfree | @checkMoved _ who hcheck hhead => cases who <;> exact ⟨nofun, nofun⟩
  | @checkSame _ who hcheck hhead =>
    have hclaimed := hw.claimed
    rw [hcheck] at hclaimed
    cases who with
    | pop | first _ => exact ⟨nofun, nofun⟩
    | again timed =>
      -- nothing is linked behind the tail, which is the head
      exact ⟨fun _ => hclaimed trivial, fun _ hnext => absurd (hhead ▸ hi.last) hnext⟩
  | publish hpublish => exact ⟨fun _ => .inl rfl, nofun⟩
  | park hpark htoken =>
    have hclaimed := hw.claimed
    have hpending := hw.pending
    rw [hpark] at hclaimed hpending
    exact ⟨fun _ => hclaimed trivial, fun _ => hpending trivial⟩
  | @reclaim _ timed answer hreclaim => cases answer <;> exact ⟨nofun, nofun⟩

/-- A value that the links from the tail lead to. -/
def Linked (st : MpscState α) (node : ℕ) : Prop :=
  Relation.TransGen (fun n m => st.next n = some m) st.tail node

theorem Linked.next_tail {node : ℕ} (h : Linked st node) : st.next st.tail ≠ none := by
  obtain ⟨m, hm, -⟩ := Relation.TransGen.head'_iff.mp h
  rw [hm]
  nofun

/-- With every push behind its link, a tail without a next node is the last one. -/
theorem MpscInvariant.popped_of_unlinked (hi : MpscInvariant ahead st)
    (hnext : st.next st.tail = none) (hlinked : ∀ i node prev, st.pushes i ≠ .swapped node prev) :
    st.popped = st.swapped := by
  have hflow := hi.flow
  cases ahead with
  | nil => rwa [append_nil] at hflow
  | cons p rest =>
    rcases hi.links 0 st.tail p.1 rfl rfl with hsome | ⟨-, i, hpush⟩
    · rw [hnext] at hsome
      cases hsome
    · exact absurd hpush (hlinked i p.1 st.tail)

/-- The consumer does not sleep without a token over a value that is linked, unless a push is about
to wake it; and once no push is in progress it sleeps over nothing. -/
theorem no_lost_wakeup (h : Reaches MpscStep anyAction (.start requests) st) :
    (¬∃ timed node, st.consumer = .parked timed ∧ st.token = false ∧ Linked st node ∧
      ∀ i, ¬(st.pushes i).Waking) ∧
      ∀ timed, st.consumer = .parked timed → st.token = false → (∀ i, ¬(st.pushes i).Waking) →
        (∀ i node prev, st.pushes i ≠ .swapped node prev) → st.popped = st.swapped := by
  have hboth : (∃ ahead, MpscInvariant ahead st) ∧ WakeInvariant st :=
    h.invariant (I := fun st => (∃ ahead, MpscInvariant ahead st) ∧ WakeInvariant st)
      (fun ⟨⟨_, hi⟩, hw⟩ _ hs => ⟨hi.step hs, hw.step hi hs⟩)
      ⟨⟨[], .start requests⟩, .start requests⟩
  obtain ⟨⟨ahead, hi⟩, hw⟩ := hboth
  have hasleep : ∀ timed, st.consumer = .parked timed → st.token = false →
      (∀ i, ¬(st.pushes i).Waking) → st.next st.tail = none := by
    intro timed hparked htoken hwaking
    by_contra hnext
    rcases hw.pending (by rw [hparked]; trivial) hnext with htoken' | ⟨i, hi'⟩
    · rw [htoken] at htoken'
      cases htoken'
    · exact hwaking i hi'
  refine ⟨?_, fun timed hparked htoken hwaking hlinked =>
    hi.popped_of_unlinked (hasleep timed hparked htoken hwaking) hlinked⟩
  rintro ⟨timed, node, hparked, htoken, hlinked, hwaking⟩
  exact hlinked.next_tail (hasleep timed hparked htoken hwaking)

/-- The push of one value while the consumer parks: its handle is in the slot, and the push is about
to look there. -/
theorem no_lost_wakeup_run : ∃ st : MpscState ℕ,
    Reaches MpscStep anyAction (.start fun i => i) st ∧ st.consumer = .parked false ∧
      st.token = false ∧ st.waiter = true ∧ st.pushes 0 = .linked ∧
      ¬∃ timed node, st.consumer = .parked timed ∧ st.token = false ∧ Linked st node ∧
        ∀ i, ¬(st.pushes i).Waking := by
  have hpop : Reaches MpscStep anyAction (.start fun i : ℕ => i) _ :=
    .of_step trivial (@MpscStep.popBlocking ℕ _ false rfl)
  have hempty := (hpop.next trivial (.loadNext rfl)).next trivial (.checkSame rfl rfl)
  have hagain :=
    (hempty.next trivial (@MpscStep.publish ℕ _ false rfl)).next trivial (.loadNext rfl)
  have hparked := (hagain.next trivial (.checkSame rfl rfl)).next trivial
    (@MpscStep.park ℕ _ false rfl rfl)
  have hswap := (hparked.next trivial (@MpscStep.build ℕ _ 0 0 rfl)).next trivial
    (@MpscStep.swap ℕ _ 0 1 0 rfl)
  have hlink := hswap.next trivial (@MpscStep.link ℕ _ 0 1 0 rfl)
  exact ⟨_, hlink, rfl, rfl, rfl, rfl, (no_lost_wakeup hlink).1⟩

end Mpsc
end AxisBridge
