import AxisBridge.Lib.Ledger
import AxisBridge.Lib.Reach
import AxisBridge.Runtime.Text

/-! The bounded channel: blocking and dropping sends, single takes and timed batch drains. -/
namespace AxisBridge
open List Function Option

def BOUNDED_CAP_DEFAULT : ℕ := 1024

/-- `bounded_cap_env`, from the value of the variable. -/
def boundedCapEnv (var : Option String) : ℕ :=
  ((var.bind fun s => parseUsize (trim s)).filter (1 ≤ ·)).getD BOUNDED_CAP_DEFAULT

structure BoundedChannel (α : Type*) where
  queue : List α
  cap : ℕ

/-- `bounded_channel_for` at its first touch of a name. -/
def boundedChannelFor (α : Type*) (var : Option String) : BoundedChannel α :=
  ⟨[], boundedCapEnv var⟩

variable {α : Type*}

/-- The turn a blocking send takes with the lock held; `none` is a wait on `not_full`. -/
def boundedSendBlocking (ch : BoundedChannel α) (item : α) : Option (BoundedChannel α) :=
  if ch.queue.length ≥ ch.cap then none else some { ch with queue := ch.queue ++ [item] }

def boundedTrySend (ch : BoundedChannel α) (item : α) : Bool × BoundedChannel α :=
  if ch.queue.length ≥ ch.cap then (false, ch)
  else (true, { ch with queue := ch.queue ++ [item] })

/-- The turn a take has with the lock held; `none` is a wait on `not_empty`. -/
def boundedTakeBlocking (ch : BoundedChannel α) : Option (α × BoundedChannel α) :=
  match ch.queue with
  | v :: q => some (v, { ch with queue := q })
  | [] => none

/-- The loop that pops into `out` until it has `cap` items or the queue is empty. -/
def popInto (cap : ℕ) : List α → List α → List α × List α
  | out, [] => (out, [])
  | out, v :: q => if out.length < cap then popInto cap (out ++ [v]) q else (out, v :: q)

/-- A call and how far it has come. A drain that gathers has let go of the lock in
`wait_timeout`. -/
inductive ChanCall (α : Type*)
  | sending (item : α)
  | sent (item : α)
  | trying (item : α)
  | tried (item : α) (enqueued : Bool)
  | taking
  | taken (item : α)
  | draining (max : ℕ)
  | gathering (max : ℕ) (out : List α)
  | drained (max : ℕ) (out : List α)

/-- What a thread asks of the channel. -/
inductive ChanRequest (α : Type*)
  | boundedSendBlocking (item : α)
  | boundedTrySend (item : α)
  | boundedTakeBlocking
  | boundedDrainBatch (max : ℕ)

def ChanRequest.call : ChanRequest α → ChanCall α
  | .boundedSendBlocking item => .sending item
  | .boundedTrySend item => .trying item
  | .boundedTakeBlocking => .taking
  | .boundedDrainBatch max => .draining max

/-- A turn of `bounded_drain_batch` with the lock held: it pops, and then returns or waits again.
`expired` says that the wait timed out or that the window is over. -/
def drainTurn (max : ℕ) (out : List α) (expired : Bool) (ch : BoundedChannel α) :
    ChanCall α × BoundedChannel α :=
  let cap := Nat.max max 1
  let (out, q) := popInto cap out ch.queue
  (if out.length < cap ∧ ¬expired then .gathering max out else .drained max out,
    { ch with queue := q })

/-- What a call has popped so far. -/
def ChanCall.popped : ChanCall α → List α
  | .taken item => [item]
  | .gathering _ out => out
  | .drained _ out => out
  | _ => []

/-- What a call has put into the queue. -/
def ChanCall.pushed : ChanCall α → List α
  | .sent item => [item]
  | .tried item true => [item]
  | _ => []

/-- The channel and the calls on it, and for the sake of the statements what entered the queue and
what left it, each item with the call that moved it. -/
structure ChanState (α : Type*) where
  chan : BoundedChannel α
  calls : ℕ → ChanCall α
  accepted : List (ℕ × α)
  left : List (ℕ × α)

def ChanState.start (var : Option String) (requests : ℕ → ChanRequest α) : ChanState α :=
  ⟨boundedChannelFor α var, fun i => (requests i).call, [], []⟩

inductive ChanAction
  | send (i : ℕ)
  | sendWait (i : ℕ)
  | trySend (i : ℕ)
  | take (i : ℕ)
  | takeWait (i : ℕ)
  | drain (i : ℕ) (expired : Bool)
  | drainWait (i : ℕ)
  | gather (i : ℕ) (expired : Bool)

/-- One lock section of one call. -/
inductive ChanStep : ChanAction → ChanState α → ChanState α → Prop
  | send {st : ChanState α} {i : ℕ} {item : α} {ch : BoundedChannel α}
      (hcall : st.calls i = .sending item) (hsend : boundedSendBlocking st.chan item = some ch) :
      ChanStep (.send i) st
        { st with
          chan := ch
          calls := update st.calls i (.sent item)
          accepted := st.accepted ++ [(i, item)] }
  | sendWait {st : ChanState α} {i : ℕ} {item : α} (hcall : st.calls i = .sending item)
      (hsend : boundedSendBlocking st.chan item = none) : ChanStep (.sendWait i) st st
  | trySend {st : ChanState α} {i : ℕ} {item : α} {enqueued : Bool} {ch : BoundedChannel α}
      (hcall : st.calls i = .trying item)
      (hsend : boundedTrySend st.chan item = (enqueued, ch)) :
      ChanStep (.trySend i) st
        { st with
          chan := ch
          calls := update st.calls i (.tried item enqueued)
          accepted := st.accepted ++ if enqueued then [(i, item)] else [] }
  | take {st : ChanState α} {i : ℕ} {v : α} {ch : BoundedChannel α}
      (hcall : st.calls i = .taking) (htake : boundedTakeBlocking st.chan = some (v, ch)) :
      ChanStep (.take i) st
        { st with
          chan := ch
          calls := update st.calls i (.taken v)
          left := st.left ++ [(i, v)] }
  | takeWait {st : ChanState α} {i : ℕ} (hcall : st.calls i = .taking)
      (htake : boundedTakeBlocking st.chan = none) : ChanStep (.takeWait i) st st
  | drain {st : ChanState α} {i max : ℕ} {expired : Bool} {call : ChanCall α}
      {ch : BoundedChannel α} (hcall : st.calls i = .draining max) (hne : st.chan.queue ≠ [])
      (hturn : drainTurn max [] expired st.chan = (call, ch)) :
      ChanStep (.drain i expired) st
        { st with
          chan := ch
          calls := update st.calls i call
          left := st.left ++ call.popped.map (i, ·) }
  | drainWait {st : ChanState α} {i max : ℕ} (hcall : st.calls i = .draining max)
      (hempty : st.chan.queue = []) : ChanStep (.drainWait i) st st
  | gather {st : ChanState α} {i max : ℕ} {out : List α} {expired : Bool} {call : ChanCall α}
      {ch : BoundedChannel α} (hcall : st.calls i = .gathering max out)
      (hturn : drainTurn max out expired st.chan = (call, ch)) :
      ChanStep (.gather i expired) st
        { st with
          chan := ch
          calls := update st.calls i call
          left := st.left ++ (call.popped.drop out.length).map (i, ·) }

/-- A drain that has popped has a batch, and one no longer than it asked for. -/
def ChanCall.BatchFits : ChanCall α → Prop
  | .gathering max out => out ≠ [] ∧ out.length ≤ Nat.max max 1
  | .drained max out => out ≠ [] ∧ out.length ≤ Nat.max max 1
  | _ => True

structure ChanInvariant (cap : ℕ) (st : ChanState α) : Prop where
  cap_eq : st.chan.cap = cap
  room : st.chan.queue.length ≤ cap
  flow : st.left.map Prod.snd ++ st.chan.queue = st.accepted.map Prod.snd
  pushed : ∀ i, itemsOf i st.accepted = (st.calls i).pushed
  popped : ∀ i, itemsOf i st.left = (st.calls i).popped
  fits : ∀ i, (st.calls i).BatchFits

variable {i cap max : ℕ} {item : α} {out q : List α} {expired : Bool} {ch ch' : BoundedChannel α}
  {call : ChanCall α} {calls : ℕ → ChanCall α} {st st' : ChanState α} {a : ChanAction}

theorem batchFits_update (h : ∀ j, (calls j).BatchFits) (hcall : call.BatchFits) (j : ℕ) :
    (update calls i call j).BatchFits := by
  by_cases hij : j = i
  · subst hij
    rwa [update_self]
  · rw [update_of_ne hij]
    exact h j

theorem boundedSendBlocking_some (h : boundedSendBlocking ch item = some ch') :
    ch.queue.length < ch.cap ∧ ch' = { ch with queue := ch.queue ++ [item] } := by
  unfold boundedSendBlocking at h
  split at h
  · cases h
  · exact ⟨by omega, (some.inj h).symm⟩

theorem boundedTakeBlocking_some (h : boundedTakeBlocking ch = some (item, ch')) :
    ch.queue = item :: ch'.queue ∧ ch'.cap = ch.cap := by
  unfold boundedTakeBlocking at h
  split at h
  · rename_i v q hqueue
    obtain ⟨rfl, rfl⟩ := Prod.mk.inj (some.inj h)
    exact ⟨hqueue, rfl⟩
  · cases h

/-- The loop pops the front of the queue, as much of it as `out` has room for. -/
theorem popInto_eq (cap : ℕ) (out q : List α) :
    popInto cap out q = (out ++ q.take (cap - out.length), q.drop (cap - out.length)) := by
  induction q generalizing out with
  | nil => simp [popInto]
  | cons v q ih =>
    by_cases hroom : out.length < cap
    · have hleft : cap - out.length = cap - (out.length + 1) + 1 := by omega
      simp [popInto, hroom, ih, hleft]
    · have hfull : cap - out.length = 0 := by omega
      simp [popInto, hroom, hfull]

theorem drainTurn_spec (h : drainTurn max out expired ch = (call, ch')) :
    call.popped = out ++ ch.queue.take (Nat.max max 1 - out.length) ∧ call.pushed = [] ∧
      ch' = { ch with queue := ch.queue.drop (Nat.max max 1 - out.length) } := by
  simp only [drainTurn, popInto_eq, Prod.mk.injEq] at h
  obtain ⟨rfl, rfl⟩ := h
  refine ⟨?_, ?_, rfl⟩ <;> split <;> rfl

theorem drainTurn_fits (h : drainTurn max out expired ch = (call, ch'))
    (hout : out.length ≤ Nat.max max 1) (hne : out ≠ [] ∨ ch.queue ≠ []) : call.BatchFits := by
  have hbatch : out ++ ch.queue.take (Nat.max max 1 - out.length) ≠ [] ∧
      (out ++ ch.queue.take (Nat.max max 1 - out.length)).length ≤ Nat.max max 1 := by
    have hpos : 1 ≤ Nat.max max 1 := le_max_right max 1
    refine ⟨?_, ?_⟩
    · rcases hne with hne | hne
      · simp [hne]
      · cases out with
        | nil => simp [hne]
        | cons v out => simp
    · simp only [length_append, length_take]
      omega
  simp only [drainTurn, popInto_eq, Prod.mk.injEq] at h
  obtain ⟨rfl, -⟩ := h
  split <;> exact hbatch

theorem ChanInvariant.start (var : Option String) (requests : ℕ → ChanRequest α) :
    ChanInvariant (boundedCapEnv var) (.start var requests) where
  cap_eq := rfl
  room := Nat.zero_le _
  flow := rfl
  pushed i := by simp only [ChanState.start]; cases requests i <;> rfl
  popped i := by simp only [ChanState.start]; cases requests i <;> rfl
  fits i := by simp only [ChanState.start]; cases requests i <;> trivial

/-- An item enters at the back of the queue. -/
theorem ChanInvariant.enter (hi : ChanInvariant cap st) (hroom : st.chan.queue.length < st.chan.cap)
    (hpushed : call.pushed = (st.calls i).pushed ++ [item])
    (hpopped : call.popped = (st.calls i).popped) (hfits : call.BatchFits) :
    ChanInvariant cap
      { st with
        chan := { st.chan with queue := st.chan.queue ++ [item] }
        calls := update st.calls i call
        accepted := st.accepted ++ [(i, item)] } where
  cap_eq := hi.cap_eq
  room := by
    have hcap := hi.cap_eq
    simp only [length_append, length_singleton]
    omega
  flow := by simp [← append_assoc, hi.flow]
  pushed := itemsOf_update hi.pushed [item] hpushed
  popped := itemsOf_update_none hi.popped hpopped
  fits := batchFits_update hi.fits hfits

/-- Items leave at the front of the queue. -/
theorem ChanInvariant.leave (hi : ChanInvariant cap st) (items : List α)
    (hqueue : st.chan.queue = items ++ ch.queue) (hcap : ch.cap = st.chan.cap)
    (hpushed : call.pushed = (st.calls i).pushed)
    (hpopped : call.popped = (st.calls i).popped ++ items) (hfits : call.BatchFits) :
    ChanInvariant cap
      { st with
        chan := ch
        calls := update st.calls i call
        left := st.left ++ items.map (i, ·) } where
  cap_eq := hcap.trans hi.cap_eq
  room := by
    have hroom := hi.room
    rw [hqueue, length_append] at hroom
    show ch.queue.length ≤ cap
    omega
  flow := by
    have hflow := hi.flow
    rw [hqueue] at hflow
    simpa [Function.comp_def] using hflow
  pushed := itemsOf_update_none hi.pushed hpushed
  popped := itemsOf_update hi.popped items hpopped
  fits := batchFits_update hi.fits hfits

/-- A turn of a drain. -/
theorem ChanInvariant.turn (hi : ChanInvariant cap st) (out : List α)
    (hpushed : (st.calls i).pushed = []) (hpopped : (st.calls i).popped = out)
    (hout : out.length ≤ Nat.max max 1)
    (hne : out ≠ [] ∨ st.chan.queue ≠ []) (hturn : drainTurn max out expired st.chan = (call, ch)) :
    ChanInvariant cap
      { st with
        chan := ch
        calls := update st.calls i call
        left := st.left ++ (call.popped.drop out.length).map (i, ·) } := by
  obtain ⟨hcall, hnone, hch⟩ := drainTurn_spec hturn
  have hdrop : call.popped.drop out.length = st.chan.queue.take (Nat.max max 1 - out.length) := by
    rw [hcall, drop_left]
  rw [hdrop]
  apply hi.leave (st.chan.queue.take (Nat.max max 1 - out.length))
  · rw [hch]
    exact (take_append_drop _ _).symm
  · rw [hch]
  · rw [hnone, hpushed]
  · rw [hcall, hpopped]
  · exact drainTurn_fits hturn hout hne

theorem ChanInvariant.step (hi : ChanInvariant cap st) (hs : ChanStep a st st') :
    ChanInvariant cap st' := by
  cases hs with
  | send hcall hsend =>
    obtain ⟨hroom, rfl⟩ := boundedSendBlocking_some hsend
    exact hi.enter hroom (by simp [hcall, ChanCall.pushed])
      (by simp [hcall, ChanCall.popped]) trivial
  | sendWait hcall hsend => exact hi
  | @trySend _ i item enqueued ch hcall hsend =>
    unfold boundedTrySend at hsend
    split at hsend
    · obtain ⟨rfl, rfl⟩ := Prod.mk.inj hsend
      -- a full queue drops the item
      have hpushed : ∀ j, itemsOf j st.accepted =
          (update st.calls i (.tried item false) j).pushed :=
        itemsOf_update_none hi.pushed (by simp [hcall, ChanCall.pushed])
      have hpopped : ∀ j, itemsOf j st.left = (update st.calls i (.tried item false) j).popped :=
        itemsOf_update_none hi.popped (by simp [hcall, ChanCall.popped])
      have hfits : ∀ j, (update st.calls i (.tried item false) j).BatchFits :=
        batchFits_update hi.fits trivial
      exact ⟨hi.cap_eq, hi.room, by simpa using hi.flow, by simpa using hpushed, hpopped, hfits⟩
    · obtain ⟨rfl, rfl⟩ := Prod.mk.inj hsend
      refine hi.enter (by omega) ?_ ?_ trivial
      · simp [hcall, ChanCall.pushed]
      · simp [hcall, ChanCall.popped]
  | take hcall htake =>
    obtain ⟨hqueue, hcap⟩ := boundedTakeBlocking_some htake
    refine hi.leave [_] hqueue hcap ?_ ?_ trivial
    · simp [hcall, ChanCall.pushed]
    · simp [hcall, ChanCall.popped]
  | takeWait hcall htake => exact hi
  | drain hcall hne hturn =>
    refine hi.turn [] ?_ ?_ (Nat.zero_le _) (.inr hne) hturn
    · simp [hcall, ChanCall.pushed]
    · simp [hcall, ChanCall.popped]
  | drainWait hcall hempty => exact hi
  | @gather _ i max out expired call ch hcall hturn =>
    have hfits := hi.fits i
    rw [hcall] at hfits
    refine hi.turn out ?_ ?_ hfits.2 (.inl hfits.1) hturn
    · simp [hcall, ChanCall.pushed]
    · simp [hcall, ChanCall.popped]

/-- A dropped send changes nothing but its own call. -/
theorem chanStep_trySend_false (hs : ChanStep (.trySend i) st st')
    (hdrop : st'.calls i = .tried item false) :
    st'.chan = st.chan ∧ st'.accepted = st.accepted ∧ st'.left = st.left := by
  cases hs with
  | trySend hcall hsend =>
    simp only [update_self] at hdrop
    obtain ⟨-, rfl⟩ := ChanCall.tried.inj hdrop
    unfold boundedTrySend at hsend
    split at hsend
    · obtain ⟨-, rfl⟩ := Prod.mk.inj hsend
      exact ⟨rfl, by simp, rfl⟩
    · cases hsend

/-- The accounts of the channel, over any interleaving of the lock sections of any calls. -/
theorem bounded_channel_keeps_items {var : Option String} {requests : ℕ → ChanRequest α}
    (h : Reaches ChanStep anyAction (.start var requests) st) :
    st.chan.cap = boundedCapEnv var ∧ st.chan.queue.length ≤ st.chan.cap ∧
      st.left.map Prod.snd ++ st.chan.queue = st.accepted.map Prod.snd ∧
      (∀ i, itemsOf i st.accepted = (st.calls i).pushed) ∧
      (∀ i, itemsOf i st.left = (st.calls i).popped) ∧
      (∀ i max out, st.calls i = .drained max out → out ≠ [] ∧ out.length ≤ Nat.max max 1) ∧
      ∀ i st' item, ChanStep (.trySend i) st st' → st'.calls i = .tried item false →
        st'.chan = st.chan ∧ st'.accepted = st.accepted ∧ st'.left = st.left := by
  have hi : ChanInvariant (boundedCapEnv var) st :=
    h.invariant (fun hi _ hs => hi.step hs) (.start var requests)
  refine ⟨hi.cap_eq, ?_, hi.flow, hi.pushed, hi.popped, ?_, ?_⟩
  · rw [hi.cap_eq]
    exact hi.room
  · intro i max out hcall
    have hfits := hi.fits i
    rwa [hcall] at hfits
  · intro i st' item hs hdrop
    exact chanStep_trySend_false hs hdrop

/-- A send, a try and a drain that meet on a channel. -/
def oneOfEach : ℕ → ChanRequest ℕ
  | 0 => .boundedSendBlocking 7
  | 1 => .boundedTrySend 8
  | _ => .boundedDrainBatch 4

/-- A full channel of one place: the second send is dropped, the drain gets the first. -/
theorem bounded_channel_keeps_items_run : ∃ st : ChanState ℕ,
    Reaches ChanStep anyAction (.start (some "1") oneOfEach) st ∧
    st.calls 1 = .tried 8 false ∧ st.calls 2 = .drained 4 [7] ∧
    st.left.map Prod.snd ++ st.chan.queue = st.accepted.map Prod.snd := by
  have hstart : Reaches ChanStep anyAction (.start (some "1") oneOfEach) _ := .refl _
  have hsent := hstart.next trivial (.send (i := 0) rfl rfl)
  have hdropped := hsent.next trivial (.trySend (i := 1) rfl rfl)
  have hdrained := hdropped.next trivial
    (.drain (i := 2) rfl nofun (rfl : drainTurn 4 [] true _ = _))
  exact ⟨_, hdrained, rfl, rfl, (bounded_channel_keeps_items hdrained).2.2.1⟩

end AxisBridge
