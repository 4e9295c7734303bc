import AxisBridge.Runtime.MpscQueue

/-! The unified wait: a channel's route, the senders that resolve it, and the waiter that subscribes
to it and drains its inbox. -/
namespace AxisBridge
open List Function

namespace Mpsc

/-! ### What the steps of a push and of the consumer change -/

/-- The value of the push has gone into the head. -/
def Push.In {α : Type*} : Push α → Prop
  | .ready _ | .built _ _ => False
  | _ => True

def MpscAction.ByConsumer {α : Type*} : MpscAction α → Prop
  | .push _ => False
  | _ => True

section
variable {α : Type*} {st st' : MpscState α} {a : MpscAction α} {i j : ℕ}

theorem consumer_frame (hs : MpscStep a st st') (ha : a.ByConsumer) :
    st'.pushes = st.pushes ∧ st'.swapped = st.swapped := by
  cases hs <;> first | exact ⟨rfl, rfl⟩ | cases ha

theorem push_frame (hs : MpscStep (.push i) st st') :
    st'.consumer = st.consumer ∧ st'.popped = st.popped ∧ ∀ j, j ≠ i →
      st'.pushes j = st.pushes j := by
  cases hs <;> exact ⟨rfl, rfl, fun j hj => update_of_ne hj ..⟩

/-- A step of a push appends its value to those that went into the head, or leaves them. -/
theorem push_effect (hs : MpscStep (.push i) st st') :
    (st'.swapped = st.swapped ∧ ((st'.pushes i).In ↔ (st.pushes i).In)) ∨ ∃ node v, st.pushes i =
      .built node v ∧ st'.swapped = st.swapped ++ [(node, v)] ∧ (st'.pushes i).In := by
  cases hs with
  | build hpush | link hpush | unpark hpush => exact .inl ⟨rfl, by simp [hpush, Push.In]⟩
  | @swap _ _ node v hpush => exact .inr ⟨node, v, hpush, rfl, by simp [Push.In]⟩
  | loadWaiter hpush | claim hpush =>
    refine .inl ⟨rfl, ?_⟩
    cases hw : st.waiter <;> simp [hpush, Push.In]

end

/-- Each call of `push` carries its own number. -/
structure Numbered (st : MpscState ℕ) : Prop where
  ready : ∀ i v, st.pushes i = .ready v → v = i
  built : ∀ i n v, st.pushes i = .built n v → v = i
  mem : ∀ i, i ∈ st.swapped.map Prod.snd ↔ (st.pushes i).In
  nodup : (st.swapped.map Prod.snd).Nodup

section
variable {st st' : MpscState ℕ} {a : MpscAction ℕ} {i : ℕ}

theorem Numbered.start : Numbered (.start id) where
  ready := by
    rintro i v ⟨⟩
    rfl
  built := nofun
  mem i := by simp [MpscState.start, Push.In]
  nodup := nodup_nil

theorem Numbered.push_step (hn : Numbered st) (hs : MpscStep (.push i) st st') : Numbered st' := by
  obtain ⟨-, -, hother⟩ := push_frame hs
  have hready : ∀ j v, st'.pushes j = .ready v → v = j := by
    intro j v hj
    by_cases hji : j = i
    · subst hji
      cases hs with
      | loadWaiter hpush | claim hpush =>
        simp only [update_self] at hj
        split at hj <;> cases hj
      | _ => simp at hj
    · exact hn.ready j v (hother j hji ▸ hj)
  have hbuilt : ∀ j n v, st'.pushes j = .built n v → v = j := by
    intro j n v hj
    by_cases hji : j = i
    · subst hji
      cases hs with
      | build hpush =>
        simp only [update_self, Push.built.injEq] at hj
        rw [← hj.2]
        exact hn.ready j _ hpush
      | loadWaiter hpush | claim hpush =>
        simp only [update_self] at hj
        split at hj <;> cases hj
      | _ => simp at hj
    · exact hn.built j n v (hother j hji ▸ hj)
  rcases push_effect hs with ⟨hswapped, hin⟩ | ⟨node, v, hpush, hswapped, hin⟩
  · refine ⟨hready, hbuilt, fun j => ?_, hswapped ▸ hn.nodup⟩
    rw [hswapped, hn.mem j]
    by_cases hji : j = i
    · subst hji
      exact hin.symm
    · rw [hother j hji]
  · obtain rfl := hn.built i node v hpush
    have hmap : st'.swapped.map Prod.snd = st.swapped.map Prod.snd ++ [v] := by simp [hswapped]
    have hnew : v ∉ st.swapped.map Prod.snd := by
      rw [hn.mem v, hpush]
      exact id
    refine ⟨hready, hbuilt, fun j => ?_, ?_⟩
    · rw [hmap, mem_append, hn.mem j, mem_singleton]
      by_cases hji : j = v
      · subst hji
        exact iff_of_true (.inr rfl) hin
      · rw [hother j hji]
        exact or_iff_left hji
    · rw [hmap]
      exact nodup_append.mpr ⟨hn.nodup, nodup_singleton v, by
        rintro x hx y hy rfl
        exact hnew (mem_singleton.mp hy ▸ hx)⟩

theorem Numbered.consumer_step (hn : Numbered st) (hs : MpscStep a st st') (ha : a.ByConsumer) :
    Numbered st' := by
  obtain ⟨hpushes, hswapped⟩ := consumer_frame hs ha
  refine ⟨?_, ?_, ?_, ?_⟩
  · rw [hpushes]
    exact hn.ready
  · rw [hpushes]
    exact hn.built
  · rw [hpushes, hswapped]
    exact hn.mem
  · rw [hswapped]
    exact hn.nodup

end

/-! ### What the consumer has popped and not handed on -/

/-- The value a pop is about to return. -/
def Consumer.transit {α : Type*} : Consumer α → List α
  | .free _ _ v => [v]
  | .reclaim _ (some v) => [v]
  | _ => []

/-- The consumer is inside a blocking pop. -/
def Consumer.Blocking {α : Type*} : Consumer α → Prop
  | .enter (.first _) | .take (.first _) _ | .free (.first _) _ _ | .check (.first _) => True
  | .enter (.again _) | .take (.again _) _ | .free (.again _) _ _ | .check (.again _) => True
  | .publish _ | .park _ | .parked _ | .reclaim _ _ => True
  | _ => False

/-- The consumer is inside a single pop. -/
def Consumer.Popping {α : Type*} : Consumer α → Prop
  | .enter .pop | .take .pop _ | .free .pop _ _ | .check .pop => True
  | _ => False

variable {α : Type*} {st st' : MpscState α} {a : MpscAction α} {base : List α}

theorem Caller.resume_blocking (who : Caller) (r : PopResult α) (hwho : who ≠ .pop) :
    who.resume r = .idle ∨ (who.resume r).Blocking := by
  cases who with
  | pop => exact absurd rfl hwho
  | first timed | again timed => cases r <;> simp [Caller.resume, Consumer.Blocking]

/-- A blocking pop goes on, or it is over. -/
theorem blocking_step (hs : MpscStep a st st') (hblocking : st.consumer.Blocking)
    (ha : a.ByConsumer) (hrunning : st'.consumer ≠ .panicked) :
    st'.consumer = .idle ∨ st'.consumer.Blocking := by
  cases hs with
  | build _ | swap _ | link _ | loadWaiter _ | claim _ | unpark _ => cases ha
  | pop hidle | popBlocking hidle =>
    rw [hidle] at hblocking
    cases hblocking
  | @loadNext _ who henter =>
    rw [henter] at hblocking
    refine .inr ?_
    cases who with
    | pop => cases hblocking
    | first timed | again timed => cases hnext : st.next st.tail <;> trivial
  | @take _ who node v htake hvalue =>
    rw [htake] at hblocking
    cases who with
    | pop => cases hblocking
    | first timed | again timed => exact .inr trivial
  | takeNothing _ _ => exact absurd rfl hrunning
  | @free _ who old v hfree =>
    rw [hfree] at hblocking
    exact who.resume_blocking _ (by rintro rfl; cases hblocking)
  | @checkMoved _ who hcheck hhead | @checkSame _ who hcheck hhead =>
    rw [hcheck] at hblocking
    exact who.resume_blocking _ (by rintro rfl; cases hblocking)
  | expire _ => exact .inl rfl
  | publish _ | park _ _ | parkToken _ _ | wake _ _ | wakeEarly _ => exact .inr trivial
  | @reclaim _ timed answer hreclaim =>
    cases answer with
    | none => exact .inr trivial
    | some v => exact .inl rfl

/-- A single pop goes on, or it answers. -/
theorem popping_step (hs : MpscStep a st st') (hpopping : st.consumer.Popping)
    (ha : a.ByConsumer) (hrunning : st'.consumer ≠ .panicked) :
    (a = .consume ∧ st'.consumer.Popping) ∨ (∃ r, a = .answer r) ∧ st'.consumer = .idle := by
  cases hs with
  | build _ | swap _ | link _ | loadWaiter _ | claim _ | unpark _ => cases ha
  | pop h | popBlocking h | expire h | publish h | park h _ | parkToken h _ | wake h _ | wakeEarly h
  | reclaim h =>
    rw [h] at hpopping
    cases hpopping
  | @loadNext _ who henter =>
    rw [henter] at hpopping
    cases who with
    | pop => exact .inl ⟨rfl, by cases hnext : st.next st.tail <;> trivial⟩
    | first timed | again timed => cases hpopping
  | @take _ who node v htake hvalue =>
    rw [htake] at hpopping
    cases who with
    | pop => exact .inl ⟨rfl, trivial⟩
    | first timed | again timed => cases hpopping
  | takeNothing _ _ => exact absurd rfl hrunning
  | @free _ who old v h | @checkMoved _ who h _ | @checkSame _ who h _ =>
    rw [h] at hpopping
    cases who with
    | pop => exact .inr ⟨⟨_, rfl⟩, rfl⟩
    | first timed | again timed => cases hpopping

/-- What is popped is handed on or about to be returned, and stays so until the pop returns. -/
theorem transit_step (hs : MpscStep a st st') (ha : a.ByConsumer)
    (hflow : base ++ st.consumer.transit = st.popped.map Prod.snd) :
    base ++ st'.consumer.transit = st'.popped.map Prod.snd ∨
      st'.popped = st.popped ∧ st'.consumer = .idle := by
  have hresume : ∀ (who : Caller) (r : PopResult α), (∀ v, r ≠ .value v) →
      (who.resume r).transit = [] := by
    intro who r hr
    cases who <;> cases r <;> first | rfl | exact absurd rfl (hr _)
  cases hs with
  | build _ | swap _ | link _ | loadWaiter _ | claim _ | unpark _ => cases ha
  | pop h | popBlocking h | expire h | publish h | park h _ | parkToken h _ | wake h _ | wakeEarly h
  | takeNothing h _ =>
    rw [h] at hflow
    exact .inl hflow
  | loadNext h =>
    rw [h] at hflow
    refine .inl ?_
    cases hnext : st.next st.tail <;> exact hflow
  | take h hvalue =>
    rw [h] at hflow
    refine .inl ?_
    rw [map_append, ← hflow]
    simp [Consumer.transit]
  | @free _ who old v h =>
    rw [h] at hflow
    cases who with
    | pop | first timed => exact .inr ⟨rfl, rfl⟩
    | again timed => exact .inl hflow
  | @checkMoved _ who h hhead | @checkSame _ who h hhead =>
    rw [h] at hflow
    rw [hresume who _ (by nofun)]
    exact .inl hflow
  | @reclaim _ timed answer h =>
    rw [h] at hflow
    cases answer with
    | none => exact .inl hflow
    | some v => exact .inr ⟨rfl, rfl⟩

end Mpsc

namespace UnifiedWait
open Mpsc

/-- What a handler finds in its list; a channel's messages are numbered. -/
inductive Descriptor
  | channelMsg (msg : ℕ)
  | tick
  deriving DecidableEq

/-- Where the emission of a message is: it has still to look up the route, it pushes to the
subscriber it found there, or it has returned. -/
inductive Emit
  | ready
  | pushing
  | done

/-- Where the waiter's thread is: in its own code, in the subscription (which holds the registry's
lock) between two messages of the backlog or pushing one of them, in the blocking pop of a wait, or
collecting the rest of a batch, between two pops or in one. -/
inductive Waiter
  | idle
  | draining
  | pushing (msg : ℕ)
  | waiting (timed : Bool)
  | collecting
  | popping

def Waiter.Locks : Waiter → Prop
  | .draining | .pushing _ => True
  | _ => False

/-- The route of one channel, the waiter's inbox and thread, and the batches its handler was called
with. -/
structure WaitState where
  inbox : MpscState ℕ
  subscriber : Bool
  pending : List ℕ
  emits : ℕ → Emit
  waiter : Waiter
  batch : List ℕ
  delivered : List (List Descriptor)

def WaitState.start : WaitState where
  inbox := .start id
  subscriber := false
  pending := []
  emits _ := .ready
  waiter := .idle
  batch := []
  delivered := []

inductive Actor
  | sender (msg : ℕ)
  | waiter

/-- One step of a sender or of the waiter, an access to the inbox at a time; `sender` tells whose
each message is, and a sender sends its messages one after another in the order of their numbers.
The lookup of a route is one step, since all it touches is behind the registry's lock. -/
inductive WaitStep (sender : ℕ → ℕ) : Actor → WaitState → WaitState → Prop
  | emitPending {s : WaitState} {i : ℕ} (hready : s.emits i = .ready)
      (hprior : ∀ j, j < i → sender j = sender i → s.emits j = .done) (hfree : ¬s.waiter.Locks)
      (hnone : s.subscriber = false) :
      WaitStep sender (.sender i) s
        { s with pending := s.pending ++ [i], emits := update s.emits i .done }
  | emitRoute {s : WaitState} {i : ℕ} (hready : s.emits i = .ready)
      (hprior : ∀ j, j < i → sender j = sender i → s.emits j = .done) (hfree : ¬s.waiter.Locks)
      (hsome : s.subscriber = true) :
      WaitStep sender (.sender i) s { s with emits := update s.emits i .pushing }
  | emitPush {s : WaitState} {i : ℕ} {inbox : MpscState ℕ} (hpushing : s.emits i = .pushing)
      (hs : MpscStep (.push i) s.inbox inbox) :
      WaitStep sender (.sender i) s { s with inbox }
  | emitted {s : WaitState} {i : ℕ} (hpushing : s.emits i = .pushing)
      (hdone : s.inbox.pushes i = .done) :
      WaitStep sender (.sender i) s { s with emits := update s.emits i .done }
  | subscribe {s : WaitState} (hidle : s.waiter = .idle) (hnone : s.subscriber = false) :
      WaitStep sender .waiter s { s with waiter := .draining }
  | drain {s : WaitState} {i : ℕ} {rest : List ℕ} (hdraining : s.waiter = .draining)
      (hpending : s.pending = i :: rest) :
      WaitStep sender .waiter s { s with pending := rest, waiter := .pushing i }
  | drainPush {s : WaitState} {i : ℕ} {inbox : MpscState ℕ} (hpushing : s.waiter = .pushing i)
      (hs : MpscStep (.push i) s.inbox inbox) :
      WaitStep sender .waiter s { s with inbox }
  | drainPushed {s : WaitState} {i : ℕ} (hpushing : s.waiter = .pushing i)
      (hdone : s.inbox.pushes i = .done) :
      WaitStep sender .waiter s { s with waiter := .draining }
  | subscribed {s : WaitState} (hdraining : s.waiter = .draining) (hnil : s.pending = []) :
      WaitStep sender .waiter s { s with subscriber := true, waiter := .idle }
  | wait {s : WaitState} {timed : Bool} {inbox : MpscState ℕ} (hidle : s.waiter = .idle)
      (hs : MpscStep .consume s.inbox inbox) (hfrom : s.inbox.consumer = .idle)
      (hto : inbox.consumer = .enter (.first timed)) :
      WaitStep sender .waiter s { s with inbox, waiter := .waiting timed }
  | inner {s : WaitState} {a : MpscAction ℕ} {inbox : MpscState ℕ}
      (hs : MpscStep a s.inbox inbox) (ha : a.ByConsumer) (hbusy : s.inbox.consumer ≠ .idle)
      (hstill : inbox.consumer ≠ .idle) :
      WaitStep sender .waiter s { s with inbox }
  | first {s : WaitState} {timed : Bool} {v : ℕ} {inbox : MpscState ℕ}
      (hwaiting : s.waiter = .waiting timed) (hs : MpscStep (.answer (.value v)) s.inbox inbox)
      (hidle : inbox.consumer = .idle) :
      WaitStep sender .waiter s { s with inbox, waiter := .collecting, batch := [v] }
  | firstAgain {s : WaitState} {timed timed' : Bool} {v : ℕ} {inbox : MpscState ℕ}
      (hwaiting : s.waiter = .waiting timed)
        (hreclaim : s.inbox.consumer = .reclaim timed' (some v))
      (hs : MpscStep .consume s.inbox inbox) :
      WaitStep sender .waiter s { s with inbox, waiter := .collecting, batch := [v] }
  | timeout {s : WaitState} {timed : Bool} {inbox : MpscState ℕ}
      (hwaiting : s.waiter = .waiting timed)
      (hpublish : s.inbox.consumer = .publish true) (hs : MpscStep .consume s.inbox inbox)
      (hidle : inbox.consumer = .idle) :
      WaitStep sender .waiter s
        { s with inbox, waiter := .idle, delivered := s.delivered ++ [[.tick]] }
  | collect {s : WaitState} {inbox : MpscState ℕ} (hcollecting : s.waiter = .collecting)
      (hs : MpscStep .consume s.inbox inbox) (hfrom : s.inbox.consumer = .idle)
      (hto : inbox.consumer = .enter .pop) :
      WaitStep sender .waiter s { s with inbox, waiter := .popping }
  | collected {s : WaitState} {v : ℕ} {inbox : MpscState ℕ} (hpopping : s.waiter = .popping)
      (hs : MpscStep (.answer (.value v)) s.inbox inbox) :
      WaitStep sender .waiter s { s with inbox, waiter := .collecting, batch := s.batch ++ [v] }
  | retry {s : WaitState} {inbox : MpscState ℕ} (hpopping : s.waiter = .popping)
      (hs : MpscStep (.answer .inconsistent) s.inbox inbox) :
      WaitStep sender .waiter s { s with inbox, waiter := .collecting }
  | deliver {s : WaitState} {inbox : MpscState ℕ} (hpopping : s.waiter = .popping)
      (hs : MpscStep (.answer .empty) s.inbox inbox) :
      WaitStep sender .waiter s
        { s with
          inbox, waiter := .idle, batch := []
          delivered := s.delivered ++ [s.batch.map .channelMsg] }

def Descriptor.msg : Descriptor → Option ℕ
  | .channelMsg i => some i
  | .tick => none

/-- The messages the handler was called with, in order. -/
def WaitState.messages (s : WaitState) : List ℕ := s.delivered.flatten.filterMap Descriptor.msg

end UnifiedWait

end AxisBridge
