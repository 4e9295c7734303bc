import AxisBridge.Runtime.UnifiedWait

/-! What the unified wait delivers: the messages stand in one line from the moment the channel takes
them, and the handler gets that line from its front. -/
namespace AxisBridge.UnifiedWait
open List Function Mpsc

/-! ### The inbox -/

structure InboxOk (q : MpscState ℕ) : Prop where
  queue : ∃ ahead, MpscInvariant ahead q
  wake : WakeInvariant q
  numbered : Numbered q

section
variable {q q' : MpscState ℕ} {a : MpscAction ℕ}

theorem InboxOk.start : InboxOk (.start id) := ⟨⟨[], .start id⟩, .start id, .start⟩

theorem InboxOk.step (h : InboxOk q) (hs : MpscStep a q q') : InboxOk q' := by
  obtain ⟨ahead, hi⟩ := h.queue
  refine ⟨hi.step hs, h.wake.step hi hs, ?_⟩
  cases a with
  | push i => exact h.numbered.push_step hs
  | consume | answer r => exact h.numbered.consumer_step hs trivial

theorem InboxOk.running (h : InboxOk q) : q.consumer ≠ .panicked := by
  obtain ⟨ahead, hi⟩ := h.queue
  exact hi.running

theorem InboxOk.popped (h : InboxOk q) : q.popped.map Prod.snd <+: q.swapped.map Prod.snd := by
  obtain ⟨ahead, hi⟩ := h.queue
  exact ⟨ahead.map Prod.snd, by rw [← map_append, hi.flow]⟩

end

variable {sender : ℕ → ℕ} {s s' s₁ : WaitState} {who : Actor} {i j : ℕ}

theorem inboxOk_step (h : InboxOk s.inbox) (hs : WaitStep sender who s s') : InboxOk s'.inbox := by
  cases hs with
  | emitPush _ hs | drainPush _ hs | wait _ hs _ _ | inner hs _ _ _ | first _ hs _
  | firstAgain _ _ hs | timeout _ _ hs _ | collect _ hs _ _ | collected _ hs | retry _ hs
  | deliver _ hs => exact h.step hs
  | _ => exact h

/-! ### The waiter's batches -/

/-- The consumer of the inbox is where the waiter's thread is. -/
def Fits : Waiter → Consumer ℕ → Prop
  | .waiting _, c => c.Blocking
  | .popping, c => c.Popping
  | _, c => c = .idle

/-- What was popped is delivered, in the batch, or about to be returned. -/
structure Collects (s : WaitState) : Prop where
  fits : Fits s.waiter s.inbox.consumer
  batch : s.waiter ≠ .collecting → s.waiter ≠ .popping → s.batch = []
  flow : s.messages ++ s.batch ++ s.inbox.consumer.transit = s.inbox.popped.map Prod.snd

theorem Collects.start : Collects .start := ⟨rfl, fun _ _ => rfl, rfl⟩

variable {inbox q q' : MpscState ℕ} {a : MpscAction ℕ}

/-- A step of a push does not concern the consumer. -/
theorem Collects.push_step (h : Collects s)
    (hs : MpscStep (.push i) s.inbox inbox) : Collects { s with inbox } := by
  obtain ⟨hconsumer, hpopped, -⟩ := push_frame hs
  refine ⟨?_, h.batch, ?_⟩
  · have hfits := h.fits
    rwa [← hconsumer] at hfits
  · have hflow := h.flow
    rwa [← hconsumer, ← hpopped] at hflow

theorem transit_of_answer {v : ℕ} (hs : MpscStep (.answer (.value v)) q q') :
    q.consumer.transit = [v] ∧ q'.popped = q.popped := by
  cases hs with
  | free h => exact ⟨by rw [h]; rfl, rfl⟩

/-- A pop that answers without a value returns none. -/
theorem transit_of_none {r : PopResult ℕ} (hs : MpscStep (.answer r) q q')
    (hr : ∀ v, r ≠ .value v) : q.consumer.transit = [] ∧ q'.popped = q.popped := by
  cases hs with
  | free h => exact absurd rfl (hr _)
  | checkMoved h _ | checkSame h _ => exact ⟨by rw [h]; rfl, rfl⟩

theorem idle_of_answer {r : PopResult ℕ} (hok : InboxOk q)
    (hs : MpscStep (.answer r) q q') (hpopping : q.consumer.Popping) : q'.consumer = .idle := by
  rcases popping_step hs hpopping trivial (hok.step hs).running with ⟨hconsume, -⟩ | ⟨-, hidle⟩
  · cases hconsume
  · exact hidle

theorem flatten_msgs (delivered : List (List Descriptor)) (l : List Descriptor) :
    (delivered ++ [l]).flatten.filterMap Descriptor.msg =
      delivered.flatten.filterMap Descriptor.msg ++ l.filterMap Descriptor.msg := by
  simp

theorem filterMap_channelMsg (l : List ℕ) : (l.map .channelMsg).filterMap Descriptor.msg = l := by
  rw [filterMap_map]
  exact filterMap_some

/-- A step inside a pop goes on with the same pop. -/
theorem Collects.inner (h : Collects s) (hok : InboxOk s.inbox) (hs : MpscStep a s.inbox inbox)
    (ha : a.ByConsumer) (hbusy : s.inbox.consumer ≠ .idle) (hstill : inbox.consumer ≠ .idle) :
    Collects { s with inbox } := by
  have hrunning := (hok.step hs).running
  refine ⟨?_, h.batch, ?_⟩
  · have hfits := h.fits
    simp only
    cases hw : s.waiter with
    | waiting timed =>
      rw [hw] at hfits
      exact (blocking_step hs hfits ha hrunning).resolve_left hstill
    | popping =>
      rw [hw] at hfits
      rcases popping_step hs hfits ha hrunning with ⟨-, hpopping⟩ | ⟨-, hidle⟩
      · exact hpopping
      · exact absurd hidle hstill
    | idle | draining | pushing msg | collecting =>
      rw [hw] at hfits
      exact absurd hfits hbusy
  · exact (transit_step hs ha h.flow).resolve_right fun hidle => hstill hidle.2

/-- The waiter enters a pop. -/
theorem Collects.enter (h : Collects s) (hs : MpscStep .consume s.inbox inbox)
    (hstill : inbox.consumer ≠ .idle) :
    s.messages ++ s.batch ++ inbox.consumer.transit = inbox.popped.map Prod.snd :=
  (transit_step hs trivial h.flow).resolve_right fun hidle => hstill hidle.2

theorem collects_step (h : Collects s) (hok : InboxOk s.inbox) (hs : WaitStep sender who s s') :
    Collects s' := by
  have hflow := h.flow
  have hfits := h.fits
  cases hs with
  | emitPending _ _ _ _ | emitRoute _ _ _ _ | emitted _ _ => exact ⟨h.fits, h.batch, h.flow⟩
  | emitPush _ hs | drainPush _ hs => exact h.push_step hs
  | subscribe hw _ | drain hw _ | drainPushed hw _ | subscribed hw _ =>
    rw [hw] at hfits
    have hbatch := h.batch (by simp [hw]) (by simp [hw])
    exact ⟨hfits, fun _ _ => hbatch, h.flow⟩
  | wait hw hs hfrom hto =>
    have hbatch := h.batch (by simp [hw]) (by simp [hw])
    refine ⟨?_, fun _ _ => hbatch, h.enter hs (by simp [hto])⟩
    simp only [hto]
    trivial
  | inner hs ha hbusy hstill => exact h.inner hok hs ha hbusy hstill
  | @first _ timed v inbox hw hs hidle =>
    have hbatch := h.batch (by simp [hw]) (by simp [hw])
    obtain ⟨htransit, hpopped⟩ := transit_of_answer hs
    rw [hbatch, append_nil, htransit, ← hpopped] at hflow
    refine ⟨hidle, fun hne _ => absurd rfl hne, ?_⟩
    simp only [hidle, Consumer.transit, append_nil]
    exact hflow
  | @firstAgain _ timed timed' v inbox hw hreclaim hs =>
    have hbatch := h.batch (by simp [hw]) (by simp [hw])
    have hreturn : inbox.consumer = .idle ∧ inbox.popped = s.inbox.popped := by
      cases hs with
      | reclaim h =>
        rw [h] at hreclaim
        cases hreclaim
        exact ⟨rfl, rfl⟩
      | _ => simp_all
    rw [hbatch, append_nil, hreclaim, ← hreturn.2] at hflow
    refine ⟨hreturn.1, fun hne _ => absurd rfl hne, ?_⟩
    simp only [hreturn.1, Consumer.transit, append_nil]
    exact hflow
  | @timeout _ timed inbox hw hpublish hs hidle =>
    have hbatch := h.batch (by simp [hw]) (by simp [hw])
    have hpopped : inbox.popped = s.inbox.popped := by
      cases hs <;> simp_all
    rw [hpublish, ← hpopped] at hflow
    refine ⟨hidle, fun _ _ => hbatch, ?_⟩
    have htick : [Descriptor.tick].filterMap Descriptor.msg = [] := rfl
    simp only [Consumer.transit, append_nil] at hflow
    simp only [WaitState.messages, flatten_msgs, htick, append_nil, hidle, Consumer.transit]
    exact hflow
  | collect hw hs hfrom hto =>
    refine ⟨?_, fun _ hne => absurd rfl hne, h.enter hs (by simp [hto])⟩
    simp only [hto]
    trivial
  | @collected _ v inbox hw hs =>
    rw [hw] at hfits
    obtain ⟨htransit, hpopped⟩ := transit_of_answer hs
    have hidle := idle_of_answer hok hs hfits
    rw [htransit, ← hpopped] at hflow
    refine ⟨hidle, fun hne _ => absurd rfl hne, ?_⟩
    simp only [hidle, Consumer.transit, append_nil, WaitState.messages]
    rw [← append_assoc]
    exact hflow
  | @retry _ inbox hw hs =>
    rw [hw] at hfits
    obtain ⟨htransit, hpopped⟩ := transit_of_none hs (by simp)
    have hidle := idle_of_answer hok hs hfits
    rw [htransit, ← hpopped] at hflow
    refine ⟨hidle, fun hne _ => absurd rfl hne, ?_⟩
    simp only [hidle, Consumer.transit]
    exact hflow
  | @deliver _ inbox hw hs =>
    rw [hw] at hfits
    obtain ⟨htransit, hpopped⟩ := transit_of_none hs (by simp)
    have hidle := idle_of_answer hok hs hfits
    rw [htransit, ← hpopped] at hflow
    refine ⟨hidle, fun _ _ => rfl, ?_⟩
    simp only [hidle, Consumer.transit, append_nil, WaitState.messages, flatten_msgs,
      filterMap_channelMsg] at hflow ⊢
    exact hflow

/-! ### The line of messages -/

/-- Where the channel has each message. -/
structure Routed (sender : ℕ → ℕ) (s : WaitState) : Prop where
  ready : ∀ i, s.emits i = .ready → s.inbox.pushes i = .ready i
  route : ∀ i, s.emits i = .pushing → s.subscriber = true
  done : ∀ i, s.emits i = .done → i ∈ s.pending ∨ s.waiter = .pushing i ∨ s.inbox.pushes i = .done
  pending : ∀ i ∈ s.pending, s.emits i = .done ∧ s.inbox.pushes i = .ready i ∧ s.waiter ≠ .pushing i
  held : ∀ i, s.waiter = .pushing i → s.emits i = .done
  nodup : s.pending.Nodup
  subscribed : s.subscriber = true → s.pending = [] ∧ ¬s.waiter.Locks
  prior : ∀ i, s.emits i ≠ .ready → ∀ j, j < i → sender j = sender i → s.emits j = .done

theorem Routed.start (sender : ℕ → ℕ) : Routed sender .start where
  ready _ _ := rfl
  route := nofun
  done := nofun
  pending := nofun
  held := nofun
  nodup := nodup_nil
  subscribed := nofun
  prior _ hne := absurd rfl hne

/-- A step of the consumer does not concern the route. -/
theorem Routed.consumer_step (h : Routed sender s)
    {waiter : Waiter} {batch : List ℕ} {delivered : List (List Descriptor)}
    (hs : MpscStep a s.inbox inbox) (ha : a.ByConsumer) (hfree : ¬s.waiter.Locks)
    (hfree' : ¬waiter.Locks) : Routed sender { s with inbox, waiter, batch, delivered } := by
  have hpushes := (consumer_frame hs ha).1
  have hold : ∀ i, s.waiter ≠ .pushing i := by
    intro i hw
    exact hfree (by rw [hw]; trivial)
  have hnew : ∀ i, waiter ≠ .pushing i := by
    rintro _ rfl
    exact hfree' trivial
  refine ⟨?_, h.route, ?_, ?_, fun i hw => absurd hw (hnew i), h.nodup,
    fun hsome => ⟨(h.subscribed hsome).1, hfree'⟩, h.prior⟩
  · intro i hi
    rw [hpushes]
    exact h.ready i hi
  · intro i hi
    rw [hpushes]
    exact (h.done i hi).imp_right fun hrest => .inr (hrest.resolve_left (hold i))
  · intro i hi
    rw [hpushes]
    exact ⟨(h.pending i hi).1, (h.pending i hi).2.1, hnew i⟩

/-- A step of the push of a message that the route let through, or of the backlog. -/
theorem Routed.push_step (h : Routed sender s) (hs : MpscStep (.push i) s.inbox inbox)
    (hi : s.emits i = .pushing ∨ s.waiter = .pushing i) : Routed sender { s with inbox } := by
  obtain ⟨-, -, hother⟩ := push_frame hs
  have hnot : ∀ j ∈ s.pending, j ≠ i := by
    rintro j hj rfl
    obtain ⟨hdone, -, hw⟩ := h.pending j hj
    rcases hi with hi | hi
    · rw [hdone] at hi
      cases hi
    · exact hw hi
  refine ⟨?_, h.route, ?_, ?_, h.held, h.nodup, h.subscribed, h.prior⟩
  · intro j hj
    have hji : j ≠ i := by
      rintro rfl
      rcases hi with hi | hi
      · rw [hj] at hi
        cases hi
      · have hdone := h.held j hi
        rw [hj] at hdone
        cases hdone
    exact (hother j hji).trans (h.ready j hj)
  · intro j hj
    by_cases hji : j = i
    · subst hji
      rcases hi with hi | hi
      · rw [hj] at hi
        cases hi
      · exact .inr (.inl hi)
    · exact (h.done j hj).imp_right (.imp_right (hother j hji).trans)
  · intro j hj
    obtain ⟨hdone, hready, hw⟩ := h.pending j hj
    exact ⟨hdone, (hother j (hnot j hj)).trans hready, hw⟩

/-- The emission of a message goes on, the earlier ones of its sender being done. -/
theorem Routed.prior_update (h : Routed sender s) (hnot : s.emits i ≠ .done)
    (hprior : ∀ j, j < i → sender j = sender i → s.emits j = .done) (e : Emit) (k : ℕ)
    (hk : update s.emits i e k ≠ .ready) (j : ℕ) (hj : j < k) (hsender : sender j = sender k) :
    update s.emits i e j = .done := by
  have hdone : s.emits j = .done := by
    by_cases hki : k = i
    · subst hki
      exact hprior j hj hsender
    · rw [update_of_ne hki] at hk
      exact h.prior k hk j hj hsender
  have hji : j ≠ i := by
    rintro rfl
    exact hnot hdone
  rw [update_of_ne hji, hdone]

theorem unheld (hfree : ¬s.waiter.Locks) (j : ℕ) : s.waiter ≠ .pushing j := by
  intro hw
  exact hfree (by rw [hw]; trivial)

theorem emits_of_update {p q : Emit} (hne : p ≠ q) (hj : update s.emits i p j = q) :
    s.emits j = q := by
  by_cases hji : j = i
  · rw [hji, update_self] at hj
    exact absurd hj hne
  · rwa [update_of_ne hji] at hj

theorem Routed.emit_route (h : Routed sender s) (hready : s.emits i = .ready)
    (hprior : ∀ j, j < i → sender j = sender i → s.emits j = .done) (hfree : ¬s.waiter.Locks)
    (hsome : s.subscriber = true) :
    Routed sender { s with emits := update s.emits i .pushing } := by
  have hnil := (h.subscribed hsome).1
  refine ⟨?_, fun _ _ => hsome, ?_, ?_, fun j hw => absurd hw (unheld hfree j), h.nodup,
    h.subscribed, h.prior_update (by rw [hready]; nofun) hprior .pushing⟩
  · exact fun j hj => h.ready j (emits_of_update (by nofun) hj)
  · exact fun j hj => h.done j (emits_of_update (by nofun) hj)
  · intro j hj
    simp only [hnil] at hj
    cases hj

theorem Routed.emit_pending (h : Routed sender s) (hready : s.emits i = .ready)
    (hprior : ∀ j, j < i → sender j = sender i → s.emits j = .done) (hfree : ¬s.waiter.Locks)
    (hnone : s.subscriber = false) :
    Routed sender { s with pending := s.pending ++ [i], emits := update s.emits i .done } := by
  have hpending : ∀ j ∈ s.pending, j ≠ i := by
    rintro j hj rfl
    have hdone := (h.pending j hj).1
    rw [hready] at hdone
    cases hdone
  refine ⟨?_, ?_, ?_, ?_, fun j hw => absurd hw (unheld hfree j), ?_,
    fun hsome => absurd (hnone.symm.trans hsome) nofun,
    h.prior_update (by rw [hready]; nofun) hprior .done⟩
  · exact fun j hj => h.ready j (emits_of_update (by nofun) hj)
  · exact fun j hj => h.route j (emits_of_update (by nofun) hj)
  · intro j hj
    by_cases hji : j = i
    · exact .inl (mem_append_right _ (mem_singleton.mpr hji))
    · exact (h.done j (by simpa [hji] using hj)).imp_left (mem_append_left _)
  · intro j hj
    rcases mem_append.mp hj with hj | hj
    · obtain ⟨hdone, hpush, hw⟩ := h.pending j hj
      exact ⟨(update_of_ne (hpending j hj) ..).trans hdone, hpush, hw⟩
    · obtain rfl := mem_singleton.mp hj
      exact ⟨update_self .., h.ready j hready, unheld hfree j⟩
  · refine nodup_append.mpr ⟨h.nodup, nodup_singleton i, ?_⟩
    intro j hj k hk
    rw [mem_singleton.mp hk]
    exact hpending j hj

theorem routed_step (h : Routed sender s) (hc : Collects s) (hs : WaitStep sender who s s') :
    Routed sender s' := by
  have hfits := hc.fits
  cases hs with
  | emitPending hready hprior hfree hnone => exact h.emit_pending hready hprior hfree hnone
  | emitRoute hready hprior hfree hsome => exact h.emit_route hready hprior hfree hsome
  | emitPush hpushing hs => exact h.push_step hs (.inl hpushing)
  | drainPush hpushing hs => exact h.push_step hs (.inr hpushing)
  | @emitted _ i hpushing hdone =>
    have hprior :=
      h.prior_update (by rw [hpushing]; nofun) (h.prior i (by rw [hpushing]; nofun)) .done
    have hne : ∀ j, s.emits j ≠ .pushing → j ≠ i := by
      rintro j hj rfl
      exact hj hpushing
    refine ⟨?_, ?_, ?_, ?_, ?_, h.nodup, h.subscribed, hprior⟩
    · exact fun j hj => h.ready j (emits_of_update (by nofun) hj)
    · exact fun j hj => h.route j (emits_of_update (by nofun) hj)
    · intro j hj
      by_cases hji : j = i
      · subst hji
        exact .inr (.inr hdone)
      · exact h.done j (by simpa [hji] using hj)
    · intro j hj
      obtain ⟨hdone, hpush, hw⟩ := h.pending j hj
      exact ⟨(update_of_ne (hne j (by rw [hdone]; nofun)) ..).trans hdone, hpush, hw⟩
    · intro j hw
      have hdone := h.held j hw
      exact (update_of_ne (hne j (by rw [hdone]; nofun)) ..).trans hdone
  | subscribe hw hnone =>
    refine ⟨h.ready, h.route, ?_, ?_, nofun, h.nodup, ?_, h.prior⟩
    · intro j hj
      exact (h.done j hj).imp_right fun hrest => .inr (hrest.resolve_left (by rw [hw]; nofun))
    · intro j hj
      exact ⟨(h.pending j hj).1, (h.pending j hj).2.1, nofun⟩
    · intro hsome
      exact absurd (hnone.symm.trans hsome) nofun
  | @drain _ i rest hw hpending =>
    have hnodup := h.nodup
    rw [hpending] at hnodup
    have hmem : ∀ j ∈ rest, j ∈ s.pending := by
      intro j hj
      rw [hpending]
      exact mem_cons_of_mem i hj
    refine ⟨h.ready, h.route, ?_, ?_, ?_, (nodup_cons.mp hnodup).2, ?_, h.prior⟩
    · intro j hj
      rcases h.done j hj with hj | hj | hj
      · rw [hpending] at hj
        rcases mem_cons.mp hj with rfl | hj
        · exact .inr (.inl rfl)
        · exact .inl hj
      · rw [hw] at hj
        cases hj
      · exact .inr (.inr hj)
    · intro j hj
      refine ⟨(h.pending j (hmem j hj)).1, (h.pending j (hmem j hj)).2.1, ?_⟩
      rintro ⟨⟩
      exact (nodup_cons.mp hnodup).1 hj
    · rintro j ⟨⟩
      exact (h.pending i (by rw [hpending]; exact mem_cons_self)).1
    · intro hsome
      have hnil := (h.subscribed hsome).1
      rw [hpending] at hnil
      cases hnil
  | @drainPushed _ i hw hdone =>
    refine ⟨h.ready, h.route, ?_, ?_, nofun, h.nodup, ?_, h.prior⟩
    · intro j hj
      refine (h.done j hj).imp_right fun hrest => .inr (hrest.elim (fun hheld => ?_) id)
      rw [hw] at hheld
      cases hheld
      exact hdone
    · intro j hj
      exact ⟨(h.pending j hj).1, (h.pending j hj).2.1, nofun⟩
    · intro hsome
      exact absurd (by rw [hw]; trivial) (h.subscribed hsome).2
  | subscribed hw hnil =>
    refine ⟨h.ready, fun _ _ => rfl, ?_, ?_, nofun, h.nodup, fun _ => ⟨hnil, id⟩, h.prior⟩
    · intro j hj
      exact (h.done j hj).imp_right fun hrest => .inr (hrest.resolve_left (by rw [hw]; nofun))
    · intro j hj
      exact ⟨(h.pending j hj).1, (h.pending j hj).2.1, nofun⟩
  | wait hw hs _ _ | collect hw hs _ _ | timeout hw _ hs _ | firstAgain hw _ hs | first hw hs _
  | collected hw hs | retry hw hs | deliver hw hs =>
    exact h.consumer_step hs trivial (by rw [hw]; exact id) id
  | inner hs ha hbusy _ =>
    have hfree : ¬s.waiter.Locks := by
      intro hlocks
      cases hw : s.waiter with
      | draining | pushing msg =>
        rw [hw] at hfits
        exact hbusy hfits
      | idle | waiting timed | collecting | popping =>
        rw [hw] at hlocks
        exact hlocks
    exact h.consumer_step hs ha hfree hfree

structure WaitInv (sender : ℕ → ℕ) (s : WaitState) : Prop where
  inbox : InboxOk s.inbox
  collects : Collects s
  routed : Routed sender s

theorem WaitInv.start (sender : ℕ → ℕ) : WaitInv sender .start := ⟨.start, .start, .start sender⟩

theorem WaitInv.step (h : WaitInv sender s) (hs : WaitStep sender who s s') : WaitInv sender s' :=
  ⟨inboxOk_step h.inbox hs, collects_step h.collects h.inbox hs, routed_step h.routed h.collects hs⟩

/-- The messages that went into the inbox's head. -/
def WaitState.entered (s : WaitState) : List ℕ := s.inbox.swapped.map Prod.snd

/-- The message of the backlog that the subscription is about to push. -/
def heldBack (waiter : Waiter) (entered : List ℕ) : List ℕ :=
  match waiter with
  | .pushing i => if i ∈ entered then [] else [i]
  | _ => []

/-- The messages the channel has taken, in the order it will deliver them. -/
def WaitState.line (s : WaitState) : List ℕ :=
  s.entered ++ (heldBack s.waiter s.entered ++ s.pending)

open WaitState (line entered messages)

theorem mem_line : i ∈ s.line ↔ i ∈ s.entered ∨ s.waiter = .pushing i ∨ i ∈ s.pending := by
  rw [line, mem_append, mem_append]
  by_cases hin : i ∈ s.entered
  · simp [hin]
  · have hheld : i ∈ heldBack s.waiter s.entered ↔ s.waiter = .pushing i := by
      cases hw : s.waiter with
      | pushing j =>
        by_cases hj : j ∈ s.entered
        · have hne : j ≠ i := by
            rintro rfl
            exact hin hj
          simp [heldBack, hj, hne]
        · simp [heldBack, hj, eq_comm]
      | _ => simp [heldBack]
    rw [hheld]

theorem heldBack_free {waiter : Waiter} (hfree : ¬waiter.Locks) (entered : List ℕ) :
    heldBack waiter entered = [] := by
  cases waiter with
  | pushing i => exact absurd trivial hfree
  | _ => rfl

theorem entered_of_consumer (hs : MpscStep a q q')
    (ha : a.ByConsumer) : q'.swapped.map Prod.snd = q.swapped.map Prod.snd := by
  rw [(consumer_frame hs ha).2]

section
variable (h : WaitInv sender s)

include h

theorem WaitInv.mem_entered : i ∈ s.entered ↔ (s.inbox.pushes i).In :=
  h.inbox.numbered.mem i

theorem WaitInv.done_mem_line (hdone : s.emits i = .done) : i ∈ s.line := by
  rw [mem_line, h.mem_entered]
  rcases h.routed.done i hdone with hi | hi | hi
  · exact .inr (.inr hi)
  · exact .inr (.inl hi)
  · rw [hi]
    exact .inl trivial

theorem WaitInv.not_mem_line (hready : s.emits i = .ready) : i ∉ s.line := by
  rw [mem_line, h.mem_entered, h.routed.ready i hready]
  rintro (hin | hw | hi)
  · exact hin
  · have hdone := h.routed.held i hw
    rw [hready] at hdone
    cases hdone
  · have hdone := (h.routed.pending i hi).1
    rw [hready] at hdone
    cases hdone

theorem WaitInv.line_nodup : s.line.Nodup := by
  have hpending : ∀ i ∈ s.pending, i ∉ s.entered ∧ s.waiter ≠ .pushing i := by
    intro i hi
    obtain ⟨-, hpush, hw⟩ := h.routed.pending i hi
    rw [h.mem_entered, hpush]
    exact ⟨id, hw⟩
  have hheld : (heldBack s.waiter s.entered).Nodup ∧
      ∀ i ∈ heldBack s.waiter s.entered, i ∉ s.entered ∧ s.waiter = .pushing i := by
    cases hw : s.waiter with
    | pushing j =>
      by_cases hj : j ∈ s.entered
      · simp [heldBack, hj]
      · simp [heldBack, hj]
    | _ => simp [heldBack]
  refine nodup_append.mpr ⟨h.inbox.numbered.nodup, nodup_append.mpr
    ⟨hheld.1, h.routed.nodup, ?_⟩, ?_⟩
  · rintro i hi j hj rfl
    exact (hpending i hj).2 (hheld.2 i hi).2
  · rintro i hi j hj rfl
    rcases mem_append.mp hj with hj | hj
    · exact (hheld.2 i hj).1 hi
    · exact (hpending i hj).1 hi

/-- What is delivered, batched or on its way out is the front of the line. -/
theorem WaitInv.messages_front : s.messages <+: s.line := by
  have hpopped := h.inbox.popped
  rw [← h.collects.flow] at hpopped
  have hentered : s.messages <+: s.entered :=
    ((prefix_append _ _).trans (prefix_append _ _)).trans hpopped
  exact hentered.trans (prefix_append _ _)

/-- A step appends a message to the line, the earlier ones of its sender being done, or leaves
it. -/
theorem WaitInv.line_step (hs : WaitStep sender who s s') :
    s'.line = s.line ∨ ∃ i, s'.line = s.line ++ [i] ∧ s.emits i ≠ .done ∧
      ∀ j, j < i → sender j = sender i → s.emits j = .done := by
  have hpush : ∀ {i : ℕ} {inbox : MpscState ℕ}, MpscStep (.push i) s.inbox inbox →
      inbox.swapped.map Prod.snd = s.entered ∨
        inbox.swapped.map Prod.snd = s.entered ++ [i] ∧ i ∉ s.entered := by
    intro i inbox hs
    rcases push_effect hs with ⟨hswapped, -⟩ | ⟨node, v, hbuilt, hswapped, -⟩
    · exact .inl (by rw [hswapped]; rfl)
    · obtain rfl := h.inbox.numbered.built i node v hbuilt
      refine .inr ⟨by rw [hswapped, map_append]; rfl, ?_⟩
      rw [h.mem_entered, hbuilt]
      exact id
  cases hs with
  | @emitPending _ i hready hprior hfree hnone =>
    refine .inr ⟨i, ?_, by rw [hready]; nofun, hprior⟩
    simp [line, entered]
  | emitRoute _ _ _ _ | emitted _ _ => exact .inl rfl
  | @emitPush _ i inbox hpushing hs =>
    obtain ⟨hnil, hfree⟩ := h.routed.subscribed (h.routed.route i hpushing)
    have hline : s.line = s.entered := by
      rw [line, heldBack_free hfree, hnil, append_nil, append_nil]
    have hline' : line { s with inbox } = inbox.swapped.map Prod.snd := by
      simp [line, entered, heldBack_free hfree, hnil]
    rcases hpush hs with hsame | ⟨hnew, -⟩
    · exact .inl (by rw [hline, hline', hsame])
    · refine .inr ⟨i, by rw [hline, hline', hnew], by rw [hpushing]; nofun, ?_⟩
      exact h.routed.prior i (by rw [hpushing]; nofun)
  | @drainPush _ i inbox hpushing hs =>
    refine .inl ?_
    rcases hpush hs with hsame | ⟨hnew, hnot⟩
    · simp only [line, entered] at hsame ⊢
      rw [hsame]
    · simp only [line, entered] at hnew hnot ⊢
      simp [hnew, hpushing, heldBack, hnot]
  | subscribe hw _ | subscribed hw _ =>
    refine .inl ?_
    simp only [line, entered, hw, heldBack]
  | @drain _ i rest hw hpending =>
    have hnot : i ∉ s.entered := by
      rw [h.mem_entered, (h.routed.pending i (by simp [hpending])).2.1]
      exact id
    have hheld : heldBack (.pushing i) s.entered = [i] := if_neg hnot
    have hline : s.line = s.entered ++ (heldBack (.pushing i) s.entered ++ rest) := by
      rw [hheld, line, hw, hpending]
      rfl
    exact .inl hline.symm
  | @drainPushed _ i hw hdone =>
    have hin : i ∈ s.entered := by
      rw [h.mem_entered, hdone]
      trivial
    have hheld : heldBack (.pushing i) s.entered = [] := if_pos hin
    have hline : s.line = s.entered ++ ([] ++ s.pending) := by
      rw [line, hw, hheld]
    exact .inl hline.symm
  | wait hw hs _ _ | collect hw hs _ _ | timeout hw _ hs _ | firstAgain hw _ hs | first hw hs _
  | collected hw hs | retry hw hs | deliver hw hs =>
    refine .inl ?_
    simp only [line, entered, entered_of_consumer hs trivial, hw, heldBack]
  | inner hs ha _ _ =>
    refine .inl ?_
    simp only [line, entered, entered_of_consumer hs ha]

end

/-- The messages of one sender stand in the line as it sent them. -/
def Ordered (sender : ℕ → ℕ) (s : WaitState) : Prop :=
  s.line.Pairwise fun i j => sender i = sender j → i < j

theorem WaitInv.ordered_step (h : WaitInv sender s) (hs : WaitStep sender who s s')
    (hordered : Ordered sender s) : Ordered sender s' := by
  rcases h.line_step hs with hsame | ⟨i, hnew, hnot, hprior⟩
  · rwa [Ordered, hsame]
  · have hnodup := (h.step hs).line_nodup
    rw [hnew] at hnodup
    rw [Ordered, hnew]
    refine pairwise_append.mpr ⟨hordered, pairwise_singleton _ i, ?_⟩
    intro j hj k hk hsender
    obtain rfl := mem_singleton.mp hk
    have hjk : j ≠ k := by
      rintro rfl
      exact disjoint_of_nodup_append hnodup hj hk
    by_contra hle
    -- a later message of the same sender would have had to wait for this one
    have hlt : k < j := by omega
    have hbegun : s.emits j ≠ .ready := fun hready => h.not_mem_line hready hj
    exact hnot (h.routed.prior j hbegun k hlt hsender.symm)

theorem line_grows (h : WaitInv sender s) (hrun : Reaches (WaitStep sender) anyAction s s') :
    WaitInv sender s' ∧ s.line <+: s'.line := by
  induction hrun with
  | refl => exact ⟨h, prefix_rfl⟩
  | tail _ hstep ih =>
    obtain ⟨hinv, hprefix⟩ := ih
    obtain ⟨who, -, hs⟩ := hstep
    refine ⟨hinv.step hs, ?_⟩
    rcases hinv.line_step hs with hsame | ⟨i, hnew, -⟩
    · rwa [hsame]
    · rw [hnew]
      exact hprefix.trans (prefix_append _ _)

theorem ordered_of_reaches (hrun : Reaches (WaitStep sender) anyAction .start s) :
    Ordered sender s := by
  have hboth : WaitInv sender s ∧ Ordered sender s :=
    hrun.invariant (I := fun s => WaitInv sender s ∧ Ordered sender s)
      (fun ⟨h, hordered⟩ _ hs => ⟨h.step hs, h.ordered_step hs hordered⟩)
      ⟨.start sender, Pairwise.nil⟩
  exact hboth.2

/-- A message whose emission had returned before another's began stands before it. -/
theorem WaitInv.before (h : WaitInv sender s₁) (hrun : Reaches (WaitStep sender) anyAction s₁ s)
    (hdone : s₁.emits i = .done) (hready : s₁.emits j = .ready) {front back : List ℕ}
    (hmessages : s.messages = front ++ j :: back) : i ∈ front := by
  obtain ⟨hinv, later, hline⟩ := line_grows h hrun
  obtain ⟨rest, hfront⟩ := hinv.messages_front
  have hi := h.done_mem_line hdone
  have hj := h.not_mem_line hready
  rw [hmessages, append_assoc, cons_append] at hfront
  have heq : front ++ (j :: (back ++ rest)) = s₁.line ++ later := hfront.trans hline.symm
  rcases append_eq_append_iff.mp heq with ⟨as, has, htail⟩ | ⟨cs, hcs, -⟩
  · cases as with
    | nil =>
      rw [append_nil] at has
      exact has ▸ hi
    | cons k as =>
      rw [cons_append, List.cons.injEq] at htail
      exact absurd (has ▸ htail.1 ▸ mem_append_right _ mem_cons_self) hj
  · rw [hcs]
    exact mem_append_left _ hi

end AxisBridge.UnifiedWait
