import AxisBridge.Runtime.UnifiedDelivery

/-! The waiter, left alone by the senders, delivers everything that was sent. -/
namespace AxisBridge
open List

namespace Mpsc

/-- How far the consumer is from its next pop, when so many values are left. -/
def stage {α : Type*} (left : ℕ) : Consumer α → ℕ
  | .idle => 3
  | .enter _ => 2
  | .take _ _ => 1
  | .free _ _ _ => 5
  | .check _ => if left = 0 then 1 else 4
  | .publish _ | .park _ | .parked _ => 4
  | .reclaim _ none => 3
  | .reclaim _ (some _) => 4
  | .panicked => 0

def left {α : Type*} (q : MpscState α) : ℕ := q.swapped.length - q.popped.length

def rank {α : Type*} (q : MpscState α) : ℕ := 6 * left q + stage (left q) q.consumer

/-- No push has begun and not returned. -/
def Still {α : Type*} (q : MpscState α) : Prop :=
  ∀ i, (∃ v, q.pushes i = .ready v) ∨ q.pushes i = .done

variable {α : Type*} {q q' : MpscState α} {ahead : List (ℕ × α)} {a : MpscAction α}

theorem MpscInvariant.left_eq (hi : MpscInvariant ahead q) : left q = ahead.length := by
  have hlen := congrArg List.length hi.flow
  rw [length_append] at hlen
  simp only [left]
  omega

theorem Still.unlinked (h : Still q) (i node prev : ℕ) : q.pushes i ≠ .swapped node prev := by
  rcases h i with ⟨v, hi⟩ | hi <;> simp [hi]

theorem Still.not_waking (h : Still q) (i : ℕ) : ¬(q.pushes i).Waking := by
  rcases h i with ⟨v, hi⟩ | hi <;> simp [hi, Push.Waking]

/-- With something left the tail has a next node. -/
theorem MpscInvariant.next_tail (hi : MpscInvariant ahead q) (hstill : Still q)
    (hleft : q.popped ≠ q.swapped) : q.next q.tail ≠ none :=
  fun hnone => hleft (hi.popped_of_unlinked hnone hstill.unlinked)

/-- A sleeping consumer with something left has a token. -/
theorem WakeInvariant.token (hw : WakeInvariant q) (hi : MpscInvariant ahead q) (hstill : Still q)
    (hleft : q.popped ≠ q.swapped) (hasleep : q.consumer.Asleep) : q.token = true := by
  rcases hw.pending hasleep (hi.next_tail hstill hleft) with htoken | ⟨i, hwaking⟩
  · exact htoken
  · exact absurd hwaking (hstill.not_waking i)

/-- Each step of the consumer brings it nearer, unless there is nothing left to pop. -/
theorem rank_step (hi : MpscInvariant ahead q) (hw : WakeInvariant q) (hstill : Still q)
    (hs : MpscStep a q q') (ha : a.ByConsumer) :
    rank q' < rank q ∨ q.popped = q.swapped ∧ q.consumer.transit = [] ∧
      (a = .answer .empty ∨ q.consumer.Blocking) := by
  have hleft : q.popped ≠ q.swapped → left q ≠ 0 := by
    intro hne hzero
    rw [hi.left_eq] at hzero
    have hflow := hi.flow
    rw [length_eq_zero_iff.mp hzero, append_nil] at hflow
    exact hne hflow
  have hsame : ∀ {c : Consumer α} {freed stale : List ℕ} {token waiter : Bool},
      stage (left q) c < stage (left q) q.consumer →
        rank { q with consumer := c, freed, stale, token, waiter } < rank q := by
    intro c freed stale token waiter h
    simp only [rank, left] at h ⊢
    omega
  cases hs with
  | build _ | swap _ | link _ | loadWaiter _ | claim _ | unpark _ => cases ha
  | pop h | popBlocking h | expire h | publish h | parkToken h _ | wake h _ | wakeEarly h =>
    refine .inl (hsame ?_)
    rw [h]
    simp [stage]
  | @loadNext _ who h =>
    refine .inl (hsame ?_)
    rw [h]
    cases hnext : q.next q.tail with
    | none =>
      have hzero : left q = 0 := by
        by_contra hne
        refine hi.next_tail hstill (fun heq => hne ?_) hnext
        rw [left, heq, Nat.sub_self]
      simp [stage, hzero]
    | some node => simp [stage]
  | @take _ who node v h hvalue =>
    obtain ⟨w, rest, hahead, -⟩ := hi.taken h
    have hlen : left q = rest.length + 1 := by rw [hi.left_eq, hahead, length_cons]
    refine .inl ?_
    simp only [rank, left, length_append, length_singleton, h, stage] at hlen ⊢
    omega
  | takeNothing h hnone =>
    obtain ⟨w, rest, -, hsome⟩ := hi.taken h
    rw [hnone] at hsome
    cases hsome
  | @free _ who old v h =>
    refine .inl (hsame ?_)
    rw [h]
    cases who <;> simp [Caller.resume, stage]
  | @checkMoved _ who h hhead =>
    have hne := hleft fun heq => hhead (hi.popped_eq_iff.mpr heq)
    refine .inl (hsame ?_)
    rw [h]
    cases who <;> simp [Caller.resume, stage, hne]
  | @checkSame _ who h hhead =>
    refine .inr ⟨hi.popped_eq_iff.mp hhead, by rw [h]; rfl, ?_⟩
    exact .inl rfl
  | @park _ timed h htoken =>
    refine .inr ⟨?_, by rw [h]; rfl, .inr (by rw [h]; trivial)⟩
    by_contra hne
    have hawake := hw.token hi hstill hne (by rw [h]; trivial)
    rw [htoken] at hawake
    cases hawake
  | @reclaim _ timed answer h =>
    refine .inl (hsame ?_)
    rw [h]
    cases answer <;> simp [stage]

end Mpsc

namespace UnifiedWait
open Mpsc

/-- The subscription is complete and no emission has begun and not returned. -/
def WaitState.Quiet (s : WaitState) : Prop := s.subscriber = true ∧ ∀ i, s.emits i ≠ .pushing

/-- All the channel has taken was delivered. -/
def WaitState.AllDelivered (s : WaitState) : Prop := s.messages = s.line

variable {sender : ℕ → ℕ} {s s' : WaitState} {a : MpscAction ℕ} {inbox : MpscState ℕ}

theorem WaitInv.still (h : WaitInv sender s) (hquiet : s.Quiet) : Still s.inbox := by
  intro i
  obtain ⟨hnil, hfree⟩ := h.routed.subscribed hquiet.1
  cases hi : s.emits i with
  | ready => exact .inl ⟨i, h.routed.ready i hi⟩
  | pushing => exact absurd hi (hquiet.2 i)
  | done =>
    rcases h.routed.done i hi with hmem | hw | hdone
    · rw [hnil] at hmem
      cases hmem
    · exact absurd hw (unheld hfree i)
    · exact .inr hdone

theorem WaitInv.line_eq (h : WaitInv sender s) (hquiet : s.Quiet) : s.line = s.entered := by
  obtain ⟨hnil, hfree⟩ := h.routed.subscribed hquiet.1
  rw [WaitState.line, heldBack_free hfree, hnil, append_nil, append_nil]

/-- With everything popped and nothing batched, everything is delivered. -/
theorem WaitInv.allDelivered (h : WaitInv sender s) (hquiet : s.Quiet)
    (hpopped : s.inbox.popped = s.inbox.swapped) (htransit : s.inbox.consumer.transit = [])
    (hbatch : s.batch = []) : s.AllDelivered := by
  have hflow := h.collects.flow
  rw [htransit, hbatch, hpopped, append_nil, append_nil] at hflow
  exact hflow.trans (h.line_eq hquiet).symm

theorem quiet_step (hquiet : s.Quiet) (hs : WaitStep sender .waiter s s') : s'.Quiet := by
  cases hs with
  | subscribed => exact ⟨rfl, hquiet.2⟩
  | _ => exact hquiet

theorem emits_of_waiter (hs : WaitStep sender .waiter s s') : s'.emits = s.emits := by
  cases hs <;> rfl

/-- What the handler was called with stays. -/
theorem messages_grow {who : Actor} (hs : WaitStep sender who s s') :
    s.messages <+: s'.messages := by
  cases hs with
  | timeout _ _ _ _ | deliver _ _ =>
    simp only [WaitState.messages, flatten_msgs]
    exact prefix_append _ _
  | _ => exact prefix_rfl

theorem WaitInv.line_same (h : WaitInv sender s) (hquiet : s.Quiet)
    (hs : WaitStep sender .waiter s s') : s'.line = s.line := by
  refine (h.line_step hs).resolve_right ?_
  rintro ⟨i, hline, hdone, -⟩
  have hemits := emits_of_waiter hs
  have hmem : i ∈ s'.line := by
    rw [hline]
    exact mem_append_right _ (mem_singleton_self i)
  cases hi : s.emits i with
  | ready => exact (h.step hs).not_mem_line (by rw [hemits, hi]) hmem
  | pushing => exact hquiet.2 i hi
  | done => exact hdone hi

theorem WaitInv.allDelivered_step (h : WaitInv sender s) (hquiet : s.Quiet)
    (hs : WaitStep sender .waiter s s') (hall : s.AllDelivered) : s'.AllDelivered := by
  have hgrow := messages_grow hs
  rw [hall, ← h.line_same hquiet hs] at hgrow
  exact ((h.step hs).messages_front.eq_of_length_le hgrow.length_le)

theorem popping_not_blocking {c : Consumer ℕ} (h : c.Popping) : ¬c.Blocking := by
  cases c with
  | enter who | take who _ | free who _ _ | check who =>
    cases who with
    | pop => exact id
    | first timed | again timed => cases h
  | _ => cases h

/-- Each step of the waiter brings it nearer to its next pop, until everything is delivered. -/
theorem WaitInv.progress (h : WaitInv sender s) (hquiet : s.Quiet)
    (hs : WaitStep sender .waiter s s') :
    s.AllDelivered ∨ s'.AllDelivered ∨ rank s'.inbox < rank s.inbox := by
  obtain ⟨ahead, hi⟩ := h.inbox.queue
  have hfits := h.collects.fits
  have hfree := (h.routed.subscribed hquiet.1).2
  have hrank : ∀ {a : MpscAction ℕ} {inbox : MpscState ℕ}, MpscStep a s.inbox inbox → a.ByConsumer →
      rank inbox < rank s.inbox ∨ s.inbox.popped = s.inbox.swapped ∧ s.inbox.consumer.transit = [] ∧
        (a = .answer .empty ∨ s.inbox.consumer.Blocking) :=
    fun hs ha => rank_step hi h.inbox.wake (h.still hquiet) hs ha
  have hnone : ∀ {a : MpscAction ℕ} {inbox : MpscState ℕ}, MpscStep a s.inbox inbox →
      a.ByConsumer → s.waiter ≠ .collecting → s.waiter ≠ .popping →
      s.AllDelivered ∨ rank inbox < rank s.inbox := by
    intro a inbox hs ha hcollecting hpopping
    rcases hrank hs ha with hlt | ⟨hpopped, htransit, -⟩
    · exact .inr hlt
    · exact .inl (h.allDelivered hquiet hpopped htransit (h.collects.batch hcollecting hpopping))
  have hpop : ∀ {a : MpscAction ℕ} {inbox : MpscState ℕ}, MpscStep a s.inbox inbox → a.ByConsumer →
      s.inbox.consumer.Popping → rank inbox < rank s.inbox ∨ a = .answer .empty := by
    intro a inbox hs ha hpopping
    rcases hrank hs ha with hlt | ⟨-, -, hempty | hblocking⟩
    · exact .inl hlt
    · exact .inr hempty
    · exact absurd hblocking (popping_not_blocking hpopping)
  cases hs with
  | subscribe _ hsub => exact absurd (hsub.symm.trans hquiet.1) nofun
  | drain hw _ | drainPush hw _ | drainPushed hw _ | subscribed hw _ =>
    exact absurd (by rw [hw]; trivial) hfree
  | wait hw hs _ _ | timeout hw _ hs _ | firstAgain hw _ hs | first hw hs _ =>
    exact (hnone hs trivial (by rw [hw]; nofun) (by rw [hw]; nofun)).imp_right .inr
  | collect hw hs hfrom _ =>
    rcases hrank hs trivial with hlt | ⟨-, -, hempty | hblocking⟩
    · exact .inr (.inr hlt)
    · cases hempty
    · rw [hfrom] at hblocking
      cases hblocking
  | inner hs ha hbusy hstill =>
    cases hw : s.waiter with
    | waiting timed =>
      exact (hnone hs ha (by rw [hw]; nofun) (by rw [hw]; nofun)).imp_right .inr
    | popping =>
      rw [hw] at hfits
      rcases hpop hs ha hfits with hlt | rfl
      · exact .inr (.inr hlt)
      · exact absurd (idle_of_answer h.inbox hs hfits) hstill
    | idle | draining | pushing msg | collecting =>
      rw [hw] at hfits
      exact absurd hfits hbusy
  | collected hw hs | retry hw hs =>
    rw [hw] at hfits
    rcases hpop hs trivial hfits with hlt | hempty
    · exact .inr (.inr hlt)
    · cases hempty
  | @deliver _ inbox hw hs =>
    rw [hw] at hfits
    have hinv := h.step (.deliver hw hs)
    have hidle := idle_of_answer h.inbox hs hfits
    have hpopped : inbox.popped = inbox.swapped := by
      cases hs with
      | checkSame _ hhead => exact hi.popped_eq_iff.mp hhead
    exact .inr (.inl (hinv.allDelivered hquiet hpopped (by simp only [hidle]; rfl) rfl))

theorem inner_of_step {c : Consumer ℕ} (hc : s.inbox.consumer = c) (hbusy : c ≠ .idle)
    (hs : MpscStep a s.inbox inbox) (ha : a.ByConsumer) (hstill : inbox.consumer ≠ .idle) :
    ∃ s', WaitStep sender .waiter s s' :=
  ⟨_, .inner hs ha (hc ▸ hbusy) hstill⟩

theorem loadNext_busy (who : Caller) : (match s.inbox.next s.inbox.tail with
    | some node => .take who node
    | none => .check who : Consumer ℕ) ≠ .idle := by
  cases s.inbox.next s.inbox.tail <;> nofun

/-- With something left to deliver the waiter does not sleep without a token, and can take a
step. -/
theorem WaitInv.awake (h : WaitInv sender s) (hquiet : s.Quiet) (hall : ¬s.AllDelivered) :
    (∀ timed, s.inbox.consumer = .parked timed → s.inbox.token = true) ∧
      ∃ s', WaitStep sender .waiter s s' := by
  obtain ⟨ahead, hi⟩ := h.inbox.queue
  have hfits := h.collects.fits
  have hfree := (h.routed.subscribed hquiet.1).2
  have htoken : ∀ timed, s.inbox.consumer = .parked timed → s.inbox.token = true := by
    intro timed hparked
    refine h.inbox.wake.token hi (h.still hquiet) (fun hpopped => hall ?_)
      (by rw [hparked]; trivial)
    refine h.allDelivered hquiet hpopped (by rw [hparked]; rfl) (h.collects.batch ?_ ?_)
    · intro hw
      rw [hw, hparked] at hfits
      cases hfits
    · intro hw
      rw [hw, hparked] at hfits
      cases hfits
  refine ⟨htoken, ?_⟩
  cases hw : s.waiter with
  | draining | pushing msg => exact absurd (by rw [hw]; trivial) hfree
  | idle =>
    rw [hw] at hfits
    exact ⟨_, .wait hw (@MpscStep.popBlocking _ _ false hfits) hfits rfl⟩
  | collecting =>
    rw [hw] at hfits
    exact ⟨_, .collect hw (.pop hfits) hfits rfl⟩
  | waiting timed =>
    rw [hw] at hfits
    cases hc : s.inbox.consumer with
    | idle | panicked =>
      rw [hc] at hfits
      cases hfits
    | enter who => exact inner_of_step hc nofun (.loadNext hc) trivial (loadNext_busy who)
    | take who node =>
      obtain ⟨v, -, -, hvalue⟩ := hi.taken hc
      exact inner_of_step hc nofun (.take hc hvalue) trivial nofun
    | free who old v =>
      cases who with
      | pop =>
        rw [hc] at hfits
        cases hfits
      | first timed' => exact ⟨_, .first hw (.free hc) rfl⟩
      | again timed' => exact inner_of_step hc nofun (.free hc) trivial nofun
    | check who =>
      by_cases hhead : s.inbox.head = s.inbox.tail
      · cases who with
        | pop =>
          rw [hc] at hfits
          cases hfits
        | first timed' | again timed' =>
          exact inner_of_step hc nofun (.checkSame hc hhead) trivial nofun
      · cases who with
        | pop =>
          rw [hc] at hfits
          cases hfits
        | first timed' | again timed' =>
          exact inner_of_step hc nofun (.checkMoved hc hhead) trivial nofun
    | publish timed' => exact inner_of_step hc nofun (.publish hc) trivial nofun
    | park timed' =>
      cases hsome : s.inbox.token with
      | false => exact inner_of_step hc nofun (.park hc hsome) trivial nofun
      | true => exact inner_of_step hc nofun (.parkToken hc hsome) trivial nofun
    | parked timed' => exact inner_of_step hc nofun (.wake hc (htoken timed' hc)) trivial nofun
    | reclaim timed' answer =>
      cases answer with
      | none => exact inner_of_step hc nofun (.reclaim hc) trivial nofun
      | some v => exact ⟨_, .firstAgain hw hc (.reclaim hc)⟩
  | popping =>
    rw [hw] at hfits
    cases hc : s.inbox.consumer with
    | idle | panicked | publish timed | park timed | parked timed | reclaim timed answer =>
      rw [hc] at hfits
      cases hfits
    | enter who => exact inner_of_step hc nofun (.loadNext hc) trivial (loadNext_busy who)
    | take who node =>
      obtain ⟨v, -, -, hvalue⟩ := hi.taken hc
      exact inner_of_step hc nofun (.take hc hvalue) trivial nofun
    | free who old v => exact ⟨_, .collected hw (.free hc)⟩
    | check who =>
      by_cases hhead : s.inbox.head = s.inbox.tail
      · exact ⟨_, .deliver hw (.checkSame hc hhead)⟩
      · exact ⟨_, .retry hw (.checkMoved hc hhead)⟩

/-- The messages of a quiet channel that were sent are all delivered once the waiter has taken so
many steps. -/
theorem WaitInv.delivered_of_steps {run : ℕ → WaitState} {n : ℕ} (h : WaitInv sender (run 0))
    (hquiet : (run 0).Quiet) (hrun : ∀ k, k < n → WaitStep sender .waiter (run k) (run (k + 1)))
    (hn : rank (run 0).inbox < n) : (run n).AllDelivered := by
  have hall : ∀ k, k ≤ n → WaitInv sender (run k) ∧ (run k).Quiet ∧
      ((run k).AllDelivered ∨ rank (run k).inbox + k ≤ rank (run 0).inbox) := by
    intro k
    induction k with
    | zero => exact fun _ => ⟨h, hquiet, .inr (Nat.le_refl _)⟩
    | succ k ih =>
      intro hk
      obtain ⟨hinv, hquiet, hrank⟩ := ih (by omega)
      have hs := hrun k (by omega)
      refine ⟨hinv.step hs, quiet_step hquiet hs, ?_⟩
      rcases hrank with hall | hrank
      · exact .inl (hinv.allDelivered_step hquiet hs hall)
      · rcases hinv.progress hquiet hs with hall | hall | hlt
        · exact .inl (hinv.allDelivered_step hquiet hs hall)
        · exact .inl hall
        · exact .inr (by omega)
  obtain ⟨-, -, hdelivered | hrank⟩ := hall n (Nat.le_refl n)
  · exact hdelivered
  · omega

theorem waitInv_of_reaches (hrun : Reaches (WaitStep sender) anyAction .start s) :
    WaitInv sender s :=
  hrun.invariant (fun h _ hs => h.step hs) (.start sender)

/-- Every message that was sent is delivered once, those of a sender as it sent them, and what had
been sent at any moment, that of the subscription among them, before what was sent later. -/
theorem unified_wait_delivers (sender : ℕ → ℕ) (s : WaitState)
    (hrun : Reaches (WaitStep sender) anyAction .start s) : s.messages.Nodup ∧
    (∀ i ∈ s.messages, s.emits i ≠ .ready) ∧ s.messages.Pairwise (fun i j => sender i = sender j →
    i < j) ∧ (∀ s₁, Reaches (WaitStep sender) anyAction .start s₁ →
    Reaches (WaitStep sender) anyAction s₁ s → ∀ i j front back, s₁.emits i = .done →
    s₁.emits j = .ready → s.messages = front ++ j :: back → i ∈ front) ∧ (s.Quiet →
    ¬s.AllDelivered → (∀ timed, s.inbox.consumer = .parked timed → s.inbox.token = true) ∧ ∃ s',
    WaitStep sender .waiter s s') ∧ ∀ (run : ℕ → WaitState) (n : ℕ), run 0 = s →
    s.Quiet → (∀ k, k < n → WaitStep sender .waiter (run k) (run (k + 1))) → rank s.inbox < n →
    ∀ i, s.emits i ≠ .ready → (run n).messages.count i = 1 := by
  have h := waitInv_of_reaches hrun
  refine ⟨h.messages_front.sublist.nodup h.line_nodup, ?_,
    (ordered_of_reaches hrun).sublist h.messages_front.sublist, ?_, fun hquiet => h.awake hquiet,
      ?_⟩
  · intro i hi hready
    exact h.not_mem_line hready (h.messages_front.subset hi)
  · intro s₁ hrun₁ hrun₂ i j front back hdone hready hmessages
    exact (waitInv_of_reaches hrun₁).before hrun₂ hdone hready hmessages
  · rintro run n rfl hquiet hsteps hn i hsent
    have hemits : ∀ k, k ≤ n → WaitInv sender (run k) ∧ (run k).emits = (run 0).emits := by
      intro k
      induction k with
      | zero => exact fun _ => ⟨h, rfl⟩
      | succ k ih =>
        intro hk
        obtain ⟨hinv, hsame⟩ := ih (by omega)
        have hs := hsteps k (by omega)
        exact ⟨hinv.step hs, (emits_of_waiter hs).trans hsame⟩
    obtain ⟨hinv, hsame⟩ := hemits n (Nat.le_refl n)
    have hall := h.delivered_of_steps hquiet hsteps hn
    have hdone : (run n).emits i = .done := by
      rw [hsame]
      cases hi : (run 0).emits i with
      | ready => exact absurd hi hsent
      | pushing => exact absurd hi (hquiet.2 i)
      | done => rfl
    rw [hall]
    exact count_eq_one_of_mem hinv.line_nodup (hinv.done_mem_line hdone)

/-- A message from before the subscription, which is over: the waiter can go and get it. -/
theorem unified_wait_delivers_run : ∃ s, Reaches (WaitStep id) anyAction .start s ∧ s.Quiet ∧
    s.line = [0] ∧ ∃ s', WaitStep id .waiter s s' := by
  have hsent : Reaches (WaitStep id) anyAction .start _ :=
    .of_step trivial (@WaitStep.emitPending id .start 0 rfl (by simp) id rfl)
  have hdrain := (hsent.next trivial (.subscribe rfl rfl)).next trivial (.drain rfl rfl)
  have hswap := (hdrain.next trivial (.drainPush rfl (.build rfl))).next trivial
    (.drainPush rfl (.swap rfl))
  have hpushed := (hswap.next trivial (.drainPush rfl (.link rfl))).next trivial
    (.drainPush rfl (.loadWaiter rfl))
  have hover := (hpushed.next trivial (.drainPushed rfl rfl)).next trivial (.subscribed rfl rfl)
  have hnothing : ∀ i, Function.update (fun _ : ℕ => Emit.ready) 0 .done i ≠ .pushing := by
    intro i
    by_cases hi : i = 0 <;> simp [hi]
  have hleft : ([] : List ℕ) ≠ [0] := nofun
  exact ⟨_, hover, ⟨rfl, hnothing⟩, rfl,
    ((unified_wait_delivers id _ hover).2.2.2.2.1 ⟨rfl, hnothing⟩ hleft).2⟩

end UnifiedWait

end AxisBridge
