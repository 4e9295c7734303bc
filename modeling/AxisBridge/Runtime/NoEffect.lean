import AxisBridge.Runtime.Callbacks

/-! Which runs start an effectful builtin after a fault: those where a driver goes on from a
composite callback that dropped the fault to a builtin callback, which no guard surrounds. -/
namespace AxisBridge
open List EntryState Drive Callback

variable {n : ℕ} {env : FaultEnv}

/-- No builtin that is not declared pure and deterministic started after a fault. -/
def EntryState.Clean (s : EntryState) : Prop :=
  ∀ e ∈ s.started, e.builtin.pureDet = false → e.afterFault = false

def Callback.isComposite : Callback → Bool
  | .builtin _ _ => false
  | .composite _ => true

def Callback.isEffect : Callback → Bool
  | .builtin b _ => ! b.pureDet
  | .composite _ => false

/-- One callback is a composite, another an effectful builtin. -/
def Mixed (callees : Fin n → Callback) : Prop :=
  (∃ f, (callees f).isComposite = true) ∧ ∃ g, (callees g).isEffect = true

def Drive.effectNext (callees : Fin n → Callback) : Drive n → Bool
  | .call f _ _ => (callees f).isEffect
  | _ => false

/-- Its calls are `ok`, and no fault is recorded when it goes on from a result to an effectful
builtin; the latter is asked of the drivers for which `asked` holds. -/
def Drive.Careful (asked : Prop) (callees : Fin n → Callback)
    (call : Fin n → ℕ → Value → EntryState → Ends) (ok : Fin n → ℕ → Value → EntryState → Prop) :
    Drive n → ℕ → EntryState → Prop
  | .call f arg next, i, s =>
    ok f i arg s ∧ ∀ r s', call f i arg s = (.value r, s') →
      (asked → (next r).effectNext callees = true → s'.thread.faulted = none) ∧
        (next r).Careful asked callees call ok (i + 1) s'
  | _, _, _ => True

mutual

/-- Every driver that the run enters with a composite and an effectful builtin among its callbacks
goes on to the builtin with no fault recorded. -/
def Code.Careful (env : FaultEnv) : Code → EntryState → Prop
  | .ret _, _ => True
  | .leaf b args does k, s =>
    ∀ v s', guardedCall env b (! b.pureDet) args does.run s = (.value v, s') → (k v).Careful env s'
  | .higher b args callees d location k, s =>
    (guardPre s.thread (! pureDetCall b callees) args = none →
      d.drive.Careful (Mixed callees) callees (fun f i arg s => (callees f).call env i arg s)
        (fun f i arg s => (callees f).Careful env i arg s) 0 (s.hook.start b)) ∧
    ∀ v s', guardedCall env b (! pureDetCall b callees) args
        (d.drive.run (fun f i arg s => (callees f).call env i arg s) location 0) s =
      (.value v, s') → (k v).Careful env s'
  | .composite body k, s =>
    body.Careful env s ∧ ∀ v s', body.run env s = (.value v, s') → (k v).Careful env s'

def Callback.Careful (env : FaultEnv) : Callback → ℕ → Value → EntryState → Prop
  | .builtin _ _, _, _, _ => True
  | .composite run, i, arg, s => (run i arg).Careful env s

end

/-- The run keeps the entry clean exactly when it started clean and `P` held there. -/
def Spec (f : EntryState → Ends) (P : EntryState → Prop) : Prop :=
  ∀ s, (f s).2.Clean ↔ s.Clean ∧ P s

variable {k : Value → EntryState → Ends} {Q : Value → EntryState → Prop} {P : EntryState → Prop}
  {s : EntryState} {b : Builtin}

theorem Ends.clean_andThen {r : Ends} (hk : ∀ v s, (k v s).2.Clean ↔ s.Clean ∧ Q v s) :
    (r.andThen k).2.Clean ↔ r.2.Clean ∧ ∀ v s, r = (.value v, s) → Q v s := by
  rcases r with ⟨o, s⟩
  cases o with
  | value v =>
    rw [Ends.andThen_value, hk]
    constructor
    · rintro ⟨hc, hq⟩
      refine ⟨hc, fun w t ht => ?_⟩
      cases ht
      exact hq
    · exact fun h => ⟨h.1, h.2 v s rfl⟩
  | unwind p => simp [Ends.andThen]
  | exited status => simp [Ends.andThen]

theorem Spec.andThen {f : EntryState → Ends} (hf : Spec f P) (hk : ∀ v, Spec (k v) (Q v)) :
    Spec (fun s => (f s).andThen k) (fun s => P s ∧ ∀ v s', f s = (.value v, s') → Q v s') := by
  intro s
  exact (Ends.clean_andThen fun v s => hk v s).trans
    ((and_congr_left fun _ => hf s).trans and_assoc)

theorem EntryState.clean_start :
    (s.start b).Clean ↔ s.Clean ∧ (b.pureDet = false → s.thread.faulted = none) := by
  simp only [Clean, start, mem_append, mem_singleton]
  constructor
  · intro h
    refine ⟨fun e he => h e (.inl he), fun hb => ?_⟩
    simpa using h _ (.inr rfl) hb
  · rintro ⟨h, hb⟩ e (he | rfl) hp
    · exact h e he hp
    · simp [hb hp]

theorem Leaf.started_run (does : Leaf) (s : EntryState) : (does.run s).2.started = s.started := by
  cases does <;> rfl

theorem Leaf.spec_run (does : Leaf) : Spec does.run (fun _ => True) := by
  intro s
  simp [Clean, does.started_run]

/-- A builtin that records a fault of its own yields that Unknown. -/
theorem Leaf.faulted_run {does : Leaf} {s' : EntryState} {r : Value}
    (h : does.run s = (.value r, s')) : stuck r = true ∨ s'.thread.faulted = s.thread.faulted := by
  cases does with
  | value v =>
    cases h
    exact .inr rfl
  | raise message location =>
    cases h
    exact .inl rfl
  | panic p location => cases h
  | exit status => cases h

theorem spec_guardedCall {effectful : Bool} {args : List Value}
    {body : EntryState → Ends} (hb : effectful = false → b.pureDet = true)
    (hbody : ∀ s, (effectful = true → s.thread.faulted = none) →
      ((body s).2.Clean ↔ s.Clean ∧ P s)) :
    Spec (guardedCall env b effectful args body)
      (fun s => guardPre s.thread effectful args = none → P (s.hook.start b)) := by
  intro s
  have hfree : guardPre s.thread effectful args = none → effectful = true →
      s.thread.faulted = none := by
    intro hpre he
    cases hf : s.thread.faulted with
    | none => rfl
    | some u => simp [guardPre, he, hf] at hpre
  cases hpre : guardPre s.thread effectful args with
  | some v => simp [guardedCall, hpre]
  | none =>
    have hclean :
        (guardedCall env b effectful args body s).2.Clean ↔ (body (s.hook.start b)).2.Clean := by
      simp [guardedCall, hpre, Clean]
    have hpure : b.pureDet = false → s.hook.thread.faulted = none := by
      intro hp
      cases he : effectful with
      | true => exact hfree hpre he
      | false => simp [hb he] at hp
    refine hclean.trans ((hbody (s.hook.start b) (hfree hpre)).trans ?_)
    rw [clean_start]
    exact ⟨fun h => ⟨h.1.1, fun _ => h.2⟩, fun h => ⟨⟨h.1, hpure⟩, h.2 hpre⟩⟩

section
variable {callees : Fin n → Callback} {call : Fin n → ℕ → Value → EntryState → Ends}
  {ok : Fin n → ℕ → Value → EntryState → Prop}
variable {d : Drive n}

/-- A driver keeps the entry clean exactly when it never goes on to an effectful builtin with a
fault recorded and its callbacks keep it clean. -/
theorem Drive.clean_run (location : String)
    (hcall : ∀ f i arg s, (call f i arg s).2.Clean ↔
      s.Clean ∧ ((callees f).isEffect = true → s.thread.faulted = none) ∧ ok f i arg s) :
    ∀ {i : ℕ} {s : EntryState}, (d.run call location i s).2.Clean ↔
      s.Clean ∧ (d.effectNext callees = true → s.thread.faulted = none) ∧
      d.Careful True callees call ok i s := by
  induction d with
  | done v =>
    intro i s
    simp [Drive.run, effectNext, Drive.Careful]
  | panic message =>
    intro i s
    simp [Drive.run, effectNext, Drive.Careful, Clean, Leaf.started_run]
  | call f arg next ih =>
    intro i s
    rw [Drive.run, Ends.clean_andThen fun r s => ih r, hcall]
    simp only [effectNext, Drive.Careful, true_implies]
    exact ⟨fun ⟨⟨hc, he, ho⟩, hd⟩ => ⟨hc, he, ho, hd⟩, fun ⟨hc, he, ho, hd⟩ => ⟨⟨hc, he, ho⟩, hd⟩⟩

/-- Without a composite among its callbacks a driver meets no fault but in a result that stops
it. -/
theorem Drive.careful_unmixed (hmixed : ¬ Mixed callees)
    (hbare : ∀ f i arg s r s', (callees f).isComposite = false → call f i arg s = (.value r, s') →
      stuck r = true ∨ s'.thread.faulted = s.thread.faulted) : ∀ {i : ℕ} {s : EntryState}, d.Stops →
      ((∃ g, (callees g).isEffect = true) → s.thread.faulted = none) →
      d.Careful (Mixed callees) callees call ok i s → d.Careful True callees call ok i s := by
  induction d with
  | done v => exact fun _ _ _ => trivial
  | panic message => exact fun _ _ _ => trivial
  | call f arg next ih =>
    intro i s hstops hfree hcare
    refine ⟨hcare.1, fun r s' hr => ?_⟩
    by_cases hstuck : stuck r = true
    · simp [hstops.1 r hstuck, effectNext, Drive.Careful]
    · have hfree' : (∃ g, (callees g).isEffect = true) → s'.thread.faulted = none := by
        intro hg
        have hf : (callees f).isComposite = false := by
          apply Bool.eq_false_iff.mpr
          exact fun hf => hmixed ⟨⟨f, hf⟩, hg⟩
        rcases hbare f i arg s r s' hf hr with h | h
        · exact (hstuck h).elim
        · exact h.trans (hfree hg)
      refine ⟨fun _ heff => hfree' ?_, ih r (hstops.2 r) hfree' (hcare.2 r s' hr).2⟩
      cases hnext : next r with
      | call g _ _ =>
        rw [hnext] at heff
        exact ⟨g, heff⟩
      | done v | panic message => simp [hnext, effectNext] at heff

theorem Drive.Careful.weaken : ∀ {i : ℕ} {s : EntryState},
    d.Careful True callees call ok i s → d.Careful (Mixed callees) callees call ok i s := by
  induction d with
  | done v => exact fun _ => trivial
  | panic message => exact fun _ => trivial
  | call f arg next ih =>
    intro i s h
    refine ⟨h.1, fun r s' hr => ?_⟩
    exact ⟨fun _ => (h.2 r s' hr).1 trivial, ih r (h.2 r s' hr).2⟩

end

theorem pureDetCall_eq_false {callees : Fin n → Callback} (h : (! pureDetCall b callees) = false) :
    b.pureDet = true ∧ ∀ f, (callees f).pureDet = true := by
  simpa [pureDetCall] using h

theorem Callback.pureDet_of_isEffect {c : Callback} (h : c.isEffect = true) :
    c.pureDet = false := by
  cases c with
  | builtin b does => simpa [isEffect, pureDet] using h
  | composite run => rfl

theorem Callback.faulted_call {c : Callback} (hc : c.isComposite = false) {i : ℕ} {arg r : Value}
    {s' : EntryState} (h : c.call env i arg s = (.value r, s')) :
    stuck r = true ∨ s'.thread.faulted = s.thread.faulted := by
  cases c with
  | builtin b does => exact Leaf.faulted_run (s := s.start b) h
  | composite run => cases hc

/-- What a driver's guard leaves to its callbacks. -/
theorem spec_higher (b : Builtin) (args : List Value) {callees : Fin n → Callback} (d : Driver n)
    (location : String) (hcall : ∀ f i arg s, ((callees f).call env i arg s).2.Clean ↔
      s.Clean ∧ ((callees f).isEffect = true → s.thread.faulted = none) ∧
        (callees f).Careful env i arg s) :
    Spec (guardedCall env b (! pureDetCall b callees) args
        (d.drive.run (fun f i arg s => (callees f).call env i arg s) location 0))
      (fun s => guardPre s.thread (! pureDetCall b callees) args = none →
        d.drive.Careful (Mixed callees) callees (fun f i arg s => (callees f).call env i arg s)
          (fun f i arg s => (callees f).Careful env i arg s) 0 (s.hook.start b)) := by
  refine spec_guardedCall (fun h => (pureDetCall_eq_false h).1) fun s hfree => ?_
  have hfree' : (∃ g, (callees g).isEffect = true) → s.thread.faulted = none := by
    rintro ⟨g, hg⟩
    apply hfree
    by_contra h
    have hpure := (pureDetCall_eq_false (Bool.not_eq_true _ ▸ h)).2 g
    rw [pureDet_of_isEffect hg] at hpure
    cases hpure
  have hnext : d.drive.effectNext callees = true → s.thread.faulted = none := by
    intro heff
    apply hfree'
    cases hd : d.drive with
    | call g arg next =>
      rw [hd] at heff
      exact ⟨g, heff⟩
    | done v | panic message => simp [hd, effectNext] at heff
  rw [clean_run location hcall]
  constructor
  · exact fun h => ⟨h.1, h.2.2.weaken⟩
  · intro h
    refine ⟨h.1, hnext, ?_⟩
    by_cases hmixed : Mixed callees
    · simpa [hmixed] using h.2
    · exact careful_unmixed hmixed (fun f i arg s r s' hf hr => faulted_call hf hr)
        d.stops hfree' h.2

mutual

theorem Code.spec_run (env : FaultEnv) : (c : Code) → Spec (c.run env) (c.Careful env)
  | .ret v => by
    intro s
    simp [Code.run, Code.Careful]
  | .leaf b args does k => by
    have hleaf : Spec (guardedCall env b (! b.pureDet) args does.run) _ :=
      spec_guardedCall (P := fun _ => True) (by simp) fun s _ => does.spec_run s
    intro s
    simpa [Code.run, Code.Careful] using hleaf.andThen (fun v => Code.spec_run env (k v)) s
  | .higher b args callees d location k => by
    have hhigher := spec_higher b args d location
      fun f i arg s => Callback.clean_call env (callees f) i arg s
    intro s
    simpa only [Code.run, Code.Careful] using hhigher.andThen (fun v => Code.spec_run env (k v)) s
  | .composite body k => by
    intro s
    simpa only [Code.run, Code.Careful] using
      (Code.spec_run env body).andThen (fun v => Code.spec_run env (k v)) s

theorem Callback.clean_call (env : FaultEnv) : (c : Callback) → ∀ i arg s,
    (c.call env i arg s).2.Clean ↔
      s.Clean ∧ (c.isEffect = true → s.thread.faulted = none) ∧ c.Careful env i arg s
  | .builtin b does => by
    intro i arg s
    simp [Callback.call, isEffect, Callback.Careful, (does i arg).spec_run (s.start b), clean_start]
  | .composite run => by
    intro i arg s
    simpa [Callback.call, isEffect, Callback.Careful] using Code.spec_run env (run i arg) s

end

/-- Each attempt is careful in the state the attempts before it left. -/
def CarefulAttempts (env : FaultEnv) : List Code → EntryState → Prop
  | [], _ => True
  | c :: cs, s => c.Careful env s ∧ CarefulAttempts env cs (c.run env s).2

theorem clean_runAttempts {attempts : List Code} : ∀ {s : EntryState},
    (runAttempts env attempts s).Clean ↔ s.Clean ∧ CarefulAttempts env attempts s := by
  induction attempts with
  | nil =>
    intro s
    simp [runAttempts, CarefulAttempts]
  | cons c cs ih =>
    intro s
    have hrest := ih (s := (c.run env s).2)
    rw [c.spec_run env s] at hrest
    simpa [runAttempts, CarefulAttempts, and_assoc] using hrest

/-- On an entry's thread no effectful builtin starts after a recorded fault, restarts included,
exactly when no driver goes on to an effectful builtin callback after a composite callback dropped a
fault. -/
theorem no_effect_after_fault_iff (env : FaultEnv) (attempts : List Code) :
    (runAttempts env attempts .fresh).Clean ↔ CarefulAttempts env attempts .fresh := by
  have hfresh : fresh.Clean := by
    intro e he
    cases he
  rw [clean_runAttempts]
  exact and_iff_right hfresh

/-- The callbacks of a `loop_while`. -/
def condStep (cond step : Callback) : Fin 2 → Callback
  | ⟨0, _⟩ => cond
  | ⟨1, _⟩ => step

/-- `loop_while` with a condition that drops the Unknown of a faulted `tcp_write`, and a bare
`io_println` as its step. -/
def droppedInCond : Code :=
  .higher ⟨"loop_while", true⟩ [.str "text", .int 1]
    (condStep
      (.composite fun _ _ =>
        .leaf ⟨"tcp_write", false⟩ [] (.panic (.string "Broken pipe") "net.rs:1") fun _ =>
          .ret (.bool true))
      (.builtin ⟨"io_println", false⟩ fun _ _ => .value .unit))
    (Iter.loopWhile (fun _ => "") (.str "text") (.int 1)) "main.rs:1" .ret

theorem prints_after_dropped_fault :
    ¬ (runAttempts ⟨false, none⟩ [droppedInCond] .fresh).Clean := by
  intro h
  have hstart : (⟨⟨"io_println", false⟩, true⟩ : Start) ∈
      (runAttempts ⟨false, none⟩ [droppedInCond] .fresh).started :=
    mem_of_getElem? (i := 2) rfl
  cases h _ hstart rfl

/-- A driver with one callback never mixes the two kinds. -/
theorem not_mixed_one (callees : Fin 1 → Callback) : ¬ Mixed callees := by
  rintro ⟨⟨f, hf⟩, g, hg⟩
  rw [Subsingleton.elim g f] at hg
  cases hc : callees f with
  | builtin b does => simp [hc, isComposite] at hf
  | composite run => simp [hc, isEffect] at hg

mutual

/-- No driver of the code with two or more callbacks mixes the two kinds. -/
def Code.Unmixed : Code → Prop
  | .ret _ => True
  | .leaf _ _ _ k => ∀ v, (k v).Unmixed
  | .higher (n := n) _ _ callees _ _ k =>
    (n ≠ 1 → ¬ Mixed callees) ∧ (∀ f, (callees f).Unmixed) ∧ ∀ v, (k v).Unmixed
  | .composite body k => body.Unmixed ∧ ∀ v, (k v).Unmixed

def Callback.Unmixed : Callback → Prop
  | .builtin _ _ => True
  | .composite run => ∀ i arg, (run i arg).Unmixed

end

theorem Drive.careful_of_not_mixed {callees : Fin n → Callback}
    {call : Fin n → ℕ → Value → EntryState → Ends} {ok : Fin n → ℕ → Value → EntryState → Prop}
    (hmixed : ¬ Mixed callees) (hok : ∀ f i arg s, ok f i arg s) {d : Drive n} :
    ∀ {i : ℕ} {s : EntryState}, d.Careful (Mixed callees) callees call ok i s := by
  induction d with
  | done v => exact fun {_ _} => trivial
  | panic message => exact fun {_ _} => trivial
  | call f arg next ih =>
    intro i s
    exact ⟨hok f i arg s, fun r s' _ => ⟨fun h => (hmixed h).elim, ih r⟩⟩

mutual

/-- Code whose drivers do not mix the two kinds is careful in every state. -/
theorem Code.Unmixed.careful : {c : Code} → c.Unmixed → ∀ s, c.Careful env s
  | .ret _, _ => fun _ => trivial
  | .leaf _ _ _ _, h => fun _ v s' _ => (h v).careful s'
  | .higher (n := n) _ _ callees _ _ _, h => by
    have hmixed : ¬ Mixed callees := by
      by_cases hn : n = 1
      · subst hn
        exact not_mixed_one callees
      · exact h.1 hn
    intro s
    refine ⟨fun _ => ?_, fun v s' _ => (h.2.2 v).careful s'⟩
    exact careful_of_not_mixed hmixed fun f i arg s => (h.2.1 f).careful i arg s
  | .composite _ _, h => fun s => ⟨h.1.careful s, fun v s' _ => (h.2 v).careful s'⟩

theorem Callback.Unmixed.careful : {c : Callback} → c.Unmixed → ∀ i arg s, c.Careful env i arg s
  | .builtin _ _, _ => fun _ _ _ => trivial
  | .composite _, h => fun i arg s => (h i arg).careful s

end

/-- Entries of such code keep their threads clean, restarts included. -/
theorem Code.Unmixed.clean {attempts : List Code} (h : ∀ c ∈ attempts, c.Unmixed) {s : EntryState}
    (hs : s.Clean) : (runAttempts env attempts s).Clean := by
  induction attempts generalizing s with
  | nil => exact hs
  | cons c cs ih =>
    have hc : (c.run env s).2.Clean := (c.spec_run env s).mpr ⟨hs, (h c mem_cons_self).careful s⟩
    exact ih (fun c' hmem => h c' (mem_cons_of_mem c hmem)) hc

/-- A `foreach` whose composite drops a faulted write, then a `foreach` that prints. -/
def droppedInForeach : Code :=
  .higher ⟨"foreach", true⟩ [.list [.int 1]]
    (fun _ => .composite fun _ _ =>
      .leaf ⟨"tcp_write", false⟩ [] (.panic (.string "Broken pipe") "net.rs:1") fun _ => .ret .unit)
    (Iter.foreach (fun _ => "") (.list [.int 1])) "main.rs:1" fun _ =>
      .higher ⟨"foreach", true⟩ [.list [.str "text"]]
        (fun _ => .builtin ⟨"io_println", false⟩ fun _ _ => .value .unit)
        (Iter.foreach (fun _ => "") (.list [.str "text"])) "main.rs:2" .ret

theorem Code.Unmixed.clean_dropped :
    (runAttempts ⟨false, none⟩ [droppedInForeach, droppedInForeach] .fresh).Clean := by
  refine Code.Unmixed.clean (fun c hc => ?_) fun e he => nomatch he
  rw [eq_of_mem_replicate (n := 2) hc]
  have hprint : Callback.Unmixed (.builtin ⟨"io_println", false⟩ fun _ _ => .value .unit) := trivial
  refine ⟨(absurd rfl ·), fun _ _ _ _ => trivial, fun _ => ?_⟩
  exact ⟨(absurd rfl ·), fun _ => hprint, fun _ => trivial⟩

end AxisBridge
