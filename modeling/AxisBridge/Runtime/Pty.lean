import AxisBridge.Lib.Reach
import Mathlib.Algebra.Order.Group.Int
import Mathlib.Data.List.Basic

/-! A pseudo-terminal that is drained: the child writes and ends whenever it likes, the caller
repeats the polling loop of the module. -/
namespace AxisBridge.Pty
open List

/-- How a child ended, as `wait` reports it. -/
inductive ExitStatus
  | code (c : UInt8)
  | signal (signum : Fin 128)
  | neither

def noReason : ℤ := -257

def ptyRunning : ℤ := -258

def terminatingSignal : Option (Fin 128) → ℤ
  | some s => -s.val
  | none => noReason

def statusOf : ExitStatus → ℤ
  | .code c => c.toNat
  | .signal signum => terminatingSignal (some signum)
  | .neither => terminatingSignal none

/-- The answer, and what is kept in `ended`. -/
def pollStatus (ended : Option ℤ) (tryWait : Option ExitStatus) : ℤ × Option ℤ :=
  match ended with
  | some s => (s, some s)
  | none =>
    match tryWait with
    | some st => (statusOf st, some (statusOf st))
    | none => (ptyRunning, none)

inductive Errno
  | eio
  | eagain
  | eintr
  | other

def readChunk : ℕ := 64 * 1024

/-- What `poll` is given to wait: a C int. -/
def pollTimeout (timeoutMs : ℤ) : ℤ := min timeoutMs (2 ^ 31 - 1)

/-- The read that the handle's `poll` and `read` answer so; `read` is not called where `poll` found
nothing. -/
def ptyRead (timeoutMs ready : ℤ) (read : Except Errno (List UInt8)) : Except String (List UInt8) :=
  if timeoutMs < 0 then .error ("pty_read: timeout_ms must be >= 0, got " ++ toString timeoutMs)
  else if ready ≤ 0 then .ok []
  else
    match read with
    | .ok buf => .ok buf
    | .error .eio | .error .eagain | .error .eintr => .ok []
    | .error .other => .error "pty_read: os error"

/-- A `poll` that waits a bounded time comes back empty-handed only where nothing can be read. -/
def Polls (timeout : ℤ) (pending : List UInt8) (ready : ℤ) : Prop :=
  0 ≤ timeout ∧ (ready ≤ 0 → pending = [])

/-- A `read` takes a part from the front of what is pending; it fails, or takes nothing, only where
nothing is. -/
def Reads (pending : List UInt8) : Except Errno (List UInt8) → List UInt8 → Prop
  | .ok buf, rest => pending = buf ++ rest ∧ buf.length ≤ readChunk ∧ (buf = [] → rest = [])
  | .error _, rest => pending = [] ∧ rest = []

/-- The terminal's output flags that are on when the pseudo-terminal is opened, each until the child
sets it; the others are off. -/
structure OutputFlags where
  opost : Bool
  onlcr : Bool

/-- What the terminal passes on for a byte: a line feed comes behind a carriage return. -/
def OutputFlags.shown (f : OutputFlags) (b : UInt8) : List UInt8 :=
  if f.opost && f.onlcr && b = 10 then [13, 10] else [b]

/-- Some byte is not passed on as it is. -/
def OutputFlags.alters (f : OutputFlags) (bs : List UInt8) : Bool :=
  f.opost && f.onlcr && bs.contains 10

/-- Where the caller's loop stands: before a read, between the two calls of one, behind an empty
read, or at its end. -/
inductive Caller
  | reading
  | polled (timeoutMs ready : ℤ)
  | empty
  | stopped

/-- The child, none of whose endings has been seen while it runs; the flags of its terminal, and
what that has passed on and the caller has not read; the status kept with the handle; and what the
caller has. The last four are kept for the statements: all the child wrote, all the terminal passed
on for it, whether it altered any of it, and what the child wrote since a read last found
nothing. -/
structure State where
  child : Option ExitStatus
  flags : OutputFlags
  pending : List UInt8
  ended : Option ℤ
  caller : Caller
  out : List UInt8
  written : List UInt8
  shown : List UInt8
  altered : Bool
  late : List UInt8

def State.start : State := ⟨none, ⟨true, true⟩, [], none, .reading, [], [], [], false, []⟩

/-- The child writes some more. -/
def State.write (s : State) (bs : List UInt8) : State := { s with
  pending := s.pending ++ bs.flatMap s.flags.shown
  written := s.written ++ bs
  shown := s.shown ++ bs.flatMap s.flags.shown
  altered := s.altered || s.flags.alters bs
  late := s.late ++ bs }

inductive Action
  | write (bs : List UInt8)
  | setFlags (flags : OutputFlags)
  | exit (st : ExitStatus)
  | poll (timeoutMs ready : ℤ)
  | read
  | status

/-- The child's writes, its settings and its end, and the calls of the loop: read, and after an
empty read the status. -/
inductive Step : Action → State → State → Prop
  | write {s : State} {bs : List UInt8} (hrun : s.child = none) :
      Step (.write bs) s (s.write bs)
  | setFlags {s : State} {flags : OutputFlags} (hrun : s.child = none) :
      Step (.setFlags flags) s { s with flags := flags }
  | exit {s : State} {st : ExitStatus} (hrun : s.child = none) :
      Step (.exit st) s { s with child := some st }
  | ready {s : State} {timeoutMs ready : ℤ} (hc : s.caller = .reading) (hms : 0 ≤ timeoutMs)
      (hpoll : Polls (pollTimeout timeoutMs) s.pending ready) (hready : 0 < ready) :
      Step (.poll timeoutMs ready) s { s with caller := .polled timeoutMs ready }
  | timedOut {s : State} {timeoutMs ready : ℤ} {read : Except Errno (List UInt8)}
      (hc : s.caller = .reading)
      (hpoll : Polls (pollTimeout timeoutMs) s.pending ready) (hready : ready ≤ 0)
      (hread : ptyRead timeoutMs ready read = .ok []) :
      Step (.poll timeoutMs ready) s { s with caller := .empty, late := [] }
  | chunk {s : State} {timeoutMs ready : ℤ} {read : Except Errno (List UInt8)}
      {buf rest : List UInt8}
      (hc : s.caller = .polled timeoutMs ready) (hkernel : Reads s.pending read rest)
      (hread : ptyRead timeoutMs ready read = .ok buf) (hbuf : buf ≠ []) :
      Step .read s { s with caller := .reading, pending := rest, out := s.out ++ buf }
  | nothing {s : State} {timeoutMs ready : ℤ} {read : Except Errno (List UInt8)} {rest : List UInt8}
      (hc : s.caller = .polled timeoutMs ready) (hkernel : Reads s.pending read rest)
      (hread : ptyRead timeoutMs ready read = .ok []) :
      Step .read s { s with caller := .empty, pending := rest, late := [] }
  | again {s : State} {ended : Option ℤ} (hc : s.caller = .empty)
      (hstatus : pollStatus s.ended s.child = (ptyRunning, ended)) :
      Step .status s { s with caller := .reading, ended := ended }
  | stop {s : State} {status : ℤ} {ended : Option ℤ} (hc : s.caller = .empty)
      (hstatus : pollStatus s.ended s.child = (status, ended)) (hended : status ≠ ptyRunning) :
      Step .status s { s with caller := .stopped, ended := ended }

section
variable {s t : State} {a : Action} {st : ExitStatus} {timeoutMs ready : ℤ}
  {pending buf rest : List UInt8} {read : Except Errno (List UInt8)}

/-- What a read that answers took was at the front, and it took something if there was anything. -/
theorem ptyRead_reads (hready : 0 < ready) (hkernel : Reads pending read rest)
    (hread : ptyRead timeoutMs ready read = .ok buf) :
    pending = buf ++ rest ∧ (buf = [] → rest = []) := by
  have hnot : ¬ ready ≤ 0 := Int.not_le.mpr hready
  unfold ptyRead at hread
  by_cases hms : timeoutMs < 0
  · rw [if_pos hms] at hread
    cases hread
  · rw [if_neg hms, if_neg hnot] at hread
    cases read with
    | ok front =>
      injection hread with hsame
      subst hsame
      exact ⟨hkernel.1, hkernel.2.2⟩
    | error e =>
      obtain ⟨hpending, hrest⟩ := hkernel
      cases e with
      | other => cases hread
      | eio | eagain | eintr =>
        injection hread with hsame
        subst hsame hpending hrest
        exact ⟨rfl, fun _ => rfl⟩

/-! ### What the terminal passes on -/

theorem flatMap_shown_eq_nil (flags : OutputFlags) (bs : List UInt8) :
    bs.flatMap flags.shown = [] ↔ bs = [] := by
  cases bs with
  | nil => exact Iff.rfl
  | cons b bs =>
    rw [flatMap_cons, append_eq_nil_iff, OutputFlags.shown]
    split <;> simp

/-- Up to the first byte that is altered, if any is, the terminal passes on what the child
writes. -/
def Compares (altered : Bool) (written shown : List UInt8) : Prop :=
  match altered with
  | false => shown = written
  | true => ∃ front a b, written = front ++ 10 :: a ∧ shown = front ++ 13 :: b

theorem compares_flatMap (flags : OutputFlags) (bs : List UInt8) :
    Compares (flags.alters bs) bs (bs.flatMap flags.shown) := by
  induction bs with
  | nil =>
    rw [OutputFlags.alters, contains_nil, Bool.and_false]
    rfl
  | cons b bs ih =>
    by_cases hb : (flags.opost && flags.onlcr && b = 10) = true
    · obtain ⟨hboth, hfeed⟩ := Bool.and_eq_true_iff.mp hb
      have hfeed := of_decide_eq_true hfeed
      subst hfeed
      rw [OutputFlags.alters, hboth, contains_cons, beq_self_eq_true, Bool.true_or, flatMap_cons,
        OutputFlags.shown, if_pos hb]
      exact ⟨[], bs, 10 :: bs.flatMap flags.shown, rfl, rfl⟩
    · have hsame : flags.alters (b :: bs) = flags.alters bs := by
        rw [OutputFlags.alters, OutputFlags.alters, contains_cons]
        cases hboth : flags.opost && flags.onlcr with
        | false => rfl
        | true =>
          have hfeed : ¬ b = 10 := by simpa [hboth] using hb
          rw [beq_false_of_ne (Ne.symm hfeed), Bool.false_or]
      rw [hsame, flatMap_cons, OutputFlags.shown, if_neg hb, singleton_append]
      cases halters : flags.alters bs with
      | false =>
        rw [halters] at ih
        exact congrArg (b :: ·) ih
      | true =>
        rw [halters] at ih
        obtain ⟨front, a, c, hwritten, hshown⟩ := ih
        exact ⟨b :: front, a, c, congrArg (b :: ·) hwritten, congrArg (b :: ·) hshown⟩

theorem Compares.append {altered altered' : Bool} {written shown written' shown' : List UInt8}
    (h : Compares altered written shown) (h' : Compares altered' written' shown') :
    Compares (altered || altered') (written ++ written') (shown ++ shown') := by
  cases altered with
  | true =>
    obtain ⟨front, a, b, rfl, rfl⟩ := h
    exact ⟨front, a ++ written', b ++ shown', by simp, by simp⟩
  | false =>
    have hsame : shown = written := h
    subst hsame
    cases altered' with
    | false => exact congrArg (shown ++ ·) h'
    | true =>
      obtain ⟨front, a, b, rfl, rfl⟩ := h'
      exact ⟨shown ++ front, a, b, by simp, by simp⟩

/-! ### The invariant -/

/-- What the caller's place says of the bytes that are pending. -/
def Caller.Sound (s : State) : Caller → Prop
  | .reading => True
  | .polled _ ready => 0 < ready
  | .empty => s.pending = [] ↔ s.late = []
  | .stopped => (s.pending = [] ↔ s.late = []) ∧ s.child.isSome = true

structure Inv (s : State) : Prop where
  account : s.out ++ s.pending = s.shown
  compared : Compares s.altered s.written s.shown
  caller : s.caller.Sound s
  ended : s.ended.isSome = true → s.child.isSome = true

theorem Inv.start : Inv .start := ⟨rfl, rfl, trivial, fun h => by cases h⟩

/-- The status is not `ptyRunning` just where the child has ended. -/
theorem Inv.status (h : Inv s) {status : ℤ} {ended : Option ℤ}
    (hstatus : pollStatus s.ended s.child = (status, ended)) :
    (ended.isSome = true → s.child.isSome = true) ∧
      (status ≠ ptyRunning → s.child.isSome = true) := by
  unfold pollStatus at hstatus
  cases hended : s.ended with
  | some known =>
    have hchild := h.ended (by rw [hended]; rfl)
    exact ⟨fun _ => hchild, fun _ => hchild⟩
  | none =>
    cases hchild : s.child with
    | some st => exact ⟨fun _ => rfl, fun _ => rfl⟩
    | none =>
      rw [hended, hchild] at hstatus
      injection hstatus with hrunning hnone
      refine ⟨fun hsome => ?_, fun hne => absurd hrunning.symm hne⟩
      rw [← hnone] at hsome
      cases hsome

/-- A child that has not ended may still write, whatever the caller does. -/
theorem Inv.write (h : Inv s) (hrun : s.child = none) (bs : List UInt8) : Inv (s.write bs) where
  account := by
    have haccount := h.account
    simp only [State.write]
    rw [← haccount, append_assoc]
  compared := h.compared.append (compares_flatMap s.flags bs)
  caller := by
    have hc := h.caller
    have hnothing : (s.pending = [] ↔ s.late = []) →
        ((s.write bs).pending = [] ↔ (s.write bs).late = []) := by
      intro hsame
      simp only [State.write, append_eq_nil_iff, flatMap_shown_eq_nil, hsame]
    cases hcaller : s.caller with
    | reading =>
      simp only [State.write, hcaller]
      trivial
    | polled timeoutMs ready =>
      rw [hcaller] at hc
      simp only [State.write, hcaller]
      exact hc
    | empty =>
      rw [hcaller] at hc
      have hsound := hnothing hc
      simp only [State.write, hcaller] at hsound ⊢
      exact hsound
    | stopped =>
      rw [hcaller] at hc
      obtain ⟨-, hended⟩ := hc
      rw [hrun] at hended
      cases hended
  ended := h.ended

theorem Inv.step (h : Inv s) (hs : Step a s t) : Inv t := by
  have hcaller := h.caller
  cases hs with
  | write hrun => exact h.write hrun _
  | setFlags hrun => exact ⟨h.account, h.compared, hcaller, h.ended⟩
  | exit hrun =>
    refine ⟨h.account, h.compared, ?_, fun _ => rfl⟩
    cases hc : s.caller with
    | reading => trivial
    | polled timeoutMs ready | empty =>
      rw [hc] at hcaller
      exact hcaller
    | stopped =>
      rw [hc] at hcaller
      exact ⟨hcaller.1, rfl⟩
  | ready hc hms hpoll hready => exact ⟨h.account, h.compared, hready, h.ended⟩
  | timedOut hc hpoll hready hread =>
    exact ⟨h.account, h.compared, iff_of_true (hpoll.2 hready) rfl, h.ended⟩
  | chunk hc hkernel hread hbuf =>
    rw [hc] at hcaller
    obtain ⟨hpending, -⟩ := ptyRead_reads hcaller hkernel hread
    refine ⟨?_, h.compared, trivial, h.ended⟩
    have haccount := h.account
    rw [hpending] at haccount
    simp only
    rw [append_assoc]
    exact haccount
  | nothing hc hkernel hread =>
    rw [hc] at hcaller
    obtain ⟨hpending, hrest⟩ := ptyRead_reads hcaller hkernel hread
    have hempty := hrest rfl
    refine ⟨?_, h.compared, iff_of_true hempty rfl, h.ended⟩
    have haccount := h.account
    rw [hpending] at haccount
    exact haccount
  | again hc hstatus => exact ⟨h.account, h.compared, trivial, (h.status hstatus).1⟩
  | stop hc hstatus hended =>
    rw [hc] at hcaller
    obtain ⟨hkept, hchild⟩ := h.status hstatus
    exact ⟨h.account, h.compared, ⟨hcaller, hchild hended⟩, hkept⟩

theorem Inv.reach (h : Reaches Step anyAction .start s) : Inv s :=
  h.invariant (fun hs _ hstep => hs.step hstep) .start

end

/-- Where the loop has stopped the child has ended, and the caller has the front of what the
terminal passed on. It has all the child wrote just where the terminal altered nothing of it and the
child wrote nothing after the read that found nothing. -/
theorem drained_iff {s : State} (h : Reaches Step anyAction .start s)
    (hstop : s.caller = .stopped) :
    s.child.isSome = true ∧ s.out <+: s.shown ∧ (s.out = s.shown ↔ s.late = []) ∧
      (s.out = s.written ↔ s.altered = false ∧ s.late = []) := by
  have hinv := Inv.reach h
  have hcaller := hinv.caller
  rw [hstop] at hcaller
  obtain ⟨hpending, hchild⟩ := hcaller
  have haccount := hinv.account
  have hall : s.out = s.shown ↔ s.late = [] := by
    rw [← haccount, self_eq_append_right]
    exact hpending
  refine ⟨hchild, ⟨s.pending, haccount⟩, hall, ?_⟩
  have hcompared := hinv.compared
  cases haltered : s.altered with
  | false =>
    rw [haltered] at hcompared
    have hsame : s.shown = s.written := hcompared
    rw [← hsame, hall]
    exact (and_iff_right rfl).symm
  | true =>
    rw [haltered] at hcompared
    obtain ⟨front, a, b, hwritten, hshown⟩ := hcompared
    refine iff_of_false (fun hout => ?_) (fun hplain => Bool.noConfusion hplain.1)
    -- the byte behind `front` is a line feed in one and a carriage return in the other
    rw [hout, hwritten, hshown, append_assoc, append_cancel_left_eq, cons_append] at haccount
    exact absurd (List.cons.inj haccount).1 (by decide)

/-- A child that ends is read to its end. -/
theorem read_to_end {s : State} (h : Reaches Step anyAction .start s) (hrun : s.child = none)
    (hc : s.caller = .reading) (hended : s.ended = none) (hpending : s.pending ≠ [])
    (hfits : s.pending.length ≤ readChunk) :
    ∃ t, Reaches Step anyAction .start t ∧ t.caller = .stopped ∧ t.written = s.written ∧
      t.out = s.out ++ s.pending ∧ t.altered = s.altered ∧ t.late = [] := by
  have hexit := h.next trivial (@Step.exit _ (.code 0) hrun)
  have hpolls : ∀ pending, Polls (pollTimeout 50) pending 1 :=
    fun _ => ⟨by decide, fun h => absurd h (by decide)⟩
  have hready := hexit.next trivial (@Step.ready _ 50 1 hc (by decide) (hpolls _) (by decide))
  have hchunk := hready.next trivial
    (@Step.chunk _ 50 1 (.ok s.pending) s.pending [] rfl ⟨(append_nil _).symm, hfits,
      fun _ => rfl⟩ rfl hpending)
  have hhangup := hchunk.next trivial (@Step.ready _ 50 1 rfl (by decide) (hpolls _) (by decide))
  have hempty := hhangup.next trivial (@Step.nothing _ 50 1 (.error .eio) [] rfl ⟨rfl, rfl⟩ rfl)
  have hstopped := hempty.next trivial
    (@Step.stop _ 0 (some 0) rfl (by simp only [hended]; rfl) (by decide))
  exact ⟨_, hstopped, rfl, rfl, rfl, rfl, rfl⟩

/-- A child that turns its terminal's processing off, writes a line and ends is read to its end. -/
theorem drained_after_exit :
    ∃ s, Reaches Step anyAction .start s ∧ s.caller = .stopped ∧ s.out = [104, 105, 10] := by
  have hstart : Reaches Step anyAction .start .start := .refl _
  have hraw := hstart.next trivial (@Step.setFlags _ ⟨false, true⟩ rfl)
  have hwritten := hraw.next trivial (@Step.write _ [104, 105, 10] rfl)
  obtain ⟨s, hs, hstop, hall, -, haltered, hlate⟩ :=
    read_to_end hwritten rfl rfl rfl (by decide) (by decide)
  refine ⟨s, hs, hstop, ?_⟩
  rw [(drained_iff hs hstop).2.2.2.mpr ⟨haltered, hlate⟩, hall]
  rfl

/-- A child that writes and ends between the empty read and the status, and one whose terminal is as
it was opened and that writes a line before the first read. -/
theorem last_words_lost :
    (∃ s, Reaches Step anyAction .start s ∧ s.caller = .stopped ∧
      s.written = [104, 105] ∧ s.out = []) ∧
    ∃ s, Reaches Step anyAction .start s ∧ s.caller = .stopped ∧
      s.written = [104, 105, 10] ∧ s.out = [104, 105, 13, 10] := by
  have hstart : Reaches Step anyAction .start .start := .refl _
  constructor
  · have hempty := hstart.next trivial
      (@Step.timedOut _ 50 0 (.error .eagain) rfl ⟨by decide, fun _ => rfl⟩ (by decide) rfl)
    have hwritten := hempty.next trivial (@Step.write _ [104, 105] rfl)
    have hexit := hwritten.next trivial (@Step.exit _ (.code 0) rfl)
    have hstopped := hexit.next trivial (@Step.stop _ 0 (some 0) rfl rfl (by decide))
    exact ⟨_, hstopped, rfl, rfl, rfl⟩
  · have hwritten := hstart.next trivial (@Step.write _ [104, 105, 10] rfl)
    obtain ⟨s, hs, hstop, hall, hout, -⟩ := read_to_end hwritten rfl rfl rfl (by decide) (by decide)
    exact ⟨s, hs, hstop, hall, hout⟩

end AxisBridge.Pty
