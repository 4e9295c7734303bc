import AxisBridge.Lib.Reach
import Mathlib.Algebra.Group.Int.Defs
import Mathlib.Algebra.Order.Group.Nat

/-! The socket handles of a process: where each kind is minted and looked up, and which socket a
handle reaches on which thread. -/
namespace AxisBridge.Net
open Function
open List hiding set

/-- A socket that was created: its handle, whether it listens, and the thread that made it. -/
structure Made where
  handle : ℤ
  listener : Bool
  thread : ℕ

/-- The tables of a process; a socket is its place among those made. -/
structure State where
  streams : ℕ → ℤ → Option ℕ
  tlNext : ℕ → ℤ
  registry : ℤ → Option ℕ
  counter : ℤ
  sharedListeners : ℤ → Option (ℤ × ℤ)
  made : List Made

def State.start : State := ⟨fun _ _ => none, fun _ => 1, fun _ => none, 1, fun _ => none, []⟩

inductive Answer
  | unit
  | int (n : ℤ)
  | pair (handle port : ℤ)
  | bytes (data : List UInt8)

/-- What a call leaves, which socket it got hold of, and what it answers or panics with. -/
structure Reply where
  state : State
  reached : Option ℕ
  answer : Except String Answer

/-- A call of a thread, with what the world makes of its system call. -/
inductive Call
  | listen (port : ℤ) (bound : Except String ℤ)
  | listenShared (port : ℤ) (bound : Except String ℤ)
  | connect (port : ℤ) (connected : Bool)
  | accept (handle : ℤ) (accepted : Except String Unit)
  | setReadTimeout (handle millis : ℤ) (set : Except String Unit)
  | read (handle : ℤ) (got : Except String (List UInt8))
  | write (handle : ℤ) (data : List UInt8) (written : Except String Unit)
  | close (handle : ℤ)

/-- Arithmetic of `i64`. -/
def wrap (n : ℤ) : ℤ := n.bmod (2 ^ 64)

/-- A new socket in the table of all threads. -/
def State.register (st : State) (h : ℤ) (listener : Bool) (me : ℕ) : State :=
  { st with
    registry := update st.registry h (some st.made.length)
    counter := wrap (st.counter + 1)
    made := st.made ++ [⟨h, listener, me⟩] }

def insertListener (threadlocal : Bool) (me : ℕ) (st : State) : ℤ × State :=
  let h := if threadlocal then wrap (-st.counter) else st.counter
  (h, st.register h true me)

def insertStream (threadlocal : Bool) (me : ℕ) (st : State) : ℤ × State :=
  if threadlocal then
    let h := st.tlNext me
    (h, { st with
      streams := update st.streams me (update (st.streams me) h (some st.made.length))
      tlNext := update st.tlNext me (wrap (h + 1))
      made := st.made ++ [⟨h, false, me⟩] })
  else (st.counter, st.register st.counter false me)

/-- The entry of a handle: in the table of the thread that asks, for a stream. -/
def lookup (threadlocal : Bool) (st : State) (me : ℕ) (h : ℤ) : Option ℕ :=
  if threadlocal && decide (0 < h) then st.streams me h else st.registry h

def unknownHandle (who : String) (h : ℤ) : String := s!"{who}: unknown socket handle {h}"

def getSock (threadlocal : Bool) (st : State) (me : ℕ) (h : ℤ) (who : String) : Except String ℕ :=
  match lookup threadlocal st me h with
  | some k => .ok k
  | none => .error (unknownHandle who h)

def removeSock (threadlocal : Bool) (me : ℕ) (h : ℤ) (st : State) : Option ℕ × State :=
  if threadlocal && decide (0 < h) then
    (st.streams me h,
      { st with streams := update st.streams me (update (st.streams me) h none) })
  else (st.registry h, { st with registry := update st.registry h none })

def State.isListener (st : State) (k : ℕ) : Bool := (st.made[k]?.map Made.listener).getD false

/-- A call that needs a stream. -/
def onStream (threadlocal : Bool) (me : ℕ) (h : ℤ) (who : String) (io : Except String Answer)
    (st : State) : Reply :=
  match getSock threadlocal st me h who with
  | .error why => ⟨st, none, .error why⟩
  | .ok k =>
    if st.isListener k then ⟨st, some k, .error s!"{who}: handle {h} is a listener, not a stream"⟩
    else ⟨st, some k, io⟩

/-- A port that fits its type. -/
def portOf (who : String) (n : ℤ) : Except String ℤ :=
  if 0 ≤ n ∧ n ≤ 65535 then .ok n else .error s!"{who}: port {n} out of range 0..=65535"

def tcpListen (threadlocal : Bool) (me : ℕ) (n : ℤ) (bound : Except String ℤ) (st : State) :
    Reply :=
  match portOf "tcp_listen" n with
  | .error why => ⟨st, none, .error why⟩
  | .ok _ =>
    match bound with
    | .error why => ⟨st, none, .error why⟩
    | .ok port =>
      let minted := insertListener threadlocal me st
      ⟨minted.2, none, .ok (.pair minted.1 port)⟩

def tcpListenShared (threadlocal : Bool) (me : ℕ) (n : ℤ) (bound : Except String ℤ) (st : State) :
    Reply :=
  match portOf "tcp_listen_shared" n with
  | .error why => ⟨st, none, .error why⟩
  | .ok asked =>
    match st.sharedListeners asked with
    | some (h, port) => ⟨st, none, .ok (.pair h port)⟩
    | none =>
      match bound with
      | .error why => ⟨st, none, .error why⟩
      | .ok port =>
        let minted := insertListener threadlocal me st
        let shared := update st.sharedListeners asked (some (minted.1, port))
        ⟨{ minted.2 with sharedListeners := shared }, none, .ok (.pair minted.1 port)⟩

def tcpConnect (threadlocal : Bool) (me : ℕ) (n : ℤ) (connected : Bool) (st : State) : Reply :=
  match portOf "tcp_connect" n with
  | .error why => ⟨st, none, .error why⟩
  | .ok _ =>
    if connected then
      let minted := insertStream threadlocal me st
      ⟨minted.2, none, .ok (.int minted.1)⟩
    else ⟨st, none, .ok (.int (-1))⟩

def tcpAccept (threadlocal : Bool) (me : ℕ) (h : ℤ) (accepted : Except String Unit) (st : State) :
    Reply :=
  match getSock threadlocal st me h "tcp_accept" with
  | .error why => ⟨st, none, .error why⟩
  | .ok k =>
    if st.isListener k then
      match accepted with
      | .error why => ⟨st, some k, .error why⟩
      | .ok () =>
        let minted := insertStream threadlocal me st
        ⟨minted.2, some k, .ok (.int minted.1)⟩
    else ⟨st, some k, .error s!"tcp_accept: handle {h} is a stream, not a listener"⟩

def tcpClose (threadlocal : Bool) (me : ℕ) (h : ℤ) (st : State) : Reply :=
  let removed := removeSock threadlocal me h st
  match removed.1 with
  | some k => ⟨removed.2, some k, .ok .unit⟩
  | none => ⟨removed.2, none, .error (unknownHandle "tcp_close" h)⟩

def perform (threadlocal : Bool) (me : ℕ) (st : State) : Call → Reply
  | .listen port bound => tcpListen threadlocal me port bound st
  | .listenShared port bound => tcpListenShared threadlocal me port bound st
  | .connect port connected => tcpConnect threadlocal me port connected st
  | .accept h accepted => tcpAccept threadlocal me h accepted st
  | .setReadTimeout h _ set =>
    onStream threadlocal me h "tcp_set_read_timeout" (set.map fun _ => .unit) st
  | .read h got => onStream threadlocal me h "tcp_read" (got.map .bytes) st
  | .write h _ written => onStream threadlocal me h "tcp_write" (written.map fun _ => .unit) st
  | .close h => tcpClose threadlocal me h st

/-- The handle that a call is given. -/
def Call.handle : Call → Option ℤ
  | .accept h _ => some h
  | .setReadTimeout h _ _ => some h
  | .read h _ => some h
  | .write h _ _ => some h
  | .close h => some h
  | _ => none

/-- A call of any thread. -/
def Step (threadlocal : Bool) (a : ℕ × Call) (st st' : State) : Prop :=
  st' = (perform threadlocal a.1 st a.2).state

/-- No counter has run through all positive numbers. -/
def Counts (st : State) (a : ℕ × Call) : Prop := 0 < st.counter ∧ 0 < st.tlNext a.1

/-- The handle was returned for the socket. -/
def State.Returned (st : State) (h : ℤ) (k : ℕ) : Prop := ∃ m, st.made[k]? = some m ∧ m.handle = h

/-- The call gets hold of the socket, or panics on a handle it does not know. -/
def Faithful (r : Reply) (h : ℤ) (k : ℕ) : Prop :=
  r.reached = some k ∨ r.reached = none ∧ ∃ who, r.answer = .error (unknownHandle who h)

/-- A stream's handle is used on the thread that made the stream, or on one with no open stream of
that number. -/
def KeptHome (st : State) (me : ℕ) (h : ℤ) (k : ℕ) : Prop :=
  h ≤ 0 ∨ (∀ m, st.made[k]? = some m → m.thread = me) ∨ st.streams me h = none

variable {st st' : State} {me t : ℕ} {h : ℤ} {j k : ℕ} {m n : Made} {who : String} {c : Call}

/-- What holds of the tables in threadlocal mode: an entry is a socket with the handle it is found
under, a stream of the thread or a listener; the sign tells which, and no two streams of a thread
and no two listeners have one handle. -/
structure Sound (st : State) : Prop where
  stream : ∀ t h k, st.streams t h = some k →
    ∃ m, st.made[k]? = some m ∧ m.handle = h ∧ m.listener = false ∧ m.thread = t
  listener : ∀ h k, st.registry h = some k →
    ∃ m, st.made[k]? = some m ∧ m.handle = h ∧ m.listener = true
  sign : ∀ m ∈ st.made, if m.listener then m.handle < 0 else 0 < m.handle
  one :
    ∀ (j k : ℕ) (m n : Made), st.made[j]? = some m → st.made[k]? = some n → m.handle = n.handle →
    m.listener = n.listener → (m.listener = false → m.thread = n.thread) → j = k
  streamFresh : ∀ t, 0 < st.tlNext t →
    ∀ m ∈ st.made, m.listener = false → m.thread = t → m.handle < st.tlNext t
  listenerFresh : 0 < st.counter → ∀ m ∈ st.made, m.listener = true → -st.counter < m.handle
  counterRange : st.counter < 2 ^ 63
  nextRange : ∀ t, st.tlNext t < 2 ^ 63

theorem getElem?_concat {ms : List Made} :
    (ms ++ [m])[k]? = some n ↔ ms[k]? = some n ∨ k = ms.length ∧ m = n := by
  rcases Nat.lt_trichotomy k ms.length with hlt | rfl | hgt
  · rw [getElem?_append_left hlt]
    constructor
    · exact .inl
    · rintro (hk | ⟨rfl, -⟩)
      · exact hk
      · exact absurd hlt (lt_irrefl _)
  · rw [getElem?_concat_length, getElem?_eq_none (le_refl _)]
    simp
  · rw [getElem?_eq_none (by rw [length_append, length_singleton]; omega),
      getElem?_eq_none (le_of_lt hgt)]
    constructor
    · nofun
    · rintro (hk | ⟨rfl, -⟩)
      · cases hk
      · exact absurd hgt (lt_irrefl _)

theorem mem_of_made (hk : st.made[k]? = some m) : m ∈ st.made := mem_of_getElem? hk

theorem wrap_lt (n : ℤ) : wrap n < 2 ^ 63 := by
  have hlt := Int.bmod_lt (x := n) (m := 2 ^ 64) (by decide)
  unfold wrap
  omega

/-- A counter goes on by one, or has run through its positive numbers. -/
theorem wrap_succ (hpos : 0 < h) (hlt : h < 2 ^ 63) : wrap (h + 1) = h + 1 ∨ wrap (h + 1) ≤ 0 := by
  unfold wrap
  rw [Int.bmod_def]
  omega

theorem wrap_neg (hpos : 0 < h) (hlt : h < 2 ^ 63) : wrap (-h) = -h := by
  unfold wrap
  rw [Int.bmod_def]
  omega

theorem Sound.start : Sound .start where
  stream := nofun
  listener := nofun
  sign := nofun
  one := nofun
  streamFresh := nofun
  listenerFresh := nofun
  counterRange := by decide
  nextRange := fun _ => by
    have hone : (1 : ℤ) < 2 ^ 63 := by decide
    exact hone

/-! ### What the mints keep -/

/-- A handle stays the one that was made for it. -/
theorem made_concat {ms : List Made} {P : Made → Prop} (h : ∃ m, ms[k]? = some m ∧ P m) (n : Made) :
    ∃ m, (ms ++ [n])[k]? = some m ∧ P m := by
  obtain ⟨m, hm, hP⟩ := h
  exact ⟨m, getElem?_concat.mpr (.inl hm), hP⟩

theorem made_last {ms : List Made} (n : Made) : (ms ++ [n])[ms.length]? = some n :=
  getElem?_concat.mpr (.inr ⟨rfl, rfl⟩)

/-- Two handles are of one place if nothing before had the handle that was made last. -/
theorem Sound.one_concat (hs : Sound st) {l : Made}
    (hfresh : ∀ m ∈ st.made, m.listener = l.listener → (m.listener = false → m.thread = l.thread) →
      m.handle ≠ l.handle)
    (j k : ℕ) (m n : Made) (hj : (st.made ++ [l])[j]? = some m) (hk : (st.made ++ [l])[k]? = some n)
    (hhandle : m.handle = n.handle) (hkind : m.listener = n.listener)
    (hthread : m.listener = false → m.thread = n.thread) : j = k := by
  rcases getElem?_concat.mp hj with hj | ⟨rfl, rfl⟩
  · rcases getElem?_concat.mp hk with hk | ⟨rfl, rfl⟩
    · exact hs.one j k m n hj hk hhandle hkind hthread
    · exact absurd hhandle (hfresh m (mem_of_made hj) hkind hthread)
  · rcases getElem?_concat.mp hk with hk | ⟨rfl, -⟩
    · exact absurd hhandle.symm
        (hfresh n (mem_of_made hk) hkind.symm fun hl => (hthread (hkind.trans hl)).symm)
    · rfl

theorem Sound.insertListener (hs : Sound st) (hpos : 0 < st.counter) (me : ℕ) :
    Sound (insertListener true me st).2 := by
  have hneg : wrap (-st.counter) = -st.counter := wrap_neg hpos hs.counterRange
  simp only [Net.insertListener, State.register, if_true, hneg]
  refine ⟨?_, ?_, ?_, ?_, ?_, ?_, wrap_lt _, hs.nextRange⟩ <;> dsimp only
  · intro t h k hk
    exact made_concat (hs.stream t h k hk) _
  · intro h k hk
    by_cases hh : h = -st.counter
    · subst hh
      rw [update_self] at hk
      cases hk
      exact ⟨_, made_last _, rfl, rfl⟩
    · rw [update_of_ne hh] at hk
      exact made_concat (hs.listener h k hk) _
  · intro m hm
    rcases mem_append.mp hm with hm | hm
    · exact hs.sign m hm
    · obtain rfl := mem_singleton.mp hm
      simp only [if_true]
      omega
  · refine hs.one_concat fun m hm hkind _ => ?_
    have hfresh := hs.listenerFresh hpos m hm hkind
    exact hfresh.ne'
  · intro t ht m hm hkind hthread
    rcases mem_append.mp hm with hm | hm
    · exact hs.streamFresh t ht m hm hkind hthread
    · rw [mem_singleton.mp hm] at hkind
      cases hkind
  · intro hnext m hm hkind
    rcases wrap_succ hpos hs.counterRange with heq | hle
    · rw [heq]
      rcases mem_append.mp hm with hm | hm
      · have hfresh := hs.listenerFresh hpos m hm hkind
        omega
      · rw [mem_singleton.mp hm]
        simp only
        omega
    · exact absurd hnext (Int.not_lt.mpr hle)

theorem Sound.insertStream (hs : Sound st) (me : ℕ) (hpos : 0 < st.tlNext me) :
    Sound (insertStream true me st).2 := by
  simp only [Net.insertStream, if_true]
  refine ⟨?_, ?_, ?_, ?_, ?_, ?_, hs.counterRange, ?_⟩ <;> dsimp only
  · intro t h k hk
    by_cases ht : t = me
    · subst ht
      rw [update_self] at hk
      by_cases hh : h = st.tlNext t
      · subst hh
        rw [update_self] at hk
        cases hk
        exact ⟨_, made_last _, rfl, rfl, rfl⟩
      · rw [update_of_ne hh] at hk
        exact made_concat (hs.stream t h k hk) _
    · rw [update_of_ne ht] at hk
      exact made_concat (hs.stream t h k hk) _
  · intro h k hk
    exact made_concat (hs.listener h k hk) _
  · intro m hm
    rcases mem_append.mp hm with hm | hm
    · exact hs.sign m hm
    · obtain rfl := mem_singleton.mp hm
      exact hpos
  · refine hs.one_concat fun m hm hkind hthread => ?_
    have hfresh := hs.streamFresh me hpos m hm hkind (hthread hkind)
    exact hfresh.ne
  · intro t ht m hm hkind hthread
    by_cases hme : t = me
    · subst hme
      rw [update_self] at ht ⊢
      rcases wrap_succ hpos (hs.nextRange t) with heq | hle
      · rw [heq]
        rcases mem_append.mp hm with hm | hm
        · have hfresh := hs.streamFresh t hpos m hm hkind hthread
          omega
        · rw [mem_singleton.mp hm]
          simp only
          omega
      · exact absurd ht (Int.not_lt.mpr hle)
    · rw [update_of_ne hme] at ht ⊢
      rcases mem_append.mp hm with hm | hm
      · exact hs.streamFresh t ht m hm hkind hthread
      · rw [mem_singleton.mp hm] at hthread
        exact absurd hthread.symm hme
  · intro hnext m hm hkind
    rcases mem_append.mp hm with hm | hm
    · exact hs.listenerFresh hnext m hm hkind
    · rw [mem_singleton.mp hm] at hkind
      cases hkind
  · intro t
    by_cases ht : t = me
    · rw [ht, update_self]
      exact wrap_lt _
    · rw [update_of_ne ht]
      exact hs.nextRange t

theorem Sound.removeSock (hs : Sound st) (me : ℕ) (h : ℤ) : Sound (removeSock true me h st).2 := by
  unfold Net.removeSock
  split
  · refine ⟨fun t h' k hk => ?_, hs.listener, hs.sign, hs.one, hs.streamFresh, hs.listenerFresh,
      hs.counterRange, hs.nextRange⟩
    dsimp only at hk
    apply hs.stream t h' k
    by_cases ht : t = me
    · subst ht
      rw [update_self] at hk
      by_cases hh : h' = h
      · rw [hh, update_self] at hk
        cases hk
      · rwa [update_of_ne hh] at hk
    · rwa [update_of_ne ht] at hk
  · refine ⟨hs.stream, fun h' k hk => ?_, hs.sign, hs.one, hs.streamFresh, hs.listenerFresh,
      hs.counterRange, hs.nextRange⟩
    dsimp only at hk
    apply hs.listener h' k
    by_cases hh : h' = h
    · rw [hh, update_self] at hk
      cases hk
    · rwa [update_of_ne hh] at hk

/-! ### Runs -/

theorem Sound.onStream (hs : Sound st) (h : ℤ) (io : Except String Answer) :
    Sound (onStream true me h who io st).state := by
  unfold Net.onStream
  split
  · exact hs
  · split
    · exact hs
    · exact hs

theorem Sound.step (hs : Sound st) (hcounts : Counts st (me, c)) :
    Sound (perform true me st c).state := by
  obtain ⟨hcounter, hnext⟩ := hcounts
  cases c with
  | listen port bound =>
    simp only [perform]
    unfold tcpListen
    split
    · exact hs
    · split
      · exact hs
      · exact hs.insertListener hcounter me
  | listenShared port bound =>
    simp only [perform]
    unfold tcpListenShared
    split
    · exact hs
    · split
      · exact hs
      · split
        · exact hs
        · have hminted := hs.insertListener hcounter me
          exact ⟨hminted.stream, hminted.listener, hminted.sign, hminted.one, hminted.streamFresh,
            hminted.listenerFresh, hminted.counterRange, hminted.nextRange⟩
  | connect port connected =>
    simp only [perform]
    unfold tcpConnect
    split
    · exact hs
    · split
      · exact hs.insertStream me hnext
      · exact hs
  | accept h accepted =>
    simp only [perform]
    unfold tcpAccept
    split
    · exact hs
    · split
      · split
        · exact hs
        · exact hs.insertStream me hnext
      · exact hs
  | setReadTimeout h millis set | read h got | write h data written => exact hs.onStream h _
  | close h =>
    simp only [perform, tcpClose]
    split
    · exact hs.removeSock me h
    · exact hs.removeSock me h

theorem Sound.of_reaches (h : Reaches (Step true) Counts .start st) : Sound st :=
  h.invariant (fun hs hcounts hstep => hstep ▸ hs.step hcounts) .start

/-! ### What a use gets hold of -/

/-- A call that is given a handle gets hold of what the lookup finds, and panics where it finds
nothing. -/
theorem perform_reached (hc : c.handle = some h) :
    (perform true me st c).reached = lookup true st me h ∧ (lookup true st me h = none →
      ∃ who, (perform true me st c).answer = .error (unknownHandle who h)) := by
  have hstream : ∀ who io, (onStream true me h who io st).reached = lookup true st me h ∧
      (lookup true st me h = none →
        ∃ who', (onStream true me h who io st).answer = .error (unknownHandle who' h)) := by
    intro who io
    unfold Net.onStream getSock
    cases lookup true st me h with
    | none => exact ⟨rfl, fun _ => ⟨who, rfl⟩⟩
    | some k =>
      simp only
      split
      · exact ⟨rfl, nofun⟩
      · exact ⟨rfl, nofun⟩
  cases c with
  | listen port bound => cases hc
  | listenShared port bound => cases hc
  | connect port connected => cases hc
  | accept h accepted =>
    cases hc
    simp only [perform]
    unfold tcpAccept getSock
    cases lookup true st me h with
    | none => exact ⟨rfl, fun _ => ⟨_, rfl⟩⟩
    | some k =>
      simp only
      split
      · split
        · exact ⟨rfl, nofun⟩
        · exact ⟨rfl, nofun⟩
      · exact ⟨rfl, nofun⟩
  | setReadTimeout h millis set | read h got | write h data written =>
    cases hc
    exact hstream _ _
  | close h =>
    cases hc
    have hremoved : (removeSock true me h st).1 = lookup true st me h := by
      unfold Net.removeSock lookup
      split
      · rfl
      · rfl
    simp only [perform, tcpClose]
    rw [hremoved]
    cases lookup true st me h with
    | none => exact ⟨rfl, fun _ => ⟨_, rfl⟩⟩
    | some k => exact ⟨rfl, nofun⟩

/-- A handle that was returned for a socket finds it or nothing, unless it is a stream's and is used
on another thread with an open stream of its own under the number. -/
theorem Sound.lookup_iff (hs : Sound st) (hret : st.Returned h k) (me : ℕ) :
    (∀ j, lookup true st me h = some j → j = k) ↔ KeptHome st me h k := by
  obtain ⟨m, hk, rfl⟩ := hret
  have hsign := hs.sign m (mem_of_made hk)
  unfold lookup KeptHome
  by_cases hpos : 0 < m.handle
  · have hkind : m.listener = false := by
      cases hl : m.listener with
      | false => rfl
      | true =>
        rw [hl, if_pos rfl] at hsign
        omega
    rw [if_pos (by simpa using hpos)]
    cases hfound : st.streams me m.handle with
    | none => exact iff_of_true nofun (.inr (.inr rfl))
    | some j =>
      obtain ⟨n, hj, hhandle, hlistener, hthread⟩ := hs.stream me m.handle j hfound
      constructor
      · intro hsame
        right
        left
        intro m' hm'
        rw [← hsame j rfl, hj] at hm'
        cases hm'
        exact hthread
      · rintro (hle | hmine | hnone) j' hj'
        · omega
        · cases hj'
          apply hs.one j k n m hj hk hhandle (hlistener.trans hkind.symm)
          exact fun _ => hthread.trans (hmine m hk).symm
        · cases hnone
  · rw [if_neg (by simpa using hpos)]
    refine iff_of_true ?_ (.inl (Int.not_lt.mp hpos))
    intro j hj
    obtain ⟨n, hn, hhandle, hlistener⟩ := hs.listener m.handle j hj
    have hkind : m.listener = true := by
      cases hl : m.listener with
      | true => rfl
      | false =>
        rw [hl] at hsign
        exact absurd hsign hpos
    apply hs.one j k n m hn hk hhandle (hlistener.trans hkind.symm)
    intro hfalse
    rw [hlistener] at hfalse
    cases hfalse

/-- After any calls of any threads, a handle that was returned for a socket reaches it or is unknown
just when it is a listener's, is used on the thread that made the stream, or meets no open stream of
that number in the table of the thread that uses it. -/
theorem net_handle_faithful_iff (hrun : Reaches (Step true) Counts .start st)
    (hret : st.Returned h k) (me : ℕ) (hc : c.handle = some h) :
    Faithful (perform true me st c) h k ↔ KeptHome st me h k := by
  obtain ⟨hreached, hunknown⟩ := perform_reached hc
  rw [← (Sound.of_reaches hrun).lookup_iff hret me, Faithful, hreached]
  cases hfound : lookup true st me h with
  | none => exact iff_of_true (.inr ⟨rfl, hunknown hfound⟩) nofun
  | some j =>
    constructor
    · rintro (hj | ⟨hnone, -⟩) j' hj'
      · exact Option.some.inj (hj'.symm.trans hj)
      · cases hnone
    · intro hsame
      exact .inl (congrArg some (hsame j rfl))

/-- Two threads that have each made a connection. -/
theorem reaches_two_connections : ∃ st, Reaches (Step true) Counts .start st ∧
    st.made = [⟨1, false, 0⟩, ⟨1, false, 1⟩] ∧ st.streams 1 1 = some 1 := by
  have hpos : ∀ t, 0 < State.start.counter ∧ 0 < State.start.tlNext t :=
    fun _ => ⟨Int.one_pos, Int.one_pos⟩
  have hfirst : Reaches (Step true) Counts .start _ :=
    .of_step (a := (0, .connect 5432 true)) (hpos 0) rfl
  have hsecond := hfirst.next (a := (1, .connect 5432 true)) (hpos 1) rfl
  exact ⟨_, hsecond, rfl, rfl⟩

/-- The connection of a thread is read on that thread. -/
theorem net_handle_faithful_home : ∃ st, Reaches (Step true) Counts .start st ∧ st.Returned 1 0 ∧
    Faithful (perform true 0 st (.read 1 (.ok []))) 1 0 := by
  obtain ⟨st, hrun, hmade, -⟩ := reaches_two_connections
  have hret : st.Returned 1 0 := ⟨⟨1, false, 0⟩, by rw [hmade]; rfl, rfl⟩
  refine ⟨st, hrun, hret, (net_handle_faithful_iff hrun hret 0 rfl).mpr (.inr (.inl ?_))⟩
  intro m hm
  rw [hmade] at hm
  cases hm
  rfl

/-- Read on the other thread, its handle gets hold of the other connection. -/
theorem net_handle_reads_other : ∃ st, Reaches (Step true) Counts .start st ∧ st.Returned 1 0 ∧
    (perform true 1 st (.read 1 (.ok []))).reached = some 1 ∧
      ¬ Faithful (perform true 1 st (.read 1 (.ok []))) 1 0 := by
  obtain ⟨st, hrun, hmade, hother⟩ := reaches_two_connections
  have hret : st.Returned 1 0 := ⟨⟨1, false, 0⟩, by rw [hmade]; rfl, rfl⟩
  have hreached : (perform true 1 st (.read 1 (.ok []))).reached = some 1 :=
    (perform_reached (h := 1) rfl).1.trans hother
  refine ⟨st, hrun, hret, hreached, ?_⟩
  rintro (hzero | ⟨hnone, -⟩)
  · rw [hreached] at hzero
    cases hzero
  · rw [hreached] at hnone
    cases hnone

end AxisBridge.Net
