import AxisBridge.Lib.Reach
import AxisBridge.Lib.Volatile
import AxisBridge.Runtime.Text

/-! Durable writes of one file by any number of threads and processes, with readers of it, and power
lost at any time. -/
namespace AxisBridge.WriteDurable
open Option List Function Volatile

/-- The directory and the name in it, from the path's `parent` and `file_name`. -/
def place (path : String) (parent fileName : Option String) : Except String (String × String) :=
  match parent with
  | none => .error ("fs_write_bytes: path '" ++ path ++ "' has no parent directory")
  | some parent =>
    match fileName with
    | none => .error ("fs_write_bytes: path '" ++ path ++ "' has no file name")
    | some name => .ok (if parent = "" then "." else parent, name)

/-- The temporary name is unique per process id and count of the process. -/
def tmpName (fileName : String) (pid uniq : ℕ) : String :=
  fileName ++ ".tmp." ++ toString pid ++ "." ++ toString uniq

/-- A call: its temporary name, the file it made, and what it writes. -/
structure Write where
  pid : ℕ
  uniq : ℕ
  inode : ℕ
  content : Bytes

/-- Where a thread's call stands. -/
inductive Phase
  | idle
  | named (uniq : ℕ) (content : Bytes)
  | writing (uniq : ℕ) (content rest : Bytes) (inode : ℕ)
  | stored (uniq : ℕ) (content : Bytes) (inode : ℕ)
  | renamed (w : Write)
  | failed

/-- A process has its id for itself: none starts under an id that another had. -/
inductive Proc
  | unborn
  | alive
  | dead

/-- A thread is its process and its number there. `seq` is `WRITE_SEQ` of each process. A reader has
the file it opened and the bytes it has got so far. The last three are kept for the statements: the
writes whose rename took place and those whose call returned, both newest first, and what the
readers saw. -/
structure State where
  disk : Files String UInt8
  procs : ℕ → Proc
  seq : ℕ → ℕ
  phase : ℕ × ℕ → Phase
  reader : ℕ → Option (ℕ × Bytes)
  renamed : List Write
  returned : List Write
  seen : List (Option Bytes)

def State.to (st : State) (t : ℕ × ℕ) (p : Phase) : State :=
  { st with phase := update st.phase t p }

/-- The entry of a file that is there from the start. -/
def entryOf (initial : Option Bytes) : Option ℕ := initial.map fun _ => 0

/-- The file may be there already, with content that is on stable storage. -/
def State.start (file : String) (initial : Option Bytes) : State where
  disk :=
    ⟨fun n => .of (if n = file then entryOf initial else none), fun _ => .of (initial.getD []), 1⟩
  procs _ := .unborn
  seq _ := 0
  phase _ := .idle
  reader _ := none
  renamed := []
  returned := []
  seen := []

inductive Action
  | boot (pid : ℕ)
  | begin (t : ℕ × ℕ) (path : String) (content : Bytes)
  | open (t : ℕ × ℕ)
  | write (t : ℕ × ℕ) (bs : Bytes)
  | syncAll (t : ℕ × ℕ)
  | rename (t : ℕ × ℕ)
  | syncDir (t : ℕ × ℕ)
  | ioError (t : ℕ × ℕ)
  | look (r : ℕ)
  | take (r : ℕ) (bs : Bytes)
  | eof (r : ℕ)
  | crash

def Proc.crashed : Proc → Proc
  | .alive => .dead
  | p => p

/-- One call of the system by a thread that writes `file` in `dir`, or by a reader of it. A process
begins no more calls than `WRITE_SEQ` has numbers. -/
inductive Step (dir file : String) : Action → State → State → Prop
  | boot {st : State} {pid : ℕ} (hp : st.procs pid = .unborn) :
      Step dir file (.boot pid) st { st with procs := update st.procs pid .alive }
  | begin {st : State} {t : ℕ × ℕ} {path : String} {parent fileName : Option String}
      {content : Bytes}
      (hp : st.procs t.1 = .alive) (ht : st.phase t = .idle) (hseq : st.seq t.1 < 2 ^ 64)
      (hplace : place path parent fileName = .ok (dir, file)) :
      Step dir file (.begin t path content) st { st.to t (.named (st.seq t.1) content) with
        seq := update st.seq t.1 (st.seq t.1 + 1) }
  | open {st : State} {t : ℕ × ℕ} {uniq : ℕ} {content : Bytes} {disk : Files String UInt8}
      {inode : ℕ} (ht : st.phase t = .named uniq content)
      (hopen : st.disk.openTruncated (tmpName file t.1 uniq) = (disk, inode)) :
      Step dir file (.open t) st { st.to t (.writing uniq content content inode) with disk := disk }
  -- `write_all` goes on with what is left after each write
  | write {st : State} {t : ℕ × ℕ} {uniq inode : ℕ} {content bs rest : Bytes}
      (ht : st.phase t = .writing uniq content (bs ++ rest) inode) :
      Step dir file (.write t bs) st { st.to t (.writing uniq content rest inode) with
        disk := st.disk.write inode bs }
  | syncAll {st : State} {t : ℕ × ℕ} {uniq inode : ℕ} {content : Bytes}
      (ht : st.phase t = .writing uniq content [] inode) :
      Step dir file (.syncAll t) st
        { st.to t (.stored uniq content inode) with disk := st.disk.fsync inode }
  | rename {st : State} {t : ℕ × ℕ} {uniq inode : ℕ} {content : Bytes} {disk : Files String UInt8}
      (ht : st.phase t = .stored uniq content inode)
      (hrename : st.disk.rename (tmpName file t.1 uniq) file = some disk) :
      Step dir file (.rename t) st { st.to t (.renamed ⟨t.1, uniq, inode, content⟩) with
        disk := disk, renamed := ⟨t.1, uniq, inode, content⟩ :: st.renamed }
  -- the temporary file is gone
  | missing {st : State} {t : ℕ × ℕ} {uniq inode : ℕ} {content : Bytes}
      (ht : st.phase t = .stored uniq content inode)
      (hrename : st.disk.rename (tmpName file t.1 uniq) file = none) :
      Step dir file (.rename t) st (st.to t .failed)
  | syncDir {st : State} {t : ℕ × ℕ} {w : Write} (ht : st.phase t = .renamed w) :
      Step dir file (.syncDir t) st
        { st.to t .idle with disk := st.disk.fsyncDir, returned := w :: st.returned }
  -- a call ends with an error of its own and leaves what it made
  | ioError {st : State} {t : ℕ × ℕ} : Step dir file (.ioError t) st (st.to t .idle)
  | missed {st : State} {r : ℕ} (hr : st.reader r = none) (hnow : (st.disk.entry file).now = none) :
      Step dir file (.look r) st { st with seen := none :: st.seen }
  | look {st : State} {r inode : ℕ} (hr : st.reader r = none)
      (hnow : (st.disk.entry file).now = some inode) :
      Step dir file (.look r) st { st with reader := update st.reader r (some (inode, [])) }
  | take {st : State} {r inode : ℕ} {got bs : Bytes} (hr : st.reader r = some (inode, got))
      (hbs : bs <+: (st.disk.file inode).now.drop got.length) :
      Step dir file (.take r bs) st
        { st with reader := update st.reader r (some (inode, got ++ bs)) }
  | eof {st : State} {r inode : ℕ} {got : Bytes} (hr : st.reader r = some (inode, got))
      (hend : (st.disk.file inode).now.drop got.length = []) :
      Step dir file (.eof r) st { st with
        reader := update st.reader r none, seen := some got :: st.seen }
  | crash {st : State} {disk : Files String UInt8} (hlost : st.disk.Lost disk) :
      Step dir file .crash st { st with
        disk := disk, procs :=
          fun p => (st.procs p).crashed, phase := fun _ => .idle, reader := fun _ => none }

/-! ### Names -/

section
variable {fileName : String} {p q u v : ℕ}

theorem dot_not_mem_repr (n : ℕ) : '.' ∉ n.repr.toList := by
  intro hmem
  have hdigit := isDigit_repr hmem
  cases hdigit

theorem toList_tmpName : (tmpName fileName p u).toList =
    (fileName.toList ++ ".tmp.".toList) ++ (p.repr.toList ++ '.' :: u.repr.toList) := by
  have hdot : (".":String).toList = ['.'] := rfl
  simp only [tmpName, String.toList_append, append_assoc]
  rw [hdot]
  rfl

theorem tmpName_inj (h : tmpName fileName p u = tmpName fileName q v) : p = q ∧ u = v := by
  have hlist := congrArg String.toList h
  rw [toList_tmpName, toList_tmpName] at hlist
  have hnumbers := append_cancel_left hlist
  rw [append_cons_inj_of_notMem (dot_not_mem_repr p) (dot_not_mem_repr u)] at hnumbers
  obtain ⟨hp, -, hu⟩ := hnumbers
  exact ⟨repr_inj (String.toList_inj.mp hp), repr_inj (String.toList_inj.mp hu)⟩

theorem tmpName_ne : tmpName fileName p u ≠ fileName := by
  intro h
  have hlength := congrArg (fun s => s.toList.length) h
  simp only [toList_tmpName, length_append, length_cons] at hlength
  omega

end

/-! ### The invariant -/

/-- In the order of the renames, `v` is `w` or after it. -/
def Since (renamed : List Write) (w v : Write) : Prop :=
  ∃ newer older, renamed = newer ++ w :: older ∧ v ∈ newer ++ [w]

/-- The target's name has led to the file, and this is its content. -/
def Published (initial : Option Bytes) (st : State) (i : ℕ) (c : Bytes) : Prop :=
  initial = some c ∧ i = 0 ∨ ∃ w ∈ st.renamed, w.inode = i ∧ w.content = c

/-- The count in the temporary name a call uses. -/
def Phase.uniq? : Phase → Option ℕ
  | .named uniq _ | .writing uniq _ _ _ | .stored uniq _ _ => some uniq
  | .idle | .renamed _ | .failed => none

/-- The file a call is at. -/
def Phase.inode? : Phase → Option ℕ
  | .writing _ _ _ inode | .stored _ _ inode => some inode
  | .idle | .named _ _ | .renamed _ | .failed => none

/-- The temporary name leads to the call's own file, which nobody has seen under the target's
name. -/
structure Owns (file : String) (st : State) (pid uniq inode : ℕ) : Prop where
  counted : uniq < st.seq pid
  entry : (st.disk.entry (tmpName file pid uniq)).now = some inode
  lt : inode < st.disk.next
  old : inode ≠ 0
  unpublished : ∀ w ∈ st.renamed, w.inode ≠ inode

def Phase.Sound (file : String) (st : State) (pid : ℕ) : Phase → Prop
  | .idle => True
  | .named uniq _ => uniq < st.seq pid ∧ (st.disk.entry (tmpName file pid uniq)).now = none
  | .writing uniq content rest inode =>
    Owns file st pid uniq inode ∧ (st.disk.file inode).now ++ rest = content
  | .stored uniq content inode => Owns file st pid uniq inode ∧ st.disk.file inode = .of content
  | .renamed w => ∃ v, (st.disk.entry file).now = some v.inode ∧ Since st.renamed w v
  | .failed => False

/-- Each call has its temporary name and its file for itself. -/
structure Owners (file : String) (st : State) : Prop where
  fresh : ∀ pid uniq, st.seq pid ≤ uniq → st.disk.entry (tmpName file pid uniq) = .of none
  sound : ∀ t, (st.phase t).Sound file st t.1
  uniq :
    ∀ {t t' u}, t.1 = t'.1 → (st.phase t).uniq? = some u → (st.phase t').uniq? = some u → t = t'
  inode : ∀ {t t' i}, (st.phase t).inode? = some i → (st.phase t').inode? = some i → t = t'

/-- What the target's name leads to, now and after a loss of power. -/
structure Kept (file : String) (initial : Option Bytes) (st : State) : Prop where
  pos : 0 < st.disk.next
  now : (st.disk.entry file).now ∈ (st.disk.entry file).may
  may : ∀ e ∈ (st.disk.entry file).may, e = entryOf initial ∨ ∃ w ∈ st.renamed, e = some w.inode
  stable : ∀ {i c}, Published initial st i c → i < st.disk.next ∧ st.disk.file i = .of c
  reader : ∀ {r i got}, st.reader r = some (i, got) → ∃ c, Published initial st i c ∧ got <+: c
  seen : ∀ s ∈ st.seen, s = initial ∨ ∃ w ∈ st.renamed, s = some w.content
  returned : ∀ w ∈ st.returned, ∀ e ∈ (st.disk.entry file).may,
    ∃ v : Write, e = some v.inode ∧ Since st.renamed w v

structure Inv (file : String) (initial : Option Bytes) (st : State) : Prop where
  owners : Owners file st
  kept : Kept file initial st

section
variable {dir file : String} {initial : Option Bytes} {st st' : State} {t t' : ℕ × ℕ} {p : Phase}
  {pid uniq i : ℕ} {content : Bytes} {renamed : List Write} {w v : Write} {a : Action}

theorem Since.self (h : w ∈ renamed) : Since renamed w w := by
  obtain ⟨newer, older, rfl⟩ := append_of_mem h
  exact ⟨newer, older, rfl, mem_append_right _ mem_cons_self⟩

theorem Since.mem (h : Since renamed w v) : w ∈ renamed ∧ v ∈ renamed := by
  obtain ⟨newer, older, rfl, hv⟩ := h
  refine ⟨mem_append_right _ mem_cons_self, ?_⟩
  rcases mem_append.mp hv with hv | hv
  · exact mem_append_left _ hv
  · rw [mem_singleton.mp hv]
    exact mem_append_right _ mem_cons_self

theorem Since.cons {k : Write} (h : Since renamed w v) : Since (k :: renamed) w v := by
  obtain ⟨newer, older, rfl, hv⟩ := h
  exact ⟨k :: newer, older, rfl, mem_cons_of_mem _ hv⟩

/-- The newest rename is after all others. -/
theorem Since.newest {k : Write} (h : w ∈ renamed) : Since (k :: renamed) w k := by
  obtain ⟨newer, older, rfl⟩ := append_of_mem h
  exact ⟨k :: newer, older, rfl, mem_cons_self⟩

theorem Phase.Sound.counted (h : p.Sound file st pid) (hu : p.uniq? = some uniq) :
    uniq < st.seq pid := by
  cases p with
  | named u c =>
    injection hu with hu
    subst hu
    exact h.1
  | writing u c rest i | stored u c i =>
    injection hu with hu
    subst hu
    exact h.1.counted
  | idle | renamed | failed => cases hu

theorem Phase.Sound.owns (h : p.Sound file st pid) (hi : p.inode? = some i) :
    ∃ uniq, p.uniq? = some uniq ∧ Owns file st pid uniq i := by
  cases p with
  | writing u c rest j | stored u c j =>
    injection hi with hi
    subst hi
    exact ⟨u, rfl, h.1⟩
  | idle | named | renamed | failed => cases hi

/-- A call's place stays sound where the directory leaves its temporary name, its file stays as it
is, and what its rename left at the target is still there or newer. -/
theorem Phase.Sound.mono (h : p.Sound file st pid) (hseq : st.seq pid ≤ st'.seq pid)
    (hentry : ∀ u, p.uniq? = some u →
      (st'.disk.entry (tmpName file pid u)).now = (st.disk.entry (tmpName file pid u)).now)
    (hfile : ∀ i, p.inode? = some i → st'.disk.file i = st.disk.file i)
    (hnext : st.disk.next ≤ st'.disk.next)
    (hunpublished : ∀ i, p.inode? = some i → ∀ w ∈ st'.renamed, w ∈ st.renamed ∨ w.inode ≠ i)
    (hsince : ∀ w v : Write, (st.disk.entry file).now = some v.inode → Since st.renamed w v →
      ∃ v' : Write, (st'.disk.entry file).now = some v'.inode ∧ Since st'.renamed w v') :
    p.Sound file st' pid := by
  have howns : ∀ {u i}, p.uniq? = some u → p.inode? = some i → Owns file st pid u i →
      Owns file st' pid u i := by
    intro u i hu hi ho
    refine ⟨lt_of_lt_of_le ho.counted hseq, (hentry u hu).trans ho.entry,
      lt_of_lt_of_le ho.lt hnext, ho.old, fun w hw => ?_⟩
    rcases hunpublished i hi w hw with hold | hne
    · exact ho.unpublished w hold
    · exact hne
  cases p with
  | idle => trivial
  | failed => exact h
  | named u c => exact ⟨lt_of_lt_of_le h.1 hseq, (hentry u rfl).trans h.2⟩
  | writing u c rest i =>
    refine ⟨howns rfl rfl h.1, ?_⟩
    rw [hfile i rfl]
    exact h.2
  | stored u c i => exact ⟨howns rfl rfl h.1, (hfile i rfl).trans h.2⟩
  | renamed w =>
    obtain ⟨v, hv, hw⟩ := h
    exact hsince w v hv hw

/-- One thread goes to a place of its own. -/
theorem Owners.update (h : Owners file st) (hphase : st'.phase = update st.phase t p)
    (hfresh : ∀ pid uniq, st'.seq pid ≤ uniq → st'.disk.entry (tmpName file pid uniq) = .of none)
    (hp : p.Sound file st' t.1)
    (hothers : ∀ u, u ≠ t → (st.phase u).Sound file st u.1 → (st.phase u).Sound file st' u.1)
    (huniq : ∀ n, p.uniq? = some n → ∀ u, u ≠ t → u.1 = t.1 → (st.phase u).uniq? ≠ some n)
    (hinode : ∀ i, p.inode? = some i → ∀ u, u ≠ t → (st.phase u).inode? ≠ some i) :
    Owners file st' := by
  have hself : st'.phase t = p := by
    rw [hphase]
    exact update_self ..
  have hother : ∀ {u}, u ≠ t → st'.phase u = st.phase u := by
    intro u hu
    rw [hphase]
    exact update_of_ne hu ..
  refine ⟨hfresh, fun u => ?_, ?_, ?_⟩
  · by_cases hu : u = t
    · rw [hu, hself]
      exact hp
    · rw [hother hu]
      exact hothers u hu (h.sound u)
  · intro u v n hpid hu hv
    by_cases hut : u = t
    · by_cases hvt : v = t
      · exact hut.trans hvt.symm
      · rw [hut, hself] at hu
        rw [hother hvt] at hv
        exact absurd hv (huniq n hu v hvt (hpid.symm.trans (congrArg Prod.fst hut)))
    · by_cases hvt : v = t
      · rw [hvt, hself] at hv
        rw [hother hut] at hu
        exact absurd hu (huniq n hv u hut (hpid.trans (congrArg Prod.fst hvt)))
      · rw [hother hut] at hu
        rw [hother hvt] at hv
        exact h.uniq hpid hu hv
  · intro u v i hu hv
    by_cases hut : u = t
    · by_cases hvt : v = t
      · exact hut.trans hvt.symm
      · rw [hut, hself] at hu
        rw [hother hvt] at hv
        exact absurd hv (hinode i hu v hvt)
    · by_cases hvt : v = t
      · rw [hvt, hself] at hv
        rw [hother hut] at hu
        exact absurd hu (hinode i hv u hut)
      · rw [hother hut] at hu
        rw [hother hvt] at hv
        exact h.inode hu hv

/-- Nobody's call or file changes. -/
theorem Owners.frame (h : Owners file st) (hdisk : st'.disk = st.disk) (hseq : st'.seq = st.seq)
    (hphase : st'.phase = st.phase) (hrenamed : st'.renamed = st.renamed) : Owners file st' := by
  refine ⟨?_, fun t => ?_, ?_, ?_⟩
  · rw [hdisk, hseq]
    exact h.fresh
  · rw [hphase]
    refine (h.sound t).mono (Nat.le_of_eq (congrFun hseq.symm _)) ?_ ?_ ?_ ?_ ?_
    · intro u _
      rw [hdisk]
    · intro i _
      rw [hdisk]
    · rw [hdisk]
    · intro i _ w hw
      rw [hrenamed] at hw
      exact .inl hw
    · intro w v hv hw
      rw [hdisk, hrenamed]
      exact ⟨v, hv, hw⟩
  · rw [hphase]
    exact h.uniq
  · rw [hphase]
    exact h.inode

/-- What the target's name leads to is not touched by what happens to other files. -/
theorem Kept.frame (h : Kept file initial st) (hentry : st'.disk.entry file = st.disk.entry file)
    (hfile : ∀ {i c}, Published initial st i c → st'.disk.file i = st.disk.file i)
    (hnext : st.disk.next ≤ st'.disk.next) (hrenamed : st'.renamed = st.renamed)
    (hreturned : st'.returned = st.returned) (hreader : st'.reader = st.reader)
    (hseen : st'.seen = st.seen) : Kept file initial st' := by
  have hpublished : ∀ {i c}, Published initial st' i c ↔ Published initial st i c := by
    intro i c
    unfold Published
    rw [hrenamed]
  refine ⟨lt_of_lt_of_le h.pos hnext, ?_, ?_, ?_, ?_, ?_, ?_⟩
  · rw [hentry]
    exact h.now
  · rw [hentry, hrenamed]
    exact h.may
  · intro i c hc
    obtain ⟨hlt, hold⟩ := h.stable (hpublished.mp hc)
    exact ⟨lt_of_lt_of_le hlt hnext, (hfile (hpublished.mp hc)).trans hold⟩
  · intro r i got hr
    rw [hreader] at hr
    obtain ⟨c, hc, hgot⟩ := h.reader hr
    exact ⟨c, hpublished.mpr hc, hgot⟩
  · rw [hseen, hrenamed]
    exact h.seen
  · rw [hreturned, hentry, hrenamed]
    exact h.returned

theorem Inv.start : Inv file initial (.start file initial) where
  owners := by
    refine ⟨fun pid uniq _ => ?_, fun _ => trivial, fun _ h => ?_, fun h => ?_⟩
    · change Cell.of (if tmpName file pid uniq = file then entryOf initial else none) = .of none
      rw [if_neg tmpName_ne]
    · cases h
    · cases h
  kept := by
    have hentry : (State.start file initial).disk.entry file = .of (entryOf initial) := by
      change Cell.of (if file = file then entryOf initial else none) = _
      rw [if_pos rfl]
    refine ⟨Nat.one_pos, ?_, ?_, ?_, ?_, ?_, ?_⟩
    · rw [hentry]
      exact rfl
    · rw [hentry]
      intro e he
      exact .inl he
    · intro i c hc
      rcases hc with ⟨hc, rfl⟩ | ⟨w, hw, -⟩
      · refine ⟨Nat.one_pos, ?_⟩
        change Cell.of (initial.getD []) = _
        rw [hc]
        rfl
      · cases hw
    · intro r i got hr
      cases hr
    · intro s hs
      cases hs
    · intro w hw
      cases hw

/-- The temporary name is the call's own. -/
theorem Owners.name_ne (h : Owners file st) (hu : (st.phase t).uniq? = some uniq) {u : ℕ × ℕ}
    (hut : u ≠ t) {n : ℕ} (hn : (st.phase u).uniq? = some n) :
    tmpName file u.1 n ≠ tmpName file t.1 uniq := by
  intro hsame
  obtain ⟨hpid, rfl⟩ := tmpName_inj hsame
  exact hut (h.uniq hpid hn hu)

theorem Owners.fresh_name_ne (h : Owners file st) (hu : (st.phase t).uniq? = some uniq) {n : ℕ}
    (hn : st.seq pid ≤ n) : tmpName file pid n ≠ tmpName file t.1 uniq := by
  intro hsame
  obtain ⟨rfl, rfl⟩ := tmpName_inj hsame
  exact Nat.not_lt.mpr hn ((h.sound t).counted hu)

/-- What the target's name leads to has been published. -/
theorem Kept.published (h : Kept file initial st) {e : ℕ} (he : some e ∈ (st.disk.entry file).may) :
    ∃ c, Published initial st e c := by
  obtain hinit | ⟨w, hw, he⟩ := h.may _ he
  · obtain ⟨c, hc, hzero⟩ := map_eq_some_iff.mp hinit.symm
    exact ⟨c, .inl ⟨hc, hzero.symm⟩⟩
  · injection he with he
    exact ⟨w.content, .inr ⟨w, hw, he.symm, rfl⟩⟩

/-- Whichever of its values stable storage held, the target's name leads to a published file. -/
theorem Kept.lost (h : Kept file initial st) {disk : Files String UInt8}
    (hlost : st.disk.Lost disk) : Kept file initial { st with
      disk := disk, procs :=
        fun p => (st.procs p).crashed, phase := fun _ => .idle, reader := fun _ => none } := by
  obtain ⟨e, he, hentry⟩ := hlost.entry file
  refine ⟨?_, ?_, ?_, ?_, ?_, h.seen, ?_⟩
  · change 0 < disk.next
    rw [hlost.next]
    exact h.pos
  · change (disk.entry file).now ∈ (disk.entry file).may
    rw [hentry]
    exact rfl
  · intro e' he'
    change e' ∈ (disk.entry file).may at he'
    rw [hentry] at he'
    rw [Cell.mem_may_of he']
    exact h.may e he
  · intro i c hc
    obtain ⟨hlt, hstable⟩ := h.stable hc
    have hkept := hlost.file i
    rw [hstable] at hkept
    refine ⟨?_, hkept.eq_of⟩
    change i < disk.next
    rw [hlost.next]
    exact hlt
  · intro r i got hr
    cases hr
  · intro w hw e' he'
    change e' ∈ (disk.entry file).may at he'
    rw [hentry] at he'
    rw [Cell.mem_may_of he']
    exact h.returned w hw e he

/-! ### Steps of a writer -/

section
variable (h : Inv file initial st)

include h

theorem Inv.begin : Inv file initial { st.to t (.named (st.seq t.1) content) with
    seq := update st.seq t.1 (st.seq t.1 + 1) } where
  owners := by
    have hseq : ∀ pid, st.seq pid ≤ update st.seq t.1 (st.seq t.1 + 1) pid := by
      intro pid
      by_cases hpid : pid = t.1
      · rw [hpid, update_self]
        exact Nat.le_succ _
      · rw [update_of_ne hpid]
    refine h.owners.update rfl ?_ ?_ ?_ ?_ ?_
    · intro pid uniq hle
      exact h.owners.fresh pid uniq (le_trans (hseq pid) hle)
    · refine ⟨?_, congrArg Cell.now (h.owners.fresh t.1 _ (le_refl _))⟩
      change st.seq t.1 < update st.seq t.1 (st.seq t.1 + 1) t.1
      rw [update_self]
      exact Nat.lt_succ_self _
    · intro u hu hsound
      exact hsound.mono (hseq u.1) (fun _ _ => rfl) (fun _ _ => rfl) (le_refl _)
        (fun _ _ w hw => .inl hw) fun w v hv hw => ⟨v, hv, hw⟩
    · rintro n hn u hu hpid hsame
      injection hn with hn
      have hlt := (h.owners.sound u).counted hsame
      rw [hpid, ← hn] at hlt
      exact lt_irrefl _ hlt
    · intro i hi
      cases hi
  kept := h.kept.frame rfl (fun _ => rfl) (le_refl _) rfl rfl rfl rfl

/-- The file is made under a name that nobody used. -/
theorem Inv.opened (ht : st.phase t = .named uniq content) {disk : Files String UInt8} {inode : ℕ}
    (hopen : st.disk.openTruncated (tmpName file t.1 uniq) = (disk, inode)) :
    Inv file initial { st.to t (.writing uniq content content inode) with disk := disk } := by
  have hu : (st.phase t).uniq? = some uniq := by
    rw [ht]
    rfl
  have hsound := h.owners.sound t
  rw [ht] at hsound
  rw [Files.openTruncated_of_none hsound.2] at hopen
  injection hopen with hdisk hinode
  subst hdisk hinode
  have hentry :
      ∀ {n : String}, n ≠ tmpName file t.1 uniq → update st.disk.entry (tmpName file t.1 uniq)
        ((st.disk.entry (tmpName file t.1 uniq)).put (some st.disk.next)) n = st.disk.entry n :=
    fun hn => update_of_ne hn ..
  have hfile : ∀ {j}, j < st.disk.next →
      (st.disk.setFile st.disk.next (.loose [])).file j = st.disk.file j :=
    fun hj => Files.setFile_file_ne (ne_of_lt hj)
  constructor
  · refine h.owners.update rfl ?_ ?_ ?_ ?_ ?_
    · intro pid n hn
      exact (hentry (h.owners.fresh_name_ne hu hn)).trans (h.owners.fresh pid n hn)
    · refine ⟨⟨hsound.1, ?_, Nat.lt_succ_self _, ne_of_gt h.kept.pos, ?_⟩, ?_⟩
      · change (update st.disk.entry (tmpName file t.1 uniq)
          ((st.disk.entry (tmpName file t.1 uniq)).put (some st.disk.next))
            (tmpName file t.1 uniq)).now = _
        rw [update_self]
        rfl
      · intro w hw
        exact ne_of_lt (h.kept.stable (.inr ⟨w, hw, rfl, rfl⟩)).1
      · change ((st.disk.setFile st.disk.next (.loose [])).file st.disk.next).now ++ content =
          content
        rw [Files.setFile_file_self]
        rfl
    · intro u hut hs
      refine hs.mono (le_refl _) ?_ ?_ (Nat.le_succ _) (fun _ _ w hw => .inl hw) ?_
      · intro n hn
        exact congrArg Cell.now (hentry (h.owners.name_ne hu hut hn))
      · intro i hi
        obtain ⟨_, -, howns⟩ := hs.owns hi
        exact hfile howns.lt
      · intro w v hv hw
        exact ⟨v, (congrArg Cell.now (hentry tmpName_ne.symm)).trans hv, hw⟩
    · intro n hn u hut hpid hsame
      have hsame' : some uniq = some n := hn
      exact hut (h.owners.uniq hpid hsame (hu.trans hsame'))
    · intro i hi u hut hsame
      injection hi with hi
      obtain ⟨_, -, howns⟩ := (h.owners.sound u).owns hsame
      exact ne_of_lt howns.lt hi.symm
  · exact h.kept.frame (hentry tmpName_ne.symm) (fun hc => hfile (h.kept.stable hc).1)
      (Nat.le_succ _) rfl rfl rfl rfl

/-- What a call does to its own file touches nobody else's. -/
theorem Inv.touch (hu : (st.phase t).uniq? = some uniq) (hi : (st.phase t).inode? = some i)
    (hpu : p.uniq? = some uniq) (hpi : p.inode? = some i) {c : Cell Bytes}
    (hp : Owns file { st.to t p with disk := st.disk.setFile i c } t.1 uniq i →
    p.Sound file { st.to t p with disk := st.disk.setFile i c } t.1) :
    Inv file initial { st.to t p with disk := st.disk.setFile i c } := by
  obtain ⟨n, hn, howns⟩ := (h.owners.sound t).owns hi
  obtain rfl : n = uniq := by
    rw [hu] at hn
    injection hn with hn
    exact hn.symm
  constructor
  · refine h.owners.update rfl h.owners.fresh ?_ ?_ ?_ ?_
    · exact hp ⟨howns.counted, howns.entry, howns.lt, howns.old, howns.unpublished⟩
    · intro u hut hs
      refine hs.mono (le_refl _) (fun _ _ => rfl) ?_ (le_refl _) (fun _ _ w hw => .inl hw)
        fun w v hv hw => ⟨v, hv, hw⟩
      intro j hj
      refine Files.setFile_file_ne ?_
      rintro rfl
      exact hut (h.owners.inode hj hi)
    · intro m hm u hut hpid hsame
      exact hut (h.owners.uniq hpid hsame (hu.trans (hpu.symm.trans hm)))
    · intro j hj u hut hsame
      exact hut (h.owners.inode hsame (hi.trans (hpi.symm.trans hj)))
  · refine h.kept.frame rfl ?_ (le_refl _) rfl rfl rfl rfl
    intro j c' hc
    refine Files.setFile_file_ne ?_
    rintro rfl
    rcases hc with ⟨-, hzero⟩ | ⟨w, hw, hinode, -⟩
    · exact howns.old hzero
    · exact howns.unpublished w hw hinode

theorem Inv.write {bs rest : Bytes} (ht : st.phase t = .writing uniq content (bs ++ rest) i) :
    Inv file initial
      { st.to t (.writing uniq content rest i) with disk := st.disk.write i bs } := by
  have hsound := h.owners.sound t
  rw [ht] at hsound
  refine h.touch (by rw [ht]; rfl) (by rw [ht]; rfl) rfl rfl fun howns => ⟨howns, ?_⟩
  change ((st.disk.setFile i (.loose ((st.disk.file i).now ++ bs))).file i).now ++ rest = content
  rw [Files.setFile_file_self]
  exact (append_assoc ..).trans hsound.2

theorem Inv.syncAll (ht : st.phase t = .writing uniq content [] i) :
    Inv file initial { st.to t (.stored uniq content i) with disk := st.disk.fsync i } := by
  have hsound := h.owners.sound t
  rw [ht] at hsound
  refine h.touch (by rw [ht]; rfl) (by rw [ht]; rfl) rfl rfl fun howns => ⟨howns, ?_⟩
  change (st.disk.setFile i (st.disk.file i).sync).file i = .of content
  rw [Files.setFile_file_self]
  exact congrArg Cell.of ((append_nil _).symm.trans hsound.2)

theorem Inv.stored_owns (ht : st.phase t = .stored uniq content i) :
    Owns file st t.1 uniq i ∧ st.disk.file i = .of content := by
  have hsound := h.owners.sound t
  rw [ht] at hsound
  exact hsound

/-- The whole content is behind the target's name from the rename on. -/
theorem Inv.afterRename (ht : st.phase t = .stored uniq content i) {disk : Files String UInt8}
    (hrename : st.disk.rename (tmpName file t.1 uniq) file = some disk) :
    Inv file initial { st.to t (.renamed ⟨t.1, uniq, i, content⟩) with
      disk := disk, renamed := ⟨t.1, uniq, i, content⟩ :: st.renamed } := by
  have hu : (st.phase t).uniq? = some uniq := by
    rw [ht]
    rfl
  have hi : (st.phase t).inode? = some i := by
    rw [ht]
    rfl
  obtain ⟨howns, hstored⟩ := h.stored_owns ht
  obtain ⟨htarget, hentry, hfile, hnext⟩ := Files.rename_spec howns.entry hrename
  have hnow : (disk.entry file).now = some i := congrArg Cell.now htarget
  constructor
  · refine h.owners.update rfl ?_ ?_ ?_ ?_ ?_
    · intro pid n hn
      exact (hentry _ (h.owners.fresh_name_ne hu hn) tmpName_ne).trans (h.owners.fresh pid n hn)
    · exact ⟨⟨t.1, uniq, i, content⟩, hnow, Since.self mem_cons_self⟩
    · intro u hut hs
      refine hs.mono (le_refl _) ?_ ?_ (Nat.le_of_eq hnext.symm) ?_ ?_
      · intro n hn
        exact congrArg Cell.now (hentry _ (h.owners.name_ne hu hut hn) tmpName_ne)
      · intro j _
        exact congrFun hfile j
      · intro j hj w hw
        rcases mem_cons.mp hw with rfl | hw
        · refine .inr ?_
          rintro rfl
          exact hut (h.owners.inode hj hi)
        · exact .inl hw
      · intro w v _ hw
        exact ⟨⟨t.1, uniq, i, content⟩, hnow, Since.newest hw.mem.1⟩
    · intro n hn
      cases hn
    · intro j hj
      cases hj
  · refine ⟨?_, ?_, ?_, ?_, ?_, ?_, ?_⟩
    · change 0 < disk.next
      rw [hnext]
      exact h.kept.pos
    · change (disk.entry file).now ∈ (disk.entry file).may
      rw [htarget]
      exact .inl rfl
    · intro e he
      change e ∈ (disk.entry file).may at he
      rw [htarget] at he
      rcases Cell.mem_may_put he with rfl | he
      · exact .inr ⟨_, mem_cons_self, rfl⟩
      · obtain hinit | ⟨w, hw, he⟩ := h.kept.may e he
        · exact .inl hinit
        · exact .inr ⟨w, mem_cons_of_mem _ hw, he⟩
    · intro j c hc
      change j < disk.next ∧ disk.file j = _
      rw [hnext, hfile]
      rcases hc with hinit | ⟨w, hw, rfl, rfl⟩
      · exact h.kept.stable (.inl hinit)
      · rcases mem_cons.mp hw with rfl | hw
        · exact ⟨howns.lt, hstored⟩
        · exact h.kept.stable (.inr ⟨w, hw, rfl, rfl⟩)
    · intro r j got hr
      obtain ⟨c, hc, hgot⟩ := h.kept.reader hr
      refine ⟨c, ?_, hgot⟩
      rcases hc with hinit | ⟨w, hw, hc⟩
      · exact .inl hinit
      · exact .inr ⟨w, mem_cons_of_mem _ hw, hc⟩
    · intro s hs
      obtain hinit | ⟨w, hw, hc⟩ := h.kept.seen s hs
      · exact .inl hinit
      · exact .inr ⟨w, mem_cons_of_mem _ hw, hc⟩
    · intro w hw e he
      change e ∈ (disk.entry file).may at he
      rw [htarget] at he
      rcases Cell.mem_may_put he with rfl | he
      · obtain ⟨v, -, hsince⟩ := h.kept.returned w hw _ h.kept.now
        exact ⟨⟨t.1, uniq, i, content⟩, rfl, Since.newest hsince.mem.1⟩
      · obtain ⟨v, hv, hsince⟩ := h.kept.returned w hw e he
        exact ⟨v, hv, hsince.cons⟩

/-- With the directory synced, stable storage leads to what is there now: this write, or one renamed
after it. -/
theorem Inv.syncedDir (ht : st.phase t = .renamed w) :
    Inv file initial
      { st.to t .idle with disk := st.disk.fsyncDir, returned := w :: st.returned } := by
  have hsound := h.owners.sound t
  rw [ht] at hsound
  constructor
  · refine h.owners.update rfl ?_ trivial ?_ ?_ ?_
    · intro pid n hn
      exact congrArg Cell.sync (h.owners.fresh pid n hn)
    · intro u _ hs
      exact hs.mono (le_refl _) (fun _ _ => rfl) (fun _ _ => rfl) (le_refl _)
        (fun _ _ w hw => .inl hw) fun w v hv hw => ⟨v, hv, hw⟩
    · intro n hn
      cases hn
    · intro j hj
      cases hj
  · refine ⟨h.kept.pos, rfl, ?_, h.kept.stable, h.kept.reader, h.kept.seen, ?_⟩
    · intro e he
      rw [Cell.mem_may_of he]
      exact h.kept.may _ h.kept.now
    · intro v hv e he
      rw [Cell.mem_may_of he]
      rcases mem_cons.mp hv with rfl | hv
      · exact hsound
      · exact h.kept.returned v hv _ h.kept.now

/-- A call that gives up leaves its temporary file alone. -/
theorem Inv.idle : Inv file initial (st.to t .idle) where
  owners := by
    refine h.owners.update rfl h.owners.fresh trivial ?_ ?_ ?_
    · intro u _ hs
      exact hs.mono (le_refl _) (fun _ _ => rfl) (fun _ _ => rfl) (le_refl _)
        (fun _ _ w hw => .inl hw) fun w v hv hw => ⟨v, hv, hw⟩
    · intro n hn
      cases hn
    · intro j hj
      cases hj
  kept := h.kept.frame rfl (fun _ => rfl) (le_refl _) rfl rfl rfl rfl

/-! ### Readers, and a loss of power -/

theorem Inv.missed (hnow : (st.disk.entry file).now = none) :
    Inv file initial { st with seen := none :: st.seen } where
  owners := h.owners.frame rfl rfl rfl rfl
  kept := { h.kept with
    seen := by
      intro s hs
      rcases mem_cons.mp hs with rfl | hs
      · obtain hinit | ⟨w, -, he⟩ := h.kept.may _ h.kept.now
        · rw [hnow] at hinit
          exact .inl (map_eq_none_iff.mp hinit.symm).symm
        · rw [hnow] at he
          cases he
      · exact h.kept.seen s hs }

/-- A reader goes on with a file that was published, and has the front of it. -/
theorem Inv.reads {r : ℕ} {got : Bytes} (hgot : ∃ c, Published initial st i c ∧ got <+: c) :
    Inv file initial { st with reader := update st.reader r (some (i, got)) } where
  owners := h.owners.frame rfl rfl rfl rfl
  kept := { h.kept with
    reader := by
      intro r' j got' hr
      by_cases hrr : r' = r
      · subst hrr
        change update st.reader r' (some (i, got)) r' = _ at hr
        rw [update_self] at hr
        injection hr with hr
        injection hr with hj hgot'
        subst hj hgot'
        exact hgot
      · change update st.reader r (some (i, got)) r' = _ at hr
        rw [update_of_ne hrr] at hr
        exact h.kept.reader hr }

theorem Inv.eof {r : ℕ} {got : Bytes} (hr : st.reader r = some (i, got))
    (hend : (st.disk.file i).now.drop got.length = []) : Inv file initial { st with
      reader := update st.reader r none, seen := some got :: st.seen } where
  owners := h.owners.frame rfl rfl rfl rfl
  kept := { h.kept with
    reader := by
      intro r' j got' hr'
      have hrr : r' ≠ r := by
        rintro rfl
        change update st.reader r' none r' = _ at hr'
        rw [update_self] at hr'
        cases hr'
      change update st.reader r none r' = _ at hr'
      rw [update_of_ne hrr] at hr'
      exact h.kept.reader hr'
    seen := by
      intro s hs
      rcases mem_cons.mp hs with rfl | hs
      · obtain ⟨c, hc, rest, hrest⟩ := h.kept.reader hr
        have hwhole : got = c := by
          rw [(h.kept.stable hc).2] at hend
          change c.drop got.length = [] at hend
          rw [← hrest, drop_left] at hend
          rw [← hrest, hend, append_nil]
        rw [hwhole]
        rcases hc with ⟨hinit, -⟩ | ⟨w, hw, -, hc⟩
        · exact .inl hinit.symm
        · exact .inr ⟨w, hw, congrArg some hc.symm⟩
      · exact h.kept.seen s hs }

theorem Inv.crash {disk : Files String UInt8} (hlost : st.disk.Lost disk) :
    Inv file initial { st with
      disk := disk, procs :=
        fun p => (st.procs p).crashed, phase := fun _ => .idle, reader := fun _ => none } where
  owners := by
    refine ⟨fun pid uniq hle => ?_, fun _ => trivial, fun _ hu => ?_, fun hi => ?_⟩
    · have hfresh := hlost.entry (tmpName file pid uniq)
      rw [h.owners.fresh pid uniq hle] at hfresh
      exact hfresh.eq_of
    · cases hu
    · cases hi
  kept := h.kept.lost hlost

theorem Inv.step (hs : Step dir file a st st') : Inv file initial st' := by
  cases hs with
  | boot hp => exact ⟨h.owners.frame rfl rfl rfl rfl, { h.kept with }⟩
  | begin hp ht hseq hplace => exact h.begin
  | «open» ht hopen => exact h.opened ht hopen
  | write ht => exact h.write ht
  | syncAll ht => exact h.syncAll ht
  | rename ht hrename => exact h.afterRename ht hrename
  | missing ht hrename => exact absurd hrename (Files.rename_isSome (h.stored_owns ht).1.entry)
  | syncDir ht => exact h.syncedDir ht
  | ioError => exact h.idle
  | missed hr hnow => exact h.missed hnow
  | look hr hnow =>
    obtain ⟨c, hc⟩ := h.kept.published (hnow ▸ h.kept.now)
    exact h.reads ⟨c, hc, nil_prefix⟩
  | take hr hbs =>
    obtain ⟨c, hc, rest, hrest⟩ := h.kept.reader hr
    refine h.reads ⟨c, hc, ?_⟩
    rw [(h.kept.stable hc).2] at hbs
    change _ <+: c.drop _ at hbs
    rw [← hrest, drop_left] at hbs
    rw [← hrest]
    exact (prefix_append_right_inj _).mpr hbs
  | eof hr hend => exact h.eof hr hend
  | crash hlost => exact h.crash hlost

end

theorem Inv.reach (h : Reaches (Step dir file) anyAction (.start file initial) st) :
    Inv file initial st :=
  h.invariant (fun hs _ hstep => hs.step hstep) .start

/-- The content at the target is that of a whole write, or what was there before all of them. -/
theorem Kept.read (h : Kept file initial st) :
    st.disk.read file = initial ∨ ∃ w ∈ st.renamed, st.disk.read file = some w.content := by
  unfold Files.read
  obtain hinit | ⟨w, hw, he⟩ := h.may _ h.now
  · rw [hinit]
    cases hi : initial with
    | none => exact .inl rfl
    | some c =>
      exact .inl (congrArg (fun f : Cell Bytes => some f.now) (h.stable (.inl ⟨hi, rfl⟩)).2)
  · rw [he]
    have hstable := (h.stable (.inr ⟨w, hw, rfl, rfl⟩)).2
    exact .inr ⟨w, hw, congrArg (fun f : Cell Bytes => some f.now) hstable⟩

/-- A write that returned, or one renamed after it, is what the target holds. -/
theorem Kept.read_returned (h : Kept file initial st) (hw : w ∈ st.returned) :
    ∃ v, Since st.renamed w v ∧ st.disk.read file = some v.content := by
  obtain ⟨v, hv, hsince⟩ := h.returned w hw _ h.now
  refine ⟨v, hsince, ?_⟩
  unfold Files.read
  rw [hv]
  have hstable := (h.stable (.inr ⟨v, hsince.mem.2, rfl, rfl⟩)).2
  exact congrArg (fun f : Cell Bytes => some f.now) hstable

end

/-- For any number of threads, processes and losses of power: readers have seen whole writes, or
what was there before; so has the target one, now and after a loss of power; no rename misses its
temporary file; and what returned is there, or was replaced by a later rename, now and after a loss
of power. -/
theorem writes_durable {dir file : String} {initial : Option Bytes} {st : State}
    (h : Reaches (Step dir file) anyAction (.start file initial) st) :
    (∀ s ∈ st.seen, s = initial ∨ ∃ w ∈ st.renamed, s = some w.content) ∧
      (∀ disk, disk = st.disk ∨ st.disk.Lost disk →
        disk.read file = initial ∨ ∃ w ∈ st.renamed, disk.read file = some w.content) ∧
      (∀ t, st.phase t ≠ .failed) ∧
      ∀ w ∈ st.returned, ∀ disk, disk = st.disk ∨ st.disk.Lost disk →
        ∃ v, Since st.renamed w v ∧ disk.read file = some v.content := by
  have hinv := Inv.reach h
  refine ⟨hinv.kept.seen, ?_, ?_, ?_⟩
  · rintro disk (rfl | hlost)
    · exact hinv.kept.read
    · exact (hinv.kept.lost hlost).read
  · intro t ht
    have hsound := hinv.owners.sound t
    rw [ht] at hsound
    exact hsound
  · rintro w hw disk (rfl | hlost)
    · exact hinv.kept.read_returned hw
    · exact (hinv.kept.lost hlost).read_returned hw

/-- One call writes two bytes and returns. -/
theorem writes_durable_once : ∃ st, Reaches (Step "." "f") anyAction (.start "f" none) st ∧
    ∃ w ∈ st.returned, w.content = [1, 2] ∧ ∀ disk, st.disk.Lost disk →
      ∃ v, Since st.renamed w v ∧ disk.read "f" = some v.content := by
  have hstart : Reaches (Step "." "f") anyAction (.start "f" none) (.start "f" none) := .refl _
  have hboot := hstart.next trivial (@Step.boot _ _ _ 7 rfl)
  have hbegin := hboot.next trivial
    (@Step.begin _ _ _ (7, 0) "f" (some "") (some "f") [1, 2] rfl rfl (by decide) rfl)
  have hopen := hbegin.next trivial (@Step.open _ _ _ (7, 0) 0 [1, 2] _ _ rfl rfl)
  have hwrite := hopen.next trivial (@Step.write _ _ _ (7, 0) 0 _ [1, 2] [1, 2] [] rfl)
  have hsync := hwrite.next trivial (@Step.syncAll _ _ _ (7, 0) 0 _ [1, 2] rfl)
  obtain ⟨d, hd⟩ := ne_none_iff_exists'.mp
    (Files.rename_isSome (q := "f") ((Inv.reach hsync).stored_owns (t := (7, 0)) rfl).1.entry)
  have hrename := hsync.next trivial (@Step.rename _ _ _ (7, 0) 0 _ [1, 2] _ rfl hd)
  have hreturned := hrename.next trivial (@Step.syncDir _ _ _ (7, 0) _ rfl)
  refine ⟨_, hreturned, ⟨7, 0, _, [1, 2]⟩, mem_cons_self, rfl, fun disk hlost => ?_⟩
  exact (writes_durable hreturned).2.2.2 _ mem_cons_self disk (.inr hlost)

end AxisBridge.WriteDurable
