import AxisBridge.Runtime.LocalMap

/-! The local maps of all threads: values that hold handles, and the doors by which they change
thread. -/
namespace AxisBridge.HMap
open List Function

/-- A value; `dec` is a mantissa and its scale, `float` the bits. -/
inductive Value
  | localMap (h : LocalMap)
  | frozen (m : Map)
  | int (n : Int64)
  | bool (b : Bool)
  | str (s : String)
  | unit
  | tuple (items : List Value)
  | list (items : List Value)
  | ctor (tag : UInt32) (fields : List Value)
  | dec (mantissa : ℤ) (scale : ℕ)
  | float (bits : UInt64)
  | bytes (data : List UInt8)

mutual

/-- The handles in a value, at any depth. -/
def Value.handles : Value → List LocalMap
  | .localMap h => [h]
  | .tuple items => handlesOf items
  | .list items => handlesOf items
  | .ctor _ fields => handlesOf fields
  | _ => []

def handlesOf : List Value → List LocalMap
  | [] => []
  | v :: vs => v.handles ++ handlesOf vs

end

mutual

/-- The panic of the doors at the first handle in a value. -/
def refuseHandle (who : String) : Value → Except String Unit
  | .localMap h =>
    .error (who ++ ": <local map> cannot be shared (it belongs to the loop on thread " ++
      s!"ThreadId({h.owner}) that made it)")
  | .ctor _ fields => refuseHandles who fields
  | .tuple items => refuseHandles who items
  | .list items => refuseHandles who items
  | _ => .ok ()

def refuseHandles (who : String) : List Value → Except String Unit
  | [] => .ok ()
  | v :: vs => do
    refuseHandle who v
    refuseHandles who vs

end

inductive Builtin
  | put (k v : String)
  | has (k : String)
  | get (k : String)
  | freeze

/-- A builtin on a map; only a local map can be written or frozen. -/
def callBuiltin (me : ℕ) : Builtin → Value → Table → Option (Except String Value × Table)
  | .put k v, .localMap h, t => some ((hmapPut me h k v t).1.map .bool, (hmapPut me h k v t).2)
  | .has k, .localMap h, t => some ((hmapHas me h k t).1.map .bool, (hmapHas me h k t).2)
  | .get k, .localMap h, t => some ((hmapGet me h k t).1.map .str, (hmapGet me h k t).2)
  | .freeze, .localMap h, t => some ((hmapFreeze me h t).1.map .frozen, (hmapFreeze me h t).2)
  | .put _ _, .frozen _, t =>
    some (.error "hmap_put: <frozen map> cannot be written (only a local map can)", t)
  | .has k, .frozen m, t => some (.ok (.bool (m k).isSome), t)
  | .get k, .frozen m, t => some (.ok (.str (found (m k))), t)
  | .freeze, .frozen _, t => some (.error "hmap_freeze: <frozen map> is not a local map", t)
  | _, _, _ => none

/-- The `Handle` of a task. -/
def handleValue (id : Int64) (result : Value) : Value := .tuple [.int id, result]

def handleId : Value → Option Int64
  | .tuple [.int id, _] => some id
  | _ => none

/-- What `join` takes out of the table of tasks under its lock. It panics, after the tasks it took
already, on a value that is no handle and on a handle that is unknown. -/
def takeTasks : (Int64 → Option ℕ) → List Value → Option (List (Int64 × ℕ)) × (Int64 → Option ℕ)
  | tasks, [] => (some [], tasks)
  | tasks, item :: items =>
    match handleId item with
    | none => (none, tasks)
    | some id =>
      match tasks id with
      | none => (none, tasks)
      | some task =>
        let rest := takeTasks (update tasks id none) items
        (rest.1.map ((id, task) :: ·), rest.2)

/-- A `join` that waits for its tasks in turn. -/
structure Join where
  items : List Value
  taken : List (Int64 × ℕ)
  out : List Value

inductive Fate
  | running
  | returned (v : Value)
  | panicked
  | joined

structure Thread where
  table : Table
  held : List Value
  joining : Option Join
  fate : Fate

def Thread.new (held : List Value) : Thread := ⟨.empty, held, none, .running⟩

/-- The values a thread holds, those of a `join` in progress too. -/
def Thread.holds (th : Thread) : List Value :=
  th.held ++ match th.joining with
    | some j => j.items ++ j.out
    | none => []

/-- Threads are numbered in the order they start; a channel is one of the unbounded or the bounded
ones. -/
structure Program where
  threads : ℕ → Thread
  started : ℕ
  tasks : Int64 → Option ℕ
  counter : Int64
  channels : Bool × String → List Value

/-- The entries of a program, each on a thread of its own. -/
def Program.start (entries : ℕ) : Program :=
  ⟨fun _ => .new [], entries, fun _ => none, 1, fun _ => []⟩

/-- A thread that runs the code of the program, in no `join`. -/
def Program.runs (st : Program) (me : ℕ) : Prop :=
  me < st.started ∧ (st.threads me).fate = .running ∧ (st.threads me).joining = none

def Program.setThread (st : Program) (me : ℕ) (th : Thread) : Program :=
  { st with threads := update st.threads me th }

/-- What the drop of values does to the table of the thread that drops them. -/
def dropAll (me : ℕ) (gone : List LocalMap) (t : Table) : Table :=
  gone.foldl (fun t h => h.drop me t) t

inductive ProgramAction
  | work (me : ℕ)
  | spawn (me : ℕ)
  | send (me : ℕ)
  | receive (me : ℕ)
  | join (me : ℕ)
  | collect (me : ℕ)

/-- One step of one thread. -/
inductive ProgramStep : ProgramAction → Program → Program → Prop
  | new {st : Program} {me : ℕ} {h : LocalMap} {t : Table} (hrun : st.runs me)
      (hnew : hmapNew me (st.threads me).table = some (h, t)) :
      ProgramStep (.work me) st (st.setThread me
        { st.threads me with table := t, held := (st.threads me).held ++ [.localMap h] })
  | clone {st : Program} {me : ℕ} {h : LocalMap} (hrun : st.runs me)
      (hheld : h ∈ handlesOf (st.threads me).held) :
      ProgramStep (.work me) st (st.setThread me
        { st.threads me with
          table := (h.clone me (st.threads me).table).2
          held := (st.threads me).held ++ [.localMap (h.clone me (st.threads me).table).1] })
  -- a value is moved, read out of another, put into another, or made without handles
  | make {st : Program} {me : ℕ} {v : Value} (hrun : st.runs me)
      (hheld : ∀ h ∈ v.handles, h ∈ handlesOf (st.threads me).held) :
      ProgramStep (.work me) st (st.setThread me
        { st.threads me with held := (st.threads me).held ++ [v] })
  -- also where a door refuses the value, or a builtin that it is no map for; the elements of a list
  -- live on in other values that share them
  | drop {st : Program} {me : ℕ} {pre post : List Value} {v : Value} {gone : List LocalMap}
      (hrun : st.runs me) (hheld : (st.threads me).held = pre ++ v :: post)
      (hgone : gone.Sublist v.handles) :
      ProgramStep (.work me) st (st.setThread me
        { st.threads me with
          table := dropAll me gone (st.threads me).table
          held := pre ++ post })
  -- a panic of the builtin is caught, and leaves no value
  | call {st : Program} {me : ℕ} {pre post : List Value} {b : Builtin} {v : Value}
      {result : Except String Value} {t : Table} (hrun : st.runs me)
      (hheld : (st.threads me).held = pre ++ v :: post)
      (hcall : callBuiltin me b v (st.threads me).table = some (result, t)) :
      ProgramStep (.work me) st (st.setThread me
        { st.threads me with table := t, held := pre ++ post ++ result.toOption.toList })
  | finish {st : Program} {me : ℕ} {v : Value} (hrun : st.runs me)
      (hheld : v ∈ (st.threads me).held) :
      ProgramStep (.work me) st (st.setThread me ⟨.empty, [], none, .returned v⟩)
  | panic {st : Program} {me : ℕ} (hrun : st.runs me) :
      ProgramStep (.work me) st (st.setThread me ⟨.empty, [], none, .panicked⟩)
  | spawn {st : Program} {me : ℕ} {pre post : List Value} {v : Value} (hrun : st.runs me)
      (hheld : (st.threads me).held = pre ++ v :: post) (hdoor : refuseHandle "spawn" v = .ok ()) :
      ProgramStep (.spawn me) st
        { st with
          threads := update (update st.threads me
            { st.threads me with held := pre ++ post ++ [handleValue st.counter .unit] })
            st.started (.new [v])
          started := st.started + 1
          tasks := update st.tasks st.counter (some st.started)
          counter := st.counter + 1 }
  | channelSend {st : Program} {me : ℕ} {pre post : List Value} {v : Value} {name : String}
      (hrun : st.runs me) (hheld : (st.threads me).held = pre ++ v :: post)
      (hdoor : refuseHandle "channel_send" v = .ok ()) :
      ProgramStep (.send me) st
        { st.setThread me { st.threads me with held := pre ++ post } with
          channels := update st.channels (false, name) (st.channels (false, name) ++ [v]) }
  | bchanSend {st : Program} {me : ℕ} {pre post : List Value} {v : Value} {name : String}
      (hrun : st.runs me) (hheld : (st.threads me).held = pre ++ v :: post)
      (hdoor : refuseHandle "bchan_send" v = .ok ()) :
      ProgramStep (.send me) st
        { st.setThread me { st.threads me with held := pre ++ post } with
          channels := update st.channels (true, name) (st.channels (true, name) ++ [v]) }
  | receive {st : Program} {me : ℕ} {name : Bool × String} {v : Value} {rest : List Value}
      (hrun : st.runs me) (hitem : st.channels name = v :: rest) :
      ProgramStep (.receive me) st
        { st.setThread me { st.threads me with held := (st.threads me).held ++ [v] } with
          channels := update st.channels name rest }
  | join {st : Program} {me : ℕ} {pre post items : List Value} {taken : List (Int64 × ℕ)}
      (hrun : st.runs me) (hheld : (st.threads me).held = pre ++ .list items :: post)
      (htaken : (takeTasks st.tasks items).1 = some taken) :
      ProgramStep (.join me) st
        { st.setThread me
            { st.threads me with held := pre ++ post, joining := some ⟨items, taken, []⟩ } with
          tasks := (takeTasks st.tasks items).2 }
  | joinUnknown {st : Program} {me : ℕ} {pre post items : List Value} {gone : List LocalMap}
      (hrun : st.runs me) (hheld : (st.threads me).held = pre ++ .list items :: post)
      (htaken : (takeTasks st.tasks items).1 = none) (hgone : gone.Sublist (handlesOf items)) :
      ProgramStep (.join me) st
        { st.setThread me
            { st.threads me with
              table := dropAll me gone (st.threads me).table
              held := pre ++ post } with
          tasks := (takeTasks st.tasks items).2 }
  | collect {st : Program} {me task : ℕ} {items out : List Value} {id : Int64}
      {taken : List (Int64 × ℕ)} {result : Value} (hme : me < st.started)
      (hrun : (st.threads me).fate = .running)
      (hjoin : (st.threads me).joining = some ⟨items, (id, task) :: taken, out⟩)
      (hdone : (st.threads task).fate = .returned result) :
      ProgramStep (.collect me) st
        { st with
          threads := update
            (update st.threads task { st.threads task with fate := .joined }) me
            { st.threads me with joining := some ⟨items, taken, out ++ [handleValue id result]⟩ } }
  | joinPanicked {st : Program} {me task : ℕ} {items out : List Value} {id : Int64}
      {taken : List (Int64 × ℕ)} {gone : List LocalMap} (hme : me < st.started)
      (hrun : (st.threads me).fate = .running)
      (hjoin : (st.threads me).joining = some ⟨items, (id, task) :: taken, out⟩)
      (hdone : (st.threads task).fate = .panicked)
        (hgone : gone.Sublist (handlesOf (items ++ out))) :
      ProgramStep (.join me) st (st.setThread me
        { st.threads me with table := dropAll me gone (st.threads me).table, joining := none })
  | joined {st : Program} {me : ℕ} {items out : List Value} {gone : List LocalMap}
      (hme : me < st.started) (hrun : (st.threads me).fate = .running)
      (hjoin : (st.threads me).joining = some ⟨items, [], out⟩)
      (hgone : gone.Sublist (handlesOf items)) :
      ProgramStep (.join me) st (st.setThread me
        { st.threads me with
          table := dropAll me gone (st.threads me).table
          held := (st.threads me).held ++ [.list out]
          joining := none })

/-- Every handle a thread holds is of its own table. -/
def Owned (st : Program) : Prop := ∀ me, ∀ h ∈ handlesOf (st.threads me).holds, h.owner = me

/-- The result that a `join` collects next holds no handle. -/
def JoinsClean (st : Program) : ProgramAction → Prop
  | .collect me => ∀ items id task taken out result,
      (st.threads me).joining = some ⟨items, (id, task) :: taken, out⟩ →
      (st.threads task).fate = .returned result → result.handles = []
  | _ => True

/-- What holds of the handles anywhere in a program. -/
structure Confined (st : Program) : Prop where
  owned : Owned st
  returned : ∀ task v, (st.threads task).fate = .returned v → ∀ h ∈ v.handles, h.owner = task
  channels : ∀ name, handlesOf (st.channels name) = []

variable {me task : ℕ} {h : LocalMap} {t t' : Table} {v w : Value} {vs ws pre post : List Value}
  {st st' : Program} {a : ProgramAction} {th : Thread} {who : String} {b : Builtin}

theorem mem_handlesOf : h ∈ handlesOf vs ↔ ∃ v ∈ vs, h ∈ v.handles := by
  induction vs with
  | nil => simp [handlesOf]
  | cons v vs ih => simp [handlesOf, ih]

@[simp]
theorem handlesOf_append (vs ws : List Value) :
    handlesOf (vs ++ ws) = handlesOf vs ++ handlesOf ws := by
  induction vs with
  | nil => rfl
  | cons v vs ih => simp [handlesOf, ih]

mutual

/-- A door passes a value exactly when there is no handle in it, at any depth. -/
theorem refuseHandle_eq_ok (who : String) (v : Value) :
    refuseHandle who v = .ok () ↔ v.handles = [] := by
  cases v with
  | localMap h => simp [refuseHandle, Value.handles]
  | tuple items | list items => exact refuseHandles_eq_ok who items
  | ctor tag fields => exact refuseHandles_eq_ok who fields
  | _ => simp [refuseHandle, Value.handles]

theorem refuseHandles_eq_ok (who : String) (vs : List Value) :
    refuseHandles who vs = .ok () ↔ handlesOf vs = [] := by
  match vs with
  | [] => simp [refuseHandles, handlesOf]
  | v :: vs =>
    have hv := refuseHandle_eq_ok who v
    have hvs := refuseHandles_eq_ok who vs
    rw [handlesOf, append_eq_nil_iff, ← hv, ← hvs, refuseHandles]
    cases refuseHandle who v with
    | error why => simp [bind, Except.bind]
    | ok u => simp [bind, Except.bind]

end

theorem callBuiltin_handles {result : Except String Value}
    (hcall : callBuiltin me b v t = some (result, t')) : handlesOf result.toOption.toList = [] := by
  have hmap : ∀ {α : Type} (x : Except String α) (f : α → Value), (∀ a, (f a).handles = []) →
      handlesOf (x.map f).toOption.toList = [] := by
    intro α x f hf
    cases x with
    | error why => rfl
    | ok a => simp [Except.map, Except.toOption, handlesOf, hf a]
  cases b <;> cases v <;> cases hcall <;> first | exact hmap _ _ fun _ => rfl | rfl

theorem holds_of_not_joining (hjoin : th.joining = none) : th.holds = th.held := by
  simp [Thread.holds, hjoin]

/-- A value without handles is put into a channel. -/
theorem channels_send {channels : Bool × String → List Value} {name : Bool × String}
    (hclear : ∀ name, handlesOf (channels name) = []) (hv : v.handles = [])
    (name' : Bool × String) :
    handlesOf (update channels name (channels name ++ [v]) name') = [] := by
  by_cases hname : name' = name
  · subst hname
    simp [handlesOf, hclear, hv]
  · rw [update_of_ne hname, hclear]

theorem Confined.start (entries : ℕ) : Confined (.start entries) where
  owned := nofun
  returned := nofun
  channels _ := rfl

/-- A thread may do what it likes with its own handles. -/
theorem Confined.setThread (hi : Confined st) (hown : ∀ h ∈ handlesOf th.holds, h.owner = me)
    (hreturned : ∀ v, th.fate = .returned v → ∀ h ∈ v.handles, h.owner = me) :
    Confined (st.setThread me th) := by
  refine ⟨fun t => ?_, fun t => ?_, hi.channels⟩
  · by_cases ht : t = me
    · subst ht
      simpa [Program.setThread] using hown
    · simpa [Program.setThread, update_of_ne ht] using hi.owned t
  · by_cases ht : t = me
    · subst ht
      simpa [Program.setThread] using hreturned
    · simpa [Program.setThread, update_of_ne ht] using hi.returned t

/-- A running thread that changes its table, and holds only handles it held before. -/
theorem Confined.keep (hi : Confined st) (hfate : th.fate = .running)
    (hsub : ∀ h ∈ handlesOf th.holds, h ∈ handlesOf (st.threads me).holds) :
    Confined (st.setThread me th) :=
  hi.setThread (fun h hmem => hi.owned me h (hsub h hmem)) fun v hv => by
    rw [hfate] at hv
    cases hv

/-- A value that holds only handles of the thread is added. -/
theorem Confined.add (hi : Confined st) (hrun : st.runs me) (hown : ∀ h ∈ v.handles, h.owner = me)
    (t : Table) :
    Confined (st.setThread me
      { st.threads me with table := t, held := (st.threads me).held ++ [v] }) := by
  obtain ⟨-, hfate, hjoin⟩ := hrun
  have hold := hi.owned me
  rw [holds_of_not_joining hjoin] at hold
  refine hi.setThread (fun h hmem => ?_) fun w hw => ?_
  · simp only [Thread.holds, hjoin, handlesOf_append, handlesOf, append_nil, mem_append] at hmem
    exact hmem.elim (hold h) (hown h)
  · rw [hfate] at hw
    cases hw

/-- A value is given up for values without handles. -/
theorem Confined.trade (hi : Confined st) (hrun : st.runs me)
    (hheld : (st.threads me).held = pre ++ v :: post) (t : Table) (hws : handlesOf ws = []) :
    Confined (st.setThread me { st.threads me with table := t, held := pre ++ post ++ ws }) := by
  obtain ⟨-, hfate, hjoin⟩ := hrun
  refine hi.keep hfate fun h hmem => ?_
  simp only [Thread.holds, hjoin, handlesOf_append, hws, append_nil, mem_append] at hmem
  rw [holds_of_not_joining hjoin, hheld]
  simp only [handlesOf_append, handlesOf, mem_append]
  exact hmem.imp_right .inr

theorem hmapNew_owner (hnew : hmapNew me t = some (h, t')) : h.owner = me := by
  unfold hmapNew at hnew
  split at hnew
  · obtain ⟨e, -, he⟩ := Option.map_eq_some_iff.mp hnew
    cases he
    rfl
  · cases hnew
    rfl

theorem clone_owner (me : ℕ) (h : LocalMap) (t : Table) : (h.clone me t).1.owner = h.owner := by
  unfold LocalMap.clone
  split <;> rfl

theorem Confined.step (hi : Confined st) (hclean : JoinsClean st a) (hs : ProgramStep a st st') :
    Confined st' := by
  cases hs with
  | @new _ me h t hrun hnew =>
    refine hi.add hrun (fun h' hmem => ?_) t
    rw [mem_singleton.mp hmem]
    exact hmapNew_owner hnew
  | @clone _ me h hrun hheld =>
    have hown := hi.owned me h
    rw [holds_of_not_joining hrun.2.2] at hown
    refine hi.add hrun (fun h' hmem => ?_) _
    rw [mem_singleton.mp hmem, clone_owner]
    exact hown hheld
  | @make _ me v hrun hheld =>
    have hown := hi.owned me
    rw [holds_of_not_joining hrun.2.2] at hown
    exact hi.add hrun (fun h hmem => hown h (hheld h hmem)) _
  | drop hrun hheld hgone => simpa using hi.trade hrun hheld _ (rfl : handlesOf [] = [])
  | call hrun hheld hcall => exact hi.trade hrun hheld _ (callBuiltin_handles hcall)
  | @finish _ me v hrun hheld =>
    have hown := hi.owned me
    rw [holds_of_not_joining hrun.2.2] at hown
    refine hi.setThread nofun fun w hw h hmem => ?_
    cases hw
    exact hown h (mem_handlesOf.mpr ⟨v, hheld, hmem⟩)
  | panic hrun => exact hi.setThread nofun nofun
  | @spawn _ me pre post v hrun hheld hdoor =>
    have hnone := (refuseHandle_eq_ok _ _).mp hdoor
    have hme := hi.trade hrun hheld (st.threads me).table
      (rfl : handlesOf [handleValue st.counter .unit] = [])
    have htask : Confined ((st.setThread me { st.threads me with
        held := pre ++ post ++ [handleValue st.counter .unit] }).setThread st.started
          (.new [v])) := by
      refine hme.setThread (fun h hmem => ?_) nofun
      simp [Thread.new, Thread.holds, handlesOf, hnone] at hmem
    exact ⟨htask.owned, htask.returned, htask.channels⟩
  | @channelSend _ me pre post v name hrun hheld hdoor
  | @bchanSend _ me pre post v name hrun hheld hdoor =>
    have hme := hi.trade hrun hheld (st.threads me).table (rfl : handlesOf [] = [])
    rw [append_nil] at hme
    exact ⟨hme.owned, hme.returned, channels_send hi.channels ((refuseHandle_eq_ok _ _).mp hdoor)⟩
  | @receive _ me name v rest hrun hitem =>
    have hnone := hi.channels name
    simp only [hitem, handlesOf, append_eq_nil_iff] at hnone
    have hclear : ∀ h ∈ v.handles, h.owner = me := by
      rw [hnone.1]
      exact nofun
    have hme := hi.add hrun hclear (st.threads me).table
    refine ⟨hme.owned, hme.returned, fun name' => ?_⟩
    by_cases hname : name' = name
    · subst hname
      simpa using hnone.2
    · simpa [update_of_ne hname] using hi.channels name'
  | @join _ me pre post items taken hrun hheld htaken =>
    obtain ⟨-, hfate, hjoin⟩ := hrun
    have hme : Confined (st.setThread me { st.threads me with
        held := pre ++ post, joining := some ⟨items, taken, []⟩ }) := by
      refine hi.keep hfate fun h hmem => ?_
      rw [holds_of_not_joining hjoin, hheld]
      simp only [Thread.holds, handlesOf_append, handlesOf, Value.handles, append_nil,
        mem_append] at hmem ⊢
      tauto
    exact ⟨hme.owned, hme.returned, hme.channels⟩
  | @joinUnknown _ me pre post items gone hrun hheld htaken hgone =>
    have hme :=
      hi.trade hrun hheld (dropAll me gone (st.threads me).table) (rfl : handlesOf [] = [])
    rw [append_nil] at hme
    exact ⟨hme.owned, hme.returned, hme.channels⟩
  | @collect _ me task items out id taken result hme hrun hjoin hdone =>
    have hnone := hclean items id task taken out result hjoin hdone
    have htask : Confined (st.setThread task { st.threads task with fate := .joined }) :=
      hi.setThread (hi.owned task) nofun
    have hown := hi.owned me
    simp only [Thread.holds, hjoin, handlesOf_append, mem_append] at hown
    have hcollect : Confined
        ((st.setThread task { st.threads task with fate := .joined }).setThread me
        { st.threads me with joining := some ⟨items, taken, out ++ [handleValue id result]⟩ }) := by
      refine htask.setThread (fun h hmem => ?_) fun v hv => ?_
      · simp only [Thread.holds, handleValue, handlesOf_append, handlesOf, Value.handles, hnone,
          append_nil, mem_append] at hmem
        exact hown h hmem
      · rw [hrun] at hv
        cases hv
    exact ⟨hcollect.owned, hcollect.returned, hcollect.channels⟩
  | joinPanicked hme hrun hjoin hdone hgone =>
    refine hi.keep hrun fun h hmem => ?_
    simp only [Thread.holds, hjoin, handlesOf_append, append_nil, mem_append] at hmem ⊢
    exact .inl hmem
  | joined hme hrun hjoin hgone =>
    refine hi.keep hrun fun h hmem => ?_
    simp only [Thread.holds, hjoin, handlesOf_append, handlesOf, Value.handles, append_nil,
      mem_append] at hmem ⊢
    exact hmem.imp_right .inr

/-- A handle that a join collects belongs to the table of the task. -/
theorem Confined.owned_iff (hi : Confined st) (hs : ProgramStep a st st') :
    Owned st' ↔ JoinsClean st a := by
  refine ⟨fun hown => ?_, fun hclean => (hi.step hclean hs).owned⟩
  cases hs with
  | @collect _ me task items out id taken result hme hrun hjoin hdone =>
    intro items' id' task' taken' out' result' hjoin' hdone'
    rw [hjoin] at hjoin'
    cases hjoin'
    rw [hdone] at hdone'
    cases hdone'
    refine eq_nil_iff_forall_not_mem.mpr fun h hmem => ?_
    have htask := hi.returned task result hdone h hmem
    have hme := hown me h (by
      simp [Thread.holds, handleValue, handlesOf, Value.handles, hmem])
    rw [← hme, htask, hdone] at hrun
    cases hrun
  | _ => trivial

theorem clone_foreign (howner : h.owner ≠ me) (t : Table) :
    h.clone me t = ({ h with counted := false }, t) := by
  simp [LocalMap.clone, howner]

theorem drop_foreign (howner : h.owner ≠ me) (t : Table) : h.drop me t = t := by
  simp [LocalMap.drop, howner]

/-- The handle of another thread is refused before the table is read. -/
theorem onLive_foreign (howner : h.owner ≠ me) (t : Table) :
    ∃ why, onLive me h who t = .error why :=
  ⟨_, by simp only [onLive, ownerCheck, if_neg howner]; rfl⟩

theorem Confined.of_reaches {entries : ℕ} (h : Reaches ProgramStep JoinsClean (.start entries) st) :
    Confined st :=
  h.invariant (fun hi hclean hs => hi.step hclean hs) (.start entries)

/-- Handles stay on the thread whose table they are of, as long as no join collects one, and no step
but such a join takes one away from it. The handle of another thread is never resolved in any
case. -/
theorem handles_stay_home {entries : ℕ} (h : Reaches ProgramStep JoinsClean (.start entries) st) :
    Owned st ∧ (∀ a st', ProgramStep a st st' → (Owned st' ↔ JoinsClean st a)) ∧
      ∀ (me : ℕ) (h : LocalMap) (t : Table), h.owner ≠ me →
        (h.clone me t).2 = t ∧ h.drop me t = t ∧ ∀ who, ∃ why, onLive me h who t = .error why := by
  have hi := Confined.of_reaches h
  refine ⟨hi.owned, fun a st' hs => hi.owned_iff hs, fun me h t howner => ⟨?_, ?_, ?_⟩⟩
  · rw [clone_foreign howner]
  · exact drop_foreign howner t
  · exact fun who => onLive_foreign howner t

/-- A task that made a map and returns `v`, at the point where `join` is about to collect it. -/
theorem reaches_collect (v : Value) (hv : v ∈ [.unit, .localMap ⟨1, 0, 0, true⟩]) :
    ∃ st, Reaches ProgramStep JoinsClean (.start 1) st ∧ 0 < st.started ∧
      (st.threads 0).fate = .running ∧ (st.threads 1).fate = .returned v ∧
      (st.threads 0).joining = some ⟨[handleValue 1 .unit], [(1, 1)], []⟩ := by
  have hunit : Reaches ProgramStep JoinsClean (.start 1) _ :=
    .of_step (a := .work 0) trivial
      (@ProgramStep.make _ 0 .unit ⟨Nat.zero_lt_succ _, rfl, rfl⟩ nofun)
  have hspawn := hunit.next (a := ProgramAction.spawn 0) trivial
    (@ProgramStep.spawn _ 0 [] [] .unit ⟨Nat.zero_lt_succ _, rfl, rfl⟩ rfl rfl)
  have hnew := hspawn.next (a := ProgramAction.work 1) trivial
    (@ProgramStep.new _ 1 ⟨1, 0, 0, true⟩ _ ⟨Nat.one_lt_two, rfl, rfl⟩ rfl)
  have hfinish := hnew.next (a := ProgramAction.work 1) trivial
    (@ProgramStep.finish _ 1 v ⟨Nat.one_lt_two, rfl, rfl⟩ hv)
  have hlist := hfinish.next (a := ProgramAction.work 0) trivial
    (@ProgramStep.make _ 0 (.list [handleValue 1 .unit]) ⟨Nat.zero_lt_succ _, rfl, rfl⟩ nofun)
  have hjoin := hlist.next (a := ProgramAction.join 0) trivial
    (@ProgramStep.join _ 0 [handleValue 1 .unit] [] [handleValue 1 .unit] [(1, 1)]
      ⟨Nat.zero_lt_succ _, rfl, rfl⟩ rfl rfl)
  exact ⟨_, hjoin, Nat.zero_lt_succ 1, rfl, rfl, rfl⟩

theorem handles_stay_home_run :
    ∃ st, Reaches ProgramStep JoinsClean (.start 1) st ∧ (st.threads 0).joining =
      some ⟨[handleValue 1 .unit], [], [handleValue 1 .unit]⟩ ∧ Owned st := by
  obtain ⟨st, h, hstarted, hrun, hdone, hjoin⟩ := reaches_collect .unit (by simp)
  have hclean : JoinsClean st (.collect 0) := by
    intro items id task taken out result hjoin' hdone'
    rw [hjoin] at hjoin'
    cases hjoin'
    rw [hdone] at hdone'
    cases hdone'
    rfl
  have hcollect := h.next hclean (.collect hstarted hrun hjoin hdone)
  exact ⟨_, hcollect, by simp, (handles_stay_home hcollect).1⟩

/-- No door refuses what a task returns: the thread that joins it then holds a handle of its
table. -/
theorem join_passes_handle : ∃ st, Reaches ProgramStep anyAction (.start 1) st ∧ ¬Owned st := by
  obtain ⟨st, h, hstarted, hrun, hdone, hjoin⟩ :=
    reaches_collect (.localMap ⟨1, 0, 0, true⟩) (by simp)
  have hstep := ProgramStep.collect hstarted hrun hjoin hdone
  refine ⟨_, (h.mono fun _ => trivial).next trivial hstep, fun hown => ?_⟩
  have hclean := ((Confined.of_reaches h).owned_iff hstep).mp hown _ _ _ _ _ _ hjoin hdone
  cases hclean

end AxisBridge.HMap
