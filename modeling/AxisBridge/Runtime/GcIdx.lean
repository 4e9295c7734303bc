import AxisBridge.Runtime.BridgedCell

/-! The resident cache of index artifacts: look-ups without a lock, puts under one. -/
namespace AxisBridge.GcIdx
open Option List Function

open BridgedCell (World Invariant)

/-- A published map, with the addresses in the order they came. -/
structure Cached where
  map : List (String × List UInt8)
  order : List String

def Cached.new : Cached := ⟨[], []⟩

/-- The oldest addresses go while there are more than the cap. -/
def evict (cap : ℕ) (map : List (String × List UInt8)) : List String → Cached
  | [] => ⟨map, []⟩
  | oldest :: order =>
    if cap < map.length then evict cap (map.filter fun q => q.1 ≠ oldest) order
    else ⟨map, oldest :: order⟩

def Cached.insert (cap : ℕ) (m : Cached) (addr : String) (bytes : List UInt8) : Cached :=
  evict cap ((addr, bytes) :: m.map) (m.order ++ [addr])

inductive GetPc
  | load
  | clone (id : ℕ)
  | done (answer : Option (List UInt8))
  deriving DecidableEq

/-- A call of `get_cached`. -/
structure Get where
  addr : String
  pc : GetPc

inductive PutPc
  | lock
  | load
  | clone (id : ℕ)
  | publish (base : Cached)
  | retire
  | done (stored : Bool)

/-- A call of `put_cached`. -/
structure Put where
  addr : String
  bytes : List UInt8
  pc : PutPc

/-- The cell with its registry, who has the mutex, the calls. -/
structure GcState (ι κ : Type*) where
  world : World Unit Cached
  locked : Option κ
  gets : ι → Get
  puts : κ → Put

variable {ι κ : Type*}

def GcState.start (addrs : ι → String) (puts : κ → String × List UInt8) : GcState ι κ :=
  ⟨.new, none, fun i => ⟨addrs i, .load⟩, fun k => ⟨(puts k).1, (puts k).2, .lock⟩⟩

/-- What a block holds; it is read whether it is freed or not. -/
def GcState.block (st : GcState ι κ) (b : ℕ) : Cached :=
  (st.world.blocks[b]?.map BridgedCell.Block.value).getD .new

/-- `BridgedCell::read` pins nothing: the head is loaded, then the block is read. -/
def GcState.getPc (st : GcState ι κ) (g : Get) : GetPc :=
  match g.pc with
  | .load =>
    match st.world.heads () with
    | .empty => .done none
    | .inline m _ => .done (m.map.lookup g.addr)
    | .block b => .clone b
  | .clone b => .done ((st.block b).map.lookup g.addr)
  | .done answer => .done answer

section
variable [DecidableEq κ]

def GcState.setPut (st : GcState ι κ) (k : κ) (pc : PutPc) : GcState ι κ :=
  { st with puts := update st.puts k { st.puts k with pc } }

/-- `write_lazy` up to its publish; the block that was at the head is looked after next. -/
def publishLazy (world : World Unit Cached) (m : Cached) : World Unit Cached :=
  world.publish (fun _ => false) () m (world.nextEpoch ())
    { world.writers () with pc := ((world.heads ()).id?.map .check).getD .idle }

def GcState.putStep (cap : ℕ) (st : GcState ι κ) (k : κ) : GcState ι κ :=
  match (st.puts k).pc with
  | .lock => if st.locked.isNone then { st.setPut k .load with locked := some k } else st
  | .load =>
    match st.world.heads () with
    | .empty => st.setPut k (.publish .new)
    | .inline m _ => st.setPut k (.publish m)
    | .block b => st.setPut k (.clone b)
  | .clone b => st.setPut k (.publish (st.block b))
  | .publish base =>
    if (base.map.lookup (st.puts k).addr).isSome then
      { st.setPut k (.done false) with locked := none }
    else
      { st.setPut k .retire with
        world := publishLazy st.world (base.insert cap (st.puts k).addr (st.puts k).bytes) }
  | .retire =>
    match ((st.world.next ()).writers ()).pc with
    | .idle => { st.setPut k (.done true) with world := st.world.next (), locked := none }
    | _ => { st with world := st.world.next () }
  | .done _ => st

inductive GcAction (ι κ : Type*)
  | get (i : ι)
  | put (k : κ)

/-- One access to shared memory by a call. -/
def GcStep [DecidableEq ι] (cap : ℕ) : GcAction ι κ → GcState ι κ → GcState ι κ → Prop
  | .get i, st, st' =>
    st' = { st with gets := update st.gets i { st.gets i with pc := st.getPc (st.gets i) } }
  | .put k, st, st' => st' = st.putStep cap k

end

/-- A put frees the block it has replaced only where no look-up stands between its load of that
block and its clone. -/
def Careful (st : GcState ι κ) : GcAction ι κ → Prop
  | .put k => ∀ old, (st.puts k).pc = .retire → (st.world.writers ()).pc = .check old →
      ∀ i, (st.gets i).pc ≠ .clone old
  | .get _ => True

/-- Some put has published the bytes under the address. -/
def Stored (puts : κ → Put) (q : String × List UInt8) : Prop :=
  ∃ k, (puts k).addr = q.1 ∧ (puts k).bytes = q.2 ∧
    ((puts k).pc = .retire ∨ (puts k).pc = .done true)

def PutPc.InLock : PutPc → Prop
  | .lock | .done _ => False
  | _ => True

structure GcInvariant (st : GcState ι κ) : Prop where
  world : Invariant st.world
  unregistered : st.world.anyHandleEver = false
  outline : ∀ m epoch, st.world.heads () ≠ .inline m epoch
  holder : ∀ k, (st.puts k).pc.InLock → st.locked = some k
  writer : (st.world.writers ()).pc = .idle ∨
    ∃ k old, (st.puts k).pc = .retire ∧ (st.world.writers ()).pc = .check old
  gets : ∀ i b, (st.gets i).pc = .clone b → b < st.world.blocks.length ∧ b ∉ st.world.freed
  puts : ∀ k b, (st.puts k).pc = .clone b → (st.world.heads ()).id? = some b
  stored : ∀ blk ∈ st.world.blocks, ∀ q ∈ blk.value.map, Stored st.puts q
  based : ∀ k base, (st.puts k).pc = .publish base → ∀ q ∈ base.map, Stored st.puts q
  answers : ∀ i bytes, (st.gets i).pc = .done (some bytes) →
    Stored st.puts ((st.gets i).addr, bytes)

section
variable {st : GcState ι κ} {cap : ℕ} {k : κ} {b : ℕ}

theorem GcInvariant.start (addrs : ι → String) (puts : κ → String × List UInt8) :
    GcInvariant (GcState.start addrs puts) :=
  ⟨.new, rfl, nofun, nofun, .inl rfl, nofun, nofun, nofun, nofun, nofun⟩

theorem GcInvariant.head_live (h : GcInvariant st) (hid : (st.world.heads ()).id? = some b) :
    b < st.world.blocks.length ∧ b ∉ st.world.freed :=
  h.world.pools.live () b (mem_append_left _ (mem_toList.mpr hid))

theorem GcInvariant.block_stored (h : GcInvariant st) (b : ℕ) :
    ∀ q ∈ (st.block b).map, Stored st.puts q := by
  intro q hq
  unfold GcState.block at hq
  cases hblk : st.world.blocks[b]? with
  | none =>
    rw [hblk] at hq
    cases hq
  | some blk =>
    rw [hblk, map_some, getD_some] at hq
    exact h.stored blk (mem_of_getElem? hblk) q hq

variable {map : List (String × List UInt8)} {bytes : List UInt8} {q : String × List UInt8}
  {pc : PutPc}

theorem mem_of_lookup {addr : String} (h : map.lookup addr = some bytes) : (addr, bytes) ∈ map := by
  obtain ⟨l₁, l₂, rfl, -⟩ := lookup_eq_some_iff.mp h
  exact mem_append_right _ mem_cons_self

theorem evict_subset {order : List String} : ∀ q ∈ (evict cap map order).map, q ∈ map := by
  induction order generalizing map with
  | nil => exact fun q hq => hq
  | cons oldest order ih =>
    intro q hq
    rw [evict] at hq
    split at hq
    · exact (mem_filter.mp (ih q hq)).1
    · exact hq

theorem insert_subset {m : Cached} {addr : String}
    (hq : q ∈ (m.insert cap addr bytes).map) : q = (addr, bytes) ∨ q ∈ m.map :=
  mem_cons.mp (evict_subset q hq)

/-- The call that has the mutex is alone in the lock. -/
theorem GcInvariant.alone (h : GcInvariant st) (hk : (st.puts k).pc.InLock) :
    ∀ k' ≠ k, ¬(st.puts k').pc.InLock := by
  intro k' hne hk'
  have heq := (h.holder k' hk').symm.trans (h.holder k hk)
  exact hne (some.inj heq)

theorem GcInvariant.getStep [DecidableEq ι] (h : GcInvariant st) (i : ι) :
    GcInvariant
      { st with gets := update st.gets i { st.gets i with pc := st.getPc (st.gets i) } } := by
  refine ⟨h.world, h.unregistered, h.outline, h.holder, h.writer, fun i' b hpc => ?_, h.puts,
    h.stored, h.based, fun i' bytes hpc => ?_⟩
  · by_cases hi : i' = i
    · subst hi
      simp only [update_self, GcState.getPc] at hpc
      split at hpc
      · split at hpc
        · cases hpc
        · cases hpc
        · rename_i hhead
          cases hpc
          exact h.head_live (by rw [hhead]; rfl)
      · cases hpc
      · cases hpc
    · simp only [update_of_ne hi] at hpc
      exact h.gets i' b hpc
  · by_cases hi : i' = i
    · subst hi
      simp only [update_self, GcState.getPc] at hpc ⊢
      split at hpc
      · split at hpc
        · cases hpc
        · rename_i m epoch hhead
          exact absurd hhead (h.outline m epoch)
        · cases hpc
      · rename_i b _
        rw [GetPc.done.injEq] at hpc
        exact h.block_stored b _ (mem_of_lookup hpc)
      · rename_i answer hanswer
        cases hpc
        exact h.answers i' bytes hanswer
    · simp only [update_of_ne hi] at hpc ⊢
      exact h.answers i' bytes hpc

variable [DecidableEq κ]

theorem setPut_self (st : GcState ι κ) (k : κ) (pc : PutPc) :
    (st.setPut k pc).puts k = { st.puts k with pc } := update_self ..

theorem setPut_of_ne {k' : κ} (hk : k' ≠ k) (pc : PutPc) :
    (st.setPut k pc).puts k' = st.puts k' := update_of_ne hk ..

/-- What has been published stays so while its put goes on. -/
theorem Stored.setPut (h : Stored st.puts q) (k : κ)
    (hpc : (st.puts k).pc = .retire ∨ (st.puts k).pc = .done true →
      pc = .retire ∨ pc = .done true) : Stored (st.setPut k pc).puts q := by
  obtain ⟨k', haddr, hbytes, hpc'⟩ := h
  by_cases hk : k' = k
  · subst hk
    refine ⟨k', ?_, ?_, ?_⟩ <;> rw [setPut_self]
    exacts [haddr, hbytes, hpc hpc']
  · refine ⟨k', ?_, ?_, ?_⟩ <;> rw [setPut_of_ne hk]
    exacts [haddr, hbytes, hpc']

/-- Where the others are out of the lock, only the put that goes on may be in it. -/
theorem inLock_setPut {k' : κ} {pc' : PutPc} (hothers : ∀ k' ≠ k, ¬(st.puts k').pc.InLock)
    (hpc : ((st.setPut k pc).puts k').pc = pc') (hin : pc'.InLock) : k' = k ∧ pc = pc' := by
  by_cases hk : k' = k
  · subst hk
    rw [setPut_self] at hpc
    exact ⟨rfl, hpc⟩
  · rw [setPut_of_ne hk] at hpc
    exact absurd (hpc ▸ hin) (hothers k' hk)

/-- A put goes on without a write to the cell. -/
theorem GcInvariant.quiet (h : GcInvariant st) {locked : Option κ}
    (hold : ¬((st.puts k).pc = .retire ∨ (st.puts k).pc = .done true))
    (hothers : ∀ k' ≠ k, ¬(st.puts k').pc.InLock) (hlock : pc.InLock → locked = some k)
    (hclone : ∀ b, pc = .clone b → (st.world.heads ()).id? = some b)
    (hbase : ∀ base, pc = .publish base → ∀ q ∈ base.map, Stored st.puts q) :
    GcInvariant { st.setPut k pc with locked } := by
  have hstored : ∀ {q}, Stored st.puts q → Stored (st.setPut k pc).puts q :=
    fun hq => hq.setPut k fun hpc => absurd hpc hold
  refine ⟨h.world, h.unregistered, h.outline, fun k' hk' => ?_, .inl ?_, h.gets, fun k' b hpc => ?_,
    fun blk hblk q hq => hstored (h.stored blk hblk q hq), fun k' base hpc q hq => hstored ?_,
    fun i bytes hpc => hstored (h.answers i bytes hpc)⟩
  · obtain ⟨rfl, hpc⟩ := inLock_setPut hothers rfl hk'
    exact hlock (hpc ▸ hk')
  · rcases h.writer with hidle | ⟨k', old, hretire, -⟩
    · exact hidle
    · have hk : k' = k := by
        by_contra hk
        exact hothers k' hk (by rw [hretire]; trivial)
      exact absurd (.inl (hk ▸ hretire)) hold
  · obtain ⟨-, hpc⟩ := inLock_setPut hothers hpc trivial
    exact hclone b hpc
  · obtain ⟨-, hpc⟩ := inLock_setPut hothers hpc trivial
    exact hbase base hpc q hq

theorem GcInvariant.publish (h : GcInvariant st) {base : Cached}
    (hpc : (st.puts k).pc = .publish base) :
    GcInvariant { st.setPut k .retire with
      world := publishLazy st.world (base.insert cap (st.puts k).addr (st.puts k).bytes) } := by
  have halone := h.alone (k := k) (by rw [hpc]; trivial)
  have hidle : (st.world.writers ()).pc = .idle := by
    rcases h.writer with hidle | ⟨k', old, hretire, -⟩
    · exact hidle
    · by_cases hk : k' = k
      · rw [hk, hpc] at hretire
        cases hretire
      · exact absurd (by rw [hretire]; trivial) (halone k' hk)
  have hstored : ∀ {q}, Stored st.puts q → Stored (st.setPut k .retire).puts q :=
    fun hq => hq.setPut k fun _ => .inl rfl
  have hwrite : BridgedCell.CellStep (fun _ => false)
      (.writeLazy () (base.insert cap (st.puts k).addr (st.puts k).bytes)) st.world
      (publishLazy st.world (base.insert cap (st.puts k).addr (st.puts k).bytes)) :=
        .writeLazy hidle
  have hworld := h.world.step (by trivial) hwrite
  have hlen : st.world.blocks.length ≤ (publishLazy st.world
      (base.insert cap (st.puts k).addr (st.puts k).bytes)).blocks.length := by
    simp [publishLazy, World.publish, World.published]
  refine ⟨hworld, h.unregistered, ?_, fun k' hk' => ?_, ?_, fun i b hb => ?_, fun k' b hb => ?_,
    fun blk hblk q hq => ?_, fun k' base' hb q hq => ?_,
      fun i bytes hb => hstored (h.answers i bytes hb)⟩
  · simp [publishLazy, World.publish, World.published]
  · obtain ⟨rfl, -⟩ := inLock_setPut halone rfl hk'
    exact h.holder k' (by rw [hpc]; trivial)
  · have hwriter : ((publishLazy st.world (base.insert cap (st.puts k).addr
        (st.puts k).bytes)).writers ()).pc = ((st.world.heads ()).id?.map .check).getD .idle := by
      simp [publishLazy, World.publish]
    rw [hwriter]
    cases (st.world.heads ()).id? with
    | none => exact .inl rfl
    | some old => exact .inr ⟨k, old, by simp only [setPut_self], rfl⟩
  · obtain ⟨hlt, hf⟩ := h.gets i b hb
    exact ⟨hlt.trans_le hlen, hf⟩
  · obtain ⟨-, hpc'⟩ := inLock_setPut halone hb trivial
    cases hpc'
  · rcases mem_append.mp hblk with hblk | hblk
    · exact hstored (h.stored blk hblk q hq)
    · rw [mem_singleton.mp hblk] at hq
      rcases insert_subset hq with rfl | hq
      · exact ⟨k, by simp only [setPut_self], by simp only [setPut_self],
          .inl (by simp only [setPut_self])⟩
      · exact hstored (h.based k base hpc q hq)
  · obtain ⟨-, hpc'⟩ := inLock_setPut halone hb trivial
    cases hpc'

/-- The last step of a put frees what it has replaced. -/
theorem GcInvariant.retire (h : GcInvariant st) (hpc : (st.puts k).pc = .retire)
    (hok : Careful st (.put k : GcAction ι κ)) : GcInvariant (st.putStep cap k) := by
  have halone := h.alone (k := k) (by rw [hpc]; trivial)
  have hstored : ∀ {q}, Stored st.puts q → Stored (st.setPut k (.done true)).puts q :=
    fun hq => hq.setPut k fun _ => .inr rfl
  have hnext : ((st.world.next ()).writers ()).pc = .idle ∧
      (st.world.next ()).blocks = st.world.blocks ∧ (st.world.next ()).heads = st.world.heads ∧
      (st.world.next ()).anyHandleEver = false ∧
      ∀ i b, (st.gets i).pc = .clone b → b ∉ (st.world.next ()).freed := by
    rcases h.writer with hidle | ⟨-, old, -, hcheck⟩
    · simp only [World.next, hidle]
      exact ⟨trivial, trivial, trivial, h.unregistered, fun i b hb => (h.gets i b hb).2⟩
    · simp only [World.next, hcheck, h.unregistered, reduceCtorEq, if_false]
      refine ⟨by simp [World.setWriter], rfl, rfl, h.unregistered, fun i b hb hmem => ?_⟩
      rcases mem_append.mp hmem with hmem | hmem
      · exact (h.gets i b hb).2 hmem
      · rw [mem_singleton.mp hmem] at hb
        exact hok old hpc hcheck i hb
  obtain ⟨hidle, hblocks, hheads, hflag, hgets⟩ := hnext
  simp only [GcState.putStep, hpc, hidle]
  refine ⟨h.world.next (), hflag, ?_, fun k' hk' => ?_, .inl hidle,
    fun i b hb => ⟨by rw [hblocks]; exact (h.gets i b hb).1, hgets i b hb⟩, fun k' b hb => ?_,
    fun blk hblk q hq => ?_, fun k' base hb q hq => ?_,
      fun i bytes hb => hstored (h.answers i bytes hb)⟩
  · rw [hheads]
    exact h.outline
  · obtain ⟨-, hpc'⟩ := inLock_setPut halone rfl hk'
    exact (hpc' ▸ hk' : (PutPc.done true).InLock).elim
  · obtain ⟨-, hpc'⟩ := inLock_setPut halone hb trivial
    cases hpc'
  · rw [hblocks] at hblk
    exact hstored (h.stored blk hblk q hq)
  · obtain ⟨-, hpc'⟩ := inLock_setPut halone hb trivial
    cases hpc'

theorem GcInvariant.putStep (h : GcInvariant st) (hok : Careful st (.put k : GcAction ι κ)) :
    GcInvariant (st.putStep cap k) := by
  cases hpc : (st.puts k).pc with
  | lock =>
    simp only [GcState.putStep, hpc]
    split
    · rename_i hnone
      refine h.quiet (by simp [hpc]) (fun k' _ hk' => ?_) (fun _ => rfl) nofun nofun
      rw [h.holder k' hk'] at hnone
      cases hnone
    · exact h
  | load =>
    have halone := h.alone (k := k) (by rw [hpc]; trivial)
    have hlock := h.holder k (by rw [hpc]; trivial)
    simp only [GcState.putStep, hpc]
    split
    · exact h.quiet (by simp [hpc]) halone (fun _ => hlock) nofun
        fun base hb q hq => by cases hb; cases hq
    · rename_i m epoch hhead
      exact absurd hhead (h.outline m epoch)
    · rename_i b hhead
      refine h.quiet (by simp [hpc]) halone (fun _ => hlock) (fun b' hb' => ?_) nofun
      cases hb'
      rw [hhead]
      rfl
  | clone b =>
    have halone := h.alone (k := k) (by rw [hpc]; trivial)
    have hlock := h.holder k (by rw [hpc]; trivial)
    simp only [GcState.putStep, hpc]
    refine h.quiet (by simp [hpc]) halone (fun _ => hlock) nofun fun base hb q hq => ?_
    cases hb
    exact h.block_stored b q hq
  | publish base =>
    have halone := h.alone (k := k) (by rw [hpc]; trivial)
    simp only [GcState.putStep, hpc]
    split
    · exact h.quiet (by simp [hpc]) halone (fun hin => hin.elim) nofun nofun
    · exact h.publish hpc
  | retire => exact h.retire hpc hok
  | done stored =>
    simp only [GcState.putStep, hpc]
    exact h

/-- A free that overtakes a look-up leaves it before a block that is freed. -/
theorem GcInvariant.overtaken (h : GcInvariant st) (hok : ¬Careful st (.put k : GcAction ι κ)) :
    ∃ i b, ((st.putStep cap k).gets i).pc = .clone b ∧ b ∈ (st.putStep cap k).world.freed := by
  simp only [Careful, not_forall] at hok
  obtain ⟨old, hpc, hcheck, i, hi⟩ := hok
  have hfreed : (st.world.next ()).freed = st.world.freed ++ [old] := by
    simp only [World.next, hcheck, h.unregistered, reduceCtorEq, if_false]
    rfl
  refine ⟨i, old, ?_, ?_⟩
  · simp only [GcState.putStep, hpc]
    split <;> exact not_not.mp hi
  · have hworld : (st.putStep cap k).world = st.world.next () := by
      simp only [GcState.putStep, hpc]
      split <;> rfl
    rw [hworld, hfreed]
    exact mem_append_right _ (mem_singleton_self old)

theorem putStep_given (st : GcState ι κ) (cap : ℕ) (k k' : κ) :
    (st.putStep cap k).gets = st.gets ∧ ((st.putStep cap k).puts k').addr = (st.puts k').addr ∧
      ((st.putStep cap k).puts k').bytes = (st.puts k').bytes := by
  have hset : ∀ pc, ((st.setPut k pc).puts k').addr = (st.puts k').addr ∧
      ((st.setPut k pc).puts k').bytes = (st.puts k').bytes := by
    intro pc
    by_cases hk : k' = k
    · subst hk
      rw [setPut_self]
      exact ⟨rfl, rfl⟩
    · rw [setPut_of_ne hk]
      exact ⟨rfl, rfl⟩
  unfold GcState.putStep
  repeat' split
  all_goals first | exact ⟨rfl, hset _⟩ | exact ⟨rfl, rfl, rfl⟩

theorem GcInvariant.step [DecidableEq ι] {a : GcAction ι κ} {st' : GcState ι κ} (h : GcInvariant st)
    (hok : Careful st a) (hs : GcStep cap a st st') : GcInvariant st' := by
  cases a with
  | get i =>
    cases hs
    exact h.getStep i
  | put k =>
    cases hs
    exact h.putStep hok

end

section
variable [DecidableEq ι] [DecidableEq κ]

/-- In a run in which no free overtakes a look-up, every block that a look-up or a put is about to
read is live, and what a look-up answers is what some put has published under its address. A step
leaves the look-ups with live blocks only if it is such a step. -/
theorem gcidx_reads_live (cap : ℕ) (addrs : ι → String) (puts : κ → String × List UInt8)
    {st : GcState ι κ} (hrun : Reaches (GcStep cap) Careful (.start addrs puts) st) :
    (∀ i b, (st.gets i).pc = .clone b → b ∉ st.world.freed) ∧
    (∀ k b, (st.puts k).pc = .clone b → b ∉ st.world.freed) ∧
    (∀ i bytes, (st.gets i).pc = .done (some bytes) → ∃ k, puts k = (addrs i, bytes) ∧
      ((st.puts k).pc = .retire ∨ (st.puts k).pc = .done true)) ∧
    ∀ a st', GcStep cap a st st' →
      (Careful st a ↔ ∀ i b, (st'.gets i).pc = .clone b → b ∉ st'.world.freed) := by
  have h : GcInvariant st := hrun.invariant (fun h hok hs => h.step hok hs) (.start addrs puts)
  have hgiven : (∀ i, (st.gets i).addr = addrs i) ∧
      ∀ k, ((st.puts k).addr, (st.puts k).bytes) = puts k := by
    refine hrun.invariant (I := fun t : GcState ι κ => (∀ i, (t.gets i).addr = addrs i) ∧
      ∀ k, ((t.puts k).addr, (t.puts k).bytes) = puts k) ?_ ⟨fun _ => rfl, fun _ => rfl⟩
    rintro t (i | k) t' ⟨haddrs, hputs⟩ - rfl
    · refine ⟨fun i' => ?_, hputs⟩
      rw [← haddrs i']
      by_cases hi : i' = i
      · subst hi
        simp
      · simp only [update_of_ne hi]
    · refine ⟨fun i => ?_, fun k' => ?_⟩
      · rw [(putStep_given t cap k k).1]
        exact haddrs i
      · obtain ⟨-, haddr, hbytes⟩ := putStep_given t cap k k'
        rw [haddr, hbytes]
        exact hputs k'
  refine ⟨fun i b hb => (h.gets i b hb).2, fun k b hb => (h.head_live (h.puts k b hb)).2,
    fun i bytes hb => ?_, fun a st' hs => ⟨fun hok i b hb => ((h.step hok hs).gets i b hb).2,
      fun hlive => ?_⟩⟩
  · obtain ⟨k, haddr, hbytes, hpc⟩ := h.answers i bytes hb
    refine ⟨k, ?_, hpc⟩
    rw [← hgiven.2 k, haddr, hbytes, hgiven.1 i]
  · cases a with
    | get i => trivial
    | put k =>
      by_contra hok
      cases hs
      obtain ⟨i, b, hb, hmem⟩ := @GcInvariant.overtaken _ _ _ cap k _ h hok
      exact hlive i b hb hmem

/-- The state after each call has taken its next step in turn. -/
def GcState.run (cap : ℕ) (st : GcState ι κ) : List (GcAction ι κ) → GcState ι κ
  | [] => st
  | .get i :: as =>
    { st with
      gets := update st.gets i { st.gets i with pc := st.getPc (st.gets i) } }.run cap as
  | .put k :: as => (st.putStep cap k).run cap as

theorem reaches_run (cap : ℕ) (st : GcState ι κ) (as : List (GcAction ι κ)) :
    Reaches (GcStep cap) anyAction st (st.run cap as) := by
  induction as generalizing st with
  | nil => exact .refl st
  | cons a as ih =>
    cases a with
    | get i => exact (Reaches.of_step (a := .get i) trivial rfl).trans (ih _)
    | put k => exact (Reaches.of_step (a := .put k) trivial rfl).trans (ih _)

end

/-- A look-up has loaded the map of a put that is done, while a second put holds the mutex. -/
theorem gcidx_reads_live_run : ∃ st : GcState Unit Bool,
    Reaches (GcStep 4096) Careful
      (.start (fun _ => "a") fun k => bif k then ("b", [2]) else ("a", [1])) st ∧
      (st.gets ()).pc = .clone 0 ∧ st.locked = some true ∧ 0 ∉ st.world.freed := by
  have hlock : Reaches (GcStep 4096) Careful (.start (fun _ : Unit => "a") fun k : Bool =>
      bif k then ("b", [2]) else ("a", [1])) _ :=
    .of_step (a := GcAction.put false) (fun _ h => nomatch h) rfl
  have hload := hlock.next (a := GcAction.put false) (fun _ h => nomatch h) rfl
  have hpublish := hload.next (a := GcAction.put false) (fun _ h => nomatch h) rfl
  have hretire := hpublish.next (a := GcAction.put false) (fun _ _ h => nomatch h) rfl
  have hget := hretire.next (a := GcAction.get ()) trivial rfl
  have hlock' := hget.next (a := GcAction.put true) (fun _ h => nomatch h) rfl
  exact ⟨_, hlock', rfl, rfl, (gcidx_reads_live _ _ _ hlock').1 () 0 rfl⟩

/-- A look-up has loaded the first map when a second put replaces and frees it. -/
theorem put_overtakes_get : ∃ (st : GcState Unit Bool) (b : ℕ),
    Reaches (GcStep 4096) anyAction
      (.start (fun _ => "a") fun k => bif k then ("b", [2]) else ("a", [1])) st ∧
      (st.gets ()).pc = .clone b ∧ b ∈ st.world.freed := by
  refine ⟨_, 0, reaches_run 4096 _ [.put false, .put false, .put false, .put false, .get (),
    .put true, .put true, .put true, .put true, .put true], ?_, ?_⟩
  · decide +kernel
  · decide +kernel

end AxisBridge.GcIdx
