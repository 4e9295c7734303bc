import AxisBridge.Runtime.GpuMemo

/-! Discover lists every distinct miss once, where each size is settled before the next is
started. -/
namespace AxisBridge.Gpu
open List Function

variable {n h mask misscap : ℕ} {e e' : Engine} {size : Size} {s : Memory} {k : Key}

/-- Whenever discover has returned, every key that is asked for is in the table once, the groups
have those without an answer, each once and with its own slot, and settled, produce finds the
answers. -/
theorem discover_lists (hrun : Reaches EngineStep Careful (opened n) e) (hidle : e.misses = none)
    (hsize : e.size = some size) :
    Lists e size ∧ ∀ e', EngineStep .settle e e' → Finds e e' size := by
  have hinv := invariant_run hrun
  exact ⟨(hinv.idle hidle).lists size hsize, fun e' hstep => finds_settled hinv hsize hstep⟩

/-! ### A size of one combination -/

/-- The memory once a key is entered into a free slot and listed. -/
def enteredInto (s : Memory) (h : ℕ) (k : Key) : Memory :=
  ⟨⟨update s.miss s.nmiss (UInt32.ofNat h), update s.missk0 s.nmiss k.1,
    update s.missk1 s.nmiss k.2, (s.nmiss + 1) % 2 ^ 32⟩,
    update s.table h ⟨2, k.1, k.2, pending⟩, s.flag⟩

theorem table_enteredInto (s : Memory) (h : ℕ) (k : Key) :
    (enteredInto s h k).table = update s.table h ⟨2, k.1, k.2, pending⟩ := rfl

theorem shows_enteredInto (s : Memory) (h : ℕ) (k : Key) :
    Shows ((enteredInto s h k).table h) k := by
  rw [table_enteredInto, update_self]
  exact ⟨rfl, rfl, rfl⟩

variable {K : Kernel Memory DiscoverThread}

/-- A thread that comes to a free slot alone enters its key and lists it. -/
theorem alone_enters (hK : K.step = discoverStep mask misscap) (hst : (s.table h).st = 0)
    (hroom : s.nmiss < misscap) : K.Alone s ⟨k, .load h 0⟩ (enteredInto s h k) := by
  have hload : K.step s ⟨k, .load h 0⟩ = (s, some ⟨k, .claim h 0⟩) := by
    rw [hK]
    exact if_pos hst
  have hclaim : K.step s ⟨k, .claim h 0⟩ =
      ({ s with table := update s.table h { s.table h with st := 1 } },
        some ⟨k, .write h .key0⟩) := by
    rw [hK]
    exact if_pos hst
  refine .next hload (.next hclaim (.next (by rw [hK]; rfl) (.next (by rw [hK]; rfl)
    (.next (by rw [hK]; rfl) (.next (by rw [hK]; rfl) ?_)))))
  simp only [WritePc.step, update_self, update_idem, Option.elim]
  refine .next (by rw [hK]; rfl) ?_
  simp only [if_pos hroom]
  exact .next (by rw [hK]; rfl) (.next (by rw [hK]; rfl) (.last (by rw [hK]; rfl)))

/-- A thread that comes to the slot of its key alone leaves the memory as it is. -/
theorem alone_finds (hK : K.step = discoverStep mask misscap)
    (hs : Shows (s.table h) k) : K.Alone s ⟨k, .load h 0⟩ s := by
  obtain ⟨h2, h0, h1⟩ := hs
  have h20 : ¬ (s.table h).st = 0 := by omega
  have h21 : ¬ (s.table h).st = 1 := by omega
  have hload : K.step s ⟨k, .load h 0⟩ = (s, some ⟨k, .same0 h 0⟩) := by
    simp only [hK, discoverStep, if_neg h20, if_neg h21]
  have hsame0 : K.step s ⟨k, .same0 h 0⟩ = (s, some ⟨k, .same1 h 0⟩) := by
    simp only [hK, discoverStep, if_pos h0]
  have hsame1 : K.step s ⟨k, .same1 h 0⟩ = (s, none) := by
    simp only [hK, discoverStep, if_pos h1]
  exact .next hload (.next hsame0 (.last hsame1))

/-- A job of one combination. -/
def codeJob (code : UInt32) (start : ℤ) : SizeJob :=
  ⟨⟨code, 1, 1, 1, fun _ => 0, fun _ => 0, fun _ => 0⟩, start, 1⟩

/-- The key of the combination, and its first slot in the table of an engine that was just
opened. -/
def codeKey (code : UInt32) : Key := packKey code 0 noId noId

def codeSlot (code : UInt32) : ℕ := (mix (codeKey code)).toNat &&& (2 ^ 20 - 1)

def loneSize : Size := ⟨[codeJob 1 0], 1, fun _ => 0⟩

def loneKey : Key := codeKey 1

def loneSlot : ℕ := codeSlot 1

theorem asks_lone : loneSize.Asks 1 loneKey :=
  ⟨codeJob 1 0, mem_singleton_self _, 0, by decide, 0, Nat.one_pos, rfl⟩

/-- A job of one combination is one launch. -/
theorem launch_codeJob {size : Size} {job : SizeJob} (htries : size.tries job = 1) :
    ((chunks (max (chunk / 1) 1) (size.tries job) 0).map fun c =>
      (⟨job.toJob, c.1, c.2⟩ : JobLaunch)) = [⟨job.toJob, 0, 1⟩] := by
  have hper : 0 < max (chunk / 1) 1 := by decide
  have hmin : min (max (chunk / 1) 1) (1 - 0) = 1 := by decide
  rw [htries, chunks, if_pos ⟨Nat.one_pos, hper⟩, hmin, chunks, if_neg (by omega)]
  rfl

theorem loneSize_launches : loneSize.launches 1 = [⟨(codeJob 1 0).toJob, 0, 1⟩] := by
  rw [Size.launches, loneSize, flatMap_singleton]
  exact @launch_codeJob loneSize _ (by decide)

/-- A launch of one combination, by what its only thread does. -/
theorem Pass.code {code : UInt32} {start : ℤ} {cs : List JobLaunch} {s' s'' : Memory}
    (halone : (p5Discover (codeJob code start).toJob (fun _ => 0) 1 0 (2 ^ 20 - 1)
      (2 ^ 20 % 2 ^ 32)).Alone s ⟨codeKey code, .load (codeSlot code) 0⟩ s')
    (rest : Pass (fun _ => 0) 1 (2 ^ 20 - 1) (2 ^ 20 % 2 ^ 32) cs s' s'') :
    Pass (fun _ => 0) 1 (2 ^ 20 - 1) (2 ^ 20 % 2 ^ 32)
      (⟨(codeJob code start).toJob, 0, 1⟩ :: cs) s s'' :=
  .cons (Kernel.runs_one halone (threads_pos _)) rest

/-- A pass over the size, by what its only thread does. -/
theorem pass_lone {s' : Memory}
    (halone : (p5Discover (codeJob 1 0).toJob loneSize.bvec 1 0 (2 ^ 20 - 1)
      (2 ^ 20 % 2 ^ 32)).Alone s ⟨loneKey, .load loneSlot 0⟩ s') :
    Pass loneSize.bvec 1 (2 ^ 20 - 1) (2 ^ 20 % 2 ^ 32) (loneSize.launches 1) s s' := by
  rw [loneSize_launches]
  exact .code halone (.nil s')

/-- What the size is discovered with on an engine that was just opened. -/
def loneMemory : Memory :=
  enteredInto ⟨Misses.zeros, Table.zeros, Flag.clear⟩ loneSlot loneKey

/-- The engine once its first size is discovered. -/
def loneEngine : Engine :=
  { opened 1 with size := some loneSize, table := loneMemory.table, groups :=
    loneMemory.toMisses.groups }

/-- The first size of an engine is discovered by one pass that raises no flag. -/
theorem reaches_found
    (hpass : Pass size.bvec 1 (2 ^ 20 - 1) (2 ^ 20 % 2 ^ 32) (size.launches 1) ⟨Misses.zeros,
      Table.zeros, Flag.clear⟩ s) (hrerun : s.flag .rerun = false) (hfull : s.flag .full = false)
    (hoverflow : s.flag .overflow = false) :
    Reaches EngineStep Careful (opened 1)
      { opened 1 with size := some size, table := s.table, groups := s.toMisses.groups } := by
  have hsize : EngineStep .size (opened 1)
      { opened 1 with size := some size, misses := some Misses.zeros } :=
    .size rfl (Nat.zero_le _)
  have hfound : EngineStep .pass { opened 1 with size := some size, misses := some Misses.zeros }
      { opened 1 with size := some size, table := s.table, groups := s.toMisses.groups } :=
    .found rfl rfl hpass hrerun hfull hoverflow
  have hidle : Careful (opened 1) .size := rfl
  have hsmall : Careful { opened 1 with size := some size, misses := some Misses.zeros } .pass :=
    .inl (show 2 ^ 20 < 2 ^ 32 by decide)
  exact (Reaches.of_step hidle hsize).next hsmall hfound

theorem reaches_lone : Reaches EngineStep Careful (opened 1) loneEngine :=
  reaches_found (pass_lone (alone_enters rfl rfl (by decide))) rfl rfl rfl

/-- Three combinations: the second adds a key to that of the first, the third shares it. -/
def threeSize : Size := ⟨[codeJob 1 0, codeJob 2 1, codeJob 1 2], 3, fun _ => 0⟩

theorem threeSize_launches : threeSize.launches 1 =
    [⟨(codeJob 1 0).toJob, 0, 1⟩, ⟨(codeJob 2 1).toJob, 0, 1⟩, ⟨(codeJob 1 2).toJob, 0, 1⟩] := by
  rw [Size.launches, threeSize, flatMap_cons, flatMap_cons, flatMap_singleton]
  have hfirst := @launch_codeJob threeSize (codeJob 1 0) (by decide)
  have hsecond := @launch_codeJob threeSize (codeJob 2 1) (by decide)
  have hthird := @launch_codeJob threeSize (codeJob 1 2) (by decide)
  rw [threeSize] at hfirst hsecond hthird
  rw [hfirst, hsecond, hthird]
  rfl

def threeMemory : Memory := enteredInto loneMemory (codeSlot 2) (codeKey 2)

theorem pass_three : Pass threeSize.bvec 1 (2 ^ 20 - 1) (2 ^ 20 % 2 ^ 32) (threeSize.launches 1)
    ⟨Misses.zeros, Table.zeros, Flag.clear⟩ threeMemory := by
  rw [threeSize_launches]
  have hslots : codeSlot 2 ≠ loneSlot := by decide
  have hfree : (loneMemory.table (codeSlot 2)).st = 0 := by
    rw [loneMemory, table_enteredInto, update_of_ne hslots]
    rfl
  have hshows : Shows (threeMemory.table (codeSlot 1)) (codeKey 1) := by
    rw [threeMemory, table_enteredInto, ← loneSlot, update_of_ne hslots.symm]
    exact shows_enteredInto _ _ _
  exact .code (alone_enters rfl rfl (by decide)) (.code (alone_enters rfl hfree (by decide))
    (.code (alone_finds rfl hshows) (.nil _)))

/-- A size whose combinations share a key and add one is discovered: both keys are listed. -/
theorem discover_lists_three :
    ∃ e, Reaches EngineStep Careful (opened 1) e ∧ e.misses = none ∧ e.size = some threeSize ∧
      codeKey 1 ∈ e.missing.map Prod.fst ∧ codeKey 2 ∈ e.missing.map Prod.fst ∧ Lists e threeSize ∧
      ∀ e', EngineStep .settle e e' → Finds e e' threeSize := by
  have hrun := reaches_found pass_three rfl rfl rfl
  obtain ⟨hlists, hfinds⟩ := discover_lists hrun rfl rfl
  refine ⟨_, hrun, rfl, rfl, (hlists.missing _).mpr ⟨?_, not_mem_nil⟩,
    (hlists.missing _).mpr ⟨?_, not_mem_nil⟩, hlists, hfinds⟩
  · exact ⟨codeJob 1 0, mem_cons_self, 0, by decide, 0, Nat.one_pos, rfl⟩
  · exact ⟨codeJob 2 1, mem_cons_of_mem _ mem_cons_self, 0, by decide, 0, Nat.one_pos, rfl⟩

/-- A size that is started again before it is settled: its key has no answer and is not listed. -/
theorem discover_skips_pending : ∃ e, Reaches EngineStep anyAction (opened 1) e ∧ e.misses = none ∧
    e.size = some loneSize ∧ loneSize.Asks e.n loneKey ∧ ¬ e.Answered loneKey ∧
    loneKey ∉ e.missing.map Prod.fst := by
  have hshows : Shows (loneMemory.table loneSlot) loneKey := shows_enteredInto _ _ _
  have hpass : Pass loneSize.bvec 1 (2 ^ 20 - 1) (2 ^ 20 % 2 ^ 32) (loneSize.launches 1)
      ⟨Misses.zeros, loneMemory.table, Flag.clear⟩ ⟨Misses.zeros, loneMemory.table, Flag.clear⟩ :=
    pass_lone (alone_finds rfl hshows)
  have hfirst : Reaches EngineStep anyAction (opened 1) loneEngine :=
    reaches_lone.mono fun _ => trivial
  have hsize : EngineStep .size loneEngine
      { loneEngine with size := some loneSize, misses := some Misses.zeros } :=
    .size rfl (Nat.zero_le _)
  have hfound : EngineStep .pass
      { loneEngine with size := some loneSize, misses := some Misses.zeros }
      { loneEngine with size := some loneSize, misses := none, groups := Misses.zeros.groups } :=
    .found (s := ⟨Misses.zeros, loneMemory.table, Flag.clear⟩) rfl rfl hpass rfl rfl rfl
  have hnone : Misses.zeros.groups = [] := by
    rw [Misses.groups, Misses.list, Misses.zeros, range_zero, map_nil, mergeSort_nil]
    rfl
  refine ⟨_, (hfirst.next trivial hsize).next trivial hfound, rfl, rfl, asks_lone, ?_, ?_⟩
  · exact not_mem_nil
  · show loneKey ∉ (Misses.zeros.groups.flatMap Group.entries).map Prod.fst
    rw [hnone]
    exact not_mem_nil

end AxisBridge.Gpu
