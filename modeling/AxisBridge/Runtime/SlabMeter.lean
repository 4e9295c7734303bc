import AxisBridge.Runtime.Lines
import AxisBridge.Runtime.SlabBlock

/-! The fsync meter of a slab: the counters of its statistics against the syncs that its calls
made. -/
namespace AxisBridge
open List Option

/-- The counters of a slab under the names they are reported by. -/
def Slab.counters (s : Slab) : List (String × ℤ) :=
  [("appends", s.appends), ("data_fsyncs", s.dataFsyncs), ("dir_fsyncs", s.dirFsyncs),
    ("sweeps", s.sweeps), ("gated", s.gatedTicks), ("sealed", s.sealed.length),
    ("active_seq", (s.active.map SlabBlock.seq).getD (-1)),
    ("active_len", (s.active.map SlabBlock.len).getD 0),
    ("active_unflushed", (s.active.map SlabBlock.unflushed).getD 0), ("sla_us", s.slaUs)]

/-- `slab_stats`: one line, the counters apart by tabs. -/
def slabStats (s : Slab) : String :=
  (String.singleton '\t').intercalate (s.counters.map fun c => c.1 ++ "=" ++ toString c.2)

/-- The value under a name in the line of the statistics. -/
def statField (line key : String) : Option String :=
  (split '\t' line).findSome? (stripPrefix (key ++ "="))

/-- The syncs of block data among the operations. -/
def dataSyncs (ops : List FileOp) : ℕ := ops.countP fun op => op matches .sync _

/-- The syncs of directories. -/
def dirSyncs (ops : List FileOp) : ℕ := ops.countP fun op => op matches .syncDir _

inductive SlabCall
  | append (bytes : Bytes)
  | appendRaw (mem : ℤ → UInt8) (ptr off len : ℤ)
  | tick (now : ℕ)
  | close

open SlabCall

section
variable [Sha256]

/-- A call on the slab, with what it does to the disk. -/
def SlabCall.perform (s : Slab) : SlabCall → Option (Slab × List FileOp)
  | .append bytes => (slabAppend s bytes).map fun r => (r.1, r.2.2)
  | .appendRaw mem ptr off len => (slabAppendRaw s mem ptr off len).map fun r => (r.1, r.2.2)
  | .tick now => (slabTick now s).map fun r => (r.1, r.2.2)
  | .close => (slabSeal s).map fun r => (r.1, r.2.2)

/-- Calls one after the other. -/
def Slab.perform (s : Slab) : List SlabCall → Option (Slab × List FileOp)
  | [] => some (s, [])
  | c :: cs => do
    let r ← c.perform s
    let later ← r.1.perform cs
    some (later.1, r.2 ++ later.2)

end

/-- The statistics report as many syncs of data and of directories as there were. -/
def MeterExact (s : Slab) (ops : List FileOp) : Prop :=
  statField (slabStats s) "data_fsyncs" = some (toString (dataSyncs ops : ℤ)) ∧
    statField (slabStats s) "dir_fsyncs" = some (toString (dirSyncs ops : ℤ))

/-- A tick within the period of the tier. -/
def Slab.gated (s : Slab) (now : ℕ) : Bool :=
  match s.lastSweep with
  | some last => (((now - last) / 1000 : ℕ) : ℤ) < s.slaUs
  | none => false

/-- The call finds no full block to seal, or it is the end of the stream, with one full block and no
bytes in the active one. -/
def SlabCall.Counted (s : Slab) : SlabCall → Prop
  | .append _ | .appendRaw .. => True
  | .tick now => s.gated now = true ∨ s.fullPending = []
  | .close => s.fullPending = [] ∨ (s.fullPending.length = 1 ∧ ∀ a ∈ s.active, a.len = 0)

/-- Every one of the calls is counted in the state before it. -/
def SealsCounted [Sha256] (s : Slab) : List SlabCall → Prop
  | [] => True
  | c :: cs => c.Counted s ∧ ∀ s' ops, c.perform s = some (s', ops) → SealsCounted s' cs

/-! ### The line of the statistics -/

section
variable {s : Slab} {key name v : String} {n : ℤ}

theorem tab_not_mem_int (n : ℤ) : '\t' ∉ (toString n).toList := by
  intro hmem
  rcases isDigit_int hmem with h | h
  · cases h
  · cases h

/-- Names without an equals sign are told apart by the text in front of the first one. -/
theorem stripPrefix_named (hkey : '=' ∉ key.toList) (hname : '=' ∉ name.toList) :
    stripPrefix (key ++ "=") (name ++ "=" ++ v) = if name = key then some v else none := by
  split
  · next he =>
    rw [he]
    exact stripPrefix_append
  · next hne =>
    rw [stripPrefix, if_neg]
    intro hprefix
    have hbefore : ∀ {w : String} {cs : List Char}, '=' ∉ w.toList →
        (w.toList ++ '=' :: cs).takeWhile (· ≠ '=') = w.toList := by
      intro w cs hw
      have hall : ∀ c ∈ w.toList, decide (c ≠ '=') = true := by
        intro c hc
        refine decide_eq_true ?_
        rintro rfl
        exact hw hc
      rw [takeWhile_append_of_pos hall]
      simp
    obtain ⟨cs, hcs⟩ := hprefix
    have hlist : key.toList ++ '=' :: cs = name.toList ++ '=' :: v.toList := by simpa using hcs
    have hword := congrArg (List.takeWhile (· ≠ '=')) hlist
    rw [hbefore hkey, hbefore hname] at hword
    exact hne (String.toList_inj.mp hword.symm)

theorem counters_names (s : Slab) : ∀ c ∈ s.counters, '=' ∉ c.1.toList ∧ '\t' ∉ c.1.toList := by
  simp [Slab.counters]

/-- A name of the line has the counter's value. -/
theorem statField_slabStats (hkey : '=' ∉ key.toList) :
    statField (slabStats s) key = (s.counters.lookup key).map toString := by
  have hne : s.counters.map (fun c => c.1 ++ "=" ++ toString c.2) ≠ [] := cons_ne_nil _ _
  have htabs : ∀ p ∈ s.counters.map (fun c => c.1 ++ "=" ++ toString c.2), '\t' ∉ p.toList := by
    intro p hp
    obtain ⟨c, hc, rfl⟩ := mem_map.mp hp
    simpa using ⟨(counters_names s c hc).2, tab_not_mem_int c.2⟩
  rw [statField, slabStats, split_intercalate hne htabs, findSome?_map]
  have hnames := counters_names s
  generalize s.counters = counters at hnames
  induction counters with
  | nil => rfl
  | cons c counters ih =>
    rw [findSome?_cons, lookup_cons, Function.comp_apply,
      stripPrefix_named hkey (hnames c mem_cons_self).1,
      ih fun c hc => hnames c (mem_cons_of_mem _ hc)]
    by_cases he : c.1 = key
    · simp [he]
    · have hbeq : (key == c.1) = false := beq_eq_false_iff_ne.mpr (Ne.symm he)
      simp [he, hbeq]

theorem meterExact_iff {ops : List FileOp} :
    MeterExact s ops ↔ s.dataFsyncs = dataSyncs ops ∧ s.dirFsyncs = dirSyncs ops := by
  have hcounter : ∀ {n m : ℤ}, some (toString n) = some (toString m) ↔ n = m :=
    fun {n m} => ⟨fun h => int_toString_inj (some.inj h), fun h => h ▸ rfl⟩
  rw [MeterExact, statField_slabStats (by decide), statField_slabStats (by decide)]
  exact and_congr hcounter hcounter

end

/-! ### What the counters miss -/

/-- The seals of a call whose directory syncs are not counted: those of the full blocks, but that of
the last one where the end of the stream has nothing more to seal. -/
def SlabCall.missed (s : Slab) : SlabCall → ℕ
  | .append _ | .appendRaw .. => 0
  | .tick now => if s.gated now then 0 else s.fullPending.length
  | .close => if ∀ a ∈ s.active, a.len = 0 then s.fullPending.length - 1 else s.fullPending.length

section
variable {s s' : Slab} {b : SlabBlock} {ops ops' : List FileOp} {x y x' y' n : ℤ} {text : String}

@[simp] theorem dataSyncs_append : dataSyncs (ops ++ ops') = dataSyncs ops + dataSyncs ops' :=
  countP_append

@[simp] theorem dirSyncs_append : dirSyncs (ops ++ ops') = dirSyncs ops + dirSyncs ops' :=
  countP_append

theorem fsyncDirty_counts (b : SlabBlock) (x y : ℤ) :
    (fsyncDirty b x y).dataFsyncs = x + dataSyncs (fsyncDirty b x y).ops ∧
      (fsyncDirty b x y).dirFsyncs = y + dirSyncs (fsyncDirty b x y).ops := by
  unfold fsyncDirty fsyncBlock
  split
  · split
    · exact ⟨rfl, (add_zero y).symm⟩
    · exact ⟨rfl, rfl⟩
  · exact ⟨(add_zero x).symm, (add_zero y).symm⟩

/-- An append syncs nothing. -/
theorem slabAppend_counts {bytes : Bytes} (h : slabAppend s bytes = some (s', n, ops)) :
    s'.dataFsyncs = s.dataFsyncs ∧ s'.dirFsyncs = s.dirFsyncs ∧ dataSyncs ops = 0 ∧
      dirSyncs ops = 0 := by
  rcases slabAppend_cases h with ⟨a, -, -, h⟩ | ⟨-, -, h⟩
  · cases h
    exact ⟨rfl, rfl, rfl, rfl⟩
  · cases h
    exact ⟨rfl, rfl, rfl, rfl⟩

/-- A call misses nothing when it is counted. -/
theorem missed_eq_zero_iff {c : SlabCall} : c.missed s = 0 ↔ c.Counted s := by
  cases c with
  | append bytes | appendRaw mem ptr off len => exact iff_of_true rfl trivial
  | tick now =>
    rw [missed, Counted]
    by_cases hgated : s.gated now = true
    · simp [hgated]
    · simp [hgated]
  | close =>
    rw [missed, Counted]
    by_cases hempty : ∀ a ∈ s.active, a.len = 0
    · rw [if_pos hempty, ← length_eq_zero_iff]
      constructor
      · intro hlen
        rcases Nat.eq_zero_or_pos s.fullPending.length with h0 | hpos
        · exact .inl h0
        · exact .inr ⟨by omega, hempty⟩
      · rintro (h0 | ⟨h1, -⟩)
        · omega
        · omega
    · rw [if_neg hempty, length_eq_zero_iff]
      exact ⟨.inl, fun h => h.elim id fun h => absurd h.2 hempty⟩

variable [Sha256]

theorem sealBlock_counts (h : sealBlock s b = some (s', text, ops)) :
    s'.dataFsyncs = s.dataFsyncs ∧ s'.dirFsyncs = s.dirFsyncs + 1 ∧ s'.active = s.active ∧
      dataSyncs ops = 0 ∧ dirSyncs ops = 1 := by
  unfold sealBlock at h
  split at h
  · cases h
  · cases h
    exact ⟨rfl, rfl, rfl, rfl, rfl⟩

/-- The two counters the loop carries get every sync but those of the seals; the slab's own get the
last seal on top. -/
theorem drainPending_counts {pending : List SlabBlock}
    (h : drainPending s x y pending = some (s', x', y', ops)) :
    x' = x + dataSyncs ops ∧ y' + pending.length = y + dirSyncs ops ∧ s'.active = s.active ∧
      (pending ≠ [] → s'.dataFsyncs = x' ∧ s'.dirFsyncs = y' + 1) ∧
      (pending = [] → s' = s ∧ ops = []) := by
  induction pending generalizing s x y ops with
  | nil =>
    cases h
    exact ⟨(add_zero _).symm, rfl, rfl, fun hne => absurd rfl hne, fun _ => ⟨rfl, rfl⟩⟩
  | cons b pending ih =>
    simp only [drainPending, bind_eq_bind, bind_eq_some_iff, some.injEq,
      Prod.exists, Prod.mk.injEq] at h
    obtain ⟨s₁, text, sealOps, hseal, s₂, x₂, y₂, laterOps, hlater, rfl, rfl, rfl, rfl⟩ := h
    obtain ⟨hdata, hdir, hactive, hnone, hone⟩ := sealBlock_counts hseal
    obtain ⟨hx, hy, hactive', hsome, hnil⟩ := ih hlater
    obtain ⟨hflushx, hflushy⟩ := fsyncDirty_counts b x y
    refine ⟨?_, ?_, hactive'.trans hactive, fun _ => ?_, fun hne => absurd hne (cons_ne_nil _ _)⟩
    · simp only [dataSyncs_append]
      omega
    · simp only [dirSyncs_append, length_cons]
      omega
    · cases pending with
      | nil =>
        cases hlater
        exact ⟨hdata, hdir⟩
      | cons c pending => exact hsome (cons_ne_nil _ _)

/-- A sweep misses every seal. -/
theorem sweep_counts (h : sweep s = some (s', n, ops)) :
    s'.dataFsyncs = s.dataFsyncs + dataSyncs ops ∧
      s'.dirFsyncs + s.fullPending.length = s.dirFsyncs + dirSyncs ops := by
  simp only [sweep, bind_eq_bind, bind_eq_some_iff, Prod.exists] at h
  obtain ⟨drained, data, dirs, drainOps, hdrain, h⟩ := h
  obtain ⟨hdata, hdirs, -, -, -⟩ := drainPending_counts hdrain
  cases hactive : drained.active with
  | none =>
    rw [hactive] at h
    cases h
    exact ⟨hdata, hdirs⟩
  | some a =>
    rw [hactive] at h
    cases h
    obtain ⟨hflushx, hflushy⟩ := fsyncDirty_counts a data dirs
    refine ⟨?_, ?_⟩
    · simp only [dataSyncs_append] at hdata ⊢
      omega
    · simp only [dirSyncs_append] at hdirs ⊢
      omega

theorem slabTick_counts {now : ℕ} (h : slabTick now s = some (s', n, ops)) :
    s'.dataFsyncs = s.dataFsyncs + dataSyncs ops ∧
      s'.dirFsyncs + (tick now).missed s = s.dirFsyncs + dirSyncs ops := by
  have htick : slabTick now s =
      if s.gated now then some ({ s with gatedTicks := s.gatedTicks + 1 }, -1, [])
      else sweep { s with lastSweep := some now } := rfl
  rw [htick] at h
  rw [missed]
  split at h
  · next hgated =>
    cases h
    rw [if_pos hgated]
    exact ⟨(add_zero _).symm, rfl⟩
  · next hfires =>
    have hsweep := sweep_counts h
    rw [if_neg hfires]
    exact hsweep

theorem slabSeal_counts (h : slabSeal s = some (s', text, ops)) :
    s'.dataFsyncs = s.dataFsyncs + dataSyncs ops ∧
      s'.dirFsyncs + close.missed s = s.dirFsyncs + dirSyncs ops := by
  simp only [slabSeal, bind_eq_bind, bind_eq_some_iff, Prod.exists] at h
  obtain ⟨drained, data, dirs, drainOps, hdrain, h⟩ := h
  obtain ⟨hdata, hdirs, hactive, hsome, hnil⟩ := drainPending_counts hdrain
  -- where nothing more is sealed, the last of the full blocks stays counted
  have hlast : drained.dataFsyncs = s.dataFsyncs + dataSyncs drainOps ∧
      drained.dirFsyncs + (s.fullPending.length - 1 : ℕ) = s.dirFsyncs + dirSyncs drainOps := by
    cases hpending : s.fullPending with
    | nil =>
      obtain ⟨rfl, rfl⟩ := hnil hpending
      exact ⟨(add_zero _).symm, rfl⟩
    | cons b pending =>
      obtain ⟨hdata', hdirs'⟩ := hsome (by rw [hpending]; exact cons_ne_nil _ _)
      rw [hpending] at hdirs
      simp only [length_cons] at hdirs ⊢
      omega
  rw [missed]
  simp only at hactive
  cases ha : drained.active with
  | none =>
    rw [ha] at h hactive
    cases h
    have hempty : ∀ b ∈ s.active, b.len = 0 := by
      rw [← hactive]
      intro b hb
      cases hb
    rw [if_pos hempty]
    exact hlast
  | some a =>
    rw [ha] at h hactive
    by_cases hlen : a.len = 0
    · simp only [if_pos hlen] at h
      cases h
      have hempty : ∀ b ∈ s.active, b.len = 0 := by
        rw [← hactive]
        intro b hb
        cases hb
        exact hlen
      rw [if_pos hempty]
      exact hlast
    · simp only [if_neg hlen, bind_eq_some_iff, Prod.exists, some.injEq] at h
      obtain ⟨s₁, hash, sealOps, hseal, h⟩ := h
      cases h
      obtain ⟨hdata', hdirs', -, hnone, hone⟩ := sealBlock_counts hseal
      obtain ⟨hflushx, hflushy⟩ := fsyncDirty_counts a data dirs
      have hnonempty : ¬ ∀ b ∈ s.active, b.len = 0 := fun hall => hlen (hall a hactive.symm)
      rw [if_neg hnonempty]
      simp only [dataSyncs_append, dirSyncs_append] at hdata' hdirs' ⊢
      omega

/-- What a call adds to the counters, and what they miss of it. -/
theorem perform_counts {c : SlabCall} (h : c.perform s = some (s', ops)) :
    s'.dataFsyncs = s.dataFsyncs + dataSyncs ops ∧
      s'.dirFsyncs + c.missed s = s.dirFsyncs + dirSyncs ops := by
  cases c with
  | append bytes =>
    obtain ⟨⟨s₁, res, ops₁⟩, hr, h⟩ := map_eq_some_iff.mp h
    cases h
    obtain ⟨hdata, hdirs, hnone, hnodirs⟩ := slabAppend_counts hr
    simp only [missed]
    omega
  | appendRaw mem ptr off len =>
    obtain ⟨⟨s₁, res, ops₁⟩, hr, h⟩ := map_eq_some_iff.mp h
    cases h
    unfold slabAppendRaw at hr
    split at hr
    · cases hr
    · obtain ⟨bytes, -, hr⟩ := bind_eq_some_iff.mp hr
      obtain ⟨hdata, hdirs, hnone, hnodirs⟩ := slabAppend_counts hr
      simp only [missed]
      omega
  | tick now =>
    obtain ⟨⟨s₁, res, ops₁⟩, hr, h⟩ := map_eq_some_iff.mp h
    cases h
    exact slabTick_counts hr
  | close =>
    obtain ⟨⟨s₁, res, ops₁⟩, hr, h⟩ := map_eq_some_iff.mp h
    cases h
    exact slabSeal_counts hr

/-- Over the calls the data syncs are counted, and the directory syncs are all counted when every
call is. -/
theorem perform_run_counts {cs : List SlabCall} (h : s.perform cs = some (s', ops)) :
    s'.dataFsyncs = s.dataFsyncs + dataSyncs ops ∧ s'.dirFsyncs ≤ s.dirFsyncs + dirSyncs ops ∧
      (s'.dirFsyncs = s.dirFsyncs + dirSyncs ops ↔ SealsCounted s cs) := by
  induction cs generalizing s ops with
  | nil =>
    cases h
    exact ⟨(add_zero _).symm, le_of_eq (add_zero _).symm, iff_of_true (add_zero _).symm trivial⟩
  | cons c cs ih =>
    simp only [Slab.perform, bind_eq_bind, bind_eq_some_iff, Prod.exists,
      some.injEq, Prod.mk.injEq] at h
    obtain ⟨s₁, callOps, hcall, s₂, laterOps, hlater, rfl, rfl⟩ := h
    obtain ⟨hdata, hdirs⟩ := perform_counts hcall
    obtain ⟨hdata', hle, hiff⟩ := ih hlater
    have hfirst : SealsCounted s (c :: cs) ↔ c.missed s = 0 ∧ SealsCounted s₁ cs := by
      rw [SealsCounted, missed_eq_zero_iff]
      refine and_congr_right fun _ => ⟨fun h => h s₁ callOps hcall, fun h s₁' ops' hcall' => ?_⟩
      cases hcall.symm.trans hcall'
      exact h
    rw [hfirst, ← hiff]
    simp only [dataSyncs_append, dirSyncs_append]
    omega

/-- From the opening of a slab on, its statistics report the syncs that its calls made just when no
sweep seals a full block and the end of the stream seals none with another block behind it. -/
theorem slab_meter_exact_iff {d : Volume} {dir : String} {slaUs blockBytes : ℤ}
    {cs : List SlabCall} (hopen : slabOpen d dir slaUs blockBytes = some s)
    (hrun : s.perform cs = some (s', ops)) : MeterExact s' ops ↔ SealsCounted s cs := by
  have hzero : s.dataFsyncs = 0 ∧ s.dirFsyncs = 0 := by
    unfold slabOpen at hopen
    split at hopen
    · cases hopen
    · obtain ⟨next, -, hopen⟩ := bind_eq_some_iff.mp hopen
      cases hopen
      exact ⟨rfl, rfl⟩
  obtain ⟨hdata, -, hiff⟩ := perform_run_counts hrun
  rw [hzero.1, zero_add] at hdata
  rw [hzero.2, zero_add] at hiff
  rw [meterExact_iff, ← hiff]
  exact and_iff_right hdata

end

attribute [local instance] textDigests

/-- A slab in blocks of four bytes, as it is opened. -/
def smallSlab : Slab := ⟨"d", 1, 4, 0, none, [], [], none, 0, 0, 0, 0, 0⟩

theorem slabOpen_small : slabOpen Disk.empty "d" 1 4 = some smallSlab := rfl

/-- One record, written on a tick: nothing is missed. -/
theorem slab_meter_exact_one : ∃ s ops, smallSlab.perform [.append [97], .tick 0] = some (s, ops) ∧
    MeterExact s ops := by
  have hrun : smallSlab.perform [.append [97], .tick 0] = some (_, _) := rfl
  refine ⟨_, _, hrun, (slab_meter_exact_iff slabOpen_small hrun).mpr ⟨trivial, ?_⟩⟩
  intro s₁ ops₁ h₁
  cases h₁
  exact ⟨.inr rfl, fun _ _ _ => trivial⟩

/-- A second record that needs a new block: the tick makes three directory syncs and reports two. -/
theorem slab_meter_misses_seal : slabOpen Disk.empty "d" 1 4 = some smallSlab ∧ ∃ s ops,
    smallSlab.perform [.append [97, 98], .append [99, 99, 99], .tick 0] = some (s, ops) ∧
    statField (slabStats s) "dir_fsyncs" = some "2" ∧ dirSyncs ops = 3 ∧ ¬ MeterExact s ops := by
  have hrun : smallSlab.perform [.append [97, 98], .append [99, 99, 99], .tick 0] = some (_, _) :=
    rfl
  refine ⟨slabOpen_small, _, _, hrun, ?_, rfl, ?_⟩
  · rw [statField_slabStats (by decide)]
    rfl
  · rw [meterExact_iff]
    exact fun h => absurd h.2 (by decide)

end AxisBridge
