import AxisBridge.Lib.Reach
import AxisBridge.Runtime.Text

/-! The content index: shards that evict their oldest entry, next to the frames of the recovery log
that are not yet durable. -/
namespace AxisBridge.ContentIdx
open List Function

def NSHARDS : ℕ := 256

def CAP_DEFAULT : ℕ := 65536

/-- `total_cap`, from the value of `$AXVERITY_CONTENTIDX_CAP`. -/
def totalCap (var : Option String) : ℕ :=
  ((var.bind fun s => parseUsize (trim s)).filter (NSHARDS ≤ ·)).getD CAP_DEFAULT

def perShardCap (var : Option String) : ℕ := max (totalCap var / NSHARDS) 1

/-- FNV-1a of the hash's text, by its low bits. -/
def shard (key : String) : Fin NSHARDS :=
  ⟨((textBytes key).foldl (fun h b => (h ^^^ b.toUInt64) * 0x100000001b3)
    (0xcbf29ce484222325 : UInt64)).toNat % NSHARDS, Nat.mod_lt _ (by decide)⟩

structure Shard where
  map : String → Option Bytes
  fifo : List String

/-- The loop that drops the oldest key while the queue is at the cap. -/
def evict (cap : ℕ) (map : String → Option Bytes) : List String → Shard
  | [] => ⟨map, []⟩
  | old :: fifo =>
    if (old :: fifo).length ≥ cap then evict cap (update map old none) fifo
    else ⟨map, old :: fifo⟩

/-- `contentidx_put` on the shard of the hash. -/
def Shard.put (cap : ℕ) (g : Shard) (hash : String) (bytes : Bytes) : Shard :=
  if (g.map hash).isSome then g
  else
    let g := evict cap g.map g.fifo
    ⟨update g.map hash (some bytes), g.fifo ++ [hash]⟩

def Shard.get (g : Shard) (hash : String) : Bytes := (g.map hash).getD []

/-- A put of the recovery log's content: the hash and the record's bytes. -/
abbrev Put := String × Bytes

/-- The puts that insert, newest first: those of a hash that is not among the last `cap` of them. -/
def insertions (cap : ℕ) (puts : List Put) : List Put :=
  puts.foldl (fun ins p => if p.1 ∈ (ins.map Prod.fst).take cap then ins else p :: ins) []

/-- How many insertions came after the last one of the hash. -/
def age (cap : ℕ) (puts : List Put) (hash : String) : ℕ :=
  ((insertions cap puts).map Prod.fst).idxOf hash

/-- The shard holds the newest insertions, its queue the oldest of them first. -/
structure Shard.Holds (cap : ℕ) (ins : List Put) (g : Shard) : Prop where
  fifo : g.fifo = ((ins.map Prod.fst).take cap).reverse
  nodup : ((ins.map Prod.fst).take cap).Nodup
  map : ∀ k v, g.map k = some v ↔ (k, v) ∈ ins.take cap

section
variable {cap : ℕ} {ins : List Put} {g : Shard} {hash : String} {bytes : Bytes}

theorem insertions_concat (puts : List Put) (p : Put) :
    insertions cap (puts ++ [p]) =
      if p.1 ∈ ((insertions cap puts).map Prod.fst).take cap then insertions cap puts
      else p :: insertions cap puts := by
  rw [insertions, foldl_append]
  rfl

theorem Shard.Holds.mem_fifo (h : g.Holds cap ins) :
    hash ∈ g.fifo ↔ hash ∈ (ins.map Prod.fst).take cap := by
  rw [h.fifo, mem_reverse]

theorem mem_keys_iff {n : ℕ} : hash ∈ (ins.map Prod.fst).take n ↔ ∃ v, (hash, v) ∈ ins.take n := by
  simp [← map_take]

theorem Shard.Holds.isSome (h : g.Holds cap ins) :
    (g.map hash).isSome = true ↔ hash ∈ (ins.map Prod.fst).take cap := by
  simp only [Option.isSome_iff_exists, h.map, mem_keys_iff]

theorem Shard.Holds.length_le (h : g.Holds cap ins) : g.fifo.length ≤ cap := by
  simp [h.fifo]

variable {map : String → Option Bytes} {fifo : List String}

/-- With the queue at the cap the oldest entry goes, and only it. -/
theorem evict_full {c : ℕ} {old : String}
    (h : fifo.length = c) : evict (c + 1) map (old :: fifo) = ⟨update map old none, fifo⟩ := by
  cases fifo with
  | nil => simp_all [evict]
  | cons k fifo => simp_all [evict]

theorem evict_room (h : fifo.length < cap) : evict cap map fifo = ⟨map, fifo⟩ := by
  cases fifo with
  | nil => rfl
  | cons old fifo => rw [evict, if_neg (Nat.not_le.mpr h)]

/-- The eviction makes room for one insertion. -/
theorem Shard.Holds.evict {c : ℕ} (h : g.Holds (c + 1) ins) :
    (ContentIdx.evict (c + 1) g.map g.fifo).Holds c ins := by
  rcases lt_or_ge c ins.length with hlt | hlen
  · obtain ⟨p, hpairs⟩ : ∃ p, ins.take (c + 1) = ins.take c ++ [p] :=
      ⟨_, take_succ_eq_append_getElem hlt⟩
    have hkeys : (ins.map Prod.fst).take (c + 1) = (ins.map Prod.fst).take c ++ [p.1] := by
      simp [← map_take, hpairs]
    have hfifo : g.fifo = p.1 :: ((ins.map Prod.fst).take c).reverse := by
      rw [h.fifo, hkeys]
      simp
    have hnodup := h.nodup
    rw [hkeys, nodup_append] at hnodup
    obtain ⟨hnodup, -, hout⟩ := hnodup
    rw [hfifo, evict_full (by simp; omega)]
    refine ⟨rfl, hnodup, fun k v => ?_⟩
    by_cases hk : k = p.1
    · have hnot : (k, v) ∉ ins.take c := by
        intro hmem
        exact hout _ (mem_keys_iff.mpr ⟨v, hmem⟩) _ (mem_singleton.mpr rfl) hk
      subst hk
      simp [hnot]
    · have hne : (k, v) ≠ p := fun he => hk (congrArg Prod.fst he)
      simp [hk, h.map, hpairs, hne]
  · have hroom : g.fifo.length < c + 1 := by
      simp only [h.fifo, length_reverse, length_take, length_map]
      omega
    have hkeys : (ins.map Prod.fst).take (c + 1) = (ins.map Prod.fst).take c := by
      rw [take_of_length_le (by simp; omega), take_of_length_le (by simpa using hlen)]
    have hpairs : ins.take (c + 1) = ins.take c := by
      rw [take_of_length_le (by omega), take_of_length_le hlen]
    rw [evict_room hroom]
    exact ⟨hkeys ▸ h.fifo, hkeys ▸ h.nodup, fun k v => hpairs ▸ h.map k v⟩

/-- A put inserts what `insertions` says it does. -/
theorem Shard.Holds.put (hcap : 0 < cap) (h : g.Holds cap ins) :
    (g.put cap hash bytes).Holds cap
      (if hash ∈ (ins.map Prod.fst).take cap then ins else (hash, bytes) :: ins) := by
  obtain ⟨c, rfl⟩ := Nat.exists_eq_succ_of_ne_zero hcap.ne'
  rw [Shard.put]
  by_cases hmem : hash ∈ (ins.map Prod.fst).take (c + 1)
  · rw [if_pos (h.isSome.mpr hmem), if_pos hmem]
    exact h
  · rw [if_neg (fun hs => hmem (h.isSome.mp hs)), if_neg hmem]
    have hroom := h.evict
    have hout : hash ∉ (ins.map Prod.fst).take c :=
      fun hin => hmem (take_subset_take_left _ (Nat.le_succ c) hin)
    refine ⟨?_, ?_, fun k v => ?_⟩
    · simp [hroom.fifo]
    · simpa using ⟨hout, hroom.nodup⟩
    · by_cases hk : k = hash
      · have hnot : (hash, v) ∉ ins.take c := fun hin => hout (mem_keys_iff.mpr ⟨v, hin⟩)
        simp [hk, hnot, eq_comm]
      · simp [hk, hroom.map]

/-- A hash is held as long as fewer than `cap` insertions came after its own. -/
theorem Shard.Holds.isSome_iff_age {puts : List Put} (h : g.Holds cap (insertions cap puts))
    (hput : hash ∈ (insertions cap puts).map Prod.fst) :
    (g.map hash).isSome = true ↔ age cap puts hash < cap := by
  rw [h.isSome, mem_take_iff_idxOf_lt hput, age]

end

/-- The values of the index's variable, and the capacity and the batch size of the log's channel. -/
structure LogConfig where
  contentidxCap : Option String
  reclogCap : ℕ
  reclogBatch : ℕ

def LogConfig.cap (cfg : LogConfig) : ℕ := perShardCap cfg.contentidxCap

theorem LogConfig.cap_pos (cfg : LogConfig) : 0 < cfg.cap :=
  lt_of_lt_of_le Nat.one_pos (le_max_right ..)

/-- The shards, every put so far, the hashes of the frames not yet durable, oldest first, and those
of the frames that are. -/
structure ContentLog where
  shards : Fin NSHARDS → Shard
  puts : List Put
  inFlight : List String
  durable : List String

def ContentLog.init : ContentLog := ⟨fun _ => ⟨fun _ => none, []⟩, [], [], []⟩

inductive LogAction
  | put (hash : String) (bytes : Bytes)
  | batch (n : ℕ)

/-- A put publishes the bytes and hands their frame to the log. -/
def ContentLog.put (cfg : LogConfig) (place : String → Fin NSHARDS) (s : ContentLog) (hash : String)
    (bytes : Bytes) : ContentLog :=
  { s with
    shards := update s.shards (place hash)
      ((s.shards (place hash)).put cfg.cap hash bytes)
    puts := s.puts ++ [(hash, bytes)]
    inFlight := s.inFlight ++ [hash] }

/-- The log's writer makes the oldest `n` frames durable. -/
def ContentLog.batch (s : ContentLog) (n : ℕ) : ContentLog :=
  { s with inFlight := s.inFlight.drop n, durable := s.durable ++ s.inFlight.take n }

/-- A put blocks while the channel and the batch that the writer holds are full. -/
inductive LogStep (cfg : LogConfig) (place : String → Fin NSHARDS) :
    LogAction → ContentLog → ContentLog → Prop
  | put {s hash bytes} (hroom : s.inFlight.length < cfg.reclogCap + cfg.reclogBatch) :
    LogStep cfg place (.put hash bytes) s (s.put cfg place hash bytes)
  | batch {s n} (hn : n ≤ cfg.reclogBatch) : LogStep cfg place (.batch n) s (s.batch n)

variable {cfg : LogConfig} {place : String → Fin NSHARDS} {s t : ContentLog} {a : LogAction}
  {k : String}

/-- The puts of one shard. -/
def ContentLog.shardPuts (place : String → Fin NSHARDS) (s : ContentLog) (i : Fin NSHARDS) :
    List Put :=
  s.puts.filter fun p => place p.1 = i

/-- No frame of the hash is durable, and one is on its way. -/
def ContentLog.Undurable (s : ContentLog) (k : String) : Prop := k ∈ s.inFlight ∧ k ∉ s.durable

def ContentLog.Found (place : String → Fin NSHARDS) (s : ContentLog) (k : String) : Prop :=
  ((s.shards (place k)).map k).isSome = true

/-- How many hashes were inserted into the shard of `k` since `k` was. -/
def ContentLog.age (cfg : LogConfig) (place : String → Fin NSHARDS) (s : ContentLog) (k : String) :
    ℕ :=
  ContentIdx.age cfg.cap (s.shardPuts place (place k)) k

/-- The frames in flight for the shard of `k` behind the first frame of `k`. -/
def ContentLog.behind (place : String → Fin NSHARDS) (s : ContentLog) (k : String) : List String :=
  ((s.inFlight.dropWhile (· ≠ k)).tail).filter fun h => place h = place k

structure ContentInvariant (cfg : LogConfig) (place : String → Fin NSHARDS) (s : ContentLog) :
    Prop where
  holds : ∀ i, (s.shards i).Holds cfg.cap (insertions cfg.cap (s.shardPuts place i))
  sent : ∀ k, k ∈ s.puts.map Prod.fst ↔ k ∈ s.inFlight ∨ k ∈ s.durable
  aged : ∀ k, s.Undurable k → s.age cfg place k ≤ (s.behind place k).length

variable {cap : ℕ} {puts : List Put} {bytes : Bytes}

theorem mem_insertions :
    ∀ {k : String}, k ∈ (insertions cap puts).map Prod.fst ↔ k ∈ puts.map Prod.fst := by
  induction puts using reverseRecOn with
  | nil => exact Iff.rfl
  | append_singleton puts p ih =>
    intro k
    rw [insertions_concat, map_append, mem_append, map_singleton, mem_singleton]
    split
    · rename_i hp
      have hmem : p.1 ∈ puts.map Prod.fst := ih.mp (mem_of_mem_take hp)
      rw [ih]
      constructor
      · exact Or.inl
      · rintro (h | rfl)
        · exact h
        · exact hmem
    · rw [map_cons, mem_cons, ih, or_comm]

theorem shardPuts_put {i : Fin NSHARDS} {hash : String} :
    (puts ++ [(hash, bytes)]).filter (fun p => place p.1 = i) =
      if place hash = i then puts.filter (fun p => place p.1 = i) ++ [(hash, bytes)]
      else puts.filter fun p => place p.1 = i := by
  rw [filter_append]
  by_cases h : place hash = i <;> simp [h]

/-- One more put makes a hash older by one at most. -/
theorem age_put_le {p : Put} :
    ContentIdx.age cap (puts ++ [p]) k ≤ ContentIdx.age cap puts k + 1 := by
  rw [ContentIdx.age, insertions_concat]
  split
  · exact Nat.le_succ _
  · rw [map_cons, idxOf_cons]
    cases p.1 == k with
    | true => exact Nat.zero_le _
    | false => exact le_refl _

/-- A hash that was never put before is the newest. -/
theorem age_put_new
    (h : k ∉ puts.map Prod.fst) : ContentIdx.age cap (puts ++ [(k, bytes)]) k = 0 := by
  have hnew : k ∉ ((insertions cap puts).map Prod.fst).take cap :=
    fun hk => h (mem_insertions.mp (mem_of_mem_take hk))
  rw [ContentIdx.age, insertions_concat, if_neg hnew]
  simp

theorem dropWhile_append_of_mem {l : List String} (h : k ∈ l) (l' : List String) :
    ((l ++ l').dropWhile (· ≠ k)).tail = (l.dropWhile (· ≠ k)).tail ++ l' := by
  have hne : l.dropWhile (· ≠ k) ≠ [] := by
    intro hnil
    simpa using dropWhile_eq_nil_iff.mp hnil k h
  rw [dropWhile_append, if_neg (by simpa using hne), tail_append_of_ne_nil hne]

theorem ContentInvariant.init : ContentInvariant cfg place .init := by
  refine ⟨fun i => ⟨?_, ?_, fun k v => ?_⟩, fun k => ?_, fun k hk => ?_⟩
  · simp [ContentLog.init, ContentLog.shardPuts, insertions]
  · simp [ContentLog.init, ContentLog.shardPuts, insertions]
  · simp [ContentLog.init, ContentLog.shardPuts, insertions]
  · simp [ContentLog.init]
  · cases hk.1

/-- A put of the shard of `k` adds one frame behind the first of `k` and one insertion at most. -/
theorem ContentInvariant.aged_put (h : ContentInvariant cfg place s) {hash : String}
    (hk : (s.put cfg place hash bytes).Undurable k) :
    (s.put cfg place hash bytes).age cfg place k ≤
      ((s.put cfg place hash bytes).behind place k).length := by
  rw [ContentLog.age, ContentLog.shardPuts, ContentLog.put, shardPuts_put]
  by_cases hin : k ∈ s.inFlight
  · have hold := h.aged k ⟨hin, hk.2⟩
    rw [ContentLog.behind, dropWhile_append_of_mem hin, filter_append, length_append]
    by_cases hp : place hash = place k
    · rw [if_pos hp]
      refine age_put_le.trans ?_
      simpa [hp, ContentLog.age, ContentLog.shardPuts, ContentLog.behind] using hold
    · rw [if_neg hp]
      exact hold.trans (Nat.le_add_right _ _)
  · have hkey : k = hash := by simpa [ContentLog.put, hin] using hk.1
    subst hkey
    have hnew : k ∉ s.puts.map Prod.fst := fun hput => ((h.sent k).mp hput).elim hin hk.2
    rw [if_pos rfl, age_put_new]
    · exact Nat.zero_le _
    · intro hmem
      obtain ⟨p, hp, rfl⟩ := mem_map.mp hmem
      exact hnew (mem_map_of_mem (mem_of_mem_filter hp))

/-- The frames that became durable were in front of the first frame of `k`. -/
theorem ContentLog.behind_batch {n : ℕ} (hk : (s.batch n).Undurable k) :
    (s.batch n).behind place k = s.behind place k := by
  have hfront : ∀ h ∈ s.inFlight.take n, decide (h ≠ k) = true := by
    rintro h hmem
    apply decide_eq_true
    rintro rfl
    exact hk.2 (mem_append_right _ hmem)
  have hsplit : s.inFlight.dropWhile (· ≠ k) = (s.inFlight.drop n).dropWhile (· ≠ k) := by
    conv_lhs => rw [← take_append_drop n s.inFlight]
    exact dropWhile_append_of_pos hfront
  rw [behind, behind, hsplit]
  rfl

theorem ContentInvariant.step (h : ContentInvariant cfg place s) (hs : LogStep cfg place a s t) :
    ContentInvariant cfg place t := by
  cases hs with
  | @put _ hash bytes hroom =>
    refine ⟨fun i => ?_, fun k => ?_, fun k hk => h.aged_put hk⟩
    · simp only [ContentLog.put, ContentLog.shardPuts, shardPuts_put]
      by_cases hi : place hash = i
      · subst hi
        rw [if_pos rfl, insertions_concat, update_self]
        exact (h.holds _).put cfg.cap_pos
      · rw [if_neg hi, update_of_ne (Ne.symm hi)]
        exact h.holds i
    · simp only [ContentLog.put, map_append, mem_append, h.sent k]
      simp [or_right_comm]
  | @batch _ n hn =>
    refine ⟨h.holds, fun k => ?_, fun k hk => ?_⟩
    · have hsplit := mem_append (a := k) (s := s.inFlight.take n) (t := s.inFlight.drop n)
      rw [take_append_drop] at hsplit
      simp only [ContentLog.batch, h.sent k, mem_append, hsplit]
      tauto
    · have hold : s.Undurable k :=
        ⟨mem_of_mem_drop hk.1, fun hd => hk.2 (mem_append_left _ hd)⟩
      rw [ContentLog.behind_batch hk]
      exact h.aged k hold

theorem contentInvariant_of_reaches (h : Reaches (LogStep cfg place) anyAction .init s) :
    ContentInvariant cfg place s :=
  h.invariant (fun hi _ hs => hi.step hs) .init

theorem ContentInvariant.found_iff (h : ContentInvariant cfg place s) (hk : s.Undurable k) :
    s.Found place k ↔ s.age cfg place k < cfg.cap := by
  apply (h.holds (place k)).isSome_iff_age
  rw [mem_insertions]
  obtain ⟨p, hp, rfl⟩ := mem_map.mp ((h.sent k).mpr (Or.inl hk.1))
  exact mem_map_of_mem (mem_filter.mpr ⟨hp, decide_eq_true rfl⟩)

/-- A shard with no more frames in flight than it holds entries has every undurable hash. -/
theorem found_of_inFlight_le (h : Reaches (LogStep cfg place) anyAction .init s)
    (hk : s.Undurable k) (hle : (s.inFlight.filter fun h => place h = place k).length ≤ cfg.cap) :
    s.Found place k := by
  have hinv := contentInvariant_of_reaches h
  obtain ⟨front, back, hsplit, hfront⟩ := eq_append_cons_of_mem hk.1
  have hbehind : s.behind place k = back.filter fun h => place h = place k := by
    have hdrop : (front ++ k :: back).dropWhile (· ≠ k) = k :: back := by
      rw [dropWhile_append_of_pos]
      · simp
      · rintro h hmem
        apply decide_eq_true
        rintro rfl
        exact hfront hmem
    rw [ContentLog.behind, hsplit, hdrop, tail_cons]
  have hage := hinv.aged k hk
  rw [hbehind] at hage
  rw [hsplit, filter_append, length_append, filter_cons_of_pos (by simp), length_cons] at hle
  exact (hinv.found_iff hk).mpr (by omega)

/-- Among the newest insertions a hash has one entry, its last. -/
theorem lookup_of_mem_take {n : ℕ} {v : Bytes} {ins : List Put}
    (hnodup : ((ins.map Prod.fst).take n).Nodup) (hmem : (k, v) ∈ ins.take n) :
    ins.lookup k = some v := by
  obtain ⟨newer, older, hsplit⟩ := append_of_mem hmem
  rw [← map_take, hsplit, map_append, map_cons, nodup_append] at hnodup
  apply lookup_eq_some_iff.mpr
  refine ⟨newer, older ++ ins.drop n, ?_, fun p hp => ?_⟩
  · rw [← cons_append, ← append_assoc, ← hsplit, take_append_drop]
  · have hne := hnodup.2.2 p.1 (mem_map_of_mem hp) k (mem_cons_self ..)
    simpa [bne_iff_ne] using hne.symm

/-- The state after puts with nothing made durable. -/
def ContentLog.ofPuts (cfg : LogConfig) (place : String → Fin NSHARDS) (puts : List Put) :
    ContentLog :=
  puts.foldl (fun s p => s.put cfg place p.1 p.2) .init

open ContentLog (ofPuts shardPuts behind)

theorem ofPuts_spec (cfg : LogConfig) (place : String → Fin NSHARDS) (puts : List Put)
    (hlen : puts.length ≤ cfg.reclogCap + cfg.reclogBatch) :
    Reaches (LogStep cfg place) anyAction .init (.ofPuts cfg place puts) ∧
      (ofPuts cfg place puts).puts = puts ∧ (ofPuts cfg place puts).inFlight =
      puts.map Prod.fst ∧ (ofPuts cfg place puts).durable = [] := by
  induction puts using reverseRecOn with
  | nil => exact ⟨.refl _, rfl, rfl, rfl⟩
  | append_singleton puts p ih =>
    rw [length_append, length_singleton] at hlen
    obtain ⟨hrun, hputs, hflight, hdurable⟩ := ih (by omega)
    have hlast : ofPuts cfg place (puts ++ [p]) =
        (ofPuts cfg place puts).put cfg place p.1 p.2 := by
      simp [ofPuts, foldl_append]
    rw [hlast]
    refine ⟨hrun.next (a := .put p.1 p.2) trivial (.put ?_), ?_, ?_, hdurable⟩
    · rw [hflight, length_map]
      omega
    · rw [ContentLog.put, hputs]
    · rw [ContentLog.put, hflight, map_append, map_singleton]

/-- Each shard's keys are the members of its queue, at most the cap of them; a held hash gives the
bytes of the put that inserted it last; and every hash whose frames are not yet durable is held
exactly when fewer than the shard's cap of hashes were inserted into its shard after each of
them. -/
theorem contentidx_holds_undurable_iff {cfg : LogConfig} {place : String → Fin NSHARDS}
    {s : ContentLog} (h : Reaches (LogStep cfg place) anyAction .init s) :
    (∀ i, (∀ k, ((s.shards i).map k).isSome = true ↔ k ∈ (s.shards i).fifo) ∧
      (s.shards i).fifo.Nodup ∧ (s.shards i).fifo.length ≤ cfg.cap) ∧
      (∀ k, s.Found place k → (insertions cfg.cap (s.shardPuts place (place k))).lookup k =
      some ((s.shards (place k)).get k)) ∧ ((∀ k, s.Undurable k → s.Found place k) ↔
      ∀ k, s.Undurable k → s.age cfg place k < cfg.cap) := by
  have hinv := contentInvariant_of_reaches h
  refine ⟨fun i => ⟨fun k => ?_, ?_, (hinv.holds i).length_le⟩, fun k hk => ?_, ?_⟩
  · rw [(hinv.holds i).isSome, (hinv.holds i).mem_fifo]
  · rw [(hinv.holds i).fifo]
    exact nodup_reverse.mpr (hinv.holds i).nodup
  · obtain ⟨v, hv⟩ := Option.isSome_iff_exists.mp hk
    rw [Shard.get, hv]
    exact lookup_of_mem_take (hinv.holds _).nodup (((hinv.holds _).map k v).mp hv)
  · exact forall₂_congr fun k hk => hinv.found_iff hk

theorem found_of_inFlight_le_twice :
    (ofPuts ⟨none, 1024, 256⟩ (fun _ => ⟨0, by decide⟩) [("aa", [1]), ("bb", [])]).Found
      (fun _ => ⟨0, by decide⟩) "aa" :=
  found_of_inFlight_le (ofPuts_spec _ _ _ (by decide)).1 ⟨by decide, by decide⟩ (by decide)

/-- A shard of two hashes in which a third put evicts the first hash, whose frame is durable by
then. -/
theorem contentidx_holds_undurable_evicting :
    ∃ s, Reaches (LogStep ⟨some "512", 1024, 256⟩ fun _ => ⟨0, by decide⟩) anyAction .init s ∧
      ¬ s.Found (fun _ => ⟨0, by decide⟩) "aa" ∧ s.Found (fun _ => ⟨0, by decide⟩) "bb" := by
  have hputs := (ofPuts_spec ⟨some "512", 1024, 256⟩ (fun _ => ⟨0, by decide⟩)
    [("aa", [1]), ("bb", [2])] (by decide)).1
  have hbatch := hputs.next (a := .batch 1) trivial (.batch (by decide))
  have hthird := hbatch.next (a := .put "cc" [3]) trivial (.put (by decide))
  refine ⟨_, hthird, ?_, (contentidx_holds_undurable_iff hthird).2.2.mpr (fun k hk => ?_) _ ?_⟩
  · unfold ContentLog.Found
    decide
  · have hk : k = "bb" ∨ k = "cc" := by simpa using mem_cons.mp hk.1
    rcases hk with rfl | rfl <;> decide
  · exact ⟨mem_cons_self, by decide⟩

/-- Puts of different hashes all insert. -/
theorem insertions_of_nodup (h : (puts.map Prod.fst).Nodup) :
    insertions cap puts = puts.reverse := by
  induction puts using reverseRecOn with
  | nil => rfl
  | append_singleton puts p ih =>
    rw [map_append, map_singleton, nodup_append] at h
    have hnew : p.1 ∉ ((insertions cap puts).map Prod.fst).take cap := by
      intro hmem
      exact h.2.2 _ (mem_insertions.mp (mem_of_mem_take hmem)) _ (mem_singleton_self _) rfl
    rw [insertions_concat, if_neg hnew, ih h.1, reverse_append]
    rfl

/-- Different hashes, as many as asked for. -/
def distinctPuts (n : ℕ) : List Put :=
  (range n).map fun i => (String.ofList (replicate i 'a'), [])

theorem nodup_distinctPuts (n : ℕ) : ((distinctPuts n).map Prod.fst).Nodup := by
  rw [distinctPuts, map_map]
  apply Nodup.map _ nodup_range
  intro i j h
  simpa using congrArg (fun s : String => s.toList.length) h

theorem age_first {p : Put} (h : ((p :: puts).map Prod.fst).Nodup) :
    ContentIdx.age cap (p :: puts) p.1 = puts.length := by
  have hnew : p.1 ∉ (puts.map Prod.fst).reverse := by
    rw [mem_reverse]
    exact (nodup_cons.mp h).1
  rw [ContentIdx.age, insertions_of_nodup h, map_reverse, map_cons, reverse_cons,
    idxOf_append_of_notMem hnew]
  simp

/-- At the default sizes, 257 undurable hashes of one shard: the first of them is gone. -/
theorem contentidx_evicts_undurable : ∃ (place : String → Fin NSHARDS) (s : ContentLog),
    Reaches (LogStep ⟨none, 1024, 256⟩ place) anyAction .init s ∧
      ∃ k, s.Undurable k ∧ ¬ s.Found place k := by
  let place : String → Fin NSHARDS := fun _ => ⟨0, by decide⟩
  let cfg : LogConfig := ⟨none, 1024, 256⟩
  obtain ⟨puts, hputs, hlen⟩ : ∃ puts, distinctPuts 257 = ("", []) :: puts ∧ puts.length = 256 := by
    rw [distinctPuts, range_succ_eq_map, map_cons]
    exact ⟨_, rfl, by simp⟩
  have hnodup := hputs ▸ nodup_distinctPuts 257
  have hroom : (("", []) :: puts).length ≤ cfg.reclogCap + cfg.reclogBatch := by
    simp [hlen, cfg]
  obtain ⟨hrun, hput, hflight, hdurable⟩ := ofPuts_spec cfg place _ hroom
  have hk : (ofPuts cfg place (("", []) :: puts)).Undurable "" := by
    rw [ContentLog.Undurable, hflight, hdurable]
    exact ⟨mem_cons_self .., not_mem_nil⟩
  refine ⟨place, _, hrun, "", hk, fun hfound => ?_⟩
  have hage := ((contentInvariant_of_reaches hrun).found_iff hk).mp hfound
  have hall : (ofPuts cfg place (("", []) :: puts)).shardPuts place (place "") =
      ("", []) :: puts := by
    rw [shardPuts, hput]
    exact filter_eq_self.mpr fun _ _ => decide_eq_true rfl
  rw [ContentLog.age, hall, age_first hnodup, hlen] at hage
  exact absurd hage (by decide)

end AxisBridge.ContentIdx
