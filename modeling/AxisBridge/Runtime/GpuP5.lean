import AxisBridge.Lib.Grid
import Mathlib.Algebra.Order.Group.Nat

/-! The kernels on the memo table of the search: discover, insert, setval and produce. -/
namespace AxisBridge
open Function
namespace Gpu

/-- `PENDING`, the value of a claimed slot that has no answer yet. -/
def pending : UInt32 := 0xFFFFFFFF

/-- `NONE`, in the place of an argument the op does not take. -/
def noId : UInt32 := 0xFFFFFFFE

/-- A key: `code << 32 | a` and `b << 32 | c`. -/
abbrev Key := UInt64 × UInt64

def mix (key : Key) : UInt64 :=
  let z := key.1 ^^^ (key.2 <<< 29 ||| key.2 >>> 35) ^^^ 0x9E3779B97F4A7C15
  let z := (z ^^^ (z >>> 30)) * 0xBF58476D1CE4E5B9
  let z := (z ^^^ (z >>> 27)) * 0x94D049BB133111EB
  z ^^^ (z >>> 31)

/-- The job; a pool is what stands at an index of it in the memory of the device. -/
structure Job where
  code : UInt32
  k : UInt32
  c2 : UInt32
  c3 : UInt32
  p1 : ℕ → UInt32
  p2 : ℕ → UInt32
  p3 : ℕ → UInt32

def packKey (code a b c : UInt32) : Key :=
  (code.toUInt64 <<< 32 ||| a.toUInt64, b.toUInt64 <<< 32 ||| c.toUInt64)

/-- The key of combination `j` at a column. An empty pool 2 or 3 stops the thread; there is no such
result here. -/
def key (job : Job) (bvec : ℕ → UInt32) (n j col : ℕ) : Key :=
  let c3 := job.c3.toNat
  let c2 := job.c2.toNat
  let at' (id : UInt32) : UInt32 := bvec ((id.toNat * n + col) % 2 ^ 64)
  packKey job.code (at' (job.p1 (j / (c3 * c2))))
    (if 2 ≤ job.k then at' (job.p2 (j / c3 % c2)) else noId)
    (if 3 ≤ job.k then at' (job.p3 (j % c3)) else noId)

/-- A slot of the table; `st` is 0 when it is free, 1 while it is written and 2 from then on. -/
structure Slot where
  st : ℕ
  k0 : UInt64
  k1 : UInt64
  val : UInt32
  deriving DecidableEq

abbrev Table := ℕ → Slot

/-- What `alloc_zeros` gives. -/
def Table.zeros : Table := fun _ => ⟨0, 0, 0, 0⟩

/-- The flag bits 1, 2, 4, 8 and 16. -/
inductive Bit
  | overflow
  | full
  | unanswered
  | refused
  | rerun
  deriving DecidableEq

abbrev Flag := Bit → Bool

def Flag.clear : Flag := fun _ => false

def Flag.fetchOr (flag : Flag) (bit : Bit) : Flag := update flag bit true

theorem Flag.fetchOr_self (flag : Flag) (bit : Bit) : flag.fetchOr bit bit = true :=
  update_self ..

theorem Flag.fetchOr_of_ne {bit other : Bit} (flag : Flag) (hne : other ≠ bit) :
    flag.fetchOr bit other = flag other :=
  update_of_ne hne ..

theorem Flag.fetchOr_mono {flag : Flag} {bit other : Bit} (h : flag other = true) :
    flag.fetchOr bit other = true := by
  by_cases hne : other = bit
  · exact hne ▸ flag.fetchOr_self bit
  · exact (flag.fetchOr_of_ne hne).trans h

/-- Where a thread is that writes a slot it claimed. -/
inductive WritePc
  | key0
  | key1
  | val
  | publish

def WritePc.step (key : Key) (v : UInt32) : WritePc → Slot → Slot × Option WritePc
  | .key0, slot => ({ slot with k0 := key.1 }, some .key1)
  | .key1, slot => ({ slot with k1 := key.2 }, some .val)
  | .val, slot => ({ slot with val := v }, some .publish)
  | .publish, slot => ({ slot with st := 2 }, none)

/-- The list of misses; `nmiss` is a `u32`. -/
structure Misses where
  miss : ℕ → UInt32
  missk0 : ℕ → UInt64
  missk1 : ℕ → UInt64
  nmiss : ℕ

def Misses.zeros : Misses := ⟨fun _ => 0, fun _ => 0, fun _ => 0, 0⟩

structure Memory extends Misses where
  table : Table
  flag : Flag

inductive DiscoverPc
  | load (h probes : ℕ)
  | claim (h probes : ℕ)
  | write (h : ℕ) (pc : WritePc)
  | count (h : ℕ)
  | list (h i : ℕ)
  | list0 (h i : ℕ)
  | list1 (h i : ℕ)
  | same0 (h probes : ℕ)
  | same1 (h probes : ℕ)
  | raise (bit : Bit)

structure DiscoverThread where
  key : Key
  pc : DiscoverPc

/-- After a slot that holds another key. -/
def probed (mask h probes : ℕ) : DiscoverPc :=
  if mask < probes + 1 then .raise .full else .load ((h + 1) &&& mask) (probes + 1)

def discoverStep (mask misscap : ℕ) (s : Memory) (l : DiscoverThread) :
    Memory × Option DiscoverThread :=
  match l.pc with
  | .load h probes =>
    if (s.table h).st = 0 then (s, some { l with pc := .claim h probes })
    -- being written: never waited for
    else if (s.table h).st = 1 then (s, some { l with pc := .raise .rerun })
    else (s, some { l with pc := .same0 h probes })
  | .claim h _ =>
    if (s.table h).st = 0 then
      ({ s with table := update s.table h { s.table h with st := 1 } },
        some { l with pc := .write h .key0 })
    -- the claim is lost to a writer
    else (s, some { l with pc := .raise .rerun })
  | .write h pc =>
    let r := pc.step l.key pending (s.table h)
    ({ s with table := update s.table h r.1 },
      some { l with pc := r.2.elim (.count h) (.write h) })
  | .count h =>
    ({ s with nmiss := (s.nmiss + 1) % 2 ^ 32 },
      some { l with pc := if s.nmiss < misscap then .list h s.nmiss else .raise .overflow })
  | .list h i =>
    ({ s with miss := update s.miss i (UInt32.ofNat h) }, some { l with pc := .list0 h i })
  | .list0 h i =>
    ({ s with missk0 := update s.missk0 i l.key.1 }, some { l with pc := .list1 h i })
  | .list1 _ i => ({ s with missk1 := update s.missk1 i l.key.2 }, none)
  | .same0 h probes =>
    (s, some
    { l with pc := if (s.table h).k0 = l.key.1 then .same1 h probes else probed mask h probes })
  | .same1 h probes =>
    (s, if (s.table h).k1 = l.key.2 then none else some { l with pc := probed mask h probes })
  | .raise bit => ({ s with flag := s.flag.fetchOr bit }, none)

/-- `p5_discover` over the combinations from `j0` on, `n` columns each. -/
def p5Discover (job : Job) (bvec : ℕ → UInt32) (n j0 mask misscap : ℕ) :
    Kernel Memory DiscoverThread where
  start x :=
    let k := key job bvec n (j0 + x / n) (x % n)
    ⟨k, .load ((mix k).toNat &&& mask) 0⟩
  step := discoverStep mask misscap

structure InsertMemory where
  table : Table
  flag : Flag

inductive InsertPc
  | load (h probes : ℕ)
  | claim (h probes : ℕ)
  | write (h : ℕ) (pc : WritePc)
  | raise (bit : Bit)

structure InsertThread where
  key : Key
  val : UInt32
  pc : InsertPc

def insertProbed (mask h probes : ℕ) : InsertPc :=
  if mask < probes + 1 then .raise .full else .load ((h + 1) &&& mask) (probes + 1)

/-- No keys are compared: a slot that is taken is passed. -/
def insertStep (mask : ℕ) (s : InsertMemory) (l : InsertThread) :
    InsertMemory × Option InsertThread :=
  match l.pc with
  | .load h probes =>
    (s, some
    { l with pc := if (s.table h).st = 0 then .claim h probes else insertProbed mask h probes })
  | .claim h probes =>
    if (s.table h).st = 0 then
      ({ s with table := update s.table h { s.table h with st := 1 } },
        some { l with pc := .write h .key0 })
    else (s, some { l with pc := insertProbed mask h probes })
  | .write h pc =>
    let r := pc.step l.key l.val (s.table h)
    ({ s with table := update s.table h r.1 },
      r.2.map fun pc => { l with pc := .write h pc })
  | .raise bit => ({ s with flag := s.flag.fetchOr bit }, none)

/-- `p5_insert` of keys with their values. -/
def p5Insert (entries : List (Key × UInt32)) (mask : ℕ) : Kernel InsertMemory InsertThread where
  start x :=
    let e := entries.getD x ((0, 0), 0)
    ⟨e.1, e.2, .load ((mix e.1).toNat &&& mask) 0⟩
  step := insertStep mask

/-- `p5_setval`. -/
def p5Setval (slots vals : List UInt32) : Kernel Table ℕ where
  start x := x
  step t x :=
    let h := (slots.getD x 0).toNat
    (update t h { t h with val := vals.getD x 0 }, none)

structure ProduceMemory where
  out : ℕ → UInt32
  flag : Flag

inductive ProducePc
  | load (h probes : ℕ)
  | same0 (h probes : ℕ)
  | same1 (h probes : ℕ)
  | read (h : ℕ)
  | raise
  | store (v : UInt32)

structure ProduceThread where
  x : ℕ
  key : Key
  pc : ProducePc

/-- After the loop, with the value it ended on. -/
def produced (v : UInt32) : ProducePc := if v = pending then .raise else .store v

def produceProbed (mask h probes : ℕ) : ProducePc :=
  if mask < probes + 1 then produced pending else .load ((h + 1) &&& mask) (probes + 1)

def produceStep (t : Table) (mask : ℕ) (s : ProduceMemory) (l : ProduceThread) :
    ProduceMemory × Option ProduceThread :=
  match l.pc with
  | .load h probes =>
    (s, some { l with pc := if (t h).st = 0 then produced pending else .same0 h probes })
  | .same0 h probes =>
    (s, some
      { l with pc := if (t h).k0 = l.key.1 then .same1 h probes else produceProbed mask h probes })
  | .same1 h probes =>
    (s, some { l with pc := if (t h).k1 = l.key.2 then .read h else produceProbed mask h probes })
  | .read h => (s, some { l with pc := produced (t h).val })
  | .raise => ({ s with flag := s.flag.fetchOr .unanswered }, some { l with pc := .store pending })
  | .store v => ({ s with out := update s.out l.x v }, none)

/-- `p5_produce` over the combinations from `j0` on. It only reads the table. -/
def p5Produce (job : Job) (bvec : ℕ → UInt32) (n j0 : ℕ) (t : Table) (mask : ℕ) :
    Kernel ProduceMemory ProduceThread where
  start x :=
    let k := key job bvec n (j0 + x / n) (x % n)
    ⟨x, k, .load ((mix k).toNat &&& mask) 0⟩
  step := produceStep t mask

end Gpu
end AxisBridge

/-! The engine of the search: a size is discovered in passes, its misses answered and settled. -/
namespace AxisBridge
namespace Gpu

/-- `REFUSED`, what a miss has for an answer until one is given. -/
def refused : UInt32 := 0xFFFFFFFD

/-- `CHUNK`, the elements of a launch. -/
def chunk : ℕ := 2 ^ 24

/-- `cfg`: the threads of a launch. -/
def threads (total : ℕ) : ℕ := max 1 (min ((total + 255) / 256) 65535) * 256

/-- A job of a size; `start` and `count` are `i64`. -/
structure SizeJob extends Job where
  start : ℤ
  count : ℤ

/-- A size and the vectors of B it runs on. -/
structure Size where
  jobs : List SizeJob
  nTry : ℤ
  bvec : ℕ → UInt32

/-- Combinations a job tries. -/
def Size.tries (size : Size) (j : SizeJob) : ℕ :=
  (min j.count (Int.bmod (size.nTry - j.start) (2 ^ 64))).toNat

/-- The launches for combinations `j0` to `m`, `per` at a time. -/
def chunks (per m j0 : ℕ) : List (ℕ × ℕ) :=
  if j0 < m ∧ 0 < per then
    (j0, min per (m - j0)) :: chunks per m (j0 + min per (m - j0))
  else []
termination_by m - j0

/-- A launch of a kernel over the combinations `j0` to `j0 + m` of a job. -/
structure JobLaunch where
  job : Job
  j0 : ℕ
  m : ℕ

/-- The launches of a pass. -/
def Size.launches (size : Size) (n : ℕ) : List JobLaunch :=
  size.jobs.flatMap fun j =>
    (chunks (max (chunk / n) 1) (size.tries j) 0).map fun c => ⟨j.toJob, c.1, c.2⟩

/-- One launch of discover after the other. -/
inductive Pass (bvec : ℕ → UInt32) (n mask misscap : ℕ) : List JobLaunch → Memory → Memory → Prop
  | nil (s : Memory) : Pass bvec n mask misscap [] s s
  | cons {c : JobLaunch} {cs : List JobLaunch} {s s' s'' : Memory}
      (hrun : (p5Discover c.job bvec n c.j0 mask misscap).Runs (threads (c.m * n)) (c.m * n) s s')
      (rest : Pass bvec n mask misscap cs s' s'') : Pass bvec n mask misscap (c :: cs) s s''

structure Group where
  code : UInt32
  slots : List UInt32
  keys : List Key
  vals : List UInt32

/-- The keys of the list of misses with their slots. -/
def Misses.list (b : Misses) : List (Key × UInt32) :=
  (List.range b.nmiss).map fun i => ((b.missk0 i, b.missk1 i), b.miss i)

def keyLe (a b : Key × UInt32) : Bool :=
  a.1.1 < b.1.1 || (a.1.1 == b.1.1 && a.1.2 ≤ b.1.2)

def opCode (k : Key) : UInt32 := (k.1 >>> 32).toUInt32

/-- A miss goes to the group of its op code, in the order of the codes. -/
def enterGroup (miss : Key × UInt32) : List Group → List Group
  | [] => [⟨opCode miss.1, [miss.2], [miss.1], []⟩]
  | g :: gs =>
    if opCode miss.1 < g.code then ⟨opCode miss.1, [miss.2], [miss.1], []⟩ :: g :: gs
    else if opCode miss.1 = g.code then
      { g with slots := g.slots ++ [miss.2], keys := g.keys ++ [miss.1] } :: gs
    else g :: enterGroup miss gs

def Misses.groups (b : Misses) : List Group :=
  ((b.list.mergeSort keyLe).foldl (fun gs miss => enterGroup miss gs) []).map fun g =>
    { g with vals := List.replicate g.slots.length refused }

/-- One launch of setval after the other. -/
inductive SetVals : List Group → Table → Table → Prop
  | nil (t : Table) : SetVals [] t t
  | cons {g : Group} {gs : List Group} {t t' t'' : Table}
      (hrun : (p5Setval g.slots g.vals).Runs (threads g.vals.length) g.vals.length t t')
      (rest : SetVals gs t' t'') : SetVals (g :: gs) t t''

/-- The engine; `misses` are the buffers of a discover that has not returned. -/
structure Engine where
  n : ℕ
  cap : ℕ
  table : Table
  answered : List (Key × UInt32)
  size : Option Size
  groups : List Group
  misses : Option Misses

/-- `gpu_p5_open`, for vectors of `n` values. -/
def opened (n : ℕ) : Engine := ⟨n, 2 ^ 20, Table.zeros, [], none, [], none⟩

/-- The answers of the pending groups. -/
def Engine.given (e : Engine) : List (Key × UInt32) := e.groups.flatMap fun g => g.keys.zip g.vals

/-- A fresh table with every answered key; it is built only when it places all of them. -/
inductive Rebuilds (cap : ℕ) : Engine → Engine → Prop
  | empty {e : Engine} (hnone : e.answered = []) :
      Rebuilds cap e { e with cap, table := Table.zeros }
  | insert {e : Engine} {s : InsertMemory} (hsome : e.answered ≠ [])
      (hrun : (p5Insert e.answered (cap - 1)).Runs (threads e.answered.length) e.answered.length
        ⟨Table.zeros, Flag.clear⟩ s)
      (hflag : s.flag = Flag.clear) :
      Rebuilds cap e { e with cap, table := s.table }

/-- A pass over the table and the misses of an engine. -/
def Engine.Passes (e : Engine) (size : Size) (b : Misses) (s : Memory) : Prop :=
  Pass size.bvec e.n (e.cap - 1) (e.cap % 2 ^ 32) (size.launches e.n) ⟨b, e.table, Flag.clear⟩ s

inductive Action
  | size
  | pass
  | answer
  | settle
  | produced

/-- The calls on an engine. Discover runs in passes: it does one again while a slot was being
written, starts again on a larger table where one was full, and panics where the list of misses
overflowed. -/
inductive EngineStep : Action → Engine → Engine → Prop
  | size {e : Engine} {size : Size} (hidle : e.misses = none)
      (hroom : e.answered.length * 3 ≤ e.cap) :
      EngineStep .size e { e with size := some size, misses := some Misses.zeros }
  | sizeGrown {e e' : Engine} {size : Size} (hidle : e.misses = none)
      (hroom : e.cap < e.answered.length * 3) (hrebuild : Rebuilds (e.cap * 4) e e') :
      EngineStep .size e { e' with size := some size, misses := some Misses.zeros }
  | rerun {e : Engine} {size : Size} {b : Misses} {s : Memory} (hsize : e.size = some size)
      (hb : e.misses = some b) (hpass : e.Passes size b s) (hrerun : s.flag .rerun = true)
      (hfull : s.flag .full = false) :
      EngineStep .pass e { e with table := s.table, misses := some s.toMisses }
  | grow {e e' : Engine} {size : Size} {b : Misses} {s : Memory} (hsize : e.size = some size)
      (hb : e.misses = some b) (hpass : e.Passes size b s) (hfull : s.flag .full = true)
      (hrebuild : Rebuilds (e.cap * 4) e e') :
      EngineStep .pass e { e' with misses := some Misses.zeros }
  | found {e : Engine} {size : Size} {b : Misses} {s : Memory} (hsize : e.size = some size)
      (hb : e.misses = some b) (hpass : e.Passes size b s) (hrerun : s.flag .rerun = false)
      (hfull : s.flag .full = false) (hoverflow : s.flag .overflow = false) :
      EngineStep .pass e { e with table := s.table, misses := none, groups := s.toMisses.groups }
  | answer {e : Engine} {size : Size} {pre post : List Group} {g : Group} {first : ℕ}
      {ids : List UInt32} (hsize : e.size = some size) (hidle : e.misses = none)
      (hgroup : e.groups = pre ++ g :: post) (hfit : first + ids.length ≤ g.vals.length) :
      EngineStep .answer e
        { e with
          groups := pre ++
            { g with vals := g.vals.take first ++ ids ++ g.vals.drop (first + ids.length) } ::
              post }
  | settle {e : Engine} {size : Size} {t : Table} (hsize : e.size = some size)
      (hidle : e.misses = none) (hset : SetVals e.groups e.table t) :
      EngineStep .settle e { e with table := t, groups := [], answered := e.answered ++ e.given }
  | produced {e : Engine} (hidle : e.misses = none) (hgroups : e.groups = []) :
      EngineStep .produced e { e with size := none }

end Gpu
end AxisBridge
