import AxisBridge.Runtime.GpuVectors
import Mathlib.Algebra.GroupWithZero.Nat
import Mathlib.Data.Nat.Log

/-! The host of a size: the rows of B brought to the device, the passes of claim and keep, and the
survivors banked and recorded. -/
namespace AxisBridge.Gpu

/-- `next_power_of_two`. -/
def nextPowerOfTwo (a : ℕ) : ℕ := 2 ^ Nat.clog 2 a

/-- `LTAG`. -/
def ltag : UInt64 := 0xFFFFFFFF

/-! ### B on the device -/

/-- An entry of B, `<role>\t<pack>`: its role and its value ids, with `refused` for "-2". -/
structure BEntry where
  role : String
  vec : List UInt32
  deriving DecidableEq

/-- What the engine has of B; a role's number is its place in `roles` plus 1. -/
structure BSide where
  roles : List String
  bhost : List UInt32
  broles : List UInt32
  bsync : ℕ
  bseen : VTable
  bcap : ℕ

def BSide.opened : BSide := ⟨[], [], [], 0, VTable.zeros, 1024⟩

/-- What stands at an index of the copy on the device. -/
def BSide.bvec (b : BSide) (i : ℕ) : UInt32 := b.bhost.getD i 0

/-- `role_id`: the roles with this one among them. -/
def enterRole (roles : List String) (role : String) : List String :=
  if role ∈ roles then roles else roles ++ [role]

def roleId (roles : List String) (role : String) : UInt32 := UInt32.ofNat (roles.idxOf role + 1)

def BSide.read (b : BSide) (e : BEntry) : BSide :=
  let roles := enterRole b.roles e.role
  { b with roles, bhost := b.bhost ++ e.vec, broles := b.broles ++ [roleId roles e.role] }

/-- `bseen_add` of the rows from `first` on up to `last`; it panics where the set is full. -/
inductive BseenAdd (bvec : ℕ → UInt32) (n first last : ℕ) (roles : ℕ → UInt32) (mask : ℕ) :
    VTable → VTable → Prop
  | last {t : VTable} {s : BseenMemory}
      (hrun : (p5BseenAdd bvec n first roles mask).Runs (threads (last - first)) (last - first)
        ⟨t, Flag.clear⟩ s)
      (hfull : s.flag .full = false) (hrerun : s.flag .rerun = false) :
      BseenAdd bvec n first last roles mask t s.bseen
  | again {t t' : VTable} {s : BseenMemory}
      (hrun : (p5BseenAdd bvec n first roles mask).Runs (threads (last - first)) (last - first)
        ⟨t, Flag.clear⟩ s)
      (hfull : s.flag .full = false) (hrerun : s.flag .rerun = true)
      (rest : BseenAdd bvec n first last roles mask s.bseen t') :
      BseenAdd bvec n first last roles mask t t'

/-- `sync_b` with all entries of B, which have `n` values each. -/
inductive SyncB (n : ℕ) (entries : List BEntry) (b : BSide) : BSide → Prop
  | same (hlen : entries.length ≤ b.bsync) : SyncB n entries b b
  | grown {c : BSide} {t : VTable} (hlen : b.bsync < entries.length)
      (hread : (entries.drop b.bsync).foldl BSide.read b = c)
      (hn : ∀ e ∈ entries.drop b.bsync, e.vec.length = n)
      (hroom : b.bcap < entries.length * 2)
      (hadd : BseenAdd c.bvec n 0 entries.length (fun i => c.broles.getD i 0)
        (nextPowerOfTwo (entries.length * 4) - 1) VTable.zeros t) :
      SyncB n entries b
        { c with bsync := entries.length, bseen := t, bcap := nextPowerOfTwo (entries.length * 4) }
  | added {c : BSide} {t : VTable} (hlen : b.bsync < entries.length)
      (hread : (entries.drop b.bsync).foldl BSide.read b = c)
      (hn : ∀ e ∈ entries.drop b.bsync, e.vec.length = n)
      (hroom : entries.length * 2 ≤ b.bcap)
      (hadd : BseenAdd c.bvec n b.bsync entries.length (fun i => c.broles.getD (b.bsync + i) 0)
        (b.bcap - 1) c.bseen t) :
      SyncB n entries b { c with bsync := entries.length, bseen := t }

/-- The engine's side of B over the life of an engine: B only grows, it is synced when a size is
started, and the roles of jobs get their numbers. -/
inductive Synced (n : ℕ) : List BEntry → BSide → Prop
  | opened : Synced n [] .opened
  | sync {earlier entries : List BEntry} {b b' : BSide} (h : Synced n earlier b)
      (hgrows : earlier <+: entries) (hsync : SyncB n entries b b') : Synced n entries b'
  | role {entries : List BEntry} {b : BSide} (h : Synced n entries b) (role : String) :
      Synced n entries { b with roles := enterRole b.roles role }

/-! ### A size -/

/-- A job: its place among the jobs, its role, the ordinal of its first combination, and its pools
on the host, which are what the device has. -/
structure SearchJob extends SizeJob where
  x : ℕ
  role : String
  base : ℤ
  ids1 : List UInt32
  ids2 : List UInt32
  ids3 : List UInt32
  copied1 : ∀ (i : ℕ) id, ids1[i]? = some id → p1 i = id
  copied2 : ∀ (i : ℕ) id, ids2[i]? = some id → p2 i = id
  copied3 : ∀ (i : ℕ) id, ids3[i]? = some id → p3 i = id

/-- A size to search; `mask` is what stands at an index on the device. -/
structure SearchSize where
  jobs : List SearchJob
  nTry : ℤ
  last : Bool
  mask : ℕ → UInt32
  eid : UInt32

/-- Combinations a job tries. -/
def SearchSize.tries (z : SearchSize) (j : SearchJob) : ℕ :=
  (min j.count (Int.bmod (z.nTry - j.start) (2 ^ 64))).toNat

def SearchSize.total (z : SearchSize) : ℕ := (z.jobs.map z.tries).sum

structure SearchLaunch where
  job : SearchJob
  j0 : ℕ
  m : ℕ

/-- The launches of a pass over the size. -/
def SearchSize.launches (z : SearchSize) (n : ℕ) : List SearchLaunch :=
  z.jobs.flatMap fun j => (chunks (max (chunk / n) 1) (z.tries j) 0).map fun c => ⟨j, c.1, c.2⟩

/-- What `produce` reads and no kernel of it writes: the memo, the rows of B and their set, the
numbers of the roles. -/
structure Search where
  n : ℕ
  size : SearchSize
  table : Table
  cap : ℕ
  bvec : ℕ → UInt32
  bseen : VTable
  bcap : ℕ
  roles : List String

/-- A search of a size on an engine, once its jobs' roles have their numbers. -/
def BSide.search (b : BSide) (n : ℕ) (size : SearchSize) (table : Table) (cap : ℕ) : Search :=
  ⟨n, size, table, cap, b.bvec, b.bseen, b.bcap,
    (size.jobs.map SearchJob.role).foldl enterRole b.roles⟩

def Search.filt (e : Search) (l : SearchLaunch) : Filt where
  n := e.n
  eid := e.size.eid
  last := e.size.last
  role := (roleId e.roles l.job.role).toUInt64
  ltag := ltag
  mask := e.size.mask
  ord0 := .ofInt (l.job.base + l.j0)

/-- The slots of the table of a size. -/
def Search.vcap (e : Search) : ℕ := max (nextPowerOfTwo (e.size.total * 2)) 1024

/-- `produce_into`; `out` has whatever it had before past the elements of the launch. -/
def Search.ProduceInto (e : Search) (l : SearchLaunch) (flag : Flag) (s : ProduceMemory) : Prop :=
  ∃ out, (p5Produce l.job.toJob e.bvec e.n l.j0 e.table (e.cap - 1)).Runs (threads (l.m * e.n))
    (l.m * e.n) ⟨out, flag⟩ s

/-- Produce and claim over the launches, the candidates of the first from `off` on. -/
inductive ClaimPass (e : Search) : ℕ → List SearchLaunch → ClaimMemory → ClaimMemory → Prop
  | nil (off : ℕ) (s : ClaimMemory) : ClaimPass e off [] s s
  | cons {off : ℕ} {l : SearchLaunch} {ls : List SearchLaunch} {s s' s'' : ClaimMemory}
      {o : ProduceMemory} (hproduce : e.ProduceInto l s.flag o)
      (hclaim : (p5Claim (e.filt l) o.out e.bseen (e.bcap - 1) (e.vcap - 1) off).Runs (threads l.m)
        l.m { s with flag := o.flag } s')
      (rest : ClaimPass e (off + l.m) ls s' s'') : ClaimPass e off (l :: ls) s s''

/-- Passes of claim until one has met no slot being written. -/
inductive ClaimPasses (e : Search) (ls : List SearchLaunch) : ClaimMemory → ClaimMemory → Prop
  | last {s s' : ClaimMemory} (hpass : ClaimPass e 0 ls { s with flag := Flag.clear } s')
      (hrerun : s'.flag .rerun = false) : ClaimPasses e ls s s'
  | again {s s' s'' : ClaimMemory} (hpass : ClaimPass e 0 ls { s with flag := Flag.clear } s')
      (hrerun : s'.flag .rerun = true) (rest : ClaimPasses e ls s' s'') : ClaimPasses e ls s s''

/-! ### Banking and recording -/

/-- `pack_ids`. -/
def packIds (ids : List UInt32) : String :=
  let texts := ids.map fun id => if id = refused then "-2" else toString id.toNat
  toString ids.length ++ "|" ++ ",".intercalate (texts.map fun s => toString s.length) ++ "|" ++
    String.join texts

/-- The banks `record` puts into. -/
inductive BankName
  | b
  | l
  | r
  deriving DecidableEq

/-- The text of an argument id, if the op takes the argument; `none` is a panic on an index. -/
def argText (takes : Bool) (ids : List UInt32) (i : ℕ) : Option String :=
  if takes then (ids[i]?).map fun id => toString id.toNat else some ""

/-- The texts of the argument ids of combination `jj`. -/
def SearchJob.args (j : SearchJob) (jj : ℕ) : Option (String × String × String) :=
  let c2 := j.c2.toNat
  let c3 := j.c3.toNat
  if c3 * c2 = 0 then none
  else
    (argText true j.ids1 (jj / (c3 * c2))).bind fun a1 =>
      (argText (2 ≤ j.k) j.ids2 (jj / c3 % c2)).bind fun a2 =>
        (argText (3 ≤ j.k) j.ids3 (jj % c3)).map fun a3 => (a1, a2, a3)

/-- What `record` puts into R. -/
def SearchJob.recordText (j : SearchJob) (id : ℤ) (a : String × String × String) : String :=
  toString j.x ++ "\t" ++ toString id ++ "\t" ++ a.1 ++ "\t" ++ a.2.1 ++ "\t" ++ a.2.2

variable {β : Type*}

/-- The put of a vector: at the last size into L, else into B under its role. -/
def putVector (put : BankName → ℤ → String → β → ℤ × β) (z : SearchSize) (ord : ℤ) (role : String)
    (v : List UInt32) (bs : β) : ℤ × β :=
  if z.last then put .l ord (packIds v) bs else put .b ord (role ++ "\t" ++ packIds v) bs

/-- One survivor is banked, and recorded if the bank takes it. The banks are a state `β` with what
`fbank_put` answers on it; the flag says that one of them is full. -/
def recordOne (put : BankName → ℤ → String → β → ℤ × β) (z : SearchSize) (j : SearchJob) (jj : ℕ)
    (v : List UInt32) (s : Bool × β) : Option (Bool × β) :=
  let r := putVector put z (Int.bmod (j.base + jj) (2 ^ 64)) j.role v s.2
  let full := s.1 || r.1 == -2
  if r.1 < 0 then some (full, r.2)
  else
    (j.args jj).map fun a =>
      let r' := put .r 0 (j.recordText r.1 a) r.2
      (full || r'.1 == -2, r'.2)

/-- A combination that is handed to `record`, with its vector. -/
structure Handed where
  job : SearchJob
  jj : ℕ
  vec : List UInt32

/-- `record` of the survivors of a launch, in the order of their numbers. -/
def record (put : BankName → ℤ → String → β → ℤ × β) (z : SearchSize) (hs : List Handed)
    (s : Bool × β) : Option (Bool × β) :=
  hs.foldlM (fun s h => recordOne put z h.job h.jj h.vec s) s

def SearchLaunch.handed (l : SearchLaunch) (kept : List (UInt32 × List UInt32)) : List Handed :=
  kept.map fun p => ⟨l.job, l.j0 + p.1.toNat, p.2⟩

/-- Produce, keep and record over the launches, and all that is handed to `record`. -/
inductive KeepPass (e : Search) (put : BankName → ℤ → String → β → ℤ × β) (vt : VTable)
    (cand : ℕ → Bool) :
    ℕ → List SearchLaunch → Flag → List Handed → Bool × β → Bool × β → Prop
  | nil (off : ℕ) (flag : Flag) (st : Bool × β) : KeepPass e put vt cand off [] flag [] st st
  | cons {off : ℕ} {l : SearchLaunch} {ls : List SearchLaunch} {flag : Flag} {o : ProduceMemory}
      {kept kvec : ℕ → UInt32} {k : KeepMemory} {hs : List Handed} {st st' st'' : Bool × β}
      (hproduce : e.ProduceInto l flag o)
      (hkeep : (p5Keep (e.filt l) o.out vt (e.vcap - 1) cand off).Runs (threads l.m) l.m
        ⟨kept, kvec, 0⟩ k)
      (hrecord : record put e.size (l.handed (k.survivors e.n)) st = some st')
      (rest : KeepPass e put vt cand (off + l.m) ls o.flag hs st' st'') :
      KeepPass e put vt cand off (l :: ls) flag (l.handed (k.survivors e.n) ++ hs) st st''

/-- `Engine::produce`, when it returns: what it hands to `record`, the banks before and after, and
whether it found one of them full or met a refused value. -/
inductive Produce (e : Search) (put : BankName → ℤ → String → β → ℤ × β) :
    List Handed → β → Bool × β → Prop
  | empty {bs : β} (htotal : e.size.total = 0) : Produce e put [] bs (false, bs)
  | done {bs : β} {s : ClaimMemory} {hs : List Handed} {st : Bool × β} (htotal : e.size.total ≠ 0)
      (hclaim : ClaimPasses e (e.size.launches e.n) ⟨VTable.zeros, fun _ => false, Flag.clear⟩ s)
      (hanswered : s.flag .unanswered = false) (hfull : s.flag .full = false)
      (hkeep : KeepPass e put s.vt s.cand 0 (e.size.launches e.n) s.flag hs
        (s.flag .refused, bs) st) :
      Produce e put hs bs st

end AxisBridge.Gpu
