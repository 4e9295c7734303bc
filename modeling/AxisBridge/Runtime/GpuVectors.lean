import AxisBridge.Runtime.GpuP5

/-! The kernels that filter and dedupe the vectors of a size: bseen_add, claim and keep. -/
namespace AxisBridge.Gpu
open Function

def rotateLeft (z r : UInt64) : UInt64 := z <<< r ||| z >>> (64 - r)

/-- The loop of `vhash` from the value at index `i` on. -/
def vhashFrom (i a b : UInt64) : List UInt32 → Key
  | [] => (a, b)
  | x :: v =>
    vhashFrom (i + 1) (mix (a ^^^ x.toUInt64, i))
      (mix (rotateLeft b 23 ^^^ (x.toUInt64 <<< 1), ~~~i)) v

/-- The fingerprint of a vector. -/
def vhash (v : List UInt32) : Key :=
  let n := .ofNat v.length
  vhashFrom 0 (0x243F6A8885A308D3 ^^^ n) (0x13198A2E03707344 ^^^ rotateLeft n 17) v

/-- The key of a vector under a tag. -/
def tagged (tag : UInt64) (v : List UInt32) : Key :=
  ((vhash v).1 ^^^ tag * 0x9E3779B97F4A7C15, (vhash v).2)

/-- A slot of a table of fingerprints; `ord` is the lowest ordinal that was put. -/
structure VSlot where
  st : ℕ
  k0 : UInt64
  k1 : UInt64
  ord : UInt64
  deriving DecidableEq

abbrev VTable := ℕ → VSlot

/-- `VT::new`. -/
def VTable.zeros : VTable := fun _ => ⟨0, 0, 0, 0⟩

inductive PutPc
  | load (h probes : ℕ)
  | claim (h probes : ℕ)
  | write (h : ℕ) (pc : WritePc)
  | same0 (h probes : ℕ)
  | same1 (h probes : ℕ)
  | min (h : ℕ)

/-- What `vput` returns: a slot, `u64::MAX` or `RETRY`. -/
inductive PutEnd
  | slot (h : ℕ)
  | full
  | retry

def WritePc.put (key : Key) (o : UInt64) : WritePc → VSlot → VSlot × Option WritePc
  | .key0, slot => ({ slot with k0 := key.1 }, some .key1)
  | .key1, slot => ({ slot with k1 := key.2 }, some .val)
  | .val, slot => ({ slot with ord := o }, some .publish)
  | .publish, slot => ({ slot with st := 2 }, none)

/-- After a slot that holds another key. -/
def putProbed (mask h probes : ℕ) : PutPc ⊕ PutEnd :=
  if mask < probes + 1 then .inr .full else .inl (.load ((h + 1) &&& mask) (probes + 1))

/-- `vput` of a key with its ordinal, a step at a time. -/
def putStep (mask : ℕ) (key : Key) (o : UInt64) (t : VTable) : PutPc → VTable × (PutPc ⊕ PutEnd)
  | .load h probes =>
    (t,
      if (t h).st = 0 then .inl (.claim h probes)
      -- being written: never waited for
      else if (t h).st = 1 then .inr .retry
      else .inl (.same0 h probes))
  | .claim h _ =>
    if (t h).st = 0 then
      (update t h { t h with st := 1 }, .inl (.write h .key0))
    else (t, .inr .retry)
  | .write h pc =>
    let r := pc.put key o (t h)
    (update t h r.1, r.2.elim (.inr (.slot h)) fun pc => .inl (.write h pc))
  | .same0 h probes =>
    (t, if (t h).k0 = key.1 then .inl (.same1 h probes) else putProbed mask h probes)
  | .same1 h probes =>
    (t, if (t h).k1 = key.2 then .inl (.min h) else putProbed mask h probes)
  | .min h =>
    (update t h { t h with ord := if o < (t h).ord then o else (t h).ord },
      .inr (.slot h))

/-- Where a put starts. -/
def putStart (mask : ℕ) (key : Key) : PutPc := .load ((mix key).toNat &&& mask) 0

/-- The loop of `vfind`. It reads a table no thread of its launch writes, and counts as one step of
its caller. -/
def vfindFrom (t : VTable) (mask : ℕ) (key : Key) : ℕ → ℕ → Option ℕ
  | 0, _ => none
  | fuel + 1, h =>
    if (t h).st = 0 then none
    else if (t h).k0 = key.1 ∧ (t h).k1 = key.2 then some h
    else vfindFrom t mask key fuel ((h + 1) &&& mask)

/-- The slot that holds a key; `none` is `u64::MAX`. -/
def vfind (t : VTable) (mask : ℕ) (key : Key) : Option ℕ :=
  vfindFrom t mask key (mask + 1) ((mix key).toNat &&& mask)

/-- Row `r` of vectors of `n` values. -/
def row (mem : ℕ → UInt32) (n r : ℕ) : List UInt32 := (List.range n).map fun i => mem (r * n + i)

structure Filt where
  n : ℕ
  eid : UInt32
  last : Bool
  role : UInt64
  ltag : UInt64
  mask : ℕ → UInt32
  ord0 : UInt64

namespace Filt

def tag (f : Filt) : UInt64 := if f.last then f.ltag else f.role

/-- A vector with nothing but E. -/
def alle (f : Filt) (v : List UInt32) : Bool := v.all fun x => x == f.eid

/-- A vector that gives the rows. -/
def fits (f : Filt) (v : List UInt32) : Bool :=
  v.zipIdx.all fun p => f.mask p.2 == noId || f.mask p.2 == p.1

def keeps (f : Filt) (bseen : VTable) (bmask : ℕ) (v : List UInt32) : Bool :=
  !f.alle v && (!f.last || f.fits v) && (vfind bseen bmask (tagged f.role v)).isNone

def key (f : Filt) (out : ℕ → UInt32) (c : ℕ) : Key := tagged f.tag (row out f.n c)

def ord (f : Filt) (c : ℕ) : UInt64 := f.ord0 + .ofNat c

end Filt

structure ClaimMemory where
  vt : VTable
  cand : ℕ → Bool
  flag : Flag

inductive ClaimPc
  | filter
  | put (pc : PutPc)
  | raise (bit : Bit)
  | mark (keep : Bool)

structure ClaimThread where
  c : ℕ
  pc : ClaimPc

/-- What a claim does after `vput` returned. -/
def claimEnd : PutEnd → ClaimPc
  | .slot _ => .mark true
  | .full => .raise .full
  | .retry => .raise .rerun

/-- `out` and `bseen` are only read; the candidates of the launch are from `off` on. -/
def claimStep (f : Filt) (out : ℕ → UInt32) (bseen : VTable) (bmask mask off : ℕ) (s : ClaimMemory)
    (l : ClaimThread) : ClaimMemory × Option ClaimThread :=
  match l.pc with
  | .filter =>
    let v := row out f.n l.c
    ({ s with flag := if refused ∈ v then s.flag.fetchOr .refused else s.flag },
      some { l with
        pc := if f.keeps bseen bmask v then .put (putStart mask (f.key out l.c)) else .mark false })
  | .put pc =>
    let r := putStep mask (f.key out l.c) (f.ord l.c) s.vt pc
    ({ s with vt := r.1 }, some { l with pc := r.2.elim .put claimEnd })
  | .raise bit => ({ s with flag := s.flag.fetchOr bit }, some { l with pc := .mark true })
  | .mark keep => ({ s with cand := update s.cand (off + l.c) keep }, none)

/-- `p5_claim`. -/
def p5Claim (f : Filt) (out : ℕ → UInt32) (bseen : VTable) (bmask mask off : ℕ) :
    Kernel ClaimMemory ClaimThread where
  start c := ⟨c, .filter⟩
  step := claimStep f out bseen bmask mask off

/-- `nkept` is a `u32`. -/
structure KeepMemory where
  kept : ℕ → UInt32
  kvec : ℕ → UInt32
  nkept : ℕ

inductive KeepPc
  | check
  | count
  | list (i : ℕ)
  | vector (i : ℕ)

structure KeepThread where
  c : ℕ
  pc : KeepPc

/-- A candidate that holds the lowest ordinal of its fingerprint. -/
def Filt.holds (f : Filt) (out : ℕ → UInt32) (vt : VTable) (mask : ℕ) (cand : ℕ → Bool)
    (off c : ℕ) : Bool :=
  cand (off + c) && (vfind vt mask (f.key out c)).any fun h => (vt h).ord == f.ord c

/-- The vector is copied to the row of its place in one step: no other thread has that place. -/
def keepStep (f : Filt) (out : ℕ → UInt32) (vt : VTable) (mask : ℕ) (cand : ℕ → Bool) (off : ℕ)
    (s : KeepMemory) (l : KeepThread) : KeepMemory × Option KeepThread :=
  match l.pc with
  | .check => (s, if f.holds out vt mask cand off l.c then some { l with pc := .count } else none)
  | .count => ({ s with nkept := (s.nkept + 1) % 2 ^ 32 }, some { l with pc := .list s.nkept })
  | .list i =>
    ({ s with kept := update s.kept i (UInt32.ofNat l.c) }, some { l with pc := .vector i })
  | .vector i =>
    ({ s with
        kvec := fun a =>
          if i * f.n ≤ a ∧ a < i * f.n + f.n then out (l.c * f.n + (a - i * f.n)) else s.kvec a },
      none)

/-- `p5_keep`. -/
def p5Keep (f : Filt) (out : ℕ → UInt32) (vt : VTable) (mask : ℕ) (cand : ℕ → Bool) (off : ℕ) :
    Kernel KeepMemory KeepThread where
  start c := ⟨c, .check⟩
  step := keepStep f out vt mask cand off

/-- What the host takes from a launch: the kept combinations with their vectors, sorted by their
numbers. -/
def KeepMemory.survivors (s : KeepMemory) (n : ℕ) : List (UInt32 × List UInt32) :=
  ((List.range s.nkept).map fun i => (s.kept i, row s.kvec n i)).mergeSort fun a b =>
    decide (a.1 ≤ b.1)

structure BseenMemory where
  bseen : VTable
  flag : Flag

inductive BseenPc
  | put (pc : PutPc)
  | raise (bit : Bit)

structure BseenThread where
  r : ℕ
  pc : BseenPc

/-- The key of a row of B; the roles are those of the rows from `first` on. -/
def bseenKey (bvec : ℕ → UInt32) (n first : ℕ) (roles : ℕ → UInt32) (r : ℕ) : Key :=
  tagged (roles (r - first)).toUInt64 (row bvec n r)

/-- What `p5_bseen_add` does after `vput` returned. -/
def bseenEnd : PutEnd → Option BseenPc
  | .slot _ => none
  | .full => some (.raise .full)
  | .retry => some (.raise .rerun)

def bseenStep (keyOf : ℕ → Key) (mask : ℕ) (s : BseenMemory) (l : BseenThread) :
    BseenMemory × Option BseenThread :=
  match l.pc with
  | .put pc =>
    let r := putStep mask (keyOf l.r) (.ofNat l.r) s.bseen pc
    ({ s with bseen := r.1 },
      (r.2.elim (fun pc => some (.put pc)) bseenEnd).map fun pc => { l with pc })
  | .raise bit => ({ s with flag := s.flag.fetchOr bit }, none)

/-- `p5_bseen_add` of the rows from `first` on. -/
def p5BseenAdd (bvec : ℕ → UInt32) (n first : ℕ) (roles : ℕ → UInt32) (mask : ℕ) :
    Kernel BseenMemory BseenThread where
  start x := ⟨first + x, .put (putStart mask (bseenKey bvec n first roles (first + x)))⟩
  step := bseenStep (bseenKey bvec n first roles) mask

end AxisBridge.Gpu
