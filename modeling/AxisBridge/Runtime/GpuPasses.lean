import AxisBridge.Runtime.GpuBSet
import AxisBridge.Runtime.GpuClaim
import AxisBridge.Runtime.GpuDiscover
import AxisBridge.Runtime.GpuKeep
import AxisBridge.Runtime.GpuReference

/-! A pass of discover: its launches one after the other, over all combinations and columns of a
size. -/
namespace AxisBridge
open Function List
namespace Gpu

variable {cap n total j col : ℕ} {A P : Key → Prop} {s s' : Memory} {keyOf : ℕ → Key}
  {here : ℕ → Option DiscoverThread} {held : ℕ → Option Key} {listed : List ℕ} {k : Key}
  {bvec : ℕ → UInt32} {c : JobLaunch} {cs : List JobLaunch} {size : Size}

/-- Where no thread is at work. -/
def nowhere : ℕ → Option DiscoverThread := fun _ => none

/-- Threads come to a memory at rest, each to the first slot of its key. -/
theorem Discovering.starts (hd : Discovering cap A P s nowhere held listed)
    (hstart : ∀ {x l}, here x = some l → P l.key ∧ l.pc = .load (path cap l.key 0) 0) :
    Discovering cap A P s here held listed := by
  have hpc : ∀ {x l}, here x = some l → l.pc.Quiet := by
    intro x l hx
    rw [(hstart hx).2]
    exact ⟨fun _ he => (by cases he), rfl⟩
  refine ⟨hd.claims.start fun x => ?_, ?_, hd.fits, hd.planned, hd.answered, hd.noOverflow⟩
  · cases hx : here x with
    | none => exact .inl (by rw [claimers, hx]; rfl)
    | some l =>
      refine .inr ⟨l.key, ?_⟩
      rw [claimers_at hx, DiscoverThread.claimer, (hstart hx).2]
  · have hl := hd.listing
    refine ⟨fun {x l} hx => ?_, hl.count, hl.nodup, hl.small, hl.new, fun h k hs hA => ?_,
      fun i h hi => ?_,
      fun {x y l l' h} hx _ hm => absurd hm ((hpc hx).1 h), fun {x y l l' i} hx _ hm => ?_⟩
    · refine ⟨(hstart hx).1, ?_⟩
      rw [(hstart hx).2]
    · rcases hl.covered h k hs hA with hmem | ⟨_, _, hx, _⟩
      · exact .inl hmem
      · cases hx
    · rcases hl.entry i h hi with he | ⟨_, _, hx, _⟩
      · exact .inl he
      · cases hx
    · rw [(hpc hx).2] at hm
      cases hm

/-- What has come of a launch so far. -/
structure Launched (cap : ℕ) (A P : Key → Prop) (keyOf : ℕ → Key) (total : ℕ) (s₀ s : Memory)
    (here : ℕ → Option DiscoverThread) : Prop where
  discovering : ∃ held listed, Discovering cap A P s here held listed
  kept : Kept s₀.table s.table
  flags : ∀ bit, s₀.flag bit = true → s.flag bit = true
  key : ∀ {x l}, here x = some l → l.key = keyOf x
  settled : ∀ x < total, here x = none → Settled s (keyOf x)

theorem Launched.step {s₀ : Memory} {x : ℕ} {l : DiscoverThread}
    (h : Launched cap A P keyOf total s₀ s here) (hcap : IsCap cap) (hx : here x = some l) :
    Launched cap A P keyOf total s₀ (discoverStep (cap - 1) (cap % 2 ^ 32) s l).1
      (update here x (discoverStep (cap - 1) (cap % 2 ^ 32) s l).2) := by
  obtain ⟨held, listed, hd⟩ := h.discovering
  obtain ⟨hd', honward⟩ := hd.step hx hcap
  refine ⟨hd', h.kept.trans honward.kept, fun bit hb => honward.flags bit (h.flags bit hb), ?_, ?_⟩
  · intro y m hy
    rw [update_apply] at hy
    split at hy
    · next he =>
      rw [honward.key m hy, h.key hx, he]
    · exact h.key hy
  · intro y hy hnone
    rw [update_apply] at hnone
    split at hnone
    · next he =>
      rw [he, ← h.key hx]
      exact honward.settled hnone
    · exact (h.settled y hy hnone).mono honward.kept honward.flags

/-- What a launch, or a pass, leaves at its end. -/
structure Leaves (cap : ℕ) (A P : Key → Prop) (s s' : Memory) : Prop where
  discovering : ∃ held listed, Discovering cap A P s' nowhere held listed
  kept : Kept s.table s'.table
  flags : ∀ bit, s.flag bit = true → s'.flag bit = true

theorem threads_pos (total : ℕ) : 0 < threads total := by
  unfold threads
  omega

/-- A launch settles every key of its combinations and columns. -/
theorem launch_leaves (hcap : IsCap cap)
    (hrun : (p5Discover c.job bvec n c.j0 (cap - 1) (cap % 2 ^ 32)).Runs (threads (c.m * n))
      (c.m * n) s s') (hP : ∀ j col, j < c.m → col < n → P (key c.job bvec n (c.j0 + j) col))
    (hd : ∃ held listed, Discovering cap A P s nowhere held listed) :
    Leaves cap A P s s' ∧ ∀ j col, j < c.m → col < n →
      Settled s' (key c.job bvec n (c.j0 + j) col) := by
  obtain ⟨held, listed, hd⟩ := hd
  have hin : ∀ x < c.m * n, x / n < c.m ∧ x % n < n := by
    intro x hx
    have hn : 0 < n := Nat.pos_of_mul_pos_left (Nat.zero_lt_of_lt hx)
    exact ⟨Nat.div_lt_of_lt_mul (mul_comm c.m n ▸ hx), Nat.mod_lt x hn⟩
  have hend := hrun.rule
    (I := Launched cap A P (fun x => key c.job bvec n (c.j0 + x / n) (x % n)) (c.m * n) s)
    (threads_pos _) ?_ fun h hx => h.step hcap hx
  · refine ⟨⟨hend.discovering, hend.kept, hend.flags⟩, fun j col hj hcol => ?_⟩
    have hn := Nat.zero_lt_of_lt hcol
    have hlt : j * n + col < c.m * n := by
      have := Nat.mul_le_mul_right n (Nat.succ_le_of_lt hj)
      rw [Nat.succ_mul] at this
      omega
    have hs := hend.settled (j * n + col) hlt rfl
    rw [mul_comm j n, Nat.mul_add_div hn, Nat.div_eq_of_lt hcol, add_zero, Nat.mul_add_mod,
      Nat.mod_eq_of_lt hcol] at hs
    exact hs
  · have hat :
        ∀ {x l}, Kernel.starts (p5Discover c.job bvec n c.j0 (cap - 1) (cap % 2 ^ 32)) (c.m * n) x =
          some l → x < c.m * n ∧ l = ⟨key c.job bvec n (c.j0 + x / n) (x % n),
          .load (path cap (key c.job bvec n (c.j0 + x / n) (x % n)) 0) 0⟩ := by
      intro x l hx
      obtain ⟨hlt, rfl⟩ := Kernel.starts_eq hx
      refine ⟨hlt, ?_⟩
      rw [← hcap.home]
      rfl
    refine ⟨⟨held, listed, hd.starts fun {x l} hx => ?_⟩, Kept.refl _, fun _ hb => hb,
      fun {x l} hx => ?_, fun x hx hnone => ?_⟩
    · obtain ⟨hlt, rfl⟩ := hat hx
      exact ⟨hP _ _ (hin x hlt).1 (hin x hlt).2, rfl⟩
    · obtain ⟨_, rfl⟩ := hat hx
      rfl
    · exact absurd hnone (Kernel.starts_ne_none hx)

theorem pass_leaves (hcap : IsCap cap) (hpass : Pass bvec n (cap - 1) (cap % 2 ^ 32) cs s s')
    (hP : ∀ c ∈ cs, ∀ j col, j < c.m → col < n → P (key c.job bvec n (c.j0 + j) col))
    (hd : ∃ held listed, Discovering cap A P s nowhere held listed) :
    Leaves cap A P s s' ∧
      ∀ c ∈ cs, ∀ j col, j < c.m → col < n → Settled s' (key c.job bvec n (c.j0 + j) col) := by
  induction hpass with
  | nil s => exact ⟨⟨hd, Kept.refl _, fun _ hb => hb⟩, fun c hc => absurd hc not_mem_nil⟩
  | @cons c cs s s₁ s' hrun rest ih =>
    obtain ⟨hfirst, hsettled⟩ := launch_leaves hcap hrun (hP c mem_cons_self) hd
    obtain ⟨hrest, hsettled'⟩ := ih (fun c hc => hP c (mem_cons_of_mem _ hc)) hfirst.discovering
    refine ⟨⟨hrest.discovering, hfirst.kept.trans hrest.kept,
      fun bit hb => hrest.flags bit (hfirst.flags bit hb)⟩, fun c' hc' j col hj hcol => ?_⟩
    rcases mem_cons.mp hc' with rfl | hc'
    · exact (hsettled j col hj hcol).mono hrest.kept hrest.flags
    · exact hsettled' c' hc' j col hj hcol

/-- A key of a combination that is tried, at some column. -/
def Size.Asks (size : Size) (n : ℕ) (k : Key) : Prop :=
  ∃ job ∈ size.jobs, ∃ j < size.tries job, ∃ col < n, key job.toJob size.bvec n j col = k

theorem mem_chunks {per m j0 : ℕ} {p : ℕ × ℕ} (hp : p ∈ chunks per m j0) : p.1 + p.2 ≤ m := by
  induction j0 using chunks.induct per m with
  | case1 j0 hlt ih =>
    rw [chunks, if_pos hlt, mem_cons] at hp
    rcases hp with rfl | hp
    · show j0 + min per (m - j0) ≤ m
      omega
    · exact ih hp
  | case2 j0 hlt =>
    rw [chunks, if_neg hlt] at hp
    cases hp

theorem exists_chunk {per m j0 : ℕ} (hper : 0 < per) (hle : j0 ≤ j) (hj : j < m) :
    ∃ p ∈ chunks per m j0, p.1 ≤ j ∧ j < p.1 + p.2 := by
  induction j0 using chunks.induct per m with
  | case1 j0 hlt ih =>
    rw [chunks, if_pos hlt]
    by_cases hin : j < j0 + min per (m - j0)
    · exact ⟨_, mem_cons_self, hle, hin⟩
    · obtain ⟨p, hp, hpj⟩ := ih (Nat.le_of_not_lt hin)
      exact ⟨p, mem_cons_of_mem _ hp, hpj⟩
  | case2 j0 hlt => exact absurd ⟨by omega, hper⟩ hlt

theorem asks_of_launch (hc : c ∈ size.launches n) (hj : j < c.m) (hcol : col < n) :
    size.Asks n (key c.job size.bvec n (c.j0 + j) col) := by
  obtain ⟨job, hjob, hc⟩ := mem_flatMap.mp hc
  obtain ⟨p, hp, rfl⟩ := mem_map.mp hc
  have := mem_chunks hp
  exact ⟨job, hjob, p.1 + j, by show p.1 + j < _; simp only at hj; omega, col, hcol, rfl⟩

theorem exists_launch (hasks : size.Asks n k) :
    ∃ c ∈ size.launches n, ∃ j < c.m, ∃ col < n, key c.job size.bvec n (c.j0 + j) col = k := by
  obtain ⟨job, hjob, j, hj, col, hcol, rfl⟩ := hasks
  have hper : 0 < max (chunk / n) 1 := by omega
  obtain ⟨p, hp, hle, hlt⟩ := exists_chunk hper (Nat.zero_le j) hj
  refine ⟨⟨job.toJob, p.1, p.2⟩, mem_flatMap.mpr ⟨job, hjob, mem_map.mpr ⟨p, hp, rfl⟩⟩,
    j - p.1, ?_, col, hcol, ?_⟩
  · show j - p.1 < p.2
    omega
  · show key job.toJob size.bvec n (p.1 + (j - p.1)) col = _
    rw [Nat.add_sub_cancel' hle]

/-- A pass over a size settles every key it asks for. -/
theorem pass_settles (hcap : IsCap cap)
    (hpass : Pass size.bvec n (cap - 1) (cap % 2 ^ 32) (size.launches n) s s')
    (hd : ∃ held listed, Discovering cap A (size.Asks n) s nowhere held listed) :
    Leaves cap A (size.Asks n) s s' ∧ ∀ k, size.Asks n k → Settled s' k := by
  obtain ⟨hleaves, hsettled⟩ :=
    pass_leaves hcap hpass (fun c hc j col hj hcol => asks_of_launch hc hj hcol) hd
  refine ⟨hleaves, fun k hk => ?_⟩
  obtain ⟨c, hc, j, hj, col, hcol, rfl⟩ := exists_launch hk
  exact hsettled c hc j col hj hcol

end Gpu
end AxisBridge

/-! The passes of a size over all its combinations: what claim leaves in the table, and what keep
hands on. -/
namespace AxisBridge
open List
namespace Gpu

variable {β : Type*} {e : Search} {n off : ℕ} {z : SearchSize} {l : SearchLaunch}
  {ls : List SearchLaunch} {q q' : Combo} {flag flag' : Flag} {o : ProduceMemory}
  {s s' : ClaimMemory}

/-! ### The combinations of a list of launches -/

def SearchLaunch.combos (l : SearchLaunch) : List Combo :=
  (range l.m).map fun c => ⟨l.job, l.j0 + c⟩

open SearchLaunch (combos)

theorem flatMap_chunks {per : ℕ} (m j0 : ℕ) (hper : 0 < per) :
    (chunks per m j0).flatMap (fun c => (range c.2).map (c.1 + ·)) =
      (range (m - j0)).map (j0 + ·) := by
  induction j0 using chunks.induct per m with
  | case1 j0 hlt ih =>
    obtain ⟨k, hk⟩ : ∃ k, m - j0 = min per (m - j0) + k := ⟨m - j0 - min per (m - j0), by omega⟩
    have hk' : m - (j0 + min per (m - j0)) = k := by omega
    rw [chunks, if_pos hlt, flatMap_cons, ih, hk']
    conv_rhs => rw [hk, range_add, map_append, map_map]
    refine congrArg _ (map_congr_left fun i _ => ?_)
    show j0 + min per (m - j0) + i = j0 + (min per (m - j0) + i)
    omega
  | case2 j0 hge =>
    have hzero : m - j0 = 0 := by omega
    rw [chunks, if_neg hge, hzero]
    rfl

/-- The launches of a size have its combinations, in their order. -/
theorem combos_launches (z : SearchSize) (n : ℕ) :
    (z.launches n).flatMap combos = z.tried := by
  rw [SearchSize.launches, flatMap_assoc]
  refine flatMap_congr fun j _ => ?_
  rw [flatMap_map]
  have hper : 0 < max (chunk / n) 1 := by omega
  have hchunks := flatMap_chunks (z.tries j) 0 hper
  have hmap := congrArg (List.map fun jj => (⟨j, jj⟩ : Combo)) hchunks
  rw [map_flatMap, map_map] at hmap
  refine Eq.trans (flatMap_congr fun c _ => ?_) (hmap.trans ?_)
  · rw [map_map]
    rfl
  · refine map_congr_left fun i _ => ?_
    show (⟨j, 0 + i⟩ : Combo) = ⟨j, i⟩
    rw [zero_add]

theorem length_tried (z : SearchSize) : z.tried.length = z.total := by
  simp [SearchSize.tried, SearchSize.total]

theorem snd_le_of_mem_chunks {per m j0 : ℕ} {c : ℕ × ℕ} (hc : c ∈ chunks per m j0) : c.2 ≤ per := by
  induction j0 using chunks.induct per m with
  | case1 j0 hlt ih =>
    rw [chunks, if_pos hlt, mem_cons] at hc
    rcases hc with rfl | hc
    · exact min_le_left _ _
    · exact ih hc
  | case2 j0 hge =>
    rw [chunks, if_neg hge] at hc
    cases hc

/-- The number of a combination in its launch fits a `u32`. -/
theorem lt_of_mem_launches (hl : l ∈ z.launches n) : l.m < 2 ^ 32 := by
  obtain ⟨j, _, hl⟩ := mem_flatMap.mp hl
  obtain ⟨c, hc, rfl⟩ := mem_map.mp hl
  have hle := snd_le_of_mem_chunks hc
  have hdiv : chunk / n ≤ 2 ^ 24 := Nat.div_le_self ..
  have : c.2 ≤ 2 ^ 24 := by omega
  show c.2 < 2 ^ 32
  omega

/-! ### What the kernels see of a combination -/

namespace Search

/-- Whether claim puts a combination. -/
def keeps (e : Search) (q : Combo) : Bool :=
  (e.filt ⟨q.job, q.jj, 0⟩).keeps e.bseen (e.bcap - 1) (e.vector q)

/-- The fingerprint of a combination under its tag. -/
def print (e : Search) (q : Combo) : Key := tagged (e.filt ⟨q.job, q.jj, 0⟩).tag (e.vector q)

/-- What is put into the table of a size. -/
def Puts (e : Search) (k : Key) (o : UInt64) : Prop :=
  ∃ q ∈ e.size.tried, e.keeps q = true ∧ e.print q = k ∧ q.ordinal = o

/-- Whether keep finds the ordinal of a candidate under its fingerprint. -/
def wins (e : Search) (vt : VTable) (q : Combo) : Bool :=
  e.keeps q && (vfind vt (e.vcap - 1) (e.print q)).any fun h => (vt h).ord == q.ordinal

end Search

theorem ofInt_natCast (c : ℕ) : UInt64.ofInt c = UInt64.ofNat c := by
  have hmod : ((c : ℤ) % 2 ^ 64).toNat = c % 2 ^ 64 := by omega
  rw [UInt64.ofInt, hmod]
  exact UInt64.ofNat_mod_size

theorem filt_ord (e : Search) (l : SearchLaunch) (c : ℕ) :
    (e.filt l).ord c = Combo.ordinal ⟨l.job, l.j0 + c⟩ := by
  show UInt64.ofInt (l.job.base + l.j0) + UInt64.ofNat c =
    UInt64.ofInt (l.job.base + (l.j0 + c : ℕ))
  simp only [Int.natCast_add, ← Int.add_assoc, UInt64.ofInt_add, ofInt_natCast]

/-- A launch of produce leaves the vectors of its combinations, and flags those without an
answer. -/
theorem produceInto_vectors (h : e.ProduceInto l flag o) :
    (∀ c < l.m, row o.out e.n c = e.vector ⟨l.job, l.j0 + c⟩) ∧ ∀ bit, o.flag bit = true ↔
      flag bit = true ∨ bit = .unanswered ∧ ∃ q ∈ l.combos, pending ∈ e.vector q := by
  obtain ⟨out, hrun⟩ := h
  obtain ⟨hout, hflag⟩ := produce_recalls hrun (threads_pos _)
  have hvalue : ∀ c < l.m, ∀ col < e.n, recalled e.table (e.cap - 1)
      (key l.job.toJob e.bvec e.n (l.j0 + (c * e.n + col) / e.n) ((c * e.n + col) % e.n)) =
      recalled e.table (e.cap - 1) (key l.job.toJob e.bvec e.n (l.j0 + c) col) := by
    intro c _ col hcol
    have hn := Nat.zero_lt_of_lt hcol
    rw [mul_comm c e.n, Nat.mul_add_div hn, Nat.div_eq_of_lt hcol, add_zero,
      Nat.mul_add_mod, Nat.mod_eq_of_lt hcol]
  have hlt : ∀ c < l.m, ∀ col < e.n, c * e.n + col < l.m * e.n := by
    intro c hc col hcol
    have := Nat.mul_le_mul_right e.n (Nat.succ_le_of_lt hc)
    rw [Nat.succ_mul] at this
    omega
  refine ⟨fun c hc => map_congr_left fun col hcol => ?_, fun bit => (hflag bit).trans ?_⟩
  · have hcol' := mem_range.mp hcol
    rw [hout _ (hlt c hc col hcol'), hvalue c hc col hcol']
  · refine or_congr_right (and_congr_right fun _ => ⟨?_, ?_⟩)
    · rintro ⟨x, hx, hp⟩
      have hn : 0 < e.n := Nat.pos_of_mul_pos_left (Nat.zero_lt_of_lt hx)
      have hc : x / e.n < l.m := Nat.div_lt_of_lt_mul (mul_comm l.m e.n ▸ hx)
      exact ⟨_, mem_map.mpr ⟨x / e.n, mem_range.mpr hc, rfl⟩,
        mem_map.mpr ⟨x % e.n, mem_range.mpr (Nat.mod_lt x hn), hp⟩⟩
    · rintro ⟨q, hq, hp⟩
      obtain ⟨c, hc, rfl⟩ := mem_map.mp hq
      obtain ⟨col, hcol, hp⟩ := mem_map.mp hp
      have hc' := mem_range.mp hc
      have hcol' := mem_range.mp hcol
      exact ⟨c * e.n + col, hlt c hc' col hcol', (hvalue c hc' col hcol').trans hp⟩

/-! ### The table of a size -/

theorem isCap_vcap (e : Search) : IsCap e.vcap := by
  rcases Nat.le_total (nextPowerOfTwo (e.size.total * 2)) 1024 with hle | hle
  · exact ⟨10, Nat.max_eq_right hle⟩
  · exact ⟨_, Nat.max_eq_left hle⟩

/-- The table has more slots than keys are put. -/
theorem prints_lt_vcap (e : Search) : (e.size.tried.map e.print).length < e.vcap := by
  rw [length_map, length_tried]
  have := le_nextPowerOfTwo (e.size.total * 2)
  unfold Search.vcap
  omega

theorem mem_prints {k : Key} {o : UInt64} (h : e.Puts k o) : k ∈ e.size.tried.map e.print := by
  obtain ⟨q, hq, _, rfl, _⟩ := h
  exact mem_map.mpr ⟨q, hq, rfl⟩

/-- What the launches of a pass of claim leave. -/
structure PassLeaves (e : Search) (off : ℕ) (ls : List SearchLaunch)
    (s s' : ClaimMemory) : Prop where
  putting : ∃ held, Putting e.vcap e.Puts s'.vt noPutter held
  lowered : Lowered s.vt s'.vt
  rerun : s.flag .rerun = true → s'.flag .rerun = true
  full : s'.flag .full = true → s.flag .full = true
  marks : ∀ a q, (ls.flatMap combos)[a]? = some q → s'.cand (off + a) = e.keeps q
  settles : ∀ q ∈ ls.flatMap combos, e.keeps q = true →
    HasPut s'.vt (e.print q) q.ordinal ∨ s'.flag .rerun = true
  below : ∀ a < off, s'.cand a = s.cand a
  refused : s'.flag .refused = true ↔
    s.flag .refused = true ∨ ∃ q ∈ ls.flatMap combos, refused ∈ e.vector q
  unanswered : s'.flag .unanswered = true ↔
    s.flag .unanswered = true ∨ ∃ q ∈ ls.flatMap combos, pending ∈ e.vector q

theorem mem_combos {c : ℕ} (hc : c < l.m) : (⟨l.job, l.j0 + c⟩ : Combo) ∈ l.combos :=
  mem_map.mpr ⟨c, mem_range.mpr hc, rfl⟩

theorem exists_mem_combos {p : Combo → Prop} :
    (∃ q ∈ l.combos, p q) ↔ ∃ c < l.m, p ⟨l.job, l.j0 + c⟩ := by
  constructor
  · rintro ⟨q, hq, hp⟩
    obtain ⟨c, hc, rfl⟩ := mem_map.mp hq
    exact ⟨c, mem_range.mp hc, hp⟩
  · rintro ⟨c, hc, hp⟩
    exact ⟨_, mem_combos hc, hp⟩

theorem getElem?_combos {a : ℕ} (ha : l.combos[a]? = some q) : a < l.m ∧ q = ⟨l.job, l.j0 + a⟩ := by
  rw [combos, getElem?_map] at ha
  obtain ⟨c, hc, rfl⟩ := Option.map_eq_some_iff.mp ha
  obtain ⟨hlt, rfl⟩ := List.getElem?_eq_some_iff.mp hc
  rw [length_range] at hlt
  rw [getElem_range]
  exact ⟨hlt, rfl⟩

/-- Produce and claim over one launch. -/
theorem launch_passLeaves (hproduce : e.ProduceInto l s.flag o)
    (hclaim : (p5Claim (e.filt l) o.out e.bseen (e.bcap - 1) (e.vcap - 1) off).Runs
      (threads l.m) l.m { s with flag := o.flag } s')
    (hsub : ∀ q ∈ l.combos, q ∈ e.size.tried)
    (hput : ∃ held, Putting e.vcap e.Puts s.vt noPutter held) :
    PassLeaves e off [l] s s' := by
  obtain ⟨hrow, hflag⟩ := produceInto_vectors hproduce
  have hkeeps : ∀ c < l.m,
      (e.filt l).keepsAt o.out e.bseen (e.bcap - 1) c = e.keeps ⟨l.job, l.j0 + c⟩ := by
    intro c hc
    show (e.filt l).keeps e.bseen (e.bcap - 1) (row o.out e.n c) = _
    rw [hrow c hc]
    rfl
  have hkey : ∀ c < l.m, (e.filt l).key o.out c = e.print ⟨l.job, l.j0 + c⟩ := by
    intro c hc
    show tagged (e.filt l).tag (row o.out e.n c) = _
    rw [hrow c hc]
    rfl
  have hleaves := claim_launch (s := { s with flag := o.flag }) (isCap_vcap e)
    (fun k o => mem_prints) (prints_lt_vcap e)
    (fun c hc hk => ⟨⟨l.job, l.j0 + c⟩, hsub _ (mem_combos hc), (hkeeps c hc).symm.trans hk,
      (hkey c hc).symm, (filt_ord e l c).symm⟩) hput hclaim (threads_pos _)
  have hflag' : ∀ bit, bit ≠ .unanswered → (o.flag bit = true ↔ s.flag bit = true) := by
    intro bit hne
    rw [hflag bit]
    exact or_iff_left fun h => hne h.1
  refine ⟨hleaves.putting, hleaves.onward.lowered, fun hb => ?_, fun hb => ?_, fun a q ha => ?_,
    fun q hq hk => ?_, fun a ha => ?_, ?_, ?_⟩
  · exact hleaves.onward.flags .rerun ((hflag' .rerun nofun).mpr hb)
  · rcases hleaves.onward.raised .full hb with hb | hb | hb
    · exact (hflag' .full nofun).mp hb
    · cases hb
    · cases hb
  · rw [flatMap_singleton] at ha
    obtain ⟨hlt, rfl⟩ := getElem?_combos ha
    rw [hleaves.marks a hlt, hkeeps a hlt]
  · rw [flatMap_singleton] at hq
    obtain ⟨c, hc, rfl⟩ := mem_map.mp hq
    have hc' := mem_range.mp hc
    have hsettles := hleaves.settles c hc' ((hkeeps c hc').trans hk)
    rw [ClaimMemory.Settles, hkey c hc', filt_ord] at hsettles
    exact hsettles
  · exact hleaves.other a fun c _ he => by omega
  · rw [hleaves.flagged, flatMap_singleton, exists_mem_combos]
    refine or_congr (hflag' .refused nofun) (exists_congr fun c => and_congr_right fun hc => ?_)
    show refused ∈ row o.out e.n c ↔ _
    rw [hrow c hc]
  · rw [flatMap_singleton]
    have hunanswered := hflag .unanswered
    rw [and_iff_right rfl] at hunanswered
    refine Iff.trans ⟨fun hb => ?_, hleaves.onward.flags .unanswered⟩ hunanswered
    rcases hleaves.onward.raised .unanswered hb with hb | hb | hb
    · exact hb
    · cases hb
    · cases hb

theorem exists_mem_append {qs qs' : List Combo} {p : Combo → Prop} :
    ((∃ q ∈ qs, p q) ∨ ∃ q ∈ qs', p q) ↔ ∃ q ∈ qs ++ qs', p q := by
  simp [or_and_right, exists_or]

/-- One launch after the other. -/
theorem PassLeaves.append {ls' : List SearchLaunch} {s'' : ClaimMemory} (len : ℕ)
    (h : PassLeaves e off ls s s') (hlen : (ls.flatMap combos).length = len)
    (h' : PassLeaves e (off + len) ls' s' s'') : PassLeaves e off (ls ++ ls') s s'' := by
  refine ⟨h'.putting, h.lowered.trans h'.lowered, fun hb => h'.rerun (h.rerun hb),
    fun hb => h.full (h'.full hb), fun a q ha => ?_, fun q hq hk => ?_, fun a ha => ?_, ?_, ?_⟩
  · rw [flatMap_append] at ha
    rcases lt_or_ge a len with hlt | hge
    · rw [getElem?_append_left (hlen ▸ hlt)] at ha
      rw [h'.below (off + a) (by omega)]
      exact h.marks a q ha
    · rw [getElem?_append_right (hlen ▸ hge), hlen] at ha
      have hmark := h'.marks (a - len) q ha
      rwa [add_assoc, Nat.add_sub_cancel' hge] at hmark
  · rw [flatMap_append] at hq
    rcases mem_append.mp hq with hq | hq
    · exact (h.settles q hq hk).imp (fun hp => hp.mono h'.lowered) h'.rerun
    · exact h'.settles q hq hk
  · rw [h'.below a (by omega)]
    exact h.below a ha
  · rw [h'.refused, h.refused, flatMap_append, or_assoc, exists_mem_append]
  · rw [h'.unanswered, h.unanswered, flatMap_append, or_assoc, exists_mem_append]

theorem length_combos (l : SearchLaunch) : l.combos.length = l.m := by
  rw [combos, length_map, length_range]

theorem claimPass_leaves (h : ClaimPass e off ls s s')
    (hsub : ∀ q ∈ ls.flatMap combos, q ∈ e.size.tried)
    (hput : ∃ held, Putting e.vcap e.Puts s.vt noPutter held) : PassLeaves e off ls s s' := by
  induction h with
  | nil off s =>
    refine ⟨hput, .refl _, fun hb => hb, fun hb => hb, fun a q ha => ?_,
      fun q hq => absurd hq not_mem_nil, fun _ _ => rfl, ?_, ?_⟩
    · cases ha
    · exact (or_iff_left fun ⟨q, hq, _⟩ => not_mem_nil hq).symm
    · exact (or_iff_left fun ⟨q, hq, _⟩ => not_mem_nil hq).symm
  | @cons off l ls s s' s'' o hproduce hclaim rest ih =>
    rw [flatMap_cons] at hsub
    have hfirst := launch_passLeaves hproduce hclaim
      (fun q hq => hsub q (mem_append_left _ hq)) hput
    refine PassLeaves.append l.m hfirst ?_
      (ih (fun q hq => hsub q (mem_append_right _ hq)) hfirst.putting)
    rw [flatMap_singleton, length_combos]

/-- What the passes of claim over a size leave. -/
structure SizeLeaves (e : Search) (s : ClaimMemory) : Prop where
  putting : ∃ held, Putting e.vcap e.Puts s.vt noPutter held
  marks : ∀ a q, e.size.tried[a]? = some q → s.cand a = e.keeps q
  settles : ∀ q ∈ e.size.tried, e.keeps q = true → HasPut s.vt (e.print q) q.ordinal
  full : s.flag .full = false
  refused : s.flag .refused = true ↔ ∃ q ∈ e.size.tried, refused ∈ e.vector q
  unanswered : s.flag .unanswered = true ↔ ∃ q ∈ e.size.tried, pending ∈ e.vector q

theorem claimPasses_leave (h : ClaimPasses e (e.size.launches e.n) s s')
    (hput : ∃ held, Putting e.vcap e.Puts s.vt noPutter held) : SizeLeaves e s' := by
  have hsub : ∀ q ∈ (e.size.launches e.n).flatMap combos, q ∈ e.size.tried := by
    intro q hq
    rwa [combos_launches] at hq
  induction h with
  | @last s s' hpass hrerun =>
    have hleaves := claimPass_leaves hpass hsub hput
    have hclear : ∀ bit, ¬ Flag.clear bit = true := fun bit hb => by cases hb
    refine ⟨hleaves.putting, fun a q ha => ?_, fun q hq hk => ?_, ?_, ?_, ?_⟩
    · rw [← combos_launches _ e.n] at ha
      have hmark := hleaves.marks a q ha
      rwa [zero_add] at hmark
    · rw [← combos_launches _ e.n] at hq
      exact (hleaves.settles q hq hk).resolve_right fun hb => by rw [hrerun] at hb; cases hb
    · exact Bool.eq_false_of_not_eq_true fun hb => hclear .full (hleaves.full hb)
    · rw [hleaves.refused, combos_launches]
      exact or_iff_right (hclear .refused)
    · rw [hleaves.unanswered, combos_launches]
      exact or_iff_right (hclear .unanswered)
  | again hpass hrerun rest ih => exact ih (claimPass_leaves hpass hsub hput).putting

/-! ### Keep -/

variable {put : BankName → ℤ → String → β → ℤ × β} {vt : VTable} {cand : ℕ → Bool}
  {hs : List Handed} {st st' : Bool × β}

/-- Produce and keep over one launch hand on its combinations that win. -/
theorem launch_hands {kept kvec : ℕ → UInt32} {k : KeepMemory} (hm : l.m < 2 ^ 32)
    (hproduce : e.ProduceInto l flag o)
    (hkeep : (p5Keep (e.filt l) o.out vt (e.vcap - 1) cand off).Runs (threads l.m) l.m
      ⟨kept, kvec, 0⟩ k) (hmarks : ∀ a q, l.combos[a]? = some q → cand (off + a) = e.keeps q) :
    l.handed (k.survivors e.n) = (l.combos.filter (e.wins vt)).map e.handedOf := by
  obtain ⟨hrow, _⟩ := produceInto_vectors hproduce
  have hholds : ∀ c ∈ range l.m,
      (e.filt l).holds o.out vt (e.vcap - 1) cand off c = e.wins vt ⟨l.job, l.j0 + c⟩ := by
    intro c hc
    have hc' := mem_range.mp hc
    have hat : l.combos[c]? = some ⟨l.job, l.j0 + c⟩ := by
      rw [combos, getElem?_map, getElem?_range hc']
      rfl
    have hkey : (e.filt l).key o.out c = e.print ⟨l.job, l.j0 + c⟩ := by
      show tagged (e.filt l).tag (row o.out e.n c) = _
      rw [hrow c hc']
      rfl
    rw [Filt.holds, hmarks c _ hat, hkey, filt_ord]
    rfl
  have hsurvivors := keep_launch (f := e.filt l) hm hkeep (threads_pos _)
  rw [show k.survivors e.n = k.survivors (e.filt l).n from rfl, hsurvivors, SearchLaunch.handed,
    map_map, combos, filter_map, map_map, filter_congr hholds]
  refine map_congr_left fun c hc => ?_
  have hc' := mem_range.mp (mem_filter.mp hc).1
  have hsize : UInt32.size = 2 ^ 32 := rfl
  have hnum : (UInt32.ofNat c).toNat = c := UInt32.toNat_ofNat_of_lt' (by omega)
  show (⟨l.job, l.j0 + (UInt32.ofNat c).toNat, row o.out e.n c⟩ : Handed) = _
  rw [hnum, hrow c hc']
  rfl

theorem record_append {hs hs' : List Handed} :
    record put z (hs ++ hs') st = (record put z hs st).bind (record put z hs') :=
  foldlM_append

/-- The marks of the first launch, and of those behind it. -/
theorem marks_append {qs : List Combo}
    (h : ∀ a q, (l.combos ++ qs)[a]? = some q → cand (off + a) = e.keeps q) :
    (∀ a q, l.combos[a]? = some q → cand (off + a) = e.keeps q) ∧
      ∀ a q, qs[a]? = some q → cand (off + l.m + a) = e.keeps q := by
  refine ⟨fun a q ha => h a q ?_, fun a q ha => ?_⟩
  · rw [List.getElem?_append_left (List.getElem?_eq_some_iff.mp ha).1, ha]
  · rw [add_assoc]
    refine h (l.m + a) q ?_
    rw [getElem?_append_right (by rw [length_combos]; omega), length_combos,
      Nat.add_sub_cancel_left, ha]

theorem keepPass_hands (h : KeepPass e put vt cand off ls flag hs st st')
    (hsmall : ∀ l ∈ ls, l.m < 2 ^ 32)
    (hmarks : ∀ a q, (ls.flatMap combos)[a]? = some q → cand (off + a) = e.keeps q) :
    hs = ((ls.flatMap combos).filter (e.wins vt)).map e.handedOf ∧
      record put e.size hs st = some st' := by
  induction h with
  | nil off flag st => exact ⟨rfl, rfl⟩
  | @cons off l ls flag o kept kvec k hs st st' st'' hproduce hkeep hrecord rest ih =>
    rw [flatMap_cons] at hmarks ⊢
    obtain ⟨hmarked, hmarks'⟩ := marks_append hmarks
    have hfirst := launch_hands (hsmall l mem_cons_self) hproduce hkeep hmarked
    obtain ⟨hrest, hrecord'⟩ := ih (fun l hl => hsmall l (mem_cons_of_mem _ hl)) hmarks'
    refine ⟨?_, ?_⟩
    · rw [filter_append, map_append, hfirst, hrest]
    · rw [record_append, hrecord]
      exact hrecord'

/-! ### What wins -/

/-- A combination wins that is put under the lowest ordinal of its fingerprint. -/
theorem SizeLeaves.wins_iff (h : SizeLeaves e s) (hq : q ∈ e.size.tried) :
    e.wins s.vt q = true ↔ e.keeps q = true ∧
      ∀ q' ∈ e.size.tried, e.keeps q' = true → e.print q' = e.print q → q.ordinal ≤ q'.ordinal := by
  obtain ⟨held, hp⟩ := h.putting
  have hc : Claims e.vcap s.vt.keys resting held := hp.claims
  have hcap := isCap_vcap e
  rw [Search.wins, Bool.and_eq_true]
  refine and_congr_right fun hk => ?_
  obtain ⟨g, hs, hle⟩ := h.settles q hq hk
  have hfind : vfind s.vt (e.vcap - 1) (e.print q) = some g := (vfind_eq_some_iff hc hcap).mpr hs
  rw [hfind, Option.any_some, beq_iff_eq]
  constructor
  · intro hord q' hq' hk' hprint
    obtain ⟨g', hs', hle'⟩ := h.settles q' hq' hk'
    rw [hprint] at hs'
    have hsame : g' = g := hc.slot_eq hs' hs
    subst hsame
    rw [← hord]
    exact hle'
  · intro hlow
    obtain ⟨q', hq', hk', hprint, hord⟩ := hp.ord g hs.1
    have hkey : e.print q' = e.print q := by
      rw [hprint]
      exact Prod.ext hs.2.1 hs.2.2
    exact UInt64.le_antisymm hle (hord ▸ hlow q' hq' hk' hkey)

end Gpu
end AxisBridge
