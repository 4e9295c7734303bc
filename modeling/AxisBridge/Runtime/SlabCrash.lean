import AxisBridge.Runtime.SlabDurable

/-! The slabs of successive processes on one directory, any number of them at a time, with a loss of
power at any point: which records are still in some block after a tick or a seal acknowledged
them. -/
namespace AxisBridge
open Function List Option Disk SlabBlock

/-- A record under the number of the block it went to. -/
structure SlabRecord where
  seq : ℤ
  bytes : Bytes

/-- A handle is a number on the thread that opened it. -/
abbrev SlabId := ℕ × ℤ

/-- A slab with the file that each of its blocks has open, under the block's path. Which records
were appended through it since it last acknowledged is kept for the sake of the statements only. -/
structure SlabHandle where
  slab : Slab
  files : String → Option ℕ
  pending : List SlabRecord

/-- The disk, and the slabs of the process that runs, with the number each thread gives out next.
The records that were ever acknowledged are kept for the statements. -/
structure SlabWorld where
  disk : Volume
  slabs : SlabId → Option SlabHandle
  next : ℕ → ℤ
  acked : List SlabRecord

/-- A process before its first call. -/
def SlabWorld.boot (d : Volume) (acked : List SlabRecord) : SlabWorld :=
  ⟨d, fun _ => none, fun _ => 1, acked⟩

inductive SlabAction
  | opened
  | append (k : SlabId) (bytes : Bytes)
  | tick
  | close
  | ended
  | crash

/-- A record or a range of memory is appended. -/
inductive Slab.Appends (s : Slab) (bytes : Bytes) (s' : Slab) (ops : List FileOp) : Prop
  | record {off} (h : slabAppend s bytes = some (s', off, ops)) : Slab.Appends s bytes s' ops
  | range {mem ptr off len offset} (hread : memReadRaw mem ptr off len = some bytes)
      (h : slabAppendRaw s mem ptr off len = some (s', offset, ops)) : Slab.Appends s bytes s' ops

section
variable [Sha256]

/-- What a call on the slab does to the disk. -/
inductive Slab.Calls (s : Slab) (ops : List FileOp) : Prop
  | append {bytes s'} (h : s.Appends bytes s' ops)
  | tick {now s' n} (h : slabTick now s = some (s', n, ops))
  | close {s' text} (h : slabSeal s = some (s', text, ops))

end

/-- After a call through a handle. -/
def SlabWorld.after (w : SlabWorld) (k : SlabId) (h : SlabHandle) (ops : List FileOp) (s : Slab)
    (pending acked : List SlabRecord) : SlabWorld :=
  let c := runOpen (w.disk, h.files) ops
  { w with disk := c.1, slabs := update w.slabs k (some ⟨s, c.2, pending⟩), acked := acked }

section
variable [Sha256]

/-- One call of the process that runs, the end of one of its threads or of all, or a loss of power,
between two calls or at some point of one. -/
inductive SlabStep (dir : String) : SlabAction → SlabWorld → SlabWorld → Prop
  | opened {w t slaUs blockBytes s} (hopen : slabOpen w.disk dir slaUs blockBytes = some s)
      (hnext : w.next t + 1 < 2 ^ 63) :
      SlabStep dir .opened w
        { w with
          slabs := update w.slabs (t, w.next t) (some ⟨s, fun _ => none, []⟩)
          next := update w.next t (w.next t + 1) }
  | append {w k h bytes s a ops} (hslab : w.slabs k = some h) (happend : h.slab.Appends bytes s ops)
      (hactive : s.active = some a) :
      SlabStep dir (.append k bytes) w
        (w.after k h ops s (h.pending ++ [⟨a.seq, bytes⟩]) w.acked)
  | gated {w k h now s n ops} (hslab : w.slabs k = some h)
      (htick : slabTick now h.slab = some (s, n, ops)) (hgated : n < 0) :
      SlabStep dir .tick w (w.after k h ops s h.pending w.acked)
  | ticked {w k h now s n ops} (hslab : w.slabs k = some h)
      (htick : slabTick now h.slab = some (s, n, ops)) (hswept : 0 ≤ n) :
      SlabStep dir .tick w (w.after k h ops s [] (w.acked ++ h.pending))
  | closed {w k h s text ops} (hslab : w.slabs k = some h)
      (hseal : slabSeal h.slab = some (s, text, ops)) :
      SlabStep dir .close w (w.after k h ops s [] (w.acked ++ h.pending))
  | left {w} (t : ℕ) :
      SlabStep dir .ended w { w with slabs := fun k => if k.1 = t then none else w.slabs k }
  | ended {w} : SlabStep dir .ended w (.boot w.disk w.acked)
  | crash {w} : SlabStep dir .crash w (.boot w.disk.crash w.acked)
  | crashIn {w k h ops ops'} (hslab : w.slabs k = some h) (hcall : h.slab.Calls ops)
      (hpre : ops' <+: ops) :
      SlabStep dir .crash w (.boot (runOpen (w.disk, h.files) ops').1.crash w.acked)

end

/-- Some record with bytes has the number. -/
def Noted (rs : List SlabRecord) (seq : ℤ) : Prop := ∃ r ∈ rs, r.bytes ≠ [] ∧ r.seq = seq

/-- An append that needs a new block finds no acknowledged bytes under the number it mints, and no
block that a handle has yet to seal. -/
def MintsOverNothing (w : SlabWorld) : SlabAction → Prop
  | .append k bytes =>
    ∀ h, w.slabs k = some h → h.slab.Mints bytes.length →
      ¬ Noted w.acked h.slab.nextSeq ∧
        ∀ k' h', w.slabs k' = some h' → ∀ b ∈ h'.slab.unsealed, b.seq ≠ h.slab.nextSeq
  | _ => True

theorem Slab.Appends.slabAppend {s s' : Slab} {bytes : Bytes} {ops : List FileOp}
    (h : s.Appends bytes s' ops) : ∃ off, AxisBridge.slabAppend s bytes = some (s', off, ops) := by
  cases h with
  | record h => exact ⟨_, h⟩
  | range hread h => exact ⟨_, slabAppendRaw_eq_some h hread⟩

/-- The record is in one of the blocks. -/
def SlabRecord.In (bs : List SlabBlock) (r : SlabRecord) : Prop :=
  ∃ b ∈ bs, b.seq = r.seq ∧ r.bytes <:+: b.hasher

theorem SlabRecord.In.write {bs : List SlabBlock} {a : SlabBlock} {r : SlabRecord}
    (bytes : Bytes) (h : r.In (bs ++ [a])) : r.In (bs ++ [a.write bytes]) := by
  obtain ⟨b, hb, hseq, hin⟩ := h
  rcases mem_append.mp hb with hold | hlast
  · exact ⟨b, mem_append_left _ hold, hseq, hin⟩
  · cases mem_singleton.mp hlast
    have hpre : a.hasher <+: (a.write bytes).hasher := prefix_append _ _
    exact ⟨a.write bytes, by simp, hseq, hin.trans hpre.isInfix⟩

theorem SlabRecord.in_write (bs : List SlabBlock) (a : SlabBlock) (bytes : Bytes) :
    (⟨a.seq, bytes⟩ : SlabRecord).In (bs ++ [a.write bytes]) :=
  ⟨a.write bytes, by simp, rfl, (suffix_append _ _).isInfix⟩

/-- Stable storage has the bytes of every record that was acknowledged. -/
def Secured (dir : String) (d : Volume) (acked : List SlabRecord) : Prop :=
  ∀ r ∈ acked, r.bytes ≠ [] → d.Held (blockNames dir r.seq) r.bytes

section
variable {dir : String} {d : Volume} {s s' : Slab} {acked : List SlabRecord}
  {bytes : Bytes} {ops : List FileOp} {seq : ℤ}

theorem Noted.mono {more : List SlabRecord} (h : Noted acked seq) (hsub : acked ⊆ more) :
    Noted more seq := by
  obtain ⟨r, hr, hrest⟩ := h
  exact ⟨r, hsub hr, hrest⟩

/-- An append leaves acknowledged bytes alone unless it mints over them. -/
theorem safe_append {off : ℤ} (hunder : s.dir = dir) (hsafe : Secured dir d acked)
    (happend : slabAppend s bytes = some (s', off, ops))
    (hok : s.Mints bytes.length → ¬ Noted acked s.nextSeq) : Secured dir (d.run ops) acked := by
  intro r hr hne
  refine (hsafe r hr hne).run ?_
  rcases slabAppend_cases happend with ⟨a, -, -, heq⟩ | ⟨hmints, -, heq⟩
  · cases heq
    exact ⟨trivial, trivial⟩
  · cases heq
    refine ⟨?_, trivial, trivial, trivial⟩
    intro hname
    rw [hunder] at hname
    exact hok hmints ⟨r, hr, hne, (blockNames_partPath hname).symm⟩

/-- An append syncs no directory, and makes names of its own only. -/
theorem harmless_append {off : ℤ} (hdir : dir ≠ "") (hunder : s.dir = dir)
    (happend : slabAppend s bytes = some (s', off, ops)) :
    ∀ op ∈ ops, op.SyncsNoDir ∧ op.Within (inDirOf dir) := by
  intro op hop
  rcases slabAppend_cases happend with ⟨a, -, -, heq⟩ | ⟨-, -, heq⟩
  · cases heq
    rw [mem_singleton.mp hop]
    exact ⟨trivial, trivial⟩
  · cases heq
    simp only [hunder, mem_cons, not_mem_nil, or_false] at hop
    rcases hop with rfl | rfl | rfl
    · exact ⟨trivial, trivial⟩
    · exact ⟨trivial, inDirOf_partPath hdir⟩
    · exact ⟨trivial, trivial⟩

theorem Secured.run (h : Secured dir d acked) (hcareful : Careful dir d ops) :
    Secured dir (d.run ops) acked := by
  intro r hr hne
  exact (h r hr hne).run (hcareful.spares r.seq)

theorem Secured.append {pending : List SlabRecord} (h : Secured dir d acked)
    (hpending : Secured dir d pending) : Secured dir d (acked ++ pending) := by
  intro r hr
  rcases mem_append.mp hr with hold | hnew
  · exact h r hold
  · exact hpending r hnew

/-- A record has what its block has. -/
theorem held_of_in {bs : List SlabBlock} {r : SlabRecord}
    (hheld : ∀ b ∈ bs, b.hasher ≠ [] → d.Held (blockNames dir b.seq) b.hasher) (hr : r.In bs)
    (hne : r.bytes ≠ []) : d.Held (blockNames dir r.seq) r.bytes := by
  obtain ⟨b, hb, hseq, hin⟩ := hr
  have hhasher : b.hasher ≠ [] := by
    intro hempty
    rw [hempty, infix_nil] at hin
    exact hne hin
  rw [← hseq]
  exact (hheld b hb hhasher).mono hin

/-! ### The blocks of a slab -/

/-- The blocks of a slab have numbers that increase, and count what they hashed; a full one has
bytes. -/
structure Slab.Tally (s : Slab) : Prop where
  increasing : (s.unsealed.map SlabBlock.seq).Pairwise (· < ·)
  next : ∀ b ∈ s.unsealed, b.seq < s.nextSeq
  unflushed : ∀ b ∈ s.unsealed, 0 ≤ b.unflushed
  len : ∀ b ∈ s.unsealed, b.len = b.hasher.length
  full : ∀ b ∈ s.fullPending, b.hasher ≠ []

theorem Slab.Tally.hasher_ne {b : SlabBlock} (h : s.Tally) (hb : b ∈ s.unsealed)
    (hlen : b.len ≠ 0) : b.hasher ≠ [] := by
  intro hempty
  have hzero := h.len b hb
  rw [hempty] at hzero
  exact hlen hzero

theorem Slab.Tally.append {off : ℤ} (h : s.Tally)
    (happend : slabAppend s bytes = some (s', off, ops)) : s'.Tally := by
  rcases slabAppend_cases happend with ⟨a, hactive, -, heq⟩ | ⟨hmints, -, heq⟩
  · cases heq
    have hunsealed : s.unsealed = s.fullPending ++ [a] := by simp [Slab.unsealed, hactive]
    have ha : a ∈ s.unsealed := hunsealed ▸ mem_append_right _ mem_cons_self
    have hold : ∀ b ∈ s.fullPending ++ [a.write bytes], b ∈ s.unsealed ∨ b = a.write bytes := by
      intro b hb
      rw [hunsealed]
      grind
    have hincreasing := h.increasing
    rw [hunsealed, map_append] at hincreasing
    refine ⟨?_, ?_, ?_, ?_, h.full⟩
    · show ((s.fullPending ++ [a.write bytes]).map seq).Pairwise (· < ·)
      rw [map_append]
      exact hincreasing
    · intro b hb
      rcases hold b hb with hb | rfl
      · exact h.next b hb
      · exact h.next a ha
    · intro b hb
      rcases hold b hb with hb | rfl
      · exact h.unflushed b hb
      · have hle := h.unflushed a ha
        simp only [write]
        omega
    · intro b hb
      rcases hold b hb with hb | rfl
      · exact h.len b hb
      · simp [write, h.len a ha]
  · cases heq
    have hold : ∀ b ∈ s.unsealed ++ [(newBlock s.dir s.nextSeq).write bytes],
        b ∈ s.unsealed ∨ b = (newBlock s.dir s.nextSeq).write bytes := by
      intro b hb
      simpa using hb
    refine ⟨?_, ?_, ?_, ?_, ?_⟩
    · show ((s.unsealed ++ [(newBlock s.dir s.nextSeq).write bytes]).map seq).Pairwise (· < ·)
      rw [map_append, pairwise_append]
      refine ⟨h.increasing, pairwise_singleton _ _, ?_⟩
      intro seq hseq last hlast
      obtain ⟨b, hb, rfl⟩ := mem_map.mp hseq
      rw [mem_singleton.mp hlast]
      exact h.next b hb
    · intro b hb
      show b.seq < s.nextSeq + 1
      rcases hold b hb with hb | rfl
      · have hlt := h.next b hb
        omega
      · exact Int.lt_succ_self _
    · intro b hb
      rcases hold b hb with hb | rfl
      · exact h.unflushed b hb
      · simp [write, newBlock]
    · intro b hb
      rcases hold b hb with hb | rfl
      · exact h.len b hb
      · simp [write, newBlock]
    · intro b hb
      have hb' : b ∈ s.unsealed := hb
      rcases mem_append.mp hb' with hfull | hlast
      · exact h.full b hfull
      · exact h.hasher_ne hb' (hmints b (mem_toList.mp hlast)).1.ne'

/-- Of the blocks one is left at most, synced or as it was. -/
theorem Slab.Tally.rest {rest : Option SlabBlock} (h : s.Tally) (hfull : s'.fullPending = [])
    (hactive : s'.active = rest ∨ s'.active = rest.map SlabBlock.flushed)
    (hsub : rest.toList ⊆ s.unsealed) (hnext : s'.nextSeq = s.nextSeq) : s'.Tally := by
  cases rest with
  | none =>
    have hnone : s'.unsealed = [] := by simp [Slab.unsealed, hfull, or_self_iff.mp hactive]
    constructor <;> simp [hnone, hfull]
  | some a =>
    have ha := hsub mem_cons_self
    have hle := h.unflushed a ha
    have hlt := hnext ▸ h.next a ha
    rcases hactive with hactive | hactive
    · have hone : s'.unsealed = [a] := by simp [Slab.unsealed, hfull, hactive]
      constructor <;> simp [hone, hfull, hle, hlt, h.len a ha]
    · have hone : s'.unsealed = [a.flushed] := by simp [Slab.unsealed, hfull, hactive]
      constructor <;> simp [hone, hfull, unflushed_flushed hle, hlt, h.len a ha]

end

section
variable {dir : String} {d : Volume} {s s' : Slab} {hd : SlabHandle} {w : SlabWorld}
  {acked acked' : List SlabRecord} {bytes : Bytes} {ops : List FileOp}

/-- A handle of the process that runs: its open files are those of its blocks that are not sealed,
the records that wait for an acknowledgement are in these, and a name it has yet to give is taken by
acknowledged bytes at most. -/
structure SlabHandle.Live (dir : String) (d : Volume) (acked : List SlabRecord)
    (hd : SlabHandle) : Prop where
  under : hd.slab.dir = dir
  tally : hd.slab.Tally
  ready : Sealable dir d hd.slab.unsealed
  attached : ∀ b ∈ hd.slab.unsealed, hd.files b.path = d.inode b.path
  waiting : ∀ r ∈ hd.pending, r.In hd.slab.unsealed
  noted : ∀ b ∈ hd.slab.unsealed, b.hasher ≠ [] → Noted (acked ++ hd.pending) b.seq
  taken : ∀ seq, hd.slab.nextSeq ≤ seq → seq < 2 ^ 63 → d.inode (sealedPath dir seq) ≠ none →
    Noted acked seq

/-- A call through the handle, over the numbers it touches: it leaves the names of all others alone,
and gives a name to acknowledged bytes only. -/
structure SlabHandle.Does (dir : String) (d : Volume) (acked : List SlabRecord)
    (hd : SlabHandle) (ops : List FileOp) (touched : ℤ → Prop) (s : Slab)
    (pending acked' : List SlabRecord) : Prop where
  attached : Attached (d, hd.files) ops
  within : ∀ op ∈ ops, op.Within (inDirOf dir)
  avoids : ∀ seq p, ¬ touched seq → blockNames dir seq p → ∀ op ∈ ops, op.Avoids p
  touched : ∀ b ∈ s.unsealed, touched b.seq
  more : acked ⊆ acked'
  secured : Secured dir (d.run ops) acked'
  taken : ∀ seq, (d.run ops).inode (sealedPath dir seq) ≠ none →
    d.inode (sealedPath dir seq) ≠ none ∨ Noted acked' seq
  live : SlabHandle.Live dir (d.run ops) acked' ⟨s, (Disk.runOpen (d, hd.files) ops).2, pending⟩

/-- No two handles have a block of one number. -/
structure SlabWorld.Safe (dir : String) (w : SlabWorld) : Prop where
  tidy : w.disk.Tidy (inDirOf dir)
  acked : Secured dir w.disk w.acked
  live : ∀ k hd, w.slabs k = some hd → hd.Live dir w.disk w.acked
  apart : ∀ k hd k' hd', w.slabs k = some hd → w.slabs k' = some hd' → k ≠ k' →
    ∀ b ∈ hd.slab.unsealed, ∀ b' ∈ hd'.slab.unsealed, b.seq ≠ b'.seq

theorem SlabHandle.live_slabOpen {slaUs blockBytes : ℤ} (htidy : d.Tidy (inDirOf dir))
    (h : slabOpen d dir slaUs blockBytes = some s) :
    SlabHandle.Live dir d acked ⟨s, fun _ => none, []⟩ := by
  obtain ⟨hdir, -, hunsealed, -, hlow, hpast⟩ := slabOpen_eq_some h
  have hnone : ∀ b ∈ s.unsealed, False := by simp [hunsealed]
  have hpending : s.fullPending = [] := (append_eq_nil_iff.mp hunsealed).1
  refine ⟨hdir, ?_, hunsealed ▸ Sealable.nil htidy, fun b hb => (hnone b hb).elim, nofun,
    fun b hb => (hnone b hb).elim, ?_⟩
  · constructor <;> simp [hunsealed, hpending]
  · intro seq hle hlt hinode
    have hfrom : s.nextSeq ≤ seq := hle
    obtain ⟨i, hi⟩ := ne_none_iff_exists'.mp hinode
    have hseq := hpast seq (sealedSeq_mem_readDir (by omega) hlt hi)
    omega

/-! ### The calls through a handle -/

/-- The numbers of the blocks that are not sealed, and of the one that is minted. -/
def Slab.Touches (s : Slab) (minted : Prop) (seq : ℤ) : Prop :=
  (∃ b ∈ s.unsealed, b.seq = seq) ∨ minted ∧ seq = s.nextSeq

/-- An append finds the file of the active block, or opens one. -/
theorem SlabHandle.Live.attached_append {off : ℤ} (h : hd.Live dir d acked)
    (happend : slabAppend hd.slab bytes = some (s', off, ops)) :
    Disk.Attached (d, hd.files) ops := by
  rcases slabAppend_cases happend with ⟨a, hactive, -, heq⟩ | ⟨-, -, heq⟩
  · cases heq
    exact ⟨h.attached a (mem_append_right _ (mem_toList.mpr hactive)), trivial⟩
  · cases heq
    exact ⟨trivial, trivial, update_self .., trivial⟩

theorem SlabHandle.Live.append {a : SlabBlock} {off : ℤ} (hdir : dir ≠ "")
    (h : hd.Live dir d acked) (hsafe : Secured dir d acked)
    (happend : slabAppend hd.slab bytes = some (s', off, ops)) (hactive : s'.active = some a)
    (hok : hd.slab.Mints bytes.length → ¬ Noted acked hd.slab.nextSeq) :
    hd.Does dir d acked ops (hd.slab.Touches (hd.slab.Mints bytes.length)) s'
      (hd.pending ++ [⟨a.seq, bytes⟩]) acked := by
  have htally := h.tally.append happend
  have hwithin := fun op hop => (harmless_append hdir h.under happend op hop).2
  have hattached := h.attached_append happend
  have hsecured := safe_append h.under hsafe happend hok
  obtain rfl := h.under
  rcases slabAppend_cases happend with ⟨a', hactive', -, heq⟩ | ⟨hmints, hfits, heq⟩
  · cases heq
    cases hactive
    have hunsealed : hd.slab.unsealed = hd.slab.fullPending ++ [a'] := by
      simp [Slab.unsealed, hactive']
    have ha : a' ∈ hd.slab.unsealed := hunsealed ▸ mem_append_right _ mem_cons_self
    have hready : Sealable hd.slab.dir d (hd.slab.fullPending ++ [a']) := hunsealed ▸ h.ready
    have hold : ∀ b ∈ hd.slab.fullPending ++ [a'.write bytes],
        b ∈ hd.slab.unsealed ∨ b = a'.write bytes := by
      intro b hb
      rw [hunsealed]
      grind
    have hinode : ∀ p, (d.append a'.path bytes).inode p = d.inode p := fun p => inode_modify
    refine ⟨hattached, hwithin, ?_, ?_, Subset.refl _, hsecured, ?_, rfl, htally,
      hready.write (h.tally.unflushed a' ha) bytes, ?_, ?_, ?_, ?_⟩
    · intro seq p hseq hp op hop
      rw [mem_singleton.mp hop, h.ready.path a' ha]
      exact (blockNames_ne hp fun heq => hseq (.inl ⟨a', ha, heq⟩)).1
    · intro b hb
      rcases hold b hb with hb | rfl
      · exact .inl ⟨b, hb, rfl⟩
      · exact .inl ⟨a', ha, rfl⟩
    · intro seq htaken
      exact .inl ((hinode _).symm ▸ htaken)
    · intro b hb
      rcases hold b hb with hb | rfl
      · exact (h.attached b hb).trans (hinode _).symm
      · exact (h.attached a' ha).trans (hinode _).symm
    · intro r hr
      rcases mem_append.mp hr with hold | hnew
      · exact (hunsealed ▸ h.waiting r hold).write bytes
      · rw [mem_singleton.mp hnew]
        exact SlabRecord.in_write _ a' bytes
    · intro b hb hne
      rw [← append_assoc]
      rcases hold b hb with hb | rfl
      · exact (h.noted b hb hne).mono (subset_append_left _ _)
      · rcases eq_or_ne bytes [] with rfl | hbytes
        · rw [write, append_nil] at hne
          exact (h.noted a' ha hne).mono (subset_append_left _ _)
        · exact ⟨⟨a'.seq, bytes⟩, mem_append_right _ mem_cons_self, hbytes, rfl⟩
    · intro seq hle hlt htaken
      exact h.taken seq hle hlt ((hinode _).symm ▸ htaken)
  · cases heq
    cases hactive
    have hnew := hok hmints
    have hfresh : d.inode (sealedPath hd.slab.dir hd.slab.nextSeq) = none := by
      by_contra htaken
      exact hnew (h.taken _ (le_refl _) (by omega) htaken)
    have hminted := h.ready.mint hdir (fun b hb => (h.tally.next b hb).ne) hfresh
    have hready := hminted.write (le_refl 0) bytes
    have hold : ∀ b ∈ hd.slab.unsealed ++ [(newBlock hd.slab.dir hd.slab.nextSeq).write bytes],
        b ∈ hd.slab.unsealed ∨ b = (newBlock hd.slab.dir hd.slab.nextSeq).write bytes := by
      intro b hb
      simpa using hb
    have hinode : ∀ p ≠ partPath hd.slab.dir hd.slab.nextSeq,
        (d.run (appendedNew hd.slab bytes).2.2).inode p = d.inode p := by
      intro p hne
      show ((((d.remove _).create _).append _ _).inode p) = _
      rw [append, inode_modify, inode_create_ne hne, inode_remove_ne hne]
    refine ⟨hattached, hwithin, ?_, ?_, Subset.refl _, hsecured, ?_,
      rfl, htally, hready, ?_, ?_, ?_, ?_⟩
    · intro seq p hseq hp op hop
      have hne := (blockNames_ne hp fun heq => hseq (.inr ⟨hmints, heq.symm⟩)).1
      simp only [mem_cons, not_mem_nil, or_false] at hop
      rcases hop with rfl | rfl | rfl <;> exact hne
    · intro b hb
      rcases hold b hb with hb | rfl
      · exact .inl ⟨b, hb, rfl⟩
      · exact .inr ⟨hmints, rfl⟩
    · intro seq htaken
      exact .inl (hinode _ sealedPath_ne_partPath ▸ htaken)
    · intro b hb
      rcases hold b hb with hb | rfl
      · have hne : b.path ≠ partPath hd.slab.dir hd.slab.nextSeq := by
          rw [h.ready.path b hb]
          exact fun heq => (h.tally.next b hb).ne (partPath_inj heq)
        exact (update_of_ne hne _ _).trans ((h.attached b hb).trans (hinode _ hne).symm)
      · exact (update_self ..).trans inode_modify.symm
    · intro r hr
      rcases mem_append.mp hr with hold | hlast
      · obtain ⟨b, hb, hrest⟩ := h.waiting r hold
        exact ⟨b, mem_append_left _ hb, hrest⟩
      · rw [mem_singleton.mp hlast]
        exact SlabRecord.in_write _ (newBlock hd.slab.dir hd.slab.nextSeq) bytes
    · intro b hb hne
      rw [← append_assoc]
      rcases hold b hb with hb | rfl
      · exact (h.noted b hb hne).mono (subset_append_left _ _)
      · exact ⟨_, mem_append_right _ mem_cons_self, hne, rfl⟩
    · intro seq hle hlt htaken
      have hnext : hd.slab.nextSeq + 1 ≤ seq := hle
      exact h.taken seq (by omega) hlt (hinode _ sealedPath_ne_partPath ▸ htaken)

/-- A sweep leaves every name alone but those of the blocks it seals. -/
theorem inode_run_sweepOps {bs : List SlabBlock} {active : Option SlabBlock} {p : String}
    (hsound : d.Sound) (h : ∀ op ∈ bs.flatMap (sealOps dir), op.Avoids p) :
    (d.run (sweepOps dir bs active)).inode p = d.inode p := by
  rw [sweepOps, run_append]
  refine Eq.trans ?_ (Disk.Untouched.run hsound h).inode
  cases active with
  | none => rfl
  | some a => rw [flatMap_flushOps_some, inode_run_flushOps]

/-- A call that seals the blocks `bs`, syncs `active` and leaves `rest`. -/
theorem SlabHandle.Live.sweeps {bs : List SlabBlock} {active rest : Option SlabBlock}
    (h : hd.Live dir d acked) (hsafe : Secured dir d acked)
    (hsplit : hd.slab.unsealed = bs ++ rest.toList) (hactive : active = none ∨ active = rest)
    (hbytes : ∀ b ∈ bs, b.hasher ≠ []) (hcareful : Careful dir d (sweepOps dir bs active))
    (hattached : Disk.Attached (d, hd.files) (sweepOps dir bs active))
    (hpending : Secured dir (d.run (sweepOps dir bs active)) hd.pending)
    (hunder : s'.dir = dir) (hnext : s'.nextSeq = hd.slab.nextSeq) (hfull : s'.fullPending = [])
    (hrest : s'.active = rest ∨ s'.active = rest.map SlabBlock.flushed)
    (hready : Sealable dir (d.run (sweepOps dir bs active)) s'.active.toList) :
    hd.Does dir d acked (sweepOps dir bs active) (hd.slab.Touches False) s' []
      (acked ++ hd.pending) := by
  have hsound := h.ready.tidy.sound
  have hsub : rest.toList ⊆ hd.slab.unsealed := hsplit ▸ subset_append_right _ _
  have hmem : ∀ b ∈ bs, b ∈ hd.slab.unsealed := fun b hb => hsplit ▸ mem_append_left _ hb
  have hlast : ∀ b ∈ active.toList, b ∈ hd.slab.unsealed := by
    rcases hactive with rfl | rfl
    · exact forall_mem_nil _
    · exact hsub
  have hunsealed : s'.unsealed = s'.active.toList := by simp [Slab.unsealed, hfull]
  have hkept : ∀ b ∈ s'.unsealed, ∃ a ∈ rest.toList, b.path = a.path ∧ b.seq = a.seq ∧
      b.hasher = a.hasher := by
    rw [hunsealed]
    rcases hrest with heq | heq
    · rw [heq]
      exact fun b hb => ⟨b, hb, rfl, rfl, rfl⟩
    · rw [heq]
      intro b hb
      obtain ⟨a, ha, rfl⟩ := mem_map.mp (mem_toList.mp hb)
      exact ⟨a, mem_toList.mpr ha, path_flushed a, seq_flushed a, hasher_flushed a⟩
  have htaken : ∀ seq, (d.run (sweepOps dir bs active)).inode (sealedPath dir seq) ≠ none →
      d.inode (sealedPath dir seq) ≠ none ∨ Noted (acked ++ hd.pending) seq := by
    intro seq hinode
    by_cases hseq : ∃ b ∈ bs, b.seq = seq
    · obtain ⟨b, hb, rfl⟩ := hseq
      exact .inr (h.noted b (hmem b hb) (hbytes b hb))
    · refine .inl ?_
      rwa [inode_run_sweepOps hsound] at hinode
      intro op hop
      obtain ⟨b, hb, hop⟩ := mem_flatMap.mp hop
      exact avoids_sealOps (h.ready.path b (hmem b hb)) (.inr rfl)
        (fun heq => hseq ⟨b, hb, heq⟩) op hop
  refine ⟨hattached, hcareful.within, ?_, ?_, subset_append_left _ _,
    (hsafe.run hcareful).append hpending, htaken, hunder, h.tally.rest hfull hrest hsub hnext,
    hunsealed ▸ hready, ?_, forall_mem_nil _, ?_, ?_⟩
  · intro seq p hseq hp
    have hall : ∀ b ∈ bs ++ active.toList, b ∈ hd.slab.unsealed := by
      intro b hb
      exact (mem_append.mp hb).elim (hmem b) (hlast b)
    exact avoids_sweepOps (fun b hb => h.ready.path b (hall b hb)) hp
      fun b hb heq => hseq (.inl ⟨b, hall b hb, heq⟩)
  · intro b hb
    obtain ⟨a, ha, -, hseq, -⟩ := hkept b hb
    exact .inl ⟨a, hsub ha, hseq.symm⟩
  · intro b hb
    obtain ⟨a, ha, hpath, -, -⟩ := hkept b hb
    rw [runOpen_snd opens_sweepOps, hpath, inode_run_sweepOps hsound]
    · exact h.attached a (hsub ha)
    · intro op hop
      obtain ⟨b', hb', hop⟩ := mem_flatMap.mp hop
      have hseqs := h.ready.nodup
      rw [hsplit, map_append] at hseqs
      have hne := (nodup_append.mp hseqs).2.2 b'.seq (mem_map_of_mem hb') a.seq (mem_map_of_mem ha)
      exact avoids_sealOps (h.ready.path b' (hmem b' hb'))
        (.inl (h.ready.path a (hsub ha))) hne op hop
  · intro b hb hne
    obtain ⟨a, ha, -, hseq, hhasher⟩ := hkept b hb
    rw [append_nil, hseq]
    exact h.noted a (hsub ha) (hhasher ▸ hne)
  · intro seq hle hlt hinode
    rcases htaken seq hinode with hbefore | hnoted
    · exact (h.taken seq (hnext ▸ hle) hlt hbefore).mono (subset_append_left _ _)
    · exact hnoted

/-- A call through another handle. -/
theorem SlabHandle.Live.frame {hd' : SlabHandle} {touched : ℤ → Prop} {pending : List SlabRecord}
    (h : hd'.Live dir d acked) (hdoes : hd.Does dir d acked ops touched s pending acked')
    (hother : ∀ b ∈ hd'.slab.unsealed, ¬ touched b.seq) : hd'.Live dir (d.run ops) acked' := by
  refine ⟨h.under, h.tally, h.ready.frame (h.ready.tidy.run hdoes.within) ?_, ?_, h.waiting, ?_, ?_⟩
  · intro b hb p hp
    exact hdoes.avoids b.seq p (hother b hb) hp
  · intro b hb
    have hpart : blockNames dir b.seq b.path := .inl (h.ready.path b hb)
    have hsame := Disk.Untouched.run h.ready.tidy.sound (hdoes.avoids _ _ (hother b hb) hpart)
    exact (h.attached b hb).trans hsame.inode.symm
  · intro b hb hne
    refine (h.noted b hb hne).mono (append_subset.mpr ⟨fun r hr => ?_, subset_append_right _ _⟩)
    exact mem_append_left _ (hdoes.more hr)
  · intro seq hle hlt hinode
    rcases hdoes.taken seq hinode with hbefore | hnoted
    · exact (h.taken seq hle hlt hbefore).mono hdoes.more
    · exact hnoted

theorem SlabWorld.Safe.after {k : SlabId} {touched : ℤ → Prop} {pending : List SlabRecord}
    (h : w.Safe dir) (hslab : w.slabs k = some hd)
    (hdoes : hd.Does dir w.disk w.acked ops touched s pending acked')
    (hother : ∀ k' hd', k' ≠ k → w.slabs k' = some hd' → ∀ b ∈ hd'.slab.unsealed, ¬ touched b.seq) :
    (w.after k hd ops s pending acked').Safe dir := by
  have hrun : (Disk.runOpen (w.disk, hd.files) ops).1 = w.disk.run ops :=
    Disk.runOpen_fst hdoes.attached
  constructor
  · show Disk.Tidy (inDirOf dir) (Disk.runOpen (w.disk, hd.files) ops).1
    rw [hrun]
    exact h.tidy.run hdoes.within
  · show Secured dir (runOpen (w.disk, hd.files) ops).1 acked'
    rw [hrun]
    exact hdoes.secured
  · intro k' hd' hk'
    show hd'.Live dir (runOpen (w.disk, hd.files) ops).1 acked'
    rw [hrun]
    rcases eq_or_ne k' k with rfl | hne
    · cases (update_self ..).symm.trans hk'
      exact hdoes.live
    · have hold := (update_of_ne hne _ _).symm.trans hk'
      exact (h.live k' hd' hold).frame hdoes (hother k' hd' hne hold)
  · intro k₁ h₁ k₂ h₂ hk₁ hk₂ hne b₁ hb₁ b₂ hb₂ heq
    rcases eq_or_ne k₁ k with rfl | hne₁
    · cases (update_self ..).symm.trans hk₁
      have hold := (update_of_ne hne.symm _ _).symm.trans hk₂
      exact hother k₂ h₂ hne.symm hold b₂ hb₂ (heq ▸ hdoes.touched b₁ hb₁)
    · have hold₁ := (update_of_ne hne₁ _ _).symm.trans hk₁
      rcases eq_or_ne k₂ k with rfl | hne₂
      · cases (update_self ..).symm.trans hk₂
        exact hother k₁ h₁ hne₁ hold₁ b₁ hb₁ (heq ▸ hdoes.touched b₂ hb₂)
      · have hold₂ := (update_of_ne hne₂ _ _).symm.trans hk₂
        exact h.apart k₁ h₁ k₂ h₂ hold₁ hold₂ hne b₁ hb₁ b₂ hb₂ heq

theorem SlabWorld.safe_boot (htidy : d.Tidy (inDirOf dir)) (hacked : Secured dir d acked) :
    (SlabWorld.boot d acked).Safe dir :=
  ⟨htidy, hacked, fun _ _ hk => (some_ne_none _ hk.symm).elim,
    fun _ _ _ _ hk => (some_ne_none _ hk.symm).elim⟩

/-- The blocks of the other handles have numbers of their own. -/
theorem SlabWorld.Safe.not_touched {k : SlabId} {minted : Prop} (h : w.Safe dir)
    (hslab : w.slabs k = some hd)
    (hminted : minted → ∀ k' hd', w.slabs k' = some hd' → ∀ b ∈ hd'.slab.unsealed,
      b.seq ≠ hd.slab.nextSeq) :
    ∀ k' hd', k' ≠ k → w.slabs k' = some hd' → ∀ b ∈ hd'.slab.unsealed,
      ¬ hd.slab.Touches minted b.seq := by
  rintro k' hd' hne hslab' b hb (⟨b', hb', heq⟩ | ⟨hmints, heq⟩)
  · exact h.apart k' hd' k hd hslab' hslab hne b hb b' hb' heq.symm
  · exact hminted hmints k' hd' hslab' b hb heq

end

section
variable [Sha256] {dir : String} {d : Volume} {s s' : Slab} {hd : SlabHandle}
  {acked : List SlabRecord} {bytes : Bytes} {ops : List FileOp} {w w' : SlabWorld}

/-- A tick within the period has no effect; any other puts all records on stable storage. -/
theorem SlabHandle.Live.tick {now : ℕ} {n : ℤ} (hdir : dir ≠ "") (h : hd.Live dir d acked)
    (hsafe : Secured dir d acked) (htick : slabTick now hd.slab = some (s', n, ops)) :
    Careful dir d ops ∧
      (n < 0 ∧ hd.Does dir d acked ops (hd.slab.Touches False) s' hd.pending acked ∨
        0 ≤ n ∧ hd.Does dir d acked ops (hd.slab.Touches False) s' [] (acked ++ hd.pending)) := by
  have hunflushed : ∀ b ∈ hd.slab.fullPending, 0 ≤ b.unflushed := fun b hb =>
    h.tally.unflushed b (mem_append_left _ hb)
  obtain rfl := h.under
  rcases slabTick_spec now hunflushed with heq | ⟨data, dirs, sweeps, m, hm, heq⟩
  · rw [heq] at htick
    cases htick
    refine ⟨Careful.nil, .inl ⟨by decide, trivial, nofun, nofun, ?_, Subset.refl _, hsafe,
      fun _ => .inl, rfl, ?_, h.ready, h.attached, h.waiting, h.noted, h.taken⟩⟩
    · exact fun b hb => .inl ⟨b, hb, rfl⟩
    · exact ⟨h.tally.increasing, h.tally.next, h.tally.unflushed, h.tally.len, h.tally.full⟩
  · rw [heq] at htick
    cases htick
    refine ⟨h.ready.careful_sweep hdir, .inr ⟨hm, ?_⟩⟩
    refine h.sweeps hsafe rfl (.inr rfl) h.tally.full (h.ready.careful_sweep hdir)
      (h.ready.attached_sweep hdir h.attached) ?_ rfl rfl rfl (.inr rfl) (h.ready.sweep hdir)
    intro r hr
    exact held_of_in (h.ready.held_sweep hdir h.tally.unflushed) (h.waiting r hr)

/-- The end of the stream puts all records on stable storage; it seals every block but one without
bytes. -/
theorem SlabHandle.Live.close {text : String} (hdir : dir ≠ "") (h : hd.Live dir d acked)
    (hsafe : Secured dir d acked) (hseal : slabSeal hd.slab = some (s', text, ops)) :
    Careful dir d ops ∧
      hd.Does dir d acked ops (hd.slab.Touches False) s' [] (acked ++ hd.pending) := by
  obtain rfl := h.under
  obtain ⟨bs, active, data, dirs, text', hunsealed, ⟨hempty, hbytes⟩, heq⟩ :=
    slabSeal_spec h.tally.unflushed
  rw [heq] at hseal
  cases hseal
  have hready : Sealable hd.slab.dir d (bs ++ active.toList) := hunsealed ▸ h.ready
  have hsub : bs ⊆ hd.slab.unsealed := hunsealed ▸ subset_append_left _ _
  have hops : sweepOps hd.slab.dir bs none = bs.flatMap (sealOps hd.slab.dir) := append_nil _
  have hcareful : Careful hd.slab.dir d (bs.flatMap (sealOps hd.slab.dir)) :=
    ⟨fun _ => hready.spares hdir, within_sealAll hdir fun b hb => h.ready.path b (hsub hb)⟩
  refine ⟨hcareful, ?_⟩
  rw [← hops] at hcareful ⊢
  refine h.sweeps hsafe hunsealed (.inl rfl) ?_ hcareful ?_ ?_ rfl rfl rfl (.inl rfl) ?_
  · intro b hb
    exact (hbytes b hb).elim (h.tally.full b) (h.tally.hasher_ne (hsub hb))
  · exact hops ▸ hready.attached hdir fun b hb => h.attached b (hsub hb)
  · intro r hr hne
    rw [hops]
    obtain ⟨b, hb, hseq, hin⟩ := h.waiting r hr
    rw [hunsealed, mem_append] at hb
    rcases hb with hsealed | hleft
    · have hheld := hready.held_sealAll hdir fun b hb => h.tally.unflushed b (hsub hb)
      exact held_of_in hheld ⟨b, hsealed, hseq, hin⟩ hne
    · have hlen := h.tally.len b (hunsealed ▸ mem_append_right _ hleft)
      rw [hempty b (mem_toList.mp hleft)] at hlen
      have hnil : b.hasher = [] := length_eq_zero_iff.mp (by exact_mod_cast hlen.symm)
      rw [hnil, infix_nil] at hin
      exact (hne hin).elim
  · exact hops ▸ hready.sealAll hdir

/-! ### Histories -/

/-- A loss of power in the middle of a call leaves acknowledged bytes. -/
theorem SlabWorld.Safe.crashIn {k : SlabId} {ops' : List FileOp} (hdir : dir ≠ "") (h : w.Safe dir)
    (hslab : w.slabs k = some hd) (hcall : hd.slab.Calls ops) (hpre : ops' <+: ops) :
    (SlabWorld.boot (Disk.runOpen (w.disk, hd.files) ops').1.crash w.acked).Safe dir := by
  have hlive := h.live k hd hslab
  have hsafe : ∀ {ops}, Careful dir w.disk ops → ops' <+: ops →
      (w.disk.run ops').Tidy (inDirOf dir) ∧ ∀ r ∈ w.acked, r.bytes ≠ [] →
        (w.disk.run ops').Kept (blockNames dir r.seq) r.bytes := by
    intro ops hcareful hpre
    exact ⟨h.tidy.run (hcareful.initial hpre).within, fun r hr hne =>
      ((h.acked r hr hne).run ((hcareful.initial hpre).spares r.seq)).kept⟩
  have hkept : Attached (w.disk, hd.files) ops ∧ (w.disk.run ops').Tidy (inDirOf dir) ∧
      ∀ r ∈ w.acked, r.bytes ≠ [] → (w.disk.run ops').Kept (blockNames dir r.seq) r.bytes := by
    cases hcall with
    | append happend =>
      obtain ⟨off, happend⟩ := happend.slabAppend
      refine ⟨?_, h.tidy.run fun op hop => ?_, fun r hr hne => ?_⟩
      · exact hlive.attached_append happend
      · exact (harmless_append hdir hlive.under happend op (hpre.subset hop)).2
      · refine (h.acked r hr hne).kept.run fun op hop => ?_
        exact (harmless_append hdir hlive.under happend op (hpre.subset hop)).1
    | tick htick =>
      obtain ⟨hcareful, ⟨-, hdoes⟩ | ⟨-, hdoes⟩⟩ := hlive.tick hdir h.acked htick
      · exact ⟨hdoes.attached, hsafe hcareful hpre⟩
      · exact ⟨hdoes.attached, hsafe hcareful hpre⟩
    | close hseal =>
      obtain ⟨hcareful, hdoes⟩ := hlive.close hdir h.acked hseal
      exact ⟨hdoes.attached, hsafe hcareful hpre⟩
  rw [Disk.runOpen_fst (hkept.1.initial hpre)]
  exact SlabWorld.safe_boot hkept.2.1.crash fun r hr hne => (hkept.2.2 r hr hne).crash hkept.2.1

theorem SlabWorld.Safe.step {a : SlabAction} (hdir : dir ≠ "") (h : w.Safe dir)
    (hok : MintsOverNothing w a) (hs : SlabStep dir a w w') : w'.Safe dir := by
  cases hs with
  | @opened _ t slaUs blockBytes s hopen hnext =>
    have hunsealed : s.unsealed = [] := (slabOpen_eq_some hopen).2.2.1
    have hcases : ∀ k hd, update w.slabs (t, w.next t) (some ⟨s, fun _ => none, []⟩) k = some hd →
        hd = ⟨s, fun _ => none, []⟩ ∨ w.slabs k = some hd := by
      intro k hd hk
      rcases eq_or_ne k (t, w.next t) with rfl | hne
      · rw [update_self] at hk
        exact .inl (some.inj hk).symm
      · rw [update_of_ne hne] at hk
        exact .inr hk
    refine ⟨h.tidy, h.acked, fun k hd hk => ?_, fun k hd k' hd' hk hk' hne b hb b' hb' => ?_⟩
    · rcases hcases k hd hk with rfl | hold
      · exact SlabHandle.live_slabOpen h.tidy hopen
      · exact h.live k hd hold
    · rcases hcases k hd hk with rfl | hold
      · simp [hunsealed] at hb
      · rcases hcases k' hd' hk' with rfl | hold'
        · simp [hunsealed] at hb'
        · exact h.apart k hd k' hd' hold hold' hne b hb b' hb'
  | append hslab happend hactive =>
    obtain ⟨off, happend⟩ := happend.slabAppend
    have hdoes := (h.live _ _ hslab).append hdir h.acked happend hactive fun hmints =>
      (hok _ hslab hmints).1
    exact h.after hslab hdoes (h.not_touched hslab fun hmints => (hok _ hslab hmints).2)
  | gated hslab htick hgated =>
    obtain ⟨-, ⟨-, hdoes⟩ | ⟨hswept, -⟩⟩ := (h.live _ _ hslab).tick hdir h.acked htick
    · exact h.after hslab hdoes (h.not_touched hslab False.elim)
    · omega
  | ticked hslab htick hswept =>
    obtain ⟨-, ⟨hgated, -⟩ | ⟨-, hdoes⟩⟩ := (h.live _ _ hslab).tick hdir h.acked htick
    · omega
    · exact h.after hslab hdoes (h.not_touched hslab False.elim)
  | closed hslab hseal =>
    obtain ⟨-, hdoes⟩ := (h.live _ _ hslab).close hdir h.acked hseal
    exact h.after hslab hdoes (h.not_touched hslab False.elim)
  | left t =>
    have hold : ∀ {k hd}, (if k.1 = t then none else w.slabs k) = some hd →
        w.slabs k = some hd := by
      intro k hd hk
      split at hk
      · cases hk
      · exact hk
    exact ⟨h.tidy, h.acked, fun k hd hk => h.live k hd (hold hk),
      fun k hd k' hd' hk hk' => h.apart k hd k' hd' (hold hk) (hold hk')⟩
  | ended => exact SlabWorld.safe_boot h.tidy h.acked
  | crash =>
    exact SlabWorld.safe_boot h.tidy.crash fun r hr hne => (h.acked r hr hne).kept.crash h.tidy
  | crashIn hslab hcall hpre => exact h.crashIn hdir hslab hcall hpre

end

attribute [local instance] textDigests

end AxisBridge
