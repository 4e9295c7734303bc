import AxisBridge.Lib.OpenFiles
import AxisBridge.Runtime.SlabBlock

/-! What stable storage has of the blocks that are not sealed, and of those that a call seals. -/
namespace AxisBridge
open List Disk

/-- The names of a block. -/
def blockNames (dir : String) (seq : ℤ) (p : String) : Prop :=
  p = partPath dir seq ∨ p = sealedPath dir seq

/-- A block's file has its bytes; they are synced unless the block says otherwise, and so is its
name once the block says so. -/
structure SlabBlock.Backed (d : Volume) (b : SlabBlock) : Prop where
  file : ∃ f, d.file b.path = some f ∧ f.data = b.hasher ∧
    (0 < b.unflushed ∨ b.hasher = [] ∨ b.dirSynced = true ∧ f.data.length ≤ f.synced)
  settled : b.dirSynced = true → d.Settled b.path

open SlabBlock (sealOps flushOps flushed)

open SlabBlock

variable {dir p : String} {d d' : Volume} {b b' : SlabBlock} {bs rest : List SlabBlock}
  {seq seq' : ℤ} {bytes : Bytes} {names : String → Prop}

theorem blockNames_partPath (h : blockNames dir seq (partPath dir seq')) : seq' = seq := by
  rcases h with h | h
  · exact partPath_inj h
  · exact (sealedPath_ne_partPath h.symm).elim

theorem blockNames_ne (h : blockNames dir seq p) (hne : seq' ≠ seq) :
    partPath dir seq' ≠ p ∧ sealedPath dir seq' ≠ p := by
  rcases h with rfl | rfl
  · exact ⟨fun heq => hne (partPath_inj heq), sealedPath_ne_partPath⟩
  · exact ⟨sealedPath_ne_partPath.symm, fun heq => hne (sealedPath_inj heq)⟩

theorem inDirOf_of_blockNames (hdir : dir ≠ "") (h : blockNames dir seq p) :
    inDirOf dir p = true := by
  rcases h with rfl | rfl
  · exact inDirOf_partPath hdir
  · exact inDirOf_sealedPath hdir

/-! ### One block -/

theorem SlabBlock.Backed.congr (h : b.Backed d) (hfile : d'.file b.path = d.file b.path)
    (hsettled : d.Settled b.path → d'.Settled b.path) : b.Backed d' :=
  ⟨by rw [hfile]; exact h.file, fun hsynced => hsettled (h.settled hsynced)⟩

/-- Bytes that are synced under a name that is can be found there after a loss of power. -/
theorem SlabBlock.Backed.held (h : b.Backed d) (hclean : ¬ 0 < b.unflushed) (hne : b.hasher ≠ [])
    (hname : names b.path) : d.Held names b.hasher := by
  obtain ⟨f, hfile, hdata, hstate⟩ := h.file
  rcases hstate with hdirty | hempty | ⟨hsynced, hlen⟩
  · exact (hclean hdirty).elim
  · exact (hne hempty).elim
  · obtain ⟨i, hi, hmem⟩ := h.settled hsynced
    have hf : d.files[i]? = some f := by simpa [Disk.file, hi] using hfile
    refine ⟨f, i, b.path, b.path, hf, ?_, hname, hi, hname, hmem⟩
    rw [take_of_length_le hlen, hdata]

theorem SlabBlock.Backed.write (hsound : d.Sound) (h : b.Backed d) (hunflushed : 0 ≤ b.unflushed)
    (bytes : Bytes) : (b.write bytes).Backed (d.append b.path bytes) := by
  constructor
  · obtain ⟨f, hfile, hdata, hstate⟩ := h.file
    refine ⟨{ f with data := f.data ++ bytes }, ?_, by simp [SlabBlock.write, hdata], ?_⟩
    · show (d.append b.path bytes).file b.path = _
      rw [Disk.append, Disk.file_modify_self, hfile]
      rfl
    · cases bytes with
      | nil => simpa [SlabBlock.write] using hstate
      | cons byte bytes =>
        left
        simp only [SlabBlock.write, length_cons]
        omega
  · intro hsynced
    exact (Disk.keeps_append hsound).settled _ (h.settled hsynced)

theorem SlabBlock.Backed.flush (hdir : dir ≠ "") (hsound : d.Sound) (h : b.Backed d)
    (hpath : b.path = partPath dir b.seq) : b.flushed.Backed (d.run b.flushOps) := by
  obtain ⟨f, hfile, hdata, hstate⟩ := h.file
  by_cases hdirty : 0 < b.unflushed
  · have hsync : (d.sync b.path).file b.path = some ⟨f.data, f.data.length⟩ := by
      rw [sync, file_modify_self, hfile]
      rfl
    have hinode : ((d.sync b.path).inode b.path).isSome = true := by
      cases hi : (d.sync b.path).inode b.path with
      | none => simp [Disk.file, hi] at hsync
      | some i => rfl
    have hin : inParentOf b.path b.path = true := by
      rw [hpath, inParentOf_partPath hdir]
      exact inDirOf_partPath hdir
    simp only [flushed, flushOps, if_pos hdirty]
    constructor
    · refine ⟨⟨f.data, f.data.length⟩, ?_, hdata, .inr (.inr ⟨rfl, le_refl _⟩)⟩
      split
      · exact hsync
      · exact hsync
    · intro _
      split
      · rename_i hsynced
        exact (keeps_sync hsound).settled _ (h.settled hsynced)
      · exact settled_syncDir hinode hin
  · simp only [flushed, flushOps, if_neg hdirty]
    exact h

theorem within_flushOps (hdir : dir ≠ "") (hpath : b.path = partPath dir b.seq) :
    ∀ op ∈ b.flushOps, op.Within (inDirOf dir) := by
  intro op hop
  unfold flushOps at hop
  split at hop
  · rcases mem_cons.mp hop with rfl | hop
    · trivial
    · split at hop
      · cases hop
      · rw [mem_singleton.mp hop, hpath, inParentOf_partPath hdir]
        rfl
  · cases hop

theorem within_sealOps (hdir : dir ≠ "") (hpath : b.path = partPath dir b.seq) :
    ∀ op ∈ b.sealOps dir, op.Within (inDirOf dir) := by
  intro op hop
  rcases mem_append.mp hop with hop | hop
  · exact within_flushOps hdir hpath op hop
  · simp only [mem_cons, not_mem_nil, or_false] at hop
    rcases hop with rfl | rfl
    · exact inDirOf_sealedPath hdir
    · rfl

/-- A block's operations leave the names of every other block alone. -/
theorem avoids_flushOps (hpath : b.path = partPath dir b.seq) (hp : blockNames dir seq p)
    (hne : b.seq ≠ seq) : ∀ op ∈ b.flushOps, op.Avoids p := by
  intro op hop
  unfold flushOps at hop
  split at hop
  · rcases mem_cons.mp hop with rfl | hop
    · exact hpath ▸ (blockNames_ne hp hne).1
    · split at hop
      · cases hop
      · rw [mem_singleton.mp hop]
        trivial
  · cases hop

theorem avoids_sealOps (hpath : b.path = partPath dir b.seq) (hp : blockNames dir seq p)
    (hne : b.seq ≠ seq) : ∀ op ∈ b.sealOps dir, op.Avoids p := by
  intro op hop
  rcases mem_append.mp hop with hop | hop
  · exact avoids_flushOps hpath hp hne op hop
  · simp only [mem_cons, not_mem_nil, or_false] at hop
    rcases hop with rfl | rfl
    · exact hpath ▸ blockNames_ne hp hne
    · trivial

variable {files : String → Option ℕ} {active : Option SlabBlock}

theorem attached_flushOps (h : files b.path = d.inode b.path) : Attached (d, files) b.flushOps := by
  unfold flushOps
  split
  · refine ⟨h, ?_⟩
    split
    · trivial
    · exact ⟨trivial, trivial⟩
  · trivial

theorem opens_flushOps : ∀ op ∈ b.flushOps, ¬ op.Opens := by
  intro op hop
  unfold flushOps at hop
  grind [Disk.Op.Opens]

theorem opens_sealOps : ∀ op ∈ b.sealOps dir, ¬ op.Opens := by
  intro op hop
  rcases mem_append.mp hop with hop | hop
  · exact opens_flushOps op hop
  · simp only [mem_cons, not_mem_nil, or_false] at hop
    rcases hop with rfl | rfl
    · exact id
    · exact id

theorem opens_sealAll : ∀ op ∈ bs.flatMap (sealOps dir), ¬ op.Opens := by
  intro op hop
  obtain ⟨b, -, hop⟩ := mem_flatMap.mp hop
  exact opens_sealOps op hop

theorem spares_flushOps (hdir : dir ≠ "") (hpath : b.path = partPath dir b.seq) :
    SparesAll (blockNames dir seq) d b.flushOps := by
  unfold flushOps
  split
  · refine ⟨trivial, ?_⟩
    split
    · trivial
    · refine ⟨?_, trivial⟩
      intro p hp
      rw [hpath, inParentOf_partPath hdir]
      exact inDirOf_of_blockNames hdir hp
  · trivial

theorem spares_sealOps (hdir : dir ≠ "") (hpath : b.path = partPath dir b.seq)
    (hfresh : d.inode (sealedPath dir b.seq) = none) :
    SparesAll (blockNames dir seq) d (b.sealOps dir) := by
  refine sparesAll_append.mpr ⟨spares_flushOps hdir hpath, ⟨?_, ?_⟩, ?_, trivial⟩
  · intro hname
    rw [hpath] at hname
    rw [blockNames_partPath hname]
    exact .inr rfl
  · intro _
    exact inode_run_flushOps.trans hfresh
  · intro p hp
    exact inDirOf_of_blockNames hdir hp

/-! ### The blocks that are not sealed -/

/-- Blocks of the directory that can be sealed: nothing has their names yet. -/
structure Sealable (dir : String) (d : Volume) (bs : List SlabBlock) : Prop where
  tidy : d.Tidy (inDirOf dir)
  nodup : (bs.map SlabBlock.seq).Nodup
  path : ∀ b ∈ bs, b.path = partPath dir b.seq
  fresh : ∀ b ∈ bs, d.inode (sealedPath dir b.seq) = none
  backed : ∀ b ∈ bs, b.Backed d

theorem Sealable.nil (htidy : d.Tidy (inDirOf dir)) : Sealable dir d [] :=
  ⟨htidy, .nil, nofun, nofun, nofun⟩

/-- Operations that leave the names of these blocks alone. -/
theorem Sealable.frame {ops : List FileOp} (h : Sealable dir d bs)
    (htidy : (d.run ops).Tidy (inDirOf dir))
    (havoid : ∀ b ∈ bs, ∀ p, blockNames dir b.seq p → ∀ op ∈ ops, op.Avoids p) :
    Sealable dir (d.run ops) bs := by
  refine ⟨htidy, h.nodup, h.path, fun b hb => ?_, fun b hb => ?_⟩
  · exact (Disk.Untouched.run h.tidy.sound (havoid b hb _ (.inr rfl))).inode.trans (h.fresh b hb)
  · have hpart : blockNames dir b.seq b.path := .inl (h.path b hb)
    have hsame := Disk.Untouched.run h.tidy.sound (havoid b hb _ hpart)
    exact (h.backed b hb).congr hsame.file hsame.settled

/-- The first block is sealed; the others wait. -/
theorem Sealable.seal (hdir : dir ≠ "") (h : Sealable dir d (b :: rest)) :
    Sealable dir (d.run (b.sealOps dir)) rest := by
  have hpath := h.path b mem_cons_self
  have hseqs := nodup_cons.mp h.nodup
  have hrest : Sealable dir d rest :=
    ⟨h.tidy, hseqs.2, (forall_mem_cons.mp h.path).2, (forall_mem_cons.mp h.fresh).2,
      (forall_mem_cons.mp h.backed).2⟩
  refine hrest.frame (h.tidy.run (within_sealOps hdir hpath)) fun b' hb' p hp => ?_
  exact avoids_sealOps hpath hp fun heq => hseqs.1 (heq ▸ mem_map_of_mem hb')

theorem Sealable.sealAll (hdir : dir ≠ "") (h : Sealable dir d (bs ++ rest)) :
    Sealable dir (d.run (bs.flatMap (sealOps dir))) rest := by
  induction bs generalizing d with
  | nil => exact h
  | cons b bs ih =>
    rw [flatMap_cons, Disk.run_append]
    exact ih (h.seal hdir)

/-- No block loses what stable storage has of it while these are sealed. -/
theorem Sealable.spares (hdir : dir ≠ "") (h : Sealable dir d (bs ++ rest)) :
    Disk.SparesAll (blockNames dir seq) d (bs.flatMap (sealOps dir)) := by
  induction bs generalizing d with
  | nil => trivial
  | cons b bs ih =>
    rw [flatMap_cons]
    refine Disk.sparesAll_append.mpr ⟨?_, ih (h.seal hdir)⟩
    exact spares_sealOps hdir (h.path b mem_cons_self) (h.fresh b mem_cons_self)

theorem within_sealAll (hdir : dir ≠ "") (hpath : ∀ b ∈ bs, b.path = partPath dir b.seq) :
    ∀ op ∈ bs.flatMap (sealOps dir), op.Within (inDirOf dir) := by
  intro op hop
  obtain ⟨b, hb, hop⟩ := mem_flatMap.mp hop
  exact within_sealOps hdir (hpath b hb) op hop

/-- Once a block is synced, stable storage has its bytes. -/
theorem Sealable.held_flush (hdir : dir ≠ "") (h : Sealable dir d (b :: rest))
    (hunflushed : 0 ≤ b.unflushed) (hne : b.hasher ≠ []) :
    (d.run b.flushOps).Held (blockNames dir b.seq) b.hasher := by
  have hpath := h.path b mem_cons_self
  have hflushed := (h.backed b mem_cons_self).flush hdir h.tidy.sound hpath
  have hclean : ¬ 0 < b.flushed.unflushed := by
    rw [unflushed_flushed hunflushed]
    exact lt_irrefl 0
  rw [← hasher_flushed b] at hne ⊢
  refine hflushed.held hclean hne ?_
  rw [path_flushed, hpath]
  exact .inl rfl

/-- Once blocks are sealed, stable storage has the bytes of each. -/
theorem Sealable.held_sealAll (hdir : dir ≠ "") (h : Sealable dir d (bs ++ rest))
    (hunflushed : ∀ b ∈ bs, 0 ≤ b.unflushed) : ∀ b ∈ bs, b.hasher ≠ [] →
      (d.run (bs.flatMap (sealOps dir))).Held (blockNames dir b.seq) b.hasher := by
  induction bs generalizing d with
  | nil => nofun
  | cons first bs ih =>
    obtain ⟨hfirst, hbs⟩ := forall_mem_cons.mp hunflushed
    intro b hb hne
    rw [flatMap_cons, run_append]
    rcases mem_cons.mp hb with rfl | hb
    · have hspares : SparesAll (blockNames dir b.seq) d (b.sealOps dir) :=
        spares_sealOps hdir (h.path b mem_cons_self) (h.fresh b mem_cons_self)
      rw [sealOps, sparesAll_append] at hspares
      have hheld := (h.held_flush hdir hfirst hne).run hspares.2
      rw [← run_append] at hheld
      exact hheld.run ((h.seal hdir).spares hdir)
    · exact ih (h.seal hdir) hbs b hb hne

/-- The last block is synced. -/
theorem Sealable.flush (hdir : dir ≠ "") (h : Sealable dir d active.toList) :
    Sealable dir (d.run (active.toList.flatMap flushOps))
      (active.map flushed).toList := by
  cases active with
  | none => exact h
  | some a =>
    have hpath := h.path a mem_cons_self
    rw [flatMap_flushOps_some]
    constructor
    · exact h.tidy.run (within_flushOps hdir hpath)
    · exact nodup_singleton _
    · intro b hb
      rw [mem_singleton.mp hb, path_flushed, seq_flushed, hpath]
    · intro b hb
      rw [mem_singleton.mp hb, seq_flushed, inode_run_flushOps]
      exact h.fresh a mem_cons_self
    · intro b hb
      rw [mem_singleton.mp hb]
      exact (h.backed a mem_cons_self).flush hdir h.tidy.sound hpath

/-- The blocks are sealed through the files that are open, as long as these have their names. -/
theorem Sealable.attached (hdir : dir ≠ "")
    (h : Sealable dir d (bs ++ rest)) (hfiles : ∀ b ∈ bs, files b.path = d.inode b.path) :
    Disk.Attached (d, files) (bs.flatMap (sealOps dir)) := by
  induction bs generalizing d with
  | nil => trivial
  | cons b bs ih =>
    obtain ⟨hb, hbs⟩ := forall_mem_cons.mp hfiles
    have hpath := h.path b mem_cons_self
    have hseal : Attached (d, files) (b.sealOps dir) :=
      attached_append.mpr ⟨attached_flushOps hb, trivial, trivial, trivial⟩
    rw [flatMap_cons]
    refine attached_append.mpr ⟨hseal, ?_⟩
    have hrun : runOpen (d, files) (b.sealOps dir) = (d.run (b.sealOps dir), files) :=
      Prod.ext (runOpen_fst hseal) (runOpen_snd opens_sealOps)
    rw [hrun]
    refine ih (h.seal hdir) fun b' hb' => ?_
    have hmem : b' ∈ bs ++ rest := mem_append_left _ hb'
    have hne : b.seq ≠ b'.seq := fun heq => (nodup_cons.mp h.nodup).1 (heq ▸ mem_map_of_mem hmem)
    have hpart : blockNames dir b'.seq b'.path := .inl (h.path b' (mem_cons_of_mem _ hmem))
    exact (hbs b' hb').trans
      (Disk.Untouched.run h.tidy.sound (avoids_sealOps hpath hpart hne)).inode.symm

/-! ### A sweep -/

/-- The full blocks are sealed and the active one is synced. -/
def sweepOps (dir : String) (bs : List SlabBlock) (active : Option SlabBlock) : List FileOp :=
  bs.flatMap (sealOps dir) ++ active.toList.flatMap flushOps

theorem Sealable.sweep (hdir : dir ≠ "") (h : Sealable dir d (bs ++ active.toList)) :
    Sealable dir (d.run (sweepOps dir bs active)) (active.map flushed).toList := by
  rw [sweepOps, Disk.run_append]
  exact (h.sealAll hdir).flush hdir

theorem within_sweepOps (hdir : dir ≠ "")
    (hpath : ∀ b ∈ bs ++ active.toList, b.path = partPath dir b.seq) :
    ∀ op ∈ sweepOps dir bs active, op.Within (inDirOf dir) := by
  intro op hop
  rcases mem_append.mp hop with hop | hop
  · exact within_sealAll hdir (fun b hb => hpath b (mem_append_left _ hb)) op hop
  · obtain ⟨b, hb, hop⟩ := mem_flatMap.mp hop
    exact within_flushOps hdir (hpath b (mem_append_right _ hb)) op hop

theorem Sealable.spares_flush (hdir : dir ≠ "") (h : Sealable dir d active.toList) :
    Disk.SparesAll (blockNames dir seq) d (active.toList.flatMap flushOps) := by
  cases active with
  | none => trivial
  | some a =>
    rw [flatMap_flushOps_some]
    exact spares_flushOps hdir (h.path a mem_cons_self)

theorem Sealable.spares_sweep (hdir : dir ≠ "") (h : Sealable dir d (bs ++ active.toList)) :
    Disk.SparesAll (blockNames dir seq) d (sweepOps dir bs active) :=
  Disk.sparesAll_append.mpr ⟨h.spares hdir, (h.sealAll hdir).spares_flush hdir⟩

/-- Operations that take nothing from stable storage and stay in the directory. -/
structure Careful (dir : String) (d : Volume) (ops : List FileOp) : Prop where
  spares : ∀ seq, SparesAll (blockNames dir seq) d ops
  within : ∀ op ∈ ops, op.Within (inDirOf dir)

theorem Careful.nil : Careful dir d [] := ⟨fun _ => trivial, nofun⟩

theorem Careful.initial {ops ops' : List FileOp} (h : Careful dir d ops) (hpre : ops' <+: ops) :
    Careful dir d ops' :=
  ⟨fun seq => (h.spares seq).initial hpre, fun op hop => h.within op (hpre.subset hop)⟩

theorem Sealable.careful_sweep (hdir : dir ≠ "")
    (h : Sealable dir d (bs ++ active.toList)) : Careful dir d (sweepOps dir bs active) :=
  ⟨fun _ => h.spares_sweep hdir, within_sweepOps hdir h.path⟩

theorem opens_sweepOps : ∀ op ∈ sweepOps dir bs active, ¬ op.Opens := by
  intro op hop
  rcases mem_append.mp hop with hop | hop
  · exact opens_sealAll op hop
  · obtain ⟨b, -, hop⟩ := mem_flatMap.mp hop
    exact opens_flushOps op hop

theorem avoids_sweepOps (hpath : ∀ b ∈ bs ++ active.toList, b.path = partPath dir b.seq)
    (hp : blockNames dir seq p) (hne : ∀ b ∈ bs ++ active.toList, b.seq ≠ seq) :
    ∀ op ∈ sweepOps dir bs active, op.Avoids p := by
  intro op hop
  rcases mem_append.mp hop with hop | hop
  · obtain ⟨b, hb, hop⟩ := mem_flatMap.mp hop
    have hmem := mem_append_left active.toList hb
    exact avoids_sealOps (hpath b hmem) hp (hne b hmem) op hop
  · obtain ⟨b, hb, hop⟩ := mem_flatMap.mp hop
    have hmem := mem_append_right bs hb
    exact avoids_flushOps (hpath b hmem) hp (hne b hmem) op hop

theorem Sealable.attached_sweep (hdir : dir ≠ "") (h : Sealable dir d (bs ++ active.toList))
    (hfiles : ∀ b ∈ bs ++ active.toList, files b.path = d.inode b.path) :
    Disk.Attached (d, files) (sweepOps dir bs active) := by
  have hfull := h.attached hdir fun b hb => hfiles b (mem_append_left _ hb)
  refine Disk.attached_append.mpr ⟨hfull, ?_⟩
  cases active with
  | none => trivial
  | some a =>
    have hlast : a ∈ bs ++ [a] := mem_append_right _ mem_cons_self
    have hrun : runOpen (d, files) (bs.flatMap (sealOps dir)) =
        (d.run (bs.flatMap (sealOps dir)), files) :=
      Prod.ext (runOpen_fst hfull) (runOpen_snd opens_sealAll)
    rw [hrun, flatMap_flushOps_some]
    refine attached_flushOps ((hfiles a hlast).trans ?_)
    have hpart : blockNames dir a.seq a.path := .inl (h.path a hlast)
    refine (Disk.Untouched.run h.tidy.sound fun op hop => ?_).inode.symm
    obtain ⟨b, hb, hop⟩ := mem_flatMap.mp hop
    have hdisjoint := nodup_append.mp (map_append ▸ h.nodup)
    refine avoids_sealOps (h.path b (mem_append_left _ hb)) hpart ?_ op hop
    exact hdisjoint.2.2 b.seq (mem_map_of_mem hb) a.seq mem_cons_self

/-- After a sweep stable storage has the bytes of every block. -/
theorem Sealable.held_sweep (hdir : dir ≠ "") (h : Sealable dir d (bs ++ active.toList))
    (hunflushed : ∀ b ∈ bs ++ active.toList, 0 ≤ b.unflushed) :
    ∀ b ∈ bs ++ active.toList, b.hasher ≠ [] →
      (d.run (sweepOps dir bs active)).Held (blockNames dir b.seq) b.hasher := by
  intro b hb hne
  have hopen := h.sealAll hdir
  rw [sweepOps, Disk.run_append]
  rcases mem_append.mp hb with hfull | hactive
  · have hheld := h.held_sealAll hdir (fun b hb => hunflushed b (mem_append_left _ hb)) b hfull hne
    exact hheld.run (hopen.spares_flush hdir)
  · cases active with
    | none => cases hactive
    | some a =>
      cases mem_singleton.mp hactive
      rw [flatMap_flushOps_some]
      exact hopen.held_flush hdir (hunflushed b hb) hne

/-! ### An append -/

/-- The last block takes a record. -/
theorem Sealable.write {a : SlabBlock} (h : Sealable dir d (bs ++ [a]))
    (hunflushed : 0 ≤ a.unflushed) (bytes : Bytes) :
    Sealable dir (d.append a.path bytes) (bs ++ [a.write bytes]) := by
  have hseqs : (bs ++ [a.write bytes]).map SlabBlock.seq = (bs ++ [a]).map SlabBlock.seq := by
    simp [SlabBlock.write]
  have hcases : ∀ b ∈ bs ++ [a.write bytes], b ∈ bs ∨ b = a.write bytes := by
    intro b hb
    simpa using hb
  have hlast : a ∈ bs ++ [a] := mem_append_right _ mem_cons_self
  constructor
  · exact h.tidy.modify
  · rw [hseqs]
    exact h.nodup
  · intro b hb
    rcases hcases b hb with hold | rfl
    · exact h.path b (mem_append_left _ hold)
    · exact h.path a hlast
  · intro b hb
    rw [append, inode_modify]
    rcases hcases b hb with hold | rfl
    · exact h.fresh b (mem_append_left _ hold)
    · exact h.fresh a hlast
  · intro b hb
    rcases hcases b hb with hold | rfl
    · have hne : b.path ≠ a.path := by
        rw [h.path b (mem_append_left _ hold), h.path a hlast]
        intro heq
        have hdisjoint := nodup_append.mp (map_append ▸ h.nodup)
        exact hdisjoint.2.2 b.seq (mem_map_of_mem hold) a.seq mem_cons_self (partPath_inj heq)
      exact (h.backed b (mem_append_left _ hold)).congr (file_modify_ne h.tidy.sound hne)
        ((keeps_append h.tidy.sound).settled _)
    · exact (h.backed a hlast).write h.tidy.sound hunflushed bytes

/-- A new block takes the place of what was under its working name. -/
theorem Sealable.mint (hdir : dir ≠ "") (h : Sealable dir d bs) (hseq : ∀ b ∈ bs, b.seq ≠ seq)
    (hfresh : d.inode (sealedPath dir seq) = none) :
    Sealable dir ((d.remove (partPath dir seq)).create (partPath dir seq))
      (bs ++ [newBlock dir seq]) := by
  have hcases : ∀ b ∈ bs ++ [newBlock dir seq], b ∈ bs ∨ b = newBlock dir seq := by
    intro b hb
    simpa using hb
  have hsound := h.tidy.sound.remove (p := partPath dir seq)
  have hinode : ∀ seq', ((d.remove (partPath dir seq)).create (partPath dir seq)).inode
      (sealedPath dir seq') = d.inode (sealedPath dir seq') := by
    intro seq'
    rw [inode_create_ne sealedPath_ne_partPath, inode_remove_ne sealedPath_ne_partPath]
  constructor
  · exact h.tidy.remove.create (inDirOf_partPath hdir)
  · rw [map_append]
    refine nodup_append.mpr ⟨h.nodup, nodup_singleton _, ?_⟩
    intro seq' hseq' last hlast
    obtain ⟨b, hb, rfl⟩ := mem_map.mp hseq'
    rw [mem_singleton.mp hlast]
    exact hseq b hb
  · intro b hb
    rcases hcases b hb with hold | rfl
    · exact h.path b hold
    · rfl
  · intro b hb
    rw [hinode]
    rcases hcases b hb with hold | rfl
    · exact h.fresh b hold
    · exact hfresh
  · intro b hb
    rcases hcases b hb with hold | rfl
    · have hne : b.path ≠ partPath dir seq := by
        rw [h.path b hold]
        exact fun heq => hseq b hold (partPath_inj heq)
      apply (h.backed b hold).congr
      · rw [file_create_ne hsound hne, file_remove_ne hne]
      · intro hset
        exact (keeps_create hsound).settled _ (hset.remove hne)
    · refine ⟨⟨⟨[], 0⟩, ?_, rfl, .inr (.inl rfl)⟩, nofun⟩
      have hgone : (d.remove (partPath dir seq)).file (partPath dir seq) = none := by
        simp [Disk.file, inode_remove_self]
      show Disk.file _ (partPath dir seq) = _
      rw [file_create_self hsound, hgone]
      rfl

end AxisBridge
