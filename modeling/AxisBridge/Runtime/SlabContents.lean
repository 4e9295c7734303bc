import AxisBridge.Runtime.SlabBlock

/-! What the blocks of one slab hold, over whole runs of its calls. -/
namespace AxisBridge
open List Disk

/-- The records of a block, each with its offset. -/
def atOffsets : ℤ → List Bytes → List (Bytes × ℤ)
  | _, [] => []
  | off, r :: rs => (r, off) :: atOffsets (off + r.length) rs

/-- The number and the file of each block, in order. -/
def Slab.blocks (s : Slab) : List (ℤ × String) :=
  s.sealed.map (fun e => (e.1, sealedPath s.dir e.1)) ++ s.unsealed.map fun b => (b.seq, b.path)

/-- The records of a block fit it, or one that does not is the only one with bytes. -/
def Sized (blockBytes : ℤ) (rs : List Bytes) : Prop :=
  rs.flatten.length ≤ blockBytes ∨ ∃ r, rs.filter (· ≠ []) = [r] ∧ blockBytes < r.length

section
variable [Sha256]

end

/-! ### Offsets and sizes -/

section
variable {off cap : ℤ} {rs : List Bytes} {bytes : Bytes}

theorem atOffsets_append (off : ℤ) (rs : List Bytes) (bytes : Bytes) :
    atOffsets off (rs ++ [bytes]) = atOffsets off rs ++ [(bytes, off + rs.flatten.length)] := by
  induction rs generalizing off with
  | nil => simp [atOffsets]
  | cons r rs ih =>
    have hlen : off + ((r :: rs).flatten.length : ℤ) = off + r.length + rs.flatten.length := by
      simp [add_assoc]
    rw [hlen, cons_append, atOffsets, ih, atOffsets, cons_append]

theorem sized_singleton (bytes : Bytes) (hcap : 0 < cap) : Sized cap [bytes] := by
  rcases Int.lt_or_le cap bytes.length with hlt | hle
  · right
    refine ⟨bytes, ?_, hlt⟩
    have hne : bytes ≠ [] := by
      rintro rfl
      simp at hlt
      omega
    simp [hne]
  · left
    simpa using hle

/-- A record that leaves no block with bytes too large keeps the sizes. -/
theorem Sized.append (hcap : 0 < cap)
    (hroom : ¬ (0 < (rs.flatten.length : ℤ) ∧ cap < rs.flatten.length + bytes.length)) :
    Sized cap (rs ++ [bytes]) := by
  rcases Nat.eq_zero_or_pos rs.flatten.length with hempty | hpos
  · have hnone : ∀ r ∈ rs, r = [] := flatten_eq_nil_iff.mp (length_eq_zero_iff.mp hempty)
    have hfilter : rs.filter (· ≠ []) = [] := by
      refine filter_eq_nil_iff.mpr ?_
      intro r hr
      simp [hnone r hr]
    have hsized := sized_singleton bytes hcap
    unfold Sized at hsized ⊢
    rw [filter_append, hfilter, nil_append, flatten_append, length_append, hempty, zero_add]
    exact hsized
  · left
    rw [flatten_append, length_append, flatten_singleton]
    push_cast
    omega

end

/-! ### The files of the blocks -/

section
variable [Sha256]

/-- The entry of a sealed block in the ledger is the hash and the length of its file. -/
structure SealedHolds (dir : String) (d : Volume) (e : ℤ × String × ℤ)
    (rs : List Bytes) : Prop where
  entry : e.2 = (bytesHash rs.flatten, (rs.flatten.length : ℤ))
  read : d.read (sealedPath dir e.1) = some rs.flatten

end

/-- A block that is not sealed counts and hashes what is in its file. -/
structure SlabBlock.Holds (dir : String) (d : Volume) (b : SlabBlock)
    (rs : List Bytes) : Prop where
  path : b.path = partPath dir b.seq
  hasher : b.hasher = rs.flatten
  len : b.len = rs.flatten.length
  unflushed : 0 ≤ b.unflushed
  read : d.read b.path = some rs.flatten

open SlabBlock

def blockSeqs (sealed : List (ℤ × String × ℤ)) (unsealed : List SlabBlock) : List ℤ :=
  sealed.map Prod.fst ++ unsealed.map seq

section
variable {dir q : String} {d d' : Volume} {b : SlabBlock} {bs rest : List SlabBlock}
  {sealed : List (ℤ × String × ℤ)} {rs : List Bytes} {done opened : List (List Bytes)}

/-- No call that seals reads other bytes out of a file than were there. -/
theorem read_run_flushOps : (d.run b.flushOps).read q = d.read q := by
  unfold flushOps
  split
  · split
    · exact read_sync
    · exact read_sync
  · rfl

theorem read_run_sealOps_ne (hpath : q ≠ b.path) (hsealed : q ≠ sealedPath dir b.seq) :
    (d.run (b.sealOps dir)).read q = d.read q := by
  rw [run_sealOps]
  exact (read_rename_ne hpath hsealed).trans read_run_flushOps

/-- A sealed block's file has its name afterwards. -/
theorem read_run_sealOps (h : (d.read b.path).isSome = true) :
    (d.run (b.sealOps dir)).read (sealedPath dir b.seq) = d.read b.path := by
  rw [run_sealOps]
  have hread : ((d.run b.flushOps).read b.path).isSome = true := by rwa [read_run_flushOps]
  obtain ⟨i, hi⟩ := Option.isSome_iff_exists.mp (isSome_of_read hread)
  exact (read_rename_target hi).trans read_run_flushOps

theorem SlabBlock.Holds.congr (h : b.Holds dir d rs) (hread : d'.read b.path = d.read b.path) :
    b.Holds dir d' rs := ⟨h.path, h.hasher, h.len, h.unflushed, hread.trans h.read⟩

theorem SlabBlock.Holds.flushed (h : b.Holds dir d rs) :
    b.flushed.Holds dir (d.run b.flushOps) rs := by
  constructor
  · simpa using h.path
  · simpa using h.hasher
  · simpa using h.len
  · rw [unflushed_flushed h.unflushed]
  · rw [path_flushed, read_run_flushOps]
    exact h.read

variable {α β : Type}

theorem forall₂_imp_mem {R S : α → β → Prop} {l : List α} {l' : List β}
    (h : Forall₂ R l l') (himp : ∀ a ∈ l, ∀ b, R a b → S a b) : Forall₂ S l l' := by
  have hmem := (List.forall₂_and_left l l').mpr ⟨fun a ha => ha, h⟩
  exact hmem.imp fun a b hab => himp a hab.1 b hab.2

theorem blockSeqs_flush (sealed : List (ℤ × String × ℤ)) (active : Option SlabBlock) :
    blockSeqs sealed (active.map flushed).toList = blockSeqs sealed active.toList := by
  cases active with
  | none => rfl
  | some a => simp [blockSeqs]

theorem mem_left_of_forall₂ {R : α → β → Prop} {l : List α} {m : List β} {a : α}
    (h : Forall₂ R l m) (ha : a ∈ l) : ∃ b ∈ m, R a b := by
  induction h with
  | nil => cases ha
  | cons hab _ ih =>
    rcases mem_cons.mp ha with rfl | hrest
    · exact ⟨_, mem_cons_self, hab⟩
    · obtain ⟨b, hb, hrel⟩ := ih hrest
      exact ⟨b, mem_cons_of_mem _ hb, hrel⟩

theorem forall₂_concat_left {R : α → β → Prop} {l : List α} {a : α} {m : List β}
    (h : Forall₂ R (l ++ [a]) m) : ∃ before b, m = before ++ [b] ∧ Forall₂ R l before ∧ R a b := by
  induction l generalizing m with
  | nil =>
    obtain ⟨b, m, hab, hnil, rfl⟩ := List.forall₂_cons_left_iff.mp h
    cases hnil
    exact ⟨[], b, rfl, .nil, hab⟩
  | cons a' l ih =>
    obtain ⟨b', m, hab', hrest, rfl⟩ := List.forall₂_cons_left_iff.mp h
    obtain ⟨before, b, rfl, hbefore, hab⟩ := ih hrest
    exact ⟨b' :: before, b, rfl, .cons hab' hbefore, hab⟩

theorem working_congr (h : Forall₂ (SlabBlock.Holds dir d) bs opened)
    (hread : ∀ b ∈ bs, b.path = partPath dir b.seq → d'.read b.path = d.read b.path) :
    Forall₂ (SlabBlock.Holds dir d') bs opened :=
  forall₂_imp_mem h fun b hb _ hholds => hholds.congr (hread b hb hholds.path)

end

section
variable [Sha256]

/-- The sealed blocks and the others, each with the records in its file. -/
structure Laid (dir : String) (d : Volume) (sealed : List (ℤ × String × ℤ))
    (done : List (List Bytes)) (unsealed : List SlabBlock)
    (opened : List (List Bytes)) : Prop where
  sound : d.Sound
  increasing : (blockSeqs sealed unsealed).Pairwise (· < ·)
  files : Forall₂ (SealedHolds dir d) sealed done
  working : Forall₂ (SlabBlock.Holds dir d) unsealed opened

variable {dir : String} {d d' : Volume} {a b : SlabBlock}
  {bs rest unsealed : List SlabBlock} {sealed : List (ℤ × String × ℤ)} {rs : List Bytes}
  {done opened : List (List Bytes)} {bytes : Bytes} {seq : ℤ}

/-- Sealing changes no block number. -/
theorem blockSeqs_seal (sealed : List (ℤ × String × ℤ)) (bs rest : List SlabBlock) :
    blockSeqs (sealed ++ bs.map entry) rest = blockSeqs sealed (bs ++ rest) := by
  simp [blockSeqs, entry]

theorem files_congr (h : Forall₂ (SealedHolds dir d) sealed done)
    (hread : ∀ e ∈ sealed, d'.read (sealedPath dir e.1) = d.read (sealedPath dir e.1)) :
    Forall₂ (SealedHolds dir d') sealed done :=
  forall₂_imp_mem h fun e he _ hholds => ⟨hholds.entry, (hread e he).trans hholds.read⟩

/-- The first block that is not sealed is sealed: its bytes get its name. -/
theorem Laid.seal (h : Laid dir d sealed done (b :: rest) (rs :: opened)) :
    Laid dir (d.run (b.sealOps dir)) (sealed ++ [b.entry]) (done ++ [rs]) rest opened := by
  obtain ⟨hholds, hrest⟩ := List.forall₂_cons.mp h.working
  have hseqs := pairwise_append.mp h.increasing
  have hlater := (pairwise_cons.mp hseqs.2.1).1
  have hearlier : ∀ e ∈ sealed, e.1 < b.seq := by
    intro e he
    exact hseqs.2.2 e.1 (mem_map_of_mem he) b.seq mem_cons_self
  constructor
  · exact h.sound.run _
  · exact blockSeqs_seal sealed [b] rest ▸ h.increasing
  · refine rel_append (files_congr h.files ?_) (.cons ⟨?_, ?_⟩ .nil)
    · intro e he
      apply read_run_sealOps_ne
      · rw [hholds.path]
        exact sealedPath_ne_partPath
      · intro heq
        exact (hearlier e he).ne (sealedPath_inj heq)
    · simp only [entry, hholds.hasher, hholds.len]
    · refine (read_run_sealOps ?_).trans hholds.read
      rw [hholds.read]
      rfl
  · refine working_congr hrest ?_
    intro b' hb' hpath
    apply read_run_sealOps_ne
    · rw [hpath, hholds.path]
      intro heq
      exact (hlater b'.seq (mem_map_of_mem hb')).ne' (partPath_inj heq)
    · rw [hpath]
      exact sealedPath_ne_partPath.symm

theorem Laid.sealAll (bs : List SlabBlock) : ∀ {d sealed done opened},
    Laid dir d sealed done (bs ++ rest) opened → ∃ done' opened', done' ++ opened' = done ++
      opened ∧ Laid dir (d.run (bs.flatMap (sealOps dir))) (sealed ++ bs.map entry) done' rest
        opened' := by
  induction bs with
  | nil =>
    intro d sealed done opened h
    exact ⟨done, opened, rfl, by simpa using h⟩
  | cons b bs ih =>
    intro d sealed done opened h
    obtain ⟨rs, opened, -, -, rfl⟩ := List.forall₂_cons_left_iff.mp h.working
    obtain ⟨done', opened', heq, hlaid⟩ := ih h.seal
    refine ⟨done', opened', by simpa using heq, ?_⟩
    rw [flatMap_cons, run_append]
    simpa using hlaid

/-- A sync of the last block changes no file. -/
theorem Laid.flush {active : Option SlabBlock} (h : Laid dir d sealed done active.toList opened) :
    Laid dir (d.run (active.toList.flatMap flushOps)) sealed done
      (active.map flushed).toList opened := by
  cases active with
  | none => simpa using h
  | some a =>
    obtain ⟨rs, opened, hholds, hnil, rfl⟩ := List.forall₂_cons_left_iff.mp h.working
    rw [flatMap_flushOps_some]
    refine ⟨h.sound.run _, ?_, files_congr h.files ?_, .cons hholds.flushed ?_⟩
    · exact blockSeqs_flush sealed (some a) ▸ h.increasing
    · intro e he
      exact read_run_flushOps
    · cases hnil
      exact .nil

/-- A block's number is new, and so is its file. -/
theorem Laid.mint (h : Laid dir d sealed done unsealed opened)
    (hseq : ∀ seq' ∈ blockSeqs sealed unsealed, seq' < seq) :
    Laid dir ((d.remove (partPath dir seq)).create (partPath dir seq)) sealed done
      (unsealed ++ [newBlock dir seq]) (opened ++ [[]]) := by
  have hread : ∀ {q : String}, q ≠ partPath dir seq →
      ((d.remove (partPath dir seq)).create (partPath dir seq)).read q = d.read q := by
    intro q hne
    rw [read_create_ne h.sound.remove hne]
    exact congrArg (Option.map DiskFile.data) (file_remove_ne hne)
  constructor
  · exact h.sound.remove.create
  · have heq : blockSeqs sealed (unsealed ++ [newBlock dir seq]) =
        blockSeqs sealed unsealed ++ [seq] := by
      simp [blockSeqs, newBlock]
    rw [heq, pairwise_append]
    refine ⟨h.increasing, pairwise_singleton _ _, ?_⟩
    intro seq' hseq' last hlast
    rw [mem_singleton.mp hlast]
    exact hseq seq' hseq'
  · refine files_congr h.files ?_
    intro e he
    exact hread sealedPath_ne_partPath
  · refine rel_append (working_congr h.working ?_) (.cons ⟨rfl, rfl, rfl, le_refl _, ?_⟩ .nil)
    · intro b hb hpath
      apply hread
      rw [hpath]
      intro heq
      have hlt := hseq b.seq (mem_append_right _ (mem_map_of_mem hb))
      exact hlt.ne (partPath_inj heq)
    · have hgone : (d.remove (partPath dir seq)).read (partPath dir seq) = none := by
        simp [Disk.read, Disk.file, Disk.inode_remove_self]
      show Disk.read _ (partPath dir seq) = _
      rw [Disk.read_create_self h.sound.remove, hgone]
      rfl

/-- The last block takes a record, at its end. -/
theorem Laid.write (h : Laid dir d sealed done (bs ++ [a]) opened) (bytes : Bytes) :
    ∃ before rs, opened = before ++ [rs] ∧ a.len = rs.flatten.length ∧ Laid dir
      (d.append a.path bytes) sealed done (bs ++ [a.write bytes]) (before ++ [rs ++ [bytes]]) := by
  obtain ⟨before, rs, rfl, hbs, hlast⟩ := forall₂_concat_left h.working
  refine ⟨before, rs, rfl, hlast.len, h.sound.modify, ?_, ?_, ?_⟩
  · simpa [blockSeqs, write] using h.increasing
  · refine files_congr h.files ?_
    intro e he
    apply read_modify_ne h.sound
    rw [hlast.path]
    exact sealedPath_ne_partPath
  · refine rel_append (working_congr hbs ?_) (.cons ⟨hlast.path, ?_, ?_, ?_, ?_⟩ .nil)
    · intro b hb hpath
      apply read_modify_ne h.sound
      rw [hpath, hlast.path]
      intro heq
      have hincreasing := h.increasing
      rw [blockSeqs, map_append, ← append_assoc, pairwise_append] at hincreasing
      have hlt := hincreasing.2.2 b.seq (mem_append_right _ (mem_map_of_mem hb)) a.seq mem_cons_self
      exact hlt.ne (partPath_inj heq)
    · simp [write, hlast.hasher]
    · simp only [write, hlast.len, flatten_append, length_append, flatten_singleton]
      push_cast
      rfl
    · have hunflushed := hlast.unflushed
      simp only [write]
      omega
    · show (d.append a.path bytes).read a.path = _
      rw [read_append_self, hlast.read]
      simp

end

/-! ### Runs -/

section
variable [Sha256] {s s' : Slab} {d : Volume} {recs : List (Bytes × ℤ)}
  {layout : List (List Bytes)} {bytes : Bytes} {off : ℤ} {ops : List FileOp}

/-- The blocks of the slab are these records. -/
structure Slab.Holds (s : Slab) (d : Volume) (layout : List (List Bytes)) : Prop where
  capacity : 0 < s.blockBytes
  laid : ∃ done opened, layout = done ++ opened ∧ Laid s.dir d s.sealed done s.unsealed opened
  sized : ∀ rs ∈ layout, Sized s.blockBytes rs
  next : ∀ seq ∈ blockSeqs s.sealed s.unsealed, seq < s.nextSeq

section
variable (hs : s.Holds d layout)

include hs

theorem Slab.Holds.unflushed : ∀ b ∈ s.unsealed, 0 ≤ b.unflushed := by
  obtain ⟨done, opened, -, hlaid⟩ := hs.laid
  intro b hb
  obtain ⟨rs, -, hholds⟩ := mem_left_of_forall₂ hlaid.working hb
  exact hholds.unflushed

theorem Slab.Holds.unflushed_pending : ∀ b ∈ s.fullPending, 0 ≤ b.unflushed := by
  intro b hb
  exact hs.unflushed b (mem_append_left _ hb)

/-- An append adds its record to the last block, or in a new one. -/
theorem Slab.Holds.append (h : slabAppend s bytes = some (s', off, ops)) :
    ∃ layout', s'.Holds (d.run ops) layout' ∧
      layout'.flatMap (atOffsets 0) = layout.flatMap (atOffsets 0) ++ [(bytes, off)] := by
  obtain ⟨done, opened, rfl, hlaid⟩ := hs.laid
  rcases slabAppend_cases h with ⟨a, hactive, hroom, heq⟩ | ⟨-, -, heq⟩
  · cases heq
    have hunsealed : s.unsealed = s.fullPending ++ [a] := by simp [Slab.unsealed, hactive]
    rw [hunsealed] at hlaid
    obtain ⟨before, rs, rfl, hlen, hwrite⟩ := hlaid.write bytes
    refine ⟨done ++ (before ++ [rs ++ [bytes]]), ⟨hs.capacity, ⟨_, _, rfl, hwrite⟩, ?_, ?_⟩, ?_⟩
    · intro rs' hrs'
      simp only [mem_append, mem_singleton] at hrs'
      rcases hrs' with hdone | hbefore | rfl
      · exact hs.sized rs' (mem_append_left _ hdone)
      · exact hs.sized rs' (by simp [hbefore])
      · rw [hlen] at hroom
        exact Sized.append hs.capacity hroom
    · intro seq hseq
      refine hs.next seq ?_
      simpa [blockSeqs, Slab.unsealed, write, hactive] using hseq
    · simp [atOffsets_append, hlen]
  · cases heq
    obtain ⟨before, rs, hbefore, hlen, hwrite⟩ := (hlaid.mint hs.next).write bytes
    obtain ⟨rfl, hrs⟩ := append_inj' hbefore rfl
    cases hrs
    refine ⟨done ++ (opened ++ [[bytes]]), ⟨hs.capacity, ⟨_, _, rfl, hwrite⟩, ?_, ?_⟩, ?_⟩
    · intro rs hrs
      rw [← append_assoc, mem_append, mem_singleton] at hrs
      rcases hrs with hold | rfl
      · exact hs.sized rs hold
      · exact sized_singleton bytes hs.capacity
    · intro seq hseq
      have hcases : seq ∈ blockSeqs s.sealed s.unsealed ∨ seq = s.nextSeq := by
        simpa [blockSeqs, Slab.unsealed, write, newBlock, or_assoc] using hseq
      rcases hcases with hold | rfl
      · have hlt := hs.next seq hold
        show seq < s.nextSeq + 1
        omega
      · exact Int.lt_succ_self _
    · simp [atOffsets]

/-- The full blocks are sealed and the active one is synced: all records stay in place. -/
theorem Slab.Holds.tick {now : ℕ} {n : ℤ} (h : slabTick now s = some (s', n, ops)) :
    s'.Holds (d.run ops) layout := by
  obtain ⟨done, opened, rfl, hlaid⟩ := hs.laid
  rcases slabTick_spec now hs.unflushed_pending with heq | ⟨data, dirs, sweeps, m, -, heq⟩
  · rw [heq] at h
    cases h
    exact ⟨hs.capacity, hs.laid, hs.sized, hs.next⟩
  · rw [heq] at h
    cases h
    obtain ⟨done', opened', hlayout, hsealed⟩ := hlaid.sealAll s.fullPending
    have hflush := hsealed.flush
    rw [← run_append] at hflush
    refine ⟨hs.capacity, ⟨done', opened', hlayout.symm, hflush⟩, hs.sized, ?_⟩
    have hseqs : blockSeqs (s.sealed ++ s.fullPending.map entry)
        (s.active.map flushed).toList = blockSeqs s.sealed s.unsealed :=
      (blockSeqs_flush _ s.active).trans (blockSeqs_seal s.sealed s.fullPending s.active.toList)
    intro seq hseq
    exact hs.next seq (hseqs ▸ hseq)

/-- The blocks are sealed: all records stay in place. -/
theorem Slab.Holds.seal {text : String} (h : slabSeal s = some (s', text, ops)) :
    s'.Holds (d.run ops) layout := by
  obtain ⟨done, opened, rfl, hlaid⟩ := hs.laid
  obtain ⟨bs, active, data, dirs, text', hunsealed, -, heq⟩ := slabSeal_spec hs.unflushed
  rw [heq] at h
  cases h
  rw [hunsealed] at hlaid
  obtain ⟨done', opened', hlayout, hsealed⟩ := hlaid.sealAll bs
  refine ⟨hs.capacity, ⟨done', opened', hlayout.symm, hsealed⟩, hs.sized, ?_⟩
  have hseqs : blockSeqs (s.sealed ++ bs.map entry) active.toList = blockSeqs s.sealed s.unsealed :=
    (blockSeqs_seal s.sealed bs active.toList).trans (congrArg _ hunsealed.symm)
  intro seq hseq
  exact hs.next seq (hseqs ▸ hseq)

theorem Slab.Holds.blocks :
    Forall₂ (fun b rs => d.read b.2 = some rs.flatten ∧ Sized s.blockBytes rs) s.blocks layout := by
  obtain ⟨done, opened, rfl, hlaid⟩ := hs.laid
  have hread : Forall₂ (fun (b : ℤ × String) rs => d.read b.2 = some rs.flatten) s.blocks
      (done ++ opened) := by
    apply rel_append
    · exact List.forall₂_map_left_iff.mpr (hlaid.files.imp fun e rs he => he.read)
    · exact List.forall₂_map_left_iff.mpr (hlaid.working.imp fun b rs hb => hb.read)
  refine (forall₂_imp_mem hread.flip fun rs hrs b hb => ?_).flip
  exact ⟨hb, hs.sized rs hrs⟩

theorem Slab.Holds.ledger : ∀ e ∈ s.sealed, ∃ data, d.read (sealedPath s.dir e.1) = some data ∧
      e.2 = (bytesHash data, (data.length : ℤ)) := by
  obtain ⟨done, opened, -, hlaid⟩ := hs.laid
  intro e he
  obtain ⟨rs, -, hrs⟩ := mem_left_of_forall₂ hlaid.files he
  exact ⟨rs.flatten, hrs.read, hrs.entry⟩

theorem Slab.Holds.increasing : (s.blocks.map Prod.fst).Pairwise (· < ·) := by
  obtain ⟨done, opened, -, hlaid⟩ := hs.laid
  have heq : s.blocks.map Prod.fst = blockSeqs s.sealed s.unsealed := by
    simp [Slab.blocks, blockSeqs, Function.comp_def]
  rw [heq]
  exact hlaid.increasing

end

end

attribute [local instance] textDigests

end AxisBridge
