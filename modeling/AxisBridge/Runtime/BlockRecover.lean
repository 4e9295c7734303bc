import AxisBridge.Runtime.Places
import AxisBridge.Runtime.PkIndex

/-! Recovery from sealed blocks alone, and when it binds what the log binds. -/
namespace AxisBridge
open Option List Function PkIndex
namespace BlockRecover

structure RecoverShard where
  flushDir : String
  pk : String → Option String
  hashes : Finset String
  blocksScanned : ℕ
  framesScanned : ℕ

/-- The name in an envelope; written apart from the index's own. -/
def envToName (env : Bytes) : Option String :=
  if env = [] then none
  else
    (strFromUtf8 env).bind fun s =>
      match split '\t' s with
      | [] => none
      | table :: it =>
        if table = "FACT" ∨ table = "CONTRADICTS" then none
        else
          match it with
          | _ :: pk :: _ => some (table ++ ":" ++ pk)
          | _ => none

def hotblkRecoverOpen (flushDir : String) : RecoverShard := ⟨flushDir, fun _ => none, ∅, 0, 0⟩

/-- The visitor of a rebuild. -/
def visit (sh : RecoverShard) (v : Visit) : RecoverShard :=
  { sh with
    pk :=
      match envToName v.env with
      | some name => update sh.pk name (some ("sha256:" ++ v.hexh))
      | none => sh.pk
    hashes := insert v.hexh sh.hashes }

section
variable [Sha256] (preallocEnabled : Bool) (d : Volume)

/-- The blocks from `seq` on: the shard, and how many blocks and frames there were. -/
def rebuildLoop : ℕ → ℤ → RecoverShard × ℕ × ℕ → RecoverShard × ℕ × ℕ
  | 0, _, found => found
  | fuel + 1, seq, (sh, blocks, frames) =>
    match d.read (blockPath sh.flushDir seq) with
    | none => (sh, blocks, frames)
    | some data =>
      match splitComplete preallocEnabled data with
      | none => (sh, blocks, frames)
      | some body =>
        let parsed := parseFramesFromBytes seq body 0
        let found := (parsed.1.foldl visit sh, blocks + 1, frames + parsed.1.length)
        if !bodyIsIntact body.length parsed.2.1 parsed.2.2 then found
        else rebuildLoop fuel (seq + 1) found

/-- The loop reads each block once, so the directory's entries are fuel enough. -/
def hotblkRecoverRebuild (sh : RecoverShard) : RecoverShard × ℕ :=
  let found := rebuildLoop preallocEnabled d (d.live.length + 1) 1 (sh, 0, 0)
  ({ found.1 with blocksScanned := found.2.1, framesScanned := found.2.2 }, found.2.2)

end

def hotblkRecoverHasHash (sh : RecoverShard) (hexhFull : String) : Bool :=
  decide ((stripPrefix "sha256:" hexhFull).getD hexhFull ∈ sh.hashes)

end BlockRecover

open BlockRecover

/-! ### Blocks cut from a log -/

section
variable [Sha256]

/-- The file of a sealed block of these frames: with a trailer where files are written in place, and
without one where they are renamed into place. -/
def sealedFile (preallocEnabled : Bool) (fs : List Frame) : Bytes :=
  if preallocEnabled then framesBytes fs ++ trailerFor (framesBytes fs).length else framesBytes fs

/-- The sealed blocks of a directory, and no complete one behind them. -/
structure Sealed (preallocEnabled : Bool) (d : Volume) (flushDir : String)
    (blocks : List (List Frame)) : Prop where
  files : ∀ i (hi : i < blocks.length),
    d.read (blockPath flushDir (i + 1)) = some (sealedFile preallocEnabled blocks[i])
  unsealed : ∀ data, d.read (blockPath flushDir (blocks.length + 1)) = some data →
    splitComplete preallocEnabled data = none

/-- The blocks hold the frames that were visited, in order. -/
def CutInto (visits : List Visit) (blocks : List (List Frame)) : Prop :=
  blocks.flatten.map Frame.view = visits.map Visit.view

/-- A block that a reader does not take for what it is: with trailers one whose length takes more
digits than they have, and without them one whose last bytes are a trailer of what is before
them. -/
def Misread (preallocEnabled : Bool) (fs : List Frame) : Prop :=
  if preallocEnabled then 10 ^ 16 ≤ (framesBytes fs).length else (trailered (framesBytes fs)).isSome

instance (preallocEnabled : Bool) (fs : List Frame) : Decidable (Misread preallocEnabled fs) :=
  inferInstanceAs (Decidable (if preallocEnabled = true then 10 ^ 16 ≤ (framesBytes fs).length
    else (trailered (framesBytes fs)).isSome = true))

/-- The frames in front of what the first misread block hides: of itself those in front of the
trailer it seems to have, or none, and all the blocks behind it. -/
def shownFrames (preallocEnabled : Bool) : List (List Frame) → List Frame
  | [] => []
  | fs :: rest =>
    if Misread preallocEnabled fs then
      if preallocEnabled then []
      else wholeFrames ((framesBytes fs).length - BLOCK_TRAILER_LEN) fs
    else fs ++ shownFrames preallocEnabled rest

def hiddenFrames (preallocEnabled : Bool) (blocks : List (List Frame)) : List Frame :=
  blocks.flatten.drop (shownFrames preallocEnabled blocks).length

/-- Each name that a hidden frame carries was carried before, the last time with the hash it has the
last time among the hidden. -/
def Rebound (preallocEnabled : Bool) (blocks : List (List Frame)) : Prop :=
  ∀ name hash, lastHash ((hiddenFrames preallocEnabled blocks).map Frame.view) name = some hash →
    lastHash ((shownFrames preallocEnabled blocks).map Frame.view) name = some hash

variable {d : Volume} {flushDir : String} {preallocEnabled : Bool} {fs : List Frame}
  {blocks : List (List Frame)} {visits : List Visit} {sh : RecoverShard} {seq : ℤ}
  {fuel : ℕ} {data body : Bytes}

omit [Sha256] in
theorem envToName_eq : BlockRecover.envToName = PkIndex.envToName := rfl

omit [Sha256] in
theorem foldl_flushDir (visits : List Visit) (sh : RecoverShard) :
    (visits.foldl BlockRecover.visit sh).flushDir = sh.flushDir := by
  induction visits generalizing sh with
  | nil => rfl
  | cons v visits ih => exact ih (BlockRecover.visit sh v)

omit [Sha256] in
/-- The recovery binds as the index of the rows does. -/
theorem foldl_pk (visits : List Visit) (sh : RecoverShard) :
    (visits.foldl BlockRecover.visit sh).pk = visits.foldl PkIndex.visit sh.pk := by
  induction visits generalizing sh with
  | nil => rfl
  | cons v visits ih =>
    have hvisit : (BlockRecover.visit sh v).pk = PkIndex.visit sh.pk v := by
      rw [PkIndex.visit, ← envToName_eq]
      rfl
    rw [foldl_cons, foldl_cons, ← hvisit]
    exact ih (BlockRecover.visit sh v)

/-- The recovery walks the blocks as the indexes do. -/
theorem rebuildLoop_shard (fuel : ℕ) (seq : ℤ) (sh : RecoverShard) (n m : ℕ) :
    (rebuildLoop preallocEnabled d fuel seq (sh, n, m)).1 =
      (hotblkLoop preallocEnabled d sh.flushDir fuel seq).1.foldl BlockRecover.visit sh := by
  induction fuel generalizing seq sh n m with
  | zero => rfl
  | succ fuel ih =>
    cases hread : d.read (blockPath sh.flushDir seq) with
    | none => simp [rebuildLoop, hotblkLoop, hread]
    | some data =>
      cases hsplit : splitComplete preallocEnabled data with
      | none => simp [rebuildLoop, hotblkLoop, hread, hsplit]
      | some body =>
        simp only [rebuildLoop, hotblkLoop, hread, hsplit]
        split
        · rfl
        · rw [ih, foldl_flushDir, foldl_append]

omit [Sha256] in
theorem hasHash_visit {hash : String} (h : hotblkRecoverHasHash sh hash = true)
    (v : Visit) : hotblkRecoverHasHash (BlockRecover.visit sh v) hash = true :=
  decide_eq_true (Finset.mem_insert_of_mem (of_decide_eq_true h))

/-- The content of all that is bound was met. -/
def Met (sh : RecoverShard) : Prop :=
  ∀ name hash, sh.pk name = some hash → hotblkRecoverHasHash sh hash = true

omit [Sha256] in
theorem Met.visit (h : Met sh) (v : Visit) : Met (BlockRecover.visit sh v) := by
  intro name hash hbound
  cases hnamed : BlockRecover.envToName v.env with
  | none =>
    simp only [BlockRecover.visit, hnamed] at hbound
    exact hasHash_visit (h name hash hbound) v
  | some other =>
    simp only [BlockRecover.visit, hnamed] at hbound
    by_cases hother : name = other
    · subst hother
      rw [update_self] at hbound
      cases hbound
      refine decide_eq_true ?_
      rw [stripPrefix_append]
      exact Finset.mem_insert_self ..
    · rw [update_of_ne hother] at hbound
      exact hasHash_visit (h name hash hbound) v

omit [Sha256] in
theorem Met.foldl (h : Met sh) (visits : List Visit) :
    Met (visits.foldl BlockRecover.visit sh) := by
  induction visits generalizing sh with
  | nil => exact h
  | cons v visits ih => exact ih (h.visit v)

theorem Met.rebuild (h : Met sh) (d : Volume) :
    Met (hotblkRecoverRebuild preallocEnabled d sh).1 := by
  have hloop := @rebuildLoop_shard _ d preallocEnabled (d.live.length + 1) 1 sh 0 0
  intro name hash hbound
  have hpk : (rebuildLoop preallocEnabled d (d.live.length + 1) 1 (sh, 0, 0)).1.pk
      name = some hash := hbound
  rw [hloop] at hpk
  have hmet := h.foldl _ name hash hpk
  rw [← hloop] at hmet
  exact hmet

/-- A recovery of the directory after rebuilds over these files, one after the other. -/
def rebuilt (preallocEnabled : Bool) (flushDir : String) (ds : List Volume) :
    RecoverShard :=
  ds.foldl (fun sh d => (hotblkRecoverRebuild preallocEnabled d sh).1)
    (hotblkRecoverOpen flushDir)

theorem met_rebuilt (ds : List Volume) : Met (rebuilt preallocEnabled flushDir ds) := by
  induction ds using reverseRecOn with
  | nil =>
    intro name hash hbound
    cases hbound
  | append_singleton ds d ih =>
    rw [rebuilt, foldl_concat]
    exact ih.rebuild d

/-- Whatever the blocks hold at each rebuild, a recovery has met the content of all it binds. -/
theorem recovered_has_hash {name hash : String} {ds : List Volume}
    (h : (rebuilt preallocEnabled flushDir ds).pk name = some hash) :
    hotblkRecoverHasHash (rebuilt preallocEnabled flushDir ds) hash = true :=
  met_rebuilt ds name hash h

/-! ### What a reader takes the files for -/

theorem splitComplete_sealedFile (h : ¬ Misread preallocEnabled fs) :
    splitComplete preallocEnabled (sealedFile preallocEnabled fs) = some (framesBytes fs) := by
  cases preallocEnabled with
  | true =>
    have hfits : (framesBytes fs).length < 10 ^ 16 := not_le.mp h
    rw [sealedFile, if_pos rfl, splitComplete, trailered_trailerFor hfits]
  | false =>
    have hnone : trailered (framesBytes fs) = none := not_isSome_iff_eq_none.mp h
    rw [sealedFile, if_neg Bool.false_ne_true, splitComplete, hnone]
    exact if_neg Bool.false_ne_true

omit [Sha256] in
theorem le_length_trailerFor (n : ℕ) : BLOCK_TRAILER_LEN ≤ (trailerFor n).length := by
  have hdigits : BLOCK_LEN_DIGITS ≤ (padded BLOCK_LEN_DIGITS n).toList.length := by
    simp only [padded, String.toList_ofList, length_append, length_replicate]
    omega
  have hmagic : BLOCK_MAGIC.length = 8 := rfl
  rw [trailerFor, length_append, length_textBytes_padded, hmagic]
  exact Nat.add_le_add_left hdigits 8

omit [Sha256] in
/-- A trailer that is too wide is none. -/
theorem splitComplete_wide (h : 10 ^ 16 ≤ body.length) :
    splitComplete true (body ++ trailerFor body.length) = none := by
  have hnone : trailered (body ++ trailerFor body.length) = none := by
    rw [eq_none_iff_forall_ne_some]
    intro b hb
    obtain ⟨field, hfile, hfield, hvalue⟩ := trailered_eq_some hb
    have hshort : b.length < 10 ^ 16 := by
      have hlt := lt_of_headerLen hvalue
      rwa [hfield] at hlt
    have hwide := le_length_trailerFor body.length
    have hlen := congrArg List.length hfile
    have hmagic : BLOCK_MAGIC.length = 8 := rfl
    simp only [length_append, hmagic, hfield] at hlen
    have htrailer : BLOCK_TRAILER_LEN = 8 + BLOCK_LEN_DIGITS := rfl
    omega
  rw [splitComplete, hnone]
  rfl

omit [Sha256] in
theorem trailered_eq_take (h : trailered data = some body) :
    body = data.take (data.length - BLOCK_TRAILER_LEN) := by
  obtain ⟨field, hdata, hfield, -⟩ := trailered_eq_some h
  have hlen : data.length - BLOCK_TRAILER_LEN = body.length := by
    have hmagic : BLOCK_MAGIC.length = 8 := rfl
    rw [hdata, length_append, length_append, hmagic, hfield]
    exact Nat.add_sub_cancel ..
  rw [hlen, hdata, take_left]

/-- A block that seems to have a trailer is never intact in front of it. -/
theorem not_intact_of_trailered (seq : ℤ) (h : trailered (framesBytes fs) = some body) :
    bodyIsIntact body.length (parseFramesFromBytes seq body 0).2.1
      (parseFramesFromBytes seq body 0).2.2 = false := by
  rw [Bool.eq_false_iff]
  intro hintact
  obtain ⟨field, hfile, hfield, -⟩ := trailered_eq_some h
  obtain ⟨k, hk⟩ := frames_of_intact ⟨_, hfile.symm⟩ hintact
  have hlt : k < fs.length := by
    by_contra hge
    rw [take_of_length_le (not_lt.mp hge)] at hk
    have hlen := congrArg List.length hfile
    have hmagic : BLOCK_MAGIC.length = 8 := rfl
    rw [hk, length_append, length_append, hmagic] at hlen
    omega
  have hnext :
      framesBytes fs ++ [] = framesBytes (fs.take k) ++ 65 :: (BLOCK_MAGIC.tail ++ field) := by
    rw [append_nil, ← hk]
    exact hfile
  exact next_byte_ne k hlt hnext

theorem hotblkLoop_shown (blocks : List (List Frame)) :
    ∀ {fuel : ℕ} {seq : ℤ}, blocks.length < fuel → (∀ i (hi : i < blocks.length),
      d.read (blockPath flushDir (seq + i)) = some (sealedFile preallocEnabled blocks[i])) →
      (∀ data, d.read (blockPath flushDir (seq + blocks.length)) = some data →
      splitComplete preallocEnabled data = none) →
      (hotblkLoop preallocEnabled d flushDir fuel seq).1.map Visit.view =
      (shownFrames preallocEnabled blocks).map Frame.view := by
  induction blocks with
  | nil =>
    intro fuel seq hfuel _ hend
    obtain ⟨fuel, rfl⟩ := Nat.exists_eq_succ_of_ne_zero (ne_of_gt hfuel)
    simp only [length_nil, Nat.cast_zero, add_zero] at hend
    cases hread : d.read (blockPath flushDir seq) with
    | none => simp [hotblkLoop, hread, shownFrames]
    | some data => simp [hotblkLoop, hread, hend data hread, shownFrames]
  | cons fs rest ih =>
    intro fuel seq hfuel hfiles hend
    obtain ⟨fuel, rfl⟩ :=
      Nat.exists_eq_succ_of_ne_zero (Nat.ne_of_gt (Nat.lt_of_le_of_lt (Nat.zero_le _) hfuel))
    have hfirst := hfiles 0 (Nat.zero_lt_succ _)
    simp only [Nat.cast_zero, add_zero, getElem_cons_zero] at hfirst
    by_cases hmisread : Misread preallocEnabled fs
    · cases preallocEnabled with
      | true =>
        have hnone : splitComplete true (sealedFile true fs) = none := splitComplete_wide hmisread
        simp [hotblkLoop, hfirst, hnone, shownFrames, hmisread]
      | false =>
        obtain ⟨body, hbody⟩ := isSome_iff_exists.mp hmisread
        have hsplit : splitComplete false (sealedFile false fs) = some body := by
          rw [sealedFile, if_neg Bool.false_ne_true, splitComplete, hbody]
        have htorn := not_intact_of_trailered seq hbody
        have hcut := trailered_eq_take hbody
        obtain ⟨piece, hpiece, hnone⟩ :=
          take_framesBytes ((framesBytes fs).length - BLOCK_TRAILER_LEN) fs
        rw [← hcut] at hpiece
        obtain ⟨torn, hparse, -⟩ := parseFrames_start seq _ hpiece hnone
        rw [hparse] at htorn
        simp [hotblkLoop, hfirst, hsplit, hparse, htorn, shownFrames, if_pos hmisread,
          view_frameVisits]
    · have hseq : ∀ i : ℕ, seq + 1 + (i : ℤ) = seq + ((i + 1 : ℕ) : ℤ) := by
        intro i
        rw [Nat.cast_add, Nat.cast_one]
        omega
      have hlater := @ih fuel (seq + 1) (Nat.lt_of_succ_lt_succ hfuel) (by
        intro i hi
        rw [hseq, hfiles (i + 1) (Nat.succ_lt_succ hi), getElem_cons_succ]) (by
        intro data hdata
        rw [hseq] at hdata
        exact hend data hdata)
      obtain ⟨torn, hparse, -⟩ := parseFrames_start seq fs (append_nil _).symm frameNext_nil
      have hintact := intact_framesBytes seq fs
      rw [hparse] at hintact
      simp [hotblkLoop, hfirst, splitComplete_sealedFile hmisread, hparse, hintact, hlater,
        view_frameVisits, shownFrames, if_neg hmisread]

/-! ### Bindings -/

theorem Sealed.length_le (h : Sealed preallocEnabled d flushDir blocks) :
    blocks.length ≤ d.live.length := by
  apply @blocks_le_live _ d flushDir 1
  intro i hi
  rw [Nat.cast_add, add_comm]
  exact isSome_iff_exists.mpr ⟨_, h.files i hi⟩

theorem pk_rebuild (sh : RecoverShard) : (hotblkRecoverRebuild preallocEnabled d sh).1.pk =
    (hotblkLoop preallocEnabled d sh.flushDir (d.live.length + 1) 1).1.foldl PkIndex.visit
    sh.pk := by
  have hshard := congrArg BlockRecover.RecoverShard.pk
    (@rebuildLoop_shard _ d preallocEnabled (d.live.length + 1) 1 sh 0 0)
  rw [foldl_pk] at hshard
  exact hshard

/-- The recovery binds what the shown frames name. -/
theorem Sealed.recovered (h : Sealed preallocEnabled d flushDir blocks) (name : String) :
    (hotblkRecoverRebuild preallocEnabled d
        (hotblkRecoverOpen flushDir)).1.pk name =
      (lastHash ((shownFrames preallocEnabled blocks).map Frame.view) name).map
        ("sha256:" ++ ·) := by
  have hshown : (hotblkLoop preallocEnabled d flushDir (d.live.length + 1) 1).1.map Visit.view =
      (shownFrames preallocEnabled blocks).map Frame.view := by
    apply hotblkLoop_shown blocks (Nat.lt_succ_of_le h.length_le)
    · intro i hi
      rw [add_comm]
      exact h.files i hi
    · intro data hdata
      rw [add_comm] at hdata
      exact h.unsealed data hdata
  rw [pk_rebuild, foldl_visit]
  change ((lastHash ((hotblkLoop preallocEnabled d flushDir _ 1).1.map Visit.view) name).map _).or
    none = _
  rw [hshown, or_none]

theorem bound_eq (d : Volume) (segPrefix shard name : String) :
    (pkidxRebuild d segPrefix (pkidxOpen shard)).1.map name =
      (lastHash ((walkFrames d segPrefix 0 0).1.map Visit.view) name).map ("sha256:" ++ ·) := by
  have hfold := foldl_visit (walkFrames d segPrefix 0 0).1 (fun _ => none) name
  rw [or_none] at hfold
  exact hfold

theorem shownFrames_prefix (blocks : List (List Frame)) :
    shownFrames preallocEnabled blocks <+: blocks.flatten := by
  induction blocks with
  | nil => exact prefix_rfl
  | cons fs rest ih =>
    rw [shownFrames, flatten_cons]
    split
    · split
      · exact nil_prefix
      · have hwhole := wholeFrames_prefix ((framesBytes fs).length - BLOCK_TRAILER_LEN) fs
        exact hwhole.trans (prefix_append fs _)
    · exact (prefix_append_right_inj fs).mpr ih

theorem shown_append_hidden (blocks : List (List Frame)) :
    shownFrames preallocEnabled blocks ++ hiddenFrames preallocEnabled blocks = blocks.flatten := by
  have hpre : shownFrames preallocEnabled blocks <+: blocks.flatten := shownFrames_prefix blocks
  obtain ⟨rest, hrest⟩ := hpre
  rw [hiddenFrames, ← hrest, drop_left]

/-- With a name's last visit hidden, the recovery and the index agree on it when the last visit
shown has the same hash. -/
theorem recovered_eq_iff {d' : Volume} {segPrefix shard : String}
    (hcut : CutInto (walkFrames d segPrefix 0 0).1 blocks)
    (h : Sealed preallocEnabled d' flushDir blocks) :
    (hotblkRecoverRebuild preallocEnabled d' (hotblkRecoverOpen flushDir)).1.pk =
      (pkidxRebuild d segPrefix (pkidxOpen shard)).1.map ↔ Rebound preallocEnabled blocks := by
  have hall : ∀ name, lastHash ((walkFrames d segPrefix 0 0).1.map Visit.view) name =
      (lastHash ((hiddenFrames preallocEnabled blocks).map Frame.view) name).or
        (lastHash ((shownFrames preallocEnabled blocks).map Frame.view) name) := by
    intro name
    have hviews : blocks.flatten.map Frame.view = (walkFrames d segPrefix 0 0).1.map Visit.view :=
      hcut
    have hsplit : shownFrames preallocEnabled blocks ++ hiddenFrames preallocEnabled blocks =
        blocks.flatten := shown_append_hidden blocks
    rw [← hviews, ← hsplit, map_append, lastHash_append]
  have hinj : Function.Injective (Option.map ("sha256:" ++ ·)) :=
    map_injective fun _ _ => append_cancel
  constructor
  · intro heq name hash hhidden
    have hname := congrFun heq name
    rw [h.recovered, bound_eq] at hname
    have hsame := hinj hname
    rwa [hall, hhidden, some_or] at hsame
  · intro hrebound
    funext name
    rw [h.recovered, bound_eq, hall]
    cases hhidden : lastHash ((hiddenFrames preallocEnabled blocks).map Frame.view) name with
    | none => rfl
    | some hash =>
      rw [hrebound name hash hhidden]
      rfl

/-- The index binds a name to the hash of the last frame of the log that names it, and the content
index has a place for each hash so bound. The recovery from the same frames in sealed blocks binds
the same exactly when the frames that a misread block hides bind nothing anew. -/
theorem bindings_recover_iff (preallocEnabled : Bool) (d : Volume)
    (segPrefix snapPath shard : String) (hsnap : d.read snapPath = none) :
    let visits := (walkFrames d segPrefix 0 0).1
    let bound := (pkidxRebuild d segPrefix (pkidxOpen shard)).1
    let index := (doRebuild WalIndex.projection preallocEnabled d segPrefix snapPath
      WalIndex.projection.openShard).1
    (∀ name, pkidxHas bound name = true ↔ ∃ v ∈ visits, Names v.env name) ∧
      (∀ name hash, bound.map name = some hash → ∃ v, LastNaming visits name v ∧
        hash = "sha256:" ++ v.hexh ∧
          ∃ place, index.map v.hexh = some place ∧ Located d segPrefix v.hexh place) ∧
      ∀ blocks d' flushDir, CutInto visits blocks → Sealed preallocEnabled d' flushDir blocks →
        ((hotblkRecoverRebuild preallocEnabled d'
            (hotblkRecoverOpen flushDir)).1.pk = bound.map ↔
          Rebound preallocEnabled blocks) := by
  refine ⟨?_, ?_, ?_⟩
  · intro name
    rw [pkidxHas, bound_eq, isSome_map, lastHash_isSome]
  · intro name hash hbound
    rw [bound_eq] at hbound
    obtain ⟨hexh, hlast, rfl⟩ := map_eq_some_iff.mp hbound
    obtain ⟨v, hv, rfl⟩ := lastNaming_of_lastHash hlast
    refine ⟨v, hv, rfl, exists_place hsnap ⟨v, ?_, rfl⟩⟩
    obtain ⟨before, after, hvisits, -⟩ := hv
    rw [hvisits]
    exact mem_append_right _ (mem_cons_self ..)
  · intro blocks d' flushDir hcut hsealed
    exact recovered_eq_iff hcut hsealed

end

attribute [local instance] textDigests

/-- A row of the table `t` with the key `p`. -/
def rowFrame (payload : Bytes) (h : payload.length < 10 ^ 10) : Frame :=
  Entry.frame ⟨textBytes "t\t1\tp", payload, by decide +kernel, h⟩

/-- A log of one frame, and a block file of the same shard. -/
def diskCut (f : Frame) (file : Bytes) : Volume :=
  ⟨[⟨framesBytes [f], 0⟩, ⟨file, 0⟩],
    [(".axverity/wal/s-0.log", 0), (".axverity/hotblocks/s/block-1.bin", 1)], []⟩

theorem cutInto_diskCut (f : Frame) (file : Bytes) :
    CutInto (walkFrames (diskCut f file) ".axverity/wal/s-" 0 0).1 [[f]] := by
  have hlog : HoldsFrom (diskCut f file) ".axverity/wal/s-" 0 ([[f]].map framesBytes) := ⟨rfl, rfl⟩
  exact (walkFrames_intact hlog).symm

theorem sealed_diskCut (preallocEnabled : Bool) (f : Frame) :
    Sealed preallocEnabled (diskCut f (sealedFile preallocEnabled [f])) ".axverity/hotblocks/s"
      [[f]] where
  files i hi := by
    obtain rfl : i = 0 := by simpa using hi
    rfl
  unsealed data hdata := by
    have hread : (diskCut f (sealedFile preallocEnabled [f])).read
        (blockPath ".axverity/hotblocks/s" 2) = none := rfl
    cases hread.symm.trans hdata

theorem letter_fits : ([97] : Bytes).length < 10 ^ 10 := by norm_num

/-- The payload `a`. -/
def rowKeyed : Frame := rowFrame [97] letter_fits

theorem bindings_recover_iff_row :
    pkidxHas (pkidxRebuild (diskCut rowKeyed (sealedFile true [rowKeyed]))
        ".axverity/wal/s-" (pkidxOpen "s")).1 "t:p" = true ∧
      (hotblkRecoverRebuild true (diskCut rowKeyed (sealedFile true [rowKeyed]))
          (hotblkRecoverOpen ".axverity/hotblocks/s")).1.pk =
        (pkidxRebuild (diskCut rowKeyed (sealedFile true [rowKeyed])) ".axverity/wal/s-"
          (pkidxOpen "s")).1.map := by
  obtain ⟨hbound, -, hrecovered⟩ := bindings_recover_iff true
    (diskCut rowKeyed (sealedFile true [rowKeyed])) ".axverity/wal/s-" "snap" "s" rfl
  refine ⟨(hbound "t:p").mpr ?_, (hrecovered [[rowKeyed]] _ ".axverity/hotblocks/s" ?_ ?_).mpr ?_⟩
  · exact lastHash_isSome.mp (by decide +kernel)
  · exact cutInto_diskCut _ _
  · exact sealed_diskCut true rowKeyed
  · have hhidden : hiddenFrames true [[rowKeyed]] = [] :=
      eq_nil_of_length_eq_zero (by decide +kernel)
    intro name hash hname
    rw [hhidden] at hname
    cases hname

theorem recovered_has_hash_row : ∃ hash, hotblkRecoverHasHash
    (rebuilt true ".axverity/hotblocks/s" [diskCut rowKeyed (sealedFile true [rowKeyed]),
      diskCut rowKeyed (sealedFile true [rowKeyed])]) hash = true := by
  have hbound := (sealed_diskCut true rowKeyed).recovered "t:p"
  obtain ⟨hash, hlast⟩ : ∃ hash, lastHash ((shownFrames true [[rowKeyed]]).map Frame.view) "t:p" =
      some hash := isSome_iff_exists.mp (by decide +kernel)
  rw [hlast] at hbound
  obtain ⟨again, hagain⟩ : ∃ again, (rebuilt true ".axverity/hotblocks/s"
      [diskCut rowKeyed (sealedFile true [rowKeyed]),
        diskCut rowKeyed (sealedFile true [rowKeyed])]).pk "t:p" = some again := by
    rw [← isSome_iff_exists, rebuilt, foldl_cons, foldl_cons, foldl_nil, pk_rebuild, foldl_visit,
      isSome_or, hbound]
    exact Bool.or_true _
  exact ⟨_, recovered_has_hash hagain⟩

/-- The payload looks like the trailer of what is before it. -/
def rowTrailer : Frame := rowFrame (trailerFor 89) (by decide +kernel)

/-- Where files are renamed into place, a payload that ends its block like a trailer hides its frame
from the recovery. -/
theorem payload_hides_frame : ¬∀ (d : Volume) (segPrefix flushDir : String)
    (blocks : List (List Frame)), CutInto (walkFrames d segPrefix 0 0).1 blocks →
      Sealed false d flushDir blocks →
        (hotblkRecoverRebuild false d (hotblkRecoverOpen flushDir)).1.pk =
          (pkidxRebuild d segPrefix (pkidxOpen "s")).1.map := by
  intro hall
  have heq := congrFun (hall _ _ _ _ (cutInto_diskCut rowTrailer (sealedFile false [rowTrailer]))
    (sealed_diskCut false rowTrailer)) "t:p"
  have hlost : (hotblkRecoverRebuild false (diskCut rowTrailer (sealedFile false [rowTrailer]))
      (hotblkRecoverOpen ".axverity/hotblocks/s")).1.pk "t:p" = none := by
    decide +kernel
  have hbound : (pkidxRebuild (diskCut rowTrailer (sealedFile false [rowTrailer]))
      ".axverity/wal/s-" (pkidxOpen "s")).1.map "t:p" ≠ none := by
    decide +kernel
  exact hbound (heq.symm.trans hlost)

end AxisBridge
