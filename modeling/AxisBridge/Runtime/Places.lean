import AxisBridge.Lib.Pieces
import AxisBridge.Runtime.WalIndex

/-! Where the bytes of a visited frame lie, and what the content index knows after a rebuild without
a snapshot. -/
namespace AxisBridge
open List Option
open Pieces (At at_between)
open WalIndex

variable [Sha256]

/-- A frame stands in these bytes where the visit says, and the visit tells what it holds. -/
def Visit.LiesIn (v : Visit) (data : Bytes) : Prop :=
  ∃ (f : Frame) (off : ℕ), v = visitAt v.seg (off, f.view) ∧ At data off f.bytes

variable {v : Visit} {fv : FrameView} {data body : Bytes} {seg cur off seq : ℤ} {fuel n : ℕ}
  {d : Volume} {segPrefix flushDir : String} {wm : ℤ × ℤ} {preallocEnabled : Bool}

theorem Visit.LiesIn.of_prefix (h : v.LiesIn body) (hpre : body <+: data) : v.LiesIn data := by
  obtain ⟨f, off, hv, hat⟩ := h
  exact ⟨f, off, hv, hat.of_prefix hpre⟩

theorem Frame.payload_at {off : ℕ} (f : Frame) (h : At data off f.bytes) :
    At data (off + (84 + f.env.length)) f.payload := by
  have hhex : (textBytes (sha256Hex f.payload)).length = 64 := length_textBytes_hex _
  have hfront : (textBytes (sha256Hex f.payload) ++ f.plenf ++ f.vlenf ++ f.env).length =
      84 + f.env.length := by
    simp only [length_append, hhex, f.plenf_length, f.vlenf_length]
  have hbytes : f.bytes =
      (textBytes (sha256Hex f.payload) ++ f.plenf ++ f.vlenf ++ f.env) ++ f.payload := by
    simp [Frame.bytes]
  have hpayload : (f.bytes.drop (84 + f.env.length)).take f.payload.length = f.payload := by
    rw [hbytes, ← hfront, drop_left, take_length]
  have hlen : 84 + f.env.length + f.payload.length ≤ f.bytes.length := by
    rw [hbytes, length_append, hfront]
  have hslice := h.slice hlen
  rwa [hpayload] at hslice

/-- What the parser hands on lies where it says. -/
theorem lies_of_readFrame (seg : ℤ) (hlen : n + 84 ≤ data.length)
    (h : readFrame (data.drop n) = some fv) : (visitAt seg (n, fv)).LiesIn data := by
  obtain ⟨f, rfl, more, hmore⟩ := exists_frame (by rw [length_drop]; omega) h
  have hat : At (data.drop n) 0 f.bytes := by
    rw [← hmore]
    exact at_between [] f.bytes more
  exact ⟨f, n, rfl, hat.of_drop⟩

theorem parseLoop_lies (h : v ∈ (parseLoop seg data fuel n).1) : v.seg = seg ∧ v.LiesIn data := by
  induction fuel generalizing n with
  | zero => cases h
  | succ fuel ih =>
    rw [parseLoop] at h
    split at h
    · rename_i hlen
      cases hread : readFrame (data.drop n) with
      | none => simp [hread] at h
      | some fv =>
        simp only [hread] at h
        rcases mem_cons.mp h with rfl | h
        · exact ⟨rfl, lies_of_readFrame seg hlen hread⟩
        · exact ih h
    · cases h

theorem walkLoop_lies (hcur : 0 ≤ cur) (h : v ∈ (walkLoop d segPrefix wm fuel cur off).1) :
    0 ≤ v.seg ∧ ∃ data, readSegment d segPrefix v.seg = some data ∧ v.LiesIn data := by
  induction fuel generalizing cur off with
  | zero => cases h
  | succ fuel ih =>
    cases hread : readSegment d segPrefix cur with
    | none => simp [walkLoop, hread] at h
    | some data =>
      have hhere : ∀ start, v ∈ (parseFramesFromBytes cur data start).1 →
          0 ≤ v.seg ∧ ∃ data, readSegment d segPrefix v.seg = some data ∧ v.LiesIn data := by
        intro start hv
        obtain ⟨hseg, hlies⟩ := parseLoop_lies hv
        exact ⟨hseg ▸ hcur, data, hseg ▸ hread, hlies⟩
      simp only [walkLoop, hread] at h
      generalize (if off < 0 then 0 else off.toNat) = start at h
      split at h
      · rcases mem_append.mp h with h | h
        · exact hhere start h
        · exact ih (by omega) h
      · exact hhere start h

omit [Sha256] in
theorem splitComplete_prefix (h : splitComplete preallocEnabled data = some body) :
    body <+: data := by
  unfold splitComplete at h
  split at h
  · rename_i htrailer
    cases h
    obtain ⟨field, hdata, -⟩ := trailered_eq_some htrailer
    exact ⟨_, hdata.symm⟩
  · split at h
    · cases h
    · cases h
      exact prefix_rfl

theorem hotblkLoop_lies (hseq : 0 < seq)
    (h : v ∈ (hotblkLoop preallocEnabled d flushDir fuel seq).1) :
    0 < v.seg ∧ ∃ data, d.read (blockPath flushDir v.seg) = some data ∧ v.LiesIn data := by
  induction fuel generalizing seq with
  | zero => cases h
  | succ fuel ih =>
    cases hread : d.read (blockPath flushDir seq) with
    | none => simp [hotblkLoop, hread] at h
    | some data =>
      cases hsplit : splitComplete preallocEnabled data with
      | none => simp [hotblkLoop, hread, hsplit] at h
      | some body =>
        have hhere : v ∈ (parseFramesFromBytes seq body 0).1 →
            0 < v.seg ∧ ∃ data, d.read (blockPath flushDir v.seg) = some data ∧ v.LiesIn data := by
          intro hv
          obtain ⟨hseg, hlies⟩ := parseLoop_lies hv
          have hpre := splitComplete_prefix hsplit
          exact ⟨hseg ▸ hseq, data, hseg ▸ hread, hlies.of_prefix hpre⟩
        simp only [hotblkLoop, hread, hsplit] at h
        split at h
        · exact hhere h
        · rcases mem_append.mp h with h | h
          · exact hhere h
          · exact ih (by omega) h

/-! ### The content index -/

/-- The bytes of a place: in a segment, or in the block whose number is negated. -/
def placeBytes (d : Volume) (segPrefix : String) (place : ℤ × ℤ × ℤ) : Option Bytes :=
  let file :=
    if 0 ≤ place.1 then readSegment d segPrefix place.1
    else (hotblkDirFromWalPrefix segPrefix).bind fun dir => d.read (blockPath dir (-place.1))
  file.map fun data => (data.drop place.2.1.toNat).take place.2.2.toNat

/-- A place whose bytes are all there and have the hash. -/
def Located (d : Volume) (segPrefix key : String) (place : ℤ × ℤ × ℤ) : Prop :=
  ∃ bytes, placeBytes d segPrefix place = some bytes ∧ place.2.2 = bytes.length ∧
    sha256Hex bytes = key

/-- The blocks beside a log, as a rebuild walks them. -/
def blockVisitsOf (preallocEnabled : Bool) (d : Volume) (segPrefix : String) : List Visit :=
  match hotblkDirFromWalPrefix segPrefix with
  | none => []
  | some dir => (walkHotblkFrames preallocEnabled d dir 1).1

/-- Read back, it is the payload, and the payload has the hash. -/
theorem Visit.LiesIn.read (h : v.LiesIn data) :
    (data.drop v.poff.toNat).take v.plen.toNat = v.payload ∧ v.plen = v.payload.length ∧
      sha256Hex v.payload = v.hexh := by
  obtain ⟨f, off, hv, hat⟩ := h
  have hoff : v.poff.toNat = off + (84 + f.env.length) := by
    rw [hv]
    simp only [visitAt, Frame.view]
    omega
  have hpayload : v.payload = f.payload := by rw [hv]; rfl
  have hplen : v.plen = f.payload.length := by rw [hv]; rfl
  have hhexh : v.hexh = sha256Hex f.payload := by rw [hv]; rfl
  rw [hoff, hplen, hpayload, hhexh]
  exact ⟨(f.payload_at hat).take_drop, rfl, rfl⟩

theorem located_segment (h : v ∈ (walkFrames d segPrefix 0 0).1) :
    Located d segPrefix v.hexh (v.seg, v.poff, v.plen) := by
  obtain ⟨hseg, data, hread, hlies⟩ := walkLoop_lies le_rfl h
  obtain ⟨hpayload, hplen, hhash⟩ := hlies.read
  refine ⟨v.payload, ?_, hplen, hhash⟩
  simp [placeBytes, if_pos hseg, hread, hpayload]

theorem located_block (h : v ∈ blockVisitsOf preallocEnabled d segPrefix) :
    Located d segPrefix v.hexh (-v.seg, v.poff, v.plen) := by
  unfold blockVisitsOf at h
  cases hdir : hotblkDirFromWalPrefix segPrefix with
  | none => simp [hdir] at h
  | some dir =>
    rw [hdir] at h
    obtain ⟨hseg, data, hread, hlies⟩ := hotblkLoop_lies Int.one_pos h
    obtain ⟨hpayload, hplen, hhash⟩ := hlies.read
    have hneg : ¬ 0 ≤ -v.seg := by omega
    refine ⟨v.payload, ?_, hplen, hhash⟩
    simp only [placeBytes, if_neg hneg, hdir, bind_some, neg_neg, hread, map_some, hpayload]

omit [Sha256] in
theorem bumpFrontier_keeps {M : Type} (sh : Shard M) (seg endOff : ℤ) :
    (sh.bumpFrontier seg endOff).map = sh.map ∧ (sh.bumpFrontier seg endOff).hbSeq = sh.hbSeq := by
  unfold Shard.bumpFrontier
  split <;> exact ⟨rfl, rfl⟩

theorem scanSegments_keeps {M : Type} (P : Projection M) (fromSeg fromOff : ℤ) (sh : Shard M) :
    (scanSegments P d segPrefix fromSeg fromOff sh).1.map =
        (walkFrames d segPrefix fromSeg fromOff).1.foldl P.visitSegment sh.map ∧
      (scanSegments P d segPrefix fromSeg fromOff sh).1.hbSeq = sh.hbSeq :=
  bumpFrontier_keeps _ _ _

theorem scanHotblk_map {M : Type} (P : Projection M) (sh : Shard M) (hseq : sh.hbSeq = 1) :
    (scanHotblk P preallocEnabled d segPrefix sh).1.map =
      (blockVisitsOf preallocEnabled d segPrefix).foldl P.visitBlock sh.map := by
  unfold scanHotblk blockVisitsOf
  cases hotblkDirFromWalPrefix segPrefix with
  | none => rfl
  | some dir => rw [hseq]

/-- Without a snapshot the index comes from the log and the blocks alone. -/
theorem doRebuild_map {snapPath : String} (hsnap : d.read snapPath = none) :
    (doRebuild projection preallocEnabled d segPrefix snapPath projection.openShard).1.map =
      ((walkFrames d segPrefix 0 0).1.map segmentItem ++
        (blockVisitsOf preallocEnabled d segPrefix).map blockItem).foldl insert fun _ => none := by
  have hload : projection.loadSnapshot projection.openShard.map (d.read snapPath) =
      (fun _ => none, 0, 0) := by
    rw [hsnap]
    rfl
  have hrebuild : (doRebuild projection preallocEnabled d segPrefix snapPath
      projection.openShard).1 = (scanHotblk projection preallocEnabled d segPrefix
        (scanSegments projection d segPrefix 0 0 projection.openShard).1).1 := by
    unfold doRebuild
    rw [hload]
    rfl
  obtain ⟨hmap, hseq⟩ := @scanSegments_keeps _ d segPrefix _ projection 0 0 projection.openShard
  rw [hrebuild, scanHotblk_map projection _ hseq, hmap, foldl_append, foldl_map, foldl_map]
  rfl

/-- Each hash of the log has a place in the index, and the bytes there have the hash. -/
theorem exists_place {snapPath key : String} (hsnap : d.read snapPath = none)
    (h : ∃ v ∈ (walkFrames d segPrefix 0 0).1, v.hexh = key) :
    ∃ place, (doRebuild projection preallocEnabled d segPrefix snapPath
        projection.openShard).1.map key = some place ∧ Located d segPrefix key place := by
  rw [doRebuild_map hsnap]
  obtain ⟨v, hv, rfl⟩ := h
  have hmem : segmentItem v ∈ (walkFrames d segPrefix 0 0).1.map segmentItem ++
      (blockVisitsOf preallocEnabled d segPrefix).map blockItem :=
    mem_append_left _ (mem_map_of_mem hv)
  obtain ⟨e, he, hkey, hlast⟩ := Epochs.exists_last (p := fun e => decide (e.1 = v.hexh))
    ⟨_, hmem, decide_eq_true rfl⟩
  refine ⟨e.2, by rw [foldl_insert, hlast]; rfl, ?_⟩
  rw [← of_decide_eq_true hkey]
  rcases mem_append.mp he with he | he
  · obtain ⟨w, hw, rfl⟩ := mem_map.mp he
    exact located_segment hw
  · obtain ⟨w, hw, rfl⟩ := mem_map.mp he
    exact located_block hw

end AxisBridge
