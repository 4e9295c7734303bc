import AxisBridge.Runtime.Frames

/-! The flush worker: seals and timed checkpoints commit the bytes of the active block to the log,
the watermark keeps them from committing the same bytes twice, and a sealed block goes back to the
pool. -/
namespace AxisBridge
open List Option

/-- A parsed job of the worker. -/
inductive Job
  | log (ptr : ℤ) (shard : String) (generation : ℤ) (bytes : Bytes)
  | obj (block : Bytes) (index : String)
  | checkpoint (generation ptr upTo : ℤ)

/-- What a job meets outside the worker: the arena's memory, whether the store accepts its commit,
and the address of a new cell. -/
structure FlushEnv where
  mem : ℤ → UInt8
  accepts : Bool
  cell : ℤ

/-- The worker's watermark, the rows of the log, the anchor and the objects of the store, and what
went back to the pools. -/
structure FlushState where
  watermark : ℤ × ℤ
  log : List String
  anchor : String
  objects : List (Bytes × String)
  pool : List (String × ℤ × ℤ)

/-- Where a job for a generation starts to commit, if there is anything new up to `upTo`, and the
watermark afterwards. -/
def advanceWatermark (generation upTo : ℤ) (wm : ℤ × ℤ) : Option ℤ × (ℤ × ℤ) :=
  if generation < wm.1 then (none, wm)
  else
    let start := if generation = wm.1 then wm.2 else 0
    if upTo ≤ start then (none, if generation > wm.1 then (generation, start) else wm)
    else (some start, (generation, upTo))

def firstLine (s : String) : String := ((split '\n' s).head?).getD ""

section
variable [Sha256]

def advanceAnchor (committedBlock : Bytes) (anchor : String) : String :=
  let prevHex := firstLine anchor
  let hexWithPrefix := bytesHash (textBytes prevHex ++ committedBlock)
  let newHex := (stripPrefix "sha256:" hexWithPrefix).getD hexWithPrefix
  s!"{newHex}\n"

/-- A row of the log and the anchor over it, unless the bytes are no text or the store refuses. The
flag says whether the job goes on. -/
def commitText (env : FlushEnv) (bytes : Bytes) (st : FlushState) : FlushState × Bool :=
  match strFromUtf8 bytes with
  | none => (st, false)
  | some text =>
    if env.accepts then
      ({ st with log := st.log ++ [text], anchor := advanceAnchor bytes st.anchor }, true)
    else (st, false)

/-- One job; the flag says whether it came to its end or panicked. What it had done to the state
before a panic stays. -/
def commitJob (env : FlushEnv) (job : Job) (st : FlushState) : FlushState × Bool :=
  match job with
  | .log ptr shard generation bytes =>
    let advanced := advanceWatermark generation bytes.length st.watermark
    let reconciled : FlushState × Bytes :=
      if shard = "" then (st, bytes)
      else
        ({ st with watermark := advanced.2 },
          match advanced.1 with
          | some start => bytes.drop start.toNat
          | none => [])
    let committed :=
      if reconciled.2 = [] then (reconciled.1, true)
      else commitText env reconciled.2 reconciled.1
    if committed.2 && shard ≠ "" then
      ({ committed.1 with pool := committed.1.pool ++ [(shard, ptr, env.cell)] }, true)
    else committed
  | .obj block index =>
    if env.accepts then
      ({ st with objects := st.objects ++ [(block, index)], anchor :=
        advanceAnchor block st.anchor }, true)
    else (st, false)
  | .checkpoint generation ptr upTo =>
    let advanced := advanceWatermark generation upTo st.watermark
    let reconciled := { st with watermark := advanced.2 }
    match advanced.1 with
    | none => (reconciled, true)
    | some start =>
      if upTo - start ≤ 0 then (reconciled, true)
      else
        match memReadRaw env.mem ptr start (upTo - start) with
        | none => (reconciled, false)
        | some delta => commitText env delta reconciled

/-- One job of the channel with what it met, the rows it appended and whether it came to its end. -/
structure Flushed where
  job : Job
  rows : List String
  finished : Bool

/-- The jobs in the order of the channel; after a panic the worker starts again at the next one. -/
def flushAll (jobs : List (FlushEnv × Job)) (st : FlushState) : FlushState × List Flushed :=
  jobs.foldl (fun acc job =>
    let next := commitJob job.1 job.2 acc.1
    (next.1, acc.2 ++ [⟨job.2, next.1.log.drop acc.1.log.length, next.2⟩])) (st, [])

end

/-! ### The feed of the channel -/

/-- A block of the log family as it is when sealed; its shard's pool manages it. -/
structure LogBlock where
  ptr : ℤ
  shard : String
  generation : ℤ
  bytes : Bytes
  managed : shard ≠ ""

open LogBlock

def LogBlock.sealJob (b : LogBlock) : Job := .log b.ptr b.shard b.generation b.bytes

/-- The memory at `ptr` holds the block's bytes up to `upTo`. -/
def Reads (mem : ℤ → UInt8) (ptr upTo : ℤ) (b : LogBlock) : Prop :=
  ∀ i (hi : i < b.bytes.length), (i : ℤ) < upTo → mem (ptr + i) = b.bytes[i]

/-- The jobs that reach the worker while it seals the blocks in order: a checkpoint of a block comes
after the seal of the block before it, early or late, and asks for no more than the block's final
length. -/
inductive Fed (blocks : List LogBlock) :
    List (FlushEnv × Job) → List LogBlock → List LogBlock → Prop
  | start : Fed blocks [] [] blocks
  | sealed {jobs done b todo} (env : FlushEnv) : Fed blocks jobs done (b :: todo) →
      Fed blocks (jobs ++ [(env, b.sealJob)]) (done ++ [b]) todo
  | early {jobs done b todo} (env : FlushEnv) (ptr upTo : ℤ) : Fed blocks jobs done (b :: todo) →
      upTo ≤ b.bytes.length → Reads env.mem ptr upTo b →
      Fed blocks (jobs ++ [(env, .checkpoint b.generation ptr upTo)]) done (b :: todo)
  | late {jobs done b todo} (env : FlushEnv) (ptr upTo : ℤ) : Fed blocks jobs done todo → b ∈ done →
      upTo ≤ b.bytes.length →
      Fed blocks (jobs ++ [(env, .checkpoint b.generation ptr upTo)]) done todo

/-! ### The anchor -/

theorem lf_not_mem_hex (h : Hash256) : '\n' ∉ (hash256ToHex h).toList := by
  intro hmem
  obtain ⟨k, hk, heq⟩ := hexDigit_of_mem hmem
  have hnot : ∀ k < 16, '\n' ≠ hexDigit k := by decide
  exact hnot k hk heq

theorem splitChars_of_not_mem {cs : List Char} (rest : List Char) (h : '\n' ∉ cs) :
    ∃ pieces, splitChars '\n' (cs ++ '\n' :: rest) = cs :: pieces := by
  induction cs with
  | nil =>
    cases hrest : splitChars '\n' rest with
    | nil => exact ⟨[], by simp [splitChars, hrest]⟩
    | cons piece pieces => exact ⟨piece :: pieces, by simp [splitChars, hrest]⟩
  | cons c cs ih =>
    rw [mem_cons, not_or] at h
    obtain ⟨pieces, hpieces⟩ := ih h.2
    have hc : (c == '\n') = false := beq_eq_false_iff_ne.mpr (Ne.symm h.1)
    exact ⟨pieces, by simp [splitChars, hpieces, hc]⟩

theorem firstLine_append_lf {s : String} (h : '\n' ∉ s.toList) : firstLine (s ++ "\n") = s := by
  obtain ⟨pieces, hpieces⟩ := splitChars_of_not_mem [] h
  have hchars : (s ++ "\n").toList = s.toList ++ ['\n'] := String.toList_append
  simp [firstLine, split, hchars, hpieces]

section
variable [Sha256]

/-- The chain rule of the anchor over the rows. -/
def chainHex (prevHex row : String) : String := sha256Hex (textBytes prevHex ++ textBytes row)

theorem advanceAnchor_eq (bytes : Bytes) (anchor : String) :
    advanceAnchor bytes anchor = sha256Hex (textBytes (firstLine anchor) ++ bytes) ++ "\n" := by
  have hstrip : stripPrefix "sha256:" (bytesHash (textBytes (firstLine anchor) ++ bytes)) =
      some (sha256Hex (textBytes (firstLine anchor) ++ bytes)) := stripPrefix_append
  simp only [advanceAnchor, hstrip]
  rfl

/-- The anchor after some rows: the chain over them from the hash it held. -/
theorem foldl_advanceAnchor (rows : List String) (anchor : String) :
    rows.foldl (fun anchor row => advanceAnchor (textBytes row) anchor) anchor =
      if rows = [] then anchor else rows.foldl chainHex (firstLine anchor) ++ "\n" := by
  induction rows generalizing anchor with
  | nil => rfl
  | cons row rows ih =>
    have hfirst : firstLine (advanceAnchor (textBytes row) anchor) =
        chainHex (firstLine anchor) row := by
      rw [advanceAnchor_eq]
      exact firstLine_append_lf (lf_not_mem_hex _)
    rw [foldl_cons, ih, hfirst, if_neg (cons_ne_nil _ _), foldl_cons]
    split
    · rename_i hnil
      rw [hnil, advanceAnchor_eq]
      rfl
    · rfl

end

/-! ### The watermark -/

/-- How much of a generation the watermark counts as committed. -/
def progress (wm : ℤ × ℤ) (generation : ℤ) : ℤ := if generation = wm.1 then wm.2 else 0

theorem advanceWatermark_ahead {g upTo : ℤ} {wm : ℤ × ℤ} (h : wm.1 ≤ g) :
    advanceWatermark g upTo wm =
      (if upTo ≤ progress wm g then
        none else some (progress wm g), (g, max (progress wm g) upTo)) := by
  have hnot : ¬ g < wm.1 := by omega
  unfold advanceWatermark
  rw [if_neg hnot]
  change (if upTo ≤ progress wm g then _ else _) = _
  by_cases hle : upTo ≤ progress wm g
  · rw [if_pos hle, if_pos hle, max_eq_left hle]
    by_cases heq : g = wm.1
    · have hp : progress wm g = wm.2 := if_pos heq
      rw [if_neg (by omega), hp, heq]
    · rw [if_pos (by omega)]
      rfl
  · rw [if_neg hle, if_neg hle, max_eq_right (by omega)]
    rfl

theorem advanceWatermark_passed {g upTo : ℤ} {wm : ℤ × ℤ} (h : g < wm.1 ∨ g = wm.1 ∧ upTo ≤ wm.2) :
    advanceWatermark g upTo wm = (none, wm) := by
  unfold advanceWatermark
  by_cases hlt : g < wm.1
  · rw [if_pos hlt]
  · have heq : g = wm.1 ∧ upTo ≤ wm.2 := by omega
    rw [if_neg hlt, if_pos heq.1, if_pos heq.2, if_neg (by omega)]

theorem advanceWatermark_lt {g upTo start : ℤ} {wm : ℤ × ℤ}
    (h : (advanceWatermark g upTo wm).1 = some start) : start < upTo := by
  by_cases hpast : g < wm.1
  · rw [advanceWatermark_passed (.inl hpast)] at h
    cases h
  · rw [advanceWatermark_ahead (not_lt.mp hpast)] at h
    simp only at h
    split at h
    · cases h
    · cases h
      omega

/-- The watermark has passed the blocks that are done and is not beyond the one in progress. -/
structure Tracks (done todo : List LogBlock) (wm : ℤ × ℤ) : Prop where
  passed : ∀ b ∈ done, b.generation < wm.1 ∨ b.generation = wm.1 ∧ (b.bytes.length : ℤ) ≤ wm.2
  ahead : ∀ b ∈ todo.head?, wm.1 ≤ b.generation ∧ 0 ≤ progress wm b.generation ∧
    progress wm b.generation ≤ b.bytes.length

theorem memReadRaw_eq {mem : ℤ → UInt8} {ptr p upTo : ℤ} {b : LogBlock}
    (hreads : Reads mem ptr upTo b) (hp : 0 ≤ p) (hlt : p < upTo) (hle : upTo ≤ b.bytes.length) :
    memReadRaw mem ptr p (upTo - p) = some ((b.bytes.take upTo.toNat).drop p.toNat) := by
  have hneg : ¬ (p < 0 ∨ upTo - p < 0) := by omega
  rw [memReadRaw, if_neg hneg, some.injEq]
  apply ext_getElem
  · simp only [length_map, length_range, length_drop, length_take]
    omega
  · intro i hi hi'
    simp only [length_map, length_range] at hi
    simp only [getElem_map, getElem_range, getElem_drop, getElem_take]
    have hread := hreads (p.toNat + i) (by omega) (by omega)
    rw [← hread]
    congr 1
    omega

/-! ### The block in progress -/

section
variable {b : LogBlock} {steps : List Flushed} {s : Flushed} {p t : ℕ}
  {blocks done todo : List LogBlock} {jobs : List (FlushEnv × Job)}

def Job.generation : Job → Option ℤ
  | .log _ _ generation _ => some generation
  | .obj _ _ => none
  | .checkpoint generation _ _ => some generation

/-- The bytes that the jobs of a generation have committed. -/
def committedFor (generation : ℤ) (steps : List Flushed) : Bytes :=
  (steps.filter fun s => s.job.generation = some generation).flatMap fun s =>
    s.rows.flatMap textBytes

/-- The commits of a block up to `p`: all of its bytes there, unless a job for it panicked, and then
fewer. -/
structure InProgress (b : LogBlock) (steps : List Flushed) (p : ℕ) : Prop where
  le : (committedFor b.generation steps).length ≤ p
  whole : (∀ s ∈ steps, s.job.generation = some b.generation → s.finished = true) →
    committedFor b.generation steps = b.bytes.take p
  lost : (∃ s ∈ steps, s.job.generation = some b.generation ∧ s.finished = false) →
    (committedFor b.generation steps).length < p

theorem take_append_piece (l : Bytes) (p t : ℕ) :
    l.take p ++ (l.take t).drop p = l.take (max p t) := by
  rcases Nat.le_total p t with h | h
  · have htake : l.take p = (l.take t).take p := by rw [take_take, min_eq_left h]
    rw [htake, take_append_drop, max_eq_right h]
  · have hnil : (l.take t).drop p = [] := by
      apply drop_eq_nil_of_le
      rw [length_take]
      omega
    rw [hnil, append_nil, max_eq_left h]

theorem committedFor_concat_own (h : s.job.generation = some b.generation) :
    committedFor b.generation (steps ++ [s]) =
      committedFor b.generation steps ++ s.rows.flatMap textBytes := by
  simp [committedFor, filter_append, h]

theorem committedFor_concat_other {g : ℤ} (steps : List Flushed) (h : s.job.generation ≠ some g) :
    committedFor g (steps ++ [s]) = committedFor g steps := by
  simp [committedFor, filter_append, h]

theorem InProgress.own (hb : InProgress b steps p) (hgen : s.job.generation = some b.generation)
    (ht : t ≤ b.bytes.length)
    (hs : s.finished = true ∧ s.rows.flatMap textBytes = (b.bytes.take t).drop p ∨
      s.finished = false ∧ s.rows = [] ∧ (b.bytes.take t).drop p ≠ []) :
    InProgress b (steps ++ [s]) (max p t) := by
  have hlen : ((b.bytes.take t).drop p).length = max p t - p := by
    rw [length_drop, length_take]
    omega
  have hle := hb.le
  rcases hs with ⟨hfin, hrows⟩ | ⟨hfin, hrows, hne⟩
  · refine ⟨?_, ?_, ?_⟩
    · rw [committedFor_concat_own hgen, hrows, length_append, hlen]
      omega
    · intro hall
      have hold := hb.whole fun s' hs' => hall s' (mem_append_left _ hs')
      rw [committedFor_concat_own hgen, hrows, hold, take_append_piece]
    · rintro ⟨s', hs', hgen', hbad⟩
      rcases mem_append.mp hs' with hs' | hs'
      · have hlost := hb.lost ⟨s', hs', hgen', hbad⟩
        rw [committedFor_concat_own hgen, hrows, length_append, hlen]
        omega
      · rw [mem_singleton] at hs'
        rw [hs', hfin] at hbad
        cases hbad
  · have hpos := length_pos_of_ne_nil hne
    rw [hlen] at hpos
    have hsame : committedFor b.generation (steps ++ [s]) = committedFor b.generation steps := by
      rw [committedFor_concat_own hgen, hrows]
      exact append_nil _
    refine ⟨?_, ?_, ?_⟩
    · rw [hsame]
      omega
    · intro hall
      have hgood := hall s (mem_append_right _ mem_cons_self) hgen
      rw [hfin] at hgood
      cases hgood
    · intro _
      rw [hsame]
      omega

theorem InProgress.other (hb : InProgress b steps p) (hgen : s.job.generation ≠ some b.generation) :
    InProgress b (steps ++ [s]) p := by
  have hsame := committedFor_concat_other steps hgen
  refine ⟨hsame ▸ hb.le, ?_, ?_⟩
  · intro hall
    rw [hsame]
    exact hb.whole fun s' hs' => hall s' (mem_append_left _ hs')
  · rintro ⟨s', hs', hgen', hbad⟩
    rw [hsame]
    rcases mem_append.mp hs' with hs' | hs'
    · exact hb.lost ⟨s', hs', hgen', hbad⟩
    · rw [mem_singleton] at hs'
      exact absurd (hs' ▸ hgen') hgen

/-- No job for a block has run yet. -/
theorem InProgress.fresh (h : ∀ s ∈ steps, s.job.generation ≠ some b.generation) :
    InProgress b steps 0 := by
  have hnil : committedFor b.generation steps = [] := by
    have hfilter : (steps.filter fun s => s.job.generation = some b.generation) = [] := by
      apply filter_eq_nil_iff.mpr
      intro s hs
      simpa using h s hs
    simp [committedFor, hfilter]
  refine ⟨by rw [hnil]; rfl, fun _ => by rw [hnil]; rfl, ?_⟩
  rintro ⟨s, hs, hgen, -⟩
  exact absurd hgen (h s hs)

theorem Fed.blocks_eq (h : Fed blocks jobs done todo) : blocks = done ++ todo := by
  induction h with
  | start => rfl
  | sealed env _ ih => simpa using ih
  | early env ptr upTo _ _ _ ih => exact ih
  | late env ptr upTo _ _ _ ih => exact ih

/-- The jobs for the block in progress are its checkpoints. -/
theorem Fed.checkpoint_of_generation (h : Fed blocks jobs done (b :: todo))
    (hord : blocks.Pairwise fun b c => b.generation < c.generation) {env : FlushEnv} {job : Job}
    (hmem : (env, job) ∈ jobs) (hgen : job.generation = some b.generation) :
    ∃ ptr upTo, job = .checkpoint b.generation ptr upTo := by
  have hcases : ∀ {done todo}, Fed blocks jobs done todo →
      (∃ d ∈ done, job = d.sealJob) ∨ ∃ g ptr upTo, job = .checkpoint g ptr upTo := by
    intro done todo hfed
    clear h
    induction hfed with
    | start => cases hmem
    | @sealed jobs done d todo env' _ ih =>
      rcases mem_append.mp hmem with hmem | hmem
      · rcases ih hmem with ⟨d', hd', heq⟩ | hcheck
        · exact .inl ⟨d', mem_append_left _ hd', heq⟩
        · exact .inr hcheck
      · rw [mem_singleton] at hmem
        exact .inl ⟨d, by simp, congrArg Prod.snd hmem⟩
    | early env' ptr upTo _ _ _ ih | late env' ptr upTo _ _ _ ih =>
      rcases mem_append.mp hmem with hmem | hmem
      · exact ih hmem
      · rw [mem_singleton] at hmem
        exact .inr ⟨_, ptr, upTo, congrArg Prod.snd hmem⟩
  rcases hcases h with ⟨d, hd, rfl⟩ | ⟨g, ptr, upTo, rfl⟩
  · rw [h.blocks_eq, pairwise_append] at hord
    have hlt := hord.2.2 d hd b mem_cons_self
    have heq : d.generation = b.generation := some.inj hgen
    omega
  · cases hgen
    exact ⟨ptr, upTo, rfl⟩

end

/-! ### What one job does -/

section
variable [Sha256] {env : FlushEnv} {b : LogBlock} {st st' : FlushState} {piece : Bytes}
  {ptr upTo : ℤ} {blocks done todo : List LogBlock} {jobs : List (FlushEnv × Job)}

/-- A commit of some bytes, of none at once. -/
def commitPiece (env : FlushEnv) (piece : Bytes) (st : FlushState) : FlushState × Bool :=
  if piece = [] then (st, true) else commitText env piece st

/-- Either the bytes are in the log as rows, with the anchor over them, or nothing happened and
there were bytes. -/
theorem commitPiece_cases (env : FlushEnv) (piece : Bytes) (st : FlushState) :
    (∃ rows, rows.flatMap textBytes = piece ∧ commitPiece env piece st =
        ({ st with
            log := st.log ++ rows,
            anchor :=
              rows.foldl (fun anchor row => advanceAnchor (textBytes row) anchor) st.anchor },
          true)) ∨
      piece ≠ [] ∧ commitPiece env piece st = (st, false) := by
  unfold commitPiece
  by_cases hnil : piece = []
  · left
    refine ⟨[], hnil.symm, ?_⟩
    rw [if_pos hnil, append_nil]
    rfl
  · rw [if_neg hnil, commitText]
    cases htext : strFromUtf8 piece with
    | none => exact .inr ⟨hnil, rfl⟩
    | some text =>
      cases haccept : env.accepts with
      | false => exact .inr ⟨hnil, rfl⟩
      | true =>
        have hbytes := strFromUtf8_eq_some.mp htext
        refine .inl ⟨[text], ?_, ?_⟩
        · simp [hbytes]
        · simp [hbytes]

theorem commitJob_checkpoint (hreads : Reads env.mem ptr upTo b) (hle : upTo ≤ b.bytes.length)
    (hgen : st.watermark.1 ≤ b.generation) (hp : 0 ≤ progress st.watermark b.generation) :
    let p := progress st.watermark b.generation
    commitJob env (.checkpoint b.generation ptr upTo) st =
      commitPiece env ((b.bytes.take upTo.toNat).drop p.toNat)
        { st with watermark := (b.generation, max p upTo) } := by
  intro p
  simp only [commitJob, advanceWatermark_ahead hgen]
  by_cases hnew : upTo ≤ p
  · have hnil : (b.bytes.take upTo.toNat).drop p.toNat = [] := by
      apply drop_eq_nil_of_le
      rw [length_take]
      omega
    rw [if_pos hnew, commitPiece, if_pos hnil]
  · have hmem := memReadRaw_eq hreads hp (not_le.mp hnew) hle
    have hlen : ¬ upTo - p ≤ 0 := by omega
    have hne : (b.bytes.take upTo.toNat).drop p.toNat ≠ [] := by
      intro hnil
      have hlen := congrArg List.length hnil
      rw [length_drop, length_take, length_nil] at hlen
      omega
    simp only [if_neg hnew, if_neg hlen, hmem, commitPiece, if_neg hne, p]

theorem commitJob_seal (env : FlushEnv) (hgen : st.watermark.1 ≤ b.generation)
    (hle : progress st.watermark b.generation ≤ b.bytes.length) :
    let p := progress st.watermark b.generation
    let committed := commitPiece env (b.bytes.drop p.toNat)
      { st with watermark := (b.generation, b.bytes.length) }
    commitJob env b.sealJob st =
      if committed.2 then
        ({ committed.1 with pool := committed.1.pool ++ [(b.shard, b.ptr, env.cell)] }, true)
      else committed := by
  intro p committed
  have hmax : max (progress st.watermark b.generation) (b.bytes.length : ℤ) = b.bytes.length :=
    max_eq_right hle
  have hmanaged : (b.shard ≠ "") = True := eq_true b.managed
  simp only [commitJob, sealJob, advanceWatermark_ahead hgen, hmax, if_neg b.managed]
  have hpiece : (match (if (b.bytes.length : ℤ) ≤ p then none else some p : Option ℤ) with
      | some start => b.bytes.drop start.toNat
      | none => []) = b.bytes.drop p.toNat := by
    by_cases hnew : (b.bytes.length : ℤ) ≤ p
    · rw [if_pos hnew, drop_eq_nil_of_le (by omega)]
    · rw [if_neg hnew]
  simp only [p] at hpiece
  simp only [hpiece, ← commitPiece.eq_1, hmanaged, decide_true, Bool.and_true]
  rfl

theorem commitJob_passed (hpassed : b.generation < st.watermark.1 ∨
    b.generation = st.watermark.1 ∧ upTo ≤ st.watermark.2) :
    commitJob env (.checkpoint b.generation ptr upTo) st = (st, true) := by
  simp only [commitJob, advanceWatermark_passed hpassed]

/-- A commit of what a block has new up to `upTo`: its rows are in the log, or the job panicked and
there was something new. -/
def Commits (b : LogBlock) (upTo : ℤ) (st : FlushState) (next : FlushState × Bool) : Prop :=
  let p := progress st.watermark b.generation
  let piece := (b.bytes.take upTo.toNat).drop p.toNat
  next.1.watermark = (b.generation, max p upTo) ∧ ∃ rows, next.1.log = st.log ++ rows ∧
    next.1.anchor = rows.foldl (fun anchor row => advanceAnchor (textBytes row) anchor) st.anchor ∧
    (next.2 = true ∧ rows.flatMap textBytes = piece ∨ next.2 = false ∧ rows = [] ∧ piece ≠ [])

theorem checkpoint_commits (hreads : Reads env.mem ptr upTo b) (hle : upTo ≤ b.bytes.length)
    (hgen : st.watermark.1 ≤ b.generation) (hp : 0 ≤ progress st.watermark b.generation) :
    Commits b upTo st (commitJob env (.checkpoint b.generation ptr upTo) st) := by
  have hjob := commitJob_checkpoint hreads hle hgen hp
  simp only at hjob
  rw [hjob]
  rcases commitPiece_cases env _ _ with ⟨rows, hrows, hcommit⟩ | ⟨hne, hcommit⟩
  · rw [hcommit]
    exact ⟨rfl, rows, rfl, rfl, .inl ⟨rfl, hrows⟩⟩
  · rw [hcommit]
    exact ⟨rfl, [], (append_nil _).symm, rfl, .inr ⟨rfl, rfl, hne⟩⟩

theorem seal_commits (env : FlushEnv) (hgen : st.watermark.1 ≤ b.generation)
    (hle : progress st.watermark b.generation ≤ b.bytes.length) :
    Commits b b.bytes.length st (commitJob env b.sealJob st) := by
  have hjob := commitJob_seal env hgen hle
  have hmax : max (progress st.watermark b.generation) (b.bytes.length : ℤ) = b.bytes.length :=
    max_eq_right hle
  simp only at hjob
  rw [hjob]
  unfold Commits
  simp only [Int.toNat_natCast, take_length, hmax]
  rcases commitPiece_cases env _ _ with ⟨rows, hrows, hcommit⟩ | ⟨hne, hcommit⟩
  · rw [hcommit]
    exact ⟨rfl, rows, rfl, rfl, .inl ⟨rfl, hrows⟩⟩
  · rw [hcommit]
    exact ⟨rfl, [], (append_nil _).symm, rfl, .inr ⟨rfl, rfl, hne⟩⟩

/-! ### What a whole feed does -/

theorem flushAll_concat (jobs : List (FlushEnv × Job)) (env : FlushEnv) (job : Job)
    (st : FlushState) : flushAll (jobs ++ [(env, job)]) st =
      let r := flushAll jobs st
      let next := commitJob env job r.1
      (next.1, r.2 ++ [⟨job, next.1.log.drop r.1.log.length, next.2⟩]) := by
  simp [flushAll, foldl_append]

/-- After the jobs of a feed: where the watermark stands, what the log and the anchor hold, and how
far the block in progress has come. -/
structure Settled (st₀ : FlushState) (done todo : List LogBlock) (r : FlushState × List Flushed) :
    Prop where
  tracks : Tracks done todo r.1.watermark
  log : r.1.log = st₀.log ++ r.2.flatMap Flushed.rows
  anchor : r.1.anchor = (r.2.flatMap Flushed.rows).foldl
    (fun anchor row => advanceAnchor (textBytes row) anchor) st₀.anchor
  known : ∀ s ∈ r.2, ∃ b ∈ done ++ todo.head?.toList, s.job.generation = some b.generation
  head : ∀ b ∈ todo.head?, InProgress b r.2 (progress r.1.watermark b.generation).toNat
  whole : (∀ s ∈ r.2, s.finished = true) → (r.2.flatMap Flushed.rows).flatMap textBytes =
    done.flatMap bytes ++ (todo.head?.toList.flatMap fun b =>
      b.bytes.take (progress r.1.watermark b.generation).toNat)

variable {r : FlushState × List Flushed} {st₀ : FlushState} {job : Job} {t : ℤ}

/-- The feed after one more job. -/
def stepped (r : FlushState × List Flushed) (job : Job) (next : FlushState × Bool) :
    FlushState × List Flushed :=
  (next.1, r.2 ++ [⟨job, next.1.log.drop r.1.log.length, next.2⟩])

/-- A commit for the block in progress moves the watermark, and the block's commits with it. -/
theorem Settled.own (h : Settled st₀ done (b :: todo) r) (job : Job) {next : FlushState × Bool}
    (hgen : job.generation = some b.generation) (ht : t ≤ b.bytes.length)
    (hcommit : Commits b t r.1 next) :
    let p := max (progress r.1.watermark b.generation) t
    let r' := stepped r job next
    r'.1.watermark = (b.generation, p) ∧
      r'.1.log = st₀.log ++ r'.2.flatMap Flushed.rows ∧
      r'.1.anchor = (r'.2.flatMap Flushed.rows).foldl
        (fun anchor row => advanceAnchor (textBytes row) anchor) st₀.anchor ∧
      InProgress b r'.2 p.toNat ∧
      ((∀ s ∈ r'.2, s.finished = true) → (r'.2.flatMap Flushed.rows).flatMap textBytes =
        done.flatMap bytes ++ b.bytes.take p.toNat) := by
  intro p r'
  obtain ⟨hwm, rows, hlog, hanchor, hrows⟩ := hcommit
  obtain ⟨-, hp, -⟩ := h.tracks.ahead b rfl
  have hhead := h.head b rfl
  have hdrop : next.1.log.drop r.1.log.length = rows := by rw [hlog, drop_left]
  have hflat : r'.2.flatMap Flushed.rows = r.2.flatMap Flushed.rows ++ rows := by
    simp [r', stepped, hdrop]
  have hmax : p.toNat = max (progress r.1.watermark b.generation).toNat t.toNat := by omega
  refine ⟨hwm, ?_, ?_, ?_, ?_⟩
  · rw [hflat, ← append_assoc, ← h.log]
    exact hlog
  · rw [hflat, foldl_append, ← h.anchor]
    exact hanchor
  · rw [hmax]
    exact hhead.own hgen (by omega) (by rw [hdrop]; exact hrows)
  · intro hall
    have hfin : next.2 = true := hall _ (mem_append_right _ mem_cons_self)
    have hold := h.whole fun s hs => hall s (mem_append_left _ hs)
    rcases hrows with ⟨-, hrows⟩ | ⟨hbad, -⟩
    · rw [hflat, flatMap_append, hold, hrows, hmax, ← take_append_piece]
      simp
    · rw [hfin] at hbad
      cases hbad

theorem Settled.early (h : Settled st₀ done (b :: todo) r) {next : FlushState × Bool}
    (hgen : job.generation = some b.generation) (ht : t ≤ b.bytes.length)
    (hcommit : Commits b t r.1 next) (hord : ∀ d ∈ done, d.generation < b.generation) :
    Settled st₀ done (b :: todo) (stepped r job next) := by
  obtain ⟨hwm, hlog, hanchor, hhead, hwhole⟩ := h.own job hgen ht hcommit
  obtain ⟨hge, hp, hle⟩ := h.tracks.ahead b rfl
  have hprogress : progress (stepped r job next).1.watermark b.generation =
      max (progress r.1.watermark b.generation) t := by rw [hwm]; exact if_pos rfl
  refine ⟨⟨?_, ?_⟩, hlog, hanchor, ?_, ?_, ?_⟩
  · intro d hd
    rw [hwm]
    exact .inl (hord d hd)
  · rintro c ⟨⟩
    rw [hprogress, hwm]
    exact ⟨le_rfl, by omega, by omega⟩
  · intro s hs
    rcases mem_append.mp hs with hs | hs
    · exact h.known s hs
    · rw [mem_singleton] at hs
      exact ⟨b, by simp, hs ▸ hgen⟩
  · rintro c ⟨⟩
    rw [hprogress]
    exact hhead
  · intro hall
    rw [hwhole hall]
    simp [hprogress]

theorem Settled.sealed (h : Settled st₀ done (b :: todo) r) {next : FlushState × Bool}
    (hgen : job.generation = some b.generation) (hcommit : Commits b b.bytes.length r.1 next)
    (hord : ∀ d ∈ done, d.generation < b.generation)
    (hnext : ∀ c ∈ todo.head?, b.generation < c.generation) :
    Settled st₀ (done ++ [b]) todo (stepped r job next) := by
  obtain ⟨hwm, hlog, hanchor, -, hwhole⟩ := h.own job hgen le_rfl hcommit
  obtain ⟨hge, hp, hle⟩ := h.tracks.ahead b rfl
  rw [max_eq_right hle] at hwm hwhole
  have hzero : ∀ c ∈ todo.head?, progress (stepped r job next).1.watermark c.generation = 0 := by
    intro c hc
    have hlt := hnext c hc
    rw [hwm]
    exact if_neg (by simp only; omega)
  have hknown : ∀ s ∈ (stepped r job next).2,
      ∃ d ∈ done ++ [b], s.job.generation = some d.generation := by
    intro s hs
    rcases mem_append.mp hs with hs | hs
    · exact h.known s hs
    · rw [mem_singleton] at hs
      exact ⟨b, by simp, hs ▸ hgen⟩
  refine ⟨⟨?_, ?_⟩, hlog, hanchor, ?_, ?_, ?_⟩
  · intro d hd
    rw [hwm]
    rcases mem_append.mp hd with hd | hd
    · exact .inl (hord d hd)
    · rw [mem_singleton] at hd
      exact .inr ⟨congrArg generation hd, by rw [hd]⟩
  · intro c hc
    have hlt := hnext c hc
    rw [hzero c hc, hwm]
    exact ⟨hlt.le, le_rfl, Int.natCast_nonneg _⟩
  · intro s hs
    obtain ⟨d, hd, hd'⟩ := hknown s hs
    exact ⟨d, mem_append_left _ hd, hd'⟩
  · intro c hc
    rw [hzero c hc]
    apply InProgress.fresh
    intro s hs heq
    obtain ⟨d, hd, hd'⟩ := hknown s hs
    have hlt := hnext c hc
    have hgens : d.generation = c.generation := some.inj (hd'.symm.trans heq)
    rcases mem_append.mp hd with hd | hd
    · have hbefore := hord d hd
      omega
    · rw [mem_singleton] at hd
      rw [hd] at hgens
      omega
  · intro hall
    rw [hwhole hall]
    cases todo with
    | nil => simp
    | cons c todo => simp [hzero c rfl]

theorem Settled.late (h : Settled st₀ done todo r) {d : LogBlock} (hd : d ∈ done)
    (ht : t ≤ d.bytes.length) (hord : ∀ b ∈ todo.head?, d.generation < b.generation)
    (env : FlushEnv) (ptr : ℤ) :
    Settled st₀ done todo (stepped r (.checkpoint d.generation ptr t)
      (commitJob env (.checkpoint d.generation ptr t) r.1)) := by
  have hpassed : d.generation < r.1.watermark.1 ∨
      d.generation = r.1.watermark.1 ∧ t ≤ r.1.watermark.2 := by
    have hcases := h.tracks.passed d hd
    omega
  rw [commitJob_passed hpassed]
  have hflat : (stepped r (.checkpoint d.generation ptr t) (r.1, true)).2.flatMap Flushed.rows =
      r.2.flatMap Flushed.rows := by
    simp [stepped]
  refine ⟨h.tracks, ?_, ?_, ?_, ?_, ?_⟩
  · rw [hflat]
    exact h.log
  · rw [hflat]
    exact h.anchor
  · intro s hs
    rcases mem_append.mp hs with hs | hs
    · exact h.known s hs
    · rw [mem_singleton] at hs
      exact ⟨d, mem_append_left _ hd, by rw [hs]; rfl⟩
  · intro b hb
    apply (h.head b hb).other
    intro heq
    have hlt := hord b hb
    have hgens : d.generation = b.generation := some.inj heq
    omega
  · intro hall
    rw [hflat]
    exact h.whole fun s hs => hall s (mem_append_left _ hs)

/-- Whatever the jobs of a feed met, they leave the log and the watermark settled. -/
theorem Fed.settled (h : Fed blocks jobs done todo)
    (hord : blocks.Pairwise fun b c => b.generation < c.generation)
    (hnn : ∀ b ∈ blocks, 0 ≤ b.generation) (st₀ : FlushState) (hwm : st₀.watermark = (0, 0)) :
    Settled st₀ done todo (flushAll jobs st₀) := by
  have hbefore : ∀ {done todo : List LogBlock} {d b : LogBlock}, blocks = done ++ todo → d ∈ done →
      b ∈ todo → d.generation < b.generation := by
    intro done todo d b heq hd hb
    rw [heq, pairwise_append] at hord
    exact hord.2.2 d hd b hb
  have hmem : ∀ {todo : List LogBlock} {b : LogBlock}, b ∈ todo.head? → b ∈ todo :=
    fun hb => mem_of_mem_head? hb
  induction h with
  | start =>
    have hzero : ∀ b ∈ blocks.head?, progress st₀.watermark b.generation = 0 := by
      intro b hb
      rw [hwm, progress]
      split <;> rfl
    refine ⟨⟨nofun, ?_⟩, (append_nil _).symm, rfl, nofun, ?_, ?_⟩
    · intro b hb
      change st₀.watermark.1 ≤ _ ∧ 0 ≤ progress st₀.watermark _ ∧ progress st₀.watermark _ ≤ _
      rw [hzero b hb, hwm]
      exact ⟨hnn b (hmem hb), le_rfl, Int.natCast_nonneg _⟩
    · intro b hb
      change InProgress b [] (progress st₀.watermark _).toNat
      rw [hzero b hb]
      exact InProgress.fresh nofun
    · intro _
      change [] = _
      cases blocks with
      | nil => rfl
      | cons b blocks =>
        have hb := hzero b rfl
        simp [flushAll, hb]
  | @sealed jobs done b todo env hfed ih =>
    have heq := hfed.blocks_eq
    obtain ⟨hge, hp, hle⟩ := ih.tracks.ahead b rfl
    rw [flushAll_concat]
    refine ih.sealed rfl (seal_commits env hge hle) (fun d hd => hbefore heq hd mem_cons_self) ?_
    intro c hc
    have hsplit : blocks = (done ++ [b]) ++ todo := by simpa using heq
    exact hbefore hsplit (by simp) (hmem hc)
  | @early jobs done b todo env ptr upTo hfed ht hreads ih =>
    have heq := hfed.blocks_eq
    obtain ⟨hge, hp, hle⟩ := ih.tracks.ahead b rfl
    rw [flushAll_concat]
    exact ih.early rfl ht (checkpoint_commits hreads ht hge hp)
      fun d hd => hbefore heq hd mem_cons_self
  | @late jobs done d todo env ptr upTo hfed hd ht ih =>
    rw [flushAll_concat]
    exact ih.late hd ht (fun b hb => hbefore hfed.blocks_eq hd (hmem hb)) env ptr

/-- The seals and checkpoints of a feed whose commits all succeed leave every byte of the sealed
blocks in the log once, in order, and the anchor is the chain over the rows. -/
theorem log_holds_blocks_once (hfed : Fed blocks jobs done [])
    (hord : blocks.Pairwise fun b c => b.generation < c.generation)
    (hnn : ∀ b ∈ blocks, 0 ≤ b.generation) (st₀ : FlushState) (hwm : st₀.watermark = (0, 0))
    (hok : ∀ s ∈ (flushAll jobs st₀).2, s.finished = true) :
    let r := flushAll jobs st₀
    let rows := r.2.flatMap Flushed.rows
    r.1.log = st₀.log ++ rows ∧ rows.flatMap textBytes = blocks.flatMap bytes ∧
      r.1.anchor = if rows = [] then st₀.anchor
        else rows.foldl chainHex (firstLine st₀.anchor) ++ "\n" := by
  intro r rows
  have hsettled := hfed.settled hord hnn st₀ hwm
  have hwhole := hsettled.whole hok
  refine ⟨hsettled.log, ?_, ?_⟩
  · rw [hfed.blocks_eq, append_nil]
    simpa using hwhole
  · rw [hsettled.anchor]
    exact foldl_advanceAnchor rows st₀.anchor

/-- A checkpoint finds something new, and it is no text or the store refuses it. -/
def Refused (env : FlushEnv) (generation ptr upTo : ℤ) (st : FlushState) : Prop :=
  ∃ start, (advanceWatermark generation upTo st.watermark).1 = some start ∧
    (env.accepts = false ∨ (memReadRaw env.mem ptr start (upTo - start)).bind strFromUtf8 = none)

theorem checkpoint_panics_iff {generation : ℤ} :
    (commitJob env (.checkpoint generation ptr upTo) st).2 = false ↔
      Refused env generation ptr upTo st := by
  simp only [commitJob, Refused]
  cases hadv : (advanceWatermark generation upTo st.watermark).1 with
  | none => simp
  | some start =>
    have hlt := advanceWatermark_lt hadv
    have hlen : ¬ upTo - start ≤ 0 := by omega
    simp only [if_neg hlen, some.injEq, exists_eq_left']
    cases memReadRaw env.mem ptr start (upTo - start) with
    | none => simp
    | some delta =>
      simp only [commitText, Option.bind_some]
      cases strFromUtf8 delta with
      | none => simp
      | some text => cases env.accepts <;> simp

theorem seal_returns_iff (hgen : st.watermark.1 ≤ b.generation)
    (hle : progress st.watermark b.generation ≤ b.bytes.length) :
    (commitJob env b.sealJob st).1.pool = st.pool ++ [(b.shard, b.ptr, env.cell)] ↔
      (commitJob env b.sealJob st).2 = true := by
  have hjob := commitJob_seal env hgen hle
  simp only at hjob
  rw [hjob]
  rcases commitPiece_cases env (b.bytes.drop (progress st.watermark b.generation).toNat)
    { st with watermark := (b.generation, b.bytes.length) } with ⟨rows, -, hcommit⟩ | ⟨-, hcommit⟩
  · simp [hcommit]
  · simp [hcommit]

/-- Each job ran in the state that the jobs before it left. -/
theorem mem_flushAll {s : Flushed} : s ∈ (flushAll jobs st).2 ↔
    ∃ pre env job post, jobs = pre ++ (env, job) :: post ∧
      s = ⟨job, (commitJob env job (flushAll pre st).1).1.log.drop (flushAll pre st).1.log.length,
        (commitJob env job (flushAll pre st).1).2⟩ := by
  induction jobs using reverseRecOn with
  | nil => simp [flushAll]
  | append_singleton jobs last ih =>
    obtain ⟨env, job⟩ := last
    rw [flushAll_concat, mem_append, ih, mem_singleton]
    constructor
    · rintro (⟨pre, env', job', post, rfl, hs⟩ | hs)
      · exact ⟨pre, env', job', post ++ [(env, job)], by simp, hs⟩
      · exact ⟨jobs, env, job, [], rfl, hs⟩
    · rintro ⟨pre, env', job', post, heq, hs⟩
      rcases eq_nil_or_concat post with rfl | ⟨post, last, rfl⟩
      · obtain ⟨rfl, hlast⟩ := append_inj' heq rfl
        cases hlast
        exact .inr hs
      · rw [concat_eq_append, ← cons_append, ← append_assoc] at heq
        obtain ⟨rfl, -⟩ := append_inj' heq rfl
        exact .inl ⟨pre, env', job', post, rfl, hs⟩

/-- A block that goes back to its pool has all its bytes in the log exactly when no checkpoint of it
was refused: the watermark had moved past the bytes before they were committed. -/
theorem returned_block_committed_iff (hfed : Fed blocks jobs done (b :: todo))
    (hord : blocks.Pairwise fun b c => b.generation < c.generation)
    (hnn : ∀ b ∈ blocks, 0 ≤ b.generation) (st₀ : FlushState) (hwm : st₀.watermark = (0, 0))
    (hret : (flushAll (jobs ++ [(env, b.sealJob)]) st₀).1.pool =
      (flushAll jobs st₀).1.pool ++ [(b.shard, b.ptr, env.cell)]) :
    committedFor b.generation (flushAll (jobs ++ [(env, b.sealJob)]) st₀).2 = b.bytes ↔
      ∀ pre env' ptr upTo post, jobs = pre ++ (env', .checkpoint b.generation ptr upTo) :: post →
        ¬ Refused env' b.generation ptr upTo (flushAll pre st₀).1 := by
  have hsettled := hfed.settled hord hnn st₀ hwm
  obtain ⟨hge, hp, hle⟩ := hsettled.tracks.ahead b rfl
  have hfin : (commitJob env b.sealJob (flushAll jobs st₀).1).2 = true := by
    rw [flushAll_concat] at hret
    exact (seal_returns_iff hge hle).mp hret
  obtain ⟨-, -, -, hblock, -⟩ := hsettled.own b.sealJob rfl le_rfl (seal_commits env hge hle)
  rw [max_eq_right hle, Int.toNat_natCast] at hblock
  rw [flushAll_concat]
  constructor
  · intro hall pre env' ptr upTo post hjobs hrefused
    have hlost :=
      hblock.lost ⟨_, mem_append_left _ (mem_flushAll.mpr ⟨pre, env', _, post, hjobs, rfl⟩),
      rfl, checkpoint_panics_iff.mpr hrefused⟩
    have hlen := congrArg List.length hall
    exact absurd hlen (ne_of_lt hlost)
  · intro hgood
    have hwhole := hblock.whole ?_
    · rw [take_length] at hwhole
      exact hwhole
    · intro s hs hgen
      rcases mem_append.mp hs with hs | hs
      · obtain ⟨pre, env', job, post, hjobs, rfl⟩ := mem_flushAll.mp hs
        have hmem : (env', job) ∈ jobs := by simp [hjobs]
        obtain ⟨ptr, upTo, rfl⟩ := hfed.checkpoint_of_generation hord hmem hgen
        have hnot := hgood pre env' ptr upTo post hjobs
        rw [← checkpoint_panics_iff, Bool.not_eq_false] at hnot
        exact hnot
      · rw [mem_singleton] at hs
        rw [hs]
        exact hfin

end

attribute [local instance] textDigests

def blockAB : LogBlock := ⟨4096, "s", 1, [97, 98], by decide⟩

/-- An arena that holds the block's bytes, under a store that accepts or refuses. -/
def arenaAB (accepts : Bool) : FlushEnv := ⟨fun a => if a = 4096 then 97 else 98, accepts, 8192⟩

def newStore : FlushState := ⟨(0, 0), [], "", [], []⟩

theorem reads_arenaAB (accepts : Bool) : Reads (arenaAB accepts).mem 4096 2 blockAB := by
  intro i hi _
  rcases i with _ | _ | i
  · rfl
  · rfl
  · have hlen : blockAB.bytes.length = 2 := rfl
    omega

theorem fed_checkpoint (accepts : Bool) :
    Fed [blockAB] [(arenaAB accepts, .checkpoint 1 4096 2)] [] [blockAB] :=
  @Fed.early [blockAB] [] [] blockAB [] (arenaAB accepts) 4096 2 .start le_rfl
    (reads_arenaAB accepts)

theorem log_holds_blocks_once_ab :
    ((flushAll [(arenaAB true, .checkpoint 1 4096 2), (arenaAB true, blockAB.sealJob)]
      newStore).2.flatMap Flushed.rows).flatMap textBytes = [97, 98] := by
  have hfin : (flushAll [(arenaAB true, .checkpoint 1 4096 2), (arenaAB true, blockAB.sealJob)]
      newStore).2.map Flushed.finished = [true, true] := rfl
  refine
    (log_holds_blocks_once (.sealed (arenaAB true) (fed_checkpoint true)) ?_ ?_ newStore rfl ?_).2.1
  · exact pairwise_singleton _ _
  · simp [blockAB]
  · intro s hs
    have hmem : s.finished ∈ [true, true] := hfin ▸ mem_map_of_mem hs
    simpa using hmem

theorem returned_block_committed_ab :
    committedFor 1 (flushAll [(arenaAB true, .checkpoint 1 4096 2), (arenaAB true, blockAB.sealJob)]
      newStore).2 = [97, 98] := by
  refine (returned_block_committed_iff (fed_checkpoint true) ?_ ?_ newStore rfl rfl).mpr ?_
  · exact pairwise_singleton _ _
  · simp [blockAB]
  · rintro (_ | ⟨j, pre⟩) env ptr upTo post hjobs
    · cases hjobs
      rw [← checkpoint_panics_iff, Bool.not_eq_false]
      rfl
    · simp at hjobs

/-- The store refuses a checkpoint of the whole block: the seal finds nothing new, and the block
goes back to its pool with no byte of it in the log. -/
theorem returned_block_not_committed :
    let jobs := [(arenaAB false, Job.checkpoint 1 4096 2)]
    let r := flushAll (jobs ++ [(arenaAB false, blockAB.sealJob)]) newStore
    Fed [blockAB] jobs [] [blockAB] ∧ r.1.pool = [("s", 4096, 8192)] ∧ r.1.log = [] ∧
      committedFor blockAB.generation r.2 ≠ blockAB.bytes :=
  ⟨fed_checkpoint false, rfl, rfl, nofun⟩

end AxisBridge
