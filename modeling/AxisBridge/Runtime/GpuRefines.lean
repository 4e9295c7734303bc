import AxisBridge.Runtime.GpuProgress

/-! A size on the GPU does what the loop over its combinations does. -/
namespace AxisBridge.Gpu
open List

variable {β : Type*} {b : BSide} {e : Search} {entries : List BEntry} {n cap : ℕ} {z : SearchSize}
  {table : Table} {put : BankName → ℤ → String → β → ℤ × β} {hs : List Handed} {bs : β}
  {st : Bool × β} {q q' : Combo}

/-- The fingerprint of a vector for a role, or (with none) of the vector alone. -/
def fingerprint (roles : List String) (p : Option String × List UInt32) : Key :=
  tagged (p.1.elim ltag fun role => (roleId roles role).toUInt64) p.2

/-- What a size takes the fingerprints of: the entries of B, and its combinations for their roles
and as they are seen. -/
def Search.Printed (e : Search) (entries : List BEntry) (p : Option String × List UInt32) : Prop :=
  (∃ en ∈ entries, p = (some en.role, en.vec)) ∨
    ∃ q ∈ e.size.tried, p = (some q.job.role, e.vector q) ∨ p = e.seenAs q

/-- Whether a size has a combination with a refused value. -/
def Search.refuses (e : Search) : Bool := e.size.tried.any fun q => decide (refused ∈ e.vector q)

theorem print_eq (e : Search) (q : Combo) : e.print q = fingerprint e.roles (e.seenAs q) := by
  have htag : (e.filt ⟨q.job, q.jj, 0⟩).tag =
      (e.seenAs q).1.elim ltag fun role => (roleId e.roles role).toUInt64 := by
    show (if e.size.last then _ else _) =
      (if e.size.last then none else some q.job.role).elim ltag _
    split <;> rfl
  rw [Search.print, htag]
  rfl

theorem entryKey_eq (hb : BSound n entries b) {en : BEntry} (hen : en ∈ entries) :
    entryKey b.roles en = fingerprint (b.search n z table cap).roles (some en.role, en.vec) := by
  rw [entryKey, ← roleId_foldl (z.jobs.map SearchJob.role) (hb.rows.known en hen)]
  rfl

/-- Claim puts a combination just when it is wanted. -/
theorem keeps_eq_wanted (hb : BSound n entries b)
    (hprints : Set.InjOn (fingerprint (b.search n z table cap).roles)
      { p | (b.search n z table cap).Printed entries p }) (hq : q ∈ z.tried) :
    (b.search n z table cap).keeps q = (b.search n z table cap).wanted entries q := by
  have hseen : (vfind b.bseen (b.bcap - 1) (fingerprint (b.search n z table cap).roles
      (some q.job.role, (b.search n z table cap).vector q))).isNone =
      !decide (⟨q.job.role, (b.search n z table cap).vector q⟩ ∈ entries) := by
    rw [Bool.eq_iff_iff, hb.vfind_isNone_iff, Bool.not_eq_true', decide_eq_false_iff_not]
    refine ⟨fun hne hmem => hne _ hmem (entryKey_eq hb hmem), fun hmem en hen he => hmem ?_⟩
    rw [entryKey_eq hb hen] at he
    have he' : (some en.role, en.vec) = (some q.job.role, (b.search n z table cap).vector q) :=
      hprints (.inl ⟨en, hen, rfl⟩) (.inr ⟨q, hq, .inl rfl⟩) he
    obtain ⟨role, vec⟩ := en
    cases he'
    exact hen
  rw [Search.wanted, ← hseen]
  rfl

/-- A run of a size hands on the combinations that claim puts under the lowest ordinal of their
fingerprint, and records them. -/
theorem produce_hands (h : Produce e put hs bs st) : ∃ wins : Combo →
    Bool, (∀ q ∈ e.size.tried, wins q = true ↔ e.keeps q = true ∧ ∀ q' ∈ e.size.tried,
    e.keeps q' = true → e.print q' = e.print q → q.ordinal ≤ q'.ordinal) ∧ hs =
    (e.size.tried.filter wins).map e.handedOf ∧ record put e.size hs (e.refuses, bs) = some st := by
  cases h with
  | empty htotal =>
    have hnil : e.size.tried = [] := length_eq_zero_iff.mp ((length_tried _).trans htotal)
    rw [Search.refuses, hnil]
    exact ⟨fun _ => true, fun q hq => absurd hq not_mem_nil, rfl, rfl⟩
  | @done _ s _ _ htotal hclaim hanswered hfull hkeep =>
    have hleaves := claimPasses_leave hclaim ⟨_, Putting.zeros _ _⟩
    obtain ⟨hhands, hrecord⟩ := keepPass_hands hkeep (fun l hl => lt_of_mem_launches hl)
      fun a q ha => by
        rw [combos_launches] at ha
        rw [zero_add]
        exact hleaves.marks a q ha
    rw [combos_launches] at hhands
    refine ⟨e.wins s.vt, fun q hq => hleaves.wins_iff hq, hhands, ?_⟩
    have hrefuses : s.flag .refused = e.refuses := by
      rw [Bool.eq_iff_iff, hleaves.refused, Search.refuses, any_eq_true]
      simp only [decide_eq_true_iff]
    rw [← hrefuses]
    exact hrecord

/-- What is handed on is, of the combinations that are wanted for one role with one vector, the one
with the lowest ordinal. -/
theorem produce_lowest (hb : BSound n entries b)
    (hprints : Set.InjOn (fingerprint (b.search n z table cap).roles)
      { p | (b.search n z table cap).Printed entries p })
    (h : Produce (b.search n z table cap) put hs bs st) :
    hs = ((b.search n z table cap).lowestWanted entries).map (b.search n z table cap).handedOf ∧
      st = ((b.search n z table cap).lowestWanted entries).foldl
        (fun s q => bankAndRecord put (b.search n z table cap) q s)
        ((b.search n z table cap).refuses, bs) := by
  generalize he : b.search n z table cap = e at h hprints ⊢
  have hsize : e.size = z := he ▸ rfl
  have hkeeps : ∀ q ∈ e.size.tried, e.keeps q = e.wanted entries q := by
    intro q hq
    subst he
    exact keeps_eq_wanted hb hprints hq
  have hprint : ∀ q ∈ e.size.tried, ∀ q' ∈ e.size.tried,
      (e.print q' = e.print q ↔ e.seenAs q' = e.seenAs q) := by
    intro q hq q' hq'
    rw [print_eq, print_eq]
    exact hprints.eq_iff (.inr ⟨q', hq', .inr rfl⟩) (.inr ⟨q, hq, .inr rfl⟩)
  obtain ⟨wins, hwins, hhands, hrecord⟩ := produce_hands h
  have hlowest : e.size.tried.filter wins = e.lowestWanted entries := by
    rw [Search.lowestWanted, lowest, filter_filter]
    refine filter_congr fun q hq => ?_
    rw [Bool.eq_iff_iff, hwins q hq, Bool.and_eq_true, decide_eq_true_iff, hkeeps q hq, and_comm]
    refine and_congr_left fun _ => ⟨fun hlow q' hq' hseen => ?_, fun hlow q' hq' hk hp => ?_⟩
    · obtain ⟨hq', hw⟩ := mem_filter.mp hq'
      exact UInt64.le_iff_toNat_le.mp
        (hlow q' hq' ((hkeeps q' hq').trans hw) ((hprint q hq q' hq').mpr hseen))
    · refine UInt64.le_iff_toNat_le.mpr (hlow q' (mem_filter.mpr ⟨hq', ?_⟩) ?_)
      · rw [← hkeeps q' hq', hk]
      · exact (hprint q hq q' hq').mp hp
  rw [hlowest] at hhands
  refine ⟨hhands, record_eq ?_⟩
  rw [← hhands]
  exact hrecord

/-- A run of a size hands to `record`, and banks and records with its argument ids, of the
combinations wanted for one role with one vector (at the last size, for any role) the one with the
lowest ordinal. Where the ordinals ascend along the jobs, that is what the loop over the
combinations banks and records. -/
theorem produce_refines (hb : Synced n entries b) (he : b.search n z table cap = e)
    (hprints : Set.InjOn (fingerprint e.roles) { p | e.Printed entries p })
    (h : Produce e put hs bs st) :
    hs = (e.lowestWanted entries).map e.handedOf ∧
      st = (e.lowestWanted entries).foldl (fun s q => bankAndRecord put e q s) (e.refuses, bs) ∧
      ((e.size.tried.Pairwise fun q q' => q.ordinal < q'.ordinal) →
        ((e.lowestWanted entries).Pairwise fun q q' =>
          q.ordinal < q'.ordinal ∧ e.seenAs q ≠ e.seenAs q') ∧
        st = reference put e entries [] e.size.tried (e.refuses, bs)) := by
  subst he
  obtain ⟨hhands, hst⟩ := produce_lowest (bsound_synced hb) hprints h
  refine ⟨hhands, hst, fun hascend => ?_⟩
  have hwanted : ((b.search n z table cap).size.tried.filter
      ((b.search n z table cap).wanted entries)).Pairwise fun q q' =>
        q.ordinal.toNat < q'.ordinal.toNat :=
    (hascend.imp fun hlt => UInt64.lt_iff_toNat_lt.mp hlt).sublist filter_sublist
  refine ⟨(pairwise_lowest hwanted).imp fun hlt => ⟨UInt64.lt_iff_toNat_lt.mpr hlt.1, hlt.2⟩, ?_⟩
  rw [hst, reference_eq, ← lowest_eq_firstSeen hwanted]
  rfl

/-! ### Sizes of one op -/

/-- Banks with room, put into by one call at a time. -/
def bankPut (bank : BankName) (ord : ℤ) (text : String) (bs : List (BankName × ℤ × String)) :
    ℤ × List (BankName × ℤ × String) :=
  if bs.any fun x => x.1 = bank && x.2.2 = text && decide (x.2.1 ≤ ord) then (-1, bs)
  else (((bs.filter fun x => x.1 = bank).length : ℕ), bs ++ [(bank, ord, text)])

/-- A job of an op on one value that stands in the first row of B. -/
def sampleJob (role : String) (count base : ℤ) : SearchJob where
  code := 1
  k := 1
  c2 := 1
  c3 := 1
  p1 := fun _ => 0
  p2 := fun _ => 0
  p3 := fun _ => 0
  start := 0
  count := count
  x := 0
  role := role
  base := base
  ids1 := replicate count.toNat 0
  ids2 := []
  ids3 := []
  copied1 := fun _ _ hid => (eq_of_mem_replicate (mem_of_getElem? hid)).symm
  copied2 := nofun
  copied3 := nofun

/-- A memo of one slot, that has the answer 7 for that op. -/
def sampleMemo : Table := fun _ => ⟨2, 0x100000000, 0xFFFFFFFEFFFFFFFE, 7⟩

/-- Jobs of that op, each with its role, its combinations and its first ordinal. -/
def sampleSearch (jobs : List (String × ℤ × ℤ)) : Search :=
  BSide.opened.search 1 ⟨jobs.map fun j => sampleJob j.1 j.2.1 j.2.2, 8, false, fun _ => noId, 0⟩
    sampleMemo 1

variable {jobs : List (String × ℤ × ℤ)}

theorem mem_sample (hq : q ∈ (sampleSearch jobs).size.tried) :
    ∃ j ∈ jobs, q.job = sampleJob j.1 j.2.1 j.2.2 ∧ q.jj < j.2.1.toNat := by
  obtain ⟨job, hjob, hq⟩ := mem_flatMap.mp hq
  obtain ⟨j, hj, rfl⟩ := mem_map.mp hjob
  obtain ⟨jj, hjj, rfl⟩ := mem_map.mp hq
  refine ⟨j, hj, rfl, lt_of_lt_of_le (mem_range.mp hjj) ?_⟩
  exact Int.toNat_le_toNat (Int.min_le_left _ _)

theorem sample_key (role : String) (count base : ℤ) (j col : ℕ) :
    key (sampleJob role count base).toJob BSide.opened.bvec 1 j col =
      (0x100000000, 0xFFFFFFFEFFFFFFFE) := by
  have hpack : packKey 1 0 noId noId = (0x100000000, 0xFFFFFFFEFFFFFFFE) := by decide
  simp only [key, sampleJob]
  exact hpack

theorem sample_vector (hq : q ∈ (sampleSearch jobs).size.tried) :
    (sampleSearch jobs).vector q = [7] := by
  obtain ⟨j, _, hjob, _⟩ := mem_sample hq
  show [recalled sampleMemo 0 (key q.job.toJob BSide.opened.bvec 1 q.jj 0)] = [7]
  rw [hjob, sample_key]
  decide

theorem sample_printed {p : Option String × List UInt32} (hp : (sampleSearch jobs).Printed [] p) :
    ∃ j ∈ jobs, p = (some j.1, [7]) := by
  rcases hp with ⟨en, hen, _⟩ | ⟨q, hq, hp⟩
  · cases hen
  · obtain ⟨j, hj, hjob, _⟩ := mem_sample hq
    have hseen : p = (some q.job.role, (sampleSearch jobs).vector q) := hp.elim id id
    rw [sample_vector hq, hjob] at hseen
    exact ⟨j, hj, hseen⟩

theorem exists_sample (jobs : List (String × ℤ × ℤ)) :
    ∃ hs st, Produce (sampleSearch jobs) bankPut hs [] st := by
  refine exists_produce _ bankPut [] (fun q hq => ?_) fun q hq => ?_
  · rw [sample_vector hq]
    decide
  · obtain ⟨j, _, hjob, hlt⟩ := mem_sample hq
    have hget : (replicate j.2.1.toNat (0 : UInt32))[q.jj / (1 * 1)]? = some 0 := by
      rw [mul_one, Nat.div_one, getElem?_replicate, if_pos hlt]
    have harg : argText true (replicate j.2.1.toNat 0) (q.jj / (1 * 1)) = some (toString 0) := by
      rw [argText, if_pos rfl, hget]
      rfl
    rw [hjob]
    show ((argText true (replicate j.2.1.toNat 0) (q.jj / (1 * 1))).bind _).isSome = true
    rw [harg]
    rfl

/-- Two combinations with one vector: the first is banked. -/
theorem produce_refines_run : ∃ hs st, Produce (sampleSearch [("a", 2, 0)]) bankPut hs [] st ∧
    hs.map (fun h => (h.job.role, h.jj, h.vec)) = [("a", 0, [7])] ∧
    st = (false, [(.b, 0, "a\t1|1|7"), (.r, 0, "0\t0\t0\t\t")]) := by
  obtain ⟨hs, st, h⟩ := exists_sample [("a", 2, 0)]
  have hprints : Set.InjOn (fingerprint (sampleSearch [("a", 2, 0)]).roles)
      { p | (sampleSearch [("a", 2, 0)]).Printed [] p } := by
    intro p hp p' hp' _
    obtain ⟨j, hj, rfl⟩ := sample_printed hp
    obtain ⟨j', hj', rfl⟩ := sample_printed hp'
    rw [mem_singleton.mp hj, mem_singleton.mp hj']
  obtain ⟨hhands, _, hloop⟩ := produce_refines .opened rfl hprints h
  obtain ⟨_, hst⟩ := hloop (by decide +kernel)
  refine ⟨hs, st, h, ?_, ?_⟩
  · rw [hhands]
    decide +kernel
  · rw [hst]
    decide +kernel

/-- Jobs whose ordinals do not ascend: what is handed to `record` is not in the order of the
ordinals, and two combinations that hold the lowest ordinal of their role and vector are both
handed. -/
theorem produce_unordered : Synced 1 [] BSide.opened ∧
    Set.InjOn (fingerprint (sampleSearch [("a", 1, 1), ("b", 1, 0), ("b", 1, 0)]).roles)
      { p | (sampleSearch [("a", 1, 1), ("b", 1, 0), ("b", 1, 0)]).Printed [] p } ∧
    ∃ hs st, Produce (sampleSearch [("a", 1, 1), ("b", 1, 0), ("b", 1, 0)]) bankPut hs [] st ∧
      (¬ hs.Pairwise fun h h' => h.job.base + (h.jj : ℤ) ≤ h'.job.base + (h'.jj : ℤ)) ∧
      ¬ (hs.map fun h => (h.job.role, h.vec)).Nodup := by
  have hprints : Set.InjOn
    (fingerprint (sampleSearch [("a", 1, 1), ("b", 1, 0), ("b", 1, 0)]).roles)
      { p | (sampleSearch [("a", 1, 1), ("b", 1, 0), ("b", 1, 0)]).Printed [] p } := by
    have hne : fingerprint ["a", "b"] (some "a", [7]) ≠ fingerprint ["a", "b"] (some "b", [7]) := by
      decide +kernel
    intro p hp p' hp' he
    obtain ⟨j, hj, rfl⟩ := sample_printed hp
    obtain ⟨j', hj', rfl⟩ := sample_printed hp'
    have hcases :
        ∀ j ∈ [("a", (1 : ℤ), (1 : ℤ)), ("b", 1, 0), ("b", 1, 0)], j.1 = "a" ∨ j.1 = "b" := by
      decide
    rcases hcases j hj with ha | hb <;> rcases hcases j' hj' with ha' | hb'
    · rw [ha, ha']
    · rw [ha, hb'] at he
      exact absurd he hne
    · rw [hb, ha'] at he
      exact absurd he.symm hne
    · rw [hb, hb']
  obtain ⟨hs, st, h⟩ := exists_sample [("a", 1, 1), ("b", 1, 0), ("b", 1, 0)]
  obtain ⟨hhands, _⟩ := produce_lowest (bsound_opened 1) hprints h
  refine ⟨.opened, hprints, hs, st, h, ?_, ?_⟩
  · have hall : hs.map (fun h => h.job.base + (h.jj : ℤ)) = [1, 0, 0] := by
      rw [hhands]
      decide +kernel
    rw [← pairwise_map (f := fun h : Handed => h.job.base + (h.jj : ℤ)) (R := (· ≤ ·)), hall]
    decide
  · rw [hhands]
    decide +kernel

end AxisBridge.Gpu
