import AxisBridge.Runtime.FrameWalk
import AxisBridge.Runtime.Lines

/-! The adjacency of the `contradicts` relation, replayed from the frames of the log, and the gate
that reads it. -/
namespace AxisBridge.Contradicts
open List Function FrameView Framing

/-- One open shard: the addresses each address contradicts. -/
structure AdjShard where
  shard : String
  rebuilt : Bool
  adj : String → Option (List String)

/-- What one thread owns: its shards by their handles, the next handle, its warm shard. -/
structure Thread where
  cidx : ℤ → Option AdjShard
  next : ℤ
  warm : Option AdjShard

def Thread.initial : Thread := ⟨fun _ => none, 1, none⟩

def contradictsOpen (shard : String) (t : Thread) : Thread × ℤ :=
  ({ t with cidx := update t.cidx t.next (some ⟨shard, false, fun _ => none⟩),
            next := t.next + 1 },
    t.next)

def envPair (env : Bytes) : Option (String × String) :=
  if env = [] then none
  else
    match (strFromUtf8 env).map (split '\t') with
    | some (head :: a :: b :: _) => if head ≠ "CONTRADICTS" then none else some (a, b)
    | _ => none

/-- `adj.entry(a).or_default().insert(b)`. -/
def link (adj : String → Option (List String)) (a b : String) : String → Option (List String) :=
  update adj a (some (((adj a).getD []).insert b))

/-- What the visitor of a replay does with a frame. -/
def visit (adj : String → Option (List String)) (env : Bytes) : String → Option (List String) :=
  match envPair env with
  | some (a, b) => link (link adj a b) b a
  | none => adj

def assertRebuilt (sh : AdjShard) (h : ℤ) : Except String Unit :=
  if sh.rebuilt then .ok ()
  else .error (s!"contradicts: shard {h} looked up but NEVER REBUILT in this process — " ++
    "refusing a cold/empty answer (would silently allow a contradicted " ++
    "promotion). Call contradicts_rebuild first (run inside the warm daemon).")

/-- `contradicts_has`; an error is the panic's text. -/
def contradictsHas (t : Thread) (h : ℤ) (src dst : String) : Except String Bool :=
  match t.cidx h with
  | none => .error s!"contradicts_has: unknown handle {h}"
  | some sh => do
    assertRebuilt sh h
    return (sh.adj src).any (dst ∈ ·)

def contradictsAny (t : Thread) (h : ℤ) (src : String) : Except String Bool :=
  match t.cidx h with
  | none => .error s!"contradicts_any: unknown handle {h}"
  | some sh => do
    assertRebuilt sh h
    return (sh.adj src).any (!·.isEmpty)

def contradictsAnyWarm (t : Thread) (src : String) : Except String Bool :=
  match t.warm with
  | none => .error ("contradicts_any_warm: WARM singleton NEVER REBUILT in this process/thread " ++
      "— refusing a cold/empty answer (would silently allow a contradicted " ++
      "promotion). Call contradicts_warm at daemon-worker startup.")
  | some sh => .ok ((sh.adj src).any (!·.isEmpty))

section
variable [Sha256] (d : Volume)

/-- A full replay of the log into an adjacency, and how many frames it scanned. -/
def replay (segPrefix : String) (adj : String → Option (List String)) :
    (String → Option (List String)) × ℤ :=
  let walked := (walkFrames d segPrefix 0 0).1
  (walked.foldl (fun adj v => visit adj v.env) adj, walked.length)

def AdjShard.rebuild (segPrefix : String) (sh : AdjShard) : AdjShard :=
  { sh with rebuilt := true, adj := (replay d segPrefix sh.adj).1 }

def contradictsRebuild (h : ℤ) (segPrefix : String) (t : Thread) : Except String (Thread × ℤ) :=
  match t.cidx h with
  | none => .error s!"contradicts_rebuild: unknown handle {h}"
  | some sh =>
    .ok ({ t with cidx := update t.cidx h (some (sh.rebuild d segPrefix)) },
      (replay d segPrefix sh.adj).2)

def contradictsWarm (segPrefix : String) (t : Thread) : Thread × ℤ :=
  let replayed := replay d segPrefix fun _ => none
  ({ t with warm := some ⟨"warm", true, replayed.1⟩ }, replayed.2)

end

/-! ### Histories -/

/-- The calls that change what a thread owns, a replay with the disk it finds. -/
inductive Call
  | openShard (shard : String)
  | rebuild (d : Volume) (h : ℤ) (segPrefix : String)
  | warm (d : Volume) (segPrefix : String)

/-- The replays of one handle, in turn. -/
def rebuildsOf (h : ℤ) : List Call → List (Volume × String)
  | [] => []
  | .rebuild d h' segPrefix :: cs =>
    if h' = h then (d, segPrefix) :: rebuildsOf h cs else rebuildsOf h cs
  | _ :: cs => rebuildsOf h cs

section
variable [Sha256]

/-- A call that panics leaves everything as it was. -/
def Thread.step (t : Thread) : Call → Thread
  | .openShard shard => (contradictsOpen shard t).1
  | .rebuild d h segPrefix =>
    match contradictsRebuild d h segPrefix t with
    | .ok done => done.1
    | .error _ => t
  | .warm d segPrefix => (contradictsWarm d segPrefix t).1

def Thread.run (t : Thread) (cs : List Call) : Thread := cs.foldl Thread.step t

/-- The frames of a log up to the first that is torn or invalid, over its segments. -/
def validFrames : List Bytes → List FrameView
  | [] => []
  | data :: rest =>
    (Framing.scan frameFormat 0 data).1.map Prod.snd ++
      if (Framing.scan frameFormat 0 data).2 = data.length then validFrames rest else []

/-- The log has been appended to: its last segment grew, or others follow it. -/
def Grows (contents contents' : List Bytes) : Prop :=
  contents = [] ∨ ∃ init last more new,
    contents = init ++ [last] ∧ contents' = init ++ (last ++ more) :: new

/-- Replays in turn on growing states of one log, the last of them `contents`. -/
inductive Replayed (segPrefix : String) :
    List (Volume × String) → List Bytes → Prop
  | first {d contents} (hlog : HoldsFrom d segPrefix 0 contents) :
      Replayed segPrefix [(d, segPrefix)] contents
  | again {d rs contents contents'} (before : Replayed segPrefix rs contents)
      (hgrow : Grows contents contents') (hlog : HoldsFrom d segPrefix 0 contents') :
      Replayed segPrefix (rs ++ [(d, segPrefix)]) contents'

end

/-- The envelope is a text whose first three fields are `CONTRADICTS` and these. -/
def Carries (env : Bytes) (a b : String) : Prop :=
  '\t' ∉ a.toList ∧ '\t' ∉ b.toList ∧ ∃ later : String,
    env = textBytes ("CONTRADICTS\t" ++ a ++ "\t" ++ b ++ later) ∧
      (later = "" ∨ later.toList.head? = some '\t')

/-- The same of bytes that need not be a text after the third field. -/
def CarriesBytes (env : Bytes) (a b : String) : Prop :=
  '\t' ∉ a.toList ∧ '\t' ∉ b.toList ∧ ∃ later : Bytes,
    env = textBytes ("CONTRADICTS\t" ++ a ++ "\t" ++ b) ++ later ∧
      (later = [] ∨ later.head? = some 9)

/-! ### The envelope's fields -/

section
variable {s a b : String} {env : Bytes}

theorem split_three {more : List String} (h : split '\t' s = "CONTRADICTS" :: a :: b :: more) :
    '\t' ∉ a.toList ∧ '\t' ∉ b.toList ∧ ∃ later : String, s = "CONTRADICTS\t" ++ a ++ "\t" ++ b ++
      later ∧ (later = "" ∨ later.toList.head? = some '\t') := by
  have hmem : ∀ p ∈ "CONTRADICTS" :: a :: b :: more, '\t' ∉ p.toList := by
    intro p hp
    exact (of_mem_split (h ▸ hp)).1
  have hjoin := intercalate_split '\t' s
  rw [h, String.intercalate_cons_of_ne_nil (cons_ne_nil _ _),
    String.intercalate_cons_of_ne_nil (cons_ne_nil _ _)] at hjoin
  refine ⟨hmem a (by simp), hmem b (by simp), ?_⟩
  cases more with
  | nil =>
    refine ⟨"", ?_, .inl rfl⟩
    rw [← hjoin, String.intercalate_singleton, String.append_empty]
    simp only [String.append_assoc]
    rfl
  | cons c more =>
    refine ⟨"\t" ++ (String.singleton '\t').intercalate (c :: more), ?_, .inr ?_⟩
    · rw [← hjoin, String.intercalate_cons_of_ne_nil (cons_ne_nil _ _)]
      simp only [String.append_assoc]
      rfl
    · rw [String.toList_append]
      rfl

theorem split_carried {later : String} (ha : '\t' ∉ a.toList) (hb : '\t' ∉ b.toList)
    (hlater : later = "" ∨ later.toList.head? = some '\t') :
    ∃ more, split '\t' ("CONTRADICTS\t" ++ a ++ "\t" ++ b ++ later) =
      "CONTRADICTS" :: a :: b :: more := by
  have hhead : split '\t' "CONTRADICTS" = ["CONTRADICTS"] := split_of_not_mem (by decide)
  have hthree : split '\t' ("CONTRADICTS\t" ++ a ++ "\t" ++ b) = ["CONTRADICTS", a, b] := by
    have htwo := split_append '\t' "CONTRADICTS" a
    have hsplit := split_append '\t' ("CONTRADICTS" ++ String.singleton '\t' ++ a) b
    rw [htwo, hhead, split_of_not_mem ha, split_of_not_mem hb] at hsplit
    exact hsplit
  rcases hlater with rfl | hlater
  · exact ⟨[], by rw [String.append_empty, hthree]⟩
  · obtain ⟨cs, hcs⟩ : ∃ cs, later = String.singleton '\t' ++ String.ofList cs := by
      refine ⟨later.toList.tail, String.toList_inj.mp ?_⟩
      rw [String.toList_append, String.toList_singleton, String.toList_ofList, singleton_append]
      exact (cons_head?_tail (Option.mem_def.mpr hlater)).symm
    refine ⟨split '\t' (String.ofList cs), ?_⟩
    rw [hcs, ← String.append_assoc, split_append, hthree]
    rfl

/-- The parser of the envelope reads exactly its first three fields. -/
theorem envPair_iff : envPair env = some (a, b) ↔ Carries env a b := by
  constructor
  · intro h
    unfold envPair at h
    split at h
    · cases h
    · split at h
      · rename_i head a' b' more hfields
        obtain ⟨s, hs, hsplit⟩ := Option.map_eq_some_iff.mp hfields
        split at h
        · cases h
        · rename_i hhead
          cases h
          obtain rfl := not_not.mp hhead
          obtain ⟨ha, hb, later, rfl, hlater⟩ := split_three hsplit
          exact ⟨ha, hb, later, strFromUtf8_eq_some.mp hs, hlater⟩
      · cases h
  · rintro ⟨ha, hb, later, rfl, hlater⟩
    obtain ⟨more, hsplit⟩ := split_carried ha hb hlater
    have hne : textBytes ("CONTRADICTS\t" ++ a ++ "\t" ++ b ++ later) ≠ [] := by
      intro hnil
      have hempty := textBytes_eq_nil hnil
      simp at hempty
    simp [envPair, if_neg hne, hsplit]

end

/-! ### The adjacency of a replay -/

section
variable {adj : String → Option (List String)} {a b x y : String} {env : Bytes}

def Linked (adj : String → Option (List String)) (a b : String) : Prop :=
  ∃ s, adj a = some s ∧ b ∈ s

theorem any_mem_iff : (adj a).any (b ∈ ·) = true ↔ Linked adj a b := by
  simp [Linked, Option.any_eq_true]

theorem any_nonempty_iff : (adj a).any (!·.isEmpty) = true ↔ ∃ b, Linked adj a b := by
  constructor
  · intro h
    obtain ⟨s, hs, hne⟩ := (Option.any_eq_true _ _).mp h
    obtain ⟨b, hb⟩ := exists_mem_of_ne_nil s (by simpa using hne)
    exact ⟨b, s, hs, hb⟩
  · rintro ⟨b, s, hs, hb⟩
    refine (Option.any_eq_true _ _).mpr ⟨s, hs, ?_⟩
    simpa using ne_nil_of_mem hb

theorem linked_link : Linked (link adj x y) a b ↔ a = x ∧ b = y ∨ Linked adj a b := by
  by_cases hax : a = x
  · subst hax
    cases hadj : adj a with
    | none => simp [Linked, link, hadj]
    | some s => simp [Linked, link, hadj]
  · simp [Linked, link, hax]

/-- A frame's envelope adds both directions of its pair, or nothing. -/
theorem linked_visit : Linked (visit adj env) a b ↔
    Carries env a b ∨ Carries env b a ∨ Linked adj a b := by
  rw [← envPair_iff, ← envPair_iff, visit]
  cases henv : envPair env with
  | none => simp
  | some p =>
    obtain ⟨x, y⟩ := p
    simp only [linked_link, Option.some.injEq, Prod.mk.injEq]
    grind

theorem linked_foldl (envs : List Bytes) (adj : String → Option (List String)) :
    Linked (envs.foldl visit adj) a b ↔
      (∃ env ∈ envs, Carries env a b ∨ Carries env b a) ∨ Linked adj a b := by
  induction envs generalizing adj with
  | nil => simp
  | cons env envs ih =>
    rw [foldl_cons, ih, linked_visit]
    simp [or_assoc, or_left_comm]

end

/-! ### The frames of a replay -/

section
variable [Sha256] {d : Volume} {segPrefix : String}
  {contents contents' : List Bytes} {wm : ℤ × ℤ} {fuel : ℕ} {k : ℤ}

/-- The walk over a log meets its valid frames. -/
theorem walkLoop_envs (hlog : HoldsFrom d segPrefix k contents) (hfuel : contents.length < fuel) :
    (walkLoop d segPrefix wm fuel k 0).1.map Visit.env = (validFrames contents).map env := by
  induction contents generalizing fuel k with
  | nil =>
    obtain ⟨fuel, rfl⟩ := Nat.exists_eq_succ_of_ne_zero (ne_of_gt hfuel)
    have hread : readSegment d segPrefix k = none := hlog
    simp only [walkLoop, hread]
    rfl
  | cons data rest ih =>
    obtain ⟨fuel, rfl⟩ := Nat.exists_eq_succ_of_ne_zero (ne_of_gt (Nat.zero_lt_of_lt hfuel))
    obtain ⟨hread, hrest⟩ := hlog
    have hlater := ih hrest (Nat.lt_of_succ_lt_succ hfuel)
    obtain ⟨torn, hparse, htorn⟩ := parseLoop_eq k data data.length 0 (by omega)
    rw [drop_zero] at hparse htorn
    have henvs : ((Framing.scan frameFormat 0 data).1.map (visitAt k)).map Visit.env =
        ((Framing.scan frameFormat 0 data).1.map Prod.snd).map env := by
      rw [map_map, map_map]
      rfl
    have hstart : (if (0 : ℤ) < 0 then 0 else (0 : ℤ).toNat) = 0 := rfl
    simp only [walkLoop, hread, parseFramesFromBytes, hstart, hparse]
    by_cases hend : (Framing.scan frameFormat 0 data).2 = data.length
    · have hclean : torn = false := by
        cases torn with
        | false => rfl
        | true => exact absurd hend (htorn rfl).ne
      cases rest with
      | nil =>
        have hlast : readSegment d segPrefix (k + 1) = none := hrest
        simp [validFrames, hlast, henvs]
      | cons data' rest =>
        have hnext : (readSegment d segPrefix (k + 1)).isSome = true :=
          Option.isSome_iff_exists.mpr ⟨_, hrest.1⟩
        rw [validFrames, if_pos hend, map_append, ← henvs, ← hlater]
        simp [hclean, hend, hnext]
    · rw [validFrames, if_neg hend, append_nil, ← henvs]
      simp [hend]

/-- A replay takes in the valid frames of the log it finds. -/
theorem linked_replay (hlog : HoldsFrom d segPrefix 0 contents)
    (adj : String → Option (List String)) (a b : String) :
    Linked (replay d segPrefix adj).1 a b ↔
      (∃ v ∈ validFrames contents, Carries v.env a b ∨ Carries v.env b a) ∨ Linked adj a b := by
  have henvs : (walkFrames d segPrefix 0 0).1.map Visit.env = (validFrames contents).map env :=
    walkLoop_envs hlog (Nat.lt_succ_of_le hlog.length_le)
  have hfold : (replay d segPrefix adj).1 = ((validFrames contents).map env).foldl visit adj := by
    rw [← henvs, foldl_map]
    rfl
  simp [hfold, linked_foldl]

/-- What is appended to a log leaves its valid frames. -/
theorem Grows.prefix (h : Grows contents contents') :
    validFrames contents <+: validFrames contents' := by
  obtain rfl | ⟨init, last, more, new, rfl, rfl⟩ := h
  · exact nil_prefix
  · induction init with
    | nil =>
      simp only [nil_append, validFrames, ite_self, append_nil]
      exact ((Framing.scan_prefix last more 0).map Prod.snd).trans (prefix_append _ _)
    | cons data init ih =>
      simp only [cons_append, validFrames]
      split
      · exact (prefix_append_right_inj _).mpr ih
      · exact prefix_rfl

/-- A frame that is cut short is none of the log's, and neither is anything behind it. -/
theorem validFrames_cut (segs : List (List Frame)) (s : List Frame) {f : Frame}
    {piece : Bytes} {later : List Bytes} (hpiece : piece <+: f.bytes)
    (hcut : piece ≠ f.bytes) (hlater : piece = [] → later = []) :
    validFrames (segs.map framesBytes ++ (framesBytes s ++ piece) :: later) =
      (segs.flatten ++ s).map Frame.view := by
  have hnone : frameFormat.next piece = none := by
    apply next_of_cut (r := f.record) hpiece
    apply lt_of_le_of_ne hpiece.length_le
    exact fun hlen => hcut (hpiece.eq_of_length hlen)
  have hscan : ∀ (fs : List Frame) (rest : Bytes), frameFormat.next rest = none →
      ((Framing.scan frameFormat 0 (framesBytes fs ++ rest)).1.map Prod.snd = fs.map Frame.view ∧
        (Framing.scan frameFormat 0 (framesBytes fs ++ rest)).2 = (framesBytes fs).length) := by
    intro fs rest hrest
    rw [← words_record, scan_words, scan_stop hrest, append_nil, zero_add, places_values, map_map]
    exact ⟨rfl, rfl⟩
  induction segs with
  | nil =>
    obtain ⟨hvalues, hstop⟩ := hscan s piece hnone
    rw [map_nil, nil_append, validFrames, hvalues, hstop, length_append]
    by_cases hnil : piece = []
    · rw [hlater hnil]
      simp [validFrames]
    · have hpos := length_pos_iff.mpr hnil
      rw [if_neg (by omega)]
      simp
  | cons fs segs ih =>
    obtain ⟨hvalues, hstop⟩ := hscan fs [] next_nil
    rw [append_nil] at hvalues hstop
    rw [map_cons, cons_append, validFrames, hvalues, hstop, if_pos rfl, ih]
    simp

end

/-! ### What a thread's calls do to one handle -/

theorem rebuildsOf_cons (h : ℤ) (c : Call) (cs : List Call) :
    rebuildsOf h (c :: cs) = rebuildsOf h [c] ++ rebuildsOf h cs := by
  cases c with
  | openShard shard => rfl
  | rebuild d h' segPrefix =>
    simp only [rebuildsOf]
    split <;> rfl
  | warm d segPrefix => rfl

section
variable {t : Thread} {h : ℤ} {sh : AdjShard}

theorem contradictsHas_eq (hsh : t.cidx h = some sh) (hrebuilt : sh.rebuilt = true) (a b : String) :
    contradictsHas t h a b = .ok ((sh.adj a).any (b ∈ ·)) := by
  simp only [contradictsHas, hsh, assertRebuilt, hrebuilt, if_true]
  rfl

theorem contradictsAny_eq (hsh : t.cidx h = some sh) (hrebuilt : sh.rebuilt = true) (a : String) :
    contradictsAny t h a = .ok ((sh.adj a).any (!·.isEmpty)) := by
  simp only [contradictsAny, hsh, assertRebuilt, hrebuilt, if_true]
  rfl

end

section
variable [Sha256] {t : Thread} {h : ℤ} {segPrefix : String} {contents : List Bytes}

def AdjShard.rebuildAll (sh : AdjShard) (rs : List (Volume × String)) : AdjShard :=
  rs.foldl (fun sh r => sh.rebuild r.1 r.2) sh

theorem step_cidx (hlt : h < t.next) (c : Call) :
    (t.step c).cidx h = (t.cidx h).map (·.rebuildAll (rebuildsOf h [c])) ∧ h < (t.step c).next := by
  cases c with
  | openShard shard =>
    have hne : h ≠ t.next := ne_of_lt hlt
    refine ⟨?_, by simp only [Thread.step, contradictsOpen]; omega⟩
    simp [Thread.step, contradictsOpen, hne, rebuildsOf, AdjShard.rebuildAll]
  | rebuild d h' segPrefix =>
    cases hsh : t.cidx h' with
    | none =>
      refine ⟨?_, by simpa [Thread.step, contradictsRebuild, hsh] using hlt⟩
      by_cases heq : h' = h
      · subst heq
        simp [Thread.step, contradictsRebuild, hsh]
      · simp [Thread.step, contradictsRebuild, hsh, rebuildsOf, heq, AdjShard.rebuildAll]
    | some sh =>
      refine ⟨?_, by simpa [Thread.step, contradictsRebuild, hsh] using hlt⟩
      by_cases heq : h' = h
      · subst heq
        simp [Thread.step, contradictsRebuild, hsh, rebuildsOf, AdjShard.rebuildAll]
      · have hne : h ≠ h' := Ne.symm heq
        simp [Thread.step, contradictsRebuild, hsh, rebuildsOf, heq, hne, AdjShard.rebuildAll]
  | warm d segPrefix =>
    refine ⟨?_, hlt⟩
    simp [Thread.step, contradictsWarm, rebuildsOf, AdjShard.rebuildAll]

/-- A handle's shard changes by its own replays only. -/
theorem run_cidx (hlt : h < t.next) (cs : List Call) :
    (t.run cs).cidx h = (t.cidx h).map (·.rebuildAll (rebuildsOf h cs)) := by
  induction cs generalizing t with
  | nil => simp [Thread.run, rebuildsOf, AdjShard.rebuildAll]
  | cons c cs ih =>
    obtain ⟨hstep, hnext⟩ := step_cidx hlt c
    have hrun : (t.run (c :: cs)).cidx h = ((t.step c).run cs).cidx h := rfl
    rw [hrun, ih hnext, hstep, rebuildsOf_cons h c cs, Option.map_map]
    simp only [AdjShard.rebuildAll, foldl_append]
    rfl

/-- Replays of a growing log leave what the last of them finds. -/
theorem Replayed.linked {rs : List (Volume × String)}
    (hrs : Replayed segPrefix rs contents) (sh : AdjShard) (hempty : ∀ a b, ¬ Linked sh.adj a b) :
    (sh.rebuildAll rs).rebuilt = true ∧ ∀ a b, Linked (sh.rebuildAll rs).adj a b ↔
      ∃ v ∈ validFrames contents, Carries v.env a b ∨ Carries v.env b a := by
  induction hrs with
  | first hlog =>
    refine ⟨rfl, fun a b => ?_⟩
    have hlinked := linked_replay hlog sh.adj a b
    rwa [or_iff_left (hempty a b)] at hlinked
  | @again d rs contents contents' before hgrow hlog ih =>
    have hlast :
        sh.rebuildAll (rs ++ [(d, segPrefix)]) = (sh.rebuildAll rs).rebuild d segPrefix := by
      simp only [AdjShard.rebuildAll, foldl_append]
      rfl
    rw [hlast]
    refine ⟨rfl, fun a b => ?_⟩
    have hlinked := linked_replay hlog (sh.rebuildAll rs).adj a b
    rw [ih.2 a b] at hlinked
    refine hlinked.trans (or_iff_left_of_imp ?_)
    rintro ⟨v, hv, hcarries⟩
    exact ⟨v, hgrow.prefix.subset hv, hcarries⟩

/-- The answers of a handle are those of the log's valid frames. -/
structure SeesLog (t : Thread) (h : ℤ) (contents : List Bytes) : Prop where
  has_iff : ∀ a b, ∃ r, contradictsHas t h a b = .ok r ∧
    (r = true ↔ ∃ v ∈ validFrames contents, Carries v.env a b ∨ Carries v.env b a)
  symmetric : ∀ a b, contradictsHas t h a b = contradictsHas t h b a
  any_iff : ∀ a, ∃ r, contradictsAny t h a = .ok r ∧
    (r = true ↔ ∃ b, contradictsHas t h a b = .ok true)
  cut : ∀ (segs : List (List Frame)) (s : List Frame) (f : Frame) (piece : Bytes)
    (later : List Bytes),
    contents = segs.map framesBytes ++ (framesBytes s ++ piece) :: later →
    piece <+: f.bytes → piece ≠ f.bytes → (piece = [] → later = []) →
    ∀ a b, contradictsHas t h a b = .ok true ↔
      ∃ g ∈ segs.flatten ++ s, Carries g.env a b ∨ Carries g.env b a
  warm : ∀ (t' : Thread) (d : Volume) (segPrefix : String),
    HoldsFrom d segPrefix 0 contents →
    ∀ a, contradictsAnyWarm (contradictsWarm d segPrefix t').1 a = contradictsAny t h a

/-- What the adjacency links, the handle answers. -/
theorem seesLog_of_linked {sh : AdjShard} (hsh : t.cidx h = some sh) (hrebuilt : sh.rebuilt = true)
    (hlinked : ∀ a b, Linked sh.adj a b ↔
      ∃ v ∈ validFrames contents, Carries v.env a b ∨ Carries v.env b a) :
    SeesLog t h contents := by
  have hhas : ∀ a b, contradictsHas t h a b = .ok true ↔ Linked sh.adj a b := by
    intro a b
    rw [contradictsHas_eq hsh hrebuilt, Except.ok.injEq]
    exact any_mem_iff
  refine ⟨?_, ?_, ?_, ?_, ?_⟩
  · intro a b
    exact ⟨_, contradictsHas_eq hsh hrebuilt a b, any_mem_iff.trans (hlinked a b)⟩
  · intro a b
    rw [contradictsHas_eq hsh hrebuilt, contradictsHas_eq hsh hrebuilt, Except.ok.injEq,
      Bool.eq_iff_iff, any_mem_iff, any_mem_iff, hlinked, hlinked]
    simp only [or_comm]
  · intro a
    refine ⟨_, contradictsAny_eq hsh hrebuilt a, any_nonempty_iff.trans ?_⟩
    exact exists_congr fun b => (hhas a b).symm
  · rintro segs s f piece later rfl hpiece hcut hlater a b
    rw [hhas, hlinked, validFrames_cut segs s hpiece hcut hlater]
    simp only [mem_map, exists_exists_and_eq_and]
    rfl
  · intro t' d segPrefix hlog a
    rw [contradictsAny_eq hsh hrebuilt]
    refine congrArg Except.ok (Bool.eq_iff_iff.mpr ?_)
    rw [any_nonempty_iff, any_nonempty_iff]
    refine exists_congr fun b => ?_
    rw [hlinked a b]
    exact (linked_replay hlog _ a b).trans (or_iff_left (by simp [Linked]))

theorem run_opened (t : Thread) (shard : String) (cs : List Call) :
    ((contradictsOpen shard t).1.run cs).cidx t.next =
      some (AdjShard.rebuildAll ⟨shard, false, fun _ => none⟩ (rebuildsOf t.next cs)) := by
  have hnext : t.next < (contradictsOpen shard t).1.next := by
    simp only [contradictsOpen]
    omega
  have hopened : (contradictsOpen shard t).1.cidx t.next = some ⟨shard, false, fun _ => none⟩ :=
    update_self ..
  rw [run_cidx hnext cs, hopened, Option.map_some]

theorem Replayed.seesLog {cs : List Call} (h : Replayed segPrefix (rebuildsOf t.next cs) contents)
    (shard : String) : SeesLog ((contradictsOpen shard t).1.run cs) t.next contents := by
  obtain ⟨hrebuilt, hlinked⟩ := h.linked ⟨shard, false, fun _ => none⟩ (by simp [Linked])
  exact seesLog_of_linked (run_opened t shard cs) hrebuilt hlinked

/-- Whatever else the thread does meanwhile, a handle answers from the log its replays found, and
before its first replay not at all. -/
theorem handle_sees_log (t : Thread) (shard segPrefix : String) (cs : List Call)
    (contents : List Bytes) :
    (Replayed segPrefix (rebuildsOf t.next cs) contents →
      SeesLog ((contradictsOpen shard t).1.run cs) t.next contents) ∧
    (rebuildsOf t.next cs = [] → ∀ a b,
      (contradictsHas ((contradictsOpen shard t).1.run cs) t.next a b).isOk = false ∧
      (contradictsAny ((contradictsOpen shard t).1.run cs) t.next a).isOk = false) := by
  refine ⟨fun hreplayed => hreplayed.seesLog shard, fun hnone a b => ?_⟩
  have hshard := run_opened t shard cs
  rw [hnone] at hshard
  constructor
  · simp only [contradictsHas, hshard]
    rfl
  · simp only [contradictsAny, hshard]
    rfl

end

attribute [local instance] textDigests

/-- A log of one frame, its envelope the edge from `a` to `b` and some bytes. -/
def oneEdge (later : Bytes) (h : later.length ≤ 2) : Frame :=
  Entry.frame ⟨textBytes "CONTRADICTS\ta\tb" ++ later, [], by
    have hlen : (textBytes "CONTRADICTS\ta\tb").length = 15 := by decide
    rw [length_append]
    omega, nil_fits⟩

def logOf (f : Frame) : Volume := ⟨[⟨framesBytes [f], 0⟩], [("w0.log", 0)], []⟩

theorem replayed_logOf (f : Frame) :
    Replayed "w" (rebuildsOf Thread.initial.next [.rebuild (logOf f) 1 "w"]) [framesBytes [f]] :=
  .first ⟨rfl, rfl⟩

theorem validFrames_logOf (f : Frame) : validFrames [framesBytes [f]] = [f.view] := by
  have hne : [] ≠ frameA.bytes := by
    intro h
    have hlen := length_frameA
    rw [← h] at hlen
    cases hlen
  have hvalid := validFrames_cut [] [f] nil_prefix hne fun _ => rfl
  rwa [map_nil, nil_append, append_nil] at hvalid

theorem handle_sees_one_edge :
    SeesLog ((contradictsOpen "s" Thread.initial).1.run
      [.rebuild (logOf (oneEdge [] (by decide))) 1 "w"]) 1 [framesBytes [oneEdge [] (by decide)]] :=
  (handle_sees_log Thread.initial "s" "w" _ _).1 (replayed_logOf _)

/-- A frame of the valid prefix whose first three fields are an edge is not seen when a later field
is no text. -/
theorem edge_lost_behind_bytes : ∃ (d : Volume) (contents : List Bytes),
    Replayed "w" (rebuildsOf Thread.initial.next [.rebuild d 1 "w"]) contents ∧
    (∃ v ∈ validFrames contents, CarriesBytes v.env "a" "b") ∧
    contradictsHas ((contradictsOpen "s" Thread.initial).1.run [.rebuild d 1 "w"])
      Thread.initial.next "a" "b" = .ok false := by
  refine ⟨_, _, replayed_logOf (oneEdge [9, 255] (by decide)), ?_, ?_⟩
  · rw [validFrames_logOf]
    exact ⟨_, mem_singleton_self _, by decide, by decide, [9, 255], rfl, .inr rfl⟩
  · have hsees := (replayed_logOf (oneEdge [9, 255] (by decide))).seesLog "s"
    obtain ⟨r, hhas, hr⟩ := hsees.has_iff "a" "b"
    rw [hhas]
    refine congrArg Except.ok (Bool.eq_false_iff.mpr fun htrue => ?_)
    obtain ⟨v, hv, hcarries⟩ := hr.mp htrue
    rw [validFrames_logOf, mem_singleton] at hv
    have hnone : envPair v.env = none := by
      rw [hv]
      decide
    rw [← envPair_iff, ← envPair_iff, hnone] at hcarries
    simp at hcarries

end AxisBridge.Contradicts
