import AxisBridge.Emit.RegistryEntries

/-! Which registry files all readers see alike. -/
namespace AxisBridge.Registry
open List Option Transducer

section
variable [Sha256]

/-- Each reader takes every line to the entry it stands in, by its name and its identity. -/
structure SameEntries (content : String) (g : Grammar) : Prop where
  identities : identityInserts content = g.entries.map fun e => (e.identity, e.name)
  ins : inInserts content = g.entries.flatMap fun e => e.ins.map fun clause => (e.identity, clause)
  bodies :
    bodyInserts content = g.entries.flatMap fun e => e.body.toList.map fun b => (e.identity, b)
  pures : pureInserts content = g.entries.flatMap fun e => if e.isPureDet then [e.identity] else []
  async : asyncFacts content = g.blocks.flatMap Block.facts ++ g.unclosed.toList.flatMap Entry.facts

/-! ### The condition -/

/-- The lines up to the `end` of the first contract. -/
def upToContract : List Part → List Leaf
  | [] => []
  | .line l :: ps => l :: upToContract ps
  | .contract ls :: _ => ls

/-- A line that names the identity: an identity line, or the first line of an entry without one. -/
def Kind.Names (id : Hash256) : Kind → Prop
  | .fn (some name) => nameIdentity name = id
  | .leaf (.identity (some h)) => h = id
  | _ => False

/-- A line that names no identity and is no `end`. -/
def Kind.Quiet : Kind → Prop
  | .fn (some _) => False
  | .leaf (.identity (some _)) => False
  | .close => False
  | _ => True

/-- Identity lines behind the first contract change nothing. -/
def Entry.Settled (e : Entry) : Prop :=
  identityOf (nameIdentity e.name) (upToContract e.parts) = e.identity

/-- In front of every `in` line, the entry's identity is named without an `end` or another identity
in between. -/
def Entry.Placed (e : Entry) : Prop :=
  ∀ front clause back, e.kinds = front ++ .leaf (.inClause clause) :: back →
    ∃ before k after, front = before ++ k :: after ∧ k.Names e.identity ∧ ∀ k' ∈ after, k'.Quiet

structure Grammar.Plain (g : Grammar) : Prop where
  settled : ∀ e ∈ g.entries, e.Settled
  placed : ∀ e ∈ g.entries, e.Placed
  ended : ∀ e ∈ g.unclosed, e.body = none ∧ e.isPureDet = false

section
variable {name : String} {id : Hash256}
attribute [local simp] identityRead inRead bodyRead pureRead asyncRead

/-! ### Identities -/

theorem identity_leaves (n : Option String) (id : Hash256) (ls : List Leaf) :
    run identityRead (n, some id) (ls.map .leaf) = ((n, some (identityOf id ls)), []) := by
  induction ls generalizing id with
  | nil => rfl
  | cons l ls ih =>
    have hstep : identityRead (n, some id) (.leaf l) = ((n, some (identityOf id [l])), []) := by
      cases l with
      | identity h => cases h <;> rfl
      | _ => rfl
    rw [map_cons, run_cons, hstep, ih]
    rfl

/-- Once the name is taken, nothing more is put into the map. -/
theorem identity_rest (i : Option Hash256) (ks : List Kind) (hks : ∀ k ∈ ks, ∀ name, k ≠ .fn name) :
    ∃ i', run identityRead (none, i) ks = ((none, i'), []) := by
  induction ks generalizing i with
  | nil => exact ⟨i, rfl⟩
  | cons k ks ih =>
    rw [forall_mem_cons] at hks
    have hstep : ∃ i', identityRead (none, i) k = ((none, i'), []) := by
      cases k with
      | leaf l =>
        cases l with
        | identity h => cases h <;> exact ⟨_, rfl⟩
        | _ => exact ⟨_, rfl⟩
      | fn name => exact absurd rfl (hks.1 name)
      | _ => exact ⟨_, rfl⟩
    obtain ⟨i', hi'⟩ := hstep
    obtain ⟨i'', hrest⟩ := ih i' hks.2
    refine ⟨i'', ?_⟩
    rw [run_cons, hi', hrest]
    rfl

omit [Sha256] in
theorem fn_not_mem_parts (ps : List Part) : ∀ k ∈ ps.flatMap Part.kinds, ∀ name, k ≠ .fn name := by
  intro k hk name
  obtain ⟨p, -, hk⟩ := mem_flatMap.mp hk
  rintro rfl
  cases p <;> simp [Part.kinds] at hk

/-- The pieces of an entry: its identity is put into the map at the first `end`, if there is one. -/
theorem identity_parts (name : String) (id : Hash256) (ps : List Part) :
    run identityRead (some name, some id) (ps.flatMap Part.kinds) =
        ((some name, some (identityOf id (upToContract ps))), []) ∨
      ∃ i, run identityRead (some name, some id) (ps.flatMap Part.kinds) =
        ((none, i), [(identityOf id (upToContract ps), name)]) := by
  induction ps generalizing id with
  | nil => exact .inl rfl
  | cons p ps ih =>
    cases p with
    | line l =>
      have hline := identity_leaves (some name) id [l]
      rcases ih (identityOf id [l]) with hrest | ⟨i, hrest⟩
      · exact .inl (run_trans hline hrest)
      · exact .inr ⟨i, run_trans hline hrest⟩
    | contract ls =>
      have hopen : run identityRead (some name, some id) [.contract] = ((some name, some id), []) :=
        rfl
      have hclose : run identityRead (some name, some (identityOf id ls)) [.close] =
          ((none, none), [(identityOf id ls, name)]) := rfl
      obtain ⟨i, hrest⟩ := identity_rest none (ps.flatMap Part.kinds) (fn_not_mem_parts ps)
      exact .inr ⟨i, run_trans (run_trans hopen (run_trans (identity_leaves _ id ls) hclose)) hrest⟩

theorem identity_entry (e : Entry) (st : Option String × Option Hash256) :
    ∃ n i out, run identityRead st e.kinds = ((n, i), out) ∧
      out ++ (n.bind fun name => i.map fun id => (id, name)).toList =
        [(identityOf (nameIdentity e.name) (upToContract e.parts), e.name)] := by
  have hopen : run identityRead st [.fn (some e.name)] =
      ((some e.name, some (nameIdentity e.name)), []) := rfl
  rcases identity_parts e.name (nameIdentity e.name) e.parts with hparts | ⟨i, hparts⟩
  · exact ⟨_, _, _, run_trans hopen hparts, rfl⟩
  · exact ⟨_, _, _, run_trans hopen hparts, rfl⟩

/-! ### Blocks -/

omit [Sha256] in
/-- A reader that passes over what stands between the entries. -/
theorem run_blocks {σ β : Type} (step : σ → Kind → σ × List β) (home : σ → Prop)
    (written : Entry → List β)
    (hentry : ∀ e s, home s → ∃ t, home t ∧ run step s (e.kinds ++ [.close]) = (t, written e))
    (hidle : ∀ s, home s → (∀ name, step s (.channel name) = (s, [])) ∧ ∀ ty,
      step s (.leaf (plainLine ty)) = (s, []))
    (hclose : ∀ s, home s → ∃ t, home t ∧ step s .close = (t, [])) (g : Grammar) {s : σ}
    (hs : home s) :
    ∃ t, home t ∧ run step s (g.blocks.flatMap Block.kinds) = (t, g.closed.flatMap written) := by
  rw [Grammar.closed, flatMap_assoc]
  refine run_flatMap ?_ hs
  intro b _ s hs
  obtain ⟨hchannel, hplain⟩ := hidle s hs
  cases b with
  | entry e =>
    obtain ⟨t, ht, hrun⟩ := hentry e s hs
    exact ⟨t, ht, by simpa [Block.kinds] using hrun⟩
  | channel name types =>
    obtain ⟨t, ht, hend⟩ := hclose s hs
    have hopen : run step s [.channel name] = (s, []) := by
      rw [run_cons, hchannel]
      rfl
    have htypes : run step s (types.map fun ty => .leaf (plainLine ty)) = (s, []) := by
      apply run_idle
      intro k hk
      obtain ⟨ty, -, rfl⟩ := mem_map.mp hk
      exact hplain ty
    have hshut : run step s [.close] = (t, []) := by
      rw [run_cons, hend]
      rfl
    exact ⟨t, ht, run_trans hopen (run_trans htypes hshut)⟩
  | line ty =>
    refine ⟨s, hs, ?_⟩
    rw [Block.kinds, run_cons, hplain]
    rfl

variable {content : String} {g : Grammar}

theorem identityInserts_eq (h : (lines content).map kind = g.kinds) : identityInserts content =
    g.entries.map fun e => (identityOf (nameIdentity e.name) (upToContract e.parts), e.name) := by
  have hclosed : ∀ (e : Entry) (st : Option String × Option Hash256), st = (none, none) →
      ∃ t, t = (none, none) ∧ run identityRead st (e.kinds ++ [.close]) =
        (t, [(identityOf (nameIdentity e.name) (upToContract e.parts), e.name)]) := by
    rintro e st rfl
    obtain ⟨n, i, out, hrun, hout⟩ := identity_entry e (none, none)
    refine ⟨(none, none), rfl, ?_⟩
    rw [run_append hrun, ← hout]
    simp [run, identityRead]
  have hidle : ∀ st : Option String × Option Hash256, st = (none, none) →
      (∀ name, identityRead st (.channel name) = (st, [])) ∧
        ∀ ty, identityRead st (.leaf (plainLine ty)) = (st, []) := by
    rintro st rfl
    refine ⟨fun _ => rfl, ?_⟩
    intro ty
    cases ty <;> rfl
  have hclose : ∀ st : Option String × Option Hash256, st = (none, none) →
      ∃ t, t = (none, none) ∧ identityRead st .close = (t, []) := by
    rintro st rfl
    exact ⟨_, rfl, rfl⟩
  obtain ⟨t, rfl, hblocks⟩ := run_blocks identityRead _ _ hclosed hidle hclose g rfl
  rw [identityInserts, run_map kind identityStep_eq, h, Grammar.kinds, run_append hblocks,
    Grammar.entries, map_append, map_eq_flatMap]
  cases g.unclosed with
  | none => simp [run]
  | some e =>
    obtain ⟨n, i, out, hrun, hout⟩ := identity_entry e (none, none)
    simp [hrun, hout]

/-! ### In-clauses -/

theorem inRead_iff (cur : Option Hash256) (k : Kind) :
    (inRead cur k).1 = some id ↔ k.Names id ∨ k.Quiet ∧ cur = some id := by
  cases k with
  | leaf l =>
    cases l with
    | identity h => cases h <;> simp [inRead, Kind.Names, Kind.Quiet]
    | _ => simp [inRead, Kind.Names, Kind.Quiet]
  | fn name => cases name <;> simp [inRead, Kind.Names, Kind.Quiet]
  | _ => simp [inRead, Kind.Names, Kind.Quiet]

/-- What an `in` line behind these lines is taken for. -/
theorem in_state (cur : Option Hash256) (ks : List Kind) : (run inRead cur ks).1 = some id ↔
    (∃ before k after, ks = before ++ k :: after ∧ k.Names id ∧ ∀ k' ∈ after, k'.Quiet) ∨
      (∀ k ∈ ks, k.Quiet) ∧ cur = some id := by
  induction ks generalizing cur with
  | nil =>
    have hnone : ¬ ∃ before k after, ([] : List Kind) = before ++ k :: after ∧ k.Names id ∧
        ∀ k' ∈ after, k'.Quiet := by
      rintro ⟨before, k, after, heq, -⟩
      simp at heq
    rw [or_iff_right hnone]
    simp [run]
  | cons k ks ih =>
    rw [run_cons, ih, inRead_iff, forall_mem_cons]
    constructor
    · rintro (⟨before, k', after, rfl, hnames, hquiet⟩ | ⟨hquiet, hnames | ⟨hk, hcur⟩⟩)
      · exact .inl ⟨k :: before, k', after, rfl, hnames, hquiet⟩
      · exact .inl ⟨[], k, ks, rfl, hnames, hquiet⟩
      · exact .inr ⟨⟨hk, hquiet⟩, hcur⟩
    · rintro (⟨before, k', after, heq, hnames, hquiet⟩ | ⟨⟨hk, hquiet⟩, hcur⟩)
      · cases before with
        | nil =>
          obtain ⟨rfl, rfl⟩ := List.cons.inj heq
          exact .inr ⟨hquiet, .inl hnames⟩
        | cons k'' before =>
          obtain ⟨rfl, rfl⟩ := List.cons.inj heq
          exact .inl ⟨before, k', after, rfl, hnames, hquiet⟩
      · exact .inr ⟨hquiet, .inr ⟨hk, hcur⟩⟩

theorem in_length_le (cur : Option Hash256) (ks : List Kind) :
    (run inRead cur ks).2.length ≤ (ks.filterMap Kind.clause).length := by
  induction ks generalizing cur with
  | nil => exact le_refl _
  | cons k ks ih =>
    have hrest := ih (inRead cur k).1
    have hone : (inRead cur k).2.length ≤ k.clause.toList.length := by
      cases k with
      | leaf l =>
        cases l with
        | identity h => cases h <;> simp [inRead]
        | inClause clause => cases cur <;> simp [inRead, Kind.clause]
        | _ => simp [inRead]
      | fn name => cases name <;> simp [inRead]
      | _ => simp [inRead]
    rw [run_cons, length_append, filterMap_cons]
    cases hclause : k.clause with
    | none =>
      simp only [hclause, toList_none, length_nil] at hone ⊢
      omega
    | some clause =>
      simp only [hclause, toList_some, length_cons, length_nil] at hone ⊢
      omega

/-- Every `in` line is put into the map, and under this identity. -/
theorem in_run_iff (cur : Option Hash256) (ks : List Kind) :
    (run inRead cur ks).2 = (ks.filterMap Kind.clause).map (fun clause => (id, clause)) ↔
      ∀ front clause back, ks = front ++ .leaf (.inClause clause) :: back →
        (run inRead cur front).1 = some id := by
  induction ks generalizing cur with
  | nil =>
    refine iff_of_true rfl ?_
    intro front clause back heq
    simp at heq
  | cons k ks ih =>
    have hforall : (∀ front clause back, k :: ks = front ++ .leaf (.inClause clause) :: back →
        (run inRead cur front).1 = some id) ↔
        (∀ clause, k = .leaf (.inClause clause) → cur = some id) ∧
          ∀ front clause back, ks = front ++ .leaf (.inClause clause) :: back →
            (run inRead (inRead cur k).1 front).1 = some id := by
      constructor
      · intro h
        refine ⟨?_, ?_⟩
        · rintro clause rfl
          exact h [] clause ks rfl
        · rintro front clause back rfl
          exact h (k :: front) clause back rfl
      · rintro ⟨hk, hks⟩ front clause back heq
        cases front with
        | nil =>
          obtain ⟨rfl, rfl⟩ := List.cons.inj heq
          exact hk clause rfl
        | cons k' front =>
          obtain ⟨rfl, rfl⟩ := List.cons.inj heq
          exact hks front clause back rfl
    rw [hforall, ← ih, run_cons, filterMap_cons]
    have hquiet :
        k.clause = none → (inRead cur k).2 = [] ∧ ∀ clause, k ≠ .leaf (.inClause clause) := by
      intro hclause
      cases k with
      | leaf l =>
        cases l with
        | identity h => cases h <;> simp [inRead]
        | inClause clause => cases hclause
        | _ => simp [inRead]
      | fn name => cases name <;> simp [inRead]
      | _ => simp [inRead]
    cases hclause : k.clause with
    | none =>
      obtain ⟨hnil, hne⟩ := hquiet hclause
      rw [hnil, nil_append]
      exact (and_iff_right fun clause heq => absurd heq (hne clause)).symm
    | some clause =>
      obtain rfl : k = .leaf (.inClause clause) := by
        cases k with
        | leaf l =>
          cases l with
          | inClause clause' =>
            cases hclause
            rfl
          | _ => cases hclause
        | _ => cases hclause
      have hstate : (inRead cur (.leaf (.inClause clause))).1 = cur := rfl
      cases cur with
      | none =>
        -- the line is lost, and no other makes up for it
        have hle := in_length_le none ks
        refine iff_of_false ?_ ?_
        · intro heq
          have hlen := congrArg List.length heq
          simp only [inRead, toList_none, map_nil, nil_append, length_map, length_cons] at hlen
          omega
        · rintro ⟨hk, -⟩
          cases hk clause rfl
      | some i =>
        have hout : (inRead (some i) (.leaf (.inClause clause))).2 = [(i, clause)] := rfl
        rw [hout, hstate, singleton_append, map_cons, cons_eq_cons]
        refine and_congr ?_ Iff.rfl
        constructor
        · intro heq clause' _
          rw [(Prod.mk.inj heq).1]
        · intro h
          rw [some.inj (h clause rfl)]

theorem inInserts_eq (h : (lines content).map kind = g.kinds) :
    inInserts content = g.entries.flatMap fun e => (run inRead none e.kinds).2 := by
  have hclosed : ∀ (e : Entry) (cur : Option Hash256), cur = none →
      ∃ t, t = none ∧ run inRead cur (e.kinds ++ [.close]) = (t, (run inRead none e.kinds).2) := by
    rintro e cur rfl
    refine ⟨none, rfl, ?_⟩
    rw [run_append rfl]
    simp [run, inRead]
  have hidle : ∀ cur : Option Hash256, cur = none →
      (∀ name, inRead cur (.channel name) = (cur, [])) ∧
        ∀ ty, inRead cur (.leaf (plainLine ty)) = (cur, []) := by
    rintro cur rfl
    refine ⟨fun _ => rfl, ?_⟩
    intro ty
    cases ty <;> rfl
  have hclose :
      ∀ cur : Option Hash256, cur = none → ∃ t, t = none ∧ inRead cur .close = (t, []) := by
    rintro cur rfl
    exact ⟨_, rfl, rfl⟩
  obtain ⟨t, rfl, hblocks⟩ := run_blocks inRead _ _ hclosed hidle hclose g rfl
  rw [inInserts, run_map kind inStep_eq, h, Grammar.kinds, run_append hblocks, Grammar.entries,
    flatMap_append]
  cases g.unclosed with
  | none => rfl
  | some e => simp

/-- The `in` lines are where they should be just when each is taken to its entry. -/
theorem placed_iff (e : Entry) :
    (run inRead none e.kinds).2 = e.ins.map (fun clause => (e.identity, clause)) ↔ e.Placed := by
  rw [Entry.ins, in_run_iff]
  refine forall_congr' fun front => forall_congr' fun clause => forall_congr' fun back =>
    imp_congr_right ?_
  intro _
  rw [in_state]
  exact or_iff_left fun h => by cases h.2

/-! ### Bodies and purity -/

omit [Sha256] in
/-- A reader whose state tells the lines read so far, and whether they end in a contract. -/
theorem run_parts {σ β : Type} {step : σ → Kind → σ × List β} (state : List Leaf → Bool → σ)
    (hleaf : ∀ ls l inContract,
      step (state ls inContract) (.leaf l) = (state (ls ++ [l]) inContract, []))
    (hopen : ∀ ls, step (state ls false) .contract = (state ls true, []))
    (hclose : ∀ ls, step (state ls true) .close = (state ls false, [])) (ls : List Leaf)
    (ps : List Part) :
    run step (state ls false) (ps.flatMap Part.kinds) =
      (state (ls ++ ps.flatMap Part.leaves) false, []) := by
  have hleaves : ∀ more ls inContract, run step (state ls inContract) (more.map .leaf) =
      (state (ls ++ more) inContract, []) := by
    intro more
    induction more with
    | nil =>
      intro ls inContract
      rw [append_nil]
      rfl
    | cons l more ih =>
      intro ls inContract
      rw [map_cons, run_cons, hleaf, ih, append_assoc]
      rfl
  induction ps generalizing ls with
  | nil =>
    have hnil : ls ++ ([] : List Part).flatMap Part.leaves = ls := append_nil ls
    rw [hnil]
    rfl
  | cons p ps ih =>
    have hpart : run step (state ls false) p.kinds = (state (ls ++ p.leaves) false, []) := by
      cases p with
      | line l => exact hleaves [l] ls false
      | contract more =>
        have hfirst : run step (state ls false) [.contract] = (state ls true, []) := by
          rw [run_cons, hopen]
          rfl
        have hlast :
            run step (state (ls ++ more) true) [.close] = (state (ls ++ more) false, []) := by
          rw [run_cons, hclose]
          rfl
        exact run_trans hfirst (run_trans (hleaves more ls true) hlast)
    rw [flatMap_cons, run_trans hpart (ih (ls ++ p.leaves)), flatMap_cons, append_assoc]
    rfl

theorem body_entry (e : Entry) (st : BodyState) :
    run bodyRead st e.kinds = (⟨some e.identity, e.body, false⟩, []) := by
  have hopen : run bodyRead st [.fn (some e.name)] =
    (⟨some (nameIdentity e.name), none, false⟩, []) := rfl
  have hleaf : ∀ ls l inContract, bodyRead ⟨some (identityOf (nameIdentity e.name) ls),
      bodyOf none ls, inContract⟩ (.leaf l) = (⟨some (identityOf (nameIdentity e.name) (ls ++ [l])),
      bodyOf none (ls ++ [l]), inContract⟩, []) := by
    intro ls l inContract
    rw [identityOf, identityOf, bodyOf, bodyOf, foldl_append, foldl_append]
    cases l with
    | identity h => cases h <;> rfl
    | body h => cases h <;> rfl
    | _ => rfl
  have hparts := run_parts
    (fun ls inContract => BodyState.mk (some (identityOf (nameIdentity e.name) ls))
      (bodyOf none ls) inContract) hleaf (fun _ => rfl) (fun _ => rfl) [] e.parts
  exact run_trans hopen hparts

theorem bodyInserts_eq (h : (lines content).map kind = g.kinds) :
    bodyInserts content = g.closed.flatMap fun e => e.body.toList.map fun b => (e.identity, b) := by
  have hclosed : ∀ (e : Entry) (st : BodyState), st = ⟨none, none, false⟩ →
      ∃ t : BodyState, t = ⟨none, none, false⟩ ∧ run bodyRead st (e.kinds ++ [.close]) =
        (t, e.body.toList.map fun b => (e.identity, b)) := by
    intro e st _
    have hend : run bodyRead ⟨some e.identity, e.body, false⟩ [.close] =
        (⟨none, none, false⟩, e.body.toList.map fun b => (e.identity, b)) := by
      cases e.body <;> rfl
    exact ⟨_, rfl, run_trans (body_entry e st) hend⟩
  have hidle : ∀ st : BodyState, st = ⟨none, none, false⟩ →
      (∀ name, bodyRead st (.channel name) = (st, [])) ∧
        ∀ ty, bodyRead st (.leaf (plainLine ty)) = (st, []) := by
    rintro st rfl
    refine ⟨fun _ => rfl, ?_⟩
    intro ty
    cases ty <;> rfl
  have hclose : ∀ st : BodyState, st = ⟨none, none, false⟩ →
      ∃ t : BodyState, t = ⟨none, none, false⟩ ∧ bodyRead st .close = (t, []) := by
    rintro st rfl
    exact ⟨_, rfl, rfl⟩
  obtain ⟨t, rfl, hblocks⟩ := run_blocks bodyRead _ _ hclosed hidle hclose g rfl
  rw [bodyInserts, run_map kind bodyStep_eq, h, Grammar.kinds, run_append hblocks]
  cases g.unclosed with
  | none => simp [run]
  | some e => simp [body_entry]

theorem pure_entry (e : Entry) (st : PureState) : run pureRead st e.kinds =
    (⟨some e.identity, pureOf false e.leaves, detOf false e.leaves, false⟩, []) := by
  have hopen : run pureRead st [.fn (some e.name)] =
    (⟨some (nameIdentity e.name), false, false, false⟩, []) := rfl
  have hleaf : ∀ ls l inContract, pureRead ⟨some (identityOf (nameIdentity e.name) ls),
      pureOf false ls, detOf false ls, inContract⟩ (.leaf l) =
      (⟨some (identityOf (nameIdentity e.name) (ls ++ [l])), pureOf false (ls ++ [l]),
      detOf false (ls ++ [l]), inContract⟩, []) := by
    intro ls l inContract
    rw [identityOf, identityOf, pureOf, pureOf, detOf, detOf, foldl_append, foldl_append,
      foldl_append]
    cases l with
    | identity h => cases h <;> rfl
    | _ => rfl
  have hparts := run_parts
    (fun ls inContract => PureState.mk (some (identityOf (nameIdentity e.name) ls))
      (pureOf false ls) (detOf false ls) inContract) hleaf (fun _ => rfl) (fun _ => rfl) [] e.parts
  exact run_trans hopen hparts

theorem pureInserts_eq (h : (lines content).map kind = g.kinds) :
    pureInserts content = g.closed.flatMap fun e => if e.isPureDet then [e.identity] else [] := by
  have hclosed : ∀ (e : Entry) (st : PureState), (st.identity = none ∧ st.inContract = false) →
      ∃ t : PureState, (t.identity = none ∧ t.inContract = false) ∧
        run pureRead st (e.kinds ++ [.close]) = (t, if e.isPureDet then [e.identity] else []) := by
    intro e st _
    have hend : run pureRead ⟨some e.identity, pureOf false e.leaves, detOf false e.leaves, false⟩
        [.close] = (⟨none, pureOf false e.leaves, detOf false e.leaves, false⟩,
          if e.isPureDet then [e.identity] else []) := by
      rw [Entry.isPureDet]
      cases pureOf false e.leaves <;> cases detOf false e.leaves <;> rfl
    exact ⟨_, ⟨rfl, rfl⟩, run_trans (pure_entry e st) hend⟩
  have hidle : ∀ st : PureState, (st.identity = none ∧ st.inContract = false) →
      (∀ name, pureRead st (.channel name) = (st, [])) ∧
        ∀ ty, pureRead st (.leaf (plainLine ty)) = (st, []) := by
    intro st _
    refine ⟨fun _ => rfl, ?_⟩
    intro ty
    cases ty <;> rfl
  have hclose : ∀ st : PureState, (st.identity = none ∧ st.inContract = false) → ∃ t : PureState,
      (t.identity = none ∧ t.inContract = false) ∧ pureRead st .close = (t, []) := by
    rintro ⟨identity, isPure, isDet, inContract⟩ ⟨rfl, rfl⟩
    refine ⟨⟨none, isPure, isDet, false⟩, ⟨rfl, rfl⟩, ?_⟩
    cases isPure <;> cases isDet <;> rfl
  obtain ⟨t, -, hblocks⟩ := run_blocks pureRead _ _ hclosed hidle hclose g
    (s := ⟨none, false, false, false⟩) ⟨rfl, rfl⟩
  rw [pureInserts, run_map kind pureStep_eq, h, Grammar.kinds, run_append hblocks]
  cases g.unclosed with
  | none => simp [run]
  | some e => simp [pure_entry]

/-! ### Async facts -/

omit [Sha256]

theorem async_plain (fn ty : Option String) (inContract : Bool) (line : Option String) :
    asyncRead ⟨fn, inContract, none, ty⟩ (.leaf (plainLine line)) =
      (⟨fn, inContract, none, ty⟩, []) := by
  cases line with
  | none => rfl
  | some rest =>
    rw [plainLine, asyncRead, if_neg]
    rintro ⟨hsome, -⟩
    cases hsome

theorem async_contract (ty : Option String) (ls : List Leaf) :
    run asyncRead ⟨some name, true, none, ty⟩ (ls.map .leaf) =
      (⟨some name, true, none, ty⟩, (Part.contract ls).backgrounds.map fun _ =>
        .background name) := by
  induction ls with
  | nil => rfl
  | cons l ls ih =>
    rw [map_cons, run_cons]
    cases l with
    | background =>
      have hstep : asyncRead ⟨some name, true, none, ty⟩ (.leaf .background) =
        (⟨some name, true, none, ty⟩, [.background name]) := rfl
      rw [hstep, ih]
      rfl
    | type rest =>
      have hstep : asyncRead ⟨some name, true, none, ty⟩ (.leaf (.type rest)) =
          (⟨some name, true, none, ty⟩, []) := async_plain _ ty true (some rest)
      rw [hstep, ih]
      rfl
    | _ =>
      simp only [asyncRead, ih]
      rfl

theorem async_parts (ty : Option String) (ps : List Part) :
    run asyncRead ⟨some name, false, none, ty⟩ (ps.flatMap Part.kinds) =
      (⟨some name, false, none, ty⟩, (ps.flatMap Part.backgrounds).map fun _ =>
        .background name) := by
  induction ps with
  | nil => rfl
  | cons p ps ih =>
    have hpart : run asyncRead ⟨some name, false, none, ty⟩ p.kinds =
        (⟨some name, false, none, ty⟩, p.backgrounds.map fun _ => .background name) := by
      cases p with
      | line l =>
        cases l with
        | type rest =>
          have hstep : asyncRead ⟨some name, false, none, ty⟩ (.leaf (.type rest)) =
              (⟨some name, false, none, ty⟩, []) := async_plain _ ty false (some rest)
          rw [Part.kinds, run_cons, hstep]
          rfl
        | _ => rfl
      | contract ls =>
        have hopen : run asyncRead ⟨some name, false, none, ty⟩ [.contract] =
          (⟨some name, true, none, ty⟩, []) := rfl
        have hend : run asyncRead ⟨some name, true, none, ty⟩ [.close] =
          (⟨some name, false, none, ty⟩, []) := rfl
        have hall := run_trans hopen (run_trans (async_contract ty ls) hend)
        rwa [nil_append, append_nil] at hall
    rw [flatMap_cons, run_trans hpart ih, flatMap_cons, map_append]

theorem async_types (fn : Option String) (n : String) (ty : Option String)
    (types : List (Option String)) :
    run asyncRead ⟨fn, false, some n, ty⟩ (types.map fun ty => .leaf (plainLine ty)) =
      (⟨fn, false, some n, channelTypeOf ty types⟩, []) := by
  induction types generalizing ty with
  | nil => rfl
  | cons line types ih =>
    have hstep : asyncRead ⟨fn, false, some n, ty⟩ (.leaf (plainLine line)) =
        (⟨fn, false, some n, channelTypeOf ty [line]⟩, []) := by
      cases line with
      | none => rfl
      | some rest =>
        rw [plainLine, asyncRead, channelTypeOf, foldl_cons, foldl_nil]
        by_cases hequals : '=' ∈ rest.toList
        · rw [if_neg fun h => h.2 hequals]
          simp [hequals]
        · rw [if_pos ⟨rfl, hequals⟩]
          simp [hequals]
    rw [map_cons, run_cons, hstep, ih]
    rfl

theorem async_block (b : Block) (fn ty : Option String) : ∃ fn' ty',
    run asyncRead ⟨fn, false, none, ty⟩ b.kinds = (⟨fn', false, none, ty'⟩, b.facts) := by
  cases b with
  | entry e =>
    have hopen : run asyncRead ⟨fn, false, none, ty⟩ [.fn (some e.name)] =
      (⟨some e.name, false, none, ty⟩, []) := rfl
    have hend : run asyncRead ⟨some e.name, false, none, ty⟩ [.close] =
      (⟨none, false, none, ty⟩, []) := rfl
    have hall := run_trans (run_trans hopen (async_parts ty e.parts)) hend
    rw [nil_append, append_nil] at hall
    exact ⟨none, ty, hall⟩
  | channel name types =>
    cases name with
    | none =>
      have hopen : run asyncRead ⟨fn, false, none, ty⟩ [.channel none] =
        (⟨fn, false, none, none⟩, []) := rfl
      have htypes :
          run asyncRead ⟨fn, false, none, none⟩ (types.map fun ty => .leaf (plainLine ty)) =
            (⟨fn, false, none, none⟩, []) := by
        apply run_idle
        intro k hk
        obtain ⟨line, -, rfl⟩ := mem_map.mp hk
        exact async_plain fn none false line
      have hend : run asyncRead ⟨fn, false, none, none⟩ [.close] =
        (⟨none, false, none, none⟩, []) := rfl
      exact ⟨none, none, run_trans hopen (run_trans htypes hend)⟩
    | some n =>
      have hopen : run asyncRead ⟨fn, false, none, ty⟩ [.channel (some n)] =
        (⟨fn, false, some n, none⟩, []) := rfl
      have hend : run asyncRead ⟨fn, false, some n, channelTypeOf none types⟩ [.close] =
          (⟨fn, false, none, none⟩, (Block.channel (some n) types).facts) := by
        simp [run, asyncRead, Block.facts]
      have hall := run_trans hopen (run_trans (async_types fn n none types) hend)
      exact ⟨fn, none, hall⟩
  | line line =>
    refine ⟨fn, ty, ?_⟩
    rw [Block.kinds, run_cons, async_plain]
    rfl

theorem asyncFacts_eq (h : (lines content).map kind = g.kinds) :
    asyncFacts content = g.blocks.flatMap Block.facts ++ g.unclosed.toList.flatMap Entry.facts := by
  have hblock : ∀ b ∈ g.blocks, ∀ st : AsyncState, (st.inContract = false ∧ st.channelName = none) →
      ∃ t : AsyncState, (t.inContract = false ∧ t.channelName = none) ∧
        run asyncRead st b.kinds = (t, b.facts) := by
    rintro b - ⟨fn, inContract, channelName, ty⟩ ⟨rfl, rfl⟩
    obtain ⟨fn', ty', hrun⟩ := async_block b fn ty
    exact ⟨_, ⟨rfl, rfl⟩, hrun⟩
  obtain ⟨⟨fn, inContract, channelName, ty⟩, ⟨rfl, rfl⟩, hblocks⟩ :=
    run_flatMap hblock (s := ⟨none, false, none, none⟩) ⟨rfl, rfl⟩
  rw [asyncFacts, run_map kind asyncStep_eq, h, Grammar.kinds, run_append hblocks]
  cases g.unclosed with
  | none => simp [run]
  | some e =>
    have hopen : run asyncRead ⟨fn, false, none, ty⟩ [.fn (some e.name)] =
      (⟨some e.name, false, none, ty⟩, []) := rfl
    have hall := run_trans hopen (async_parts ty e.parts)
    simp only [toList_some, flatMap_singleton]
    rw [Entry.kinds, ← singleton_append, hall]
    rfl

end

/-- The readers see the same entries just when in each the identity stands in front of what needs
it, and an entry without its `end` has no body and is not pure and deterministic. -/
theorem sameEntries_iff {content : String} {g : Grammar} (h : (lines content).map kind = g.kinds) :
    SameEntries content g ↔ g.Plain := by
  have hidentities : (identityInserts content = g.entries.map fun e => (e.identity, e.name)) ↔
      ∀ e ∈ g.entries, e.Settled := by
    rw [identityInserts_eq h, map_inj_left]
    refine forall_congr' fun e => imp_congr_right fun _ => ?_
    rw [Prod.mk.injEq, and_iff_left rfl, Entry.Settled]
  have hins : (inInserts content = g.entries.flatMap fun e => e.ins.map fun clause =>
      (e.identity, clause)) ↔ ∀ e ∈ g.entries, e.Placed := by
    rw [inInserts_eq h, flatMap_eq_iff]
    · exact forall_congr' fun e => imp_congr_right fun _ => placed_iff e
    · intro e _
      rw [length_map]
      exact in_length_le none e.kinds
  have hbodies : (bodyInserts content = g.entries.flatMap fun e => e.body.toList.map fun b =>
      (e.identity, b)) ↔ ∀ e ∈ g.unclosed, e.body = none := by
    rw [bodyInserts_eq h, Grammar.entries, flatMap_append]
    cases g.unclosed with
    | none => simp
    | some e => cases hbody : e.body <;> simp [hbody]
  have hpures : (pureInserts content = g.entries.flatMap fun e =>
      if e.isPureDet then [e.identity] else []) ↔ ∀ e ∈ g.unclosed, e.isPureDet = false := by
    rw [pureInserts_eq h, Grammar.entries, flatMap_append]
    cases g.unclosed with
    | none => simp
    | some e => cases hpure : e.isPureDet <;> simp [hpure]
  constructor
  · intro hsame
    refine ⟨hidentities.mp hsame.identities, hins.mp hsame.ins, ?_⟩
    intro e he
    exact ⟨hbodies.mp hsame.bodies e he, hpures.mp hsame.pures e he⟩
  · intro hplain
    exact ⟨hidentities.mpr hplain.settled, hins.mpr hplain.placed,
      hbodies.mpr fun e he => (hplain.ended e he).1, hpures.mpr fun e he => (hplain.ended e he).2,
      asyncFacts_eq h⟩

end

attribute [local instance] textDigests

theorem sameEntries_background :
    SameEntries "fn a\n  bridge_contract\n    background\n  end\nend\n"
      ⟨[.entry ⟨"a", [.contract [.background]]⟩], none⟩ := by
  refine (sameEntries_iff rfl).mpr ⟨?_, ?_, nofun⟩
  · intro e he
    obtain rfl := mem_singleton.mp he
    rfl
  · intro e he front clause back heq
    obtain rfl := mem_singleton.mp he
    have hmem : Kind.leaf (.inClause clause) ∈ Entry.kinds ⟨"a", [.contract [.background]]⟩ := by
      rw [heq]
      simp
    simp [Entry.kinds, Part.kinds] at hmem

/-- Where the final `end` is missing, one reader has the entry and another has lost that it is pure;
the `in` line behind a contract is taken to no entry. -/
theorem entries_differ :
    (identityInserts "fn a\n  effect pure\n  deterministic true\n" = [(nameIdentity "a", "a")] ∧
      pureInserts "fn a\n  effect pure\n  deterministic true\n" = []) ∧ (identityInserts
      "fn a\n  bridge_contract\n  end\n  in (Int)\nend\n" = [(nameIdentity "a", "a")] ∧
      inInserts "fn a\n  bridge_contract\n  end\n  in (Int)\nend\n" = []) := by
  decide +kernel

end AxisBridge.Registry
