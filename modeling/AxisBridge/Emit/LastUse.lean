import AxisBridge.Emit.Cloned
import AxisBridge.Emit.WellScoped

/-! A value moves where the text uses it last: the move analysis is sound. -/
namespace AxisBridge
open List Moves Tok Mode Piece

section Analysis
variable {b : CoreBundle} {top : List UInt32} {r : NodeRef} {i j : ℕ} {node : Node}

theorem refExpr_inj {r' : NodeRef} (h : refExpr r = refExpr r') : r = r' := by
  cases r <;> cases r' <;> simp_all [refExpr, UInt32.toNat_inj]

theorem uint32_max (u v : UInt32) : max u v = if u ≤ v then v else u := rfl

local instance linearOrderUInt32 : Std.IsLinearOrder UInt32 := Std.IsLinearOrder.of_le

local instance orderMaxUInt32 : Std.LawfulOrderMax UInt32 where
  max_le_iff u v w := by
    simp only [uint32_max, UInt32.le_iff_toNat_le]
    split <;> omega
  max_eq_or u v := by
    rw [uint32_max]
    split <;> simp

/-- Where a reference may move it is recorded once, and nowhere later. -/
theorem lastUses_spec {u : UInt32} (h : lastUses b top r u = true) :
    (∀ v ∈ b.usesOf r, v ≤ u) ∧ (b.usesOf r).count u = 1 := by
  unfold lastUses at h
  cases hmax : (b.usesOf r).max? with
  | none => simp [hmax] at h
  | some last =>
    obtain ⟨hmem, hle⟩ := max?_eq_some_iff.mp hmax
    simp only [hmax, Bool.and_eq_true, decide_eq_true_eq, Bool.or_eq_true] at h
    obtain ⟨rfl, hone⟩ := h
    refine ⟨hle, ?_⟩
    rcases hone with hone | ⟨⟨-, hone⟩, -⟩
    · obtain ⟨v, hv⟩ := length_eq_one_iff.mp hone
      rw [hv, mem_singleton] at hmem
      simp [hv, hmem]
    · rw [count_eq_countP, countP_eq_length_filter, ← hone]
      congr 2

/-- The uses a node records, and the result's after them. -/
theorem sublist_uses (h : b.nodes[i]? = some node) :
    ((node.reads.map fun r => (r, asU32 i)) ++ [(b.result, RESULT_USE)]).Sublist b.uses := by
  apply Sublist.append_right
  have hmem : (node, i) ∈ b.nodes.zipIdx := mem_zipIdx_iff_getElem?.mpr h
  have hsub := sublist_flatten_of_mem (mem_map_of_mem
    (f := fun p : Node × ℕ => p.1.reads.map fun r => (r, asU32 p.2)) hmem)
  rwa [← flatMap_def] at hsub

theorem count_le_usesOf (h : b.nodes[i]? = some node) :
    node.reads.count r + (if b.result = r ∧ RESULT_USE = asU32 i then 1 else 0) ≤
      (b.usesOf r).count (asU32 i) := by
  have hsub := (((sublist_uses h).filter fun use => use.1 = r).map Prod.snd).count_le (asU32 i)
  refine le_trans (le_of_eq ?_) hsub
  rw [filter_append, map_append, count_append]
  congr 1
  · induction node.reads with
    | nil => rfl
    | cons r' rs ih =>
      by_cases hr : r' = r
      · simp_all
      · simp_all
  · by_cases hr : b.result = r
    · by_cases hi : RESULT_USE = asU32 i <;> simp [hr, hi]
    · simp [hr]

/-- What a node moves it reads once, no later node reads, and the result is not. -/
theorem lastUses_last (hn : b.nodes.length ≤ 2 ^ 32) (h : b.nodes[i]? = some node)
    (hread : r ∈ node.reads) (hmove : lastUses b top r (asU32 i) = true) :
    node.reads.count r = 1 ∧ b.result ≠ r ∧
    ∀ j later, b.nodes[j]? = some later → r ∈ later.reads → j ≤ i := by
  obtain ⟨hmax, hone⟩ := lastUses_spec hmove
  have hi : i < 2 ^ 32 := lt_of_lt_of_le (List.getElem?_eq_some_iff.mp h).1 hn
  have hle := count_le_usesOf (r := r) h
  have hpos := count_pos_iff.mpr hread
  rw [hone] at hle
  refine ⟨by split at hle <;> omega, ?_, ?_⟩
  · intro hres
    have huse : RESULT_USE ∈ b.usesOf r :=
      mem_map.mpr ⟨(b.result, RESULT_USE), by simp [CoreBundle.uses, hres], rfl⟩
    have hlast : RESULT_USE = asU32 i := by
      apply UInt32.toNat_inj.mp
      have hge := UInt32.le_iff_toNat_le.mp (hmax _ huse)
      rw [toNat_asU32 hi] at hge ⊢
      have hbig : RESULT_USE.toNat = 2 ^ 32 - 1 := rfl
      omega
    rw [if_pos ⟨hres, hlast⟩] at hle
    omega
  · intro j later hj hin
    have hjlt : j < 2 ^ 32 := lt_of_lt_of_le (List.getElem?_eq_some_iff.mp hj).1 hn
    have hmem : (r, asU32 j) ∈ b.uses :=
      (sublist_uses hj).subset (mem_append_left _ (mem_map_of_mem hin))
    have huse : asU32 j ∈ b.usesOf r := mem_map.mpr ⟨(r, asU32 j), by simpa using hmem, rfl⟩
    have hge := UInt32.le_iff_toNat_le.mp (hmax _ huse)
    rwa [toNat_asU32 hi, toNat_asU32 hjlt] at hge

end Analysis

section
variable {env : CallEnv} {index : UInt32}

theorem filter_commaSep (exprs : List Tok) :
    (commaSep exprs).filter isUse = exprs.filter isUse := by
  induction exprs with
  | nil => rfl
  | cons expr exprs ih =>
    cases exprs with
    | nil => rfl
    | cons expr' exprs =>
      have hraw : ¬ isUse (raw ", ") = true := by simp [isUse, raw]
      rw [commaSep] at ih ⊢
      rw [intersperse_cons_cons, filter_cons, filter_cons_of_neg hraw, ih, ← filter_cons]

theorem filter_callBody (target : Target) (native : Bool) (exprs : List Tok) :
    (callBody target native exprs).filter isUse = exprs.filter isUse := by
  obtain ⟨before, after, heq | ⟨rfl, heq⟩⟩ := callBody_eq target native exprs
  · simp [heq, filter_commaSep, isUse, raw]
  · simp [heq, isUse, raw]

/-- The uses of a call: the borrows of the pre-check, when there is one, then the arguments. -/
theorem filter_callToks (target : Target) (effectful : Bool) (args : List (NodeRef × ArgKind))
    (body : List Tok) :
    ∃ borrows, (∀ t ∈ borrows, ∃ arg ∈ args, t = .use .borrow (refExpr arg.1)) ∧
      (callToks target effectful args body).filter isUse = borrows ++ body.filter isUse := by
  unfold callToks guarded
  split
  · exact ⟨[], by simp, by simp [isUse, raw]⟩
  · refine ⟨(dataRefs args).filter isUse, ?_, ?_⟩
    · intro t ht
      have hmem := (mem_filter.mp ht).1
      obtain ⟨arg, harg, hsome⟩ := mem_filterMap.mp hmem
      split at hsome
      · cases hsome
        exact ⟨arg, harg, rfl⟩
      · cases hsome
    · simp [isUse, raw, filter_commaSep]

theorem ArgText.moves {arg : NodeRef} {kind : ArgKind} {how : Mode} {x : Var}
    (h : ArgText env index arg kind (.use how x)) :
    x = refExpr arg ∧ (how.moves = true → env.moves arg index = true) := by
  cases h with
  | take h =>
    refine ⟨rfl, fun hmove => ?_⟩
    unfold takeMode at hmove
    split at hmove
    next heq => exact heq
    next => cases hmove
  | access h t => exact ⟨rfl, fun hmove => by cases hmove⟩
  | intoBytes h heq => exact ⟨rfl, fun _ => heq⟩

/-- Among the arguments of one call, what moves is named once. -/
theorem movesLast_exprs {args : List (NodeRef × ArgKind)} {exprs : List Tok}
    (h : Forall₂ (fun arg tok => ArgText env index arg.1 arg.2 tok) args exprs)
    (honce : ∀ r, env.moves r index = true → (args.map Prod.fst).count r ≤ 1) :
    MovesLast moves exprs := by
  induction h with
  | nil => exact Pairwise.nil
  | @cons arg tok args exprs hhead htail ih =>
    refine pairwise_cons.mpr ⟨?_, ih fun r hr => ?_⟩
    · rintro u hu ⟨how, x, how', rfl, hmove, rfl⟩
      obtain ⟨rfl, hmoves⟩ := hhead.moves
      obtain ⟨n, hn, heq⟩ := getElem_of_mem hu
      have hlt := htail.length_eq ▸ hn
      have harg := htail.get hlt hn
      rw [get_eq_getElem, get_eq_getElem, heq] at harg
      have hsame := refExpr_inj harg.moves.1
      have hmem : arg.1 ∈ args.map Prod.fst := by
        rw [hsame]
        exact mem_map_of_mem (getElem_mem hlt)
      have hcount := honce arg.1 (hmoves hmove)
      rw [map_cons, count_cons_self] at hcount
      have hpos := count_pos_iff.mpr hmem
      omega
    · have hcount := honce r hr
      rw [map_cons] at hcount
      exact (count_le_count_cons).trans hcount

variable {args : List NodeRef} {targetName : String}

/-- The uses of a call's text are of its arguments, and move only where the set says. -/
theorem CallText.use_mem [Sha256] {id : Hash256}
    {toks : List Tok} (h : CallText env index id args targetName toks) {how : Mode} {x : Var}
    (hx : .use how x ∈ toks) :
    ∃ r ∈ args, x = refExpr r ∧ (how.moves = true → env.moves r index = true) := by
  cases h with
  | mk target kinds native effectful exprs resolved length_eq argTexts =>
    have huse : .use how x ∈ (callToks target effectful (args.zip kinds)
        (callBody target native exprs)).filter isUse := mem_filter.mpr ⟨hx, rfl⟩
    obtain ⟨borrows, hborrows, heq⟩ := filter_callToks target effectful (args.zip kinds)
      (callBody target native exprs)
    rw [heq, filter_callBody] at huse
    rcases mem_append.mp huse with huse | huse
    · obtain ⟨arg, harg, htok⟩ := hborrows _ huse
      cases htok
      exact ⟨arg.1, (of_mem_zip harg).1, rfl, fun hmove => by cases hmove⟩
    · obtain ⟨n, hn, hget⟩ := getElem_of_mem (mem_filter.mp huse).1
      have hlt := argTexts.length_eq ▸ hn
      have harg := argTexts.get hlt hn
      rw [get_eq_getElem, get_eq_getElem, hget] at harg
      exact ⟨_, (of_mem_zip (getElem_mem hlt)).1, harg.moves⟩

/-- In the text of a call what moves is not used afterwards. -/
theorem CallText.movesLast [Sha256] {id : Hash256}
    {toks : List Tok} (h : CallText env index id args targetName toks)
    (honce : ∀ r, env.moves r index = true → args.count r ≤ 1) : MovesLast moves toks := by
  cases h with
  | mk target kinds native effectful exprs resolved length_eq argTexts =>
    obtain ⟨borrows, hborrows, heq⟩ := filter_callToks target effectful (args.zip kinds)
      (callBody target native exprs)
    have hfst : (args.zip kinds).map Prod.fst = args := map_fst_zip (by omega)
    have hexprs := movesLast_exprs argTexts (by rwa [hfst])
    rw [← movesLast_filter, heq, filter_callBody, movesLast_append]
    have hborrow : ∀ how x, .use how x ∈ borrows → how.moves = false := by
      intro how x hmem
      obtain ⟨arg, -, htok⟩ := hborrows _ hmem
      cases htok
      rfl
    refine ⟨movesLast_of_forall hborrow, movesLast_filter.mpr hexprs, ?_⟩
    rintro t ht u - ⟨how, x, how', rfl, hmove, -⟩
    rw [hborrow how x ht] at hmove
    cases hmove

end

section
variable [Sha256] {b : CoreBundle} {blocks : Blocks} {kinds : List PoolKind} {env : CallEnv}
  {i : ℕ} {node : Node} {here : List Piece} {how : Mode} {x : Var}

/-- What a node's piece mentions is read there or at a later node: the condition of an `if` is
mentioned where its then-arm opens. -/
theorem use_mem_piece (A : Accepted b blocks kinds) (hnode : b.nodes[i]? = some node)
    (hhere : emitPiece b blocks env i node = .ok here) (hx : .use how x ∈ here.flatMap toks) :
    (∃ r k later, x = refExpr r ∧ i ≤ k ∧ b.nodes[k]? = some later ∧ r ∈ later.reads) ∧
    (how.moves = true → ∃ r, x = refExpr r ∧ r ∈ node.reads ∧ env.moves r (asU32 i) = true) := by
  have hi : i < b.nodes.length := (List.getElem?_eq_some_iff.mp hnode).1
  cases node with
  | cblock =>
    obtain ⟨end_, hpartner, hcases⟩ := emitOpen_ok hhere
    rcases hcases with ⟨k, cond, then_, else_, harm, hk, -, rfl⟩ | ⟨k, -, rfl⟩ | ⟨-, rfl⟩
    · obtain ⟨hm, hend⟩ := A.matches_partner hi (CoreBundle.role_opener_iff.mpr hnode) hpartner
      have hname := (A.arm_iff hend).mp harm
      rw [asU32_toNat] at hname
      have hlt := A.range.node_lt hk (mem_append_right _
        (mem_map_of_mem (f := Prod.snd) ((CoreBundle.namesArm_iff hk).mp hname).2))
      have hie := hm.1.2.1
      have hcond : x = refExpr cond ∧ how.moves = false := by
        simp only [flatMap_cons, flatMap_nil, append_nil, toks, raw,
          mem_cons, Scope.Tok.use.injEq, reduceCtorEq, not_mem_nil, or_false, false_or] at hx
        rcases hx with ⟨rfl, rfl⟩ | ⟨rfl, rfl⟩ | ⟨rfl, rfl⟩ | ⟨rfl, rfl⟩ <;> exact ⟨rfl, rfl⟩
      refine ⟨⟨cond, k.toNat, _, hcond.1, by omega, hk, by simp [Node.reads]⟩, fun hmove => ?_⟩
      rw [hcond.2] at hmove
      cases hmove
    · simp at hx
    · simp [toks] at hx
  | cend value =>
    obtain ⟨-, arm, -, hcases⟩ := emitClose_ok hhere
    have hvalue : x = refExpr value ∧ how = takeMode env.moves value (asU32 i) := by
      rcases hcases with ⟨_, _, _, _, _, _, rfl⟩ | ⟨_, _, _, _, _, rfl⟩ | ⟨_, rfl⟩ <;>
        simpa [toks, raw, and_comm] using hx
    obtain ⟨rfl, rfl⟩ := hvalue
    refine ⟨⟨value, i, _, rfl, le_rfl, hnode, by simp [Node.reads]⟩, fun hmove => ?_⟩
    refine ⟨value, rfl, by simp [Node.reads], ?_⟩
    unfold takeMode at hmove
    split at hmove
    next heq => exact heq
    next => cases hmove
  | cif c t e =>
    cases hhere
    simp at hx
  | cdeterminate =>
    cases hhere
    simp [toks, raw] at hx
  | ccall id args targetName =>
    obtain ⟨expr, htext, rfl⟩ := emitPiece_ccall hhere
    have hexpr : .use how x ∈ expr := by simpa [toks] using hx
    obtain ⟨r, hr, rfl, hmoves⟩ := htext.use_mem hexpr
    exact ⟨⟨r, i, _, rfl, le_rfl, hnode, hr⟩, fun hmove => ⟨r, rfl, hr, hmoves hmove⟩⟩

/-- Within one piece what moves is not used afterwards. -/
theorem movesLast_piece (hhere : emitPiece b blocks env i node = .ok here)
    (honce : ∀ r, env.moves r (asU32 i) = true → node.reads.count r ≤ 1) :
    MovesLast moves (here.flatMap toks) := by
  cases node with
  | cblock =>
    obtain ⟨end_, -, hcases⟩ := emitOpen_ok hhere
    rcases hcases with ⟨_, _, _, _, _, _, _, rfl⟩ | ⟨_, _, rfl⟩ | ⟨_, rfl⟩
    · refine movesLast_of_forall fun how x hx => ?_
      simp only [flatMap_cons, flatMap_nil, append_nil, toks, raw,
        mem_cons, Scope.Tok.use.injEq, reduceCtorEq, not_mem_nil, or_false, false_or] at hx
      rcases hx with ⟨rfl, -⟩ | ⟨rfl, -⟩ | ⟨rfl, -⟩ | ⟨rfl, -⟩ <;> rfl
    · exact Pairwise.nil
    · exact movesLast_of_forall (by simp [toks])
  | cend value =>
    obtain ⟨-, arm, -, hcases⟩ := emitClose_ok hhere
    rcases hcases with ⟨_, _, _, _, _, _, rfl⟩ | ⟨_, _, _, _, _, rfl⟩ | ⟨_, rfl⟩ <;>
      · rw [← movesLast_filter]
        exact pairwise_singleton _ _
  | cif c t e =>
    cases hhere
    exact Pairwise.nil
  | cdeterminate =>
    cases hhere
    exact movesLast_of_forall (by simp [toks, raw])
  | ccall id args targetName =>
    obtain ⟨expr, htext, rfl⟩ := emitPiece_ccall hhere
    rw [← movesLast_filter]
    simpa [toks, isUse] using movesLast_filter.mpr (htext.movesLast honce)

variable {pieces : List Piece}

/-- What the pieces from node `i` on mention is read at `i` or later, and what they move is moved by
a node that reads it and may. -/
theorem use_mem_pieces (A : Accepted b blocks kinds) {nodes : List Node}
    (hdrop : b.nodes.drop i = nodes) (hp : emitBlocks b blocks env i nodes = .ok pieces)
    (hx : .use how x ∈ pieces.flatMap toks) :
    (∃ r k later, x = refExpr r ∧ i ≤ k ∧ b.nodes[k]? = some later ∧ r ∈ later.reads) ∧
    (how.moves = true → ∃ r j node, x = refExpr r ∧ b.nodes[j]? = some node ∧ r ∈ node.reads ∧
      env.moves r (asU32 j) = true) := by
  obtain ⟨p, hpieces, hx⟩ := mem_flatMap.mp hx
  obtain ⟨node, j, here, hj, hhere, hmem⟩ := (mem_emitBlocks hp).mp hpieces
  obtain ⟨hle, hget⟩ := mem_zipIdx_iff_le_and_getElem?_sub.mp hj
  have hnode : b.nodes[j]? = some node := by
    rw [← hdrop, getElem?_drop, Nat.add_sub_cancel' hle] at hget
    exact hget
  obtain ⟨⟨r, k, later, hr, hjk, hlater⟩, hmoves⟩ :=
    use_mem_piece A hnode hhere (mem_flatMap.mpr ⟨p, hmem, hx⟩)
  refine ⟨⟨r, k, later, hr, by omega, hlater⟩, fun hmove => ?_⟩
  obtain ⟨r, hr, hread, hset⟩ := hmoves hmove
  exact ⟨r, j, node, hr, hnode, hread, hset⟩

/-- In the text of the nodes what moves is not used afterwards. -/
theorem movesLast_pieces (A : Accepted b blocks kinds) {top : List UInt32}
    (henv : env.moves = lastUses b top) {nodes : List Node}
    (hdrop : b.nodes.drop i = nodes) (hp : emitBlocks b blocks env i nodes = .ok pieces) :
    MovesLast moves (pieces.flatMap toks) := by
  induction nodes generalizing i pieces with
  | nil =>
    cases hp
    exact Pairwise.nil
  | cons node nodes ih =>
    obtain ⟨here, hhere, hp⟩ := Res.bind_eq_ok.mp hp
    obtain ⟨rest, hrest, hp⟩ := Res.bind_eq_ok.mp hp
    cases hp
    have hnode : b.nodes[i]? = some node := by
      rw [← head?_drop, hdrop, head?_cons]
    have hdrop' : b.nodes.drop (i + 1) = nodes := by
      rw [← tail_drop, hdrop, tail_cons]
    rw [flatMap_append, movesLast_append]
    refine ⟨movesLast_piece hhere fun r hmove => ?_, ih hdrop' hrest, ?_⟩
    · by_cases hread : r ∈ node.reads
      · rw [henv] at hmove
        exact (lastUses_last A.small hnode hread hmove).1.le
      · rw [count_eq_zero_of_not_mem hread]
        omega
    · rintro t ht u hu ⟨how, x, how', rfl, hmove, rfl⟩
      obtain ⟨r, rfl, hread, hset⟩ := (use_mem_piece A hnode hhere ht).2 hmove
      obtain ⟨r', k, later, hr, hik, hk, hlater⟩ := (use_mem_pieces A hdrop' hrest hu).1
      cases refExpr_inj hr
      rw [henv] at hset
      have hle := (lastUses_last A.small hnode hread hset).2.2 k later hk hlater
      omega

end

/-- The prologue names no variable but by its `let`. -/
theorem not_use_emitPrologue {b : CoreBundle} {safeName : String} {kinds : List PoolKind}
    {how : Mode} {x : Var} : .use how x ∉ emitPrologue b safeName kinds := by
  have hparam : ∀ count, (.use how x : Tok) ∉ paramBindings safeName count := by
    intro count hin
    unfold paramBindings at hin
    split at hin <;> simp [raw] at hin
  have hpool : (.use how x : Tok) ∉ poolBindings kinds := by
    intro hin
    obtain ⟨⟨kind, p⟩, -, hmem⟩ := mem_flatMap.mp hin
    cases kind <;> simp [poolBinding, raw] at hmem
  unfold emitPrologue
  split <;> simp [raw, hparam, hpool]

section
variable [Sha256] [CharTables] {t : Tables} {b : CoreBundle} {fnName : String}
  {providerCrates : List String} {m : RustModule}

/-- In the body of an emitted function a use that moves its variable is the last of it. -/
theorem movesLast_body (hn : b.nodes.length ≤ 2 ^ 32) (hr : b.InRange)
    (hm : emitModule t b fnName providerCrates = .ok m) : MovesLast moves m.body := by
  obtain ⟨-, -, kinds, blocks, pieces, hk, hb, hp, -, rfl⟩ := emitModule_eq_ok.mp hm
  have A : Accepted b blocks kinds := accepted_of_emitModule hn hr hk hb
  have hpieces := movesLast_pieces A rfl (drop_zero (l := b.nodes)) hp
  refine movesLast_append.mpr ⟨movesLast_of_forall fun how x hx => ?_, ?_, ?_⟩
  · exact (not_use_emitPrologue hx).elim
  · refine movesLast_append.mpr ⟨hpieces, pairwise_singleton _ _, ?_⟩
    rintro t ht u hu ⟨how, x, how', rfl, hmove, rfl⟩
    obtain ⟨r, j, node, rfl, hnode, hread, hset⟩ :=
      (use_mem_pieces A (drop_zero (l := b.nodes)) hp ht).2 hmove
    have hres : refExpr r = refExpr b.result :=
      (Scope.Tok.use.inj (mem_singleton.mp hu)).2
    exact (lastUses_last hn hnode hread hset).2.1 (refExpr_inj hres).symm
  · rintro t ht u - ⟨how, x, how', rfl, -⟩
    exact not_use_emitPrologue ht

/-- A move is the last use of its variable in the text; so no run meets a moved variable, and every
run ends as the run of the body in which every use is a clone. -/
theorem emitModule_moves_sound (hn : b.nodes.length ≤ 2 ^ 32) (hr : b.InRange)
    (hm : emitModule t b fnName providerCrates = .ok m) : MovesLast moves m.body ∧
    ∀ (V W : Type) (I : BodyMeaning V W) (pool : ℕ → Option V) (w : W),
      m.run I pool w = m.runCloned I pool w ∧ ∀ x, m.run I pool w ≠ .error (.moved x) := by
  have hlast := movesLast_body hn hr hm
  exact ⟨hlast, fun V W I pool w => RustModule.run_eq_runCloned hlast pool w⟩

end

attribute [local instance] knownDigests asciiTables

/-- A one-armed `CIf`: its constant is used twice in its text and cloned, its value moves. -/
theorem emitModule_moves_sound_oneArmed : ∃ m, emitModule noTables oneArmed "f" [] = .ok m ∧
    MovesLast moves m.body := by
  have hm : emitModule noTables oneArmed "f" [] = .ok _ := rfl
  exact ⟨_, hm, (emitModule_moves_sound (by decide) (by decide) hm).1⟩

/-- Past `2 ^ 32` nodes a constant moves at node 1 and is used again at node `2 ^ 32`. -/
theorem emitModule_moves_sound_usedTwice : ∃ b : CoreBundle, b.InRange ∧
    ∃ m, emitModule aliasTables b "f" [] = .ok m ∧ ¬ MovesLast moves m.body := by
  obtain ⟨out, first, toks, rest, hok, hpieces, huse, how, hlast⟩ :=
    emitModule_usedTwice (m := 2 ^ 32 - 2) (by norm_num)
  refine ⟨_, inRange_usedTwice, out, hok, fun h => ?_⟩
  have hbody : out.body = (out.prologue ++ first.toks ++ (Piece.bind 1 toks).toks) ++
      (rest.flatMap Piece.toks ++ [.use .take out.result]) := by
    simp [RustModule.body, hpieces]
  rw [hbody] at h
  refine (movesLast_append.mp h).2.2 (.use .take (.pool 0)) ?_ (.use how (.pool 0))
    (mem_append_left _ hlast) ⟨_, _, _, rfl, rfl, rfl⟩
  exact mem_append_right _ (mem_append_left _ (mem_cons_of_mem _ huse))

end AxisBridge
