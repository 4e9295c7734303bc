import AxisBridge.CoreIr.BlockRules

/-! Node indices are cast to `u32` unchecked: what the verifier does past `2 ^ 32` nodes. -/
namespace AxisBridge
open List Nesting Node

/-- The SHA-256 digests of the primitive types' codes, then of the names
`f`, `g`, `int_add`, `list_append`, `value_list_push` and `channel_send`. -/
def digestTable : List (Bytes × Bytes) := [
  ([1, 0, 0],
    [251, 80, 220, 7, 23, 255, 38, 108, 249, 186, 248, 43, 28, 231, 161, 194,
      239, 109, 146, 71, 133, 150, 128, 177, 26, 25, 251, 112, 119, 245, 242, 34]),
  ([1, 0, 1],
    [133, 249, 13, 254, 161, 216, 2, 126, 20, 99, 229, 202, 151, 26, 37, 1,
      16, 162, 13, 240, 17, 157, 32, 74, 116, 34, 11, 198, 53, 22, 209, 91]),
  ([1, 0, 2],
    [22, 48, 90, 107, 34, 146, 233, 49, 102, 90, 52, 8, 152, 100, 238, 63,
      204, 36, 23, 28, 129, 85, 31, 21, 44, 244, 209, 219, 13, 214, 18, 45]),
  ([1, 0, 3],
    [161, 67, 231, 255, 216, 17, 71, 241, 54, 249, 33, 254, 248, 135, 96, 196,
      108, 122, 5, 241, 91, 129, 153, 95, 156, 92, 254, 210, 167, 55, 163, 241]),
  ([1, 0, 5],
    [255, 255, 53, 40, 63, 229, 47, 1, 195, 213, 85, 229, 216, 235, 220, 249,
      14, 75, 43, 94, 119, 131, 210, 97, 224, 240, 148, 188, 111, 175, 161, 52]),
  ([1, 0, 7],
    [204, 22, 164, 69, 41, 210, 181, 169, 45, 1, 77, 99, 102, 149, 64, 206,
      47, 125, 214, 84, 217, 121, 113, 176, 179, 182, 14, 220, 68, 212, 87, 167]),
  ([1, 0, 8],
    [57, 228, 105, 206, 90, 91, 163, 19, 108, 74, 68, 56, 31, 46, 65, 131,
      220, 162, 117, 37, 122, 223, 207, 60, 0, 37, 9, 79, 5, 192, 34, 245]),
  ([1, 0, 9],
    [249, 83, 80, 118, 235, 38, 128, 159, 123, 66, 92, 57, 72, 93, 63, 211,
      34, 20, 42, 92, 70, 56, 185, 184, 29, 102, 185, 25, 53, 110, 232, 186]),
  ([102],
    [37, 47, 16, 200, 54, 16, 235, 202, 26, 5, 156, 11, 174, 130, 85, 235,
      162, 249, 91, 228, 209, 215, 188, 250, 137, 215, 36, 138, 130, 217, 241, 17]),
  ([103],
    [205, 10, 169, 133, 97, 71, 182, 197, 180, 255, 43, 125, 254, 229, 218, 32,
      170, 56, 37, 48, 153, 239, 27, 74, 100, 172, 237, 35, 60, 154, 254, 41]),
  ([105, 110, 116, 95, 97, 100, 100],
    [231, 94, 169, 155, 78, 227, 121, 126, 205, 29, 188, 120, 222, 237, 59, 170,
      149, 38, 81, 188, 174, 6, 215, 68, 88, 6, 143, 164, 197, 57, 94, 208]),
  ([108, 105, 115, 116, 95, 97, 112, 112, 101, 110, 100],
    [229, 185, 160, 77, 4, 111, 118, 137, 215, 166, 113, 251, 112, 118, 85, 235,
      230, 111, 124, 231, 105, 119, 64, 124, 141, 197, 223, 234, 159, 177, 171, 241]),
  ([118, 97, 108, 117, 101, 95, 108, 105, 115, 116, 95, 112, 117, 115, 104],
    [181, 116, 16, 148, 106, 102, 34, 115, 202, 72, 210, 122, 217, 9, 94, 171,
      118, 143, 185, 168, 229, 89, 187, 224, 20, 140, 59, 88, 30, 79, 227, 40]),
  ([99, 104, 97, 110, 110, 101, 108, 95, 115, 101, 110, 100],
    [180, 86, 82, 222, 42, 114, 73, 2, 47, 104, 106, 86, 215, 186, 55, 71,
      171, 117, 108, 88, 214, 104, 233, 163, 55, 233, 20, 30, 16, 31, 228, 137])]

/-- The digests the fixed bundles need; other inputs are never hashed there. -/
@[reducible] def knownDigests : Sha256 where
  digest data :=
    let bytes := (digestTable.lookup data).getD []
    if h : bytes.length = 32 then ⟨bytes, h⟩ else ⟨replicate 32 0, rfl⟩

def noName : Str := ⟨"", by decide⟩

def unitEntry [Sha256] : ConstantPoolEntry := ⟨unitTypeHash, ⟨[], by decide⟩⟩

def oneArg (r : NodeRef) : Vec NodeRef := ⟨[r], by simp⟩

section Gates
variable {b : CoreBundle}
variable {nodes : List Node}

theorem scan_cons [Sha256] {s t : Scan} {i : ℕ} {node : Node}
    (h : scanStep b s i node = .ok t) : scan b i (node :: nodes) s = scan b (i + 1) nodes t := by
  rw [scan, h, Res.ok_bind]

theorem references_cons {blocks : Blocks} {flags f : List Bool} {u : ℕ} {node : Node}
    (h : referenceStep b blocks flags u node = .ok f) :
    references b blocks u (node :: nodes) flags = references b blocks (u + 1) nodes f := by
  rw [references, h, Res.ok_bind]

/-- Determinacy gates outside every block leave the structure pass where it was. -/
theorem scan_gates [Sha256] {home partner : List (Option UInt32)}
    {arm : List (Option (UInt32 × Arm))} {i m : ℕ}
    (hh : ∀ j, i ≤ j → j < i + m → home[j]? = some none) :
    scan b i (replicate m .cdeterminate ++ nodes) ⟨home, partner, arm, []⟩ =
      scan b (i + m) nodes ⟨home, partner, arm, []⟩ := by
  induction m generalizing i with
  | zero => rfl
  | succ m ih =>
    obtain ⟨hlt, hget⟩ := List.getElem?_eq_some_iff.mp (hh i le_rfl (by omega))
    have hset : home.set i none = home := by
      rw [← hget]
      exact set_getElem_self hlt
    have hstep : scanStep b ⟨home, partner, arm, []⟩ i .cdeterminate =
        .ok ⟨home, partner, arm, []⟩ := by
      simp [scanStep, writeAt_of_lt hlt, hset, pure, Except.pure]
    rw [replicate_succ, cons_append, scan_cons hstep,
      ih (fun j hj hjm => hh j (by omega) (by omega))]
    congr 1
    omega

theorem references_gates {blocks : Blocks} {flags : List Bool} {u m : ℕ} :
    references b blocks u (replicate m .cdeterminate ++ nodes) flags =
      references b blocks (u + m) nodes flags := by
  induction m generalizing u with
  | zero => rfl
  | succ m ih =>
    rw [replicate_succ, cons_append, references_cons rfl, ih]
    congr 1
    omega

end Gates

/-- Node 4 reads node 1 from inside the closed arm `0..2` of the `CIf` 3, and after `m` gates comes
a block whose opener is node `m + 5`: with `m + 3 = 2 ^ 32` its index is cast to 2. -/
def wrapped [Sha256] (m : ℕ) : CoreBundle where
  version := "0.6"
  constantPool := [unitEntry]
  nodes := .cblock :: .cdeterminate :: .cend (.pool 0) :: .cif (.pool 0) (.node 2) (.pool 0) ::
    .ccall ⟨replicate 32 0, rfl⟩ (oneArg (.node 1)) noName ::
    (replicate m .cdeterminate ++ [.cblock, .cend (.pool 0)])
  result := .pool 0

/-- A table over the wrapped bundle with only its nodes 0 to 3 filled in. -/
def wide {α : Type} (m : ℕ) (x0 x1 x2 x3 : Option α) : List (Option α) :=
  x0 :: x1 :: x2 :: x3 :: replicate (m + 3) none

theorem wide_getElem? {α : Type} {m j : ℕ} {x0 x1 x2 x3 : Option α} (hj : 4 ≤ j)
    (hm : j < m + 7) : (wide m x0 x1 x2 x3)[j]? = some none := by
  obtain ⟨j, rfl⟩ := Nat.exists_eq_add_of_le' hj
  simp only [wide, getElem?_cons_succ]
  rw [getElem?_replicate_of_lt (by omega)]

theorem wide_set {α : Type} {m j : ℕ} {x0 x1 x2 x3 : Option α} (hj : 4 ≤ j) (hm : j < m + 7) :
    (wide m x0 x1 x2 x3).set j none = wide m x0 x1 x2 x3 := by
  have hnone := @wide_getElem? α m j x0 x1 x2 x3 hj hm
  obtain ⟨hlt, hget⟩ := List.getElem?_eq_some_iff.mp hnone
  rw [← hget]
  exact set_getElem_self hlt

@[simp] theorem length_wide {α : Type} {m : ℕ} {x0 x1 x2 x3 : Option α} :
    (wide m x0 x1 x2 x3).length = m + 7 := by
  simp [wide]

theorem asU32_wrapped {m d : ℕ} (hm : m + 3 = 2 ^ 32) : asU32 (m + 3 + d) = UInt32.ofNat d := by
  apply UInt32.toNat_inj.mp
  simp only [asU32, UInt32.toNat_ofNat']
  omega

section Wrapped
variable [Sha256] {m : ℕ}

theorem nodes_wrapped : (wrapped m).nodes =
    .cblock :: .cdeterminate :: .cend (.pool 0) :: .cif (.pool 0) (.node 2) (.pool 0) ::
      .ccall ⟨replicate 32 0, rfl⟩ (oneArg (.node 1)) noName ::
        (replicate m .cdeterminate ++ [.cblock, .cend (.pool 0)]) := rfl

theorem length_wrapped : (wrapped m).nodes.length = m + 7 := by
  simp [wrapped]

theorem isEnd_wrapped_two : (wrapped m).isEnd 2 = true := by
  simp [CoreBundle.isEnd, wrapped]

theorem wrapped_four : (wrapped m).nodes[4]? =
    some (.ccall ⟨replicate 32 0, rfl⟩ (oneArg (.node 1)) noName) := rfl

theorem unitElse_wrapped : (wrapped m).unitElse (.pool 0) = true := by
  simp [CoreBundle.unitElse, wrapped, unitEntry]

/-- Every reference of the wrapped bundle is made from its first five nodes or to the pool. -/
theorem mem_refs_wrapped {u : ℕ} {node : Node} {r : NodeRef}
    (hu : (wrapped m).nodes[u]? = some node) (hr : r ∈ node.refs) :
    r = .pool 0 ∨ (u = 3 ∧ r = .node 2) ∨ (u = 4 ∧ r = .node 1) := by
  match u with
  | 0 | 1 => simp [wrapped] at hu; subst hu; simp [refs, reads, arms] at hr
  | 2 =>
    simp [wrapped] at hu
    subst hu
    simp [refs, reads, arms] at hr
    exact Or.inl hr
  | 3 =>
    simp [wrapped] at hu
    subst hu
    simp only [refs, reads, arms, map_cons, map_nil, cons_append,
      nil_append, mem_cons, not_mem_nil, or_false] at hr
    rcases hr with rfl | rfl | rfl <;> simp
  | 4 =>
    simp [wrapped] at hu
    subst hu
    simp [refs, reads, arms, oneArg] at hr
    simp [hr]
  | u + 5 =>
    simp only [wrapped, getElem?_cons_succ] at hu
    have hmem := mem_of_getElem? hu
    simp only [mem_append, mem_replicate, mem_cons, not_mem_nil, or_false] at hmem
    rcases hmem with ⟨-, rfl⟩ | rfl | rfl
    · simp [refs, reads, arms] at hr
    · simp [refs, reads, arms] at hr
    · simp [refs, reads, arms] at hr
      exact Or.inl hr

theorem inRange_wrapped : (wrapped m).InRange where
  node := by
    intro u node r hu hr
    rcases mem_refs_wrapped hu hr with rfl | ⟨rfl, rfl⟩ | ⟨rfl, rfl⟩ <;>
      simp [NodeRef.InRange, wrapped]
  result := by simp [NodeRef.InRange, wrapped]

/-- The structure pass's tables of the wrapped bundle: the last `CBlock` was recorded as block 2. -/
def wrappedBlocks (m : ℕ) : Blocks where
  home := wide m none (some 0) none none
  partner := (wide m (some 2) none (some 3) none).set (m + 6) (some 2)
  arm := wide m none none (some (3, .then_)) none

/-- The structure pass over the wrapped bundle, node by node. -/
theorem scan_wrapped (hm : m + 3 = 2 ^ 32) : scan (wrapped m) 0 (wrapped m).nodes
    ⟨wide m none none none none, wide m none none none none, wide m none none none none, []⟩ =
    .ok ⟨(wrappedBlocks m).home, (wrappedBlocks m).partner, (wrappedBlocks m).arm, []⟩ := by
  have hend : (wrapped m).isEnd 2 = true := isEnd_wrapped_two
  have hopen : asU32 (m + 5) = 2 := asU32_wrapped (d := 2) hm
  have hclose : asU32 (m + 6) = 3 := asU32_wrapped (d := 3) hm
  have hif : scanStep (wrapped m)
      ⟨wide m none (some 0) none none, wide m (some 2) none (some 0) none,
        wide m none none none none, []⟩ 3 (.cif (.pool 0) (.node 2) (.pool 0)) =
      .ok ⟨wide m none (some 0) none none, wide m (some 2) none (some 0) none,
        wide m none none (some (3, .then_)) none, []⟩ := by
    simp only [scanStep, nameArm, hend, armsInPlace, unitElse_wrapped]
    rfl
  rw [nodes_wrapped,
    scan_cons (t := ⟨wide m none none none none, wide m none none none none,
      wide m none none none none, [0]⟩) rfl,
    scan_cons (t := ⟨wide m none (some 0) none none, wide m none none none none,
      wide m none none none none, [0]⟩) rfl,
    scan_cons (t := ⟨wide m none (some 0) none none, wide m (some 2) none (some 0) none,
      wide m none none none none, []⟩) rfl,
    scan_cons hif,
    scan_cons (t := ⟨wide m none (some 0) none none, wide m (some 2) none (some 0) none,
      wide m none none (some (3, .then_)) none, []⟩) rfl,
    scan_gates (fun j hj hjm => wide_getElem? (by omega) (by omega)),
    show 0 + 1 + 1 + 1 + 1 + 1 + m = m + 5 by omega,
    scan_cons (t := ⟨wide m none (some 0) none none, wide m (some 2) none (some 0) none,
      wide m none none (some (3, .then_)) none, [2]⟩)
      (by simp [scanStep, writeAt_of_lt, wide_set, hopen, pure, Except.pure]),
    scan_cons (t := ⟨(wrappedBlocks m).home, (wrappedBlocks m).partner, (wrappedBlocks m).arm, []⟩)
      (by
        simp [scanStep, writeAt_of_lt, wide_set, hclose, pure, Except.pure]
        exact ⟨rfl, rfl, rfl⟩)]
  rfl

/-- The reference pass: the first `CEnd` closes block 3, the last one block 2, none block 0. -/
theorem references_wrapped : references (wrapped m) (wrappedBlocks m) 0
    (wrapped m).nodes (false :: false :: false :: false :: replicate (m + 3) false) =
    .ok ((true :: false :: false :: false :: replicate (m + 3) false).set (m + 5) true) := by
  have hpartner : (wrappedBlocks m).partner[m + 6]? = some (some 2) := by
    simp [wrappedBlocks]
  have hcall : referenceStep (wrapped m) (wrappedBlocks m)
      (true :: false :: false :: false :: replicate (m + 3) false) 4
      (.ccall ⟨replicate 32 0, rfl⟩ (oneArg (.node 1)) noName) =
      .ok (true :: false :: false :: false :: replicate (m + 3) false) := by
    rfl
  rw [nodes_wrapped,
    references_cons (f := true :: false :: false :: false :: replicate (m + 3) false)
      rfl,
    references_cons rfl,
    references_cons (f := true :: false :: false :: false :: replicate (m + 3) false)
      rfl,
    references_cons rfl, references_cons hcall, references_gates,
    show 0 + 1 + 1 + 1 + 1 + 1 + m = m + 5 by omega,
    references_cons (f := (true :: false :: false :: false ::
        replicate (m + 3) false).set (m + 5) true)
      (by simp [referenceStep, writeAt]),
    references_cons (f := (true :: false :: false :: false ::
        replicate (m + 3) false).set (m + 5) true)
      (by
        simp [referenceStep, check, readAt_of_getElem? hpartner, writeAt])]
  rfl

theorem verifyBlocks_wrapped (hm : m + 3 = 2 ^ 32) :
    verifyBlocks (wrapped m) = .ok (wrappedBlocks m) := by
  have htable : ∀ {α : Type}, replicate (m + 7) (none : Option α) = wide m none none none none :=
    rfl
  have hflags : replicate (m + 7) false =
    false :: false :: false :: false :: replicate (m + 3) false := rfl
  simp only [verifyBlocks, length_wrapped]
  rw [htable, htable, hflags, scan_wrapped hm]
  show (do
    let opened ← references (wrapped m) (wrappedBlocks m) 0 (wrapped m).nodes _
    check (wrapped m) (wrappedBlocks m) opened "the result" (.pool 0)
    return wrappedBlocks m) = _
  rw [references_wrapped]
  rfl

theorem depth_wrapped_three : depth (wrapped m).role 3 = 0 := by
  simp [depth, CoreBundle.role, wrapped, Node.role, Bracket.weight]

theorem inside_wrapped : Inside (wrapped m).role 0 1 := by
  constructor
  · refine ⟨by simp [CoreBundle.role, wrapped, Node.role], by omega, fun k hk hpos => ?_⟩
    have hk1 : k = 1 := by omega
    subst hk1
    simp [depth, CoreBundle.role, wrapped, Node.role, Bracket.weight]
  · simp [Matches, CoreBundle.role, wrapped, Node.role]

theorem matches_wrapped : Matches (wrapped m).role 0 2 := by
  refine ⟨⟨by simp [CoreBundle.role, wrapped, Node.role], by omega, fun k hk hpos => ?_⟩, ?_, ?_⟩
  · have hk12 : k = 1 ∨ k = 2 := by omega
    rcases hk12 with rfl | rfl <;>
      simp [depth, CoreBundle.role, wrapped, Node.role, Bracket.weight]
  · simp [CoreBundle.role, wrapped, Node.role]
  · simp [depth, CoreBundle.role, wrapped, Node.role, Bracket.weight]

/-- Node 4 is past the `CEnd` of block 0. -/
theorem not_encloses_wrapped : ¬ Encloses (wrapped m).role 0 4 := by
  intro henc
  have hdeep := henc.2.2 3 (by omega) (by omega)
  rw [depth_wrapped_three] at hdeep
  simp [depth] at hdeep

theorem not_declaredRules_wrapped : ¬ (wrapped m).DeclaredRules := by
  intro h
  refine not_encloses_wrapped (h.visible (j := 1) (u := 4) wrapped_four ?_ 0 inside_wrapped)
  simp [refs, reads, oneArg]

end Wrapped

end AxisBridge
