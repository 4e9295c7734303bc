import AxisBridge.CoreIr.Outcome
import AxisBridge.CoreIr.ScanSpec

/-! The verifier answers on every bundle whose references lie among its nodes, however many those
are. -/
namespace AxisBridge
open List Res

section
variable {α : Type}
variable {t : List α}

theorem gives_readAt {i : ℕ} (h : i < t.length) : Gives (readAt t i) fun a => t[i]? = some a := by
  have hget := getElem?_eq_getElem h
  rw [readAt_of_getElem? hget]
  exact .pure hget

theorem gives_writeAt {i : ℕ} (h : i < t.length) (a : α) :
    Gives (writeAt t i a) fun t' => t' = t.set i a := by
  rw [writeAt_of_lt h]
  exact .pure rfl

theorem of_getElem?_set {i j : ℕ} {a a' : α} (h : (t.set i a)[j]? = some a') :
    j = i ∧ a' = a ∨ t[j]? = some a' := by
  rw [getElem?_set] at h
  split at h
  · next heq =>
    split at h
    · injection h with h
      exact .inl ⟨heq.symm, h.symm⟩
    · cases h
  · exact .inr h

end

/-! ### The structure pass -/

/-- The tables before node `i` have an entry for every node, and all that they name is a node. -/
structure Scan.Fits (b : CoreBundle) (i : ℕ) (s : Scan) : Prop where
  homeLength : s.home.length = b.nodes.length
  partnerLength : s.partner.length = b.nodes.length
  armLength : s.arm.length = b.nodes.length
  stack : ∀ o ∈ s.stack, o.toNat < i
  -- a block is opened before what it encloses, also where the index wraps
  home : ∀ (j : ℕ) (o : UInt32), s.home[j]? = some (some o) → o.toNat < j
  partner : ∀ (j : ℕ) (e : UInt32), s.partner[j]? = some (some e) → e.toNat < b.nodes.length
  closed : ∀ (j : ℕ) (value : NodeRef), j < i → b.nodes[j]? = some (.cend value) →
    ∃ o, s.partner[j]? = some (some o)

section
variable {b : CoreBundle} {s : Scan} {i : ℕ} {node : Node} {k : UInt32} {r : NodeRef} {which : Arm}
  {arm : List (Option (UInt32 × Arm))}

theorem toNat_asU32_le (i : ℕ) : (asU32 i).toNat ≤ i := by
  simp only [asU32, UInt32.toNat_ofNat']
  omega

theorem gives_nameArm (h : arm.length = b.nodes.length) :
    Gives (nameArm b k arm r which) fun arm' => arm'.length = b.nodes.length := by
  cases r with
  | pool p => exact .pure h
  | node j =>
    by_cases hend : b.isEnd j = true
    · have hj : j.toNat < arm.length := h ▸ CoreBundle.lt_of_isEnd hend
      simp only [nameArm, hend, if_true]
      refine (gives_readAt hj).bind fun entry _ => ?_
      cases entry with
      | some owner => exact .throw
      | none =>
        refine (gives_writeAt hj _).mono fun arm' harm => ?_
        rw [harm, length_set, h]
    · simp only [nameArm, hend]
      exact .pure h

/-- Node `i` gets its place: the innermost block open there. -/
theorem Scan.Fits.placed (h : Scan.Fits b i s) {stack : List UInt32}
    (hstack : ∀ o ∈ stack, o.toNat < i) (j : ℕ) (o : UInt32)
    (hj : (s.home.set i stack.head?)[j]? = some (some o)) : o.toNat < j := by
  rcases of_getElem?_set hj with ⟨rfl, heq⟩ | hj
  · exact hstack o (mem_of_head? heq.symm)
  · exact h.home j o hj

/-- A node that opens and closes nothing. -/
theorem Scan.Fits.plain (h : Scan.Fits b i s) (hnode : b.nodes[i]? = some node)
    (hrole : node.role ≠ .closer) (harm : arm.length = b.nodes.length) :
    Scan.Fits b (i + 1) { s with home := s.home.set i s.stack.head?, arm := arm } where
  homeLength := by
    rw [length_set]
    exact h.homeLength
  partnerLength := h.partnerLength
  armLength := harm
  stack := fun o ho => Nat.lt_succ_of_lt (h.stack o ho)
  home := h.placed h.stack
  partner := h.partner
  closed := by
    intro j value hj hend
    by_cases hji : j = i
    · subst hji
      rw [hnode] at hend
      injection hend with hend
      rw [hend] at hrole
      exact absurd rfl hrole
    · exact h.closed j value (by omega) hend

section
variable [Sha256]

/-- The `CEnd` that a `CIf` may name is behind it already, so its block is known. -/
theorem gives_armsInPlace {then_ else_ : NodeRef} (h : Scan.Fits b i s) :
    Gives (armsInPlace b s.partner (asU32 i) then_ else_) fun _ => True := by
  cases then_ with
  | pool p => exact .pure trivial
  | node t =>
    cases else_ with
    | pool p =>
      simp only [armsInPlace]
      split
      · exact .pure trivial
      · exact .pure trivial
    | node e =>
      simp only [armsInPlace]
      split
      · next hclosed =>
        simp only [Bool.and_eq_true, decide_eq_true_eq, beq_iff_eq] at hclosed
        obtain ⟨⟨hk, he⟩, hend⟩ := hclosed
        have hlt := (UInt32.pred_iff (asU32 i) e).mp ⟨hk, he⟩
        have hle := toNat_asU32_le i
        obtain ⟨value, hnode⟩ := CoreBundle.isEnd_iff.mp hend
        obtain ⟨o, ho⟩ := h.closed e.toNat value (by omega) hnode
        rw [readAt_of_getElem? ho]
        exact .pure trivial
      · split
        · exact .pure trivial
        · exact .pure trivial

theorem gives_scanStep (h : Scan.Fits b i s) (hnode : b.nodes[i]? = some node) :
    Gives (scanStep b s i node) (Scan.Fits b (i + 1)) := by
  have hi : i < b.nodes.length := (List.getElem?_eq_some_iff.mp hnode).1
  unfold scanStep
  refine (gives_writeAt (by rw [h.homeLength]; exact hi) _).bind ?_
  rintro home rfl
  cases node with
  | cblock =>
    have hplain := h.plain hnode (by intro hrole; cases hrole) h.armLength
    refine .pure { hplain with stack := ?_ }
    intro o ho
    rcases mem_cons.mp ho with rfl | ho
    · have hle := toNat_asU32_le i
      omega
    · exact Nat.lt_succ_of_lt (h.stack o ho)
  | ccall targetIdentity args targetName | cdeterminate =>
    exact .pure (h.plain hnode (by intro hrole; cases hrole) h.armLength)
  | cif cond then_ else_ =>
    refine (gives_nameArm h.armLength).bind fun arm harm => ?_
    refine (gives_nameArm harm).bind fun arm' harm' => ?_
    refine (gives_armsInPlace h).bind fun placed _ => ?_
    cases placed with
    | true => exact .pure (h.plain hnode (by intro hrole; cases hrole) harm')
    | false => exact .throw
  | cend value =>
    cases hstack : s.stack with
    | nil => exact .throw
    | cons open_ stack =>
      have hopen : open_.toNat < i := h.stack open_ (by rw [hstack]; exact mem_cons_self)
      have hrest : ∀ o ∈ stack, o.toNat < i :=
        fun o ho => h.stack o (by rw [hstack]; exact mem_cons_of_mem _ ho)
      have hle := toNat_asU32_le i
      have hlen := h.partnerLength
      refine (gives_writeAt (by omega) _).bind ?_
      rintro partner rfl
      refine (gives_writeAt (by rw [length_set]; omega) _).bind ?_
      rintro partner rfl
      refine (gives_writeAt (by rw [length_set, h.homeLength]; exact hi) _).bind ?_
      rintro home rfl
      refine .pure ?_
      constructor
      · rw [length_set, length_set]
        exact h.homeLength
      · rw [length_set, length_set]
        exact hlen
      · exact h.armLength
      · exact fun o ho => Nat.lt_succ_of_lt (hrest o ho)
      · intro j o hj
        rw [set_set] at hj
        exact h.placed hrest j o hj
      · intro j e hj
        rcases of_getElem?_set hj with ⟨-, heq⟩ | hj
        · injection heq with heq
          rw [heq]
          omega
        · rcases of_getElem?_set hj with ⟨-, heq⟩ | hj
          · injection heq with heq
            rw [heq]
            omega
          · exact h.partner j e hj
      · intro j value' hj hend
        by_cases hji : j = i
        · subst hji
          exact ⟨open_, getElem?_set_self (by rw [length_set]; omega)⟩
        · rw [getElem?_set_ne (Ne.symm hji)]
          by_cases hjo : j = open_.toNat
          · subst hjo
            exact ⟨asU32 i, getElem?_set_self (by omega)⟩
          · rw [getElem?_set_ne (Ne.symm hjo)]
            exact h.closed j value' (by omega) hend

theorem gives_scan {nodes : List Node} (h : Scan.Fits b i s) (hnodes : b.nodes.drop i = nodes) :
    Gives (scan b i nodes s) (Scan.Fits b (i + nodes.length)) := by
  induction nodes generalizing i s with
  | nil => exact .pure h
  | cons node rest ih =>
    have hnode : b.nodes[i]? = some node := by
      rw [← head?_drop, hnodes]
      rfl
    have hrest : b.nodes.drop (i + 1) = rest := by
      rw [← tail_drop, hnodes]
      rfl
    refine (gives_scanStep h hnode).bind fun s' hs' => ?_
    have hlen : i + (node :: rest).length = i + 1 + rest.length := by
      rw [length_cons]
      omega
    rw [hlen]
    exact ih hs' hrest

end

theorem Scan.Fits.initial (b : CoreBundle) : Scan.Fits b 0 ⟨replicate b.nodes.length none,
    replicate b.nodes.length none, replicate b.nodes.length none, []⟩ where
  homeLength := length_replicate
  partnerLength := length_replicate
  armLength := length_replicate
  stack := by
    intro o ho
    cases ho
  home := by
    intro j o hj
    have hmem := eq_of_mem_replicate (mem_of_getElem? hj)
    cases hmem
  partner := by
    intro j e hj
    have hmem := eq_of_mem_replicate (mem_of_getElem? hj)
    cases hmem
  closed := by
    intro j value hj
    exact absurd hj (Nat.not_lt_zero j)

end

/-! ### The reference pass -/

variable {b : CoreBundle} {s : Scan} {opened : List Bool} {u : ℕ} {node : Node} {r : NodeRef}

/-- The tables of the structure pass. -/
def Scan.blocks (s : Scan) : Blocks := ⟨s.home, s.partner, s.arm⟩

theorem gives_armOfBlock (h : Scan.Fits b b.nodes.length s) {o : UInt32}
    (ho : o.toNat < b.nodes.length) : Gives (s.blocks.armOfBlock o) fun _ => True := by
  refine (gives_readAt (by rw [Scan.blocks, h.partnerLength]; exact ho)).bind fun end_ hend => ?_
  cases end_ with
  | none => exact .pure trivial
  | some e =>
    have he : e.toNat < s.arm.length := h.armLength ▸ h.partner o.toNat e hend
    exact (gives_readAt he).mono fun _ _ => trivial

/-- The climb ends: a block is opened before what it encloses. -/
theorem gives_climb (h : Scan.Fits b b.nodes.length s) (hopened : opened.length = b.nodes.length)
    {fuel : ℕ} {o : UInt32} (ho : o.toNat < b.nodes.length) (hfuel : o.toNat < fuel)
    (outermost : UInt32) (inArm : Option (UInt32 × Arm)) :
    Gives (climb s.blocks opened fuel (some o) outermost inArm) fun _ => True := by
  induction fuel generalizing o outermost inArm with
  | zero => omega
  | succ fuel ih =>
    unfold climb
    refine (gives_readAt (by omega)).bind fun isOpen _ => ?_
    cases isOpen with
    | true => exact .pure trivial
    | false =>
      refine (gives_armOfBlock h ho).bind fun arm _ => ?_
      refine (gives_readAt (by rw [Scan.blocks, h.homeLength]; exact ho)).bind fun home hhome => ?_
      cases home with
      | none => cases fuel <;> exact .pure trivial
      | some o' =>
        have hlt := h.home o.toNat o' hhome
        exact ih (by omega) (by omega) _ _

theorem gives_check (h : Scan.Fits b b.nodes.length s) (hopened : opened.length = b.nodes.length)
    (who : String) (hr : ∀ j, r = .node j → j.toNat < b.nodes.length) :
    Gives (check b s.blocks opened who r) fun _ => True := by
  cases r with
  | pool p => exact .pure trivial
  | node j =>
    have hj := hr j rfl
    have hopen : Gives (checkOpen b s.blocks opened who j) fun _ => True := by
      refine (gives_readAt (by rw [Scan.blocks, h.homeLength]; exact hj)).bind fun home hhome => ?_
      cases home with
      | none => exact .pure trivial
      | some o =>
        have hlt := h.home j.toNat o hhome
        refine (gives_readAt (by omega)).bind fun isOpen _ => ?_
        cases isOpen with
        | true => exact .pure trivial
        | false =>
          refine (gives_climb h hopened (by omega) (by omega) o none).bind fun found _ => ?_
          obtain ⟨outermost, inArm⟩ := found
          cases inArm with
          | none => exact .throw
          | some arm => exact .throw
    refine (gives_readAt hj).bind fun node _ => ?_
    cases node with
    | cblock => exact .throw
    | cend value =>
      have harm : j.toNat < s.blocks.arm.length := h.armLength ▸ hj
      refine (gives_readAt harm).bind fun arm _ => ?_
      cases arm with
      | none => exact hopen
      | some owner => exact .throw
    | ccall targetIdentity args targetName | cif cond then_ else_ | cdeterminate => exact hopen

theorem gives_checkAll (h : Scan.Fits b b.nodes.length s) (hopened : opened.length = b.nodes.length)
    (who : String) {refs : List NodeRef}
    (hr : ∀ r ∈ refs, ∀ j, r = .node j → j.toNat < b.nodes.length) :
    Gives (checkAll b s.blocks opened who refs) fun _ => True := by
  induction refs with
  | nil => exact .pure trivial
  | cons r rest ih =>
    refine (gives_check h hopened who (hr r mem_cons_self)).bind fun _ _ => ?_
    exact ih fun r' hr' => hr r' (mem_cons_of_mem _ hr')

theorem gives_referenceStep (h : Scan.Fits b b.nodes.length s)
    (hopened : opened.length = b.nodes.length) (hnode : b.nodes[u]? = some node)
    (hr : ∀ r ∈ node.reads, ∀ j, r = .node j → j.toNat < b.nodes.length) :
    Gives (referenceStep b s.blocks opened u node) fun opened' => opened'.length =
      b.nodes.length := by
  have hu : u < b.nodes.length := (List.getElem?_eq_some_iff.mp hnode).1
  cases node with
  | cblock =>
    refine (gives_writeAt (by omega) true).mono fun opened' h' => ?_
    rw [h', length_set, hopened]
  | cend value =>
    refine (gives_check h hopened _ (hr value mem_cons_self)).bind fun _ _ => ?_
    obtain ⟨o, ho⟩ := h.closed u value hu hnode
    have hlt := h.partner u o ho
    have hread : readAt s.blocks.partner u = .ok (some o) := readAt_of_getElem? ho
    rw [hread]
    refine (gives_writeAt (by omega) false).mono fun opened' h' => ?_
    rw [h', length_set, hopened]
  | ccall targetIdentity args targetName =>
    exact (gives_checkAll h hopened _ hr).bind fun _ _ => .pure hopened
  | cif cond then_ else_ =>
    exact (gives_check h hopened _ (hr cond mem_cons_self)).bind fun _ _ => .pure hopened
  | cdeterminate => exact .pure hopened

theorem gives_references (h : Scan.Fits b b.nodes.length s)
    (hopened : opened.length = b.nodes.length) {nodes : List Node} (hnodes : b.nodes.drop u = nodes)
    (hr : ∀ node ∈ b.nodes, ∀ r ∈ node.reads, ∀ j, r = .node j → j.toNat < b.nodes.length) :
    Gives (references b s.blocks u nodes opened) fun opened' => opened'.length =
      b.nodes.length := by
  induction nodes generalizing u opened with
  | nil => exact .pure hopened
  | cons node rest ih =>
    have hnode : b.nodes[u]? = some node := by
      rw [← head?_drop, hnodes]
      rfl
    have hrest : b.nodes.drop (u + 1) = rest := by
      rw [← tail_drop, hnodes]
      rfl
    refine (gives_referenceStep h hopened hnode (hr node (mem_of_getElem? hnode))).bind fun opened'
      h' => ?_
    exact ih h' hrest

/-- A bundle in topological order is accepted or refused. -/
theorem verifyBlocks_answers [Sha256] (hr : b.InRange) : ¬ Crashes (verifyBlocks b) := by
  have hreads :
      ∀ node ∈ b.nodes, ∀ r ∈ node.reads, ∀ j, r = .node j → j.toNat < b.nodes.length := by
    rintro node hmem r hread j rfl
    obtain ⟨u, hu⟩ := getElem?_of_mem hmem
    have hlt := hr.node_lt hu (mem_append_left _ hread)
    have hlen := (List.getElem?_eq_some_iff.mp hu).1
    omega
  have hgives : Gives (verifyBlocks b) fun _ => True := by
    unfold verifyBlocks
    refine (gives_scan (Scan.Fits.initial b) drop_zero).bind fun s hs => ?_
    rw [zero_add] at hs
    cases s.stack.getLast? with
    | some open_ => exact .throw
    | none =>
      refine (gives_references hs length_replicate drop_zero hreads).bind fun opened hopened => ?_
      refine (gives_check hs hopened _ fun j hj => hr.result_lt hj).bind fun _ _ => ?_
      exact .pure trivial
  exact hgives.answers

end AxisBridge
