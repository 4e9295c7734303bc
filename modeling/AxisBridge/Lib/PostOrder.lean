import Mathlib.Data.List.Nodup
import Mathlib.Logic.Relation

/-! Depth-first post-order over a partial graph: a node is marked before it is looked up, and listed
after what it leads to. -/
namespace PostOrder
open List Option

/-- The marked nodes, and those listed so far. -/
structure Walk (α : Type) where
  visited : List α
  ordered : List α
  deriving DecidableEq

variable {α : Type}

variable {next : α → Option (List α)}

/-- An edge between two nodes that are there. -/
def Edge (next : α → Option (List α)) (x y : α) : Prop :=
  ∃ succs, next x = some succs ∧ y ∈ succs ∧ (next y).isSome

/-- `y` is there and reached from one of `roots`. -/
def Reach (next : α → Option (List α)) (roots : List α) (y : α) : Prop :=
  ∃ x ∈ roots, (next x).isSome ∧ Relation.ReflTransGen (Edge next) x y

variable {roots succs keys all : List α} {w w' : Walk α} {key : α}

theorem Reach.root {x : α} (hx : x ∈ roots) (h : (next x).isSome) :
    Reach next roots x := ⟨x, hx, h, .refl⟩

theorem Reach.step {x y : α} (h : Reach next roots x) (hx : next x = some succs) (hy : y ∈ succs)
    (hthere : (next y).isSome) : Reach next roots y := by
  obtain ⟨r, hr, hrthere, hreach⟩ := h
  exact ⟨r, hr, hrthere, hreach.tail ⟨succs, hx, hy, hthere⟩⟩

theorem Reach.mono {roots' : List α} {y : α} (h : Reach next roots y)
    (hsub : roots ⊆ roots') : Reach next roots' y := by
  obtain ⟨r, hr, hthere, hreach⟩ := h
  exact ⟨r, hsub hr, hthere, hreach⟩

/-- What is reached from a node's edges is reached from the node. -/
theorem Reach.under {x y : α} (hx : next x = some succs)
    (h : Reach next succs y) : Reach next [x] y := by
  obtain ⟨r, hr, hthere, hreach⟩ := h
  exact ⟨x, mem_singleton_self x, by simp [hx], hreach.head ⟨succs, hx, hr, hthere⟩⟩

/-- From `w` the walk over `keys` leads to `w'`: the nodes listed on the way are those newly marked
that are there, each once, each reached from `keys`, and with its edges marked. -/
structure Extends (next : α → Option (List α)) (keys : List α) (w w' : Walk α) : Prop where
  marks : w.visited ⊆ w'.visited
  covers : keys ⊆ w'.visited
  listed : ∃ new, w'.ordered = w.ordered ++ new ∧ new.Nodup ∧
    (∀ x, x ∈ new ↔ x ∈ w'.visited ∧ x ∉ w.visited ∧ (next x).isSome) ∧
    (∀ x ∈ new, Reach next keys x) ∧
    ∀ x ∈ new, ∀ succs, next x = some succs → succs ⊆ w'.visited

theorem Extends.refl (w : Walk α) (h : keys ⊆ w.visited) : Extends next keys w w := by
  refine ⟨Subset.refl _, h, [], by simp, by simp, ?_, by simp, by simp⟩
  intro x
  simp only [not_mem_nil, false_iff]
  exact fun hx => hx.2.1 hx.1

theorem Extends.trans {keys' : List α} {w'' : Walk α} (h : Extends next keys w w')
    (h' : Extends next keys' w' w'') : Extends next (keys ++ keys') w w'' := by
  obtain ⟨new, hord, hnd, hmem, hreach, hclosed⟩ := h.listed
  obtain ⟨new', hord', hnd', hmem', hreach', hclosed'⟩ := h'.listed
  refine ⟨Subset.trans h.marks h'.marks,
    append_subset.mpr ⟨Subset.trans h.covers h'.marks, h'.covers⟩, new ++ new', ?_, ?_, ?_, ?_, ?_⟩
  · rw [hord', hord, append_assoc]
  · refine nodup_append.mpr ⟨hnd, hnd', ?_⟩
    rintro x hx y hy rfl
    exact ((hmem' x).mp hy).2.1 ((hmem x).mp hx).1
  · intro x
    rw [mem_append, hmem, hmem']
    constructor
    · rintro (⟨hv, hno, hthere⟩ | ⟨hv, hno, hthere⟩)
      · exact ⟨h'.marks hv, hno, hthere⟩
      · exact ⟨hv, fun hw => hno (h.marks hw), hthere⟩
    · rintro ⟨hv, hno, hthere⟩
      by_cases hmid : x ∈ w'.visited
      · exact .inl ⟨hmid, hno, hthere⟩
      · exact .inr ⟨hv, hmid, hthere⟩
  · intro x hx
    rcases mem_append.mp hx with hx | hx
    · exact (hreach x hx).mono (subset_append_left _ _)
    · exact (hreach' x hx).mono (subset_append_right _ _)
  · intro x hx succs hs
    rcases mem_append.mp hx with hx | hx
    · exact Subset.trans (hclosed x hx succs hs) h'.marks
    · exact hclosed' x hx succs hs

/-- A node listed after the walk over its edges, whether it was marked before that walk or after. -/
theorem Extends.snoc {w0 w1 : Walk α} {marked : List α}
    (hnext : next key = some succs) (h : Extends next succs w0 w1)
    (hnew : key ∉ w.visited) (honce : key ∈ w0.visited ∨ key ∉ w1.visited)
    (hord0 : w0.ordered = w.ordered) (hvisited0 : ∀ x, x ≠ key → (x ∈ w0.visited ↔ x ∈ w.visited))
    (hmarked : ∀ x, x ∈ marked ↔ x = key ∨ x ∈ w1.visited) :
    Extends next [key] w ⟨marked, w1.ordered ++ [key]⟩ := by
  obtain ⟨new, hord, hnd, hmem, hreach, hclosed⟩ := h.listed
  have hfresh : key ∉ new := by
    intro hin
    rcases honce with hin0 | hout
    · exact ((hmem key).mp hin).2.1 hin0
    · exact hout ((hmem key).mp hin).1
  have hsub : w1.visited ⊆ marked := fun x hx => (hmarked x).mpr (.inr hx)
  refine ⟨?_, ?_, new ++ [key], ?_, ?_, ?_, ?_, ?_⟩
  · intro x hx
    have hne : x ≠ key := by
      rintro rfl
      exact hnew hx
    exact hsub (h.marks ((hvisited0 x hne).mpr hx))
  · simp [hmarked]
  · simp [hord, hord0]
  · refine nodup_append.mpr ⟨hnd, nodup_singleton _, ?_⟩
    rintro x hx y hy rfl
    rw [mem_singleton.mp hy] at hx
    exact hfresh hx
  · intro x
    rw [mem_append, mem_singleton, hmarked]
    by_cases hx : x = key
    · subst hx
      simp [hnew, hnext]
    · simp [hx, hmem, hvisited0 x hx]
  · intro x hx
    rcases mem_append.mp hx with hx | hx
    · exact (hreach x hx).under hnext
    · rw [mem_singleton.mp hx]
      exact .root (mem_singleton_self key) (by simp [hnext])
  · intro x hx succs' hs
    rcases mem_append.mp hx with hx | hx
    · exact Subset.trans (hclosed x hx succs' hs) hsub
    · rw [mem_singleton.mp hx, hnext, some.injEq] at hs
      exact hs ▸ Subset.trans h.covers hsub

/-- A root that its own walk had marked. -/
theorem Extends.reopen (hnext : next key = some succs)
    (h : Extends next succs w w') (hmark : key ∈ w'.visited) : Extends next [key] w w' := by
  obtain ⟨new, hord, hnd, hmem, hreach, hclosed⟩ := h.listed
  exact ⟨h.marks, by simpa using hmark, new, hord, hnd, hmem,
    fun x hx => (hreach x hx).under hnext, hclosed⟩

theorem foldlM_extends {f : Walk α → α → Option (Walk α)}
    (hf : ∀ key ∈ keys, ∀ {w w'}, f w key = some w' → Extends next [key] w w')
    (h : keys.foldlM f w = some w') : Extends next keys w w' := by
  induction keys generalizing w with
  | nil =>
    cases h
    exact .refl _ (nil_subset _)
  | cons key keys ih =>
    rw [foldlM_cons] at h
    obtain ⟨w1, hw1, hrest⟩ := bind_eq_some_iff.mp h
    exact (hf key mem_cons_self hw1).trans
      (ih (fun key hkey => hf key (mem_cons_of_mem _ hkey)) hrest)

theorem foldlM_total {β : Type} {f : β → α → Option β} (hf : ∀ x b, ∃ b', f b x = some b')
    (xs : List α) (b : β) : ∃ b', xs.foldlM f b = some b' := by
  induction xs generalizing b with
  | nil => exact ⟨b, rfl⟩
  | cons x xs ih =>
    obtain ⟨b1, hb1⟩ := hf x b
    obtain ⟨b', hb'⟩ := ih b1
    exact ⟨b', by rw [foldlM_cons, hb1]; exact hb'⟩

/-- From nothing marked, the listed nodes are exactly those reached, each once. -/
theorem Extends.ordered_iff (h : Extends next keys ⟨[], []⟩ w) :
    w.ordered.Nodup ∧ ∀ x, x ∈ w.ordered ↔ Reach next keys x := by
  obtain ⟨new, hord, hnd, hmem, hreach, hclosed⟩ := h.listed
  rw [nil_append] at hord
  subst hord
  refine ⟨hnd, fun x => ⟨hreach x, ?_⟩⟩
  rintro ⟨r, hr, hthere, hpath⟩
  induction hpath with
  | refl => exact (hmem r).mpr ⟨h.covers hr, by simp, hthere⟩
  | tail hpath hedge ih =>
    obtain ⟨succs, hs, hy, hythere⟩ := hedge
    exact (hmem _).mpr ⟨hclosed _ ih succs hs hy, by simp, hythere⟩

variable [DecidableEq α]

/-- Visit one node; `next` is its edges, `none` when the node is missing. -/
def visit (next : α → Option (List α)) (rec : List α → Walk α → Option (Walk α)) (w : Walk α)
    (key : α) : Option (Walk α) :=
  if key ∈ w.visited then some w
  else
    match next key with
    | none => some { w with visited := key :: w.visited }
    | some succs =>
      (rec succs { w with visited := key :: w.visited }).map fun w =>
        { w with ordered := w.ordered ++ [key] }

/-- Visit `keys` in turn; the nesting is bounded by the fuel. -/
def walk (next : α → Option (List α)) : ℕ → List α → Walk α → Option (Walk α)
  | 0, _, _ => none
  | fuel + 1, keys, w => keys.foldlM (visit next (walk next fuel)) w

theorem visit_extends {rec : List α → Walk α → Option (Walk α)}
    (hrec : ∀ {keys w w'}, rec keys w = some w' → Extends next keys w w')
    (h : visit next rec w key = some w') : Extends next [key] w w' := by
  unfold visit at h
  split at h
  next hin =>
    cases h
    exact .refl _ (by simpa using hin)
  next hout =>
    cases hn : next key with
    | none =>
      simp only [hn, some.injEq] at h
      subst h
      refine ⟨subset_cons_self _ _, by simp, [], by simp, by simp, ?_, by simp, by simp⟩
      intro x
      simp only [not_mem_nil, mem_cons, false_iff]
      rintro ⟨rfl | hx, hno, hthere⟩
      · simp [hn] at hthere
      · exact hno hx
    | some succs =>
      simp only [hn, map_eq_some_iff] at h
      obtain ⟨w1, hw1, rfl⟩ := h
      have hmark : key ∈ w1.visited := (hrec hw1).marks mem_cons_self
      refine (hrec hw1).snoc hn hout (.inl mem_cons_self) rfl ?_ ?_
      · intro x hx
        simp [hx]
      · intro x
        by_cases hx : x = key
        · simp [hx, hmark]
        · simp [hx]

theorem walk_extends {fuel : ℕ} (h : walk next fuel keys w = some w') : Extends next keys w w' := by
  induction fuel generalizing keys w w' with
  | zero => cases h
  | succ fuel ih => exact foldlM_extends (fun _ _ {_ _} h => visit_extends ih h) h

/-- How many of `all` are not marked. -/
def unmarked (all : List α) (w : Walk α) : ℕ := all.countP fun x => x ∉ w.visited

theorem unmarked_anti (h : w.visited ⊆ w'.visited) : unmarked all w' ≤ unmarked all w := by
  apply countP_mono_left
  intro x _ hx
  simp only [decide_eq_true_eq] at hx ⊢
  exact fun hin => hx (h hin)

theorem unmarked_cons_lt (hin : key ∈ all) (hnew : key ∉ w.visited) :
    unmarked all { w with visited := key :: w.visited } < unmarked all w := by
  obtain ⟨before, after, rfl⟩ := append_of_mem hin
  have hsub : w.visited ⊆ key :: w.visited := subset_cons_self _ _
  have hmono : ∀ part, unmarked part ⟨key :: w.visited, w.ordered⟩ ≤ unmarked part w :=
    fun _ => unmarked_anti hsub
  have hbefore := hmono before
  have hafter := hmono after
  simp only [unmarked, countP_append, countP_cons, mem_cons_self,
    not_true_eq_false, decide_false, hnew, not_false_eq_true, decide_true, if_true,
    Bool.false_eq_true, if_false] at hbefore hafter ⊢
  omega

/-- Fuel for every unmarked node is enough. -/
theorem walk_total (hall : ∀ x, (next x).isSome → x ∈ all) {fuel : ℕ}
    (hfuel : unmarked all w < fuel) : ∃ w', walk next fuel keys w = some w' := by
  induction fuel generalizing keys w with
  | zero => omega
  | succ fuel ih =>
    induction keys generalizing w with
    | nil => exact ⟨w, rfl⟩
    | cons key keys ihkeys =>
      have hvisit : ∃ w1, visit next (walk next fuel) w key = some w1 := by
        unfold visit
        split
        · exact ⟨w, rfl⟩
        next hout =>
          cases hn : next key with
          | none => exact ⟨_, rfl⟩
          | some succs =>
            have hlt := unmarked_cons_lt (hall key (by simp [hn])) hout
            obtain ⟨w2, hw2⟩ : ∃ w2, walk next fuel succs ⟨key :: w.visited, w.ordered⟩ = some w2 :=
              ih (by omega)
            exact ⟨⟨w2.visited, w2.ordered ++ [key]⟩, by simp only [hw2, map_some]⟩
      obtain ⟨w1, hw1⟩ := hvisit
      have hmarks := (visit_extends (fun h => walk_extends h) hw1).marks
      obtain ⟨w', hw'⟩ := ihkeys (Nat.lt_of_le_of_lt (unmarked_anti hmarks) hfuel)
      refine ⟨w', ?_⟩
      rw [walk, foldlM_cons, hw1]
      exact hw'

end PostOrder
