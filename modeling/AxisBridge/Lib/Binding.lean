import Mathlib.Data.List.Basic

/-! Trees whose binders bind names: the names that are free, the substitution that stops at a binder
of the same name, what it captures, and equality up to the choice of bound names. -/
namespace Binding
open List

/-- A pair of trees and a mark are the material of every other construct. -/
inductive Tree (ν ω : Type*)
  | name (n : ν)
  | mark (o : ω)
  | pair (left right : Tree ν ω)
  | bind (n : ν) (body : Tree ν ω)

namespace Tree

variable {ν ω : Type*}

/-- `x` occurs outside every binder of `x`. -/
def Free (x : ν) : Tree ν ω → Prop
  | name n => n = x
  | mark _ => False
  | pair l r => l.Free x ∨ r.Free x
  | bind n b => n ≠ x ∧ b.Free x

/-- A free occurrence of `x` stands under a binder of `y`. -/
def Under (x y : ν) : Tree ν ω → Prop
  | name _ => False
  | mark _ => False
  | pair l r => l.Under x y ∨ r.Under x y
  | bind n b => n ≠ x ∧ (n = y ∧ b.Free x ∨ b.Under x y)

/-- A free occurrence of `x` stands under no binder of `y`. -/
def Clear (x y : ν) : Tree ν ω → Prop
  | name n => n = x
  | mark _ => False
  | pair l r => l.Clear x y ∨ r.Clear x y
  | bind n b => n ≠ x ∧ n ≠ y ∧ b.Clear x y

/-- A tree without bound names: each is the number of binders between it and its own. -/
inductive Nameless (ν ω : Type*)
  | bound (i : ℕ)
  | name (n : ν)
  | mark (o : ω)
  | pair (left right : Nameless ν ω)
  | bind (body : Nameless ν ω)

variable {x y : ν} {t : Tree ν ω}

theorem Under.free (h : t.Under x y) : t.Free x := by
  induction t with
  | name n => exact h.elim
  | mark o => exact h
  | pair l r ihl ihr => exact h.imp ihl ihr
  | bind n b ih =>
    obtain ⟨hne, ⟨-, hfree⟩ | hunder⟩ := h
    · exact ⟨hne, hfree⟩
    · exact ⟨hne, ih hunder⟩

theorem not_under_self : ¬ t.Under x x := by
  induction t with
  | name n => exact not_false
  | mark o => exact not_false
  | pair l r ihl ihr => exact fun h => h.elim ihl ihr
  | bind n b ih =>
    rintro ⟨hne, ⟨heq, -⟩ | hunder⟩
    · exact hne heq
    · exact ih hunder

variable [DecidableEq ν]

/-- `r` for the free occurrences of `x`, with the binders on the way left as they are. -/
def subst (x : ν) (r : Tree ν ω) : Tree ν ω → Tree ν ω
  | name n => if n = x then r else name n
  | mark o => mark o
  | pair l r' => pair (subst x r l) (subst x r r')
  | bind n b => if n = x then bind n b else bind n (subst x r b)

def place (env : List ν) (n : ν) : Nameless ν ω := if n ∈ env then .bound (env.idxOf n) else .name n

def nameless : List ν → Tree ν ω → Nameless ν ω
  | env, name n => place env n
  | _, mark o => .mark o
  | env, pair l r => .pair (nameless env l) (nameless env r)
  | env, bind n b => .bind (nameless (n :: env) b)

/-- Equal up to the names that are bound. -/
def Alpha (t u : Tree ν ω) : Prop := nameless [] t = nameless [] u

variable {r u : Tree ν ω} {env env' pre post : List ν} {n p new : ν}

theorem subst_eq_self (h : ¬ t.Free x) : subst x r t = t := by
  induction t with
  | name n => exact if_neg h
  | mark o => rfl
  | pair l r' ihl ihr =>
    obtain ⟨hl, hr⟩ := not_or.mp h
    exact congrArg₂ pair (ihl hl) (ihr hr)
  | bind n b ih =>
    by_cases hn : n = x
    · exact if_pos hn
    · refine (if_neg hn).trans ?_
      rw [ih fun hb => h ⟨hn, hb⟩]

/-- Only a name that is free brings the replacement in. -/
theorem subst_congr {r' : Tree ν ω} (h : t.Free x → r = r') : subst x r t = subst x r' t := by
  by_cases hx : t.Free x
  · rw [h hx]
  · rw [subst_eq_self hx, subst_eq_self hx]

/-- What a substitution leaves free: the names there were, but `x`, and those of `r` that some
occurrence of `x` does not put under a binder. -/
theorem free_subst : (subst x r t).Free y ↔ y ≠ x ∧ t.Free y ∨ r.Free y ∧ t.Clear x y := by
  induction t with
  | name n =>
    by_cases hn : n = x
    · subst hn
      rw [subst, if_pos rfl]
      constructor
      · exact fun h => .inr ⟨h, rfl⟩
      · rintro (⟨hne, heq⟩ | ⟨h, -⟩)
        · exact absurd heq.symm hne
        · exact h
    · rw [subst, if_neg hn]
      constructor
      · rintro rfl
        exact .inl ⟨hn, rfl⟩
      · rintro (⟨-, heq⟩ | ⟨-, heq⟩)
        · exact heq
        · exact absurd heq hn
  | mark o =>
    constructor
    · exact False.elim
    · rintro (⟨-, h⟩ | ⟨-, h⟩)
      · exact h
      · exact h
  | pair l r' ihl ihr =>
    rw [subst, Free, ihl, ihr, Free, Clear, or_or_or_comm, ← and_or_left, ← and_or_left]
  | bind n b ih =>
    by_cases hn : n = x
    · subst hn
      rw [subst, if_pos rfl, Free, Clear]
      constructor
      · exact fun h => .inl ⟨Ne.symm h.1, h⟩
      · rintro (⟨-, h⟩ | ⟨-, hne, -⟩)
        · exact h
        · exact absurd rfl hne
    · rw [subst, if_neg hn, Free, ih, Free, Clear, and_iff_right hn, and_or_left]
      exact or_congr and_left_comm and_left_comm

/-- The names left free are the ones a substitution should leave just where none of `r` is bound
everywhere. -/
theorem free_subst_iff : (∀ y, (subst x r t).Free y ↔ y ≠ x ∧ t.Free y ∨ r.Free y) ↔
    ∀ y, r.Free y → y ≠ x ∧ t.Free y ∨ t.Clear x y := by
  constructor
  · intro h y hy
    rcases free_subst.mp ((h y).mpr (.inr hy)) with hold | ⟨-, hclear⟩
    · exact .inl hold
    · exact .inr hclear
  · intro h y
    rw [free_subst]
    constructor
    · exact fun hfree => hfree.imp_right And.left
    · rintro (hold | hy)
      · exact .inl hold
      · exact (h y hy).imp_right fun hclear => ⟨hy, hclear⟩

/-! ### Bound names -/

theorem place_cons_self : place (ω := ω) (n :: env) n = .bound 0 := by
  rw [place, if_pos mem_cons_self, idxOf_cons_self]

/-- A binder of another name moves each place alike. -/
theorem place_cons_congr (h : place (ω := ω) env x = place env' x) :
    place (ω := ω) (n :: env) x = place (n :: env') x := by
  by_cases hn : x = n
  · rw [hn, place_cons_self, place_cons_self]
  · have hidx : ∀ l : List ν, (n :: l).idxOf x = l.idxOf x + 1 :=
      fun l => idxOf_cons_ne l (Ne.symm hn)
    unfold place at h ⊢
    simp only [mem_cons, hn, false_or, hidx]
    by_cases hx : x ∈ env
    · rw [if_pos hx] at h ⊢
      by_cases hx' : x ∈ env'
      · rw [if_pos hx'] at h ⊢
        injection h with h
        rw [h]
      · rw [if_neg hx'] at h
        cases h
    · rw [if_neg hx] at h ⊢
      by_cases hx' : x ∈ env'
      · rw [if_pos hx'] at h
        cases h
      · rw [if_neg hx']

/-- Only the places of the free names matter. -/
theorem nameless_congr (h : ∀ x, t.Free x → place (ω := ω) env x = place env' x) :
    nameless env t = nameless env' t := by
  induction t generalizing env env' with
  | name n => exact h n rfl
  | mark o => rfl
  | pair l r ihl ihr =>
    exact congrArg₂ Nameless.pair (ihl fun x hx => h x (.inl hx)) (ihr fun x hx => h x (.inr hx))
  | bind n b ih =>
    refine congrArg Nameless.bind (ih fun x hx => ?_)
    by_cases hn : n = x
    · rw [hn, place_cons_self, place_cons_self]
    · exact place_cons_congr (h x ⟨hn, hx⟩)

theorem place_of_mem (h : n ∈ pre) : place (ω := ω) (pre ++ post) n = .bound (pre.idxOf n) := by
  rw [place, if_pos (mem_append_left _ h), idxOf_append_of_mem h]

theorem place_middle (h : n ∉ pre) : place (ω := ω) (pre ++ n :: post) n = .bound pre.length := by
  rw [place, if_pos (mem_append_right _ mem_cons_self), idxOf_append_of_notMem h,
    idxOf_cons_self, Nat.add_zero]

/-- Another name in the middle moves only its own place and that of the name it replaces. -/
theorem place_other (h : n ∈ pre ∨ n ≠ p ∧ n ≠ new) :
    place (ω := ω) (pre ++ new :: post) n = place (pre ++ p :: post) n := by
  by_cases hpre : n ∈ pre
  · rw [place_of_mem hpre, place_of_mem hpre]
  · obtain ⟨hp, hnew⟩ := h.resolve_left hpre
    have hidx : ∀ {a}, n ≠ a → (pre ++ a :: post).idxOf n = pre.length + (post.idxOf n + 1) := by
      intro a ha
      rw [idxOf_append_of_notMem hpre, idxOf_cons_ne post (Ne.symm ha)]
    unfold place
    rw [hidx hp, hidx hnew]
    simp [hp, hnew, hpre]

/-- `pre` is what the binders on the way have added; `p` is no longer there where they are of its
name. -/
theorem nameless_rename (hp : p ∉ pre) (hne : new ≠ p) (hnew : new ∈ pre ∨ ¬ t.Free new) :
    nameless (pre ++ new :: post) (subst p (.name new) t) = nameless (pre ++ p :: post) t ↔
      (new ∈ pre → ¬ t.Free p) ∧ (new ∉ pre → ¬ t.Under p new) := by
  induction t generalizing pre with
  | name n =>
    by_cases hn : n = p
    · subst hn
      rw [subst, if_pos rfl, nameless, nameless, place_middle hp]
      by_cases hmem : new ∈ pre
      · rw [place_of_mem hmem]
        constructor
        · intro h
          injection h with h
          exact absurd h (Nat.ne_of_lt (idxOf_lt_length_of_mem hmem))
        · exact fun h => absurd rfl (h.1 hmem)
      · rw [place_middle hmem]
        exact iff_of_true rfl ⟨fun h => absurd h hmem, fun _ => not_false⟩
    · rw [subst, if_neg hn, nameless, nameless]
      have hother : n ∈ pre ∨ n ≠ p ∧ n ≠ new := by
        rcases hnew with hmem | hfree
        · by_cases heq : n = new
          · exact .inl (heq ▸ hmem)
          · exact .inr ⟨hn, heq⟩
        · exact .inr ⟨hn, hfree⟩
      exact iff_of_true (place_other hother) ⟨fun _ h => hn h, fun _ => not_false⟩
  | mark o => exact iff_of_true rfl ⟨fun _ => not_false, fun _ => not_false⟩
  | pair l r ihl ihr =>
    have hl := ihl hp (hnew.imp_right fun h hfree => h (.inl hfree))
    have hr := ihr hp (hnew.imp_right fun h hfree => h (.inr hfree))
    rw [subst, nameless, nameless, Nameless.pair.injEq, hl, hr, Free, Under, not_or, not_or]
    by_cases hmem : new ∈ pre
    · simp [hmem, true_imp_iff, false_imp_iff]
    · simp [hmem, false_imp_iff, true_imp_iff]
  | bind n b ih =>
    by_cases hn : n = p
    · subst hn
      rw [subst, if_pos rfl, nameless, nameless]
      refine iff_of_true (congrArg Nameless.bind (nameless_congr fun x hx => ?_))
        ⟨fun _ h => h.1 rfl, fun _ h => h.1 rfl⟩
      rw [← cons_append, ← cons_append]
      refine place_other ?_
      by_cases hxn : x = n
      · exact .inl (hxn ▸ mem_cons_self)
      · by_cases hxnew : x = new
        · subst hxnew
          refine .inl (mem_cons_of_mem _ (hnew.resolve_right fun h => h ⟨Ne.symm hxn, hx⟩))
        · exact .inr ⟨hxn, hxnew⟩
    · have hp' : p ∉ n :: pre := fun h => (mem_cons.mp h).elim (fun h => hn h.symm) hp
      have hnew' : new ∈ n :: pre ∨ ¬ b.Free new := by
        rcases hnew with hmem | hfree
        · exact .inl (mem_cons_of_mem _ hmem)
        · by_cases hsame : n = new
          · exact .inl (hsame ▸ mem_cons_self)
          · exact .inr fun hb => hfree ⟨hsame, hb⟩
      have hbody := ih hp' hnew'
      rw [cons_append, cons_append] at hbody
      rw [subst, if_neg hn, nameless, nameless, Nameless.bind.injEq, hbody, Free, Under, mem_cons]
      rw [and_iff_right hn, and_iff_right hn]
      by_cases hmem : new ∈ pre
      · simp [hmem, true_imp_iff, false_imp_iff]
      · by_cases hsame : new = n
        · simp only [hsame, true_or, true_imp_iff, not_true_eq_false, false_imp_iff, and_true,
            true_and]
          rw [← hsame]
          simp only [hmem, false_imp_iff, not_false_eq_true, true_imp_iff, true_and]
          exact not_congr (or_iff_left_of_imp Under.free).symm
        · have hsame' : n ≠ new := Ne.symm hsame
          simp [hmem, hsame, hsame', false_imp_iff, true_imp_iff]

theorem alpha_marked {o : ω} : Alpha (pair (mark o) t) (pair (mark o) u) ↔ Alpha t u := by
  unfold Alpha
  rw [nameless, nameless, nameless, nameless, Nameless.pair.injEq]
  exact and_iff_right rfl

/-- Renaming what a binder binds, to a name that is not free below it, keeps the tree up to bound
names just where no occurrence comes under a binder of the new name. -/
theorem alpha_rename (hnew : ¬ t.Free new) :
    Alpha (bind new (subst p (.name new) t)) (bind p t) ↔ ¬ t.Under p new := by
  unfold Alpha
  rw [nameless, nameless, Nameless.bind.injEq]
  by_cases hne : new = p
  · subst hne
    rw [subst_eq_self hnew]
    exact iff_of_true rfl not_under_self
  · have h := @nameless_rename _ _ t _ [] [] p new (fun h => by cases h) hne (.inr hnew)
    rw [nil_append, nil_append] at h
    rw [h]
    constructor
    · exact fun hboth => hboth.2 (by simp)
    · exact fun hunder => ⟨fun hmem => (by cases hmem), fun _ => hunder⟩

end Tree

end Binding
