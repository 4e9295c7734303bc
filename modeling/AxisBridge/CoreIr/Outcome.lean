import AxisBridge.CoreIr.Bundle

/-! How a function of the source ends: with a value, with an `Err`, or with neither. -/
namespace AxisBridge
open List

/-- Neither a value nor an `Err`. -/
def Res.Crashes {α : Type} : Res α → Prop
  | .ok _ => False
  | .error (.err _) => False
  | .error _ => True

/-- It ends with an `Err` or with a value that satisfies `P`. -/
structure Res.Gives {α : Type} (x : Res α) (P : α → Prop) : Prop where
  answers : ¬ Res.Crashes x
  ok : ∀ a, x = .ok a → P a

open Res

variable {α β : Type} {x : Res α} {f : α → Res β} {P P' : α → Prop} {Q : β → Prop}

theorem Res.not_crashes_ok {a : α} : ¬ Crashes (.ok a : Res α) := not_false

theorem Res.not_crashes_err {e : String} : ¬ Crashes (.error (.err e) : Res α) := not_false

theorem Res.crashes_bind : Crashes (x >>= f) ↔ Crashes x ∨ ∃ a, x = .ok a ∧ Crashes (f a) := by
  cases x with
  | ok a =>
    constructor
    · exact fun h => .inr ⟨a, rfl, h⟩
    · rintro (h | ⟨a', ha, h⟩)
      · exact h.elim
      · injection ha with ha
        exact ha ▸ h
  | error e =>
    have hsame : Crashes (.error e : Res β) ↔ Crashes (.error e : Res α) := by
      cases e <;> exact Iff.rfl
    rw [error_bind, hsame]
    constructor
    · exact .inl
    · rintro (h | ⟨a, ha, -⟩)
      · exact h
      · cases ha

theorem Res.crashes_mapErr {g : String → String} : Crashes (mapErr g x) ↔ Crashes x := by
  cases x with
  | ok a => exact Iff.rfl
  | error e => cases e <;> exact Iff.rfl

theorem Res.err_or_ok (h : ¬ Crashes x) : (∃ e, x = .error (.err e)) ∨ ∃ a, x = .ok a := by
  cases x with
  | ok a => exact .inr ⟨a, rfl⟩
  | error e =>
    cases e with
    | err msg => exact .inl ⟨msg, rfl⟩
    | panic msg => exact absurd trivial h
    | looping => exact absurd trivial h

theorem Res.Gives.pure {a : α} (h : P a) : Gives (.ok a) P where
  answers := not_crashes_ok
  ok := by
    intro a' ha
    injection ha with ha
    exact ha ▸ h

theorem Res.Gives.throw {e : String} : Gives (.error (.err e)) P where
  answers := not_crashes_err
  ok := by
    intro a ha
    cases ha

theorem Res.Gives.bind (h : Gives x P) (hf : ∀ a, P a → Gives (f a) Q) : Gives (x >>= f) Q where
  answers := by
    rw [crashes_bind]
    rintro (hx | ⟨a, ha, hfa⟩)
    · exact h.answers hx
    · exact (hf a (h.ok a ha)).answers hfa
  ok := by
    intro b hb
    obtain ⟨a, ha, hfa⟩ := bind_eq_ok.mp hb
    exact (hf a (h.ok a ha)).ok b hfa

theorem Res.Gives.mono (h : Gives x P) (himp : ∀ a, P a → P' a) : Gives x P' :=
  ⟨h.answers, fun a ha => himp a (h.ok a ha)⟩

variable {l : List α} {g : α × ℕ → Res β} {R : α → β → Prop} {T : α → Prop} {k : ℕ}

/-- A collected loop over numbered items has the results of its steps. -/
theorem Res.mapM_zipIdx_eq_ok {bs : List β} (h : ∀ a i b, g (a, i) = .ok b ↔ R a b) :
    (l.zipIdx k).mapM g = .ok bs ↔ Forall₂ R l bs := by
  induction l generalizing k bs with
  | nil =>
    rw [zipIdx_nil, mapM_nil, List.forall₂_nil_left_iff]
    constructor
    · intro h
      injection h with h
      exact h.symm
    · rintro rfl
      rfl
  | cons a l ih =>
    rw [zipIdx_cons, mapM_cons, bind_eq_ok, List.forall₂_cons_left_iff]
    constructor
    · rintro ⟨b, hb, hrest⟩
      obtain ⟨rest, hrest, heq⟩ := bind_eq_ok.mp hrest
      injection heq with heq
      exact ⟨b, rest, (h a k b).mp hb, ih.mp hrest, heq.symm⟩
    · rintro ⟨b, rest, hb, hrest, rfl⟩
      exact ⟨b, (h a k b).mpr hb, bind_eq_ok.mpr ⟨rest, ih.mpr hrest, rfl⟩⟩

/-- It stops at the first step without a result. -/
theorem Res.crashes_mapM_zipIdx (h : ∀ a i b, g (a, i) = .ok b ↔ R a b)
    (hcrash : ∀ a ∈ l, ∀ i, Crashes (g (a, i)) ↔ T a) : Crashes ((l.zipIdx k).mapM g) ↔
      ∃ front a back bs, l = front ++ a :: back ∧ Forall₂ R front bs ∧ T a := by
  induction l generalizing k with
  | nil =>
    rw [zipIdx_nil, mapM_nil]
    refine iff_of_false not_crashes_ok ?_
    rintro ⟨front, a, back, bs, hnil, -⟩
    exact cons_ne_nil _ _ (append_eq_nil_iff.mp hnil.symm).2
  | cons a l ih =>
    have hlater := ih (k := k + 1) fun a' ha' => hcrash a' (mem_cons_of_mem _ ha')
    rw [zipIdx_cons, mapM_cons, crashes_bind]
    constructor
    · rintro (hfirst | ⟨b, hb, hrest⟩)
      · exact ⟨[], a, l, [], rfl, .nil, (hcrash a mem_cons_self k).mp hfirst⟩
      · rcases crashes_bind.mp hrest with hrest | ⟨bs, -, hdone⟩
        · obtain ⟨front, a', back, bs, rfl, hfront, ha'⟩ := hlater.mp hrest
          exact ⟨a :: front, a', back, b :: bs, rfl, .cons ((h a k b).mp hb) hfront, ha'⟩
        · exact (not_crashes_ok hdone).elim
    · rintro ⟨front, a', back, bs, heq, hfront, ha'⟩
      cases hfront with
      | nil =>
        injection heq with heq
        subst heq
        exact .inl ((hcrash a mem_cons_self k).mpr ha')
      | @cons c b front bs hb hfront =>
        injection heq with hc heq
        subst hc
        refine .inr ⟨b, (h a k b).mpr hb, crashes_bind.mpr (.inl (hlater.mpr ?_))⟩
        exact ⟨front, a', back, bs, heq, hfront, ha'⟩

end AxisBridge
