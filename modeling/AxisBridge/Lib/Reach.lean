import Mathlib.Logic.Relation
import Mathlib.Logic.Function.Basic

/-! Runs of a system: actions in any order, each of them allowed by a guard on the state before
it. -/
namespace AxisBridge

variable {σ α : Type*} {step : α → σ → σ → Prop} {ok ok' : σ → α → Prop} {s t u : σ} {a : α}

/-- One action that `ok` allows in the state before it. -/
def Allowed (step : α → σ → σ → Prop) (ok : σ → α → Prop) (s t : σ) : Prop :=
  ∃ a, ok s a ∧ step a s t

/-- Any number of allowed actions. -/
def Reaches (step : α → σ → σ → Prop) (ok : σ → α → Prop) : σ → σ → Prop :=
  Relation.ReflTransGen (Allowed step ok)

/-- The guard that allows every action. -/
def anyAction (_ : σ) (_ : α) : Prop := True

theorem Reaches.refl (s : σ) : Reaches step ok s s := Relation.ReflTransGen.refl

theorem Reaches.next (h : Reaches step ok s t) (hok : ok t a) (hs : step a t u) :
    Reaches step ok s u :=
  h.tail ⟨a, hok, hs⟩

theorem Reaches.trans (h : Reaches step ok s t) (h' : Reaches step ok t u) : Reaches step ok s u :=
  Relation.ReflTransGen.trans h h'

theorem Reaches.of_step (hok : ok s a) (hs : step a s t) : Reaches step ok s t :=
  (Reaches.refl s).next hok hs

/-- What every allowed action keeps holds at the end of a run. -/
theorem Reaches.invariant {I : σ → Prop} (h : Reaches step ok s t)
    (hstep : ∀ {s a t}, I s → ok s a → step a s t → I t) (hs : I s) : I t := by
  induction h with
  | refl => exact hs
  | tail _ hstep' ih =>
    obtain ⟨a, hok, hs'⟩ := hstep'
    exact hstep ih hok hs'

/-- What relates the states around every allowed action relates the two ends of a run. -/
theorem Reaches.relates {I : σ → Prop} {R : σ → σ → Prop} (h : Reaches step ok s t)
    (hstep : ∀ {s a t}, I s → ok s a → step a s t → I t) (hs : I s)
    (hrefl : ∀ s, R s s) (htrans : ∀ {s t u}, R s t → R t u → R s u)
    (hrel : ∀ {s a t}, I s → ok s a → step a s t → R s t) : R s t := by
  induction h with
  | refl => exact hrefl s
  | @tail t u h hstep' ih =>
    obtain ⟨a, hok, hs'⟩ := hstep'
    exact htrans ih (hrel (Reaches.invariant h hstep hs) hok hs')

theorem Reaches.mono (h : Reaches step ok s t) (himp : ∀ {s a}, ok s a → ok' s a) :
    Reaches step ok' s t := by
  induction h with
  | refl => exact .refl s
  | tail _ hstep ih =>
    obtain ⟨a, hok, hs⟩ := hstep
    exact ih.next (himp hok) hs

end AxisBridge
