import AxisBridge.Lib.Reach
import Mathlib.Order.Basic

/-! Launches of a kernel: threads that take the elements of a launch in strides, in steps on one
memory. -/
namespace AxisBridge
open Function

/-- What is done with one element, a step at a time. A step that leaves no local state is the
last. -/
structure Kernel (S L : Type*) where
  start : ℕ → L
  step : S → L → S × Option L

/-- The memory and, for each thread that is not done, the element it is at with its local state. -/
structure Launch (S L : Type*) where
  mem : S
  thread : ℕ → Option (ℕ × L)

variable {S L : Type*} {K : Kernel S L} {stride total t x : ℕ} {s s' : S} {l l' : L}
  {w : Launch S L}

namespace Kernel

/-- A thread comes to an element, if the launch has it. -/
def enter (K : Kernel S L) (total x : ℕ) : Option (ℕ × L) :=
  if x < total then some (x, K.start x) else none

def launch (K : Kernel S L) (stride total : ℕ) (s : S) : Launch S L :=
  ⟨s, fun t => if t < stride then K.enter total t else none⟩

/-- One step of one thread; from an element that is done it goes to the one a stride further. -/
inductive Step (K : Kernel S L) (stride total : ℕ) : ℕ → Launch S L → Launch S L → Prop
  | go {w : Launch S L} {t x : ℕ} {l l' : L} {s' : S} (hat : w.thread t = some (x, l))
      (hstep : K.step w.mem l = (s', some l')) :
      Step K stride total t w ⟨s', update w.thread t (some (x, l'))⟩
  | finish {w : Launch S L} {t x : ℕ} {l : L} {s' : S} (hat : w.thread t = some (x, l))
      (hstep : K.step w.mem l = (s', none)) :
      Step K stride total t w ⟨s', update w.thread t (K.enter total (x + stride))⟩

/-- A launch that runs until all of its threads are done, in some order of their steps. -/
def Runs (K : Kernel S L) (stride total : ℕ) (s s' : S) : Prop :=
  ∃ w, Reaches (K.Step stride total) anyAction (K.launch stride total s) w ∧ w.mem = s' ∧
    ∀ t, w.thread t = none

/-- All elements of a launch, at their start. -/
def starts (K : Kernel S L) (total : ℕ) : ℕ → Option L :=
  fun x => if x < total then some (K.start x) else none

theorem starts_eq (h : K.starts total x = some l) : x < total ∧ l = K.start x := by
  unfold starts at h
  split at h
  · cases h
    exact ⟨by assumption, rfl⟩
  · cases h

theorem starts_ne_none (h : x < total) : K.starts total x ≠ none := by
  unfold starts
  rw [if_pos h]
  exact Option.some_ne_none _

/-- Where the threads of a launch are, as a local state for each element that is not done: those
that no thread has come to are at their start. -/
def elements (K : Kernel S L) (stride total : ℕ) (w : Launch S L) : ℕ → Option L := fun x =>
  if x < total then
    match w.thread (x % stride) with
    | some (z, l) => if x < z then none else if x = z then some l else some (K.start x)
    | none => none
  else none

/-- Each thread is at an element of its own stride. -/
def Strided (stride total : ℕ) (w : Launch S L) : Prop :=
  ∀ t x l, w.thread t = some (x, l) → x % stride = t ∧ x < total

theorem enter_eq (h : K.enter total x = some (t, l)) : t = x ∧ l = K.start x ∧ x < total := by
  unfold enter at h
  split at h
  · cases h
    exact ⟨rfl, rfl, by assumption⟩
  · cases h

theorem strided_launch : Strided stride total (K.launch stride total s) := by
  intro t x l h
  simp only [launch] at h
  split at h
  · next ht =>
    obtain ⟨rfl, _, hx⟩ := enter_eq h
    exact ⟨Nat.mod_eq_of_lt ht, hx⟩
  · cases h

theorem Strided.step {w' : Launch S L} (hw : Strided stride total w)
    (h : K.Step stride total t w w') : Strided stride total w' := by
  intro u y m hu
  cases h with
  | @go _ _ x l l' s' hat hstep =>
    simp only [update_apply] at hu
    split at hu
    · next he =>
      cases hu
      exact he ▸ hw t y l hat
    · exact hw u y m hu
  | @finish _ _ x l s' hat hstep =>
    simp only [update_apply] at hu
    split at hu
    · next he =>
      obtain ⟨rfl, _, hy⟩ := enter_eq hu
      rw [Nat.add_mod_right, he]
      exact ⟨(hw t x l hat).1, hy⟩
    · exact hw u y m hu

theorem elements_launch (hstride : 0 < stride) :
    K.elements stride total (K.launch stride total s) = K.starts total := by
  funext x
  unfold elements starts
  by_cases hx : x < total
  · have hle : x % stride ≤ x := Nat.mod_le x stride
    have hat : (K.launch stride total s).thread (x % stride) =
        some (x % stride, K.start (x % stride)) := by
      simp only [launch, enter, if_pos (Nat.mod_lt x hstride), if_pos (Nat.lt_of_le_of_lt hle hx)]
    rw [if_pos hx, if_pos hx, hat]
    show (if x < x % stride then none else if x = x % stride then _ else _) = _
    rw [if_neg (Nat.not_lt_of_le hle)]
    split
    · next he => rw [← he]
    · rfl
  · rw [if_neg hx, if_neg hx]

theorem elements_at (hw : Strided stride total w) (hat : w.thread t = some (x, l)) :
    K.elements stride total w x = some l := by
  obtain ⟨rfl, hx⟩ := hw t x l hat
  simp [elements, if_pos hx, hat]

/-- Two elements of one stride are at least a stride apart. -/
theorem stride_le {y : ℕ} (hmod : y % stride = x % stride) (hlt : x < y) : x + stride ≤ y := by
  have hy := Nat.div_add_mod y stride
  have hx := Nat.div_add_mod x stride
  have hdiv : x / stride < y / stride := by
    by_contra hle
    have := Nat.mul_le_mul_left stride (Nat.le_of_not_lt hle)
    omega
  have := Nat.mul_le_mul_left stride (Nat.succ_le_of_lt hdiv)
  rw [Nat.mul_succ] at this
  omega

theorem elements_go (hw : Strided stride total w) (hat : w.thread t = some (x, l)) :
    K.elements stride total ⟨s', update w.thread t (some (x, l'))⟩ =
      update (K.elements stride total w) x (some l') := by
  obtain ⟨rfl, hx⟩ := hw t x l hat
  funext y
  by_cases he : y = x
  · subst he
    simp [elements, if_pos hx]
  · rw [update_of_ne he]
    by_cases hmod : y % stride = x % stride
    · simp [elements, hmod, hat, if_neg he]
    · simp only [elements, update_of_ne hmod]

theorem elements_finish (hstride : 0 < stride) (hw : Strided stride total w)
    (hat : w.thread t = some (x, l)) :
    K.elements stride total ⟨s', update w.thread t (K.enter total (x + stride))⟩ =
      update (K.elements stride total w) x none := by
  obtain ⟨rfl, hx⟩ := hw t x l hat
  funext y
  by_cases hmod : y % stride = x % stride
  · by_cases hy : y < total
    · rcases Nat.lt_trichotomy y x with hlt | rfl | hlt
      · rw [update_of_ne (Nat.ne_of_lt hlt)]
        simp only [elements, if_pos hy, hmod, hat, update_self, if_pos hlt, enter]
        split
        · next hnext =>
          split at hnext
          · cases hnext
            rw [if_pos (Nat.lt_add_right stride hlt)]
          · cases hnext
        · rfl
      · rw [update_self]
        simp only [elements, if_pos hy, update_self, enter]
        split
        · next hnext =>
          split at hnext
          · cases hnext
            rw [if_pos (Nat.lt_add_of_pos_right hstride)]
          · cases hnext
        · rfl
      · have hle := stride_le hmod hlt
        rw [update_of_ne (Nat.ne_of_gt hlt)]
        simp only [elements, if_pos hy, hmod, hat, update_self, enter,
          if_pos (Nat.lt_of_le_of_lt hle hy), if_neg (Nat.not_lt_of_gt hlt),
          if_neg (Nat.ne_of_gt hlt), if_neg (Nat.not_lt_of_le hle)]
        split
        · next he => rw [he]
        · rfl
    · have hne : y ≠ x := fun he => hy (he ▸ hx)
      rw [update_of_ne hne]
      simp only [elements, if_neg hy]
  · have hne : y ≠ x := fun he => hmod (he ▸ rfl)
    rw [update_of_ne hne]
    simp only [elements, update_of_ne hmod]

/-- What a step with any element keeps, from all elements at their start, holds when the launch is
done. -/
theorem Runs.rule {I : S → (ℕ → Option L) → Prop} (h : K.Runs stride total s s')
    (hstride : 0 < stride) (hstart : I s (K.starts total))
    (hstep : ∀ {s here x l}, I s here → here x = some l →
      I (K.step s l).1 (update here x (K.step s l).2)) : I s' fun _ => none := by
  obtain ⟨w, hrun, rfl, hdone⟩ := h
  have hend : Strided stride total w ∧ I w.mem (K.elements stride total w) := by
    refine hrun.invariant
      (I := fun w => Strided stride total w ∧ I w.mem (K.elements stride total w))
      (fun {w t w'} hw _ hs => ⟨hw.1.step hs, ?_⟩) ⟨strided_launch, ?_⟩
    · have hI := hw.2
      cases hs with
      | @go _ _ x l l' s' hat hs =>
        have := hstep hI (elements_at hw.1 hat)
        rw [hs] at this
        rw [elements_go hw.1 hat]
        exact this
      | @finish _ _ x l s' hat hs =>
        have := hstep hI (elements_at hw.1 hat)
        rw [hs] at this
        rw [elements_finish hstride hw.1 hat]
        exact this
    · rw [elements_launch hstride]
      exact hstart
  have hnone : K.elements stride total w = fun _ => none := by
    funext x
    simp only [elements, hdone]
    split <;> rfl
  rw [← hnone]
  exact hend.2

/-- What is left of an element, done by its thread while the others stand still. -/
inductive Alone (K : Kernel S L) : S → L → S → Prop
  | last {s s' : S} {l : L} (hstep : K.step s l = (s', none)) : Alone K s l s'
  | next {s s₁ s' : S} {l l' : L} (hstep : K.step s l = (s₁, some l')) (rest : Alone K s₁ l' s') :
      Alone K s l s'

/-- The thread that is at an element ends it alone. -/
theorem Alone.reaches (h : K.Alone s l s') (hmem : w.mem = s) (hat : w.thread t = some (x, l)) :
    Reaches (K.Step stride total) anyAction w
      ⟨s', update w.thread t (K.enter total (x + stride))⟩ := by
  induction h generalizing w with
  | last hstep =>
    subst hmem
    exact .of_step trivial (.finish hat hstep)
  | @next s s₁ s' l l' hstep rest ih =>
    subst hmem
    have hgo : K.Step stride total t w ⟨s₁, update w.thread t (some (x, l'))⟩ :=
      .go hat hstep
    have hrest := ih (w := ⟨s₁, update w.thread t (some (x, l'))⟩) rfl (update_self ..)
    rw [update_idem] at hrest
    exact (Reaches.of_step trivial hgo).trans hrest

/-- A launch of one element, done alone. -/
theorem runs_one (h : K.Alone s (K.start 0) s') (hstride : 0 < stride) : K.Runs stride 1 s s' := by
  have hat : (K.launch stride 1 s).thread 0 = some (0, K.start 0) := by
    simp [launch, enter, if_pos hstride]
  have hdone : ∀ t, update (K.launch stride 1 s).thread 0 (K.enter 1 (0 + stride)) t = none := by
    intro t
    by_cases ht : t = 0
    · rw [ht, update_self, enter, if_neg (by omega)]
    · rw [update_of_ne ht]
      simp [launch, enter, if_neg ht]
  exact ⟨_, h.reaches rfl hat, rfl, hdone⟩

/-- Every thread that is not done is at the start of an element of its stride. -/
def AtStarts (K : Kernel S L) (stride total : ℕ) (w : Launch S L) : Prop :=
  ∀ t x l, w.thread t = some (x, l) → t < stride ∧ x % stride = t ∧ x < total ∧ l = K.start x

theorem atStarts_launch : K.AtStarts stride total (K.launch stride total s) := by
  intro t x l h
  obtain ⟨hmod, hx⟩ := strided_launch t x l h
  simp only [launch] at h
  split at h
  · next ht =>
    obtain ⟨rfl, hl, _⟩ := enter_eq h
    exact ⟨ht, hmod, hx, hl⟩
  · cases h

section Existence

variable {Q : S → Prop}

/-- A thread that keeps `J` and lowers a measure with each step ends alone. -/
theorem exists_alone {J : S → L → Prop} (left : L → ℕ)
    (hstep : ∀ s l, J s l →
      match K.step s l with
      | (s', none) => Q s'
      | (s', some l') => J s' l' ∧ left l' < left l)
    (hJ : J s l) : ∃ s', K.Alone s l s' ∧ Q s' := by
  induction hn : left l using Nat.strongRecOn generalizing s l with
  | _ n ih =>
    have hnext := hstep s l hJ
    cases hs : K.step s l with
    | mk s₁ r =>
      rw [hs] at hnext
      cases r with
      | none => exact ⟨s₁, .last hs, hnext⟩
      | some l₁ =>
        obtain ⟨hJ', hlt⟩ := hnext
        obtain ⟨s', hrest, hQ⟩ := ih (left l₁) (hn ▸ hlt) hJ' rfl
        exact ⟨s', .next hs hrest, hQ⟩

/-- Each element of a launch can be done alone, and that keeps `Q`. -/
def DoneAlone (K : Kernel S L) (total : ℕ) (Q : S → Prop) : Prop :=
  ∀ s x, x < total → Q s → ∃ s', K.Alone s (K.start x) s' ∧ Q s'

/-- One thread does all its elements alone. -/
theorem exists_run_thread (hQ : K.DoneAlone total Q) (hstride : 0 < stride) (hw : Q w.mem)
    (hat : w.thread t = some (x, K.start x)) (hx : x < total) :
    ∃ s', Reaches (K.Step stride total) anyAction w ⟨s', update w.thread t none⟩ ∧ Q s' := by
  induction hn : total - x using Nat.strongRecOn generalizing w x with
  | _ n ih =>
    obtain ⟨s', halone, hs'⟩ := hQ w.mem x hx hw
    have hrun : Reaches (K.Step stride total) anyAction w
        ⟨s', update w.thread t (K.enter total (x + stride))⟩ := halone.reaches rfl hat
    by_cases hnext : x + stride < total
    · rw [enter, if_pos hnext] at hrun
      obtain ⟨s'', hrest, hs''⟩ := ih (total - (x + stride)) (by omega)
        (w := ⟨s', update w.thread t (some (x + stride, K.start (x + stride)))⟩)
        hs' (update_self ..) hnext rfl
      rw [update_idem] at hrest
      exact ⟨s'', hrun.trans hrest, hs''⟩
    · rw [enter, if_neg hnext] at hrun
      exact ⟨s', hrun, hs'⟩

/-- A launch that is at the start of its elements runs to its end. -/
theorem exists_run (hQ : K.DoneAlone total Q) (hstride : 0 < stride) (hw : Q w.mem)
    (hat : K.AtStarts stride total w) :
    ∃ w', Reaches (K.Step stride total) anyAction w w' ∧ (∀ t, w'.thread t = none) ∧ Q w'.mem := by
  have hupTo : ∀ n ≤ stride, ∃ w', Reaches (K.Step stride total) anyAction w w' ∧
      (∀ t, w'.thread t = if t < n then none else w.thread t) ∧ Q w'.mem := by
    intro n
    induction n with
    | zero => exact fun _ => ⟨w, .refl w, fun t => (if_neg (Nat.not_lt_zero t)).symm, hw⟩
    | succ n ih =>
      intro hn
      obtain ⟨w', hrun, hthread, hw'⟩ := ih (Nat.le_of_succ_le hn)
      have hn' : w'.thread n = w.thread n := by rw [hthread, if_neg (Nat.lt_irrefl n)]
      cases hnext : w.thread n with
      | none =>
        refine ⟨w', hrun, fun t => ?_, hw'⟩
        rw [hthread]
        by_cases ht : t = n
        · rw [ht, hnext, ite_self, ite_self]
        · exact if_congr (by omega) rfl rfl
      | some at' =>
        obtain ⟨x, l⟩ := at'
        obtain ⟨_, _, hx, rfl⟩ := hat n x l hnext
        obtain ⟨s', hrun', hs'⟩ := exists_run_thread hQ hstride hw' (hn'.trans hnext) hx
        refine ⟨_, hrun.trans hrun', fun t => ?_, hs'⟩
        show update w'.thread n none t = _
        by_cases ht : t = n
        · rw [ht, update_self, if_pos (Nat.lt_succ_self n)]
        · rw [update_of_ne ht, hthread]
          exact if_congr (by omega) rfl rfl
  obtain ⟨w', hrun, hthread, hw'⟩ := hupTo stride (Nat.le_refl stride)
  refine ⟨w', hrun, fun t => ?_, hw'⟩
  rw [hthread]
  split
  · rfl
  · next ht =>
    cases hw : w.thread t with
    | none => rfl
    | some at' => exact absurd (hat t at'.1 at'.2 hw).1 ht

/-- A launch has a run to its end. -/
theorem exists_runs (hQ : K.DoneAlone total Q) (hstride : 0 < stride) (hs : Q s) :
    ∃ s', K.Runs stride total s s' ∧ Q s' := by
  obtain ⟨w', hrun, hnone, hw'⟩ :=
    exists_run hQ hstride (w := K.launch stride total s) hs atStarts_launch
  exact ⟨w'.mem, ⟨w', hrun, rfl, hnone⟩, hw'⟩

end Existence

end Kernel
end AxisBridge
