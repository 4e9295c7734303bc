import AxisBridge.Lib.Scope

/-! Ownership over a text: a use may move its variable, and a moved variable has no value. -/
namespace Moves
open List Function Scope

/-- How a use reads its variable, whether it moves it, and the use that only clones it. -/
structure Modes (μ ρ : Type) where
  reading : μ → ρ
  moves : μ → Bool
  clone : μ → μ
  clone_moves : ∀ m, moves (clone m) = false
  clone_reading : ∀ m, reading (clone m) = reading m

/-- What a variable holds. -/
inductive Slot (V : Type)
  | unbound
  | live (v : V)
  | moved
  deriving DecidableEq

/-- Why an evaluation ends before its value. -/
inductive Stop (ι W : Type)
  | unbound (x : ι)
  | moved (x : ι)
  | unwound (w : W)

section
variable {ι μ ν τ : Type}

/-- The token with its way of using renamed. -/
def mapUse (f : μ → ν) : Tok ι μ τ → Tok ι ν τ
  | .text t => .text t
  | .openBrace => .openBrace
  | .closeBrace => .closeBrace
  | .semi => .semi
  | .letVar x => .letVar x
  | .use how x => .use (f how) x

/-- The text uses `x`. -/
def Uses (ts : List (Tok ι μ τ)) (x : ι) : Prop := ∃ how, .use how x ∈ ts

/-- `t` moves a variable that `u` uses. -/
def Spends (moves : μ → Bool) (t u : Tok ι μ τ) : Prop :=
  ∃ how x how', t = .use how x ∧ moves how = true ∧ u = .use how' x

/-- A use that moves its variable is the last one of it in the text. -/
def MovesLast (moves : μ → Bool) (ts : List (Tok ι μ τ)) : Prop :=
  ts.Pairwise fun t u => ¬ Spends moves t u

variable {moves : μ → Bool} {ts us : List (Tok ι μ τ)} {x : ι}

theorem Uses.mono (h : Uses ts x) (hsub : ts ⊆ us) : Uses us x := by
  obtain ⟨how, hin⟩ := h
  exact ⟨how, hsub hin⟩

/-- A moving use and the rest of the text. -/
theorem MovesLast.cons_use {how : μ} (h : MovesLast moves (.use how x :: ts))
    (hmove : moves how = true) : ¬ Uses ts x := by
  rintro ⟨how', hin⟩
  exact rel_of_pairwise_cons h hin ⟨how, x, how', rfl, hmove, rfl⟩

theorem movesLast_append : MovesLast moves (ts ++ us) ↔
    MovesLast moves ts ∧ MovesLast moves us ∧ ∀ t ∈ ts, ∀ u ∈ us, ¬ Spends moves t u :=
  pairwise_append

/-- Where nothing moves the order of uses does not matter. -/
theorem movesLast_of_forall (h : ∀ how x, .use how x ∈ ts → moves how = false) :
    MovesLast moves ts := by
  refine pairwise_of_forall_mem_list fun t ht u _ => ?_
  rintro ⟨how, x, how', rfl, hmove, -⟩
  rw [h how x ht] at hmove
  cases hmove

def isUse : Tok ι μ τ → Bool
  | .use _ _ => true
  | _ => false

/-- Only the uses of a text matter. -/
theorem movesLast_filter : MovesLast moves (ts.filter isUse) ↔ MovesLast moves ts := by
  unfold MovesLast
  rw [pairwise_filter]
  refine ⟨fun h => h.imp fun {t u} htu hspend => ?_, fun h => h.imp fun {t u} htu _ _ => htu⟩
  obtain ⟨how, x, how', rfl, hmove, rfl⟩ := hspend
  exact htu rfl rfl ⟨how, x, how', rfl, hmove, rfl⟩

end

section
variable {ι W α β γ δ : Type} {R : α → β → Prop} {Q : γ → δ → Prop}

/-- Both end alike, and not on a moved variable; when they go on, `R` relates them. -/
inductive Sim (R : α → β → Prop) : Except (Stop ι W) α → Except (Stop ι W) β → Prop
  | ok {a : α} {b : β} (h : R a b) : Sim R (.ok a) (.ok b)
  | stop {e : Stop ι W} (h : ∀ x, e ≠ .moved x) : Sim R (.error e) (.error e)

theorem Sim.bind {a : Except (Stop ι W) α} {b : Except (Stop ι W) β}
    {f : α → Except (Stop ι W) γ} {g : β → Except (Stop ι W) δ} (h : Sim R a b)
    (hfg : ∀ a b, R a b → Sim Q (f a) (g b)) : Sim Q (a >>= f) (b >>= g) := by
  cases h with
  | ok h => exact hfg _ _ h
  | stop h => exact .stop h

theorem Sim.ite {c : Prop} [Decidable c] {a a' : Except (Stop ι W) α} {b b' : Except (Stop ι W) β}
    (ht : Sim R a b) (he : Sim R a' b') : Sim R (if c then a else a') (if c then b else b') := by
  by_cases hc : c
  · rwa [if_pos hc, if_pos hc]
  · rwa [if_neg hc, if_neg hc]

/-- Runs that end in equal values end alike. -/
theorem Sim.eq {a b : Except (Stop ι W) α} (h : Sim (fun a b => a = b) a b) :
    a = b ∧ ∀ x, a ≠ .error (.moved x) := by
  cases h with
  | ok h =>
    subst h
    exact ⟨rfl, by simp⟩
  | stop h =>
    refine ⟨rfl, fun x heq => ?_⟩
    cases heq
    exact h x rfl

end

variable {ι μ ρ τ V W : Type}

/-- The meaning of texts: which token is reached after what was evaluated, and the value of it all
(or none, when it unwinds), from the world on and into the next. -/
structure Meaning (ι ρ τ V W : Type) where
  runs : W → List (Tok ι ρ τ × Option V) → Tok ι ρ τ → Bool
  value : W → List (Tok ι ρ τ × Option V) → Option V × W

/-- On the variables in `live` the slots are those of a run that moves nothing. -/
structure Agree (live : ι → Prop) (σ σ' : ι → Slot V) : Prop where
  eq : ∀ x, live x → σ x = σ' x
  not_moved : ∀ x, σ' x ≠ .moved

variable {live live' : ι → Prop} {σ σ' : ι → Slot V} {x : ι}

theorem Agree.mono (h : Agree live σ σ') (hle : ∀ x, live' x → live x) : Agree live' σ σ' :=
  ⟨fun x hx => h.eq x (hle x hx), h.not_moved⟩

variable [DecidableEq ι]

/-- One use: its variable's value, and the slots after it. -/
def useVar (moves : μ → Bool) (σ : ι → Slot V) (how : μ) (x : ι) :
    Except (Stop ι W) (V × (ι → Slot V)) :=
  match σ x with
  | .unbound => .error (.unbound x)
  | .moved => .error (.moved x)
  | .live v => .ok (v, if moves how then update σ x .moved else σ)

/-- The tokens of an expression that are reached, in order, each use with its value. -/
def evalText (M : Modes μ ρ) (I : Meaning ι ρ τ V W) (w : W) :
    List (Tok ι μ τ) → List (Tok ι ρ τ × Option V) → (ι → Slot V) →
      Except (Stop ι W) (List (Tok ι ρ τ × Option V) × (ι → Slot V))
  | [], done, σ => .ok (done, σ)
  | .use how x :: ts, done, σ =>
    if I.runs w done (.use (M.reading how) x) then do
      let (v, σ) ← useVar M.moves σ how x
      evalText M I w ts (done ++ [(.use (M.reading how) x, some v)]) σ
    else evalText M I w ts done σ
  | t :: ts, done, σ =>
    if I.runs w done (mapUse M.reading t) then
      evalText M I w ts (done ++ [(mapUse M.reading t, none)]) σ
    else evalText M I w ts done σ

/-- The value of an expression, or its unwinding. -/
def evalExpr (M : Modes μ ρ) (I : Meaning ι ρ τ V W) (w : W) (ts : List (Tok ι μ τ))
    (σ : ι → Slot V) : Except (Stop ι W) (V × (ι → Slot V) × W) := do
  let (done, σ) ← evalText M I w ts [] σ
  match I.value w done with
  | (some v, w) => return (v, σ, w)
  | (none, w) => throw (.unwound w)

/-- Both slots get the same new value. -/
theorem Agree.bind (h : Agree live σ σ') (v : V) :
    Agree live (update σ x (.live v)) (update σ' x (.live v)) := by
  constructor
  · intro y hy
    by_cases hxy : y = x
    · subst hxy
      simp
    · simp [update_of_ne hxy, h.eq y hy]
  · intro y
    by_cases hxy : y = x
    · subst hxy
      simp
    · simpa [update_of_ne hxy] using h.not_moved y

/-- A use that moves and its clone read one value, when nothing uses the variable afterwards. -/
theorem Agree.use (M : Modes μ ρ) (h : Agree live σ σ') (hx : live x) (how : μ)
    (hle : ∀ y, live' y → live y) (hdead : M.moves how = true → ¬ live' x) :
    Sim (W := W) (fun a b => a.1 = b.1 ∧ Agree live' a.2 b.2) (useVar M.moves σ how x)
      (useVar M.moves σ' (M.clone how) x) := by
  have heq := h.eq x hx
  have hmono := h.mono hle
  unfold useVar
  rw [heq, M.clone_moves]
  cases hslot : σ' x with
  | unbound => exact .stop (by simp)
  | moved => exact (h.not_moved x hslot).elim
  | live v =>
    refine .ok ⟨rfl, ?_⟩
    by_cases hmove : M.moves how = true
    · simp only [hmove, if_true]
      refine ⟨fun y hy => ?_, hmono.not_moved⟩
      have hyx : y ≠ x := fun hyx => hdead hmove (hyx ▸ hy)
      rw [update_of_ne hyx]
      exact hmono.eq y hy
    · simpa [hmove] using hmono

variable {M : Modes μ ρ} {I : Meaning ι ρ τ V W} {w : W}

/-- The same tokens are reached, with the same values, whether uses move or clone. -/
theorem evalText_sim {ts rest : List (Tok ι μ τ)} {done : List (Tok ι ρ τ × Option V)}
    (hlast : MovesLast M.moves (ts ++ rest)) (h : Agree (Uses (ts ++ rest)) σ σ') :
    Sim (fun a b => a.1 = b.1 ∧ Agree (Uses rest) a.2 b.2) (evalText M I w ts done σ)
      (evalText M I w (ts.map (mapUse M.clone)) done σ') := by
  induction ts generalizing done σ σ' with
  | nil => exact .ok ⟨rfl, h⟩
  | cons t ts ih =>
    have htail : MovesLast M.moves (ts ++ rest) := (pairwise_cons.mp hlast).2
    have hle : ∀ y, Uses (ts ++ rest) y → Uses (t :: ts ++ rest) y := fun y hy =>
      hy.mono (subset_cons_self _ _)
    cases t with
    | use how x =>
      simp only [map_cons, mapUse, evalText, M.clone_reading]
      refine .ite ?_ (ih htail (h.mono hle))
      refine (h.use M ⟨how, mem_cons_self⟩ how hle hlast.cons_use).bind ?_
      rintro ⟨v, τ⟩ ⟨v', τ'⟩ ⟨rfl, hagree⟩
      exact ih htail hagree
    | _ =>
      simp only [map_cons, mapUse, evalText]
      exact .ite (ih htail (h.mono hle)) (ih htail (h.mono hle))

theorem evalExpr_sim {ts rest : List (Tok ι μ τ)} (hlast : MovesLast M.moves (ts ++ rest))
    (h : Agree (Uses (ts ++ rest)) σ σ') :
    Sim (fun a b => a.1 = b.1 ∧ Agree (Uses rest) a.2.1 b.2.1 ∧ a.2.2 = b.2.2)
      (evalExpr M I w ts σ) (evalExpr M I w (ts.map (mapUse M.clone)) σ') := by
  refine (evalText_sim hlast h).bind ?_
  rintro ⟨done, τ⟩ ⟨done', τ'⟩ ⟨hdone, hagree⟩
  cases hdone
  show Sim _ (match I.value w done with | (some v, w) => _ | (none, w) => _)
    (match I.value w done with | (some v, w) => _ | (none, w) => _)
  rcases I.value w done with ⟨_ | v, w'⟩
  · exact .stop (by simp)
  · exact .ok ⟨rfl, hagree, rfl⟩

end Moves
