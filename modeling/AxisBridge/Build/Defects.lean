import AxisBridge.Build.Drivers
import AxisBridge.Runtime.Callbacks

/-! What the guarded calls around a defect make of it, and what the driver of the entry reports. -/
namespace AxisBridge
open List Outcome

variable {env : FaultEnv}

/-- A guarded call around a defect: what its body ended with, and what its `guard_run` made of
it. -/
structure Caught where
  effectful : Bool
  received : Outcome
  result : Outcome

def Thread.hook (t : Thread) : Thread := { t with hookInstalled := true }

/-- The run makes a guarded call of a pure and deterministic builtin that panics, inside the guarded
calls listed from the innermost outwards. -/
inductive DefectIn (env : FaultEnv) : Prog → Thread → List Caught → Prop
  | here {b args body k t p t'} (hpre : guardPre t false args = none)
    (hrun : body.run env t.hook = (.unwind p, t')) : DefectIn env (.guard b false args body k) t []
  | inside {b e args body k t cs} (hpre : guardPre t e args = none)
    (h : DefectIn env body t.hook cs) :
    DefectIn env (.guard b e args body k) t
      (cs ++ [⟨e, (body.run env t.hook).1, (guardRun env b e (body.run env t.hook)).1⟩])
  | skipped {b e args body k t v cs} (hpre : guardPre t e args = some v)
    (h : DefectIn env (k v) t cs) : DefectIn env (.guard b e args body k) t cs
  | after {b e args body k t v t' cs} (hpre : guardPre t e args = none)
    (hrun : guardRun env b e (body.run env t.hook) = (.value v, t'))
    (h : DefectIn env (k v) t' cs) :
    DefectIn env (.guard b e args body k) t cs
  | raised {message location k t cs}
    (h : DefectIn env (k (raise message location t).1) (raise message location t).2 cs) :
    DefectIn env (.raise message location k) t cs
  | stayed {code k t v cs} (hpre : guardPre t true [code] = some v) (h : DefectIn env (k v) t cs) :
    DefectIn env (.exit code k) t cs

def Outcome.isDefect : Outcome → Bool
  | .unwind p => isDefectPayload p
  | _ => false

/-- Each guarded call that received the defect passed a defect on: it made no Unknown and no Err of
it, nor did it end the process. -/
def NotAbsorbed (cs : List Caught) : Prop :=
  ∀ c ∈ cs, c.received.isDefect = true → c.result.isDefect = true

/-- Either driver reports the attempt as a defect. -/
def ReportedAsDefect (env : FaultEnv) (entry : Prog) (t : Thread) : Prop :=
  (t = .fresh → singleRoot env entry = (4, .silent)) ∧
  ∀ (budget restarts : UInt32) (attempts : ℕ → Prog) (fuel n : ℕ), attempts n = entry →
    ∃ p t', supervise env budget attempts (fuel + 1) restarts n t = some (.died p, t') ∧
      verdict (.died p) = some .defect

theorem isDefectPayload_prefix (b message : String) :
    isDefectPayload (.string s!"{DEFECT_PREFIX}{b}: {message}") = true := by
  simp only [isDefectPayload, isPrefixOf_iff_prefix]
  exact ⟨b.toList ++ ": ".toList ++ message.toList, by simp [toString]⟩

variable {t : Thread} {cs : List Caught}

/-- An unwinding stays a defect exactly through a guard of a pure and deterministic call. -/
theorem isDefect_guardRun {b : String} {e : Bool} {p : Payload} :
    (guardRun env b e (.unwind p, t)).1.isDefect = true ↔ e = false := by
  cases e with
  | false =>
    simp only [guardRun, Bool.not_false, if_true, iff_true]
    exact isDefectPayload_prefix b p.message
  | true =>
    simp only [guardRun, Bool.not_true, Bool.false_eq_true, if_false]
    split
    · exact iff_of_false Bool.false_ne_true (by decide)
    · split <;> exact iff_of_false Bool.false_ne_true (by decide)

theorem Outcome.isDefect_unwind {r : Outcome × Thread} (h : r.1.isDefect = true) :
    ∃ p t, r = (.unwind p, t) ∧ isDefectPayload p = true := by
  rcases r with ⟨o, t⟩
  cases o with
  | unwind p => exact ⟨p, t, rfl, h⟩
  | value v => cases h
  | exited status => cases h

theorem Prog.run_guard_unwind {b : String} {e : Bool} {args : List Value} {body : Prog}
    {k : Value → Prog} {t' : Thread} {p : Payload} (hpre : guardPre t e args = none)
    (h : guardRun env b e (body.run env t.hook) = (.unwind p, t')) :
    (Prog.guard b e args body k).run env t = (.unwind p, t') := by
  rw [Prog.run]
  simp only [hpre]
  rw [← Thread.hook, h]

/-- Through guards of pure and deterministic calls only, the defect ends the run. -/
theorem DefectIn.isDefect {p : Prog} (h : DefectIn env p t cs)
    (hcs : ∀ c ∈ cs, c.effectful = false) : (p.run env t).1.isDefect = true := by
  induction h with
  | @here b args body k t q t' hpre hrun =>
    have hdef : (guardRun env b false (body.run env t.hook)).1.isDefect = true := by
      rw [hrun]
      exact isDefect_guardRun.mpr rfl
    obtain ⟨q', t1, hq, hp⟩ := isDefect_unwind hdef
    rw [Prog.run_guard_unwind hpre hq]
    exact hp
  | @inside b e args body k t cs hpre h ih =>
    have he : e = false := hcs _ (mem_append_right cs (mem_singleton.mpr rfl))
    have hbody := ih fun c hc => hcs c (mem_append_left _ hc)
    obtain ⟨q, t1, hq, -⟩ := isDefect_unwind hbody
    have hdef : (guardRun env b e (body.run env t.hook)).1.isDefect = true := by
      rw [hq]
      exact isDefect_guardRun.mpr he
    obtain ⟨q', t2, hq', hp⟩ := isDefect_unwind hdef
    rw [Prog.run_guard_unwind hpre hq']
    exact hp
  | skipped hpre h ih | stayed hpre h ih =>
    simp only [Prog.run, hpre]
    exact ih hcs
  | after hpre hrun h ih =>
    simp only [Prog.run, hpre]
    rw [← Thread.hook, hrun]
    exact ih hcs
  | raised h ih => exact ih hcs

/-- A guarded call that receives a defect passes it on exactly when it is no effectful call. -/
theorem DefectIn.passes {p : Prog} (h : DefectIn env p t cs) :
    ∀ c ∈ cs, c.received.isDefect = true → (c.result.isDefect = true ↔ c.effectful = false) := by
  induction h with
  | here hpre hrun =>
    intro c hc
    cases hc
  | @inside b e args body k t cs hpre h ih =>
    intro c hc hrec
    rcases mem_append.mp hc with hc | hc
    · exact ih c hc hrec
    · rw [mem_singleton.mp hc] at hrec ⊢
      obtain ⟨q, t1, hq, -⟩ := isDefect_unwind hrec
      simp only [hq]
      exact isDefect_guardRun
  | skipped hpre h ih | after hpre hrun h ih | raised h ih | stayed hpre h ih => exact ih

/-- Where no guarded call absorbs the defect each is pure: the innermost that is not receives it. -/
theorem DefectIn.pure_of_notAbsorbed {p : Prog}
    (h : DefectIn env p t cs) (hcs : NotAbsorbed cs) : ∀ c ∈ cs, c.effectful = false := by
  induction h with
  | here hpre hrun =>
    intro c hc
    cases hc
  | @inside b e args body k t cs hpre h ih =>
    have hin := ih fun c hc => hcs c (mem_append_left _ hc)
    have hrec := h.isDefect hin
    intro c hc
    rcases mem_append.mp hc with hcin | hlast
    · exact hin c hcin
    · rw [mem_singleton.mp hlast] at hc ⊢
      exact ((DefectIn.inside (k := k) hpre h).passes _ hc hrec).mp (hcs _ hc hrec)
  | skipped hpre h ih | after hpre hrun h ih | raised h ih | stayed hpre h ih => exact ih hcs

theorem reportedAsDefect_of_isDefect {entry : Prog}
    (h : (entry.run env t).1.isDefect = true) : ReportedAsDefect env entry t := by
  obtain ⟨p, t', hrun, hp⟩ := isDefect_unwind h
  constructor
  · rintro rfl
    simp [singleRoot, hrun, hp]
  · rintro budget restarts attempts fuel n rfl
    exact ⟨p, t', by simp [supervise, hrun, hp], by simp [verdict, hp]⟩

/-- A defect under nested guarded calls is passed on by each of them and reported as a defect
exactly when none of them is a call that may have effects. -/
theorem defect_reported_iff {env : FaultEnv} {entry : Prog} {t : Thread} {cs : List Caught}
    (h : DefectIn env entry t cs) :
    NotAbsorbed cs ∧ ReportedAsDefect env entry t ↔ ∀ c ∈ cs, c.effectful = false := by
  constructor
  · exact fun hr => h.pure_of_notAbsorbed hr.1
  · intro hcs
    refine ⟨fun c hc hrec => ?_, reportedAsDefect_of_isDefect (h.isDefect hcs)⟩
    exact (h.passes c hc hrec).mpr (hcs c hc)

/-- A division by zero within two pure drivers. -/
def dividingNested : Prog :=
  .guard "filter" false [.list [.int 1]]
    (.guard "map" false [.list [.int 1]]
      (.guard "int_div" false [.int 1, .int 0]
        (.panic (.str "int_div: division by zero") "main.rs:1") .ret) .ret) .ret

theorem defect_reported_nested : ∃ cs : List Caught, cs.length = 2 ∧
    NotAbsorbed cs ∧ ReportedAsDefect ⟨false, none⟩ dividingNested .fresh := by
  refine ⟨_, rfl, (defect_reported_iff (.inside rfl (.inside rfl (.here rfl rfl)))).mpr ?_⟩
  simp

/-- A composite that divides by zero. -/
def dividing : Code :=
  .leaf ⟨"int_div", true⟩ [.int 1, .int 0]
    (.panic (.str "int_div: division by zero") "main.rs:1") .ret

/-- The composite as the callback of a `map`. -/
def dividingMap : Code :=
  .higher ⟨"map", true⟩ [.list [.int 1]] (fun _ => .composite fun _ _ => dividing)
    (Iter.map (fun _ => "") (.list [.int 1])) "main.rs:1" .ret

theorem map_absorbs_defect : ∃ cs, DefectIn ⟨false, none⟩ (dividingMap.prog .ret) .fresh cs ∧
    ¬ (NotAbsorbed cs ∧ ReportedAsDefect ⟨false, none⟩ (dividingMap.prog .ret) .fresh) := by
  refine ⟨_, .inside rfl (.here rfl rfl), fun h => ?_⟩
  have hcode : (singleRoot ⟨false, none⟩ (dividingMap.prog .ret)).1 = 3 := rfl
  rw [h.2.1 rfl] at hcode
  cases hcode

end AxisBridge
