import AxisBridge.Runtime.Value
import Mathlib.Data.List.Nodup

/-! Core IR terms as runtime values, and what a substitution does to one. -/
namespace AxisBridge.IrEval
open List

/-- The interned names of tags, by tag. -/
structure TagTable where
  names : List String
  nodup : names.Nodup
  length_le : names.length ≤ 2 ^ 32

namespace TagTable

def getTagName (tags : TagTable) (tag : UInt32) : String := (tags.names[tag.toNat]?).getD "Unknown"

/-- A name that is not there yet gets the next tag. -/
def internTag (tags : TagTable) (name : String) : UInt32 := UInt32.ofNat (tags.names.idxOf name)

/-- What the evaluator tells apart by name. -/
inductive Kind
  | intLit
  | boolLit
  | unitLit
  | var
  | lam
  | letIn
  | ite
  | app
  | call
  | data
  deriving DecidableEq

def Kind.of : String → Kind
  | "IntLit" => .intLit
  | "BoolLit" => .boolLit
  | "UnitLit" => .unitLit
  | "Var" => .var
  | "Lam" => .lam
  | "Let" => .letIn
  | "If" => .ite
  | "App" => .app
  | "Call" => .call
  | _ => .data

def Kind.name : Kind → String
  | .intLit => "IntLit"
  | .boolLit => "BoolLit"
  | .unitLit => "UnitLit"
  | .var => "Var"
  | .lam => "Lam"
  | .letIn => "Let"
  | .ite => "If"
  | .app => "App"
  | .call => "Call"
  | .data => "Unknown"

def kind (tags : TagTable) (tag : UInt32) : Kind := Kind.of (tags.getTagName tag)

end TagTable

section
variable (tags : TagTable)

def makeCtor (tag : String) (fields : List Value) : Value := .ctor (tags.internTag tag) fields

def isName (name : String) : Value → Bool
  | .str n => n = name
  | _ => false

mutual

def substValue (name : String) (replacement : Value) : Value → Value
  | .ctor tag fields =>
    match tags.kind tag, fields with
    | .var, [.str n] => if n = name then replacement else .ctor tag [.str n]
    | .lam, [param, body] =>
      if isName name param then .ctor tag [param, body]
      else makeCtor tags "Lam" [param, substValue name replacement body]
    | .letIn, [bound, val, body] =>
      if isName name bound then makeCtor tags "Let" [bound, substValue name replacement val, body]
      else makeCtor tags "Let"
        [bound, substValue name replacement val, substValue name replacement body]
    | .app, [func, arg] =>
      makeCtor tags "App" [substValue name replacement func, substValue name replacement arg]
    | .ite, [cond, then_, els] => makeCtor tags "If"
        [substValue name replacement cond, substValue name replacement then_,
          substValue name replacement els]
    | .call, [target, .list args] =>
      makeCtor tags "Call" [target, .list (substValues name replacement args)]
    | .call, [target, argsVal] => makeCtor tags "Call" [target, argsVal]
    -- no variable positions
    | _, fields => .ctor tag fields
  | other => other

def substValues (name : String) (replacement : Value) : List Value → List Value
  | [] => []
  | v :: vs => substValue name replacement v :: substValues name replacement vs

end

/-! ### All variables at once -/

mutual

/-- The variables that a substitution replaces. -/
def free : Value → List String
  | .ctor tag fields =>
    match tags.kind tag, fields with
    | .var, [.str n] => [n]
    | .lam, [param, body] => (free body).filter fun n => ! isName n param
    | .letIn, [bound, val, body] => free val ++ (free body).filter fun n => ! isName n bound
    | .app, [func, arg] => free func ++ free arg
    | .ite, [cond, then_, els] => free cond ++ (free then_ ++ free els)
    | .call, [_, .list args] => freeAll args
    | _, _ => []
  | _ => []

def freeAll : List Value → List String
  | [] => []
  | v :: vs => free v ++ freeAll vs

end

/-- Values for variables. -/
abbrev Fill := String → Option Value

/-- Without the variable that a binder binds. -/
def hide (binder : Value) (σ : Fill) : Fill := fun n => if isName n binder then none else σ n

mutual

/-- Each free variable replaced, the values themselves left alone. -/
def fill : Fill → Value → Value
  | σ, .ctor tag fields =>
    match tags.kind tag, fields with
    | .var, [.str n] => (σ n).getD (.ctor tag [.str n])
    | .lam, [param, body] => .ctor tag [param, fill (hide param σ) body]
    | .letIn, [bound, val, body] => .ctor tag [bound, fill σ val, fill (hide bound σ) body]
    | .app, [func, arg] => .ctor tag [fill σ func, fill σ arg]
    | .ite, [cond, then_, els] => .ctor tag [fill σ cond, fill σ then_, fill σ els]
    | .call, [target, .list args] => .ctor tag [target, .list (fillAll σ args)]
    | _, fields => .ctor tag fields
  | _, v => v

def fillAll : Fill → List Value → List Value
  | _, [] => []
  | σ, v :: vs => fill σ v :: fillAll σ vs

end

def isLeaf : Value → Bool
  | .ctor tag fields =>
    match tags.kind tag, fields with
    | .var, [.str _] => false
    | .lam, [_, _] => false
    | .letIn, [_, _, _] => false
    | .app, [_, _] => false
    | .ite, [_, _, _] => false
    | .call, [_, .list _] => false
    | _, _ => true
  | _ => true

/-- A value by its variable positions. -/
inductive Shape : Value → Prop
  | var {tag : UInt32} {n : String} (h : tags.kind tag = .var) : Shape (.ctor tag [.str n])
  | lam {tag : UInt32} {param body : Value} (h : tags.kind tag = .lam) (hbody : Shape body) :
    Shape (.ctor tag [param, body])
  | letIn {tag : UInt32} {bound val body : Value} (h : tags.kind tag = .letIn) (hval : Shape val)
    (hbody : Shape body) : Shape (.ctor tag [bound, val, body])
  | app {tag : UInt32} {func arg : Value} (h : tags.kind tag = .app) (hfunc : Shape func)
    (harg : Shape arg) : Shape (.ctor tag [func, arg])
  | ite {tag : UInt32} {cond then_ els : Value} (h : tags.kind tag = .ite) (hcond : Shape cond)
    (hthen : Shape then_) (hels : Shape els) : Shape (.ctor tag [cond, then_, els])
  | call {tag : UInt32} {target : Value} {args : List Value} (h : tags.kind tag = .call)
    (hargs : ∀ a ∈ args, Shape a) : Shape (.ctor tag [target, .list args])
  | leaf {v : Value} (h : isLeaf tags v = true) : Shape v

end

section
variable (tags : TagTable)

mutual

theorem shape : ∀ v : Value, Shape tags v
  | .ctor tag fields => by
    by_cases hleaf : isLeaf tags (.ctor tag fields) = true
    · exact .leaf hleaf
    · simp only [isLeaf] at hleaf
      split at hleaf
      · rename_i h
        exact .var h
      · rename_i param body h
        exact .lam h (shape body)
      · rename_i bound val body h
        exact .letIn h (shape val) (shape body)
      · rename_i func arg h
        exact .app h (shape func) (shape arg)
      · rename_i cond then_ els h
        exact .ite h (shape cond) (shape then_) (shape els)
      · rename_i target args h
        exact .call h (shapes args)
      · exact absurd rfl hleaf
  | .localMap id | .frozenMap id | .int n | .bool b | .str s | .unit | .tuple items | .list items
  | .dec m s | .float bits | .bytes data => .leaf rfl

theorem shapes : ∀ vs : List Value, ∀ v ∈ vs, Shape tags v
  | [], v, h => by cases h
  | a :: vs, v, h => by
    rcases mem_cons.mp h with heq | h
    · rw [heq]
      exact shape a
    · exact shapes vs v h

end

end

/-! ### Interned names -/

section
variable {tags : TagTable}

theorem TagTable.internTag_getTagName {tag : UInt32} {name : String}
    (h : tags.getTagName tag = name) (hname : name ≠ "Unknown") : tags.internTag name = tag := by
  have hget : tags.names[tag.toNat]? = some name := by
    rw [getTagName] at h
    cases hnone : tags.names[tag.toNat]? with
    | none =>
      rw [hnone] at h
      exact absurd h.symm hname
    | some found =>
      rw [hnone] at h
      exact congrArg some h
  obtain ⟨hlt, hname⟩ := List.getElem?_eq_some_iff.mp hget
  rw [internTag, ← hname, tags.nodup.idxOf_getElem]
  exact UInt32.ofNat_toNat

theorem TagTable.Kind.name_of {s : String} (h : Kind.of s ≠ .data) : (Kind.of s).name = s := by
  unfold Kind.of at h ⊢
  split <;> simp_all [Kind.name]

/-- A name that is read from a tag and told apart interns to that tag. -/
theorem makeCtor_of_kind {tag : UInt32} (name : String) (h : tags.kind tag = TagTable.Kind.of name)
    (hdata : TagTable.Kind.of name ≠ .data) (fields : List Value) :
    makeCtor tags name fields = .ctor tag fields := by
  have htag : tags.kind tag ≠ .data := by
    rw [h]
    exact hdata
  have hname : tags.getTagName tag = name := by
    rw [← TagTable.Kind.name_of htag, ← TagTable.Kind.name_of hdata]
    exact congrArg TagTable.Kind.name h
  have hknown : name ≠ "Unknown" := by
    rintro rfl
    exact hdata rfl
  rw [makeCtor, TagTable.internTag_getTagName hname hknown]

end

/-! ### Substitution as filling -/

variable {tags : TagTable}
variable {v binder : Value} {n : String} {names : List String} {σ : Fill}

theorem fill_leaf (h : isLeaf tags v = true) (σ : Fill) : fill tags σ v = v := by
  cases v with
  | ctor tag fields =>
    unfold fill
    split <;> simp_all [isLeaf]
  | _ => rfl

theorem substValue_leaf (h : isLeaf tags v = true) (name : String)
    (replacement : Value) : substValue tags name replacement v = v := by
  cases v with
  | ctor tag fields =>
    unfold substValue
    split <;> simp_all [isLeaf]
    rename_i hk
    exact makeCtor_of_kind "Call" hk (by decide) _
  | _ => rfl

theorem fillAll_eq_map (σ : Fill) (vs : List Value) : fillAll tags σ vs = vs.map (fill tags σ) := by
  induction vs with
  | nil => rfl
  | cons v vs ih => rw [fillAll, ih, map_cons]

theorem freeAll_eq_flatMap (vs : List Value) : freeAll tags vs = vs.flatMap (free tags) := by
  induction vs with
  | nil => rfl
  | cons v vs ih => rw [freeAll, ih, flatMap_cons]

theorem substValues_eq_map (name : String) (replacement : Value) (vs : List Value) :
    substValues tags name replacement vs = vs.map (substValue tags name replacement) := by
  induction vs with
  | nil => rfl
  | cons v vs ih => rw [substValues, ih, map_cons]

theorem hide_of_isName (h : isName n binder = true) (σ : Fill) : hide binder σ n = none := if_pos h

theorem hide_of_not (h : ¬ isName n binder = true) (σ : Fill) : hide binder σ n = σ n := if_neg h

theorem mem_under (hn : n ∈ names)
    (h : ¬ isName n binder = true) : n ∈ names.filter fun m => ! isName m binder := by
  apply mem_filter.mpr
  rw [Bool.not_eq_true] at h
  exact ⟨hn, by rw [h]; rfl⟩

/-- What the free variables of a body get, the binder aside. -/
theorem forall_under {P : String → Option Value → Prop} (hnone : ∀ n, P n none)
    (h : ∀ n ∈ names.filter fun m => ! isName m binder, P n (σ n)) :
    ∀ n ∈ names, P n (hide binder σ n) := by
  intro n hn
  by_cases hb : isName n binder = true
  · rw [hide_of_isName hb]
    exact hnone n
  · rw [hide_of_not hb]
    exact h n (mem_under hn hb)

/-- Filling in nothing. -/
theorem fill_eq_self (h : ∀ n ∈ free tags v, σ n = none) : fill tags σ v = v := by
  induction shape tags v generalizing σ with
  | var hk =>
    rename_i n
    have hn := h n (by simp [free, hk])
    simp [fill, hk, hn]
  | lam hk _ ih =>
    simp only [free, hk] at h
    simp only [fill, hk]
    rw [ih (forall_under (P := fun _ o => o = none) (fun _ => rfl) h)]
  | letIn hk _ _ ihv ihb =>
    simp only [free, hk, forall_mem_append] at h
    simp only [fill, hk]
    rw [ihv h.1, ihb (forall_under (P := fun _ o => o = none) (fun _ => rfl) h.2)]
  | app hk _ _ ihf iha =>
    simp only [free, hk, forall_mem_append] at h
    simp only [fill, hk]
    rw [ihf h.1, iha h.2]
  | ite hk _ _ _ ihc iht ihe =>
    simp only [free, hk, forall_mem_append] at h
    simp only [fill, hk]
    rw [ihc h.1, iht h.2.1, ihe h.2.2]
  | call hk _ ih =>
    simp only [free, hk, freeAll_eq_flatMap] at h
    simp only [fill, hk, fillAll_eq_map]
    rw [map_congr_left (g := id), map_id]
    intro a ha
    exact ih a ha fun n hn => h n (mem_flatMap.mpr ⟨a, ha, hn⟩)
  | leaf hl => exact fill_leaf hl σ

/-- One variable. -/
def only (name : String) (replacement : Value) : Fill :=
    fun n => if n = name then some replacement else none

theorem hide_only {name : String} (h : ¬ isName name binder = true)
    (replacement : Value) : hide binder (only name replacement) = only name replacement := by
  funext n
  by_cases hb : isName n binder = true
  · rw [hide_of_isName hb, only, if_neg]
    rintro rfl
    exact h hb
  · rw [hide_of_not hb]

theorem hide_only_self {name : String} (h : isName name binder = true)
    (replacement : Value) (n : String) : hide binder (only name replacement) n = none := by
  by_cases hb : isName n binder = true
  · rw [hide_of_isName hb]
  · rw [hide_of_not hb, only, if_neg]
    rintro rfl
    exact hb h

theorem substValue_eq_fill (name : String) (replacement v : Value) :
    substValue tags name replacement v = fill tags (only name replacement) v := by
  induction shape tags v with
  | var h =>
    simp only [substValue, fill, h, only]
    split <;> rfl
  | lam h _ ih =>
    rename_i param body
    simp only [substValue, fill, h]
    rw [makeCtor_of_kind "Lam" h (by decide), ih]
    split
    · rename_i hname
      rw [fill_eq_self fun n _ => hide_only_self hname replacement n]
    · rename_i hname
      rw [hide_only hname]
  | letIn h _ _ ihv ihb =>
    rename_i bound val body
    simp only [substValue, fill, h]
    rw [makeCtor_of_kind "Let" h (by decide), makeCtor_of_kind "Let" h (by decide), ihv, ihb]
    split
    · rename_i hname
      rw [fill_eq_self fun n _ => hide_only_self hname replacement n]
    · rename_i hname
      rw [hide_only hname]
  | app h _ _ ihf iha =>
    simp only [substValue, fill, h]
    rw [makeCtor_of_kind "App" h (by decide), ihf, iha]
  | ite h _ _ _ ihc iht ihe =>
    simp only [substValue, fill, h]
    rw [makeCtor_of_kind "If" h (by decide), ihc, iht, ihe]
  | call h _ ih =>
    simp only [substValue, fill, h, substValues_eq_map, fillAll_eq_map]
    rw [makeCtor_of_kind "Call" h (by decide), map_congr_left ih]
  | leaf h => rw [substValue_leaf h, fill_leaf h]

/-- One filling and then another. -/
def Fill.andThen (σ τ : Fill) : Fill := fun n => (σ n).or (τ n)

theorem hide_andThen (binder : Value) (σ τ : Fill) :
    hide binder (σ.andThen τ) = (hide binder σ).andThen (hide binder τ) := by
  funext n
  by_cases hb : isName n binder = true
  · rw [hide_of_isName hb, Fill.andThen, hide_of_isName hb, hide_of_isName hb]
    rfl
  · rw [hide_of_not hb, Fill.andThen, Fill.andThen, hide_of_not hb, hide_of_not hb]

theorem hide_eq_none {τ : Fill} (h : τ n = none) (binder : Value) : hide binder τ n = none := by
  rw [hide]
  split
  · rfl
  · exact h

/-- A filling after another, where it has nothing for the values that are there already. -/
theorem fill_fill {τ : Fill}
    (h : ∀ n ∈ free tags v, ∀ u, σ n = some u → ∀ m ∈ free tags u, τ m = none) :
    fill tags τ (fill tags σ v) = fill tags (σ.andThen τ) v := by
  have hunder : ∀ {σ τ : Fill} {names : List String} (binder : Value), (∀ n ∈
      names.filter fun n => ! isName n binder, ∀ u, σ n = some u → ∀ m ∈ free tags u, τ m = none) →
      ∀ n ∈ names, ∀ u, hide binder σ n = some u → ∀ m ∈ free tags u, hide binder τ m = none := by
    intro σ τ names binder h n hn u hu m hm
    have hσ :=
      forall_under (P := fun _ o => ∀ u, o = some u → ∀ m ∈ free tags u, τ m = none) (by simp) h
    exact hide_eq_none (hσ n hn u hu m hm) binder
  induction shape tags v generalizing σ τ with
  | var hk =>
    rename_i tag n
    have hn := h n (by simp [free, hk])
    simp only [fill, hk, Fill.andThen]
    cases hσ : σ n with
    | none => simp [fill, hk]
    | some u => exact fill_eq_self (hn u hσ)
  | lam hk _ ih =>
    simp only [free, hk] at h
    simp only [fill, hk]
    rw [ih (hunder _ h), hide_andThen]
  | letIn hk _ _ ihv ihb =>
    simp only [free, hk, forall_mem_append] at h
    simp only [fill, hk]
    rw [ihv h.1, ihb (hunder _ h.2), hide_andThen]
  | app hk _ _ ihf iha =>
    simp only [free, hk, forall_mem_append] at h
    simp only [fill, hk]
    rw [ihf h.1, iha h.2]
  | ite hk _ _ _ ihc iht ihe =>
    simp only [free, hk, forall_mem_append] at h
    simp only [fill, hk]
    rw [ihc h.1, iht h.2.1, ihe h.2.2]
  | call hk _ ih =>
    simp only [free, hk, freeAll_eq_flatMap] at h
    simp only [fill, hk, fillAll_eq_map, map_map]
    rw [map_congr_left]
    intro a ha
    exact ih a ha fun n hn => h n (mem_flatMap.mpr ⟨a, ha, hn⟩)
  | leaf hl => rw [fill_leaf hl, fill_leaf hl, fill_leaf hl]

end AxisBridge.IrEval
