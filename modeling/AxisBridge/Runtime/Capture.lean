import AxisBridge.Lib.Binding
import AxisBridge.Runtime.Substitution
import Mathlib.Data.Finset.Sort
import Mathlib.Data.String.Basic

/-! The free variables of Core IR terms, and when substitution and renaming capture one. -/
namespace AxisBridge.IrEval
open List Binding.Tree
open Finset (notMem_empty mem_union mem_erase ext)

section
variable (tags : TagTable)

mutual

def freeVarsInner : Value → Finset String → Finset String
  | .ctor tag fields, bound =>
    match tags.kind tag, fields with
    | .var, [.str n] => if n ∈ bound then ∅ else {n}
    | .lam, [.str param, body] => freeVarsInner body (insert param bound)
    | .letIn, [.str boundName, val, body] =>
      freeVarsInner val bound ∪ freeVarsInner body (insert boundName bound)
    | .app, [func, arg] => freeVarsInner func bound ∪ freeVarsInner arg bound
    | .ite, [cond, then_, els] =>
      freeVarsInner cond bound ∪ freeVarsInner then_ bound ∪ freeVarsInner els bound
    | .call, [_, .list args] => freeVarsAll args bound
    | _, _ => ∅
  | _, _ => ∅

def freeVarsAll : List Value → Finset String → Finset String
  | [], _ => ∅
  | a :: args, bound => freeVarsInner a bound ∪ freeVarsAll args bound

end

/-- Names in order. Code points are in the order of their UTF-8 bytes. -/
def sortedNames (names : Finset String) : Value := .list (names.sort.map .str)

def irFreeVars (v : Value) : Value := sortedNames (freeVarsInner tags v ∅)

def irSubst (name : String) (replacement target : Value) : Value :=
  substValue tags name replacement target

def irRename (debug : Value → String) (oldName newName : String) : Value → Except String Value
  | .ctor tag fields =>
    match tags.kind tag, fields with
    | .lam, [_, body] => .ok (makeCtor tags "Lam"
        [.str newName, substValue tags oldName (makeCtor tags "Var" [.str newName]) body])
    | _, fields => .error ("ir_rename: expected Ctor(Lam), got " ++ debug (.ctor tag fields))
  | other => .error ("ir_rename: expected Ctor(Lam), got " ++ debug other)

/-- Every `Lam` and `Let` of a term binds a name. -/
inductive IsTerm : Value → Prop
  | var {tag : UInt32} {n : String} (h : tags.kind tag = .var) : IsTerm (.ctor tag [.str n])
  | lam {tag : UInt32} {param : String} {body : Value} (h : tags.kind tag = .lam)
    (hbody : IsTerm body) :
    IsTerm (.ctor tag [.str param, body])
  | letIn {tag : UInt32} {bound : String} {val body : Value} (h : tags.kind tag = .letIn)
    (hval : IsTerm val)
    (hbody : IsTerm body) : IsTerm (.ctor tag [.str bound, val, body])
  | app {tag : UInt32} {func arg : Value} (h : tags.kind tag = .app) (hfunc : IsTerm func)
    (harg : IsTerm arg) : IsTerm (.ctor tag [func, arg])
  | ite {tag : UInt32} {cond then_ els : Value} (h : tags.kind tag = .ite) (hcond : IsTerm cond)
    (hthen : IsTerm then_) (hels : IsTerm els) : IsTerm (.ctor tag [cond, then_, els])
  | call {tag : UInt32} {target : Value} {args : List Value} (h : tags.kind tag = .call)
    (hargs : ∀ a ∈ args, IsTerm a) : IsTerm (.ctor tag [target, .list args])
  | leaf {v : Value} (h : isLeaf tags v = true) : IsTerm v

/-- A Core IR term. -/
structure Term where
  value : Value
  isTerm : IsTerm tags value

/-- A `Lam` with a name for its parameter. -/
structure Lam where
  tag : UInt32
  isLam : tags.kind tag = .lam
  param : String
  body : Term tags

def Lam.value (l : Lam tags) : Value := .ctor l.tag [.str l.param, l.body.value]

/-! ### Terms as trees with binders -/

/-- What a node of a term is. -/
inductive Label
  | lam
  | letIn
  | app
  | ite
  | call (target : Value)
  | done
  | leaf (v : Value)

mutual

def tree : Value → Binding.Tree String Label
  | .ctor tag fields =>
    match tags.kind tag, fields with
    | .var, [.str n] => .name n
    | .lam, [.str param, body] => .pair (.mark .lam) (.bind param (tree body))
    | .letIn, [.str bound, val, body] =>
      .pair (.mark .letIn) (.pair (tree val) (.bind bound (tree body)))
    | .app, [func, arg] => .pair (.mark .app) (.pair (tree func) (tree arg))
    | .ite, [cond, then_, els] =>
      .pair (.mark .ite) (.pair (tree cond) (.pair (tree then_) (tree els)))
    | .call, [target, .list args] => .pair (.mark (.call target)) (trees args)
    | _, fields => .mark (.leaf (.ctor tag fields))
  | v => .mark (.leaf v)

def trees : List Value → Binding.Tree String Label
  | [] => .mark .done
  | a :: args => .pair (tree a) (trees args)

end

end

section
variable {tags : TagTable} {x y n p new : String} {v r : Value} {bound names names' : Finset String}
attribute [local simp] tree trees freeVarsInner freeVarsAll

theorem tree_leaf (h : isLeaf tags v = true) : tree tags v = .mark (.leaf v) := by
  cases v with
  | ctor tag fields =>
    unfold tree
    split <;> simp_all [isLeaf]
  | _ => rfl

theorem freeVarsInner_leaf (h : isLeaf tags v = true) : freeVarsInner tags v bound = ∅ := by
  cases v with
  | ctor tag fields =>
    unfold freeVarsInner
    split <;> simp_all [isLeaf]
  | _ => rfl

/-- A `Lam` that binds no name counts as a leaf. -/
theorem unnamed_lam {tag : UInt32} {param body : Value} (h : tags.kind tag = .lam)
    (hparam : ∀ n, param ≠ .str n) :
    tree tags (.ctor tag [param, body]) = .mark (.leaf (.ctor tag [param, body])) ∧
      freeVarsInner tags (.ctor tag [param, body]) bound = ∅ := by
  constructor
  · unfold tree
    split <;> simp_all
  · unfold freeVarsInner
    split <;> simp_all

theorem unnamed_let {tag : UInt32} {name val body : Value} (h : tags.kind tag = .letIn)
    (hname : ∀ n, name ≠ .str n) :
    tree tags (.ctor tag [name, val, body]) = .mark (.leaf (.ctor tag [name, val, body])) ∧
      freeVarsInner tags (.ctor tag [name, val, body]) bound = ∅ := by
  constructor
  · unfold tree
    split <;> simp_all
  · unfold freeVarsInner
    split <;> simp_all

theorem mem_freeVarsAll {args : List Value}
    (ih : ∀ a ∈ args, ∀ bound, y ∈ freeVarsInner tags a bound ↔ (tree tags a).Free y ∧ y ∉ bound) :
    y ∈ freeVarsAll tags args bound ↔ (trees tags args).Free y ∧ y ∉ bound := by
  induction args with
  | nil =>
    rw [freeVarsAll, trees]
    exact iff_of_false (notMem_empty y) fun h => h.1
  | cons a args iha =>
    rw [freeVarsAll, trees, mem_union, ih a mem_cons_self bound,
      iha fun a' ha' => ih a' (mem_cons_of_mem _ ha')]
    exact or_and_right.symm

theorem mem_under_binder {body : Value}
    (ih : ∀ bound, y ∈ freeVarsInner tags body bound ↔ (tree tags body).Free y ∧ y ∉ bound) :
    y ∈ freeVarsInner tags body (insert n bound) ↔
      (bind n (tree tags body)).Free y ∧ y ∉ bound := by
  rw [ih, Finset.mem_insert, not_or, Free]
  constructor
  · rintro ⟨hfree, hne, hbound⟩
    exact ⟨⟨Ne.symm hne, hfree⟩, hbound⟩
  · rintro ⟨⟨hne, hfree⟩, hbound⟩
    exact ⟨hfree, Ne.symm hne, hbound⟩

/-- The names that are free and not bound outside. -/
theorem mem_freeVarsInner (v : Value) : ∀ bound,
    y ∈ freeVarsInner tags v bound ↔ (tree tags v).Free y ∧ y ∉ bound := by
  induction shape tags v with
  | @var tag n h =>
    intro bound
    simp only [freeVarsInner, tree, h, Free]
    by_cases hn : n ∈ bound
    · rw [if_pos hn]
      refine iff_of_false (notMem_empty y) ?_
      rintro ⟨rfl, hy⟩
      exact hy hn
    · rw [if_neg hn, Finset.mem_singleton]
      constructor
      · rintro rfl
        exact ⟨rfl, hn⟩
      · exact fun hy => hy.1.symm
  | @lam tag param body h _ ih =>
    intro bound
    by_cases hparam : ∃ n, param = .str n
    · obtain ⟨n, rfl⟩ := hparam
      simp only [freeVarsInner, tree, h, Free, false_or]
      exact mem_under_binder ih
    · obtain ⟨htree, hfree⟩ := @unnamed_lam tags bound tag param body h (not_exists.mp hparam)
      rw [htree, hfree]
      exact iff_of_false (notMem_empty y) fun hy => hy.1
  | @letIn tag param val body h _ _ ihv ihb =>
    intro bound
    by_cases hparam : ∃ n, param = .str n
    · obtain ⟨n, rfl⟩ := hparam
      simp only [freeVarsInner, tree, h, mem_union]
      rw [ihv, mem_under_binder ihb, Free, Free, Free, false_or]
      exact or_and_right.symm
    · obtain ⟨htree, hfree⟩ := @unnamed_let tags bound tag param val body h (not_exists.mp hparam)
      rw [htree, hfree]
      exact iff_of_false (notMem_empty y) fun hy => hy.1
  | @app tag func arg h _ _ ihf iha =>
    intro bound
    simp only [freeVarsInner, tree, h, mem_union, Free, false_or]
    rw [ihf, iha]
    exact or_and_right.symm
  | @ite tag cond then_ els h _ _ _ ihc iht ihe =>
    intro bound
    simp only [freeVarsInner, tree, h, mem_union, Free, false_or]
    rw [ihc, iht, ihe, or_assoc, or_and_right, or_and_right]
  | @call tag target args h _ ih =>
    intro bound
    simp only [freeVarsInner, tree, h, Free, false_or]
    exact mem_freeVarsAll ih
  | leaf h =>
    intro bound
    rw [freeVarsInner_leaf h, tree_leaf h]
    exact iff_of_false (notMem_empty y) fun hy => hy.1

theorem mem_freeVars : y ∈ freeVarsInner tags v ∅ ↔ (tree tags v).Free y := by
  rw [mem_freeVarsInner]
  exact and_iff_left (notMem_empty y)

theorem sortedNames_inj (h : sortedNames names = sortedNames names') : names = names' := by
  injection h with h
  have hsort := map_injective_iff.mpr (fun a b hab => by injection hab) h
  have hset : ∀ s : Finset String, s.sort.toFinset = s := fun s => Finset.sort_toFinset s (· ≤ ·)
  rw [← hset names, hsort, hset names']

/-! ### Substitution -/

theorem trees_substValues {args : List Value} (ih : ∀ a ∈ args, tree tags (substValue tags x r a) =
    .subst x (tree tags r) (tree tags a)) :
    trees tags (substValues tags x r args) = .subst x (tree tags r) (trees tags args) := by
  induction args with
  | nil => rfl
  | cons a args iha =>
    rw [substValues, trees, trees, subst, ih a mem_cons_self,
      iha fun a' ha' => ih a' (mem_cons_of_mem _ ha')]

/-- On terms, the substitution is that of the trees. -/
theorem tree_substValue (h : IsTerm tags v) :
    tree tags (substValue tags x r v) = .subst x (tree tags r) (tree tags v) := by
  induction h with
  | @var tag n h =>
    simp only [substValue, tree, h, subst]
    split
    · rfl
    · simp only [tree, h]
  | @lam tag param body h _ ih =>
    simp only [substValue, tree, h, subst, isName, decide_eq_true_eq]
    rw [makeCtor_of_kind "Lam" h (by decide)]
    split
    · simp only [tree, h]
    · simp only [tree, h, ih]
  | @letIn tag bound val body h _ _ ihv ihb =>
    simp only [substValue, tree, h, subst, isName, decide_eq_true_eq]
    rw [makeCtor_of_kind "Let" h (by decide), makeCtor_of_kind "Let" h (by decide)]
    split
    · simp only [tree, h, ihv]
    · simp only [tree, h, ihv, ihb]
  | app h _ _ ihf iha =>
    simp only [substValue, tree, h, subst]
    rw [makeCtor_of_kind "App" h (by decide)]
    simp only [tree, h, ihf, iha]
  | ite h _ _ _ ihc iht ihe =>
    simp only [substValue, tree, h, subst]
    rw [makeCtor_of_kind "If" h (by decide)]
    simp only [tree, h, ihc, iht, ihe]
  | call h _ ih =>
    simp only [substValue, tree, h, subst]
    rw [makeCtor_of_kind "Call" h (by decide)]
    simp only [tree, h, trees_substValues ih]
  | leaf h => rw [substValue_leaf h, tree_leaf h, subst]

theorem exists_free_of_trees {args : List Value} (h : (trees tags args).Free y) :
    ∃ a ∈ args, (tree tags a).Free y := by
  induction args with
  | nil => exact h.elim
  | cons a args ih =>
    rcases h with h | h
    · exact ⟨a, mem_cons_self, h⟩
    · obtain ⟨a', ha', hfree⟩ := ih h
      exact ⟨a', mem_cons_of_mem _ ha', hfree⟩

/-- Where a variable is free there is a tag of variables. -/
theorem kind_of_free (h : (tree tags v).Free y) : ∃ tag, tags.kind tag = .var := by
  induction shape tags v with
  | @var tag n hk => exact ⟨tag, hk⟩
  | @lam tag param body hk _ ih =>
    by_cases hparam : ∃ n, param = .str n
    · obtain ⟨n, rfl⟩ := hparam
      simp only [tree, hk, Free, false_or] at h
      exact ih h.2
    · rw [(@unnamed_lam tags ∅ tag param body hk (not_exists.mp hparam)).1] at h
      exact h.elim
  | @letIn tag name val body hk _ _ ihv ihb =>
    by_cases hname : ∃ n, name = .str n
    · obtain ⟨n, rfl⟩ := hname
      simp only [tree, hk, Free, false_or] at h
      rcases h with h | h
      · exact ihv h
      · exact ihb h.2
    · rw [(@unnamed_let tags ∅ tag name val body hk (not_exists.mp hname)).1] at h
      exact h.elim
  | app hk _ _ ihf iha =>
    simp only [tree, hk, Free, false_or] at h
    exact h.elim ihf iha
  | ite hk _ _ _ ihc iht ihe =>
    simp only [tree, hk, Free, false_or] at h
    rcases h with h | h | h
    · exact ihc h
    · exact iht h
    · exact ihe h
  | call hk _ ih =>
    simp only [tree, hk, Free, false_or] at h
    obtain ⟨a, ha, hfree⟩ := exists_free_of_trees h
    exact ih a ha hfree
  | leaf hl =>
    rw [tree_leaf hl] at h
    exact h.elim

/-- A new variable in the place of an old one. -/
theorem tree_newVar (h : IsTerm tags v) :
    tree tags (substValue tags p (makeCtor tags "Var" [.str new]) v) =
      .subst p (.name new) (tree tags v) := by
  rw [tree_substValue h]
  refine subst_congr fun hp => ?_
  obtain ⟨tag, hvar⟩ := kind_of_free hp
  rw [makeCtor_of_kind "Var" hvar (by decide)]
  simp only [tree, hvar]

/-! ### What is captured -/

theorem irFreeVars_irSubst_iff (t : Term tags) : irFreeVars tags (irSubst tags x r t.value) =
    sortedNames
      (if x ∈ freeVarsInner tags t.value ∅ then
        (freeVarsInner tags t.value ∅).erase x ∪ freeVarsInner tags r ∅
        else freeVarsInner tags t.value ∅) ↔
    (x ∈ freeVarsInner tags t.value ∅ → ∀ y ∈ freeVarsInner tags r ∅,
      y ≠ x ∧ y ∈ freeVarsInner tags t.value ∅ ∨ (tree tags t.value).Clear x y) := by
  have hmem : ∀ y, y ∈ freeVarsInner tags (irSubst tags x r t.value) ∅ ↔
      (subst x (tree tags r) (tree tags t.value)).Free y := by
    intro y
    rw [mem_freeVars, irSubst, tree_substValue t.isTerm]
  by_cases hx : x ∈ freeVarsInner tags t.value ∅
  · rw [if_pos hx]
    have hfree := free_subst_iff (x := x) (t := tree tags t.value) (r := tree tags r)
    constructor
    · intro h _ y hy
      have hset := sortedNames_inj h
      rw [mem_freeVars] at hy
      rw [mem_freeVars]
      refine hfree.mp (fun z => ?_) y hy
      rw [← hmem z, hset, mem_union, mem_erase, mem_freeVars, mem_freeVars]
    · intro h
      refine congrArg sortedNames (ext fun z => ?_)
      rw [hmem, mem_union, mem_erase, mem_freeVars, mem_freeVars]
      refine hfree.mpr (fun y hy => ?_) z
      have hy' := h hx y (mem_freeVars.mpr hy)
      rwa [mem_freeVars] at hy'
  · rw [if_neg hx]
    refine iff_of_true (congrArg sortedNames (ext fun z => ?_)) fun h => absurd h hx
    rw [hmem, subst_eq_self fun h => hx (mem_freeVars.mpr h), mem_freeVars]

theorem irRename_lam (debug : Value → String) (l : Lam tags) :
    irRename tags debug p new l.value = .ok (.ctor l.tag [.str new,
      substValue tags p (makeCtor tags "Var" [.str new]) l.body.value]) := by
  simp only [irRename, Lam.value, l.isLam]
  rw [makeCtor_of_kind "Lam" l.isLam (by decide)]

theorem irRename_iff (debug : Value → String) (l : Lam tags)
    (hnew : new ∉ freeVarsInner tags l.body.value ∅) :
    (∃ renamed, irRename tags debug l.param new l.value = .ok renamed ∧ Alpha (tree tags renamed)
      (tree tags l.value)) ↔ ¬ (tree tags l.body.value).Under l.param new := by
  rw [mem_freeVars] at hnew
  have halpha : Alpha (tree tags (.ctor l.tag [.str new,
      substValue tags l.param (makeCtor tags "Var" [.str new]) l.body.value])) (tree tags l.value) ↔
      ¬ (tree tags l.body.value).Under l.param new := by
    simp only [Lam.value, tree, l.isLam]
    rw [tree_newVar l.body.isTerm, alpha_marked]
    exact alpha_rename hnew
  rw [irRename_lam]
  constructor
  · rintro ⟨renamed, hrenamed, h⟩
    injection hrenamed with hrenamed
    subst hrenamed
    exact halpha.mp h
  · exact fun h => ⟨_, rfl, halpha.mpr h⟩

end

/-- Substitution leaves the free variables it should just where no free variable of the replacement
is lost: another occurrence of it stays free, or a replaced one stands under no binder of it.
Renaming a parameter gives the same term up to bound names just where no occurrence of it stands
under a binder of the new name. -/
theorem capture_iff (tags : TagTable) (debug : Value → String) :
    (∀ (t : Term tags) (x : String) (r : Value),
    irFreeVars tags (irSubst tags x r t.value) = sortedNames
        (if x ∈ freeVarsInner tags t.value ∅ then
          (freeVarsInner tags t.value ∅).erase x ∪ freeVarsInner tags r ∅
          else freeVarsInner tags t.value ∅) ↔
      (x ∈ freeVarsInner tags t.value ∅ → ∀ y ∈ freeVarsInner tags r ∅,
        y ≠ x ∧ y ∈ freeVarsInner tags t.value ∅ ∨ (tree tags t.value).Clear x y)) ∧
    ∀ (l : Lam tags) (new : String),
      (new ∉ freeVarsInner tags l.body.value ∅ →
        ∃ renamed, irRename tags debug l.param new l.value = .ok renamed ∧
        Alpha (tree tags renamed) (tree tags l.value)) ↔
      (new ∉ freeVarsInner tags l.body.value ∅ → ¬ (tree tags l.body.value).Under l.param new) := by
  refine ⟨fun t x r => irFreeVars_irSubst_iff t, fun l new => ?_⟩
  exact imp_congr_right fun hnew => irRename_iff debug l hnew

/-- The names of variables and lambdas alone. -/
def lamTags : TagTable := ⟨["Var", "Lam"], by decide, by decide⟩

/-- `fn(y) { x }`, as the body of `fn(x)`. -/
def constantly : Term lamTags :=
  ⟨makeCtor lamTags "Lam" [.str "y", makeCtor lamTags "Var" [.str "x"]],
    .lam (by decide) (.var (by decide))⟩

/-- The variable `y` for `x` comes under the binder of `y`. -/
theorem constantly_captures :
    irFreeVars lamTags (irSubst lamTags "x" (makeCtor lamTags "Var" [.str "y"]) constantly.value) ≠
      sortedNames ((freeVarsInner lamTags constantly.value ∅).erase "x" ∪ freeVarsInner lamTags
      (makeCtor lamTags "Var" [.str "y"]) ∅) ∧ "x" ∈ freeVarsInner lamTags constantly.value ∅ ∧
      "y" ∉ freeVarsInner lamTags constantly.value ∅ ∧ ∀ renamed, irRename lamTags
      (fun _ => "") "x" "y" (makeCtor lamTags "Lam" [.str "x", constantly.value]) = .ok renamed →
      ¬ Alpha (tree lamTags renamed)
      (tree lamTags (makeCtor lamTags "Lam" [.str "x", constantly.value])) := by
  have hfree : freeVarsInner lamTags constantly.value ∅ = {"x"} := by decide
  have hy : "y" ∉ freeVarsInner lamTags constantly.value ∅ := by
    rw [hfree]
    decide
  refine ⟨?_, ?_, ?_, ?_⟩
  · intro h
    have hset := sortedNames_inj h
    revert hset
    decide
  · rw [hfree]
    decide
  · exact hy
  · intro renamed h halpha
    have hunder := (irRename_iff (fun _ => "") ⟨lamTags.internTag "Lam", by decide, "x",
      constantly⟩ hy).mp ⟨renamed, h, halpha⟩
    exact hunder (.inr ⟨by decide, .inl ⟨rfl, rfl⟩⟩)

end AxisBridge.IrEval
