import AxisBridge.Lib.Dedup
import Mathlib.Data.List.Induction
import Mathlib.Data.List.Pairwise

/-! Two sources read in turns. A reader that keeps its result takes the news of both sources at
every turn; a reader that starts afresh takes all of the first source before the second. When a
later item replaces an earlier one, and when items are kept in the order of their first appearance,
this says exactly in which histories the two differ. -/
namespace Epochs
open List Dedup

variable {α β : Type}

/-- What the first source had to offer, over all turns. -/
def lefts (es : List (List α × List α)) : List α := es.flatMap Prod.fst

/-- What the second source had to offer, over all turns. -/
def rights (es : List (List α × List α)) : List α := es.flatMap Prod.snd

/-- The items as the turns brought them. -/
def arrival (es : List (List α × List α)) : List α := es.flatMap fun e => e.1 ++ e.2

/-- The items source after source. -/
def bySource (es : List (List α × List α)) : List α := lefts es ++ rights es

variable {es pre post : List (List α × List α)} {e : List α × List α} {l m s : List α} {x y z : α}
  {p : α → Bool}

@[simp] theorem lefts_nil : lefts ([] : List (List α × List α)) = [] := rfl

@[simp] theorem rights_nil : rights ([] : List (List α × List α)) = [] := rfl

@[simp] theorem arrival_nil : arrival ([] : List (List α × List α)) = [] := rfl

@[simp] theorem lefts_cons : lefts (e :: es) = e.1 ++ lefts es := flatMap_cons

@[simp] theorem rights_cons : rights (e :: es) = e.2 ++ rights es := flatMap_cons

@[simp] theorem arrival_cons : arrival (e :: es) = e.1 ++ e.2 ++ arrival es := flatMap_cons

@[simp] theorem lefts_append : lefts (pre ++ post) = lefts pre ++ lefts post := flatMap_append

@[simp] theorem rights_append : rights (pre ++ post) = rights pre ++ rights post := flatMap_append

@[simp] theorem arrival_append : arrival (pre ++ post) = arrival pre ++ arrival post :=
  flatMap_append

theorem mem_arrival : x ∈ arrival es ↔ x ∈ bySource es := by
  simp only [arrival, bySource, lefts, rights, mem_flatMap, mem_append]
  constructor
  · rintro ⟨e, he, h | h⟩
    · exact .inl ⟨e, he, h⟩
    · exact .inr ⟨e, he, h⟩
  · rintro (⟨e, he, h⟩ | ⟨e, he, h⟩)
    · exact ⟨e, he, .inl h⟩
    · exact ⟨e, he, .inr h⟩

theorem filterMap_arrival (k : β → Option α) (es : List (List β × List β)) :
    (arrival es).filterMap k = arrival (es.map fun e => (e.1.filterMap k, e.2.filterMap k)) := by
  simp [arrival, filterMap_flatMap, flatMap_map]

/-- Folding turn by turn is folding what arrived. -/
theorem foldl_arrival {M : Type} (f g : M → β → M) (ins : M → α → M) (f' g' : β → List α)
    (hf : ∀ m b, f m b = (f' b).foldl ins m) (hg : ∀ m b, g m b = (g' b).foldl ins m)
    (es : List (List β × List β)) (m : M) :
    es.foldl (fun m e => e.2.foldl g (e.1.foldl f m)) m =
      (arrival (es.map fun e => (e.1.flatMap f', e.2.flatMap g'))).foldl ins m := by
  have hflat : ∀ (h : M → β → M) (h' : β → List α), (∀ m b, h m b = (h' b).foldl ins m) →
      ∀ (bs : List β) (m : M), bs.foldl h m = (bs.flatMap h').foldl ins m := by
    intro h h' hh bs
    induction bs with
    | nil => intro m; rfl
    | cons b bs ih => intro m; simp [ih, hh]
  induction es generalizing m with
  | nil => rfl
  | cons e es ih =>
    simp only [foldl_cons, map_cons, arrival_cons, foldl_append]
    rw [ih, hflat f f' hf, hflat g g' hg]

/-! ### The last item of a kind -/

def last (p : α → Bool) (l : List α) : Option α := (l.filter p).getLast?

/-- The second source had an item of the kind, the first one has had one since, and the second has
not. -/
def Superseded (p : α → Bool) (es : List (List α × List α)) : Prop :=
  ∃ pre post, es = pre ++ post ∧ (∃ y ∈ rights pre, p y = true) ∧
    (∃ x ∈ lefts post, p x = true) ∧ ∀ y ∈ rights post, p y = false

theorem last_append : last p (l ++ m) = (last p m).or (last p l) := by
  simp [last, filter_append, getLast?_append]

theorem last_eq_none : last p l = none ↔ ∀ x ∈ l, p x = false := by
  simp [last]

/-- A fold that keeps the last item of a kind. -/
theorem foldl_last (p : α → Bool) (f : α → β) (found : Option β) (l : List α) :
    l.foldl (fun found x => if p x then some (f x) else found) found =
      ((last p l).map f).or found := by
  induction l generalizing found with
  | nil => rfl
  | cons x l ih =>
    have hsplit : last p (x :: l) = (last p l).or (last p [x]) := last_append (l := [x])
    rw [foldl_cons, ih, hsplit]
    cases hx : p x with
    | true =>
      have hone : last p [x] = some x := by simp [last, hx]
      rw [if_pos rfl, hone]
      cases last p l <;> rfl
    | false =>
      have hone : last p [x] = none := by simp [last, hx]
      rw [if_neg Bool.false_ne_true, hone, Option.or_none]

theorem last_map (p : β → Bool) (f : α → β) (l : List α) :
    last p (l.map f) = (last (p ∘ f) l).map f := by
  rw [last, last, filter_map, getLast?_map]

/-- Nothing of the kind comes behind the last. -/
theorem split_of_last (h : last p l = some z) :
    ∃ before after, l = before ++ z :: after ∧ p z = true ∧ ∀ x ∈ after, p x = false := by
  obtain ⟨ys, hfilter⟩ := getLast?_eq_some_iff.mp h
  obtain ⟨l₁, l₂, rfl, -, hlast⟩ := filter_eq_append_iff.mp hfilter
  obtain ⟨l₃, l₄, rfl, -, hz, hafter⟩ := filter_eq_cons_iff.mp hlast
  refine ⟨l₁ ++ l₃, l₄, by rw [append_assoc], hz, ?_⟩
  intro x hx
  exact Bool.eq_false_iff.mpr (filter_eq_nil_iff.mp hafter x hx)

theorem exists_last (h : ∃ x ∈ l, p x = true) : ∃ z ∈ l, p z = true ∧ last p l = some z := by
  cases hlast : last p l with
  | none =>
    obtain ⟨x, hx, hp⟩ := h
    have hnot := last_eq_none.mp hlast x hx
    rw [hp] at hnot
    cases hnot
  | some z =>
    have hmem := mem_filter.mp (mem_of_getLast? hlast)
    exact ⟨z, hmem.1, hmem.2, rfl⟩

/-- What was superseded: as the turns brought it the last item is one of the first source, source
after source it is one of the second. -/
theorem last_of_superseded (h : Superseded p es) :
    ∃ x ∈ lefts es, ∃ y ∈ rights es, last p (arrival es) = some x ∧
      last p (bySource es) = some y := by
  obtain ⟨pre, post, rfl, hright, hleft, hnone⟩ := h
  have hlast : last p (arrival post) = last p (lefts post) := by
    clear hleft
    induction post with
    | nil => rfl
    | cons e post ih =>
      simp only [rights_cons, forall_mem_append] at hnone
      simp only [arrival_cons, lefts_cons, last_append, ih hnone.2, last_eq_none.mpr hnone.1,
        Option.none_or]
  obtain ⟨x, hx, -, hxlast⟩ := exists_last hleft
  obtain ⟨y, hy, -, hylast⟩ := exists_last (l := rights (pre ++ post)) (p := p) (by
    obtain ⟨y, hy, hp⟩ := hright
    exact ⟨y, by simp [hy], hp⟩)
  refine ⟨x, by simp [hx], y, hy, ?_, ?_⟩
  · rw [arrival_append, last_append, hlast, hxlast]
    rfl
  · rw [bySource, last_append, hylast]
    rfl

theorem lefts_map (f g : β → α) (es : List (List β × List β)) :
    lefts (es.map fun e => (e.1.map f, e.2.map g)) = (lefts es).map f := by
  simp [lefts, flatMap_map, map_flatMap]

theorem rights_map (f g : β → α) (es : List (List β × List β)) :
    rights (es.map fun e => (e.1.map f, e.2.map g)) = (rights es).map g := by
  simp [rights, flatMap_map, map_flatMap]

/-- Being superseded depends on the kinds of the items only. -/
theorem superseded_map {f g : β → α} {q : β → Bool} (hf : ∀ b, p (f b) = q b)
    (hg : ∀ b, p (g b) = q b) (es : List (List β × List β)) :
    Superseded p (es.map fun e => (e.1.map f, e.2.map g)) ↔ Superseded q es := by
  have hexists : ∀ {h : β → α}, (∀ b, p (h b) = q b) → ∀ l : List β,
      ((∃ x ∈ l.map h, p x = true) ↔ ∃ b ∈ l, q b = true) := by
    intro h hh l
    simp [hh]
  constructor
  · rintro ⟨pre, post, hes, hright, hleft, hnone⟩
    obtain ⟨pre', post', rfl, rfl, rfl⟩ := map_eq_append_iff.mp hes
    rw [rights_map, hexists hg] at hright
    rw [lefts_map, hexists hf] at hleft
    rw [rights_map, forall_mem_map] at hnone
    exact ⟨pre', post', rfl, hright, hleft, fun b hb => hg b ▸ hnone b hb⟩
  · rintro ⟨pre, post, rfl, hright, hleft, hnone⟩
    refine ⟨_, _, map_append, ?_, ?_, ?_⟩
    · rwa [rights_map, hexists hg]
    · rwa [lefts_map, hexists hf]
    · rw [rights_map, forall_mem_map]
      intro b hb
      rw [hg, hnone b hb]

theorem last_of_not_superseded (h : ¬ Superseded p es) :
    last p (arrival es) = last p (bySource es) := by
  induction es using reverseRecOn with
  | nil => rfl
  | append_singleton es e ih =>
    have harr : last p (arrival (es ++ [e])) =
        ((last p e.2).or (last p e.1)).or (last p (arrival es)) := by
      simp [last_append]
    have hsrc : last p (bySource (es ++ [e])) =
        ((last p e.2).or (last p (rights es))).or ((last p e.1).or (last p (lefts es))) := by
      simp [bySource, last_append, Option.or_assoc]
    rw [harr, hsrc]
    cases hsecond : last p e.2 with
    | some y => rfl
    | none =>
      have hnone := last_eq_none.mp hsecond
      cases hfirst : last p e.1 with
      | none =>
        -- the turn brought nothing of the kind
        have hes : ¬ Superseded p es := by
          rintro ⟨pre, post, rfl, hright, ⟨x, hx, hp⟩, hpost⟩
          refine h ⟨pre, post ++ [e], by simp, hright, ⟨x, by simp [hx], hp⟩, ?_⟩
          intro y hy
          rcases mem_append.mp (rights_append ▸ hy) with hy | hy
          · exact hpost y hy
          · exact hnone y (by simpa using hy)
        simpa [bySource, last_append] using ih hes
      | some x =>
        have hx := mem_filter.mp (mem_of_getLast? hfirst)
        have hright : last p (rights es) = none := by
          apply last_eq_none.mpr
          intro y hy
          by_contra hp
          refine h ⟨es, [e], rfl, ⟨y, hy, by simpa using hp⟩, ⟨x, by simpa using hx.1, hx.2⟩, ?_⟩
          simpa using hnone
        rw [hright]
        rfl

/-! ### First appearances -/

/-- `x` is in the list, and no `y` before it. -/
def Before : List α → α → α → Prop
  | [], _, _ => False
  | z :: l, x, y => z = x ∨ z ≠ y ∧ Before l x y

theorem Before.mem (h : Before l x y) : x ∈ l := by
  induction l with
  | nil => exact h.elim
  | cons z l ih =>
    rcases h with rfl | ⟨-, h⟩
    · exact mem_cons_self
    · exact mem_cons_of_mem _ (ih h)

theorem Before.antisymm (hxy : Before l x y) (hyx : Before l y x) : x = y := by
  induction l with
  | nil => exact hxy.elim
  | cons z l ih =>
    rcases hxy with rfl | ⟨hzy, hxy⟩
    · rcases hyx with rfl | ⟨hne, -⟩
      · rfl
      · exact absurd rfl hne
    · rcases hyx with rfl | ⟨-, hyx⟩
      · exact absurd rfl hzy
      · exact ih hxy hyx

theorem Before.total (hx : x ∈ l) : Before l x y ∨ Before l y x := by
  induction l with
  | nil => cases hx
  | cons z l ih =>
    by_cases hzx : z = x
    · exact .inl (.inl hzx)
    · by_cases hzy : z = y
      · exact .inr (.inl hzy)
      · have hmem : x ∈ l := by
          rcases mem_cons.mp hx with rfl | h
          · exact absurd rfl hzx
          · exact h
        rcases ih hmem with h | h
        · exact .inl (.inr ⟨hzy, h⟩)
        · exact .inr (.inr ⟨hzx, h⟩)

/-- Items that are in neither do not matter in front. -/
theorem before_append (hx : x ∉ l) (hy : y ∉ l) : Before (l ++ m) x y ↔ Before m x y := by
  induction l with
  | nil => rfl
  | cons z l ih =>
    rw [mem_cons, not_or] at hx hy
    simp [Before, ih hx.2 hy.2, Ne.symm hx.1, Ne.symm hy.1]

/-- The part in front decides when one of them is in it. -/
theorem before_append_of_mem (h : x ∈ l ∨ y ∈ l) : Before (l ++ m) x y ↔ Before l x y := by
  induction l with
  | nil => simp at h
  | cons z l ih =>
    simp only [cons_append, Before]
    by_cases hzx : z = x
    · simp [hzx]
    · by_cases hzy : z = y
      · simp [hzy]
      · have hmem : x ∈ l ∨ y ∈ l := by
          simpa [Ne.symm hzx, Ne.symm hzy] using h
        simp [hzx, hzy, ih hmem]

/-- Two items change their order exactly when the one the second source had first is met before the
first source shows the other. -/
theorem before_arrival_iff (hne : x ≠ y) :
    Before (arrival es) x y ∧ Before (bySource es) y x ↔ ∃ pre post, es = pre ++ post ∧
      x ∉ lefts pre ∧ y ∉ lefts pre ∧ Before (rights pre) x y ∧ Before (lefts post) y x := by
  constructor
  · rintro ⟨harr, hsrc⟩
    induction es with
    | nil => exact harr.elim
    | cons e es ih =>
      have hsrc' : Before (e.1 ++ (lefts es ++ (e.2 ++ rights es))) y x := by
        simpa [bySource] using hsrc
      rw [arrival_cons, append_assoc] at harr
      by_cases hfirst : x ∈ e.1 ∨ y ∈ e.1
      · rw [before_append_of_mem hfirst] at harr
        rw [before_append_of_mem hfirst.symm] at hsrc'
        exact absurd (harr.antisymm hsrc') hne
      rw [not_or] at hfirst
      rw [before_append hfirst.1 hfirst.2] at harr
      rw [before_append hfirst.2 hfirst.1] at hsrc'
      by_cases hsecond : x ∈ e.2 ∨ y ∈ e.2
      · rw [before_append_of_mem hsecond] at harr
        by_cases hlater : y ∈ lefts es ∨ x ∈ lefts es
        · rw [before_append_of_mem hlater] at hsrc'
          exact ⟨[e], es, rfl, by simpa using hfirst.1, by simpa using hfirst.2,
            by simpa using harr, hsrc'⟩
        · rw [not_or] at hlater
          rw [before_append hlater.1 hlater.2, before_append_of_mem hsecond.symm] at hsrc'
          exact absurd (harr.antisymm hsrc') hne
      · rw [not_or] at hsecond
        rw [before_append hsecond.1 hsecond.2] at harr
        have hrest : Before (bySource es) y x := by
          unfold bySource
          by_cases hlater : y ∈ lefts es ∨ x ∈ lefts es
          · rw [before_append_of_mem hlater] at hsrc' ⊢
            exact hsrc'
          · rw [not_or] at hlater
            rw [before_append hlater.1 hlater.2] at hsrc' ⊢
            rwa [before_append hsecond.2 hsecond.1] at hsrc'
        obtain ⟨pre, post, rfl, hx, hy, hxy, hyx⟩ := ih harr hrest
        refine ⟨e :: pre, post, rfl, ?_, ?_, ?_, hyx⟩
        · simp [hfirst.1, hx]
        · simp [hfirst.2, hy]
        · rw [rights_cons, before_append hsecond.1 hsecond.2]
          exact hxy
  · rintro ⟨pre, post, rfl, hx, hy, hxy, hyx⟩
    constructor
    · have hmem : x ∈ arrival pre := mem_arrival.mpr (mem_append_right _ hxy.mem)
      rw [arrival_append, before_append_of_mem (.inl hmem)]
      clear hyx hmem
      induction pre with
      | nil => exact hxy
      | cons e pre ih =>
        simp only [lefts_cons, mem_append, not_or] at hx hy
        rw [arrival_cons, append_assoc, before_append hx.1 hy.1]
        rw [rights_cons] at hxy
        by_cases hsecond : x ∈ e.2 ∨ y ∈ e.2
        · rw [before_append_of_mem hsecond] at hxy ⊢
          exact hxy
        · rw [not_or] at hsecond
          rw [before_append hsecond.1 hsecond.2] at hxy ⊢
          exact ih hx.2 hy.2 hxy
    · rw [bySource, lefts_append, append_assoc, before_append hy hx,
        before_append_of_mem (.inl hyx.mem)]
      exact hyx

variable [DecidableEq α]

/-- An item at the end of a list that lacks it. -/
def push (l : List α) (x : α) : List α := if x ∈ l then l else l ++ [x]

def firsts (s l : List α) : List α := l.foldl push s

/-- Two new items: the second source had `x` before `y` while the first had neither, and the first
has had `y` before `x` since. -/
def Overtakes (s : List α) (es : List (List α × List α)) : Prop :=
  ∃ pre post x y, es = pre ++ post ∧ x ≠ y ∧ x ∉ s ∧ y ∉ s ∧ x ∉ lefts pre ∧ y ∉ lefts pre ∧
    Before (rights pre) x y ∧ Before (lefts post) y x

theorem firsts_eq (s l : List α) : firsts s l = s ++ collect some s l := by
  induction l generalizing s with
  | nil => simp [firsts, collect]
  | cons x l ih =>
    have hstep : firsts s (x :: l) = firsts (push s x) l := rfl
    rw [hstep, ih]
    by_cases hx : x ∈ s
    · rw [push, if_pos hx, collect_mem hx]
    · have hswap : collect some (s ++ [x]) l = collect some (x :: s) l :=
        collect_congr fun z _ => by simp [or_comm]
      rw [push, if_neg hx, collect_some hx rfl, hswap]
      simp

/-- The new items stand in the order of their first appearance. -/
theorem pairwise_collect (s l : List α) : (collect some s l).Pairwise (Before l) := by
  induction l generalizing s with
  | nil => exact Pairwise.nil
  | cons x l ih =>
    have hlater : ∀ s', x ∈ s' → (collect some s' l).Pairwise (Before (x :: l)) := by
      intro s' hx
      refine (ih s').imp_of_mem ?_
      intro a b _ hb hab
      obtain ⟨c, -, hc, hcb⟩ := mem_collect.mp hb
      cases hcb
      refine .inr ⟨?_, hab⟩
      rintro rfl
      exact hc hx
    by_cases hx : x ∈ s
    · rw [collect_mem hx]
      exact hlater s hx
    · rw [collect_some hx rfl]
      refine pairwise_cons.mpr ⟨?_, hlater _ mem_cons_self⟩
      intro b _
      exact .inl rfl

theorem mem_news : x ∈ collect some s l ↔ x ∈ l ∧ x ∉ s := by
  simp [mem_collect]

theorem mem_firsts : x ∈ firsts s l ↔ x ∈ s ∨ x ∈ l := by
  rw [firsts_eq, mem_append, mem_news]
  by_cases hx : x ∈ s
  · simp [hx]
  · simp [hx]

theorem firsts_of_nodup (h : (s ++ l).Nodup) : firsts s l = s ++ l := by
  induction l generalizing s with
  | nil => rw [append_nil]; rfl
  | cons x l ih =>
    have hnew : x ∉ s := by
      intro hx
      exact (nodup_append'.mp h).2.2 hx mem_cons_self
    rw [← singleton_append, ← append_assoc] at h ⊢
    have hstep : firsts s ([x] ++ l) = firsts (push s x) l := rfl
    rw [hstep, push, if_neg hnew]
    exact ih h

theorem nodup_news : (collect some s l).Nodup := by
  apply nodup_collect_iff.mpr
  intro x _ y _ _ _ z hx hy
  cases hx
  cases hy
  rfl

/-- Two lists of the same items give the same new ones exactly when no two new items change their
order. -/
theorem collect_eq_iff (hmem : ∀ x, x ∈ l ↔ x ∈ m) : collect some s l = collect some s m ↔
    ∀ x y, x ≠ y → x ∉ s → y ∉ s → Before l x y → ¬ Before m y x := by
  constructor
  · intro heq x y hne hx hy hxy hyx
    have hpair : (collect some s l).Pairwise fun a b =>
        Before l a b ∧ Before m a b ∨ Before l b a ∧ Before m b a := by
      refine ((pairwise_collect s l).and ?_).imp fun h => .inl h
      rw [heq]
      exact pairwise_collect s m
    have : Std.Symm fun a b => Before l a b ∧ Before m a b ∨ Before l b a ∧ Before m b a :=
      ⟨fun _ _ h => h.symm⟩
    have hxnew : x ∈ collect some s l := mem_news.mpr ⟨hxy.mem, hx⟩
    have hynew : y ∈ collect some s l := mem_news.mpr ⟨(hmem y).mpr hyx.mem, hy⟩
    rcases hpair.forall hxnew hynew hne with ⟨-, h⟩ | ⟨h, -⟩
    · exact hne (h.antisymm hyx)
    · exact hne (hxy.antisymm h)
  · intro h
    have hperm : (collect some s l).Perm (collect some s m) := by
      apply (perm_ext_iff_of_nodup nodup_news nodup_news).mpr
      intro x
      rw [mem_news, mem_news, hmem]
    have hpair : (collect some s m).Pairwise (Before l) := by
      refine ((pairwise_collect s m).and nodup_news).imp_of_mem ?_
      rintro a b ha hb ⟨hab, hne⟩
      have ha := mem_news.mp ha
      have hb := mem_news.mp hb
      rcases Before.total (y := b) ((hmem a).mpr ha.1) with hl | hl
      · exact hl
      · exact absurd hab (h b a (Ne.symm hne) hb.2 ha.2 hl)
    refine Perm.eq_of_pairwise ?_ (pairwise_collect s l) hpair hperm
    intro a b _ _ hab hba
    exact hab.antisymm hba

/-- The new items come in the same order exactly when none overtakes another. -/
theorem firsts_eq_iff : firsts s (arrival es) = firsts s (bySource es) ↔ ¬ Overtakes s es := by
  rw [firsts_eq, firsts_eq, append_right_inj, collect_eq_iff fun x => mem_arrival]
  constructor
  · rintro h ⟨pre, post, x, y, hes, hne, hxs, hys, hrest⟩
    have hboth := (before_arrival_iff hne).mpr ⟨pre, post, hes, hrest⟩
    exact h x y hne hxs hys hboth.1 hboth.2
  · intro h x y hne hxs hys hxy hyx
    obtain ⟨pre, post, hes, hrest⟩ := (before_arrival_iff hne).mp ⟨hxy, hyx⟩
    exact h ⟨pre, post, x, y, hes, hne, hxs, hys, hrest⟩

end Epochs
