import Mathlib.Data.List.Basic

/-! Scopes of a brace language with `let`, over a flat token list: a scanner and its rules. -/
namespace Scope
open List Option

/-- Tokens over identifiers `ι`, ways `μ` of using one, and any other text `τ`. -/
inductive Tok (ι μ τ : Type)
  | text (t : τ)
  | openBrace
  | closeBrace
  | semi
  | letVar (x : ι)
  | use (how : μ) (x : ι)
  deriving DecidableEq

/-- A scope under scan: its bound names, and the `let` that waits for its semicolon. -/
structure Frame (ι : Type) where
  bound : List ι
  pending : Option ι

section
variable {ι μ τ : Type}

def Frame.empty : Frame ι := ⟨[], none⟩

/-- Some scope of the stack binds `x`. -/
def Visible (fs : List (Frame ι)) (x : ι) : Prop := ∃ f ∈ fs, x ∈ f.bound

instance [DecidableEq ι] {fs : List (Frame ι)} {x : ι} : Decidable (Visible fs x) := by
  unfold Visible
  infer_instance

theorem Visible.cons {f : Frame ι} {fs : List (Frame ι)} {x : ι} (h : Visible fs x) :
    Visible (f :: fs) x := by
  obtain ⟨g, hg, hx⟩ := h
  exact ⟨g, mem_cons_of_mem f hg, hx⟩

variable {f : Frame ι} {fs fs' : List (Frame ι)} {x : ι} {ts : List (Tok ι μ τ)} {xs : List ι}

/-- A `let` under way hides no name. -/
theorem Visible.pend {y : ι} (h : Visible (f :: fs) y)
    (p : Option ι) : Visible (⟨f.bound, p⟩ :: fs) y := by
  obtain ⟨g, hg, hin⟩ := h
  rcases mem_cons.mp hg with rfl | hg
  · exact ⟨_, mem_cons_self, hin⟩
  · exact ⟨g, mem_cons_of_mem _ hg, hin⟩

/-- The semicolon ends a `let`: its name is bound from here on. -/
def Frame.endLet (f : Frame ι) : Frame ι :=
  match f.pending with
  | some x => ⟨x :: f.bound, none⟩
  | none => f

/-- The name is bound in a scope, or about to be. -/
def Declared (fs : List (Frame ι)) (x : ι) : Prop := ∃ f ∈ fs, x ∈ f.bound ∨ f.pending = some x

theorem declared_endLet
    (h : x ∈ f.endLet.bound ∨ f.endLet.pending = some x) : x ∈ f.bound ∨ f.pending = some x := by
  cases hp : f.pending with
  | none =>
    simp only [Frame.endLet, hp] at h
    rcases h with h | h
    · exact .inl h
    · cases h
  | some y =>
    simp only [Frame.endLet, hp, mem_cons] at h
    rcases h with (rfl | h) | h
    · exact .inr rfl
    · exact .inl h
    · cases h

variable [DecidableEq ι]

/-- One token; the outermost scope is never closed, and a name in use is in sight. -/
def step : List (Frame ι) → Tok ι μ τ → Option (List (Frame ι))
  | [], _ => none
  | f :: fs, .text _ => some (f :: fs)
  | f :: fs, .openBrace => some (.empty :: f :: fs)
  | [_], .closeBrace => none
  | _ :: f :: fs, .closeBrace => some (f :: fs)
  | f :: fs, .semi => some (f.endLet :: fs)
  | f :: fs, .letVar x => if f.pending = none then some (⟨f.bound, some x⟩ :: fs) else none
  | f :: fs, .use _ x => if Visible (f :: fs) x then some (f :: fs) else none

def scan (fs : List (Frame ι)) : List (Tok ι μ τ) → Option (List (Frame ι))
  | [] => some fs
  | t :: ts => (step fs t).bind fun fs => scan fs ts

/-- Braces balance without going below the body's own scope, and every use is of a bound name. -/
def WellScoped (ts : List (Tok ι μ τ)) : Prop := ∃ f, scan [.empty] ts = some [f]

/-- Tokens that leave every stack as it is, once the names in `xs` are in sight. -/
def Inert (xs : List ι) (ts : List (Tok ι μ τ)) : Prop :=
  ∀ (f : Frame ι) (fs : List (Frame ι)), (∀ x ∈ xs, Visible (f :: fs) x) →
    scan (f :: fs) ts = some (f :: fs)

theorem scan_append (fs : List (Frame ι)) (ts us : List (Tok ι μ τ)) :
    scan fs (ts ++ us) = (scan fs ts).bind fun fs => scan fs us := by
  induction ts generalizing fs with
  | nil => rfl
  | cons t ts ih =>
    rw [cons_append, scan, scan]
    cases step fs t with
    | none => rfl
    | some fs' => exact ih fs'

theorem scan_append_of_some
    (h : scan fs ts = some fs') (us : List (Tok ι μ τ)) : scan fs (ts ++ us) = scan fs' us := by
  rw [scan_append, h, bind_some]

theorem inert_nil : Inert ([] : List ι) ([] : List (Tok ι μ τ)) := fun _ _ _ => rfl

theorem Inert.append {xs ys : List ι} {ts us : List (Tok ι μ τ)} (ht : Inert xs ts)
    (hu : Inert ys us) : Inert (xs ++ ys) (ts ++ us) := by
  intro f fs h
  rw [scan_append_of_some (ht f fs fun x hx => h x (mem_append_left _ hx))]
  exact hu f fs fun x hx => h x (mem_append_right _ hx)

theorem Inert.mono {ys : List ι} (h : Inert xs ts) (hxy : xs ⊆ ys) :
    Inert ys ts := fun f fs hv => h f fs fun x hx => hv x (hxy hx)

theorem inert_text (t : τ) : Inert ([] : List ι) ([.text t] : List (Tok ι μ τ)) := fun _ _ _ => rfl

theorem inert_use (how : μ) (x : ι) : Inert [x] ([.use how x] : List (Tok ι μ τ)) := by
  intro f fs h
  simp [scan, step, h x (mem_singleton.mpr rfl)]

/-- Text and uses are inert over the names they use. -/
theorem inert_of_forall
    (h : ∀ t ∈ ts, (∃ a, t = .text a) ∨ ∃ how, ∃ x ∈ xs, t = .use how x) : Inert xs ts := by
  induction ts with
  | nil => exact fun _ _ _ => rfl
  | cons t ts ih =>
    intro f fs hvis
    have hrest := ih (fun u hu => h u (mem_cons_of_mem _ hu)) f fs hvis
    rcases h t mem_cons_self with ⟨a, rfl⟩ | ⟨how, x, hx, rfl⟩
    · exact hrest
    · rw [scan, step, if_pos (hvis x hx)]
      exact hrest

/-- A braced body without a `let` of its own, whose statements end in semicolons. -/
theorem Inert.braces {ys : List ι} {us : List (Tok ι μ τ)} (ht : Inert xs ts)
    (hu : Inert ys us) : Inert (xs ++ ys) (.openBrace :: ts ++ .semi :: us ++ [.closeBrace]) := by
  intro f fs h
  have hts := ht .empty (f :: fs) fun x hx => (h x (mem_append_left _ hx)).cons
  have hus := hu .empty (f :: fs) fun x hx => (h x (mem_append_right _ hx)).cons
  rw [append_assoc, cons_append, scan, step, bind_some, scan_append_of_some hts,
    cons_append, scan, step, bind_some]
  show scan (.empty :: f :: fs) (us ++ [.closeBrace]) = _
  rw [scan_append_of_some hus]
  rfl

theorem Inert.block {xs : List ι} {ts : List (Tok ι μ τ)} (ht : Inert xs ts) :
    Inert xs (.openBrace :: ts ++ [.closeBrace]) := by
  intro f fs h
  have hts := ht .empty (f :: fs) fun x hx => (h x hx).cons
  rw [cons_append, scan, step, bind_some, scan_append_of_some hts]
  rfl

/-- A statement that binds nothing: between statements it leaves every stack as it is. -/
def Idle (ts : List (Tok ι μ τ)) : Prop :=
  ∀ (f : Frame ι) (fs : List (Frame ι)), f.pending = none → scan (f :: fs) ts = some (f :: fs)

theorem idle_nil : Idle ([] : List (Tok ι μ τ)) := fun _ _ _ => rfl

theorem Idle.append {ts us : List (Tok ι μ τ)} (ht : Idle ts) (hu : Idle us) : Idle (ts ++ us) := by
  intro f fs hf
  rw [scan_append_of_some (ht f fs hf)]
  exact hu f fs hf

theorem Idle.flatMap {β : Type} {xs : List β} {g : β → List (Tok ι μ τ)}
    (h : ∀ x ∈ xs, Idle (g x)) : Idle (xs.flatMap g) := by
  induction xs with
  | nil => exact idle_nil
  | cons x xs ih =>
    rw [flatMap_cons]
    exact (h x mem_cons_self).append (ih fun y hy => h y (mem_cons_of_mem _ hy))

/-- A statement of inert text, with its semicolon. -/
theorem Inert.idle (h : Inert [] ts) : Idle (ts ++ [.semi]) := by
  intro f fs hf
  rw [scan_append_of_some (h f fs (by simp))]
  simp [scan, step, Frame.endLet, hf]

/-- A `let` binds its name when its initializer is inert. -/
theorem scan_let (h : Inert xs ts) (hf : f.pending = none) (hvis : ∀ y ∈ xs, Visible (f :: fs) y) :
    scan (f :: fs) (.letVar x :: ts ++ [.semi]) = some (⟨x :: f.bound, none⟩ :: fs) := by
  rw [cons_append, scan, step, if_pos hf, bind_some,
    scan_append_of_some (h _ fs fun y hy => (hvis y hy).pend _)]
  rfl

/-- A `let` whose initializer opens a block: the name waits outside the block. -/
theorem scan_letOpen (h : Inert xs ts) (hf : f.pending = none)
    (hvis : ∀ y ∈ xs, Visible (f :: fs) y) :
    scan (f :: fs) (.letVar x :: ts ++ [.openBrace]) =
      some (.empty :: ⟨f.bound, some x⟩ :: fs) := by
  rw [cons_append, scan, step, if_pos hf, bind_some,
    scan_append_of_some (h _ fs fun y hy => (hvis y hy).pend _)]
  rfl

/-- The value of a block, and its closing brace. -/
theorem scan_closeUse {g : Frame ι} (how : μ)
    (hvis : Visible (f :: g :: fs) x) (ts : List (Tok ι μ τ)) :
    scan (f :: g :: fs) (.use how x :: .closeBrace :: ts) = scan (g :: fs) ts := by
  rw [scan, step, if_pos hvis, bind_some]
  rfl

/-- A token declares nothing but the name of its `let`. -/
theorem declared_step {t : Tok ι μ τ}
    (h : step fs t = some fs') (hx : Declared fs' x) : Declared fs x ∨ t = .letVar x := by
  cases fs with
  | nil => cases h
  | cons g gs =>
    obtain ⟨f, hf, hin⟩ := hx
    cases t with
    | text t =>
      cases h
      exact .inl ⟨f, hf, hin⟩
    | openBrace =>
      cases h
      rcases mem_cons.mp hf with rfl | hf
      · rcases hin with hin | hin <;> cases hin
      · exact .inl ⟨f, hf, hin⟩
    | closeBrace =>
      cases gs with
      | nil => cases h
      | cons k ks =>
        cases h
        exact .inl ⟨f, mem_cons_of_mem _ hf, hin⟩
    | semi =>
      cases h
      rcases mem_cons.mp hf with rfl | hf
      · exact .inl ⟨g, mem_cons_self, declared_endLet hin⟩
      · exact .inl ⟨f, mem_cons_of_mem _ hf, hin⟩
    | letVar y =>
      rw [step] at h
      split at h
      · cases h
        rcases mem_cons.mp hf with rfl | hf
        · rcases hin with hin | hin
          · exact .inl ⟨g, mem_cons_self, .inl hin⟩
          · cases hin
            exact .inr rfl
        · exact .inl ⟨f, mem_cons_of_mem _ hf, hin⟩
      · cases h
    | use how y =>
      rw [step] at h
      split at h
      · cases h
        exact .inl ⟨f, hf, hin⟩
      · cases h

theorem declared_scan
    (h : scan fs ts = some fs') (hx : Declared fs' x) : Declared fs x ∨ .letVar x ∈ ts := by
  induction ts generalizing fs with
  | nil =>
    cases h
    exact .inl hx
  | cons t ts ih =>
    obtain ⟨fs1, hstep, hrest⟩ := bind_eq_some_iff.mp h
    rcases ih hrest with hdecl | hlet
    · rcases declared_step hstep hdecl with hdecl | rfl
      · exact .inl hdecl
      · exact .inr mem_cons_self
    · exact .inr (mem_cons_of_mem _ hlet)

/-- Every name a well scoped text uses is bound by a `let` before. -/
theorem WellScoped.letVar_before {before after : List (Tok ι μ τ)} {how : μ}
    (h : WellScoped (before ++ .use how x :: after)) : .letVar x ∈ before := by
  obtain ⟨f, hf⟩ := h
  rw [scan_append] at hf
  obtain ⟨fs, hbefore, hafter⟩ := bind_eq_some_iff.mp hf
  obtain ⟨fs1, huse, -⟩ := bind_eq_some_iff.mp hafter
  have hvis : Visible fs x := by
    cases fs with
    | nil => cases huse
    | cons g gs =>
      rw [step] at huse
      split at huse
      next hvis => exact hvis
      next => cases huse
  obtain ⟨g, hg, hin⟩ := hvis
  rcases declared_scan hbefore ⟨g, hg, .inl hin⟩ with ⟨e, he, hdecl⟩ | hlet
  · rw [mem_singleton.mp he] at hdecl
    rcases hdecl with hdecl | hdecl <;> cases hdecl
  · exact hlet

theorem WellScoped.letVar_mem (h : WellScoped ts) {how : μ}
    (hx : .use how x ∈ ts) : .letVar x ∈ ts := by
  obtain ⟨before, after, rfl⟩ := append_of_mem hx
  exact mem_append_left _ h.letVar_before

end

variable {ι κ : Type}

/-- The scopes mirror a path of open blocks, innermost first: each waits for the name of the block
inside it, and binds the names of `D` that live at its path. -/
def Mirror (D : ι → Prop) (path : ι → List κ) (name : κ → ι) :
    List κ → List (Frame ι) → Option ι → Prop
  | [], [f], p => f.pending = p ∧ ∀ x, D x → path x = [] → x ∈ f.bound
  | o :: os, f :: fs, p =>
    f.pending = p ∧ (∀ x, D x → path x = o :: os → x ∈ f.bound) ∧
      Mirror D path name os fs (some (name o))
  | _, _, _ => False

variable {D D' : ι → Prop} {path : ι → List κ} {name : κ → ι} {os : List κ} {o : κ}
  {f : Frame ι} {fs : List (Frame ι)} {p : Option ι}

theorem Mirror.pending (h : Mirror D path name os (f :: fs) p) : f.pending = p := by
  cases os with
  | nil =>
    cases fs with
    | nil => exact h.1
    | cons g gs => exact h.elim
  | cons o os => exact h.1

/-- The names at a scope's own path are bound in it. -/
theorem Mirror.bound (h : Mirror D path name os (f :: fs) p) {x : ι} (hx : D x)
    (hpath : path x = os) : x ∈ f.bound := by
  cases os with
  | nil =>
    cases fs with
    | nil => exact h.2 x hx hpath
    | cons g gs => exact h.elim
  | cons o os => exact h.2.1 x hx hpath

theorem Mirror.ne_nil (h : Mirror D path name os fs p) : ∃ f gs, fs = f :: gs := by
  cases fs with
  | nil => cases os <;> exact h.elim
  | cons f gs => exact ⟨f, gs, rfl⟩

/-- A name of `D` whose block is still open is in sight. -/
theorem Mirror.visible {pre : List κ} {x : ι} (hx : D x)
    (h : Mirror D path name (pre ++ path x) fs p) : Visible fs x := by
  induction pre generalizing fs p with
  | nil =>
    obtain ⟨f, gs, rfl⟩ := h.ne_nil
    exact ⟨f, mem_cons_self, h.bound hx rfl⟩
  | cons o pre ih =>
    obtain ⟨f, gs, rfl⟩ := h.ne_nil
    exact (ih h.2.2).cons

/-- Only the names that live on the path matter. -/
theorem Mirror.mono (h : Mirror D path name os fs p)
    (hD : ∀ x, path x <:+ os → D' x → D x) : Mirror D' path name os fs p := by
  induction os generalizing fs p with
  | nil =>
    obtain ⟨f, gs, rfl⟩ := h.ne_nil
    cases gs with
    | nil => exact ⟨h.1, fun x hx hpath => h.2 x (hD x (hpath ▸ suffix_rfl) hx) hpath⟩
    | cons g gs => exact h.elim
  | cons o os ih =>
    obtain ⟨f, gs, rfl⟩ := h.ne_nil
    refine ⟨h.1, fun x hx hpath => h.2.1 x (hD x (hpath ▸ suffix_rfl) hx) hpath, ?_⟩
    exact ih h.2.2 fun x hx => hD x (hx.trans (suffix_cons o os))

/-- The innermost scope binds `x`, which lives at its path. -/
theorem Mirror.bind {x : ι} (h : Mirror D path name os (f :: fs) p)
    (hD : ∀ y, D' y → D y ∨ (y = x ∧ path x = os)) (q : Option ι) :
    Mirror D' path name os (⟨x :: f.bound, q⟩ :: fs) q := by
  have hbound : ∀ y, D' y → path y = os → y ∈ x :: f.bound := by
    intro y hy hpath
    rcases hD y hy with hy | ⟨rfl, -⟩
    · exact mem_cons_of_mem _ (h.bound hy hpath)
    · exact mem_cons_self
  cases os with
  | nil =>
    cases fs with
    | nil => exact ⟨rfl, hbound⟩
    | cons g gs => exact h.elim
  | cons o os =>
    refine ⟨rfl, hbound, h.2.2.mono ?_⟩
    intro y hy hD'
    rcases hD y hD' with hy' | ⟨rfl, hpath⟩
    · exact hy'
    · have hle := hy.length_le
      rw [hpath, length_cons] at hle
      omega

/-- A block opens: its name waits in the scope around it. -/
theorem Mirror.push (h : Mirror D path name os (f :: fs) p) (hnew : ∀ x, D x → path x ≠ o :: os) :
    Mirror D path name (o :: os) (.empty :: ⟨f.bound, some (name o)⟩ :: fs) none := by
  refine ⟨rfl, fun x hx hpath => (hnew x hx hpath).elim, ?_⟩
  cases os with
  | nil =>
    cases fs with
    | nil => exact ⟨rfl, h.2⟩
    | cons g gs => exact h.elim
  | cons o' os => exact ⟨rfl, h.2.1, h.2.2⟩

/-- The innermost block closes. -/
theorem Mirror.pop (h : Mirror D path name (o :: os) (f :: fs) p) :
    Mirror D path name os fs (some (name o)) := h.2.2

end Scope
