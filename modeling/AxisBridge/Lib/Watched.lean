import Mathlib.Data.List.Forall2

/-! Runs over a world that can stop, and watched runs, which also note what they do on the way. -/
namespace AxisBridge
open List

/-- An answer or a stop, and the world it leaves. -/
def Effect (ε W α : Type) : Type := W → Except ε α × W

/-- And the notes, first to last. -/
def Watched (ε W ν α : Type) : Type := W → Except ε α × W × List ν

section
variable {ε W ν α β γ δ : Type}

def Effect.stop (e : ε) : Effect ε W α := fun w => (.error e, w)

def Effect.andThen (x : Effect ε W α) (f : α → Effect ε W β) : Effect ε W β := fun w =>
  match x w with
  | (.ok a, w') => f a w'
  | (.error e, w') => (.error e, w')

instance : Monad (Effect ε W) where
  pure a := fun w => (.ok a, w)
  bind := Effect.andThen

namespace Watched

def stop (e : ε) : Watched ε W ν α := fun w => (.error e, w, [])

def note (b : ν) : Watched ε W ν Unit := fun w => (.ok (), w, [b])

/-- A run that notes nothing. -/
def lift (x : Effect ε W α) : Watched ε W ν α := fun w => ((x w).1, (x w).2, [])

def andThen (y : Watched ε W ν α) (g : α → Watched ε W ν β) : Watched ε W ν β := fun w =>
  match y w with
  | (.ok a, w', notes) => ((g a w').1, (g a w').2.1, notes ++ (g a w').2.2)
  | (.error e, w', notes) => (.error e, w', notes)

instance : Monad (Watched ε W ν) where
  pure a := fun w => (.ok a, w, [])
  bind := andThen

/-- The watched run, unwatched, with its answer as `f` reads it. -/
def forget (f : α → β) (y : Watched ε W ν α) : Effect ε W β := fun w => ((y w).1.map f, (y w).2.1)

end Watched

/-- A run does what a watched one does, as long as the notes of this one are good. -/
def Agrees (good : ν → Prop) (R : α → β → Prop) (x : Effect ε W α) (y : Watched ε W ν β) : Prop :=
  ∀ w, (∀ n ∈ (y w).2.2, good n) →
    (∃ a b w' notes, x w = (.ok a, w') ∧ y w = (.ok b, w', notes) ∧ R a b) ∨
      ∃ e w' notes, x w = (.error e, w') ∧ y w = (.error e, w', notes)

end

section
variable {ε W ν α β : Type} {x : Effect ε W α} {y : Watched ε W ν α} {f : α → Effect ε W β}
  {g : α → Watched ε W ν β} {a : α} {e : ε} {w w' : W} {notes : List ν}

theorem Effect.bind_ok (h : x w = (.ok a, w')) : (x >>= f) w = f a w' := by
  show Effect.andThen x f w = _
  rw [Effect.andThen, h]

theorem Effect.bind_error (h : x w = (.error e, w')) : (x >>= f) w = (.error e, w') := by
  show Effect.andThen x f w = _
  rw [Effect.andThen, h]

theorem Watched.bind_ok (h : y w = (.ok a, w', notes)) :
    (y >>= g) w = ((g a w').1, (g a w').2.1, notes ++ (g a w').2.2) := by
  show Watched.andThen y g w = _
  rw [Watched.andThen, h]

theorem Watched.bind_error (h : y w = (.error e, w', notes)) :
    (y >>= g) w = (.error e, w', notes) := by
  show Watched.andThen y g w = _
  rw [Watched.andThen, h]

@[simp] theorem Effect.pure_bind (a : α) (f : α → Effect ε W β) :
    (pure a : Effect ε W α) >>= f = f a :=
  rfl

@[simp] theorem Effect.stop_bind (e : ε) (f : α → Effect ε W β) :
    (Effect.stop e : Effect ε W α) >>= f = Effect.stop e :=
  rfl

theorem Effect.bind_pure (x : Effect ε W α) : x >>= pure = x := by
  funext w
  obtain ⟨r, w', hx⟩ : ∃ r w', x w = (r, w') := ⟨_, _, rfl⟩
  cases r with
  | ok a =>
    rw [Effect.bind_ok hx, hx]
    rfl
  | error e => rw [Effect.bind_error hx, hx]

@[simp] theorem Watched.lift_pure_bind (a : α) (g : α → Watched ε W ν β) :
    Watched.lift (pure a) >>= g = g a := rfl

@[simp] theorem Watched.lift_stop_bind (e : ε) (g : α → Watched ε W ν β) :
    Watched.lift (Effect.stop e) >>= g = Watched.stop e := rfl

/-- What the first part notes, the whole run notes. -/
theorem Watched.notes_bind {n : ν} (h : n ∈ (y w).2.2) : n ∈ ((y >>= g) w).2.2 := by
  obtain ⟨r, w', notes, hy⟩ : ∃ r w' notes, y w = (r, w', notes) := ⟨_, _, _, rfl⟩
  rw [hy] at h
  cases r with
  | ok a =>
    rw [Watched.bind_ok hy]
    exact mem_append_left _ h
  | error e =>
    rw [Watched.bind_error hy]
    exact h

end

variable {ε W ν α β γ δ : Type} {good : ν → Prop} {R : α → β → Prop} {S : γ → δ → Prop}
  {x : Effect ε W α} {y : Watched ε W ν β}

theorem Agrees.pure {a : α} {b : β} (h : R a b) :
    Agrees good R (Pure.pure a : Effect ε W α) (Pure.pure b) := by
  intro w _
  exact .inl ⟨a, b, w, [], rfl, rfl, h⟩

theorem Agrees.stop (e : ε) : Agrees good R (Effect.stop e : Effect ε W α) (Watched.stop e) := by
  intro w _
  exact .inr ⟨e, w, [], rfl, rfl⟩

theorem Agrees.lift (x : Effect ε W α) : Agrees good Eq x (Watched.lift x) := by
  intro w _
  obtain ⟨r, w', hx⟩ : ∃ r w', x w = (r, w') := ⟨_, _, rfl⟩
  have hlift : (Watched.lift x : Watched ε W ν α) w = (r, w', []) := by rw [Watched.lift, hx]
  cases r with
  | ok a => exact .inl ⟨a, a, w', [], hx, hlift, rfl⟩
  | error e => exact .inr ⟨e, w', [], hx, hlift⟩

variable {f : α → Effect ε W γ} {g : β → Watched ε W ν δ}

theorem Agrees.bind (hx : Agrees good R x y)
    (hf : ∀ a b, R a b → Agrees good S (f a) (g b)) : Agrees good S (x >>= f) (y >>= g) := by
  intro w hgood
  rcases hx w fun n hn => hgood n (Watched.notes_bind hn) with
    ⟨a, b, w', notes, hrun, hwatched, hab⟩ | ⟨e, w', notes, hrun, hwatched⟩
  · rw [Watched.bind_ok hwatched] at hgood ⊢
    rw [Effect.bind_ok hrun]
    rcases hf a b hab w' fun n hn => hgood n (mem_append_right _ hn) with
      ⟨c, d, v, more, hc, hd, hcd⟩ | ⟨e, v, more, hc, hd⟩
    · exact .inl ⟨c, d, v, notes ++ more, hc, by rw [hd], hcd⟩
    · exact .inr ⟨e, v, notes ++ more, hc, by rw [hd]⟩
  · exact .inr ⟨e, w', notes, Effect.bind_error hrun, Watched.bind_error hwatched⟩

/-- A note that only the watched run makes: behind it, it is known to be good. -/
theorem Agrees.note {n : ν} (h : good n → Agrees good R x y) :
    Agrees good R x (Watched.note n >>= fun _ => y) := by
  intro w hgood
  have hnote : (Watched.note n : Watched ε W ν Unit) w = (.ok (), w, [n]) := rfl
  rw [Watched.bind_ok hnote] at hgood ⊢
  have hn : good n := hgood n (mem_cons_self ..)
  rcases h hn w fun m hm => hgood m (mem_cons_of_mem n hm) with
    ⟨a, b, w', notes, hrun, hwatched, hab⟩ | ⟨e, w', notes, hrun, hwatched⟩
  · exact .inl ⟨a, b, w', n :: notes, hrun, by rw [hwatched]; rfl, hab⟩
  · exact .inr ⟨e, w', n :: notes, hrun, by rw [hwatched]; rfl⟩

/-- One run after the other, over a list. -/
theorem Agrees.mapM {as : List α} {bs : List β}
    (h : Forall₂ (fun a b => Agrees good S (f a) (g b)) as bs) :
    Agrees good (Forall₂ S) (as.mapM' f) (bs.mapM' g) := by
  induction h with
  | nil => exact Agrees.pure .nil
  | cons hab _ ih =>
    apply hab.bind
    intro c d hcd
    apply ih.bind
    intro cs ds hrest
    exact Agrees.pure (.cons hcd hrest)

/-- Where all notes are good, the run is the watched one unwatched. -/
theorem Agrees.eq_forget {f : β → α} (hx : Agrees good R x y) (hR : ∀ a b, R a b → a = f b) {w : W}
    (hgood : ∀ n ∈ (y w).2.2, good n) : x w = y.forget f w := by
  rcases hx w hgood with ⟨a, b, w', notes, hrun, hwatched, hab⟩ | ⟨e, w', notes, hrun, hwatched⟩
  · rw [hrun, Watched.forget, hwatched, hR a b hab]
    rfl
  · rw [hrun, Watched.forget, hwatched]
    rfl

end AxisBridge
