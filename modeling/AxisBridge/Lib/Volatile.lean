import Mathlib.Data.Set.Insert

/-! Files in a directory over a store that a loss of power leaves with any of the values a place had
since it was last synced. -/
namespace Volatile
open Function

/-- A place of the store: the value in force, and those that stable storage may hold. -/
structure Cell (α : Type*) where
  now : α
  may : Set α

namespace Cell

variable {α : Type*} {a b : α} {c c' : Cell α}

/-- Stable storage holds the value in force. -/
def of (a : α) : Cell α := ⟨a, {a}⟩

/-- Stable storage takes the new value or goes on holding what it held. -/
def put (c : Cell α) (a : α) : Cell α := ⟨a, insert a c.may⟩

/-- Stable storage may be left with anything. -/
def loose (a : α) : Cell α := ⟨a, Set.univ⟩

def sync (c : Cell α) : Cell α := of c.now

/-- What a loss of power may leave. -/
def Lost (c c' : Cell α) : Prop := ∃ a ∈ c.may, c' = of a

theorem mem_may_of (h : a ∈ (of b).may) : a = b := h

theorem mem_may_put (h : a ∈ (c.put b).may) : a = b ∨ a ∈ c.may := h

/-- A value that was synced is not lost. -/
theorem Lost.eq_of (h : (of a).Lost c') : c' = of a := by
  obtain ⟨b, hb, heq⟩ := h
  rw [heq, mem_may_of hb]

end Cell

/-- The entries of a directory and the files, numbered as they were made. -/
structure Files (π τ : Type) where
  entry : π → Cell (Option ℕ)
  file : ℕ → Cell (List τ)
  next : ℕ

namespace Files

variable {π τ : Type} {d d' : Files π τ} {p q r : π} {i j : ℕ} {bs : List τ}

/-- Bytes go on to the file, or the file goes to stable storage: the place of one file changes. -/
def setFile (d : Files π τ) (i : ℕ) (c : Cell (List τ)) : Files π τ :=
  { d with file := update d.file i c }

def write (d : Files π τ) (i : ℕ) (bs : List τ) : Files π τ :=
  d.setFile i (.loose ((d.file i).now ++ bs))

def fsync (d : Files π τ) (i : ℕ) : Files π τ := d.setFile i (d.file i).sync

/-- The entries of the directory go to stable storage. -/
def fsyncDir (d : Files π τ) : Files π τ := { d with entry := fun p => (d.entry p).sync }

/-- Power is lost. -/
structure Lost (d d' : Files π τ) : Prop where
  entry : ∀ p, (d.entry p).Lost (d'.entry p)
  file : ∀ i, (d.file i).Lost (d'.file i)
  next : d'.next = d.next

def read (d : Files π τ) (p : π) : Option (List τ) := (d.entry p).now.map fun i => (d.file i).now

theorem setFile_file_self {c : Cell (List τ)} : (d.setFile i c).file i = c := update_self ..

theorem setFile_file_ne {c : Cell (List τ)} (hj : j ≠ i) : (d.setFile i c).file j = d.file j :=
  update_of_ne hj ..

variable [DecidableEq π]

/-- The file at `p` made empty, or a new one there. -/
def openTruncated (d : Files π τ) (p : π) : Files π τ × ℕ :=
  match (d.entry p).now with
  | some i => (d.setFile i (.loose []), i)
  | none =>
    ({ d.setFile d.next (.loose []) with
        entry := update d.entry p ((d.entry p).put (some d.next)), next := d.next + 1 }, d.next)

/-- The new name in place of the old one; there is none without a file at the old name. -/
def rename (d : Files π τ) (p q : π) : Option (Files π τ) :=
  match (d.entry p).now with
  | none => none
  | some i => some { d with
      entry := update (update d.entry p ((d.entry p).put none)) q ((d.entry q).put (some i)) }

/-- Where there is no file at `p`, the next one is made. -/
theorem openTruncated_of_none (h : (d.entry p).now = none) : d.openTruncated p =
    ({ d.setFile d.next (.loose []) with
        entry :=
          update d.entry p ((d.entry p).put (some d.next)), next := d.next + 1 }, d.next) := by
  unfold openTruncated
  rw [h]

theorem rename_of_some (h : (d.entry p).now = some i) : d.rename p q = some { d with
    entry := update (update d.entry p ((d.entry p).put none)) q ((d.entry q).put (some i)) } := by
  unfold rename
  rw [h]

theorem rename_isSome (h : (d.entry p).now = some i) : d.rename p q ≠ none := by
  rw [rename_of_some h]
  exact Option.some_ne_none _

/-- The new name leads to the file; other names and the files are left as they are. -/
theorem rename_spec (h : (d.entry p).now = some i) (hr : d.rename p q = some d') :
    d'.entry q = (d.entry q).put (some i) ∧ (∀ r, r ≠ p → r ≠ q → d'.entry r = d.entry r) ∧
      d'.file = d.file ∧ d'.next = d.next := by
  rw [rename_of_some h] at hr
  injection hr with hr
  subst hr
  refine ⟨update_self .., fun r hp hq => ?_, rfl, rfl⟩
  change update (update d.entry p _) q _ r = _
  rw [update_of_ne hq, update_of_ne hp]

end Files

end Volatile
