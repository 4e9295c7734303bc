import AxisBridge.Lib.DiskRun
import Mathlib.Logic.Function.Basic

/-! Programs that share a disk: each reaches the files it opened, whatever their names have become,
and leaves alone what is under other names. -/
namespace Disk
open Function List

variable {π τ : Type}

def modifyFile (d : Disk π τ) (i : Option ℕ) (g : DiskFile τ → DiskFile τ) : Disk π τ :=
  match i with
  | some i => { d with files := d.files.modify i g }
  | none => d

variable [DecidableEq π]

/-- The operation of a program that has a file open under each path: bytes are written and synced
there. -/
def applyOpen (c : Disk π τ × (π → Option ℕ)) : Op π τ → Disk π τ × (π → Option ℕ)
  | .create p => (c.1.create p, update c.2 p ((c.1.create p).inode p))
  | .append p bs => (c.1.modifyFile (c.2 p) fun f => { f with data := f.data ++ bs }, c.2)
  | .sync p => (c.1.modifyFile (c.2 p) fun f => { f with synced := f.data.length }, c.2)
  | op => (c.1.apply op, c.2)

def runOpen (c : Disk π τ × (π → Option ℕ)) (ops : List (Op π τ)) : Disk π τ × (π → Option ℕ) :=
  ops.foldl applyOpen c

/-- The file that is open under the path still has that name. -/
def Op.Reaches (c : Disk π τ × (π → Option ℕ)) : Op π τ → Prop
  | .append p _ => c.2 p = c.1.inode p
  | .sync p => c.2 p = c.1.inode p
  | _ => True

/-- Each of the operations finds its file under its name. -/
def Attached : Disk π τ × (π → Option ℕ) → List (Op π τ) → Prop
  | _, [] => True
  | c, op :: ops => op.Reaches c ∧ Attached (applyOpen c op) ops

def Op.Opens : Op π τ → Prop
  | .create _ => True
  | _ => False

variable {c : Disk π τ × (π → Option ℕ)} {d : Disk π τ} {p : π} {op : Op π τ}
  {ops ops' : List (Op π τ)}

theorem attached_append :
    Attached c (ops ++ ops') ↔ Attached c ops ∧ Attached (runOpen c ops) ops' := by
  induction ops generalizing c with
  | nil => simp [Attached, runOpen]
  | cons op ops ih => simp [Attached, ih, runOpen, and_assoc]

theorem Attached.initial (h : Attached c ops) (hpre : ops' <+: ops) : Attached c ops' := by
  obtain ⟨rest, rfl⟩ := hpre
  exact (attached_append.mp h).1

theorem modifyFile_inode {g : DiskFile τ → DiskFile τ} :
    d.modifyFile (d.inode p) g = d.modify p g := by
  unfold modifyFile modify
  cases d.inode p <;> rfl

theorem applyOpen_fst (h : op.Reaches c) : (applyOpen c op).1 = c.1.apply op := by
  cases op with
  | append p bs => exact (congrArg (c.1.modifyFile · _) h).trans modifyFile_inode
  | sync p => exact (congrArg (c.1.modifyFile · _) h).trans modifyFile_inode
  | _ => rfl

/-- While its files have their names, a program does what its operations say of the names. -/
theorem runOpen_fst (h : Attached c ops) : (runOpen c ops).1 = c.1.run ops := by
  induction ops generalizing c with
  | nil => rfl
  | cons op ops ih =>
    rw [run_cons, ← applyOpen_fst h.1]
    exact ih h.2

theorem runOpen_snd (h : ∀ op ∈ ops, ¬ op.Opens) : (runOpen c ops).2 = c.2 := by
  induction ops generalizing c with
  | nil => rfl
  | cons op ops ih =>
    obtain ⟨hop, hops⟩ := forall_mem_cons.mp h
    refine (ih hops).trans ?_
    cases op with
    | create p => exact (hop trivial).elim
    | _ => rfl

/-! ### What is under other names -/

def Op.Avoids (p : π) : Op π τ → Prop
  | .create q => q ≠ p
  | .remove q => q ≠ p
  | .append q _ => q ≠ p
  | .sync q => q ≠ p
  | .syncDir _ => True
  | .rename q r => q ≠ p ∧ r ≠ p

/-- The name and its file are as they were. -/
structure Untouched (p : π) (d d' : Disk π τ) : Prop where
  inode : d'.inode p = d.inode p
  file : d'.file p = d.file p
  settled : d.Settled p → d'.Settled p

theorem Untouched.apply (h : d.Sound) (hop : op.Avoids p) : Untouched p d (d.apply op) := by
  cases op with
  | create q =>
    have hne : p ≠ q := Ne.symm hop
    exact ⟨inode_create_ne hne, file_create_ne h hne, (keeps_create h).settled p⟩
  | remove q =>
    have hne : p ≠ q := Ne.symm hop
    exact ⟨inode_remove_ne hne, file_remove_ne hne, fun hset => hset.remove hne⟩
  | append q bs =>
    exact ⟨inode_modify, file_modify_ne h (Ne.symm hop), (keeps_append h).settled p⟩
  | sync q => exact ⟨inode_modify, file_modify_ne h (Ne.symm hop), (keeps_sync h).settled p⟩
  | syncDir inDir => exact ⟨rfl, rfl, keeps_syncDir.settled p⟩
  | rename q r =>
    have hq : p ≠ q := hop.1.symm
    have hr : p ≠ r := hop.2.symm
    exact ⟨inode_rename_ne hq hr, file_rename_ne hq hr, fun hset => hset.rename hq hr⟩

theorem Untouched.run (h : d.Sound) (hops : ∀ op ∈ ops, op.Avoids p) :
    Untouched p d (d.run ops) := by
  induction ops generalizing d with
  | nil => exact ⟨rfl, rfl, id⟩
  | cons op ops ih =>
    obtain ⟨hop, hops⟩ := forall_mem_cons.mp hops
    have hfirst := Untouched.apply h hop
    have hrest := ih (h.apply op) hops
    exact ⟨hrest.inode.trans hfirst.inode, hrest.file.trans hfirst.file,
      fun hset => hrest.settled (hfirst.settled hset)⟩

end Disk
