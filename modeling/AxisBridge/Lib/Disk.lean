import Mathlib.Algebra.Group.Nat.Defs
import Mathlib.Data.List.Infix
import Mathlib.Data.List.Perm.Subperm
import Mathlib.Data.List.Nodup

/-! Files under paths, and what a loss of power leaves of them: the bytes that were synced, under
the directory entries that were synced. -/

/-- The bytes written to a file, and how many of them are on stable storage. -/
structure DiskFile (τ : Type) where
  data : List τ
  synced : ℕ

/-- The files by number, the directory entries in force, and those on stable storage. -/
structure Disk (π τ : Type) where
  files : List (DiskFile τ)
  live : List (π × ℕ)
  durable : List (π × ℕ)

/-- Files of bytes under their paths. -/
abbrev Volume := Disk String UInt8

namespace Disk
open List Option DiskFile

variable {π τ : Type}

def empty : Disk π τ := ⟨[], [], []⟩

/-- The entries of a directory go to stable storage. -/
def syncDir (d : Disk π τ) (inDir : π → Bool) : Disk π τ :=
  { d with durable := d.live.filter (inDir ·.1) ++ d.durable.filter (!inDir ·.1) }

/-- Power is lost: what was not synced is gone. -/
def crash (d : Disk π τ) : Disk π τ :=
  { d with files := d.files.map fun f => ⟨f.data.take f.synced, f.synced⟩, live := d.durable }

/-- No file has two names, and every name has a file. -/
structure Sound (d : Disk π τ) : Prop where
  nodup : (d.live.map Prod.snd).Nodup
  lt : ∀ e ∈ d.live, e.2 < d.files.length

theorem Sound.empty : (Disk.empty : Disk π τ).Sound := ⟨nodup_nil, by simp [Disk.empty]⟩

theorem Sound.syncDir {d : Disk π τ} (h : d.Sound) {inDir : π → Bool} : (d.syncDir inDir).Sound :=
  ⟨h.nodup, h.lt⟩

variable [DecidableEq π]

def inode (d : Disk π τ) (p : π) : Option ℕ := d.live.lookup p

def file (d : Disk π τ) (p : π) : Option (DiskFile τ) := (d.inode p).bind fun i => d.files[i]?

def read (d : Disk π τ) (p : π) : Option (List τ) := (d.file p).map data

/-- An empty file at `p`, unless there is one. -/
def create (d : Disk π τ) (p : π) : Disk π τ :=
  match d.inode p with
  | some _ => d
  | none => { d with files := d.files ++ [⟨[], 0⟩], live := (p, d.files.length) :: d.live }

def modify (d : Disk π τ) (p : π) (g : DiskFile τ → DiskFile τ) : Disk π τ :=
  match d.inode p with
  | some i => { d with files := d.files.modify i g }
  | none => d

def append (d : Disk π τ) (p : π) (bs : List τ) : Disk π τ :=
  d.modify p fun f => { f with data := f.data ++ bs }

/-- The file's bytes go to stable storage. -/
def sync (d : Disk π τ) (p : π) : Disk π τ := d.modify p fun f => { f with synced := f.data.length }

def remove (d : Disk π τ) (p : π) : Disk π τ := { d with live := d.live.filter (·.1 ≠ p) }

def rename (d : Disk π τ) (p q : π) : Disk π τ :=
  match d.inode p with
  | some i => { d with live := (q, i) :: d.live.filter fun e => e.1 ≠ p ∧ e.1 ≠ q }
  | none => d

variable {d : Disk π τ} {p q : π} {bs : List τ} {i : ℕ} {g : DiskFile τ → DiskFile τ}

theorem mem_of_inode (h : d.inode p = some i) : (p, i) ∈ d.live := by
  obtain ⟨before, after, heq, -⟩ := lookup_eq_some_iff.mp h
  simp [heq]

theorem Sound.inode_ne (h : d.Sound) {j : ℕ} (hp : d.inode p = some i) (hq : d.inode q = some j)
    (hpq : p ≠ q) : i ≠ j := by
  rintro rfl
  have heq := inj_on_of_nodup_map h.nodup (mem_of_inode hp) (mem_of_inode hq) rfl
  exact hpq (congrArg Prod.fst heq)

theorem Sound.create (h : d.Sound) : (d.create p).Sound := by
  unfold Disk.create
  cases hp : d.inode p with
  | some i => exact h
  | none =>
    refine ⟨nodup_cons.mpr ⟨?_, h.nodup⟩, ?_⟩
    · intro hmem
      obtain ⟨e, he, heq⟩ := mem_map.mp hmem
      have hlt := h.lt e he
      omega
    · intro e he
      rcases mem_cons.mp he with rfl | he
      · simp
      · have hlt := h.lt e he
        simp only [length_append, length_singleton]
        omega

theorem Sound.modify (h : d.Sound) : (d.modify p g).Sound := by
  unfold Disk.modify
  split
  · exact ⟨h.nodup, by simpa using h.lt⟩
  · exact h

@[simp] theorem inode_modify : (d.modify p g).inode q = d.inode q := by
  unfold Disk.modify
  split <;> rfl

variable {inDir : π → Bool} {keep : π × ℕ → Bool}

theorem inode_create_self : ((d.create p).inode p).isSome = true := by
  unfold create
  cases hp : d.inode p with
  | some i => simp [hp]
  | none => simp [inode]

theorem inode_create_ne (hpq : q ≠ p) : (d.create p).inode q = d.inode q := by
  unfold create
  cases hp : d.inode p with
  | some i => rfl
  | none =>
    have hbeq : (q == p) = false := beq_eq_false_iff_ne.mpr hpq
    simp [inode, lookup_cons, hbeq]

theorem file_create_ne (h : d.Sound) (hpq : q ≠ p) : (d.create p).file q = d.file q := by
  unfold file
  rw [inode_create_ne hpq]
  cases hq : d.inode q with
  | none => rfl
  | some i =>
    have hlt := h.lt _ (mem_of_inode hq)
    unfold create
    cases hp : d.inode p with
    | some j => rfl
    | none => simp [getElem?_append_left hlt]

/-- A path that has no file gets an empty one; the file of one that has is kept. -/
theorem file_create_self (h : d.Sound) : (d.create p).file p = some ((d.file p).getD ⟨[], 0⟩) := by
  unfold file
  cases hp : d.inode p with
  | some i =>
    have hlt := h.lt _ (mem_of_inode hp)
    simp [create, hp, getElem?_eq_getElem hlt]
  | none =>
    have hcreate : d.create p =
        { d with files := d.files ++ [⟨[], 0⟩], live := (p, d.files.length) :: d.live } := by
      simp [create, hp]
    simp [hcreate, inode]

theorem file_modify_self : (d.modify p g).file p = (d.file p).map g := by
  unfold file
  rw [inode_modify]
  cases hp : d.inode p with
  | none => rfl
  | some i => simp [Disk.modify, hp, getElem?_modify]

theorem file_modify_ne (h : d.Sound) (hpq : q ≠ p) : (d.modify p g).file q = d.file q := by
  unfold file
  rw [inode_modify]
  cases hq : d.inode q with
  | none => rfl
  | some j =>
    cases hp : d.inode p with
    | none => simp [Disk.modify, hp]
    | some i =>
      have hne := h.inode_ne hp hq (Ne.symm hpq)
      simp [Disk.modify, hp, getElem?_modify, hne]

theorem isSome_of_read (h : (d.read p).isSome = true) : (d.inode p).isSome = true := by
  cases hp : d.inode p with
  | none => simp [read, file, hp] at h
  | some i => rfl

theorem read_create_self (h : d.Sound) : (d.create p).read p = some ((d.read p).getD []) := by
  unfold read
  rw [file_create_self h]
  cases d.file p <;> rfl

theorem read_create_ne (h : d.Sound) (hpq : q ≠ p) : (d.create p).read q = d.read q :=
  congrArg (Option.map data) (file_create_ne h hpq)

theorem read_append_self : (d.append p bs).read p = (d.read p).map (· ++ bs) := by
  unfold read append
  rw [file_modify_self]
  cases d.file p <;> rfl

theorem read_modify_ne (h : d.Sound) (hpq : q ≠ p) : (d.modify p g).read q = d.read q :=
  congrArg (Option.map data) (file_modify_ne h hpq)

/-- A sync changes the bytes of no file. -/
theorem read_sync : (d.sync p).read q = d.read q := by
  unfold read file sync
  rw [inode_modify]
  cases hq : d.inode q with
  | none => rfl
  | some j =>
    unfold Disk.modify
    cases hp : d.inode p with
    | none => rfl
    | some i =>
      simp only [bind_some, getElem?_modify]
      cases d.files[j]? with
      | none => rfl
      | some f =>
        by_cases hij : i = j
        · simp [hij]
        · simp [hij]

@[simp] theorem durable_modify : (d.modify p g).durable = d.durable := by
  unfold Disk.modify
  split <;> rfl

@[simp] theorem durable_create : (d.create p).durable = d.durable := by
  unfold create
  split <;> rfl

theorem create_of_isSome (h : (d.inode p).isSome = true) : d.create p = d := by
  obtain ⟨i, hi⟩ := isSome_iff_exists.mp h
  simp [create, hi]

/-- A name whose file is there can be read. -/
theorem Sound.isSome_read (h : d.Sound) : (d.read p).isSome = (d.inode p).isSome := by
  unfold read file
  cases hp : d.inode p with
  | none => rfl
  | some i =>
    have hlt := h.lt _ (mem_of_inode hp)
    simp [getElem?_eq_getElem hlt]

theorem lookup_filter (h : ∀ i, keep (q, i) = true) (l : List (π × ℕ)) :
    (l.filter keep).lookup q = l.lookup q := by
  induction l with
  | nil => rfl
  | cons e l ih =>
    rcases eq_or_ne q e.1 with rfl | hne
    · have hkeep : keep e = true := h e.2
      rw [filter_cons_of_pos hkeep, lookup_cons, lookup_cons, ih]
    · have hbeq : (q == e.1) = false := beq_eq_false_iff_ne.mpr hne
      cases hkeep : keep e with
      | true => rw [filter_cons_of_pos hkeep, lookup_cons, lookup_cons, ih]
      | false => rw [filter_cons_of_neg (by simp [hkeep]), lookup_cons, hbeq, ih]

theorem lookup_filter_of_dropped (h : ∀ i, keep (q, i) = false)
    (l : List (π × ℕ)) : (l.filter keep).lookup q = none := by
  rw [lookup_eq_none_iff]
  intro e he
  obtain ⟨-, hkeep⟩ := mem_filter.mp he
  refine bne_iff_ne.mpr ?_
  rintro rfl
  cases (h e.2).symm.trans hkeep

theorem inode_remove_self : (d.remove p).inode p = none := lookup_filter_of_dropped (by simp) _

theorem inode_remove_ne (hpq : q ≠ p) : (d.remove p).inode q = d.inode q :=
  lookup_filter (by simpa using hpq) _

theorem file_remove_ne (hpq : q ≠ p) : (d.remove p).file q = d.file q := by
  unfold file
  rw [inode_remove_ne hpq]
  rfl

theorem Sound.remove (h : d.Sound) : (d.remove p).Sound :=
  ⟨h.nodup.sublist (filter_sublist.map _), fun e he => h.lt e (mem_filter.mp he).1⟩

theorem rename_of_inode (hp : d.inode p = some i) : d.rename p q =
    { d with live := (q, i) :: d.live.filter fun e => e.1 ≠ p ∧ e.1 ≠ q } := by
  simp [rename, hp]

/-- The file has its new name afterwards. -/
theorem inode_rename_target (hp : d.inode p = some i) : (d.rename p q).inode q = some i := by
  rw [rename_of_inode hp]
  simp [inode]

theorem inode_rename_ne {r : π} (hrp : r ≠ p) (hrq : r ≠ q) :
    (d.rename p q).inode r = d.inode r := by
  cases hp : d.inode p with
  | none => simp [rename, hp]
  | some i =>
    have hbeq : (r == q) = false := beq_eq_false_iff_ne.mpr hrq
    rw [rename_of_inode hp, inode, lookup_cons, hbeq]
    exact lookup_filter (by simp [hrp, hrq]) _

theorem files_rename : (d.rename p q).files = d.files := by
  unfold rename
  split <;> rfl

@[simp] theorem durable_rename : (d.rename p q).durable = d.durable := by
  unfold rename
  split <;> rfl

theorem file_rename_target (hp : d.inode p = some i) : (d.rename p q).file q = d.file p := by
  rw [file, file, inode_rename_target hp, hp, files_rename]

theorem file_rename_ne {r : π} (hrp : r ≠ p) (hrq : r ≠ q) : (d.rename p q).file r = d.file r := by
  rw [file, file, inode_rename_ne hrp hrq, files_rename]

theorem read_rename_target (hp : d.inode p = some i) : (d.rename p q).read q = d.read p :=
  congrArg (Option.map data) (file_rename_target hp)

theorem read_rename_ne {r : π} (hrp : r ≠ p) (hrq : r ≠ q) : (d.rename p q).read r = d.read r :=
  congrArg (Option.map data) (file_rename_ne hrp hrq)

theorem Sound.rename (h : d.Sound) : (d.rename p q).Sound := by
  cases hp : d.inode p with
  | none => simpa [Disk.rename, hp] using h
  | some i =>
    rw [rename_of_inode hp]
    constructor
    · refine nodup_cons.mpr ⟨?_, h.nodup.sublist (filter_sublist.map _)⟩
      intro hmem
      obtain ⟨e, he, heq⟩ := mem_map.mp hmem
      obtain ⟨hlive, hkeep⟩ := mem_filter.mp he
      have hname := congrArg Prod.fst (inj_on_of_nodup_map h.nodup hlive (mem_of_inode hp) heq)
      simp at hkeep
      exact hkeep.1 hname
    · intro e he
      rcases mem_cons.mp he with rfl | he
      · exact h.lt (p, i) (mem_of_inode hp)
      · exact h.lt e (mem_filter.mp he).1

/-- The file's name has been on stable storage since the file was created. -/
def Settled (d : Disk π τ) (p : π) : Prop := ∃ i, d.inode p = some i ∧ (p, i) ∈ d.durable

theorem Settled.remove {r : π} (h : d.Settled r) (hrp : r ≠ p) : (d.remove p).Settled r := by
  obtain ⟨i, hi, hmem⟩ := h
  exact ⟨i, (inode_remove_ne hrp).trans hi, hmem⟩

theorem Settled.rename {r : π} (h : d.Settled r) (hrp : r ≠ p) (hrq : r ≠ q) :
    (d.rename p q).Settled r := by
  obtain ⟨i, hi, hmem⟩ := h
  exact ⟨i, (inode_rename_ne hrp hrq).trans hi, by rwa [durable_rename]⟩

/-- The bytes are in the file, and they are synced. -/
def Stored (d : Disk π τ) (p : π) (bs : List τ) : Prop :=
  ∃ f, d.file p = some f ∧ bs <:+: f.data.take f.synced

/-- What stable storage holds of a disk it still holds later. -/
structure Keeps (d d' : Disk π τ) : Prop where
  settled : ∀ p, d.Settled p → d'.Settled p
  stored : ∀ p bs, d.Stored p bs → d'.Stored p bs

theorem Keeps.refl (d : Disk π τ) : Keeps d d := ⟨fun _ h => h, fun _ _ h => h⟩

theorem Keeps.trans {d' d'' : Disk π τ} (h : Keeps d d') (h' : Keeps d' d'') : Keeps d d'' :=
  ⟨fun p hp => h'.settled p (h.settled p hp), fun p bs hp => h'.stored p bs (h.stored p bs hp)⟩

theorem keeps_create (h : d.Sound) : Keeps d (d.create p) := by
  constructor
  · rintro q ⟨i, hi, hmem⟩
    rcases eq_or_ne q p with rfl | hne
    · rw [create_of_isSome (hi ▸ rfl)]
      exact ⟨i, hi, hmem⟩
    · exact ⟨i, (inode_create_ne hne).trans hi, by rwa [durable_create]⟩
  · rintro q bs ⟨f, hf, hin⟩
    rcases eq_or_ne q p with rfl | hne
    · exact ⟨f, by rw [file_create_self h, hf]; rfl, hin⟩
    · exact ⟨f, (file_create_ne h hne).trans hf, hin⟩

theorem keeps_modify (h : d.Sound)
    (hg : ∀ f : DiskFile τ, f.data.take f.synced <+: (g f).data.take (g f).synced) :
    Keeps d (d.modify p g) := by
  constructor
  · rintro q ⟨i, hi, hmem⟩
    exact ⟨i, inode_modify.trans hi, by rwa [durable_modify]⟩
  · rintro q bs ⟨f, hf, hin⟩
    rcases eq_or_ne q p with rfl | hne
    · exact ⟨g f, by rw [file_modify_self, hf]; rfl, hin.trans (hg f).isInfix⟩
    · exact ⟨f, (file_modify_ne h hne).trans hf, hin⟩

theorem keeps_append (h : d.Sound) : Keeps d (d.append p bs) := by
  apply keeps_modify h
  intro f
  rw [take_append]
  exact prefix_append _ _

theorem keeps_sync (h : d.Sound) : Keeps d (d.sync p) := by
  apply keeps_modify h
  intro f
  rw [take_length]
  exact take_prefix _ _

theorem keeps_syncDir : Keeps d (d.syncDir inDir) := by
  constructor
  · rintro q ⟨i, hi, hmem⟩
    refine ⟨i, hi, mem_append.mpr ?_⟩
    cases hin : inDir q with
    | true => exact Or.inl (mem_filter.mpr ⟨mem_of_inode hi, hin⟩)
    | false => exact Or.inr (mem_filter.mpr ⟨hmem, by simp [hin]⟩)
  · intro q bs h
    exact h

/-- A directory's sync settles every file in it. -/
theorem settled_syncDir (hp : (d.inode p).isSome = true) (hin : inDir p = true) :
    (d.syncDir inDir).Settled p := by
  obtain ⟨i, hi⟩ := isSome_iff_exists.mp hp
  exact ⟨i, hi, mem_append_left _ (mem_filter.mpr ⟨mem_of_inode hi, hin⟩)⟩

/-- As many files as names that can be read. -/
theorem length_le_of_readable {ps : List π} (hnd : ps.Nodup)
    (h : ∀ p ∈ ps, (d.read p).isSome = true) : ps.length ≤ d.live.length := by
  have hsub : ps ⊆ d.live.map Prod.fst := by
    intro p hp
    obtain ⟨i, hi⟩ := isSome_iff_exists.mp (isSome_of_read (h p hp))
    exact mem_map_of_mem (mem_of_inode hi)
  have hle := (hnd.subperm hsub).length_le
  rwa [length_map] at hle

end Disk
