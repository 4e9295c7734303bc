import AxisBridge.Lib.Disk

/-! Sequences of operations on the files of one directory, and what survives a loss of power at any
point of one. -/
namespace Disk
open List

inductive Op (π τ : Type)
  | create (p : π)
  | remove (p : π)
  | append (p : π) (bs : List τ)
  | sync (p : π)
  | syncDir (inDir : π → Bool)
  | rename (p q : π)

/-! ### One directory -/

section
variable {π τ : Type} {d : Disk π τ} {p : π} {i n : ℕ} {entries : List (π × ℕ)} {inDir : π → Bool}

/-- Entries of one directory: no name twice, no file twice, and every file there. -/
structure Directory (inDir : π → Bool) (n : ℕ) (entries : List (π × ℕ)) : Prop where
  names : (entries.map Prod.fst).Nodup
  nodup : (entries.map Prod.snd).Nodup
  lt : ∀ e ∈ entries, e.2 < n
  within : ∀ e ∈ entries, inDir e.1 = true

/-- All files lie in one directory, those in force and those on stable storage. -/
structure Tidy (inDir : π → Bool) (d : Disk π τ) : Prop where
  live : Directory inDir d.files.length d.live
  durable : Directory inDir d.files.length d.durable

/-- The operation makes names of the directory only, and syncs no other. -/
def Op.Within (inDir : π → Bool) : Op π τ → Prop
  | .create p => inDir p = true
  | .rename _ q => inDir q = true
  | .syncDir inDir' => inDir' = inDir
  | _ => True

theorem Directory.nil : Directory inDir n ([] : List (π × ℕ)) := ⟨.nil, .nil, nofun, nofun⟩

theorem Directory.sublist (h : Directory inDir n entries) {entries' : List (π × ℕ)}
    (hsub : entries'.Sublist entries) : Directory inDir n entries' :=
  ⟨h.names.sublist (hsub.map _), h.nodup.sublist (hsub.map _), fun e he => h.lt e (hsub.subset he),
    fun e he => h.within e (hsub.subset he)⟩

theorem Directory.mono (h : Directory inDir n entries) {n' : ℕ} (hle : n ≤ n') :
    Directory inDir n' entries :=
  ⟨h.names, h.nodup, fun e he => lt_of_lt_of_le (h.lt e he) hle, h.within⟩

theorem Directory.cons (h : Directory inDir n entries) (hname : ∀ e ∈ entries, e.1 ≠ p)
    (hfile : ∀ e ∈ entries, e.2 ≠ i) (hi : i < n) (hp : inDir p = true) :
    Directory inDir n ((p, i) :: entries) := by
  constructor
  · refine nodup_cons.mpr ⟨?_, h.names⟩
    intro hmem
    obtain ⟨e, he, heq⟩ := mem_map.mp hmem
    exact hname e he heq
  · refine nodup_cons.mpr ⟨?_, h.nodup⟩
    intro hmem
    obtain ⟨e, he, heq⟩ := mem_map.mp hmem
    exact hfile e he heq
  · intro e he
    rcases mem_cons.mp he with rfl | he
    · exact hi
    · exact h.lt e he
  · intro e he
    rcases mem_cons.mp he with rfl | he
    · exact hp
    · exact h.within e he

theorem Tidy.empty : Tidy inDir (Disk.empty : Disk π τ) := ⟨.nil, .nil⟩

theorem Tidy.sound (h : Tidy inDir d) : d.Sound := ⟨h.live.nodup, h.live.lt⟩

/-- A sync of the directory puts its entries on stable storage, and no others stay there. -/
theorem Tidy.durable_syncDir (h : Tidy inDir d) : (d.syncDir inDir).durable = d.live := by
  have hlive : d.live.filter (inDir ·.1) = d.live := filter_eq_self.mpr h.live.within
  have hdurable : d.durable.filter (!inDir ·.1) = [] := by
    refine filter_eq_nil_iff.mpr fun e he => ?_
    simp [h.durable.within e he]
  simp [Disk.syncDir, hlive, hdurable]

theorem Tidy.syncDir (h : Tidy inDir d) : Tidy inDir (d.syncDir inDir) :=
  ⟨h.live, h.durable_syncDir ▸ h.live⟩

theorem Tidy.crash (h : Tidy inDir d) : Tidy inDir d.crash := by
  have hlen : d.crash.files.length = d.files.length := by simp [Disk.crash]
  constructor
  · rw [hlen]
    exact h.durable
  · rw [hlen]
    exact h.durable

end

variable {π τ : Type} [DecidableEq π]

def apply (d : Disk π τ) : Op π τ → Disk π τ
  | .create p => d.create p
  | .remove p => d.remove p
  | .append p bs => d.append p bs
  | .sync p => d.sync p
  | .syncDir inDir => d.syncDir inDir
  | .rename p q => d.rename p q

def run (d : Disk π τ) (ops : List (Op π τ)) : Disk π τ := ops.foldl apply d

variable {d : Disk π τ} {p q : π} {bs : List τ} {i n : ℕ} {op : Op π τ} {ops ops' : List (Op π τ)}
  {entries : List (π × ℕ)} {inDir : π → Bool} {names : π → Prop}

@[simp] theorem run_nil : d.run [] = d := rfl

@[simp] theorem run_cons : d.run (op :: ops) = (d.apply op).run ops := rfl

theorem run_append : d.run (ops ++ ops') = (d.run ops).run ops' := foldl_append

theorem Sound.apply (h : d.Sound) (op : Op π τ) : (d.apply op).Sound := by
  cases op with
  | create p => exact h.create
  | remove p => exact h.remove
  | append p bs => exact h.modify
  | sync p => exact h.modify
  | syncDir inDir => exact h.syncDir
  | rename p q => exact h.rename

theorem Sound.run (h : d.Sound) (ops : List (Op π τ)) : (d.run ops).Sound := by
  induction ops generalizing d with
  | nil => exact h
  | cons op ops ih => exact ih (h.apply op)

theorem Directory.lookup (h : Directory inDir n entries) (hmem : (p, i) ∈ entries) :
    entries.lookup p = some i := by
  cases hlookup : entries.lookup p with
  | none =>
    have hne := lookup_eq_none_iff.mp hlookup _ hmem
    simp at hne
  | some j =>
    obtain ⟨before, after, heq, -⟩ := lookup_eq_some_iff.mp hlookup
    have hsame := inj_on_of_nodup_map h.names hmem (show (p, j) ∈ entries by simp [heq]) rfl
    cases hsame
    rfl

/-- A settled file keeps its name through a loss of power, and what it had synced. -/
theorem Tidy.inode_crash (h : Tidy inDir d) (hp : (p, i) ∈ d.durable) : d.crash.inode p = some i :=
  h.durable.lookup hp

theorem Settled.crash (htidy : Tidy inDir d) (h : d.Settled p) : d.crash.Settled p := by
  obtain ⟨i, -, hmem⟩ := h
  exact ⟨i, htidy.inode_crash hmem, hmem⟩

theorem Stored.crash (htidy : Tidy inDir d) (hsettled : d.Settled p) (h : d.Stored p bs) :
    d.crash.Stored p bs := by
  obtain ⟨i, hi, hmem⟩ := hsettled
  obtain ⟨f, hf, hin⟩ := h
  have hfile : d.files[i]? = some f := by simpa [Disk.file, hi] using hf
  refine ⟨⟨f.data.take f.synced, f.synced⟩, ?_, ?_⟩
  · rw [Disk.file, htidy.inode_crash hmem]
    simp [Disk.crash, hfile]
  · rw [take_take, Nat.min_self]
    exact hin

theorem Stored.read (h : d.Stored p bs) : ∃ data, d.read p = some data ∧ bs <:+: data := by
  obtain ⟨f, hf, hin⟩ := h
  refine ⟨f.data, ?_, hin.trans (List.take_prefix _ _).isInfix⟩
  simp [Disk.read, hf]

variable {g : DiskFile τ → DiskFile τ}

theorem length_files_modify : (d.modify p g).files.length = d.files.length := by
  unfold Disk.modify
  split <;> simp

theorem live_modify : (d.modify p g).live = d.live := by
  unfold Disk.modify
  split <;> rfl

theorem Tidy.modify (h : Tidy inDir d) : Tidy inDir (d.modify p g) := by
  constructor
  · rw [length_files_modify, live_modify]
    exact h.live
  · rw [length_files_modify, durable_modify]
    exact h.durable

theorem ne_of_inode_eq_none (hp : d.inode p = none) : ∀ e ∈ d.live, e.1 ≠ p := by
  rintro e he rfl
  have hne := lookup_eq_none_iff.mp hp e he
  simp at hne

theorem Tidy.create (h : Tidy inDir d) (hp : inDir p = true) : Tidy inDir (d.create p) := by
  unfold Disk.create
  cases hinode : d.inode p with
  | some i => exact h
  | none =>
    have hlen : d.files.length ≤ (d.files ++ [(⟨[], 0⟩ : DiskFile τ)]).length := by simp
    have hlt : d.files.length < (d.files ++ [(⟨[], 0⟩ : DiskFile τ)]).length := by simp
    refine ⟨(h.live.mono hlen).cons (ne_of_inode_eq_none hinode) ?_ hlt hp, h.durable.mono hlen⟩
    intro e he
    exact (h.live.lt e he).ne

theorem Tidy.remove (h : Tidy inDir d) : Tidy inDir (d.remove p) :=
  ⟨h.live.sublist filter_sublist, h.durable⟩

theorem Tidy.rename (h : Tidy inDir d) (hq : inDir q = true) : Tidy inDir (d.rename p q) := by
  cases hp : d.inode p with
  | none => simpa [Disk.rename, hp] using h
  | some i =>
    rw [rename_of_inode hp]
    refine ⟨(h.live.sublist filter_sublist).cons ?_ ?_ (h.live.lt _ (mem_of_inode hp)) hq,
      h.durable⟩
    · intro e he
      have hkeep := (mem_filter.mp he).2
      simp at hkeep
      exact hkeep.2
    · rintro e he heq
      obtain ⟨hlive, hkeep⟩ := mem_filter.mp he
      have hname := congrArg Prod.fst (inj_on_of_nodup_map h.live.nodup hlive (mem_of_inode hp) heq)
      simp at hkeep
      exact hkeep.1 hname

theorem Tidy.apply (h : Tidy inDir d) (hop : op.Within inDir) : Tidy inDir (d.apply op) := by
  cases op with
  | create p => exact h.create hop
  | remove p => exact h.remove
  | append p bs => exact h.modify
  | sync p => exact h.modify
  | syncDir inDir' => exact (show inDir' = inDir from hop) ▸ h.syncDir
  | rename p q => exact h.rename hop

theorem Tidy.run (h : Tidy inDir d) (hops : ∀ op ∈ ops, op.Within inDir) :
    Tidy inDir (d.run ops) := by
  induction ops generalizing d with
  | nil => exact h
  | cons op ops ih =>
    obtain ⟨hop, hops⟩ := forall_mem_cons.mp hops
    exact ih (h.apply hop) hops

/-! ### What a loss of power cannot take -/

/-- A file has the bytes and has synced them; one of the names is its name now, one was when the
directory was last synced. -/
structure Holds (d : Disk π τ) (names : π → Prop) (bs : List τ) (f : DiskFile τ) (i : ℕ) (p q : π) :
    Prop where
  file : d.files[i]? = some f
  stored : bs <:+: f.data.take f.synced
  name : names p
  inode : d.inode p = some i
  durableName : names q
  durable : (q, i) ∈ d.durable

def Held (d : Disk π τ) (names : π → Prop) (bs : List τ) : Prop :=
  ∃ f i p q, d.Holds names bs f i p q

/-- The operation takes neither the bytes of a file under these names nor its last name. -/
def Op.Spares (d : Disk π τ) (names : π → Prop) : Op π τ → Prop
  | .remove p => ¬ names p
  | .rename p q => (names p → names q) ∧ (names q → d.inode q = none)
  | .syncDir inDir => ∀ p, names p → inDir p = true
  | _ => True

/-- The operation is no sync of a directory. -/
def Op.SyncsNoDir : Op π τ → Prop
  | .syncDir _ => False
  | _ => True

theorem stored_modify {f : DiskFile τ} (hfile : d.files[i]? = some f)
    (hg : ∀ f : DiskFile τ, f.data.take f.synced <+: (g f).data.take (g f).synced) :
    ∃ f', (d.modify p g).files[i]? = some f' ∧ f.data.take f.synced <+: f'.data.take f'.synced := by
  unfold Disk.modify
  split
  · rename_i j hj
    simp only [getElem?_modify, hfile]
    by_cases hij : j = i
    · exact ⟨g f, by simp [hij], hg f⟩
    · exact ⟨f, by simp [hij], prefix_refl _⟩
  · exact ⟨f, hfile, prefix_refl _⟩

/-- The files of a disk stay where they are, and keep what they have synced. -/
theorem stored_apply {f : DiskFile τ} (hfile : d.files[i]? = some f) (op : Op π τ) :
    ∃ f', (d.apply op).files[i]? = some f' ∧ f.data.take f.synced <+: f'.data.take f'.synced := by
  cases op with
  | create p =>
    have hlt : i < d.files.length := (List.getElem?_eq_some_iff.mp hfile).1
    refine ⟨f, ?_, prefix_refl _⟩
    simp only [Disk.apply, Disk.create]
    split
    · exact hfile
    · exact (getElem?_append_left hlt).trans hfile
  | remove p => exact ⟨f, hfile, prefix_refl _⟩
  | append p bs =>
    refine stored_modify hfile fun f => ?_
    rw [take_append]
    exact prefix_append _ _
  | sync p =>
    refine stored_modify hfile fun f => ?_
    rw [take_length]
    exact take_prefix _ _
  | syncDir inDir => exact ⟨f, hfile, prefix_refl _⟩
  | rename p q => exact ⟨f, by rw [Disk.apply, files_rename, hfile], prefix_refl _⟩

theorem durable_apply (hop : op.SyncsNoDir) : (d.apply op).durable = d.durable := by
  cases op with
  | create p => exact durable_create
  | remove p => rfl
  | append p bs => exact durable_modify
  | sync p => exact durable_modify
  | syncDir inDir => exact hop.elim
  | rename p q => exact durable_rename

/-- A file keeps one of its names. -/
theorem named_apply {r : π} (hname : names r) (hinode : d.inode r = some i)
    (hop : op.Spares d names) : ∃ r', names r' ∧ (d.apply op).inode r' = some i := by
  cases op with
  | create p =>
    refine ⟨r, hname, ?_⟩
    rcases eq_or_ne r p with rfl | hne
    · rw [Disk.apply, create_of_isSome (hinode ▸ rfl), hinode]
    · exact (inode_create_ne hne).trans hinode
  | remove p =>
    refine ⟨r, hname, (inode_remove_ne ?_).trans hinode⟩
    rintro rfl
    exact hop hname
  | append p bs => exact ⟨r, hname, inode_modify.trans hinode⟩
  | sync p => exact ⟨r, hname, inode_modify.trans hinode⟩
  | syncDir inDir => exact ⟨r, hname, hinode⟩
  | rename p q =>
    rcases eq_or_ne r p with rfl | hne
    · exact ⟨q, hop.1 hname, inode_rename_target hinode⟩
    · refine ⟨r, hname, (inode_rename_ne hne ?_).trans hinode⟩
      rintro rfl
      cases (hop.2 hname).symm.trans hinode

theorem held_apply (h : d.Held names bs) (hop : op.Spares d names) :
    (d.apply op).Held names bs := by
  obtain ⟨f, i, p', q', hh⟩ := h
  obtain ⟨f', hfile, hpre⟩ := stored_apply hh.file op
  obtain ⟨r, hname, hinode⟩ := named_apply hh.name hh.inode hop
  have hstored := hh.stored.trans hpre.isInfix
  have hdurable : ∃ q, names q ∧ (q, i) ∈ (d.apply op).durable := by
    by_cases hsync : op.SyncsNoDir
    · exact ⟨q', hh.durableName, by rw [durable_apply hsync]; exact hh.durable⟩
    · cases op with
      | syncDir inDir =>
        have hin : (p', i) ∈ d.live.filter (inDir ·.1) :=
          mem_filter.mpr ⟨mem_of_inode hh.inode, hop p' hh.name⟩
        exact ⟨p', hh.name, mem_append_left _ hin⟩
      | _ => exact (hsync trivial).elim
  obtain ⟨q, hq, hmem⟩ := hdurable
  exact ⟨f', i, r, q, hfile, hstored, hname, hinode, hq, hmem⟩

/-- Stable storage has the bytes, in a file that had one of the names when the directory was last
synced. -/
def Kept (d : Disk π τ) (names : π → Prop) (bs : List τ) : Prop :=
  ∃ f i q, d.files[i]? = some f ∧ bs <:+: f.data.take f.synced ∧ names q ∧ (q, i) ∈ d.durable

theorem Held.mono (h : d.Held names bs) {bs' : List τ} (hin : bs' <:+: bs) : d.Held names bs' := by
  obtain ⟨f, i, p', q', hh⟩ := h
  exact ⟨f, i, p', q', { hh with stored := hin.trans hh.stored }⟩

theorem Held.kept (h : d.Held names bs) : d.Kept names bs := by
  obtain ⟨f, i, p', q', hh⟩ := h
  exact ⟨f, i, q', hh.file, hh.stored, hh.durableName, hh.durable⟩

/-- Until the directory is synced again, stable storage loses nothing. -/
theorem Kept.run (h : d.Kept names bs) (hops : ∀ op ∈ ops, op.SyncsNoDir) :
    (d.run ops).Kept names bs := by
  induction ops generalizing d with
  | nil => exact h
  | cons op ops ih =>
    obtain ⟨f, i, q', hfile, hstored, hname, hdurable⟩ := h
    obtain ⟨f', hfile', hpre⟩ := stored_apply hfile op
    obtain ⟨hop, hops⟩ := forall_mem_cons.mp hops
    refine ih ⟨f', i, q', hfile', hstored.trans hpre.isInfix, hname, ?_⟩ hops
    rwa [durable_apply hop]

/-- What stable storage has is there after a loss of power. -/
theorem Kept.crash (htidy : Tidy inDir d) (h : d.Kept names bs) : d.crash.Held names bs := by
  obtain ⟨f, i, q', hfile, hstored, hname, hdurable⟩ := h
  refine ⟨⟨f.data.take f.synced, f.synced⟩, i, q', q', ?_, ?_, hname, htidy.durable.lookup hdurable,
    hname, hdurable⟩
  · simp [Disk.crash, hfile]
  · rw [take_take, Nat.min_self]
    exact hstored

/-- Each of the operations spares the bytes where it is made. -/
def SparesAll (names : π → Prop) : Disk π τ → List (Op π τ) → Prop
  | _, [] => True
  | d, op :: ops => op.Spares d names ∧ SparesAll names (d.apply op) ops

theorem sparesAll_append :
    SparesAll names d (ops ++ ops') ↔ SparesAll names d ops ∧ SparesAll names (d.run ops) ops' := by
  induction ops generalizing d with
  | nil => simp [SparesAll]
  | cons op ops ih => simp [SparesAll, ih, and_assoc]

theorem Held.run (h : d.Held names bs) (hspares : SparesAll names d ops) :
    (d.run ops).Held names bs := by
  induction ops generalizing d with
  | nil => exact h
  | cons op ops ih => exact ih (held_apply h hspares.1) hspares.2

theorem SparesAll.initial (h : SparesAll names d ops) (hpre : ops' <+: ops) :
    SparesAll names d ops' := by
  obtain ⟨rest, rfl⟩ := hpre
  exact (sparesAll_append.mp h).1

/-- Held bytes can be read under one of the names. -/
theorem Held.read (h : d.Held names bs) :
    ∃ p data, names p ∧ d.read p = some data ∧ bs <:+: data := by
  obtain ⟨f, i, p, q, hh⟩ := h
  refine ⟨p, f.data, hh.name, ?_, hh.stored.trans (List.take_prefix _ _).isInfix⟩
  simp [Disk.read, Disk.file, hh.inode, hh.file]

end Disk
