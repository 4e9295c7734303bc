import AxisBridge.Runtime.GpuPut
import AxisBridge.Runtime.GpuSearch

/-! The rows of B and their set on the device: after any syncs the set has the entries of B and no
others. -/
namespace AxisBridge.Gpu
open Option List Function

variable {cap m first x n mask : ℕ} {P P' : Key → UInt64 → Prop} {keyOf : ℕ → Key}
  {s₀ s s' : BseenMemory} {here : ℕ → Option BseenThread} {l : BseenThread} {t t' : VTable}
  {ks : List Key} {held : ℕ → Option Key} {at' : ℕ → Option Putter} {k : Key}

theorem le_nextPowerOfTwo (a : ℕ) : a ≤ nextPowerOfTwo a := Nat.le_pow_clog Nat.one_lt_two a

theorem isCap_nextPowerOfTwo (a : ℕ) : IsCap (nextPowerOfTwo a) := ⟨Nat.clog 2 a, rfl⟩

theorem Putting.weaken (hp : Putting cap P t at' held) (hP : ∀ k o, P k o → P' k o) :
    Putting cap P' t at' held :=
  ⟨hp.claims, fun hx => ⟨(hp.fits hx).1, hP _ _ (hp.fits hx).2⟩, fun h h2 => hP _ _ (hp.ord h h2)⟩

/-! ### A launch of bseen_add -/

/-- The put a thread is in. -/
def BseenThread.putter (keyOf : ℕ → Key) (l : BseenThread) : Option Putter :=
  match l.pc with
  | .put pc => some ⟨keyOf l.r, .ofNat l.r, pc⟩
  | .raise _ => none

def bseenPutters (keyOf : ℕ → Key) (here : ℕ → Option BseenThread) (x : ℕ) : Option Putter :=
  (here x).bind (BseenThread.putter keyOf)

theorem bseenPutters_at (hx : here x = some l) : bseenPutters keyOf here x = l.putter keyOf := by
  rw [bseenPutters, hx]
  rfl

theorem bseenPutters_update (r : Option BseenThread) :
    bseenPutters keyOf (update here x r) =
      update (bseenPutters keyOf here) x (r.bind (BseenThread.putter keyOf)) := by
  funext y
  by_cases he : y = x
  · subst he
    simp [bseenPutters]
  · simp only [bseenPutters, update_of_ne he]

/-- The row is in the set, or the pass is run again. -/
def BseenMemory.Settles (s : BseenMemory) (keyOf : ℕ → Key) (r : ℕ) : Prop :=
  HasPut s.bseen (keyOf r) (.ofNat r) ∨ s.flag .rerun = true

/-- A launch of bseen_add over the `m` rows from `first` on so far. -/
structure Adding (cap : ℕ) (P : Key → UInt64 → Prop) (keyOf : ℕ → Key) (first m : ℕ)
    (s₀ s : BseenMemory) (here : ℕ → Option BseenThread) : Prop where
  putting : ∃ held, Putting cap P s.bseen (bseenPutters keyOf here) held
  lowered : Lowered s₀.bseen s.bseen
  thread : ∀ {x l}, here x = some l → l.r = first + x ∧ ∀ bit, l.pc = .raise bit → bit = .rerun
  done : ∀ x < m, here x = none → s.Settles keyOf (first + x)

theorem Adding.go (ha : Adding cap P keyOf first m s₀ s here) (s' : BseenMemory)
    (r : Option BseenThread) (hx : here x = some l)
    (hputting : ∃ held, Putting cap P s'.bseen
      (update (bseenPutters keyOf here) x (r.bind (BseenThread.putter keyOf))) held)
    (hlow : Lowered s.bseen s'.bseen) (hflag : s.flag .rerun = true → s'.flag .rerun = true)
    (hnext : ∀ l', r = some l' → l'.r = l.r ∧ ∀ bit, l'.pc = .raise bit → bit = .rerun)
    (hdone : r = none → s'.Settles keyOf l.r) :
    Adding cap P keyOf first m s₀ s' (update here x r) := by
  obtain ⟨hl, _⟩ := ha.thread hx
  refine ⟨?_, ha.lowered.trans hlow, fun {y l'} hy => ?_, fun y hy hnone => ?_⟩
  · rw [bseenPutters_update]
    exact hputting
  · rw [update_apply] at hy
    split at hy
    · next he =>
      obtain ⟨hr, hbit⟩ := hnext l' hy
      exact ⟨hr.trans (he ▸ hl), hbit⟩
    · exact ha.thread hy
  · rw [update_apply] at hnone
    split at hnone
    · next he =>
      rw [he, ← hl]
      exact hdone hnone
    · exact (ha.done y hy hnone).imp (fun hp => hp.mono hlow) hflag

theorem Adding.step (ha : Adding cap P keyOf first m s₀ s here) (hcap : IsCap cap)
    (hks : ∀ k o, P k o → k ∈ ks) (hroom : ks.length < cap) (hx : here x = some l) :
    Adding cap P keyOf first m s₀ (bseenStep keyOf (cap - 1) s l).1
      (update here x (bseenStep keyOf (cap - 1) s l).2) := by
  obtain ⟨held, hp⟩ := ha.putting
  have hat : bseenPutters keyOf here x = l.putter keyOf := bseenPutters_at hx
  obtain ⟨r, pc⟩ := l
  cases pc with
  | put p =>
    obtain ⟨hlow, held', hp', hdone⟩ := hp.step hcap hat
    have hdone' : ∀ e, (putStep (cap - 1) (keyOf r) (.ofNat r) s.bseen p).2 = .inr e →
        Putter.Done cap (putStep (cap - 1) (keyOf r) (.ofNat r) s.bseen p).1 held'
          ⟨keyOf r, .ofNat r, p⟩ e := hdone
    simp only [bseenStep]
    generalize putStep (cap - 1) (keyOf r) (.ofNat r) s.bseen p = q at hlow hp' hdone' ⊢
    obtain ⟨bseen, q⟩ := q
    cases q with
    | inl pc =>
      refine ha.go { s with bseen } (some ⟨r, .put pc⟩) hx ⟨held', hp'⟩ hlow (fun hb => hb)
        (fun l' he => ?_) nofun
      cases he
      exact ⟨rfl, nofun⟩
    | inr e =>
      cases e with
      | slot h =>
        exact ha.go { s with bseen } none hx ⟨held', hp'⟩ hlow (fun hb => hb) nofun fun _ =>
          .inl (hdone' _ rfl)
      | full => exact absurd (hdone' _ rfl) (hp'.not_full hcap hks hroom)
      | retry =>
        refine ha.go { s with bseen } (some ⟨r, .raise .rerun⟩) hx ⟨held', hp'⟩ hlow (fun hb => hb)
          (fun l' he => ?_) nofun
        cases he
        refine ⟨rfl, fun bit he => ?_⟩
        cases he
        rfl
  | raise bit =>
    have hbit : bit = .rerun := (ha.thread hx).2 bit rfl
    subst hbit
    have hset := s.flag.fetchOr_self .rerun
    refine ha.go { s with flag := s.flag.fetchOr .rerun } none hx ⟨held, ?_⟩ (.refl _)
      (fun _ => hset) nofun fun _ => .inr hset
    rw [show update (bseenPutters keyOf here) x (none.bind (BseenThread.putter keyOf)) =
      bseenPutters keyOf here by rw [bind_none, ← show bseenPutters keyOf here x = none from hat,
        update_eq_self]]
    exact hp

theorem bseen_launch {bvec : ℕ → UInt32} {roles : ℕ → UInt32} {stride : ℕ} (hcap : IsCap cap)
    (hks : ∀ k o, P k o → k ∈ ks) (hroom : ks.length < cap)
    (hP : ∀ x < m, P (bseenKey bvec n first roles (first + x)) (.ofNat (first + x)))
    (hput : ∃ held, Putting cap P s.bseen noPutter held)
    (hrun : (p5BseenAdd bvec n first roles (cap - 1)).Runs stride m s s') (hstride : 0 < stride) :
    (∃ held, Putting cap P s'.bseen noPutter held) ∧ Lowered s.bseen s'.bseen ∧
      ∀ x < m, s'.Settles (bseenKey bvec n first roles) (first + x) := by
  obtain ⟨held, hput⟩ := hput
  have hend := hrun.rule (I := Adding cap P (bseenKey bvec n first roles) first m s) hstride ?_
    fun ha hx => ha.step hcap hks hroom hx
  · exact ⟨hend.putting, hend.lowered, fun x hx => hend.done x hx rfl⟩
  · refine ⟨⟨held, hput.start fun x p hx => ?_⟩, .refl _, fun {x l} hx => ?_, fun x hx hnone => ?_⟩
    · obtain ⟨l, hl, hp⟩ := bind_eq_some_iff.mp hx
      obtain ⟨hlt, rfl⟩ := Kernel.starts_eq hl
      cases hp
      exact ⟨congrArg (PutPc.load · 0) (hcap.home _), hP x hlt⟩
    · obtain ⟨_, rfl⟩ := Kernel.starts_eq hx
      exact ⟨rfl, nofun⟩
    · exact absurd hnone (Kernel.starts_ne_none hx)

theorem bseenAdd_puts {bvec : ℕ → UInt32} {roles : ℕ → UInt32} {last : ℕ} (ks : List Key)
    (hcap : IsCap cap) (hks : ∀ k o, P k o → k ∈ ks) (hroom : ks.length < cap)
    (hP : ∀ r, first ≤ r → r < last → P (bseenKey bvec n first roles r) (.ofNat r))
    (hput : ∃ held, Putting cap P t noPutter held)
    (hadd : BseenAdd bvec n first last roles (cap - 1) t t') :
    (∃ held, Putting cap P t' noPutter held) ∧ Lowered t t' ∧
      ∀ r, first ≤ r → r < last → HasPut t' (bseenKey bvec n first roles r) (.ofNat r) := by
  have hstride : 0 < threads (last - first) := by
    unfold threads
    omega
  induction hadd with
  | last hrun hfull hrerun =>
    obtain ⟨hput', hlow, hsettles⟩ := bseen_launch hcap hks hroom
      (fun x hx => hP (first + x) (by omega) (by omega)) hput hrun hstride
    refine ⟨hput', hlow, fun r hle hlt => ?_⟩
    have hs := hsettles (r - first) (by omega)
    rw [Nat.add_sub_cancel' hle] at hs
    exact hs.resolve_right fun hr => by rw [hrerun] at hr; cases hr
  | again hrun hfull hrerun rest ih =>
    obtain ⟨hput', hlow, _⟩ := bseen_launch hcap hks hroom
      (fun x hx => hP (first + x) (by omega) (by omega)) hput hrun hstride
    obtain ⟨hput'', hlow', hall⟩ := ih hput'
    exact ⟨hput'', hlow.trans hlow', hall⟩

/-! ### The rows -/

/-- The key of an entry in the set. -/
def entryKey (roles : List String) (e : BEntry) : Key := tagged (roleId roles e.role).toUInt64 e.vec

theorem mem_enterRole_self (roles : List String) (role : String) : role ∈ enterRole roles role := by
  unfold enterRole
  split
  · assumption
  · exact mem_append_right _ (mem_singleton_self role)

theorem mem_enterRole {roles : List String} {role : String} (other : String) (h : role ∈ roles) :
    role ∈ enterRole roles other := by
  unfold enterRole
  split
  · exact h
  · exact mem_append_left _ h

/-- A role keeps its number. -/
theorem roleId_enterRole {roles : List String} {role : String} (other : String) (h : role ∈ roles) :
    roleId (enterRole roles other) role = roleId roles role := by
  unfold roleId enterRole
  split
  · rfl
  · rw [idxOf_append, if_pos h]

theorem entryKey_enterRole {roles : List String} {e : BEntry} (other : String)
    (h : e.role ∈ roles) : entryKey (enterRole roles other) e = entryKey roles e := by
  rw [entryKey, roleId_enterRole other h, entryKey]

theorem roleId_foldl {roles : List String} {role : String} (others : List String)
    (h : role ∈ roles) : roleId (others.foldl enterRole roles) role = roleId roles role := by
  induction others generalizing roles with
  | nil => rfl
  | cons other others ih =>
    rw [foldl_cons, ih (mem_enterRole other h), roleId_enterRole other h]

/-- What the host has of B is what its entries say. -/
structure HasRows (entries : List BEntry) (b : BSide) : Prop where
  host : b.bhost = entries.flatMap BEntry.vec
  nums : b.broles = entries.map fun e => roleId b.roles e.role
  known : ∀ e ∈ entries, e.role ∈ b.roles

theorem HasRows.read {entries : List BEntry} {b : BSide} (h : HasRows entries b) (e : BEntry) :
    HasRows (entries ++ [e]) (b.read e) := by
  refine ⟨?_, ?_, fun e' he => ?_⟩
  · show b.bhost ++ e.vec = _
    rw [h.host, flatMap_append, flatMap_singleton]
  · show b.broles ++ [roleId (enterRole b.roles e.role) e.role] = _
    rw [h.nums, map_append, map_singleton]
    refine congrArg (· ++ _) (map_congr_left fun e' he => ?_)
    exact (roleId_enterRole e.role (h.known e' he)).symm
  · rcases mem_append.mp he with he | he
    · exact mem_enterRole e.role (h.known e' he)
    · rw [mem_singleton.mp he]
      exact mem_enterRole_self b.roles e.role

theorem HasRows.readAll {entries : List BEntry} {b : BSide} (h : HasRows entries b)
    (more : List BEntry) : HasRows (entries ++ more) (more.foldl BSide.read b) := by
  induction more generalizing entries b with
  | nil => rwa [append_nil]
  | cons e more ih =>
    have := ih (h.read e)
    rwa [append_assoc] at this

/-- Reading entries leaves the set alone, and the roles their numbers. -/
theorem readAll_frame (b : BSide) (more : List BEntry) :
    (more.foldl BSide.read b).bseen = b.bseen ∧ (more.foldl BSide.read b).bcap = b.bcap ∧
      ∀ role ∈ b.roles, roleId (more.foldl BSide.read b).roles role = roleId b.roles role := by
  induction more generalizing b with
  | nil => exact ⟨rfl, rfl, fun _ _ => rfl⟩
  | cons e more ih =>
    obtain ⟨hbseen, hbcap, hroles⟩ := ih (b.read e)
    refine ⟨hbseen, hbcap, fun role hrole => ?_⟩
    exact (hroles role (mem_enterRole e.role hrole)).trans (roleId_enterRole e.role hrole)

theorem row_flatMap {entries : List BEntry} (hn : ∀ e ∈ entries, e.vec.length = n) {r : ℕ}
    {e : BEntry} (hr : entries[r]? = some e) :
    row (fun i => (entries.flatMap BEntry.vec).getD i 0) n r = e.vec := by
  induction entries generalizing r with
  | nil => cases hr
  | cons a entries ih =>
    have ha := hn a mem_cons_self
    cases r with
    | zero =>
      have hae : a = e := some.inj hr
      subst hae
      refine ext_getElem? fun i => ?_
      rw [row, getElem?_map, flatMap_cons]
      by_cases hi : i < n
      · rw [getElem?_range hi, map_some, zero_mul, zero_add,
          getD_eq_getElem?_getD, getElem?_append_left (by omega),
          getElem?_eq_getElem (by omega), getD_some]
      · rw [getElem?_eq_none (by rw [length_range]; omega), getElem?_eq_none (by omega)]
        rfl
    | succ r =>
      rw [← ih (fun e he => hn e (mem_cons_of_mem a he)) hr]
      refine map_congr_left fun i _ => ?_
      simp only
      rw [flatMap_cons, getD_eq_getElem?_getD, getElem?_append_right, ha, getD_eq_getElem?_getD]
      · congr 2
        rw [Nat.succ_mul]
        omega
      · rw [ha, Nat.succ_mul]
        omega

/-- A key of the set is that of some entry. -/
def EntryPut (roles : List String) (entries : List BEntry) (k : Key) (_ : UInt64) : Prop :=
  ∃ e ∈ entries, entryKey roles e = k

/-- What the engine has of B between two calls. -/
structure BSound (n : ℕ) (entries : List BEntry) (b : BSide) : Prop where
  sync : b.bsync = entries.length
  length : ∀ e ∈ entries, e.vec.length = n
  rows : HasRows entries b
  cap : IsCap b.bcap
  set : ∃ held, Putting b.bcap (EntryPut b.roles entries) b.bseen noPutter held
  put : ∀ e ∈ entries, ∃ o, HasPut b.bseen (entryKey b.roles e) o

theorem bsound_opened (n : ℕ) : BSound n [] .opened where
  sync := rfl
  length := fun _ he => absurd he not_mem_nil
  rows := ⟨rfl, rfl, fun _ he => absurd he not_mem_nil⟩
  cap := ⟨10, rfl⟩
  set := ⟨_, Putting.zeros 1024 _⟩
  put := fun _ he => absurd he not_mem_nil

theorem BSound.role {entries : List BEntry} {b : BSide} (h : BSound n entries b) (role : String) :
    BSound n entries { b with roles := enterRole b.roles role } := by
  have hkey : ∀ e ∈ entries, entryKey (enterRole b.roles role) e = entryKey b.roles e :=
    fun e he => entryKey_enterRole role (h.rows.known e he)
  refine ⟨h.sync, h.length, ⟨h.rows.host, ?_, fun e he => mem_enterRole role (h.rows.known e he)⟩,
    h.cap, ?_, fun e he => ?_⟩
  · show b.broles = _
    rw [h.rows.nums]
    exact map_congr_left fun e he => (roleId_enterRole role (h.rows.known e he)).symm
  · obtain ⟨held, hp⟩ := h.set
    refine ⟨held, hp.weaken ?_⟩
    rintro k o ⟨e, he, rfl⟩
    exact ⟨e, he, hkey e he⟩
  · show ∃ o, HasPut b.bseen (entryKey (enterRole b.roles role) e) o
    rw [hkey e he]
    exact h.put e he

/-- The key `bseen_add` puts for a row is that of the row's entry. -/
theorem HasRows.bseenKey_eq {entries : List BEntry} {b : BSide} (h : HasRows entries b)
    (hn : ∀ e ∈ entries, e.vec.length = n) {roles : ℕ → UInt32} {r : ℕ} {e : BEntry}
    (hr : entries[r]? = some e) (hroles : roles (r - first) = b.broles.getD r 0) :
    bseenKey b.bvec n first roles r = entryKey b.roles e := by
  have hrow : row b.bvec n r = e.vec := by
    rw [← row_flatMap hn hr, ← h.host]
    rfl
  rw [bseenKey, hrow, hroles, h.nums, getD_eq_getElem?_getD, getElem?_map, hr]
  rfl

theorem BSound.syncB {earlier entries : List BEntry} {b b' : BSide} (h : BSound n earlier b)
    (hgrows : earlier <+: entries) (hsync : SyncB n entries b b') : BSound n entries b' := by
  obtain ⟨more, rfl⟩ := hgrows
  have hdrop : (earlier ++ more).drop b.bsync = more := by
    rw [h.sync, drop_left]
  cases hsync with
  | same hlen =>
    rw [h.sync, length_append] at hlen
    have hnil : more = [] := length_eq_zero_iff.mp (by omega)
    rw [hnil, append_nil]
    exact h
  | @grown c t hlen hread hn hroom hadd =>
    rw [hdrop] at hread hn
    have hrows : HasRows (earlier ++ more) c := hread ▸ h.rows.readAll more
    have hlength : ∀ e ∈ earlier ++ more, e.vec.length = n := fun e he =>
      (mem_append.mp he).elim (h.length e) (hn e)
    have hkey : ∀ {r e}, (earlier ++ more)[r]? = some e →
        bseenKey c.bvec n 0 (fun i => c.broles.getD i 0) r = entryKey c.roles e := fun hr =>
      hrows.bseenKey_eq hlength hr rfl
    have hcap := isCap_nextPowerOfTwo ((earlier ++ more).length * 4)
    have hle := le_nextPowerOfTwo ((earlier ++ more).length * 4)
    obtain ⟨hput, _, hall⟩ := bseenAdd_puts
      (P := EntryPut c.roles (earlier ++ more)) ((earlier ++ more).map (entryKey c.roles)) hcap
      (fun k o ⟨e, he, hk⟩ => mem_map.mpr ⟨e, he, hk⟩) (by rw [length_map]; omega)
      (fun r _ hr => ⟨_, getElem_mem hr, (hkey (getElem?_eq_getElem hr)).symm⟩)
      ⟨_, Putting.zeros _ _⟩ hadd
    refine ⟨rfl, hlength, ⟨hrows.host, hrows.nums, hrows.known⟩, hcap, hput, fun e he => ?_⟩
    obtain ⟨r, hr⟩ := mem_iff_getElem?.mp he
    exact ⟨_, hkey hr ▸ hall r (Nat.zero_le r) (List.getElem?_eq_some_iff.mp hr).1⟩
  | @added c t hlen hread hn hroom hadd =>
    rw [hdrop] at hread hn
    have hrows : HasRows (earlier ++ more) c := hread ▸ h.rows.readAll more
    have hlength : ∀ e ∈ earlier ++ more, e.vec.length = n := fun e he =>
      (mem_append.mp he).elim (h.length e) (hn e)
    obtain ⟨hbseen, hbcap, hroles⟩ := readAll_frame b more
    rw [hread] at hbseen hbcap hroles
    have hkey : ∀ {r e}, b.bsync ≤ r → (earlier ++ more)[r]? = some e →
        bseenKey c.bvec n b.bsync (fun i => c.broles.getD (b.bsync + i) 0) r = entryKey c.roles e :=
      fun hle hr => hrows.bseenKey_eq hlength hr (by rw [Nat.add_sub_cancel' hle])
    have hsame : ∀ e ∈ earlier, entryKey c.roles e = entryKey b.roles e := fun e he => by
      rw [entryKey, hroles e.role (h.rows.known e he), entryKey]
    have hset :
        ∃ held, Putting b.bcap (EntryPut c.roles (earlier ++ more)) c.bseen noPutter held := by
      obtain ⟨held, hp⟩ := h.set
      rw [hbseen]
      refine ⟨held, hp.weaken ?_⟩
      rintro k o ⟨e, he, rfl⟩
      exact ⟨e, mem_append_left _ he, hsame e he⟩
    obtain ⟨hput, hlow, hall⟩ := bseenAdd_puts
      (P := EntryPut c.roles (earlier ++ more)) ((earlier ++ more).map (entryKey c.roles)) h.cap
      (fun k o ⟨e, he, hk⟩ => mem_map.mpr ⟨e, he, hk⟩)
      (by have := h.cap.pos; rw [length_map]; omega)
      (fun r hle hr => ⟨_, getElem_mem hr, (hkey hle (getElem?_eq_getElem hr)).symm⟩)
      hset hadd
    refine ⟨rfl, hlength, ⟨hrows.host, hrows.nums, hrows.known⟩, hbcap ▸ h.cap, hbcap ▸ hput,
      fun e he => ?_⟩
    obtain ⟨r, hr⟩ := mem_iff_getElem?.mp he
    have hr' := (List.getElem?_eq_some_iff.mp hr).1
    by_cases hle : b.bsync ≤ r
    · exact ⟨_, hkey hle hr ▸ hall r hle hr'⟩
    · have hearlier : e ∈ earlier := by
        rw [getElem?_append_left (by rw [← h.sync]; omega)] at hr
        exact mem_of_getElem? hr
      obtain ⟨o, ho⟩ := h.put e hearlier
      refine ⟨o, ?_⟩
      show HasPut t (entryKey c.roles e) o
      rw [hsame e hearlier]
      exact (hbseen ▸ ho).mono hlow

theorem bsound_synced {entries : List BEntry} {b : BSide} (h : Synced n entries b) :
    BSound n entries b := by
  induction h with
  | opened => exact bsound_opened n
  | sync h hgrows hsync ih => exact ih.syncB hgrows hsync
  | role h role ih => exact ih.role role

/-- A key is in the set just when it is that of an entry. -/
theorem BSound.vfind_isNone_iff {entries : List BEntry} {b : BSide} (h : BSound n entries b) :
    (vfind b.bseen (b.bcap - 1) k).isNone = true ↔ ∀ e ∈ entries, entryKey b.roles e ≠ k := by
  obtain ⟨held, hp⟩ := h.set
  have hc : Claims b.bcap b.bseen.keys resting held := hp.claims
  rw [isNone_iff_eq_none, vfind_eq_none_iff hc h.cap]
  constructor
  · rintro hnone e he rfl
    obtain ⟨o, g, hs, _⟩ := h.put e he
    exact hnone g hs
  · intro hne g hs
    have hheld := hc.held_of_shows hs
    obtain ⟨o, e, he, hk⟩ := hp.exists_ord h.cap hheld
    exact hne e he hk

end AxisBridge.Gpu
