import Mathlib.Data.Nat.Bitwise

/-! One shard of the sharded interner: the encoding of its handles, its slots, and the steps of the
thread that owns it. -/
namespace AxisBridge.Interner
open Function Option

def LOCAL_BITS : ℕ := 24

def LOCAL_MASK : ℕ := 2 ^ LOCAL_BITS - 1

/-- Slots of a block. -/
def BLOCK_LEN : ℕ := 4096

def pack (shard loc : ℕ) : ℕ := (shard <<< LOCAL_BITS % 2 ^ 32) ||| ((loc + 1) &&& LOCAL_MASK)

def unpack (handle : ℕ) : ℕ × ℕ :=
  (handle >>> LOCAL_BITS, ((handle &&& LOCAL_MASK) + 2 ^ 32 - 1) % 2 ^ 32)

inductive Slot
  | uninit
  | partly
  | written (text : String)

/-- The slots in their blocks, behind pointers, and what the owner keeps to itself: the map of the
texts it has, and how many there are. -/
structure ShardStorage where
  blocks : ℕ → Option ℕ
  heap : ℕ → ℕ → Slot
  allocated : ℕ
  committed : ℕ
  dedup : String → Option ℕ
  next : ℕ

def ShardStorage.new : ShardStorage := ⟨fun _ => none, fun _ _ => .uninit, 0, 0, fun _ => none, 0⟩

/-- A text in the queue of a shard, with the call that waits for its index. -/
structure Request where
  text : String
  call : ℕ

/-- Where the owner is in `get_or_insert`, for which request and at which index. -/
inductive Owner
  | idle
  | popped (req : Request)
  | assigned (req : Request) (loc : ℕ)
  | placed (req : Request) (loc : ℕ)
  | halfWritten (req : Request) (loc : ℕ)
  | written (req : Request) (loc : ℕ)
  | committed (req : Request) (loc : ℕ)
  | counted (req : Request) (loc : ℕ)
  | answering (req : Request) (loc : ℕ)
  | dead

structure Shard where
  storage : ShardStorage
  queue : List Request
  owner : Owner

def Shard.new : Shard := ⟨.new, [], .idle⟩

namespace ShardStorage

/-- The slot of an index, as far as its block is there. -/
def slotAt (st : ShardStorage) (loc : ℕ) : Slot :=
  match st.blocks (loc / BLOCK_LEN) with
  | none => .uninit
  | some a => st.heap a (loc % BLOCK_LEN)

/-- `Block::new_boxed`, under the block number of an index. -/
def allocate (st : ShardStorage) (loc : ℕ) : ShardStorage :=
  { st with
    blocks := update st.blocks (loc / BLOCK_LEN) (some st.allocated)
    heap := update st.heap st.allocated fun _ => .uninit
    allocated := st.allocated + 1 }

def setSlot (st : ShardStorage) (a loc : ℕ) (slot : Slot) : ShardStorage :=
  { st with heap := update st.heap a (update (st.heap a) (loc % BLOCK_LEN) slot) }

end ShardStorage

/-- A step of `shard_owner_loop`, up to the answer. -/
inductive OwnerStep : Shard → Shard → Prop
  | pop {st before req after} :
      OwnerStep ⟨st, before ++ req :: after, .idle⟩ ⟨st, before ++ after, .popped req⟩
  | hit {st queue req loc} (hdedup : st.dedup req.text = some loc) :
      OwnerStep ⟨st, queue, .popped req⟩ ⟨st, queue, .answering req loc⟩
  | assign {st queue req} (hdedup : st.dedup req.text = none) (hbudget : st.next < LOCAL_MASK) :
      OwnerStep ⟨st, queue, .popped req⟩ ⟨st, queue, .assigned req st.next⟩
  -- the assertion on the budget ends the thread
  | exhausted {st queue req} (hdedup : st.dedup req.text = none)
      (hbudget : ¬ st.next < LOCAL_MASK) : OwnerStep ⟨st, queue, .popped req⟩ ⟨st, queue, .dead⟩
  | allocate {st queue req loc} (hfirst : loc % BLOCK_LEN = 0) :
      OwnerStep ⟨st, queue, .assigned req loc⟩ ⟨st.allocate loc, queue, .placed req loc⟩
  | reuse {st queue req loc} (hfirst : loc % BLOCK_LEN ≠ 0) :
      OwnerStep ⟨st, queue, .assigned req loc⟩ ⟨st, queue, .placed req loc⟩
  | beginWrite {st queue req loc a} (hblock : st.blocks (loc / BLOCK_LEN) = some a) :
      OwnerStep ⟨st, queue, .placed req loc⟩ ⟨st.setSlot a loc .partly, queue, .halfWritten req loc⟩
  | endWrite {st queue req loc a} (hblock : st.blocks (loc / BLOCK_LEN) = some a) :
      OwnerStep ⟨st, queue, .halfWritten req loc⟩
        ⟨st.setSlot a loc (.written req.text), queue, .written req loc⟩
  | commit {st queue req loc} :
      OwnerStep ⟨st, queue, .written req loc⟩
        ⟨{ st with committed := loc + 1 }, queue, .committed req loc⟩
  | count {st queue req loc} :
      OwnerStep ⟨st, queue, .committed req loc⟩ ⟨{ st with next := loc + 1 }, queue,
        .counted req loc⟩
  | index {st queue req loc} :
      OwnerStep ⟨st, queue, .counted req loc⟩
        ⟨{ st with dedup := update st.dedup req.text (some loc) }, queue, .answering req loc⟩

variable {st st' : ShardStorage} {sh sh' : Shard} {shard loc i a : ℕ} {slot : Slot} {text : String}

/-! ### Handles -/

theorem pack_eq (hshard : shard < 256) (hloc : loc < LOCAL_MASK) :
    pack shard loc = shard * 2 ^ 24 + (loc + 1) := by
  have hlt : loc + 1 < 2 ^ 24 := by
    have hmask : LOCAL_MASK = 2 ^ 24 - 1 := rfl
    omega
  have hmod : (loc + 1) &&& LOCAL_MASK = loc + 1 := by
    rw [LOCAL_MASK, LOCAL_BITS, Nat.and_two_pow_sub_one_eq_mod, Nat.mod_eq_of_lt hlt]
  have hshift : shard <<< LOCAL_BITS % 2 ^ 32 = shard <<< 24 := by
    rw [LOCAL_BITS, Nat.shiftLeft_eq]
    omega
  rw [pack, hmod, hshift, ← Nat.shiftLeft_add_eq_or_of_lt hlt, Nat.shiftLeft_eq]

theorem pack_pos (hshard : shard < 256) (hloc : loc < LOCAL_MASK) : pack shard loc ≠ 0 := by
  rw [pack_eq hshard hloc]
  omega

theorem unpack_pack (hshard : shard < 256) (hloc : loc < LOCAL_MASK) :
    unpack (pack shard loc) = (shard, loc) := by
  have hlt : loc + 1 < 2 ^ 24 := by
    have hmask : LOCAL_MASK = 2 ^ 24 - 1 := rfl
    omega
  rw [pack_eq hshard hloc, unpack, LOCAL_MASK, LOCAL_BITS, Nat.and_two_pow_sub_one_eq_mod,
    Nat.shiftRight_eq_div_pow]
  refine Prod.ext ?_ ?_
  · dsimp only
    omega
  · dsimp only
    omega

/-! ### Slots and blocks -/

theorem place_inj (hblock : i / BLOCK_LEN = loc / BLOCK_LEN)
    (hslot : i % BLOCK_LEN = loc % BLOCK_LEN) : i = loc := by
  rw [← Nat.div_add_mod i BLOCK_LEN, hblock, hslot, Nat.div_add_mod]

/-- The first index of a block has none of the earlier ones in it. -/
theorem earlier_block (hfirst : loc % BLOCK_LEN = 0) (hi : i < loc) :
    i / BLOCK_LEN ≠ loc / BLOCK_LEN := by
  intro heq
  have hloc := Nat.div_add_mod loc BLOCK_LEN
  have hle := Nat.div_mul_le_self i BLOCK_LEN
  rw [hfirst, ← heq, mul_comm] at hloc
  omega

/-- Any other index has the first of its block before it. -/
theorem first_of_block (hfirst : loc % BLOCK_LEN ≠ 0) :
    ∃ i < loc, i / BLOCK_LEN = loc / BLOCK_LEN := by
  refine ⟨BLOCK_LEN * (loc / BLOCK_LEN), ?_, ?_⟩
  · have hloc := Nat.div_add_mod loc BLOCK_LEN
    omega
  · exact Nat.mul_div_cancel_left _ (Nat.zero_lt_succ _)

namespace ShardStorage

/-- Two blocks are never behind one pointer, and no pointer is newer than the newest. -/
structure Sound (st : ShardStorage) : Prop where
  lt : ∀ b a, st.blocks b = some a → a < st.allocated
  inj : ∀ b b' a, st.blocks b = some a → st.blocks b' = some a → b = b'

theorem Sound.new : ShardStorage.new.Sound := ⟨nofun, nofun⟩

theorem blocks_of_slotAt (h : st.slotAt i = .written text) :
    ∃ a, st.blocks (i / BLOCK_LEN) = some a ∧ st.heap a (i % BLOCK_LEN) = .written text := by
  unfold slotAt at h
  split at h
  · cases h
  · exact ⟨_, by assumption, h⟩

theorem slotAt_of_blocks (st : ShardStorage) (hblock : st.blocks (i / BLOCK_LEN) = some a) :
    st.slotAt i = st.heap a (i % BLOCK_LEN) := by
  simp only [slotAt, hblock]

theorem Sound.allocate (h : st.Sound) : (st.allocate loc).Sound := by
  constructor
  · intro b a hb
    simp only [ShardStorage.allocate, update_apply] at hb ⊢
    split at hb
    · cases hb
      omega
    · have hlt := h.lt b a hb
      omega
  · intro b b' a hb hb'
    simp only [ShardStorage.allocate, update_apply] at hb hb'
    split at hb <;> split at hb'
    · simp_all
    · cases hb
      exact absurd (h.lt b' _ hb') (lt_irrefl _)
    · cases hb'
      exact absurd (h.lt b _ hb) (lt_irrefl _)
    · exact h.inj b b' a hb hb'

theorem Sound.setSlot (h : st.Sound) : (st.setSlot a loc slot).Sound := ⟨h.lt, h.inj⟩

theorem blocks_allocate_ne (hne : i / BLOCK_LEN ≠ loc / BLOCK_LEN) :
    (st.allocate loc).blocks (i / BLOCK_LEN) = st.blocks (i / BLOCK_LEN) :=
  update_of_ne hne ..

theorem slotAt_allocate_ne (h : st.Sound) (hne : i / BLOCK_LEN ≠ loc / BLOCK_LEN) :
    (st.allocate loc).slotAt i = st.slotAt i := by
  unfold slotAt
  rw [blocks_allocate_ne hne]
  cases hblock : st.blocks (i / BLOCK_LEN) with
  | none => rfl
  | some a =>
    have hlt := h.lt _ a hblock
    have hheap : (st.allocate loc).heap a = st.heap a := update_of_ne hlt.ne ..
    exact congrFun hheap _

theorem slotAt_setSlot_self (hblock : st.blocks (loc / BLOCK_LEN) = some a) :
    (st.setSlot a loc slot).slotAt loc = slot := by
  rw [slotAt_of_blocks (st.setSlot a loc slot) hblock]
  simp [setSlot]

theorem slotAt_setSlot_ne (h : st.Sound) (hblock : st.blocks (loc / BLOCK_LEN) = some a)
    (hne : i ≠ loc) : (st.setSlot a loc slot).slotAt i = st.slotAt i := by
  cases hi : st.blocks (i / BLOCK_LEN) with
  | none => simp only [slotAt, setSlot, hi]
  | some a' =>
    rw [slotAt_of_blocks (st.setSlot a loc slot) hi, slotAt_of_blocks st hi]
    simp only [setSlot, update_apply]
    split
    · rename_i haddr
      subst haddr
      have hblocks := h.inj _ _ _ hi hblock
      exact update_of_ne (fun hslot => hne (place_inj hblocks hslot)) ..
    · rfl

/-- The slots that are committed stay, with their blocks. -/
structure Extends (st st' : ShardStorage) : Prop where
  committed : st.committed ≤ st'.committed
  blocks : ∀ i < st.committed, st'.blocks (i / BLOCK_LEN) = st.blocks (i / BLOCK_LEN)
  slots : ∀ i < st.committed, st'.slotAt i = st.slotAt i

theorem Extends.refl (st : ShardStorage) : st.Extends st := ⟨le_rfl, fun _ _ => rfl, fun _ _ => rfl⟩

theorem Extends.of_eq (hle : st.committed ≤ st'.committed) (hblocks : st'.blocks = st.blocks)
    (hheap : st'.heap = st.heap) : st.Extends st' := by
  refine ⟨hle, fun i _ => by rw [hblocks], fun i _ => ?_⟩
  simp only [slotAt, hblocks, hheap]

/-- The text is in its slot, and committed. -/
structure Holds (st : ShardStorage) (loc : ℕ) (text : String) : Prop where
  committed : loc < st.committed
  slot : st.slotAt loc = .written text

theorem Holds.extends_ (h : st.Holds loc text) (hext : st.Extends st') : st'.Holds loc text :=
  ⟨lt_of_lt_of_le h.committed hext.committed, (hext.slots loc h.committed).trans h.slot⟩

end ShardStorage

/-! ### The owner -/

/-- How many of the texts the map of the owner has. -/
def Shard.indexed (sh : Shard) : ℕ :=
  match sh.owner with
  | .counted _ loc => loc
  | _ => sh.storage.next

/-- The next index is not committed, and the text of the request is new. -/
structure Fresh (st : ShardStorage) (req : Request) (loc : ℕ) : Prop where
  next : loc = st.next
  committed : st.committed = loc
  new : st.dedup req.text = none
  budget : loc < LOCAL_MASK

/-- What holds of the slots between two steps of the owner. -/
def Shard.Phase (sh : Shard) : Prop :=
  match sh.owner with
  | .idle | .popped _ | .dead => sh.storage.committed = sh.storage.next
  | .assigned req loc => Fresh sh.storage req loc
  | .placed req loc | .halfWritten req loc =>
      Fresh sh.storage req loc ∧ sh.storage.blocks (loc / BLOCK_LEN) ≠ none
  | .written req loc => Fresh sh.storage req loc ∧ sh.storage.slotAt loc = .written req.text
  | .committed req loc =>
      loc = sh.storage.next ∧ sh.storage.committed = loc + 1 ∧ sh.storage.dedup req.text = none ∧
        sh.storage.slotAt loc = .written req.text
  | .counted req loc =>
      sh.storage.next = loc + 1 ∧ sh.storage.committed = loc + 1 ∧
        sh.storage.dedup req.text = none ∧ sh.storage.slotAt loc = .written req.text
  | .answering req loc => sh.storage.committed = sh.storage.next ∧ sh.storage.Holds loc req.text

/-- What is committed is written, and the map has the index of each text it counts. -/
structure Shard.Consistent (sh : Shard) : Prop where
  sound : sh.storage.Sound
  published : ∀ i < sh.storage.committed, ∃ text, sh.storage.slotAt i = .written text
  indexed : ∀ text i, sh.storage.dedup text = some i ↔
    i < sh.indexed ∧ sh.storage.slotAt i = .written text
  budget : sh.storage.committed ≤ LOCAL_MASK
  phase : sh.Phase

theorem Shard.Consistent.new : Shard.new.Consistent := by
  refine ⟨ShardStorage.Sound.new, nofun, fun text i => ?_, Nat.zero_le _, rfl⟩
  simp [Shard.new, ShardStorage.new, Shard.indexed]

/-- Another request or phase over the same storage. -/
theorem Shard.Consistent.same (h : Shard.Consistent sh) {queue : List Request} {owner : Owner}
    (hindexed : Shard.indexed ⟨sh.storage, queue, owner⟩ = sh.indexed)
    (hphase : Shard.Phase ⟨sh.storage, queue, owner⟩) :
    Shard.Consistent ⟨sh.storage, queue, owner⟩ :=
  ⟨h.sound, h.published, fun text i => by rw [hindexed]; exact h.indexed text i, h.budget, hphase⟩

/-- New contents of slots that are not committed. -/
theorem Shard.Consistent.beyond {queue : List Request} {owner owner' : Owner}
    (h : Shard.Consistent ⟨st, queue, owner⟩) (hsound : st'.Sound) (hext : st.Extends st')
    (hcommitted : st'.committed = st.committed) (hdedup : st'.dedup = st.dedup)
    (hle : Shard.indexed ⟨st, queue, owner⟩ ≤ st.committed)
    (hindexed : Shard.indexed ⟨st', queue, owner'⟩ = Shard.indexed ⟨st, queue, owner⟩)
    (hphase : Shard.Phase ⟨st', queue, owner'⟩) : Shard.Consistent ⟨st', queue, owner'⟩ := by
  refine ⟨hsound, fun i hi => ?_, fun text i => ?_, ?_, hphase⟩
  · dsimp only at hi
    rw [hcommitted] at hi
    obtain ⟨text, htext⟩ := h.published i hi
    exact ⟨text, (hext.slots i hi).trans htext⟩
  · dsimp only
    rw [hindexed, hdedup]
    refine (h.indexed text i).trans (and_congr_right fun hi => ?_)
    rw [hext.slots i (lt_of_lt_of_le hi hle)]
  · rw [show Shard.storage ⟨st', queue, owner'⟩ = st' from rfl, hcommitted]
    exact h.budget

theorem extends_allocate (hsound : st.Sound) (hfirst : loc % BLOCK_LEN = 0)
    (hloc : st.committed = loc) : st.Extends (st.allocate loc) := by
  refine ⟨le_rfl, fun i hi => ?_, fun i hi => ?_⟩
  · exact ShardStorage.blocks_allocate_ne (earlier_block hfirst (hloc ▸ hi))
  · exact ShardStorage.slotAt_allocate_ne hsound (earlier_block hfirst (hloc ▸ hi))

theorem extends_setSlot (slot : Slot) (hsound : st.Sound)
    (hblock : st.blocks (loc / BLOCK_LEN) = some a) (hloc : st.committed = loc) :
    st.Extends (st.setSlot a loc slot) := by
  refine ⟨le_rfl, fun i _ => rfl, fun i hi => ?_⟩
  exact ShardStorage.slotAt_setSlot_ne hsound hblock (hloc ▸ hi).ne

/-- A step of the owner keeps its shard consistent and the committed slots as they are. -/
theorem Shard.Consistent.step (h : sh.Consistent) (hstep : OwnerStep sh sh') :
    sh'.Consistent ∧ sh.storage.Extends sh'.storage := by
  cases hstep with
  | pop | exhausted => exact ⟨h.same rfl h.phase, .refl _⟩
  | @hit st queue req loc hdedup =>
    have hphase : st.committed = st.next := h.phase
    obtain ⟨hlt, hslot⟩ := (h.indexed req.text loc).mp hdedup
    exact ⟨h.same rfl ⟨hphase, hphase ▸ hlt, hslot⟩, .refl _⟩
  | assign hdedup hbudget => exact ⟨h.same rfl ⟨rfl, h.phase, hdedup, hbudget⟩, .refl _⟩
  | @allocate st queue req loc hfirst =>
    have hfresh : Fresh st req loc := h.phase
    have hext := extends_allocate h.sound hfirst hfresh.committed
    refine ⟨h.beyond h.sound.allocate hext rfl rfl ?_ rfl ⟨?_, ?_⟩, hext⟩
    · exact (hfresh.next.symm.trans hfresh.committed.symm).le
    · exact ⟨hfresh.next, hfresh.committed, hfresh.new, hfresh.budget⟩
    · simp [ShardStorage.allocate]
  | @reuse st queue req loc hfirst =>
    have hfresh : Fresh st req loc := h.phase
    obtain ⟨i, hi, hblock⟩ := first_of_block hfirst
    obtain ⟨text, hslot⟩ := h.published i (hfresh.committed ▸ hi)
    obtain ⟨a, ha, -⟩ := ShardStorage.blocks_of_slotAt hslot
    refine ⟨h.same rfl ⟨hfresh, ?_⟩, .refl _⟩
    rw [← hblock]
    exact ne_of_eq_of_ne ha (Option.some_ne_none a)
  | @beginWrite st queue req loc a hblock =>
    obtain ⟨hfresh, hthere⟩ : Fresh st req loc ∧ st.blocks (loc / BLOCK_LEN) ≠ none := h.phase
    have hext := extends_setSlot .partly h.sound hblock hfresh.committed
    refine ⟨h.beyond h.sound.setSlot hext rfl rfl ?_ rfl ⟨?_, hthere⟩, hext⟩
    · exact (hfresh.next.symm.trans hfresh.committed.symm).le
    · exact ⟨hfresh.next, hfresh.committed, hfresh.new, hfresh.budget⟩
  | @endWrite st queue req loc a hblock =>
    obtain ⟨hfresh, -⟩ : Fresh st req loc ∧ st.blocks (loc / BLOCK_LEN) ≠ none := h.phase
    have hext := extends_setSlot (.written req.text) h.sound hblock hfresh.committed
    refine ⟨h.beyond h.sound.setSlot hext rfl rfl ?_ rfl ⟨?_, ?_⟩, hext⟩
    · exact (hfresh.next.symm.trans hfresh.committed.symm).le
    · exact ⟨hfresh.next, hfresh.committed, hfresh.new, hfresh.budget⟩
    · exact ShardStorage.slotAt_setSlot_self hblock
  | @commit st queue req loc =>
    obtain ⟨hfresh, hslot⟩ : Fresh st req loc ∧ st.slotAt loc = .written req.text := h.phase
    refine ⟨⟨⟨h.sound.lt, h.sound.inj⟩, fun i hi => ?_, h.indexed, ?_, hfresh.next, rfl, hfresh.new,
      hslot⟩, .of_eq ?_ rfl rfl⟩
    · rcases Nat.lt_succ_iff_lt_or_eq.mp hi with hi | rfl
      · exact h.published i (hfresh.committed ▸ hi)
      · exact ⟨req.text, hslot⟩
    · exact hfresh.budget
    · have hcommitted := hfresh.committed
      dsimp only
      omega
  | @count st queue req loc =>
    obtain ⟨hnext, hcommitted, hnew, hslot⟩ : loc = st.next ∧ st.committed = loc + 1 ∧
      st.dedup req.text = none ∧ st.slotAt loc = .written req.text := h.phase
    refine ⟨⟨⟨h.sound.lt, h.sound.inj⟩, h.published, fun text i => ?_, h.budget, rfl, hcommitted,
      hnew, hslot⟩, .of_eq le_rfl rfl rfl⟩
    have hindexed := h.indexed text i
    simp only [Shard.indexed, ← hnext] at hindexed
    exact hindexed
  | @index st queue req loc =>
    obtain ⟨hnext, hcommitted, hnew, hslot⟩ : st.next = loc + 1 ∧ st.committed = loc + 1 ∧
      st.dedup req.text = none ∧ st.slotAt loc = .written req.text := h.phase
    refine ⟨⟨⟨h.sound.lt, h.sound.inj⟩, h.published, fun text i => ?_, h.budget, ?_, ?_, hslot⟩,
      .of_eq le_rfl rfl rfl⟩
    · have hindexed := h.indexed text i
      simp only [Shard.indexed] at hindexed
      simp only [Shard.indexed, hnext, update_apply]
      change _ ↔ i < loc + 1 ∧ st.slotAt i = .written text
      rw [Nat.lt_succ_iff_lt_or_eq]
      by_cases htext : text = req.text
      · subst htext
        rw [hnew] at hindexed
        rw [if_pos rfl, some.injEq]
        constructor
        · rintro rfl
          exact ⟨.inr rfl, hslot⟩
        · rintro ⟨hi | rfl, hwritten⟩
          · cases hindexed.mpr ⟨hi, hwritten⟩
          · rfl
      · rw [if_neg htext, hindexed]
        constructor
        · rintro ⟨hi, hwritten⟩
          exact ⟨.inl hi, hwritten⟩
        · rintro ⟨hi | rfl, hwritten⟩
          · exact ⟨hi, hwritten⟩
          · cases hslot.symm.trans hwritten
            exact absurd rfl htext
    · exact hcommitted.trans hnext.symm
    · dsimp only
      omega

/-- The owner has counted what is committed, or has one text more committed. -/
theorem Shard.Phase.cases (h : sh.Phase) :
    sh.storage.committed = sh.indexed ∨ sh.storage.committed = sh.indexed + 1 ∧
      ∃ text, sh.storage.dedup text = none ∧ sh.storage.slotAt sh.indexed = .written text := by
  obtain ⟨st, queue, owner⟩ := sh
  cases owner with
  | idle | popped req | dead => exact .inl h
  | assigned req loc => exact .inl ((Fresh.committed h).trans (Fresh.next h))
  | placed req loc | halfWritten req loc | written req loc =>
    exact .inl (h.1.committed.trans h.1.next)
  | committed req loc =>
    obtain ⟨hnext, hcommitted, hnew, hslot⟩ : loc = st.next ∧ st.committed = loc + 1 ∧
      st.dedup req.text = none ∧ st.slotAt loc = .written req.text := h
    subst hnext
    exact .inr ⟨hcommitted, req.text, hnew, hslot⟩
  | counted req loc =>
    obtain ⟨-, hcommitted, hnew, hslot⟩ : st.next = loc + 1 ∧ st.committed = loc + 1 ∧
      st.dedup req.text = none ∧ st.slotAt loc = .written req.text := h
    exact .inr ⟨hcommitted, req.text, hnew, hslot⟩
  | answering req loc => exact .inl h.1

/-- The map has every text that is committed, but for the one that is being added. -/
theorem Shard.Consistent.lookup (h : sh.Consistent) (hi : sh.storage.Holds i text) :
    sh.storage.dedup text = some i ∨ sh.storage.dedup text = none ∧
      i + 1 = sh.storage.committed := by
  by_cases hindexed : i < sh.indexed
  · exact .inl ((h.indexed text i).mpr ⟨hindexed, hi.slot⟩)
  · have hlt := hi.committed
    rcases h.phase.cases with hcommitted | ⟨hcommitted, text', hnew, hslot⟩
    · omega
    · obtain rfl : i = sh.indexed := by omega
      cases hslot.symm.trans hi.slot
      exact .inr ⟨hnew, hcommitted.symm⟩

/-- A text has one index. -/
theorem Shard.Consistent.unique (h : sh.Consistent) {i' : ℕ} (hi : sh.storage.Holds i text)
    (hi' : sh.storage.Holds i' text) : i = i' := by
  rcases h.lookup hi with hdedup | ⟨hnone, hlast⟩
  · rcases h.lookup hi' with hdedup' | ⟨hnone', -⟩
    · exact some.inj (hdedup.symm.trans hdedup')
    · cases hdedup.symm.trans hnone'
  · rcases h.lookup hi' with hdedup' | ⟨-, hlast'⟩
    · cases hnone.symm.trans hdedup'
    · omega

theorem Shard.Consistent.lt_mask (h : sh.Consistent) (hi : sh.storage.Holds i text) :
    i < LOCAL_MASK :=
  lt_of_lt_of_le hi.committed h.budget

end AxisBridge.Interner
