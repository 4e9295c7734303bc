import AxisBridge.Lib.Reach
import AxisBridge.Runtime.InternShard
import AxisBridge.Runtime.Text

/-! The sharded interner: threads that intern and look up texts, and the owners of the shards, in
any order of their steps. -/
namespace AxisBridge.Interner
open List

/-- The number of shards, with what `AXVERITY_INTERN_SHARDS` says. -/
def shardCount (env : Option String) : ℕ :=
  ((env.bind fun s => parseUsize (trim s)).filter fun n => 1 ≤ n ∧ n ≤ 256).getD 8

def shardFor (hash : String → UInt64) (n : ℕ) (s : String) : ℕ := (hash s).toUInt32.toNat % n

/-- A call of `intern` with a text that is not empty: what its `Reply` holds, and whether it
returned. -/
structure Intern where
  text : String
  reply : Option ℕ
  returned : Bool

/-- How far a call of `get` is; one that indexes past the shards panics. -/
inductive Reading
  | started
  | checked
  | pointed (a : ℕ)
  | done (answer : Option String)

/-- A call of `get`, with the handles that had been returned when it began. -/
structure Get where
  handle : ℕ
  known : List (String × ℕ)
  reading : Reading

/-- The shards, the calls, the texts with the handles returned for them, and whether a slot was read
that was not written. -/
structure World where
  shards : ℕ → Shard
  interns : List Intern
  gets : List Get
  interned : List (String × ℕ)
  broken : Bool

def World.start : World := ⟨fun _ => .new, [], [], [], false⟩

inductive Action
  | internEmpty
  | push (text : String)
  | own (shard : ℕ)
  | signal (shard : ℕ)
  | ret (call : ℕ)
  | get (handle : ℕ)
  | advance (call : ℕ)

def World.setShard (w : World) (k : ℕ) (sh : Shard) : World :=
  { w with shards := Function.update w.shards k sh }

def World.setReading (w : World) (call : ℕ) (g : Get) (reading : Reading) : World :=
  { w with gets := w.gets.set call { g with reading := reading } }

/-- The storage a handle points into, and its place there. -/
def World.storageOf (w : World) (handle : ℕ) : ShardStorage := (w.shards (unpack handle).1).storage

/-- One step of a thread or of the owner of a shard. -/
inductive Step (hash : String → UInt64) (n : ℕ) : Action → World → World → Prop
  | internEmpty {w} : Step hash n .internEmpty w { w with interned := ("", 0) :: w.interned }
  | push {w text k st queue owner} (hne : text ≠ "") (hk : k = shardFor hash n text)
      (hsh : w.shards k = ⟨st, queue, owner⟩) :
      Step hash n (.push text) w
        (World.setShard { w with interns := w.interns ++ [⟨text, none, false⟩] } k
          ⟨st, queue ++ [⟨text, w.interns.length⟩], owner⟩)
  | own {w k sh} (hk : k < n) (hstep : OwnerStep (w.shards k) sh) :
      Step hash n (.own k) w (w.setShard k sh)
  | signal {w k st queue req loc i} (hk : k < n)
      (hsh : w.shards k = ⟨st, queue, .answering req loc⟩) (hi : w.interns[req.call]? = some i) :
      Step hash n (.signal k) w
        (World.setShard { w with interns := w.interns.set req.call { i with reply := some loc } } k
          ⟨st, queue, .idle⟩)
  | ret {w call text loc} (hcall : w.interns[call]? = some ⟨text, some loc, false⟩) :
      Step hash n (.ret call) w
        { w with
          interns := w.interns.set call ⟨text, some loc, true⟩
          interned := (text, pack (shardFor hash n text) loc) :: w.interned }
  | get {w handle} :
      Step hash n (.get handle) w { w with gets := w.gets ++ [⟨handle, w.interned, .started⟩] }
  | zero {w call g} (hcall : w.gets[call]? = some g) (hreading : g.reading = .started)
      (hzero : g.handle = 0) :
      Step hash n (.advance call) w (w.setReading call g (.done (some "")))
  | outside {w call g} (hcall : w.gets[call]? = some g) (hreading : g.reading = .started)
      (hzero : g.handle ≠ 0) (hshard : ¬ (unpack g.handle).1 < n) :
      Step hash n (.advance call) w (w.setReading call g (.done none))
  | miss {w call g} (hcall : w.gets[call]? = some g) (hreading : g.reading = .started)
      (hzero : g.handle ≠ 0) (hshard : (unpack g.handle).1 < n)
      (hloc : ¬ (unpack g.handle).2 < (w.storageOf g.handle).committed) :
      Step hash n (.advance call) w
        (w.setReading call g (.done (some ("<invalid-str-" ++ toString g.handle ++ ">"))))
  | seen {w call g} (hcall : w.gets[call]? = some g) (hreading : g.reading = .started)
      (hzero : g.handle ≠ 0) (hshard : (unpack g.handle).1 < n)
      (hloc : (unpack g.handle).2 < (w.storageOf g.handle).committed) :
      Step hash n (.advance call) w (w.setReading call g .checked)
  | block {w call g a} (hcall : w.gets[call]? = some g) (hreading : g.reading = .checked)
      (hblock : (w.storageOf g.handle).blocks ((unpack g.handle).2 / BLOCK_LEN) = some a) :
      Step hash n (.advance call) w (w.setReading call g (.pointed a))
  | null {w call g} (hcall : w.gets[call]? = some g) (hreading : g.reading = .checked)
      (hblock : (w.storageOf g.handle).blocks ((unpack g.handle).2 / BLOCK_LEN) = none) :
      Step hash n (.advance call) w { w with broken := true }
  | read {w call g a text} (hcall : w.gets[call]? = some g) (hreading : g.reading = .pointed a)
      (hslot : (w.storageOf g.handle).heap a ((unpack g.handle).2 % BLOCK_LEN) = .written text) :
      Step hash n (.advance call) w (w.setReading call g (.done (some text)))
  | early {w call g a} (hcall : w.gets[call]? = some g) (hreading : g.reading = .pointed a)
      (hslot : ∀ text, (w.storageOf g.handle).heap a ((unpack g.handle).2 % BLOCK_LEN) ≠
        .written text) :
      Step hash n (.advance call) w { w with broken := true }

section
variable {hash : String → UInt64} {n : ℕ} {w w' : World} {a : Action} {sh sh' : Shard}
  {req : Request} {k handle loc : ℕ} {s s' text : String} {g : Get}

theorem shardCount_range (env : Option String) : 0 < shardCount env ∧ shardCount env ≤ 256 := by
  unfold shardCount
  cases h : (env.bind fun s => parseUsize (trim s)).filter fun n => 1 ≤ n ∧ n ≤ 256 with
  | none => exact ⟨by decide, by decide⟩
  | some n =>
    have hn := (Option.filter_eq_some_iff.mp h).2
    simpa [Nat.lt_iff_add_one_le] using hn

theorem shardFor_lt (hn : 0 < n) : shardFor hash n s < n := Nat.mod_lt _ hn

/-! ### What a handle stands for -/

/-- The handle of a text: zero of the empty one, of another the place of its slot. -/
def World.Minted (hash : String → UInt64) (n : ℕ) (w : World) (s : String) (handle : ℕ) : Prop :=
  s = "" ∧ handle = 0 ∨
    s ≠ "" ∧ ∃ loc, handle = pack (shardFor hash n s) loc ∧
      (w.shards (shardFor hash n s)).storage.Holds loc s

/-- All committed slots stay. -/
def World.Extends (w w' : World) : Prop := ∀ k, (w.shards k).storage.Extends (w'.shards k).storage

theorem World.Minted.extends_ (h : w.Minted hash n s handle) (hext : w.Extends w') :
    w'.Minted hash n s handle := by
  rcases h with h | ⟨hne, loc, hhandle, hholds⟩
  · exact .inl h
  · exact .inr ⟨hne, loc, hhandle, hholds.extends_ (hext _)⟩

/-- How far a `get` has come, and what it found. -/
def Get.Good (w : World) (g : Get) : Prop :=
  match g.reading with
  | .started => True
  | .checked => g.handle ≠ 0 ∧ (unpack g.handle).2 < (w.storageOf g.handle).committed
  | .pointed a => g.handle ≠ 0 ∧ (unpack g.handle).2 < (w.storageOf g.handle).committed ∧
      (w.storageOf g.handle).blocks ((unpack g.handle).2 / BLOCK_LEN) = some a
  | .done answer => ∀ s, (s, g.handle) ∈ g.known → answer = some s

theorem Get.Good.extends_ (h : g.Good w) (hext : w.Extends w') : g.Good w' := by
  have hstorage : (w.storageOf g.handle).Extends (w'.storageOf g.handle) := hext _
  unfold Get.Good at *
  cases hreading : g.reading with
  | started => trivial
  | checked =>
    simp only [hreading] at h
    exact ⟨h.1, lt_of_lt_of_le h.2 hstorage.committed⟩
  | pointed a =>
    simp only [hreading] at h
    exact ⟨h.1, lt_of_lt_of_le h.2.1 hstorage.committed, (hstorage.blocks _ h.2.1).trans h.2.2⟩
  | done answer =>
    simp only [hreading] at h
    exact h

/-- The request an owner works on. -/
def Owner.request : Owner → Option Request
  | .idle | .dead => none
  | .popped req => some req
  | .assigned req _ | .placed req _ | .halfWritten req _ | .written req _ | .committed req _
  | .counted req _ | .answering req _ => some req

def Shard.Pending (sh : Shard) (req : Request) : Prop :=
  req ∈ sh.queue ∨ sh.owner.request = some req

theorem OwnerStep.pending (h : OwnerStep sh sh') (hreq : sh'.Pending req) : sh.Pending req := by
  cases h with
  | @pop st before req' after =>
    rcases hreq with hmem | howner
    · left
      rcases mem_append.mp hmem with hmem | hmem
      · exact mem_append_left _ hmem
      · exact mem_append_right _ (mem_cons_of_mem _ hmem)
    · cases howner
      exact .inl (mem_append_right _ mem_cons_self)
  | exhausted =>
    rcases hreq with hmem | howner
    · exact .inl hmem
    · cases howner
  | _ => exact hreq

/-- What holds between any two steps. -/
structure World.Consistent (hash : String → UInt64) (n : ℕ) (w : World) : Prop where
  shards : ∀ k, (w.shards k).Consistent
  requests : ∀ k req, (w.shards k).Pending req →
    k = shardFor hash n req.text ∧ ∃ i, w.interns[req.call]? = some i ∧ i.text = req.text
  nonempty : ∀ i ∈ w.interns, i.text ≠ ""
  replies : ∀ i ∈ w.interns, ∀ loc, i.reply = some loc →
    (w.shards (shardFor hash n i.text)).storage.Holds loc i.text
  interned : ∀ s handle, (s, handle) ∈ w.interned → w.Minted hash n s handle
  known : ∀ g ∈ w.gets, g.known ⊆ w.interned
  gets : ∀ g ∈ w.gets, g.Good w
  unbroken : w.broken = false

theorem World.Consistent.start : World.start.Consistent hash n := by
  refine ⟨fun _ => .new, fun k req hreq => ?_, nofun, nofun, nofun, nofun, nofun, rfl⟩
  rcases hreq with hmem | howner
  · exact (not_mem_nil hmem).elim
  · cases howner

theorem extends_setShard (hext : (w.shards k).storage.Extends sh.storage) :
    w.Extends (w.setShard k sh) := by
  intro k'
  rcases eq_or_ne k' k with rfl | hne
  · simpa [World.setShard] using hext
  · simpa [World.setShard, hne] using ShardStorage.Extends.refl _

@[simp] theorem setShard_self : (w.setShard k sh).shards k = sh := Function.update_self ..

section
variable (h : w.Consistent hash n)

include h

/-- A handle that is not zero leads to the slot of its text. -/
theorem World.Consistent.slot (hn : 0 < n) (hn' : n ≤ 256) (hminted : w.Minted hash n s handle)
    (hzero : handle ≠ 0) :
    (unpack handle).1 = shardFor hash n s ∧ (w.storageOf handle).Holds (unpack handle).2 s := by
  rcases hminted with ⟨-, heq⟩ | ⟨-, loc, rfl, hholds⟩
  · exact (hzero heq).elim
  · have hlt : shardFor hash n s < 256 := lt_of_lt_of_le (shardFor_lt hn) hn'
    have hunpack := unpack_pack hlt ((h.shards _).lt_mask hholds)
    rw [World.storageOf, hunpack]
    exact ⟨rfl, hholds⟩

theorem World.Consistent.zero_iff (hn : 0 < n) (hn' : n ≤ 256)
    (hminted : w.Minted hash n s handle) : handle = 0 ↔ s = "" := by
  rcases hminted with ⟨hs, hhandle⟩ | ⟨hne, loc, rfl, hholds⟩
  · exact iff_of_true hhandle hs
  · have hlt : shardFor hash n s < 256 := lt_of_lt_of_le (shardFor_lt hn) hn'
    exact iff_of_false (pack_pos hlt ((h.shards _).lt_mask hholds)) hne

/-- One text, one handle. -/
theorem World.Consistent.minted_eq_iff (hn : 0 < n) (hn' : n ≤ 256) {handle' : ℕ}
    (hminted : w.Minted hash n s handle) (hminted' : w.Minted hash n s' handle') :
    s = s' ↔ handle = handle' := by
  constructor
  · rintro rfl
    rcases hminted with ⟨hs, rfl⟩ | ⟨hne, loc, rfl, hholds⟩
    · exact ((h.zero_iff hn hn' hminted').mpr hs).symm
    · rcases hminted' with ⟨hs, -⟩ | ⟨-, loc', rfl, hholds'⟩
      · exact (hne hs).elim
      · rw [(h.shards _).unique hholds hholds']
  · rintro rfl
    by_cases hzero : handle = 0
    · exact ((h.zero_iff hn hn' hminted).mp hzero).trans
        ((h.zero_iff hn hn' hminted').mp hzero).symm
    · have hslot := (h.slot hn hn' hminted hzero).2.slot
      have hslot' := (h.slot hn hn' hminted' hzero).2.slot
      cases hslot.symm.trans hslot'
      rfl

/-! ### What a step keeps -/

theorem World.Consistent.setShard (hsh : sh.Consistent)
    (hext : (w.shards k).storage.Extends sh.storage)
    (hpending : ∀ req, sh.Pending req → k = shardFor hash n req.text ∧ ∃ i,
      w.interns[req.call]? = some i ∧ i.text = req.text) : (w.setShard k sh).Consistent hash n := by
  have hall := extends_setShard hext
  refine ⟨fun k' => ?_, fun k' req hreq => ?_, h.nonempty,
    fun i hi loc hloc => (h.replies i hi loc hloc).extends_ (hall _),
    fun s handle hmem => (h.interned s handle hmem).extends_ hall, h.known,
    fun g hg => (h.gets g hg).extends_ hall, h.unbroken⟩
  · rcases eq_or_ne k' k with rfl | hne
    · simpa [World.setShard] using hsh
    · simpa [World.setShard, hne] using h.shards k'
  · rcases eq_or_ne k' k with rfl | hne
    · exact hpending req (by simpa [World.setShard] using hreq)
    · exact h.requests k' req (by simpa [World.setShard, hne] using hreq)

theorem World.Consistent.intern (hminted : w.Minted hash n s handle) :
    World.Consistent hash n { w with interned := (s, handle) :: w.interned } := by
  refine ⟨h.shards, h.requests, h.nonempty, h.replies, fun s' handle' hmem => ?_,
    fun g hg => subset_cons_of_subset _ (h.known g hg), h.gets, h.unbroken⟩
  rcases mem_cons.mp hmem with heq | hmem
  · cases heq
    exact hminted
  · exact h.interned s' handle' hmem

/-- A call of `intern` that gets its answer, or returns it. -/
theorem World.Consistent.setIntern {call : ℕ} {i : Intern} (hi : w.interns[call]? = some i)
    (reply : Option ℕ) (returned : Bool)
    (hreply : ∀ loc, reply = some loc →
      (w.shards (shardFor hash n i.text)).storage.Holds loc i.text) :
    World.Consistent hash n { w with interns := w.interns.set call ⟨i.text, reply, returned⟩ } := by
  refine ⟨h.shards, fun k req hreq => ?_, fun i' hi' => ?_, fun i' hi' loc hloc => ?_, h.interned,
    h.known, h.gets, h.unbroken⟩
  · obtain ⟨hk, i', hi', htext⟩ := h.requests k req hreq
    refine ⟨hk, ?_⟩
    by_cases hcall : call = req.call
    · subst hcall
      cases hi.symm.trans hi'
      obtain ⟨hlt, -⟩ := List.getElem?_eq_some_iff.mp hi
      exact ⟨⟨i.text, reply, returned⟩, by simp [hlt], htext⟩
    · exact ⟨i', by simp [getElem?_set_ne hcall, hi'], htext⟩
  · rcases mem_or_eq_of_mem_set hi' with hmem | rfl
    · exact h.nonempty i' hmem
    · exact h.nonempty i (mem_of_getElem? hi)
  · rcases mem_or_eq_of_mem_set hi' with hmem | rfl
    · exact h.replies i' hmem loc hloc
    · exact hreply loc hloc

theorem World.Consistent.addGet :
    World.Consistent hash n { w with gets := w.gets ++ [⟨handle, w.interned, .started⟩] } := by
  refine ⟨h.shards, h.requests, h.nonempty, h.replies, h.interned, fun g hg => ?_, fun g hg => ?_,
    h.unbroken⟩
  · rcases mem_append.mp hg with hg | hg
    · exact h.known g hg
    · cases mem_singleton.mp hg
      exact fun _ he => he
  · rcases mem_append.mp hg with hg | hg
    · exact h.gets g hg
    · cases mem_singleton.mp hg
      trivial

theorem World.Consistent.setReading {call : ℕ} (hcall : w.gets[call]? = some g) {reading : Reading}
    (hgood : Get.Good w { g with reading := reading }) :
    (w.setReading call g reading).Consistent hash n := by
  refine ⟨h.shards, h.requests, h.nonempty, h.replies, h.interned, fun g' hg' => ?_,
    fun g' hg' => ?_, h.unbroken⟩
  · rcases mem_or_eq_of_mem_set hg' with hmem | rfl
    · exact h.known g' hmem
    · exact h.known g (mem_of_getElem? hcall)
  · rcases mem_or_eq_of_mem_set hg' with hmem | rfl
    · exact h.gets g' hmem
    · exact hgood

/-- A text that is queued for its shard. -/
theorem World.Consistent.push (hne : text ≠ "") {st : ShardStorage} {queue : List Request}
    {owner : Owner} (hk : k = shardFor hash n text) (hsh : w.shards k = ⟨st, queue, owner⟩) :
    (World.setShard { w with interns := w.interns ++ [⟨text, none, false⟩] } k
      ⟨st, queue ++ [⟨text, w.interns.length⟩], owner⟩).Consistent hash n := by
  have hasked :
      World.Consistent hash n { w with interns := w.interns ++ [⟨text, none, false⟩] } := by
    refine ⟨h.shards, fun k req hreq => ?_, fun i hi => ?_, fun i hi loc hloc => ?_, h.interned,
      h.known, h.gets, h.unbroken⟩
    · obtain ⟨hk, i, hi, htext⟩ := h.requests k req hreq
      obtain ⟨hlt, -⟩ := List.getElem?_eq_some_iff.mp hi
      exact ⟨hk, i, (getElem?_append_left hlt).trans hi, htext⟩
    · rcases mem_append.mp hi with hi | hi
      · exact h.nonempty i hi
      · cases mem_singleton.mp hi
        exact hne
    · rcases mem_append.mp hi with hi | hi
      · exact h.replies i hi loc hloc
      · cases mem_singleton.mp hi
        cases hloc
  have hshard : Shard.Consistent ⟨st, queue, owner⟩ := hsh ▸ h.shards k
  refine hasked.setShard (hshard.same rfl hshard.phase) ?_ fun req hreq => ?_
  · rw [show ({ w with interns := w.interns ++ [⟨text, none, false⟩] } : World).shards k =
      _ from hsh]
    exact .refl _
  · rcases hreq with hmem | howner
    · rcases mem_append.mp hmem with hmem | hmem
      · exact hasked.requests k req (hsh ▸ .inl hmem)
      · cases mem_singleton.mp hmem
        exact ⟨hk, _, getElem?_concat_length, rfl⟩
    · exact hasked.requests k req (hsh ▸ .inr howner)

/-- An index that is answered belongs to the text of the call. -/
theorem World.Consistent.signal {st : ShardStorage} {queue : List Request}
    (hsh : w.shards k = ⟨st, queue, .answering req loc⟩) {i : Intern}
    (hi : w.interns[req.call]? = some i) :
    (World.setShard { w with interns := w.interns.set req.call { i with reply := some loc } } k
      ⟨st, queue, .idle⟩).Consistent hash n := by
  have hshard : Shard.Consistent ⟨st, queue, .answering req loc⟩ := hsh ▸ h.shards k
  obtain ⟨hcommitted, hholds⟩ : st.committed = st.next ∧ st.Holds loc req.text := hshard.phase
  obtain ⟨hk, i', hi', htext⟩ := h.requests k req (hsh ▸ .inr rfl)
  cases hi.symm.trans hi'
  have hanswered := h.setIntern hi (some loc) i.returned (by
    rintro loc' ⟨⟩
    rw [htext, ← hk, hsh]
    exact hholds)
  refine hanswered.setShard (hshard.same rfl hcommitted) ?_ fun req' hreq => ?_
  · rw [show World.shards _ k = _ from hsh]
    exact .refl _
  · rcases hreq with hmem | howner
    · exact hanswered.requests k req' (hsh ▸ .inl hmem)
    · cases howner

theorem World.Consistent.step (hn : 0 < n) (hn' : n ≤ 256) (hstep : Step hash n a w w') :
    w'.Consistent hash n := by
  cases hstep with
  | internEmpty => exact h.intern (.inl ⟨rfl, rfl⟩)
  | push hne hk hsh => exact h.push hne hk hsh
  | own hk hown =>
    obtain ⟨hsh, hext⟩ := (h.shards _).step hown
    exact h.setShard hsh hext fun req hreq => h.requests _ req (hown.pending hreq)
  | signal hk hsh hi => exact h.signal hsh hi
  | @ret _ call text loc hcall =>
    have hholds := h.replies _ (mem_of_getElem? hcall) _ rfl
    have hne := h.nonempty _ (mem_of_getElem? hcall)
    have hreturned := h.setIntern hcall (some loc) true (by rintro loc' ⟨⟩; exact hholds)
    exact hreturned.intern (.inr ⟨hne, _, rfl, hholds⟩)
  | get => exact h.addGet
  | @zero _ call g hcall hreading hzero =>
    refine h.setReading hcall fun s hs => ?_
    have hminted := h.interned s _ (h.known g (mem_of_getElem? hcall) hs)
    rw [(h.zero_iff hn hn' hminted).mp hzero]
  | @outside _ call g hcall hreading hzero hshard =>
    refine h.setReading hcall fun s hs => ?_
    have hminted := h.interned s _ (h.known g (mem_of_getElem? hcall) hs)
    rw [(h.slot hn hn' hminted hzero).1] at hshard
    exact (hshard (shardFor_lt hn)).elim
  | @miss _ call g hcall hreading hzero hshard hloc =>
    refine h.setReading hcall fun s hs => ?_
    have hminted := h.interned s _ (h.known g (mem_of_getElem? hcall) hs)
    exact (hloc (h.slot hn hn' hminted hzero).2.committed).elim
  | seen hcall hreading hzero hshard hloc => exact h.setReading hcall ⟨hzero, hloc⟩
  | @block _ call g a hcall hreading hblock =>
    have hgood := h.gets g (mem_of_getElem? hcall)
    simp only [Get.Good, hreading] at hgood
    exact h.setReading hcall ⟨hgood.1, hgood.2, hblock⟩
  | @null _ call g hcall hreading hblock =>
    have hgood := h.gets g (mem_of_getElem? hcall)
    simp only [Get.Good, hreading] at hgood
    obtain ⟨text, hslot⟩ := (h.shards _).published _ hgood.2
    obtain ⟨a, ha, -⟩ := ShardStorage.blocks_of_slotAt hslot
    cases hblock.symm.trans ha
  | @read _ call g a text hcall hreading hslot =>
    have hgood := h.gets g (mem_of_getElem? hcall)
    simp only [Get.Good, hreading] at hgood
    obtain ⟨hzero, -, hblock⟩ := hgood
    refine h.setReading hcall fun s hs => ?_
    have hminted := h.interned s _ (h.known g (mem_of_getElem? hcall) hs)
    have hwritten := (h.slot hn hn' hminted hzero).2.slot
    rw [ShardStorage.slotAt_of_blocks _ hblock] at hwritten
    cases hwritten.symm.trans hslot
    rfl
  | @early _ call g a hcall hreading hslot =>
    have hgood := h.gets g (mem_of_getElem? hcall)
    simp only [Get.Good, hreading] at hgood
    obtain ⟨text, hwritten⟩ := (h.shards _).published _ hgood.2.1
    exact (hslot text ((ShardStorage.slotAt_of_blocks _ hgood.2.2).symm.trans hwritten)).elim

end

end

/-- In every run, for any hash and whatever the environment says: equal texts have equal handles and
different texts different ones, zero is the handle of the empty text alone, a lookup of a handle
that was returned before it began gives its text, and no slot is read before it is written. -/
theorem shard_interner_consistent (hash : String → UInt64) (env : Option String) {w : World}
    (hrun : Reaches (Step hash (shardCount env)) anyAction .start w) :
    (∀ s handle s' handle', (s, handle) ∈ w.interned → (s', handle') ∈ w.interned →
        (s = s' ↔ handle = handle')) ∧
      (∀ s handle, (s, handle) ∈ w.interned → (handle = 0 ↔ s = "")) ∧
      (∀ g ∈ w.gets, ∀ answer, g.reading = .done answer →
        ∀ s, (s, g.handle) ∈ g.known → answer = some s) ∧ w.broken = false := by
  obtain ⟨hn, hn'⟩ := shardCount_range env
  have h : w.Consistent hash (shardCount env) :=
    hrun.invariant (fun hw _ hstep => World.Consistent.step hw hn hn' hstep) .start
  refine ⟨fun s handle s' handle' hs hs' => ?_, fun s handle hs => ?_, fun g hg answer hdone => ?_,
    h.unbroken⟩
  · exact h.minted_eq_iff hn hn' (h.interned s handle hs) (h.interned s' handle' hs')
  · exact h.zero_iff hn hn' (h.interned s handle hs)
  · have hgood := h.gets g hg
    simp only [Get.Good, hdone] at hgood
    exact hgood

/-- The steps of an owner, as steps of the whole. -/
theorem reaches_own {hash : String → UInt64} {n k : ℕ} {w : World} {sh : Shard} (hk : k < n)
    (h : Relation.ReflTransGen OwnerStep (w.shards k) sh) :
    Reaches (Step hash n) anyAction w (w.setShard k sh) := by
  induction h with
  | refl =>
    have hsame : w.setShard k (w.shards k) = w := by simp [World.setShard]
    rw [hsame]
    exact .refl w
  | @tail sh₁ sh₂ _ hstep ih =>
    have hagain : (w.setShard k sh₁).setShard k sh₂ = w.setShard k sh₂ := by simp [World.setShard]
    exact hagain ▸ ih.next (a := .own k) trivial (.own hk (setShard_self.symm ▸ hstep))

/-- The first text of a shard gets the first index. -/
theorem owner_first (req : Request) : ∃ st, st.dedup req.text = some 0 ∧
    Relation.ReflTransGen OwnerStep ⟨.new, [req], .idle⟩ ⟨st, [], .answering req 0⟩ := by
  have hblock : (ShardStorage.new.allocate 0).blocks (0 / BLOCK_LEN) = some 0 := rfl
  have hpopped : Relation.ReflTransGen OwnerStep ⟨.new, [req], .idle⟩ ⟨.new, [], .popped req⟩ :=
    .single (show OwnerStep ⟨.new, [] ++ req :: [], .idle⟩ ⟨.new, [] ++ [], .popped req⟩ from .pop)
  have hassigned := hpopped.tail (.assign rfl (by decide))
  have hplaced := hassigned.tail (.allocate rfl)
  have hbegun := hplaced.tail (.beginWrite hblock)
  have hwritten := hbegun.tail (.endWrite hblock)
  exact ⟨_, Function.update_self .., ((hwritten.tail .commit).tail .count).tail .index⟩

/-- A text that the shard has gets its index. -/
theorem owner_again {st : ShardStorage} {req : Request} {loc : ℕ}
    (h : st.dedup req.text = some loc) :
    Relation.ReflTransGen OwnerStep ⟨st, [req], .idle⟩ ⟨st, [], .answering req loc⟩ :=
  .tail
    (.single (show OwnerStep ⟨st, [] ++ req :: [], .idle⟩ ⟨st, [] ++ [], .popped req⟩ from .pop))
    (.hit h)

/-- A whole call, while nobody else uses its shard. -/
theorem reaches_intern {hash : String → UInt64} {n loc : ℕ} {w : World} {text : String}
    {st st' : ShardStorage} (hne : text ≠ "") (hn : 0 < n)
    (hsh : w.shards (shardFor hash n text) = ⟨st, [], .idle⟩)
    (howner : Relation.ReflTransGen OwnerStep ⟨st, [⟨text, w.interns.length⟩], .idle⟩ ⟨st', [],
      .answering ⟨text, w.interns.length⟩ loc⟩) : ∃ w', Reaches (Step hash n) anyAction w w' ∧
    w'.shards = Function.update w.shards (shardFor hash n text) ⟨st', [], .idle⟩ ∧
    w'.interned = (text, pack (shardFor hash n text) loc) :: w.interned := by
  have hk := @shardFor_lt hash n text hn
  have hpushed : Reaches (Step hash n) anyAction w _ :=
    .of_step (a := .push text) trivial (.push hne rfl hsh)
  have howned := hpushed.trans (@reaches_own _ _ _ _
    ⟨st', [], .answering ⟨text, w.interns.length⟩ loc⟩ hk (setShard_self.symm ▸ howner))
  have hsignalled := howned.next (a := .signal (shardFor hash n text)) trivial
    (.signal (i := ⟨text, none, false⟩) hk setShard_self (by simp [World.setShard]))
  have hreturned := hsignalled.next (a := .ret w.interns.length) trivial
    (@Step.ret _ _ _ _ text loc (by simp [World.setShard]))
  exact ⟨_, hreturned, by simp [World.setShard], rfl⟩

/-- Two texts on two shards, and the first of them again. -/
theorem shard_interner_consistent_three : ∃ w : World,
    Reaches (Step (fun s => if s = "b" then 1 else 0) (shardCount none)) anyAction .start w ∧
      w.interned = [("a", 1), ("b", 2 ^ 24 + 1), ("a", 1)] ∧
      (∀ handle, ("b", handle) ∈ w.interned → 1 ≠ handle) ∧ w.broken = false := by
  obtain ⟨st, hdedup, hfirst⟩ := owner_first ⟨"a", 0⟩
  obtain ⟨w₁, hrun₁, hshards₁, hinterned₁⟩ := @reaches_intern (fun s => if s = "b" then 1 else 0)
    (shardCount none) 0 .start "a" .new st (by decide) (by decide) rfl hfirst
  obtain ⟨st', -, hsecond⟩ := owner_first ⟨"b", w₁.interns.length⟩
  have hnew : w₁.shards 1 = ⟨.new, [], .idle⟩ := by
    rw [hshards₁]
    rfl
  obtain ⟨w₂, hrun₂, hshards₂, hinterned₂⟩ := @reaches_intern (fun s => if s = "b" then 1 else 0)
    (shardCount none) 0 w₁ "b" .new st' (by decide) (by decide) hnew hsecond
  have hkept : w₂.shards 0 = ⟨st, [], .idle⟩ := by
    rw [hshards₂, hshards₁]
    rfl
  obtain ⟨w₃, hrun₃, -, hinterned₃⟩ := @reaches_intern (fun s => if s = "b" then 1 else 0)
    (shardCount none) 0 w₂ "a" st st (by decide) (by decide) hkept (owner_again hdedup)
  have hrun := (hrun₁.trans hrun₂).trans hrun₃
  obtain ⟨hhandles, -, -, hunbroken⟩ := shard_interner_consistent _ none hrun
  rw [hinterned₂, hinterned₁] at hinterned₃
  have hall : w₃.interned = [("a", 1), ("b", 2 ^ 24 + 1), ("a", 1)] := hinterned₃
  refine ⟨w₃, hrun, hall, fun handle hb heq => ?_, hunbroken⟩
  exact absurd ((hhandles "a" 1 "b" handle (by rw [hall]; simp) hb).mpr heq) (by decide)

end AxisBridge.Interner
