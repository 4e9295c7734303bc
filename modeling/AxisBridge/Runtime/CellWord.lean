import Mathlib.Data.List.Infix
import Mathlib.Algebra.Group.Nat.Defs

/-! One cell as its head word: a value of at most four bytes with its epoch, or a pointer to a
block. -/
namespace AxisBridge.CellWord
open List

variable {α : Type}

/-- The value type: whether it fits four bytes, and then its bytes, filled up with zeros. -/
structure Layout (α : Type) where
  small : Bool
  bytes : α → UInt32
  ofBytes : UInt32 → α
  round : small = true → ∀ v, ofBytes (bytes v) = v

def INLINE_TAG : UInt64 := 1

def encodeInline (bytes : UInt32) (epoch : UInt64) : UInt64 :=
  (epoch <<< 33) ||| (bytes.toUInt64 <<< 1) ||| INLINE_TAG

def decodeInline (bits : UInt64) : UInt32 := (bits >>> 1).toUInt32

structure Block (α : Type) where
  value : α
  prev : UInt64
  epoch : UInt64

/-- The head word, 0 before the first write, and the blocks under their addresses. -/
structure Cell (α : Type) where
  head : UInt64
  blocks : UInt64 → Option (Block α)

def Cell.new : Cell α := ⟨0, fun _ => none⟩

def isInline (bits : UInt64) : Bool := bits &&& INLINE_TAG != 0

/-- The block of a pointer is there: no block of a cell is freed. -/
def Cell.writerEpoch (c : Cell α) : UInt64 :=
  if c.head = 0 then 0
  else if isInline c.head then c.head >>> 33
  else ((c.blocks c.head).map Block.epoch).getD 0

/-- A block at the address `p`, which the head then points to. -/
def Cell.allocate (c : Cell α) (p : UInt64) (b : Block α) : Cell α :=
  ⟨p, fun q => if q = p then some b else c.blocks q⟩

/-- `write`, with the epoch it returns; `p` is where a block would lie. -/
def Cell.write (L : Layout α) (c : Cell α) (value : α) (p : UInt64) : UInt64 × Cell α :=
  let newEpoch := c.writerEpoch + 1
  if L.small then (newEpoch, { c with head := encodeInline (L.bytes value) newEpoch })
  else (newEpoch, c.allocate p ⟨value, 0, newEpoch⟩)

def Cell.append (c : Cell α) (value : α) (p : UInt64) : UInt64 × Cell α :=
  let newEpoch := c.writerEpoch + 1
  let prev := if c.head = 0 ∨ isInline c.head = true then 0 else c.head
  (newEpoch, c.allocate p ⟨value, prev, newEpoch⟩)

inductive ReadResult (α : Type)
  | empty
  | value (value : α) (epoch missed : UInt64)

def ReadResult.epoch : ReadResult α → UInt64
  | .value _ epoch _ => epoch
  | .empty => 0

def ReadResult.missed : ReadResult α → UInt64
  | .value _ _ missed => missed
  | .empty => 0

def ReadResult.value? : ReadResult α → Option α
  | .value v _ _ => some v
  | .empty => none

/-- `current.saturating_sub(last_epoch + 1)`, nothing on a first read. -/
def missedSince (current lastEpoch : UInt64) : UInt64 :=
  if lastEpoch = 0 then 0 else .ofNat (current.toNat - (lastEpoch + 1).toNat)

def Cell.read (L : Layout α) (c : Cell α) (lastEpoch : UInt64) : ReadResult α :=
  if c.head = 0 then .empty
  else if isInline c.head then
    .value (L.ofBytes (decodeInline c.head)) (c.head >>> 33) (missedSince (c.head >>> 33) lastEpoch)
  else
    match c.blocks c.head with
    | some b => .value b.value b.epoch (missedSince b.epoch lastEpoch)
    | none => .empty

/-! ### The bits of an inline word -/

section
variable {b : UInt32} {e : UInt64}

theorem toNat_encodeInline :
    (encodeInline b e).toNat = e.toNat % 2 ^ 31 * 2 ^ 33 + b.toNat * 2 + 1 := by
  have hb := b.toNat_lt
  have hepoch : (e <<< 33).toNat = e.toNat % 2 ^ 31 * 2 ^ 33 := by
    rw [UInt64.toNat_shiftLeft, Nat.shiftLeft_eq]
    change e.toNat * 2 ^ 33 % 2 ^ 64 = _
    omega
  have hbytes : (b.toUInt64 <<< 1).toNat = b.toNat * 2 := by
    rw [UInt64.toNat_shiftLeft, Nat.shiftLeft_eq]
    change b.toNat * 2 ^ 1 % 2 ^ 64 = _
    omega
  have hlow : b.toNat * 2 ||| 1 = b.toNat * 2 + 1 := by
    have hor := Nat.shiftLeft_add_eq_or_of_lt (i := 1) (show 1 < 2 ^ 1 by decide) b.toNat
    rw [Nat.shiftLeft_eq, Nat.pow_one] at hor
    exact hor.symm
  have hhigh := Nat.shiftLeft_add_eq_or_of_lt (i := 33) (show b.toNat * 2 + 1 < 2 ^ 33 by omega)
    (e.toNat % 2 ^ 31)
  rw [Nat.shiftLeft_eq] at hhigh
  unfold encodeInline
  rw [UInt64.toNat_or, UInt64.toNat_or, hepoch, hbytes, Nat.or_assoc]
  change _ ||| (b.toNat * 2 ||| 1) = _
  rw [hlow]
  omega

theorem isInline_encodeInline : isInline (encodeInline b e) = true := by
  have hbits := toNat_encodeInline (b := b) (e := e)
  have hand : (encodeInline b e &&& INLINE_TAG).toNat = 1 := by
    rw [UInt64.toNat_and]
    change (encodeInline b e).toNat &&& 1 = 1
    rw [Nat.and_one_is_mod, hbits]
    omega
  simp only [isInline, bne_iff_ne, ne_eq]
  intro hzero
  rw [hzero] at hand
  simp at hand

theorem encodeInline_ne_zero : encodeInline b e ≠ 0 := by
  intro hzero
  have hbits := toNat_encodeInline (b := b) (e := e)
  rw [hzero] at hbits
  simp at hbits

/-- The epoch of an inline word has lost all but its low 31 bits. -/
theorem epoch_encodeInline : (encodeInline b e >>> 33).toNat = e.toNat % 2 ^ 31 := by
  have hb := b.toNat_lt
  rw [UInt64.toNat_shiftRight, Nat.shiftRight_eq_div_pow]
  change (encodeInline b e).toNat / 2 ^ 33 = _
  rw [toNat_encodeInline]
  omega

theorem decodeInline_encodeInline : decodeInline (encodeInline b e) = b := by
  have hb := b.toNat_lt
  apply UInt32.toNat_inj.mp
  rw [decodeInline, UInt64.toNat_toUInt32, UInt64.toNat_shiftRight, Nat.shiftRight_eq_div_pow]
  change (encodeInline b e).toNat / 2 ^ 1 % 2 ^ 32 = _
  rw [toNat_encodeInline]
  omega

end

/-! ### Runs -/

inductive Op (α : Type)
  | write (value : α)
  | append (value : α)

def Op.value : Op α → α
  | .write v => v
  | .append v => v

def Op.inline (L : Layout α) : Op α → Bool
  | .write _ => L.small
  | .append _ => false

/-- An address the allocator may answer. -/
structure Free (c : Cell α) (p : UInt64) : Prop where
  ne_zero : p ≠ 0
  aligned : isInline p = false
  unused : c.blocks p = none

/-- The operations on a cell, the last one first. -/
inductive Runs (L : Layout α) (c : Cell α) : List (Op α) → Cell α → Prop
  | nil : Runs L c [] c
  | write {ops c' v p} : Runs L c ops c' → Free c' p → Runs L c (.write v :: ops) (c'.write L v p).2
  | append {ops c' v p} :
      Runs L c ops c' → Free c' p → Runs L c (.append v :: ops) (c'.append v p).2

theorem Runs.trans {L : Layout α} {c c' c'' : Cell α} {ops more : List (Op α)} (h : Runs L c ops c')
    (h' : Runs L c' more c'') : Runs L c (more ++ ops) c'' := by
  induction h' with
  | nil => exact h
  | write _ hfree ih => exact .write ih hfree
  | append _ hfree ih => exact .append ih hfree

/-- The epoch in the head after the operations. -/
def epochAfter (L : Layout α) : List (Op α) → ℕ
  | [] => 0
  | op :: ops =>
    let epoch := (epochAfter L ops + 1) % 2 ^ 64
    if op.inline L then epoch % 2 ^ 31 else epoch

/-- What the writer and the readers find in a cell that was written. -/
structure Shows (L : Layout α) (c : Cell α) (v : α) (epoch : UInt64) : Prop where
  writer : c.writerEpoch = epoch
  reader : ∀ last, c.read L last = .value v epoch (missedSince epoch last)

section
variable {L : Layout α} {c c' : Cell α} {ops more : List (Op α)} {v : α} {p : UInt64}

theorem shows_allocate {b : Block α} (h : Free c p) : Shows L (c.allocate p b) b.value b.epoch where
  writer := by simp [Cell.writerEpoch, Cell.allocate, h.ne_zero, h.aligned]
  reader := by simp [Cell.read, Cell.allocate, h.ne_zero, h.aligned]

theorem shows_inline (hsmall : L.small = true) (e : UInt64) :
    Shows L { c with head := encodeInline (L.bytes v) e } v
      (encodeInline (L.bytes v) e >>> 33) where
  writer := by simp [Cell.writerEpoch, encodeInline_ne_zero, isInline_encodeInline]
  reader := by
    simp [Cell.read, encodeInline_ne_zero, isInline_encodeInline, decodeInline_encodeInline,
      L.round hsmall]

theorem toNat_succ {e : UInt64} {n : ℕ} (h : e.toNat = n) : (e + 1).toNat = (n + 1) % 2 ^ 64 := by
  rw [UInt64.toNat_add, h]
  rfl

theorem shows_write (h : Free c p) : ∃ e, Shows L (c.write L v p).2 v e ∧
    e.toNat =
      if L.small then (c.writerEpoch + 1).toNat % 2 ^ 31 else (c.writerEpoch + 1).toNat := by
  cases hsmall : L.small with
  | true =>
    simp only [Cell.write, hsmall, if_true]
    exact ⟨_, shows_inline hsmall _, epoch_encodeInline⟩
  | false =>
    simp only [Cell.write, hsmall, Bool.false_eq_true, if_false]
    exact ⟨_, shows_allocate h, rfl⟩

/-- After a run the cell has the epoch that the operations lead to, and the last value. -/
theorem Runs.shows (h : Runs L .new ops c) : c.writerEpoch.toNat = epochAfter L ops ∧
    ∀ op rest, ops = op :: rest → ∃ e, Shows L c op.value e ∧ e.toNat = epochAfter L ops := by
  induction h with
  | nil => exact ⟨rfl, nofun⟩
  | @write ops c' v p _ hfree ih =>
    obtain ⟨e, hshows, he⟩ := shows_write (L := L) (v := v) hfree
    have hepoch : e.toNat = epochAfter L (.write v :: ops) := by
      rw [he, toNat_succ ih.1]
      rfl
    refine ⟨(congrArg UInt64.toNat hshows.writer).trans hepoch, fun op rest heq => ?_⟩
    cases heq
    exact ⟨e, hshows, hepoch⟩
  | @append ops c' v p _ hfree ih =>
    have hepoch : (c'.writerEpoch + 1).toNat = epochAfter L (.append v :: ops) := toNat_succ ih.1
    have hshows : Shows L (c'.append v p).2 v (c'.writerEpoch + 1) := shows_allocate hfree
    refine ⟨(congrArg UInt64.toNat hshows.writer).trans hepoch, fun op rest heq => ?_⟩
    cases heq
    exact ⟨_, hshows, hepoch⟩

/-- Every read has the last value written, however many operations there were. -/
theorem Runs.read_value (h : Runs L .new ops c) (last : UInt64) :
    (c.read L last).value? = ops.head?.map Op.value ∧ (c.read L last).epoch = c.writerEpoch := by
  cases ops with
  | nil =>
    cases h
    exact ⟨rfl, rfl⟩
  | cons op rest =>
    obtain ⟨e, hshows, -⟩ := h.shows.2 op rest rfl
    rw [hshows.reader, hshows.writer]
    exact ⟨rfl, rfl⟩

/-! ### Counting -/

/-- No inline write is the operation number `2 ^ 31` or a later one. -/
def Narrow (L : Layout α) (ops : List (Op α)) : Prop :=
  ∀ op rest, (op :: rest) <:+ ops → op.inline L = true → rest.length + 1 < 2 ^ 31

theorem narrow_cons {op : Op α} : Narrow L (op :: ops) ↔
    (op.inline L = true → ops.length + 1 < 2 ^ 31) ∧ Narrow L ops := by
  constructor
  · intro h
    exact ⟨h op ops suffix_rfl, fun op' rest hsuf => h op' rest (hsuf.trans (suffix_cons op ops))⟩
  · rintro ⟨hop, hops⟩ op' rest hsuf
    rcases suffix_cons_iff.mp hsuf with heq | hsuf
    · cases heq
      exact hop
    · exact hops op' rest hsuf

theorem epochAfter_le (L : Layout α) (ops : List (Op α)) : epochAfter L ops ≤ ops.length := by
  induction ops with
  | nil => exact le_refl 0
  | cons op ops ih =>
    simp only [epochAfter, length_cons]
    split <;> omega

/-- The epoch counts the operations just as long as it fits each representation that it goes
through. -/
theorem epochAfter_eq_length :
    epochAfter L ops = ops.length ↔ ops.length < 2 ^ 64 ∧ Narrow L ops := by
  induction ops with
  | nil => simp [epochAfter, Narrow]
  | cons op ops ih =>
    have hle := epochAfter_le L ops
    rw [narrow_cons]
    simp only [epochAfter, length_cons]
    cases hop : op.inline L with
    | true =>
      simp only [if_true, true_implies]
      constructor
      · intro heq
        have hrest := ih.mp (by omega)
        exact ⟨by omega, by omega, hrest.2⟩
      · rintro ⟨hlen, hfits, hrest⟩
        have hcount := ih.mpr ⟨by omega, hrest⟩
        omega
    | false =>
      simp only [Bool.false_eq_true, if_false, false_implies, true_and]
      constructor
      · intro heq
        have hrest := ih.mp (by omega)
        exact ⟨by omega, hrest.2⟩
      · rintro ⟨hlen, hrest⟩
        have hcount := ih.mpr ⟨by omega, hrest⟩
        omega

theorem Narrow.suffix (h : Narrow L (more ++ ops)) : Narrow L ops := fun op rest hsuf =>
  h op rest (hsuf.trans (suffix_append more ops))

theorem toNat_missedSince {current last : UInt64} (hlast : last ≠ 0)
    (hmax : last.toNat + 1 < 2 ^ 64) :
    (missedSince current last).toNat = current.toNat - last.toNat - 1 := by
  have hcurrent := current.toNat_lt
  have hsucc := toNat_succ (e := last) rfl
  rw [missedSince, if_neg hlast, UInt64.toNat_ofNat', hsucc, Nat.mod_eq_of_lt hmax]
  omega

/-- The epoch is the number of operations, a read has the last value, and the reader that has read
before misses what was written strictly between its two reads. -/
theorem cell_counts (h : Runs L .new ops c) (h' : Runs L c more c')
    (hlen : (more ++ ops).length + 1 < 2 ^ 64)
    (hnarrow : Narrow L (more ++ ops)) :
    c'.writerEpoch.toNat = (more ++ ops).length ∧
      (∀ last, (c'.read L last).epoch = c'.writerEpoch ∧
        (c'.read L last).value? = (more ++ ops).head?.map Op.value) ∧
      ∀ last, (c'.read L (c.read L last).epoch).missed.toNat = if ops = [] then
        0 else more.length - 1 := by
  have hrun := h.trans h'
  have hepoch : c'.writerEpoch.toNat = (more ++ ops).length :=
    hrun.shows.1.trans (epochAfter_eq_length.mpr ⟨by omega, hnarrow⟩)
  refine ⟨hepoch, fun last => ⟨(hrun.read_value last).2, (hrun.read_value last).1⟩, fun last => ?_⟩
  rw [length_append] at hlen hepoch
  have hfirst : c.writerEpoch.toNat = ops.length :=
    h.shows.1.trans (epochAfter_eq_length.mpr ⟨by omega, hnarrow.suffix⟩)
  rw [(h.read_value last).2]
  cases hops : more ++ ops with
  | nil =>
    obtain ⟨rfl, rfl⟩ := append_eq_nil_iff.mp hops
    cases h
    cases h'
    rfl
  | cons op rest =>
    obtain ⟨e, hshows, -⟩ := hrun.shows.2 op rest hops
    rw [hshows.reader, ReadResult.missed]
    rw [hshows.writer] at hepoch
    by_cases hnil : ops = []
    · subst hnil
      have hzero : c.writerEpoch = 0 := UInt64.toNat_inj.mp hfirst
      simp [hzero, missedSince]
    · have hpos := length_pos_iff.mpr hnil
      have hne : c.writerEpoch ≠ 0 := by
        intro hzero
        rw [hzero] at hfirst
        simp at hfirst
        omega
      rw [if_neg hnil, toNat_missedSince hne (by omega)]
      omega

end

/-! ### Four-byte words -/

def word : Layout UInt32 := ⟨true, id, id, fun _ _ => rfl⟩

theorem free_two {c : Cell UInt32} (h : c.blocks = fun _ => none) : Free c 2 :=
  ⟨by decide, by decide, congrFun h 2⟩

theorem cell_counts_word :
    ((Cell.new.append 7 2).2.write word 5 4).2.writerEpoch.toNat =
        ([.write 5] ++ [.append 7] : List (Op UInt32)).length ∧
      (∀ last, (((Cell.new.append 7 2).2.write word 5 4).2.read word last).epoch =
          ((Cell.new.append 7 2).2.write word 5 4).2.writerEpoch ∧
        (((Cell.new.append 7 2).2.write word 5 4).2.read word last).value? =
          ([.write 5] ++ [.append 7] : List (Op UInt32)).head?.map Op.value) ∧
      ∀ last, (((Cell.new.append 7 2).2.write word 5 4).2.read word
          ((Cell.new.append 7 2).2.read word last).epoch).missed.toNat =
        if ([.append 7] : List (Op UInt32)) = [] then
          0 else ([.write 5] : List (Op UInt32)).length - 1 := by
  refine cell_counts (.append .nil (free_two rfl)) (.write .nil ⟨by decide, by decide, rfl⟩)
    (by decide) ?_
  rw [singleton_append, narrow_cons, narrow_cons]
  exact ⟨fun _ => by decide, ⟨fun _ => by decide, by simp [Narrow]⟩⟩

theorem exists_writes (n : ℕ) :
    ∃ ops c, Runs word .new ops c ∧ (c : Cell UInt32).blocks = (fun _ => none) ∧ ops.length = n ∧
      ∀ op ∈ ops, op.inline word = true := by
  induction n with
  | zero => exact ⟨[], .new, .nil, rfl, rfl, nofun⟩
  | succ n ih =>
    obtain ⟨ops, c, hrun, hblocks, hlen, hall⟩ := ih
    refine ⟨.write 0 :: ops, _, .write hrun (free_two hblocks), hblocks, congrArg (· + 1) hlen, ?_⟩
    intro op hop
    rcases mem_cons.mp hop with rfl | hop
    · rfl
    · exact hall op hop

/-- After `2 ^ 31` inline writes the epoch is 0; and a reader that has read the first of two writes
misses none. -/
theorem epoch_restarts :
    (∃ ops c, Runs word .new ops c ∧ ops.length = 2 ^ 31 ∧ c.writerEpoch.toNat = 0) ∧
      ((((Cell.new.write word 1 2).2.write word 5 2).2.read word
        ((Cell.new.write word 1 2).2.read word 0).epoch).missed = 0) := by
  refine ⟨?_, by decide⟩
  obtain ⟨ops, c, hrun, -, hlen, hall⟩ := exists_writes (2 ^ 31)
  refine ⟨ops, c, hrun, hlen, hrun.shows.1.trans ?_⟩
  cases ops with
  | nil => rfl
  | cons op rest =>
    simp only [length_cons] at hlen
    have hnarrow : Narrow word rest := by
      intro op' rest' hsuf _
      have hle := hsuf.length_le
      simp only [length_cons] at hle
      omega
    have hcount := epochAfter_eq_length.mpr ⟨by omega, hnarrow⟩
    simp only [epochAfter, hall op mem_cons_self, if_true, hcount]
    omega

end AxisBridge.CellWord
