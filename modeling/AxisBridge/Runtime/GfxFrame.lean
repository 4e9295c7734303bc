import AxisBridge.Runtime.MmapSeg

/-! A frame of drawing commands as bytes, and its parser, which takes a frame whole or not at
all. -/
namespace AxisBridge.Gfx
open List

open MmapSeg (toLeBytes fromLeBytes)

def MAGIC : List UInt8 := [0x41, 0x58, 0x46, 0x52]

def VERSION : ℕ := 1

def HEADER : ℕ := 14

def OP_CLEAR : UInt8 := 1

def OP_RECT : UInt8 := 2

/-- A drawing command; the four coordinates are `f32`s, held as their bits. -/
inductive Cmd
  | clear (rgba : UInt32)
  | rect (x y w h rgba : UInt32)
  deriving DecidableEq

structure Frame where
  seq : UInt32
  cmds : List Cmd
  deriving DecidableEq

def u32At (b : List UInt8) (o : ℕ) : UInt32 := UInt32.ofNat (fromLeBytes ((b.drop o).take 4))

/-- A turn of the parser's loop: command `i` of `count`, at `pos`, and where it ends. -/
def parseCmd (b : List UInt8) (i count pos : ℕ) : Except String (Cmd × ℕ) :=
  match b[pos]? with
  | none => .error s!"truncated: command {i} of {count} missing"
  | some op =>
    if op = OP_CLEAR then
      if pos + 5 > b.length then .error s!"truncated clear at byte {pos}"
      else .ok (.clear (u32At b (pos + 1)), pos + 5)
    else if op = OP_RECT then
      if pos + 21 > b.length then .error s!"truncated rect at byte {pos}"
      else
        .ok (.rect (u32At b (pos + 1)) (u32At b (pos + 5)) (u32At b (pos + 9)) (u32At b (pos + 13))
          (u32At b (pos + 17)), pos + 21)
    else .error s!"unknown op {op.toNat} at byte {pos}"

/-- The last `n` of `count` commands, from `pos` on. -/
def parseCmds (b : List UInt8) (count : ℕ) : ℕ → ℕ → Except String (List Cmd × ℕ)
  | 0, pos => .ok ([], pos)
  | n + 1, pos =>
    match parseCmd b (count - (n + 1)) count pos with
    | .error why => .error why
    | .ok (cmd, next) =>
      match parseCmds b count n next with
      | .error why => .error why
      | .ok (cmds, stop) => .ok (cmd :: cmds, stop)

def parseFrame (b : List UInt8) : Except String Frame :=
  if b.length < HEADER then .error s!"truncated header ({b.length} bytes)"
  else if b.take 4 ≠ MAGIC then .error "bad magic"
  else
    let version := fromLeBytes ((b.drop 4).take 2)
    if version ≠ VERSION then .error s!"unknown version {version}"
    else
      let count := (u32At b 10).toNat
      match parseCmds b count count HEADER with
      | .error why => .error why
      | .ok (cmds, pos) =>
        if pos ≠ b.length then .error s!"{b.length - pos} trailing bytes after the last command"
        else .ok ⟨u32At b 6, cmds⟩

/-! ### The format -/

/-- `to_le_bytes`. -/
def leBytes (n : UInt32) : List UInt8 := toLeBytes n.toNat

def Cmd.bytes : Cmd → List UInt8
  | .clear rgba => OP_CLEAR :: leBytes rgba
  | .rect x y w h rgba =>
    OP_RECT :: (leBytes x ++ leBytes y ++ leBytes w ++ leBytes h ++ leBytes rgba)

/-- The bytes of a frame in version 1: the header, and the commands it counts. -/
def Frame.bytes (f : Frame) : List UInt8 :=
  MAGIC ++ [1, 0] ++ leBytes f.seq ++ toLeBytes f.cmds.length ++ f.cmds.flatMap Cmd.bytes

/-- Whole frames whose number of commands fits its field. -/
def Encodes (b : List UInt8) (f : Frame) : Prop := f.cmds.length < 2 ^ 32 ∧ b = f.bytes

variable {b rest bs : List UInt8} {o pos next stop i count n : ℕ} {v : UInt32} {cmd : Cmd}
  {cmds : List Cmd} {f g : Frame}

/-! ### Words -/

@[simp] theorem length_leBytes (v : UInt32) : (leBytes v).length = 4 := rfl

theorem u32At_of_drop (h : b.drop o = leBytes v ++ rest) : u32At b o = v := by
  have htake : (b.drop o).take 4 = leBytes v := by
    rw [h, take_left' (length_leBytes v)]
  rw [u32At, htake, leBytes, MmapSeg.fromLeBytes_toLeBytes v.toNat_lt]
  exact UInt32.ofNat_toNat

theorem fromLeBytes_lt (h : bs.length = 4) : fromLeBytes bs < 2 ^ 32 := by
  match bs, h with
  | [a, b, c, d], _ =>
    have ha := a.toNat_lt
    have hb := b.toNat_lt
    have hc := c.toNat_lt
    have hd := d.toNat_lt
    simp only [fromLeBytes, foldr_cons, foldr_nil]
    omega

theorem drop_word (h : o + 4 ≤ b.length) : b.drop o = leBytes (u32At b o) ++ b.drop (o + 4) := by
  have hlen : ((b.drop o).take 4).length = 4 := by
    rw [length_take, length_drop]
    omega
  have hword : leBytes (u32At b o) = (b.drop o).take 4 := by
    rw [leBytes, u32At, UInt32.toNat_ofNat', Nat.mod_eq_of_lt (fromLeBytes_lt hlen),
      MmapSeg.toLeBytes_fromLeBytes hlen]
  rw [hword, ← drop_drop, take_append_drop]

theorem drop_of_append (h : b.drop o = bs ++ rest) (hbs : bs.length = n) :
    b.drop (o + n) = rest := by
  rw [← drop_drop, h, ← hbs, drop_left]

theorem drop_of_cons {op : UInt8} (h : b.drop o = op :: rest) : b.drop (o + 1) = rest := by
  rw [← drop_drop, h, drop_one, tail_cons]

/-! ### Commands -/

theorem drop_eq_cons {op : UInt8} (h : b[pos]? = some op) :
    b.drop pos = op :: b.drop (pos + 1) := by
  obtain ⟨hlt, rfl⟩ := List.getElem?_eq_some_iff.mp h
  exact drop_eq_getElem_cons hlt

theorem getElem?_of_drop {op : UInt8} (h : b.drop pos = op :: rest) : b[pos]? = some op := by
  have hhead := congrArg List.head? h
  rwa [head?_drop] at hhead

/-- A turn takes the bytes of one command. -/
theorem parseCmd_iff : parseCmd b i count pos = .ok (cmd, next) ↔
    b.drop pos = cmd.bytes ++ b.drop next ∧ next = pos + cmd.bytes.length ∧ next ≤ b.length := by
  constructor
  · intro h
    unfold parseCmd at h
    split at h
    · cases h
    · next op hop =>
      have hhead := drop_eq_cons hop
      split at h
      · next hclear =>
        split at h
        · cases h
        · next hlen =>
          rw [not_lt] at hlen
          cases h
          refine ⟨?_, rfl, hlen⟩
          rw [hhead, drop_word (by omega), hclear]
          rfl
      · split at h
        · next hrect =>
          split at h
          · cases h
          · next hlen =>
            rw [not_lt] at hlen
            cases h
            refine ⟨?_, rfl, hlen⟩
            rw [hhead, drop_word (by omega), drop_word (o := pos + 5) (by omega),
              drop_word (o := pos + 9) (by omega), drop_word (o := pos + 13) (by omega),
              drop_word (o := pos + 17) (by omega), hrect]
            simp [Cmd.bytes]
        · cases h
  · rintro ⟨hbytes, rfl, hle⟩
    cases cmd with
    | clear rgba =>
      have hop : b[pos]? = some OP_CLEAR := getElem?_of_drop hbytes
      have hrgba : b.drop (pos + 1) = leBytes rgba ++ b.drop (pos + 5) :=
        drop_of_cons hbytes
      have hlen : ¬ pos + 5 > b.length := not_lt.mpr hle
      simp only [parseCmd, hop, if_pos, if_neg hlen, u32At_of_drop hrgba]
      rfl
    | rect x y w h rgba =>
      have hop : b[pos]? = some OP_RECT := getElem?_of_drop hbytes
      have hx : b.drop (pos + 1) = leBytes x ++ (leBytes y ++ (leBytes w ++ (leBytes h ++
          (leBytes rgba ++ b.drop (pos + 21))))) := by
        have hargs : b.drop (pos + 1) = (leBytes x ++ leBytes y ++ leBytes w ++ leBytes h ++
            leBytes rgba) ++ b.drop (pos + 21) := drop_of_cons hbytes
        simpa only [append_assoc] using hargs
      have hy := drop_of_append hx (length_leBytes x)
      have hw := drop_of_append hy (length_leBytes y)
      have hh := drop_of_append hw (length_leBytes w)
      have hrgba := drop_of_append hh (length_leBytes h)
      have hlen : ¬ pos + 21 > b.length := not_lt.mpr hle
      have hne : OP_RECT ≠ OP_CLEAR := by decide
      simp only [parseCmd, hop, if_neg hne, if_true, if_neg hlen, u32At_of_drop hx,
        u32At_of_drop hy, u32At_of_drop hw, u32At_of_drop hh, u32At_of_drop hrgba]
      rfl

/-- The loop takes the bytes of as many commands as it is told. -/
theorem parseCmds_iff (hpos : pos ≤ b.length) : parseCmds b count n pos = .ok (cmds, stop) ↔
    cmds.length = n ∧ b.drop pos = cmds.flatMap Cmd.bytes ++ b.drop stop ∧
      stop = pos + (cmds.flatMap Cmd.bytes).length ∧ stop ≤ b.length := by
  induction n generalizing pos cmds stop with
  | zero =>
    constructor
    · intro h
      cases h
      exact ⟨rfl, rfl, rfl, hpos⟩
    · rintro ⟨hlen, -, rfl, -⟩
      obtain rfl := eq_nil_of_length_eq_zero hlen
      rfl
  | succ n ih =>
    constructor
    · intro h
      unfold parseCmds at h
      split at h
      · cases h
      · next cmd next hcmd =>
        obtain ⟨hbytes, rfl, hle⟩ := parseCmd_iff.mp hcmd
        split at h
        · cases h
        · next cmds' stop' hcmds =>
          cases h
          obtain ⟨hlen, hrest, rfl, hstop⟩ := (ih hle).mp hcmds
          refine ⟨by rw [length_cons, hlen], ?_, ?_, hstop⟩
          · rw [hbytes, hrest, flatMap_cons, append_assoc]
          · rw [flatMap_cons, length_append, add_assoc]
    · rintro ⟨hlen, hbytes, rfl, hle⟩
      obtain ⟨cmd, cmds', rfl⟩ := exists_cons_of_length_eq_add_one hlen
      rw [length_cons, Nat.succ_inj] at hlen
      rw [flatMap_cons, length_append] at hle ⊢
      rw [flatMap_cons, append_assoc] at hbytes
      have hrest := drop_of_append hbytes rfl
      have hnext : pos + cmd.bytes.length ≤ b.length := by omega
      have hcmd : parseCmd b (count - (n + 1)) count pos = .ok (cmd, pos + cmd.bytes.length) :=
        parseCmd_iff.mpr ⟨by rw [hbytes, hrest], rfl, hnext⟩
      have hlater : parseCmds b count n (pos + cmd.bytes.length) =
          .ok (cmds', pos + (cmd.bytes.length + (cmds'.flatMap Cmd.bytes).length)) := by
        apply (ih hnext).mpr
        refine ⟨hlen, ?_, (add_assoc ..).symm, hle⟩
        rw [hrest, length_append]
      simp only [parseCmds, hcmd, hlater]

/-! ### Frames -/

theorem fromLeBytes_eq_version (h : bs.length = 2) : fromLeBytes bs = VERSION ↔ bs = [1, 0] := by
  match bs, h with
  | [lo, hi], _ =>
    have hlo := lo.toNat_lt
    simp only [fromLeBytes, foldr_cons, foldr_nil, VERSION, List.cons.injEq, and_true,
      ← UInt8.toNat_inj, UInt8.toNat_one, UInt8.toNat_zero]
    omega

/-- The parser takes exactly the whole frames, each with the commands it encodes. -/
theorem parseFrame_iff : parseFrame b = .ok f ↔ Encodes b f := by
  constructor
  · intro h
    unfold parseFrame at h
    split at h
    · cases h
    · next hheader =>
      rw [not_lt] at hheader
      have hlen : 14 ≤ b.length := hheader
      split at h
      · cases h
      · next hmagic =>
        rw [not_not] at hmagic
        simp only at h
        split at h
        · cases h
        · next hversion =>
          rw [not_not] at hversion
          split at h
          · cases h
          · next cmds pos hcmds =>
            split at h
            · cases h
            · next hend =>
              rw [not_not] at hend
              cases h
              obtain ⟨hcount, hbody, -, -⟩ := (parseCmds_iff hheader).mp hcmds
              have hword : ((b.drop 4).take 2).length = 2 := by
                rw [length_take, length_drop]
                omega
              have hver := (fromLeBytes_eq_version hword).mp hversion
              have hbytes : b = b.take 4 ++ ((b.drop 4).take 2 ++ b.drop 6) := by
                have h6 : b.drop 6 = (b.drop 4).drop 2 := by rw [drop_drop]
                rw [h6, take_append_drop, take_append_drop]
              refine ⟨hcount ▸ (u32At b 10).toNat_lt, ?_⟩
              have hseq := drop_word (b := b) (o := 6) (by omega)
              have hnum := drop_word (b := b) (o := 10) (by omega)
              have hall : b.drop 14 = cmds.flatMap Cmd.bytes := by
                rw [show b.drop 14 = _ from hbody, hend, drop_length, append_nil]
              rw [hmagic, hver, hseq, hnum, hall] at hbytes
              refine hbytes.trans ?_
              simp [Frame.bytes, hcount, leBytes]
  · rintro ⟨hcount, hb⟩
    have hbytes : b.drop 0 = MAGIC ++ ([1, 0] ++ (leBytes f.seq ++
        (leBytes (UInt32.ofNat f.cmds.length) ++ f.cmds.flatMap Cmd.bytes))) := by
      simp only [drop_zero, hb, Frame.bytes, leBytes, UInt32.toNat_ofNat', Nat.mod_eq_of_lt hcount,
        append_assoc]
    have hversion := drop_of_append hbytes (n := 4) rfl
    have hseq := drop_of_append hversion (n := 2) rfl
    have hnum := drop_of_append hseq (length_leBytes _)
    have hbody := drop_of_append hnum (length_leBytes _)
    simp only [zero_add] at hversion hseq hnum hbody
    have hmagic : b.take 4 = MAGIC := by
      rw [← drop_zero (l := b), hbytes]
      rfl
    have hver : fromLeBytes ((b.drop 4).take 2) = VERSION := by
      rw [hversion]
      rfl
    have hlen : b.length = 14 + (f.cmds.flatMap Cmd.bytes).length := by
      have htotal := congrArg List.length hbytes
      simp only [drop_zero, length_append, length_leBytes] at htotal
      rw [htotal]
      simp only [MAGIC, length_cons, length_nil]
      omega
    have hheader : HEADER ≤ b.length := by
      rw [hlen]
      exact Nat.le_add_right ..
    have hn : (u32At b 10).toNat = f.cmds.length := by
      rw [u32At_of_drop hnum, UInt32.toNat_ofNat', Nat.mod_eq_of_lt hcount]
    have hcmds : parseCmds b f.cmds.length f.cmds.length HEADER = .ok (f.cmds, b.length) := by
      apply (parseCmds_iff hheader).mpr
      refine ⟨rfl, ?_, hlen, le_rfl⟩
      rw [drop_length, append_nil]
      exact hbody
    simp [parseFrame, if_neg (not_lt.mpr hheader), hmagic, hver, hn, hcmds, u32At_of_drop hseq]

theorem Encodes.inj (hf : Encodes b f) (hg : Encodes b g) : f = g := by
  have heq := (parseFrame_iff.mpr hf).symm.trans (parseFrame_iff.mpr hg)
  exact Except.ok.inj heq

end AxisBridge.Gfx
