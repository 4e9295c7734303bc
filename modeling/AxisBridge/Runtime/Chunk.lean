import AxisBridge.Runtime.Text
import Mathlib.Data.Nat.Log

/-! The content-defined chunker: where it cuts a stream, and that its buffer does not matter. -/
namespace AxisBridge.Chunk
open List

/-- The state of splitmix64 and the `n` numbers it draws. -/
def splitmix : ℕ → UInt64 → List UInt64
  | 0, _ => []
  | n + 1, x =>
    let x := x + 0x9E3779B97F4A7C15
    let z := (x ^^^ (x >>> 30)) * 0xBF58476D1CE4E5B9
    let z := (z ^^^ (z >>> 27)) * 0x94D049BB133111EB
    (z ^^^ (z >>> 31)) :: splitmix n x

def GEAR : List UInt64 := splitmix 256 0x9E3779B97F4A7C15

def gear (x : UInt8) : UInt64 := GEAR[x.toNat]?.getD 0

def DEFAULT_AVG : ℕ := 1024 * 1024

def MIN_AVG : ℕ := 64

structure Params where
  min : ℕ
  avg : ℕ
  max : ℕ
  maskS : UInt64
  maskL : UInt64

def envUsize (var : Option String) : Option ℕ := (var.bind parseUsize).filter (0 < ·)

/-- The bits that `spread_mask` sets. -/
def spreadBits (bits : ℕ) : ℕ → UInt64
  | 0 => 0
  | k + 1 => spreadBits bits k ||| (1 <<< UInt64.ofNat (1 + k * 61 / bits))

def spreadMask (bits : ℕ) : UInt64 :=
  let bits := Nat.min (Nat.max bits 1) 60
  spreadBits bits bits

/-- `params`, from the values of its variables; sums and products wrap as the release build's do. -/
def params (avgVar minVar maxVar : Option String) : Params :=
  let avg := Nat.max ((envUsize avgVar).getD DEFAULT_AVG) MIN_AVG
  let min := Nat.max ((envUsize minVar).getD (avg / 4)) 1
  let max := Nat.max ((envUsize maxVar).getD (avg * 4 % 2 ^ 64)) ((min + 1) % 2 ^ 64)
  let b := Nat.log2 avg
  ⟨min, avg, max, spreadMask (b + 2), spreadMask (Nat.max (b - 2) 1)⟩

/-- The bytes of one region under one mask: where it is cut, or else the fingerprint behind it. -/
def gearScan (mask : UInt64) : Bytes → ℕ → UInt64 → ℕ ⊕ UInt64
  | [], _, fp => .inr fp
  | x :: xs, i, fp =>
    let fp := (fp <<< 1) + gear x
    if fp &&& mask = 0 then .inl i else gearScan mask xs (i + 1) fp

/-- The length of the first chunk of the bytes. -/
def fastcdcCut (data : Bytes) (p : Params) : ℕ :=
  let len := data.length
  if len ≤ p.min then len
  else
    let n := Nat.min len p.max
    let normal := Nat.min p.avg n
    match gearScan p.maskS ((data.take normal).drop p.min) p.min 0 with
    | .inl i => i
    | .inr fp =>
      let i := Nat.max p.min normal
      match gearScan p.maskL ((data.take n).drop i) i fp with
      | .inl i => i
      | .inr _ => n

/-- One line of the manifest. -/
structure Entry where
  off : ℕ
  len : ℕ
  addr : String
  deriving DecidableEq

def Entry.content (e : Entry) : ℕ × String := (e.len, e.addr)

def Entry.line (e : Entry) : String := s!"{e.off}\t{e.len}\t{e.addr}\n"

def READ_SIZE : ℕ := 65536

/-- The bytes that successive calls of `read` deliver. Behind them a read gives none, and before
them none gives none or more than it has room for. -/
structure Reads (data : Bytes) where
  pieces : List Bytes
  flatten_eq : pieces.flatten = data
  fits : ∀ piece ∈ pieces, piece ≠ [] ∧ piece.length ≤ READ_SIZE

/-- The reads in front of a cut: until the buffer has `max` bytes or the stream has ended. -/
def fill (max : ℕ) (buf : Bytes) :
    List Bytes → Bool → Bytes × List Bytes × Bool
  | pieces, true => (buf, pieces, true)
  | [], false => if buf.length < max then (buf, [], true) else (buf, [], false)
  | piece :: pieces, false =>
    if buf.length < max then
      if piece = [] then (buf, pieces, true) else fill max (buf ++ piece) pieces false
    else (buf, piece :: pieces, false)

section
variable [Sha256]

def chunkLoop (p : Params) :
    ℕ → ℕ → Bytes → List Bytes → Bool → List Entry → List Entry
  | 0, _, _, _, _, out => out
  | fuel + 1, abs, buf, pieces, eof, out =>
    let (buf, pieces, eof) := fill p.max buf pieces eof
    if buf = [] then out
    else
      let cut := fastcdcCut buf p
      chunkLoop p fuel (abs + cut) (buf.drop cut) pieces eof
        (out ++ [⟨abs, cut, bytesHash (buf.take cut)⟩])

/-- The chunks of a stream that comes in pieces; each takes a byte at least, which bounds the
rounds. -/
def chunkEntries (p : Params) (pieces : List Bytes) : List Entry :=
  chunkLoop p (pieces.flatten.length + 1) 0 [] pieces false []

end

/-- The manifest's text, without the last line feed. -/
def manifest (out : List Entry) : String :=
  let text := (out.map fun e => e.line.toList).flatten
  String.ofList (if text.getLast? = some '\n' then text.dropLast else text)

/-- What `Vec::with_capacity` is asked for. -/
def capacity (p : Params) : ℕ := (p.max + READ_SIZE) % 2 ^ 64

/-- The manifest of a stream, in a memory with room for `room` bytes in one buffer; there is none
where `Vec` is asked for more, or for more than `isize::MAX`. -/
def chunkReader [Sha256] (room : ℕ) (p : Params) (pieces : List Bytes) : Option String :=
  if 2 ^ 63 ≤ capacity p ∨ room < capacity p then none else some (manifest (chunkEntries p pieces))

/-! ### The chunks of a whole stream -/

section
variable [Sha256]

/-- The chunks of the bytes from `off` on: the first is as long as the cut of all the bytes
there. -/
inductive Cuts (p : Params) : ℕ → Bytes → List Entry → Prop
  | nil (off : ℕ) : Cuts p off [] []
  | cons {off : ℕ} {data : Bytes} {out : List Entry} (hne : data ≠ [])
      (hrest : Cuts p (off + fastcdcCut data p) (data.drop (fastcdcCut data p)) out) :
      Cuts p off data
        (⟨off, fastcdcCut data p, bytesHash (data.take (fastcdcCut data p))⟩ :: out)

/-- Where the first `i` chunks end. -/
def endOf (out : List Entry) (i : ℕ) : ℕ := ((out.take i).map Entry.len).sum

/-- The chunks lie end to end over the whole stream, each with the hash of its bytes. -/
structure Covers (data : Bytes) (out : List Entry) : Prop where
  whole : endOf out out.length = data.length
  spans : ∀ i (hi : i < out.length), out[i].off = endOf out i ∧
    out[i].addr = bytesHash ((data.drop out[i].off).take out[i].len)

end

/-- No chunk is longer than `max`, and only the last may be shorter than `min`. -/
def SizesFit (p : Params) (out : List Entry) : Prop :=
  ∀ i (hi : i < out.length), out[i].len ≤ p.max ∧ (i + 1 < out.length → p.min ≤ out[i].len)

section
variable {p : Params} {data more buf : Bytes} {mask fp : UInt64} {xs : Bytes} {i j : ℕ}

theorem gearScan_inl (h : gearScan mask xs i fp = .inl j) : i ≤ j ∧ j < i + xs.length := by
  induction xs generalizing i fp with
  | nil => cases h
  | cons x xs ih =>
    rw [gearScan] at h
    split at h
    · cases h
      simp
    · have hrest := ih h
      rw [length_cons]
      omega

theorem fastcdcCut_short (h : data.length ≤ p.min) : fastcdcCut data p = data.length := by
  rw [fastcdcCut, if_pos h]

/-- A longer stream is cut at a boundary between `min` and `max`, or else at `max` or at its end. -/
theorem fastcdcCut_long (h : p.min < data.length) : fastcdcCut data p = Nat.min data.length p.max ∨
    p.min ≤ fastcdcCut data p ∧ fastcdcCut data p < Nat.min data.length p.max := by
  have hnormal : Nat.min p.avg (Nat.min data.length p.max) ≤ Nat.min data.length p.max :=
    min_le_right ..
  have hmax : p.min ≤ Nat.max p.min (Nat.min p.avg (Nat.min data.length p.max)) :=
    le_max_left ..
  simp only [fastcdcCut, if_neg (Nat.not_le.mpr h)]
  generalize Nat.min data.length p.max = n at hnormal hmax ⊢
  generalize Nat.min p.avg n = normal at hnormal hmax ⊢
  split
  · rename_i i hscan
    have hbounds := gearScan_inl hscan
    simp only [length_drop, length_take] at hbounds
    omega
  · split
    · rename_i i hscan
      have hbounds := gearScan_inl hscan
      simp only [length_drop, length_take] at hbounds
      omega
    · exact .inl rfl

theorem fastcdcCut_le (h : p.min < data.length) :
    fastcdcCut data p ≤ data.length ∧ fastcdcCut data p ≤ p.max := by
  have hn : Nat.min data.length p.max ≤ data.length ∧ Nat.min data.length p.max ≤ p.max :=
    ⟨min_le_left .., min_le_right ..⟩
  have hcut := fastcdcCut_long h
  omega

theorem min_le_fastcdcCut (hp : p.min ≤ p.max) (h : p.min < data.length) :
    p.min ≤ fastcdcCut data p := by
  have hn : p.min ≤ Nat.min data.length p.max := Nat.le_min.mpr ⟨h.le, hp⟩
  have hcut := fastcdcCut_long h
  omega

theorem fastcdcCut_le_length (data : Bytes) (p : Params) : fastcdcCut data p ≤ data.length := by
  by_cases h : data.length ≤ p.min
  · exact (fastcdcCut_short h).le
  · exact (fastcdcCut_le (by omega)).1

/-- A cut takes a byte at least. -/
theorem fastcdcCut_pos (hmin : 1 ≤ p.min) (hp : p.min ≤ p.max ∨ data.length ≤ p.max)
    (hne : data ≠ []) : 0 < fastcdcCut data p := by
  have hlen := length_pos_iff.mpr hne
  by_cases h : data.length ≤ p.min
  · rwa [fastcdcCut_short h]
  · have hmin' : p.min ≤ fastcdcCut data p := min_le_fastcdcCut (by omega) (by omega)
    omega

/-- Bytes behind the first `max` do not move the cut. -/
theorem fastcdcCut_append (hp : p.min ≤ p.max) (h : p.max ≤ data.length) (more : Bytes) :
    fastcdcCut (data ++ more) p = fastcdcCut data p := by
  have htake : ∀ k ≤ p.max, (data ++ more).take k = data.take k := fun k hk =>
    take_append_of_le_length (hk.trans h)
  have hn : Nat.min (data ++ more).length p.max = p.max :=
    min_eq_right (by rw [length_append]; omega)
  have hn' : Nat.min data.length p.max = p.max := min_eq_right h
  by_cases hshort : data.length ≤ p.min
  · have heq : p.min = p.max := by omega
    have hlen : data.length = p.max := by omega
    rw [fastcdcCut_short hshort]
    by_cases hmore : (data ++ more).length ≤ p.min
    · rw [fastcdcCut_short hmore]
      rw [length_append] at hmore ⊢
      omega
    · have hle : fastcdcCut (data ++ more) p ≤ p.max := (fastcdcCut_le (by omega)).2
      have hge : p.min ≤ fastcdcCut (data ++ more) p := min_le_fastcdcCut hp (by omega)
      omega
  · have hlong : ¬ (data ++ more).length ≤ p.min := by
      rw [length_append]
      omega
    have hnormal : Nat.min p.avg p.max ≤ p.max := min_le_right ..
    simp only [fastcdcCut, if_neg hshort, if_neg hlong, hn, hn', htake _ hnormal, htake _ le_rfl]

/-! ### The buffer -/

variable {pieces : List Bytes} {eof : Bool} {max abs fuel : ℕ} {out : List Entry}

/-- After the reads the buffer has `max` bytes, or there is nothing behind it. -/
theorem fill_spec (hne : ∀ piece ∈ pieces, piece ≠ []) (heof : eof = true → pieces = []) :
    let f := fill max buf pieces eof
    f.1 ++ f.2.1.flatten = buf ++ pieces.flatten ∧ (∀ piece ∈ f.2.1, piece ≠ []) ∧
      (f.2.2 = true → f.2.1 = []) ∧ (max ≤ f.1.length ∨ f.2.1 = []) := by
  induction pieces generalizing buf with
  | nil =>
    cases eof with
    | true => simp [fill]
    | false =>
      rw [fill]
      split <;> simp
  | cons piece pieces ih =>
    cases eof with
    | true => simp at heof
    | false =>
      have hpiece : piece ≠ [] := hne piece mem_cons_self
      rw [fill]
      split
      · have hrest := @ih (buf ++ piece) (fun q hq => hne q (mem_cons_of_mem _ hq)) nofun
        simpa only [flatten_cons, append_assoc] using hrest
      · rename_i hfull
        exact ⟨rfl, hne, nofun, .inl (Nat.le_of_not_lt hfull)⟩

/-- A buffer that has `max` bytes, or all that is left, is cut where the stream is. -/
theorem fastcdcCut_buffer (hp : p.min ≤ p.max ∨ (buf ++ more).length ≤ p.max)
    (hfull : p.max ≤ buf.length ∨ more = []) : fastcdcCut (buf ++ more) p = fastcdcCut buf p := by
  rcases hfull with hfull | rfl
  · rcases hp with hp | hp
    · exact fastcdcCut_append hp hfull more
    · have hmore : more = [] := by
        rw [length_append] at hp
        exact eq_nil_of_length_eq_zero (by omega)
      rw [hmore, append_nil]
  · rw [append_nil]

variable [Sha256]

/-- The loop yields the chunks of what it has not cut yet. -/
theorem chunkLoop_cuts (hmin : 1 ≤ p.min) (hne : ∀ piece ∈ pieces, piece ≠ [])
    (heof : eof = true → pieces = []) (hp : p.min ≤ p.max ∨ (buf ++ pieces.flatten).length ≤ p.max)
    (hfuel : (buf ++ pieces.flatten).length < fuel) :
    ∃ rest, chunkLoop p fuel abs buf pieces eof out = out ++ rest ∧
      Cuts p abs (buf ++ pieces.flatten) rest := by
  induction fuel generalizing abs buf pieces eof out with
  | zero => omega
  | succ fuel ih =>
    obtain ⟨hsame, hne', heof', hfull⟩ := @fill_spec buf pieces eof p.max hne heof
    rw [← hsame] at hp hfuel ⊢
    simp only [chunkLoop]
    generalize fill p.max buf pieces eof = f at hsame hne' heof' hfull hp hfuel ⊢
    obtain ⟨buf', pieces', eof'⟩ := f
    simp only at hsame hne' heof' hfull hp hfuel ⊢
    by_cases hbuf : buf' = []
    · have hnone : pieces' = [] := by
        rcases hfull with hfull | hnone
        · subst hbuf
          rw [length_nil] at hfull
          rcases hp with hp | hp
          · omega
          · cases pieces' with
            | nil => rfl
            | cons piece pieces' =>
              have hpos := length_pos_iff.mpr (hne' piece mem_cons_self)
              simp only [nil_append, flatten_cons, length_append] at hp
              omega
        · exact hnone
      subst hbuf hnone
      exact ⟨[], by simp, by simpa using .nil abs⟩
    · have hcut : fastcdcCut (buf' ++ pieces'.flatten) p = fastcdcCut buf' p :=
        fastcdcCut_buffer hp (hfull.imp_right fun h => by rw [h, flatten_nil])
      have hle : fastcdcCut buf' p ≤ buf'.length := fastcdcCut_le_length buf' p
      have hstream : buf' ++ pieces'.flatten ≠ [] := by simp [hbuf]
      have hpos : 0 < fastcdcCut buf' p := by
        rw [← hcut]
        exact fastcdcCut_pos hmin hp hstream
      have hdrop : (buf' ++ pieces'.flatten).drop (fastcdcCut buf' p) =
          buf'.drop (fastcdcCut buf' p) ++ pieces'.flatten :=
        drop_append_of_le_length hle
      have hlen : (buf'.drop (fastcdcCut buf' p) ++ pieces'.flatten).length + fastcdcCut buf' p =
          (buf' ++ pieces'.flatten).length := by
        simp only [length_append, length_drop]
        omega
      rw [if_neg hbuf]
      obtain ⟨rest, hloop, hrest⟩ := @ih (buf'.drop (fastcdcCut buf' p)) pieces' eof'
        (abs + fastcdcCut buf' p)
        (out ++ [⟨abs, fastcdcCut buf' p, bytesHash (buf'.take (fastcdcCut buf' p))⟩])
        hne' heof' (hp.imp_right fun h => by omega) (by omega)
      refine ⟨_ :: rest, by rw [hloop, append_assoc]; rfl, ?_⟩
      have hcons := @Cuts.cons _ p abs _ rest hstream
      rw [hcut, hdrop, take_append_of_le_length hle] at hcons
      exact hcons hrest

/-! ### What the chunks are -/

variable {off off' : ℕ} {data' : Bytes} {out' : List Entry}

omit [Sha256] in
theorem endOf_cons (e : Entry) (out : List Entry) (i : ℕ) :
    endOf (e :: out) (i + 1) = e.len + endOf out i := by
  simp [endOf]

/-- The chunks of what is left after the first `i`. -/
theorem Cuts.drop (h : Cuts p off data out) (i : ℕ) :
    Cuts p (off + endOf out i) (data.drop (endOf out i)) (out.drop i) := by
  induction h generalizing i with
  | nil off => simpa [endOf] using .nil off
  | @cons off data out hne hrest ih =>
    cases i with
    | zero => exact .cons hne hrest
    | succ i =>
      rw [endOf_cons, ← drop_drop, drop_succ_cons, ← add_assoc]
      exact ih i

/-- The bytes decide the chunks, up to where they lie. -/
theorem Cuts.content_eq (h : Cuts p off data out) (h' : Cuts p off' data out') :
    out.map Entry.content = out'.map Entry.content := by
  induction h generalizing off' out' with
  | nil off =>
    cases h' with
    | nil => rfl
    | cons hne _ => exact absurd rfl hne
  | cons hne hrest ih =>
    cases h' with
    | nil => exact absurd rfl hne
    | cons _ hrest' => rw [map_cons, map_cons, ih hrest']; rfl

theorem Cuts.covers (h : Cuts p off data out) : endOf out out.length = data.length ∧
    ∀ i (hi : i < out.length), out[i].off = off + endOf out i ∧
      out[i].addr = bytesHash ((data.drop (endOf out i)).take out[i].len) := by
  induction h with
  | nil off => exact ⟨rfl, nofun⟩
  | @cons off data out hne hrest ih =>
    have hle : fastcdcCut data p ≤ data.length := fastcdcCut_le_length data p
    obtain ⟨hwhole, hspans⟩ := ih
    refine ⟨?_, ?_⟩
    · rw [length_cons, endOf_cons, hwhole, length_drop]
      simp only
      omega
    · intro i hi
      cases i with
      | zero => simp [endOf]
      | succ i =>
        obtain ⟨hoff, haddr⟩ := hspans i (by simpa using hi)
        simp only [getElem_cons_succ]
        rw [endOf_cons, ← drop_drop, ← haddr, hoff, add_assoc]
        exact ⟨rfl, rfl⟩

theorem Cuts.sizesFit (h : Cuts p off data out) (hp : p.min ≤ p.max ∨ data.length ≤ p.max) :
    SizesFit p out := by
  induction h with
  | nil off => exact nofun
  | @cons off data out hne hrest ih =>
    have hrest' : SizesFit p out := by
      refine ih (hp.imp_right fun h => ?_)
      rw [length_drop]
      omega
    intro i hi
    cases i with
    | succ i =>
      have hlen := hrest' i (by simpa using hi)
      simpa only [getElem_cons_succ, length_cons, Nat.add_lt_add_iff_right] using hlen
    | zero =>
      by_cases hshort : data.length ≤ p.min
      · have hcut := fastcdcCut_short hshort
        have hlast : out = [] := by
          rw [hcut, drop_length] at hrest
          cases hrest with
          | nil => rfl
          | cons hne _ => exact absurd rfl hne
        subst hlast
        simp only [getElem_cons_zero, length_singleton]
        omega
      · have hmax : fastcdcCut data p ≤ p.max := (fastcdcCut_le (by omega)).2
        simp only [getElem_cons_zero]
        refine ⟨hmax, fun _ => min_le_fastcdcCut ?_ (by omega)⟩
        omega

/-- The reader yields the chunks of the whole stream, whatever the reads deliver at a time. -/
def Delivers (room : ℕ) (p : Params) (reads : Reads data) : Prop :=
  ∃ out, chunkReader room p reads.pieces = some (manifest out) ∧ Cuts p 0 data out ∧
    Covers data out ∧ SizesFit p out

/-- `Vec` allows the buffer and has room for it, and `min` is not above `max` or the stream no
longer than that. -/
def InBounds (room : ℕ) (p : Params) (length : ℕ) : Prop :=
  (capacity p < 2 ^ 63 ∧ capacity p ≤ room) ∧ (p.min ≤ p.max ∨ length ≤ p.max)

variable {room : ℕ}

theorem Delivers.of_inBounds (hmin : 1 ≤ p.min) (h : InBounds room p data.length)
    (reads : Reads data) : Delivers room p reads := by
  obtain ⟨hcap, hp⟩ := h
  obtain ⟨pieces, rfl, hfits⟩ := reads
  obtain ⟨out, hout, hcuts⟩ : ∃ out, chunkEntries p pieces = [] ++ out ∧
      Cuts p 0 ([] ++ pieces.flatten) out :=
    chunkLoop_cuts hmin (fun piece h => (hfits piece h).1) nofun hp (Nat.lt_succ_self _)
  obtain ⟨hwhole, hspans⟩ := hcuts.covers
  refine ⟨out, ?_, hcuts, ⟨hwhole, fun i hi => ?_⟩, hcuts.sizesFit hp⟩
  · rw [chunkReader, if_neg (by omega), hout, nil_append]
  · obtain ⟨hoff, haddr⟩ := hspans i hi
    rw [zero_add] at hoff
    rw [hoff]
    exact ⟨rfl, haddr⟩

/-- Chunks of the right sizes cannot cover a longer stream when `min` is above `max`. -/
theorem Delivers.inBounds {reads : Reads data} (h : Delivers room p reads) :
    InBounds room p data.length := by
  obtain ⟨out, hout, -, hcovers, hsizes⟩ := h
  refine ⟨?_, ?_⟩
  · by_contra hcap
    rw [chunkReader, if_pos (by omega)] at hout
    cases hout
  · clear hout
    have hwhole := hcovers.whole
    cases out with
    | nil => exact .inr (hwhole ▸ Nat.zero_le _)
    | cons e rest =>
      obtain ⟨hmax, hmin⟩ := hsizes 0 (by simp)
      cases rest with
      | nil =>
        simp only [endOf, length_singleton, take_succ_cons, take_zero,
          map_cons, map_nil, sum_cons, sum_nil, add_zero] at hwhole
        exact .inr (hwhole ▸ hmax)
      | cons e' rest => exact .inl ((hmin (by simp)).trans hmax)

omit [Sha256] in
theorem one_le_params_min (avgVar minVar maxVar : Option String) :
    1 ≤ (params avgVar minVar maxVar).min := le_max_right ..

/-- The reader yields the chunks of the whole stream exactly when `Vec` grants its buffer and `min`
is not above `max`, or the stream no longer than that. And what follows a boundary that two streams
share is cut the same. -/
theorem chunk_reader_iff (avgVar minVar maxVar : Option String) :
    (∀ (room : ℕ) (data : Bytes) (reads : Reads data),
      Delivers room (params avgVar minVar maxVar) reads ↔
        InBounds room (params avgVar minVar maxVar) data.length) ∧
    ∀ data data' out out', Cuts (params avgVar minVar maxVar) 0 data out →
      Cuts (params avgVar minVar maxVar) 0 data' out' →
      ∀ i j, data.drop (endOf out i) = data'.drop (endOf out' j) →
        (out.drop i).map Entry.content = (out'.drop j).map Entry.content := by
  have hmin := one_le_params_min avgVar minVar maxVar
  refine ⟨?_, ?_⟩
  · intro room data reads
    exact ⟨Delivers.inBounds, fun h => .of_inBounds hmin h reads⟩
  · intro data data' out out' hcuts hcuts' i j hsame
    have hrest := hcuts.drop i
    rw [hsame] at hrest
    exact hrest.content_eq (hcuts'.drop j)

end

attribute [local instance] textDigests

/-- `min` is the greatest `usize`, so that `min + 1` wraps to 0 and `max` stays below it. -/
def wrappedParams : Params := params none (some "18446744073709551615") (some "64")

/-- 66 bytes in one read. -/
def atOnce : Reads (replicate 66 0) where
  pieces := [replicate 66 0]
  flatten_eq := by decide +kernel
  fits := by decide +kernel

/-- Two reads make two chunks of the 66 bytes, and one read makes one, longer than `max`. -/
theorem buffer_moves_cut :
    (chunkEntries wrappedParams [replicate 66 0]).map Entry.len = [66] ∧
      (chunkEntries wrappedParams [replicate 64 0, [0, 0]]).map Entry.len = [64, 2] ∧
      ∀ room, ¬∀ (data : Bytes) (reads : Reads data), Delivers room wrappedParams reads := by
  refine ⟨by decide +kernel, by decide +kernel, fun room h => ?_⟩
  have hfits := (h _ atOnce).inBounds.2
  revert hfits
  decide +kernel

end AxisBridge.Chunk
