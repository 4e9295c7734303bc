import AxisBridge.Lib.Source
import AxisBridge.Runtime.GfxRules
import AxisBridge.Runtime.Lossy

/-! The frame stream: what the bridge writes to a renderer in another process, and what that one
reads. -/
namespace AxisBridge.Gfx
open List Option

open Lossy (fromUtf8Lossy)
open MmapSeg (toLeBytes fromLeBytes)
open Source (Agree Delivers readExact takeExact)

inductive Record
  | opened (w h : UInt32) (title : String)
  | frame (raw : Bytes)

/-- `u16::to_le_bytes`. -/
def u16Bytes (n : ℕ) : Bytes := [.ofNat n, .ofNat (n / 2 ^ 8)]

def writeOpen (width height : UInt32) (title : String) : Bytes :=
  let t := (textBytes title).take 65535
  [1] ++ (leBytes width ++ leBytes height ++ u16Bytes t.length ++ t)

/-- The length is written modulo `2 ^ 32`. -/
def writeFrame (raw : Bytes) : Bytes := [2] ++ (toLeBytes raw.length ++ raw)

/-- The error of `Read::read_exact`. -/
def EOF : String := "failed to fill whole buffer"

def FRAME_LIMIT : ℕ := 64 * 1024 * 1024

section
variable {ρ σ : Type}

/-- One record from a source that `read` reads a number of bytes of. -/
def readRecord (read : ℕ → ρ → Except String (Bytes × ρ)) (r : ρ) : Except String (Record × ρ) := do
  let (k, r) ← read 1 r
  if k = [1] then
    let (h, r) ← read 10 r
    let (t, r) ← read (fromLeBytes (h.drop 8)) r
    return (.opened (u32At h 0) (u32At h 4) (fromUtf8Lossy t), r)
  else if k = [2] then
    let (l, r) ← read 4 r
    if fromLeBytes l > FRAME_LIMIT then .error "frame record too long"
    else
      let (f, r) ← read (fromLeBytes l) r
      return (.frame f, r)
  else .error s!"unknown record kind {fromLeBytes k}"

/-- The records up to the first error, for which the fuel has to reach. -/
def readAll (read : ℕ → ρ → Except String (Bytes × ρ)) : ℕ → ρ → List Record × Option String
  | 0, _ => ([], none)
  | fuel + 1, r =>
    match readRecord read r with
    | .error why => ([], some why)
    | .ok (record, r) =>
      let later := readAll read fuel r
      (record :: later.1, later.2)

/-- The records of a stream that arrives in these pieces. -/
def readStream (pieces : List Bytes) : List Record × Option String :=
  readAll (readExact EOF) (pieces.flatten.length + 1) pieces

/-- What the bridge has written to its connection, and whether it has failed. -/
structure StreamSink where
  stream : Bytes
  dead : Bool

/-- A renderer that accepts the connection. -/
def connect (w h : UInt32) (title : String) : StreamSink := ⟨writeOpen w h title, false⟩

/-- `StreamSink::accept`, on a connection that is up or down. -/
def StreamSink.accept (up : Bool) (k : StreamSink) (_frame : Frame) (raw : Bytes) :
    StreamSink × Option String :=
  if k.dead then (k, none)
  else if up then ({ k with stream := k.stream ++ writeFrame raw }, none)
  else ({ k with dead := true }, some "close")

/-- The surface as `gfx_open` leaves it. -/
def streaming (w h : UInt32) (title : String) (s : State StreamSink) : State StreamSink :=
  { s with lastSeq := none, sink := some (connect w h title) }

/-- The frames that are accepted of those submitted, on a connection that stays up. -/
def acceptedOf (dumping : Bool) (s : State StreamSink) (frames : List Bytes) : List Bytes :=
  (s.handed (StreamSink.accept true) dumping (frames.map .submit)).map Prod.snd

/-- The longest prefix of whole characters in at most 65535 bytes. -/
structure TitleOf (title s : String) : Prop where
  isPrefix : s.toList <+: title.toList
  fits : (textBytes s).length ≤ 65535
  longest : ∀ s' : String, s'.toList <+: title.toList → (textBytes s').length ≤ 65535 →
    (textBytes s').length ≤ (textBytes s).length

/-- The stream after the submits is read as the open and the accepted frames, in whatever pieces it
comes. -/
def Streams (dumping : Bool) (w h : UInt32) (title : String) (s : State StreamSink)
    (frames : List Bytes) : Prop :=
  ∃ k, ((streaming w h title s).after (StreamSink.accept true) dumping (frames.map .submit)).sink =
    some k ∧ ∀ pieces, Delivers pieces k.stream → ∃ t, TitleOf title t ∧
      readStream pieces =
        (.opened w h t :: (acceptedOf dumping (streaming w h title s) frames).map .frame, some EOF)

variable {R : ρ → σ → Prop} {read : ℕ → ρ → Except String (Bytes × ρ)}
  {read' : ℕ → σ → Except String (Bytes × σ)} {r : ρ} {r' : σ} {w h : UInt32}
  {title t : String} {raw rest bytes : Bytes} {pieces raws : List Bytes} {fuel n : ℕ}

/-! ### The stream in pieces -/

theorem readRecord_agree (hread : ∀ n s t, R s t → Agree R (read n s) (read' n t)) (hr : R r r') :
    Agree R (readRecord read r) (readRecord read' r') := by
  refine (hread 1 r r' hr).bind fun k s t hst => ?_
  by_cases hopen : k = [1]
  · simp only [hopen, if_true]
    refine (hread 10 s t hst).bind fun h s t hst => ?_
    exact (hread _ s t hst).bind fun t s t hst => .ok hst
  by_cases hframe : k = [2]
  · simp only [hframe, if_true]
    refine (hread 4 s t hst).bind fun l s t hst => ?_
    by_cases hlong : fromLeBytes l > FRAME_LIMIT
    · simp only [if_pos hlong]
      exact .error _
    · simp only [if_neg hlong]
      exact (hread _ s t hst).bind fun f s t hst => .ok hst
  · simp only [if_neg hopen, if_neg hframe]
    exact .error _

theorem readAll_agree (hread : ∀ n s t, R s t → Agree R (read n s) (read' n t)) (hr : R r r') :
    readAll read fuel r = readAll read' fuel r' := by
  induction fuel generalizing r r' with
  | zero => rfl
  | succ fuel ih =>
    have hrecord := readRecord_agree hread hr
    rw [readAll, readAll]
    generalize readRecord read r = x at hrecord ⊢
    generalize readRecord read' r' = y at hrecord ⊢
    cases hrecord with
    | error why => rfl
    | ok hst => simp only [ih hst]

/-- The pieces do not matter. -/
theorem readStream_eq (h : Delivers pieces bytes) :
    readStream pieces = readAll (takeExact EOF) (bytes.length + 1) bytes := by
  rw [readStream, h.2]
  exact readAll_agree (fun n _ _ hst => Source.readExact_agree EOF n hst) h

/-! ### Records -/

theorem fromLeBytes_u16 (h : n < 2 ^ 16) : fromLeBytes (u16Bytes n) = n := by
  simp only [u16Bytes, fromLeBytes, foldr_cons, foldr_nil, UInt8.toNat_ofNat']
  omega

theorem fromLeBytes_toLeBytes_mod (n : ℕ) : fromLeBytes (toLeBytes n) = n % 2 ^ 32 := by
  simp only [toLeBytes, fromLeBytes, foldr_cons, foldr_nil, UInt8.toNat_ofNat']
  omega

theorem readRecord_writeOpen (w h : UInt32) (title : String) (rest : Bytes) :
    readRecord (takeExact EOF) (writeOpen w h title ++ rest) =
      .ok (.opened w h (fromUtf8Lossy ((textBytes title).take 65535)), rest) := by
  rw [writeOpen]
  generalize ht : (textBytes title).take 65535 = t
  have hlen : t.length < 2 ^ 16 := by
    rw [← ht, length_take]
    omega
  have hbytes : [1] ++ (leBytes w ++ leBytes h ++ u16Bytes t.length ++ t) ++ rest =
      [1] ++ ((leBytes w ++ leBytes h ++ u16Bytes t.length) ++ (t ++ rest)) := by
    simp
  have hkind := @Source.takeExact_append UInt8 _ EOF 1 [1]
    ((leBytes w ++ leBytes h ++ u16Bytes t.length) ++ (t ++ rest)) rfl
  have hhead := @Source.takeExact_append UInt8 _ EOF 10
    (leBytes w ++ leBytes h ++ u16Bytes t.length) (t ++ rest) rfl
  have htitle := @Source.takeExact_append UInt8 _ EOF t.length t rest rfl
  have hn : fromLeBytes ((leBytes w ++ leBytes h ++ u16Bytes t.length).drop 8) = t.length :=
    fromLeBytes_u16 hlen
  have hdrop : (leBytes w ++ leBytes h ++ u16Bytes t.length).drop 0 =
      leBytes w ++ (leBytes h ++ u16Bytes t.length) := by
    rw [drop_zero, append_assoc]
  have hdrop' : (leBytes w ++ leBytes h ++ u16Bytes t.length).drop 4 =
    leBytes h ++ u16Bytes t.length := rfl
  have hw := u32At_of_drop hdrop
  have hh := u32At_of_drop hdrop'
  simp only [hbytes, readRecord, hkind, bind, Except.bind, if_true, hhead, hn, htitle, hw, hh]
  rfl

/-- Behind the kind and the length of a frame. -/
theorem readRecord_frame (raw rest : Bytes) : readRecord (takeExact EOF) (writeFrame raw ++ rest) =
    if raw.length % 2 ^ 32 > FRAME_LIMIT then .error "frame record too long"
    else takeExact EOF (raw.length % 2 ^ 32) (raw ++ rest) >>= fun p => .ok (.frame p.1, p.2) := by
  have hbytes : writeFrame raw ++ rest = [2] ++ (toLeBytes raw.length ++ (raw ++ rest)) := by
    simp [writeFrame]
  have hkind :=
    @Source.takeExact_append UInt8 _ EOF 1 [2] (toLeBytes raw.length ++ (raw ++ rest)) rfl
  have hlen := @Source.takeExact_append UInt8 _ EOF 4 (toLeBytes raw.length) (raw ++ rest) rfl
  have hne : ([2] : Bytes) ≠ [1] := by decide
  simp only [hbytes, readRecord, hkind, bind, Except.bind, if_neg hne, if_true, hlen,
    fromLeBytes_toLeBytes_mod]
  rfl

theorem readRecord_writeFrame (h : raw.length ≤ FRAME_LIMIT) (rest : Bytes) :
    readRecord (takeExact EOF) (writeFrame raw ++ rest) = .ok (.frame raw, rest) := by
  have hmod : raw.length % 2 ^ 32 = raw.length := by
    rw [FRAME_LIMIT] at h
    omega
  rw [readRecord_frame, hmod, if_neg (Nat.not_lt.mpr h), Source.takeExact_append rfl]
  rfl

/-- A longer frame is refused, or another one is read in its place. -/
theorem readRecord_long (h : FRAME_LIMIT < raw.length) (rest left : Bytes) :
    readRecord (takeExact EOF) (writeFrame raw ++ rest) ≠ .ok (.frame raw, left) := by
  rw [readRecord_frame]
  split
  · intro hread
    cases hread
  · next hmod =>
    have hlt : raw.length % 2 ^ 32 < raw.length := by omega
    rw [takeExact, if_pos (by rw [length_append]; omega)]
    intro hread
    have hsame : (raw ++ rest).take (raw.length % 2 ^ 32) = raw := by
      injection hread with hpair
      injection hpair with hrecord
      injection hrecord
    have hlen := congrArg List.length hsame
    rw [length_take, length_append] at hlen
    omega

/-- A stream of frames is read as these frames just when the reader takes all of them. -/
theorem readAll_frames (hfuel : raws.length < fuel) :
    readAll (takeExact EOF) fuel (raws.flatMap writeFrame) = (raws.map .frame, some EOF) ↔
      ∀ raw ∈ raws, raw.length ≤ FRAME_LIMIT := by
  induction raws generalizing fuel with
  | nil =>
    obtain ⟨fuel, rfl⟩ : ∃ k, fuel = k + 1 := ⟨fuel - 1, by omega⟩
    exact ⟨fun _ raw hraw => absurd hraw not_mem_nil, fun _ => rfl⟩
  | cons raw raws ih =>
    obtain ⟨fuel, rfl⟩ : ∃ k, fuel = k + 1 := ⟨fuel - 1, by omega⟩
    rw [length_cons] at hfuel
    rw [flatMap_cons, forall_mem_cons, readAll]
    by_cases hraw : raw.length ≤ FRAME_LIMIT
    · rw [readRecord_writeFrame hraw, ← @ih fuel (by omega)]
      simp [hraw, Prod.ext_iff]
    · refine ⟨fun h => ?_, fun h => absurd h.1 hraw⟩
      cases hread : readRecord (takeExact EOF) (writeFrame raw ++ raws.flatMap writeFrame) with
      | error why =>
        rw [hread] at h
        cases h
      | ok p =>
        obtain ⟨record, left⟩ := p
        rw [hread, map_cons] at h
        injection h with hrecords
        injection hrecords with hrecord
        rw [hrecord] at hread
        exact absurd hread (readRecord_long (Nat.lt_of_not_le hraw) _ _)

/-! ### Titles -/

theorem textBytes_mono {s : String} (h : s.toList <+: title.toList) :
    textBytes s <+: textBytes title := by
  obtain ⟨cs, hcs⟩ := h
  have htitle : title = s ++ String.ofList cs := String.toList_inj.mp (by simpa using hcs.symm)
  rw [htitle, textBytes_append]
  exact prefix_append _ _

theorem titleOf_cut {s : String} (h : strFromUtf8 ((textBytes title).take 65535) = some s) :
    TitleOf title s := by
  have hbytes := strFromUtf8_eq_some.mp h
  have hlen := congrArg List.length hbytes
  rw [length_take] at hlen
  refine ⟨prefix_of_textBytes (hbytes ▸ take_prefix _ _), by omega, fun s' hs' hfits => ?_⟩
  have hle := (textBytes_mono hs').length_le
  omega

/-- The title that is read is the one that is meant just when it is not cut inside a character. -/
theorem titleOf_iff : TitleOf title (fromUtf8Lossy ((textBytes title).take 65535)) ↔
    (strFromUtf8 ((textBytes title).take 65535)).isSome = true := by
  constructor
  · intro h
    have hprefix :
        textBytes (fromUtf8Lossy ((textBytes title).take 65535)) <+: (textBytes title).take 65535 :=
      prefix_take_iff.mpr ⟨textBytes_mono h.isPrefix, h.fits⟩
    rw [Lossy.of_prefix_lossy hprefix, strFromUtf8_textBytes]
    rfl
  · intro h
    obtain ⟨s, hs⟩ := Option.isSome_iff_exists.mp h
    rw [strFromUtf8_eq_some.mp hs, Lossy.fromUtf8Lossy_textBytes]
    exact titleOf_cut hs

/-! ### Runs -/

/-- The connection carries a record for each frame that is accepted. -/
theorem stream_after {dumping : Bool} {s : State StreamSink} {k : StreamSink}
    (hsink : s.sink = some k) (hup : k.dead = false) (frames : List Bytes) :
    ∃ k', (s.after (StreamSink.accept true) dumping (frames.map .submit)).sink = some k' ∧
      k'.stream = k.stream ++ (acceptedOf dumping s frames).flatMap writeFrame := by
  induction frames generalizing s k with
  | nil => exact ⟨k, hsink, (append_nil _).symm⟩
  | cons frame frames ih =>
    rcases gfxSubmit_cases (StreamSink.accept true) dumping s frame with
      ⟨k₀, f, hk₀, -, -, hsubmit⟩ | ⟨-, why, hsubmit⟩
    · obtain rfl : k = k₀ := some.inj (hsink.symm.trans hk₀)
      have haccept :
          StreamSink.accept true k f frame = (⟨k.stream ++ writeFrame frame, false⟩, none) := by
        simp [StreamSink.accept, hup]
      rw [haccept] at hsubmit
      obtain ⟨k', hk', hstream⟩ := ih (s := (gfxSubmit (StreamSink.accept true) dumping s frame).1)
        (k := ⟨k.stream ++ writeFrame frame, false⟩) (by rw [hsubmit]) rfl
      refine ⟨k', hk', ?_⟩
      rw [hstream, acceptedOf, acceptedOf, map_cons, State.handed]
      simp only [State.perform, hsubmit]
      simp
    · obtain ⟨k', hk', hstream⟩ := ih (s := (gfxSubmit (StreamSink.accept true) dumping s frame).1)
        (k := k) (by rw [hsubmit]; exact hsink) hup
      refine ⟨k', hk', ?_⟩
      rw [hstream, acceptedOf, acceptedOf, map_cons, State.handed]
      simp [State.perform, hsubmit]

/-! ### The stream -/

theorem length_le_records (raws : List Bytes) : raws.length ≤ (raws.flatMap writeFrame).length := by
  induction raws with
  | nil => exact le_refl _
  | cons raw raws ih =>
    rw [flatMap_cons, length_append, length_cons, writeFrame, length_append, length_singleton]
    omega

/-- The open and the frames as one list of bytes. -/
theorem readAll_stream (w h : UInt32) (title : String) (raws : List Bytes) (t : String) :
    readAll (takeExact EOF) ((writeOpen w h title ++ raws.flatMap writeFrame).length + 1)
      (writeOpen w h title ++ raws.flatMap writeFrame) =
      (.opened w h t :: raws.map .frame, some EOF) ↔ fromUtf8Lossy ((textBytes title).take 65535) =
      t ∧ ∀ raw ∈ raws, raw.length ≤ FRAME_LIMIT := by
  have hfuel : raws.length < (writeOpen w h title ++ raws.flatMap writeFrame).length := by
    have hle := length_le_records raws
    rw [length_append, writeOpen, length_append, length_singleton]
    omega
  rw [readAll, readRecord_writeOpen, ← readAll_frames hfuel]
  simp [Prod.ext_iff, and_assoc]

variable {dumping : Bool} {s : State StreamSink} {frames : List Bytes}

theorem Streams.cond (hstreams : Streams dumping w h title s frames) :
    (strFromUtf8 ((textBytes title).take 65535)).isSome = true ∧
      ∀ raw ∈ acceptedOf dumping (streaming w h title s) frames, raw.length ≤ FRAME_LIMIT := by
  obtain ⟨k, hk, hstream⟩ :=
    @stream_after dumping (streaming w h title s) (connect w h title) rfl rfl frames
  obtain ⟨k', hk', hread⟩ := hstreams
  obtain rfl : k = k' := some.inj (hk.symm.trans hk')
  -- the stream may come in one piece
  have hwhole : Delivers [k.stream] k.stream := by
    refine ⟨fun p hp => ?_, append_nil _⟩
    rw [mem_singleton.mp hp, hstream]
    exact cons_ne_nil _ _
  obtain ⟨t, htitle, hall⟩ := hread _ hwhole
  rw [readStream_eq hwhole, hstream] at hall
  obtain ⟨rfl, hframes⟩ := (readAll_stream w h title _ t).mp hall
  exact ⟨titleOf_iff.mp htitle, hframes⟩

/-- A frame that is submitted first is accepted if it is whole. -/
theorem acceptedOf_first {f : Frame} (hraw : Encodes raw f) :
    acceptedOf dumping (streaming w h title s) [raw] = [raw] := by
  rcases gfxSubmit_cases (StreamSink.accept true) dumping (streaming w h title s) raw with
    ⟨k, f, -, -, -, hsubmit⟩ | ⟨hnot, -⟩
  · simp [acceptedOf, State.handed, State.perform, hsubmit]
  · refine absurd ⟨rfl, f, hraw, fun last hlast => ?_⟩ hnot
    cases hlast

/-- The accepted frames and the title arrive just when the reader refuses no frame for its length
and the title is not cut inside a character. -/
theorem streams_iff (dumping : Bool) (w h : UInt32) (title : String) (s : State StreamSink)
    (frames : List Bytes) : Streams dumping w h title s frames ↔
      (strFromUtf8 ((textBytes title).take 65535)).isSome = true ∧
        ∀ raw ∈ acceptedOf dumping (streaming w h title s) frames, raw.length ≤ FRAME_LIMIT := by
  constructor
  · exact Streams.cond
  · rintro ⟨htitle, hframes⟩
    obtain ⟨k, hk, hstream⟩ :=
      @stream_after dumping (streaming w h title s) (connect w h title) rfl rfl frames
    refine ⟨k, hk, fun pieces hpieces => ⟨_, titleOf_iff.mpr htitle, ?_⟩⟩
    rw [readStream_eq hpieces, hstream]
    exact (readAll_stream w h title _ _).mpr ⟨rfl, hframes⟩

end

/-- A frame that clears the surface `n` times. -/
def clears (n : ℕ) : Frame := ⟨1, replicate n (.clear 0)⟩

theorem length_clears (n : ℕ) : (clears n).bytes.length = 14 + 5 * n := by
  have hcmd : (Cmd.clear 0).bytes.length = 5 := rfl
  simp only [clears, Frame.bytes, length_append, length_leBytes, MmapSeg.length_toLeBytes,
    length_flatMap, map_replicate, sum_replicate_nat, hcmd, length_replicate]
  simp only [MAGIC, length_cons, length_nil]
  omega

/-- A frame of a few bytes over 64 MiB is accepted, and not read. -/
theorem long_frame_lost :
    ¬ Streams false 640 480 "" (State.start StreamSink) [(clears 13421771).bytes] := by
  intro hstreams
  have hraw : Encodes (clears 13421771).bytes (clears 13421771) := by
    refine ⟨?_, rfl⟩
    rw [clears, length_replicate]
    omega
  have hle := hstreams.cond.2 (clears 13421771).bytes
    (by rw [acceptedOf_first hraw]; exact mem_singleton_self _)
  rw [length_clears, FRAME_LIMIT] at hle
  omega

end AxisBridge.Gfx
