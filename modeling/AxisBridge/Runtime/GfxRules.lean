import AxisBridge.Runtime.GfxFrame

/-! The frame rules over whole runs: what reaches the renderer between an open and the next open or
close, and what becomes of the other submits. -/
namespace AxisBridge.Gfx
open List

/-- The surface as the bridge keeps it, for a renderer `σ`, and the file of `AXGFX_DUMP`. -/
structure State (σ : Type) where
  lastSeq : Option UInt32
  events : List String
  sink : Option σ
  dumped : List UInt8

def State.start (σ : Type) : State σ := ⟨none, [], none, []⟩

open State (start)

/-- A call, an open with what the world makes of it: a renderer, or why there is none. -/
inductive Call (σ : Type)
  | openWindow (connect : ℕ → ℕ → String → Except String σ) (width height : ℤ) (title : String)
  | submit (frame : List UInt8)
  | poll
  | close

section
variable {σ : Type}

def clampSize (n : ℤ) : ℕ := (max 1 (min n 16384)).toNat

def gfxOpen (dumping : Bool) (connect : ℕ → ℕ → String → Except String σ) (width height : ℤ)
    (title : String) (s : State σ) : State σ × Bool :=
  let dumped := if dumping then [] else s.dumped
  match connect (clampSize width) (clampSize height) title with
  | .ok k => (⟨none, s.events, some k, dumped⟩, true)
  | .error why => (⟨none, s.events ++ ["refused\topen: " ++ why], none, dumped⟩, false)

/-- The answer to a submit, and what it hands to the renderer, which takes a frame with its bytes
and may report an event. -/
def gfxSubmit (accept : σ → Frame → List UInt8 → σ × Option String) (dumping : Bool) (s : State σ)
    (frame : List UInt8) : State σ × Bool × List (Frame × List UInt8) :=
  let s := { s with dumped := if dumping then s.dumped ++ frame else s.dumped }
  let refuse (why : String) := ({ s with events := s.events ++ ["refused\t" ++ why] }, false, [])
  match s.sink with
  | none => refuse "not open"
  | some k =>
    match parseFrame frame with
    | .error why => refuse why
    | .ok f =>
      match s.lastSeq.filter (f.seq ≤ ·) with
      | some last => refuse s!"stale: sequence {f.seq} is not greater than {last}"
      | none =>
        let accepted := accept k f frame
        ({ s with
            lastSeq := some f.seq, sink := some accepted.1,
            events := s.events ++ accepted.2.toList }, true, [(f, frame)])

def gfxPoll (s : State σ) : State σ × String :=
  ({ s with events := [] }, String.join (s.events.map (· ++ "\n")))

def gfxClose (s : State σ) : State σ := { s with sink := none, lastSeq := none }

/-- The null renderer: its size, how many frames it has drawn, and its log of them. -/
structure Null where
  width : ℕ
  height : ℕ
  drawn : UInt32
  drawlog : List String

def Null.accept (escapeAfter : Option UInt32) (logging : Bool) (k : Null) (f : Frame)
    (_raw : List UInt8) : Null × Option String :=
  if f.cmds = [] then (k, none)
  else
    let drawn := k.drawn + 1
    let line := s!"draw\t{f.seq}\t{f.cmds.length}"
    (⟨k.width, k.height, drawn, if logging then k.drawlog ++ [line] else k.drawlog⟩,
      if escapeAfter = some drawn then some "key\tEscape" else none)

variable (accept : σ → Frame → List UInt8 → σ × Option String) (dumping : Bool)

def State.perform (s : State σ) : Call σ → State σ × List (Frame × List UInt8)
  | .openWindow connect width height title => ((gfxOpen dumping connect width height title s).1, [])
  | .submit frame =>
    let submitted := gfxSubmit accept dumping s frame
    (submitted.1, submitted.2.2)
  | .poll => ((gfxPoll s).1, [])
  | .close => (gfxClose s, [])

def State.after (s : State σ) (calls : List (Call σ)) : State σ :=
  calls.foldl (fun s c => (s.perform accept dumping c).1) s

/-- The frames that calls hand to the renderer, with their bytes. -/
def State.handed (s : State σ) : List (Call σ) → List (Frame × List UInt8)
  | [] => []
  | c :: calls =>
    (s.perform accept dumping c).2 ++ (s.perform accept dumping c).1.handed calls

/-! ### The rules -/

/-- An open that gets a renderer. -/
def Call.Opens : Call σ → Prop
  | .openWindow connect width height title =>
    (connect (clampSize width) (clampSize height) title).isOk = true
  | _ => False

/-- Neither an open nor a close. -/
def Call.Within : Call σ → Prop
  | .submit _ => True
  | .poll => True
  | _ => False

def submitted (calls : List (Call σ)) : List (List UInt8) :=
  calls.filterMap fun
    | .submit frame => some frame
    | _ => none

/-- A whole frame with a sequence number above that of every frame before it. -/
def Follows (fs : List (Frame × List UInt8)) (b : List UInt8) (f : Frame) : Prop :=
  Encodes b f ∧ ∀ g ∈ fs, g.1.seq < f.seq

/-- What is to be accepted of the byte strings submitted since an open. -/
inductive Accepted : List (List UInt8) → List (Frame × List UInt8) → Prop
  | none : Accepted [] []
  | take {bs : List (List UInt8)} {fs : List (Frame × List UInt8)} {b : List UInt8} {f : Frame} :
      Accepted bs fs → Follows fs b f → Accepted (bs ++ [b]) (fs ++ [(f, b)])
  | skip {bs : List (List UInt8)} {fs : List (Frame × List UInt8)} {b : List UInt8} :
      Accepted bs fs → (¬ ∃ f, Follows fs b f) → Accepted (bs ++ [b]) fs

/-- The calls end in a session, in which these frames have been handed over. -/
def Session (calls : List (Call σ)) (fs : List (Frame × List UInt8)) : Prop :=
  ∃ before c seg, calls = before ++ c :: seg ∧ c.Opens ∧ (∀ c ∈ seg, c.Within) ∧
    fs = ((start σ).after accept dumping (before ++ [c])).handed accept dumping seg

/-- A submit hands over its frame. -/
def HandsOver (s : State σ) (b : List UInt8) (f : Frame) : Prop :=
  (gfxSubmit accept dumping s b).2 = (true, [(f, b)])

/-- A submit is refused: an event says so, and nothing else changes but for the dump. -/
def Refuses (s : State σ) (b : List UInt8) : Prop :=
  ∃ why, gfxSubmit accept dumping s b =
    ({ s with
        events := s.events ++ ["refused\t" ++ why],
        dumped := if dumping then s.dumped ++ b else s.dumped }, false, [])

end

section
variable {σ : Type} {accept : σ → Frame → List UInt8 → σ × Option String} {dumping : Bool}
  {s : State σ} {c : Call σ} {calls seg before : List (Call σ)} {fs : List (Frame × List UInt8)}
  {b : List UInt8} {f : Frame}

/-- A surface in a session: there is a renderer, and the last number is the greatest handed over. -/
structure Live (s : State σ) (fs : List (Frame × List UInt8)) : Prop where
  isOpen : s.sink.isSome = true
  none : s.lastSeq = .none → fs = []
  some : ∀ last, s.lastSeq = .some last → (∀ g ∈ fs, g.1.seq ≤ last) ∧ ∃ g ∈ fs, g.1.seq = last

theorem gfxSubmit_cases (accept : σ → Frame → List UInt8 → σ × Option String) (dumping : Bool)
    (s : State σ) (b : List UInt8) :
    (∃ k f, s.sink = some k ∧ Encodes b f ∧ (∀ last, s.lastSeq = some last → last < f.seq) ∧
        gfxSubmit accept dumping s b =
          (⟨some f.seq, s.events ++ (accept k f b).2.toList, some (accept k f b).1,
            if dumping then s.dumped ++ b else s.dumped⟩, true, [(f, b)])) ∨
      (¬ (s.sink.isSome = true ∧ ∃ f, Encodes b f ∧ ∀ last, s.lastSeq = some last → last < f.seq) ∧
        Refuses accept dumping s b) := by
  unfold gfxSubmit Refuses
  cases hsink : s.sink with
  | none =>
    right
    exact ⟨fun h => Bool.false_ne_true h.1, "not open", by simp [gfxSubmit, hsink]⟩
  | some k =>
    cases hparse : parseFrame b with
    | error why =>
      right
      refine ⟨?_, why, by simp [gfxSubmit, hsink, hparse]⟩
      rintro ⟨-, f, hf, -⟩
      cases hparse.symm.trans (parseFrame_iff.mpr hf)
    | ok f =>
      have hf := parseFrame_iff.mp hparse
      cases hstale : s.lastSeq.filter (f.seq ≤ ·) with
      | some last =>
        right
        obtain ⟨hlast, hle⟩ := Option.filter_eq_some_iff.mp hstale
        refine ⟨?_, _, by simp [gfxSubmit, hsink, hparse, hstale]; rfl⟩
        rintro ⟨-, g, hg, hlater⟩
        rw [hg.inj hf] at hlater
        exact absurd (hlater last hlast) (UInt32.not_lt.mpr (of_decide_eq_true hle))
      | none =>
        left
        refine ⟨k, f, rfl, hf, ?_, by simp [hstale]⟩
        intro last hlast
        rw [hlast, Option.filter_eq_none_iff] at hstale
        have hnot := hstale last rfl
        rw [decide_eq_true_eq] at hnot
        exact UInt32.not_le.mp hnot

/-! ### Runs -/

theorem after_append (s : State σ) (calls seg : List (Call σ)) :
    s.after accept dumping (calls ++ seg) =
      (s.after accept dumping calls).after accept dumping seg :=
  foldl_append

theorem handed_append (s : State σ) (calls seg : List (Call σ)) :
    s.handed accept dumping (calls ++ seg) = s.handed accept dumping calls ++
      (s.after accept dumping calls).handed accept dumping seg := by
  induction calls generalizing s with
  | nil => rfl
  | cons c calls ih =>
    rw [cons_append, State.handed, ih, ← append_assoc]
    rfl

theorem handed_concat (s : State σ) (calls : List (Call σ)) (c : Call σ) :
    s.handed accept dumping (calls ++ [c]) = s.handed accept dumping calls ++
      ((s.after accept dumping calls).perform accept dumping c).2 := by
  rw [handed_append]
  simp [State.handed]

/-! ### What a session keeps -/

theorem Live.follows_iff (h : Live s fs) :
    Follows fs b f ↔ Encodes b f ∧ ∀ last, s.lastSeq = .some last → last < f.seq := by
  refine and_congr_right fun _ => ?_
  constructor
  · intro hall last hlast
    obtain ⟨-, g, hg, rfl⟩ := h.some last hlast
    exact hall g hg
  · intro hlater g hg
    cases hlast : s.lastSeq with
    | none =>
      rw [h.none hlast] at hg
      cases hg
    | some last => exact UInt32.lt_of_le_of_lt ((h.some last hlast).1 g hg) (hlater last hlast)

/-- A submit in a session hands over the frame that follows, or is refused. -/
theorem Live.submit (h : Live s fs) (accept : σ → Frame → List UInt8 → σ × Option String)
    (dumping : Bool) (b : List UInt8) :
    (∃ f, Follows fs b f ∧ (s.perform accept dumping (.submit b)).2 = [(f, b)] ∧
        Live (s.perform accept dumping (.submit b)).1 (fs ++ [(f, b)])) ∨
      ((¬ ∃ f, Follows fs b f) ∧ (s.perform accept dumping (.submit b)).2 = [] ∧
        Live (s.perform accept dumping (.submit b)).1 fs) := by
  rcases gfxSubmit_cases accept dumping s b with
    ⟨k, f, hsink, hf, hlater, heq⟩ | ⟨hnot, why, heq⟩
  · left
    have hfollows := h.follows_iff.mpr ⟨hf, hlater⟩
    simp only [State.perform, heq]
    refine ⟨f, hfollows, rfl, rfl, nofun, fun last hlast => ?_⟩
    cases hlast
    refine ⟨fun g hg => ?_, (f, b), mem_append_right _ mem_cons_self, rfl⟩
    rcases mem_append.mp hg with hg | hg
    · exact UInt32.le_of_lt (hfollows.2 g hg)
    · rw [mem_singleton.mp hg]
      exact UInt32.le_refl _
  · right
    have hstep : s.perform accept dumping (.submit b) =
        ({ s with
            events := s.events ++ ["refused\t" ++ why],
            dumped := if dumping then s.dumped ++ b else s.dumped }, []) := by
      rw [State.perform, heq]
    rw [hstep]
    refine ⟨?_, rfl, h.isOpen, h.none, h.some⟩
    rintro ⟨f, hf⟩
    exact hnot ⟨h.isOpen, f, h.follows_iff.mp hf⟩

theorem live_of_opens (s : State σ) (h : c.Opens) : Live (s.perform accept dumping c).1 [] := by
  cases c with
  | openWindow connect width height title =>
    simp only [State.perform, gfxOpen]
    cases hconnect : connect (clampSize width) (clampSize height) title with
    | error why =>
      simp only [Call.Opens, hconnect] at h
      cases h
    | ok k => exact ⟨rfl, fun _ => rfl, nofun⟩
  | submit frame | poll | close => exact h.elim

/-- Over a session what is handed over is what is to be accepted. -/
theorem Live.session (h : Live s []) (accept : σ → Frame → List UInt8 → σ × Option String)
    (dumping : Bool) (hseg : ∀ c ∈ seg, c.Within) :
    Accepted (submitted seg) (s.handed accept dumping seg) ∧
      Live (s.after accept dumping seg) (s.handed accept dumping seg) := by
  induction seg using reverseRecOn with
  | nil => exact ⟨.none, h⟩
  | append_singleton seg c ih =>
    obtain ⟨hacc, hlive⟩ := ih fun c hc => hseg c (mem_append_left _ hc)
    have hc := hseg c (mem_append_right _ mem_cons_self)
    rw [handed_concat, after_append, submitted, filterMap_append]
    cases c with
    | openWindow connect width height title => exact hc.elim
    | submit frame =>
      rcases hlive.submit accept dumping frame with
        ⟨f, hf, hhanded, hnext⟩ | ⟨hnot, hhanded, hnext⟩
      · rw [hhanded]
        exact ⟨.take hacc hf, hnext⟩
      · rw [hhanded, append_nil]
        exact ⟨.skip hacc hnot, hnext⟩
    | poll =>
      simp only [State.perform, append_nil]
      refine ⟨?_, hlive.isOpen, hlive.none, hlive.some⟩
      rw [filterMap_cons_none rfl, filterMap_nil, append_nil]
      exact hacc
    | close => exact hc.elim

theorem Session.live (h : Session accept dumping calls fs) :
    Live ((start σ).after accept dumping calls) fs := by
  obtain ⟨before, c, seg, rfl, hc, hseg, rfl⟩ := h
  have hopen : Live ((start σ).after accept dumping (before ++ [c])) [] := by
    rw [after_append]
    exact live_of_opens _ hc
  have hlive := (hopen.session accept dumping hseg).2
  rwa [← after_append, append_assoc, singleton_append] at hlive

theorem Session.concat (h : Session accept dumping calls fs) (hc : c.Within) :
    ∃ fs, Session accept dumping (calls ++ [c]) fs := by
  obtain ⟨before, c₀, seg, rfl, hopen, hseg, rfl⟩ := h
  refine ⟨_, before, c₀, seg ++ [c], by simp, hopen, ?_, rfl⟩
  intro c' hc'
  rcases mem_append.mp hc' with hc' | hc'
  · exact hseg c' hc'
  · exact mem_singleton.mp hc' ▸ hc

/-- There is a renderer only in a session. -/
theorem exists_session (h : ((start σ).after accept dumping calls).sink.isSome = true) :
    ∃ fs, Session accept dumping calls fs := by
  induction calls using reverseRecOn with
  | nil => cases h
  | append_singleton calls c ih =>
    rw [after_append] at h
    cases c with
    | openWindow connect width height title =>
      refine ⟨_, calls, _, [], rfl, ?_, nofun, rfl⟩
      simp only [Call.Opens]
      cases hconnect : connect (clampSize width) (clampSize height) title with
      | error why => simp [State.after, State.perform, gfxOpen, hconnect] at h
      | ok k => rfl
    | submit frame =>
      have hbefore : ((start σ).after accept dumping calls).sink.isSome = true := by
        rcases gfxSubmit_cases accept dumping
          ((start σ).after accept dumping calls) frame with ⟨k, f, hsink, -⟩ | ⟨-, why, heq⟩
        · rw [hsink]
          rfl
        · have hstep : (((start σ).after accept dumping calls).perform accept dumping
              (.submit frame)).1.sink = ((start σ).after accept dumping calls).sink := by
            rw [State.perform, heq]
          exact hstep ▸ h
      obtain ⟨fs, hfs⟩ := ih hbefore
      exact hfs.concat trivial
    | poll =>
      obtain ⟨fs, hfs⟩ := ih h
      exact hfs.concat trivial
    | close => cases h

/-- Between an open that gets a renderer and the next open or close, the renderer is handed exactly
the whole frames that follow those before, in order; every other submit of a run is refused. -/
theorem gfx_frame_rules (accept : σ → Frame → List UInt8 → σ × Option String) (dumping : Bool)
    (calls : List (Call σ)) (b : List UInt8) :
    (∀ before c seg, calls = before ++ c :: seg → c.Opens → (∀ c ∈ seg, c.Within) →
      Accepted (submitted seg)
        (((start σ).after accept dumping (before ++ [c])).handed accept dumping seg)) ∧
    ((∃ fs f, Session accept dumping calls fs ∧ Follows fs b f ∧
        HandsOver accept dumping ((start σ).after accept dumping calls) b f) ∨
      ((¬ ∃ fs f, Session accept dumping calls fs ∧ Follows fs b f) ∧
        Refuses accept dumping ((start σ).after accept dumping calls) b)) := by
  constructor
  · rintro before c seg - hc hseg
    have hopen : Live ((start σ).after accept dumping (before ++ [c])) [] := by
      rw [after_append]
      exact live_of_opens _ hc
    exact (hopen.session accept dumping hseg).1
  · rcases gfxSubmit_cases accept dumping ((start σ).after accept dumping calls) b with
      ⟨k, f, hsink, hf, hlater, heq⟩ | ⟨hnot, hrefused⟩
    · left
      obtain ⟨fs, hfs⟩ := exists_session (by rw [hsink]; rfl)
      refine ⟨fs, f, hfs, hfs.live.follows_iff.mpr ⟨hf, hlater⟩, ?_⟩
      rw [HandsOver, heq]
    · right
      refine ⟨?_, hrefused⟩
      rintro ⟨fs, f, hfs, hf⟩
      exact hnot ⟨hfs.live.isOpen, f, hfs.live.follows_iff.mp hf⟩

end

/-- An open that gets the null renderer. -/
def nullOpen : Call Null := .openWindow (fun w h _ => .ok ⟨w, h, 0, []⟩) 640 480 "t"

/-- The empty frame with the number 5. -/
def frameFive : List UInt8 := Frame.bytes ⟨5, []⟩

/-- Submitted twice, a frame is handed over once. -/
theorem gfx_frame_rules_twice : Accepted [frameFive, frameFive] [(⟨5, []⟩, frameFive)] ∧
    Refuses (Null.accept none false) false
      ((start Null).after (Null.accept none false) false [nullOpen, .submit frameFive])
      frameFive := by
  have htwice := gfx_frame_rules (Null.accept none false) false
    [nullOpen, .submit frameFive, .submit frameFive] frameFive
  have hsecond :=
    gfx_frame_rules (Null.accept none false) false [nullOpen, .submit frameFive] frameFive
  refine ⟨htwice.1 [] nullOpen _ rfl rfl ?_, ?_⟩
  · simp [Call.Within]
  · rcases hsecond.2 with ⟨fs, f, -, -, hhanded⟩ | ⟨-, hrefused⟩
    · cases hhanded
    · exact hrefused

/-- A refused submit is in the dump all the same. -/
theorem gfx_refused_submit_dumped :
    let s := (start Null).after (Null.accept none false) true [nullOpen]
    Refuses (Null.accept none false) true s [0] ∧
      ¬ ∃ why, gfxSubmit (Null.accept none false) true s [0] =
        ({ s with events := s.events ++ ["refused\t" ++ why] }, false, []) := by
  refine ⟨⟨"truncated header (1 bytes)", rfl⟩, ?_⟩
  rintro ⟨why, heq⟩
  have hdumped : [(0 : UInt8)] = [] := congrArg (fun r => r.1.dumped) heq
  cases hdumped

end AxisBridge.Gfx
