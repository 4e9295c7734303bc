import AxisBridge.Runtime.RecordReplay

/-! When the replay of a recorded run is the run again. -/
namespace AxisBridge.WorldLayer
open List Function Value
open String (empty_append ofList toList_append)

section
variable {valueTag : UInt32} {o : String → Option String} {c c' : Call} {e : Event} {s t r : String}

/-! ### What a replay answers -/

/-- The result's text does not end in a carriage return. -/
def Event.Plain (e : Event) : Prop := e.text.toList.getLast? ≠ some '\r'

/-- A read of a file the program has written was answered with what the writes asked for; any other
call had a result the trace can hold. -/
def Event.Safe (o : String → Option String) : Event → Prop
  | ⟨.wRead path, a⟩ =>
    match o path with
    | some c => a = .ok c
    | none => Event.Plain ⟨.wRead path, a⟩
  | ⟨.wExists path, a⟩ => (o path).isSome → a = true
  | e => e.Plain

/-- The same along a run, from what the program has written before it. -/
def SafeFrom : (String → Option String) → List Event → Prop
  | _, [] => True
  | o, e :: es => e.Safe o ∧ SafeFrom (e.call.touch o) es

def Event.replayed (valueTag : UInt32) (o : String → Option String) (e : Event) : Value :=
  (e.call.fromOverlay o).getD (e.call.decode valueTag (chopReturn e.text))

theorem text_tagged (s : String) : text ("T:" ++ s) = .str s := by
  rw [text, stripPrefix_append, Option.getD_some]

theorem longer (s : String) : s ≠ s ++ "\r" := by
  intro h
  have hlen := congrArg (fun s => s.toList.length) h
  simp at hlen

theorem text_return (s : String) : text s ≠ text (s ++ "\r") := by
  intro h
  by_cases htag : "T:".toList <+: s.toList
  · obtain ⟨later, hlater⟩ := htag
    have hs : s = "T:" ++ ofList later := by
      apply String.toList_inj.mp
      rw [← hlater, toList_append]
      exact congrArg _ String.toList_ofList.symm
    rw [hs, String.append_assoc, text_tagged, text_tagged] at h
    exact longer _ (str.inj h)
  · have hnot : ¬ "T:".toList <+: (s ++ "\r").toList := by
      intro hpre
      rw [toList_append] at hpre
      rcases prefix_concat_iff.mp hpre with heq | hpre
      · have hlast := congrArg List.getLast? heq
        rw [getLast?_concat] at hlast
        cases hlast
      · exact htag hpre
    simp only [text, stripPrefix, if_neg htag, if_neg hnot, Option.getD_none] at h
    exact longer _ (str.inj h)

theorem unit_not_mem_int (n : ℤ) : '\x1f' ∉ (toString n).toList := by
  intro h
  rcases isDigit_int h with h | h
  · cases h
  · revert h
    decide

/-- The last field of a run's result is the end of its text. -/
theorem decodeRun_inj {code out err err' : String} (hcode : '\x1f' ∉ code.toList)
    (h : decodeRun valueTag ("R:" ++ code ++ "\x1f" ++ out ++ "\x1f" ++ err) =
      decodeRun valueTag ("R:" ++ code ++ "\x1f" ++ out ++ "\x1f" ++ err')) : err = err' := by
  have hfields : ∃ o₁ o₂, ∀ t, splitOnce '\x1f' (out ++ "\x1f" ++ t) = some (o₁, o₂ ++ t) := by
    by_cases hout : '\x1f' ∈ out.toList
    · obtain ⟨front, later, hsplit, hfront⟩ := eq_append_cons_of_mem hout
      refine ⟨ofList front, ofList later ++ "\x1f", fun t => ?_⟩
      have hparts : out ++ "\x1f" ++ t = ofList front ++ String.singleton '\x1f' ++
          (ofList later ++ "\x1f" ++ t) := by
        apply String.toList_inj.mp
        simp [hsplit]
      have hfront' : '\x1f' ∉ (ofList front).toList := by rwa [String.toList_ofList]
      rw [hparts, splitOnce_append hfront']
    · exact ⟨out, "", fun t => by rw [empty_append]; exact splitOnce_append hout t⟩
  obtain ⟨o₁, o₂, hfields⟩ := hfields
  have hdecode : ∀ t, decodeRun valueTag ("R:" ++ code ++ "\x1f" ++ out ++ "\x1f" ++ t) =
      .ctor valueTag [.int (Int64.ofInt ((parseI64 code).getD (-1))), .str o₁, .str (o₂ ++ t)] := by
    intro t
    have hbody : "R:" ++ code ++ "\x1f" ++ out ++ "\x1f" ++ t =
        "R:" ++ (code ++ String.singleton '\x1f' ++ (out ++ "\x1f" ++ t)) := by
      simp only [String.append_assoc]
      rfl
    simp only [decodeRun, hbody, stripPrefix_append, Option.getD_some, splitOnce_append hcode,
      hfields]
  rw [hdecode, hdecode] at h
  simp only [ctor.injEq, List.cons.injEq, str.injEq, true_and, and_true] at h
  exact append_cancel h

theorem chop_tagged (tag : String) (hplain : tag.toList.getLast? ≠ some '\r')
    (h : (tag ++ s).toList.getLast? = some '\r') :
    ∃ s', s = s' ++ "\r" ∧ chopReturn (tag ++ s) = tag ++ s' := by
  rw [toList_append] at h
  by_cases hnil : s.toList = []
  · rw [hnil, append_nil] at h
    exact absurd h hplain
  · rw [getLast?_append_of_ne_nil _ hnil] at h
    refine ⟨chopReturn s, exists_return h, ?_⟩
    conv_lhs => rw [exists_return h, ← String.append_assoc]
    exact chopReturn_return _

theorem decodeRun_chop {code out err : String} (hcode : '\x1f' ∉ code.toList)
    (hlast : ("R:" ++ code ++ "\x1f" ++ out ++ "\x1f" ++ err).toList.getLast? = some '\r') :
    decodeRun valueTag (chopReturn ("R:" ++ code ++ "\x1f" ++ out ++ "\x1f" ++ err)) ≠
      decodeRun valueTag ("R:" ++ code ++ "\x1f" ++ out ++ "\x1f" ++ err) := by
  have hfront : ("R:" ++ code ++ "\x1f" ++ out ++ "\x1f").toList.getLast? ≠ some '\r' := by
    rw [toList_append]
    exact fun h => absurd (getLast?_concat.symm.trans h) (by decide)
  obtain ⟨err', rfl, hchop⟩ := chop_tagged _ hfront hlast
  intro h
  rw [hchop] at h
  exact longer _ (decodeRun_inj hcode h)

/-- The value of a result shows its last character. -/
theorem decode_chop_iff (c : Call) (a : c.Answer) :
    c.decode valueTag (chopReturn (c.real a)) = c.decode valueTag (c.real a) ↔
      (c.real a).toList.getLast? ≠ some '\r' := by
  constructor
  · intro h hlast
    have htext : ∀ r : String, r.toList.getLast? = some '\r' → text (chopReturn r) ≠ text r := by
      intro r hr
      have hne := text_return (chopReturn r)
      rwa [← exists_return hr] at hne
    cases c with
    | wExists path =>
      cases a with
      | false => exact absurd hlast (show "B:0".toList.getLast? ≠ some '\r' by decide)
      | true => exact absurd hlast (show "B:1".toList.getLast? ≠ some '\r' by decide)
    | wNow =>
      obtain ⟨s', hs', -⟩ := chop_tagged "I:" (by decide) hlast
      have hmem : '\r' ∈ (toString (min (Option.getD a 0) (2 ^ 63 - 1))).toList := by
        rw [hs', toList_append]
        exact mem_append_right _ (mem_singleton_self _)
      have hdigit := isDigit_repr hmem
      revert hdigit
      decide
    | wPrint s | wEprint s | wExit code =>
      exact absurd hlast (show "U:".toList.getLast? ≠ some '\r' by decide)
    | wRun cmd =>
      cases a with
      | ok a => exact decodeRun_chop (unit_not_mem_int _) hlast h
      | error e =>
        have hreal : (Call.wRun cmd).real (.error e) =
            "R:" ++ "-1" ++ "\x1f" ++ "" ++ "\x1f" ++ e :=
          congrArg (· ++ e) (by decide : "R:-1\x1f\x1f" = "R:" ++ "-1" ++ "\x1f" ++ "" ++ "\x1f")
        rw [hreal] at hlast h
        exact decodeRun_chop (by decide) hlast h
    | _ => exact htext _ hlast h
  · intro h
    rw [chopReturn_of_ne h]

theorem fromOverlay_eq (c : Call) :
    c.fromOverlay o =
      if c.f = "w_read" then (o ("\x1f".intercalate c.args)).map fun s => .str ("Ok:" ++ s)
      else if c.f = "w_exists" then (o ("\x1f".intercalate c.args)).map fun _ => .bool true
      else none := by
  cases c <;> simp [Call.fromOverlay, Call.f, Call.args]

/-- Calls that share their answers in the trace are answered from the program's own writes alike. -/
theorem fromOverlay_of_key (h : c.key = c'.key) : c.fromOverlay o = c'.fromOverlay o := by
  have hfields := congrArg (splitOnce '\t') h
  have hsplit : ∀ c : Call, splitOnce '\t' c.key =
      some (esc c.f, esc ("\x1f".intercalate c.args)) := fun c => splitOnce_append (esc_clean _).1 _
  rw [hsplit, hsplit, Option.some.injEq, Prod.mk.injEq] at hfields
  rw [fromOverlay_eq, fromOverlay_eq, esc_inj hfields.1, esc_inj hfields.2]

theorem touch_of_fromOverlay {v : Value} (h : c.fromOverlay o = some v) : c.touch o = o := by
  cases c <;> first | rfl | cases h

theorem fromOverlay_touch (h : c'.fromOverlay (c.touch o) = none) : c'.fromOverlay o = none := by
  have hmono : ∀ path, c.touch o path = none → o path = none := by
    intro path
    cases c with
    | wWrite p content =>
      simp only [Call.touch]
      by_cases hp : path = p <;> simp [hp]
    | wAppend p content =>
      cases ho : o p with
      | none => simp [Call.touch, ho]
      | some s => by_cases hp : path = p <;> simp [Call.touch, ho, hp]
    | _ => exact id
  cases c' with
  | wRead path | wExists path =>
    simp only [Call.fromOverlay, Option.map_eq_none_iff] at h ⊢
    exact hmono path h
  | _ => rfl

theorem text_ioErr (e : ErrorKind) (s : String) : text (ioErr e) ≠ .str ("Ok:" ++ s) := by
  have hhead : ∀ t : String, t.toList.head? ≠ some 'O' → t ≠ "Ok:" ++ s := by
    rintro t ht rfl
    rw [toList_append] at ht
    exact ht rfl
  intro h
  cases e with
  | notFound => exact hhead "Err:missing" (by decide) (str.inj ((text_tagged _).symm.trans h))
  | permissionDenied =>
    exact hhead "Err:denied" (by decide) (str.inj ((text_tagged _).symm.trans h))
  | other name =>
    have hlower : (ioErr (.other name)).toList.head? = some 't' := by
      have hmap : ioErr (.other name) = ("T:Err:" ++ name).map Char.toLower := rfl
      rw [hmap, String.toList_map, toList_append]
      rfl
    have htag : ¬ "T:".toList <+: (ioErr (.other name)).toList := by
      rintro ⟨later, hlater⟩
      rw [← hlater] at hlower
      cases hlower
    rw [text, stripPrefix, if_neg htag, Option.getD_none] at h
    refine hhead _ ?_ (str.inj h)
    rw [hlower]
    decide

/-- A replay answers a call as the run was answered exactly when the call is safe. -/
theorem replayed_eq_iff (valueTag : UInt32) (e : Event) :
    e.replayed valueTag o = e.value valueTag ↔ e.Safe o := by
  obtain ⟨c, a⟩ := e
  cases c with
  | wRead path =>
    cases ho : o path with
    | none =>
      simp only [Event.replayed, Call.fromOverlay, ho, Option.map_none, Option.getD_none,
        Event.Safe]
      exact decode_chop_iff _ a
    | some s =>
      simp only [Event.replayed, Call.fromOverlay, ho, Option.map_some, Option.getD_some,
        Event.Safe]
      cases a with
      | ok s' =>
        have hvalue : Event.value valueTag ⟨.wRead path, .ok s'⟩ = .str ("Ok:" ++ s') := by
          have htagged : "T:Ok:" ++ s' = "T:" ++ ("Ok:" ++ s') :=
            (congrArg (· ++ s') (by decide : "T:Ok:" = "T:" ++ "Ok:")).trans String.append_assoc
          exact (congrArg text htagged).trans (text_tagged _)
        rw [hvalue]
        constructor
        · intro h
          rw [append_cancel (str.inj h)]
        · intro h
          rw [Except.ok.inj h]
      | error e => exact iff_of_false (fun h => text_ioErr e s h.symm) (by simp)
  | wExists path =>
    cases ho : o path with
    | none =>
      simp only [Event.replayed, Call.fromOverlay, ho, Option.map_none, Option.getD_none,
        Event.Safe, Option.isSome_none, Bool.false_eq_true, false_implies, iff_true]
      apply (decode_chop_iff (.wExists path) a).mpr
      cases a with
      | false => exact (show "B:0".toList.getLast? ≠ some '\r' by decide)
      | true => exact (show "B:1".toList.getLast? ≠ some '\r' by decide)
    | some s =>
      simp only [Event.replayed, Call.fromOverlay, ho, Option.map_some, Option.getD_some,
        Event.Safe, Option.isSome_some, forall_const]
      cases a with
      | false =>
        exact iff_of_false (fun h => Bool.false_ne_true (Value.bool.inj h.symm)) Bool.false_ne_true
      | true => exact iff_of_true rfl rfl
  | _ => exact decode_chop_iff _ a

end

/-! ### Replays -/

section
variable {valueTag : UInt32} {next : Program} {outer outer' : Outer} {path : String} {w : World}
  {e : Event} {done todo : List Event} {n : ℕ} {vs : List Value}

/-- A replay in the middle of a trace: each call has used up the answers of the calls alike before
it, unless it is answered from the program's own writes. -/
structure Replays (w : World) (path : String) (done todo : List Event) : Prop where
  mode : w.mode = .replay
  trace : w.trace = path
  answers : w.answers = answersOf (traceText (done ++ todo))
  used : ∀ c : Call, c.fromOverlay w.overlay = none →
    w.used c.key = (done.filter fun e => e.call.key = c.key).length

/-- What a replay appends for a write. -/
def Event.outEffects (path : String) (e : Event) : List Effect :=
  if e.call.kind = .write then
    [.append (path ++ ".out") (e.call.key ++ "\t" ++ esc (chopReturn e.text) ++ "\n")]
  else []

/-- The answer of the trace to the call it is at. -/
theorem Replays.answer (h : Replays w path done (e :: todo))
    (hmiss : e.call.fromOverlay w.overlay = none) :
    (w.answers e.call.key)[w.used e.call.key]? = some (chopReturn e.text) := by
  have hlen : w.used e.call.key =
      ((done.filter fun e' => e'.call.key = e.call.key).map fun e => chopReturn e.text).length := by
    rw [h.used e.call hmiss, length_map]
  rw [h.answers, answersOf_traceText, filter_append, map_append, hlen,
    getElem?_append_right (le_refl _), Nat.sub_self, filter_cons_of_pos (by simp)]
  rfl

theorem Replays.step (h : Replays w path done (e :: todo)) (valueTag : UInt32)
    (a : Except Fault e.call.Answer) : ∃ w', perform valueTag e.call a w =
    (w', .ok (e.replayed valueTag w.overlay), e.outEffects path) ∧
    w'.overlay = e.call.touch w.overlay ∧ Replays w' path (done ++ [e]) todo := by
  have hreplay : w.isReplay = true := by simp [World.isReplay, h.mode]
  have hanswers : w.answers = answersOf (traceText (done ++ [e] ++ todo)) := by
    rw [h.answers, append_assoc]
    rfl
  have hused : ∀ c : Call, c.key ≠ e.call.key → c.fromOverlay w.overlay = none →
      w.used c.key = ((done ++ [e]).filter fun e => e.call.key = c.key).length := by
    intro c hne hc
    have hnone : ¬ e.call.key = c.key := fun heq => hne heq.symm
    rw [h.used c hc, filter_append, length_append]
    simp [hnone]
  rw [perform_eq, hreplay, if_pos rfl]
  cases hover : e.call.fromOverlay w.overlay with
  | some v =>
    have hread : e.outEffects path = [] := by
      apply if_neg
      revert hover
      cases e.call <;> simp [Call.fromOverlay, Call.kind]
    refine ⟨w, ?_, (touch_of_fromOverlay hover).symm, h.mode, h.trace, hanswers, ?_⟩
    · rw [hread, Event.replayed, hover]
      rfl
    · intro c hc
      refine hused c (fun hkey => ?_) hc
      rw [fromOverlay_of_key hkey, hover] at hc
      cases hc
  | none =>
    obtain ⟨w', hw'⟩ : ∃ w', w' =
        { w with overlay := e.call.touch w.overlay,
                 used := update w.used e.call.key (w.used e.call.key + 1) } := ⟨_, rfl⟩
    have hslot : slot e.call.f e.call.args e.call.kind e.call.miss (a.map e.call.real)
        (w.touched e.call) = (w', .ok (chopReturn e.text), e.outEffects path) := by
      have hanswer := h.answer hover
      have hmode := h.mode
      have htrace := h.trace
      simp only [Call.key] at hanswer
      simp only [slot, World.touched, hreplay, if_true, hmode, htrace, hanswer, Option.getD_some,
        hw']
      rfl
    simp only [hslot]
    refine ⟨w', ?_, by rw [hw'], by rw [hw', h.mode], by rw [hw', h.trace], by rw [hw', hanswers],
      ?_⟩
    · rw [Event.replayed, hover]
      rfl
    · intro c hc
      rw [hw'] at hc ⊢
      have hc := fromOverlay_touch hc
      by_cases hkey : c.key = e.call.key
      · have hone := h.used c hc
        simp only [hkey, update_self, filter_append, length_append] at hone ⊢
        simp [hone]
      · simp only [update_of_ne hkey]
        exact hused c hkey hc

theorem Unfaulted.answered {c : Call} (h : Unfaulted valueTag next outer (n + 1) vs)
    (hnext : next vs = some c) : ∃ a, outer vs.length c = .ok a ∧ (c.exits = false →
      Unfaulted valueTag next outer n (vs ++ [Event.value valueTag ⟨c, a⟩])) := by
  simp only [Unfaulted, hnext] at h
  cases ha : outer vs.length c with
  | error fault =>
    rw [ha] at h
    exact h.elim
  | ok a =>
    rw [ha] at h
    exact ⟨a, rfl, fun hexits => h.resolve_left (by simp [hexits])⟩

/-- While its calls are safe, a replay is the run it replays. -/
theorem replay_run (outer' : Outer) (hruns : Unfaulted valueTag next outer n vs)
    (h : Replays w path done (events valueTag next outer n vs))
    (hsafe : SafeFrom w.overlay (events valueTag next outer n vs)) :
    runCalls valueTag next outer' n vs w =
      ((events valueTag next outer n vs).map fun e => (e.call, e.value valueTag),
        (events valueTag next outer n vs).flatMap fun e => e.outEffects path) := by
  induction n generalizing vs w done with
  | zero => rfl
  | succ n ih =>
    cases hnext : next vs with
    | none => simp [runCalls, events, hnext]
    | some c =>
      obtain ⟨a, ha, hruns⟩ := hruns.answered hnext
      simp only [events, hnext, ha] at h hsafe
      obtain ⟨w', hperform, hoverlay, hlater⟩ := h.step valueTag (outer' vs.length c)
      have hvalue := (replayed_eq_iff valueTag _).mpr hsafe.1
      rw [hvalue] at hperform
      have hsafe := hsafe.2
      rw [← hoverlay] at hsafe
      simp only [runCalls, events, hnext, ha, hperform, map_cons, flatMap_cons]
      cases hexits : c.exits with
      | true => simp
      | false =>
        simp only [hexits, Bool.false_eq_true, if_false] at hlater hsafe ⊢
        rw [ih (hruns hexits) hlater hsafe]

/-- A replay with the results of the run it replays has only safe calls. -/
theorem safe_of_results (hruns : Unfaulted valueTag next outer n vs)
    (h : Replays w path done (events valueTag next outer n vs))
    (hresults : (runCalls valueTag next outer' n vs w).1 =
      (events valueTag next outer n vs).map fun e => (e.call, e.value valueTag)) :
    SafeFrom w.overlay (events valueTag next outer n vs) := by
  induction n generalizing vs w done with
  | zero => trivial
  | succ n ih =>
    cases hnext : next vs with
    | none =>
      simp only [events, hnext]
      trivial
    | some c =>
      obtain ⟨a, ha, hruns⟩ := hruns.answered hnext
      simp only [events, hnext, ha] at h
      obtain ⟨w', hperform, hoverlay, hlater⟩ := h.step valueTag (outer' vs.length c)
      simp only [runCalls, events, hnext, ha, hperform, map_cons, List.cons.injEq,
        Prod.mk.injEq, true_and] at hresults ⊢
      obtain ⟨hvalue, hrest⟩ := hresults
      refine ⟨(replayed_eq_iff valueTag _).mp hvalue, ?_⟩
      rw [← hoverlay]
      cases hexits : c.exits with
      | true => trivial
      | false =>
        simp only [hexits, Bool.false_eq_true, if_false, hvalue] at hlater hrest ⊢
        exact ih (hruns hexits) hlater hrest

/-- The effect is a write of this file. -/
def Effect.On (path : String) : Effect → Prop
  | .perform _ _ => False
  | .truncate p | .append p _ => p = path

theorem decode_ne_fault (c : Call) (r : String) (fault : Fault) :
    c.decode valueTag r ≠ fault.value := by
  cases c <;> cases fault <;> simp [Call.decode, text, decodeRun, Fault.value, AxisBridge.unknown]

theorem perform_replay (valueTag : UInt32) (hmode : w.mode = .replay) (c : Call)
    (a : Except Fault c.Answer) :
    (perform valueTag c a w).1.mode = .replay ∧ (perform valueTag c a w).1.trace = w.trace ∧
      (∃ v, (perform valueTag c a w).2.1 = .ok v ∧ ∀ fault : Fault, v ≠ fault.value) ∧
      ∀ e ∈ (perform valueTag c a w).2.2, e.On (w.trace ++ ".out") := by
  have hreplay : w.isReplay = true := by simp [World.isReplay, hmode]
  rw [perform_eq, hreplay, if_pos rfl]
  cases hover : c.fromOverlay w.overlay with
  | some v =>
    refine ⟨hmode, rfl, ⟨v, rfl, fun fault => ?_⟩, fun e he => absurd he not_mem_nil⟩
    cases c <;> cases fault <;> simp_all [Call.fromOverlay, Fault.value, AxisBridge.unknown] <;>
      grind
  | none =>
    simp only [slot, World.touched, hreplay, if_true, hmode, true_and]
    refine ⟨⟨_, rfl, decode_ne_fault c _⟩, fun e he => ?_⟩
    split at he
    · rw [mem_singleton.mp he]
      rfl
    · cases he

/-- Whatever a program does in a replay, all it writes is the trace's `.out`, and no call panics. -/
theorem replay_effects (hmode : w.mode = .replay) :
    (∀ e ∈ (runCalls valueTag next outer n vs w).2, e.On (w.trace ++ ".out")) ∧
      ∀ r ∈ (runCalls valueTag next outer n vs w).1, ∀ fault : Fault, r.2 ≠ fault.value := by
  induction n generalizing vs w with
  | zero => exact ⟨forall_mem_nil _, forall_mem_nil _⟩
  | succ n ih =>
    cases hnext : next vs with
    | none =>
      simp only [runCalls, hnext]
      exact ⟨forall_mem_nil _, forall_mem_nil _⟩
    | some c =>
      obtain ⟨hmode', htrace, ⟨v, hv, hvalue⟩, heffects⟩ :=
        perform_replay valueTag hmode c (outer vs.length c)
      simp only [runCalls, hnext, hv]
      cases hexits : c.exits with
      | true => exact ⟨by simpa using heffects, by simpa using hvalue⟩
      | false =>
        obtain ⟨hlater, hvalues⟩ := @ih _ (vs ++ [v]) hmode'
        rw [htrace] at hlater
        exact ⟨fun e he => (mem_append.mp he).elim (heffects e) (hlater e),
          forall_mem_cons.mpr ⟨hvalue, hvalues⟩⟩

/-- A recorded run shows its faults. -/
theorem unfaulted_of_results (hmode : w.mode = .record)
    (h : ∀ r ∈ (runCalls valueTag next outer n vs w).1, ∀ fault : Fault, r.2 ≠ fault.value) :
    Unfaulted valueTag next outer n vs := by
  induction n generalizing vs with
  | zero => trivial
  | succ n ih =>
    cases hnext : next vs with
    | none =>
      simp only [Unfaulted, hnext]
    | some c =>
      simp only [runCalls, hnext] at h
      simp only [Unfaulted, hnext]
      cases ha : outer vs.length c with
      | error fault =>
        rw [ha, perform_fault valueTag hmode] at h
        exact h _ mem_cons_self fault rfl
      | ok a =>
        rw [ha, perform_record valueTag hmode] at h
        cases hexits : c.exits with
        | true => exact .inl rfl
        | false =>
          simp only [hexits, Bool.false_eq_true, if_false] at h
          exact .inr (ih (forall_mem_cons.mp h).2)

/-- The writes of safe calls are listed as they were recorded. -/
theorem fileAfter_out (path : String) {o : String → Option String} {es : List Event}
    (h : SafeFrom o es) (content : String) :
    fileAfter (path ++ ".out") (es.flatMap fun e => e.outEffects path) content =
      content ++ traceText (es.filter fun e => e.call.kind = .write) := by
  induction es generalizing o content with
  | nil => exact String.append_empty.symm
  | cons e es ih =>
    rw [flatMap_cons, fileAfter_append, ih h.2]
    by_cases hkind : e.call.kind = .write
    · have hplain : chopReturn e.text = e.text := by
        apply chopReturn_of_ne
        obtain ⟨c, a⟩ := e
        cases c <;> first | exact h.1 | cases hkind
      have hout : fileAfter (path ++ ".out") (e.outEffects path) content =
          content ++ (e.line ++ "\n") := by
        simp [Event.outEffects, hkind, hplain, fileAfter, Event.line]
      rw [hout, filter_cons_of_pos (by simpa using hkind), traceText, String.append_assoc]
    · have hout : e.outEffects path = [] := if_neg hkind
      rw [hout, filter_cons_of_neg (by simpa using hkind)]
      rfl

theorem load_record (path : String) (readToString : String → Option String) :
    load ("record:" ++ path) readToString =
      (⟨.record, path, fun _ => [], fun _ => 0, fun _ => none⟩, []) := by
  have hsplit : splitOnce ':' ("record:" ++ path) = some ("record", path) :=
    splitOnce_append (s := "record") (by decide) path
  simp only [load, hsplit]

theorem load_replay (path : String) (readToString : String → Option String) :
    load ("replay:" ++ path) readToString =
      (⟨.replay, path, answersOf ((readToString path).getD ""), fun _ => 0, fun _ => none⟩,
        [.truncate (path ++ ".out")]) := by
  have hsplit : splitOnce ':' ("replay:" ++ path) = some ("replay", path) :=
    splitOnce_append (s := "replay") (by decide) path
  simp only [load, hsplit]

variable {onTrace : OnTrace}

theorem recorded_eq (path : String) (hkept : ∀ i s, onTrace i s = s)
    (hruns : Unfaulted valueTag next outer n []) : (recorded valueTag next outer path n).1 =
    (events valueTag next outer n []).map (fun e => (e.call, e.value valueTag)) ∧
    traceOf valueTag next outer onTrace path n = traceText (events valueTag next outer n []) := by
  have hrun := record_run valueTag next outer n []
    (rfl : (⟨.record, path, fun _ => [], fun _ => 0, fun _ => none⟩ : World).mode = .record) hruns
      ""
  rw [traceOf, traceAfter_kept hkept]
  simp only [recorded, runUnder, load_record, nil_append]
  rw [empty_append] at hrun
  exact hrun

/-- The replay of a recorded run is the run: the same calls with the same results, nothing written
but the list of the recorded writes. -/
structure Faithful (valueTag : UInt32) (next : Program) (outer outer' : Outer) (onTrace : OnTrace)
    (path : String) (n : ℕ) : Prop where
  results : (replayed valueTag next outer' path (traceOf valueTag next outer onTrace path n) n).1 =
    (recorded valueTag next outer path n).1
  only_out : ∀ e ∈ (replayed valueTag next outer' path
    (traceOf valueTag next outer onTrace path n) n).2, e.On (path ++ ".out")
  out_lists : ∀ old, fileAfter (path ++ ".out")
      (replayed valueTag next outer' path (traceOf valueTag next outer onTrace path n) n).2 old =
    traceText ((events valueTag next outer n []).filter fun e => e.call.kind = .write)

/-- The world a replay starts in. -/
def replayWorld (path txt : String) : World :=
  ⟨.replay, path, answersOf txt, fun _ => 0, fun _ => none⟩

theorem replayed_eq (valueTag : UInt32) (next : Program) (outer : Outer) (path txt : String)
    (n : ℕ) : replayed valueTag next outer path txt n =
    ((runCalls valueTag next outer n [] (replayWorld path txt)).1, .truncate (path ++ ".out") ::
    (runCalls valueTag next outer n [] (replayWorld path txt)).2) := by
  simp only [replayed, runUnder, load_replay, if_true, Option.getD_some]
  rfl

theorem replays_start (path : String) (es : List Event) :
    Replays (replayWorld path (traceText es)) path [] es :=
  ⟨rfl, rfl, rfl, fun _ _ => rfl⟩

theorem Faithful.unfaulted (h : Faithful valueTag next outer outer' onTrace path n) :
    Unfaulted valueTag next outer n [] := by
  have hvalues : ∀ r ∈ (recorded valueTag next outer path n).1, ∀ fault : Fault,
      r.2 ≠ fault.value := by
    rw [← h.results, replayed_eq]
    exact (replay_effects (w := replayWorld path _) rfl).2
  simp only [recorded, runUnder, load_record] at hvalues
  exact unfaulted_of_results rfl hvalues

theorem Faithful.safe (hkept : ∀ i s, onTrace i s = s)
    (h : Faithful valueTag next outer outer' onTrace path n) :
    SafeFrom (fun _ => none) (events valueTag next outer n []) := by
  obtain ⟨hrecorded, htrace⟩ := recorded_eq path hkept h.unfaulted
  have hresults := h.results
  rw [replayed_eq, htrace, hrecorded] at hresults
  exact safe_of_results h.unfaulted (replays_start path _) hresults

theorem faithful_of_safe (hkept : ∀ i s, onTrace i s = s)
    (hruns : Unfaulted valueTag next outer n [])
    (h : SafeFrom (fun _ => none) (events valueTag next outer n [])) :
    Faithful valueTag next outer outer' onTrace path n := by
  obtain ⟨hrecorded, htrace⟩ := recorded_eq path hkept hruns
  have hrun := replay_run outer' hruns (replays_start path _) h
  have hreplayed :=
    replayed_eq valueTag next outer' path (traceOf valueTag next outer onTrace path n) n
  constructor
  · rw [hreplayed, htrace, hrun, hrecorded]
  · rw [hreplayed]
    intro e he
    rcases mem_cons.mp he with rfl | he
    · rfl
    · exact (replay_effects (w := replayWorld path _) rfl).1 e he
  · intro old
    have hout := fileAfter_out path h ""
    rw [hreplayed, htrace, hrun]
    simpa [fileAfter] using hout

/-- A replay from the trace as the recorder has left it is faithful exactly when no call of the
recorded run panicked, each read of a file the program had written was answered with what its writes
asked for, and no other result ended in a carriage return. -/
theorem replay_faithful_iff (valueTag : UInt32) (next : Program) (outer outer' : Outer)
    (onTrace : OnTrace) (path : String) (n : ℕ) (hkept : ∀ i s, onTrace i s = s) :
    Faithful valueTag next outer outer' onTrace path n ↔
      Unfaulted valueTag next outer n [] ∧
        SafeFrom (fun _ => none) (events valueTag next outer n []) :=
  ⟨fun h => ⟨h.unfaulted, h.safe hkept⟩, fun h => faithful_of_safe hkept h.1 h.2⟩

end

def callsOf (cs : List Call) : Program := fun vs => cs[vs.length]?

def outerOf (read : Except ErrorKind String) (write : Except ErrorKind Unit)
    (print : Except Fault Unit) : Outer
  | _, .wRead _ => .ok read
  | _, .wExists _ => .ok true
  | _, .wList _ => .ok .file
  | _, .wArgs => .ok []
  | _, .wEnv _ | _, .wNow => .ok none
  | _, .wWrite _ _ | _, .wAppend _ _ | _, .wMkdir _ => .ok write
  | _, .wPrint _ | _, .wEprint _ => print
  | _, .wExit _ => .ok ()
  | _, .wRun _ => .ok (.ok (some 0, "", ""))

/-- A write, a read of what it wrote and a run. -/
theorem replay_faithful_three :
    Faithful 0 (callsOf [.wWrite "f" "a\r", .wRead "f", .wRun "true"])
      (outerOf (.ok "a\r") (.ok ()) (.ok ())) (outerOf (.ok "") (.ok ()) (.ok ()))
        (fun _ s => s) "t"
      3 :=
  (replay_faithful_iff _ _ _ _ _ _ _ fun _ _ => rfl).mpr
    ⟨.inr (.inr (.inr trivial)),
      show Event.Plain _ from by unfold Event.Plain; decide, rfl,
      show Event.Plain _ from by unfold Event.Plain; decide, trivial⟩

/-- A text that ends in a carriage return, a read after a write that failed, a read of a file that a
command has changed since, a print to a closed pipe and a call before a write to the trace file come
back different. -/
theorem replay_unfaithful :
    (¬ Faithful 0 (callsOf [.wRead "f"]) (outerOf (.ok "a\r") (.ok ()) (.ok ()))
        (outerOf (.ok "") (.ok ()) (.ok ())) (fun _ s => s) "t" 1) ∧
    (¬ Faithful 0 (callsOf [.wWrite "f" "a", .wRead "f"])
        (outerOf (.error .notFound) (.error .permissionDenied) (.ok ()))
        (outerOf (.ok "") (.ok ()) (.ok ())) (fun _ s => s) "t" 2) ∧
    (¬ Faithful 0 (callsOf [.wWrite "f" "a", .wRun "echo b > f", .wRead "f"])
        (outerOf (.ok "b\n") (.ok ()) (.ok ())) (outerOf (.ok "") (.ok ()) (.ok ())) (fun _ s => s)
        "t" 3) ∧
    (¬ Faithful 0 (callsOf [.wPrint "x\n"])
        (outerOf (.ok "") (.ok ()) (.error (.unknown "bridge_fault" "w_print" "" "")))
        (outerOf (.ok "") (.ok ()) (.ok ())) (fun _ s => s) "t" 1) ∧
    ¬ Faithful 0 (callsOf [.wRead "f", .wWrite "t" ""]) (outerOf (.ok "a") (.ok ()) (.ok ()))
        (outerOf (.ok "") (.ok ()) (.ok ())) (fun i s => if i = 1 then "" else s) "t" 2 := by
  refine ⟨fun h => ?_, fun h => ?_, fun h => ?_, fun h => h.unfaulted, fun h => ?_⟩
  · have hsafe := h.safe fun _ _ => rfl
    simp [events, callsOf, Call.exits, SafeFrom, Event.Safe, Event.Plain, Event.text, outerOf,
      Call.real] at hsafe
  · have hsafe := h.safe fun _ _ => rfl
    simp [events, callsOf, Call.exits, SafeFrom, Event.Safe, Call.touch, outerOf] at hsafe
  · have hsafe := h.safe fun _ _ => rfl
    simp only [events, callsOf, Call.exits, SafeFrom, Event.Safe, Call.touch, outerOf, length_nil,
      getElem?_cons_zero] at hsafe
    exact absurd (Except.ok.inj hsafe.2.2.1) (by decide)
  · -- the trace is left with the line of the write alone
    have hread := congrArg (fun rs => rs.head?.map Prod.snd) h.results
    have hanswers : some (str "Err:replay_miss") = some (str "Ok:a") := hread
    simp at hanswers

end AxisBridge.WorldLayer
