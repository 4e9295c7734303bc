import AxisBridge.Emit.Module
import AxisBridge.Lib.Moves

/-! Runs of an emitted body with ownership, and the body in which every use is a clone. -/
namespace AxisBridge
open List Moves Mode Piece

/-- What a use hands on: the value, a reference to it, or what an accessor takes of it. -/
inductive Reading
  | owned
  | borrowed
  | accessed (t : NativeArgType)
  deriving DecidableEq

/-- `into_bytes` hands on what `as_bytes` does. -/
def Mode.reading : Mode → Reading
  | .take => .owned
  | .clone => .owned
  | .borrow => .borrowed
  | .access t => .accessed t
  | .intoBytes => .accessed .bytes

def Mode.moves : Mode → Bool
  | .take => true
  | .intoBytes => true
  | _ => false

/-- The use that is written where the value may not move. -/
def Mode.cloned : Mode → Mode
  | .take => .clone
  | .intoBytes => .access .bytes
  | how => how

/-- The uses of the emitted text. -/
def rustModes : Modes Mode Reading where
  reading := reading
  moves := moves
  clone := Mode.cloned
  clone_moves how := by cases how <;> rfl
  clone_reading how := by cases how <;> rfl

def Piece.cloned : Piece → Piece
  | .elseArm how x => .elseArm how.cloned x
  | .closeUnit how x => .closeUnit how.cloned x
  | .close how x => .close how.cloned x
  | .bind i expr => .bind i (expr.map (mapUse Mode.cloned))
  | p => p

/-- An Unknown or declared Err condition chooses no branch. -/
inductive Branch
  | undecided
  | then_
  | else_

/-- What the texts mean over values `V` and worlds `W`, and how each `if` goes. -/
structure BodyMeaning (V W : Type) extends Meaning Var Reading Frag V W where
  unit : V
  choose : ℕ → V → Branch

/-- An open block: the node that waits for its value, whether its statements run, whether those of
its else-arm will, and the value it has so far. -/
structure OpenBlock (V : Type) where
  node : ℕ
  runs : Bool
  elseRuns : Bool
  value : Option V

structure RunState (V W : Type) where
  slots : Var → Slot V
  blocks : List (OpenBlock V)
  world : W

abbrev RunResult (W α : Type) := Except (Moves.Stop Var W) α

section
variable {V W : Type} (I : BodyMeaning V W)

/-- Whether the statement at hand is reached. -/
def RunState.running (s : RunState V W) : Bool :=
  match s.blocks with
  | [] => true
  | block :: _ => block.runs

def RunState.bindNode (s : RunState V W) (i : ℕ) (v : V) : RunState V W :=
  { s with slots := Function.update s.slots (.node i) (.live v) }

/-- The value of the innermost block, when its statements run. -/
def RunState.yield (s : RunState V W) (how : Mode) (x : Var) : RunResult W (RunState V W) :=
  match s.blocks with
  | [] => .ok s
  | block :: blocks =>
    if block.runs then do
      let (v, slots) ← useVar moves s.slots how x
      return { s with slots := slots, blocks := { block with value := some v } :: blocks }
    else .ok s

/-- The innermost block ends, and its node is bound to its value. -/
def RunState.close (s : RunState V W) : RunState V W :=
  match s.blocks with
  | [] => s
  | block :: blocks =>
    match block.value with
    | some v => { s with blocks := blocks }.bindNode block.node v
    | none => { s with blocks := blocks }

/-- The else-arm of the innermost block. -/
def RunState.elseArm (s : RunState V W) : RunState V W :=
  match s.blocks with
  | [] => s
  | block :: blocks =>
    { s with blocks := { block with runs := block.elseRuns, elseRuns := false } :: blocks }

/-- The Unit else of a one-armed `if`. -/
def RunState.unitElse (s : RunState V W) : RunState V W :=
  match s.blocks with
  | [] => s
  | block :: blocks =>
    if block.elseRuns then { s with blocks := { block with value := some I.unit } :: blocks } else s

/-- The block of an `if`, by how its condition came out. -/
def openIf (k : ℕ) (v : V) : OpenBlock V :=
  match I.choose k v with
  | .undecided => ⟨k, false, false, some v⟩
  | .then_ => ⟨k, true, false, none⟩
  | .else_ => ⟨k, false, true, none⟩

def stepPiece (s : RunState V W) : Piece → RunResult W (RunState V W)
  | .openIf k c =>
    if s.running then do
      let (v, slots) ← useVar moves s.slots .borrow c
      return { s with slots := slots, blocks := openIf I k v :: s.blocks }
    else .ok { s with blocks := ⟨k, false, false, none⟩ :: s.blocks }
  | .openBlock e => .ok { s with blocks := ⟨e, s.running, false, none⟩ :: s.blocks }
  | .elseArm how x => do return (← s.yield how x).elseArm
  | .closeUnit how x => do return ((← s.yield how x).unitElse I).close
  | .close how x => do return (← s.yield how x).close
  | .bind i expr =>
    if s.running then do
      let (v, slots, world) ← evalExpr rustModes I.toMeaning s.world expr s.slots
      return { s with slots := slots, world := world }.bindNode i v
    else .ok s

def runPieces : List Piece → RunState V W → RunResult W (RunState V W)
  | [], s => .ok s
  | p :: ps, s => do runPieces ps (← stepPiece I s p)

/-- The pieces one after the other, then the use of the result. -/
def runBody (pieces : List Piece) (how : Mode) (result : Var) (s : RunState V W) :
    RunResult W (V × W) := do
  let s ← runPieces I pieces s
  let (v, _) ← useVar moves s.slots how result
  return (v, s.world)

/-- Before the nodes, the constants have their values. -/
def startState (pool : ℕ → Option V) (w : W) : RunState V W where
  slots x :=
    match x with
    | .node _ => .unbound
    | .pool p =>
      match pool p with
      | some v => .live v
      | none => .unbound
  blocks := []
  world := w

/-- The run of a module's function. -/
def RustModule.run (m : RustModule) (pool : ℕ → Option V) (w : W) : RunResult W (V × W) :=
  runBody I m.pieces .take m.result (startState pool w)

/-- The run of the function in which every use is a clone. -/
def RustModule.runCloned (m : RustModule) (pool : ℕ → Option V) (w : W) : RunResult W (V × W) :=
  runBody I (m.pieces.map Piece.cloned) .clone m.result (startState pool w)

end

variable {V W : Type} {I : BodyMeaning V W} {live live' : Var → Prop} {s s' : RunState V W}
  {how : Mode} {x : Var}

/-- The runs of the emitted and of the cloned body differ in dead variables only. -/
structure RunAgree (live : Var → Prop) (s s' : RunState V W) : Prop where
  slots : Agree live s.slots s'.slots
  blocks : s.blocks = s'.blocks
  world : s.world = s'.world

section
variable (h : RunAgree live s s')

include h

theorem RunAgree.mono (hle : ∀ x, live' x → live x) :
    RunAgree live' s s' := ⟨h.slots.mono hle, h.blocks, h.world⟩

theorem RunAgree.bindNode (i : ℕ) (v : V) :
    RunAgree live (s.bindNode i v) (s'.bindNode i v) := ⟨h.slots.bind v, h.blocks, h.world⟩

theorem RunAgree.running : s.running = s'.running := by
  rw [RunState.running, RunState.running, h.blocks]

theorem RunAgree.withBlocks (blocks : List (OpenBlock V)) :
    RunAgree live { s with blocks := blocks } { s' with blocks := blocks } :=
  ⟨h.slots, rfl, h.world⟩

theorem RunAgree.close : RunAgree live s.close s'.close := by
  unfold RunState.close
  rw [← h.blocks]
  cases s.blocks with
  | nil => exact h
  | cons block blocks =>
    cases hvalue : block.value with
    | none => simpa only [hvalue] using h.withBlocks blocks
    | some v => simpa only [hvalue] using (h.withBlocks blocks).bindNode block.node v

theorem RunAgree.elseArm : RunAgree live s.elseArm s'.elseArm := by
  unfold RunState.elseArm
  rw [← h.blocks]
  cases s.blocks with
  | nil => exact h
  | cons block blocks => exact h.withBlocks _

theorem RunAgree.unitElse : RunAgree live (s.unitElse I) (s'.unitElse I) := by
  unfold RunState.unitElse
  rw [← h.blocks]
  cases s.blocks with
  | nil => exact h
  | cons block blocks =>
    cases hruns : block.elseRuns with
    | true => simpa [hruns] using h.withBlocks _
    | false => simpa [hruns] using h

/-- The value of a block is read alike, and its variable may be gone afterwards. -/
theorem RunAgree.yield (hx : live x) (hle : ∀ y, live' y → live y)
    (hdead : how.moves = true → ¬ live' x) :
    Sim (RunAgree live') (s.yield how x) (s'.yield how.cloned x) := by
  unfold RunState.yield
  rw [← h.blocks]
  cases s.blocks with
  | nil => exact .ok (h.mono hle)
  | cons block blocks =>
    refine .ite ?_ (.ok (h.mono hle))
    refine (h.slots.use rustModes hx how hle hdead).bind ?_
    rintro ⟨v, σ⟩ ⟨v', σ'⟩ ⟨rfl, hagree⟩
    exact .ok ⟨hagree, rfl, h.world⟩

end

/-- A piece does the same in both bodies, when what it moves is not used after it. -/
theorem stepPiece_sim {p : Piece} {rest : List Tok} (hlast : MovesLast moves (p.toks ++ rest))
    (h : RunAgree (Uses (p.toks ++ rest)) s s') :
    Sim (RunAgree (Uses rest)) (stepPiece I s p) (stepPiece I s' p.cloned) := by
  have hle : ∀ y, Uses rest y → Uses (p.toks ++ rest) y := fun y hy =>
    hy.mono (subset_append_right _ _)
  have hyield : ∀ how x ts, p.toks = .use how x :: ts →
      Sim (RunAgree (Uses rest)) (s.yield how x) (s'.yield how.cloned x) := by
    intro how x ts hp
    have huses : Uses (p.toks ++ rest) x := ⟨how, by simp [hp]⟩
    refine h.yield huses hle fun hmove hrest => ?_
    rw [hp, cons_append] at hlast
    exact hlast.cons_use hmove (hrest.mono (subset_append_right _ _))
  cases p with
  | openIf k c =>
    simp only [stepPiece, Piece.cloned, h.running]
    refine .ite ?_ ?_
    · have huses : Uses ((Piece.openIf k c).toks ++ rest) c := ⟨.borrow, by simp [toks]⟩
      refine (h.slots.use rustModes huses .borrow hle fun hmove => by cases hmove).bind ?_
      rintro ⟨v, σ⟩ ⟨v', σ'⟩ ⟨rfl, hagree⟩
      exact .ok ⟨hagree, by rw [h.blocks], h.world⟩
    · rw [← h.blocks]
      exact .ok ((h.mono hle).withBlocks _)
  | openBlock e =>
    simp only [stepPiece, Piece.cloned, h.running]
    rw [← h.blocks]
    exact .ok ((h.mono hle).withBlocks _)
  | elseArm how x => exact (hyield how x _ rfl).bind fun a b hab => .ok hab.elseArm
  | closeUnit how x => exact (hyield how x _ rfl).bind fun a b hab => .ok hab.unitElse.close
  | close how x => exact (hyield how x _ rfl).bind fun a b hab => .ok hab.close
  | bind i expr =>
    simp only [stepPiece, Piece.cloned, h.running]
    refine .ite ?_ (.ok (h.mono hle))
    have htoks : (bind i expr).toks ++ rest = .letVar (.node i) :: (expr ++ (.semi :: rest)) := by
      simp [toks]
    rw [htoks] at hlast h
    have hexpr : Agree (Uses (expr ++ (.semi :: rest))) s.slots s'.slots :=
      h.slots.mono fun y hy => hy.mono (subset_cons_self _ _)
    rw [h.world]
    refine (evalExpr_sim (M := rustModes) (pairwise_cons.mp hlast).2 hexpr).bind ?_
    rintro ⟨v, σ, w⟩ ⟨v', σ', w'⟩ ⟨rfl, hagree, rfl⟩
    have hrest : Agree (Uses rest) σ σ' :=
      hagree.mono fun y hy => hy.mono (subset_cons_self _ _)
    have hstate : RunAgree (Uses rest) { s with slots := σ, world := w }
        { s' with slots := σ', world := w } := ⟨hrest, h.blocks, rfl⟩
    exact .ok (hstate.bindNode i v)

/-- And so do all the pieces, one after the other. -/
theorem runPieces_sim {ps : List Piece} {rest : List Tok}
    (hlast : MovesLast moves (ps.flatMap toks ++ rest))
    (h : RunAgree (Uses (ps.flatMap toks ++ rest)) s s') :
    Sim (RunAgree (Uses rest)) (runPieces I ps s) (runPieces I (ps.map Piece.cloned) s') := by
  induction ps generalizing s s' with
  | nil => exact .ok h
  | cons p ps ih =>
    rw [flatMap_cons, append_assoc] at hlast h
    exact (stepPiece_sim hlast h).bind fun a b hab => ih (movesLast_append.mp hlast).2.1 hab

/-- A body in which every move is a last use never meets a moved variable, and does what it would
do if every use were a clone. -/
theorem RustModule.run_eq_runCloned {m : RustModule} (hlast : MovesLast moves m.body)
    (pool : ℕ → Option V) (w : W) :
    m.run I pool w = m.runCloned I pool w ∧ ∀ x, m.run I pool w ≠ .error (.moved x) := by
  have hbody := (movesLast_append.mp hlast).2.1
  have hstart : RunAgree (Uses (m.pieces.flatMap toks ++ [.use .take m.result]))
      (startState pool w) (startState pool w) := by
    refine ⟨⟨fun x _ => rfl, fun x => ?_⟩, rfl, rfl⟩
    cases x with
    | node i => simp [startState]
    | pool p => cases hp : pool p <;> simp [startState, hp]
  refine Sim.eq ((runPieces_sim hbody hstart).bind ?_)
  intro s s' h
  have huse := h.slots.use (W := W) rustModes ⟨.take, mem_singleton_self _⟩ .take
    (fun _ (hy : False) => hy.elim) fun _ hy => hy
  refine huse.bind ?_
  rintro ⟨v, σ⟩ ⟨v', σ'⟩ ⟨rfl, -⟩
  exact .ok (by rw [h.world])

end AxisBridge
