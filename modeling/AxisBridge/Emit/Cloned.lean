import AxisBridge.Emit.MoveRun
import AxisBridge.Emit.NodeSpec

/-! The body in which every use is a clone is the emission that never moves. -/
namespace AxisBridge
open List Moves Mode

variable {env : CallEnv} {index : UInt32} {name : String} {i : ℕ}

/-- The emission that never moves a value. -/
def CallEnv.cloning (env : CallEnv) : CallEnv := { env with moves := fun _ _ => false }

theorem takeMode_cloned (r : NodeRef) :
    takeMode env.cloning.moves r index = (takeMode env.moves r index).cloned := by
  cases h : env.moves r index <;> simp [takeMode, CallEnv.cloning, h, cloned]

theorem dataExpr_cloned (native : Option NativeArgType) (arg : NodeRef) :
    dataExpr env.cloning.moves index native arg =
      mapUse cloned (dataExpr env.moves index native arg) := by
  unfold dataExpr
  split
  · simp [refTake, mapUse, takeMode_cloned]
  · cases env.moves arg index <;> rfl
  · rfl
  · simp [refTake, mapUse, takeMode_cloned]

theorem argExpr_cloned (native : Option NativeArgType) (kind : ArgKind) (arg : NodeRef) :
    argExpr env.cloning index name native i kind arg =
      mapUse cloned <$> argExpr env index name native i kind arg := by
  cases kind with
  | fnRef =>
    cases arg with
    | node j => rfl
    | pool pi =>
      simp only [argExpr, CallEnv.cloning]
      split <;> rfl
  | data =>
    simp only [argExpr, dataExpr_cloned, map_bind, map_pure]
    rfl

theorem argExprs_cloned {native : Option (List NativeArgType)} (args : List (NodeRef × ArgKind)) :
    argExprs env.cloning index name native i args =
      List.map (mapUse cloned) <$> argExprs env index name native i args := by
  induction args generalizing i with
  | nil => rfl
  | cons arg args ih =>
    simp [argExprs, argExpr_cloned, ih]

theorem map_commaSep (exprs : List Tok) :
    (commaSep exprs).map (mapUse cloned) = commaSep (exprs.map (mapUse cloned)) := by
  induction exprs with
  | nil => rfl
  | cons expr exprs ih =>
    cases exprs with
    | nil => rfl
    | cons expr' exprs =>
      simp only [commaSep, map_cons, intersperse_cons_cons] at ih ⊢
      rw [ih]
      rfl

theorem map_callBody (target : Target) (native : Bool) (exprs : List Tok) :
    (callBody target native exprs).map (mapUse cloned) =
      callBody target native (exprs.map (mapUse cloned)) := by
  unfold callBody
  split
  · simp [map_commaSep, mapUse, Tok.raw]
  · rcases exprs with _ | ⟨expr, _ | ⟨expr', exprs⟩⟩
    · rfl
    · rfl
    · have hsep := map_commaSep (expr :: expr' :: exprs)
      simp only [map_cons] at hsep
      simp [hsep, mapUse, Tok.raw]

theorem map_callToks (target : Target) (effectful : Bool) (args : List (NodeRef × ArgKind))
    (body : List Tok) : (callToks target effectful args body).map (mapUse cloned) =
      callToks target effectful args (body.map (mapUse cloned)) := by
  have hrefs : (dataRefs args).map (mapUse cloned) = dataRefs args := by
    refine (map_congr_left fun tok htok => ?_).trans (map_id _)
    obtain ⟨arg, -, hsome⟩ := mem_filterMap.mp htok
    split at hsome
    · cases hsome
      rfl
    · cases hsome
  unfold callToks guarded
  split
  · simp [mapUse, Tok.raw]
  · simp [mapUse, Tok.raw, map_commaSep, hrefs]

variable {b : CoreBundle} {blocks : Blocks}

theorem emitOpen_cloned (kinds : List PoolKind) :
    List.map Piece.cloned <$> emitOpen b blocks kinds i = emitOpen b blocks kinds i := by
  cases h : emitOpen b blocks kinds i with
  | error e => rfl
  | ok here =>
    obtain ⟨_, -, ⟨_, _, _, _, -, -, -, rfl⟩ | ⟨_, -, rfl⟩ | ⟨-, rfl⟩⟩ := emitOpen_ok h <;> rfl

theorem emitClose_cloned (value : NodeRef) :
    emitClose b blocks env.cloning i value =
      List.map Piece.cloned <$> emitClose b blocks env i value := by
  simp only [emitClose, map_bind, takeMode_cloned]
  refine bind_congr fun _ => bind_congr fun arm => ?_
  match arm with
  | none | some (k, .else_) => rfl
  | some (k, .then_) =>
    rw [map_bind]
    refine bind_congr fun node => ?_
    split <;> rfl

variable [Sha256]

theorem emitCall_cloned (id : Hash256) (args : List NodeRef) (targetName : String) :
    emitCall env.cloning index id args targetName =
      List.map (mapUse cloned) <$> emitCall env index id args targetName := by
  simp only [emitCall, argExprs_cloned, map_bind, bind_map_left, map_pure, map_callToks,
    map_callBody]
  rfl

theorem emitPiece_cloned (node : Node) :
    emitPiece b blocks env.cloning i node =
      List.map Piece.cloned <$> emitPiece b blocks env i node := by
  cases node with
  | cblock => exact (emitOpen_cloned _).symm
  | cend value => exact emitClose_cloned value
  | cif c t e => rfl
  | cdeterminate => rfl
  | ccall id args targetName =>
    simp only [emitPiece, emitCall_cloned]
    rcases emitCall env (asU32 i) id args.toList targetName.toString with (_ | _ | _) | _ <;> rfl

/-- Without moves the same is refused, with the same error, and every use is a clone. -/
theorem emitBlocks_cloned (nodes : List Node) :
    emitBlocks b blocks env.cloning i nodes =
      List.map Piece.cloned <$> emitBlocks b blocks env i nodes := by
  induction nodes generalizing i with
  | nil => rfl
  | cons node nodes ih =>
    simp [emitBlocks, emitPiece_cloned, ih]

end AxisBridge
