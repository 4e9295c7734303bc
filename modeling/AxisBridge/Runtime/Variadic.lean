import AxisBridge.Emit.Node
import AxisBridge.Runtime.Fault
import AxisBridge.Runtime.Substitution

/-! Calls of a builtin with any number of arguments: the emitter packs them into one value, the
builtin takes its fields from it. -/
namespace AxisBridge.Variadic
open IrEval (makeCtor)

def fieldsFromVariadic : Value → List Value
  | .unit => []
  | .tuple es => es
  | other => [other]

def valueMake (tags : IrEval.TagTable) (args : Value) : Value :=
  makeCtor tags "Value" (fieldsFromVariadic args)

def listMake (args : Value) : Value := .list (fieldsFromVariadic args)

/-- The one value an emitted call passes. -/
def packArgs : List Value → Value
  | [] => .unit
  | [v] => v
  | vs => .tuple vs

/-- What the argument in the text of a call evaluates to; `meaning` has the values of the
expressions. -/
inductive Passes (meaning : Tok → Value) : List Tok → Value → Prop
  | unit {callee} : Passes meaning [callee, .raw "(Value::Unit)"] .unit
  | bare {callee expr} : Passes meaning [callee, .raw "(", expr, .raw ")"] (meaning expr)
  | tuple {callee exprs} :
      Passes meaning (callee :: .raw "(Value::Tuple(vec![" :: commaSep exprs ++ [.raw "]))"])
        (.tuple (exprs.map meaning))

/-- The text of every call that is not a native one passes its packed arguments. -/
theorem callBody_passes (meaning : Tok → Value) (target : Target) (exprs : List Tok) :
    Passes meaning (callBody target false exprs) (packArgs (exprs.map meaning)) := by
  cases exprs with
  | nil => exact .unit
  | cons expr rest =>
    cases rest with
    | nil => exact .bare
    | cons expr' rest => exact @Passes.tuple meaning _ (expr :: expr' :: rest)

/-- The emitted call: its pre-check, then the builtin on the packed arguments. -/
def emittedCall (name : String) (effectful : Bool) (builtin : Value → Value) (args : List Value) :
    Prog :=
  .guard name effectful args (.ret (builtin (packArgs args))) .ret

/-- The call returns the value wherever the pre-check lets the builtin run. -/
def Builds (name : String) (builtin : Value → Value) (args : List Value) (v : Value) : Prop :=
  ∀ (env : FaultEnv) (t : Thread) (effectful : Bool), guardPre t effectful args = none →
    ((emittedCall name effectful builtin args).run env t).1 = .value v

/-- The two builtins and the packing itself keep the arguments. -/
structure Faithful (tags : IrEval.TagTable) (args : List Value) : Prop where
  unpacked : fieldsFromVariadic (packArgs args) = args
  listMake : Builds "list_make" listMake args (.list args)
  valueMake : Builds "value_make" (valueMake tags) args (makeCtor tags "Value" args)

/-! ### One argument in the shape of none or of several -/

variable {args : List Value}

theorem ne_tuple_self {es : List Value} : es ≠ [.tuple es] := by
  intro h
  have hsize := congrArg sizeOf h
  simp only [List.cons.sizeOf_spec, List.nil.sizeOf_spec, Value.tuple.sizeOf_spec] at hsize
  omega

theorem fields_packArgs : fieldsFromVariadic (packArgs args) = args ↔
    args ≠ [.unit] ∧ ∀ es, args ≠ [.tuple es] := by
  match args with
  | [] | v :: w :: vs => simp [packArgs, fieldsFromVariadic]
  | [v] =>
    cases v with
    | unit => simp [packArgs, fieldsFromVariadic]
    | tuple es => simpa [packArgs, fieldsFromVariadic] using ne_tuple_self
    | _ => simp [packArgs, fieldsFromVariadic]

theorem run_emittedCall {name : String} {effectful : Bool} {builtin : Value → Value}
    {env : FaultEnv} {t : Thread} (h : guardPre t effectful args = none) :
    ((emittedCall name effectful builtin args).run env t).1 = .value (builtin (packArgs args)) := by
  simp [emittedCall, Prog.run, h, guardRun]

/-- Both builtins get their arguments back, except one argument that is Unit or a tuple. -/
theorem faithful_iff (tags : IrEval.TagTable) (args : List Value) :
    Faithful tags args ↔ args ≠ [.unit] ∧ ∀ es, args ≠ [.tuple es] := by
  constructor
  · intro h
    exact fields_packArgs.mp h.unpacked
  · intro h
    have hfields := fields_packArgs.mpr h
    refine ⟨hfields, ?_, ?_⟩
    · intro env t effectful hpre
      rw [run_emittedCall hpre, Variadic.listMake, hfields]
    · intro env t effectful hpre
      rw [run_emittedCall hpre, Variadic.valueMake, hfields]

/-- One argument that is Unit makes the empty list, one that is a pair the list of its two
fields. -/
theorem lone_unit_and_pair :
    ((emittedCall "list_make" false listMake [.unit]).run ⟨false, none⟩ .fresh).1 =
      .value (.list []) ∧
    ((emittedCall "list_make" false listMake [.tuple [.int 1, .int 2]]).run
      ⟨false, none⟩ .fresh).1 = .value (.list [.int 1, .int 2]) ∧
    ¬ Builds "list_make" listMake [.unit] (.list [.unit]) ∧
    ¬ Builds "list_make" listMake [.tuple [.int 1, .int 2]] (.list [.tuple [.int 1, .int 2]]) := by
  refine ⟨rfl, rfl, fun h => ?_, fun h => ?_⟩
  all_goals
    have hrun := h ⟨false, none⟩ .fresh false rfl
    rw [run_emittedCall rfl] at hrun
    simp [Variadic.listMake, packArgs, fieldsFromVariadic] at hrun

end AxisBridge.Variadic
