import AxisBridge.Emit.Module
import AxisBridge.Lib.PostOrder

/-! The providers a build links: the closure walk, and the modules emitted for what it returns. -/
namespace AxisBridge
open PostOrder

/-- A `--lib` bundle; its key is the hash of its file stem. -/
structure Provider where
  stem : String
  bundle : CoreBundle

section
variable [Sha256]

def Provider.key (p : Provider) : Hash256 := nameIdentity p.stem

def available (providers : List Provider) (key : Hash256) : Option Provider :=
  providers.find? fun p => p.key = key

/-- What a build hands to the closure walk; bodies and entries lead to providers. -/
structure Build where
  rootName : String
  root : CoreBundle
  providers : List Provider
  byBody : Hash256 → Option Hash256
  entries : List Hash256
  byBody_available : ∀ {id key}, byBody id = some key → (available providers key).isSome
  entries_available : ∀ key ∈ entries, (available providers key).isSome

/-- The provider an identity leads to: the one its body names, or its own. -/
def Build.keyOf (B : Build) (id : Hash256) : Hash256 := (B.byBody id).getD id

/-- The edge of a call, as the closure walk follows it. -/
def Build.callKey (B : Build) (t : Tables) : Node → Option Hash256
  | .ccall targetIdentity _ targetName =>
    if (t.builtin targetIdentity).isSome then none
    else
      match B.byBody targetIdentity with
      | some key => some key
      | none =>
        if targetName.toString ≠ "" ∧ nameIdentity targetName.toString = targetIdentity then
          some targetIdentity
        else none
  | _ => none

/-- The edge of a Fn-typed constant. -/
def Build.refKey (B : Build) (t : Tables) (id : Hash256) : Option Hash256 :=
  if (t.builtin id).isSome then none else some (B.keyOf id)

/-- The edges of a bundle in the order the walk takes them. -/
def Build.keys (B : Build) (t : Tables) (b : CoreBundle) : List Hash256 :=
  b.nodes.filterMap (B.callKey t) ++ b.fnRefs.filterMap (B.refKey t)

def Build.next (B : Build) (t : Tables) (key : Hash256) : Option (List Hash256) :=
  (available B.providers key).map fun p => B.keys t p.bundle

/-- `collect_closure_dfs`, nested at most as deep as there are providers. -/
def Build.collectClosureDfs (B : Build) (t : Tables) (b : CoreBundle)
    (w : Walk Hash256) : Option (Walk Hash256) :=
  walk (B.next t) (B.providers.length + 1) (B.keys t b) w

/-- One of the extra roots: its bundle is walked, and then it is listed itself. -/
def Build.collectEntry (B : Build) (t : Tables) (w : Walk Hash256) (eid : Hash256) :
    Option (Walk Hash256) := do
  let w ← match available B.providers eid with
    | some p => B.collectClosureDfs t p.bundle w
    | none => some w
  if eid ∈ w.visited then return w
  else return ⟨eid :: w.visited, w.ordered ++ [eid]⟩

def Build.collectXbundleClosure (B : Build) (t : Tables) : Res (List Hash256) :=
  match (B.collectClosureDfs t B.root ⟨[], []⟩).bind fun w => B.entries.foldlM
    (B.collectEntry t) w with
  | some w => .ok w.ordered
  | none => .error .looping

/-- The symbol of every provided identity: a body's entry replaces one of the same key. -/
def Build.xbundleProviders (B : Build) (id : Hash256) : Option String :=
  match B.byBody id with
  | some key => some (exportSym key)
  | none => if (available B.providers id).isSome then some (exportSym id) else none

/-- The tables with the build's providers. -/
def Build.tables (B : Build) (t : Tables) : Tables := { t with xbundle := B.xbundleProviders }

variable [CharTables]

/-- The module of each provider in the closure. -/
def Build.emitProviders (B : Build) (t : Tables) (crates : List String) :
    List Hash256 → Res (List RustModule)
  | [] => .ok []
  | pid :: pids => do
    let p ← expect (available B.providers pid) "provider in closure"
    let m ← (emitModule (B.tables t) p.bundle p.stem crates).mapErr fun e =>
      s!"error (provider '{p.stem}'): {e}"
    return m :: (← B.emitProviders t crates pids)

/-- The modules of a build, the root's first. -/
def Build.emitAll (B : Build) (t : Tables) (crates : List String) : Res (List RustModule) := do
  let pids ← B.collectXbundleClosure t
  let providers ← B.emitProviders t crates pids
  let root ← (emitModule (B.tables t) B.root B.rootName crates).mapErr fun e => s!"error: {e}"
  return root :: providers

end

/-- The extern symbols that the module's function and its wrappers call. -/
def RustModule.calledSyms (m : RustModule) : List String :=
  (m.pieces.flatMap Piece.toks).filterMap (fun tok =>
    match tok with
    | .text (.callee path true) => some path
    | _ => none) ++ m.xfnSyms

end AxisBridge
