import AxisBridge.Lib.Transducer
import AxisBridge.Runtime.Lines

/-! The readers of the registry files: each goes through the lines by itself, with its own idea of
where an entry is. -/
namespace AxisBridge
open String

namespace Registry

open Transducer

/-! ### Words and hashes -/

/-- `str::split_whitespace().next()`. -/
def firstWord (s : String) : Option String :=
  let word := (s.toList.dropWhile isWhitespace).takeWhile fun c => !isWhitespace c
  if word = [] then none else some (ofList word)

/-- `str::trim_start_matches("0x")`. -/
def trimZeroX : List Char → List Char
  | '0' :: 'x' :: cs => trimZeroX cs
  | cs => cs

def hexNibble (c : UInt8) : Option UInt8 :=
  if 48 ≤ c ∧ c ≤ 57 then some (c - 48)
  else if 97 ≤ c ∧ c ≤ 102 then some (c - 97 + 10)
  else if 65 ≤ c ∧ c ≤ 70 then some (c - 65 + 10)
  else none

def hexPairs : Bytes → Option Bytes
  | hi :: lo :: rest => do
    let hi ← hexNibble hi
    let lo ← hexNibble lo
    let out ← hexPairs rest
    some ((hi <<< 4 ||| lo) :: out)
  | _ => some []

/-- The hash, if there is one: no reader looks at the error. -/
def hexToHash256 (s : String) : Option Hash256 := do
  let digits := textBytes (ofList (trimZeroX s.toList))
  if digits.length = 64 then
    let out ← hexPairs digits
    if h : out.length = 32 then some ⟨out, h⟩ else none
  else none

variable [Sha256]

/-! ### The readers -/

/-- `load_registry_identity_map`: the current name and identity, and what is put into the map. -/
def identityStep (st : Option String × Option Hash256) (line : String) :
    (Option String × Option Hash256) × List (Hash256 × String) :=
  let t := trim line
  match stripPrefix "fn " t with
  | some rest =>
    match firstWord rest with
    | some name => ((some name, some (nameIdentity name)), [])
    | none => (st, [])
  | none =>
    match stripPrefix "identity " t with
    | some rest =>
      match hexToHash256 (ofList (trimZeroX (trim rest).toList)) with
      | some id => ((st.1, some id), [])
      | none => (st, [])
    | none =>
      if t = "end" then
        ((none, none), (st.1.bind fun name => st.2.map fun id => (id, name)).toList)
      else (st, [])

/-- All that is put into the map for one file, at its end too. -/
def identityInserts (content : String) : List (Hash256 × String) :=
  let read := run identityStep (none, none) (lines content)
  read.2 ++ (read.1.1.bind fun name => read.1.2.map fun id => (id, name)).toList

def inStep (cur : Option Hash256) (line : String) : Option Hash256 × List (Hash256 × String) :=
  let t := trim line
  match stripPrefix "fn " t with
  | some rest =>
    match firstWord rest with
    | some name => (some (nameIdentity name), [])
    | none => (cur, [])
  | none =>
    match stripPrefix "identity " t with
    | some rest =>
      match hexToHash256 (ofList (trimZeroX (trim rest).toList)) with
      | some id => (some id, [])
      | none => (cur, [])
    | none =>
      match stripPrefix "in " t with
      | some rest => (cur, cur.toList.map fun id => (id, trim rest))
      | none => if t = "end" then (none, []) else (cur, [])

def inInserts (content : String) : List (Hash256 × String) := (run inStep none (lines content)).2

structure BodyState where
  identity : Option Hash256
  body : Option Hash256
  inContract : Bool

def bodyStep (st : BodyState) (line : String) : BodyState × List (Hash256 × Hash256) :=
  let t := trim line
  match stripPrefix "fn " t with
  | some rest => (⟨(firstWord rest).map nameIdentity, none, false⟩, [])
  | none =>
    match stripPrefix "identity " t with
    | some rest => ({ st with identity := (hexToHash256 (trim rest)).or st.identity }, [])
    | none =>
      match stripPrefix "body " t with
      | some rest => ({ st with body := (hexToHash256 (trim rest)).or st.body }, [])
      | none =>
        if t = "bridge_contract" then ({ st with inContract := true }, [])
        else if t = "end" then
          if st.inContract then ({ st with inContract := false }, [])
          else
            (⟨none, none, false⟩, (st.identity.bind fun id => st.body.map fun b => (id, b)).toList)
        else (st, [])

def bodyInserts (content : String) : List (Hash256 × Hash256) :=
  (run bodyStep ⟨none, none, false⟩ (lines content)).2

structure PureState where
  identity : Option Hash256
  isPure : Bool
  isDet : Bool
  inContract : Bool

def pureStep (st : PureState) (line : String) : PureState × List Hash256 :=
  let t := trim line
  match stripPrefix "fn " t with
  | some rest => (⟨(firstWord rest).map nameIdentity, false, false, false⟩, [])
  | none =>
    match stripPrefix "identity " t with
    | some rest =>
      match hexToHash256 (ofList (trimZeroX (trim rest).toList)) with
      | some id => ({ st with identity := some id }, [])
      | none => (st, [])
    | none =>
      match stripPrefix "effect " t with
      | some rest => ({ st with isPure := trim rest = "pure" }, [])
      | none =>
        match stripPrefix "deterministic " t with
        | some rest => ({ st with isDet := trim rest = "true" }, [])
        | none =>
          if t = "bridge_contract" then ({ st with inContract := true }, [])
          else if t = "end" then
            if st.inContract then ({ st with inContract := false }, [])
            else
              ({ st with identity := none },
                if st.isPure && st.isDet then st.identity.toList else [])
          else (st, [])

def pureInserts (content : String) : List Hash256 :=
  (run pureStep ⟨none, false, false, false⟩ (lines content)).2

structure AsyncState where
  currentFn : Option String
  inContract : Bool
  channelName : Option String
  channelTy : Option String

/-- What is put into `BridgeAsyncFacts`. -/
inductive AsyncFact
  | channel (name : String)
  | channelType (name ty : String)
  | background (fn : String)
  deriving DecidableEq

def asyncStep (st : AsyncState) (line : String) : AsyncState × List AsyncFact :=
  let t := trim line
  if t = "" ∨ "//".toList <+: t.toList then (st, [])
  else
    match stripPrefix "fn " t with
    | some rest => ({ st with currentFn := firstWord rest, inContract := false }, [])
    | none =>
      match stripPrefix "channel " t with
      | some rest => ({ st with channelName := firstWord rest, channelTy := none }, [])
      | none =>
        if t = "bridge_contract" then ({ st with inContract := true }, [])
        else if t = "background" then
          (st, if st.inContract then st.currentFn.toList.map .background else [])
        else
          match stripPrefix "type " t with
          | some rest =>
            if st.channelName.isSome ∧ '=' ∉ rest.toList then
              ({ st with channelTy := firstWord rest }, [])
            else (st, [])
          | none =>
            if t = "end" then
              match st.channelName with
              | some name =>
                ({ st with channelName := none, channelTy := none },
                  .channel name :: st.channelTy.toList.map (.channelType name))
              | none =>
                if st.inContract then ({ st with inContract := false }, [])
                else ({ st with currentFn := none }, [])
            else (st, [])

def asyncFacts (content : String) : List AsyncFact :=
  (run asyncStep ⟨none, false, none, none⟩ (lines content)).2

/-- `HashMap::insert`, one after the other. -/
def inserted {β : Type} (inserts : List (Hash256 × β)) : Hash256 → Option β :=
  inserts.foldl (fun m e => Function.update m e.1 (some e.2)) fun _ => none

def loadRegistryIdentityMap (contents : List String) : Hash256 → Option String :=
  inserted (contents.flatMap identityInserts)

def loadRegistryInMap (contents : List String) : Hash256 → Option String :=
  inserted (contents.flatMap inInserts)

def loadRegistryCompositeBodies (contents : List String) : Hash256 → Option Hash256 :=
  inserted (contents.flatMap bodyInserts)

def loadRegistryPureDet (contents : List String) : List Hash256 := contents.flatMap pureInserts

end Registry

end AxisBridge

/-! The entries of a registry file, and where all readers see the same ones. -/
namespace AxisBridge
open List String

namespace Registry

open Transducer

/-! ### Lines and blocks -/

/-- A line that opens and closes nothing. -/
inductive Leaf
  | identity (id : Option Hash256)
  | inClause (clause : String)
  | body (b : Option Hash256)
  | effect (isPure : Bool)
  | deterministic (isDet : Bool)
  | background
  | type (rest : String)
  | other

inductive Kind
  | leaf (l : Leaf)
  | fn (name : Option String)
  | channel (name : Option String)
  | contract
  | close

/-- What a line is to the readers that look for it. -/
def kind (line : String) : Kind :=
  let t := trim line
  match stripPrefix "fn " t with
  | some rest => .fn (firstWord rest)
  | none =>
    match stripPrefix "identity " t with
    | some rest => .leaf (.identity (hexToHash256 (trim rest)))
    | none =>
      match stripPrefix "in " t with
      | some rest => .leaf (.inClause (trim rest))
      | none =>
        match stripPrefix "body " t with
        | some rest => .leaf (.body (hexToHash256 (trim rest)))
        | none =>
          match stripPrefix "effect " t with
          | some rest => .leaf (.effect (trim rest = "pure"))
          | none =>
            match stripPrefix "deterministic " t with
            | some rest => .leaf (.deterministic (trim rest = "true"))
            | none =>
              match stripPrefix "channel " t with
              | some rest => .channel (firstWord rest)
              | none =>
                match stripPrefix "type " t with
                | some rest => .leaf (.type rest)
                | none =>
                  if t = "bridge_contract" then .contract
                  else if t = "background" then .leaf .background
                  else if t = "end" then .close
                  else .leaf .other

/-- A piece of an entry: a line, or a contract with its lines. -/
inductive Part
  | line (l : Leaf)
  | contract (ls : List Leaf)

def Part.kinds : Part → List Kind
  | line l => [.leaf l]
  | contract ls => .contract :: (ls.map .leaf ++ [.close])

def Part.leaves : Part → List Leaf
  | line l => [l]
  | contract ls => ls

structure Entry where
  name : String
  parts : List Part

/-- The lines of an entry, up to its `end`. -/
def Entry.kinds (e : Entry) : List Kind := .fn (some e.name) :: e.parts.flatMap Part.kinds

def Entry.leaves (e : Entry) : List Leaf := e.parts.flatMap Part.leaves

/-- A block of a registry file; what stands between the blocks declares a type or says nothing. -/
inductive Block
  | entry (e : Entry)
  | channel (name : Option String) (types : List (Option String))
  | line (type : Option String)

/-- A line outside of entries. -/
def plainLine : Option String → Leaf
  | some rest => .type rest
  | none => .other

def Block.kinds : Block → List Kind
  | entry e => e.kinds ++ [.close]
  | channel name types => .channel name :: ((types.map fun ty => .leaf (plainLine ty)) ++ [.close])
  | line ty => [.leaf (plainLine ty)]

/-- A registry file: its blocks, and an entry whose `end` is missing. -/
structure Grammar where
  blocks : List Block
  unclosed : Option Entry

namespace Grammar

def kinds (g : Grammar) : List Kind :=
  g.blocks.flatMap Block.kinds ++ g.unclosed.toList.flatMap Entry.kinds

def closed (g : Grammar) : List Entry :=
  g.blocks.flatMap fun
    | .entry e => [e]
    | _ => []

def entries (g : Grammar) : List Entry := g.closed ++ g.unclosed.toList

end Grammar

/-! ### What an entry says -/

/-- The last identity among the lines, if there is one. -/
def identityOf (id : Hash256) (ls : List Leaf) : Hash256 :=
  ls.foldl (fun id l => match l with
    | .identity (some h) => h
    | _ => id) id

def bodyOf (b : Option Hash256) (ls : List Leaf) : Option Hash256 :=
  ls.foldl (fun b l => match l with
    | .body (some h) => some h
    | _ => b) b

def pureOf (isPure : Bool) (ls : List Leaf) : Bool :=
  ls.foldl (fun isPure l => match l with
    | .effect p => p
    | _ => isPure) isPure

def detOf (isDet : Bool) (ls : List Leaf) : Bool :=
  ls.foldl (fun isDet l => match l with
    | .deterministic d => d
    | _ => isDet) isDet

def Kind.clause : Kind → Option String
  | .leaf (.inClause clause) => some clause
  | _ => none

/-- The lines `background` of a contract. -/
def Part.backgrounds : Part → List Leaf
  | line _ => []
  | contract ls => ls.filter fun
    | .background => true
    | _ => false

/-- The type of a channel: the last line without an equals sign. -/
def channelTypeOf (ty : Option String) (types : List (Option String)) : Option String :=
  types.foldl (fun ty line => match line with
    | some rest => if '=' ∉ rest.toList then firstWord rest else ty
    | none => ty) ty

namespace Entry

def ins (e : Entry) : List String := e.kinds.filterMap Kind.clause

def facts (e : Entry) : List AsyncFact :=
  (e.parts.flatMap Part.backgrounds).map fun _ => .background e.name

variable [Sha256]

def identity (e : Entry) : Hash256 := identityOf (nameIdentity e.name) e.leaves

def body (e : Entry) : Option Hash256 := bodyOf none e.leaves

def isPureDet (e : Entry) : Bool := pureOf false e.leaves && detOf false e.leaves

end Entry

def Block.facts : Block → List AsyncFact
  | entry e => e.facts
  | channel name types => name.toList.flatMap fun name =>
    .channel name :: (channelTypeOf none types).toList.map (.channelType name)
  | line _ => []

/-! ### The readers on kinds -/

section
variable {t v rest : String}

/-- A keyword in front of a blank is the text up to the first blank. -/
theorem stripPrefix_word {p w : String} (hp : p.toList = w.toList ++ [' ']) (hw : ' ' ∉ w.toList)
    (h : splitOnce ' ' t = some (v, rest)) :
    stripPrefix p t = if v = w then some rest else none := by
  obtain ⟨ht, hv⟩ := splitOnce_eq_some.mp h
  by_cases heq : v = w
  · subst heq
    have hpt : t = p ++ rest := by
      apply toList_inj.mp
      simp [ht, hp]
    rw [if_pos rfl, hpt, stripPrefix_append]
  · rw [if_neg heq, stripPrefix, if_neg]
    rintro ⟨more, hmore⟩
    have hsplit : t = w ++ String.singleton ' ' ++ ofList more := by
      apply toList_inj.mp
      simp [← hmore, hp]
    rw [hsplit, splitOnce_append hw, Option.some.injEq] at h
    exact heq (Prod.mk.inj h).1.symm

theorem stripPrefix_no_word {p : String} (hp : ' ' ∈ p.toList) (h : splitOnce ' ' t = none) :
    stripPrefix p t = none := by
  rw [stripPrefix, if_neg]
  intro hpre
  rw [splitOnce, if_pos (hpre.subset hp)] at h
  cases h

/-- What the eight keywords find in a line that is none of the three words. -/
structure Tests (t : String) (answer : String → Option String) : Prop where
  fn : stripPrefix "fn " t = answer "fn"
  identity : stripPrefix "identity " t = answer "identity"
  inClause : stripPrefix "in " t = answer "in"
  body : stripPrefix "body " t = answer "body"
  effect : stripPrefix "effect " t = answer "effect"
  deterministic : stripPrefix "deterministic " t = answer "deterministic"
  channel : stripPrefix "channel " t = answer "channel"
  type : stripPrefix "type " t = answer "type"
  contract : t ≠ "bridge_contract"
  background : t ≠ "background"
  close : t ≠ "end"

/-- The answer of a line with the keyword `v`. -/
def keyed (v rest w : String) : Option String := if v = w then some rest else none

theorem tests_keyed (h : splitOnce ' ' t = some (v, rest)) : Tests t (keyed v rest) := by
  have hne : ∀ w : String, ' ' ∉ w.toList → t ≠ w := by
    rintro w hw rfl
    rw [splitOnce, if_neg hw] at h
    cases h
  constructor
  case contract => exact hne _ (by decide)
  case background => exact hne _ (by decide)
  case close => exact hne _ (by decide)
  all_goals exact stripPrefix_word rfl (by decide) h

/-- A line that starts with no keyword. -/
theorem tests_none
    (hnone : ∀ p : String, ' ' ∈ p.toList → p.toList.head? ≠ some '/' → stripPrefix p t = none)
    (hcontract : t ≠ "bridge_contract") (hback : t ≠ "background") (hend : t ≠ "end") :
    Tests t fun _ => none := by
  constructor
  case contract => exact hcontract
  case background => exact hback
  case close => exact hend
  all_goals exact hnone _ (by decide) (by decide)

end

/-- What a line of a kind is found to be. -/
inductive Sign (t : String) : Kind → Prop
  | fn (rest : String) (h : Tests t (keyed "fn" rest)) : Sign t (.fn (firstWord rest))
  | identity (rest : String) (h : Tests t (keyed "identity" rest)) :
    Sign t (.leaf (.identity (hexToHash256 (trim rest))))
  | inClause (rest : String) (h : Tests t (keyed "in" rest)) :
      Sign t (.leaf (.inClause (trim rest)))
  | body (rest : String) (h : Tests t (keyed "body" rest)) :
    Sign t (.leaf (.body (hexToHash256 (trim rest))))
  | effect (rest : String) (h : Tests t (keyed "effect" rest)) :
    Sign t (.leaf (.effect (trim rest = "pure")))
  | deterministic (rest : String) (h : Tests t (keyed "deterministic" rest)) :
    Sign t (.leaf (.deterministic (trim rest = "true")))
  | channel (rest : String) (h : Tests t (keyed "channel" rest)) :
      Sign t (.channel (firstWord rest))
  | type (rest : String) (h : Tests t (keyed "type" rest)) : Sign t (.leaf (.type rest))
  | contract (h : t = "bridge_contract") : Sign t .contract
  | background (h : t = "background") : Sign t (.leaf .background)
  | close (h : t = "end") : Sign t .close
  | other (h : Tests t fun _ => none) : Sign t (.leaf .other)

theorem kind_other {line : String} (h : Tests (trim line) fun _ => none) :
    kind line = .leaf .other := by
  rw [kind]
  simp only [h.fn, h.identity, h.inClause, h.body, h.effect, h.deterministic, h.channel, h.type,
    if_neg h.contract, if_neg h.background, if_neg h.close]

theorem sign_kind (line : String) : Sign (trim line) (kind line) := by
  cases hsplit : splitOnce ' ' (trim line) with
  | none =>
    by_cases hcontract : trim line = "bridge_contract"
    · rw [kind, hcontract]
      exact .contract rfl
    by_cases hback : trim line = "background"
    · rw [kind, hback]
      exact .background rfl
    by_cases hend : trim line = "end"
    · rw [kind, hend]
      exact .close rfl
    have h := tests_none (fun p hp _ => stripPrefix_no_word hp hsplit) hcontract hback hend
    rw [kind_other h]
    exact .other h
  | some p =>
    obtain ⟨v, rest⟩ := p
    have h := tests_keyed hsplit
    rw [kind]
    simp only [h.fn, h.identity, h.inClause, h.body, h.effect, h.deterministic, h.channel, h.type,
      if_neg h.contract, if_neg h.background, if_neg h.close]
    by_cases hfn : v = "fn"
    · subst hfn
      exact .fn rest h
    by_cases hid : v = "identity"
    · subst hid
      exact .identity rest h
    by_cases hin : v = "in"
    · subst hin
      exact .inClause rest h
    by_cases hbody : v = "body"
    · subst hbody
      exact .body rest h
    by_cases heffect : v = "effect"
    · subst heffect
      exact .effect rest h
    by_cases hdet : v = "deterministic"
    · subst hdet
      exact .deterministic rest h
    by_cases hchannel : v = "channel"
    · subst hchannel
      exact .channel rest h
    by_cases htype : v = "type"
    · subst htype
      exact .type rest h
    simp only [keyed, if_neg hfn, if_neg hid, if_neg hin, if_neg hbody, if_neg heffect, if_neg hdet,
      if_neg hchannel, if_neg htype]
    refine .other ⟨?_, ?_, ?_, ?_, ?_, ?_, ?_, ?_, h.contract, h.background, h.close⟩
    · exact h.fn.trans (if_neg hfn)
    · exact h.identity.trans (if_neg hid)
    · exact h.inClause.trans (if_neg hin)
    · exact h.body.trans (if_neg hbody)
    · exact h.effect.trans (if_neg heffect)
    · exact h.deterministic.trans (if_neg hdet)
    · exact h.channel.trans (if_neg hchannel)
    · exact h.type.trans (if_neg htype)

theorem trimZeroX_trimZeroX (cs : List Char) : trimZeroX (trimZeroX cs) = trimZeroX cs := by
  fun_induction trimZeroX cs with
  | case1 cs ih => exact ih
  | case2 cs h => rw [trimZeroX.eq_2 cs h]

/-- A prefix that is taken off twice. -/
@[simp] theorem hexToHash256_trimZeroX (s : String) :
    hexToHash256 (ofList (trimZeroX s.toList)) = hexToHash256 s := by
  rw [hexToHash256, hexToHash256, toList_ofList, trimZeroX_trimZeroX]

variable [Sha256]

def identityRead (st : Option String × Option Hash256) :
    Kind → (Option String × Option Hash256) × List (Hash256 × String)
  | .fn (some name) => ((some name, some (nameIdentity name)), [])
  | .leaf (.identity (some id)) => ((st.1, some id), [])
  | .close => ((none, none), (st.1.bind fun name => st.2.map fun id => (id, name)).toList)
  | _ => (st, [])

theorem identityStep_eq (st : Option String × Option Hash256) (line : String) :
    identityStep st line = identityRead st (kind line) := by
  have hsign := sign_kind line
  generalize kind line = k at hsign ⊢
  rw [identityStep]
  cases hsign with
  | fn rest h =>
    simp only [h.fn, keyed, if_true]
    cases firstWord rest <;> rfl
  | identity rest h =>
    simp only [h.fn, h.identity, keyed, if_true, hexToHash256_trimZeroX]
    cases hexToHash256 (trim rest) <;> rfl
  | contract h | background h | close h =>
    rw [h]
    rfl
  | _ =>
    rename_i h
    simp only [h.fn, h.identity, if_neg h.close]
    rfl

def inRead (cur : Option Hash256) : Kind → Option Hash256 × List (Hash256 × String)
  | .fn (some name) => (some (nameIdentity name), [])
  | .leaf (.identity (some id)) => (some id, [])
  | .leaf (.inClause clause) => (cur, cur.toList.map fun id => (id, clause))
  | .close => (none, [])
  | _ => (cur, [])

theorem inStep_eq (cur : Option Hash256) (line : String) :
    inStep cur line = inRead cur (kind line) := by
  have hsign := sign_kind line
  generalize kind line = k at hsign ⊢
  rw [inStep]
  cases hsign with
  | fn rest h =>
    simp only [h.fn, keyed, if_true]
    cases firstWord rest <;> rfl
  | identity rest h =>
    simp only [h.fn, h.identity, keyed, if_true, hexToHash256_trimZeroX]
    cases hexToHash256 (trim rest) <;> rfl
  | contract h | background h | close h =>
    rw [h]
    rfl
  | _ =>
    rename_i h
    simp only [h.fn, h.identity, h.inClause, if_neg h.close]
    rfl

def bodyRead (st : BodyState) : Kind → BodyState × List (Hash256 × Hash256)
  | .fn name => (⟨name.map nameIdentity, none, false⟩, [])
  | .leaf (.identity id) => ({ st with identity := id.or st.identity }, [])
  | .leaf (.body b) => ({ st with body := b.or st.body }, [])
  | .contract => ({ st with inContract := true }, [])
  | .close =>
    if st.inContract then ({ st with inContract := false }, [])
    else (⟨none, none, false⟩, (st.identity.bind fun id => st.body.map fun b => (id, b)).toList)
  | _ => (st, [])

theorem bodyStep_eq (st : BodyState) (line : String) :
    bodyStep st line = bodyRead st (kind line) := by
  have hsign := sign_kind line
  generalize kind line = k at hsign ⊢
  rw [bodyStep]
  cases hsign with
  | contract h | background h | close h =>
    rw [h]
    rfl
  | _ =>
    rename_i h
    simp only [h.fn, h.identity, h.body, if_neg h.contract, if_neg h.close]
    rfl

def pureRead (st : PureState) : Kind → PureState × List Hash256
  | .fn name => (⟨name.map nameIdentity, false, false, false⟩, [])
  | .leaf (.identity id) => ({ st with identity := id.or st.identity }, [])
  | .leaf (.effect isPure) => ({ st with isPure := isPure }, [])
  | .leaf (.deterministic isDet) => ({ st with isDet := isDet }, [])
  | .contract => ({ st with inContract := true }, [])
  | .close =>
    if st.inContract then ({ st with inContract := false }, [])
    else ({ st with identity := none }, if st.isPure && st.isDet then st.identity.toList else [])
  | _ => (st, [])

theorem pureStep_eq (st : PureState) (line : String) :
    pureStep st line = pureRead st (kind line) := by
  have hsign := sign_kind line
  generalize kind line = k at hsign ⊢
  rw [pureStep]
  cases hsign with
  | identity rest h =>
    simp only [h.fn, h.identity, keyed, if_true, hexToHash256_trimZeroX]
    cases hexToHash256 (trim rest) <;> rfl
  | contract h | background h | close h =>
    rw [h]
    rfl
  | _ =>
    rename_i h
    simp only [h.fn, h.identity, h.effect, h.deterministic, if_neg h.contract, if_neg h.close]
    rfl

def asyncRead (st : AsyncState) : Kind → AsyncState × List AsyncFact
  | .fn name => ({ st with currentFn := name, inContract := false }, [])
  | .channel name => ({ st with channelName := name, channelTy := none }, [])
  | .contract => ({ st with inContract := true }, [])
  | .leaf .background => (st, if st.inContract then st.currentFn.toList.map .background else [])
  | .leaf (.type rest) =>
    if st.channelName.isSome ∧ '=' ∉ rest.toList then ({ st with channelTy := firstWord rest }, [])
    else (st, [])
  | .close =>
    match st.channelName with
    | some name =>
      ({ st with channelName := none, channelTy := none },
        .channel name :: st.channelTy.toList.map (.channelType name))
    | none =>
      if st.inContract then ({ st with inContract := false }, [])
      else ({ st with currentFn := none }, [])
  | _ => (st, [])

omit [Sha256] in
/-- A comment is no line of an entry. -/
theorem kind_comment {line : String} (h : trim line = "" ∨ "//".toList <+: (trim line).toList) :
    kind line = .leaf .other := by
  have hne : ∀ w : String, ¬ (w = "" ∨ "//".toList <+: w.toList) → trim line ≠ w := by
    rintro w hw rfl
    exact hw h
  refine kind_other (tests_none ?_ (hne _ (by decide)) (hne _ (by decide)) (hne _ (by decide)))
  intro p hblank hslash
  rw [stripPrefix, if_neg]
  intro hpre
  obtain ⟨c, cs, hp⟩ := exists_cons_of_ne_nil (ne_nil_of_mem hblank)
  rw [hp] at hpre hslash
  rcases h with h | ⟨more, hmore⟩
  · rw [h] at hpre
    exact cons_ne_nil c cs (prefix_nil.mp hpre)
  · have hcomment : "//".toList = ['/', '/'] := rfl
    rw [← hmore, hcomment] at hpre
    exact hslash (congrArg some (cons_prefix_cons.mp hpre).1)

omit [Sha256] in
theorem asyncStep_eq (st : AsyncState) (line : String) :
    asyncStep st line = asyncRead st (kind line) := by
  by_cases hskip : trim line = "" ∨ "//".toList <+: (trim line).toList
  · rw [kind_comment hskip, asyncStep, if_pos hskip]
    rfl
  have hsign := sign_kind line
  generalize kind line = k at hsign ⊢
  rw [asyncStep, if_neg hskip]
  cases hsign with
  | contract h | background h | close h =>
    rw [h]
    rfl
  | _ =>
    rename_i h
    simp only [h.fn, h.channel, h.type, if_neg h.contract, if_neg h.background, if_neg h.close]
    rfl

end Registry

end AxisBridge
