import AxisBridge.Runtime.FrozenMap
import Mathlib.Data.Set.Countable
import Mathlib.Data.Set.Finite.Lattice

/-! Equality of values whose lists, byte strings and frozen maps may share their storage. -/
namespace AxisBridge.SharedEq
open List

/-- A value; `at` is the address of the storage behind an `Arc`. -/
inductive Val (ρ : Type)
  | localMap (h : HMap.LocalMap)
  | frozenMap (at' : ρ) (m : HMap.Frozen)
  | int (n : Int64)
  | bool (b : Bool)
  | str (s : String)
  | unit
  | tuple (items : List (Val ρ))
  | list (at' : ρ) (items : List (Val ρ))
  | ctor (tag : UInt32) (fields : List (Val ρ))
  | dec (mantissa : ℤ) (scale : ℕ)
  | float (bits : UInt64)
  | bytes (at' : ρ) (data : Bytes)

def isNaN (bits : UInt64) : Bool := 0x7ff0000000000000 < bits &&& 0x7fffffffffffffff

/-- `==` of two `f64`: a NaN is equal to nothing, and the two zeros are equal. -/
def floatEq (a b : UInt64) : Bool :=
  !isNaN a && !isNaN b &&
    (a == b || (a &&& 0x7fffffffffffffff == 0 && b &&& 0x7fffffffffffffff == 0))

/-- `PartialEq` of `LocalMap`. -/
def localEq (h g : HMap.LocalMap) : Bool :=
  h.owner == g.owner && h.index == g.index && h.gen == g.gen

variable {ρ σ : Type}

mutual
/-- The derived `PartialEq` of `Value`, where `same` is `Arc::ptr_eq`. -/
def eqBy (same : ρ → σ → Bool) : Val ρ → Val σ → Bool
  | .localMap h, .localMap g => localEq h g
  | .frozenMap p m, .frozenMap q n => same p q || m.tableEq n
  | .int m, .int n => m == n
  | .bool a, .bool b => a == b
  | .str s, .str t => s == t
  | .unit, .unit => true
  | .tuple xs, .tuple ys => eqAll same xs ys
  | .list p xs, .list q ys => same p q || eqAll same xs ys
  | .ctor t xs, .ctor u ys => t == u && eqAll same xs ys
  | .dec m s, .dec n t => m * 10 ^ t == n * 10 ^ s
  | .float a, .float b => floatEq a b
  | .bytes p bs, .bytes q cs => same p q || bs == cs
  | _, _ => false
/-- `==` of two vectors. -/
def eqAll (same : ρ → σ → Bool) : List (Val ρ) → List (Val σ) → Bool
  | [], [] => true
  | x :: xs, y :: ys => eqBy same x y && eqAll same xs ys
  | _, _ => false
end

/-- `value_eq`. -/
def valueEq (v w : Val ℕ) : Bool := eqBy (· == ·) v w

mutual
/-- The content of a value. -/
def Val.erase : Val ρ → Val Unit
  | .localMap h => .localMap h
  | .frozenMap _ m => .frozenMap () m
  | .int n => .int n
  | .bool b => .bool b
  | .str s => .str s
  | .unit => .unit
  | .tuple xs => .tuple (eraseAll xs)
  | .list _ xs => .list () (eraseAll xs)
  | .ctor t xs => .ctor t (eraseAll xs)
  | .dec m s => .dec m s
  | .float a => .float a
  | .bytes _ bs => .bytes () bs
def eraseAll : List (Val ρ) → List (Val Unit)
  | [] => []
  | x :: xs => x.erase :: eraseAll xs
end

attribute [local simp] eqBy eqAll Val.erase eraseAll

/-- The comparison element by element. -/
def deepEq (a b : Val Unit) : Bool := eqBy (fun _ _ => false) a b

def Val.items : Val ρ → List (Val ρ)
  | .tuple xs => xs
  | .list _ xs => xs
  | .ctor _ xs => xs
  | _ => []

def Val.addr? : Val ρ → Option ρ
  | .frozenMap p _ => some p
  | .list p _ => some p
  | .bytes p _ => some p
  | _ => none

/-- A value inside another one, at any depth, or the value itself. -/
inductive Part : Val ρ → Val ρ → Prop
  | self {v} : Part v v
  | item {p x v} : x ∈ v.items → Part p x → Part p v

/-- One address has one content, in both values. -/
def Consistent (v w : Val ℕ) : Prop :=
  ∀ p q, Part p v ∨ Part p w → Part q v ∨ Part q w → ∀ x, p.addr? = some x → q.addr? = some x →
    p.erase = q.erase

/-- However the parts of two values share storage, they compare as they do element by element. -/
def Independent (a b : Val Unit) : Prop :=
  ∀ v w : Val ℕ, v.erase = a → w.erase = b → Consistent v w → valueEq v w = deepEq a b

/-- Two containers of one kind. -/
inductive SameHead : Val ρ → Val σ → Prop
  | tuple {xs ys} : SameHead (.tuple xs) (.tuple ys)
  | list {p q xs ys} : SameHead (.list p xs) (.list q ys)
  | ctor {t xs ys} : SameHead (.ctor t xs) (.ctor t ys)

def HasNaN (v : Val ρ) : Prop := ∃ bits, Part (.float bits) v ∧ isNaN bits = true

/-- Two contents agree at every leaf, where a pair of lists may also be identical. -/
inductive Alike : Val Unit → Val Unit → Prop
  | leaf {a b} : a.items = [] → b.items = [] → deepEq a b = true → Alike a b
  | same {xs} : Alike (.list () xs) (.list () xs)
  | items {a b} : SameHead a b → a.items.length = b.items.length →
      (∀ (i : ℕ) (h : i < a.items.length) (h' : i < b.items.length), Alike a.items[i] b.items[i]) →
        Alike a b

/-- At some place of both contents stand identical lists with a NaN inside. -/
inductive SharedNaN : Val Unit → Val Unit → Prop
  | here {xs} : HasNaN (.list () xs) → SharedNaN (.list () xs) (.list () xs)
  | item {a b} (i : ℕ) (h : i < a.items.length) (h' : i < b.items.length) : SameHead a b →
      SharedNaN a.items[i] b.items[i] → SharedNaN a b

/-! ### Values by their items -/

variable {v : Val ρ} {same : ρ → σ → Bool} {w : Val σ} {a b : Val Unit} {f : Val Unit → ρ}

theorem sizeOf_item {x : Val ρ} (h : x ∈ v.items) : sizeOf x < sizeOf v := by
  cases v with
  | tuple xs =>
    have hlt := sizeOf_lt_of_mem (show x ∈ xs from h)
    simp only [Val.tuple.sizeOf_spec]
    omega
  | list p xs =>
    have hlt := sizeOf_lt_of_mem (show x ∈ xs from h)
    simp only [Val.list.sizeOf_spec]
    omega
  | ctor t xs =>
    have hlt := sizeOf_lt_of_mem (show x ∈ xs from h)
    simp only [Val.ctor.sizeOf_spec]
    omega
  | _ => cases h

theorem Val.byItems {P : Val ρ → Prop} (step : ∀ v, (∀ x ∈ v.items, P x) → P v) (v : Val ρ) :
    P v := by
  induction hn : sizeOf v using Nat.strong_induction_on generalizing v with
  | _ n ih =>
    subst hn
    exact step v fun x hx => ih _ (sizeOf_item hx) x rfl

theorem eraseAll_eq (xs : List (Val ρ)) : eraseAll xs = xs.map Val.erase := by
  induction xs with
  | nil => rfl
  | cons x xs ih => simp [ih]

theorem items_erase (v : Val ρ) : v.erase.items = v.items.map Val.erase := by
  cases v <;> simp [Val.items, eraseAll_eq]

theorem eqAll_iff {xs : List (Val ρ)} {ys : List (Val σ)} :
    eqAll same xs ys = true ↔ xs.length = ys.length ∧
      ∀ (i : ℕ) (h : i < xs.length) (h' : i < ys.length), eqBy same xs[i] ys[i] = true := by
  induction xs generalizing ys with
  | nil => cases ys <;> simp
  | cons x xs ih =>
    cases ys with
    | nil => simp
    | cons y ys =>
      rw [eqAll, Bool.and_eq_true, ih]
      constructor
      · rintro ⟨hhead, hlen, htail⟩
        refine ⟨congrArg (· + 1) hlen, fun i h h' => ?_⟩
        cases i with
        | zero => exact hhead
        | succ i => exact htail i (Nat.lt_of_succ_lt_succ h) (Nat.lt_of_succ_lt_succ h')
      · rintro ⟨hlen, hall⟩
        exact ⟨hall 0 (Nat.succ_pos _) (Nat.succ_pos _), Nat.succ.inj hlen, fun i h h' =>
          hall (i + 1) (Nat.succ_lt_succ h) (Nat.succ_lt_succ h')⟩

/-- The items of two values are pairwise equal. -/
def EqualItems (same : ρ → σ → Bool) (v : Val ρ) (w : Val σ) : Prop :=
  v.items.length = w.items.length ∧
    ∀ (i : ℕ) (h : i < v.items.length) (h' : i < w.items.length), eqBy same v.items[i] w.items[i] =
      true

theorem eqBy_of_items (hhead : SameHead v w) (h : EqualItems same v w) : eqBy same v w = true := by
  have hall := eqAll_iff.mpr h
  cases hhead <;> simp_all [Val.items]

theorem eqBy_leaf (hv : v.items = [])
    (hw : w.items = []) (h : deepEq v.erase w.erase = true) : eqBy same v w = true := by
  cases v <;> cases w <;> simp_all [Val.items, deepEq]

/-- The ways two values can be equal: the same storage, pairwise equal items, or equal leaves. -/
theorem eqBy_cases (h : eqBy same v w = true) :
    (∃ p q, v.addr? = some p ∧ w.addr? = some q ∧ same p q = true) ∨
      (SameHead v w ∧ EqualItems same v w) ∨
      (v.items = [] ∧ w.items = [] ∧ deepEq v.erase w.erase = true) := by
  cases v with
  | tuple xs =>
    cases w with
    | tuple ys =>
      rw [eqBy] at h
      exact .inr (.inl ⟨.tuple, eqAll_iff.mp h⟩)
    | _ => simp at h
  | list p xs =>
    cases w with
    | list q ys =>
      simp only [eqBy, Bool.or_eq_true] at h
      rcases h with hsame | hall
      · exact .inl ⟨p, q, rfl, rfl, hsame⟩
      · exact .inr (.inl ⟨.list, eqAll_iff.mp hall⟩)
    | _ => simp at h
  | ctor t xs =>
    cases w with
    | ctor u ys =>
      simp only [eqBy, Bool.and_eq_true, beq_iff_eq] at h
      obtain ⟨rfl, hall⟩ := h
      exact .inr (.inl ⟨.ctor, eqAll_iff.mp hall⟩)
    | _ => simp at h
  | frozenMap p m =>
    cases w with
    | frozenMap q n =>
      simp only [eqBy, Bool.or_eq_true] at h
      rcases h with hsame | htable
      · exact .inl ⟨p, q, rfl, rfl, hsame⟩
      · exact .inr (.inr ⟨rfl, rfl, by simpa [deepEq] using htable⟩)
    | _ => simp at h
  | bytes p bs =>
    cases w with
    | bytes q cs =>
      simp only [eqBy, Bool.or_eq_true] at h
      rcases h with hsame | hbytes
      · exact .inl ⟨p, q, rfl, rfl, hsame⟩
      · exact .inr (.inr ⟨rfl, rfl, by simpa [deepEq] using hbytes⟩)
    | _ => simp at h
  | _ => cases w <;> simp_all [Val.items, deepEq]

theorem items_of_deepEq (h : deepEq a b = true) : EqualItems (fun _ _ => false) a b := by
  rcases eqBy_cases h with ⟨_, _, _, _, hsame⟩ | ⟨_, hitems⟩ | ⟨ha, hb, _⟩
  · cases hsame
  · exact hitems
  · refine ⟨by simp [ha, hb], fun i hi _ => ?_⟩
    simp [ha] at hi

theorem sameHead_erase (h : SameHead v.erase w.erase) : SameHead v w := by
  cases v <;> cases w <;> simp only [Val.erase] at h <;> cases h <;> constructor

/-- Sharing storage only adds equalities. -/
theorem eqBy_of_deepEq (h : deepEq v.erase w.erase = true) : eqBy same v w = true := by
  induction v using Val.byItems generalizing w with
  | step v ih =>
    rcases eqBy_cases h with ⟨_, _, _, _, hsame⟩ | ⟨hhead, hlen, hall⟩ | ⟨hv, hw, _⟩
    · cases hsame
    · simp only [items_erase, length_map, getElem_map] at hlen hall
      exact eqBy_of_items (sameHead_erase hhead) ⟨hlen, fun i hi hi' =>
        ih _ (getElem_mem hi) (hall i hi hi')⟩
    · simp only [items_erase, map_eq_nil_iff] at hv hw
      exact eqBy_leaf hv hw h

/-! ### Contents with a NaN -/

theorem hasNaN_iff :
    HasNaN v ↔ (∃ bits, v = .float bits ∧ isNaN bits = true) ∨ ∃ x ∈ v.items, HasNaN x := by
  constructor
  · rintro ⟨bits, hpart, hnan⟩
    cases hpart with
    | self => exact .inl ⟨bits, rfl, hnan⟩
    | item hx hpart => exact .inr ⟨_, hx, bits, hpart, hnan⟩
  · rintro (⟨bits, rfl, hnan⟩ | ⟨x, hx, bits, hpart, hnan⟩)
    · exact ⟨bits, .self, hnan⟩
    · exact ⟨bits, .item hx hpart, hnan⟩

theorem deepEq_items_self {v : Val Unit} (hhead : SameHead v v)
    (ih : ∀ x ∈ v.items, deepEq x x = true ↔ ¬ HasNaN x) :
    deepEq v v = true ↔ ¬ ∃ x ∈ v.items, HasNaN x := by
  constructor
  · rintro h ⟨x, hx, hnan⟩
    obtain ⟨i, hi, rfl⟩ := mem_iff_getElem.mp hx
    exact (ih _ hx).mp ((items_of_deepEq h).2 i hi hi) hnan
  · intro h
    exact eqBy_of_items hhead ⟨rfl, fun i hi _ => (ih _ (getElem_mem hi)).mpr fun hnan =>
      h ⟨_, getElem_mem hi, hnan⟩⟩

/-- A content is equal to itself unless a NaN is inside. -/
theorem deepEq_self {v : Val Unit} : deepEq v v = true ↔ ¬ HasNaN v := by
  induction v using Val.byItems with
  | step v ih =>
    rw [hasNaN_iff]
    cases v with
    | tuple xs => simpa using deepEq_items_self .tuple ih
    | list p xs => simpa using deepEq_items_self .list ih
    | ctor t xs => simpa using deepEq_items_self .ctor ih
    | float bits => simp [deepEq, floatEq, Val.items]
    | frozenMap p m => simp [deepEq, Val.items, HMap.Frozen.tableEq_iff]
    | localMap h => simp [deepEq, localEq, Val.items]
    | _ => simp [deepEq, Val.items]

theorem deepEq_of_alike (h : Alike a b) (hnan : ¬ SharedNaN a b) : deepEq a b = true := by
  induction h with
  | leaf _ _ heq => exact heq
  | same => exact deepEq_self.mpr fun h => hnan (.here h)
  | items hhead hlen _ ih =>
    exact eqBy_of_items hhead ⟨hlen,
      fun i hi hi' => ih i hi hi' fun h => hnan (.item i hi hi' hhead h)⟩

theorem not_deepEq_of_sharedNaN (h : SharedNaN a b) : deepEq a b ≠ true := by
  induction h with
  | here hnan => exact fun heq => deepEq_self.mp heq hnan
  | item i hi hi' hhead _ ih => exact fun heq => ih ((items_of_deepEq heq).2 i hi hi')

/-! ### One address for each content -/

mutual
/-- The value with this content in which equal contents have one address. -/
def label (f : Val Unit → ρ) : Val Unit → Val ρ
  | .localMap h => .localMap h
  | .frozenMap _ m => .frozenMap (f (.frozenMap () m)) m
  | .int n => .int n
  | .bool b => .bool b
  | .str s => .str s
  | .unit => .unit
  | .tuple xs => .tuple (labelAll f xs)
  | .list _ xs => .list (f (.list () xs)) (labelAll f xs)
  | .ctor t xs => .ctor t (labelAll f xs)
  | .dec m s => .dec m s
  | .float a => .float a
  | .bytes _ bs => .bytes (f (.bytes () bs)) bs
def labelAll (f : Val Unit → ρ) : List (Val Unit) → List (Val ρ)
  | [] => []
  | x :: xs => label f x :: labelAll f xs
end

attribute [local simp] label labelAll

theorem labelAll_eq (f : Val Unit → ρ) (xs : List (Val Unit)) :
    labelAll f xs = xs.map (label f) := by
  induction xs with
  | nil => rfl
  | cons x xs ih => simp [ih]

theorem items_label (f : Val Unit → ρ) (v : Val Unit) :
    (label f v).items = v.items.map (label f) := by
  cases v <;> simp [Val.items, labelAll_eq]

theorem map_erase_label {xs : List (Val Unit)}
    (h : ∀ x ∈ xs, (label f x).erase = x) : eraseAll (labelAll f xs) = xs := by
  rw [eraseAll_eq, labelAll_eq, map_map]
  exact (map_congr_left h).trans (map_id xs)

theorem erase_label (f : Val Unit → ρ) (v : Val Unit) : (label f v).erase = v := by
  induction v using Val.byItems with
  | step v ih =>
    cases v with
    | tuple xs => exact congrArg Val.tuple (map_erase_label ih)
    | list p xs => exact congrArg (Val.list ()) (map_erase_label ih)
    | ctor t xs => exact congrArg (Val.ctor t) (map_erase_label ih)
    | _ => rfl

theorem part_label {p : Val ρ} {v : Val Unit} (h : Part p (label f v)) :
    ∃ c, Part c v ∧ p = label f c := by
  generalize hw : label f v = w at h
  induction h generalizing v with
  | self => exact ⟨v, .self, hw.symm⟩
  | item hx _ ih =>
    rw [← hw, items_label] at hx
    obtain ⟨y, hy, rfl⟩ := mem_map.mp hx
    obtain ⟨c, hc, rfl⟩ := ih rfl
    exact ⟨c, .item hy hc, rfl⟩

theorem addr_label {c : Val Unit} {x : ρ} (h : (label f c).addr? = some x) : x = f c := by
  cases c <;> simp_all [Val.addr?]

theorem finite_parts (v : Val ρ) : {c | Part c v}.Finite := by
  induction v using Val.byItems with
  | step v ih =>
    refine ((Set.finite_singleton v).union ((finite_toSet v.items).biUnion ih)).subset ?_
    intro c hc
    cases hc with
    | self => exact .inl rfl
    | item hx hc => exact .inr (Set.mem_biUnion hx hc)

/-- The most that two contents can share. -/
theorem exists_label (a b : Val Unit) : ∃ f : Val Unit → ℕ, Consistent (label f a) (label f b) := by
  obtain ⟨f, hf⟩ :=
    Set.countable_iff_exists_injOn.mp ((finite_parts a).union (finite_parts b)).countable
  have hpart {p : Val ℕ} (h : Part p (label f a) ∨ Part p (label f b)) :
      ∃ c ∈ {c | Part c a} ∪ {c | Part c b}, p = label f c := by
    rcases h with h | h
    · obtain ⟨c, hc, rfl⟩ := part_label h
      exact ⟨c, .inl hc, rfl⟩
    · obtain ⟨c, hc, rfl⟩ := part_label h
      exact ⟨c, .inr hc, rfl⟩
  refine ⟨f, fun p q hp hq x hpx hqx => ?_⟩
  obtain ⟨c, hc, rfl⟩ := hpart hp
  obtain ⟨d, hd, rfl⟩ := hpart hq
  rw [hf hc hd ((addr_label hpx).symm.trans (addr_label hqx))]

theorem sameHead_label (h : SameHead a b) : SameHead (label f a) (label f b) := by
  cases h <;> constructor

theorem valueEq_label (f : Val Unit → ℕ) (h : Alike a b) :
    valueEq (label f a) (label f b) = true := by
  induction h with
  | leaf _ _ heq => exact eqBy_of_deepEq (by rwa [erase_label, erase_label])
  | same => simp [valueEq]
  | items hhead hlen _ ih =>
    refine eqBy_of_items (sameHead_label hhead) ⟨by simpa [items_label] using hlen,
      fun i hi hi' => ?_⟩
    simp only [items_label, length_map, getElem_map] at hi hi' ⊢
    exact ih i hi hi'

theorem Consistent.items {v w x y : Val ℕ} (h : Consistent v w) (hx : x ∈ v.items)
    (hy : y ∈ w.items) : Consistent x y := by
  have up {p : Val ℕ} : Part p x ∨ Part p y → Part p v ∨ Part p w :=
    Or.imp (.item hx) (.item hy)
  exact fun p q hp hq => h p q (up hp) (up hq)

theorem alike_of_shared {v w : Val ℕ} {x : ℕ} (h : v.erase = w.erase) (hv : v.addr? = some x) :
    Alike v.erase w.erase := by
  rw [← h]
  cases v with
  | list p xs => exact .same
  | frozenMap p m => exact .leaf rfl rfl (by simp [deepEq, HMap.Frozen.tableEq_iff])
  | bytes p bs => exact .leaf rfl rfl (by simp [deepEq])
  | _ => cases hv

/-- Two values that share storage and are equal are alike. -/
theorem alike_of_valueEq {v w : Val ℕ} (hcons : Consistent v w) (h : valueEq v w = true) :
    Alike v.erase w.erase := by
  induction v using Val.byItems generalizing w with
  | step v ih =>
    rcases eqBy_cases h with ⟨p, q, hp, hq, hsame⟩ | ⟨hhead, hlen, hall⟩ | ⟨hv, hw, heq⟩
    · obtain rfl := beq_iff_eq.mp hsame
      exact alike_of_shared (hcons v w (.inl .self) (.inr .self) p hp hq) hp
    · refine .items ?_ (by simpa [items_erase] using hlen) fun i hi hi' => ?_
      · cases hhead <;> simp only [Val.erase] <;> constructor
      · simp only [items_erase, length_map, getElem_map] at hi hi' ⊢
        exact ih _ (getElem_mem hi) (hcons.items (getElem_mem hi) (getElem_mem hi')) (hall i hi hi')
    · exact .leaf (by simp [items_erase, hv]) (by simp [items_erase, hw]) heq

/-- Sharing decides a comparison exactly where two alike values hold identical lists with a NaN
inside. -/
theorem independent_iff (a b : Val Unit) : Independent a b ↔ ¬ (Alike a b ∧ SharedNaN a b) := by
  constructor
  · rintro hind ⟨halike, hnan⟩
    obtain ⟨f, hf⟩ := exists_label a b
    have h := hind _ _ (erase_label f a) (erase_label f b) hf
    rw [valueEq_label f halike] at h
    exact not_deepEq_of_sharedNaN hnan h.symm
  · rintro hnot v w rfl rfl hcons
    rw [Bool.eq_iff_iff]
    constructor
    · intro h
      have halike := alike_of_valueEq hcons h
      exact deepEq_of_alike halike fun hnan => hnot ⟨halike, hnan⟩
    · exact eqBy_of_deepEq

/-- A list with a NaN is equal to itself, and not to a copy. -/
theorem nan_list_shared :
    ¬ Independent (.list () [.float 0x7ff8000000000000])
      (.list () [.float 0x7ff8000000000000]) := by
  intro hind
  have only {p : Val ℕ} {x : ℕ} (hp : Part p (.list 0 [.float 0x7ff8000000000000]))
      (hx : p.addr? = some x) : p = .list 0 [.float 0x7ff8000000000000] := by
    cases hp with
    | self => rfl
    | item hitem hp =>
      obtain rfl := mem_singleton.mp hitem
      cases hp with
      | self => cases hx
      | item hitem _ => cases hitem
  have h := hind (.list 0 [.float 0x7ff8000000000000]) (.list 0 [.float 0x7ff8000000000000]) rfl rfl
    fun p q hp hq x hpx hqx => by rw [only (or_self_iff.mp hp) hpx, only (or_self_iff.mp hq) hqx]
  revert h
  decide

end AxisBridge.SharedEq
