import Mathlib.Data.Finset.Sort
import Mathlib.Data.List.Indexes
import SuperRuntime.Vcache.Union

/-!
The vectorized conditional `predicate ? thenExpr : elseExpr` (`conditional.Eval` and `BoolMask`,
src/unnamed/part_001). `BoolMask` sorts the predicate's rows into two roaring bitmaps: the rows
that hold a non-null true, and the rows of an Error vector, looking through one Dynamic to its
values. `Eval` takes one of three shortcuts, or evaluates each branch on the rows picked for it
and tags every row with the vector that holds its result. Every branch gives row `i` the
then-result when `i` is in the first bitmap, the wrapped predicate error when it is in the
second, and the else-result otherwise: the scalar `?:` whenever the predicate's true and error
rows come from Bool, Const and Error vectors. A Const predicate that holds an error value adds
its rows to neither bitmap, and they take the else-branch; so does a vector of another kind, a
View, Named, Union or nested Dynamic, whatever its rows hold.
-/

namespace SuperRuntime.Conditional

open Vcache (Bits)

/-- The values of the rows the conditional reads and returns; `S` is the values that are neither
booleans nor errors. -/
inductive Elem (S : Type)
  | null
  | bool (b : Bool)
  /-- an error value, by its payload -/
  | error (payload : Elem S)
  /-- `NewWrappedError(sctx, msg, val)`: the error of the message and the wrapped value -/
  | wrapped (msg : String) (val : Elem S)
  | other (s : S)
deriving DecidableEq

variable {S : Type}

def Elem.isError : Elem S → Bool
  | error _ | wrapped _ _ => true
  | _ => false

/-- Modelled from the spec: `super.Value.AsBool`, which holds of a non-null true only. -/
def Elem.asBool : Elem S → Bool
  | bool b => b
  | _ => false

/-- The vectors `boolMaskRidx` tells apart, with what it reads of each. -/
inductive Leaf (S : Type)
  /-- `vector.Bool`: its bits and its nulls -/
  | bool (bits nulls : Bits)
  /-- `vector.Const`: one value on `len` rows -/
  | const (val : Elem S) (len : Nat) (nulls : Bits)
  /-- `vector.Error`: an error on each row, by their payloads -/
  | error (vals : List (Elem S))
  /-- a vector of any other kind (View, Named, Union, a nested Dynamic), by its rows -/
  | other (vals : List (Elem S))

/-- `Len()`. -/
def Leaf.len : Leaf S → Nat
  | bool bits _ => bits.len
  | const _ len _ => len
  | error vals => vals.length
  | other vals => vals.length

def Leaf.elem : Leaf S → Nat → Elem S
  | bool bits nulls, i => if nulls.isSet i then .null else .bool (bits.isSet i)
  | const val _ nulls, i => if nulls.isSet i then .null else val
  | error vals, i => .error (vals.getD i .null)
  | other vals, i => vals.getD i .null

/-- Whether the leaf is a `vector.Error`. -/
def Leaf.isErrorVec : Leaf S → Bool
  | error _ => true
  | _ => false

/-- Whether `boolMaskRidx` takes row `j` of a leaf for a non-null true: it reads the bits of a
Bool vector and the value of a Const, and looks into no other vector. -/
def Leaf.maskTrue : Leaf S → Nat → Bool
  | bool bits nulls, j => !nulls.isSet j && bits.isSet j
  | const val _ nulls, j => !nulls.isSet j && val.asBool
  | error _, _ | other _, _ => false

/-- Whether the leaf is no vector of another kind that holds a non-null true or an error: rows
that `boolMaskRidx` does not see. -/
def Leaf.plainOther : Leaf S → Bool
  | other vals => vals.all fun e => !e.asBool && !e.isError
  | _ => true

theorem Leaf.elem_other {vals : List (Elem S)} (h : (Leaf.other vals).plainOther = true) (j : Nat) :
    ((Leaf.other vals).elem j).asBool = false ∧ ((Leaf.other vals).elem j).isError = false := by
  rw [Leaf.elem, List.getD_eq_getElem?_getD]
  cases hv : vals[j]? with
  | none => exact ⟨rfl, rfl⟩
  | some e => simpa using List.all_eq_true.mp h e (List.getElem?_mem hv)

theorem Leaf.maskTrue_eq_asBool {l : Leaf S} (hl : l.plainOther = true) (j : Nat) :
    l.maskTrue j = (l.elem j).asBool := by
  cases l with
  | bool bits nulls | const val len nulls =>
    by_cases h : nulls.isSet j <;> simp [Leaf.maskTrue, Leaf.elem, Elem.asBool, h]
  | error vals => rfl
  | other vals => exact (Leaf.elem_other hl j).1.symm

/-- A predicate's result vector: a leaf, or a `vector.Dynamic` of leaves. -/
inductive Pred (S : Type)
  | leaf (l : Leaf S)
  /-- `vector.Dynamic`: for each row, the tag of the value vector that holds it -/
  | dynamic (tags : List Nat) (values : List (Leaf S))

/-- `Len()`. -/
def Pred.len : Pred S → Nat
  | leaf l => l.len
  | dynamic tags _ => tags.length

/-- Modelled from the spec: `ForwardTagMap()[i]`, the number of rows before `i` with its tag. -/
def forward (tags : List Nat) (i : Nat) : Nat :=
  ((List.range i).filter fun j => tags.getD j 0 = tags.getD i 0).length

/-- Modelled from the spec: `ReverseTagMap()[t]`, the rows tagged `t`, in order. -/
def reverse (tags : List Nat) (t : Nat) : List Nat :=
  (List.range tags.length).filter fun i => tags.getD i 0 = t

def Pred.leafAt : Pred S → Nat → Option (Leaf S × Nat)
  | leaf l, i => some (l, i)
  | dynamic tags values, i => values[tags.getD i 0]?.map (·, forward tags i)

def Pred.elem (p : Pred S) (i : Nat) : Elem S :=
  match p.leafAt i with
  | some (l, j) => l.elem j
  | none => .null

/-- Whether `BoolMask` takes row `i` of the predicate for a non-null true. -/
def Pred.maskTrue (p : Pred S) (i : Nat) : Bool :=
  match p.leafAt i with
  | some (l, j) => l.maskTrue j
  | none => false

/-- Whether a `vector.Error` holds row `i` of the predicate. -/
def Pred.errorRow (p : Pred S) (i : Nat) : Bool :=
  match p.leafAt i with
  | some (l, _) => l.isErrorVec
  | none => false

def Leaf.noErrorConst : Leaf S → Bool
  | const val _ _ => !val.isError
  | _ => true

def Pred.allLeaves (f : Leaf S → Bool) : Pred S → Bool
  | leaf l => f l
  | dynamic _ values => values.all f

theorem Pred.allLeaves_leafAt {f : Leaf S → Bool} {p : Pred S} {i j : Nat} {l : Leaf S}
    (hf : p.allLeaves f = true) (h : p.leafAt i = some (l, j)) : f l = true := by
  cases p with
  | leaf l' =>
    cases Option.some.inj h
    exact hf
  | dynamic tags values =>
    obtain ⟨l', hl', he⟩ := Option.map_eq_some'.mp h
    cases he
    exact List.all_eq_true.mp hf l (List.getElem?_mem hl')

def Pred.elems (p : Pred S) : List (Elem S) := (List.range p.len).map p.elem

/-- The loops `for i, idx := range ridx { if keep(i) { bools.Add(idx) } }`, from position `i`. -/
def addIf (keep : Nat → Bool) : List Nat → Nat → Finset Nat → Finset Nat
  | [], _, bools => bools
  | idx :: ridx, i, bools => addIf keep ridx (i + 1) (if keep i then insert idx bools else bools)

/-- Modelled from the spec: `bitvec.And(bits, bitvec.Not(nulls))`, row by row over `bits`. -/
def andNot (bits nulls : List Bool) : List Bool :=
  (List.range bits.length).map fun i => bits.getD i false && !nulls.getD i false

/-- `roaring.FromDense(bits.GetBits(), true)`: the rows whose bit is set. -/
def fromDense (bits : List Bool) : Finset Nat :=
  ((List.range bits.length).filter (bits.getD · false)).toFinset

/-- `boolMaskRidx`: adds to the first bitmap the rows of `vec` that hold a non-null true and to
the second the rows of an Error vector, row `j` of `vec` being row `ridx[j]` of the predicate,
or row `j` itself when `ridx` is nil. -/
def boolMaskRidx (ridx : Option (List Nat)) (masks : Finset Nat × Finset Nat) :
    Leaf S → Finset Nat × Finset Nat
  | .const val len nulls =>
    if !val.asBool then masks
    else if !nulls.isZero then
      match ridx with
      | some r => (addIf (!nulls.isSet ·) r 0 masks.1, masks.2)
      | none => (addIf (!nulls.isSet ·) (List.range len) 0 masks.1, masks.2)
    else
      match ridx with
      | some r => (masks.1 ∪ r.toFinset, masks.2)
      | none => (masks.1 ∪ Finset.range len, masks.2)
  | .bool bits nulls =>
    let trues := if !nulls.isZero then andNot bits.rows nulls.rows else bits.rows
    match ridx with
    | some r => (addIf (trues.getD · false) r 0 masks.1, masks.2)
    | none => (masks.1 ∪ fromDense trues, masks.2)
  | .error vals =>
    match ridx with
    | some r => (masks.1, masks.2 ∪ r.toFinset)
    | none => (masks.1, masks.2 ∪ Finset.range vals.length)
  | .other _ => masks

/-- The loop of `BoolMask` over a Dynamic's values, value `i` with the rows `reverse[i]`. -/
def boolMaskValues (tags : List Nat) :
    List (Leaf S) → Nat → Finset Nat × Finset Nat → Finset Nat × Finset Nat
  | [], _, masks => masks
  | val :: values, i, masks =>
    boolMaskValues tags values (i + 1) (boolMaskRidx (some (reverse tags i)) masks val)

/-- `BoolMask`: the rows that hold a non-null true, and the rows of an Error vector. -/
def boolMask : Pred S → Finset Nat × Finset Nat
  | .leaf l => boolMaskRidx none (∅, ∅) l
  | .dynamic tags values => boolMaskValues tags values 0 (∅, ∅)

section Masks

private theorem exists_getElem?_cons {β : Type} {a x : β} {r : List β} {P : Nat → Prop} :
    (∃ j, (a :: r)[j]? = some x ∧ P j) ↔ (a = x ∧ P 0) ∨ ∃ j, r[j]? = some x ∧ P (j + 1) := by
  constructor
  · rintro ⟨_ | j, h, hp⟩
    · rw [List.getElem?_cons_zero, Option.some.injEq] at h
      exact .inl ⟨h, hp⟩
    · rw [List.getElem?_cons_succ] at h
      exact .inr ⟨j, h, hp⟩
  · rintro (⟨rfl, hp⟩ | ⟨j, h, hp⟩)
    · exact ⟨0, List.getElem?_cons_zero, hp⟩
    · exact ⟨j + 1, List.getElem?_cons_succ.trans h, hp⟩

private theorem exists_getElem?_cons' {β : Type} {a : β} {r : List β} {P : Nat → β → Prop} :
    (∃ k b, (a :: r)[k]? = some b ∧ P k b) ↔ P 0 a ∨ ∃ k b, r[k]? = some b ∧ P (k + 1) b := by
  constructor
  · rintro ⟨_ | k, b, h, hp⟩
    · rw [List.getElem?_cons_zero, Option.some.injEq] at h
      exact .inl (h ▸ hp)
    · rw [List.getElem?_cons_succ] at h
      exact .inr ⟨k, b, h, hp⟩
  · rintro (hp | ⟨k, b, h, hp⟩)
    · exact ⟨0, a, List.getElem?_cons_zero, hp⟩
    · exact ⟨k + 1, b, List.getElem?_cons_succ.trans h, hp⟩

private theorem exists_getElem?_range {n x : Nat} {P : Nat → Prop} :
    (∃ j, (List.range n)[j]? = some x ∧ P j) ↔ x < n ∧ P x := by
  constructor
  · rintro ⟨j, h, hp⟩
    obtain ⟨hj, rfl⟩ := List.getElem?_eq_some_iff.mp h
    exact ⟨by simpa using hj, by simpa using hp⟩
  · rintro ⟨hx, hp⟩
    exact ⟨x, List.getElem?_range hx, hp⟩

theorem mem_addIf {keep : Nat → Bool} {x : Nat} :
    ∀ {r : List Nat} {i : Nat} {bools : Finset Nat},
      x ∈ addIf keep r i bools ↔ x ∈ bools ∨ ∃ j, r[j]? = some x ∧ keep (i + j) = true
  | [], _, _ => by simp [addIf]
  | idx :: r, i, bools => by
    have e : (∃ j, r[j]? = some x ∧ keep (i + (j + 1)) = true) ↔
        ∃ j, r[j]? = some x ∧ keep (i + 1 + j) = true :=
      exists_congr fun j => by rw [show i + (j + 1) = i + 1 + j by omega]
    rw [addIf, mem_addIf, exists_getElem?_cons, @eq_comm _ idx x, e]
    by_cases hk : keep i = true <;> simp [hk, or_assoc, or_left_comm]

theorem mem_fromDense {bits : List Bool} {x : Nat} : x ∈ fromDense bits ↔ bits.getD x false = true := by
  by_cases hx : x < bits.length
  · simp [fromDense, hx, List.getD_eq_getElem?_getD]
  · simp [fromDense, hx, List.getD_eq_getElem?_getD, List.getElem?_eq_none (Nat.le_of_not_lt hx)]

theorem getD_andNot (bits nulls : List Bool) (j : Nat) :
    (andNot bits nulls).getD j false = (bits.getD j false && !nulls.getD j false) := by
  by_cases hj : j < bits.length
  · simp [andNot, hj, List.getD_eq_getElem?_getD, List.getElem?_range]
  · have hr : (List.range bits.length)[j]? = none := List.getElem?_eq_none (by simp; omega)
    simp [andNot, hr, List.getD_eq_getElem?_getD, List.getElem?_eq_none (Nat.le_of_not_lt hj)]

theorem getD_trues (bits nulls : Bits) (j : Nat) :
    (if !nulls.isZero then andNot bits.rows nulls.rows else bits.rows).getD j false =
      (!nulls.isSet j && bits.isSet j) := by
  cases nulls with
  | none => simp [Bits.isZero, Bits.isSet, show Bits.rows none = [] from rfl]
  | some ns =>
    simp only [Bits.isZero, Bool.not_false, ite_true, getD_andNot]
    rw [Bool.and_comm]
    rfl

private theorem lt_len_of_isSet {b : Bits} {x : Nat} (h : b.isSet x = true) : x < b.len := by
  by_contra hx
  simp [Bits.isSet, Bits.len, List.getD_eq_getElem?_getD,
    List.getElem?_eq_none (Nat.le_of_not_lt hx)] at h

/-- `boolMaskRidx` adds the rows `ridx[j]` of the rows `j` of the leaf it takes for a non-null
true, and all of `ridx` for an Error vector; nil stands for the leaf's own rows. -/
theorem mem_boolMaskRidx (ridx : Option (List Nat)) (masks : Finset Nat × Finset Nat) (l : Leaf S)
    (x : Nat) :
    (x ∈ (boolMaskRidx ridx masks l).1 ↔
      x ∈ masks.1 ∨ ∃ j, (ridx.getD (List.range l.len))[j]? = some x ∧ l.maskTrue j = true) ∧
    (x ∈ (boolMaskRidx ridx masks l).2 ↔
      x ∈ masks.2 ∨ l.isErrorVec = true ∧ x ∈ ridx.getD (List.range l.len)) := by
  cases l with
  | bool bits nulls =>
    cases ridx with
    | some r =>
      refine ⟨?_, by simp [boolMaskRidx, Leaf.isErrorVec]⟩
      simp only [boolMaskRidx, Option.getD_some, mem_addIf, Nat.zero_add, getD_trues, Leaf.maskTrue]
    | none =>
      refine ⟨?_, by simp [boolMaskRidx, Leaf.isErrorVec]⟩
      simp only [boolMaskRidx, Finset.mem_union, mem_fromDense, getD_trues, Option.getD_none,
        exists_getElem?_range, Leaf.maskTrue, Leaf.len, Bool.and_eq_true]
      exact or_congr_right ⟨fun h => ⟨lt_len_of_isSet h.2, h⟩, And.right⟩
  | const val len nulls =>
    by_cases hv : val.asBool
    · cases nulls <;> cases ridx <;>
        simp only [boolMaskRidx, hv, Bool.not_true, Bool.not_false, Bool.false_eq_true, ↓reduceIte,
          Bits.isZero, Bits.isSet, Bits.rows, Finset.mem_union, Finset.mem_range, List.mem_toFinset,
          Leaf.len, Option.getD_none, Option.getD_some, List.getElem?_eq_some_iff,
          List.getElem_range, List.length_range, exists_prop, Leaf.maskTrue,
          List.getD_eq_getElem?_getD, List.getElem?_nil, Bool.and_self, Bool.and_true, and_true,
          exists_eq_right, Leaf.isErrorVec, List.mem_iff_getElem?, false_and, or_false, and_self,
          mem_addIf, Nat.zero_add, Bool.not_eq_eq_eq_not]
    · simp [boolMaskRidx, hv, Leaf.isErrorVec, Leaf.maskTrue]
  | error vals => cases ridx <;> simp [boolMaskRidx, Leaf.isErrorVec, Leaf.len, Leaf.maskTrue]
  | other vals => simp [boolMaskRidx, Leaf.isErrorVec, Leaf.maskTrue]

theorem getElem?_filter_range {p : Nat → Bool} {n k x : Nat} :
    ((List.range n).filter p)[k]? = some x ↔
      x < n ∧ p x = true ∧ ((List.range x).filter p).length = k := by
  have hat : ∀ {x}, x < n → p x = true →
      ((List.range n).filter p)[((List.range x).filter p).length]? = some x := by
    intro x hx hp
    obtain ⟨m, rfl⟩ : ∃ m, n = m + 1 + x := ⟨n - x - 1, by omega⟩
    rw [List.range_eq_range', ← List.range'_append, List.range'_succ, List.filter_append]
    simp only [Nat.zero_add, Nat.one_mul]
    rw [List.filter_cons_of_pos hp, ← List.range_eq_range', List.getElem?_append_right (le_refl _),
      Nat.sub_self, List.getElem?_cons_zero]
  constructor
  · intro h
    obtain ⟨hx, hp⟩ := List.mem_filter.mp (List.getElem?_mem h)
    have hk : k < ((List.range n).filter p).length := (List.getElem?_eq_some_iff.mp h).1
    exact ⟨List.mem_range.mp hx, hp, (List.getElem?_inj hk ((List.nodup_range n).filter p)
      (h.trans (hat (List.mem_range.mp hx) hp).symm)).symm⟩
  · rintro ⟨hx, hp, rfl⟩
    exact hat hx hp

theorem getElem?_reverse {tags : List Nat} {t k x : Nat} :
    (reverse tags t)[k]? = some x ↔ x < tags.length ∧ tags.getD x 0 = t ∧ forward tags x = k := by
  rw [reverse, getElem?_filter_range]
  constructor <;> rintro ⟨hx, ht, hk⟩ <;> simp only [decide_eq_true_eq] at ht ⊢ <;> subst ht <;>
    exact ⟨hx, rfl, hk⟩

theorem mem_reverse {tags : List Nat} {t x : Nat} :
    x ∈ reverse tags t ↔ x < tags.length ∧ tags.getD x 0 = t := by
  simp [reverse]

theorem mem_boolMaskValues (tags : List Nat) (x : Nat) :
    ∀ (values : List (Leaf S)) (i : Nat) (masks : Finset Nat × Finset Nat),
      (x ∈ (boolMaskValues tags values i masks).1 ↔ x ∈ masks.1 ∨ ∃ k l, values[k]? = some l ∧
        ∃ j, (reverse tags (i + k))[j]? = some x ∧ l.maskTrue j = true) ∧
      (x ∈ (boolMaskValues tags values i masks).2 ↔ x ∈ masks.2 ∨ ∃ k l, values[k]? = some l ∧
        l.isErrorVec = true ∧ x ∈ reverse tags (i + k))
  | [], _, _ => by simp [boolMaskValues]
  | val :: values, i, masks => by
    obtain ⟨ih1, ih2⟩ := mem_boolMaskValues tags x values (i + 1)
      (boolMaskRidx (some (reverse tags i)) masks val)
    obtain ⟨h1, h2⟩ := mem_boolMaskRidx (some (reverse tags i)) masks val x
    simp only [Option.getD_some] at h1 h2
    simp only [Nat.add_right_comm i 1] at ih1 ih2
    simp only [boolMaskValues, ih1, ih2, h1, h2, exists_getElem?_cons', Nat.add_zero, or_assoc,
      ← Nat.add_assoc, and_self]

/-- `BoolMask` puts row `x` in the first bitmap when it takes it for a non-null true, and in the
second when a `vector.Error` holds it. -/
theorem mem_boolMask (p : Pred S) (x : Nat) :
    (x ∈ (boolMask p).1 ↔ x < p.len ∧ p.maskTrue x = true) ∧
    (x ∈ (boolMask p).2 ↔ x < p.len ∧ p.errorRow x = true) := by
  cases p with
  | leaf l =>
    obtain ⟨h1, h2⟩ := mem_boolMaskRidx none (∅, ∅) l x
    simp only [Option.getD_none, exists_getElem?_range, List.mem_range] at h1 h2
    exact ⟨by simpa [boolMask, Pred.len, Pred.maskTrue, Pred.leafAt] using h1,
      by simpa [boolMask, Pred.len, Pred.errorRow, Pred.leafAt, and_comm] using h2⟩
  | dynamic tags values =>
    obtain ⟨h1, h2⟩ := mem_boolMaskValues tags x values 0 (∅, ∅)
    simp only [Nat.zero_add, getElem?_reverse, mem_reverse] at h1 h2
    simp only [boolMask, Pred.len, Pred.maskTrue, Pred.errorRow, Pred.leafAt, Finset.not_mem_empty,
      false_or] at h1 h2 ⊢
    refine ⟨h1.trans ⟨?_, ?_⟩, h2.trans ⟨?_, ?_⟩⟩
    · rintro ⟨_, l, hl, _, ⟨hx, rfl, rfl⟩, hb⟩
      exact ⟨hx, by rw [hl]; exact hb⟩
    · rintro ⟨hx, hb⟩
      cases hv : values[tags.getD x 0]? with
      | none => rw [hv] at hb; exact absurd hb Bool.false_ne_true
      | some l => exact ⟨_, l, hv, _, ⟨hx, rfl, rfl⟩, by rw [hv] at hb; exact hb⟩
    · rintro ⟨_, l, hl, he, hx, rfl⟩
      exact ⟨hx, by rw [hl]; exact he⟩
    · rintro ⟨hx, he⟩
      cases hv : values[tags.getD x 0]? with
      | none => rw [hv] at he; exact absurd he Bool.false_ne_true
      | some l => exact ⟨_, l, hv, by rw [hv] at he; exact he, hx, rfl⟩

/- A Dynamic predicate: row 0 is a Const true, row 1 an error, row 2 a null of the Const. -/
example : boolMask (.dynamic [1, 0, 1]
    [.error [.null], .const (.bool true) 2 (some [false, true])] : Pred String) = ({0}, {1}) := by
  decide

theorem Pred.maskTrue_of_errorRow {p : Pred S} {x : Nat} (h : p.errorRow x = true) :
    p.maskTrue x = false := by
  rcases hl : p.leafAt x with _ | ⟨l, j⟩ <;> simp only [Pred.errorRow, Pred.maskTrue, hl] at h ⊢
  cases l <;> simp_all [Leaf.isErrorVec, Leaf.maskTrue]

/-- `BoolMask`'s bitmaps hold rows of the predicate only, and no row is in both. -/
theorem boolMask_subset_disjoint (p : Pred S) :
    (boolMask p).1 ⊆ Finset.range p.len ∧ (boolMask p).2 ⊆ Finset.range p.len ∧
      Disjoint (boolMask p).1 (boolMask p).2 := by
  refine ⟨fun x hx => ?_, fun x hx => ?_, Finset.disjoint_left.mpr fun x h1 h2 => ?_⟩
  · exact Finset.mem_range.mpr ((mem_boolMask p x).1.mp hx).1
  · exact Finset.mem_range.mpr ((mem_boolMask p x).2.mp hx).1
  · have hb := ((mem_boolMask p x).1.mp h1).2
    rw [Pred.maskTrue_of_errorRow ((mem_boolMask p x).2.mp h2).2] at hb
    exact Bool.false_ne_true hb

end Masks

/-- `predicateError`: each row wrapped in the error "?-operator: bool predicate required". -/
def predicateError (vals : List (Elem S)) : List (Elem S) :=
  vals.map (.wrapped "?-operator: bool predicate required")

/-- The vector `Eval` returns: a vector by its rows, or `vector.NewDynamic(tags, vecs)`. -/
inductive Out (S : Type)
  | flat (rows : List (Elem S))
  | dynamic (tags : List Nat) (vecs : List (List (Elem S)))

def Out.elems : Out S → List (Elem S)
  | flat rows => rows
  | dynamic tags vecs => (List.range tags.length).map fun i =>
    (vecs.getD (tags.getD i 0) []).getD (forward tags i) .null

variable {α : Type}

/-- Modelled from the spec: `vector.Pick(vec, index)`, the rows `index` of `vec`. -/
def pick (vec : List α) (index : List Nat) : List α := index.filterMap (vec[·]?)

/-- `ToArray()`: the rows of a bitmap in increasing order. -/
def toArray (s : Finset Nat) : List Nat := s.sort (· ≤ ·)

/-- `Flip(0, n)`. -/
def flip (s : Finset Nat) (n : Nat) : Finset Nat := (Finset.range n \ s) ∪ (s \ Finset.range n)

/-- The loops `for _, idx := range index { tags[idx] = v }`. -/
def setTags (v : Nat) (index tags : List Nat) : List Nat :=
  index.foldl (fun tags idx => tags.set idx v) tags

/-- The general branch of `Eval`: the then-branch on the rows of `bools`, the else-branch on the
rows of neither bitmap, and the predicate error on the rows of `errs`, tagged 0, 1 and 2. -/
def taggedBranch (thenExpr elseExpr : List α → List (Elem S)) (this : List α) (predVec : Pred S)
    (bools errs : Finset Nat) : Out S :=
  let thenVec := thenExpr (pick this (toArray bools))
  let elseIndex := toArray (flip (bools ∪ errs) this.length)
  let elseVec := elseExpr (pick this elseIndex)
  let tags := setTags 1 elseIndex (List.replicate this.length 0)
  if errs = ∅ then .dynamic tags [thenVec, elseVec]
  else
    let errsIndex := toArray errs
    .dynamic (setTags 2 errsIndex tags)
      [thenVec, elseVec, predicateError (pick predVec.elems errsIndex)]

/-- `conditional.Eval` on the input `this`, where the predicate evaluated to `predVec`. -/
def eval (thenExpr elseExpr : List α → List (Elem S)) (this : List α) (predVec : Pred S) : Out S :=
  let (bools, errs) := boolMask predVec
  if errs.card = this.length then .flat (predicateError predVec.elems)
  else if bools.card = this.length then .flat (thenExpr this)
  else if bools = ∅ ∧ errs = ∅ then .flat (elseExpr this)
  else taggedBranch thenExpr elseExpr this predVec bools errs

/-- Row `i` of the conditional as the bitmaps assign it: the then-result on a row of `bools`,
the wrapped predicate error on a row of `errs`, the else-result on any other row. -/
def maskedRow (thenF elseF : α → Elem S) (predVec : Pred S) (bools errs : Finset Nat) (i : Nat)
    (x : α) : Elem S :=
  if i ∈ bools then thenF x
  else if i ∈ errs then .wrapped "?-operator: bool predicate required" (predVec.elem i)
  else elseF x

/-- The scalar `?:` on one row: the then-branch on a non-null true, the predicate error on an
error, the else-branch on any other value. -/
def scalarRow (thenF elseF : α → Elem S) (p : Elem S) (x : α) : Elem S :=
  if p.asBool then thenF x
  else if p.isError then .wrapped "?-operator: bool predicate required" p
  else elseF x

section Rows

theorem toArray_eq_filter {s : Finset Nat} {n : Nat} (h : s ⊆ Finset.range n) :
    toArray s = (List.range n).filter (· ∈ s) := by
  refine List.eq_of_perm_of_sorted ?_ (Finset.sort_sorted _ _)
    (((List.pairwise_lt_range n).imp le_of_lt).filter _)
  refine (List.perm_ext_iff_of_nodup (Finset.sort_nodup _ _) ((List.nodup_range n).filter _)).mpr
    fun a => ?_
  simp only [toArray, Finset.mem_sort, List.mem_filter, List.mem_range, decide_eq_true_eq]
  exact ⟨fun ha => ⟨Finset.mem_range.mp (h ha), ha⟩, And.right⟩

theorem getElem?_pick {β : Type} {xs : List β} :
    ∀ {index : List Nat}, (∀ j ∈ index, j < xs.length) →
      ∀ k : Nat, (pick xs index)[k]? = index[k]?.bind fun j : Nat => xs[j]?
  | [], _, k => by simp [pick]
  | j :: index, h, k => by
    have hj := List.getElem?_eq_getElem (h j (List.mem_cons_self j index))
    cases k with
    | zero => simp only [pick, List.filterMap_cons, hj, List.getElem?_cons_zero, Option.some_bind]
    | succ k =>
      simp only [pick, List.filterMap_cons, hj, List.getElem?_cons_succ]
      exact getElem?_pick (fun j' hj' => h j' (List.mem_cons_of_mem j hj')) k

theorem getElem?_setTags (v i : Nat) :
    ∀ (index tags : List Nat),
      (setTags v index tags)[i]? = tags[i]?.map fun t => if i ∈ index then v else t
  | [], tags => by simp [setTags]
  | idx :: index, tags => by
    rw [setTags, List.foldl_cons, ← setTags, getElem?_setTags v i index, List.getElem?_set]
    by_cases h : idx = i
    · subst h
      by_cases hi : idx < tags.length
      · simp [hi]
      · simp [hi, List.getElem?_eq_none (Nat.le_of_not_lt hi)]
    · simp [h, Ne.symm h]

@[simp] theorem mem_toArray {s : Finset Nat} {j : Nat} : j ∈ toArray s ↔ j ∈ s :=
  Finset.mem_sort _

theorem mem_flip {s : Finset Nat} {n j : Nat} (h : s ⊆ Finset.range n) :
    j ∈ flip s n ↔ j < n ∧ j ∉ s := by
  simp only [flip, Finset.mem_union, Finset.mem_sdiff, Finset.mem_range]
  exact ⟨fun | .inl h' => h' | .inr ⟨hs, hn⟩ => absurd (Finset.mem_range.mp (h hs)) hn, .inl⟩

theorem forward_map_range {tagOf : Nat → Nat} {n i : Nat} (hi : i < n) :
    forward ((List.range n).map tagOf) i =
      ((List.range i).filter fun j => tagOf j = tagOf i).length := by
  have hget : ∀ j < n, ((List.range n).map tagOf).getD j 0 = tagOf j := fun j hj => by
    simp [List.getD_eq_getElem?_getD, List.getElem?_range hj]
  rw [forward, hget i hi]
  congr 1
  exact List.filter_congr fun j hj => by rw [hget j (by simp at hj; omega)]

theorem getD_pick_forward {β : Type} {tagOf : Nat → Nat} {xs : List β} {n i t : Nat}
    (hn : xs.length = n) (hi : i < xs.length) (ht : tagOf i = t) (f : β → Elem S) :
    ((pick xs ((List.range n).filter fun j => tagOf j = t)).map f).getD
      (forward ((List.range n).map tagOf) i) .null = f xs[i] := by
  subst ht
  have hpick : ∀ k : Nat, (pick xs ((List.range n).filter fun j => tagOf j = tagOf i))[k]? =
      ((List.range n).filter fun j => tagOf j = tagOf i)[k]?.bind fun j : Nat => xs[j]? :=
    getElem?_pick fun j hj => hn ▸ List.mem_range.mp (List.mem_filter.mp hj).1
  rw [forward_map_range (hn ▸ hi), List.getD_eq_getElem?_getD, List.getElem?_map, hpick,
    getElem?_filter_range.mpr ⟨hn ▸ hi, by simp, rfl⟩]
  simp [List.getElem?_eq_getElem hi]

def rowTag (bools errs : Finset Nat) (j : Nat) : Nat :=
  if j ∈ errs then 2 else if j ∈ bools then 0 else 1

section Tagged

variable {bools errs : Finset Nat} {n : Nat}

theorem toArray_bools (hb : bools ⊆ Finset.range n) (hd : Disjoint bools errs) :
    toArray bools = (List.range n).filter fun j => rowTag bools errs j = 0 := by
  rw [toArray_eq_filter hb]
  refine List.filter_congr fun j _ => ?_
  by_cases hj : j ∈ errs <;> simp [rowTag, hj, Finset.disjoint_right.mp hd]

theorem toArray_flip (hb : bools ⊆ Finset.range n) (he : errs ⊆ Finset.range n) :
    toArray (flip (bools ∪ errs) n) = (List.range n).filter fun j => rowTag bools errs j = 1 := by
  have hu := Finset.union_subset hb he
  rw [toArray_eq_filter fun j hj => Finset.mem_range.mpr ((mem_flip hu).mp hj).1]
  refine List.filter_congr fun j hj => ?_
  by_cases hj1 : j ∈ errs <;> by_cases hj2 : j ∈ bools <;> simp_all [rowTag, mem_flip hu]

theorem toArray_errs (he : errs ⊆ Finset.range n) :
    toArray errs = (List.range n).filter fun j => rowTag bools errs j = 2 := by
  rw [toArray_eq_filter he]
  refine List.filter_congr fun j _ => ?_
  by_cases hj1 : j ∈ errs <;> by_cases hj2 : j ∈ bools <;> simp [rowTag, hj1, hj2]

theorem setTags_branch (hb : bools ⊆ Finset.range n) (he : errs ⊆ Finset.range n) :
    setTags 2 (toArray errs) (setTags 1 (toArray (flip (bools ∪ errs) n)) (List.replicate n 0)) =
      (List.range n).map (rowTag bools errs) := by
  refine List.ext_getElem? fun i => ?_
  rw [getElem?_setTags, getElem?_setTags, List.getElem?_replicate, List.getElem?_map]
  by_cases hi : i < n
  · rw [List.getElem?_range hi]
    by_cases hj1 : i ∈ errs <;> by_cases hj2 : i ∈ bools <;>
      simp [rowTag, hi, hj1, hj2, mem_flip (Finset.union_subset hb he)]
  · have hr : (List.range n)[i]? = none := List.getElem?_eq_none (by simp; omega)
    simp [hi, hr]

end Tagged

/-- The general branch gives every row what the bitmaps assign it, whenever they hold rows of the
input only and share none. -/
theorem taggedBranch_elems (thenF elseF : α → Elem S) (this : List α) (predVec : Pred S)
    {bools errs : Finset Nat} (hlen : predVec.len = this.length)
    (hb : bools ⊆ Finset.range this.length) (he : errs ⊆ Finset.range this.length)
    (hd : Disjoint bools errs) :
    (taggedBranch (List.map thenF) (List.map elseF) this predVec bools errs).elems =
      this.mapIdx (maskedRow thenF elseF predVec bools errs) := by
  have hrow : ∀ vecs : List (List (Elem S)),
      vecs.getD 0 [] = (pick this (toArray bools)).map thenF →
      vecs.getD 1 [] = (pick this (toArray (flip (bools ∪ errs) this.length))).map elseF →
      (errs ≠ ∅ → vecs.getD 2 [] = predicateError (pick predVec.elems (toArray errs))) →
      (Out.dynamic ((List.range this.length).map (rowTag bools errs)) vecs).elems =
        this.mapIdx (maskedRow thenF elseF predVec bools errs) := by
    intro vecs h0 h1 h2
    refine List.ext_getElem (by simp [Out.elems]) fun i hi _ => ?_
    have hi' : i < this.length := by simpa [Out.elems] using hi
    have hn : predVec.elems.length = this.length := by simp [Pred.elems, hlen]
    simp only [Out.elems, List.getElem_map, List.getElem_range, List.getElem_mapIdx]
    rw [show ((List.range this.length).map (rowTag bools errs)).getD i 0 = rowTag bools errs i by
      simp [List.getD_eq_getElem?_getD, List.getElem?_range hi']]
    by_cases hiE : i ∈ errs
    · have ht : rowTag bools errs i = 2 := by simp [rowTag, hiE]
      rw [ht, h2 (Finset.ne_empty_of_mem hiE), predicateError, toArray_errs he,
        getD_pick_forward hn (hn ▸ hi') ht]
      simp [maskedRow, hiE, Finset.disjoint_right.mp hd hiE, Pred.elems]
    by_cases hiB : i ∈ bools
    · have ht : rowTag bools errs i = 0 := by simp [rowTag, hiE, hiB]
      rw [ht, h0, toArray_bools hb hd, getD_pick_forward rfl hi' ht]
      simp [maskedRow, hiB]
    · have ht : rowTag bools errs i = 1 := by simp [rowTag, hiE, hiB]
      rw [ht, h1, toArray_flip hb he, getD_pick_forward rfl hi' ht]
      simp [maskedRow, hiB, hiE]
  have htags := setTags_branch hb he
  simp only [taggedBranch]
  split
  · rename_i h0
    subst h0
    rw [show setTags 2 (toArray ∅) = id by simp [toArray, setTags]; rfl, id] at htags
    rw [htags]
    exact hrow _ rfl rfl fun h => absurd rfl h
  · rw [htags]
    exact hrow _ rfl rfl fun _ => rfl

end Rows

section Eval

variable (thenF elseF : α → Elem S)

/-- With branches that act row by row, `conditional.Eval` gives every row what `BoolMask` assigns
it, whichever of its four branches it takes. -/
theorem eval_elems (this : List α) (predVec : Pred S) (hlen : predVec.len = this.length) :
    (eval (List.map thenF) (List.map elseF) this predVec).elems =
      this.mapIdx (maskedRow thenF elseF predVec (boolMask predVec).1 (boolMask predVec).2) := by
  obtain ⟨hb, he, hd⟩ := boolMask_subset_disjoint predVec
  rw [hlen] at hb he
  unfold eval
  generalize boolMask predVec = masks at hb he hd ⊢
  obtain ⟨bools, errs⟩ := masks
  dsimp only at hb he hd ⊢
  split_ifs with h1 h2 h3
  · have hE : errs = Finset.range this.length :=
      Finset.eq_of_subset_of_card_le he (by simp [h1])
    refine List.ext_getElem (by simp [Out.elems, predicateError, Pred.elems, hlen])
      fun i hi _ => ?_
    have hiE : i ∈ errs := hE ▸ Finset.mem_range.mpr (by simpa [Out.elems, predicateError,
      Pred.elems, hlen] using hi)
    simp [Out.elems, predicateError, Pred.elems, maskedRow, hiE, Finset.disjoint_right.mp hd hiE]
  · have hB : bools = Finset.range this.length :=
      Finset.eq_of_subset_of_card_le hb (by simp [h2])
    refine List.ext_getElem (by simp [Out.elems]) fun i hi _ => ?_
    simp [Out.elems, maskedRow, hB, (by simpa [Out.elems] using hi : i < this.length)]
  · obtain ⟨rfl, rfl⟩ := h3
    refine List.ext_getElem (by simp [Out.elems]) fun i hi _ => ?_
    simp [Out.elems, maskedRow]
  · exact taggedBranch_elems thenF elseF this predVec hlen hb he hd

/-- The three shortcuts of `conditional.Eval` return the rows its general branch would. -/
theorem eval_elems_eq_taggedBranch (this : List α) (predVec : Pred S)
    (hlen : predVec.len = this.length) :
    (eval (List.map thenF) (List.map elseF) this predVec).elems =
      (taggedBranch (List.map thenF) (List.map elseF) this predVec (boolMask predVec).1
        (boolMask predVec).2).elems := by
  obtain ⟨hb, he, hd⟩ := boolMask_subset_disjoint predVec
  rw [eval_elems thenF elseF this predVec hlen,
    taggedBranch_elems thenF elseF this predVec hlen (hlen ▸ hb) (hlen ▸ he) hd]

def trueConst : Pred String := .leaf (.const (.bool true) 2 none)

theorem eval_elems_eq_taggedBranch_trueConst :
    trueConst.len = [(), ()].length ∧
      (eval (List.map fun _ : Unit => Elem.other "then") (List.map fun _ => .other "else") [(), ()]
          trueConst).elems =
        (taggedBranch (List.map fun _ : Unit => Elem.other "then") (List.map fun _ => .other "else")
          [(), ()] trueConst (boolMask trueConst).1 (boolMask trueConst).2).elems :=
  ⟨rfl, eval_elems_eq_taggedBranch _ _ _ _ rfl⟩

theorem Leaf.isError_elem {l : Leaf S} (hl : l.noErrorConst = true) (ho : l.plainOther = true)
    (j : Nat) :
    (l.elem j).isError = l.isErrorVec := by
  cases l with
  | bool bits nulls => simp only [Leaf.elem]; split <;> rfl
  | const val len nulls =>
    simp only [Leaf.elem]
    split
    · rfl
    · simpa [Leaf.noErrorConst] using hl
  | error vals => rfl
  | other vals => exact (Leaf.elem_other ho j).2

/-- Where every true and error row of the predicate comes from a Bool, Const or Error vector,
`BoolMask` reads each row for what it holds. -/
theorem Pred.maskTrue_errorRow_eq {p : Pred S} (hconst : p.allLeaves Leaf.noErrorConst = true)
    (hother : p.allLeaves Leaf.plainOther = true) (x : Nat) :
    p.maskTrue x = (p.elem x).asBool ∧ p.errorRow x = (p.elem x).isError := by
  rcases h : p.leafAt x with _ | ⟨l, j⟩ <;> simp only [Pred.maskTrue, Pred.errorRow, Pred.elem, h]
  · exact ⟨rfl, rfl⟩
  · exact ⟨Leaf.maskTrue_eq_asBool (Pred.allLeaves_leafAt hother h) j,
      (Leaf.isError_elem (Pred.allLeaves_leafAt hconst h) (Pred.allLeaves_leafAt hother h) j).symm⟩

/-- Where every true and error row of the predicate comes from a Bool, Const or Error vector
and no Const holds an error value, `conditional.Eval` with branches that act row by row is the
scalar `?:` on every row. -/
theorem eval_refines_scalar (this : List α) (predVec : Pred S) (hlen : predVec.len = this.length)
    (hconst : predVec.allLeaves Leaf.noErrorConst = true)
    (hother : predVec.allLeaves Leaf.plainOther = true) :
    (eval (List.map thenF) (List.map elseF) this predVec).elems =
      List.zipWith (scalarRow thenF elseF) predVec.elems this := by
  rw [eval_elems thenF elseF this predVec hlen]
  refine List.ext_getElem (by simp [Pred.elems, hlen]) fun i hi _ => ?_
  have hi' : i < predVec.len := by simpa [hlen] using hi
  obtain ⟨htrue, herr⟩ := Pred.maskTrue_errorRow_eq hconst hother i
  simp [maskedRow, scalarRow, Pred.elems, (mem_boolMask predVec i).1, (mem_boolMask predVec i).2,
    hi', htrue, herr]

end Eval

def mixedPred : Pred String :=
  .dynamic [1, 0, 1, 2] [.error [.null], .const (.bool true) 2 (some [false, true]), .other [.other "s"]]

theorem eval_refines_scalar_mixedPred :
    mixedPred.len = [(), (), (), ()].length ∧ mixedPred.allLeaves Leaf.noErrorConst = true ∧
      mixedPred.allLeaves Leaf.plainOther = true ∧
      (eval (List.map fun _ : Unit => Elem.other "then") (List.map fun _ => .other "else")
          [(), (), (), ()] mixedPred).elems =
        List.zipWith (scalarRow (fun _ : Unit => .other "then") fun _ => .other "else") mixedPred.elems
          [(), (), (), ()] :=
  ⟨by decide, by decide, by decide, eval_refines_scalar _ _ _ _ (by decide) (by decide) (by decide)⟩

def errorConst : Pred String := .leaf (.const (.error (.other "boom")) 1 none)

/-- `conditional.Eval` on one row under the predicate `errorConst`: its row is an error value, on
which the scalar `?:` gives the wrapped predicate error, but `BoolMask` adds the row to neither
bitmap and `Eval` returns the else-result. -/
theorem eval_error_const_takes_else :
    errorConst.elems = [.error (.other "boom")] ∧
    List.zipWith (scalarRow (fun _ : Unit => .other "then") fun _ => .other "else")
        errorConst.elems [()] =
      [.wrapped "?-operator: bool predicate required" (.error (.other "boom"))] ∧
    (eval (List.map fun _ : Unit => .other "then") (List.map fun _ => .other "else") [()]
        errorConst).elems = [.other "else"] := by
  decide

end SuperRuntime.Conditional
