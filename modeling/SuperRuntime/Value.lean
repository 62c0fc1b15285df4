import SuperRuntime.Zcode

/-!
Values, the type-vector intern table and the panics of the Go runtime, shared by the
operators. A value is a type and a flat payload. The intern table is the slice of
`super.TypeVectorTable`: a vector's id is its position, so ids are stable and every id
names one vector, and the table only ever grows at its end.
-/

namespace SuperRuntime

open Zcode

/-- `super.Value`: a type and its flat payload, `none` for null. -/
structure Value (T : Type) where
  typ : T
  bytes : Option Bytes
deriving DecidableEq, Repr

/-- The ways the modelled Go code panics. -/
inductive Fault
  /-- dereferencing a nil pointer -/
  | nilDeref
  /-- calling a nil function value -/
  | nilFunc
  /-- an index past the end of a slice -/
  | indexRange
  /-- `zcode.Iter.Next` on a malformed buffer -/
  | badUvarint
  /-- the "internal bug" panic of `readTable` -/
  | internalBug
deriving DecidableEq, Repr

@[simp] theorem ok_bind {ε α β : Type} (a : α) (f : α → Except ε β) :
    (Except.ok a >>= f) = f a := rfl

@[simp] theorem error_bind {ε α β : Type} (e : ε) (f : α → Except ε β) :
    (Except.error e >>= f : Except ε β) = .error e := rfl

@[simp] theorem map_ok {ε α β : Type} (f : α → β) (a : α) :
    (f <$> Except.ok a : Except ε β) = .ok (f a) := rfl

@[simp] theorem map_error {ε α β : Type} (f : α → β) (e : ε) :
    (f <$> Except.error e : Except ε β) = .error e := rfl

@[simp] theorem pure_except {ε α : Type} (a : α) : (pure a : Except ε α) = .ok a := rfl

theorem bind_eq_ok {ε α β : Type} {x : Except ε α} {f : α → Except ε β} {b : β} :
    (x >>= f) = .ok b ↔ ∃ a, x = .ok a ∧ f a = .ok b := by
  cases x <;> simp

theorem map_eq_ok {ε α β : Type} {x : Except ε α} {f : α → β} {b : β} :
    (f <$> x) = .ok b ↔ ∃ a, x = .ok a ∧ f a = b := by
  cases x <;> simp [Except.ok.injEq]

/-- A value Go reads where the model has an option, with the panic of the missing case. -/
def need {α : Type} (f : Fault) : Option α → Except Fault α
  | none => .error f
  | some v => .ok v

@[simp] theorem need_some {α : Type} (f : Fault) (v : α) : need f (some v) = .ok v := rfl

@[simp] theorem need_none {α : Type} (f : Fault) : need f (none : Option α) = .error f := rfl

/-- `*p` for a Go pointer that may be nil. -/
abbrev deref {α : Type} : Option α → Except Fault α := need .nilDeref

/-- An `expr.Evaluator` applied to a value. -/
abbrev Evaluator (T : Type) := Value T → Value T

/-- An `expr.CompareFn`; the Go result's sign is the `Ordering`. -/
abbrev CompareFn (T : Type) := Value T → Value T → Ordering

/-- Calling a comparator field that Go leaves nil outside sorted mode. -/
def callCompare {T : Type} : Option (CompareFn T) → Value T → Value T → Except Fault Ordering
  | none, _, _ => .error .nilFunc
  | some f, x, y => .ok (f x y)

@[simp] theorem callCompare_some {T : Type} (f : CompareFn T) (x y : Value T) :
    callCompare (some f) x y = .ok (f x y) := rfl

/-- `super.TypeVectorTable`, modelled from the spec: a bijection between type vectors and
small ints, kept as the slice of vectors, whose positions are the ids. -/
structure TypeVectorTable (T : Type) where
  types : List (List T)
deriving DecidableEq, Repr

namespace TypeVectorTable

variable {T : Type}

/-- `Types`: the vector of an id; `none` where Go indexes past the end. -/
def typesOf (t : TypeVectorTable T) (id : Nat) : Option (List T) := t.types[id]?

def Extends (t t' : TypeVectorTable T) : Prop := t.types <+: t'.types

theorem Extends.refl (t : TypeVectorTable T) : Extends t t := List.prefix_refl _

theorem Extends.trans {t t' t'' : TypeVectorTable T} (h : Extends t t') (h' : Extends t' t'') :
    Extends t t'' := List.IsPrefix.trans h h'

theorem Extends.typesOf {t t' : TypeVectorTable T} (h : Extends t t') {id : Nat} {ts : List T}
    (hid : t.typesOf id = some ts) : t'.typesOf id = some ts := by
  unfold TypeVectorTable.typesOf at *
  obtain ⟨rest, hrest⟩ := h
  rw [← hrest, List.getElem?_append_left (List.getElem?_eq_some_iff.mp hid).1, hid]

variable [DecidableEq T]

def position (ts : List T) : List (List T) → Nat
  | [] => 0
  | u :: us => if u = ts then 0 else position ts us + 1

/-- `Lookup`: the id of a known vector, or a new id at the end. -/
def lookup (t : TypeVectorTable T) (ts : List T) : Nat × TypeVectorTable T :=
  (position ts t.types, if ts ∈ t.types then t else ⟨t.types ++ [ts]⟩)

theorem getElem?_position {ts : List T} {us : List (List T)} (h : ts ∈ us) :
    us[position ts us]? = some ts := by
  induction us with
  | nil => simp at h
  | cons u us ih =>
    by_cases hu : u = ts
    · simp [position, hu]
    · simp only [position, hu, if_false, List.getElem?_cons_succ]
      exact ih (by simpa [Ne.symm hu] using h)

theorem position_of_not_mem {ts : List T} {us : List (List T)} (h : ts ∉ us) :
    position ts us = us.length := by
  induction us with
  | nil => rfl
  | cons u us ih =>
    have hu : u ≠ ts := fun e => h (e ▸ List.mem_cons_self u us)
    simp [position, hu, ih (fun m => h (List.mem_cons_of_mem u m))]

theorem position_append {ts : List T} {us : List (List T)} (h : ts ∈ us) (rest : List (List T)) :
    position ts (us ++ rest) = position ts us := by
  induction us with
  | nil => simp at h
  | cons u us ih =>
    by_cases hu : u = ts
    · simp [position, hu]
    · rw [List.cons_append]
      simp only [position, hu, if_false]
      rw [ih (by simpa [Ne.symm hu] using h)]

theorem extends_lookup (t : TypeVectorTable T) (ts : List T) : Extends t (t.lookup ts).2 := by
  unfold Extends lookup
  split
  · exact List.prefix_refl _
  · exact List.prefix_append _ _

theorem mem_lookup (t : TypeVectorTable T) (ts : List T) : ts ∈ (t.lookup ts).2.types := by
  unfold lookup
  split <;> simp_all

theorem typesOf_lookup (t : TypeVectorTable T) (ts : List T) :
    (t.lookup ts).2.typesOf (t.lookup ts).1 = some ts := by
  unfold lookup typesOf
  by_cases h : ts ∈ t.types
  · simpa [h] using getElem?_position h
  · simp [h, position_of_not_mem h]

theorem position_append_self {ts : List T} {us : List (List T)} (h : ts ∉ us) :
    position ts (us ++ [ts]) = us.length := by
  induction us with
  | nil => simp [position]
  | cons u us ih =>
    have hu : u ≠ ts := fun e => h (e ▸ List.mem_cons_self u us)
    simp [position, hu, ih (fun m => h (List.mem_cons_of_mem u m))]

theorem lookup_snd_of_mem {t : TypeVectorTable T} {ts : List T} (h : ts ∈ t.types) :
    (t.lookup ts).2 = t := by
  simp [lookup, h]

theorem lookup_lookup (t : TypeVectorTable T) (ts : List T) :
    ((t.lookup ts).2.lookup ts).1 = (t.lookup ts).1 := by
  by_cases h : ts ∈ t.types
  · rw [lookup_snd_of_mem h]
  · simp [lookup, h, position_of_not_mem h, position_append_self h]

theorem typesOf_lookup_of_mem {t : TypeVectorTable T} {ts : List T} (h : ts ∈ t.types) :
    t.typesOf (t.lookup ts).1 = some ts := by
  simpa [lookup_snd_of_mem h] using t.typesOf_lookup ts

theorem Extends.lookup {t t' : TypeVectorTable T} (h : Extends t t') {ts : List T}
    (hts : ts ∈ t.types) : t'.lookup ts = ((t.lookup ts).1, t') := by
  obtain ⟨rest, hrest⟩ := h
  have hts' : ts ∈ t'.types := hrest ▸ List.mem_append_left rest hts
  simp [TypeVectorTable.lookup, hts, hts', ← hrest, position_append hts]

end TypeVectorTable

end SuperRuntime
