import SuperRuntime.Over
import SuperRuntime.Value

/-!
`Over.flatten` and the rows `Over.Pull(false)` returns, on the vector kinds `flatten` tells
apart. An array or set row gives a view of its elements, a record row one key/value record per
field, any other row a view of itself; an empty container and a null or empty record give nil.
With one expression `Pull` returns the non-nil rows, and wherever no row panics it is the scope
model's `overPull` over these rows. With two or more expressions it asks every expression's
flattening for its length, and a nil flattening, an expression that contributes nothing at the
row, is a nil dereference.
-/

namespace SuperRuntime.Over

/-- The vector kinds `flatten` tells apart, with what it reads of each; `E` is the values of
scalar rows. -/
inductive Vec (E : Type)
  /-- `vector.Dynamic`: a tag per row naming the vector that holds it -/
  | dynamic (tags : List Nat) (values : List (Vec E))
  /-- `vector.View`: the rows `index` of an inner vector -/
  | view (inner : Vec E) (index : List Nat)
  /-- `vector.Array`: row `i` is the values from `offsets[i]` up to `offsets[i+1]` -/
  | array (values : Vec E) (offsets : List Nat)
  /-- `vector.Set`, laid out as an array -/
  | set (values : Vec E) (offsets : List Nat)
  /-- `vector.Map` of `len` rows -/
  | map (len : Nat)
  /-- `vector.Record`: the names and vectors of its fields, its length and its nulls -/
  | record (fields : List (String × Vec E)) (len : Nat) (nulls : List Bool)
  /-- `vector.Named`, which `vector.Under` unwraps -/
  | named (inner : Vec E)
  /-- `vector.Const`: one value on `len` rows -/
  | const (value : E) (len : Nat)
  /-- any other kind, by its rows' values -/
  | other (values : List E)

/-- `Len()`. -/
def Vec.len {E : Type} : Vec E → Nat
  | dynamic tags _ => tags.length
  | view _ index => index.length
  | array _ offsets => offsets.length - 1
  | set _ offsets => offsets.length - 1
  | map len => len
  | record _ len _ => len
  | named inner => inner.len
  | const _ len => len
  | other values => values.length

/-- How `Over` panics: a runtime fault, or `panic("unimplemented")` on a map. -/
inductive Panic
  | fault (f : Fault)
  | unimplemented
deriving DecidableEq, Repr

variable {E : Type} (newString : String → E)

/-- `flattenArrayOrSet`: a view of the values of row `slot`, nil when there are none. Unions are
not among the modelled kinds, so `vector.Deunion` leaves the values as they are. -/
def flattenArrayOrSet (values : Vec E) (offsets : List Nat) (slot : Nat) :
    Except Panic (Option (Vec E)) :=
  match offsets[slot]?, offsets[slot + 1]? with
  | some lo, some hi => .ok (if lo < hi then some (.view values (List.range' lo (hi - lo))) else none)
  | _, _ => .error (.fault .indexRange)

/-- `Over.flatten`: what row `slot` of a vector contributes, nil for nothing. A Dynamic row is
row `ForwardTagMap()[slot]`, the count of earlier rows of its tag, of the vector its tag names.
`newString` is `super.NewString`. -/
def flatten : Vec E → Nat → Except Panic (Option (Vec E))
  | .dynamic tags values, slot =>
    match tags[slot]? with
    | none => .error (.fault .indexRange)
    | some t =>
      if h : t < values.length then flatten values[t] ((tags.take slot).count t)
      else .error (.fault .indexRange)
  | .view inner index, slot =>
    match index[slot]? with
    | none => .error (.fault .indexRange)
    | some i => flatten inner i
  | .array values offsets, slot => flattenArrayOrSet values offsets slot
  | .set values offsets, slot => flattenArrayOrSet values offsets slot
  | .map _, _ => .error .unimplemented
  | .record fields len nulls, slot =>
    if fields.isEmpty || nulls.getD slot false then .ok none
    else .ok (some (.dynamic (List.range fields.length) (fields.map fun f =>
      .record [("key", .array (.const (newString f.1) 1) [0, 1]), ("value", .view f.2 [slot])] 1 [])))
  | .named inner, slot => flatten inner slot
  | v, slot => .ok (some (.view v [slot]))
termination_by v => sizeOf v
decreasing_by
  all_goals simp_wf
  · have := List.sizeOf_lt_of_mem (List.getElem_mem h)
    omega
  all_goals omega

/-- A flattening `vec.Len()` is called on: a nil one is dereferenced. -/
def present : Option (Vec E) → Except Panic (Vec E)
  | none => .error (.fault .nilDeref)
  | some v => .ok v

/-- The multi-expression branch of `Over.Pull`: each vector's flattening in turn, its length
taken by `vec.Len()`, and a Dynamic tagging each flattening's rows with its position. -/
def dynamicRow (idx : Nat) (vecs : List (Vec E)) : Except Panic (Vec E) := do
  let parts ← vecs.mapM fun v => flatten newString v idx >>= present
  pure (.dynamic (parts.enum.flatMap fun p => List.replicate p.2.len p.1) parts)

/-- What `Over.Pull` makes of row `idx` of the evaluated vectors: with one expression its
flattening, with several the Dynamic of theirs. -/
def rowOut (vecs : List (Vec E)) (idx : Nat) : Except Panic (Option (Vec E)) :=
  match vecs with
  | [v] => flatten newString v idx
  | _ => some <$> dynamicRow newString idx vecs

/-- The rows of the evaluated vectors: `o.vecs[0].Len()`, none before the first parent vector. -/
def rows : List (Vec E) → Nat
  | [] => 0
  | v :: _ => v.len

/-- The inner loop of `Over.Pull`: from row `idx`, `n` rows left, the first non-nil output and
the row after it. -/
def nextOut (vecs : List (Vec E)) : Nat → Nat → Except Panic (Option (Vec E × Nat))
  | 0, _ => .ok none
  | n + 1, idx => do
    match ← rowOut newString vecs idx with
    | some out => pure (some (out, idx + 1))
    | none => nextOut vecs n (idx + 1)

variable {P : Type} (exprs : List (P → Vec E))

/-- `Over.Pull(false)` from the evaluated vectors, the row `idx` and the parent vectors not yet
pulled; an expression applied to a parent vector is `e.Eval(vec)` followed by the identity
`vector.Apply` over ripped unions, which leaves the modelled kinds as they are. -/
def pull : List (Vec E) → Nat → List P →
    Except Panic (Option (Vec E) × List (Vec E) × Nat × List P)
  | vecs, idx, [] => do
    match ← nextOut newString vecs (rows vecs - idx) idx with
    | some (out, idx') => pure (some out, vecs, idx', [])
    | none => pure (none, vecs, idx + (rows vecs - idx), [])
  | vecs, idx, p :: ps => do
    match ← nextOut newString vecs (rows vecs - idx) idx with
    | some (out, idx') => pure (some out, vecs, idx', p :: ps)
    | none => pull (exprs.map (· p)) 0 ps

section Panics

variable {newString}

private theorem mapM_present_eq_nilDeref {idx : Nat} :
    ∀ {vecs : List (Vec E)}, (∀ v ∈ vecs, ∃ o, flatten newString v idx = .ok o) →
      (∃ v ∈ vecs, flatten newString v idx = .ok none) →
      vecs.mapM (fun v => flatten newString v idx >>= present) = .error (.fault .nilDeref)
  | [], _, ⟨_, hv, _⟩ => absurd hv (List.not_mem_nil _)
  | v :: vs, hok, ⟨w, hw, hnil⟩ => by
    obtain ⟨o, ho⟩ := hok v (List.mem_cons_self v vs)
    cases o with
    | none => rw [List.mapM_cons]; simp [ho, present]
    | some x =>
      have hw' : w ∈ vs := by
        rcases List.mem_cons.mp hw with rfl | hw
        · simp [ho] at hnil
        · exact hw
      rw [List.mapM_cons,
        mapM_present_eq_nilDeref (fun u hu => hok u (List.mem_cons_of_mem v hu)) ⟨w, hw', hnil⟩]
      simp [ho, present]

/-- With two or more expressions, a row where one expression's value flattens to nothing and no
flattening panics makes the row's output a nil dereference. -/
theorem rowOut_eq_nilDeref {vecs : List (Vec E)} {idx : Nat} (hk : 2 ≤ vecs.length)
    (hok : ∀ v ∈ vecs, ∃ o, flatten newString v idx = .ok o)
    (hnil : ∃ v ∈ vecs, flatten newString v idx = .ok none) :
    rowOut newString vecs idx = .error (.fault .nilDeref) := by
  match vecs, hk with
  | _ :: _ :: _, _ =>
    simp only [rowOut, dynamicRow]
    rw [mapM_present_eq_nilDeref hok hnil]
    rfl

/-- A row whose output panics makes the `Pull` that reaches it panic. -/
theorem pull_eq_error_of_rowOut {vecs : List (Vec E)} {idx : Nat} {e : Panic} (hidx : idx < rows vecs)
    (h : rowOut newString vecs idx = .error e) (parent : List P) :
    pull newString exprs vecs idx parent = .error e := by
  obtain ⟨n, hn⟩ : ∃ n, rows vecs - idx = n + 1 := ⟨rows vecs - idx - 1, by omega⟩
  cases parent <;> simp [pull, hn, nextOut, h]

end Panics

def outs (vecs : List (Vec E)) (idx n : Nat) : List (Option (Vec E)) :=
  (List.range' idx n).map fun i => (rowOut newString vecs i).toOption.join

def NoPanic (vecs : List (Vec E)) (idx : Nat) : Prop :=
  ∀ i, idx ≤ i → i < rows vecs → ∃ o, rowOut newString vecs i = .ok o

section Refinement

variable {newString}

/-- The inner loop of `Pull` finds the first non-nil output of the rows left, and leaves the rows
after it; with none, it reports none. -/
theorem nextOut_spec (vecs : List (Vec E)) :
    ∀ (n idx : Nat), (∀ i, idx ≤ i → i < idx + n → ∃ o, rowOut newString vecs i = .ok o) →
      match nextRow (outs newString vecs idx n) with
      | none => nextOut newString vecs n idx = .ok none
      | some (out, rest) => ∃ idx', nextOut newString vecs n idx = .ok (some (out, idx')) ∧
          idx < idx' ∧ idx' ≤ idx + n ∧ rest = outs newString vecs idx' (idx + n - idx')
  | 0, idx, _ => by simp [outs, nextRow, nextOut]
  | n + 1, idx, hok => by
    obtain ⟨o, ho⟩ := hok idx le_rfl (by omega)
    have hrest : outs newString vecs idx (n + 1) =
        o :: outs newString vecs (idx + 1) n := by
      simp [outs, List.range'_succ, ho, Except.toOption]
    rw [hrest]
    cases o with
    | some out =>
      exact ⟨idx + 1, by simp [nextOut, ho], by omega, by omega, by congr 1; omega⟩
    | none =>
      have ih := nextOut_spec vecs n (idx + 1) fun i h1 h2 => hok i (by omega) (by omega)
      simp only [nextRow]
      split at ih
      · simpa [nextOut, ho] using ih
      · obtain ⟨idx', h1, h2, h3, h4⟩ := ih
        exact ⟨idx', by simpa [nextOut, ho] using h1, by omega, by omega, by rw [h4]; congr 1; omega⟩

/-- Wherever no row panics, `Over.Pull(false)` is the scope model's `overPull` over the rows
`flatten` gives, the current vectors read from row `idx` on. -/
theorem pull_eq_overPull {W : Type} (cfg : Config P (Vec E) W)
    (hrows : ∀ p, cfg.rows p = outs newString (exprs.map (· p)) 0 (rows (exprs.map (· p))))
    (hparent : ∀ p, NoPanic newString (exprs.map (· p)) 0) :
    ∀ (parent : List P) (vecs : List (Vec E)) (idx : Nat), NoPanic newString vecs idx →
      ∃ vecs' idx', pull newString exprs vecs idx parent =
          .ok ((overPull cfg (outs newString vecs idx (rows vecs - idx)) parent).1, vecs', idx',
            (overPull cfg (outs newString vecs idx (rows vecs - idx)) parent).2.2) ∧
        (overPull cfg (outs newString vecs idx (rows vecs - idx)) parent).2.1 =
          outs newString vecs' idx' (rows vecs' - idx')
  | parent, vecs, idx, hok => by
    have hspec := nextOut_spec vecs (rows vecs - idx) idx fun i h1 h2 => hok i h1 (by omega)
    split at hspec <;> rename_i heq
    · cases parent with
      | nil =>
        refine ⟨vecs, idx + (rows vecs - idx), by simp [overPull, heq, pull, hspec], ?_⟩
        rw [overPull, heq, show rows vecs - (idx + (rows vecs - idx)) = 0 by omega]
        rfl
      | cons p ps =>
        obtain ⟨vecs', idx', h1, h2⟩ :=
          pull_eq_overPull cfg hrows hparent ps (exprs.map (· p)) 0 (hparent p)
        simp only [overPull, heq]
        refine ⟨vecs', idx', ?_, by rw [hrows]; exact h2⟩
        rw [pull, hspec]
        simpa [hrows] using h1
    · obtain ⟨idx', h1, h2, h3, h4⟩ := hspec
      have hrest : outs newString vecs idx' (idx + (rows vecs - idx) - idx') =
          outs newString vecs idx' (rows vecs - idx') := by
        congr 1
        omega
      refine ⟨vecs, idx', ?_, ?_⟩ <;> cases parent <;> simp [overPull, heq, pull, h1, h4, hrest]

end Refinement

def oneScalar : List (Unit → Vec String) := [fun _ => .other ["x"]]

/-- The scope model over the rows `oneScalar` flattens to. -/
def oneScalarConfig : Config Unit (Vec String) Unit where
  rows p := outs id (oneScalar.map (· p)) 0 (rows (oneScalar.map (· p)))
  inner _ := []
  innerEmpty := []

theorem pull_eq_overPull_oneScalar :
    (∀ p, oneScalarConfig.rows p = outs id (oneScalar.map (· p)) 0 (rows (oneScalar.map (· p)))) ∧
      (∀ p, NoPanic id (oneScalar.map (· p)) 0) ∧ NoPanic id ([] : List (Vec String)) 0 ∧
      ∃ vecs' idx', pull id oneScalar [] 0 [()] =
          .ok ((overPull oneScalarConfig (outs id [] 0 (rows ([] : List (Vec String)) - 0)) [()]).1, vecs', idx',
            (overPull oneScalarConfig (outs id [] 0 (rows ([] : List (Vec String)) - 0)) [()]).2.2) ∧
        (overPull oneScalarConfig (outs id [] 0 (rows ([] : List (Vec String)) - 0)) [()]).2.1 =
          outs id vecs' idx' (rows vecs' - idx') :=
  have hparent : ∀ p, NoPanic id (oneScalar.map (· p)) 0 := fun _ i _ hi => by
    obtain rfl : i = 0 := by simpa [rows, Vec.len, oneScalar] using hi
    exact ⟨some (.view (.other ["x"]) [0]), by simp [rowOut, oneScalar, flatten]⟩
  have hnil : NoPanic id ([] : List (Vec String)) 0 := fun _ _ hi => absurd hi (by simp [rows])
  ⟨fun _ => rfl, hparent, hnil, pull_eq_overPull oneScalar oneScalarConfig (fun _ => rfl) hparent [()] [] 0 hnil⟩

def emptyArrayAndScalar : List (Unit → Vec String) :=
  [fun _ => .array (.other []) [0, 0], fun _ => .other ["x"]]

/-- `Over.Pull(false)` over one parent vector of one row and the two expressions of
`emptyArrayAndScalar`: the empty array flattens to nil, and `vec.Len()` on it panics, where the
row should give the scalar alone. -/
theorem pull_empty_array_beside_scalar :
    pull id emptyArrayAndScalar [] 0 [()] = .error (.fault .nilDeref) :=
  pull_eq_error_of_rowOut emptyArrayAndScalar (by decide)
    (rowOut_eq_nilDeref (by decide) (by simp [emptyArrayAndScalar, flatten, flattenArrayOrSet])
      ⟨_, List.mem_cons_self _ _, by simp [flatten, flattenArrayOrSet]⟩) []

end SuperRuntime.Over
