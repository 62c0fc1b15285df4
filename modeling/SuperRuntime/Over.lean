import Mathlib.Data.List.Basic

/-!
The scope operators of the vectorized `over` (runtime/vam/op). `Over` pulls parent vectors
and returns the flattened row of each slot, skipping slots that flatten to nothing. `Scope`
feeds the inner pipeline one row at a time, each followed by an end of stream, and
`ScopeExit` reads the inner pipeline's output, taking two ends of stream in a row for the end
of `Over`'s input. An inner pipeline closes its output for each row with one end of stream,
so a row with no output after another row makes two in a row: `ScopeExit` returns the first
row's output and the outputs of the following rows up to the first empty one, and stops
there while `Over` still has input.
-/

namespace SuperRuntime.Over

/-- What the scope protocol reads of `Over` and of the inner pipeline: the flattened row at
each slot of a parent vector (`flatten` after the evaluators, nil where it returns nil), the
inner pipeline's output for a sub-stream of one row, and its output for an empty one. -/
structure Config (V R W : Type) where
  rows : V → List (Option R)
  inner : R → List W
  innerEmpty : List W

/-- The pipeline below `ScopeExit`: the parent vectors `Over` has not pulled, the rows of its
current vector from `idx` on, `Scope.sendEOS`, and the inner pipeline's results for its
current sub-stream not yet pulled. -/
structure State (V R W : Type) where
  parent : List V
  vecs : List (Option R)
  sendEOS : Bool
  pending : List (Option W)

def State.init {V R W : Type} (parent : List V) : State V R W := ⟨parent, [], false, []⟩

variable {V R W : Type} (cfg : Config V R W)

def nextRow : List (Option R) → Option (R × List (Option R))
  | [] => none
  | none :: rest => nextRow rest
  | some r :: rest => some (r, rest)

/-- `Over.Pull(false)`: the next non-nil flattened row, pulling a parent vector whenever the
current one runs out; nil at the parent's end of stream. -/
def overPull (vecs : List (Option R)) : List V → Option R × List (Option R) × List V
  | [] =>
    match nextRow vecs with
    | some (r, rest) => (some r, rest, [])
    | none => (none, [], [])
  | v :: vs =>
    match nextRow vecs with
    | some (r, rest) => (some r, rest, v :: vs)
    | none => overPull (cfg.rows v) vs

/-- `Scope.Pull(false)`. -/
def scopePull (s : State V R W) : Option R × State V R W :=
  if s.sendEOS then (none, { s with sendEOS := false })
  else
    let r := overPull cfg s.vecs s.parent
    (r.1, { s with vecs := r.2.1, parent := r.2.2, sendEOS := r.1.isSome })

/-- An inner pipeline under `Scope`: it reads a whole sub-stream (a row and its end of
stream, or an end of stream alone once `Over` is done), then returns its output for it and
one nil. -/
def innerPull (s : State V R W) : Option W × State V R W :=
  match s.pending with
  | w :: ws => (w, { s with pending := ws })
  | [] =>
    let r := scopePull cfg s
    let out := match r.1 with
      | some row => (cfg.inner row, (scopePull cfg r.2).2)
      | none => (cfg.innerEmpty, r.2)
    match out.1 with
    | [] => (none, out.2)
    | w :: ws => (some w, { out.2 with pending := ws.map some ++ [none] })

/-- The loop of `ScopeExit.Pull(false)` over its parent's `Pull(false)`, with `firstEOS`. It
returns by its second pass. -/
def exitLoop {σ : Type} (pull : σ → Option W × σ) : Nat → Bool → σ → Option W × Bool × σ
  | 0, firstEOS, s => (none, firstEOS, s)
  | n + 1, firstEOS, s =>
    match pull s with
    | (some w, s') => (some w, false, s')
    | (none, s') => if firstEOS then (none, true, s') else exitLoop pull n true s'

/-- `ScopeExit.Pull(false)`. -/
def exitPull {σ : Type} (pull : σ → Option W × σ) (firstEOS : Bool) (s : σ) :
    Option W × Bool × σ :=
  exitLoop pull 2 firstEOS s

/-- Calls of `ScopeExit.Pull(false)` until it returns nil, at most `fuel` of them: the
vectors returned. -/
def exitAll {σ : Type} (pull : σ → Option W × σ) : Nat → Bool → σ → List W × Bool × σ
  | 0, b, s => ([], b, s)
  | n + 1, b, s =>
    match exitPull pull b s with
    | (none, b', s') => ([], b', s')
    | (some w, b', s') =>
      let r := exitAll pull n b' s'
      (w :: r.1, r.2)

/-- One `Pull(false)` of a parent whose results are a list, nil once the list is done. -/
def pop : List (Option W) → Option W × List (Option W)
  | [] => (none, [])
  | w :: ws => (w, ws)

/-- What `ScopeExit` returns over a stream of results: the vectors up to the first two nils in
a row, or up to the first nil when the nil before it was already seen. -/
def untilEOS : Bool → List (Option W) → List W
  | _, [] => []
  | _, some w :: rest => w :: untilEOS false rest
  | false, none :: rest => untilEOS true rest
  | true, none :: _ => []

section Stream

variable {σ : Type} (pull : σ → Option W × σ) (stream : σ → List (Option W)) (Inv : σ → Prop)

/-- A parent whose every `Pull(false)` pops a stream of results: `ScopeExit`'s loop over it
does what it does over the stream. -/
theorem exitLoop_pop (hstep : ∀ s, Inv s → Inv (pull s).2 ∧ pop (stream s) = ((pull s).1, stream (pull s).2)) :
    ∀ (n : Nat) (b : Bool) (s : σ), Inv s →
      Inv (exitLoop pull n b s).2.2 ∧
        exitLoop pop n b (stream s) =
          ((exitLoop pull n b s).1, (exitLoop pull n b s).2.1, stream (exitLoop pull n b s).2.2)
  | 0, _, _, hs => ⟨hs, rfl⟩
  | n + 1, b, s, hs => by
    obtain ⟨hs', hpop⟩ := hstep s hs
    simp only [exitLoop, hpop]
    rcases hp : pull s with ⟨_ | w, s'⟩
    · rw [hp] at hs'
      cases b
      · exact exitLoop_pop hstep n true s' hs'
      · exact ⟨hs', rfl⟩
    · rw [hp] at hs'
      exact ⟨hs', rfl⟩

theorem exitAll_pop (hstep : ∀ s, Inv s → Inv (pull s).2 ∧ pop (stream s) = ((pull s).1, stream (pull s).2)) :
    ∀ (fuel : Nat) (b : Bool) (s : σ), Inv s →
      (exitAll pull fuel b s).1 = (exitAll pop fuel b (stream s)).1
  | 0, _, _, _ => rfl
  | n + 1, b, s, hs => by
    obtain ⟨hs', hloop⟩ := exitLoop_pop pull stream Inv hstep 2 b s hs
    simp only [exitAll, exitPull, hloop]
    rcases he : exitLoop pull 2 b s with ⟨_ | w, b', s'⟩
    · rfl
    · rw [he] at hs'
      simp only [exitAll_pop hstep n b' s' hs']

end Stream

/-- Over a list of results, enough calls of `ScopeExit.Pull(false)` return `untilEOS`. -/
theorem exitAll_untilEOS : ∀ (fuel : Nat) (b : Bool) (l : List (Option W)), l.length < fuel →
    (exitAll pop fuel b l).1 = untilEOS b l
  | 0, _, _, h => absurd h (Nat.not_lt_zero _)
  | n + 1, b, l, h => by
    match b, l with
    | false, [] => rfl
    | true, [] => rfl
    | _, some w :: rest =>
      simp only [exitAll, exitPull, exitLoop, pop, untilEOS]
      rw [exitAll_untilEOS n false rest (by simp at h; omega)]
    | true, none :: _ => rfl
    | false, [none] => rfl
    | false, none :: some w :: rest =>
      simp only [exitAll, exitPull, exitLoop, pop, untilEOS, Bool.false_eq_true, if_false]
      rw [exitAll_untilEOS n false rest (by simp at h; omega)]
    | false, none :: none :: _ => rfl

/-- The rows `Over` has still to return: the rest of its current vector, then its parent's. -/
def rowsLeft (vecs : List (Option R)) (parent : List V) : List R :=
  (vecs ++ (parent.map cfg.rows).flatten).filterMap id

def blocks (rs : List R) : List (Option W) :=
  rs.flatMap fun r => (cfg.inner r).map some ++ [none]

def results (s : State V R W) : List (Option W) :=
  s.pending ++ blocks cfg (rowsLeft cfg s.vecs s.parent)

theorem filterMap_nextRow :
    ∀ vecs : List (Option R), vecs.filterMap id =
      match nextRow vecs with
      | some (r, rest) => r :: rest.filterMap id
      | none => []
  | [] => rfl
  | none :: rest => by rw [List.filterMap_cons_none rfl, filterMap_nextRow rest]; rfl
  | some r :: rest => rfl

theorem rowsLeft_nil (vecs : List (Option R)) : rowsLeft cfg vecs ([] : List V) = vecs.filterMap id := by
  simp [rowsLeft]

theorem rowsLeft_cons (vecs : List (Option R)) (v : V) (vs : List V) :
    rowsLeft cfg vecs (v :: vs) = vecs.filterMap id ++ rowsLeft cfg (cfg.rows v) vs := by
  simp [rowsLeft]

/-- `Over.Pull(false)` returns the first row left and leaves the others. -/
theorem overPull_spec :
    ∀ (parent : List V) (vecs : List (Option R)),
      (overPull cfg vecs parent).1 = (rowsLeft cfg vecs parent).head? ∧
        rowsLeft cfg (overPull cfg vecs parent).2.1 (overPull cfg vecs parent).2.2 =
          (rowsLeft cfg vecs parent).tail
  | [], vecs => by
    have e := filterMap_nextRow vecs
    simp only [overPull, rowsLeft_nil]
    split
    · next r rest h => rw [h] at e; rw [e]; exact ⟨rfl, rowsLeft_nil cfg rest⟩
    · next h => rw [h] at e; rw [e]; exact ⟨rfl, rfl⟩
  | v :: vs, vecs => by
    have e := filterMap_nextRow vecs
    simp only [overPull, rowsLeft_cons]
    split
    · next r rest h => rw [h] at e; rw [e]; exact ⟨rfl, rowsLeft_cons cfg rest v vs⟩
    · next h => rw [h] at e; rw [e, List.nil_append]; exact overPull_spec vs (cfg.rows v)

theorem blocks_cons (r : R) (rs : List R) :
    blocks cfg (r :: rs) = (cfg.inner r).map some ++ none :: blocks cfg rs := by
  simp [blocks]

theorem scopePull_of_sendEOS {s : State V R W} (h : s.sendEOS = true) :
    scopePull cfg s = (none, { s with sendEOS := false }) := by
  simp [scopePull, h]

/-- Between sub-streams, `Scope.Pull(false)` is `Over.Pull(false)`, and it sets `sendEOS`
when it returns a row. -/
theorem scopePull_spec {s : State V R W} (h : s.sendEOS = false) :
    (scopePull cfg s).1 = (rowsLeft cfg s.vecs s.parent).head? ∧
      rowsLeft cfg (scopePull cfg s).2.vecs (scopePull cfg s).2.parent =
        (rowsLeft cfg s.vecs s.parent).tail ∧
      (scopePull cfg s).2.sendEOS = (scopePull cfg s).1.isSome ∧
      (scopePull cfg s).2.pending = s.pending := by
  obtain ⟨h1, h2⟩ := overPull_spec cfg s.parent s.vecs
  simp only [scopePull, h, Bool.false_eq_true, if_false]
  exact ⟨h1, h2, trivial, trivial⟩

theorem innerPull_pop (hempty : cfg.innerEmpty = []) (s : State V R W) (hs : s.sendEOS = false) :
    (innerPull cfg s).2.sendEOS = false ∧
      pop (results cfg s) = ((innerPull cfg s).1, results cfg (innerPull cfg s).2) := by
  cases hp : s.pending with
  | cons w ws => simp [innerPull, hp, results, pop, hs]
  | nil =>
    obtain ⟨e1, e2, e3, e4⟩ := scopePull_spec cfg hs
    rcases hsc : scopePull cfg s with ⟨o, s1⟩
    rw [hsc] at e1 e2 e3 e4
    simp only at e1 e2 e3 e4
    rw [hp] at e4
    have hres : results cfg s = blocks cfg (rowsLeft cfg s.vecs s.parent) := by
      simp [results, hp]
    rw [hres]
    cases hr : rowsLeft cfg s.vecs s.parent with
    | nil =>
      rw [hr] at e1 e2
      subst e1
      simp [innerPull, hp, hsc, hempty, e3, pop, results, e2, e4, blocks]
    | cons r rs =>
      rw [hr] at e1 e2
      subst e1
      have hs1 : s1.sendEOS = true := e3
      cases hi : cfg.inner r with
      | nil =>
        simp [innerPull, hp, hsc, scopePull_of_sendEOS cfg hs1, hi, pop, results, e2, e4,
          blocks_cons]
      | cons w ws =>
        simp [innerPull, hp, hsc, scopePull_of_sendEOS cfg hs1, hi, pop, results, e2, e4,
          blocks_cons]

/-- `ScopeExit` over the pipeline returns `untilEOS` of the inner pipeline's results for the
rows of `Over`'s input, with enough calls. -/
theorem exitAll_init (hempty : cfg.innerEmpty = []) (parent : List V) (fuel : Nat)
    (hfuel : (blocks cfg (rowsLeft cfg [] parent)).length < fuel) :
    (exitAll (innerPull cfg) fuel false (State.init parent)).1 =
      untilEOS false (blocks cfg (rowsLeft cfg [] parent)) := by
  rw [exitAll_pop (innerPull cfg) (results cfg) (fun s => s.sendEOS = false)
    (fun s hs => innerPull_pop cfg hempty s hs) fuel false _ rfl]
  exact exitAll_untilEOS fuel false _ hfuel

theorem untilEOS_map_some_append (ws : List W) (b : Bool) (rest : List (Option W)) :
    untilEOS b (ws.map some ++ rest) = ws ++ untilEOS (b && ws.isEmpty) rest := by
  induction ws generalizing b with
  | nil => simp
  | cons w ws ih => simp [untilEOS, ih]

theorem untilEOS_blocks_cons (b : Bool) (r : R) (rs : List R) :
    untilEOS b (blocks cfg (r :: rs)) =
      cfg.inner r ++ if b && (cfg.inner r).isEmpty then [] else untilEOS true (blocks cfg rs) := by
  rw [blocks_cons, untilEOS_map_some_append]
  cases b && (cfg.inner r).isEmpty <;> rfl

theorem untilEOS_true_blocks :
    ∀ rs : List R, untilEOS true (blocks cfg rs) =
      ((rs.map cfg.inner).takeWhile fun o => !o.isEmpty).flatten
  | [] => rfl
  | r :: rs => by
    rw [untilEOS_blocks_cons, List.map_cons, List.takeWhile_cons]
    cases h : (cfg.inner r).isEmpty
    · simp [untilEOS_true_blocks rs]
    · simp [List.isEmpty_iff.mp h]

/-- `ScopeExit` returns the output of `Over`'s first row, then the outputs of the following
rows up to the first row with none, and there returns nil. -/
theorem exitAll_rows (hempty : cfg.innerEmpty = []) (parent : List V) (fuel : Nat)
    (hfuel : (blocks cfg (rowsLeft cfg [] parent)).length < fuel) :
    (exitAll (innerPull cfg) fuel false (State.init parent)).1 =
      match rowsLeft cfg [] parent with
      | [] => []
      | r :: rs => cfg.inner r ++ ((rs.map cfg.inner).takeWhile fun o => !o.isEmpty).flatten := by
  rw [exitAll_init cfg hempty parent fuel hfuel]
  cases rowsLeft cfg [] parent with
  | nil => rfl
  | cons r rs => rw [untilEOS_blocks_cons, untilEOS_true_blocks]; rfl

/-- An inner pipeline that drops the rows equal to 0, as a filter does, under an `Over`
whose parent vectors hold one row each. -/
def dropZeros : Config (List (Option Nat)) Nat Nat where
  rows := id
  inner r := if r = 0 then [] else [r]
  innerEmpty := []

/-- Rows 1, 0, 3: the filter drops the row 0, and `ScopeExit` takes the nil closing row 1 and
the nil closing row 0 for the end of `Over`'s input. It returns 1 and then nil, while `Over`
still has the vector of row 3 to pull; the outputs of the rows are 1 and 3. -/
theorem exitAll_empty_row_ends_stream :
    (exitAll (innerPull dropZeros) 10 false (State.init [[some 1], [some 0], [some 3]])).1 = [1] ∧
      (exitAll (innerPull dropZeros) 10 false
        (State.init [[some 1], [some 0], [some 3]])).2.2.parent = [[some 3]] ∧
      ((rowsLeft dropZeros [] [[some 1], [some 0], [some 3]]).map dropZeros.inner).flatten =
        [1, 3] :=
  ⟨rfl, rfl, rfl⟩

theorem exitAll_rows_dropZeros :
    dropZeros.innerEmpty = [] ∧
      (blocks dropZeros (rowsLeft dropZeros [] [[some 1], [some 0], [some 3]])).length < 10 ∧
      (exitAll (innerPull dropZeros) 10 false (State.init [[some 1], [some 0], [some 3]])).1 =
        match rowsLeft dropZeros [] [[some 1], [some 0], [some 3]] with
        | [] => []
        | r :: rs => dropZeros.inner r ++ ((rs.map dropZeros.inner).takeWhile fun o => !o.isEmpty).flatten :=
  ⟨rfl, by decide, exitAll_rows dropZeros rfl _ 10 (by decide)⟩

end SuperRuntime.Over
