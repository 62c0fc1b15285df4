import SuperRuntime.Aggregate.InMemory

/-!
Sorted input. `Consume` raises `maxTableKey` to the largest primary key seen, and a spill in
the middle of the input raises `maxSpillKey` to the primary key of its last record; each
bound keeps back the groups that later input can still reach. End of stream reads the table
and the spills out but never lowers a bound, and `run` starts the next sub-stream from the
same aggregator. The counterexamples run on the concrete runtime.
-/

namespace SuperRuntime.Aggregate

open Zcode

variable {T S : Type} [DecidableEq T] (env : Env T S) (cfg : Config T S)

def Aggregator.bounds (a : Aggregator T S) : Option (Value T) × Option (Value T) :=
  (a.maxTableKey, a.maxSpillKey)

@[simp] theorem lookupRecordType_bounds (a : Aggregator T S) (types : List T) :
    (lookupRecordType cfg a types).2.bounds = a.bounds := by
  simp only [lookupRecordType]; split <;> rfl

theorem tableRecord_bounds {po : Bool} {a a' : Aggregator T S} {key : Bytes} {row : Row T S}
    {r : Value T} (h : tableRecord cfg po a key row = .ok (r, a')) : a'.bounds = a.bounds := by
  obtain ⟨_, -, h⟩ := bind_eq_ok.mp h
  obtain ⟨_, -, h⟩ := bind_eq_ok.mp h
  simp only [pure_except, Except.ok.injEq, Prod.mk.injEq] at h
  rw [← h.2, lookupRecordType_bounds]

theorem readTableLoop_bounds {flush po : Bool} :
    ∀ {ks : List Bytes} {a a' : Aggregator T S} {recs : List (Value T)},
      readTableLoop cfg flush po ks a = .ok (recs, a') → a'.bounds = a.bounds
  | [], _, _, _, h => by cases h; rfl
  | _ :: _, a, _, _, h => by
    simp only [readTableLoop] at h
    split at h
    · exact readTableLoop_bounds h
    · obtain ⟨c, -, h⟩ := bind_eq_ok.mp h
      split at h
      · obtain ⟨⟨_, a1⟩, h1, h⟩ := bind_eq_ok.mp h
        obtain ⟨⟨_, _⟩, h2, h⟩ := bind_eq_ok.mp h
        cases h
        have e1 := tableRecord_bounds cfg h1
        exact (readTableLoop_bounds h2).trans e1
      · exact readTableLoop_bounds h

theorem spillTable_eof_bounds {a a' : Aggregator T S} (h : spillTable env cfg true a = .ok a') :
    a'.bounds = a.bounds := by
  obtain ⟨⟨recs, a1⟩, h1, h⟩ := bind_eq_ok.mp h
  have e1 : a1.bounds = a.bounds := readTableLoop_bounds cfg h1
  cases hl : (MergeSort.sortRecs cfg.keysComparator recs).getLast? <;>
    simp only [hl, Bool.not_true, Bool.false_and, Bool.false_eq_true, if_false, pure_except,
      Except.ok.injEq] at h <;>
    rw [← h] <;> exact e1

theorem nextResultFromSpills_bounds {a a' : Aggregator T S} {r : Option (Value T)}
    (h : nextResultFromSpills cfg a = .ok (r, a')) : a'.bounds = a.bounds := by
  obtain ⟨_, -, h⟩ := bind_eq_ok.mp h
  split at h <;> simp only [pure_except, Except.ok.injEq, Prod.mk.injEq] at h <;> rw [← h.2]
  · rfl
  · exact lookupRecordType_bounds cfg _ _

theorem readSpillsLoop_eof_bounds :
    ∀ {n : Nat} {a a' : Aggregator T S} {recs : List (Value T)},
      readSpillsLoop env cfg true n a = .ok (recs, a') → a'.bounds = a.bounds
  | 0, _, _, _, h => by cases h; rfl
  | _ + 1, _, _, _, h => by
    simp only [readSpillsLoop, Bool.not_true, Bool.false_and, Bool.false_eq_true, if_false,
      pure_except, ok_bind] at h
    obtain ⟨⟨r, a1⟩, h1, h⟩ := bind_eq_ok.mp h
    have e1 := nextResultFromSpills_bounds cfg h1
    cases r with
    | none => cases h; exact e1
    | some _ =>
      obtain ⟨⟨_, _⟩, h2, h⟩ := bind_eq_ok.mp h
      cases h
      exact (readSpillsLoop_eof_bounds h2).trans e1

theorem nextResult_eof_bounds {a a' : Aggregator T S} {recs : List (Value T)}
    (h : nextResult env cfg true a = .ok (recs, a')) : a'.bounds = a.bounds := by
  unfold nextResult at h
  split at h
  · exact readTableLoop_bounds cfg h
  · obtain ⟨a1, h1, h⟩ := bind_eq_ok.mp h
    simp only [readSpills, Bool.not_true, Bool.false_and, Bool.false_eq_true, if_false] at h
    exact (readSpillsLoop_eof_bounds env cfg h).trans (spillTable_eof_bounds env cfg h1)

theorem sendResultsLoop_bounds :
    ∀ {n : Nat} {a a' : Aggregator T S} {out : List (List (Value T))},
      sendResultsLoop env cfg n a = .ok (out, a') → a'.bounds = a.bounds
  | 0, _, _, _, h => by cases h; rfl
  | _ + 1, _, _, _, h => by
    obtain ⟨⟨_, a1⟩, h1, h⟩ := bind_eq_ok.mp h
    have e1 := nextResult_eof_bounds env cfg h1
    dsimp only at h
    split at h
    · cases h; exact e1
    · obtain ⟨⟨_, _⟩, h2, h⟩ := bind_eq_ok.mp h
      cases h
      exact (sendResultsLoop_bounds h2).trans e1

/-- End of stream lowers neither bound: after `sendResults` the aggregator holds the
`maxTableKey` and `maxSpillKey` the sub-stream's input left, and `run` goes on from it. -/
theorem sendResults_bounds {a a' : Aggregator T S} {out : List (List (Value T))}
    (h : sendResults env cfg a = .ok (out, a')) : a'.bounds = a.bounds :=
  sendResultsLoop_bounds env cfg h

/-- A sub-stream ends with the bounds its batches left. -/
theorem runStream_bounds :
    ∀ {batches : List (List (Value T))} {a a1 a' : Aggregator T S} {out : List (List (Value T))},
      runStream env cfg a batches = .ok (out, a') →
      batches.foldlM (fun a vals => (runBatch env cfg a vals).map Prod.snd) a = .ok a1 →
      a'.bounds = a1.bounds
  | [], _, _, _, _, h, h1 => by cases h1; exact sendResults_bounds env cfg h
  | vals :: rest, a, a1, _, _, h, h1 => by
    obtain ⟨⟨_, a2⟩, h2, h⟩ := bind_eq_ok.mp h
    obtain ⟨⟨_, _⟩, h3, h⟩ := bind_eq_ok.mp h
    cases h
    simp only [List.foldlM_cons, h2, Except.map, ok_bind] at h1
    exact runStream_bounds h3 h1

open Concrete in
/-- The bounds outlive their sub-stream: after a sub-stream on primary key 5, one on primary
key 1 emits its group (1, 1) twice, where from the initial state it emits it once. -/
theorem runStream_stale_bounds :
    (∃ out a, runStream Concrete.env (countBy [(.x, dotted .x), (.y, dotted .y)] 1 1) .fresh
        [[ints [(.x, 5), (.y, 0)], ints [(.x, 5), (.y, 1)]]] = .ok (out, a) ∧
      a.bounds = (some (int .int64 5), some (int .int64 5)) ∧
      (runStream Concrete.env (countBy [(.x, dotted .x), (.y, dotted .y)] 1 1) a
          [[ints [(.x, 1), (.y, 1)], ints [(.x, 1), (.y, 2)], ints [(.x, 1), (.y, 1)]]]).map
          Prod.fst =
        .ok [[counted [(.x, 1), (.y, 1)] 1, counted [(.x, 1), (.y, 2)] 1],
          [counted [(.x, 1), (.y, 1)] 1]]) ∧
    (runStream Concrete.env (countBy [(.x, dotted .x), (.y, dotted .y)] 1 1) .fresh
        [[ints [(.x, 1), (.y, 1)], ints [(.x, 1), (.y, 2)], ints [(.x, 1), (.y, 1)]]]).map
        Prod.fst =
      .ok [[counted [(.x, 1), (.y, 1)] 2, counted [(.x, 1), (.y, 2)] 1]] :=
  have h : runStream Concrete.env (countBy [(.x, dotted .x), (.y, dotted .y)] 1 1) .fresh
      [[ints [(.x, 5), (.y, 0)], ints [(.x, 5), (.y, 1)]]] = .ok (_, _) := rfl
  ⟨⟨_, _, h, runStream_bounds Concrete.env _ h rfl, rfl⟩, rfl⟩

open Concrete in
/-- A key whose output name differs from its expression (k:=x) breaks the spill bound:
`spillTable` evaluates x on output records, which have no field x, so `maxSpillKey` is never
set and `readSpills` emits every spilled group at once. The group (1, 1) comes out twice. -/
theorem runStream_renamed_primary_key :
    (runStream Concrete.env (countBy [(.k, dotted .x), (.y, dotted .y)] 1 1) .fresh
        [[ints [(.x, 1), (.y, 1)], ints [(.x, 1), (.y, 2)], ints [(.x, 1), (.y, 1)]]]).map
        Prod.fst =
      .ok [[counted [(.k, 1), (.y, 1)] 1, counted [(.k, 1), (.y, 2)] 1],
        [counted [(.k, 1), (.y, 1)] 1]] ∧
    (runStream Concrete.env (countBy [(.k, dotted .x), (.y, dotted .y)] 1 0) .fresh
        [[ints [(.x, 1), (.y, 1)], ints [(.x, 1), (.y, 2)], ints [(.x, 1), (.y, 1)]]]).map
        Prod.fst =
      .ok [[counted [(.k, 1), (.y, 1)] 2, counted [(.k, 1), (.y, 2)] 1]] :=
  ⟨rfl, rfl⟩

open Concrete in
/-- A spill whose last record has an error primary key leaves `maxSpillKey` nil while the
spill holds a record with a numeric primary key: the next `nextResult(false)` dereferences the
nil bound. The input is ascending, errors sorting after numbers. -/
theorem nextResult_nil_spill_bound :
    ∃ a, [ints [(.x, 1), (.y, 1)], record [(.x, err 5), (.y, int .int64 1)],
        record [(.x, err 5), (.y, int .int64 2)]].foldlM
        (consume Concrete.env (countBy [(.x, dotted .x), (.y, dotted .y)] 2 1)) .fresh = .ok a ∧
      a.maxSpillKey = none ∧ a.spiller.isSome ∧
      nextResult Concrete.env (countBy [(.x, dotted .x), (.y, dotted .y)] 2 1) false a =
        .error .nilDeref :=
  ⟨_, rfl, rfl, rfl, rfl⟩

end SuperRuntime.Aggregate
