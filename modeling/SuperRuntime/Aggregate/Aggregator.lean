import SuperRuntime.Value
import Mathlib.Data.List.AList
import Mathlib.Data.List.Sort

/-!
The group-by aggregator of runtime/sam/op/aggregate, as the Go code computes it. Its state is
the hash table from flat keys to rows, the two type-vector tables with the record-type memo,
the sorted-input bounds `maxTableKey` and `maxSpillKey`, and the spiller. Each Go panic on the
way is a `Fault`. The collaborators that are not in the source (the aggregate functions, the
record builder, the comparators, the spill files) are parameters, and the order in which Go's
`range` visits the table is a parameter too, so that results hold for every order.
-/

namespace SuperRuntime.Aggregate

open Zcode

/-- One aggregate function: `expr.Aggregator.Apply` on an input value, then the methods of
the `agg.Function` it creates. -/
structure AggFunction (T S : Type) where
  init : S
  apply : S → Value T → S
  consumeAsPartial : S → Value T → S
  result : S → Value T
  resultAsPartial : S → Value T

/-- `super.RecordBuilder` over the key names then the aggregate names: `Type` of the field
types, and `Encode` after `Reset` and one `Append` per field. -/
structure RecordBuilder (T : Type) where
  recordType : List T → T
  encode : List (Option Bytes) → Bytes

/-- The fields of `Aggregator` that `NewAggregator` fixes. -/
structure Config (T S : Type) where
  keyRefs : List (Evaluator T)
  keyExprs : List (Evaluator T)
  aggRefs : List (Evaluator T)
  aggs : List (AggFunction T S)
  builder : RecordBuilder T
  limit : Nat
  valueCompare : Option (CompareFn T)
  keyCompare : Option (CompareFn T)
  keysComparator : CompareFn T
  inputDir : Int
  partialsIn : Bool
  partialsOut : Bool

/-- The comparators of the expr package that `NewAggregator` builds, by direction (`true`
when descending): `NewValueCompareFn`, and `NewComparator` over sort expressions with
missing values as null. -/
structure SortLib (T : Type) where
  valueCompareFn : Bool → CompareFn T
  comparator : Bool → List (Evaluator T) → CompareFn T

/-- `DefaultLimit`. -/
def defaultLimit : Nat := 1000000

/-- `NewAggregator`. -/
def newAggregator {T S : Type} (lib : SortLib T) (keyRefs keyExprs aggRefs : List (Evaluator T))
    (aggs : List (AggFunction T S)) (builder : RecordBuilder T) (limit : Nat) (inputDir : Int)
    (partialsIn partialsOut : Bool) : Config T S :=
  let desc := decide (inputDir < 0)
  let sorted := decide (0 < keyExprs.length ∧ inputDir ≠ 0)
  { keyRefs, keyExprs, aggRefs, aggs, builder, inputDir, partialsIn, partialsOut
    limit := if limit = 0 then defaultLimit else limit
    valueCompare := if sorted then some (lib.valueCompareFn desc) else none
    keyCompare := if sorted then some (lib.comparator desc (keyRefs.take 1)) else none
    keysComparator := lib.comparator desc keyRefs }

/-- What `New` asks of the super package, for field paths of type `N`: `NewRecordBuilder`
over the output field paths, and `NewDottedExpr` reading a field back from a record. -/
structure RecordLib (T N : Type) where
  builder : List N → RecordBuilder T
  dotted : N → Evaluator T

/-- `New`, for grouping keys given as a field path and an expression: the builder is over the
key paths then the aggregate names, and the key and aggregate references read those fields
back. -/
def new {T S N : Type} (lib : SortLib T) (rlib : RecordLib T N) (keys : List (N × Evaluator T))
    (aggNames : List N) (aggs : List (AggFunction T S)) (limit : Nat) (inputSortDir : Int)
    (partialsIn partialsOut : Bool) : Config T S :=
  newAggregator lib (keys.map fun k => rlib.dotted k.1) (keys.map Prod.snd)
    (aggNames.map rlib.dotted) aggs (rlib.builder (keys.map Prod.fst ++ aggNames)) limit
    inputSortDir partialsIn partialsOut

/-- `Row`: the id of its key types, the primary-key bound at its insertion (`none` is Go's
zero value, left outside sorted mode), and one state per aggregate (`valRow`). -/
structure Row (T S : Type) where
  keyType : Nat
  groupval : Option (Value T)
  reducers : List S

/-- The table `map[string]*Row`. -/
abbrev Table (T S : Type) := AList (fun _ : Bytes => Row T S)

/-- `spill.MergeSort`, modelled from the spec: the sorted runs spilled so far, each holding
the records not yet read. -/
structure MergeSort (T : Type) where
  runs : List (List (Value T))

/-- The mutable fields of `Aggregator`. -/
structure Aggregator (T S : Type) where
  keyTypes : TypeVectorTable T
  outTypes : TypeVectorTable T
  recordTypes : AList (fun _ : Nat => T)
  table : Table T S
  maxTableKey : Option (Value T)
  maxSpillKey : Option (Value T)
  spiller : Option (MergeSort T)

/-- The state `NewAggregator` starts from. -/
def Aggregator.fresh {T S : Type} : Aggregator T S := ⟨⟨[]⟩, ⟨[]⟩, ∅, ∅, none, none, none⟩

/-- What the aggregator takes from the rest of the runtime: `IsQuiet` and `IsError` of values,
`op.BatchLen`, and the order in which Go's `range` visits the table. -/
structure Env (T S : Type) where
  isQuiet : Value T → Bool
  isError : Value T → Bool
  batchLen : Nat
  order : Table T S → List Bytes

namespace MergeSort

variable {T : Type}

/-- The sort `Spill` applies to a run before writing it: stable, by the keys comparator. -/
def sortRecs (cmp : CompareFn T) (recs : List (Value T)) : List (Value T) :=
  recs.insertionSort (fun x y => cmp x y ≠ .gt)

/-- `Spill`: one more sorted run. -/
def spill (m : MergeSort T) (cmp : CompareFn T) (recs : List (Value T)) : MergeSort T :=
  ⟨m.runs ++ [sortRecs cmp recs]⟩

/-- The k-way merge: the least head over all runs, the first run winning ties, and the runs
left once it is read. `Peek` returns its record, `Read` moves to its runs. -/
def pop (cmp : CompareFn T) : List (List (Value T)) → Option (Value T × List (List (Value T)))
  | [] => none
  | [] :: rs => (pop cmp rs).map fun p => (p.1, [] :: p.2)
  | (x :: xs) :: rs =>
    match pop cmp rs with
    | some (y, rs') => if cmp y x = .lt then some (y, (x :: xs) :: rs') else some (x, xs :: rs)
    | none => some (x, xs :: rs)

def size (m : MergeSort T) : Nat := m.runs.foldr (fun r n => r.length + n) 0

end MergeSort

section Operations

variable {T S : Type} [DecidableEq T] (env : Env T S) (cfg : Config T S)

/-- `newValRow`: a fresh state per aggregate. -/
def newValRow : List S := cfg.aggs.map (·.init)

/-- `valRow.apply`. -/
def applyRow (row : List S) (this : Value T) : List S :=
  List.zipWith (fun f s => f.apply s this) cfg.aggs row

/-- `valRow.consumeAsPartial`, modelled from the spec: each aggregate consumes the field its
reference selects from the partial record. -/
def consumeRow (row : List S) (rec : Value T) : List S :=
  List.zipWith3 (fun f e s => f.consumeAsPartial s (e rec)) cfg.aggs cfg.aggRefs row

/-- The aggregate values of a row: `ResultAsPartial` or `Result` of each state. -/
def results (partialsOut : Bool) (row : List S) : List (Value T) :=
  List.zipWith (fun f s => if partialsOut then f.resultAsPartial s else f.result s) cfg.aggs row

/-- `updateMaxTableKey`: raise the bound to a larger key, and return the bound. -/
def updateMaxTableKey (a : Aggregator T S) (val : Value T) :
    Except Fault (Value T × Aggregator T S) :=
  match a.maxTableKey with
  | none => .ok (val, { a with maxTableKey := some val })
  | some m => do
    if (← callCompare cfg.valueCompare val m) = .gt then
      pure (val, { a with maxTableKey := some val })
    else pure (m, a)

/-- `updateMaxSpillKey`. -/
def updateMaxSpillKey (a : Aggregator T S) (v : Value T) : Except Fault (Aggregator T S) :=
  match a.maxSpillKey with
  | none => .ok { a with maxSpillKey := some v }
  | some m => do
    if (← callCompare cfg.valueCompare v m) = .gt then pure { a with maxSpillKey := some v }
    else pure a

/-- `lookupRecordType`: the memoised record type of an output type vector. -/
def lookupRecordType (a : Aggregator T S) (types : List T) : T × Aggregator T S :=
  let id := (a.outTypes.lookup types).1
  let outTypes := (a.outTypes.lookup types).2
  match a.recordTypes.lookup id with
  | some typ => (typ, { a with outTypes })
  | none =>
    let typ := cfg.builder.recordType types
    (typ, { a with outTypes, recordTypes := a.recordTypes.insert id typ })

/-- The record `readTable` builds from one entry: the flat key values read back from the key
with the row's key types, then the aggregate values. -/
def tableRecord (partialsOut : Bool) (a : Aggregator T S) (key : Bytes) (row : Row T S) :
    Except Fault (Value T × Aggregator T S) := do
  let types ← need .indexRange (a.keyTypes.typesOf row.keyType)
  let flats ← need .badUvarint ((iterTake types.length key).map Prod.fst)
  let vals := results cfg partialsOut row.reducers
  let r := lookupRecordType cfg a (types ++ vals.map Value.typ)
  pure (⟨r.1, some (cfg.builder.encode (flats ++ vals.map Value.bytes))⟩, r.2)

/-- Whether `readTable` emits a row: always on flush, otherwise when its primary-key bound is
below `maxTableKey`. Without a `valueCompare` it panics. -/
def completed (flush : Bool) (a : Aggregator T S) (row : Row T S) : Except Fault Bool :=
  if flush then .ok true else do
    let vc ← need .internalBug cfg.valueCompare
    let g ← deref row.groupval
    let m ← deref a.maxTableKey
    pure (vc g m = .lt)

/-- The loop of `readTable`, over the keys in the order Go visits them. -/
def readTableLoop (flush partialsOut : Bool) :
    List Bytes → Aggregator T S → Except Fault (List (Value T) × Aggregator T S)
  | [], a => .ok ([], a)
  | key :: keys, a =>
    match a.table.lookup key with
    | none => readTableLoop flush partialsOut keys a
    | some row => do
      if ← completed cfg flush a row then
        let (rec, a) ← tableRecord cfg partialsOut a key row
        let (recs, a) ← readTableLoop flush partialsOut keys { a with table := a.table.erase key }
        pure (rec :: recs, a)
      else readTableLoop flush partialsOut keys a

/-- `readTable`; an empty list is the nil batch. -/
def readTable (flush partialsOut : Bool) (a : Aggregator T S) :
    Except Fault (List (Value T) × Aggregator T S) :=
  readTableLoop cfg flush partialsOut (env.order a.table) a

/-- `spillTable`. -/
def spillTable (eof : Bool) (a : Aggregator T S) : Except Fault (Aggregator T S) := do
  let (recs, a) ← readTable env cfg true true a
  match (MergeSort.sortRecs cfg.keysComparator recs).getLast? with
  | none => pure a
  | some last =>
    let a := { a with spiller := some ((a.spiller.getD ⟨[]⟩).spill cfg.keysComparator recs) }
    if !eof && cfg.inputDir ≠ 0 then do
      let e ← need .indexRange cfg.keyExprs.head?
      if env.isError (e last) then pure a else updateMaxSpillKey cfg a (e last)
    else pure a

/-- What `Consume` does to a row: `consumeAsPartial` in partials-in mode, `apply` otherwise. -/
def stepRow (row : List S) (this : Value T) : List S :=
  if cfg.partialsIn then consumeRow cfg row this else applyRow cfg row this

/-- The `i == 0` step of the key loop of `Consume`: in sorted mode a first key that is not
quiet raises `maxTableKey`, and the raised bound becomes the row's `groupval`. -/
def raisePrimary (a : Aggregator T S) : List (Value T) →
    Except Fault (Option (Value T) × Aggregator T S)
  | k :: _ =>
    if env.isQuiet k || cfg.inputDir = 0 then .ok (none, a)
    else (fun p => (some p.1, p.2)) <$> updateMaxTableKey cfg a k
  | [] => .ok (none, a)

/-- The flat key `Consume` builds: each key's payload by `zcode.Append`, then the uvarint id
of the key types. -/
def keyBytes (keyType : Nat) (keys : List (Value T)) : Bytes :=
  appendUvarint (appendAll (keys.map Value.bytes)) keyType

/-- The rest of `Consume` once no key is quiet: look the key up, spilling first when a new key
finds the table full, and step the row. -/
def consumeKeys (a : Aggregator T S) (this : Value T) (keys : List (Value T))
    (prim : Option (Value T)) : Except Fault (Aggregator T S) :=
  let keyType := (a.keyTypes.lookup (keys.map Value.typ)).1
  let a := { a with keyTypes := (a.keyTypes.lookup (keys.map Value.typ)).2 }
  let key := keyBytes keyType keys
  match a.table.lookup key with
  | some row =>
    .ok { a with table := a.table.insert key { row with reducers := stepRow cfg row.reducers this } }
  | none => do
    let a ← if cfg.limit ≤ a.table.keys.length then spillTable env cfg false a else pure a
    pure { a with table := a.table.insert key ⟨keyType, prim, stepRow cfg (newValRow cfg) this⟩ }

/-- `Consume`: a quiet key drops the value, after the first key has raised the bound. -/
def consume (a : Aggregator T S) (this : Value T) : Except Fault (Aggregator T S) := do
  let keys := cfg.keyExprs.map (· this)
  let (prim, a) ← raisePrimary env cfg a keys
  if keys.any env.isQuiet then pure a else consumeKeys env cfg a this keys prim

/-- The loop of `nextResultFromSpills`: read merged records while they compare equal to the
first, consuming each as a partial into a fresh row. The fuel is the number of records. -/
def gather (first : Option (Value T)) (row : List S) :
    Nat → MergeSort T → Option (Value T) × List S × MergeSort T
  | 0, m => (first, row, m)
  | n + 1, m =>
    match MergeSort.pop cfg.keysComparator m.runs with
    | none => (first, row, m)
    | some (rec, runs) =>
      match first with
      | none => gather (some rec) (consumeRow cfg row rec) n ⟨runs⟩
      | some f =>
        if cfg.keysComparator f rec ≠ .eq then (first, row, m)
        else gather first (consumeRow cfg row rec) n ⟨runs⟩

/-- `nextResultFromSpills`: the next merged group, its keys read back with `keyRefs`. -/
def nextResultFromSpills (a : Aggregator T S) :
    Except Fault (Option (Value T) × Aggregator T S) := do
  let m ← deref a.spiller
  match gather cfg none (newValRow cfg) m.size m with
  | (none, _, m) => pure (none, { a with spiller := some m })
  | (some first, row, m) =>
    let keys := cfg.keyRefs.map (· first)
    let vals := results cfg cfg.partialsOut row
    let r :=
      lookupRecordType cfg { a with spiller := some m } (keys.map Value.typ ++ vals.map Value.typ)
    pure (some ⟨r.1, some (cfg.builder.encode (keys.map Value.bytes ++ vals.map Value.bytes))⟩, r.2)

/-- The sorted-input check of `readSpills`: stop when no record is left, or when the next
record's primary key is not an error and not below `maxSpillKey`. -/
def spillBlocked (a : Aggregator T S) : Except Fault Bool := do
  let m ← deref a.spiller
  match MergeSort.pop cfg.keysComparator m.runs with
  | none => pure true
  | some (rec, _) => do
    let e ← need .indexRange cfg.keyExprs.head?
    if env.isError (e rec) then pure false else do
      let bound ← deref a.maxSpillKey
      pure ((← callCompare cfg.valueCompare (e rec) bound) ≠ .lt)

/-- The loop of `readSpills`, at most `BatchLen` records. -/
def readSpillsLoop (eof : Bool) :
    Nat → Aggregator T S → Except Fault (List (Value T) × Aggregator T S)
  | 0, a => pure ([], a)
  | n + 1, a => do
    if ← (if !eof && cfg.inputDir ≠ 0 then spillBlocked env cfg a else pure false) then
      pure ([], a)
    else
      match ← nextResultFromSpills cfg a with
      | (none, a) => pure ([], a)
      | (some rec, a) => do
        let (recs, a) ← readSpillsLoop eof n a
        pure (rec :: recs, a)

/-- `readSpills`. -/
def readSpills (eof : Bool) (a : Aggregator T S) : Except Fault (List (Value T) × Aggregator T S) :=
  if !eof && cfg.inputDir = 0 then pure ([], a) else readSpillsLoop env cfg eof env.batchLen a

/-- `nextResult`. -/
def nextResult (eof : Bool) (a : Aggregator T S) : Except Fault (List (Value T) × Aggregator T S) :=
  match a.spiller with
  | none => readTable env cfg eof cfg.partialsOut a
  | some _ => do
    let a ← if eof then spillTable env cfg true a else pure a
    readSpills env cfg eof a

end Operations

end SuperRuntime.Aggregate
