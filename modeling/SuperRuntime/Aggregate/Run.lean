import SuperRuntime.Aggregate.Aggregator

/-!
The producer loop `Op.run` of the aggregate operator, with a downstream that pulls every
batch and never cancels. A sub-stream is a list of input batches ended by EOS. After each
batch in sorted mode the loop emits completed groups with `nextResult(false)`, stably sorted
by `keyCompare`; at EOS `sendResults` calls `nextResult(true)` until it returns nil. The
state left after one sub-stream is the state the next one starts from.
-/

namespace SuperRuntime.Aggregate

open Zcode

variable {T S : Type} [DecidableEq T] (env : Env T S) (cfg : Config T S)

def Aggregator.pending (a : Aggregator T S) : Nat :=
  a.table.keys.length + (a.spiller.map MergeSort.size).getD 0

/-- `slices.SortStableFunc` by a comparator field; Go calls the comparator, and so panics when
it is nil, only on two or more values. -/
def sortStableFunc (cmp : Option (CompareFn T)) (vals : List (Value T)) :
    Except Fault (List (Value T)) :=
  match cmp with
  | some c => .ok (vals.insertionSort fun x y => c x y ≠ .gt)
  | none => if vals.length < 2 then .ok vals else .error .nilFunc

/-- The loop of `sendResults`: `nextResult(true)` until it returns nil. The fuel bounds the
calls. -/
def sendResultsLoop : Nat → Aggregator T S → Except Fault (List (List (Value T)) × Aggregator T S)
  | 0, a => pure ([], a)
  | n + 1, a => do
    let (b, a) ← nextResult env cfg true a
    if b.isEmpty then pure ([], a) else do
      let (bs, a) ← sendResultsLoop n a
      pure (b :: bs, a)

/-- `sendResults`, with one call more than there are records left. -/
def sendResults (a : Aggregator T S) : Except Fault (List (List (Value T)) × Aggregator T S) :=
  sendResultsLoop env cfg (a.pending + 1) a

/-- The sorted-input loop of `run` after a batch: `nextResult(false)` until nil, each batch
sorted by `keyCompare`. The fuel bounds the calls. -/
def emitLoop : Nat → Aggregator T S → Except Fault (List (List (Value T)) × Aggregator T S)
  | 0, a => pure ([], a)
  | n + 1, a => do
    let (res, a) ← nextResult env cfg false a
    if res.isEmpty then pure ([], a) else do
      let res ← sortStableFunc cfg.keyCompare res
      let (rs, a) ← emitLoop n a
      pure (res :: rs, a)

/-- One input batch of `run`: `Consume` of each value, then in sorted mode the completed
groups. -/
def runBatch (a : Aggregator T S) (vals : List (Value T)) :
    Except Fault (List (List (Value T)) × Aggregator T S) := do
  let a ← vals.foldlM (consume env cfg) a
  if cfg.inputDir = 0 then pure ([], a) else emitLoop env cfg (a.pending + 1) a

/-- `run` over one sub-stream: the batches it sends, and the state it leaves. -/
def runStream (a : Aggregator T S) :
    List (List (Value T)) → Except Fault (List (List (Value T)) × Aggregator T S)
  | [] => sendResults env cfg a
  | vals :: rest => do
    let (out, a) ← runBatch env cfg a vals
    let (out', a) ← runStream a rest
    pure (out ++ out', a)

end SuperRuntime.Aggregate
