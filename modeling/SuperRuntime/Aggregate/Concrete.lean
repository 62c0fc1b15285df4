import SuperRuntime.Aggregate.Aggregator
import Mathlib.Order.Defs.LinearOrder

/-!
A concrete runtime for the aggregator: flat records over a few field names, int32, int64 and
uint64 integers and errors, the value comparator that orders numbers by magnitude across types
and puts errors after numbers and nulls last, dotted field access that yields the missing
error, and the `count` aggregate, a uint64. It is the runtime the counterexamples run on.
-/

namespace SuperRuntime.Aggregate.Concrete

open Zcode

inductive Name
  | x | y | k | count
deriving DecidableEq, Repr

inductive Prim
  | int32 | int64 | uint64 | error
deriving DecidableEq, Repr

inductive Ty
  | prim (p : Prim)
  | record (fields : List (Name × Prim))
deriving DecidableEq, Repr

def Ty.field : Ty → Prim
  | .prim p => p
  | .record _ => .error

def int (p : Prim) (n : Nat) : Value Ty := ⟨.prim p, some [n.toUInt8]⟩

def err (e : Nat) : Value Ty := ⟨.prim .error, some [e.toUInt8]⟩

def missing : Value Ty := err 0

def record (fields : List (Name × Value Ty)) : Value Ty :=
  ⟨.record (fields.map fun f => (f.1, f.2.typ.field)), some (appendAll (fields.map (·.2.bytes)))⟩

def ints (fields : List (Name × Nat)) : Value Ty :=
  record (fields.map fun f => (f.1, int .int64 f.2))

def counted (keys : List (Name × Nat)) (n : Nat) : Value Ty :=
  record (keys.map (fun f => (f.1, int .int64 f.2)) ++ [(.count, int .uint64 n)])

/-- `NewDottedExpr` of one field name. -/
def dotted (n : Name) (v : Value Ty) : Value Ty :=
  match v.typ, v.bytes with
  | .record fields, some body =>
    match (fields.findIdx? (·.1 = n)), iterTake fields.length body with
    | some i, some (vals, _) =>
      match fields[i]?, vals[i]? with
      | some f, some b => ⟨.prim f.2, b⟩
      | _, _ => missing
    | _, _ => missing
  | _, _ => missing

def rank (v : Value Ty) : Nat :=
  match v.typ, v.bytes with
  | _, none => 2
  | .prim .error, _ => 1
  | _, _ => 0

def magnitude (v : Value Ty) : Nat := ((v.bytes.getD []).headD 0).toNat

/-- `NewValueCompareFn` ascending with nulls last: rank first, then magnitude, so integers of
different widths compare by value. -/
def compareValues (a b : Value Ty) : Ordering :=
  (compare (rank a) (rank b)).then (compare (magnitude a) (magnitude b))

instance : Batteries.TransCmp compareValues :=
  show Batteries.TransCmp (compareLex (compareOn rank) (compareOn magnitude)) from inferInstance

/-- `NewComparator` with missing values as null, over the evaluators in turn. -/
def compareBy (refs : List (Evaluator Ty)) (a b : Value Ty) : Ordering :=
  refs.foldr (fun e o => (compareValues (asNull (e a)) (asNull (e b))).then o) .eq
where asNull (v : Value Ty) : Value Ty := if v = missing then ⟨v.typ, none⟩ else v

def sortLib : SortLib Ty where
  valueCompareFn desc := fun a b => if desc then compareValues b a else compareValues a b
  comparator desc refs := fun a b => if desc then compareBy refs b a else compareBy refs a b

/-- `NewRecordBuilder` and `NewDottedExpr` over flat records. -/
def recordLib : RecordLib Ty Name where
  builder names := ⟨fun types => .record (names.zip (types.map Ty.field)), appendAll⟩
  dotted := dotted

/-- `count()`, a uint64; its partial is the count so far. -/
def count : AggFunction Ty Nat where
  init := 0
  apply s _ := s + 1
  consumeAsPartial s v := s + magnitude v
  result s := int .uint64 s
  resultAsPartial s := int .uint64 s

theorem magnitude_int (p : Prim) (n : Nat) : magnitude (int p n) = n % 256 := by
  show (BitVec.ofNat 8 n).toNat = n % 256
  simp [BitVec.toNat_ofNat]

theorem int_eq_of_mod {p : Prim} {a b : Nat} (h : a % 256 = b % 256) : int p a = int p b := by
  have hbyte : a.toUInt8 = b.toUInt8 := by
    apply UInt8.eq_of_toBitVec_eq
    apply BitVec.eq_of_toNat_eq
    show (BitVec.ofNat 8 a).toNat = (BitVec.ofNat 8 b).toNat
    simpa [BitVec.toNat_ofNat] using h
  simp [int, hbyte]

theorem foldl_count_apply (g : List (Value Ty)) (s : Nat) : g.foldl count.apply s = s + g.length := by
  induction g generalizing s with
  | nil => rfl
  | cons v g ih => simp only [List.foldl_cons, ih, List.length_cons]; simp only [count]; omega

/-- `count()` partials decompose: consuming the partial counts of disjoint sub-groups, in any
order, gives the count of their union, up to the byte the runtime keeps of an integer. -/
theorem count_decomposes (gs : List (List (Value Ty))) (g : List (Value Ty)) (hg : gs.flatten.Perm g)
    (ps : List (Value Ty))
    (hps : ps.Perm (gs.map fun g' => count.resultAsPartial (g'.foldl count.apply count.init))) :
    count.result (ps.foldl count.consumeAsPartial count.init) =
      count.result (g.foldl count.apply count.init) := by
  have hmod : ∀ (gs : List (List (Value Ty))) (a : Nat),
      (gs.foldl (fun s g' => s + g'.length % 256) a) % 256 = (a + gs.flatten.length) % 256 := by
    intro gs
    induction gs with
    | nil => simp
    | cons g' gs ih => intro a; rw [List.foldl_cons, ih, List.flatten_cons, List.length_append]; omega
  have hsum : ps.foldl count.consumeAsPartial count.init =
      gs.foldl (fun s g' => s + g'.length % 256) 0 := by
    rw [hps.foldl_eq' (fun _ _ _ _ z => by simp only [count]; omega), List.foldl_map]
    simp only [foldl_count_apply]
    simp only [count, magnitude_int, Nat.zero_add]
  rw [hsum, foldl_count_apply, ← hg.length_eq]
  exact int_eq_of_mod (by rw [hmod]; rfl)

/-- The runtime around the aggregator, with `BatchLen` 100 and Go visiting the table in the
order of its entries. -/
def env : Env Ty Nat where
  isQuiet v := v = err 1
  isError v := v.typ = .prim .error
  batchLen := 100
  order t := t.keys

/-- The configuration `New` makes for `count() by` the given keys. -/
def countBy (keys : List (Name × Evaluator Ty)) (limit : Nat) (inputDir : Int) : Config Ty Nat :=
  new sortLib recordLib keys [.count] [count] limit inputDir false false

end SuperRuntime.Aggregate.Concrete
