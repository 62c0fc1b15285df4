import SuperRuntime.Value
import Mathlib.Data.List.AList
import Mathlib.Data.Nat.Digits

/-!
The record splicer of the join (runtime/sam/op/join). `Splice` joins a left and a right record
value into one record: the left body followed by the right, under a type `buildType` makes from
the left fields and the right fields, a right field renamed `name_2`, `name_3`, ... while the
left record has its name. The renaming looks at the left fields only, so a right field can be
renamed onto the name of another right field, and the type context refuses the repeated name.
Types are memoised per pair of ids; the memo always agrees with `buildType`, because types are
interned and the context only grows.
-/

namespace SuperRuntime.Join

open Zcode

private def digitStep (a : Nat) (c : Char) : Nat := 10 * a + (c.toNat - 48)

private theorem digitChar_val : ∀ d, d < 10 → (Nat.digitChar d).toNat - 48 = d := by decide

private theorem foldl_toDigitsCore : ∀ (fuel n : Nat) (ds : List Char), n < fuel →
    (Nat.toDigitsCore 10 fuel n ds).foldl digitStep 0 = ds.foldl digitStep n
  | 0, _, _, h => absurd h (Nat.not_lt_zero _)
  | fuel + 1, n, ds, h => by
    simp only [Nat.toDigitsCore]
    split
    · simp only [List.foldl_cons, digitStep, digitChar_val (n % 10) (Nat.mod_lt n (by omega))]
      congr 1; omega
    · rw [foldl_toDigitsCore fuel (n / 10) _ (by omega)]
      simp only [List.foldl_cons, digitStep, digitChar_val (n % 10) (Nat.mod_lt n (by omega))]
      congr 1; omega

private theorem repr_inj {k j : Nat} (h : Nat.repr k = Nat.repr j) : k = j := by
  have hd : Nat.toDigits 10 k = Nat.toDigits 10 j := congrArg String.data h
  have hk := foldl_toDigitsCore (k + 1) k [] (by omega)
  simp only [Nat.toDigits] at hd
  rw [hd, foldl_toDigitsCore (j + 1) j [] (by omega)] at hk
  simpa using hk.symm

/-- `fmt.Sprintf("%s_%d", name, k)`. -/
def suffixed (name : String) (k : Nat) : String := name ++ "_" ++ toString k

theorem suffixed_inj {name : String} {k j : Nat} (h : suffixed name k = suffixed name j) : k = j := by
  have h' := congrArg String.data h
  simp only [suffixed, String.data_append, List.append_assoc, List.append_cancel_left_eq] at h'
  exact repr_inj (String.ext h')

theorem suffixed_ne (name : String) (k : Nat) : suffixed name k ≠ name := fun h => by
  have h' := congrArg (·.data.length) h
  simp [suffixed] at h'

/-- The renaming loop of `buildType` for one right field: keep `name` while the left record has
no field of that name, else try `base_k` for `k = 2, 3, ...`. The fuel counts the turns. -/
def renameLoop (left : List String) (base : String) : Nat → String → Nat → String
  | 0, name, _ => name
  | fuel + 1, name, k =>
    if name ∈ left then renameLoop left base fuel (suffixed base k) (k + 1) else name

/-- The name `buildType` gives a right field named `base`: as many turns as the left record has
fields are enough, the candidates being distinct. -/
def freshName (left : List String) (base : String) : String :=
  renameLoop left base left.length base 2

section Fresh

variable {left : List String} {base : String}

theorem renameLoop_of_not_mem {name : String} (h : name ∉ left) (fuel k : Nat) :
    renameLoop left base fuel name k = name := by
  cases fuel <;> simp [renameLoop, h]

theorem renameLoop_mem : ∀ {fuel : Nat} {name : String} {k : Nat},
    renameLoop left base fuel name k ∈ left →
      name ∈ left ∧ ∀ i < fuel, suffixed base (k + i) ∈ left
  | 0, _, _, h => ⟨h, fun _ hi => absurd hi (Nat.not_lt_zero _)⟩
  | fuel + 1, name, k, h => by
    by_cases hn : name ∈ left
    · simp only [renameLoop, hn, if_true] at h
      obtain ⟨hk, hrest⟩ := renameLoop_mem h
      refine ⟨hn, fun i hi => ?_⟩
      cases i with
      | zero => exact hk
      | succ i => simpa [Nat.add_assoc, Nat.add_comm 1] using hrest i (by omega)
    · simp [renameLoop, hn] at h

/-- The renamed field's name is not a left field's. -/
theorem freshName_not_mem : freshName left base ∉ left := fun h => by
  obtain ⟨hb, hs⟩ := renameLoop_mem h
  let cands := base :: (List.range left.length).map fun i => suffixed base (2 + i)
  have hnodup : cands.Nodup := by
    refine List.nodup_cons.mpr ⟨fun hm => ?_, (List.nodup_range _).map fun i j e => ?_⟩
    · obtain ⟨i, -, he⟩ := List.mem_map.mp hm
      exact suffixed_ne base _ he
    · have := suffixed_inj e; omega
  have hsub : cands ⊆ left := by
    intro c hc
    rcases List.mem_cons.mp hc with rfl | hc
    · exact hb
    · obtain ⟨i, hi, rfl⟩ := List.mem_map.mp hc
      exact hs i (List.mem_range.mp hi)
  have hlen : cands.length = left.length + 1 := by simp [cands]
  have := (List.subperm_of_subset hnodup hsub).length_le
  omega

theorem freshName_of_not_mem (h : base ∉ left) : freshName left base = base :=
  renameLoop_of_not_mem h _ _

end Fresh

/-- `super.Field`. -/
structure Field (T : Type) where
  name : String
  typ : T
deriving DecidableEq, Repr

/-- `super.TypeRecord`: its id in the type context and its fields. -/
structure TypeRecord (T : Type) where
  id : Nat
  fields : List (Field T)
deriving DecidableEq, Repr

/-- What `LookupTypeRecord` refuses. -/
inductive TypeError
  /-- two fields of one name -/
  | duplicateField (name : String)
deriving DecidableEq, Repr

def duplicateName : List String → Option String
  | [] => none
  | n :: ns => if n ∈ ns then some n else duplicateName ns

theorem duplicateName_eq_none_iff : ∀ {ns : List String}, duplicateName ns = none ↔ ns.Nodup
  | [] => by simp [duplicateName]
  | n :: ns => by
    by_cases h : n ∈ ns <;> simp [duplicateName, h, duplicateName_eq_none_iff]

variable {T : Type}

/-- The fields `buildType` hands to `LookupTypeRecord`: the left fields, then each right field
under its fresh name. -/
def spliceFields (left right : List (Field T)) : List (Field T) :=
  left ++ right.map fun f => ⟨freshName (left.map Field.name) f.name, f.typ⟩

/-- The names `buildType` gives the right fields. -/
def rightNames (left right : List (Field T)) : List String :=
  right.map fun f => freshName (left.map Field.name) f.name

theorem spliceFields_left_right (left right : List (Field T)) :
    (spliceFields left right).take left.length = left ∧
      ((spliceFields left right).drop left.length).map Field.typ = right.map Field.typ := by
  simp [spliceFields, Function.comp_def]

/-- The combined names are distinct exactly when the left names are and the right fields' new
names are: a new name is never a left name. -/
theorem nodup_spliceFields_iff (left right : List (Field T)) :
    ((spliceFields left right).map Field.name).Nodup ↔
      (left.map Field.name).Nodup ∧ (rightNames left right).Nodup := by
  have hmap : ((spliceFields left right).map Field.name) = left.map Field.name ++ rightNames left right := by
    simp [spliceFields, rightNames, Function.comp_def]
  rw [hmap, List.nodup_append]
  refine ⟨fun h => ⟨h.1, h.2.1⟩, fun h => ⟨h.1, h.2, fun a ha hb => ?_⟩⟩
  obtain ⟨f, -, rfl⟩ := List.mem_map.mp hb
  exact freshName_not_mem ha

variable [DecidableEq T]

/-- Modelled from the spec: `super.Context.LookupTypeRecord`. Types are interned, so a field
list has one id, its position in the context's table of record types, entered when new; a field
list that names a field twice is not a record type and is refused. -/
def lookupTypeRecord (sctx : TypeVectorTable (Field T)) (fields : List (Field T)) :
    Except TypeError (TypeRecord T × TypeVectorTable (Field T)) :=
  match duplicateName (fields.map Field.name) with
  | some n => .error (.duplicateField n)
  | none => .ok (⟨(sctx.lookup fields).1, fields⟩, (sctx.lookup fields).2)

theorem lookupTypeRecord_of_nodup {sctx : TypeVectorTable (Field T)} {fields : List (Field T)}
    (h : (fields.map Field.name).Nodup) :
    lookupTypeRecord sctx fields = .ok (⟨(sctx.lookup fields).1, fields⟩, (sctx.lookup fields).2) := by
  simp [lookupTypeRecord, duplicateName_eq_none_iff.mpr h]

theorem lookupTypeRecord_eq_ok {sctx sctx' : TypeVectorTable (Field T)} {fields : List (Field T)}
    {r : TypeRecord T} (h : lookupTypeRecord sctx fields = .ok (r, sctx')) :
    (fields.map Field.name).Nodup ∧ r = ⟨(sctx.lookup fields).1, fields⟩ ∧ sctx' = (sctx.lookup fields).2 := by
  unfold lookupTypeRecord at h
  split at h
  · cases h
  · rename_i hn
    cases h
    exact ⟨duplicateName_eq_none_iff.mp hn, rfl, rfl⟩

/-- `buildType`, in the splicer's type context. -/
def buildType (sctx : TypeVectorTable (Field T)) (left right : TypeRecord T) :
    Except TypeError (TypeRecord T × TypeVectorTable (Field T)) :=
  lookupTypeRecord sctx (spliceFields left.fields right.fields)

/-- `buildType` succeeds exactly when the right fields' new names are distinct, for a left record
with distinct names; its type is then the interned type of the combined fields. -/
theorem buildType_ok_iff (sctx : TypeVectorTable (Field T)) (left right : TypeRecord T)
    (hl : (left.fields.map Field.name).Nodup) :
    (∃ r sctx', buildType sctx left right = .ok (r, sctx')) ↔ (rightNames left.fields right.fields).Nodup := by
  constructor
  · rintro ⟨r, sctx', h⟩
    exact ((nodup_spliceFields_iff _ _).mp (lookupTypeRecord_eq_ok h).1).2
  · intro h
    exact ⟨_, _, lookupTypeRecord_of_nodup ((nodup_spliceFields_iff _ _).mpr ⟨hl, h⟩)⟩

def recordX : TypeRecord Unit := ⟨0, [⟨"x", ()⟩]⟩

theorem buildType_ok_iff_recordX :
    (recordX.fields.map Field.name).Nodup ∧
      ((∃ r sctx', buildType ⟨[recordX.fields]⟩ recordX recordX = .ok (r, sctx')) ↔
        (rightNames recordX.fields recordX.fields).Nodup) :=
  ⟨by decide, buildType_ok_iff _ _ _ (by decide)⟩

/-- `RecordSplicer`: the type context it builds types in, and the memo `types` from the ids of a
left and a right record type to their combined type. -/
structure RecordSplicer (T : Type) [DecidableEq T] where
  sctx : TypeVectorTable (Field T)
  types : AList (fun _ : Nat × Nat => TypeRecord T)

/-- `NewRecordSplicer`. -/
def newRecordSplicer (sctx : TypeVectorTable (Field T)) : RecordSplicer T := ⟨sctx, ∅⟩

/-- `lookupType`: the memoised type of two record types, nil when absent. -/
def lookupType (s : RecordSplicer T) (left right : TypeRecord T) : Option (TypeRecord T) :=
  s.types.lookup (left.id, right.id)

/-- `enterType`. -/
def enterType (s : RecordSplicer T) (combined left right : TypeRecord T) : RecordSplicer T :=
  { s with types := s.types.insert (left.id, right.id) combined }

/-- `combinedType`. -/
def combinedType (s : RecordSplicer T) (left right : TypeRecord T) :
    Except TypeError (TypeRecord T × RecordSplicer T) :=
  match lookupType s left right with
  | some typ => .ok (typ, s)
  | none => do
    let (typ, sctx) ← buildType s.sctx left right
    pure (typ, enterType { s with sctx } typ left right)

/-- `Splice` on two record values (for which `Under` is the value itself): the combined type and
the left body followed by the right one. -/
def splice (s : RecordSplicer T) (left right : Value (TypeRecord T)) :
    Except TypeError (Value (TypeRecord T) × RecordSplicer T) := do
  let (typ, s) ← combinedType s left.typ right.typ
  pure (⟨typ, some (left.bytes.getD [] ++ right.bytes.getD [])⟩, s)

def Interned (sctx : TypeVectorTable (Field T)) (r : TypeRecord T) : Prop :=
  sctx.typesOf r.id = some r.fields

/-- Every memoised type is what `buildType` gives the two record types its key names, in the
current context, which `buildType` then leaves as it is. -/
def MemoOk (s : RecordSplicer T) : Prop :=
  ∀ lid rid typ, s.types.lookup (lid, rid) = some typ → ∃ lf rf,
    s.sctx.typesOf lid = some lf ∧ s.sctx.typesOf rid = some rf ∧
      buildType s.sctx ⟨lid, lf⟩ ⟨rid, rf⟩ = .ok (typ, s.sctx)

theorem buildType_extends {sctx sctx' sctx'' : TypeVectorTable (Field T)} {left right typ : TypeRecord T}
    (h : buildType sctx left right = .ok (typ, sctx')) (hext : sctx'.Extends sctx'') :
    buildType sctx'' left right = .ok (typ, sctx'') := by
  obtain ⟨hn, rfl, rfl⟩ := lookupTypeRecord_eq_ok h
  rw [buildType, lookupTypeRecord_of_nodup hn, hext.lookup (sctx.mem_lookup _),
    TypeVectorTable.lookup_lookup]

theorem buildType_extends_self {sctx sctx' : TypeVectorTable (Field T)} {left right typ : TypeRecord T}
    (h : buildType sctx left right = .ok (typ, sctx')) : sctx.Extends sctx' := by
  obtain ⟨-, -, rfl⟩ := lookupTypeRecord_eq_ok h
  exact sctx.extends_lookup _

theorem MemoOk.extends {s : RecordSplicer T} (h : MemoOk s) {sctx' : TypeVectorTable (Field T)}
    (hext : s.sctx.Extends sctx') : MemoOk { s with sctx := sctx' } := fun lid rid typ hr => by
  obtain ⟨lf, rf, hlf, hrf, hb⟩ := h lid rid typ hr
  exact ⟨lf, rf, hext.typesOf hlf, hext.typesOf hrf, buildType_extends hb hext⟩

/-- A splice keeps the memo in agreement with `buildType`. -/
theorem MemoOk.of_combinedType {s s' : RecordSplicer T} (h : MemoOk s) {left right typ : TypeRecord T}
    (hl : Interned s.sctx left) (hr : Interned s.sctx right)
    (hc : combinedType s left right = .ok (typ, s')) : MemoOk s' := by
  unfold combinedType at hc
  split at hc
  · cases hc; exact h
  · obtain ⟨⟨typ', sctx'⟩, hb, hc⟩ := bind_eq_ok.mp hc
    cases hc
    have hext := buildType_extends_self hb
    intro lid rid t ht
    by_cases hk : (lid, rid) = (left.id, right.id)
    · obtain ⟨rfl, rfl⟩ := Prod.mk.inj hk
      simp only [enterType, AList.lookup_insert, Option.some.injEq] at ht
      subst ht
      exact ⟨left.fields, right.fields, hext.typesOf hl, hext.typesOf hr,
        buildType_extends hb (.refl _)⟩
    · simp only [enterType, AList.lookup_insert_ne hk] at ht
      exact (h.extends hext) lid rid t ht

variable (T) in
/-- The splicer states of a run: from `NewRecordSplicer`, `Splice` of record values whose types
the context interned, while other code may intern more types in the shared context. -/
inductive Reachable : RecordSplicer T → Prop
  | new (sctx : TypeVectorTable (Field T)) : Reachable (newRecordSplicer sctx)
  | intern {s : RecordSplicer T} {sctx' : TypeVectorTable (Field T)} :
      Reachable s → s.sctx.Extends sctx' → Reachable { s with sctx := sctx' }
  | splice {s s' : RecordSplicer T} {left right v : Value (TypeRecord T)} :
      Reachable s → Interned s.sctx left.typ → Interned s.sctx right.typ →
      splice s left right = .ok (v, s') → Reachable s'

theorem Reachable.memoOk {s : RecordSplicer T} (h : Reachable T s) : MemoOk s := by
  induction h with
  | new sctx => intro _ _ _ h; simp [newRecordSplicer] at h
  | intern _ hext ih => exact ih.extends hext
  | splice _ hl hr hs ih =>
    obtain ⟨⟨_, _⟩, hc, hs⟩ := bind_eq_ok.mp hs
    cases hs
    exact ih.of_combinedType hl hr hc

/-- The memo answers as `buildType` would: on every splicer state a run reaches, and record types
the context interned, `combinedType` returns the type `buildType` returns, or its error. -/
theorem combinedType_eq_buildType {s : RecordSplicer T} (h : Reachable T s) {left right : TypeRecord T}
    (hl : Interned s.sctx left) (hr : Interned s.sctx right) :
    Prod.fst <$> combinedType s left right = Prod.fst <$> buildType s.sctx left right := by
  unfold combinedType
  split
  · rename_i typ hlook
    obtain ⟨lf, rf, hlf, hrf, hb⟩ := h.memoOk _ _ _ hlook
    rw [hl, Option.some_inj] at hlf
    rw [hr, Option.some_inj] at hrf
    rw [show left = ⟨left.id, lf⟩ from hlf ▸ rfl, show right = ⟨right.id, rf⟩ from hrf ▸ rfl, hb]
    rfl
  · cases buildType s.sctx left right <;> rfl

theorem combinedType_eq_buildType_recordX :
    Reachable Unit (newRecordSplicer ⟨[recordX.fields]⟩) ∧
      Interned (newRecordSplicer ⟨[recordX.fields]⟩ : RecordSplicer Unit).sctx recordX ∧
      Prod.fst <$> combinedType (newRecordSplicer ⟨[recordX.fields]⟩) recordX recordX =
        Prod.fst <$> buildType (newRecordSplicer ⟨[recordX.fields]⟩ : RecordSplicer Unit).sctx recordX recordX :=
  ⟨.new _, rfl, combinedType_eq_buildType (.new _) rfl rfl⟩

/-- `Splice` of two record values: when `combinedType` gives a type, the result is a value of
that type whose body is the left body followed by the right. -/
theorem splice_eq {s : RecordSplicer T} {left right : Value (TypeRecord T)} {typ : TypeRecord T}
    {s' : RecordSplicer T} (h : combinedType s left.typ right.typ = .ok (typ, s')) :
    splice s left right = .ok (⟨typ, some (left.bytes.getD [] ++ right.bytes.getD [])⟩, s') := by
  simp [splice, h]

def leftA : TypeRecord Unit := ⟨0, [⟨"a", ()⟩]⟩

def rightAA2 : TypeRecord Unit := ⟨1, [⟨"a", ()⟩, ⟨"a_2", ()⟩]⟩

/-- Left fields `a`, right fields `a` and `a_2`, each record with distinct names: the right `a`
is renamed `a_2`, checked against the left fields only, so the combined fields name `a_2` twice.
`LookupTypeRecord` refuses them, and `Splice` of two such records fails on a new splicer. -/
theorem splice_renames_onto_right_field :
    spliceFields leftA.fields rightAA2.fields = [⟨"a", ()⟩, ⟨"a_2", ()⟩, ⟨"a_2", ()⟩] ∧
      ∀ l r : Option Bytes,
        splice (newRecordSplicer ⟨[leftA.fields, rightAA2.fields]⟩) ⟨leftA, l⟩ ⟨rightAA2, r⟩ =
          .error (.duplicateField "a_2") := by
  refine ⟨by decide, fun l r => ?_⟩
  rfl

end SuperRuntime.Join
