import SuperRuntime.Aggregate.Run
import SuperRuntime.Aggregate.Concrete

/-!
In unsorted mode, while the number of distinct key tuples stays within the limit, the
aggregator is a group-by: at end of stream it emits one record per distinct key tuple, with
the tuple's values as key fields and each aggregate over the group's values in input order.
The proof follows the table through `Consume`: the table holds one row per distinct tuple,
under the tuple's flat key, and distinct tuples get distinct keys because the type id is
part of the key. At the end `readTable` decodes each key back into its tuple, and the
record-type memo agrees with the builder whatever order the rows are visited in.
-/

namespace SuperRuntime.Aggregate

open Zcode

variable {T S : Type} [DecidableEq T] (env : Env T S) (cfg : Config T S)

def keyTuple (this : Value T) : Option (List (Value T)) :=
  if (cfg.keyExprs.map (· this)).any env.isQuiet then none else some (cfg.keyExprs.map (· this))

def addTuple (acc : List (List (Value T))) : Option (List (Value T)) → List (List (Value T))
  | some t => if t ∈ acc then acc else acc ++ [t]
  | none => acc

def tuples (input : List (Value T)) : List (List (Value T)) :=
  input.foldl (fun acc v => addTuple acc (keyTuple env cfg v)) []

def group (input : List (Value T)) (t : List (Value T)) : List (Value T) :=
  input.filter fun v => keyTuple env cfg v = some t

/-- The value an aggregate ends with: `ResultAsPartial` in partials-out mode, else `Result`. -/
def finish (f : AggFunction T S) (s : S) : Value T :=
  if cfg.partialsOut then f.resultAsPartial s else f.result s

/-- Each aggregate's value over a group: after `ConsumeAsPartial` of the field its reference
selects from each value (partials-in), or after `Apply` of each value. -/
def groupAggs (g : List (Value T)) : List (Value T) :=
  if cfg.partialsIn then
    List.zipWith (fun f e => finish cfg f (g.foldl (fun s v => f.consumeAsPartial s (e v)) f.init))
      cfg.aggs cfg.aggRefs
  else cfg.aggs.map fun f => finish cfg f (g.foldl f.apply f.init)

def groupRecord (t vals : List (Value T)) : Value T :=
  ⟨cfg.builder.recordType (t.map Value.typ ++ vals.map Value.typ),
    some (cfg.builder.encode (t.map Value.bytes ++ vals.map Value.bytes))⟩

/-- A group-by of the input: one record per distinct key tuple. -/
def groupBy (input : List (Value T)) : List (Value T) :=
  (tuples env cfg input).map fun t => groupRecord cfg t (groupAggs cfg (group env cfg input t))

def MemoOk (a : Aggregator T S) : Prop :=
  ∀ id typ, a.recordTypes.lookup id = some typ →
    ∃ ts, a.outTypes.typesOf id = some ts ∧ typ = cfg.builder.recordType ts

omit [DecidableEq T] in
theorem memoOk_fresh : MemoOk cfg (Aggregator.fresh : Aggregator T S) := by
  intro id typ h
  simp [Aggregator.fresh, AList.lookup_empty] at h

section LookupRecordType

variable (a : Aggregator T S) (types : List T)

@[simp] theorem lookupRecordType_table : (lookupRecordType cfg a types).2.table = a.table := by
  simp only [lookupRecordType]; split <;> rfl

@[simp] theorem lookupRecordType_keyTypes :
    (lookupRecordType cfg a types).2.keyTypes = a.keyTypes := by
  simp only [lookupRecordType]; split <;> rfl

@[simp] theorem lookupRecordType_spiller :
    (lookupRecordType cfg a types).2.spiller = a.spiller := by
  simp only [lookupRecordType]; split <;> rfl

theorem lookupRecordType_fst (h : MemoOk cfg a) :
    (lookupRecordType cfg a types).1 = cfg.builder.recordType types := by
  simp only [lookupRecordType]
  split
  · rename_i typ hid
    obtain ⟨ts, hts, rfl⟩ := h _ typ hid
    have hnew := a.outTypes.typesOf_lookup types
    rw [(a.outTypes.extends_lookup types).typesOf hts] at hnew
    rw [Option.some.inj hnew]
  · rfl

theorem memoOk_lookupRecordType (h : MemoOk cfg a) : MemoOk cfg (lookupRecordType cfg a types).2 := by
  have hext := a.outTypes.extends_lookup types
  simp only [lookupRecordType]
  split
  · intro id typ hid
    obtain ⟨ts, hts, rfl⟩ := h id typ hid
    exact ⟨ts, hext.typesOf hts, rfl⟩
  · intro id typ hid
    by_cases hi : id = (a.outTypes.lookup types).1
    · subst hi
      simp only [AList.lookup_insert, Option.some.injEq] at hid
      exact ⟨types, a.outTypes.typesOf_lookup types, hid.symm⟩
    · rw [AList.lookup_insert_ne hi] at hid
      obtain ⟨ts, hts, rfl⟩ := h id typ hid
      exact ⟨ts, hext.typesOf hts, rfl⟩

end LookupRecordType

def entryRecord (partialsOut : Bool) (keyTypes : TypeVectorTable T) (key : Bytes)
    (row : Row T S) : Option (Value T) := do
  let ts ← keyTypes.typesOf row.keyType
  let flats ← (iterTake ts.length key).map Prod.fst
  let vals := results cfg partialsOut row.reducers
  pure ⟨cfg.builder.recordType (ts ++ vals.map Value.typ),
    some (cfg.builder.encode (flats ++ vals.map Value.bytes))⟩

theorem tableRecord_of_entryRecord {po : Bool} {a : Aggregator T S} {key : Bytes} {row : Row T S}
    {r : Value T} (hmemo : MemoOk cfg a) (h : entryRecord cfg po a.keyTypes key row = some r) :
    ∃ a', tableRecord cfg po a key row = .ok (r, a') ∧ MemoOk cfg a' ∧ a'.table = a.table ∧
      a'.keyTypes = a.keyTypes ∧ a'.spiller = a.spiller := by
  unfold entryRecord at h
  unfold tableRecord
  cases hts : a.keyTypes.typesOf row.keyType with
  | none => simp [hts] at h
  | some ts =>
    cases hflats : iterTake ts.length key with
    | none => simp [hts, hflats] at h
    | some p =>
      simp only [hts, hflats, Option.bind_eq_bind, Option.some_bind, Option.map_some',
        Option.pure_def, Option.some.injEq] at h
      subst h
      let types := ts ++ (results cfg po row.reducers).map Value.typ
      refine ⟨(lookupRecordType cfg a types).2, ?_, memoOk_lookupRecordType cfg a types hmemo,
        by simp, by simp, by simp⟩
      simp [need, hts, hflats, types, lookupRecordType_fst cfg a _ hmemo]

/-- Flushing visits each key once: it emits the entry records in the visiting order, and
removes exactly the visited entries. -/
theorem readTableLoop_flush (po : Bool) :
    ∀ (ks : List Bytes) (a : Aggregator T S), ks.Nodup → MemoOk cfg a →
      (∀ k ∈ ks, ∀ row, a.table.lookup k = some row →
        (entryRecord cfg po a.keyTypes k row).isSome) →
      ∃ a', readTableLoop cfg true po ks a =
          .ok (ks.filterMap (fun k => (a.table.lookup k).bind (entryRecord cfg po a.keyTypes k)), a') ∧
        MemoOk cfg a' ∧ a'.keyTypes = a.keyTypes ∧ a'.spiller = a.spiller ∧
        ∀ k, a'.table.lookup k = if k ∈ ks then none else a.table.lookup k
  | [], a, _, hmemo, _ => ⟨a, rfl, hmemo, rfl, rfl, fun k => by simp⟩
  | k :: ks, a, hnd, hmemo, hgood => by
    have hks := (List.nodup_cons.mp hnd)
    cases hrow : a.table.lookup k with
    | none =>
      obtain ⟨a', hrun, hm, hkt, hsp, htab⟩ :=
        readTableLoop_flush po ks a hks.2 hmemo (fun k' hk' => hgood k' (List.mem_cons_of_mem k hk'))
      refine ⟨a', by simp [readTableLoop, hrow, hrun], hm, hkt, hsp, fun k' => ?_⟩
      by_cases hk : k' = k
      · subst hk; simp [htab, hks.1, hrow]
      · simp [htab, hk]
    | some row =>
      obtain ⟨r, hr⟩ := Option.isSome_iff_exists.mp (hgood k (List.mem_cons_self k ks) row hrow)
      obtain ⟨a1, hrec, hm1, htab1, hkt1, hsp1⟩ := tableRecord_of_entryRecord cfg hmemo hr
      have hlook : ∀ k' ∈ ks, (a1.table.erase k).lookup k' = a.table.lookup k' := fun k' hk' => by
        rw [htab1]; exact AList.lookup_erase_ne (fun e => hks.1 (e ▸ hk'))
      obtain ⟨a', hrun, hm, hkt, hsp, htab⟩ :=
        readTableLoop_flush po ks { a1 with table := a1.table.erase k } hks.2 hm1
          (fun k' hk' row' h' => by
            simp only [hkt1]
            exact hgood k' (List.mem_cons_of_mem k hk') row' (by rw [← hlook k' hk']; exact h'))
      have hrest : ks.filterMap (fun k' => ((a1.table.erase k).lookup k').bind
          (entryRecord cfg po a1.keyTypes k')) =
          ks.filterMap (fun k' => (a.table.lookup k').bind (entryRecord cfg po a.keyTypes k')) :=
        List.filterMap_congr (fun k' hk' => by rw [hlook k' hk', hkt1])
      refine ⟨a', ?_, hm, hkt.trans hkt1, hsp.trans hsp1, fun k' => ?_⟩
      · simp only [readTableLoop, hrow, completed, hrec, ok_bind, if_true]
        rw [hrun]
        simp [hrest, hrow, hr]
      · rw [htab, htab1]
        by_cases hk : k' = k
        · subst hk; simp [hks.1]
        · simp [hk, AList.lookup_erase_ne hk]

omit [DecidableEq T] in
theorem length_of_keyTuple {v : Value T} {t : List (Value T)} (h : keyTuple env cfg v = some t) :
    t.length = cfg.keyExprs.length := by
  unfold keyTuple at h
  split at h
  · cases h
  · cases h; simp

omit [DecidableEq T] in
theorem keyTuple_eq_some {v : Value T} {t : List (Value T)} (h : keyTuple env cfg v = some t) :
    cfg.keyExprs.map (· v) = t ∧ t.any env.isQuiet = false := by
  unfold keyTuple at h
  split at h
  · cases h
  · cases h
    exact ⟨rfl, Bool.eq_false_iff.mpr ‹_›⟩

theorem mem_addTuple {acc : List (List (Value T))} {o : Option (List (Value T))}
    {t : List (Value T)} : t ∈ addTuple acc o ↔ t ∈ acc ∨ o = some t := by
  cases o with
  | none => simp [addTuple]
  | some u =>
    simp only [addTuple]
    split_ifs with hu
    · exact ⟨Or.inl, fun h => h.elim id fun e => Option.some.inj e ▸ hu⟩
    · simp [eq_comm]

theorem tuples_append_singleton (p : List (Value T)) (v : Value T) :
    tuples env cfg (p ++ [v]) = addTuple (tuples env cfg p) (keyTuple env cfg v) := by
  simp [tuples, List.foldl_append]

private theorem foldl_addTuple_spec (p : List (Value T)) :
    ∀ acc : List (List (Value T)), acc.Nodup →
      (p.foldl (fun acc v => addTuple acc (keyTuple env cfg v)) acc).Nodup ∧
      acc <+: p.foldl (fun acc v => addTuple acc (keyTuple env cfg v)) acc ∧
      ∀ t, t ∈ p.foldl (fun acc v => addTuple acc (keyTuple env cfg v)) acc ↔
        t ∈ acc ∨ ∃ v ∈ p, keyTuple env cfg v = some t := by
  induction p with
  | nil => intro acc h; simp [h]
  | cons v p ih =>
    intro acc hacc
    have hstep : (addTuple acc (keyTuple env cfg v)).Nodup ∧ acc <+: addTuple acc (keyTuple env cfg v) := by
      cases hk : keyTuple env cfg v with
      | none => exact ⟨hacc, List.prefix_refl _⟩
      | some u =>
        simp only [addTuple]
        split_ifs with hu
        · exact ⟨hacc, List.prefix_refl _⟩
        · exact ⟨List.nodup_append.mpr ⟨hacc, List.nodup_singleton u, by simpa using hu⟩,
            List.prefix_append _ _⟩
    obtain ⟨hnd, hpre, hmem⟩ := ih _ hstep.1
    refine ⟨hnd, hstep.2.trans hpre, fun t => ?_⟩
    simp only [List.foldl_cons, hmem, mem_addTuple, List.mem_cons, exists_eq_or_imp, or_assoc]

theorem nodup_tuples (p : List (Value T)) : (tuples env cfg p).Nodup :=
  (foldl_addTuple_spec env cfg p [] List.nodup_nil).1

theorem tuples_isPrefix_append (p q : List (Value T)) : tuples env cfg p <+: tuples env cfg (p ++ q) := by
  simp only [tuples, List.foldl_append]
  exact (foldl_addTuple_spec env cfg q _ (nodup_tuples env cfg p)).2.1

theorem mem_tuples {p : List (Value T)} {t : List (Value T)} :
    t ∈ tuples env cfg p ↔ ∃ v ∈ p, keyTuple env cfg v = some t := by
  simpa using (foldl_addTuple_spec env cfg p [] List.nodup_nil).2.2 t

theorem length_of_mem_tuples {p : List (Value T)} {t : List (Value T)}
    (h : t ∈ tuples env cfg p) : t.length = cfg.keyExprs.length := by
  obtain ⟨v, -, hv⟩ := (mem_tuples env cfg).mp h
  exact length_of_keyTuple env cfg hv

theorem group_append_singleton (p : List (Value T)) (v : Value T) (t : List (Value T)) :
    group env cfg (p ++ [v]) t =
      group env cfg p t ++ if keyTuple env cfg v = some t then [v] else [] := by
  by_cases h : keyTuple env cfg v = some t <;> simp [group, List.filter_append, h]

theorem group_eq_nil {p : List (Value T)} {t : List (Value T)} (h : t ∉ tuples env cfg p) :
    group env cfg p t = [] :=
  List.filter_eq_nil_iff.mpr fun v hv hk => h ((mem_tuples env cfg).mpr ⟨v, hv, by simpa using hk⟩)

def keyOf (kt : TypeVectorTable T) (t : List (Value T)) : Bytes :=
  keyBytes (kt.lookup (t.map Value.typ)).1 t

omit [DecidableEq T] in
theorem Value.list_ext : ∀ {t t' : List (Value T)}, t.map Value.typ = t'.map Value.typ →
    t.map Value.bytes = t'.map Value.bytes → t = t'
  | [], [], _, _ => rfl
  | v :: t, v' :: t', htyp, hbytes => by
    simp only [List.map_cons, List.cons.injEq] at htyp hbytes
    rw [Value.list_ext htyp.2 hbytes.2, show v = v' from by cases v; cases v'; simp_all]
  | [], _ :: _, htyp, _ => by simp at htyp
  | _ :: _, [], htyp, _ => by simp at htyp

/-- Tuples of one arity whose types are known get the same key only when they are equal: the
type id in the suffix keeps equal bytes of different types apart. -/
theorem keyOf_inj {kt : TypeVectorTable T} {t t' : List (Value T)} (hlen : t.length = t'.length)
    (ht : t.map Value.typ ∈ kt.types) (ht' : t'.map Value.typ ∈ kt.types)
    (h : keyOf kt t = keyOf kt t') : t = t' := by
  obtain ⟨hbytes, hid⟩ := appendAll_appendUvarint_inj (by simp [hlen]) h
  have htyp := TypeVectorTable.typesOf_lookup_of_mem ht
  rw [hid, TypeVectorTable.typesOf_lookup_of_mem ht', Option.some_inj] at htyp
  exact Value.list_ext htyp.symm hbytes

theorem keyOf_of_extends {kt kt' : TypeVectorTable T} (h : kt.Extends kt') {t : List (Value T)}
    (ht : t.map Value.typ ∈ kt.types) : keyOf kt' t = keyOf kt t := by
  simp [keyOf, h.lookup ht]

section ConsumeKeys

variable {a : Aggregator T S} {v : Value T} {t : List (Value T)} {prim : Option (Value T)}

omit [DecidableEq T] in
theorem keys_insert_of_lookup_none {tab : Table T S} {k : Bytes} {row : Row T S}
    (h : tab.lookup k = none) : (tab.insert k row).keys = k :: tab.keys := by
  rw [AList.keys, AList.insert_entries_of_neg (AList.lookup_eq_none.mp h)]
  rfl

theorem consumeKeys_of_lookup_some {row : Row T S}
    (h : a.table.lookup (keyBytes (a.keyTypes.lookup (t.map Value.typ)).1 t) = some row) :
    consumeKeys env cfg a v t prim = .ok { a with
      keyTypes := (a.keyTypes.lookup (t.map Value.typ)).2
      table := a.table.insert (keyBytes (a.keyTypes.lookup (t.map Value.typ)).1 t)
        { row with reducers := stepRow cfg row.reducers v } } := by
  simp [consumeKeys, h]

theorem consumeKeys_of_lookup_none
    (h : a.table.lookup (keyBytes (a.keyTypes.lookup (t.map Value.typ)).1 t) = none)
    (hlimit : a.table.keys.length < cfg.limit) :
    consumeKeys env cfg a v t prim = .ok { a with
      keyTypes := (a.keyTypes.lookup (t.map Value.typ)).2
      table := a.table.insert (keyBytes (a.keyTypes.lookup (t.map Value.typ)).1 t)
        ⟨(a.keyTypes.lookup (t.map Value.typ)).1, prim, stepRow cfg (newValRow cfg) v⟩ } := by
  simp [consumeKeys, h, Nat.not_le.mpr hlimit]

end ConsumeKeys

/-- In unsorted mode `Consume` raises no bound: it drops a value with a quiet key, and
otherwise goes on with its key tuple. -/
theorem consume_of_unsorted (hdir : cfg.inputDir = 0) (a : Aggregator T S) (v : Value T) :
    consume env cfg a v = match keyTuple env cfg v with
      | none => .ok a
      | some t => consumeKeys env cfg a v t none := by
  have hraise : ∀ keys, raisePrimary env cfg a keys = .ok (none, a) := by
    rintro (_ | ⟨k, keys⟩) <;> simp [raisePrimary, hdir]
  by_cases hq : (cfg.keyExprs.map (· v)).any env.isQuiet = true <;>
    simp [consume, keyTuple, hraise, hq]

/-- The row states of a group after an input prefix: `stepRow` over its values in order. -/
def groupState (p : List (Value T)) (t : List (Value T)) : List S :=
  (group env cfg p t).foldl (stepRow cfg) (newValRow cfg)

structure Holds (p : List (Value T)) (a : Aggregator T S) : Prop where
  /-- nothing was spilled -/
  spiller : a.spiller = none
  /-- the record-type memo agrees with the builder -/
  memo : MemoOk cfg a
  /-- the key types of every tuple are interned -/
  known : ∀ t ∈ tuples env cfg p, t.map Value.typ ∈ a.keyTypes.types
  /-- the table's keys are the tuples' flat keys -/
  keys : a.table.keys.Perm ((tuples env cfg p).map (keyOf a.keyTypes))
  /-- each tuple's row -/
  rows : ∀ t ∈ tuples env cfg p, a.table.lookup (keyOf a.keyTypes t) =
    some ⟨(a.keyTypes.lookup (t.map Value.typ)).1, none, groupState env cfg p t⟩

theorem holds_fresh : Holds env cfg [] (Aggregator.fresh : Aggregator T S) where
  spiller := rfl
  memo := memoOk_fresh cfg
  known := by simp [tuples]
  keys := by simp [tuples, Aggregator.fresh]
  rows := by simp [tuples]

section Consume

variable {env cfg} {p : List (Value T)} {a : Aggregator T S} {v : Value T} {t : List (Value T)}

theorem groupState_append_of_ne (hk : keyTuple env cfg v = some t) {u : List (Value T)}
    (hu : u ≠ t) : groupState env cfg (p ++ [v]) u = groupState env cfg p u := by
  simp [groupState, group_append_singleton, hk, Ne.symm hu]

theorem groupState_append_self (hk : keyTuple env cfg v = some t) :
    groupState env cfg (p ++ [v]) t = stepRow cfg (groupState env cfg p t) v := by
  simp [groupState, group_append_singleton, hk]

theorem keyBytes_lookup (kt : TypeVectorTable T) (t : List (Value T)) :
    keyBytes (kt.lookup (t.map Value.typ)).1 t = keyOf (kt.lookup (t.map Value.typ)).2 t := by
  simp [keyOf, TypeVectorTable.lookup_lookup]

theorem Holds.keyOf_lookup (h : Holds env cfg p a) (ts : List T) :
    ∀ u ∈ tuples env cfg p, keyOf (a.keyTypes.lookup ts).2 u = keyOf a.keyTypes u :=
  fun u hu => keyOf_of_extends (a.keyTypes.extends_lookup ts) (h.known u hu)

theorem Holds.keyOf_ne (h : Holds env cfg p a) (hk : keyTuple env cfg v = some t) :
    ∀ u ∈ tuples env cfg p, u ≠ t →
      keyOf (a.keyTypes.lookup (t.map Value.typ)).2 u ≠
        keyOf (a.keyTypes.lookup (t.map Value.typ)).2 t := fun u hu hut e =>
  hut (keyOf_inj (by rw [length_of_mem_tuples env cfg hu, length_of_keyTuple env cfg hk])
    ((a.keyTypes.extends_lookup _).subset (h.known u hu)) (a.keyTypes.mem_lookup _) e)

/-- `Consume` of a record whose tuple is known steps the tuple's row. -/
private theorem holds_consume_known (h : Holds env cfg p a) (hk : keyTuple env cfg v = some t)
    (hmem : t ∈ tuples env cfg p) :
    ∃ a', consumeKeys env cfg a v t none = .ok a' ∧ Holds env cfg (p ++ [v]) a' := by
  have hkt := TypeVectorTable.lookup_snd_of_mem (h.known t hmem)
  have hkey : keyBytes (a.keyTypes.lookup (t.map Value.typ)).1 t = keyOf a.keyTypes t := by
    rw [keyBytes_lookup, hkt]
  have htu : tuples env cfg (p ++ [v]) = tuples env cfg p := by
    rw [tuples_append_singleton, hk]; simp [addTuple, hmem]
  have hrow := h.rows t hmem
  rw [← hkey] at hrow
  refine ⟨_, consumeKeys_of_lookup_some env cfg hrow, h.spiller, h.memo, ?_, ?_, ?_⟩
  · simpa [hkt, htu] using h.known
  · rw [htu, hkey, hkt, AList.keys_insert]
    exact (List.perm_cons_erase (AList.mem_keys.mp
      (AList.lookup_isSome.mp (by rw [← hkey, hrow]; rfl)))).symm.trans h.keys
  · rw [htu]
    intro u hu
    dsimp only
    rw [hkt, hkey]
    by_cases hut : u = t
    · subst hut; simp [groupState_append_self hk, h.rows u hu]
    · rw [AList.lookup_insert_ne (by simpa [hkt] using h.keyOf_ne hk u hu hut),
        groupState_append_of_ne hk hut]
      exact h.rows u hu

/-- `Consume` of a record with a new tuple, under the limit, adds the tuple's fresh row. -/
private theorem holds_consume_new (h : Holds env cfg p a) (hk : keyTuple env cfg v = some t)
    (hmem : t ∉ tuples env cfg p) (hlimit : (tuples env cfg (p ++ [v])).length ≤ cfg.limit) :
    ∃ a', consumeKeys env cfg a v t none = .ok a' ∧ Holds env cfg (p ++ [v]) a' := by
  have hold := h.keyOf_lookup (t.map Value.typ)
  have htu : tuples env cfg (p ++ [v]) = tuples env cfg p ++ [t] := by
    rw [tuples_append_singleton, hk]; simp [addTuple, hmem]
  have habsent : a.table.lookup (keyOf (a.keyTypes.lookup (t.map Value.typ)).2 t) = none := by
    apply AList.lookup_eq_none.mpr
    intro hin
    obtain ⟨u, hu, hku⟩ := List.mem_map.mp (h.keys.subset (AList.mem_keys.mp hin))
    rw [← hold u hu] at hku
    by_cases hut : u = t
    · exact hmem (hut ▸ hu)
    · exact h.keyOf_ne hk u hu hut hku
  have hlen : a.table.keys.length < cfg.limit := by
    rw [h.keys.length_eq, List.length_map]
    rw [htu, List.length_append] at hlimit
    simpa using hlimit
  refine ⟨_, consumeKeys_of_lookup_none env cfg (by rw [keyBytes_lookup]; exact habsent) hlen,
    h.spiller, h.memo, ?_, ?_, ?_⟩
  · intro u hu
    rcases List.mem_append.mp (htu ▸ hu) with hu | hu
    · exact (a.keyTypes.extends_lookup _).subset (h.known u hu)
    · exact List.mem_singleton.mp hu ▸ a.keyTypes.mem_lookup _
  · dsimp only
    rw [htu, keyBytes_lookup, keys_insert_of_lookup_none habsent, List.map_append,
      List.map_congr_left hold]
    exact (h.keys.cons _).trans (List.perm_append_singleton _ _).symm
  · intro u hu
    dsimp only
    rw [keyBytes_lookup]
    rcases List.mem_append.mp (htu ▸ hu) with hu | hu
    · have hut : u ≠ t := fun e => hmem (e ▸ hu)
      rw [AList.lookup_insert_ne (h.keyOf_ne hk u hu hut), hold u hu, h.rows u hu,
        (a.keyTypes.extends_lookup _).lookup (h.known u hu), groupState_append_of_ne hk hut]
    · obtain rfl := List.mem_singleton.mp hu
      rw [AList.lookup_insert, TypeVectorTable.lookup_lookup, groupState_append_self hk,
        groupState, group_eq_nil env cfg hmem]
      rfl

end Consume

theorem holds_consume {p : List (Value T)} {a : Aggregator T S} (hdir : cfg.inputDir = 0)
    (h : Holds env cfg p a) (v : Value T)
    (hlimit : (tuples env cfg (p ++ [v])).length ≤ cfg.limit) :
    ∃ a', consume env cfg a v = .ok a' ∧ Holds env cfg (p ++ [v]) a' := by
  rw [consume_of_unsorted env cfg hdir]
  cases hk : keyTuple env cfg v with
  | none =>
    have htu : tuples env cfg (p ++ [v]) = tuples env cfg p := by
      rw [tuples_append_singleton, hk]; rfl
    have hgs : ∀ u, groupState env cfg (p ++ [v]) u = groupState env cfg p u := fun u => by
      simp [groupState, group_append_singleton, hk]
    exact ⟨a, rfl, h.spiller, h.memo, htu ▸ h.known, htu ▸ h.keys,
      fun u hu => by rw [hgs]; exact h.rows u (htu ▸ hu)⟩
  | some t =>
    by_cases hmem : t ∈ tuples env cfg p
    · exact holds_consume_known h hk hmem
    · exact holds_consume_new h hk hmem hlimit

theorem holds_foldlM (hdir : cfg.inputDir = 0) :
    ∀ (q p : List (Value T)) (a : Aggregator T S), Holds env cfg p a →
      (tuples env cfg (p ++ q)).length ≤ cfg.limit →
      ∃ a', q.foldlM (consume env cfg) a = .ok a' ∧ Holds env cfg (p ++ q) a'
  | [], p, a, h, _ => ⟨a, rfl, by simpa using h⟩
  | v :: q, p, a, h, hlimit => by
    have hlimit' : (tuples env cfg (p ++ [v] ++ q)).length ≤ cfg.limit := by simpa using hlimit
    obtain ⟨a1, h1, hh1⟩ := holds_consume env cfg hdir h v
      ((tuples_isPrefix_append env cfg (p ++ [v]) q).length_le.trans hlimit')
    obtain ⟨a', h', hh'⟩ := holds_foldlM hdir q (p ++ [v]) a1 hh1 hlimit'
    exact ⟨a', by simp [h1, h'], by simpa using hh'⟩

/-- The step of each aggregate of a row, in the mode `Consume` runs in. -/
def slots : List (S → Value T → S) :=
  if cfg.partialsIn then
    List.zipWith (fun f e s v => f.consumeAsPartial s (e v)) cfg.aggs cfg.aggRefs
  else cfg.aggs.map fun f => f.apply

private theorem zipWith3_eq_zipWith {α β γ δ ε : Type} (k : α → β → δ) (g : δ → γ → ε) :
    ∀ (l₁ : List α) (l₂ : List β) (l₃ : List γ),
      List.zipWith3 (fun a b c => g (k a b) c) l₁ l₂ l₃ = List.zipWith g (List.zipWith k l₁ l₂) l₃
  | a :: l₁, b :: l₂, c :: l₃ => by simp [List.zipWith3, zipWith3_eq_zipWith k g l₁ l₂ l₃]
  | [], _, _ => rfl
  | _ :: _, [], _ => rfl
  | _ :: _, _ :: _, [] => by simp [List.zipWith3]

omit [DecidableEq T] in
theorem stepRow_eq_slots (row : List S) (v : Value T) :
    stepRow cfg row v = List.zipWith (fun h s => h s v) (slots cfg) row := by
  unfold stepRow slots consumeRow applyRow
  split
  · exact zipWith3_eq_zipWith
      (fun (f : AggFunction T S) (e : Evaluator T) (s : S) (v : Value T) => f.consumeAsPartial s (e v))
      (fun h s => h s v) _ _ _
  · rw [List.zipWith_map_left]

private theorem zipWith_zipWith_self {α β γ δ : Type} (f : α → γ → δ) (g : α → β → γ) :
    ∀ (l : List α) (r : List β),
      List.zipWith f l (List.zipWith g l r) = List.zipWith (fun a b => f a (g a b)) l r
  | a :: l, b :: r => by simp [zipWith_zipWith_self f g l r]
  | [], _ => rfl
  | _ :: _, [] => rfl

private theorem foldl_zipWith {α β : Type} (hs : List (α → β → α)) :
    ∀ (v : β) (g : List β) (row : List α),
      (v :: g).foldl (fun row v => List.zipWith (fun h s => h s v) hs row) row =
        List.zipWith (fun h s => (v :: g).foldl h s) hs row
  | _, [], _ => rfl
  | v, w :: g, row => by
    rw [List.foldl_cons, foldl_zipWith hs w g, zipWith_zipWith_self]
    rfl

private theorem zipWith_results {α β γ δ ζ : Type} (r : α → γ → ζ) (c : α → β → δ)
    (F : δ → γ → γ) (i : α → γ) : ∀ (l : List α) (refs : List β),
      List.zipWith r l (List.zipWith F (List.zipWith c l refs) (l.map i)) =
        List.zipWith (fun a b => r a (F (c a b) (i a))) l refs
  | a :: l, b :: refs => by
    simp only [List.zipWith_cons_cons, List.map_cons, zipWith_results r c F i l refs]
  | [], _ => rfl
  | _ :: _, [] => rfl

theorem results_groupState {p : List (Value T)} {t : List (Value T)}
    (ht : t ∈ tuples env cfg p) :
    results cfg cfg.partialsOut (groupState env cfg p t) = groupAggs cfg (group env cfg p t) := by
  obtain ⟨v, hv, hk⟩ := (mem_tuples env cfg).mp ht
  obtain ⟨w, g, hg⟩ := List.exists_cons_of_ne_nil
    (List.ne_nil_of_mem (List.mem_filter.mpr ⟨hv, by simpa [group] using hk⟩) :
      group env cfg p t ≠ [])
  have hfold : groupState env cfg p t =
      List.zipWith (fun h s => (w :: g).foldl h s) (slots cfg) (newValRow cfg) := by
    rw [groupState, hg, ← foldl_zipWith]
    exact congrArg (fun F => List.foldl F _ _) (funext fun row => funext (stepRow_eq_slots cfg row))
  rw [hfold, hg]
  unfold results groupAggs slots newValRow finish
  by_cases hp : cfg.partialsIn
  · rw [if_pos hp, if_pos hp]
    exact zipWith_results _ _ _ _ _ _
  · rw [if_neg hp, if_neg hp]
    simp [List.zipWith_map_left, List.zipWith_map_right, List.zipWith_same]

theorem entryRecord_of_holds {p : List (Value T)} {a : Aggregator T S} (h : Holds env cfg p a)
    {t : List (Value T)} (ht : t ∈ tuples env cfg p) :
    entryRecord cfg cfg.partialsOut a.keyTypes (keyOf a.keyTypes t)
        ⟨(a.keyTypes.lookup (t.map Value.typ)).1, none, groupState env cfg p t⟩ =
      some (groupRecord cfg t (groupAggs cfg (group env cfg p t))) := by
  have hflats := iterTake_appendAll (t.map Value.bytes)
  rw [List.length_map] at hflats
  simp [entryRecord, TypeVectorTable.typesOf_lookup_of_mem (h.known t ht), keyOf, keyBytes,
    appendUvarint, hflats, results_groupState env cfg ht, groupRecord]

section Drain

variable (horder : ∀ tab : Table T S, (env.order tab).Perm tab.keys)
include horder

/-- At end of stream the table is read out whole: one group record per distinct tuple, in the
order Go visits the table, and an empty table left. -/
theorem nextResult_of_holds {p : List (Value T)} {a : Aggregator T S} (h : Holds env cfg p a) :
    ∃ recs a', nextResult env cfg true a = .ok (recs, a') ∧ recs.Perm (groupBy env cfg p) ∧
      a'.spiller = none ∧ a'.table.keys = [] := by
  have hrec : ∀ t ∈ tuples env cfg p, (a.table.lookup (keyOf a.keyTypes t)).bind
      (entryRecord cfg cfg.partialsOut a.keyTypes (keyOf a.keyTypes t)) =
        some (groupRecord cfg t (groupAggs cfg (group env cfg p t))) := fun t ht => by
    rw [h.rows t ht, Option.some_bind, entryRecord_of_holds env cfg h ht]
  obtain ⟨a', hrun, -, -, hsp, htab⟩ := readTableLoop_flush cfg cfg.partialsOut (env.order a.table) a
    ((horder _).nodup_iff.mpr a.table.keys_nodup) h.memo fun k hk row hrow => by
      obtain ⟨t, ht, rfl⟩ := List.mem_map.mp (h.keys.subset ((horder _).subset hk))
      have hr := hrec t ht
      rw [hrow, Option.some_bind] at hr
      rw [hr]; rfl
  refine ⟨_, a', by simp only [nextResult, h.spiller, readTable]; exact hrun, ?_,
    hsp.trans h.spiller, ?_⟩
  · calc List.Perm _ (a.table.keys.filterMap _) := (horder _).filterMap _
      List.Perm _ (((tuples env cfg p).map (keyOf a.keyTypes)).filterMap _) := h.keys.filterMap _
      _ = groupBy env cfg p := by
        rw [List.filterMap_map, groupBy, ← List.filterMap_eq_map]
        exact List.filterMap_congr fun t ht => hrec t ht
  · refine List.eq_nil_iff_forall_not_mem.mpr fun k hk =>
      AList.lookup_eq_none.mp ?_ (AList.mem_keys.mpr hk)
    rw [htab k]
    split_ifs with hko
    · rfl
    · exact AList.lookup_eq_none.mpr fun hin => hko ((horder _).mem_iff.mpr (AList.mem_keys.mp hin))

theorem nextResult_of_empty {a : Aggregator T S} (hsp : a.spiller = none) (hkeys : a.table.keys = []) :
    nextResult env cfg true a = .ok ([], a) := by
  simp only [nextResult, hsp, readTable, (horder a.table).trans (hkeys ▸ List.Perm.refl _) |>.eq_nil,
    readTableLoop]

/-- `sendResults` after an unsorted input within the limit: the group-by, in one batch. -/
theorem sendResults_of_holds {p : List (Value T)} {a : Aggregator T S} (h : Holds env cfg p a) :
    ∃ out a', sendResults env cfg a = .ok (out, a') ∧ out.flatten.Perm (groupBy env cfg p) := by
  obtain ⟨recs, a', hnext, hperm, hsp, hkeys⟩ := nextResult_of_holds env cfg horder h
  have hpend : a.pending = recs.length := by
    simp [Aggregator.pending, h.spiller, hperm.length_eq, groupBy, h.keys.length_eq]
  cases recs with
  | nil => exact ⟨[], a', by simp [sendResults, sendResultsLoop, hnext], by simpa using hperm⟩
  | cons r rs =>
    refine ⟨[r :: rs], a', ?_, by simpa using hperm⟩
    simp [sendResults, hpend, sendResultsLoop, hnext, nextResult_of_empty env cfg horder hsp hkeys]

end Drain

/-- In unsorted mode a sub-stream emits nothing before its end: `run` is `Consume` over all of
it, then `sendResults`. -/
theorem runStream_of_unsorted (hdir : cfg.inputDir = 0) :
    ∀ (a : Aggregator T S) (batches : List (List (Value T))),
      runStream env cfg a batches = batches.flatten.foldlM (consume env cfg) a >>= sendResults env cfg
  | _, [] => rfl
  | a, vals :: rest => by
    simp only [runStream, runBatch, hdir, if_true, List.flatten_cons, List.foldlM_append]
    cases vals.foldlM (consume env cfg) a with
    | error e => rfl
    | ok a1 =>
      rw [ok_bind, ok_bind, pure_except, ok_bind, ← runStream_of_unsorted hdir a1 rest]
      cases runStream env cfg a1 rest with
      | error e => rfl
      | ok r => rfl

/-- From a state that holds after an input prefix, an unsorted sub-stream that keeps the
distinct key tuples within the limit ends with the group-by of the prefix and the sub-stream. -/
theorem runStream_of_holds (horder : ∀ tab : Table T S, (env.order tab).Perm tab.keys)
    (hdir : cfg.inputDir = 0) {p : List (Value T)} {a : Aggregator T S} (h : Holds env cfg p a)
    (batches : List (List (Value T)))
    (hlimit : (tuples env cfg (p ++ batches.flatten)).length ≤ cfg.limit) :
    ∃ out a', runStream env cfg a batches = .ok (out, a') ∧
      out.flatten.Perm (groupBy env cfg (p ++ batches.flatten)) := by
  obtain ⟨a1, hfold, h1⟩ := holds_foldlM env cfg hdir batches.flatten p a h hlimit
  obtain ⟨out, a', hsend, hperm⟩ := sendResults_of_holds env cfg horder h1
  exact ⟨out, a', by rw [runStream_of_unsorted env cfg hdir, hfold, ok_bind, hsend], hperm⟩

/-- In unsorted mode, while the distinct key tuples stay within the limit, a sub-stream from
the initial state emits at its end one record per distinct key tuple, holding the tuple's
values and each aggregate over the tuple's group. -/
theorem runStream_groupBy (horder : ∀ tab : Table T S, (env.order tab).Perm tab.keys)
    (hdir : cfg.inputDir = 0) (batches : List (List (Value T)))
    (hlimit : (tuples env cfg batches.flatten).length ≤ cfg.limit) :
    ∃ out a, runStream env cfg .fresh batches = .ok (out, a) ∧
      out.flatten.Perm (groupBy env cfg batches.flatten) :=
  runStream_of_holds env cfg horder hdir (holds_fresh env cfg) batches hlimit

theorem runStream_groupBy_countBy :
    (∀ tab : Table Concrete.Ty Nat, (Concrete.env.order tab).Perm tab.keys) ∧
    (Concrete.countBy [(.x, Concrete.dotted .x)] 10 0).inputDir = 0 ∧
    (tuples Concrete.env (Concrete.countBy [(.x, Concrete.dotted .x)] 10 0)
      [[Concrete.record [(.x, Concrete.int .int32 1)], Concrete.record [(.x, Concrete.int .int64 1)]]].flatten).length ≤
      (Concrete.countBy [(.x, Concrete.dotted .x)] 10 0).limit ∧
    ∃ out a, runStream Concrete.env (Concrete.countBy [(.x, Concrete.dotted .x)] 10 0) .fresh
        [[Concrete.record [(.x, Concrete.int .int32 1)], Concrete.record [(.x, Concrete.int .int64 1)]]] =
        .ok (out, a) ∧
      out.flatten.Perm (groupBy Concrete.env (Concrete.countBy [(.x, Concrete.dotted .x)] 10 0)
        [[Concrete.record [(.x, Concrete.int .int32 1)], Concrete.record [(.x, Concrete.int .int64 1)]]].flatten) :=
  ⟨fun _ => List.Perm.refl _, rfl, by decide,
    runStream_groupBy _ _ (fun _ => List.Perm.refl _) rfl _ (by decide)⟩

open Concrete in
/-- Past the limit the group-by breaks: with a limit of one, int32 1 and int64 1 are spilled
apart and the spill merge, whose keys comparator calls them equal, folds them into one record,
where the in-memory table keeps two. -/
theorem runStream_spill_merges_widths :
    (runStream Concrete.env (countBy [(.x, dotted .x)] 1 0) .fresh
        [[record [(.x, int .int32 1)], record [(.x, int .int64 1)]]]).map Prod.fst =
      .ok [[record [(.x, int .int32 1), (.count, int .uint64 2)]]] ∧
    (runStream Concrete.env (countBy [(.x, dotted .x)] 10 0) .fresh
        [[record [(.x, int .int32 1)], record [(.x, int .int64 1)]]]).map Prod.fst =
      .ok [[record [(.x, int .int64 1), (.count, int .uint64 1)],
        record [(.x, int .int32 1), (.count, int .uint64 1)]]] :=
  ⟨rfl, rfl⟩

end SuperRuntime.Aggregate
