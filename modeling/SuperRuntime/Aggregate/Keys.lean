import SuperRuntime.Aggregate.InMemory

/-!
The flat keys of the group table. `Consume` builds a key from the flat payloads of the key
values and the uvarint id of their type vector, and `readTable` reads the payloads back with
the vector that id names. Two tuples of one arity meet at one key only when they are equal,
whenever each was consumed, since the type table only grows. Every entry of every table a run
reaches holds the key of a tuple of the key arity, built under the entry's own id, so reading
it back gives the tuple and leaves exactly the uvarint id.
-/

namespace SuperRuntime.Aggregate

open Zcode

variable {T S : Type}

/-- Two tuples of one arity get the same flat key only when they are equal, the second looked
up in any table that extends the one the first was interned in. -/
theorem keyOf_eq_keyOf_iff [DecidableEq T] {kt kt' : TypeVectorTable T} {u v : List (Value T)}
    (hlen : u.length = v.length) (hext : (kt.lookup (u.map Value.typ)).2.Extends kt') :
    keyOf kt u = keyOf kt' v ↔ u = v := by
  constructor
  · intro h
    obtain ⟨hbytes, hid⟩ := appendAll_appendUvarint_inj (by simp [hlen]) h
    have hu : (kt'.lookup (v.map Value.typ)).2.typesOf (kt.lookup (u.map Value.typ)).1 =
        some (u.map Value.typ) :=
      (hext.trans (kt'.extends_lookup _)).typesOf (kt.typesOf_lookup _)
    rw [hid, TypeVectorTable.typesOf_lookup, Option.some_inj] at hu
    exact Value.list_ext hu.symm hbytes
  · rintro rfl
    simp [keyOf, hext.lookup (kt.mem_lookup _), TypeVectorTable.lookup_lookup]

def KeyEntries (cfg : Config T S) (a : Aggregator T S) : Prop :=
  ∀ key row, a.table.lookup key = some row → ∃ t : List (Value T),
    t.length = cfg.keyExprs.length ∧ a.keyTypes.typesOf row.keyType = some (t.map Value.typ) ∧
    key = keyBytes row.keyType t

structure Shrinks (a a' : Aggregator T S) : Prop where
  keyTypes : a.keyTypes.Extends a'.keyTypes
  table : ∀ key row, a'.table.lookup key = some row → a.table.lookup key = some row

namespace Shrinks

variable {a a' a'' : Aggregator T S}

theorem refl (a : Aggregator T S) : Shrinks a a := ⟨.refl _, fun _ _ h => h⟩

theorem trans (h : Shrinks a a') (h' : Shrinks a' a'') : Shrinks a a'' :=
  ⟨h.keyTypes.trans h'.keyTypes, fun k r hr => h.table k r (h'.table k r hr)⟩

theorem of_eq (ht : a'.table = a.table) (hk : a'.keyTypes = a.keyTypes) : Shrinks a a' :=
  ⟨hk ▸ .refl _, fun _ _ h => ht ▸ h⟩

theorem erase (a : Aggregator T S) (key : Bytes) :
    Shrinks a { a with table := a.table.erase key } := by
  refine ⟨.refl _, fun k r h => ?_⟩
  by_cases hk : k = key
  · subst hk; simp at h
  · rwa [AList.lookup_erase_ne hk] at h

theorem spiller (a : Aggregator T S) (m : Option (MergeSort T)) :
    Shrinks a { a with spiller := m } := .of_eq rfl rfl

end Shrinks

section Frame

variable {cfg : Config T S} (env : Env T S) {a a' : Aggregator T S}

theorem KeyEntries.shrinks (h : KeyEntries cfg a) (hs : Shrinks a a') : KeyEntries cfg a' :=
  fun key row hr =>
    let ⟨t, hl, ht, hk⟩ := h key row (hs.table key row hr)
    ⟨t, hl, hs.keyTypes.typesOf ht, hk⟩

theorem KeyEntries.insert (h : KeyEntries cfg a) {key : Bytes} {row : Row T S}
    {t : List (Value T)} (hl : t.length = cfg.keyExprs.length)
    (ht : a.keyTypes.typesOf row.keyType = some (t.map Value.typ))
    (hk : key = keyBytes row.keyType t) :
    KeyEntries cfg { a with table := a.table.insert key row } := fun key' row' hr => by
  by_cases hkey : key' = key
  · subst hkey
    simp only [AList.lookup_insert, Option.some.injEq] at hr
    exact hr ▸ ⟨t, hl, ht, hk⟩
  · exact h key' row' (by simpa [AList.lookup_insert_ne hkey] using hr)

theorem updateMaxSpillKey_shrinks {v : Value T} (h : updateMaxSpillKey cfg a v = .ok a') :
    Shrinks a a' := by
  unfold updateMaxSpillKey at h
  split at h
  · cases h; exact .of_eq rfl rfl
  · obtain ⟨_, -, h⟩ := bind_eq_ok.mp h
    split at h <;> cases h <;> exact .of_eq rfl rfl

theorem raisePrimary_shrinks {keys : List (Value T)} {p : Option (Value T)}
    (h : raisePrimary env cfg a keys = .ok (p, a')) : Shrinks a a' := by
  unfold raisePrimary at h
  split at h
  · split at h
    · cases h; exact .refl _
    · obtain ⟨⟨_, a1⟩, h1, h⟩ := map_eq_ok.mp h
      cases h
      unfold updateMaxTableKey at h1
      split at h1
      · cases h1; exact .of_eq rfl rfl
      · obtain ⟨_, -, h1⟩ := bind_eq_ok.mp h1
        split at h1 <;> cases h1 <;> exact .of_eq rfl rfl
  · cases h; exact .refl _

variable [DecidableEq T]

theorem tableRecord_shrinks {po : Bool} {key : Bytes} {row : Row T S} {r : Value T}
    (h : tableRecord cfg po a key row = .ok (r, a')) : Shrinks a a' := by
  obtain ⟨_, -, h⟩ := bind_eq_ok.mp h
  obtain ⟨_, -, h⟩ := bind_eq_ok.mp h
  simp only [pure_except, Except.ok.injEq, Prod.mk.injEq] at h
  exact h.2 ▸ .of_eq (by simp) (by simp)

theorem readTableLoop_shrinks {flush po : Bool} :
    ∀ {ks : List Bytes} {a a' : Aggregator T S} {recs : List (Value T)},
      readTableLoop cfg flush po ks a = .ok (recs, a') → Shrinks a a'
  | [], _, _, _, h => by cases h; exact .refl _
  | key :: _, _, _, _, h => by
    simp only [readTableLoop] at h
    split at h
    · exact readTableLoop_shrinks h
    · obtain ⟨_, -, h⟩ := bind_eq_ok.mp h
      split at h
      · obtain ⟨⟨_, a1⟩, h1, h⟩ := bind_eq_ok.mp h
        obtain ⟨⟨_, _⟩, h2, h⟩ := bind_eq_ok.mp h
        cases h
        exact (tableRecord_shrinks h1).trans ((Shrinks.erase a1 key).trans (readTableLoop_shrinks h2))
      · exact readTableLoop_shrinks h

theorem spillTable_shrinks {eof : Bool} (h : spillTable env cfg eof a = .ok a') : Shrinks a a' := by
  obtain ⟨⟨recs, a1⟩, h1, h⟩ := bind_eq_ok.mp h
  have e1 : Shrinks a a1 := readTableLoop_shrinks h1
  dsimp only at h
  split at h
  · cases h; exact e1
  · refine e1.trans ((Shrinks.spiller a1
      (some ((a1.spiller.getD ⟨[]⟩).spill cfg.keysComparator recs))).trans ?_)
    split at h
    · obtain ⟨_, -, h⟩ := bind_eq_ok.mp h
      split at h
      · cases h; exact .refl _
      · exact updateMaxSpillKey_shrinks h
    · cases h; exact .refl _

theorem nextResultFromSpills_shrinks {r : Option (Value T)}
    (h : nextResultFromSpills cfg a = .ok (r, a')) : Shrinks a a' := by
  obtain ⟨_, -, h⟩ := bind_eq_ok.mp h
  split at h <;> simp only [pure_except, Except.ok.injEq, Prod.mk.injEq] at h <;> rw [← h.2]
  · exact .of_eq rfl rfl
  · exact .of_eq (by simp) (by simp)

theorem readSpillsLoop_shrinks {eof : Bool} :
    ∀ {n : Nat} {a a' : Aggregator T S} {recs : List (Value T)},
      readSpillsLoop env cfg eof n a = .ok (recs, a') → Shrinks a a'
  | 0, _, _, _, h => by cases h; exact .refl _
  | _ + 1, _, _, _, h => by
    obtain ⟨_, -, h⟩ := bind_eq_ok.mp h
    split at h
    · cases h; exact .refl _
    · obtain ⟨⟨r, a1⟩, h1, h⟩ := bind_eq_ok.mp h
      have e1 := nextResultFromSpills_shrinks h1
      cases r with
      | none => cases h; exact e1
      | some _ =>
        obtain ⟨⟨_, _⟩, h2, h⟩ := bind_eq_ok.mp h
        cases h
        exact e1.trans (readSpillsLoop_shrinks h2)

theorem readSpills_shrinks {eof : Bool} {recs : List (Value T)}
    (h : readSpills env cfg eof a = .ok (recs, a')) : Shrinks a a' := by
  unfold readSpills at h
  split at h
  · cases h; exact .refl _
  · exact readSpillsLoop_shrinks env h

theorem nextResult_shrinks {eof : Bool} {recs : List (Value T)}
    (h : nextResult env cfg eof a = .ok (recs, a')) : Shrinks a a' := by
  unfold nextResult at h
  split at h
  · exact readTableLoop_shrinks h
  · simp only at h
    split at h <;> obtain ⟨a1, h1, h⟩ := bind_eq_ok.mp h
    · exact (spillTable_shrinks env h1).trans (readSpills_shrinks env h)
    · cases h1; exact readSpills_shrinks env h

theorem consumeKeys_cases {v : Value T} {keys : List (Value T)} {prim : Option (Value T)}
    (hc : consumeKeys env cfg a v keys prim = .ok a') :
    let lk := a.keyTypes.lookup (keys.map Value.typ)
    ∃ a1 row, Shrinks { a with keyTypes := lk.2 } a1 ∧
      a' = { a1 with table := a1.table.insert (keyBytes lk.1 keys) row } ∧
      (row.keyType = lk.1 ∨
        ∃ row0, a.table.lookup (keyBytes lk.1 keys) = some row0 ∧ row.keyType = row0.keyType) := by
  unfold consumeKeys at hc
  simp only at hc
  split at hc
  · rename_i row0 hrow
    cases hc
    exact ⟨_, _, .refl _, rfl, .inr ⟨row0, hrow, rfl⟩⟩
  · split at hc <;> obtain ⟨a1, h1, hc⟩ := bind_eq_ok.mp hc <;> cases hc
    · exact ⟨a1, _, spillTable_shrinks env h1, rfl, .inl rfl⟩
    · cases h1; exact ⟨_, _, .refl _, rfl, .inl rfl⟩

/-- `Consume` keeps every entry's key the key of its tuple. -/
theorem keyEntries_consume (h : KeyEntries cfg a) {v : Value T}
    (hc : consume env cfg a v = .ok a') : KeyEntries cfg a' := by
  obtain ⟨⟨_, a1⟩, h1, hc⟩ := bind_eq_ok.mp hc
  have e1 := h.shrinks (raisePrimary_shrinks env h1)
  dsimp only at hc
  split at hc
  · cases hc; exact e1
  · obtain ⟨a2, row, e2, rfl, hrow⟩ := consumeKeys_cases env hc
    let lk := a1.keyTypes.lookup ((cfg.keyExprs.map (· v)).map Value.typ)
    have e0 : KeyEntries cfg { a1 with keyTypes := lk.2 } :=
      e1.shrinks ⟨a1.keyTypes.extends_lookup _, fun _ _ hr => hr⟩
    rcases hrow with hrow | ⟨row0, hrow0, hrow⟩
    · exact (e0.shrinks e2).insert (by simp) (hrow ▸ e2.keyTypes.typesOf (a1.keyTypes.typesOf_lookup _)) (hrow ▸ rfl)
    · obtain ⟨t, hl, ht, hk⟩ := e0 _ row0 hrow0
      exact (e0.shrinks e2).insert hl (hrow ▸ e2.keyTypes.typesOf ht) (hrow ▸ hk)

theorem consume_extends {v : Value T} (hc : consume env cfg a v = .ok a') :
    a.keyTypes.Extends a'.keyTypes := by
  obtain ⟨⟨_, a1⟩, h1, hc⟩ := bind_eq_ok.mp hc
  refine (raisePrimary_shrinks env h1).keyTypes.trans ?_
  dsimp only at hc
  split at hc
  · cases hc; exact .refl _
  · obtain ⟨a2, row, e2, rfl, -⟩ := consumeKeys_cases env hc
    exact (a1.keyTypes.extends_lookup _).trans e2.keyTypes

end Frame

variable [DecidableEq T] (env : Env T S) (cfg : Config T S)

/-- The states a run reaches from `NewAggregator`'s: `Consume` of any value and `nextResult`
before or at end of stream, in any order. -/
inductive Reachable : Aggregator T S → Prop
  | fresh : Reachable Aggregator.fresh
  | consume {a a' : Aggregator T S} {v : Value T} :
      Reachable a → consume env cfg a v = .ok a' → Reachable a'
  | nextResult {a a' : Aggregator T S} {eof : Bool} {recs : List (Value T)} :
      Reachable a → nextResult env cfg eof a = .ok (recs, a') → Reachable a'

variable {env cfg} in
theorem Reachable.keyEntries {a : Aggregator T S} (h : Reachable env cfg a) : KeyEntries cfg a := by
  induction h with
  | fresh => intro key row hr; simp [Aggregator.fresh] at hr
  | consume _ hc ih => exact keyEntries_consume env ih hc
  | nextResult _ hn ih => exact ih.shrinks (nextResult_shrinks env hn)

theorem tableRecord_keyBytes (po : Bool) (a : Aggregator T S) {row : Row T S} {t : List (Value T)}
    (ht : a.keyTypes.typesOf row.keyType = some (t.map Value.typ)) :
    let types := t.map Value.typ ++ (results cfg po row.reducers).map Value.typ
    tableRecord cfg po a (keyBytes row.keyType t) row =
      .ok (⟨(lookupRecordType cfg a types).1, some (cfg.builder.encode
        (t.map Value.bytes ++ (results cfg po row.reducers).map Value.bytes))⟩,
        (lookupRecordType cfg a types).2) := by
  have hdec := iterTake_appendAll (t.map Value.bytes) (appendUvarint [] row.keyType)
  simp only [List.length_map, appendUvarint, List.nil_append] at hdec
  simp [tableRecord, ht, keyBytes, appendUvarint, hdec]

/-- The flat keys of the group table. Tuples of one arity get the same key only when they are
equal, types included and null apart from empty, however the type table grew between the two
lookups. Every entry of every table a run reaches holds the key of a tuple of the key arity,
whose types the entry's id names: reading as many values as there are types leaves exactly
the uvarint of that id, and `readTable` reads the tuple's payloads back. -/
theorem groupKeys_encode_decode :
    (∀ (kt kt' : TypeVectorTable T) (u v : List (Value T)), u.length = v.length →
        (kt.lookup (u.map Value.typ)).2.Extends kt' → (keyOf kt u = keyOf kt' v ↔ u = v)) ∧
    ∀ a, Reachable env cfg a → ∀ key row, a.table.lookup key = some row →
      ∃ t : List (Value T), t.length = cfg.keyExprs.length ∧
        a.keyTypes.typesOf row.keyType = some (t.map Value.typ) ∧ key = keyBytes row.keyType t ∧
        (∃ rest, iterTake t.length key = some (t.map Value.bytes, rest) ∧
          uvarint rest = some (row.keyType, [])) ∧
        ∀ po, let types := t.map Value.typ ++ (results cfg po row.reducers).map Value.typ
          tableRecord cfg po a key row =
            .ok (⟨(lookupRecordType cfg a types).1, some (cfg.builder.encode
              (t.map Value.bytes ++ (results cfg po row.reducers).map Value.bytes))⟩,
              (lookupRecordType cfg a types).2) := by
  refine ⟨fun _ _ _ _ hlen hext => keyOf_eq_keyOf_iff hlen hext, fun a ha key row hr => ?_⟩
  obtain ⟨t, hl, ht, rfl⟩ := ha.keyEntries key row hr
  have hdec := iterTake_appendAll (t.map Value.bytes) (appendUvarint [] row.keyType)
  rw [List.length_map] at hdec
  exact ⟨t, hl, ht, rfl, ⟨appendUvarint [] row.keyType, by simpa [keyBytes, appendUvarint] using hdec,
    by simpa using uvarint_appendUvarint row.keyType []⟩,
    fun po => tableRecord_keyBytes cfg po a ht⟩

end SuperRuntime.Aggregate
