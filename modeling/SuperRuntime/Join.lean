import SuperRuntime.Aggregate.Concrete
import Mathlib.Data.List.Chain

/-!
The merge join of runtime/sam/op/join. `Pull` reads the left input to its end; for each left
record with a key it asks `getJoinSet` for the right records with an equal key. The right
input is a peeker that only moves forward: `getJoinSet` discards right records with smaller
keys, and `readJoinSet` reads the block of equal keys, which stays cached with its key for the
next left records. With both inputs sorted by the join's comparator, the result is the
nested-loop join.
-/

namespace SuperRuntime.Join

open Batteries

/-- The fields of `Op` that `New` fixes: the join kind, the key expressions, the comparator,
the cutter of the right record and `RecordSplicer.Splice`, which fails with an error of `E`
when the combined record type cannot be built. -/
structure Config (T E : Type) where
  anti : Bool
  inner : Bool
  leftKey : Evaluator T
  rightKey : Evaluator T
  isMissing : Value T → Bool
  compare : CompareFn T
  cutter : Evaluator T
  splice : Value T → Value T → Except E (Value T)

/-- The state `Pull` leaves: the right records the peeker has not read, and the cached
`joinKey` and `joinSet`. -/
structure State (T : Type) where
  right : List (Value T)
  joinKey : Option (Value T)
  joinSet : List (Value T)

variable {T E : Type} (cfg : Config T E)

/-- `readJoinSet`: the right records that follow with a key equal to `joinKey`, skipping
records without a key, and the records left. -/
def readJoinSet (joinKey : Value T) : List (Value T) → List (Value T) × List (Value T)
  | [] => ([], [])
  | rec :: rest =>
    if cfg.isMissing (cfg.rightKey rec) then readJoinSet joinKey rest
    else if cfg.compare (cfg.rightKey rec) joinKey ≠ .eq then ([], rec :: rest)
    else
      let r := readJoinSet joinKey rest
      (rec :: r.1, r.2)

/-- The loop of `getJoinSet` once the cache misses: discard right records with smaller keys,
then read the block of equal keys if there is one. -/
def seekJoinSet (leftKey : Value T) (joinKey : Option (Value T)) (joinSet : List (Value T)) :
    List (Value T) → List (Value T) × State T
  | [] => ([], ⟨[], joinKey, joinSet⟩)
  | rec :: rest =>
    if cfg.isMissing (cfg.rightKey rec) then seekJoinSet leftKey joinKey joinSet rest
    else match cfg.compare leftKey (cfg.rightKey rec) with
      | .eq =>
        let r := readJoinSet cfg leftKey (rec :: rest)
        (r.1, ⟨r.2, some leftKey, r.1⟩)
      | .lt => ([], ⟨rec :: rest, joinKey, joinSet⟩)
      | .gt => seekJoinSet leftKey joinKey joinSet rest

/-- `getJoinSet`: the cached set when the key equals the cached key, else the seek. A nil
slice is the empty list. -/
def getJoinSet (st : State T) (leftKey : Value T) : List (Value T) × State T :=
  match st.joinKey with
  | some k =>
    if cfg.compare leftKey k = .eq then (st.joinSet, st)
    else seekJoinSet cfg leftKey st.joinKey st.joinSet st.right
  | none => seekJoinSet cfg leftKey st.joinKey st.joinSet st.right

/-- What `Pull` appends for one left record with a key, given its join set. -/
def joined (l : Value T) (rightRecs : List (Value T)) : Except E (List (Value T)) :=
  if rightRecs.isEmpty then .ok (if cfg.inner then [] else [l])
  else if cfg.anti then .ok [] else rightRecs.mapM fun r => cfg.splice l (cfg.cutter r)

/-- The loop of `Pull` over the left records up to their end. -/
def pullLoop (st : State T) : List (Value T) → Except E (List (Value T) × State T)
  | [] => .ok ([], st)
  | l :: ls =>
    if cfg.isMissing (cfg.leftKey l) then pullLoop st ls
    else
      let r := getJoinSet cfg st (cfg.leftKey l)
      do
        let out ← joined cfg l r.1
        let rest ← pullLoop r.2 ls
        pure (out ++ rest.1, rest.2)

/-- `Pull` on a fresh operator: the batch of everything up to the left end of stream, nil when
that is empty. -/
def pull (rs ls : List (Value T)) : Except E (Option (List (Value T))) :=
  (pullLoop cfg ⟨rs, none, []⟩ ls).map fun r => if r.1.isEmpty then none else some r.1

/-- The right records whose key equals `key`, in right order. -/
def matchSet (rs : List (Value T)) (key : Value T) : List (Value T) :=
  rs.filter fun r => !cfg.isMissing (cfg.rightKey r) && cfg.compare key (cfg.rightKey r) = .eq

/-- What the nested-loop join emits for a left record against its matches: the left record
when there are none, unless the join is inner; nothing when there are some and the join is
an anti join; otherwise the splice of the left record with each match cut, in order. -/
def emitMatches (l : Value T) : List (Value T) → Except E (List (Value T))
  | [] => .ok (if cfg.inner then [] else [l])
  | m :: ms => if cfg.anti then .ok [] else (m :: ms).mapM fun r => cfg.splice l (cfg.cutter r)

/-- The nested-loop join: for each left record with a key, in left order, what it emits
against all right records of an equal key, stopping at the first failed splice. -/
def nestedLoop (rs : List (Value T)) : List (Value T) → Except E (List (Value T))
  | [] => .ok []
  | l :: ls => do
    let out ← if cfg.isMissing (cfg.leftKey l) then .ok []
      else emitMatches cfg l (matchSet cfg rs (cfg.leftKey l))
    let rest ← nestedLoop rs ls
    pure (out ++ rest)

theorem joined_eq_emitMatches (l : Value T) (ms : List (Value T)) :
    joined cfg l ms = emitMatches cfg l ms := by
  cases ms <;> rfl

def Ascending (key : Evaluator T) (recs : List (Value T)) : Prop :=
  ((recs.map key).filter fun k => !cfg.isMissing k).Pairwise fun a b => cfg.compare a b ≠ .gt

instance (key : Evaluator T) (recs : List (Value T)) : Decidable (Ascending cfg key recs) :=
  inferInstanceAs (Decidable (List.Pairwise _ _))

/-- Each key that is not missing is at most the next one. -/
def NonDecreasing (key : Evaluator T) (recs : List (Value T)) : Prop :=
  ((recs.map key).filter fun k => !cfg.isMissing k).Chain' fun a b => cfg.compare a b ≠ .gt

theorem nonDecreasing_iff_ascending [TransCmp cfg.compare] (key : Evaluator T)
    (recs : List (Value T)) : NonDecreasing cfg key recs ↔ Ascending cfg key recs :=
  haveI : IsTrans (Value T) fun a b => cfg.compare a b ≠ .gt := ⟨fun _ _ _ => TransCmp.le_trans⟩
  List.chain'_iff_pairwise

instance [TransCmp cfg.compare] (key : Evaluator T) (recs : List (Value T)) :
    Decidable (NonDecreasing cfg key recs) :=
  decidable_of_iff _ (nonDecreasing_iff_ascending cfg key recs).symm

section Keys

variable {cfg}

theorem ascending_cons {key : Evaluator T} {r : Value T} {rs : List (Value T)}
    (h : Ascending cfg key (r :: rs)) :
    Ascending cfg key rs ∧ (cfg.isMissing (key r) = false →
      ∀ r' ∈ rs, cfg.isMissing (key r') = false → cfg.compare (key r) (key r') ≠ .gt) := by
  unfold Ascending at *
  by_cases hr : cfg.isMissing (key r) = false
  · simp only [List.map_cons, List.filter_cons, hr, Bool.not_false, if_true,
      List.pairwise_cons] at h
    refine ⟨h.2, fun _ r' hr' hm => h.1 _ ?_⟩
    exact List.mem_filter.mpr ⟨List.mem_map_of_mem key hr', by simp [hm]⟩
  · simp only [Bool.not_eq_false] at hr
    simp only [List.map_cons, List.filter_cons, hr, Bool.not_true, Bool.false_eq_true,
      if_false] at h
    exact ⟨h, fun e => absurd e (by simp [hr])⟩

theorem ne_gt_of_eq {x y : Value T} (h : cfg.compare x y = .eq) : cfg.compare x y ≠ .gt := by
  rw [h]; exact nofun

theorem ascending_append_right {key : Evaluator T} {pre rs : List (Value T)}
    (h : Ascending cfg key (pre ++ rs)) : Ascending cfg key rs := by
  induction pre with
  | nil => exact h
  | cons r pre ih => exact ih (ascending_cons h).1

theorem matchSet_cons_of_eq {rec : Value T} {x : Value T} (rest : List (Value T))
    (hm : cfg.isMissing (cfg.rightKey rec) = false) (he : cfg.compare x (cfg.rightKey rec) = .eq) :
    matchSet cfg (rec :: rest) x = rec :: matchSet cfg rest x := by
  simp [matchSet, List.filter_cons, hm, he]

theorem matchSet_cons_of_ne {rec : Value T} {x : Value T} (rest : List (Value T))
    (he : cfg.isMissing (cfg.rightKey rec) = true ∨ cfg.compare x (cfg.rightKey rec) ≠ .eq) :
    matchSet cfg (rec :: rest) x = matchSet cfg rest x := by
  rcases he with he | he <;> simp [matchSet, List.filter_cons, he]

theorem matchSet_eq_nil {x : Value T} {rs : List (Value T)}
    (h : ∀ r ∈ rs, cfg.isMissing (cfg.rightKey r) = false → cfg.compare x (cfg.rightKey r) ≠ .eq) :
    matchSet cfg rs x = [] :=
  List.filter_eq_nil_iff.mpr fun r hr hm => by
    simp only [Bool.and_eq_true, Bool.not_eq_true', decide_eq_true_eq] at hm
    exact h r hr hm.1 hm.2

theorem matchSet_append (pre rs : List (Value T)) (x : Value T) :
    matchSet cfg (pre ++ rs) x = matchSet cfg pre x ++ matchSet cfg rs x :=
  List.filter_append _ _

private theorem keyed_cons {P : Value T → Prop} {rec : Value T} {d : List (Value T)}
    (hrec : cfg.isMissing (cfg.rightKey rec) = false → P rec)
    (hd : ∀ r ∈ d, cfg.isMissing (cfg.rightKey r) = false → P r) :
    ∀ r ∈ rec :: d, cfg.isMissing (cfg.rightKey r) = false → P r
  | _, .head _, h => hrec h
  | r, .tail _ hr, h => hd r hr h

end Keys

section Right

variable {cfg} [hc : TransCmp cfg.compare]

theorem matchSet_congr {x y : Value T} (hxy : cfg.compare x y = .eq) (rs : List (Value T)) :
    matchSet cfg rs x = matchSet cfg rs y := by
  simp only [matchSet, TransCmp.cmp_congr_left hxy]

theorem matchSet_eq_nil_of_lt {x rec : Value T} {rest : List (Value T)}
    (hasc : Ascending cfg cfg.rightKey (rec :: rest)) (hm : cfg.isMissing (cfg.rightKey rec) = false)
    (hlt : cfg.compare x (cfg.rightKey rec) = .lt) : matchSet cfg (rec :: rest) x = [] :=
  matchSet_eq_nil <| keyed_cons (fun _ => by simp [hlt]) fun r hr hmr => by
    simp [TransCmp.lt_le_trans hlt ((ascending_cons hasc).2 hm r hr hmr)]

/-- `readJoinSet` on a list whose keys are all at least the join key reads exactly its
matches, and what it reads has keys equal to the join key. -/
theorem readJoinSet_spec {x : Value T} :
    ∀ {right : List (Value T)}, Ascending cfg cfg.rightKey right →
      (∀ r ∈ right, cfg.isMissing (cfg.rightKey r) = false → cfg.compare x (cfg.rightKey r) ≠ .gt) →
      (readJoinSet cfg x right).1 = matchSet cfg right x ∧
        ∃ dropped, dropped ++ (readJoinSet cfg x right).2 = right ∧
          ∀ r ∈ dropped, cfg.isMissing (cfg.rightKey r) = false →
            cfg.compare (cfg.rightKey r) x = .eq
  | [], _, _ => ⟨rfl, [], rfl, by simp⟩
  | rec :: rest, hasc, hge => by
    obtain ⟨ih, d, hd, hdk⟩ := readJoinSet_spec (ascending_cons hasc).1
      fun r hr => hge r (List.mem_cons_of_mem rec hr)
    cases hm : cfg.isMissing (cfg.rightKey rec) with
    | true =>
      rw [readJoinSet, if_pos hm, ih, matchSet_cons_of_ne rest (Or.inl hm)]
      exact ⟨rfl, rec :: d, by rw [List.cons_append, hd], keyed_cons (by simp [hm]) hdk⟩
    | false =>
      by_cases he : cfg.compare (cfg.rightKey rec) x = .eq
      · simp only [readJoinSet, hm, he, Bool.false_eq_true, if_false, ne_eq, not_true_eq_false]
        exact ⟨by rw [ih, matchSet_cons_of_eq rest hm (OrientedCmp.cmp_eq_eq_symm.mp he)], rec :: d,
          by rw [List.cons_append, hd], keyed_cons (fun _ => he) hdk⟩
      · have hlt : cfg.compare x (cfg.rightKey rec) = .lt := by
          match h : cfg.compare x (cfg.rightKey rec) with
          | .lt => rfl
          | .eq => exact absurd (OrientedCmp.cmp_eq_eq_symm.mp h) he
          | .gt => exact absurd h (hge rec (List.mem_cons_self rec rest) hm)
        simp only [readJoinSet, hm, Bool.false_eq_true, if_false, ne_eq, he, not_false_eq_true,
          if_true]
        exact ⟨(matchSet_eq_nil_of_lt hasc hm hlt).symm, [], rfl, by simp⟩

/-- The seek reads the matches of its key, drops only right records with keys up to it, and
caches the key with its set when the set is not empty. -/
theorem seekJoinSet_spec (x : Value T) (jk : Option (Value T)) (js : List (Value T)) :
    ∀ {right : List (Value T)}, Ascending cfg cfg.rightKey right →
      (seekJoinSet cfg x jk js right).1 = matchSet cfg right x ∧
      (∃ dropped, dropped ++ (seekJoinSet cfg x jk js right).2.right = right ∧
        ∀ r ∈ dropped, cfg.isMissing (cfg.rightKey r) = false →
          cfg.compare (cfg.rightKey r) x ≠ .gt) ∧
      ((seekJoinSet cfg x jk js right).2.joinKey, (seekJoinSet cfg x jk js right).2.joinSet) =
        if (matchSet cfg right x).isEmpty then (jk, js) else (some x, matchSet cfg right x)
  | [], _ => ⟨rfl, ⟨[], rfl, by simp⟩, by simp [seekJoinSet, matchSet]⟩
  | rec :: rest, hasc => by
    obtain ⟨ih1, ⟨d, hd, hdk⟩, ih3⟩ := seekJoinSet_spec x jk js (ascending_cons hasc).1
    cases hm : cfg.isMissing (cfg.rightKey rec) with
    | true =>
      simp only [seekJoinSet, if_pos hm, matchSet_cons_of_ne rest (Or.inl hm)]
      exact ⟨ih1, ⟨rec :: d, by rw [List.cons_append, hd], keyed_cons (by simp [hm]) hdk⟩, ih3⟩
    | false =>
      match hx : cfg.compare x (cfg.rightKey rec) with
      | .eq =>
        have hge : ∀ r ∈ rec :: rest, cfg.isMissing (cfg.rightKey r) = false →
            cfg.compare x (cfg.rightKey r) ≠ .gt := keyed_cons (fun _ => by simp [hx])
          fun r hr hmr => TransCmp.le_trans (by simp [hx]) ((ascending_cons hasc).2 hm r hr hmr)
        obtain ⟨e1, d', hd', hdk'⟩ := readJoinSet_spec hasc hge
        have hne : (matchSet cfg (rec :: rest) x).isEmpty = false := by
          rw [matchSet_cons_of_eq rest hm hx]; rfl
        simp only [seekJoinSet, hm, Bool.false_eq_true, if_false, hx, hne, e1]
        exact ⟨trivial, ⟨d', hd', fun r hr hmr => by simp [hdk' r hr hmr]⟩, trivial⟩
      | .lt =>
        simp only [seekJoinSet, hm, Bool.false_eq_true, if_false, hx,
          matchSet_eq_nil_of_lt hasc hm hx, List.isEmpty_nil, if_true]
        exact ⟨trivial, ⟨[], rfl, by simp⟩, trivial⟩
      | .gt =>
        have hne : cfg.compare x (cfg.rightKey rec) ≠ .eq := by simp [hx]
        simp only [seekJoinSet, hm, Bool.false_eq_true, if_false, hx,
          matchSet_cons_of_ne rest (Or.inr hne)]
        exact ⟨ih1, ⟨rec :: d, by rw [List.cons_append, hd],
          keyed_cons (fun _ => by simp [OrientedCmp.cmp_eq_gt.mp hx]) hdk⟩, ih3⟩

end Right

/-- What `Pull` keeps between left records, after the left key `p` (none before the first):
the right records the peeker has read lie below `p` or in the cached block, whose key equals
`p`, and the cache holds the matches of a key up to `p`. -/
structure Inv (rs : List (Value T)) (p : Option (Value T)) (st : State T) : Prop where
  /-- The peeker's records are what is left of the right input after what it has read. -/
  suffix : ∃ pre, pre ++ st.right = rs ∧
    ∀ r ∈ pre, cfg.isMissing (cfg.rightKey r) = false → ∃ q, p = some q ∧
      (cfg.compare (cfg.rightKey r) q = .lt ∨
        ∃ k, st.joinKey = some k ∧ cfg.compare (cfg.rightKey r) k = .eq ∧ cfg.compare k q = .eq)
  /-- The cached set is the match set of its key, which is at most `p`. -/
  cached : ∀ k, st.joinKey = some k →
    st.joinSet = matchSet cfg rs k ∧ ∃ q, p = some q ∧ cfg.compare k q ≠ .gt

theorem inv_init (rs : List (Value T)) : Inv cfg rs none (⟨rs, none, []⟩ : State T) :=
  ⟨⟨[], rfl, by simp⟩, by simp⟩

section Pull

variable {cfg} [hc : TransCmp cfg.compare] {rs : List (Value T)}

theorem inv_cached {p : Option (Value T)} {st : State T} {x k : Value T} (hinv : Inv cfg rs p st)
    (hpx : ∀ q, p = some q → cfg.compare q x ≠ .gt) (hk : st.joinKey = some k)
    (hxk : cfg.compare x k = .eq) :
    st.joinSet = matchSet cfg rs x ∧ Inv cfg rs (some x) st := by
  obtain ⟨⟨pre, hpre, hbelow⟩, hcache⟩ := hinv
  have hkx := OrientedCmp.cmp_eq_eq_symm.mp hxk
  refine ⟨(hcache k hk).1.trans (matchSet_congr hkx rs), ⟨pre, hpre, ?_⟩, ?_⟩
  · intro r hr hmr
    obtain ⟨q, rfl, h | ⟨k', hk', hrk, -⟩⟩ := hbelow r hr hmr
    · exact ⟨x, rfl, .inl (TransCmp.lt_le_trans h (hpx q rfl))⟩
    · cases hk.symm.trans hk'
      exact ⟨x, rfl, .inr ⟨k, hk, hrk, hkx⟩⟩
  · intro k' hk'
    cases hk.symm.trans hk'
    exact ⟨(hcache k hk).1, x, rfl, ne_gt_of_eq hkx⟩

theorem Inv.read_lt {p : Option (Value T)} {st : State T} {x : Value T} (hinv : Inv cfg rs p st)
    (hpx : ∀ q, p = some q → cfg.compare q x ≠ .gt)
    (hmiss : ∀ k, st.joinKey = some k → cfg.compare x k ≠ .eq) :
    ∃ pre, pre ++ st.right = rs ∧
      ∀ r ∈ pre, cfg.isMissing (cfg.rightKey r) = false → cfg.compare (cfg.rightKey r) x = .lt := by
  obtain ⟨pre, hpre, hbelow⟩ := hinv.suffix
  refine ⟨pre, hpre, fun r hr hmr => ?_⟩
  obtain ⟨q, rfl, h | ⟨k, hk, hrk, hkq⟩⟩ := hbelow r hr hmr
  · exact TransCmp.lt_le_trans h (hpx q rfl)
  · rw [TransCmp.cmp_congr_left hrk]
    match h : cfg.compare k x with
    | .lt => rfl
    | .eq => exact absurd (OrientedCmp.cmp_eq_eq_symm.mp h) (hmiss k hk)
    | .gt => exact absurd h (TransCmp.le_trans (ne_gt_of_eq hkq) (hpx q rfl))

theorem inv_seek {p : Option (Value T)} {st : State T} {x : Value T}
    (hasc : Ascending cfg cfg.rightKey rs) (hinv : Inv cfg rs p st)
    (hpx : ∀ q, p = some q → cfg.compare q x ≠ .gt)
    (hmiss : ∀ k, st.joinKey = some k → cfg.compare x k ≠ .eq) :
    (seekJoinSet cfg x st.joinKey st.joinSet st.right).1 = matchSet cfg rs x ∧
      Inv cfg rs (some x) (seekJoinSet cfg x st.joinKey st.joinSet st.right).2 := by
  obtain ⟨pre, hpre, hlt⟩ := hinv.read_lt hpx hmiss
  have hms : matchSet cfg rs x = matchSet cfg st.right x := by
    have hpre0 : matchSet cfg pre x = [] := matchSet_eq_nil fun r hr hm => by
      rw [OrientedCmp.cmp_eq_gt.mpr (hlt r hr hm)]; exact nofun
    rw [← hpre, matchSet_append, hpre0, List.nil_append]
  obtain ⟨e1, ⟨d, hd, hdk⟩, e3⟩ :=
    seekJoinSet_spec x st.joinKey st.joinSet
      (ascending_append_right (hpre ▸ hasc))
  refine ⟨e1.trans hms.symm, ⟨pre ++ d, by rw [List.append_assoc, hd, hpre], ?_⟩, ?_⟩
  · intro r hr hmr
    refine ⟨x, rfl, ?_⟩
    rcases List.mem_append.mp hr with hr | hr
    · exact .inl (hlt r hr hmr)
    match h : cfg.compare (cfg.rightKey r) x with
    | .lt => exact .inl rfl
    | .gt => exact absurd h (hdk r hr hmr)
    | .eq =>
      have hmem : r ∈ matchSet cfg st.right x := List.mem_filter.mpr
        ⟨hd ▸ List.mem_append_left _ hr, by simp [hmr, OrientedCmp.cmp_eq_eq_symm.mp h]⟩
      have hne : (matchSet cfg st.right x).isEmpty = false :=
        List.isEmpty_eq_false.mpr (List.ne_nil_of_mem hmem)
      simp only [hne, Bool.false_eq_true, if_false, Prod.mk.injEq] at e3
      exact .inr ⟨x, e3.1, h, OrientedCmp.cmp_refl⟩
  · intro k hk
    cases hE : (matchSet cfg st.right x).isEmpty <;>
      simp only [hE, Bool.false_eq_true, if_false, if_true, Prod.mk.injEq] at e3 <;>
      rw [e3.1] at hk
    · cases hk
      exact ⟨e3.2.trans hms.symm, x, rfl, ne_gt_of_eq OrientedCmp.cmp_refl⟩
    · obtain ⟨hs, q, rfl, hkq⟩ := hinv.cached k hk
      exact ⟨e3.2.trans hs, x, rfl, TransCmp.le_trans hkq (hpx q rfl)⟩

/-- `getJoinSet` returns the match set of a key at least the previous one, and keeps the
invariant. -/
theorem getJoinSet_spec {p : Option (Value T)} {st : State T} {x : Value T}
    (hasc : Ascending cfg cfg.rightKey rs) (hinv : Inv cfg rs p st)
    (hpx : ∀ q, p = some q → cfg.compare q x ≠ .gt) :
    (getJoinSet cfg st x).1 = matchSet cfg rs x ∧ Inv cfg rs (some x) (getJoinSet cfg st x).2 := by
  unfold getJoinSet
  split
  · next k hk =>
    split
    · exact inv_cached hinv hpx hk ‹_›
    · exact inv_seek hasc hinv hpx fun k' hk' => by cases hk.symm.trans hk'; assumption
  · next hk => exact inv_seek hasc hinv hpx fun k' hk' => by cases hk.symm.trans hk'

private theorem map_fst_append {out : List (Value T)} (P : Except E (List (Value T) × State T)) :
    (P >>= fun rest => pure (out ++ rest.1, rest.2)).map Prod.fst =
      (P.map Prod.fst >>= fun rest => pure (out ++ rest)) := by
  cases P <;> rfl

/-- From a state with the invariant, over left records whose keys ascend from `p` on, the
loop of `Pull` emits the nested-loop join of the left records it reads. -/
theorem pullLoop_spec (hasc : Ascending cfg cfg.rightKey rs) :
    ∀ {ls : List (Value T)} {p : Option (Value T)} {st : State T},
      Ascending cfg cfg.leftKey ls → Inv cfg rs p st →
      (∀ q, p = some q → ∀ l ∈ ls, cfg.isMissing (cfg.leftKey l) = false →
        cfg.compare q (cfg.leftKey l) ≠ .gt) →
      (pullLoop cfg st ls).map Prod.fst = nestedLoop cfg rs ls
  | [], _, _, _, _, _ => rfl
  | l :: ls, p, st, hl, hinv, hp => by
    have hl' := ascending_cons hl
    cases hm : cfg.isMissing (cfg.leftKey l) with
    | true =>
      simp only [pullLoop, nestedLoop, if_pos hm, ok_bind, List.nil_append, bind_pure]
      exact pullLoop_spec hasc hl'.1 hinv fun q hq l' h => hp q hq l' (List.mem_cons_of_mem l h)
    | false =>
      obtain ⟨e1, hinv'⟩ :=
        getJoinSet_spec hasc hinv fun q hq => hp q hq l (List.mem_cons_self l ls) hm
      have ih := pullLoop_spec hasc hl'.1 hinv' fun q hq => by cases hq; exact hl'.2 hm
      simp only [pullLoop, nestedLoop, hm, Bool.false_eq_true, if_false, e1, joined_eq_emitMatches,
        ← ih]
      cases emitMatches cfg l (matchSet cfg rs (cfg.leftKey l)) with
      | error e => rfl
      | ok out => exact map_fst_append _

end Pull

/-- The merge join is the nested-loop join: on left and right inputs whose keys ascend under
the comparator, the batch `Pull` returns up to the left end of stream holds the records of
the nested-loop join, and a failed splice is the nested loop's first failure. -/
theorem pull_eq_nestedLoop [TransCmp cfg.compare] {ls rs : List (Value T)}
    (hl : NonDecreasing cfg cfg.leftKey ls) (hr : NonDecreasing cfg cfg.rightKey rs) :
    (pull cfg rs ls).map (fun batch => batch.getD []) = nestedLoop cfg rs ls := by
  rw [← pullLoop_spec ((nonDecreasing_iff_ascending cfg _ rs).mp hr)
    ((nonDecreasing_iff_ascending cfg _ ls).mp hl) (inv_init cfg rs) (by simp), pull]
  cases pullLoop cfg ⟨rs, none, []⟩ ls with
  | error e => rfl
  | ok r => rcases r with ⟨_ | _, _⟩ <;> rfl

section Example

open Aggregate.Concrete

/-- `Splice` of two flat records: the fields of both, the bodies end to end. -/
def spliceRecords (l r : Value Ty) : Except Unit (Value Ty) :=
  match l.typ, r.typ, l.bytes, r.bytes with
  | .record lf, .record rf, some lb, some rb => .ok ⟨.record (lf ++ rf), some (lb ++ rb)⟩
  | _, _, _, _ => .error ()

def joinOnX : Config Ty Unit where
  anti := false
  inner := true
  leftKey := dotted .x
  rightKey := dotted .x
  isMissing v := v == missing
  compare := compareValues
  cutter r := record [(.y, dotted .y r)]
  splice := spliceRecords

instance : TransCmp joinOnX.compare := inferInstanceAs (TransCmp compareValues)

/-- Repeated left keys, a left record without a key, right keys that no left key reaches. -/
theorem pull_eq_nestedLoop_joinOnX :
    NonDecreasing joinOnX joinOnX.leftKey
        [ints [(.x, 1)], ints [(.y, 0)], ints [(.x, 1)], ints [(.x, 3)]] ∧
      NonDecreasing joinOnX joinOnX.rightKey
        [ints [(.x, 0), (.y, 5)], ints [(.x, 1), (.y, 6)], ints [(.x, 1), (.y, 7)],
          ints [(.x, 2), (.y, 8)], ints [(.x, 3), (.y, 9)]] ∧
      (pull joinOnX
          [ints [(.x, 0), (.y, 5)], ints [(.x, 1), (.y, 6)], ints [(.x, 1), (.y, 7)],
            ints [(.x, 2), (.y, 8)], ints [(.x, 3), (.y, 9)]]
          [ints [(.x, 1)], ints [(.y, 0)], ints [(.x, 1)], ints [(.x, 3)]]).map
          (fun batch => batch.getD []) =
        nestedLoop joinOnX
          [ints [(.x, 0), (.y, 5)], ints [(.x, 1), (.y, 6)], ints [(.x, 1), (.y, 7)],
            ints [(.x, 2), (.y, 8)], ints [(.x, 3), (.y, 9)]]
          [ints [(.x, 1)], ints [(.y, 0)], ints [(.x, 1)], ints [(.x, 3)]] :=
  ⟨by decide, by decide, pull_eq_nestedLoop joinOnX (by decide) (by decide)⟩

end Example

end SuperRuntime.Join
