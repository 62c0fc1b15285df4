import SuperRuntime.Aggregate.InMemory

/-!
Two-stage group-by through partials. A first stage runs on each shard of the input with
partials out; a second stage takes all of the first stage's records, in any order, with
partials in and keys that read the key fields back by name. When no table spills and each
aggregate's partials decompose, the second stage emits what one stage emits on the whole
input. The proof goes through the group-by each stage computes in memory.
-/

namespace SuperRuntime.Aggregate

open Zcode

/-- A group-by as the compiler hands it to `New`: the libraries, the grouping keys, and the
aggregates with their output names. -/
structure GroupBy (T S N : Type) where
  lib : SortLib T
  rlib : RecordLib T N
  keys : List (N × Evaluator T)
  aggNames : List N
  aggs : List (AggFunction T S)

namespace GroupBy

variable {T S N : Type} (q : GroupBy T S N)

def single (limit : Nat) : Config T S := new q.lib q.rlib q.keys q.aggNames q.aggs limit 0 false false

def first (limit : Nat) : Config T S := new q.lib q.rlib q.keys q.aggNames q.aggs limit 0 false true

def second (limit : Nat) : Config T S :=
  new q.lib q.rlib (q.keys.map fun k => (k.1, q.rlib.dotted k.1)) q.aggNames q.aggs limit 0 true false

/-- The second stage reads a first-stage record back: its keys give the key tuple, and its
aggregate references give the partials. -/
def ReadsBack (t vals : List (Value T)) : Prop :=
  (q.keys.map fun k => q.rlib.dotted k.1 (groupRecord (q.first 0) t vals)) = t ∧
    (q.aggNames.map fun n => q.rlib.dotted n (groupRecord (q.first 0) t vals)) = vals

section Stages

variable [DecidableEq T] (env : Env T S)

omit [DecidableEq T] in
theorem groupRecord_second (l0 l2 : Nat) :
    groupRecord (q.second l2) = groupRecord (q.single l0) := by
  simp only [groupRecord, second, single, new, newAggregator, List.map_map]
  rfl

def partialRecord (l1 : Nat) (sh t : List (Value T)) : Value T :=
  groupRecord (q.first l1) t (groupAggs (q.first l1) (group env (q.first l1) sh t))

omit [DecidableEq T] in
theorem keyTuple_second {l1 l2 : Nat} {t vals : List (Value T)} (hread : q.ReadsBack t vals)
    (hq : t.any env.isQuiet = false) :
    keyTuple env (q.second l2) (groupRecord (q.first l1) t vals) = some t := by
  have hk : (q.second l2).keyExprs.map (· (groupRecord (q.first l1) t vals)) = t := by
    simpa [second, new, newAggregator, List.map_map, Function.comp_def] using hread.1
  simp [keyTuple, hk, hq]

omit [DecidableEq T] in
theorem groupAggs_first (l1 : Nat) (g : List (Value T)) :
    groupAggs (q.first l1) g = q.aggs.map fun f => f.resultAsPartial (g.foldl f.apply f.init) := by
  simp [groupAggs, first, finish, new, newAggregator]

end Stages

private theorem flatten_map_ite {α β : Type} (p : α → Prop) [DecidablePred p] (f : α → β) :
    ∀ L : List α, (L.map fun x => if p x then [f x] else []).flatten = (L.filter fun x => p x).map f
  | [] => rfl
  | x :: L => by by_cases h : p x <;> simp [h, flatten_map_ite p f L]

private theorem flatten_map_filter {α β : Type} (p : α → Prop) [DecidablePred p] (f : α → List β)
    (h : ∀ x, ¬ p x → f x = []) :
    ∀ L : List α, ((L.filter fun x => p x).map f).flatten = (L.map f).flatten
  | [] => rfl
  | x :: L => by by_cases hx : p x <;> simp [hx, h x, flatten_map_filter p f h L]

private theorem zipWith_eq_map {α β γ δ ι : Type} (F : α → β → γ) (G : α → γ) (D : β → ι → δ)
    (E : α → ι → δ) (P : ι → Prop) :
    ∀ (fs : List α) (ns : List β), fs.length = ns.length →
      (∀ f ∈ fs, ∀ n, (∀ i, P i → D n i = E f i) → F f n = G f) →
      (∀ i, P i → ns.map (fun n => D n i) = fs.map (fun f => E f i)) →
      List.zipWith F fs ns = fs.map G
  | [], [], _, _, _ => rfl
  | f :: fs, n :: ns, hl, hFG, h => by
    have hd : ∀ i, P i → D n i = E f i ∧ ns.map (fun n => D n i) = fs.map (fun f => E f i) :=
      fun i hi => by simpa using h i hi
    rw [List.zipWith_cons_cons, List.map_cons,
      hFG f (List.mem_cons_self f fs) n (fun i hi => (hd i hi).1),
      zipWith_eq_map F G D E P fs ns (by simpa using hl)
        (fun f' hf' => hFG f' (List.mem_cons_of_mem f hf')) (fun i hi => (hd i hi).2)]
  | [], _ :: _, hl, _, _ => by simp at hl
  | _ :: _, [], hl, _, _ => by simp at hl

section Shards

variable [DecidableEq T] (env : Env T S) {l1 : Nat} {shards : List (List (Value T))}
  {input : List (Value T)}

def ShardsReadBack (l1 : Nat) (shards : List (List (Value T))) : Prop :=
  ∀ sh ∈ shards, ∀ t ∈ tuples env (q.first l1) sh,
    q.ReadsBack t (groupAggs (q.first l1) (group env (q.first l1) sh t))

variable {env} {q}

theorem keyTuple_partialRecord (hread : q.ShardsReadBack env l1 shards) {sh : List (Value T)}
    (hsh : sh ∈ shards) (l2 : Nat) {t : List (Value T)} (ht : t ∈ tuples env (q.first l1) sh) :
    keyTuple env (q.second l2) (q.partialRecord env l1 sh t) = some t := by
  obtain ⟨v, -, hv⟩ := (mem_tuples env _).mp ht
  exact q.keyTuple_second env (hread sh hsh t ht) (keyTuple_eq_some env _ hv).2

theorem filter_groupBy_first (hread : q.ShardsReadBack env l1 shards) {sh : List (Value T)}
    (hsh : sh ∈ shards) (l2 : Nat) (u : List (Value T)) :
    (groupBy env (q.first l1) sh).filter (fun r => keyTuple env (q.second l2) r = some u) =
      if u ∈ tuples env (q.first l1) sh then [q.partialRecord env l1 sh u] else [] := by
  have hfilter : (tuples env (q.first l1) sh).filter
      (fun t => keyTuple env (q.second l2) (q.partialRecord env l1 sh t) = some u) =
      (tuples env (q.first l1) sh).filter (· = u) :=
    List.filter_congr fun t ht => by simp [keyTuple_partialRecord hread hsh l2 ht]
  change ((tuples env (q.first l1) sh).map (q.partialRecord env l1 sh)).filter _ = _
  rw [List.filter_map, Function.comp_def, hfilter]
  split_ifs with hu
  · rw [List.filter_eq, List.count_eq_one_of_mem (nodup_tuples env _ sh) hu]; rfl
  · rw [List.filter_eq_nil_iff.mpr fun t ht h => hu (by simp only [decide_eq_true_eq] at h; exact h ▸ ht)]
    rfl

theorem group_second (hread : q.ShardsReadBack env l1 shards) (l2 : Nat) (u : List (Value T)) :
    group env (q.second l2) (shards.map (groupBy env (q.first l1))).flatten u =
      (shards.filter fun sh => u ∈ tuples env (q.first l1) sh).map
        fun sh => q.partialRecord env l1 sh u := by
  rw [group, List.filter_flatten, List.map_map, Function.comp_def,
    List.map_congr_left fun sh hsh => filter_groupBy_first hread hsh l2 u]
  exact flatten_map_ite _ _ shards

theorem flatten_groups_perm (hsplit : shards.flatten.Perm input) (l0 : Nat) (u : List (Value T)) :
    ((shards.filter fun sh => u ∈ tuples env (q.first l1) sh).map
        fun sh => group env (q.first l1) sh u).flatten.Perm (group env (q.single l0) input u) := by
  rw [flatten_map_filter _ _ (fun sh hu => group_eq_nil env _ hu)]
  have h := hsplit.filter fun v => keyTuple env (q.single l0) v = some u
  rwa [List.filter_flatten] at h

variable {X : List (Value T)}

theorem mem_tuples_second (hread : q.ShardsReadBack env l1 shards)
    (hsplit : shards.flatten.Perm input) (hX : X.Perm (shards.map (groupBy env (q.first l1))).flatten)
    (l0 l2 : Nat) (u : List (Value T)) :
    u ∈ tuples env (q.second l2) X ↔ u ∈ tuples env (q.single l0) input := by
  rw [mem_tuples, mem_tuples]
  constructor
  · rintro ⟨r, hr, hk⟩
    obtain ⟨R, hR, hrR⟩ := List.mem_flatten.mp (hX.subset hr)
    obtain ⟨sh, hsh, rfl⟩ := List.mem_map.mp hR
    obtain ⟨t, ht, rfl⟩ := List.mem_map.mp hrR
    have htu : t = u := Option.some_inj.mp ((keyTuple_partialRecord hread hsh l2 ht).symm.trans hk)
    obtain ⟨v, hv, hkv⟩ := (mem_tuples env _).mp ht
    exact ⟨v, hsplit.subset (List.mem_flatten.mpr ⟨sh, hsh, hv⟩), htu ▸ hkv⟩
  · rintro ⟨v, hv, hk⟩
    obtain ⟨sh, hsh, hvsh⟩ := List.mem_flatten.mp (hsplit.symm.subset hv)
    have ht : u ∈ tuples env (q.first l1) sh := (mem_tuples env _).mpr ⟨v, hvsh, hk⟩
    exact ⟨q.partialRecord env l1 sh u, hX.symm.subset (List.mem_flatten.mpr
      ⟨_, List.mem_map_of_mem _ hsh, List.mem_map_of_mem _ ht⟩), keyTuple_partialRecord hread hsh l2 ht⟩

/-- The second stage finds the distinct key tuples of the whole input. -/
theorem tuples_second_perm (hread : q.ShardsReadBack env l1 shards)
    (hsplit : shards.flatten.Perm input) (hX : X.Perm (shards.map (groupBy env (q.first l1))).flatten)
    (l0 l2 : Nat) : (tuples env (q.second l2) X).Perm (tuples env (q.single l0) input) :=
  (List.perm_ext_iff_of_nodup (nodup_tuples env _ X) (nodup_tuples env _ input)).mpr
    (mem_tuples_second hread hsplit hX l0 l2)

/-- Under the decomposition law, the second stage's aggregates of a tuple are one stage's
aggregates over the tuple's whole group. -/
theorem groupAggs_second (hlen : q.aggNames.length = q.aggs.length)
    (hlaw : ∀ f ∈ q.aggs, ∀ (gs : List (List (Value T))) (g : List (Value T)), gs.flatten.Perm g →
      ∀ ps : List (Value T), ps.Perm (gs.map fun g' => f.resultAsPartial (g'.foldl f.apply f.init)) →
        f.result (ps.foldl f.consumeAsPartial f.init) = f.result (g.foldl f.apply f.init))
    (hread : q.ShardsReadBack env l1 shards) (hsplit : shards.flatten.Perm input)
    (hX : X.Perm (shards.map (groupBy env (q.first l1))).flatten) (l0 l2 : Nat) (u : List (Value T)) :
    groupAggs (q.second l2) (group env (q.second l2) X u) =
      groupAggs (q.single l0) (group env (q.single l0) input u) := by
  have hgroup : (group env (q.second l2) X u).Perm
      ((shards.filter fun sh => u ∈ tuples env (q.first l1) sh).map
        fun sh => q.partialRecord env l1 sh u) := by
    rw [← group_second hread l2 u]
    exact hX.filter _
  simp only [groupAggs, second, single, new, newAggregator, finish, if_true, if_false,
    Bool.false_eq_true, List.zipWith_map_right]
  refine zipWith_eq_map _ _ (fun n (i : List (Value T) × List (Value T)) =>
      q.rlib.dotted n (q.partialRecord env l1 i.1 i.2))
    (fun f i => f.resultAsPartial ((group env (q.first l1) i.1 i.2).foldl f.apply f.init))
    (fun i => i.1 ∈ shards ∧ i.2 ∈ tuples env (q.first l1) i.1) _ _ hlen.symm ?_ ?_
  · intro f hf n hD
    have h := hlaw f hf _ _ (flatten_groups_perm hsplit l0 u) _ ((hgroup.map (q.rlib.dotted n)).trans
      (List.Perm.of_eq (by
        rw [List.map_map, List.map_map]
        exact List.map_congr_left fun sh hsh => hD (sh, u) (by simpa using hsh))))
    rwa [List.foldl_map] at h
  · intro i hi
    have h := (hread i.1 hi.1 i.2 hi.2).2
    rwa [groupAggs_first] at h

/-- The second stage's group-by of the first stage's records, in any order, is one stage's
group-by of the whole input. -/
theorem groupBy_second_perm (hlen : q.aggNames.length = q.aggs.length)
    (hlaw : ∀ f ∈ q.aggs, ∀ (gs : List (List (Value T))) (g : List (Value T)), gs.flatten.Perm g →
      ∀ ps : List (Value T), ps.Perm (gs.map fun g' => f.resultAsPartial (g'.foldl f.apply f.init)) →
        f.result (ps.foldl f.consumeAsPartial f.init) = f.result (g.foldl f.apply f.init))
    (hread : q.ShardsReadBack env l1 shards) (hsplit : shards.flatten.Perm input)
    (hX : X.Perm (shards.map (groupBy env (q.first l1))).flatten) (l0 l2 : Nat) :
    (groupBy env (q.second l2) X).Perm (groupBy env (q.single l0) input) := by
  rw [groupBy, groupBy, q.groupRecord_second l0 l2]
  refine ((tuples_second_perm hread hsplit hX l0 l2).map _).trans (List.Perm.of_eq ?_)
  exact List.map_congr_left fun u _ => by rw [groupAggs_second hlen hlaw hread hsplit hX l0 l2 u]

end Shards

private theorem exists_forall₂ {α β : Type} (R : α → β → Prop) :
    ∀ {l : List α}, (∀ x ∈ l, ∃ y, R x y) → ∃ l', List.Forall₂ R l l'
  | [], _ => ⟨[], .nil⟩
  | x :: l, h => by
    obtain ⟨y, hy⟩ := h x (List.mem_cons_self x l)
    obtain ⟨l', hl'⟩ := exists_forall₂ R fun x' hx' => h x' (List.mem_cons_of_mem x hx')
    exact ⟨y :: l', .cons hy hl'⟩

private theorem flatten_perm_of_forall₂ {α β : Type} {f : α → List β} {g : List (List β) → List β}
    {l : List α} {l' : List (List (List β))} (h : List.Forall₂ (fun a b => (g b).Perm (f a)) l l') :
    (l'.map g).flatten.Perm (l.map f).flatten := by
  induction h with
  | nil => exact .nil
  | cons hab _ ih => exact hab.append ih

variable [DecidableEq T] (env : Env T S)

/-- A group-by split in two stages through partials: the first stage, with partials out, on
each shard of the input, then the second stage, with partials in and its keys read back by
name, on all of the first stage's records in any order. With no table spilling, and with
each aggregate's partials decomposing over disjoint groups, the second stage emits the
records one stage emits on the whole input. -/
theorem partials_round_trip (horder : ∀ tab : Table T S, (env.order tab).Perm tab.keys)
    (hlen : q.aggNames.length = q.aggs.length)
    (hlaw : ∀ f ∈ q.aggs, ∀ (gs : List (List (Value T))) (g : List (Value T)), gs.flatten.Perm g →
      ∀ ps : List (Value T), ps.Perm (gs.map fun g' => f.resultAsPartial (g'.foldl f.apply f.init)) →
        f.result (ps.foldl f.consumeAsPartial f.init) = f.result (g.foldl f.apply f.init))
    (shards : List (List (Value T))) (input : List (Value T)) (hsplit : shards.flatten.Perm input)
    (l0 l1 l2 : Nat)
    (hread : ∀ t ∈ tuples env (q.single l0) input, ∀ ss : List S, ss.length = q.aggs.length →
      q.ReadsBack t (List.zipWith (fun f s => f.resultAsPartial s) q.aggs ss))
    (h1 : ∀ sh ∈ shards, (tuples env (q.first l1) sh).length ≤ (q.first l1).limit)
    (h2 : (tuples env (q.single l0) input).length ≤ (q.second l2).limit)
    (h0 : (tuples env (q.single l0) input).length ≤ (q.single l0).limit) :
    ∃ outs, List.Forall₂ (fun sh out => ∃ a, runStream env (q.first l1) .fresh [sh] = .ok (out, a))
        shards outs ∧
      ∀ X : List (Value T), X.Perm (outs.map List.flatten).flatten →
        ∃ out2 a2 out0 a0, runStream env (q.second l2) .fresh [X] = .ok (out2, a2) ∧
          runStream env (q.single l0) .fresh [input] = .ok (out0, a0) ∧
          out2.flatten.Perm out0.flatten := by
  have hread' : q.ShardsReadBack env l1 shards := fun sh hsh t ht => by
    obtain ⟨v, hv, hk⟩ := (mem_tuples env _).mp ht
    have h := hread t ((mem_tuples env _).mpr
      ⟨v, hsplit.subset (List.mem_flatten.mpr ⟨sh, hsh, hv⟩), hk⟩)
      (q.aggs.map fun f => (group env (q.first l1) sh t).foldl f.apply f.init) (by simp)
    rwa [List.zipWith_map_right, List.zipWith_same, ← groupAggs_first] at h
  have hrun : ∀ cfg : Config T S, cfg.inputDir = 0 → ∀ p : List (Value T),
      (tuples env cfg p).length ≤ cfg.limit →
      ∃ out a, runStream env cfg .fresh [p] = .ok (out, a) ∧ out.flatten.Perm (groupBy env cfg p) :=
    fun cfg hdir p hp => by
      simpa using runStream_of_holds env cfg horder hdir (holds_fresh env cfg) [p] (by simpa using hp)
  obtain ⟨outs, houts⟩ := exists_forall₂ (fun sh out =>
      (∃ a, runStream env (q.first l1) .fresh [sh] = .ok (out, a)) ∧
        out.flatten.Perm (groupBy env (q.first l1) sh)) fun sh hsh => by
    obtain ⟨out, a, hr, hp⟩ := hrun _ rfl sh (h1 sh hsh)
    exact ⟨out, ⟨a, hr⟩, hp⟩
  refine ⟨outs, houts.imp fun _ _ h => h.1, fun X hX => ?_⟩
  have hX' := hX.trans (flatten_perm_of_forall₂ (houts.imp fun _ _ h => h.2))
  obtain ⟨out2, a2, hr2, hp2⟩ := hrun (q.second l2) rfl X
    ((q.tuples_second_perm hread' hsplit hX' l0 l2).length_eq ▸ h2)
  obtain ⟨out0, a0, hr0, hp0⟩ := hrun (q.single l0) rfl input h0
  exact ⟨out2, a2, out0, a0, hr2, hr0,
    hp2.trans ((q.groupBy_second_perm hlen hlaw hread' hsplit hX' l0 l2).trans hp0.symm)⟩

open Concrete in
/-- `count() by x`, as the compiler hands it to `New`. -/
def countByX : GroupBy Ty Nat Name := ⟨sortLib, recordLib, [(.x, dotted .x)], [.count], [count]⟩

open Concrete in
def xShards : List (List (Value Ty)) := [[ints [(.x, 1)], ints [(.x, 2)]], [ints [(.x, 1)]]]

theorem partials_round_trip_countByX :
    (∀ tab : Table Concrete.Ty Nat, (Concrete.env.order tab).Perm tab.keys) ∧
    countByX.aggNames.length = countByX.aggs.length ∧
    (∀ f ∈ countByX.aggs, ∀ (gs : List (List (Value Concrete.Ty))) (g : List (Value Concrete.Ty)),
      gs.flatten.Perm g → ∀ ps : List (Value Concrete.Ty),
        ps.Perm (gs.map fun g' => f.resultAsPartial (g'.foldl f.apply f.init)) →
          f.result (ps.foldl f.consumeAsPartial f.init) = f.result (g.foldl f.apply f.init)) ∧
    xShards.flatten.Perm xShards.flatten ∧
    (∀ t ∈ tuples Concrete.env (countByX.single 10) xShards.flatten, ∀ ss : List Nat,
      ss.length = countByX.aggs.length →
        countByX.ReadsBack t (List.zipWith (fun f s => f.resultAsPartial s) countByX.aggs ss)) ∧
    (∀ sh ∈ xShards, (tuples Concrete.env (countByX.first 10) sh).length ≤ (countByX.first 10).limit) ∧
    (tuples Concrete.env (countByX.single 10) xShards.flatten).length ≤ (countByX.second 10).limit ∧
    (tuples Concrete.env (countByX.single 10) xShards.flatten).length ≤ (countByX.single 10).limit ∧
    ∃ outs, List.Forall₂ (fun sh out => ∃ a,
        runStream Concrete.env (countByX.first 10) .fresh [sh] = .ok (out, a)) xShards outs ∧
      ∀ X : List (Value Concrete.Ty), X.Perm (outs.map List.flatten).flatten →
        ∃ out2 a2 out0 a0, runStream Concrete.env (countByX.second 10) .fresh [X] = .ok (out2, a2) ∧
          runStream Concrete.env (countByX.single 10) .fresh [xShards.flatten] = .ok (out0, a0) ∧
          out2.flatten.Perm out0.flatten := by
  have horder : ∀ tab : Table Concrete.Ty Nat, (Concrete.env.order tab).Perm tab.keys :=
    fun _ => List.Perm.refl _
  have hlaw : ∀ f ∈ countByX.aggs, ∀ (gs : List (List (Value Concrete.Ty))) (g : List (Value Concrete.Ty)),
      gs.flatten.Perm g → ∀ ps : List (Value Concrete.Ty),
        ps.Perm (gs.map fun g' => f.resultAsPartial (g'.foldl f.apply f.init)) →
          f.result (ps.foldl f.consumeAsPartial f.init) = f.result (g.foldl f.apply f.init) := by
    intro f hf
    obtain rfl := List.mem_singleton.mp hf
    exact Concrete.count_decomposes
  have hread : ∀ t ∈ tuples Concrete.env (countByX.single 10) xShards.flatten, ∀ ss : List Nat,
      ss.length = countByX.aggs.length →
        countByX.ReadsBack t (List.zipWith (fun f s => f.resultAsPartial s) countByX.aggs ss) := by
    intro t ht ss hss
    obtain ⟨s, rfl⟩ : ∃ s, ss = [s] := match ss, hss with | [s], _ => ⟨s, rfl⟩
    have htuples : tuples Concrete.env (countByX.single 10) xShards.flatten =
        [[Concrete.int .int64 1], [Concrete.int .int64 2]] := by decide
    rw [htuples] at ht
    rcases List.mem_pair.mp ht with rfl | rfl <;> exact ⟨rfl, rfl⟩
  exact ⟨horder, rfl, hlaw, List.Perm.refl _, hread, by decide, by decide, by decide,
    partials_round_trip countByX Concrete.env horder rfl hlaw xShards xShards.flatten
      (List.Perm.refl _) 10 10 10 hread (by decide) (by decide) (by decide)⟩

end GroupBy

end SuperRuntime.Aggregate
