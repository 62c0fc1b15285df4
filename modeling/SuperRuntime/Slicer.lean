import SuperRuntime.Aggregate.Concrete
import Mathlib.Data.List.Chain

/-!
The slicer of runtime/sam/op/meta. `Pull` reads data objects from the lister, one per batch,
and `stash` collects them while each overlaps the span `min`..`max` of those collected; the
first object outside the span closes a partition, and `nextPartition` computes the partition's
span again from its objects. On a pool sorted by its key the partitions cover the input in
order, each is the span of its objects and is linked by overlaps, and they are disjoint and
increasing.
-/

namespace SuperRuntime.Slicer

open Batteries

/-- `data.Object` as the slicer reads it: the pool-key span, and an id for the rest. -/
structure Object (T : Type) where
  id : Nat
  min : Value T
  max : Value T
deriving DecidableEq, Repr

/-- `Partition`: a span and the objects it covers. -/
structure Partition (T : Type) where
  min : Value T
  max : Value T
  objects : List (Object T)
deriving DecidableEq, Repr

/-- The fields of `Slicer` that `Pull` changes. -/
structure State (T : Type) where
  objects : List (Object T)
  min : Option (Value T)
  max : Option (Value T)

/-- `NewSlicer`. -/
def State.fresh {T : Type} : State T := ⟨[], none, none⟩

/-- What `Pull` fails with: its error text, or a panic. -/
inductive Failure
  | error (msg : String)
  | panic (f : Fault)
deriving DecidableEq, Repr

variable {T : Type} (cmp : CompareFn T)

/-- One step of the loop of `nextPartition`: the span widened by an object. -/
def widen (span : Value T × Value T) (o : Object T) : Value T × Value T :=
  (if cmp o.min span.1 = .lt then o.min else span.1,
    if cmp o.max span.2 = .gt then o.max else span.2)

/-- `nextPartition`: the collected objects as a partition with their span, and the objects
emptied; `min` and `max` stay. -/
def nextPartition (s : State T) : Option (Partition T) × State T :=
  match s.objects with
  | [] => (none, s)
  | o :: os =>
    let span := os.foldl (widen cmp) (o.min, o.max)
    (some ⟨span.1, span.2, o :: os⟩, { s with objects := [] })

/-- The test of `stash`: the object lies wholly below or wholly above the span. -/
def outside (span : Value T × Value T) (o : Object T) : Bool :=
  cmp o.max span.1 = .lt || cmp o.min span.2 = .gt

/-- The first half of `stash`: close the partition when the object is outside the span of
the collected ones. A nil bound with objects collected panics. -/
def cut (s : State T) (o : Object T) : Except Fault (Option (Partition T) × State T) :=
  if s.objects.isEmpty then pure (none, s)
  else do
    let mn ← deref s.min
    let out ← if cmp o.max mn = .lt then pure true else do
      let mx ← deref s.max
      pure (decide (cmp o.min mx = .gt))
    if out then
      let r := nextPartition cmp s
      pure (r.1, { r.2 with min := none, max := none })
    else pure (none, s)

/-- The second half of `stash`: collect the object and widen `min` and `max`. -/
def collect (s : State T) (o : Object T) : State T where
  objects := s.objects ++ [o]
  min := match s.min with
    | some m => if cmp m o.min = .gt then some o.min else some m
    | none => some o.min
  max := match s.max with
    | some m => if cmp m o.max = .lt then some o.max else some m
    | none => some o.max

/-- `stash`. -/
def stash (s : State T) (o : Object T) : Except Fault (Option (Partition T) × State T) := do
  let r ← cut cmp s o
  pure (r.1, collect cmp r.2 o)

/-- `Pull`: the parent's batches, each the objects it unmarshals to, until `stash` closes a
partition, or `nextPartition` at the parent's end of stream. Returns the batch, the state and
the parent's batches left. -/
def pull (s : State T) :
    List (List (Object T)) → Except Failure (Option (Partition T) × State T × List (List (Object T)))
  | [] => pure ((nextPartition cmp s).1, (nextPartition cmp s).2, [])
  | [o] :: rest =>
    match stash cmp s o with
    | .error f => .error (.panic f)
    | .ok (some p, s') => pure (some p, s', rest)
    | .ok (none, s') => pull s' rest
  | _ :: _ => .error (.error "system error: Slicer encountered multi-valued batch")

/-- Calls of `Pull` until it returns nil, at most `fuel` of them: the partitions returned. -/
def pullAll : Nat → State T → List (List (Object T)) → Except Failure (List (Partition T))
  | 0, _, _ => pure []
  | n + 1, s, input =>
    match pull cmp s input with
    | .error f => .error f
    | .ok (none, _, _) => pure []
    | .ok (some p, s', rest) => (pullAll n s' rest).map (p :: ·)

/-- The span of a list of objects as `nextPartition` computes it. -/
def span : List (Object T) → Option (Value T × Value T)
  | [] => none
  | o :: os => some (os.foldl (widen cmp) (o.min, o.max))

theorem span_snoc (o : Object T) (os : List (Object T)) (x : Object T) :
    span cmp (o :: os ++ [x]) = (span cmp (o :: os)).map (widen cmp · x) := by
  simp [span, List.foldl_append]

/-- `sp` spans the objects `S`: its low end is the least of their mins and its high end the
greatest of their maxes. -/
structure SpanOf (S : List (Object T)) (sp : Value T × Value T) : Prop where
  min_mem : sp.1 ∈ S.map Object.min
  min_le : ∀ o ∈ S, cmp sp.1 o.min ≠ .gt
  max_mem : sp.2 ∈ S.map Object.max
  le_max : ∀ o ∈ S, cmp o.max sp.2 ≠ .gt

def Linked (objs : List (Object T)) : Prop :=
  ∀ pre x post, objs = pre ++ x :: post → ∀ sp, span cmp pre = some sp → outside cmp sp x = false

section Spans

variable {cmp} [TransCmp cmp]

theorem spanOf_single (o : Object T) : SpanOf cmp [o] (o.min, o.max) where
  min_mem := by simp
  min_le := by simp [OrientedCmp.cmp_refl]
  max_mem := by simp
  le_max := by simp [OrientedCmp.cmp_refl]

private theorem widen_fst {S : List (Object T)} {sp : Value T × Value T} (o : Object T)
    (h1 : sp.1 ∈ S.map Object.min) (h2 : ∀ y ∈ S, cmp sp.1 y.min ≠ .gt) :
    (widen cmp sp o).1 ∈ (S ++ [o]).map Object.min ∧
      ∀ y ∈ S ++ [o], cmp (widen cmp sp o).1 y.min ≠ .gt := by
  simp only [widen, List.mem_append, List.mem_singleton, List.map_append, List.map_cons,
    List.map_nil]
  by_cases hc : cmp o.min sp.1 = .lt
  · simp only [hc, if_true]
    refine ⟨by simp, ?_⟩
    rintro y (hy | rfl)
    · simp [TransCmp.lt_le_trans hc (h2 y hy)]
    · simp [OrientedCmp.cmp_refl]
  · simp only [hc, if_false]
    refine ⟨by simp [h1], ?_⟩
    rintro y (hy | rfl)
    · exact h2 y hy
    · exact fun hgt => hc (OrientedCmp.cmp_eq_gt.mp hgt)

private theorem widen_snd {S : List (Object T)} {sp : Value T × Value T} (o : Object T)
    (h3 : sp.2 ∈ S.map Object.max) (h4 : ∀ y ∈ S, cmp y.max sp.2 ≠ .gt) :
    (widen cmp sp o).2 ∈ (S ++ [o]).map Object.max ∧
      ∀ y ∈ S ++ [o], cmp y.max (widen cmp sp o).2 ≠ .gt := by
  simp only [widen, List.mem_append, List.mem_singleton, List.map_append, List.map_cons,
    List.map_nil]
  by_cases hc : cmp o.max sp.2 = .gt
  · simp only [hc, if_true]
    refine ⟨by simp, ?_⟩
    rintro y (hy | rfl)
    · simp [TransCmp.le_lt_trans (h4 y hy) (OrientedCmp.cmp_eq_gt.mp hc)]
    · simp [OrientedCmp.cmp_refl]
  · simp only [hc, if_false]
    exact ⟨by simp [h3], by rintro y (hy | rfl); exacts [h4 y hy, hc]⟩

theorem spanOf_widen {S : List (Object T)} {sp : Value T × Value T} (o : Object T)
    (h : SpanOf cmp S sp) : SpanOf cmp (S ++ [o]) (widen cmp sp o) :=
  ⟨(widen_fst o h.1 h.2).1, (widen_fst o h.1 h.2).2, (widen_snd o h.3 h.4).1,
    (widen_snd o h.3 h.4).2⟩

theorem spanOf_foldl :
    ∀ (os : List (Object T)) {S : List (Object T)} {sp : Value T × Value T},
      SpanOf cmp S sp → SpanOf cmp (S ++ os) (os.foldl (widen cmp) sp)
  | [], _, _, h => by simpa using h
  | o :: os, S, _, h => by
    simpa using spanOf_foldl os (spanOf_widen o h)

theorem spanOf_of_span {objs : List (Object T)} {sp : Value T × Value T}
    (h : span cmp objs = some sp) : SpanOf cmp objs sp := by
  cases objs with
  | nil => cases h
  | cons o os =>
    cases h
    simpa using spanOf_foldl os (spanOf_single o)

end Spans

section Linked

variable {cmp}

theorem span_append_singleton {objs : List (Object T)} {sp : Value T × Value T}
    (h : span cmp objs = some sp) (x : Object T) :
    span cmp (objs ++ [x]) = some (widen cmp sp x) := by
  cases objs with
  | nil => cases h
  | cons o os => rw [span_snoc, h]; rfl

theorem linked_single (o : Object T) : Linked cmp [o] := by
  rintro (_ | ⟨_, _⟩) x post h sp hsp
  · cases hsp
  · simp at h

theorem linked_snoc {objs : List (Object T)} {x : Object T} (h : Linked cmp objs)
    (hx : ∀ sp, span cmp objs = some sp → outside cmp sp x = false) :
    Linked cmp (objs ++ [x]) := by
  intro pre y post heq
  rcases List.eq_nil_or_concat post with rfl | ⟨L, b, rfl⟩
  · obtain ⟨rfl, hy⟩ := List.append_inj' heq rfl
    cases hy
    exact hx
  · rw [List.concat_eq_append, ← List.cons_append, ← List.append_assoc] at heq
    obtain ⟨rfl, -⟩ := List.append_inj' heq rfl
    exact h pre y L rfl

end Linked

def Tracks (s : State T) : Prop :=
  (s.objects = [] ∧ s.min = none ∧ s.max = none) ∨
    ∃ sp, span cmp s.objects = some sp ∧ s.min = some sp.1 ∧ s.max = some sp.2 ∧
      Linked cmp s.objects

theorem tracks_fresh : Tracks cmp (State.fresh : State T) := .inl ⟨rfl, rfl, rfl⟩

theorem tracks_single (x : Object T) : Tracks cmp ⟨[x], some x.min, some x.max⟩ :=
  .inr ⟨(x.min, x.max), rfl, rfl, rfl, linked_single x⟩

section Stash

variable {cmp}

theorem cut_nil {s : State T} (h : s.objects = []) (x : Object T) : cut cmp s x = .ok (none, s) := by
  simp [cut, h]

theorem cut_span {s : State T} {sp : Value T × Value T} (hs : span cmp s.objects = some sp)
    (hmin : s.min = some sp.1) (hmax : s.max = some sp.2) (x : Object T) :
    cut cmp s x = .ok (if outside cmp sp x then (some ⟨sp.1, sp.2, s.objects⟩, ⟨[], none, none⟩)
      else (none, s)) := by
  obtain ⟨o, os, ho⟩ : ∃ o os, s.objects = o :: os := by
    cases h : s.objects with
    | nil => rw [h] at hs; cases hs
    | cons o os => exact ⟨o, os, rfl⟩
  rw [ho] at hs ⊢
  cases hs
  by_cases h1 : cmp x.max (os.foldl (widen cmp) (o.min, o.max)).1 = .lt <;>
    by_cases h2 : cmp x.min (os.foldl (widen cmp) (o.min, o.max)).2 = .gt <;>
    simp [cut, ho, hmin, hmax, outside, nextPartition, h1, h2]

theorem collect_span [OrientedCmp cmp] {s : State T} {sp : Value T × Value T}
    (hmin : s.min = some sp.1) (hmax : s.max = some sp.2) (x : Object T) :
    collect cmp s x = ⟨s.objects ++ [x], some (widen cmp sp x).1, some (widen cmp sp x).2⟩ := by
  simp only [collect, hmin, hmax, widen, OrientedCmp.cmp_eq_gt]
  congr 1 <;> split <;> rfl

/-- What `stash` does from a tracking state: collect the object, or close the partition of
the collected objects when the object lies outside their span. -/
theorem stash_spec [OrientedCmp cmp] {s : State T} (hs : Tracks cmp s) (x : Object T) :
    (∃ s', stash cmp s x = .ok (none, s') ∧ s'.objects = s.objects ++ [x] ∧ Tracks cmp s') ∨
      ∃ sp, span cmp s.objects = some sp ∧ outside cmp sp x = true ∧
        stash cmp s x = .ok (some ⟨sp.1, sp.2, s.objects⟩, ⟨[x], some x.min, some x.max⟩) := by
  rcases hs with ⟨h0, hmin, hmax⟩ | ⟨sp, hsp, hmin, hmax, hlink⟩
  · refine .inl ⟨_, by simp only [stash, cut_nil h0, ok_bind]; rfl, by simp [collect, h0], ?_⟩
    simpa [collect, h0, hmin, hmax] using tracks_single cmp x
  · cases hout : outside cmp sp x
    · refine .inl ⟨collect cmp s x, by simp [stash, cut_span hsp hmin hmax, hout], rfl, .inr ?_⟩
      rw [collect_span hmin hmax]
      exact ⟨_, span_append_singleton hsp x, rfl, rfl,
        linked_snoc hlink fun sp' h => by rw [hsp] at h; cases h; exact hout⟩
    · exact .inr ⟨sp, hsp, hout, by simp only [stash, cut_span hsp hmin hmax, hout]; rfl⟩

theorem nextPartition_nil {s : State T} (h : s.objects = []) : nextPartition cmp s = (none, s) := by
  simp [nextPartition, h]

theorem nextPartition_span {s : State T} {sp : Value T × Value T}
    (h : span cmp s.objects = some sp) :
    nextPartition cmp s = (some ⟨sp.1, sp.2, s.objects⟩, { s with objects := [] }) := by
  unfold nextPartition
  split <;> simp_all [span]

theorem pull_cons_none {s s' : State T} {x : Object T} (h : stash cmp s x = .ok (none, s'))
    (rest : List (List (Object T))) : pull cmp s ([x] :: rest) = pull cmp s' rest := by
  simp only [pull, h]

theorem pull_cons_some {s s' : State T} {x : Object T} {p : Partition T}
    (h : stash cmp s x = .ok (some p, s')) (rest : List (List (Object T))) :
    pull cmp s ([x] :: rest) = .ok (some p, s', rest) := by
  simp only [pull, h]; rfl

end Stash

/-- What the partitions of a run of `Pull` say of the objects collected before it, `acc`,
and the objects it reads, `os`. -/
structure Covers (acc os : List (Object T)) (ps : List (Partition T)) : Prop where
  /-- The partitions hold the objects, in order. -/
  flatten : (ps.map Partition.objects).flatten = acc ++ os
  /-- Each partition carries the span of its objects. -/
  spans : ∀ p ∈ ps, span cmp p.objects = some (p.min, p.max)
  /-- Each partition's objects are linked by overlaps. -/
  linked : ∀ p ∈ ps, Linked cmp p.objects
  /-- Each partition after the first opens with an object outside the span of the one before. -/
  cuts : ps.Chain' fun P Q => ∃ x, Q.objects.head? = some x ∧ outside cmp (P.min, P.max) x = true

section Covers

variable {cmp}

theorem Covers.head_objects {acc os : List (Object T)} {ps : List (Partition T)}
    (h : Covers cmp acc os ps) : ∀ Q ∈ ps.head?, Q.objects.head? = (acc ++ os).head? := by
  cases ps with
  | nil => simp
  | cons Q ps =>
    rintro _ ⟨⟩
    rw [← h.flatten, List.map_cons, List.flatten_cons, List.head?_append]
    cases hq : Q.objects with
    | nil => simpa [hq, span] using h.spans Q (List.mem_cons_self _ _)
    | cons => rfl

end Covers

/-- The run lemma: from a tracking state, with enough calls, `Pull` returns partitions that
cover the collected objects and the input, each spanned and linked, each cut at an object
outside the span of the one before. -/
theorem pullAll_covers [OrientedCmp cmp] :
    ∀ (os : List (Object T)) {s : State T} (fuel : Nat), Tracks cmp s → os.length + 2 ≤ fuel →
      ∃ ps, pullAll cmp fuel s (os.map ([·])) = .ok ps ∧ Covers cmp s.objects os ps
  | [], s, fuel, hs, hf => by
    obtain ⟨n, rfl⟩ : ∃ n, fuel = n + 2 := ⟨fuel - 2, by simp at hf; omega⟩
    rcases hs with ⟨h0, -, -⟩ | ⟨sp, hsp, -, -, hlink⟩
    · exact ⟨[], by simp [pullAll, pull, nextPartition_nil h0], ⟨by simp [h0], by simp,
        by simp, List.chain'_nil⟩⟩
    · refine ⟨[⟨sp.1, sp.2, s.objects⟩], ?_, ⟨by simp, by simpa using hsp, by simpa using hlink,
        List.chain'_singleton _⟩⟩
      simp [pullAll, pull, nextPartition_span hsp, nextPartition_nil (show ({ s with objects := [] } : State T).objects = [] from rfl)]
      rfl
  | x :: rest, s, fuel, hs, hf => by
    obtain ⟨n, rfl⟩ : ∃ n, fuel = n + 1 := ⟨fuel - 1, by simp at hf; omega⟩
    rcases stash_spec hs x with ⟨s', hst, hobj, hs'⟩ | ⟨sp, hsp, hout, hst⟩
    · obtain ⟨ps, hrun, hcov⟩ := pullAll_covers rest (n + 1) hs' (by simp at hf ⊢; omega)
      refine ⟨ps, by simpa only [List.map_cons, pullAll, pull_cons_none hst] using hrun, ?_⟩
      exact { hcov with flatten := by rw [hcov.flatten, hobj, List.append_assoc]; rfl }
    · have hlink : Linked cmp s.objects := by
        rcases hs with ⟨h0, -, -⟩ | ⟨_, -, -, -, hlink⟩
        · rw [h0] at hsp; cases hsp
        · exact hlink
      obtain ⟨ps, hrun, hcov⟩ := pullAll_covers rest n (tracks_single cmp x) (by simp at hf ⊢; omega)
      refine ⟨⟨sp.1, sp.2, s.objects⟩ :: ps, ?_, ⟨?_, ?_, ?_, ?_⟩⟩
      · simp only [List.map_cons, pullAll, pull_cons_some hst, hrun]; rfl
      · rw [List.map_cons, List.flatten_cons, hcov.flatten]; rfl
      · rintro p (_ | ⟨_, hp⟩)
        · exact hsp
        · exact hcov.spans p hp
      · rintro p (_ | ⟨_, hp⟩)
        · exact hlink
        · exact hcov.linked p hp
      · refine List.chain'_cons'.mpr ⟨fun Q hQ => ⟨x, ?_, hout⟩, hcov.cuts⟩
        rw [hcov.head_objects Q hQ]; rfl

def poolLe (desc : Bool) (a b : Object T) : Prop :=
  if desc then cmp b.max a.max ≠ .gt else cmp a.min b.min ≠ .gt

instance (desc : Bool) (a b : Object T) : Decidable (poolLe cmp desc a b) :=
  inferInstanceAs (Decidable (if desc then _ else _))

def PoolSorted (desc : Bool) (os : List (Object T)) : Prop :=
  os.Chain' (poolLe cmp desc)

theorem poolSorted_iff_pairwise [TransCmp cmp] (desc : Bool) (os : List (Object T)) :
    PoolSorted cmp desc os ↔ os.Pairwise (poolLe cmp desc) :=
  haveI : IsTrans (Object T) (poolLe cmp desc) := ⟨fun a b c hab hbc => by
    cases desc
    · exact TransCmp.le_trans hab hbc
    · exact TransCmp.le_trans hbc hab⟩
  List.chain'_iff_pairwise

instance [TransCmp cmp] (desc : Bool) (os : List (Object T)) :
    Decidable (PoolSorted cmp desc os) :=
  decidable_of_iff _ (poolSorted_iff_pairwise cmp desc os).symm

def Precedes (desc : Bool) (P Q : Partition T) : Prop :=
  if desc then cmp Q.max P.min = .lt else cmp P.max Q.min = .lt

section Order

variable {cmp} [TransCmp cmp]

theorem precedes_of_cut {desc : Bool} {P Q : Partition T} {x : Object T}
    (hP : SpanOf cmp P.objects (P.min, P.max)) (hQ : SpanOf cmp Q.objects (Q.min, Q.max))
    (hx : Q.objects.head? = some x) (hout : outside cmp (P.min, P.max) x = true)
    (hvalid : cmp x.min x.max ≠ .gt) (hsorted : (P.objects ++ Q.objects).Pairwise (poolLe cmp desc)) :
    Precedes cmp desc P Q := by
  obtain ⟨tail, hq⟩ : ∃ tail, Q.objects = x :: tail := by
    cases h : Q.objects with
    | nil => rw [h] at hx; cases hx
    | cons y tail => rw [h] at hx; cases hx; exact ⟨tail, rfl⟩
  rw [List.pairwise_append, hq, List.pairwise_cons] at hsorted
  obtain ⟨-, ⟨hxtail, -⟩, hcross⟩ := hsorted
  have hcross_x := fun a ha => hcross a ha x (List.mem_cons_self x tail)
  simp only [outside, Bool.or_eq_true, decide_eq_true_eq] at hout
  cases desc with
  | false =>
    simp only [poolLe, Bool.false_eq_true, if_false] at hcross_x hxtail
    obtain ⟨a, ha, haP⟩ := List.mem_map.mp hP.min_mem
    obtain ⟨b, hb, hbQ⟩ := List.mem_map.mp hQ.min_mem
    have hxb : cmp x.min b.min ≠ .gt := by
      rw [hq] at hb
      rcases List.mem_cons.mp hb with rfl | hb
      · simp [OrientedCmp.cmp_refl]
      · exact hxtail b hb
    rcases hout with hlt | hgt
    · exact absurd (OrientedCmp.cmp_eq_gt.mpr (haP ▸ hlt))
        (TransCmp.le_trans (hcross_x a ha) hvalid)
    · simp only [Precedes, Bool.false_eq_true, if_false]
      rw [show Q.min = b.min from hbQ.symm]
      exact TransCmp.lt_le_trans (OrientedCmp.cmp_eq_gt.mp hgt) hxb
  | true =>
    simp only [poolLe, if_true] at hcross_x hxtail
    obtain ⟨a, ha, haP⟩ := List.mem_map.mp hP.max_mem
    obtain ⟨b, hb, hbQ⟩ := List.mem_map.mp hQ.max_mem
    have hbx : cmp b.max x.max ≠ .gt := by
      rw [hq] at hb
      rcases List.mem_cons.mp hb with rfl | hb
      · simp [OrientedCmp.cmp_refl]
      · exact hxtail b hb
    rcases hout with hlt | hgt
    · simp only [Precedes, if_true]
      rw [show Q.max = b.max from hbQ.symm]
      exact TransCmp.le_lt_trans hbx hlt
    · exact absurd (haP ▸ hgt) (TransCmp.le_trans hvalid (hcross_x a ha))

/-- Partitions cut as `Pull` cuts them, over a sorted pool, follow one another in order. -/
theorem chain_precedes (desc : Bool) :
    ∀ {ps : List (Partition T)}, (∀ p ∈ ps, SpanOf cmp p.objects (p.min, p.max)) →
      (∀ o ∈ (ps.map Partition.objects).flatten, cmp o.min o.max ≠ .gt) →
      (ps.map Partition.objects).flatten.Pairwise (poolLe cmp desc) →
      ps.Chain' (fun P Q => ∃ x, Q.objects.head? = some x ∧ outside cmp (P.min, P.max) x = true) →
      ps.Chain' (Precedes cmp desc)
  | [], _, _, _, _ => List.chain'_nil
  | [_], _, _, _, _ => List.chain'_singleton _
  | P :: Q :: rest, hspan, hvalid, hsorted, hcuts => by
    obtain ⟨⟨x, hx, hout⟩, hcuts'⟩ := List.chain'_cons.mp hcuts
    simp only [List.map_cons, List.flatten_cons] at hvalid hsorted
    have hxQ : x ∈ Q.objects := List.mem_of_mem_head? hx
    refine List.chain'_cons.mpr ⟨precedes_of_cut (hspan P (by simp)) (hspan Q (by simp)) hx hout
      (hvalid x (by simp [hxQ])) (List.Pairwise.sublist ?_ hsorted), chain_precedes desc
        (fun p hp => hspan p (List.mem_cons_of_mem _ hp)) ?_ ?_ hcuts'⟩
    · exact (List.sublist_append_left _ _).append_left _
    · simp only [List.map_cons, List.flatten_cons]
      exact fun o ho => hvalid o (List.mem_append_right _ ho)
    · simp only [List.map_cons, List.flatten_cons]
      exact List.Pairwise.sublist (List.sublist_append_right _ _) hsorted

end Order

/-- The slicer's partitions: on objects with min at most max, in a pool sorted ascending
(`desc` false) or descending, the calls of `Pull` up to end of stream return partitions that
hold the input in order, each with the least min and greatest max of its objects, each
wholly before the next, and each linked by overlaps. -/
theorem pullAll_partitions [TransCmp cmp] (desc : Bool) (os : List (Object T)) (fuel : Nat)
    (hvalid : ∀ o ∈ os, cmp o.min o.max ≠ .gt) (hsorted : PoolSorted cmp desc os)
    (hfuel : os.length + 2 ≤ fuel) :
    ∃ ps, pullAll cmp fuel .fresh (os.map ([·])) = .ok ps ∧
      (ps.map Partition.objects).flatten = os ∧
      (∀ p ∈ ps, SpanOf cmp p.objects (p.min, p.max)) ∧
      ps.Chain' (Precedes cmp desc) ∧
      ∀ p ∈ ps, Linked cmp p.objects := by
  obtain ⟨ps, hrun, hcov⟩ := pullAll_covers cmp os fuel (tracks_fresh cmp) hfuel
  have hflat : (ps.map Partition.objects).flatten = os := hcov.flatten
  have hspan : ∀ p ∈ ps, SpanOf cmp p.objects (p.min, p.max) :=
    fun p hp => spanOf_of_span (hcov.spans p hp)
  exact ⟨ps, hrun, hflat, hspan,
    chain_precedes desc hspan (hflat ▸ hvalid)
      (hflat ▸ (poolSorted_iff_pairwise cmp desc os).mp hsorted) hcov.cuts, hcov.linked⟩

section Example

open Aggregate.Concrete

def fourObjects : List (Object Ty) :=
  [⟨1, int .int64 1, int .int64 3⟩, ⟨2, int .int64 2, int .int64 5⟩,
    ⟨3, int .int64 7, int .int64 8⟩, ⟨4, int .int64 8, int .int64 9⟩]

theorem pullAll_partitions_fourObjects :
    (∀ o ∈ fourObjects, compareValues o.min o.max ≠ .gt) ∧
      PoolSorted compareValues false fourObjects ∧ fourObjects.length + 2 ≤ 6 ∧
      ∃ ps, pullAll compareValues 6 .fresh (fourObjects.map ([·])) = .ok ps ∧
        (ps.map Partition.objects).flatten = fourObjects ∧
        (∀ p ∈ ps, SpanOf compareValues p.objects (p.min, p.max)) ∧
        ps.Chain' (Precedes compareValues false) ∧
        ∀ p ∈ ps, Linked compareValues p.objects :=
  ⟨by decide, by decide, by decide,
    pullAll_partitions compareValues false fourObjects 6 (by decide) (by decide) (by decide)⟩

example : pullAll compareValues 6 .fresh (fourObjects.map ([·])) =
    .ok [⟨int .int64 1, int .int64 5, fourObjects.take 2⟩,
      ⟨int .int64 7, int .int64 9, fourObjects.drop 2⟩] :=
  rfl

end Example

end SuperRuntime.Slicer
