import SuperRuntime.Lister

/-!
The lister's `Pull` (runtime/sam/op/meta) and the slicer reading from it. The first call sorts
the snapshot's objects with `initObjectScan`; each call then marshals objects from the front
until one passes the pruner and returns it as a batch of one value. A marshal error is kept
and returned by every later call; after the last object every call returns nil. A snapshot
that selects no objects leaves the lister's objects a nil slice, which every call scans again.
Over the lister the slicer cuts the sorted, unpruned objects into ordered partitions, wherever
`lessFunc` is a strict weak order on the objects.
-/

namespace SuperRuntime.Lister

open Slicer Batteries

/-- What `Pull` reads of a `Lister` and never changes: the pool's comparator
(`NewValueCompareFn(o, o.NullsMax(true))`) and order, the objects `snap.Select(nil, o)`
returns, the marshaler and the pruner. -/
structure Config (T V : Type) where
  cmp : CompareFn T
  desc : Bool
  selected : List (Object T)
  marshal : Object T → Except String V
  prune : V → Bool

/-- The fields of `Lister` that `Pull` changes: the slice of objects left, `none` for a nil
slice, as before the first call, and the error kept. -/
structure State (T : Type) where
  objects : Option (List (Object T))
  err : Option String

/-- `NewSortedListerFromSnap`. -/
def State.fresh {T : Type} : State T := ⟨none, none⟩

variable {T V : Type} (c : Config T V)

/-- `initObjectScan`. -/
def initObjectScan : List (Object T) := sortObjects c.cmp c.desc c.selected

/-- The slice `initObjectScan` returns: `snap.Select(nil, o)` appends to a nil slice, which
stays nil when the snapshot selects no objects. -/
def scanSlice : Option (List (Object T)) := if c.selected.isEmpty then none else some (initObjectScan c)

/-- The loop of `Pull`: marshal the first object and drop it; return it as a batch of one
value unless the pruner drops it. -/
def pullLoop : List (Object T) → Except String (Option (List V)) × List (Object T)
  | [] => (.ok none, [])
  | o :: os =>
    match c.marshal o with
    | .error e => (.error e, os)
    | .ok val => if !c.prune val then (.ok (some [val]), os) else pullLoop os

/-- `Lister.Pull`, which does not read `done`. A nil slice of objects is scanned again; the loop
leaves it nil when the scan is nil, and slicing a non-nil slice never gives a nil one. -/
def pull (s : State T) : Except String (Option (List V)) × State T :=
  match s.err with
  | some e => (.error e, s)
  | none =>
    match s.objects <|> scanSlice c with
    | none => (.ok none, s)
    | some objects =>
      let r := pullLoop c objects
      match r.1 with
      | .error e => (.error e, ⟨some r.2, some e⟩)
      | .ok b => (.ok b, ⟨some r.2, none⟩)

/-- Calls of `Pull` until it returns nil or an error, at most `fuel` of them: the batches
returned, or the error. -/
def pullAll : Nat → State T → Except String (List (List V))
  | 0, _ => .ok []
  | n + 1, s =>
    match pull c s with
    | (.error e, _) => .error e
    | (.ok none, _) => .ok []
    | (.ok (some b), s') => (pullAll n s').map (b :: ·)

section Step

variable {c}

theorem pullLoop_cons_prune {o : Object T} {val : V} (os : List (Object T))
    (hm : c.marshal o = .ok val) (hp : c.prune val = true) : pullLoop c (o :: os) = pullLoop c os := by
  simp [pullLoop, hm, hp]

end Step

/-- The run lemma: from a state holding the objects `os` and no error, with a call for each
object and one more, `Pull` returns the batches of the marshalled objects the pruner keeps,
or the first marshal error. -/
theorem pullAll_some : ∀ (os : List (Object T)) (n : Nat), os.length + 1 ≤ n →
    pullAll c n ⟨some os, none⟩ =
      (os.mapM c.marshal).map fun vals => (vals.filter fun v => !c.prune v).map ([·])
  | [], n, hn => by
    obtain ⟨m, rfl⟩ : ∃ m, n = m + 1 := ⟨n - 1, by simp at hn; omega⟩
    rfl
  | o :: os, n, hn => by
    obtain ⟨m, rfl⟩ : ∃ m, n = m + 1 := ⟨n - 1, by simp at hn; omega⟩
    rw [List.mapM_cons]
    cases hm : c.marshal o with
    | error e => simp [pullAll, pull, pullLoop, hm, Except.map]
    | ok val =>
      cases hp : c.prune val
      · have ih := pullAll_some os m (by simp at hn; omega)
        simp only [pullAll, pull, pullLoop, hm, hp, Option.some_orElse, Bool.not_false, if_true] at ih ⊢
        rw [ih]
        cases os.mapM c.marshal <;> simp [Except.map, hp]
      · have ih := pullAll_some os (m + 1) (by simp at hn; omega)
        have hstep : pull c ⟨some (o :: os), none⟩ = pull c ⟨some os, none⟩ := by
          simp only [pull, Option.some_orElse, pullLoop_cons_prune os hm hp]
        simp only [pullAll, hstep] at ih ⊢
        rw [ih]
        cases os.mapM c.marshal <;> simp [Except.map, hp]

/-- The first call sorts the snapshot: a fresh lister runs as one holding the sorted objects,
the nil scan of an empty snapshot as the empty list. -/
theorem pullAll_fresh (n : Nat) : pullAll c n .fresh = pullAll c n ⟨some (initObjectScan c), none⟩ := by
  cases n with
  | zero => rfl
  | succ n =>
    cases h : c.selected with
    | nil =>
      have he : initObjectScan c = [] := by rw [initObjectScan, h]; rfl
      simp [pullAll, pull, scanSlice, State.fresh, h, he, pullLoop]
    | cons o os => simp [pullAll, pull, scanSlice, State.fresh, h]

section Example

open Aggregate.Concrete

def fourListed : Config Ty (Object Ty) where
  cmp := compareValues
  desc := false
  selected := [⟨3, int .int64 7, int .int64 8⟩, ⟨1, int .int64 1, int .int64 3⟩,
    ⟨4, int .int64 8, int .int64 9⟩, ⟨2, int .int64 2, int .int64 5⟩]
  marshal := .ok
  prune o := o.id == 2

end Example

/-- The lister's scan: from a fresh lister, with a call for each object of the snapshot and one
more, the calls of `Pull` return, one batch of one value each, the marshalled objects of the
sorted snapshot that the pruner keeps, in order; a marshal error ends the scan with the first
one. -/
theorem pullAll_fresh_scan (fuel : Nat) (hfuel : c.selected.length + 1 ≤ fuel) :
    pullAll c fuel .fresh =
      ((initObjectScan c).mapM c.marshal).map fun vals => (vals.filter fun v => !c.prune v).map ([·]) := by
  have hlen : (initObjectScan c).length = c.selected.length := (insertionSort_perm _ _).length_eq
  rw [pullAll_fresh, pullAll_some c _ fuel (by omega)]

theorem pullAll_fresh_scan_fourListed :
    fourListed.selected.length + 1 ≤ 5 ∧ pullAll fourListed 5 .fresh =
      ((initObjectScan fourListed).mapM fourListed.marshal).map
        fun vals => (vals.filter fun v => !fourListed.prune v).map ([·]) :=
  ⟨by decide, pullAll_fresh_scan fourListed 5 (by decide)⟩

open Aggregate.Concrete in
example : pullAll fourListed 5 .fresh =
    .ok [[⟨1, int .int64 1, int .int64 3⟩], [⟨3, int .int64 7, int .int64 8⟩], [⟨4, int .int64 8, int .int64 9⟩]] :=
  rfl

section Slicing

variable {c} {cmp : CompareFn T}

theorem mapM_marshal_ok {enc : Object T → V} :
    ∀ {os : List (Object T)}, (∀ o ∈ os, c.marshal o = .ok (enc o)) → os.mapM c.marshal = .ok (os.map enc)
  | [], _ => rfl
  | o :: os, h => by
    rw [List.mapM_cons, h o (List.mem_cons_self _ _),
      mapM_marshal_ok fun o' ho => h o' (List.mem_cons_of_mem _ ho)]
    rfl

theorem orientedCmp_of_dir [OrientedCmp cmp] (hcmp : ∀ a b, c.cmp a b = if c.desc then cmp b a else cmp a b) :
    OrientedCmp c.cmp :=
  ⟨fun x y => by
    rw [hcmp, hcmp]
    cases c.desc <;> simp only [Bool.false_eq_true, if_false, if_true] <;> exact OrientedCmp.symm _ _⟩

theorem poolSorted_of_leadingSorted (hcmp : ∀ a b, c.cmp a b = if c.desc then cmp b a else cmp a b)
    {os : List (Object T)} (h : LeadingSorted c.cmp c.desc os) : PoolSorted cmp c.desc os :=
  h.imp fun a b hab => by
    cases hd : c.desc <;> simpa [hd, leading, hcmp, poolLe] using hab

end Slicing

/-- The slicer reading from the lister: on a snapshot of objects with min at most max, on which
`lessFunc` is a strict weak order under the lister's comparator, which is the slicer's
ascending one reversed for a descending pool, and with a marshaler that the slicer's
unmarshaler inverts, the lister's calls of `Pull` and then the slicer's return partitions that
hold the snapshot's objects the pruner keeps, each once, in the lister's order; each partition
carries the span of its objects, lies wholly before the next, and is linked by overlaps. -/
theorem slicer_over_lister {cmp : CompareFn T} [TransCmp cmp] (enc : Object T → V) (dec : V → Object T)
    (fuel fuel' : Nat) (hcmp : ∀ a b, c.cmp a b = if c.desc then cmp b a else cmp a b)
    (hvalid : ∀ o ∈ c.selected, cmp o.min o.max ≠ .gt)
    (hsw : StrictWeakOn (lessFunc c.cmp c.desc) c.selected)
    (hmarshal : ∀ o ∈ c.selected, c.marshal o = .ok (enc o)) (hdec : ∀ o ∈ c.selected, dec (enc o) = o)
    (hfuel : c.selected.length + 1 ≤ fuel) (hfuel' : c.selected.length + 2 ≤ fuel') :
    ∃ bs ps, pullAll c fuel .fresh = .ok bs ∧ Slicer.pullAll cmp fuel' .fresh (bs.map (·.map dec)) = .ok ps ∧
      (ps.map Partition.objects).flatten = (initObjectScan c).filter (fun o => !c.prune (enc o)) ∧
      (ps.map Partition.objects).flatten.Perm (c.selected.filter fun o => !c.prune (enc o)) ∧
      (∀ p ∈ ps, SpanOf cmp p.objects (p.min, p.max)) ∧ ps.Chain' (Precedes cmp c.desc) ∧
      ∀ p ∈ ps, Linked cmp p.objects := by
  haveI := orientedCmp_of_dir hcmp
  obtain ⟨⟨hperm, -⟩, hlead⟩ := sortObjects_leadingSorted c.cmp c.desc c.selected hsw
  have hmem : ∀ o ∈ initObjectScan c, o ∈ c.selected := fun o ho => hperm.subset ho
  set kept := (initObjectScan c).filter fun o => !c.prune (enc o)
  have hkmem : ∀ o ∈ kept, o ∈ c.selected := fun o ho => hmem o (List.mem_of_mem_filter ho)
  have hlen0 : (initObjectScan c).length = c.selected.length := hperm.length_eq
  have hlen : kept.length ≤ c.selected.length := hlen0 ▸ (List.filter_sublist _).length_le
  -- the lister's batches, and the objects the slicer unmarshals from them
  have hrun : pullAll c fuel .fresh = .ok (kept.map fun o => [enc o]) := by
    rw [pullAll_fresh, pullAll_some c _ fuel (by omega), mapM_marshal_ok fun o ho => hmarshal o (hmem o ho)]
    simp [kept, List.filter_map, Function.comp_def, Except.map]
  have hin : (kept.map fun o => [enc o]).map (·.map dec) = kept.map ([·]) := by
    simp only [List.map_map]
    exact List.map_congr_left fun o ho => by simp [hdec o (hkmem o ho)]
  have hsorted : kept.Pairwise (poolLe cmp c.desc) :=
    ((poolSorted_iff_pairwise cmp c.desc _).mp (poolSorted_of_leadingSorted hcmp hlead)).filter _
  obtain ⟨ps, hslice, hcov⟩ := pullAll_covers cmp kept fuel' (tracks_fresh cmp) (by omega)
  have hflat : (ps.map Partition.objects).flatten = kept := hcov.flatten
  have hspan : ∀ p ∈ ps, SpanOf cmp p.objects (p.min, p.max) := fun p hp => spanOf_of_span (hcov.spans p hp)
  refine ⟨_, ps, hrun, hin ▸ hslice, hflat, hflat ▸ hperm.filter _, hspan,
    chain_precedes c.desc hspan (hflat ▸ fun o ho => hvalid o (hkmem o ho)) (hflat ▸ hsorted) hcov.cuts,
    hcov.linked⟩

theorem slicer_over_lister_fourListed :
    (∀ a b, fourListed.cmp a b = if fourListed.desc then Aggregate.Concrete.compareValues b a
        else Aggregate.Concrete.compareValues a b) ∧
      (∀ o ∈ fourListed.selected, Aggregate.Concrete.compareValues o.min o.max ≠ .gt) ∧
      StrictWeakOn (lessFunc fourListed.cmp fourListed.desc) fourListed.selected ∧
      fourListed.selected.length + 2 ≤ 6 ∧
      ∃ bs ps, pullAll fourListed 5 .fresh = .ok bs ∧
        Slicer.pullAll Aggregate.Concrete.compareValues 6 .fresh (bs.map (·.map id)) = .ok ps ∧
        (ps.map Partition.objects).flatten = (initObjectScan fourListed).filter (fun o => !fourListed.prune o) ∧
        (ps.map Partition.objects).flatten.Perm (fourListed.selected.filter fun o => !fourListed.prune o) ∧
        (∀ p ∈ ps, SpanOf Aggregate.Concrete.compareValues p.objects (p.min, p.max)) ∧
        ps.Chain' (Precedes Aggregate.Concrete.compareValues fourListed.desc) ∧
        ∀ p ∈ ps, Linked Aggregate.Concrete.compareValues p.objects :=
  ⟨fun _ _ => rfl, by decide, by decide, by decide,
    slicer_over_lister fourListed id id 5 6 (fun _ _ => rfl) (by decide) (by decide) (fun _ _ => rfl)
      (fun _ _ => rfl) (by decide) (by decide)⟩

end SuperRuntime.Lister
