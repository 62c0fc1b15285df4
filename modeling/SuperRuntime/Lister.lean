import SuperRuntime.Slicer

/-!
The object order of the lister (runtime/sam/op/meta). `sortObjects` sorts a snapshot's data
objects with `sort.SliceStable` under `lessFunc`, which compares the leading endpoints with the
pool's comparator and, when their bytes are equal, the trailing ones. Go's stable sort is an
insertion sort on slices of at most 20 elements and merges insertion-sorted blocks of 20 on
longer ones; the model sorts by insertion at every length, which is exact wherever `lessFunc`
is a strict weak order, since a stable sort of distinct objects then has one result. There
`sortObjects` sorts by the leading endpoint and keeps the snapshot order of equal objects. It
is no strict weak order where two leading endpoints share their bytes but compare unequal, an
int64 and a uint64 with one zcode body: `lessFunc` then orders the objects by their trailing
endpoints, and the sort moves an object with the greater leading endpoint first.
-/

namespace SuperRuntime.Lister

open Zcode Slicer Batteries

section Sorting

variable {α : Type} (less : α → α → Bool)

/-- The inner loop of `insertionSort_func`: the new element swaps with its left neighbour while
it is less than it. The sorted prefix is kept reversed, its head the rightmost element. -/
def siftDown (x : α) : List α → List α
  | [] => [x]
  | y :: ys => if less x y then y :: siftDown x ys else x :: y :: ys

/-- The outer loop of `insertionSort_func`, with the sorted prefix so far reversed in `acc`. -/
def insertionSortAcc (acc : List α) : List α → List α
  | [] => acc
  | x :: xs => insertionSortAcc (siftDown less x acc) xs

/-- `insertionSort_func(data, 0, n)`. -/
def insertionSort (xs : List α) : List α := (insertionSortAcc less [] xs).reverse

/-- `sort.SliceStable`, that is `stable_func`: on at most 20 elements one insertion sort of the
whole slice. On longer slices Go sorts blocks of 20 so and merges them with `symMerge`; the
model keeps the insertion sort there too, which is exact whenever `less` is a strict weak order
on the elements, since a stable sort then has one possible result. -/
def sliceStable (xs : List α) : List α := insertionSort less xs

theorem siftDown_split (x : α) : ∀ acc : List α, ∃ l₁ l₂, acc = l₁ ++ l₂ ∧
    siftDown less x acc = l₁ ++ x :: l₂ ∧ ∀ y ∈ l₁, less x y = true
  | [] => ⟨[], [], rfl, rfl, by simp⟩
  | y :: ys => by
    by_cases h : less x y
    · obtain ⟨l₁, l₂, rfl, he, hl⟩ := siftDown_split x ys
      exact ⟨y :: l₁, l₂, rfl, by simp [siftDown, h, he], by simpa [h] using hl⟩
    · exact ⟨[], y :: ys, rfl, by simp [siftDown, h], by simp⟩

theorem siftDown_perm (x : α) (acc : List α) : (siftDown less x acc).Perm (x :: acc) := by
  obtain ⟨l₁, l₂, rfl, he, -⟩ := siftDown_split less x acc
  exact he ▸ List.perm_middle

theorem insertionSortAcc_perm :
    ∀ (acc xs : List α), (insertionSortAcc less acc xs).Perm (xs.reverse ++ acc)
  | acc, [] => by simp [insertionSortAcc]
  | acc, x :: xs => by
    simpa [insertionSortAcc] using
      (insertionSortAcc_perm (siftDown less x acc) xs).trans
        ((siftDown_perm less x acc).append_left xs.reverse)

theorem insertionSort_perm (xs : List α) : (insertionSort less xs).Perm xs := by
  exact (List.reverse_perm _).trans
    ((insertionSortAcc_perm less [] xs).trans (by simp))

theorem sublist_siftDown {u v : α} (x : α) {acc : List α} (h : [u, v].Sublist acc) :
    [u, v].Sublist (siftDown less x acc) := by
  obtain ⟨l₁, l₂, rfl, he, -⟩ := siftDown_split less x acc
  exact he ▸ h.trans ((List.sublist_cons_self x l₂).append_left l₁)

theorem sublist_insertionSortAcc {u v : α} :
    ∀ {acc : List α} (xs : List α), [u, v].Sublist acc → [u, v].Sublist (insertionSortAcc less acc xs)
  | _, [], h => h
  | _, x :: xs, h => sublist_insertionSortAcc xs (sublist_siftDown less x h)

theorem sublist_siftDown_self {x y : α} {acc : List α} (hx : x ∈ acc) (h : less y x = false) :
    [y, x].Sublist (siftDown less y acc) := by
  obtain ⟨l₁, l₂, rfl, he, hl⟩ := siftDown_split less y acc
  have hx₂ : x ∈ l₂ := (List.mem_append.mp hx).resolve_left fun h₁ => by simp [hl x h₁] at h
  rw [he]
  exact (List.cons_sublist_cons.mpr (List.singleton_sublist.mpr hx₂)).trans
    (List.sublist_append_right l₁ _)

/-- Stability: an element never moves past an earlier one it is not less than. -/
theorem insertionSort_stable {x y : α} (p q r : List α) (h : less y x = false) :
    [x, y].Sublist (insertionSort less (p ++ x :: q ++ y :: r)) := by
  have hx : x ∈ insertionSortAcc less (siftDown less x (insertionSortAcc less [] p)) q :=
    ((insertionSortAcc_perm less _ q).trans (List.perm_append_comm)).mem_iff.mpr
      (List.mem_append_left _ ((siftDown_perm less _ _).mem_iff.mpr (List.mem_cons_self x _)))
  have hacc : ∀ (acc xs ys : List α), insertionSortAcc less acc (xs ++ ys) =
      insertionSortAcc less (insertionSortAcc less acc xs) ys := by
    intro acc xs ys
    induction xs generalizing acc with
    | nil => rfl
    | cons z zs ih => exact ih _
  have hyx := sublist_insertionSortAcc less r (sublist_siftDown_self less hx h)
  simpa [insertionSort, hacc, insertionSortAcc] using List.reverse_sublist.mpr hyx

section Chain

variable {le : α → α → Prop}

theorem head?_siftDown (x : α) (ys : List α) :
    (siftDown less x ys).head? = some x ∨ (siftDown less x ys).head? = ys.head? := by
  cases ys with
  | nil => simp [siftDown]
  | cons y ys => by_cases h : less x y <;> simp [siftDown, h]

theorem chain'_siftDown (x : α) :
    ∀ {acc : List α}, (∀ y ∈ acc, (less x y = true → le x y) ∧ (less x y = false → le y x)) →
      acc.Chain' (flip le) → (siftDown less x acc).Chain' (flip le)
  | [], _, _ => List.chain'_singleton x
  | y :: ys, hc, hch => by
    have hy := hc y (List.mem_cons_self y ys)
    by_cases h : less x y
    · simp only [siftDown, h, if_true]
      refine List.chain'_cons'.mpr ⟨fun z hz => ?_,
        chain'_siftDown x (fun z hz => hc z (List.mem_cons_of_mem y hz)) hch.tail⟩
      rcases head?_siftDown less x ys with he | he <;> rw [he] at hz
      · obtain rfl := Option.some.inj hz.symm
        exact hy.1 h
      · exact List.chain'_cons'.mp hch |>.1 z hz
    · simp only [siftDown, h, if_false, Bool.not_eq_true]
      exact List.Chain'.cons (hy.2 (by simpa using h)) hch

theorem chain'_insertionSortAcc :
    ∀ {acc : List α} (xs : List α),
      (∀ x ∈ xs ++ acc, ∀ y ∈ xs ++ acc, (less x y = true → le x y) ∧ (less x y = false → le y x)) →
      acc.Chain' (flip le) → (insertionSortAcc less acc xs).Chain' (flip le)
  | _, [], _, hch => hch
  | acc, x :: xs, hc, hch => by
    have hmem : ∀ z ∈ xs ++ siftDown less x acc, z ∈ (x :: xs) ++ acc := fun z hz => by
      simp only [List.mem_append, (siftDown_perm less x acc).mem_iff, List.cons_append,
        List.mem_cons] at hz ⊢
      tauto
    exact chain'_insertionSortAcc xs (fun a ha b hb => hc a (hmem a ha) b (hmem b hb))
      (chain'_siftDown less x (fun y hy => hc x (by simp) y (by simp [hy])) hch)

/-- The sort's output is sorted by `le` when `less` decides `le` on every pair of inputs: a
pair it calls less is in `le`, and a pair it does not is in `le` the other way. -/
theorem insertionSort_chain' {xs : List α}
    (hc : ∀ x ∈ xs, ∀ y ∈ xs, (less x y = true → le x y) ∧ (less x y = false → le y x)) :
    (insertionSort less xs).Chain' le := by
  rw [insertionSort, List.chain'_reverse]
  exact chain'_insertionSortAcc less xs (by simpa using hc) List.chain'_nil

end Chain

/-- `less` is a strict weak order on the elements of `xs`, as Go's sort package asks of a less
function: it is asymmetric, and when it holds between two elements it holds between a third
one and one of them. -/
def StrictWeakOn (xs : List α) : Prop :=
  ∀ a ∈ xs, ∀ b ∈ xs, ∀ c ∈ xs,
    (less a b = true → less b a = false) ∧ (less a c = true → less a b = true ∨ less b c = true)

instance (xs : List α) : Decidable (StrictWeakOn less xs) := by
  unfold StrictWeakOn; infer_instance

/-- What a stable sort of `xs` returns: a permutation of it, in which no element is less than
an earlier one, and which keeps in order two elements of `xs` the later of which is not less
than the earlier. -/
def StableSorted (xs ys : List α) : Prop :=
  ys.Perm xs ∧ ys.Pairwise (fun a b => less b a = false) ∧
    ∀ x ∈ xs, ∀ y ∈ xs, [x, y].Sublist xs → less y x = false → [x, y].Sublist ys

instance [DecidableEq α] (xs ys : List α) : Decidable (StableSorted less xs ys) := by
  unfold StableSorted; infer_instance

theorem pair_sublist_or {a b : α} (hab : a ≠ b) :
    ∀ {xs : List α}, a ∈ xs → b ∈ xs → [a, b].Sublist xs ∨ [b, a].Sublist xs
  | x :: xs, ha, hb => by
    rcases List.mem_cons.mp ha with rfl | ha'
    · exact .inl ((List.singleton_sublist.mpr ((List.mem_cons.mp hb).resolve_left hab.symm)).cons₂ _)
    rcases List.mem_cons.mp hb with rfl | hb'
    · exact .inr ((List.singleton_sublist.mpr ha').cons₂ _)
    exact (pair_sublist_or hab ha' hb').imp (·.cons _) (·.cons _)

theorem not_pair_sublist_swap {a b : α} :
    ∀ {xs : List α}, xs.Nodup → [a, b].Sublist xs → ¬ [b, a].Sublist xs
  | x :: xs, hnd, hab, hba => by
    have hx : x ∉ xs := (List.nodup_cons.mp hnd).1
    rcases List.sublist_cons_iff.mp hab with hab' | ⟨r, hr, hb⟩ <;>
      rcases List.sublist_cons_iff.mp hba with hba' | ⟨r', hr', -⟩
    · exact not_pair_sublist_swap (List.nodup_cons.mp hnd).2 hab' hba'
    · obtain ⟨rfl, -⟩ := List.cons.inj hr'
      exact hx (hab'.subset (by simp))
    · obtain ⟨rfl, -⟩ := List.cons.inj hr
      exact hx (hba'.subset (by simp))
    · obtain ⟨-, rfl⟩ := List.cons.inj hr
      obtain ⟨rfl, -⟩ := List.cons.inj hr'
      exact hx (hb.subset (by simp))

theorem exists_split_of_pair_sublist {x y : α} {xs : List α} (h : [x, y].Sublist xs) :
    ∃ p q r, xs = p ++ x :: q ++ y :: r := by
  obtain ⟨r₁, r₂, rfl, hx, hy⟩ := List.cons_sublist_iff.mp h
  obtain ⟨p, q, rfl⟩ := List.append_of_mem hx
  obtain ⟨q', r, rfl⟩ := List.append_of_mem (List.singleton_sublist.mp hy)
  exact ⟨p, q ++ q', r, by simp⟩

theorem StableSorted.pairwise_before {xs ys : List α} (hnd : xs.Nodup) (h : StableSorted less xs ys) :
    ys.Pairwise fun a b => less b a = false ∧ (less a b = false → [a, b].Sublist xs) := by
  have hnd' : ys.Nodup := h.1.nodup_iff.mpr hnd
  refine List.pairwise_iff_forall_sublist.mpr fun {a b} hab =>
    ⟨List.pairwise_iff_forall_sublist.mp h.2.1 hab, fun hba => ?_⟩
  have hne : a ≠ b := by simpa using hnd'.sublist hab
  have ha : a ∈ xs := h.1.subset (hab.subset (by simp))
  have hb : b ∈ xs := h.1.subset (hab.subset (by simp))
  exact (pair_sublist_or hne ha hb).resolve_right fun hswap =>
    not_pair_sublist_swap hnd' hab (h.2.2 b hb a ha hswap hba)

/-- A stable sort of distinct elements has one possible result, whatever `less` is. -/
theorem StableSorted.eq {xs ys zs : List α} (hnd : xs.Nodup) (h₁ : StableSorted less xs ys)
    (h₂ : StableSorted less xs zs) : ys = zs :=
  (h₁.1.trans h₂.1.symm).eq_of_sorted
    (fun _ _ _ _ hab hba => absurd (hba.2 hab.1) (not_pair_sublist_swap hnd (hab.2 hba.1)))
    (h₁.pairwise_before less hnd) (h₂.pairwise_before less hnd)

theorem insertionSort_pairwise {xs : List α} (hsw : StrictWeakOn less xs) :
    (insertionSort less xs).Pairwise fun a b => less b a = false := by
  let le : α → α → Prop := fun a b => (a ∈ xs ∧ b ∈ xs) ∧ less b a = false
  haveI : IsTrans α le := ⟨fun a b c hab hbc => ⟨⟨hab.1.1, hbc.1.2⟩, by
    cases h : less c a
    · rfl
    · simpa [hab.2, hbc.2] using (hsw c hbc.1.2 b hab.1.2 a hab.1.1).2 h⟩⟩
  have hc : (insertionSort less xs).Chain' le := insertionSort_chain' less fun x hx y hy =>
    ⟨fun h => ⟨⟨hx, hy⟩, (hsw x hx y hy x hx).1 h⟩, fun h => ⟨⟨hy, hx⟩, h⟩⟩
  exact (List.chain'_iff_pairwise.mp hc).imp (·.2)

/-- Under a strict weak order the insertion sort is a stable sort. -/
theorem insertionSort_stableSorted {xs : List α} (hsw : StrictWeakOn less xs) :
    StableSorted less xs (insertionSort less xs) :=
  ⟨insertionSort_perm less xs, insertionSort_pairwise less hsw, fun x _ y _ hxy h => by
    obtain ⟨p, q, r, rfl⟩ := exists_split_of_pair_sublist hxy
    exact insertionSort_stable less p q r h⟩

/-- The model of `sort.SliceStable` is exact under a strict weak order: on distinct elements,
every stable sort, Go's merge of sorted blocks among them, returns what the model returns. -/
theorem eq_sliceStable_of_stableSorted {xs ys : List α} (hnd : xs.Nodup) (hsw : StrictWeakOn less xs)
    (h : StableSorted less xs ys) : ys = sliceStable less xs :=
  h.eq less hnd (insertionSort_stableSorted less hsw)

end Sorting

theorem eq_sliceStable_of_stableSorted_byKey :
    [(2, 0), (1, 1), (2, 2)].Nodup ∧
      StrictWeakOn (fun a b : Nat × Nat => decide (a.1 < b.1)) [(2, 0), (1, 1), (2, 2)] ∧
      StableSorted (fun a b : Nat × Nat => decide (a.1 < b.1)) [(2, 0), (1, 1), (2, 2)]
        [(1, 1), (2, 0), (2, 2)] ∧
      [(1, 1), (2, 0), (2, 2)] =
        sliceStable (fun a b : Nat × Nat => decide (a.1 < b.1)) [(2, 0), (1, 1), (2, 2)] :=
  ⟨by decide, by decide, by decide, eq_sliceStable_of_stableSorted _ (by decide) (by decide) (by decide)⟩

variable {T : Type} (cmp : CompareFn T)

/-- `bytes.Equal` of two values' bodies: a null's nil body equals an empty one. -/
def bytesEqual (a b : Value T) : Bool := a.bytes.getD [] = b.bytes.getD []

/-- The endpoint an object is sorted by: `Min` for an ascending pool, `Max` for a descending
one; the other is its trailing endpoint. -/
def leading (desc : Bool) (o : Object T) : Value T := if desc then o.max else o.min

def trailing (desc : Bool) (o : Object T) : Value T := if desc then o.min else o.max

/-- `lessFunc` of `sortObjects`. -/
def lessFunc (desc : Bool) (a b : Object T) : Bool :=
  if cmp (leading desc a) (leading desc b) = .lt then true
  else if !bytesEqual (leading desc a) (leading desc b) then false
  else if bytesEqual (trailing desc a) (trailing desc b) then false
  else cmp (trailing desc a) (trailing desc b) = .lt

/-- `sortObjects`. -/
def sortObjects (desc : Bool) (objects : List (Object T)) : List (Object T) :=
  sliceStable (lessFunc cmp desc) objects

def LeadingSorted (desc : Bool) (objects : List (Object T)) : Prop :=
  objects.Chain' fun a b => cmp (leading desc a) (leading desc b) ≠ .gt

theorem lessFunc_false {desc : Bool} {a b : Object T} (h : lessFunc cmp desc a b = false) :
    cmp (leading desc a) (leading desc b) ≠ .lt := by
  unfold lessFunc at h
  split at h
  · cases h
  · assumption

/-- The lister's order, where `lessFunc` is a strict weak order on the objects: `sortObjects`
returns their stable sort, which is non-decreasing in the leading endpoints. -/
theorem sortObjects_leadingSorted [OrientedCmp cmp] (desc : Bool) (objects : List (Object T))
    (hsw : StrictWeakOn (lessFunc cmp desc) objects) :
    StableSorted (lessFunc cmp desc) objects (sortObjects cmp desc objects) ∧
      LeadingSorted cmp desc (sortObjects cmp desc objects) := by
  have h := insertionSort_stableSorted _ hsw
  exact ⟨h, h.2.1.chain'.imp fun _ _ h hgt => lessFunc_false cmp h (OrientedCmp.cmp_eq_gt.mp hgt)⟩

/-- Where it fails: on objects whose leading endpoints have equal bytes but compare greater,
`lessFunc` still says "less" when the trailing endpoints differ in bytes and compare less, so
`sortObjects` moves the object with the greater leading endpoint first. -/
theorem sortObjects_swaps_of_bytesEqual {desc : Bool} {a b : Object T}
    (hgt : cmp (leading desc a) (leading desc b) = .gt)
    (hbytes : bytesEqual (leading desc a) (leading desc b) = true)
    (hto : bytesEqual (trailing desc a) (trailing desc b) = false)
    (hlt : cmp (trailing desc a) (trailing desc b) = .lt) :
    sortObjects cmp desc [b, a] = [a, b] := by
  simp [sortObjects, sliceStable, insertionSort, insertionSortAcc, siftDown, lessFunc, hgt, hbytes,
    hto, hlt]

section Example

inductive IntTy
  | int64
  | uint64
deriving DecidableEq, Repr

/-- The zcode body of an unsigned integer: its little-endian bytes without trailing zeros
(`zcode.AppendCountedUvarint`), at most `k` of them. -/
def countedUvarint : Nat → Nat → Bytes
  | 0, _ => []
  | k + 1, u => if u = 0 then [] else (u % 256).toUInt8 :: countedUvarint k (u / 256)

/-- The code of a signed integer in `zcode.AppendCountedVarint`: twice its magnitude, plus one
when it is negative. -/
def signMagnitude (i : Int) : Nat := if 0 ≤ i then 2 * i.toNat else 2 * (-i).toNat + 1

/-- `super.NewInt64`. -/
def int64 (i : Int) : Value IntTy := ⟨.int64, some (countedUvarint 8 (signMagnitude i))⟩

/-- `super.NewUint64`. -/
def uint64 (u : Nat) : Value IntTy := ⟨.uint64, some (countedUvarint 8 u)⟩

/-- The integer a value stands for, read back from its body (`zcode.DecodeCountedVarint` for an
int64); `none` for null. -/
def intValue (v : Value IntTy) : Option Int :=
  v.bytes.map fun bs =>
    let u : Nat := bs.foldr (fun b acc => b.toNat + 256 * acc) 0
    match v.typ with
    | .uint64 => u
    | .int64 => if u % 2 = 0 then ((u / 2 : Nat) : Int) else -((u / 2 : Nat) : Int)

/-- `expr.NewValueCompareFn(order.Asc, order.NullsLast)` on these integers: by value across the
two types, null last. -/
def intCompare (a b : Value IntTy) : Ordering :=
  match intValue a, intValue b with
  | some x, some y => compare x y
  | some _, none => .lt
  | none, some _ => .gt
  | none, none => .eq

def signedObject : Object IntTy := ⟨1, int64 (-1), uint64 5⟩

def unsignedObject : Object IntTy := ⟨2, uint64 3, uint64 4⟩

/-- On an ascending pool whose snapshot lists the object starting at `int64(-1)` before the one
starting at `uint64(3)`, which is already the order of their leading endpoints, `sortObjects`
swaps them: `-1` and `3` share the zcode body `0x03`, so `lessFunc` compares the trailing
endpoints `4 < 5`, and it is no strict weak order on the two objects. -/
theorem sortObjects_mixed_signedness :
    (∀ o ∈ [signedObject, unsignedObject], intCompare o.min o.max ≠ .gt) ∧
      LeadingSorted intCompare false [signedObject, unsignedObject] ∧
      ¬ StrictWeakOn (lessFunc intCompare false) [signedObject, unsignedObject] ∧
      sortObjects intCompare false [signedObject, unsignedObject] = [unsignedObject, signedObject] ∧
      ¬ LeadingSorted intCompare false (sortObjects intCompare false [signedObject, unsignedObject]) := by
  have hswap : sortObjects intCompare false [signedObject, unsignedObject] = [unsignedObject, signedObject] :=
    @sortObjects_swaps_of_bytesEqual _ intCompare false unsignedObject signedObject rfl rfl rfl rfl
  refine ⟨by decide, ?_, by decide, hswap, ?_⟩ <;>
    simp only [LeadingSorted, hswap, List.chain'_cons, List.chain'_singleton, and_true] <;>
    decide

end Example

end SuperRuntime.Lister
