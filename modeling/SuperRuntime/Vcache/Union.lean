import SuperRuntime.Value

/-!
Union columns in the vector cache (runtime/vcache). A union vector keeps one tag per row, the
index of the member vector that holds the row. The stored column has tags for its non-null
rows only, so `union.project` rebuilds a tag for every row: a null row gets the tag of a new
last member, a null constant with one entry per null row, and every other row takes the next
stored tag. `Spread` says which tag vectors that loop may build; the layout of the projected
union is read off it.
-/

namespace SuperRuntime.Vcache

/-- `bitvec.Bits`, a type declared outside src/: `none` is `bitvec.Zero`, which has no bitmap
and length 0, and `some bs` has the bit of row `i` at position `i`. -/
abbrev Bits := Option (List Bool)

/-- `IsZero`: the bitmap is `bitvec.Zero`. -/
def Bits.isZero : Bits → Bool
  | none => true
  | some _ => false

/-- The bits `IsSet(i)` for `i` in `0 ..< Len()`. -/
def Bits.rows : Bits → List Bool
  | none => []
  | some bs => bs

/-- `Len`. -/
def Bits.len (b : Bits) : Nat := b.rows.length

/-- `IsSet`. -/
def Bits.isSet (b : Bits) (i : Nat) : Bool := b.rows.getD i false

/-- What `project` asks of the vector package and of the type context. -/
structure Env (V T : Type) where
  /-- `vector.Any.Len` -/
  len : V → Nat
  /-- `vector.Any.Type` -/
  typeOf : V → T
  /-- `super.Context.LookupTypeUnion` -/
  lookupTypeUnion : List T → T

/-- A member vector of a projected union: one a shadow projected, or a constant. -/
inductive Member (V T : Type)
  | vec (v : V)
  /-- `vector.NewConst(val, len, bitvec.Zero)` -/
  | const (val : Value T) (len : Nat)

def Member.len {V T : Type} (len : V → Nat) : Member V T → Nat
  | vec v => len v
  | const _ n => n

/-- `vector.NewUnion(typ, tags, vecs, nulls)`. -/
structure Union (V T : Type) where
  typ : T
  tags : List Nat
  vecs : List (Member V T)
  nulls : Bits

/-- The variables of the loop that rebuilds the tags: the tags built so far, the count of
null rows and the stored tags not read yet. -/
structure Expansion where
  newtags : List Nat
  nullcount : Nat
  tags : List Nat

/-- One turn of the loop at a row whose null bit is `isSet`: a null row gets tag `n`, any other
row takes `tags[0]` and drops it, and `tags[0]` of an empty slice panics. -/
def expandRow (n : Nat) (s : Expansion) (isSet : Bool) : Except Fault Expansion :=
  if isSet then .ok ⟨s.newtags ++ [n], s.nullcount + 1, s.tags⟩
  else
    match s.tags with
    | [] => .error .indexRange
    | t :: rest => .ok ⟨s.newtags ++ [t], s.nullcount, rest⟩

/-- The loop `for i := range nulls.Len()`, over the bits `nulls.IsSet(i)`. -/
def expandRows (n : Nat) : List Bool → Expansion → Except Fault Expansion
  | [], s => .ok s
  | b :: bs, s => expandRow n s b >>= expandRows n bs

variable {V T : Type}

/-- `union.project`, from the member vectors its shadows projected and the tags and nulls
`union.load` returned. -/
def project (env : Env V T) (members : List V) (tags : List Nat) (nulls : Bits) :
    Except Fault (Union V T) :=
  let vecs := members.map Member.vec
  let utyp := env.lookupTypeUnion (members.map env.typeOf)
  if nulls.isZero then .ok ⟨utyp, tags, vecs, nulls⟩
  else do
    let s ← expandRows members.length nulls.rows ⟨[], 0, tags⟩
    .ok ⟨utyp, s.newtags, vecs ++ [.const ⟨utyp, none⟩ s.nullcount], nulls⟩

inductive Spread (m : Nat) : List Bool → List Nat → List Nat → Prop
  | nil : Spread m [] [] []
  | null {bs ts us} : Spread m bs ts us → Spread m (true :: bs) ts (m :: us)
  | value {bs ts us} (t : Nat) : Spread m bs ts us → Spread m (false :: bs) (t :: ts) (t :: us)

/-- With one stored tag per non-null row, the loop never runs out of tags, counts the null
rows and builds a tag vector that spreads the stored tags over the non-null rows. -/
theorem expandRows_spread (n : Nat) :
    ∀ (bs : List Bool) (s : Expansion), s.tags.length = bs.count false →
      ∃ us, Spread n bs s.tags us ∧
        expandRows n bs s = .ok ⟨s.newtags ++ us, s.nullcount + bs.count true, []⟩
  | [], ⟨acc, c, ts⟩, h => by
    obtain rfl : ts = [] := List.length_eq_zero.mp h
    exact ⟨[], .nil, by simp [expandRows]⟩
  | true :: bs, ⟨acc, c, ts⟩, h => by
    obtain ⟨us, hs, he⟩ := expandRows_spread n bs ⟨acc ++ [n], c + 1, ts⟩ (by simpa using h)
    refine ⟨n :: us, .null hs, ?_⟩
    simp only [expandRows, expandRow, if_true, ok_bind, he, List.count_cons_self]
    simp [Nat.add_assoc, Nat.add_comm 1]
  | false :: bs, ⟨acc, c, ts⟩, h => by
    cases ts with
    | nil => simp at h
    | cons t ts =>
      obtain ⟨us, hs, he⟩ := expandRows_spread n bs ⟨acc ++ [t], c, ts⟩ (by simpa using h)
      exact ⟨t :: us, .value t hs, by simpa [expandRows, expandRow] using he⟩

/-- With fewer stored tags than non-null rows, the loop indexes past the end of `tags`. -/
theorem expandRows_short (n : Nat) :
    ∀ (bs : List Bool) (s : Expansion), s.tags.length < bs.count false →
      expandRows n bs s = .error .indexRange
  | [], _, h => by simp at h
  | true :: bs, ⟨acc, c, ts⟩, h =>
    expandRows_short n bs ⟨acc ++ [n], c + 1, ts⟩ (by simpa using h)
  | false :: bs, ⟨acc, c, ts⟩, h => by
    cases ts with
    | nil => rfl
    | cons t ts =>
      simpa [expandRows, expandRow] using
        expandRows_short n bs ⟨acc ++ [t], c, ts⟩ (by simpa using h)

def atClear {α : Type} (xs : List α) (bs : List Bool) : List α :=
  ((xs.zip bs).filter fun p => !p.2).map Prod.fst

namespace Spread

variable {m : Nat} {bs : List Bool} {ts us : List Nat}

theorem length_eq (h : Spread m bs ts us) : us.length = bs.length := by
  induction h <;> simp [*]

theorem atClear_eq (h : Spread m bs ts us) : atClear us bs = ts := by
  induction h <;> simp_all [atClear]

theorem count_of_ne (h : Spread m bs ts us) {k : Nat} (hk : k ≠ m) : us.count k = ts.count k := by
  induction h with
  | nil => rfl
  | null _ ih => simp [List.count_cons, Ne.symm hk, ih]
  | value t _ ih => simp [List.count_cons, ih]

section Tagged

variable (h : Spread m bs ts us) (hts : ∀ t ∈ ts, t < m)
include h hts

theorem getElem?_eq_iff (i : Nat) : us[i]? = some m ↔ bs[i]? = some true := by
  induction h generalizing i with
  | nil => simp
  | null _ ih => cases i <;> simp [ih hts]
  | value t _ ih =>
    have ht : t ≠ m := Nat.ne_of_lt (hts t (List.mem_cons_self t _))
    cases i with
    | zero => simp [ht]
    | succ i => simpa using ih (fun u hu => hts u (List.mem_cons_of_mem t hu)) i

theorem count_self : us.count m = bs.count true := by
  induction h with
  | nil => rfl
  | null _ ih => simp [ih hts]
  | value t _ ih =>
    have ht : t ≠ m := Nat.ne_of_lt (hts t (List.mem_cons_self t _))
    simpa [List.count_cons, ht] using ih (fun u hu => hts u (List.mem_cons_of_mem t hu))

end Tagged

end Spread

/-- A union column as the cache loads it: the member vectors, the null bitmap, and one stored
tag per non-null row naming the member that holds the row, so member `k` is as long as the
number of tags `k`. -/
structure Column (V : Type) (len : V → Nat) where
  members : List V
  tags : List Nat
  nulls : Bits
  tags_length : tags.length = nulls.rows.count false
  tags_lt : ∀ t ∈ tags, t < members.length
  member_len : ∀ k (hk : k < members.length), len members[k] = tags.count k

theorem isSet_iff (b : Bits) (i : Nat) : b.isSet i = true ↔ b.rows[i]? = some true := by
  unfold Bits.isSet
  rw [List.getD_eq_getElem?_getD]
  cases b.rows[i]? <;> simp

private theorem member_len_count (env : Env V T) {members : List V} {us : List Nat}
    (hm : ∀ k (hk : k < members.length), env.len members[k] = us.count k) (extra : List (Member V T))
    (hx : ∀ k (hk : k < extra.length), extra[k].len env.len = us.count (members.length + k))
    (k : Nat) (hk : k < (members.map Member.vec ++ extra).length) :
    (members.map Member.vec ++ extra)[k].len env.len = us.count k := by
  rw [List.getElem_append]
  split <;> rename_i h <;> simp only [List.length_map, List.length_append] at h hk ⊢
  · simpa [Member.len] using hm k h
  · have := hx (k - members.length) (by omega)
    rwa [Nat.add_sub_cancel' (by omega)] at this

/-- `union.project` on a column whose stored tags hold one entry per non-null row: the rebuilt
tags have one entry per row, the new member's tag exactly at the null rows and the stored tags
in order at the others; `tags[0]` never runs past the end; and the null constant appended when
the bitmap is not zero is as long as the number of rows with its tag, so every member is as
long as the number of rows tagged with it. -/
theorem project_expands_nulls (env : Env V T) (c : Column V env.len) :
    ∃ u, project env c.members c.tags c.nulls = .ok u ∧
      u.tags.length = c.nulls.len ∧
      (∀ i < c.nulls.len, u.tags[i]? = some c.members.length ↔ c.nulls.isSet i = true) ∧
      atClear u.tags c.nulls.rows = c.tags ∧
      u.vecs = c.members.map Member.vec ++
        (if c.nulls.isZero then [] else [.const ⟨u.typ, none⟩ (u.tags.count c.members.length)]) ∧
      ∀ k (hk : k < u.vecs.length), u.vecs[k].len env.len = u.tags.count k := by
  obtain ⟨members, tags, nulls, hlen, hlt, hmem⟩ := c
  let utyp := env.lookupTypeUnion (members.map env.typeOf)
  cases nulls with
  | none =>
    have htags : tags = [] := List.length_eq_zero.mp hlen
    subst htags
    refine ⟨⟨utyp, [], members.map Member.vec, none⟩, rfl, rfl,
      fun i hi => by simp [Bits.len, Bits.rows] at hi, rfl, by simp [Bits.isZero],
      by simpa using member_len_count env hmem [] (fun k hk => by simp at hk)⟩
  | some bs =>
    obtain ⟨us, hs, he⟩ := expandRows_spread members.length bs ⟨[], 0, tags⟩ hlen
    have hcount := hs.count_self hlt
    refine ⟨⟨utyp, us, members.map Member.vec ++ [.const ⟨utyp, none⟩ (bs.count true)], some bs⟩,
      by simp [project, Bits.isZero, Bits.rows, he, utyp], hs.length_eq, fun i _ => ?_,
      hs.atClear_eq, by simp [Bits.isZero, hcount], ?_⟩
    · rw [isSet_iff]
      exact hs.getElem?_eq_iff hlt i
    · refine member_len_count env (fun k hk => ?_) _ (fun k hk => ?_)
      · rw [hmem k hk, hs.count_of_ne (Nat.ne_of_lt hk)]
      · simp at hk
        simp [hk, Member.len, hcount]

def lengthsEnv : Env Nat Unit := ⟨id, fun _ => (), fun _ => ()⟩

def twoMembers : Column Nat lengthsEnv.len :=
  ⟨[1, 1], [1, 0], some [false, true, false], by decide, by decide, by decide⟩

theorem project_expands_nulls_twoMembers :
    ∃ u, project lengthsEnv twoMembers.members twoMembers.tags twoMembers.nulls = .ok u ∧
      u.tags.length = twoMembers.nulls.len ∧
      (∀ i < twoMembers.nulls.len,
        u.tags[i]? = some twoMembers.members.length ↔ twoMembers.nulls.isSet i = true) ∧
      atClear u.tags twoMembers.nulls.rows = twoMembers.tags ∧
      u.vecs = twoMembers.members.map Member.vec ++
        (if twoMembers.nulls.isZero then []
          else [.const ⟨u.typ, none⟩ (u.tags.count twoMembers.members.length)]) ∧
      ∀ k (hk : k < u.vecs.length), u.vecs[k].len lengthsEnv.len = u.tags.count k :=
  project_expands_nulls lengthsEnv twoMembers

example : Union.tags <$> project lengthsEnv twoMembers.members twoMembers.tags twoMembers.nulls =
    .ok [1, 2, 0] := rfl

end SuperRuntime.Vcache
