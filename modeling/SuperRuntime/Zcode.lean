import Mathlib.Data.List.Basic

/-!
The flat value encoding of the zcode package and the uvarints of encoding/binary, as the
group-by operator uses them to build its hash keys. A value is a uvarint tag (zero for null,
the length plus one otherwise) followed by its bytes. Decoding a run of tagged values inverts
encoding, whatever the bytes are, so a key built from n values and a uvarint suffix determines
both the values and the suffix.
-/

namespace SuperRuntime.Zcode

abbrev Bytes := List UInt8

/-- The loop of `binary.AppendUvarint`: seven bits a byte, low group first, the high bit set
on every byte but the last. The fuel bounds the number of groups; the value itself is enough. -/
def uvarintBytes : Nat → Nat → Bytes
  | 0, x => [x.toUInt8]
  | fuel + 1, x =>
    if x < 128 then [x.toUInt8] else (x % 128 + 128).toUInt8 :: uvarintBytes fuel (x / 128)

/-- `binary.AppendUvarint`. -/
def appendUvarint (dst : Bytes) (x : Nat) : Bytes := dst ++ uvarintBytes x x

/-- `binary.Uvarint`: the value and the rest of the buffer, or `none` when the buffer ends
inside the varint. -/
def uvarint : Bytes → Option (Nat × Bytes)
  | [] => none
  | b :: rest =>
    if b.toNat < 128 then some (b.toNat, rest)
    else (uvarint rest).map fun p => (b.toNat - 128 + 128 * p.1, p.2)

/-- `zcode.Append`: the tag, zero for null and the length plus one otherwise, then the bytes. -/
def append (dst : Bytes) : Option Bytes → Bytes
  | none => appendUvarint dst 0
  | some val => appendUvarint dst (val.length + 1) ++ val

/-- `zcode.Iter.Next`: one tagged value and the rest of the buffer. It is `none` where Go
panics, on a bad uvarint or a value running past the end of the buffer. -/
def iterNext (it : Bytes) : Option (Option Bytes × Bytes) :=
  match uvarint it with
  | none => none
  | some (0, rest) => some (none, rest)
  | some (tag + 1, rest) =>
    if tag ≤ rest.length then some (some (rest.take tag), rest.drop tag) else none

/-- `n` calls of `Iter.Next`, as `readTable` makes one per key type. -/
def iterTake : Nat → Bytes → Option (List (Option Bytes) × Bytes)
  | 0, it => some ([], it)
  | n + 1, it =>
    match iterNext it with
    | none => none
    | some (v, rest) => (iterTake n rest).map fun p => (v :: p.1, p.2)

private theorem toNat_toUInt8 {n : Nat} (h : n < 256) : n.toUInt8.toNat = n :=
  UInt8.toNat_ofNat_of_lt h

theorem uvarint_uvarintBytes (fuel x : Nat) (hx : x ≤ fuel) (rest : Bytes) :
    uvarint (uvarintBytes fuel x ++ rest) = some (x, rest) := by
  induction fuel generalizing x with
  | zero =>
    obtain rfl : x = 0 := by omega
    rfl
  | succ fuel ih =>
    by_cases hlt : x < 128
    · simp [uvarintBytes, uvarint, hlt, toNat_toUInt8 (show x < 256 by omega)]
    · have hbyte := toNat_toUInt8 (show x % 128 + 128 < 256 by omega)
      rw [uvarintBytes, if_neg hlt, List.cons_append, uvarint, hbyte, if_neg (by omega),
        ih (x / 128) (by omega)]
      simp only [Option.map_some', Option.some.injEq, Prod.mk.injEq, and_true]
      omega

/-- Reading a uvarint back gives the value that was appended, and leaves the rest alone. -/
@[simp] theorem uvarint_appendUvarint (x : Nat) (rest : Bytes) :
    uvarint (appendUvarint [] x ++ rest) = some (x, rest) :=
  uvarint_uvarintBytes x x le_rfl rest

theorem append_eq (dst : Bytes) (v : Option Bytes) : append dst v = dst ++ append [] v := by
  cases v <;> simp [append, appendUvarint]

@[simp] theorem iterNext_append (v : Option Bytes) (rest : Bytes) :
    iterNext (append [] v ++ rest) = some (v, rest) := by
  cases v with
  | none => simp [append, iterNext]
  | some val =>
    simp only [append, List.append_assoc, iterNext, uvarint_appendUvarint]
    simp

/-- The buffer `Consume` builds from its flat key values: `zcode.Append` of each in turn. -/
def appendAll (vals : List (Option Bytes)) : Bytes := vals.foldl append []

theorem foldl_append (dst : Bytes) (vals : List (Option Bytes)) :
    vals.foldl append dst = dst ++ appendAll vals := by
  induction vals generalizing dst with
  | nil => simp [appendAll]
  | cons v vals ih =>
    simp only [appendAll, List.foldl_cons]
    rw [ih, ih, append_eq dst v, List.append_assoc]

/-- Decoding as many values as were encoded gives them back, and leaves the rest alone. -/
theorem iterTake_appendAll (vals : List (Option Bytes)) (rest : Bytes) :
    iterTake vals.length (appendAll vals ++ rest) = some (vals, rest) := by
  induction vals with
  | nil => rfl
  | cons v vals ih =>
    simp only [appendAll, List.foldl_cons, List.length_cons, iterTake]
    rw [foldl_append, List.append_assoc, iterNext_append]
    simp [ih]

/-- A run of n tagged values followed by a uvarint determines the values and the uvarint. -/
theorem appendAll_appendUvarint_inj {vals vals' : List (Option Bytes)} {x x' : Nat}
    (hlen : vals.length = vals'.length)
    (h : appendUvarint (appendAll vals) x = appendUvarint (appendAll vals') x') :
    vals = vals' ∧ x = x' := by
  have hx := iterTake_appendAll vals (appendUvarint [] x)
  have hx' := iterTake_appendAll vals' (appendUvarint [] x')
  simp only [appendUvarint, List.nil_append] at h hx hx'
  rw [h, hlen, hx'] at hx
  obtain ⟨rfl, hsuffix⟩ := Prod.mk.inj (Option.some.inj hx)
  have hdec := uvarint_appendUvarint x []
  rw [appendUvarint, List.nil_append, ← hsuffix, ← List.nil_append (uvarintBytes x' x'),
    ← appendUvarint, uvarint_appendUvarint] at hdec
  exact ⟨rfl, (Prod.mk.inj (Option.some.inj hdec)).1.symm⟩

end SuperRuntime.Zcode
