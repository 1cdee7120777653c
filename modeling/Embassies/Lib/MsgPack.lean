import Embassies.Lib.Bytes

/-! MessagePack, for arrays of numbers, strings and truth values.

    `packb` takes the shortest form of each value, and fails if a value has none. `unpackb` reads one array that fills the
    bytes. `unpackb_packb` is the round trip. -/

namespace Embassies.MsgPack

open List

/-- A value that is not a container. -/
inductive Scalar where
  | int (n : ℤ)
  | str (b : Bytes)
  | bool (b : Bool)
  deriving DecidableEq

/-! ### Packing -/

/-- A number that is not negative. -/
def packNat (n : ℕ) : Option Bytes :=
  if n < 0x80 then some [UInt8.ofNat n]
  else if n < 2 ^ 8 then some (0xcc :: toBE 1 n)
  else if n < 2 ^ 16 then some (0xcd :: toBE 2 n)
  else if n < 2 ^ 32 then some (0xce :: toBE 4 n)
  else if n < 2 ^ 64 then some (0xcf :: toBE 8 n)
  else none

/-- The number `-m`, in two's complement. -/
def packNeg (m : ℕ) : Option Bytes :=
  if m ≤ 32 then some [UInt8.ofNat (2 ^ 8 - m)]
  else if m ≤ 2 ^ 7 then some (0xd0 :: toBE 1 (2 ^ 8 - m))
  else if m ≤ 2 ^ 15 then some (0xd1 :: toBE 2 (2 ^ 16 - m))
  else if m ≤ 2 ^ 31 then some (0xd2 :: toBE 4 (2 ^ 32 - m))
  else if m ≤ 2 ^ 63 then some (0xd3 :: toBE 8 (2 ^ 64 - m))
  else none

def packStr (b : Bytes) : Option Bytes :=
  if b.length < 32 then some (UInt8.ofNat (0xa0 + b.length) :: b)
  else if b.length < 2 ^ 8 then some (0xd9 :: (toBE 1 b.length ++ b))
  else if b.length < 2 ^ 16 then some (0xda :: (toBE 2 b.length ++ b))
  else if b.length < 2 ^ 32 then some (0xdb :: (toBE 4 b.length ++ b))
  else none

def pack : Scalar → Option Bytes
  | .int n => if 0 ≤ n then packNat n.toNat else packNeg (-n).toNat
  | .str b => packStr b
  | .bool b => some [if b then 0xc3 else 0xc2]

def packAll : List Scalar → Option Bytes
  | [] => some []
  | v :: vs => do
    let first ← pack v
    let rest ← packAll vs
    return first ++ rest

def packArrayHeader (n : ℕ) : Option Bytes :=
  if n < 16 then some [UInt8.ofNat (0x90 + n)]
  else if n < 2 ^ 16 then some (0xdc :: toBE 2 n)
  else if n < 2 ^ 32 then some (0xdd :: toBE 4 n)
  else none

def packb (vs : List Scalar) : Option Bytes := do
  let header ← packArrayHeader vs.length
  let body ← packAll vs
  return header ++ body

/-! ### Unpacking -/

/-- The first bytes, if there are that many. -/
def takeBytes (k : ℕ) (b : Bytes) : Option (Bytes × Bytes) := if b.length < k then none else some (b.take k, b.drop k)

def takeNat (k : ℕ) (b : Bytes) : Option (ℕ × Bytes) := do
  let (word, rest) ← takeBytes k b
  return (ofBE word, rest)

/-- A two's complement word of `k` bytes. -/
def signed (k n : ℕ) : ℤ := if n < 2 ^ (8 * k - 1) then n else (n : ℤ) - 2 ^ (8 * k)

def unpackUInt (k : ℕ) (b : Bytes) : Option (Scalar × Bytes) := do
  let (n, rest) ← takeNat k b
  return (.int n, rest)

def unpackInt (k : ℕ) (b : Bytes) : Option (Scalar × Bytes) := do
  let (n, rest) ← takeNat k b
  return (.int (signed k n), rest)

def unpackStr (length : ℕ) (b : Bytes) : Option (Scalar × Bytes) := do
  let (text, rest) ← takeBytes length b
  return (.str text, rest)

def unpackLongStr (k : ℕ) (b : Bytes) : Option (Scalar × Bytes) := do
  let (length, rest) ← takeNat k b
  unpackStr length rest

/-- A value, by its first byte. -/
def unpackTagged (tag : ℕ) (rest : Bytes) : Option (Scalar × Bytes) :=
  if tag < 0x80 then some (.int tag, rest)
  else if 0xe0 ≤ tag then some (.int ((tag : ℤ) - 2 ^ 8), rest)
  else if 0xa0 ≤ tag ∧ tag < 0xc0 then unpackStr (tag - 0xa0) rest
  else match tag with
    | 0xc2 => some (.bool false, rest)
    | 0xc3 => some (.bool true, rest)
    | 0xcc => unpackUInt 1 rest
    | 0xcd => unpackUInt 2 rest
    | 0xce => unpackUInt 4 rest
    | 0xcf => unpackUInt 8 rest
    | 0xd0 => unpackInt 1 rest
    | 0xd1 => unpackInt 2 rest
    | 0xd2 => unpackInt 4 rest
    | 0xd3 => unpackInt 8 rest
    | 0xd9 => unpackLongStr 1 rest
    | 0xda => unpackLongStr 2 rest
    | 0xdb => unpackLongStr 4 rest
    | _ => none

def unpack : Bytes → Option (Scalar × Bytes)
  | [] => none
  | tag :: rest => unpackTagged tag.toNat rest

def unpackAll : ℕ → Bytes → Option (List Scalar × Bytes)
  | 0, b => some ([], b)
  | n + 1, b => do
    let (v, rest) ← unpack b
    let (vs, rest) ← unpackAll n rest
    return (v :: vs, rest)

def unpackArrayHeader : Bytes → Option (ℕ × Bytes)
  | [] => none
  | tag :: rest =>
    if 0x90 ≤ tag.toNat ∧ tag.toNat < 0xa0 then some (tag.toNat - 0x90, rest)
    else if tag.toNat = 0xdc then takeNat 2 rest
    else if tag.toNat = 0xdd then takeNat 4 rest
    else none

def unpackb (b : Bytes) : Option (List Scalar) := do
  let (n, rest) ← unpackArrayHeader b
  match ← unpackAll n rest with
  | (vs, []) => return vs
  | (_, _ :: _) => none

/-! ### The round trip -/

variable {b rest : Bytes} {n m k : ℕ} {vs : List Scalar}

lemma takeBytes_append (hk : b.length = k) : takeBytes k (b ++ rest) = some (b, rest) := by
  subst hk
  rw [takeBytes, if_neg (by simp), take_left, drop_left]

lemma takeNat_toBE (hn : n < 256 ^ k) : takeNat k (toBE k n ++ rest) = some (n, rest) := by
  rw [takeNat, takeBytes_append (length_toBE k n)]
  exact congrArg (fun n => some (n, rest)) (ofBE_toBE_of_lt hn)

lemma unpackUInt_toBE (hn : n < 256 ^ k) : unpackUInt k (toBE k n ++ rest) = some (.int n, rest) := by
  rw [unpackUInt, takeNat_toBE hn]
  rfl

lemma unpackStr_append (hk : b.length = k) : unpackStr k (b ++ rest) = some (.str b, rest) := by
  rw [unpackStr, takeBytes_append hk]
  rfl

lemma unpackLongStr_append (hn : b.length < 256 ^ k) :
    unpackLongStr k (toBE k b.length ++ b ++ rest) = some (.str b, rest) := by
  rw [unpackLongStr, append_assoc, takeNat_toBE hn]
  exact unpackStr_append rfl

lemma toNat_ofNat_of_lt (hn : n < 256) : (UInt8.ofNat n).toNat = n := by
  rw [UInt8.toNat_ofNat']
  exact Nat.mod_eq_of_lt hn

lemma unpack_packNat (h : packNat n = some b) : unpack (b ++ rest) = some (.int n, rest) := by
  unfold packNat at h
  split_ifs at h with h7 h8 h16 h32 h64 <;> cases h
  · rw [singleton_append, unpack, toNat_ofNat_of_lt (by omega), unpackTagged.eq_def, if_pos h7]
  · exact unpackUInt_toBE (k := 1) (by omega)
  · exact unpackUInt_toBE (k := 2) (by omega)
  · exact unpackUInt_toBE (k := 4) (by omega)
  · exact unpackUInt_toBE (k := 8) (by omega)

lemma unpack_packNeg (hm : 0 < m) (h : packNeg m = some b) : unpack (b ++ rest) = some (.int (-m), rest) := by
  have hint : ∀ k, 2 ^ (8 * k) - m < 256 ^ k → ¬2 ^ (8 * k) - m < 2 ^ (8 * k - 1) → m ≤ 2 ^ (8 * k) →
      unpackInt k (toBE k (2 ^ (8 * k) - m) ++ rest) = some (.int (-m), rest) := by
    intro k hlt hneg hle
    have hsigned : signed k (2 ^ (8 * k) - m) = -m := by
      rw [signed, if_neg hneg]
      push_cast [hle]
      exact sub_sub_cancel_left _ _
    rw [unpackInt, takeNat_toBE hlt]
    exact congrArg (fun n => some (Scalar.int n, rest)) hsigned
  unfold packNeg at h
  split_ifs at h with h5 h7 h15 h31 h63 <;> cases h
  · have htag : (UInt8.ofNat (2 ^ 8 - m)).toNat = 2 ^ 8 - m := toNat_ofNat_of_lt (by omega)
    have hval : ((2 ^ 8 - m : ℕ) : ℤ) - 2 ^ 8 = -m := by omega
    rw [singleton_append, unpack, htag, unpackTagged.eq_def, if_neg (by omega), if_pos (by omega), hval]
  · exact hint 1 (by omega) (by omega) (by omega)
  · exact hint 2 (by omega) (by omega) (by omega)
  · exact hint 4 (by omega) (by omega) (by omega)
  · exact hint 8 (by omega) (by omega) (by omega)

lemma unpack_packStr {s : Bytes} (h : packStr s = some b) : unpack (b ++ rest) = some (.str s, rest) := by
  unfold packStr at h
  split_ifs at h with h5 h8 h16 h32 <;> cases h
  · have htag : (UInt8.ofNat (0xa0 + s.length)).toNat = 0xa0 + s.length := toNat_ofNat_of_lt (by omega)
    rw [cons_append, unpack, htag, unpackTagged.eq_def, if_neg (by omega), if_neg (by omega), if_pos (by omega),
      Nat.add_sub_cancel_left, unpackStr_append rfl]
  · exact unpackLongStr_append (k := 1) (by omega)
  · exact unpackLongStr_append (k := 2) (by omega)
  · exact unpackLongStr_append (k := 4) (by omega)

lemma unpack_pack {v : Scalar} (h : pack v = some b) : unpack (b ++ rest) = some (v, rest) := by
  cases v with
  | int n =>
    rw [pack] at h
    split_ifs at h with hn
    · rw [unpack_packNat h, Int.toNat_of_nonneg hn]
    · rw [unpack_packNeg (by omega) h, Int.toNat_of_nonneg (by omega), neg_neg]
  | str s => exact unpack_packStr h
  | bool flag =>
    cases h
    cases flag <;> rfl

lemma unpackAll_packAll (h : packAll vs = some b) :
    unpackAll vs.length (b ++ rest) = some (vs, rest) := by
  induction vs generalizing b with
  | nil =>
    cases h
    rfl
  | cons v vs ih =>
    rw [packAll] at h
    obtain ⟨first, hfirst, h⟩ := Option.bind_eq_some_iff.mp h
    obtain ⟨others, hothers, h⟩ := Option.bind_eq_some_iff.mp h
    cases h
    rw [length_cons, unpackAll, append_assoc, unpack_pack hfirst]
    show (unpackAll vs.length (others ++ rest) >>= _) = _
    rw [ih hothers]
    rfl

lemma unpackArrayHeader_pack (h : packArrayHeader n = some b) : unpackArrayHeader (b ++ rest) = some (n, rest) := by
  unfold packArrayHeader at h
  split_ifs at h with h4 h16 h32 <;> cases h
  · have htag : (UInt8.ofNat (0x90 + n)).toNat = 0x90 + n := toNat_ofNat_of_lt (by omega)
    rw [singleton_append, unpackArrayHeader, htag, if_pos (by omega), Nat.add_sub_cancel_left]
  · exact takeNat_toBE (k := 2) (by omega)
  · exact takeNat_toBE (k := 4) (by omega)

/-- ROUND TRIP: what has been packed is read back. -/
lemma unpackb_packb (h : packb vs = some b) : unpackb b = some vs := by
  rw [packb] at h
  obtain ⟨header, hheader, h⟩ := Option.bind_eq_some_iff.mp h
  obtain ⟨body, hbody, h⟩ := Option.bind_eq_some_iff.mp h
  cases h
  have hall : unpackAll vs.length body = some (vs, []) := by
    have hall : unpackAll vs.length (body ++ []) = some (vs, []) := unpackAll_packAll hbody
    rwa [append_nil] at hall
  rw [unpackb, unpackArrayHeader_pack hheader]
  show (unpackAll vs.length body >>= _) = _
  rw [hall]
  rfl

end Embassies.MsgPack
