import Embassies.Lib.Buffer
import Embassies.Lib.Word

/-! Files of the RAM file system: `XRFileNode.cpp`.

    A file node keeps its bytes in memory that doubles, and clears some of it only then. It is run next to a POSIX file.
    The two agree as long as what becomes part of the file without being written is zero in memory. -/

namespace Embassies.ElfLoader

open Checked

/-- `XRFileNode`. Memory at and beyond the capacity is what the allocator will hand out. -/
structure XRFileNode where
  contents : ℕ → UInt8
  capacity : ℕ
  size : ℕ

/-- `XfsErr`. -/
inductive XfsErr where | noError | einval
  deriving DecidableEq, Repr

/-- What a call leaves with its caller. -/
structure Reply where
  err : XfsErr
  data : Bytes
  deriving DecidableEq, Repr

/-- Calls of a handle. -/
inductive Call where
  | read (len offset : ℕ)
  | write (src : Bytes) (offset : ℕ)
  | ftruncate (length : ℤ)

namespace XRFileNode

/-- `_init(mf)`. -/
def init (memory : ℕ → UInt8) : XRFileNode := ⟨memory, 1024, 0⟩

def access (n : XRFileNode) (offset len : ℕ) : Checked Unit :=
  if offset + len ≤ n.capacity then pure () else .error .outOfRange

/-- The loop of `_expand`. A capacity is zero after 32 rounds, and the loop is endless then. -/
def expandLoop (minNewCapacity : ℕ) : (fuel newCapacity : ℕ) → Checked ℕ
  | 0, _ => .error .outOfFuel
  | fuel + 1, newCapacity =>
    if newCapacity < minNewCapacity then expandLoop minNewCapacity fuel (u32 (newCapacity * 2)) else pure newCapacity

/-- `_expand(min_new_capacity)`. -/
def expand (n : XRFileNode) (minNewCapacity : ℕ) : Checked XRFileNode := do
  let newCapacity ← expandLoop minNewCapacity 33 n.capacity
  let cleared := sub32 newCapacity n.capacity
  let n' := { n with
    contents := fun i => if n.size ≤ i ∧ i < n.size + cleared then 0 else n.contents i
    capacity := newCapacity }
  n'.access n.size cleared
  liteAssert (minNewCapacity ≤ newCapacity)
  pure n'

/-- `read(err, dst, len, offset)`. -/
def read (n : XRFileNode) (len offset : ℕ) : Checked Bytes := do
  liteAssert (len ≤ u32 (n.size + 2 ^ 64 - offset))   -- the difference has 64 bits, and is kept in 32
  if 0 < len then do
    n.access offset len
    pure ((List.range len).map fun i => n.contents (offset + i))
  else pure []

/-- Bytes written over others. -/
def overwrite (bytes : ℕ → UInt8) (src : Bytes) (offset i : ℕ) : UInt8 :=
  if offset ≤ i then src[i - offset]?.getD (bytes i) else bytes i

/-- `write(err, src, len, offset)`. -/
def write (n : XRFileNode) (src : Bytes) (offset : ℕ) : Checked XRFileNode := do
  let n ← n.expand (u32 (offset + src.length))
  n.access offset src.length
  pure { n with
    contents := overwrite n.contents src offset
    size := if n.size < offset + src.length then u32 (offset + src.length) else n.size }

/-- `ftruncate(err, length)`. -/
def ftruncate (n : XRFileNode) (length : ℤ) : Checked (XRFileNode × XfsErr) :=
  if length < 0 then pure (n, .einval)
  else do
    liteAssert (length < 0xfffffffe)
    let n ← n.expand (u32 length.toNat)
    pure ({ n with size := u32 length.toNat }, .noError)

def call (n : XRFileNode) : Call → Checked (XRFileNode × Reply)
  | .read len offset => do
    let data ← n.read len offset
    pure (n, ⟨.noError, data⟩)
  | .write src offset => do
    let n ← n.write src offset
    pure (n, ⟨.noError, []⟩)
  | .ftruncate length => do
    let (n, err) ← n.ftruncate length
    pure (n, ⟨err, []⟩)

end XRFileNode

/-- A POSIX file: bytes that were never written, or cut off since, are zero. -/
structure PosixFile where
  bytes : ℕ → UInt8
  length : ℕ
  zero : ∀ i, length ≤ i → bytes i = 0

namespace PosixFile

def empty : PosixFile := ⟨fun _ => 0, 0, fun _ _ => rfl⟩

/-- A write of nothing changes nothing, and another one ends the file at its end or later. -/
def write (f : PosixFile) (src : Bytes) (offset : ℕ) : PosixFile where
  bytes := XRFileNode.overwrite f.bytes src offset
  length := if src = [] then f.length else max f.length (offset + src.length)
  zero i hi := by
    have hnone : offset ≤ i → src[i - offset]? = none := by
      intro ho
      rw [List.getElem?_eq_none_iff]
      split at hi
      · simp_all
      · omega
    rw [XRFileNode.overwrite]
    split
    case isTrue ho =>
      rw [hnone ho]
      exact f.zero i (by split at hi <;> omega)
    case isFalse => exact f.zero i (by split at hi <;> omega)

/-- The bytes behind the new end are cut off. -/
def truncate (f : PosixFile) (length : ℕ) : PosixFile where
  bytes i := if i < length then f.bytes i else 0
  length := length
  zero _ hi := if_neg (not_lt.mpr hi)

def call (f : PosixFile) : Call → PosixFile × Reply
  | .read len offset => (f, ⟨.noError, (List.range (min len (f.length - offset))).map fun i => f.bytes (offset + i)⟩)
  | .write src offset => (f.write src offset, ⟨.noError, []⟩)
  | .ftruncate length => if length < 0 then (f, ⟨.einval, []⟩) else (f.truncate length.toNat, ⟨.noError, []⟩)

end PosixFile

/-- A node next to a POSIX file. A call that they answer differently is a fault. -/
def sideBySide (s : XRFileNode × PosixFile) (c : Call) : Checked (XRFileNode × PosixFile) := do
  let (n, reply) ← s.1.call c
  liteAssert (reply = (s.2.call c).2)
  pure (n, (s.2.call c).1)

/-- REFINES: the node answers every call of the sequence as the POSIX file does, and they are of one length. -/
def Refines (memory : ℕ → UInt8) (calls : List Call) : Prop :=
  ∃ s, run sideBySide (.init memory, .empty) calls = .ok s ∧ s.1.size = s.2.length

/-- The calls that are looked at: their ends are below `2 ^ 32`, and a read is in range or starts beyond the end. -/
def InRange (s : XRFileNode × PosixFile) : Call → Prop
  | .read len offset => offset + len < 2 ^ 32 ∧ (offset + len ≤ s.2.length ∨ s.2.length < offset)
  | .write src offset => offset + src.length < 2 ^ 32
  | .ftruncate length => length < 2 ^ 32

/-- The calls that go well: reads are in range, no end is beyond `2 ^ 31`, nothing is not written beyond the end, and
    memory is zero where the file grows without being written. -/
def Clean (s : XRFileNode × PosixFile) : Call → Prop
  | .read len offset => offset + len ≤ s.1.size
  | .write src offset => offset + src.length ≤ 2 ^ 31 ∧ (src = [] → offset ≤ s.1.size) ∧
      ∀ i, s.1.size ≤ i → i < offset → s.1.contents i = 0
  | .ftruncate length => length ≤ 2 ^ 31 ∧ ∀ i : ℕ, s.1.size ≤ i → i < length → s.1.contents i = 0

/-- The invariant of the two. -/
structure Agree (s : XRFileNode × PosixFile) : Prop where
  size : s.1.size = s.2.length
  bytes : ∀ i < s.1.size, s.1.contents i = s.2.bytes i
  size_le : s.1.size ≤ s.1.capacity
  doubled : ∃ k ≤ 21, s.1.capacity = 1024 * 2 ^ k

open XRFileNode

variable {n : XRFileNode} {f : PosixFile} {m : ℕ}

/-- GROWTH ends for a capacity of up to `2 ^ 31`. -/
lemma expandLoop_ends (hm : m ≤ 2 ^ 31) : ∀ fuel k, k ≤ 21 → 21 < fuel + k →
    ∃ k' ≤ 21, k ≤ k' ∧ m ≤ 1024 * 2 ^ k' ∧ XRFileNode.expandLoop m fuel (1024 * 2 ^ k) = .ok (1024 * 2 ^ k')
  | 0, k, hk, hfuel => absurd hfuel (by omega)
  | fuel + 1, k, hk, hfuel => by
    rw [XRFileNode.expandLoop]
    split
    case isFalse hge => exact ⟨k, hk, le_rfl, not_lt.mp hge, rfl⟩
    case isTrue hlt =>
      have hk21 : k ≠ 21 := by
        rintro rfl
        omega
      have hdouble : u32 (1024 * 2 ^ k * 2) = 1024 * 2 ^ (k + 1) := by
        have hpow : 2 ^ k ≤ 2 ^ 20 := Nat.pow_le_pow_right (by decide) (by omega)
        rw [pow_succ, u32_of_lt (by omega), mul_assoc]
      obtain ⟨k', hk', hle, hm', hloop⟩ := expandLoop_ends hm fuel (k + 1) (by omega) (by omega)
      exact ⟨k', hk', by omega, hm', by rw [hdouble, hloop]⟩

/-- EXPANSION: the bytes of the file stay, and zeros behind it do. -/
lemma expand_spec (h : Agree (n, f)) (hm : m ≤ 2 ^ 31) : ∃ n', n.expand m = .ok n' ∧ n'.size = n.size ∧
    m ≤ n'.capacity ∧ n.size ≤ n'.capacity ∧ (∃ k ≤ 21, n'.capacity = 1024 * 2 ^ k) ∧
      ∀ i, (n.size ≤ i → n.contents i = 0) → n'.contents i = f.bytes i := by
  obtain ⟨k, hk, hcap⟩ := h.doubled
  obtain ⟨k', hk', hle, hm', hloop⟩ := expandLoop_ends hm 33 k hk (by omega)
  have hsize : n.size ≤ n.capacity := h.size_le
  have hgrow : n.capacity ≤ 1024 * 2 ^ k' := hcap ▸ Nat.mul_le_mul_left _ (Nat.pow_le_pow_right (by decide) hle)
  have hlt : 1024 * 2 ^ k' < 2 ^ 32 := by
    have hpow : 2 ^ k' ≤ 2 ^ 21 := Nat.pow_le_pow_right (by decide) hk'
    omega
  have hin : n.size + sub32 (1024 * 2 ^ k') n.capacity ≤ 1024 * 2 ^ k' := by
    rw [sub32_of_le hlt hgrow]
    omega
  refine ⟨{ n with
    contents := fun i => if n.size ≤ i ∧ i < n.size + sub32 (1024 * 2 ^ k') n.capacity then 0 else n.contents i
    capacity := 1024 * 2 ^ k' }, ?_, rfl, hm', hsize.trans hgrow, ⟨k', hk', rfl⟩, ?_⟩
  · have hgrown : expandLoop m 33 n.capacity = .ok (1024 * 2 ^ k') := hcap ▸ hloop
    simp only [expand, hgrown, ok_bind, access, if_pos hin, pure_eq_ok, liteAssert_pos hm']
  · intro i hzero
    have hbehind : n.size ≤ i → f.bytes i = 0 := fun hi => f.zero i (h.size ▸ hi)
    dsimp only
    split
    case isTrue hi => exact (hbehind hi.1).symm
    case isFalse =>
      rcases lt_or_ge i n.size with hi | hi
      · exact h.bytes i hi
      · rw [hzero hi, hbehind hi]

lemma read_clean {len offset : ℕ} (h : Agree (n, f)) (hin : offset + len ≤ n.size) :
    n.read len offset = .ok ((List.range len).map fun i => f.bytes (offset + i)) := by
  have hcap : n.size ≤ n.capacity := h.size_le
  have havail : len ≤ u32 (n.size + 2 ^ 64 - offset) := by
    obtain ⟨k, hk, hk'⟩ := h.doubled
    have hpow : 2 ^ k ≤ 2 ^ 21 := Nat.pow_le_pow_right (by decide) hk
    have hlt : n.capacity < 2 ^ 32 := by
      dsimp only at hk'
      omega
    rw [u32]
    omega
  rw [XRFileNode.read, liteAssert_pos havail, ok_bind]
  split
  case isTrue =>
    rw [access, if_pos (by omega), pure_eq_ok, ok_bind, pure_eq_ok]
    refine congrArg _ (List.map_congr_left fun i hi => ?_)
    have hlt := List.mem_range.mp hi
    exact h.bytes (offset + i) (by dsimp only; omega)
  case isFalse hzero =>
    obtain rfl : len = 0 := by omega
    rfl

/-- STEP: a clean call is answered as by the POSIX file, and the two agree behind it. -/
lemma sideBySide_clean {s : XRFileNode × PosixFile} {c : Call} (h : Agree s) (hc : Clean s c) :
    ∃ s', sideBySide s c = .ok s' ∧ Agree s' := by
  obtain ⟨n, f⟩ := s
  have hsize : n.size = f.length := h.size
  cases c with
  | read len offset =>
    have hin : offset + len ≤ n.size := hc
    have hmin : min len (f.length - offset) = len := by omega
    refine ⟨(n, f), ?_, h⟩
    simp [sideBySide, call, PosixFile.call, read_clean h hin, hmin, liteAssert]
  | write src offset =>
    obtain ⟨hend, hempty, hhole⟩ := hc
    obtain ⟨n', hn', hsame, hm, hle, hdoubled, hbyte⟩ := expand_spec h hend
    have hword : u32 (offset + src.length) = offset + src.length := u32_of_lt (by omega)
    refine ⟨({ n' with
      contents := overwrite n'.contents src offset
      size := if n'.size < offset + src.length then offset + src.length else n'.size }, f.write src offset), ?_, ?_⟩
    · simp [sideBySide, call, write, hword, hn', access, hm, PosixFile.call, liteAssert]
    dsimp only at hempty hhole
    refine ⟨?_, fun i hi => ?_, ?_, hdoubled⟩
    · dsimp only [PosixFile.write]
      by_cases hsrc : src = []
      · have := hempty hsrc
        rw [if_pos hsrc, if_neg (by simp [hsrc]; omega), hsame, hsize]
      · rw [if_neg hsrc]
        split <;> omega
    · dsimp only [PosixFile.write, overwrite] at hi ⊢
      by_cases ho : offset ≤ i
      · rw [if_pos ho, if_pos ho]
        cases hget : src[i - offset]? with
        | some b => rfl
        | none =>
          have hpast := List.getElem?_eq_none_iff.mp hget
          have hold : i < n.size := by split at hi <;> omega
          exact hbyte i fun hge => absurd hold (not_lt.mpr hge)
      · rw [if_neg ho, if_neg ho]
        exact hbyte i fun hge => hhole i hge (not_le.mp ho)
    · dsimp only
      split <;> omega
  | ftruncate length =>
    obtain ⟨hend, hhole⟩ := hc
    by_cases hneg : length < 0
    · refine ⟨(n, f), ?_, h⟩
      simp [sideBySide, call, ftruncate, PosixFile.call, hneg, liteAssert]
    obtain ⟨l, rfl⟩ := Int.eq_ofNat_of_zero_le (not_lt.mp hneg)
    obtain ⟨n', hn', -, hm, hle, hdoubled, hbyte⟩ := expand_spec (m := l) h (by omega)
    have hword : u32 l = l := u32_of_lt (by omega)
    refine ⟨({ n' with size := l }, f.truncate l), ?_, rfl, fun i hi => ?_, hm, hdoubled⟩
    · have hmax : (l : ℤ) < 0xfffffffe := by omega
      simp [sideBySide, call, ftruncate, hword, hn', PosixFile.call, liteAssert, hmax, hneg]
    · rw [PosixFile.truncate]
      dsimp only at hi hhole ⊢
      rw [if_pos hi]
      exact hbyte i fun hge => hhole i hge (by omega)

/-- FILE: a sequence of clean calls is answered as by a POSIX file. -/
theorem refines_of_clean (memory : ℕ → UInt8) (calls : List Call)
    (h : Along sideBySide Clean (.init memory, .empty) calls) : Refines memory calls := by
  have hinit : Agree (.init memory, .empty) := ⟨rfl, nofun, Nat.zero_le _, 0, by decide, rfl⟩
  obtain ⟨s, hrun, hs⟩ := run_progress (fun _ _ => sideBySide_clean) calls _ hinit h
  exact ⟨s, hrun, hs.size⟩

/-- A byte is written and read. -/
theorem refines_of_clean_byte : Refines (fun _ => 5) [.write [7] 0, .read 1 0] := by
  refine refines_of_clean _ _ ⟨⟨by decide, nofun, nofun⟩, fun s hs => ⟨?_, fun _ _ => trivial⟩⟩
  have hsize : (sideBySide (.init fun _ => 5, .empty) (.write [7] 0)).map (·.1.size) = .ok 1 := rfl
  rw [hs] at hsize
  exact (Except.ok.inj hsize).ge

/-- HOLE: a byte that was never written is read as the allocator left it. -/
theorem not_refines : ¬∀ (memory : ℕ → UInt8) (calls : List Call),
    Along sideBySide InRange (.init memory, .empty) calls → Refines memory calls := by
  intro h
  have hrun : (run sideBySide (.init fun _ => 5, .empty) [.write [7] 1, .read 1 0]).map (·.1.size) =
      .error .liteAssert := by decide +kernel
  have hcalls : Along sideBySide InRange (.init fun _ => 5, .empty) [.write [7] 1, .read 1 0] := by
    refine ⟨(by decide : 1 + 1 < 2 ^ 32), fun s hs => ⟨?_, fun _ _ => trivial⟩⟩
    have hlength : (sideBySide (.init fun _ => 5, .empty) (.write [7] 1)).map (·.2.length) = .ok 2 := rfl
    rw [hs] at hlength
    have htwo : s.2.length = 2 := Except.ok.inj hlength
    exact ⟨by decide, .inl (by omega)⟩
  obtain ⟨s, hs, -⟩ := h _ _ hcalls
  rw [hs] at hrun
  cases hrun

end Embassies.ElfLoader
