import Embassies.Lib.Compare
import Embassies.Lib.LittleEndian
import Embassies.Net.Address

/-! Comparison functions (`LiteLib.c`, `hash_table.c`, `xax_network_utils.c`).

    Trees and tables are built on `lite_memcmp`, `cmp_bufs` and `cmp_xip`. All three subtract: bytes into a `char`,
    addresses into an `int`. The difference has the right sign only for values less than half a turn apart, so the functions
    are orders on data whose bytes, and whose IPv4 addresses, keep to an arc. -/

namespace Embassies.Utils

open Compare Net

/-- `char v = (*p1)-(*p2)`. -/
def charDiff (x y : UInt8) : ℤ := wordCmp x.toBitVec y.toBitVec

/-- `lite_memcmp(s1, s2, n)`, of arrays of at least `n` bytes. -/
def liteMemcmp : Bytes → Bytes → ℕ → ℤ
  | x :: s1, y :: s2, n + 1 => if charDiff x y ≠ 0 then charDiff x y else liteMemcmp s1 s2 n
  | _, _, _ => 0

/-- `cmp_bufs(buf0, len0, buf1, len1)`: a `uint32_t`. -/
def cmpBufs (buf0 buf1 : Bytes) : BitVec 32 :=
  let rc := liteMemcmp buf0 buf1 (min buf0.length buf1.length)
  .ofInt 32 (if rc ≠ 0 then rc else buf0.length - buf1.length)

/-- The value of the enumeration. -/
def versionNumber : XIPVer → ℕ
  | .ipv4 => 4
  | .ipv6 => 6

/-- `xip_addr_un.xv4_addr`, as it is loaded. -/
def xv4Addr (a : XIPAddr) : BitVec 32 := .ofNat 32 (ofLE a.addr)

/-- `cmp_xip(a, b)`. -/
def cmpXip (a b : XIPAddr) : ℤ :=
  let result : ℤ := versionNumber a.version - versionNumber b.version
  if result ≠ 0 then result
  else match a.version with
  | .ipv4 => wordCmp (xv4Addr a) (xv4Addr b)
  | .ipv6 => liteMemcmp a.addr b.addr 16

/-! ### The data compared -/

variable (X : Set (BitVec 8)) (V : Set (BitVec 32))

/-- Arrays of bytes of `X`. -/
def bytesOver : Set Bytes := {s | ∀ x ∈ s, x.toBitVec ∈ X}

/-- Buffers of bytes of `X`, whose length is an `int`. -/
def bufsOver : Set Bytes := {s ∈ bytesOver X | s.length < 2 ^ 31}

/-- IPv4 addresses of `V` and IPv6 addresses of bytes of `X`. -/
def xipsOver : Set XIPAddr :=
  {a | match a.version with | .ipv4 => xv4Addr a ∈ V | .ipv6 => a.addr ∈ bytesOver X}

/-- All three functions are orders. The result of `cmp_bufs` is read as the `int` that its callers return. -/
structure AreOrders : Prop where
  memcmp : ∀ n, IsOrder {s ∈ bytesOver X | s.length = n} (liteMemcmp · · n)
  bufs : IsOrder (bufsOver X) fun a b => (cmpBufs a b).toInt
  xip : IsOrder (xipsOver X V) cmpXip

variable {X V} {a b : Bytes}

lemma liteMemcmp_eq : ∀ (a b : Bytes), lexCmp charDiff a b =
    if liteMemcmp a b (min a.length b.length) ≠ 0 then liteMemcmp a b (min a.length b.length) else a.length - b.length
  | [], b => by simp [lexCmp, liteMemcmp]
  | x :: a, [] => by simp [lexCmp, liteMemcmp]
  | x :: a, y :: b => by
    rw [lexCmp, liteMemcmp_eq a b, List.length_cons, List.length_cons, Nat.succ_min_succ, liteMemcmp]
    by_cases h0 : charDiff x y = 0 <;> simp [h0]

lemma liteMemcmp_of_length {n : ℕ} (ha : a.length = n) (hb : b.length = n) :
    liteMemcmp a b n = lexCmp charDiff a b := by
  rw [liteMemcmp_eq, ha, hb, min_self]
  split <;> omega

lemma charDiff_bounds (x y : UInt8) : -128 ≤ charDiff x y ∧ charDiff x y < 128 :=
  ⟨BitVec.le_toInt _, BitVec.toInt_lt⟩

lemma lexCmp_bounds : ∀ a b : Bytes, a.length < 2 ^ 31 → b.length < 2 ^ 31 →
    -2 ^ 31 ≤ lexCmp charDiff a b ∧ lexCmp charDiff a b < 2 ^ 31
  | [], b, ha, hb => by
    simp only [lexCmp, List.length_nil]
    omega
  | x :: a, [], ha, hb => by
    simp only [lexCmp, List.length_nil]
    omega
  | x :: a, y :: b, ha, hb => by
    rw [List.length_cons] at ha hb
    have hd := charDiff_bounds x y
    have ih := lexCmp_bounds a b (by omega) (by omega)
    rw [lexCmp]
    split <;> omega

/-- As an `int`, what `cmp_bufs` returns has not wrapped. -/
lemma cmpBufs_toInt (ha : a.length < 2 ^ 31) (hb : b.length < 2 ^ 31) : (cmpBufs a b).toInt = lexCmp charDiff a b := by
  have h := lexCmp_bounds a b ha hb
  rw [cmpBufs, ← liteMemcmp_eq, BitVec.toInt_ofInt]
  exact Int.bmod_eq_of_le (by norm_num; omega) (by norm_num; omega)

/-! ### Orders on an arc -/

section Arc

variable {base : BitVec 8} {vbase : BitVec 32}

def rank (base : BitVec 8) (x : UInt8) : ℕ := (x.toBitVec - base).toNat

lemma rank_injective (base : BitVec 8) : Function.Injective (rank base) := fun _ _ h =>
  UInt8.toBitVec_inj.mp (sub_left_injective (BitVec.toNat_inj.mp h))

/-- The bytes decide in the order in which they follow the start of the arc. -/
lemma lexCmp_over (hX : ∀ x ∈ X, Arc base x) (ha : a ∈ bytesOver X) (hb : b ∈ bytesOver X) :
    (lexCmp charDiff a b < 0 ↔ a.map (rank base) < b.map (rank base)) ∧
    (0 < lexCmp charDiff a b ↔ b.map (rank base) < a.map (rank base)) :=
  lexCmp_sign a b fun x hx y hy => wordCmp_eq (hX _ (ha x hx)) (hX _ (hb y hy))

def xipKey (base : BitVec 8) (vbase : BitVec 32) (a : XIPAddr) : List ℕ :=
  versionNumber a.version :: match a.version with
    | .ipv4 => [(xv4Addr a - vbase).toNat]
    | .ipv6 => a.addr.map (rank base)

lemma xv4Addr_inj {a b : XIPAddr} (ha : a.version = .ipv4) (hb : b.version = .ipv4) (h : xv4Addr a = xv4Addr b) :
    a.addr = b.addr := by
  have halen : a.addr.length = 4 := by rw [a.length_eq, ha, XIPVer.addrSize]
  have hblen : b.addr.length = 4 := by rw [b.length_eq, hb, XIPVer.addrSize]
  have halt := ofLE_lt a.addr
  have hblt := ofLE_lt b.addr
  rw [halen] at halt
  rw [hblen] at hblt
  have hword := congrArg BitVec.toNat h
  rw [xv4Addr, xv4Addr, BitVec.toNat_ofNat, BitVec.toNat_ofNat] at hword
  exact ofLE_inj (halen.trans hblen.symm) (by omega)

lemma xipKey_injective : Function.Injective (xipKey base vbase) := by
  rintro ⟨va, a, ha⟩ ⟨vb, b, hb⟩ h
  obtain ⟨hver, hrest⟩ := List.cons.inj h
  cases va <;> cases vb
  case ipv4.ipv4 =>
    have hword := sub_left_injective (BitVec.toNat_inj.mp (List.cons.inj hrest).1)
    have haddr := xv4Addr_inj rfl rfl hword
    subst haddr
    rfl
  case ipv6.ipv6 =>
    obtain rfl := List.map_injective_iff.mpr (rank_injective base) hrest
    rfl
  all_goals simp [versionNumber] at hver

/-- Versions decide, then words or bytes in the order in which they follow the start of their arc. -/
lemma cmpXip_over (hX : ∀ x ∈ X, Arc base x) (hV : ∀ v ∈ V, Arc vbase v) {a b : XIPAddr} (ha : a ∈ xipsOver X V)
    (hb : b ∈ xipsOver X V) : (cmpXip a b < 0 ↔ xipKey base vbase a < xipKey base vbase b) ∧
    (0 < cmpXip a b ↔ xipKey base vbase b < xipKey base vbase a) := by
  obtain ⟨va, a, halen⟩ := a
  obtain ⟨vb, b, hblen⟩ := b
  cases va <;> cases vb
  case ipv4.ipv4 =>
    have hcmp : cmpXip ⟨.ipv4, a, halen⟩ ⟨.ipv4, b, hblen⟩ = wordCmp _ _ := rfl
    rw [hcmp, wordCmp_eq (hV _ ha) (hV _ hb), xipKey, xipKey]
    simp only [List.cons_lt_cons_iff, lt_self_iff_false, true_and, false_or, or_false, and_false]
    omega
  case ipv6.ipv6 =>
    have hcmp : cmpXip ⟨.ipv6, a, halen⟩ ⟨.ipv6, b, hblen⟩ = liteMemcmp a b 16 := rfl
    have hbytes := lexCmp_over (a := a) (b := b) hX ha hb
    rw [hcmp, liteMemcmp_of_length (n := 16) halen hblen, xipKey, xipKey, hbytes.1, hbytes.2]
    simp
  all_goals simp [cmpXip, xipKey, versionNumber, List.cons_lt_cons_iff]

lemma areOrders (hX : ∀ x ∈ X, Arc base x) (hV : ∀ v ∈ V, Arc vbase v) : AreOrders X V where
  memcmp n := by
    refine .of_key (List.map (rank base)) (List.map_injective_iff.mpr (rank_injective base)).injOn ?_
    rintro a ⟨ha, halen⟩ b ⟨hb, hblen⟩
    rw [liteMemcmp_of_length halen hblen]
    exact lexCmp_over hX ha hb
  bufs := by
    refine .of_key (List.map (rank base)) (List.map_injective_iff.mpr (rank_injective base)).injOn ?_
    rintro a ⟨ha, halen⟩ b ⟨hb, hblen⟩
    rw [cmpBufs_toInt halen hblen]
    exact lexCmp_over hX ha hb
  xip := .of_key (xipKey base vbase) xipKey_injective.injOn fun a ha b hb => cmpXip_over hX hV ha hb

end Arc

/-- The IPv4 address of a word. -/
def ofWord (v : BitVec 32) : XIPAddr := ⟨.ipv4, toLE 4 v.toNat, length_toLE 4 _⟩

lemma xv4Addr_ofWord (v : BitVec 32) : xv4Addr (ofWord v) = v := by
  rw [xv4Addr, ofWord, ofLE_toLE_of_lt v.isLt, BitVec.ofNat_toNat, BitVec.setWidth_eq]

/-- ORDERS: on data of given bytes and IPv4 addresses the three functions are strict total orders exactly if the bytes
    lie within half a turn and the addresses do. -/
theorem areOrders_iff (X : Set (BitVec 8)) (V : Set (BitVec 32)) :
    AreOrders X V ↔ (∃ base, ∀ x ∈ X, Arc base x) ∧ ∃ base, ∀ v ∈ V, Arc base v := by
  constructor
  · intro h
    constructor
    · refine exists_arc ((h.memcmp 1).comap (fun x => [UInt8.ofBitVec x]) ?_ ?_ ?_)
      · intro x y hxy
        simpa using hxy
      · intro x hx
        simpa [bytesOver] using hx
      · intro x y
        rw [liteMemcmp]
        split
        case isTrue => rfl
        case isFalse h0 => exact (not_not.mp h0).symm
    · refine exists_arc (h.xip.comap ofWord ?_ ?_ ?_)
      · exact Function.LeftInverse.injective xv4Addr_ofWord
      · intro v hv
        rw [← xv4Addr_ofWord v] at hv
        exact hv
      · intro v v'
        have hcmp : cmpXip (ofWord v) (ofWord v') = wordCmp (xv4Addr (ofWord v)) (xv4Addr (ofWord v')) := rfl
        rw [hcmp, xv4Addr_ofWord, xv4Addr_ofWord]
  · rintro ⟨⟨base, hX⟩, vbase, hV⟩
    exact areOrders hX hV

/-- The bytes 0 and 128 are each below the other; so are the addresses `0` and `2 ^ 31`. -/
theorem not_areOrders : ¬IsOrder {s : Bytes | s.length = 1} (liteMemcmp · · 1) ∧
    ¬IsOrder {s : Bytes | s.length < 2 ^ 31} (fun a b => (cmpBufs a b).toInt) ∧ ¬IsOrder Set.univ cmpXip := by
  refine ⟨fun h => ?_, fun h => ?_, fun h => ?_⟩
  · exact absurd ((h.swap [0] (by decide) [128] (by decide)).mp (by decide)) (by decide)
  · exact absurd ((h.swap [0] (by decide) [128] (by decide)).mp (by decide)) (by decide)
  · exact absurd ((h.swap (ofWord 0) trivial (ofWord (2 ^ 31)) trivial).mp (by decide)) (by decide)

end Embassies.Utils
