import Embassies.Crypto.MacKey
import Embassies.Lib.Buffer
import Embassies.Lib.Word

/-! Authenticated encryption: `SymEncKey.cpp`.

    A plaintext is encrypted in counter mode and the initial vector and the result are authenticated. The block cipher
    and VMAC are functions. A ciphertext that is to be decrypted lies in memory: `decrypt` takes the bytes from its
    address to the end of the buffer, and goes as far as the length in its first word says. -/

namespace Embassies.Crypto

open Checked List Nat

/-- `BLOCK_CIPHER_SIZE/8`. -/
def blockCipherBytes : ℕ := 16

/-- `sizeof(Ciphertext)`: its length, a `Mac` and the initial vector. -/
def sizeofCiphertext : ℕ := 52

/-- `Ciphertext`; the length is that of the bytes. -/
structure Ciphertext where
  mac : Mac UInt64
  iv : Bytes
  bytes : Bytes

/-- What `encrypt` draws from the random supply, and where the initial vector comes to be. -/
structure Draw where
  iv : Bytes
  nonce : Bytes
  address : ℕ
  iv_length : iv.length = 16
  nonce_length : nonce.length = 16

/-- `SymEncKey`: the block cipher under the key, byte by byte, and the key of the MAC. -/
structure SymEncKey where
  evaluatePrf : Bytes → ℕ → UInt8
  macKey : MacKey UInt64

namespace SymEncKey

/-- `(*counter)++`, for the counter in the lower half of a block. -/
def bump (counterBytes : Bytes) : Bytes := toLE 8 (ofLE (counterBytes.take 8) + 1) ++ counterBytes.drop 8

/-- The inner loop of `CtrMode`. -/
def xorBlock (randBytes : ℕ → UInt8) (input : Bytes) : Bytes := input.mapIdx fun j x => x ^^^ randBytes j

/-- The outer loop of `CtrMode`, for a number of blocks. -/
def ctrBlocks (prf : Bytes → ℕ → UInt8) : ℕ → Bytes → Bytes → Bytes
  | 0, _, _ => []
  | n + 1, counterBytes, input => xorBlock (prf counterBytes) (input.take blockCipherBytes) ++
      ctrBlocks prf n (bump counterBytes) (input.drop blockCipherBytes)

/-- `CtrMode(input, len, IV, output)`. -/
def ctrMode (k : SymEncKey) (input iv : Bytes) : Bytes :=
  ctrBlocks k.evaluatePrf (sub32 input.length 1 / blockCipherBytes + 1) iv input

/-- `encrypt(rand, buffer, len)`. -/
def encrypt (k : SymEncKey) (d : Draw) (buffer : Bytes) : SymEncKey × Ciphertext :=
  let bytes := k.ctrMode buffer d.iv
  -- integrity protection covers the initial vector and the ciphertext
  let (macKey, mac) := k.macKey.mac d.nonce d.address (d.iv ++ bytes)
  ({ k with macKey := macKey }, ⟨mac, d.iv, bytes⟩)

/-- `decrypt(cipher)`, for the memory from the ciphertext on and the address of the buffer it allocates. -/
def decrypt (k : SymEncKey) (address : ℕ) (cipher : Bytes) : Checked (SymEncKey × Option Bytes) := do
  let len ← readLE cipher 0 4
  let dataSize := u32 (blockCipherBytes + len)
  let prefixOverhang ← readLE cipher 4 4
  -- the data is put where it is aligned as it was when it was encrypted
  let offset := 16 - address % 16 + (16 - prefixOverhang % 16)
  let data ← readAt cipher 36 dataSize
  if u32 (32 + dataSize) < offset + dataSize then .error .outOfRange else
  let postfixOverhang ← readLE cipher 8 4
  let nonce ← readAt cipher 12 16
  let tag ← readLE cipher 28 8
  let (macKey, validMac) := k.macKey.verify ⟨prefixOverhang, postfixOverhang, nonce, UInt64.ofNat tag⟩
    (address + offset) data
  let k := { k with macKey := macKey }
  if validMac = false then pure (k, none) else
  let iv ← readAt cipher 36 16
  let bytes ← readAt cipher 52 len
  pure (k, some (k.ctrMode bytes iv))

end SymEncKey

namespace Ciphertext

def image (c : Ciphertext) : Bytes :=
  toLE 4 c.bytes.length ++ (toLE 4 c.mac.prefixOverhang ++ (toLE 4 c.mac.postfixOverhang ++ (c.mac.nonce ++
    (toLE 8 c.mac.mac.toNat ++ (c.iv ++ c.bytes)))))

end Ciphertext

/-! ### Counter mode -/

namespace SymEncKey

variable {prf : Bytes → ℕ → UInt8} {input : Bytes}

@[simp] lemma length_xorBlock (r : ℕ → UInt8) (b : Bytes) : (xorBlock r b).length = b.length := by simp [xorBlock]

lemma xorBlock_xorBlock (r : ℕ → UInt8) (b : Bytes) : xorBlock r (xorBlock r b) = b := by
  refine ext_getElem (by simp) fun i h1 h2 => ?_
  simp only [xorBlock, getElem_mapIdx]
  rw [UInt8.xor_assoc, UInt8.xor_self, UInt8.xor_zero]

lemma length_ctrBlocks (n : ℕ) : ∀ (counter input : Bytes), input.length ≤ blockCipherBytes * n →
    (ctrBlocks prf n counter input).length = input.length := by
  induction n with
  | zero =>
    intro counter input h
    rw [mul_zero] at h
    rw [ctrBlocks, length_nil]
    omega
  | succ n ih =>
    intro counter input h
    rw [ctrBlocks, length_append, length_xorBlock, ih _ _ (by rw [length_drop, mul_succ] at *; omega),
      ← length_append, take_append_drop]

lemma ctrBlocks_succ (n : ℕ) (counter input : Bytes) : ctrBlocks prf (n + 1) counter input =
    xorBlock (prf counter) (input.take blockCipherBytes) ++
      ctrBlocks prf n (bump counter) (input.drop blockCipherBytes) := rfl

/-- INVOLUTION: the blocks of the blocks of an input are the input. -/
lemma ctrBlocks_ctrBlocks (n : ℕ) : ∀ (counter input : Bytes), input.length ≤ blockCipherBytes * n →
    ctrBlocks prf n counter (ctrBlocks prf n counter input) = input := by
  induction n with
  | zero =>
    intro counter input h
    rw [mul_zero, le_zero, length_eq_zero_iff] at h
    rw [h, ctrBlocks]
  | succ n ih =>
    intro counter input h
    have hrest : (input.drop blockCipherBytes).length ≤ blockCipherBytes * n := by
      rw [length_drop]
      rw [mul_succ] at h
      omega
    rw [ctrBlocks_succ n counter input]
    generalize hfirst : xorBlock (prf counter) (input.take blockCipherBytes) = first
    generalize htail : ctrBlocks prf n (bump counter) (input.drop blockCipherBytes) = tail
    have hlen : first.length = min blockCipherBytes input.length := by
      rw [← hfirst, length_xorBlock, length_take]
    have htlen : tail.length = input.length - blockCipherBytes := by
      rw [← htail, length_ctrBlocks n _ _ hrest, length_drop]
    -- the second part is empty unless the first is a whole block
    have hsplit : (first ++ tail).take blockCipherBytes = first ∧ (first ++ tail).drop blockCipherBytes = tail := by
      rcases lt_or_ge input.length blockCipherBytes with hshort | hlong
      · have hnil : tail = [] := eq_nil_of_length_eq_zero (by omega)
        rw [hnil, append_nil, take_of_length_le (by omega), drop_of_length_le (by omega)]
        exact ⟨rfl, rfl⟩
      · have hwhole : first.length = blockCipherBytes := by omega
        exact ⟨take_left' hwhole, drop_left' hwhole⟩
    rw [ctrBlocks, hsplit.1, hsplit.2, ← hfirst, xorBlock_xorBlock, ← htail, ih _ _ hrest, take_append_drop]

lemma blocks_cover {len : ℕ} (hlt : len < 2 ^ 32) : len ≤ blockCipherBytes * (sub32 len 1 / blockCipherBytes + 1) := by
  rcases Nat.eq_zero_or_pos len with rfl | hpos
  · exact Nat.zero_le _
  · rw [sub32_of_le hlt hpos]
    unfold blockCipherBytes
    omega

lemma length_ctrMode (k : SymEncKey) (iv : Bytes) (hlt : input.length < 2 ^ 32) :
    (k.ctrMode input iv).length = input.length := length_ctrBlocks _ _ _ (blocks_cover hlt)

lemma ctrMode_ctrMode (k : SymEncKey) (iv : Bytes) (hlt : input.length < 2 ^ 32) :
    k.ctrMode (k.ctrMode input iv) iv = input := by
  rw [ctrMode, length_ctrMode k iv hlt]
  exact ctrBlocks_ctrBlocks _ _ _ (blocks_cover hlt)

/-! ### What is read of a ciphertext -/

/-- A key whose MAC key is between two calls. -/
def fresh (prf : Bytes → ℕ → UInt8) (vmac : Bytes → Bytes → UInt64) : SymEncKey := ⟨prf, .fresh vmac⟩

variable {vmac : Bytes → Bytes → UInt64} {cipher : Bytes} {address : ℕ}

def macOf (cipher : Bytes) : Mac UInt64 where
  prefixOverhang := wordAt cipher 4
  postfixOverhang := wordAt cipher 8
  nonce := field cipher 12 16
  mac := UInt64.ofNat (ofLE (field cipher 28 8))

/-- Where `decrypt` puts the data. -/
def dataAddress (address : ℕ) (cipher : Bytes) : ℕ := address + (16 - address % 16 + (16 - wordAt cipher 4 % 16))

/-- The MAC in the ciphertext is accepted for its data. -/
def Accepts (vmac : Bytes → Bytes → UInt64) (address : ℕ) (cipher : Bytes) : Prop :=
  ((MacKey.fresh vmac).verify (macOf cipher) (dataAddress address cipher)
    (field cipher 36 (blockCipherBytes + wordAt cipher 0))).2 = true

instance (vmac : Bytes → Bytes → UInt64) (address : ℕ) (cipher : Bytes) : Decidable (Accepts vmac address cipher) :=
  inferInstanceAs (Decidable (_ = true))

lemma verify_fst (m : Mac UInt64) (b : Bytes) : ((MacKey.fresh vmac).verify m address b).1 = .fresh vmac :=
  MacKey.calls_fresh vmac [.verify m address b]

variable (prf vmac) in
/-- DECRYPT: a ciphertext that lies in the buffer is decrypted if its MAC is accepted. -/
lemma decrypt_eq (address : ℕ)
    (hfits : sizeofCiphertext + wordAt cipher 0 ≤ cipher.length) (hroom : cipher.length < 2 ^ 32) :
    (fresh prf vmac).decrypt address cipher = .ok (fresh prf vmac, if Accepts vmac address cipher then
      some ((fresh prf vmac).ctrMode (field cipher 52 (wordAt cipher 0)) (field cipher 36 16)) else none) := by
  unfold sizeofCiphertext at hfits
  have hsize : u32 (blockCipherBytes + wordAt cipher 0) = blockCipherBytes + wordAt cipher 0 :=
    u32_of_lt (by unfold blockCipherBytes; omega)
  have hbuf : ¬u32 (32 + (blockCipherBytes + wordAt cipher 0)) <
      16 - address % 16 + (16 - wordAt cipher 4 % 16) + (blockCipherBytes + wordAt cipher 0) := by
    rw [u32_of_lt (by unfold blockCipherBytes; omega)]
    omega
  have hlen : readLE cipher 0 4 = .ok (wordAt cipher 0) := readLE_of_fits (by omega)
  have hover : readLE cipher 4 4 = .ok (wordAt cipher 4) := readLE_of_fits (by omega)
  have hpostfix : readLE cipher 8 4 = .ok (wordAt cipher 8) := readLE_of_fits (by omega)
  have hdata : readAt cipher 36 (blockCipherBytes + wordAt cipher 0) =
      .ok (field cipher 36 (blockCipherBytes + wordAt cipher 0)) :=
    readAt_of_fits (by unfold blockCipherBytes; omega)
  have hverify : (MacKey.fresh vmac).verify (macOf cipher) (dataAddress address cipher)
      (field cipher 36 (blockCipherBytes + wordAt cipher 0)) = (.fresh vmac, decide (Accepts vmac address cipher)) :=
    Prod.ext (verify_fst _ _) (Bool.eq_iff_iff.mpr (decide_eq_true_iff (p := Accepts vmac address cipher)).symm)
  simp only [macOf, dataAddress] at hverify
  simp only [decrypt, fresh, hlen, hover, hpostfix, hdata, hsize, if_neg hbuf, hverify, ok_bind,
    readAt_of_fits (show 12 + 16 ≤ cipher.length by omega), readLE_of_fits (show 28 + 8 ≤ cipher.length by omega),
    readAt_of_fits (show 36 + 16 ≤ cipher.length by omega), readAt_of_fits hfits, decide_eq_false_iff_not]
  by_cases haccept : Accepts vmac address cipher
  · rw [if_neg (not_not.mpr haccept), if_pos haccept, pure_eq_ok]
  · rw [if_pos haccept, if_neg haccept, pure_eq_ok]

lemma decrypt_beyond (hlen : 4 ≤ cipher.length) (hroom : wordAt cipher 0 + 48 < 2 ^ 32)
    (hbeyond : cipher.length < sizeofCiphertext + wordAt cipher 0) (k : SymEncKey) (r : SymEncKey × Option Bytes) :
    k.decrypt address cipher ≠ .ok r := by
  intro h
  unfold sizeofCiphertext at hbeyond
  rw [decrypt, readLE_of_fits (by omega), ok_bind, ← wordAt] at h
  obtain ⟨p, -, h⟩ := of_bind h
  obtain ⟨data, hdata, -⟩ := of_bind h
  have hfits := (readAt_eq_ok.mp hdata).1
  rw [u32_of_lt (by unfold blockCipherBytes; omega)] at hfits
  unfold blockCipherBytes at hfits
  omega

/-! ### What `encrypt` made -/

variable {d : Draw} {buffer : Bytes}

lemma encrypt_fst (d : Draw) (buffer : Bytes) : ((fresh prf vmac).encrypt d buffer).1 = fresh prf vmac := by
  simp only [encrypt, fresh, MacKey.mac_fresh]

/-- The ciphertext that `encrypt` makes. -/
def sealed (prf : Bytes → ℕ → UInt8) (vmac : Bytes → Bytes → UInt64) (d : Draw) (buffer : Bytes) : Ciphertext :=
  ((fresh prf vmac).encrypt d buffer).2

lemma encrypt_fresh (d : Draw) (buffer : Bytes) :
    (fresh prf vmac).encrypt d buffer = (fresh prf vmac, sealed prf vmac d buffer) :=
  Prod.ext (encrypt_fst d buffer) rfl

lemma sealed_iv (d : Draw) (buffer : Bytes) : (sealed prf vmac d buffer).iv = d.iv := rfl

lemma sealed_bytes (d : Draw) (buffer : Bytes) :
    (sealed prf vmac d buffer).bytes = (fresh prf vmac).ctrMode buffer d.iv := rfl

lemma sealed_mac (d : Draw) (buffer : Bytes) : (sealed prf vmac d buffer).mac =
    ((MacKey.fresh vmac).mac d.nonce d.address (d.iv ++ (fresh prf vmac).ctrMode buffer d.iv)).2 := rfl

end SymEncKey

namespace Ciphertext

variable {c : Ciphertext}

/-- The fields have their sizes. -/
structure Sized (c : Ciphertext) : Prop where
  len : c.bytes.length < 2 ^ 32
  prefixOverhang : c.mac.prefixOverhang < 2 ^ 32
  postfixOverhang : c.mac.postfixOverhang < 2 ^ 32
  nonce : c.mac.nonce.length = 16
  iv : c.iv.length = 16

section

variable (h : c.Sized)
include h

lemma length_image : c.image.length = sizeofCiphertext + c.bytes.length := by
  simp only [image, length_append, length_toLE, h.nonce, h.iv, sizeofCiphertext]
  omega

lemma wordAt_image : wordAt c.image 0 = c.bytes.length := by
  rw [wordAt, image, field_head (length_toLE 4 _), ofLE_toLE_of_lt (h.len.trans_eq (by norm_num))]

lemma field_image (off len : ℕ) : field c.image (36 + off) len = field (c.iv ++ c.bytes) off len := by
  have hsplit : c.image = (toLE 4 c.bytes.length ++ toLE 4 c.mac.prefixOverhang ++ toLE 4 c.mac.postfixOverhang ++
      c.mac.nonce ++ toLE 8 c.mac.mac.toNat) ++ (c.iv ++ c.bytes) := by
    simp only [image, append_assoc]
  have hhead : (toLE 4 c.bytes.length ++ toLE 4 c.mac.prefixOverhang ++ toLE 4 c.mac.postfixOverhang ++
      c.mac.nonce ++ toLE 8 c.mac.mac.toNat).length = 36 := by
    simp only [length_append, length_toLE, h.nonce]
  rw [hsplit, field_skip (by rw [hhead]; omega), hhead, Nat.add_sub_cancel_left]

lemma field_iv : field c.image 36 16 = c.iv := (field_image h 0 16).trans (field_head h.iv)

lemma field_data : field c.image 36 (blockCipherBytes + c.bytes.length) = c.iv ++ c.bytes :=
  (field_image h 0 _).trans (take_of_length_le (by
    rw [drop_zero, length_append, h.iv, blockCipherBytes]))

lemma field_bytes : field c.image 52 c.bytes.length = c.bytes := by
  rw [field_image h 16, field_append h.iv, take_length]

lemma macOf_image : SymEncKey.macOf c.image = c.mac := by
  have hover : wordAt c.image 4 = c.mac.prefixOverhang := by
    rw [wordAt, image, field_middle (length_toLE 4 _) (length_toLE 4 _),
      ofLE_toLE_of_lt (h.prefixOverhang.trans_eq (by norm_num))]
  have hpostfix : wordAt c.image 8 = c.mac.postfixOverhang := by
    rw [wordAt, image, field_skip (by simp), length_toLE, field_middle (length_toLE 4 _) (length_toLE 4 _),
      ofLE_toLE_of_lt (h.postfixOverhang.trans_eq (by norm_num))]
  have hnonce : field c.image 12 16 = c.mac.nonce := by
    rw [image, field_skip (by simp), field_skip (by simp), length_toLE, length_toLE,
      field_middle (length_toLE 4 _) h.nonce]
  have htag : UInt64.ofNat (ofLE (field c.image 28 8)) = c.mac.mac := by
    rw [image, field_skip (by simp), field_skip (by simp), field_skip (by simp), length_toLE, length_toLE, length_toLE,
      field_middle (by rw [h.nonce]) (length_toLE 8 _), ofLE_toLE_of_lt c.mac.mac.toNat_lt, UInt64.ofNat_toNat]
  rw [SymEncKey.macOf, hover, hpostfix, hnonce, htag]

end

end Ciphertext

namespace SymEncKey

variable (prf : Bytes → ℕ → UInt8) (vmac : Bytes → Bytes → UInt64) {buffer : Bytes}

lemma sized_sealed (d : Draw) (hlt : buffer.length < 2 ^ 32) : (sealed prf vmac d buffer).Sized := by
  have hlen := length_ctrMode (fresh prf vmac) d.iv hlt
  have hmod := mod_lt ((d.iv ++ (fresh prf vmac).ctrMode buffer d.iv).drop
    (MacKey.overhang d.address (d.iv ++ (fresh prf vmac).ctrMode buffer d.iv).length)).length
    (show 0 < vmacNhbytes by decide)
  refine ⟨by rw [sealed_bytes, hlen]; exact hlt, ?_, ?_, ?_, d.iv_length⟩
  · rw [sealed_mac, MacKey.mac_fresh]
    dsimp only [MacKey.overhang]
    omega
  · rw [sealed_mac, MacKey.mac_fresh]
    unfold vmacNhbytes at hmod ⊢
    dsimp only
    omega
  · rw [sealed_mac, MacKey.mac_fresh]
    dsimp only
    rw [MacKey.length_evenNonce, d.nonce_length]

lemma length_sealed (d : Draw) (hlt : buffer.length < 2 ^ 32) :
    (sealed prf vmac d buffer).bytes.length = buffer.length ∧
      (sealed prf vmac d buffer).image.length = sizeofCiphertext + buffer.length := by
  have hbytes : (sealed prf vmac d buffer).bytes.length = buffer.length := length_ctrMode _ _ hlt
  exact ⟨hbytes, by rw [Ciphertext.length_image (sized_sealed prf vmac d hlt), hbytes]⟩

lemma dataAddress_mod (len : ℕ) {address a : ℕ} {cipher : Bytes} (hlen : 16 ≤ len)
    (hover : wordAt cipher 4 = MacKey.overhang a len) : dataAddress address cipher % 16 = a % 16 := by
  rw [dataAddress, hover, MacKey.overhang]
  omega

lemma decrypt_sealed (d : Draw) (address : ℕ) (hroom : sizeofCiphertext + buffer.length < 2 ^ 32) :
    (fresh prf vmac).decrypt address (sealed prf vmac d buffer).image = .ok (fresh prf vmac, some buffer) := by
  have hlt : buffer.length < 2 ^ 32 := by omega
  have hsized : (sealed prf vmac d buffer).Sized := sized_sealed prf vmac d hlt
  obtain ⟨hbytes, hlen⟩ := length_sealed prf vmac d hlt
  have hword : wordAt (sealed prf vmac d buffer).image 0 = (sealed prf vmac d buffer).bytes.length :=
    Ciphertext.wordAt_image hsized
  have hmac := Ciphertext.macOf_image hsized
  have haccept : Accepts vmac address (sealed prf vmac d buffer).image := by
    have haddress : dataAddress address (sealed prf vmac d buffer).image % 16 = d.address % 16 := by
      refine dataAddress_mod (d.iv ++ (fresh prf vmac).ctrMode buffer d.iv).length ?_ ?_
      · rw [length_append, d.iv_length]
        omega
      · exact congrArg Mac.prefixOverhang hmac
    rw [Accepts, hmac, hword, Ciphertext.field_data hsized, MacKey.verify_fresh, sealed_mac, MacKey.mac_fresh, sealed_iv,
      sealed_bytes, MacKey.overhang_congr haddress, MacKey.frame_congr haddress, MacKey.evenNonce_evenNonce]
    exact ⟨rfl, rfl, rfl⟩
  rw [decrypt_eq prf vmac address (by rw [hlen, hword, hbytes]) (by rw [hlen]; exact hroom), if_pos haccept, hword,
    Ciphertext.field_bytes hsized, Ciphertext.field_iv hsized, sealed_bytes, sealed_iv, ctrMode_ctrMode _ _ hlt]

/-- ROUND TRIP: counter mode writes as many bytes as it is given, the MAC is computed over whole blocks, and `decrypt`
    reads inside of the ciphertext and its own buffer and gives back the plaintext, wherever the ciphertext was and the
    buffer is. -/
theorem encrypt_roundTrips (prf : Bytes → ℕ → UInt8) (vmac : Bytes → Bytes → UInt64) (d : Draw) (address : ℕ)
    (plaintext : Bytes) (hlen : plaintext.length < 2 ^ 31) :
    ((fresh prf vmac).encrypt d plaintext).2.bytes.length = plaintext.length ∧
      (MacKey.frame d.address (d.iv ++ ((fresh prf vmac).encrypt d plaintext).2.bytes)).length =
        vmacNhbytes * MacKey.blocks d.address (blockCipherBytes + plaintext.length) ∧
      ((fresh prf vmac).encrypt d plaintext).1.decrypt address ((fresh prf vmac).encrypt d plaintext).2.image =
        .ok (fresh prf vmac, some plaintext) := by
  have hbytes := (length_sealed prf vmac d (hlen.trans (by norm_num))).1
  rw [encrypt_fresh]
  refine ⟨hbytes, ?_, decrypt_sealed prf vmac d address (by unfold sizeofCiphertext; omega)⟩
  rw [MacKey.length_frame, length_append, d.iv_length, hbytes, blockCipherBytes]

/-- A generator and a MAC that depend on all they are given. -/
def samplePrf (counter : Bytes) (i : ℕ) : UInt8 := counter.getD i 0 + UInt8.ofNat i

def sampleVmac (nonce message : Bytes) : UInt64 := UInt64.ofNat (ofLE nonce + 3 * ofLE message)

/-- Twenty bytes, encrypted at an odd address and decrypted at another one. -/
theorem encrypt_roundTrips_twenty : ((fresh samplePrf sampleVmac).decrypt 5 ((fresh samplePrf sampleVmac).encrypt
    ⟨List.replicate 16 7, List.replicate 16 9, 3, rfl, rfl⟩ (List.replicate 20 65)).2.image).map Prod.snd =
      .ok (some (List.replicate 20 65)) := by
  have h := (encrypt_roundTrips samplePrf sampleVmac ⟨List.replicate 16 7, List.replicate 16 9, 3, rfl, rfl⟩ 5
    (List.replicate 20 65) (by decide)).2.2
  rw [encrypt_fst] at h
  rw [h]
  rfl

end SymEncKey

end Embassies.Crypto
