import Embassies.Lib.Bytes
import Mathlib.Tactic.Ring

/-! Message authentication: `MacKey.cpp`.

    VMAC takes blocks of 128 bytes from aligned buffers. A message is cut at the first aligned byte and at the end
    of the last whole block, and the pieces are padded with zeros. How long the pieces were is not part of what is
    hashed. VMAC itself is a function of a nonce and of the bytes that have been passed to it. -/

namespace Embassies.Crypto

open List

/-- `VMAC_NHBYTES`. -/
def vmacNhbytes : ℕ := 128

/-- `Mac`. -/
structure Mac (τ : Type) where
  prefixOverhang : ℕ
  postfixOverhang : ℕ
  nonce : Bytes
  mac : τ

/-- `MacKey`: the hash under the key, and what has been passed to it since it was finished last. -/
structure MacKey (τ : Type) where
  vmac : Bytes → Bytes → τ
  ctx : Bytes

namespace MacKey

variable {τ : Type}
variable (vmac : Bytes → Bytes → τ) {b : Bytes} (address : ℕ) (nonce : Bytes) {c : Bytes} {x : UInt8}

/-- A block of zeros with bytes copied to its front. -/
def padded (b : Bytes) : Bytes := b ++ List.replicate (vmacNhbytes - b.length) 0

/-- `vmac_update(m, mbytes, ctx)`. -/
def update (k : MacKey τ) (m : Bytes) : MacKey τ := { k with ctx := k.ctx ++ m }

/-- `vmac(m, mbytes, nonce, NULL, ctx)`, which clears the context. -/
def finish (k : MacKey τ) (m nonce : Bytes) : MacKey τ × τ := ({ k with ctx := [] }, k.vmac nonce (k.ctx ++ m))

/-- `nonce[0] &= 0xfe`. -/
def evenNonce : Bytes → Bytes
  | [] => []
  | c :: nonce => (c &&& 0xfe) :: nonce

/-- The bytes before the first that is aligned. -/
def overhang (address len : ℕ) : ℕ := min ((16 - address % 16) % 16) len

/-- `computeMac(buffer, len, inc_nonce)`, for a buffer at an address. -/
def computeMac (k : MacKey τ) (address : ℕ) (buffer incNonce : Bytes) : MacKey τ × Mac τ :=
  let prefixOverhang := overhang address buffer.length
  let k := if prefixOverhang ≠ 0 then k.update (padded (buffer.take prefixOverhang)) else k
  let buffer := buffer.drop prefixOverhang
  let postfixOverhang := buffer.length % vmacNhbytes
  let bodyLen := buffer.length - postfixOverhang
  -- a message that is too short needs padding even for the body
  let k := if bodyLen < vmacNhbytes then k.update (padded (buffer.take bodyLen)) else k.update (buffer.take bodyLen)
  let nonce := evenNonce incNonce
  let (k, mac) := k.finish (padded (buffer.drop bodyLen)) nonce
  (k, ⟨prefixOverhang, postfixOverhang, nonce, mac⟩)

/-- `mac(random_supply, buffer, len)`, for the nonce that is drawn. -/
def mac (k : MacKey τ) (nonce : Bytes) (address : ℕ) (buffer : Bytes) : MacKey τ × Mac τ :=
  k.computeMac address buffer nonce

/-- `verify(alleged_mac, buffer, len)`. -/
def verify [DecidableEq τ] (k : MacKey τ) (allegedMac : Mac τ) (address : ℕ) (buffer : Bytes) : MacKey τ × Bool :=
  let (k, authenticMac) := k.computeMac address buffer allegedMac.nonce
  (k, authenticMac.prefixOverhang = allegedMac.prefixOverhang ∧
    authenticMac.postfixOverhang = allegedMac.postfixOverhang ∧ authenticMac.mac = allegedMac.mac)

/-! ### What is hashed -/

/-- The middle of a message, which is a block of zeros if there is none. -/
def body (b : Bytes) : Bytes :=
  if b.length - b.length % vmacNhbytes < vmacNhbytes then padded (b.take (b.length - b.length % vmacNhbytes))
  else b.take (b.length - b.length % vmacNhbytes)

/-- The blocks for what follows the first aligned byte. -/
def frameAligned (b : Bytes) : Bytes := body b ++ padded (b.drop (b.length - b.length % vmacNhbytes))

/-- The blocks for a message. -/
def frame (address : ℕ) (b : Bytes) : Bytes :=
  (if overhang address b.length ≠ 0 then padded (b.take (overhang address b.length)) else []) ++
    frameAligned (b.drop (overhang address b.length))

/-- The number of blocks for a message of a length. -/
def blocks (address len : ℕ) : ℕ :=
  (if overhang address len ≠ 0 then 1 else 0) + max 1 ((len - overhang address len) / vmacNhbytes) + 1

lemma computeMac_eq (b nonce : Bytes) :
    (⟨vmac, []⟩ : MacKey τ).computeMac address b nonce = (⟨vmac, []⟩, ⟨overhang address b.length,
      (b.drop (overhang address b.length)).length % vmacNhbytes, evenNonce nonce,
      vmac (evenNonce nonce) (frame address b)⟩) := by
  have hfirst : ∀ (c : Prop) [Decidable c] (k : MacKey τ) (x : Bytes),
      (if c then k.update x else k) = k.update (if c then x else []) := by
    intro c _ k x
    split
    · rfl
    · simp [update]
  have hbody : ∀ (c : Prop) [Decidable c] (k : MacKey τ) (x y : Bytes),
      (if c then k.update x else k.update y) = k.update (if c then x else y) := by
    intro c _ k x y
    split <;> rfl
  simp only [computeMac, hfirst, hbody, frame, frameAligned, body]
  simp [update, finish]

lemma evenNonce_evenNonce : evenNonce (evenNonce nonce) = evenNonce nonce := by
  cases nonce with
  | nil => rfl
  | cons c nonce => simp [evenNonce, UInt8.and_assoc]

lemma length_evenNonce : (evenNonce nonce).length = nonce.length := by
  cases nonce <;> rfl

lemma length_padded (h : b.length ≤ vmacNhbytes) : (padded b).length = vmacNhbytes := by
  rw [padded, length_append, length_replicate]
  omega

lemma padded_inj (hlen : b.length = c.length) (h : padded b = padded c) : b = c := (append_inj h hlen).1

lemma length_body (b : Bytes) : (body b).length = vmacNhbytes * max 1 (b.length / vmacNhbytes) := by
  have hdiv := Nat.div_add_mod b.length vmacNhbytes
  unfold body
  split
  case isTrue h =>
    have hzero : b.length / vmacNhbytes = 0 := by
      unfold vmacNhbytes at *
      omega
    rw [length_padded (by rw [length_take]; omega), hzero]
    rfl
  case isFalse h =>
    have hpos : 1 ≤ b.length / vmacNhbytes := by
      unfold vmacNhbytes at *
      omega
    rw [length_take, max_eq_right hpos]
    omega

lemma length_frame (b : Bytes) : (frame address b).length = vmacNhbytes * blocks address b.length := by
  have hmod := Nat.mod_lt (b.drop (overhang address b.length)).length (show 0 < vmacNhbytes by decide)
  have hover : overhang address b.length ≤ 15 := by
    unfold overhang
    omega
  have hlast : (padded ((b.drop (overhang address b.length)).drop ((b.drop (overhang address b.length)).length -
      (b.drop (overhang address b.length)).length % vmacNhbytes))).length = vmacNhbytes :=
    length_padded (by rw [length_drop]; omega)
  rw [frame, frameAligned, length_append, length_append, length_body, hlast, length_drop, blocks]
  split
  · rw [length_padded (by rw [length_take]; unfold vmacNhbytes; omega)]
    ring
  · rw [length_nil]
    ring

lemma mem_padded (h : x ∈ padded b) : x ∈ b ∨ x = 0 := by
  rcases mem_append.mp h with hb | hzero
  · exact .inl hb
  · exact .inr (eq_of_mem_replicate hzero)

lemma mem_body (h : x ∈ body b) : x ∈ b ∨ x = 0 := by
  unfold body at h
  split at h
  · exact (mem_padded h).imp_left mem_of_mem_take
  · exact .inl (mem_of_mem_take h)

lemma mem_frame {address : ℕ} (h : x ∈ frame address b) : x ∈ b ∨ x = 0 := by
  rcases mem_append.mp h with hfirst | haligned
  · split at hfirst
    · exact (mem_padded hfirst).imp_left mem_of_mem_take
    · exact absurd hfirst not_mem_nil
  · rcases mem_append.mp haligned with hbody | hlast
    · exact (mem_body hbody).imp_left mem_of_mem_drop
    · exact (mem_padded hlast).imp_left fun hx => mem_of_mem_drop (mem_of_mem_drop hx)

lemma frame_zeros (n : ℕ) : frame address (List.replicate n 0) = List.replicate (vmacNhbytes * blocks address n) 0 := by
  refine eq_replicate_iff.mpr ⟨by rw [length_frame, length_replicate], fun x hx => ?_⟩
  rcases mem_frame hx with hmem | hzero
  · exact eq_of_mem_replicate hmem
  · exact hzero

lemma body_inj (hlen : b.length = c.length) (h : body b = body c) :
    b.take (b.length - b.length % vmacNhbytes) = c.take (c.length - c.length % vmacNhbytes) := by
  unfold body at h
  rw [← hlen] at h ⊢
  split at h
  · exact padded_inj (by rw [length_take, length_take, hlen]) h
  · exact h

lemma frameAligned_inj (hlen : b.length = c.length) (h : frameAligned b = frameAligned c) : b = c := by
  obtain ⟨hbody, hlast⟩ := append_inj h (by rw [length_body, length_body, hlen])
  have htake := body_inj hlen hbody
  have hdrop := padded_inj (by rw [length_drop, length_drop, hlen]) hlast
  rw [← take_append_drop (b.length - b.length % vmacNhbytes) b, htake, hdrop, take_append_drop]

/-- INJECTIVE: messages of one length with the same blocks are the same. -/
lemma frame_inj {address : ℕ} (hlen : b.length = c.length) (h : frame address b = frame address c) : b = c := by
  unfold frame at h
  rw [← hlen] at h
  have htakes : (b.take (overhang address b.length)).length = (c.take (overhang address b.length)).length := by
    rw [length_take, length_take, hlen]
  have hdrops : (b.drop (overhang address b.length)).length = (c.drop (overhang address b.length)).length := by
    rw [length_drop, length_drop, hlen]
  by_cases hover : overhang address b.length = 0
  · rw [if_neg (not_not.mpr hover), if_neg (not_not.mpr hover), hover] at h
    exact frameAligned_inj hlen (by simpa using h)
  · rw [if_pos hover, if_pos hover] at h
    obtain ⟨hfirst, haligned⟩ := append_inj h (by simp only [padded, length_append, length_replicate, htakes])
    have htake := padded_inj htakes hfirst
    have hdrop := frameAligned_inj hdrops haligned
    rw [← take_append_drop (overhang address b.length) b, htake, hdrop, take_append_drop]

/-! ### Calls -/

/-- A call of a key. -/
inductive MacCall (τ : Type) where
  | mac (nonce : Bytes) (address : ℕ) (buffer : Bytes)
  | verify (allegedMac : Mac τ) (address : ℕ) (buffer : Bytes)

def call [DecidableEq τ] (k : MacKey τ) : MacCall τ → MacKey τ
  | .mac nonce address buffer => (k.mac nonce address buffer).1
  | .verify allegedMac address buffer => (k.verify allegedMac address buffer).1

def fresh (vmac : Bytes → Bytes → τ) : MacKey τ := ⟨vmac, []⟩

lemma calls_fresh [DecidableEq τ] (calls : List (MacCall τ)) : calls.foldl call (fresh vmac) = fresh vmac := by
  induction calls with
  | nil => rfl
  | cons c calls ih =>
    have hcall : call (fresh vmac) c = fresh vmac := by
      cases c with
      | mac nonce address buffer => simp only [call, mac, fresh, computeMac_eq]
      | verify allegedMac address buffer => simp only [call, verify, fresh, computeMac_eq]
    rw [foldl_cons, hcall, ih]

lemma overhang_congr {address address' : ℕ} (h : address' % 16 = address % 16) (len : ℕ) :
    overhang address' len = overhang address len := by
  rw [overhang, h, overhang]

lemma frame_congr {address address' : ℕ} (h : address' % 16 = address % 16) (b : Bytes) :
    frame address' b = frame address b := by
  rw [frame, overhang_congr h, frame]

/-- MAC: a message has its overhangs and the hash of its blocks. -/
lemma mac_fresh (address : ℕ) (b : Bytes) : (fresh vmac).mac nonce address b = (fresh vmac, ⟨overhang address b.length,
      (b.drop (overhang address b.length)).length % vmacNhbytes, evenNonce nonce,
      vmac (evenNonce nonce) (frame address b)⟩) := by
  rw [mac, fresh, computeMac_eq]

/-- VERIFY: a message is accepted if the overhangs are its own and its MAC is the alleged one. -/
lemma verify_fresh [DecidableEq τ] (m : Mac τ) (address : ℕ) (b : Bytes) :
    ((fresh vmac).verify m address b).2 = true ↔ overhang address b.length = m.prefixOverhang ∧
      (b.drop (overhang address b.length)).length % vmacNhbytes = m.postfixOverhang ∧
      vmac (evenNonce m.nonce) (frame address b) = m.mac := by
  simp only [verify, fresh, computeMac_eq, decide_eq_true_eq]

/-- BINDING: for two lengths, no other message passes for the one whose MAC it is given with, exactly if the lengths are
    equal or take different numbers of blocks. A message always passes with its own MAC. -/
theorem mac_binds_iff [DecidableEq τ] (vmac : Bytes → Bytes → τ) (hvmac : Function.Injective2 vmac)
    (address len len' : ℕ) : ((∀ (address' : ℕ) (b b' nonce : Bytes) (m : Mac τ) (before between : List (MacCall τ)),
      address' % 16 = address % 16 → nonce.length = 16 → b.length = len → b'.length = len' →
      m.nonce = ((before.foldl call (fresh vmac)).mac nonce address b).2.nonce →
      m.mac = ((before.foldl call (fresh vmac)).mac nonce address b).2.mac →
      ((between.foldl call ((before.foldl call (fresh vmac)).mac nonce address b).1).verify m address' b').2 = true →
      b' = b) ↔ len = len' ∨ blocks address len ≠ blocks address len') ∧
    ∀ (address' : ℕ) (b nonce : Bytes) (before between : List (MacCall τ)), address' % 16 = address % 16 →
      nonce.length = 16 → ((between.foldl call ((before.foldl call (fresh vmac)).mac nonce address b).1).verify
        ((before.foldl call (fresh vmac)).mac nonce address b).2 address' b).2 = true := by
  simp only [calls_fresh, mac_fresh, verify_fresh]
  refine ⟨⟨fun h => ?_, ?_⟩, ?_⟩
  · -- messages of zeros of the two lengths have the same blocks
    rw [or_iff_not_imp_right, not_not]
    intro hblocks
    let nonce : Bytes := List.replicate 16 0
    have hsame := h address (List.replicate len 0) (List.replicate len' 0) nonce
      ⟨_, _, evenNonce nonce, vmac (evenNonce nonce) (frame address (List.replicate len 0))⟩ [] [] rfl
      (length_replicate ..) (length_replicate ..) (length_replicate ..) rfl rfl ⟨rfl, rfl, by rw [evenNonce_evenNonce, frame_zeros, frame_zeros, hblocks]⟩
    simpa using congrArg List.length hsame.symm
  · rintro hlens address' b b' nonce m before between haddress - rfl rfl hnonce hm ⟨-, -, hverify⟩
    rw [hm, frame_congr haddress] at hverify
    have hframe := (hvmac hverify).2
    rcases hlens with hlen | hblocks
    · exact frame_inj hlen.symm hframe
    · have hlength := congrArg List.length hframe
      rw [length_frame, length_frame] at hlength
      exact absurd (Nat.eq_of_mul_eq_mul_left (by decide) hlength).symm hblocks
  · intro address' b nonce before between haddress _
    rw [overhang_congr haddress, frame_congr haddress, evenNonce_evenNonce]
    exact ⟨rfl, rfl, rfl⟩

/-- The MAC of one byte is not accepted for another, for the hash that is its own input. -/
theorem mac_binds_one : Function.Injective2 (Prod.mk : Bytes → Bytes → Bytes × Bytes) ∧
    (((fresh Prod.mk).mac (List.replicate 16 0) 0 [7]).1.verify ((fresh Prod.mk).mac (List.replicate 16 0) 0 [7]).2 0
      [8]).2 = false := by
  have hinj : Function.Injective2 (Prod.mk : Bytes → Bytes → Bytes × Bytes) := fun _ _ _ _ h => Prod.mk.inj h
  refine ⟨hinj, Bool.eq_false_iff.mpr fun hverify => ?_⟩
  have hsame : ([8] : Bytes) = [7] := (mac_binds_iff Prod.mk hinj 0 1 1).1.mpr (.inl rfl) 0 [7] [8] _ _ [] [] rfl
    (length_replicate ..) rfl rfl rfl rfl hverify
  exact absurd hsame (by decide)

/-- The MAC of one zero is that of the empty message. -/
theorem not_mac_binds : ¬∀ (τ : Type) (_ : DecidableEq τ) (vmac : Bytes → Bytes → τ), Function.Injective2 vmac →
    ∀ (address address' : ℕ) (b b' nonce : Bytes) (m : Mac τ), address' % 16 = address % 16 → nonce.length = 16 →
      m.nonce = ((fresh vmac).mac nonce address b).2.nonce → m.mac = ((fresh vmac).mac nonce address b).2.mac →
      (((fresh vmac).mac nonce address b).1.verify m address' b').2 = true → b' = b := by
  intro h
  let nonce : Bytes := List.replicate 16 0
  have hframe : frame 0 [0] = frame 0 [] := by decide +kernel
  have hverify : (((fresh Prod.mk).mac nonce 0 [0]).1.verify
      ⟨0, 0, evenNonce nonce, (evenNonce nonce, frame 0 [0])⟩ 0 []).2 = true := by
    rw [mac_fresh, verify_fresh, hframe, evenNonce_evenNonce]
    exact ⟨rfl, rfl, rfl⟩
  have hsame := h (Bytes × Bytes) inferInstance Prod.mk (fun _ _ _ _ heq => Prod.mk.inj heq) 0 0 [0] [] nonce
    ⟨0, 0, evenNonce nonce, (evenNonce nonce, frame 0 [0])⟩ rfl rfl (by rw [mac_fresh]) (by rw [mac_fresh]) hverify
  cases hsame

end MacKey

end Embassies.Crypto
