import Embassies.Crypto.SymEncKey

/-! The encrypted key-value client: `EncryptedKeyValClient.cpp`.

    The client encrypts each key and value as one record and keeps the ciphertext on a server that it does not trust.
    What comes back has three lengths in it, one inside the other: that of the reply, that of the ciphertext and that of
    the record. The first two are the server's, and each is compared with the one around it without the header between
    them. The record is what the client wrote, as long as nobody forges a ciphertext. -/

namespace Embassies.EncryptedKeyVal

open Checked Crypto List Function SymEncKey

/-- `Key`. -/
abbrev Key := UInt64

/-- `Value`. -/
structure Value where
  len : ℕ
  bytes : Bytes
  deriving DecidableEq

/-- `sizeof(KeyVal)`. -/
def sizeofKeyVal : ℕ := 12

/-- `sizeof(KVRequest)`. -/
def sizeofKVRequest : ℕ := 13

/-- What else is at least in an address space: the objects of the client. -/
def restOfProcess : ℕ := 64

/-- `KeyVal`; the length is that of the value. The request that carries it is in the address space. -/
structure KeyVal where
  key : Key
  val : Bytes
  fits : sizeofKVRequest + sizeofCiphertext + sizeofKeyVal + val.length + restOfProcess ≤ 2 ^ 32

/-- A record in memory. -/
def KeyVal.image (kv : KeyVal) : Bytes := toLE 8 kv.key.toNat ++ (toLE 4 kv.val.length ++ kv.val)

/-- A received buffer. -/
structure ZeroCopyBuf where
  data : Bytes
  fits : data.length + restOfProcess ≤ 2 ^ 32

/-- What comes of sending a request and waiting for its reply. -/
inductive Exchange where
  | sendFailed
  | timeout
  | received (buf : ZeroCopyBuf)

/-- `KVRequest`. -/
inductive KVRequest where
  | lookup (key : Key)
  | insert (key : Key) (val : Bytes)

/-- `hash_buf(buf, len)`, whose length is an `int`. -/
def hashBuf (buf : Bytes) (len : ℕ) : Checked ℕ := do
  let b ← readAt buf 0 (int32 len).toNat
  pure (b.foldl (fun v p => u32 (v * 131 + p.toNat)) 0)

/-- The first part of `insert(kv)`: the whole record is encrypted, so that its length and its key can be checked on
    the way out. -/
def insertRequest (k : SymEncKey) (d : Draw) (kv : KeyVal) : SymEncKey × Ciphertext × KVRequest :=
  let (k, cipher) := k.encrypt d kv.image
  (k, cipher, .insert kv.key cipher.image)

/-- The second part of `insert(kv)`: it insists upon an acknowledgement of its message. -/
def insertReply (val : Bytes) : Exchange → Checked Bool
  | .sendFailed => pure false
  | .timeout => .error .liteAssert
  | .received reply => do
    let hash131 ← hashBuf val val.length
    liteAssert (reply.data.length = 4)
    let h ← readLE reply.data 0 4
    liteAssert (h = hash131)
    pure true

/-- The last part of `lookup(key)`: the value in a decrypted record. -/
def takeValue (key : Key) (plain : Bytes) : Checked (Option Value) :=
  if plain.length < sizeofKeyVal then pure none else do
  let kvKey ← readLE plain 0 8
  -- the record is not the one asked for
  if UInt64.ofNat kvKey ≠ key then pure none else do
  let len ← readLE plain 8 4
  let newVal ← readAt plain 8 (u32 (4 + len))
  pure (some ⟨len, newVal.drop 4⟩)

/-- `lookup(key)`, for the address of the buffer that `decrypt` allocates. -/
def lookup (k : SymEncKey) (address : ℕ) (key : Key) : Exchange → Checked (SymEncKey × Option Value)
  | .sendFailed => pure (k, none)
  | .timeout => pure (k, none)
  | .received buf =>
    if buf.data.length < 4 then pure (k, none) else do
    let len ← readLE buf.data 0 4
    if len = 0 ∨ buf.data.length < len ∨ len < sizeofCiphertext then pure (k, none) else do
    -- computed for a message only
    let _ ← hashBuf (buf.data.drop 4) len
    let cipherLen ← readLE (buf.data.drop 4) 0 4
    if cipherLen = 0 ∨ len < cipherLen then pure (k, none) else do
    let (k, plain) ← k.decrypt address (buf.data.drop 4)
    match plain with
    | none => pure (k, none)
    | some plain => do
      let val ← takeValue key plain
      pure (k, val)

/-! ### Sessions -/

/-- A client, and the records that it has encrypted so far. -/
structure Session where
  key : SymEncKey
  history : List (KeyVal × Ciphertext)

/-- A call of the client, with what it draws, where it allocates and what the network does. -/
inductive Call where
  | insert (kv : KeyVal) (d : Draw) (exchange : Exchange)
  | lookup (key : Key) (address : ℕ) (exchange : Exchange)

/-- A client before its first call. -/
def Session.fresh (prf : Bytes → ℕ → UInt8) (vmac : Bytes → Bytes → UInt64) : Session := ⟨.fresh prf vmac, []⟩

def Session.call (s : Session) : Call → Checked Session
  | .insert kv d exchange => do
    let (k, cipher, _) := insertRequest s.key d kv
    let _ ← insertReply cipher.image exchange
    pure ⟨k, s.history ++ [(kv, cipher)]⟩
  | .lookup key address exchange => do
    let (k, _) ← lookup s.key address key exchange
    pure { s with key := k }

/-- The encryption accepts only what the client produced. -/
def Unforged (s : Session) (address : ℕ) : Exchange → Prop
  | .received buf => ∀ k plain, s.key.decrypt address (buf.data.drop 4) = .ok (k, some plain) →
      ∃ e ∈ s.history, e.2.iv = field (buf.data.drop 4) 36 16 ∧
        e.2.bytes = field (buf.data.drop 4) sizeofCiphertext (wordAt (buf.data.drop 4) 0)
  | _ => True

/-- A lookup that reads inside what it has, and returns nothing or a value that was inserted with the key. -/
def Authentic (s : Session) (key : Key) (result : Checked (SymEncKey × Option Value)) : Prop :=
  ∃ k val, result = .ok (k, val) ∧
    ∀ v, val = some v → ∃ e ∈ s.history, e.1.key = key ∧ v = ⟨e.1.val.length, e.1.val⟩

/-- The checks of the first length are passed. -/
structure Admitted (b : Bytes) : Prop where
  head : 4 ≤ b.length
  upper : wordAt b 0 ≤ b.length
  lower : sizeofCiphertext ≤ wordAt b 0

/-- What a reply that passes the checks has to be, for the reads to stay inside: it is as long as its two lengths say,
    with their headers. (A length that is a negative `int` is not hashed.) -/
structure Bounded (b : Bytes) : Prop where
  value : wordAt b 0 < 2 ^ 31 → 4 + wordAt b 0 ≤ b.length
  cipher : wordAt (b.drop 4) 0 ≠ 0 → wordAt (b.drop 4) 0 ≤ wordAt b 0 →
    4 + sizeofCiphertext + wordAt (b.drop 4) 0 ≤ b.length

/-- The condition on what the network does. -/
def InBounds : Exchange → Prop
  | .received buf => Admitted buf.data → Bounded buf.data
  | _ => True

/-! ### Records -/

variable {prf : Bytes → ℕ → UInt8} {vmac : Bytes → Bytes → UInt64} {key : Key} {address : ℕ} {kv : KeyVal}

lemma length_image (kv : KeyVal) : kv.image.length = sizeofKeyVal + kv.val.length := by
  simp only [KeyVal.image, length_append, length_toLE, sizeofKeyVal]
  omega

lemma image_fits (kv : KeyVal) : sizeofCiphertext + kv.image.length < 2 ^ 32 := by
  have hfits := kv.fits
  rw [length_image]
  simp only [sizeofKVRequest, restOfProcess] at hfits
  omega

lemma image_lt (kv : KeyVal) : kv.image.length < 2 ^ 32 := (Nat.le_add_left _ _).trans_lt (image_fits kv)

lemma takeValue_image (key : Key) (kv : KeyVal) :
    takeValue key kv.image = .ok (if kv.key = key then some ⟨kv.val.length, kv.val⟩ else none) := by
  have hfits := image_fits kv
  have hlen := length_image kv
  unfold sizeofKeyVal at hlen
  have hkey : readLE kv.image 0 8 = .ok kv.key.toNat := by
    rw [readLE_of_fits (by omega), KeyVal.image, field_head (length_toLE 8 _), ofLE_toLE_of_lt kv.key.toNat_lt]
  have hval : readLE kv.image 8 4 = .ok kv.val.length := by
    rw [readLE_of_fits (by omega), KeyVal.image, field_middle (length_toLE 8 _) (length_toLE 4 _),
      ofLE_toLE_of_lt (by omega)]
  have hbytes : readAt kv.image 8 (u32 (4 + kv.val.length)) = .ok (toLE 4 kv.val.length ++ kv.val) := by
    rw [u32_of_lt (by omega), readAt_of_fits (by omega), KeyVal.image, field_append (length_toLE 8 _),
      take_of_length_le (by rw [length_append, length_toLE])]
  rw [takeValue, if_neg (by unfold sizeofKeyVal; omega), hkey, ok_bind, UInt64.ofNat_toNat]
  by_cases heq : kv.key = key
  · rw [if_neg (not_not.mpr heq), hval, ok_bind, hbytes, ok_bind, if_pos heq, pure_eq_ok,
      drop_left' (length_toLE 4 _)]
  · rw [if_pos heq, if_neg heq, pure_eq_ok]

/-! ### What a lookup reads -/

lemma hashBuf_ok (b : Bytes) {len : ℕ} (hlt : len < 2 ^ 32) (h : len < 2 ^ 31 → len ≤ b.length) :
    ∃ v, hashBuf b len = .ok v := by
  have hfits : 0 + (int32 len).toNat ≤ b.length := by
    rw [int32]
    split
    case isTrue hpos =>
      have hle := h hpos
      omega
    case isFalse => omega
  exact ⟨_, by rw [hashBuf, readAt_of_fits hfits, ok_bind, pure_eq_ok]⟩

lemma le_of_hashBuf {b : Bytes} {len v : ℕ} (h : hashBuf b len = .ok v) (hlt : len < 2 ^ 31) : len ≤ b.length := by
  obtain ⟨x, hx, -⟩ := of_bind h
  have hfits := (readAt_eq_ok.mp hx).1
  rw [int32, if_pos hlt] at hfits
  omega

lemma wordAt_lt (b : Bytes) (off : ℕ) : wordAt b off < 2 ^ 32 := by
  have hlen : (field b off 4).length ≤ 4 := length_take_le _ _
  exact (ofLE_lt _).trans_le ((Nat.pow_le_pow_right (by norm_num) hlen).trans_eq (by norm_num))

variable {buf : ZeroCopyBuf} {k : SymEncKey} {r : SymEncKey × Option Value}

lemma lookup_of_not_admitted (h : ¬Admitted buf.data) : lookup k address key (.received buf) = .ok (k, none) := by
  rw [lookup]
  by_cases hhead : buf.data.length < 4
  · rw [if_pos hhead, pure_eq_ok]
  rw [if_neg hhead, readLE_of_fits (by omega), ok_bind, ← wordAt, if_pos, pure_eq_ok]
  by_contra hno
  rw [not_or, not_or] at hno
  exact h ⟨by omega, by omega, by omega⟩

lemma lookup_of_admitted (h : Admitted buf.data) : lookup k address key (.received buf) = (do
    let _ ← hashBuf (buf.data.drop 4) (wordAt buf.data 0)
    if wordAt (buf.data.drop 4) 0 = 0 ∨ wordAt buf.data 0 < wordAt (buf.data.drop 4) 0 then pure (k, none) else do
    let (k, plain) ← k.decrypt address (buf.data.drop 4)
    match plain with
    | none => pure (k, none)
    | some plain => do
      let val ← takeValue key plain
      pure (k, val)) := by
  have hhead := h.head
  have hupper := h.upper
  have hlower := h.lower
  unfold sizeofCiphertext at hlower
  have hcipher : readLE (buf.data.drop 4) 0 4 = .ok (wordAt (buf.data.drop 4) 0) :=
    readLE_of_fits (by rw [length_drop]; omega)
  rw [lookup, if_neg (by omega), readLE_of_fits (by omega), ok_bind, ← wordAt,
    if_neg (by unfold sizeofCiphertext; omega)]
  simp only [hcipher, ok_bind]

lemma bounded_of_lookup (h : Admitted buf.data) (hr : lookup k address key (.received buf) = .ok r)
    : Bounded buf.data := by
  rw [lookup_of_admitted h] at hr
  obtain ⟨v, hhash, hr⟩ := of_bind hr
  have hhead := h.head
  refine ⟨fun hlt => ?_, fun hne hle => ?_⟩
  · have hfits := le_of_hashBuf hhash hlt
    rw [length_drop] at hfits
    omega
  · rw [if_neg (by omega)] at hr
    obtain ⟨r', hdecrypt, -⟩ := of_bind hr
    by_contra hbeyond
    have hupper := h.upper
    have hlower := h.lower
    have hspace := buf.fits
    unfold sizeofCiphertext at hbeyond hlower
    unfold restOfProcess at hspace
    refine decrypt_beyond ?_ ?_ ?_ k r' hdecrypt
    · rw [length_drop]
      omega
    · omega
    · rw [length_drop]
      unfold sizeofCiphertext
      omega

/-- What `lookup` returns if the ciphertext lies in the buffer. -/
def opened (prf : Bytes → ℕ → UInt8) (vmac : Bytes → Bytes → UInt64) (address : ℕ) (key : Key) (b : Bytes) :
    Checked (Option Value) :=
  if wordAt (b.drop 4) 0 = 0 ∨ wordAt b 0 < wordAt (b.drop 4) 0 ∨ ¬SymEncKey.Accepts vmac address (b.drop 4) then pure none
  else takeValue key ((SymEncKey.fresh prf vmac).ctrMode (field (b.drop 4) 52 (wordAt (b.drop 4) 0))
    (field (b.drop 4) 36 16))

lemma Bounded.fits (hb : Bounded buf.data) (hzero : wordAt (buf.data.drop 4) 0 ≠ 0)
    (hle : wordAt (buf.data.drop 4) 0 ≤ wordAt buf.data 0) :
    sizeofCiphertext + wordAt (buf.data.drop 4) 0 ≤ (buf.data.drop 4).length ∧ (buf.data.drop 4).length < 2 ^ 32 := by
  have hcipher := hb.cipher hzero hle
  have hspace := buf.fits
  unfold restOfProcess at hspace
  rw [length_drop]
  omega

/-- LOOKUP inside the buffer: nothing, or the value of the record that was accepted. -/
lemma lookup_of_bounded (h : Admitted buf.data) (hb : Bounded buf.data) :
    lookup (fresh prf vmac) address key (.received buf) = (do
      let val ← opened prf vmac address key buf.data
      pure (fresh prf vmac, val)) := by
  have hhead := h.head
  obtain ⟨v, hhash⟩ := hashBuf_ok (buf.data.drop 4) (wordAt_lt buf.data 0) fun hlt => by
    have hvalue := hb.value hlt
    rw [length_drop]
    omega
  rw [lookup_of_admitted h, hhash, ok_bind, opened]
  by_cases hcheck : wordAt (buf.data.drop 4) 0 = 0 ∨ wordAt buf.data 0 < wordAt (buf.data.drop 4) 0
  · rw [if_pos hcheck, if_pos (hcheck.imp_right .inl)]
    rfl
  rw [not_or, not_lt] at hcheck
  obtain ⟨hfits, hroom⟩ := hb.fits hcheck.1 hcheck.2
  rw [if_neg (by omega), decrypt_eq prf vmac address hfits hroom, ok_bind]
  by_cases haccept : SymEncKey.Accepts vmac address (buf.data.drop 4)
  · rw [if_pos haccept, if_neg (by simp [hcheck, haccept])]
  · rw [if_neg haccept, if_pos (.inr (.inr haccept))]
    rfl

/-! ### Sessions -/

/-- The key is between two calls, and the history is of ciphertexts that it made of their records. -/
structure Consistent (prf : Bytes → ℕ → UInt8) (vmac : Bytes → Bytes → UInt64) (s : Session) : Prop where
  key : s.key = .fresh prf vmac
  sealed : ∀ e ∈ s.history, ∃ d, e.2 = SymEncKey.sealed prf vmac d e.1.image

variable {s s' : Session} {x : Exchange}

lemma lookup_key (hr : lookup (fresh prf vmac) address key x = .ok r)
    : r.1 = .fresh prf vmac := by
  cases x with
  | sendFailed =>
    cases hr
    rfl
  | timeout =>
    cases hr
    rfl
  | received buf =>
    by_cases h : Admitted buf.data
    · rw [lookup_of_bounded h (bounded_of_lookup h hr)] at hr
      obtain ⟨val, -, hr⟩ := of_bind hr
      cases hr
      rfl
    · rw [lookup_of_not_admitted h] at hr
      cases hr
      rfl

/-- STEP: a call keeps the session consistent. -/
lemma Consistent.call {c : Call} (h : Consistent prf vmac s) (hc : s.call c = .ok s') : Consistent prf vmac s' := by
  cases c with
  | insert kv d exchange =>
    rw [Session.call, h.key] at hc
    obtain ⟨sent, -, hc⟩ := of_bind hc
    cases hc
    refine ⟨encrypt_fst d kv.image, fun e he => ?_⟩
    rcases mem_append.mp he with hold | hnew
    · exact h.sealed e hold
    · rw [mem_singleton] at hnew
      subst hnew
      exact ⟨d, rfl⟩
  | lookup key address exchange =>
    rw [Session.call, h.key] at hc
    obtain ⟨r, hr, hc⟩ := of_bind hc
    cases hc
    exact ⟨lookup_key hr, h.sealed⟩

lemma consistent_fresh : Consistent prf vmac (.fresh prf vmac) := ⟨rfl, by rintro _ ⟨⟩⟩

lemma opened_authentic (key : Key) (h : Consistent prf vmac s) {buf : ZeroCopyBuf} (hb : Bounded buf.data)
    (hforge : Unforged s address (.received buf)) :
    ∃ val, opened prf vmac address key buf.data = .ok val ∧
      ∀ v, val = some v → ∃ e ∈ s.history, e.1.key = key ∧ v = ⟨e.1.val.length, e.1.val⟩ := by
  rw [opened]
  split
  case isTrue => exact ⟨none, rfl, by rintro _ ⟨⟩⟩
  case isFalse hgo =>
    rw [not_or, not_or, not_lt, not_not] at hgo
    obtain ⟨hzero, hle, haccept⟩ := hgo
    obtain ⟨hfits, hroom⟩ := hb.fits hzero hle
    have hdecrypt := decrypt_eq prf vmac address hfits hroom
    rw [if_pos haccept, ← h.key] at hdecrypt
    obtain ⟨e, he, hiv, hbytes⟩ := hforge _ _ hdecrypt
    obtain ⟨d, hd⟩ := h.sealed e he
    have hplain : (fresh prf vmac).ctrMode (field (buf.data.drop 4) 52 (wordAt (buf.data.drop 4) 0))
        (field (buf.data.drop 4) 36 16) = e.1.image := by
      rw [sizeofCiphertext] at hbytes
      rw [← hiv, ← hbytes, hd, sealed_bytes, sealed_iv,
        ctrMode_ctrMode _ _ (image_lt _)]
    rw [hplain, takeValue_image]
    refine ⟨_, rfl, fun v hv => ?_⟩
    by_cases heq : e.1.key = key
    · rw [if_pos heq] at hv
      exact ⟨e, he, heq, (Option.some.inj hv).symm⟩
    · rw [if_neg heq] at hv
      cases hv

/-- REPLIES: a lookup is authentic if and only if it stays inside the buffer. -/
lemma authentic_iff_inBounds (h : Consistent prf vmac s) (hforge : Unforged s address x) :
    Authentic s key (lookup s.key address key x) ↔ InBounds x := by
  cases x with
  | sendFailed => exact iff_of_true ⟨_, none, rfl, by rintro _ ⟨⟩⟩ trivial
  | timeout => exact iff_of_true ⟨_, none, rfl, by rintro _ ⟨⟩⟩ trivial
  | received buf =>
    constructor
    · rintro ⟨k, val, hr, -⟩ hadmitted
      exact bounded_of_lookup hadmitted hr
    · intro hbounds
      by_cases hadmitted : Admitted buf.data
      case neg => exact ⟨_, none, lookup_of_not_admitted hadmitted, by rintro _ ⟨⟩⟩
      have hb := hbounds hadmitted
      obtain ⟨val, hval, hauthentic⟩ := opened_authentic key h hb hforge
      rw [h.key, lookup_of_bounded hadmitted hb, hval, ok_bind]
      exact ⟨_, val, rfl, hauthentic⟩

/-! ### An honest store -/

/-- What a store that keeps the last value of each key answers. -/
def answer (store : Key → Option Bytes) : KVRequest → Checked ((Key → Option Bytes) × Bytes)
  | .insert key val => do
    let hash131 ← hashBuf val val.length
    pure (update store key (some val), toLE 4 hash131)
  | .lookup key => match store key with
    | none => pure (store, toLE 4 0)
    | some val => pure (store, toLE 4 val.length ++ val)

/-- A reply arrives if there is room for it. -/
def deliver (reply : Bytes) : Exchange :=
  if h : reply.length + restOfProcess ≤ 2 ^ 32 then .received ⟨reply, h⟩ else .timeout

/-- A call of a client of an honest store. -/
inductive HonestCall where
  | insert (kv : KeyVal) (d : Draw)
  | lookup (key : Key) (address : ℕ)

/-- The values that the lookups among the calls return. -/
def results : SymEncKey → (Key → Option Bytes) → List HonestCall → Checked (List (Option Value))
  | _, _, [] => pure []
  | k, store, .insert kv d :: calls => do
    let (k, cipher, request) := insertRequest k d kv
    let (store, reply) ← answer store request
    let _ ← insertReply cipher.image (deliver reply)
    results k store calls
  | k, store, .lookup key address :: calls => do
    let (store, reply) ← answer store (.lookup key)
    let (k, val) ← EncryptedKeyVal.lookup k address key (deliver reply)
    let vals ← results k store calls
    pure (val :: vals)

/-- The values that they are to return: for each key the one that was inserted last. -/
def expected : (Key → Option Bytes) → List HonestCall → List (Option Value)
  | _, [] => []
  | dict, .insert kv _ :: calls => expected (update dict kv.key (some kv.val)) calls
  | dict, .lookup key _ :: calls => (dict key).map (fun v => ⟨v.length, v⟩) :: expected dict calls

/-- The store has ciphertexts of the records of the dictionary. -/
def Keeps (prf : Bytes → ℕ → UInt8) (vmac : Bytes → Bytes → UInt64) (store dict : Key → Option Bytes) : Prop :=
  ∀ key, store key = none ∧ dict key = none ∨
    ∃ (kv : KeyVal) (d : Draw), kv.key = key ∧ store key = some (SymEncKey.sealed prf vmac d kv.image).image ∧
      dict key = some kv.val

lemma Keeps.insert {store dict : Key → Option Bytes} (h : Keeps prf vmac store dict) (kv : KeyVal) (d : Draw) :
    Keeps prf vmac (update store kv.key (some (sealed prf vmac d kv.image).image))
      (update dict kv.key (some kv.val)) := by
  intro key
  by_cases heq : key = kv.key
  · subst heq
    exact .inr ⟨kv, d, rfl, update_self .., update_self ..⟩
  · rw [update_of_ne heq, update_of_ne heq]
    exact h key

lemma hashBuf_lt {b : Bytes} {len v : ℕ} (h : hashBuf b len = .ok v) : v < 2 ^ 32 := by
  have hfold : ∀ (b : Bytes) (v : ℕ), v < 2 ^ 32 → b.foldl (fun v p => u32 (v * 131 + p.toNat)) v < 2 ^ 32 := by
    intro b
    induction b with
    | nil => exact fun v hv => hv
    | cons p b ih => exact fun v _ => ih _ (u32_lt _)
  obtain ⟨x, -, h⟩ := of_bind h
  cases h
  exact hfold x 0 (by norm_num)

lemma deliver_of_fits {reply : Bytes} (h : reply.length + restOfProcess ≤ 2 ^ 32) :
    deliver reply = .received ⟨reply, h⟩ := dif_pos h

lemma insertReply_deliver {val : Bytes} {h : ℕ} (hh : hashBuf val val.length = .ok h) :
    insertReply val (deliver (toLE 4 h)) = .ok true := by
  have hread : readLE (toLE 4 h) 0 4 = .ok h := by
    have hfield : field (toLE 4 h) 0 4 = toLE 4 h := take_of_length_le (by simp)
    rw [readLE_of_fits (by rw [length_toLE]), hfield, ofLE_toLE_of_lt ((hashBuf_lt hh).trans_eq (by norm_num))]
  rw [deliver_of_fits (by rw [length_toLE]; decide), insertReply, hh, ok_bind,
    liteAssert_pos (length_toLE 4 h), ok_bind, hread, ok_bind, liteAssert_pos rfl, ok_bind,
    pure_eq_ok]

lemma lookup_empty : lookup k address key (deliver (toLE 4 0)) = .ok (k, none) := by
  rw [deliver_of_fits (by rw [length_toLE]; decide)]
  refine lookup_of_not_admitted fun h => ?_
  exact absurd h.lower (by decide)

lemma lookup_kept (kv : KeyVal) (d : Draw) :
    lookup (.fresh prf vmac) address kv.key (deliver (toLE 4 (sealed prf vmac d kv.image).image.length ++
      (sealed prf vmac d kv.image).image)) = .ok (.fresh prf vmac, some ⟨kv.val.length, kv.val⟩) := by
  have hlen := length_image kv
  have hspace := kv.fits
  have hdecrypt := decrypt_sealed prf vmac d address (image_fits kv)
  have hcipher := Ciphertext.wordAt_image (sized_sealed prf vmac d (image_lt kv))
  obtain ⟨hbytes, himage⟩ := length_sealed prf vmac d (image_lt kv)
  rw [hbytes] at hcipher
  generalize (sealed prf vmac d kv.image).image = image at *
  simp only [sizeofKVRequest, sizeofCiphertext, sizeofKeyVal, restOfProcess] at hspace hlen himage
  have hword : wordAt (toLE 4 image.length ++ image) 0 = image.length := by
    rw [wordAt, field_head (length_toLE 4 _), ofLE_toLE_of_lt (by omega)]
  have hdrop : (toLE 4 image.length ++ image).drop 4 = image := drop_left' (length_toLE 4 _)
  have hreply : (toLE 4 image.length ++ image).length = 4 + image.length := by
    rw [length_append, length_toLE]
  rw [deliver_of_fits (by rw [hreply, restOfProcess]; omega), lookup_of_admitted]
  · obtain ⟨v, hhash⟩ := hashBuf_ok image (show image.length < 2 ^ 32 by omega) fun _ => le_rfl
    simp only [hdrop, hword, hhash, ok_bind, hcipher]
    rw [if_neg (by omega), hdecrypt, ok_bind]
    simp only [takeValue_image, if_true, ok_bind, pure_eq_ok]
  · exact ⟨by rw [hreply]; omega, by rw [hword, hreply]; omega, by rw [hword, sizeofCiphertext]; omega⟩

/-- RUN: with an honest store, the lookups return what the dictionary has. -/
lemma results_eq (calls : List HonestCall) : ∀ store dict : Key → Option Bytes, Keeps prf vmac store dict →
    results (.fresh prf vmac) store calls = .ok (expected dict calls) := by
  induction calls with
  | nil => exact fun _ _ _ => rfl
  | cons c calls ih =>
    intro store dict h
    cases c with
    | insert kv d =>
      have hlen := (length_sealed prf vmac d (image_lt kv)).2
      obtain ⟨hash131, hhash⟩ := hashBuf_ok (sealed prf vmac d kv.image).image
        (hlen.trans_lt (image_fits kv)) fun _ => le_rfl
      have hrequest : insertRequest (.fresh prf vmac) d kv = (.fresh prf vmac, sealed prf vmac d kv.image,
          .insert kv.key (sealed prf vmac d kv.image).image) := by
        simp only [insertRequest, encrypt_fresh]
      simp only [results, hrequest, answer, hhash, ok_bind, pure_eq_ok, insertReply_deliver hhash]
      exact ih _ _ (h.insert kv d)
    | lookup key address =>
      rcases h key with ⟨hstore, hdict⟩ | ⟨kv, d, rfl, hstore, hdict⟩
      · simp only [results, answer, hstore, ok_bind, pure_eq_ok, lookup_empty, ih store dict h, expected,
          hdict, Option.map_none]
      · simp only [results, answer, hstore, ok_bind, pure_eq_ok, lookup_kept, ih store dict h, expected,
          hdict, Option.map_some]

/-- CLIENT: after any calls, as long as no ciphertext is forged, a lookup stays inside the reply and returns nothing or
    a value that was inserted with its key, if and only if the reply is as long as the lengths in it say; and with an
    honest store every lookup returns the value inserted last. -/
theorem lookup_authentic_iff {calls : List Call} (hrun : run Session.call (.fresh prf vmac) calls = .ok s)
    (hforge : Unforged s address x) :
    (Authentic s key (lookup s.key address key x) ↔ InBounds x) ∧
      ∀ honest, results (.fresh prf vmac) (fun _ => none) honest = .ok (expected (fun _ => none) honest) := by
  have hconsistent : Consistent prf vmac s :=
    run_preserves (fun _ _ _ h hc => h.call hc) calls _ s consistent_fresh hrun
  exact ⟨authentic_iff_inBounds hconsistent hforge, fun honest => results_eq honest _ _ fun _ => .inl ⟨rfl, rfl⟩⟩

/-- Zeros drawn, at an aligned address. -/
def zeroDraw : Draw := ⟨List.replicate 16 0, List.replicate 16 0, 0, by simp, by simp⟩

/-- The value 1, 2, 3 under the key 7. -/
def sevenRecord : KeyVal := ⟨7, [1, 2, 3], by decide⟩

/-- The ciphertext of that record, for a cipher and a hash that are constant. -/
def sevenCipher : Ciphertext := SymEncKey.sealed (fun _ _ => 5) (fun _ _ => 9) zeroDraw sevenRecord.image

def sevenReply : ZeroCopyBuf := ⟨toLE 4 67 ++ sevenCipher.image, by decide +kernel⟩

/-- A value that was inserted is looked up. -/
theorem lookup_authentic_seven : ∃ s, run Session.call (.fresh (fun _ _ => 5) (fun _ _ => 9))
      [.insert sevenRecord zeroDraw .sendFailed] = .ok s ∧ Unforged s 0 (.received sevenReply) ∧
    Authentic s 7 (lookup s.key 0 7 (.received sevenReply)) := by
  have hrun : run Session.call (.fresh (fun _ _ => 5) (fun _ _ => 9)) [.insert sevenRecord zeroDraw .sendFailed] =
      .ok ⟨.fresh (fun _ _ => 5) (fun _ _ => 9), [(sevenRecord, sevenCipher)]⟩ := by
    simp only [run, Session.call, Session.fresh, insertRequest, SymEncKey.encrypt_fresh, insertReply,
      pure_eq_ok, ok_bind]
    rfl
  have hforge : Unforged ⟨.fresh (fun _ _ => 5) (fun _ _ => 9), [(sevenRecord, sevenCipher)]⟩ 0
      (.received sevenReply) := by
    intro k plain _
    exact ⟨(sevenRecord, sevenCipher), mem_singleton_self _, by decide +kernel, by decide +kernel⟩
  refine ⟨_, hrun, hforge, (lookup_authentic_iff hrun hforge).1.mpr fun _ => ⟨fun _ => ?_, fun _ _ => ?_⟩⟩
  · decide +kernel
  · decide +kernel

/-- A reply of 56 bytes: a value of 52, which is a ciphertext without its one byte. -/
def shortReply : ZeroCopyBuf := ⟨toLE 4 52 ++ (toLE 4 1 ++ List.replicate 48 0), by decide⟩

/-- OVERRUN: the byte is read behind the end of the buffer. -/
theorem not_lookup_authentic :
    ¬∀ (prf : Bytes → ℕ → UInt8) (vmac : Bytes → Bytes → UInt64) (calls : List Call) (s : Session) (address : ℕ)
      (key : Key) (x : Exchange), run Session.call (.fresh prf vmac) calls = .ok s → Unforged s address x →
      Authentic s key (lookup s.key address key x) := by
  intro hclaim
  have hadmitted : Admitted shortReply.data := ⟨by decide, by decide +kernel, by decide +kernel⟩
  have hbeyond : ¬Bounded shortReply.data := fun hb => absurd (hb.cipher (by decide +kernel) (by decide +kernel))
    (by decide +kernel)
  have hforge : Unforged (.fresh (fun _ _ => 0) (fun _ _ => 0)) 0 (.received shortReply) := by
    intro k plain h
    exact absurd h (SymEncKey.decrypt_beyond (by decide) (by decide +kernel) (by decide +kernel) _ _)
  obtain ⟨k, val, hr, -⟩ := hclaim (fun _ _ => 0) (fun _ _ => 0) [] _ 0 7 (.received shortReply) rfl hforge
  exact hbeyond (bounded_of_lookup hadmitted hr)

end Embassies.EncryptedKeyVal
