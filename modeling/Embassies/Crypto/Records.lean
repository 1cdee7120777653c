import Embassies.Crypto.DomainName

/-! Resource records: `ZRecord` and its kinds.

    A record is an owner name, ten bytes of header and data. Its size and the length of the data are kept in
    fields, which every kind adjusts in its own way, in 16-bit and signed arithmetic. -/

namespace Embassies.Crypto

/-- `PARSE_SHORT`, at an offset. -/
def shortAt (b : Bytes) (off : ℕ) : Outcome ℕ := Throwing.lift (readBE b off 2)

/-- `PARSE_BYTE`, at an offset. -/
def charAt (b : Bytes) (off : ℕ) : Outcome ℕ := Throwing.lift (readBE b off 1)

/-- `lite_assert(c)`, in code that can throw. -/
def assertThat (c : Prop) [Decidable c] : Outcome Unit := Throwing.lift (liteAssert c)

/-- `uint16_t` arithmetic. -/
def u16 (n : ℤ) : ℕ := (n % 2 ^ 16).toNat

/-- A `short`. -/
def int16 (n : ℤ) : ℤ := (n + 2 ^ 15) % 2 ^ 16 - 2 ^ 15

def recordTypeSig : ℕ := 43

def recordTypeKey : ℕ := 46

/-- `SIG_ALG_ID`. -/
def sigAlgId : ℕ := 5

/-! ### The header -/

/-- `ZRecord`. -/
structure ZRecord where
  owner : DomainName
  type : ℕ
  recordClass : ℕ
  ttl : ℕ
  dataLength : ℕ
  size : ℕ
  deriving DecidableEq, Repr

namespace ZRecord

/-- The generic owner. -/
def zoogLabel : Bytes := [90, 79, 79, 71, 0]

/-- `ZRecord(label, type)`. -/
def new (label : Option DomainName) (type : ℕ) : Outcome ZRecord := do
  let owner ← match label with
    | none => DomainName.parse zoogLabel 5
    | some label => label.copy
  pure ⟨owner, type, 1, 86400, 0, owner.len + 10⟩

/-- `addDataLength(len)`: the argument is cut to a `short`. -/
def addDataLength (r : ZRecord) (len : ℤ) : ZRecord :=
  { r with
    dataLength := u16 (r.dataLength + int16 len)
    size := ((r.size + int16 len) % 2 ^ 32).toNat }

def fields (r : ZRecord) : Bytes := toBE 2 r.type ++ toBE 2 r.recordClass ++ toBE 4 r.ttl ++ toBE 2 r.dataLength

/-- `serialize(buffer)` of the header, at an offset. -/
def serialize (r : ZRecord) (buffer : Bytes) (off : ℕ) : Outcome Bytes := do
  let buffer ← r.owner.serialize buffer off
  DomainName.put buffer (off + r.owner.len) r.fields

/-- `equal(z)`. -/
def equal (r z : ZRecord) : Outcome Bool := do
  let same ← r.owner.eq z.owner
  pure (same && r.type == z.type && r.recordClass == z.recordClass && r.ttl == z.ttl &&
    r.dataLength == z.dataLength && r.size == z.size)

end ZRecord

/-- The loop that compares two arrays, for the bytes that are left. -/
def sameArray : (left : ℕ) → (i : ℕ) → Bytes → Bytes → Outcome Bool := fun left i a b =>
  DomainName.eqLoop a b left i

/-! ### Keys -/

/-- `ZPubKeyRecord`. -/
structure ZPubKeyRecord extends ZRecord where
  flags : ℕ
  protocol : ℕ
  algorithm : ℕ
  key : Bytes
  deriving DecidableEq, Repr

namespace ZPubKeyRecord

/-- `ZPubKeyRecord(label, keyBytes, keySize)`. -/
def new (label : Option DomainName) (keyBytes : Bytes) : Outcome ZPubKeyRecord := do
  let r ← ZRecord.new label recordTypeKey
  pure ⟨r.addDataLength (4 + keyBytes.length), 256, 3, sigAlgId, keyBytes⟩

def fields (k : ZPubKeyRecord) : Bytes := toBE 2 k.flags ++ toBE 1 k.protocol ++ toBE 1 k.algorithm

/-- `serializeKey(buffer)`, at an offset. -/
def serializeKey (k : ZPubKeyRecord) (buffer : Bytes) (off : ℕ) : Outcome Bytes := do
  let buffer ← DomainName.put buffer off k.fields
  let key ← bytesIn k.key 0 (u16 ((k.dataLength : ℤ) - 4))
  DomainName.put buffer (off + 4) key

/-- `serialize(buffer)`, at an offset. -/
def serialize (k : ZPubKeyRecord) (buffer : Bytes) (off : ℕ) : Outcome Bytes := do
  let buffer ← k.toZRecord.serialize buffer off
  k.serializeKey buffer (off + k.owner.len + 10)

/-- `isEqual(z)`, for a key. -/
def isEqual (k z : ZPubKeyRecord) : Outcome Bool := do
  let same ← k.equal z.toZRecord
  if same ∧ z.type = recordTypeKey ∧ k.flags = z.flags ∧ k.protocol = z.protocol ∧ k.algorithm = z.algorithm then
    sameArray (sub32 k.dataLength 4) 0 k.key z.key
  else pure false

end ZPubKeyRecord

/-! ### Signatures -/

/-- `ZSigRecord`. -/
structure ZSigRecord extends ZRecord where
  typeCovered : ℕ
  algorithm : ℕ
  labels : ℕ
  originalTtl : ℕ
  expires : ℕ
  inception : ℕ
  keyTag : ℕ
  signerName : DomainName
  sig : Option Bytes
  deriving DecidableEq, Repr

namespace ZSigRecord

/-- `headerSize()`. -/
def headerSize (s : ZSigRecord) : ℕ := 18 + s.signerName.len

/-- The data of the record that precedes the signer's name. -/
def fields (s : ZSigRecord) : Bytes :=
  toBE 2 s.typeCovered ++ toBE 1 s.algorithm ++ toBE 1 s.labels ++ toBE 4 s.originalTtl ++ toBE 4 s.expires ++
    toBE 4 s.inception ++ toBE 2 s.keyTag

/-- `serializeHead(buffer)`, at an offset. -/
def serializeHead (s : ZSigRecord) (buffer : Bytes) (off : ℕ) : Outcome Bytes := do
  let buffer ← DomainName.put buffer off s.fields
  s.signerName.serialize buffer (off + 18)

/-- The bytes that `lite_memcpy` takes from the signature. -/
def sigBytes (s : ZSigRecord) (len : ℕ) : Outcome Bytes :=
  match s.sig with
  | some sig => bytesIn sig 0 len
  | none => if len = 0 then pure [] else .error (.fault .nullDeref)

/-- `serialize(buffer)`, at an offset. -/
def serialize (s : ZSigRecord) (buffer : Bytes) (off : ℕ) : Outcome Bytes := do
  let buffer ← s.toZRecord.serialize buffer off
  let buffer ← s.serializeHead buffer (off + s.owner.len + 10)
  let sig ← s.sigBytes (u16 ((s.dataLength : ℤ) - s.headerSize))
  DomainName.put buffer (off + s.owner.len + 10 + s.headerSize) sig

end ZSigRecord

/-! ### Binaries -/

/-- `ZBinaryRecord`. -/
structure ZBinaryRecord extends ZRecord where
  flags : ℕ
  digestType : ℕ
  digest : Bytes
  deriving DecidableEq, Repr

namespace ZBinaryRecord

def fields (r : ZBinaryRecord) : Bytes := toBE 2 r.flags ++ toBE 2 r.digestType

/-- `serialize(buffer)`, at an offset. -/
def serialize (r : ZBinaryRecord) (buffer : Bytes) (off : ℕ) : Outcome Bytes := do
  let buffer ← r.toZRecord.serialize buffer off
  let buffer ← DomainName.put buffer (off + r.owner.len + 10) r.fields
  let digest ← bytesIn r.digest 0 (u16 ((r.dataLength : ℤ) - 4))
  DomainName.put buffer (off + r.owner.len + 14) digest

end ZBinaryRecord

/-! ### Delegations -/

/-- `ZDelegationRecord`. -/
structure ZDelegationRecord extends ZRecord where
  keyTag : ℕ
  algorithm : ℕ
  digestType : ℕ
  digest : Bytes
  deriving DecidableEq, Repr

namespace ZDelegationRecord

def fields (r : ZDelegationRecord) : Bytes := toBE 2 r.keyTag ++ toBE 1 r.algorithm ++ toBE 1 r.digestType

/-- `serialize(buffer)`, at an offset. -/
def serialize (r : ZDelegationRecord) (buffer : Bytes) (off : ℕ) : Outcome Bytes := do
  let buffer ← r.toZRecord.serialize buffer off
  let buffer ← DomainName.put buffer (off + r.owner.len + 10) r.fields
  let digest ← bytesIn r.digest 0 (u16 ((r.dataLength : ℤ) - 4))
  DomainName.put buffer (off + r.owner.len + 14) digest

end ZDelegationRecord

/-! ### Key links -/

/-- `ZKeyLinkRecord`. -/
structure ZKeyLinkRecord extends ZRecord where
  keySpeaker : ZPubKeyRecord
  keySpokenFor : ZPubKeyRecord
  deriving DecidableEq, Repr

namespace ZKeyLinkRecord

/-- `serialize(buffer)`, at an offset. -/
def serialize (r : ZKeyLinkRecord) (buffer : Bytes) (off : ℕ) : Outcome Bytes := do
  let buffer ← r.toZRecord.serialize buffer off
  let buffer ← r.keySpeaker.serialize buffer (off + r.owner.len + 10)
  r.keySpokenFor.serialize buffer (off + r.owner.len + 10 + (r.keySpeaker.owner.len + 10 + r.keySpeaker.dataLength))

end ZKeyLinkRecord

end Embassies.Crypto
