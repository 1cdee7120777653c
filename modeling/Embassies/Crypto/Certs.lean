import Embassies.Crypto.Records

/-! Keys, certificates and chains: `ZPubKey`, `ZCert` and `ZCertChain`.

    A certificate is a record, a signature record over it and the key that signed. Each may be absent on the
    wire. The RSA operations are not modelled: they are functions of the key, the signature and the bytes. What
    the code around them reads is: a verification reads as many bytes of the signature as its modulus has. -/

namespace Embassies.Crypto

/-! ### Records of any kind -/

/-- A record, by its class. -/
inductive Record where
  | pubKey (r : ZPubKeyRecord)
  | sig (r : ZSigRecord)
  | binary (r : ZBinaryRecord)
  | delegation (r : ZDelegationRecord)
  | keyLink (r : ZKeyLinkRecord)
  deriving DecidableEq, Repr

namespace Record

/-- The generic part. -/
def header : Record → ZRecord
  | pubKey r => r.toZRecord
  | sig r => r.toZRecord
  | binary r => r.toZRecord
  | delegation r => r.toZRecord
  | keyLink r => r.toZRecord

/-- `size()`. -/
def size (r : Record) : ℕ := r.header.size

/-- `getType()`. -/
def getType (r : Record) : ℕ := r.header.type

/-- `serialize(buffer)`, at an offset. -/
def serialize : Record → Bytes → ℕ → Outcome Bytes
  | pubKey r => r.serialize
  | sig r => r.serialize
  | binary r => r.serialize
  | delegation r => r.serialize
  | keyLink r => r.serialize

end Record

/-! ### Keys -/

/-- `rsa_context`, as far as verification uses it. -/
structure RsaContext where
  len : ℕ
  exponent : ℕ
  modulus : ℕ
  deriving DecidableEq, Repr

/-- What the RSA operations answer for a key, a signature and a message. -/
abbrev Oracle := RsaContext → Bytes → Bytes → Bool

/-- `ZPubKey`. -/
structure ZPubKey where
  owner : DomainName
  rsaCtx : RsaContext
  record : ZPubKeyRecord
  deriving DecidableEq, Repr

namespace ZPubKey

/-- The length of the exponent, in one byte or in three, and where the exponent starts. -/
def exponentBytes (keyBytes : Bytes) : Outcome (ℕ × ℕ) := do
  let short ← charAt keyBytes 0
  if short ≠ 0 then pure (short, 1) else do
  let long ← shortAt keyBytes 1
  pure (long, 3)

/-- `ZPubKey(algorithm, keyBytes, keySize, owner)`. -/
def ofBytes (algorithm : ℕ) (keyBytes : Bytes) (keySize : ℕ) (owner : DomainName) : Outcome ZPubKey := do
  assertThat (algorithm = sigAlgId)
  let own ← owner.copy
  let (exponentLen, start) ← exponentBytes keyBytes
  let exponent ← bytesIn keyBytes start exponentLen
  let modulus ← bytesIn keyBytes (start + exponentLen) (sub32 keySize (start + exponentLen))
  let bytes ← bytesIn keyBytes 0 keySize
  let record ← ZPubKeyRecord.new (some owner) bytes
  pure ⟨own, ⟨((ofBE modulus).size + 7) / 8, ofBE exponent, ofBE modulus⟩, record⟩

/-- `verify(signature, buffer, length)`: the length of the signature is not known. -/
def verify (oracle : Oracle) (key : ZPubKey) (signature : Option Bytes) (buffer : Bytes) : Outcome Bool :=
  if key.rsaCtx.len < 16 ∨ 512 < key.rsaCtx.len then pure false
  else match signature with
    | none => .error (.fault .nullDeref)
    | some signature => do
      let signature ← bytesIn signature 0 key.rsaCtx.len
      pure (oracle key.rsaCtx signature buffer)

/-- `isEqual(key)`. -/
def isEqual (key other : ZPubKey) : Outcome Bool := key.record.isEqual other.record

end ZPubKey

/-- `getKey()`, without its cache. -/
def ZPubKeyRecord.getKey (k : ZPubKeyRecord) : Outcome ZPubKey :=
  ZPubKey.ofBytes k.algorithm k.key (sub32 k.dataLength 4) k.owner

/-! ### Certificates -/

/-- `ZCert`. -/
structure ZCert where
  object : Option Record
  sig : Option ZSigRecord
  signingKey : Option ZPubKeyRecord
  deriving DecidableEq, Repr

/-- Memory that has just been allocated. -/
def malloc (junk : ℕ → UInt8) (size : ℕ) : Bytes := (List.range size).map junk

namespace ZCert

/-- `verify(key)`, for the two times that are asked for: the sizes are computed before the parts are checked. -/
def verify (oracle : Oracle) (junk : ℕ → UInt8) (now now' : ℕ) (c : ZCert) (key : ZPubKey) : Outcome Bool :=
  match c.sig, c.object with
  | some sig, some object =>
    let buffer := malloc junk (u32 (sig.headerSize + object.size))
    if object.getType = sig.typeCovered ∧ sig.inception < now ∧ now' < sig.expires then do
      let sameName ← sig.signerName.eq key.owner
      if sameName = false then pure false else do
      let buffer ← sig.serializeHead buffer 0
      let buffer ← object.serialize buffer sig.headerSize
      key.verify oracle sig.sig buffer
    else pure false
  | _, _ => .error (.fault .nullDeref)

/-- `getEndorsedKey()`. -/
def getEndorsedKey (c : ZCert) : Outcome (Option ZPubKey) :=
  match c.object with
  | none => pure none
  | some object =>
    if object.getType = recordTypeKey then
      match object with
      | .pubKey k => do
        let key ← k.getKey
        pure (some key)
      | _ => outOfRange   -- cast to a key record
    else pure none

end ZCert

/-! ### Chains -/

/-- `MAX_NUM_CERTS`. -/
def maxNumCerts : ℕ := 10

/-- `ZCertChain`. -/
structure ZCertChain where
  certs : List ZCert
  numCerts_le : certs.length ≤ maxNumCerts

/-- The loop of `verifyLabel`, from the `i`-th certificate on. -/
def verifyLoop (oracle : Oracle) (junk : ℕ → UInt8) (clock : ℕ → ℕ) (key : ZPubKey) :
    (certs : List ZCert) → (i : ℕ) → (curKey : ZPubKey) → Outcome Bool
  | [], _, _ => pure false
  | curCert :: certs, i, curKey => do
    let verified ← curCert.verify oracle junk (clock (2 * i)) (clock (2 * i + 1)) curKey
    if verified = false then pure false else do
    match ← curCert.getEndorsedKey with
    | none => pure false
    | some newKey => do
      let longer ← newKey.owner.suffix curKey.owner
      if longer = false then pure false else do
      let same ← key.isEqual newKey
      if same then pure true else verifyLoop oracle junk clock key certs (i + 1) newKey

/-- `verifyLabel(chain, trustAnchor)`. -/
def ZPubKey.verifyLabel (oracle : Oracle) (junk : ℕ → UInt8) (clock : ℕ → ℕ) (key : ZPubKey) (chain : ZCertChain)
    (trustAnchor : ZPubKey) : Outcome Bool :=
  verifyLoop oracle junk clock key chain.certs 0 trustAnchor

end Embassies.Crypto
