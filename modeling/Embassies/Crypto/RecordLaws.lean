import Embassies.Crypto.Certs
import Embassies.Crypto.NameCodec

/-! What records write.

    A record writes its owner, the header fields, its own fields and the bytes that follow, if its names are
    written whole and the bytes are there. -/

namespace Embassies.Crypto

open DomainName

variable {x y z : Bytes}

namespace ZRecord

@[simp] lemma length_fields (r : ZRecord) : r.fields.length = 10 := by simp [fields]

lemma serialize_writes {r : ZRecord} (hname : Writes r.owner.serialize x) (hx : x.length = r.owner.len) :
    Writes r.serialize (x ++ r.fields) := by
  have hseq := hname.seq (writes_put r.fields)
  rwa [hx] at hseq

end ZRecord

namespace ZPubKeyRecord

@[simp] lemma length_fields (k : ZPubKeyRecord) : k.fields.length = 4 := by simp [fields]

lemma serializeKey_writes {k : ZPubKeyRecord} (hkey : bytesIn k.key 0 (u16 ((k.dataLength : ℤ) - 4)) = .ok y) :
    Writes k.serializeKey (k.fields ++ y) := by
  have hseq := (writes_put k.fields).seq (writes_put y)
  rw [length_fields] at hseq
  intro b off b'
  rw [← hseq b off b', serializeKey, hkey]
  rfl

lemma serialize_writes {k : ZPubKeyRecord} (hname : Writes k.owner.serialize x) (hx : x.length = k.owner.len)
    (hkey : bytesIn k.key 0 (u16 ((k.dataLength : ℤ) - 4)) = .ok y) :
    Writes k.serialize (x ++ k.toZRecord.fields ++ (k.fields ++ y)) := by
  have hseq := (ZRecord.serialize_writes hname hx).seq (serializeKey_writes hkey)
  rw [List.length_append, hx, ZRecord.length_fields] at hseq
  intro b off b'
  rw [← hseq b off b', serialize, Nat.add_assoc]

end ZPubKeyRecord

namespace ZSigRecord

@[simp] lemma length_fields (s : ZSigRecord) : s.fields.length = 18 := by simp [fields]

lemma serializeHead_writes {s : ZSigRecord} (hname : Writes s.signerName.serialize x) :
    Writes s.serializeHead (s.fields ++ x) := by
  have hseq := (writes_put s.fields).seq hname
  rwa [length_fields] at hseq

end ZSigRecord

end Embassies.Crypto
