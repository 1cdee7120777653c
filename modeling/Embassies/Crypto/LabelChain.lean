import Embassies.Crypto.RecordLaws

/-! `verifyLabel` is sound for names whose labels have no dot, NUL or space in them.

    If it returns true, the first certificates of the chain lead from the anchor to the key: each is signed by the
    key before it, over its signature head and its record, and certifies a key whose labels extend those of the
    key before it. That takes names that are what they look like: the comparisons see the dotted string up to
    its first NUL, and a space makes `serialize` leave a byte of the message as it found it. And it takes a key that
    is what its record says, for `isEqual` compares only the records. -/

namespace Embassies.Crypto

open List DomainName Except ZPubKeyRecord

/-! ### Labels of names -/

namespace DomainName

variable {d e : DomainName} {L M : List Bytes}

/-- The labels that an input gives to its name: those of a string in lower case. -/
def Input.Gives : Input → List Bytes → Prop
  | .wire dnsbuffer _, L => Wired L ∧ wireForm L <+: dnsbuffer
  | .string name size, L => L = lower (stringLabels (charsOf name size))

def Made (d : DomainName) (L : List Bytes) : Prop := ∃ i : Input, i.construct = .ok d ∧ i.Short ∧ i.Gives L

lemma Made.holds (h : Made d L) : d.Holds L ∧ (text L).length < 255 := by
  obtain ⟨i, hi, hshort, hgives⟩ := h
  cases i with
  | wire dnsbuffer size =>
    obtain ⟨L', hwired', ⟨r', hbuffer'⟩, hholds, -, -, hmax⟩ := ofWire_spec hi
    obtain ⟨hwired, r, hbuffer⟩ := hgives
    obtain rfl := wireForm_inj hwired hwired' (hbuffer.trans hbuffer'.symm)
    refine ⟨hholds, ?_⟩
    by_cases hroot : L = []
    · rw [hroot]
      decide
    · rw [length_wireForm hroot, maxDnsNameLen] at hmax
      omega
  | string name size =>
    rcases parse_spec hi with ⟨hlen, hholds, -⟩ | ⟨hlong, -⟩
    · obtain rfl := hgives
      refine ⟨hholds, ?_⟩
      rwa [text_lower, text_stringLabels, length_map]
    · exact absurd (lt_trans hshort hlong) (lt_irrefl _)

lemma Holds.labels_eq (h : d.Holds L) (h' : e.Holds M) (hL : Apart L) (hM : Apart M) (heq : d.eq e = .ok true) :
    L = M := by
  rw [h.eq_spec h' hL hM] at heq
  exact (decide_eq_true_iff.mp (ok.inj heq)).2

def labels (d : DomainName) : List Bytes := stringLabels (charsOf d.nameBytes d.nameBytes.length)

/-- Labels that names and their wire forms keep as they are. -/
structure Clean (L : List Bytes) : Prop where
  apart : Apart L
  space : ∀ l ∈ L, charSpace ∉ l

lemma stringLabels_text (h : Clean L) : stringLabels (text L) = L := by
  by_cases hroot : L = []
  · rw [hroot]
    rfl
  · have hspace : text L ≠ [charSpace] := by
      intro heq
      have hc : charSpace ∈ text L := by rw [heq]; exact mem_singleton_self _
      rcases mem_text hroot hc with hdot | ⟨l, hl, hc⟩
      · exact absurd hdot (by decide)
      · exact h.space l hl hc
    rw [stringLabels, if_neg hspace, text_cons hroot, splitOn_intercalate _ (fun l hl => (h.apart l hl).1) hroot]

lemma Holds.labels_self (h : d.Holds L) (hL : Clean L) : d.labels = L := by
  have hchars : charsOf (text L ++ [0]) (text L ++ [0]).length = text L := by
    rw [charsOf, take_length, takeWhile_append_of_pos]
    · simp
    · intro c hc
      simpa using fun hzero : c = 0 => hL.apart.zero_not_mem (hzero ▸ hc)
  rw [labels, h.nameBytes, hchars, stringLabels_text hL]

lemma Clean.lower (h : Clean L) : Clean (lower L) := by
  refine ⟨apart_lower h.apart, fun l hl hspace => ?_⟩
  obtain ⟨m, hm, rfl⟩ := mem_map.mp hl
  obtain ⟨c, hc, hlow⟩ := mem_map.mp hspace
  exact h.space m hm ((toLower_eq (by decide)).mp hlow ▸ hc)

lemma Holds.copy_holds (h : d.Holds L) (hL : Clean L) (hlen : (text L).length < 255) (hcopy : d.copy = .ok e) :
    e.Holds (lower L) := by
  obtain ⟨-, hholds, -⟩ := copy_spec h.nameBytes hL.apart.zero_not_mem hlen hcopy
  rwa [stringLabels_text hL] at hholds

end DomainName

/-! ### Certificates -/

open DomainName (Made Clean Apart)

def ZPubKeyRecord.keyBytes (r : ZPubKeyRecord) : Bytes := r.key.take (sub32 r.dataLength 4)

/-- Where the exponent starts in the bytes of a key, and how long it is. -/
def exponentAt (b : Bytes) : ℕ × ℕ :=
  if ofBE (field b 0 1) ≠ 0 then (1, ofBE (field b 0 1)) else (3, ofBE (field b 1 2))

/-- The exponent and the modulus in the bytes of a key. -/
def rsaFrom (b : Bytes) : RsaContext :=
  let (start, len) := exponentAt b
  let modulus := ofBE (b.drop (start + len))
  ⟨(modulus.size + 7) / 8, ofBE (field b start len), modulus⟩

/-- The certificate is signed by `prev`, whose labels are `P`, over its head and its record, and certifies `new`. The
    labels of the signer are `S`. -/
structure Endorses (oracle : Oracle) (now now' : ℕ) (c : ZCert) (S P : List Bytes) (prev new : ZPubKey) (s : ZSigRecord)
    (k : ZPubKeyRecord) (signature head body : Bytes) : Prop where
  sig : c.sig = some s
  object : c.object = some (.pubKey k)
  signed : s.sig = some signature
  writesHead : Writes s.serializeHead head
  writesBody : Writes k.serialize body
  accepted : oracle prev.rsaCtx (signature.take prev.rsaCtx.len) (head ++ body) = true
  covered : k.type = s.typeCovered
  inception : s.inception < now
  expires : now' < s.expires
  signer : S = P
  key : k.getKey = .ok new
  longer : P <:+ new.owner.labels

/-- The first certificates lead from `prev` to `new`. -/
inductive Leads (oracle : Oracle) (clock : ℕ → ℕ) (signer : ZCert → List Bytes) :
    ℕ → List ZCert → ZPubKey → List Bytes → ZPubKey → Prop
  | last {i : ℕ} {c : ZCert} {rest : List ZCert} {prev new : ZPubKey} {P : List Bytes} {s : ZSigRecord} {k : ZPubKeyRecord}
      {signature head body : Bytes} : Endorses oracle (clock (2 * i)) (clock (2 * i + 1)) c (signer c) P prev new s k
        signature head body → Leads oracle clock signer i (c :: rest) prev P new
  | next {i : ℕ} {c : ZCert} {rest : List ZCert} {prev mid new : ZPubKey} {P : List Bytes} {s : ZSigRecord}
      {k : ZPubKeyRecord} {signature head body : Bytes} : Endorses oracle (clock (2 * i)) (clock (2 * i + 1)) c (signer c)
        P prev mid s k signature head body → Leads oracle clock signer (i + 1) rest mid mid.owner.labels new →
      Leads oracle clock signer i (c :: rest) prev P new

/-- The chain certifies a key: some first certificates lead from the anchor to one that has its owner, its exponent and
    modulus, and its bytes. `O` are the labels of the key, `T` those of its record. -/
def Vouched (oracle : Oracle) (clock : ℕ → ℕ) (signer : ZCert → List Bytes) (key : ZPubKey) (certs : List ZCert)
    (anchor : ZPubKey) (A T O : List Bytes) : Prop :=
  ∃ new, Leads oracle clock signer 0 certs anchor A new ∧ T = new.owner.labels ∧ O = new.owner.labels ∧
    key.rsaCtx = new.rsaCtx ∧ key.record.keyBytes = new.record.keyBytes ∧ A <:+ O

/-- The names of a certificate have labels, and its object the size that a parser gives it and fits in memory. -/
structure ZCert.Labelled (c : ZCert) (S W : List Bytes) : Prop where
  signer : ∀ s, c.sig = some s → Made s.signerName S
  owner : ∀ object, c.object = some object → Made object.header.owner W
  size : ∀ object, c.object = some object → object.size = object.header.owner.len + 10 + object.header.dataLength
  dataLength : ∀ object, c.object = some object → object.header.dataLength < 2 ^ 16
  memory : ∀ k, c.object = some (.pubKey k) → k.key.length < 2 ^ 31

/-! ### One certificate -/

variable {oracle : Oracle} {junk : ℕ → UInt8} {clock : ℕ → ℕ} {now now' : ℕ} {c : ZCert} {prev new key : ZPubKey}
  {S W T L A : List Bytes} {B : Set UInt8}

lemma ZPubKey.verify_eq_true {signature : Option Bytes} {buffer : Bytes}
    (h : key.verify oracle signature buffer = .ok true) :
    ∃ b, signature = some b ∧ oracle key.rsaCtx (b.take key.rsaCtx.len) buffer = true := by
  unfold verify at h
  split at h
  · exact absurd (ok.inj h) (by decide)
  · cases signature with
    | none => cases h
    | some b =>
      obtain ⟨x, hx, h⟩ := of_bind h
      obtain ⟨-, rfl⟩ := bytesIn_eq_ok.mp hx
      exact ⟨b, rfl, ok.inj h⟩

/-- VERIFY: a certificate that verifies has both parts, and its signature is accepted for what they write. -/
lemma ZCert.verify_eq_true (h : c.verify oracle junk now now' key = .ok true) : ∃ s object b b' signature,
    c.sig = some s ∧ c.object = some object ∧ object.getType = s.typeCovered ∧ s.inception < now ∧ now' < s.expires ∧
      s.signerName.eq key.owner = .ok true ∧ s.serializeHead (malloc junk (u32 (s.headerSize + object.size))) 0 = .ok b ∧
      object.serialize b s.headerSize = .ok b' ∧ s.sig = some signature ∧
      oracle key.rsaCtx (signature.take key.rsaCtx.len) b' = true := by
  unfold verify at h
  cases hsig : c.sig with
  | none =>
    rw [hsig] at h
    cases h
  | some s =>
    cases hobject : c.object with
    | none =>
      rw [hsig, hobject] at h
      cases h
    | some object =>
      rw [hsig, hobject] at h
      dsimp only at h
      split at h
      case isFalse => exact absurd (ok.inj h) (by decide)
      case isTrue hchecks =>
        obtain ⟨same, hsame, h⟩ := of_bind h
        cases same with
        | false => exact absurd (ok.inj h) (by decide)
        | true =>
          obtain ⟨b, hb, b', hb', h⟩ := of_bind2 h
          obtain ⟨signature, hsignature, haccepted⟩ := ZPubKey.verify_eq_true h
          exact ⟨s, object, b, b', signature, rfl, rfl, hchecks.1, hchecks.2.1, hchecks.2.2, hsame, hb, hb', hsignature,
            haccepted⟩

lemma ZCert.getEndorsedKey_eq_some (h : c.getEndorsedKey = .ok (some new)) :
    ∃ k, c.object = some (.pubKey k) ∧ k.getKey = .ok new := by
  unfold getEndorsedKey at h
  cases hobject : c.object with
  | none =>
    rw [hobject] at h
    cases ok.inj h
  | some object =>
    rw [hobject] at h
    dsimp only at h
    split at h
    case isFalse => cases ok.inj h
    case isTrue =>
      cases object with
      | pubKey k =>
        obtain ⟨key, hkey, h⟩ := of_bind h
        cases h
        exact ⟨k, rfl, hkey⟩
      | sig r => cases h
      | binary r => cases h
      | delegation r => cases h
      | keyLink r => cases h

/-- KEY: the key of a record has a copy of its owner, twice. -/
lemma ZPubKeyRecord.getKey_owner {k : ZPubKeyRecord} (h : k.getKey = .ok new) :
    k.owner.copy = .ok new.owner ∧ new.record.owner = new.owner := by
  unfold getKey ZPubKey.ofBytes at h
  obtain ⟨-, -, own, hown, ⟨exponentLen, start⟩, -, h⟩ := of_bind3 h
  obtain ⟨exponent, -, modulus, -, bytes, -, h⟩ := of_bind3 h
  obtain ⟨record, hrecord, h⟩ := of_bind h
  cases h
  refine ⟨hown, ?_⟩
  unfold new at hrecord
  obtain ⟨r, hr, hrecord⟩ := of_bind hrecord
  cases hrecord
  unfold ZRecord.new at hr
  obtain ⟨owner, howner, hr⟩ := of_bind hr
  cases hr
  exact ok.inj (howner.symm.trans hown)

lemma field_take {b : Bytes} {n off len : ℕ} (h : off + len ≤ n) : field (b.take n) off len = field b off len := by
  rw [field, field, drop_take, take_take, min_eq_left (by omega)]

lemma ZPubKey.exponentBytes_eq_ok {b : Bytes} {len start n : ℕ} (h : exponentBytes b = .ok (len, start))
    (hn : start ≤ n) : exponentAt (b.take n) = (start, len) := by
  obtain ⟨short, hshort, h⟩ := of_bind h
  obtain ⟨-, rfl⟩ := readBE_eq_ok.mp (Throwing.lift_eq_ok.mp hshort)
  split at h
  case isTrue hne =>
    obtain ⟨rfl, rfl⟩ := Prod.mk.inj (ok.inj h)
    rw [exponentAt, field_take (by omega), if_pos hne]
  case isFalse hzero =>
    obtain ⟨long, hlong, h⟩ := of_bind h
    obtain ⟨-, rfl⟩ := readBE_eq_ok.mp (Throwing.lift_eq_ok.mp hlong)
    obtain ⟨rfl, rfl⟩ := Prod.mk.inj (ok.inj h)
    rw [exponentAt, field_take (by omega), if_neg hzero, field_take (by omega)]

/-- KEY: its exponent and modulus are those in the bytes of its record. -/
lemma ZPubKeyRecord.getKey_rsaCtx {k : ZPubKeyRecord} (h : k.getKey = .ok new) (hdata : k.dataLength < 2 ^ 16)
    (hmemory : k.key.length < 2 ^ 31) : new.rsaCtx = rsaFrom new.record.keyBytes := by
  unfold getKey ZPubKey.ofBytes at h
  generalize hn : sub32 k.dataLength 4 = n at h
  obtain ⟨-, -, own, hown, ⟨len, start⟩, hexponentAt, h⟩ := of_bind3 h
  obtain ⟨exponent, hexponent, modulus, hmodulus, bytes, hbytes, h⟩ := of_bind3 h
  obtain ⟨record, hrecord, hnew⟩ := of_bind h
  obtain ⟨hin, rfl⟩ := bytesIn_eq_ok.mp hexponent
  obtain ⟨hin', rfl⟩ := bytesIn_eq_ok.mp hmodulus
  obtain ⟨hall, rfl⟩ := bytesIn_eq_ok.mp hbytes
  cases hnew
  -- the sizes do not wrap, for the bytes are in memory
  have hsize : k.dataLength = n + 4 := by
    rw [sub32] at hn
    omega
  have hfits : start + len ≤ n := by
    rw [sub32] at hin'
    omega
  have hsub : sub32 n (start + len) = n - (start + len) := sub32_of_le (by omega) hfits
  have hkeyBytes : record.keyBytes = k.key.take n := by
    obtain ⟨r, hr, hrecord⟩ := of_bind hrecord
    obtain ⟨owner, -, hr⟩ := of_bind hr
    cases hr
    cases hrecord
    have hlen : (field k.key 0 n).length = n := length_field (by omega)
    rw [keyBytes]
    simp only [ZRecord.addDataLength, hlen]
    rw [take_of_length_le, field, drop_zero]
    rw [hlen, sub32, u16, int16]
    omega
  rw [hkeyBytes, rsaFrom, ZPubKey.exponentBytes_eq_ok hexponentAt (by omega)]
  dsimp only
  rw [field_take hfits, drop_take, hsub]
  rfl

lemma eqLoop_eq_true {a b : Bytes} : ∀ (left i : ℕ), eqLoop a b left i = .ok true →
    field a i left = field b i left := by
  intro left
  induction left with
  | zero =>
    intro i _
    simp [field]
  | succ left ih =>
    intro i h
    obtain ⟨x, hx, y, hy, h⟩ := of_bind2 h
    split at h
    · exact absurd (ok.inj h) (by decide)
    case isFalse hxy =>
      have hcons : ∀ {b : Bytes} {x : UInt8}, byteAt b i = .ok x → field b i (left + 1) = x :: field b (i + 1) left := by
        intro b x hx
        obtain ⟨hlt, rfl⟩ := List.getElem?_eq_some_iff.mp (byteAt_eq_ok.mp hx)
        rw [field, drop_eq_getElem_cons hlt, take_succ_cons, field]
      rw [hcons hx, hcons hy, ih (i + 1) h, not_not.mp hxy]

/-- EQUAL: key records that are equal have equal owners and the same key. -/
lemma ZPubKeyRecord.isEqual_eq_true {k z : ZPubKeyRecord} (h : k.isEqual z = .ok true) :
    k.owner.eq z.owner = .ok true ∧ k.keyBytes = z.keyBytes := by
  obtain ⟨same, hsame, h⟩ := of_bind h
  split at h
  case isFalse => exact absurd (ok.inj h) (by decide)
  case isTrue hfields =>
    obtain ⟨sameOwner, howner, hequal⟩ := of_bind hsame
    have hall := ok.inj hequal
    rw [hfields.1] at hall
    simp only [Bool.and_eq_true, beq_iff_eq] at hall
    obtain ⟨⟨⟨⟨⟨rfl, -⟩, -⟩, -⟩, hlength⟩, -⟩ := hall
    have hkeys := eqLoop_eq_true _ _ h
    rw [field, field, drop_zero, drop_zero] at hkeys
    refine ⟨howner, ?_⟩
    rw [keyBytes, keyBytes, ← hlength]
    exact hkeys

lemma message_eq {f g : Bytes → ℕ → Outcome Bytes} {x y b b' buffer : Bytes} (hf : Writes f x) (hg : Writes g y)
    (hlen : buffer.length ≤ x.length + y.length) (hrun : f buffer 0 = .ok b) (hrun' : g b x.length = .ok b') :
    b' = x ++ y := by
  have hseq := hf.seq hg
  have hboth : (f buffer 0 >>= fun b => g b (0 + x.length)) = .ok b' := by
    rw [hrun, Throwing.ok_bind, Nat.zero_add, hrun']
  obtain ⟨-, rfl⟩ := (hseq buffer 0 b').mp hboth
  rw [splice_zero, drop_of_length_le (by simpa using hlen), append_nil]

/-- STEP: a certificate that passes the checks of the loop endorses its key. -/
lemma endorses_of_checks {P : List Bytes} (hc : c.Labelled S W) (hS : Clean S) (hW : Clean W) (hP : Apart P)
    (hprev : prev.owner.Holds P) (hverify : c.verify oracle junk now now' prev = .ok true)
    (hkey : c.getEndorsedKey = .ok (some new)) (hsuffix : new.owner.suffix prev.owner = .ok true) :
    (∃ s k signature head body, Endorses oracle now now' c S P prev new s k signature head body) ∧
      new.owner.Holds new.owner.labels ∧ Apart new.owner.labels ∧ new.record.owner = new.owner ∧
        new.rsaCtx = rsaFrom new.record.keyBytes := by
  obtain ⟨s, object, b, b', signature, hsig, hobject, hcovered, hinception, hexpires, hname, hb, hb', hsignature,
    haccepted⟩ := ZCert.verify_eq_true hverify
  obtain ⟨k, hk, hgetKey⟩ := ZCert.getEndorsedKey_eq_some hkey
  obtain rfl : object = .pubKey k := Option.some.inj (hobject.symm.trans hk)
  obtain ⟨hcopy, hrecord⟩ := getKey_owner hgetKey
  obtain ⟨hsigner, -⟩ := (hc.signer s hsig).holds
  obtain ⟨howner, hlen⟩ := (hc.owner _ hobject).holds
  -- the names
  have hnew : new.owner.Holds (lower W) := howner.copy_holds hW hlen hcopy
  have hlabels : new.owner.labels = lower W := hnew.labels_self hW.lower
  have hsame : S = P := hsigner.labels_eq hprev hS.apart hP hname
  have hlonger : P <:+ lower W := by
    rw [hnew.suffix_spec hprev hW.lower.apart hP] at hsuffix
    simpa using ok.inj hsuffix
  -- what the parts write
  have hwritesName := hsigner.serialize_writes hS.apart hS.space
  have hwritesOwner := howner.serialize_writes hW.apart hW.space
  have hhead := ZSigRecord.serializeHead_writes hwritesName
  have hnameLen : (wireForm (lower S)).length = s.signerName.len := by
    rw [length_lower_wireForm, hsigner.len]
  have hownerLen : (wireForm (lower W)).length = k.owner.len := by
    rw [length_lower_wireForm]
    exact howner.len.symm
  have hheadLen : (s.fields ++ wireForm (lower S)).length = s.headerSize := by
    rw [length_append, ZSigRecord.length_fields, hnameLen]
    rfl
  obtain ⟨y, hy⟩ : ∃ y, bytesIn k.key 0 (u16 ((k.dataLength : ℤ) - 4)) = .ok y := by
    obtain ⟨b1, -, b2, -, hrest⟩ := of_bind2 hb'
    obtain ⟨y, hy, -⟩ := of_bind hrest
    exact ⟨y, hy⟩
  have hbody := serialize_writes hwritesOwner hownerLen hy
  have hyLen : y.length = u16 ((k.dataLength : ℤ) - 4) := by
    obtain ⟨hin, rfl⟩ := bytesIn_eq_ok.mp hy
    exact length_field hin
  have hsize : (Record.pubKey k).size = k.owner.len + 10 + k.dataLength := hc.size _ hobject
  have hdata : k.dataLength < 2 ^ 16 := hc.dataLength _ hobject
  have hmessage : b' = s.fields ++ wireForm (lower S) ++
      (wireForm (lower W) ++ k.toZRecord.fields ++ (k.fields ++ y)) := by
    refine message_eq hhead hbody ?_ hb (by rw [hheadLen]; exact hb')
    have hu32 : u32 (s.headerSize + (Record.pubKey k).size) ≤ s.headerSize + (Record.pubKey k).size := Nat.mod_le _ _
    have hu16 : k.dataLength ≤ 4 + u16 ((k.dataLength : ℤ) - 4) := by
      unfold u16
      omega
    simp only [malloc, length_map, length_range, hheadLen, length_append, hownerLen, ZRecord.length_fields,
      length_fields, hyLen]
    omega
  rw [hlabels]
  refine ⟨⟨s, k, signature, _, _, hsig, hk, hsignature, hhead, hbody, ?_, hcovered, hinception, hexpires, hsame, hgetKey, ?_⟩,
    hnew, hW.lower.apart, hrecord, getKey_rsaCtx hgetKey hdata (hc.memory k hk)⟩
  · rwa [hmessage] at haccepted
  · rwa [hlabels]

/-- LOOP: what the loop accepts leads to a key with the owner and the bytes of this one. -/
lemma verifyLoop_sound {signer owner : ZCert → List Bytes} (hT : Apart T) (hrecord : key.record.owner.Holds T)
    : ∀ (certs : List ZCert) (i : ℕ) (prev : ZPubKey) (P : List Bytes),
    (∀ c ∈ certs, c.Labelled (signer c) (owner c) ∧ Clean (signer c) ∧ Clean (owner c)) → prev.owner.Holds P → Apart P →
      verifyLoop oracle junk clock key certs i prev = .ok true →
        ∃ new, Leads oracle clock signer i certs prev P new ∧ T = new.owner.labels ∧
          new.rsaCtx = rsaFrom key.record.keyBytes ∧ key.record.keyBytes = new.record.keyBytes ∧
          P <:+ new.owner.labels := by
  intro certs
  induction certs with
  | nil =>
    intro i prev P _ _ _ h
    exact absurd (ok.inj h) (by decide)
  | cons c certs ih =>
    intro i prev P hcerts hprev hP h
    obtain ⟨hc, hS, hW⟩ := hcerts c (mem_cons_self ..)
    obtain ⟨verified, hverify, h⟩ := of_bind h
    cases verified with
    | false => exact absurd (ok.inj h) (by decide)
    | true =>
      obtain ⟨endorsed, hendorsed, h⟩ := of_bind h
      cases endorsed with
      | none => exact absurd (ok.inj h) (by decide)
      | some new =>
        obtain ⟨longer, hsuffix, h⟩ := of_bind h
        cases longer with
        | false => exact absurd (ok.inj h) (by decide)
        | true =>
          obtain ⟨same, hsame, h⟩ := of_bind h
          obtain ⟨⟨s, k, signature, head, body, hendorses⟩, hnew, hapart, howner, hrsa⟩ :=
            endorses_of_checks hc hS hW hP hprev hverify hendorsed hsuffix
          cases same with
          | true =>
            obtain ⟨heq, hbytes⟩ := isEqual_eq_true hsame
            rw [howner] at heq
            exact ⟨new, .last hendorses, hrecord.labels_eq hnew hT hapart heq, by rw [hbytes, hrsa], hbytes,
              hendorses.longer⟩
          | false =>
            obtain ⟨final, hleads, hTfinal, hrsa, hbytes, hlonger⟩ :=
              ih (i + 1) new new.owner.labels (fun c hc => hcerts c (mem_cons_of_mem _ hc)) hnew hapart h
            exact ⟨final, .next hendorses hleads, hTfinal, hrsa, hbytes, hendorses.longer.trans hlonger⟩

/-! ### Every chain -/

/-- The labels of what `verifyLabel` is given, over the letter a and the bytes of `B`. -/
structure Presented (B : Set UInt8) (key : ZPubKey) (chain : ZCertChain) (anchor : ZPubKey) (signer owner : ZCert → List Bytes)
    (A T O : List Bytes) : Prop where
  anchor : Made anchor.owner A
  record : Made key.record.owner T
  key : Made key.owner O
  certs : ∀ c ∈ chain.certs, c.Labelled (signer c) (owner c)
  chars : ∀ L, L = A ∨ L = T ∨ L = O ∨ (∃ c ∈ chain.certs, L = signer c ∨ L = owner c) → ∀ l ∈ L, ∀ c ∈ l, c ∈ insert 97 B

/-- Bytes that names and their wire forms keep as they are. -/
def Tame (B : Set UInt8) : Prop := charDot ∉ B ∧ 0 ∉ B ∧ charSpace ∉ B

lemma Presented.clean (hB : Tame B) (h : ∀ l ∈ L, ∀ c ∈ l, c ∈ insert 97 B) :
    Clean L := by
  have hnot : ∀ x : UInt8, x ≠ 97 → x ∉ B → ∀ l ∈ L, x ∉ l := by
    intro x hx hxB l hl hxl
    rcases h l hl x hxl with heq | hmem
    · exact hx heq
    · exact hxB hmem
  exact ⟨fun l hl => ⟨hnot _ (by decide) hB.1 l hl, hnot _ (by decide) hB.2.1 l hl⟩, hnot _ (by decide) hB.2.2⟩

lemma Leads.getKey {signer : ZCert → List Bytes} {certs : List ZCert} {i : ℕ} {P : List Bytes}
    (h : Leads oracle clock signer i certs prev P new) :
    ∃ c ∈ certs, ∃ k, c.object = some (.pubKey k) ∧ k.getKey = .ok new := by
  induction h with
  | last hendorses => exact ⟨_, mem_cons_self, _, hendorses.object, hendorses.key⟩
  | next _ _ ih =>
    obtain ⟨c, hc, hk⟩ := ih
    exact ⟨c, mem_cons_of_mem _ hc, hk⟩

/-- SOUND: over tame bytes, a key that is accepted is vouched for, if its owner and its RSA key are those in its record. -/
lemma vouched_of_tame (hB : Tame B) {chain : ZCertChain} {anchor : ZPubKey} {signer owner : ZCert → List Bytes}
    {O : List Bytes} (h : Presented B key chain anchor signer owner A T O)
    (hrun : key.verifyLabel oracle junk clock chain anchor = .ok true) :
    Vouched oracle clock signer key chain.certs anchor A T O ↔ O = T ∧ key.rsaCtx = rsaFrom key.record.keyBytes := by
  have hclean : ∀ c ∈ chain.certs, c.Labelled (signer c) (owner c) ∧ Clean (signer c) ∧ Clean (owner c) := fun c hc =>
    ⟨h.certs c hc, Presented.clean hB (h.chars _ (.inr (.inr (.inr ⟨c, hc, .inl rfl⟩)))),
      Presented.clean hB (h.chars _ (.inr (.inr (.inr ⟨c, hc, .inr rfl⟩))))⟩
  have hA := Presented.clean hB (h.chars A (.inl rfl))
  have hT := Presented.clean hB (h.chars T (.inr (.inl rfl)))
  obtain ⟨new, hleads, hTnew, hrsa, hbytes, hlonger⟩ := verifyLoop_sound hT.apart h.record.holds.1 chain.certs 0 anchor A
    hclean h.anchor.holds.1 hA.apart hrun
  constructor
  · rintro ⟨new', hleads', hT', hO', hctx, hbytes', -⟩
    obtain ⟨c, hc, k, hk, hkey⟩ := hleads'.getKey
    refine ⟨hO'.trans hT'.symm, ?_⟩
    rw [hctx, hbytes']
    exact getKey_rsaCtx hkey ((h.certs c hc).dataLength _ hk) ((h.certs c hc).memory k hk)
  · rintro ⟨rfl, hctx⟩
    exact ⟨new, hleads, hTnew, hTnew, hctx.trans hrsa.symm, hbytes, hTnew ▸ hlonger⟩

/-! ### Names that are mistaken -/

/-- A name of labels that are all counted. -/
def nameOf (L : List Bytes) : DomainName := ⟨DomainName.text L ++ [0], (DomainName.wireForm L).length, L.length⟩

def shortKeyRecord (owner : DomainName) : ZPubKeyRecord :=
  ⟨⟨owner, recordTypeKey, 1, 86400, 22, owner.len + 32⟩, 256, 3, sigAlgId, [1, 3] ++ List.replicate 16 255⟩

def shortKey (owner : DomainName) : ZPubKey := ⟨owner, ⟨16, 3, 2 ^ 128 - 1⟩, shortKeyRecord owner⟩

/-- A certificate for it that is valid from 0 to 2. -/
def shortCert (signer owner : DomainName) : ZCert where
  object := some (.pubKey (shortKeyRecord owner))
  sig := some ⟨⟨signer, recordTypeSig, 1, 86400, 34 + signer.len, 44 + 2 * signer.len⟩, recordTypeKey, sigAlgId,
    signer.numLabels, 86400, 2, 0, 0, signer, some (List.replicate 16 0)⟩
  signingKey := none

lemma rsaCtx_shortKey (owner : DomainName) :
    (shortKey owner).rsaCtx = rsaFrom (shortKey owner).record.keyBytes := by
  simp only [shortKey, shortKeyRecord, keyBytes]
  decide +kernel

lemma one_le_maxNumCerts : 1 ≤ maxNumCerts := by decide

def shortChain (S W : List Bytes) : ZCertChain := ⟨[shortCert (nameOf S) (nameOf W)], one_le_maxNumCerts⟩

/-- `verifyLabel` for a key with labels `T`, with a certificate by `S` for a key with labels `W`, at time 1. All
    signatures are accepted. -/
def verifyShort (A S W T : List Bytes) : Outcome Bool :=
  (shortKey (nameOf T)).verifyLabel (fun _ _ _ => true) (fun _ => 0) (fun _ => 1) (shortChain S W) (shortKey (nameOf A))

lemma made_of_wire (h : DomainName.Wired L) (hwire : ofWire (wireForm L) (wireForm L).length = .ok (nameOf L)) :
    Made (nameOf L) L := ⟨.wire _ _, hwire, trivial, h, prefix_rfl⟩

lemma presented_short (hA : Made (nameOf A) A) (hS : Made (nameOf S) S) (hW : Made (nameOf W) W)
    (hT : Made (nameOf T) T)
    (hover : ∀ L, L = A ∨ L = S ∨ L = W ∨ L = T → ∀ l ∈ L, ∀ c ∈ l, c ∈ insert 97 B) :
    Presented B (shortKey (nameOf T)) (shortChain S W) (shortKey (nameOf A)) (fun _ => S) (fun _ => W) A T T where
  anchor := hA
  record := hT
  key := hT
  certs := by
    intro c hc
    obtain rfl := mem_singleton.mp hc
    refine ⟨?_, ?_, ?_, ?_, ?_⟩
    · intro s hs
      cases hs
      exact hS
    · intro object hobject
      cases hobject
      exact hW
    · intro object hobject
      cases hobject
      rfl
    · intro object hobject
      cases hobject
      exact (show 22 < 2 ^ 16 by decide)
    · intro k hk
      cases hk
      exact (show 18 < 2 ^ 31 by decide)
  chars := by
    rintro L (h | h | h | ⟨c, -, h | h⟩)
    · exact hover L (.inl h)
    · exact hover L (.inr (.inr (.inr h)))
    · exact hover L (.inr (.inr (.inr h)))
    · exact hover L (.inr (.inl h))
    · exact hover L (.inr (.inr (.inl h)))

lemma made_root : Made (nameOf []) [] := made_of_wire (by simp [DomainName.Wired]) rfl

lemma made_space : Made (nameOf [[charSpace]]) [[charSpace]] := made_of_wire (by simp [DomainName.Wired]) rfl

lemma made_aa : Made (nameOf [[97, 97]]) [[97, 97]] := made_of_wire (by simp [DomainName.Wired]) rfl

lemma made_zero : Made (nameOf [[97, 0]]) [[97, 0]] := made_of_wire (by simp [DomainName.Wired]) rfl

lemma made_dot : Made (nameOf [[97, charDot, 97]]) [[97, charDot, 97]] := made_of_wire (by simp [DomainName.Wired]) rfl

lemma made_three : Made (nameOf [[97], [97], [97]]) [[97], [97], [97]] := made_of_wire (by simp [DomainName.Wired]) rfl

lemma dot_accepted : verifyShort [[97, charDot, 97]] [[97, charDot, 97]] [[97], [97], [97]] [[97], [97], [97]] =
    .ok true := rfl

lemma zero_accepted : verifyShort [[97, 97]] [[97, 0]] [[97, 97]] [[97, 97]] = .ok true := rfl

lemma space_accepted : verifyShort [] [] [[charSpace]] [] = .ok true := rfl

lemma not_vouched_dot : ¬Vouched (fun _ _ _ => true) (fun _ => 1) (fun _ => [[97, charDot, 97]])
    (shortKey (nameOf [[97], [97], [97]])) (shortChain [[97, charDot, 97]] [[97], [97], [97]]).certs
    (shortKey (nameOf [[97, charDot, 97]])) [[97, charDot, 97]] [[97], [97], [97]] [[97], [97], [97]] := by
  rintro ⟨new, -, -, -, -, -, hlonger⟩
  exact absurd hlonger (by decide)

lemma not_vouched_zero : ¬Vouched (fun _ _ _ => true) (fun _ => 1) (fun _ => [[97, 0]]) (shortKey (nameOf [[97, 97]]))
    (shortChain [[97, 0]] [[97, 97]]).certs (shortKey (nameOf [[97, 97]])) [[97, 97]] [[97, 97]] [[97, 97]] := by
  rintro ⟨new, hleads, -⟩
  cases hleads with
  | last hendorses => exact absurd hendorses.signer (by decide)
  | next hendorses _ => exact absurd hendorses.signer (by decide)

lemma serialize_space_short : (shortKeyRecord (nameOf [[charSpace]])).serialize (replicate 34 0) 0 =
    .error (.fault .outOfRange) := rfl

lemma serialize_space_zeros : ((shortKeyRecord (nameOf [[charSpace]])).serialize (replicate 35 0) 0 >>= fun b =>
    pure b[1]?) = .ok (some 0) := rfl

lemma serialize_space_ones : ((shortKeyRecord (nameOf [[charSpace]])).serialize (replicate 35 1) 0 >>= fun b =>
    pure b[1]?) = .ok (some 1) := rfl

lemma not_writes_space (body : Bytes) : ¬Writes (shortKeyRecord (nameOf [[charSpace]])).serialize body := by
  intro h
  have hlong : ¬0 + body.length ≤ 34 := by
    intro hfits
    have hrun := (h (replicate 34 0) 0 _).mpr ⟨by simpa using hfits, rfl⟩
    rw [serialize_space_short] at hrun
    cases hrun
  -- the second byte is that of the buffer
  have hbody : ∀ {n x : UInt8}, ((shortKeyRecord (nameOf [[charSpace]])).serialize (replicate 35 n) 0 >>= fun b =>
      pure b[1]?) = .ok (some x) → body[1]? = some x := by
    intro n x hx
    obtain ⟨b, hb, hx⟩ := of_bind hx
    obtain ⟨hfits, rfl⟩ := (h _ 0 b).mp hb
    rw [length_replicate] at hfits
    rw [splice_zero, drop_of_length_le (by rw [length_replicate]; omega), append_nil] at hx
    exact ok.inj hx
  exact absurd ((hbody serialize_space_zeros).symm.trans (hbody serialize_space_ones)) (by decide)

lemma not_vouched_space : ¬Vouched (fun _ _ _ => true) (fun _ => 1) (fun _ => []) (shortKey (nameOf []))
    (shortChain [] [[charSpace]]).certs (shortKey (nameOf [])) [] [] [] := by
  rintro ⟨new, hleads, -⟩
  have hendorsed : ∀ {prev new : ZPubKey} {s : ZSigRecord} {k : ZPubKeyRecord} {signature head body : Bytes},
      ¬Endorses (fun _ _ _ => true) 1 1 (shortCert (nameOf []) (nameOf [[charSpace]])) [] [] prev new s k signature head
        body := by
    intro prev new s k signature head body h
    obtain rfl := Record.pubKey.inj (Option.some.inj h.object)
    exact not_writes_space body h.writesBody
  cases hleads with
  | last hendorses => exact hendorsed hendorses
  | next hendorses _ => exact hendorsed hendorses

/-- LABELS: what `verifyLabel` accepts is vouched for, if the owner and the RSA key of the key are those in its record,
    exactly over bytes without a dot, NUL and space. -/
theorem verifyLabel_sound_iff (B : Set UInt8) : (∀ (oracle : Oracle) (junk : ℕ → UInt8) (clock : ℕ → ℕ) (key : ZPubKey)
    (chain : ZCertChain) (anchor : ZPubKey) (signer owner : ZCert → List Bytes) (A T O : List Bytes),
      Presented B key chain anchor signer owner A T O → key.verifyLabel oracle junk clock chain anchor = .ok true →
        (Vouched oracle clock signer key chain.certs anchor A T O ↔
          O = T ∧ key.rsaCtx = rsaFrom key.record.keyBytes)) ↔ Tame B := by
  constructor
  · intro h
    refine ⟨?_, ?_, ?_⟩
    · intro hB
      refine not_vouched_dot ((h _ _ _ _ _ _ _ _ _ _ _ (presented_short made_dot made_dot made_three made_three ?_)
        dot_accepted).mpr ⟨rfl, rsaCtx_shortKey _⟩)
      simp [hB]
    · intro hB
      refine not_vouched_zero ((h _ _ _ _ _ _ _ _ _ _ _ (presented_short made_aa made_zero made_aa made_aa ?_)
        zero_accepted).mpr ⟨rfl, rsaCtx_shortKey _⟩)
      simp [hB]
    · intro hB
      refine not_vouched_space ((h _ _ _ _ _ _ _ _ _ _ _ (presented_short made_root made_root made_space made_root ?_)
        space_accepted).mpr ⟨rfl, rsaCtx_shortKey _⟩)
      simp [hB]
  · intro hB oracle junk clock key chain anchor signer owner A T O hpresented hrun
    exact vouched_of_tame hB hpresented hrun

/-- `verifyLabel` is not sound: an anchor whose one label has a dot in it is taken for a parent. -/
theorem not_verifyLabel_sound : ¬∀ (oracle : Oracle) (junk : ℕ → UInt8) (clock : ℕ → ℕ) (key : ZPubKey)
    (chain : ZCertChain) (anchor : ZPubKey) (signer owner : ZCert → List Bytes) (A T : List Bytes),
      Presented Set.univ key chain anchor signer owner A T T → key.rsaCtx = rsaFrom key.record.keyBytes →
        key.verifyLabel oracle junk clock chain anchor = .ok true →
          Vouched oracle clock signer key chain.certs anchor A T T := by
  intro h
  refine not_vouched_dot (h _ _ _ _ _ _ _ _ _ _ (presented_short made_dot made_dot made_three made_three ?_)
    (rsaCtx_shortKey _) dot_accepted)
  simp

end Embassies.Crypto
