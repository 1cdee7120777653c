import Embassies.Zftp.Authenticity
import Embassies.Zftp.Installation

/-! What a hostile origin can and cannot do to a client.

    `install_reply` holds the file's mutex while it installs a reply and then reconsiders the waiters one by one.
    `serviceStep` takes it apart into these steps, so that what each of them relies on is a condition on the state in
    which it starts; `receiveDatagram_eq` says that the steps are `install_reply`. In every reachable state a datagram
    that fits (`DatagramFits`) and a request that can be answered or sent on (`RequestFits`) cause no fault, and a
    datagram that is rejected or refused changes nothing. -/

namespace Embassies.Zftp

open Checked List ZFileReplyFromServer

variable {s s' : Client} {req : ZFileRequest}

/-! ### The steps of a service thread -/

/-- A cached file, and the waiters `_signal_waiters` has still to reconsider while `install_reply` is in it. -/
structure Service where
  client : Client
  pending : Option (List ZFileRequest)

/-- What can happen to the file: `reconsider` goes on with `_signal_waiters`. -/
inductive ServiceEvent where
  | receive (zcb : Datagram)
  | reconsider
  | consider (req : ZFileRequest)
  | withdraw (req : ZFileRequest)

/-- `_signal_waiters` with the given requests left; `install_reply` ends when there are none. -/
def signalling (s : Client) : List ZFileRequest → Service
  | [] => ⟨{ s with file := updateStatus s.file .dirty }, none⟩
  | req :: rest => ⟨s, some (req :: rest)⟩

/-- `install_reply(reply)` up to the first waiter. -/
def beginInstall (zhash : Bytes → Hash) (s : Client) (reply : ZFileReplyFromServer) :
    Checked Service := do
  let (s, causedChange) ← installReplyCore zhash s reply
  if causedChange then
    pure (signalling { s with file := { s.file with
      progressCounter := u32 (s.file.progressCounter + 1), waiters := [] } } s.file.waiters)
  else pure ⟨s, none⟩

/-- One step. While `install_reply` holds the mutex nothing else happens. -/
def serviceStep (zhash : Bytes → Hash) (cfg : ZCacheConfig) : Service → ServiceEvent → Checked Service
  | ⟨s, none⟩, .receive zcb => do
    match ← ZFileReplyFromServer.parse zcb with
    | none => pure ⟨s, none⟩
    | some reply => beginInstall zhash s reply
  | ⟨s, some (req :: rest)⟩, .reconsider => do
    let s ← considerRequest zhash cfg s req
    pure (signalling s rest)
  | ⟨s, none⟩, .consider req => do
    let s ← considerRequest zhash cfg s req
    pure ⟨s, none⟩
  | ⟨s, none⟩, .withdraw req => pure ⟨withdrawRequest s req, none⟩
  | svc, _ => pure svc

variable {zhash : Bytes → Hash} {cfg : ZCacheConfig}
  {newStatus : ZCachedStatus} {reply : ZFileReplyFromServer} {changed : Bool} {zcb : Datagram}

lemma run_reconsider_idle (s : Client) (n : ℕ) :
    run (serviceStep zhash cfg) ⟨s, none⟩ (List.replicate n .reconsider) = .ok ⟨s, none⟩ := by
  induction n with
  | zero => rfl
  | succ n ih =>
    rw [replicate_succ, run]
    change (Except.ok _ >>= _) = _
    rw [ok_bind, ih]

lemma run_reconsider (rest : List ZFileRequest) : ∀ s : Client,
    run (serviceStep zhash cfg) (signalling s rest) (List.replicate rest.length .reconsider) =
      (run (considerRequest zhash cfg) s rest >>= fun s' =>
        .ok ⟨{ s' with file := updateStatus s'.file .dirty }, none⟩) := by
  induction rest with
  | nil => intro s; simp [run, signalling]
  | cons req rest ih =>
    intro s
    rw [length_cons, replicate_succ, run, run]
    change ((considerRequest zhash cfg s req >>= fun s => pure (signalling s rest)) >>= _) = _
    cases considerRequest zhash cfg s req with
    | error e => simp
    | ok s' =>
      simp only [ok_bind, pure_eq_ok]
      exact ih s'

lemma receiveDatagram_eq (s : Client) (zcb : Datagram) : run (serviceStep zhash cfg) ⟨s, none⟩
        (.receive zcb :: List.replicate s.file.waiters.length .reconsider) =
      (receiveDatagram zhash cfg s zcb >>= fun s' => .ok ⟨s', none⟩) := by
  rw [run, receiveDatagram, serviceStep]
  cases hparse : parse zcb with
  | error e => simp
  | ok o =>
    cases o with
    | none => simp [run_reconsider_idle]
    | some reply =>
      simp only [ok_bind, beginInstall, installReply]
      cases hcore : installReplyCore zhash s reply with
      | error e => simp
      | ok out =>
        obtain ⟨s1, changed⟩ := out
        have hw := installReplyCore_waiters hcore
        simp only [ok_bind]
        cases changed with
        | false => simp [run_reconsider_idle]
        | true =>
          simp only [if_true, pure_eq_ok, ok_bind, signalWaiters, ← hw]
          rw [run_reconsider]
          cases run (considerRequest zhash cfg) _ s1.file.waiters with
          | error e => simp
          | ok s2 => simp

/-! ### What holds in every reachable state -/

/-- Between two steps: requests wait only on a file client, and not while an image on disk could
    answer them; a file with a tree has been looked up on disk. -/
structure Orderly (cfg : ZCacheConfig) (f : ZCachedFile) : Prop where
  waiting : f.waiters ≠ [] →
    cfg.zfileClient.isSome ∧ (f.status = .ignorant → cfg.retrieveFile = none)
  known : f.tree.isSome → f.status ≠ .ignorant

/-- While waiters are reconsidered. -/
structure Signalled (cfg : ZCacheConfig) (f : ZCachedFile) : Prop where
  client : cfg.zfileClient.isSome
  disk : f.status = .ignorant → cfg.retrieveFile = none
  tree : f.tree.isSome

lemma updateStatus_ne_ignorant (h : newStatus ≠ .ignorant) (f : ZCachedFile)
    : (updateStatus f newStatus).status ≠ .ignorant := by
  cases newStatus with
  | ignorant => exact absurd rfl h
  | clean => exact nofun
  | dirty => exact nofun

lemma checkDisk_eq (h : s.file.status = .ignorant → cfg.retrieveFile = none) : checkDisk zhash cfg s = .ok s := by
  rw [checkDisk]
  split
  case h_1 image hst himg =>
    rw [h hst] at himg
    cases himg
  case h_2 => rfl

lemma installImage_orderly (hst : newStatus ≠ .ignorant) {image : FileImage} (hs : Orderly cfg s.file)
    (hw : s.file.waiters = []) (h : installImage zhash cfg newStatus s image = .ok s') :
    Orderly cfg s'.file ∧ s'.file.tree.isSome ∧ s'.file.waiters = [] ∧ s'.delivered = s.delivered := by
  rw [installImage] at h
  split at h
  case isTrue htree =>
    obtain rfl := assertSameImage_eq h
    exact ⟨hs, htree, hw, rfl⟩
  case isFalse =>
    have hw' : (updateStatus { s.file with
        fileHash := image.fileHash, tree := some { image.tree with parents := [] } }
        newStatus).waiters = [] := hw
    simp only [signalInstalled, hw', run, Except.ok.injEq] at h
    subst h
    exact ⟨⟨fun hne => absurd rfl hne, fun _ => updateStatus_ne_ignorant hst s.file⟩, rfl, rfl, rfl⟩

lemma issueServerRequest_orderly {missing : DataRange} (hs : Orderly cfg s.file)
    (hdisk : s.file.status = .ignorant → cfg.retrieveFile = none)
    (h : issueServerRequest zhash cfg (installImage zhash cfg .dirty) s missing req = .ok s') :
    Orderly cfg s'.file := by
  rw [issueServerRequest] at h
  split at h
  case isTrue => cases h; exact hs
  split at h
  case h_1 maxPayload hclient =>
    obtain ⟨⟨obr, mode⟩, -, h⟩ := of_bind h
    cases h
    exact ⟨fun _ => ⟨by simp only [hclient, Option.isSome_some], hdisk⟩, hs.known⟩
  case h_2 url hclient hurl horigins =>
    have hw : s.file.waiters = [] := by
      by_contra hne
      have := (hs.waiting hne).1
      rw [hclient] at this
      cases this
    obtain ⟨s1, hp, h⟩ := of_bind h
    have hs1 : Orderly cfg s1.file := by
      obtain ⟨c, -, hp⟩ := of_bind hp
      split at hp
      · cases hp; exact hs
      · exact (installImage_orderly (s := { s with blocks := c }) (by decide) hs hw hp).1
    split at h <;> cases h
    · exact hs1
    · exact hs1
  case h_3 => cases h; exact hs

lemma checkDisk_cases (hs : Orderly cfg s.file) (h : checkDisk zhash cfg s = .ok s') :
    (s'.file.status = .ignorant → cfg.retrieveFile = none) ∧ (s' = s ∨
      Orderly cfg s'.file ∧ s.file.waiters = [] ∧ s'.file.waiters = [] ∧ s'.delivered = s.delivered) := by
  rw [checkDisk] at h
  split at h
  case h_1 image hst himg =>
    have hw : s.file.waiters = [] := by
      by_contra hne
      have := (hs.waiting hne).2 hst
      rw [himg] at this
      cases this
    obtain ⟨hord, htree, hw', hd⟩ := installImage_orderly (by decide) hs hw h
    exact ⟨fun hign => absurd hign (hord.known htree), .inr ⟨hord, hw, hw', hd⟩⟩
  case h_2 hno =>
    cases h
    refine ⟨fun hst => ?_, .inl rfl⟩
    rcases himg : cfg.retrieveFile with _ | image
    · rfl
    · exact absurd himg (hno image hst)

lemma considerRequest_orderly (hs : Orderly cfg s.file) (h : considerRequest zhash cfg s req = .ok s') :
    Orderly cfg s'.file := by
  obtain ⟨s1, hdisk, h⟩ := of_bind h
  obtain ⟨hno, hcases⟩ := checkDisk_cases hs hdisk
  have hs1 : Orderly cfg s1.file := by
    rcases hcases with rfl | ⟨hord, -⟩
    · exact hs
    · exact hord
  rw [considerWith] at h
  split at h
  case h_1 => exact issueServerRequest_orderly hs1 hno h
  case h_2 =>
    obtain ⟨⟨c, missing⟩, -, h⟩ := of_bind h
    dsimp only at h
    split at h
    · cases h; exact hs1
    · exact issueServerRequest_orderly (s := { s1 with blocks := c }) hs1 hno h

/-- INVERSION of reconsidering a waiter: it is answered, or it waits again; the file's tree and status stay. -/
lemma considerRequest_signalled (hs : Signalled cfg s.file) (h : considerRequest zhash cfg s req = .ok s') :
    Signalled cfg s'.file := by
  obtain ⟨s1, hdisk, h⟩ := of_bind h
  rw [checkDisk_eq hs.disk] at hdisk
  cases hdisk
  obtain ⟨mtu, hmtu⟩ := Option.isSome_iff_exists.mp hs.client
  have hissue : ∀ (u u' : Client) (missing : DataRange), Signalled cfg u.file →
      issueServerRequest zhash cfg (installImage zhash cfg .dirty) u missing req = .ok u' →
      Signalled cfg u'.file := by
    intro u u' missing hu h
    rw [issueServerRequest, hmtu] at h
    split at h
    case isTrue => cases h; exact hu
    case isFalse =>
      obtain ⟨⟨obr, mode⟩, -, h⟩ := of_bind h
      cases h
      exact ⟨hu.client, hu.disk, hu.tree⟩
  rw [considerWith] at h
  split at h
  case h_1 => exact hissue s s' _ hs h
  case h_2 =>
    obtain ⟨⟨c, missing⟩, -, h⟩ := of_bind h
    dsimp only at h
    split at h
    · cases h; exact hs
    · exact hissue { s with blocks := c } s' _ hs h

/-- The invariant of the service. -/
structure Service.Ready (zhash : Bytes → Hash) (cfg : ZCacheConfig) (svc : Service) : Prop where
  holds : svc.client.Holds zhash Settled
  idle : svc.pending = none → Orderly cfg svc.client.file
  busy : ∀ rest, svc.pending = some rest → Signalled cfg svc.client.file

lemma image_settled (image : FileImage) : Settled image.fileHash (some { image.tree with parents := [] }) := by
  rintro t ⟨⟩
  exact ⟨⟨image.root_validated, nofun⟩, rfl⟩

lemma installReplyCore_settled (hs : s.Holds zhash Settled) (h : installReplyCore zhash s reply = .ok (s', changed))
    : s'.Holds zhash Settled := by
  obtain ⟨-, rfl, -⟩ | ⟨t, ir, t1, n1, c, n2, u, r, hm, hrec, hdata, hval, -, rfl⟩ := installReplyCore_cases h
  · exact hs
  obtain ⟨hwf, -⟩ := startTree_settled hs.file reply
  rw [← installMetadata_startTree hm] at hwf
  obtain ⟨-, -, hu, hparents, -⟩ := hwf.validated hrec hval
  refine ⟨?_, (installDataLoop_sound _ _ _ _ _ hs.blocks hdata).1⟩
  rintro v ⟨⟩
  exact ⟨hu, hparents⟩

lemma installReplyCore_tree (h : installReplyCore zhash s reply = .ok (s', changed)) :
    s'.file.status = s.file.status ∧ (changed = true → s'.file.tree.isSome) ∧
      (changed = false → s'.file.tree.isSome → s.file.tree.isSome) := by
  obtain ⟨-, rfl, rfl⟩ | ⟨t, ir, t1, n1, c, n2, u, r, hm, -, -, -, rfl, rfl⟩ := installReplyCore_cases h
  · exact ⟨rfl, nofun, fun _ ht => ht⟩
  · refine ⟨rfl, fun _ => rfl, ?_⟩
    intro hno _
    obtain ⟨ht, -⟩ | ⟨-, rfl, -⟩ := installMetadata_cases hm
    · rw [ht]; rfl
    · simp at hno

lemma signalling_ready {rest : List ZFileRequest} (hh : s.Holds zhash Settled)
    (hclient : rest ≠ [] → Signalled cfg s.file) (hwait : rest = [] → s.file.waiters ≠ [] → cfg.zfileClient.isSome) :
    (signalling s rest).Ready zhash cfg := by
  cases rest with
  | nil =>
    refine ⟨⟨hh.file, hh.blocks⟩, fun _ => ⟨?_, ?_⟩, nofun⟩
    · intro hne
      exact ⟨hwait rfl hne, fun hign => absurd hign (updateStatus_ne_ignorant (by decide) s.file)⟩
    · intro _
      exact updateStatus_ne_ignorant (by decide) s.file
  | cons req rest => exact ⟨hh, nofun, fun _ _ => hclient (cons_ne_nil _ _)⟩

/-- STEP: every step keeps the service ready. -/
lemma serviceStep_ready (svc : Service) (e : ServiceEvent) (svc' : Service) (hs : svc.Ready zhash cfg)
    (h : serviceStep zhash cfg svc e = .ok svc') : svc'.Ready zhash cfg := by
  obtain ⟨s, pending⟩ := svc
  cases pending with
  | none =>
    have hord := hs.idle rfl
    cases e with
    | receive zcb =>
      obtain ⟨o, -, h⟩ := of_bind h
      cases o with
      | none => cases h; exact hs
      | some reply =>
        obtain ⟨⟨s1, changed⟩, hcore, h⟩ := of_bind h
        have hw := installReplyCore_waiters hcore
        obtain ⟨hstatus, htree, hsame⟩ := installReplyCore_tree hcore
        have hh := installReplyCore_settled hs.holds hcore
        cases changed with
        | false =>
          cases h
          refine ⟨hh, fun _ => ⟨?_, ?_⟩, nofun⟩
          · rw [hw, hstatus]; exact hord.waiting
          · intro ht
            rw [hstatus]
            exact hord.known (hsame rfl ht)
        | true =>
          cases h
          refine signalling_ready ⟨hh.file, hh.blocks⟩ ?_ (fun _ hne => absurd rfl hne)
          intro hne
          rw [hw] at hne
          obtain ⟨hclient, hdisk⟩ := hord.waiting hne
          exact ⟨hclient, by rw [← hstatus] at hdisk; exact hdisk, htree rfl⟩
    | reconsider => cases h; exact hs
    | consider req =>
      obtain ⟨s1, hreq, h⟩ := of_bind h
      cases h
      exact ⟨considerRequest_holds (fun image _ => image_settled image) hs.holds hreq,
        fun _ => considerRequest_orderly hord hreq, nofun⟩
    | withdraw req =>
      cases h
      refine ⟨⟨hs.holds.file, hs.holds.blocks⟩, fun _ => ⟨fun hne => hord.waiting ?_, hord.known⟩, nofun⟩
      intro hnil
      have hnil' : s.file.waiters = [] := hnil
      exact hne (by simp [withdrawRequest, hnil'])
  | some rest =>
    have hsig := hs.busy rest rfl
    cases rest with
    | nil => cases e <;> (cases h; exact hs)
    | cons req rest =>
      cases e with
      | reconsider =>
        obtain ⟨s1, hreq, h⟩ := of_bind h
        cases h
        have hsig' := considerRequest_signalled hsig hreq
        exact signalling_ready (considerRequest_holds (fun image _ => image_settled image) hs.holds hreq)
          (fun _ => hsig') (fun _ _ => hsig'.client)
      | receive zcb => cases h; exact hs
      | consider req => cases h; exact hs
      | withdraw req => cases h; exact hs

/-! ### Progress -/

/-- A waiter can be reconsidered: the blocks it wants can be looked up, and if it has to be sent on, the
    request for it is one range within a budget that an empty reply fits into. -/
structure RequestFits (cfg : ZCacheConfig) (s : Client) (req : ZFileRequest) (t : MerkleTree) :
    Prop where
  supplies : Supplies t (eligibleSet t req.dataRange) s.blocks
  convex : RequestBuilder.Convex t (eligibleSet t req.dataRange).start
    (eligibleSet t req.dataRange).stop
  budget : ∀ mtu, cfg.zfileClient = some mtu → sizeofDataPacket ≤ mtu ∧ mtu ≤ 2 ^ 30

/-- A datagram that the client can take: it is as long as its record count says, and if it is
    admitted, its records and its data have a place. -/
structure DatagramFits (zhash : Bytes → Hash) (s : Client) (zcb : Datagram) : Prop where
  count : sizeofDataPacket ≤ zcb.bytes.length → word zcb.bytes 0 2 = zftpReplyData →
    sizeofDataPacket + sizeofMerkleRecord * word zcb.bytes 35 2 ≤ zcb.bytes.length
  reply : ∀ reply, ZFileReplyFromServer.parse zcb = .ok (some reply) → Admits zhash s.file reply →
    ReplyFits zhash s reply

/-- The condition under which a step of `install_reply` causes no fault. -/
def Fits (zhash : Bytes → Hash) (cfg : ZCacheConfig) (svc : Service) : ServiceEvent → Prop
  | .receive zcb => DatagramFits zhash svc.client zcb
  | .reconsider => ∀ req rest t, svc.pending = some (req :: rest) → svc.client.file.tree = some t →
      RequestFits cfg svc.client req t
  | _ => False

lemma outboundRequest_total {t : MerkleTree} {mtu : ℕ} {mode : Bool} {view : Hash → ZBlockCacheRecord}
    (hfits : RequestFits cfg s req t) (hmtu : cfg.zfileClient = some mtu) {f : ZCachedFile} (hf : f.tree = some t)
    (hne : (missingSet cfg t mode view req.dataRange).isEmpty = false) :
    ∃ out, outboundRequest f mtu (missingSet cfg t mode view req.dataRange) req = .ok out := by
  have hw := missingSet_within cfg t mode view req.dataRange
  generalize missingSet cfg t mode view req.dataRange = missing at *
  have hnum := t.numBlocks_lt
  have hlt : missing.start < missing.stop := by
    have hord := hw.ordered
    have hdiff : missing.start ≠ missing.stop := by simpa [DataRange.isEmpty] using hne
    omega
  have hend : missing.stop ≤ t.numBlocks * zftpBlockSize := hw.stop.trans (min_le_right _ _)
  have hpos : 0 < missing.size := by
    rw [DataRange.size_of_le hlt.le (by simp only [zftpBlockSize] at hend; omega)]
    omega
  have hconvex : RequestBuilder.Convex t missing.start missing.stop := by
    intro i j k hi hij hjk hk
    refine hfits.convex i j k ((Nat.div_le_div_right (hw.start hlt)).trans hi) hij hjk
      (hk.trans_le (hw.stop.trans (min_le_left _ _)))
  obtain ⟨hlow, hhigh⟩ := hfits.budget mtu hmtu
  obtain ⟨b, hb⟩ := RequestBuilder.buildRequest_total hlow hhigh hconvex hend
  exact ⟨_, by simp only [outboundRequest, hf, liteAssert_pos hpos, hb, ok_bind]; rfl⟩

/-- RECONSIDER: a waiter that fits is reconsidered without a fault. -/
lemma considerRequest_total (hh : s.Holds zhash Settled) (hs : Signalled cfg s.file)
    (hfits : ∀ t, s.file.tree = some t → RequestFits cfg s req t) : ∃ s', considerRequest zhash cfg s req = .ok s' := by
  obtain ⟨t, ht⟩ := Option.isSome_iff_exists.mp hs.tree
  obtain ⟨mtu, hmtu⟩ := Option.isSome_iff_exists.mp hs.client
  have hreq := hfits t ht
  rw [considerRequest, checkDisk_eq hs.disk, ok_bind, considerWith, ht]
  obtain ⟨c, missing, hm⟩ := computeMissingSet_total cfg s.file.requestingDataMode hh.blocks hreq.supplies
  obtain ⟨rfl, -⟩ := computeMissingSet_eq hh.blocks hm
  simp only [hm, ok_bind]
  split
  case isTrue => exact ⟨_, rfl⟩
  case isFalse hne =>
    rw [issueServerRequest, hmtu]
    split
    case isTrue => exact ⟨_, rfl⟩
    case isFalse =>
      obtain ⟨out, hout⟩ := outboundRequest_total hreq hmtu ht (by simpa using hne)
      simp only [hout, ok_bind]
      exact ⟨_, rfl⟩

lemma receive_total (hh : s.Holds zhash Settled) (hfits : DatagramFits zhash s zcb) :
    ∃ svc, serviceStep zhash cfg ⟨s, none⟩ (.receive zcb) = .ok svc := by
  obtain ⟨o, hparse⟩ := parse_total hfits.count
  rw [serviceStep, hparse, ok_bind]
  cases o with
  | none => exact ⟨_, rfl⟩
  | some reply =>
    obtain ⟨-, -, hlen⟩ := parse_bounds hparse
    obtain ⟨s1, changed, hcore⟩ := installReplyCore_total hh hlen (hfits.reply reply hparse)
    simp only [beginInstall, hcore, ok_bind]
    split <;> exact ⟨_, rfl⟩

lemma serviceStep_total {svc : Service} {e : ServiceEvent} (hs : svc.Ready zhash cfg) (hfits : Fits zhash cfg svc e)
    : ∃ svc', serviceStep zhash cfg svc e = .ok svc' := by
  obtain ⟨s, pending⟩ := svc
  rcases pending with _ | _ | ⟨req, rest⟩
  · cases e with
    | receive zcb => exact receive_total hs.holds hfits
    | reconsider => exact ⟨_, rfl⟩
    | consider req => exact hfits.elim
    | withdraw req => exact hfits.elim
  · cases e <;> exact ⟨_, rfl⟩
  · cases e with
    | reconsider =>
      obtain ⟨s', hs'⟩ := considerRequest_total hs.holds (hs.busy _ rfl) (fun t ht => hfits req rest t rfl ht)
      exact ⟨_, by rw [serviceStep, hs', ok_bind, pure_eq_ok]⟩
    | receive zcb => exact ⟨_, rfl⟩
    | consider req => exact ⟨_, rfl⟩
    | withdraw req => exact ⟨_, rfl⟩

lemma receiveDatagram_refused (h : parse zcb = .ok none ∨ ∃ reply,
      parse zcb = .ok (some reply) ∧ ¬Admits zhash s.file reply) : receiveDatagram zhash cfg s zcb = .ok s := by
  rw [receiveDatagram]
  rcases h with hnone | ⟨reply, hsome, hno⟩
  · rw [hnone, ok_bind, pure_eq_ok]
  · have hcore : installReplyCore zhash s reply = .ok (s, false) := by
      rw [installReplyCore, installMetadata_eq_none.mpr hno, pure_eq_ok]
    simp only [hsome, ok_bind, installReply, hcore, Bool.false_eq_true, if_false, pure_eq_ok]

/-- HOSTILE ORIGIN: in every reachable state, a step of `install_reply` on what fits causes no fault, so `install_reply`
    as a whole does not, and what is rejected or refused leaves the client as it was. -/
theorem hostileOrigin_withstood {fileHash : Hash} {blocks : ZBlockCache} (hblocks : blocks.Sound zhash)
    {events : List ServiceEvent} {svc : Service}
    (hrun : run (serviceStep zhash cfg) ⟨Client.fresh fileHash blocks, none⟩ events = .ok svc) :
    (∀ e, Fits zhash cfg svc e → ∃ svc', serviceStep zhash cfg svc e = .ok svc') ∧ (∀ zcb, svc.pending = none →
      Along (serviceStep zhash cfg) (Fits zhash cfg) svc
        (.receive zcb :: List.replicate svc.client.file.waiters.length .reconsider) →
      ∃ s', receiveDatagram zhash cfg svc.client zcb = .ok s') ∧
    ∀ zcb, (ZFileReplyFromServer.parse zcb = .ok none ∨ ∃ reply, ZFileReplyFromServer.parse zcb = .ok (some reply) ∧
          ¬Admits zhash svc.client.file reply) → receiveDatagram zhash cfg svc.client zcb = .ok svc.client := by
  have hfresh : (⟨Client.fresh fileHash blocks, none⟩ : Service).Ready zhash cfg :=
    ⟨⟨(fun t ht => nomatch ht), hblocks⟩, fun _ => ⟨fun hne => absurd rfl hne, nofun⟩, nofun⟩
  have hready := run_preserves serviceStep_ready events _ svc hfresh hrun
  refine ⟨fun e => serviceStep_total hready, ?_, fun zcb => receiveDatagram_refused⟩
  intro zcb hidle halong
  obtain ⟨s, pending⟩ := svc
  obtain rfl : pending = none := hidle
  have hstep : ∀ svc e, Service.Ready zhash cfg svc → Fits zhash cfg svc e →
      ∃ svc', serviceStep zhash cfg svc e = .ok svc' ∧ svc'.Ready zhash cfg := by
    intro svc e hs hf
    obtain ⟨svc', h⟩ := serviceStep_total hs hf
    exact ⟨svc', h, serviceStep_ready svc e svc' hs h⟩
  obtain ⟨svc', h, -⟩ := run_progress hstep _ _ hready halong
  rw [receiveDatagram_eq] at h
  obtain ⟨s', hs', -⟩ := of_bind h
  exact ⟨s', hs'⟩

/-- A reply with the root and its two children fits a new client, and is installed. -/
theorem hostileOrigin_withstood_zeroFile : ∃ s',
    receiveDatagram zeroHash clientConfig (Client.fresh (Hash.fill 6) (ZBlockCache.fresh none))
      (zeroDatagram [⟨1, Hash.fill 3⟩, ⟨2, Hash.fill 4⟩] (by decide)) = .ok s' := by
  have hparse := parse_zeroDatagram [⟨1, Hash.fill 3⟩, ⟨2, Hash.fill 4⟩] (by decide) (by simp)
  have hrecords : ∀ r ∈ (zeroReply [⟨1, Hash.fill 3⟩, ⟨2, Hash.fill 4⟩]).merkleRecords,
      (startTree (Client.fresh (Hash.fill 6) (ZBlockCache.fresh none)).file
        (zeroReply [⟨1, Hash.fill 3⟩, ⟨2, Hash.fill 4⟩])).RecordFits r := by
    decide +kernel
  have hfits : DatagramFits zeroHash (Client.fresh (Hash.fill 6) (ZBlockCache.fresh none))
      (zeroDatagram [⟨1, Hash.fill 3⟩, ⟨2, Hash.fill 4⟩] (by decide)) := by
    refine ⟨by decide +kernel, ?_⟩
    intro reply hreply _
    cases hparse.symm.trans hreply
    exact ⟨hrecords, fun blk hlt => absurd hlt (lt_irrefl _)⟩
  have hsound : (ZBlockCache.fresh none).Sound zeroHash := .fresh_none
  have hall := @hostileOrigin_withstood zeroHash clientConfig (Hash.fill 6) _ hsound [] _ rfl
  exact hall.2.1 _ rfl ⟨hfits, fun _ _ => trivial⟩

/-- WILD LOCATION: a record beyond the tree makes `install_merkle_records` leave its array. -/
theorem not_hostileOrigin_withstood : ¬∀ (zhash : Bytes → Hash) (cfg : ZCacheConfig) (fileHash : Hash) (zcb : Datagram),
      ∃ s', receiveDatagram zhash cfg (Client.fresh fileHash (ZBlockCache.fresh none)) zcb = .ok s' := by
  intro hclaim
  have hparse := parse_zeroDatagram [⟨1000, Hash.fill 1⟩] (by decide) (by simp)
  obtain ⟨s', h⟩ := hclaim zeroHash clientConfig (Hash.fill 6) (zeroDatagram [⟨1000, Hash.fill 1⟩] (by decide))
  have hfault : (installReply zeroHash clientConfig (Client.fresh (Hash.fill 6) (ZBlockCache.fresh none))
      (zeroReply [⟨1000, Hash.fill 1⟩])).isOk = false := by
    decide +kernel
  simp only [receiveDatagram, hparse, ok_bind] at h
  rw [h] at hfault
  cases hfault

end Embassies.Zftp
