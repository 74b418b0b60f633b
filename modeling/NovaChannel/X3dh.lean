import NovaChannel.Prekey
import NovaChannel.Ratchet.Session

/-!
# Asynchronous session establishment

`initiate` combines the initiator's DH identity and a fresh ephemeral key with a responder's
bundle, and `respond` combines the same keys from the other side.  The initiator's signing
identity travels in the sealed payload of the one message there is.
`respond_initiate` : a responder that holds the secrets of the bundle accepts the message and
arrives at the same session keys.
-/

namespace NovaChannel

namespace X3dh

open Crypto ByteString Kex
open NovaChannel.Group (checkedDh checkedDh_eq_ok)

/-- One direction of the transport. -/
structure DirectionalKey (β : Type) where
  key : β
  nonceBase : β
  deriving DecidableEq

/-- What a combination yields. -/
structure SessionKeys (β : Type) where
  i2r : DirectionalKey β
  r2i : DirectionalKey β
  ratchetRoot : β
  initPayloadKey : β
  deriving DecidableEq

/-- `EstablishedSession`: the peer, the key of what is sent, the key of what is received, and the
ratchet's root. -/
structure EstablishedSession (β : Type) where
  peer : β
  sender : DirectionalKey β
  receiver : DirectionalKey β
  ratchetRoot : β
  deriving DecidableEq

/-- What `initiate` returns. -/
structure InitiatedSession (β : Type) where
  message : β
  session : EstablishedSession β
  deriving DecidableEq

/-- What `respond` returns. -/
structure RespondedSession (β : Type) where
  initiatorIdentity : β
  initialPayload : β
  session : EstablishedSession β
  deriving DecidableEq

/-- The randomness of `initiate`. -/
structure InitiateCoins (β : Type) where
  ephemeralSecret : β
  kemRandom : β
  opkKemRandom : β
  deriving DecidableEq

/-- An init message, as `respond` reads it. -/
structure InitFields (β : Type) where
  /-- Everything before the sealed payload. -/
  header : List β
  dhIdentity : β
  ephemeral : β
  mlKemCt : β
  /-- The one-time prekey referenced, and the ciphertext for it. -/
  opk : Option (ℕ × β)
  sealedPayload : β
  deriving DecidableEq

section Definitions

variable {β : Type} [Crypto β]

/-- `LABEL_I2R`. -/
def labelI2r : β := lit "novachannel x3dh v1 initiator->responder"
/-- `LABEL_R2I`. -/
def labelR2i : β := lit "novachannel x3dh v1 responder->initiator"
/-- `LABEL_RATCHET_ROOT`. -/
def labelRatchetRoot : β := lit "novachannel x3dh v1 ratchet root"
/-- `LABEL_INIT_PAYLOAD`. -/
def labelInitPayload : β := lit "novachannel x3dh v1 init payload key"
/-- `PAYLOAD_AAD_CONTEXT`. -/
def payloadAadContext : β := lit "novachannel x3dh v1 init payload"
/-- The all-zero nonce of the single-use payload key. -/
def zeroNonce : β := num 0

/-- `DirectionalKey::new`, from 44 bytes. -/
def DirectionalKey.ofOkm (okm : β) : DirectionalKey β := ⟨slice 0 32 okm, slice 32 44 okm⟩

/-- `derive`. -/
def derive (combined : β) : SessionKeys β :=
  let prk := hkdfExtract none combined
  { i2r := .ofOkm (hkdfExpand 44 prk labelI2r)
    r2i := .ofOkm (hkdfExpand 44 prk labelR2i)
    ratchetRoot := hkdfExpand 32 prk labelRatchetRoot
    initPayloadKey := hkdfExpand 32 prk labelInitPayload }

/-- `DH1 || DH2 || DH3 || [DH4] || SS_pq || [SS_pq']`. -/
def combine (dh1 dh2 dh3 : β) (dh4 : Option β) (mlKemSs : β) (opkSs : Option β) : β :=
  frame ([dh1, dh2, dh3] ++ dh4.toList ++ [mlKemSs] ++ opkSs.toList)

/-- The header of an init message: everything before the sealed payload. -/
def headerFields (dhIdentity ephemeral mlKemCt : β) (opk : Option (ℕ × β)) : List β :=
  [dhIdentity, ephemeral, mlKemCt] ++
    match opk with
    | some (id, ct) => [num 1, num id, ct]
    | none => [num 0]

/-- The associated data of the sealed payload. -/
def payloadAad (header : List β) : β := frame [payloadAadContext, frame header]

/-- `open_init_payload`. -/
def openInitPayload (key aad record : β) : Result β :=
  match aeadDecrypt key zeroNonce aad record with
  | some plaintext => .ok plaintext
  | none => .err .decrypt

/-- An exchange with the one-time prekey, when there is one. -/
def transpose {α : Type} : Option (Result α) → Result (Option α)
  | none => .ok none
  | some r => r.map some

/-- `initiate`. -/
def initiate (coins : InitiateCoins β) (mySigningIdentity : β) (myDhIdentity : DhIdentity β)
    (peerBundle : PreKeyBundle β) (initialPayload : β) : Result (InitiatedSession β) := do
  let ephemeralPublic := x25519Public coins.ephemeralSecret
  let dh1 ← myDhIdentity.diffieHellman peerBundle.spk.dhPublic
  let dh2 ← checkedDh (diffieHellman coins.ephemeralSecret peerBundle.dhIdentity)
  let dh3 ← checkedDh (diffieHellman coins.ephemeralSecret peerBundle.spk.dhPublic)
  let dh4 ← transpose (peerBundle.oneTimePrekey.map fun opk =>
    checkedDh (diffieHellman coins.ephemeralSecret opk.2.1))
  let (mlKemCt, mlKemSs) := encapsulate peerBundle.spk.kemPublic coins.kemRandom
  let mlKemOpk := peerBundle.oneTimePrekey.map fun opk => encapsulate opk.2.2 coins.opkKemRandom
  let keys := derive (combine dh1 dh2 dh3 dh4 mlKemSs (mlKemOpk.map (·.2)))
  let opk := peerBundle.oneTimePrekey.map fun opk =>
    (opk.1, (encapsulate opk.2.2 coins.opkKemRandom).1)
  let header := headerFields myDhIdentity.publicKey ephemeralPublic mlKemCt opk
  let sealedPayload := aeadEncrypt keys.initPayloadKey zeroNonce (payloadAad header)
    (frame [mySigningIdentity, initialPayload])
  pure ⟨frame (header ++ [sealedPayload]),
    ⟨peerBundle.identity, keys.i2r, keys.r2i, keys.ratchetRoot⟩⟩

variable [ByteString β]

/-- The fields of an init message. -/
def readInit (bytes : β) : Result (InitFields β) :=
  match unframe bytes with
  | some (dhIdentity :: ephemeral :: ct :: flag :: rest) => do
    let mlKemCt ← mlKemCiphertextFromBytes ct
    match readNum 1 flag, rest with
    | some 0, sealedPayload :: rest =>
      if rest.isEmpty then
        pure ⟨[dhIdentity, ephemeral, ct, flag], dhIdentity, ephemeral, mlKemCt, none,
          sealedPayload⟩
      else .err (.malformed "trailing bytes in x3dh init message")
    | some 0, [] => .err (.malformed "unexpected end of message")
    | some 1, idBytes :: opkCt :: rest =>
      match readNum 4 idBytes with
      | none => .err (.malformed "unexpected end of message")
      | some id => do
        let mlKemOpkCt ← mlKemCiphertextFromBytes opkCt
        match rest with
        | sealedPayload :: rest =>
          if rest.isEmpty then
            pure ⟨[dhIdentity, ephemeral, ct, flag, idBytes, opkCt], dhIdentity, ephemeral, mlKemCt,
              some (id, mlKemOpkCt), sealedPayload⟩
          else .err (.malformed "trailing bytes in x3dh init message")
        | [] => .err (.malformed "unexpected end of message")
    | some 1, _ => .err (.malformed "unexpected end of message")
    | _, _ => .err (.malformed "invalid one-time-prekey presence flag")
  | _ => .err (.malformed "unexpected end of message")

/-- The keys of a session, from the responder's secrets. -/
def respondKeys (myDhIdentity : DhIdentity β) (mySpk : SignedPreKey β)
    (oneTimeSecret : Option (OneTimePreKey β)) (m : InitFields β) : Result (SessionKeys β) := do
  let dh1 ← mySpk.diffieHellman m.dhIdentity
  let dh2 ← myDhIdentity.diffieHellman m.ephemeral
  let dh3 ← mySpk.diffieHellman m.ephemeral
  let dh4 ← transpose (oneTimeSecret.map fun opk => opk.diffieHellman m.ephemeral)
  let mlKemSs := decapsulate mySpk.kemSecret m.mlKemCt
  let opkSs := oneTimeSecret.bind fun opk => m.opk.map fun x => decapsulate opk.kemSecret x.2
  pure (derive (combine dh1 dh2 dh3 dh4 mlKemSs opkSs))

/-- The identity and the payload inside an init message. -/
def readPayload (plaintext : β) : Result (β × β) :=
  match unframe plaintext with
  | some (identity :: payload :: rest) =>
    if rest.isEmpty then pure (identity, payload)
    else .err (.malformed "trailing bytes in x3dh init payload")
  | _ => .err (.malformed "unexpected end of message")

/-- The part of `respond` that a message which does not authenticate fails in: the message, its
session keys and its payload. -/
def openInit (myDhIdentity : DhIdentity β) (mySpk : SignedPreKey β) (opks : OneTimePreKeyStore β)
    (initMessageBytes : β) : Result (InitFields β × SessionKeys β × β) := do
  let m ← readInit initMessageBytes
  let oneTimeSecret ← transpose (m.opk.map fun opk => opks.peek opk.1)
  let keys ← respondKeys myDhIdentity mySpk oneTimeSecret m
  let plaintext ← openInitPayload keys.initPayloadKey (payloadAad m.header) m.sealedPayload
  pure (m, keys, plaintext)

omit [Crypto β] [ByteString β] in
/-- The one-time prekeys left after a message that referenced one or none. -/
def consumeReferenced (opks : OneTimePreKeyStore β) : Option (ℕ × β) → OneTimePreKeyStore β
  | some (id, _) => opks.consume id
  | none => opks

/-- `respond`: the one-time prekey is used up once the message is authenticated, whatever its
payload turns out to be. -/
def respond (myDhIdentity : DhIdentity β) (mySpk : SignedPreKey β) (opks : OneTimePreKeyStore β)
    (initMessageBytes : β) : OneTimePreKeyStore β × Result (RespondedSession β) :=
  match openInit myDhIdentity mySpk opks initMessageBytes with
  | .error e => (opks, .error e)
  | .ok (m, keys, plaintext) =>
    (consumeReferenced opks m.opk, do
      let (identity, payload) ← readPayload plaintext
      pure ⟨identity, payload, identity, keys.r2i, keys.i2r, keys.ratchetRoot⟩)

end Definitions

/-! ### What the initiator computes -/

section Initiate

variable {β : Type} [Crypto β] {coins : InitiateCoins β} {dh : DhIdentity β}
  {bundle : PreKeyBundle β} {identity payload : β}

/-- The keys of a session, from the initiator's secrets. -/
def initiateKeys (coins : InitiateCoins β) (dh : DhIdentity β) (bundle : PreKeyBundle β) :
    SessionKeys β :=
  derive (combine (diffieHellman dh.secret bundle.spk.dhPublic)
    (diffieHellman coins.ephemeralSecret bundle.dhIdentity)
    (diffieHellman coins.ephemeralSecret bundle.spk.dhPublic)
    (bundle.oneTimePrekey.map fun opk => diffieHellman coins.ephemeralSecret opk.2.1)
    (encapsulate bundle.spk.kemPublic coins.kemRandom).2
    (bundle.oneTimePrekey.map fun opk => (encapsulate opk.2.2 coins.opkKemRandom).2))

/-- The ciphertext for the one-time prekey, with its id. -/
def initiateOpk (coins : InitiateCoins β) (bundle : PreKeyBundle β) : Option (ℕ × β) :=
  bundle.oneTimePrekey.map fun opk => (opk.1, (encapsulate opk.2.2 coins.opkKemRandom).1)

/-- The header of the init message. -/
def initiateHeader (coins : InitiateCoins β) (dh : DhIdentity β) (bundle : PreKeyBundle β) :
    List β :=
  headerFields dh.publicKey (x25519Public coins.ephemeralSecret)
    (encapsulate bundle.spk.kemPublic coins.kemRandom).1 (initiateOpk coins bundle)

/-- The init message. -/
def initiateMessage (coins : InitiateCoins β) (identity : β) (dh : DhIdentity β)
    (bundle : PreKeyBundle β) (payload : β) : β :=
  frame (initiateHeader coins dh bundle ++ [aeadEncrypt (initiateKeys coins dh bundle).initPayloadKey
    zeroNonce (payloadAad (initiateHeader coins dh bundle)) (frame [identity, payload])])

/-- Every exchange with the bundle contributes entropy. -/
def Contributory (coins : InitiateCoins β) (dh : DhIdentity β) (bundle : PreKeyBundle β) : Prop :=
  wasContributory (diffieHellman dh.secret bundle.spk.dhPublic) = true ∧
  wasContributory (diffieHellman coins.ephemeralSecret bundle.dhIdentity) = true ∧
  wasContributory (diffieHellman coins.ephemeralSecret bundle.spk.dhPublic) = true ∧
  ∀ opk ∈ bundle.oneTimePrekey, wasContributory (diffieHellman coins.ephemeralSecret opk.2.1) = true

theorem transpose_checkedDh_eq_ok {o x : Option β} :
    transpose (o.map checkedDh) = .ok x ↔ (∀ y ∈ o, wasContributory y = true) ∧ x = o := by
  cases o with
  | none =>
    constructor
    · intro h
      exact ⟨fun y hy => (by cases hy), (Except.ok.inj h).symm⟩
    · rintro ⟨-, rfl⟩
      rfl
  | some y =>
    constructor
    · intro h
      cases hy : checkedDh y with
      | error e =>
        rw [Option.map_some, transpose, hy] at h
        cases h
      | ok z =>
        obtain ⟨hc, rfl⟩ := checkedDh_eq_ok.1 hy
        rw [Option.map_some, transpose, hy] at h
        refine ⟨fun w hw => ?_, (Except.ok.inj h).symm⟩
        obtain rfl := Option.some.inj hw
        exact hc
    · rintro ⟨hc, rfl⟩
      rw [Option.map_some, transpose, checkedDh_eq_ok.2 ⟨hc y rfl, rfl⟩]
      rfl

/-- What `initiate` returns, and when. -/
theorem initiate_eq_ok {out : InitiatedSession β} :
    initiate coins identity dh bundle payload = .ok out ↔
    Contributory coins dh bundle ∧
    out = ⟨initiateMessage coins identity dh bundle payload, bundle.identity,
      (initiateKeys coins dh bundle).i2r, (initiateKeys coins dh bundle).r2i,
      (initiateKeys coins dh bundle).ratchetRoot⟩ := by
  have hmap : (bundle.oneTimePrekey.map fun opk =>
      checkedDh (diffieHellman coins.ephemeralSecret opk.2.1)) =
      (bundle.oneTimePrekey.map fun opk => diffieHellman coins.ephemeralSecret opk.2.1).map
        checkedDh := by
    rw [Option.map_map]
    rfl
  have hss : (bundle.oneTimePrekey.map fun opk => encapsulate opk.2.2 coins.opkKemRandom).map
      (·.2) = bundle.oneTimePrekey.map fun opk => (encapsulate opk.2.2 coins.opkKemRandom).2 := by
    rw [Option.map_map]
    rfl
  have hopk : ∀ {P : β → Prop}, (∀ y ∈ (bundle.oneTimePrekey.map fun opk =>
      diffieHellman coins.ephemeralSecret opk.2.1), P y) ↔
      ∀ opk ∈ bundle.oneTimePrekey, P (diffieHellman coins.ephemeralSecret opk.2.1) := by
    intro P
    cases bundle.oneTimePrekey <;> simp
  constructor
  · intro h
    obtain ⟨dh1, h1, h⟩ := Result.bind_eq_ok.1 h
    obtain ⟨dh2, h2, h⟩ := Result.bind_eq_ok.1 h
    obtain ⟨dh3, h3, h⟩ := Result.bind_eq_ok.1 h
    obtain ⟨dh4, h4, h⟩ := Result.bind_eq_ok.1 h
    obtain ⟨c1, rfl⟩ := checkedDh_eq_ok.1 h1
    obtain ⟨c2, rfl⟩ := checkedDh_eq_ok.1 h2
    obtain ⟨c3, rfl⟩ := checkedDh_eq_ok.1 h3
    rw [hmap] at h4
    obtain ⟨c4, rfl⟩ := transpose_checkedDh_eq_ok.1 h4
    refine ⟨⟨c1, c2, c3, hopk.1 c4⟩, (Except.ok.inj h).symm.trans ?_⟩
    simp only [hss]
    rfl
  · rintro ⟨⟨c1, c2, c3, c4⟩, rfl⟩
    have h4 := transpose_checkedDh_eq_ok.2 ⟨hopk.2 c4, rfl⟩
    rw [← hmap] at h4
    simp only [initiate, DhIdentity.diffieHellman, checkedDh_eq_ok.2 ⟨c1, rfl⟩,
      checkedDh_eq_ok.2 ⟨c2, rfl⟩, checkedDh_eq_ok.2 ⟨c3, rfl⟩, h4, Result.ok_bind,
      Result.pure_eq_ok, Except.ok.injEq, hss]
    rfl

end Initiate

/-! ### The two sides agree -/

section Agreement

variable {β : Type} [Crypto β] [ByteString β]

/-- The secret keys behind a bundle are the responder's. -/
structure Holds (dh : DhIdentity β) (spk : SignedPreKey β) (opks : OneTimePreKeyStore β)
    (bundle : PreKeyBundle β) : Prop where
  dhIdentity : bundle.dhIdentity = x25519Public dh.secret
  spkDh : bundle.spk.dhPublic = x25519Public spk.dhSecret
  spkKem : bundle.spk.kemPublic = mlKemPublic spk.kemSecret
  opk : ∀ opk ∈ bundle.oneTimePrekey, opk.1 < 2 ^ 32 ∧ ∃ k, opks.peek opk.1 = .ok k ∧
    opk.2.1 = x25519Public k.secret ∧ opk.2.2 = mlKemPublic k.kemSecret

variable [LawfulCrypto β] {coins : InitiateCoins β} {dh : DhIdentity β}
  {bundle : PreKeyBundle β} {identity payload : β}

/-- The message of `initiate` reads back. -/
theorem readInit_initiateMessage
    (hct : ∀ pk r : β, ByteString.isMlKemCiphertext (encapsulate pk r).1 = true)
    (hid : ∀ opk ∈ bundle.oneTimePrekey, opk.1 < 2 ^ 32) :
    readInit (initiateMessage coins identity dh bundle payload) = .ok
      ⟨initiateHeader coins dh bundle, dh.publicKey, x25519Public coins.ephemeralSecret,
        (encapsulate bundle.spk.kemPublic coins.kemRandom).1, initiateOpk coins bundle,
        aeadEncrypt (initiateKeys coins dh bundle).initPayloadKey zeroNonce
          (payloadAad (initiateHeader coins dh bundle)) (frame [identity, payload])⟩ := by
  have hflag0 : readNum 1 (num 0 : β) = some 0 := readNum_eq_some (by decide) (by decide)
  have hflag1 : readNum 1 (num 1 : β) = some 1 := readNum_eq_some (by decide) (by decide)
  have hread : ∀ pk r : β, mlKemCiphertextFromBytes (encapsulate pk r).1 =
      .ok (encapsulate pk r).1 := fun pk r => by rw [mlKemCiphertextFromBytes, if_pos (hct pk r)]
  unfold initiateMessage
  cases hopk : bundle.oneTimePrekey with
  | none =>
    simp only [readInit, initiateHeader, headerFields, initiateOpk, hopk, Option.map_none,
      List.cons_append, List.nil_append, LawfulCrypto.unframe_frame, hread, hflag0,
      Result.ok_bind, List.isEmpty_nil, ↓reduceIte, Result.pure_eq_ok]
  | some opk =>
    have hlt := hid opk hopk
    have hnum : readNum 4 (num opk.1 : β) = some opk.1 :=
      readNum_eq_some (by omega) (by omega)
    simp only [readInit, initiateHeader, headerFields, initiateOpk, hopk, Option.map_some,
      List.cons_append, List.nil_append, LawfulCrypto.unframe_frame, hread, hflag1, hnum,
      Result.ok_bind, List.isEmpty_nil, ↓reduceIte, Result.pure_eq_ok]

omit [ByteString β] in
/-- The responder computes the initiator's keys. -/
theorem respondKeys_initiate {myDh : DhIdentity β} {spk : SignedPreKey β}
    {opks : OneTimePreKeyStore β} (header : List β) (sealedPayload : β)
    (hc : Contributory coins dh bundle) (hdh : dh.publicKey = x25519Public dh.secret)
    (hb : Holds myDh spk opks bundle) :
    ∃ oneTimeSecret, transpose ((initiateOpk coins bundle).map fun opk => opks.peek opk.1) =
        .ok oneTimeSecret ∧
      respondKeys myDh spk oneTimeSecret ⟨header, dh.publicKey,
        x25519Public coins.ephemeralSecret, (encapsulate bundle.spk.kemPublic coins.kemRandom).1,
        initiateOpk coins bundle, sealedPayload⟩ = .ok (initiateKeys coins dh bundle) := by
  obtain ⟨c1, c2, c3, c4⟩ := hc
  rw [hb.spkDh] at c1 c3
  rw [hb.dhIdentity] at c2
  cases hopk : bundle.oneTimePrekey with
  | none =>
    refine ⟨none, by simp [initiateOpk, hopk, transpose], ?_⟩
    simp only [respondKeys, SignedPreKey.diffieHellman, DhIdentity.diffieHellman, hdh,
      checkedDh_eq_ok.2 ⟨c1, rfl⟩, checkedDh_eq_ok.2 ⟨c2, rfl⟩, checkedDh_eq_ok.2 ⟨c3, rfl⟩,
      Result.ok_bind, Option.map_none, transpose, Option.bind_none, Result.pure_eq_ok,
      initiateKeys, hopk, hb.spkKem, hb.spkDh, hb.dhIdentity,
      LawfulCrypto.decapsulate_encapsulate, LawfulCrypto.diffieHellman_comm spk.dhSecret,
      LawfulCrypto.diffieHellman_comm myDh.secret]
  | some opk =>
    obtain ⟨-, k, hk, hpub, hkem⟩ := hb.opk opk hopk
    have c4 := c4 opk hopk
    rw [hpub] at c4
    refine ⟨some k, by simp [initiateOpk, hopk, transpose, hk, Except.map], ?_⟩
    simp only [respondKeys, SignedPreKey.diffieHellman, DhIdentity.diffieHellman, hdh,
      OneTimePreKey.diffieHellman, checkedDh_eq_ok.2 ⟨c1, rfl⟩, checkedDh_eq_ok.2 ⟨c2, rfl⟩,
      checkedDh_eq_ok.2 ⟨c3, rfl⟩, checkedDh_eq_ok.2 ⟨c4, rfl⟩, Result.ok_bind, Option.map_some,
      transpose, Except.map, Option.bind_some, Result.pure_eq_ok, initiateKeys, initiateOpk, hopk,
      hb.spkKem, hb.spkDh, hb.dhIdentity, hpub, hkem, LawfulCrypto.decapsulate_encapsulate,
      LawfulCrypto.diffieHellman_comm spk.dhSecret, LawfulCrypto.diffieHellman_comm myDh.secret,
      LawfulCrypto.diffieHellman_comm k.secret]

/-- **The responder accepts the message of `initiate`**, reads the identity and the payload it was
made with, and holds the same keys the other way around. -/
theorem respond_initiate {myDh : DhIdentity β} {spk : SignedPreKey β}
    {opks : OneTimePreKeyStore β} {out : InitiatedSession β}
    (hct : ∀ pk r : β, ByteString.isMlKemCiphertext (encapsulate pk r).1 = true)
    (hdh : dh.publicKey = x25519Public dh.secret) (hb : Holds myDh spk opks bundle)
    (h : initiate coins identity dh bundle payload = .ok out) :
    respond myDh spk opks out.message =
      (consumeReferenced opks (initiateOpk coins bundle), .ok ⟨identity, payload,
        ⟨identity, out.session.receiver, out.session.sender, out.session.ratchetRoot⟩⟩) := by
  obtain ⟨hc, rfl⟩ := initiate_eq_ok.1 h
  obtain ⟨oneTimeSecret, hpeek, hkeys⟩ := respondKeys_initiate
    (initiateHeader coins dh bundle) (aeadEncrypt (initiateKeys coins dh bundle).initPayloadKey
      zeroNonce (payloadAad (initiateHeader coins dh bundle)) (frame [identity, payload])) hc hdh hb
  have hread := @readInit_initiateMessage β _ _ _ coins dh bundle identity payload hct
    fun opk hopk => (hb.opk opk hopk).1
  have hopen : openInit myDh spk opks (initiateMessage coins identity dh bundle payload) =
      .ok (⟨initiateHeader coins dh bundle, dh.publicKey, x25519Public coins.ephemeralSecret,
        (encapsulate bundle.spk.kemPublic coins.kemRandom).1, initiateOpk coins bundle,
        aeadEncrypt (initiateKeys coins dh bundle).initPayloadKey zeroNonce
          (payloadAad (initiateHeader coins dh bundle)) (frame [identity, payload])⟩,
        initiateKeys coins dh bundle, frame [identity, payload]) := by
    simp only [openInit, hread, Result.ok_bind, hpeek, hkeys, openInitPayload,
      LawfulCrypto.aeadDecrypt_aeadEncrypt, Result.pure_eq_ok]
  simp only [respond, hopen, readPayload, LawfulCrypto.unframe_frame, List.isEmpty_nil, ↓reduceIte,
    Result.pure_eq_ok, Result.ok_bind]

end Agreement

end X3dh

end NovaChannel
