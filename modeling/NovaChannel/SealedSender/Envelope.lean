import NovaChannel.Prekey
import NovaChannel.Ratchet.Chunks

/-!
# Sealed envelopes

A message whose sender only the recipient learns: a certificate of the sender's identity, signed by
an issuer, travels with the plaintext under a key that a fresh ephemeral key and the recipient's
signed prekey determine.
-/

namespace NovaChannel

namespace SealedSender

open Crypto Kex ByteString
open NovaChannel.Group (checkedDh checkedDh_eq_ok)

/-- A sender's identity, attested by an issuer until `expiresAt`. -/
structure SenderCertificate (β : Type) where
  senderIdentity : β
  expiresAt : ℕ
  signature : β
  deriving DecidableEq

/-- What `open` recovers. -/
structure UnsealedMessage (β : Type) where
  certificate : SenderCertificate β
  plaintext : β
  deriving DecidableEq

/-- The randomness of `seal`. -/
structure SealCoins (β : Type) where
  ephemeralSecret : β
  kemRandom : β

section Definitions

variable {β : Type} [Crypto β]

/-- `CERT_CONTEXT`. -/
def certContext : β := lit "novachannel sealed-sender v1 certificate"
/-- `LABEL_ENVELOPE_KEY`. -/
def labelEnvelopeKey : β := lit "novachannel sealed-sender v1 envelope key"
/-- `AAD_CONTEXT`. -/
def aadContext : β := lit "novachannel sealed-sender v1 envelope"
/-- The all-zero nonce of the single-use envelope key. -/
def zeroNonce : β := num 0

/-- `cert_signed_bytes`. -/
def certSignedBytes (senderIdentity : β) (expiresAt : ℕ) : β :=
  frame [certContext, senderIdentity, num expiresAt]

namespace SenderCertificate

/-- `issue`, from the issuer's secret. -/
def issue (issuer senderIdentity : β) (expiresAt : ℕ) : SenderCertificate β :=
  ⟨senderIdentity, expiresAt, sign issuer (certSignedBytes senderIdentity expiresAt)⟩

/-- `verify`. -/
def verify (c : SenderCertificate β) (issuer : β) (now : ℕ) : Result Unit :=
  if now ≥ c.expiresAt then .err .certificateExpired
  else if Crypto.verify issuer (certSignedBytes c.senderIdentity c.expiresAt) c.signature then
    .ok ()
  else .err .badSignature

/-- `write`: the fields of a certificate. -/
def write (c : SenderCertificate β) : List β := [c.senderIdentity, num c.expiresAt, c.signature]

end SenderCertificate

/-- `derive_envelope_key`. -/
def deriveEnvelopeKey (dh mlKemSs : β) : β :=
  hkdfExpand 32 (hkdfExtract none (frame [dh, mlKemSs])) labelEnvelopeKey

/-- The associated data of the sealed payload. -/
def envelopeAad (header : List β) : β := frame [aadContext, frame header]

/-- `seal`. -/
def sealEnvelope (coins : SealCoins β) (recipient : SealingPublicKey β)
    (certificate : SenderCertificate β) (plaintext : β) : Result β := do
  let dh ← checkedDh (diffieHellman coins.ephemeralSecret recipient.dhPublic)
  let (mlKemCt, mlKemSs) := encapsulate recipient.kemPublic coins.kemRandom
  let header := [x25519Public coins.ephemeralSecret, mlKemCt]
  let sealedPayload := aeadEncrypt (deriveEnvelopeKey dh mlKemSs) zeroNonce (envelopeAad header)
    (frame (certificate.write ++ [plaintext]))
  pure (frame (header ++ [sealedPayload]))

/-- `open_with_key`. -/
def openWithKey (key aad record : β) : Result β :=
  match aeadDecrypt key zeroNonce aad record with
  | some plaintext => .ok plaintext
  | none => .err .decrypt

/-- The certificate and the plaintext in an envelope's payload. -/
def readPayload (payload : β) : Result (UnsealedMessage β) :=
  match unframe payload with
  | some (senderIdentity :: expires :: signature :: plaintext :: rest) =>
    match readNum 8 expires with
    | none => .err (.malformed "unexpected end of message")
    | some expiresAt =>
      if rest.isEmpty then pure ⟨⟨senderIdentity, expiresAt, signature⟩, plaintext⟩
      else .err (.malformed "trailing bytes in sealed payload")
  | _ => .err (.malformed "unexpected end of message")

/-- `open`. -/
def openEnvelope [ByteString β] (recipientKey : SignedPreKey β) (envelope : β) :
    Result (UnsealedMessage β) :=
  match unframe envelope with
  | some (ephemeralPublic :: ct :: sealedPayload :: rest) => do
    let mlKemCt ← mlKemCiphertextFromBytes ct
    if rest.isEmpty then do
      let dh ← recipientKey.diffieHellman ephemeralPublic
      let mlKemSs := decapsulate recipientKey.kemSecret mlKemCt
      let payload ← openWithKey (deriveEnvelopeKey dh mlKemSs)
        (envelopeAad [ephemeralPublic, ct]) sealedPayload
      readPayload payload
    else .err (.malformed "trailing bytes in sealed envelope")
  | _ => .err (.malformed "unexpected end of message")

/-! ### Specifications -/

variable {coins : SealCoins β} {recipient : SealingPublicKey β}
  {certificate : SenderCertificate β} {plaintext : β}

/-- The key of an envelope, from the sender's secrets. -/
def sealKey (coins : SealCoins β) (recipient : SealingPublicKey β) : β :=
  deriveEnvelopeKey (diffieHellman coins.ephemeralSecret recipient.dhPublic)
    (encapsulate recipient.kemPublic coins.kemRandom).2

/-- The header of an envelope. -/
def sealHeader (coins : SealCoins β) (recipient : SealingPublicKey β) : List β :=
  [x25519Public coins.ephemeralSecret, (encapsulate recipient.kemPublic coins.kemRandom).1]

theorem sealEnvelope_eq_ok {envelope : β} :
    sealEnvelope coins recipient certificate plaintext = .ok envelope ↔
    wasContributory (diffieHellman coins.ephemeralSecret recipient.dhPublic) = true ∧
    envelope = frame (sealHeader coins recipient ++ [aeadEncrypt (sealKey coins recipient) zeroNonce
      (envelopeAad (sealHeader coins recipient)) (frame (certificate.write ++ [plaintext]))]) := by
  constructor
  · intro h
    obtain ⟨dh, hdh, h⟩ := Result.bind_eq_ok.1 h
    obtain ⟨hc, rfl⟩ := checkedDh_eq_ok.1 hdh
    exact ⟨hc, (Except.ok.inj h).symm⟩
  · rintro ⟨hc, rfl⟩
    simp only [sealEnvelope, checkedDh_eq_ok.2 ⟨hc, rfl⟩, Result.ok_bind]
    rfl

variable [ByteString β]

omit [ByteString β] in
theorem readPayload_eq_ok {payload : β} {m : UnsealedMessage β} (h : readPayload payload = .ok m) :
    ∃ expires, unframe payload =
        some [m.certificate.senderIdentity, expires, m.certificate.signature, m.plaintext] ∧
      unnum expires = some m.certificate.expiresAt := by
  unfold readPayload at h
  split at h
  · rename_i senderIdentity expires signature plaintext rest hu
    split at h
    · cases h
    · rename_i expiresAt hread
      split_ifs at h with hrest
      obtain rfl := Except.ok.inj h
      rw [List.isEmpty_iff] at hrest
      exact ⟨expires, by rw [hu, hrest], (Option.filter_eq_some_iff.1 hread).1⟩
  · cases h

theorem openEnvelope_eq_ok {key : SignedPreKey β} {envelope : β} {m : UnsealedMessage β}
    (h : openEnvelope key envelope = .ok m) : ∃ ephemeralPublic ct sealedPayload payload,
      unframe envelope = some [ephemeralPublic, ct, sealedPayload] ∧
      aeadDecrypt (deriveEnvelopeKey (diffieHellman key.dhSecret ephemeralPublic)
        (decapsulate key.kemSecret ct)) zeroNonce (envelopeAad [ephemeralPublic, ct])
        sealedPayload = some payload ∧
      readPayload payload = .ok m := by
  unfold openEnvelope at h
  split at h
  · rename_i ephemeralPublic ct sealedPayload rest hu
    obtain ⟨ct', hct, h⟩ := Result.bind_eq_ok.1 h
    unfold mlKemCiphertextFromBytes at hct
    split_ifs at hct
    obtain rfl := Except.ok.inj hct
    split_ifs at h with hrest
    obtain ⟨dh, hdh, h⟩ := Result.bind_eq_ok.1 h
    obtain ⟨-, rfl⟩ := checkedDh_eq_ok.1 hdh
    obtain ⟨payload, hopen, h⟩ := Result.bind_eq_ok.1 h
    unfold openWithKey at hopen
    split at hopen
    · rename_i payload' hdec
      obtain rfl := Except.ok.inj hopen
      rw [List.isEmpty_iff] at hrest
      exact ⟨ephemeralPublic, ct, sealedPayload, payload', by rw [hu, hrest], hdec, h⟩
    · cases hopen
  · cases h

/-- **The recipient opens what was sealed to it**, with the certificate and the plaintext. -/
theorem openEnvelope_sealEnvelope [LawfulCrypto β] {key : SignedPreKey β} {envelope : β}
    (hct : ∀ pk r : β, isMlKemCiphertext (encapsulate pk r).1 = true)
    (hexpires : certificate.expiresAt < 2 ^ 64) (hdh : recipient.dhPublic = x25519Public key.dhSecret)
    (hkem : recipient.kemPublic = mlKemPublic key.kemSecret)
    (h : sealEnvelope coins recipient certificate plaintext = .ok envelope) :
    openEnvelope key envelope = .ok ⟨certificate, plaintext⟩ := by
  obtain ⟨hc, rfl⟩ := sealEnvelope_eq_ok.1 h
  have hread : mlKemCiphertextFromBytes (encapsulate recipient.kemPublic coins.kemRandom).1 =
      .ok (encapsulate recipient.kemPublic coins.kemRandom).1 := by
    rw [mlKemCiphertextFromBytes, if_pos (hct _ _)]
  have hnum : readNum 8 (num certificate.expiresAt : β) = some certificate.expiresAt := by
    rw [readNum, LawfulCrypto.unnum_num hexpires, Option.filter_some, decide_eq_true (by omega)]
    rfl
  rw [hdh, LawfulCrypto.diffieHellman_comm] at hc
  have hkey : deriveEnvelopeKey (diffieHellman key.dhSecret (x25519Public coins.ephemeralSecret))
      (decapsulate key.kemSecret (encapsulate recipient.kemPublic coins.kemRandom).1) =
      sealKey coins recipient := by
    rw [sealKey, hdh, hkem, LawfulCrypto.decapsulate_encapsulate,
      LawfulCrypto.diffieHellman_comm key.dhSecret]
  simp only [openEnvelope, sealHeader, List.cons_append, List.nil_append,
    LawfulCrypto.unframe_frame, hread, Result.ok_bind, List.isEmpty_nil, ↓reduceIte,
    SignedPreKey.diffieHellman, checkedDh_eq_ok.2 ⟨hc, rfl⟩, hkey, openWithKey,
    LawfulCrypto.aeadDecrypt_aeadEncrypt, readPayload, SenderCertificate.write, hnum,
    Result.pure_eq_ok]

end Definitions

end SealedSender

end NovaChannel
