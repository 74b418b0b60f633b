import NovaChannel.Group.Keys

/-!
# The hybrid key exchange

Ephemeral X25519 and ML-KEM-1024: the initiator's key material, the responder's half of an
exchange, and the length and validity checks on what a peer sends.  The two shared secrets are
written one after the other and go into HKDF together.
-/

namespace NovaChannel

/-- Byte strings as sequences of bytes. -/
class ByteString (β : Type) where
  /-- The number of bytes. -/
  len : β → ℕ
  /-- The `n` bytes from `start` on, zeros past the end. -/
  window (start n : ℕ) : β → β
  /-- One string after the other. -/
  concat : List β → β
  /-- `&bytes[..n]`. -/
  take (n : ℕ) : β → β
  /-- `MlKemEncapsulationKey::new_from_slice` succeeds. -/
  isMlKemPublic : β → Bool
  /-- `MlKemCiphertext::try_from` succeeds. -/
  isMlKemCiphertext : β → Bool

namespace Kex

open Crypto ByteString
open NovaChannel.Group (checkedDh checkedDh_eq_ok)

/-- The initiator's ephemeral key material for one attempt. -/
structure InitiatorKex (β : Type) where
  x25519Secret : β
  x25519Public : β
  mlKemPublic : β
  mlKemSecret : β
  deriving DecidableEq

/-- What the responder's half of an exchange yields. -/
structure ResponderKex (β : Type) where
  x25519Public : β
  mlKemCiphertext : β
  sharedSecret : β

section Definitions

variable {β : Type} [Crypto β]

/-- `InitiatorKex::generate`, from the two secret keys drawn. -/
def InitiatorKex.generate (x25519Secret mlKemSecret : β) : InitiatorKex β where
  x25519Secret := x25519Secret
  x25519Public := Crypto.x25519Public x25519Secret
  mlKemPublic := Crypto.mlKemPublic mlKemSecret
  mlKemSecret := mlKemSecret

/-- `InitiatorKex::finish`. -/
def InitiatorKex.finish (kex : InitiatorKex β) (responderX25519Public mlKemCiphertext : β) :
    Result β := do
  let dh ← checkedDh (diffieHellman kex.x25519Secret responderX25519Public)
  pure (frame [dh, decapsulate kex.mlKemSecret mlKemCiphertext])

/-- `responder_exchange`, from the X25519 secret and the encapsulation randomness drawn. -/
def responderExchange (x25519Secret kemRandom initiatorX25519Public initiatorMlKemPublic : β) :
    Result (ResponderKex β) := do
  let dh ← checkedDh (diffieHellman x25519Secret initiatorX25519Public)
  let (mlKemCiphertext, mlKemSs) := encapsulate initiatorMlKemPublic kemRandom
  pure ⟨Crypto.x25519Public x25519Secret, mlKemCiphertext, frame [dh, mlKemSs]⟩

theorem responderExchange_eq_ok {b r x k : β} {out : ResponderKex β}
    (h : responderExchange b r x k = .ok out) :
    wasContributory (diffieHellman b x) = true ∧
    out = ⟨Crypto.x25519Public b, (encapsulate k r).1,
      frame [diffieHellman b x, (encapsulate k r).2]⟩ := by
  obtain ⟨dh, hdh, h⟩ := Result.bind_eq_ok.1 h
  obtain ⟨hc, rfl⟩ := checkedDh_eq_ok.1 hdh
  exact ⟨hc, (Except.ok.inj h).symm⟩

theorem finish_eq_ok {kex : InitiatorKex β} {x ct ss : β} (h : kex.finish x ct = .ok ss) :
    wasContributory (diffieHellman kex.x25519Secret x) = true ∧
    ss = frame [diffieHellman kex.x25519Secret x, decapsulate kex.mlKemSecret ct] := by
  obtain ⟨dh, hdh, h⟩ := Result.bind_eq_ok.1 h
  obtain ⟨hc, rfl⟩ := checkedDh_eq_ok.1 hdh
  exact ⟨hc, (Except.ok.inj h).symm⟩

/-- Both halves of an exchange between honest parties compute one shared secret. -/
theorem finish_responderExchange [LawfulCrypto β] {a k b r : β} {out : ResponderKex β}
    (h : responderExchange b r (InitiatorKex.generate a k).x25519Public
      (InitiatorKex.generate a k).mlKemPublic = .ok out) :
    (InitiatorKex.generate a k).finish out.x25519Public out.mlKemCiphertext =
      .ok out.sharedSecret := by
  obtain ⟨hc, rfl⟩ := responderExchange_eq_ok h
  simp only [InitiatorKex.generate] at hc ⊢
  rw [LawfulCrypto.diffieHellman_comm] at hc
  simp only [InitiatorKex.finish, checkedDh, hc, ↓reduceIte, Result.ok_bind,
    LawfulCrypto.decapsulate_encapsulate, LawfulCrypto.diffieHellman_comm b a, Result.pure_eq_ok]

/-- `ml_kem_public_from_bytes`. -/
def mlKemPublicFromBytes [ByteString β] (bytes : β) : Result β :=
  if isMlKemPublic bytes then .ok bytes else .err (.malformed "invalid ML-KEM public key")

/-- `ml_kem_ciphertext_from_bytes`. -/
def mlKemCiphertextFromBytes [ByteString β] (bytes : β) : Result β :=
  if isMlKemCiphertext bytes then .ok bytes else .err (.malformed "invalid ML-KEM ciphertext")

/-- The two fields of an exchange message, an X25519 public key and what `second` reads, with
nothing after them. -/
def readExchange (second : β → Result β) (trailing : String) (payload : β) : Result (β × β) :=
  match unframe payload with
  | some (x25519 :: bytes :: rest) => do
    let b ← second bytes
    if rest.isEmpty then pure (x25519, b) else .err (.malformed trailing)
  | _ => .err (.malformed "unexpected end of message")

end Definitions

end Kex

end NovaChannel
