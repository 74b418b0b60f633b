import NovaChannel.Kex

/-!
# Prekeys

What a device publishes for others to start sessions with it while it is offline: a DH identity,
a signed prekey, and one-time prekeys that serve one session each.  A secret key drawn at random
is an argument of the function that draws it.
-/

namespace NovaChannel

open Crypto
open NovaChannel.Group (checkedDh)

/-- A long-term Diffie-Hellman identity key. -/
structure DhIdentity (β : Type) where
  secret : β
  publicKey : β
  deriving DecidableEq

/-- One unsigned, single-use prekey. -/
structure OneTimePreKey (β : Type) where
  id : ℕ
  secret : β
  publicKey : β
  kemSecret : β
  kemPublic : β
  deriving DecidableEq

/-- A responder's one-time prekeys. -/
abbrev OneTimePreKeyStore (β : Type) := List (OneTimePreKey β)

/-- A medium-term hybrid prekey, signed by its owner's identity. -/
structure SignedPreKey (β : Type) where
  dhSecret : β
  dhPublic : β
  kemSecret : β
  kemPublic : β
  signature : β
  deriving DecidableEq

/-- The public half of a `SignedPreKey`. -/
structure PublicSignedPreKey (β : Type) where
  dhPublic : β
  kemPublic : β
  signature : β
  deriving DecidableEq

/-- The public half of a `SignedPreKey` as an encryption target. -/
structure SealingPublicKey (β : Type) where
  dhPublic : β
  kemPublic : β
  deriving DecidableEq

/-- Everything needed to start a session with its owner. -/
structure PreKeyBundle (β : Type) where
  identity : β
  dhIdentity : β
  spk : PublicSignedPreKey β
  oneTimePrekey : Option (ℕ × β × β)
  deriving DecidableEq

section Definitions

variable {β : Type} [Crypto β]

/-- `SPK_SIGNATURE_CONTEXT`. -/
def spkSignatureContext : β := lit "novachannel x3dh v1 signed-prekey"

/-- `DhIdentity::generate`. -/
def DhIdentity.generate (secret : β) : DhIdentity β := ⟨secret, x25519Public secret⟩

/-- `DhIdentity::diffie_hellman`. -/
def DhIdentity.diffieHellman (id : DhIdentity β) (their : β) : Result β :=
  checkedDh (Crypto.diffieHellman id.secret their)

/-- `OneTimePreKey::generate`. -/
def OneTimePreKey.generate (id : ℕ) (secret kemSecret : β) : OneTimePreKey β :=
  ⟨id, secret, x25519Public secret, kemSecret, mlKemPublic kemSecret⟩

omit [Crypto β] in
/-- `OneTimePreKey::public`. -/
def OneTimePreKey.public (k : OneTimePreKey β) : ℕ × β × β := (k.id, k.publicKey, k.kemPublic)

/-- `OneTimePreKey::diffie_hellman`. -/
def OneTimePreKey.diffieHellman (k : OneTimePreKey β) (their : β) : Result β :=
  checkedDh (Crypto.diffieHellman k.secret their)

omit [Crypto β] in
/-- `OneTimePreKeyStore::peek`. -/
def OneTimePreKeyStore.peek (keys : OneTimePreKeyStore β) (id : ℕ) : Result (OneTimePreKey β) :=
  match keys.find? (·.id = id) with
  | some k => .ok k
  | none => .err .unknownOneTimePreKey

omit [Crypto β] in
/-- `OneTimePreKeyStore::consume`. -/
def OneTimePreKeyStore.consume (keys : OneTimePreKeyStore β) (id : ℕ) : OneTimePreKeyStore β :=
  keys.filter (·.id ≠ id)

/-- `spk_signed_bytes`. -/
def spkSignedBytes (dhPublic kemPublic : β) : β := frame [spkSignatureContext, dhPublic, kemPublic]

/-- `SignedPreKey::generate`, from the signing identity's secret and the two secret keys drawn. -/
def SignedPreKey.generate (signingIdentity dhSecret kemSecret : β) : SignedPreKey β where
  dhSecret := dhSecret
  dhPublic := x25519Public dhSecret
  kemSecret := kemSecret
  kemPublic := mlKemPublic kemSecret
  signature := sign signingIdentity (spkSignedBytes (x25519Public dhSecret) (mlKemPublic kemSecret))

/-- `SignedPreKey::diffie_hellman`. -/
def SignedPreKey.diffieHellman (spk : SignedPreKey β) (their : β) : Result β :=
  checkedDh (Crypto.diffieHellman spk.dhSecret their)

omit [Crypto β] in
/-- `SignedPreKey::public`. -/
def SignedPreKey.public (spk : SignedPreKey β) : PublicSignedPreKey β :=
  ⟨spk.dhPublic, spk.kemPublic, spk.signature⟩

omit [Crypto β] in
/-- `SignedPreKey::sealing_public_key`. -/
def SignedPreKey.sealingPublicKey (spk : SignedPreKey β) : SealingPublicKey β :=
  ⟨spk.dhPublic, spk.kemPublic⟩

/-- `PublicSignedPreKey::verify`. -/
def PublicSignedPreKey.verify (spk : PublicSignedPreKey β) (identity : β) : Result Unit :=
  if Crypto.verify identity (spkSignedBytes spk.dhPublic spk.kemPublic) spk.signature then .ok ()
  else .err .badSignature

omit [Crypto β] in
/-- `PreKeyBundle::build`. -/
def PreKeyBundle.build (identity : β) (dhIdentity : DhIdentity β) (spk : SignedPreKey β)
    (oneTimePrekey : Option (ℕ × β × β)) : PreKeyBundle β :=
  ⟨identity, dhIdentity.publicKey, spk.public, oneTimePrekey⟩

/-- `PreKeyBundle::verify`. -/
def PreKeyBundle.verify (b : PreKeyBundle β) : Result Unit := b.spk.verify b.identity

end Definitions

end NovaChannel
