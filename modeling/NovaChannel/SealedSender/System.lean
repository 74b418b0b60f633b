import NovaChannel.Lib.Derives
import NovaChannel.Lib.Machine
import NovaChannel.SealedSender.Envelope
import NovaChannel.SymbolicBytes

/-!
# Honest and malicious users

Symbolic runs of users that seal and open envelopes under the certificates of one honest issuer.
The malicious users act as one adversary: it knows their secrets and everything sent, and whatever
it derives it may have certified, if it holds the key, or hand to a recipient.
-/

namespace NovaChannel

namespace SealedSender

open Crypto

/-- The values drawn at random. -/
inductive Name
  | issuer
  | identity (user : ℕ)
  | spkDh (user : ℕ)
  | spkKem (user : ℕ)
  /-- Of the `k`-th envelope an honest user seals. -/
  | ephemeral (k : ℕ)
  | kemRandom (k : ℕ)
  /-- Drawn by a malicious user. -/
  | malicious (k : ℕ)
  deriving DecidableEq

namespace Name

/-- A number for every name. -/
def code : Name → ℕ
  | issuer => 0
  | identity user => 6 * user + 1
  | spkDh user => 6 * user + 2
  | spkKem user => 6 * user + 3
  | ephemeral k => 6 * k + 4
  | kemRandom k => 6 * k + 5
  | malicious k => 6 * k + 6

theorem code_injective : Function.Injective code := by
  intro a b h
  cases a <;> cases b <;> simp only [code] at h <;> first | rfl | omega | (congr 1; omega)

instance : Named Name := ⟨code, code_injective⟩

end Name

/-- The byte strings of a symbolic run. -/
abbrev Bytes := Term Name

/-- The identity of a user. -/
def identityOf (user : ℕ) : Bytes := publicIdentity (.name (.identity user))

/-- The issuer's identity. -/
def issuerIdentity : Bytes := publicIdentity (.name .issuer)

/-- The signed prekey of a user. -/
def spkOf (user : ℕ) : SignedPreKey Bytes :=
  .generate (.name (.identity user)) (.name (.spkDh user)) (.name (.spkKem user))

/-- The randomness of the `k`-th envelope an honest user seals. -/
def sealCoins (k : ℕ) : SealCoins Bytes := ⟨.name (.ephemeral k), .name (.kemRandom k)⟩

/-- The certificate of a user. -/
def certificateOf (user expiresAt : ℕ) : SenderCertificate Bytes :=
  .issue (.name .issuer) (identityOf user) expiresAt

/-- An envelope that an honest user sealed. -/
structure SealedMessage where
  sender : ℕ
  recipient : SealingPublicKey Bytes
  plaintext : Bytes
  deriving DecidableEq

/-- A message that an honest user opened and whose certificate verified. -/
structure Acceptance where
  recipient : ℕ
  message : UnsealedMessage Bytes
  deriving DecidableEq

/-- The state of a run. -/
structure World where
  /-- The certificates issued to honest users: the user and the time of expiry. -/
  certificates : List (ℕ × ℕ)
  /-- Everything the adversary was sent or overheard. -/
  net : List Bytes
  /-- What honest users sealed, the last one first. -/
  sealed : List SealedMessage
  /-- What honest users accepted, the last one first. -/
  accepted : List Acceptance
  deriving DecidableEq

/-- What can happen. -/
inductive Action
  | issue (user expiresAt : ℕ)
  | issueMalicious (secret : Bytes) (expiresAt : ℕ)
  | sealTo (certificate : ℕ) (recipient : SealingPublicKey Bytes) (plaintext : String)
  | openAt (user : ℕ) (envelope : Bytes) (now : ℕ)
  deriving DecidableEq

/-- An honest user opens an envelope and verifies the certificate. -/
def World.accept (w : World) (user : ℕ) (envelope : Bytes) (now : ℕ) : World :=
  match openEnvelope (spkOf user) envelope with
  | .error _ => w
  | .ok m =>
    match m.certificate.verify issuerIdentity now with
    | .error _ => w
    | .ok () => { w with accepted := ⟨user, m⟩ :: w.accepted }

/-- One step. -/
def World.step (w : World) : Action → Option World
  | .issue user expiresAt => some { w with certificates := (user, expiresAt) :: w.certificates }
  | .issueMalicious secret expiresAt => some { w with
      net := (SenderCertificate.issue (.name .issuer) (publicIdentity secret) expiresAt).signature ::
        w.net }
  | .sealTo i recipient plaintext => do
    let (user, expiresAt) ← w.certificates[i]?
    match sealEnvelope (sealCoins w.sealed.length) recipient (certificateOf user expiresAt)
        (.lit plaintext) with
    | .error _ => none
    | .ok envelope => some { w with
        net := envelope :: w.net
        sealed := ⟨user, recipient, .lit plaintext⟩ :: w.sealed }
  | .openAt user envelope now => some (w.accept user envelope now)

/-- The users and the issuer. -/
def sealedMachine : Machine World Action where
  init w := w = ⟨[], [], [], []⟩
  step := World.step

section Adversary

variable (honest : ℕ → Bool)

/-- The names the adversary does not know. -/
def Name.secret : Name → Bool
  | issuer => true
  | identity user => honest user
  | spkDh user => honest user
  | spkKem user => honest user
  | ephemeral _ => true
  | kemRandom _ => true
  | malicious _ => false

/-- What every user publishes. -/
def published (user : ℕ) : List Bytes :=
  [identityOf user, (spkOf user).dhPublic, (spkOf user).kemPublic, (spkOf user).signature]

/-- What the adversary knows: what is published, the malicious users' secrets, what was sent. -/
def World.knowledge (w : World) : Set Bytes :=
  {t | t = issuerIdentity ∨ (∃ user, t ∈ published user) ∨
    (∃ n, n.secret honest = false ∧ t = .name n) ∨ t ∈ w.net}

/-- The actions of the runs: the issuer certifies honest users, and whoever holds the secret key
of an identity; honest users seal under their certificates; what reaches an honest recipient comes
from the adversary. -/
def Possible (w : World) : Action → Prop
  | .issue user _ => honest user = true
  | .issueMalicious secret _ => Derives (w.knowledge honest) secret
  | .sealTo _ _ _ => True
  | .openAt user envelope _ => honest user = true ∧ Derives (w.knowledge honest) envelope

/-- Every message accepted was sealed to its recipient by a party that holds the secret key of the
certified identity: by the honest user whose identity it is, or by the adversary, if it holds the
key. -/
def World.Authentic (w : World) : Prop :=
  ∀ a ∈ w.accepted,
    (∃ user, honest user = true ∧ a.message.certificate.senderIdentity = identityOf user ∧
      ⟨user, (spkOf a.recipient).sealingPublicKey, a.message.plaintext⟩ ∈ w.sealed) ∨
    ∃ secret, a.message.certificate.senderIdentity = publicIdentity secret ∧
      Derives (w.knowledge honest) secret

/-- No honest user seals to a recipient that is not honest. -/
def SealsToHonest (_ : World) : Action → Prop
  | .sealTo _ recipient _ =>
    ∃ user, honest user = true ∧ recipient = (spkOf user).sealingPublicKey
  | _ => True

end Adversary

end SealedSender

end NovaChannel
