import NovaChannel.SignedBytes
import NovaChannel.Transport

/-!
# The handshake

`initiator_start`, `responder_respond` and the two `complete` functions, over the bytes that are
sent and signed.  A value drawn at random is an argument of the function that draws it.

* `readMsg2_eq_ok`, `readMsg3_eq_ok` : a message that is accepted is its fields' encoding;
* `complete_eq_ok`, `respond_eq_ok`, `finish_eq_ok` : when a call succeeds, and what it returns;
* `finalizeKeys_cross` : both sides derive one another's keys.
-/

namespace NovaChannel

namespace Handshake

open Wire Transport

/-- The third-party primitives. -/
class Primitives [WireKeys] where
  /-- `X25519Public::from(&secret)`. -/
  x25519Public : Bytes → X25519Public
  /-- `secret.diffie_hellman(&public)`. -/
  diffieHellman : Bytes → X25519Public → Bytes
  /-- `SharedSecret::was_contributory`. -/
  wasContributory : Bytes → Bool
  /-- The encapsulation key of a decapsulation key (given by its seed). -/
  mlKemPublic : Bytes → MlKemPublic
  /-- `encapsulate_with_rng`: ciphertext and shared secret, from the randomness drawn. -/
  encapsulate : MlKemPublic → Bytes → MlKemCiphertext × Bytes
  /-- `decapsulate`. -/
  decapsulate : Bytes → MlKemCiphertext → Bytes
  /-- SHA-256. -/
  sha256 : Bytes → Bytes
  /-- `Hkdf::<Sha256>::extract(Some(salt), ikm)`. -/
  hkdfExtract : Bytes → Bytes → Bytes
  /-- `hk.expand(info, &mut out)`, with the length of `out`. -/
  hkdfExpand : ℕ → Bytes → Bytes → Bytes
  /-- The verifying keys of an identity. -/
  publicIdentity : Bytes → PublicIdentity
  /-- `Identity::try_sign` with the randomness drawn, `none` where a signing backend fails. -/
  trySign : Bytes → Bytes → Bytes → Option HybridSignature

/-- Both sides of an exchange compute one secret, and a signature verifies. -/
class LawfulPrimitives [WireKeys] [Primitives] : Prop where
  diffieHellman_comm (a b : Bytes) :
    Primitives.diffieHellman a (Primitives.x25519Public b) =
      Primitives.diffieHellman b (Primitives.x25519Public a)
  decapsulate_encapsulate (sk r : Bytes) :
    Primitives.decapsulate sk (Primitives.encapsulate (Primitives.mlKemPublic sk) r).1 =
      (Primitives.encapsulate (Primitives.mlKemPublic sk) r).2
  verify_trySign {keys random message : Bytes} {sig : HybridSignature} :
    Primitives.trySign keys random message = some sig →
    (Primitives.publicIdentity keys).verify message sig = .ok ()

variable [WireKeys]

instance : DecidableEq PublicIdentity := fun a b =>
  decidable_of_iff (a.ed25519 = b.ed25519 ∧ a.mlDsa = b.mlDsa) <| by
    cases a
    cases b
    simp

variable [Primitives]

open Primitives

/-! ### Identities -/

/-- `Identity`. -/
structure Identity where
  keys : Bytes

/-- `Identity::public`. -/
def Identity.public (identity : Identity) : PublicIdentity := publicIdentity identity.keys

/-- `Identity::sign`, which panics on a backend failure. -/
def Identity.sign (identity : Identity) (random message : Bytes) : Result HybridSignature :=
  Result.expect (trySign identity.keys random message)

/-! ### The key exchange -/

/-- `checked_dh`. -/
def checkedDh (shared : Bytes) : Result Bytes :=
  if wasContributory shared then .ok shared
  else Result.err (.malformed
    "peer's X25519 public key has small order: the exchange contributed no entropy")

/-- `InitiatorKex`. -/
structure InitiatorKex where
  x25519Secret : Bytes
  x25519Public : X25519Public
  mlKemPublic : MlKemPublic
  mlKemSecret : Bytes

/-- `InitiatorKex::generate`, from the two secret keys drawn. -/
def InitiatorKex.generate (x25519Secret mlKemSecret : Bytes) : InitiatorKex where
  x25519Secret := x25519Secret
  x25519Public := Primitives.x25519Public x25519Secret
  mlKemPublic := Primitives.mlKemPublic mlKemSecret
  mlKemSecret := mlKemSecret

/-- `InitiatorKex::finish`. -/
def InitiatorKex.finish (kex : InitiatorKex) (responderX25519 : X25519Public)
    (mlKemCt : MlKemCiphertext) : Result Bytes := do
  let dh ← checkedDh (diffieHellman kex.x25519Secret responderX25519)
  pure (dh ++ decapsulate kex.mlKemSecret mlKemCt)

/-- The randomness of an answer. -/
structure ResponderCoins where
  x25519Secret : Bytes
  kemRandom : Bytes
  signing : Bytes

/-- `responder_exchange`: the X25519 key, the ciphertext, and the shared secret. -/
def responderExchange (coins : ResponderCoins) (initiator : Msg1) :
    Result (X25519Public × MlKemCiphertext × Bytes) := do
  let dh ← checkedDh (diffieHellman coins.x25519Secret initiator.x25519)
  let (mlKemCt, mlKemSs) := encapsulate initiator.mlKem coins.kemRandom
  pure (Primitives.x25519Public coins.x25519Secret, mlKemCt, dh ++ mlKemSs)

/-! ### Keys -/

/-- `LABEL_I2R`. -/
def labelI2r : Bytes := ascii "novachannel v1 initiator->responder"
/-- `LABEL_R2I`. -/
def labelR2i : Bytes := ascii "novachannel v1 responder->initiator"
/-- `LABEL_RATCHET_ROOT`. -/
def labelRatchetRoot : Bytes := ascii "novachannel v1 ratchet root"

/-- `EstablishedSession`. -/
structure EstablishedSession where
  peer : PublicIdentity
  sender : Sender
  receiver : Receiver
  ratchetRoot : Bytes

/-- `derive_directional_key`. -/
def deriveDirectionalKey (prk label : Bytes) : DirectionalKey :=
  let okm := hkdfExpand 44 prk label
  ⟨okm.take 32, okm.drop 32⟩

/-- `finalize_keys`, with the peer's identity. -/
def finalizeKeys (sharedSecret transcriptFinal : Bytes) (isInitiator : Bool)
    (peer : PublicIdentity) : EstablishedSession :=
  let prk := hkdfExtract (sha256 transcriptFinal) sharedSecret
  let i2r := deriveDirectionalKey prk labelI2r
  let r2i := deriveDirectionalKey prk labelR2i
  let ratchetRoot := hkdfExpand 32 prk labelRatchetRoot
  if isInitiator then ⟨peer, Sender.new i2r, Receiver.new r2i, ratchetRoot⟩
  else ⟨peer, Sender.new r2i, Receiver.new i2r, ratchetRoot⟩

/-- The two sessions of one handshake: one root, and each side sends what the other receives. -/
structure Agree (a b : EstablishedSession) : Prop where
  ratchetRoot : a.ratchetRoot = b.ratchetRoot
  forth : a.sender.key = b.receiver.key
  back : b.sender.key = a.receiver.key

/-- Both sides derive one another's keys. -/
theorem finalizeKeys_cross (sharedSecret transcriptFinal : Bytes) (p q : PublicIdentity) :
    Agree (finalizeKeys sharedSecret transcriptFinal true p)
      (finalizeKeys sharedSecret transcriptFinal false q) :=
  ⟨rfl, rfl, rfl⟩

/-! ### The initiator -/

/-- A peer that is pinned is the expected one. -/
def checkPinned (expected : Option PublicIdentity) (identity : PublicIdentity) : Result Unit :=
  match expected with
  | some expected => if expected ≠ identity then Result.err .identityMismatch else .ok ()
  | none => .ok ()

/-- `InitiatorHandshakeState`. -/
structure InitiatorHandshakeState where
  kex : InitiatorKex
  msg1Bytes : Bytes
  expectedResponder : Option PublicIdentity

/-- `initiator_start`, from the two secret keys drawn. -/
def initiatorStart (expectedResponder : Option PublicIdentity) (x25519Secret mlKemSecret : Bytes) :
    InitiatorHandshakeState × Bytes :=
  let kex := InitiatorKex.generate x25519Secret mlKemSecret
  let msg1Bytes := Msg1.write ⟨kex.x25519Public, kex.mlKemPublic⟩
  (⟨kex, msg1Bytes, expectedResponder⟩, msg1Bytes)

/-- The second message: its fields, the bytes of what was signed, and the signature. -/
def readMsg2 (bytes : Bytes) : Result (Msg2Signed × Bytes × HybridSignature) := do
  let (signed, rest) ← Msg2Signed.read bytes
  let sig ← readAll "trailing bytes in msg2" HybridSignature.read rest
  pure (signed, bytes.take (bytes.length - rest.length), sig)

namespace InitiatorHandshakeState

/-- `complete` up to the signature: the peer, the shared secret, and the transcript to be signed. -/
def accept (s : InitiatorHandshakeState) (identity : Identity) (msg2Bytes : Bytes) :
    Result (PublicIdentity × Bytes × Bytes) := do
  let (signed, signedBytes, sig) ← readMsg2 msg2Bytes
  checkPinned s.expectedResponder signed.identity
  signed.identity.verify (transcript1 s.msg1Bytes signedBytes) sig
  let sharedSecret ← s.kex.finish signed.x25519 signed.mlKemCt
  pure (signed.identity, sharedSecret, transcript2 s.msg1Bytes msg2Bytes identity.public.write)

/-- `complete`: the third message and the session. -/
def complete (s : InitiatorHandshakeState) (identity : Identity) (random msg2Bytes : Bytes) :
    Result (Bytes × EstablishedSession) := do
  let (peer, sharedSecret, transcript) ← s.accept identity msg2Bytes
  let sig3 ← identity.sign random transcript
  pure (identity.public.write ++ sig3.write,
    finalizeKeys sharedSecret (transcript ++ sig3.write) true peer)

end InitiatorHandshakeState

/-! ### The responder -/

/-- `ResponderHandshakeState`. -/
structure ResponderHandshakeState where
  msg1Bytes : Bytes
  msg2Full : Bytes
  sharedSecret : Bytes
  expectedInitiator : Option PublicIdentity

/-- `responder_respond` up to the signature: what is to be signed, and the shared secret. -/
def answer (identity : Identity) (coins : ResponderCoins) (msg1Bytes : Bytes) :
    Result (Msg2Signed × Bytes) := do
  let msg1 ← readAll "trailing bytes in msg1" Msg1.read msg1Bytes
  let (x25519, mlKemCt, sharedSecret) ← responderExchange coins msg1
  pure (⟨x25519, mlKemCt, identity.public⟩, sharedSecret)

/-- `responder_respond`. -/
def responderRespond (identity : Identity) (expectedInitiator : Option PublicIdentity)
    (coins : ResponderCoins) (msg1Bytes : Bytes) : Result (ResponderHandshakeState × Bytes) := do
  let (signed, sharedSecret) ← answer identity coins msg1Bytes
  let sig ← identity.sign coins.signing (transcript1 msg1Bytes signed.write)
  let msg2Bytes := signed.write ++ sig.write
  pure (⟨msg1Bytes, msg2Bytes, sharedSecret, expectedInitiator⟩, msg2Bytes)

/-- The third message: the identity, its bytes, the signature, and its bytes. -/
def readMsg3 (bytes : Bytes) : Result (PublicIdentity × Bytes × HybridSignature × Bytes) := do
  let (identity, rest) ← PublicIdentity.read bytes
  let sig ← readAll "trailing bytes in msg3" HybridSignature.read rest
  let signedLen := bytes.length - rest.length
  pure (identity, bytes.take signedLen, sig, bytes.drop signedLen)

/-- `ResponderHandshakeState::complete`. -/
def ResponderHandshakeState.complete (s : ResponderHandshakeState) (msg3Bytes : Bytes) :
    Result EstablishedSession := do
  let (identity, signedBytes, sig, sigBytes) ← readMsg3 msg3Bytes
  checkPinned s.expectedInitiator identity
  let transcript := transcript2 s.msg1Bytes s.msg2Full signedBytes
  identity.verify transcript sig
  pure (finalizeKeys s.sharedSecret (transcript ++ sigBytes) false identity)

/-! ### When a call succeeds -/

omit [WireKeys] [Primitives] in
theorem take_append_sub (a rest : Bytes) :
    (a ++ rest).take ((a ++ rest).length - rest.length) = a ∧
      (a ++ rest).drop ((a ++ rest).length - rest.length) = rest := by
  have hlen : (a ++ rest).length - rest.length = a.length := by
    rw [List.length_append, Nat.add_sub_cancel]
  rw [hlen]
  exact ⟨List.take_left, List.drop_left⟩

omit [Primitives] in
/-- A second message is the encoding of its fields. -/
theorem readMsg2_eq_ok {bytes : Bytes} {signed : Msg2Signed} {signedBytes : Bytes}
    {sig : HybridSignature} :
    readMsg2 bytes = .ok (signed, signedBytes, sig) ↔
      bytes = signed.write ++ sig.write ∧ signedBytes = signed.write := by
  constructor
  · intro h
    obtain ⟨⟨signed', rest⟩, hread, h⟩ := Result.bind_eq_ok.1 h
    obtain ⟨sig', hsig, h⟩ := Result.bind_eq_ok.1 h
    obtain ⟨-, rfl⟩ := codec_msg2Signed.canonical _ _ _ hread
    obtain ⟨-, rfl⟩ := codec_hybridSignature.readAll_canonical hsig
    cases h
    exact ⟨rfl, (take_append_sub _ _).1⟩
  · rintro ⟨rfl, rfl⟩
    rw [readMsg2, codec_msg2Signed.back _ _ trivial, Result.ok_bind]
    dsimp only
    rw [codec_hybridSignature.readAll_back _ trivial, Result.ok_bind, (take_append_sub _ _).1]
    rfl

omit [Primitives] in
/-- A third message is the encoding of its fields. -/
theorem readMsg3_eq_ok {bytes : Bytes} {identity : PublicIdentity} {signedBytes sigBytes : Bytes}
    {sig : HybridSignature} :
    readMsg3 bytes = .ok (identity, signedBytes, sig, sigBytes) ↔
      bytes = identity.write ++ sig.write ∧ signedBytes = identity.write ∧
        sigBytes = sig.write := by
  constructor
  · intro h
    obtain ⟨⟨identity', rest⟩, hread, h⟩ := Result.bind_eq_ok.1 h
    obtain ⟨sig', hsig, h⟩ := Result.bind_eq_ok.1 h
    obtain ⟨-, rfl⟩ := codec_publicIdentity.canonical _ _ _ hread
    obtain ⟨-, rfl⟩ := codec_hybridSignature.readAll_canonical hsig
    cases h
    exact ⟨rfl, (take_append_sub _ _).1, (take_append_sub _ _).2⟩
  · rintro ⟨rfl, rfl, rfl⟩
    rw [readMsg3, codec_publicIdentity.back _ _ trivial, Result.ok_bind]
    dsimp only
    rw [codec_hybridSignature.readAll_back _ trivial, Result.ok_bind, (take_append_sub _ _).1,
      (take_append_sub _ _).2]
    rfl

omit [Primitives] in
theorem checkPinned_some {expected identity : PublicIdentity} :
    checkPinned (some expected) identity = .ok () ↔ expected = identity := by
  dsimp only [checkPinned]
  split_ifs with hne
  · exact ⟨fun h => (by cases h), fun h => absurd h hne⟩
  · exact ⟨fun _ => not_not.1 hne, fun _ => rfl⟩

section Calls

variable {identity : Identity} {random msg1Bytes msg2Bytes msg3Bytes : Bytes}
  {transcript sharedSecret : Bytes} {peer : PublicIdentity} {est : EstablishedSession}

theorem accept_eq_ok {s : InitiatorHandshakeState} :
    s.accept identity msg2Bytes = .ok (peer, sharedSecret, transcript) ↔
      ∃ signed sig, msg2Bytes = Msg2Signed.write signed ++ HybridSignature.write sig ∧
        signed.identity = peer ∧ checkPinned s.expectedResponder peer = .ok () ∧
        peer.verify (transcript1 s.msg1Bytes signed.write) sig = .ok () ∧
        s.kex.finish signed.x25519 signed.mlKemCt = .ok sharedSecret ∧
        transcript = transcript2 s.msg1Bytes msg2Bytes identity.public.write := by
  constructor
  · intro h
    obtain ⟨⟨signed, signedBytes, sig⟩, hread, h⟩ := Result.bind_eq_ok.1 h
    obtain ⟨hbytes, rfl⟩ := readMsg2_eq_ok.1 hread
    obtain ⟨_, hpin, h⟩ := Result.bind_eq_ok.1 h
    obtain ⟨_, hverify, h⟩ := Result.bind_eq_ok.1 h
    obtain ⟨ss, hfinish, h⟩ := Result.bind_eq_ok.1 h
    cases h
    exact ⟨signed, sig, hbytes, rfl, hpin, hverify, hfinish, rfl⟩
  · rintro ⟨signed, sig, hbytes, rfl, hpin, hverify, hfinish, rfl⟩
    have hread : readMsg2 msg2Bytes = .ok (signed, signed.write, sig) :=
      readMsg2_eq_ok.2 ⟨hbytes, rfl⟩
    simp only [InitiatorHandshakeState.accept, hread, Result.ok_bind, hpin, hverify, hfinish,
      Result.pure_eq_ok]

theorem complete_eq_ok {s : InitiatorHandshakeState} :
    s.complete identity random msg2Bytes = .ok (msg3Bytes, est) ↔
      ∃ peer sharedSecret transcript sig3,
        s.accept identity msg2Bytes = .ok (peer, sharedSecret, transcript) ∧
        Primitives.trySign identity.keys random transcript = some sig3 ∧
        msg3Bytes = identity.public.write ++ HybridSignature.write sig3 ∧
        est = finalizeKeys sharedSecret (transcript ++ sig3.write) true peer := by
  constructor
  · intro h
    obtain ⟨⟨peer, ss, transcript⟩, haccept, h⟩ := Result.bind_eq_ok.1 h
    obtain ⟨sig3, hsign, h⟩ := Result.bind_eq_ok.1 h
    cases h
    exact ⟨peer, ss, transcript, sig3, haccept, Result.expect_eq_ok.1 hsign, rfl, rfl⟩
  · rintro ⟨peer, ss, transcript, sig3, haccept, hsign, rfl, rfl⟩
    have hsign' : identity.sign random transcript = .ok sig3 := Result.expect_eq_ok.2 hsign
    simp only [InitiatorHandshakeState.complete, haccept, Result.ok_bind, hsign',
      Result.pure_eq_ok]

/-- The answer to a first message. -/
theorem answer_eq_ok {coins : ResponderCoins} {signed : Msg2Signed} :
    answer identity coins msg1Bytes = .ok (signed, sharedSecret) ↔
      ∃ msg1, msg1Bytes = Msg1.write msg1 ∧
        responderExchange coins msg1 = .ok (signed.x25519, signed.mlKemCt, sharedSecret) ∧
        signed.identity = identity.public := by
  constructor
  · intro h
    obtain ⟨msg1, hread, h⟩ := Result.bind_eq_ok.1 h
    obtain ⟨⟨x, ct, ss⟩, hout, h⟩ := Result.bind_eq_ok.1 h
    cases h
    exact ⟨msg1, (codec_msg1.readAll_canonical hread).2.symm, hout, rfl⟩
  · rintro ⟨msg1, rfl, hout, hid⟩
    obtain ⟨x, ct, i⟩ := signed
    obtain rfl : i = identity.public := hid
    simp only [answer, codec_msg1.readAll_back _ trivial, Result.ok_bind, hout, Result.pure_eq_ok]

theorem respond_eq_ok {expected : Option PublicIdentity} {coins : ResponderCoins}
    {state : ResponderHandshakeState} :
    responderRespond identity expected coins msg1Bytes = .ok (state, msg2Bytes) ↔
      ∃ signed sharedSecret sig, answer identity coins msg1Bytes = .ok (signed, sharedSecret) ∧
        Primitives.trySign identity.keys coins.signing
          (transcript1 msg1Bytes (Msg2Signed.write signed)) = some sig ∧
        msg2Bytes = signed.write ++ HybridSignature.write sig ∧
        state = ⟨msg1Bytes, msg2Bytes, sharedSecret, expected⟩ := by
  constructor
  · intro h
    obtain ⟨⟨signed, ss⟩, hanswer, h⟩ := Result.bind_eq_ok.1 h
    obtain ⟨sig, hsign, h⟩ := Result.bind_eq_ok.1 h
    cases h
    exact ⟨signed, ss, sig, hanswer, Result.expect_eq_ok.1 hsign, rfl, rfl⟩
  · rintro ⟨signed, ss, sig, hanswer, hsign, rfl, rfl⟩
    have hsign' : identity.sign coins.signing (transcript1 msg1Bytes signed.write) = .ok sig :=
      Result.expect_eq_ok.2 hsign
    simp only [responderRespond, hanswer, Result.ok_bind, hsign', Result.pure_eq_ok]

theorem finish_eq_ok {s : ResponderHandshakeState} :
    s.complete msg3Bytes = .ok est ↔
      ∃ identity sig, msg3Bytes = PublicIdentity.write identity ++ HybridSignature.write sig ∧
        checkPinned s.expectedInitiator identity = .ok () ∧
        identity.verify (transcript2 s.msg1Bytes s.msg2Full identity.write) sig = .ok () ∧
        est = finalizeKeys s.sharedSecret
          (transcript2 s.msg1Bytes s.msg2Full identity.write ++ sig.write) false identity := by
  constructor
  · intro h
    obtain ⟨⟨identity, signedBytes, sig, sigBytes⟩, hread, h⟩ := Result.bind_eq_ok.1 h
    obtain ⟨hbytes, rfl, rfl⟩ := readMsg3_eq_ok.1 hread
    obtain ⟨_, hpin, h⟩ := Result.bind_eq_ok.1 h
    obtain ⟨_, hverify, h⟩ := Result.bind_eq_ok.1 h
    cases h
    exact ⟨identity, sig, hbytes, hpin, hverify, rfl⟩
  · rintro ⟨identity, sig, hbytes, hpin, hverify, rfl⟩
    have hread : readMsg3 msg3Bytes = .ok (identity, identity.write, sig, sig.write) :=
      readMsg3_eq_ok.2 ⟨hbytes, rfl, rfl⟩
    simp only [ResponderHandshakeState.complete, hread, Result.ok_bind, hpin, hverify,
      Result.pure_eq_ok]

end Calls

theorem responderExchange_eq_ok {coins : ResponderCoins} {initiator : Msg1}
    {out : X25519Public × MlKemCiphertext × Bytes}
    (h : responderExchange coins initiator = .ok out) :
    wasContributory (diffieHellman coins.x25519Secret initiator.x25519) = true ∧
      out = (Primitives.x25519Public coins.x25519Secret,
        (encapsulate initiator.mlKem coins.kemRandom).1,
        diffieHellman coins.x25519Secret initiator.x25519 ++
          (encapsulate initiator.mlKem coins.kemRandom).2) := by
  obtain ⟨dh, hdh, h⟩ := Result.bind_eq_ok.1 h
  unfold checkedDh at hdh
  split_ifs at hdh with hc
  obtain rfl := Except.ok.inj hdh
  exact ⟨hc, (Except.ok.inj h).symm⟩

/-- Both halves of an exchange between honest parties compute one shared secret. -/
theorem finish_responderExchange [LawfulPrimitives] {x k : Bytes} {coins : ResponderCoins}
    {out : X25519Public × MlKemCiphertext × Bytes}
    (h : responderExchange coins ⟨(InitiatorKex.generate x k).x25519Public,
      (InitiatorKex.generate x k).mlKemPublic⟩ = .ok out) :
    (InitiatorKex.generate x k).finish out.1 out.2.1 = .ok out.2.2 := by
  obtain ⟨hc, rfl⟩ := responderExchange_eq_ok h
  simp only [InitiatorKex.generate] at hc ⊢
  rw [LawfulPrimitives.diffieHellman_comm] at hc
  simp only [InitiatorKex.finish, checkedDh, hc, ↓reduceIte, Result.ok_bind,
    LawfulPrimitives.decapsulate_encapsulate,
    LawfulPrimitives.diffieHellman_comm coins.x25519Secret x, Result.pure_eq_ok]

end Handshake

end NovaChannel
