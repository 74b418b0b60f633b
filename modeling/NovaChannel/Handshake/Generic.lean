import NovaChannel.X3dh

/-!
# The handshake, over any primitives

The four functions of the handshake as `Handshake.Session` has them over bytes, here over any
`Crypto`, with a message as the list of its fields.

* `initiatorStart`, `InitiatorHandshakeState.complete` : the initiator;
* `responderRespond`, `ResponderHandshakeState.complete` : the responder;
* `complete_eq_ok`, `respond_eq_ok`, `responderComplete_eq_ok` : when a call succeeds, and what it returns.
-/

namespace NovaChannel

namespace HybridHandshake

open Crypto ByteString Kex
open X3dh (DirectionalKey EstablishedSession)

section Definitions

variable {β : Type} [Crypto β]

/-- `CONTEXT`. -/
def context : β := lit "novachannel v1"
/-- `LABEL_I2R`. -/
def labelI2r : β := lit "novachannel v1 initiator->responder"
/-- `LABEL_R2I`. -/
def labelR2i : β := lit "novachannel v1 responder->initiator"
/-- `LABEL_RATCHET_ROOT`. -/
def labelRatchetRoot : β := lit "novachannel v1 ratchet root"

/-- `derive_directional_key`. -/
def deriveDirectionalKey (prk label : β) : DirectionalKey β := .ofOkm (hkdfExpand 44 prk label)

/-- The key that all keys of a session are expanded from. -/
def sessionPrk (sharedSecret : β) (transcriptFinal : List β) : β :=
  hkdfExtract (some (sha256 (frame transcriptFinal))) sharedSecret

/-- `finalize_keys`, with the peer's identity. -/
def finalizeKeys (sharedSecret : β) (transcriptFinal : List β) (isInitiator : Bool) (peer : β) :
    EstablishedSession β :=
  let prk := sessionPrk sharedSecret transcriptFinal
  let i2r := deriveDirectionalKey prk labelI2r
  let r2i := deriveDirectionalKey prk labelR2i
  let ratchetRoot := hkdfExpand 32 prk labelRatchetRoot
  if isInitiator then ⟨peer, i2r, r2i, ratchetRoot⟩ else ⟨peer, r2i, i2r, ratchetRoot⟩

/-- What the responder signs. -/
def transcript1 (msg1 msg2Signed : List β) : List β := context :: (msg1 ++ msg2Signed)

/-- What the initiator signs. -/
def transcript2 (msg1 msg2 msg3Signed : List β) : List β :=
  context :: (msg1 ++ (msg2 ++ msg3Signed))

/-- The fields of the second message. -/
structure Msg2 (β : Type) where
  x25519 : β
  mlKemCt : β
  identity : β
  signature : β

/-- The fields that the responder signs. -/
def Msg2.signed (msg : Msg2 β) : List β := [msg.x25519, msg.mlKemCt, msg.identity]

/-- All fields. -/
def Msg2.fields (msg : Msg2 β) : List β := msg.signed ++ [msg.signature]

/-- A peer that is pinned is the expected one. -/
def checkPinned [DecidableEq β] (expected : Option β) (identity : β) : Result Unit :=
  match expected with
  | some expected => if expected ≠ identity then .err .identityMismatch else .ok ()
  | none => .ok ()

/-- `PublicIdentity::verify`. -/
def verifyIdentity (identity : β) (message : List β) (signature : β) : Result Unit :=
  if verify identity (frame message) signature then .ok () else .err .badSignature

/-! ### The initiator -/

/-- `InitiatorHandshakeState`. -/
structure InitiatorHandshakeState (β : Type) where
  kex : InitiatorKex β
  msg1 : List β
  expectedResponder : Option β

/-- `initiator_start`, from the two secret keys drawn. -/
def initiatorStart (expectedResponder : Option β) (x25519Secret mlKemSecret : β) :
    InitiatorHandshakeState β × β :=
  let kex := InitiatorKex.generate x25519Secret mlKemSecret
  let msg1 := [kex.x25519Public, kex.mlKemPublic]
  (⟨kex, msg1, expectedResponder⟩, frame msg1)

/-! ### The responder -/

/-- `ResponderHandshakeState`. -/
structure ResponderHandshakeState (β : Type) where
  msg1 : List β
  msg2 : Msg2 β
  sharedSecret : β
  expectedInitiator : Option β

variable [ByteString β]

/-- `responder_respond`, from the two values drawn. -/
def responderRespond (localIdentity : β) (expectedInitiator : Option β) (x25519Secret kemRandom : β)
    (msg1Bytes : β) : Result (ResponderHandshakeState β × β) := do
  let (initiatorX25519, initiatorMlKem) ←
    readExchange mlKemPublicFromBytes "trailing bytes in msg1" msg1Bytes
  let kexOut ← responderExchange x25519Secret kemRandom initiatorX25519 initiatorMlKem
  let msg1 := [initiatorX25519, initiatorMlKem]
  let msg2Signed := [kexOut.x25519Public, kexOut.mlKemCiphertext, publicIdentity localIdentity]
  let sig := sign localIdentity (frame (transcript1 msg1 msg2Signed))
  let msg2 : Msg2 β :=
    ⟨kexOut.x25519Public, kexOut.mlKemCiphertext, publicIdentity localIdentity, sig⟩
  pure (⟨msg1, msg2, kexOut.sharedSecret, expectedInitiator⟩, frame msg2.fields)

/-- The fields that `InitiatorHandshakeState::complete` reads. -/
def readMsg2 (bytes : β) : Result (Msg2 β) :=
  match unframe bytes with
  | some (x25519 :: ct :: identity :: signature :: rest) => do
    let mlKemCt ← mlKemCiphertextFromBytes ct
    if rest.isEmpty then pure ⟨x25519, mlKemCt, identity, signature⟩
    else .err (.malformed "trailing bytes in msg2")
  | _ => .err (.malformed "unexpected end of message")

variable [DecidableEq β]

/-- `InitiatorHandshakeState::complete`: the third message and the session. -/
def InitiatorHandshakeState.complete (s : InitiatorHandshakeState β) (localIdentity msg2Bytes : β) :
    Result (β × EstablishedSession β) := do
  let msg2 ← readMsg2 msg2Bytes
  checkPinned s.expectedResponder msg2.identity
  verifyIdentity msg2.identity (transcript1 s.msg1 msg2.signed) msg2.signature
  let sharedSecret ← s.kex.finish msg2.x25519 msg2.mlKemCt
  let msg3Signed := [publicIdentity localIdentity]
  let transcript := transcript2 s.msg1 msg2.fields msg3Signed
  let sig3 := sign localIdentity (frame transcript)
  pure (frame (msg3Signed ++ [sig3]),
    finalizeKeys sharedSecret (transcript ++ [sig3]) true msg2.identity)

omit [ByteString β] [DecidableEq β] in
/-- The fields that `ResponderHandshakeState::complete` reads. -/
def readMsg3 (bytes : β) : Result (β × β) :=
  match unframe bytes with
  | some (identity :: signature :: rest) =>
    if rest.isEmpty then pure (identity, signature)
    else .err (.malformed "trailing bytes in msg3")
  | _ => .err (.malformed "unexpected end of message")

omit [ByteString β] in
/-- `ResponderHandshakeState::complete`. -/
def ResponderHandshakeState.complete (s : ResponderHandshakeState β) (msg3Bytes : β) :
    Result (EstablishedSession β) := do
  let (identity, sig) ← readMsg3 msg3Bytes
  checkPinned s.expectedInitiator identity
  let transcript := transcript2 s.msg1 s.msg2.fields [identity]
  verifyIdentity identity transcript sig
  pure (finalizeKeys s.sharedSecret (transcript ++ [sig]) false identity)

end Definitions

/-! ### When a call succeeds -/

section Calls

variable {β : Type} [Crypto β] {bytes identity : β}

theorem verifyIdentity_eq_ok {message : List β} {signature : β} :
    verifyIdentity identity message signature = .ok () ↔
      verify identity (frame message) signature = true := by
  unfold verifyIdentity
  split
  · rename_i h
    exact iff_of_true rfl h
  · rename_i h
    exact ⟨fun h' => (by cases h'), fun h' => absurd h' h⟩

theorem readMsg3_eq_ok {sig : β} (h : readMsg3 bytes = .ok (identity, sig)) :
    unframe bytes = some [identity, sig] := by
  unfold readMsg3 at h
  split at h
  · rename_i identity' sig' rest hread
    split at h
    · rename_i hrest
      cases h
      rw [hread, List.isEmpty_iff.1 hrest]
    · cases h
  · cases h

variable [ByteString β]

theorem readMsg2_eq_ok {msg2 : Msg2 β} (h : readMsg2 bytes = .ok msg2) :
    unframe bytes = some msg2.fields ∧ isMlKemCiphertext msg2.mlKemCt = true := by
  unfold readMsg2 at h
  split at h
  · rename_i x ct id sig rest hread
    obtain ⟨ct', hct, h⟩ := Result.bind_eq_ok.1 h
    unfold mlKemCiphertextFromBytes at hct
    split at hct
    · rename_i hvalid
      cases hct
      split at h
      · rename_i hrest
        cases h
        rw [hread, List.isEmpty_iff.1 hrest]
        exact ⟨rfl, hvalid⟩
      · cases h
    · cases hct
  · cases h

/-- What an answer is: to the two fields of the first message, from the two values drawn. -/
theorem respond_eq_ok {expected : Option β} {y r : β} {state : ResponderHandshakeState β}
    {msg2Bytes : β} (h : responderRespond identity expected y r bytes = .ok (state, msg2Bytes)) :
    ∃ x k, unframe bytes = some [x, k] ∧ wasContributory (diffieHellman y x) = true ∧
      let signed := [x25519Public y, (encapsulate k r).1, publicIdentity identity]
      state = ⟨[x, k], ⟨x25519Public y, (encapsulate k r).1, publicIdentity identity,
        sign identity (frame (transcript1 [x, k] signed))⟩,
        frame [diffieHellman y x, (encapsulate k r).2], expected⟩ ∧
      msg2Bytes = frame state.msg2.fields := by
  obtain ⟨⟨x, k⟩, hread, h⟩ := Result.bind_eq_ok.1 h
  obtain ⟨out, hexchange, h⟩ := Result.bind_eq_ok.1 h
  obtain ⟨hc, rfl⟩ := responderExchange_eq_ok hexchange
  obtain ⟨rfl, rfl⟩ := Prod.mk.inj (Except.ok.inj h)
  refine ⟨x, k, ?_, hc, rfl, rfl⟩
  unfold readExchange at hread
  split at hread
  · rename_i x' bytes' rest hunframe
    obtain ⟨k', hk, hread⟩ := Result.bind_eq_ok.1 hread
    unfold mlKemPublicFromBytes at hk
    split at hk
    · cases hk
      split at hread
      · rename_i hrest
        cases hread
        rw [hunframe, List.isEmpty_iff.1 hrest]
      · cases hread
    · cases hk
  · cases hread

variable [DecidableEq β]

/-- When an initiator completes, and what it returns. -/
theorem complete_eq_ok {s : InitiatorHandshakeState β} {msg2Bytes msg3Bytes : β}
    {est : EstablishedSession β}
    (h : s.complete identity msg2Bytes = .ok (msg3Bytes, est)) :
    ∃ msg2 : Msg2 β, unframe msg2Bytes = some msg2.fields ∧
      verify msg2.identity (frame (transcript1 s.msg1 msg2.signed)) msg2.signature = true ∧
      let transcript := transcript2 s.msg1 msg2.fields [publicIdentity identity]
      let sig3 := sign identity (frame transcript)
      msg3Bytes = frame [publicIdentity identity, sig3] ∧
      est = finalizeKeys (frame [diffieHellman s.kex.x25519Secret msg2.x25519,
        decapsulate s.kex.mlKemSecret msg2.mlKemCt]) (transcript ++ [sig3]) true msg2.identity := by
  obtain ⟨msg2, hread, h⟩ := Result.bind_eq_ok.1 h
  obtain ⟨_, -, h⟩ := Result.bind_eq_ok.1 h
  obtain ⟨_, hverify, h⟩ := Result.bind_eq_ok.1 h
  obtain ⟨ss, hfinish, h⟩ := Result.bind_eq_ok.1 h
  obtain ⟨-, rfl⟩ := finish_eq_ok hfinish
  obtain ⟨rfl, rfl⟩ := Prod.mk.inj (Except.ok.inj h)
  exact ⟨msg2, (readMsg2_eq_ok hread).1, verifyIdentity_eq_ok.1 hverify, rfl, rfl⟩

omit [ByteString β] in
/-- When a responder completes, and what it returns. -/
theorem responderComplete_eq_ok {s : ResponderHandshakeState β} {msg3Bytes : β} {est : EstablishedSession β}
    (h : s.complete msg3Bytes = .ok est) :
    ∃ identity sig, unframe msg3Bytes = some [identity, sig] ∧
      verify identity (frame (transcript2 s.msg1 s.msg2.fields [identity])) sig = true ∧
      est = finalizeKeys s.sharedSecret
        (transcript2 s.msg1 s.msg2.fields [identity] ++ [sig]) false identity := by
  obtain ⟨⟨identity, sig⟩, hread, h⟩ := Result.bind_eq_ok.1 h
  obtain ⟨_, -, h⟩ := Result.bind_eq_ok.1 h
  obtain ⟨_, hverify, h⟩ := Result.bind_eq_ok.1 h
  exact ⟨identity, sig, readMsg3_eq_ok hread, verifyIdentity_eq_ok.1 hverify,
    (Except.ok.inj h).symm⟩

end Calls

end HybridHandshake

end NovaChannel
