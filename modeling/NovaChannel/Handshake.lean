import NovaChannel.Formats

/-!
# The handshake's messages

The three messages of the mutually authenticated handshake, their readers, and the transcripts
that are signed.

* `codec_msg1`, `codec_msg2Signed`, `codec_msg2`, `codec_msg3` : reading and writing;
* `transcript1`, `transcript2` : what is signed.
-/

namespace NovaChannel

namespace Wire

variable [WireKeys]

/-- `CONTEXT`. -/
def handshakeContext : Bytes := ascii "novachannel v1"

/-- The first message: the initiator's ephemeral keys. -/
structure Msg1 where
  x25519 : X25519Public
  mlKem : MlKemPublic

/-- What the responder signs of the second message. -/
structure Msg2Signed where
  x25519 : X25519Public
  mlKemCt : MlKemCiphertext
  identity : PublicIdentity

/-- The second message. -/
structure Msg2 where
  signed : Msg2Signed
  signature : HybridSignature

/-- The third message. -/
structure Msg3 where
  identity : PublicIdentity
  signature : HybridSignature

/-- `msg1_bytes`. -/
def Msg1.write (msg : Msg1) : Bytes := msg.x25519.1 ++ putVar msg.mlKem.1

/-- The fields that `responder_respond` reads. -/
def Msg1.read : Parser Msg1 := do
  let x25519 ← getX25519Public
  let mlKem ← getMlKemPublic
  pure ⟨x25519, mlKem⟩

/-- `msg2_signed_bytes`. -/
def Msg2Signed.write (msg : Msg2Signed) : Bytes :=
  msg.x25519.1 ++ (putVar msg.mlKemCt.1 ++ msg.identity.write)

/-- The fields of the second message up to its signature. -/
def Msg2Signed.read : Parser Msg2Signed := do
  let x25519 ← getX25519Public
  let mlKemCt ← getMlKemCiphertext
  let identity ← PublicIdentity.read
  pure ⟨x25519, mlKemCt, identity⟩

/-- `msg2_bytes`. -/
def Msg2.write (msg : Msg2) : Bytes := msg.signed.write ++ msg.signature.write

/-- The fields that `InitiatorHandshakeState::complete` reads. -/
def Msg2.read : Parser Msg2 := do
  let signed ← Msg2Signed.read
  let signature ← HybridSignature.read
  pure ⟨signed, signature⟩

/-- `msg3_bytes`. -/
def Msg3.write (msg : Msg3) : Bytes := msg.identity.write ++ msg.signature.write

/-- The fields that `ResponderHandshakeState::complete` reads. -/
def Msg3.read : Parser Msg3 := do
  let identity ← PublicIdentity.read
  let signature ← HybridSignature.read
  pure ⟨identity, signature⟩

theorem codec_msg1 : Codec (fun _ => True) Msg1.write Msg1.read := by
  refine Codec.congr (Codec.bind codec_getX25519Public (fun c : Msg1 => c.x25519)
    (fun _ _ => trivial) fun a _ => Codec.bind codec_getMlKemPublic
    (fun c : Msg1 => c.mlKem) (fun _ _ => trivial) fun b _ =>
    codec_pure fun c => ?_) fun c => ?_
  · obtain ⟨c1, c2⟩ := c
    simp
  · simp [Msg1.write]

theorem codec_msg2Signed : Codec (fun _ => True) Msg2Signed.write Msg2Signed.read := by
  refine Codec.congr (Codec.bind codec_getX25519Public (fun c : Msg2Signed => c.x25519)
    (fun _ _ => trivial) fun a _ => Codec.bind codec_getMlKemCiphertext
    (fun c : Msg2Signed => c.mlKemCt) (fun _ _ => trivial) fun b _ => Codec.bind
    codec_publicIdentity (fun c : Msg2Signed => c.identity) (fun _ _ => trivial) fun d _ =>
    codec_pure fun c => ?_) fun c => ?_
  · obtain ⟨c1, c2, c3⟩ := c
    simp [and_assoc]
  · simp [Msg2Signed.write]

theorem codec_msg2 : Codec (fun _ => True) Msg2.write Msg2.read := by
  refine Codec.congr (Codec.bind codec_msg2Signed (fun c : Msg2 => c.signed)
    (fun _ _ => trivial) fun a _ => Codec.bind codec_hybridSignature
    (fun c : Msg2 => c.signature) (fun _ _ => trivial) fun b _ =>
    codec_pure fun c => ?_) fun c => ?_
  · obtain ⟨c1, c2⟩ := c
    simp
  · simp [Msg2.write]

theorem codec_msg3 : Codec (fun _ => True) Msg3.write Msg3.read := by
  refine Codec.congr (Codec.bind codec_publicIdentity (fun c : Msg3 => c.identity)
    (fun _ _ => trivial) fun a _ => Codec.bind codec_hybridSignature
    (fun c : Msg3 => c.signature) (fun _ _ => trivial) fun b _ =>
    codec_pure fun c => ?_) fun c => ?_
  · obtain ⟨c1, c2⟩ := c
    simp
  · simp [Msg3.write]

/-- `transcript_1`: the responder signs it. -/
def transcript1 (msg1Bytes msg2Signed : Bytes) : Bytes :=
  handshakeContext ++ (msg1Bytes ++ msg2Signed)

/-- `transcript_2`: the initiator signs it. -/
def transcript2 (msg1Bytes msg2Full msg3Signed : Bytes) : Bytes :=
  handshakeContext ++ (msg1Bytes ++ (msg2Full ++ msg3Signed))

end Wire

end NovaChannel
