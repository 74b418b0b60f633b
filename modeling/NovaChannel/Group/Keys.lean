import NovaChannel.Crypto

/-!
# Key material of a group

Node public keys, leaf key packages with their proof of possession, the node key pair a path
secret determines, and the hybrid one-shot envelope `sealToNode` / `openFromNode` that carries
path secrets and welcome snapshots.
-/

namespace NovaChannel

namespace Group

open Crypto

/-! ### Labels -/

section Labels

variable {β : Type} [Crypto β]

/-- `LABEL_NODE_KEYGEN`. -/
def labelNodeKeygen : β := lit "novachannel group v1 node keygen"
/-- `LABEL_PATH_STEP`. -/
def labelPathStep : β := lit "novachannel group v1 path secret step"
/-- `LABEL_SEAL_KEY`. -/
def labelSealKey : β := lit "novachannel group v1 seal key"
/-- `LABEL_EPOCH_SECRET`. -/
def labelEpochSecret : β := lit "novachannel group v1 epoch secret"
/-- `LABEL_APPLICATION_SECRET`. -/
def labelApplicationSecret : β := lit "novachannel group v1 application secret"
/-- `LABEL_SENDER_CHAIN`. -/
def labelSenderChain : β := lit "novachannel group v1 sender chain"
/-- `LABEL_MESSAGE_KEY`, the byte `0x01`. -/
def labelMessageKey : β := num 1
/-- `LABEL_NEXT_CHAIN`, the byte `0x02`. -/
def labelNextChain : β := num 2
/-- `COMMIT_SIGNATURE_CONTEXT`. -/
def commitSignatureContext : β := lit "novachannel group v1 commit"
/-- `LEAF_KEY_PACKAGE_POP_CONTEXT`. -/
def leafKeyPackagePopContext : β := lit "novachannel group v1 leaf key package"
/-- `PATH_SECRET_AAD_CONTEXT`. -/
def pathSecretAadContext : β := lit "novachannel group v1 path secret"
/-- `WELCOME_AAD_CONTEXT`. -/
def welcomeAadContext : β := lit "novachannel group v1 welcome"
/-- `WELCOME_SIGNATURE_CONTEXT`. -/
def welcomeSignatureContext : β := lit "novachannel group v1 welcome snapshot"
/-- The all-zero nonce of every single-use key. -/
def zeroNonce : β := num 0

end Labels

/-! ### Node keys and leaf key packages -/

/-- A hybrid X25519 and ML-KEM-1024 public key on one tree node. -/
structure NodePublicKey (β : Type) where
  dhPublic : β
  kemPublic : β
  deriving DecidableEq

/-- A member's leaf: signing identity, hybrid key, and a proof of possession over both. -/
structure LeafKeyPackage (β : Type) where
  identity : β
  publicKey : NodePublicKey β
  pop : β
  deriving DecidableEq

/-- The private counterpart of a `LeafKeyPackage`. -/
structure MyLeafKeyPackage (β : Type) where
  identity : β
  dhSecret : β
  dhPublic : β
  kemSecret : β
  kemPublic : β
  pop : β

/-- One slot of the tree. -/
inductive TreeNode (β : Type)
  | blank
  | leaf (lp : LeafKeyPackage β)
  | parent (pk : NodePublicKey β)
  deriving DecidableEq

/-- The key pair `derive_node_keypair` returns. -/
structure NodeKeypair (β : Type) where
  dhSecret : β
  dhPublic : β
  kemSecret : β
  kemPublic : β

/-- The public half of a key pair. -/
def NodeKeypair.public {β : Type} (kp : NodeKeypair β) : NodePublicKey β :=
  ⟨kp.dhPublic, kp.kemPublic⟩

/-- A payload sealed to one node. -/
structure SealedToNode (β : Type) where
  ephDhPublic : β
  kemCt : β
  ciphertext : β
  deriving DecidableEq

/-- The randomness one `seal_to_node` draws. -/
structure SealCoins (β : Type) where
  ephSecret : β
  kemRandom : β

section Definitions

variable {β : Type} [Crypto β]

/-- `NodePublicKey::write`. -/
def NodePublicKey.write (pk : NodePublicKey β) : β := frame [pk.dhPublic, pk.kemPublic]

/-- `NodePublicKey::read`. -/
def NodePublicKey.read (bytes : β) : Result (NodePublicKey β) :=
  match unframe bytes with
  | some [dhPublic, kemPublic] => .ok ⟨dhPublic, kemPublic⟩
  | _ => .err (.malformed "unexpected end of message")

/-- What a leaf key package's proof of possession covers. -/
def leafKeyPackagePopMessage (identity : β) (publicKey : NodePublicKey β) : β :=
  frame [leafKeyPackagePopContext, identity, publicKey.write]

/-- The proof of possession of a leaf key package verifies. -/
def LeafKeyPackage.popValid (lp : LeafKeyPackage β) : Bool :=
  verify lp.identity (leafKeyPackagePopMessage lp.identity lp.publicKey) lp.pop

/-- `LeafKeyPackage::write`. -/
def LeafKeyPackage.write (lp : LeafKeyPackage β) : β :=
  frame [lp.identity, lp.publicKey.write, lp.pop]

/-- `LeafKeyPackage::read`: the proof of possession is checked before the package is trusted. -/
def LeafKeyPackage.read (bytes : β) : Result (LeafKeyPackage β) :=
  match unframe bytes with
  | some [identity, key, pop] => do
    let publicKey ← NodePublicKey.read key
    let lp : LeafKeyPackage β := ⟨identity, publicKey, pop⟩
    if lp.popValid then pure lp else .err .badSignature
  | _ => .err (.malformed "unexpected end of message")

/-- `MyLeafKeyPackage::generate`, from the signing identity's secret and the two secret keys
drawn. -/
def MyLeafKeyPackage.generate (signingIdentity dhSecret kemSecret : β) : MyLeafKeyPackage β :=
  let identity := publicIdentity signingIdentity
  let publicKey : NodePublicKey β := ⟨x25519Public dhSecret, mlKemPublic kemSecret⟩
  { identity := identity
    dhSecret := dhSecret
    dhPublic := publicKey.dhPublic
    kemSecret := kemSecret
    kemPublic := publicKey.kemPublic
    pop := sign signingIdentity (leafKeyPackagePopMessage identity publicKey) }

omit [Crypto β] in
/-- The published key of a private package. -/
def MyLeafKeyPackage.publicKey (kp : MyLeafKeyPackage β) : NodePublicKey β :=
  ⟨kp.dhPublic, kp.kemPublic⟩

omit [Crypto β] in
/-- `MyLeafKeyPackage::public`. -/
def MyLeafKeyPackage.public (kp : MyLeafKeyPackage β) : LeafKeyPackage β :=
  { identity := kp.identity, publicKey := kp.publicKey, pop := kp.pop }

/-! ### Sealing to a node -/

/-- `kex::checked_dh`: an exchange that contributed no entropy is rejected. -/
def checkedDh (shared : β) : Result β :=
  if wasContributory shared then .ok shared
  else .err (.malformed
    "peer's X25519 public key has small order: the exchange contributed no entropy")

/-- `derive_seal_key`: the hybrid combiner. -/
def deriveSealKey (dh kemSs : β) : β :=
  hkdfExpand 32 (hkdfExtract none (frame [dh, kemSs])) labelSealKey

/-- `aead_seal`: a single-use key with the all-zero nonce. -/
def aeadSeal (key aad plaintext : β) : β := aeadEncrypt key zeroNonce aad plaintext

/-- `aead_seal_open`. -/
def aeadSealOpen (key aad record : β) : Result β :=
  match aeadDecrypt key zeroNonce aad record with
  | some plaintext => .ok plaintext
  | none => .err .decrypt

/-- `seal_to_node`. -/
def sealToNode (coins : SealCoins β) (target : NodePublicKey β) (aad plaintext : β) :
    Result (SealedToNode β) := do
  let dh ← checkedDh (diffieHellman coins.ephSecret target.dhPublic)
  let (kemCt, kemSs) := encapsulate target.kemPublic coins.kemRandom
  pure ⟨x25519Public coins.ephSecret, kemCt, aeadSeal (deriveSealKey dh kemSs) aad plaintext⟩

/-- `open_from_node`. -/
def openFromNode (dhSecret kemSecret aad : β) (sealed : SealedToNode β) : Result β := do
  let dh ← checkedDh (diffieHellman dhSecret sealed.ephDhPublic)
  let kemSs := decapsulate kemSecret sealed.kemCt
  aeadSealOpen (deriveSealKey dh kemSs) aad sealed.ciphertext

/-- `SealedToNode::write`. -/
def SealedToNode.write (s : SealedToNode β) : β := frame [s.ephDhPublic, s.kemCt, s.ciphertext]

/-! ### Derivations -/

/-- `derive_node_keypair`: the key pair a path secret determines. -/
def deriveNodeKeypair (secret : β) : NodeKeypair β :=
  let seedBytes := hkdfExpand 96 (hkdfExtract none secret) labelNodeKeygen
  let dhSecret := slice 0 32 seedBytes
  let kemSecret := slice 32 96 seedBytes
  { dhSecret := dhSecret
    dhPublic := x25519Public dhSecret
    kemSecret := kemSecret
    kemPublic := mlKemPublic kemSecret }

/-- `hkdf_expand32`. -/
def hkdfExpand32 (secret label : β) : β := hkdfExpand 32 (hkdfExtract none secret) label

/-- The path secret one level up. -/
def pathStep (secret : β) : β := hkdfExpand32 secret labelPathStep

/-- `initial_epoch_secret`, from the 32 bytes drawn. -/
def initialEpochSecret (init groupId : β) : β :=
  hkdfExpand 32 (hkdfExtract none (frame [init, groupId])) labelEpochSecret

/-- `genesis_transcript_hash`. -/
def genesisTranscriptHash (groupId : β) : β := sha256 groupId

/-- `derive_application_secret`. -/
def deriveApplicationSecret (epochSecret : β) : β :=
  hkdfExpand 32 (hkdfExtract none epochSecret) labelApplicationSecret

/-- The transcript hash after a commit. -/
def nextTranscriptHash (transcriptHash signedCommitBytes : β) : β :=
  sha256 (frame [transcriptHash, signedCommitBytes])

/-- The epoch secret after a commit: the commit secret mixed into the previous one. -/
def nextEpochSecret (epochSecret commitSecret transcriptHash : β) : β :=
  hkdfExpand 32 (hkdfExtract (some epochSecret) commitSecret)
    (frame [labelEpochSecret, transcriptHash])

/-- `derive_sender_chain`. -/
def deriveSenderChain (applicationSecret : β) (leaf : ℕ) : β :=
  hkdfExpand 32 (hkdfExtract none applicationSecret) (frame [labelSenderChain, num leaf])

/-- `ChainKey::advance`: the next chain key and a message key. -/
def advance (chain : β) : β × β := (hmac chain labelNextChain, hmac chain labelMessageKey)

end Definitions

/-! ### Opening inverts sealing -/

section Lemmas

variable {β : Type} [Crypto β]

theorem checkedDh_eq_ok {x y : β} : checkedDh x = .ok y ↔ wasContributory x = true ∧ y = x := by
  unfold checkedDh
  split_ifs with h
  · simp [h, eq_comm]
  · simp [h]

theorem sealToNode_eq_ok {coins : SealCoins β} {target : NodePublicKey β} {aad m : β}
    {s : SealedToNode β} (h : sealToNode coins target aad m = .ok s) :
    wasContributory (diffieHellman coins.ephSecret target.dhPublic) = true ∧
    s = ⟨x25519Public coins.ephSecret, (encapsulate target.kemPublic coins.kemRandom).1,
      aeadSeal (deriveSealKey (diffieHellman coins.ephSecret target.dhPublic)
        (encapsulate target.kemPublic coins.kemRandom).2) aad m⟩ := by
  obtain ⟨dh, hdh, h⟩ := Result.bind_eq_ok.1 h
  obtain ⟨hc, rfl⟩ := checkedDh_eq_ok.1 hdh
  simp only [Result.pure_eq_ok, Except.ok.injEq] at h
  exact ⟨hc, h.symm⟩

variable [LawfulCrypto β]

/-- The holder of the secret keys opens what was sealed to their public halves. -/
theorem openFromNode_sealToNode {coins : SealCoins β} {dhSecret kemSecret aad m : β}
    {s : SealedToNode β}
    (h : sealToNode coins ⟨x25519Public dhSecret, mlKemPublic kemSecret⟩ aad m = .ok s) :
    openFromNode dhSecret kemSecret aad s = .ok m := by
  obtain ⟨hc, rfl⟩ := sealToNode_eq_ok h
  simp only at hc
  rw [LawfulCrypto.diffieHellman_comm] at hc
  simp only [openFromNode, checkedDh, hc, ↓reduceIte, Result.ok_bind,
    LawfulCrypto.decapsulate_encapsulate, aeadSealOpen, aeadSeal,
    LawfulCrypto.diffieHellman_comm coins.ephSecret dhSecret,
    LawfulCrypto.aeadDecrypt_aeadEncrypt]

/-- Whoever opens an envelope finds the message that was sealed into it. -/
theorem eq_of_openFromNode {coins : SealCoins β} {target : NodePublicKey β}
    {dhSecret kemSecret aad aad' m m' : β} {s : SealedToNode β}
    (hs : sealToNode coins target aad m = .ok s)
    (ho : openFromNode dhSecret kemSecret aad' s = .ok m') : m' = m := by
  obtain ⟨-, rfl⟩ := sealToNode_eq_ok hs
  obtain ⟨dh, -, ho⟩ := Result.bind_eq_ok.1 ho
  simp only [aeadSealOpen, aeadSeal] at ho
  split at ho
  · rename_i p hp
    simp only [Except.ok.injEq] at ho
    exact ho ▸ LawfulCrypto.eq_of_aeadDecrypt hp
  · cases ho

@[simp] theorem NodePublicKey.read_write (pk : NodePublicKey β) :
    NodePublicKey.read pk.write = .ok pk := by
  simp [NodePublicKey.read, NodePublicKey.write]

@[simp] theorem LeafKeyPackage.read_write {lp : LeafKeyPackage β} (h : lp.popValid = true) :
    LeafKeyPackage.read lp.write = .ok lp := by
  obtain ⟨identity, publicKey, pop⟩ := lp
  simp only [LeafKeyPackage.read, LeafKeyPackage.write, LawfulCrypto.unframe_frame,
    NodePublicKey.read_write, Result.ok_bind, h, ↓reduceIte, Result.pure_eq_ok]

theorem MyLeafKeyPackage.generate_popValid (signingIdentity dhSecret kemSecret : β) :
    (MyLeafKeyPackage.generate signingIdentity dhSecret kemSecret).public.popValid = true := by
  simp [LeafKeyPackage.popValid, MyLeafKeyPackage.public, MyLeafKeyPackage.generate,
    MyLeafKeyPackage.publicKey]

end Lemmas

end Group

end NovaChannel
