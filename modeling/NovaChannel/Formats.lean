import NovaChannel.Wire
import NovaChannel.Group.Commit

/-!
# The messages on the wire

The `write` and `read` of the public messages, field by field.  Third-party keys, ciphertexts and
signatures have canonical encodings of a fixed length: such a value is its encoding.

* `WireKeys` : which byte strings the third-party decoders accept;
* `codec_leafKeyPackage`, `codec_groupOp`, `codec_updatePathNode`, `codec_welcomeSnapshot` :
  **reading and writing belong together**;
* `Commit.read_write`, `Commit.read_eq_ok` : the same for commits, whose reader skips the context.
-/

namespace NovaChannel

namespace Wire

/-! ### Third-party values -/

/-- The decoders and verifiers of the third-party crates. -/
class WireKeys where
  /-- `VerifyingKey::from_bytes` of Ed25519. -/
  ed25519Public : Bytes → Bool
  /-- `Signature::from_slice` of Ed25519. -/
  ed25519Signature : Bytes → Bool
  /-- `new_from_slice` of an ML-DSA-87 key. -/
  mlDsaPublic : Bytes → Bool
  /-- `try_from` of an ML-DSA-87 signature. -/
  mlDsaSignature : Bytes → Bool
  /-- `new_from_slice` of an ML-KEM-1024 key. -/
  mlKemPublic : Bytes → Bool
  /-- `try_from` of an ML-KEM-1024 ciphertext. -/
  mlKemCiphertext : Bytes → Bool
  length_ed25519Public : ∀ b, ed25519Public b → b.length = 32
  length_ed25519Signature : ∀ b, ed25519Signature b → b.length = 64
  length_mlDsaPublic : ∀ b, mlDsaPublic b → b.length = 2592
  length_mlDsaSignature : ∀ b, mlDsaSignature b → b.length = 4627
  length_mlKemPublic : ∀ b, mlKemPublic b → b.length = 1568
  length_mlKemCiphertext : ∀ b, mlKemCiphertext b → b.length = 1568
  /-- `verify_strict`: key, message, signature. -/
  ed25519Verify : Bytes → Bytes → Bytes → Bool
  /-- `verify` of ML-DSA-87. -/
  mlDsaVerify : Bytes → Bytes → Bytes → Bool

/-- A value that its decoder accepts. -/
abbrev Checked (valid : Bytes → Bool) : Type := {bytes : Bytes // valid bytes}

/-- Decoding. -/
def decode (valid : Bytes → Bool) (invalid : String) (bytes : Bytes) : Parser (Checked valid) :=
  if h : valid bytes then pure ⟨bytes, h⟩ else throw (.error (.malformed invalid))

/-- A value of a fixed-length field. -/
def getCheckedFixed (n : ℕ) (valid : Bytes → Bool) (invalid : String) : Parser (Checked valid) := do
  let array ← getArray n
  decode valid invalid array.1

/-- A value of a variable field. -/
def getCheckedVar (valid : Bytes → Bool) (invalid : String) : Parser (Checked valid) := do
  let bytes ← getVar
  decode valid invalid bytes

/-- An X25519 public key: any 32 bytes. -/
abbrev X25519Public : Type := FixedBytes 32

/-- `x25519_public_from_bytes`. -/
def x25519PublicFromBytes (bytes : Bytes) : Parser X25519Public :=
  if h : bytes.length = 32 then pure ⟨bytes, h⟩
  else throw (.error (.malformed "invalid x25519 public key length"))

/-- `x25519_public_from_bytes(r.get_fixed(32)?)`. -/
def getX25519Public : Parser X25519Public := do
  let bytes ← getFixed 32
  x25519PublicFromBytes bytes

theorem codec_decode {valid : Bytes → Bool} (invalid : String) (b : Bytes) :
    Codec (fun c : Checked valid => c.1 = b) (fun _ => []) (decode valid invalid b) where
  back c rest hc := by
    subst hc
    rw [decode, dif_pos c.2]
    rfl
  canonical bytes c rest hread := by
    unfold decode at hread
    split_ifs at hread with hvalid
    · cases hread
      exact ⟨rfl, rfl⟩
    · cases hread
  safe bytes := by
    unfold decode
    split_ifs <;> simp

theorem codec_getCheckedFixed {n : ℕ} {valid : Bytes → Bool} (hlen : ∀ b, valid b → b.length = n)
    (invalid : String) :
    Codec (fun _ : Checked valid => True) (fun c => c.1) (getCheckedFixed n valid invalid) where
  back c rest _ := by
    rw [getCheckedFixed, bind_of_ok ((codec_getArray n).back ⟨c.1, hlen c.1 c.2⟩ rest trivial)]
    exact (codec_decode invalid c.1).back c rest rfl
  canonical bytes c rest hread := by
    obtain ⟨a, mid, ha, hrest⟩ := bind_eq_ok.1 hread
    obtain ⟨-, rfl⟩ := (codec_getArray n).canonical _ _ _ ha
    obtain ⟨hc, rfl⟩ := (codec_decode invalid a.1).canonical _ _ _ hrest
    exact ⟨trivial, by rw [hc]⟩
  safe bytes := bind_ne_panic ((codec_getArray n).safe bytes) fun a mid _ =>
    (codec_decode invalid a.1).safe mid

theorem codec_getCheckedVar {valid : Bytes → Bool} {n : ℕ} (hlen : ∀ b, valid b → b.length = n)
    (hn : n < 2 ^ 64) (invalid : String) :
    Codec (fun _ : Checked valid => True) (fun c => putVar c.1) (getCheckedVar valid invalid) where
  back c rest _ := by
    have hc : c.1.length < 2 ^ 64 := by rwa [hlen c.1 c.2]
    rw [getCheckedVar, bind_of_ok (codec_getVar.back _ _ hc)]
    exact (codec_decode invalid c.1).back c rest rfl
  canonical bytes c rest hread := by
    obtain ⟨a, mid, ha, hrest⟩ := bind_eq_ok.1 hread
    obtain ⟨-, rfl⟩ := codec_getVar.canonical _ _ _ ha
    obtain ⟨rfl, rfl⟩ := (codec_decode invalid a).canonical _ _ _ hrest
    exact ⟨trivial, rfl⟩
  safe bytes := bind_ne_panic (codec_getVar.safe bytes) fun a mid _ =>
    (codec_decode invalid a).safe mid

theorem codec_getX25519Public :
    Codec (fun _ : X25519Public => True) (fun c => c.1) getX25519Public where
  back c rest _ := by
    rw [getX25519Public, bind_of_ok (getFixed_append c.2 rest), x25519PublicFromBytes, dif_pos c.2]
    rfl
  canonical bytes c rest hread := by
    obtain ⟨a, mid, ha, hrest⟩ := bind_eq_ok.1 hread
    obtain ⟨hlen, hbytes⟩ := getFixed_eq_ok ha
    rw [x25519PublicFromBytes, dif_pos hlen] at hrest
    cases hrest
    exact ⟨trivial, hbytes⟩
  safe bytes := by
    refine bind_ne_panic (getFixed_ne_panic _ _) fun a mid ha => ?_
    rw [x25519PublicFromBytes, dif_pos (getFixed_eq_ok ha).1]
    simp

variable [WireKeys]

/-- An ML-KEM-1024 encapsulation key. -/
abbrev MlKemPublic : Type := Checked WireKeys.mlKemPublic

/-- An ML-KEM-1024 ciphertext. -/
abbrev MlKemCiphertext : Type := Checked WireKeys.mlKemCiphertext

/-- `ml_kem_public_from_bytes(r.get_var()?)`. -/
def getMlKemPublic : Parser MlKemPublic := getCheckedVar _ "invalid ML-KEM public key"

theorem codec_getMlKemPublic :
    Codec (fun _ : MlKemPublic => True) (fun c => putVar c.1) getMlKemPublic :=
  codec_getCheckedVar WireKeys.length_mlKemPublic (by norm_num) _

/-- `ml_kem_ciphertext_from_bytes(r.get_var()?)`. -/
def getMlKemCiphertext : Parser MlKemCiphertext := getCheckedVar _ "invalid ML-KEM ciphertext"

theorem codec_getMlKemCiphertext :
    Codec (fun _ : MlKemCiphertext => True) (fun c => putVar c.1) getMlKemCiphertext :=
  codec_getCheckedVar WireKeys.length_mlKemCiphertext (by norm_num) _

/-! ### Identities and signatures -/

/-- `PublicIdentity`. -/
structure PublicIdentity where
  ed25519 : Checked WireKeys.ed25519Public
  mlDsa : Checked WireKeys.mlDsaPublic

/-- `HybridSignature`. -/
structure HybridSignature where
  ed25519 : Checked WireKeys.ed25519Signature
  mlDsa : Checked WireKeys.mlDsaSignature

namespace PublicIdentity

/-- `PublicIdentity::write`. -/
def write (identity : PublicIdentity) : Bytes := identity.ed25519.1 ++ putVar identity.mlDsa.1

/-- `PublicIdentity::read`. -/
def read : Parser PublicIdentity := do
  let ed25519 ← getCheckedFixed 32 WireKeys.ed25519Public "invalid ed25519 public key"
  let mlDsa ← getCheckedVar WireKeys.mlDsaPublic "invalid ML-DSA public key"
  pure ⟨ed25519, mlDsa⟩

/-- `PublicIdentity::verify`. -/
def verify (identity : PublicIdentity) (message : Bytes) (sig : HybridSignature) : Result Unit :=
  if !WireKeys.ed25519Verify identity.ed25519.1 message sig.ed25519.1 then
    Result.err .badSignature
  else if !WireKeys.mlDsaVerify identity.mlDsa.1 message sig.mlDsa.1 then Result.err .badSignature
  else .ok ()

end PublicIdentity

theorem codec_publicIdentity :
    Codec (fun _ => True) PublicIdentity.write PublicIdentity.read := by
  refine Codec.congr (Codec.bind (codec_getCheckedFixed WireKeys.length_ed25519Public _)
    (fun c : PublicIdentity => c.ed25519) (fun _ _ => trivial) fun a _ =>
    Codec.bind (codec_getCheckedVar WireKeys.length_mlDsaPublic (by norm_num) _)
      (fun c : PublicIdentity => c.mlDsa) (fun _ _ => trivial) fun b _ => codec_pure fun c => ?_) fun c => ?_
  · obtain ⟨c1, c2⟩ := c
    simp
  · simp [PublicIdentity.write]

namespace HybridSignature

/-- `HybridSignature::write`. -/
def write (sig : HybridSignature) : Bytes := sig.ed25519.1 ++ putVar sig.mlDsa.1

/-- `HybridSignature::read`. -/
def read : Parser HybridSignature := do
  let ed25519 ← getCheckedFixed 64 WireKeys.ed25519Signature "invalid ed25519 signature"
  let mlDsa ← getCheckedVar WireKeys.mlDsaSignature "invalid ML-DSA signature"
  pure ⟨ed25519, mlDsa⟩

end HybridSignature

theorem codec_hybridSignature :
    Codec (fun _ => True) HybridSignature.write HybridSignature.read := by
  refine Codec.congr (Codec.bind (codec_getCheckedFixed WireKeys.length_ed25519Signature _)
    (fun c : HybridSignature => c.ed25519) (fun _ _ => trivial) fun a _ =>
    Codec.bind (codec_getCheckedVar WireKeys.length_mlDsaSignature (by norm_num) _)
      (fun c : HybridSignature => c.mlDsa) (fun _ _ => trivial) fun b _ => codec_pure fun c => ?_) fun c => ?_
  · obtain ⟨c1, c2⟩ := c
    simp
  · simp [HybridSignature.write]

/-! ### Keys and leaves of a group -/

namespace PublicIdentity

theorem verify_ne_panic (identity : PublicIdentity) (message : Bytes) (sig : HybridSignature) :
    identity.verify message sig ≠ .error .panic := by
  unfold verify
  split_ifs <;> simp

end PublicIdentity

/-- `NodePublicKey`. -/
structure NodePublicKey where
  dhPublic : X25519Public
  kemPublic : MlKemPublic

/-- `NodePublicKey::write`. -/
def NodePublicKey.write (key : NodePublicKey) : Bytes := key.dhPublic.1 ++ putVar key.kemPublic.1

/-- `NodePublicKey::read`. -/
def NodePublicKey.read : Parser NodePublicKey := do
  let dhPublic ← getX25519Public
  let kemPublic ← getMlKemPublic
  pure ⟨dhPublic, kemPublic⟩

theorem codec_nodePublicKey : Codec (fun _ => True) NodePublicKey.write NodePublicKey.read := by
  refine Codec.congr (Codec.bind codec_getX25519Public (fun c : NodePublicKey => c.dhPublic)
    (fun _ _ => trivial) fun a _ => Codec.bind codec_getMlKemPublic
    (fun c : NodePublicKey => c.kemPublic) (fun _ _ => trivial) fun b _ =>
    codec_pure fun c => ?_) fun c => ?_
  · obtain ⟨c1, c2⟩ := c
    simp
  · simp [NodePublicKey.write]

/-- An ASCII literal. -/
def ascii (text : String) : Bytes := text.toList.map fun c => UInt8.ofNat c.toNat

/-- `LEAF_KEY_PACKAGE_POP_CONTEXT`. -/
def leafKeyPackagePopContext : Bytes := ascii "novachannel group v1 leaf key package"

/-- `leaf_key_package_pop_message`. -/
def leafKeyPackagePopMessage (identity : PublicIdentity) (publicKey : NodePublicKey) : Bytes :=
  leafKeyPackagePopContext ++ (identity.write ++ publicKey.write)

/-- `LeafKeyPackage`. -/
structure LeafKeyPackage where
  identity : PublicIdentity
  publicKey : NodePublicKey
  pop : HybridSignature

namespace LeafKeyPackage

/-- The proof of possession is valid. -/
def HasPop (package : LeafKeyPackage) : Prop :=
  package.identity.verify (leafKeyPackagePopMessage package.identity package.publicKey)
    package.pop = .ok ()

/-- `LeafKeyPackage::write`, and so `to_bytes`. -/
def write (package : LeafKeyPackage) : Bytes :=
  package.identity.write ++ (package.publicKey.write ++ package.pop.write)

/-- `LeafKeyPackage::read`. -/
def read : Parser LeafKeyPackage := do
  let identity ← PublicIdentity.read
  let publicKey ← NodePublicKey.read
  let pop ← HybridSignature.read
  ofResult (identity.verify (leafKeyPackagePopMessage identity publicKey) pop)
  pure ⟨identity, publicKey, pop⟩

/-- `LeafKeyPackage::from_bytes`. -/
def fromBytes (bytes : Bytes) : Result LeafKeyPackage :=
  readAll "trailing bytes in leaf key package" read bytes

end LeafKeyPackage

theorem codec_leafKeyPackage :
    Codec LeafKeyPackage.HasPop LeafKeyPackage.write LeafKeyPackage.read := by
  refine Codec.congr (Codec.bind codec_publicIdentity (fun c : LeafKeyPackage => c.identity)
    (fun _ _ => trivial) fun a _ => Codec.bind codec_nodePublicKey
    (fun c : LeafKeyPackage => c.publicKey) (fun _ _ => trivial) fun b _ =>
    Codec.bind codec_hybridSignature (fun c : LeafKeyPackage => c.pop) (fun _ _ => trivial)
    fun d _ => codec_check (PublicIdentity.verify_ne_panic _ _ _) fun c => ?_) fun c => ?_
  · obtain ⟨c1, c2, c3⟩ := c
    simp only [LeafKeyPackage.HasPop, LeafKeyPackage.mk.injEq]
    constructor
    · rintro ⟨⟨⟨h, rfl⟩, rfl⟩, rfl⟩
      exact ⟨h, rfl, rfl, rfl⟩
    · rintro ⟨h, rfl, rfl, rfl⟩
      exact ⟨⟨⟨h, rfl⟩, rfl⟩, rfl⟩
  · simp [LeafKeyPackage.write]

/-- `SealedToNode`. -/
structure SealedToNode where
  ephDhPublic : X25519Public
  kemCt : MlKemCiphertext
  ciphertext : Bytes

namespace SealedToNode

/-- The ciphertext fits an address space. -/
def Fits (sealedTo : SealedToNode) : Prop := sealedTo.ciphertext.length < 2 ^ 64

/-- `SealedToNode::write`. -/
def write (sealedTo : SealedToNode) : Bytes :=
  sealedTo.ephDhPublic.1 ++ (putVar sealedTo.kemCt.1 ++ putVar sealedTo.ciphertext)

/-- `SealedToNode::read`. -/
def read : Parser SealedToNode := do
  let ephDhPublic ← getX25519Public
  let kemCt ← getMlKemCiphertext
  let ciphertext ← getVar
  pure ⟨ephDhPublic, kemCt, ciphertext⟩

theorem write_pos (sealedTo : SealedToNode) : 0 < sealedTo.write.length := by
  rw [write, List.length_append, sealedTo.ephDhPublic.2]
  omega

end SealedToNode

theorem codec_sealedToNode : Codec SealedToNode.Fits SealedToNode.write SealedToNode.read := by
  refine Codec.congr (Codec.bind codec_getX25519Public (fun c : SealedToNode => c.ephDhPublic)
    (fun _ _ => trivial) fun a _ => Codec.bind codec_getMlKemCiphertext
    (fun c : SealedToNode => c.kemCt) (fun _ _ => trivial) fun b _ =>
    Codec.bind codec_getVar (fun c : SealedToNode => c.ciphertext) (fun c hc => hc.1.1) fun d hd =>
    codec_pure fun c => ?_) fun c => ?_
  · obtain ⟨c1, c2, c3⟩ := c
    simp only [SealedToNode.Fits, SealedToNode.mk.injEq]
    constructor
    · rintro ⟨⟨⟨-, rfl⟩, rfl⟩, rfl⟩
      exact ⟨rfl, rfl, rfl⟩
    · rintro ⟨rfl, rfl, rfl⟩
      exact ⟨⟨⟨hd, rfl⟩, rfl⟩, rfl⟩
  · simp [SealedToNode.write]

/-- `Welcome`. -/
structure Welcome where
  sealedTo : SealedToNode

/-- `Welcome::to_bytes`. -/
def Welcome.toBytes (welcome : Welcome) : Bytes := welcome.sealedTo.write

/-- `Welcome::from_bytes`. -/
def Welcome.fromBytes (bytes : Bytes) : Result Welcome := do
  let sealedTo ← readAll "trailing bytes in welcome" SealedToNode.read bytes
  .ok ⟨sealedTo⟩

/-! ### Commits -/

/-- `GroupOp`. -/
inductive GroupOp
  | add (leafIndex : UInt32) (keyPackage : LeafKeyPackage)
  | remove (leafIndex : UInt32)
  | update

namespace GroupOp

/-- A package that is added has a valid proof of possession. -/
def Valid : GroupOp → Prop
  | add _ keyPackage => keyPackage.HasPop
  | remove _ => True
  | update => True

/-- `GroupOp::write`. -/
def write : GroupOp → Bytes
  | add leafIndex keyPackage => [0] ++ (putU32 leafIndex ++ keyPackage.write)
  | remove leafIndex => [1] ++ putU32 leafIndex
  | update => [2]

/-- The fields of an add. -/
def readAdd : Parser GroupOp := do
  let leafIndex ← getU32
  let keyPackage ← LeafKeyPackage.read
  pure (add leafIndex keyPackage)

/-- The field of a removal. -/
def readRemove : Parser GroupOp := do
  let leafIndex ← getU32
  pure (remove leafIndex)

/-- `GroupOp::read`. -/
def read : Parser GroupOp := do
  let tag ← getByte
  if tag = 0 then readAdd
  else if tag = 1 then readRemove
  else if tag = 2 then pure update
  else throw (.error (.malformed "unknown group op tag"))

end GroupOp

theorem codec_groupOp : Codec GroupOp.Valid GroupOp.write GroupOp.read where
  back op rest hop := by
    cases op with
    | add leafIndex keyPackage =>
      rw [GroupOp.write, List.append_assoc, GroupOp.read,
        bind_of_ok (codec_getByte.back 0 _ trivial), if_pos rfl, List.append_assoc,
        GroupOp.readAdd, bind_of_ok (codec_getU32.back leafIndex _ trivial),
        bind_of_ok (codec_leafKeyPackage.back keyPackage rest hop)]
      rfl
    | remove leafIndex =>
      rw [GroupOp.write, List.append_assoc, GroupOp.read,
        bind_of_ok (codec_getByte.back 1 _ trivial), if_neg (by decide), if_pos rfl,
        GroupOp.readRemove, bind_of_ok (codec_getU32.back leafIndex _ trivial)]
      rfl
    | update =>
      rw [GroupOp.write, GroupOp.read, bind_of_ok (codec_getByte.back 2 _ trivial),
        if_neg (by decide), if_neg (by decide), if_pos rfl]
      rfl
  canonical bytes op rest hread := by
    obtain ⟨tag, mid, htag, hrest⟩ := bind_eq_ok.1 hread
    obtain ⟨-, rfl⟩ := codec_getByte.canonical _ _ _ htag
    split_ifs at hrest with h0 h1 h2
    · subst h0
      obtain ⟨leafIndex, mid', hleaf, hrest⟩ := bind_eq_ok.1 hrest
      obtain ⟨keyPackage, mid'', hpackage, hpure⟩ := bind_eq_ok.1 hrest
      obtain ⟨-, rfl⟩ := codec_getU32.canonical _ _ _ hleaf
      obtain ⟨hpop, rfl⟩ := codec_leafKeyPackage.canonical _ _ _ hpackage
      cases hpure
      exact ⟨hpop, by simp [GroupOp.write]⟩
    · subst h1
      obtain ⟨leafIndex, mid', hleaf, hpure⟩ := bind_eq_ok.1 hrest
      obtain ⟨-, rfl⟩ := codec_getU32.canonical _ _ _ hleaf
      cases hpure
      exact ⟨trivial, by simp [GroupOp.write]⟩
    · subst h2
      cases hrest
      exact ⟨trivial, rfl⟩
    · cases hrest
  safe bytes := by
    refine bind_ne_panic (codec_getByte.safe bytes) fun tag mid _ => ?_
    split_ifs
    · refine bind_ne_panic (codec_getU32.safe _) fun leafIndex mid' _ => ?_
      exact bind_ne_panic (codec_leafKeyPackage.safe _) fun keyPackage mid'' _ => by simp
    · exact bind_ne_panic (codec_getU32.safe _) fun leafIndex mid' _ => by simp
    · simp
    · simp

/-- `UpdatePathNode`. -/
structure UpdatePathNode where
  publicKey : NodePublicKey
  ciphertexts : List SealedToNode

namespace UpdatePathNode

/-- The counts and lengths fit their fields. -/
def Fits (node : UpdatePathNode) : Prop :=
  node.ciphertexts.length < 2 ^ 32 ∧ ∀ sealedTo ∈ node.ciphertexts, sealedTo.Fits

/-- `UpdatePathNode::write`. -/
def write (node : UpdatePathNode) : Bytes :=
  node.publicKey.write ++ putCounted SealedToNode.write node.ciphertexts

/-- `UpdatePathNode::read`. -/
def read : Parser UpdatePathNode := do
  let publicKey ← NodePublicKey.read
  let ciphertexts ← readCounted
    "update path node declares more ciphertexts than its message can hold" SealedToNode.read
  pure ⟨publicKey, ciphertexts⟩

theorem write_pos (node : UpdatePathNode) : 0 < node.write.length := by
  rw [write, putCounted, List.length_append, List.length_append, length_putU32]
  omega

end UpdatePathNode

theorem codec_updatePathNode :
    Codec UpdatePathNode.Fits UpdatePathNode.write UpdatePathNode.read := by
  refine Codec.congr (Codec.bind codec_nodePublicKey (fun c : UpdatePathNode => c.publicKey)
    (fun _ _ => trivial) fun a _ => Codec.bind
    (codec_sealedToNode.counted SealedToNode.write_pos _)
    (fun c : UpdatePathNode => c.ciphertexts) (fun c hc => hc.1) fun b hb =>
    codec_pure fun c => ?_) fun c => ?_
  · obtain ⟨c1, c2⟩ := c
    simp only [UpdatePathNode.Fits, UpdatePathNode.mk.injEq]
    constructor
    · rintro ⟨⟨-, rfl⟩, rfl⟩
      exact ⟨rfl, rfl⟩
    · rintro ⟨rfl, rfl⟩
      exact ⟨⟨hb, rfl⟩, rfl⟩
  · simp [UpdatePathNode.write]

/-- `COMMIT_SIGNATURE_CONTEXT`. -/
def commitSignatureContext : Bytes := ascii "novachannel group v1 commit"

/-- What `commit_signed_bytes` writes after the context. -/
def commitFields (groupId : FixedBytes 16) (fromEpoch : UInt64) (senderLeaf : UInt32)
    (op : GroupOp) (path : List UpdatePathNode) : Bytes :=
  groupId.1 ++ (putU64 fromEpoch ++ (putU32 senderLeaf ++ (op.write ++
    putCounted UpdatePathNode.write path)))

/-- `commit_signed_bytes`. -/
def commitSignedBytes (groupId : FixedBytes 16) (fromEpoch : UInt64) (senderLeaf : UInt32)
    (op : GroupOp) (path : List UpdatePathNode) : Bytes :=
  commitSignatureContext ++ commitFields groupId fromEpoch senderLeaf op path

/-- `Commit`. -/
structure Commit where
  groupId : FixedBytes 16
  fromEpoch : UInt64
  senderLeaf : UInt32
  op : GroupOp
  path : List UpdatePathNode
  signature : HybridSignature

namespace Commit

/-- The fields after the context. -/
def fields (commit : Commit) : Bytes :=
  commitFields commit.groupId commit.fromEpoch commit.senderLeaf commit.op commit.path

/-- The bytes its signature is about. -/
def signedBytes (commit : Commit) : Bytes :=
  commitSignedBytes commit.groupId commit.fromEpoch commit.senderLeaf commit.op commit.path

/-- The counts and lengths fit their fields. -/
def FieldsFit (commit : Commit) : Prop :=
  commit.op.Valid ∧ commit.path.length < 2 ^ 32 ∧ ∀ node ∈ commit.path, node.Fits

/-- The signed section fits an address space as well. -/
def Fits (commit : Commit) : Prop := commit.FieldsFit ∧ commit.signedBytes.length < 2 ^ 64

/-- `Commit::write`, and so `to_bytes`. -/
def write (commit : Commit) : Bytes := putVar commit.signedBytes ++ commit.signature.write

/-- The fields that `Commit::read` reads after the context. -/
def readFields (signature : HybridSignature) : Parser Commit := do
  let groupId ← getArray 16
  let fromEpoch ← getU64
  let senderLeaf ← getU32
  let op ← GroupOp.read
  let path ← readCounted "commit declares a longer update path than its message can hold"
    UpdatePathNode.read
  pure ⟨groupId, fromEpoch, senderLeaf, op, path, signature⟩

/-- The signed section, whose first bytes `Commit::read` skips. -/
def readSigned (signature : HybridSignature) : Parser Commit := do
  let _context ← getFixed commitSignatureContext.length
  readFields signature

/-- `Commit::read`. -/
def read : Parser Commit := do
  let signed ← getVar
  let signature ← HybridSignature.read
  ofResult (readAll "trailing bytes in commit's signed section" (readSigned signature) signed)

/-- `Commit::from_bytes`. -/
def fromBytes (bytes : Bytes) : Result Commit := readAll "trailing bytes in commit" read bytes

end Commit

theorem codec_commitFields (signature : HybridSignature) :
    Codec (fun commit => commit.FieldsFit ∧ commit.signature = signature) Commit.fields
      (Commit.readFields signature) := by
  refine Codec.congr (Codec.bind (codec_getArray 16) (fun c : Commit => c.groupId)
    (fun _ _ => trivial) fun a _ => Codec.bind codec_getU64 (fun c : Commit => c.fromEpoch)
    (fun _ _ => trivial) fun b _ => Codec.bind codec_getU32 (fun c : Commit => c.senderLeaf)
    (fun _ _ => trivial) fun d _ => Codec.bind codec_groupOp (fun c : Commit => c.op)
    (fun c hc => hc.1.1.1.1.1) fun op hop => Codec.bind
    (codec_updatePathNode.counted UpdatePathNode.write_pos _) (fun c : Commit => c.path)
    (fun c hc => hc.1.1.1.1.1.2) fun path hpath => codec_pure fun c => ?_) fun c => ?_
  · obtain ⟨c1, c2, c3, c4, c5, c6⟩ := c
    simp only [Commit.FieldsFit, Commit.mk.injEq]
    constructor
    · rintro ⟨⟨⟨⟨⟨⟨-, rfl⟩, rfl⟩, rfl⟩, rfl⟩, rfl⟩, rfl⟩
      exact ⟨rfl, rfl, rfl, rfl, rfl, rfl⟩
    · rintro ⟨rfl, rfl, rfl, rfl, rfl, rfl⟩
      exact ⟨⟨⟨⟨⟨⟨⟨hop, hpath⟩, rfl⟩, rfl⟩, rfl⟩, rfl⟩, rfl⟩, rfl⟩
  · simp [Commit.fields, commitFields]

namespace Commit

/-- **What `Commit::read` accepts**: any context of the right length in front of the fields. -/
theorem read_eq_ok {bytes rest : Bytes} {commit : Commit} :
    read bytes = .ok (commit, rest) ↔ commit.FieldsFit ∧ ∃ context : Bytes,
      context.length = commitSignatureContext.length ∧
      (context ++ commit.fields).length < 2 ^ 64 ∧
      bytes = putVar (context ++ commit.fields) ++ (commit.signature.write ++ rest) := by
  constructor
  · intro h
    obtain ⟨signed, mid, hsigned, h⟩ := bind_eq_ok.1 h
    obtain ⟨signature, mid', hsignature, hall⟩ := bind_eq_ok.1 h
    obtain ⟨hlen, rfl⟩ := codec_getVar.canonical _ _ _ hsigned
    obtain ⟨-, rfl⟩ := codec_hybridSignature.canonical _ _ _ hsignature
    obtain ⟨hread, rfl⟩ := ofResult_eq_ok.1 hall
    obtain ⟨context, fields, hcontext, hfields⟩ := bind_eq_ok.1 (readAll_eq_ok.1 hread)
    obtain ⟨hclen, rfl⟩ := getFixed_eq_ok hcontext
    obtain ⟨⟨hfit, rfl⟩, rfl⟩ := (codec_commitFields signature).canonical _ _ _ hfields
    rw [List.append_nil] at hlen ⊢
    exact ⟨hfit, context, hclen, hlen, rfl⟩
  · rintro ⟨hfit, context, hclen, hlen, rfl⟩
    rw [read, bind_of_ok (codec_getVar.back _ _ hlen),
      bind_of_ok (codec_hybridSignature.back _ _ trivial)]
    refine ofResult_eq_ok.2 ⟨?_, rfl⟩
    have hfields := (codec_commitFields commit.signature).back commit [] ⟨hfit, rfl⟩
    rw [List.append_nil] at hfields
    rw [readAll_eq_ok, readSigned, bind_of_ok (getFixed_append hclen _), hfields]

theorem read_ne_panic (bytes : Bytes) : read bytes ≠ .error .panic := by
  refine bind_ne_panic (codec_getVar.safe _) fun signed mid _ => ?_
  refine bind_ne_panic (codec_hybridSignature.safe _) fun signature mid' _ => ?_
  refine ofResult_ne_panic (readAll_ne_panic ?_) mid'
  exact bind_ne_panic (getFixed_ne_panic _ _) fun context fields _ =>
    (codec_commitFields signature).safe fields

end Commit

/-! ### The snapshot in a welcome -/

/-- `TreeNode`. -/
inductive TreeNode
  | blank
  | leaf (package : LeafKeyPackage)
  | parent (publicKey : NodePublicKey)

namespace TreeNode

/-- A leaf has a valid proof of possession. -/
def Valid : TreeNode → Prop
  | blank => True
  | leaf package => package.HasPop
  | parent _ => True

/-- A node, as `WelcomeSnapshot::write` writes it. -/
def write : TreeNode → Bytes
  | blank => [0]
  | leaf package => [1] ++ package.write
  | parent publicKey => [2] ++ publicKey.write

/-- The field of a leaf. -/
def readLeaf : Parser TreeNode := do
  let package ← LeafKeyPackage.read
  pure (leaf package)

/-- The field of a parent. -/
def readParent : Parser TreeNode := do
  let publicKey ← NodePublicKey.read
  pure (parent publicKey)

/-- A node, as `WelcomeSnapshot::read` reads it. -/
def read : Parser TreeNode := do
  let tag ← getByte
  if tag = 0 then pure blank
  else if tag = 1 then readLeaf
  else if tag = 2 then readParent
  else throw (.error (.malformed "unknown tree node tag in welcome snapshot"))

end TreeNode

theorem codec_treeNode : Codec TreeNode.Valid TreeNode.write TreeNode.read where
  back node rest hnode := by
    cases node with
    | blank =>
      rw [TreeNode.write, TreeNode.read, bind_of_ok (codec_getByte.back 0 _ trivial), if_pos rfl]
      rfl
    | leaf package =>
      rw [TreeNode.write, List.append_assoc, TreeNode.read,
        bind_of_ok (codec_getByte.back 1 _ trivial), if_neg (by decide), if_pos rfl,
        TreeNode.readLeaf, bind_of_ok (codec_leafKeyPackage.back package rest hnode)]
      rfl
    | parent publicKey =>
      rw [TreeNode.write, List.append_assoc, TreeNode.read,
        bind_of_ok (codec_getByte.back 2 _ trivial), if_neg (by decide), if_neg (by decide),
        if_pos rfl, TreeNode.readParent, bind_of_ok (codec_nodePublicKey.back publicKey rest trivial)]
      rfl
  canonical bytes node rest hread := by
    obtain ⟨tag, mid, htag, hrest⟩ := bind_eq_ok.1 hread
    obtain ⟨-, rfl⟩ := codec_getByte.canonical _ _ _ htag
    split_ifs at hrest with h0 h1 h2
    · subst h0
      cases hrest
      exact ⟨trivial, rfl⟩
    · subst h1
      obtain ⟨package, mid', hpackage, hpure⟩ := bind_eq_ok.1 hrest
      obtain ⟨hpop, rfl⟩ := codec_leafKeyPackage.canonical _ _ _ hpackage
      cases hpure
      exact ⟨hpop, by simp [TreeNode.write]⟩
    · subst h2
      obtain ⟨publicKey, mid', hkey, hpure⟩ := bind_eq_ok.1 hrest
      obtain ⟨-, rfl⟩ := codec_nodePublicKey.canonical _ _ _ hkey
      cases hpure
      exact ⟨trivial, by simp [TreeNode.write]⟩
    · cases hrest
  safe bytes := by
    refine bind_ne_panic (codec_getByte.safe bytes) fun tag mid _ => ?_
    split_ifs
    · simp
    · exact bind_ne_panic (codec_leafKeyPackage.safe _) fun package mid' _ => by simp
    · exact bind_ne_panic (codec_nodePublicKey.safe _) fun publicKey mid' _ => by simp
    · simp

/-- `WelcomeSnapshot`. -/
structure WelcomeSnapshot where
  groupId : FixedBytes 16
  capacity : UInt32
  epoch : UInt64
  epochSecret : FixedBytes 32
  transcriptHash : FixedBytes 32
  nodes : List TreeNode
  targetLeaf : UInt32

namespace WelcomeSnapshot

/-- The checks between the fixed fields and the nodes. -/
def checkBounds (capacity targetLeaf : UInt32) : Result Unit :=
  if !Group.capacityValid capacity.toNat then
    Result.err (.malformed "welcome snapshot capacity must be a power of two of at least 2")
  else if capacity.toNat > Group.maxCapacity then
    Result.err (.malformed "welcome snapshot capacity exceeds this implementation's sanity bound")
  else if targetLeaf ≥ capacity then
    Result.err (.malformed "welcome snapshot target leaf is not within its own capacity")
  else .ok ()

/-- A tree of the capacity it says, of valid leaves. -/
def WellFormed (snapshot : WelcomeSnapshot) : Prop :=
  checkBounds snapshot.capacity snapshot.targetLeaf = .ok () ∧
    snapshot.nodes.length = 2 * snapshot.capacity.toNat - 1 ∧
    ∀ node ∈ snapshot.nodes, node.Valid

/-- `WelcomeSnapshot::write`. -/
def write (snapshot : WelcomeSnapshot) : Bytes :=
  snapshot.groupId.1 ++ (putU32 snapshot.capacity ++ (putU64 snapshot.epoch ++
    (snapshot.epochSecret.1 ++ (snapshot.transcriptHash.1 ++ (putU32 snapshot.targetLeaf ++
      snapshot.nodes.flatMap TreeNode.write)))))

/-- The node list, reserved at once. -/
def readNodes (capacity : UInt32) : Parser (List TreeNode) := do
  reserve (2 * capacity.toNat - 1) (2 * Group.maxCapacity - 1)
  readMany TreeNode.read (2 * capacity.toNat - 1)

/-- `WelcomeSnapshot::read`. -/
def read : Parser WelcomeSnapshot := do
  let groupId ← getArray 16
  let capacity ← getU32
  let epoch ← getU64
  let epochSecret ← getArray 32
  let transcriptHash ← getArray 32
  let targetLeaf ← getU32
  ofResult (checkBounds capacity targetLeaf)
  let nodes ← readNodes capacity
  pure ⟨groupId, capacity, epoch, epochSecret, transcriptHash, nodes, targetLeaf⟩

omit [WireKeys] in
theorem checkBounds_ne_panic (capacity targetLeaf : UInt32) :
    checkBounds capacity targetLeaf ≠ .error .panic := by
  unfold checkBounds
  split_ifs <;> simp

omit [WireKeys] in
theorem capacity_le_of_checkBounds {capacity targetLeaf : UInt32}
    (h : checkBounds capacity targetLeaf = .ok ()) : capacity.toNat ≤ Group.maxCapacity := by
  unfold checkBounds at h
  split_ifs at h with _ hmax
  exact not_lt.1 hmax

end WelcomeSnapshot

/-- The nodes of a tree whose capacity was checked. -/
theorem codec_snapshotNodes {capacity : UInt32} (hmax : capacity.toNat ≤ Group.maxCapacity) :
    Codec (fun nodes => nodes.length = 2 * capacity.toNat - 1 ∧ ∀ node ∈ nodes, node.Valid)
      (fun nodes => nodes.flatMap TreeNode.write) (WelcomeSnapshot.readNodes capacity) := by
  have hle : 2 * capacity.toNat - 1 ≤ 2 * Group.maxCapacity - 1 := by omega
  have hread : WelcomeSnapshot.readNodes capacity =
      readMany TreeNode.read (2 * capacity.toNat - 1) := by
    funext bytes
    rw [WelcomeSnapshot.readNodes, reserve, if_pos hle]
    rfl
  rw [hread]
  exact codec_treeNode.many _

theorem codec_welcomeSnapshot :
    Codec WelcomeSnapshot.WellFormed WelcomeSnapshot.write WelcomeSnapshot.read := by
  refine Codec.congr (Codec.bind (codec_getArray 16) (fun c : WelcomeSnapshot => c.groupId)
    (fun _ _ => trivial) fun a _ => Codec.bind codec_getU32
    (fun c : WelcomeSnapshot => c.capacity) (fun _ _ => trivial) fun b _ => Codec.bind
    codec_getU64 (fun c : WelcomeSnapshot => c.epoch) (fun _ _ => trivial) fun d _ => Codec.bind
    (codec_getArray 32) (fun c : WelcomeSnapshot => c.epochSecret) (fun _ _ => trivial)
    fun e _ => Codec.bind (codec_getArray 32) (fun c : WelcomeSnapshot => c.transcriptHash)
    (fun _ _ => trivial) fun f _ => Codec.bind codec_getU32
    (fun c : WelcomeSnapshot => c.targetLeaf) (fun _ _ => trivial) fun g _ => Codec.check
    (WelcomeSnapshot.checkBounds_ne_panic b g) (fun c hc => ?_) fun hbounds => Codec.bind
    (codec_snapshotNodes (WelcomeSnapshot.capacity_le_of_checkBounds hbounds))
    (fun c : WelcomeSnapshot => c.nodes) (fun c hc => ?_) fun nodes hnodes =>
    codec_pure fun c => ?_) fun c => ?_
  · obtain ⟨⟨⟨⟨⟨⟨⟨hbounds, -⟩, -⟩, rfl⟩, -⟩, -⟩, -⟩, rfl⟩ := hc
    exact hbounds
  · obtain ⟨⟨⟨⟨⟨⟨⟨-, hnodes⟩, -⟩, rfl⟩, -⟩, -⟩, -⟩, -⟩ := hc
    exact hnodes
  · obtain ⟨c1, c2, c3, c4, c5, c6, c7⟩ := c
    simp only [WelcomeSnapshot.WellFormed, WelcomeSnapshot.mk.injEq]
    constructor
    · rintro ⟨⟨⟨⟨⟨⟨⟨-, rfl⟩, rfl⟩, rfl⟩, rfl⟩, rfl⟩, rfl⟩, rfl⟩
      exact ⟨rfl, rfl, rfl, rfl, rfl, rfl, rfl⟩
    · rintro ⟨rfl, rfl, rfl, rfl, rfl, rfl, rfl⟩
      exact ⟨⟨⟨⟨⟨⟨⟨⟨hbounds, hnodes⟩, rfl⟩, rfl⟩, rfl⟩, rfl⟩, rfl⟩, rfl⟩, rfl⟩
  · simp [WelcomeSnapshot.write]

/-- `WELCOME_SIGNATURE_CONTEXT`. -/
def welcomeSignatureContext : Bytes := ascii "novachannel group v1 welcome snapshot"

/-- `welcome_signed_bytes`. -/
def welcomeSignedBytes (snapshotBytes : Bytes) : Bytes :=
  welcomeSignatureContext ++ putVar snapshotBytes

end Wire

end NovaChannel
