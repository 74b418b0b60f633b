import NovaChannel.Published

/-!
# One value, one byte string

What `to_bytes` and `from_bytes` of the five public messages and the welcome's snapshot have to do
with each other.

* `roundTrip_total` : **decoding inverts encoding, and no byte string makes a reader panic**, where
  a count reserves no more than the message can hold;
* `decoders_canonical_iff` : **encoding inverts decoding**, except that a commit's context bytes are skipped
  and not compared, so that a commit is canonical exactly when it carries them.
-/

namespace NovaChannel

namespace Wire

section Canonical

variable [WireKeys]

/-- The context stands where `Commit::write` puts it. -/
def Commit.HasContext (bytes : Bytes) : Prop :=
  (bytes.drop 8).take commitSignatureContext.length = commitSignatureContext

theorem Commit.fromBytes_write {commit : Commit} (h : commit.Fits) :
    Commit.fromBytes commit.write = .ok commit := by
  refine readAll_eq_ok.2 (Commit.read_eq_ok.2 ⟨h.1, commitSignatureContext, rfl, h.2, ?_⟩)
  rw [List.append_nil]
  rfl

/-- What `Commit::from_bytes` accepts. -/
theorem Commit.fromBytes_eq_ok {bytes : Bytes} {commit : Commit}
    (h : Commit.fromBytes bytes = .ok commit) :
    ∃ context : Bytes, context.length = commitSignatureContext.length ∧
      bytes = putVar (context ++ commit.fields) ++ commit.signature.write := by
  obtain ⟨-, context, hclen, -, hbytes⟩ := Commit.read_eq_ok.1 (readAll_eq_ok.1 h)
  rw [List.append_nil] at hbytes
  exact ⟨context, hclen, hbytes⟩

omit [WireKeys] in
/-- The bytes after the length of the signed section are the context. -/
theorem take_drop_putVar {context fields rest : Bytes} {n : ℕ} (h : context.length = n) :
    ((putVar (context ++ fields) ++ rest).drop 8).take n = context := by
  rw [putVar, List.append_assoc, List.drop_left' (length_beBytes _ _), List.append_assoc,
    List.take_left' h]

theorem Commit.canonical_iff {bytes : Bytes} {commit : Commit}
    (h : Commit.fromBytes bytes = .ok commit) : commit.write = bytes ↔ HasContext bytes := by
  obtain ⟨context, hclen, rfl⟩ := fromBytes_eq_ok h
  rw [HasContext, take_drop_putVar hclen]
  constructor
  · intro hwrite
    have htake := congrArg (fun b => (b.drop 8).take commitSignatureContext.length) hwrite
    rw [take_drop_putVar hclen, write, signedBytes, commitSignedBytes,
      take_drop_putVar rfl] at htake
    exact htake.symm
  · rintro rfl
    rfl

/-- The other decoders are canonical. -/
structure CanonicalAt (bytes : Bytes) : Prop where
  welcome : ∀ welcome, Welcome.fromBytes bytes = .ok welcome → welcome.toBytes = bytes
  leafKeyPackage : ∀ package, LeafKeyPackage.fromBytes bytes = .ok package →
    package.write = bytes
  preKeyBundle : ∀ bundle, PreKeyBundle.fromBytes bytes = .ok bundle → bundle.write = bytes
  signedDeviceList : ∀ list, SignedDeviceList.fromBytes bytes = .ok list → list.write = bytes

theorem canonicalAt (bytes : Bytes) : CanonicalAt bytes where
  welcome welcome h := by
    obtain ⟨sealedTo, hread, hpure⟩ := Result.bind_eq_ok.1 h
    cases hpure
    exact (codec_sealedToNode.readAll_canonical hread).2
  leafKeyPackage package h := (codec_leafKeyPackage.readAll_canonical h).2
  preKeyBundle bundle h := (codec_preKeyBundle.readAll_canonical h).2
  signedDeviceList list h := (codec_signedDeviceList.readAll_canonical h).2

/-- **Encoding inverts decoding**: always for welcomes, leaf key packages, prekey bundles and device
lists, and for commits exactly when the context bytes, which `Commit::read` skips, are the context. -/
theorem decoders_canonical_iff (bytes : Bytes) :
    (∀ commit, Commit.fromBytes bytes = .ok commit →
      (commit.write = bytes ↔ Commit.HasContext bytes)) ∧ CanonicalAt bytes :=
  ⟨fun _ h => Commit.canonical_iff h, canonicalAt bytes⟩

/-- The decoder inverts the encoder. -/
structure RoundTrip : Prop where
  commit : ∀ commit : Commit, commit.Fits → Commit.fromBytes commit.write = .ok commit
  welcome : ∀ welcome : Welcome, welcome.sealedTo.Fits →
    Welcome.fromBytes welcome.toBytes = .ok welcome
  leafKeyPackage : ∀ package : LeafKeyPackage, package.HasPop →
    LeafKeyPackage.fromBytes package.write = .ok package
  preKeyBundle : ∀ bundle : PreKeyBundle, PreKeyBundle.fromBytes bundle.write = .ok bundle
  signedDeviceList : ∀ list : SignedDeviceList, list.Fits →
    SignedDeviceList.fromBytes list.write = .ok list
  /-- Nothing is left over. -/
  welcomeSnapshot : ∀ snapshot : WelcomeSnapshot, snapshot.WellFormed →
    WelcomeSnapshot.read snapshot.write = .ok (snapshot, [])

/-- No byte string makes a reader panic. -/
structure Total : Prop where
  commit : ∀ bytes, Commit.fromBytes bytes ≠ .error .panic
  welcome : ∀ bytes, Welcome.fromBytes bytes ≠ .error .panic
  leafKeyPackage : ∀ bytes, LeafKeyPackage.fromBytes bytes ≠ .error .panic
  preKeyBundle : ∀ bytes, PreKeyBundle.fromBytes bytes ≠ .error .panic
  signedDeviceList : ∀ bytes, SignedDeviceList.fromBytes bytes ≠ .error .panic
  welcomeSnapshot : ∀ bytes, WelcomeSnapshot.read bytes ≠ .error .panic

theorem roundTrip : RoundTrip where
  commit commit h := Commit.fromBytes_write h
  welcome welcome h := by
    rw [Welcome.fromBytes, Welcome.toBytes, codec_sealedToNode.readAll_back _ h]
    rfl
  leafKeyPackage package h := codec_leafKeyPackage.readAll_back _ h
  preKeyBundle bundle := codec_preKeyBundle.readAll_back _ trivial
  signedDeviceList list h := codec_signedDeviceList.readAll_back _ h
  welcomeSnapshot snapshot h := by
    have hback := codec_welcomeSnapshot.back snapshot [] h
    rwa [List.append_nil] at hback

theorem total : Total where
  commit bytes := readAll_ne_panic (Commit.read_ne_panic bytes)
  welcome bytes h := by
    have hsafe : readAll "trailing bytes in welcome" SealedToNode.read bytes ≠ .error .panic :=
      readAll_ne_panic (codec_sealedToNode.safe bytes)
    unfold Welcome.fromBytes at h
    cases hread : readAll "trailing bytes in welcome" SealedToNode.read bytes with
    | error e =>
      rw [hread] at h hsafe
      exact hsafe (congrArg Except.error (Except.error.inj h))
    | ok sealedTo =>
      rw [hread] at h
      cases h
  leafKeyPackage bytes := readAll_ne_panic (codec_leafKeyPackage.safe bytes)
  preKeyBundle bytes := readAll_ne_panic (codec_preKeyBundle.safe bytes)
  signedDeviceList bytes := readAll_ne_panic (codec_signedDeviceList.safe bytes)
  welcomeSnapshot bytes := codec_welcomeSnapshot.safe bytes

/-- **Decoding inverts encoding, and reading is total.** -/
theorem roundTrip_total : RoundTrip ∧ Total := ⟨roundTrip, total⟩

end Canonical

/-! ### Values under concrete decoders -/

section Sample

/-- A checksum in place of a signature. -/
def checksum (n : ℕ) (key message : Bytes) : Bytes :=
  List.replicate n (message.foldl (· + ·) (key.headD 0))

/-- Decoders that accept every byte string of the right length, and verifiers that accept the
checksum. -/
local instance lengthKeys : WireKeys where
  ed25519Public b := decide (b.length = 32)
  ed25519Signature b := decide (b.length = 64)
  mlDsaPublic b := decide (b.length = 2592)
  mlDsaSignature b := decide (b.length = 4627)
  mlKemPublic b := decide (b.length = 1568)
  mlKemCiphertext b := decide (b.length = 1568)
  length_ed25519Public _ h := of_decide_eq_true h
  length_ed25519Signature _ h := of_decide_eq_true h
  length_mlDsaPublic _ h := of_decide_eq_true h
  length_mlDsaSignature _ h := of_decide_eq_true h
  length_mlKemPublic _ h := of_decide_eq_true h
  length_mlKemCiphertext _ h := of_decide_eq_true h
  ed25519Verify key message sig := decide (sig = checksum 64 key message)
  mlDsaVerify key message sig := decide (sig = checksum 4627 key message)

/-- A package with a proof of possession. -/
def samplePackage : LeafKeyPackage :=
  let identity : PublicIdentity :=
    ⟨⟨List.replicate 32 1, decide_eq_true List.length_replicate⟩,
      ⟨List.replicate 2592 2, decide_eq_true List.length_replicate⟩⟩
  let publicKey : NodePublicKey :=
    ⟨⟨List.replicate 32 3, List.length_replicate⟩,
      ⟨List.replicate 1568 4, decide_eq_true List.length_replicate⟩⟩
  let message := leafKeyPackagePopMessage identity publicKey
  { identity
    publicKey
    pop := ⟨⟨checksum 64 identity.ed25519.1 message, decide_eq_true List.length_replicate⟩,
      ⟨checksum 4627 identity.mlDsa.1 message, decide_eq_true List.length_replicate⟩⟩ }

theorem hasPop_samplePackage : samplePackage.HasPop := by
  have hed : WireKeys.ed25519Verify samplePackage.identity.ed25519.1
      (leafKeyPackagePopMessage samplePackage.identity samplePackage.publicKey)
      samplePackage.pop.ed25519.1 = true := decide_eq_true rfl
  have hml : WireKeys.mlDsaVerify samplePackage.identity.mlDsa.1
      (leafKeyPackagePopMessage samplePackage.identity samplePackage.publicKey)
      samplePackage.pop.mlDsa.1 = true := decide_eq_true rfl
  rw [LeafKeyPackage.HasPop, PublicIdentity.verify, hed, hml]
  rfl

/-- The snapshot of a group of two, with that package in both leaves. -/
def sampleSnapshot : WelcomeSnapshot where
  groupId := ⟨List.replicate 16 5, List.length_replicate⟩
  capacity := 2
  epoch := 1
  epochSecret := ⟨List.replicate 32 6, List.length_replicate⟩
  transcriptHash := ⟨List.replicate 32 7, List.length_replicate⟩
  nodes := [.leaf samplePackage, .blank, .leaf samplePackage]
  targetLeaf := 1

theorem wellFormed_sampleSnapshot : sampleSnapshot.WellFormed := by
  refine ⟨by decide, rfl, fun node hnode => ?_⟩
  rcases List.mem_cons.1 hnode with rfl | hnode
  · exact hasPop_samplePackage
  · rcases List.mem_pair.1 hnode with rfl | rfl
    · trivial
    · exact hasPop_samplePackage

/-- The package and the snapshot read back. -/
theorem roundTrip_total_sample : samplePackage.HasPop ∧
    LeafKeyPackage.fromBytes samplePackage.write = .ok samplePackage ∧
    WelcomeSnapshot.read sampleSnapshot.write = .ok (sampleSnapshot, []) :=
  ⟨hasPop_samplePackage, roundTrip_total.1.leafKeyPackage _ hasPop_samplePackage,
    roundTrip_total.1.welcomeSnapshot _ wellFormed_sampleSnapshot⟩

/-! ### A commit with another context -/

/-- A signature of ML-DSA-87 all of whose coefficients are zero: `0x80000` is how `z` encodes
zero. -/
def zeroMlDsaSignature : Bytes :=
  List.replicate 64 0 ++ ((List.replicate 896 [0, 0, 8, 0, 128]).flatten ++ List.replicate 83 0)

theorem length_zeroMlDsaSignature : zeroMlDsaSignature.length = 4627 := by
  rw [zeroMlDsaSignature, List.length_append, List.length_append, List.length_replicate,
    List.length_flatten, List.map_replicate, List.sum_replicate, List.length_replicate]
  rfl

/-- The signature of zeros. -/
def zeroSignature : HybridSignature where
  ed25519 := ⟨List.replicate 64 0, decide_eq_true List.length_replicate⟩
  mlDsa := ⟨zeroMlDsaSignature, decide_eq_true length_zeroMlDsaSignature⟩

/-- An update without a path. -/
def sampleCommit : Commit where
  groupId := ⟨List.replicate 16 0, List.length_replicate⟩
  fromEpoch := 0
  senderLeaf := 0
  op := .update
  path := []
  signature := zeroSignature

/-- The same commit with a context of zeros. -/
def sampleBytes : Bytes :=
  putVar (List.replicate commitSignatureContext.length 0 ++ sampleCommit.fields) ++
    sampleCommit.signature.write

theorem fromBytes_sampleBytes : Commit.fromBytes sampleBytes = .ok sampleCommit := by
  refine readAll_eq_ok.2 (Commit.read_eq_ok.2
    ⟨⟨trivial, by decide, fun node hnode => (by cases hnode)⟩,
      List.replicate commitSignatureContext.length 0, List.length_replicate, by decide, ?_⟩)
  rw [List.append_nil]
  rfl

theorem decoders_canonical_iff_sampleBytes :
    ((∀ commit, Commit.fromBytes sampleBytes = .ok commit →
      (commit.write = sampleBytes ↔ Commit.HasContext sampleBytes)) ∧ CanonicalAt sampleBytes) ∧
      Commit.fromBytes sampleBytes = .ok sampleCommit :=
  ⟨decoders_canonical_iff sampleBytes, fromBytes_sampleBytes⟩

theorem not_canonical_sampleBytes :
    Commit.fromBytes sampleBytes = .ok sampleCommit ∧ sampleCommit.write ≠ sampleBytes := by
  refine ⟨fromBytes_sampleBytes, fun h => ?_⟩
  have hcontext := (Commit.canonical_iff fromBytes_sampleBytes).1 h
  rw [Commit.HasContext, sampleBytes, take_drop_putVar List.length_replicate] at hcontext
  exact absurd hcontext (by decide)

end Sample

end Wire

end NovaChannel
