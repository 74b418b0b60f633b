import NovaChannel.Canonical
import NovaChannel.Handshake

/-!
# What an identity signs

The eight byte strings that an `Identity` signs, each behind its context.

* `PrefixFree` : the encodings of two values, each followed by anything, differ where the values do;
* `SignedContent` : what is signed, for every purpose;
* `signedBytes_injective` : **signed byte strings are domain separated and injective**: they
  coincide only for the same purpose and the same fields.
-/

namespace NovaChannel

namespace Wire

/-! ### Prefix-free encodings -/

/-- What follows the encoding of a value can be told from the encoding. -/
def PrefixFree {α : Type} (P : α → Prop) (write : α → Bytes) : Prop :=
  ∀ a b r s, P a → P b → write a ++ r = write b ++ s → a = b ∧ r = s

namespace PrefixFree

variable {α γ : Type} {P : α → Prop} {write : α → Bytes}

theorem of_codec {read : Parser α} (h : Codec P write read) : PrefixFree P write := by
  intro a b r s ha hb heq
  have hread := h.back a r ha
  rw [heq, h.back b s hb] at hread
  cases hread
  exact ⟨rfl, rfl⟩

/-- The last field. -/
theorem inj (h : PrefixFree P write) {a b : α} (ha : P a) (hb : P b) (heq : write a = write b) :
    a = b :=
  (h a b [] [] ha hb (by rw [heq])).1

/-- Lists of a known length. -/
theorem flatMap (h : PrefixFree P write) {as bs : List α} {r s : Bytes}
    (hlen : as.length = bs.length) (has : ∀ a ∈ as, P a) (hbs : ∀ b ∈ bs, P b)
    (heq : as.flatMap write ++ r = bs.flatMap write ++ s) : as = bs ∧ r = s := by
  induction as generalizing bs with
  | nil =>
    obtain rfl : bs = [] := List.length_eq_zero_iff.1 hlen.symm
    exact ⟨rfl, heq⟩
  | cons a as ih =>
    obtain ⟨b, bs, rfl⟩ := List.exists_cons_of_length_eq_add_one hlen.symm
    rw [List.flatMap_cons, List.flatMap_cons, List.append_assoc, List.append_assoc] at heq
    obtain ⟨rfl, htail⟩ := h a b _ _ (has a List.mem_cons_self) (hbs b List.mem_cons_self) heq
    obtain ⟨rfl, rfl⟩ := ih (Nat.succ.inj hlen) (fun c hc => has c (List.mem_cons_of_mem _ hc))
      (fun c hc => hbs c (List.mem_cons_of_mem _ hc)) htail
    exact ⟨rfl, rfl⟩

/-- Lists with their count in front. -/
theorem counted (h : PrefixFree P write) :
    PrefixFree (fun as => as.length < 2 ^ 32 ∧ ∀ a ∈ as, P a) (putCounted write) := by
  intro as bs r s has hbs heq
  rw [putCounted, putCounted, List.append_assoc, List.append_assoc] at heq
  obtain ⟨hcount, heq⟩ := of_codec codec_getU32 _ _ _ _ trivial trivial heq
  have hlen := congrArg UInt32.toNat hcount
  rw [UInt32.toNat_ofNat', UInt32.toNat_ofNat', Nat.mod_eq_of_lt has.1,
    Nat.mod_eq_of_lt hbs.1] at hlen
  exact h.flatMap hlen has.2 hbs.2 heq

end PrefixFree

section SignedBytes

variable [WireKeys]

theorem prefixFree_leafKeyPackage : PrefixFree (fun _ => True) LeafKeyPackage.write := by
  rintro ⟨i, k, p⟩ ⟨i', k', p'⟩ r s - - heq
  simp only [LeafKeyPackage.write, List.append_assoc] at heq
  obtain ⟨rfl, heq1⟩ := PrefixFree.of_codec codec_publicIdentity _ _ _ _ trivial trivial heq
  obtain ⟨rfl, heq2⟩ := PrefixFree.of_codec codec_nodePublicKey _ _ _ _ trivial trivial heq1
  obtain ⟨rfl, rfl⟩ := PrefixFree.of_codec codec_hybridSignature _ _ _ _ trivial trivial heq2
  exact ⟨rfl, rfl⟩

/-- The tag tells which operation it is, and the operation how many fields follow. -/
theorem prefixFree_groupOp : PrefixFree (fun _ => True) GroupOp.write := by
  intro a b r s _ _ heq
  cases a <;> cases b <;> simp only [GroupOp.write, List.append_assoc, List.cons_append,
    List.nil_append, List.cons.injEq] at heq
  case add.add l p l' p' =>
    obtain ⟨rfl, hpackage⟩ := PrefixFree.of_codec codec_getU32 _ _ _ _ trivial trivial heq.2
    obtain ⟨rfl, rfl⟩ := prefixFree_leafKeyPackage _ _ _ _ trivial trivial hpackage
    exact ⟨rfl, rfl⟩
  case remove.remove l l' =>
    obtain ⟨rfl, rfl⟩ := PrefixFree.of_codec codec_getU32 _ _ _ _ trivial trivial heq.2
    exact ⟨rfl, rfl⟩
  case update.update => exact ⟨rfl, heq.2⟩
  all_goals exact absurd heq.1 (by decide)

/-! ### Contexts -/

/-- What a signature can be for.  Both transcripts of the handshake have one context. -/
inductive Purpose
  | handshake
  | commit
  | leafKeyPackagePop
  | welcome
  | signedPreKey
  | deviceList
  | certificate

/-- The context that every string for a purpose begins with. -/
def Purpose.context : Purpose → Bytes
  | handshake => handshakeContext
  | commit => commitSignatureContext
  | leafKeyPackagePop => leafKeyPackagePopContext
  | welcome => welcomeSignatureContext
  | signedPreKey => spkSignatureContext
  | deviceList => deviceListSignatureContext
  | certificate => certContext

omit [WireKeys] in
theorem append_ne_append (i : ℕ) {x y a b : Bytes} (hx : i < x.length) (hy : i < y.length)
    (hne : x[i]? ≠ y[i]?) : x ++ a ≠ y ++ b := by
  intro heq
  have hi := congrArg (fun l : Bytes => l[i]?) heq
  simp only [List.getElem?_append_left hx, List.getElem?_append_left hy] at hi
  exact hne hi

omit [WireKeys] in
/-- **Domain separation**: no context is a prefix of another.  The contexts differ in their thirteenth
byte, those of the group protocol in their twenty-second. -/
theorem Purpose.context_append_inj {p q : Purpose} {a b : Bytes}
    (heq : p.context ++ a = q.context ++ b) : p = q ∧ a = b := by
  have hpq : p = q := by
    cases p <;> cases q <;> first
      | rfl
      | exact absurd heq (append_ne_append 12 (by decide) (by decide) (by decide))
      | exact absurd heq (append_ne_append 21 (by decide) (by decide) (by decide))
  subst hpq
  exact ⟨rfl, List.append_cancel_left heq⟩

/-! ### Signed strings -/

/-- What an identity signs, with all the fields that are encoded. -/
inductive SignedContent
  | transcript1 (msg1 : Msg1) (msg2 : Msg2Signed)
  | transcript2 (msg1 : Msg1) (msg2 : Msg2) (initiator : PublicIdentity)
  | commit (groupId : FixedBytes 16) (fromEpoch : UInt64) (senderLeaf : UInt32) (op : GroupOp)
      (path : List UpdatePathNode)
  | leafKeyPackagePop (identity : PublicIdentity) (publicKey : NodePublicKey)
  | welcome (snapshotBytes : Bytes)
  | signedPreKey (dhPublic : X25519Public) (kemPublic : MlKemPublic)
  | deviceList (version : UInt64) (entries : List DeviceListEntry)
  | certificate (senderIdentity : PublicIdentity) (expiresAt : UInt64)

namespace SignedContent

/-- Lists are shorter than `2^32` and byte strings fit an address space. -/
def Fits : SignedContent → Prop
  | commit _ _ _ _ path => path.length < 2 ^ 32 ∧ ∀ node ∈ path, node.Fits
  | welcome snapshotBytes => snapshotBytes.length < 2 ^ 64
  | deviceList _ entries => entries.length < 2 ^ 32
  | _ => True

/-- The byte string that is signed. -/
def signedBytes : SignedContent → Bytes
  | transcript1 msg1 msg2 => Wire.transcript1 msg1.write msg2.write
  | transcript2 msg1 msg2 initiator => Wire.transcript2 msg1.write msg2.write initiator.write
  | commit groupId fromEpoch senderLeaf op path =>
    commitSignedBytes groupId fromEpoch senderLeaf op path
  | leafKeyPackagePop identity publicKey => leafKeyPackagePopMessage identity publicKey
  | welcome snapshotBytes => welcomeSignedBytes snapshotBytes
  | signedPreKey dhPublic kemPublic => spkSignedBytes dhPublic kemPublic
  | deviceList version entries => deviceListSignedBytes version entries
  | certificate senderIdentity expiresAt => certSignedBytes senderIdentity expiresAt

/-- What it is signed for. -/
def purpose : SignedContent → Purpose
  | transcript1 _ _ => .handshake
  | transcript2 _ _ _ => .handshake
  | commit _ _ _ _ _ => .commit
  | leafKeyPackagePop _ _ => .leafKeyPackagePop
  | welcome _ => .welcome
  | signedPreKey _ _ => .signedPreKey
  | deviceList _ _ => .deviceList
  | certificate _ _ => .certificate

/-- What is signed behind the context. -/
def fields : SignedContent → Bytes
  | transcript1 msg1 msg2 => msg1.write ++ msg2.write
  | transcript2 msg1 msg2 initiator => msg1.write ++ (msg2.write ++ initiator.write)
  | commit groupId fromEpoch senderLeaf op path =>
    commitFields groupId fromEpoch senderLeaf op path
  | leafKeyPackagePop identity publicKey => identity.write ++ publicKey.write
  | welcome snapshotBytes => putVar snapshotBytes
  | signedPreKey dhPublic kemPublic => dhPublic.1 ++ putVar kemPublic.1
  | deviceList version entries => putU64 version ++ putCounted DeviceListEntry.write entries
  | certificate senderIdentity expiresAt => senderIdentity.write ++ putU64 expiresAt

theorem signedBytes_eq (content : SignedContent) :
    content.signedBytes = content.purpose.context ++ content.fields := by
  cases content <;> rfl

theorem transcript1_inj {m m' : Msg1} {n n' : Msg2Signed}
    (heq : m.write ++ n.write = m'.write ++ n'.write) : m = m' ∧ n = n' := by
  obtain ⟨rfl, hn⟩ := PrefixFree.of_codec codec_msg1 _ _ _ _ trivial trivial heq
  exact ⟨rfl, PrefixFree.inj (.of_codec codec_msg2Signed) trivial trivial hn⟩

theorem transcript2_inj {m m' : Msg1} {n n' : Msg2} {i i' : PublicIdentity}
    (heq : m.write ++ (n.write ++ i.write) = m'.write ++ (n'.write ++ i'.write)) :
    m = m' ∧ n = n' ∧ i = i' := by
  obtain ⟨rfl, hn⟩ := PrefixFree.of_codec codec_msg1 _ _ _ _ trivial trivial heq
  obtain ⟨rfl, hi⟩ := PrefixFree.of_codec codec_msg2 _ _ _ _ trivial trivial hn
  exact ⟨rfl, rfl, PrefixFree.inj (.of_codec codec_publicIdentity) trivial trivial hi⟩

/-- The second transcript goes on where the first ends. -/
theorem transcript1_ne_transcript2 {m m' : Msg1} {n : Msg2Signed} {n' : Msg2} {i : PublicIdentity} :
    m.write ++ n.write ≠ m'.write ++ (n'.write ++ i.write) := by
  intro heq
  obtain ⟨rfl, hn⟩ := PrefixFree.of_codec codec_msg1 _ _ _ _ trivial trivial heq
  rw [Msg2.write, List.append_assoc] at hn
  have hn' : n.write ++ [] = n'.signed.write ++ (n'.signature.write ++ i.write) := by
    rw [List.append_nil, hn]
  obtain ⟨rfl, hend⟩ := PrefixFree.of_codec codec_msg2Signed _ _ _ _ trivial trivial hn'
  have hlen := congrArg List.length hend
  rw [PublicIdentity.write, List.length_append, List.length_append,
    WireKeys.length_ed25519Public _ i.ed25519.2, List.length_nil] at hlen
  omega

theorem commit_inj {g g' : FixedBytes 16} {e e' : UInt64} {l l' : UInt32} {op op' : GroupOp}
    {path path' : List UpdatePathNode} (hp : path.length < 2 ^ 32 ∧ ∀ node ∈ path, node.Fits)
    (hp' : path'.length < 2 ^ 32 ∧ ∀ node ∈ path', node.Fits)
    (heq : commitFields g e l op path = commitFields g' e' l' op' path') :
    g = g' ∧ e = e' ∧ l = l' ∧ op = op' ∧ path = path' := by
  obtain ⟨rfl, he⟩ := PrefixFree.of_codec (codec_getArray 16) _ _ _ _ trivial trivial heq
  obtain ⟨rfl, hl⟩ := PrefixFree.of_codec codec_getU64 _ _ _ _ trivial trivial he
  obtain ⟨rfl, hop⟩ := PrefixFree.of_codec codec_getU32 _ _ _ _ trivial trivial hl
  obtain ⟨rfl, hpath⟩ := prefixFree_groupOp _ _ _ _ trivial trivial hop
  exact ⟨rfl, rfl, rfl, rfl, (PrefixFree.of_codec codec_updatePathNode).counted.inj hp hp' hpath⟩

theorem fields_inj {a b : SignedContent} (ha : a.Fits) (hb : b.Fits)
    (hpurpose : a.purpose = b.purpose) (heq : a.fields = b.fields) : a = b := by
  cases a <;> cases b <;> try cases hpurpose
  case transcript1.transcript1 =>
    obtain ⟨rfl, rfl⟩ := transcript1_inj heq
    rfl
  case transcript1.transcript2 => exact absurd heq transcript1_ne_transcript2
  case transcript2.transcript1 => exact absurd heq.symm transcript1_ne_transcript2
  case transcript2.transcript2 =>
    obtain ⟨rfl, rfl, rfl⟩ := transcript2_inj heq
    rfl
  case commit.commit =>
    obtain ⟨rfl, rfl, rfl, rfl, rfl⟩ := commit_inj ha hb heq
    rfl
  case leafKeyPackagePop.leafKeyPackagePop =>
    obtain ⟨rfl, hkey⟩ := PrefixFree.of_codec codec_publicIdentity _ _ _ _ trivial trivial heq
    rw [PrefixFree.inj (.of_codec codec_nodePublicKey) trivial trivial hkey]
  case welcome.welcome => rw [PrefixFree.inj (.of_codec codec_getVar) ha hb heq]
  case signedPreKey.signedPreKey =>
    obtain ⟨rfl, hkem⟩ := PrefixFree.of_codec codec_getX25519Public _ _ _ _ trivial trivial heq
    rw [PrefixFree.inj (.of_codec codec_getMlKemPublic) trivial trivial hkem]
  case deviceList.deviceList =>
    obtain ⟨rfl, hentries⟩ := PrefixFree.of_codec codec_getU64 _ _ _ _ trivial trivial heq
    rw [(PrefixFree.of_codec codec_deviceListEntry).counted.inj ⟨ha, fun _ _ => trivial⟩
      ⟨hb, fun _ _ => trivial⟩ hentries]
  case certificate.certificate =>
    obtain ⟨rfl, hexpires⟩ := PrefixFree.of_codec codec_publicIdentity _ _ _ _ trivial trivial heq
    rw [PrefixFree.inj (.of_codec codec_getU64) trivial trivial hexpires]

end SignedContent

/-- **Signed byte strings are domain separated and injective**: two contents that are signed as one
byte string are for one purpose and agree in every field, down to the fields of a snapshot. -/
theorem signedBytes_injective :
    (∀ a b : SignedContent, a.Fits → b.Fits → a.signedBytes = b.signedBytes → a = b) ∧
      ∀ s t : WelcomeSnapshot, s.WellFormed → t.WellFormed →
        welcomeSignedBytes s.write = welcomeSignedBytes t.write → s = t := by
  constructor
  · intro a b ha hb heq
    rw [a.signedBytes_eq, b.signedBytes_eq] at heq
    obtain ⟨hpurpose, hfields⟩ := Purpose.context_append_inj heq
    exact SignedContent.fields_inj ha hb hpurpose hfields
  · intro s t hs ht heq
    have hvar : putVar s.write = putVar t.write := List.append_cancel_left heq
    have hwrite := (List.append_inj hvar (by rw [length_beBytes, length_beBytes])).2
    exact (PrefixFree.of_codec codec_welcomeSnapshot).inj hs ht hwrite

end SignedBytes

section Sample

attribute [local instance] lengthKeys

/-- Two leaf packages in the tree of a snapshot, and no other snapshot is signed as the same
string. -/
theorem signedBytes_injective_sample : sampleSnapshot.WellFormed ∧
    ∀ t : WelcomeSnapshot, t.WellFormed →
      welcomeSignedBytes sampleSnapshot.write = welcomeSignedBytes t.write → sampleSnapshot = t :=
  ⟨wellFormed_sampleSnapshot, fun t => signedBytes_injective.2 _ t wellFormed_sampleSnapshot⟩

end Sample

end Wire

end NovaChannel
