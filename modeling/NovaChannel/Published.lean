import NovaChannel.Formats

/-!
# What an account publishes

Prekey bundles and signed device lists, and the sender certificates of sealed envelopes.

* `PreKeyBundle`, `SignedDeviceList` : the values with their `write` and `read`;
* `codec_preKeyBundle`, `codec_signedDeviceList` : **reading and writing belong together**.
-/

namespace NovaChannel

namespace Wire

variable [WireKeys]

/-! ### Prekey bundles -/

/-- `PublicSignedPreKey`. -/
structure PublicSignedPreKey where
  dhPublic : X25519Public
  kemPublic : MlKemPublic
  signature : HybridSignature

namespace PublicSignedPreKey

/-- `PublicSignedPreKey::write`. -/
def write (spk : PublicSignedPreKey) : Bytes :=
  spk.dhPublic.1 ++ (putVar spk.kemPublic.1 ++ spk.signature.write)

/-- `PublicSignedPreKey::read`. -/
def read : Parser PublicSignedPreKey := do
  let dhPublic ← getX25519Public
  let kemPublic ← getMlKemPublic
  let signature ← HybridSignature.read
  pure ⟨dhPublic, kemPublic, signature⟩

end PublicSignedPreKey

theorem codec_publicSignedPreKey :
    Codec (fun _ => True) PublicSignedPreKey.write PublicSignedPreKey.read := by
  refine Codec.congr (Codec.bind codec_getX25519Public (fun c : PublicSignedPreKey => c.dhPublic)
    (fun _ _ => trivial) fun a _ => Codec.bind codec_getMlKemPublic
    (fun c : PublicSignedPreKey => c.kemPublic) (fun _ _ => trivial) fun b _ => Codec.bind
    codec_hybridSignature (fun c : PublicSignedPreKey => c.signature) (fun _ _ => trivial)
    fun d _ => codec_pure fun c => ?_) fun c => ?_
  · obtain ⟨c1, c2, c3⟩ := c
    simp [and_assoc]
  · simp [PublicSignedPreKey.write]

/-- `SPK_SIGNATURE_CONTEXT`. -/
def spkSignatureContext : Bytes := ascii "novachannel x3dh v1 signed-prekey"

/-- `spk_signed_bytes`. -/
def spkSignedBytes (dhPublic : X25519Public) (kemPublic : MlKemPublic) : Bytes :=
  spkSignatureContext ++ (dhPublic.1 ++ putVar kemPublic.1)

/-- An entry of `one_time_prekey`. -/
structure OneTimePreKey where
  id : UInt32
  dhPublic : X25519Public
  kemPublic : MlKemPublic

namespace OneTimePreKey

/-- The one-time prekey, with its presence flag. -/
def write : Option OneTimePreKey → Bytes
  | some opk => [1] ++ (putU32 opk.id ++ (opk.dhPublic.1 ++ putVar opk.kemPublic.1))
  | none => [0]

/-- The fields of a one-time prekey that is present. -/
def readSome : Parser (Option OneTimePreKey) := do
  let id ← getU32
  let dhPublic ← getX25519Public
  let kemPublic ← getMlKemPublic
  pure (some ⟨id, dhPublic, kemPublic⟩)

/-- The one-time prekey, after its presence flag. -/
def read : Parser (Option OneTimePreKey) := do
  let hasOpk ← getByte
  if hasOpk = 0 then pure none
  else if hasOpk = 1 then readSome
  else throw (.error (.malformed "invalid one-time-prekey presence flag"))

end OneTimePreKey

theorem codec_oneTimePreKey : Codec (fun _ => True) OneTimePreKey.write OneTimePreKey.read where
  back opk rest _ := by
    cases opk with
    | none =>
      rw [OneTimePreKey.write, OneTimePreKey.read, bind_of_ok (codec_getByte.back 0 _ trivial),
        if_pos rfl]
      rfl
    | some opk =>
      rw [OneTimePreKey.write, List.append_assoc, OneTimePreKey.read,
        bind_of_ok (codec_getByte.back 1 _ trivial), if_neg (by decide), if_pos rfl,
        List.append_assoc, OneTimePreKey.readSome, bind_of_ok (codec_getU32.back opk.id _ trivial),
        List.append_assoc, bind_of_ok (codec_getX25519Public.back opk.dhPublic _ trivial),
        bind_of_ok (codec_getMlKemPublic.back opk.kemPublic _ trivial)]
      rfl
  canonical bytes opk rest hread := by
    obtain ⟨flag, mid, hflag, hrest⟩ := bind_eq_ok.1 hread
    obtain ⟨-, rfl⟩ := codec_getByte.canonical _ _ _ hflag
    split_ifs at hrest with h0 h1
    · subst h0
      cases hrest
      exact ⟨trivial, rfl⟩
    · subst h1
      obtain ⟨id, mid1, hid, hrest⟩ := bind_eq_ok.1 hrest
      obtain ⟨dh, mid2, hdh, hrest⟩ := bind_eq_ok.1 hrest
      obtain ⟨kem, mid3, hkem, hpure⟩ := bind_eq_ok.1 hrest
      obtain ⟨-, rfl⟩ := codec_getU32.canonical _ _ _ hid
      obtain ⟨-, rfl⟩ := codec_getX25519Public.canonical _ _ _ hdh
      obtain ⟨-, rfl⟩ := codec_getMlKemPublic.canonical _ _ _ hkem
      cases hpure
      exact ⟨trivial, by simp [OneTimePreKey.write]⟩
    · cases hrest
  safe bytes := by
    refine bind_ne_panic (codec_getByte.safe bytes) fun flag mid _ => ?_
    split_ifs
    · simp
    · refine bind_ne_panic (codec_getU32.safe _) fun id mid1 _ => ?_
      refine bind_ne_panic (codec_getX25519Public.safe _) fun dh mid2 _ => ?_
      exact bind_ne_panic (codec_getMlKemPublic.safe _) fun kem mid3 _ => by simp
    · simp

/-- `PreKeyBundle`. -/
structure PreKeyBundle where
  identity : PublicIdentity
  dhIdentity : X25519Public
  spk : PublicSignedPreKey
  oneTimePrekey : Option OneTimePreKey

namespace PreKeyBundle

/-- `PreKeyBundle::write`, and so `to_bytes`. -/
def write (bundle : PreKeyBundle) : Bytes :=
  bundle.identity.write ++ (bundle.dhIdentity.1 ++ (bundle.spk.write ++
    OneTimePreKey.write bundle.oneTimePrekey))

/-- `PreKeyBundle::read`. -/
def read : Parser PreKeyBundle := do
  let identity ← PublicIdentity.read
  let dhIdentity ← getX25519Public
  let spk ← PublicSignedPreKey.read
  let oneTimePrekey ← OneTimePreKey.read
  pure ⟨identity, dhIdentity, spk, oneTimePrekey⟩

/-- `PreKeyBundle::from_bytes`. -/
def fromBytes (bytes : Bytes) : Result PreKeyBundle :=
  readAll "trailing bytes in prekey bundle" read bytes

end PreKeyBundle

theorem codec_preKeyBundle :
    Codec (fun _ => True) PreKeyBundle.write PreKeyBundle.read := by
  refine Codec.congr (Codec.bind codec_publicIdentity (fun c : PreKeyBundle => c.identity)
    (fun _ _ => trivial) fun a _ => Codec.bind codec_getX25519Public
    (fun c : PreKeyBundle => c.dhIdentity) (fun _ _ => trivial) fun b _ => Codec.bind
    codec_publicSignedPreKey (fun c : PreKeyBundle => c.spk) (fun _ _ => trivial) fun d _ =>
    Codec.bind codec_oneTimePreKey (fun c : PreKeyBundle => c.oneTimePrekey)
    (fun _ _ => trivial) fun e _ => codec_pure fun c => ?_) fun c => ?_
  · obtain ⟨c1, c2, c3, c4⟩ := c
    simp [and_assoc]
  · simp [PreKeyBundle.write]

/-! ### Device lists -/

/-- `DeviceListEntry`. -/
structure DeviceListEntry where
  deviceId : UInt32
  identity : PublicIdentity
  dhIdentity : X25519Public

namespace DeviceListEntry

/-- The fields of an entry. -/
def write (entry : DeviceListEntry) : Bytes :=
  putU32 entry.deviceId ++ (entry.identity.write ++ entry.dhIdentity.1)

/-- An entry. -/
def read : Parser DeviceListEntry := do
  let deviceId ← getU32
  let identity ← PublicIdentity.read
  let dhIdentity ← getX25519Public
  pure ⟨deviceId, identity, dhIdentity⟩

theorem write_pos (entry : DeviceListEntry) : 0 < entry.write.length := by
  rw [write, List.length_append, length_putU32]
  omega

end DeviceListEntry

theorem codec_deviceListEntry :
    Codec (fun _ => True) DeviceListEntry.write DeviceListEntry.read := by
  refine Codec.congr (Codec.bind codec_getU32 (fun c : DeviceListEntry => c.deviceId)
    (fun _ _ => trivial) fun a _ => Codec.bind codec_publicIdentity
    (fun c : DeviceListEntry => c.identity) (fun _ _ => trivial) fun b _ => Codec.bind
    codec_getX25519Public (fun c : DeviceListEntry => c.dhIdentity) (fun _ _ => trivial)
    fun d _ => codec_pure fun c => ?_) fun c => ?_
  · obtain ⟨c1, c2, c3⟩ := c
    simp [and_assoc]
  · simp [DeviceListEntry.write]

/-- `DEVICE_LIST_SIGNATURE_CONTEXT`. -/
def deviceListSignatureContext : Bytes := ascii "novachannel multidevice v1 device list"

/-- `device_list_signed_bytes`. -/
def deviceListSignedBytes (version : UInt64) (entries : List DeviceListEntry) : Bytes :=
  deviceListSignatureContext ++ (putU64 version ++ putCounted DeviceListEntry.write entries)

/-- `SignedDeviceList`. -/
structure SignedDeviceList where
  version : UInt64
  entries : List DeviceListEntry
  signature : HybridSignature

namespace SignedDeviceList

/-- The count fits its field. -/
def Fits (list : SignedDeviceList) : Prop := list.entries.length < 2 ^ 32

/-- `SignedDeviceList::write`, and so `to_bytes`. -/
def write (list : SignedDeviceList) : Bytes :=
  putU64 list.version ++ (putCounted DeviceListEntry.write list.entries ++ list.signature.write)

/-- `SignedDeviceList::read`. -/
def read : Parser SignedDeviceList := do
  let version ← getU64
  let entries ← readCounted "device list declares more entries than its message can hold"
    DeviceListEntry.read
  let signature ← HybridSignature.read
  pure ⟨version, entries, signature⟩

/-- `SignedDeviceList::from_bytes`. -/
def fromBytes (bytes : Bytes) : Result SignedDeviceList :=
  readAll "trailing bytes in signed device list" read bytes

end SignedDeviceList

theorem codec_signedDeviceList :
    Codec SignedDeviceList.Fits SignedDeviceList.write SignedDeviceList.read := by
  refine Codec.congr (Codec.bind codec_getU64 (fun c : SignedDeviceList => c.version)
    (fun _ _ => trivial) fun a _ => Codec.bind
    (codec_deviceListEntry.counted DeviceListEntry.write_pos _)
    (fun c : SignedDeviceList => c.entries) (fun c hc => ⟨hc.1, fun _ _ => trivial⟩) fun b hb =>
    Codec.bind codec_hybridSignature (fun c : SignedDeviceList => c.signature)
    (fun _ _ => trivial) fun d _ => codec_pure fun c => ?_) fun c => ?_
  · obtain ⟨c1, c2, c3⟩ := c
    simp only [SignedDeviceList.Fits, SignedDeviceList.mk.injEq]
    constructor
    · rintro ⟨⟨⟨-, rfl⟩, rfl⟩, rfl⟩
      exact ⟨rfl, rfl, rfl⟩
    · rintro ⟨rfl, rfl, rfl⟩
      exact ⟨⟨⟨hb.1, rfl⟩, rfl⟩, rfl⟩
  · simp [SignedDeviceList.write]

/-! ### Sender certificates -/

/-- `CERT_CONTEXT`. -/
def certContext : Bytes := ascii "novachannel sealed-sender v1 certificate"

/-- `cert_signed_bytes`. -/
def certSignedBytes (senderIdentity : PublicIdentity) (expiresAt : UInt64) : Bytes :=
  certContext ++ (senderIdentity.write ++ putU64 expiresAt)

end Wire

end NovaChannel
