import NovaChannel.Lib.SortedMap
import NovaChannel.X3dh

/-!
# An account's devices

`MultiDeviceSession` holds one session with each device of a peer account.  The devices come as
bundles, taken as they are (`syncDevices`) or checked against a list that the account signed
(`syncFromSignedDeviceList`).

A call that can fail half-way returns the session map it leaves behind together with its result.
-/

namespace NovaChannel

namespace MultiDevice

open Crypto X3dh Ratchet

/-- One device a `SignedDeviceList` authorizes. -/
structure DeviceListEntry (β : Type) where
  deviceId : ℕ
  identity : β
  dhIdentity : β
  deriving DecidableEq

/-- An account's device list, signed by the account. -/
structure SignedDeviceList (β : Type) where
  version : ℕ
  entries : List (DeviceListEntry β)
  signature : β
  deriving DecidableEq

/-- One peer account's devices, in the order of their ids. -/
abbrev RemoteAccount (β : Type) := SortedMap ℕ (PreKeyBundle β)

/-- One sender's sessions with the devices of a peer account. -/
structure MultiDeviceSession (β : Type) where
  mySigningIdentity : β
  sessions : SortedMap ℕ (RatchetedSession β)
  /-- The version of the last signed list accepted. -/
  lastSeenDeviceListVersion : Option ℕ

/-- `MAX_DEVICES`. -/
def maxDevices : ℕ := 1024

section Definitions

variable {β : Type} [Crypto β]

/-! ### Lists -/

/-- `DEVICE_LIST_SIGNATURE_CONTEXT`. -/
def deviceListSignatureContext : β := lit "novachannel multidevice v1 device list"

/-- `device_list_signed_bytes`. -/
def deviceListSignedBytes (version : ℕ) (entries : List (DeviceListEntry β)) : β :=
  frame ([deviceListSignatureContext, num version, num entries.length] ++
    entries.flatMap fun e => [num e.deviceId, e.identity, e.dhIdentity])

namespace SignedDeviceList

/-- `issue`, from the account's secret. -/
def issue (accountIdentity : β) (version : ℕ) (entries : List (DeviceListEntry β)) :
    Result (SignedDeviceList β) :=
  if entries.length ≤ maxDevices then
    .ok ⟨version, entries, sign accountIdentity (deviceListSignedBytes version entries)⟩
  else .error .panic

/-- `verify`. -/
def verify (list : SignedDeviceList β) (accountIdentity : β) : Result Unit :=
  if Crypto.verify accountIdentity (deviceListSignedBytes list.version list.entries) list.signature
  then .ok () else .err .badSignature

omit [Crypto β] in
/-- The ids of the devices named. -/
def deviceIds (list : SignedDeviceList β) : List ℕ := list.entries.map (·.deviceId)

omit [Crypto β] in
/-- The first entry for a device. -/
def entryFor (list : SignedDeviceList β) (deviceId : ℕ) : Option (DeviceListEntry β) :=
  list.entries.find? (·.deviceId = deviceId)

end SignedDeviceList

namespace RemoteAccount

variable [DecidableEq β]

/-- The loop of `from_signed_device_list`. -/
def addBundles (list : SignedDeviceList β) (devices : RemoteAccount β) :
    List (ℕ × PreKeyBundle β) → Result (RemoteAccount β)
  | [] => .ok devices
  | (deviceId, bundle) :: rest =>
    match list.entryFor deviceId with
    | none => .err .unauthorizedDevice
    | some entry =>
      if entry.identity ≠ bundle.identity ∨ entry.dhIdentity ≠ bundle.dhIdentity then
        .err .unauthorizedDevice
      else do
        bundle.verify
        addBundles list (devices.insert deviceId bundle) rest

/-- `from_signed_device_list`. -/
def fromSignedDeviceList (expectedAccount : β) (list : SignedDeviceList β)
    (bundles : List (ℕ × PreKeyBundle β)) : Result (RemoteAccount β) := do
  list.verify expectedAccount
  addBundles list .empty bundles

end RemoteAccount

/-! ### Sessions -/

namespace MultiDeviceSession

omit [Crypto β] in
/-- `new`. -/
def new (mySigningIdentity : β) : MultiDeviceSession β := ⟨mySigningIdentity, .empty, none⟩

omit [Crypto β] in
/-- The map with one session put in. -/
def withSession (m : MultiDeviceSession β) (deviceId : ℕ) (session : RatchetedSession β) :
    MultiDeviceSession β :=
  { m with sessions := m.sessions.insert deviceId session }

/-- The loop of `sync_devices`; `coins` is the randomness of each session started. -/
def syncEach (coins : ℕ → InitiateCoins β) (myDhIdentity : DhIdentity β)
    (m : MultiDeviceSession β) : List (ℕ × PreKeyBundle β) →
      MultiDeviceSession β × Result (List (ℕ × β))
  | [] => (m, .ok [])
  | (deviceId, bundle) :: rest =>
    if m.sessions.contains deviceId then m.syncEach coins myDhIdentity rest
    else match (do
        bundle.verify
        initiate (coins deviceId) m.mySigningIdentity myDhIdentity bundle (lit "")) with
      | .error e => (m, .error e)
      | .ok initiated =>
        let (m, messages) := (m.withSession deviceId
          (.new initiated.session.ratchetRoot true)).syncEach coins myDhIdentity rest
        (m, messages.map ((deviceId, initiated.message) :: ·))

/-- `sync_devices`: what was established before a failure stays. -/
def syncDevices (m : MultiDeviceSession β) (coins : ℕ → InitiateCoins β)
    (myDhIdentity : DhIdentity β) (remote : RemoteAccount β) :
    MultiDeviceSession β × Result (List (ℕ × β)) :=
  m.syncEach coins myDhIdentity remote.toList

omit [Crypto β] in
/-- `revoke_device`. -/
def revokeDevice (m : MultiDeviceSession β) (deviceId : ℕ) : MultiDeviceSession β :=
  { m with sessions := m.sessions.erase deviceId }

omit [Crypto β] in
/-- The revocations of `sync_from_signed_device_list`: the devices of `ids` that are not
authorized. -/
def revokeOthers (m : MultiDeviceSession β) (authorizedIds : List ℕ) :
    List ℕ → MultiDeviceSession β
  | [] => m
  | deviceId :: ids =>
    if authorizedIds.contains deviceId then m.revokeOthers authorizedIds ids
    else (m.revokeDevice deviceId).revokeOthers authorizedIds ids

omit [Crypto β] in
/-- The list's version is not newer than the last one accepted. -/
def isStale (m : MultiDeviceSession β) (list : SignedDeviceList β) : Bool :=
  match m.lastSeenDeviceListVersion with
  | some lastSeen => list.version ≤ lastSeen
  | none => false

/-- `sync_from_signed_device_list`. -/
def syncFromSignedDeviceList [DecidableEq β] (m : MultiDeviceSession β)
    (coins : ℕ → InitiateCoins β) (myDhIdentity : DhIdentity β) (expectedAccount : β)
    (list : SignedDeviceList β) (bundles : List (ℕ × PreKeyBundle β)) :
    MultiDeviceSession β × Result (List (ℕ × β)) :=
  if m.isStale list then (m, .err .staleDeviceList)
  else match RemoteAccount.fromSignedDeviceList expectedAccount list bundles with
    | .error e => (m, .error e)
    | .ok remote =>
      match (m.revokeOthers list.deviceIds m.sessions.keys).syncDevices coins myDhIdentity
          remote with
      | (m, .error e) => (m, .error e)
      -- the version counts as seen only when every device was reached
      | (m, .ok messages) => ({ m with lastSeenDeviceListVersion := some list.version },
          .ok messages)

/-- The loop of `fan_out`. -/
def sealEach (m : MultiDeviceSession β) (plaintext : β) :
    List ℕ → MultiDeviceSession β × Result (List (ℕ × β))
  | [] => (m, .ok [])
  | deviceId :: ids =>
    match m.sessions.get? deviceId with
    | none => m.sealEach plaintext ids
    | some session =>
      match session.sealRecord plaintext with
      | .error e => (m, .error e)
      | .ok (session, record) =>
        let (m, records) := (m.withSession deviceId session).sealEach plaintext ids
        (m, records.map ((deviceId, record) :: ·))

/-- `fan_out`: one ciphertext for each device. -/
def fanOut (m : MultiDeviceSession β) (plaintext : β) :
    MultiDeviceSession β × Result (List (ℕ × β)) :=
  m.sealEach plaintext m.sessions.keys

/-- `open_from`. -/
def openFrom [ByteString β] (m : MultiDeviceSession β) (coins : ResponderCoins β)
    (deviceId : ℕ) (record : β) : MultiDeviceSession β × Result (Opened β) :=
  match m.sessions.get? deviceId with
  | none => (m, .err .unknownDevice)
  | some session =>
    let (session, opened) := session.openRecord coins record
    (m.withSession deviceId session, opened)

end MultiDeviceSession

/-! ### What a list lets in -/

section Lists

variable [DecidableEq β] {list : SignedDeviceList β} {devices remote : RemoteAccount β}
  {bundles : List (ℕ × PreKeyBundle β)}

/-- The list names the device with the bundle's two identities. -/
def Authorizes (list : SignedDeviceList β) (deviceId : ℕ) (bundle : PreKeyBundle β) : Prop :=
  ∃ entry, list.entryFor deviceId = some entry ∧
    entry.identity = bundle.identity ∧ entry.dhIdentity = bundle.dhIdentity

omit [Crypto β] [DecidableEq β] in
theorem mem_deviceIds_of_entryFor {deviceId : ℕ} {entry : DeviceListEntry β}
    (h : list.entryFor deviceId = some entry) : entry ∈ list.entries ∧ entry.deviceId = deviceId :=
  ⟨List.mem_of_find?_eq_some h, by simpa using List.find?_some h⟩

theorem addBundles_authorized
    (hd : ∀ id b, devices.get? id = some b → Authorizes list id b)
    (h : RemoteAccount.addBundles list devices bundles = .ok remote) :
    ∀ id b, remote.get? id = some b → Authorizes list id b := by
  induction bundles generalizing devices with
  | nil =>
    obtain rfl := Except.ok.inj h
    exact hd
  | cons x rest ih =>
    obtain ⟨deviceId, bundle⟩ := x
    simp only [RemoteAccount.addBundles] at h
    split at h
    · cases h
    · rename_i entry hentry
      split_ifs at h with hne
      obtain ⟨-, -, h⟩ := Result.bind_eq_ok.1 h
      obtain ⟨h1, h2⟩ := not_or.1 hne
      refine ih (fun id b hb => ?_) h
      rw [SortedMap.get?_insert] at hb
      split_ifs at hb with hid
      · obtain rfl := Option.some.inj hb
        exact ⟨entry, hid ▸ hentry, not_not.1 h1, not_not.1 h2⟩
      · exact hd id b hb

/-- Every device of an account built from a list is one the list authorizes. -/
theorem fromSignedDeviceList_authorized {account : β}
    (h : RemoteAccount.fromSignedDeviceList account list bundles = .ok remote) :
    list.verify account = .ok () ∧ ∀ id b, remote.get? id = some b → Authorizes list id b := by
  obtain ⟨u, hv, h⟩ := Result.bind_eq_ok.1 h
  exact ⟨hv, addBundles_authorized (fun id b hb => (by cases hb)) h⟩

end Lists

/-! ### What the operations do to the sessions -/

section Sessions

variable {m m' : MultiDeviceSession β}

/-- A session with the device of a bundle, as it was established. -/
def EstablishedWith (mySigningIdentity : β) (bundle : PreKeyBundle β)
    (session : RatchetedSession β) : Prop :=
  ∃ coins myDhIdentity initiated,
    initiate coins mySigningIdentity myDhIdentity bundle (lit "") = .ok initiated ∧
    session = .new initiated.session.ratchetRoot true

omit [Crypto β] in
theorem of_map_eq_ok {p : MultiDeviceSession β × Result (List (ℕ × β))} {x : ℕ × β}
    {messages : List (ℕ × β)} (h : (p.1, p.2.map (x :: ·)) = (m', .ok messages)) :
    ∃ rest, p = (m', .ok rest) ∧ x :: rest = messages := by
  obtain ⟨m, messages' | rest⟩ := p
  · cases (Prod.mk.inj h).2
  · obtain ⟨rfl, hm⟩ := Prod.mk.inj h
    exact ⟨rest, rfl, Except.ok.inj hm⟩

/-- The spec of `sync_devices`, over the entries `bundles` in order of their keys: a device with a
session keeps it, one without a session gets one from its bundle. -/
theorem syncEach_eq_ok {coins : ℕ → InitiateCoins β} {dh : DhIdentity β}
    {bundles : List (ℕ × PreKeyBundle β)} {messages : List (ℕ × β)}
    (hsorted : bundles.Pairwise fun x y => x.1 < y.1)
    (h : m.syncEach coins dh bundles = (m', .ok messages)) :
    m'.mySigningIdentity = m.mySigningIdentity ∧
    m'.lastSeenDeviceListVersion = m.lastSeenDeviceListVersion ∧
    (∀ id, id ∈ messages.map (·.1) → m.sessions.get? id = none ∧
      ∃ bundle session, (id, bundle) ∈ bundles ∧ m'.sessions.get? id = some session ∧
        EstablishedWith m.mySigningIdentity bundle session) ∧
    (∀ id, id ∉ messages.map (·.1) → m'.sessions.get? id = m.sessions.get? id) := by
  induction bundles generalizing m messages with
  | nil =>
    simp only [MultiDeviceSession.syncEach, Prod.mk.injEq, Except.ok.injEq] at h
    obtain ⟨rfl, rfl⟩ := h
    exact ⟨rfl, rfl, fun id hid => (by cases hid), fun _ _ => rfl⟩
  | cons x rest ih =>
    obtain ⟨deviceId, bundle⟩ := x
    obtain ⟨hx, hrest⟩ := List.pairwise_cons.1 hsorted
    simp only [MultiDeviceSession.syncEach] at h
    split_ifs at h with hheld
    · obtain ⟨h1, h2, h3, h4⟩ := ih hrest h
      refine ⟨h1, h2, fun id hid => ?_, h4⟩
      obtain ⟨hnone, b, s, hb, hs⟩ := h3 id hid
      exact ⟨hnone, b, s, List.mem_cons_of_mem _ hb, hs⟩
    · split at h
      · cases (Prod.mk.inj h).2
      · rename_i initiated hinit
        obtain ⟨rest', hr, rfl⟩ := of_map_eq_ok h
        obtain ⟨h1, h2, h3, h4⟩ := ih hrest hr
        obtain ⟨-, -, hinit⟩ := Result.bind_eq_ok.1 hinit
        have hnone : m.sessions.get? deviceId = none := by
          simpa [SortedMap.contains] using hheld
        -- the devices after this one in the order do not touch its session
        have hnot : deviceId ∉ rest'.map (·.1) := by
          intro hmem
          obtain ⟨hn, -⟩ := h3 deviceId hmem
          rw [MultiDeviceSession.withSession, SortedMap.get?_insert, if_pos rfl] at hn
          cases hn
        refine ⟨h1, h2, fun id hid => ?_, fun id hid => ?_⟩
        · rcases List.mem_cons.1 hid with rfl | hid
          · refine ⟨hnone, bundle, .new initiated.session.ratchetRoot true, List.mem_cons_self, ?_,
              ⟨_, _, _, hinit, rfl⟩⟩
            rw [h4 _ hnot, MultiDeviceSession.withSession, SortedMap.get?_insert, if_pos rfl]
          · obtain ⟨hn, b, s, hb, hs⟩ := h3 id hid
            rw [MultiDeviceSession.withSession, SortedMap.get?_insert] at hn
            split_ifs at hn with heq
            exact ⟨hn, b, s, List.mem_cons_of_mem _ hb, hs⟩
        · rw [h4 id fun hmem => hid (List.mem_cons_of_mem _ hmem),
            MultiDeviceSession.withSession, SortedMap.get?_insert, if_neg]
          rintro rfl
          exact hid List.mem_cons_self

omit [Crypto β] in
/-- Exactly the devices that are authorized keep their sessions. -/
theorem revokeOthers_spec (authorizedIds ids : List ℕ) :
    (m.revokeOthers authorizedIds ids).mySigningIdentity = m.mySigningIdentity ∧
    (m.revokeOthers authorizedIds ids).lastSeenDeviceListVersion = m.lastSeenDeviceListVersion ∧
    ∀ id, (m.revokeOthers authorizedIds ids).sessions.get? id =
      if id ∈ ids ∧ id ∉ authorizedIds then none else m.sessions.get? id := by
  induction ids generalizing m with
  | nil => exact ⟨rfl, rfl, fun id => by simp [MultiDeviceSession.revokeOthers]⟩
  | cons deviceId ids ih =>
    simp only [MultiDeviceSession.revokeOthers]
    split_ifs with hmem
    · obtain ⟨h1, h2, h3⟩ := ih (m := m)
      refine ⟨h1, h2, fun id => ?_⟩
      have hne : id ∉ authorizedIds → id ≠ deviceId := fun hn he =>
        hn (he ▸ List.contains_iff_mem.1 hmem)
      rw [h3 id]
      by_cases hauth : id ∈ authorizedIds <;> simp [hauth, List.mem_cons]
      simp [hne hauth]
    · obtain ⟨h1, h2, h3⟩ := ih (m := m.revokeDevice deviceId)
      refine ⟨h1, h2, fun id => ?_⟩
      rw [h3 id, MultiDeviceSession.revokeDevice, SortedMap.get?_erase]
      have hnot : deviceId ∉ authorizedIds := fun h => hmem (List.contains_iff_mem.2 h)
      by_cases hid : id = deviceId
      · subst hid
        simp [hnot]
      · simp [hid, List.mem_cons]

end Sessions

end Definitions

end MultiDevice

end NovaChannel
