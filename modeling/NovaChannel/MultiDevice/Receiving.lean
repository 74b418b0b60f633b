import NovaChannel.Lib.Machine
import NovaChannel.MultiDevice.Symbolic
import NovaChannel.Ratchet.Once

/-!
# The receiving device

`ReceivingDevice` takes init messages from any number of peer devices and files a session for
each.  The runs of `inboxMachine` deliver the init messages of honest peers, any of them any
number of times and under any device id, and any records.
-/

namespace NovaChannel

namespace MultiDevice

open Crypto X3dh Ratchet

/-- One device's key material and the sessions of its peers, by identity and device id. -/
structure ReceivingDevice (β : Type) where
  dhIdentity : DhIdentity β
  spk : SignedPreKey β
  opks : OneTimePreKeyStore β
  sessions : β × ℕ → Option (RatchetedSession β)

section Definitions

variable {β : Type} [Crypto β] [ByteString β]

/-- `identity_key`. -/
def identityKey (identity : β) : β := frame [identity]

namespace ReceivingDevice

/-- `new`. -/
def new (dhIdentity : DhIdentity β) (spk : SignedPreKey β) (opks : OneTimePreKeyStore β) :
    ReceivingDevice β :=
  ⟨dhIdentity, spk, opks, fun _ => none⟩

variable [DecidableEq β]

/-- `receive_init`. -/
def receiveInit (d : ReceivingDevice β) (fromDevice : ℕ) (initMessageBytes : β) :
    ReceivingDevice β × Result (β × β) :=
  match respond d.dhIdentity d.spk d.opks initMessageBytes with
  | (opks, .error e) => ({ d with opks := opks }, .error e)
  | (opks, .ok responded) =>
    ({ d with
        opks := opks
        sessions := Function.update d.sessions
          (identityKey responded.initiatorIdentity, fromDevice)
          (some (.new responded.session.ratchetRoot false)) },
      .ok (responded.initiatorIdentity, responded.initialPayload))

/-- `open_from`. -/
def openFrom (d : ReceivingDevice β) (coins : ResponderCoins β) (sender : β) (fromDevice : ℕ)
    (record : β) : ReceivingDevice β × Result (Opened β) :=
  match d.sessions (identityKey sender, fromDevice) with
  | none => (d, .err .unknownDevice)
  | some session =>
    let (session, opened) := session.openRecord coins record
    ({ d with sessions :=
        Function.update d.sessions (identityKey sender, fromDevice) (some session) }, opened)

/-- `has_session`. -/
def hasSession (d : ReceivingDevice β) (sender : β) (fromDevice : ℕ) : Bool :=
  (d.sessions (identityKey sender, fromDevice)).isSome

end ReceivingDevice

/-- The init message references a one-time prekey. -/
def usesOneTimePrekey (bytes : β) : Bool :=
  match readInit bytes with
  | .ok m => m.opk.isSome
  | .error _ => false

/-! ### Specifications -/

section Specs

variable {d d' : ReceivingDevice β} {fromDevice : ℕ} {bytes : β}

/-- The message begins with the two public keys that it is read as. -/
theorem readInit_eq_ok {m : InitFields β} (h : readInit bytes = .ok m) :
    ∃ rest, unframe bytes = some (m.dhIdentity :: m.ephemeral :: rest) := by
  unfold readInit at h
  split at h
  · rename_i dhId eph ct flag rest hu
    obtain ⟨ct', -, h⟩ := Result.bind_eq_ok.1 h
    split at h
    · split_ifs at h
      obtain rfl := Except.ok.inj h
      exact ⟨_, hu⟩
    · cases h
    · split at h
      · cases h
      · obtain ⟨_, -, h⟩ := Result.bind_eq_ok.1 h
        split at h
        · split_ifs at h
          obtain rfl := Except.ok.inj h
          exact ⟨_, hu⟩
        · cases h
    · cases h
    · cases h
  · cases h

omit [ByteString β] in
/-- The keys of a responder contain the exchange of its identity with the ephemeral key. -/
theorem respondKeys_eq_ok {dh : DhIdentity β} {spk : SignedPreKey β}
    {opk : Option (OneTimePreKey β)} {m : InitFields β} {keys : SessionKeys β}
    (h : respondKeys dh spk opk m = .ok keys) :
    ∃ dh1 rest, keys = derive (frame (dh1 :: diffieHellman dh.secret m.ephemeral :: rest)) := by
  obtain ⟨dh1, -, h⟩ := Result.bind_eq_ok.1 h
  obtain ⟨dh2, h2, h⟩ := Result.bind_eq_ok.1 h
  obtain ⟨dh3, -, h⟩ := Result.bind_eq_ok.1 h
  obtain ⟨dh4, -, h⟩ := Result.bind_eq_ok.1 h
  obtain ⟨-, rfl⟩ := Group.checkedDh_eq_ok.1 h2
  exact ⟨_, _, (Except.ok.inj h).symm⟩

theorem openInit_eq_ok {dh : DhIdentity β} {spk : SignedPreKey β} {opks : OneTimePreKeyStore β}
    {m : InitFields β} {keys : SessionKeys β} {plaintext : β}
    (h : openInit dh spk opks bytes = .ok (m, keys, plaintext)) :
    readInit bytes = .ok m ∧ (∀ x ∈ m.opk, ∃ k, opks.peek x.1 = .ok k) ∧
    ∃ opk, respondKeys dh spk opk m = .ok keys := by
  obtain ⟨m', hm, h⟩ := Result.bind_eq_ok.1 h
  obtain ⟨opk, hopk, h⟩ := Result.bind_eq_ok.1 h
  obtain ⟨keys', hkeys, h⟩ := Result.bind_eq_ok.1 h
  obtain ⟨plaintext', hp, h⟩ := Result.bind_eq_ok.1 h
  simp only [Result.pure_eq_ok, Except.ok.injEq, Prod.mk.injEq] at h
  obtain ⟨rfl, rfl, rfl⟩ := h
  refine ⟨hm, fun x hx => ?_, opk, hkeys⟩
  obtain hx : m'.opk = some x := hx
  rw [hx, Option.map_some, transpose] at hopk
  cases hpeek : opks.peek x.1 with
  | ok k => exact ⟨k, rfl⟩
  | error e =>
    rw [hpeek] at hopk
    cases hopk

variable [DecidableEq β]

/-- What `receive_init` can do: fail, with no more one-time prekeys than before, or file a session
and use up the one-time prekey referenced. -/
theorem receiveInit_cases {r : Result (β × β)} (h : d.receiveInit fromDevice bytes = (d', r)) :
    (∃ e opks, r = .error e ∧ d' = { d with opks := opks } ∧ opks ⊆ d.opks) ∨
    ∃ m keys plaintext identity payload,
      openInit d.dhIdentity d.spk d.opks bytes = .ok (m, keys, plaintext) ∧
      readPayload plaintext = .ok (identity, payload) ∧ r = .ok (identity, payload) ∧
      d' = { d with
        opks := consumeReferenced d.opks m.opk
        sessions := Function.update d.sessions (identityKey identity, fromDevice)
          (some (.new keys.ratchetRoot false)) } := by
  have hsub : ∀ o : Option (ℕ × β), consumeReferenced d.opks o ⊆ d.opks := by
    intro o
    cases o with
    | none => exact fun _ hk => hk
    | some x => exact fun _ hk => (List.mem_filter.1 hk).1
  unfold ReceivingDevice.receiveInit respond at h
  cases hopen : openInit d.dhIdentity d.spk d.opks bytes with
  | error e =>
    simp only [hopen] at h
    obtain ⟨rfl, rfl⟩ := Prod.mk.inj h
    exact .inl ⟨e, d.opks, rfl, rfl, fun _ hk => hk⟩
  | ok opened =>
    obtain ⟨m, keys, plaintext⟩ := opened
    simp only [hopen] at h
    cases hread : readPayload plaintext with
    | error e =>
      rw [hread] at h
      obtain ⟨rfl, rfl⟩ := Prod.mk.inj h
      exact .inl ⟨e, _, rfl, rfl, hsub m.opk⟩
    | ok p =>
      obtain ⟨identity, payload⟩ := p
      rw [hread] at h
      obtain ⟨rfl, rfl⟩ := Prod.mk.inj h
      exact .inr ⟨m, keys, plaintext, identity, payload, rfl, hread, rfl, rfl⟩

/-- A message that references a one-time prekey no longer there changes nothing. -/
theorem receiveInit_of_unknown {m : InitFields β} {x : ℕ × β} (hm : readInit bytes = .ok m)
    (hx : m.opk = some x) (hopk : ∀ k ∈ d.opks, k.id ≠ x.1) :
    d.receiveInit fromDevice bytes = (d, .err .unknownOneTimePreKey) := by
  have hpeek : d.opks.peek x.1 = .err .unknownOneTimePreKey := by
    have hfind : d.opks.find? (·.id = x.1) = none :=
      List.find?_eq_none.2 fun k hk => by simpa using hopk k hk
    rw [OneTimePreKeyStore.peek, hfind]
  have hopen : openInit d.dhIdentity d.spk d.opks bytes = .err .unknownOneTimePreKey := by
    simp only [openInit, hm, Result.ok_bind, hx, Option.map_some, hpeek, transpose, Except.map,
      Result.error_bind]
  simp only [ReceivingDevice.receiveInit, respond, hopen]

end Specs

end Definitions

end MultiDevice

end NovaChannel
