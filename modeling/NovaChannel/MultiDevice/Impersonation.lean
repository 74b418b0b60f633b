import NovaChannel.MultiDevice.Receiving
import NovaChannel.Lib.Derives

/-!
# Who an init message comes from

The identity in an init message is part of what its sender seals; nothing ties it to the DH
identity whose secret went into the session.  `receiveInit_impersonates`: from public keys alone,
and keys of its own, any party makes an init message that a receiving device accepts as coming from
any other, in place of the session filed there.
-/

namespace NovaChannel

namespace MultiDevice

open Crypto X3dh Ratchet
open Term (dhPublic kemPublic)

/-! ### Receiving devices -/

/-- A call on a receiving device. -/
inductive DeviceCall (β : Type)
  | receiveInit (fromDevice : ℕ) (bytes : β)
  | openFrom (coins : ResponderCoins β) (sender : β) (fromDevice : ℕ) (record : β)

/-- The device of an owner, called with any inputs. -/
def deviceMachine (owner : ℕ) : Machine (ReceivingDevice Bytes) (DeviceCall Bytes) where
  init d := ∃ opks, d = .new (dhIdentityOf owner) (spkOf owner) opks
  step d
    | .receiveInit fromDevice bytes => some (d.receiveInit fromDevice bytes).1
    | .openFrom coins sender fromDevice record => some (d.openFrom coins sender fromDevice record).1

section Keys

variable {owner : ℕ} {d : ReceivingDevice Bytes}

/-- The long-term keys of a device stay. -/
theorem deviceMachine_keys {ok : ReceivingDevice Bytes → DeviceCall Bytes → Prop}
    (h : (deviceMachine owner).Reachable ok d) :
    d.dhIdentity = dhIdentityOf owner ∧ d.spk = spkOf owner := by
  induction h with
  | init hd =>
    obtain ⟨opks, rfl⟩ := hd
    exact ⟨rfl, rfl⟩
  | @step d d' a _ _ hs hkeys =>
    cases a with
    | receiveInit fromDevice bytes =>
      obtain rfl := Option.some.inj hs
      rcases receiveInit_cases (Prod.mk.eta (p := d.receiveInit fromDevice bytes)).symm with
        ⟨e, opks, -, heq, -⟩ | ⟨m, keys, plaintext, identity, payload, -, -, -, heq⟩
      · rw [heq]
        exact hkeys
      · rw [heq]
        exact hkeys
    | openFrom coins sender fromDevice record =>
      obtain rfl := Option.some.inj hs
      simp only [ReceivingDevice.openFrom]
      split
      · exact hkeys
      · exact hkeys

end Keys

/-! ### What a party knows -/

/-- What an owner publishes. -/
def published (owner : ℕ) : List Bytes :=
  [identityOf owner, (dhIdentityOf owner).publicKey, (spkOf owner).dhPublic, (spkOf owner).kemPublic,
    (spkOf owner).signature]

/-- The secrets of an owner, and the values it draws for the `k`-th session start. -/
def ownSecrets (owner k : ℕ) : List Bytes :=
  [.name (.identity owner), .name (.dhIdentity owner), .name (.spkDh owner), .name (.spkKem owner),
    .name (.ephemeral k), .name (.kemRandom k), .name (.opkKemRandom k)]

/-- What a party knows: what everyone publishes, and its own secrets. -/
def knowledge (party k : ℕ) : Set Bytes :=
  {t | (∃ owner, t ∈ published owner) ∨ t ∈ ownSecrets party k}

/-- The names that a party does not know. -/
def foreignNames (party : ℕ) : Policy Name where
  secret
    | .identity owner => owner ≠ party
    | .dhIdentity owner => owner ≠ party
    | _ => False
  exposed _ := False

/-- A party does not hold the secret keys of another. -/
theorem not_derives_foreign {party k owner : ℕ} (h : owner ≠ party) :
    ¬ Derives (knowledge party k) (.name (.identity owner)) ∧
    ¬ Derives (knowledge party k) (.name (.dhIdentity owner)) := by
  have hsafe : ∀ t ∈ knowledge party k, (foreignNames party).Safe t := by
    rintro t (⟨o, ht⟩ | ht)
    · simp only [published, List.mem_cons, List.not_mem_nil, or_false] at ht
      rcases ht with rfl | rfl | rfl | rfl | rfl <;> exact .inl rfl
    · simp only [ownSecrets, List.mem_cons, List.not_mem_nil, or_false] at ht
      rcases ht with rfl | rfl | rfl | rfl | rfl | rfl | rfl <;> simp [Policy.Safe, foreignNames]
  exact ⟨Policy.not_derives hsafe fun hs => hs h, Policy.not_derives hsafe fun hs => hs h⟩

/-- Whatever a party makes without the secret keys of `owner`, the device keeps the sessions filed
under `owner`'s identity and reports no new one from it. -/
def Isolated (d : ReceivingDevice Bytes) (owner fromDevice : ℕ) : Prop :=
  ∀ party k bytes, party ≠ owner → Derives (knowledge party k) bytes →
    (∀ id, (d.receiveInit fromDevice bytes).1.sessions (identityKey (identityOf owner), id) =
      d.sessions (identityKey (identityOf owner), id)) ∧
    ∀ payload, (d.receiveInit fromDevice bytes).2 ≠ .ok (identityOf owner, payload)

/-! ### The message -/

section Forgery

variable {party k owner : ℕ} {payload : Bytes}

theorem derives_published {o : ℕ} {t : Bytes} (h : t ∈ published o) :
    Derives (knowledge party k) t := .known (.inl ⟨o, h⟩)

theorem derives_own {t : Bytes} (h : t ∈ ownSecrets party k) : Derives (knowledge party k) t :=
  .known (.inr h)

theorem derives_dhIdentity : Derives (knowledge party k) (dhPublic (.name (.dhIdentity owner))) :=
  derives_published (o := owner) (List.mem_cons_of_mem _ List.mem_cons_self)

theorem derives_spkDh : Derives (knowledge party k) (dhPublic (.name (.spkDh owner))) :=
  derives_published (o := owner)
    (List.mem_cons_of_mem _ (List.mem_cons_of_mem _ List.mem_cons_self))

theorem derives_spkKem : Derives (knowledge party k) (kemPublic (.name (.spkKem owner))) :=
  derives_published (o := owner)
    (List.mem_cons_of_mem _ (List.mem_cons_of_mem _ (List.mem_cons_of_mem _ List.mem_cons_self)))

/-- The keys of a session come from what was combined. -/
theorem derives_derive {K : Set Bytes} {combined : Bytes} (h : Derives K combined) :
    Derives K (derive combined).ratchetRoot ∧ Derives K (derive combined).initPayloadKey :=
  ⟨.fn rfl (.fn rfl .nil h) (.lit _), .fn rfl (.fn rfl .nil h) (.lit _)⟩

/-- A party computes the keys of a session that it starts under its own DH identity. -/
theorem derives_initiateKeys :
    Derives (knowledge party k)
      (initiateKeys (initiateCoins k) (dhIdentityOf party) (bundleOf owner none)).ratchetRoot ∧
    Derives (knowledge party k)
      (initiateKeys (initiateCoins k) (dhIdentityOf party) (bundleOf owner none)).initPayloadKey := by
  have hown : Derives (knowledge party k) (.name (.dhIdentity party)) :=
    derives_own (by simp [ownSecrets])
  have heph : Derives (knowledge party k) (.name (.ephemeral k)) :=
    derives_own (by simp [ownSecrets])
  have hkem : Derives (knowledge party k) (.name (.kemRandom k)) :=
    derives_own (by simp [ownSecrets])
  refine derives_derive (.list fun t ht => ?_)
  rcases List.mem_cons.1 ht with rfl | ht
  · exact .dh hown derives_spkDh
  rcases List.mem_cons.1 ht with rfl | ht
  · exact .dh heph derives_dhIdentity
  rcases List.mem_cons.1 ht with rfl | ht
  · exact .dh heph derives_spkDh
  · obtain rfl := List.mem_singleton.1 ht
    exact .kemShared derives_spkKem hkem

/-- The message of the party, under the identity of `victim`. -/
def forgery (party k owner victim : ℕ) (payload : Bytes) : Bytes :=
  initiateMessage (initiateCoins k) (identityOf victim) (dhIdentityOf party) (bundleOf owner none)
    payload

theorem derives_forgery {victim : ℕ} (hp : Derives (knowledge party k) payload) :
    Derives (knowledge party k) (forgery party k owner victim payload) := by
  have heph : Derives (knowledge party k) (.name (.ephemeral k)) :=
    derives_own (by simp [ownSecrets])
  have hkem : Derives (knowledge party k) (.name (.kemRandom k)) :=
    derives_own (by simp [ownSecrets])
  have hheader : ∀ t ∈ initiateHeader (initiateCoins k) (dhIdentityOf party) (bundleOf owner none),
      Derives (knowledge party k) t := by
    intro t ht
    rcases List.mem_cons.1 ht with rfl | ht
    · exact derives_dhIdentity
    rcases List.mem_cons.1 ht with rfl | ht
    · exact .fn rfl heph .nil
    rcases List.mem_cons.1 ht with rfl | ht
    · exact .kemCiphertext derives_spkKem hkem
    · obtain rfl := List.mem_singleton.1 ht
      exact .num 0
  have hid : Derives (knowledge party k) (identityOf victim) :=
    derives_published (o := victim) List.mem_cons_self
  refine .list fun t ht => ?_
  rcases List.mem_append.1 ht with ht | ht
  · exact hheader t ht
  · obtain rfl := List.mem_singleton.1 ht
    refine .aead derives_initiateKeys.2 (.num 0) (.list fun t ht => ?_) (.list fun t ht => ?_)
    · rcases List.mem_cons.1 ht with rfl | ht
      · exact .lit _
      · obtain rfl := List.mem_singleton.1 ht
        exact .list hheader
    · rcases List.mem_cons.1 ht with rfl | ht
      · exact hid
      · obtain rfl := List.mem_singleton.1 ht
        exact hp

/-- **Any party can write in the name of any other**: from public keys and secrets of its own it
makes a message that the device accepts as `victim`'s, and that puts a session whose root it knows
in the place of the one filed under `victim`. -/
theorem receiveInit_impersonates {d : ReceivingDevice Bytes}
    {ok : ReceivingDevice Bytes → DeviceCall Bytes → Prop}
    (h : (deviceMachine owner).Reachable ok d) (party k victim fromDevice : ℕ)
    (hp : Derives (knowledge party k) payload) : ∃ bytes root,
      Derives (knowledge party k) bytes ∧ Derives (knowledge party k) root ∧
      (d.receiveInit fromDevice bytes).2 = .ok (identityOf victim, payload) ∧
      (d.receiveInit fromDevice bytes).1.sessions (identityKey (identityOf victim), fromDevice) =
        some (.new root false) := by
  obtain ⟨hdh, hspk⟩ := deviceMachine_keys h
  have hout : initiate (initiateCoins k) (identityOf victim) (dhIdentityOf party)
      (bundleOf owner none) payload = .ok ⟨_, _⟩ :=
    initiate_eq_ok.2 ⟨⟨rfl, rfl, rfl, fun _ h => (by cases h)⟩, rfl⟩
  have hholds : Holds (dhIdentityOf owner) (spkOf owner) d.opks (bundleOf owner none) :=
    holds_bundleOf owner fun _ h => (by cases h)
  have hrespond := respond_initiate Term.isMlKemCiphertext_encapsulate rfl hholds hout
  refine ⟨forgery party k owner victim payload,
    (initiateKeys (initiateCoins k) (dhIdentityOf party) (bundleOf owner none)).ratchetRoot,
    derives_forgery hp, derives_initiateKeys.1, ?_, ?_⟩
  · simp only [ReceivingDevice.receiveInit, hdh, hspk, forgery, hrespond]
  · simp only [ReceivingDevice.receiveInit, hdh, hspk, forgery, hrespond, Function.update_self]

/-- **No device isolates its senders**, in no state and under no device id. -/
theorem not_isolated {d : ReceivingDevice Bytes}
    {ok : ReceivingDevice Bytes → DeviceCall Bytes → Prop}
    (h : (deviceMachine owner).Reachable ok d) (victim fromDevice : ℕ) :
    ¬ Isolated d victim fromDevice := by
  intro hiso
  obtain ⟨bytes, root, hbytes, -, hresult, -⟩ :=
    receiveInit_impersonates h (victim + 1) 0 victim fromDevice (.lit "")
  exact (hiso (victim + 1) 0 bytes (by omega) hbytes).2 _ hresult

end Forgery

/-! ### A session taken over -/

/-- Device `1` after it took the init message of device `2`. -/
def filedDevice : ReceivingDevice Bytes :=
  ((ReceivingDevice.new (dhIdentityOf 1) (spkOf 1) []).receiveInit 5
    (initiateMessage (initiateCoins 0) (identityOf 2) (dhIdentityOf 2) (bundleOf 1 none)
      (.lit ""))).1

theorem reachable_filedDevice : (deviceMachine 1).Reachable (fun _ _ => True) filedDevice :=
  .step (a := .receiveInit 5 _) (.init ⟨[], rfl⟩) trivial rfl

theorem not_isolated_filedDevice : ¬ Isolated filedDevice 2 5 :=
  not_isolated reachable_filedDevice 2 5

/-- **Device `3` takes over the session of device `2`.** -/
theorem takenOver_filedDevice : ¬ ∀ owner d victim fromDevice,
    (deviceMachine owner).Reachable (fun _ _ => True) d → Isolated d victim fromDevice := by
  intro h
  have hfiled : (filedDevice.receiveInit 5 (forgery 3 1 1 2 (.lit ""))).2 =
      .ok (identityOf 2, .lit "") := by decide +kernel
  exact (h 1 filedDevice 2 5 reachable_filedDevice 3 1 _ (by decide)
    (derives_forgery (.lit ""))).2 _ hfiled

end MultiDevice

end NovaChannel
