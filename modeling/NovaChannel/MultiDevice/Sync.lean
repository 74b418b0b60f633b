import NovaChannel.Lib.Machine
import NovaChannel.MultiDevice.Account
import NovaChannel.MultiDevice.Symbolic
import Mathlib.Data.List.Nodup

/-!
# Sessions and signed device lists

A device that keeps its sessions with a peer account in step with the lists the account signs,
and uses the sessions in between.  `Tracked` records the lists accepted and, for every session,
the bundle it was established with.

* `Tracked.Bound` : every session is with a device the latest list names, and was established
  with the identities this list gives the device;
* `bound_of_keepsKeys` : this holds in every run in which no list gives a device that there is a
  session with other identities than the list before it;
* `not_bound_rekeyed` : a device re-keyed under its id keeps its old session.
-/

namespace NovaChannel

namespace MultiDevice

open Crypto X3dh Ratchet

variable {β : Type} [Crypto β] [ByteString β]

/-- A device's sessions with an account, with their history. -/
structure Tracked (β : Type) where
  device : MultiDeviceSession β
  /-- The lists accepted, the latest one first. -/
  accepted : List (SignedDeviceList β)
  /-- The bundle that the session with a device was established with. -/
  establishedWith : ℕ → Option (PreKeyBundle β)

/-- A call on the sessions. -/
inductive SyncAction (β : Type)
  | sync (coins : ℕ → InitiateCoins β) (myDhIdentity : DhIdentity β) (list : SignedDeviceList β)
      (bundles : List (ℕ × PreKeyBundle β))
  | fanOut (plaintext : β)
  | openFrom (coins : ResponderCoins β) (deviceId : ℕ) (record : β)
  | revokeDevice (deviceId : ℕ)

/-- The bundle a list lets in for a device. -/
def bundleFor [DecidableEq β] (account : β) (list : SignedDeviceList β) (bundles : List (ℕ × PreKeyBundle β))
    (deviceId : ℕ) : Option (PreKeyBundle β) :=
  match RemoteAccount.fromSignedDeviceList account list bundles with
  | .ok remote => remote.get? deviceId
  | .error _ => none

/-- One call; a call of `sync_from_signed_device_list` that fails ends the run. -/
def Tracked.step [DecidableEq β] (account : β) (w : Tracked β) : SyncAction β → Option (Tracked β)
  | .sync coins dh list bundles =>
    match w.device.syncFromSignedDeviceList coins dh account list bundles with
    | (_, .error _) => none
    | (device, .ok messages) => some {
        device := device
        accepted := list :: w.accepted
        -- a session is new exactly when there is an init message for its device
        establishedWith := fun id =>
          if id ∈ messages.map (·.1) then bundleFor account list bundles id
          else w.establishedWith id }
  | .fanOut plaintext => some { w with device := (w.device.fanOut plaintext).1 }
  | .openFrom coins deviceId record =>
    some { w with device := (w.device.openFrom coins deviceId record).1 }
  | .revokeDevice deviceId => some { w with device := w.device.revokeDevice deviceId }

/-- The sessions with one account, from the beginning. -/
def syncMachine [DecidableEq β] (account : β) : Machine (Tracked β) (SyncAction β) where
  init w := ∃ mySigningIdentity, w = ⟨.new mySigningIdentity, [], fun _ => none⟩
  step := Tracked.step account

/-- The states of a session in use. -/
inductive UsedFrom (s₀ : RatchetedSession β) : RatchetedSession β → Prop
  | refl : UsedFrom s₀ s₀
  | sealed {s s' : RatchetedSession β} {plaintext record : β} (h : UsedFrom s₀ s)
      (hs : s.sealRecord plaintext = .ok (s', record)) : UsedFrom s₀ s'
  | opened {s : RatchetedSession β} (h : UsedFrom s₀ s) (coins : ResponderCoins β) (record : β) :
      UsedFrom s₀ (s.openRecord coins record).1

/-- The list names the device, and gives it the bundle's identities. -/
def Names (list : SignedDeviceList β) (deviceId : ℕ) (bundle : PreKeyBundle β) : Prop :=
  deviceId ∈ list.deviceIds ∧ ∀ entry ∈ list.entries, entry.deviceId = deviceId →
    entry.identity = bundle.identity ∧ entry.dhIdentity = bundle.dhIdentity

namespace Tracked

/-- Every session is with a device of the latest list, and was established with the identities
that this list gives it. -/
def Bound (w : Tracked β) : Prop :=
  ∀ id session, w.device.sessions.get? id = some session →
    ∃ list ∈ w.accepted.head?, ∃ bundle s₀, w.establishedWith id = some bundle ∧
      EstablishedWith w.device.mySigningIdentity bundle s₀ ∧ UsedFrom s₀ session ∧
      Names list id bundle

/-- Every list accepted is newer than the one before, and the version seen last is the latest
list's. -/
def VersionsIncrease (w : Tracked β) : Prop :=
  w.accepted.Pairwise (fun later earlier => earlier.version < later.version) ∧
  w.device.lastSeenDeviceListVersion = w.accepted.head?.map (·.version)

end Tracked

/-- The ids within a list are distinct. -/
def DistinctIds (_ : Tracked β) : SyncAction β → Prop
  | .sync _ _ list _ => list.deviceIds.Nodup
  | _ => True

/-- No device that there is a session with gets other identities than the list before gave it. -/
def KeepsKeys (w : Tracked β) : SyncAction β → Prop
  | .sync _ _ list _ => ∀ id, w.device.sessions.contains id = true →
      ∀ old ∈ w.accepted.head?, ∀ e ∈ old.entries, ∀ e' ∈ list.entries,
        e.deviceId = id → e'.deviceId = id → e.identity = e'.identity ∧ e.dhIdentity = e'.dhIdentity
  | _ => True

/-! ### What a call does to the sessions -/

section Calls

variable {m m' : MultiDeviceSession β} {account : β} {list : SignedDeviceList β}
  {bundles : List (ℕ × PreKeyBundle β)}

omit [ByteString β] in
/-- What a successful call of `sync_from_signed_device_list` does. -/
theorem syncFromSignedDeviceList_eq_ok [DecidableEq β] {coins : ℕ → InitiateCoins β} {dh : DhIdentity β}
    {messages : List (ℕ × β)}
    (h : m.syncFromSignedDeviceList coins dh account list bundles = (m', .ok messages)) :
    m.isStale list = false ∧ m'.mySigningIdentity = m.mySigningIdentity ∧
    m'.lastSeenDeviceListVersion = some list.version ∧
    (∀ id, id ∈ messages.map (·.1) → ∃ bundle session,
      m.sessions.get? id = none ∧ bundleFor account list bundles id = some bundle ∧
      Authorizes list id bundle ∧ m'.sessions.get? id = some session ∧
      EstablishedWith m.mySigningIdentity bundle session) ∧
    (∀ id, id ∉ messages.map (·.1) →
      m'.sessions.get? id = if id ∈ list.deviceIds then m.sessions.get? id else none) := by
  simp only [MultiDeviceSession.syncFromSignedDeviceList] at h
  split_ifs at h with hstale
  · cases (Prod.mk.inj h).2
  split at h
  · cases (Prod.mk.inj h).2
  rename_i remote hremote
  split at h
  · cases (Prod.mk.inj h).2
  rename_i m₁ messages₁ hsync
  simp only [Prod.mk.injEq, Except.ok.injEq] at h
  obtain ⟨rfl, rfl⟩ := h
  obtain ⟨-, hauth⟩ := fromSignedDeviceList_authorized hremote
  obtain ⟨h1, -, h3, h4⟩ := syncEach_eq_ok remote.sorted hsync
  obtain ⟨r1, -, r3⟩ := revokeOthers_spec (m := m) list.deviceIds m.sessions.keys
  refine ⟨by simpa using hstale, by rw [h1, r1], rfl, fun id hid => ?_, fun id hid => ?_⟩
  · obtain ⟨hnone, bundle, session, hb, hs, he⟩ := h3 id hid
    have hget := SortedMap.mem_toList.1 hb
    obtain ⟨entry, hentry, -⟩ := hauth id bundle hget
    obtain ⟨hmem, rfl⟩ := mem_deviceIds_of_entryFor hentry
    have hnamed : entry.deviceId ∈ list.deviceIds := List.mem_map_of_mem hmem
    refine ⟨bundle, session, ?_, ?_, hauth _ bundle hget, hs, r1 ▸ he⟩
    · rw [r3, if_neg fun hn => hn.2 hnamed] at hnone
      exact hnone
    · rw [bundleFor, hremote]
      exact hget
  · show m₁.sessions.get? id = _
    rw [h4 id hid, r3 id]
    by_cases hid' : id ∈ list.deviceIds
    · simp [hid']
    · cases hget : m.sessions.get? id with
      | none => simp
      | some session =>
        have : id ∈ m.sessions.keys := SortedMap.mem_keys.2 ⟨session, hget⟩
        simp [hid', this]

/-- The sessions after a call are the sessions before it, used some more. -/
def SameSessions (m m' : MultiDeviceSession β) : Prop :=
  m'.mySigningIdentity = m.mySigningIdentity ∧
  m'.lastSeenDeviceListVersion = m.lastSeenDeviceListVersion ∧
  ∀ id session', m'.sessions.get? id = some session' →
    ∃ session, m.sessions.get? id = some session ∧ UsedFrom session session'

theorem UsedFrom.trans {s₀ s₁ s₂ : RatchetedSession β} (h : UsedFrom s₀ s₁)
    (h' : UsedFrom s₁ s₂) : UsedFrom s₀ s₂ := by
  induction h' with
  | refl => exact h
  | sealed _ hs ih => exact .sealed ih hs
  | opened _ coins record ih => exact .opened ih coins record

theorem SameSessions.refl (m : MultiDeviceSession β) : SameSessions m m :=
  ⟨rfl, rfl, fun _ session h => ⟨session, h, .refl⟩⟩

theorem SameSessions.trans {m₀ m₁ m₂ : MultiDeviceSession β} (h : SameSessions m₀ m₁)
    (h' : SameSessions m₁ m₂) : SameSessions m₀ m₂ := by
  refine ⟨h'.1.trans h.1, h'.2.1.trans h.2.1, fun id s₂ hs₂ => ?_⟩
  obtain ⟨s₁, hs₁, hu₁⟩ := h'.2.2 id s₂ hs₂
  obtain ⟨s₀, hs₀, hu₀⟩ := h.2.2 id s₁ hs₁
  exact ⟨s₀, hs₀, hu₀.trans hu₁⟩

theorem SameSessions.withSession {id : ℕ} {session session' : RatchetedSession β}
    (h : m.sessions.get? id = some session) (hu : UsedFrom session session') :
    SameSessions m (m.withSession id session') := by
  refine ⟨rfl, rfl, fun id' s hs => ?_⟩
  rw [MultiDeviceSession.withSession, SortedMap.get?_insert] at hs
  split_ifs at hs with hid
  · obtain rfl := Option.some.inj hs
    exact ⟨session, hid ▸ h, hu⟩
  · exact ⟨s, hs, .refl⟩

theorem sameSessions_sealEach (plaintext : β) (ids : List ℕ) :
    SameSessions m (m.sealEach plaintext ids).1 := by
  induction ids generalizing m with
  | nil => exact .refl m
  | cons id ids ih =>
    simp only [MultiDeviceSession.sealEach]
    split
    · exact ih
    · rename_i session hget
      split
      · exact .refl m
      · rename_i session' record hseal
        exact (SameSessions.withSession hget (.sealed .refl hseal)).trans ih

theorem sameSessions_openFrom (coins : ResponderCoins β) (id : ℕ) (record : β) :
    SameSessions m (m.openFrom coins id record).1 := by
  simp only [MultiDeviceSession.openFrom]
  split
  · exact .refl m
  · rename_i session hget
    exact .withSession hget (.opened .refl coins record)

theorem sameSessions_revokeDevice (id : ℕ) : SameSessions m (m.revokeDevice id) := by
  refine ⟨rfl, rfl, fun id' session hs => ?_⟩
  rw [MultiDeviceSession.revokeDevice, SortedMap.get?_erase] at hs
  split_ifs at hs
  exact ⟨session, hs, .refl⟩

end Calls

/-! ### Runs -/

section Runs

variable [DecidableEq β] {account : β} {w w' : Tracked β}

omit [Crypto β] [ByteString β] [DecidableEq β] in
theorem Names.of_authorizes {list : SignedDeviceList β} {id : ℕ} {bundle : PreKeyBundle β}
    (hd : list.deviceIds.Nodup) (h : Authorizes list id bundle) : Names list id bundle := by
  obtain ⟨entry, hentry, hb⟩ := h
  obtain ⟨hmem, rfl⟩ := mem_deviceIds_of_entryFor hentry
  refine ⟨List.mem_map_of_mem hmem, fun e he hid => ?_⟩
  obtain rfl : e = entry := List.inj_on_of_nodup_map hd he hmem hid
  exact hb

omit [DecidableEq β] in
/-- Using sessions keeps them bound. -/
theorem Tracked.Bound.of_sameSessions {m : MultiDeviceSession β} (h : w.Bound)
    (hm : SameSessions w.device m) : ({ w with device := m } : Tracked β).Bound := by
  intro id session' hs
  obtain ⟨session, hget, hu⟩ := hm.2.2 id session' hs
  obtain ⟨list, hlist, bundle, s₀, hb, he, hu₀, hn⟩ := h id session hget
  exact ⟨list, hlist, bundle, s₀, hb, hm.1 ▸ he, hu₀.trans hu, hn⟩

/-- **After a new list the sessions are bound exactly when it re-keys no device that there is a
session with.** -/
theorem bound_sync_iff {coins : ℕ → InitiateCoins β} {dh : DhIdentity β}
    {list : SignedDeviceList β} {bundles : List (ℕ × PreKeyBundle β)} (hb : w.Bound)
    (hd : list.deviceIds.Nodup) (h : w.step account (.sync coins dh list bundles) = some w') :
    w'.Bound ↔ KeepsKeys w (.sync coins dh list bundles) := by
  simp only [Tracked.step] at h
  split at h
  · cases h
  rename_i device messages hsync
  obtain rfl := Option.some.inj h
  obtain ⟨-, hme, -, hnew, hold⟩ := syncFromSignedDeviceList_eq_ok hsync
  constructor
  · intro hb' id hheld old hlatest e he e' he' hid hid'
    obtain ⟨session, hs⟩ := Option.isSome_iff_exists.1 hheld
    -- the session stays, with the bundle it was established with
    have hnot : id ∉ messages.map (·.1) := fun hmem => by
      obtain ⟨bundle, _, hnone, -⟩ := hnew id hmem
      rw [hs] at hnone
      cases hnone
    have hkept : device.sessions.get? id = some session := by
      rw [hold id hnot, if_pos (hid' ▸ List.mem_map_of_mem he'), hs]
    obtain ⟨old', hold', bundle, _, hw, -, -, hn⟩ := hb id session hs
    obtain rfl : old = old' := Option.some.inj (hlatest.symm.trans hold')
    obtain ⟨new, hlist, bundle', _, hw', -, -, hn'⟩ := hb' id session hkept
    obtain rfl : list = new := Option.some.inj hlist
    simp only [hnot, ↓reduceIte, hw, Option.some.injEq] at hw'
    subst hw'
    obtain ⟨h1, h2⟩ := hn.2 e he hid
    obtain ⟨h1', h2'⟩ := hn'.2 e' he' hid'
    exact ⟨h1.trans h1'.symm, h2.trans h2'.symm⟩
  · intro hkeeps id session hs
    refine ⟨list, rfl, ?_⟩
    by_cases hmem : id ∈ messages.map (·.1)
    · obtain ⟨bundle, s₀, -, hbundle, hauth, hs₀, he⟩ := hnew id hmem
      obtain rfl : s₀ = session := Option.some.inj (hs₀.symm.trans hs)
      exact ⟨bundle, s₀, by simp only [hmem, ↓reduceIte, hbundle], hme ▸ he, .refl,
        .of_authorizes hd hauth⟩
    · -- a session that was there before, with a device the list still names
      have hs' := hold id hmem
      rw [hs] at hs'
      split_ifs at hs' with hnamed
      obtain ⟨old, hlatest, bundle, s₀, hw, he, hu, hn⟩ := hb id session hs'.symm
      refine ⟨bundle, s₀, by simp only [hmem, ↓reduceIte, hw], hme ▸ he, hu, hnamed,
        fun e' he' hid' => ?_⟩
      obtain ⟨e, hemem, hid⟩ := List.mem_map.1 hn.1
      have hheld : w.device.sessions.contains id = true := by
        rw [SortedMap.contains, ← hs']
        rfl
      obtain ⟨h1, h2⟩ := hkeeps id hheld old hlatest e hemem e' he' hid hid'
      obtain ⟨g1, g2⟩ := hn.2 e hemem hid
      exact ⟨h1 ▸ g1, h2 ▸ g2⟩

/-- Every call keeps the versions increasing, whatever the lists say. -/
theorem versionsIncrease_step {a : SyncAction β} (h : w.step account a = some w')
    (hw : w.VersionsIncrease) : w'.VersionsIncrease := by
  cases a with
  | sync coins dh list bundles =>
    simp only [Tracked.step] at h
    split at h
    · cases h
    rename_i device messages hsync
    obtain rfl := Option.some.inj h
    obtain ⟨hstale, -, hlast, -⟩ := syncFromSignedDeviceList_eq_ok hsync
    refine ⟨List.pairwise_cons.2 ⟨fun earlier hmem => ?_, hw.1⟩, hlast⟩
    -- newer than the latest list, which is newer than all before it
    obtain ⟨latest, rest, hacc⟩ := List.exists_cons_of_ne_nil (List.ne_nil_of_mem hmem)
    have hnewer : latest.version < list.version := by
      rw [MultiDeviceSession.isStale, hw.2, hacc] at hstale
      simpa using hstale
    have hpair := hw.1
    rw [hacc] at hmem hpair
    rcases List.mem_cons.1 hmem with rfl | hmem
    · exact hnewer
    · exact lt_trans ((List.pairwise_cons.1 hpair).1 earlier hmem) hnewer
  | fanOut plaintext =>
    obtain rfl := Option.some.inj h
    exact ⟨hw.1, (sameSessions_sealEach plaintext _).2.1.trans hw.2⟩
  | openFrom coins id record =>
    obtain rfl := Option.some.inj h
    exact ⟨hw.1, (sameSessions_openFrom coins id record).2.1.trans hw.2⟩
  | revokeDevice id =>
    obtain rfl := Option.some.inj h
    exact ⟨hw.1, hw.2⟩

theorem versionsIncrease_of_reachable {ok : Tracked β → SyncAction β → Prop}
    (h : (syncMachine account).Reachable ok w) : w.VersionsIncrease := by
  refine h.invariant (fun w₀ hinit => ?_) fun w₀ w₁ a _ hw _ hs => ?_
  · obtain ⟨_, rfl⟩ := hinit
    exact ⟨List.Pairwise.nil, rfl⟩
  · exact versionsIncrease_step (show w₀.step account a = some w₁ from hs) hw

theorem bound_of_reachable
    (h : (syncMachine account).Reachable (fun w a => DistinctIds w a ∧ KeepsKeys w a) w) :
    w.Bound := by
  refine h.invariant ?_ fun w w' a _ hb ha hs => ?_
  · rintro _ ⟨_, rfl⟩ id session hs
    cases hs
  · cases a with
    | sync coins dh list bundles => exact (bound_sync_iff hb ha.1 hs).2 ha.2
    | fanOut plaintext =>
      obtain rfl := Option.some.inj hs
      exact hb.of_sameSessions (sameSessions_sealEach plaintext _)
    | openFrom coins id record =>
      obtain rfl := Option.some.inj hs
      exact hb.of_sameSessions (sameSessions_openFrom coins id record)
    | revokeDevice id =>
      obtain rfl := Option.some.inj hs
      exact hb.of_sameSessions (sameSessions_revokeDevice id)

/-- **Signed device lists bind the sessions, as long as no list re-keys a device that there is a
session with**, and the first list that does leaves a session that is not bound. -/
theorem bound_of_keepsKeys
    (h : (syncMachine account).Reachable (fun w a => DistinctIds w a ∧ KeepsKeys w a) w) :
    w.Bound ∧ w.VersionsIncrease ∧
    ∀ coins dh list bundles w', list.deviceIds.Nodup →
      (syncMachine account).step w (.sync coins dh list bundles) = some w' →
      (w'.Bound ↔ KeepsKeys w (.sync coins dh list bundles)) :=
  have hb := bound_of_reachable h
  ⟨hb, versionsIncrease_of_reachable h, fun _ _ _ _ _ hd hs => bound_sync_iff hb hd hs⟩

end Runs

/-! ### Two runs -/

section Sample

/-- A list of devices, by their ids and owners, that the account signed. -/
def listOf (version : ℕ) (devices : List (ℕ × ℕ)) : SignedDeviceList Bytes :=
  let entries := devices.map fun d => ⟨d.1, identityOf d.2, (dhIdentityOf d.2).publicKey⟩
  ⟨version, entries, sign (.name (.identity 0)) (deviceListSignedBytes version entries)⟩

/-- The call that takes the list in, with the bundles of the devices' owners. -/
def syncOf (version : ℕ) (devices : List (ℕ × ℕ)) : SyncAction Bytes :=
  .sync initiateCoins (dhIdentityOf 1) (listOf version devices)
    (devices.map fun d => (d.1, bundleOf d.2 none))

/-- The sessions of one device with account `0`, before the first list. -/
def unsynced : Tracked Bytes := ⟨.new (identityOf 1), [], fun _ => none⟩

/-- The run of two lists. -/
def syncTwice (devices devices' : List (ℕ × ℕ)) : Option (Tracked Bytes) :=
  (syncMachine (identityOf 0)).run unsynced [syncOf 1 devices, syncOf 2 devices']

/-- A run that keeps one device and adds another. -/
theorem bound_of_keepsKeys_added : ∃ w, syncTwice [(7, 2)] [(7, 2), (8, 3)] = some w ∧
    w.device.sessions.keys = [7, 8] ∧ w.Bound := by
  have hrun : (syncTwice [(7, 2)] [(7, 2), (8, 3)]).map (fun w => w.device.sessions.keys) =
      some [7, 8] := by decide +kernel
  obtain ⟨w, hw, hkeys⟩ := Option.map_eq_some_iff.1 hrun
  obtain ⟨w₁, h₁, hw₁⟩ := (Machine.run_cons _).1 hw
  obtain ⟨w₂, h₂, hw₂⟩ := (Machine.run_cons _).1 hw₁
  obtain rfl : w₂ = w := Option.some.inj hw₂
  have hlatest : w₁.accepted.head? = some (listOf 1 [(7, 2)]) := by
    have hfirst : ((syncMachine (identityOf 0)).step unsynced (syncOf 1 [(7, 2)])).map
        (fun w => w.accepted.head?) = some (some (listOf 1 [(7, 2)])) := by decide +kernel
    rw [h₁] at hfirst
    exact Option.some.inj hfirst
  have hreach₁ : (syncMachine (identityOf 0)).Reachable
      (fun w a => DistinctIds w a ∧ KeepsKeys w a) w₁ := by
    have hd : DistinctIds unsynced (syncOf 1 [(7, 2)]) :=
      (by decide : (listOf 1 [(7, 2)]).deviceIds.Nodup)
    have hkeeps : KeepsKeys unsynced (syncOf 1 [(7, 2)]) := fun _ _ _ hold => (by cases hold)
    exact .step (.init ⟨_, rfl⟩) ⟨hd, hkeeps⟩ h₁
  have hd : DistinctIds w₁ (syncOf 2 [(7, 2), (8, 3)]) :=
    (by decide : (listOf 2 [(7, 2), (8, 3)]).deviceIds.Nodup)
  refine ⟨w₂, hw, hkeys, (bound_of_keepsKeys (hreach₁.step ⟨hd, ?_⟩ h₂)).1⟩
  -- the second list gives device `7` the identities of the first
  intro id _ old hold e he e' he' hid hid'
  obtain rfl : listOf 1 [(7, 2)] = old := Option.some.inj (hlatest.symm.trans hold)
  simp only [listOf, List.map_cons, List.map_nil, List.mem_cons, List.not_mem_nil,
    or_false] at he he'
  subst he
  rcases he' with rfl | rfl
  · exact ⟨rfl, rfl⟩
  · subst hid
    cases hid'

/-- **A re-keyed device keeps its session**: two lists of the account give device `7` to two
owners, one after the other. -/
theorem not_bound_rekeyed : ¬ ∀ w, (syncMachine (identityOf 0)).Reachable DistinctIds w →
    w.Bound ∧ w.VersionsIncrease := by
  intro h
  have hrun : (syncTwice [(7, 2)] [(7, 3)]).map (fun w =>
      (w.device.sessions.contains 7, w.establishedWith 7, w.accepted.head?)) =
      some (true, some (bundleOf 2 none), some (listOf 2 [(7, 3)])) := by decide +kernel
  obtain ⟨w, hw, hstate⟩ := Option.map_eq_some_iff.1 hrun
  simp only [Prod.mk.injEq] at hstate
  obtain ⟨hheld, hbundle, hlatest⟩ := hstate
  have hreach : (syncMachine (identityOf 0)).Reachable DistinctIds w := by
    refine .of_run (.init ⟨_, rfl⟩) (fun _ a ha => ?_) hw
    rcases List.mem_cons.1 ha with rfl | ha
    · exact (by decide : (listOf 1 [(7, 2)]).deviceIds.Nodup)
    · obtain rfl := List.mem_singleton.1 ha
      exact (by decide : (listOf 2 [(7, 3)]).deviceIds.Nodup)
  obtain ⟨session, hs⟩ := Option.isSome_iff_exists.1 hheld
  obtain ⟨list, hlist, bundle, _, hb, -, -, hnames⟩ := (h w hreach).1 7 session hs
  obtain rfl : listOf 2 [(7, 3)] = list := Option.some.inj (hlatest.symm.trans hlist)
  obtain rfl : bundleOf 2 none = bundle := Option.some.inj (hbundle.symm.trans hb)
  exact absurd (hnames.2 _ List.mem_cons_self rfl).1 (by decide)

end Sample

end MultiDevice

end NovaChannel
