import NovaChannel.MultiDevice.Account
import NovaChannel.MultiDevice.Symbolic

/-!
# What a failed sync leaves behind

`sync_devices` establishes one session after the other, and a bundle that fails ends it.  The
init messages made before are dropped, but their sessions stay, so a retry skips their devices.

* `SyncCall.Atomic` : a call that fails changes nothing, and a retry with good bundles returns an
  init message for every device that had no session before the call;
* `atomic_iff` : **exactly when** a call is atomic: every missing device can be reached, or the
  first of them cannot (and no session is revoked on the way);
* `not_atomic_second` : a second device with a bad bundle costs the first one its init message.
-/

namespace NovaChannel

namespace MultiDevice

open Crypto X3dh Ratchet

section Atomic

variable {β : Type} [Crypto β]

/-- A call that establishes sessions. -/
inductive SyncCall (β : Type)
  | devices (coins : ℕ → InitiateCoins β) (myDhIdentity : DhIdentity β) (remote : RemoteAccount β)
  | signed (coins : ℕ → InitiateCoins β) (myDhIdentity : DhIdentity β) (expectedAccount : β)
      (list : SignedDeviceList β) (bundles : List (ℕ × PreKeyBundle β))

/-- A session can be established from the bundle: its prekey is signed, and every exchange with it
contributes. -/
def Usable (coins : ℕ → InitiateCoins β) (dh : DhIdentity β) (x : ℕ × PreKeyBundle β) : Prop :=
  x.2.verify = .ok () ∧ Contributory (coins x.1) dh x.2

omit [Crypto β] in
/-- The devices without a session, in the order of their ids. -/
def missing (m : MultiDeviceSession β) (bundles : List (ℕ × PreKeyBundle β)) :
    List (ℕ × PreKeyBundle β) :=
  bundles.filter fun x => !m.sessions.contains x.1

namespace SyncCall

omit [Crypto β] in
def coins : SyncCall β → ℕ → InitiateCoins β
  | .devices coins _ _ => coins
  | .signed coins _ _ _ _ => coins

omit [Crypto β] in
def myDhIdentity : SyncCall β → DhIdentity β
  | .devices _ dh _ => dh
  | .signed _ dh _ _ _ => dh

variable [DecidableEq β]

def run (m : MultiDeviceSession β) : SyncCall β → MultiDeviceSession β × Result (List (ℕ × β))
  | .devices coins dh remote => m.syncDevices coins dh remote
  | .signed coins dh account list bundles =>
    m.syncFromSignedDeviceList coins dh account list bundles

/-- The devices that the call is about, unless it refuses the list. -/
def view (m : MultiDeviceSession β) : SyncCall β → Option (RemoteAccount β)
  | .devices _ _ remote => some remote
  | .signed _ _ account list bundles =>
    if m.isStale list then none
    else (RemoteAccount.fromSignedDeviceList account list bundles).toOption

omit [Crypto β] [DecidableEq β] in
/-- The list of the call leaves out a device that there is a session with. -/
def Revokes (m : MultiDeviceSession β) : SyncCall β → Prop
  | .devices _ _ _ => False
  | .signed _ _ _ list _ => ∃ id, m.sessions.contains id = true ∧ id ∉ list.deviceIds

/-- A call that fails changes nothing, and a retry with good bundles returns an init message for
every device without a session before the call. -/
def Atomic (m : MultiDeviceSession β) (call : SyncCall β) : Prop :=
  ∀ e, (call.run m).2 = .error e →
    (call.run m).1.sessions = m.sessions ∧
    (call.run m).1.lastSeenDeviceListVersion = m.lastSeenDeviceListVersion ∧
    ∀ (retry : SyncCall β) (remote : RemoteAccount β), retry.view (call.run m).1 = some remote →
      (∀ x ∈ remote.toList, Usable retry.coins retry.myDhIdentity x) →
      ∃ messages, (retry.run (call.run m).1).2 = .ok messages ∧
        ∀ x ∈ remote.toList, m.sessions.get? x.1 = none → x.1 ∈ messages.map (·.1)

end SyncCall

/-! ### The loop -/

section Loop

variable {m m' : MultiDeviceSession β} {coins : ℕ → InitiateCoins β} {dh : DhIdentity β}
  {bundles : List (ℕ × PreKeyBundle β)}

/-- A bundle can be used exactly when its two checks pass. -/
theorem start_eq_ok {identity : β} {x : ℕ × PreKeyBundle β} :
    (∃ initiated, (x.2.verify >>= fun _ => initiate (coins x.1) identity dh x.2 (lit "")) =
      .ok initiated) ↔ Usable coins dh x := by
  constructor
  · rintro ⟨initiated, h⟩
    obtain ⟨u, hv, h⟩ := Result.bind_eq_ok.1 h
    exact ⟨hv, (initiate_eq_ok.1 h).1⟩
  · rintro ⟨hv, hc⟩
    exact ⟨_, Result.bind_eq_ok.2 ⟨(), hv, initiate_eq_ok.2 ⟨hc, rfl⟩⟩⟩

omit [Crypto β] in
theorem missing_cons_of_contains {x : ℕ × PreKeyBundle β}
    (h : m.sessions.contains x.1 = true) : missing m (x :: bundles) = missing m bundles := by
  rw [missing, List.filter_cons_of_neg (by simp [h])]
  rfl

omit [Crypto β] in
theorem missing_cons_of_not_contains {x : ℕ × PreKeyBundle β}
    (h : ¬ m.sessions.contains x.1 = true) :
    missing m (x :: bundles) = x :: missing m bundles := by
  rw [missing, List.filter_cons_of_pos (by simp [h])]
  rfl

omit [Crypto β] in
/-- A session with a device that is not in the list does not matter. -/
theorem missing_withSession {id : ℕ} (session : RatchetedSession β)
    (h : ∀ x ∈ bundles, id < x.1) :
    missing (m.withSession id session) bundles = missing m bundles := by
  refine List.filter_congr fun x hx => ?_
  rw [MultiDeviceSession.withSession, SortedMap.contains, SortedMap.contains,
    SortedMap.get?_insert, if_neg (h x hx).ne']

/-- What one turn of the loop does. -/
theorem syncEach_cons (m : MultiDeviceSession β) (coins : ℕ → InitiateCoins β)
    (dh : DhIdentity β) (bundles : List (ℕ × PreKeyBundle β)) (x : ℕ × PreKeyBundle β) :
    (m.sessions.contains x.1 = true ∧
      m.syncEach coins dh (x :: bundles) = m.syncEach coins dh bundles) ∨
    (m.sessions.contains x.1 = false ∧ ¬ Usable coins dh x ∧
      ∃ e, m.syncEach coins dh (x :: bundles) = (m, .error e)) ∨
    (m.sessions.contains x.1 = false ∧ Usable coins dh x ∧ ∃ session message,
      m.syncEach coins dh (x :: bundles) =
        (((m.withSession x.1 session).syncEach coins dh bundles).1,
          ((m.withSession x.1 session).syncEach coins dh bundles).2.map ((x.1, message) :: ·))) := by
  obtain ⟨deviceId, bundle⟩ := x
  rw [MultiDeviceSession.syncEach]
  by_cases hheld : m.sessions.contains deviceId = true
  · exact .inl ⟨hheld, if_pos hheld⟩
  have hnot : m.sessions.contains deviceId = false := by simpa using hheld
  rw [if_neg hheld]
  cases hstart : (bundle.verify >>= fun _ =>
      initiate (coins deviceId) m.mySigningIdentity dh bundle (lit "")) with
  | error e =>
    refine .inr (.inl ⟨hnot, fun hu => ?_, e, rfl⟩)
    obtain ⟨initiated, h⟩ := @start_eq_ok β _ coins dh m.mySigningIdentity (deviceId, bundle) |>.2 hu
    rw [hstart] at h
    cases h
  | ok initiated =>
    exact .inr (.inr ⟨hnot, start_eq_ok.1 ⟨initiated, hstart⟩, _, _, rfl⟩)

/-- The loop keeps every session. -/
theorem get?_syncEach_of_some {id : ℕ} {session : RatchetedSession β}
    (h : m.sessions.get? id = some session) :
    (m.syncEach coins dh bundles).1.sessions.get? id = some session := by
  induction bundles generalizing m with
  | nil => exact h
  | cons x rest ih =>
    obtain ⟨-, heq⟩ | ⟨-, -, e, heq⟩ | ⟨hnot, -, s, message, heq⟩ :=
      syncEach_cons m coins dh rest x
    · rw [heq]
      exact ih h
    · rw [heq]
      exact h
    · rw [heq]
      refine ih ?_
      have hne : id ≠ x.1 := by
        rintro rfl
        rw [SortedMap.contains, h] at hnot
        cases hnot
      rw [MultiDeviceSession.withSession, SortedMap.get?_insert, if_neg hne, h]

/-- The loop makes no session with a device that is not in the list. -/
theorem get?_syncEach_of_notMem {id : ℕ} (h : ∀ x ∈ bundles, x.1 ≠ id) :
    (m.syncEach coins dh bundles).1.sessions.get? id = m.sessions.get? id := by
  induction bundles generalizing m with
  | nil => rfl
  | cons x rest ih =>
    have hrest : ∀ y ∈ rest, y.1 ≠ id := fun y hy => h y (List.mem_cons_of_mem _ hy)
    obtain ⟨-, heq⟩ | ⟨-, -, e, heq⟩ | ⟨-, -, s, message, heq⟩ :=
      syncEach_cons m coins dh rest x
    · rw [heq]
      exact ih hrest
    · rw [heq]
    · rw [heq, ih hrest, MultiDeviceSession.withSession, SortedMap.get?_insert,
        if_neg (h x List.mem_cons_self).symm]

theorem lastSeen_syncEach :
    (m.syncEach coins dh bundles).1.lastSeenDeviceListVersion = m.lastSeenDeviceListVersion := by
  induction bundles generalizing m with
  | nil => rfl
  | cons x rest ih =>
    obtain ⟨-, heq⟩ | ⟨-, -, e, heq⟩ | ⟨-, -, s, message, heq⟩ :=
      syncEach_cons m coins dh rest x
    · rw [heq, ih]
    · rw [heq]
    · rw [heq, ih]
      rfl

/-- The loop succeeds exactly when every missing device can be reached. -/
theorem syncEach_isOk (hsorted : bundles.Pairwise fun x y => x.1 < y.1) :
    (m.syncEach coins dh bundles).2.isOk = true ↔ ∀ x ∈ missing m bundles, Usable coins dh x := by
  induction bundles generalizing m with
  | nil => exact ⟨fun _ x hx => (by cases hx), fun _ => rfl⟩
  | cons x rest ih =>
    obtain ⟨hx, hrest⟩ := List.pairwise_cons.1 hsorted
    obtain ⟨hheld, heq⟩ | ⟨hnot, hu, e, heq⟩ | ⟨hnot, hu, s, message, heq⟩ :=
      syncEach_cons m coins dh rest x
    · rw [heq, missing_cons_of_contains hheld]
      exact ih hrest
    · rw [heq, missing_cons_of_not_contains (by simp [hnot])]
      constructor
      · intro h
        cases h
      · intro h
        exact absurd (h x List.mem_cons_self) hu
    · have hmap : ∀ r : Result (List (ℕ × β)), (r.map ((x.1, message) :: ·)).isOk = r.isOk := by
        intro r
        cases r <;> rfl
      rw [heq, hmap, ih hrest, missing_withSession _ hx,
        missing_cons_of_not_contains (by simp [hnot]), List.forall_mem_cons]
      exact (and_iff_right hu).symm

/-- A loop that fails leaves the sessions as they were exactly when the first missing device
cannot be reached. -/
theorem syncEach_sessions_eq (hsorted : bundles.Pairwise fun x y => x.1 < y.1) {e : Fault}
    (h : (m.syncEach coins dh bundles).2 = .error e) :
    (m.syncEach coins dh bundles).1.sessions = m.sessions ↔
      ∀ x ∈ (missing m bundles).head?, ¬ Usable coins dh x := by
  induction bundles with
  | nil => cases h
  | cons x rest ih =>
    obtain ⟨hx, hrest⟩ := List.pairwise_cons.1 hsorted
    obtain ⟨hheld, heq⟩ | ⟨hnot, hu, e', heq⟩ | ⟨hnot, hu, s, message, heq⟩ :=
      syncEach_cons m coins dh rest x
    · rw [heq] at h ⊢
      rw [missing_cons_of_contains hheld]
      exact ih hrest h
    · rw [heq, missing_cons_of_not_contains (by simp [hnot])]
      refine ⟨fun _ y hy => ?_, fun _ => rfl⟩
      obtain rfl := Option.some.inj hy
      exact hu
    · rw [missing_cons_of_not_contains (by simp [hnot])]
      refine ⟨fun hsame => ?_, fun hall => absurd hu (hall x rfl)⟩
      -- the session of the first device stays
      have hgot : (m.syncEach coins dh (x :: rest)).1.sessions.get? x.1 = some s := by
        rw [heq]
        refine get?_syncEach_of_some ?_
        rw [MultiDeviceSession.withSession, SortedMap.get?_insert, if_pos rfl]
      rw [hsame] at hgot
      rw [SortedMap.contains, hgot] at hnot
      cases hnot

/-- The messages of a loop that succeeds are those to the missing devices. -/
theorem mem_messages_of_missing (hsorted : bundles.Pairwise fun x y => x.1 < y.1)
    {messages : List (ℕ × β)} (h : (m.syncEach coins dh bundles).2 = .ok messages)
    {x : ℕ × PreKeyBundle β} (hx : x ∈ missing m bundles) : x.1 ∈ messages.map (·.1) := by
  induction bundles generalizing m messages with
  | nil => cases hx
  | cons y rest ih =>
    obtain ⟨hy, hrest⟩ := List.pairwise_cons.1 hsorted
    obtain ⟨hheld, heq⟩ | ⟨hnot, hu, e', heq⟩ | ⟨hnot, hu, s, message, heq⟩ :=
      syncEach_cons m coins dh rest y
    · rw [heq] at h
      rw [missing_cons_of_contains hheld] at hx
      exact ih hrest h hx
    · rw [heq] at h
      cases h
    · rw [heq] at h
      obtain ⟨m₁, messages₁, hm₁⟩ : ∃ m₁ messages₁,
          (m.withSession y.1 s).syncEach coins dh rest = (m₁, .ok messages₁) := by
        cases hr : (m.withSession y.1 s).syncEach coins dh rest with
        | mk m₁ r =>
          cases r with
          | error e =>
            rw [hr] at h
            cases h
          | ok messages₁ => exact ⟨m₁, messages₁, rfl⟩
      rw [hm₁] at h
      obtain rfl := Except.ok.inj h
      rw [missing_cons_of_not_contains (by simp [hnot])] at hx
      rcases List.mem_cons.1 hx with rfl | hx
      · exact List.mem_cons_self
      · rw [← missing_withSession s hy] at hx
        exact List.mem_cons_of_mem _ (ih hrest (by rw [hm₁]) hx)

end Loop

/-! ### The calls -/

namespace SyncCall

variable [DecidableEq β] {m : MultiDeviceSession β} {call : SyncCall β} {remote : RemoteAccount β}

omit [Crypto β] [DecidableEq β] in
/-- The sessions that the loop of a call starts from. -/
def afterRevocations (m : MultiDeviceSession β) : SyncCall β → MultiDeviceSession β
  | .devices _ _ _ => m
  | .signed _ _ _ list _ => m.revokeOthers list.deviceIds m.sessions.keys

/-- A call that refuses its list changes nothing. -/
theorem run_of_view_eq_none (h : call.view m = none) : ∃ e, call.run m = (m, .error e) := by
  cases call with
  | devices coins dh remote => cases h
  | signed coins dh account list bundles =>
    rw [run, MultiDeviceSession.syncFromSignedDeviceList]
    rw [view] at h
    split_ifs at h ⊢ with hstale
    · exact ⟨_, rfl⟩
    · cases hlist : RemoteAccount.fromSignedDeviceList account list bundles with
      | error e => exact ⟨e, rfl⟩
      | ok remote =>
        rw [hlist] at h
        cases h

/-- Any other call runs the loop. -/
theorem run_of_view (h : call.view m = some remote) :
    (call.run m).2 =
      ((call.afterRevocations m).syncEach call.coins call.myDhIdentity remote.toList).2 ∧
    (call.run m).1.sessions =
      ((call.afterRevocations m).syncEach call.coins call.myDhIdentity remote.toList).1.sessions ∧
    ∀ e, (call.run m).2 = .error e → (call.run m).1 =
      ((call.afterRevocations m).syncEach call.coins call.myDhIdentity remote.toList).1 := by
  cases call with
  | devices coins dh remote' =>
    obtain rfl := Option.some.inj h
    exact ⟨rfl, rfl, fun _ _ => rfl⟩
  | signed coins dh account list bundles =>
    rw [view] at h
    split_ifs at h with hstale
    cases hlist : RemoteAccount.fromSignedDeviceList account list bundles with
    | error e =>
      rw [hlist] at h
      cases h
    | ok remote' =>
      rw [hlist] at h
      obtain rfl := Option.some.inj h
      rw [run, MultiDeviceSession.syncFromSignedDeviceList, if_neg hstale, hlist]
      simp only [MultiDeviceSession.syncDevices, afterRevocations, SyncCall.coins,
        SyncCall.myDhIdentity]
      cases hsync : (m.revokeOthers list.deviceIds m.sessions.keys).syncEach coins dh
          remote'.toList with
      | mk m₁ r =>
        cases r with
        | error e => exact ⟨rfl, rfl, fun _ _ => rfl⟩
        | ok messages => exact ⟨rfl, rfl, fun e he => (by cases he)⟩

/-- A device that the call is about keeps the session it has, or has none. -/
theorem get?_afterRevocations (h : call.view m = some remote) {x : ℕ × PreKeyBundle β}
    (hx : x ∈ remote.toList) :
    (call.afterRevocations m).sessions.get? x.1 = m.sessions.get? x.1 := by
  cases call with
  | devices coins dh remote' => rfl
  | signed coins dh account list bundles =>
    rw [view] at h
    split_ifs at h with hstale
    cases hlist : RemoteAccount.fromSignedDeviceList account list bundles with
    | error e =>
      rw [hlist] at h
      cases h
    | ok remote' =>
      rw [hlist] at h
      obtain rfl := Option.some.inj h
      obtain ⟨entry, hentry, -⟩ := (fromSignedDeviceList_authorized hlist).2 x.1 x.2
        (SortedMap.mem_toList.1 hx)
      obtain ⟨hmem, hid⟩ := mem_deviceIds_of_entryFor hentry
      have hnamed : x.1 ∈ list.deviceIds := hid ▸ List.mem_map_of_mem hmem
      rw [afterRevocations, (revokeOthers_spec _ _).2.2, if_neg fun hn => hn.2 hnamed]

theorem missing_afterRevocations (h : call.view m = some remote) :
    missing (call.afterRevocations m) remote.toList = missing m remote.toList := by
  refine List.filter_congr fun x hx => ?_
  rw [SortedMap.contains, SortedMap.contains, get?_afterRevocations h hx]

omit [Crypto β] [DecidableEq β] in
theorem revokeOthers_eq_self {authorizedIds ids : List ℕ} (h : ∀ id ∈ ids, id ∈ authorizedIds) :
    m.revokeOthers authorizedIds ids = m := by
  induction ids with
  | nil => rfl
  | cons id ids ih =>
    rw [MultiDeviceSession.revokeOthers, if_pos (List.contains_iff_mem.2 (h id List.mem_cons_self))]
    exact ih fun id' hid' => h id' (List.mem_cons_of_mem _ hid')

omit [Crypto β] [DecidableEq β] in
theorem afterRevocations_eq_self (h : ¬ call.Revokes m) : call.afterRevocations m = m := by
  cases call with
  | devices coins dh remote => rfl
  | signed coins dh account list bundles =>
    refine revokeOthers_eq_self fun id hid => ?_
    by_contra hnot
    obtain ⟨session, hget⟩ := SortedMap.mem_keys.1 hid
    exact h ⟨id, by rw [SortedMap.contains, hget]; rfl, hnot⟩

omit [Crypto β] [DecidableEq β] in
theorem lastSeen_afterRevocations :
    (call.afterRevocations m).lastSeenDeviceListVersion = m.lastSeenDeviceListVersion := by
  cases call with
  | devices coins dh remote => rfl
  | signed coins dh account list bundles => exact (revokeOthers_spec _ _).2.1

/-- A session that the call revokes is gone after it. -/
theorem run_ne_of_revokes (h : call.view m = some remote) (hr : call.Revokes m) :
    (call.run m).1.sessions ≠ m.sessions := by
  intro hsame
  rw [(run_of_view h).2.1] at hsame
  cases call with
  | devices coins dh remote' => exact hr
  | signed coins dh account list bundles =>
    obtain ⟨id, hheld, hnot⟩ := hr
    obtain ⟨session, hget⟩ := Option.isSome_iff_exists.1 hheld
    have hgone : ((SyncCall.signed coins dh account list bundles).afterRevocations
        m).sessions.get? id = none := by
      rw [afterRevocations, (revokeOthers_spec _ _).2.2,
        if_pos ⟨SortedMap.mem_keys.2 ⟨session, hget⟩, hnot⟩]
    -- what the call is about is on the list, and `id` is not
    have hother : ∀ x ∈ remote.toList, x.1 ≠ id := by
      rintro x hx rfl
      have hkept := get?_afterRevocations h hx
      rw [hgone, hget] at hkept
      cases hkept
    rw [← hsame, get?_syncEach_of_notMem hother, hgone] at hget
    cases hget

/-- **A retry reaches every device** that lacks a session in the state it starts from. -/
theorem retry_reaches (h : call.view m = some remote)
    (hgood : ∀ x ∈ remote.toList, Usable call.coins call.myDhIdentity x) :
    ∃ messages, (call.run m).2 = .ok messages ∧
      ∀ x ∈ remote.toList, m.sessions.get? x.1 = none → x.1 ∈ messages.map (·.1) := by
  rw [(run_of_view h).1]
  have hok := (@syncEach_isOk β _ (call.afterRevocations m) call.coins call.myDhIdentity _
    remote.sorted).2 fun x hx => hgood x (List.mem_filter.1 hx).1
  obtain ⟨messages, hm⟩ := Result.exists_of_isOk hok
  refine ⟨messages, hm, fun x hx hnone => mem_messages_of_missing remote.sorted hm ?_⟩
  rw [missing_afterRevocations h]
  exact List.mem_filter.2 ⟨hx, by rw [SortedMap.contains, hnone]; rfl⟩

/-- **When a call is atomic.**  It refuses its list, or every missing device can be reached, or the
first of them cannot, and no session is revoked before it is tried. -/
theorem atomic_iff (m : MultiDeviceSession β) (call : SyncCall β) :
    call.Atomic m ↔ ∀ remote, call.view m = some remote →
      (∀ x ∈ missing m remote.toList, Usable call.coins call.myDhIdentity x) ∨
      ((∀ x ∈ (missing m remote.toList).head?, ¬ Usable call.coins call.myDhIdentity x) ∧
        ¬ call.Revokes m) := by
  constructor
  · intro hatomic remote hview
    by_cases hall : ∀ x ∈ missing m remote.toList, Usable call.coins call.myDhIdentity x
    · exact .inl hall
    -- the loop fails
    have hfail : ∃ e, (call.run m).2 = .error e := by
      cases hrun : (call.run m).2 with
      | error e => exact ⟨e, rfl⟩
      | ok messages =>
        rw [(run_of_view hview).1] at hrun
        refine absurd ?_ hall
        rw [← missing_afterRevocations hview]
        exact (syncEach_isOk remote.sorted).1 (by rw [hrun]; rfl)
    obtain ⟨e, he⟩ := hfail
    obtain ⟨hsame, -, -⟩ := hatomic e he
    have hkeeps : ¬ call.Revokes m := fun hr => run_ne_of_revokes hview hr hsame
    refine .inr ⟨?_, hkeeps⟩
    obtain ⟨hresult, hsessions, -⟩ := run_of_view hview
    rw [afterRevocations_eq_self hkeeps] at hresult hsessions
    exact (syncEach_sessions_eq remote.sorted (hresult.symm.trans he)).1 (hsessions.symm.trans hsame)
  · intro hwhen e he
    have hsame : (call.run m).1.sessions = m.sessions ∧
        (call.run m).1.lastSeenDeviceListVersion = m.lastSeenDeviceListVersion := by
      cases hview : call.view m with
      | none =>
        obtain ⟨e', hrun⟩ := run_of_view_eq_none hview
        rw [hrun]
        exact ⟨rfl, rfl⟩
      | some remote =>
        obtain ⟨hresult, hsessions, hstate⟩ := run_of_view hview
        refine ⟨?_, by rw [hstate e he, lastSeen_syncEach, lastSeen_afterRevocations]⟩
        rw [hresult] at he
        obtain hall | ⟨hfirst, hkeeps⟩ := hwhen remote hview
        · rw [← missing_afterRevocations hview] at hall
          have hok := (syncEach_isOk remote.sorted).2 hall
          rw [he] at hok
          cases hok
        · rw [afterRevocations_eq_self hkeeps] at he hsessions
          rw [hsessions]
          exact (syncEach_sessions_eq remote.sorted he).2 hfirst
    refine ⟨hsame.1, hsame.2, fun retry remote hview hgood => ?_⟩
    obtain ⟨messages, hm, hreached⟩ := retry_reaches hview hgood
    exact ⟨messages, hm, fun x hx hnone => hreached x hx (hsame.1 ▸ hnone)⟩

end SyncCall

end Atomic

/-- Device `1` syncs with devices `2` and `3`; the bundle of `3` names the identity of `2`, which
did not sign its prekey. -/
def unsignedThird : SyncCall Bytes :=
  .devices initiateCoins (dhIdentityOf 1)
    (.collect [(2, bundleOf 2 none), (3, { bundleOf 3 none with identity := identityOf 2 })])

/-- **The failed call leaves a session with device `2`**, whose init message is lost. -/
theorem not_atomic_second :
    ¬ ∀ call : SyncCall Bytes, call.Atomic (.new (identityOf 1)) := by
  intro hatomic
  have hfail : (unsignedThird.run (.new (identityOf 1))).2 = .error (.error .badSignature) := rfl
  obtain ⟨hsame, -⟩ := hatomic unsignedThird _ hfail
  have hheld : (unsignedThird.run (.new (identityOf 1))).1.sessions.contains 2 = true := rfl
  rw [hsame] at hheld
  cases hheld

end MultiDevice

end NovaChannel
