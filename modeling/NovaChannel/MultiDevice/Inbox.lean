import NovaChannel.MultiDevice.Receiving

/-!
# Replays at the receiving device

The runs of `inboxMachine`: honest peers start sessions, the network delivers their init messages
any number of times under any device id, and any records at all.

* `delivered_once` : as long as no init message without a one-time prekey is processed twice, each
  record is delivered at most once, and an init message processed before that comes again is
  refused;
* `not_delivered_once_replayed` : the same init message processed again starts its session over,
  and its records are delivered again.
-/

namespace NovaChannel

namespace MultiDevice

open Crypto X3dh Ratchet Term

/-- A receiving device, with everything that was sent to it and delivered by it. -/
structure Inbox where
  device : ReceivingDevice Bytes
  /-- The init messages of the peers, in order. -/
  sent : List Bytes
  /-- The numbers of the init messages processed, the last one first. -/
  processed : List ℕ
  /-- The application records delivered, the last one first. -/
  delivered : List Bytes

/-- What can happen: a peer starts a session, an init message arrives, a record arrives. -/
inductive InboxAction
  | initiate (identity : Bytes) (dhIdentity : DhIdentity Bytes) (bundle : PreKeyBundle Bytes)
      (payload : Bytes)
  | receiveInit (fromDevice i : ℕ)
  | openFrom (coins : ResponderCoins Bytes) (sender : Bytes) (fromDevice : ℕ) (record : Bytes)

namespace Inbox

/-- An init message arrives. -/
def receive (w : Inbox) (fromDevice i : ℕ) (bytes : Bytes) : Option Inbox :=
  match w.device.receiveInit fromDevice bytes with
  | (d, .ok _) => some { w with device := d, processed := i :: w.processed }
  | (d, .error (.error _)) => some { w with device := d }
  | (_, .error .panic) => none

/-- A record arrives. -/
def openRecord (w : Inbox) (coins : ResponderCoins Bytes) (sender : Bytes) (fromDevice : ℕ)
    (record : Bytes) : Option Inbox :=
  match w.device.openFrom coins sender fromDevice record with
  | (d, .ok (.application _)) => some { w with device := d, delivered := record :: w.delivered }
  | (d, .ok (.ratchetAdvanced _)) => some { w with device := d }
  | (d, .error (.error _)) => some { w with device := d }
  | (_, .error .panic) => none

/-- One step; every session start draws values of its own. -/
def step (w : Inbox) : InboxAction → Option Inbox
  | .initiate identity dhIdentity bundle payload =>
    match X3dh.initiate (initiateCoins w.sent.length) identity dhIdentity bundle payload with
    | .ok initiated => some { w with sent := w.sent ++ [initiated.message] }
    | .error _ => none
  | .receiveInit fromDevice i => w.sent[i]?.bind (w.receive fromDevice i)
  | .openFrom coins sender fromDevice record => w.openRecord coins sender fromDevice record

end Inbox

/-- A receiving device and the network. -/
def inboxMachine : Machine Inbox InboxAction where
  init w := ∃ dhIdentity spk opks, w = ⟨.new dhIdentity spk opks, [], [], []⟩
  step := Inbox.step

/-- No init message without a one-time prekey is delivered after it was processed. -/
def NoReplay (w : Inbox) : InboxAction → Prop
  | .receiveInit _ i => i ∈ w.processed → ∀ bytes, w.sent[i]? = some bytes →
      usesOneTimePrekey bytes = true
  | _ => True

/-! ### Roots -/

/-- The root of a session started with the `k`-th init message. -/
def RootOf (secret : Bytes) (k : ℕ) (root : Bytes) : Prop :=
  ∃ dh1 rest, root = (derive (frame (dh1 ::
    diffieHellman secret (x25519Public (.name (.ephemeral k))) :: rest))).ratchetRoot

section Roots

variable {secret root root' : Bytes} {k k' : ℕ}

theorem dhShared_right_inj {a b c : Bytes} (h : dhShared a b = dhShared a c) : b = c := by
  unfold dhShared at h
  split_ifs at h
  · exact (Term.fn.inj h).2.2
  · obtain ⟨-, h1, h2⟩ := Term.fn.inj h
    rw [h2, h1]
  · obtain ⟨-, h1, h2⟩ := Term.fn.inj h
    rw [h1, h2]
  · exact (Term.fn.inj h).2.1

/-- Init messages of different numbers start sessions with different roots. -/
theorem RootOf.number_eq (h : RootOf secret k root) (h' : RootOf secret k' root) : k = k' := by
  obtain ⟨dh1, rest, rfl⟩ := h
  obtain ⟨dh1', rest', h⟩ := h'
  have hlist := Term.list_injective (Term.fn.inj (Term.fn.inj h).2.1).2.2
  have hname := dhShared_right_inj (List.cons.inj (List.cons.inj hlist).2).1
  exact Name.ephemeral.inj (Term.name.inj hname)

/-- A root on the spine of another is that root. -/
theorem RootOf.eq_of_spine (h : RootOf secret k root) (h' : RootOf secret k' root')
    (hs : Spine root root') : root = root' := by
  have hform : ∀ {k root}, RootOf secret k root →
      ∃ c, root = .fn (.expand 32) (.fn .extract .nil c) X3dh.labelRatchetRoot := by
    rintro k root ⟨_, _, rfl⟩
    exact ⟨_, rfl⟩
  obtain ⟨c, hroot⟩ := hform h
  obtain ⟨c', rfl⟩ := hform h'
  cases hs with
  | refl => rfl
  | fn hs =>
    cases hs with
    | refl => cases hroot
    | fn hs =>
      cases hs
      cases hroot

theorem RootOf.eq_of_spines {t : Bytes} (h : RootOf secret k root) (h' : RootOf secret k' root')
    (hs : Spine root t) (hs' : Spine root' t) : root = root' := by
  rcases hs.comparable hs' with hc | hc
  · exact h.eq_of_spine h' hc
  · exact (h'.eq_of_spine h hc).symm

theorem keyClosed_spine : KeyClosed (Spine root) :=
  ⟨fun _ _ h => .fn h, fun _ _ _ h => .fn (.fn h)⟩

/-- The record opens as number `n` of epoch `e` under a key that comes from the root. -/
def OpensUnder (root record : Bytes) (e n : ℕ) : Prop :=
  ∃ aad ct key m, RatchetedSession.readRecord record = some (e, n, aad, ct) ∧ Spine root key ∧
    aeadDecrypt key Ratchet.zeroNonce aad ct = some m

/-- A record opens under the keys of one root only, in one place. -/
theorem OpensUnder.unique {record : Bytes} {e e' n n' : ℕ} (h : RootOf secret k root)
    (h' : RootOf secret k' root') (ho : OpensUnder root record e n)
    (ho' : OpensUnder root' record e' n') : root = root' ∧ e = e' ∧ n = n' := by
  obtain ⟨aad, ct, key, m, hread, hs, hdec⟩ := ho
  obtain ⟨aad', ct', key', m', hread', hs', hdec'⟩ := ho'
  simp only [hread, Option.some.injEq, Prod.mk.injEq] at hread'
  obtain ⟨rfl, rfl, rfl, rfl⟩ := hread'
  obtain ⟨rfl, -⟩ := Term.aead.inj ((aeadOpen_eq_some.1 hdec).symm.trans (aeadOpen_eq_some.1 hdec'))
  exact ⟨h.eq_of_spines h' hs hs', rfl, rfl⟩

end Roots

/-! ### The invariant -/

/-- The session filed under a key was started with the `i`-th init message. -/
def Inbox.StartedBy (w : Inbox) (filed : Bytes × ℕ) (i : ℕ) (root : Bytes) : Prop :=
  RootOf w.device.dhIdentity.secret i root ∧
  ∃ s, w.device.sessions filed = some s ∧ s.InOrder (Spine root)

/-- What holds in every run without replays of init messages that use no one-time prekey. -/
structure Inbox.Inv (w : Inbox) : Prop where
  /-- The `i`-th init message carries the `i`-th ephemeral key. -/
  sent : ∀ i bytes, w.sent[i]? = some bytes → ∃ (dhId : Bytes) (rest : List Bytes),
    bytes = frame (dhId :: x25519Public (.name (.ephemeral i)) :: rest)
  started : ∀ filed s, w.device.sessions filed = some s → ∃ i ∈ w.processed, ∃ root,
    w.StartedBy filed i root
  /-- No two sessions were started with the same message. -/
  distinct : ∀ filed filed' i root root', w.StartedBy filed i root → w.StartedBy filed' i root' →
    filed = filed'
  /-- A one-time prekey that was referenced is gone. -/
  used : ∀ i ∈ w.processed, ∀ bytes m x, w.sent[i]? = some bytes → readInit bytes = .ok m →
    m.opk = some x → ∀ k ∈ w.device.opks, k.id ≠ x.1
  processed : ∀ i ∈ w.processed, i < w.sent.length
  /-- A record delivered is done wherever its root is in use. -/
  done : ∀ record ∈ w.delivered, ∃ i ∈ w.processed, ∃ root e n,
    RootOf w.device.dhIdentity.secret i root ∧ OpensUnder root record e n ∧
    ∀ filed s, w.device.sessions filed = some s → s.InOrder (Spine root) → s.Done e n
  once : w.delivered.Nodup

section Invariant

variable {w w' : Inbox}

/-- The message and the root of a session are determined by the session. -/
theorem Inbox.StartedBy.unique {filed : Bytes × ℕ} {i i' : ℕ} {root root' : Bytes}
    (h : w.StartedBy filed i root) (h' : w.StartedBy filed i' root') : i = i' ∧ root = root' := by
  obtain ⟨hr, s, hs, ho⟩ := h
  obtain ⟨hr', s', hs', ho'⟩ := h'
  obtain rfl : s = s' := Option.some.inj (hs.symm.trans hs')
  obtain rfl := hr.eq_of_spines hr' ho.root ho'.root
  exact ⟨hr.number_eq hr', rfl⟩

theorem Inbox.Inv.start {dh : DhIdentity Bytes} {spk : SignedPreKey Bytes}
    {opks : OneTimePreKeyStore Bytes} : Inbox.Inv ⟨.new dh spk opks, [], [], []⟩ where
  sent i bytes h := (by cases h)
  started filed s h := (by cases h)
  distinct filed filed' i root root' h := by
    obtain ⟨-, s, hs, -⟩ := h
    cases hs
  used i hi := (by cases hi)
  processed i hi := (by cases hi)
  done record hr := (by cases hr)
  once := List.nodup_nil

/-- A peer starts a session. -/
theorem Inbox.Inv.initiate (h : w.Inv) {identity payload : Bytes} {dh : DhIdentity Bytes}
    {bundle : PreKeyBundle Bytes}
    (hs : w.step (.initiate identity dh bundle payload) = some w') : w'.Inv := by
  simp only [Inbox.step] at hs
  split at hs
  · rename_i initiated hinit
    obtain rfl := Option.some.inj hs
    obtain ⟨-, rfl⟩ := initiate_eq_ok.1 hinit
    have hold : ∀ i bytes, (w.sent ++ [initiateMessage (initiateCoins w.sent.length) identity dh
        bundle payload])[i]? = some bytes → i < w.sent.length → w.sent[i]? = some bytes :=
      fun i bytes hget hlt => by rwa [List.getElem?_append_left hlt] at hget
    refine ⟨fun i bytes hget => ?_, h.started, h.distinct, fun i hi bytes m x hget => ?_,
      fun i hi => ?_, h.done, h.once⟩
    · by_cases hlt : i < w.sent.length
      · exact h.sent i bytes (hold i bytes hget hlt)
      · have hi : i = w.sent.length := by
          have := (List.getElem?_eq_some_iff.1 hget).1
          rw [List.length_append, List.length_singleton] at this
          omega
        subst hi
        rw [List.getElem?_concat_length] at hget
        obtain rfl := Option.some.inj hget
        exact ⟨_, _, rfl⟩
    · exact h.used i hi bytes m x (hold i bytes hget (h.processed i hi))
    · have := h.processed i hi
      rw [List.length_append]
      omega
  · cases hs

/-- An invariant state with fewer one-time prekeys. -/
theorem Inbox.Inv.fewerOpks (h : w.Inv) {opks : OneTimePreKeyStore Bytes}
    (hsub : opks ⊆ w.device.opks) :
    Inbox.Inv { w with device := { w.device with opks := opks } } :=
  ⟨h.sent, h.started, h.distinct,
    fun i hi bytes m x hget hm hx k hk => h.used i hi bytes m x hget hm hx k (hsub hk),
    h.processed, h.done, h.once⟩

/-- An init message that was not processed before starts a session of its own. -/
theorem Inbox.Inv.file (h : w.Inv) {i : ℕ} (hi : i ∉ w.processed) (hlt : i < w.sent.length)
    {opks : OneTimePreKeyStore Bytes} {filed : Bytes × ℕ} {root : Bytes}
    (hsub : opks ⊆ w.device.opks)
    (hopk : ∀ bytes m x, w.sent[i]? = some bytes → readInit bytes = .ok m → m.opk = some x →
      ∀ k ∈ opks, k.id ≠ x.1)
    (hroot : RootOf w.device.dhIdentity.secret i root) :
    Inbox.Inv { w with
      device := { w.device with
        opks := opks
        sessions := Function.update w.device.sessions filed (some (.new root false)) }
      processed := i :: w.processed } := by
  have hnew : (RatchetedSession.new root false).InOrder (Spine root) :=
    RatchetedSession.inOrder_new keyClosed_spine false .refl
  -- a session under another root was there before
  have hold : ∀ filed' s, Function.update w.device.sessions filed (some (.new root false)) filed' =
      some s → (filed' = filed ∧ s = .new root false) ∨
        (filed' ≠ filed ∧ w.device.sessions filed' = some s) := by
    intro filed' s hs
    by_cases hf : filed' = filed
    · rw [hf, Function.update_self] at hs
      exact .inl ⟨hf, (Option.some.inj hs).symm⟩
    · rw [Function.update_of_ne hf] at hs
      exact .inr ⟨hf, hs⟩
  have hne : ∀ filed' root', w.StartedBy filed' i root' → False := by
    intro filed' root' hst
    obtain ⟨s, hs, -⟩ := hst.2
    obtain ⟨i', hi', root'', hst'⟩ := h.started filed' s hs
    obtain ⟨rfl, -⟩ := hst.unique hst'
    exact hi hi'
  constructor
  case sent => exact h.sent
  case started =>
    intro filed' s hs
    rcases hold filed' s hs with ⟨rfl, rfl⟩ | ⟨hf, hs'⟩
    · exact ⟨i, List.mem_cons_self, root, hroot, _, hs, hnew⟩
    · obtain ⟨i', hi', root', hr, s', hs'', ho⟩ := h.started filed' s hs'
      obtain rfl : s = s' := Option.some.inj (hs'.symm.trans hs'')
      exact ⟨i', List.mem_cons_of_mem _ hi', root', hr, s, hs, ho⟩
  case distinct =>
    intro f f' j r r' hst hst'
    obtain ⟨hr, s, hs, ho⟩ := hst
    obtain ⟨hr', s', hs', ho'⟩ := hst'
    rcases hold f s hs with ⟨rfl, rfl⟩ | ⟨-, hs₁⟩ <;>
      rcases hold f' s' hs' with ⟨rfl, rfl⟩ | ⟨-, hs₂⟩
    · rfl
    · obtain rfl := hr.eq_of_spines hroot ho.root .refl
      obtain rfl := hr.number_eq hroot
      exact (hne f' r' ⟨hr', s', hs₂, ho'⟩).elim
    · obtain rfl := hr'.eq_of_spines hroot ho'.root .refl
      obtain rfl := hr'.number_eq hroot
      exact (hne f r ⟨hr, s, hs₁, ho⟩).elim
    · exact h.distinct f f' j r r' ⟨hr, s, hs₁, ho⟩ ⟨hr', s', hs₂, ho'⟩
  case used =>
    intro j hj bytes m x hget hm hx k hk
    rcases List.mem_cons.1 hj with rfl | hj
    · exact hopk bytes m x hget hm hx k hk
    · exact h.used j hj bytes m x hget hm hx k (hsub hk)
  case processed =>
    intro j hj
    rcases List.mem_cons.1 hj with rfl | hj
    · exact hlt
    · exact h.processed j hj
  case done =>
    intro record hrec
    obtain ⟨j, hj, r, e, n, hr, ho, hdone⟩ := h.done record hrec
    refine ⟨j, List.mem_cons_of_mem _ hj, r, e, n, hr, ho, fun filed' s hs hin => ?_⟩
    rcases hold filed' s hs with ⟨rfl, rfl⟩ | ⟨-, hs⟩
    · -- its root is new
      obtain rfl := hr.eq_of_spines hroot hin.root .refl
      obtain rfl := hr.number_eq hroot
      exact (hi hj).elim
    · exact hdone filed' s hs hin
  case once => exact h.once

/-- An init message arrives. -/
theorem Inbox.Inv.receiveInit (h : w.Inv) {fromDevice i : ℕ}
    (hok : NoReplay w (.receiveInit fromDevice i))
    (hs : w.step (.receiveInit fromDevice i) = some w') : w'.Inv := by
  obtain ⟨bytes, hget, hs⟩ := Option.bind_eq_some_iff.1 hs
  unfold Inbox.receive at hs
  cases hrec : w.device.receiveInit fromDevice bytes with
  | mk d r =>
    rw [hrec] at hs
    rcases receiveInit_cases hrec with ⟨e, opks, rfl, rfl, hsub⟩ |
      ⟨m, keys, plaintext, identity, payload, hopen, -, rfl, rfl⟩
    · cases e with
      | error e =>
        obtain rfl := Option.some.inj hs
        exact h.fewerOpks hsub
      | panic => cases hs
    · obtain rfl := Option.some.inj hs
      obtain ⟨hm, hpeek, opk, hkeys⟩ := openInit_eq_ok hopen
      -- a message processed before references a one-time prekey, and that is gone
      have hnot : i ∉ w.processed := by
        intro hi
        have huse := hok hi bytes hget
        rw [usesOneTimePrekey, hm] at huse
        obtain ⟨x, hx⟩ := Option.isSome_iff_exists.1 huse
        have hrefused : w.device.receiveInit fromDevice bytes = _ :=
          receiveInit_of_unknown hm hx (h.used i hi bytes m x hget hm hx)
        rw [hrec] at hrefused
        cases (Prod.mk.inj hrefused).2
      obtain ⟨dhId, rest, rfl⟩ := h.sent i bytes hget
      obtain ⟨rest', hu⟩ := readInit_eq_ok hm
      rw [LawfulCrypto.unframe_frame] at hu
      obtain ⟨dh1, rest'', rfl⟩ := respondKeys_eq_ok hkeys
      have heph : m.ephemeral = x25519Public (.name (.ephemeral i)) :=
        (List.cons.inj (List.cons.inj (Option.some.inj hu)).2).1.symm
      refine h.file hnot (List.getElem?_eq_some_iff.1 hget).1 ?_ ?_ ⟨dh1, rest'', by rw [heph]⟩
      · intro k hk
        cases hopk : m.opk with
        | none => rwa [hopk] at hk
        | some x =>
          rw [hopk] at hk
          exact (List.mem_filter.1 hk).1
      · intro bytes' m' x hget' hm' hx k hk
        obtain rfl : frame _ = bytes' := Option.some.inj (hget.symm.trans hget')
        obtain rfl : m = m' := Except.ok.inj (hm.symm.trans hm')
        rw [hx] at hk
        simpa using (List.mem_filter.1 hk).2

/-- A session moved on, and delivered nothing or a record that was not done. -/
theorem Inbox.Inv.move (h : w.Inv) {filed : Bytes × ℕ} {s s' : RatchetedSession Bytes} {i : ℕ}
    {root : Bytes} {delivered : List Bytes} (hget : w.device.sessions filed = some s)
    (hi : i ∈ w.processed) (hroot : RootOf w.device.dhIdentity.secret i root)
    (hin : s.InOrder (Spine root)) (hin' : s'.InOrder (Spine root))
    (hdone : ∀ e n, s.Done e n → s'.Done e n)
    (hnew : delivered = w.delivered ∨ ∃ record e n, delivered = record :: w.delivered ∧
      OpensUnder root record e n ∧ ¬ s.Done e n ∧ s'.Done e n) :
    Inbox.Inv { w with
      device := { w.device with
        sessions := Function.update w.device.sessions filed (some s') }
      delivered := delivered } := by
  have hold : ∀ filed' t, Function.update w.device.sessions filed (some s') filed' = some t →
      (filed' = filed ∧ t = s') ∨ (filed' ≠ filed ∧ w.device.sessions filed' = some t) := by
    intro filed' t ht
    by_cases hf : filed' = filed
    · rw [hf, Function.update_self] at ht
      exact .inl ⟨hf, (Option.some.inj ht).symm⟩
    · rw [Function.update_of_ne hf] at ht
      exact .inr ⟨hf, ht⟩
  -- the session after the step has the root it had before
  have hback : ∀ {j r}, RootOf w.device.dhIdentity.secret j r → s'.InOrder (Spine r) →
      s.InOrder (Spine r) := by
    intro j r hr ht
    obtain rfl := hr.eq_of_spines hroot ht.root hin'.root
    exact hin
  have hstarted : ∀ {f j r}, Inbox.StartedBy { w with
      device := { w.device with
        sessions := Function.update w.device.sessions filed (some s') }
      delivered := delivered } f j r → w.StartedBy f j r := by
    rintro f j r ⟨hr, t, ht, ho⟩
    rcases hold f t ht with ⟨rfl, rfl⟩ | ⟨-, ht⟩
    · exact ⟨hr, s, hget, hback hr ho⟩
    · exact ⟨hr, t, ht, ho⟩
  have hdone' : ∀ {j r e n}, RootOf w.device.dhIdentity.secret j r →
      (∀ filed t, w.device.sessions filed = some t → t.InOrder (Spine r) → t.Done e n) →
      ∀ filed' t, Function.update w.device.sessions filed (some s') filed' = some t →
        t.InOrder (Spine r) → t.Done e n := by
    intro j r e n hr hall filed' t ht ho
    rcases hold filed' t ht with ⟨rfl, rfl⟩ | ⟨-, ht⟩
    · exact hdone e n (hall _ s hget (hback hr ho))
    · exact hall filed' t ht ho
  constructor
  case sent => exact h.sent
  case started =>
    intro f t ht
    rcases hold f t ht with ⟨rfl, rfl⟩ | ⟨-, ht'⟩
    · exact ⟨i, hi, root, hroot, _, ht, hin'⟩
    · obtain ⟨j, hj, r, hr, t', ht'', ho⟩ := h.started f t ht'
      obtain rfl : t = t' := Option.some.inj (ht'.symm.trans ht'')
      exact ⟨j, hj, r, hr, t, ht, ho⟩
  case distinct =>
    intro f f' j r r' hst hst'
    exact h.distinct f f' j r r' (hstarted hst) (hstarted hst')
  case used => exact h.used
  case processed => exact h.processed
  case done =>
    intro record hrec
    have hbefore : ∀ record ∈ w.delivered, _ := h.done
    rcases hnew with rfl | ⟨record', e, n, rfl, ho, hnot, hthen⟩
    · obtain ⟨j, hj, r, e, n, hr, ho, hall⟩ := hbefore record hrec
      exact ⟨j, hj, r, e, n, hr, ho, hdone' hr hall⟩
    · rcases List.mem_cons.1 hrec with rfl | hrec
      · refine ⟨i, hi, root, e, n, hroot, ho, fun f t ht hot => ?_⟩
        rcases hold f t ht with ⟨rfl, rfl⟩ | ⟨hf, ht⟩
        · exact hthen
        · exact absurd (h.distinct f filed i root root ⟨hroot, t, ht, hot⟩ ⟨hroot, s, hget, hin⟩) hf
      · obtain ⟨j, hj, r, e, n, hr, ho, hall⟩ := hbefore record hrec
        exact ⟨j, hj, r, e, n, hr, ho, hdone' hr hall⟩
  case once =>
    rcases hnew with rfl | ⟨record, e, n, rfl, ho, hnot, -⟩
    · exact h.once
    · refine List.nodup_cons.2 ⟨fun hmem => ?_, h.once⟩
      obtain ⟨j, -, r, e', n', hr, ho', hall⟩ := h.done record hmem
      obtain ⟨rfl, rfl, rfl⟩ := ho'.unique hr hroot ho
      exact hnot (hall filed s hget hin)

/-- A record arrives. -/
theorem Inbox.Inv.openFrom (h : w.Inv) {coins : ResponderCoins Bytes} {sender : Bytes}
    {fromDevice : ℕ} {record : Bytes}
    (hs : w.step (.openFrom coins sender fromDevice record) = some w') : w'.Inv := by
  simp only [Inbox.step, Inbox.openRecord, ReceivingDevice.openFrom] at hs
  cases hget : w.device.sessions (identityKey sender, fromDevice) with
  | none =>
    simp only [hget] at hs
    obtain rfl := Option.some.inj hs
    exact h
  | some s =>
    obtain ⟨i, hi, root, hroot, s₀, hs₀, hin⟩ := h.started _ s hget
    obtain rfl : s = s₀ := Option.some.inj (hget.symm.trans hs₀)
    cases hopen : s.openRecord coins record with
    | mk s' r =>
      simp only [hget, hopen] at hs
      have honce := fun hp => RatchetedSession.openRecord_once keyClosed_spine hin hopen hp
      cases r with
      | error e =>
        cases e with
        | error e =>
          obtain rfl := Option.some.inj hs
          obtain ⟨hin', hdone, -⟩ := honce (by simp)
          exact h.move hget hi hroot hin hin' hdone (.inl rfl)
        | panic => cases hs
      | ok opened =>
        obtain ⟨hin', hdone, happ⟩ := honce (by simp)
        cases opened with
        | ratchetAdvanced reply =>
          obtain rfl := Option.some.inj hs
          exact h.move hget hi hroot hin hin' hdone (.inl rfl)
        | application body =>
          obtain rfl := Option.some.inj hs
          obtain ⟨e, n, aad, ct, key, m, hread, hnot, hthen, hkey, hdec⟩ := happ body rfl
          exact h.move hget hi hroot hin hin' hdone
            (.inr ⟨record, e, n, rfl, ⟨aad, ct, key, m, hread, hkey, hdec⟩, hnot, hthen⟩)

theorem Inbox.Inv.run (h : inboxMachine.Reachable NoReplay w) : w.Inv := by
  refine h.invariant (fun w hw => ?_) fun w w' a _ hinv hok hs => ?_
  · obtain ⟨dh, spk, opks, rfl⟩ := hw
    exact .start
  · cases a with
    | initiate identity dh bundle payload => exact hinv.initiate hs
    | receiveInit fromDevice i => exact hinv.receiveInit hok hs
    | openFrom coins sender fromDevice record => exact hinv.openFrom hs

/-- **Each record is delivered at most once, and an init message that was processed changes
nothing when it comes again**, as long as no init message without a one-time prekey is delivered
after it was processed. -/
theorem delivered_once (h : inboxMachine.Reachable NoReplay w) :
    w.delivered.Nodup ∧
    ∀ i ∈ w.processed, ∀ bytes, w.sent[i]? = some bytes → usesOneTimePrekey bytes = true →
      ∀ fromDevice, w.device.receiveInit fromDevice bytes =
        (w.device, .err .unknownOneTimePreKey) := by
  have hinv := Inbox.Inv.run h
  refine ⟨hinv.once, fun i hi bytes hget huse fromDevice => ?_⟩
  unfold usesOneTimePrekey at huse
  split at huse
  · rename_i m hm
    obtain ⟨x, hx⟩ := Option.isSome_iff_exists.1 huse
    exact receiveInit_of_unknown hm hx (hinv.used i hi bytes m x hget hm hx)
  · cases huse

end Invariant

/-! ### Two runs -/

section Sample

/-- Device `1` before anything arrived, with one one-time prekey. -/
def emptyInbox : Inbox := ⟨.new (dhIdentityOf 1) (spkOf 1) [opkOf 1 9], [], [], []⟩

/-- Device `2` starts a session with device `1`. -/
def startSession (opk : Option ℕ) : InboxAction :=
  .initiate (identityOf 2) (dhIdentityOf 2) (bundleOf 1 opk) (.lit "")

/-- The first record device `2` seals in the session. -/
def firstRecord (opk : Option ℕ) : Bytes :=
  (RatchetedSession.new (initiateKeys (initiateCoins 0) (dhIdentityOf 2)
    (bundleOf 1 opk)).ratchetRoot true).recordOf (RatchetedSession.typed msgApplication (.lit "hello"))

/-- The record arrives at device `1`. -/
def openFirst (opk : Option ℕ) : InboxAction :=
  .openFrom ⟨.nil, .nil, .nil⟩ (identityOf 2) 5 (firstRecord opk)

/-- A session with a one-time prekey, and its first record. -/
theorem delivered_once_oneTime : ∃ w, inboxMachine.run emptyInbox
      [startSession (some 9), .receiveInit 5 0, openFirst (some 9)] = some w ∧
    w.delivered = [firstRecord (some 9)] ∧ ∀ bytes, w.sent[0]? = some bytes →
      w.device.receiveInit 5 bytes = (w.device, .err .unknownOneTimePreKey) := by
  have hrun : (inboxMachine.run emptyInbox [startSession (some 9), .receiveInit 5 0,
      openFirst (some 9)]).map (fun w =>
        (w.delivered, w.processed, w.sent.map usesOneTimePrekey)) =
      some ([firstRecord (some 9)], [0], [true]) := by decide +kernel
  obtain ⟨w, hw, hstate⟩ := Option.map_eq_some_iff.1 hrun
  simp only [Prod.mk.injEq] at hstate
  obtain ⟨hdelivered, hprocessed, huses⟩ := hstate
  obtain ⟨w₁, h₁, hw₁⟩ := (Machine.run_cons _).1 hw
  obtain ⟨w₂, h₂, hw₂⟩ := (Machine.run_cons _).1 hw₁
  obtain ⟨w₃, h₃, hw₃⟩ := (Machine.run_cons _).1 hw₂
  obtain rfl : w₃ = w := Option.some.inj hw₃
  have hnone : w₁.processed = [] := by
    have hfirst : (inboxMachine.step emptyInbox (startSession (some 9))).map (·.processed) =
        some [] := by decide +kernel
    rw [h₁] at hfirst
    exact Option.some.inj hfirst
  have hok₁ : NoReplay emptyInbox (startSession (some 9)) := trivial
  have hok₂ : NoReplay w₁ (.receiveInit 5 0) := fun hi => (by rw [hnone] at hi; cases hi)
  have hok₃ : NoReplay w₂ (openFirst (some 9)) := trivial
  have hreach : inboxMachine.Reachable NoReplay w₃ :=
    .step (.step (.step (.init ⟨_, _, _, rfl⟩) hok₁ h₁) hok₂ h₂) hok₃ h₃
  refine ⟨w₃, hw, hdelivered, fun bytes hget => ?_⟩
  refine (delivered_once hreach).2 0 (by rw [hprocessed]; exact List.mem_cons_self) bytes hget ?_ 5
  have huse : (w₃.sent.map usesOneTimePrekey)[0]? = some true := by rw [huses]; rfl
  rw [List.getElem?_map, hget] at huse
  exact Option.some.inj huse

/-- **The same init message again, and its records are delivered again.** -/
theorem not_delivered_once_replayed : ¬ ∀ w, inboxMachine.Reachable (fun _ _ => True) w →
    w.delivered.Nodup ∧ ∀ i ∈ w.processed, ∀ bytes, w.sent[i]? = some bytes → ∀ fromDevice,
      (w.device.receiveInit fromDevice bytes).1.sessions = w.device.sessions := by
  intro h
  have hrun : (inboxMachine.run emptyInbox [startSession none, .receiveInit 5 0, openFirst none,
      .receiveInit 5 0, openFirst none]).map (·.delivered) =
      some [firstRecord none, firstRecord none] := by decide +kernel
  obtain ⟨w, hw, hdelivered⟩ := Option.map_eq_some_iff.1 hrun
  have honce := (h w (.of_run (.init ⟨_, _, _, rfl⟩) (fun _ _ _ => trivial) hw)).1
  rw [hdelivered] at honce
  exact (List.nodup_cons.1 honce).1 List.mem_cons_self

end Sample

end MultiDevice

end NovaChannel
