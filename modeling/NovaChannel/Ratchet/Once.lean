import NovaChannel.Ratchet.Schedule

/-!
# Each record at most once

What holds of a session whatever it is handed, and whoever made the handshake.  `InOrder P`: its
epochs are in order and the keys it opens with have a property `P` that derived keys inherit.
`Done e n`: the session is past the record `n` of epoch `e`.

* `openRecord_once` : a record that opens was not done, is done afterwards, and opens under a key
  with the property.
-/

namespace NovaChannel

namespace Ratchet

open Crypto Kex

variable {β : Type} [Crypto β] {P : β → Prop}

/-- What is derived from a key with the property has it too. -/
structure KeyClosed (P : β → Prop) : Prop where
  hmac : ∀ key label, P key → P (Crypto.hmac key label)
  step : ∀ key secret label, P key → P (hkdfExpand 32 (hkdfExtract (some key) secret) label)

omit [Crypto β] in
/-- The keys of a receive chain have the property, and the cached ones are of numbers passed. -/
structure RecvChain.InOrder (P : β → Prop) (recv : RecvChain β) : Prop where
  chain : P recv.chain
  skipped : ∀ n key, (n, key) ∈ recv.skipped → n < recv.expectedSeq ∧ P key

namespace RatchetedSession

omit [Crypto β] in
/-- The epochs of a session are in order, and the keys it opens with have the property. -/
structure InOrder (P : β → Prop) (s : RatchetedSession β) : Prop where
  root : P s.rootKey
  current : s.recvCurrent.epoch = s.sendEpoch
  previous : ∀ recv, s.recvPrevious = some recv → recv.epoch < s.sendEpoch
  recv : ∀ slot recv, s.recv slot = some recv → recv.InOrder P
  pending : ∀ kex, s.pending = some kex → s.pendingEpoch = s.sendEpoch

omit [Crypto β] in
/-- The session is past the `n`-th record of epoch `e`. -/
structure Done (s : RatchetedSession β) (e n : ℕ) : Prop where
  epoch_le : e ≤ s.sendEpoch
  recv : ∀ slot recv, s.recv slot = some recv → recv.epoch = e → recv.Spent n

end RatchetedSession

variable {s s' : RatchetedSession β} {recv recv' : RecvChain β} {slot : RecvSlot}

namespace RatchetedSession

/-! ### The ways a session changes -/

theorem InOrder.sealedOne (h : s.InOrder P) : s.sealedOne.InOrder P :=
  ⟨h.root, h.current, h.previous,
    fun slot rc hrc => h.recv slot rc (by cases slot <;> exact hrc), h.pending⟩

theorem Done.sealedOne {e n : ℕ} (h : s.Done e n) : s.sealedOne.Done e n :=
  ⟨h.epoch_le, fun slot rc hrc => h.recv slot rc (by cases slot <;> exact hrc)⟩

omit [Crypto β] in
theorem InOrder.usedUp (h : s.InOrder P) : s.usedUp.InOrder P :=
  ⟨h.root, h.current, h.previous,
    fun slot rc hrc => h.recv slot rc (by cases slot <;> exact hrc), fun _ hk => (by cases hk)⟩

omit [Crypto β] in
theorem Done.usedUp {e n : ℕ} (h : s.Done e n) : s.usedUp.Done e n :=
  ⟨h.epoch_le, fun slot rc hrc => h.recv slot rc (by cases slot <;> exact hrc)⟩

omit [Crypto β] in
/-- A new epoch under keys with the property. -/
theorem InOrder.advanced {keys : β × β × β} (h : s.InOrder P) (hp : s.pending = none)
    (hroot : P keys.1) (hrecv : P keys.2.2) : (s.advanced s.sendEpoch keys).InOrder P where
  root := hroot
  current := rfl
  previous rc hrc := by
    obtain rfl := Option.some.inj hrc
    exact Nat.lt_succ_of_le h.current.le
  recv slot rc hrc := by
    cases slot with
    | current =>
      obtain rfl := Option.some.inj hrc
      exact ⟨hrecv, fun n key hk => (by cases hk)⟩
    | previous => exact h.recv .current rc hrc
  pending kex hkex := by
    change s.pending = some kex at hkex
    rw [hp] at hkex
    cases hkex

omit [Crypto β] in
/-- The chain before the current one is dropped: its epoch is over. -/
theorem Done.advanced {keys : β × β × β} {e n : ℕ} (h : s.Done e n) :
    (s.advanced s.sendEpoch keys).Done e n where
  epoch_le := Nat.le_succ_of_le h.epoch_le
  recv slot rc hrc he := by
    cases slot with
    | current =>
      obtain rfl := Option.some.inj hrc
      have h1 := h.epoch_le
      have h2 : s.sendEpoch + 1 = e := he
      omega
    | previous => exact h.recv .current rc hrc he

omit [Crypto β] in
theorem InOrder.epoch_recv (h : s.InOrder P) (hr : s.recv slot = some recv) :
    recv.epoch ≤ s.sendEpoch := by
  cases slot with
  | current =>
    obtain rfl := Option.some.inj hr
    exact h.current.le
  | previous => exact (h.previous recv hr).le

omit [Crypto β] in
/-- The chains of the two slots are of different epochs. -/
theorem InOrder.slot_eq (h : s.InOrder P) {slot' : RecvSlot} (hr : s.recv slot = some recv)
    (hr' : s.recv slot' = some recv') (he : recv.epoch = recv'.epoch) : slot = slot' := by
  have hcur := h.current
  cases slot <;> cases slot'
  · rfl
  · obtain rfl := Option.some.inj hr
    have := h.previous recv' hr'
    omega
  · obtain rfl := Option.some.inj hr'
    have := h.previous recv hr
    omega
  · rfl

omit [Crypto β] in
theorem recv_setRecv (hr : s.recv slot = some recv) {slot' : RecvSlot} {rc : RecvChain β}
    (hrc : (s.setRecv recv' slot).recv slot' = some rc) :
    (slot' = slot ∧ rc = recv') ∨ (slot' ≠ slot ∧ s.recv slot' = some rc) := by
  cases slot <;> cases slot'
  · exact .inl ⟨rfl, (Option.some.inj hrc).symm⟩
  · exact .inr ⟨by simp, hrc⟩
  · exact .inr ⟨by simp, hrc⟩
  · exact .inl ⟨rfl, (Option.some.inj hrc).symm⟩

omit [Crypto β] in
theorem InOrder.setRecv (h : s.InOrder P) (hr : s.recv slot = some recv)
    (he : recv'.epoch = recv.epoch) (hok : recv'.InOrder P) :
    (s.setRecv recv' slot).InOrder P := by
  have hall : ∀ slot' rc, (s.setRecv recv' slot).recv slot' = some rc → rc.InOrder P := by
    intro slot' rc hrc
    rcases recv_setRecv hr hrc with ⟨-, rfl⟩ | ⟨-, hrc⟩
    · exact hok
    · exact h.recv slot' rc hrc
  cases slot with
  | current =>
    obtain rfl := Option.some.inj hr
    exact ⟨h.root, he.trans h.current, h.previous, hall, h.pending⟩
  | previous =>
    refine ⟨h.root, h.current, fun rc hrc => ?_, hall, h.pending⟩
    obtain rfl := Option.some.inj hrc
    have := h.previous recv hr
    show recv'.epoch < s.sendEpoch
    omega

omit [Crypto β] in
theorem Done.setRecv {e n : ℕ} (h : s.Done e n) (hr : s.recv slot = some recv)
    (he : recv'.epoch = recv.epoch) (hmono : recv.Spent n → recv'.Spent n) :
    (s.setRecv recv' slot).Done e n := by
  refine ⟨by cases slot <;> exact h.epoch_le, fun slot' rc hrc hep => ?_⟩
  rcases recv_setRecv hr hrc with ⟨-, rfl⟩ | ⟨-, hrc⟩
  · exact hmono (h.recv slot recv hr (he ▸ hep))
  · exact h.recv slot' rc hrc hep

omit [Crypto β] in
/-- The record just opened is done. -/
theorem InOrder.done_setRecv {n : ℕ} (h : s.InOrder P) (hr : s.recv slot = some recv)
    (hs : recv'.Spent n) : (s.setRecv recv' slot).Done recv.epoch n := by
  refine ⟨by cases slot <;> exact h.epoch_recv hr, fun slot' rc hrc hep => ?_⟩
  rcases recv_setRecv hr hrc with ⟨-, rfl⟩ | ⟨hne, hrc⟩
  · exact hs
  · exact absurd (h.slot_eq hrc hr hep) hne

/-- A fresh session. -/
theorem inOrder_new (hP : KeyClosed P) {root : β} (isInitiator : Bool) (h : P root) :
    (new root isInitiator).InOrder P where
  root := h
  current := rfl
  previous rc hrc := (by cases hrc)
  recv slot rc hrc := by
    cases slot with
    | current =>
      obtain rfl := Option.some.inj hrc
      exact ⟨hP.hmac _ _ h, fun n key hk => (by cases hk)⟩
    | previous => cases hrc
  pending kex hkex := (by cases hkex)

end RatchetedSession

/-! ### Opening -/

theorem KeyClosed.chainFrom (hP : KeyClosed P) {chain : β} (h : P chain) (n : ℕ) :
    P (Ratchet.chainFrom chain n) := by
  induction n with
  | zero => exact h
  | succ n ih =>
    rw [chainFrom_succ]
    exact hP.hmac _ _ ih

/-- Opening a record keeps the chain in order; a record that opens does so for the first time. -/
theorem RecvChain.InOrder.openOn (hP : KeyClosed P) (h : recv.InOrder P) {seq : ℕ} {aad ct : β}
    {r : Result β} (ho : recv.openOn seq aad ct = (recv', r)) (hp : r ≠ .error .panic) :
    recv'.InOrder P ∧ recv'.epoch = recv.epoch ∧ (∀ n, recv.Spent n → recv'.Spent n) ∧
    ∀ m, r = .ok m → ¬ recv.Spent seq ∧ recv'.Spent seq ∧
      ∃ key, P key ∧ aeadDecrypt key zeroNonce aad ct = some m := by
  have hkey : ∀ i, P (advance (Ratchet.chainFrom recv.chain i)).2 := fun i =>
    hP.hmac _ _ (hP.chainFrom h.chain i)
  rcases openOn_cases ho with ⟨rfl, e, rfl⟩ | ⟨key, hlt, hmem, rfl, rfl⟩ | rfl |
      ⟨m, hle, hlt, rfl, hopen, rfl⟩
  · exact ⟨h, rfl, fun n hn => hn, fun m hm => by cases hm⟩
  · refine ⟨⟨h.chain, fun n k hk => h.skipped n k (List.mem_filter.1 hk).1⟩, rfl,
      fun n hn => ⟨hn.1, fun k hk => hn.2 k (List.mem_filter.1 hk).1⟩, fun m hm => ?_⟩
    refine ⟨fun hs => hs.2 key hmem, ⟨hlt, fun k hk => ?_⟩, key, (h.skipped seq key hmem).2,
      openAead_eq_ok.1 hm⟩
    simpa using (List.mem_filter.1 hk).2
  · exact absurd rfl hp
  · -- the keys cached on the way are of the numbers in between
    have hnew : ∀ n key, (n, key) ∈ (recv.passed seq).skipped → (n, key) ∈ recv.skipped ∨
        recv.expectedSeq ≤ n ∧ n < seq ∧ P key := by
      intro n key hk
      rcases mem_extendKeys hk with hk | hk
      · exact .inl hk
      · rw [skipKeys_eq, List.mem_map] at hk
        obtain ⟨i, hi, hik⟩ := hk
        obtain ⟨rfl, rfl⟩ := Prod.mk.inj hik
        rw [List.mem_range] at hi
        exact .inr ⟨by omega, by omega, hkey i⟩
    refine ⟨⟨hP.chainFrom h.chain _, fun n key hk => ?_⟩, rfl,
      fun n hn => ⟨?_, fun key hk => ?_⟩, fun m' hm => ?_⟩
    · show n < seq + 1 ∧ P key
      rcases hnew n key hk with hk | ⟨h1, h2, hk⟩
      · have := h.skipped n key hk
        exact ⟨by omega, this.2⟩
      · exact ⟨by omega, hk⟩
    · show n < seq + 1
      have := hn.1
      omega
    · rcases hnew n key hk with hk | ⟨h1, -, -⟩
      · exact hn.2 key hk
      · have := hn.1
        omega
    · obtain rfl := Except.ok.inj hm
      refine ⟨fun hs => by have := hs.1; omega, ⟨Nat.lt_succ_self seq, fun key hk => ?_⟩, _,
        hkey _, openAead_eq_ok.1 hopen⟩
      rcases hnew seq key hk with hk | ⟨-, h2, -⟩
      · have := (h.skipped seq key hk).1
        omega
      · omega

namespace RatchetedSession

variable [ByteString β]

omit [ByteString β] in
/-- The new epoch's keys come from the root key. -/
theorem InOrder.deriveNextEpoch (hP : KeyClosed P) (h : s.InOrder P) (secret : β)
    (isInitiator : Bool) : P (deriveNextEpoch s.rootKey secret isInitiator).1 ∧
      P (RatchetedSession.deriveNextEpoch s.rootKey secret isInitiator).2.2 := by
  refine ⟨?_, ?_⟩ <;> cases isInitiator <;> exact hP.step _ _ _ h.root

/-- What the end of `open` does to a session in order. -/
theorem InOrder.handleOpened (hP : KeyClosed P) (h : s.InOrder P) {coins : ResponderCoins β}
    {epoch : ℕ} {opened : Result β} {r : Result (Opened β)}
    (ho : s.handleOpened coins epoch opened = (s', r)) (hp : r ≠ .error .panic) :
    s'.InOrder P ∧ (∀ e n, s.Done e n → s'.Done e n) ∧
    ∀ body, r = .ok (.application body) → ∃ plaintext, opened = .ok plaintext := by
  rcases handleOpened_cases ho with ⟨rfl, e, rfl⟩ | rfl | ⟨plaintext, body, rfl, hcases⟩
  · exact ⟨h, fun _ _ hd => hd, fun _ hr => (by cases hr)⟩
  · exact absurd rfl hp
  · suffices s'.InOrder P ∧ ∀ e n, s.Done e n → s'.Done e n from
      ⟨this.1, this.2, fun _ _ => ⟨plaintext, rfl⟩⟩
    rcases hcases with ⟨-, rfl, -⟩ | ⟨-, reply, hstep, rfl⟩ | ⟨-, done, hstep, hdone⟩
    · exact ⟨h, fun _ _ hd => hd⟩
    · rcases handleStep1_cases hstep with ⟨-, _, hr⟩ | hr |
        ⟨x, k, out, hpend, rfl, -, -, -, -, rfl, -⟩
      · cases hr
      · cases hr
      · obtain ⟨h1, h2⟩ := h.deriveNextEpoch hP out.sharedSecret false
        exact ⟨h.sealedOne.advanced hpend h1 h2, fun _ _ hd => hd.sealedOne.advanced⟩
    · rcases handleStep2_cases hstep with ⟨rfl, -⟩ | rfl | ⟨kex, hkex, rfl, hcases⟩
      · exact ⟨h, fun _ _ hd => hd⟩
      · rcases hdone with ⟨hr, -⟩ | ⟨e, hr, rfl⟩
        · cases hr
        · obtain rfl := Except.error.inj hr
          exact absurd rfl hp
      · rcases hcases with ⟨rfl, -⟩ | ⟨x, ct, ss, -, -, -, rfl, -⟩
        · exact ⟨h.usedUp, fun _ _ hd => hd.usedUp⟩
        · obtain ⟨h1, h2⟩ := h.deriveNextEpoch hP ss true
          rw [h.pending kex hkex]
          exact ⟨h.usedUp.advanced rfl h1 h2, fun _ _ hd => hd.usedUp.advanced⟩

/-- **A record that opens had not been opened before**, is done afterwards, and opens under a key
with the property. -/
theorem openRecord_once (hP : KeyClosed P) (h : s.InOrder P) {coins : ResponderCoins β}
    {record : β} {r : Result (Opened β)} (ho : s.openRecord coins record = (s', r))
    (hp : r ≠ .error .panic) :
    s'.InOrder P ∧ (∀ e n, s.Done e n → s'.Done e n) ∧
    ∀ body, r = .ok (.application body) → ∃ e n aad ct key m,
      readRecord record = some (e, n, aad, ct) ∧ ¬ s.Done e n ∧ s'.Done e n ∧ P key ∧
      aeadDecrypt key zeroNonce aad ct = some m := by
  rcases openRecord_cases ho with ⟨rfl, e, rfl⟩ |
    ⟨slot, recv, seq, aad, ct, recv', opened, hread, hr, hopen, hh⟩
  · exact ⟨h, fun _ _ hd => hd, fun _ hr => (by cases hr)⟩
  · have hp' : opened ≠ .error .panic := by
      rintro rfl
      exact hp (Prod.mk.inj hh).2.symm
    obtain ⟨hok, he, hmono, hfirst⟩ := (h.recv slot recv hr).openOn hP hopen hp'
    obtain ⟨h1, h2, h3⟩ := (h.setRecv hr he hok).handleOpened hP hh hp
    refine ⟨h1, fun e n hd => h2 e n (hd.setRecv hr he (hmono n)), fun body hbody => ?_⟩
    obtain ⟨m, hm⟩ := h3 body hbody
    obtain ⟨hnot, hspent, key, hkey, hdec⟩ := hfirst m hm
    exact ⟨recv.epoch, seq, aad, ct, key, m, hread, fun hd => hnot (hd.recv slot recv hr rfl),
      h2 _ _ (h.done_setRecv hr hspent), hkey, hdec⟩

end RatchetedSession

end Ratchet

end NovaChannel
