import NovaChannel.Ratchet.Session
import Mathlib.Logic.Function.Iterate

/-!
# What an operation can do

One inversion lemma for each operation of a session: every way it can change the session and
everything it can return.  The proofs about sessions rest on these lemmas and unfold no operation
again.
-/

namespace NovaChannel

namespace Ratchet

open Crypto ByteString Kex

variable {β : Type} [Crypto β]

/-! ### Chains -/

/-- The chain key `n` steps on. -/
def chainFrom (chain : β) (n : ℕ) : β := (fun c => (advance c).1)^[n] chain

@[simp] theorem chainFrom_zero (chain : β) : chainFrom chain 0 = chain := rfl

theorem chainFrom_succ (chain : β) (n : ℕ) :
    chainFrom chain (n + 1) = (advance (chainFrom chain n)).1 := by
  rw [chainFrom, Function.iterate_succ_apply', ← chainFrom]

theorem chainFrom_add (chain : β) (m n : ℕ) :
    chainFrom (chainFrom chain m) n = chainFrom chain (m + n) := by
  rw [chainFrom, chainFrom, ← Function.iterate_add_apply, Nat.add_comm n m, ← chainFrom]

theorem skipKeys_eq (chain : β) (seq n : ℕ) : skipKeys chain seq n =
    (chainFrom chain n,
      (List.range n).map fun i => (seq + i, (advance (chainFrom chain i)).2)) := by
  induction n generalizing chain seq with
  | zero => rfl
  | succ n ih =>
    have hchain : ∀ i, chainFrom (advance chain).1 i = chainFrom chain (i + 1) := fun i => by
      rw [show (advance chain).1 = chainFrom chain 1 from rfl, chainFrom_add, Nat.add_comm]
    simp only [skipKeys, ih, hchain, List.range_succ_eq_map, List.map_cons, List.map_map,
      chainFrom_zero, Nat.add_zero, Function.comp_def, Nat.succ_eq_add_one, Nat.add_assoc,
      Nat.add_comm 1]

omit [Crypto β] in
theorem mem_extendKeys {skipped new : List (ℕ × β)} {e : ℕ × β} (h : e ∈ extendKeys skipped new) :
    e ∈ skipped ∨ e ∈ new := by
  induction new generalizing skipped with
  | nil => exact .inl h
  | cons a new ih =>
    rcases ih h with h | h
    · rcases List.mem_cons.1 h with rfl | h
      · exact .inr List.mem_cons_self
      · exact .inl (List.mem_filter.1 h).1
    · exact .inr (List.mem_cons_of_mem _ h)

omit [Crypto β] in
theorem mem_of_lookup {l : List (ℕ × β)} {i : ℕ} {k : β} (h : l.lookup i = some k) :
    (i, k) ∈ l := by
  induction l with
  | nil => cases h
  | cons a l ih =>
    obtain ⟨j, k'⟩ := a
    rw [List.lookup_cons] at h
    split at h
    · rename_i hj
      obtain rfl := Option.some.inj h
      rw [beq_iff_eq] at hj
      exact hj ▸ List.mem_cons_self
    · exact List.mem_cons_of_mem _ (ih h)

/-- The chain after its cached key for `seq` was used. -/
def RecvChain.taken (recv : RecvChain β) (seq : ℕ) : RecvChain β :=
  { recv with skipped := recv.skipped.filter (·.1 ≠ seq) }

/-- The chain after a record `seq` still to come was opened. -/
def RecvChain.passed (recv : RecvChain β) (seq : ℕ) : RecvChain β where
  epoch := recv.epoch
  chain := chainFrom recv.chain (seq - recv.expectedSeq + 1)
  expectedSeq := seq + 1
  skipped := extendKeys recv.skipped
    (skipKeys recv.chain recv.expectedSeq (seq - recv.expectedSeq)).2

/-- The message key of a record still to come. -/
def RecvChain.keyAhead (recv : RecvChain β) (seq : ℕ) : β :=
  (advance (chainFrom recv.chain (seq - recv.expectedSeq))).2

theorem openAead_eq_ok {key nonce aad record m : β} :
    openAead key nonce aad record = .ok m ↔ aeadDecrypt key nonce aad record = some m := by
  unfold openAead
  split <;> simp_all

theorem openAead_eq_error {key nonce aad record : β} {e : Fault}
    (h : openAead key nonce aad record = .error e) : e = .error .decrypt := by
  unfold openAead at h
  split at h
  · cases h
  · exact (Except.error.inj h).symm

theorem openOn_cases {recv recv' : RecvChain β} {seq : ℕ} {aad ct : β} {r : Result β}
    (h : recv.openOn seq aad ct = (recv', r)) :
    (recv' = recv ∧ ∃ e, r = .err e) ∨
    (∃ key, seq < recv.expectedSeq ∧ (seq, key) ∈ recv.skipped ∧ recv' = recv.taken seq ∧
      r = openAead key zeroNonce aad ct) ∨
    r = .error .panic ∨
    (∃ plaintext, recv.expectedSeq ≤ seq ∧ seq + 1 < 2 ^ 64 ∧ recv' = recv.passed seq ∧
      openAead (recv.keyAhead seq) zeroNonce aad ct = .ok plaintext ∧ r = .ok plaintext) := by
  unfold RecvChain.openOn at h
  split_ifs at h with hlt heq hmax
  · split at h
    · obtain ⟨rfl, rfl⟩ := Prod.mk.inj h
      exact .inl ⟨rfl, _, rfl⟩
    · rename_i key hkey
      obtain ⟨rfl, rfl⟩ := Prod.mk.inj h
      exact .inr (.inl ⟨key, hlt, mem_of_lookup hkey, rfl, rfl⟩)
  · have hkey : recv.keyAhead seq = (advance recv.chain).2 := by
      rw [RecvChain.keyAhead, heq, Nat.sub_self, chainFrom_zero]
    split at h
    · rename_i e he
      obtain ⟨rfl, rfl⟩ := Prod.mk.inj h
      exact .inl ⟨rfl, _, by rw [openAead_eq_error he]⟩
    · rename_i plaintext hp
      dsimp only at h
      split at h
      · obtain ⟨rfl, rfl⟩ := Prod.mk.inj h
        exact .inr (.inr (.inl rfl))
      · rename_i next hnext
        obtain ⟨hlt', rfl⟩ := checkedAdd64_eq_some.1 hnext
        obtain ⟨rfl, rfl⟩ := Prod.mk.inj h
        refine .inr (.inr (.inr ⟨plaintext, by omega, by omega, ?_, by rw [hkey, hp], rfl⟩))
        simp [RecvChain.passed, heq, chainFrom_succ, skipKeys, extendKeys]
  · obtain ⟨rfl, rfl⟩ := Prod.mk.inj h
    exact .inl ⟨rfl, _, rfl⟩
  · simp only [RecvChain.openAhead, skipKeys_eq] at h
    split at h
    · rename_i e he
      obtain ⟨rfl, rfl⟩ := Prod.mk.inj h
      exact .inl ⟨rfl, _, by rw [openAead_eq_error he]⟩
    · rename_i plaintext hp
      split at h
      · obtain ⟨rfl, rfl⟩ := Prod.mk.inj h
        exact .inr (.inr (.inl rfl))
      · rename_i next hnext
        obtain ⟨hlt', rfl⟩ := checkedAdd64_eq_some.1 hnext
        obtain ⟨rfl, rfl⟩ := Prod.mk.inj h
        refine .inr (.inr (.inr ⟨plaintext, by omega, hlt', ?_, hp, rfl⟩))
        simp [RecvChain.passed, chainFrom_succ, skipKeys_eq]

/-- `RecvSlot`. -/
inductive RecvSlot
  | current
  | previous

namespace RatchetedSession

variable {s s' : RatchetedSession β}

/-! ### Sealing -/

/-- The session after one record was sealed. -/
def sealedOne (s : RatchetedSession β) : RatchetedSession β :=
  { s with sendSeq := s.sendSeq + 1, sendChain := (advance s.sendChain).1 }

/-- The record of a payload. -/
def recordOf (s : RatchetedSession β) (payload : β) : β :=
  frame [headerBytes s.sendEpoch s.sendSeq, aeadEncrypt (advance s.sendChain).2 zeroNonce
    (headerBytes s.sendEpoch s.sendSeq) payload]

theorem sealPayload_eq_ok {payload record : β} (h : s.sealPayload payload = .ok (s', record)) :
    s.sendSeq + 1 < 2 ^ 64 ∧ s' = s.sealedOne ∧ record = s.recordOf payload := by
  unfold sealPayload at h
  split at h
  · cases h
  · rename_i next hnext
    obtain ⟨hlt, rfl⟩ := checkedAdd64_eq_some.1 hnext
    obtain ⟨rfl, rfl⟩ := Prod.mk.inj (Except.ok.inj h)
    exact ⟨hlt, rfl, rfl⟩

/-- The session with a step of its own pending. -/
def awaiting (s : RatchetedSession β) (kex : InitiatorKex β) : RatchetedSession β :=
  { s with pending := some kex, pendingEpoch := s.sendEpoch }

/-- The payload of a step 1. -/
def step1Payload (kex : InitiatorKex β) : β := frame [kex.x25519Public, kex.mlKemPublic]

/-- The payload of a step 2. -/
def step2Payload (out : ResponderKex β) : β := frame [out.x25519Public, out.mlKemCiphertext]

theorem initiateRatchet_eq_ok {coins : InitiatorCoins β} {record : β}
    (h : s.initiateRatchet coins = .ok (s', record)) :
    s.pending = none ∧ s.sendSeq + 1 < 2 ^ 64 ∧
    s' = s.sealedOne.awaiting (.generate coins.x25519Secret coins.mlKemSecret) ∧
    record = s.recordOf (typed msgRatchetStep1
      (step1Payload (.generate coins.x25519Secret coins.mlKemSecret))) := by
  unfold initiateRatchet at h
  split_ifs at h with hp
  obtain ⟨⟨s₁, r⟩, hs, h⟩ := Result.bind_eq_ok.1 h
  obtain ⟨hlt, rfl, rfl⟩ := sealPayload_eq_ok hs
  obtain ⟨rfl, rfl⟩ := Prod.mk.inj (Except.ok.inj h)
  exact ⟨by simpa using hp, hlt, rfl, rfl⟩

/-! ### A new epoch -/

/-- The session in the epoch after `epoch`, under given keys. -/
def advanced (s : RatchetedSession β) (epoch : ℕ) (keys : β × β × β) : RatchetedSession β :=
  { s with
    rootKey := keys.1
    sendEpoch := epoch + 1
    sendChain := keys.2.1
    sendSeq := 0
    recvCurrent := ⟨epoch + 1, keys.2.2, 0, []⟩
    recvPrevious := some s.recvCurrent }

omit [Crypto β] in
theorem advanceEpoch_eq_ok {epoch : ℕ} {keys : β × β × β}
    (h : s.advanceEpoch epoch keys = .ok s') : epoch + 1 < 2 ^ 32 ∧ s' = s.advanced epoch keys := by
  unfold advanceEpoch at h
  split_ifs at h with hlt
  exact ⟨hlt, (Except.ok.inj h).symm⟩

omit [Crypto β] in
theorem advanceEpoch_eq_error {epoch : ℕ} {keys : β × β × β} {e : Fault}
    (h : s.advanceEpoch epoch keys = .error e) : e = .panic := by
  unfold advanceEpoch at h
  split_ifs at h
  exact (Except.error.inj h).symm

variable [ByteString β]

omit [ByteString β] in
theorem readExchange_eq_ok {second : β → Result β} {trailing : String} {payload x b : β}
    (h : readExchange second trailing payload = .ok (x, b)) :
    ∃ bytes, unframe payload = some [x, bytes] ∧ second bytes = .ok b := by
  unfold readExchange at h
  split at h
  · rename_i x' bytes rest hu
    obtain ⟨b', hb, h⟩ := Result.bind_eq_ok.1 h
    split_ifs at h with hrest
    obtain ⟨rfl, rfl⟩ := Prod.mk.inj (Except.ok.inj h)
    rw [List.isEmpty_iff] at hrest
    exact ⟨bytes, by rw [hu, hrest], hb⟩
  · cases h

theorem readPublic_eq_ok {trailing : String} {payload x b : β}
    (h : readExchange mlKemPublicFromBytes trailing payload = .ok (x, b)) :
    unframe payload = some [x, b] := by
  obtain ⟨bytes, hu, hb⟩ := readExchange_eq_ok h
  unfold mlKemPublicFromBytes at hb
  split_ifs at hb
  rw [hu, Except.ok.inj hb]

theorem readCiphertext_eq_ok {trailing : String} {payload x b : β}
    (h : readExchange mlKemCiphertextFromBytes trailing payload = .ok (x, b)) :
    unframe payload = some [x, b] := by
  obtain ⟨bytes, hu, hb⟩ := readExchange_eq_ok h
  unfold mlKemCiphertextFromBytes at hb
  split_ifs at hb
  rw [hu, Except.ok.inj hb]

theorem handleStep1_cases {coins : ResponderCoins β} {epoch : ℕ} {payload : β} {r : Result β}
    (h : s.handleStep1 coins epoch payload = (s', r)) :
    (s' = s ∧ ∃ e, r = .error e) ∨ r = .error .panic ∨
    ∃ x k out, s.pending = none ∧ epoch = s.sendEpoch ∧ unframe payload = some [x, k] ∧
      responderExchange coins.x25519Secret coins.kemRandom x k = .ok out ∧
      s.sendSeq + 1 < 2 ^ 64 ∧ epoch + 1 < 2 ^ 32 ∧
      s' = s.sealedOne.advanced epoch (deriveNextEpoch s.rootKey out.sharedSecret false) ∧
      r = .ok (s.recordOf (typed msgRatchetStep2 (step2Payload out))) := by
  unfold handleStep1 at h
  split_ifs at h with hp he
  · obtain ⟨rfl, rfl⟩ := Prod.mk.inj h
    exact .inl ⟨rfl, _, rfl⟩
  · obtain ⟨rfl, rfl⟩ := Prod.mk.inj h
    exact .inl ⟨rfl, _, rfl⟩
  · split at h
    · obtain ⟨rfl, rfl⟩ := Prod.mk.inj h
      exact .inl ⟨rfl, _, rfl⟩
    · rename_i out hout
      obtain ⟨⟨x, k⟩, hread, hout⟩ := Result.bind_eq_ok.1 hout
      split at h
      · obtain ⟨rfl, rfl⟩ := Prod.mk.inj h
        exact .inl ⟨rfl, _, rfl⟩
      · rename_i s₁ reply hseal
        obtain ⟨hlt, rfl, rfl⟩ := sealPayload_eq_ok hseal
        split at h
        · rename_i e hadv
          obtain ⟨rfl, rfl⟩ := Prod.mk.inj h
          exact .inr (.inl (by rw [advanceEpoch_eq_error hadv]))
        · rename_i s₂ hadv
          obtain ⟨hlt', rfl⟩ := advanceEpoch_eq_ok hadv
          obtain ⟨rfl, rfl⟩ := Prod.mk.inj h
          exact .inr (.inr ⟨x, k, out, by simpa using hp, by simpa using he,
            readPublic_eq_ok hread, hout, hlt, hlt', rfl, rfl⟩)

/-- The session whose pending key material was used up. -/
def usedUp (s : RatchetedSession β) : RatchetedSession β := { s with pending := none }

theorem handleStep2_cases {epoch : ℕ} {payload : β} {r : Result Unit}
    (h : s.handleStep2 epoch payload = (s', r)) :
    (s' = s ∧ ∃ e, r = .error e) ∨ r = .error .panic ∨
    ∃ kex, s.pending = some kex ∧ s.pendingEpoch = epoch ∧
      ((s' = s.usedUp ∧ (∃ e, r = .error e) ∧
        ∀ x ct ss, readExchange mlKemCiphertextFromBytes "trailing bytes in ratchet step2" payload =
          .ok (x, ct) → kex.finish x ct ≠ .ok ss) ∨
      ∃ x ct ss, unframe payload = some [x, ct] ∧ kex.finish x ct = .ok ss ∧ epoch + 1 < 2 ^ 32 ∧
        s' = s.usedUp.advanced epoch (deriveNextEpoch s.rootKey ss true) ∧ r = .ok ()) := by
  unfold handleStep2 at h
  split at h
  · obtain ⟨rfl, rfl⟩ := Prod.mk.inj h
    exact .inl ⟨rfl, _, rfl⟩
  · rename_i kex hkex
    split_ifs at h with he
    · obtain ⟨rfl, rfl⟩ := Prod.mk.inj h
      exact .inl ⟨rfl, _, rfl⟩
    · split at h
      · rename_i e hfail
        obtain ⟨rfl, rfl⟩ := Prod.mk.inj h
        refine .inr (.inr ⟨kex, hkex, by simpa using he, .inl ⟨rfl, ⟨_, rfl⟩, ?_⟩⟩)
        intro x ct ss hread hfin
        rw [hread, Result.ok_bind] at hfail
        cases hfin.symm.trans hfail
      · rename_i ss hss
        obtain ⟨⟨x, ct⟩, hread, hss⟩ := Result.bind_eq_ok.1 hss
        dsimp only at h
        split at h
        · rename_i e hadv
          obtain ⟨rfl, rfl⟩ := Prod.mk.inj h
          exact .inr (.inl (by rw [advanceEpoch_eq_error hadv]))
        · rename_i s₂ hadv
          obtain ⟨hlt', rfl⟩ := advanceEpoch_eq_ok hadv
          obtain ⟨rfl, rfl⟩ := Prod.mk.inj h
          exact .inr (.inr ⟨kex, hkex, by simpa using he, .inr ⟨x, ct, ss,
            readCiphertext_eq_ok hread, hss, hlt', rfl, rfl⟩⟩)

/-! ### Opening a record -/

omit [ByteString β] in
/-- A payload with a message type. -/
def HasType (plaintext : β) (msgType : ℕ) (body : β) : Prop :=
  ∃ tag, unframe plaintext = some [tag, body] ∧ readNum 1 tag = some msgType

/-- What the end of `open` can do: nothing, deliver, answer a step 1, finish a step, or use up the
pending key material on a step 2 that it cannot finish. -/
theorem handleOpened_cases {coins : ResponderCoins β} {epoch : ℕ} {opened : Result β}
    {r : Result (Opened β)} (h : s.handleOpened coins epoch opened = (s', r)) :
    (s' = s ∧ ∃ e, r = .error e) ∨ r = .error .panic ∨
    ∃ plaintext body, opened = .ok plaintext ∧
      ((HasType plaintext msgApplication body ∧ s' = s ∧ r = .ok (.application body)) ∨
      (HasType plaintext msgRatchetStep1 body ∧ ∃ reply,
        s.handleStep1 coins epoch body = (s', .ok reply) ∧
        r = .ok (.ratchetAdvanced (some reply))) ∨
      (HasType plaintext msgRatchetStep2 body ∧ ∃ done, s.handleStep2 epoch body = (s', done) ∧
        ((done = .ok () ∧ r = .ok (.ratchetAdvanced none)) ∨ ∃ e, done = .error e ∧
          r = .error e))) := by
  cases opened with
  | error e =>
    obtain ⟨rfl, rfl⟩ := Prod.mk.inj h
    exact .inl ⟨rfl, _, rfl⟩
  | ok plaintext =>
    simp only [handleOpened, handlePayload] at h
    split at h
    · obtain ⟨rfl, rfl⟩ := Prod.mk.inj h
      exact .inl ⟨rfl, _, rfl⟩
    · rename_i tag body hu
      split at h
      · rename_i htag
        obtain ⟨rfl, rfl⟩ := Prod.mk.inj h
        exact .inr (.inr ⟨plaintext, body, rfl, .inl ⟨⟨tag, hu, htag⟩, rfl, rfl⟩⟩)
      · rename_i htag
        cases hr : s.handleStep1 coins epoch body with
        | mk s₁ reply =>
          rw [hr] at h
          obtain ⟨rfl, rfl⟩ := Prod.mk.inj h
          cases reply with
          | error e =>
            rcases handleStep1_cases hr with ⟨rfl, -⟩ | hpanic | ⟨_, _, _, _, _, _, _, _, _, _, hr'⟩
            · exact .inl ⟨rfl, e, rfl⟩
            · obtain rfl := Except.error.inj hpanic
              exact .inr (.inl rfl)
            · cases hr'
          | ok reply =>
            exact .inr (.inr ⟨plaintext, body, rfl, .inr (.inl ⟨⟨tag, hu, htag⟩, reply, hr, rfl⟩)⟩)
      · rename_i htag
        cases hr : s.handleStep2 epoch body with
        | mk s₁ done =>
          rw [hr] at h
          obtain ⟨rfl, rfl⟩ := Prod.mk.inj h
          refine .inr (.inr ⟨plaintext, body, rfl, .inr (.inr ⟨⟨tag, hu, htag⟩, done, hr, ?_⟩)⟩)
          cases done with
          | error e => exact .inr ⟨e, rfl, rfl⟩
          | ok u => exact .inl ⟨rfl, rfl⟩
      · obtain ⟨rfl, rfl⟩ := Prod.mk.inj h
        exact .inl ⟨rfl, _, rfl⟩
    · obtain ⟨rfl, rfl⟩ := Prod.mk.inj h
      exact .inl ⟨rfl, _, rfl⟩

omit [Crypto β] [ByteString β] in
/-- The receive chain of a slot. -/
def recv (s : RatchetedSession β) : RecvSlot → Option (RecvChain β)
  | .current => some s.recvCurrent
  | .previous => s.recvPrevious

omit [Crypto β] [ByteString β] in
/-- The session with a slot's receive chain replaced. -/
def setRecv (s : RatchetedSession β) (recv : RecvChain β) : RecvSlot → RatchetedSession β
  | .current => { s with recvCurrent := recv }
  | .previous => { s with recvPrevious := some recv }

/-- What `open` can do: refuse the record, or open it on the chain of its epoch. -/
theorem openRecord_cases {coins : ResponderCoins β} {record : β} {r : Result (Opened β)}
    (h : s.openRecord coins record = (s', r)) :
    (s' = s ∧ ∃ e, r = .error e) ∨
    ∃ slot recv seq aad ct recv' opened,
      readRecord record = some (recv.epoch, seq, aad, ct) ∧ s.recv slot = some recv ∧
      recv.openOn seq aad ct = (recv', opened) ∧
      (s.setRecv recv' slot).handleOpened coins recv.epoch opened = (s', r) := by
  unfold openRecord at h
  split at h
  · obtain ⟨rfl, rfl⟩ := Prod.mk.inj h
    exact .inl ⟨rfl, _, rfl⟩
  · rename_i epoch seq aad ct hread
    split_ifs at h with he
    · subst he
      exact .inr ⟨.current, s.recvCurrent, seq, aad, ct, _, _, hread, rfl, rfl, h⟩
    · split at h
      · obtain ⟨rfl, rfl⟩ := Prod.mk.inj h
        exact .inl ⟨rfl, _, rfl⟩
      · rename_i previous hprev
        split_ifs at h with he'
        · subst he'
          exact .inr ⟨.previous, previous, seq, aad, ct, _, _, hread, hprev, rfl, h⟩
        · obtain ⟨rfl, rfl⟩ := Prod.mk.inj h
          exact .inl ⟨rfl, _, rfl⟩

/-! ### Opening a chunk -/

section Chunks

variable [ReedSolomon β]

theorem initiateIncrementalRatchet_eq_ok {coins : InitiatorCoins β} {d p : ℕ} {records : List β}
    (h : s.initiateIncrementalRatchet coins d p = .ok (s', records)) :
    s.pending = none ∧
    s' = s.awaiting (.generate coins.x25519Secret coins.mlKemSecret) ∧
    buildChunkRecords msgRatchetStep1Chunk
      (deriveChunkKey s.rootKey coins.attemptNonce labelChunkKeyStep1) coins.attemptNonce
      (step1Payload (.generate coins.x25519Secret coins.mlKemSecret)) d p = .ok records := by
  unfold initiateIncrementalRatchet at h
  split_ifs at h with hp
  obtain ⟨records', hb, h⟩ := Result.bind_eq_ok.1 h
  obtain ⟨rfl, rfl⟩ := Prod.mk.inj (Except.ok.inj h)
  exact ⟨by simpa using hp, rfl, hb⟩

/-- The records of an attempt: one for each shard, under the attempt's header. -/
theorem buildChunkRecords_eq_ok {msgType : ℕ} {key nonce payload : β} {d p : ℕ}
    {records : List β} (h : buildChunkRecords msgType key nonce payload d p = .ok records) :
    ∃ shards, Erasure.encode payload d p = .ok shards ∧
      records = shards.1.zipIdx.map fun s => chunkRecord key
        ⟨msgType, nonce, s.2, d, p, len payload, truncatedChecksum payload⟩ s.1 := by
  unfold buildChunkRecords at h
  split_ifs at h
  obtain ⟨⟨shards, n⟩, hs, h⟩ := Result.bind_eq_ok.1 h
  exact ⟨_, hs, (Except.ok.inj h).symm⟩

omit [ByteString β] [ReedSolomon β] in
theorem parseChunkHeader_eq_ok {bytes header ct : β} {h : ChunkHeader β}
    (hp : parseChunkHeader bytes = .ok (h, header, ct)) :
    unframe bytes = some [header, ct] ∧ ChunkHeader.read header = some h := by
  unfold parseChunkHeader at hp
  split at hp
  · rename_i header' ct' rest hu
    split at hp
    · cases hp
    · rename_i h' hread
      split_ifs at hp with hrest
      obtain ⟨rfl, hbytes⟩ := Prod.mk.inj (Except.ok.inj hp)
      obtain ⟨rfl, rfl⟩ := Prod.mk.inj hbytes
      rw [List.isEmpty_iff] at hrest
      exact ⟨by rw [hu, hrest], hread⟩
  · cases hp

variable [DecidableEq β]

/-- A reconstructed payload has the checksum of the chunk that completed it. -/
theorem accumulateChunk_eq_ok {slot slot' : Option (ChunkAccumulator β)} {nonce payload : β}
    {fields : ChunkFields β} {d p : ℕ}
    (h : accumulateChunk slot nonce fields = (slot', .ok (some (payload, d, p)))) :
    truncatedChecksum payload = fields.checksum ∧ d = fields.dataShards ∧
    p = fields.parityShards := by
  unfold accumulateChunk at h
  split_ifs at h
  · cases (Prod.mk.inj h).2
  · unfold accumulateInto at h
    split_ifs at h with hparams
    · cases (Prod.mk.inj h).2
    · dsimp only at h
      split_ifs at h
      · cases (Prod.mk.inj h).2
      · obtain ⟨rec, hrec, h⟩ := Result.bind_eq_ok.1 (Prod.mk.inj h).2
        split_ifs at h with hlen hsum
        obtain ⟨rfl, hcounts⟩ := Prod.mk.inj (Option.some.inj (Except.ok.inj h))
        obtain ⟨rfl, rfl⟩ := Prod.mk.inj hcounts
        simp only [not_or, not_not] at hparams hsum
        exact ⟨hsum.trans hparams.2.2.2, rfl, rfl⟩

omit [Crypto β] [ByteString β] [ReedSolomon β] [DecidableEq β] in
/-- The session with its half-finished reconstructions replaced. -/
def withChunks (s : RatchetedSession β) (step1 step2 : Option (ChunkAccumulator β)) :
    RatchetedSession β :=
  { s with incomingStep1Chunks := step1, incomingStep2Chunks := step2 }

omit [Crypto β] [ByteString β] [ReedSolomon β] [DecidableEq β] in
/-- The session with the nonces of the last completed attempts replaced. -/
def completed (s : RatchetedSession β) (step1 step2 : Option β) : RatchetedSession β :=
  { s with lastCompletedStep1Attempt := step1, lastCompletedStep2Attempt := step2 }

/-- An opened chunk, as `open_ratchet_chunk` reads it. -/
structure ChunkOpens (s : RatchetedSession β) (bytes label : β) (msgType : ℕ)
    (h : ChunkHeader β) : Prop where
  opens : ∃ header ct shard, unframe bytes = some [header, ct] ∧
    ChunkHeader.read header = some h ∧
    openAead (deriveChunkKey s.rootKey h.attemptNonce label) (chunkNonce h.shardIndex) header ct =
      .ok shard
  msgType_eq : h.msgType = msgType

/-- What `open_ratchet_chunk` can do: file the chunk or refuse it, answer a step 1, finish a step,
or use up the pending key material on a step 2 that it cannot finish. -/
theorem openRatchetChunk_cases {coins : ResponderCoins β} {bytes : β}
    {r : Result (ChunkOutcome β)} (h : s.openRatchetChunk coins bytes = (s', r)) :
    (∃ a b, s' = s.withChunks a b ∧ ((∃ e, r = .error e) ∨ r = .ok .stillAccumulating)) ∨
    r = .error .panic ∨
    (∃ ch a x k out payload records, s.pending = none ∧
      ChunkOpens s bytes labelChunkKeyStep1 msgRatchetStep1Chunk ch ∧
      truncatedChecksum payload = ch.checksum ∧ unframe payload = some [x, k] ∧
      responderExchange coins.x25519Secret coins.kemRandom x k = .ok out ∧
      buildChunkRecords msgRatchetStep2Chunk
        (deriveChunkKey s.rootKey coins.attemptNonce labelChunkKeyStep2) coins.attemptNonce
        (step2Payload out) ch.dataShards ch.parityShards = .ok records ∧
      s.sendEpoch + 1 < 2 ^ 32 ∧
      s' = ((s.withChunks a s.incomingStep2Chunks).advanced s.sendEpoch
        (deriveNextEpoch s.rootKey out.sharedSecret false)).completed
          (some ch.attemptNonce) s.lastCompletedStep2Attempt ∧
      r = .ok (.step1Complete records)) ∨
    (∃ ch a kex payload x ct, s.pending = some kex ∧
      ChunkOpens s bytes labelChunkKeyStep2 msgRatchetStep2Chunk ch ∧
      truncatedChecksum payload = ch.checksum ∧ unframe payload = some [x, ct] ∧
      ((∃ e, kex.finish x ct = .error e ∧
        s' = (s.withChunks s.incomingStep1Chunks a).usedUp ∧ ∃ e, r = .error e) ∨
      ∃ ss, kex.finish x ct = .ok ss ∧ s.sendEpoch + 1 < 2 ^ 32 ∧
        s' = ((s.withChunks s.incomingStep1Chunks a).usedUp.advanced s.sendEpoch
          (deriveNextEpoch s.rootKey ss true)).completed s.lastCompletedStep1Attempt
            (some ch.attemptNonce) ∧
        r = .ok .step2Complete)) := by
  unfold openRatchetChunk at h
  split at h
  · obtain ⟨rfl, rfl⟩ := Prod.mk.inj h
    exact .inl ⟨_, _, rfl, .inl ⟨_, rfl⟩⟩
  · rename_i ch header ct hparse
    obtain ⟨hu, hread⟩ := parseChunkHeader_eq_ok hparse
    split_ifs at h with ht ht
    · unfold openStep1Chunk at h
      split_ifs at h with hlast hp
      · obtain ⟨rfl, rfl⟩ := Prod.mk.inj h
        exact .inl ⟨_, _, rfl, .inr rfl⟩
      · obtain ⟨rfl, rfl⟩ := Prod.mk.inj h
        exact .inl ⟨_, _, rfl, .inl ⟨_, rfl⟩⟩
      · split at h
        · obtain ⟨rfl, rfl⟩ := Prod.mk.inj h
          exact .inl ⟨_, _, rfl, .inl ⟨_, rfl⟩⟩
        · rename_i shard hopen
          cases hacc : accumulateChunk s.incomingStep1Chunks ch.attemptNonce (ch.fields shard) with
          | mk slot filed =>
            rw [hacc] at h
            dsimp only at h
            split at h
            · obtain ⟨rfl, rfl⟩ := Prod.mk.inj h
              exact .inl ⟨slot, _, rfl, .inl ⟨_, rfl⟩⟩
            · obtain ⟨rfl, rfl⟩ := Prod.mk.inj h
              exact .inl ⟨slot, _, rfl, .inr rfl⟩
            · rename_i payload d p
              obtain ⟨hsum, rfl, rfl⟩ := accumulateChunk_eq_ok hacc
              unfold completeStep1 at h
              split at h
              · obtain ⟨rfl, rfl⟩ := Prod.mk.inj h
                exact .inl ⟨slot, _, rfl, .inl ⟨_, rfl⟩⟩
              · rename_i s₂ records hdone
                obtain ⟨rfl, rfl⟩ := Prod.mk.inj h
                obtain ⟨⟨x, k⟩, hex, hdone⟩ := Result.bind_eq_ok.1 hdone
                obtain ⟨out, hout, hdone⟩ := Result.bind_eq_ok.1 hdone
                obtain ⟨records', hrec, hdone⟩ := Result.bind_eq_ok.1 hdone
                obtain ⟨s₁, hadv, hdone⟩ := Result.bind_eq_ok.1 hdone
                obtain ⟨hlt, rfl⟩ := advanceEpoch_eq_ok hadv
                obtain ⟨rfl, rfl⟩ := Prod.mk.inj (Except.ok.inj hdone)
                exact .inr (.inr (.inl ⟨ch, slot, x, k, out, payload, records', by simpa using hp,
                  ⟨⟨header, ct, shard, hu, hread, hopen⟩, ht⟩, hsum, readPublic_eq_ok hex, hout,
                  hrec, hlt, rfl, rfl⟩))
    · unfold openStep2Chunk at h
      split_ifs at h with hlast hp
      · obtain ⟨rfl, rfl⟩ := Prod.mk.inj h
        exact .inl ⟨_, _, rfl, .inr rfl⟩
      · obtain ⟨rfl, rfl⟩ := Prod.mk.inj h
        exact .inl ⟨_, _, rfl, .inl ⟨_, rfl⟩⟩
      · split at h
        · obtain ⟨rfl, rfl⟩ := Prod.mk.inj h
          exact .inl ⟨_, _, rfl, .inl ⟨_, rfl⟩⟩
        · rename_i shard hopen
          cases hacc : accumulateChunk s.incomingStep2Chunks ch.attemptNonce (ch.fields shard) with
          | mk slot filed =>
            rw [hacc] at h
            dsimp only at h
            split at h
            · obtain ⟨rfl, rfl⟩ := Prod.mk.inj h
              exact .inl ⟨_, slot, rfl, .inl ⟨_, rfl⟩⟩
            · obtain ⟨rfl, rfl⟩ := Prod.mk.inj h
              exact .inl ⟨_, slot, rfl, .inr rfl⟩
            · rename_i payload d p
              obtain ⟨hsum, rfl, rfl⟩ := accumulateChunk_eq_ok hacc
              unfold completeStep2 at h
              split at h
              · obtain ⟨rfl, rfl⟩ := Prod.mk.inj h
                exact .inl ⟨_, slot, rfl, .inl ⟨_, rfl⟩⟩
              · rename_i x ct' hex
                split at h
                · obtain ⟨rfl, rfl⟩ := Prod.mk.inj h
                  exact .inr (.inl rfl)
                · rename_i kex hkex
                  dsimp only at h
                  split at h
                  · rename_i e hfail
                    obtain ⟨rfl, rfl⟩ := Prod.mk.inj h
                    cases hfin : kex.finish x ct' with
                    | error e' =>
                      exact .inr (.inr (.inr ⟨ch, slot, kex, payload, x, ct', hkex,
                        ⟨⟨header, ct, shard, hu, hread, hopen⟩, ht⟩, hsum,
                        readCiphertext_eq_ok hex, .inl ⟨e', hfin, rfl, _, rfl⟩⟩))
                    | ok ss =>
                      rw [hfin, Result.ok_bind] at hfail
                      exact .inr (.inl (by rw [advanceEpoch_eq_error hfail]))
                  · rename_i s₂ hdone
                    obtain ⟨rfl, rfl⟩ := Prod.mk.inj h
                    obtain ⟨ss, hss, hadv⟩ := Result.bind_eq_ok.1 hdone
                    obtain ⟨hlt, rfl⟩ := advanceEpoch_eq_ok hadv
                    exact .inr (.inr (.inr ⟨ch, slot, kex, payload, x, ct', hkex,
                      ⟨⟨header, ct, shard, hu, hread, hopen⟩, ht⟩, hsum,
                      readCiphertext_eq_ok hex, .inr ⟨ss, hss, hlt, rfl, rfl⟩⟩))
    · obtain ⟨rfl, rfl⟩ := Prod.mk.inj h
      exact .inl ⟨_, _, rfl, .inl ⟨_, rfl⟩⟩

end Chunks

end RatchetedSession

end Ratchet

end NovaChannel
