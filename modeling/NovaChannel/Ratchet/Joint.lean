import NovaChannel.Ratchet.Secrecy

/-!
# Two sessions over a network

The two sessions of a handshake stay together in every run, whatever the network does with what
they send (`pair_safe`).  The invariant `Pair.Inv` ties both sessions, their pending steps and all
messages on the network to one schedule of exchanges:

* a session is in the newest epoch, or one behind with its own step pending that the peer has
  answered (`Pair.Inv.lag`);
* every message has a `Content`, sealed under a key of the schedule, and what it says about the
  sender holds (`MessageOk`): a step 1 of the sender's epoch is its pending step, a step 2 is the
  answer the schedule records.
-/

namespace NovaChannel

namespace Ratchet

open Crypto Kex RatchetedSession

/-! ### Exchanges -/

/-- The answer of call `k'` to the step initiated by call `k`. -/
def exchange (k k' : ℕ) : ResponderKex Bytes where
  x25519Public := x25519Public (.name (.x25519 k'))
  mlKemCiphertext := (encapsulate (kexOf k).mlKemPublic (.name (.kemRandom k'))).1
  sharedSecret := frame [diffieHellman (.name (.x25519 k')) (kexOf k).x25519Public,
    (encapsulate (kexOf k).mlKemPublic (.name (.kemRandom k'))).2]

theorem responderExchange_kexOf (k k' : ℕ) :
    responderExchange (responderCoins k').x25519Secret (responderCoins k').kemRandom
      (kexOf k).x25519Public (kexOf k).mlKemPublic = .ok (exchange k k') := rfl

theorem finish_exchange (k k' : ℕ) :
    (kexOf k).finish (exchange k k').x25519Public (exchange k k').mlKemCiphertext =
      .ok (exchange k k').sharedSecret := finish_responderExchange (responderExchange_kexOf k k')

/-- A completed exchange: who initiated it, and the calls of both sides. -/
structure Exchange where
  initiator : Party
  k : ℕ
  k' : ℕ
  deriving DecidableEq

/-- The epoch step of an exchange. -/
def Exchange.toStep (x : Exchange) : EpochStep := ⟨(exchange x.k x.k').sharedSecret, x.initiator⟩

/-- The schedule of a list of exchanges. -/
def scheduleOf (transcriptFinal : Bytes) (xs : List Exchange) : Schedule :=
  ⟨transcriptFinal, xs.map Exchange.toStep⟩

theorem scheduleOf_concat (transcriptFinal : Bytes) (xs : List Exchange) (x : Exchange) :
    scheduleOf transcriptFinal (xs ++ [x]) = (scheduleOf transcriptFinal xs).push x.toStep := by
  simp [scheduleOf, Schedule.push]

theorem length_scheduleOf (transcriptFinal : Bytes) (xs : List Exchange) :
    (scheduleOf transcriptFinal xs).steps.length = xs.length := by simp [scheduleOf]

/-! ### What a message says -/

/-- The content of a message. -/
inductive Content
  /-- The `n`-th record, with application data. -/
  | application (n : ℕ) (plaintext : Bytes)
  /-- The `n`-th record, with the step 1 of call `k`. -/
  | step1 (n k : ℕ)
  /-- The `n`-th record, with the answer of call `k'`. -/
  | step2 (n k k' : ℕ)
  /-- A chunk of the step 1 of call `k`. -/
  | chunk1 (k i dataShards parityShards : ℕ) (shard : Bytes)
  /-- A chunk of the answer of call `k'`. -/
  | chunk2 (k k' i dataShards parityShards : ℕ) (shard : Bytes)

namespace Content

/-- The number of a record. -/
def number : Content → Option ℕ
  | application n _ | step1 n _ | step2 n _ _ => some n
  | _ => none

/-- The payload of a record. -/
def payload : Content → Bytes
  | application _ plaintext => typed msgApplication plaintext
  | step1 _ k => typed msgRatchetStep1 (step1Payload (kexOf k))
  | step2 _ k k' => typed msgRatchetStep2 (step2Payload (exchange k k'))
  | chunk1 k .. => step1Payload (kexOf k)
  | chunk2 k k' .. => step2Payload (exchange k k')

/-- The step it starts. -/
def initiates : Content → Option ℕ
  | step1 _ k | chunk1 k .. => some k
  | _ => none

/-- The step it answers, and the answering call. -/
def answers : Content → Option (ℕ × ℕ)
  | step2 _ k k' | chunk2 k k' .. => some (k, k')
  | _ => none

/-- The call whose attempt nonce it carries. -/
def attempt : Content → Option ℕ
  | chunk1 k .. => some k
  | chunk2 _ k' .. => some k'
  | _ => none

/-- The application data of a record. -/
def plaintext : Content → Option Bytes
  | application _ plaintext => some plaintext
  | _ => none

end Content

/-- The record of a payload, in its place. -/
def recordBytes (S : Schedule) (e : ℕ) (p : Party) (n : ℕ) (payload : Bytes) : Bytes :=
  frame [headerBytes e n, aeadEncrypt (S.keyAt e p n) zeroNonce (headerBytes e n) payload]

/-- A chunk of an attempt. -/
def chunkBytes (S : Schedule) (e : ℕ) (label : Bytes) (msgType a i d m : ℕ)
    (payload shard : Bytes) : Bytes :=
  chunkRecord (deriveChunkKey (S.rootAt e) (.name (.attemptNonce a)) label)
    ⟨msgType, .name (.attemptNonce a), i, d, m, ByteString.len payload, truncatedChecksum payload⟩
    shard

/-- The bytes of a message of `p` in epoch `e`. -/
def Content.bytes (S : Schedule) (e : ℕ) (p : Party) (c : Content) : Bytes :=
  match c with
  | application n _ => recordBytes S e p n c.payload
  | step1 n _ => recordBytes S e p n c.payload
  | step2 n _ _ => recordBytes S e p n c.payload
  | chunk1 k i d m shard =>
    chunkBytes S e labelChunkKeyStep1 msgRatchetStep1Chunk k i d m c.payload shard
  | chunk2 _ k' i d m shard =>
    chunkBytes S e labelChunkKeyStep2 msgRatchetStep2Chunk k' i d m c.payload shard

/-- What a message says about its sender, whose session is `s`. -/
structure MessageOk (xs : List Exchange) (calls : ℕ) (sealed : List (Bytes × Bytes)) (p : Party)
    (s : RatchetedSession Bytes) (bytes : Bytes) (e : ℕ) (c : Content) : Prop where
  epoch_le : e ≤ s.sendEpoch
  number : ∀ n, c.number = some n → s.Spent p e p n
  initiates : ∀ k, c.initiates = some k → e = s.sendEpoch → s.pending = some (kexOf k)
  answers : ∀ k k', c.answers = some (k, k') → e < s.sendEpoch ∧ xs[e]? = some ⟨p.peer, k, k'⟩
  attempt : ∀ a, c.attempt = some a → a < calls
  plaintext : ∀ t, c.plaintext = some t → (bytes, t) ∈ sealed

/-! ### The invariant -/

/-- The bytes are sealed under a key and a nonce. -/
def Seals (bytes key nonce plaintext : Bytes) : Prop :=
  ∃ header, bytes = frame [header, aeadEncrypt key nonce header plaintext]

/-- Both sessions, their pending steps and the network agree with the exchanges. -/
structure Pair.Inv (transcriptFinal : Bytes) (xs : List Exchange) (w : Pair) : Prop where
  session : ∀ p, SessionOk (scheduleOf transcriptFinal xs) p (w.session p)
  /-- A session that is behind waits for the answer it was given. -/
  lag : ∀ p x, xs[(w.session p).sendEpoch]? = some x → x.initiator = p ∧
    (w.session p).pending = some (kexOf x.k) ∧ xs.length = (w.session p).sendEpoch + 1 ∧
    (w.session p.peer).sendEpoch = xs.length
  net : ∀ m ∈ w.net, ∃ e c, m.bytes = c.bytes (scheduleOf transcriptFinal xs) e m.sender ∧
    MessageOk xs w.calls (w.sealed m.sender) m.sender (w.session m.sender) m.bytes e c
  /-- A key and a nonce seal one message. -/
  once : ∀ m ∈ w.net, ∀ m' ∈ w.net, ∀ key nonce t t', Seals m.bytes key nonce t →
    Seals m'.bytes key nonce t' → m.bytes = m'.bytes
  sealed : ∀ p, ∀ r ∈ w.sealed p, ∃ e n t,
    r.1 = recordBytes (scheduleOf transcriptFinal xs) e p n t ∧ (w.session p).Spent p e p n
  sealed_nodup : ∀ p, (w.sealed p).Nodup
  delivered : ∀ p, ∀ r ∈ w.delivered p, r ∈ w.sealed p.peer ∧ ∃ e n t,
    r.1 = recordBytes (scheduleOf transcriptFinal xs) e p.peer n t ∧
    (w.session p).Spent p e p.peer n
  delivered_nodup : ∀ p, ((w.delivered p).map Prod.fst).Nodup

/-! ### Keys of messages -/

section Keys

variable {S : Schedule} {e e' n n' : ℕ} {p q : Party} {c : Content}

theorem recordBytes_inj {t t' : Bytes} (h : recordBytes S e p n t = recordBytes S e' q n' t') :
    e = e' ∧ p = q ∧ n = n' := by
  have h' := Term.list_inj.1 h
  exact Schedule.keyAt_inj (Term.aead.inj (List.cons.inj (List.cons.inj h').2).1).1

theorem Content.bytes_push {x : EpochStep} (h : e ≤ S.steps.length) :
    c.bytes (S.push x) e p = c.bytes S e p := by
  cases c <;> simp only [Content.bytes, recordBytes, chunkBytes, Schedule.keyAt_push h,
    Schedule.rootAt_push h]

theorem seals_record {payload key nonce t : Bytes} :
    Seals (recordBytes S e p n payload) key nonce t ↔
      key = S.keyAt e p n ∧ nonce = zeroNonce ∧ t = payload := by
  constructor
  · rintro ⟨header, h⟩
    have h' := Term.list_inj.1 h
    obtain ⟨h1, h2, -, h3⟩ := Term.aead.inj (List.cons.inj (List.cons.inj h').2).1
    exact ⟨h1.symm, h2.symm, h3.symm⟩
  · rintro ⟨rfl, rfl, rfl⟩
    exact ⟨_, rfl⟩

theorem seals_chunk {label payload shard key nonce t : Bytes} {msgType a i d m : ℕ} :
    Seals (chunkBytes S e label msgType a i d m payload shard) key nonce t ↔
      key = deriveChunkKey (S.rootAt e) (.name (.attemptNonce a)) label ∧
        nonce = chunkNonce i ∧ t = shard := by
  constructor
  · rintro ⟨header, h⟩
    have h' := Term.list_inj.1 h
    obtain ⟨h1, h2, -, h3⟩ := Term.aead.inj (List.cons.inj (List.cons.inj h').2).1
    exact ⟨h1.symm, h2.symm, h3.symm⟩
  · rintro ⟨rfl, rfl, rfl⟩
    exact ⟨_, rfl⟩

/-- What a message key opens is the record of its place. -/
theorem Content.of_seals_keyAt {nonce t : Bytes}
    (h : Seals (c.bytes S e q) (S.keyAt e' p n) nonce t) :
    e = e' ∧ q = p ∧ c.number = some n ∧ c.payload = t ∧
      c.bytes S e q = recordBytes S e q n c.payload := by
  cases c with
  | application =>
    obtain ⟨hk, -, rfl⟩ := seals_record.1 h
    obtain ⟨rfl, rfl, rfl⟩ := Schedule.keyAt_inj hk
    exact ⟨rfl, rfl, rfl, rfl, rfl⟩
  | step1 =>
    obtain ⟨hk, -, rfl⟩ := seals_record.1 h
    obtain ⟨rfl, rfl, rfl⟩ := Schedule.keyAt_inj hk
    exact ⟨rfl, rfl, rfl, rfl, rfl⟩
  | step2 =>
    obtain ⟨hk, -, rfl⟩ := seals_record.1 h
    obtain ⟨rfl, rfl, rfl⟩ := Schedule.keyAt_inj hk
    exact ⟨rfl, rfl, rfl, rfl, rfl⟩
  | chunk1 => cases (seals_chunk.1 h).1
  | chunk2 => cases (seals_chunk.1 h).1

theorem deriveChunkKey_inj {r r' a a' l l' : Bytes}
    (h : deriveChunkKey r a l = deriveChunkKey r' a' l') : r = r' ∧ a = a' ∧ l = l' := by
  obtain ⟨-, hprk, hl⟩ := Term.fn.inj h
  obtain ⟨-, hr, ha⟩ := Term.fn.inj hprk
  exact ⟨hr, ha, hl⟩

theorem keyAt_ne_deriveChunkKey {r a l : Bytes} : S.keyAt e p n ≠ deriveChunkKey r a l := by
  intro h
  cases h

/-- The key and nonce of a message determine its place, or its attempt and shard. -/
theorem Content.eq_of_seals {c' : Content} {key nonce t t' : Bytes}
    (h : Seals (c.bytes S e p) key nonce t) (h' : Seals (c'.bytes S e' q) key nonce t') :
    (∃ n, c.number = some n ∧ c'.number = some n ∧ e = e' ∧ p = q) ∨
    ∃ a, c.attempt = some a ∧ c'.attempt = some a := by
  cases c <;> cases c' <;>
    simp only [Content.bytes, seals_record, seals_chunk] at h h' <;>
    obtain ⟨rfl, -, -⟩ := h <;> obtain ⟨hk, -, -⟩ := h'
  case chunk1.chunk1 | chunk1.chunk2 | chunk2.chunk1 | chunk2.chunk2 =>
    obtain ⟨-, ha, -⟩ := deriveChunkKey_inj hk
    cases ha
    exact .inr ⟨_, rfl, rfl⟩
  case chunk1.application | chunk1.step1 | chunk1.step2 | chunk2.application | chunk2.step1 |
      chunk2.step2 => exact absurd hk.symm keyAt_ne_deriveChunkKey
  case application.chunk1 | step1.chunk1 | step2.chunk1 | application.chunk2 | step1.chunk2 |
      step2.chunk2 => exact absurd hk keyAt_ne_deriveChunkKey
  all_goals
    obtain ⟨rfl, rfl, rfl⟩ := Schedule.keyAt_inj hk
    exact .inl ⟨_, rfl, rfl, rfl, rfl⟩

end Keys

/-! ### One call -/

/-- What a call of `p` may do to keep the invariant. -/
structure Effect (transcriptFinal : Bytes) (xs xs' : List Exchange) (w : Pair) (p : Party)
    (c : Call) (o : Outcome) : Prop where
  exchanges : xs' = xs ∨ ∃ x, xs' = xs ++ [x]
  session : SessionOk (scheduleOf transcriptFinal xs') p o.session
  epoch_le : (w.session p).sendEpoch ≤ o.session.sendEpoch
  spent : ∀ e q n, (w.session p).Spent p e q n → o.session.Spent p e q n
  pending : o.session.sendEpoch = (w.session p).sendEpoch →
    (w.session p).pending = none ∨ o.session.pending = (w.session p).pending
  lag : ∀ q x, xs'[((w.after p c o).session q).sendEpoch]? = some x → x.initiator = q ∧
    ((w.after p c o).session q).pending = some (kexOf x.k) ∧
    xs'.length = ((w.after p c o).session q).sendEpoch + 1 ∧
    ((w.after p c o).session q.peer).sendEpoch = xs'.length
  net : ∀ b ∈ o.records ++ o.chunks, ∃ e ct, b = ct.bytes (scheduleOf transcriptFinal xs') e p ∧
    MessageOk xs' (w.calls + 1) (c.sealedBy o ++ w.sealed p) p o.session b e ct ∧
    (∀ n, ct.number = some n → ¬ (w.session p).Spent p e p n) ∧
    ∀ a, ct.attempt = some a → a = w.calls
  once : ∀ b ∈ o.records ++ o.chunks, ∀ b' ∈ o.records ++ o.chunks, ∀ key nonce t t',
    Seals b key nonce t → Seals b' key nonce t' → b = b'
  sealed : ∀ r ∈ c.sealedBy o, ∃ e n t,
    r.1 = recordBytes (scheduleOf transcriptFinal xs') e p n t ∧ o.session.Spent p e p n ∧
    ¬ (w.session p).Spent p e p n
  sealed_nodup : (c.sealedBy o).Nodup
  delivered : ∀ r ∈ c.deliveredBy o, r ∈ w.sealed p.peer ∧ ∃ e n t,
    r.1 = recordBytes (scheduleOf transcriptFinal xs') e p.peer n t ∧
    o.session.Spent p e p.peer n ∧ ¬ (w.session p).Spent p e p.peer n

section Effect

variable {th : Bytes} {xs xs' : List Exchange} {w : Pair} {p : Party} {c : Call} {o : Outcome}

@[simp] theorem Pair.session_after_self : (w.after p c o).session p = o.session := by
  simp [Pair.after]

theorem Pair.session_after_of_ne {q : Party} (h : q ≠ p) :
    (w.after p c o).session q = w.session q := by
  simp [Pair.after, h]

/-- A message stays what it was when its sender moves on. -/
theorem MessageOk.mono {calls calls' : ℕ} {sealed sealed' : List (Bytes × Bytes)}
    {s s' : RatchetedSession Bytes} {bytes : Bytes} {e : ℕ} {ct : Content}
    (h : MessageOk xs calls sealed p s bytes e ct) (hxs : xs' = xs ∨ ∃ x, xs' = xs ++ [x])
    (hcalls : calls ≤ calls') (hsealed : ∀ r ∈ sealed, r ∈ sealed')
    (hepoch : s.sendEpoch ≤ s'.sendEpoch) (hspent : ∀ e q n, s.Spent p e q n → s'.Spent p e q n)
    (hpend : s'.sendEpoch = s.sendEpoch → s.pending = none ∨ s'.pending = s.pending) :
    MessageOk xs' calls' sealed' p s' bytes e ct where
  epoch_le := h.epoch_le.trans hepoch
  number n hn := hspent _ _ _ (h.number n hn)
  initiates k hk he := by
    have hle := h.epoch_le
    have he' : s'.sendEpoch = s.sendEpoch := by omega
    have hold := h.initiates k hk (by omega)
    rcases hpend he' with hnone | hsame
    · rw [hnone] at hold
      cases hold
    · rw [hsame, hold]
  answers k k' hk := by
    obtain ⟨hlt, hx⟩ := h.answers k k' hk
    refine ⟨by omega, ?_⟩
    rcases hxs with rfl | ⟨x, rfl⟩
    · exact hx
    · rw [List.getElem?_append_left (List.getElem?_eq_some_iff.1 hx).choose, hx]
  attempt a ha := (h.attempt a ha).trans_le hcalls
  plaintext t ht := hsealed _ (h.plaintext t ht)

/-- The schedule of more exchanges places old messages where they were. -/
theorem bytes_schedule {e : ℕ} {q : Party} {ct : Content}
    (hxs : xs' = xs ∨ ∃ x, xs' = xs ++ [x]) (he : e ≤ xs.length) :
    ct.bytes (scheduleOf th xs') e q = ct.bytes (scheduleOf th xs) e q := by
  rcases hxs with rfl | ⟨x, rfl⟩
  · rfl
  · rw [scheduleOf_concat, Content.bytes_push (by rwa [length_scheduleOf])]

theorem recordBytes_schedule {e n : ℕ} {q : Party} {t : Bytes}
    (hxs : xs' = xs ∨ ∃ x, xs' = xs ++ [x]) (he : e ≤ xs.length) :
    recordBytes (scheduleOf th xs') e q n t = recordBytes (scheduleOf th xs) e q n t := by
  rcases hxs with rfl | ⟨x, rfl⟩
  · rfl
  · rw [scheduleOf_concat, recordBytes, recordBytes,
      Schedule.keyAt_push (by rwa [length_scheduleOf])]

theorem Pair.Inv.epoch_le (h : w.Inv th xs) (q : Party) :
    (w.session q).sendEpoch ≤ xs.length := by
  have := (h.session q).epoch_le
  rwa [length_scheduleOf] at this

/-- **A call with an allowed effect keeps the invariant.** -/
theorem Pair.Inv.after (h : w.Inv th xs) (he : Effect th xs xs' w p c o) :
    (w.after p c o).Inv th xs' := by
  have hmono : ∀ q, (w.session q).sendEpoch ≤ ((w.after p c o).session q).sendEpoch ∧
      (∀ e r n, (w.session q).Spent q e r n → ((w.after p c o).session q).Spent q e r n) ∧
      (((w.after p c o).session q).sendEpoch = (w.session q).sendEpoch →
        (w.session q).pending = none ∨
        ((w.after p c o).session q).pending = (w.session q).pending) := by
    intro q
    by_cases hq : q = p
    · subst hq
      rw [Pair.session_after_self]
      exact ⟨he.epoch_le, he.spent, he.pending⟩
    · rw [Pair.session_after_of_ne hq]
      exact ⟨le_rfl, fun _ _ _ hs => hs, fun _ => .inr rfl⟩
  have hsealed : ∀ q, ∀ r ∈ w.sealed q, r ∈ (w.after p c o).sealed q := by
    intro q r hr
    by_cases hq : q = p
    · subst hq
      simp only [Pair.after, Function.update_self]
      exact List.mem_append_right _ hr
    · simpa [Pair.after, hq] using hr
  have hold : ∀ m ∈ w.net, ∃ e ct, m.bytes = ct.bytes (scheduleOf th xs') e m.sender ∧
      MessageOk xs' (w.after p c o).calls ((w.after p c o).sealed m.sender) m.sender
        ((w.after p c o).session m.sender) m.bytes e ct ∧
      (∀ n, ct.number = some n → (w.session m.sender).Spent m.sender e m.sender n) ∧
      ∀ a, ct.attempt = some a → a < w.calls := by
    intro m hm
    obtain ⟨e, ct, hb, hok⟩ := h.net m hm
    obtain ⟨h1, h2, h3⟩ := hmono m.sender
    refine ⟨e, ct, ?_, hok.mono he.exchanges (Nat.le_succ _) (hsealed _) h1 h2 h3, hok.number,
      hok.attempt⟩
    rw [hb, bytes_schedule he.exchanges (hok.epoch_le.trans (h.epoch_le _))]
  have hnet : ∀ m ∈ (w.after p c o).net, m ∈ w.net ∨
      ∃ b ∈ o.records ++ o.chunks, m = ⟨p, b⟩ := by
    intro m hm
    rcases List.mem_append.1 hm with hm | hm
    · exact .inl hm
    · obtain ⟨b, hb, rfl⟩ := List.mem_map.1 hm
      exact .inr ⟨b, hb, rfl⟩
  -- a new message is not sealed under the key and nonce of an old one
  have hfresh : ∀ m ∈ w.net, ∀ b ∈ o.records ++ o.chunks, ∀ key nonce t t',
      Seals m.bytes key nonce t → Seals b key nonce t' → False := by
    intro m hm b hb key nonce t t' hk hk'
    obtain ⟨e, ct, hbytes, -, hnum, hatt⟩ := hold m hm
    obtain ⟨e', ct', rfl, -, hnum', hatt'⟩ := he.net b hb
    rw [hbytes] at hk
    rcases Content.eq_of_seals hk hk' with ⟨n, hn, hn', rfl, rfl⟩ | ⟨a, ha, ha'⟩
    · exact hnum' n hn' (hnum n hn)
    · have h1 := hatt a ha
      have h2 := hatt' a ha'
      omega
  refine ⟨fun q => ?_, he.lag, fun m hm => ?_, fun m hm m' hm' key nonce t t' hk hk' => ?_,
    fun q r hr => ?_, fun q => ?_, fun q r hr => ?_, fun q => ?_⟩
  · by_cases hq : q = p
    · subst hq
      rw [Pair.session_after_self]
      exact he.session
    · rw [Pair.session_after_of_ne hq]
      rcases he.exchanges with rfl | ⟨x, rfl⟩
      · exact h.session q
      · rw [scheduleOf_concat]
        exact (h.session q).push
  · rcases hnet m hm with hm | ⟨b, hb, rfl⟩
    · obtain ⟨e, ct, hb, hok, -⟩ := hold m hm
      exact ⟨e, ct, hb, hok⟩
    · obtain ⟨e, ct, hbytes, hok, -⟩ := he.net b hb
      refine ⟨e, ct, hbytes, ?_⟩
      simpa [Pair.after] using hok
  · rcases hnet m hm with hm | ⟨b, hb, rfl⟩ <;> rcases hnet m' hm' with hm' | ⟨b', hb', rfl⟩
    · exact h.once m hm m' hm' key nonce t t' hk hk'
    · exact (hfresh m hm b' hb' key nonce t t' hk hk').elim
    · exact (hfresh m' hm' b hb key nonce t' t hk' hk).elim
    · exact he.once b hb b' hb' key nonce t t' hk hk'
  · have hcarry : ∀ r ∈ w.sealed q, ∃ e n t,
        r.1 = recordBytes (scheduleOf th xs') e q n t ∧
        ((w.after p c o).session q).Spent q e q n := by
      intro r hr
      obtain ⟨e, n, t, hb, hs⟩ := h.sealed q r hr
      exact ⟨e, n, t, by rw [hb, recordBytes_schedule he.exchanges
        (hs.epoch_le.trans (h.epoch_le q))], (hmono q).2.1 _ _ _ hs⟩
    by_cases hq : q = p
    · subst hq
      simp only [Pair.after, Function.update_self] at hr
      rcases List.mem_append.1 hr with hr | hr
      · obtain ⟨e, n, t, hb, hs, -⟩ := he.sealed r hr
        rw [Pair.session_after_self]
        exact ⟨e, n, t, hb, hs⟩
      · exact hcarry r hr
    · exact hcarry r (by simpa [Pair.after, hq] using hr)
  · by_cases hq : q = p
    · subst hq
      simp only [Pair.after, Function.update_self]
      refine List.nodup_append.2 ⟨he.sealed_nodup, h.sealed_nodup q, fun r hr r' hr' heq => ?_⟩
      subst heq
      obtain ⟨e, n, t, hb, -, hns⟩ := he.sealed r hr
      obtain ⟨e', n', t', hb', hs⟩ := h.sealed q r hr'
      rw [← recordBytes_schedule he.exchanges (hs.epoch_le.trans (h.epoch_le q)), hb] at hb'
      obtain ⟨rfl, -, rfl⟩ := recordBytes_inj hb'
      exact hns hs
    · simpa [Pair.after, hq] using h.sealed_nodup q
  · have hcarry : ∀ r ∈ w.delivered q, r ∈ (w.after p c o).sealed q.peer ∧ ∃ e n t,
        r.1 = recordBytes (scheduleOf th xs') e q.peer n t ∧
        ((w.after p c o).session q).Spent q e q.peer n := by
      intro r hr
      obtain ⟨hin, e, n, t, hb, hs⟩ := h.delivered q r hr
      exact ⟨hsealed _ r hin, e, n, t, by rw [hb, recordBytes_schedule he.exchanges
        (hs.epoch_le.trans (h.epoch_le q))], (hmono q).2.1 _ _ _ hs⟩
    by_cases hq : q = p
    · subst hq
      simp only [Pair.after, Function.update_self] at hr
      rcases List.mem_append.1 hr with hr | hr
      · obtain ⟨hin, e, n, t, hb, hs, -⟩ := he.delivered r hr
        rw [Pair.session_after_self]
        exact ⟨hsealed _ r hin, e, n, t, hb, hs⟩
      · exact hcarry r hr
    · exact hcarry r (by simpa [Pair.after, hq] using hr)
  · by_cases hq : q = p
    · subst hq
      simp only [Pair.after, Function.update_self, List.map_append]
      refine List.nodup_append.2 ⟨?_, h.delivered_nodup q, fun b hb b' hb' heq => ?_⟩
      · cases c <;> simp only [Call.deliveredBy, List.map_nil, List.nodup_nil]
        cases o.delivered <;> simp
      · obtain ⟨r, hr, rfl⟩ := List.mem_map.1 hb
        obtain ⟨r', hr', rfl⟩ := List.mem_map.1 hb'
        obtain ⟨-, e, n, t, hb, -, hns⟩ := he.delivered r hr
        obtain ⟨-, e', n', t', hb', hs⟩ := h.delivered q r' hr'
        rw [← recordBytes_schedule he.exchanges (hs.epoch_le.trans (h.epoch_le q)), ← heq, hb] at hb'
        obtain ⟨rfl, -, rfl⟩ := recordBytes_inj hb'
        exact hns hs
    · simpa [Pair.after, hq] using h.delivered_nodup q

end Effect

end Ratchet

end NovaChannel
