import NovaChannel.Ratchet.Joint
import Mathlib.Data.List.Nodup
import Mathlib.Data.List.Perm.Subperm

/-!
# The two sessions of a handshake are safe

Every call of either side has an allowed `Effect`, so `Pair.Inv` holds in every run
(`Pair.Inv.run`).  `Pair.Safe` is what it says about the two sessions: their epochs and keys stay
together, no key and nonce seal two plaintexts, and what is delivered was sealed, once
(`pair_safe`).
-/

namespace NovaChannel

namespace Ratchet

open Crypto Kex RatchetedSession

section Effect

variable {th : Bytes} {xs xs' : List Exchange} {w : Pair} {p : Party} {c : Call} {o : Outcome}

/-! ### Who is behind -/

theorem Party.eq_or_eq_peer (p q : Party) : q = p ∨ q = p.peer := by
  cases p <;> cases q <;> simp [Party.peer]

theorem Pair.session_after_peer : (w.after p c o).session p.peer = w.session p.peer :=
  Pair.session_after_of_ne p.peer_ne

/-- A session that stays in its epoch keeps waiting. -/
theorem Pair.Inv.lag_same (h : w.Inv th xs)
    (hepoch : o.session.sendEpoch = (w.session p).sendEpoch)
    (hpend : (w.session p).pending = none ∨ o.session.pending = (w.session p).pending)
    (q : Party) (x : Exchange) (hx : xs[((w.after p c o).session q).sendEpoch]? = some x) :
    x.initiator = q ∧ ((w.after p c o).session q).pending = some (kexOf x.k) ∧
    xs.length = ((w.after p c o).session q).sendEpoch + 1 ∧
    ((w.after p c o).session q.peer).sendEpoch = xs.length := by
  rcases Party.eq_or_eq_peer p q with rfl | rfl
  · rw [Pair.session_after_self] at hx ⊢
    rw [hepoch] at hx ⊢
    rw [Pair.session_after_peer]
    obtain ⟨h1, h2, h3, h4⟩ := h.lag q x hx
    refine ⟨h1, ?_, h3, h4⟩
    rcases hpend with hnone | hsame
    · rw [hnone] at h2
      cases h2
    · rw [hsame, h2]
  · rw [Pair.session_after_peer] at hx ⊢
    rw [Party.peer_peer, Pair.session_after_self, hepoch]
    have hlag := h.lag p.peer x hx
    rwa [Party.peer_peer] at hlag

/-- A session that enters the newest epoch is not behind, and neither is its peer. -/
theorem lag_finish (ho : o.session.sendEpoch = xs.length)
    (hpeer : (w.session p.peer).sendEpoch = xs.length) (q : Party) (x : Exchange)
    (hx : xs[((w.after p c o).session q).sendEpoch]? = some x) :
    x.initiator = q ∧ ((w.after p c o).session q).pending = some (kexOf x.k) ∧
    xs.length = ((w.after p c o).session q).sendEpoch + 1 ∧
    ((w.after p c o).session q.peer).sendEpoch = xs.length := by
  have hlt := (List.getElem?_eq_some_iff.1 hx).choose
  rcases Party.eq_or_eq_peer p q with rfl | rfl
  · rw [Pair.session_after_self] at hlt
    omega
  · rw [Pair.session_after_peer] at hlt
    omega

/-- A session that answers a step leaves its peer one epoch behind, waiting for the answer. -/
theorem lag_answer {k k' : ℕ} (ho : o.session.sendEpoch = xs.length + 1)
    (hpeer : (w.session p.peer).sendEpoch = xs.length)
    (hpend : (w.session p.peer).pending = some (kexOf k)) (q : Party) (x : Exchange)
    (hx : (xs ++ [(⟨p.peer, k, k'⟩ : Exchange)])[((w.after p c o).session q).sendEpoch]? =
      some x) :
    x.initiator = q ∧ ((w.after p c o).session q).pending = some (kexOf x.k) ∧
    (xs ++ [(⟨p.peer, k, k'⟩ : Exchange)]).length =
      ((w.after p c o).session q).sendEpoch + 1 ∧
    ((w.after p c o).session q.peer).sendEpoch =
      (xs ++ [(⟨p.peer, k, k'⟩ : Exchange)]).length := by
  rw [List.length_append, List.length_singleton]
  rcases Party.eq_or_eq_peer p q with rfl | rfl
  · have hlt := (List.getElem?_eq_some_iff.1 hx).choose
    rw [Pair.session_after_self, List.length_append, List.length_singleton] at hlt
    omega
  · rw [Pair.session_after_peer, hpeer] at hx
    obtain rfl := Option.some.inj (List.getElem?_concat_length.symm.trans hx)
    rw [Pair.session_after_peer, Party.peer_peer, Pair.session_after_self]
    exact ⟨rfl, hpend, by omega, ho⟩

/-! ### Entering an epoch -/

/-- The step of an exchange is in its place in the schedule. -/
theorem steps_getElem? {e : ℕ} {x : Exchange} (h : xs[e]? = some x) :
    (scheduleOf th xs).steps[e]? = some x.toStep := by
  rw [scheduleOf, List.getElem?_map, h, Option.map_some]

/-- An idle session is in the newest epoch. -/
theorem Pair.Inv.newest_of_idle (h : w.Inv th xs) (hidle : (w.session p).pending = none) :
    xs.length = (w.session p).sendEpoch := by
  have hle := h.epoch_le p
  rcases hle.lt_or_eq with hlt | heq
  · -- one behind, it would be waiting
    obtain ⟨-, hwait, -⟩ := h.lag p _ (List.getElem?_eq_getElem hlt)
    rw [hidle] at hwait
    cases hwait
  · exact heq.symm

/-- A step 1 of an idle session's epoch is the peer's, who waits for the answer. -/
theorem Pair.Inv.peer_waits (h : w.Inv th xs) {q : Party} {bytes : Bytes} {ct : Content} {k : ℕ}
    (hidle : (w.session p).pending = none)
    (hok : MessageOk xs w.calls (w.sealed q) q (w.session q) bytes (w.session p).sendEpoch ct)
    (hk : ct.initiates = some k) :
    q = p.peer ∧ xs.length = (w.session p).sendEpoch ∧
      (w.session p.peer).sendEpoch = xs.length ∧
      (w.session p.peer).pending = some (kexOf k) := by
  have hlen := h.newest_of_idle hidle
  rcases Party.eq_or_eq_peer p q with rfl | rfl
  · have hwait := hok.initiates k hk rfl
    rw [hidle] at hwait
    cases hwait
  · have hle := h.epoch_le p.peer
    have hle' := hok.epoch_le
    exact ⟨rfl, hlen, by omega, hok.initiates k hk (by omega)⟩

/-- A step 2 of a session's epoch is the peer's answer, and the session waits for it. -/
theorem Pair.Inv.waits (h : w.Inv th xs) {q : Party} {bytes : Bytes} {ct : Content} {k k' : ℕ}
    (hok : MessageOk xs w.calls (w.sealed q) q (w.session q) bytes (w.session p).sendEpoch ct)
    (hk : ct.answers = some (k, k')) :
    q = p.peer ∧ xs[(w.session p).sendEpoch]? = some ⟨p, k, k'⟩ ∧
      (w.session p).pending = some (kexOf k) := by
  obtain ⟨hlt, hx⟩ := hok.answers k k' hk
  rcases Party.eq_or_eq_peer p q with rfl | rfl
  · exact absurd hlt (lt_irrefl _)
  · rw [Party.peer_peer] at hx
    obtain ⟨-, hwait, -⟩ := h.lag p _ hx
    exact ⟨rfl, hx, hwait⟩

/-- A session answers the step its peer waits for. -/
theorem Pair.Inv.answer (h : w.Inv th xs) {s : RatchetedSession Bytes} {k : ℕ}
    {a b : Option Bytes} (hs : SessionOk (scheduleOf th xs) p s)
    (hepoch : s.sendEpoch = (w.session p).sendEpoch) (hidle : s.pending = none)
    (hspent : ∀ e q n, (w.session p).Spent p e q n → s.Spent p e q n)
    (hlen : xs.length = (w.session p).sendEpoch)
    (hpeer : (w.session p.peer).sendEpoch = xs.length)
    (hwait : (w.session p.peer).pending = some (kexOf k))
    (ho : o.session = (s.advanced s.sendEpoch
      (deriveNextEpoch s.rootKey (exchange k w.calls).sharedSecret false)).completed a b)
    (hnet : ∀ m ∈ o.records ++ o.chunks, ∃ ct : Content,
      m = ct.bytes (scheduleOf th xs) (w.session p).sendEpoch p ∧
      ct.answers = some (k, w.calls) ∧ ct.initiates = none ∧ ct.plaintext = none ∧
      (∀ n, ct.number = some n → s.Spent p (w.session p).sendEpoch p n ∧
        ¬ (w.session p).Spent p (w.session p).sendEpoch p n) ∧
      ∀ a, ct.attempt = some a → a = w.calls)
    (honce : ∀ b ∈ o.records ++ o.chunks, ∀ b' ∈ o.records ++ o.chunks, ∀ key nonce t t',
      Seals b key nonce t → Seals b' key nonce t' → b = b')
    (hseal : c.sealedBy o = []) (hdeliver : c.deliveredBy o = []) :
    Effect th xs (xs ++ [⟨p.peer, k, w.calls⟩]) w p c o := by
  have hx : (xs ++ [(⟨p.peer, k, w.calls⟩ : Exchange)])[s.sendEpoch]? =
      some ⟨p.peer, k, w.calls⟩ := by
    rw [hepoch, ← hlen, List.getElem?_concat_length]
  have hos : o.session.sendEpoch = (w.session p).sendEpoch + 1 := by
    rw [ho, ← hepoch]
    rfl
  have hos' : ∀ e q n, s.Spent p e q n → o.session.Spent p e q n := by
    intro e q n hn
    rw [ho]
    exact hn.advanced.completed
  refine ⟨.inr ⟨_, rfl⟩, ?_, by omega, fun e q n hn => hos' e q n (hspent e q n hn),
    fun he => by omega, lag_answer (by omega) hpeer hwait, fun m hm => ?_, honce,
    fun r hr => ?_, by rw [hseal]; exact List.nodup_nil, fun r hr => ?_⟩
  · have hpush : SessionOk (scheduleOf th (xs ++ [⟨p.peer, k, w.calls⟩])) p s := by
      rw [scheduleOf_concat]
      exact hs.push
    have hadv := hpush.advanced hidle (steps_getElem? hx)
    rw [Exchange.toStep, decide_eq_false p.peer_ne] at hadv
    rw [ho]
    exact hadv.completed a b
  · obtain ⟨ct, rfl, hans, hini, hplain, hnum, hatt⟩ := hnet m hm
    refine ⟨(w.session p).sendEpoch, ct, (bytes_schedule (.inr ⟨_, rfl⟩) (h.epoch_le p)).symm,
      ⟨by omega, fun n hn => hos' _ _ _ (hnum n hn).1, fun k' hk' => ?_, fun k₁ k₂ hk => ?_,
        fun a ha => ?_, fun t ht => ?_⟩, fun n hn => (hnum n hn).2, hatt⟩
    · rw [hini] at hk'
      cases hk'
    · obtain ⟨rfl, rfl⟩ := Prod.mk.inj (Option.some.inj (hans.symm.trans hk))
      exact ⟨by omega, by rw [← hepoch, hx]⟩
    · rw [hatt a ha]
      exact Nat.lt_succ_self _
    · rw [hplain] at ht
      cases ht
  · rw [hseal] at hr
    cases hr
  · rw [hdeliver] at hr
    cases hr

/-- A session enters the epoch its peer answered it into. -/
theorem Pair.Inv.finish (h : w.Inv th xs) {s : RatchetedSession Bytes} {k k' : ℕ}
    {a b : Option Bytes} (hs : SessionOk (scheduleOf th xs) p s)
    (hepoch : s.sendEpoch = (w.session p).sendEpoch)
    (hspent : ∀ e q n, (w.session p).Spent p e q n → s.Spent p e q n)
    (hx : xs[(w.session p).sendEpoch]? = some ⟨p, k, k'⟩)
    (ho : o = ⟨(s.usedUp.advanced s.sendEpoch
      (deriveNextEpoch s.rootKey (exchange k k').sharedSecret true)).completed a b, [], [], none,
      true⟩) :
    Effect th xs xs w p c o := by
  obtain ⟨-, -, hlen, hpeer⟩ := h.lag p _ hx
  have hos : o.session.sendEpoch = (w.session p).sendEpoch + 1 := by
    rw [ho, ← hepoch]
    rfl
  have hseal : c.sealedBy o = [] := by
    rw [ho]
    cases c <;> rfl
  have hdeliver : c.deliveredBy o = [] := by
    rw [ho]
    cases c <;> rfl
  refine ⟨.inl rfl, ?_, by omega, fun e q n hn => ?_, fun he => by omega,
    lag_finish (by omega) hpeer, fun m hm => ?_, fun m hm => ?_, fun r hr => ?_,
    by rw [hseal]; exact List.nodup_nil, fun r hr => ?_⟩
  · have hadv := (hs.usedUp).advanced rfl (steps_getElem? (hepoch ▸ hx))
    rw [Exchange.toStep, decide_eq_true rfl] at hadv
    rw [ho]
    exact hadv.completed a b
  · rw [ho]
    exact (hspent e q n hn).usedUp.advanced.completed
  · rw [ho] at hm
    cases hm
  · rw [ho] at hm
    cases hm
  · rw [hseal] at hr
    cases hr
  · rw [hdeliver] at hr
    cases hr

/-! ### The effect of each call -/

theorem recordOf_eq {S : Schedule} {s : RatchetedSession Bytes} (h : SessionOk S p s)
    (payload : Bytes) : s.recordOf payload = recordBytes S s.sendEpoch p s.sendSeq payload := by
  rw [recordOf, h.send]
  rfl

theorem not_spent_sendSeq {s : RatchetedSession Bytes} : ¬ s.Spent p s.sendEpoch p s.sendSeq :=
  fun h => absurd (h.send rfl rfl) (lt_irrefl _)

/-- A call that sends nothing and stays in its epoch. -/
theorem Pair.Inv.silent (h : w.Inv th xs) (hs : SessionOk (scheduleOf th xs) p o.session)
    (hepoch : o.session.sendEpoch = (w.session p).sendEpoch)
    (hspent : ∀ e q n, (w.session p).Spent p e q n → o.session.Spent p e q n)
    (hpend : (w.session p).pending = none ∨ o.session.pending = (w.session p).pending)
    (hrec : o.records = []) (hch : o.chunks = [])
    (hdeliver : ∀ r ∈ c.deliveredBy o, r ∈ w.sealed p.peer ∧ ∃ e n t,
      r.1 = recordBytes (scheduleOf th xs) e p.peer n t ∧
      o.session.Spent p e p.peer n ∧ ¬ (w.session p).Spent p e p.peer n) :
    Effect th xs xs w p c o := by
  have hseal : c.sealedBy o = [] := by cases c <;> simp [Call.sealedBy, hrec]
  refine ⟨.inl rfl, hs, hepoch.ge, hspent, fun _ => hpend, h.lag_same hepoch hpend, ?_, ?_, ?_, ?_,
    hdeliver⟩
  · intro b hb
    rw [hrec, hch] at hb
    cases hb
  · intro b hb
    rw [hrec, hch] at hb
    cases hb
  · intro r hr
    rw [hseal] at hr
    cases hr
  · rw [hseal]
    exact List.nodup_nil

/-- A call that hands nothing out and stays in its epoch. -/
theorem Pair.Inv.quiet (h : w.Inv th xs) (hs : SessionOk (scheduleOf th xs) p o.session)
    (hepoch : o.session.sendEpoch = (w.session p).sendEpoch)
    (hspent : ∀ e q n, (w.session p).Spent p e q n → o.session.Spent p e q n)
    (hpend : (w.session p).pending = none ∨ o.session.pending = (w.session p).pending)
    (hrec : o.records = []) (hch : o.chunks = []) (hdel : o.delivered = none) :
    Effect th xs xs w p c o := by
  refine h.silent hs hepoch hspent hpend hrec hch fun r hr => ?_
  have hdeliver : c.deliveredBy o = [] := by cases c <;> simp [Call.deliveredBy, hdel]
  rw [hdeliver] at hr
  cases hr

/-- A call that did nothing. -/
theorem Pair.Inv.nothing (h : w.Inv th xs) : Effect th xs xs w p c (.nothing (w.session p)) :=
  h.quiet (h.session p) rfl (fun _ _ _ hs => hs) (.inr rfl) rfl rfl rfl

/-- One message is sealed once. -/
theorem once_singleton {b : Bytes} : ∀ b₁ ∈ [b], ∀ b₂ ∈ [b], ∀ key nonce t t',
    Seals b₁ key nonce t → Seals b₂ key nonce t' → b₁ = b₂ := by
  intro b₁ h₁ b₂ h₂ _ _ _ _ _ _
  rw [List.mem_singleton.1 h₁, List.mem_singleton.1 h₂]

variable [ReedSolomon Bytes]

theorem effect_sealRecord (h : w.Inv th xs) {plaintext : Bytes}
    (hc : (w.session p).perform w.calls (.sealRecord plaintext) = some o) :
    Effect th xs xs w p (.sealRecord plaintext) o := by
  rcases perform_sealRecord hc with rfl | ⟨s', record, hs, rfl⟩
  · exact h.nothing
  · obtain ⟨-, rfl, rfl⟩ := sealPayload_eq_ok hs
    have hrec := recordOf_eq (h.session p) (typed msgApplication plaintext)
    refine ⟨.inl rfl, (h.session p).sealedOne, le_rfl, fun _ _ _ hs => hs.sealedOne,
      fun _ => .inr rfl, h.lag_same rfl (.inr rfl), fun b hb => ?_, once_singleton, fun r hr => ?_,
      List.nodup_cons.2 ⟨by simp, List.nodup_nil⟩, fun r hr => (by cases hr)⟩
    · obtain rfl := List.mem_singleton.1 hb
      refine ⟨(w.session p).sendEpoch, .application (w.session p).sendSeq plaintext, hrec,
        ⟨le_rfl, fun n hn => ?_, fun k hk _ => (by cases hk), fun k k' hk => (by cases hk),
          fun a ha => (by cases ha), fun t ht => ?_⟩, fun n hn => ?_, fun a ha => (by cases ha)⟩
      · obtain rfl := Option.some.inj hn
        exact spent_sealedOne
      · obtain rfl := Option.some.inj ht
        exact List.mem_cons_self
      · obtain rfl := Option.some.inj hn
        exact not_spent_sendSeq
    · obtain rfl := List.mem_singleton.1 hr
      exact ⟨_, _, _, hrec, spent_sealedOne, not_spent_sendSeq⟩

theorem effect_initiateRatchet (h : w.Inv th xs)
    (hc : (w.session p).perform w.calls .initiateRatchet = some o) :
    Effect th xs xs w p .initiateRatchet o := by
  rcases perform_initiateRatchet hc with rfl | ⟨s', record, hs, rfl⟩
  · exact h.nothing
  · obtain ⟨hpend, -, rfl, rfl⟩ := initiateRatchet_eq_ok hs
    have hrec := recordOf_eq (h.session p) (typed msgRatchetStep1 (step1Payload (kexOf w.calls)))
    refine ⟨.inl rfl, (h.session p).sealedOne.awaiting w.calls, le_rfl,
      fun _ _ _ hs => hs.sealedOne.awaiting, fun _ => .inl hpend, h.lag_same rfl (.inl hpend),
      fun b hb => ?_, once_singleton, fun r hr => (by cases hr), List.nodup_nil,
      fun r hr => (by cases hr)⟩
    obtain rfl := List.mem_singleton.1 hb
    refine ⟨(w.session p).sendEpoch, .step1 (w.session p).sendSeq w.calls, hrec,
      ⟨le_rfl, fun n hn => ?_, fun k hk _ => ?_, fun k k' hk => (by cases hk),
        fun a ha => (by cases ha), fun t ht => (by cases ht)⟩, fun n hn => ?_,
      fun a ha => (by cases ha)⟩
    · obtain rfl := Option.some.inj hn
      exact spent_sealedOne.awaiting
    · obtain rfl := Option.some.inj hk
      rfl
    · obtain rfl := Option.some.inj hn
      exact not_spent_sendSeq

/-- The chunks of one attempt: each has its own nonce. -/
theorem chunks_of_build {S : Schedule} {e msgType a d m : ℕ} {label payload : Bytes}
    {records : List Bytes}
    (h : buildChunkRecords msgType (deriveChunkKey (S.rootAt e) (.name (.attemptNonce a)) label)
      (.name (.attemptNonce a)) payload d m = .ok records) :
    (∀ b ∈ records, ∃ i shard, b = chunkBytes S e label msgType a i d m payload shard) ∧
    ∀ b ∈ records, ∀ b' ∈ records, ∀ key nonce t t', Seals b key nonce t →
      Seals b' key nonce t' → b = b' := by
  obtain ⟨shards, -, rfl⟩ := buildChunkRecords_eq_ok h
  refine ⟨fun b hb => ?_, fun b hb b' hb' key nonce t t' hk hk' => ?_⟩
  · obtain ⟨⟨shard, i⟩, -, rfl⟩ := List.mem_map.1 hb
    exact ⟨i, shard, rfl⟩
  · obtain ⟨⟨shard, i⟩, hi, rfl⟩ := List.mem_map.1 hb
    obtain ⟨⟨shard', i'⟩, hi', rfl⟩ := List.mem_map.1 hb'
    obtain ⟨-, rfl, -⟩ := seals_chunk.1 hk
    obtain ⟨-, hn, -⟩ := seals_chunk.1 hk'
    obtain rfl := Term.num.inj hn
    rw [List.mk_mem_zipIdx_iff_getElem?] at hi hi'
    obtain rfl := Option.some.inj (hi.symm.trans hi')
    rfl

theorem effect_initiateIncrementalRatchet (h : w.Inv th xs) {d n : ℕ}
    (hc : (w.session p).perform w.calls (.initiateIncrementalRatchet d n) = some o) :
    Effect th xs xs w p (.initiateIncrementalRatchet d n) o := by
  rcases perform_initiateIncrementalRatchet hc with rfl | ⟨s', records, hs, rfl⟩
  · exact h.nothing
  · obtain ⟨hpend, rfl, hb⟩ := initiateIncrementalRatchet_eq_ok hs
    rw [(h.session p).root] at hb
    obtain ⟨hbytes, honce⟩ := chunks_of_build hb
    refine ⟨.inl rfl, (h.session p).awaiting w.calls, le_rfl, fun _ _ _ hs => hs.awaiting,
      fun _ => .inl hpend, h.lag_same rfl (.inl hpend), fun b hb => ?_, honce,
      fun r hr => (by cases hr), List.nodup_nil, fun r hr => (by cases hr)⟩
    obtain ⟨i, shard, rfl⟩ := hbytes b hb
    refine ⟨(w.session p).sendEpoch, .chunk1 w.calls i d n shard, rfl,
      ⟨le_rfl, fun n hn => (by cases hn), fun k hk _ => ?_, fun k k' hk => (by cases hk),
        fun a ha => ?_, fun t ht => (by cases ht)⟩, fun n hn => (by cases hn), fun a ha => ?_⟩
    · obtain rfl := Option.some.inj hk
      rfl
    · obtain rfl := Option.some.inj ha
      exact Nat.lt_succ_self _
    · exact (Option.some.inj ha).symm

/-! ### Opening -/

omit [ReedSolomon Bytes] in
theorem readNum_num {width n m : ℕ} (h : readNum width (num n : Bytes) = some m) : m = n :=
  (Option.some.inj (Option.filter_eq_some_iff.1 h).1).symm

omit [ReedSolomon Bytes] in
theorem hasType_typed {t t' : ℕ} {body body' : Bytes} (h : HasType (typed t body) t' body') :
    t' = t ∧ body' = body := by
  obtain ⟨tag, hu, ht⟩ := h
  rw [typed, LawfulCrypto.unframe_frame] at hu
  obtain ⟨rfl, hbody⟩ := List.cons.inj (Option.some.inj hu)
  exact ⟨readNum_num ht, (List.cons.inj hbody).1.symm⟩

omit [ReedSolomon Bytes] in
/-- A record of the network that opens was sealed by the peer, in its place. -/
theorem Pair.Inv.record_opened (h : w.Inv th xs) {m : Message} (hm : m ∈ w.net) {e n : ℕ}
    {aad ct t : Bytes} (hread : readRecord m.bytes = some (e, n, aad, ct))
    (hopen : aeadDecrypt ((scheduleOf th xs).keyAt e p.peer n) zeroNonce aad ct = some t) :
    ∃ c, m.bytes = recordBytes (scheduleOf th xs) e p.peer n c.payload ∧
      MessageOk xs w.calls (w.sealed p.peer) p.peer (w.session p.peer) m.bytes e c ∧
      c.number = some n ∧ c.payload = t := by
  obtain ⟨e', c, hbytes, hok⟩ := h.net m hm
  have hseals : Seals (c.bytes (scheduleOf th xs) e' m.sender)
      ((scheduleOf th xs).keyAt e p.peer n) zeroNonce t := by
    refine ⟨aad, ?_⟩
    rw [← hbytes, (readRecord_eq_some hread).1, Term.aeadOpen_eq_some.1 hopen]
    rfl
  obtain ⟨rfl, hsender, hnum, hpay, hrec⟩ := Content.of_seals_keyAt hseals
  rw [hsender] at hok hbytes
  have hrec' : c.bytes (scheduleOf th xs) e' p.peer =
      recordBytes (scheduleOf th xs) e' p.peer n c.payload := by
    rw [← hsender, hrec]
  exact ⟨c, hbytes.trans hrec', hok, hnum, hpay⟩

omit [ReedSolomon Bytes] in
theorem Content.eq_application {c : Content} {n : ℕ} {body : Bytes} (hn : c.number = some n)
    (ht : HasType c.payload msgApplication body) : c = .application n body := by
  cases c with
  | application =>
    obtain rfl := Option.some.inj hn
    obtain ⟨-, rfl⟩ := hasType_typed ht
    rfl
  | step1 => cases (hasType_typed ht).1
  | step2 => cases (hasType_typed ht).1
  | chunk1 => cases hn
  | chunk2 => cases hn

omit [ReedSolomon Bytes] in
theorem Content.eq_step1 {c : Content} {n : ℕ} {body : Bytes} (hn : c.number = some n)
    (ht : HasType c.payload msgRatchetStep1 body) :
    ∃ k, c = .step1 n k ∧ body = step1Payload (kexOf k) := by
  cases c with
  | application => cases (hasType_typed ht).1
  | step1 n' k =>
    obtain rfl := Option.some.inj hn
    exact ⟨k, rfl, (hasType_typed ht).2⟩
  | step2 => cases (hasType_typed ht).1
  | chunk1 => cases hn
  | chunk2 => cases hn

omit [ReedSolomon Bytes] in
theorem Content.eq_step2 {c : Content} {n : ℕ} {body : Bytes} (hn : c.number = some n)
    (ht : HasType c.payload msgRatchetStep2 body) :
    ∃ k k', c = .step2 n k k' ∧ body = step2Payload (exchange k k') := by
  cases c with
  | application => cases (hasType_typed ht).1
  | step1 => cases (hasType_typed ht).1
  | step2 n' k k' =>
    obtain rfl := Option.some.inj hn
    exact ⟨k, k', rfl, (hasType_typed ht).2⟩
  | chunk1 => cases hn
  | chunk2 => cases hn

omit [ReedSolomon Bytes] in
/-- A step 1 of the peer is answered: the peer waits for it, and both are in the newest epoch. -/
theorem Pair.Inv.effect_step1 (h : w.Inv th xs) {s s' : RatchetedSession Bytes}
    {bytes record reply : Bytes} {e n k : ℕ} (hs : SessionOk (scheduleOf th xs) p s)
    (hsame : s.sendEpoch = (w.session p).sendEpoch) (hpend : s.pending = (w.session p).pending)
    (hspent : ∀ e q n, (w.session p).Spent p e q n → s.Spent p e q n)
    (hseq : s.sendSeq = (w.session p).sendSeq)
    (hmsg : MessageOk xs w.calls (w.sealed p.peer) p.peer (w.session p.peer) bytes e (.step1 n k))
    (h1 : s.handleStep1 (responderCoins w.calls) e (step1Payload (kexOf k)) = (s', .ok reply)) :
    Effect th xs (xs ++ [⟨p.peer, k, w.calls⟩]) w p (.openRecord record)
      (.ofOpened s' (.ratchetAdvanced (some reply))) := by
  rcases handleStep1_cases h1 with ⟨-, e, he⟩ | hp | ⟨x, y, out, hidle, hep, hu, hout, -, -, rfl,
      hreply⟩
  · cases he
  · cases hp
  · obtain rfl := Except.ok.inj hreply
    rw [step1Payload, LawfulCrypto.unframe_frame] at hu
    obtain ⟨rfl, hy⟩ := List.cons.inj (Option.some.inj hu)
    obtain rfl := (List.cons.inj hy).1
    obtain rfl := Except.ok.inj ((responderExchange_kexOf k w.calls).symm.trans hout)
    rw [hpend] at hidle
    obtain ⟨-, hlen, hpeer, hwait⟩ := h.peer_waits hidle ((hep.trans hsame) ▸ hmsg) rfl
    have hrecord := recordOf_eq hs (typed msgRatchetStep2 (step2Payload (exchange k w.calls)))
    have hfresh := not_spent_sendSeq (p := p) (s := w.session p)
    rw [← hsame, ← hseq] at hfresh
    refine h.answer (s := s.sealedOne) (a := s.lastCompletedStep1Attempt)
      (b := s.lastCompletedStep2Attempt) hs.sealedOne hsame
      (hpend.trans hidle) (fun e q n hn => (hspent e q n hn).sealedOne) hlen hpeer hwait
      (by rw [hep]; rfl) (fun b hb => ?_) once_singleton rfl rfl
    obtain rfl := List.mem_singleton.1 hb
    refine ⟨.step2 s.sendSeq k w.calls, hsame ▸ hrecord, rfl, rfl, rfl, fun n hn => ?_,
      fun a ha => by cases ha⟩
    obtain rfl := Option.some.inj hn
    exact ⟨hsame ▸ spent_sealedOne, hsame ▸ hfresh⟩

omit [ReedSolomon Bytes] in
theorem read_step2Payload (k k' : ℕ) {trailing : String} :
    readExchange mlKemCiphertextFromBytes trailing (step2Payload (exchange k k')) =
      .ok ((exchange k k').x25519Public, (exchange k k').mlKemCiphertext) := by
  have hlen : ByteString.isMlKemCiphertext (exchange k k').mlKemCiphertext = true := by
    show decide (Term.len (.fn .kemCiphertext (.name (Name.mlKem k))
        (.name (Name.kemRandom k'))) =
      1568) = true
    simp [Term.len, Term.fnLen]
  simp [readExchange, step2Payload, LawfulCrypto.unframe_frame, mlKemCiphertextFromBytes, hlen]

omit [ReedSolomon Bytes] in
/-- An answer of the peer finishes the step that waits for it. -/
theorem Pair.Inv.effect_step2 (h : w.Inv th xs) {s s' : RatchetedSession Bytes}
    {bytes record : Bytes} {e n k k' : ℕ} {done : Result Unit}
    (hs : SessionOk (scheduleOf th xs) p s)
    (hsame : s.sendEpoch = (w.session p).sendEpoch) (hpend : s.pending = (w.session p).pending)
    (hspent : ∀ e q n, (w.session p).Spent p e q n → s.Spent p e q n)
    (hmsg : MessageOk xs w.calls (w.sealed p.peer) p.peer (w.session p.peer) bytes e
      (.step2 n k k'))
    (h2 : s.handleStep2 e (step2Payload (exchange k k')) = (s', done)) (hpanic : done ≠ .error .panic) :
    (s' = s ∧ ∃ e, done = .error e) ∨ done = .ok () ∧
    Effect th xs xs w p (.openRecord record) (.ofOpened s' (.ratchetAdvanced none)) := by
  rcases handleStep2_cases h2 with hrefused | hp | ⟨kex, hkex, hep, hcase⟩
  · exact .inl hrefused
  · exact absurd hp hpanic
  · have he := (hs.pending kex hkex).1
    rw [← hep, he, hsame] at hmsg
    obtain ⟨-, hx, hwait⟩ := h.waits hmsg rfl
    rw [← hpend, hkex] at hwait
    obtain rfl := Option.some.inj hwait
    rcases hcase with ⟨-, -, hfail⟩ | ⟨x, ct, ss, hu, hfin, -, rfl, rfl⟩
    · exact absurd (finish_exchange k k') (hfail _ _ _ (read_step2Payload k k'))
    · rw [step2Payload, LawfulCrypto.unframe_frame] at hu
      obtain ⟨rfl, hct⟩ := List.cons.inj (Option.some.inj hu)
      obtain rfl := (List.cons.inj hct).1
      obtain rfl := Except.ok.inj ((finish_exchange k k').symm.trans hfin)
      refine .inr ⟨rfl, h.finish (a := s.lastCompletedStep1Attempt)
        (b := s.lastCompletedStep2Attempt) hs hsame hspent hx ?_⟩
      rw [← hep, he]
      rfl

theorem effect_openRecord (h : w.Inv th xs) {m : Message} (hm : m ∈ w.net)
    (hc : (w.session p).perform w.calls (.openRecord m.bytes) = some o) :
    ∃ xs', Effect th xs xs' w p (.openRecord m.bytes) o := by
  obtain ⟨r, hr, hpanic, ho⟩ := perform_openRecord hc
  rcases openRecord_cases hr with ⟨hs, e, rfl⟩ |
      ⟨slot, recv, seq, aad, ct, recv', opened, hread, hslot, hon, hh⟩
  · obtain ⟨-, ho⟩ | ⟨x, hx, -⟩ := ho
    · rw [ho, hs]
      exact ⟨xs, h.nothing⟩
    · cases hx
  · have hopened : opened ≠ .error .panic := by
      rintro rfl
      exact hpanic (Prod.mk.inj hh).2.symm
    obtain ⟨hok, hepoch, hmono, hrec⟩ := ((h.session p).recv slot recv hslot).openOn hon hopened
    have hset := (h.session p).setRecv hslot hepoch hok
    have hspent : ∀ e q n, (w.session p).Spent p e q n →
        ((w.session p).setRecv recv' slot).Spent p e q n :=
      fun e q n hn => hn.setRecv hslot hepoch hmono
    have hsame : ((w.session p).setRecv recv' slot).sendEpoch = (w.session p).sendEpoch := by
      cases slot <;> rfl
    have hpend : ((w.session p).setRecv recv' slot).pending = (w.session p).pending := by
      cases slot <;> rfl
    -- an error leaves the opened record spent, and nothing else changed
    have refused : o.session = (w.session p).setRecv recv' slot → o = .nothing o.session →
        ∃ xs', Effect th xs xs' w p (.openRecord m.bytes) o := by
      intro hs ho
      refine ⟨xs, h.quiet ?_ ?_ ?_ ?_ ?_ ?_ ?_⟩ <;> rw [ho]
      · exact hs ▸ hset
      · exact hs ▸ hsame
      · exact hs ▸ hspent
      · exact .inr (hs ▸ hpend)
      all_goals rfl
    rcases handleOpened_cases hh with ⟨hs, e, rfl⟩ | rfl | ⟨plaintext, body, rfl, hcase⟩
    · obtain ⟨-, ho⟩ | ⟨x, hx, -⟩ := ho
      · exact refused hs ho
      · cases hx
    · exact absurd rfl hpanic
    · obtain ⟨hdec, hnew, hold⟩ := hrec plaintext rfl
      obtain ⟨c, hbytes, hmsg, hnum, rfl⟩ := h.record_opened hm hread hdec
      have hnow := (h.session p).spent_setRecv hslot hepoch hold
      rcases hcase with ⟨htype, hs, rfl⟩ | ⟨htype, reply, h1, rfl⟩ | ⟨htype, done, h2, hdone⟩
      · -- application data: the peer sealed it, and the record is spent now
        obtain rfl := Content.eq_application hnum htype
        obtain ⟨⟨e, he⟩, -⟩ | ⟨x, hx, ho⟩ := ho
        · cases he
        · obtain rfl := Except.ok.inj hx
          refine ⟨xs, h.silent ?_ ?_ ?_ ?_ ?_ ?_ fun d hd => ?_⟩ <;> rw [ho]
          · exact hs ▸ hset
          · exact hs ▸ hsame
          · exact hs ▸ hspent
          · exact .inr (hs ▸ hpend)
          · rfl
          · rfl
          · rw [ho] at hd
            obtain rfl := List.mem_singleton.1 hd
            exact ⟨hmsg.plaintext _ rfl, recv.epoch, seq, _, hbytes, hs ▸ hnow,
              fun hold => hnew (hold.recv rfl slot recv hslot rfl)⟩
      · obtain ⟨k, rfl, rfl⟩ := Content.eq_step1 hnum htype
        obtain ⟨⟨e, he⟩, -⟩ | ⟨x, hx, ho⟩ := ho
        · cases he
        · obtain rfl := Except.ok.inj hx
          rw [ho]
          exact ⟨_, h.effect_step1 hset hsame hpend hspent (by cases slot <;> rfl) hmsg h1⟩
      · obtain ⟨k, k', rfl, rfl⟩ := Content.eq_step2 hnum htype
        have hdone' : done ≠ .error .panic := by
          rintro rfl
          rcases hdone with ⟨he, -⟩ | ⟨e, he, rfl⟩
          · cases he
          · exact hpanic (congrArg _ (Except.error.inj he).symm)
        rcases h.effect_step2 hset hsame hpend hspent hmsg h2 hdone' with
          ⟨hs, e, rfl⟩ | ⟨rfl, heffect⟩
        · rcases hdone with ⟨he, -⟩ | ⟨e', -, rfl⟩
          · cases he
          · obtain ⟨-, ho⟩ | ⟨x, hx, -⟩ := ho
            · exact refused hs ho
            · cases hx
        · rcases hdone with ⟨hd, rfl⟩ | ⟨e, he, hr'⟩
          · obtain ⟨⟨e, he⟩, -⟩ | ⟨x, hx, ho⟩ := ho
            · cases he
            · obtain rfl := Except.ok.inj hx
              rw [ho]
              exact ⟨xs, heffect⟩
          · cases he

/-! ### Opening a chunk -/

omit [ReedSolomon Bytes] in
/-- A header reads back as it was written. -/
theorem eq_of_read_write {h ch : ChunkHeader Bytes} (hr : ChunkHeader.read h.write = some ch) :
    ch = h := by
  simp only [ChunkHeader.read, ChunkHeader.write, LawfulCrypto.unframe_frame] at hr
  obtain ⟨_, h1, hr⟩ := Option.bind_eq_some_iff.1 hr
  obtain ⟨_, h2, hr⟩ := Option.bind_eq_some_iff.1 hr
  obtain ⟨_, h3, hr⟩ := Option.bind_eq_some_iff.1 hr
  obtain ⟨_, h4, hr⟩ := Option.bind_eq_some_iff.1 hr
  obtain ⟨_, h5, hr⟩ := Option.bind_eq_some_iff.1 hr
  rw [← Option.some.inj hr, readNum_num h1, readNum_num h2, readNum_num h3, readNum_num h4,
    readNum_num h5]

omit [ReedSolomon Bytes] in
theorem truncatedChecksum_inj {a b : Bytes} (h : truncatedChecksum a = truncatedChecksum b) :
    a = b := (Term.fn.inj (Term.fn.inj h).2.1).2.1

omit [ReedSolomon Bytes] in
/-- A chunk of the network that opens was made in the session's epoch, from the payload of its
checksum. -/
theorem Pair.Inv.chunk_opened (h : w.Inv th xs) {m : Message} (hm : m ∈ w.net)
    {label payload : Bytes} {msgType : ℕ} {ch : ChunkHeader Bytes}
    (hopens : ChunkOpens (w.session p) m.bytes label msgType ch)
    (hsum : truncatedChecksum payload = ch.checksum) :
    ∃ c, MessageOk xs w.calls (w.sealed m.sender) m.sender (w.session m.sender) m.bytes
        (w.session p).sendEpoch c ∧ c.payload = payload ∧
      ((label = labelChunkKeyStep1 ∧ ∃ k, c.initiates = some k ∧ payload = step1Payload (kexOf k)) ∨
        label = labelChunkKeyStep2 ∧ ∃ k k', c.answers = some (k, k') ∧
          payload = step2Payload (exchange k k')) := by
  obtain ⟨header, ct, shard, hu, hread, hopen⟩ := hopens.opens
  obtain ⟨e, c, hbytes, hok⟩ := h.net m hm
  have hframe : m.bytes = frame [header, ct] := Term.eq_list_of_unlist hu
  have hct := Term.aeadOpen_eq_some.1 (openAead_eq_ok.1 hopen)
  have hseals : Seals m.bytes (deriveChunkKey (w.session p).rootKey ch.attemptNonce label)
      (chunkNonce ch.shardIndex) shard := ⟨header, by rw [hframe, hct]; rfl⟩
  rw [(h.session p).root, hbytes] at hseals
  -- the header is the one that was written, so the payload is the one it was written for
  have hpayload : ∀ {l pay sh : Bytes} {ty a i d n : ℕ},
      m.bytes = chunkBytes (scheduleOf th xs) e l ty a i d n pay sh → pay = payload := by
    intro l pay sh ty a i d n hm
    have hheader := (List.cons.inj (Term.list_inj.1 (hframe.symm.trans hm))).1
    rw [hheader] at hread
    rw [eq_of_read_write hread] at hsum
    exact (truncatedChecksum_inj hsum).symm
  cases c with
  | application | step1 | step2 => exact absurd (seals_record.1 hseals).1.symm keyAt_ne_deriveChunkKey
  | chunk1 k i d n sh =>
    obtain ⟨hroot, -, hlabel⟩ := deriveChunkKey_inj (seals_chunk.1 hseals).1
    obtain rfl := Schedule.rootAt_inj hroot
    have hpay := hpayload hbytes
    exact ⟨_, hok, hpay, .inl ⟨hlabel, k, rfl, hpay.symm⟩⟩
  | chunk2 k k' i d n sh =>
    obtain ⟨hroot, -, hlabel⟩ := deriveChunkKey_inj (seals_chunk.1 hseals).1
    obtain rfl := Schedule.rootAt_inj hroot
    have hpay := hpayload hbytes
    exact ⟨_, hok, hpay, .inr ⟨hlabel, k, k', rfl, hpay.symm⟩⟩

theorem effect_openRatchetChunk (h : w.Inv th xs) {m : Message} (hm : m ∈ w.net)
    (hc : (w.session p).perform w.calls (.openRatchetChunk m.bytes) = some o) :
    ∃ xs', Effect th xs xs' w p (.openRatchetChunk m.bytes) o := by
  obtain ⟨r, hr, hpanic, ho⟩ := perform_openRatchetChunk hc
  rcases openRatchetChunk_cases hr with ⟨a, b, hs, hr'⟩ | rfl |
      ⟨ch, a, x, y, out, payload, records, hidle, hopens, hsum, hu, hout, hrec, -, hs, rfl⟩ |
      ⟨ch, a, kex, payload, x, ct, hwait, hopens, hsum, hu, hcase⟩
  · -- filed or refused
    have hsilent : o.records = [] ∧ o.chunks = [] ∧ o.delivered = none := by
      rcases hr' with ⟨e, rfl⟩ | rfl
      · obtain ⟨-, ho⟩ | ⟨x, hx, -⟩ := ho
        · rw [ho]
          exact ⟨rfl, rfl, rfl⟩
        · cases hx
      · obtain ⟨⟨e, he⟩, -⟩ | ⟨x, hx, ho⟩ := ho
        · cases he
        · rw [ho, ← Except.ok.inj hx]
          exact ⟨rfl, rfl, rfl⟩
    refine ⟨xs, h.quiet (hs ▸ (h.session p).withChunks a b) (by rw [hs]; rfl)
      (fun e q n hn => hs ▸ hn.withChunks) (.inr (by rw [hs]; rfl)) hsilent.1 hsilent.2.1
      hsilent.2.2⟩
  · exact absurd rfl hpanic
  · -- the last chunk of the peer's step 1
    obtain ⟨⟨e, he⟩, -⟩ | ⟨x, hx, ho⟩ := ho
    · cases he
    · obtain rfl := Except.ok.inj hx
      obtain ⟨c, hok, -, ⟨-, k, hk, rfl⟩ | ⟨hlabel, -⟩⟩ := h.chunk_opened hm hopens hsum
      · obtain ⟨-, hlen, hpeer, hwait⟩ := h.peer_waits hidle hok hk
        rw [step1Payload, LawfulCrypto.unframe_frame] at hu
        obtain ⟨rfl, hy⟩ := List.cons.inj (Option.some.inj hu)
        obtain rfl := (List.cons.inj hy).1
        obtain rfl := Except.ok.inj ((responderExchange_kexOf k w.calls).symm.trans hout)
        rw [(h.session p).root] at hrec
        obtain ⟨hbytes, honce⟩ := chunks_of_build hrec
        refine ⟨_, h.answer ((h.session p).withChunks a (w.session p).incomingStep2Chunks) rfl
          hidle (fun e q n hn => hn.withChunks) hlen hpeer hwait hs (fun b hb => ?_) ?_ ?_ ?_⟩
        · rw [ho] at hb
          obtain ⟨i, shard, rfl⟩ := hbytes b hb
          refine ⟨.chunk2 k w.calls i ch.dataShards ch.parityShards shard, rfl, rfl, rfl, rfl,
            fun n hn => (by cases hn), fun a ha => (Option.some.inj ha).symm⟩
        · rw [ho]
          exact honce
        · rfl
        · rfl
      · exact absurd hlabel (by decide)
  · -- the last chunk of the peer's step 2
    obtain ⟨c, hok, -, ⟨hlabel, -⟩ | ⟨-, k, k', hk, rfl⟩⟩ := h.chunk_opened hm hopens hsum
    · exact absurd hlabel (by decide)
    · obtain ⟨-, hx, hpending⟩ := h.waits hok hk
      rw [hwait] at hpending
      obtain rfl := Option.some.inj hpending
      rw [step2Payload, LawfulCrypto.unframe_frame] at hu
      obtain ⟨rfl, hct⟩ := List.cons.inj (Option.some.inj hu)
      obtain rfl := (List.cons.inj hct).1
      rcases hcase with ⟨e, hfail, -⟩ | ⟨ss, hfin, -, hs, rfl⟩
      · cases (finish_exchange k k').symm.trans hfail
      · obtain rfl := Except.ok.inj ((finish_exchange k k').symm.trans hfin)
        obtain ⟨⟨e, he⟩, -⟩ | ⟨x, hx', ho⟩ := ho
        · cases he
        · obtain rfl := Except.ok.inj hx'
          refine ⟨xs, h.finish (a := (w.session p).lastCompletedStep1Attempt)
            (b := some ch.attemptNonce)
            ((h.session p).withChunks (w.session p).incomingStep1Chunks a) rfl
            (fun e q n hn => hn.withChunks) hx ?_⟩
          rw [ho, hs]
          rfl

end Effect

/-! ### Safety -/

section Safety

variable {th : Bytes} {xs : List Exchange} {w : Pair}

/-- What holds of two sessions and of what they sent and delivered. -/
structure Pair.Safe (w : Pair) : Prop where
  /-- The epochs differ by at most one. -/
  epoch_le : ∀ p, (w.session p).sendEpoch ≤ (w.session p.peer).sendEpoch + 1
  /-- In one epoch, the root keys are equal. -/
  root : ∀ p, (w.session p).sendEpoch = (w.session p.peer).sendEpoch →
    (w.session p).rootKey = (w.session p.peer).rootKey
  /-- In one epoch, a send chain and the peer's receive chain start from one chain key. -/
  chain : ∀ p, (w.session p).sendEpoch = (w.session p.peer).sendEpoch →
    ∃ c, (w.session p).sendChain = chainFrom c (w.session p).sendSeq ∧
      (w.session p.peer).recvCurrent.chain =
        chainFrom c (w.session p.peer).recvCurrent.expectedSeq
  current : ∀ p, (w.session p).recvCurrent.epoch = (w.session p).sendEpoch
  previous : ∀ p recv, (w.session p).recvPrevious = some recv →
    recv.epoch + 1 = (w.session p).sendEpoch
  pending : ∀ p kex, (w.session p).pending = some kex →
    (w.session p).pendingEpoch = (w.session p).sendEpoch
  /-- A message key seals one plaintext. -/
  messageKey : ∀ m ∈ w.net, ∀ m' ∈ w.net, ∀ chain nonce nonce' t t',
    Seals m.bytes (advance chain).2 nonce t → Seals m'.bytes (advance chain).2 nonce' t' → t = t'
  /-- A chunk key, and any other, seals one plaintext under a nonce. -/
  chunkKey : ∀ m ∈ w.net, ∀ m' ∈ w.net, ∀ key nonce t t',
    Seals m.bytes key nonce t → Seals m'.bytes key nonce t' → t = t'
  /-- What was delivered is a part of what the peer sealed, call by call. -/
  delivered : ∀ p, (w.delivered p).Subperm (w.sealed p.peer)
  /-- No record is delivered twice. -/
  delivered_nodup : ∀ p, ((w.delivered p).map Prod.fst).Nodup

theorem Seals.plaintext_eq {b key nonce nonce' t t' : Bytes} (h : Seals b key nonce t)
    (h' : Seals b key nonce' t') : t = t' := by
  obtain ⟨header, rfl⟩ := h
  obtain ⟨header', hb⟩ := h'
  exact (Term.aead.inj (List.cons.inj (List.cons.inj (Term.list_inj.1 hb)).2).1).2.2.2

/-- Message keys seal under the zero nonce only. -/
theorem Content.nonce_of_seals {S : Schedule} {e : ℕ} {p : Party} {c : Content}
    {chain nonce t : Bytes} (h : Seals (c.bytes S e p) (advance chain).2 nonce t) :
    nonce = zeroNonce := by
  cases c with
  | application | step1 | step2 => exact (seals_record.1 h).2.1
  | chunk1 | chunk2 => cases (seals_chunk.1 h).1

theorem Pair.Inv.safe (h : w.Inv th xs) : w.Safe where
  epoch_le p := by
    have hle := h.epoch_le p
    have hle' := h.epoch_le p.peer
    rcases hle'.lt_or_eq with hlt | heq
    · obtain ⟨-, -, hlen, -⟩ := h.lag p.peer _ (List.getElem?_eq_getElem hlt)
      omega
    · omega
  root p he := by rw [(h.session p).root, (h.session p.peer).root, he]
  chain p he := by
    refine ⟨(scheduleOf th xs).firstChain (w.session p).sendEpoch p, (h.session p).send, ?_⟩
    have hrecv := ((h.session p.peer).recv .current _ rfl).chain
    rwa [(h.session p.peer).current, Party.peer_peer, ← he] at hrecv
  current p := (h.session p).current
  previous p := (h.session p).previous
  pending p kex hk := ((h.session p).pending kex hk).1
  messageKey m hm m' hm' chain nonce nonce' t t' hk hk' := by
    have hzero : ∀ m ∈ w.net, ∀ nonce t, Seals m.bytes (advance chain).2 nonce t →
        nonce = zeroNonce := by
      intro m hm nonce t hk
      obtain ⟨e, c, hb, -⟩ := h.net m hm
      exact Content.nonce_of_seals (hb ▸ hk)
    obtain rfl := hzero m hm nonce t hk
    obtain rfl := hzero m' hm' nonce' t' hk'
    have hbytes := h.once m hm m' hm' _ _ t t' hk hk'
    exact Seals.plaintext_eq hk (hbytes ▸ hk')
  chunkKey m hm m' hm' key nonce t t' hk hk' := by
    have hbytes := h.once m hm m' hm' key nonce t t' hk hk'
    exact Seals.plaintext_eq hk (hbytes ▸ hk')
  delivered p := List.subperm_of_subset (.of_map _ (h.delivered_nodup p)) fun r hr =>
    (h.delivered p r hr).1
  delivered_nodup := h.delivered_nodup

end Safety

/-! ### Runs -/

section Runs

variable {th : Bytes} {xs : List Exchange} {w w' : Pair}

/-- Two fresh sessions agree, with no exchange and nothing on the network. -/
theorem Pair.IsStart.inv (h : w.IsStart) : ∃ th, w.Inv th [] := by
  obtain ⟨th, rfl⟩ := h
  refine ⟨th, fun p => sessionOk_start th p, fun p x hx => (by cases hx), fun m hm => (by cases hm),
    fun m hm => (by cases hm), fun p r hr => (by cases hr), fun p => List.nodup_nil,
    fun p r hr => (by cases hr), fun p => List.nodup_nil⟩

variable [ReedSolomon Bytes] {allowed : Pair → PairAction → Prop}

/-- **One step.** Whatever is called and whatever is delivered, both sides stay together. -/
theorem Pair.Inv.step (h : w.Inv th xs) {a : PairAction} (hs : w.step a = some w') :
    ∃ xs', w'.Inv th xs' := by
  obtain ⟨c, hc, hs⟩ := Option.bind_eq_some_iff.1 hs
  obtain ⟨o, ho, hs⟩ := Option.bind_eq_some_iff.1 hs
  obtain rfl := Option.some.inj hs
  have heffect : ∃ xs', Effect th xs xs' w a.party c o := by
    cases a with
    | sealRecord p plaintext =>
      obtain rfl := Option.some.inj hc
      exact ⟨xs, effect_sealRecord h ho⟩
    | initiateRatchet p =>
      obtain rfl := Option.some.inj hc
      exact ⟨xs, effect_initiateRatchet h ho⟩
    | initiateIncrementalRatchet p d n =>
      obtain rfl := Option.some.inj hc
      exact ⟨xs, effect_initiateIncrementalRatchet h ho⟩
    | openRecord p i =>
      obtain ⟨m, hm, rfl⟩ := Option.map_eq_some_iff.1 hc
      exact effect_openRecord h (List.mem_of_getElem? hm) ho
    | openRatchetChunk p i =>
      obtain ⟨m, hm, rfl⟩ := Option.map_eq_some_iff.1 hc
      exact effect_openRatchetChunk h (List.mem_of_getElem? hm) ho
  obtain ⟨xs', he⟩ := heffect
  exact ⟨xs', h.after he⟩

/-- **Every run.** The sessions of every reachable state agree on some exchanges. -/
theorem Pair.Inv.run (h : pairMachine.Reachable allowed w) : ∃ th xs, w.Inv th xs := by
  refine Machine.Reachable.invariant (I := fun w => ∃ th xs, w.Inv th xs) (fun w hw => ?_)
    (fun w w' a _ hw _ hs => ?_) h
  · obtain ⟨th, hinv⟩ := hw.inv
    exact ⟨th, [], hinv⟩
  · obtain ⟨th, xs, hinv⟩ := hw
    obtain ⟨xs', hinv'⟩ := hinv.step hs
    exact ⟨th, xs', hinv'⟩

/-- **Two-party safety.** In every run of two sessions of one handshake, whatever the network
drops, repeats, reorders or reflects. -/
theorem pair_safe (h : pairMachine.Reachable allowed w) : w.Safe := by
  obtain ⟨th, xs, hinv⟩ := Pair.Inv.run h
  exact hinv.safe

end Runs

section Sample

attribute [local instance] symbolicCode

/-- The sides of a fresh handshake after some actions. -/
def pairRun (as : List PairAction) : Option Pair :=
  pairMachine.run ⟨fun p => start .nil (decide (p = .initiator)), [], fun _ => [], fun _ => [], 0⟩ as

/-- A record delivered twice and reflected, a step by records, and a step by chunks of which the
data shard of the answer is lost. -/
def twoStepRun : List PairAction :=
  [.sealRecord .initiator (.lit "hello"), .openRecord .responder 0, .openRecord .responder 0,
    .openRecord .initiator 0, .initiateRatchet .initiator, .openRecord .responder 1,
    .openRecord .initiator 2, .initiateIncrementalRatchet .responder 1 1,
    .openRatchetChunk .initiator 3, .openRatchetChunk .responder 6]

theorem pair_safe_twoStepRun : ∃ w, pairRun twoStepRun = some w ∧
    (w.session .initiator).sendEpoch = 2 ∧ (w.session .responder).sendEpoch = 2 ∧
    (w.delivered .responder).length = 1 ∧ w.Safe := by
  have hrun : (pairRun twoStepRun).map (fun w => ((w.session .initiator).sendEpoch,
      (w.session .responder).sendEpoch, (w.delivered .responder).length)) = some (2, 2, 1) := by
    decide +kernel
  obtain ⟨w, hw, hp⟩ := Option.map_eq_some_iff.1 hrun
  simp only [Prod.mk.injEq] at hp
  obtain ⟨h1, h2, h3⟩ := hp
  have hr : pairMachine.Reachable (fun _ _ => True) w :=
    Machine.Reachable.of_run (.init ⟨.nil, rfl⟩) (fun _ _ _ => trivial) hw
  exact ⟨w, hw, h1, h2, h3, pair_safe hr⟩

end Sample

end Ratchet

end NovaChannel
