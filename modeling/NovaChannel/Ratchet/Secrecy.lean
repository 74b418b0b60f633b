import NovaChannel.Ratchet.Schedule

/-!
# Forward secrecy of a session

The message key of a record that was sealed or opened is hidden from whoever reads the session's
fields exactly when the session has left epoch `0` (`usedKeys_secret_iff`): in epoch `0` the session
still holds the root key that both its chains were expanded from.

The key of a spent record is the last of a line of values, each computed from the one before,
that starts at the handshake's secret; from epoch `1` on no field is a value of that line
(`not_derives_of_spent`).
-/

namespace NovaChannel

namespace Ratchet

open Crypto Kex

/-! ### What an adversary reads -/

/-- The secrets and public keys of pending key material. -/
def kexFields (kex : InitiatorKex Bytes) : Set Bytes :=
  {kex.x25519Secret, kex.x25519Public, kex.mlKemPublic, kex.mlKemSecret}

/-- The keys of a receive chain. -/
def RecvChain.fields (recv : RecvChain Bytes) : Set Bytes :=
  {t | t = recv.chain ∨ ∃ n, (n, t) ∈ recv.skipped}

/-- The keys a session holds: root key, send chain, receive chains with their skipped keys, and
pending key exchange. -/
def RatchetedSession.fields (s : RatchetedSession Bytes) : Set Bytes :=
  {t | t = s.rootKey ∨ t = s.sendChain ∨ (∃ slot recv, s.recv slot = some recv ∧ t ∈ recv.fields) ∨
    ∃ kex, s.pending = some kex ∧ t ∈ kexFields kex}

/-- The record opens under the message key. -/
def MessageKey (record key : Bytes) : Prop :=
  ∃ header ciphertext payload, unframe record = some [header, ciphertext] ∧
    aeadDecrypt key zeroNonce header ciphertext = some payload

/-- No message key of a record sealed or opened is derivable from the session's fields. -/
def World.ForwardSecret (w : World) : Prop :=
  ∀ record ∈ w.sealed ++ w.opened, ∀ key, MessageKey record key →
    ¬ Derives w.session.fields key

/-! ### Every record in its place -/

/-- The record was sealed under a message key that the session of `p` is done with. -/
def Used (S : Schedule) (p : Party) (s : RatchetedSession Bytes) (record : Bytes) : Prop :=
  ∃ e q n header payload, s.Spent p e q n ∧ (q = p ∨ q = p.peer) ∧
    record = frame [header, aeadEncrypt (S.keyAt e q n) zeroNonce header payload]

/-- The session `s'` follows `s` in the schedule. -/
structure Follows (p : Party) (S : Schedule) (s : RatchetedSession Bytes) (S' : Schedule)
    (s' : RatchetedSession Bytes) : Prop where
  schedule : S' = S ∨ ∃ x, S' = S.push x
  ok : SessionOk S' p s'
  length : S'.steps.length = s'.sendEpoch
  spent : ∀ e q n, s.Spent p e q n → s'.Spent p e q n

section Follows

variable {p : Party} {S S' : Schedule} {s s' s'' : RatchetedSession Bytes} {record : Bytes}

theorem Follows.trans {S'' : Schedule} (h : Follows p S s S s') (h' : Follows p S s' S'' s'') :
    Follows p S s S'' s'' :=
  ⟨h'.schedule, h'.ok, h'.length, fun e q n hs => h'.spent e q n (h.spent e q n hs)⟩

theorem Follows.keyAt (h : Follows p S s S' s') (hlen : S.steps.length = s.sendEpoch) {e : ℕ}
    (he : e ≤ s.sendEpoch) (q : Party) (n : ℕ) : S'.keyAt e q n = S.keyAt e q n := by
  rcases h.schedule with rfl | ⟨x, rfl⟩
  · rfl
  · exact Schedule.keyAt_push (by omega) q n

theorem Used.follows (hu : Used S p s record) (hlen : S.steps.length = s.sendEpoch)
    (h : Follows p S s S' s') : Used S' p s' record := by
  obtain ⟨e, q, n, header, payload, hs, hq, rfl⟩ := hu
  exact ⟨e, q, n, header, payload, h.spent e q n hs, hq, by rw [h.keyAt hlen hs.epoch_le]⟩

/-- The record just sealed. -/
theorem used_recordOf (h : SessionOk S p s) (payload : Bytes) :
    Used S p s.sealedOne (s.recordOf payload) :=
  ⟨s.sendEpoch, p, s.sendSeq, headerBytes s.sendEpoch s.sendSeq, payload, spent_sealedOne,
    .inl rfl, by rw [RatchetedSession.recordOf, h.send]; rfl⟩

/-- A session that stays in its epoch. -/
theorem Follows.stay (ok : SessionOk S p s') (hlen : S.steps.length = s'.sendEpoch)
    (hs : ∀ e q n, s.Spent p e q n → s'.Spent p e q n) : Follows p S s S s' :=
  ⟨.inl rfl, ok, hlen, hs⟩

/-- A session that enters the next epoch, with some shared secret. -/
theorem Follows.advanced (h : SessionOk S p s) (hlen : S.steps.length = s.sendEpoch)
    (hp : s.pending = none) (ss : Bytes) (isInitiator : Bool) :
    ∃ S', Follows p S s S' (s.advanced s.sendEpoch
      (RatchetedSession.deriveNextEpoch s.rootKey ss isInitiator)) := by
  let x : EpochStep := ⟨ss, if isInitiator then p else p.peer⟩
  have hx : (S.push x).steps[s.sendEpoch]? = some x := by
    rw [← hlen]
    exact List.getElem?_concat_length
  have hd : decide (x.initiator = p) = isInitiator := by
    cases isInitiator <;> simp [x, Party.peer_ne]
  have hok := h.push.advanced (p := p) hp hx
  rw [hd] at hok
  refine ⟨S.push x, .inr ⟨x, rfl⟩, hok, ?_, fun e q n hs => hs.advanced⟩
  show (S.steps ++ [x]).length = s.sendEpoch + 1
  rw [List.length_append, hlen, List.length_singleton]

variable [ReedSolomon Bytes]

omit [ReedSolomon Bytes] in
/-- The end of `open`: the session follows, and a reply is a record just sealed. -/
theorem follows_handleOpened {coins : ResponderCoins Bytes} {epoch : ℕ} {opened : Result Bytes}
    {r : Result (Opened Bytes)} (h : SessionOk S p s) (hlen : S.steps.length = s.sendEpoch)
    (ho : s.handleOpened coins epoch opened = (s', r)) (hp : r ≠ .error .panic) :
    ∃ S', Follows p S s S' s' ∧ ∀ x, r = .ok x → (∃ m, opened = .ok m) ∧
      ∀ record ∈ (Outcome.ofOpened s' x).records, Used S' p s' record := by
  have hsame : Follows p S s S s := .stay h hlen fun _ _ _ hs => hs
  rcases RatchetedSession.handleOpened_cases ho with ⟨rfl, e, rfl⟩ | hpanic |
      ⟨m, body, rfl, ⟨-, rfl, rfl⟩ | ⟨-, reply, hstep, rfl⟩ | ⟨-, done, hstep, hdone⟩⟩
  · exact ⟨S, hsame, fun x hx => by cases hx⟩
  · exact absurd hpanic hp
  · refine ⟨S, hsame, fun x hx => ⟨⟨m, rfl⟩, ?_⟩⟩
    obtain rfl := Except.ok.inj hx
    exact fun record hr => by cases hr
  · rcases RatchetedSession.handleStep1_cases hstep with ⟨-, e, he⟩ | he |
        ⟨x, k, out, hpend, rfl, hu, hout, hlt, hlt', rfl, hreply⟩
    · cases he
    · cases he
    · obtain rfl := Except.ok.inj hreply
      obtain ⟨S', hf⟩ := Follows.advanced h.sealedOne hlen hpend out.sharedSecret false
      have hseal : Follows p S s S s.sealedOne := .stay h.sealedOne hlen fun _ _ _ hs => hs.sealedOne
      refine ⟨S', hseal.trans hf, fun x hx => ⟨⟨m, rfl⟩, fun record hr => ?_⟩⟩
      obtain rfl := Except.ok.inj hx
      obtain rfl := List.mem_singleton.1 hr
      exact (used_recordOf h _).follows hlen hf
  · have hreplies : ∀ x, r = .ok x → (∃ m', (.ok m : Result Bytes) = .ok m') ∧
        ∀ record ∈ (Outcome.ofOpened s' x).records, Used S p s' record := by
      rintro x rfl
      rcases hdone with ⟨-, hx⟩ | ⟨e, -, hx⟩
      · obtain rfl := Except.ok.inj hx
        exact ⟨⟨m, rfl⟩, fun record hr => by cases hr⟩
      · cases hx
    rcases RatchetedSession.handleStep2_cases hstep with ⟨rfl, -⟩ | rfl |
        ⟨kex, hkex, hepoch, ⟨rfl, -⟩ | ⟨x, ct, ss, -, -, -, rfl, -⟩⟩
    · exact ⟨S, hsame, hreplies⟩
    · rcases hdone with ⟨he, -⟩ | ⟨e, he, rfl⟩
      · cases he
      · exact absurd (congrArg _ (Except.error.inj he).symm) hp
    · exact ⟨S, .stay h.usedUp hlen fun _ _ _ hs => hs.usedUp, hreplies⟩
    · obtain rfl : s.sendEpoch = epoch := ((h.pending kex hkex).1.symm.trans hepoch)
      obtain ⟨S', hf⟩ := Follows.advanced h.usedUp hlen rfl ss true
      have hused : Follows p S s S s.usedUp := .stay h.usedUp hlen fun _ _ _ hs => hs.usedUp
      refine ⟨S', hused.trans hf, fun x hx => ⟨⟨m, rfl⟩, fun record hr => ?_⟩⟩
      rcases hdone with ⟨-, hx'⟩ | ⟨e, -, hx'⟩
      · obtain rfl := Except.ok.inj (hx.symm.trans hx')
        cases hr
      · cases hx.symm.trans hx'

/-- A chunk: the session follows. -/
theorem follows_openRatchetChunk {coins : ResponderCoins Bytes} {bytes : Bytes}
    {r : Result (ChunkOutcome Bytes)} (h : SessionOk S p s) (hlen : S.steps.length = s.sendEpoch)
    (ho : s.openRatchetChunk coins bytes = (s', r)) (hp : r ≠ .error .panic) :
    ∃ S', Follows p S s S' s' := by
  rcases RatchetedSession.openRatchetChunk_cases ho with ⟨a, b, rfl, -⟩ | hpanic |
      ⟨ch, a, x, k, out, payload, records, hpend, -, -, -, -, -, -, rfl, -⟩ |
      ⟨ch, a, kex, payload, x, ct, hpend, -, -, -, ⟨-, -, rfl, -⟩ | ⟨ss, -, -, rfl, -⟩⟩
  · exact ⟨S, .stay (h.withChunks a b) hlen fun _ _ _ hs => hs.withChunks⟩
  · exact absurd hpanic hp
  · obtain ⟨S', hf⟩ := Follows.advanced (h.withChunks a s.incomingStep2Chunks) hlen hpend
      out.sharedSecret false
    exact ⟨S', hf.schedule, hf.ok.completed _ _, hf.length,
      fun e q n hs => (hf.spent e q n hs.withChunks).completed⟩
  · exact ⟨S, .stay (h.withChunks _ a).usedUp hlen fun _ _ _ hs => hs.withChunks.usedUp⟩
  · obtain ⟨S', hf⟩ := Follows.advanced (h.withChunks s.incomingStep1Chunks a).usedUp hlen rfl ss true
    exact ⟨S', hf.schedule, hf.ok.completed _ _, hf.length,
      fun e q n hs => (hf.spent e q n hs.withChunks.usedUp).completed⟩

/-- One call: the session follows, and the records it seals and the one it opens are spent. -/
theorem follows_perform {k : ℕ} {c : Call} {o : Outcome} (h : SessionOk S p s)
    (hlen : S.steps.length = s.sendEpoch) (hc : s.perform k c = some o) :
    ∃ S', Follows p S s S' o.session ∧ (∀ record ∈ o.records, Used S' p o.session record) ∧
      ∀ record, c = .openRecord record → o.ok = true → Used S' p o.session record := by
  have hsame : Follows p S s S s := .stay h hlen fun _ _ _ hs => hs
  have hseal : Follows p S s S s.sealedOne := .stay h.sealedOne hlen fun _ _ _ hs => hs.sealedOne
  cases c with
  | sealRecord plaintext =>
    rcases perform_sealRecord hc with rfl | ⟨s₁, record, hs, rfl⟩
    · exact ⟨S, hsame, fun record hr => (by cases hr), fun record hr => (by cases hr)⟩
    · obtain ⟨-, rfl, rfl⟩ := RatchetedSession.sealPayload_eq_ok hs
      refine ⟨S, hseal, fun record hr => ?_, fun record hr => (by cases hr)⟩
      obtain rfl := List.mem_singleton.1 hr
      exact used_recordOf h _
  | initiateRatchet =>
    rcases perform_initiateRatchet hc with rfl | ⟨s₁, record, hs, rfl⟩
    · exact ⟨S, hsame, fun record hr => (by cases hr), fun record hr => (by cases hr)⟩
    · obtain ⟨-, -, rfl, rfl⟩ := RatchetedSession.initiateRatchet_eq_ok hs
      have hf : Follows p S s.sealedOne S (s.sealedOne.awaiting (kexOf k)) :=
        .stay (h.sealedOne.awaiting k) hlen fun _ _ _ hs => hs.awaiting
      refine ⟨S, hseal.trans hf, fun record hr => ?_, fun record hr => (by cases hr)⟩
      obtain rfl := List.mem_singleton.1 hr
      exact (used_recordOf h _).follows hlen hf
  | initiateIncrementalRatchet d n =>
    rcases perform_initiateIncrementalRatchet hc with rfl | ⟨s₁, records, hs, rfl⟩
    · exact ⟨S, hsame, fun record hr => (by cases hr), fun record hr => (by cases hr)⟩
    · obtain ⟨-, rfl, -⟩ := RatchetedSession.initiateIncrementalRatchet_eq_ok hs
      exact ⟨S, .stay (h.awaiting k) hlen fun _ _ _ hs => hs.awaiting,
        fun record hr => (by cases hr), fun record hr => (by cases hr)⟩
  | openRecord record =>
    obtain ⟨r, hopen, hnp, hout⟩ := perform_openRecord hc
    rcases RatchetedSession.openRecord_cases hopen with ⟨hs, e, rfl⟩ |
        ⟨slot, recv, seq, aad, ct, recv', opened, hread, hrecv, hon, hend⟩
    · rcases hout with ⟨-, ho⟩ | ⟨x, hx, -⟩
      · rw [ho, hs]
        exact ⟨S, hsame, fun record hr => (by cases hr), fun record _ hok => (by cases hok)⟩
      · cases hx
    · have hnp' : opened ≠ .error .panic := by
        rintro rfl
        obtain ⟨-, rfl⟩ := Prod.mk.inj hend
        exact hnp rfl
      obtain ⟨hrok, hepoch, hmono, hkey⟩ := (h.recv slot recv hrecv).openOn hon hnp'
      have hset := h.setRecv hrecv hepoch hrok
      have hset' : Follows p S s S (s.setRecv recv' slot) :=
        .stay hset (by cases slot <;> exact hlen) fun _ _ _ hs => hs.setRecv hrecv hepoch hmono
      obtain ⟨S', hf, hrest⟩ := follows_handleOpened hset hset'.length hend hnp
      refine ⟨S', hset'.trans hf, ?_⟩
      rcases hout with ⟨-, ho⟩ | ⟨x, rfl, ho⟩
      · rw [ho]
        exact ⟨fun record hr => (by cases hr), fun record _ hok => (by cases hok)⟩
      · obtain ⟨⟨m, rfl⟩, hrecords⟩ := hrest x rfl
        refine ⟨fun record hr => hrecords record (ho ▸ hr), fun record' hrec _ => ?_⟩
        obtain rfl := Call.openRecord.inj hrec
        obtain ⟨hdec, -, hspent⟩ := hkey m rfl
        obtain ⟨rfl, -⟩ := readRecord_eq_some hread
        obtain rfl := Term.aeadOpen_eq_some.1 hdec
        have hused : Used S p (s.setRecv recv' slot) (frame [aad, aeadEncrypt
            (S.keyAt recv.epoch p.peer seq) zeroNonce aad m]) :=
          ⟨recv.epoch, p.peer, seq, aad, m, h.spent_setRecv hrecv hepoch hspent, .inr rfl, rfl⟩
        exact hused.follows hset'.length hf
  | openRatchetChunk bytes =>
    obtain ⟨r, hopen, hnp, hout⟩ := perform_openRatchetChunk hc
    obtain ⟨S', hf⟩ := follows_openRatchetChunk h hlen hopen hnp
    refine ⟨S', hf, fun record hr => ?_, fun record hr => (by cases hr)⟩
    rcases hout with ⟨-, ho⟩ | ⟨x, -, ho⟩
    · rw [ho] at hr
      cases hr
    · rw [ho] at hr
      cases x <;> cases hr

end Follows

/-! ### Over a run -/

/-- The session is in its place, and all its records are spent. -/
def World.Ok (S : Schedule) (p : Party) (w : World) : Prop :=
  SessionOk S p w.session ∧ S.steps.length = w.session.sendEpoch ∧
    ∀ record ∈ w.sealed ++ w.opened, Used S p w.session record

/-- A fresh session is in its place. -/
theorem sessionOk_start (transcriptFinal : Bytes) (p : Party) :
    SessionOk ⟨transcriptFinal, []⟩ p (start transcriptFinal (decide (p = .initiator))) where
  epoch_le := le_rfl
  root := rfl
  send := by cases p <;> rfl
  current := rfl
  previous recv hr := by cases hr
  recv slot recv hr := by
    cases slot with
    | current =>
      obtain rfl := Option.some.inj hr
      exact ⟨by cases p <;> rfl, fun n key hk => by cases hk⟩
    | previous => cases hr
  pending kex hk := by cases hk

section Run

variable [ReedSolomon Bytes] {allowed : World → Action → Prop} {w w' : World}

omit [ReedSolomon Bytes] in
theorem World.IsStart.ok (h : w.IsStart) : ∃ S p, w.Ok S p := by
  obtain ⟨transcriptFinal, isInitiator, rfl⟩ := h
  cases isInitiator with
  | true =>
    exact ⟨⟨transcriptFinal, []⟩, .initiator, sessionOk_start transcriptFinal .initiator, rfl,
      fun record hr => by cases hr⟩
  | false =>
    exact ⟨⟨transcriptFinal, []⟩, .responder, sessionOk_start transcriptFinal .responder, rfl,
      fun record hr => by cases hr⟩

theorem World.Ok.step {S : Schedule} {p : Party} (h : w.Ok S p) {a : Action}
    (hs : w.step a = some w') : ∃ S', w'.Ok S' p := by
  obtain ⟨o, ho, rfl⟩ := Option.map_eq_some_iff.1 hs
  obtain ⟨S', hf, hsealed, hopened⟩ := follows_perform h.1 h.2.1 ho
  refine ⟨S', hf.ok, hf.length, fun record hr => ?_⟩
  have hold : ∀ record ∈ w.sealed ++ w.opened, Used S' p o.session record :=
    fun record hr => (h.2.2 record hr).follows h.2.1 hf
  rcases List.mem_append.1 hr with hr | hr
  · rcases List.mem_append.1 hr with hr | hr
    · exact hsealed record hr
    · exact hold record (List.mem_append_left _ hr)
  · by_cases hok : o.ok = true
    · simp only [hok, ↓reduceIte] at hr
      rcases List.mem_append.1 hr with hr | hr
      · cases hc : a.call with
        | openRecord record' =>
          rw [hc] at hr
          obtain rfl := List.mem_singleton.1 hr
          exact hopened record hc hok
        | _ => rw [hc] at hr; cases hr
      · exact hold record (List.mem_append_right _ hr)
    · simp only [hok] at hr
      exact hold record (List.mem_append_right _ hr)

theorem ok_of_reachable (h : sessionMachine.Reachable allowed w) : ∃ S p, w.Ok S p :=
  h.invariant (I := fun w => ∃ S p, w.Ok S p) (fun _ hw => World.IsStart.ok hw)
    fun _ _ _ _ ⟨S, p, hw⟩ _ hs => by
    obtain ⟨S', hw'⟩ := hw.step hs
    exact ⟨S', p, hw'⟩

end Run

/-! ### Secrecy -/

section Secrecy

variable {S : Schedule} {p q : Party} {s : RatchetedSession Bytes} {e n : ℕ}

/-- What a field can be: the root key of the epoch, a chain key of a place further on, a message
key that is not spent, or key material of an exchange. -/
theorem SessionOk.mem_fields (h : SessionOk S p s) {t : Bytes} (ht : t ∈ s.fields) :
    t = S.rootAt s.sendEpoch ∨
    (∃ e q i, t = S.chainAt e q i ∧ ∀ n, s.Spent p e q n → n < i) ∨
    (∃ e q n, t = S.keyAt e q n ∧ ¬ s.Spent p e q n) ∨ ∃ k, t ∈ kexFields (kexOf k) := by
  rcases ht with rfl | rfl | ⟨slot, recv, hr, rfl | ⟨n, hn⟩⟩ | ⟨kex, hk, ht⟩
  · exact .inl h.root
  · exact .inr (.inl ⟨s.sendEpoch, p, s.sendSeq, h.send, fun n hs => hs.send rfl rfl⟩)
  · exact .inr (.inl ⟨recv.epoch, p.peer, recv.expectedSeq, (h.recv slot recv hr).chain,
      fun n hs => (hs.recv rfl slot recv hr rfl).1⟩)
  · exact .inr (.inr (.inl ⟨recv.epoch, p.peer, n, ((h.recv slot recv hr).skipped n t hn).2,
      fun hs => (hs.recv rfl slot recv hr rfl).2 t hn⟩))
  · obtain ⟨-, k, rfl⟩ := h.pending kex hk
    exact .inr (.inr (.inr ⟨k, ht⟩))

/-- The handshake's secret may not be handed out, the fields of a session may. -/
def fieldsPolicy (s : RatchetedSession Bytes) : Policy Name where
  secret := (· = .handshake)
  exposed := (· ∈ s.fields)

/-- Neither a field nor computed from what is safe. -/
theorem not_safe_fn {f : Fn} {a b : Bytes} (hf : f.isPublic = false) (hk : f ≠ .kemShared)
    (hfield : Term.fn f a b ∉ s.fields)
    (hab : ¬ (fieldsPolicy s).Safe a ∨ ¬ (fieldsPolicy s).Safe b) :
    ¬ (fieldsPolicy s).Safe (.fn f a b) := by
  rw [Policy.safe_fn hk]
  rintro (hp | hx | ⟨ha, hb⟩)
  · rw [hf] at hp
    cases hp
  · exact hfield hx
  · exact hab.elim (· ha) (· hb)

/-- Pending key material is no value of the key schedule. -/
theorem notMem_kexFields {f : Fn} {a b : Bytes} {k : ℕ} (h1 : f ≠ .dhPublic)
    (h2 : f ≠ .kemPublic) : Term.fn f a b ∉ kexFields (kexOf k) := by
  rintro (h | h | h | h)
  · cases h
  · exact h1 (Term.fn.inj h).1
  · exact h2 (Term.fn.inj h).1
  · cases h

/-- Extracted keys are no fields. -/
theorem SessionOk.extract_notMem (h : SessionOk S p s) (a b : Bytes) :
    Term.fn .extract a b ∉ s.fields := by
  intro ht
  rcases h.mem_fields ht with ht | ⟨e, q, i, ht, -⟩ | ⟨e, q, n, ht, -⟩ | ⟨k, ht⟩
  · cases hs : s.sendEpoch <;> rw [hs] at ht <;> cases ht
  · cases i with
    | zero => cases e <;> cases ht
    | succ i =>
      rw [Schedule.chainAt_succ] at ht
      cases ht
  · cases ht
  · exact notMem_kexFields (by simp) (by simp) ht

/-- An earlier root key is not safe. -/
theorem SessionOk.not_safe_rootAt (h : SessionOk S p s) (he : e < s.sendEpoch) :
    ¬ (fieldsPolicy s).Safe (S.rootAt e) := by
  have hfield : S.rootAt e ∉ s.fields := by
    intro ht
    rcases h.mem_fields ht with ht | ⟨e', q, i, ht, -⟩ | ⟨e', q, n, ht, -⟩ | ⟨k, ht⟩
    · exact absurd (Schedule.rootAt_inj ht) he.ne
    · exact Schedule.rootAt_ne_chainAt _ _ _ _ ht
    · exact Schedule.rootAt_ne_mac _ _ _ ht
    · cases e <;> exact notMem_kexFields (by simp) (by simp) ht
  induction e with
  | zero =>
    exact not_safe_fn rfl (by simp) hfield
      (.inl (not_safe_fn rfl (by simp) (h.extract_notMem _ _) (.inr fun hs => hs rfl)))
  | succ e ih =>
    refine not_safe_fn rfl (by simp) hfield
      (.inl (not_safe_fn rfl (by simp) (h.extract_notMem _ _) (.inl (ih (by omega) ?_))))
    intro ht
    rcases h.mem_fields ht with ht | ⟨e', q, i, ht, -⟩ | ⟨e', q, n, ht, -⟩ | ⟨k, ht⟩
    · exact absurd (Schedule.rootAt_inj ht) (by omega)
    · exact Schedule.rootAt_ne_chainAt _ _ _ _ ht
    · exact Schedule.rootAt_ne_mac _ _ _ ht
    · cases e <;> exact notMem_kexFields (by simp) (by simp) ht

/-- Up to a spent record, no chain key is a field. -/
theorem SessionOk.chainAt_notMem (h : SessionOk S p s) (hs : s.Spent p e q n) {i : ℕ}
    (hi : i ≤ n) : S.chainAt e q i ∉ s.fields := by
  intro ht
  rcases h.mem_fields ht with ht | ⟨e', q', i', ht, hahead⟩ | ⟨e', q', n', ht, -⟩ | ⟨k, ht⟩
  · exact Schedule.rootAt_ne_chainAt _ _ _ _ ht.symm
  · obtain ⟨rfl, rfl, rfl⟩ := Schedule.chainAt_inj ht
    have := hahead n hs
    omega
  · exact Schedule.chainAt_ne_keyAt _ _ _ _ _ _ ht
  · cases i with
    | zero => cases e <;> exact notMem_kexFields (by simp) (by simp) ht
    | succ i =>
      rw [Schedule.chainAt_succ] at ht
      exact notMem_kexFields (by simp) (by simp) ht

/-- **Outside epoch `0` the key of a spent record is not derivable from the fields.** -/
theorem SessionOk.not_derives_of_spent (h : SessionOk S p s) (h0 : s.sendEpoch ≠ 0)
    (hs : s.Spent p e q n) : ¬ Derives s.fields (S.keyAt e q n) := by
  have hfirst : ¬ (fieldsPolicy s).Safe (S.firstChain e q) := by
    have hfield := h.chainAt_notMem hs (Nat.zero_le n)
    cases e with
    | zero => exact not_safe_fn rfl (by simp) hfield (.inl (h.not_safe_rootAt (by omega)))
    | succ e =>
      exact not_safe_fn rfl (by simp) hfield (.inl (not_safe_fn rfl (by simp)
        (h.extract_notMem _ _) (.inl (h.not_safe_rootAt (by have := hs.epoch_le; omega)))))
  have hchain : ∀ i ≤ n, ¬ (fieldsPolicy s).Safe (S.chainAt e q i) := by
    intro i hi
    induction i with
    | zero => exact hfirst
    | succ i ih =>
      have hfield := h.chainAt_notMem hs hi
      rw [Schedule.chainAt_succ] at hfield ⊢
      exact not_safe_fn rfl (by simp) hfield (.inl (ih (by omega)))
  have hkey : S.keyAt e q n ∉ s.fields := by
    intro ht
    rcases h.mem_fields ht with ht | ⟨e', q', i', ht, -⟩ | ⟨e', q', n', ht, hn⟩ | ⟨k, ht⟩
    · exact Schedule.rootAt_ne_mac _ _ _ ht.symm
    · exact Schedule.chainAt_ne_keyAt _ _ _ _ _ _ ht.symm
    · obtain ⟨rfl, rfl, rfl⟩ := Schedule.keyAt_inj ht
      exact hn hs
    · exact notMem_kexFields (by simp) (by simp) ht
  refine Policy.not_derives (P := fieldsPolicy s) (fun t ht => ?_)
    (not_safe_fn rfl (by simp) hkey (.inl (hchain n le_rfl)))
  -- every field is safe: it is exposed, or a name other than the handshake's
  rcases h.mem_fields ht with rfl | ⟨e', q', i, rfl, -⟩ | ⟨e', q', i, rfl, -⟩ | ⟨k, hk⟩
  · cases hse : s.sendEpoch <;> rw [hse] at ht <;> exact .inr (.inl ht)
  · cases i with
    | zero => cases e' <;> exact .inr (.inl ht)
    | succ i =>
      rw [Schedule.chainAt_succ] at ht ⊢
      exact .inr (.inl ht)
  · exact .inr (.inl ht)
  · rcases hk with rfl | rfl | rfl | rfl
    · exact fun hc => by cases hc
    · exact .inl rfl
    · exact .inl rfl
    · exact fun hc => by cases hc

/-- In epoch `0` the root key gives every message key away. -/
theorem SessionOk.derives_of_epoch_zero (h : SessionOk S p s) (h0 : s.sendEpoch = 0) (q : Party)
    (n : ℕ) : Derives s.fields (S.keyAt 0 q n) := by
  have hroot : Derives s.fields (S.rootAt 0) := by
    rw [← h0, ← h.root]
    exact .known (.inl rfl)
  have hchain : Derives s.fields (S.chainAt 0 q n) := by
    induction n with
    | zero => exact .fn rfl hroot (by split_ifs <;> exact .lit _)
    | succ n ih =>
      rw [Schedule.chainAt_succ]
      exact .fn rfl ih (.num 2)
  exact .fn rfl hchain (.num 1)

end Secrecy

/-! ### Forward secrecy -/

/-- A record has one message key. -/
theorem messageKey_iff {K key header payload : Bytes} :
    MessageKey (frame [header, aeadEncrypt K zeroNonce header payload]) key ↔ key = K := by
  constructor
  · rintro ⟨header', ct, payload', hu, hdec⟩
    have hframe := Option.some.inj ((Term.unlist_list _).symm.trans hu)
    obtain ⟨rfl, rfl⟩ : header = header' ∧ aeadEncrypt K zeroNonce header payload = ct := by
      simpa using hframe
    exact (Term.aead.inj (Term.aeadOpen_eq_some.1 hdec)).1.symm
  · rintro rfl
    exact ⟨header, _, payload, Term.unlist_list _, Term.aeadOpen_eq_some.2 rfl⟩

/-- A session in epoch `0` that sealed or opened anything gives a message key away. -/
theorem not_forwardSecret_of_epoch_zero [ReedSolomon Bytes] {allowed : World → Action → Prop}
    {w : World} (h : sessionMachine.Reachable allowed w) (h0 : w.session.sendEpoch = 0)
    (hne : w.sealed ++ w.opened ≠ []) : ¬ w.ForwardSecret := by
  obtain ⟨S, p, hok, -, hused⟩ := ok_of_reachable h
  obtain ⟨record, hrecord⟩ := List.exists_mem_of_ne_nil _ hne
  obtain ⟨e, q, n, header, payload, hs, -, rfl⟩ := hused record hrecord
  obtain rfl : e = 0 := Nat.le_zero.1 (h0 ▸ hs.epoch_le)
  exact fun hfs => hfs _ hrecord _ (messageKey_iff.2 rfl) (hok.derives_of_epoch_zero h0 q n)

/-- **A session hides the keys of the records it sealed and opened exactly when it has left epoch
`0`**, in every run with any inputs, or has not sealed or opened any. -/
theorem usedKeys_secret_iff [ReedSolomon Bytes] {allowed : World → Action → Prop} {w : World}
    (h : sessionMachine.Reachable allowed w) :
    w.ForwardSecret ↔ w.session.sendEpoch ≠ 0 ∨ w.sealed ++ w.opened = [] := by
  constructor
  · intro hfs
    by_contra hc
    obtain ⟨h0, hne⟩ := not_or.1 hc
    exact not_forwardSecret_of_epoch_zero h (not_not.1 h0) hne hfs
  · obtain ⟨S, p, hok, -, hused⟩ := ok_of_reachable h
    rintro (h0 | hnil) record hrecord key hkey
    · obtain ⟨e, q, n, header, payload, hs, -, rfl⟩ := hused record hrecord
      rw [messageKey_iff.1 hkey]
      exact hok.not_derives_of_spent h0 hs
    · rw [hnil] at hrecord
      cases hrecord

/-! ### Two runs -/

section Runs

attribute [local instance] symbolicCode

/-- The peer's record that starts a ratchet step. -/
def peerStep1 : Bytes :=
  match (start .nil true).initiateRatchet (initiatorCoins 7) with
  | .ok (_, record) => record
  | .error _ => .nil

/-- The responder seals a record, answers the peer's ratchet step, and seals another record. -/
def answeredRun : List Action :=
  [⟨0, .sealRecord (.lit "before")⟩, ⟨1, .openRecord peerStep1⟩, ⟨2, .sealRecord (.lit "after")⟩]

/-- The session of a run that starts as the responder's. -/
def responderRun (as : List Action) : Option World :=
  sessionMachine.run ⟨start .nil false, [], []⟩ as

/-- After the step the session holds none of the four message keys it has used. -/
theorem usedKeys_secret_iff_answeredRun : ∃ w, responderRun answeredRun = some w ∧
    w.session.sendEpoch = 1 ∧ (w.sealed ++ w.opened).length = 4 ∧ w.ForwardSecret := by
  have hrun : (responderRun answeredRun).map (fun w => (w.session.sendEpoch,
      (w.sealed ++ w.opened).length)) = some (1, 4) := by decide +kernel
  obtain ⟨w, hw, hp⟩ := Option.map_eq_some_iff.1 hrun
  obtain ⟨he, hl⟩ := Prod.mk.inj hp
  have hr : sessionMachine.Reachable (fun _ _ => True) w :=
    Machine.Reachable.of_run (.init ⟨.nil, false, rfl⟩) (fun _ _ _ => trivial) hw
  exact ⟨w, hw, he, hl, (usedKeys_secret_iff hr).2 (.inl (by omega))⟩

/-- **One sealed record, and its key is there for the taking**: before the first ratchet step the
session's root key derives it. -/
theorem not_forwardSecret_sealed : ∃ w, sessionMachine.Reachable (fun _ _ => True) w ∧
    w.session.sendEpoch = 0 ∧ w.sealed.length = 1 ∧ ¬ w.ForwardSecret := by
  have hrun : (responderRun [⟨0, .sealRecord (.lit "hello")⟩]).map (fun w =>
      (w.session.sendEpoch, w.sealed.length)) = some (0, 1) := by decide +kernel
  obtain ⟨w, hw, hp⟩ := Option.map_eq_some_iff.1 hrun
  obtain ⟨he, hl⟩ := Prod.mk.inj hp
  have hr : sessionMachine.Reachable (fun _ _ => True) w :=
    Machine.Reachable.of_run (.init ⟨.nil, false, rfl⟩) (fun _ _ _ => trivial) hw
  refine ⟨w, hr, he, hl, not_forwardSecret_of_epoch_zero hr he fun hnil => ?_⟩
  rw [(List.append_eq_nil_iff.1 hnil).1] at hl
  cases hl

end Runs

end Ratchet

end NovaChannel
