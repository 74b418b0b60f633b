import NovaChannel.Lib.Machine
import NovaChannel.Ratchet.Session
import NovaChannel.SymbolicBytes

/-!
# Sessions at work

Symbolic runs of ratcheted sessions.  The values drawn at random are names, numbered by the call
that draws them; `RatchetedSession.perform` is one call of the public interface with everything
it hands out.  Two machines are built on it:

* `sessionMachine` : one session, called in any order with any input whatsoever;
* `pairMachine` : the two sessions of a handshake over a network that delivers what was sent to
  either side any number of times, in any order, or never.

A call that panics does not return, and ends the run.
-/

namespace NovaChannel

namespace Ratchet

open Crypto Kex

/-- The values a run draws at random. -/
inductive Name
  /-- The hybrid secret of the handshake. -/
  | handshake
  | x25519 (k : ℕ)
  | mlKem (k : ℕ)
  | kemRandom (k : ℕ)
  | attemptNonce (k : ℕ)
  deriving DecidableEq

namespace Name

/-- A number for every name. -/
def code : Name → ℕ
  | handshake => 0
  | x25519 k => 4 * k + 1
  | mlKem k => 4 * k + 2
  | kemRandom k => 4 * k + 3
  | attemptNonce k => 4 * k + 4

theorem code_injective : Function.Injective code := by
  intro a b h
  cases a <;> cases b <;> simp only [code] at h <;> first | rfl | omega | (congr 1; omega)

instance : Named Name := ⟨code, code_injective⟩

end Name

/-- The byte strings of a symbolic run. -/
abbrev Bytes := Term Name

/-- The randomness of the `k`-th call, if it initiates a step. -/
def initiatorCoins (k : ℕ) : InitiatorCoins Bytes :=
  ⟨.name (.x25519 k), .name (.mlKem k), .name (.attemptNonce k)⟩

/-- The randomness of the `k`-th call, if it answers a step. -/
def responderCoins (k : ℕ) : ResponderCoins Bytes :=
  ⟨.name (.x25519 k), .name (.kemRandom k), .name (.attemptNonce k)⟩

/-- The key material of the step initiated by the `k`-th call. -/
def kexOf (k : ℕ) : InitiatorKex Bytes := .generate (.name (.x25519 k)) (.name (.mlKem k))

/-- A symbolic erasure code: a recovery shard stands for all the data shards. -/
@[reducible] def symbolicCode : ReedSolomon Bytes where
  encode _ recoveryCount data := some ((List.range recoveryCount).map fun j =>
    .fn (.expand (ByteString.len (data.headD .nil))) (Term.list data) (.num j))
  decode originalCount _ original recovery :=
    if original.length + recovery.length < originalCount then none
    else match recovery with
      | (_, .fn (.expand _) data (.num _)) :: _ =>
        (Term.unlist data).map fun shards => shards.zipIdx.map fun s => (s.2, s.1)
      | _ => none

/-! ### Calls -/

/-- A call of the public interface. -/
inductive Call
  | sealRecord (plaintext : Bytes)
  | initiateRatchet
  | initiateIncrementalRatchet (dataShards parityShards : ℕ)
  | openRecord (record : Bytes)
  | openRatchetChunk (bytes : Bytes)
  deriving DecidableEq

/-- What a call leaves behind and hands out. -/
structure Outcome where
  session : RatchetedSession Bytes
  /-- The records sealed on the send chain. -/
  records : List Bytes
  /-- The chunk records of the incremental step. -/
  chunks : List Bytes
  /-- The application plaintext delivered. -/
  delivered : Option Bytes
  /-- The call returned `Ok`. -/
  ok : Bool
  deriving DecidableEq

/-- A call that failed with an `Err`, or panicked. -/
def Outcome.failed (s : RatchetedSession Bytes) : Fault → Option Outcome
  | .error _ => some ⟨s, [], [], none, false⟩
  | .panic => none

/-- What `open` hands out. -/
def Outcome.ofOpened (s : RatchetedSession Bytes) : Opened Bytes → Outcome
  | .application plaintext => ⟨s, [], [], some plaintext, true⟩
  | .ratchetAdvanced reply => ⟨s, reply.toList, [], none, true⟩

/-- What `open_ratchet_chunk` hands out. -/
def Outcome.ofChunk (s : RatchetedSession Bytes) : ChunkOutcome Bytes → Outcome
  | .stillAccumulating => ⟨s, [], [], none, true⟩
  | .step1Complete replyRecords => ⟨s, [], replyRecords, none, true⟩
  | .step2Complete => ⟨s, [], [], none, true⟩

section Perform

variable [ReedSolomon Bytes]

/-- The `k`-th call. -/
def RatchetedSession.perform (s : RatchetedSession Bytes) (k : ℕ) : Call → Option Outcome
  | .sealRecord plaintext =>
    match s.sealRecord plaintext with
    | .error e => Outcome.failed s e
    | .ok (s', record) => some ⟨s', [record], [], none, true⟩
  | .initiateRatchet =>
    match s.initiateRatchet (initiatorCoins k) with
    | .error e => Outcome.failed s e
    | .ok (s', record) => some ⟨s', [record], [], none, true⟩
  | .initiateIncrementalRatchet dataShards parityShards =>
    match s.initiateIncrementalRatchet (initiatorCoins k) dataShards parityShards with
    | .error e => Outcome.failed s e
    | .ok (s', records) => some ⟨s', [], records, none, true⟩
  | .openRecord record =>
    match s.openRecord (responderCoins k) record with
    | (s', .error e) => Outcome.failed s' e
    | (s', .ok opened) => some (.ofOpened s' opened)
  | .openRatchetChunk bytes =>
    match s.openRatchetChunk (responderCoins k) bytes with
    | (s', .error e) => Outcome.failed s' e
    | (s', .ok outcome) => some (.ofChunk s' outcome)

variable {s : RatchetedSession Bytes} {k : ℕ} {o : Outcome}

/-- A call that did nothing. -/
def Outcome.nothing (s : RatchetedSession Bytes) : Outcome := ⟨s, [], [], none, false⟩

omit [ReedSolomon Bytes] in
theorem Outcome.failed_eq_some {e : Fault} (h : Outcome.failed s e = some o) :
    e ≠ .panic ∧ o = .nothing s := by
  cases e with
  | error e => exact ⟨by simp, (Option.some.inj h).symm⟩
  | panic => cases h

theorem perform_sealRecord {plaintext : Bytes} (h : s.perform k (.sealRecord plaintext) = some o) :
    o = .nothing s ∨ ∃ s' record, s.sealRecord plaintext = .ok (s', record) ∧
      o = ⟨s', [record], [], none, true⟩ := by
  simp only [RatchetedSession.perform] at h
  split at h
  · exact .inl (Outcome.failed_eq_some h).2
  · rename_i s' record hs
    exact .inr ⟨s', record, hs, (Option.some.inj h).symm⟩

theorem perform_initiateRatchet (h : s.perform k .initiateRatchet = some o) :
    o = .nothing s ∨ ∃ s' record, s.initiateRatchet (initiatorCoins k) = .ok (s', record) ∧
      o = ⟨s', [record], [], none, true⟩ := by
  simp only [RatchetedSession.perform] at h
  split at h
  · exact .inl (Outcome.failed_eq_some h).2
  · rename_i s' record hs
    exact .inr ⟨s', record, hs, (Option.some.inj h).symm⟩

theorem perform_initiateIncrementalRatchet {d n : ℕ}
    (h : s.perform k (.initiateIncrementalRatchet d n) = some o) :
    o = .nothing s ∨
    ∃ s' records, s.initiateIncrementalRatchet (initiatorCoins k) d n = .ok (s', records) ∧
      o = ⟨s', [], records, none, true⟩ := by
  simp only [RatchetedSession.perform] at h
  split at h
  · exact .inl (Outcome.failed_eq_some h).2
  · rename_i s' records hs
    exact .inr ⟨s', records, hs, (Option.some.inj h).symm⟩

theorem perform_openRecord {record : Bytes} (h : s.perform k (.openRecord record) = some o) :
    ∃ r, s.openRecord (responderCoins k) record = (o.session, r) ∧ r ≠ .error .panic ∧
      ((∃ e, r = .error e) ∧ o = .nothing o.session ∨
        ∃ x, r = .ok x ∧ o = .ofOpened o.session x) := by
  simp only [RatchetedSession.perform] at h
  split at h
  · rename_i s' e hs
    obtain ⟨he, rfl⟩ := Outcome.failed_eq_some h
    exact ⟨.error e, hs, fun hp => he (Except.error.inj hp), .inl ⟨⟨e, rfl⟩, rfl⟩⟩
  · rename_i s' x hs
    obtain rfl := Option.some.inj h
    refine ⟨.ok x, ?_, by simp, .inr ⟨x, rfl, ?_⟩⟩ <;> cases x
    · exact hs
    · exact hs
    · rfl
    · rfl

theorem perform_openRatchetChunk {bytes : Bytes}
    (h : s.perform k (.openRatchetChunk bytes) = some o) :
    ∃ r, s.openRatchetChunk (responderCoins k) bytes = (o.session, r) ∧ r ≠ .error .panic ∧
      ((∃ e, r = .error e) ∧ o = .nothing o.session ∨
        ∃ x, r = .ok x ∧ o = .ofChunk o.session x) := by
  simp only [RatchetedSession.perform] at h
  split at h
  · rename_i s' e hs
    obtain ⟨he, rfl⟩ := Outcome.failed_eq_some h
    exact ⟨.error e, hs, fun hp => he (Except.error.inj hp), .inl ⟨⟨e, rfl⟩, rfl⟩⟩
  · rename_i s' x hs
    obtain rfl := Option.some.inj h
    refine ⟨.ok x, ?_, by simp, .inr ⟨x, rfl, ?_⟩⟩ <;> cases x
    · exact hs
    · exact hs
    · exact hs
    · rfl
    · rfl
    · rfl

omit [ReedSolomon Bytes] in
/-- The header of a record that parses is its epoch and its number. -/
theorem readRecord_eq_some {record aad ct : Bytes} {e n : ℕ}
    (h : RatchetedSession.readRecord record = some (e, n, aad, ct)) :
    record = frame [aad, ct] ∧ aad = headerBytes e n := by
  unfold RatchetedSession.readRecord at h
  split at h
  · rename_i header ciphertext hu
    split at h
    · rename_i epoch seq hu'
      obtain ⟨e', he, h⟩ := Option.bind_eq_some_iff.1 h
      obtain ⟨n', hn, h⟩ := Option.bind_eq_some_iff.1 h
      simp only [Option.some.injEq, Prod.mk.injEq] at h
      obtain ⟨rfl, rfl, rfl, rfl⟩ := h
      refine ⟨Term.eq_list_of_unlist hu, ?_⟩
      rw [Term.eq_list_of_unlist hu', Term.eq_num_of_unnum (Option.filter_eq_some_iff.1 he).1,
        Term.eq_num_of_unnum (Option.filter_eq_some_iff.1 hn).1]
      rfl
    · cases h
  · cases h

end Perform

/-! ### One session -/

/-- A session with the records it sealed and the records it opened successfully. -/
structure World where
  session : RatchetedSession Bytes
  sealed : List Bytes
  opened : List Bytes
  deriving DecidableEq

/-- A call with a fresh number `k`, or any other: freshness is not needed. -/
structure Action where
  k : ℕ
  call : Call
  deriving DecidableEq

/-- The record a call opens. -/
def Call.record? : Call → Option Bytes
  | .openRecord record => some record
  | _ => none

/-- One step of a session. -/
def World.step [ReedSolomon Bytes] (w : World) (a : Action) : Option World :=
  (w.session.perform a.k a.call).map fun o =>
    { session := o.session
      sealed := o.records ++ w.sealed
      opened := if o.ok then a.call.record?.toList ++ w.opened else w.opened }

/-- The session of a handshake with some transcript, on either side. -/
def start (transcriptFinal : Bytes) (isInitiator : Bool) : RatchetedSession Bytes :=
  .new (handshakeRatchetRoot (.name .handshake) transcriptFinal) isInitiator

/-- A session nothing has been done with. -/
def World.IsStart (w : World) : Prop :=
  ∃ transcriptFinal isInitiator, w = ⟨start transcriptFinal isInitiator, [], []⟩

/-- One session, called with any inputs. -/
def sessionMachine [ReedSolomon Bytes] : Machine World Action where
  init := World.IsStart
  step := World.step

/-! ### Two sessions -/

/-- The two sides of the handshake. -/
inductive Party
  | initiator
  | responder
  deriving DecidableEq

/-- The other side. -/
def Party.peer : Party → Party
  | .initiator => .responder
  | .responder => .initiator

@[simp] theorem Party.peer_peer (p : Party) : p.peer.peer = p := by cases p <;> rfl

theorem Party.peer_ne (p : Party) : p.peer ≠ p := by cases p <;> simp [peer]

/-- A message on the network. -/
structure Message where
  sender : Party
  bytes : Bytes
  deriving DecidableEq

/-- The two sessions, and everything that was sent and delivered. -/
structure Pair where
  session : Party → RatchetedSession Bytes
  /-- The records and chunk records sent, in order. -/
  net : List Message
  /-- The application records sealed by a side, with their plaintexts. -/
  sealed : Party → List (Bytes × Bytes)
  /-- The application records opened by a side, with the plaintexts delivered. -/
  delivered : Party → List (Bytes × Bytes)
  /-- The number of calls so far. -/
  calls : ℕ

/-- What can happen to two sessions: a call that takes no message, or the delivery of a message
of the network to `open` or to `open_ratchet_chunk`. -/
inductive PairAction
  | sealRecord (p : Party) (plaintext : Bytes)
  | initiateRatchet (p : Party)
  | initiateIncrementalRatchet (p : Party) (dataShards parityShards : ℕ)
  | openRecord (p : Party) (i : ℕ)
  | openRatchetChunk (p : Party) (i : ℕ)
  deriving DecidableEq

/-- Who makes the call. -/
def PairAction.party : PairAction → Party
  | .sealRecord p _ => p
  | .initiateRatchet p => p
  | .initiateIncrementalRatchet p _ _ => p
  | .openRecord p _ => p
  | .openRatchetChunk p _ => p

/-- The call made. -/
def PairAction.call (net : List Message) : PairAction → Option Call
  | .sealRecord _ plaintext => some (.sealRecord plaintext)
  | .initiateRatchet _ => some .initiateRatchet
  | .initiateIncrementalRatchet _ d n => some (.initiateIncrementalRatchet d n)
  | .openRecord _ i => net[i]?.map fun m => .openRecord m.bytes
  | .openRatchetChunk _ i => net[i]?.map fun m => .openRatchetChunk m.bytes

/-- The records a call seals with application data. -/
def Call.sealedBy (o : Outcome) : Call → List (Bytes × Bytes)
  | .sealRecord plaintext => o.records.map (·, plaintext)
  | _ => []

/-- The record a call opened, with the plaintext delivered. -/
def Call.deliveredBy (o : Outcome) : Call → List (Bytes × Bytes)
  | .openRecord record => o.delivered.toList.map (record, ·)
  | _ => []

/-- The pair after a call of `p`. -/
def Pair.after (w : Pair) (p : Party) (c : Call) (o : Outcome) : Pair where
  session := Function.update w.session p o.session
  net := w.net ++ (o.records ++ o.chunks).map (⟨p, ·⟩)
  sealed := Function.update w.sealed p (c.sealedBy o ++ w.sealed p)
  delivered := Function.update w.delivered p (c.deliveredBy o ++ w.delivered p)
  calls := w.calls + 1

/-- One step of the pair; each call draws values of its own. -/
def Pair.step [ReedSolomon Bytes] (w : Pair) (a : PairAction) : Option Pair := do
  let c ← a.call w.net
  let o ← (w.session a.party).perform w.calls c
  some (w.after a.party c o)

/-- Two fresh sessions of one handshake. -/
def Pair.IsStart (w : Pair) : Prop :=
  ∃ transcriptFinal, w = ⟨fun p => start transcriptFinal (decide (p = .initiator)), [], fun _ => [],
    fun _ => [], 0⟩

/-- The two sessions and the network between them. -/
def pairMachine [ReedSolomon Bytes] : Machine Pair PairAction where
  init := Pair.IsStart
  step := Pair.step

end Ratchet

end NovaChannel
