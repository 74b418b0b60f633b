import NovaChannel.Ratchet.Safety

/-!
# A ratchet step that nothing disturbs

When both sessions are idle and in one epoch, an incremental step with one data shard goes
through: the first chunk completes the peer's side (`perform_step1Chunk`), the first
chunk of the answer completes the initiator's (`perform_step2Chunk`), and what either
side seals afterwards the other opens (`open_sealed`).
-/

namespace NovaChannel

namespace Ratchet

open Crypto Kex RatchetedSession

variable [ReedSolomon Bytes]

/-! ### One data shard -/

/-- The only data shard of a payload. -/
def onlyShard (payload : Bytes) : Bytes :=
  ByteString.window 0 (Erasure.shardLen (ByteString.len payload) 1) payload

/-- The first of the two chunks of a payload in one data shard. -/
def firstChunk (key nonce payload : Bytes) (msgType : ℕ) : Bytes :=
  chunkRecord key ⟨msgType, nonce, 0, 1, 1, ByteString.len payload, truncatedChecksum payload⟩
    (onlyShard payload)

theorem buildChunkRecords_one [LawfulReedSolomon Bytes] (msgType : ℕ) (key nonce : Bytes)
    {payload : Bytes} (hlen : ByteString.len payload < 2 ^ 32) :
    ∃ rest, buildChunkRecords msgType key nonce payload 1 1 =
      .ok (firstChunk key nonce payload msgType :: rest) := by
  have hshard : Erasure.dataShards payload 1 = [onlyShard payload] := by
    simp [Erasure.dataShards, onlyShard]
  have hsome : (ReedSolomon.encode 1 1 [onlyShard payload]).isSome :=
    LawfulReedSolomon.encode_isSome one_pos one_pos (by omega) rfl (Erasure.shardLen_even _ 1)
      (Erasure.shardLen_pos _ 1) fun shard hs => by
        rw [List.mem_singleton.1 hs]
        exact Term.len_window _ _ _
  obtain ⟨parity, hparity⟩ := Option.isSome_iff_exists.1 hsome
  have hencode : Erasure.encode payload 1 1 =
      .ok ([onlyShard payload] ++ parity, Erasure.shardLen (ByteString.len payload) 1) := by
    simp only [Erasure.encode, hshard, hparity]
    rfl
  refine ⟨parity.zipIdx 1 |>.map fun s => chunkRecord key ⟨msgType, nonce, s.2, 1, 1,
    ByteString.len payload, truncatedChecksum payload⟩ s.1, ?_⟩
  unfold buildChunkRecords
  rw [if_neg (by omega), hencode]
  rfl

omit [ReedSolomon Bytes] in
/-- The only data shard is the payload, padded. -/
theorem concat_onlyShard (payload : Bytes) :
    ∃ padded, ByteString.concat [onlyShard payload] = padded ∧
    ByteString.take (ByteString.len payload) padded = payload ∧
    ByteString.len payload ≤ ByteString.len padded := by
  have hw : [onlyShard payload] =
      Term.windows payload (Erasure.shardLen (ByteString.len payload) 1) 1 := by
    simp only [Term.windows, List.range_one, List.map_cons, List.map_nil, Nat.zero_mul]
    rfl
  refine ⟨_, (congrArg _ hw).trans (Term.concat_windows payload _ one_pos),
    Term.take_pad payload _, ?_⟩
  show _ ≤ 1 * Erasure.shardLen (ByteString.len payload) 1 - 0
  rw [one_mul, Nat.sub_zero]
  exact Erasure.le_shardLen_one _

/-- The first chunk alone completes an attempt that nothing of has arrived before. -/
theorem accumulateChunk_firstChunk {slot : Option (ChunkAccumulator Bytes)} {nonce : Bytes}
    (payload : Bytes)
    (hslot : ∀ acc, slot = some acc → acc.attemptNonce ≠ nonce) :
    accumulateChunk slot nonce ⟨0, 1, 1, ByteString.len payload, truncatedChecksum payload,
      onlyShard payload⟩ = (none, .ok (some (payload, 1, 1))) := by
  have hfresh : accumulatorFor slot nonce ⟨0, 1, 1, ByteString.len payload,
      truncatedChecksum payload, onlyShard payload⟩ =
      ⟨nonce, 1, 1, ByteString.len payload, truncatedChecksum payload, [none, none]⟩ := by
    cases slot with
    | none => rfl
    | some acc => exact if_neg (hslot acc rfl)
  have heven : ByteString.len (onlyShard payload) % 2 = 0 := by
    have hlen : ByteString.len (onlyShard payload) =
        Erasure.shardLen (ByteString.len payload) 1 := Term.len_window _ _ _
    rw [hlen]
    exact Erasure.shardLen_even _ 1
  obtain ⟨padded, hcat, htake, hle⟩ := concat_onlyShard payload
  have hdecode : Erasure.decode [some (onlyShard payload), none] 1 1 = .ok padded := by
    rw [← hcat]
    simp [Erasure.decode, Erasure.checkShardCounts, checkedAdd64, heven]
  rw [accumulateChunk, if_neg (by simp), hfresh, accumulateInto, if_neg (by simp)]
  simp [ChunkAccumulator.receivedCount, hdecode, htake, hle.not_gt]

/-! ### Both halves of the step -/

omit [ReedSolomon Bytes] in
theorem readNum_of_lt {width n : ℕ} (h : n < 256 ^ width) :
    readNum width (num n : Bytes) = some n := by
  show (some n).filter (· < 256 ^ width) = some n
  rw [Option.filter_some, if_pos (by simpa using h)]

/-- The header of the first chunk. -/
def firstHeader (nonce payload : Bytes) (msgType : ℕ) : ChunkHeader Bytes :=
  ⟨msgType, nonce, 0, 1, 1, ByteString.len payload, truncatedChecksum payload⟩

omit [ReedSolomon Bytes] in
@[simp] theorem firstHeader_msgType {nonce payload : Bytes} {msgType : ℕ} :
    (firstHeader nonce payload msgType).msgType = msgType := rfl

omit [ReedSolomon Bytes] in
@[simp] theorem firstHeader_attemptNonce {nonce payload : Bytes} {msgType : ℕ} :
    (firstHeader nonce payload msgType).attemptNonce = nonce := rfl

omit [ReedSolomon Bytes] in
@[simp] theorem openAead_firstHeader {key nonce payload : Bytes} {msgType : ℕ} :
    openAead key (chunkNonce (firstHeader nonce payload msgType).shardIndex)
      (firstHeader nonce payload msgType).write (aeadEncrypt key (chunkNonce 0)
        (firstHeader nonce payload msgType).write (onlyShard payload)) = .ok (onlyShard payload) :=
  openAead_eq_ok.2 (LawfulCrypto.aeadDecrypt_aeadEncrypt _ _ _ _)

omit [ReedSolomon Bytes] in
theorem parse_firstChunk {key nonce payload : Bytes} {msgType : ℕ} (ht : msgType < 256)
    (hlen : ByteString.len payload < 2 ^ 32) :
    parseChunkHeader (firstChunk key nonce payload msgType) =
      .ok (firstHeader nonce payload msgType, (firstHeader nonce payload msgType).write,
        aeadEncrypt key (chunkNonce 0) (firstHeader nonce payload msgType).write
          (onlyShard payload)) := by
  simp [parseChunkHeader, firstChunk, firstHeader, chunkRecord, LawfulCrypto.unframe_frame,
    ChunkHeader.read, ChunkHeader.write, readNum_of_lt (show msgType < 256 ^ 1 by omega),
    readNum_of_lt (show 0 < 256 ^ 1 by omega), readNum_of_lt (show 1 < 256 ^ 1 by omega),
    readNum_of_lt (show ByteString.len payload < 256 ^ 4 by omega)]

omit [ReedSolomon Bytes] in
theorem len_step1Payload (k : ℕ) : ByteString.len (step1Payload (kexOf k)) < 2 ^ 32 := by
  show Term.len (.cons (.fn .dhPublic _ _) (.cons (.fn .kemPublic _ _) .nil)) < 2 ^ 32
  simp [Term.len, Term.fnLen]

omit [ReedSolomon Bytes] in
theorem len_step2Payload (k k' : ℕ) : ByteString.len (step2Payload (exchange k k')) < 2 ^ 32 := by
  show Term.len (.cons (.fn .dhPublic _ _) (.cons (.fn .kemCiphertext _ _) .nil)) < 2 ^ 32
  simp [Term.len, Term.fnLen]

omit [ReedSolomon Bytes] in
theorem read_step1Payload (k : ℕ) {trailing : String} :
    readExchange mlKemPublicFromBytes trailing (step1Payload (kexOf k)) =
      .ok ((kexOf k).x25519Public, (kexOf k).mlKemPublic) := by
  have hlen : ByteString.isMlKemPublic (kexOf k).mlKemPublic = true := by
    show decide (Term.len (.fn .kemPublic (.name (Name.mlKem k)) .nil) = 1568) = true
    simp [Term.len, Term.fnLen]
  simp [readExchange, step1Payload, LawfulCrypto.unframe_frame, mlKemPublicFromBytes, hlen]

/-- The first chunk of the step 1 of call `k`. -/
def step1Chunk (rootKey : Bytes) (k : ℕ) : Bytes :=
  firstChunk (deriveChunkKey rootKey (.name (.attemptNonce k)) labelChunkKeyStep1)
    (.name (.attemptNonce k)) (step1Payload (kexOf k)) msgRatchetStep1Chunk

/-- The first chunk of the answer of call `k'` to it. -/
def step2Chunk (rootKey : Bytes) (k k' : ℕ) : Bytes :=
  firstChunk (deriveChunkKey rootKey (.name (.attemptNonce k')) labelChunkKeyStep2)
    (.name (.attemptNonce k')) (step2Payload (exchange k k')) msgRatchetStep2Chunk

/-- No attempt with this nonce has reached the session. -/
structure RatchetedSession.Unseen (s : RatchetedSession Bytes) (nonce : Bytes) : Prop where
  slot1 : ∀ acc, s.incomingStep1Chunks = some acc → acc.attemptNonce ≠ nonce
  slot2 : ∀ acc, s.incomingStep2Chunks = some acc → acc.attemptNonce ≠ nonce
  last1 : s.lastCompletedStep1Attempt ≠ some nonce
  last2 : s.lastCompletedStep2Attempt ≠ some nonce

variable [LawfulReedSolomon Bytes] {s : RatchetedSession Bytes} {k k' : ℕ}

/-- The session after it answered a step by chunks. -/
def RatchetedSession.answered (s : RatchetedSession Bytes) (k k' : ℕ) : RatchetedSession Bytes :=
  ((s.withChunks none s.incomingStep2Chunks).advanced s.sendEpoch
    (deriveNextEpoch s.rootKey (exchange k k').sharedSecret false)).completed
    (some (.name (.attemptNonce k))) s.lastCompletedStep2Attempt

/-- The session after its own step by chunks was answered. -/
def RatchetedSession.finished (s : RatchetedSession Bytes) (k k' : ℕ) : RatchetedSession Bytes :=
  ((s.withChunks s.incomingStep1Chunks none).usedUp.advanced s.sendEpoch
    (deriveNextEpoch s.rootKey (exchange k k').sharedSecret true)).completed
    s.lastCompletedStep1Attempt (some (.name (.attemptNonce k')))

omit [LawfulReedSolomon Bytes] in
theorem initiateIncrementalRatchet_eq (hidle : s.pending = none) (k d m : ℕ) :
    s.initiateIncrementalRatchet (initiatorCoins k) d m =
      (buildChunkRecords msgRatchetStep1Chunk
        (deriveChunkKey s.rootKey (.name (.attemptNonce k)) labelChunkKeyStep1)
        (.name (.attemptNonce k)) (step1Payload (kexOf k)) d m >>= fun records =>
        .ok (s.awaiting (kexOf k), records)) := by
  rw [initiateIncrementalRatchet, if_neg (by simp [hidle])]
  rfl

omit [LawfulReedSolomon Bytes] in
/-- No shards, no step. -/
theorem perform_initiate_zero (hidle : s.pending = none) :
    s.perform k (.initiateIncrementalRatchet 0 0) = some (.nothing s) := by
  have hbuild : ∀ t key nonce, buildChunkRecords t key nonce (step1Payload (kexOf k)) 0 0 =
      .err (.malformed "invalid erasure-coding shard counts") := by
    intro t key nonce
    rw [buildChunkRecords, if_neg (len_step1Payload k).not_ge]
    rfl
  simp only [RatchetedSession.perform, initiateIncrementalRatchet_eq hidle, hbuild]
  rfl

theorem perform_initiate_one (hidle : s.pending = none) :
    ∃ rest, s.perform k (.initiateIncrementalRatchet 1 1) =
      some ⟨s.awaiting (kexOf k), [], step1Chunk s.rootKey k :: rest, none, true⟩ := by
  obtain ⟨rest, hbuild⟩ := buildChunkRecords_one msgRatchetStep1Chunk
    (deriveChunkKey s.rootKey (.name (.attemptNonce k)) labelChunkKeyStep1)
    (.name (.attemptNonce k)) (len_step1Payload k)
  refine ⟨rest, ?_⟩
  simp only [RatchetedSession.perform, initiateIncrementalRatchet_eq hidle, hbuild]
  rfl

omit [LawfulReedSolomon Bytes] in
theorem completeStep1_eq {records : List Bytes} (hlt : s.sendEpoch + 1 < 2 ^ 32)
    (hrec : buildChunkRecords msgRatchetStep2Chunk
      (deriveChunkKey s.rootKey (.name (.attemptNonce k')) labelChunkKeyStep2)
      (.name (.attemptNonce k')) (step2Payload (exchange k k')) 1 1 = .ok records)
    (nonce : Bytes) :
    s.completeStep1 (responderCoins k') nonce (step1Payload (kexOf k)) 1 1 =
      ((s.advanced s.sendEpoch
          (deriveNextEpoch s.rootKey (exchange k k').sharedSecret false)).completed
          (some nonce) s.lastCompletedStep2Attempt, .ok (.step1Complete records)) := by
  have hadv : s.advanceEpoch s.sendEpoch
      (deriveNextEpoch s.rootKey (exchange k k').sharedSecret false) =
      .ok (s.advanced s.sendEpoch
        (deriveNextEpoch s.rootKey (exchange k k').sharedSecret false)) := if_pos hlt
  rw [step2Payload] at hrec
  simp only [completeStep1, read_step1Payload, Result.ok_bind, responderExchange_kexOf]
  simp only [responderCoins, hrec, Result.ok_bind, hadv, Result.pure_eq_ok]
  rfl

/-- The first chunk of a step 1 completes the answering side. -/
theorem perform_step1Chunk (hidle : s.pending = none)
    (hseen : s.Unseen (.name (.attemptNonce k))) (hlt : s.sendEpoch + 1 < 2 ^ 32) (k' : ℕ) :
    ∃ rest, s.perform k' (.openRatchetChunk (step1Chunk s.rootKey k)) =
      some ⟨s.answered k k', [], step2Chunk s.rootKey k k' :: rest, none, true⟩ := by
  obtain ⟨rest, hrest⟩ := buildChunkRecords_one msgRatchetStep2Chunk
    (deriveChunkKey s.rootKey (.name (.attemptNonce k')) labelChunkKeyStep2)
    (.name (.attemptNonce k')) (len_step2Payload k k')
  have hacc := accumulateChunk_firstChunk (step1Payload (kexOf k)) hseen.slot1
  have hsome : s.pending.isSome = false := by rw [hidle, Option.isSome_none]
  have hopen : s.openRatchetChunk (responderCoins k') (step1Chunk s.rootKey k) =
      (s.answered k k', .ok (.step1Complete (step2Chunk s.rootKey k k' :: rest))) := by
    simp only [openRatchetChunk, step1Chunk,
      parse_firstChunk (show msgRatchetStep1Chunk < 256 by decide) (len_step1Payload k),
      firstHeader_msgType, ↓reduceIte, openStep1Chunk, firstHeader_attemptNonce, hseen.last1, hsome,
      Bool.false_eq_true, openAead_firstHeader]
    simp only [firstHeader, ChunkHeader.fields, hacc]
    exact completeStep1_eq (s := s.withChunks none s.incomingStep2Chunks) hlt hrest _
  refine ⟨rest, ?_⟩
  rw [RatchetedSession.perform, hopen]
  rfl

omit [LawfulReedSolomon Bytes] in
/-- The first chunk of the answer completes the side that waits for it. -/
theorem perform_step2Chunk (hwait : s.pending = some (kexOf k))
    (hseen : s.Unseen (.name (.attemptNonce k'))) (hlt : s.sendEpoch + 1 < 2 ^ 32) (n : ℕ) :
    s.perform n (.openRatchetChunk (step2Chunk s.rootKey k k')) =
      some ⟨s.finished k k', [], [], none, true⟩ := by
  have hacc := accumulateChunk_firstChunk (step2Payload (exchange k k')) hseen.slot2
  have htype : ¬ msgRatchetStep2Chunk = msgRatchetStep1Chunk := by decide
  have hopen : s.openRatchetChunk (responderCoins n) (step2Chunk s.rootKey k k') =
      (s.finished k k', .ok .step2Complete) := by
    simp only [openRatchetChunk, step2Chunk,
      parse_firstChunk (show msgRatchetStep2Chunk < 256 by decide) (len_step2Payload k k'),
      firstHeader_msgType, htype, ↓reduceIte, openStep2Chunk, firstHeader_attemptNonce,
      hseen.last2, hwait, Option.isNone_some, Bool.false_eq_true, openAead_firstHeader]
    simp only [firstHeader, ChunkHeader.fields, hacc, completeStep2, read_step2Payload,
      finish_exchange, Result.ok_bind, advanceEpoch, hlt, ↓reduceIte]
    rfl
  rw [RatchetedSession.perform, hopen]
  rfl

/-! ### Afterwards -/

omit [ReedSolomon Bytes] [LawfulReedSolomon Bytes] in
/-- A receive chain in step with the send chain opens the next record. -/
theorem open_sealed {s' : RatchetedSession Bytes} (he : s'.recvCurrent.epoch = s.sendEpoch)
    (hchain : s'.recvCurrent.chain = s.sendChain) (hseq : s'.recvCurrent.expectedSeq = s.sendSeq)
    (hlt : s.sendEpoch < 2 ^ 32) (hnext : s.sendSeq + 1 < 2 ^ 64) (plaintext : Bytes) (k : ℕ) :
    ∃ t record t', s.sealRecord plaintext = .ok (t, record) ∧
      s'.openRecord (responderCoins k) record = (t', .ok (.application plaintext)) := by
  have hadd : checkedAdd64 s.sendSeq 1 = some (s.sendSeq + 1) := if_pos hnext
  have hread : readRecord (s.recordOf (typed msgApplication plaintext)) =
      some (s.sendEpoch, s.sendSeq, headerBytes s.sendEpoch s.sendSeq,
        aeadEncrypt (advance s.sendChain).2 zeroNonce (headerBytes s.sendEpoch s.sendSeq)
          (typed msgApplication plaintext)) := by
    simp [readRecord, recordOf, headerBytes, LawfulCrypto.unframe_frame,
      readNum_of_lt (show s.sendEpoch < 256 ^ 4 by omega),
      readNum_of_lt (show s.sendSeq < 256 ^ 8 by omega)]
  have hopen : openAead (advance s.sendChain).2 zeroNonce (headerBytes s.sendEpoch s.sendSeq)
      (aeadEncrypt (advance s.sendChain).2 zeroNonce (headerBytes s.sendEpoch s.sendSeq)
        (typed msgApplication plaintext)) = .ok (typed msgApplication plaintext) :=
    openAead_eq_ok.2 (LawfulCrypto.aeadDecrypt_aeadEncrypt _ _ _ _)
  have hpayload : ∀ u : RatchetedSession Bytes, u.handleOpened (responderCoins k) s.sendEpoch
      (.ok (typed msgApplication plaintext)) = (u, .ok (.application plaintext)) := by
    intro u
    simp [handleOpened, handlePayload, typed, LawfulCrypto.unframe_frame, msgApplication,
      readNum_of_lt (show 0 < 256 ^ 1 by omega)]
  have hsealed : s.sealRecord plaintext =
      .ok (s.sealedOne, s.recordOf (typed msgApplication plaintext)) := by
    simp only [sealRecord, sealPayload, hadd]
    rfl
  have hopened : ∃ t', s'.openRecord (responderCoins k) (s.recordOf (typed msgApplication plaintext))
      = (t', .ok (.application plaintext)) := by
    rw [openRecord, hread]
    simp only [he, ↓reduceIte, RecvChain.openOn, hseq, lt_irrefl, hchain, hopen, hadd, hpayload]
    exact ⟨_, rfl⟩
  obtain ⟨t', hopened⟩ := hopened
  exact ⟨s.sealedOne, _, t', hsealed, hopened⟩

end Ratchet

end NovaChannel
