import NovaChannel.Ratchet.Chunks

/-!
# The ratcheted session

`RatchetedSession` with its operations: sealing and opening records on hash chains with cached
skipped keys, the ratchet step in one message each way, and the same step in erasure-coded
chunks.  An operation that can fail half-way returns the session it leaves behind together with
its result; the others return the new session only when they succeed.

A value drawn at random is an argument of the operation that draws it.
-/

namespace NovaChannel

namespace Ratchet

open Crypto ByteString Kex

/-- `MAX_SKIPPED_KEYS`. -/
def maxSkippedKeys : ℕ := 1000

/-- `MSG_APPLICATION`. -/
def msgApplication : ℕ := 0
/-- `MSG_RATCHET_STEP1`. -/
def msgRatchetStep1 : ℕ := 1
/-- `MSG_RATCHET_STEP2`. -/
def msgRatchetStep2 : ℕ := 2
/-- `MSG_RATCHET_STEP1_CHUNK`. -/
def msgRatchetStep1Chunk : ℕ := 3
/-- `MSG_RATCHET_STEP2_CHUNK`. -/
def msgRatchetStep2Chunk : ℕ := 4

section Labels

variable {β : Type} [Crypto β]

/-- `LABEL_MESSAGE_KEY`, the byte `0x01`. -/
def labelMessageKey : β := num 1
/-- `LABEL_NEXT_CHAIN`, the byte `0x02`. -/
def labelNextChain : β := num 2
/-- `LABEL_INIT_SEND`. -/
def labelInitSend : β := lit "novachannel ratchet v1 epoch0 initiator->responder"
/-- `LABEL_INIT_RECV`. -/
def labelInitRecv : β := lit "novachannel ratchet v1 epoch0 responder->initiator"
/-- `LABEL_STEP_ROOT`. -/
def labelStepRoot : β := lit "novachannel ratchet v1 step root"
/-- `LABEL_STEP_I2R`. -/
def labelStepI2r : β := lit "novachannel ratchet v1 step initiator->responder"
/-- `LABEL_STEP_R2I`. -/
def labelStepR2i : β := lit "novachannel ratchet v1 step responder->initiator"
/-- `LABEL_RATCHET_ROOT`. -/
def labelRatchetRoot : β := lit "novachannel v1 ratchet root"
/-- The all-zero nonce of the single-use message keys. -/
def zeroNonce : β := num 0

end Labels

/-- One receive chain. -/
structure RecvChain (β : Type) where
  epoch : ℕ
  chain : β
  expectedSeq : ℕ
  /-- Message keys of skipped sequence numbers. -/
  skipped : List (ℕ × β)
  deriving DecidableEq

/-- A session with per-message keys and a coordinated re-keying step. -/
structure RatchetedSession (β : Type) where
  rootKey : β
  sendEpoch : ℕ
  sendChain : β
  sendSeq : ℕ
  recvCurrent : RecvChain β
  recvPrevious : Option (RecvChain β)
  pending : Option (InitiatorKex β)
  pendingEpoch : ℕ
  incomingStep1Chunks : Option (ChunkAccumulator β)
  incomingStep2Chunks : Option (ChunkAccumulator β)
  lastCompletedStep1Attempt : Option β
  lastCompletedStep2Attempt : Option β
  deriving DecidableEq

/-- The randomness of an initiated step. -/
structure InitiatorCoins (β : Type) where
  x25519Secret : β
  mlKemSecret : β
  attemptNonce : β
  deriving DecidableEq

/-- The randomness of an answered step. -/
structure ResponderCoins (β : Type) where
  x25519Secret : β
  kemRandom : β
  attemptNonce : β
  deriving DecidableEq

/-- What `open` reports. -/
inductive Opened (β : Type)
  | application (plaintext : β)
  | ratchetAdvanced (reply : Option β)
  deriving DecidableEq

/-- What `open_ratchet_chunk` reports. -/
inductive ChunkOutcome (β : Type)
  | stillAccumulating
  | step1Complete (replyRecords : List β)
  | step2Complete
  deriving DecidableEq

/-! ### Receive chains -/

section Definitions

variable {β : Type} [Crypto β]

/-- The `ratchet_root` of a handshake, as `finalize_keys` derives it. -/
def handshakeRatchetRoot (sharedSecret transcriptFinal : β) : β :=
  hkdfExpand 32 (hkdfExtract (some (sha256 transcriptFinal)) sharedSecret) labelRatchetRoot

/-- `ChainKey::advance`: the next chain key and a message key. -/
def advance (chain : β) : β × β := (hmac chain labelNextChain, hmac chain labelMessageKey)

/-- `header_bytes`. -/
def headerBytes (epoch seq : ℕ) : β := frame [num epoch, num seq]

/-- The message keys of the next `n` sequence numbers, and the chain key after them. -/
def skipKeys (chain : β) (seq : ℕ) : ℕ → β × List (ℕ × β)
  | 0 => (chain, [])
  | n + 1 =>
    let rest := skipKeys (advance chain).1 (seq + 1) n
    (rest.1, (seq, (advance chain).2) :: rest.2)

/-- `HashMap::extend`. -/
def extendKeys (skipped : List (ℕ × β)) : List (ℕ × β) → List (ℕ × β)
  | [] => skipped
  | e :: es => extendKeys (e :: skipped.filter (·.1 ≠ e.1)) es

/-- `open_on` for a sequence number still to come: the skipped keys are cached and the chain moves
on only when the record opens. -/
def RecvChain.openAhead (recv : RecvChain β) (seq : ℕ) (aad ciphertext : β) :
    RecvChain β × Result β :=
  let (chain, newlySkipped) := skipKeys recv.chain recv.expectedSeq (seq - recv.expectedSeq)
  match openAead (advance chain).2 zeroNonce aad ciphertext with
  | .error e => (recv, .error e)
  | .ok plaintext =>
    let recv := { recv with
      skipped := extendKeys recv.skipped newlySkipped, chain := (advance chain).1 }
    match checkedAdd64 seq 1 with
    | none => (recv, .error .panic)
    | some next => ({ recv with expectedSeq := next }, .ok plaintext)

/-- `open_on`. -/
def RecvChain.openOn (recv : RecvChain β) (seq : ℕ) (aad ciphertext : β) :
    RecvChain β × Result β :=
  if seq < recv.expectedSeq then
    match recv.skipped.lookup seq with
    | none => (recv, .err .replay)
    -- the cached key goes on lookup, whatever the decryption says
    | some key =>
      ({ recv with skipped := recv.skipped.filter (·.1 ≠ seq) },
        openAead key zeroNonce aad ciphertext)
  else if seq = recv.expectedSeq then
    match openAead (advance recv.chain).2 zeroNonce aad ciphertext with
    | .error e => (recv, .error e)
    | .ok plaintext =>
      let recv := { recv with chain := (advance recv.chain).1 }
      match checkedAdd64 recv.expectedSeq 1 with
      | none => (recv, .error .panic)
      | some next => ({ recv with expectedSeq := next }, .ok plaintext)
  else if seq - recv.expectedSeq > maxSkippedKeys ∨
      recv.skipped.length + (seq - recv.expectedSeq) > maxSkippedKeys then
    (recv, .err .tooManySkippedKeys)
  else recv.openAhead seq aad ciphertext

namespace RatchetedSession

/-! ### Sealing -/

/-- `new`. -/
def new (ratchetRoot : β) (isInitiator : Bool) : RatchetedSession β where
  rootKey := ratchetRoot
  sendEpoch := 0
  sendChain := hmac ratchetRoot (if isInitiator then labelInitSend else labelInitRecv)
  sendSeq := 0
  recvCurrent :=
    { epoch := 0
      chain := hmac ratchetRoot (if isInitiator then labelInitRecv else labelInitSend)
      expectedSeq := 0
      skipped := [] }
  recvPrevious := none
  pending := none
  pendingEpoch := 0
  incomingStep1Chunks := none
  incomingStep2Chunks := none
  lastCompletedStep1Attempt := none
  lastCompletedStep2Attempt := none

/-- `seal_payload`. -/
def sealPayload (s : RatchetedSession β) (payload : β) : Result (RatchetedSession β × β) :=
  match checkedAdd64 s.sendSeq 1 with
  | none => .err .sequenceExhausted
  | some next =>
    let aad := headerBytes s.sendEpoch s.sendSeq
    .ok ({ s with sendSeq := next, sendChain := (advance s.sendChain).1 },
      frame [aad, aeadEncrypt (advance s.sendChain).2 zeroNonce aad payload])

/-- A payload with its leading message type. -/
def typed (msgType : ℕ) (body : β) : β := frame [num msgType, body]

/-- `seal`. -/
def sealRecord (s : RatchetedSession β) (plaintext : β) : Result (RatchetedSession β × β) :=
  s.sealPayload (typed msgApplication plaintext)

/-- `initiate_ratchet`. -/
def initiateRatchet (s : RatchetedSession β) (coins : InitiatorCoins β) :
    Result (RatchetedSession β × β) :=
  if s.pending.isSome then .err .ratchetInProgress
  else do
    let kex := InitiatorKex.generate coins.x25519Secret coins.mlKemSecret
    let (s', record) ←
      s.sealPayload (typed msgRatchetStep1 (frame [kex.x25519Public, kex.mlKemPublic]))
    pure ({ s' with pending := some kex, pendingEpoch := s'.sendEpoch }, record)

/-! ### A new epoch -/

/-- `derive_next_epoch`: the new root key, send chain and receive chain. -/
def deriveNextEpoch (rootKey sharedSecret : β) (isInitiator : Bool) : β × β × β :=
  let prk := hkdfExtract (some rootKey) sharedSecret
  let newRoot := hkdfExpand 32 prk labelStepRoot
  let i2r := hkdfExpand 32 prk labelStepI2r
  let r2i := hkdfExpand 32 prk labelStepR2i
  if isInitiator then (newRoot, i2r, r2i) else (newRoot, r2i, i2r)

omit [Crypto β] in
/-- `advance_epoch`. -/
def advanceEpoch (s : RatchetedSession β) (oldEpoch : ℕ) (keys : β × β × β) :
    Result (RatchetedSession β) :=
  if oldEpoch + 1 < 2 ^ 32 then
    .ok { s with
      rootKey := keys.1
      sendEpoch := oldEpoch + 1
      sendChain := keys.2.1
      sendSeq := 0
      recvCurrent := ⟨oldEpoch + 1, keys.2.2, 0, []⟩
      recvPrevious := some s.recvCurrent }
  else .error .panic

variable [ByteString β]

/-- `handle_step1`. -/
def handleStep1 (s : RatchetedSession β) (coins : ResponderCoins β) (epoch : ℕ) (payload : β) :
    RatchetedSession β × Result β :=
  if s.pending.isSome then (s, .err .ratchetInProgress)
  else if epoch ≠ s.sendEpoch then (s, .err .wrongState)
  else match (do
      let (x25519, mlKem) ←
        readExchange mlKemPublicFromBytes "trailing bytes in ratchet step1" payload
      responderExchange coins.x25519Secret coins.kemRandom x25519 mlKem) with
    | .error e => (s, .error e)
    | .ok out =>
      match s.sealPayload (typed msgRatchetStep2
          (frame [out.x25519Public, out.mlKemCiphertext])) with
      | .error e => (s, .error e)
      -- the reply goes out under the old send chain
      | .ok (s, reply) =>
        match s.advanceEpoch epoch (deriveNextEpoch s.rootKey out.sharedSecret false) with
        | .error e => (s, .error e)
        | .ok s => (s, .ok reply)

/-- `handle_step2`: the pending key material is used up as soon as the epoch matches. -/
def handleStep2 (s : RatchetedSession β) (epoch : ℕ) (payload : β) :
    RatchetedSession β × Result Unit :=
  match s.pending with
  | none => (s, .err .wrongState)
  | some kex =>
    if s.pendingEpoch ≠ epoch then (s, .err .wrongState)
    else
      let s := { s with pending := none }
      match (do
        let (x25519, ciphertext) ←
          readExchange mlKemCiphertextFromBytes "trailing bytes in ratchet step2" payload
        kex.finish x25519 ciphertext) with
      | .error e => (s, .error e)
      | .ok sharedSecret =>
        match s.advanceEpoch epoch (deriveNextEpoch s.rootKey sharedSecret true) with
        | .error e => (s, .error e)
        | .ok s => (s, .ok ())

/-! ### Opening -/

omit [ByteString β] in
/-- The header's two numbers, its bytes, and the ciphertext. -/
def readRecord (record : β) : Option (ℕ × ℕ × β × β) :=
  match unframe record with
  | some [header, ciphertext] =>
    match unframe header with
    | some [epoch, seq] => do some (← readNum 4 epoch, ← readNum 8 seq, header, ciphertext)
    | _ => none
  | _ => none

/-- What `open` does with an opened payload. -/
def handlePayload (s : RatchetedSession β) (coins : ResponderCoins β) (epoch : ℕ)
    (plaintext : β) : RatchetedSession β × Result (Opened β) :=
  match unframe plaintext with
  | some [] => (s, .err (.malformed "empty ratchet payload"))
  | some [tag, body] =>
    match readNum 1 tag with
    | some 0 => (s, .ok (.application body))
    | some 1 =>
      let (s, reply) := s.handleStep1 coins epoch body
      (s, reply.map fun r => .ratchetAdvanced (some r))
    | some 2 =>
      let (s, done) := s.handleStep2 epoch body
      (s, done.map fun _ => .ratchetAdvanced none)
    | _ => (s, .err (.malformed "unknown ratchet message type"))
  | _ => (s, .err (.malformed "unknown ratchet message type"))

/-- The end of `open`, with what `open_on` returned. -/
def handleOpened (s : RatchetedSession β) (coins : ResponderCoins β) (epoch : ℕ) :
    Result β → RatchetedSession β × Result (Opened β)
  | .error e => (s, .error e)
  | .ok plaintext => s.handlePayload coins epoch plaintext

/-- `open`. -/
def openRecord (s : RatchetedSession β) (coins : ResponderCoins β) (record : β) :
    RatchetedSession β × Result (Opened β) :=
  match readRecord record with
  | none => (s, .err (.malformed "ratchet record shorter than header"))
  | some (epoch, seq, aad, ciphertext) =>
    if epoch = s.recvCurrent.epoch then
      let (recv, opened) := s.recvCurrent.openOn seq aad ciphertext
      { s with recvCurrent := recv }.handleOpened coins epoch opened
    else match s.recvPrevious with
      | none => (s, .err .unknownEpoch)
      | some previous =>
        if previous.epoch = epoch then
          let (recv, opened) := previous.openOn seq aad ciphertext
          { s with recvPrevious := some recv }.handleOpened coins epoch opened
        else (s, .err .unknownEpoch)

/-! ### The incremental step -/

variable [ReedSolomon β]

/-- `initiate_incremental_ratchet`. -/
def initiateIncrementalRatchet (s : RatchetedSession β) (coins : InitiatorCoins β)
    (dataShards parityShards : ℕ) : Result (RatchetedSession β × List β) :=
  if s.pending.isSome then .err .ratchetInProgress
  else do
    let kex := InitiatorKex.generate coins.x25519Secret coins.mlKemSecret
    let records ← buildChunkRecords msgRatchetStep1Chunk
      (deriveChunkKey s.rootKey coins.attemptNonce labelChunkKeyStep1) coins.attemptNonce
      (frame [kex.x25519Public, kex.mlKemPublic]) dataShards parityShards
    pure ({ s with pending := some kex, pendingEpoch := s.sendEpoch }, records)

omit [Crypto β] [ByteString β] [ReedSolomon β] in
/-- `incremental_ratchet_progress`. -/
def incrementalRatchetProgress (s : RatchetedSession β) : Option (ℕ × ℕ) × Option (ℕ × ℕ) :=
  (s.incomingStep1Chunks.map fun a => (a.receivedCount, a.dataShards),
    s.incomingStep2Chunks.map fun a => (a.receivedCount, a.dataShards))

/-- A complete step 1 in `open_ratchet_chunk`: the reply and the new epoch. -/
def completeStep1 (s : RatchetedSession β) (coins : ResponderCoins β)
    (attemptNonce reconstructed : β) (dataShards parityShards : ℕ) :
    RatchetedSession β × Result (ChunkOutcome β) :=
  match (do
    let (x25519, mlKem) ← readExchange mlKemPublicFromBytes
      "trailing bytes in reconstructed ratchet step1" reconstructed
    let out ← responderExchange coins.x25519Secret coins.kemRandom x25519 mlKem
    -- the reply uses the old epoch's root key
    let replyRecords ← buildChunkRecords msgRatchetStep2Chunk
      (deriveChunkKey s.rootKey coins.attemptNonce labelChunkKeyStep2) coins.attemptNonce
      (frame [out.x25519Public, out.mlKemCiphertext]) dataShards parityShards
    let s' ← s.advanceEpoch s.sendEpoch (deriveNextEpoch s.rootKey out.sharedSecret false)
    pure ({ s' with lastCompletedStep1Attempt := some attemptNonce }, replyRecords)) with
  | .error e => (s, .error e)
  | .ok (s, replyRecords) => (s, .ok (.step1Complete replyRecords))

omit [ReedSolomon β] in
/-- A complete step 2 in `open_ratchet_chunk`: the message is parsed before the pending key
material is used up. -/
def completeStep2 (s : RatchetedSession β) (attemptNonce reconstructed : β) :
    RatchetedSession β × Result (ChunkOutcome β) :=
  match readExchange mlKemCiphertextFromBytes "trailing bytes in reconstructed ratchet step2"
      reconstructed with
  | .error e => (s, .error e)
  | .ok (x25519, ciphertext) =>
    match s.pending with
    | none => (s, .error .panic)
    | some kex =>
      let s := { s with pending := none }
      match (do
        let sharedSecret ← kex.finish x25519 ciphertext
        s.advanceEpoch s.sendEpoch (deriveNextEpoch s.rootKey sharedSecret true)) with
      | .error e => (s, .error e)
      | .ok s' =>
        ({ s' with lastCompletedStep2Attempt := some attemptNonce }, .ok .step2Complete)

variable [DecidableEq β]

/-- `open_ratchet_chunk` on a chunk of the peer's step 1. -/
def openStep1Chunk (s : RatchetedSession β) (coins : ResponderCoins β) (h : ChunkHeader β)
    (header ciphertext : β) : RatchetedSession β × Result (ChunkOutcome β) :=
  -- a straggler of an attempt that is over
  if s.lastCompletedStep1Attempt = some h.attemptNonce then (s, .ok .stillAccumulating)
  else if s.pending.isSome then (s, .err .ratchetInProgress)
  else match openAead (deriveChunkKey s.rootKey h.attemptNonce labelChunkKeyStep1)
      (chunkNonce h.shardIndex) header ciphertext with
    | .error e => (s, .error e)
    | .ok shard =>
      let (slot, filed) := accumulateChunk s.incomingStep1Chunks h.attemptNonce (h.fields shard)
      let s := { s with incomingStep1Chunks := slot }
      match filed with
      | .error e => (s, .error e)
      | .ok none => (s, .ok .stillAccumulating)
      | .ok (some (reconstructed, dataShards, parityShards)) =>
        s.completeStep1 coins h.attemptNonce reconstructed dataShards parityShards

/-- `open_ratchet_chunk` on a chunk of the peer's step 2. -/
def openStep2Chunk (s : RatchetedSession β) (h : ChunkHeader β) (header ciphertext : β) :
    RatchetedSession β × Result (ChunkOutcome β) :=
  if s.lastCompletedStep2Attempt = some h.attemptNonce then (s, .ok .stillAccumulating)
  else if s.pending.isNone then (s, .err .wrongState)
  else match openAead (deriveChunkKey s.rootKey h.attemptNonce labelChunkKeyStep2)
      (chunkNonce h.shardIndex) header ciphertext with
    | .error e => (s, .error e)
    | .ok shard =>
      let (slot, filed) := accumulateChunk s.incomingStep2Chunks h.attemptNonce (h.fields shard)
      let s := { s with incomingStep2Chunks := slot }
      match filed with
      | .error e => (s, .error e)
      | .ok none => (s, .ok .stillAccumulating)
      | .ok (some (reconstructed, _, _)) => s.completeStep2 h.attemptNonce reconstructed

/-- `open_ratchet_chunk`. -/
def openRatchetChunk (s : RatchetedSession β) (coins : ResponderCoins β) (bytes : β) :
    RatchetedSession β × Result (ChunkOutcome β) :=
  match parseChunkHeader bytes with
  | .error e => (s, .error e)
  | .ok (h, header, ciphertext) =>
    if h.msgType = msgRatchetStep1Chunk then s.openStep1Chunk coins h header ciphertext
    else if h.msgType = msgRatchetStep2Chunk then s.openStep2Chunk h header ciphertext
    else (s, .err (.malformed "unknown ratchet chunk message type"))

end RatchetedSession

end Definitions

end Ratchet

end NovaChannel
