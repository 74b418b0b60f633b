import NovaChannel.Kex

/-!
# Erasure-coded chunks

The incremental ratchet step splits its key material into chunks: `Erasure.encode` and
`Erasure.decode` around a third-party Reed-Solomon code, one sealed record per shard
(`buildChunkRecords`), and `accumulateChunk`, which files the shards of one attempt until there
are enough of them.
-/

namespace NovaChannel

/-- The third-party erasure code, over shards of one even length. -/
class ReedSolomon (β : Type) where
  /-- The recovery shards of the original ones. -/
  encode (originalCount recoveryCount : ℕ) : List β → Option (List β)
  /-- The missing original shards, by their index. -/
  decode (originalCount recoveryCount : ℕ) (original recovery : List (ℕ × β)) :
    Option (List (ℕ × β))

/-- The third-party code accepts shards of one even length in every supported number. -/
class LawfulReedSolomon (β : Type) [ByteString β] [ReedSolomon β] : Prop where
  encode_isSome {originalCount recoveryCount n : ℕ} {data : List β} :
    0 < originalCount → 0 < recoveryCount → originalCount + recoveryCount ≤ 255 →
    data.length = originalCount → n % 2 = 0 → 0 < n →
    (∀ shard ∈ data, ByteString.len shard = n) →
    (ReedSolomon.encode originalCount recoveryCount data).isSome

open Crypto ByteString

/-- A big-endian number in a field of `width` bytes. -/
def readNum {β : Type} [Crypto β] (width : ℕ) (bytes : β) : Option ℕ :=
  (unnum bytes).filter (· < 256 ^ width)

/-- A number that fits its field reads back. -/
theorem readNum_eq_some {β : Type} [Crypto β] [LawfulCrypto β] {width n : ℕ} (h : n < 256 ^ width)
    (h' : n < 2 ^ 64) : readNum width (num n : β) = some n := by
  rw [readNum, LawfulCrypto.unnum_num h', Option.filter_some, decide_eq_true h]
  rfl

namespace Erasure

/-- `check_shard_counts`. -/
def checkShardCounts (dataShards parityShards : ℕ) : Result Unit :=
  if dataShards = 0 ∨ parityShards = 0 then
    .err (.malformed "invalid erasure-coding shard counts")
  else match checkedAdd64 dataShards parityShards with
    | none => .error .panic
    | some total =>
      if total > 255 then .err (.malformed "invalid erasure-coding shard counts") else .ok ()

/-- The length of one shard: even, and at least two. -/
def shardLen (payloadLen dataShards : ℕ) : ℕ :=
  let n := max ((payloadLen + dataShards - 1) / dataShards) 1
  if n % 2 = 0 then n else n + 1

theorem shardLen_even (payloadLen dataShards : ℕ) : shardLen payloadLen dataShards % 2 = 0 := by
  simp only [shardLen]
  split <;> omega

theorem shardLen_pos (payloadLen dataShards : ℕ) : 0 < shardLen payloadLen dataShards := by
  simp only [shardLen]
  split <;> omega

/-- One data shard holds the whole payload. -/
theorem le_shardLen_one (payloadLen : ℕ) : payloadLen ≤ shardLen payloadLen 1 := by
  simp only [shardLen, Nat.div_one]
  split <;> omega

section Definitions

variable {β : Type} [ByteString β] [ReedSolomon β]

/-- The payload cut into zero-padded shards. -/
def dataShards (payload : β) (count : ℕ) : List β :=
  (List.range count).map fun i =>
    window (i * shardLen (len payload) count) (shardLen (len payload) count) payload

/-- `encode`. -/
def encode (payload : β) (dataShards parityShards : ℕ) : Result (List β × ℕ) := do
  checkShardCounts dataShards parityShards
  let data := Erasure.dataShards payload dataShards
  match ReedSolomon.encode dataShards parityShards data with
  | none => .err (.malformed "erasure encoding failed")
  | some parity => pure (data ++ parity, shardLen (len payload) dataShards)

/-- The shards present, with their indices. -/
def present (shards : List (Option β)) : List (ℕ × β) :=
  shards.zipIdx.filterMap fun s => s.1.map (s.2, ·)

/-- The original shards in order, the missing ones from what was restored. -/
def fill (shards : List (Option β)) (restored : List (ℕ × β)) : Result (List β) :=
  shards.zipIdx.mapM fun s =>
    match s.1 with
    | some shard => .ok shard
    | none =>
      match restored.lookup s.2 with
      | some shard => .ok shard
      | none => .err (.malformed "erasure reconstruction did not restore shard")

/-- The end of `decode`: missing data shards are restored by the code. -/
def restore (shards : List (Option β)) (dataShards parityShards : ℕ) : Result β :=
  let original := present (shards.take dataShards)
  let recovery := present (shards.drop dataShards)
  match ReedSolomon.decode dataShards parityShards original recovery with
  | none => .err (.malformed "erasure reconstruction failed")
  | some restored => do
    let filled ← fill (shards.take dataShards) restored
    pure (concat filled)

/-- `decode`. -/
def decode (shards : List (Option β)) (dataShards parityShards : ℕ) : Result β := do
  checkShardCounts dataShards parityShards
  if shards.length ≠ dataShards + parityShards then
    .err (.malformed "wrong number of erasure-coded shards")
  else if (shards.filter Option.isSome).length < dataShards then
    .err (.malformed "too few shards to reconstruct")
  else match shards.filterMap id with
    | [] => .error .panic
    | first :: others =>
      if others.any (fun shard => len shard ≠ len first) then
        .err (.malformed "erasure-coded shards have inconsistent length")
      else if len first % 2 ≠ 0 then
        .err (.malformed "erasure-coded shard length must be even")
      -- nothing lost among the data shards
      else if (shards.take dataShards).all Option.isSome then
        pure (concat ((shards.take dataShards).filterMap id))
      else restore shards dataShards parityShards

end Definitions

end Erasure

namespace Ratchet

/-- What precedes the ciphertext of a chunk. -/
structure ChunkHeader (β : Type) where
  msgType : ℕ
  attemptNonce : β
  shardIndex : ℕ
  dataShards : ℕ
  parityShards : ℕ
  originalLen : ℕ
  checksum : β

/-- One opened chunk. -/
structure ChunkFields (β : Type) where
  shardIndex : ℕ
  dataShards : ℕ
  parityShards : ℕ
  originalLen : ℕ
  checksum : β
  shard : β

/-- The fields of an opened chunk. -/
def ChunkHeader.fields {β : Type} (h : ChunkHeader β) (shard : β) : ChunkFields β :=
  ⟨h.shardIndex, h.dataShards, h.parityShards, h.originalLen, h.checksum, shard⟩

/-- The chunks of one attempt, as far as they have arrived. -/
structure ChunkAccumulator (β : Type) where
  attemptNonce : β
  dataShards : ℕ
  parityShards : ℕ
  originalLen : ℕ
  checksum : β
  shards : List (Option β)
  deriving DecidableEq

/-- `received_count`. -/
def ChunkAccumulator.receivedCount {β : Type} (acc : ChunkAccumulator β) : ℕ :=
  (acc.shards.filter Option.isSome).length

section Definitions

variable {β : Type} [Crypto β]

/-- `LABEL_CHUNK_KEY_STEP1`. -/
def labelChunkKeyStep1 : β := lit "novachannel ratchet v1 incremental chunk key step1"
/-- `LABEL_CHUNK_KEY_STEP2`. -/
def labelChunkKeyStep2 : β := lit "novachannel ratchet v1 incremental chunk key step2"

/-- `truncated_checksum`. -/
def truncatedChecksum (data : β) : β := slice 0 8 (sha256 data)

/-- `derive_chunk_key`. -/
def deriveChunkKey (rootKey attemptNonce label : β) : β :=
  hkdfExpand 32 (hkdfExtract (some rootKey) attemptNonce) label

/-- `chunk_nonce`. -/
def chunkNonce (shardIndex : ℕ) : β := num shardIndex

/-- `open_chunk`, as `open_with_message_key`, fails with `Error::Decrypt` only. -/
def openAead (key nonce aad record : β) : Result β :=
  match aeadDecrypt key nonce aad record with
  | some plaintext => .ok plaintext
  | none => .err .decrypt

/-- The header's bytes. -/
def ChunkHeader.write (h : ChunkHeader β) : β :=
  frame [num h.msgType, h.attemptNonce, num h.shardIndex, num h.dataShards, num h.parityShards,
    num h.originalLen, h.checksum]

/-- The header's fields. -/
def ChunkHeader.read (bytes : β) : Option (ChunkHeader β) :=
  match unframe bytes with
  | some [msgType, attemptNonce, shardIndex, dataShards, parityShards, originalLen, checksum] => do
    some ⟨← readNum 1 msgType, attemptNonce, ← readNum 1 shardIndex, ← readNum 1 dataShards,
      ← readNum 1 parityShards, ← readNum 4 originalLen, checksum⟩
  | _ => none

/-- `parse_chunk_header`: the header, its bytes, and the ciphertext. -/
def parseChunkHeader (bytes : β) : Result (ChunkHeader β × β × β) :=
  match unframe bytes with
  | some (header :: ciphertext :: rest) =>
    match ChunkHeader.read header with
    | none => .err (.malformed "unexpected end of message")
    | some h =>
      if rest.isEmpty then .ok (h, header, ciphertext)
      else .err (.malformed "trailing bytes in ratchet chunk")
  | _ => .err (.malformed "unexpected end of message")

/-- One chunk record: `seal_chunk` under the header. -/
def chunkRecord (chunkKey : β) (h : ChunkHeader β) (shard : β) : β :=
  frame [h.write, aeadEncrypt chunkKey (chunkNonce h.shardIndex) h.write shard]

variable [ByteString β] [ReedSolomon β]

/-- `build_chunk_records`. -/
def buildChunkRecords (msgType : ℕ) (chunkKey attemptNonce payload : β)
    (dataShards parityShards : ℕ) : Result (List β) := do
  if len payload ≥ 2 ^ 32 then .err .tooLarge
  else
    let (shards, _) ← Erasure.encode payload dataShards parityShards
    pure (shards.zipIdx.map fun s =>
      chunkRecord chunkKey ⟨msgType, attemptNonce, s.2, dataShards, parityShards, len payload,
        truncatedChecksum payload⟩ s.1)

/-- The rest of `accumulate_chunk`, once the accumulator is in place. -/
def accumulateInto (acc : ChunkAccumulator β) (fields : ChunkFields β) [DecidableEq β] :
    Option (ChunkAccumulator β) × Result (Option (β × ℕ × ℕ)) :=
  if acc.dataShards ≠ fields.dataShards ∨ acc.parityShards ≠ fields.parityShards ∨
      acc.originalLen ≠ fields.originalLen ∨ acc.checksum ≠ fields.checksum then
    (some acc, .err (.malformed "chunk parameters do not match the in-progress reconstruction"))
  else
    let acc := { acc with shards := acc.shards.set fields.shardIndex (some fields.shard) }
    if acc.receivedCount < fields.dataShards then (some acc, .ok none)
    -- enough shards: the attempt is over, whatever comes of it
    else (none, do
      let reconstructed ← Erasure.decode acc.shards fields.dataShards fields.parityShards
      if acc.originalLen > len reconstructed then
        .err (.malformed "chunk reconstruction shorter than its declared length")
      else if truncatedChecksum (take acc.originalLen reconstructed) ≠ acc.checksum then
        .err (.malformed "chunk reconstruction checksum mismatch")
      else pure (some (take acc.originalLen reconstructed, fields.dataShards, fields.parityShards)))

/-- The accumulator a chunk of an attempt goes into: a new one on the attempt's first chunk. -/
def accumulatorFor (slot : Option (ChunkAccumulator β)) (attemptNonce : β)
    (fields : ChunkFields β) [DecidableEq β] : ChunkAccumulator β :=
  let fresh : ChunkAccumulator β :=
    ⟨attemptNonce, fields.dataShards, fields.parityShards, fields.originalLen, fields.checksum,
      List.replicate (fields.dataShards + fields.parityShards) none⟩
  match slot with
  | some acc => if acc.attemptNonce = attemptNonce then acc else fresh
  | none => fresh

/-- `accumulate_chunk`. -/
def accumulateChunk (slot : Option (ChunkAccumulator β)) (attemptNonce : β)
    (fields : ChunkFields β) [DecidableEq β] :
    Option (ChunkAccumulator β) × Result (Option (β × ℕ × ℕ)) :=
  if fields.shardIndex ≥ fields.dataShards + fields.parityShards then
    (slot, .err (.malformed "chunk shard index out of range"))
  else accumulateInto (accumulatorFor slot attemptNonce fields) fields

end Definitions

end Ratchet

end NovaChannel
