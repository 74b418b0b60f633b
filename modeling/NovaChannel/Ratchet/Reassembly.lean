import NovaChannel.Ratchet.Shards
import NovaChannel.Ratchet.Steps
import NovaChannel.Ratchet.System

/-!
# The incremental step under losses

The chunks of one attempt reach the peer in any order, repeated or not at all, and so do the
chunks of the reply.  Fewer than `k` different chunks change nothing but what has been gathered;
the `k`-th completes the step, once; the others are ignored, although the root key they were
sealed under is gone by then.

* `openRatchetChunk_step1`, `openRatchetChunk_step2` : what one chunk of an attempt does;
* `Gathered` : where both sides are after any deliveries, as an invariant of `incrementalMachine`;
* `incremental_reassembly` : **every run of deliveries reassembles**, below the last epoch;
* `not_reassembled_last_epoch` : in epoch `2 ^ 32 - 1` the step panics.
-/

namespace NovaChannel

namespace Ratchet

open Crypto ByteString Kex RatchetedSession

/-- Honest key material passes every check: its exchanges contribute, its keys and ciphertexts
parse, and a message of the two fits the length field. -/
class LawfulExchange (β : Type) [Crypto β] [ByteString β] : Prop where
  wasContributory_diffieHellman (a b : β) :
    wasContributory (diffieHellman a (x25519Public b)) = true
  isMlKemPublic_mlKemPublic (sk : β) : isMlKemPublic (Crypto.mlKemPublic sk) = true
  isMlKemCiphertext_encapsulate (sk r : β) :
    isMlKemCiphertext (encapsulate (Crypto.mlKemPublic sk) r).1 = true
  len_exchange (b sk r : β) :
    len (frame [x25519Public b, (encapsulate (Crypto.mlKemPublic sk) r).1]) < 2 ^ 32

/-! ### One attempt -/

variable {β : Type} [Crypto β] [ByteString β] [ReedSolomon β]

/-- A message that is sent in chunks. -/
structure Attempt (β : Type) [Crypto β] [ByteString β] [ReedSolomon β] where
  nonce : β
  payload : β
  dataShards : ℕ
  parityShards : ℕ
  shards : List β × ℕ
  encoded : Erasure.encode payload dataShards parityShards = .ok shards
  short : len payload < 2 ^ 32

namespace Attempt

variable (a : Attempt β)

/-- The header of a chunk. -/
def header (msgType i : ℕ) : ChunkHeader β :=
  ⟨msgType, a.nonce, i, a.dataShards, a.parityShards, len a.payload, truncatedChecksum a.payload⟩

/-- The chunk records. -/
def records (msgType : ℕ) (key : β) : List β :=
  a.shards.1.zipIdx.map fun s => chunkRecord key (a.header msgType s.2) s.1

/-- What is kept of the attempt once some of its chunks have arrived. -/
def gathered (numbers : Finset ℕ) : ChunkAccumulator β :=
  ⟨a.nonce, a.dataShards, a.parityShards, len a.payload, truncatedChecksum a.payload,
    Erasure.arrived a.shards.1 numbers⟩

/-- The slot holds what has arrived of the attempt, or something of another attempt if nothing
has. -/
def Holds (numbers : Finset ℕ) (slot : Option (ChunkAccumulator β)) : Prop :=
  slot = some (a.gathered numbers) ∨
    numbers = ∅ ∧ ∀ acc, slot = some acc → acc.attemptNonce ≠ a.nonce

theorem dataShards_pos : 0 < a.dataShards := (Erasure.encode_eq_ok a.encoded).1

theorem counts_le : a.dataShards + a.parityShards ≤ 255 := (Erasure.encode_eq_ok a.encoded).2.2.1

/-- The records of a message are those of an attempt. -/
theorem of_buildChunkRecords {msgType : ℕ} {key nonce payload : β} {d p : ℕ} {records : List β}
    (h : buildChunkRecords msgType key nonce payload d p = .ok records) :
    ∃ a : Attempt β, a.nonce = nonce ∧ a.payload = payload ∧ a.dataShards = d ∧
      a.parityShards = p ∧ a.records msgType key = records := by
  have hlt : len payload < 2 ^ 32 := by
    unfold buildChunkRecords at h
    split_ifs at h with hge
    exact not_le.1 hge
  obtain ⟨shards, hencode, rfl⟩ := buildChunkRecords_eq_ok h
  exact ⟨⟨nonce, payload, d, p, shards, hencode, hlt⟩, rfl, rfl, rfl, rfl, rfl⟩

/-- A short message can be sent in any supported number of chunks. -/
theorem exists_buildChunkRecords [LawfulByteString β] [LawfulReedSolomon β] {payload : β}
    {d p : ℕ} (hd : 0 < d) (hp : 0 < p) (hmax : d + p ≤ 255) (hlen : len payload < 2 ^ 32)
    (msgType : ℕ) (key nonce : β) :
    ∃ records, buildChunkRecords msgType key nonce payload d p = .ok records := by
  have hsome : (ReedSolomon.encode d p (Erasure.dataShards payload d)).isSome :=
    LawfulReedSolomon.encode_isSome hd hp hmax Erasure.length_dataShards
      (Erasure.shardLen_even _ _) (Erasure.shardLen_pos _ _)
      fun shard hshard => Erasure.len_of_mem_dataShards hshard
  obtain ⟨parity, hparity⟩ := Option.isSome_iff_exists.1 hsome
  have hencode : Erasure.encode payload d p =
      .ok (Erasure.dataShards payload d ++ parity, Erasure.shardLen (len payload) d) := by
    simp only [Erasure.encode, Erasure.checkShardCounts_eq_ok.2 ⟨hd, hp, hmax⟩, Result.ok_bind,
      hparity]
    rfl
  unfold buildChunkRecords
  rw [if_neg (by omega), hencode]
  exact ⟨_, rfl⟩

section Filing

variable [LawfulByteString β] [RestoringReedSolomon β] {a} {numbers : Finset ℕ}

theorem length_shards : a.shards.1.length = a.dataShards + a.parityShards :=
  (Erasure.encode_shape a.encoded).1

variable [DecidableEq β] {slot : Option (ChunkAccumulator β)} {t i : ℕ}

/-- The first chunk of an attempt starts afresh, the others go where the first one went. -/
theorem Holds.accumulatorFor (h : a.Holds numbers slot) (shard : β) :
    accumulatorFor slot a.nonce ((a.header t i).fields shard) = a.gathered numbers := by
  rcases h with rfl | ⟨rfl, hother⟩
  · exact if_pos rfl
  · rw [gathered, Erasure.arrived_empty, length_shards]
    cases slot with
    | none => rfl
    | some acc => exact if_neg (hother acc rfl)

omit [LawfulByteString β] [RestoringReedSolomon β] in
/-- A chunk with the parameters of the accumulator is filed in it. -/
theorem accumulateInto_eq {acc acc' : ChunkAccumulator β} {fields : ChunkFields β}
    (hagree : ¬ (acc.dataShards ≠ fields.dataShards ∨ acc.parityShards ≠ fields.parityShards ∨
      acc.originalLen ≠ fields.originalLen ∨ acc.checksum ≠ fields.checksum))
    (hacc : { acc with shards := acc.shards.set fields.shardIndex (some fields.shard) } = acc') :
    accumulateInto acc fields =
      if acc'.receivedCount < fields.dataShards then (some acc', .ok none)
      else (none, do
        let reconstructed ← Erasure.decode acc'.shards fields.dataShards fields.parityShards
        if acc'.originalLen > len reconstructed then
          .err (.malformed "chunk reconstruction shorter than its declared length")
        else if truncatedChecksum (take acc'.originalLen reconstructed) ≠ acc'.checksum then
          .err (.malformed "chunk reconstruction checksum mismatch")
        else pure (some (take acc'.originalLen reconstructed, fields.dataShards,
          fields.parityShards))) := by
  subst hacc
  exact if_neg hagree

/-- A chunk is filed; the one that makes them enough gives the payload back. -/
theorem Holds.accumulateChunk (h : a.Holds numbers slot)
    (hsub : numbers ⊆ Finset.range a.shards.1.length) (hi : i < a.shards.1.length) :
    accumulateChunk slot a.nonce ((a.header t i).fields a.shards.1[i]) =
      if (insert i numbers).card < a.dataShards then
        (some (a.gathered (insert i numbers)), .ok none)
      else (none, .ok (some (a.payload, a.dataShards, a.parityShards))) := by
  have hrange : ¬ i ≥ a.dataShards + a.parityShards := by
    rw [← length_shards]
    exact not_le.2 hi
  have hsub' : insert i numbers ⊆ Finset.range a.shards.1.length :=
    Finset.insert_subset (Finset.mem_range.2 hi) hsub
  have hcount : (ChunkAccumulator.receivedCount (a.gathered (insert i numbers))) =
      (insert i numbers).card := Erasure.count_arrived hsub'
  have hset : (a.gathered numbers).shards.set i (some a.shards.1[i]) =
      (a.gathered (insert i numbers)).shards := Erasure.set_arrived hi
  have hagree : ¬ ((a.gathered numbers).dataShards ≠ a.dataShards ∨
      (a.gathered numbers).parityShards ≠ a.parityShards ∨
      (a.gathered numbers).originalLen ≠ len a.payload ∨
      (a.gathered numbers).checksum ≠ truncatedChecksum a.payload) := by
    simp [gathered]
  have hacc : { a.gathered numbers with
      shards := (a.gathered numbers).shards.set i (some a.shards.1[i]) } =
      a.gathered (insert i numbers) := congrArg _ hset
  unfold Ratchet.accumulateChunk
  rw [h.accumulatorFor, accumulateInto_eq hagree hacc, hcount]
  refine (if_neg hrange).trans ?_
  by_cases hfew : (insert i numbers).card < a.dataShards
  · rw [if_pos hfew]
    exact if_pos hfew
  · have hdecode : Erasure.decode (a.gathered (insert i numbers)).shards a.dataShards
        a.parityShards = .ok (concat (Erasure.dataShards a.payload a.dataShards)) :=
      Erasure.decode_arrived a.encoded hsub' (not_lt.1 hfew)
    have hlong : len a.payload ≤ len (concat (Erasure.dataShards a.payload a.dataShards)) :=
      Erasure.le_len_concat_dataShards a.dataShards_pos
    have htake : take (len a.payload) (concat (Erasure.dataShards a.payload a.dataShards)) =
      a.payload := Erasure.take_concat_dataShards a.dataShards_pos
    rw [if_neg hfew]
    refine (if_neg hfew).trans (Prod.ext rfl ?_)
    simp only [ChunkHeader.fields, header, hdecode, Result.ok_bind]
    simp only [gathered, hlong.not_gt, ↓reduceIte, htake, ne_eq, not_true_eq_false,
      Result.pure_eq_ok]

end Filing

/-! ### Reading a record -/

section Reading

variable [LawfulCrypto β] {a} {t i : ℕ} {key record : β}

omit [ByteString β] [ReedSolomon β] in
/-- A header whose numbers fit their fields reads back. -/
theorem read_write {h : ChunkHeader β} (ht : h.msgType < 256) (hi : h.shardIndex < 256)
    (hd : h.dataShards < 256) (hp : h.parityShards < 256) (hlen : h.originalLen < 2 ^ 32) :
    ChunkHeader.read h.write = some h := by
  have hu : ∀ l : List β, unframe (frame l) = some l := LawfulCrypto.unframe_frame
  simp only [ChunkHeader.read, ChunkHeader.write, hu,
    readNum_eq_some (show h.msgType < 256 ^ 1 by omega) (by omega),
    readNum_eq_some (show h.shardIndex < 256 ^ 1 by omega) (by omega),
    readNum_eq_some (show h.dataShards < 256 ^ 1 by omega) (by omega),
    readNum_eq_some (show h.parityShards < 256 ^ 1 by omega) (by omega),
    readNum_eq_some (show h.originalLen < 256 ^ 4 by omega) (by omega)]
  rfl

/-- Every record of an attempt is one chunk, and parses. -/
theorem parse_record [LawfulByteString β] [RestoringReedSolomon β] (ht : t < 256)
    (hrecord : (a.records t key)[i]? = some record) :
    ∃ hi : i < a.shards.1.length, parseChunkHeader record =
      .ok (a.header t i, (a.header t i).write,
        aeadEncrypt key (chunkNonce i) (a.header t i).write a.shards.1[i]) := by
  rw [records, List.getElem?_map, List.getElem?_zipIdx] at hrecord
  obtain ⟨⟨shard, j⟩, hshard, rfl⟩ := Option.map_eq_some_iff.1 hrecord
  obtain ⟨shard', hget, hpair⟩ := Option.map_eq_some_iff.1 hshard
  obtain ⟨hi, hget⟩ := List.getElem?_eq_some_iff.1 hget
  obtain ⟨rfl, rfl⟩ := Prod.mk.inj hpair
  have hmax := a.counts_le
  have hcount : i < a.dataShards + a.parityShards := by
    rw [← length_shards]
    exact hi
  have hread : ChunkHeader.read (a.header t i).write = some (a.header t i) :=
    read_write ht (show i < 256 by omega) (show a.dataShards < 256 by omega)
      (show a.parityShards < 256 by omega) a.short
  have hu : ∀ l : List β, unframe (frame l) = some l := LawfulCrypto.unframe_frame
  refine ⟨hi, ?_⟩
  rw [parseChunkHeader, chunkRecord, hu]
  simp only [Nat.zero_add, hread, List.isEmpty_nil, ↓reduceIte, hget]
  rfl

end Reading

end Attempt

/-! ### One chunk -/

section Chunk

variable [LawfulCrypto β] [LawfulByteString β] [RestoringReedSolomon β] [DecidableEq β]
  {a : Attempt β} {r : RatchetedSession β} {numbers : Finset ℕ} {i : ℕ} {key record : β}

/-- A chunk of a step 1 is filed, and the one that makes them enough completes the step. -/
theorem openRatchetChunk_step1 (hslot : a.Holds numbers r.incomingStep1Chunks)
    (hsub : numbers ⊆ Finset.range a.shards.1.length)
    (hlast : r.lastCompletedStep1Attempt ≠ some a.nonce) (hidle : r.pending = none)
    (hrecord : (a.records msgRatchetStep1Chunk
      (deriveChunkKey r.rootKey a.nonce labelChunkKeyStep1))[i]? = some record)
    (coins : ResponderCoins β) :
    r.openRatchetChunk coins record =
      if (insert i numbers).card < a.dataShards then
        ({ r with incomingStep1Chunks := some (a.gathered (insert i numbers)) },
          .ok .stillAccumulating)
      else { r with incomingStep1Chunks := none }.completeStep1 coins a.nonce a.payload
        a.dataShards a.parityShards := by
  obtain ⟨hi, hparse⟩ := Attempt.parse_record (by decide) hrecord
  have hopen : openAead (deriveChunkKey r.rootKey a.nonce labelChunkKeyStep1) (chunkNonce i)
      (a.header msgRatchetStep1Chunk i).write
      (aeadEncrypt (deriveChunkKey r.rootKey a.nonce labelChunkKeyStep1) (chunkNonce i)
        (a.header msgRatchetStep1Chunk i).write a.shards.1[i]) = .ok a.shards.1[i] :=
    openAead_eq_ok.2 (LawfulCrypto.aeadDecrypt_aeadEncrypt _ _ _ _)
  have hacc := hslot.accumulateChunk (t := msgRatchetStep1Chunk) hsub hi
  have hsome : ¬ r.pending.isSome = true := by simp [hidle]
  have htype : (a.header msgRatchetStep1Chunk i).msgType = msgRatchetStep1Chunk := rfl
  have hnonce : (a.header msgRatchetStep1Chunk i).attemptNonce = a.nonce := rfl
  have hindex : (a.header msgRatchetStep1Chunk i).shardIndex = i := rfl
  rw [openRatchetChunk, hparse]
  simp only [htype, ↓reduceIte, openStep1Chunk, hnonce, hlast, hsome, Bool.false_eq_true, hindex,
    hopen, hacc]
  split_ifs with hfew <;> rfl

/-- A chunk of a step 1 that is over changes nothing, whatever key it was sealed under. -/
theorem openRatchetChunk_over1 (hlast : r.lastCompletedStep1Attempt = some a.nonce)
    (hrecord : (a.records msgRatchetStep1Chunk key)[i]? = some record) (coins : ResponderCoins β) :
    r.openRatchetChunk coins record = (r, .ok .stillAccumulating) := by
  obtain ⟨hi, hparse⟩ := Attempt.parse_record (by decide) hrecord
  rw [openRatchetChunk, hparse]
  refine (if_pos rfl).trans ?_
  rw [openStep1Chunk]
  exact if_pos hlast

/-- A chunk of a step 2 is filed, and the one that makes them enough completes the step. -/
theorem openRatchetChunk_step2 (hslot : a.Holds numbers r.incomingStep2Chunks)
    (hsub : numbers ⊆ Finset.range a.shards.1.length)
    (hlast : r.lastCompletedStep2Attempt ≠ some a.nonce) (hwait : r.pending.isSome)
    (hrecord : (a.records msgRatchetStep2Chunk
      (deriveChunkKey r.rootKey a.nonce labelChunkKeyStep2))[i]? = some record)
    (coins : ResponderCoins β) :
    r.openRatchetChunk coins record =
      if (insert i numbers).card < a.dataShards then
        ({ r with incomingStep2Chunks := some (a.gathered (insert i numbers)) },
          .ok .stillAccumulating)
      else { r with incomingStep2Chunks := none }.completeStep2 a.nonce a.payload := by
  obtain ⟨hi, hparse⟩ := Attempt.parse_record (by decide) hrecord
  have hopen : openAead (deriveChunkKey r.rootKey a.nonce labelChunkKeyStep2) (chunkNonce i)
      (a.header msgRatchetStep2Chunk i).write
      (aeadEncrypt (deriveChunkKey r.rootKey a.nonce labelChunkKeyStep2) (chunkNonce i)
        (a.header msgRatchetStep2Chunk i).write a.shards.1[i]) = .ok a.shards.1[i] :=
    openAead_eq_ok.2 (LawfulCrypto.aeadDecrypt_aeadEncrypt _ _ _ _)
  have hacc := hslot.accumulateChunk (t := msgRatchetStep2Chunk) hsub hi
  have hnone : ¬ r.pending.isNone = true := by
    obtain ⟨kex, hkex⟩ := Option.isSome_iff_exists.1 hwait
    simp [hkex]
  have htype : (a.header msgRatchetStep2Chunk i).msgType = msgRatchetStep2Chunk := rfl
  have hother : ¬ msgRatchetStep2Chunk = msgRatchetStep1Chunk := by decide
  have hnonce : (a.header msgRatchetStep2Chunk i).attemptNonce = a.nonce := rfl
  have hindex : (a.header msgRatchetStep2Chunk i).shardIndex = i := rfl
  rw [openRatchetChunk, hparse]
  simp only [htype, hother, ↓reduceIte, openStep2Chunk, hnonce, hlast, hnone, Bool.false_eq_true,
    hindex, hopen, hacc]
  split_ifs with hfew <;> rfl

/-- A chunk of a step 2 that is over changes nothing. -/
theorem openRatchetChunk_over2 (hlast : r.lastCompletedStep2Attempt = some a.nonce)
    (hrecord : (a.records msgRatchetStep2Chunk key)[i]? = some record) (coins : ResponderCoins β) :
    r.openRatchetChunk coins record = (r, .ok .stillAccumulating) := by
  obtain ⟨hi, hparse⟩ := Attempt.parse_record (by decide) hrecord
  rw [openRatchetChunk, hparse]
  refine (if_neg (show ¬ msgRatchetStep2Chunk = msgRatchetStep1Chunk by decide)).trans ?_
  refine (if_pos rfl).trans ?_
  rw [openStep2Chunk]
  exact if_pos hlast

end Chunk

/-! ### Completing a step -/

section Complete

variable [LawfulCrypto β] [LawfulByteString β] [RestoringReedSolomon β] [LawfulExchange β]
  {r : RatchetedSession β} {x k : β} {out : ResponderKex β}

omit [ByteString β] [ReedSolomon β] [LawfulCrypto β] [LawfulByteString β] [RestoringReedSolomon β]
  [LawfulExchange β] in
/-- The session after it answered a step. -/
def answeredStep (r : RatchetedSession β) (nonce : β) (out : ResponderKex β) :
    RatchetedSession β :=
  (({ r with incomingStep1Chunks := none }).advanced r.sendEpoch
    (deriveNextEpoch r.rootKey out.sharedSecret false)).completed (some nonce)
    r.lastCompletedStep2Attempt

/-- The session after its own step was answered. -/
def finishedStep (s : RatchetedSession β) (nonce : β) (out : ResponderKex β) :
    RatchetedSession β :=
  (({ s with incomingStep2Chunks := none }).usedUp.advanced s.sendEpoch
    (deriveNextEpoch s.rootKey out.sharedSecret true)).completed s.lastCompletedStep1Attempt
    (some nonce)

omit [Crypto β] [ByteString β] [ReedSolomon β] [LawfulCrypto β] [LawfulByteString β]
  [RestoringReedSolomon β] [LawfulExchange β] in
theorem advanceEpoch_of_lt {epoch : ℕ} (hlt : epoch + 1 < 2 ^ 32) {keys : β × β × β} :
    r.advanceEpoch epoch keys = .ok (r.advanced epoch keys) := if_pos hlt

/-- An honest step 1 is answered, in as many chunks as it came in. -/
theorem completeStep1_generate {d p : ℕ} (hd : 0 < d) (hp : 0 < p) (hmax : d + p ≤ 255)
    (hlt : r.sendEpoch + 1 < 2 ^ 32) (nonce : β) (coins : ResponderCoins β) :
    ∃ (out : ResponderKex β) (reply : Attempt β),
      responderExchange coins.x25519Secret coins.kemRandom (InitiatorKex.generate x k).x25519Public
        (InitiatorKex.generate x k).mlKemPublic = .ok out ∧
      reply.nonce = coins.attemptNonce ∧ reply.payload = step2Payload out ∧
      reply.dataShards = d ∧ reply.parityShards = p ∧
      { r with incomingStep1Chunks := none }.completeStep1 coins nonce
        (step1Payload (.generate x k)) d p =
        (answeredStep r nonce out, .ok (.step1Complete (reply.records msgRatchetStep2Chunk
          (deriveChunkKey r.rootKey coins.attemptNonce labelChunkKeyStep2)))) := by
  have hout : responderExchange coins.x25519Secret coins.kemRandom
      (InitiatorKex.generate x k).x25519Public (InitiatorKex.generate x k).mlKemPublic =
      .ok ⟨Crypto.x25519Public coins.x25519Secret,
        (encapsulate (Crypto.mlKemPublic k) coins.kemRandom).1,
        frame [diffieHellman coins.x25519Secret (Crypto.x25519Public x),
          (encapsulate (Crypto.mlKemPublic k) coins.kemRandom).2]⟩ := by
    have hdh := LawfulExchange.wasContributory_diffieHellman coins.x25519Secret x
    simp only [responderExchange, InitiatorKex.generate, Group.checkedDh, hdh, ↓reduceIte,
      Result.ok_bind]
    rfl
  have hread : readExchange mlKemPublicFromBytes "trailing bytes in reconstructed ratchet step1"
      (step1Payload (InitiatorKex.generate x k)) =
      .ok ((InitiatorKex.generate x k).x25519Public, (InitiatorKex.generate x k).mlKemPublic) := by
    have hkey := LawfulExchange.isMlKemPublic_mlKemPublic k
    simp [readExchange, step1Payload, InitiatorKex.generate, mlKemPublicFromBytes, hkey]
  obtain ⟨records, hrecords⟩ := Attempt.exists_buildChunkRecords hd hp hmax
    (LawfulExchange.len_exchange coins.x25519Secret k coins.kemRandom) msgRatchetStep2Chunk
    (deriveChunkKey r.rootKey coins.attemptNonce labelChunkKeyStep2) coins.attemptNonce
  obtain ⟨reply, hn, hpay, hd', hp', rfl⟩ := Attempt.of_buildChunkRecords hrecords
  refine ⟨_, reply, hout, hn, hpay, hd', hp', ?_⟩
  simp only [completeStep1, hread, Result.ok_bind, hout, hrecords, advanceEpoch_of_lt hlt,
    Result.pure_eq_ok]
  rfl

omit [ReedSolomon β] [LawfulByteString β] [RestoringReedSolomon β] in
/-- The honest reply finishes the step. -/
theorem completeStep2_generate (hwait : r.pending = some (.generate x k))
    (hlt : r.sendEpoch + 1 < 2 ^ 32) {coins : ResponderCoins β}
    (hout : responderExchange coins.x25519Secret coins.kemRandom
      (InitiatorKex.generate x k).x25519Public (InitiatorKex.generate x k).mlKemPublic = .ok out)
    (nonce : β) :
    { r with incomingStep2Chunks := none }.completeStep2 nonce (step2Payload out) =
      (finishedStep r nonce out, .ok .step2Complete) := by
  have hfinish := finish_responderExchange hout
  have hread : readExchange mlKemCiphertextFromBytes
      "trailing bytes in reconstructed ratchet step2" (step2Payload out) =
      .ok (out.x25519Public, out.mlKemCiphertext) := by
    obtain ⟨-, rfl⟩ := responderExchange_eq_ok hout
    have hct := LawfulExchange.isMlKemCiphertext_encapsulate k coins.kemRandom
    simp [readExchange, step2Payload, InitiatorKex.generate, mlKemCiphertextFromBytes, hct]
  simp only [completeStep2, hread, hwait, hfinish, Result.ok_bind, advanceEpoch_of_lt hlt]
  rfl

end Complete

/-! ### Deliveries -/

/-- Both sides of one attempt, with the chunks on the way, the numbers of those that were
delivered, and what the calls returned. -/
structure Incremental (β : Type) where
  initiator : RatchetedSession β
  responder : RatchetedSession β
  step1 : List β
  step2 : List β
  delivered1 : Finset ℕ
  delivered2 : Finset ℕ
  outcomes1 : List (Result (ChunkOutcome β))
  outcomes2 : List (Result (ChunkOutcome β))

/-- A chunk is delivered, with the randomness the call would draw. -/
inductive ChunkDelivery (β : Type)
  | toResponder (coins : ResponderCoins β) (i : ℕ)
  | toInitiator (coins : ResponderCoins β) (i : ℕ)

/-- The randomness of the call. -/
def ChunkDelivery.coins : ChunkDelivery β → ResponderCoins β
  | .toResponder coins _ => coins
  | .toInitiator coins _ => coins

/-- The chunks that a call hands out. -/
def replyRecords : Result (ChunkOutcome β) → List β
  | .ok (.step1Complete records) => records
  | _ => []

/-- The call did more than file a chunk. -/
def completes : Result (ChunkOutcome β) → Bool
  | .ok .stillAccumulating => false
  | _ => true

namespace Incremental

/-- Nothing is delivered yet. -/
def start (initiator responder : RatchetedSession β) (step1 : List β) : Incremental β where
  initiator := initiator
  responder := responder
  step1 := step1
  step2 := []
  delivered1 := ∅
  delivered2 := ∅
  outcomes1 := []
  outcomes2 := []

variable [DecidableEq β]

/-- The responder opens a chunk. -/
def toResponder (w : Incremental β) (coins : ResponderCoins β) (i : ℕ) (record : β) :
    Incremental β :=
  let (responder, outcome) := w.responder.openRatchetChunk coins record
  { w with
    responder
    step2 := w.step2 ++ replyRecords outcome
    delivered1 := insert i w.delivered1
    outcomes1 := outcome :: w.outcomes1 }

/-- The initiator opens a chunk. -/
def toInitiator (w : Incremental β) (coins : ResponderCoins β) (i : ℕ) (record : β) :
    Incremental β :=
  let (initiator, outcome) := w.initiator.openRatchetChunk coins record
  { w with
    initiator
    delivered2 := insert i w.delivered2
    outcomes2 := outcome :: w.outcomes2 }

/-- A delivery of a chunk that was sent. -/
def step (w : Incremental β) : ChunkDelivery β → Option (Incremental β)
  | .toResponder coins i => w.step1[i]?.map (w.toResponder coins i)
  | .toInitiator coins i => w.step2[i]?.map (w.toInitiator coins i)

end Incremental

/-- Deliveries in any order. -/
def incrementalMachine [DecidableEq β] : Machine (Incremental β) (ChunkDelivery β) where
  init w := ∃ initiator responder step1, w = .start initiator responder step1
  step := Incremental.step

section Runs

variable [LawfulCrypto β] [LawfulByteString β] [RestoringReedSolomon β] [LawfulExchange β]
  [DecidableEq β]

/-- The responder's side once some chunks of the step 1 have arrived. -/
inductive Responding (r : RatchetedSession β) (x k : β) (a : Attempt β) (ok : β → Prop)
    (w : Incremental β) : Option (ResponderKex β × Attempt β) → Prop
  | waiting (slot : Option (ChunkAccumulator β)) (few : w.delivered1.card < a.dataShards)
      (holds : a.Holds w.delivered1 slot)
      (responder : w.responder = { r with incomingStep1Chunks := slot }) (step2 : w.step2 = [])
      (outcomes : w.outcomes1.filter completes = []) : Responding r x k a ok w none
  | done (coins : ResponderCoins β) (out : ResponderKex β) (reply : Attempt β)
      (enough : a.dataShards ≤ w.delivered1.card)
      (exchange : responderExchange coins.x25519Secret coins.kemRandom
        (InitiatorKex.generate x k).x25519Public (InitiatorKex.generate x k).mlKemPublic = .ok out)
      (fresh : ok reply.nonce) (payload : reply.payload = step2Payload out)
      (dataShards : reply.dataShards = a.dataShards)
      (parityShards : reply.parityShards = a.parityShards)
      (responder : w.responder = answeredStep r a.nonce out)
      (step2 : w.step2 = reply.records msgRatchetStep2Chunk
        (deriveChunkKey r.rootKey reply.nonce labelChunkKeyStep2))
      (outcomes : w.outcomes1.filter completes = [.ok (.step1Complete w.step2)]) :
      Responding r x k a ok w (some (out, reply))

/-- The initiator's side once some chunks of the reply have arrived. -/
inductive Awaiting (s : RatchetedSession β) (w : Incremental β) :
    Option (ResponderKex β × Attempt β) → Prop
  | unanswered (initiator : w.initiator = s) (delivered : w.delivered2 = ∅)
      (outcomes : w.outcomes2 = []) : Awaiting s w none
  | waiting (out : ResponderKex β) (reply : Attempt β) (slot : Option (ChunkAccumulator β))
      (few : w.delivered2.card < reply.dataShards)
      (sub : w.delivered2 ⊆ Finset.range reply.shards.1.length)
      (holds : reply.Holds w.delivered2 slot)
      (initiator : w.initiator = { s with incomingStep2Chunks := slot })
      (outcomes : w.outcomes2.filter completes = []) : Awaiting s w (some (out, reply))
  | done (out : ResponderKex β) (reply : Attempt β)
      (enough : reply.dataShards ≤ w.delivered2.card)
      (initiator : w.initiator = finishedStep s reply.nonce out)
      (outcomes : w.outcomes2.filter completes = [.ok .step2Complete]) :
      Awaiting s w (some (out, reply))

/-- Where both sides are after any deliveries. -/
structure Gathered (s r : RatchetedSession β) (x k : β) (a : Attempt β) (ok : β → Prop)
    (w : Incremental β) : Prop where
  step1 : w.step1 = a.records msgRatchetStep1Chunk
    (deriveChunkKey r.rootKey a.nonce labelChunkKeyStep1)
  sub : w.delivered1 ⊆ Finset.range a.shards.1.length
  sides : ∃ reply, Responding r x k a ok w reply ∧ Awaiting s w reply

/-- The attempt `a` is under way: the responder is idle and has not met it, the initiator waits
for the reply and has met no nonce that is `ok`. -/
structure UnderWay (s r : RatchetedSession β) (x k : β) (a : Attempt β) (ok : β → Prop) :
    Prop where
  payload : a.payload = step1Payload (.generate x k)
  idle : r.pending = none
  last1 : r.lastCompletedStep1Attempt ≠ some a.nonce
  lt : r.sendEpoch + 1 < 2 ^ 32
  pending : s.pending = some (.generate x k)
  rootKey : s.rootKey = r.rootKey
  sendEpoch : s.sendEpoch = r.sendEpoch
  last2 (n : β) : ok n → s.lastCompletedStep2Attempt ≠ some n
  slot2 (n : β) : ok n → ∀ acc, s.incomingStep2Chunks = some acc → acc.attemptNonce ≠ n

variable {s r : RatchetedSession β} {x k : β} {a : Attempt β} {ok : β → Prop}
  {w w' : Incremental β} {coins : ResponderCoins β} {i : ℕ} {record : β}

omit [LawfulCrypto β] [LawfulByteString β] [RestoringReedSolomon β] [LawfulExchange β] in
theorem toResponder_eq {r' : RatchetedSession β} {o : Result (ChunkOutcome β)}
    (h : w.responder.openRatchetChunk coins record = (r', o)) :
    w.toResponder coins i record = { w with
      responder := r'
      step2 := w.step2 ++ replyRecords o
      delivered1 := insert i w.delivered1
      outcomes1 := o :: w.outcomes1 } := by
  rw [Incremental.toResponder, h]

omit [LawfulCrypto β] [LawfulByteString β] [RestoringReedSolomon β] [LawfulExchange β] in
theorem toInitiator_eq {s' : RatchetedSession β} {o : Result (ChunkOutcome β)}
    (h : w.initiator.openRatchetChunk coins record = (s', o)) :
    w.toInitiator coins i record = { w with
      initiator := s'
      delivered2 := insert i w.delivered2
      outcomes2 := o :: w.outcomes2 } := by
  rw [Incremental.toInitiator, h]

omit [LawfulCrypto β] [LawfulByteString β] [RestoringReedSolomon β] [LawfulExchange β]
  [DecidableEq β] in
/-- The initiator's side does not depend on the responder's. -/
theorem Awaiting.congr {reply : Option (ResponderKex β × Attempt β)} (h : Awaiting s w reply)
    (hi : w'.initiator = w.initiator) (hd : w'.delivered2 = w.delivered2)
    (ho : w'.outcomes2 = w.outcomes2) : Awaiting s w' reply := by
  cases h with
  | unanswered initiator delivered outcomes =>
    exact .unanswered (hi.trans initiator) (hd.trans delivered) (ho.trans outcomes)
  | waiting out reply slot few sub holds initiator outcomes =>
    rw [← hd] at few sub holds
    rw [← ho] at outcomes
    exact .waiting out reply slot few sub holds (hi.trans initiator) outcomes
  | done out reply enough initiator outcomes =>
    rw [← hd] at enough
    rw [← ho] at outcomes
    exact .done out reply enough (hi.trans initiator) outcomes

/-- One more chunk of the step 1. -/
theorem Gathered.toResponder (hs : UnderWay s r x k a ok) (h : Gathered s r x k a ok w)
    (hok : ok coins.attemptNonce) (hrecord : w.step1[i]? = some record) :
    Gathered s r x k a ok (w.toResponder coins i record) := by
  obtain ⟨hstep1, hsub, reply, hresponding, hawaiting⟩ := h
  rw [hstep1] at hrecord
  have hi : i < a.shards.1.length := (Attempt.parse_record (by decide) hrecord).1
  have hsub' : insert i w.delivered1 ⊆ Finset.range a.shards.1.length :=
    Finset.insert_subset (Finset.mem_range.2 hi) hsub
  cases hresponding with
  | waiting slot few holds responder step2 outcomes =>
    have hopen := openRatchetChunk_step1 (r := { r with incomingStep1Chunks := slot }) holds hsub
      hs.last1 hs.idle hrecord coins
    rw [← responder] at hopen
    by_cases hfew : (insert i w.delivered1).card < a.dataShards
    · rw [if_pos hfew] at hopen
      rw [toResponder_eq hopen]
      exact ⟨hstep1, hsub', none, .waiting _ hfew (.inl rfl) (by rw [responder])
        (by simp [step2, replyRecords]) (by simpa [completes] using outcomes),
        hawaiting.congr rfl rfl rfl⟩
    · rw [if_neg hfew, hs.payload] at hopen
      have hmax := a.counts_le
      have hpos : 0 < a.parityShards := (Erasure.encode_eq_ok a.encoded).2.1
      obtain ⟨out, reply, hout, hn, hpay, hd, hp, hdone⟩ := completeStep1_generate
        (r := w.responder) (x := x) (k := k) a.dataShards_pos hpos hmax
        (by rw [responder]; exact hs.lt) a.nonce coins
      rw [hdone] at hopen
      rw [toResponder_eq hopen]
      cases hawaiting with
      | unanswered initiator delivered outcomes2 =>
        refine ⟨hstep1, hsub', some (out, reply), .done coins out reply (not_lt.1 hfew) hout
          (by rwa [hn]) hpay hd hp (by rw [responder]; rfl) ?_ ?_, ?_⟩
        · simp [step2, replyRecords, hn, responder]
        · refine (List.filter_cons_of_pos rfl).trans ?_
          rw [outcomes, step2]
          rfl
        · refine .waiting out reply s.incomingStep2Chunks ?_ ?_ (.inr ⟨delivered, ?_⟩) initiator ?_
          · simp only [delivered, Finset.card_empty, hd]
            exact a.dataShards_pos
          · simp [delivered]
          · exact hs.slot2 _ (by rwa [hn])
          · simp [outcomes2]
  | done coins' out reply enough exchange fresh payload dataShards parityShards responder step2
      outcomes =>
    have hopen := openRatchetChunk_over1 (r := answeredStep r a.nonce out) rfl hrecord coins
    rw [← responder] at hopen
    rw [toResponder_eq hopen]
    refine ⟨hstep1, hsub', some (out, reply), .done coins' out reply
      (enough.trans (Finset.card_le_card (Finset.subset_insert _ _))) exchange fresh payload
      dataShards parityShards responder ?_ ?_, hawaiting.congr rfl rfl rfl⟩
    · simpa [replyRecords] using step2
    · simpa [replyRecords, completes] using outcomes

/-- One more chunk of the reply. -/
theorem Gathered.toInitiator (hs : UnderWay s r x k a ok) (h : Gathered s r x k a ok w)
    (hrecord : w.step2[i]? = some record) :
    Gathered s r x k a ok (w.toInitiator coins i record) := by
  obtain ⟨hstep1, hsub, reply, hresponding, hawaiting⟩ := h
  cases hresponding with
  | waiting slot few holds responder step2 outcomes =>
    rw [step2] at hrecord
    cases hrecord
  | done coins' out reply enough exchange fresh payload dataShards parityShards responder step2
      outcomes =>
    rw [step2] at hrecord
    have hi : i < reply.shards.1.length := (Attempt.parse_record (by decide) hrecord).1
    cases hawaiting with
    | waiting out reply slot few sub holds initiator outcomes2 =>
      have hwait : ({ s with incomingStep2Chunks := slot } : RatchetedSession β).pending.isSome := by
        rw [hs.pending, Option.isSome_some]
      have hopen := openRatchetChunk_step2 (r := { s with incomingStep2Chunks := slot }) holds sub
        (hs.last2 _ fresh) hwait (by rw [hs.rootKey]; exact hrecord) coins
      rw [← initiator] at hopen
      by_cases hfew : (insert i w.delivered2).card < reply.dataShards
      · rw [if_pos hfew] at hopen
        rw [toInitiator_eq hopen]
        exact ⟨hstep1, hsub, some (out, reply), .done coins' out reply enough exchange fresh payload
          dataShards parityShards responder step2 outcomes, .waiting out reply _ hfew
          (Finset.insert_subset (Finset.mem_range.2 hi) sub) (.inl rfl) (by rw [initiator])
          (by simpa [completes] using outcomes2)⟩
      · rw [if_neg hfew, payload, completeStep2_generate (r := w.initiator)
          (by rw [initiator]; exact hs.pending)
          (by rw [initiator]; show s.sendEpoch + 1 < 2 ^ 32; rw [hs.sendEpoch]; exact hs.lt)
          exchange] at hopen
        rw [toInitiator_eq hopen]
        refine ⟨hstep1, hsub, some (out, reply), .done coins' out reply enough exchange fresh
          payload dataShards parityShards responder step2 outcomes, .done out reply
          (not_lt.1 hfew) (by rw [initiator]; rfl) ?_⟩
        refine (List.filter_cons_of_pos rfl).trans ?_
        rw [outcomes2]
    | done out reply enough2 initiator outcomes2 =>
      have hopen := openRatchetChunk_over2 (r := finishedStep s reply.nonce out) rfl hrecord coins
      rw [← initiator] at hopen
      rw [toInitiator_eq hopen]
      exact ⟨hstep1, hsub, some (out, reply), .done coins' out reply enough exchange fresh payload
        dataShards parityShards responder step2 outcomes, .done out reply
        (enough2.trans (Finset.card_le_card (Finset.subset_insert _ _))) initiator
        (by simpa [completes] using outcomes2)⟩

omit [LawfulCrypto β] [LawfulByteString β] [RestoringReedSolomon β] [LawfulExchange β]
  [DecidableEq β] in
/-- The invariant holds at the start. -/
theorem gathered_start
    (hslot : ∀ acc, r.incomingStep1Chunks = some acc → acc.attemptNonce ≠ a.nonce) :
    Gathered s r x k a ok (.start s r (a.records msgRatchetStep1Chunk
      (deriveChunkKey r.rootKey a.nonce labelChunkKeyStep1))) :=
  ⟨rfl, Finset.empty_subset _, none,
    .waiting r.incomingStep1Chunks a.dataShards_pos (.inr ⟨rfl, hslot⟩) rfl rfl rfl,
    .unanswered rfl rfl rfl⟩

/-- It holds after any deliveries. -/
theorem gathered_of_reachable (hs : UnderWay s r x k a ok)
    (hslot : ∀ acc, r.incomingStep1Chunks = some acc → acc.attemptNonce ≠ a.nonce)
    (hw : (incrementalMachine.startAt (.start s r (a.records msgRatchetStep1Chunk
      (deriveChunkKey r.rootKey a.nonce labelChunkKeyStep1)))).Reachable
      (fun _ d => ok d.coins.attemptNonce) w) : Gathered s r x k a ok w := by
  refine hw.invariant (fun w hinit => ?_) fun w w' d _ h hok hstep => ?_
  · rw [hinit]
    exact gathered_start hslot
  · cases d with
    | toResponder coins i =>
      obtain ⟨record, hrecord, rfl⟩ := Option.map_eq_some_iff.1 hstep
      exact h.toResponder hs hok hrecord
    | toInitiator coins i =>
      obtain ⟨record, hrecord, rfl⟩ := Option.map_eq_some_iff.1 hstep
      exact h.toInitiator hs hrecord

/-- The session has met no step 1 of this attempt. -/
def RatchetedSession.NewStep1 (r : RatchetedSession β) (nonce : β) : Prop :=
  r.lastCompletedStep1Attempt ≠ some nonce ∧
    ∀ acc, r.incomingStep1Chunks = some acc → acc.attemptNonce ≠ nonce

/-- The session has met no step 2 of this attempt. -/
def RatchetedSession.NewStep2 (s : RatchetedSession β) (nonce : β) : Prop :=
  s.lastCompletedStep2Attempt ≠ some nonce ∧
    ∀ acc, s.incomingStep2Chunks = some acc → acc.attemptNonce ≠ nonce

/-- The chunk opens, and filing it gives the payload back. -/
def RatchetedSession.Reconstructs (r : RatchetedSession β) (record payload : β) (k m : ℕ) : Prop :=
  ∃ h header ct shard, parseChunkHeader record = .ok (h, header, ct) ∧
    openAead (deriveChunkKey r.rootKey h.attemptNonce labelChunkKeyStep1)
      (chunkNonce h.shardIndex) header ct = .ok shard ∧
    accumulateChunk r.incomingStep1Chunks h.attemptNonce (h.fields shard) =
      (none, .ok (some (payload, k, m)))

/-- What holds of an attempt in `k` of `k + m` chunks after any deliveries, when it was initiated
by `s` with the key material `kex` and the peer was `r`. -/
structure Reassembled (s r : RatchetedSession β) (kex : InitiatorKex β) (k m : ℕ)
    (w : Incremental β) : Prop where
  /-- Fewer than `k` distinct chunks change nothing but what has been gathered. -/
  waiting1 : w.delivered1.card < k →
    (∃ slot, w.responder = { r with incomingStep1Chunks := slot }) ∧ w.step2 = [] ∧
      w.outcomes1.filter completes = []
  /-- The `k`-th distinct chunk gives the payload back. -/
  exact1 : ∀ (i : ℕ) (record : β), w.delivered1.card + 1 = k → i ∉ w.delivered1 →
    w.step1[i]? = some record → w.responder.Reconstructs record (step1Payload kex) k m
  /-- From then on the step is complete; one call completed it. -/
  done1 : k ≤ w.delivered1.card →
    (∃ (coins : ResponderCoins β) (out : ResponderKex β), responderExchange coins.x25519Secret
        coins.kemRandom kex.x25519Public kex.mlKemPublic = .ok out ∧
      w.responder.rootKey = (deriveNextEpoch r.rootKey out.sharedSecret false).1) ∧
    w.responder.sendEpoch = r.sendEpoch + 1 ∧ w.step2.length = k + m ∧
      w.outcomes1.filter completes = [.ok (.step1Complete w.step2)]
  /-- Every later chunk leaves the session unchanged. -/
  over1 : k ≤ w.delivered1.card → ∀ record ∈ w.step1, ∀ coins,
    w.responder.openRatchetChunk coins record = (w.responder, .ok .stillAccumulating)
  /-- Fewer than `k` distinct chunks of the reply change nothing on the other side. -/
  waiting2 : w.delivered2.card < k →
    (∃ slot, w.initiator = { s with incomingStep2Chunks := slot }) ∧
      w.outcomes2.filter completes = []
  /-- With `k` distinct chunks of the reply both sides are in one new epoch. -/
  done2 : k ≤ w.delivered2.card →
    w.initiator.sendEpoch = r.sendEpoch + 1 ∧ w.responder.sendEpoch = r.sendEpoch + 1 ∧
      w.initiator.rootKey = w.responder.rootKey ∧
      w.initiator.sendChain = w.responder.recvCurrent.chain ∧
      w.responder.sendChain = w.initiator.recvCurrent.chain ∧
      w.outcomes2.filter completes = [.ok .step2Complete]
  over2 : k ≤ w.delivered2.card → ∀ record ∈ w.step2, ∀ coins,
    w.initiator.openRatchetChunk coins record = (w.initiator, .ok .stillAccumulating)

omit [LawfulCrypto β] [LawfulExchange β] [DecidableEq β] in
theorem Attempt.length_records (a : Attempt β) (t : ℕ) (key : β) :
    (a.records t key).length = a.dataShards + a.parityShards := by
  rw [Attempt.records, List.length_map, List.length_zipIdx, Attempt.length_shards]

omit [LawfulExchange β] in
/-- The chunk that makes them enough opens and gives the payload back. -/
theorem reconstructs_of_holds {numbers : Finset ℕ}
    (hslot : a.Holds numbers r.incomingStep1Chunks)
    (hsub : numbers ⊆ Finset.range a.shards.1.length)
    (hrecord : (a.records msgRatchetStep1Chunk
      (deriveChunkKey r.rootKey a.nonce labelChunkKeyStep1))[i]? = some record)
    (henough : a.dataShards ≤ (insert i numbers).card) :
    r.Reconstructs record a.payload a.dataShards a.parityShards := by
  obtain ⟨hi, hparse⟩ := Attempt.parse_record (by decide) hrecord
  refine ⟨_, _, _, a.shards.1[i], hparse,
    openAead_eq_ok.2 (LawfulCrypto.aeadDecrypt_aeadEncrypt _ _ _ _), ?_⟩
  exact (hslot.accumulateChunk hsub hi).trans (if_neg (not_lt.2 henough))

omit [LawfulExchange β] in
/-- The invariant says all of it. -/
theorem Gathered.reassembled (hs : UnderWay s r x k a ok) (h : Gathered s r x k a ok w) :
    Reassembled s r (.generate x k) a.dataShards a.parityShards w := by
  obtain ⟨hstep1, hsub, reply, hresponding, hawaiting⟩ := h
  cases hresponding with
  | waiting slot few holds responder step2 outcomes =>
    have hpos := a.dataShards_pos
    cases hawaiting with
    | unanswered initiator delivered outcomes2 =>
      have hnone : w.delivered2.card = 0 := by rw [delivered, Finset.card_empty]
      refine ⟨fun _ => ⟨⟨slot, responder⟩, step2, outcomes⟩, fun i record hcard hi hrecord => ?_,
        fun hge => ?_, fun hge => ?_, fun _ => ⟨⟨_, initiator⟩, by rw [outcomes2]; rfl⟩,
        fun hge => ?_, fun hge => ?_⟩
      · rw [hstep1] at hrecord
        rw [← hs.payload, responder]
        exact reconstructs_of_holds (r := { r with incomingStep1Chunks := slot }) holds hsub
          hrecord (by rw [Finset.card_insert_of_notMem hi]; omega)
      all_goals omega
  | done coins out reply enough exchange fresh payload dataShards parityShards responder step2
      outcomes =>
    have hover1 : ∀ record ∈ w.step1, ∀ coins,
        w.responder.openRatchetChunk coins record = (w.responder, .ok .stillAccumulating) := by
      intro record hmem coins
      rw [hstep1] at hmem
      obtain ⟨i, hrecord⟩ := List.mem_iff_getElem?.1 hmem
      exact openRatchetChunk_over1 (by rw [responder]; rfl) hrecord coins
    have hlength : w.step2.length = a.dataShards + a.parityShards := by
      rw [step2, Attempt.length_records, dataShards, parityShards]
    have hdone : (∃ (coins : ResponderCoins β) (out : ResponderKex β), responderExchange
          coins.x25519Secret coins.kemRandom (InitiatorKex.generate x k).x25519Public
          (InitiatorKex.generate x k).mlKemPublic = .ok out ∧
        w.responder.rootKey = (deriveNextEpoch r.rootKey out.sharedSecret false).1) ∧
      w.responder.sendEpoch = r.sendEpoch + 1 ∧ w.step2.length = a.dataShards + a.parityShards ∧
        w.outcomes1.filter completes = [.ok (.step1Complete w.step2)] :=
      ⟨⟨coins, out, exchange, by rw [responder]; rfl⟩, by rw [responder]; rfl, hlength, outcomes⟩
    cases hawaiting with
    | waiting out reply slot few sub holds initiator outcomes2 =>
      exact ⟨fun hlt => by omega, fun i record hcard => by omega, fun _ => hdone,
        fun _ => hover1, fun _ => ⟨⟨slot, initiator⟩, outcomes2⟩, fun hge => by omega,
        fun hge => by omega⟩
    | done out reply enough2 initiator outcomes2 =>
      refine ⟨fun hlt => by omega, fun i record hcard => by omega, fun _ => hdone,
        fun _ => hover1, fun hlt => by omega, fun _ => ⟨?_, hdone.2.1, ?_, ?_, ?_, outcomes2⟩,
        fun _ record hmem coins => ?_⟩
      · rw [initiator]
        show s.sendEpoch + 1 = r.sendEpoch + 1
        rw [hs.sendEpoch]
      · rw [initiator, responder]
        show (deriveNextEpoch s.rootKey out.sharedSecret true).1 =
          (deriveNextEpoch r.rootKey out.sharedSecret false).1
        rw [hs.rootKey]
        rfl
      · rw [initiator, responder]
        show (deriveNextEpoch s.rootKey out.sharedSecret true).2.1 =
          (deriveNextEpoch r.rootKey out.sharedSecret false).2.2
        rw [hs.rootKey]
        rfl
      · rw [initiator, responder]
        show (deriveNextEpoch r.rootKey out.sharedSecret false).2.1 =
          (deriveNextEpoch s.rootKey out.sharedSecret true).2.2
        rw [hs.rootKey]
        rfl
      · rw [step2] at hmem
        obtain ⟨i, hrecord⟩ := List.mem_iff_getElem?.1 hmem
        exact openRatchetChunk_over2 (by rw [initiator]; rfl) hrecord coins

/-- **Incremental ratchet reassembly.**  For all shard counts that `initiate_incremental_ratchet`
accepts, an idle peer in the same epoch, not the last, under the same root key, and every run of
deliveries of the chunks and of the reply's chunks. -/
theorem incremental_reassembly {s s' r : RatchetedSession β} {coins : InitiatorCoins β}
    {k m : ℕ} {records : List β} {w : Incremental β}
    (hinit : s.initiateIncrementalRatchet coins k m = .ok (s', records))
    (hidle : r.pending = none) (hepoch : r.sendEpoch = s.sendEpoch)
    (hroot : r.rootKey = s.rootKey) (hnew : r.NewStep1 coins.attemptNonce)
    (hlt : s.sendEpoch + 1 < 2 ^ 32)
    (hw : (incrementalMachine.startAt (.start s' r records)).Reachable
      (fun _ d => s.NewStep2 d.coins.attemptNonce) w) :
    Reassembled s' r (.generate coins.x25519Secret coins.mlKemSecret) k m w := by
  obtain ⟨-, rfl, hbuild⟩ := initiateIncrementalRatchet_eq_ok hinit
  obtain ⟨a, hnonce, hpayload, rfl, rfl, rfl⟩ := Attempt.of_buildChunkRecords hbuild
  rw [← hnonce] at hnew
  rw [← hroot, ← hnonce] at hw
  have hs : UnderWay (s.awaiting (.generate coins.x25519Secret coins.mlKemSecret)) r
      coins.x25519Secret coins.mlKemSecret a s.NewStep2 :=
    { payload := hpayload
      idle := hidle
      last1 := hnew.1
      lt := by rwa [hepoch]
      pending := rfl
      rootKey := hroot.symm
      sendEpoch := hepoch.symm
      last2 := fun n hn => hn.1
      slot2 := fun n hn => hn.2 }
  exact (gathered_of_reachable hs hnew.2 hw).reassembled hs

end Runs

/-! ### Two runs -/

section Sample

attribute [local instance] symbolicCode

instance : LawfulExchange Bytes where
  wasContributory_diffieHellman _ _ := rfl
  isMlKemPublic_mlKemPublic _ := by
    show decide (Term.len (.fn .kemPublic _ _) = 1568) = true
    simp [Term.len, Term.fnLen]
  isMlKemCiphertext_encapsulate _ _ := by
    show decide (Term.len (.fn .kemCiphertext _ _) = 1568) = true
    simp [Term.len, Term.fnLen]
  len_exchange _ _ _ := by
    show Term.len (.cons (.fn .dhPublic _ _) (.cons (.fn .kemCiphertext _ _) .nil)) < 2 ^ 32
    simp [Term.len, Term.fnLen]

theorem lookup_zipIdx (l : List Bytes) (n i : ℕ) :
    ((l.zipIdx n).map fun s => (s.2, s.1)).lookup (n + i) = l[i]? := by
  induction l generalizing n i with
  | nil => rfl
  | cons b l ih =>
    rw [List.zipIdx_cons, List.map_cons, List.lookup_cons]
    cases i with
    | zero => simp
    | succ i =>
      have hne : (n + (i + 1) == n) = false := by simp
      have hnext := ih (n + 1) i
      rw [Nat.add_assoc, Nat.add_comm 1 i] at hnext
      rw [hne]
      exact hnext

theorem symbolicCode_restoring : RestoringReedSolomon Bytes where
  encode_isSome _ _ _ _ _ _ _ := rfl
  encode_shape {o c n data parity} h hpos hlen hlens := by
    obtain rfl := Option.some.inj h
    refine ⟨by simp, fun shard hshard => ?_⟩
    obtain ⟨j, -, rfl⟩ := List.mem_map.1 hshard
    cases data with
    | nil => exact absurd hlen hpos.ne
    | cons d data => exact hlens d List.mem_cons_self
  decode_restores {o c n data parity original recovery} h hpos hlen hlens _ _ _ hr hfew
      henough := by
    obtain rfl := Option.some.inj h
    cases recovery with
    | nil =>
      rw [List.length_nil] at henough
      omega
    | cons e rest =>
      obtain ⟨j, shard⟩ := e
      have hshard := hr (j, shard) List.mem_cons_self
      rw [List.getElem?_map] at hshard
      obtain ⟨j', -, rfl⟩ := Option.map_eq_some_iff.1 hshard
      refine ⟨data.zipIdx.map fun s => (s.2, s.1), ?_, fun i _ _ => ?_⟩
      · refine (if_neg (not_lt.2 henough)).trans ?_
        simp only [Term.unlist_list, Option.map_some]
      · have hlookup := lookup_zipIdx data 0 i
        rwa [Nat.zero_add] at hlookup

/-- Deliveries of an attempt of `s` with the peer `r`. -/
def incrementalRun (s r : RatchetedSession Bytes) (k m : ℕ) (ds : List (ChunkDelivery Bytes)) :
    Option (Incremental Bytes) :=
  match s.initiateIncrementalRatchet (initiatorCoins 0) k m with
  | .ok (s', records) =>
    (incrementalMachine.startAt (.start s' r records)).run (.start s' r records) ds
  | .error _ => none

theorem exists_of_incrementalRun {s r : RatchetedSession Bytes} {k m : ℕ}
    {ds : List (ChunkDelivery Bytes)} {w : Incremental Bytes}
    (h : incrementalRun s r k m ds = some w)
    (hds : ∀ d ∈ ds, s.NewStep2 d.coins.attemptNonce) :
    ∃ s' records, s.initiateIncrementalRatchet (initiatorCoins 0) k m = .ok (s', records) ∧
      (incrementalMachine.startAt (.start s' r records)).Reachable
        (fun _ d => s.NewStep2 d.coins.attemptNonce) w := by
  unfold incrementalRun at h
  split at h
  · rename_i s' records hinit
    exact ⟨s', records, hinit, Machine.Reachable.of_run (.init rfl) (fun _ => hds) h⟩
  · cases h

/-- Two chunks of three arrive on either side, out of order and repeated. -/
theorem incremental_reassembly_lossy : ∃ s' records w,
    (RatchetedSession.new (.lit "root") true).initiateIncrementalRatchet (initiatorCoins 0) 2 1 =
      .ok (s', records) ∧ w.delivered1 = {0, 2} ∧ w.delivered2 = {1, 2} ∧
    Reassembled s' (RatchetedSession.new (.lit "root") false) (kexOf 0) 2 1 w := by
  have hnew : ∀ b n, (RatchetedSession.new (.lit "root" : Bytes) b).NewStep2 n := fun b n =>
    ⟨by simp [RatchetedSession.new], fun acc hacc => by cases hacc⟩
  have hrun : (incrementalRun (.new (.lit "root") true) (.new (.lit "root") false) 2 1
      [.toResponder (responderCoins 1) 2, .toResponder (responderCoins 2) 2,
        .toResponder (responderCoins 3) 0, .toInitiator (responderCoins 4) 2,
        .toResponder (responderCoins 5) 2, .toInitiator (responderCoins 6) 1]).map
      (fun w => (decide (w.delivered1 = {0, 2}), decide (w.delivered2 = {1, 2}))) =
      some (true, true) := by decide +kernel
  obtain ⟨w, hw, hp⟩ := Option.map_eq_some_iff.1 hrun
  obtain ⟨h1, h2⟩ := Prod.mk.inj hp
  obtain ⟨s', records, hinit, hreach⟩ := exists_of_incrementalRun hw fun d _ => hnew true _
  have := symbolicCode_restoring
  exact ⟨s', records, w, hinit, of_decide_eq_true h1, of_decide_eq_true h2,
    incremental_reassembly hinit rfl rfl rfl
      ⟨by simp [RatchetedSession.new], fun acc hacc => by cases hacc⟩ (by decide) hreach⟩

/-- A session that has completed `2 ^ 32 - 1` steps. -/
def lastEpoch (isInitiator : Bool) : RatchetedSession Bytes :=
  { RatchetedSession.new (.lit "root") isInitiator with
    sendEpoch := 2 ^ 32 - 1
    recvCurrent := { epoch := 2 ^ 32 - 1, chain := .lit "chain", expectedSeq := 0, skipped := [] } }

/-- **In the last epoch** the chunk that completes the step panics, and the step is not made. -/
theorem not_reassembled_last_epoch : ¬ ∀ (s s' r : RatchetedSession Bytes)
    (coins : InitiatorCoins Bytes) (k m : ℕ) (records : List Bytes) (w : Incremental Bytes),
    s.initiateIncrementalRatchet coins k m = .ok (s', records) → r.pending = none →
    r.sendEpoch = s.sendEpoch → r.rootKey = s.rootKey → r.NewStep1 coins.attemptNonce →
    (incrementalMachine.startAt (.start s' r records)).Reachable
      (fun _ d => s.NewStep2 d.coins.attemptNonce) w →
    Reassembled s' r (.generate coins.x25519Secret coins.mlKemSecret) k m w := by
  intro h
  have hrun : (incrementalRun (lastEpoch true) (lastEpoch false) 1 1
      [.toResponder (responderCoins 1) 0]).map
      (fun w => (w.delivered1.card, w.responder.sendEpoch)) = some (1, 2 ^ 32 - 1) := by
    decide +kernel
  obtain ⟨w, hw, hp⟩ := Option.map_eq_some_iff.1 hrun
  obtain ⟨hcard, hepoch⟩ := Prod.mk.inj hp
  obtain ⟨s', records, hinit, hreach⟩ := exists_of_incrementalRun hw fun d _ =>
    ⟨by simp [lastEpoch, RatchetedSession.new], fun acc hacc => by cases hacc⟩
  have hall := h (lastEpoch true) s' (lastEpoch false) (initiatorCoins 0) 1 1 records w hinit rfl
    rfl rfl ⟨by simp [lastEpoch, RatchetedSession.new], fun acc hacc => by cases hacc⟩ hreach
  have hnext := (hall.done1 hcard.ge).2.1
  rw [hepoch] at hnext
  simp [lastEpoch] at hnext

end Sample

end Ratchet

end NovaChannel
