import NovaChannel.Transport
import NovaChannel.X3dh
import NovaChannel.SymbolicBytes

/-!
# The transport over any byte strings

`Sender` and `Receiver` as `Transport` has them over bytes, here over any strings with the
primitives, so that they run on symbolic ones.  The replay filter reads numbers only and is the same
(`Receiver.filter`).

* `seal_ok`, `openRecord_ok` : what a call that succeeds returned;
* `openRecord_recordOf` : a record of the key opens when its number is fresh;
* `nonceFor_inj` : two numbers have two nonces.
-/

namespace NovaChannel

namespace DataPlane

open Crypto ByteString
open X3dh (DirectionalKey)

/-- XOR of two strings of one length. -/
class XorBytes (β : Type) where
  xor : β → β → β

section Definitions

variable {β : Type} [Crypto β] [ByteString β] [XorBytes β]

/-- `nonce_for`: the number is XORed into the last eight bytes of the base IV. -/
def nonceFor (key : DirectionalKey β) (seq : ℕ) : β :=
  concat [take 4 key.nonceBase, XorBytes.xor (window 4 8 key.nonceBase) (num seq)]

/-- The record that a message is sealed into. -/
def recordOf (key : DirectionalKey β) (seq : ℕ) (plaintext : β) : β :=
  frame [num seq, aeadEncrypt key.key (nonceFor key seq) (num seq) plaintext]

/-- `Sender`. -/
structure Sender (β : Type) where
  key : DirectionalKey β
  nextSeq : ℕ

omit [Crypto β] [ByteString β] [XorBytes β] in
/-- `Sender::new`. -/
def Sender.new (key : DirectionalKey β) : Sender β := ⟨key, 0⟩

/-- `Sender::seal`, with the state it leaves. -/
def Sender.seal (s : Sender β) (plaintext : β) : Result β × Sender β :=
  if len plaintext > Transport.maxPlaintextLen then (.err .tooLarge, s)
  else
    match checkedAdd64 s.nextSeq 1 with
    | none => (.err .sequenceExhausted, s)
    | some next => (.ok (recordOf s.key s.nextSeq plaintext), { s with nextSeq := next })

/-- `Receiver`. -/
structure Receiver (β : Type) where
  key : DirectionalKey β
  highestSeq : Option ℕ
  window : BitVec 64

/-- The number of a record, its bytes, and the ciphertext. -/
def readRecord (record : β) : Option (ℕ × β × β) :=
  match unframe record with
  | some [seqBytes, ciphertext] => (readNum 8 seqBytes).map fun seq => (seq, seqBytes, ciphertext)
  | _ => none

/-- The number that a record names. -/
def seqOf (record : β) : ℕ := ((readRecord record).map Prod.fst).getD 0

namespace Receiver

omit [Crypto β] [ByteString β] [XorBytes β] in
/-- `Receiver::new`. -/
def new (key : DirectionalKey β) : Receiver β := ⟨key, none, 0⟩

omit [Crypto β] [ByteString β] [XorBytes β] in
/-- The replay filter, which does not read the key. -/
def filter (r : Receiver β) : Transport.Receiver := ⟨⟨[], []⟩, r.highestSeq, r.window⟩

omit [Crypto β] [ByteString β] [XorBytes β] in
/-- `record_seen`. -/
def recordSeen (r : Receiver β) (seq : ℕ) : Receiver β :=
  let seen := r.filter.recordSeen seq
  { r with highestSeq := seen.highestSeq, window := seen.window }

/-- `Receiver::open`, with the state it leaves. -/
def openRecord (r : Receiver β) (record : β) : Result β × Receiver β :=
  if len record < Transport.seqLen + Transport.tagLen then
    (.err (.malformed "record shorter than header + tag"), r)
  else if len record > Transport.seqLen + Transport.tagLen + Transport.maxPlaintextLen then
    (.err .tooLarge, r)
  else
    match readRecord record with
    -- bytes that are no number and ciphertext are bytes that nobody sealed
    | none => (.err .decrypt, r)
    | some (seq, seqBytes, ciphertext) =>
      match r.filter.checkReplay seq with
      | .error e => (.error e, r)
      | .ok () =>
        match aeadDecrypt r.key.key (nonceFor r.key seq) seqBytes ciphertext with
        | none => (.err .decrypt, r)
        | some plaintext => (.ok plaintext, r.recordSeen seq)

end Receiver

end Definitions

/-! ### What a call returned -/

section Calls

variable {β : Type} [Crypto β] [ByteString β] [XorBytes β] {s s' : Sender β} {r r' : Receiver β}
  {plaintext record : β}

theorem seal_ok (h : s.seal plaintext = (.ok record, s')) :
    s.nextSeq + 1 < 2 ^ 64 ∧ len plaintext ≤ Transport.maxPlaintextLen ∧
      record = recordOf s.key s.nextSeq plaintext ∧ s' = { s with nextSeq := s.nextSeq + 1 } := by
  unfold Sender.seal at h
  split_ifs at h with hlen
  · cases h
  · cases hadd : checkedAdd64 s.nextSeq 1 with
    | none =>
      rw [hadd] at h
      cases h
    | some next =>
      obtain ⟨hlt, rfl⟩ := checkedAdd64_eq_some.1 hadd
      rw [hadd] at h
      obtain ⟨hrecord, hs⟩ := Prod.mk.inj h
      exact ⟨hlt, not_lt.1 hlen, (Except.ok.inj hrecord).symm, hs.symm⟩

/-- A message that is not too long is sealed, until the numbers are exhausted. -/
theorem seal_eq (hseq : s.nextSeq + 1 < 2 ^ 64) (hlen : len plaintext ≤ Transport.maxPlaintextLen) :
    s.seal plaintext =
      (.ok (recordOf s.key s.nextSeq plaintext), { s with nextSeq := s.nextSeq + 1 }) := by
  unfold Sender.seal
  rw [if_neg (not_lt.2 hlen), checkedAdd64_eq_some.2 ⟨hseq, rfl⟩]

/-- A call that fails changes nothing. -/
theorem seal_error {e : Fault} (h : s.seal plaintext = (.error e, s')) : s' = s := by
  unfold Sender.seal at h
  split_ifs at h
  · exact (Prod.mk.inj h).2.symm
  · split at h
    · exact (Prod.mk.inj h).2.symm
    · cases h

theorem openRecord_ok (h : r.openRecord record = (.ok plaintext, r')) :
    ∃ seq seqBytes ciphertext, readRecord record = some (seq, seqBytes, ciphertext) ∧
      r.filter.checkReplay seq = .ok () ∧
      aeadDecrypt r.key.key (nonceFor r.key seq) seqBytes ciphertext = some plaintext ∧
      r' = r.recordSeen seq := by
  unfold Receiver.openRecord at h
  split_ifs at h
  · cases h
  · cases h
  · split at h
    · cases h
    · rename_i seq seqBytes ciphertext hread
      split at h
      · cases h
      · rename_i hreplay
        split at h
        · cases h
        · rename_i m hopen
          obtain ⟨hm, hr⟩ := Prod.mk.inj h
          obtain rfl := Except.ok.inj hm
          exact ⟨seq, seqBytes, ciphertext, hread, hreplay, hopen, hr.symm⟩

/-- A record that is rejected changes nothing. -/
theorem openRecord_error {e : Fault} (h : r.openRecord record = (.error e, r')) : r' = r := by
  unfold Receiver.openRecord at h
  split_ifs at h
  · exact (Prod.mk.inj h).2.symm
  · exact (Prod.mk.inj h).2.symm
  · split at h
    · exact (Prod.mk.inj h).2.symm
    · split at h
      · exact (Prod.mk.inj h).2.symm
      · split at h
        · exact (Prod.mk.inj h).2.symm
        · cases h

omit [Crypto β] [ByteString β] [XorBytes β] in
@[simp] theorem filter_recordSeen (seq : ℕ) :
    (r.recordSeen seq).filter = r.filter.recordSeen seq := by
  have hkey : (r.filter.recordSeen seq).key = r.filter.key := by
    unfold Transport.Receiver.recordSeen
    split
    · rfl
    · split_ifs <;> rfl
  rw [Receiver.recordSeen, Receiver.filter, Transport.Receiver.mk.injEq]
  exact ⟨hkey.symm, rfl, rfl⟩

omit [Crypto β] [ByteString β] [XorBytes β] in
@[simp] theorem key_recordSeen (seq : ℕ) : (r.recordSeen seq).key = r.key := rfl

end Calls

/-- The replay filter rejects as a replay. -/
theorem checkReplay_error {r : Transport.Receiver} {seq : ℕ} {e : Fault}
    (h : r.checkReplay seq = .error e) : e = .error .replay := by
  unfold Transport.Receiver.checkReplay at h
  split at h
  · cases h
  · dsimp only at h
    split_ifs at h
    · exact (Except.error.inj h).symm
    · exact (Except.error.inj h).symm

/-! ### Symbolic records -/

section Symbolic

variable {ν : Type} [Named ν] [DecidableEq ν]

/-- Who learns the XOR of two strings learns nothing more than both. -/
instance : XorBytes (Term ν) := ⟨.cons⟩

/-- Two numbers have two nonces, under a key that was expanded. -/
theorem nonceFor_inj {okm : Term ν} {seq seq' : ℕ}
    (h : nonceFor (.ofOkm okm) seq = nonceFor (.ofOkm okm) seq') : seq = seq' := by
  have hform : ∀ n, nonceFor (.ofOkm okm) n =
      Term.list [.fn (.slice 0 4) (.fn (.slice 32 44) okm .nil) .nil,
        .cons (Term.window 4 8 (.fn (.slice 32 44) okm .nil)) (.num n)] := by
    intro n
    have hcut : (ByteString.take 4 (.fn (.slice 32 44) okm .nil) : Term ν) =
        .fn (.slice 0 4) (.fn (.slice 32 44) okm .nil) .nil := rfl
    -- the second part is no window, so the parts do not make up a string again
    show Term.concat [ByteString.take 4 (.fn (.slice 32 44) okm .nil), _] = _
    rw [hcut]
    unfold Term.concat
    exact if_neg fun h => by cases (List.cons.inj (List.cons.inj h).2).1
  rw [hform, hform] at h
  obtain ⟨-, hrest⟩ := List.cons.inj (Term.list_injective h)
  exact Term.num.inj (Term.cons.inj (List.cons.inj hrest).1).2

theorem readRecord_eq {record seqBytes ciphertext : Term ν} {seq : ℕ}
    (h : readRecord record = some (seq, seqBytes, ciphertext)) :
    record = frame [num seq, ciphertext] ∧ seqBytes = num seq := by
  unfold readRecord at h
  split at h
  · rename_i a b hframe
    obtain ⟨n, hn, heq⟩ := Option.map_eq_some_iff.1 h
    obtain ⟨rfl, rfl, rfl⟩ := heq
    have hnum := Term.eq_num_of_unnum (Option.filter_eq_some_iff.1 hn).1
    rw [Term.eq_list_of_unlist hframe, hnum]
    exact ⟨rfl, rfl⟩
  · cases h

/-- **A record of the key opens** when the replay filter lets its number through. -/
theorem openRecord_recordOf {r : Receiver (Term ν)} {seq : ℕ} {plaintext : Term ν}
    (hseq : seq < 2 ^ 64) (hlen : len plaintext ≤ Transport.maxPlaintextLen) :
    r.openRecord (recordOf r.key seq plaintext) =
      match r.filter.checkReplay seq with
      | .error e => (.error e, r)
      | .ok () => (.ok plaintext, r.recordSeen seq) := by
  have hrecord : len (recordOf r.key seq plaintext) =
      Transport.seqLen + Transport.tagLen + len plaintext := by
    show 8 + (Term.len plaintext + 16 + 0) = 8 + 16 + Term.len plaintext
    omega
  have hread : readRecord (recordOf r.key seq plaintext) = some (seq, num seq,
      aeadEncrypt r.key.key (nonceFor r.key seq) (num seq) plaintext) := by
    rw [readRecord, recordOf, LawfulCrypto.unframe_frame]
    have hnum : readNum 8 (num seq : Term ν) = some seq := readNum_eq_some (by omega) hseq
    simp only [hnum, Option.map_some]
  unfold Receiver.openRecord
  rw [if_neg (by omega), if_neg (by omega), hread]
  simp only [LawfulCrypto.aeadDecrypt_aeadEncrypt]

end Symbolic

end DataPlane

end NovaChannel
