import Mathlib
import NovaChannel.Ratchet.Rejected

/-!
# Out-of-order delivery

The records of one send chain reach the matching receive chain in any order, some twice, some not
at all.

* `Reference` : what delivery is meant to do, with the next number and the set of skipped numbers;
* `Agrees` : the receive chain holds the chain key of the next number and exactly the message keys
  of the skipped numbers;
* `Agrees.deliver` : one delivery keeps the two together;
* `delivery_spec` : **`open_on` accepts exactly what the reference accepts**, in every run, each
  record at most once and with its own plaintext, and a refused record changes nothing.
-/

namespace NovaChannel

namespace Ratchet

open Crypto

/-! ### The reference -/

/-- What delivery is meant to do: the number expected next, and the numbers skipped. -/
structure Reference where
  next : ℕ
  skipped : Finset ℕ
  deriving DecidableEq

namespace Reference

/-- The reference before the first record. -/
def start : Reference := ⟨0, ∅⟩

/-- A record with the number `n`. -/
def accept (r : Reference) (n : ℕ) : Option Reference :=
  if n < r.next then
    if n ∈ r.skipped then some { r with skipped := r.skipped.erase n } else none
  else if n - r.next ≤ maxSkippedKeys ∧ r.skipped.card + (n - r.next) ≤ maxSkippedKeys then
    some ⟨n + 1, r.skipped ∪ Finset.Ico r.next n⟩
  else none

/-- A record with the number `n` was accepted. -/
def Done (r : Reference) (n : ℕ) : Prop := n < r.next ∧ n ∉ r.skipped

/-- The reference after some records. -/
def after (r : Reference) : List ℕ → Reference
  | [] => r
  | n :: ns => ((r.accept n).getD r).after ns

variable {r r' : Reference} {n m : ℕ}

theorem accept_done (hlt : ∀ m ∈ r.skipped, m < r.next) (h : r.accept n = some r') :
    ¬ r.Done n ∧ r'.Done n ∧ ∀ m, r.Done m → r'.Done m := by
  unfold accept at h
  split_ifs at h with hle hmem hmax
  · obtain rfl := Option.some.inj h
    exact ⟨fun hd => hd.2 hmem, ⟨hle, Finset.notMem_erase n _⟩,
      fun m hm => ⟨hm.1, fun hmem => hm.2 (Finset.mem_of_mem_erase hmem)⟩⟩
  · obtain rfl := Option.some.inj h
    refine ⟨fun hd => hle hd.1, ⟨Nat.lt_succ_self n, fun hmem => ?_⟩, fun m hm => ?_⟩
    · rcases Finset.mem_union.1 hmem with hskip | hico
      · exact hle (hlt n hskip)
      · exact absurd (Finset.mem_Ico.1 hico).2 (lt_irrefl n)
    · refine ⟨by have := hm.1; dsimp only; omega, fun hmem => ?_⟩
      rcases Finset.mem_union.1 hmem with hskip | hico
      · exact hm.2 hskip
      · exact absurd hm.1 (not_lt.2 (Finset.mem_Ico.1 hico).1)

end Reference

variable {β : Type} [Crypto β]

/-! ### The receive chain -/

/-- The message key of a number. -/
def messageKey (chain : β) (n : ℕ) : β := (advance (chainFrom chain n)).2

omit [Crypto β] in
/-- Keys of new numbers are all added. -/
theorem extendKeys_eq {skipped new : List (ℕ × β)} (hnodup : (new.map Prod.fst).Nodup)
    (hnew : ∀ e ∈ new, ∀ f ∈ skipped, f.1 ≠ e.1) :
    extendKeys skipped new = new.reverse ++ skipped := by
  induction new generalizing skipped with
  | nil => rfl
  | cons e new ih =>
    rw [List.map_cons, List.nodup_cons] at hnodup
    have hfilter : skipped.filter (·.1 ≠ e.1) = skipped :=
      List.filter_eq_self.2 fun f hf => by simpa using hnew e List.mem_cons_self f hf
    rw [extendKeys, hfilter, ih hnodup.2 ?_, List.reverse_cons, List.append_assoc]
    · rfl
    · intro e' he' f hf
      rcases List.mem_cons.1 hf with rfl | hf
      · exact fun heq => hnodup.1 (heq ▸ List.mem_map_of_mem he')
      · exact hnew e' (List.mem_cons_of_mem _ he') f hf

/-- The receive chain and the reference stand at the same point of the send chain that began with
`chain`. -/
structure Agrees (chain : β) (recv : RecvChain β) (r : Reference) : Prop where
  next : recv.expectedSeq = r.next
  chainKey : recv.chain = chainFrom chain r.next
  /-- The cached keys are the message keys of the skipped numbers. -/
  mem_skipped : ∀ n key, (n, key) ∈ recv.skipped ↔ n ∈ r.skipped ∧ key = messageKey chain n
  nodup : (recv.skipped.map Prod.fst).Nodup
  card_le : r.skipped.card ≤ maxSkippedKeys
  lt_next : ∀ n ∈ r.skipped, n < r.next

theorem agrees_start (epoch : ℕ) (chain : β) :
    Agrees chain ⟨epoch, chain, 0, []⟩ Reference.start where
  next := rfl
  chainKey := rfl
  mem_skipped n key := by simp [Reference.start]
  nodup := List.nodup_nil
  card_le := by simp [Reference.start]
  lt_next n hn := by simp [Reference.start] at hn

namespace Agrees

variable {chain : β} {recv : RecvChain β} {r r' : Reference} {n : ℕ}

theorem mem_keys (h : Agrees chain recv r) : n ∈ recv.skipped.map Prod.fst ↔ n ∈ r.skipped := by
  rw [List.mem_map]
  constructor
  · rintro ⟨⟨m, key⟩, hmem, rfl⟩
    exact ((h.mem_skipped m key).1 hmem).1
  · intro hmem
    exact ⟨(n, messageKey chain n), (h.mem_skipped _ _).2 ⟨hmem, rfl⟩, rfl⟩

theorem length (h : Agrees chain recv r) : recv.skipped.length = r.skipped.card := by
  have hset : (recv.skipped.map Prod.fst).toFinset = r.skipped := by
    ext m
    rw [List.mem_toFinset, h.mem_keys]
  rw [← hset, List.toFinset_card_of_nodup h.nodup, List.length_map]

theorem lookup (h : Agrees chain recv r) (hmem : n ∈ r.skipped) :
    recv.skipped.lookup n = some (messageKey chain n) := by
  cases hkey : recv.skipped.lookup n with
  | none =>
    have hin := (h.mem_skipped n _).2 ⟨hmem, rfl⟩
    have := List.lookup_eq_none_iff.1 hkey _ hin
    simp at this
  | some key => rw [((h.mem_skipped n key).1 (mem_of_lookup hkey)).2]

theorem lookup_none (h : Agrees chain recv r) (hmem : n ∉ r.skipped) :
    recv.skipped.lookup n = none := by
  cases hkey : recv.skipped.lookup n with
  | none => rfl
  | some key => exact absurd ((h.mem_skipped n key).1 (mem_of_lookup hkey)).1 hmem

theorem keyAhead (h : Agrees chain recv r) (hle : r.next ≤ n) :
    recv.keyAhead n = messageKey chain n := by
  have hsum : r.next + (n - r.next) = n := by omega
  rw [RecvChain.keyAhead, h.chainKey, h.next, chainFrom_add, hsum, messageKey]

/-- Using a cached key. -/
theorem taken (h : Agrees chain recv r) :
    Agrees chain (recv.taken n) { r with skipped := r.skipped.erase n } where
  next := h.next
  chainKey := h.chainKey
  mem_skipped m key := by
    rw [RecvChain.taken, List.mem_filter, h.mem_skipped, Finset.mem_erase]
    simp only [ne_eq, decide_not, Bool.not_eq_eq_eq_not, Bool.not_true, decide_eq_false_iff_not]
    tauto
  nodup := h.nodup.sublist (List.filter_sublist.map _)
  card_le := (Finset.card_erase_le).trans h.card_le
  lt_next m hm := h.lt_next m (Finset.mem_of_mem_erase hm)

/-- Passing to a number ahead. -/
theorem passed (h : Agrees chain recv r) (hle : r.next ≤ n)
    (hmax : r.skipped.card + (n - r.next) ≤ maxSkippedKeys) :
    Agrees chain (recv.passed n) ⟨n + 1, r.skipped ∪ Finset.Ico r.next n⟩ := by
  have hkeys : (recv.passed n).skipped = ((List.range (n - r.next)).map fun i =>
      (r.next + i, messageKey chain (r.next + i))).reverse ++ recv.skipped := by
    rw [RecvChain.passed, skipKeys_eq, h.next, h.chainKey]
    simp only [chainFrom_add]
    refine extendKeys_eq ?_ ?_
    · rw [List.map_map]
      exact (List.nodup_range).map fun i j hij => by simpa using hij
    · intro e he f hf heq
      obtain ⟨i, -, rfl⟩ := List.mem_map.1 he
      have := h.lt_next f.1 (h.mem_keys.1 (List.mem_map_of_mem hf))
      dsimp only at heq
      omega
  have hmem : ∀ m key, (m, key) ∈ (recv.passed n).skipped ↔
      m ∈ r.skipped ∪ Finset.Ico r.next n ∧ key = messageKey chain m := by
    intro m key
    rw [hkeys, List.mem_append, List.mem_reverse, List.mem_map, h.mem_skipped, Finset.mem_union,
      Finset.mem_Ico]
    constructor
    · rintro (⟨i, hi, heq⟩ | ⟨hm, rfl⟩)
      · obtain ⟨rfl, rfl⟩ := Prod.mk.inj heq
        rw [List.mem_range] at hi
        exact ⟨.inr ⟨by omega, by omega⟩, rfl⟩
      · exact ⟨.inl hm, rfl⟩
    · rintro ⟨hm | hm, rfl⟩
      · exact .inr ⟨hm, rfl⟩
      · refine .inl ⟨m - r.next, by rw [List.mem_range]; omega, ?_⟩
        have hsum : r.next + (m - r.next) = m := by omega
        rw [hsum]
  refine ⟨rfl, ?_, hmem, ?_, ?_, ?_⟩
  · have hsum : r.next + (n - r.next + 1) = n + 1 := by omega
    rw [RecvChain.passed, h.next, h.chainKey, chainFrom_add, hsum]
  · rw [hkeys, List.map_append, List.map_reverse, List.map_map, List.nodup_append]
    refine ⟨List.nodup_reverse.2 ((List.nodup_range).map fun i j hij => by simpa using hij),
      h.nodup, fun a ha b hb hab => ?_⟩
    subst hab
    rw [List.mem_reverse, List.mem_map] at ha
    obtain ⟨i, -, rfl⟩ := ha
    have := h.lt_next _ (h.mem_keys.1 hb)
    dsimp only [Function.comp_apply] at this
    omega
  · calc (r.skipped ∪ Finset.Ico r.next n).card
        ≤ r.skipped.card + (Finset.Ico r.next n).card := Finset.card_union_le _ _
      _ = r.skipped.card + (n - r.next) := by rw [Nat.card_Ico]
      _ ≤ maxSkippedKeys := hmax
  · intro m hm
    dsimp only
    rcases Finset.mem_union.1 hm with hm | hm
    · have := h.lt_next m hm
      omega
    · have := (Finset.mem_Ico.1 hm).2
      omega

variable [LawfulCrypto β]

/-- One delivery: the chain opens the record exactly if the reference accepts its number. -/
theorem openOn (h : Agrees chain recv r) (h64 : n + 1 < 2 ^ 64) (aad payload : β) :
    match r.accept n with
    | some r' => ∃ recv', recv.openOn n aad (aeadEncrypt (messageKey chain n) zeroNonce aad payload) =
        (recv', .ok payload) ∧ Agrees chain recv' r'
    | none => ∃ e, recv.openOn n aad (aeadEncrypt (messageKey chain n) zeroNonce aad payload) =
        (recv, .err e) := by
  have hopens : openAead (messageKey chain n) zeroNonce aad
      (aeadEncrypt (messageKey chain n) zeroNonce aad payload) = .ok payload :=
    openAead_eq_ok.2 (LawfulCrypto.aeadDecrypt_aeadEncrypt _ _ _ _)
  by_cases hlt : n < r.next
  · have hlt' : n < recv.expectedSeq := h.next ▸ hlt
    rw [Reference.accept, if_pos hlt, RecvChain.openOn, if_pos hlt']
    by_cases hmem : n ∈ r.skipped
    · rw [if_pos hmem, h.lookup hmem]
      refine ⟨recv.taken n, ?_, h.taken⟩
      dsimp only
      rw [hopens, RecvChain.taken]
    · rw [if_neg hmem, h.lookup_none hmem]
      exact ⟨_, rfl⟩
  · have hle : r.next ≤ n := not_lt.1 hlt
    have hcard := h.card_le
    rw [Reference.accept, if_neg hlt, RecvChain.openOn_of_le (h.next ▸ hle) h64, h.next, h.length,
      h.keyAhead hle, hopens]
    by_cases hmax : n - r.next ≤ maxSkippedKeys ∧ r.skipped.card + (n - r.next) ≤ maxSkippedKeys
    · rw [if_pos hmax, if_neg (by omega)]
      exact ⟨_, rfl, h.passed hle hmax.2⟩
    · have hbound : n ≠ r.next ∧ (n - r.next > maxSkippedKeys ∨
          r.skipped.card + (n - r.next) > maxSkippedKeys) := by
        omega
      rw [if_neg hmax, if_pos hbound]
      exact ⟨_, rfl⟩

end Agrees

/-! ### Runs -/

namespace RatchetedSession

/-- `seal_payload`, one payload after the other. -/
def sealAll (s : RatchetedSession β) : List β → Result (List β)
  | [] => .ok []
  | payload :: payloads => do
    let (s, record) ← s.sealPayload payload
    let records ← s.sealAll payloads
    .ok (record :: records)

variable {s : RatchetedSession β} {payloads records : List β}

/-- Each record is under the message key of its number. -/
theorem sealAll_getElem? (h : s.sealAll payloads = .ok records) {i : ℕ} {payload : β}
    (hi : payloads[i]? = some payload) :
    s.sendSeq + i + 1 < 2 ^ 64 ∧ records[i]? = some (frame [headerBytes s.sendEpoch (s.sendSeq + i),
      aeadEncrypt (messageKey s.sendChain i) zeroNonce (headerBytes s.sendEpoch (s.sendSeq + i))
        payload]) := by
  induction payloads generalizing s records i with
  | nil => cases hi
  | cons first payloads ih =>
    obtain ⟨⟨s₁, record⟩, hseal, h₁⟩ := Result.bind_eq_ok.1 h
    obtain ⟨records', hrest, h₂⟩ := Result.bind_eq_ok.1 h₁
    obtain rfl := Except.ok.inj h₂
    obtain ⟨hlt, rfl, rfl⟩ := sealPayload_eq_ok hseal
    cases i with
    | zero =>
      obtain rfl := Option.some.inj hi
      exact ⟨hlt, rfl⟩
    | succ i =>
      obtain ⟨hlt', hrecord⟩ := ih hrest hi
      have hkey : messageKey s.sealedOne.sendChain i = messageKey s.sendChain (i + 1) := by
        have hone : s.sealedOne.sendChain = chainFrom s.sendChain 1 := rfl
        rw [messageKey, hone, chainFrom_add, Nat.add_comm 1 i, messageKey]
      have hseq : s.sealedOne.sendSeq + i = s.sendSeq + (i + 1) := by
        change s.sendSeq + 1 + i = s.sendSeq + (i + 1)
        omega
      rw [hseq] at hlt' hrecord
      rw [hkey] at hrecord
      exact ⟨hlt', hrecord⟩

end RatchetedSession

namespace RecvChain

/-- The delivery of record `n` to `open_on`. -/
def deliver (records : List β) (recv : RecvChain β) (n : ℕ) : RecvChain β × Result β :=
  match records[n]?.bind RatchetedSession.readRecord with
  | none => (recv, .err (.malformed "ratchet record shorter than header"))
  | some (_, seq, aad, ciphertext) => recv.openOn seq aad ciphertext

/-- The chain after some deliveries. -/
def after (records : List β) (recv : RecvChain β) : List ℕ → RecvChain β
  | [] => recv
  | n :: ns => after records (recv.deliver records n).1 ns

/-- The records that open, in order. -/
def opened (records : List β) (recv : RecvChain β) : List ℕ → List ℕ
  | [] => []
  | n :: ns =>
    if (recv.deliver records n).2.isOk then n :: opened records (recv.deliver records n).1 ns
    else opened records (recv.deliver records n).1 ns

end RecvChain

variable [LawfulCrypto β]

theorem readRecord_frame {epoch n : ℕ} (hepoch : epoch < 2 ^ 32) (hn : n < 2 ^ 64) (ct : β) :
    RatchetedSession.readRecord (frame [headerBytes epoch n, ct]) =
      some (epoch, n, headerBytes epoch n, ct) := by
  have he : readNum 4 (num epoch : β) = some epoch := by
    rw [readNum, LawfulCrypto.unnum_num (by omega), Option.filter_some, if_pos (by simpa using hepoch)]
  have hs : readNum 8 (num n : β) = some n := by
    rw [readNum, LawfulCrypto.unnum_num hn, Option.filter_some, if_pos (by simpa using hn)]
  simp [RatchetedSession.readRecord, headerBytes, he, hs]

section Delivery

variable {s : RatchetedSession β} {payloads records : List β} {recv : RecvChain β} {r : Reference}

/-- One delivery of a genuine record. -/
theorem Agrees.deliver (h : Agrees s.sendChain recv r) (hepoch : s.sendEpoch < 2 ^ 32)
    (hseq : s.sendSeq = 0) (hseal : s.sealAll payloads = .ok records) {n : ℕ} {payload : β}
    (hn : payloads[n]? = some payload) :
    match r.accept n with
    | some r' => ∃ recv', recv.deliver records n = (recv', .ok payload) ∧
        Agrees s.sendChain recv' r'
    | none => ∃ e, recv.deliver records n = (recv, .err e) := by
  obtain ⟨h64, hrecord⟩ := RatchetedSession.sealAll_getElem? hseal hn
  rw [hseq, Nat.zero_add] at h64 hrecord
  rw [RecvChain.deliver, hrecord, Option.bind_some, readRecord_frame hepoch (by omega)]
  exact h.openOn h64 _ payload

/-- After any deliveries the chain and the reference stand at the same point. -/
theorem Agrees.after (h : Agrees s.sendChain recv r) (hepoch : s.sendEpoch < 2 ^ 32)
    (hseq : s.sendSeq = 0) (hseal : s.sealAll payloads = .ok records) {ns : List ℕ}
    (hns : ∀ n ∈ ns, n < payloads.length) :
    Agrees s.sendChain (recv.after records ns) (r.after ns) ∧ (recv.opened records ns).Nodup ∧
      ∀ n ∈ recv.opened records ns, ¬ r.Done n := by
  induction ns generalizing recv r with
  | nil => exact ⟨h, List.nodup_nil, fun n hn => (by cases hn)⟩
  | cons n ns ih =>
    obtain ⟨payload, hn⟩ : ∃ payload, payloads[n]? = some payload :=
      ⟨_, List.getElem?_eq_getElem (hns n List.mem_cons_self)⟩
    have hns' : ∀ m ∈ ns, m < payloads.length := fun m hm => hns m (List.mem_cons_of_mem _ hm)
    have hstep := h.deliver hepoch hseq hseal hn
    rw [RecvChain.after, Reference.after, RecvChain.opened]
    cases hacc : r.accept n with
    | none =>
      rw [hacc] at hstep
      obtain ⟨e, he⟩ := hstep
      rw [he, if_neg (by simp [Except.isOk, Except.toBool])]
      exact ih h hns'
    | some r' =>
      rw [hacc] at hstep
      obtain ⟨recv', hok, hagree⟩ := hstep
      obtain ⟨hnew, hdone, hmono⟩ := Reference.accept_done h.lt_next hacc
      obtain ⟨h1, h2, h3⟩ := ih hagree hns'
      rw [hok, if_pos (by simp [Except.isOk, Except.toBool])]
      refine ⟨h1, List.nodup_cons.2 ⟨fun hmem => h3 n hmem hdone, h2⟩, fun m hm => ?_⟩
      rcases List.mem_cons.1 hm with rfl | hm
      · exact hnew
      · exact fun hd => h3 m hm (hmono m hd)

/-- **Out-of-order delivery matches its specification**: after any deliveries of records of one send
chain, the receive chain holds exactly the keys of the skipped numbers, at most `maxSkippedKeys`;
no record has opened twice; and the next one opens, with its own plaintext, exactly if the
reference accepts it, and changes nothing otherwise. -/
theorem delivery_spec (hepoch : s.sendEpoch < 2 ^ 32) (hseq : s.sendSeq = 0)
    (hseal : s.sealAll payloads = .ok records) (ns : List ℕ)
    (hns : ∀ n ∈ ns, n < payloads.length) :
    let recv : RecvChain β := RecvChain.after records ⟨s.sendEpoch, s.sendChain, 0, []⟩ ns
    Agrees s.sendChain recv (Reference.start.after ns) ∧
      recv.skipped.length ≤ maxSkippedKeys ∧
      (RecvChain.opened records ⟨s.sendEpoch, s.sendChain, 0, []⟩ ns).Nodup ∧
      ∀ n payload, payloads[n]? = some payload →
        match (Reference.start.after ns).accept n with
        | some _ => (recv.deliver records n).2 = .ok payload
        | none => ∃ e, recv.deliver records n = (recv, .err e) := by
  obtain ⟨hagree, hnodup, -⟩ := (agrees_start s.sendEpoch s.sendChain).after hepoch hseq hseal hns
  refine ⟨hagree, hagree.length ▸ hagree.card_le, hnodup, fun n payload hn => ?_⟩
  have hstep := hagree.deliver hepoch hseq hseal hn
  cases hacc : (Reference.start.after ns).accept n with
  | none =>
    rw [hacc] at hstep
    exact hstep
  | some r' =>
    rw [hacc] at hstep
    obtain ⟨recv', hok, -⟩ := hstep
    exact congrArg Prod.snd hok

end Delivery

/-- Two records, the second delivered twice and before the first. -/
theorem delivery_spec_two : ∃ records, (start .nil true).sealAll [.lit "first", .lit "second"] =
    .ok records ∧ ((RecvChain.after records ⟨0, (start .nil true).sendChain, 0, []⟩
      [1, 1]).deliver records 0).2 = .ok (.lit "first") := by
  have hseal : (start .nil true).sealAll [.lit "first", .lit "second"] = .ok _ := rfl
  refine ⟨_, hseal, ?_⟩
  exact (delivery_spec (by decide) rfl hseal [1, 1] (by simp)).2.2.2 0 (.lit "first") rfl

end Ratchet

end NovaChannel
