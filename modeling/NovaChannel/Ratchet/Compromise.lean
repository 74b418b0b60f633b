import NovaChannel.Lib.Hybrid
import NovaChannel.Ratchet.Safety
import NovaChannel.Ratchet.Shards

/-!
# What a compromise of both sessions gives away

Two sessions over a network, as in `Ratchet.Safety`, and an adversary that reads the network and, at
one moment of the run, everything that both sessions hold.

* `Pair.exposedEpoch` : the last epoch that a compromise reaches: the newest one, or the next when a
  step was under way;
* `Pair.After` : the run after the compromise, as an invariant: a later step is a fresh exchange;
* `compromise_window` : **no message key of a later epoch is derivable, and none of a record that
  was delivered before**, once both sides had left epoch `0`.
-/

namespace NovaChannel

namespace Ratchet

open Crypto Kex RatchetedSession

/-! ### The adversary -/

/-- The newest epoch of the two sides. -/
def Pair.epoch (w : Pair) : ℕ :=
  max (w.session .initiator).sendEpoch (w.session .responder).sendEpoch

/-- A side of the newest epoch has a step pending: it is not answered yet. -/
def Pair.underWay (w : Pair) : Bool :=
  [Party.initiator, Party.responder].any fun p =>
    (w.session p).pending.isSome && (w.session p).sendEpoch == w.epoch

/-- The last epoch whose keys follow from what the two sessions hold: the secrets of a step that is
under way are among it. -/
def Pair.exposedEpoch (w : Pair) : ℕ := if w.underWay then w.epoch + 1 else w.epoch

/-- What the adversary knows in `w`, when it read both sessions in `w₀`. -/
def Pair.knowledge (w₀ w : Pair) : Set Bytes :=
  {t | (∃ p, t ∈ (w₀.session p).fields) ∨ ∃ m ∈ w.net, t = m.bytes}

/-- The adversary chooses what is sent. -/
def Chosen (w₀ w : Pair) : PairAction → Prop
  | .sealRecord _ plaintext => Derives (Pair.knowledge w₀ w) plaintext
  | _ => True

/-- The third-party code computes the recovery shards from the data shards. -/
def CombinesShards [ReedSolomon Bytes] : Prop :=
  ∀ (n m : ℕ) (data recovery : List Bytes), ReedSolomon.encode n m data = some recovery →
    ∀ shard ∈ recovery, Derives {t | t ∈ data} shard

/-- What may be handed out: the secrets of the steps that were initiated before the compromise, and
what the sessions held. -/
def Pair.policy (w₀ : Pair) : Policy Name where
  secret
    | .handshake => True
    | .x25519 k | .mlKem k => w₀.calls ≤ k
    | .kemRandom _ => True
    | .attemptNonce _ => False
  exposed t := ∃ p, t ∈ (w₀.session p).fields

/-! ### What is sent -/

section Sent

variable {P : Policy Name} {s : RatchetedSession Bytes}

theorem hybridSafe_record {payload : Bytes} (h : P.HybridSafe payload) :
    P.HybridSafe (s.recordOf payload) :=
  ⟨⟨trivial, trivial, trivial⟩, fun _ => h, trivial⟩

theorem hybridSafe_typed {msgType : ℕ} {body : Bytes} (h : P.HybridSafe body) :
    P.HybridSafe (typed msgType body) :=
  ⟨trivial, h, trivial⟩

theorem hybridSafe_step1Payload (x k : Bytes) : P.HybridSafe (step1Payload (.generate x k)) :=
  ⟨Policy.hybridSafe_public rfl (by simp), Policy.hybridSafe_public rfl (by simp), trivial⟩

theorem hybridSafe_step2Payload {y r x k : Bytes} {out : ResponderKex Bytes}
    (h : responderExchange y r x k = .ok out) : P.HybridSafe (step2Payload out) := by
  obtain ⟨-, rfl⟩ := responderExchange_eq_ok h
  refine ⟨Policy.hybridSafe_public rfl (by simp), ?_, trivial⟩
  show P.HybridSafe (Term.encapsulate r k).1
  unfold Term.encapsulate
  split
  · exact Policy.hybridSafe_public rfl (by simp)
  · exact Policy.hybridSafe_public rfl (by simp)

variable [ReedSolomon Bytes]

theorem hybridSafe_chunks (hcode : CombinesShards) {msgType d m : ℕ} {key nonce payload : Bytes}
    {records : List Bytes} (hnonce : P.HybridSafe nonce) (hp : P.HybridSafe payload)
    (h : buildChunkRecords msgType key nonce payload d m = .ok records) :
    ∀ b ∈ records, P.HybridSafe b := by
  obtain ⟨⟨shards, n⟩, hencode, rfl⟩ := buildChunkRecords_eq_ok h
  have hdata : ∀ shard ∈ Erasure.dataShards payload d, P.HybridSafe shard := by
    intro shard hshard
    obtain ⟨i, -, rfl⟩ := List.mem_map.1 hshard
    exact Policy.hybridSafe_fn_of_hybridSafe hp trivial
  have hshards : ∀ shard ∈ shards, P.HybridSafe shard := by
    obtain ⟨-, -, -, parity, hparity, rfl⟩ := Erasure.encode_eq_ok hencode
    intro shard hshard
    rcases List.mem_append.1 hshard with hshard | hshard
    · exact hdata shard hshard
    · exact Policy.hybridSafe_of_derives hdata (hcode _ _ _ _ hparity shard hshard)
  intro b hb
  obtain ⟨⟨shard, i⟩, hi, rfl⟩ := List.mem_map.1 hb
  have hchecksum : P.HybridSafe (truncatedChecksum payload) :=
    Policy.hybridSafe_fn_of_hybridSafe (Policy.hybridSafe_fn_of_hybridSafe hp trivial) trivial
  have hshard : shard ∈ shards :=
    List.mem_of_getElem? (List.mk_mem_zipIdx_iff_getElem?.1 hi)
  exact ⟨⟨trivial, hnonce, trivial, trivial, trivial, trivial, hchecksum, trivial⟩,
    fun _ => hshards shard hshard, trivial⟩

/-- **What a call sends may be sent**, when the message that it seals may. -/
theorem hybridSafe_perform (hcode : CombinesShards)
    (hnonce : ∀ k, P.HybridSafe (.name (.attemptNonce k))) {k : ℕ} {c : Call} {o : Outcome}
    (hplain : ∀ m, c = .sealRecord m → P.HybridSafe m) (hc : s.perform k c = some o) :
    ∀ b ∈ o.records ++ o.chunks, P.HybridSafe b := by
  cases c with
  | sealRecord plaintext =>
    rcases perform_sealRecord hc with rfl | ⟨s', record, hs, rfl⟩
    · exact fun b hb => (by cases hb)
    · obtain ⟨-, -, rfl⟩ := sealPayload_eq_ok hs
      intro b hb
      obtain rfl := List.mem_singleton.1 hb
      exact hybridSafe_record (hybridSafe_typed (hplain _ rfl))
  | initiateRatchet =>
    rcases perform_initiateRatchet hc with rfl | ⟨s', record, hs, rfl⟩
    · exact fun b hb => (by cases hb)
    · obtain ⟨-, -, -, rfl⟩ := initiateRatchet_eq_ok hs
      intro b hb
      obtain rfl := List.mem_singleton.1 hb
      exact hybridSafe_record (hybridSafe_typed (hybridSafe_step1Payload _ _))
  | initiateIncrementalRatchet d n =>
    rcases perform_initiateIncrementalRatchet hc with rfl | ⟨s', records, hs, rfl⟩
    · exact fun b hb => (by cases hb)
    · obtain ⟨-, -, hb⟩ := initiateIncrementalRatchet_eq_ok hs
      exact hybridSafe_chunks hcode (hnonce k) (hybridSafe_step1Payload _ _) hb
  | openRecord record =>
    obtain ⟨r, hopen, hnp, ⟨-, ho⟩ | ⟨x, rfl, ho⟩⟩ := perform_openRecord hc
    · rw [ho]
      exact fun b hb => (by cases hb)
    · rw [ho]
      -- `open` sends nothing but the answer to a step
      rcases openRecord_cases hopen with ⟨-, e, he⟩ |
          ⟨slot, recv, seq, aad, ct, recv', opened, -, -, -, hend⟩
      · cases he
      rcases handleOpened_cases hend with ⟨-, e, he⟩ | he | ⟨m, body, -, ⟨-, -, hx⟩ |
          ⟨-, reply, hstep, hx⟩ | ⟨-, done, -, ⟨-, hx⟩ | ⟨e, -, hx⟩⟩⟩
      · cases he
      · cases he
      · obtain rfl := Except.ok.inj hx
        exact fun b hb => (by cases hb)
      · obtain rfl := Except.ok.inj hx
        rcases handleStep1_cases hstep with ⟨-, e, he⟩ | he |
            ⟨x, k, out, -, -, -, hout, -, -, -, hr⟩
        · cases he
        · cases he
        · obtain rfl := Except.ok.inj hr
          intro b hb
          obtain rfl := List.mem_singleton.1 hb
          exact hybridSafe_record (hybridSafe_typed (hybridSafe_step2Payload hout))
      · obtain rfl := Except.ok.inj hx
        exact fun b hb => (by cases hb)
      · cases hx
  | openRatchetChunk bytes =>
    obtain ⟨r, hopen, hnp, ⟨-, ho⟩ | ⟨x, rfl, ho⟩⟩ := perform_openRatchetChunk hc
    · rw [ho]
      exact fun b hb => (by cases hb)
    · rw [ho]
      rcases openRatchetChunk_cases hopen with ⟨a, b, -, ⟨e, he⟩ | hx⟩ | he |
          ⟨ch, a, x, k, out, payload, records, -, -, -, -, hout, hrecords, -, -, hx⟩ |
          ⟨ch, a, kex, payload, x, ct, -, -, -, -, ⟨e, -, -, e', he⟩ | ⟨ss, -, -, -, hx⟩⟩
      · cases he
      · obtain rfl := Except.ok.inj hx
        exact fun b hb => (by cases hb)
      · cases he
      · obtain rfl := Except.ok.inj hx
        exact hybridSafe_chunks hcode (hnonce _) (hybridSafe_step2Payload hout) hrecords
      · cases he
      · obtain rfl := Except.ok.inj hx
        exact fun b hb => (by cases hb)

end Sent

/-! ### What a session holds -/

section Fields

variable {S : Schedule} {p q : Party} {s : RatchetedSession Bytes} {e n : ℕ} {t : Bytes}

/-- The keys that a session holds are of its own epoch and earlier ones. -/
theorem SessionOk.mem_fields_le (h : SessionOk S p s) (ht : t ∈ s.fields) :
    t = S.rootAt s.sendEpoch ∨ (∃ e q i, e ≤ s.sendEpoch ∧ t = S.chainAt e q i) ∨
    (∃ e q n, e ≤ s.sendEpoch ∧ t = S.keyAt e q n) ∨
    ∃ k, s.pending = some (kexOf k) ∧ t ∈ kexFields (kexOf k) := by
  rcases ht with rfl | rfl | ⟨slot, recv, hr, rfl | ⟨n, hn⟩⟩ | ⟨kex, hk, ht⟩
  · exact .inl h.root
  · exact .inr (.inl ⟨_, _, _, le_rfl, h.send⟩)
  · exact .inr (.inl ⟨_, _, _, h.epoch_recv hr, (h.recv slot recv hr).chain⟩)
  · exact .inr (.inr (.inl ⟨_, _, _, h.epoch_recv hr, ((h.recv slot recv hr).skipped n t hn).2⟩))
  · obtain ⟨-, k, rfl⟩ := h.pending kex hk
    exact .inr (.inr (.inr ⟨k, hk, ht⟩))

/-- Pending key material is no chain key. -/
theorem chainAt_notMem_kexFields (i k : ℕ) : S.chainAt e q i ∉ kexFields (kexOf k) := by
  cases i with
  | zero => cases e <;> exact notMem_kexFields (by simp) (by simp)
  | succ i =>
    rw [Schedule.chainAt_succ]
    exact notMem_kexFields (by simp) (by simp)

theorem SessionOk.chainAt_notMem_of_lt (h : SessionOk S p s) (he : s.sendEpoch < e) (i : ℕ) :
    S.chainAt e q i ∉ s.fields := by
  intro ht
  rcases h.mem_fields_le ht with ht | ⟨e', q', i', hle, ht⟩ | ⟨e', q', n', -, ht⟩ | ⟨k, -, ht⟩
  · exact Schedule.rootAt_ne_chainAt _ _ _ _ ht.symm
  · obtain ⟨rfl, -, -⟩ := Schedule.chainAt_inj ht
    omega
  · exact Schedule.chainAt_ne_keyAt _ _ _ _ _ _ ht
  · exact chainAt_notMem_kexFields i k ht

theorem SessionOk.keyAt_notMem_of_lt (h : SessionOk S p s) (he : s.sendEpoch < e) (n : ℕ) :
    S.keyAt e q n ∉ s.fields := by
  intro ht
  rcases h.mem_fields_le ht with ht | ⟨e', q', i', -, ht⟩ | ⟨e', q', n', hle, ht⟩ | ⟨k, -, ht⟩
  · exact Schedule.rootAt_ne_mac _ _ _ ht.symm
  · exact Schedule.chainAt_ne_keyAt _ _ _ _ _ _ ht.symm
  · obtain ⟨rfl, -, -⟩ := Schedule.keyAt_inj ht
    omega
  · exact notMem_kexFields (by simp) (by simp) ht

theorem SessionOk.keyAt_notMem_of_spent (h : SessionOk S p s) (hs : s.Spent p e q n) :
    S.keyAt e q n ∉ s.fields := by
  intro ht
  rcases h.mem_fields ht with ht | ⟨e', q', i', ht, -⟩ | ⟨e', q', n', ht, hn⟩ | ⟨k, ht⟩
  · exact Schedule.rootAt_ne_mac _ _ _ ht.symm
  · exact Schedule.chainAt_ne_keyAt _ _ _ _ _ _ ht.symm
  · obtain ⟨rfl, rfl, rfl⟩ := Schedule.keyAt_inj ht
    exact hn hs
  · exact notMem_kexFields (by simp) (by simp) ht

theorem SessionOk.rootAt_notMem_of_lt (h : SessionOk S p s) (he : e < s.sendEpoch) :
    S.rootAt e ∉ s.fields := by
  intro ht
  rcases h.mem_fields ht with ht | ⟨e', q', i', ht, -⟩ | ⟨e', q', n', ht, -⟩ | ⟨k, ht⟩
  · exact absurd (Schedule.rootAt_inj ht) he.ne
  · exact Schedule.rootAt_ne_chainAt _ _ _ _ ht
  · exact Schedule.rootAt_ne_mac _ _ _ ht
  · cases e <;> exact notMem_kexFields (by simp) (by simp) ht

/-- A session holds its keys in every longer schedule. -/
theorem SessionOk.of_isPrefix {th : Bytes} {xs xs' : List Exchange}
    (h : SessionOk (scheduleOf th xs) p s) (hx : xs <+: xs') :
    SessionOk (scheduleOf th xs') p s := by
  obtain ⟨ys, rfl⟩ := hx
  induction ys using List.reverseRecOn with
  | nil => rwa [List.append_nil]
  | append_singleton ys x ih =>
    rw [← List.append_assoc, scheduleOf_concat]
    exact ih.push

end Fields

/-! ### Keys that are out of reach -/

section Unsafe

variable {w₀ : Pair} {S : Schedule} {p q : Party} {e n : ℕ}

/-- From an unsafe first chain key, the chain keys and the message keys are unsafe, if no session
holds one. -/
theorem not_hybridSafe_keyAt (hfirst : ¬ w₀.policy.HybridSafe (S.firstChain e q))
    (hchain : ∀ p, ∀ i ≤ n, S.chainAt e q i ∉ (w₀.session p).fields)
    (hkey : ∀ p, S.keyAt e q n ∉ (w₀.session p).fields) :
    ¬ w₀.policy.HybridSafe (S.keyAt e q n) := by
  -- along the chain, each key rests on the one before
  have hall : ∀ i ≤ n, ¬ w₀.policy.HybridSafe (S.chainAt e q i) := by
    intro i hi
    induction i with
    | zero => exact hfirst
    | succ i ih =>
      have hfield := fun p => hchain p (i + 1) hi
      rw [Schedule.chainAt_succ] at hfield ⊢
      exact Policy.not_hybridSafe_fn rfl (by simp) (by simp) (fun ⟨p, hp⟩ => hfield p hp)
        (.inl (ih (by omega)))
  exact Policy.not_hybridSafe_fn rfl (by simp) (by simp) (fun ⟨p, hp⟩ => hkey p hp)
    (.inl (hall n le_rfl))

/-- No session holds what keys are extracted into, so it is unsafe when an input is. -/
theorem not_hybridSafe_extract (hok : ∀ p, SessionOk S p (w₀.session p)) {a b : Bytes}
    (h : ¬ w₀.policy.HybridSafe a ∨ ¬ w₀.policy.HybridSafe b) :
    ¬ w₀.policy.HybridSafe (.fn .extract a b) :=
  Policy.not_hybridSafe_fn rfl (by simp) (by simp)
    (fun ⟨p, hp⟩ => (hok p).extract_notMem _ _ hp) h

/-- The chain keys of an epoch are unsafe from the first one on when the root key before the epoch
is, or what was exchanged. -/
theorem not_hybridSafe_firstChain (hok : ∀ p, SessionOk S p (w₀.session p))
    (hfield : ∀ p, S.chainAt (e + 1) q 0 ∉ (w₀.session p).fields)
    (h : ¬ w₀.policy.HybridSafe (S.rootAt e) ∨ ¬ w₀.policy.HybridSafe (S.secretAt e)) :
    ¬ w₀.policy.HybridSafe (S.firstChain (e + 1) q) :=
  Policy.not_hybridSafe_fn rfl (by simp) (by simp) (fun ⟨p, hp⟩ => hfield p hp)
    (.inl (not_hybridSafe_extract hok h))

/-- **Earlier root keys are out of reach.** -/
theorem not_hybridSafe_rootAt (hok : ∀ p, SessionOk S p (w₀.session p))
    (he : ∀ p, e < (w₀.session p).sendEpoch) : ¬ w₀.policy.HybridSafe (S.rootAt e) := by
  have hfield := fun p => (hok p).rootAt_notMem_of_lt (he p)
  induction e with
  | zero =>
    -- the first root key rests on the handshake's secret
    refine Policy.not_hybridSafe_fn rfl (by simp) (by simp) (fun ⟨p, hp⟩ => hfield p hp) (.inl ?_)
    exact not_hybridSafe_extract hok (.inr fun hs => hs trivial)
  | succ e ih =>
    have he' : ∀ p, e < (w₀.session p).sendEpoch := fun p => Nat.lt_of_succ_lt (he p)
    refine Policy.not_hybridSafe_fn rfl (by simp) (by simp) (fun ⟨p, hp⟩ => hfield p hp) (.inl ?_)
    exact not_hybridSafe_extract hok (.inl (ih he' fun p => (hok p).rootAt_notMem_of_lt (he' p)))

/-- **The secret of an exchange that was initiated after the compromise is out of reach.** -/
theorem not_hybridSafe_secretAt {th : Bytes} {xs : List Exchange} {x : Exchange}
    (hx : xs[e]? = some x) (hk : w₀.calls ≤ x.k) :
    ¬ w₀.policy.HybridSafe ((scheduleOf th xs).secretAt e) := by
  have hsecret : (scheduleOf th xs).secretAt e = (exchange x.k x.k').sharedSecret := by
    rw [Schedule.secretAt, steps_getElem? hx]
    rfl
  rw [hsecret]
  rintro ⟨-, hkem, -⟩
  rcases (hkem : w₀.policy.HybridSafe (.fn .kemShared (.name (.mlKem x.k))
    (.name (.kemRandom x.k')))) with hs | hs
  · exact hs hk
  · exact hs trivial

end Unsafe

/-! ### The run -/

section Run

variable {th : Bytes} {xs xs₀ : List Exchange} {w w' w₀ : Pair} {a : PairAction}
  {allowed : Pair → PairAction → Prop}

theorem kexOf_injective : Function.Injective kexOf := fun _ _ h =>
  Name.x25519.inj (Term.name.inj (congrArg InitiatorKex.x25519Secret h))

/-- One of the sides is in the newest epoch. -/
theorem Pair.Inv.epoch_eq (h : w.Inv th xs) : w.epoch = xs.length := by
  have h1 := h.epoch_le .initiator
  have h2 := h.epoch_le .responder
  unfold Pair.epoch
  rcases h1.lt_or_eq with hlt | heq
  · obtain ⟨-, -, -, hpeer⟩ := h.lag .initiator _ (List.getElem?_eq_getElem hlt)
    have hpeer' : (w.session .responder).sendEpoch = xs.length := hpeer
    omega
  · omega

/-- What both sessions held may be handed out. -/
theorem hybridSafe_fields (h₀ : w₀.Inv th xs₀)
    (hpending : ∀ p k, (w₀.session p).pending = some (kexOf k) → k < w₀.calls) {p : Party}
    {t : Bytes} (ht : t ∈ (w₀.session p).fields) : w₀.policy.HybridSafe t := by
  have hexposed : ∀ f (a b : Bytes), t = .fn f a b → f ≠ .kemShared → f ≠ .dhShared →
      w₀.policy.HybridSafe t := by
    rintro f a b rfl hkem hdh
    exact (Policy.hybridSafe_fn hkem hdh).2 (.inr (.inl ⟨p, ht⟩))
  rcases (h₀.session p).mem_fields_le ht with rfl | ⟨e, q, i, -, rfl⟩ | ⟨e, q, n, -, rfl⟩ |
      ⟨k, hk, hmem⟩
  · cases hs : (w₀.session p).sendEpoch <;> rw [hs] at hexposed <;>
      exact hexposed _ _ _ rfl (by simp) (by simp)
  · cases i with
    | zero => cases e <;> exact hexposed _ _ _ rfl (by simp) (by simp)
    | succ i => exact hexposed _ _ _ (Schedule.chainAt_succ e q i) (by simp) (by simp)
  · exact hexposed _ _ _ rfl (by simp) (by simp)
  · -- the secrets of a pending step were drawn before the compromise
    have hlt := hpending p k hk
    rcases hmem with rfl | rfl | rfl | rfl
    · exact fun hs => absurd hs (Nat.not_le.2 hlt)
    · exact Policy.hybridSafe_public rfl (by simp)
    · exact Policy.hybridSafe_public rfl (by simp)
    · exact fun hs => absurd hs (Nat.not_le.2 hlt)

/-- The run after the compromise: the exchanges of later steps are fresh, and what was sent gives
nothing away. -/
structure Pair.After (w₀ : Pair) (th : Bytes) (xs₀ xs : List Exchange) (w : Pair) : Prop where
  inv : w.Inv th xs
  earlier : xs₀ <+: xs
  calls : w₀.calls ≤ w.calls
  fresh : ∀ i x, w₀.exposedEpoch ≤ i → xs[i]? = some x → w₀.calls ≤ x.k
  /-- A step that was under way at the compromise leads to the exposed epoch at most. -/
  pending : ∀ p k, (w.session p).pending = some (kexOf k) → w₀.calls ≤ k ∨
    (w.session p).sendEpoch < xs.length ∨ xs.length < w₀.exposedEpoch
  safe : ∀ m ∈ w.net, w₀.policy.HybridSafe m.bytes

theorem Pair.After.start (h₀ : w₀.Inv th xs₀) (hsafe : ∀ m ∈ w₀.net, w₀.policy.HybridSafe m.bytes) :
    w₀.After th xs₀ xs₀ w₀ where
  inv := h₀
  earlier := List.prefix_refl _
  calls := le_rfl
  fresh i x hi hx := by
    have hlt := (List.getElem?_eq_some_iff.1 hx).1
    have hepoch := h₀.epoch_eq
    unfold Pair.exposedEpoch at hi
    split_ifs at hi <;> omega
  pending p k hk := by
    rcases (h₀.epoch_le p).lt_or_eq with hlt | heq
    · exact .inr (.inl hlt)
    · -- the step is under way
      have hepoch := h₀.epoch_eq
      have hunder : w₀.underWay = true := by
        unfold Pair.underWay
        refine List.any_eq_true.2 ⟨p, by cases p <;> simp, ?_⟩
        simp [hk, heq, hepoch]
      rw [Pair.exposedEpoch, if_pos hunder]
      exact .inr (.inr (by omega))
  safe := hsafe

/-- What the adversary knows may be handed out. -/
theorem Pair.After.hybridSafe_of_derives (h : w₀.After th xs₀ xs w)
    (hfields : ∀ p, ∀ t ∈ (w₀.session p).fields, w₀.policy.HybridSafe t) {t : Bytes}
    (ht : Derives (Pair.knowledge w₀ w) t) : w₀.policy.HybridSafe t := by
  refine Policy.hybridSafe_of_derives ?_ ht
  rintro t (⟨p, hp⟩ | ⟨m, hm, rfl⟩)
  · exact hfields p t hp
  · exact h.safe m hm

/-- A compromise does not reach the keys of an epoch after the exposed ones. -/
theorem Pair.After.not_hybridSafe_later (h₀ : w₀.Inv th xs₀) (h : w₀.After th xs₀ xs w) {e n : ℕ}
    {q : Party} (he : w₀.exposedEpoch < e) (hle : e ≤ xs.length) :
    ¬ w₀.policy.HybridSafe ((scheduleOf th xs).keyAt e q n) := by
  have hok : ∀ p, SessionOk (scheduleOf th xs) p (w₀.session p) :=
    fun p => (h₀.session p).of_isPrefix h.earlier
  have hlt : ∀ p, (w₀.session p).sendEpoch < e := by
    intro p
    have hp := h₀.epoch_le p
    have hepoch := h₀.epoch_eq
    unfold Pair.exposedEpoch at he
    split_ifs at he <;> omega
  obtain ⟨e, rfl⟩ : ∃ e', e = e' + 1 := ⟨e - 1, by omega⟩
  -- the epoch comes from an exchange initiated after the compromise
  have hx : xs[e]? = some xs[e] := List.getElem?_eq_getElem hle
  refine not_hybridSafe_keyAt ?_ (fun p i _ => (hok p).chainAt_notMem_of_lt (hlt p) i)
    (fun p => (hok p).keyAt_notMem_of_lt (hlt p) n)
  exact not_hybridSafe_firstChain hok (fun p => (hok p).chainAt_notMem_of_lt (hlt p) 0)
    (.inr (not_hybridSafe_secretAt hx (h.fresh e _ (by omega) hx)))

/-- A compromise does not reach the key of a record that both sides are done with, when both have
left epoch `0`. -/
theorem not_hybridSafe_spent (h₀ : w₀.Inv th xs₀) (h0 : ∀ p, 0 < (w₀.session p).sendEpoch) {e n : ℕ}
    {q : Party} (hspent : ∀ p, (w₀.session p).Spent p e q n) :
    ¬ w₀.policy.HybridSafe ((scheduleOf th xs₀).keyAt e q n) := by
  have hchain : ∀ p, ∀ i ≤ n, (scheduleOf th xs₀).chainAt e q i ∉ (w₀.session p).fields :=
    fun p _ hi => (h₀.session p).chainAt_notMem (hspent p) hi
  refine not_hybridSafe_keyAt ?_ hchain fun p => (h₀.session p).keyAt_notMem_of_spent (hspent p)
  cases e with
  | zero =>
    exact Policy.not_hybridSafe_fn rfl (by simp) (by simp)
      (fun ⟨p, hp⟩ => hchain p 0 (Nat.zero_le n) hp) (.inl (not_hybridSafe_rootAt h₀.session h0))
  | succ e =>
    exact not_hybridSafe_firstChain h₀.session (fun p => hchain p 0 (Nat.zero_le n))
      (.inl (not_hybridSafe_rootAt h₀.session fun p => Nat.lt_of_succ_le (hspent p).epoch_le))

variable [ReedSolomon Bytes]

/-- What a step is. -/
theorem Pair.step_cases (hs : w.step a = some w') : ∃ c o, a.call w.net = some c ∧
    (w.session a.party).perform w.calls c = some o ∧ w' = w.after a.party c o := by
  obtain ⟨c, hc, hs⟩ := Option.bind_eq_some_iff.1 hs
  obtain ⟨o, ho, hs⟩ := Option.bind_eq_some_iff.1 hs
  exact ⟨c, o, hc, ho, (Option.some.inj hs).symm⟩

/-- A step keeps both sides together. -/
theorem Pair.Inv.effect (h : w.Inv th xs) {c : Call} {o : Outcome} (hc : a.call w.net = some c)
    (ho : (w.session a.party).perform w.calls c = some o) :
    ∃ xs', Effect th xs xs' w a.party c o := by
  cases a with
  | sealRecord p plaintext =>
    obtain rfl := Option.some.inj hc
    exact ⟨xs, effect_sealRecord h ho⟩
  | initiateRatchet p =>
    obtain rfl := Option.some.inj hc
    exact ⟨xs, effect_initiateRatchet h ho⟩
  | initiateIncrementalRatchet p d n =>
    obtain rfl := Option.some.inj hc
    exact ⟨xs, effect_initiateIncrementalRatchet h ho⟩
  | openRecord p i =>
    obtain ⟨m, hm, rfl⟩ := Option.map_eq_some_iff.1 hc
    exact effect_openRecord h (List.mem_of_getElem? hm) ho
  | openRatchetChunk p i =>
    obtain ⟨m, hm, rfl⟩ := Option.map_eq_some_iff.1 hc
    exact effect_openRatchetChunk h (List.mem_of_getElem? hm) ho

/-- What a call does to the pending step: nothing, in the same epoch; or the step is over; or it is
the call's own. -/
theorem perform_pending {s : RatchetedSession Bytes} {k : ℕ} {c : Call} {o : Outcome}
    (hc : s.perform k c = some o) :
    o.session.pending = s.pending ∧ o.session.sendEpoch = s.sendEpoch ∨
      o.session.pending = none ∨ o.session.pending = some (kexOf k) := by
  cases c with
  | sealRecord plaintext =>
    rcases perform_sealRecord hc with rfl | ⟨s', record, hs, rfl⟩
    · exact .inl ⟨rfl, rfl⟩
    · obtain ⟨-, rfl, -⟩ := sealPayload_eq_ok hs
      exact .inl ⟨rfl, rfl⟩
  | initiateRatchet =>
    rcases perform_initiateRatchet hc with rfl | ⟨s', record, hs, rfl⟩
    · exact .inl ⟨rfl, rfl⟩
    · obtain ⟨-, -, rfl, -⟩ := initiateRatchet_eq_ok hs
      exact .inr (.inr rfl)
  | initiateIncrementalRatchet d n =>
    rcases perform_initiateIncrementalRatchet hc with rfl | ⟨s', records, hs, rfl⟩
    · exact .inl ⟨rfl, rfl⟩
    · obtain ⟨-, rfl, -⟩ := initiateIncrementalRatchet_eq_ok hs
      exact .inr (.inr rfl)
  | openRecord record =>
    obtain ⟨r, hopen, hnp, -⟩ := perform_openRecord hc
    rcases openRecord_cases hopen with ⟨hs, -⟩ |
        ⟨slot, recv, seq, aad, ct, recv', opened, -, -, -, hend⟩
    · rw [hs]
      exact .inl ⟨rfl, rfl⟩
    · have hset : (s.setRecv recv' slot).pending = s.pending ∧
          (s.setRecv recv' slot).sendEpoch = s.sendEpoch := by
        cases slot <;> exact ⟨rfl, rfl⟩
      rcases handleOpened_cases hend with ⟨hs, -⟩ | hpanic | ⟨m, body, -, ⟨-, hs, -⟩ |
          ⟨-, reply, hstep, -⟩ | ⟨-, done, hstep, hdone⟩⟩
      · rw [hs]
        exact .inl hset
      · exact absurd hpanic hnp
      · rw [hs]
        exact .inl hset
      · rcases handleStep1_cases hstep with ⟨hs, -⟩ | he |
            ⟨x, k, out, hpend, -, -, -, -, -, hs, -⟩
        · rw [hs]
          exact .inl hset
        · cases he
        · rw [hs]
          exact .inr (.inl hpend)
      · rcases handleStep2_cases hstep with ⟨hs, -⟩ | hpanic |
            ⟨kex, -, -, ⟨hs, -⟩ | ⟨x, ct, ss, -, -, -, hs, -⟩⟩
        · rw [hs]
          exact .inl hset
        · rcases hdone with ⟨hok, -⟩ | ⟨e, he, hr⟩
          · rw [hpanic] at hok
            cases hok
          · rw [hpanic] at he
            obtain rfl := Except.error.inj he
            exact absurd hr hnp
        · rw [hs]
          exact .inr (.inl rfl)
        · rw [hs]
          exact .inr (.inl rfl)
  | openRatchetChunk bytes =>
    obtain ⟨r, hopen, hnp, -⟩ := perform_openRatchetChunk hc
    rcases openRatchetChunk_cases hopen with ⟨a, b, hs, -⟩ | hpanic |
        ⟨ch, a, x, k, out, payload, records, hpend, -, -, -, -, -, -, hs, -⟩ |
        ⟨ch, a, kex, payload, x, ct, -, -, -, -, ⟨e, -, hs, -⟩ | ⟨ss, -, -, hs, -⟩⟩
    · rw [hs]
      exact .inl ⟨rfl, rfl⟩
    · exact absurd hpanic hnp
    · rw [hs]
      exact .inr (.inl hpend)
    · rw [hs]
      exact .inr (.inl rfl)
    · rw [hs]
      exact .inr (.inl rfl)

/-- Pending key material was drawn by an earlier call. -/
theorem pending_lt (h : pairMachine.Reachable allowed w) :
    ∀ p k, (w.session p).pending = some (kexOf k) → k < w.calls := by
  refine Machine.Reachable.invariant
    (I := fun w : Pair => ∀ p k, (w.session p).pending = some (kexOf k) → k < w.calls)
    (fun w hw p k hk => ?_) (fun w w' a _ hw _ hs p k hk => ?_) h
  · obtain ⟨th, rfl⟩ := hw
    cases hk
  · obtain ⟨c, o, -, ho, rfl⟩ := Pair.step_cases hs
    by_cases hp : p = a.party
    · subst hp
      rw [Pair.session_after_self] at hk
      rcases perform_pending ho with ⟨hsame, -⟩ | hnone | hnew
      · rw [hsame] at hk
        exact Nat.lt_succ_of_lt (hw _ k hk)
      · rw [hnone] at hk
        cases hk
      · rw [hnew] at hk
        rw [kexOf_injective (Option.some.inj hk.symm)]
        exact Nat.lt_succ_self _
    · rw [Pair.session_after_of_ne hp] at hk
      exact Nat.lt_succ_of_lt (hw p k hk)

/-- **What is sent gives nothing away**, before the compromise and after it. -/
theorem hybridSafe_net_step (hcode : CombinesShards)
    (hfields : ∀ p, ∀ t ∈ (w₀.session p).fields, w₀.policy.HybridSafe t)
    (hnet : ∀ m ∈ w.net, w₀.policy.HybridSafe m.bytes) (ha : Chosen w₀ w a)
    (hs : w.step a = some w') : ∀ m ∈ w'.net, w₀.policy.HybridSafe m.bytes := by
  obtain ⟨c, o, hc, ho, rfl⟩ := Pair.step_cases hs
  have hplain : ∀ m, c = .sealRecord m → w₀.policy.HybridSafe m := by
    rintro m rfl
    cases a with
    | sealRecord p plaintext =>
      obtain rfl := Call.sealRecord.inj (Option.some.inj hc)
      refine Policy.hybridSafe_of_derives ?_ ha
      rintro t (⟨p, ht⟩ | ⟨m, hm, rfl⟩)
      · exact hfields p t ht
      · exact hnet m hm
    | initiateRatchet p => cases hc
    | initiateIncrementalRatchet p d n => cases hc
    | openRecord p i =>
      obtain ⟨m', -, hm'⟩ := Option.map_eq_some_iff.1 hc
      cases hm'
    | openRatchetChunk p i =>
      obtain ⟨m', -, hm'⟩ := Option.map_eq_some_iff.1 hc
      cases hm'
  intro m hm
  rcases List.mem_append.1 hm with hm | hm
  · exact hnet m hm
  · obtain ⟨b, hb, rfl⟩ := List.mem_map.1 hm
    exact hybridSafe_perform hcode (fun k hs => hs) hplain ho b hb

/-- **One step after the compromise.** An exchange is new only when it answers the step that the
peer waits for. -/
theorem Pair.After.step (h : w₀.After th xs₀ xs w) (hcode : CombinesShards)
    (hfields : ∀ p, ∀ t ∈ (w₀.session p).fields, w₀.policy.HybridSafe t) (ha : Chosen w₀ w a)
    (hs : w.step a = some w') : ∃ xs', w₀.After th xs₀ xs' w' := by
  have hsafe := hybridSafe_net_step hcode hfields h.safe ha hs
  obtain ⟨c, o, hc, ho, rfl⟩ := Pair.step_cases hs
  obtain ⟨xs', he⟩ := h.inv.effect hc ho
  have hinv := h.inv.after he
  have hlen : xs.length ≤ xs'.length := by
    rcases he.exchanges with rfl | ⟨x, rfl⟩
    · exact le_rfl
    · simp
  refine ⟨xs', hinv, ?_, h.calls.trans (Nat.le_succ _), fun i x hi hx => ?_,
    fun p k hk => ?_, hsafe⟩
  · rcases he.exchanges with rfl | ⟨x, rfl⟩
    · exact h.earlier
    · exact h.earlier.trans (List.prefix_append _ _)
  · rcases he.exchanges with rfl | ⟨y, rfl⟩
    · exact h.fresh i x hi hx
    · rcases Nat.lt_or_ge i xs.length with hlt | hge
      · rw [List.getElem?_append_left hlt] at hx
        exact h.fresh i x hi hx
      · -- the new exchange: the peer waited for it, in the newest epoch
        have hle := h.inv.epoch_le a.party.peer
        have hlag := he.lag a.party.peer
        rw [Pair.session_after_peer] at hlag
        obtain ⟨z, hz⟩ : ∃ z, (xs ++ [y])[(w.session a.party.peer).sendEpoch]? = some z :=
          ⟨_, List.getElem?_eq_getElem (by simp; omega)⟩
        obtain ⟨-, hpend, hlength, -⟩ := hlag z hz
        have hnewest : (w.session a.party.peer).sendEpoch = xs.length := by
          simp at hlength
          omega
        have hlt := (List.getElem?_eq_some_iff.1 hx).1
        obtain rfl : i = xs.length := by
          simp at hlt
          omega
        obtain rfl : z = x := Option.some.inj (hz.symm.trans (hnewest ▸ hx))
        rcases h.pending _ _ hpend with hk | hk | hk
        · exact hk
        · omega
        · omega
  · have hkeep : ∀ q, (w.session q).pending = some (kexOf k) → w₀.calls ≤ k ∨
        (w.session q).sendEpoch < xs'.length ∨ xs'.length < w₀.exposedEpoch := by
      -- a step that was pending before falls behind when an exchange ends the epoch
      intro q hq
      rcases he.exchanges with rfl | ⟨y, rfl⟩
      · exact h.pending q k hq
      · exact .inr (.inl ((h.inv.epoch_le q).trans_lt (by simp)))
    rcases Party.eq_or_eq_peer a.party p with rfl | rfl
    · rw [Pair.session_after_self] at hk ⊢
      rcases perform_pending ho with ⟨hsame, hepoch⟩ | hnone | hnew
      · rw [hepoch]
        exact hkeep _ (hsame ▸ hk)
      · rw [hnone] at hk
        cases hk
      · rw [hnew] at hk
        rw [← kexOf_injective (Option.some.inj hk)]
        exact .inl h.calls
    · rw [Pair.session_after_peer] at hk ⊢
      exact hkeep _ hk

/-- What is sent up to the compromise. -/
theorem Pair.After.of_reachable (hcode : CombinesShards)
    (h : pairMachine.Reachable (Chosen w) w) : ∃ th xs, w.After th xs xs w ∧
      ∀ p, ∀ t ∈ (w.session p).fields, w.policy.HybridSafe t := by
  obtain ⟨th, xs, hinv⟩ := Pair.Inv.run h
  have hfields : ∀ p, ∀ t ∈ (w.session p).fields, w.policy.HybridSafe t :=
    fun p t ht => hybridSafe_fields hinv (pending_lt h) ht
  have hnet : ∀ m ∈ w.net, w.policy.HybridSafe m.bytes := by
    refine Machine.Reachable.invariant
      (I := fun v : Pair => ∀ m ∈ v.net, w.policy.HybridSafe m.bytes)
      (fun v hv => ?_) (fun v v' a _ hv ha hs => hybridSafe_net_step hcode hfields hv ha hs) h
    obtain ⟨th, rfl⟩ := hv
    exact fun m hm => (by cases hm)
  exact ⟨th, xs, .start hinv hnet, hfields⟩

/-- The run after the compromise. -/
theorem Pair.After.run (hcode : CombinesShards) (h₀ : w₀.After th xs₀ xs₀ w₀)
    (hfields : ∀ p, ∀ t ∈ (w₀.session p).fields, w₀.policy.HybridSafe t)
    (h : (pairMachine.startAt w₀).Reachable (Chosen w₀) w) : ∃ xs, w₀.After th xs₀ xs w := by
  refine Machine.Reachable.invariant (I := fun w => ∃ xs, w₀.After th xs₀ xs w) (fun w hw => ?_)
    (fun w w' a _ hw ha hs => ?_) h
  · obtain rfl : w = w₀ := hw
    exact ⟨xs₀, h₀⟩
  · obtain ⟨xs, hw⟩ := hw
    exact hw.step hcode hfields ha hs

/-- **The compromise window.**  Whoever reads the whole network, sends what it likes, and at one
moment reads everything that both sessions hold, derives no message key of an epoch after the
exposed ones, and none of a record that was delivered before, once both sides had left
epoch `0`. -/
theorem compromise_window (hcode : CombinesShards) (h₀ : pairMachine.Reachable (Chosen w₀) w₀)
    (h : (pairMachine.startAt w₀).Reachable (Chosen w₀) w) :
    (∀ p, ∀ r ∈ w.sealed p, ∀ e n aad ct key, readRecord r.1 = some (e, n, aad, ct) →
      w₀.exposedEpoch < e → MessageKey r.1 key → ¬ Derives (Pair.knowledge w₀ w) key) ∧
    ((∀ p, 0 < (w₀.session p).sendEpoch) → ∀ p, ∀ r ∈ w₀.delivered p, ∀ key,
      MessageKey r.1 key → ¬ Derives (Pair.knowledge w₀ w) key) := by
  obtain ⟨th, xs₀, hstart, hfields⟩ := Pair.After.of_reachable hcode h₀
  obtain ⟨xs, hafter⟩ := hstart.run hcode hfields h
  constructor
  · -- the record names the epoch that it was sealed in
    intro p r hr e n aad ct key hread he hkey hd
    obtain ⟨e', n', t, hrec, hspent⟩ := hafter.inv.sealed p r hr
    rw [hrec] at hkey hread
    obtain ⟨hframe, rfl⟩ := readRecord_eq_some hread
    obtain rfl : e' = e := by
      have hheader := (List.cons.inj (Term.list_inj.1 hframe)).1
      exact Term.num.inj (List.cons.inj (Term.list_inj.1 hheader)).1
    rw [messageKey_iff.1 hkey] at hd
    exact hafter.not_hybridSafe_later hstart.inv he (hspent.epoch_le.trans (hafter.inv.epoch_le p))
      (hafter.hybridSafe_of_derives hfields hd)
  · -- the sender is done with what it sealed, the receiver with what it opened
    intro h0 p r hr key hkey hd
    obtain ⟨hsealed, e, n, t, hrec, hspent⟩ := hstart.inv.delivered p r hr
    obtain ⟨e', n', t', hrec', hspent'⟩ := hstart.inv.sealed p.peer r hsealed
    obtain ⟨rfl, -, rfl⟩ := recordBytes_inj (hrec.symm.trans hrec')
    rw [hrec] at hkey
    rw [messageKey_iff.1 hkey] at hd
    refine not_hybridSafe_spent hstart.inv h0 (fun q => ?_)
      (hafter.hybridSafe_of_derives hfields hd)
    rcases Party.eq_or_eq_peer p q with rfl | rfl
    · exact hspent
    · exact hspent'

end Run

section Sample

attribute [local instance] symbolicCode

theorem combinesShards_symbolicCode : CombinesShards := by
  intro n m data recovery h shard hshard
  obtain rfl := Option.some.inj h
  obtain ⟨j, -, rfl⟩ := List.mem_map.1 hshard
  exact .fn rfl (.list fun t ht => .known ht) (.num j)

/-- A record is delivered, and a step completed. -/
def beforeRun : List PairAction :=
  [.sealRecord .initiator (.lit "before"), .openRecord .responder 0, .initiateRatchet .initiator,
    .openRecord .responder 1, .openRecord .initiator 2]

/-- The next step, and a record. -/
def afterRun : List PairAction :=
  [.initiateRatchet .responder, .openRecord .initiator 3, .openRecord .responder 4,
    .sealRecord .initiator (.lit "after")]

/-- Both sessions are read between the two: neither record's key is derivable. -/
theorem compromise_window_sample : ∃ w₀ w, pairRun beforeRun = some w₀ ∧
    pairMachine.run w₀ afterRun = some w ∧ (w.sealed .initiator).length = 2 ∧
    ∀ r ∈ w.sealed .initiator, ∀ key, MessageKey r.1 key →
      ¬ Derives (Pair.knowledge w₀ w) key := by
  have hrun : (pairRun beforeRun).map (fun w => (w.exposedEpoch,
      (w.session .initiator).sendEpoch, (w.session .responder).sendEpoch)) = some (1, 1, 1) := by
    decide +kernel
  obtain ⟨w₀, hw₀, hp⟩ := Option.map_eq_some_iff.1 hrun
  simp only [Prod.mk.injEq] at hp
  obtain ⟨hexposed, h1, h2⟩ := hp
  have hnext : (pairRun beforeRun).bind (fun w₀ => (pairMachine.run w₀ afterRun).map fun w =>
      ((w.sealed .initiator).map fun r => (readRecord r.1).map Prod.fst,
        (w.sealed .initiator).drop 1 == w₀.delivered .responder)) =
      some ([some 2, some 0], true) := by
    decide +kernel
  rw [hw₀, Option.bind_some] at hnext
  obtain ⟨w, hw, hp⟩ := Option.map_eq_some_iff.1 hnext
  simp only [Prod.mk.injEq, beq_iff_eq] at hp
  obtain ⟨hepochs, hdelivered⟩ := hp
  have hr₀ : pairMachine.Reachable (Chosen w₀) w₀ := by
    refine Machine.Reachable.of_run (.init ⟨.nil, rfl⟩) (fun t => ?_) hw₀
    simp [beforeRun, Chosen, Derives.lit]
  have hr : (pairMachine.startAt w₀).Reachable (Chosen w₀) w := by
    refine Machine.Reachable.of_run (.init rfl) (fun t => ?_)
      ((Machine.run_startAt _ _ _ _).trans hw)
    simp [afterRun, Chosen, Derives.lit]
  obtain ⟨hlater, hspent⟩ := compromise_window combinesShards_symbolicCode hr₀ hr
  obtain ⟨r₂, r₁, hsealed⟩ : ∃ r₂ r₁, w.sealed .initiator = [r₂, r₁] :=
    List.length_eq_two.1 (by simpa using congrArg List.length hepochs)
  refine ⟨w₀, w, hw₀, hw, by rw [hsealed]; rfl, ?_⟩
  rw [hsealed] at hepochs hdelivered ⊢
  simp only [List.map_cons, List.map_nil, List.cons.injEq, Option.map_eq_some_iff,
    Prod.exists, exists_and_right, exists_eq_right] at hepochs
  obtain ⟨⟨n, aad, ct, hread⟩, -⟩ := hepochs
  intro r hr key hkey
  rcases List.mem_pair.1 hr with rfl | rfl
  · exact hlater _ _ (by rw [hsealed]; simp) _ _ _ _ _ hread (by omega) hkey
  · refine hspent (fun p => ?_) .responder _ (hdelivered ▸ List.mem_singleton.2 rfl) _ hkey
    cases p <;> omega

end Sample

end Ratchet

end NovaChannel
