import NovaChannel.Ratchet.Steps
import NovaChannel.Ratchet.System

/-!
# The key schedule of a ratcheted session

A `Schedule` is what two sessions of one handshake have in common: the transcript their root key
comes from and, for each epoch step, its shared secret and the side that initiated it.  It gives
every key a place: `rootAt e`, and for the records a side sends in epoch `e`, `chainAt e p n` and
`keyAt e p n`.  Different places hold different keys (`rootAt_inj`, `chainAt_inj`, `keyAt_inj`).

`SessionOk` says that a session holds the keys of its place in a schedule, and `Spent` which
message keys it has used.  Every operation keeps both.
-/

namespace NovaChannel

namespace Ratchet

open Crypto Kex

/-- One completed epoch step. -/
structure EpochStep where
  sharedSecret : Bytes
  /-- The side that initiated it. -/
  initiator : Party

/-- The epoch steps of a handshake's sessions so far. -/
structure Schedule where
  transcriptFinal : Bytes
  steps : List EpochStep

namespace Schedule

variable (S : Schedule)

/-- The schedule with one more step. -/
def push (x : EpochStep) : Schedule := { S with steps := S.steps ++ [x] }

/-- The shared secret of the step out of epoch `e`. -/
def secretAt (e : ℕ) : Bytes := (S.steps[e]?.map (·.sharedSecret)).getD .nil

/-- The side that initiated the step into epoch `e`. -/
def initiatorAt : ℕ → Party
  | 0 => .initiator
  | e + 1 => (S.steps[e]?.map (·.initiator)).getD .initiator

/-- The root key of epoch `e`. -/
def rootAt : ℕ → Bytes
  | 0 => handshakeRatchetRoot (.name .handshake) S.transcriptFinal
  | e + 1 => hkdfExpand 32 (hkdfExtract (some (rootAt e)) (S.secretAt e)) labelStepRoot

/-- What the keys of epoch `e + 1` are expanded from. -/
def prkAt (e : ℕ) : Bytes := hkdfExtract (some (S.rootAt e)) (S.secretAt e)

/-- The first chain key for what `p` sends in epoch `e`. -/
def firstChain : ℕ → Party → Bytes
  | 0, p => hmac (S.rootAt 0) (if p = .initiator then labelInitSend else labelInitRecv)
  | e + 1, p =>
    hkdfExpand 32 (S.prkAt e) (if p = S.initiatorAt (e + 1) then labelStepI2r else labelStepR2i)

/-- The chain key for the `n`-th record of `p` in epoch `e`. -/
def chainAt (e : ℕ) (p : Party) (n : ℕ) : Bytes := chainFrom (S.firstChain e p) n

/-- The message key of the `n`-th record of `p` in epoch `e`. -/
def keyAt (e : ℕ) (p : Party) (n : ℕ) : Bytes := (advance (S.chainAt e p n)).2

variable {S}

/-! ### A longer schedule -/

section Push

variable {x : EpochStep} {e : ℕ}

theorem secretAt_push (h : e < S.steps.length) : (S.push x).secretAt e = S.secretAt e := by
  simp [secretAt, push, List.getElem?_append_left h]

theorem initiatorAt_push (h : e ≤ S.steps.length) :
    (S.push x).initiatorAt e = S.initiatorAt e := by
  cases e with
  | zero => rfl
  | succ e => simp [initiatorAt, push, List.getElem?_append_left (show e < S.steps.length from h)]

theorem rootAt_push (h : e ≤ S.steps.length) : (S.push x).rootAt e = S.rootAt e := by
  induction e with
  | zero => rfl
  | succ e ih => rw [rootAt, rootAt, ih (by omega), secretAt_push (by omega)]

theorem firstChain_push (h : e ≤ S.steps.length) (p : Party) :
    (S.push x).firstChain e p = S.firstChain e p := by
  cases e with
  | zero => rfl
  | succ e =>
    rw [firstChain, firstChain, initiatorAt_push h, prkAt, prkAt, rootAt_push (by omega),
      secretAt_push (by omega)]

theorem chainAt_push (h : e ≤ S.steps.length) (p : Party) (n : ℕ) :
    (S.push x).chainAt e p n = S.chainAt e p n := by
  rw [chainAt, chainAt, firstChain_push h]

theorem keyAt_push (h : e ≤ S.steps.length) (p : Party) (n : ℕ) :
    (S.push x).keyAt e p n = S.keyAt e p n := by
  rw [keyAt, keyAt, chainAt_push h]

end Push

/-! ### Different places, different keys -/

theorem rootAt_succ (e : ℕ) :
    S.rootAt (e + 1) = .fn (.expand 32) (.fn .extract (S.rootAt e) (S.secretAt e))
      labelStepRoot := rfl

theorem rootAt_zero : S.rootAt 0 = .fn (.expand 32) (.fn .extract
    (.fn .hash S.transcriptFinal .nil) (.name .handshake)) labelRatchetRoot := rfl

theorem chainAt_zero (e : ℕ) (p : Party) : S.chainAt e p 0 = S.firstChain e p := rfl

theorem chainAt_succ (e : ℕ) (p : Party) (n : ℕ) :
    S.chainAt e p (n + 1) = .fn .mac (S.chainAt e p n) labelNextChain := by
  rw [chainAt, chainFrom_succ]
  rfl

theorem keyAt_eq (e : ℕ) (p : Party) (n : ℕ) :
    S.keyAt e p n = .fn .mac (S.chainAt e p n) labelMessageKey := rfl

theorem rootAt_inj {e e' : ℕ} (h : S.rootAt e = S.rootAt e') : e = e' := by
  induction e generalizing e' with
  | zero =>
    cases e' with
    | zero => rfl
    | succ e' =>
      rw [rootAt_zero, rootAt_succ] at h
      exact absurd (Term.fn.inj h).2.2 (by decide)
  | succ e ih =>
    cases e' with
    | zero =>
      rw [rootAt_zero, rootAt_succ] at h
      exact absurd (Term.fn.inj h).2.2 (by decide)
    | succ e' =>
      rw [rootAt_succ, rootAt_succ] at h
      rw [ih (Term.fn.inj (Term.fn.inj h).2.1).2.1]

/-- The first chain keys of the two sides are told apart by their labels. -/
theorem eq_of_label {p q r : Party} {a b : Bytes} (hab : a ≠ b)
    (h : (if p = r then a else b) = if q = r then a else b) : p = q := by
  by_cases hp : p = r
  · by_cases hq : q = r
    · rw [hp, hq]
    · rw [if_pos hp, if_neg hq] at h
      exact absurd h hab
  · by_cases hq : q = r
    · rw [if_neg hp, if_pos hq] at h
      exact absurd h.symm hab
    · cases p <;> cases q <;> cases r <;> simp_all

theorem firstChain_inj {e e' : ℕ} {p p' : Party} (h : S.firstChain e p = S.firstChain e' p') :
    e = e' ∧ p = p' := by
  cases e with
  | zero =>
    cases e' with
    | zero => exact ⟨rfl, eq_of_label (by decide) (Term.fn.inj h).2.2⟩
    | succ e' => cases h
  | succ e =>
    cases e' with
    | zero => cases h
    | succ e' =>
      obtain ⟨-, hprk, hlabel⟩ := Term.fn.inj h
      obtain rfl := rootAt_inj (Term.fn.inj hprk).2.1
      exact ⟨rfl, eq_of_label (by decide) hlabel⟩

/-- A first chain key is no later chain key, and no message key. -/
theorem firstChain_ne_mac (e : ℕ) (p : Party) (c : Bytes) (n : ℕ) :
    S.firstChain e p ≠ .fn .mac c (.num n) := by
  intro h
  cases e with
  | zero =>
    have hlabel := (Term.fn.inj h).2.2
    split_ifs at hlabel <;> cases hlabel
  | succ e => cases h

theorem chainAt_inj {e e' : ℕ} {p p' : Party} {n n' : ℕ}
    (h : S.chainAt e p n = S.chainAt e' p' n') : e = e' ∧ p = p' ∧ n = n' := by
  induction n generalizing n' with
  | zero =>
    cases n' with
    | zero =>
      obtain ⟨rfl, rfl⟩ := firstChain_inj h
      exact ⟨rfl, rfl, rfl⟩
    | succ n' =>
      rw [chainAt_succ] at h
      exact absurd h (firstChain_ne_mac e p _ 2)
  | succ n ih =>
    cases n' with
    | zero =>
      rw [chainAt_succ] at h
      exact absurd h.symm (firstChain_ne_mac e' p' _ 2)
    | succ n' =>
      rw [chainAt_succ, chainAt_succ] at h
      obtain ⟨rfl, rfl, rfl⟩ := ih (Term.fn.inj h).2.1
      exact ⟨rfl, rfl, rfl⟩

theorem keyAt_inj {e e' : ℕ} {p p' : Party} {n n' : ℕ} (h : S.keyAt e p n = S.keyAt e' p' n') :
    e = e' ∧ p = p' ∧ n = n' := chainAt_inj (Term.fn.inj h).2.1

theorem chainAt_ne_keyAt (e e' : ℕ) (p p' : Party) (n n' : ℕ) :
    S.chainAt e p n ≠ S.keyAt e' p' n' := by
  intro h
  cases n with
  | zero => exact firstChain_ne_mac e p _ 1 h
  | succ n =>
    rw [chainAt_succ] at h
    exact absurd (Term.fn.inj h).2.2 (by decide)

theorem rootAt_ne_mac (e : ℕ) (a b : Bytes) : S.rootAt e ≠ .fn .mac a b := by
  cases e <;> intro h <;> cases h

theorem rootAt_ne_chainAt (e e' : ℕ) (p : Party) (n : ℕ) : S.rootAt e ≠ S.chainAt e' p n := by
  intro h
  cases n with
  | succ n =>
    rw [chainAt_succ] at h
    exact rootAt_ne_mac e _ _ h
  | zero =>
    cases e' with
    | zero => exact rootAt_ne_mac e _ _ h
    | succ e' =>
      -- the labels of root keys and chain keys differ
      have hlabel : ∀ l : Bytes, l = labelStepRoot ∨ l = labelRatchetRoot →
          l ≠ if p = S.initiatorAt (e' + 1) then labelStepI2r else labelStepR2i := by
        rintro l (rfl | rfl) <;> split_ifs <;> decide
      cases e with
      | zero => exact hlabel _ (.inr rfl) (Term.fn.inj h).2.2
      | succ e => exact hlabel _ (.inl rfl) (Term.fn.inj h).2.2

end Schedule

/-! ### A session's place in a schedule -/

/-- The chain and the cached keys are those of the records `q` sends in the chain's epoch. -/
structure RecvOk (S : Schedule) (q : Party) (recv : RecvChain Bytes) : Prop where
  chain : recv.chain = S.chainAt recv.epoch q recv.expectedSeq
  skipped : ∀ n key, (n, key) ∈ recv.skipped →
    n < recv.expectedSeq ∧ key = S.keyAt recv.epoch q n

/-- The session of `p` holds the keys of its epoch. -/
structure SessionOk (S : Schedule) (p : Party) (s : RatchetedSession Bytes) : Prop where
  epoch_le : s.sendEpoch ≤ S.steps.length
  root : s.rootKey = S.rootAt s.sendEpoch
  send : s.sendChain = S.chainAt s.sendEpoch p s.sendSeq
  current : s.recvCurrent.epoch = s.sendEpoch
  previous : ∀ recv, s.recvPrevious = some recv → recv.epoch + 1 = s.sendEpoch
  recv : ∀ slot recv, s.recv slot = some recv → RecvOk S p.peer recv
  pending : ∀ kex, s.pending = some kex → s.pendingEpoch = s.sendEpoch ∧ ∃ k, kex = kexOf k

/-- The record was opened: its key is neither ahead nor cached. -/
def RecvChain.Spent {β : Type} (recv : RecvChain β) (n : ℕ) : Prop :=
  n < recv.expectedSeq ∧ ∀ key, (n, key) ∉ recv.skipped

/-- The session of `p` is done with the `n`-th record of `q` in epoch `e`. -/
structure RatchetedSession.Spent (s : RatchetedSession Bytes) (p : Party) (e : ℕ) (q : Party)
    (n : ℕ) : Prop where
  epoch_le : e ≤ s.sendEpoch
  send : q = p → e = s.sendEpoch → n < s.sendSeq
  recv : q = p.peer → ∀ slot recv, s.recv slot = some recv → recv.epoch = e → recv.Spent n

section Preservation

variable {S : Schedule} {p q : Party} {s : RatchetedSession Bytes} {recv : RecvChain Bytes}

theorem RecvOk.push {x : EpochStep} (h : RecvOk S q recv) (he : recv.epoch ≤ S.steps.length) :
    RecvOk (S.push x) q recv where
  chain := by rw [Schedule.chainAt_push he, ← h.chain]
  skipped n key hk := by
    rw [Schedule.keyAt_push he]
    exact h.skipped n key hk

theorem SessionOk.epoch_recv (h : SessionOk S p s) {slot : RecvSlot} (hr : s.recv slot = some recv) :
    recv.epoch ≤ s.sendEpoch := by
  cases slot with
  | current =>
    obtain rfl := Option.some.inj hr
    exact h.current.le
  | previous =>
    have := h.previous recv hr
    omega

theorem SessionOk.push {x : EpochStep} (h : SessionOk S p s) : SessionOk (S.push x) p s where
  epoch_le := by
    have := h.epoch_le
    simp only [Schedule.push, List.length_append, List.length_singleton]
    omega
  root := by rw [Schedule.rootAt_push h.epoch_le, h.root]
  send := by rw [Schedule.chainAt_push h.epoch_le, h.send]
  current := h.current
  previous := h.previous
  recv slot recv hr := (h.recv slot recv hr).push ((h.epoch_recv hr).trans h.epoch_le)
  pending := h.pending

theorem SessionOk.sealedOne (h : SessionOk S p s) : SessionOk S p s.sealedOne where
  epoch_le := h.epoch_le
  root := h.root
  send := by
    show (advance s.sendChain).1 = S.chainAt s.sendEpoch p (s.sendSeq + 1)
    rw [h.send, Schedule.chainAt, Schedule.chainAt, chainFrom_succ]
  current := h.current
  previous := h.previous
  recv slot recv hr := h.recv slot recv (by cases slot <;> exact hr)
  pending := h.pending

theorem SessionOk.awaiting (h : SessionOk S p s) (k : ℕ) :
    SessionOk S p (s.awaiting (kexOf k)) where
  epoch_le := h.epoch_le
  root := h.root
  send := h.send
  current := h.current
  previous := h.previous
  recv slot recv hr := h.recv slot recv (by cases slot <;> exact hr)
  pending kex hk := ⟨rfl, k, (Option.some.inj hk).symm⟩

theorem SessionOk.usedUp (h : SessionOk S p s) : SessionOk S p s.usedUp where
  epoch_le := h.epoch_le
  root := h.root
  send := h.send
  current := h.current
  previous := h.previous
  recv slot recv hr := h.recv slot recv (by cases slot <;> exact hr)
  pending kex hk := by cases hk

theorem SessionOk.withChunks (h : SessionOk S p s) (a b : Option (ChunkAccumulator Bytes)) :
    SessionOk S p (s.withChunks a b) where
  epoch_le := h.epoch_le
  root := h.root
  send := h.send
  current := h.current
  previous := h.previous
  recv slot recv hr := h.recv slot recv (by cases slot <;> exact hr)
  pending := h.pending

theorem SessionOk.completed (h : SessionOk S p s) (a b : Option Bytes) :
    SessionOk S p (s.completed a b) where
  epoch_le := h.epoch_le
  root := h.root
  send := h.send
  current := h.current
  previous := h.previous
  recv slot recv hr := h.recv slot recv (by cases slot <;> exact hr)
  pending := h.pending

/-- A session enters the next epoch of the schedule. -/
theorem SessionOk.advanced (h : SessionOk S p s) {x : EpochStep} (hp : s.pending = none)
    (hx : S.steps[s.sendEpoch]? = some x) :
    SessionOk S p (s.advanced s.sendEpoch
      (RatchetedSession.deriveNextEpoch s.rootKey x.sharedSecret (decide (x.initiator = p)))) where
  epoch_le := (List.getElem?_eq_some_iff.1 hx).choose
  root := by
    simp only [RatchetedSession.advanced, RatchetedSession.deriveNextEpoch, Schedule.rootAt,
      Schedule.secretAt, hx, h.root, Option.map_some, Option.getD_some]
    split_ifs <;> rfl
  send := by
    simp only [RatchetedSession.advanced, RatchetedSession.deriveNextEpoch, Schedule.chainAt,
      chainFrom_zero, Schedule.firstChain, Schedule.prkAt, Schedule.secretAt, Schedule.initiatorAt,
      hx, h.root, Option.map_some, Option.getD_some, decide_eq_true_eq, eq_comm (a := p)]
    split_ifs <;> rfl
  current := rfl
  previous recv hr := by
    obtain rfl := Option.some.inj hr
    exact congrArg (· + 1) h.current
  recv slot recv hr := by
    cases slot with
    | previous =>
      obtain rfl := Option.some.inj hr
      exact h.recv .current _ rfl
    | current =>
      obtain rfl := Option.some.inj hr
      refine ⟨?_, fun n key hk => by cases hk⟩
      show (RatchetedSession.deriveNextEpoch s.rootKey x.sharedSecret
        (decide (x.initiator = p))).2.2 = S.chainAt (s.sendEpoch + 1) p.peer 0
      simp only [RatchetedSession.deriveNextEpoch, Schedule.chainAt,
        chainFrom_zero, Schedule.firstChain, Schedule.prkAt, Schedule.secretAt,
        Schedule.initiatorAt, hx, h.root, Option.map_some, Option.getD_some, decide_eq_true_eq]
      cases p <;> cases x.initiator <;> rfl
  pending kex hk := by cases hp.symm.trans hk

/-- A receive chain changed: it stays in its epoch and its place. -/
theorem SessionOk.setRecv (h : SessionOk S p s) {slot : RecvSlot} {recv recv' : RecvChain Bytes}
    (hr : s.recv slot = some recv) (he : recv'.epoch = recv.epoch) (hok : RecvOk S p.peer recv') :
    SessionOk S p (s.setRecv recv' slot) := by
  cases slot with
  | current =>
    obtain rfl := Option.some.inj hr
    refine ⟨h.epoch_le, h.root, h.send, he.trans h.current, h.previous, ?_, h.pending⟩
    intro slot rc hrc
    cases slot with
    | current => exact Option.some.inj hrc ▸ hok
    | previous => exact h.recv .previous rc hrc
  | previous =>
    refine ⟨h.epoch_le, h.root, h.send, h.current, ?_, ?_, h.pending⟩
    · intro rc hrc
      obtain rfl := Option.some.inj hrc
      rw [he]
      exact h.previous recv hr
    · intro slot rc hrc
      cases slot with
      | current => exact h.recv .current rc hrc
      | previous => exact Option.some.inj hrc ▸ hok

/-- Opening a record keeps the chain in its place; a record that opens was sealed under the message
key of its number, for the first time. -/
theorem RecvOk.openOn (h : RecvOk S q recv) {recv' : RecvChain Bytes} {seq : ℕ} {aad ct : Bytes}
    {r : Result Bytes} (ho : recv.openOn seq aad ct = (recv', r)) (hp : r ≠ .error .panic) :
    RecvOk S q recv' ∧ recv'.epoch = recv.epoch ∧ (∀ n, recv.Spent n → recv'.Spent n) ∧
    ∀ m, r = .ok m → aeadDecrypt (S.keyAt recv.epoch q seq) zeroNonce aad ct = some m ∧
      ¬ recv.Spent seq ∧ recv'.Spent seq := by
  have hkey : ∀ i, (advance (chainFrom recv.chain i)).2 =
      S.keyAt recv.epoch q (recv.expectedSeq + i) := fun i => by
    rw [h.chain, Schedule.chainAt, chainFrom_add]
    rfl
  rcases openOn_cases ho with ⟨rfl, e, rfl⟩ | ⟨key, hlt, hmem, rfl, rfl⟩ | rfl |
      ⟨m, hle, hlt, rfl, hopen, rfl⟩
  · exact ⟨h, rfl, fun n hn => hn, fun m hm => by cases hm⟩
  · refine ⟨⟨h.chain, fun n k hk => h.skipped n k (List.mem_filter.1 hk).1⟩, rfl,
      fun n hn => ⟨hn.1, fun k hk => hn.2 k (List.mem_filter.1 hk).1⟩, fun m hm => ?_⟩
    rw [← (h.skipped seq key hmem).2]
    refine ⟨openAead_eq_ok.1 hm, fun hs => hs.2 key hmem, hlt, fun k hk => ?_⟩
    simpa using (List.mem_filter.1 hk).2
  · exact absurd rfl hp
  · have hnew : ∀ n key, (n, key) ∈ (recv.passed seq).skipped → (n, key) ∈ recv.skipped ∨
        recv.expectedSeq ≤ n ∧ n < seq ∧ key = S.keyAt recv.epoch q n := by
      intro n key hk
      rcases mem_extendKeys hk with hk | hk
      · exact .inl hk
      · rw [skipKeys_eq, List.mem_map] at hk
        obtain ⟨i, hi, hik⟩ := hk
        obtain ⟨rfl, rfl⟩ := Prod.mk.inj hik
        rw [List.mem_range] at hi
        exact .inr ⟨by omega, by omega, hkey i⟩
    have hseq : recv.expectedSeq + (seq - recv.expectedSeq) = seq := by omega
    refine ⟨⟨?_, fun n key hk => ?_⟩, rfl, fun n hn => ⟨?_, fun key hk => ?_⟩, fun m' hm => ?_⟩
    · show chainFrom recv.chain (seq - recv.expectedSeq + 1) = S.chainAt recv.epoch q (seq + 1)
      rw [h.chain, Schedule.chainAt, chainFrom_add, ← Nat.add_assoc, hseq, Schedule.chainAt]
    · show n < seq + 1 ∧ key = S.keyAt recv.epoch q n
      rcases hnew n key hk with hk | ⟨h1, h2, rfl⟩
      · have := h.skipped n key hk
        exact ⟨by omega, this.2⟩
      · exact ⟨by omega, rfl⟩
    · show n < seq + 1
      have := hn.1
      omega
    · rcases hnew n key hk with hk | ⟨h1, -, -⟩
      · exact hn.2 key hk
      · have := hn.1
        omega
    · obtain rfl := Except.ok.inj hm
      rw [RecvChain.keyAhead, hkey, hseq] at hopen
      refine ⟨openAead_eq_ok.1 hopen, fun hs => by have := hs.1; omega, Nat.lt_succ_self seq,
        fun key hk => ?_⟩
      rcases hnew seq key hk with hk | ⟨-, h2, -⟩
      · have := (h.skipped seq key hk).1
        omega
      · omega

/-! ### What has been used -/

section Spent

variable {e n : ℕ} {r : Party}

theorem RatchetedSession.Spent.sealedOne (h : s.Spent p e r n) : s.sealedOne.Spent p e r n :=
  ⟨h.epoch_le, fun hr he => Nat.lt_succ_of_lt (h.send hr he),
    fun hr slot rc hrc => h.recv hr slot rc (by cases slot <;> exact hrc)⟩

theorem RatchetedSession.Spent.awaiting {kex : InitiatorKex Bytes} (h : s.Spent p e r n) :
    (s.awaiting kex).Spent p e r n :=
  ⟨h.epoch_le, h.send, fun hr slot rc hrc => h.recv hr slot rc (by cases slot <;> exact hrc)⟩

theorem RatchetedSession.Spent.usedUp (h : s.Spent p e r n) : s.usedUp.Spent p e r n :=
  ⟨h.epoch_le, h.send, fun hr slot rc hrc => h.recv hr slot rc (by cases slot <;> exact hrc)⟩

theorem RatchetedSession.Spent.withChunks {a b : Option (ChunkAccumulator Bytes)}
    (h : s.Spent p e r n) : (s.withChunks a b).Spent p e r n :=
  ⟨h.epoch_le, h.send, fun hr slot rc hrc => h.recv hr slot rc (by cases slot <;> exact hrc)⟩

theorem RatchetedSession.Spent.completed {a b : Option Bytes} (h : s.Spent p e r n) :
    (s.completed a b).Spent p e r n :=
  ⟨h.epoch_le, h.send, fun hr slot rc hrc => h.recv hr slot rc (by cases slot <;> exact hrc)⟩

theorem RatchetedSession.Spent.advanced {keys : Bytes × Bytes × Bytes} (h : s.Spent p e r n) :
    (s.advanced s.sendEpoch keys).Spent p e r n where
  epoch_le := Nat.le_succ_of_le h.epoch_le
  send hr he := by
    have h1 := h.epoch_le
    have h2 : e = s.sendEpoch + 1 := he
    omega
  recv hr slot rc hrc he := by
    cases slot with
    | current =>
      obtain rfl := Option.some.inj hrc
      have h1 := h.epoch_le
      have h2 : s.sendEpoch + 1 = e := he
      omega
    | previous =>
      obtain rfl := Option.some.inj hrc
      exact h.recv hr .current _ rfl he

theorem RatchetedSession.Spent.setRecv (h : s.Spent p e r n) {slot : RecvSlot}
    {recv recv' : RecvChain Bytes} (hr : s.recv slot = some recv) (he : recv'.epoch = recv.epoch)
    (hmono : ∀ n, recv.Spent n → recv'.Spent n) : (s.setRecv recv' slot).Spent p e r n := by
  cases slot with
  | current =>
    refine ⟨h.epoch_le, h.send, fun hrp slot rc hrc hep => ?_⟩
    cases slot with
    | current =>
      obtain rfl := Option.some.inj hrc
      exact hmono n (h.recv hrp .current recv hr (he ▸ hep))
    | previous => exact h.recv hrp .previous rc hrc hep
  | previous =>
    refine ⟨h.epoch_le, h.send, fun hrp slot rc hrc hep => ?_⟩
    cases slot with
    | current => exact h.recv hrp .current rc hrc hep
    | previous =>
      obtain rfl := Option.some.inj hrc
      exact hmono n (h.recv hrp .previous recv hr (he ▸ hep))

/-- The record just sealed is spent. -/
theorem spent_sealedOne : s.sealedOne.Spent p s.sendEpoch p s.sendSeq :=
  ⟨le_rfl, fun _ _ => Nat.lt_succ_self _, fun hp => absurd hp.symm p.peer_ne⟩

/-- The record just opened is spent. -/
theorem SessionOk.spent_setRecv (h : SessionOk S p s) {slot : RecvSlot}
    {recv recv' : RecvChain Bytes} (hr : s.recv slot = some recv) (he : recv'.epoch = recv.epoch)
    (hs : recv'.Spent n) : (s.setRecv recv' slot).Spent p recv.epoch p.peer n := by
  have hle := h.epoch_recv hr
  cases slot with
  | current =>
    refine ⟨hle, fun hp => absurd hp p.peer_ne, fun _ slot rc hrc hep => ?_⟩
    cases slot with
    | current => exact Option.some.inj hrc ▸ hs
    | previous =>
      obtain rfl := Option.some.inj hr
      have h1 := h.previous rc hrc
      have h2 := h.current
      omega
  | previous =>
    refine ⟨hle, fun hp => absurd hp p.peer_ne, fun _ slot rc hrc hep => ?_⟩
    cases slot with
    | current =>
      obtain rfl := Option.some.inj hrc
      have h1 := h.previous recv hr
      have h2 := h.current
      change s.recvCurrent.epoch = recv.epoch at hep
      omega
    | previous => exact Option.some.inj hrc ▸ hs

end Spent

end Preservation

end Ratchet

end NovaChannel
