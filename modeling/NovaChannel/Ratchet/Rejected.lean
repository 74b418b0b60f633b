import NovaChannel.Ratchet.Secrecy

/-!
# What a rejected record leaves behind

A call of `open` or `open_ratchet_chunk` that returns an error can still change the session.

* `openRecord_eq` : `open` on the chain of the record's epoch;
* `opens_after_iff` : **a record that does not decrypt costs at most the record it names**: what
  opened before it opens after it, except the skipped record whose number and epoch it carries;
* `keepsPending_iff` : **a rejected message keeps the pending step** unless it is a step 2 of the
  pending epoch, or a reassembled step 2 with a key of small order.
-/

namespace NovaChannel

namespace Ratchet

open Crypto ByteString Kex

variable {β : Type} [Crypto β]

/-! ### The chain of a record -/

namespace RecvChain

variable {recv recv' : RecvChain β} {seq : ℕ} {aad ct : β}

omit [Crypto β] in
theorem lookup_filter_ne {l : List (ℕ × β)} {i j : ℕ} (h : j ≠ i) :
    (l.filter (·.1 ≠ i)).lookup j = l.lookup j := by
  induction l with
  | nil => rfl
  | cons a l ih =>
    obtain ⟨k, key⟩ := a
    by_cases hk : k = i
    · have hjk : (j == k) = false := by simpa [hk] using h
      rw [List.filter_cons_of_neg (by simpa using hk), ih, List.lookup_cons, hjk]
    · rw [List.filter_cons_of_pos (by simpa using hk), List.lookup_cons, List.lookup_cons, ih]

omit [Crypto β] in
theorem lookup_filter_self (l : List (ℕ × β)) (i : ℕ) : (l.filter (·.1 ≠ i)).lookup i = none := by
  induction l with
  | nil => rfl
  | cons a l ih =>
    obtain ⟨k, key⟩ := a
    by_cases hk : k = i
    · rw [List.filter_cons_of_neg (by simpa using hk), ih]
    · have hik : (i == k) = false := by simpa using fun h : i = k => hk h.symm
      rw [List.filter_cons_of_pos (by simpa using hk), List.lookup_cons, hik, ih]

/-- `open_on` for a number that is not behind the chain. -/
theorem openOn_of_le (hle : recv.expectedSeq ≤ seq) (h64 : seq + 1 < 2 ^ 64) :
    recv.openOn seq aad ct =
      if seq ≠ recv.expectedSeq ∧ (seq - recv.expectedSeq > maxSkippedKeys ∨
          recv.skipped.length + (seq - recv.expectedSeq) > maxSkippedKeys) then
        (recv, .err .tooManySkippedKeys)
      else match openAead (recv.keyAhead seq) zeroNonce aad ct with
        | .error e => (recv, .error e)
        | .ok plaintext => (recv.passed seq, .ok plaintext) := by
  have hadd : checkedAdd64 seq 1 = some (seq + 1) := checkedAdd64_eq_some.2 ⟨h64, rfl⟩
  rw [openOn, if_neg (not_lt.2 hle)]
  by_cases heq : seq = recv.expectedSeq
  · have hkey : recv.keyAhead seq = (advance recv.chain).2 := by
      rw [keyAhead, heq, Nat.sub_self, chainFrom_zero]
    have hpassed : recv.passed seq = ⟨recv.epoch, (advance recv.chain).1, seq + 1, recv.skipped⟩ := by
      simp [passed, heq, chainFrom_succ, skipKeys, extendKeys]
    rw [if_pos heq, if_neg (by simp [heq]), hkey, hpassed]
    dsimp only
    rewrite [← heq, hadd]
    cases openAead (advance recv.chain).2 zeroNonce aad ct <;> rfl
  · rw [if_neg heq]
    by_cases hmax : seq - recv.expectedSeq > maxSkippedKeys ∨
        recv.skipped.length + (seq - recv.expectedSeq) > maxSkippedKeys
    · rw [if_pos hmax, if_pos ⟨heq, hmax⟩]
    · rw [if_neg hmax, if_neg fun h => hmax h.2]
      have hpassed : recv.passed seq = ⟨recv.epoch,
          (advance (chainFrom recv.chain (seq - recv.expectedSeq))).1, seq + 1,
          extendKeys recv.skipped
            (skipKeys recv.chain recv.expectedSeq (seq - recv.expectedSeq)).2⟩ := by
        simp [passed, chainFrom_succ]
      rw [hpassed]
      simp only [openAhead, skipKeys_eq, keyAhead]
      rewrite [hadd]
      cases openAead (advance (chainFrom recv.chain (seq - recv.expectedSeq))).2 zeroNonce aad ct <;>
        rfl

/-- What `open_on` did when the record did not decrypt: nothing, or it used up a cached key. -/
theorem openOn_decrypt (h : recv.openOn seq aad ct = (recv', .err .decrypt)) :
    if seq < recv.expectedSeq then recv' = recv.taken seq else recv' = recv := by
  by_cases hlt : seq < recv.expectedSeq
  · rw [if_pos hlt]
    rw [openOn, if_pos hlt] at h
    split at h
    · cases h
    · exact (Prod.mk.inj h).1.symm
  · rw [if_neg hlt]
    rcases openOn_cases h with ⟨hrecv, -⟩ | ⟨key, hlt', -⟩ | hpanic | ⟨plaintext, -, -, -, -, hok⟩
    · exact hrecv
    · exact absurd hlt' hlt
    · cases hpanic
    · cases hok

/-- What opens still opens when the key of another number is gone. -/
theorem openOn_taken {n : ℕ} {plaintext : β} (hn : seq < recv.expectedSeq → seq ≠ n)
    (h : (recv.openOn seq aad ct).2 = .ok plaintext) :
    ((recv.taken n).openOn seq aad ct).2 = .ok plaintext := by
  by_cases hlt : seq < recv.expectedSeq
  · have hlookup : (recv.taken n).skipped.lookup seq = recv.skipped.lookup seq :=
      lookup_filter_ne (hn hlt)
    have hlt' : seq < (recv.taken n).expectedSeq := hlt
    rw [openOn, if_pos hlt] at h
    rw [openOn, if_pos hlt', hlookup]
    cases hkey : recv.skipped.lookup seq with
    | none =>
      rw [hkey] at h
      cases h
    | some key =>
      rw [hkey] at h
      exact h
  · have hlen : (recv.taken n).skipped.length ≤ recv.skipped.length := List.length_filter_le _ _
    have h64 : seq + 1 < 2 ^ 64 := by
      have hopen : recv.openOn seq aad ct = ((recv.openOn seq aad ct).1, .ok plaintext) :=
        Prod.ext rfl h
      rcases openOn_cases hopen with ⟨-, e, he⟩ | ⟨_, hlt', -⟩ | hpanic | ⟨_, -, h64, -⟩
      · cases he
      · exact absurd hlt' hlt
      · cases hpanic
      · exact h64
    have hexp : (recv.taken n).expectedSeq = recv.expectedSeq := rfl
    have hkey : (recv.taken n).keyAhead seq = recv.keyAhead seq := rfl
    rw [openOn_of_le (not_lt.1 hlt) h64] at h
    rw [openOn_of_le (hexp ▸ not_lt.1 hlt) h64, hexp, hkey]
    split_ifs at h with hmax
    rw [if_neg (by omega)]
    cases hopen : openAead (recv.keyAhead seq) zeroNonce aad ct with
    | error e =>
      rw [hopen] at h
      cases h
    | ok m =>
      rw [hopen] at h
      exact h

/-- The key that is gone opens nothing. -/
theorem openOn_taken_self (h : seq < recv.expectedSeq) :
    (recv.taken seq).openOn seq aad ct = (recv.taken seq, .err .replay) := by
  have hlookup : (recv.taken seq).skipped.lookup seq = none := lookup_filter_self _ _
  have hlt : seq < (recv.taken seq).expectedSeq := h
  rw [openOn, if_pos hlt, hlookup]

end RecvChain

namespace RatchetedSession

variable [ByteString β] {s s' : RatchetedSession β}

omit [Crypto β] [ByteString β] in
/-- The receive chain that `open` uses for an epoch. -/
def receiving (s : RatchetedSession β) (epoch : ℕ) : Option (RecvSlot × RecvChain β) :=
  if epoch = s.recvCurrent.epoch then some (.current, s.recvCurrent)
  else match s.recvPrevious with
    | none => none
    | some previous => if previous.epoch = epoch then some (.previous, previous) else none

/-- `open`, on the chain of the record's epoch. -/
theorem openRecord_eq {coins : ResponderCoins β} {record : β} {epoch seq : ℕ} {aad ct : β}
    (hread : readRecord record = some (epoch, seq, aad, ct)) :
    s.openRecord coins record = match s.receiving epoch with
      | none => (s, .err .unknownEpoch)
      | some (slot, recv) => (s.setRecv (recv.openOn seq aad ct).1 slot).handleOpened coins epoch
        (recv.openOn seq aad ct).2 := by
  unfold openRecord receiving
  rw [hread]
  dsimp only
  split_ifs with he
  · rfl
  · cases hprev : s.recvPrevious with
    | none => rfl
    | some previous =>
      dsimp only
      split_ifs <;> rfl

/-- The session with other receive chains. -/
def withRecv (s : RatchetedSession β) (current : RecvChain β) (previous : Option (RecvChain β)) :
    RatchetedSession β :=
  { s with recvCurrent := current, recvPrevious := previous }

theorem handleStep1_withRecv (coins : ResponderCoins β) (epoch : ℕ) (payload : β)
    (c : RecvChain β) (p : Option (RecvChain β)) :
    ((s.withRecv c p).handleStep1 coins epoch payload).2 =
      (s.handleStep1 coins epoch payload).2 := by
  unfold handleStep1 sealPayload advanceEpoch withRecv
  dsimp only
  split_ifs
  · rfl
  · rfl
  all_goals
    split
    · rfl
    · cases checkedAdd64 s.sendSeq 1 <;> rfl

theorem handleStep2_withRecv (epoch : ℕ) (payload : β) (c : RecvChain β)
    (p : Option (RecvChain β)) :
    ((s.withRecv c p).handleStep2 epoch payload).2 = (s.handleStep2 epoch payload).2 := by
  unfold handleStep2 advanceEpoch withRecv
  dsimp only
  cases s.pending with
  | none => rfl
  | some kex =>
    dsimp only
    split_ifs
    · rfl
    all_goals split <;> rfl

/-- What `open` reports does not depend on the receive chains. -/
theorem handleOpened_withRecv (coins : ResponderCoins β) (epoch : ℕ) (opened : Result β)
    (c : RecvChain β) (p : Option (RecvChain β)) :
    ((s.withRecv c p).handleOpened coins epoch opened).2 =
      (s.handleOpened coins epoch opened).2 := by
  cases opened with
  | error e => rfl
  | ok plaintext =>
    have h1 := fun body => handleStep1_withRecv (s := s) coins epoch body c p
    have h2 := fun body => handleStep2_withRecv (s := s) epoch body c p
    unfold handleOpened handlePayload
    dsimp only
    split
    · rfl
    · rename_i tag body _
      split
      · rfl
      · exact congrArg (Except.map fun r => Opened.ratchetAdvanced (some r)) (h1 body)
      · exact congrArg (Except.map fun _ => Opened.ratchetAdvanced none) (h2 body)
      · rfl
    · rfl

omit [Crypto β] [ByteString β] in
theorem bind_ne_error {α γ : Type} {x : Result α} {f : α → Result γ} {e : Fault}
    (hx : x ≠ .error e) (hf : ∀ a, f a ≠ .error e) : (x >>= f) ≠ .error e := by
  cases x with
  | error e' => exact fun h => hx (by rw [Except.error.inj h])
  | ok a => exact hf a

omit [ByteString β] in
theorem readExchange_ne_decrypt {second : β → Result β} (trailing : String) (payload : β)
    (hsecond : ∀ bytes, second bytes ≠ .err .decrypt) :
    readExchange second trailing payload ≠ .err .decrypt := by
  unfold readExchange
  split
  · refine bind_ne_error (hsecond _) fun b => ?_
    split_ifs <;> simp
  · simp

omit [ByteString β] in
theorem checkedDh_ne_decrypt (shared : β) : Group.checkedDh shared ≠ .err .decrypt := by
  unfold Group.checkedDh
  split_ifs <;> simp

/-- A record that opened is not refused for its encryption any more. -/
theorem handleStep1_ne_decrypt (coins : ResponderCoins β) (epoch : ℕ) (payload : β) :
    (s.handleStep1 coins epoch payload).2 ≠ .err .decrypt := by
  have hexchange : (readExchange mlKemPublicFromBytes "trailing bytes in ratchet step1" payload >>=
      fun keys => responderExchange coins.x25519Secret coins.kemRandom keys.1 keys.2) ≠
      .err .decrypt := by
    refine bind_ne_error (readExchange_ne_decrypt _ _ fun bytes => ?_) fun x => ?_
    · unfold mlKemPublicFromBytes
      split_ifs <;> simp
    · exact bind_ne_error (checkedDh_ne_decrypt _) fun dh => by simp
  unfold handleStep1 sealPayload advanceEpoch
  split_ifs
  · simp
  · simp
  all_goals
    split
    · rename_i e he
      intro h
      exact hexchange (he.trans (congrArg Except.error (Except.error.inj h)))
    · cases checkedAdd64 s.sendSeq 1 <;> simp

theorem handleStep2_ne_decrypt (epoch : ℕ) (payload : β) :
    (s.handleStep2 epoch payload).2 ≠ .err .decrypt := by
  unfold handleStep2 advanceEpoch
  split
  · simp
  · rename_i kex _
    have hexchange : (readExchange mlKemCiphertextFromBytes "trailing bytes in ratchet step2"
        payload >>= fun answer => kex.finish answer.1 answer.2) ≠ .err .decrypt := by
      refine bind_ne_error (readExchange_ne_decrypt _ _ fun bytes => ?_) fun x => ?_
      · unfold mlKemCiphertextFromBytes
        split_ifs <;> simp
      · exact bind_ne_error (checkedDh_ne_decrypt _) fun dh => by simp
    split_ifs
    · simp
    all_goals
      dsimp only
      split
      · rename_i e he
        intro h
        exact hexchange (he.trans (congrArg Except.error (Except.error.inj h)))
      · simp

theorem handleOpened_ne_decrypt (coins : ResponderCoins β) (epoch : ℕ) (plaintext : β) :
    (s.handleOpened coins epoch (.ok plaintext)).2 ≠ .err .decrypt := by
  unfold handleOpened handlePayload
  dsimp only
  split
  · simp
  · rename_i tag body _
    split
    · simp
    · cases h : (s.handleStep1 coins epoch body).2 with
      | error e =>
        have hne := handleStep1_ne_decrypt (s := s) coins epoch body
        rw [h] at hne
        simpa [Except.map] using hne
      | ok r => simp [Except.map]
    · cases h : (s.handleStep2 epoch body).2 with
      | error e =>
        have hne := handleStep2_ne_decrypt (s := s) epoch body
        rw [h] at hne
        simpa [Except.map] using hne
      | ok r => simp [Except.map]
    · simp
  · simp

/-! ### Records that do not decrypt -/

omit [ByteString β] in
/-- The rejected record named the record: it carries its epoch and number, and the number is behind
the chain. -/
def Names (s : RatchetedSession β) (rejected record : β) : Prop :=
  ∃ epoch seq aad ct aad' ct' slot recv, readRecord rejected = some (epoch, seq, aad, ct) ∧
    readRecord record = some (epoch, seq, aad', ct') ∧ s.receiving epoch = some (slot, recv) ∧
    seq < recv.expectedSeq

/-- What a record that does not decrypt leaves behind. -/
theorem openRecord_decrypt {coins : ResponderCoins β} {rejected : β}
    (h : s.openRecord coins rejected = (s', .err .decrypt)) :
    ∃ epoch seq aad ct slot recv, readRecord rejected = some (epoch, seq, aad, ct) ∧
      s.receiving epoch = some (slot, recv) ∧
      s' = s.setRecv (if seq < recv.expectedSeq then recv.taken seq else recv) slot := by
  cases hread : readRecord rejected with
  | none =>
    rw [openRecord, hread] at h
    cases h
  | some fields =>
    obtain ⟨epoch, seq, aad, ct⟩ := fields
    rw [openRecord_eq hread] at h
    cases hrecv : s.receiving epoch with
    | none =>
      rw [hrecv] at h
      cases h
    | some chain =>
      obtain ⟨slot, recv⟩ := chain
      rw [hrecv] at h
      dsimp only at h
      refine ⟨epoch, seq, aad, ct, slot, recv, rfl, hrecv, ?_⟩
      cases hopen : recv.openOn seq aad ct with
      | mk recv' opened =>
        rw [hopen] at h
        dsimp only at h
        cases opened with
        | ok plaintext => exact absurd (congrArg Prod.snd h) (handleOpened_ne_decrypt _ _ _)
        | error e =>
          obtain ⟨rfl, he⟩ := Prod.mk.inj h
          have hdec := RecvChain.openOn_decrypt (hopen.trans (congrArg (Prod.mk recv')
            (congrArg Except.error (Except.error.inj he))))
          split_ifs at hdec ⊢ with hlt
          · rw [hdec]
          · rw [hdec]

omit [Crypto β] [ByteString β] in
theorem setRecv_eq_withRecv (s : RatchetedSession β) (recv : RecvChain β) (slot : RecvSlot) :
    ∃ c p, s.setRecv recv slot = s.withRecv c p := by
  cases slot with
  | current => exact ⟨recv, s.recvPrevious, rfl⟩
  | previous => exact ⟨s.recvCurrent, some recv, rfl⟩

/-- What `open` reports after a slot changed depends on what the chain of its slot opens. -/
theorem handleOpened_setRecv (coins : ResponderCoins β) (epoch : ℕ) (opened : Result β)
    (a b c : RecvChain β) (slot slot' slot'' : RecvSlot) :
    (((s.setRecv a slot).setRecv b slot').handleOpened coins epoch opened).2 =
      ((s.setRecv c slot'').handleOpened coins epoch opened).2 := by
  obtain ⟨c₁, p₁, h₁⟩ := setRecv_eq_withRecv s a slot
  obtain ⟨c₂, p₂, h₂⟩ := setRecv_eq_withRecv (s.withRecv c₁ p₁) b slot'
  obtain ⟨c₃, p₃, h₃⟩ := setRecv_eq_withRecv s c slot''
  have h₄ : (s.withRecv c₁ p₁).withRecv c₂ p₂ = s.withRecv c₂ p₂ := rfl
  rw [h₁, h₂, h₃, h₄, handleOpened_withRecv, handleOpened_withRecv]

omit [Crypto β] [ByteString β] in
/-- Replacing the chain that an epoch uses. -/
theorem receiving_setRecv_self {epoch : ℕ} {slot : RecvSlot} {recv recv' : RecvChain β}
    (h : s.receiving epoch = some (slot, recv)) (he : recv'.epoch = recv.epoch) :
    (s.setRecv recv' slot).receiving epoch = some (slot, recv') := by
  unfold receiving at h ⊢
  split_ifs at h with hcur
  · obtain ⟨rfl, rfl⟩ := Prod.mk.inj (Option.some.inj h)
    have hcur' : epoch = (s.setRecv recv' .current).recvCurrent.epoch := hcur.trans he.symm
    rw [if_pos hcur']
    rfl
  · split at h
    · cases h
    · rename_i previous hprev
      split_ifs at h with hep
      obtain ⟨rfl, rfl⟩ := Prod.mk.inj (Option.some.inj h)
      have hcur' : ¬ epoch = (s.setRecv recv' .previous).recvCurrent.epoch := hcur
      rw [if_neg hcur']
      dsimp only [setRecv]
      rw [if_pos (he.trans hep)]

omit [Crypto β] [ByteString β] in
/-- Replacing another chain than the one that an epoch uses. -/
theorem receiving_setRecv_of_ne {epoch epoch' : ℕ} {slot slot' : RecvSlot}
    {recv recv' chain : RecvChain β} (h : s.receiving epoch = some (slot, recv))
    (h' : s.receiving epoch' = some (slot', chain)) (hne : epoch' ≠ epoch)
    (he : recv'.epoch = recv.epoch) :
    (s.setRecv recv' slot).receiving epoch' = some (slot', chain) := by
  unfold receiving at h h' ⊢
  split_ifs at h with hcur
  · obtain ⟨rfl, rfl⟩ := Prod.mk.inj (Option.some.inj h)
    have hcur' : ¬ epoch' = s.recvCurrent.epoch := fun h => hne (h.trans hcur.symm)
    rw [if_neg hcur'] at h'
    have hcur'' : ¬ epoch' = (s.setRecv recv' .current).recvCurrent.epoch := fun h =>
      hcur' (h.trans he)
    rw [if_neg hcur'']
    exact h'
  · split at h
    · cases h
    · rename_i previous hprev
      split_ifs at h with hep
      obtain ⟨rfl, rfl⟩ := Prod.mk.inj (Option.some.inj h)
      have hsame : (s.setRecv recv' .previous).recvCurrent = s.recvCurrent := rfl
      rw [hsame]
      split_ifs at h' ⊢ with hcur'
      · exact h'
      · rw [hprev] at h'
        dsimp only at h'
        rw [if_neg (fun h => hne (h.symm.trans hep))] at h'
        cases h'

/-- A record opens alike when a chain was replaced but its own chain opens it alike. -/
theorem opens_setRecv {coins : ResponderCoins β} {record aad ct plaintext : β} {epoch seq : ℕ}
    {slot slot' : RecvSlot} {a b c : RecvChain β} {opened : Opened β}
    (hread : readRecord record = some (epoch, seq, aad, ct))
    (hrecv : (s.setRecv a slot).receiving epoch = some (slot', b))
    (hopen : (b.openOn seq aad ct).2 = .ok plaintext)
    (h : ((s.setRecv c slot').handleOpened coins epoch (.ok plaintext)).2 = .ok opened) :
    ∃ t, (s.setRecv a slot).openRecord coins record = (t, .ok opened) := by
  rw [openRecord_eq hread, hrecv]
  dsimp only
  rw [hopen]
  refine ⟨_, Prod.ext rfl ?_⟩
  rw [handleOpened_setRecv coins epoch _ a _ c slot slot' slot', h]

/-- **A record that does not decrypt costs at most the record it names**: what would have opened
before it opens after it, with the same result, except a record behind the chain whose epoch and
number the rejected one carries, whose cached key is gone. -/
theorem opens_after_iff {coins coins' : ResponderCoins β} {rejected record : β} {t : RatchetedSession β}
    {opened : Opened β} (hrejected : s.openRecord coins rejected = (s', .err .decrypt))
    (hopens : s.openRecord coins' record = (t, .ok opened)) :
    (∃ t', s'.openRecord coins' record = (t', .ok opened)) ↔ ¬ s.Names rejected record := by
  obtain ⟨epoch, seq, aad, ct, slot, recv, hread, hrecv, rfl⟩ := openRecord_decrypt hrejected
  obtain ⟨epoch', seq', aad', ct', hread'⟩ :
      ∃ epoch' seq' aad' ct', readRecord record = some (epoch', seq', aad', ct') := by
    cases h : readRecord record with
    | none =>
      rw [openRecord, h] at hopens
      cases hopens
    | some fields => exact ⟨_, _, _, _, rfl⟩
  rw [openRecord_eq hread'] at hopens
  cases hrecv' : s.receiving epoch' with
  | none =>
    rw [hrecv'] at hopens
    cases hopens
  | some chain =>
    obtain ⟨slot', recv'⟩ := chain
    rw [hrecv'] at hopens
    dsimp only at hopens
    cases hopen : (recv'.openOn seq' aad' ct').2 with
    | error e =>
      rw [hopen] at hopens
      cases hopens
    | ok plaintext =>
      rw [hopen] at hopens
      have hresult := congrArg Prod.snd hopens
      have hepoch : (if seq < recv.expectedSeq then recv.taken seq else recv).epoch = recv.epoch := by
        split_ifs <;> rfl
      by_cases hep : epoch' = epoch
      · subst hep
        obtain ⟨rfl, rfl⟩ := Prod.mk.inj (Option.some.inj (hrecv.symm.trans hrecv'))
        have hafter := receiving_setRecv_self hrecv hepoch
        by_cases hname : seq' = seq ∧ seq < recv.expectedSeq
        · -- the key of this number is gone
          obtain ⟨rfl, hlt⟩ := hname
          refine iff_of_false (fun ⟨t', ht'⟩ => ?_)
            (not_not_intro ⟨_, _, _, _, _, _, _, _, hread, hread', hrecv, hlt⟩)
          rw [openRecord_eq hread', hafter] at ht'
          simp only [if_pos hlt, RecvChain.openOn_taken_self hlt] at ht'
          cases ht'
        · refine iff_of_true (opens_setRecv hread' hafter ?_ hresult) ?_
          · split_ifs with hlt
            · exact RecvChain.openOn_taken (fun _ heq => hname ⟨heq, hlt⟩) hopen
            · exact hopen
          · rintro ⟨_, _, _, _, _, _, _, _, h₁, h₂, h₃, hlt⟩
            cases hread.symm.trans h₁
            cases hread'.symm.trans h₂
            cases hrecv.symm.trans h₃
            exact hname ⟨rfl, hlt⟩
      · have hafter := receiving_setRecv_of_ne hrecv hrecv' hep hepoch
        refine iff_of_true (opens_setRecv hread' hafter hopen hresult) ?_
        rintro ⟨_, _, _, _, _, _, _, _, h₁, h₂, -⟩
        cases hread.symm.trans h₁
        cases hread'.symm.trans h₂
        exact hep rfl

/-! ### The pending step -/

/-- The record opens to a step 2 of the pending epoch. -/
def Spoils (s : RatchetedSession β) (record : β) : Prop :=
  ∃ seq aad ct slot recv plaintext body, readRecord record = some (s.pendingEpoch, seq, aad, ct) ∧
    s.receiving s.pendingEpoch = some (slot, recv) ∧
    (recv.openOn seq aad ct).2 = .ok plaintext ∧ HasType plaintext msgRatchetStep2 body

/-- The record is a well-formed answer to the pending step. -/
def IsReply (s : RatchetedSession β) (kex : InitiatorKex β) (record : β) : Prop :=
  ∃ seq aad ct slot recv plaintext body x ciphertext sharedSecret,
    readRecord record = some (s.pendingEpoch, seq, aad, ct) ∧
    s.receiving s.pendingEpoch = some (slot, recv) ∧
    (recv.openOn seq aad ct).2 = .ok plaintext ∧ HasType plaintext msgRatchetStep2 body ∧
    readExchange mlKemCiphertextFromBytes "trailing bytes in ratchet step2" body =
      .ok (x, ciphertext) ∧ kex.finish x ciphertext = .ok sharedSecret ∧
    s.pendingEpoch + 1 < 2 ^ 32

/-- The pending key exchange is held, and a well-formed answer completes it. -/
structure HoldsStep (s : RatchetedSession β) (kex : InitiatorKex β) (epoch : ℕ) : Prop where
  pending : s.pending = some kex
  pendingEpoch : s.pendingEpoch = epoch
  completes : ∀ coins reply, s.IsReply kex reply →
    ∃ t, s.openRecord coins reply = (t, .ok (.ratchetAdvanced none)) ∧ t.pending = none ∧
      t.sendEpoch = epoch + 1

omit [Crypto β] [ByteString β] in
@[simp] theorem pending_setRecv (s : RatchetedSession β) (recv : RecvChain β) (slot : RecvSlot) :
    (s.setRecv recv slot).pending = s.pending := by
  cases slot <;> rfl

omit [Crypto β] [ByteString β] in
@[simp] theorem pendingEpoch_setRecv (s : RatchetedSession β) (recv : RecvChain β)
    (slot : RecvSlot) : (s.setRecv recv slot).pendingEpoch = s.pendingEpoch := by
  cases slot <;> rfl

/-- Holding the key exchange is enough. -/
theorem holdsStep_iff {kex : InitiatorKex β} {epoch : ℕ} :
    s.HoldsStep kex epoch ↔ s.pending = some kex ∧ s.pendingEpoch = epoch := by
  refine ⟨fun h => ⟨h.pending, h.pendingEpoch⟩, ?_⟩
  rintro ⟨hp, rfl⟩
  refine ⟨hp, rfl, fun coins reply => ?_⟩
  rintro ⟨seq, aad, ct, slot, recv, plaintext, body, x, ciphertext, ss, hread, hrecv, hopen,
    ⟨tag, hu, htag⟩, hex, hfinish, hlt⟩
  rw [openRecord_eq hread, hrecv]
  dsimp only
  have hpe : (s.setRecv (recv.openOn seq aad ct).1 slot).pendingEpoch = s.pendingEpoch := by simp
  have hpd : (s.setRecv (recv.openOn seq aad ct).1 slot).pending = some kex := by simp [hp]
  rw [hopen, handleOpened, handlePayload, hu]
  dsimp only
  rw [htag]
  change ∃ t, (((s.setRecv (recv.openOn seq aad ct).1 slot).handleStep2 s.pendingEpoch body).1,
    ((s.setRecv (recv.openOn seq aad ct).1 slot).handleStep2 s.pendingEpoch body).2.map
      fun _ => Opened.ratchetAdvanced none) = (t, _) ∧ _
  rw [handleStep2, hpd]
  dsimp only
  rw [hpe, if_neg (not_not_intro rfl), hex, Result.ok_bind]
  dsimp only
  rw [hfinish]
  dsimp only [advanceEpoch]
  rw [if_pos hlt]
  exact ⟨_, rfl, rfl, rfl⟩

/-- What a rejected record does to the pending step. -/
theorem openRecord_keepsPending_iff {coins : ResponderCoins β} {record : β} {kex : InitiatorKex β}
    {e : Error} (hp : s.pending = some kex) (h : s.openRecord coins record = (s', .err e)) :
    s'.pending = some kex ∧ s'.pendingEpoch = s.pendingEpoch ↔ ¬ s.Spoils record := by
  have hkeep : ∀ t : RatchetedSession β, t = s' → t.pending = some kex →
      t.pendingEpoch = s.pendingEpoch → ¬ s.Spoils record →
      (s'.pending = some kex ∧ s'.pendingEpoch = s.pendingEpoch ↔ ¬ s.Spoils record) := by
    rintro t rfl h1 h2 h3
    exact iff_of_true ⟨h1, h2⟩ h3
  cases hread : readRecord record with
  | none =>
    rw [openRecord, hread] at h
    refine hkeep s (Prod.mk.inj h).1 hp rfl ?_
    rintro ⟨_, _, _, _, _, _, _, h₁, -⟩
    cases hread.symm.trans h₁
  | some fields =>
    obtain ⟨epoch, seq, aad, ct⟩ := fields
    rw [openRecord_eq hread] at h
    cases hrecv : s.receiving epoch with
    | none =>
      rw [hrecv] at h
      refine hkeep s (Prod.mk.inj h).1 hp rfl ?_
      rintro ⟨_, _, _, _, _, _, _, h₁, h₂, -⟩
      cases hread.symm.trans h₁
      cases hrecv.symm.trans h₂
    | some chain =>
      obtain ⟨slot, recv⟩ := chain
      rw [hrecv] at h
      dsimp only at h
      -- the record is no step 2 of the pending epoch
      have hno : (∀ plaintext tag body, (recv.openOn seq aad ct).2 = .ok plaintext →
          unframe plaintext = some [tag, body] → readNum 1 tag = some msgRatchetStep2 →
          epoch ≠ s.pendingEpoch) → ¬ s.Spoils record := by
        rintro hall ⟨_, _, _, _, _, plaintext, body, h₁, h₂, hopen, tag, hu, htag⟩
        cases hread.symm.trans h₁
        cases hrecv.symm.trans h₂
        exact hall plaintext tag body hopen hu htag rfl
      have hpd : (s.setRecv (recv.openOn seq aad ct).1 slot).pending = some kex := by simp [hp]
      have hpe : (s.setRecv (recv.openOn seq aad ct).1 slot).pendingEpoch = s.pendingEpoch := by
        simp
      cases hopen : (recv.openOn seq aad ct).2 with
      | error e' =>
        rw [hopen] at h
        refine hkeep _ (Prod.mk.inj h).1 hpd hpe (hno fun _ _ _ h₁ => ?_)
        cases hopen.symm.trans h₁
      | ok plaintext =>
        rw [hopen, handleOpened, handlePayload] at h
        have hsame : ∀ p, (recv.openOn seq aad ct).2 = .ok p → p = plaintext := fun p h₁ =>
          (Except.ok.inj (hopen.symm.trans h₁)).symm
        split at h
        · rename_i hu
          refine hkeep _ (Prod.mk.inj h).1 hpd hpe (hno fun p tag body h₁ h₂ => ?_)
          cases hsame p h₁
          cases hu.symm.trans h₂
        · rename_i tag body hu
          have hsame' : ∀ p tag' body', (recv.openOn seq aad ct).2 = .ok p →
              unframe p = some [tag', body'] → tag' = tag ∧ body' = body := by
            intro p tag' body' h₁ h₂
            cases hsame p h₁
            cases hu.symm.trans h₂
            exact ⟨rfl, rfl⟩
          split at h
          · cases h
          · -- an own step is pending
            rename_i htag
            rw [handleStep1, hpd] at h
            refine hkeep _ (Prod.mk.inj h).1 hpd hpe (hno fun p tag' body' h₁ h₂ h₃ => ?_)
            obtain ⟨rfl, -⟩ := hsame' p tag' body' h₁ h₂
            cases htag.symm.trans h₃
          · rename_i htag
            rw [handleStep2, hpd] at h
            dsimp only at h
            rw [hpe] at h
            split_ifs at h with hep
            · refine hkeep _ (Prod.mk.inj h).1 hpd hpe (hno fun _ _ _ _ _ _ => ?_)
              exact fun he => hep he.symm
            · rw [not_not] at hep
              subst hep
              split at h
              · obtain ⟨rfl, -⟩ := Prod.mk.inj h
                refine iff_of_false (fun hk => by cases hk.1) (not_not_intro ?_)
                exact ⟨seq, aad, ct, slot, recv, plaintext, body, hread, hrecv, hopen, tag, hu, htag⟩
              · dsimp only [advanceEpoch] at h
                split_ifs at h <;> cases h
          · rename_i htag0 htag1 htag2
            refine hkeep _ (Prod.mk.inj h).1 hpd hpe (hno fun p tag' body' h₁ h₂ h₃ => ?_)
            obtain ⟨rfl, -⟩ := hsame' p tag' body' h₁ h₂
            exact absurd h₃ htag2
        · rename_i hnil hu
          refine hkeep _ (Prod.mk.inj h).1 hpd hpe (hno fun p tag body h₁ h₂ => ?_)
          cases hsame p h₁
          exact absurd h₂ (hu tag body)

section Chunks

variable [ReedSolomon β] [DecidableEq β]

/-- The chunk completes a well-formed step 2 whose X25519 key has small order. -/
def SpoilsChunk (s : RatchetedSession β) (kex : InitiatorKex β) (bytes : β) : Prop :=
  ∃ ch header ct shard slot payload d p x ciphertext e,
    parseChunkHeader bytes = .ok (ch, header, ct) ∧ ch.msgType = msgRatchetStep2Chunk ∧
    s.lastCompletedStep2Attempt ≠ some ch.attemptNonce ∧
    openAead (deriveChunkKey s.rootKey ch.attemptNonce labelChunkKeyStep2)
      (chunkNonce ch.shardIndex) header ct = .ok shard ∧
    accumulateChunk s.incomingStep2Chunks ch.attemptNonce (ch.fields shard) =
      (slot, .ok (some (payload, d, p))) ∧
    readExchange mlKemCiphertextFromBytes "trailing bytes in reconstructed ratchet step2" payload =
      .ok (x, ciphertext) ∧ kex.finish x ciphertext = .error e

/-- What a rejected chunk does to the pending step. -/
theorem openRatchetChunk_keepsPending_iff {coins : ResponderCoins β} {bytes : β}
    {kex : InitiatorKex β} {e : Error} (hp : s.pending = some kex)
    (h : s.openRatchetChunk coins bytes = (s', .err e)) :
    s'.pending = some kex ∧ s'.pendingEpoch = s.pendingEpoch ↔ ¬ s.SpoilsChunk kex bytes := by
  have hkeep : ∀ t : RatchetedSession β, t = s' → t.pending = some kex →
      t.pendingEpoch = s.pendingEpoch → ¬ s.SpoilsChunk kex bytes →
      (s'.pending = some kex ∧ s'.pendingEpoch = s.pendingEpoch ↔ ¬ s.SpoilsChunk kex bytes) := by
    rintro t rfl h1 h2 h3
    exact iff_of_true ⟨h1, h2⟩ h3
  unfold openRatchetChunk at h
  cases hparse : parseChunkHeader bytes with
  | error e' =>
    rw [hparse] at h
    refine hkeep s (Prod.mk.inj h).1 hp rfl ?_
    rintro ⟨_, _, _, _, _, _, _, _, _, _, _, h₁, -⟩
    cases hparse.symm.trans h₁
  | ok parsed =>
    obtain ⟨ch, header, ct⟩ := parsed
    rw [hparse] at h
    dsimp only at h
    split_ifs at h with ht1 ht2
    · -- a chunk of a step 1 is refused while a step is pending
      unfold openStep1Chunk at h
      rw [hp] at h
      split_ifs at h with hlast hsome
      · cases h
      · refine hkeep s (Prod.mk.inj h).1 hp rfl ?_
        rintro ⟨_, _, _, _, _, _, _, _, _, _, _, h₁, h₂, -⟩
        cases hparse.symm.trans h₁
        rw [ht1] at h₂
        cases h₂
      · exact absurd rfl hsome
    · unfold openStep2Chunk at h
      rw [hp] at h
      split_ifs at h with hlast hnone
      · cases h
      · cases hnone
      · cases hopen : openAead (deriveChunkKey s.rootKey ch.attemptNonce labelChunkKeyStep2)
            (chunkNonce ch.shardIndex) header ct with
        | error e' =>
          rw [hopen] at h
          refine hkeep s (Prod.mk.inj h).1 hp rfl ?_
          rintro ⟨_, _, _, _, _, _, _, _, _, _, _, h₁, -, -, h₂, -⟩
          cases hparse.symm.trans h₁
          cases hopen.symm.trans h₂
        | ok shard =>
          rw [hopen] at h
          dsimp only at h
          cases hacc : accumulateChunk s.incomingStep2Chunks ch.attemptNonce (ch.fields shard) with
          | mk slot filed =>
            rw [hacc] at h
            have hno : (∀ payload d p, filed = .ok (some (payload, d, p)) → ∀ x ciphertext e,
                readExchange mlKemCiphertextFromBytes
                  "trailing bytes in reconstructed ratchet step2" payload = .ok (x, ciphertext) →
                kex.finish x ciphertext ≠ .error e) → ¬ s.SpoilsChunk kex bytes := by
              rintro hall ⟨_, _, _, _, _, payload, d, p, x, ciphertext, e', h₁, -, -, h₂, h₃, h₄, h₅⟩
              cases hparse.symm.trans h₁
              cases hopen.symm.trans h₂
              exact hall payload d p (congrArg Prod.snd (hacc.symm.trans h₃)) x ciphertext e' h₄ h₅
            dsimp only at h
            split at h
            · exact hkeep _ (Prod.mk.inj h).1 rfl rfl (hno fun _ _ _ h₁ => by cases h₁)
            · cases h
            · rename_i payload d p
              unfold completeStep2 at h
              cases hex : readExchange mlKemCiphertextFromBytes
                  "trailing bytes in reconstructed ratchet step2" payload with
              | error e' =>
                rw [hex] at h
                refine hkeep _ (Prod.mk.inj h).1 rfl rfl (hno fun _ _ _ h₁ x c e' h₂ => ?_)
                cases h₁
                cases hex.symm.trans h₂
              | ok fields =>
                obtain ⟨x, ciphertext⟩ := fields
                rw [hex] at h
                dsimp only at h
                cases hfinish : kex.finish x ciphertext with
                | error e' =>
                  simp only [hfinish, Result.error_bind, Prod.mk.injEq] at h
                  obtain ⟨rfl, -⟩ := h
                  refine iff_of_false (fun hk => by cases hk.1) (not_not_intro ?_)
                  exact ⟨ch, header, ct, shard, slot, payload, d, p, x, ciphertext, e', hparse, ht2,
                    hlast, hopen, hacc, hex, hfinish⟩
                | ok ss =>
                  simp only [hfinish, Result.ok_bind, advanceEpoch] at h
                  split_ifs at h <;> cases h
    · refine hkeep s (Prod.mk.inj h).1 hp rfl ?_
      rintro ⟨_, _, _, _, _, _, _, _, _, _, _, h₁, h₂, -⟩
      cases hparse.symm.trans h₁
      exact ht2 h₂

/-- **A rejected message keeps the pending step**, and a well-formed answer then completes it,
exactly unless the message is a step 2 of the pending epoch, or completes a step 2 in chunks whose
X25519 key has small order. -/
theorem keepsPending_iff {kex : InitiatorKex β} (hp : s.pending = some kex) :
    (∀ coins record t e, s.openRecord coins record = (t, .err e) →
      (t.HoldsStep kex s.pendingEpoch ↔ ¬ s.Spoils record)) ∧
    ∀ coins bytes t e, s.openRatchetChunk coins bytes = (t, .err e) →
      (t.HoldsStep kex s.pendingEpoch ↔ ¬ s.SpoilsChunk kex bytes) := by
  constructor
  · intro coins record t e h
    rw [holdsStep_iff, openRecord_keepsPending_iff hp h]
  · intro coins bytes t e h
    rw [holdsStep_iff, openRatchetChunk_keepsPending_iff hp h]

end Chunks

end RatchetedSession

/-! ### Runs -/

section Sample

attribute [local instance] symbolicCode

/-- The outcome of a call, as one of two. -/
def toSum {α : Type} : Result α → Fault ⊕ α
  | .error e => .inl e
  | .ok a => .inr a

theorem toSum_injective {α : Type} : Function.Injective (toSum (α := α)) := by
  intro x y h
  cases x <;> cases y <;> cases h <;> rfl

/-- The peer's first two records. -/
def peerRecord (n : ℕ) : Bytes :=
  if n = 0 then (start .nil true).recordOf (RatchetedSession.typed msgApplication (.lit "first"))
  else (start .nil true).sealedOne.recordOf (RatchetedSession.typed msgApplication (.lit "second"))

/-- A record that nobody sealed, with the number `n`. -/
def forgedRecord (n : ℕ) : Bytes := frame [headerBytes 0 n, .lit "forged"]

/-- The peer's second record arrives before the first. -/
def lateRun : List Action := [⟨0, .openRecord (peerRecord 1)⟩]

theorem lateRun_spec : ∃ w, responderRun lateRun = some w ∧
    sessionMachine.Reachable (fun _ _ => True) w ∧
    (w.session.openRecord (responderCoins 1) (forgedRecord 0)).2 = .err .decrypt ∧
    (w.session.openRecord (responderCoins 1) (forgedRecord 2)).2 = .err .decrypt ∧
    (w.session.openRecord (responderCoins 2) (peerRecord 0)).2 = .ok (.application (.lit "first")) ∧
    ((w.session.openRecord (responderCoins 1) (forgedRecord 0)).1.openRecord (responderCoins 2)
      (peerRecord 0)).2 = .err .replay := by
  have hrun : (responderRun lateRun).map (fun w =>
      [toSum (w.session.openRecord (responderCoins 1) (forgedRecord 0)).2,
        toSum (w.session.openRecord (responderCoins 1) (forgedRecord 2)).2,
        toSum (w.session.openRecord (responderCoins 2) (peerRecord 0)).2,
        toSum ((w.session.openRecord (responderCoins 1) (forgedRecord 0)).1.openRecord
          (responderCoins 2) (peerRecord 0)).2]) = some [.inl (.error .decrypt),
            .inl (.error .decrypt), .inr (.application (.lit "first")),
            .inl (.error .replay)] := by decide +kernel
  obtain ⟨w, hw, hp⟩ := Option.map_eq_some_iff.1 hrun
  simp only [List.cons.injEq, and_true] at hp
  obtain ⟨h1, h2, h3, h4⟩ := hp
  have hr : sessionMachine.Reachable (fun _ _ => True) w :=
    Machine.Reachable.of_run (.init ⟨.nil, false, rfl⟩) (fun _ _ _ => trivial) hw
  exact ⟨w, hw, hr, toSum_injective h1, toSum_injective h2, toSum_injective h3,
    toSum_injective h4⟩

/-- After a forgery under a number still to come the late record opens. -/
theorem opens_after_iff_lateRun : ∃ w, responderRun lateRun = some w ∧ ∃ s' t',
    w.session.openRecord (responderCoins 1) (forgedRecord 2) = (s', .err .decrypt) ∧
    s'.openRecord (responderCoins 2) (peerRecord 0) = (t', .ok (.application (.lit "first"))) := by
  obtain ⟨w, hw, -, -, hforged, hopens, -⟩ := lateRun_spec
  have h1 : w.session.openRecord (responderCoins 1) (forgedRecord 2) = (_, .err .decrypt) :=
    Prod.ext rfl hforged
  have h2 : w.session.openRecord (responderCoins 2) (peerRecord 0) =
    (_, .ok (.application (.lit "first"))) := Prod.ext rfl hopens
  obtain ⟨t', ht'⟩ := (RatchetedSession.opens_after_iff h1 h2).2 (by
    rintro ⟨_, _, _, _, _, _, _, _, h₁, h₂, -⟩
    have hseq := congrArg (Option.map fun f => (f.1, f.2.1)) h₁
    have hseq' := congrArg (Option.map fun f => (f.1, f.2.1)) h₂
    have hread : (RatchetedSession.readRecord (forgedRecord 2)).map (fun f => (f.1, f.2.1)) = some (0, 2) := by
      decide +kernel
    have hread' : (RatchetedSession.readRecord (peerRecord 0)).map (fun f => (f.1, f.2.1)) = some (0, 0) := by
      decide +kernel
    rw [hread] at hseq
    rw [hread'] at hseq'
    simp only [Option.map_some, Option.some.injEq, Prod.mk.injEq] at hseq hseq'
    omega)
  exact ⟨w, hw, _, t', h1, ht'⟩

/-- **A forged record costs the late record whose number it carries.** -/
theorem not_opens_after_lateRun : ∃ w, sessionMachine.Reachable (fun _ _ => True) w ∧ ∃ s' t,
    w.session.openRecord (responderCoins 1) (forgedRecord 0) = (s', .err .decrypt) ∧
    w.session.openRecord (responderCoins 2) (peerRecord 0) =
      (t, .ok (.application (.lit "first"))) ∧
    (s'.openRecord (responderCoins 2) (peerRecord 0)).2 = .err .replay := by
  obtain ⟨w, -, hr, hforged, -, hopens, hafter⟩ := lateRun_spec
  exact ⟨w, hr, _, _, Prod.ext rfl hforged, Prod.ext rfl hopens, hafter⟩

/-- The peer's record that names a step 2 but holds none. -/
def malformedStep2 : Bytes :=
  (start .nil true).recordOf (RatchetedSession.typed msgRatchetStep2 (.lit "malformed"))

theorem waitingRun_spec : ∃ w, responderRun [⟨0, .initiateRatchet⟩] = some w ∧
    sessionMachine.Reachable (fun _ _ => True) w ∧ w.session.pending = some (kexOf 0) ∧
    (w.session.openRecord (responderCoins 1) malformedStep2).2 =
      .err (.malformed "unexpected end of message") ∧
    (w.session.openRecord (responderCoins 1) malformedStep2).1.pending = none ∧
    (w.session.openRecord (responderCoins 1) (forgedRecord 0)).2 = .err .decrypt := by
  have hrun : (responderRun [⟨0, .initiateRatchet⟩]).map (fun w => ([w.session.pending,
      (w.session.openRecord (responderCoins 1) malformedStep2).1.pending],
      [toSum (w.session.openRecord (responderCoins 1) malformedStep2).2,
      toSum (w.session.openRecord (responderCoins 1) (forgedRecord 0)).2])) =
      some ([some (kexOf 0), none], [.inl (.error (.malformed "unexpected end of message")),
        .inl (.error .decrypt)]) := by decide +kernel
  obtain ⟨w, hw, hp⟩ := Option.map_eq_some_iff.1 hrun
  simp only [Prod.mk.injEq, List.cons.injEq, and_true] at hp
  obtain ⟨⟨h1, h3⟩, h2, h4⟩ := hp
  have hr : sessionMachine.Reachable (fun _ _ => True) w :=
    Machine.Reachable.of_run (.init ⟨.nil, false, rfl⟩) (fun _ _ _ => trivial) hw
  exact ⟨w, hw, hr, h1, toSum_injective h2, h3, toSum_injective h4⟩

/-- A forged record keeps the pending step. -/
theorem keepsPending_iff_waitingRun : ∃ w, responderRun [⟨0, .initiateRatchet⟩] = some w ∧ ∃ t,
    w.session.openRecord (responderCoins 1) (forgedRecord 0) = (t, .err .decrypt) ∧
    t.HoldsStep (kexOf 0) w.session.pendingEpoch := by
  obtain ⟨w, hw, -, hp, -, -, hforged⟩ := waitingRun_spec
  have h : w.session.openRecord (responderCoins 1) (forgedRecord 0) = (_, .err .decrypt) :=
    Prod.ext rfl hforged
  refine ⟨w, hw, _, h, ((RatchetedSession.keepsPending_iff hp).1 _ _ _ _ h).2 ?_⟩
  rintro ⟨seq, aad, ct, slot, recv, plaintext, body, hread, hrecv, hopen, -⟩
  rw [RatchetedSession.openRecord_eq hread, hrecv] at h
  dsimp only at h
  rw [hopen] at h
  exact RatchetedSession.handleOpened_ne_decrypt _ _ _ (congrArg Prod.snd h)

/-- **A malformed step 2 uses up the pending step.** -/
theorem not_keepsPending_waitingRun : ∃ w, sessionMachine.Reachable (fun _ _ => True) w ∧
    w.session.pending = some (kexOf 0) ∧ ∃ t e,
    w.session.openRecord (responderCoins 1) malformedStep2 = (t, .err e) ∧ t.pending = none := by
  obtain ⟨w, -, hr, hp, hrejected, hpending, -⟩ := waitingRun_spec
  exact ⟨w, hr, hp, _, _, Prod.ext rfl hrejected, hpending⟩

end Sample

end Ratchet

end NovaChannel
